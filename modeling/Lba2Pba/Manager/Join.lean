import Lba2Pba.Manager.AgentSync
import Lba2Pba.Run.Prefix

/-!
# An agent that starts while files change

`DBFileAgent` registers at the Manager, asks for the file map, stores the reply, and
only then starts to serve. The Manager handles messages in between. A push to the
agent fails until it serves, and no one repeats it: a change before the Manager
answers `GetFileMap` is in the reply, a change after the agent serves is pushed, and a
change between the two is lost.
-/

namespace Lba2Pba.Manager

open Py Agent

/-- How far the agent has come. -/
inductive Stage
  | created
  | registered
  | fetched (fileMap : List FilePBA)
  | stored
  | serving
deriving DecidableEq

/-- The Manager, and the agent with its file map. -/
structure Joining where
  manager : Manager
  stage : Stage
  agent : List FilePBA
deriving DecidableEq

namespace Joining

/-- The agent takes its next step, or the Manager handles a message. -/
inductive Step
  | startUp
  | push (request : FMPushPbaRequest)

/-- A push to the agent fails until it serves. -/
def env (getPVC : String → String) (ip : String) (stage : Stage) : Env :=
  ⟨getPVC, fun _ w => decide (stage ≠ .serving ∧ w.addr = agentAddr ip)⟩

/-- The next step of the agent. A call that raises leaves it where it is. -/
def startUp (getPVC : String → String) (ip : String) (s : Joining) : Joining :=
  match s.stage with
  | .created =>
    match s.manager.registerQA (env getPVC ip s.stage) (agentAddr ip) with
    | .ok m => ⟨m, .registered, s.agent⟩
    | .error _ => s
  | .registered =>
    match s.manager.getFileMap (env getPVC ip s.stage) ip with
    | .ok fileMap => { s with stage := .fetched fileMap }
    | .error _ => s
  | .fetched fileMap => { s with stage := .stored, agent := fileMap }
  | .stored => { s with stage := .serving }
  | .serving => s

def step (getPVC : String → String) (ip : String) (s : Joining) : Step → Joining
  | .startUp => s.startUp getPVC ip
  | .push r =>
    let out := ((pushPba (env getPVC ip s.stage) r).run ⟨s.manager, []⟩).2
    { s with
      manager := out.self
      agent := if s.stage = .serving then deliver (agentAddr ip) out.sent s.agent else s.agent }

/-- The agent has not been started. -/
def start (m : Manager) : Joining := ⟨m, .created, []⟩

/-! ## Messages -/

/-- The creation or deletion of a distributed file, which is created only while the
Manager has no entry of it. -/
structure Fresh (pvc : String) (m : Manager) (r : FMPushPbaRequest) : Prop where
  action : r.action = "create" ∨ r.action = "delete"
  type : r.filePba.type = "Distribute"
  absent : ∀ {subDir n}, r.action = "create" → m.place r.filePba.fileName = some (pvc, subDir) →
    relPath subDir r.filePba.fileName = some n → m.entry pvc n = none

/-- The map of the Manager was read, and the agent does not serve yet. -/
def InGap : Stage → Prop
  | .fetched _ => True
  | .stored => True
  | _ => False

/-- In the gap no file of the PVC is created, and none that has an entry is deleted. -/
def Calm (pvc : String) (s : Joining) (r : FMPushPbaRequest) : Prop :=
  InGap s.stage → ∀ subDir n, s.manager.place r.filePba.fileName = some (pvc, subDir) →
    relPath subDir r.filePba.fileName = some n →
    r.action = "delete" ∧ s.manager.entry pvc n = none

/-- Every message is about a fresh file, and none changes the map in the gap. -/
def Undisturbed (pvc : String) (s : Joining) : Step → Prop
  | .startUp => True
  | .push r => Fresh pvc s.manager r ∧ Calm pvc s r

/-- The list has the entries of the Manager, each once, and no others. -/
def Holds (pvc : String) (m : Manager) (fm : List FilePBA) : Prop :=
  ∀ name, named name fm = (m.entry pvc name).toList

section Message

variable {pvc : String} {m : Manager} {r : FMPushPbaRequest}

theorem Fresh.not_replicate (h : Fresh pvc m r) : Str.isIn "Replicate" r.filePba.type ≠ true := by
  rw [h.type]
  decide

theorem Fresh.keeps (h : Fresh pvc m r) : Keeps pvc m r :=
  ⟨h.absent, fun _ hrep => absurd hrep h.not_replicate,
    fun _ _ _ _ hrep => absurd hrep h.not_replicate⟩

/-- What a message does to an entry of the PVC: nothing, unless it is the one of its path. -/
theorem entry_after (hv : m.Valid) (h : Fresh pvc m r) (name : String) :
    (m.after r).entry pvc name = m.entry pvc name ∨
    ∃ subDir, m.place r.filePba.fileName = some (pvc, subDir) ∧
      relPath subDir r.filePba.fileName = some name ∧
      (r.action = "create" ∧ (m.after r).entry pvc name =
          some { r.filePba with fileName := name } ∨
        r.action = "delete" ∧ (m.after r).entry pvc name = none) := by
  cases hplace : m.place r.filePba.fileName with
  | none =>
    left
    simp only [after, hplace]
  | some x =>
    obtain ⟨p, subDir⟩ := x
    cases hn : relPath subDir r.filePba.fileName with
    | none =>
      left
      simp only [after, hplace, created, deleted, hn]
      split
      · exact entry_keepRaw hv
      · split <;> rfl
    | some n =>
      rcases h.action with ha | ha
      · simp only [after, hplace, ha, if_true]
        by_cases hk : p ∈ m.FM.keys
        · by_cases hne : p = pvc ∧ n = name
          · obtain ⟨rfl, rfl⟩ := hne
            refine Or.inr ⟨subDir, rfl, hn, Or.inl ⟨trivial, ?_⟩⟩
            rw [entry_created hv hk hn, merge, if_pos h.type]
          · left
            exact entry_created_of_ne hv hn hne (fun hrep => absurd hrep h.not_replicate)
        · left
          simp only [created, hn]
          have hk' : p ∉ (m.keepRaw r.filePba).FM.keys := hk
          rw [stored_of_not_mem hk']
          exact entry_keepRaw hv
      · have hnc : ¬ ("delete" = "create") := by decide
        simp only [after, hplace, ha, if_neg hnc, if_true]
        by_cases hk : p ∈ m.FM.keys
        · rw [entry_deleted hk hn]
          by_cases hne : p = pvc ∧ n = name
          · rw [if_pos hne]
            obtain ⟨rfl, rfl⟩ := hne
            exact Or.inr ⟨subDir, rfl, hn, Or.inr ⟨trivial, rfl⟩⟩
          · rw [if_neg hne]
            exact Or.inl rfl
        · left
          rw [deleted_of_not_mem hk]

end Message

/-! ## The invariant -/

/-- The agent is registered once, for its PVC. -/
structure Listed (pvc addr : String) (m : Manager) : Prop where
  once : (m.agents pvc).count addr = 1
  only : ∀ p, p ≠ pvc → addr ∉ m.agents p

/-- What holds in each stage. -/
def AtStage (pvc addr : String) (m : Manager) (agent : List FilePBA) : Stage → Prop
  | .created => ∀ p, addr ∉ m.agents p
  | .registered => Listed pvc addr m
  | .fetched fileMap => Listed pvc addr m ∧ pvc ∈ m.FM.keys ∧ Holds pvc m fileMap
  | .stored => Listed pvc addr m ∧ pvc ∈ m.FM.keys ∧ Holds pvc m agent
  | .serving => Listed pvc addr m ∧ pvc ∈ m.FM.keys ∧ Holds pvc m agent

structure Invariant (pvc addr : String) (s : Joining) : Prop where
  valid : s.manager.Valid
  names : ∀ name e, s.manager.entry pvc name = some e → e.fileName = name
  atStage : AtStage pvc addr s.manager s.agent s.stage

section Steps

variable {pvc addr : String} {s : Joining} {r : FMPushPbaRequest}

theorem Listed.frozen {m m' : Manager} (h : Listed pvc addr m) (hf : Frozen m m') :
    Listed pvc addr m' := by
  refine ⟨?_, fun p hp => ?_⟩
  · rw [hf.agents]
    exact h.once
  · rw [hf.agents]
    exact h.only p hp

theorem Invariant.names_after (h : Invariant pvc addr s) (hf : Fresh pvc s.manager r) :
    ∀ name e, (s.manager.after r).entry pvc name = some e → e.fileName = name := by
  intro name e he
  obtain hsame | ⟨subDir, -, -, ⟨-, hnew⟩ | ⟨-, hnone⟩⟩ := entry_after h.valid hf name
  · rw [hsame] at he
    exact h.names name e he
  · rw [hnew] at he
    cases he
    rfl
  · rw [hnone] at he
    cases he

/-- In the gap the entries stay. -/
theorem Invariant.entry_calm (h : Invariant pvc addr s) (hf : Fresh pvc s.manager r)
    (hc : Calm pvc s r) (hgap : InGap s.stage) (name : String) :
    (s.manager.after r).entry pvc name = s.manager.entry pvc name := by
  obtain hsame | ⟨subDir, hplace, hrel, hcases⟩ := entry_after h.valid hf name
  · exact hsame
  · obtain ⟨hdel, habsent⟩ := hc hgap subDir name hplace hrel
    rcases hcases with ⟨hcreate, -⟩ | ⟨-, hnone⟩
    · rw [hcreate] at hdel
      exact absurd hdel (by decide)
    · rw [hnone, habsent]

theorem Holds.congr {m m' : Manager} {fm : List FilePBA} (h : Holds pvc m fm)
    (he : ∀ name, m'.entry pvc name = m.entry pvc name) : Holds pvc m' fm := by
  intro name
  rw [he]
  exact h name

/-- A message before the agent serves. -/
theorem Invariant.push_waiting (h : Invariant pvc addr s) (hs : s.stage ≠ .serving)
    (hf : Fresh pvc s.manager r) (hc : Calm pvc s r) :
    Invariant pvc addr { s with manager := s.manager.after r } := by
  have hfr := frozen_after s.manager r
  have hgap := h.entry_calm hf hc
  refine ⟨h.valid.after r, h.names_after hf, ?_⟩
  have hat := h.atStage
  obtain ⟨m, stage, agent⟩ := s
  cases stage with
  | created =>
    intro p
    rw [hfr.agents]
    exact hat p
  | registered => exact Listed.frozen hat hfr
  | fetched fileMap =>
    obtain ⟨hl, hk, hh⟩ := hat
    exact ⟨hl.frozen hfr, hfr.keys ▸ hk, hh.congr (hgap trivial)⟩
  | stored =>
    obtain ⟨hl, hk, hh⟩ := hat
    exact ⟨hl.frozen hfr, hfr.keys ▸ hk, hh.congr (hgap trivial)⟩
  | serving => exact absurd rfl hs

/-- A message while the agent serves. -/
theorem Invariant.push_serving (h : Invariant pvc addr s) (hs : s.stage = .serving)
    (hf : Fresh pvc s.manager r) :
    Invariant pvc addr { s with
      manager := s.manager.after r
      agent := deliver addr (s.manager.pushes r) s.agent } := by
  have hfr := frozen_after s.manager r
  have hat := h.atStage
  rw [hs] at hat
  obtain ⟨hl, hk, hh⟩ := hat
  have hsynced : Synced pvc addr ⟨s.manager, s.agent⟩ := by
    refine ⟨h.valid, hk, List.count_pos_iff.1 (by rw [hl.once]; exact Nat.one_pos), hl.only,
      fun name hn => ?_, fun name e hn => ?_⟩
    · rw [hh name, hn]
      rfl
    · refine ⟨0, by rw [hl.once]; exact Nat.one_pos, ?_⟩
      rw [hh name, hn]
      rfl
  have hafter := hsynced.after hf.keeps
  refine ⟨h.valid.after r, h.names_after hf, ?_⟩
  simp only [hs]
  refine ⟨hl.frozen hfr, hfr.keys ▸ hk, fun name => ?_⟩
  cases he : (s.manager.after r).entry pvc name with
  | none => exact hafter.absent name he
  | some e =>
    -- registered once, so one copy
    obtain ⟨j, hj, hcopies⟩ := hafter.present name e he
    have hcount : ((s.manager.after r).agents pvc).count addr = 1 := (hl.frozen hfr).once
    rw [hcount] at hj
    obtain rfl : j = 0 := by omega
    exact hcopies

end Steps

section Run

variable {getPVC : String → String} {ip : String} {s : Joining}

theorem Invariant.startUp (h : Invariant (getPVC ip) (agentAddr ip) s) :
    Invariant (getPVC ip) (agentAddr ip) (s.startUp getPVC ip) := by
  have hat := h.atStage
  obtain ⟨m, stage, agent⟩ := s
  cases stage with
  | created =>
    simp only [Joining.startUp]
    split
    · rename_i m' hreg
      obtain ⟨ip', port, hsplit, rfl⟩ := registerQA_eq hreg
      cases splitAddr_agentAddr hsplit
      rw [← agentAddr_eq]
      refine ⟨⟨h.valid.raw, h.valid.entries⟩, h.names, ?_, fun p hp => ?_⟩
      · rw [env, agents_addAgent_self, List.count_append, List.count_eq_zero.2 (hat _)]
        simp
      · rw [env, agents_addAgent_of_ne hp]
        exact hat p
    · exact h
  | registered =>
    simp only [Joining.startUp]
    split
    · rename_i fileMap hfm
      unfold getFileMap at hfm
      split at hfm
      · cases hfm
      · rename_i files hfiles
        cases hfm
        exact ⟨h.valid, h.names, hat, Dict.mem_keys_iff.2 ⟨files, hfiles⟩,
          named_fileMap hfiles h.names⟩
    · exact h
  | fetched fileMap => exact ⟨h.valid, h.names, hat⟩
  | stored => exact ⟨h.valid, h.names, hat⟩
  | serving => exact h

theorem Invariant.step (h : Invariant (getPVC ip) (agentAddr ip) s) {x : Step}
    (hx : Undisturbed (getPVC ip) s x) :
    Invariant (getPVC ip) (agentAddr ip) (s.step getPVC ip x) := by
  cases x with
  | startUp => exact h.startUp
  | push r =>
    simp only [Joining.step, pushPba_self]
    by_cases hs : s.stage = .serving
    · have hr : ∀ n w, (env getPVC ip s.stage).raises n w = false := by
        intro n w
        simp [env, hs]
      rw [if_pos hs, pushPba_sent hr]
      exact h.push_serving hs hx.1
    · rw [if_neg hs]
      exact h.push_waiting hs hx.1 hx.2

/-- **An agent that starts while no file of its PVC changes in the gap** has the files of
the Manager, each once, in every state in which it serves. -/
theorem joined_holds (getPVC : String → String) (ip : String) {m₀ : Manager} (hm : Reachable m₀)
    (hname : ∀ name e, m₀.entry (getPVC ip) name = some e → e.fileName = name)
    (hnew : ∀ p, agentAddr ip ∉ m₀.agents p) (l : List Step)
    (hl : Run.Along (Joining.step getPVC ip) (Undisturbed (getPVC ip)) (start m₀) l) :
    ∀ l', l' <+: l → (l'.foldl (Joining.step getPVC ip) (start m₀)).stage = .serving →
      Holds (getPVC ip) (l'.foldl (Joining.step getPVC ip) (start m₀)).manager
        (l'.foldl (Joining.step getPVC ip) (start m₀)).agent := by
  intro l' hl' hs
  have h0 : Invariant (getPVC ip) (agentAddr ip) (start m₀) := ⟨hm.valid, hname, hnew⟩
  have hinv := hl.invariant (fun s x hi hx => hi.step hx) h0 l' hl'
  have hat := hinv.atStage
  rw [hs] at hat
  exact hat.2.2

end Run

/-! ### One file -/

theorem fresh_tableAt {m : Manager} {action : String} {offset : I64} (hm : m.pvcInfo = .ok onePvc)
    (ha : action = "create" ∨ action = "delete")
    (h : action = "create" → m.entry "pvc1" "table" = none) :
    Fresh "pvc1" m (tableAt action "Distribute" "a" offset) :=
  ⟨ha, rfl, (keeps_tableAt hm h).fresh⟩

/-- The table is created before the map is read and deleted after the agent serves. -/
theorem tableOutside_holds :
    let s := [.startUp, .push (tableAt "create" "Distribute" "a" (.lit 0)), .startUp, .startUp,
      .startUp, .push (tableAt "delete" "Distribute" "a" (.lit 0))].foldl
        (step (fun _ => "pvc1") "10.0.0.1") (start noFiles)
    s.stage = .serving ∧ Holds "pvc1" s.manager s.agent := by
  have hserving : ([.startUp, .push (tableAt "create" "Distribute" "a" (.lit 0)), .startUp,
      .startUp, .startUp, .push (tableAt "delete" "Distribute" "a" (.lit 0))].foldl
        (step (fun _ => "pvc1") "10.0.0.1") (start noFiles)).stage = .serving := by decide
  refine ⟨hserving, ?_⟩
  refine joined_holds (fun _ => "pvc1") "10.0.0.1" (.start noFiles_start)
    (fun name e h => by cases h) (fun p => List.not_mem_nil) _ ?_ _ List.prefix_rfl hserving
  refine ⟨trivial, ⟨fresh_tableAt rfl (Or.inl rfl) (fun _ => rfl), ?_⟩, trivial, trivial, trivial,
    ⟨fresh_tableAt (by decide) (Or.inr rfl) (fun h => absurd h (by decide)), ?_⟩, trivial⟩
  · exact fun hgap => hgap.elim
  · exact fun hgap => hgap.elim

/-- The table is created between the reply of `GetFileMap` and the start of the service. -/
theorem tableBetween_lost :
    let s := [.startUp, .startUp, .push (tableAt "create" "Distribute" "a" (.lit 0)), .startUp,
      .startUp].foldl (step (fun _ => "pvc1") "10.0.0.1") (start noFiles)
    s.stage = .serving ∧ ¬ Holds "pvc1" s.manager s.agent := by
  refine ⟨by decide, fun h => ?_⟩
  have htable := h "table"
  revert htable
  decide

end Joining

end Lba2Pba.Manager
