import Lba2Pba.Manager.Start
import Lba2Pba.Agent.FileMap

/-!
# An agent and its Manager

An agent registers, fetches the file map of its PVC, and from then on takes the
pushes of the Manager. The Manager replaces or extends an entry in place. The agent
appends whatever it is sent, answers from the first entry of a name, and removes
the last one. The two stay together as long as a name is created only while the
Manager has no entry of it: then all entries of a name that the agent has are copies
of the Manager's, at most one for each time it is registered (`Synced`).
-/

namespace Lba2Pba.Manager

open Py Agent

/-- A Manager and the file map of one of its agents. -/
structure Pair where
  manager : Manager
  agent : List FilePBA
deriving DecidableEq

/-- The address under which an agent registers. -/
def agentAddr (ip : String) : String := ip ++ ":23832"

/-- `DBFileAgent.__init__`. -/
def connect (env : Env) (ip : String) (m : Manager) : Except Err Pair := do
  let m ← m.registerQA env (agentAddr ip)
  let fm ← m.getFileMap env ip
  return ⟨m, fm⟩

/-- The file map after a push. -/
def received (fm : List FilePBA) (request : FAPushRequest) : List FilePBA :=
  match pushFile request fm with
  | .ok fm' => fm'
  | .error _ => fm

/-- The file map of the agent at `addr` after the calls of a handler. -/
def deliver (addr : String) (sent : List Call) (fm : List FilePBA) : List FilePBA :=
  (sent.filter (fun c => c.addr = addr)).foldl (fun fm c => received fm c.request) fm

/-- The Manager handles a message and the agent its pushes. -/
def handle (env : Env) (ip : String) (s : Pair) (r : FMPushPbaRequest) : Pair :=
  let out := ((pushPba env r).run ⟨s.manager, []⟩).2
  ⟨out.self, deliver (agentAddr ip) out.sent s.agent⟩

/-- The agent finds the entries of the Manager and no others. -/
def Agree (pvc : String) (s : Pair) : Prop :=
  ∀ name, findEntry s.agent name = s.manager.entry pvc name

/-- A message that keeps the agents of `pvc` together with the Manager: a `create`
is for a name without an entry and adds no replica to an entry of `pvc` through
another PVC, and a `delete` is not stopped before the pushes. -/
structure Keeps (pvc : String) (m : Manager) (r : FMPushPbaRequest) : Prop where
  fresh : ∀ {subDir n}, r.action = "create" → m.place r.filePba.fileName = some (pvc, subDir) →
    relPath subDir r.filePba.fileName = some n → m.entry pvc n = none
  alone : ∀ {p subDir n ref k}, r.action = "create" → Str.isIn "Replicate" r.filePba.type = true →
    m.place r.filePba.fileName = some (p, subDir) → relPath subDir r.filePba.fileName = some n →
    p ≠ pvc → m.FM.get2? p n = some ref → m.FM.get2? pvc k ≠ some ref
  told : ∀ {subDir n}, r.action = "delete" → m.place r.filePba.fileName = some (pvc, subDir) →
    relPath subDir r.filePba.fileName = some n → m.entry pvc n ≠ none →
    Str.isIn "Replicate" r.filePba.type = true → ∀ ref ∈ m.rawFM, (m.heap.get ref).fileName ≠ pvc

/-! ## The pushes at the agent -/

section Deliver

variable {addr : String} {fm : List FilePBA}

theorem deliver_cons (c : Call) (l : List Call) :
    deliver addr (c :: l) fm =
      if c.addr = addr then deliver addr l (received fm c.request) else deliver addr l fm := by
  unfold deliver
  by_cases h : c.addr = addr
  · rw [List.filter_cons_of_pos (by simpa using h), if_pos h, List.foldl_cons]
  · rw [List.filter_cons_of_neg (by simpa using h), if_neg h]

theorem deliver_of_not_mem {sent : List Call} (h : ∀ c ∈ sent, c.addr ≠ addr) :
    deliver addr sent fm = fm := by
  have hnil : sent.filter (fun c => c.addr = addr) = [] := by
    rw [List.filter_eq_nil_iff]
    intro c hc
    simpa using h c hc
  rw [deliver, hnil, List.foldl_nil]

/-- A created file is appended once for each registration. -/
theorem deliver_create (l : List String) (e : FilePBA) :
    deliver addr (l.map (fun a => ⟨a, ⟨"create", e⟩⟩)) fm =
      fm ++ List.replicate (l.count addr) e := by
  induction l generalizing fm with
  | nil => simp [deliver]
  | cons a l ih =>
    rw [List.map_cons, deliver_cons, List.count_cons]
    by_cases ha : a = addr
    · have hrec : received fm ⟨"create", e⟩ = fm ++ [e] := rfl
      rw [if_pos ha, ih, hrec]
      simp [ha, List.replicate_succ]
    · simp [ha, ih]

theorem named_append (name : String) (l l' : List FilePBA) :
    named name (l ++ l') = named name l ++ named name l' :=
  List.filter_append _ _

theorem received_delete (f : FilePBA) :
    received fm ⟨"delete", f⟩ = popLast (fun g => decide (f.fileName = g.fileName)) fm := by
  simp [received, pushFile]

/-- A deletion takes away one copy for each registration. -/
theorem length_named_deliver_delete (l : List String) (f : FilePBA) :
    (named f.fileName (deliver addr (l.map (fun a => ⟨a, ⟨"delete", f⟩⟩)) fm)).length =
      (named f.fileName fm).length - l.count addr := by
  induction l generalizing fm with
  | nil => rfl
  | cons a l ih =>
    rw [List.map_cons, deliver_cons, List.count_cons]
    by_cases ha : a = addr
    · rw [if_pos ha, ih, received_delete, named, filter_popLast_self, List.length_dropLast, named]
      simp only [ha, beq_self_eq_true, if_true]
      omega
    · simp [ha, ih]

/-- All copies go if there are no more of them than registrations. -/
theorem named_deliver_delete_iff {l : List String} (f : FilePBA) :
    named f.fileName (deliver addr (l.map (fun a => ⟨a, ⟨"delete", f⟩⟩)) fm) = [] ↔
      (named f.fileName fm).length ≤ l.count addr := by
  rw [← List.length_eq_zero_iff, length_named_deliver_delete, Nat.sub_eq_zero_iff_le]

theorem named_deliver_delete_of_ne {l : List String} {name : String} (f : FilePBA)
    (hne : name ≠ f.fileName) :
    named name (deliver addr (l.map (fun a => ⟨a, ⟨"delete", f⟩⟩)) fm) = named name fm := by
  induction l generalizing fm with
  | nil => rfl
  | cons a l ih =>
    rw [List.map_cons, deliver_cons]
    split
    · rw [ih, received_delete]
      refine filter_popLast_of_disjoint (fun g hg => ?_) fm
      have hg' : name = g.fileName := by simpa using hg
      simpa [← hg'] using hne.symm
    · exact ih

end Deliver

/-! ## The pushes of the Manager -/

section Pushes

variable {m : Manager} {p subDir n : String} {f : FilePBA}

/-- The agents of a PVC without an entry of the name are sent the new entry. -/
theorem createPushes_of_none (hn : relPath subDir f.fileName = some n)
    (hnone : m.entry p n = none) :
    m.createPushes p subDir f = match (m.created p subDir f).entry p n with
      | none => []
      | some e => (m.agents p).map (fun a => ⟨a, ⟨"create", e⟩⟩) := by
  have hget : m.FM.get2? p n = none := entry_eq_none_iff.1 hnone
  have hraw : (m.keepRaw f).entry p n = none := entry_eq_none_iff.2 hget
  simp only [createPushes, created, stored, hn]
  cases (m.keepRaw f).store p n { f with fileName := n } with
  | error e => simp only [hraw]
  | ok m' =>
    simp only [entryAt, entry]
    cases m'.FM.get2? p n <;> rfl

theorem mem_pushes_addr {r : FMPushPbaRequest} {c : Call}
    (hplace : m.place r.filePba.fileName = some (p, subDir)) (hc : c ∈ m.pushes r) :
    c.addr ∈ m.agents p := by
  have hmap : ∀ (req : FAPushRequest), c ∈ (m.agents p).map (fun a => (⟨a, req⟩ : Call)) →
      c.addr ∈ m.agents p := by
    intro req h
    obtain ⟨a, ha, rfl⟩ := List.mem_map.1 h
    exact ha
  simp only [pushes, hplace] at hc
  split at hc
  · unfold createPushes at hc
    split at hc
    · cases hc
    · split at hc
      · cases hc
      · split at hc
        · cases hc
        · exact hmap _ hc
  · split at hc
    · unfold deletePushes at hc
      split at hc
      · cases hc
      · split at hc
        · split at hc
          · cases hc
          · exact hmap _ hc
        · cases hc
    · cases hc

/-- A removal is announced to all agents of the PVC or to none. -/
theorem deletePushes_cases (hn : relPath subDir f.fileName = some n) :
    m.deletePushes p subDir f = [] ∨ m.deletePushes p subDir f =
      (m.agents p).map (fun a => ⟨a, ⟨"delete", { f with fileName := n }⟩⟩) := by
  simp only [deletePushes, hn]
  split
  · split
    · exact .inl rfl
    · exact .inr rfl
  · exact .inl rfl

/-- The agents of a PVC are told of a removal unless `rawFM` has a message of its name. -/
theorem deletePushes_eq (hp : p ∈ m.FM.keys) (hn : relPath subDir f.fileName = some n)
    (hraw : Str.isIn "Replicate" f.type = true → ∀ ref ∈ m.rawFM, (m.heap.get ref).fileName ≠ p) :
    m.deletePushes p subDir f =
      (m.agents p).map (fun a => ⟨a, ⟨"delete", { f with fileName := n }⟩⟩) := by
  have hforget : ∃ m', (m.eraseEntry p n).forgetRaw p f.type = .ok m' := by
    unfold forgetRaw
    split
    · exact ⟨_, rfl⟩
    · split
      · rename_i hrep
        rw [if_neg]
        · exact ⟨_, rfl⟩
        · rw [List.any_eq_true]
          rintro ⟨ref, hmem, hname⟩
          have hname' : p = (m.heap.get ref).fileName := of_decide_eq_true hname
          exact hraw hrep ref hmem hname'.symm
      · exact ⟨_, rfl⟩
  obtain ⟨m', hm'⟩ := hforget
  simp only [deletePushes, hn, if_pos (Dict.contains_iff.2 (Dict.mem_keys_iff.1 hp)), hm']

end Pushes

/-! ## The invariant -/

/-- All entries of a name at the agent are copies of the Manager's entry, not more
of them than the agent is registered for the PVC. -/
structure Synced (pvc addr : String) (s : Pair) : Prop where
  valid : s.manager.Valid
  known : pvc ∈ s.manager.FM.keys
  listed : addr ∈ s.manager.agents pvc
  only : ∀ p, p ≠ pvc → addr ∉ s.manager.agents p
  absent : ∀ name, s.manager.entry pvc name = none → named name s.agent = []
  present : ∀ name e, s.manager.entry pvc name = some e →
    ∃ j < (s.manager.agents pvc).count addr, named name s.agent = List.replicate (j + 1) e

theorem Synced.agree {pvc addr : String} {s : Pair} (h : Synced pvc addr s) : Agree pvc s := by
  intro name
  rw [findEntry_eq_head?]
  cases he : s.manager.entry pvc name with
  | none => rw [h.absent name he, List.head?_nil]
  | some e =>
    obtain ⟨j, -, hj⟩ := h.present name e he
    rw [hj, List.replicate_succ, List.head?_cons]

theorem handle_eq {env : Env} (hr : ∀ n w, env.raises n w = false) (ip : String) (s : Pair)
    (r : FMPushPbaRequest) :
    handle env ip s r =
      ⟨s.manager.after r, deliver (agentAddr ip) (s.manager.pushes r) s.agent⟩ := by
  simp only [handle]
  rw [pushPba_self, pushPba_sent hr]

theorem merge_none_fileName {f e : FilePBA} (h : merge none f = some e) :
    e.fileName = f.fileName := by
  unfold merge at h
  split at h
  · cases h
    rfl
  · split at h
    · split at h
      · cases h
      · cases h
        rfl
    · cases h

section Step

variable {pvc addr : String} {s : Pair} {r : FMPushPbaRequest}

/-- A request that changes no entry of the PVC and tells its agents nothing. -/
theorem Synced.of_same {m' : Manager} (h : Synced pvc addr s) (hv : m'.Valid)
    (hf : Frozen s.manager m') (he : ∀ name, m'.entry pvc name = s.manager.entry pvc name) :
    Synced pvc addr ⟨m', s.agent⟩ := by
  refine ⟨hv, hf.keys ▸ h.known, hf.agents pvc ▸ h.listed, fun p hp => ?_, fun name hn => ?_,
    fun name e hn => ?_⟩
  · rw [hf.agents]
    exact h.only p hp
  · rw [he] at hn
    exact h.absent name hn
  · rw [he] at hn
    rw [hf.agents]
    exact h.present name e hn

theorem Synced.create {subDir n : String} {f : FilePBA} (h : Synced pvc addr s)
    (hn : relPath subDir f.fileName = some n) (hnone : s.manager.entry pvc n = none) :
    Synced pvc addr ⟨s.manager.created pvc subDir f,
      deliver addr (s.manager.createPushes pvc subDir f) s.agent⟩ := by
  have hf := frozen_created pvc f s.manager subDir
  have hother : ∀ name, name ≠ n →
      (s.manager.created pvc subDir f).entry pvc name = s.manager.entry pvc name := by
    intro name hne
    refine entry_created_of_ne h.valid hn (fun hc => hne hc.2.symm) (fun _ ref href => ?_)
    rw [entry_eq_none_iff.1 hnone] at href
    cases href
  have hself := entry_created h.valid h.known hn
  rw [hnone] at hself
  rw [createPushes_of_none hn hnone]
  cases he : (s.manager.created pvc subDir f).entry pvc n with
  | none =>
    refine h.of_same (h.valid.created subDir) hf (fun name => ?_)
    by_cases hne : name = n
    · rw [hne, he, hnone]
    · exact hother name hne
  | some e =>
    have hname : e.fileName = n := merge_none_fileName (hself.symm.trans he)
    have hnamed : ∀ k name, named name (List.replicate k e) =
        if name = n then List.replicate k e else [] := by
      intro k name
      rw [named, List.filter_replicate, hname]
      by_cases hne : name = n <;> simp [hne]
    simp only [deliver_create]
    refine ⟨h.valid.created subDir, hf.keys ▸ h.known, hf.agents pvc ▸ h.listed, fun p hp => ?_,
      fun name hnn => ?_, fun name e' hnn => ?_⟩
    · rw [hf.agents]
      exact h.only p hp
    · have hne : name ≠ n := by
        rintro rfl
        rw [he] at hnn
        cases hnn
      rw [hother name hne] at hnn
      rw [named_append, h.absent name hnn, hnamed, if_neg hne, List.append_nil]
    · rw [hf.agents, named_append, hnamed]
      by_cases hne : name = n
      · subst hne
        rw [he] at hnn
        cases hnn
        rw [if_pos rfl, h.absent name hnone, List.nil_append]
        have hpos := List.count_pos_iff.2 h.listed
        exact ⟨_, Nat.sub_one_lt_of_lt hpos, by rw [Nat.sub_one_add_one_eq_of_pos hpos]⟩
      · rw [hother name hne] at hnn
        rw [if_neg hne, List.append_nil]
        exact h.present name e' hnn

theorem Synced.delete {subDir n : String} {f : FilePBA} (h : Synced pvc addr s)
    (hn : relPath subDir f.fileName = some n)
    (hraw : s.manager.entry pvc n ≠ none → Str.isIn "Replicate" f.type = true →
      ∀ ref ∈ s.manager.rawFM, (s.manager.heap.get ref).fileName ≠ pvc) :
    Synced pvc addr ⟨s.manager.deleted pvc subDir f,
      deliver addr (s.manager.deletePushes pvc subDir f) s.agent⟩ := by
  have hf := frozen_deleted pvc f s.manager subDir
  have hpush := deletePushes_cases (m := s.manager) (p := pvc) hn
  have hself : named n (deliver addr (s.manager.deletePushes pvc subDir f) s.agent) = [] := by
    cases he : s.manager.entry pvc n with
    | none =>
      have hnil := h.absent n he
      rcases hpush with hp | hp
      · rw [hp]
        exact hnil
      · rw [hp]
        refine (named_deliver_delete_iff { f with fileName := n }).2 ?_
        rw [hnil]
        exact Nat.zero_le _
    | some e =>
      obtain ⟨j, hj, hcopies⟩ := h.present n e he
      rw [deletePushes_eq h.known hn (hraw (by rw [he]; exact Option.some_ne_none e))]
      refine (named_deliver_delete_iff { f with fileName := n }).2 ?_
      rw [hcopies, List.length_replicate]
      exact hj
  have hother : ∀ name, name ≠ n →
      named name (deliver addr (s.manager.deletePushes pvc subDir f) s.agent) =
        named name s.agent := by
    intro name hne
    rcases hpush with hp | hp
    · rw [hp]
      rfl
    · rw [hp]
      exact named_deliver_delete_of_ne { f with fileName := n } hne
  refine ⟨h.valid.deleted subDir, hf.keys ▸ h.known, hf.agents pvc ▸ h.listed, fun p hp => ?_,
    fun name hnn => ?_, fun name e hnn => ?_⟩
  · rw [hf.agents]
    exact h.only p hp
  · by_cases hne : name = n
    · rw [hne]
      exact hself
    · rw [entry_deleted h.known hn, if_neg (fun hc => hne hc.2.symm)] at hnn
      rw [hother name hne]
      exact h.absent name hnn
  · by_cases hne : name = n
    · rw [entry_deleted h.known hn, if_pos ⟨rfl, hne.symm⟩] at hnn
      cases hnn
    · rw [entry_deleted h.known hn, if_neg (fun hc => hne hc.2.symm)] at hnn
      rw [hf.agents, hother name hne]
      exact h.present name e hnn

/-- One message for another PVC. -/
theorem Synced.other {p subDir : String} (h : Synced pvc addr s) (hp : p ≠ pvc)
    (hplace : s.manager.place r.filePba.fileName = some (p, subDir))
    (hk : Keeps pvc s.manager r) :
    Synced pvc addr ⟨s.manager.after r, deliver addr (s.manager.pushes r) s.agent⟩ := by
  have hquiet : deliver addr (s.manager.pushes r) s.agent = s.agent := by
    refine deliver_of_not_mem (fun c hc ha => h.only p hp ?_)
    rw [← ha]
    exact mem_pushes_addr hplace hc
  rw [hquiet]
  refine h.of_same (h.valid.after r) (frozen_after s.manager r) (fun name => ?_)
  simp only [after, hplace]
  split
  · rename_i hc
    cases hn : relPath subDir r.filePba.fileName with
    | none =>
      simp only [created, hn]
      exact entry_keepRaw h.valid
    | some n =>
      exact entry_created_of_ne h.valid hn (fun hne => hp hne.1)
        (fun hrep ref href => hk.alone hc hrep hplace hn hp href)
  · split
    · cases hn : relPath subDir r.filePba.fileName with
      | none => simp only [deleted, hn]
      | some n =>
        by_cases hkeys : p ∈ s.manager.FM.keys
        · rw [entry_deleted hkeys hn, if_neg (fun hne => hp hne.1)]
        · rw [deleted_of_not_mem hkeys]
    · rfl

/-- One message. -/
theorem Synced.after (h : Synced pvc addr s) (hk : Keeps pvc s.manager r) :
    Synced pvc addr ⟨s.manager.after r, deliver addr (s.manager.pushes r) s.agent⟩ := by
  cases hplace : s.manager.place r.filePba.fileName with
  | none =>
    simp only [Manager.after, pushes, hplace]
    exact h
  | some x =>
    obtain ⟨p, subDir⟩ := x
    by_cases hp : p = pvc
    · subst hp
      simp only [Manager.after, pushes, hplace]
      split
      · rename_i hc
        cases hn : relPath subDir r.filePba.fileName with
        | none =>
          simp only [created, createPushes, hn]
          exact h.of_same h.valid.keepRaw (frozen_keepRaw _ _) (fun _ => entry_keepRaw h.valid)
        | some n => exact h.create hn (hk.fresh hc hplace hn)
      · split
        · rename_i hd
          cases hn : relPath subDir r.filePba.fileName with
          | none =>
            simp only [deleted, deletePushes, hn]
            exact h
          | some n => exact h.delete hn (fun hne => hk.told hd hplace hn hne)
        · exact h
    · exact h.other hp hplace hk

end Step

/-! ## The start of the agent -/

section Connect

variable {env : Env} {ip : String} {m : Manager} {s : Pair}

theorem agentAddr_eq (ip : String) : agentAddr ip = ip ++ ":" ++ "23832" := by
  rw [String.append_assoc]
  rfl

/-- An address with another colon in it is refused. -/
theorem splitAddr_agentAddr {x : String × String} (h : splitAddr (agentAddr ip) = .ok x) :
    x = (ip, "23832") := by
  have hport : Str.split "23832" ":" = ["23832"] := by decide
  have hsep : ":".toList = [':'] := rfl
  rw [splitAddr, agentAddr_eq] at h
  by_cases hip : ':' ∈ ip.toList
  · obtain ⟨p, q, r, rest, hs⟩ := Str.split_append_of_mem (t := "23832") hsep hip
    rw [hs] at h
    cases h
  · rw [Str.split_append hsep hip, hport] at h
    cases h
    rfl

/-- The agent is registered and has a copy of the entries of its PVC. -/
theorem connect_eq (h : connect env ip m = .ok s) :
    ∃ files, m.FM.get? (env.getPVC ip) = some files ∧
      s = ⟨m.addAgent (env.getPVC ip) (agentAddr ip), files.values.map m.heap.get⟩ := by
  obtain ⟨m', hreg, h⟩ := bind_eq_ok.1 h
  obtain ⟨fm, hfm, h⟩ := bind_eq_ok.1 h
  obtain ⟨ip', port, hsplit, rfl⟩ := registerQA_eq hreg
  cases splitAddr_agentAddr hsplit
  cases h
  unfold getFileMap at hfm
  split at hfm
  · cases hfm
  · rename_i files hfiles
    cases hfm
    refine ⟨files, hfiles, ?_⟩
    rw [agentAddr_eq]
    rfl

theorem named_values {g : Nat → FilePBA} {l : List (String × Nat)} (hn : (l.map Prod.fst).Nodup)
    (hname : ∀ x ∈ l, (g x.2).fileName = x.1) (name : String) :
    named name ((l.map Prod.snd).map g) = ((Dict.lookupIn name l).map g).toList := by
  induction l with
  | nil => rfl
  | cons x l ih =>
    rw [List.map_cons, List.nodup_cons] at hn
    have hx := hname x List.mem_cons_self
    have hrest := ih hn.2 (fun y hy => hname y (List.mem_cons_of_mem x hy))
    simp only [named, List.map_cons, List.filter_cons, Dict.lookupIn, hx] at hrest ⊢
    rw [hrest]
    by_cases hk : name = x.1
    · have hnone : Dict.lookupIn name l = none := by
        rw [← Option.not_isSome_iff_eq_none, Dict.lookupIn_isSome, hk]
        exact hn.1
      simp [hnone, hk.symm]
    · simp [hk, Ne.symm hk]

theorem agents_addAgent_self (pvc addr : String) (m : Manager) :
    (m.addAgent pvc addr).agents pvc = m.agents pvc ++ [addr] := by
  simp [addAgent, agents]

theorem agents_addAgent_of_ne {pvc p : String} (hp : p ≠ pvc) (addr : String) (m : Manager) :
    (m.addAgent pvc addr).agents p = m.agents p := by
  simp only [addAgent, agents, Dict.get?_set_of_ne _ (Ne.symm hp)]

/-- The reply of `GetFileMap` has the entries of the PVC, each once. -/
theorem named_fileMap {pvc : String} {files : Dict String Nat} (hfiles : m.FM.get? pvc = some files)
    (hname : ∀ name e, m.entry pvc name = some e → e.fileName = name) (name : String) :
    named name (files.values.map m.heap.get) = (m.entry pvc name).toList := by
  have hget : ∀ name, m.FM.get2? pvc name = files.get? name :=
    fun name => Dict.get2?_of_get? hfiles
  rw [entry, hget]
  refine named_values files.nodupKeys (fun x hx => ?_) name
  exact hname x.1 _ (entry_eq_some_iff.2 ⟨x.2, (hget x.1).trans (Dict.mem_items_iff.1 hx), rfl⟩)

theorem connect_synced (hv : m.Valid)
    (hname : ∀ name e, m.entry (env.getPVC ip) name = some e → e.fileName = name)
    (honly : ∀ p, p ≠ env.getPVC ip → agentAddr ip ∉ m.agents p)
    (h : connect env ip m = .ok s) : Synced (env.getPVC ip) (agentAddr ip) s := by
  obtain ⟨files, hfiles, rfl⟩ := connect_eq h
  have hlast : agentAddr ip ∈ m.agents (env.getPVC ip) ++ [agentAddr ip] :=
    List.mem_append_right _ (List.mem_singleton.2 rfl)
  refine ⟨⟨hv.raw, hv.entries⟩, Dict.mem_keys_iff.2 ⟨files, hfiles⟩, ?_, fun p hp => ?_,
    fun name hnone => ?_, fun name e hsome => ?_⟩
  · rw [agents_addAgent_self]
    exact hlast
  · rw [agents_addAgent_of_ne hp]
    exact honly p hp
  · have hnone' : m.entry (env.getPVC ip) name = none := hnone
    rw [named_fileMap hfiles hname, hnone']
    rfl
  · have hsome' : m.entry (env.getPVC ip) name = some e := hsome
    refine ⟨0, ?_, ?_⟩
    · rw [agents_addAgent_self]
      exact List.count_pos_iff.2 hlast
    · rw [named_fileMap hfiles hname, hsome']
      rfl

end Connect

/-! ## Runs -/

/-- A reachable Manager and an agent that has started on it agree on every file after
each message of a run whose messages all keep them together. -/
theorem agent_agrees {env : Env} (hr : ∀ n w, env.raises n w = false) {m₀ : Manager}
    (hm : Reachable m₀) {ip : String} {s₀ : Pair} (hconn : connect env ip m₀ = .ok s₀)
    (hname : ∀ name e, m₀.entry (env.getPVC ip) name = some e → e.fileName = name)
    (honly : ∀ p, p ≠ env.getPVC ip → agentAddr ip ∉ m₀.agents p) (l : List FMPushPbaRequest)
    (hl : ∀ l₁ r l₂, l = l₁ ++ r :: l₂ →
      Keeps (env.getPVC ip) (l₁.foldl (handle env ip) s₀).manager r) :
    ∀ l', l' <+: l → Agree (env.getPVC ip) (l'.foldl (handle env ip) s₀) := by
  suffices H : ∀ l', l' <+: l →
      Synced (env.getPVC ip) (agentAddr ip) (l'.foldl (handle env ip) s₀) from
    fun l' hl' => (H l' hl').agree
  intro l'
  induction l' using List.reverseRecOn with
  | nil => exact fun _ => connect_synced hm.valid hname honly hconn
  | append_singleton l' r ih =>
    rintro ⟨rest, hrest⟩
    rw [List.append_assoc, List.singleton_append] at hrest
    rw [List.foldl_append, List.foldl_cons, List.foldl_nil, handle_eq hr]
    exact (ih ⟨r :: rest, hrest⟩).after (hl l' r rest hrest.symm)

/-! ## Runs on one file -/

/-- A message about the file `table`, with its extent at `offset`. -/
def tableAt (action type host : String) (offset : I64) : FMPushPbaRequest :=
  ⟨action, { pba := [.blockAt host offset], fileName := "/brick/vol/pvc1/table", type := type }⟩

theorem noFiles_connect :
    connect quiet "10.0.0.1" noFiles = .ok ⟨noFiles.addAgent "pvc1" "10.0.0.1:23832", []⟩ := by
  decide

theorem keeps_tableAt {m : Manager} {action : String} {offset : I64}
    (hm : m.pvcInfo = .ok onePvc) (h : action = "create" → m.entry "pvc1" "table" = none) :
    Keeps "pvc1" m (tableAt action "Distribute" "a" offset) := by
  have htype : Str.isIn "Replicate" "Distribute" ≠ true := by decide
  constructor
  · intro subDir n ha hp hn
    cases (place_table hm).symm.trans hp
    cases relPath_table.symm.trans hn
    exact h ha
  · exact fun _ hrep => absurd hrep htype
  · exact fun _ _ _ _ hrep => absurd hrep htype

/-- Created, deleted and created again: the agent follows. -/
theorem tableRecreated_agrees :
    Agree "pvc1" ([tableAt "create" "Distribute" "a" (.lit 0),
      tableAt "delete" "Distribute" "a" (.lit 0),
      tableAt "create" "Distribute" "a" (.lit 8192)].foldl (handle quiet "10.0.0.1")
        ⟨noFiles.addAgent "pvc1" "10.0.0.1:23832", []⟩) := by
  refine agent_agrees (fun _ _ => rfl) (.start noFiles_start) noFiles_connect
    (fun name e h => by cases h) (fun p _ => List.not_mem_nil) _ ?_ _ List.prefix_rfl
  intro l₁ r l₂ he
  rcases l₁ with _ | ⟨r₁, _ | ⟨r₂, _ | ⟨r₃, l₁⟩⟩⟩
  · cases he
    exact keeps_tableAt rfl (fun _ => rfl)
  · cases he
    exact keeps_tableAt (by decide) (fun h => absurd h (by decide))
  · cases he
    exact keeps_tableAt (by decide) (fun _ => by decide)
  · simp at he

theorem tableTwice_not_agree :
    ∃ m s, start (.ok onePvc) [] = .ok m ∧ connect quiet "10.0.0.1" m = .ok s ∧
      ¬ Agree "pvc1" ([tableAt "create" "Distribute" "a" (.lit 0),
        tableAt "create" "Distribute" "a" (.lit 8192)].foldl (handle quiet "10.0.0.1") s) := by
  refine ⟨_, _, noFiles_start, noFiles_connect, fun h => ?_⟩
  have htable := h "table"
  revert htable
  decide

end Lba2Pba.Manager
