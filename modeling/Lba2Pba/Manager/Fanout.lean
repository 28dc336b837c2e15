import Lba2Pba.Manager.AgentSync
import Lba2Pba.Trace.Fanout

/-!
# Dead agents

`PushPba` has no `try` at all: an agent whose call raises ends the loop over the agents
of the PVC, and the request raises. The agents before it have the change and those
behind it do not.
-/

namespace Lba2Pba.Manager

open Py Agent

/-- The environment in which the calls to some addresses raise. -/
def cut (getPVC : String → String) (dead : String → Bool) : Env :=
  ⟨getPVC, fun _ w => dead w.addr⟩

/-- An agent with the map `fm` answers for the file `n` as it is after the change: from the
entry that the Manager has, or not at all. -/
def Shows (pvc n : String) (r : FMPushPbaRequest) (m' : Manager) (fm : List FilePBA) : Prop :=
  if r.action = "create" then ∃ e, m'.entry pvc n = some e ∧ findEntry fm n = some e
  else findEntry fm n = none

/-- Each agent of the PVC that can be reached is called, and its map, which was
`maps addr`, shows the change afterwards. -/
def ReachesAgents (getPVC : String → String) (dead : String → Bool) (r : FMPushPbaRequest)
    (pvc subDir : String) (maps : String → List FilePBA) (m : Manager) : Prop :=
  let out := ((pushPba (cut getPVC dead) r).run ⟨m, []⟩).2
  ∀ addr ∈ m.agents pvc, dead addr = false →
    (∃ call ∈ out.sent, call.addr = addr) ∧
    ∃ n, relPath subDir r.filePba.fileName = some n ∧
      Shows pvc n r out.self (deliver addr out.sent (maps addr))

/-- The request comes to the loop over the agents: a `create` leaves an entry, and a
`delete` of a replicated file finds no message with the name of the PVC. -/
def Announces (pvc subDir : String) (r : FMPushPbaRequest) (m : Manager) : Prop :=
  ∃ n, relPath subDir r.filePba.fileName = some n ∧ pvc ∈ m.FM.keys ∧
    if r.action = "create" then
      r.filePba.type = "Distribute" ∨
        if Str.isIn "Replicate" r.filePba.type then r.filePba.pba ≠ []
        else m.FM.get2? pvc n ≠ none
    else Str.isIn "Replicate" r.filePba.type = true →
      ∀ ref ∈ m.rawFM, (m.heap.get ref).fileName ≠ pvc

/-- A map that shows the change of the file `n` after an agent was called this often. What is
created is appended, so that an older entry of the name stays in front of it, and each
deletion takes away one entry. -/
def Accepts (pvc n : String) (r : FMPushPbaRequest) (m' : Manager) (calls : Nat)
    (fm : List FilePBA) : Prop :=
  if r.action = "create" then ∀ e, m'.entry pvc n = some e →
    findEntry fm n = some e ∨ findEntry fm n = none ∧ e.fileName = n
  else (named n fm).length ≤ calls

section Fanout

variable {getPVC : String → String} {dead : String → Bool} {r : FMPushPbaRequest} {m : Manager}
  {pvc subDir n : String} {f : FilePBA} {maps : String → List FilePBA}

/-- What the agents are sent by a `create`. -/
theorem createPushes_iff : (∃ n e, relPath subDir f.fileName = some n ∧
      (m.created pvc subDir f).entry pvc n = some e ∧
      m.createPushes pvc subDir f = (m.agents pvc).map (fun a => ⟨a, ⟨"create", e⟩⟩)) ∧
    Announces pvc subDir ⟨"create", f⟩ m ∨
    m.createPushes pvc subDir f = [] ∧ ¬ Announces pvc subDir ⟨"create", f⟩ m := by
  unfold createPushes created stored
  cases hn : relPath subDir f.fileName with
  | none =>
    refine Or.inr ⟨rfl, ?_⟩
    rintro ⟨n, hn', -⟩
    rw [hn] at hn'
    cases hn'
  | some n =>
    have hann : Announces pvc subDir ⟨"create", f⟩ m ↔ ∃ m' e,
        (m.keepRaw f).store pvc n { f with fileName := n } = .ok m' ∧
          m'.entry pvc n = some e := by
      rw [store_entry_iff]
      constructor
      · rintro ⟨n', hn', h⟩
        cases hn.symm.trans hn'
        exact h
      · exact fun h => ⟨n, hn, h⟩
    rw [hann]
    cases hs : (m.keepRaw f).store pvc n { f with fileName := n } with
    | error err =>
      refine Or.inr ⟨by simp only [hs], ?_⟩
      rintro ⟨m', e, h, -⟩
      cases h
    | ok m' =>
      simp only [hs]
      cases he : entryAt pvc n m' with
      | error err =>
        refine Or.inr ⟨rfl, ?_⟩
        rintro ⟨_, e, h, he'⟩
        cases h
        rw [entryAt_ok_iff.2 he'] at he
        cases he
      | ok e =>
        have hentry := entryAt_ok_iff.1 he
        exact Or.inl ⟨⟨n, e, rfl, hentry, rfl⟩, m', e, rfl, hentry⟩

/-- What the agents are sent by a `delete`. -/
theorem deletePushes_iff : (∃ n, relPath subDir f.fileName = some n ∧
      m.deletePushes pvc subDir f =
        (m.agents pvc).map (fun a => ⟨a, ⟨"delete", { f with fileName := n }⟩⟩)) ∧
    Announces pvc subDir ⟨"delete", f⟩ m ∨
    m.deletePushes pvc subDir f = [] ∧ ¬ Announces pvc subDir ⟨"delete", f⟩ m := by
  by_cases hann : Announces pvc subDir ⟨"delete", f⟩ m
  · obtain ⟨n, hn, hk, hraw⟩ := id hann
    exact Or.inl ⟨⟨n, hn, deletePushes_eq hk hn hraw⟩, hann⟩
  · refine Or.inr ⟨?_, hann⟩
    unfold deletePushes
    cases hn : relPath subDir f.fileName with
    | none => rfl
    | some n =>
      simp only
      split
      · rename_i hc
        split
        · rfl
        · -- the removal from `rawFM` has returned
          rename_i m' hforget
          refine absurd ⟨n, hn, Dict.mem_keys_iff.2 (Dict.contains_iff.1 hc), ?_⟩ hann
          intro hrep ref href hname
          have hany : (m.eraseEntry pvc n).rawFM.any ((m.eraseEntry pvc n).namedPvc pvc) = true :=
            List.any_eq_true.2 ⟨ref, href, decide_eq_true hname.symm⟩
          rw [forgetRaw, if_neg (ne_distribute hrep), if_pos hrep, if_pos hany] at hforget
          cases hforget
      · rfl

/-- A created entry is found where no other one of its name stands before it. -/
theorem findEntry_created {fm : List FilePBA} {e : FilePBA} {k : Nat} (hk : 0 < k) :
    findEntry (fm ++ List.replicate k e) n = some e ↔
      findEntry fm n = some e ∨ findEntry fm n = none ∧ e.fileName = n := by
  have hnew : (List.replicate k e).find? (fun f => n = f.fileName) = some e ↔ e.fileName = n := by
    rw [List.find?_replicate, if_neg (Nat.ne_of_gt hk)]
    simp [eq_comm]
  rw [findEntry, findEntry, List.find?_append]
  cases fm.find? (fun f => n = f.fileName) with
  | none => simpa using hnew
  | some x => simp

/-- What a request that comes to the loop makes the agents show. -/
theorem announced (ha : r.action = "create" ∨ r.action = "delete")
    (hplace : m.place r.filePba.fileName = some (pvc, subDir)) (h : Announces pvc subDir r m) :
    ∃ n req, relPath subDir r.filePba.fileName = some n ∧
      m.pushes r = (m.agents pvc).map (fun a => ⟨a, req⟩) ∧
      ∀ (l : List String) addr fm, addr ∈ l →
        (Shows pvc n r (m.after r) (deliver addr (l.map (fun a => ⟨a, req⟩)) fm) ↔
          Accepts pvc n r (m.after r) (l.count addr) fm) := by
  obtain ⟨action, f⟩ := r
  rcases ha with rfl | rfl
  · obtain ⟨⟨n, e, hn, he, hpush⟩, -⟩ | ⟨-, hno⟩ := createPushes_iff (m := m) (f := f)
    · refine ⟨n, ⟨"create", e⟩, hn, ?_, fun l addr fm hmem => ?_⟩
      · simp only [pushes, hplace, if_true]
        exact hpush
      · have hentry : (m.after ⟨"create", f⟩).entry pvc n = some e := by
          simp only [after, hplace, if_true]
          exact he
        rw [Shows, if_pos rfl, Accepts, if_pos rfl, deliver_create, hentry]
        simp only [Option.some.injEq, exists_eq_left', forall_eq']
        exact findEntry_created (List.count_pos_iff.2 hmem)
    · exact absurd h hno
  · obtain ⟨⟨n, hn, hpush⟩, -⟩ | ⟨-, hno⟩ := deletePushes_iff (m := m) (f := f)
    · refine ⟨n, ⟨"delete", { f with fileName := n }⟩, hn, ?_, fun l addr fm _ => ?_⟩
      · simp only [pushes, hplace]
        rw [if_neg (by decide), if_pos trivial]
        exact hpush
      · have hne : ¬ ("delete" = "create") := by decide
        rw [Shows, if_neg hne, Accepts, if_neg hne, findEntry_eq_head?, List.head?_eq_none_iff]
        exact named_deliver_delete_iff { f with fileName := n }
    · exact absurd h hno

theorem not_announced (ha : r.action = "create" ∨ r.action = "delete")
    (hplace : m.place r.filePba.fileName = some (pvc, subDir)) (h : ¬ Announces pvc subDir r m) :
    m.pushes r = [] := by
  obtain ⟨action, f⟩ := r
  rcases ha with rfl | rfl
  · obtain ⟨-, hyes⟩ | ⟨hpush, -⟩ := createPushes_iff (m := m) (f := f)
    · exact absurd hyes h
    · simp only [pushes, hplace, if_true]
      exact hpush
  · obtain ⟨-, hyes⟩ | ⟨hpush, -⟩ := deletePushes_iff (m := m) (f := f)
    · exact absurd hyes h
    · simp only [pushes, hplace]
      rw [if_neg (by decide), if_pos trivial]
      exact hpush

/-- When each agent that can be reached is called. -/
theorem called_iff (ha : r.action = "create" ∨ r.action = "delete")
    (hplace : m.place r.filePba.fileName = some (pvc, subDir)) :
    (∀ addr ∈ m.agents pvc, dead addr = false →
      ∃ call ∈ Exec.upTo (fun c => dead c.addr) (m.pushes r), call.addr = addr) ↔
    (∀ addr ∈ m.agents pvc, dead addr = true) ∨
      (Announces pvc subDir r m ∧ Exec.Ahead dead (m.agents pvc)) := by
  apply Exec.forall_reached_iff
  · rintro addr - - ⟨call, hcall, -⟩
    by_contra hno
    rw [not_announced ha hplace hno] at hcall
    cases hcall
  · intro hann addr halive
    obtain ⟨n, req, hn, hpush, -⟩ := announced ha hplace hann
    rw [hpush, Exec.upTo_map]
    constructor
    · rintro ⟨call, hcall, rfl⟩
      obtain ⟨a, hmem, rfl⟩ := List.mem_map.1 hcall
      exact hmem
    · intro hmem
      exact ⟨⟨addr, req⟩, List.mem_map.2 ⟨addr, hmem, rfl⟩, rfl⟩

/-- The agents that can be reached accept the change. -/
def AllAccept (dead : String → Bool) (r : FMPushPbaRequest) (pvc subDir : String)
    (maps : String → List FilePBA) (m : Manager) : Prop :=
  ∀ n, relPath subDir r.filePba.fileName = some n → ∀ addr ∈ m.agents pvc, dead addr = false →
    Accepts pvc n r (m.after r) ((Exec.upTo dead (m.agents pvc)).count addr) (maps addr)

/-- When each agent that can be reached shows a creation or deletion. -/
theorem reachesAgents_iff (ha : r.action = "create" ∨ r.action = "delete")
    (hplace : m.place r.filePba.fileName = some (pvc, subDir)) :
    ReachesAgents getPVC dead r pvc subDir maps m ↔ (∀ addr ∈ m.agents pvc, dead addr = true) ∨
      (Announces pvc subDir r m ∧ Exec.Ahead dead (m.agents pvc) ∧
        AllAccept dead r pvc subDir maps m) := by
  have hsent : ((pushPba (cut getPVC dead) r).run ⟨m, []⟩).2.sent =
      Exec.upTo (fun c => dead c.addr) (m.pushes r) :=
    pushPba_sent_upTo dead (fun _ _ => rfl) r m
  unfold ReachesAgents
  simp only [hsent, pushPba_self]
  constructor
  · intro hall
    rcases (called_iff ha hplace).1 (fun addr hmem halive => (hall addr hmem halive).1) with
      hdead | ⟨hann, hahead⟩
    · exact .inl hdead
    · refine .inr ⟨hann, hahead, fun n hn addr hmem halive => ?_⟩
      obtain ⟨-, n', hn', hshow⟩ := hall addr hmem halive
      obtain ⟨n'', req, hn'', hpush, hiff⟩ := announced ha hplace hann
      cases hn'.symm.trans hn
      cases hn''.symm.trans hn
      rw [hpush, Exec.upTo_map] at hshow
      exact (hiff _ addr _ ((Exec.mem_upTo_iff halive).2 (hahead addr hmem halive))).1 hshow
  · rintro (hdead | ⟨hann, hahead, haccept⟩) addr hmem halive
    · rw [hdead addr hmem] at halive
      cases halive
    · refine ⟨(called_iff ha hplace).2 (.inr ⟨hann, hahead⟩) addr hmem halive, ?_⟩
      obtain ⟨n, req, hn, hpush, hiff⟩ := announced ha hplace hann
      refine ⟨n, hn, ?_⟩
      rw [hpush, Exec.upTo_map]
      exact (hiff _ addr _ ((Exec.mem_upTo_iff halive).2 (hahead addr hmem halive))).2
        (haccept n hn addr hmem halive)

end Fanout

def twoAgents : Manager :=
  (noFiles.addAgent "pvc1" "10.0.0.1:23832").addAgent "pvc1" "10.0.0.2:23832"

/-- The first manager and the first agent are dead. -/
def firstDead (addr : String) : Bool := addr = "m1:23831" || addr = "10.0.0.1:23832"

end Lba2Pba.Manager
