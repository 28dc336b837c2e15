import Lba2Pba.Trace.Atomic
import Lba2Pba.Trace.Relay

/-!
# Dead managers

The loop over the registered managers is inside the `try` of `TChangeFile`, and a call
that raises ends it. `reachesAll_iff` says when each manager that can be reached is
told of a change all the same: none of them is registered behind a dead one, and the
request comes to the loop at all.
-/

namespace Lba2Pba.Trace

open Py

/-- The environment in which the calls to some addresses raise. -/
def cut (toShard : String → String → Option String) (dead : String → Bool) : Env :=
  ⟨toShard, fun _ w => dead w.addr⟩

/-- Each registered manager that can be reached is told of the change. -/
def ReachesAll (toShard : String → String → Option String) (dead : String → Bool)
    (r : TChangeRequest) (t : Trace) : Prop :=
  let out := ((tChangeFile (cut toShard dead) r).run ⟨t, []⟩).2
  ∀ addr ∈ t.agent, dead addr = false → ∃ first ∈ r.filePba.pba.head?, ∃ call ∈ out.sent,
    call.addr = addr ∧ Tells r first.host t out.self call.request

/-- The request comes to the loop over the managers, with its change: it is the
creation of a base file on a known node, or the deletion of a stored one that has no
gfid in `shardDict`. -/
def Announces (r : TChangeRequest) (t : Trace) : Prop :=
  ∃ first ∈ r.filePba.pba.head?, isShard r.filePba.fileName = false ∧
    (r.action = "create" ∧ first.host ∈ t.fmDict.keys ∨
      r.action = "delete" ∧ t.fmDict.get2? first.host r.filePba.fileName ≠ none ∧
        r.filePba.fileName ∉ t.shardDict.values)

section Fanout

variable {toShard : String → String → Option String} {dead : String → Bool} {r : TChangeRequest}
  {t : Trace} {first : PBA}

/-- The frame after the loop over the managers. -/
theorem pushAll_cut {action : String} {g : Trace → Except Err FilePBA} {x : FilePBA}
    (hg : g t = .ok x) :
    ((pushAll (cut toShard dead) action g).run ⟨t, []⟩).2 =
      ⟨t, Exec.upTo (fun c => dead c.addr) (t.agent.map (fun a => ⟨a, ⟨action, x⟩⟩))⟩ := by
  rw [pushAll_run (cut toShard dead) dead [] (fun _ _ => rfl) hg]
  rfl

variable (toShard dead) in
/-- What the managers are told by a request that comes to the loop. -/
theorem announced (hs : Sound t) (hp : r.filePba.pba.head? = some first) (h : Announces r t) :
    ∃ p t', Tells r first.host t t' p ∧ ((tChangeFile (cut toShard dead) r).run ⟨t, []⟩).2 =
      ⟨t', Exec.upTo (fun c => dead c.addr) (t.agent.map (fun a => ⟨a, p⟩))⟩ := by
  rw [tChangeFile_frame]
  obtain ⟨x, hx, hb, hreach⟩ := h
  cases hp.symm.trans hx
  rcases hreach with ⟨ha, hk⟩ | ⟨ha, hsome, hv⟩
  · let f : FilePBA :=
      { pba := r.filePba.pba, fileName := r.filePba.fileName, type := r.filePba.type }
    have hg : rawEntry first.host r.filePba.fileName (t.putBase toShard first.host r.filePba) =
        .ok f := by
      rw [rawEntry, raw_putBase toShard (hs.knows hk)]
    refine ⟨⟨"create", f⟩, t.putBase toShard first.host r.filePba, ?_, ?_⟩
    · simp [Tells, hb, ha, f]
    · rw [change_create_frame hp hb hs ha hk]
      refine (pushAll_cut hg).trans ?_
      rw [agent_putBase]
  · let f : FilePBA := { fileName := r.filePba.fileName, type := r.filePba.type }
    refine ⟨⟨"delete", f⟩, t.eraseFile first.host r.filePba.fileName, ?_, ?_⟩
    · simp [Tells, hb, ha, f]
    · rw [change_delete_frame hp hb hs ha hsome hv]
      exact pushAll_cut rfl

/-- The deletion of a shard tells no manager of it. -/
theorem deleteShard_not_tells (hs : Sound t) (hp : r.filePba.pba.head? = some first)
    (ha : r.action = "delete") (hb : isShard r.filePba.fileName = true) {call : Call}
    (hc : call ∈ ((change (cut toShard dead) r).run ⟨t, []⟩).2.sent) :
    ¬ Tells r first.host t (t.dropShard first.host r.filePba) call.request := by
  rw [change_deleteShard _ _ hp ha hb, Exec.run_bind_pure_frame] at hc
  cases ho : t.owner? first.host r.filePba.fileName with
  | none =>
    rw [deleteShard_absent (fun name e h => by rw [ho] at h; cases h)] at hc
    cases hc
  | some x =>
    obtain ⟨fname, entry⟩ := x
    cases hsh : entry.shard.get? r.filePba.fileName with
    | none =>
      rw [deleteShard_absent (fun name e h => by rw [ho] at h; cases h; exact hsh)] at hc
      cases hc
    | some old =>
      by_cases hk : (entry.shard.erase r.filePba.fileName).keys = []
      · have hn := (hs.knows (Dict.mem_keys_of_get2? (owner?_eq_some ho).2)).2
        rw [deleteShard_last ho hsh hn hk] at hc
        cases hraw : rawNode fname (t.dropShard first.host r.filePba) with
        | error e =>
          rw [pushAll_error _ [] hraw] at hc
          cases hc
        | ok y =>
          -- an empty message is pushed, and it is not the new entry
          rw [pushAll_cut hraw] at hc
          have hreq : call.request = ⟨"modify", y⟩ := by
            rw [Exec.upTo_map] at hc
            obtain ⟨a, -, rfl⟩ := List.mem_map.1 hc
            rfl
          rw [hreq]
          exact not_tells_dropShard hp hb ha hs hraw
      · rw [deleteShard_more ho hsh hk] at hc
        cases hc

/-- A request that does not come to the loop tells no manager of its change. -/
theorem not_announced (hs : Sound t) (ha : r.action = "create" ∨ r.action = "delete")
    (h : ¬ Announces r t) (hp : r.filePba.pba.head? = some first) {call : Call}
    (hc : call ∈ ((tChangeFile (cut toShard dead) r).run ⟨t, []⟩).2.sent) :
    ¬ Tells r first.host t ((tChangeFile (cut toShard dead) r).run ⟨t, []⟩).2.self
      call.request := by
  rw [tChangeFile_self]
  rw [tChangeFile_frame] at hc
  cases hb : isShard r.filePba.fileName with
  | true =>
    rcases ha with ha | ha
    · obtain ⟨e, he⟩ := change_putShard (cut toShard dead) t hp hb (Or.inl ha)
      rw [he] at hc
      cases hc
    · rw [after_deleteShard _ t hp ha hb]
      exact deleteShard_not_tells hs hp ha hb hc
  | false =>
    rcases ha with ha | ha
    · have hk : first.host ∉ t.fmDict.keys :=
        fun hk => h ⟨first, hp, hb, Or.inl ⟨ha, hk⟩⟩
      rw [change_create_unknown hp hb ha hk] at hc
      cases hc
    · cases he : t.fmDict.get2? first.host r.filePba.fileName with
      | none =>
        rw [change_delete_absent hp hb ha he] at hc
        cases hc
      | some entry =>
        have hv : r.filePba.fileName ∈ t.shardDict.values := by
          by_contra hv
          exact h ⟨first, hp, hb, Or.inr ⟨ha, by rw [he]; exact Option.some_ne_none entry, hv⟩⟩
        obtain ⟨raw, hraw⟩ := hs.published he
        rw [change_deleteBase _ _ hp ha hb, Exec.run_bind_pure_frame,
          deleteBase_known _ he hraw hv] at hc
        cases hc

/-- When each manager that can be reached is told of a creation or deletion. -/
theorem reachesAll_iff (ht : Reachable t) (ha : r.action = "create" ∨ r.action = "delete") :
    ReachesAll toShard dead r t ↔ (∀ addr ∈ t.agent, dead addr = true) ∨
      (Announces r t ∧ Exec.Ahead dead t.agent) := by
  apply Exec.forall_reached_iff
  · rintro addr - - ⟨first, hp, call, hcall, -, htell⟩
    by_contra hno
    exact not_announced ht.sound ha hno hp hcall htell
  · intro hann addr halive
    obtain ⟨first, hp, -⟩ := id hann
    obtain ⟨p, t', htell, hout⟩ := announced toShard dead ht.sound hp hann
    rw [hout]
    constructor
    · rintro ⟨_, -, call, hcall, rfl, -⟩
      rw [Exec.upTo_map] at hcall
      obtain ⟨a, hmem, rfl⟩ := List.mem_map.1 hcall
      exact hmem
    · intro hmem
      refine ⟨first, hp, ⟨addr, p⟩, ?_, rfl, htell⟩
      rw [Exec.upTo_map]
      exact List.mem_map.2 ⟨addr, hmem, rfl⟩

end Fanout

end Lba2Pba.Trace
