import Lba2Pba.Trace.Invariant

/-!
# When `TChangeFile` is all or nothing

The whole handler is one `try`, so a `Fail` can come after some of the maps are
changed, and an `OK` after the managers were pushed something else than the change.
`allOrNothing_iff` says for which objects and requests neither happens.
-/

namespace Lba2Pba.Trace

open Py

/-- The push tells a manager the change of a base file. A shard changes the file it
belongs to, so the push has the new entry of that file, after the request. -/
def Tells (r : TChangeRequest) (node : String) (t t' : Trace) (p : FMPushPbaRequest) : Prop :=
  if isShard r.filePba.fileName then
    ∃ fname entry, t.owner? node r.filePba.fileName = some (fname, entry) ∧
      t'.rawFM.get2? node fname = some p.filePba
  else p.action = r.action ∧ p.filePba.fileName = r.filePba.fileName ∧
    (r.action ≠ "delete" → p.filePba.pba = r.filePba.pba)

/-- A `Fail` leaves the maps alone and pushes nothing; an `OK` tells every manager. -/
structure AllOrNothing (env : Env) (r : TChangeRequest) (t : Trace) : Prop where
  fail : ((tChangeFile env r).run ⟨t, []⟩).1 = .ok .Fail →
    ((tChangeFile env r).run ⟨t, []⟩).2.self.fmDict = t.fmDict ∧
    ((tChangeFile env r).run ⟨t, []⟩).2.self.rawFM = t.rawFM ∧
    ((tChangeFile env r).run ⟨t, []⟩).2.self.shardDict = t.shardDict ∧
    ((tChangeFile env r).run ⟨t, []⟩).2.sent = []
  ok : ((tChangeFile env r).run ⟨t, []⟩).1 = .ok .OK → ∀ addr ∈ t.agent,
    ∃ first ∈ r.filePba.pba.head?, ∃ call ∈ ((tChangeFile env r).run ⟨t, []⟩).2.sent,
      call.addr = addr ∧
      Tells r first.host t ((tChangeFile env r).run ⟨t, []⟩).2.self call.request

/-- The objects on which the request is all or nothing. -/
def Whole (r : TChangeRequest) (t : Trace) : Prop :=
  match r.filePba.pba.head? with
  | none => True
  | some first =>
    let f := r.filePba
    if isShard f.fileName then
      match t.owner? first.host f.fileName with
      | none => True
      | some (_, entry) =>
        if r.action = "create" ∨ r.action = "modify" then entry.shard.get? f.fileName = some f
        else if r.action = "delete" then entry.shard.get? f.fileName = none ∨
          ((entry.shard.erase f.fileName).keys = [] ∧ t.agent = [])
        else True
    else if r.action = "modify" then
      ∀ entry raw, t.fmDict.get2? first.host f.fileName = some entry →
        t.rawFM.get2? first.host f.fileName = some raw →
        if entry.shard.keys = [] then t.agent = [] ∨ raw.pba = f.pba else entry.pba = f.pba
    else if r.action = "delete" then
      t.fmDict.get2? first.host f.fileName = none ∨ f.fileName ∉ t.shardDict.values
    else True

/-! ## The two outcomes -/

section Outcome

variable {env : Env} {r : TChangeRequest} {t : Trace} {s' : Frame Trace Call}

theorem allOrNothing_of_fail (h : (tChangeFile env r).run ⟨t, []⟩ = (.ok .Fail, s')) :
    AllOrNothing env r t ↔ s'.self.fmDict = t.fmDict ∧ s'.self.rawFM = t.rawFM ∧
      s'.self.shardDict = t.shardDict ∧ s'.sent = [] := by
  constructor
  · intro ha
    have hf := ha.fail
    rw [h] at hf
    exact hf rfl
  · intro hs
    refine ⟨fun _ => ?_, fun hok => ?_⟩
    · rw [h]
      exact hs
    · rw [h] at hok
      cases hok

theorem allOrNothing_of_error {e : Err} (h : (change env r).run ⟨t, []⟩ = (.error e, s')) :
    AllOrNothing env r t ↔ s'.self.fmDict = t.fmDict ∧ s'.self.rawFM = t.rawFM ∧
      s'.self.shardDict = t.shardDict ∧ s'.sent = [] := by
  refine allOrNothing_of_fail ?_
  rw [tChangeFile, Exec.run_tryExcept_error h]
  rfl

theorem allOrNothing_unchanged {e : Err} (h : (change env r).run ⟨t, []⟩ = (.error e, ⟨t, []⟩)) :
    AllOrNothing env r t :=
  (allOrNothing_of_error h).2 ⟨rfl, rfl, rfl, rfl⟩

theorem allOrNothing_of_ok (h : (change env r).run ⟨t, []⟩ = (.ok .OK, s')) :
    AllOrNothing env r t ↔ ∀ addr ∈ t.agent, ∃ first ∈ r.filePba.pba.head?, ∃ call ∈ s'.sent,
      call.addr = addr ∧ Tells r first.host t s'.self call.request := by
  have hrun : (tChangeFile env r).run ⟨t, []⟩ = (.ok .OK, s') := by
    rw [tChangeFile, Exec.run_tryExcept_ok h]
  constructor
  · intro ha
    have hok := ha.ok
    rw [hrun] at hok
    exact hok rfl
  · intro hs
    refine ⟨fun hf => ?_, fun _ => ?_⟩
    · rw [hrun] at hf
      cases hf
    · rw [hrun]
      exact hs

/-- All managers are pushed one message. -/
theorem allOrNothing_of_pushed {first : PBA} {p : FMPushPbaRequest} {t' : Trace}
    (hp : r.filePba.pba.head? = some first)
    (h : (change env r).run ⟨t, []⟩ = (.ok .OK, ⟨t', t.agent.map (fun a => ⟨a, p⟩)⟩)) :
    AllOrNothing env r t ↔ t.agent = [] ∨ Tells r first.host t t' p := by
  rw [allOrNothing_of_ok h, hp]
  constructor
  · intro hall
    cases ha : t.agent with
    | nil => exact .inl rfl
    | cons a rest =>
      obtain ⟨x, hx, call, hcall, -, htell⟩ := hall a (ha ▸ List.mem_cons_self)
      cases hx
      obtain ⟨b, -, rfl⟩ := List.mem_map.1 hcall
      exact .inr htell
  · intro htell addr haddr
    rcases htell with hnil | htell
    · rw [hnil] at haddr
      cases haddr
    · exact ⟨first, rfl, ⟨addr, p⟩, List.mem_map.2 ⟨addr, haddr, rfl⟩, rfl, htell⟩

end Outcome

/-! ## Base files -/

section Base

variable {env : Env} {r : TChangeRequest} {t : Trace} {first : PBA}

/-- The end of `create` and `modify`, after the block that changes the maps. -/
theorem push_raw (action : String) {node fname : String} {x : Handler String} {t' : Trace}
    {y : FilePBA} (hr : ∀ n w, env.raises n w = false) (hx : x.run ⟨t, []⟩ = (.ok fname, ⟨t', []⟩))
    (hy : t'.rawFM.get2? node fname = some y) (ha : t'.agent = t.agent) :
    (x >>= fun fname => pushAll env action (rawEntry node fname) >>= fun _ =>
      pure TChangeResponse.OK).run ⟨t, []⟩ =
      (.ok .OK, ⟨t', t.agent.map (fun a => ⟨a, ⟨action, y⟩⟩)⟩) := by
  have hentry : rawEntry node fname t' = .ok y := by rw [rawEntry, hy]
  rw [Exec.run_bind_ok hx, Exec.run_bind_ok (pushAll_ok env [] hr hentry), ha]
  rfl

variable (hp : r.filePba.pba.head? = some first) (hb : isShard r.filePba.fileName = false)
  (hs : Sound t) (hr : ∀ n w, env.raises n w = false)

include hp hb hs hr

theorem allOrNothing_createBase (ha : r.action = "create") : AllOrNothing env r t := by
  have hchange := change_createBase env ⟨t, []⟩ hp ha hb
  by_cases hk : first.host ∈ t.fmDict.keys
  · have hknow := hs.knows hk
    have hrun := push_raw "create" hr
      (createBase_ok env first.host r.filePba ⟨t, []⟩ hknow.1 hknow.2)
      (raw_putBase env.toShard hknow) (agent_putBase env.toShard first.host r.filePba t)
    refine (allOrNothing_of_pushed hp (hchange.trans hrun)).2 (.inr ?_)
    simp [Tells, hb, ha]
  · rw [Exec.run_bind_error (createBase_error env first.host r.filePba ⟨t, []⟩ hk)] at hchange
    exact allOrNothing_unchanged hchange

/-- A `modify` publishes nothing new: the managers are pushed the old entry, and with
shards it fails after the extents are replaced. -/
theorem allOrNothing_modifyBase (ha : r.action = "modify") : AllOrNothing env r t ↔
    ∀ entry raw, t.fmDict.get2? first.host r.filePba.fileName = some entry →
      t.rawFM.get2? first.host r.filePba.fileName = some raw →
      if entry.shard.keys = [] then t.agent = [] ∨ raw.pba = r.filePba.pba
      else entry.pba = r.filePba.pba := by
  have hchange := change_modifyBase env ⟨t, []⟩ hp ha hb
  have hrun := modifyBase_run first.host r.filePba ⟨t, []⟩
  cases he : t.fmDict.get2? first.host r.filePba.fileName with
  | none =>
    have hput : t.putPba first.host r.filePba = t := by rw [putPba, he]
    simp only [he, hput] at hrun
    rw [Exec.run_bind_error hrun] at hchange
    refine iff_of_true (allOrNothing_unchanged hchange) ?_
    intro entry raw hc
    cases hc
  | some entry =>
    obtain ⟨raw, hraw⟩ := hs.published he
    simp only [he] at hrun
    by_cases hsh : entry.shard.keys = []
    · rw [if_pos hsh] at hrun
      have hraw' : (t.putPba first.host r.filePba).rawFM.get2? first.host r.filePba.fileName =
          some raw := by rw [putPba, he, hraw]
      have hname := (hs.raw _ _ _ hraw).1
      rw [allOrNothing_of_pushed hp (hchange.trans (push_raw "modify" hr hrun hraw'
        (agent_putPba first.host r.filePba t)))]
      simp [Tells, hb, ha, hname, hraw, hsh]
    · rw [if_neg hsh] at hrun
      rw [Exec.run_bind_error hrun] at hchange
      have hentry : ({ entry with pba := r.filePba.pba } : Entry) = entry ↔
          entry.pba = r.filePba.pba := by
        rw [Entry.ext_iff]
        exact ⟨fun h => h.2.1.symm, fun h => ⟨rfl, h.symm, rfl⟩⟩
      rw [allOrNothing_of_error hchange, putPba, he]
      simp [hraw, hsh, Dict.set2_eq_self_iff he, hentry]

/-- A `delete` fails exactly when it finds a gfid of the file in `shardDict`. -/
theorem allOrNothing_deleteBase (ha : r.action = "delete") :
    AllOrNothing env r t ↔ t.fmDict.get2? first.host r.filePba.fileName = none ∨
      r.filePba.fileName ∉ t.shardDict.values := by
  have hchange := change_deleteBase env ⟨t, []⟩ hp ha hb
  cases he : t.fmDict.get2? first.host r.filePba.fileName with
  | none =>
    have hrun : (deleteBase env first.host r.filePba).run ⟨t, []⟩ =
        (.error .keyError, ⟨t, []⟩) := by
      simp [deleteBase, he]
    rw [Exec.run_bind_error hrun] at hchange
    exact iff_of_true (allOrNothing_unchanged hchange) (.inl rfl)
  | some entry =>
    obtain ⟨raw, hraw⟩ := hs.published he
    by_cases hv : r.filePba.fileName ∈ t.shardDict.values
    · rw [Exec.run_bind_error (deleteBase_known env he hraw hv)] at hchange
      refine iff_of_false (fun hall => ?_) (by simp [hv])
      have hfm := ((allOrNothing_of_error hchange).1 hall).1
      rw [fmDict_dropKey] at hfm
      have hget : (t.eraseFile first.host r.filePba.fileName).fmDict.get2? first.host
          r.filePba.fileName = none := by
        rw [eraseFile, Dict.get2?_erase2, if_pos ⟨rfl, rfl⟩]
      rw [hfm, he] at hget
      cases hget
    · have hdel := deleteBase_unknown env he hraw hv
      rw [pushAll_ok env [] hr rfl] at hdel
      rw [Exec.run_bind_ok hdel] at hchange
      refine iff_of_true ((allOrNothing_of_pushed hp hchange).2 (.inr ?_)) (.inr hv)
      simp [Tells, hb, ha]

end Base

/-! ## Shards -/

section Shard

variable {env : Env} {r : TChangeRequest} {t : Trace} {first : PBA}

theorem owner?_putShard {f : FilePBA} {node fname : String} {entry : Entry}
    (ho : t.owner? node f.fileName = some (fname, entry)) :
    (t.putShard node f).fmDict = t.fmDict ↔ entry.shard.get? f.fileName = some f := by
  have he := (owner?_eq_some ho).2
  simp only [putShard, ho, Dict.set2_eq_self_iff he, Entry.ext_iff, and_self, and_true]
  constructor
  · intro hd
    rw [← hd, Dict.get?_set_self]
  · exact Dict.set_self

/-- A shard that is created or modified is stored, and then the handler fails. -/
theorem allOrNothing_putShard {e : Err}
    (hrun : (change env r).run ⟨t, []⟩ = (.error e, ⟨t.putShard first.host r.filePba, []⟩)) :
    AllOrNothing env r t ↔
      match t.owner? first.host r.filePba.fileName with
      | none => True
      | some (_, entry) => entry.shard.get? r.filePba.fileName = some r.filePba := by
  rw [allOrNothing_of_error hrun]
  cases ho : t.owner? first.host r.filePba.fileName with
  | none => simp [putShard, ho]
  | some x =>
    obtain ⟨fname, entry⟩ := x
    have hraw : (t.putShard first.host r.filePba).rawFM = t.rawFM := by rw [putShard, ho]
    have hsd : (t.putShard first.host r.filePba).shardDict = t.shardDict := by rw [putShard, ho]
    simp [owner?_putShard ho, hraw, hsd]

/-- The push at the end of a shard deletion can only be of an empty message. -/
theorem rawNode_ok {fname : String} {x : FilePBA} (h : rawNode fname t = .ok x) : x = default := by
  unfold rawNode at h
  split at h
  · cases h
  split at h
  · cases h
    rfl
  · cases h

theorem deleteShard_absent {node : String} {f : FilePBA}
    (h : ∀ fname entry, t.owner? node f.fileName = some (fname, entry) →
      entry.shard.get? f.fileName = none) :
    (deleteShard env node f).run ⟨t, []⟩ = (.error .keyError, ⟨t, []⟩) := by
  have hown := shardOwner_run node f ⟨t, []⟩
  cases ho : t.owner? node f.fileName with
  | none =>
    simp only [ho] at hown
    rw [deleteShard, Exec.run_bind_error hown]
  | some x =>
    obtain ⟨fname, entry⟩ := x
    simp only [ho] at hown
    rw [deleteShard, Exec.run_bind_ok hown]
    simp [h fname entry ho]

section Present

variable {node fname : String} {f : FilePBA} {entry : Entry} {old : FilePBA}
  (ho : t.owner? node f.fileName = some (fname, entry))
  (hsh : entry.shard.get? f.fileName = some old)

include ho hsh

theorem fmDict_dropShard_ne : (t.dropShard node f).fmDict ≠ t.fmDict := by
  have he := (owner?_eq_some ho).2
  have hfm : (t.dropShard node f).fmDict =
      t.fmDict.set2 node fname { entry with shard := entry.shard.erase f.fileName } := by
    simp only [dropShard, ho, hsh]
    split <;> rfl
  intro hc
  rw [hfm, Dict.set2_eq_self_iff he] at hc
  have hget := Dict.get?_erase_self entry.shard f.fileName
  rw [show entry.shard.erase f.fileName = entry.shard from congrArg Entry.shard hc, hsh] at hget
  cases hget

/-- The deletion of a shard that is not the last one fails at the sort. -/
theorem deleteShard_more (hk : (entry.shard.erase f.fileName).keys ≠ []) :
    (deleteShard env node f).run ⟨t, []⟩ = (.error .attributeError, ⟨t.dropShard node f, []⟩) := by
  have hown := shardOwner_run node f ⟨t, []⟩
  simp only [ho] at hown
  rw [deleteShard, Exec.run_bind_ok hown]
  simp [hsh, hk, sortView_of_ne hk, dropShard, ho]

/-- The deletion of the last one reaches the pushes. -/
theorem deleteShard_last (hn : node ∈ t.rawFM.keys)
    (hk : (entry.shard.erase f.fileName).keys = []) :
    (deleteShard env node f).run ⟨t, []⟩ =
      (pushAll env "modify" (rawNode fname)).run ⟨t.dropShard node f, []⟩ := by
  have hown := shardOwner_run node f ⟨t, []⟩
  simp only [ho] at hown
  obtain ⟨raws, hraws⟩ := Dict.mem_keys_iff.1 hn
  rw [deleteShard, Exec.run_bind_ok hown]
  simp [hsh, hk, dropShard, ho, setRaw, hraws]

end Present

section Delete

variable (hp : r.filePba.pba.head? = some first) (hb : isShard r.filePba.fileName = true)
  (ha : r.action = "delete")

include hp hb ha

/-- What is pushed for the last shard has no extent, and every entry has one. -/
theorem not_tells_dropShard (hs : Sound t) {fname : String} {x : FilePBA}
    (hraw : rawNode fname (t.dropShard first.host r.filePba) = .ok x) :
    ¬ Tells r first.host t (t.dropShard first.host r.filePba) ⟨"modify", x⟩ := by
  -- a deletion asks for no gfid
  let toShard : String → String → Option String := fun _ _ => none
  rw [Tells, if_pos hb]
  rintro ⟨name, _, -, hget⟩
  have hsound := hs.after toShard r
  rw [after_deleteShard toShard t hp ha hb] at hsound
  have hhost := (hsound.raw _ _ _ hget).2
  rw [rawNode_ok hraw] at hhost
  cases hhost

/-- The deletion of the last shard changes the maps, and no manager is told of it. -/
theorem allOrNothing_deleteLast (hs : Sound t) (hr : ∀ n w, env.raises n w = false)
    {fname : String} {entry : Entry} {old : FilePBA}
    (ho : t.owner? first.host r.filePba.fileName = some (fname, entry))
    (hsh : entry.shard.get? r.filePba.fileName = some old)
    (hk : (entry.shard.erase r.filePba.fileName).keys = []) :
    AllOrNothing env r t ↔ t.agent = [] := by
  have hchange := change_deleteShard env ⟨t, []⟩ hp ha hb
  have hn := (hs.knows (Dict.mem_keys_of_get2? (owner?_eq_some ho).2)).2
  have hagent : (t.dropShard first.host r.filePba).agent = t.agent := by
    simp [dropShard, ho, hsh, hk]
  rw [Exec.run_bind, deleteShard_last ho hsh hn hk] at hchange
  cases hraw : rawNode fname (t.dropShard first.host r.filePba) with
  | error e =>
    rw [pushAll_error env [] hraw, hagent] at hchange
    by_cases hnil : t.agent = []
    · rw [if_pos hnil] at hchange
      rw [allOrNothing_of_ok hchange]
      simp [hnil]
    · rw [if_neg hnil] at hchange
      rw [allOrNothing_of_error hchange]
      exact iff_of_false (fun hc => fmDict_dropShard_ne ho hsh hc.1) hnil
  | ok x =>
    rw [pushAll_ok env [] hr hraw, hagent] at hchange
    rw [allOrNothing_of_pushed hp hchange]
    exact or_iff_left (not_tells_dropShard hp hb ha hs hraw)

theorem allOrNothing_deleteShard (hs : Sound t) (hr : ∀ n w, env.raises n w = false) :
    AllOrNothing env r t ↔
      match t.owner? first.host r.filePba.fileName with
      | none => True
      | some (_, entry) => entry.shard.get? r.filePba.fileName = none ∨
          ((entry.shard.erase r.filePba.fileName).keys = [] ∧ t.agent = []) := by
  have hchange := change_deleteShard env ⟨t, []⟩ hp ha hb
  have habsent : (∀ name e, t.owner? first.host r.filePba.fileName = some (name, e) →
      e.shard.get? r.filePba.fileName = none) → AllOrNothing env r t := by
    intro h
    rw [Exec.run_bind_error (deleteShard_absent h)] at hchange
    exact allOrNothing_unchanged hchange
  cases ho : t.owner? first.host r.filePba.fileName with
  | none =>
    refine iff_of_true (habsent (fun name e hc => ?_)) trivial
    rw [ho] at hc
    cases hc
  | some x =>
    obtain ⟨fname, entry⟩ := x
    cases hsh : entry.shard.get? r.filePba.fileName with
    | none =>
      refine iff_of_true (habsent (fun name e hc => ?_)) (.inl hsh)
      rw [ho] at hc
      cases hc
      exact hsh
    | some old =>
      by_cases hk : (entry.shard.erase r.filePba.fileName).keys = []
      · rw [allOrNothing_deleteLast hp hb ha hs hr ho hsh hk]
        simp [hsh, hk]
      · rw [Exec.run_bind_error (deleteShard_more ho hsh hk)] at hchange
        rw [allOrNothing_of_error hchange]
        exact iff_of_false (fun hc => fmDict_dropShard_ne ho hsh hc.1) (by simp [hsh, hk])

end Delete

/-- A shard that is created or modified is stored before the handler raises. -/
theorem change_putShard (env : Env) (t : Trace) (hp : r.filePba.pba.head? = some first)
    (hb : isShard r.filePba.fileName = true) (ha : r.action = "create" ∨ r.action = "modify") :
    ∃ e, (change env r).run ⟨t, []⟩ = (.error e, ⟨t.putShard first.host r.filePba, []⟩) := by
  rcases ha with ha | ha
  · obtain ⟨e, he⟩ := createShard_run first.host r.filePba ⟨t, []⟩
    refine ⟨e, ?_⟩
    simp only [change, hp, hb, ha, Exec.expr_some, Exec.run_pure_bind, if_true]
    rw [Exec.run_bind_error he]
  · obtain ⟨e, he⟩ := modifyShard_run first.host r.filePba ⟨t, []⟩
    refine ⟨e, ?_⟩
    simp only [change, hp, hb, ha, Exec.expr_some, Exec.run_pure_bind, if_true]
    rw [if_neg (by decide), Exec.run_bind_error he]

end Shard

/-! ## Every request -/

/-- Any other action is answered `Fail` and changes nothing. -/
theorem allOrNothing_other {t : Trace} {env : Env} {r : TChangeRequest} {first : PBA}
    (hp : r.filePba.pba.head? = some first) (hc : r.action ≠ "create") (hm : r.action ≠ "modify")
    (hd : r.action ≠ "delete") : AllOrNothing env r t := by
  have hrun : (tChangeFile env r).run ⟨t, []⟩ = (.ok .Fail, ⟨t, []⟩) := by
    refine Exec.run_tryExcept_ok ?_
    simp [change, hp, hc, hm, hd]
  exact (allOrNothing_of_fail hrun).2 ⟨rfl, rfl, rfl, rfl⟩

/-- **When a request is all or nothing**, on every reachable object and with no push
raising. -/
theorem allOrNothing_iff {t : Trace} (ht : Reachable t) {env : Env}
    (hr : ∀ n w, env.raises n w = false) (r : TChangeRequest) :
    AllOrNothing env r t ↔ Whole r t := by
  have hs := ht.sound
  unfold Whole
  cases hp : r.filePba.pba.head? with
  | none =>
    have hrun : (change env r).run ⟨t, []⟩ = (.error .indexError, ⟨t, []⟩) := by
      simp [change, hp]
    exact iff_of_true (allOrNothing_unchanged hrun) trivial
  | some first =>
    simp only
    by_cases hput : r.action = "create" ∨ r.action = "modify"
    · cases hb : isShard r.filePba.fileName with
      | true =>
        obtain ⟨e, hrun⟩ := change_putShard env t hp hb hput
        rw [allOrNothing_putShard hrun]
        simp [hput]
      | false =>
        rcases hput with hc | hm
        · simp [hc, allOrNothing_createBase hp hb hs hr hc]
        · rw [allOrNothing_modifyBase hp hb hs hr hm]
          simp [hm]
    obtain ⟨hc, hm⟩ := not_or.1 hput
    by_cases hd : r.action = "delete"
    · cases hb : isShard r.filePba.fileName with
      | true =>
        rw [allOrNothing_deleteShard hp hb hd hs hr]
        simp [hd]
      | false =>
        rw [allOrNothing_deleteBase hp hb hs hr hd]
        simp [hd]
    · refine iff_of_true (allOrNothing_other hp hc hm hd) ?_
      simp only [if_neg hput, if_neg hm, if_neg hd]
      split
      · split <;> trivial
      · trivial

/-- A file that is not there yet. -/
theorem createOther_allOrNothing : ∃ t, init oneGfid.toShard oneFile = .ok t ∧
    AllOrNothing oneGfid createOther (t.tRegister "manager:1") := by
  have h : ∃ t, init oneGfid.toShard oneFile = .ok t := ⟨_, rfl⟩
  obtain ⟨t, ht⟩ := h
  refine ⟨t, ht, (allOrNothing_iff (.register _ (.init ht)) (fun _ _ => rfl) createOther).2 ?_⟩
  have hb : isShard createOther.filePba.fileName = false := by decide
  have hp : createOther.filePba.pba.head? = some (.blockAt "node1" (.lit 8192)) := rfl
  have ha : createOther.action = "create" := rfl
  simp [Whole, hp, hb, ha]

/-- The deletion of a file that was there at start-up fails, and the file is gone. -/
theorem deleteOne_not_allOrNothing : ∃ t, Reachable t ∧ ¬ AllOrNothing oneGfid deleteOne t := by
  have h : ∃ t, init oneGfid.toShard oneFile = .ok t ∧
      ((tChangeFile oneGfid deleteOne).run ⟨t, []⟩).1 = .ok .Fail ∧
      ((tChangeFile oneGfid deleteOne).run ⟨t, []⟩).2.self.rawFM ≠ t.rawFM :=
    ⟨_, rfl, rfl, by decide⟩
  obtain ⟨t, ht, hfail, hne⟩ := h
  exact ⟨t, .init ht, fun hall => hne (hall.fail hfail).2.1⟩

end Lba2Pba.Trace
