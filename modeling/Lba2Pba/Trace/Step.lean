import Lba2Pba.Trace.Service

/-!
# What one `TChangeFile` does to the maps

`after` gives the object after a request without the handler: the six branches
change the maps before they can raise at a later point, and the pushes do not
change them at all, so neither the replies of the managers nor the exceptions
appear in it (`tChangeFile_self`). Every invariant of the service is shown of
`after`.
-/

namespace Lba2Pba.Trace

open Py

/-! ## The effect of each branch -/

/-- `create` of a base file. -/
def putBase (toShard : String → String → Option String) (node : String) (f : FilePBA)
    (t : Trace) : Trace :=
  match t.fmDict.get? node with
  | none => t
  | some files => { t with
      fmDict := if files.contains f.fileName then t.fmDict
        else t.fmDict.set2 node f.fileName ⟨∅, f.pba, f.type⟩
      shardDict := t.shardDict.set (toShard f.fileName node) (Str.lastPiece f.fileName "/")
      rawFM := t.rawFM.set2 node f.fileName
        { pba := f.pba, fileName := f.fileName, type := f.type } }

/-- The file and the entry that a shard belongs to. -/
def owner? (node sName : String) (t : Trace) : Option (String × Entry) :=
  (t.shardDict.get? (some (changeKey sName))).bind
    (fun fname => (t.fmDict.get2? node fname).map (fun entry => (fname, entry)))

/-- `create` and `modify` of a shard: only `fmDict` is changed. -/
def putShard (node : String) (f : FilePBA) (t : Trace) : Trace :=
  match t.owner? node f.fileName with
  | none => t
  | some (fname, entry) => { t with
      fmDict := t.fmDict.set2 node fname { entry with shard := entry.shard.set f.fileName f } }

/-- `modify` of a base file: only `fmDict` is changed. -/
def putPba (node : String) (f : FilePBA) (t : Trace) : Trace :=
  match t.fmDict.get2? node f.fileName with
  | none => t
  | some entry => { t with
      fmDict := t.fmDict.set2 node f.fileName { entry with pba := f.pba } }

/-- The first item of `shardDict` that maps to `fname` is deleted. -/
def dropKey (fname : String) (t : Trace) : Trace :=
  match t.shardDict.items.find? (fun x => decide (x.2 = fname)) with
  | some x => { t with shardDict := t.shardDict.erase x.1 }
  | none => t

/-- `delete` of a base file. -/
def dropBase (node : String) (f : FilePBA) (t : Trace) : Trace :=
  match t.fmDict.get2? node f.fileName with
  | none => t
  | some _ =>
    let t₁ := { t with fmDict := t.fmDict.erase2 node f.fileName }
    match t.rawFM.get2? node f.fileName with
    | none => t₁
    | some _ => dropKey f.fileName { t₁ with rawFM := t.rawFM.erase2 node f.fileName }

/-- `delete` of a shard: the published entry is rebuilt, from the base extents and
without a type, when no shard is left. -/
def dropShard (node : String) (f : FilePBA) (t : Trace) : Trace :=
  match t.owner? node f.fileName with
  | none => t
  | some (fname, entry) =>
    match entry.shard.get? f.fileName with
    | none => t
    | some _ =>
      let shard := entry.shard.erase f.fileName
      let t₁ := { t with fmDict := t.fmDict.set2 node fname { entry with shard } }
      if shard.keys.isEmpty then
        { t₁ with rawFM := t.rawFM.set2 node fname { pba := entry.pba, fileName := fname } }
      else t₁

/-- The object after a request. -/
def after (toShard : String → String → Option String) (r : TChangeRequest) (t : Trace) : Trace :=
  match r.filePba.pba.head? with
  | none => t
  | some first =>
    let node := first.host
    let f := r.filePba
    if r.action = "create" then
      if isShard f.fileName then t.putShard node f else t.putBase toShard node f
    else if r.action = "modify" then
      if isShard f.fileName then t.putShard node f else t.putPba node f
    else if r.action = "delete" then
      if isShard f.fileName then t.dropShard node f else t.dropBase node f
    else t

/-- What holds of the object and of all that a branch can make of it holds after the
request. -/
theorem after_cases {P : Trace → Prop} {t : Trace} (toShard : String → String → Option String)
    (r : TChangeRequest) (same : P t) (putBase : ∀ n f, P (t.putBase toShard n f))
    (putShard : ∀ n f, P (t.putShard n f)) (putPba : ∀ n f, P (t.putPba n f))
    (dropBase : ∀ n f, P (t.dropBase n f)) (dropShard : ∀ n f, P (t.dropShard n f)) :
    P (t.after toShard r) := by
  unfold after
  split
  · exact same
  · simp only
    split
    · split
      · exact putShard _ _
      · exact putBase _ _
    split
    · split
      · exact putShard _ _
      · exact putPba _ _
    split
    · split
      · exact dropShard _ _
      · exact dropBase _ _
    · exact same

section Branch

variable (toShard : String → String → Option String) (t : Trace) {r : TChangeRequest} {first : PBA}
  (hp : r.filePba.pba.head? = some first)

include hp

theorem after_createBase (ha : r.action = "create") (hb : isShard r.filePba.fileName = false) :
    t.after toShard r = t.putBase toShard first.host r.filePba := by
  simp [after, hp, ha, hb]

theorem after_modifyBase (ha : r.action = "modify") (hb : isShard r.filePba.fileName = false) :
    t.after toShard r = t.putPba first.host r.filePba := by
  simp [after, hp, ha, hb]

theorem after_deleteBase (ha : r.action = "delete") (hb : isShard r.filePba.fileName = false) :
    t.after toShard r = t.dropBase first.host r.filePba := by
  simp [after, hp, ha, hb]

theorem after_createShard (ha : r.action = "create") (hb : isShard r.filePba.fileName = true) :
    t.after toShard r = t.putShard first.host r.filePba := by
  simp [after, hp, ha, hb]

theorem after_deleteShard (ha : r.action = "delete") (hb : isShard r.filePba.fileName = true) :
    t.after toShard r = t.dropShard first.host r.filePba := by
  simp [after, hp, ha, hb]

end Branch

/-! ## The blocks of the handler -/

@[simp] theorem sortView_nil : sortView [] = pure () := rfl

theorem sortView_of_ne {view : List String} (h : view ≠ []) :
    sortView view = Exec.raise .attributeError := by
  simp [sortView, h]

section Blocks

variable (env : Env) (node : String) (f : FilePBA) (s : Frame Trace Call)

theorem setRaw_frame (fname : String) : ((setRaw node fname f).run s).2 =
    { s with self := { s.self with rawFM := s.self.rawFM.set2 node fname f } } := by
  cases h : s.self.rawFM.get? node with
  | none => simp [setRaw, Dict.set2, h]
  | some raws => simp [setRaw, h]

theorem shardOwner_run : (shardOwner node f.fileName).run s =
    match s.self.owner? node f.fileName with
    | none => (.error .keyError, s)
    | some x => (.ok x, s) := by
  unfold shardOwner owner?
  cases h : s.self.shardDict.get? (some (changeKey f.fileName)) with
  | none => simp [h]
  | some fname =>
    cases h2 : s.self.fmDict.get2? node fname with
    | none => simp [h, h2]
    | some entry => simp [h, h2]

theorem createBase_frame : ((createBase env node f).run s).2 =
    { s with self := s.self.putBase env.toShard node f } := by
  unfold createBase putBase
  cases h : s.self.fmDict.get? node with
  | none => simp [h]
  | some files =>
    cases h2 : s.self.rawFM.get? node with
    | none => by_cases hc : files.contains f.fileName = true <;> simp [h, h2, hc, setRaw, Dict.set2]
    | some raws => by_cases hc : files.contains f.fileName = true <;> simp [h, h2, hc, setRaw]

theorem createBase_ok (h : node ∈ s.self.fmDict.keys) (hr : node ∈ s.self.rawFM.keys) :
    (createBase env node f).run s =
      (.ok f.fileName, { s with self := s.self.putBase env.toShard node f }) := by
  refine Prod.ext ?_ (createBase_frame env node f s)
  obtain ⟨files, h⟩ := Dict.mem_keys_iff.1 h
  obtain ⟨raws, hr⟩ := Dict.mem_keys_iff.1 hr
  unfold createBase
  by_cases hc : files.contains f.fileName = true <;> simp [h, hr, hc, setRaw]

theorem createBase_error (h : node ∉ s.self.fmDict.keys) :
    (createBase env node f).run s = (.error .keyError, s) := by
  have hnone := Dict.get?_eq_none_iff.2 h
  simp [createBase, hnone]

/-- A new shard is never published: its key view is not empty. -/
theorem createShard_run : ∃ e, (createShard node f).run s =
    (.error e, { s with self := s.self.putShard node f }) := by
  unfold createShard putShard
  rw [Exec.run_bind, shardOwner_run]
  cases h : s.self.owner? node f.fileName with
  | none => exact ⟨_, rfl⟩
  | some x =>
    have hne := Dict.keys_set_ne_nil x.2.shard f.fileName f
    simp [sortView_of_ne hne]

theorem modifyShard_run : ∃ e, (modifyShard node f).run s =
    (.error e, { s with self := s.self.putShard node f }) := by
  unfold modifyShard putShard
  rw [Exec.run_bind, shardOwner_run]
  cases h : s.self.owner? node f.fileName with
  | none => exact ⟨_, rfl⟩
  | some x =>
    obtain ⟨fname, entry⟩ := x
    simp only [Exec.run_update_bind, Exec.run_self_bind]
    generalize s.self.fmDict.set2 node fname _ = d
    cases d.get? fname with
    | none => exact ⟨_, rfl⟩
    | some files =>
      simp only [Exec.expr_some, Exec.run_pure_bind]
      cases files.get? "shard" with
      | none => exact ⟨_, rfl⟩
      | some _ => exact ⟨_, rfl⟩

theorem modifyBase_run : (modifyBase node f).run s =
    (match s.self.fmDict.get2? node f.fileName with
      | none => .error .keyError
      | some entry => if entry.shard.keys = [] then .ok f.fileName else .error .attributeError,
      { s with self := s.self.putPba node f }) := by
  unfold modifyBase putPba
  cases h : s.self.fmDict.get2? node f.fileName with
  | none => simp [h]
  | some entry =>
    by_cases hs : entry.shard.keys = []
    · simp [h, hs]
    · simp [h, hs, sortView_of_ne hs]

theorem forgetShards_run (fname : String) : (forgetShards fname).run s =
    (if fname ∈ s.self.shardDict.values then .error .runtimeError else .ok (),
      { s with self := dropKey fname s.self }) := by
  unfold forgetShards dropKey
  simp only [Exec.run_self_bind]
  cases h : s.self.shardDict.items.find? (fun x => decide (x.2 = fname)) with
  | none =>
    have hn : fname ∉ s.self.shardDict.values := by
      intro hm
      obtain ⟨x, hx, rfl⟩ := List.mem_map.1 hm
      have := List.find?_eq_none.1 h x hx
      simp at this
    simp [hn]
  | some x =>
    have hm : fname ∈ s.self.shardDict.values := by
      have hp := List.find?_some h
      rw [decide_eq_true_iff] at hp
      exact List.mem_map.2 ⟨x, List.mem_of_find?_eq_some h, hp⟩
    simp [hm]

/-! ## The pushes -/

theorem pushAll_self (action : String) (g : Trace → Except Err FilePBA) :
    ((pushAll env action g).run s).2.self = s.self := by
  unfold pushAll
  rw [Exec.run_self_bind]
  refine Exec.forEach_self (fun addr t => ?_) _ s
  rw [Exec.run_self_bind]
  cases g t.self <;> rfl

/-- The managers are called up to the first one that raises. -/
theorem pushAll_run (dead : String → Bool) {action : String} {g : Trace → Except Err FilePBA}
    {x : FilePBA} {t : Trace} (sent : List Call) (hr : ∀ n w, env.raises n w = dead w.addr)
    (hg : g t = .ok x) :
    (pushAll env action g).run ⟨t, sent⟩ =
      (if (t.agent.map (fun a => (⟨a, ⟨action, x⟩⟩ : Call))).any (fun c => dead c.addr)
        then .error .rpcError else .ok (),
      ⟨t, sent ++ Exec.upTo (fun c => dead c.addr) (t.agent.map (fun a => ⟨a, ⟨action, x⟩⟩))⟩) := by
  unfold pushAll
  rw [Exec.run_self_bind]
  refine Exec.forEach_call_upTo hr _ (fun addr _ s hs => ?_)
  rw [Exec.run_self_bind, hs, hg]

/-- When no call raises, all managers are told. -/
theorem pushAll_ok {action : String} {g : Trace → Except Err FilePBA} {x : FilePBA} {t : Trace}
    (sent : List Call) (hr : ∀ n w, env.raises n w = false) (hg : g t = .ok x) :
    (pushAll env action g).run ⟨t, sent⟩ =
      (.ok (), ⟨t, sent ++ t.agent.map (fun a => ⟨a, ⟨action, x⟩⟩)⟩) := by
  rw [pushAll_run env (fun _ => false) sent hr hg, Exec.upTo_of_forall (fun _ _ => rfl)]
  simp

theorem pushAll_error {action : String} {g : Trace → Except Err FilePBA} {e : Err} {t : Trace}
    (sent : List Call) (hg : g t = .error e) :
    (pushAll env action g).run ⟨t, sent⟩ =
      (if t.agent = [] then .ok () else .error e, ⟨t, sent⟩) := by
  unfold pushAll
  rw [Exec.run_self_bind]
  cases ha : t.agent with
  | nil => rfl
  | cons addr rest =>
    rw [if_neg (List.cons_ne_nil addr rest)]
    refine Exec.forEach_raise ?_
    rw [Exec.run_self_bind, hg]
    rfl

/-! ## The deletions -/

theorem dropKey_of_not_mem {fname : String} {t : Trace} (h : fname ∉ t.shardDict.values) :
    dropKey fname t = t := by
  unfold dropKey
  split
  · rename_i x hx
    have hv := List.find?_some hx
    rw [decide_eq_true_iff] at hv
    exact absurd (List.mem_map.2 ⟨x, List.mem_of_find?_eq_some hx, hv⟩) h
  · rfl

/-- Both maps without a file. -/
def eraseFile (node fname : String) (t : Trace) : Trace :=
  { t with fmDict := t.fmDict.erase2 node fname, rawFM := t.rawFM.erase2 node fname }

section Present

variable {node f} {t : Trace} {entry : Entry} {raw : FilePBA}
  (he : t.fmDict.get2? node f.fileName = some entry)
  (hraw : t.rawFM.get2? node f.fileName = some raw)

include he hraw

theorem deleteBase_run : (deleteBase env node f).run ⟨t, []⟩ =
    (forgetShards f.fileName >>= fun _ => pushAll env "delete" (fun _ =>
      .ok { fileName := f.fileName, type := f.type })).run ⟨t.eraseFile node f.fileName, []⟩ := by
  simp [deleteBase, he, hraw, eraseFile]

/-- A file with a gfid in `shardDict` is deleted, and then the loop over `shardDict` raises. -/
theorem deleteBase_known (hv : f.fileName ∈ t.shardDict.values) :
    (deleteBase env node f).run ⟨t, []⟩ =
      (.error .runtimeError, ⟨dropKey f.fileName (t.eraseFile node f.fileName), []⟩) := by
  have hforget := forgetShards_run ⟨t.eraseFile node f.fileName, []⟩ f.fileName
  have hv' : f.fileName ∈ (t.eraseFile node f.fileName).shardDict.values := hv
  rw [if_pos hv'] at hforget
  rw [deleteBase_run env he hraw, Exec.run_bind_error hforget]

/-- Any other file is deleted, and the managers are told. -/
theorem deleteBase_unknown (hv : f.fileName ∉ t.shardDict.values) :
    (deleteBase env node f).run ⟨t, []⟩ = (pushAll env "delete" (fun _ =>
      .ok { fileName := f.fileName, type := f.type })).run ⟨t.eraseFile node f.fileName, []⟩ := by
  have hforget := forgetShards_run ⟨t.eraseFile node f.fileName, []⟩ f.fileName
  have hv' : f.fileName ∉ (t.eraseFile node f.fileName).shardDict.values := hv
  rw [if_neg hv', dropKey_of_not_mem hv'] at hforget
  rw [deleteBase_run env he hraw, Exec.run_bind_ok hforget]

end Present

theorem deleteBase_self : ((deleteBase env node f).run s).2.self = s.self.dropBase node f := by
  unfold deleteBase dropBase
  cases h : s.self.fmDict.get2? node f.fileName with
  | none => simp [h]
  | some entry =>
    cases h2 : s.self.rawFM.get2? node f.fileName with
    | none => simp [h, h2]
    | some raw =>
      simp only [Exec.run_self_bind, h, h2, Exec.expr_some, Exec.run_pure_bind,
        Exec.run_update_bind]
      rw [Exec.bind_self (fun _ s' => pushAll_self env s' _ _), forgetShards_run]

theorem deleteShard_self : ((deleteShard env node f).run s).2.self = s.self.dropShard node f := by
  unfold deleteShard dropShard
  rw [Exec.run_bind, shardOwner_run]
  cases h : s.self.owner? node f.fileName with
  | none => rfl
  | some x =>
    obtain ⟨fname, entry⟩ := x
    cases hs : entry.shard.get? f.fileName with
    | none => simp [hs]
    | some old =>
      simp only [hs, Exec.expr_some, Exec.run_pure_bind, Exec.run_update_bind]
      by_cases hk : (entry.shard.erase f.fileName).keys = []
      · -- the last shard is gone: the entry is published again, then pushed
        simp only [hk, sortView_nil, Exec.run_pure_bind, List.isEmpty_nil, if_true]
        rw [Exec.bind_self (fun _ s' => pushAll_self env s' _ _), setRaw_frame]
      · simp [hk, sortView_of_ne hk]

end Blocks

/-! ## The handler -/

section Run

variable (env : Env) (s : Frame Trace Call) {r : TChangeRequest} {first : PBA}
  (hp : r.filePba.pba.head? = some first)

include hp

theorem change_createBase (ha : r.action = "create") (hb : isShard r.filePba.fileName = false) :
    (change env r).run s = (createBase env first.host r.filePba >>= fun fname =>
      pushAll env "create" (rawEntry first.host fname) >>= fun _ =>
      pure TChangeResponse.OK).run s := by
  simp only [change, hp, ha, hb, Exec.expr_some, Exec.run_pure_bind, if_true,
    Bool.false_eq_true, if_false]

theorem change_modifyBase (ha : r.action = "modify") (hb : isShard r.filePba.fileName = false) :
    (change env r).run s = (modifyBase first.host r.filePba >>= fun fname =>
      pushAll env "modify" (rawEntry first.host fname) >>= fun _ =>
      pure TChangeResponse.OK).run s := by
  simp [change, hp, ha, hb]

theorem change_deleteBase (ha : r.action = "delete") (hb : isShard r.filePba.fileName = false) :
    (change env r).run s = (deleteBase env first.host r.filePba >>= fun _ =>
      pure TChangeResponse.OK).run s := by
  simp [change, hp, ha, hb]

theorem change_deleteShard (ha : r.action = "delete") (hb : isShard r.filePba.fileName = true) :
    (change env r).run s = (deleteShard env first.host r.filePba >>= fun _ =>
      pure TChangeResponse.OK).run s := by
  simp [change, hp, ha, hb]

end Run

theorem change_self (env : Env) (r : TChangeRequest) (s : Frame Trace Call) :
    ((change env r).run s).2.self = s.self.after env.toShard r := by
  have push : ∀ (action : String) (g : Trace → Except Err FilePBA) (s' : Frame Trace Call),
      ((pushAll env action g >>= fun _ => pure TChangeResponse.OK).run s').2.self = s'.self := by
    intro action g s'
    rw [Exec.bind_self (fun _ _ => rfl), pushAll_self]
  unfold change after
  cases hp : r.filePba.pba.head? with
  | none => simp [hp]
  | some first =>
    simp only [hp, Exec.expr_some, Exec.run_pure_bind]
    split
    · split
      · obtain ⟨e, he⟩ := createShard_run first.host r.filePba s
        rw [Exec.bind_self (fun fname => push _ _), he]
      · rw [Exec.bind_self (fun fname => push _ _), createBase_frame]
    split
    · split
      · obtain ⟨e, he⟩ := modifyShard_run first.host r.filePba s
        rw [Exec.bind_self (fun fname => push _ _), he]
      · rw [Exec.bind_self (fun fname => push _ _), modifyBase_run]
    split
    · split
      · rw [Exec.bind_self (fun _ _ => rfl), deleteShard_self]
      · rw [Exec.bind_self (fun _ _ => rfl), deleteBase_self]
    · rfl

theorem tChangeFile_self (env : Env) (r : TChangeRequest) (s : Frame Trace Call) :
    ((tChangeFile env r).run s).2.self = s.self.after env.toShard r := by
  rw [← change_self]
  unfold tChangeFile
  rcases h : (change env r).run s with ⟨_ | a, s'⟩
  · rw [Exec.run_tryExcept_error h, Exec.run_pure]
  · rw [Exec.run_tryExcept_ok h]

end Lba2Pba.Trace
