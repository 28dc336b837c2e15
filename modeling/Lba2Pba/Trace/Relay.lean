import Lba2Pba.Trace.Invariant

/-!
# What one manager is told

The calls to one registered manager while the service handles a message about a
base file (`toldTo`). The other managers answer; this one may raise, which ends the
loop over the managers, but only after it was called.
-/

namespace Lba2Pba.Trace

open Py

/-- The requests to the manager at `addr` during `TChangeFile`. -/
def toldTo (addr : String) (env : Env) (r : TChangeRequest) (t : Trace) : List FMPushPbaRequest :=
  (((tChangeFile env r).run ⟨t, []⟩).2.sent.filter (fun c => c.addr = addr)).map Call.request

theorem tChangeFile_frame (env : Env) (r : TChangeRequest) (s : Frame Trace Call) :
    ((tChangeFile env r).run s).2 = ((change env r).run s).2 := by
  unfold tChangeFile
  rcases h : (change env r).run s with ⟨_ | a, s'⟩
  · rw [Exec.run_tryExcept_error h, Exec.run_pure]
  · rw [Exec.run_tryExcept_ok h]

theorem toldTo_of_change {addr : String} {env : Env} {r : TChangeRequest} {t : Trace}
    {s : Frame Trace Call} {l : List FMPushPbaRequest} (h : ((change env r).run ⟨t, []⟩).2 = s)
    (hs : s.sent.filter (fun c => c.addr = addr) = l.map (fun q => ⟨addr, q⟩)) :
    toldTo addr env r t = l := by
  rw [toldTo, tChangeFile_frame, h, hs, List.map_map]
  exact List.map_id l

/-- Neither a message without a host nor one of another action is passed on. -/
theorem toldTo_of_fail {addr : String} {env : Env} {r : TChangeRequest} {t : Trace}
    (h : r.filePba.pba.head? = none ∨
      r.action ≠ "create" ∧ r.action ≠ "modify" ∧ r.action ≠ "delete") :
    toldTo addr env r t = [] := by
  have hrun : ((change env r).run ⟨t, []⟩).2 = ⟨t, []⟩ := by
    cases hp : r.filePba.pba.head? with
    | none => simp [change, hp]
    | some first =>
      obtain ⟨h1, h2, h3⟩ := h.resolve_left (by rw [hp]; exact Option.some_ne_none first)
      simp [change, hp, h1, h2, h3]
  exact toldTo_of_change hrun rfl

section Told

variable {addr : String} {env : Env} {r : TChangeRequest} {t : Trace} {first : PBA}

section Push

variable (hr : ∀ n w, w.addr ≠ addr → env.raises n w = false) (hone : t.agent.count addr = 1)

include hr hone

theorem pushAll_told {action : String} {g : Trace → Except Err FilePBA} {x : FilePBA}
    (hg : g t = .ok x) :
    ((pushAll env action g).run ⟨t, []⟩).2.sent.filter (fun c => c.addr = addr) =
      [⟨addr, ⟨action, x⟩⟩] := by
  have hcalls : (t.agent.map (fun a => (⟨a, ⟨action, x⟩⟩ : Call))).filter (fun c => c.addr = addr) =
      [⟨addr, ⟨action, x⟩⟩] := by
    have hfilter : t.agent.filter (fun a => a = addr) = [addr] := by
      rw [List.filter_eq, hone]
      rfl
    rw [List.filter_map]
    exact congrArg (List.map _) hfilter
  unfold pushAll
  rw [Exec.run_self_bind, ← hcalls]
  refine (Exec.forEach_call_filter (fun n w hw => hr n w ?_) _ (fun a _ s hs => ?_) ?_).trans rfl
  · simpa using hw
  · rw [Exec.run_self_bind, hs, hg]
  · rw [hcalls]
    exact Nat.le_refl 1

end Push

variable (hp : r.filePba.pba.head? = some first) (hb : isShard r.filePba.fileName = false)
  (hs : Sound t)

include hp hb

theorem change_create_unknown (ha : r.action = "create") (hk : first.host ∉ t.fmDict.keys) :
    ((change env r).run ⟨t, []⟩).2 = ⟨t, []⟩ := by
  rw [change_createBase env _ hp ha hb,
    Exec.run_bind_error (createBase_error env first.host r.filePba ⟨t, []⟩ hk)]

theorem change_delete_absent (ha : r.action = "delete")
    (hnone : t.fmDict.get2? first.host r.filePba.fileName = none) :
    ((change env r).run ⟨t, []⟩).2 = ⟨t, []⟩ := by
  rw [change_deleteBase env _ hp ha hb]
  simp [deleteBase, hnone]

theorem toldTo_create_unknown (ha : r.action = "create") (hk : first.host ∉ t.fmDict.keys) :
    toldTo addr env r t = [] :=
  toldTo_of_change (change_create_unknown hp hb ha hk) rfl

theorem toldTo_delete_absent (ha : r.action = "delete")
    (hnone : t.fmDict.get2? first.host r.filePba.fileName = none) : toldTo addr env r t = [] :=
  toldTo_of_change (change_delete_absent hp hb ha hnone) rfl

include hs

/-- A `create` on a known node comes to the loop over the managers. -/
theorem change_create_frame (ha : r.action = "create") (hk : first.host ∈ t.fmDict.keys) :
    ((change env r).run ⟨t, []⟩).2 =
      ((pushAll env "create" (rawEntry first.host r.filePba.fileName)).run
        ⟨t.putBase env.toShard first.host r.filePba, []⟩).2 := by
  have hknow := hs.knows hk
  rw [change_createBase env _ hp ha hb,
    Exec.run_bind_ok (createBase_ok env first.host r.filePba ⟨t, []⟩ hknow.1 hknow.2),
    Exec.run_bind_pure_frame]

/-- So does a `delete` of a file that has no gfid in `shardDict`. -/
theorem change_delete_frame (ha : r.action = "delete")
    (hsome : t.fmDict.get2? first.host r.filePba.fileName ≠ none)
    (hv : r.filePba.fileName ∉ t.shardDict.values) :
    ((change env r).run ⟨t, []⟩).2 = ((pushAll env "delete" (fun _ =>
      .ok { fileName := r.filePba.fileName, type := r.filePba.type })).run
        ⟨t.eraseFile first.host r.filePba.fileName, []⟩).2 := by
  obtain ⟨entry, he⟩ := Option.ne_none_iff_exists'.1 hsome
  obtain ⟨raw, hraw⟩ := hs.published he
  rw [← deleteBase_unknown env he hraw hv]
  rw [change_deleteBase env _ hp ha hb, Exec.run_bind_pure_frame]

variable (hr : ∀ n w, w.addr ≠ addr → env.raises n w = false) (hone : t.agent.count addr = 1)

include hr hone

theorem toldTo_create (ha : r.action = "create") (hk : first.host ∈ t.fmDict.keys) :
    toldTo addr env r t =
      [⟨"create", { pba := r.filePba.pba, fileName := r.filePba.fileName,
                    type := r.filePba.type }⟩] := by
  refine toldTo_of_change (change_create_frame hp hb hs ha hk) (pushAll_told hr ?_ ?_)
  · rw [agent_putBase]
    exact hone
  · rw [rawEntry, raw_putBase env.toShard (hs.knows hk)]

theorem toldTo_modify (ha : r.action = "modify") :
    toldTo addr env r t = [] ∨ ∃ x, toldTo addr env r t = [⟨"modify", x⟩] := by
  have hchange : ((change env r).run ⟨t, []⟩).2 =
      ((modifyBase first.host r.filePba >>= fun fname =>
        pushAll env "modify" (rawEntry first.host fname)).run ⟨t, []⟩).2 := by
    rw [change_modifyBase env _ hp ha hb, Exec.run_bind, Exec.run_bind]
    rcases (modifyBase first.host r.filePba).run ⟨t, []⟩ with ⟨_ | fname, s'⟩
    · rfl
    · exact Exec.run_bind_pure_frame _ _ _
  have hmod := modifyBase_run first.host r.filePba ⟨t, []⟩
  cases he : t.fmDict.get2? first.host r.filePba.fileName with
  | none =>
    simp only [he] at hmod
    rw [Exec.run_bind_error hmod] at hchange
    exact .inl (toldTo_of_change hchange rfl)
  | some entry =>
    simp only [he] at hmod
    by_cases hsh : entry.shard.keys = []
    · obtain ⟨raw, hraw⟩ := hs.published he
      rw [if_pos hsh] at hmod
      rw [Exec.run_bind_ok hmod] at hchange
      refine .inr ⟨raw, toldTo_of_change hchange (pushAll_told hr ?_ ?_)⟩
      · rw [agent_putPba]
        exact hone
      · rw [rawEntry, putPba, he, hraw]
    · rw [if_neg hsh] at hmod
      rw [Exec.run_bind_error hmod] at hchange
      exact .inl (toldTo_of_change hchange rfl)

theorem toldTo_delete (ha : r.action = "delete")
    (hsome : t.rawFM.get2? first.host r.filePba.fileName ≠ none)
    (hv : r.filePba.fileName ∉ t.shardDict.values) :
    toldTo addr env r t =
      [⟨"delete", { fileName := r.filePba.fileName, type := r.filePba.type }⟩] := by
  have hstored : t.fmDict.get2? first.host r.filePba.fileName ≠ none := by
    obtain ⟨raw, hraw⟩ := Option.ne_none_iff_exists'.1 hsome
    obtain ⟨entry, he⟩ := hs.stored hraw
    rw [he]
    exact Option.some_ne_none entry
  have hone' : (t.eraseFile first.host r.filePba.fileName).agent.count addr = 1 := hone
  exact toldTo_of_change (change_delete_frame hp hb hs ha hstored hv) (pushAll_told hr hone' rfl)

end Told

/-! ## The names of the volumes -/

/-- No published entry names a volume. -/
def NoVolumes (raw : Dict String (Dict String FilePBA)) : Prop :=
  ∀ n f x, raw.get2? n f = some x → x.volName = ""

theorem NoVolumes.set2 {raw : Dict String (Dict String FilePBA)} (h : NoVolumes raw) {n f : String}
    {x : FilePBA} (hx : x.volName = "") : NoVolumes (raw.set2 n f x) := by
  intro m g y hy
  rcases Dict.get2?_set2_cases hy with ⟨-, -, rfl⟩ | hy
  · exact hx
  · exact h m g y hy

theorem NoVolumes.erase2 {raw : Dict String (Dict String FilePBA)} (h : NoVolumes raw)
    (n f : String) : NoVolumes (raw.erase2 n f) :=
  fun m g x hx => h m g x (Dict.get2?_of_erase2 hx)

theorem NoVolumes.dropBase {t : Trace} (h : NoVolumes t.rawFM) (n : String) (f : FilePBA) :
    NoVolumes (t.dropBase n f).rawFM := by
  unfold Trace.dropBase
  split
  · exact h
  · simp only
    split
    · exact h
    · rw [rawFM_dropKey]
      exact h.erase2 _ _

theorem NoVolumes.dropShard {t : Trace} (h : NoVolumes t.rawFM) (n : String) (f : FilePBA) :
    NoVolumes (t.dropShard n f).rawFM := by
  unfold Trace.dropShard
  split
  · exact h
  · split
    · exact h
    · simp only
      split
      · exact h.set2 rfl
      · exact h

theorem NoVolumes.after {t : Trace} (h : NoVolumes t.rawFM)
    (toShard : String → String → Option String) (r : TChangeRequest) :
    NoVolumes (t.after toShard r).rawFM := by
  refine after_cases (P := fun t' => NoVolumes t'.rawFM) toShard r h (fun n f => ?_)
    (fun n f => ?_) (fun n f => ?_) h.dropBase h.dropShard
  · unfold putBase
    split
    · exact h
    · exact h.set2 rfl
  · rw [rawFM_putShard]
    exact h
  · rw [rawFM_putPba]
    exact h

theorem noVolumes_init {toShard : String → String → Option String}
    {replies : List (String × List FilePBA)} {t : Trace} (h : init toShard replies = .ok t) :
    NoVolumes t.rawFM := by
  have hempty : NoVolumes (peerDicts (replies.map Prod.fst)) := by
    intro n f x hx
    rw [get2?_peerDicts] at hx
    cases hx
  by_cases hne : (scan toShard replies).rawFilePba = []
  · have hemp : (scan toShard replies).rawFilePba.isEmpty = true := by simp [hne]
    simp only [init, hemp, if_true] at h
    cases h
    exact hempty
  · obtain ⟨d₁, d₂, raw, -, -, h3, rfl⟩ := init_inv h hne
    refine foldlM_inv (P := fun _ raw => NoVolumes raw) hempty ?_ h3
    intro done x rest _ raw raw' hraw hstep
    obtain ⟨e, he, hset⟩ := bind_eq_ok.1 hstep
    cases hset
    obtain ⟨shards, -, rfl⟩ := assemble_inv he
    exact hraw.set2 rfl

theorem Reachable.noVolumes {t : Trace} (h : Reachable t) : NoVolumes t.rawFM := by
  induction h with
  | init h => exact noVolumes_init h
  | change env r _ ih =>
    rw [tChangeFile_self]
    exact ih.after env.toShard r
  | register addr _ ih => exact ih
  | deregister addr _ hd ih =>
    obtain ⟨-, agents, -, rfl⟩ := hd
    exact ih

end Lba2Pba.Trace
