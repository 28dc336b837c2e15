import Lba2Pba.Trace.Confined
import Lba2Pba.Trace.Interleave

/-!
# `TChangeFile` handlers at the same time

Each worker sends one message after the other, so of the handlers in progress no two
are for the same node. A handler keeps to the dictionaries of its node, so a node
without a handler in progress is always sound (`runs_sound`), and for messages about
base files the maps are those of the same messages handled one at a time, in the
order in which the handlers finished (`runs_serial`). What can differ are the
replies, and whether the managers are told of a deletion: both depend on `shardDict`,
which the nodes share.
-/

namespace Lba2Pba.Trace.Threaded

open Py

/-- A request as a worker sends it, with what its handler meets outside. -/
structure Message where
  env : Env
  visit : Visit
  request : TChangeRequest

/-- The pools that the service can come to from `t` when the messages of a node follow
each other. -/
abbrev ServerRuns (ok : Message → Prop) (t : Trace) :
    Pool (Option String) Message Trace Call TChangeResponse → Prop :=
  Runs (fun m => tChangeFile m.env m.visit m.request) (fun m => nodeOf m.request) ok t

/-- A handler without extents ends at once. -/
theorem confined_none {r : TChangeRequest} (hp : r.filePba.pba.head? = none) (env : Env)
    (visit : Visit) (k : Option String) {P : Row → List Call → Prop} {v : Row} (h : P v []) :
    Thread.Confined (fun _ => True) row k (fun v' sent _ => P v' sent) v []
      (tChangeFile env visit r) := by
  simp only [tChangeFile, change, hp]
  exact h

/-- The invariant of a row. -/
structure RowSound (k : Option String) (v : Row) : Prop where
  nodes : v.nodes.1 = v.nodes.2
  both : v.files.isSome = v.raws.isSome
  cell : ∀ n, k = some n → ∀ f, Cell.Sound n f (v.cell f)

theorem Sound.row {t : Trace} (h : Sound t) (k : Option String) : RowSound k (row t k) := by
  refine ⟨h.nodes, ?_, ?_⟩
  · cases k with
    | none => rfl
    | some n =>
      show (t.fmDict.get? n).isSome = (t.rawFM.get? n).isSome
      rw [Bool.eq_iff_iff, ← Dict.contains, ← Dict.contains, Dict.contains_iff, Dict.contains_iff,
        ← Dict.mem_keys_iff, ← Dict.mem_keys_iff, h.nodes]
  · rintro n rfl f
    exact h.cell n f

theorem RowSound.shardStep {k : Option String} {v v' : Row} (h : RowSound k v)
    (hs : ShardStep v v') : RowSound k v' := by
  refine ⟨by rw [hs.nodes, h.nodes], by rw [hs.files, hs.raws, h.both], fun n hn f => ?_⟩
  exact (h.cell n hn f).shardStep (hs.cell f)

/-- No message changes the nodes, or whether the node of the row is one of them. -/
theorem shape_apply (v : Row) (action : String) (f : FilePBA) :
    (v.apply action f).nodes = v.nodes ∧ (v.apply action f).files.isSome = v.files.isSome ∧
      (v.apply action f).raws.isSome = v.raws.isSome := by
  unfold Row.apply
  split
  · split
    · exact ⟨rfl, rfl, rfl⟩
    · split <;> simp [Row.setRaw, Row.setFile]
  split
  · split <;> simp [Row.setFile]
  split
  · split <;> simp [Row.eraseFile, Row.eraseRaw]
  · exact ⟨rfl, rfl, rfl⟩

/-- A message about a base file changes the cell of its file as in `Cell.apply`. -/
theorem cell_apply {v : Row} (hboth : v.files.isSome = v.raws.isSome) (action : String)
    (f : FilePBA) (g : String) : (v.apply action f).cell g =
      if f.fileName = g ∧ v.files.isSome then (v.cell g).apply action f else v.cell g := by
  cases hv : v.files with
  | none =>
    have hsame : v.apply action f = v := by simp [Row.apply, Row.cell, hv]
    simp [hsame]
  | some files =>
    obtain ⟨raws, hr⟩ : ∃ raws, v.raws = some raws := by
      rw [← Option.isSome_iff_exists, ← hboth, hv]
      rfl
    by_cases hg : f.fileName = g
    · subst hg
      have hcell : v.cell f.fileName = ⟨files.get? f.fileName, raws.get? f.fileName⟩ := by
        simp [Row.cell, hv, hr]
      simp only [Option.isSome_some, and_true, if_true]
      unfold Row.apply Cell.apply
      split
      · simp only [hv]
        split
        · rename_i hc
          obtain ⟨e, he⟩ := Dict.contains_iff.1 hc
          simp [cell_setRaw, hcell, he, hr]
        · rename_i hc
          have hnone := Dict.contains_eq_false.1 (Bool.not_eq_true _ ▸ hc)
          have hraws : (v.setFile f.fileName ⟨∅, f.pba, f.type⟩).raws = some raws := hr
          simp [cell_setRaw, cell_setFile, hcell, hnone, hv, hraws]
      split
      · split
        · rename_i hnone
          rw [hcell] at hnone
          simp only at hnone
          simp [hcell, hnone]
        · rename_i e he
          simp [cell_setFile, hv, he]
      split
      · split
        · simp [cell_eraseBoth]
        · rfl
      · rfl
    · simp only [hg, false_and, if_false]
      unfold Row.apply
      split
      · simp only [hv]
        split <;> simp [cell_setRaw, cell_setFile, hg]
      split
      · split <;> simp [cell_setFile, hg]
      split
      · split <;> simp [cell_eraseBoth, hg]
      · rfl

theorem RowSound.apply {n : String} {v : Row} {f : FilePBA} (h : RowSound (some n) v)
    (hf : HostedOn n f.pba) (action : String) : RowSound (some n) (v.apply action f) := by
  obtain ⟨hnodes, hfiles, hraws⟩ := shape_apply v action f
  refine ⟨by rw [hnodes, h.nodes], by rw [hfiles, hraws, h.both], fun m hm g => ?_⟩
  cases hm
  rw [cell_apply h.both]
  split
  · rename_i hc
    obtain ⟨rfl, -⟩ := hc
    exact (h.cell n rfl _).apply hf action
  · exact h.cell n rfl g

section Sound

variable {t : Trace} {p : Pool (Option String) Message Trace Call TChangeResponse}

theorem runs_rowSound
    (ht : Sound t) (h : ServerRuns (fun _ => True) t p) {k : Option String}
    (hk : p.live k = none) : RowSound k (row p.self k) := by
  have hslot := (h.slot (fun _ => True) row (fun k _ v => RowSound k v) trivial
    (fun k => Sound.row ht k) ?_).2 k
  · rw [hk] at hslot
    exact hslot
  · intro m _ hist v hv
    cases hp : m.request.filePba.pba.head? with
    | none => exact confined_none hp m.env m.visit _ hv
    | some first =>
      have hnode : nodeOf m.request = some first.host := by simp [nodeOf, hp]
      simp only [hnode] at hv ⊢
      cases hs : isShard m.request.filePba.fileName with
      | true =>
        refine (confined_shard hp m.env m.visit hs v).mono ?_
        intro v' sent res hstep
        exact hv.shardStep hstep
      | false =>
        refine (confined_base hp m.env m.visit hs v).mono ?_
        rintro v' sent res ⟨rfl, -⟩
        refine hv.apply ?_ _
        rw [HostedOn, hp]
        rfl

/-- **Handlers at the same time keep the invariant.** However their statements
interleave, a node without a handler in progress is sound, and without handlers in
progress the file map has one entry for each file of each node. -/
theorem runs_sound (ht : Reachable t) (h : ServerRuns (fun _ => True) t p) :
    (∀ n, p.live (some n) = none → ∀ f, Cell.Sound n f (p.self.cell n f)) ∧
      ((∀ k, p.live k = none) → Sound p.self ∧ OnePerFile p.self) := by
  have hrow := fun k => runs_rowSound (k := k) ht.sound h
  refine ⟨fun n hn f => (hrow (some n) hn).cell n rfl f, fun hquiet => ?_⟩
  have hsound : Sound p.self :=
    sound_of_cells (hrow none (hquiet none)).nodes
      (fun n f => (hrow (some n) (hquiet _)).cell n rfl f)
  exact ⟨hsound, hsound.onePerFile⟩

end Sound

/-- Two nodes without files. -/
def twoNodes : List (String × List FilePBA) := [("node1", []), ("node2", [])]

/-- A `create` from a node. -/
def createAt (node fname : String) : Message :=
  ⟨oneGfid, inOrder,
    ⟨"create", { pba := [.blockAt node (.lit 0)], fileName := fname, type := "Distribute" }⟩⟩

/-- The second node's handler runs between two statements of the first node's. -/
theorem overlap (ok : Message → Prop) (t : Trace) (h₁ : ok (createAt "node1" "/vol/a"))
    (h₂ : ok (createAt "node2" "/vol/b")) :
    ∃ p, ServerRuns ok t p ∧ (∀ k, p.live k = none) ∧
      p.finished.map (fun x => x.request) =
        [createAt "node2" "/vol/b", createAt "node1" "/vol/a"] := by
  have hstart : ServerRuns ok t ⟨t, fun _ => none, []⟩ := .start
  have hfirst := (hstart.accept _ h₁ rfl).steps 3
  have hsecond := (hfirst.accept _ h₂ rfl).rest rfl
  exact ⟨_, hsecond.rest rfl, fun _ => rfl, rfl⟩

theorem overlap_sound : ∃ t, init oneGfid.toShard twoNodes = .ok t ∧
    ∃ p, ServerRuns (fun _ => True) t p ∧ p.finished.length = 2 ∧ Sound p.self := by
  have h : ∃ t, init oneGfid.toShard twoNodes = .ok t := ⟨_, rfl⟩
  obtain ⟨t, ht⟩ := h
  obtain ⟨p, hp, hlive, hfin⟩ := overlap (fun _ => True) t trivial trivial
  refine ⟨t, ht, p, hp, ?_, ((runs_sound (.init ht) hp).2 hlive).1⟩
  rw [← List.length_map (f := fun x => x.request), hfin]
  rfl

/-! ## The serial order -/

/-- The rows after a message about a base file that is handled alone. -/
theorem row_after {r : TChangeRequest} (hr : BaseRequest r) (env : Env) (t : Trace)
    (k : Option String) : row ((Trace.tChangeFile env r).run ⟨t, []⟩).2.self k =
      if nodeOf r = k then (row t k).apply r.action r.filePba else row t k := by
  obtain ⟨first, hp⟩ := Option.ne_none_iff_exists'.1 (mt List.head?_eq_none_iff.1 hr.2)
  have hnode : nodeOf r = some first.host := by simp [nodeOf, hp]
  obtain ⟨hother, hown, -⟩ :=
    (confined_base hp env inOrder hr.1 (row t (some first.host))).run ⟨t, []⟩ trivial rfl rfl
  rw [tChangeFile_solo] at hother hown
  rw [hnode]
  split
  · rename_i hk
    subst hk
    exact hown
  · rename_i hk
    exact hother k (fun he => hk he.symm)

theorem keyed_row : Run.Keyed
    (fun (t : Trace) (x : Env × TChangeRequest) =>
      ((Trace.tChangeFile x.1 x.2).run ⟨t, []⟩).2.self)
    row (fun x => nodeOf x.2) (fun x => Row.apply x.2.action x.2.filePba) (fun _ => True)
    (fun x => BaseRequest x.2) where
  inv_step _ _ := trivial
  view_step _ hx k := row_after hx _ _ k

/-- The messages of finished handlers, in the order in which they finished. -/
def handled (done : List (Finished Message Call TChangeResponse)) :
    List (Env × TChangeRequest) := done.map (fun x => (x.request.env, x.request.request))

section Serial

variable {t : Trace} {p : Pool (Option String) Message Trace Call TChangeResponse}

/-- The row of a node after these handlers, one after the other. -/
def rowAfter (t : Trace) (k : Option String)
    (done : List (Finished Message Call TChangeResponse)) : Row :=
  done.foldl (fun v x => Row.apply x.request.request.action x.request.request.filePba v) (row t k)

theorem rowAfter_snoc (k : Option String) (done : List (Finished Message Call TChangeResponse))
    (x : Finished Message Call TChangeResponse) : rowAfter t k (done ++ [x]) =
      (rowAfter t k done).apply x.request.request.action x.request.request.filePba := by
  rw [rowAfter, List.foldl_append]
  rfl

theorem rowAfter_handled {done : List (Finished Message Call TChangeResponse)}
    (h : ∀ x ∈ done, BaseRequest x.request.request) (k : Option String) :
    row (t.runAll (handled done)) k =
      rowAfter t k (done.filter (fun x => decide (nodeOf x.request.request = k))) := by
  rw [runAll, keyed_row.view_foldl trivial ?_ k]
  · rw [handled, List.filter_map, List.foldl_map]
    rfl
  · intro x hx
    obtain ⟨y, hy, rfl⟩ := List.mem_map.1 hx
    exact h y hy

theorem runs_row
    (h : ServerRuns (fun m => BaseRequest m.request) t p) {k : Option String}
    (hk : p.live k = none) :
    row p.self k = rowAfter t k (p.finishedAt (fun m => nodeOf m.request) k) ∧
      ∀ done x rest, p.finishedAt (fun m => nodeOf m.request) k = done ++ x :: rest →
        ∀ c ∈ x.sent, Told x.request.request (rowAfter t k done) c := by
  have hslot := (h.slot (fun _ => True) row (fun k hist v => v = rowAfter t k hist ∧
    ∀ done x rest, hist = done ++ x :: rest → ∀ c ∈ x.sent,
      Told x.request.request (rowAfter t k done) c)
    trivial (fun k => ⟨rfl, by simp⟩) ?_).2 k
  · rw [hk] at hslot
    exact hslot
  · intro m hm hist v hJ
    obtain ⟨rfl, htold⟩ := hJ
    obtain ⟨first, hp⟩ := Option.ne_none_iff_exists'.1 (mt List.head?_eq_none_iff.1 hm.2)
    have hnode : nodeOf m.request = some first.host := by simp [nodeOf, hp]
    simp only [hnode] at htold ⊢
    refine (confined_base hp m.env m.visit hm.1 _).mono ?_
    rintro v' sent res ⟨rfl, hsent⟩
    refine ⟨?_, fun done x rest hsplit => ?_⟩
    · rw [rowAfter_snoc]
    · -- the handler that has just finished is the last one
      rcases List.eq_nil_or_concat rest with rfl | ⟨rest, y, rfl⟩
      · obtain ⟨rfl, hx⟩ := List.append_inj' hsplit rfl
        cases hx
        exact hsent
      · rw [List.concat_eq_append, ← List.cons_append, ← List.append_assoc] at hsplit
        exact htold done x rest (List.append_inj' hsplit rfl).1

/-- **Handlers at the same time are as good as one after the other**, for messages about
base files: once all have finished, the two maps are those of the same messages handled
in the order in which they finished, and what each of them told the managers is what
its own message says, for a `modify` what was published before it in that order. -/
theorem runs_serial (h : ServerRuns (fun m => BaseRequest m.request) t p)
    (hquiet : ∀ k, p.live k = none) :
    p.self.fmDict = (t.runAll (handled p.finished)).fmDict ∧
      p.self.rawFM = (t.runAll (handled p.finished)).rawFM ∧
      ∀ done x rest, p.finished = done ++ x :: rest → ∀ c ∈ x.sent,
        Told x.request.request (row (t.runAll (handled done)) (nodeOf x.request.request)) c := by
  have hok := h.ok_of_handled.2
  have hrow : ∀ k, row p.self k = row (t.runAll (handled p.finished)) k := fun k =>
    (runs_row h (hquiet k)).1.trans (rowAfter_handled hok k).symm
  have hnodes := congrArg Row.nodes (hrow none)
  refine ⟨Dict.eq_of_get? (congrArg Prod.fst hnodes) (fun n => ?_),
    Dict.eq_of_get? (congrArg Prod.snd hnodes) (fun n => ?_), fun done x rest hsplit => ?_⟩
  · exact congrArg Row.files (hrow (some n))
  · exact congrArg Row.raws (hrow (some n))
  · have hdone : ∀ y ∈ done, BaseRequest y.request.request := fun y hy =>
      hok y (hsplit ▸ List.mem_append_left _ hy)
    rw [rowAfter_handled hdone]
    refine (runs_row h (hquiet _)).2 _ x
      (rest.filter (fun y => decide (nodeOf y.request.request = nodeOf x.request.request))) ?_
    rw [Pool.finishedAt, hsplit, List.filter_append, List.filter_cons_of_pos (by simp)]

end Serial

theorem overlap_serial : ∃ t, init oneGfid.toShard twoNodes = .ok t ∧
    ∃ p, ServerRuns (fun m => BaseRequest m.request) t p ∧ p.finished.length = 2 ∧
      p.self.rawFM = (t.runAll (handled p.finished)).rawFM := by
  have h : ∃ t, init oneGfid.toShard twoNodes = .ok t := ⟨_, rfl⟩
  obtain ⟨t, ht⟩ := h
  obtain ⟨p, hp, hlive, hfin⟩ :=
    overlap (fun m => BaseRequest m.request) t (by decide) (by decide)
  refine ⟨t, ht, p, hp, ?_, (runs_serial hp hlive).2.1⟩
  rw [← List.length_map (f := fun x => x.request), hfin]
  rfl

end Lba2Pba.Trace.Threaded
