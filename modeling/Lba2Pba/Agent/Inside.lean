import Lba2Pba.Agent.FileMap
import Lba2Pba.Agent.GetExact
import Lba2Pba.Py.Loop

/-!
# Every segment lies inside the file

Where `get` misses the requested range (`translatesExactly_iff`), it still hands out
only parts of the file: each segment is cut out of one extent (`Within`), and the
extents are used in their order and each at most once (`CutFrom`). `get_spec` has the
two kinds of cuts; the length left over after the first of them is never negative.
-/

namespace Lba2Pba.Agent

open Py

/-- `seg` is a part of the extent `p`. -/
structure Within (seg p : PBA) : Prop where
  disk : seg.disk = p.disk
  host : seg.host = p.host
  length : 0 ≤ seg.length.val
  lower : p.offset.val ≤ seg.offset.val
  upper : seg.offset.val + seg.length.val ≤ p.offset.val + p.length.val

/-- The segments are parts of extents at increasing positions of the list. -/
def CutFrom (extents segs : List PBA) : Prop :=
  ∃ used : List PBA, used.Sublist extents ∧ List.Forall₂ Within segs used

theorem IsCut.within {seg p : PBA} {k len : Int} (h : IsCut seg p k len) (hk : 0 ≤ k)
    (hlen : 0 ≤ len) (hfit : k + len ≤ p.length.val) : Within seg p := by
  have ho := h.offset
  have hl := h.length
  exact ⟨h.disk, h.host, by omega, by omega, by omega⟩

theorem CutFrom.nil (extents : List PBA) : CutFrom extents [] :=
  ⟨[], List.nil_sublist _, .nil⟩

theorem CutFrom.cons {x seg : PBA} {extents segs : List PBA} (h : Within seg x)
    (hs : CutFrom extents segs) : CutFrom (x :: extents) (seg :: segs) := by
  obtain ⟨used, hsub, hall⟩ := hs
  exact ⟨x :: used, hsub.cons_cons x, .cons h hall⟩

theorem CutFrom.mono {extents extents' segs : List PBA} (h : CutFrom extents segs)
    (hsub : extents.Sublist extents') : CutFrom extents' segs := by
  obtain ⟨used, hused, hall⟩ := h
  exact ⟨used, hused.trans hsub, hall⟩

theorem Rest.cutFrom {left : Int} {post segs : List PBA} (h : Rest left post segs)
    (hl : 0 ≤ left) (hn : NonNeg post) : CutFrom post segs := by
  induction h with
  | nil => exact .nil []
  | last h hc => exact .cons (hc.within (Int.le_refl 0) hl (by omega)) (.nil _)
  | whole h hc hr ih =>
    exact .cons (hc.within (Int.le_refl 0) hn.head (by omega)) (ih hn.tail)

theorem get_cutFrom {o L : Int} {l segs : List PBA} (ho : 0 ≤ o) (hL : 0 ≤ L) (hn : NonNeg l)
    (h : get o L l = .ok segs) : CutFrom l segs := by
  have hsub : (l.dropWhile (Short o)).Sublist l := List.dropWhile_sublist _
  cases hdrop : l.dropWhile (Short o) with
  | nil =>
    rw [get_nil hdrop] at h
    cases h
    exact .nil l
  | cons x post =>
    rw [hdrop] at hsub
    have hx := le_length_of_dropWhile hdrop
    have hpost : NonNeg post := fun p hp => hn p (hsub.subset (List.mem_cons_of_mem x hp))
    by_cases hw : x.offset.val + o < 2 ^ 63
    · obtain ⟨seg, rest, hget, hcut, hrest⟩ := get_spec hdrop ho hL hw
      rw [hget] at h
      cases h
      refine CutFrom.mono (.cons (hcut.within ho (by omega) (by omega)) ?_) hsub
      split at hrest
      · subst hrest
        exact .nil post
      · -- the range goes on after the first extent, so something is left of it
        exact hrest.cutFrom (by omega) hpost
    · rw [get_overflow hdrop (by omega)] at h
      cases h

/-! ## The answer for a file -/

/-- The replicas of the answer are cut from the replicas of the entry, one by one. -/
def ReplicasCut (rPba answer : List ReplicaPba) : Prop :=
  List.Forall₂ (fun r a => a.Node = r.Node ∧ CutFrom r.pba a.pba) rPba answer

theorem getReplicas_cut {o L : Int} {rPba res : List ReplicaPba} (ho : 0 ≤ o) (hL : 0 ≤ L)
    (hn : ∀ r ∈ rPba, NonNeg r.pba) (h : getReplicas o L rPba = .ok res) :
    ReplicasCut rPba res := by
  refine List.Forall₂.imp (fun r a hra => ?_)
    ((List.forall₂_and_left (p := fun r => NonNeg r.pba) rPba res).2 ⟨hn, mapM_ok_iff.1 h⟩)
  obtain ⟨hr, hra⟩ := hra
  obtain ⟨segs, hget, ha⟩ := bind_eq_ok.1 hra
  cases ha
  exact ⟨rfl, get_cutFrom ho hL hr hget⟩

/-- The extents of an entry have no negative length. -/
def NonNegEntry (f : FilePBA) : Prop := NonNeg f.pba ∧ ∀ r ∈ f.rPba, NonNeg r.pba

/-- The answer for a file is cut from one of its entries. -/
structure AnswerFrom (name : String) (f answer : FilePBA) : Prop where
  entry : f.fileName = name
  fileName : answer.fileName = name
  type : answer.type = f.type
  segments :
    (Str.isIn "Replicate" f.type = true ∧ answer.pba = [] ∧ ReplicasCut f.rPba answer.rPba) ∨
      (f.type = "Distribute" ∧ answer.rPba = [] ∧ CutFrom f.pba answer.pba)

theorem getPba_cut {name : String} {o L : Int} {fm : List FilePBA} {answer : FilePBA}
    (ho : 0 ≤ o) (hL : 0 ≤ L) (hn : ∀ f ∈ fm, NonNegEntry f)
    (h : getPba name o L fm = .ok (some answer)) : ∃ f ∈ fm, AnswerFrom name f answer := by
  induction fm with
  | nil => cases h
  | cons f rest ih =>
    have hlater : getPba name o L rest = .ok (some answer) →
        ∃ g ∈ f :: rest, AnswerFrom name g answer := by
      intro hrest
      obtain ⟨g, hg, hfrom⟩ := ih (fun g hg => hn g (List.mem_cons_of_mem f hg)) hrest
      exact ⟨g, List.mem_cons_of_mem f hg, hfrom⟩
    obtain ⟨hpba, hrep⟩ := hn f List.mem_cons_self
    unfold getPba at h
    split at h
    · rename_i hname
      split at h
      · rename_i ht
        obtain ⟨res, hres, h⟩ := bind_eq_ok.1 h
        cases h
        exact ⟨f, List.mem_cons_self, hname.symm, rfl, rfl,
          .inl ⟨ht, rfl, getReplicas_cut ho hL hrep hres⟩⟩
      · split at h
        · rename_i ht
          obtain ⟨res, hres, h⟩ := bind_eq_ok.1 h
          cases h
          exact ⟨f, List.mem_cons_self, hname.symm, rfl, rfl,
            .inr ⟨ht, rfl, get_cutFrom ho hL hpba hres⟩⟩
        · exact hlater h
    · exact hlater h

/-- **No address outside the file.** For a range that starts and goes on forwards, the
segments of `get` are cut from the extents it is given, and the answer of `getPba`,
replica by replica, from an entry of the file. -/
theorem getPba_stays_inside (startOffset length : Int) (ho : 0 ≤ startOffset)
    (hL : 0 ≤ length) :
    (∀ extents segs, NonNeg extents → get startOffset length extents = .ok segs →
      CutFrom extents segs) ∧
    ∀ name fm answer, (∀ f ∈ fm, NonNegEntry f) →
      getPba name startOffset length fm = .ok (some answer) →
        ∃ f ∈ fm, AnswerFrom name f answer :=
  ⟨fun _ _ hn h => get_cutFrom ho hL hn h, fun _ _ _ hn h => getPba_cut ho hL hn h⟩

/-- A file of two blocks, asked for across their border. -/
theorem getPba_stays_inside_blocks :
    ∃ segs, get 4000 200 [.blockAt "n" (.lit 0), .blockAt "n" (.lit 8192)] = .ok segs ∧
      segs.length = 2 ∧
      CutFrom [.blockAt "n" (.lit 0), .blockAt "n" (.lit 8192)] segs := by
  refine ⟨_, rfl, rfl, (getPba_stays_inside 4000 200 (by decide) (by decide)).1 _ _ ?_ rfl⟩
  intro p hp
  simp only [List.mem_cons, List.not_mem_nil, or_false] at hp
  rcases hp with rfl | rfl <;> decide

end Lba2Pba.Agent
