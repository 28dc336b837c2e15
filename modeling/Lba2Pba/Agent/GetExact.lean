import Lba2Pba.Agent.Get
import Mathlib.Algebra.Order.Ring.Int

/-!
# When `get` is exact

`get` is meant to return the physical bytes at the logical positions
`start_offset .. start_offset + length - 1` of the concatenated extents
(`TranslatesExactly`). It does not rebase the start over the extents it passes
over, and it does not reduce the remaining length in the extents it takes whole.
`translatesExactly_iff` says for which requests this does not matter.
-/

namespace Lba2Pba.Agent

open Layout

/-! ## The logical content of a file -/

/-- The physical bytes of a file in logical order. -/
def layout (l : List PBA) : List ((String × String) × Int) := l.flatMap PBA.bytes

def total (l : List PBA) : Int := (l.map (fun p => p.length.val)).sum

def NonNeg (l : List PBA) : Prop := ∀ p ∈ l, 0 ≤ p.length.val

@[simp] theorem layout_nil : layout [] = [] := rfl

@[simp] theorem layout_cons (p : PBA) (l : List PBA) : layout (p :: l) = p.bytes ++ layout l := by
  simp [layout]

@[simp] theorem layout_append (l₁ l₂ : List PBA) : layout (l₁ ++ l₂) = layout l₁ ++ layout l₂ := by
  simp [layout]

@[simp] theorem total_nil : total [] = 0 := rfl

@[simp] theorem total_cons (p : PBA) (l : List PBA) : total (p :: l) = p.length.val + total l := by
  simp [total]

@[simp] theorem total_append (l₁ l₂ : List PBA) : total (l₁ ++ l₂) = total l₁ + total l₂ := by
  simp [total]

theorem NonNeg.tail {p : PBA} {l : List PBA} (h : NonNeg (p :: l)) : NonNeg l :=
  fun q hq => h q (List.mem_cons_of_mem _ hq)

theorem NonNeg.head {p : PBA} {l : List PBA} (h : NonNeg (p :: l)) : 0 ≤ p.length.val :=
  h p List.mem_cons_self

theorem length_layout {l : List PBA} (h : NonNeg l) : ((layout l).length : Int) = total l := by
  induction l with
  | nil => rfl
  | cons p l ih =>
    have hp := h.head
    have hl := ih h.tail
    rw [layout_cons, total_cons, List.length_append, PBA.length_bytes]
    omega

theorem total_nonneg {l : List PBA} (h : NonNeg l) : 0 ≤ total l := by
  have := length_layout h
  omega

/-- A cut of an extent is a window of its bytes. -/
theorem IsCut.bytes {seg p : PBA} {k len : Int} (h : IsCut seg p k len) (hk : 0 ≤ k)
    (hkl : k + len ≤ p.length.val) : seg.bytes = window k.toNat len.toNat p.bytes := by
  unfold PBA.bytes
  rw [h.disk, h.host, h.offset, h.length, span_part _ _ _ hk hkl]

/-! ## The extents after the first -/

/-- The extents taken whole end the range where it should end: the next extent
that is not empty is longer than what is left, or all of them are wanted. -/
def Stops (left : Int) (post : List PBA) : Bool :=
  (post.find? (fun y => decide (0 < y.length.val))).all
    (fun y => decide (left < y.length.val ∨ total post ≤ left))

theorem Rest.isPrefix {left : Int} {post segs : List PBA} (h : Rest left post segs) :
    layout segs <+: layout post := by
  induction h with
  | nil => exact List.prefix_refl _
  | last h hc =>
    rw [layout_cons, layout_cons, layout_nil, List.append_nil, hc.bytes (Int.le_refl 0) (by omega)]
    exact (List.take_prefix _ _).trans (List.prefix_append _ _)
  | whole h hc hr ih =>
    rw [layout_cons, layout_cons, hc.bytes (Int.le_refl 0) (by omega),
      Int.toNat_zero, window_zero_of_le (by simp)]
    exact (List.prefix_append_right_inj _).2 ih

/-- The rest takes at least what is left, as far as there is anything. -/
theorem Rest.length_ge {left : Int} {post segs : List PBA} (h : Rest left post segs)
    (hl : 0 ≤ left) (hn : NonNeg post) : min left (total post) ≤ (layout segs).length := by
  induction h with
  | nil =>
    show min left 0 ≤ 0
    omega
  | last h hc =>
    have := hn.head
    rw [layout_cons, layout_nil, List.append_nil, PBA.length_bytes, hc.length]
    omega
  | whole h hc hr ih =>
    have hy := hn.head
    have := ih hn.tail
    rw [layout_cons, List.length_append, PBA.length_bytes, hc.length, total_cons]
    omega

theorem Rest.length_all {left : Int} {post segs : List PBA} (h : Rest left post segs)
    (hl : 0 ≤ left) (hn : NonNeg post) (ht : total post ≤ left) :
    ((layout segs).length : Int) = total post := by
  have h1 := h.length_ge hl hn
  have h2 := h.isPrefix.length_le
  have h3 := length_layout hn
  omega

/-- The rest is as long as it should be exactly if it stops right. -/
theorem Rest.length_iff {left : Int} {post segs : List PBA} (h : Rest left post segs)
    (hl : 0 < left) (hn : NonNeg post) :
    ((layout segs).length : Int) = min left (total post) ↔ Stops left post = true := by
  induction h with
  | nil =>
    have hmin : (0 : Int) = min left 0 := by omega
    simp [Stops, ← hmin]
  | @last y seg ys h hc =>
    have hy := hn.head
    have ht := total_nonneg hn.tail
    have hpos : 0 < y.length.val := by omega
    rw [layout_cons, layout_nil, List.append_nil, PBA.length_bytes, hc.length, total_cons]
    simp only [Stops, List.find?_cons, hpos, decide_true, Option.all_some, decide_eq_true_eq]
    constructor
    · intro _
      exact Or.inl h
    · intro _
      omega
  | @whole y seg ys segs h hc hr ih =>
    have hy := hn.head
    have ht := total_nonneg hn.tail
    have hge := hr.length_ge (Int.le_of_lt hl) hn.tail
    rw [layout_cons, List.length_append, PBA.length_bytes, hc.length, total_cons]
    by_cases hpos : 0 < y.length.val
    · -- a whole extent was taken, so any further cut at `left` is too long
      simp only [Stops, List.find?_cons, hpos, decide_true, Option.all_some, decide_eq_true_eq,
        total_cons]
      constructor
      · intro hlen
        right
        push_cast at hlen
        omega
      · intro hs
        have hall : y.length.val + total ys ≤ left := by
          rcases hs with h' | h'
          · omega
          · exact h'
        have := hr.length_all (Int.le_of_lt hl) hn.tail (by omega)
        push_cast
        omega
    · have hzero : y.length.val = 0 := by omega
      have hfind : (y :: ys).find? (fun y => decide (0 < y.length.val)) =
          ys.find? (fun y => decide (0 < y.length.val)) := by
        simp [hpos]
      have hih := ih hn.tail
      simp only [Stops, hfind, total_cons, hzero, Int.zero_add] at hih ⊢
      rw [← hih]
      simp

/-! ## The whole range -/

section Range

variable {o L : Int} {x seg : PBA} {post segs : List PBA}

/-- The range ends in the first extent, or the rest stops right. -/
def Ends (o L : Int) (x : PBA) (post : List PBA) : Prop :=
  o + L ≤ x.length.val ∨ Stops (L - (x.length.val - o)) post = true

instance (o L : Int) (x : PBA) (post : List PBA) : Decidable (Ends o L x post) :=
  inferInstanceAs (Decidable (_ ∨ _))

variable (ho : 0 ≤ o) (hL : 0 ≤ L) (hx : o ≤ x.length.val) (hn : NonNeg (x :: post))
  (hc : IsCut seg x o (min L (x.length.val - o)))
  (hs : if o + L ≤ x.length.val then segs = [] else Rest (L - (x.length.val - o)) post segs)

include ho hx hc hs in
/-- What is returned is contiguous: it starts `o` bytes into the first extent. -/
theorem range_isPrefix : layout (seg :: segs) <+: (layout (x :: post)).drop o.toNat := by
  have hdrop : (layout (x :: post)).drop o.toNat = x.bytes.drop o.toNat ++ layout post := by
    rw [layout_cons, List.drop_append_of_le_length (by rw [PBA.length_bytes]; omega)]
  rw [hdrop, layout_cons, hc.bytes ho (by omega)]
  split at hs
  · subst hs
    rw [layout_nil, List.append_nil]
    exact (List.take_prefix _ _).trans (List.prefix_append _ _)
  · rename_i hfit
    have hfull : window o.toNat (min L (x.length.val - o)).toNat x.bytes = x.bytes.drop o.toNat :=
      List.take_of_length_le (by rw [List.length_drop, PBA.length_bytes]; omega)
    rw [hfull]
    exact (List.prefix_append_right_inj _).2 hs.isPrefix

include hL hx hn hc hs in
theorem range_length_ge :
    min L (total (x :: post) - o) ≤ (layout (seg :: segs)).length := by
  have hp := total_nonneg hn.tail
  rw [layout_cons, List.length_append, PBA.length_bytes, hc.length, total_cons]
  split at hs
  · omega
  · have := hs.length_ge (by omega) hn.tail
    push_cast
    omega

include hL hx hn hc hs in
theorem range_length_iff :
    ((layout (seg :: segs)).length : Int) = min L (total (x :: post) - o) ↔ Ends o L x post := by
  have hp := total_nonneg hn.tail
  rw [layout_cons, List.length_append, PBA.length_bytes, hc.length, total_cons]
  split at hs
  · rename_i hfit
    subst hs
    simp only [Ends, hfit, true_or, iff_true, layout_nil, List.length_nil]
    omega
  · rename_i hfit
    have hiff := hs.length_iff (by omega) hn.tail
    simp only [Ends, hfit, false_or, ← hiff]
    push_cast
    omega

include ho hL hx hn hc hs in
/-- What is returned is the window that starts `o` bytes into the first extent,
exactly if the range ends right. -/
theorem range_eq_window_iff :
    layout (seg :: segs) = window o.toNat L.toNat (layout (x :: post)) ↔ Ends o L x post := by
  have hpre := range_isPrefix ho hx hc hs
  have hlen := length_layout hn
  have htot : o ≤ total (x :: post) := by
    have := total_nonneg hn.tail
    rw [total_cons]
    omega
  rw [eq_window_iff hpre, ← range_length_iff hL hx hn hc hs]
  omega

end Range

/-! ## Exactness -/

/-- The property `get` is meant to have: the bytes of the returned segments are
the requested window of the file. -/
def TranslatesExactly (o L : Int) (l : List PBA) : Prop :=
  ∃ segs, get o L l = .ok segs ∧ layout segs = window o.toNat L.toNat (layout l)

/-- The requests that `get` translates exactly. Let `x` be the first extent that
is at least `o` long. If there is none, nothing may be requested. Otherwise the
first address must fit its field, the range must end in `x` or stop right in the
extents after it, and the extents before `x` must be empty, unless the bytes that
lie as much further on as these extents are long are the same physical bytes. -/
def GetExact (o L : Int) (l : List PBA) : Prop :=
  match l.dropWhile (Short o) with
  | [] => L = 0 ∨ total l ≤ o
  | x :: post =>
    let skipped := total (l.takeWhile (Short o))
    x.offset.val + o < 2 ^ 63 ∧ Ends o L x post ∧
      (skipped = 0 ∨ window (skipped + o).toNat L.toNat (layout l) =
        window o.toNat L.toNat (layout l))

section Exact

variable {o L : Int} {l : List PBA}

theorem NonNeg.takeWhile (hn : NonNeg l) (p : PBA → Bool) : NonNeg (l.takeWhile p) :=
  fun q hq => hn q (List.takeWhile_subset _ hq)

theorem NonNeg.dropWhile (hn : NonNeg l) (p : PBA → Bool) : NonNeg (l.dropWhile p) :=
  fun q hq => hn q (List.dropWhile_subset _ hq)

/-- The window `o` bytes into the first extent is the requested window moved by
what lies before that extent. -/
theorem window_dropWhile (ho : 0 ≤ o) (hn : NonNeg l) (p : PBA → Bool) :
    window o.toNat L.toNat (layout (l.dropWhile p)) =
      window (total (l.takeWhile p) + o).toNat L.toNat (layout l) := by
  have hpre := length_layout (hn.takeWhile p)
  conv_rhs => rw [← List.takeWhile_append_dropWhile (p := p) (l := l), layout_append]
  rw [window_append_right _ (by rw [List.takeWhile_append_dropWhile]; omega)]
  congr 1
  rw [List.takeWhile_append_dropWhile]
  omega

/-- `get` returns one list. -/
theorem translatesExactly_of_get {segs : List PBA} (h : get o L l = .ok segs) :
    TranslatesExactly o L l ↔ layout segs = window o.toNat L.toNat (layout l) := by
  unfold TranslatesExactly
  rw [h]
  constructor
  · rintro ⟨segs', he, hl⟩
    cases he
    exact hl
  · intro hl
    exact ⟨_, rfl, hl⟩

theorem translatesExactly_of_nil (ho : 0 ≤ o) (hL : 0 ≤ L) (hn : NonNeg l)
    (h : l.dropWhile (Short o) = []) : TranslatesExactly o L l ↔ L = 0 ∨ total l ≤ o := by
  have hlen := length_layout hn
  rw [translatesExactly_of_get (get_nil h), layout_nil, eq_comm, window_eq_nil_iff]
  omega

/-- With some extent at least `o` long, a bad start is only made good by the same
physical bytes lying further on. -/
theorem translatesExactly_of_cons (ho : 0 ≤ o) (hL : 0 ≤ L) (hn : NonNeg l) {x : PBA}
    {post : List PBA} (h : l.dropWhile (Short o) = x :: post) :
    TranslatesExactly o L l ↔ x.offset.val + o < 2 ^ 63 ∧ Ends o L x post ∧
      (total (l.takeWhile (Short o)) = 0 ∨
        window (total (l.takeWhile (Short o)) + o).toNat L.toNat (layout l) =
          window o.toNat L.toNat (layout l)) := by
  by_cases hw : x.offset.val + o < 2 ^ 63
  swap
  · constructor
    · rintro ⟨segs, hs, -⟩
      rw [get_overflow h (Int.not_lt.1 hw)] at hs
      cases hs
    · rintro ⟨hw', -⟩
      exact absurd hw' hw
  have hx := le_length_of_dropWhile h
  have hxn : NonNeg (x :: post) := h ▸ hn.dropWhile _
  obtain ⟨seg, segs, hget, hc, hs⟩ := get_spec h ho hL hw
  have hmove := window_dropWhile (L := L) ho hn (Short o)
  have hends := range_eq_window_iff ho hL hx hxn hc hs
  have hge := range_length_ge hL hx hxn hc hs
  have hpre := (range_isPrefix ho hx hc hs).length_le
  have hlen := length_layout hn
  have hxlen := length_layout hxn
  have hskip := total_nonneg (hn.takeWhile (Short o))
  have htot : total l = total (l.takeWhile (Short o)) + total (x :: post) := by
    rw [← total_append, ← h, List.takeWhile_append_dropWhile]
  rw [h] at hmove
  rw [List.length_drop] at hpre
  rw [translatesExactly_of_get hget, ← hends, hmove]
  simp only [hw, true_and]
  constructor
  · intro heq
    by_cases hzero : total (l.takeWhile (Short o)) = 0
    · refine ⟨?_, Or.inl hzero⟩
      rw [heq, hzero, Int.zero_add]
    · -- the lengths force the returned bytes to be a full window further on
      have hl := congrArg List.length heq
      rw [length_window] at hl
      have hfull : layout (seg :: segs) =
          window (total (l.takeWhile (Short o)) + o).toNat L.toNat (layout l) := by
        rw [← hmove, eq_window_iff (range_isPrefix ho hx hc hs)]
        omega
      exact ⟨hfull, Or.inr (hfull ▸ heq)⟩
  · rintro ⟨heq, hzero | hsame⟩
    · rw [heq, hzero, Int.zero_add]
    · rw [heq, hsame]

/-- **Exactness of `get`.** For extents of non-negative length and a request of
non-negative start and length, the returned bytes are the requested ones exactly
in the cases of `GetExact`. -/
theorem translatesExactly_iff (o L : Int) (l : List PBA) (hn : NonNeg l) (ho : 0 ≤ o)
    (hL : 0 ≤ L) : TranslatesExactly o L l ↔ GetExact o L l := by
  unfold GetExact
  split
  · rename_i h
    exact translatesExactly_of_nil ho hL hn h
  · rename_i x post h
    exact translatesExactly_of_cons ho hL hn h

/-- Three extents of ten bytes on one disk. -/
def threeExtents : List PBA :=
  [⟨"sda", "node1", .lit 1000, .lit 10, default, default⟩,
    ⟨"sda", "node1", .lit 2000, .lit 10, default, default⟩,
    ⟨"sda", "node1", .lit 3000, .lit 10, default, default⟩]

theorem threeExtents_nonNeg : NonNeg threeExtents := by
  simp [NonNeg, threeExtents, I64.lit]

/-- A range that starts in the first extent and ends in the second is exact. -/
theorem threeExtents_exact : TranslatesExactly 5 12 threeExtents :=
  (translatesExactly_iff 5 12 threeExtents threeExtents_nonNeg (by decide) (by decide)).2
    ⟨by decide, by decide, Or.inl (by decide)⟩

/-- A range that ends in the third extent gets the whole of it: after the first
five bytes fifteen are left, and they are still left after the second extent. -/
theorem threeExtents_not_exact :
    NonNeg threeExtents ∧ ¬ TranslatesExactly 5 20 threeExtents := by
  refine ⟨threeExtents_nonNeg, ?_⟩
  rintro ⟨segs, hget, hbytes⟩
  have hres : (get 5 20 threeExtents).map (fun s => (layout s).length) = .ok 25 := by decide
  have hwin : (window 5 20 (layout threeExtents)).length = 20 := by decide
  rw [hget, Except.map, hbytes] at hres
  simp only [Except.ok.injEq] at hres
  exact absurd (hwin.symm.trans hres) (by decide)

end Exact

end Lba2Pba.Agent
