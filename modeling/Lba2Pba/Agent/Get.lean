import Lba2Pba.Messages

/-!
# Translating a logical range: `DBFileAgent.getPba`

The inner function `get` of `DBFileAgent.getPba` walks the extents of a file once
and cuts the requested range out of them. `get_spec` gives its result without the
loop: the extents before the first one that is at least `start_offset` long are
passed over, that one is cut at `start_offset`, and the ones after it are taken
whole until one is longer than what was left after the first cut (`Rest`).
-/

namespace Lba2Pba.Agent

open Py Layout

/-- The variables of the loop in `get`. -/
structure GetState where
  leftLen : Int
  startChk : Bool
  endChk : Bool
  result : List PBA
deriving DecidableEq

/-- One pass of the loop in `get`. -/
def getStep (start : Int) (st : GetState) (pba : PBA) : Except Err GetState := do
  let s := pba.offset.val
  let e := s + pba.length.val
  if !st.startChk then
    if start ≤ pba.length.val then
      let offset ← I64.assign (s + start)
      if offset.val + st.leftLen ≤ e then
        let length ← I64.assign st.leftLen
        return { st with
          endChk := true
          startChk := true
          result := st.result ++ [{ disk := pba.disk, host := pba.host, offset, length }] }
      else
        let length ← I64.assign (e - (s + start))
        return { st with
          leftLen := st.leftLen - length.val
          startChk := true
          result := st.result ++ [{ disk := pba.disk, host := pba.host, offset, length }] }
    else return st
  else if !st.endChk then
    let offset := pba.offset
    if offset.val + st.leftLen < e then
      let length ← I64.assign st.leftLen
      return { st with
        endChk := true
        result := st.result ++ [{ disk := pba.disk, host := pba.host, offset, length }] }
    else
      let length := pba.length
      return { st with
        result := st.result ++ [{ disk := pba.disk, host := pba.host, offset, length }] }
  else return st

/-- `get(pbaList)` inside `getPba(file_name, start_offset, length)`. -/
def get (startOffset length : Int) (pbaList : List PBA) : Except Err (List PBA) := do
  let st ← pbaList.foldlM (getStep startOffset) ⟨length, false, false, []⟩
  return st.result

/-! ## The segments -/

/-- `seg` is the part of `p` of length `len` that starts `k` bytes into it. -/
structure IsCut (seg p : PBA) (k len : Int) : Prop where
  disk : seg.disk = p.disk
  host : seg.host = p.host
  offset : seg.offset.val = p.offset.val + k
  length : seg.length.val = len

/-- The segments taken after the first one. The length `left` is the one left
after the first segment: it is not reduced from one extent to the next. -/
inductive Rest (left : Int) : List PBA → List PBA → Prop
  | nil : Rest left [] []
  | last {y seg : PBA} {ys : List PBA} (h : left < y.length.val) (hc : IsCut seg y 0 left) :
      Rest left (y :: ys) [seg]
  | whole {y seg : PBA} {ys segs : List PBA} (h : y.length.val ≤ left)
      (hc : IsCut seg y 0 y.length.val) (hr : Rest left ys segs) :
      Rest left (y :: ys) (seg :: segs)

theorem foldlM_done (o left : Int) (res : List PBA) (l : List PBA) :
    l.foldlM (getStep o) ⟨left, true, true, res⟩ = .ok ⟨left, true, true, res⟩ := by
  induction l with
  | nil => rfl
  | cons y ys ih =>
    rw [List.foldlM_cons]
    exact ih

theorem foldlM_rest (o left : Int) (hl : 0 ≤ left) (l : List PBA) (res : List PBA) :
    ∃ segs, Rest left l segs ∧
      (l.foldlM (getStep o) ⟨left, true, false, res⟩).map GetState.result = .ok (res ++ segs) := by
  induction l generalizing res with
  | nil => exact ⟨[], .nil, by simp [pure, Except.pure, Except.map]⟩
  | cons y ys ih =>
    by_cases hy : left < y.length.val
    · obtain ⟨n, hn, hv⟩ := I64.assign_of_between (default : I64) y.length hl (Int.le_of_lt hy)
      let seg : PBA := { disk := y.disk, host := y.host, offset := y.offset, length := n }
      refine ⟨[seg], .last hy ⟨rfl, rfl, by simp [seg], hv⟩, ?_⟩
      have hs : getStep o ⟨left, true, false, res⟩ y = .ok ⟨left, true, true, res ++ [seg]⟩ := by
        simp [getStep, hy, hn, bind, Except.bind, pure, Except.pure, seg]
      rw [List.foldlM_cons, hs]
      simp only [bind, Except.bind, foldlM_done, Except.map]
    · let seg : PBA := { disk := y.disk, host := y.host, offset := y.offset, length := y.length }
      obtain ⟨segs, hr, he⟩ := ih (res ++ [seg])
      refine ⟨seg :: segs, .whole (by omega) ⟨rfl, rfl, by simp [seg], rfl⟩ hr, ?_⟩
      have hs : getStep o ⟨left, true, false, res⟩ y = .ok ⟨left, true, false, res ++ [seg]⟩ := by
        simp [getStep, hy, pure, Except.pure, seg]
      rw [List.foldlM_cons, hs, ← List.append_cons] at *
      exact he

/-! ## The result of `get` -/

/-- An extent shorter than the start offset is passed over, and the offset is not
reduced by its length. -/
def Short (o : Int) (p : PBA) : Bool := decide (p.length.val < o)

theorem foldlM_short (o L : Int) (l : List PBA) :
    l.foldlM (getStep o) ⟨L, false, false, []⟩ =
      (l.dropWhile (Short o)).foldlM (getStep o) ⟨L, false, false, []⟩ := by
  induction l with
  | nil => rfl
  | cons y ys ih =>
    by_cases hy : y.length.val < o
    · have hs : getStep o ⟨L, false, false, []⟩ y = .ok ⟨L, false, false, []⟩ := by
        simp [getStep, Int.not_le.2 hy, pure, Except.pure]
      rw [List.foldlM_cons, hs, List.dropWhile_cons_of_pos (by simpa [Short] using hy)]
      exact ih
    · rw [List.dropWhile_cons_of_neg (by simpa [Short] using hy)]

theorem get_nil {o L : Int} {l : List PBA} (h : l.dropWhile (Short o) = []) :
    get o L l = .ok [] := by
  rw [get, foldlM_short, h]
  rfl

section Found

variable {o L : Int} {l post : List PBA} {x : PBA} (h : l.dropWhile (Short o) = x :: post)

include h in
theorem le_length_of_dropWhile : o ≤ x.length.val := by
  have := List.head?_dropWhile_not (Short o) l
  rw [h] at this
  simpa [Short] using this

include h in
/-- The address of the first byte must fit its field. -/
theorem get_overflow (hw : 2 ^ 63 ≤ x.offset.val + o) : get o L l = .error .valueError := by
  have hx := le_length_of_dropWhile h
  rw [get, foldlM_short, h, List.foldlM_cons]
  simp [getStep, hx, I64.assign_error hw, bind, Except.bind]

include h in
/-- **The result of `get`** when some extent is at least `o` long. -/
theorem get_spec (ho : 0 ≤ o) (hL : 0 ≤ L) (hw : x.offset.val + o < 2 ^ 63) :
    ∃ seg segs, get o L l = .ok (seg :: segs) ∧ IsCut seg x o (min L (x.length.val - o)) ∧
      if o + L ≤ x.length.val then segs = [] else Rest (L - (x.length.val - o)) post segs := by
  have hx := le_length_of_dropWhile h
  have hlo := x.offset.lo
  have hoff : I64.assign (x.offset.val + o) =
      .ok ⟨x.offset.val + o, by omega, hw⟩ := dif_pos ⟨by omega, hw⟩
  rw [get, foldlM_short, h, List.foldlM_cons]
  by_cases hfit : o + L ≤ x.length.val
  · obtain ⟨n, hn, hv⟩ := I64.assign_of_between (default : I64) x.length hL (by omega)
    let seg : PBA := ⟨x.disk, x.host, ⟨x.offset.val + o, by omega, hw⟩, n, default, default⟩
    have hs : getStep o ⟨L, false, false, []⟩ x = .ok ⟨L, true, true, [seg]⟩ := by
      have hc : x.offset.val + o + L ≤ x.offset.val + x.length.val := by omega
      simp [getStep, hx, hoff, hc, hn, bind, Except.bind, pure, Except.pure, seg]
    refine ⟨seg, [], ?_, ⟨rfl, rfl, rfl, ?_⟩, ?_⟩
    · rw [hs]
      simp only [bind, Except.bind, foldlM_done, pure, Except.pure]
    · show n.val = _
      rw [hv]
      omega
    · rw [if_pos hfit]
  · have hlen : x.offset.val + x.length.val - (x.offset.val + o) = x.length.val - o := by omega
    obtain ⟨n, hn, hv⟩ := I64.assign_of_between (default : I64) x.length
      (x := x.length.val - o) (by show (0 : Int) ≤ _; omega) (by omega)
    let seg : PBA := ⟨x.disk, x.host, ⟨x.offset.val + o, by omega, hw⟩, n, default, default⟩
    have hs : getStep o ⟨L, false, false, []⟩ x =
        .ok ⟨L - (x.length.val - o), true, false, [seg]⟩ := by
      have hc : ¬ x.offset.val + o + L ≤ x.offset.val + x.length.val := by omega
      simp [getStep, hx, hoff, hc, hlen, hn, hv, bind, Except.bind, pure, Except.pure, seg]
    obtain ⟨segs, hr, he⟩ := foldlM_rest o (L - (x.length.val - o)) (by omega) post [seg]
    refine ⟨seg, segs, ?_, ⟨rfl, rfl, rfl, ?_⟩, ?_⟩
    · rw [hs]
      simp only [bind, Except.bind, pure, Except.pure]
      revert he
      rcases post.foldlM (getStep o) ⟨L - (x.length.val - o), true, false, [seg]⟩ with e | st
      · intro he
        cases he
      · intro he
        simpa [Except.map] using he
    · show n.val = _
      rw [hv]
      omega
    · rw [if_neg hfit]
      exact hr

end Found

end Lba2Pba.Agent
