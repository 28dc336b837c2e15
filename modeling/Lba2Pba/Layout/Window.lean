import Mathlib.Data.List.Basic
import Mathlib.Algebra.BigOperators.Group.List.Basic

/-!
# Ranges of a concatenation of address spans

A file is stored as a sequence of spans of consecutive addresses on some device.
Its logical content is the concatenation of the spans, and a request is a window
of that concatenation. Bases and lengths are integers, as the programs have them;
a span of negative length is empty.
-/

namespace Layout

variable {δ α : Type}

/-- `len` consecutive addresses on `dev`, from `base`. -/
def span (dev : δ) (base len : Int) : List (δ × Int) :=
  (List.range len.toNat).map (fun (j : Nat) => (dev, base + (j : Int)))

/-- The `len` elements of `l` from position `start`, or as many as there are. -/
def window (start len : Nat) (l : List α) : List α := (l.drop start).take len

@[simp] theorem length_span (dev : δ) (base len : Int) :
    (span dev base len).length = len.toNat := by
  simp [span]

theorem span_of_nonpos (dev : δ) (base : Int) {len : Int} (h : len ≤ 0) :
    span dev base len = [] := by
  simp [span, Int.toNat_of_nonpos h]

theorem length_window (start len : Nat) (l : List α) :
    (window start len l).length = min len (l.length - start) := by
  simp [window]

theorem window_eq_nil_iff {start len : Nat} {l : List α} :
    window start len l = [] ↔ len = 0 ∨ l.length ≤ start := by
  rw [← List.length_eq_zero_iff, length_window]
  omega

theorem window_of_length_le {start len : Nat} {l : List α} (h : l.length ≤ start) :
    window start len l = [] :=
  window_eq_nil_iff.2 (Or.inr h)

theorem window_zero_of_le {len : Nat} {l : List α} (h : l.length ≤ len) : window 0 len l = l := by
  simp [window, List.take_of_length_le h]

theorem window_isPrefix (start len : Nat) (l : List α) : window start len l <+: l.drop start :=
  List.take_prefix _ _

/-- A list that starts like the window is the window if it is as long. -/
theorem eq_window_iff {start len : Nat} {l m : List α} (h : m <+: l.drop start) :
    m = window start len l ↔ m.length = min len (l.length - start) := by
  constructor
  · intro hm
    rw [hm, length_window]
  · intro hlen
    rw [List.prefix_iff_eq_take.1 h, hlen, window]
    rw [← List.length_drop, ← List.take_take, List.take_length]

/-- A window of a concatenation is a window of each part. -/
theorem window_append (start len : Nat) (l₁ l₂ : List α) :
    window start len (l₁ ++ l₂) =
      window start len l₁ ++ window (start - l₁.length) (len - (l₁.length - start)) l₂ := by
  simp [window, List.drop_append, List.take_append]

theorem window_append_left {start len : Nat} {l₁ : List α} (l₂ : List α)
    (h : start + len ≤ l₁.length) : window start len (l₁ ++ l₂) = window start len l₁ := by
  rw [window_append, Nat.sub_eq_zero_of_le (by omega : len ≤ l₁.length - start)]
  simp [window]

theorem window_append_right {start len : Nat} {l₁ : List α} (l₂ : List α)
    (h : l₁.length ≤ start) :
    window start len (l₁ ++ l₂) = window (start - l₁.length) len l₂ := by
  rw [window_append, window_of_length_le h, Nat.sub_eq_zero_of_le h, List.nil_append,
    Nat.sub_zero]

/-- A window of a span is the span that starts further on and ends with either. -/
theorem window_span (dev : δ) (base len : Int) (i n : Nat) :
    window i n (span dev base len) = span dev (base + i) (min n (len - i)) := by
  apply List.ext_getElem
  · rw [length_window, length_span, length_span]
    omega
  · intro k h1 h2
    simp only [window, span, List.getElem_take, List.getElem_drop, List.getElem_map,
      List.getElem_range, Prod.mk.injEq, true_and]
    push_cast
    omega

/-- A part of a span is a window of it. -/
theorem span_part (dev : δ) (base len : Int) {k n : Int} (hk : 0 ≤ k) (hn : k + n ≤ len) :
    span dev (base + k) n = window k.toNat n.toNat (span dev base len) := by
  rw [window_span]
  by_cases h : 0 ≤ n
  · congr 1 <;> omega
  · rw [span_of_nonpos _ _ (by omega), span_of_nonpos _ _ (by omega)]

end Layout
