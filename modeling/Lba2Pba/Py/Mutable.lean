import Lba2Pba.Py.Exec
import Mathlib.Data.List.Dedup
import Mathlib.Data.List.Induction

/-!
# Mutable objects and lists

Two places of a program can hold one object, and a change made through one of them
is seen through the other. A `Heap` holds the objects, and a place holds a position
in it. An object is never freed.

`popLast` is the loop that remembers the last index with a property and pops it.
`SetOrder` is the order in which a set is made into a list.
-/

namespace Py

/-- Objects by reference. -/
structure Heap (α : Type) where
  objs : List α
deriving DecidableEq

namespace Heap

variable {α : Type} {h : Heap α} {r s : Nat}

/-- The reference that the next new object gets. -/
def next (h : Heap α) : Nat := h.objs.length

/-- A new object, at `h.next`. -/
def alloc (h : Heap α) (a : α) : Heap α := ⟨h.objs ++ [a]⟩

/-- Change an object in place. -/
def put (h : Heap α) (r : Nat) (a : α) : Heap α := ⟨h.objs.set r a⟩

/-- The object at `r`. -/
def get [Inhabited α] (h : Heap α) (r : Nat) : α := h.objs.getD r default

@[simp] theorem next_alloc (a : α) : (h.alloc a).next = h.next + 1 := by
  simp [next, alloc]

@[simp] theorem next_put (a : α) : (h.put r a).next = h.next := by
  simp [next, put]

variable [Inhabited α]

@[simp] theorem get_alloc_next (a : α) : (h.alloc a).get h.next = a := by
  simp [get, alloc, next]

theorem get_alloc_of_lt (a : α) (hr : r < h.next) : (h.alloc a).get r = h.get r := by
  simp only [get, alloc, List.getD_eq_getElem?_getD]
  rw [List.getElem?_append_left hr]

theorem get_put (a : α) (hr : r < h.next) :
    (h.put r a).get s = if r = s then a else h.get s := by
  have hr' : r < h.objs.length := hr
  simp only [get, put, List.getD_eq_getElem?_getD, List.getElem?_set, hr', if_true]
  split <;> simp

end Heap

/-! ## Popping the last match -/

variable {α : Type} {p q : α → Bool}

/-- `index = -1`, the last `i` with `p(l[i])`, `if index >= 0: l.pop(index)`. -/
def popLast (p : α → Bool) (l : List α) : List α := (l.reverse.eraseP p).reverse

theorem filter_eraseP_self (l : List α) : (l.eraseP p).filter p = (l.filter p).tail := by
  induction l with
  | nil => rfl
  | cons a l ih =>
    by_cases ha : p a = true
    · rw [List.eraseP_cons_of_pos ha, List.filter_cons_of_pos ha, List.tail_cons]
    · rw [List.eraseP_cons_of_neg ha, List.filter_cons_of_neg ha, List.filter_cons_of_neg ha, ih]

theorem filter_eraseP_of_disjoint (h : ∀ a, q a = true → p a = false) (l : List α) :
    (l.eraseP p).filter q = l.filter q := by
  induction l with
  | nil => rfl
  | cons a l ih =>
    by_cases ha : p a = true
    · have hq : ¬ q a = true := fun hq => by simp [h a hq] at ha
      rw [List.eraseP_cons_of_pos ha, List.filter_cons_of_neg hq]
    · rw [List.eraseP_cons_of_neg ha, List.filter_cons, List.filter_cons, ih]

/-- One of the matches goes, the last. -/
theorem filter_popLast_self (l : List α) : (popLast p l).filter p = (l.filter p).dropLast := by
  rw [popLast, List.filter_reverse, filter_eraseP_self, List.filter_reverse, List.tail_reverse,
    List.reverse_reverse]

/-- Everything else stays in place. -/
theorem filter_popLast_of_disjoint (h : ∀ a, q a = true → p a = false) (l : List α) :
    (popLast p l).filter q = l.filter q := by
  rw [popLast, List.filter_reverse, filter_eraseP_of_disjoint h, List.filter_reverse,
    List.reverse_reverse]

/-- The loop itself: the last position with `p`. -/
def lastIndex (p : α → Bool) (l : List α) : Option Nat :=
  (List.range l.length).foldl (fun index i => if l[i]?.any p then some i else index) none

theorem lastIndex_append (l : List α) (a : α) :
    lastIndex p (l ++ [a]) = if p a then some l.length else lastIndex p l := by
  unfold lastIndex
  rw [List.length_append, List.length_singleton, List.range_succ, List.foldl_append,
    List.foldl_cons, List.foldl_nil, List.getElem?_concat_length, Option.any_some]
  split
  · rfl
  · refine List.foldl_ext _ _ none (fun index i hi => ?_)
    rw [List.getElem?_append_left (List.mem_range.1 hi)]

theorem lastIndex_lt (l : List α) {i : Nat} (h : lastIndex p l = some i) : i < l.length := by
  induction l using List.reverseRecOn with
  | nil => cases h
  | append_singleton l a ih =>
    rw [lastIndex_append] at h
    rw [List.length_append, List.length_singleton]
    split at h
    · cases h
      exact Nat.lt_succ_self _
    · exact Nat.lt_succ_of_lt (ih h)

/-- The loop pops the last match. -/
theorem popLast_eq (l : List α) : popLast p l = match lastIndex p l with
    | none => l
    | some i => l.eraseIdx i := by
  induction l using List.reverseRecOn with
  | nil => rfl
  | append_singleton l a ih =>
    unfold popLast at ih ⊢
    rw [lastIndex_append, List.reverse_append, List.reverse_singleton, List.singleton_append]
    by_cases ha : p a = true
    · rw [List.eraseP_cons_of_pos ha, List.reverse_reverse, if_pos ha]
      show l = (l ++ [a]).eraseIdx l.length
      rw [List.eraseIdx_append_of_length_le (Nat.le_refl _), Nat.sub_self]
      exact (List.append_nil l).symm
    · rw [List.eraseP_cons_of_neg ha, List.reverse_cons, ih, if_neg ha]
      cases hi : lastIndex p l with
      | none => rfl
      | some i =>
        exact (List.eraseIdx_append_of_lt_length (lastIndex_lt l hi) [a]).symm

theorem any_range (l : List α) :
    (List.range l.length).any (fun i => l[i]?.any p) = l.any p := by
  rw [Bool.eq_iff_iff, List.any_eq_true, List.any_eq_true]
  constructor
  · rintro ⟨i, -, hi⟩
    obtain ⟨a, ha, hp⟩ := (Option.any_eq_true _ _).1 hi
    exact ⟨a, List.mem_of_getElem? ha, hp⟩
  · rintro ⟨a, ha, hp⟩
    obtain ⟨i, hi⟩ := List.mem_iff_getElem?.1 ha
    exact ⟨i, List.mem_range.2 (List.getElem?_eq_some_iff.1 hi).1, by rw [hi]; exact hp⟩

/-! ## Removing from a set -/

section Sets

variable [DecidableEq α]

/-- What `list(set(l))` returns: every element once, in some order. -/
structure SetOrder (α : Type) [DecidableEq α] where
  list : List α → List α
  perm : ∀ l, (list l).Perm l.dedup

namespace SetOrder

variable {order : SetOrder α} {a b : α} {l : List α}

/-- `rest = list(set(l))` and `rest.remove(a)`. -/
def without (order : SetOrder α) (a : α) (l : List α) : Except Err (List α) :=
  if a ∈ order.list l then .ok ((order.list l).erase a) else .error .valueError

@[simp] theorem mem_list : b ∈ order.list l ↔ b ∈ l := by
  rw [(order.perm l).mem_iff, List.mem_dedup]

theorem nodup_list : (order.list l).Nodup := (order.perm l).nodup_iff.2 (List.nodup_dedup l)

theorem without_of_not_mem (h : a ∉ l) : order.without a l = .error .valueError :=
  if_neg (by rwa [mem_list])

theorem without_of_mem (order : SetOrder α) (h : a ∈ l) :
    ∃ rest, order.without a l = .ok rest ∧ ∀ b, b ∈ rest ↔ b ≠ a ∧ b ∈ l := by
  refine ⟨_, if_pos (mem_list.2 h), fun b => ?_⟩
  rw [nodup_list.mem_erase_iff, mem_list]

/-- Every order of what is left is the result for some order of the set. -/
theorem exists_without_iff {rest : List α} :
    (∃ order : SetOrder α, order.without a l = .ok rest) ↔
      a ∈ l ∧ rest.Perm (l.dedup.erase a) := by
  constructor
  · rintro ⟨order, h⟩
    unfold without at h
    split at h
    · rename_i hmem
      cases h
      exact ⟨mem_list.1 hmem, (order.perm l).erase a⟩
    · cases h
  · rintro ⟨hmem, hrest⟩
    have hperm : (a :: rest).Perm l.dedup :=
      (hrest.cons a).trans (List.perm_cons_erase (List.mem_dedup.2 hmem)).symm
    let order : SetOrder α := ⟨fun k => if k = l then a :: rest else k.dedup, fun k => by
      by_cases hk : k = l
      · rw [if_pos hk, hk]
        exact hperm
      · rw [if_neg hk]⟩
    have hlist : order.list l = a :: rest := if_pos rfl
    refine ⟨order, ?_⟩
    rw [without, hlist, if_pos List.mem_cons_self, List.erase_cons_head]

end SetOrder

end Sets

end Py
