import Mathlib.Data.List.Nodup
import Mathlib.Data.List.Perm.Basic

/-!
# Insertion-ordered dictionaries

A Python `dict` iterates in insertion order, and assigning to a key that is
present keeps the position of that key. Both are observable wherever a program
lists a dictionary, so a dictionary is a list of items whose keys are distinct
(`Dict.nodupKeys`), and not a function.

Dictionaries of dictionaries are read and written through `get2?`, `set2` and
`erase2`. `Dict.flat` lists them in iteration order; a write at one pair of keys
inserts, replaces or removes one element of that list (`flat_set2_new`,
`flat_set2_old`, `flat_erase2`).
-/

namespace Py

universe u v w

/-- A dictionary: its items in insertion order, each key once. -/
structure Dict (κ : Type u) (α : Type v) where
  items : List (κ × α)
  nodupKeys : (items.map Prod.fst).Nodup
deriving DecidableEq

namespace Dict

variable {κ : Type u} {α : Type v}

@[ext] theorem ext {d e : Dict κ α} (h : d.items = e.items) : d = e := by
  cases d
  cases e
  simp only at h
  subst h
  rfl

/-- The empty dictionary. -/
def empty : Dict κ α := ⟨[], List.nodup_nil⟩

instance : EmptyCollection (Dict κ α) := ⟨empty⟩

instance : Inhabited (Dict κ α) := ⟨empty⟩

/-- `d.keys()`. -/
def keys (d : Dict κ α) : List κ := d.items.map Prod.fst

/-- `d.values()`. -/
def values (d : Dict κ α) : List α := d.items.map Prod.snd

/-- Around an item, no other has its key. -/
theorem key_ne_of_split {d : Dict κ α} {k : κ} {v : α} {l₁ l₂ : List (κ × α)}
    (h : d.items = l₁ ++ (k, v) :: l₂) : (∀ x ∈ l₁, x.1 ≠ k) ∧ ∀ x ∈ l₂, x.1 ≠ k := by
  have hn := d.nodupKeys
  rw [h, List.map_append, List.map_cons, List.nodup_append, List.nodup_cons] at hn
  constructor
  · intro x hx
    exact hn.2.2 x.1 (List.mem_map_of_mem hx) k List.mem_cons_self
  · intro x hx hk
    have hmem : x.1 ∈ l₂.map Prod.fst := List.mem_map_of_mem hx
    rw [hk] at hmem
    exact hn.2.1.1 hmem

variable [DecidableEq κ]

/-! ## Lookup -/

/-- The value of the first item with key `k`. -/
def lookupIn (k : κ) : List (κ × α) → Option α
  | [] => none
  | (k', v) :: l => if k' = k then some v else lookupIn k l

/-- `d.get(k)`. -/
def get? (d : Dict κ α) (k : κ) : Option α := lookupIn k d.items

/-- `k in d`. -/
def contains (d : Dict κ α) (k : κ) : Bool := (d.get? k).isSome

theorem lookupIn_isSome {k : κ} {l : List (κ × α)} :
    (lookupIn k l).isSome ↔ k ∈ l.map Prod.fst := by
  induction l with
  | nil => simp [lookupIn]
  | cons x l ih =>
    simp only [lookupIn, List.map_cons, List.mem_cons]
    split
    · simp_all
    · rename_i hne
      rw [ih]
      simp [Ne.symm hne]

theorem mem_of_lookupIn {k : κ} {v : α} {l : List (κ × α)} (h : lookupIn k l = some v) :
    (k, v) ∈ l := by
  induction l with
  | nil => cases h
  | cons x l ih =>
    simp only [lookupIn] at h
    split at h
    · rename_i heq
      cases h
      rw [← heq]
      exact List.mem_cons_self
    · exact List.mem_cons_of_mem _ (ih h)

theorem lookupIn_of_mem {k : κ} {v : α} {l : List (κ × α)} (hn : (l.map Prod.fst).Nodup)
    (h : (k, v) ∈ l) : lookupIn k l = some v := by
  induction l with
  | nil => cases h
  | cons x l ih =>
    rw [List.map_cons, List.nodup_cons] at hn
    simp only [lookupIn]
    rcases List.mem_cons.mp h with rfl | h
    · simp
    · have hne : x.1 ≠ k := fun he => hn.1 (he ▸ List.mem_map_of_mem (f := Prod.fst) h)
      rw [if_neg hne]
      exact ih hn.2 h

theorem mem_items_iff {d : Dict κ α} {k : κ} {v : α} :
    (k, v) ∈ d.items ↔ d.get? k = some v :=
  ⟨lookupIn_of_mem d.nodupKeys, mem_of_lookupIn⟩

theorem mem_keys_iff {d : Dict κ α} {k : κ} : k ∈ d.keys ↔ ∃ v, d.get? k = some v := by
  rw [← Option.isSome_iff_exists]
  exact lookupIn_isSome.symm

theorem mem_values_iff {d : Dict κ α} {v : α} : v ∈ d.values ↔ ∃ k, d.get? k = some v := by
  simp only [values, List.mem_map, Prod.exists, exists_eq_right, mem_items_iff]

theorem contains_iff {d : Dict κ α} {k : κ} : d.contains k = true ↔ ∃ v, d.get? k = some v :=
  Option.isSome_iff_exists

theorem contains_eq_false {d : Dict κ α} {k : κ} : d.contains k = false ↔ d.get? k = none := by
  unfold contains
  cases d.get? k <;> simp

theorem get?_eq_none_iff {d : Dict κ α} {k : κ} : d.get? k = none ↔ k ∉ d.keys := by
  rw [mem_keys_iff]
  cases d.get? k <;> simp

/-- A dictionary is what it has at its keys, in their order. -/
theorem eq_of_get? {d e : Dict κ α} (hk : d.keys = e.keys) (h : ∀ k, d.get? k = e.get? k) :
    d = e := by
  have hitems : ∀ d : Dict κ α, d.items.map some = d.keys.map (fun k => (d.get? k).map (k, ·)) := by
    intro d
    rw [keys, List.map_map]
    refine List.map_congr_left (fun x hx => ?_)
    rw [Function.comp_apply, mem_items_iff.1 hx]
    rfl
  refine ext (List.map_injective_iff.2 (fun _ _ => Option.some.inj) ?_)
  rw [hitems d, hitems e, hk]
  simp only [h]

@[simp] theorem get?_empty (k : κ) : (∅ : Dict κ α).get? k = none := rfl

/-! ## Assignment -/

/-- Replace the value of `k` where it stands, or append the item. -/
def setIn (k : κ) (v : α) : List (κ × α) → List (κ × α)
  | [] => [(k, v)]
  | (k', v') :: l => if k' = k then (k, v) :: l else (k', v') :: setIn k v l

theorem setIn_keys (k : κ) (v : α) (l : List (κ × α)) :
    (setIn k v l).map Prod.fst =
      if k ∈ l.map Prod.fst then l.map Prod.fst else l.map Prod.fst ++ [k] := by
  induction l with
  | nil => simp [setIn]
  | cons x l ih =>
    simp only [setIn, List.map_cons, List.mem_cons]
    split
    · rename_i heq
      simp [heq]
    · rename_i hne
      simp only [List.map_cons, ih, Ne.symm hne, false_or]
      split <;> rfl

/-- `d[k] = v`. -/
def set (d : Dict κ α) (k : κ) (v : α) : Dict κ α where
  items := setIn k v d.items
  nodupKeys := by
    rw [setIn_keys]
    split
    · exact d.nodupKeys
    · rename_i hk
      exact d.nodupKeys.append (List.nodup_singleton k) (by simpa using hk)

theorem keys_set (d : Dict κ α) (k : κ) (v : α) :
    (d.set k v).keys = if k ∈ d.keys then d.keys else d.keys ++ [k] :=
  setIn_keys k v d.items

theorem lookupIn_setIn (k j : κ) (v : α) (l : List (κ × α)) :
    lookupIn j (setIn k v l) = if k = j then some v else lookupIn j l := by
  induction l with
  | nil => simp [setIn, lookupIn]
  | cons x l ih =>
    simp only [setIn]
    split
    · rename_i heq
      simp only [lookupIn, heq]
      split <;> rfl
    · rename_i hne
      simp only [lookupIn, ih]
      by_cases h1 : x.1 = j
      · have : k ≠ j := fun h => hne (h1.trans h.symm)
        simp [h1, this]
      · simp [h1]

theorem get?_set (d : Dict κ α) (k j : κ) (v : α) :
    (d.set k v).get? j = if k = j then some v else d.get? j :=
  lookupIn_setIn k j v d.items

@[simp] theorem get?_set_self (d : Dict κ α) (k : κ) (v : α) : (d.set k v).get? k = some v := by
  rw [get?_set, if_pos rfl]

theorem get?_set_of_ne (d : Dict κ α) {k j : κ} (h : k ≠ j) (v : α) :
    (d.set k v).get? j = d.get? j := by
  rw [get?_set, if_neg h]

theorem mem_keys_set {d : Dict κ α} {k j : κ} {v : α} :
    j ∈ (d.set k v).keys ↔ j = k ∨ j ∈ d.keys := by
  rw [keys_set]
  split
  · rename_i hk
    constructor
    · exact Or.inr
    · rintro (rfl | h)
      · exact hk
      · exact h
  · simp [or_comm]

theorem keys_set_ne_nil (d : Dict κ α) (k : κ) (v : α) : (d.set k v).keys ≠ [] :=
  List.ne_nil_of_mem (mem_keys_set.2 (.inl rfl))

theorem keys_set_of_mem {d : Dict κ α} {k : κ} {v : α} (h : k ∈ d.keys) :
    (d.set k v).keys = d.keys := by
  rw [keys_set, if_pos h]

theorem set_set (d : Dict κ α) (k : κ) (v w : α) : (d.set k v).set k w = d.set k w := by
  refine eq_of_get? ?_ (fun j => ?_)
  · rw [keys_set_of_mem (mem_keys_set.2 (.inl rfl)), keys_set, keys_set]
  · simp only [get?_set]
    split <;> rfl

/-- `for k, v in l: d[k] = v`. -/
def update (d : Dict κ α) (l : List (κ × α)) : Dict κ α := l.foldl (fun d x => d.set x.1 x.2) d

/-- The last value of a key stays. -/
theorem get?_update (d : Dict κ α) (l : List (κ × α)) (k : κ) : (d.update l).get? k =
    ((l.filter (fun x => decide (x.1 = k))).getLast?.map Prod.snd).or (d.get? k) := by
  induction l generalizing d with
  | nil => rfl
  | cons x l ih =>
    rw [update, List.foldl_cons, ← update, ih, get?_set]
    by_cases hk : x.1 = k
    · simp only [hk, if_true, decide_true, List.filter_cons_of_pos, List.getLast?_cons]
      cases (l.filter (fun x => decide (x.1 = k))).getLast? <;> rfl
    · simp [hk]

theorem setIn_self {k : κ} {v : α} {l : List (κ × α)} (h : lookupIn k l = some v) :
    setIn k v l = l := by
  induction l with
  | nil => cases h
  | cons x l ih =>
    simp only [lookupIn] at h
    simp only [setIn]
    split at h
    · rename_i heq
      cases h
      rw [if_pos heq, ← heq]
    · rename_i hne
      rw [if_neg hne, ih h]

/-- Assigning the value that is there changes nothing. -/
theorem set_self {d : Dict κ α} {k : κ} {v : α} (h : d.get? k = some v) : d.set k v = d :=
  ext (setIn_self h)

theorem setIn_new {k : κ} {v : α} {l : List (κ × α)} (h : lookupIn k l = none) :
    setIn k v l = l ++ [(k, v)] := by
  induction l with
  | nil => rfl
  | cons x l ih =>
    simp only [lookupIn] at h
    split at h
    · cases h
    · rename_i hne
      simp only [setIn, if_neg hne, ih h, List.cons_append]

/-- A new key goes to the end. -/
theorem items_set_new {d : Dict κ α} {k : κ} (v : α) (h : d.get? k = none) :
    (d.set k v).items = d.items ++ [(k, v)] :=
  setIn_new h

/-- The items behind the one of key `k`. -/
def itemsAfter (k : κ) (l : List (κ × α)) : List (κ × α) := (l.dropWhile (fun x => x.1 ≠ k)).tail

theorem itemsAfter_cons_self (k : κ) (v : α) (l : List (κ × α)) :
    itemsAfter k ((k, v) :: l) = l := by
  simp [itemsAfter]

theorem itemsAfter_cons_of_ne {k : κ} {x : κ × α} (h : x.1 ≠ k) (l : List (κ × α)) :
    itemsAfter k (x :: l) = itemsAfter k l := by
  simp [itemsAfter, h]

theorem itemsAfter_of_none {k : κ} {l : List (κ × α)} (h : lookupIn k l = none) :
    itemsAfter k l = [] := by
  induction l with
  | nil => rfl
  | cons x l ih =>
    simp only [lookupIn] at h
    split at h
    · cases h
    · rename_i hne
      rw [itemsAfter_cons_of_ne hne, ih h]

theorem setIn_old {k : κ} {v₀ v : α} {l : List (κ × α)} (h : lookupIn k l = some v₀) :
    ∃ l₁, l = l₁ ++ (k, v₀) :: itemsAfter k l ∧
      setIn k v l = l₁ ++ (k, v) :: itemsAfter k l := by
  induction l with
  | nil => cases h
  | cons x l ih =>
    obtain ⟨k', v'⟩ := x
    simp only [lookupIn] at h
    split at h
    · rename_i heq
      cases h
      subst heq
      refine ⟨[], ?_, ?_⟩
      · rw [itemsAfter_cons_self, List.nil_append]
      · simp [setIn, itemsAfter_cons_self]
    · rename_i hne
      obtain ⟨l₁, hl, hs⟩ := ih h
      have hafter := itemsAfter_cons_of_ne (x := (k', v')) hne l
      refine ⟨(k', v') :: l₁, ?_, ?_⟩
      · rw [hafter, List.cons_append, ← hl]
      · simp only [setIn, if_neg hne, hs, hafter, List.cons_append]

/-- A present key keeps its position. -/
theorem items_set_old {d : Dict κ α} {k : κ} {v₀ : α} (v : α) (h : d.get? k = some v₀) :
    ∃ l₁, d.items = l₁ ++ (k, v₀) :: itemsAfter k d.items ∧
      (d.set k v).items = l₁ ++ (k, v) :: itemsAfter k d.items :=
  setIn_old h

/-! ## Removal -/

/-- `del d[k]` for a present key. -/
def erase (d : Dict κ α) (k : κ) : Dict κ α where
  items := d.items.filter (fun x => x.1 ≠ k)
  nodupKeys := d.nodupKeys.sublist (List.filter_sublist.map Prod.fst)

theorem lookupIn_filter (k j : κ) (l : List (κ × α)) :
    lookupIn j (l.filter (fun x => x.1 ≠ k)) = if k = j then none else lookupIn j l := by
  induction l with
  | nil => simp [lookupIn]
  | cons x l ih =>
    rw [List.filter_cons]
    by_cases hx : x.1 = k
    · simp only [hx, ne_eq, not_true, decide_false, Bool.false_eq_true, if_false, ih, lookupIn]
      by_cases hj : k = j <;> simp [hj]
    · simp only [hx, ne_eq, not_false_eq_true, decide_true, if_true, lookupIn, ih]
      by_cases hj : k = j
      · have : x.1 ≠ j := fun h => hx (h.trans hj.symm)
        simp [hj, this]
      · simp [hj]

theorem get?_erase (d : Dict κ α) (k j : κ) :
    (d.erase k).get? j = if k = j then none else d.get? j :=
  lookupIn_filter k j d.items

@[simp] theorem get?_erase_self (d : Dict κ α) (k : κ) : (d.erase k).get? k = none := by
  rw [get?_erase, if_pos rfl]

theorem get?_of_erase {d : Dict κ α} {k j : κ} {v : α} (h : (d.erase k).get? j = some v) :
    d.get? j = some v := by
  rw [get?_erase] at h
  split at h
  · cases h
  · exact h

theorem erase_of_none {d : Dict κ α} {k : κ} (h : d.get? k = none) : d.erase k = d := by
  refine ext ?_
  show d.items.filter _ = d.items
  rw [List.filter_eq_self]
  intro x hx
  have hne : x.1 ≠ k := fun he => get?_eq_none_iff.1 h (he ▸ List.mem_map_of_mem hx)
  simpa using hne

theorem items_erase {d : Dict κ α} {k : κ} {v : α} (h : d.get? k = some v) :
    ∃ l₁ l₂, d.items = l₁ ++ (k, v) :: l₂ ∧ (d.erase k).items = l₁ ++ l₂ := by
  obtain ⟨l₁, l₂, hl⟩ := List.append_of_mem (mem_items_iff.2 h)
  refine ⟨l₁, l₂, hl, ?_⟩
  have hn := d.nodupKeys
  rw [hl, List.map_append, List.map_cons, List.nodup_append, List.nodup_cons] at hn
  obtain ⟨-, ⟨h2, -⟩, h1⟩ := hn
  have keep : ∀ {m : List (κ × α)}, k ∉ m.map Prod.fst → m.filter (fun x => x.1 ≠ k) = m := by
    intro m hm
    rw [List.filter_eq_self]
    intro x hx
    have : x.1 ≠ k := fun he => hm (he ▸ List.mem_map_of_mem (f := Prod.fst) hx)
    simpa using this
  show d.items.filter _ = _
  rw [hl, List.filter_append, List.filter_cons, if_neg (by simp), keep h2,
    keep (fun hm => h1 k hm k List.mem_cons_self rfl)]

/-! ## Dictionaries of dictionaries -/

variable {μ : Type w} [DecidableEq μ]

/-- `d[n][f]`. -/
def get2? (d : Dict κ (Dict μ α)) (n : κ) (f : μ) : Option α := (d.get? n).bind (·.get? f)

/-- `d[n][f] = v` for a present `n`. -/
def set2 (d : Dict κ (Dict μ α)) (n : κ) (f : μ) (v : α) : Dict κ (Dict μ α) :=
  match d.get? n with
  | some inner => d.set n (inner.set f v)
  | none => d

/-- `del d[n][f]` for a present `n`. -/
def erase2 (d : Dict κ (Dict μ α)) (n : κ) (f : μ) : Dict κ (Dict μ α) :=
  match d.get? n with
  | some inner => d.set n (inner.erase f)
  | none => d

section Nested

variable {d : Dict κ (Dict μ α)} {n m : κ} {f g : μ} {v : α}

theorem get2?_eq_some : d.get2? n f = some v ↔ ∃ inner, d.get? n = some inner ∧
    inner.get? f = some v := by
  unfold get2?
  rw [Option.bind_eq_some_iff]

theorem get2?_of_get? {inner : Dict μ α} (h : d.get? n = some inner) :
    d.get2? n f = inner.get? f := by
  simp [get2?, h]

theorem get2?_of_none (h : d.get? n = none) : d.get2? n f = none := by
  simp [get2?, h]

theorem keys_set2 (d : Dict κ (Dict μ α)) (n : κ) (f : μ) (v : α) :
    (d.set2 n f v).keys = d.keys := by
  unfold set2
  split
  · rename_i inner h
    exact keys_set_of_mem (mem_keys_iff.2 ⟨inner, h⟩)
  · rfl

theorem keys_erase2 (d : Dict κ (Dict μ α)) (n : κ) (f : μ) : (d.erase2 n f).keys = d.keys := by
  unfold erase2
  split
  · rename_i inner h
    exact keys_set_of_mem (mem_keys_iff.2 ⟨inner, h⟩)
  · rfl

theorem get?_set2 (d : Dict κ (Dict μ α)) (n m : κ) (f : μ) (v : α) :
    (d.set2 n f v).get? m = if n = m then (d.get? m).map (·.set f v) else d.get? m := by
  unfold set2
  split
  · rename_i inner h
    rw [get?_set]
    split
    · rename_i hnm
      rw [← hnm, h]
      rfl
    · rfl
  · rename_i h
    split
    · rename_i hnm
      rw [← hnm, h]
      rfl
    · rfl

theorem get?_erase2 (d : Dict κ (Dict μ α)) (n m : κ) (f : μ) :
    (d.erase2 n f).get? m = if n = m then (d.get? m).map (·.erase f) else d.get? m := by
  unfold erase2
  split
  · rename_i inner h
    rw [get?_set]
    split
    · rename_i hnm
      rw [← hnm, h]
      rfl
    · rfl
  · rename_i h
    split
    · rename_i hnm
      rw [← hnm, h]
      rfl
    · rfl

/-- A nested assignment reads back at its own pair of keys and nowhere else. -/
theorem get2?_set2 (hn : n ∈ d.keys) :
    (d.set2 n f v).get2? m g = if n = m ∧ f = g then some v else d.get2? m g := by
  obtain ⟨inner, h⟩ := mem_keys_iff.1 hn
  simp only [set2, h, get2?, get?_set]
  by_cases hm : n = m
  · subst hm
    simp only [if_true, Option.bind_some, get?_set, true_and, h]
  · simp [hm]

theorem get2?_set2_of_ne (h : ¬ (n = m ∧ f = g)) : (d.set2 n f v).get2? m g = d.get2? m g := by
  by_cases hn : n ∈ d.keys
  · rw [get2?_set2 hn, if_neg h]
  · unfold set2
    rw [get?_eq_none_iff.2 hn]

theorem get2?_erase2 :
    (d.erase2 n f).get2? m g = if n = m ∧ f = g then none else d.get2? m g := by
  unfold erase2
  split
  · rename_i inner h
    simp only [get2?, get?_set]
    by_cases hm : n = m
    · subst hm
      simp only [if_true, Option.bind_some, get?_erase, true_and, h]
    · simp [hm]
  · rename_i h
    by_cases hm : n = m ∧ f = g
    · rw [if_pos hm, ← hm.1]
      exact get2?_of_none h
    · rw [if_neg hm]

theorem get2?_erase2_of_ne (h : ¬ (n = m ∧ f = g)) : (d.erase2 n f).get2? m g = d.get2? m g := by
  rw [get2?_erase2, if_neg h]

/-- What is read after an assignment was assigned or was there before. -/
theorem get2?_set2_cases {w : α} (h : (d.set2 n f v).get2? m g = some w) :
    (n = m ∧ f = g ∧ v = w) ∨ d.get2? m g = some w := by
  by_cases hn : n ∈ d.keys
  · rw [get2?_set2 hn] at h
    split at h
    · rename_i hc
      exact .inl ⟨hc.1, hc.2, Option.some.inj h⟩
    · exact .inr h
  · rw [set2, get?_eq_none_iff.2 hn] at h
    exact .inr h

theorem get2?_of_erase2 {w : α} (h : (d.erase2 n f).get2? m g = some w) :
    d.get2? m g = some w := by
  rw [get2?_erase2] at h
  split at h
  · cases h
  · exact h

/-- Assigning the value that is there changes nothing. -/
theorem set2_self (h : d.get2? n f = some v) : d.set2 n f v = d := by
  obtain ⟨inner, hn, hf⟩ := get2?_eq_some.1 h
  simp only [set2, hn, set_self hf]
  exact set_self hn

theorem set2_eq_self_iff {v₀ : α} (h : d.get2? n f = some v₀) : d.set2 n f v = d ↔ v = v₀ := by
  constructor
  · intro he
    obtain ⟨inner, hn, -⟩ := get2?_eq_some.1 h
    have hv := get2?_set2 (m := n) (g := f) (f := f) (v := v) (mem_keys_iff.2 ⟨inner, hn⟩)
    rw [if_pos ⟨rfl, rfl⟩, he, h] at hv
    exact (Option.some.inj hv).symm
  · rintro rfl
    exact set2_self h

theorem mem_keys_of_get2? (h : d.get2? n f = some v) : n ∈ d.keys := by
  obtain ⟨inner, hn, -⟩ := get2?_eq_some.1 h
  exact mem_keys_iff.2 ⟨inner, hn⟩

end Nested

/-! ## Iteration over a dictionary of dictionaries -/

/-- The items of an inner dictionary, labelled with the outer key. -/
def row (n : κ) (inner : Dict μ α) : List ((κ × μ) × α) :=
  inner.items.map (fun y => ((n, y.1), y.2))

/-- The pairs of keys with their values, in the order of two nested loops. -/
def flat (d : Dict κ (Dict μ α)) : List ((κ × μ) × α) := d.items.flatMap (fun x => row x.1 x.2)

section Flat

variable {d : Dict κ (Dict μ α)} {n : κ} {f : μ} {v v₀ : α}

theorem mem_flat_iff : ((n, f), v) ∈ d.flat ↔ d.get2? n f = some v := by
  simp only [flat, row, List.mem_flatMap, List.mem_map, Prod.exists, Prod.mk.injEq]
  rw [get2?_eq_some]
  constructor
  · rintro ⟨n', inner, hi, f', v', hj, ⟨rfl, rfl⟩, rfl⟩
    exact ⟨inner, mem_items_iff.1 hi, mem_items_iff.1 hj⟩
  · rintro ⟨inner, hi, hj⟩
    exact ⟨n, inner, mem_items_iff.2 hi, f, v, mem_items_iff.2 hj, ⟨rfl, rfl⟩, rfl⟩

omit [DecidableEq κ] [DecidableEq μ] in
theorem row_keys (n : κ) (inner : Dict μ α) :
    (row n inner).map Prod.fst = inner.keys.map (fun f => (n, f)) := by
  simp only [row, keys, List.map_map]
  rfl

omit [DecidableEq κ] [DecidableEq μ] in
/-- No pair of keys is listed twice. -/
theorem flat_nodup (d : Dict κ (Dict μ α)) : (d.flat.map Prod.fst).Nodup := by
  obtain ⟨items, hn⟩ := d
  show ((items.flatMap _).map Prod.fst).Nodup
  induction items with
  | nil => simp
  | cons x l ih =>
    rw [List.map_cons, List.nodup_cons] at hn
    rw [List.flatMap_cons, List.map_append, List.nodup_append]
    refine ⟨?_, ih hn.2, ?_⟩
    · rw [row_keys]
      exact x.2.nodupKeys.map (fun a b h => (Prod.mk.inj h).2)
    · intro a ha b hb hab
      rw [row_keys, List.mem_map] at ha
      obtain ⟨_, -, rfl⟩ := ha
      simp only [row, List.mem_map, List.mem_flatMap] at hb
      obtain ⟨_, ⟨y, hy, ⟨_, _, rfl⟩⟩, rfl⟩ := hb
      exact hn.1 ((Prod.mk.inj hab).1 ▸ List.mem_map_of_mem (f := Prod.fst) hy)

/-- What is listed behind the pair `(n, f)`, or behind the place where it would be
entered. -/
def later (d : Dict κ (Dict μ α)) (n : κ) (f : μ) : List ((κ × μ) × α) :=
  (((d.get? n).map (fun inner => itemsAfter f inner.items)).getD []).map (fun y => ((n, y.1), y.2))
    ++ (itemsAfter n d.items).flatMap (fun x => row x.1 x.2)

omit [DecidableEq μ] in
/-- Replacing one inner dictionary touches one block of the listing. -/
theorem flat_set {inner : Dict μ α} (inner' : Dict μ α) (h : d.get? n = some inner) :
    ∃ L₁, d.flat = L₁ ++ row n inner ++ (itemsAfter n d.items).flatMap (fun x => row x.1 x.2) ∧
      (d.set n inner').flat =
        L₁ ++ row n inner' ++ (itemsAfter n d.items).flatMap (fun x => row x.1 x.2) := by
  obtain ⟨l₁, hd, hs⟩ := items_set_old inner' h
  refine ⟨l₁.flatMap (fun x => row x.1 x.2), ?_, ?_⟩
  · conv_lhs => rw [flat, hd]
    rw [List.flatMap_append, List.flatMap_cons, ← List.append_assoc]
  · rw [flat, hs, List.flatMap_append, List.flatMap_cons, ← List.append_assoc]

/-- A nested assignment at a new pair of keys inserts one element. -/
theorem flat_set2_new (v : α) (hn : n ∈ d.keys) (h : d.get2? n f = none) :
    ∃ L₁, d.flat = L₁ ++ d.later n f ∧
      (d.set2 n f v).flat = L₁ ++ ((n, f), v) :: d.later n f := by
  obtain ⟨inner, hi⟩ := mem_keys_iff.1 hn
  rw [get2?_of_get? hi] at h
  obtain ⟨L₁, h1, h2⟩ := flat_set (inner.set f v) hi
  have hlater : d.later n f = (itemsAfter n d.items).flatMap (fun x => row x.1 x.2) := by
    rw [later, hi, Option.map_some, Option.getD_some, itemsAfter_of_none h]
    rfl
  refine ⟨L₁ ++ row n inner, by rw [hlater, h1], ?_⟩
  rw [hlater]
  simp only [set2, hi, h2, row, items_set_new v h]
  simp

/-- A nested assignment at a present pair of keys replaces its element. -/
theorem flat_set2_old (v : α) (h : d.get2? n f = some v₀) :
    ∃ L₁, d.flat = L₁ ++ ((n, f), v₀) :: d.later n f ∧
      (d.set2 n f v).flat = L₁ ++ ((n, f), v) :: d.later n f := by
  obtain ⟨inner, hi, hf⟩ := get2?_eq_some.1 h
  obtain ⟨L₁, h1, h2⟩ := flat_set (inner.set f v) hi
  obtain ⟨l₁, hl, hs⟩ := items_set_old v hf
  have hrow : ∀ w, (l₁ ++ (f, w) :: itemsAfter f inner.items).map (fun y => ((n, y.1), y.2)) =
      l₁.map (fun y => ((n, y.1), y.2)) ++
        ((n, f), w) :: (itemsAfter f inner.items).map (fun y => ((n, y.1), y.2)) := by
    intro w
    rw [List.map_append, List.map_cons]
  refine ⟨L₁ ++ l₁.map (fun y => ((n, y.1), y.2)), ?_, ?_⟩
  · have hold : row n inner = l₁.map (fun y => ((n, y.1), y.2)) ++
        ((n, f), v₀) :: (itemsAfter f inner.items).map (fun y => ((n, y.1), y.2)) := by
      rw [row, ← hrow, ← hl]
    rw [h1, hold]
    simp [later, hi]
  · have hnew : row n (inner.set f v) = l₁.map (fun y => ((n, y.1), y.2)) ++
        ((n, f), v) :: (itemsAfter f inner.items).map (fun y => ((n, y.1), y.2)) := by
      rw [row, hs, hrow]
    rw [set2, hi]
    simp only [h2, hnew]
    simp [later, hi]

theorem mem_flat_of_later {x : (κ × μ) × α} (hn : n ∈ d.keys) (hx : x ∈ d.later n f) :
    x ∈ d.flat := by
  obtain ⟨inner, hi⟩ := mem_keys_iff.1 hn
  obtain ⟨L₁, h1, -⟩ := flat_set inner hi
  rw [h1, List.append_assoc]
  refine List.mem_append_right _ ?_
  rw [later, hi, Option.map_some, Option.getD_some] at hx
  rcases List.mem_append.1 hx with hx | hx
  · obtain ⟨y, hy, rfl⟩ := List.mem_map.1 hx
    refine List.mem_append_left _ (List.mem_map.2 ⟨y, ?_, rfl⟩)
    exact (List.dropWhile_sublist _).subset ((List.tail_sublist _).subset hy)
  · exact List.mem_append_right _ hx

/-- A nested removal takes its element out. -/
theorem flat_erase2 (h : d.get2? n f = some v) :
    ∃ L₁ L₂, d.flat = L₁ ++ ((n, f), v) :: L₂ ∧ (d.erase2 n f).flat = L₁ ++ L₂ := by
  obtain ⟨inner, hi, hf⟩ := get2?_eq_some.1 h
  obtain ⟨L₁, h1, h2⟩ := flat_set (inner.erase f) hi
  obtain ⟨l₁, l₂, hl, hs⟩ := items_erase hf
  refine ⟨L₁ ++ l₁.map (fun y => ((n, y.1), y.2)), l₂.map (fun y => ((n, y.1), y.2)) ++
    (itemsAfter n d.items).flatMap (fun x => row x.1 x.2), ?_, ?_⟩
  · have hold : row n inner = l₁.map (fun y => ((n, y.1), y.2)) ++
        ((n, f), v) :: l₂.map (fun y => ((n, y.1), y.2)) := by
      rw [row, hl, List.map_append, List.map_cons]
    rw [h1, hold]
    simp
  · simp [erase2, hi, h2, row, hs]

end Flat

end Dict

end Py
