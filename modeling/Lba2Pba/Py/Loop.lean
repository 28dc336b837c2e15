import Lba2Pba.Py.Exec
import Mathlib.Data.List.Forall2

/-!
# Loops that can raise

A `for` loop over local variables is a `foldlM` in `Except Err`. Its invariants are
about the elements already seen and the variables: `foldlM_inv` for loops that have
completed, `foldlM_total` to show that one completes.
-/

namespace Py

variable {α β : Type} {f : β → α → Except Err β} {P : List α → β → Prop}

theorem bind_eq_ok {γ : Type} {x : Except Err α} {k : α → Except Err γ} {c : γ} :
    (x >>= k) = .ok c ↔ ∃ a, x = .ok a ∧ k a = .ok c := by
  cases x with
  | error e => simp [bind, Except.bind]
  | ok a => simp [bind, Except.bind]

theorem foldlM_cons_ok {a : α} {l : List α} {s s' : β} :
    (a :: l).foldlM f s = .ok s' ↔ ∃ s₁, f s a = .ok s₁ ∧ l.foldlM f s₁ = .ok s' := by
  rw [List.foldlM_cons, bind_eq_ok]

/-- An invariant that holds before the loop and is kept by each iteration holds after it. -/
theorem foldlM_inv {l : List α} {s s' : β} (h0 : P [] s)
    (hstep : ∀ done a rest, l = done ++ a :: rest → ∀ t t', P done t → f t a = .ok t' →
      P (done ++ [a]) t')
    (h : l.foldlM f s = .ok s') : P l s' := by
  suffices H : ∀ rest done t, l = done ++ rest → P done t → rest.foldlM f t = .ok s' → P l s' from
    H l [] s rfl h0 h
  intro rest
  induction rest with
  | nil =>
    intro done t hl hp hr
    cases hr
    rw [hl, List.append_nil]
    exact hp
  | cons a rest ih =>
    intro done t hl hp hr
    obtain ⟨t₁, ht, hr⟩ := foldlM_cons_ok.1 hr
    refine ih (done ++ [a]) t₁ ?_ (hstep done a rest hl t t₁ hp ht) hr
    rw [hl, List.append_assoc, List.singleton_append]

/-- If the invariant lets every iteration complete, the loop completes. -/
theorem foldlM_total {l : List α} {s : β} (h0 : P [] s)
    (hstep : ∀ done a rest, l = done ++ a :: rest → ∀ t, P done t →
      ∃ t', f t a = .ok t' ∧ P (done ++ [a]) t') :
    ∃ s', l.foldlM f s = .ok s' ∧ P l s' := by
  suffices H : ∀ rest done t, l = done ++ rest → P done t →
      ∃ s', rest.foldlM f t = .ok s' ∧ P l s' from H l [] s rfl h0
  intro rest
  induction rest with
  | nil =>
    intro done t hl hp
    refine ⟨t, rfl, ?_⟩
    rw [hl, List.append_nil]
    exact hp
  | cons a rest ih =>
    intro done t hl hp
    obtain ⟨t₁, ht, hp₁⟩ := hstep done a rest hl t hp
    obtain ⟨s', hs, hps⟩ := ih (done ++ [a]) t₁
      (by rw [hl, List.append_assoc, List.singleton_append]) hp₁
    exact ⟨s', foldlM_cons_ok.2 ⟨t₁, ht, hs⟩, hps⟩

/-- A loop inside a loop is one loop over all that the inner one goes through. -/
theorem foldlM_flatMap {γ : Type} (g : γ → List α) (l : List γ) (s : β) :
    (l.flatMap g).foldlM f s = l.foldlM (fun s c => (g c).foldlM f s) s := by
  induction l generalizing s with
  | nil => rfl
  | cons c l ih =>
    rw [List.flatMap_cons, List.foldlM_append, List.foldlM_cons]
    exact congrArg _ (funext ih)

/-- A loop that appends a value for each element, or raises where there is none. -/
theorem foldlM_append_iff {γ : Type} {g : α → Option γ} (add : β → List γ → β)
    (hnil : ∀ s, add s [] = s) (hadd : ∀ s c l, add (add s [c]) l = add s (c :: l))
    (hf : ∀ s a t, f s a = .ok t ↔ ∃ c, g a = some c ∧ t = add s [c]) {l : List α} {s t : β} :
    l.foldlM f s = .ok t ↔ (∀ a ∈ l, (g a).isSome = true) ∧ t = add s (l.filterMap g) := by
  induction l generalizing s with
  | nil =>
    rw [List.filterMap_nil, hnil]
    exact ⟨fun h => ⟨fun a ha => absurd ha List.not_mem_nil, (Except.ok.inj h).symm⟩,
      fun h => h.2 ▸ rfl⟩
  | cons a l ih =>
    rw [foldlM_cons_ok, List.forall_mem_cons]
    constructor
    · rintro ⟨s₁, hs, ht⟩
      obtain ⟨c, hc, rfl⟩ := (hf s a s₁).1 hs
      obtain ⟨hall, rfl⟩ := ih.1 ht
      rw [List.filterMap_cons_some hc, hadd]
      exact ⟨⟨by rw [hc]; rfl, hall⟩, rfl⟩
    · rintro ⟨⟨ha, hall⟩, rfl⟩
      obtain ⟨c, hc⟩ := Option.isSome_iff_exists.1 ha
      refine ⟨add s [c], (hf s a _).2 ⟨c, hc, rfl⟩, ih.2 ⟨hall, ?_⟩⟩
      rw [List.filterMap_cons_some hc, hadd]

/-- A comprehension that completes has a value for each element. -/
theorem mapM_ok_iff {g : α → Except Err β} {l : List α} {l' : List β} :
    l.mapM g = .ok l' ↔ List.Forall₂ (fun a b => g a = .ok b) l l' := by
  induction l generalizing l' with
  | nil =>
    rw [List.mapM_nil, List.forall₂_nil_left_iff]
    exact ⟨fun h => (Except.ok.inj h).symm, fun h => h ▸ rfl⟩
  | cons a l ih =>
    rw [List.mapM_cons, bind_eq_ok, List.forall₂_cons_left_iff]
    refine exists_congr (fun b => ?_)
    constructor
    · rintro ⟨hb, hl⟩
      obtain ⟨bs, hbs, he⟩ := bind_eq_ok.1 hl
      exact ⟨bs, hb, ih.1 hbs, (Except.ok.inj he).symm⟩
    · rintro ⟨bs, hb, hbs, rfl⟩
      exact ⟨hb, bind_eq_ok.2 ⟨bs, ih.2 hbs, rfl⟩⟩

theorem exists_forall₂_iff {R : α → β → Prop} {l : List α} :
    (∃ l', List.Forall₂ R l l') ↔ ∀ a ∈ l, ∃ b, R a b := by
  induction l with
  | nil => exact ⟨fun _ a ha => absurd ha List.not_mem_nil, fun _ => ⟨[], .nil⟩⟩
  | cons a l ih =>
    rw [List.forall_mem_cons, ← ih]
    constructor
    · rintro ⟨l', h⟩
      obtain ⟨b, bs, hb, hbs, -⟩ := List.forall₂_cons_left_iff.1 h
      exact ⟨⟨b, hb⟩, bs, hbs⟩
    · rintro ⟨⟨b, hb⟩, bs, hbs⟩
      exact ⟨b :: bs, .cons hb hbs⟩

/-- A comprehension completes if its body does for every element. -/
theorem mapM_total_iff {g : α → Except Err β} {l : List α} :
    (∃ l', l.mapM g = .ok l') ↔ ∀ a ∈ l, ∃ b, g a = .ok b := by
  simp only [mapM_ok_iff, exists_forall₂_iff]

theorem mapM_eq_some {f : α → Option β} {g : α → β} {l : List α}
    (h : ∀ a ∈ l, f a = some (g a)) : l.mapM f = some (l.map g) := by
  induction l with
  | nil => rfl
  | cons a l ih =>
    have hl : ∀ b ∈ l, f b = some (g b) := fun b hb => h b (List.mem_cons_of_mem a hb)
    rw [List.mapM_cons, h a List.mem_cons_self, ih hl]
    rfl

/-- A loop over the indices of a list is one over its elements. -/
theorem mapM_range_eq_some {l : List α} {f : Nat → Option β} {g : α → β}
    (h : ∀ i x, l[i]? = some x → f i = some (g x)) :
    (List.range l.length).mapM f = some (l.map g) := by
  induction l generalizing f with
  | nil => rfl
  | cons a l ih =>
    have htail : ((List.range l.length).map Nat.succ).mapM f = some (l.map g) := by
      rw [List.mapM_map]
      exact ih (fun i x hx => h (i + 1) x hx)
    rw [List.length_cons, List.range_succ_eq_map, List.mapM_cons, h 0 a rfl, htail]
    rfl

end Py
