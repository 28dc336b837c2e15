import Mathlib.Data.List.Basic
import Mathlib.Data.List.Infix

/-!
# Properties of every prefix of a run

If a property that holds at the start is kept by the steps that meet a condition, it
holds after every prefix of a run whose steps all meet it (`Along.invariant`).
If it is kept exactly by those steps, it holds after every prefix exactly when all
steps meet the condition (`forall_prefix_iff`).
-/

namespace Run

section Invariant

variable {σ μ : Type} {step : σ → μ → σ} {I : σ → Prop} {ok : σ → μ → Prop}

/-- Every step of the run meets the condition in the state in which it is taken. -/
def Along (step : σ → μ → σ) (ok : σ → μ → Prop) : σ → List μ → Prop
  | _, [] => True
  | s, x :: l => ok s x ∧ Along step ok (step s x) l

instance decidableAlong [∀ s x, Decidable (ok s x)] :
    ∀ (s : σ) (l : List μ), Decidable (Along step ok s l)
  | _, [] => inferInstanceAs (Decidable True)
  | s, x :: l =>
    have := decidableAlong (step s x) l
    inferInstanceAs (Decidable (ok s x ∧ Along step ok (step s x) l))

theorem Along.and_forall {q : μ → Prop} {s : σ} {l : List μ} (h : Along step ok s l)
    (hq : ∀ x ∈ l, q x) : Along step (fun s x => ok s x ∧ q x) s l := by
  induction l generalizing s with
  | nil => trivial
  | cons x l ih =>
    have htail : ∀ y ∈ l, q y := fun y hy => hq y (List.mem_cons_of_mem x hy)
    exact ⟨⟨h.1, hq x List.mem_cons_self⟩, ih h.2 htail⟩

theorem Along.invariant (hstep : ∀ s x, I s → ok s x → I (step s x)) {s : σ} (h0 : I s)
    {l : List μ} (h : Along step ok s l) : ∀ l', l' <+: l → I (l'.foldl step s) := by
  induction l generalizing s with
  | nil =>
    intro l' hp
    rw [List.prefix_nil.1 hp]
    exact h0
  | cons x l ih =>
    intro l' hp
    cases l' with
    | nil => exact h0
    | cons y l' =>
      obtain ⟨rfl, htail⟩ := List.cons_prefix_cons.1 hp
      exact ih (hstep s y h0 h.1) h.2 l' htail

end Invariant

variable {μ : Type} {J : List μ → Prop} {K : List μ → μ → Prop} {ok : μ → Prop}

theorem forall_prefix_iff (h0 : J []) (hstep : ∀ l x, (∀ y ∈ l, ok y) → ok x → J l →
    (J (l ++ [x]) ↔ K l x)) (l : List μ) (hl : ∀ x ∈ l, ok x) :
    (∀ l', l' <+: l → J l') ↔ ∀ l₁ x l₂, l = l₁ ++ x :: l₂ → K l₁ x := by
  induction l using List.reverseRecOn with
  | nil =>
    refine ⟨fun _ l₁ x l₂ he => ?_, fun _ l' hp => ?_⟩
    · simp at he
    · rw [List.prefix_nil.1 hp]
      exact h0
  | append_singleton l x ih =>
    have hlast : ok x := hl x (by simp)
    have hinit : ∀ y ∈ l, ok y := fun y hy => hl y (List.mem_append_left _ hy)
    have step := hstep l x hinit hlast
    specialize ih hinit
    constructor
    · intro hall
      have hpre : ∀ l', l' <+: l → J l' :=
        fun l' hp => hall l' (hp.trans (List.prefix_append l [x]))
      intro l₁ y l₂ he
      rcases List.eq_nil_or_concat l₂ with rfl | ⟨l₃, z, rfl⟩
      · obtain ⟨rfl, hy⟩ := List.append_inj' he rfl
        cases hy
        exact (step (hpre l List.prefix_rfl)).1 (hall _ List.prefix_rfl)
      · rw [List.concat_eq_append, ← List.cons_append, ← List.append_assoc] at he
        obtain ⟨rfl, -⟩ := List.append_inj' he rfl
        exact ih.1 hpre l₁ y l₃ rfl
    · intro hall
      have hsteps : ∀ l₁ y l₂, l = l₁ ++ y :: l₂ → K l₁ y := by
        rintro l₁ y l₂ rfl
        exact hall l₁ y (l₂ ++ [x]) (by simp)
      have hpre := ih.2 hsteps
      intro l' hp
      rcases List.prefix_concat_iff.1 hp with rfl | hp
      · exact (step (hpre l List.prefix_rfl)).2 (hall l x [] rfl)
      · exact hpre l' hp

end Run
