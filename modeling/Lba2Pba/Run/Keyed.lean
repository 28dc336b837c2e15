import Mathlib.Data.List.Basic

/-!
# Runs of keyed updates

A system whose messages each name a key, and where a message changes only what is
seen at its own key, by a function of what is seen there. What a run leaves at a
key is then determined by the messages for that key and their order
(`Keyed.view_foldl`), so two runs with the same messages for each key end alike,
however the keys interleave.
-/

namespace Run

variable {σ μ κ γ : Type} [DecidableEq κ]

/-- `step` acts on `view` key by key, from objects with `inv` and for messages with `ok`. -/
structure Keyed (step : σ → μ → σ) (view : σ → κ → γ) (key : μ → κ) (act : μ → γ → γ)
    (inv : σ → Prop) (ok : μ → Prop) : Prop where
  inv_step : ∀ {s m}, inv s → ok m → inv (step s m)
  view_step : ∀ {s m}, inv s → ok m → ∀ k,
    view (step s m) k = if key m = k then act m (view s k) else view s k

variable {step : σ → μ → σ} {view : σ → κ → γ} {key : μ → κ} {act : μ → γ → γ}
  {inv : σ → Prop} {ok : μ → Prop}

theorem Keyed.view_foldl (h : Keyed step view key act inv ok) {s : σ} (hs : inv s) {l : List μ}
    (hl : ∀ m ∈ l, ok m) (k : κ) :
    view (l.foldl step s) k =
      (l.filter (fun m => decide (key m = k))).foldl (fun c m => act m c) (view s k) := by
  induction l generalizing s with
  | nil => rfl
  | cons m l ih =>
    have hm : ok m := hl m List.mem_cons_self
    rw [List.foldl_cons, ih (h.inv_step hs hm) (fun m' hm' => hl m' (List.mem_cons_of_mem m hm')),
      h.view_step hs hm]
    by_cases hk : key m = k
    · rw [if_pos hk, List.filter_cons_of_pos (by simpa using hk), List.foldl_cons]
    · rw [if_neg hk, List.filter_cons_of_neg (by simpa using hk)]

theorem foldl_const {w : μ → γ} (c : γ) (l : List μ) :
    l.foldl (fun _ m => w m) c = (l.getLast?.map w).getD c := by
  induction l generalizing c with
  | nil => rfl
  | cons m l ih =>
    rw [List.foldl_cons, ih, List.getLast?_cons]
    cases l.getLast? <;> rfl

/-- If every message overwrites what is seen at its key, the last one for a key decides. -/
theorem Keyed.view_foldl_last {w : μ → γ} (h : Keyed step view key (fun m _ => w m) inv ok) {s : σ}
    (hs : inv s) {l : List μ} (hl : ∀ m ∈ l, ok m) (k : κ) :
    view (l.foldl step s) k =
      ((l.filter (fun m => decide (key m = k))).getLast?.map w).getD (view s k) := by
  rw [h.view_foldl hs hl, foldl_const]

end Run
