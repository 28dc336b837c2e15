import Lba2Pba.Worker.Pool

/-!
# Every entry is sent once

Two senders that take snapshots of a brick's queue with an item in common both send
it, and the second one deletes a key that is gone. With at most one sender at each
brick every key goes through its lawful order, and one call of `WInit` starts only one.
-/

namespace Lba2Pba.Worker

open Py

/-! ## The invariant -/

theorem getElem?_set_some {α : Type} {l : List α} {i : Nat} {b : α} (h : l[i]? = some b) (a : α)
    (j : Nat) : (l.set i a)[j]? = if i = j then some a else l[j]? := by
  have hi : i < l.length := (List.getElem?_eq_some_iff.1 h).1
  rw [List.getElem?_set, if_pos hi]

/-- The items in flight are the same if those of the sender that changes are. -/
theorem inFlight_set {l : List (String × Sender)} {i : Nat} {x y : String × Sender}
    {t p : String} (hi : l[i]? = some x)
    (hxy : ∀ d rest, y = (t, ⟨(p, d) :: rest, true⟩) ↔ x = (t, ⟨(p, d) :: rest, true⟩)) :
    (∃ (j : Nat) (d : String) (rest : List (String × String)),
      (l.set i y)[j]? = some (t, ⟨(p, d) :: rest, true⟩)) ↔
    ∃ (j : Nat) (d : String) (rest : List (String × String)),
      l[j]? = some (t, ⟨(p, d) :: rest, true⟩) := by
  refine exists_congr fun j => exists_congr fun d => exists_congr fun rest => ?_
  rw [getElem?_set_some hi]
  split
  · rename_i hij
    rw [← hij, hi, Option.some_inj, Option.some_inj]
    exact hxy d rest
  · exact .rfl

theorem get2?_monitor (targets : Dict String (Dict String String)) (brick t p : String) :
    (Pool.monitor targets brick).get2? t p = targets.get2? t p := by
  unfold Pool.monitor
  split
  · rfl
  · rename_i hc
    have hnone : targets.get? brick = none := Dict.contains_eq_false.1 (by simpa using hc)
    rw [Dict.get2?, Dict.get?_set]
    split
    · rename_i hb
      rw [Dict.get2?_of_none (hb ▸ hnone)]
      rfl
    · rfl

theorem get2?_monitors (bricks : List String) (targets : Dict String (Dict String String))
    (t p : String) : (bricks.foldl Pool.monitor targets).get2? t p = targets.get2? t p := by
  induction bricks generalizing targets with
  | nil => rfl
  | cons b bricks ih => rw [List.foldl_cons, ih, get2?_monitor]

theorem orderly_start : Orderly .start := by
  refine ⟨rfl, ?_, ?_, ?_, ?_, ?_⟩
  · intro i t s hi
    cases hi
  · intro i t s hi
    cases hi
  · intro i j t s s' hi
    cases hi
  · intro t p d hd
    cases hd
  · intro t p l hl
    cases l with
    | absent => rfl
    | queued => exact absurd rfl hl.1
    | sent =>
      obtain ⟨i, d, rest, hi⟩ := hl
      cases hi

namespace Orderly

variable {w : Pool}

/-- A new sender has no items. -/
theorem wInit (h : Orderly w) (bricks : List String) : Orderly (w.wInit bricks) := by
  have hget : ∀ t p, (w.wInit bricks).targets.get2? t p = w.targets.get2? t p :=
    get2?_monitors bricks w.targets
  have hold : ∀ {i : Nat} {t : String} {s : Sender}, (w.wInit bricks).senders[i]? = some (t, s) →
      w.senders[i]? = some (t, s) ∨ s.rest = [] := by
    intro i t s hi
    simp only [Pool.wInit, List.getElem?_append] at hi
    split at hi
    · exact .inl hi
    · rw [List.getElem?_singleton] at hi
      split at hi
      · cases hi
        exact .inr rfl
      · cases hi
  have hflight : ∀ t p, (w.wInit bricks).InFlight t p ↔ w.InFlight t p := by
    intro t p
    constructor
    · rintro ⟨i, d, rest, hi⟩
      exact ⟨i, d, rest, (hold hi).resolve_right (List.cons_ne_nil _ _)⟩
    · rintro ⟨i, d, rest, hi⟩
      refine ⟨i, d, rest, ?_⟩
      simp only [Pool.wInit]
      rw [List.getElem?_append_left (List.getElem?_eq_some_iff.1 hi).1]
      exact hi
  refine ⟨h.up, ?_, ?_, ?_, ?_, ?_⟩
  · intro i t s hi x hx
    rw [hget]
    rcases hold hi with hi | hnil
    · exact h.queued hi x hx
    · rw [hnil] at hx
      cases hx
  · intro i t s hi
    rcases hold hi with hi | hnil
    · exact h.nodup hi
    · rw [hnil]
      exact List.nodup_nil
  · intro i j t s s' hi hj hs hs'
    have hi' := (hold hi).resolve_right hs
    have hj' := (hold hj).resolve_right hs'
    exact h.alone hi' hj' hs hs'
  · intro t p d hd
    rw [hget] at hd
    exact h.entries hd
  · exact h.tracked.of_stage rfl (fun hl => hl.congr (hget _ _) (hflight _ _))

/-- A key that is not in the queue is with no sender. -/
theorem not_inFlight (h : Orderly w) {t p : String} (hp : w.targets.get2? t p = none) :
    ¬ w.InFlight t p := by
  rintro ⟨i, d, rest, hi⟩
  have hq := h.queued hi (p, d) List.mem_cons_self
  rw [hp] at hq
  cases hq

/-- A sender that has an item of a brick is the only one with items of that brick. -/
theorem rest_eq_nil (h : Orderly w) {i j : Nat} {t : String} {x : String × String}
    {rest : List (String × String)} {sent : Bool} {s : Sender}
    (hi : w.senders[i]? = some (t, ⟨x :: rest, sent⟩)) (hj : w.senders[j]? = some (t, s))
    (hij : i ≠ j) : s.rest = [] := by
  by_contra hs
  exact hij (h.alone hi hj (List.cons_ne_nil _ _) hs)

/-- A sender can be given items of a brick of which no other sender has any. -/
theorem alone_set (h : Orderly w) {i : Nat} {t : String} {x : String × Sender} {s₀ : Sender}
    (hi : w.senders[i]? = some x)
    (hal : ∀ j s, w.senders[j]? = some (t, s) → j ≠ i → s.rest = []) :
    ∀ {j k : Nat} {t' : String} {s s' : Sender}, (w.senders.set i (t, s₀))[j]? = some (t', s) →
      (w.senders.set i (t, s₀))[k]? = some (t', s') → s.rest ≠ [] → s'.rest ≠ [] → j = k := by
  intro j k t' s s' hj hk hs hs'
  rw [getElem?_set_some hi] at hj hk
  split at hj
  · rename_i hij
    cases hj
    split at hk
    · rename_i hik
      exact hij.symm.trans hik
    · rename_i hik
      exact absurd (hal k s' hk (Ne.symm hik)) hs'
  · rename_i hij
    split at hk
    · cases hk
      exact absurd (hal j s hj (Ne.symm hij)) hs
    · exact h.alone hj hk hs hs'

theorem insert (h : Orderly w) {t p : String} {v : Volume} {k : Kind} (ht : t ∈ w.targets.keys)
    (hp : w.targets.get2? t p = none) :
    Orderly { w with
      targets := w.targets.set2 t p (v.data k.action)
      log := w.log ++ [⟨t, p, .inserted⟩] } := by
  have hget : ∀ t' p', (w.targets.set2 t p (v.data k.action)).get2? t' p' =
      if t = t' ∧ p = p' then some (v.data k.action) else w.targets.get2? t' p' :=
    fun _ _ => Dict.get2?_set2 ht
  refine ⟨h.up, ?_, h.nodup, h.alone, ?_, ?_⟩
  · intro i t' s hi x hx
    have hold := h.queued hi x hx
    simp only [hget]
    rw [if_neg, hold]
    rintro ⟨rfl, rfl⟩
    rw [hp] at hold
    cases hold
  · intro t' p' d hd
    simp only [hget] at hd
    split at hd
    · exact ⟨v, k, (Option.some.inj hd).symm⟩
    · exact h.entries hd
  · refine h.tracked.next rfl .absent .queued hp rfl ?_ ?_
    · intro l hl
      cases l with
      | absent =>
        simp only [Pool.Stage, hget, and_self, if_true] at hl
        cases hl
      | queued => rfl
      | sent => exact absurd hl (h.not_inFlight hp)
    · intro t' p' l hne hl
      exact hl.congr ((hget t' p').trans (if_neg hne)) .rfl

theorem snapshot (h : Orderly w) {i : Nat} {t t₀ : String} {sent : Bool}
    {queue : Dict String String} (hi : w.senders[i]? = some (t₀, ⟨[], sent⟩))
    (hq : w.targets.get? t = some queue)
    (hal : ∀ j s, w.senders[j]? = some (t, s) → j ≠ i → s.rest = []) :
    Orderly { w with senders := w.senders.set i (t, ⟨queue.items, false⟩) } := by
  have hsend := getElem?_set_some hi (t, (⟨queue.items, false⟩ : Sender))
  refine ⟨h.up, ?_, ?_, h.alone_set hi hal, h.entries, ?_⟩
  · intro j t' s hj x hx
    rw [hsend] at hj
    split at hj
    · cases hj
      rw [Dict.get2?_of_get? hq]
      exact Dict.mem_items_iff.1 hx
    · exact h.queued hj x hx
  · intro j t' s hj
    rw [hsend] at hj
    split at hj
    · cases hj
      exact queue.nodupKeys
    · exact h.nodup hj
  · refine h.tracked.of_stage rfl (fun hl => hl.congr rfl (inFlight_set hi (fun d rest => ?_)))
    -- the sender had no item before and has sent none of the new ones
    simp

theorem send (h : Orderly w) {i : Nat} {t p d : String} {rest : List (String × String)}
    (hi : w.senders[i]? = some (t, ⟨(p, d) :: rest, false⟩)) :
    Orderly { w with
      senders := w.senders.set i (t, ⟨(p, d) :: rest, true⟩)
      log := w.log ++ [⟨t, p, .sent⟩] } := by
  have hsend := getElem?_set_some hi (t, (⟨(p, d) :: rest, true⟩ : Sender))
  -- what a sender has left is what it had before
  have hrest : ∀ {j : Nat} {t' : String} {s : Sender},
      (w.senders.set i (t, ⟨(p, d) :: rest, true⟩))[j]? = some (t', s) →
      ∃ s₀ : Sender, w.senders[j]? = some (t', s₀) ∧ s₀.rest = s.rest := by
    intro j t' s hj
    rw [hsend] at hj
    split at hj
    · rename_i hij
      cases hj
      exact ⟨⟨(p, d) :: rest, false⟩, hij ▸ hi, rfl⟩
    · exact ⟨s, hj, rfl⟩
  have hqueued : w.Stage t p .queued := by
    refine ⟨?_, ?_⟩
    · rw [h.queued hi (p, d) List.mem_cons_self]
      exact Option.some_ne_none d
    · rintro ⟨j, d', rest', hj⟩
      have hij := h.alone hi hj (List.cons_ne_nil _ _) (List.cons_ne_nil _ _)
      rw [← hij, hi] at hj
      cases hj
  refine ⟨h.up, ?_, ?_, ?_, h.entries, ?_⟩
  · intro j t' s hj
    obtain ⟨s₀, hj₀, he⟩ := hrest hj
    rw [← he]
    exact h.queued hj₀
  · intro j t' s hj
    obtain ⟨s₀, hj₀, he⟩ := hrest hj
    rw [← he]
    exact h.nodup hj₀
  · intro j k t' s s' hj hk hs hs'
    obtain ⟨s₀, hj₀, he⟩ := hrest hj
    obtain ⟨s₁, hk₁, he'⟩ := hrest hk
    exact h.alone hj₀ hk₁ (he ▸ hs) (he' ▸ hs')
  · refine h.tracked.next rfl .queued .sent hqueued rfl ?_ ?_
    · intro l hl
      cases l with
      | absent => exact absurd hl hqueued.1
      | queued =>
        refine absurd ⟨i, d, rest, ?_⟩ hl.2
        simp only [hsend, if_true]
      | sent => rfl
    · intro t' p' l hne hl
      refine hl.congr rfl (inFlight_set hi (fun d' rest' => ⟨fun he => ?_, fun he => ?_⟩))
      · cases he
        exact absurd ⟨rfl, rfl⟩ hne
      · cases he

theorem remove (h : Orderly w) {i : Nat} {t p d : String} {rest : List (String × String)}
    (hi : w.senders[i]? = some (t, ⟨(p, d) :: rest, true⟩)) :
    Orderly { w with
      targets := w.targets.erase2 t p
      senders := w.senders.set i (t, ⟨rest, false⟩)
      log := w.log ++ [⟨t, p, .removed⟩] } := by
  have hsend := getElem?_set_some hi (t, (⟨rest, false⟩ : Sender))
  have hget : ∀ t' p', (w.targets.erase2 t p).get2? t' p' =
      if t = t' ∧ p = p' then none else w.targets.get2? t' p' := fun _ _ => Dict.get2?_erase2
  refine ⟨h.up, ?_, ?_, h.alone_set hi (fun j s hj hji => h.rest_eq_nil hi hj hji.symm), ?_, ?_⟩
  · intro j t' s hj x hx
    simp only [hsend] at hj
    simp only [hget]
    split at hj
    · cases hj
      have hn := h.nodup hi
      rw [List.map_cons, List.nodup_cons] at hn
      rw [if_neg]
      · exact h.queued hi x (List.mem_cons_of_mem _ hx)
      · rintro ⟨-, rfl⟩
        exact hn.1 (List.mem_map.2 ⟨x, hx, rfl⟩)
    · rename_i hij
      rw [if_neg]
      · exact h.queued hj x hx
      · rintro ⟨rfl, -⟩
        rw [h.rest_eq_nil hi hj hij] at hx
        cases hx
  · intro j t' s hj
    simp only [hsend] at hj
    split at hj
    · cases hj
      exact (List.nodup_cons.1 (h.nodup hi)).2
    · exact h.nodup hj
  · intro t' p' d' hd
    exact h.entries (Dict.get2?_of_erase2 hd)
  · have hgone : ¬ Pool.InFlight
        { w with
          targets := w.targets.erase2 t p
          senders := w.senders.set i (t, ⟨rest, false⟩)
          log := w.log ++ [⟨t, p, .removed⟩] } t p := by
      rintro ⟨j, d', rest', hj⟩
      simp only [hsend] at hj
      split at hj
      · cases hj
      · rename_i hij
        exact absurd (h.rest_eq_nil hi hj hij) (List.cons_ne_nil _ _)
    refine h.tracked.next rfl .sent .absent ⟨i, d, rest, hi⟩ rfl ?_ ?_
    · intro l hl
      cases l with
      | absent => rfl
      | queued => exact absurd ((hget t p).trans (if_pos ⟨rfl, rfl⟩)) hl.1
      | sent => exact absurd hl hgone
    · intro t' p' l hne hl
      refine hl.congr ((hget t' p').trans (if_neg hne))
        (inFlight_set hi (fun d' rest' => ⟨fun he => ?_, fun he => ?_⟩))
      · cases he
      · cases he
        exact absurd ⟨rfl, rfl⟩ hne

/-- The step lemma. -/
theorem step {env : Env} (h : Orderly w) {x : Turn} (hx : Alone w x) :
    Orderly (w.step env x) := by
  have hturn : Turns w x (w.step env x) := h.turns x
  generalize w.step env x = w' at hturn
  cases hturn with
  | wait x => exact h
  | wInit bricks => exact h.wInit bricks
  | insert t p v k ht hp => exact h.insert ht hp
  | snapshot i t t₀ sent queue hi hq =>
    exact h.snapshot hi hq (hx (List.getElem?_eq_some_iff.1 hi).1)
  | send i t p d rest hi => exact h.send hi
  | remove i t p d rest hi => exact h.remove hi

end Orderly

/-! ## How often the Worker was initialised -/

def Turn.isWInit : Turn → Bool
  | .wInit _ => true
  | _ => false

/-- A turn adds a sender only if it is a call of `WInit`. -/
theorem length_senders_step (env : Env) (w : Pool) (x : Turn) :
    (w.step env x).senders.length ≤ w.senders.length + [x].countP Turn.isWInit := by
  unfold Pool.step
  split
  · omega
  · cases x with
    | wInit bricks => simp [Pool.wInit, Turn.isWInit]
    | insert t p v k =>
      simp only [Pool.insert]
      split <;> simp
    | snapshot i t =>
      simp only [Pool.snapshot]
      repeat' split
      all_goals simp
    | send i =>
      simp only [Pool.send]
      repeat' split
      all_goals simp
    | remove i =>
      simp only [Pool.remove]
      repeat' split
      all_goals simp

/-- One sender is always alone. -/
theorem along_alone {env : Env} {l : List Turn} {w : Pool}
    (h : w.senders.length + l.countP Turn.isWInit ≤ 1) :
    Run.Along (Pool.step env) Alone w l := by
  induction l generalizing w with
  | nil => trivial
  | cons x l ih =>
    have hcount : (x :: l).countP Turn.isWInit =
        [x].countP Turn.isWInit + l.countP Turn.isWInit := by
      rw [← List.countP_append]
      rfl
    have hlen := length_senders_step env w x
    refine ⟨?_, ih (by omega)⟩
    cases x with
    | snapshot i t =>
      intro hi j s hj hji
      have hj' : j < w.senders.length := (List.getElem?_eq_some_iff.1 hj).1
      omega
    | wInit bricks => trivial
    | insert t p v k => trivial
    | send i => trivial
    | remove i => trivial

/-- Two senders take snapshots with the same item, and both send it. -/
def bothSend : List Turn :=
  [.insert "/brick" "/brick/f" vol .created, .snapshot 0 "/brick", .snapshot 1 "/brick",
    .send 0, .send 1]

theorem Pool.run_append (env : Env) (w : Pool) (l₁ l₂ : List Turn) :
    w.run env (l₁ ++ l₂) = (w.run env l₁).run env l₂ := List.foldl_append

theorem run_wInits (env : Env) (n : Nat) :
    Pool.start.run env (List.replicate (n + 1) (.wInit ["/brick"])) =
      ⟨Dict.set ∅ "/brick" ∅, List.replicate (n + 1) ("", .idle), [], false⟩ := by
  induction n with
  | zero => rfl
  | succ n ih =>
    rw [List.replicate_succ', Pool.run_append, ih]
    show Pool.mk _ (List.replicate (n + 1) ("", .idle) ++ [("", .idle)]) _ _ = _
    rw [← List.replicate_succ']
    rfl

theorem bothSend_not_lawful (env : Env) (n : Nat) :
    ¬ (Pool.start.run env (List.replicate (n + 2) (.wInit ["/brick"]) ++ bothSend)).Lawful := by
  intro h
  apply h "/brick" "/brick/f"
  rw [Pool.run_append, run_wInits]
  rfl

/-- **Every entry is sent once.** However often the Worker is initialised: as long as no
sender takes a snapshot of a brick's queue while another one has items of that brick
left, every entry is sent exactly once before it is removed and no missing key is
deleted. That is so for every interleaving exactly if `WInit` was called at most once. -/
theorem sent_once (env : Env) :
    (∀ l, Run.Along (Pool.step env) Alone .start l → ∀ l', l' <+: l →
      (Pool.start.run env l').Lawful) ∧
    ∀ n, (∀ l, l.countP Turn.isWInit = n → (Pool.start.run env l).Lawful) ↔ n ≤ 1 := by
  have hrun : ∀ l, Run.Along (Pool.step env) Alone .start l → ∀ l', l' <+: l →
      (Pool.start.run env l').Lawful := by
    intro l hl l' hp
    exact (hl.invariant (fun w x hw hx => hw.step hx) orderly_start l' hp).tracked.lawful
  refine ⟨hrun, fun n => ⟨?_, ?_⟩⟩
  · intro h
    by_contra hn
    obtain ⟨m, rfl⟩ : ∃ m, n = m + 2 := ⟨n - 2, by omega⟩
    apply bothSend_not_lawful env m
    apply h
    rw [List.countP_append, List.countP_replicate]
    rfl
  · intro hn l hl
    refine hrun l (along_alone ?_) l List.prefix_rfl
    simp only [Pool.start, List.length_nil]
    omega

/-- The Worker was initialised twice, and both senders send the one entry. -/
theorem twoSenders_not_lawful :
    ¬ (Pool.start.run ⟨fun _ => [], "node1"⟩
      (.wInit ["/brick"] :: .wInit ["/brick"] :: bothSend)).Lawful := by
  intro h
  exact h "/brick" "/brick/f" rfl

end Lba2Pba.Worker
