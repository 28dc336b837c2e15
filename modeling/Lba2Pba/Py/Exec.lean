import Lba2Pba.Py.Dict

/-!
# Request handlers

A handler of a Python server changes its own object step by step, calls other
servers on the way, and returns or raises. What it changed and called before an
exception stays changed and called. `Exec σ ω α` is that: a state transformer on
a `Frame` (the object and the calls made so far) whose result is a value or an
exception, with the frame kept in both cases.

Whether a call raises is the network's choice. It is a parameter of `call`, which
sees the number of calls already made by this handler and the call itself, so
every pattern of failures is some choice of it.
-/

namespace Py

/-- The exceptions that the modelled handlers can meet. -/
inductive Err
  | keyError
  | indexError
  | attributeError
  | runtimeError
  | valueError
  | typeError
  | nameError
  | rpcError
deriving DecidableEq, Repr

/-- The object of a handler and the calls it has made, oldest first. -/
structure Frame (σ ω : Type) where
  self : σ
  sent : List ω
deriving DecidableEq

/-- A block of a handler. -/
structure Exec (σ ω α : Type) where
  run : Frame σ ω → Except Err α × Frame σ ω

namespace Exec

variable {σ ω α β : Type}

instance : Monad (Exec σ ω) where
  pure a := ⟨fun s => (.ok a, s)⟩
  bind x f := ⟨fun s =>
    match x.run s with
    | (.ok a, s') => (f a).run s'
    | (.error e, s') => (.error e, s')⟩

@[simp] theorem run_pure (a : α) (s : Frame σ ω) :
    (pure a : Exec σ ω α).run s = (.ok a, s) := rfl

theorem run_bind (x : Exec σ ω α) (f : α → Exec σ ω β) (s : Frame σ ω) :
    (x >>= f).run s = match x.run s with
      | (.ok a, s') => (f a).run s'
      | (.error e, s') => (.error e, s') := rfl

theorem run_bind_ok {x : Exec σ ω α} {s s' : Frame σ ω} {a : α} (h : x.run s = (.ok a, s'))
    (f : α → Exec σ ω β) : (x >>= f).run s = (f a).run s' := by
  rw [run_bind, h]

theorem run_bind_error {x : Exec σ ω α} {s s' : Frame σ ω} {e : Err}
    (h : x.run s = (.error e, s')) (f : α → Exec σ ω β) :
    (x >>= f).run s = (.error e, s') := by
  rw [run_bind, h]

/-! ## Statements -/

/-- `raise e`. -/
def raise (e : Err) : Exec σ ω α := ⟨fun s => (.error e, s)⟩

/-- Read the object. -/
def self : Exec σ ω σ := ⟨fun s => (.ok s.self, s)⟩

/-- Change the object. -/
def update (f : σ → σ) : Exec σ ω Unit := ⟨fun s => (.ok (), { s with self := f s.self })⟩

/-- Change the object, or raise and leave it as it is. -/
def attempt (f : σ → Except Err σ) : Exec σ ω Unit := ⟨fun s =>
  match f s.self with
  | .ok a => (.ok (), { s with self := a })
  | .error e => (.error e, s)⟩

/-- A partial expression that raises `e` where it has no value. -/
def expr (e : Err) : Option α → Exec σ ω α
  | some a => pure a
  | none => raise e

/-- `try: x  except Exception: y`. -/
def tryExcept (x y : Exec σ ω α) : Exec σ ω α := ⟨fun s =>
  match x.run s with
  | (.ok a, s') => (.ok a, s')
  | (.error _, s') => y.run s'⟩

/-- A remote call, which `raises` lets fail or succeed. -/
def call (raises : Nat → ω → Bool) (w : ω) : Exec σ ω Unit := ⟨fun s =>
  (if raises s.sent.length w then .error .rpcError else .ok (),
    { s with sent := s.sent ++ [w] })⟩

/-- `for b in l: body(b)`. -/
def forEach : List β → (β → Exec σ ω Unit) → Exec σ ω Unit
  | [], _ => pure ()
  | b :: l, body => do
    body b
    forEach l body

@[simp] theorem run_raise (e : Err) (s : Frame σ ω) :
    (raise e : Exec σ ω α).run s = (.error e, s) := rfl

@[simp] theorem expr_some (e : Err) (a : α) : (expr e (some a) : Exec σ ω α) = pure a := rfl

@[simp] theorem expr_none (e : Err) : (expr e none : Exec σ ω α) = raise e := rfl

@[simp] theorem run_self_bind (f : σ → Exec σ ω β) (s : Frame σ ω) :
    (self >>= f).run s = (f s.self).run s := rfl

@[simp] theorem run_update (g : σ → σ) (s : Frame σ ω) :
    (update g : Exec σ ω Unit).run s = (.ok (), { s with self := g s.self }) := rfl

@[simp] theorem run_update_bind (g : σ → σ) (f : Unit → Exec σ ω β) (s : Frame σ ω) :
    (update g >>= f).run s = (f ()).run { s with self := g s.self } := rfl

theorem run_attempt_bind_ok {g : σ → Except Err σ} {s : Frame σ ω} {a : σ}
    (h : g s.self = .ok a) (f : Unit → Exec σ ω β) :
    (attempt g >>= f).run s = (f ()).run { s with self := a } := by
  simp only [run_bind, attempt, h]

theorem run_attempt_bind_error {g : σ → Except Err σ} {s : Frame σ ω} {e : Err}
    (h : g s.self = .error e) (f : Unit → Exec σ ω β) :
    (attempt g >>= f).run s = (.error e, s) := by
  simp only [run_bind, attempt, h]

@[simp] theorem run_pure_bind (a : α) (f : α → Exec σ ω β) (s : Frame σ ω) :
    ((pure a : Exec σ ω α) >>= f).run s = (f a).run s := rfl

@[simp] theorem run_raise_bind (e : Err) (f : α → Exec σ ω β) (s : Frame σ ω) :
    ((raise e : Exec σ ω α) >>= f).run s = (.error e, s) := rfl

@[simp] theorem run_bind_bind {γ : Type} (x : Exec σ ω α) (f : α → Exec σ ω β)
    (g : β → Exec σ ω γ) (s : Frame σ ω) :
    ((x >>= f) >>= g).run s = (x >>= fun a => f a >>= g).run s := by
  simp only [run_bind]
  rcases x.run s with ⟨_ | a, s'⟩ <;> rfl

theorem run_tryExcept_ok {x y : Exec σ ω α} {s s' : Frame σ ω} {a : α}
    (h : x.run s = (.ok a, s')) : (tryExcept x y).run s = (.ok a, s') := by
  simp only [tryExcept, h]

theorem run_tryExcept_error {x y : Exec σ ω α} {s s' : Frame σ ω} {e : Err}
    (h : x.run s = (.error e, s')) : (tryExcept x y).run s = y.run s' := by
  simp only [tryExcept, h]

/-! ## Loops of calls -/

/-- Returning a value leaves the frame alone. -/
theorem run_bind_pure_frame (x : Exec σ ω α) (b : β) (s : Frame σ ω) :
    ((x >>= fun _ => pure b).run s).2 = (x.run s).2 := by
  rw [run_bind]
  rcases x.run s with ⟨_ | a, s'⟩ <;> rfl

/-- What follows a block and leaves the object alone does not count for the object. -/
theorem bind_self {x : Exec σ ω α} {f : α → Exec σ ω β}
    (h : ∀ a s, ((f a).run s).2.self = s.self) (s : Frame σ ω) :
    ((x >>= f).run s).2.self = (x.run s).2.self := by
  rw [run_bind]
  rcases x.run s with ⟨_ | a, s'⟩
  · rfl
  · exact h a s'

/-- A loop whose body leaves the object alone leaves it alone. -/
theorem forEach_self {body : β → Exec σ ω Unit}
    (h : ∀ b s, ((body b).run s).2.self = s.self) (l : List β) (s : Frame σ ω) :
    ((forEach l body).run s).2.self = s.self := by
  induction l generalizing s with
  | nil => rfl
  | cons b l ih =>
    rw [forEach, bind_self (fun _ => ih)]
    exact h b s

/-- The calls of a loop that ends with the first one that fails. -/
def upTo (fails : β → Bool) : List β → List β
  | [] => []
  | b :: l => if fails b then [b] else b :: upTo fails l

theorem upTo_of_forall {fails : β → Bool} {l : List β} (h : ∀ b ∈ l, fails b = false) :
    upTo fails l = l := by
  induction l with
  | nil => rfl
  | cons b l ih =>
    have hb := h b List.mem_cons_self
    rw [upTo, hb, ih (fun c hc => h c (List.mem_cons_of_mem b hc))]
    rfl

theorem upTo_map (fails : ω → Bool) (mk : β → ω) (l : List β) :
    upTo fails (l.map mk) = (upTo (fun b => fails (mk b)) l).map mk := by
  induction l with
  | nil => rfl
  | cons b l ih =>
    rw [List.map_cons, upTo, upTo, ih]
    split <;> rfl

/-- Among them, those that do not fail come before the first one that does. -/
theorem mem_upTo_iff {fails : β → Bool} {l : List β} {b : β} (hb : fails b = false) :
    b ∈ upTo fails l ↔ b ∈ l.takeWhile (fun c => !fails c) := by
  induction l with
  | nil => exact Iff.rfl
  | cons c l ih =>
    rw [upTo, List.takeWhile_cons]
    cases hc : fails c with
    | true =>
      have hne : b ≠ c := by
        rintro rfl
        rw [hb] at hc
        cases hc
      simp [hne]
    | false => simp [ih]

/-- Every element that does not fail comes before the first one that does. -/
def Ahead (fails : β → Bool) (l : List β) : Prop :=
  ∀ b ∈ l, fails b = false → b ∈ l.takeWhile (fun c => !fails c)

/-- If the loop is run at all only where `run` holds, and what it reaches has `P`, then all
elements that do not fail have `P` where none stands behind one that fails. -/
theorem forall_reached_iff {fails : β → Bool} {l : List β} {P : β → Prop} {run : Prop}
    (hrun : ∀ b ∈ l, fails b = false → P b → run)
    (hP : run → ∀ b, fails b = false → (P b ↔ b ∈ upTo fails l)) :
    (∀ b ∈ l, fails b = false → P b) ↔ (∀ b ∈ l, fails b = true) ∨ (run ∧ Ahead fails l) := by
  constructor
  · intro hall
    by_cases hfail : ∀ b ∈ l, fails b = true
    · exact Or.inl hfail
    · push Not at hfail
      obtain ⟨b, hb, hne⟩ := hfail
      have hok : fails b = false := eq_false_of_ne_true hne
      have hr := hrun b hb hok (hall b hb hok)
      refine Or.inr ⟨hr, fun c hc hcok => ?_⟩
      exact (mem_upTo_iff hcok).1 ((hP hr c hcok).1 (hall c hc hcok))
  · rintro (hfail | ⟨hr, hahead⟩) b hb hok
    · rw [hfail b hb] at hok
      cases hok
    · exact (hP hr b hok).2 ((mem_upTo_iff hok).2 (hahead b hb hok))

/-- A loop of calls makes them up to the first one that fails, and raises if there is one. -/
theorem forEach_call_upTo {raises : Nat → ω → Bool} {fails : ω → Bool} {mk : β → ω}
    {body : β → Exec σ ω Unit} {s : Frame σ ω} (hr : ∀ n w, raises n w = fails w) (l : List β)
    (h : ∀ b ∈ l, ∀ t : Frame σ ω, t.self = s.self →
      (body b).run t = (call raises (mk b)).run t) :
    (forEach l body).run s =
      (if (l.map mk).any fails then .error .rpcError else .ok (),
        { s with sent := s.sent ++ upTo fails (l.map mk) }) := by
  suffices H : ∀ t : Frame σ ω, t.self = s.self → (forEach l body).run t =
      (if (l.map mk).any fails then .error .rpcError else .ok (),
        { t with sent := t.sent ++ upTo fails (l.map mk) }) from H s rfl
  induction l with
  | nil =>
    intro t _
    simp [forEach, upTo]
  | cons b l ih =>
    intro t ht
    have hb := h b List.mem_cons_self t ht
    simp only [call, hr] at hb
    cases hf : fails (mk b) with
    | true =>
      rw [hf, if_pos rfl] at hb
      rw [forEach, run_bind_error hb]
      simp [upTo, hf]
    | false =>
      have rest := ih (fun c hc => h c (List.mem_cons_of_mem _ hc))
        { t with sent := t.sent ++ [mk b] } ht
      rw [hf, if_neg Bool.false_ne_true] at hb
      rw [forEach, run_bind_ok hb, rest]
      simp [upTo, hf]

/-- If only the calls with `p` can raise, and the loop has at most one of them, that one is
made. -/
theorem forEach_call_filter {raises : Nat → ω → Bool} {mk : β → ω} {body : β → Exec σ ω Unit}
    {p : ω → Bool} {s : Frame σ ω} (hr : ∀ n w, p w = false → raises n w = false) (l : List β)
    (h : ∀ b ∈ l, ∀ t : Frame σ ω, t.self = s.self →
      (body b).run t = (call raises (mk b)).run t)
    (hone : ((l.map mk).filter p).length ≤ 1) :
    ((forEach l body).run s).2.sent.filter p = s.sent.filter p ++ (l.map mk).filter p := by
  suffices H : ∀ t : Frame σ ω, t.self = s.self →
      ((forEach l body).run t).2.sent.filter p = t.sent.filter p ++ (l.map mk).filter p from H s rfl
  induction l with
  | nil =>
    intro t _
    simp [forEach]
  | cons b l ih =>
    intro t ht
    have hb := h b List.mem_cons_self t ht
    have hrest : ((l.map mk).filter p).length ≤ 1 := by
      refine Nat.le_trans (List.Sublist.length_le ?_) hone
      rw [List.map_cons]
      exact (List.sublist_cons_self _ _).filter p
    rw [call] at hb
    simp only at hb
    by_cases hraise : raises t.sent.length (mk b) = true
    · have hp : p (mk b) = true := by
        rw [← Bool.not_eq_false]
        intro hp
        rw [hr _ _ hp] at hraise
        cases hraise
      have hnil : (l.map mk).filter p = [] := by
        rw [List.map_cons, List.filter_cons_of_pos hp, List.length_cons] at hone
        exact List.length_eq_zero_iff.1 (Nat.le_zero.1 (Nat.le_of_succ_le_succ hone))
      rw [if_pos hraise] at hb
      rw [forEach, run_bind_error hb]
      simp [hp, hnil]
    · rw [if_neg hraise] at hb
      have rest := ih (fun c hc => h c (List.mem_cons_of_mem _ hc)) hrest
        { t with sent := t.sent ++ [mk b] } ht
      rw [forEach, run_bind_ok hb, rest]
      simp only [List.filter_append, List.map_cons, List.filter_cons, List.filter_nil,
        List.append_assoc]
      split <;> rfl

/-- A loop stops at the first iteration that raises before calling. -/
theorem forEach_raise {body : β → Exec σ ω Unit} {s : Frame σ ω} {b : β} {l : List β} {e : Err}
    (h : (body b).run s = (.error e, s)) : (forEach (b :: l) body).run s = (.error e, s) := by
  rw [forEach, run_bind_error h]

end Exec

end Py
