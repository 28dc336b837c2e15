import Lba2Pba.Py.Exec
import Mathlib.Logic.Function.Basic

/-!
# Handlers that run at the same time

A server hands each request to a thread of its own, and the threads share the object
of the server. `Thread σ ω α` is a block of a handler whose statements are apart: a
statement is atomic, and between two of them the other handlers can take theirs.
Run without others (`Thread.run`) it is a block as in `Exec`.

`Runs` is every way in which the handlers of a server can interleave when those for
one key follow each other. `Confined` is the rule for them: a block that, as long as
nobody else touches what is seen at its key, touches nothing else and ends with `Q`,
on objects with an invariant that every statement keeps. If every handler is confined
to its key, what is seen at a key between two of its handlers does not depend on the
handlers for the other keys (`Runs.slot`).
-/

namespace Py

/-- A block of a handler, statement by statement. A statement sees the shared object
and the calls of its own handler. -/
inductive Thread (σ ω α : Type)
  | done (r : Except Err α)
  | step (act : Frame σ ω → Frame σ ω) (next : Frame σ ω → Thread σ ω α)

namespace Thread

variable {σ ω α β : Type}

protected def bind : Thread σ ω α → (α → Thread σ ω β) → Thread σ ω β
  | done (.ok a), f => f a
  | done (.error e), _ => done (.error e)
  | step act next, f => step act (fun s => (next s).bind f)

instance : Monad (Thread σ ω) where
  pure a := done (.ok a)
  bind := Thread.bind

/-! ## Statements -/

/-- `raise e`. -/
def raise (e : Err) : Thread σ ω α := done (.error e)

/-- Read the object. -/
def self : Thread σ ω σ := step id (fun s => done (.ok s.self))

/-- Change the object. -/
def update (f : σ → σ) : Thread σ ω Unit :=
  step (fun s => { s with self := f s.self }) (fun _ => done (.ok ()))

/-- Change the object, or raise and leave it as it is. -/
def attempt (f : σ → Except Err σ) : Thread σ ω Unit :=
  step (fun s => match f s.self with
      | .ok a => { s with self := a }
      | .error _ => s)
    (fun s => done (match f s.self with
      | .ok _ => .ok ()
      | .error e => .error e))

/-- A partial expression that raises `e` where it has no value. -/
def expr (e : Err) : Option α → Thread σ ω α
  | some a => pure a
  | none => raise e

/-- `try: x  except Exception: y`. -/
def tryExcept : Thread σ ω α → Thread σ ω α → Thread σ ω α
  | done (.ok a), _ => done (.ok a)
  | done (.error _), y => y
  | step act next, y => step act (fun s => (next s).tryExcept y)

/-- A remote call, which `raises` lets fail or succeed. -/
def call (raises : Nat → ω → Bool) (w : ω) : Thread σ ω Unit :=
  step (fun s => { s with sent := s.sent ++ [w] })
    (fun s => done (if raises s.sent.length w then .error .rpcError else .ok ()))

/-- `for b in l: body(b)`. -/
def forEach : List β → (β → Thread σ ω Unit) → Thread σ ω Unit
  | [], _ => pure ()
  | b :: l, body => do
    body b
    forEach l body

@[simp] theorem pure_eq (a : α) : (pure a : Thread σ ω α) = done (.ok a) := rfl

@[simp] theorem done_ok_bind (a : α) (f : α → Thread σ ω β) :
    (done (.ok a) >>= f : Thread σ ω β) = f a := rfl

@[simp] theorem raise_bind (e : Err) (f : α → Thread σ ω β) :
    (raise e >>= f : Thread σ ω β) = raise e := rfl

@[simp] theorem expr_some (e : Err) (a : α) : (expr e (some a) : Thread σ ω α) = done (.ok a) := rfl

@[simp] theorem expr_none (e : Err) : (expr e none : Thread σ ω α) = raise e := rfl

/-! ## A handler alone -/

/-- Run a block without others. -/
def run : Thread σ ω α → Frame σ ω → Except Err α × Frame σ ω
  | done r, s => (r, s)
  | step act next, s => (next s).run (act s)

/-- The first `n` statements of a block: what is left of it, and the frame. -/
def steps : Nat → Thread σ ω α → Frame σ ω → Thread σ ω α × Frame σ ω
  | 0, x, s => (x, s)
  | _ + 1, done r, s => (done r, s)
  | n + 1, step act next, s => steps n (next s) (act s)

/-- The same block. -/
def Solo (x : Thread σ ω α) (y : Exec σ ω α) : Prop := ∀ s, x.run s = y.run s

theorem run_bind (x : Thread σ ω α) (f : α → Thread σ ω β) (s : Frame σ ω) :
    (x >>= f).run s = match x.run s with
      | (.ok a, s') => (f a).run s'
      | (.error e, s') => (.error e, s') := by
  induction x generalizing s with
  | done r => cases r <;> rfl
  | step act next ih => exact ih s (act s)

theorem run_tryExcept (x y : Thread σ ω α) (s : Frame σ ω) :
    (tryExcept x y).run s = match x.run s with
      | (.ok a, s') => (.ok a, s')
      | (.error _, s') => y.run s' := by
  induction x generalizing s with
  | done r => cases r <;> rfl
  | step act next ih => exact ih s (act s)

theorem bind_assoc {γ : Type} (x : Thread σ ω α) (f : α → Thread σ ω β) (g : β → Thread σ ω γ) :
    x >>= f >>= g = x >>= fun a => f a >>= g := by
  induction x with
  | done r => cases r <;> rfl
  | step act next ih => exact congrArg (step act) (funext ih)

/-- The statements of a loop after its first passes. -/
theorem forEach_append (l l' : List β) (body : β → Thread σ ω Unit) :
    forEach (l ++ l') body = forEach l body >>= fun _ => forEach l' body := by
  induction l with
  | nil => rfl
  | cons b l ih =>
    rw [List.cons_append, forEach, forEach, ih]
    exact (bind_assoc _ _ _).symm

theorem steps_add (m n : Nat) (x : Thread σ ω α) (s : Frame σ ω) :
    x.steps (m + n) s = (x.steps m s).1.steps n (x.steps m s).2 := by
  induction m generalizing x s with
  | zero => rw [Nat.zero_add, steps]
  | succ m ih =>
    cases x with
    | done r =>
      rw [Nat.succ_add, steps, steps]
      cases n <;> rfl
    | step act next =>
      rw [Nat.succ_add, steps, steps]
      exact ih _ _

/-- Some statements and then the rest are the whole block. -/
theorem run_steps (n : Nat) (x : Thread σ ω α) (s : Frame σ ω) :
    (x.steps n s).1.run (x.steps n s).2 = x.run s := by
  induction n generalizing x s with
  | zero => rfl
  | succ n ih =>
    cases x with
    | done r => rfl
    | step act next => exact ih (next s) (act s)

/-- A block that runs to its end alone brings what follows it to its start. -/
theorem exists_steps_bind {x : Thread σ ω α} {s s' : Frame σ ω} {a : α}
    (h : x.run s = (.ok a, s')) (f : α → Thread σ ω β) :
    ∃ n, (x >>= f).steps n s = (f a, s') := by
  induction x generalizing s with
  | done r =>
    obtain ⟨rfl, rfl⟩ := Prod.mk.inj h
    exact ⟨0, rfl⟩
  | step act next ih =>
    obtain ⟨n, hn⟩ := ih s h
    exact ⟨n + 1, hn⟩

namespace Solo

theorem pure (a : α) : Solo (Pure.pure a : Thread σ ω α) (Pure.pure a) := fun _ => rfl

theorem raise (e : Err) : Solo (Thread.raise e : Thread σ ω α) (Exec.raise e) := fun _ => rfl

theorem self : Solo (Thread.self : Thread σ ω σ) Exec.self := fun _ => rfl

theorem update (g : σ → σ) : Solo (Thread.update g : Thread σ ω Unit) (Exec.update g) :=
  fun _ => rfl

theorem attempt (g : σ → Except Err σ) :
    Solo (Thread.attempt g : Thread σ ω Unit) (Exec.attempt g) := by
  intro s
  simp only [Thread.attempt, Thread.run, Exec.attempt]
  cases g s.self <;> rfl

theorem call (raises : Nat → ω → Bool) (w : ω) :
    Solo (Thread.call raises w : Thread σ ω Unit) (Exec.call raises w) := fun _ => rfl

theorem expr (e : Err) (o : Option α) : Solo (Thread.expr e o : Thread σ ω α) (Exec.expr e o) := by
  cases o <;> exact fun _ => rfl

theorem bind {x : Thread σ ω α} {y : Exec σ ω α} {f : α → Thread σ ω β} {g : α → Exec σ ω β}
    (h : Solo x y) (hf : ∀ a, Solo (f a) (g a)) : Solo (x >>= f) (y >>= g) := by
  intro s
  rw [run_bind, Exec.run_bind, h s]
  rcases y.run s with ⟨_ | a, s'⟩
  · rfl
  · exact hf a s'

theorem tryExcept {x x' : Thread σ ω α} {y y' : Exec σ ω α} (h : Solo x y) (h' : Solo x' y') :
    Solo (x.tryExcept x') (y.tryExcept y') := by
  intro s
  rw [run_tryExcept, h s]
  rcases hy : y.run s with ⟨e | a, s'⟩
  · rw [Exec.run_tryExcept_error hy]
    exact h' s'
  · rw [Exec.run_tryExcept_ok hy]

theorem forEach {body : β → Thread σ ω Unit} {body' : β → Exec σ ω Unit}
    (h : ∀ b, Solo (body b) (body' b)) (l : List β) :
    Solo (Thread.forEach l body) (Exec.forEach l body') := by
  induction l with
  | nil => exact fun _ => rfl
  | cons b l ih => exact (h b).bind (fun _ => ih)

end Solo

/-! ## A handler among others -/

section Confined

variable {κ γ : Type} (I : σ → Prop) (view : σ → κ → γ) (k : κ)

/-- From `v` at `k` and with `sent` behind it, on objects with `I`, and as long as nobody
else changes what is seen at `k`, the block keeps `I` and changes what is seen at `k`
only, and what is then seen there, its calls and its result have `Q`. -/
def Confined (Q : γ → List ω → Except Err α → Prop) : γ → List ω → Thread σ ω α → Prop
  | v, sent, done r => Q v sent r
  | v, sent, step act next => ∀ s : Frame σ ω, I s.self → view s.self k = v → s.sent = sent →
      I (act s).self ∧ (∀ j, j ≠ k → view (act s).self j = view s.self j) ∧
        Confined Q (view (act s).self k) (act s).sent (next s)

variable {I view k} {Q : γ → List ω → Except Err α → Prop} {v : γ} {sent : List ω}

theorem Confined.mono {Q' : γ → List ω → Except Err α → Prop} {x : Thread σ ω α}
    (h : Confined I view k Q v sent x) (hQ : ∀ v sent r, Q v sent r → Q' v sent r) :
    Confined I view k Q' v sent x := by
  induction x generalizing v sent with
  | done r => exact hQ v sent r h
  | step act next ih =>
    intro s hI hv hs
    obtain ⟨hI', hframe, hrest⟩ := h s hI hv hs
    exact ⟨hI', hframe, ih s hrest⟩

/-- What follows a block. -/
def Then (I : σ → Prop) (view : σ → κ → γ) (k : κ) (Q : γ → List ω → Except Err β → Prop)
    (f : α → Thread σ ω β) (v : γ) (sent : List ω) : Except Err α → Prop
  | .ok a => Confined I view k Q v sent (f a)
  | .error e => Q v sent (.error e)

theorem Confined.bind {Q : γ → List ω → Except Err β → Prop} {x : Thread σ ω α}
    {f : α → Thread σ ω β} (h : Confined I view k (Then I view k Q f) v sent x) :
    Confined I view k Q v sent (x >>= f) := by
  induction x generalizing v sent with
  | done r =>
    cases r with
    | ok a => exact h
    | error e => exact h
  | step act next ih =>
    intro s hI hv hs
    obtain ⟨hI', hframe, hrest⟩ := h s hI hv hs
    exact ⟨hI', hframe, ih s hrest⟩

theorem Confined.tryExcept {x y : Thread σ ω α}
    (h : Confined I view k (fun v sent r => match r with
      | .ok a => Q v sent (.ok a)
      | .error _ => Confined I view k Q v sent y) v sent x) :
    Confined I view k Q v sent (x.tryExcept y) := by
  induction x generalizing v sent with
  | done r =>
    cases r with
    | ok a => exact h
    | error e => exact h
  | step act next ih =>
    intro s hI hv hs
    obtain ⟨hI', hframe, hrest⟩ := h s hI hv hs
    exact ⟨hI', hframe, ih s hrest⟩

theorem Confined.self_bind {Q : γ → List ω → Except Err β → Prop} {f : σ → Thread σ ω β}
    (h : ∀ s, I s → view s k = v → Confined I view k Q v sent (f s)) :
    Confined I view k Q v sent (self >>= f) := by
  intro s hI hv hs
  refine ⟨hI, fun _ _ => rfl, ?_⟩
  show Confined I view k Q (view s.self k) s.sent (f s.self)
  rw [hv, hs]
  exact h s.self hI hv

theorem Confined.update_bind {Q : γ → List ω → Except Err β → Prop} {g : σ → σ}
    {f : Unit → Thread σ ω β} (v' : γ) (hI : ∀ s, I s → view s k = v → I (g s))
    (hk : ∀ s, I s → view s k = v → view (g s) k = v')
    (hj : ∀ s j, I s → view s k = v → j ≠ k → view (g s) j = view s j)
    (h : Confined I view k Q v' sent (f ())) :
    Confined I view k Q v sent (update g >>= f) := by
  intro s hs hv hsent
  refine ⟨hI s.self hs hv, fun j hne => hj s.self j hs hv hne, ?_⟩
  show Confined I view k Q (view (g s.self) k) s.sent (f ())
  rw [hk s.self hs hv, hsent]
  exact h

theorem Confined.attempt_bind {Q : γ → List ω → Except Err β → Prop} {g : σ → Except Err σ}
    {f : Unit → Thread σ ω β}
    (h : ∀ s, I s → view s k = v → match g s with
      | .ok s' => I s' ∧ (∀ j, j ≠ k → view s' j = view s j) ∧
          Confined I view k Q (view s' k) sent (f ())
      | .error e => Q v sent (.error e)) :
    Confined I view k Q v sent (attempt g >>= f) := by
  intro s hI hv hs
  have hg := h s.self hI hv
  show I (match g s.self with
      | .ok a => { s with self := a }
      | .error _ => s).self ∧
    (∀ j, j ≠ k → view (match g s.self with
      | .ok a => { s with self := a }
      | .error _ => s).self j = view s.self j) ∧
    Confined I view k Q (view (match g s.self with
      | .ok a => { s with self := a }
      | .error _ => s).self k) (match g s.self with
      | .ok a => { s with self := a }
      | .error _ => s).sent (done (match g s.self with
      | .ok _ => .ok ()
      | .error e => .error e) >>= f)
  revert hg
  rcases g s.self with e | a
  · intro hg
    refine ⟨hI, fun _ _ => rfl, ?_⟩
    show Q (view s.self k) s.sent (.error e)
    rw [hv, hs]
    exact hg
  · intro hg
    refine ⟨hg.1, hg.2.1, ?_⟩
    show Confined I view k Q (view a k) s.sent (f ())
    rw [hs]
    exact hg.2.2

/-- A confined block alone. -/
theorem Confined.run {x : Thread σ ω α} (h : Confined I view k Q v sent x) (s : Frame σ ω)
    (hI : I s.self) (hv : view s.self k = v) (hs : s.sent = sent) :
    (∀ j, j ≠ k → view (x.run s).2.self j = view s.self j) ∧
      Q (view (x.run s).2.self k) (x.run s).2.sent (x.run s).1 := by
  induction x generalizing v sent s with
  | done r =>
    subst hv hs
    exact ⟨fun _ _ => rfl, h⟩
  | step act next ih =>
    obtain ⟨hI', hframe, hrest⟩ := h s hI hv hs
    obtain ⟨hj, hq⟩ := ih s hrest (act s) hI' rfl rfl
    exact ⟨fun j hne => (hj j hne).trans (hframe j hne), hq⟩

/-- A loop of which each pass leaves `v` alone and adds calls with `P`. -/
theorem Confined.forEach {P : ω → Prop} {body : β → Thread σ ω Unit} {l : List β}
    (h : ∀ b ∈ l, ∀ sent, (∀ w ∈ sent, P w) →
      Confined I view k (fun v' sent' _ => v' = v ∧ ∀ w ∈ sent', P w) v sent (body b))
    (hs : ∀ w ∈ sent, P w) :
    Confined I view k (fun v' sent' _ => v' = v ∧ ∀ w ∈ sent', P w) v sent (forEach l body) := by
  induction l generalizing sent with
  | nil => exact ⟨rfl, hs⟩
  | cons b l ih =>
    refine Confined.bind ((h b List.mem_cons_self sent hs).mono ?_)
    rintro v' sent' (e | a) ⟨rfl, hs'⟩
    · exact ⟨rfl, hs'⟩
    · exact ih (fun c hc => h c (List.mem_cons_of_mem b hc)) hs'

theorem Confined.call {raises : Nat → ω → Bool} {w : ω} {P : ω → Prop} (hw : P w)
    (hs : ∀ w ∈ sent, P w) :
    Confined I view k (fun v' sent' _ => v' = v ∧ ∀ w ∈ sent', P w) v sent
      (call raises w : Thread σ ω Unit) := by
  intro s hI hv hsent
  refine ⟨hI, fun _ _ => rfl, hv, ?_⟩
  show ∀ w' ∈ s.sent ++ [w], P w'
  rw [hsent]
  intro w' hw'
  rcases List.mem_append.1 hw' with hw' | hw'
  · exact hs w' hw'
  · rw [List.mem_singleton.1 hw']
    exact hw

end Confined

end Thread

/-! ## The handlers of a server -/

/-- A handler in progress: its request, the calls it has made and what is left of it. -/
structure Task (ρ σ ω α : Type) where
  request : ρ
  sent : List ω
  rest : Thread σ ω α

/-- A handler that has returned or raised. -/
structure Finished (ρ ω α : Type) where
  request : ρ
  sent : List ω
  result : Except Err α

/-- The object of a server, the handler in progress for each key, and the finished
ones, oldest first. -/
structure Pool (κ ρ σ ω α : Type) where
  self : σ
  live : κ → Option (Task ρ σ ω α)
  finished : List (Finished ρ ω α)

section Runs

variable {κ γ ρ σ ω α : Type} [DecidableEq κ]

/-- The finished handlers for a key. -/
def Pool.finishedAt (key : ρ → κ) (p : Pool κ ρ σ ω α) (k : κ) : List (Finished ρ ω α) :=
  p.finished.filter (fun x => decide (key x.request = k))

variable (prog : ρ → Thread σ ω α) (key : ρ → κ) (ok : ρ → Prop)

/-- The pools that a server can come to from the pool `p₀`. A request is taken up while no
handler for its key is in progress, and any handler in progress can take its next
statement. -/
inductive Continues (p₀ : Pool κ ρ σ ω α) : Pool κ ρ σ ω α → Prop
  | start : Continues p₀ p₀
  | accept {p : Pool κ ρ σ ω α} (h : Continues p₀ p) (r : ρ) (hr : ok r)
      (hfree : p.live (key r) = none) :
      Continues p₀ { p with live := Function.update p.live (key r) (some ⟨r, [], prog r⟩) }
  | move {p : Pool κ ρ σ ω α} (h : Continues p₀ p) {k : κ} {r : ρ} {sent : List ω}
      {act : Frame σ ω → Frame σ ω} {next : Frame σ ω → Thread σ ω α}
      (hk : p.live k = some ⟨r, sent, .step act next⟩) :
      Continues p₀ { p with
        self := (act ⟨p.self, sent⟩).self
        live := Function.update p.live k
          (some ⟨r, (act ⟨p.self, sent⟩).sent, next ⟨p.self, sent⟩⟩) }
  | finish {p : Pool κ ρ σ ω α} (h : Continues p₀ p) {k : κ} {r : ρ} {sent : List ω}
      {res : Except Err α} (hk : p.live k = some ⟨r, sent, .done res⟩) :
      Continues p₀ { p with
        live := Function.update p.live k none
        finished := p.finished ++ [⟨r, sent, res⟩] }

/-- The pools that a server can come to from the object `s₀`, with no handler before. -/
abbrev Runs (s₀ : σ) : Pool κ ρ σ ω α → Prop :=
  Continues prog key ok ⟨s₀, fun _ => none, []⟩

variable {prog key ok} {s₀ : σ} {p₀ p : Pool κ ρ σ ω α}

/-- What holds of all handlers in progress holds still after one of them has changed. -/
theorem forall_live_update {live : κ → Option (Task ρ σ ω α)} {j : κ}
    {y : Option (Task ρ σ ω α)} {P : κ → Task ρ σ ω α → Prop}
    (h : ∀ k x, live k = some x → P k x) (hy : ∀ x, y = some x → P j x) :
    ∀ k x, Function.update live j y k = some x → P k x := by
  intro k x hx
  rw [Function.update_apply] at hx
  split at hx
  · rename_i hk
    exact hk ▸ hy x hx
  · exact h k x hx

/-- Only the requests that are accepted are handled. -/
theorem Runs.ok_of_handled (h : Runs prog key ok s₀ p) :
    (∀ k x, p.live k = some x → ok x.request) ∧ ∀ x ∈ p.finished, ok x.request := by
  induction h with
  | start =>
    refine ⟨fun k x hx => ?_, fun x hx => ?_⟩
    · cases hx
    · cases hx
  | @accept p h r hr hfree ih =>
    refine ⟨forall_live_update ih.1 (fun x hx => ?_), ih.2⟩
    cases hx
    exact hr
  | @move p h j r sent act next hj ih =>
    refine ⟨forall_live_update ih.1 (fun x hx => ?_), ih.2⟩
    cases hx
    exact ih.1 j ⟨r, sent, .step act next⟩ hj
  | @finish p h j r sent res hj ih =>
    refine ⟨forall_live_update ih.1 (fun x hx => ?_), fun x hx => ?_⟩
    · cases hx
    · rcases List.mem_append.1 hx with hx | hx
      · exact ih.2 x hx
      · rw [List.mem_singleton.1 hx]
        exact ih.1 j ⟨r, sent, .done res⟩ hj

/-- A handler takes some statements while the others stand still. -/
theorem Continues.steps (n : Nat) {s : σ} {live : κ → Option (Task ρ σ ω α)}
    {fin : List (Finished ρ ω α)} {k : κ} {r : ρ} {sent : List ω} {x : Thread σ ω α}
    (h : Continues prog key ok p₀ ⟨s, Function.update live k (some ⟨r, sent, x⟩), fin⟩) :
    Continues prog key ok p₀ ⟨(x.steps n ⟨s, sent⟩).2.self,
      Function.update live k
        (some ⟨r, (x.steps n ⟨s, sent⟩).2.sent, (x.steps n ⟨s, sent⟩).1⟩), fin⟩ := by
  induction n generalizing s sent x with
  | zero => exact h
  | succ n ih =>
    cases x with
    | done res => exact h
    | step act next =>
      have hmove := h.move (k := k) (Function.update_self ..)
      simp only [Function.update_idem] at hmove
      exact ih hmove

/-- A handler takes all that is left of it while the others stand still. -/
theorem Continues.rest {s : σ} {live : κ → Option (Task ρ σ ω α)}
    {fin : List (Finished ρ ω α)} {k : κ} {r : ρ} {sent : List ω} {x : Thread σ ω α}
    (hk : live k = none)
    (h : Continues prog key ok p₀ ⟨s, Function.update live k (some ⟨r, sent, x⟩), fin⟩) :
    Continues prog key ok p₀ ⟨(x.run ⟨s, sent⟩).2.self, live,
      fin ++ [⟨r, (x.run ⟨s, sent⟩).2.sent, (x.run ⟨s, sent⟩).1⟩]⟩ := by
  induction x generalizing s sent with
  | done res =>
    have hfin := h.finish (k := k) (Function.update_self ..)
    simp only [Function.update_idem] at hfin
    rw [← hk, Function.update_eq_self] at hfin
    exact hfin
  | step act next ih =>
    have hmove := h.move (k := k) (Function.update_self ..)
    simp only [Function.update_idem] at hmove
    exact ih ⟨s, sent⟩ hmove

/-- Where no handler is in progress, `J` relates the finished ones to what is seen; a
handler in progress is confined to its key and will leave it so. -/
def Slot (key : ρ → κ) (I : σ → Prop) (view : σ → κ → γ)
    (J : κ → List (Finished ρ ω α) → γ → Prop) (k : κ) (hist : List (Finished ρ ω α)) (v : γ) :
    Option (Task ρ σ ω α) → Prop
  | none => J k hist v
  | some x => key x.request = k ∧ Thread.Confined I view k
      (fun v' sent res => J k (hist ++ [⟨x.request, sent, res⟩]) v') v x.sent x.rest

/-- **What is seen at a key between its handlers.** If `J` relates the handlers that
have finished for a key to what is seen there, at the start and after one more that
is confined to its key, it does so in every pool where no handler for the key is in
progress. -/
theorem Runs.slot (I : σ → Prop) (view : σ → κ → γ) (J : κ → List (Finished ρ ω α) → γ → Prop)
    (hI : I s₀) (h0 : ∀ k, J k [] (view s₀ k))
    (hprog : ∀ r, ok r → ∀ hist v, J (key r) hist v → Thread.Confined I view (key r)
      (fun v' sent res => J (key r) (hist ++ [⟨r, sent, res⟩]) v') v [] (prog r))
    (h : Runs prog key ok s₀ p) :
    I p.self ∧ ∀ k, Slot key I view J k (p.finishedAt key k) (view p.self k) (p.live k) := by
  induction h with
  | start => exact ⟨hI, h0⟩
  | @accept p h r hr hfree ih =>
    obtain ⟨hIp, ih⟩ := ih
    refine ⟨hIp, fun k => ?_⟩
    show Slot key I view J k (p.finishedAt key k) (view p.self k) (Function.update p.live _ _ k)
    by_cases hk : k = key r
    · subst hk
      have hquiet := ih (key r)
      rw [hfree] at hquiet
      rw [Function.update_self]
      exact ⟨rfl, hprog r hr _ _ hquiet⟩
    · rw [Function.update_of_ne hk]
      exact ih k
  | @move p h j r sent act next hj ih =>
    obtain ⟨hIp, ih⟩ := ih
    have hslot := ih j
    rw [hj] at hslot
    obtain ⟨hkey, hlive⟩ := hslot
    obtain ⟨hI', hframe, hrest⟩ := hlive ⟨p.self, sent⟩ hIp rfl rfl
    refine ⟨hI', fun k => ?_⟩
    show Slot key I view J k (p.finishedAt key k) (view (act ⟨p.self, sent⟩).self k)
      (Function.update p.live j _ k)
    by_cases hk : k = j
    · subst hk
      rw [Function.update_self]
      exact ⟨hkey, hrest⟩
    · rw [Function.update_of_ne hk, hframe k hk]
      exact ih k
  | @finish p h j r sent res hj ih =>
    obtain ⟨hIp, ih⟩ := ih
    have hslot := ih j
    rw [hj] at hslot
    obtain ⟨hkey, hdone⟩ := hslot
    refine ⟨hIp, fun k => ?_⟩
    show Slot key I view J k ((p.finished ++ [(⟨r, sent, res⟩ : Finished ρ ω α)]).filter
      (fun x => decide (key x.request = k))) (view p.self k) (Function.update p.live j none k)
    rw [List.filter_append]
    by_cases hk : k = j
    · subst hk
      rw [Function.update_self, List.filter_cons_of_pos (by simpa using hkey)]
      exact hdone
    · have hne : ¬ key r = k := fun he => hk (he.symm.trans hkey)
      rw [Function.update_of_ne hk, List.filter_cons_of_neg (by simpa using hne), List.filter_nil,
        List.append_nil]
      exact ih k

end Runs

end Py
