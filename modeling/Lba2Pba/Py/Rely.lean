import Lba2Pba.Py.Thread

/-!
# Handlers under interference

Handlers that are not confined to a part of the shared object can still rely on what
none of them ever does to it. `R s s'` says that the handlers together can bring the
object from `s` to `s'`. A block guarantees `R` and ends with `Q` (`Guarantees`) if,
whatever the others do within `R` between its statements, each of these statements is
within `R`, and `Q` holds when it has ended and ever after. If all handlers of a server
do so, `R` leads from the start to every object that the server can come to, and the
handlers that have finished have their `Q` there (`Runs.rely`). The same holds from any
later pool on, for the handlers that start after it (`Continues.rely`).
-/

namespace Py

namespace Thread

variable {σ ω α β : Type} (R : σ → σ → Prop)

/-- The block from the object `s` and with `sent` behind it. -/
def Guarantees (Q : σ → List ω → Except Err α → Prop) : σ → List ω → Thread σ ω α → Prop
  | s, sent, done r => ∀ s', R s s' → Q s' sent r
  | s, sent, step act next => ∀ s', R s s' → R s' (act ⟨s', sent⟩).self ∧
      Guarantees Q (act ⟨s', sent⟩).self (act ⟨s', sent⟩).sent (next ⟨s', sent⟩)

variable {R} {Q : σ → List ω → Except Err α → Prop} {s : σ} {sent : List ω}

theorem Guarantees.later (trans : ∀ a b c, R a b → R b c → R a c) {x : Thread σ ω α} {s' : σ}
    (hs : R s s') (h : Guarantees R Q s sent x) : Guarantees R Q s' sent x := by
  cases x with
  | done r => exact fun t ht => h t (trans _ _ _ hs ht)
  | step act next => exact fun t ht => h t (trans _ _ _ hs ht)

theorem Guarantees.mono {Q' : σ → List ω → Except Err α → Prop} {x : Thread σ ω α}
    (h : Guarantees R Q s sent x) (hQ : ∀ s sent r, Q s sent r → Q' s sent r) :
    Guarantees R Q' s sent x := by
  induction x generalizing s sent with
  | done r => exact fun s' hs => hQ s' sent r (h s' hs)
  | step act next ih =>
    intro s' hs
    exact ⟨(h s' hs).1, ih _ (h s' hs).2⟩

/-- `R` leads from the start of a block to its end. -/
theorem Guarantees.reaches (refl : ∀ a, R a a) (trans : ∀ a b c, R a b → R b c → R a c)
    {x : Thread σ ω α} (h : Guarantees R Q s sent x) :
    Guarantees R (fun s' sent' r => Q s' sent' r ∧ R s s') s sent x := by
  suffices H : ∀ s₀, R s₀ s → Guarantees R (fun s' sent' r => Q s' sent' r ∧ R s₀ s') s sent x from
    H s (refl s)
  induction x generalizing s sent with
  | done r => exact fun s₀ h₀ s' hs => ⟨h s' hs, trans _ _ _ h₀ hs⟩
  | step act next ih =>
    intro s₀ h₀ s' hs
    obtain ⟨hact, hrest⟩ := h s' hs
    exact ⟨hact, ih _ hrest s₀ (trans _ _ _ (trans _ _ _ h₀ hs) hact)⟩

/-- What has to hold after a block for what follows it. -/
def Before (R : σ → σ → Prop) (Q : σ → List ω → Except Err β → Prop) (f : α → Thread σ ω β)
    (s : σ) (sent : List ω) : Except Err α → Prop
  | .ok a => Guarantees R Q s sent (f a)
  | .error e => Q s sent (.error e)

theorem Guarantees.bind (refl : ∀ a, R a a) {Q : σ → List ω → Except Err β → Prop}
    {x : Thread σ ω α} {f : α → Thread σ ω β} (h : Guarantees R (Before R Q f) s sent x) :
    Guarantees R Q s sent (x >>= f) := by
  induction x generalizing s sent with
  | done r =>
    cases r with
    | ok a => exact h s (refl s)
    | error e => exact h
  | step act next ih =>
    intro s' hs
    exact ⟨(h s' hs).1, ih _ (h s' hs).2⟩

theorem Guarantees.self_bind (refl : ∀ a, R a a) {Q : σ → List ω → Except Err β → Prop}
    {f : σ → Thread σ ω β} (h : ∀ s', R s s' → Guarantees R Q s' sent (f s')) :
    Guarantees R Q s sent (self >>= f) :=
  fun s' hs => ⟨refl s', h s' hs⟩

theorem Guarantees.update_bind {Q : σ → List ω → Except Err β → Prop} {g : σ → σ}
    {f : Unit → Thread σ ω β}
    (h : ∀ s', R s s' → R s' (g s') ∧ Guarantees R Q (g s') sent (f ())) :
    Guarantees R Q s sent (update g >>= f) :=
  h

/-- A partial expression. -/
theorem Guarantees.expr_bind {Q : σ → List ω → Except Err β → Prop} {e : Err} {o : Option α}
    {f : α → Thread σ ω β} (hnone : o = none → ∀ s', R s s' → Q s' sent (.error e))
    (hsome : ∀ a, o = some a → Guarantees R Q s sent (f a)) :
    Guarantees R Q s sent (expr e o >>= f) := by
  cases o with
  | none => exact hnone rfl
  | some a => exact hsome a rfl

/-- A loop: `P` is about the passes that have been made, and lasts. -/
theorem Guarantees.forEach (refl : ∀ a, R a a) {P : List β → σ → Prop}
    {body : β → Thread σ ω Unit} {E : σ → List ω → Err → Prop} {l : List β} (h0 : P [] s)
    (hbody : ∀ done b rest, l = done ++ b :: rest → ∀ s, P done s → Guarantees R
      (fun s' sent' r => match r with
        | .ok () => P (done ++ [b]) s' ∧ sent' = sent
        | .error e => E s' sent' e) s sent (body b))
    (hlast : ∀ {s s'}, R s s' → P l s → P l s') :
    Guarantees R (fun s' sent' r => match r with
      | .ok () => P l s' ∧ sent' = sent
      | .error e => E s' sent' e) s sent (forEach l body) := by
  suffices H : ∀ rest done s, l = done ++ rest → P done s → Guarantees R
      (fun s' sent' r => match r with
        | .ok () => P l s' ∧ sent' = sent
        | .error e => E s' sent' e) s sent (Thread.forEach rest body) from H l [] s rfl h0
  intro rest
  induction rest with
  | nil =>
    intro done s hl hp s' hs
    rw [List.append_nil] at hl
    subst hl
    exact ⟨hlast hs hp, rfl⟩
  | cons b rest ih =>
    intro done s hl hp
    refine Guarantees.bind refl ((hbody done b rest hl s hp).mono ?_)
    rintro s' sent' (e | ⟨⟩) hr
    · exact hr
    · obtain ⟨hp', rfl⟩ := hr
      exact ih (done ++ [b]) s' (by rw [hl, List.append_assoc, List.singleton_append]) hp'

end Thread

/-! ## The handlers of a server -/

section Runs

variable {κ ρ σ ω α : Type} [DecidableEq κ] {prog : ρ → Thread σ ω α} {key : ρ → κ}
  {ok : ρ → Prop} {s₀ : σ} {p q : Pool κ ρ σ ω α} {R : σ → σ → Prop}
  {Q : ρ → σ → List ω → Except Err α → Prop}

/-- What is known of a pool that was reached from `p`: the handlers that `p` had in
progress keep `R`, and those that have started since will end with `Q`. -/
structure Relies (key : ρ → κ) (R : σ → σ → Prop) (Q : ρ → σ → List ω → Except Err α → Prop)
    (p q : Pool κ ρ σ ω α) : Prop where
  reached : R p.self q.self
  keys : ∀ k x, q.live k = some x → key x.request = k
  live : ∀ k x, q.live k = some x →
    Thread.Guarantees R (fun s sent r => p.live k = none → Q x.request s sent r) q.self x.sent
      x.rest
  finished : ∃ since, q.finished = p.finished ++ since ∧ ∀ x ∈ since, ∀ s, R q.self s →
    p.live (key x.request) = none → Q x.request s x.sent x.result

namespace Relies

omit [DecidableEq κ] in
theorem start (refl : ∀ a, R a a) (hkeys : ∀ k x, p.live k = some x → key x.request = k)
    (hlive : ∀ k x, p.live k = some x →
      Thread.Guarantees R (fun _ _ _ => True) p.self x.sent x.rest) : Relies key R Q p p := by
  refine ⟨refl _, hkeys, fun k x hx => ?_, [], (List.append_nil _).symm,
    fun x hx => absurd hx List.not_mem_nil⟩
  exact (hlive k x hx).mono (fun _ _ _ _ hnone => absurd (hnone.symm.trans hx) (by simp))

theorem accept (h : Relies key R Q p q) {r : ρ} {x : Thread σ ω α}
    (hx : Thread.Guarantees R (Q r) q.self [] x) :
    Relies key R Q p { q with live := Function.update q.live (key r) (some ⟨r, [], x⟩) } := by
  refine ⟨h.reached, forall_live_update h.keys (fun y hy => ?_),
    forall_live_update h.live (fun y hy => ?_), h.finished⟩
  · cases hy
    rfl
  · cases hy
    exact hx.mono (fun _ _ _ hQ _ => hQ)

/-- The handler that takes a statement keeps `R`, so that the others have what they rely
on. -/
theorem move (refl : ∀ a, R a a) (trans : ∀ a b c, R a b → R b c → R a c)
    (h : Relies key R Q p q) {k : κ} {r : ρ} {sent : List ω} {act : Frame σ ω → Frame σ ω}
    {next : Frame σ ω → Thread σ ω α} (hk : q.live k = some ⟨r, sent, .step act next⟩) :
    Relies key R Q p { q with
      self := (act ⟨q.self, sent⟩).self
      live := Function.update q.live k
        (some ⟨r, (act ⟨q.self, sent⟩).sent, next ⟨q.self, sent⟩⟩) } := by
  obtain ⟨hact, hrest⟩ := h.live k ⟨r, sent, .step act next⟩ hk q.self (refl q.self)
  obtain ⟨since, hsince, hQ⟩ := h.finished
  refine ⟨trans _ _ _ h.reached hact, forall_live_update h.keys (fun y hy => ?_),
    forall_live_update (fun j y hy => (h.live j y hy).later trans hact) (fun y hy => ?_),
    since, hsince, fun y hy s hs => hQ y hy s (trans _ _ _ hact hs)⟩
  · cases hy
    exact h.keys k ⟨r, sent, .step act next⟩ hk
  · cases hy
    exact hrest

theorem finish (h : Relies key R Q p q) {k : κ} {r : ρ} {sent : List ω} {res : Except Err α}
    (hk : q.live k = some ⟨r, sent, .done res⟩) :
    Relies key R Q p { q with
      live := Function.update q.live k none
      finished := q.finished ++ [⟨r, sent, res⟩] } := by
  obtain ⟨since, hsince, hQ⟩ := h.finished
  refine ⟨h.reached, forall_live_update h.keys (fun y hy => ?_),
    forall_live_update h.live (fun y hy => ?_), since ++ [⟨r, sent, res⟩], ?_,
    fun y hy s hs hnone => ?_⟩
  · cases hy
  · cases hy
  · rw [← List.append_assoc, ← hsince]
  · rcases List.mem_append.1 hy with hy | hy
    · exact hQ y hy s hs hnone
    · rw [List.mem_singleton.1 hy] at hnone ⊢
      have hkey : key r = k := h.keys k ⟨r, sent, .done res⟩ hk
      exact h.live k ⟨r, sent, .done res⟩ hk s hs (hkey ▸ hnone)

end Relies

/-- **Rely and guarantee.** If the handlers in progress keep `R`, and the handler of every
request keeps it as well and ends with `Q`, from every object that `R` leads to, then `R`
leads to the object of each later pool, and the handlers that have started and finished
since have their `Q` from then on. -/
theorem Continues.rely (refl : ∀ a, R a a) (trans : ∀ a b c, R a b → R b c → R a c)
    (hkeys : ∀ k x, p.live k = some x → key x.request = k)
    (hlive : ∀ k x, p.live k = some x →
      Thread.Guarantees R (fun _ _ _ => True) p.self x.sent x.rest)
    (hprog : ∀ r, ok r → ∀ s, R p.self s → Thread.Guarantees R (Q r) s [] (prog r))
    (h : Continues prog key ok p q) : Relies key R Q p q := by
  induction h with
  | start => exact .start refl hkeys hlive
  | accept h r hr hfree ih => exact ih.accept (hprog r hr _ ih.reached)
  | move h hk ih => exact ih.move refl trans hk
  | finish h hk ih => exact ih.finish hk

/-- The same from the start of a server: the handlers in progress keep `R` too. -/
theorem Runs.rely (refl : ∀ a, R a a) (trans : ∀ a b c, R a b → R b c → R a c)
    (hprog : ∀ r, ok r → ∀ s, R s₀ s → Thread.Guarantees R (Q r) s [] (prog r))
    (h : Runs prog key ok s₀ p) :
    R s₀ p.self ∧ (∀ k x, p.live k = some x → key x.request = k ∧
      Thread.Guarantees R (fun _ _ _ => True) p.self x.sent x.rest) ∧
    ∀ x ∈ p.finished, ∀ s, R p.self s → Q x.request s x.sent x.result := by
  have hrelies := Continues.rely refl trans (fun _ _ hx => absurd hx (by simp))
    (fun _ _ hx => absurd hx (by simp)) hprog h
  obtain ⟨since, hsince, hQ⟩ := hrelies.finished
  refine ⟨hrelies.reached, fun k x hx => ⟨hrelies.keys k x hx,
    (hrelies.live k x hx).mono (fun _ _ _ _ => trivial)⟩, fun x hx s hs => ?_⟩
  rw [hsince] at hx
  exact hQ x hx s hs rfl

end Runs

end Py
