import Lba2Pba.Manager.Start
import Lba2Pba.Run.Keyed
import Lba2Pba.Trace.Startup

/-!
# Subscriptions

The managers register with Trace (`TRegister`, `TDeregister`), and the agents with the
Manager (`RegisterQA`, `DeregisterQA`), which keeps a list for each PVC. A list can hold
an address many times, and each removal rebuilds it from a set. `BehavesAsSet` is what
the lists are meant to be: an address is listed at its own place, and exactly if the
last call that names it is a registration.
-/

namespace Lba2Pba

open Py

/-- A call of a subscriber. A removal comes with the order in which it lists the set. -/
inductive Subscription (κ : Type)
  | register (addr : κ)
  | deregister (addr : κ) (order : SetOrder String)

namespace Subscription

variable {κ : Type}

def addr : Subscription κ → κ
  | register a => a
  | deregister a _ => a

def registers : Subscription κ → Bool
  | register _ => true
  | deregister _ _ => false

/-- The last of the calls that name the address is a registration. -/
def lastRegisters [DecidableEq κ] (calls : List (Subscription κ)) (a : κ) : Bool :=
  ((calls.filter (fun c => decide (c.addr = a))).getLast?.map registers).getD false

end Subscription

open Subscription

/-! ## What the lists are for -/

section Sets

variable {σ κ ρ : Type} [DecidableEq κ] [DecidableEq ρ]

/-- The lists of a service behave as sets. `lists s p a` says that the list at the place
`p` has the address `a`, and `home a` is where it belongs. -/
structure BehavesAsSet (call : Subscription κ → σ → Except Err Unit × σ)
    (lists : σ → ρ → κ → Prop) (home : κ → ρ) (s₀ : σ) : Prop where
  last : ∀ calls p a, lists (calls.foldl (fun s c => (call c s).2) s₀) p a ↔
    p = home a ∧ lastRegisters calls a = true
  absent : ∀ s a order, ¬ lists s (home a) a →
    ∃ e, call (.deregister a order) s = (.error e, s)
  others : ∀ s c p a, c.addr ≠ a → (lists (call c s).2 p a ↔ lists s p a)

/-- One step is enough: a call sets what is listed at the home of its address, and it
leaves everything else as it is. -/
theorem BehavesAsSet.of_step {call : Subscription κ → σ → Except Err Unit × σ}
    {lists : σ → ρ → κ → Prop} [∀ s p a, Decidable (lists s p a)] {home : κ → ρ} {s₀ : σ}
    (h0 : ∀ p a, ¬ lists s₀ p a)
    (hstep : ∀ s c p a, lists (call c s).2 p a ↔
      if (home c.addr, c.addr) = (p, a) then c.registers = true else lists s p a)
    (habsent : ∀ s a order, ¬ lists s (home a) a →
      ∃ e, call (.deregister a order) s = (.error e, s)) :
    BehavesAsSet call lists home s₀ := by
  have hkeyed : Run.Keyed (fun s c => (call c s).2) (fun s k => decide (lists s k.1 k.2))
      (fun c => (home c.addr, c.addr)) (fun c _ => c.registers) (fun _ => True)
      (fun _ => True) := by
    refine ⟨fun _ _ => trivial, fun {s c} _ _ k => ?_⟩
    by_cases hk : (home c.addr, c.addr) = k
    · simp [hstep, hk]
    · simp [hstep, hk]
  refine ⟨fun calls p a => ?_, habsent, fun s c p a hne => ?_⟩
  · have hlast := hkeyed.view_foldl_last (s := s₀) (l := calls) trivial (fun _ _ => trivial) (p, a)
    simp only [h0, decide_false, Prod.mk.injEq] at hlast
    rw [← decide_eq_true_iff (p := lists _ p a), hlast]
    by_cases hp : p = home a
    · subst hp
      have hsame : (fun c : Subscription κ => decide (home c.addr = home a ∧ c.addr = a)) =
          fun c => decide (c.addr = a) := by
        funext c
        by_cases hc : c.addr = a <;> simp [hc]
      rw [hsame]
      simp [lastRegisters]
    · have hnone : calls.filter (fun c => decide (home c.addr = p ∧ c.addr = a)) = [] := by
        rw [List.filter_eq_nil_iff]
        intro c _ hc
        obtain ⟨hh, ha⟩ := of_decide_eq_true hc
        exact hp (by rw [← hh, ha])
      rw [hnone]
      simp [hp]
  · rw [hstep, if_neg (fun h => hne (Prod.mk.inj h).2)]

end Sets

/-! ## Trace -/

namespace Trace

/-- `TDeregister(addr)`. -/
def tDeregister (order : SetOrder String) (addr : String) : Handler Unit := do
  let t ← Exec.self
  match order.without addr t.agent with
  | .error e => Exec.raise e
  | .ok agents => Exec.update (fun t => { t with agent := agents })

/-- A subscription call and the object after it. -/
def subscribe (c : Subscription String) (t : Trace) : Except Err Unit × Trace :=
  let out := match c with
    | .register addr => (Exec.update (tRegister addr) : Handler Unit).run ⟨t, []⟩
    | .deregister addr order => (tDeregister order addr).run ⟨t, []⟩
  (out.1, out.2.self)

theorem subscribe_absent {t : Trace} {addr : String} (h : addr ∉ t.agent)
    (order : SetOrder String) :
    t.subscribe (.deregister addr order) = (.error .valueError, t) := by
  simp only [subscribe, tDeregister, Exec.run_self_bind, SetOrder.without_of_not_mem h,
    Exec.run_raise]

theorem subscribe_present {t : Trace} {addr : String} (h : addr ∈ t.agent)
    (order : SetOrder String) :
    ∃ agents, t.subscribe (.deregister addr order) = (.ok (), { t with agent := agents }) ∧
      ∀ b, b ∈ agents ↔ b ≠ addr ∧ b ∈ t.agent := by
  obtain ⟨agents, hw, hmem⟩ := order.without_of_mem h
  refine ⟨agents, ?_, hmem⟩
  simp only [subscribe, tDeregister, Exec.run_self_bind, hw, Exec.run_update]

theorem mem_subscribe (t : Trace) (c : Subscription String) (b : String) :
    b ∈ (t.subscribe c).2.agent ↔ if c.addr = b then c.registers = true else b ∈ t.agent := by
  cases c with
  | register addr =>
    have hreg : (t.subscribe (.register addr)).2.agent = t.agent ++ [addr] := rfl
    rw [hreg, List.mem_append, List.mem_singleton]
    by_cases hb : addr = b
    · simp [Subscription.addr, registers, hb]
    · simp [Subscription.addr, hb, Ne.symm hb]
  | deregister addr order =>
    by_cases h : addr ∈ t.agent
    · obtain ⟨agents, hs, hmem⟩ := subscribe_present h order
      rw [hs]
      show b ∈ agents ↔ _
      rw [hmem]
      by_cases hb : addr = b
      · simp [Subscription.addr, registers, hb]
      · simp [Subscription.addr, hb, Ne.symm hb]
    · rw [subscribe_absent h]
      by_cases hb : addr = b
      · subst hb
        simp [Subscription.addr, registers, h]
      · simp [Subscription.addr, hb]

/-- The call returns in the states that `TDeregister` relates. -/
theorem tDeregister_iff {t t' : Trace} {addr : String} :
    TDeregister addr t t' ↔
      ∃ order, t.subscribe (.deregister addr order) = (.ok (), t') := by
  constructor
  · rintro ⟨hmem, agents, hperm, rfl⟩
    obtain ⟨order, hw⟩ := SetOrder.exists_without_iff.2 ⟨hmem, hperm⟩
    refine ⟨order, ?_⟩
    simp only [subscribe, tDeregister, Exec.run_self_bind, hw, Exec.run_update]
  · rintro ⟨order, h⟩
    simp only [subscribe, tDeregister, Exec.run_self_bind] at h
    cases hw : order.without addr t.agent with
    | error e =>
      rw [hw] at h
      cases h
    | ok agents =>
      rw [hw] at h
      cases h
      obtain ⟨hmem, hperm⟩ := SetOrder.exists_without_iff.1 ⟨order, hw⟩
      exact ⟨hmem, agents, hperm, rfl⟩

end Trace

/-! ## The Manager -/

/-- An address `ip:port`. -/
structure Addr where
  ip : String
  port : String
  ip_colon : ':' ∉ ip.toList
  port_colon : ':' ∉ port.toList
deriving DecidableEq

namespace Addr

def text (a : Addr) : String := a.ip ++ ":" ++ a.port

theorem splitAddr_text (a : Addr) : Manager.splitAddr a.text = .ok (a.ip, a.port) := by
  have hsep : (":" : String).toList = [':'] := rfl
  rw [Manager.splitAddr, text, Str.split_append hsep a.ip_colon,
    Str.split_of_not_mem hsep a.port_colon]

theorem text_injective {a b : Addr} (h : a.text = b.text) : a = b := by
  have hs := splitAddr_text a
  rw [h, splitAddr_text b] at hs
  obtain ⟨hip, hport⟩ := Prod.mk.inj (Except.ok.inj hs)
  cases a
  cases b
  simp_all

end Addr

namespace Manager

/-- `DeregisterQA(addr)`. -/
def deregisterQA (env : Env) (order : SetOrder String) (addr : String) : Handler Unit := do
  let m ← Exec.self
  match splitAddr addr with
  | .error e => Exec.raise e
  | .ok (ip, port) =>
    let pvc := env.getPVC ip
    match m.QAs.get? pvc with
    | none => Exec.raise .keyError
    | some registered =>
      match order.without (ip ++ ":" ++ port) registered with
      | .error e => Exec.raise e
      | .ok agents => Exec.update (fun m => { m with QAs := m.QAs.set pvc agents })

/-- A subscription call and the object after it. -/
def subscribe (env : Env) (c : Subscription Addr) (m : Manager) : Except Err Unit × Manager :=
  let out := match c with
    | .register a => (Exec.attempt (registerQA env a.text) : Handler Unit).run ⟨m, []⟩
    | .deregister a order => (deregisterQA env order a.text).run ⟨m, []⟩
  (out.1, out.2.self)

variable {env : Env} {m : Manager} {a : Addr}

theorem subscribe_register (env : Env) (m : Manager) (a : Addr) :
    m.subscribe env (.register a) = (.ok (), m.addAgent (env.getPVC a.ip) a.text) := by
  simp only [subscribe, Exec.attempt, registerQA, a.splitAddr_text]
  rfl

theorem subscribe_absent (h : a.text ∉ m.agents (env.getPVC a.ip)) (order : SetOrder String) :
    ∃ e, m.subscribe env (.deregister a order) = (.error e, m) := by
  simp only [subscribe, deregisterQA, Exec.run_self_bind, a.splitAddr_text]
  cases hq : m.QAs.get? (env.getPVC a.ip) with
  | none => exact ⟨.keyError, rfl⟩
  | some registered =>
    have hmem : a.text ∉ registered := by simpa [agents, hq] using h
    have hw : order.without (a.ip ++ ":" ++ a.port) registered = .error .valueError :=
      SetOrder.without_of_not_mem hmem
    simp only [hw]
    exact ⟨.valueError, rfl⟩

theorem subscribe_present (h : a.text ∈ m.agents (env.getPVC a.ip)) (order : SetOrder String) :
    ∃ rest, m.subscribe env (.deregister a order) =
        (.ok (), { m with QAs := m.QAs.set (env.getPVC a.ip) rest }) ∧
      ∀ b, b ∈ rest ↔ b ≠ a.text ∧ b ∈ m.agents (env.getPVC a.ip) := by
  simp only [subscribe, deregisterQA, Exec.run_self_bind, a.splitAddr_text]
  cases hq : m.QAs.get? (env.getPVC a.ip) with
  | none => simp [agents, hq] at h
  | some registered =>
    have hreg : m.agents (env.getPVC a.ip) = registered := by simp [agents, hq]
    rw [hreg] at h ⊢
    obtain ⟨rest, hw, hmem⟩ := order.without_of_mem h
    have hw' : order.without (a.ip ++ ":" ++ a.port) registered = .ok rest := hw
    refine ⟨rest, ?_, hmem⟩
    simp only [hw']
    rfl

/-- The call returns in the states that `DeregisterQA` relates. -/
theorem deregisterQA_iff {m' : Manager} : DeregisterQA env a.text m m' ↔
    ∃ order, m.subscribe env (.deregister a order) = (.ok (), m') := by
  constructor
  · rintro ⟨ip, port, registered, hsplit, hq, hmem, agents, hperm, rfl⟩
    obtain ⟨order, hw⟩ := SetOrder.exists_without_iff.2 ⟨hmem, hperm⟩
    refine ⟨order, ?_⟩
    simp only [subscribe, deregisterQA, Exec.run_self_bind, hsplit, hq, hw, Exec.run_update]
  · rintro ⟨order, h⟩
    simp only [subscribe, deregisterQA, Exec.run_self_bind, a.splitAddr_text] at h
    cases hq : m.QAs.get? (env.getPVC a.ip) with
    | none =>
      rw [hq] at h
      cases h
    | some registered =>
      cases hw : order.without (a.ip ++ ":" ++ a.port) registered with
      | error e =>
        simp only [hq, hw] at h
        cases h
      | ok agents =>
        simp only [hq, hw] at h
        cases h
        obtain ⟨hmem, hperm⟩ := SetOrder.exists_without_iff.1 ⟨order, hw⟩
        exact ⟨a.ip, a.port, registered, a.splitAddr_text, hq, hmem, agents, hperm, rfl⟩

theorem mem_subscribe (m : Manager) (c : Subscription Addr) (p : String) (b : Addr) :
    b.text ∈ (m.subscribe env c).2.agents p ↔
      if (env.getPVC c.addr.ip, c.addr) = (p, b) then c.registers = true
      else b.text ∈ m.agents p := by
  -- the list of another PVC is not touched
  have hset : ∀ (q : String) (rest : List String),
      ({ m with QAs := m.QAs.set q rest } : Manager).agents p =
        if q = p then rest else m.agents p := by
    intro q rest
    by_cases hq : q = p
    · subst hq
      simp [agents]
    · simp [agents, Dict.get?_set_of_ne _ hq, hq]
  cases c with
  | register a =>
    rw [subscribe_register]
    show b.text ∈ (addAgent _ _ m).agents p ↔ _
    rw [addAgent, hset]
    by_cases hp : env.getPVC a.ip = p
    · subst hp
      by_cases hb : a = b
      · simp [Subscription.addr, registers, hb]
      · have htext : b.text ≠ a.text := fun h => hb (Addr.text_injective h).symm
        simp [Subscription.addr, hb, htext]
    · simp [Subscription.addr, hp]
  | deregister a order =>
    by_cases h : a.text ∈ m.agents (env.getPVC a.ip)
    · obtain ⟨rest, hs, hmem⟩ := subscribe_present h order
      rw [hs]
      show b.text ∈ ({ m with QAs := m.QAs.set _ rest } : Manager).agents p ↔ _
      rw [hset]
      by_cases hp : env.getPVC a.ip = p
      · subst hp
        rw [if_pos rfl, hmem]
        by_cases hb : a = b
        · simp [Subscription.addr, registers, hb]
        · have htext : b.text ≠ a.text := fun h => hb (Addr.text_injective h).symm
          simp [Subscription.addr, hb, htext]
      · simp [Subscription.addr, hp]
    · obtain ⟨e, hs⟩ := subscribe_absent h order
      rw [hs]
      by_cases hb : (env.getPVC a.ip, a) = (p, b)
      · obtain ⟨rfl, rfl⟩ := Prod.mk.inj hb
        simp [Subscription.addr, registers, h]
      · simp [Subscription.addr, hb]

end Manager

/-- **Subscription lists behave as sets**, on objects whose lists are empty as the
constructors leave them. Trace has one list, the Manager one for each PVC. -/
theorem subscriptions_behave_as_sets (t₀ : Trace) (ht : t₀.agent = []) (m₀ : Manager)
    (hm : m₀.QAs = ∅) (env : Manager.Env) :
    BehavesAsSet Trace.subscribe (fun t (_ : Unit) a => a ∈ t.agent) (fun _ => ()) t₀ ∧
      BehavesAsSet (Manager.subscribe env) (fun m p a => a.text ∈ m.agents p)
        (fun a => env.getPVC a.ip) m₀ := by
  constructor
  · refine .of_step (fun p a => ?_) (fun t c p a => ?_) (fun t a order h => ?_)
    · simp [ht]
    · simpa using t.mem_subscribe c a
    · exact ⟨_, Trace.subscribe_absent h order⟩
  · refine .of_step (fun p a => ?_) (fun m c p a => m.mem_subscribe c p a)
      (fun m a order h => Manager.subscribe_absent h order)
    simp [Manager.agents, hm]

/-- A Trace without peers and a Manager without files. -/
theorem subscriptions_behave_as_sets_start :
    BehavesAsSet Trace.subscribe (fun t (_ : Unit) a => a ∈ t.agent) (fun _ => ())
        ⟨[], ∅, ∅, ∅⟩ ∧
      BehavesAsSet (Manager.subscribe Manager.quiet) (fun m p a => a.text ∈ m.agents p)
        (fun a => Manager.quiet.getPVC a.ip) Manager.noFiles :=
  subscriptions_behave_as_sets ⟨[], ∅, ∅, ∅⟩ rfl Manager.noFiles rfl Manager.quiet

end Lba2Pba
