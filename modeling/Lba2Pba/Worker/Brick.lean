import Lba2Pba.Run.Prefix
import Lba2Pba.Worker.Sender

/-!
# One brick

A brick with its monitor and the one sender of the Worker, acting in any order: an
event comes in, the sender takes a snapshot of the queue, sends the next item or
removes the item it has sent. The history records the scan, the events and the
requests, in their order, so that what was reported last can be compared with what
happened last.
-/

namespace Lba2Pba.Worker

open Py

/-- What has happened: a file reported by the scan, an event, a request sent to Trace. -/
inductive Act
  | scanned (file : FilePBA)
  | event (k : Kind) (path : String)
  | sent (r : TChangeRequest)

/-- The sender is `none` once an exception has ended it. -/
structure Brick where
  mon : BrickMonitor
  sender : Option Sender
  history : List Act

inductive Step
  | event (k : Kind) (path : String) (now : Rat)
  | snapshot
  | send
  | remove

namespace Brick

/-- After `WInit`: the scan is reported, the monitor and the sender have started. -/
def start (excludes : List String) (volume : Volume) (scan : List FilePBA) : Brick :=
  ⟨.new excludes volume, some .idle, scan.map .scanned⟩

/-- One step. What is read from the disk depends on all that has happened to it. A step
that the sender is not ready for changes nothing. -/
def step (env : List Act → Env) (b : Brick) : Step → Brick
  | .event k path now =>
    { b with mon := b.mon.handle k now path, history := b.history ++ [.event k path] }
  | .snapshot => { b with sender := b.sender.map (·.snapshot b.mon.brick) }
  | .send =>
    match b.sender with
    | none => b
    | some s =>
      match s.send (env b.history) with
      | .error _ => { b with sender := none }
      | .ok (s', r) => { b with sender := some s', history := b.history ++ r.toList.map .sent }
  | .remove =>
    match b.sender with
    | none => b
    | some s =>
      match s.remove b.mon.brick with
      | .error _ => { b with sender := none }
      | .ok (s', queue) => { b with sender := some s', mon := { b.mon with brick := queue } }

def run (env : List Act → Env) (b : Brick) (l : List Step) : Brick := l.foldl (step env) b

/-- The path whose item is sent and not yet removed. -/
def inFlight (b : Brick) : Option String :=
  b.sender.bind fun s => if s.sent then s.rest.head?.map Prod.fst else none

/-- The queue is empty and no send is in progress. -/
def Quiet (b : Brick) : Prop := b.mon.brick.items = [] ∧ b.inFlight = none

theorem Quiet.get? {b : Brick} (h : b.Quiet) (p : String) : b.mon.brick.get? p = none := by
  rw [Dict.get?_eq_none_iff, Dict.keys, h.1]
  exact List.not_mem_nil

end Brick

/-- An event of one of these kinds on a path that the monitor accepts, or a step of the
sender. -/
def Step.Of (kinds : List Kind) (mon : BrickMonitor) : Step → Prop
  | .event k path _ => k ∈ kinds ∧ mon.accepts path = true
  | _ => True

instance (kinds : List Kind) (mon : BrickMonitor) : ∀ x, Decidable (Step.Of kinds mon x)
  | .event k path _ => inferInstanceAs (Decidable (k ∈ kinds ∧ mon.accepts path = true))
  | .snapshot => inferInstanceAs (Decidable True)
  | .send => inferInstanceAs (Decidable True)
  | .remove => inferInstanceAs (Decidable True)

theorem Step.Of.of_excludes {kinds : List Kind} {mon mon' : BrickMonitor} {x : Step}
    (h : x.Of kinds mon) (he : mon'.excludes = mon.excludes) : x.Of kinds mon' := by
  cases x with
  | event k path now =>
    refine ⟨h.1, ?_⟩
    rw [BrickMonitor.accepts, BrickMonitor.isExcluded, he]
    exact h.2
  | snapshot => trivial
  | send => trivial
  | remove => trivial

/-! ## What a step does -/

/-- The sender runs, on items of the queue that all have the monitor's form. -/
structure Running (b : Brick) (s : Sender) : Prop where
  sender : b.sender = some s
  queued : ∀ x ∈ s.rest, b.mon.brick.get? x.1 = some x.2
  nodup : (s.rest.map Prod.fst).Nodup
  entries : ∀ {p d}, b.mon.brick.get? p = some d → ∃ k : Kind, d = b.mon.data k.action

/-- The steps of a brick whose sender runs. -/
inductive Next (env : List Act → Env) (b : Brick) (s : Sender) : Step → Brick → Sender → Prop
  | event (k : Kind) (path : String) (now : Rat) :
    Next env b s (.event k path now)
      { b with mon := b.mon.handle k now path, history := b.history ++ [.event k path] } s
  | wait (x : Step) : Next env b s x b s
  | snapshot (hs : s.rest = []) :
    Next env b s .snapshot { b with sender := some ⟨b.mon.brick.items, false⟩ }
      ⟨b.mon.brick.items, false⟩
  | send (p : String) (k : Kind) (rest : List (String × String))
    (hs : s = ⟨(p, b.mon.data k.action) :: rest, false⟩) :
    Next env b s .send
      { b with
        sender := some ⟨(p, b.mon.data k.action) :: rest, true⟩
        history := b.history ++ [.sent (request (env b.history) b.mon.volume p k)] }
      ⟨(p, b.mon.data k.action) :: rest, true⟩
  | remove (p : String) (k : Kind) (rest : List (String × String))
    (hs : s = ⟨(p, b.mon.data k.action) :: rest, true⟩) :
    Next env b s .remove
      { b with
        sender := some ⟨rest, false⟩
        mon := { b.mon with brick := b.mon.brick.erase p } } ⟨rest, false⟩

theorem Next.excludes {env : List Act → Env} {b b' : Brick} {s s' : Sender} {x : Step}
    (h : Next env b s x b' s') : b'.mon.excludes = b.mon.excludes := by
  cases h with
  | event k path now => exact (b.mon.handle_config k now path).1
  | wait x => rfl
  | snapshot hs => rfl
  | send p k rest hs => rfl
  | remove p k rest hs => rfl

theorem running_start (excludes : List String) (volume : Volume) (scan : List FilePBA) :
    Running (.start excludes volume scan) .idle := by
  refine ⟨rfl, ?_, List.nodup_nil, ?_⟩
  · intro x hx
    cases hx
  · intro p d hd
    cases hd

namespace Running

variable {env : List Act → Env} {b : Brick} {s : Sender}

theorem head_queued (h : Running b s) {x : String × String} {rest : List (String × String)}
    {sent : Bool} (hs : s = ⟨x :: rest, sent⟩) : b.mon.brick.get? x.1 = some x.2 := by
  apply h.queued
  rw [hs]
  exact List.mem_cons_self

theorem step_event (h : Running b s) {k : Kind} {path : String} (now : Rat)
    (ha : b.mon.accepts path = true) : Running (b.step env (.event k path now)) s := by
  have hbrick := BrickMonitor.handle_brick ha k now
  refine ⟨h.sender, ?_, h.nodup, ?_⟩
  · intro x hx
    have hold := h.queued x hx
    show (b.mon.handle k now path).brick.get? x.1 = some x.2
    rw [hbrick]
    split
    · rename_i hins
      rw [Dict.get?_set_of_ne, hold]
      rintro rfl
      rw [Bool.and_eq_true, Bool.not_eq_true', Dict.contains_eq_false, hold] at hins
      cases hins.2
    · exact hold
  · intro p d hd
    simp only [Brick.step, BrickMonitor.handle_data] at hd ⊢
    rw [hbrick] at hd
    split at hd
    · rw [Dict.get?_set] at hd
      split at hd
      · exact ⟨k, (Option.some.inj hd).symm⟩
      · exact h.entries hd
    · exact h.entries hd

/-- The item that has been sent is removed. -/
theorem removed (h : Running b s) {p d : String} {rest : List (String × String)}
    (hs : s = ⟨(p, d) :: rest, true⟩) :
    Running { b with
      sender := some ⟨rest, false⟩
      mon := { b.mon with brick := b.mon.brick.erase p } } ⟨rest, false⟩ := by
  subst hs
  have hn := h.nodup
  rw [List.map_cons, List.nodup_cons] at hn
  refine ⟨rfl, ?_, hn.2, ?_⟩
  · intro x hx
    have hne : p ≠ x.1 := by
      intro he
      exact hn.1 (List.mem_map.2 ⟨x, hx, he.symm⟩)
    show (b.mon.brick.erase p).get? x.1 = some x.2
    rw [Dict.get?_erase, if_neg hne]
    exact h.queued x (List.mem_cons_of_mem _ hx)
  · intro q d hd
    exact h.entries (Dict.get?_of_erase hd)

/-- **What a step can do**, and that the sender is still running after it. -/
theorem next (h : Running b s) {x : Step} {kinds : List Kind} (hx : x.Of kinds b.mon) :
    ∃ s', Next env b s x (b.step env x) s' ∧ Running (b.step env x) s' := by
  have hkept : b.step env x = b → ∃ s', Next env b s x (b.step env x) s' ∧
      Running (b.step env x) s' := by
    intro he
    rw [he]
    exact ⟨s, .wait x, h⟩
  obtain ⟨rest, sent⟩ := s
  cases x with
  | event k path now => exact ⟨_, .event k path now, h.step_event now hx.2⟩
  | snapshot =>
    cases rest with
    | nil =>
      have he : b.step env .snapshot =
          { b with sender := some ⟨b.mon.brick.items, false⟩ } := by
        simp only [Brick.step, h.sender, Option.map_some, Sender.snapshot]
      rw [he]
      refine ⟨_, .snapshot rfl, rfl, ?_, b.mon.brick.nodupKeys, h.entries⟩
      intro x hx
      exact Dict.mem_items_iff.1 hx
    | cons x rest =>
      apply hkept
      simp only [Brick.step, h.sender, Option.map_some, Sender.snapshot]
      rw [← h.sender]
  | send =>
    cases rest with
    | nil =>
      apply hkept
      simp only [Brick.step, h.sender, Sender.send, pure, Except.pure, Option.toList_none,
        List.map_nil, List.append_nil]
      rw [← h.sender]
    | cons y rest =>
      obtain ⟨p, d⟩ := y
      obtain ⟨k, rfl⟩ := h.entries (h.queued _ List.mem_cons_self)
      cases sent with
      | true =>
        apply hkept
        simp only [Brick.step, h.sender, Sender.send, pure, Except.pure, Option.toList_none,
          List.map_nil, List.append_nil]
        rw [← h.sender]
      | false =>
        have he := send_data (env b.history) b.mon.volume p k rest
        simp only [Brick.step, h.sender, BrickMonitor.data, he, Option.toList_some,
          List.map_cons, List.map_nil]
        exact ⟨_, .send p k rest rfl, rfl, h.queued, h.nodup, h.entries⟩
  | remove =>
    cases rest with
    | nil =>
      apply hkept
      simp only [Brick.step, h.sender, Sender.remove]
      rw [← h.sender]
    | cons y rest =>
      obtain ⟨p, d⟩ := y
      have hp := h.queued _ List.mem_cons_self
      obtain ⟨k, rfl⟩ := h.entries hp
      cases sent with
      | false =>
        apply hkept
        simp only [Brick.step, h.sender, Sender.remove]
        rw [← h.sender]
      | true =>
        have hc : b.mon.brick.contains p = true := Dict.contains_iff.2 ⟨_, hp⟩
        simp only [Brick.step, h.sender, Sender.remove, hc, if_true]
        exact ⟨_, .remove p k rest rfl, h.removed rfl⟩

end Running

/-- The run rule: an invariant of running bricks that every step under a condition keeps
holds after every prefix of a run whose steps all meet the condition. -/
theorem run_invariant {env : List Act → Env} {excludes : List String} {volume : Volume}
    {scan : List FilePBA} {kinds : List Kind} {I : Brick → Sender → Prop}
    {ok : Brick → Step → Prop} (hrun : ∀ {b s}, I b s → Running b s)
    (hstep : ∀ {b s x}, I b s → x.Of kinds b.mon → ok b x → ∃ s', I (b.step env x) s')
    (h0 : I (.start excludes volume scan) .idle) {l : List Step}
    (hl : ∀ x ∈ l, x.Of kinds (.new excludes volume))
    (hok : Run.Along (Brick.step env) ok (.start excludes volume scan) l) :
    ∀ l', l' <+: l → ∃ s, I ((Brick.start excludes volume scan).run env l') s := by
  have hkeep : ∀ (b : Brick) (x : Step), (∃ s, I b s ∧ b.mon.excludes = excludes) →
      ok b x ∧ x.Of kinds (.new excludes volume) →
      ∃ s, I (b.step env x) s ∧ (b.step env x).mon.excludes = excludes := by
    rintro b x ⟨s, hs, he⟩ ⟨hokx, hx⟩
    have hof : x.Of kinds b.mon := hx.of_excludes he
    obtain ⟨s', hs'⟩ := hstep hs hof hokx
    obtain ⟨_, hnext, -⟩ := (hrun hs).next hof
    exact ⟨s', hs', hnext.excludes.trans he⟩
  have hall := (hok.and_forall hl).invariant hkeep ⟨.idle, h0, rfl⟩
  intro l' hp
  obtain ⟨s, hs, -⟩ := hall l' hp
  exact ⟨s, hs⟩

end Lba2Pba.Worker
