import Lba2Pba.Worker.Existence

/-!
# The extents last reported

A file's extents are read by the scan and again by every send but that of a deletion.
An event that does not lead to a later reading leaves the reported extents stale: a
modification of a file whose creation the monitor has not seen, or has seen less than
a second ago, is not queued, and an event whose item is just in flight is dropped
although the extents were read before it.
-/

namespace Lba2Pba.Worker

open Py

/-- An event of the path has come since its extents were last read. -/
def staleAfter (p : String) : Bool → Act → Bool
  | e, .scanned file => if file.fileName = p then false else e
  | e, .event _ q => if q = p then true else e
  | e, .sent r => if r.filePba.fileName = p ∧ r.action ≠ "delete" then false else e

def Brick.Stale (b : Brick) (p : String) : Prop := b.history.foldl (staleAfter p) false = true

instance (b : Brick) (p : String) : Decidable (b.Stale p) := inferInstanceAs (Decidable (_ = _))

/-- The event leads to a reading: the item of its path is not in flight, and if there
is no item, the handler queues one. -/
def Noticed (b : Brick) : Step → Prop
  | .event k p now =>
    b.inFlight ≠ some p ∧ (b.mon.brick.get? p = none → b.mon.passes k now p = true)
  | _ => True

instance (b : Brick) : ∀ x, Decidable (Noticed b x)
  | .event k p now => inferInstanceAs (Decidable
      (b.inFlight ≠ some p ∧ (b.mon.brick.get? p = none → b.mon.passes k now p = true)))
  | .snapshot => inferInstanceAs (Decidable True)
  | .send => inferInstanceAs (Decidable True)
  | .remove => inferInstanceAs (Decidable True)

section History

variable {b : Brick} {mon : BrickMonitor} {sender : Option Sender} {p : String}

theorem stale_event (k : Kind) (q : String) :
    Brick.Stale ⟨mon, sender, b.history ++ [.event k q]⟩ p ↔ q = p ∨ b.Stale p := by
  simp only [Brick.Stale, List.foldl_append, List.foldl_cons, List.foldl_nil, staleAfter]
  split
  · rename_i hqp
    simp [hqp]
  · rename_i hqp
    simp [hqp]

theorem stale_sent (env : Env) (volume : Volume) (q : String) {k : Kind} (hk : k ≠ .deleted) :
    Brick.Stale ⟨mon, sender, b.history ++ [.sent (request env volume q k)]⟩ p ↔
      q ≠ p ∧ b.Stale p := by
  have ha : (request env volume q k).action ≠ "delete" := fun h => hk (Kind.action_eq_delete.1 h)
  simp only [Brick.Stale, List.foldl_append, List.foldl_cons, List.foldl_nil, staleAfter,
    ha, ne_eq, not_false_eq_true, and_true]
  by_cases hqp : q = p
  · simp [request, hqp]
  · simp [request, hqp]

theorem not_stale_start (excludes : List String) (volume : Volume) (scan : List FilePBA) :
    ¬ (Brick.start excludes volume scan).Stale p := by
  have hfold : (scan.map Act.scanned).foldl (staleAfter p) false = false := by
    induction scan with
    | nil => rfl
    | cons f scan ih =>
      have hf : staleAfter p false (.scanned f) = false := by simp [staleAfter]
      rw [List.map_cons, List.foldl_cons, hf, ih]
  simp [Brick.Stale, Brick.start, hfold]

end History

/-! ## The invariant -/

/-- The sender runs, the queue has no deletions, and a stale path has an item that is
still to be sent. -/
structure Awaited (b : Brick) (s : Sender) : Prop where
  running : Running b s
  entry : ∀ {p : String} {k : Kind}, b.mon.brick.get? p = some (b.mon.data k.action) →
    k ≠ .deleted
  stale : ∀ {p : String}, b.Stale p → b.mon.brick.get? p ≠ none ∧ b.inFlight ≠ some p

theorem awaited_start (excludes : List String) (volume : Volume) (scan : List FilePBA) :
    Awaited (.start excludes volume scan) .idle := by
  refine ⟨running_start excludes volume scan, ?_, ?_⟩
  · intro p k hk
    cases hk
  · intro p hp
    exact absurd hp (not_stale_start excludes volume scan)

namespace Awaited

variable {env : List Act → Env} {b : Brick} {s : Sender}

/-- An event that leads to a reading. -/
theorem event (h : Awaited b s) {k : Kind} {q : String} {now : Rat}
    (hrun : Running (b.step env (.event k q now)) s)
    (hof : Step.Of [.created, .modified] b.mon (.event k q now))
    (hn : Noticed b (.event k q now)) : Awaited (b.step env (.event k q now)) s := by
  obtain ⟨hkinds, ha⟩ := hof
  obtain ⟨hflight, hpass⟩ := hn
  have hk : k ≠ .deleted := by
    rintro rfl
    exact absurd hkinds (by decide)
  have hbrick := BrickMonitor.handle_brick ha k now
  refine ⟨hrun, ?_, ?_⟩
  · intro p j hj
    simp only [Brick.step, BrickMonitor.handle_data, hbrick] at hj
    split at hj
    · rw [Dict.get?_set] at hj
      split at hj
      · rwa [← data_injective (Option.some.inj hj)]
      · exact h.entry hj
    · exact h.entry hj
  · intro p hp
    simp only [Brick.step, stale_event] at hp
    have hold : b.mon.brick.get? p ≠ none → (b.mon.handle k now q).brick.get? p ≠ none := by
      intro hne
      rw [hbrick]
      split
      · rw [Dict.get?_set]
        split
        · exact Option.some_ne_none _
        · exact hne
      · exact hne
    rcases hp with rfl | hp
    · refine ⟨?_, hflight⟩
      by_cases hnone : b.mon.brick.get? q = none
      · show (b.mon.handle k now q).brick.get? q ≠ none
        rw [hbrick, hpass hnone, Dict.contains_eq_false.2 hnone]
        simp
      · exact hold hnone
    · exact ⟨hold (h.stale hp).1, (h.stale hp).2⟩

/-- The step lemma. -/
theorem step (h : Awaited b s) {x : Step} (hx : x.Of [.created, .modified] b.mon)
    (hn : Noticed b x) :
    ∃ s', Awaited (b.step env x) s' := by
  have hnext : ∃ s', Next env b s x (b.step env x) s' ∧ Running (b.step env x) s' :=
    h.running.next hx
  obtain ⟨s', hnext, hrun⟩ := hnext
  refine ⟨s', ?_⟩
  generalize hb : b.step env x = b' at hnext hrun
  cases hnext with
  | event k path now =>
    rw [← hb] at hrun ⊢
    exact h.event hrun hx hn
  | wait x => exact h
  | snapshot hs =>
    refine ⟨hrun, h.entry, ?_⟩
    intro p hp
    exact ⟨(h.stale hp).1, by simp [Brick.inFlight]⟩
  | send p k rest hs =>
    have hq := h.running.head_queued hs
    refine ⟨hrun, h.entry, ?_⟩
    intro q hst
    rw [stale_sent _ _ _ (h.entry hq)] at hst
    refine ⟨(h.stale hst.2).1, ?_⟩
    simp [Brick.inFlight, hst.1]
  | remove p k rest hs =>
    have hflight : b.inFlight = some p := by simp [Brick.inFlight, h.running.sender, hs]
    have hgone : ∀ q, (b.mon.brick.erase p).get? q =
        if p = q then none else b.mon.brick.get? q := Dict.get?_erase _ _
    refine ⟨hrun, ?_, ?_⟩
    · intro q j hj
      exact h.entry (Dict.get?_of_erase hj)
    · intro q hst
      -- a path whose item is in flight is not stale, so another item goes
      obtain ⟨hqueued, hne⟩ := h.stale hst
      have hpq : p ≠ q := by
        rintro rfl
        exact hne hflight
      refine ⟨?_, by simp [Brick.inFlight]⟩
      simp only [hgone, if_neg hpq]
      exact hqueued

end Awaited

/-- **Reported extents are not left stale.** In every run of creations and modifications
whose events are all noticed, interleaved in any way with the sender: whenever the queue
is empty and no send is in progress, no path has had an event since its extents were
last read. -/
theorem quiet_not_stale (env : List Act → Env) (excludes : List String) (volume : Volume)
    (scan : List FilePBA) {l : List Step}
    (hl : ∀ x ∈ l, x.Of [.created, .modified] (.new excludes volume))
    (hn : Run.Along (Brick.step env) Noticed (.start excludes volume scan) l) :
    ∀ l', l' <+: l → ((Brick.start excludes volume scan).run env l').Quiet →
      ∀ p, ¬ ((Brick.start excludes volume scan).run env l').Stale p := by
  have hall := run_invariant Awaited.running (fun h hx => h.step hx)
    (awaited_start excludes volume scan) hl hn
  intro l' hp hquiet p hstale
  obtain ⟨s, hs⟩ := hall l' hp
  exact (hs.stale hstale).1 (hquiet.get? p)

/-- A file is created and written to after a second. -/
def writtenLate : List Step :=
  [.event .created "/brick/f" 0, .snapshot, .send, .remove,
    .event .modified "/brick/f" 1, .snapshot, .send, .remove]

theorem writtenLate_not_stale :
    ((Brick.start gluster vol []).run node1 writtenLate).Quiet ∧
      ¬ ((Brick.start gluster vol []).run node1 writtenLate).Stale "/brick/f" := by
  have hquiet : ((Brick.start gluster vol []).run node1 writtenLate).Quiet :=
    ⟨by decide +kernel, by decide +kernel⟩
  exact ⟨hquiet, quiet_not_stale node1 gluster vol [] (by decide) (by decide +kernel)
    writtenLate List.prefix_rfl hquiet "/brick/f"⟩

/-- A file that the scan has reported is written to. -/
theorem scanned_stale :
    (∀ x ∈ [Step.event .modified "/brick/f" 5], x.Of [.created, .modified] (.new gluster vol)) ∧
    ((Brick.start gluster vol [{ fileName := "/brick/f" }]).run node1
      [.event .modified "/brick/f" 5]).Quiet ∧
    ((Brick.start gluster vol [{ fileName := "/brick/f" }]).run node1
      [.event .modified "/brick/f" 5]).Stale "/brick/f" :=
  ⟨by decide, ⟨rfl, rfl⟩, by decide⟩

end Lba2Pba.Worker
