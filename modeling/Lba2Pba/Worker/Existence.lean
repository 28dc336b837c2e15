import Lba2Pba.Worker.Brick

/-!
# The queue and the files that exist

A path has at most one entry in the queue, so an event that finds an entry of another
action is lost: a file that is deleted while its creation is still queued is reported
as created and never as deleted. As long as no event finds an entry of another action,
what was sent agrees with what exists whenever the queue has run empty.
-/

namespace Lba2Pba.Worker

open Py

/-! ## What the history says -/

/-- The path exists: it was scanned or created, and not deleted since. -/
def existsAfter (p : String) : Bool → Act → Bool
  | e, .scanned file => e || decide (file.fileName = p)
  | e, .event k q => if q = p then decide (k ≠ .deleted) else e
  | e, .sent _ => e

def Brick.Exists (b : Brick) (p : String) : Prop := b.history.foldl (existsAfter p) false = true

/-- The actions that were sent for a path, in their order. -/
def sentActions (history : List Act) (p : String) : List String :=
  history.filterMap fun
    | .sent r => if r.filePba.fileName = p then some r.action else none
    | _ => none

/-- The last action sent for the path is `create`, or the scan has reported it and no
`delete` was sent. -/
def Brick.Reported (b : Brick) (p : String) : Prop :=
  (sentActions b.history p).getLast? = some "create" ∨
    (∃ file, .scanned file ∈ b.history ∧ file.fileName = p) ∧
      "delete" ∉ sentActions b.history p

/-- An event finds no entry of its path in the queue, or one of its own action. -/
def Coalesces (b : Brick) : Step → Prop
  | .event k p _ =>
    b.mon.brick.get? p = none ∨ b.mon.brick.get? p = some (b.mon.data k.action)
  | _ => True

instance (b : Brick) : ∀ x, Decidable (Coalesces b x)
  | .event k p _ => inferInstanceAs (Decidable
      (b.mon.brick.get? p = none ∨ b.mon.brick.get? p = some (b.mon.data k.action)))
  | .snapshot => inferInstanceAs (Decidable True)
  | .send => inferInstanceAs (Decidable True)
  | .remove => inferInstanceAs (Decidable True)

section History

variable {b : Brick} {mon : BrickMonitor} {sender : Option Sender} {p : String}

theorem exists_event (k : Kind) (q : String) :
    Brick.Exists ⟨mon, sender, b.history ++ [.event k q]⟩ p ↔
      if q = p then k ≠ .deleted else b.Exists p := by
  simp only [Brick.Exists, List.foldl_append, List.foldl_cons, List.foldl_nil, existsAfter]
  split
  · exact decide_eq_true_iff
  · exact .rfl

theorem exists_sent (r : TChangeRequest) :
    Brick.Exists ⟨mon, sender, b.history ++ [.sent r]⟩ p ↔ b.Exists p := by
  simp only [Brick.Exists, List.foldl_append, List.foldl_cons, List.foldl_nil, existsAfter]

theorem reported_event (k : Kind) (q : String) :
    Brick.Reported ⟨mon, sender, b.history ++ [.event k q]⟩ p ↔ b.Reported p := by
  have hs : sentActions (b.history ++ [.event k q]) p = sentActions b.history p := by
    simp [sentActions, List.filterMap_append]
  simp [Brick.Reported, hs]

theorem reported_sent_of_ne (r : TChangeRequest) (h : r.filePba.fileName ≠ p) :
    Brick.Reported ⟨mon, sender, b.history ++ [.sent r]⟩ p ↔ b.Reported p := by
  have hs : sentActions (b.history ++ [.sent r]) p = sentActions b.history p := by
    simp [sentActions, List.filterMap_append, h]
  simp [Brick.Reported, hs]

theorem reported_sent (env : Env) (volume : Volume) {k : Kind} (hk : k ≠ .modified) :
    Brick.Reported ⟨mon, sender, b.history ++ [.sent (request env volume p k)]⟩ p ↔
      k = .created := by
  have hs : sentActions (b.history ++ [.sent (request env volume p k)]) p =
      sentActions b.history p ++ [k.action] := by
    simp [sentActions, List.filterMap_append, request]
  simp only [Brick.Reported, hs, List.getLast?_concat, Option.some.injEq, List.mem_append,
    List.mem_singleton]
  cases k with
  | created => simp [Kind.action]
  | deleted => simp [Kind.action]
  | modified => exact absurd rfl hk

theorem exists_start (excludes : List String) (volume : Volume) (scan : List FilePBA) :
    (Brick.start excludes volume scan).Exists p ↔ ∃ file ∈ scan, file.fileName = p := by
  have hfold : ∀ (l : List FilePBA) (e : Bool),
      (l.map Act.scanned).foldl (existsAfter p) e = (e || l.any (fun f => f.fileName = p)) := by
    intro l
    induction l with
    | nil => simp
    | cons f l ih =>
      intro e
      simp [ih, existsAfter, Bool.or_assoc]
  simp [Brick.Exists, Brick.start, hfold]

theorem reported_start (excludes : List String) (volume : Volume) (scan : List FilePBA) :
    (Brick.start excludes volume scan).Reported p ↔ ∃ file ∈ scan, file.fileName = p := by
  have hs : sentActions (scan.map Act.scanned) p = [] := by
    simp [sentActions, List.filterMap_map]
  simp [Brick.Reported, Brick.start, hs]

end History

/-! ## The invariant -/

/-- The sender runs; an entry of the queue says whether its path exists; the entry that
has been sent is what is reported of its path; of a path without an entry, what is
reported is what exists. -/
structure Told (b : Brick) (s : Sender) : Prop where
  running : Running b s
  entry : ∀ {p : String} {k : Kind}, b.mon.brick.get? p = some (b.mon.data k.action) →
    k ≠ .modified ∧ (b.Exists p ↔ k = .created)
  flight : ∀ {p : String} {k : Kind} {rest : List (String × String)},
    s = ⟨(p, b.mon.data k.action) :: rest, true⟩ → (b.Reported p ↔ k = .created)
  settled : ∀ {p : String}, b.mon.brick.get? p = none → (b.Reported p ↔ b.Exists p)

theorem data_injective {mon : BrickMonitor} {k j : Kind}
    (h : mon.data k.action = mon.data j.action) : k = j := by
  have hf : fields (mon.data k.action) = fields (mon.data j.action) := by rw [h]
  rw [BrickMonitor.data, BrickMonitor.data, fields_data, fields_data] at hf
  injection hf with hf
  injection hf with _ hf
  injection hf with _ hf
  exact Kind.action_injective hf

theorem told_start (excludes : List String) (volume : Volume) (scan : List FilePBA) :
    Told (.start excludes volume scan) .idle := by
  refine ⟨running_start excludes volume scan, ?_, ?_, ?_⟩
  · intro p k hk
    cases hk
  · intro p k rest hs
    cases hs
  · intro p _
    rw [reported_start, exists_start]

namespace Told

variable {env : List Act → Env} {b : Brick} {s : Sender}

/-- An event that finds no entry of another action. -/
theorem event (h : Told b s) {k : Kind} {q : String} {now : Rat}
    (hrun : Running (b.step env (.event k q now)) s)
    (hof : Step.Of [.created, .deleted] b.mon (.event k q now))
    (hc : Coalesces b (.event k q now)) : Told (b.step env (.event k q now)) s := by
  obtain ⟨hkinds, ha⟩ := hof
  have hk : k ≠ .modified := by
    rintro rfl
    exact absurd hkinds (by decide)
  have hpass : b.mon.passes k now q = true := by
    cases k with
    | created => rfl
    | deleted => rfl
    | modified => exact absurd rfl hk
  -- after the event the path has an entry with the event's action, the others are as before
  have hqueue : ∀ p, (b.mon.handle k now q).brick.get? p =
      if q = p then some (b.mon.data k.action) else b.mon.brick.get? p := by
    intro p
    rw [BrickMonitor.handle_brick ha, hpass, Bool.true_and]
    rcases hc with hnone | hsame
    · rw [Dict.contains_eq_false.2 hnone]
      simp [Dict.get?_set]
    · rw [Dict.contains_iff.2 ⟨_, hsame⟩]
      by_cases hqp : q = p
      · subst hqp
        simpa using hsame
      · simp [hqp]
  refine ⟨hrun, ?_, ?_, ?_⟩
  · intro p j hj
    simp only [Brick.step, BrickMonitor.handle_data, hqueue] at hj
    simp only [Brick.step, exists_event]
    split at hj
    · rename_i hqp
      obtain rfl := data_injective (Option.some.inj hj)
      rw [if_pos hqp]
      refine ⟨hk, ?_⟩
      cases k with
      | created => decide
      | deleted => decide
      | modified => exact absurd rfl hk
    · rename_i hqp
      rw [if_neg hqp]
      exact h.entry hj
  · intro p j rest hs
    simp only [Brick.step, BrickMonitor.handle_data] at hs
    simp only [Brick.step, reported_event]
    exact h.flight hs
  · intro p hp
    simp only [Brick.step, hqueue] at hp
    split at hp
    · cases hp
    · rename_i hqp
      simp only [Brick.step, reported_event, exists_event, if_neg hqp]
      exact h.settled hp

/-- The step lemma. -/
theorem step (h : Told b s) {x : Step} (hx : x.Of [.created, .deleted] b.mon)
    (hc : Coalesces b x) :
    ∃ s', Told (b.step env x) s' := by
  have hnext : ∃ s', Next env b s x (b.step env x) s' ∧ Running (b.step env x) s' :=
    h.running.next hx
  obtain ⟨s', hnext, hrun⟩ := hnext
  refine ⟨s', ?_⟩
  generalize hb : b.step env x = b' at hnext hrun
  cases hnext with
  | event k path now =>
    rw [← hb] at hrun ⊢
    exact h.event hrun hx hc
  | wait x => exact h
  | snapshot hs =>
    refine ⟨hrun, h.entry, ?_, h.settled⟩
    intro p k rest he
    injection he with _ he
    cases he
  | send p k rest hs =>
    have hq := h.running.head_queued hs
    refine ⟨hrun, ?_, ?_, ?_⟩
    · intro q j hj
      rw [exists_sent]
      exact h.entry hj
    · intro q j rest' he
      injection he with he _
      injection he with he _
      injection he with hpq hkj
      obtain rfl := data_injective hkj
      subst hpq
      exact reported_sent _ _ (h.entry hq).1
    · intro q hnone
      have hne : p ≠ q := by
        rintro rfl
        rw [hq] at hnone
        cases hnone
      rw [exists_sent, reported_sent_of_ne _ hne]
      exact h.settled hnone
  | remove p k rest hs =>
    have hq := h.running.head_queued hs
    have hgone : ∀ q, (b.mon.brick.erase p).get? q =
        if p = q then none else b.mon.brick.get? q := Dict.get?_erase _ _
    refine ⟨hrun, ?_, ?_, ?_⟩
    · intro q j hj
      exact h.entry (Dict.get?_of_erase hj)
    · intro q j rest' he
      injection he with _ he
      cases he
    · intro q hnone
      simp only [hgone] at hnone
      split at hnone
      · -- the entry that goes was sent, and said whether the path exists
        rename_i hpq
        subst hpq
        exact (h.flight hs).trans (h.entry hq).2.symm
      · exact h.settled hnone

end Told

/-- **The queue converges on existence.** In every run of creations and deletions whose
events all find no entry of another action, interleaved in any way with the sender:
whenever the queue is empty and no send is in progress, the paths reported to Trace are
those that exist. -/
theorem reported_iff_exists (env : List Act → Env) (excludes : List String) (volume : Volume)
    (scan : List FilePBA) {l : List Step}
    (hl : ∀ x ∈ l, x.Of [.created, .deleted] (.new excludes volume))
    (hc : Run.Along (Brick.step env) Coalesces (.start excludes volume scan) l) :
    ∀ l', l' <+: l → ((Brick.start excludes volume scan).run env l').Quiet →
      ∀ p, ((Brick.start excludes volume scan).run env l').Reported p ↔
        ((Brick.start excludes volume scan).run env l').Exists p := by
  have hall := run_invariant Told.running (fun h hx => h.step hx)
    (told_start excludes volume scan) hl hc
  intro l' hp hquiet p
  obtain ⟨s, hs⟩ := hall l' hp
  exact hs.settled (hquiet.get? p)

/-- A node with one extent for every path. -/
def node1 : List Act → Env := fun _ => ⟨fun _ => [PBA.blockAt "node1" default], "node1"⟩

/-- A file is created and deleted, each event sent before the next one. -/
def deletedLate : List Step :=
  [.event .created "/brick/f" 0, .snapshot, .send, .remove,
    .event .deleted "/brick/f" 1, .snapshot, .send, .remove]

/-- A file is created, and deleted while its creation is still queued. -/
def deletedEarly : List Step :=
  [.event .created "/brick/f" 0, .event .deleted "/brick/f" 1, .snapshot, .send, .remove]

theorem deletedLate_reported :
    ((Brick.start gluster vol []).run node1 deletedLate).Quiet ∧
      (((Brick.start gluster vol []).run node1 deletedLate).Reported "/brick/f" ↔
        ((Brick.start gluster vol []).run node1 deletedLate).Exists "/brick/f") := by
  have hquiet : ((Brick.start gluster vol []).run node1 deletedLate).Quiet := ⟨rfl, rfl⟩
  exact ⟨hquiet, reported_iff_exists node1 gluster vol [] (by decide) (by decide) deletedLate
    List.prefix_rfl hquiet "/brick/f"⟩

theorem deletedEarly_not_reported :
    (∀ x ∈ deletedEarly, x.Of [.created, .deleted] (.new gluster vol)) ∧
    ((Brick.start gluster vol []).run node1 deletedEarly).Quiet ∧
    ¬ (((Brick.start gluster vol []).run node1 deletedEarly).Reported "/brick/f" ↔
      ((Brick.start gluster vol []).run node1 deletedEarly).Exists "/brick/f") := by
  refine ⟨by decide, ⟨rfl, rfl⟩, ?_⟩
  intro h
  have hgone : ¬ ((Brick.start gluster vol []).run node1 deletedEarly).Exists "/brick/f" := by
    unfold Brick.Exists
    decide
  exact hgone (h.1 (.inl rfl))

end Lba2Pba.Worker
