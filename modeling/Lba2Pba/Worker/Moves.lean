import Lba2Pba.Worker.Brick

/-!
# Renamed files

`on_moved` queues nothing. It only notes the time, and for the old path, while `on_modified`
looks for the time of the path that is modified. Every request goes back to an event of its
own path (`caused_moves`), so a rename is not reported: the old path stays reported, and
the new one never comes to be, whatever is written to it (`rename_unreported`).
-/

namespace Lba2Pba.Worker

open Py

/-- A step of the brick, with what the disk has at that time, or a rename. -/
inductive Move
  | step (env : Env) (x : Step)
  | moved (src dest : String) (now : Rat)

namespace Brick

def move (b : Brick) : Move → Brick
  | .step env x => b.step (fun _ => env) x
  | .moved src dest now =>
    { b with mon := b.mon.onMoved now { srcPath := src, destPath := dest } }

def moves (b : Brick) (l : List Move) : Brick := l.foldl move b

end Brick

/-! ## The handlers -/

namespace BrickMonitor

variable {mon : BrickMonitor} {path : String}

theorem handle_of_not_accepts (h : mon.accepts path = false) (k : Kind) (now : Rat) :
    mon.handle k now path = mon := by
  have hout : mon.isExcluded path = true ∨ isBackup path = true := by
    simpa only [accepts, Bool.and_eq_false_iff, Bool.not_eq_false'] using h
  rcases hout with hex | hb
  · cases k <;> simp [handle, onCreated, onDeleted, onModified, hex]
  · cases k with
    | created => simp [handle, onCreated, hb]
    | deleted => simp [handle, onDeleted, hb]
    | modified =>
      simp only [handle, onModified, hb, if_true]
      repeat' split
      all_goals rfl

/-- Only a creation notes the time. -/
theorem handle_lastCreated (h : mon.accepts path = true) (k : Kind) (now : Rat) :
    (mon.handle k now path).lastCreated =
      if k = .created then mon.lastCreated.set path now else mon.lastCreated := by
  simp only [accepts, Bool.and_eq_true, Bool.not_eq_true'] at h
  cases k with
  | created => simp [handle, onCreated, insert, h.1, h.2]
  | deleted => simp [handle, onDeleted, insert, h.1, h.2]
  | modified =>
    simp only [handle, onModified, h.1, h.2, Bool.false_eq_true, if_false, reduceCtorEq]
    repeat' split
    all_goals rfl

/-- A rename leaves the queue as it is. -/
theorem onMoved_cases (mon : BrickMonitor) (now : Rat) (src dest : String) :
    mon.onMoved now { srcPath := src, destPath := dest } = mon ∨
      mon.onMoved now { srcPath := src, destPath := dest } =
        { mon with lastCreated := mon.lastCreated.set src now } := by
  simp only [onMoved, Bool.false_eq_true, if_false]
  split
  · exact .inl rfl
  · exact .inr rfl

end BrickMonitor

/-! ## Every request has its event -/

/-- The run has an event of this kind. -/
def Seen (l : List Move) (k : Kind) (p : String) : Prop :=
  ∃ env now, Move.step env (.event k p now) ∈ l

/-- The run has a rename of the path to another one. -/
def MovedAway (l : List Move) (p : String) : Prop := ∃ dest now, Move.moved p dest now ∈ l

/-- What an entry of the queue goes back to: its event, and for a modification something
that has noted a time for the path before. -/
structure Cause (l : List Move) (k : Kind) (p : String) : Prop where
  event : Seen l k p
  noted : k = .modified → Seen l .created p ∨ MovedAway l p

section Append

variable {l : List Move} {k : Kind} {p : String}

theorem Seen.append (h : Seen l k p) (m : List Move) : Seen (l ++ m) k p := by
  obtain ⟨env, now, hmem⟩ := h
  exact ⟨env, now, List.mem_append_left m hmem⟩

theorem MovedAway.append (h : MovedAway l p) (m : List Move) : MovedAway (l ++ m) p := by
  obtain ⟨dest, now, hmem⟩ := h
  exact ⟨dest, now, List.mem_append_left m hmem⟩

theorem Cause.append (h : Cause l k p) (m : List Move) : Cause (l ++ m) k p :=
  ⟨h.event.append m, fun hk => (h.noted hk).imp (·.append m) (·.append m)⟩

end Append

/-- The entries of the queue, those that the sender has taken and the requests all have
their cause. -/
structure Caused (volume : Volume) (l : List Move) (b : Brick) : Prop where
  labelled : b.mon.volume = volume
  noted : ∀ {p t}, b.mon.lastCreated.get? p = some t → Seen l .created p ∨ MovedAway l p
  queue : ∀ {p d}, b.mon.brick.get? p = some d → ∃ k : Kind, d = volume.data k.action ∧ Cause l k p
  rest : ∀ {s}, b.sender = some s → ∀ x ∈ s.rest,
    ∃ k : Kind, x.2 = volume.data k.action ∧ Cause l k x.1
  sent : ∀ {r}, .sent r ∈ b.history →
    ∃ k : Kind, r.action = k.action ∧ Cause l k r.filePba.fileName

theorem caused_start (excludes : List String) (volume : Volume) (scan : List FilePBA) :
    Caused volume [] (.start excludes volume scan) := by
  refine ⟨rfl, fun h => ?_, fun h => ?_, fun h x hx => ?_, fun h => ?_⟩
  · cases h
  · cases h
  · cases h
    exact absurd hx List.not_mem_nil
  · obtain ⟨file, -, heq⟩ := List.mem_map.1 h
    cases heq

namespace Caused

variable {volume : Volume} {l : List Move} {b : Brick}

theorem append (h : Caused volume l b) (m : List Move) : Caused volume (l ++ m) b := by
  refine ⟨h.labelled, fun ht => (h.noted ht).imp (·.append m) (·.append m), fun hd => ?_,
    fun hs x hx => ?_, fun hr => ?_⟩
  · obtain ⟨k, hk, hc⟩ := h.queue hd
    exact ⟨k, hk, hc.append m⟩
  · obtain ⟨k, hk, hc⟩ := h.rest hs x hx
    exact ⟨k, hk, hc.append m⟩
  · obtain ⟨k, hk, hc⟩ := h.sent hr
    exact ⟨k, hk, hc.append m⟩

theorem event (h : Caused volume l b) {env : Env} {k : Kind} {path : String} {now : Rat}
    (hmem : Move.step env (.event k path now) ∈ l) :
    Caused volume l
      { b with mon := b.mon.handle k now path, history := b.history ++ [.event k path] } := by
  have hseen : Seen l k path := ⟨env, now, hmem⟩
  have hsent : ∀ {r}, Act.sent r ∈ b.history ++ [.event k path] →
      ∃ k : Kind, r.action = k.action ∧ Cause l k r.filePba.fileName := by
    intro r hr
    rcases List.mem_append.1 hr with hr | hr
    · exact h.sent hr
    · cases List.mem_singleton.1 hr
  cases ha : b.mon.accepts path with
  | false =>
    rw [BrickMonitor.handle_of_not_accepts ha]
    exact ⟨h.labelled, h.noted, h.queue, h.rest, hsent⟩
  | true =>
    refine ⟨(b.mon.handle_config k now path).2.trans h.labelled, fun {p t} ht => ?_,
      fun {p d} hd => ?_, h.rest, hsent⟩
    · rw [BrickMonitor.handle_lastCreated ha] at ht
      split at ht
      · rename_i hk
        rw [Dict.get?_set] at ht
        split at ht
        · rename_i hp
          exact .inl (hp ▸ hk ▸ hseen)
        · exact h.noted ht
      · exact h.noted ht
    · rw [BrickMonitor.handle_brick ha] at hd
      split at hd
      · rename_i hpass
        rw [Dict.get?_set] at hd
        split at hd
        · -- the new entry: a modification has passed because of a time that was noted
          rename_i hp
          subst hp
          refine ⟨k, (Option.some.inj hd).symm.trans (h.labelled ▸ rfl), hseen, fun hk => ?_⟩
          subst hk
          rw [Bool.and_eq_true, BrickMonitor.passes] at hpass
          cases ht : b.mon.lastCreated.get? path with
          | none =>
            rw [ht] at hpass
            cases hpass.1
          | some t => exact h.noted ht
        · exact h.queue hd
      · exact h.queue hd

theorem snapshot (h : Caused volume l b) :
    Caused volume l { b with sender := b.sender.map (·.snapshot b.mon.brick) } := by
  refine ⟨h.labelled, h.noted, h.queue, fun {s'} hs y hy => ?_, h.sent⟩
  obtain ⟨s, hsome, rfl⟩ := Option.map_eq_some_iff.1 hs
  rw [Sender.snapshot] at hy
  split at hy
  · exact h.queue (Dict.mem_items_iff.1 hy)
  · exact h.rest hsome y hy

/-- A sender that has nothing else to send than before. -/
theorem sender (h : Caused volume l b) {s s' : Sender} (hs : b.sender = some s)
    (hrest : ∀ x ∈ s'.rest, x ∈ s.rest) : Caused volume l { b with sender := some s' } := by
  refine ⟨h.labelled, h.noted, h.queue, fun hs' y hy => ?_, h.sent⟩
  cases hs'
  exact h.rest hs y (hrest y hy)

theorem send (h : Caused volume l b) (env : Env) :
    Caused volume l (b.step (fun _ => env) .send) := by
  cases hs : b.sender with
  | none =>
    simp only [Brick.step, hs]
    exact h
  | some s =>
    obtain ⟨rest, sent⟩ := s
    have hkept : ∀ sent', Caused volume l { b with sender := some ⟨rest, sent'⟩ } :=
      fun sent' => h.sender hs (fun _ hx => hx)
    rcases rest with _ | ⟨⟨p, d⟩, rest⟩
    · simp only [Brick.step, hs, Sender.send, pure, Except.pure, Option.toList_none,
        List.map_nil, List.append_nil]
      exact hkept sent
    · cases sent with
      | true =>
        simp only [Brick.step, hs, Sender.send, pure, Except.pure, Option.toList_none,
          List.map_nil, List.append_nil]
        exact hkept true
      | false =>
        -- the request is made from an entry that the sender has taken
        obtain ⟨k, hd, hc⟩ := h.rest hs (p, d) List.mem_cons_self
        obtain rfl : d = volume.data k.action := hd
        simp only [Brick.step, hs, send_data env volume p k rest, Option.toList_some,
          List.map_cons, List.map_nil]
        refine ⟨h.labelled, h.noted, h.queue, (hkept true).rest, fun hr => ?_⟩
        rcases List.mem_append.1 hr with hr | hr
        · exact h.sent hr
        · cases List.mem_singleton.1 hr
          exact ⟨k, rfl, hc⟩

theorem remove (h : Caused volume l b) (env : Env) :
    Caused volume l (b.step (fun _ => env) .remove) := by
  cases hs : b.sender with
  | none =>
    simp only [Brick.step, hs]
    exact h
  | some s =>
    simp only [Brick.step, hs]
    cases hrem : s.remove b.mon.brick with
    | error e =>
      refine ⟨h.labelled, h.noted, h.queue, fun hs' => ?_, h.sent⟩
      cases hs'
    | ok y =>
      obtain ⟨s', queue⟩ := y
      rw [Sender.remove] at hrem
      split at hrem
      · rename_i path data rest hrest _
        split at hrem
        · cases hrem
          have hkept : Caused volume l { b with sender := some ⟨rest, false⟩ } :=
            h.sender hs (fun x hx => hrest ▸ List.mem_cons_of_mem _ hx)
          exact ⟨h.labelled, h.noted, fun hd => h.queue (Dict.get?_of_erase hd), hkept.rest, h.sent⟩
        · cases hrem
      · cases hrem
        exact h.sender hs (fun _ hx => hx)

theorem step (h : Caused volume l b) {env : Env} {x : Step} (hx : Move.step env x ∈ l) :
    Caused volume l (b.step (fun _ => env) x) := by
  cases x with
  | event k path now => exact h.event hx
  | snapshot => exact h.snapshot
  | send => exact h.send env
  | remove => exact h.remove env

theorem move (h : Caused volume l b) {x : Move} (hx : x ∈ l) : Caused volume l (b.move x) := by
  cases x with
  | step env x => exact h.step hx
  | moved src dest now =>
    rcases b.mon.onMoved_cases now src dest with heq | heq
    · rw [Brick.move, heq]
      exact h
    · rw [Brick.move, heq]
      refine ⟨h.labelled, fun {p t} ht => ?_, h.queue, h.rest, h.sent⟩
      rw [Dict.get?_set] at ht
      split at ht
      · rename_i hp
        exact .inr (hp ▸ ⟨dest, now, hx⟩)
      · exact h.noted ht

end Caused

/-- The run rule for the causes. -/
theorem caused_moves (excludes : List String) (volume : Volume) (scan : List FilePBA)
    (l : List Move) : Caused volume l ((Brick.start excludes volume scan).moves l) := by
  induction l using List.reverseRecOn with
  | nil => exact caused_start excludes volume scan
  | append_singleton l x ih =>
    rw [Brick.moves, List.foldl_concat]
    exact (ih.append [x]).move (List.mem_append_right l List.mem_cons_self)

/-- **Renames are not reported.** In a run with any renames, no deletion is sent for a path
without an event of its deletion, and nothing at all for a path that was neither created
nor deleted nor renamed to another one, whatever was moved to it or written to it. -/
theorem rename_unreported (excludes : List String) (volume : Volume) (scan : List FilePBA)
    (l : List Move) {p q : String} (hp : ¬ Seen l .deleted p)
    (hq : ¬ Seen l .created q ∧ ¬ Seen l .deleted q ∧ ¬ MovedAway l q) {r : TChangeRequest}
    (hr : .sent r ∈ ((Brick.start excludes volume scan).moves l).history) :
    (r.filePba.fileName = p → r.action ≠ "delete") ∧ r.filePba.fileName ≠ q := by
  obtain ⟨k, hk, hc⟩ := (caused_moves excludes volume scan l).sent hr
  constructor
  · rintro rfl hdelete
    obtain rfl := Kind.action_eq_delete.1 (hk ▸ hdelete)
    exact hp hc.event
  · rintro rfl
    cases k with
    | created => exact hq.1 hc.event
    | deleted => exact hq.2.1 hc.event
    | modified => exact (hc.noted rfl).elim hq.1 hq.2.2

/-- The file `f` is created, renamed to `g` and written to. -/
def renamed : List Move :=
  [.step idleNode (.event .created "/brick/f" 0), .step idleNode .snapshot, .step idleNode .send,
    .step idleNode .remove, .moved "/brick/f" "/brick/g" 5,
    .step idleNode (.event .modified "/brick/g" 10), .step idleNode .snapshot, .step idleNode .send]

theorem renamed_events : ¬ Seen renamed .deleted "/brick/f" ∧ (¬ Seen renamed .created "/brick/g" ∧
    ¬ Seen renamed .deleted "/brick/g" ∧ ¬ MovedAway renamed "/brick/g") := by
  refine ⟨?_, ?_, ?_, ?_⟩
  · rintro ⟨env, now, h⟩
    simp [renamed] at h
  · rintro ⟨env, now, h⟩
    simp [renamed] at h
  · rintro ⟨env, now, h⟩
    simp [renamed] at h
  · rintro ⟨dest, now, h⟩
    simp [renamed] at h

/-- The creation of `f` is the only request. -/
theorem renamed_unreported :
    let b := (Brick.start gluster vol []).moves renamed
    (∃ r, .sent r ∈ b.history ∧ r.filePba.fileName = "/brick/f" ∧ r.action = "create") ∧
      ∀ r, .sent r ∈ b.history → (r.filePba.fileName = "/brick/f" → r.action ≠ "delete") ∧
        r.filePba.fileName ≠ "/brick/g" := by
  refine ⟨⟨request idleNode vol "/brick/f" .created, ?_, rfl, rfl⟩, fun r hr => ?_⟩
  · have hhistory : ((Brick.start gluster vol []).moves renamed).history =
        [.event .created "/brick/f", .sent (request idleNode vol "/brick/f" .created),
          .event .modified "/brick/g"] := rfl
    rw [hhistory]
    exact List.mem_cons_of_mem _ List.mem_cons_self
  · exact rename_unreported gluster vol [] renamed renamed_events.1 renamed_events.2 hr

end Lba2Pba.Worker
