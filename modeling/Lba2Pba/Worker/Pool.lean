import Lba2Pba.Run.Prefix
import Lba2Pba.Worker.Sender

/-!
# Senders on shared queues

Every call of `WInit` starts a `sendProcess` over the same queues, and the ones that
run already go on. `Pool` has any number of senders and monitors, acting in any order;
its log follows every entry from the queue to Trace and out of the queue, and `Lawful`
says that each key goes through the only lawful order.
-/

namespace Lba2Pba.Worker

open Py

/-! ## The pool -/

/-- What happens to the key of an entry. `missing` is the `KeyError` of `del`. -/
inductive Op
  | inserted | sent | removed | missing

structure Note where
  target : String
  path : String
  op : Op

/-- The queues of the bricks (`self.targets`), the senders with the brick that each of
them is at, and whether the shared manager has been shut down. -/
structure Pool where
  targets : Dict String (Dict String String)
  senders : List (String × Sender)
  log : List Note
  down : Bool

inductive Turn
  | wInit (bricks : List String)
  | insert (target path : String) (volume : Volume) (k : Kind)
  | snapshot (i : Nat) (target : String)
  | send (i : Nat)
  | remove (i : Nat)

namespace Pool

/-- A Worker before the first `WInit`. -/
def start : Pool := ⟨∅, [], [], false⟩

/-- `if not path in bricks.keys(): bricks[path] = self.pManager.dict()`. -/
def monitor (targets : Dict String (Dict String String)) (path : String) :
    Dict String (Dict String String) :=
  if targets.contains path then targets else targets.set path ∅

/-- A call of `WInit` that finds these bricks. -/
def wInit (w : Pool) (bricks : List String) : Pool :=
  { w with
    targets := bricks.foldl monitor w.targets
    senders := w.senders ++ [("", .idle)] }

/-- A handler of a brick's monitor comes to the queue. -/
def insert (w : Pool) (target path data : String) : Pool :=
  match w.targets.get? target with
  | none => w
  | some queue =>
    { w with
      targets := w.targets.set target (enqueue queue path data)
      log := if queue.contains path then w.log else w.log ++ [⟨target, path, .inserted⟩] }

/-- A sender that is done with its last snapshot takes one of a brick's queue. -/
def snapshot (w : Pool) (i : Nat) (target : String) : Pool :=
  match w.senders[i]?, w.targets.get? target with
  | some (_, s), some queue =>
    if s.rest = [] then { w with senders := w.senders.set i (target, s.snapshot queue) } else w
  | _, _ => w

def send (env : Env) (w : Pool) (i : Nat) : Pool :=
  match w.senders[i]? with
  | some (target, ⟨(path, data) :: rest, false⟩) =>
    match Sender.send env ⟨(path, data) :: rest, false⟩ with
    | .error _ => { w with down := true }
    | .ok (s, _) =>
      { w with
        senders := w.senders.set i (target, s)
        log := w.log ++ [⟨target, path, .sent⟩] }
  | _ => w

/-- An exception ends the sender, and its `finally` shuts the shared manager down. -/
def remove (w : Pool) (i : Nat) : Pool :=
  match w.senders[i]? with
  | some (target, ⟨(path, data) :: rest, true⟩) =>
    match Sender.remove ⟨(path, data) :: rest, true⟩ ((w.targets.get? target).getD ∅) with
    | .error _ => { w with log := w.log ++ [⟨target, path, .missing⟩], down := true }
    | .ok (s, queue) =>
      { w with
        targets := w.targets.set target queue
        senders := w.senders.set i (target, s)
        log := w.log ++ [⟨target, path, .removed⟩] }
  | _ => w

def step (env : Env) (w : Pool) (x : Turn) : Pool :=
  if w.down then w
  else match x with
    | .wInit bricks => w.wInit bricks
    | .insert target path volume k => w.insert target path (volume.data k.action)
    | .snapshot i target => w.snapshot i target
    | .send i => w.send env i
    | .remove i => w.remove i

def run (env : Env) (w : Pool) (l : List Turn) : Pool := l.foldl (step env) w

end Pool

/-! ## The life of a key -/

inductive Life
  | absent | queued | sent

/-- The only lawful order: inserted, sent, removed. -/
def Life.next : Life → Op → Option Life
  | absent, .inserted => some queued
  | queued, .sent => some sent
  | sent, .removed => some absent
  | _, _ => none

/-- Where a key stands after the log, or `none` if its order was broken. -/
def life (target path : String) (log : List Note) : Option Life :=
  log.foldl (fun l n => if n.target = target ∧ n.path = path then l.bind (·.next n.op) else l)
    (some .absent)

/-- Every entry is sent exactly once before it is removed, and no key is deleted that is
missing. -/
def Pool.Lawful (w : Pool) : Prop := ∀ target path, life target path w.log ≠ none

/-- No other sender has items of the brick left when a sender takes a snapshot of its
queue. -/
def Alone (w : Pool) : Turn → Prop
  | .snapshot i target => i < w.senders.length →
    ∀ j s, w.senders[j]? = some (target, s) → j ≠ i → s.rest = []
  | _ => True

/-- A sender has sent the item and not yet removed it. -/
def Pool.InFlight (w : Pool) (target path : String) : Prop :=
  ∃ (i : Nat) (d : String) (rest : List (String × String)),
    w.senders[i]? = some (target, ⟨(path, d) :: rest, true⟩)

theorem life_concat (target path : String) (log : List Note) (n : Note) :
    life target path (log ++ [n]) =
      if n.target = target ∧ n.path = path then (life target path log).bind (·.next n.op)
      else life target path log := by
  rw [life, List.foldl_append]
  rfl

/-- Where the queue and the senders have a key. -/
def Pool.Stage (w : Pool) (target path : String) : Life → Prop
  | .absent => w.targets.get2? target path = none
  | .queued => w.targets.get2? target path ≠ none ∧ ¬ w.InFlight target path
  | .sent => w.InFlight target path

/-- The log has every key where the queue and the senders have it. -/
def Tracked (w : Pool) : Prop :=
  ∀ target path l, w.Stage target path l → life target path w.log = some l

theorem Pool.exists_stage (w : Pool) (target path : String) : ∃ l, w.Stage target path l := by
  by_cases hp : w.targets.get2? target path = none
  · exact ⟨.absent, hp⟩
  · by_cases hf : w.InFlight target path
    · exact ⟨.sent, hf⟩
    · exact ⟨.queued, hp, hf⟩

theorem Tracked.lawful {w : Pool} (h : Tracked w) : w.Lawful := by
  intro target path
  obtain ⟨l, hl⟩ := w.exists_stage target path
  rw [h target path l hl]
  exact Option.some_ne_none l

theorem Tracked.of_stage {w w' : Pool} (h : Tracked w) (hlog : w'.log = w.log)
    (hstage : ∀ {target path l}, w'.Stage target path l → w.Stage target path l) :
    Tracked w' := by
  intro target path l hl
  rw [hlog]
  exact h target path l (hstage hl)

/-- One key goes on to its next stage, the others stay where they are. -/
theorem Tracked.next {w w' : Pool} (h : Tracked w) {target path : String} {op : Op}
    (hlog : w'.log = w.log ++ [⟨target, path, op⟩]) (l l' : Life)
    (hl : w.Stage target path l) (hnext : l.next op = some l')
    (hkey : ∀ {l''}, w'.Stage target path l'' → l'' = l')
    (hother : ∀ {t p l''}, ¬ (target = t ∧ path = p) → w'.Stage t p l'' → w.Stage t p l'') :
    Tracked w' := by
  intro t p l'' hl''
  rw [hlog, life_concat]
  by_cases he : target = t ∧ path = p
  · obtain ⟨rfl, rfl⟩ := he
    rw [if_pos ⟨rfl, rfl⟩, h target path l hl, hkey hl'']
    exact hnext
  · rw [if_neg he]
    exact h t p l'' (hother he hl'')

/-- A pool with the same entry and the same items in flight has a key at the same stage. -/
theorem Pool.Stage.congr {w w' : Pool} {target path : String} {l : Life}
    (h : w'.Stage target path l) (hget : w'.targets.get2? target path = w.targets.get2? target path)
    (hflight : w'.InFlight target path ↔ w.InFlight target path) : w.Stage target path l := by
  cases l with
  | absent => exact hget.symm.trans h
  | queued => exact ⟨hget ▸ h.1, fun hf => h.2 (hflight.2 hf)⟩
  | sent => exact hflight.1 h

/-! ## What a turn does -/

/-- Each sender works on items of its brick's queue, and no two of them on the same
brick. -/
structure Orderly (w : Pool) : Prop where
  up : w.down = false
  queued : ∀ {i : Nat} {t : String} {s : Sender}, w.senders[i]? = some (t, s) → ∀ x ∈ s.rest,
    w.targets.get2? t x.1 = some x.2
  nodup : ∀ {i : Nat} {t : String} {s : Sender}, w.senders[i]? = some (t, s) →
    (s.rest.map Prod.fst).Nodup
  alone : ∀ {i j : Nat} {t : String} {s s' : Sender}, w.senders[i]? = some (t, s) →
    w.senders[j]? = some (t, s') → s.rest ≠ [] → s'.rest ≠ [] → i = j
  entries : ∀ {t p d : String}, w.targets.get2? t p = some d →
    ∃ (v : Volume) (k : Kind), d = v.data k.action
  tracked : Tracked w

/-- The turns of an orderly pool. -/
inductive Turns (w : Pool) : Turn → Pool → Prop
  | wait (x : Turn) : Turns w x w
  | wInit (bricks : List String) : Turns w (.wInit bricks) (w.wInit bricks)
  | insert (t p : String) (v : Volume) (k : Kind) (ht : t ∈ w.targets.keys)
    (hp : w.targets.get2? t p = none) :
    Turns w (.insert t p v k)
      { w with
        targets := w.targets.set2 t p (v.data k.action)
        log := w.log ++ [⟨t, p, .inserted⟩] }
  | snapshot (i : Nat) (t t₀ : String) (sent : Bool) (queue : Dict String String)
    (hi : w.senders[i]? = some (t₀, ⟨[], sent⟩)) (hq : w.targets.get? t = some queue) :
    Turns w (.snapshot i t) { w with senders := w.senders.set i (t, ⟨queue.items, false⟩) }
  | send (i : Nat) (t p d : String) (rest : List (String × String))
    (hi : w.senders[i]? = some (t, ⟨(p, d) :: rest, false⟩)) :
    Turns w (.send i)
      { w with
        senders := w.senders.set i (t, ⟨(p, d) :: rest, true⟩)
        log := w.log ++ [⟨t, p, .sent⟩] }
  | remove (i : Nat) (t p d : String) (rest : List (String × String))
    (hi : w.senders[i]? = some (t, ⟨(p, d) :: rest, true⟩)) :
    Turns w (.remove i)
      { w with
        targets := w.targets.erase2 t p
        senders := w.senders.set i (t, ⟨rest, false⟩)
        log := w.log ++ [⟨t, p, .removed⟩] }

theorem Orderly.turns {env : Env} {w : Pool} (h : Orderly w) (x : Turn) :
    Turns w x (w.step env x) := by
  have hstep := h.up
  unfold Pool.step
  rw [if_neg (by simp [hstep])]
  cases x with
  | wInit bricks => exact .wInit bricks
  | insert t p v k =>
    simp only [Pool.insert]
    cases hq : w.targets.get? t with
    | none => exact .wait _
    | some queue =>
      have hget : w.targets.get2? t p = queue.get? p := Dict.get2?_of_get? hq
      by_cases hc : queue.contains p = true
      · simp only [enqueue, hc, if_true, Dict.set_self hq]
        exact .wait _
      · have hnone : queue.get? p = none := Dict.contains_eq_false.1 (by simpa using hc)
        have hset : w.targets.set t (queue.set p (v.data k.action)) =
            w.targets.set2 t p (v.data k.action) := by
          rw [Dict.set2, hq]
        simp only [enqueue, hc, Bool.false_eq_true, if_false, hset]
        exact .insert t p v k (Dict.mem_keys_iff.2 ⟨queue, hq⟩) (hget.trans hnone)
  | snapshot i t =>
    simp only [Pool.snapshot]
    cases hi : w.senders[i]? with
    | none => exact .wait _
    | some y =>
      obtain ⟨t₀, rest, sent⟩ := y
      cases hq : w.targets.get? t with
      | none => exact .wait _
      | some queue =>
        cases rest with
        | nil => exact .snapshot i t t₀ sent queue hi hq
        | cons z rest => exact .wait _
  | send i =>
    simp only [Pool.send]
    split
    · rename_i t p d rest hi
      obtain ⟨v, k, rfl⟩ := h.entries (h.queued hi (p, d) List.mem_cons_self)
      rw [send_data env v p k rest]
      exact .send i t p _ rest hi
    · exact .wait _
  | remove i =>
    simp only [Pool.remove]
    split
    · rename_i t p d rest hi
      have hp := h.queued hi (p, d) List.mem_cons_self
      obtain ⟨queue, hq, hqp⟩ := Dict.get2?_eq_some.1 hp
      have hc : queue.contains p = true := Dict.contains_iff.2 ⟨d, hqp⟩
      have herase : w.targets.set t (queue.erase p) = w.targets.erase2 t p := by
        rw [Dict.erase2, hq]
      simp only [Sender.remove, hq, Option.getD_some, hc, if_true, herase]
      exact .remove i t p d rest hi
    · exact .wait _

end Lba2Pba.Worker
