import Lba2Pba.Py.Dict
import Lba2Pba.Py.Str

/-!
# The monitor of a brick

`BrickMonitor` of `worker.py`. Its handlers turn file system events below a brick
into entries of the brick's queue, a dictionary from the path to the text
`volName:type:action` that the monitor shares with the sender. An entry is only
inserted while the path has none. The clock is an argument of the handlers, with
times as exact rational numbers of seconds.
-/

namespace Lba2Pba.Worker

open Py

/-- A file system event. -/
structure Event where
  srcPath : String
  destPath : String := ""
  isDirectory : Bool := false

/-- A gluster volume and its type. Neither text has a colon: gluster allows none in
the name of a volume, and `cut -d":" -f2` leaves none in the type. -/
structure Volume where
  name : String
  type : String
  name_colon : ':' ∉ name.toList
  type_colon : ':' ∉ type.toList

/-- The text of an entry of the volume's bricks. -/
def Volume.data (volume : Volume) (action : String) : String :=
  volume.name ++ ":" ++ (volume.type ++ ":" ++ action)

/-- How an entry gets into a queue: only if the path has none yet. -/
def enqueue (queue : Dict String String) (path data : String) : Dict String String :=
  if queue.contains path then queue else queue.set path data

structure BrickMonitor where
  excludes : List String
  brick : Dict String String
  volume : Volume
  lastCreated : Dict String Rat

namespace BrickMonitor

/-- `BrickMonitor(excludes, brick, volName, t)` for a brick whose queue is new. -/
def new (excludes : List String) (volume : Volume) : BrickMonitor := ⟨excludes, ∅, volume, ∅⟩

def isExcluded (mon : BrickMonitor) (path : String) : Bool :=
  mon.excludes.any (fun exclude => Str.isIn exclude path)

/-- `'~' == path[-1]`. The path of an event is never empty. -/
def isBackup (path : String) : Bool := path.toList.getLast? == some '~'

/-- The text of an entry. -/
def data (mon : BrickMonitor) (action : String) : String := mon.volume.data action

/-- The end of the handlers. -/
def insert (mon : BrickMonitor) (path action : String) : BrickMonitor :=
  { mon with brick := enqueue mon.brick path (mon.data action) }

def onMoved (mon : BrickMonitor) (now : Rat) (event : Event) : BrickMonitor :=
  if mon.isExcluded event.srcPath || mon.isExcluded event.destPath then mon
  else if event.isDirectory then mon
  else { mon with lastCreated := mon.lastCreated.set event.srcPath now }

def onModified (mon : BrickMonitor) (now : Rat) (event : Event) : BrickMonitor :=
  if mon.isExcluded event.srcPath then mon
  else if event.isDirectory then mon
  else match mon.lastCreated.get? event.srcPath with
    | none => mon
    | some created =>
      if now - created < 1 then mon
      else if isBackup event.srcPath then mon
      else mon.insert event.srcPath "modify"

def onCreated (mon : BrickMonitor) (now : Rat) (event : Event) : BrickMonitor :=
  if mon.isExcluded event.srcPath then mon
  else if event.isDirectory then mon
  else if isBackup event.srcPath then mon
  else insert { mon with lastCreated := mon.lastCreated.set event.srcPath now }
    event.srcPath "create"

def onDeleted (mon : BrickMonitor) (event : Event) : BrickMonitor :=
  if mon.isExcluded event.srcPath then mon
  else if event.isDirectory then mon
  else if isBackup event.srcPath then mon
  else mon.insert event.srcPath "delete"

end BrickMonitor

/-! ## Events of files -/

/-- What has happened to a file. -/
inductive Kind
  | created | deleted | modified
deriving DecidableEq

/-- The action that the handler of the event queues. -/
def Kind.action : Kind → String
  | created => "create"
  | deleted => "delete"
  | modified => "modify"

theorem Kind.action_eq_delete {k : Kind} : k.action = "delete" ↔ k = deleted := by
  cases k <;> decide

theorem Kind.action_injective {k j : Kind} (h : k.action = j.action) : k = j := by
  cases k <;> cases j <;> first | rfl | exact absurd h (by decide)

namespace BrickMonitor

/-- The handler of a file's event. -/
def handle (mon : BrickMonitor) (k : Kind) (now : Rat) (path : String) : BrickMonitor :=
  match k with
  | .created => mon.onCreated now { srcPath := path }
  | .deleted => mon.onDeleted { srcPath := path }
  | .modified => mon.onModified now { srcPath := path }

/-- The paths of which the monitor takes events. -/
def accepts (mon : BrickMonitor) (path : String) : Bool :=
  !mon.isExcluded path && !isBackup path

/-- Whether the handler goes on to the queue: a modification passes only if a creation
of the path has been seen and is at least one second old. -/
def passes (mon : BrickMonitor) (k : Kind) (now : Rat) (path : String) : Bool :=
  match k with
  | .modified => match mon.lastCreated.get? path with
    | none => false
    | some created => decide (1 ≤ now - created)
  | _ => true

variable {mon : BrickMonitor} {path : String}

@[simp] theorem insert_config (mon : BrickMonitor) (path action : String) :
    (mon.insert path action).excludes = mon.excludes ∧
      (mon.insert path action).volume = mon.volume := ⟨rfl, rfl⟩

@[simp] theorem handle_config (mon : BrickMonitor) (k : Kind) (now : Rat) (path : String) :
    (mon.handle k now path).excludes = mon.excludes ∧
      (mon.handle k now path).volume = mon.volume := by
  cases k with
  | created =>
    simp only [handle, onCreated]
    repeat' split
    all_goals simp
  | deleted =>
    simp only [handle, onDeleted]
    repeat' split
    all_goals simp
  | modified =>
    simp only [handle, onModified]
    repeat' split
    all_goals simp

@[simp] theorem handle_data (mon : BrickMonitor) (k : Kind) (now : Rat) (path action : String) :
    (mon.handle k now path).data action = mon.data action := by
  rw [data, (mon.handle_config k now path).2, data]

/-- **What an event does to the queue**, for a path that the monitor accepts. -/
theorem handle_brick (h : mon.accepts path = true) (k : Kind) (now : Rat) :
    (mon.handle k now path).brick =
      if mon.passes k now path && !mon.brick.contains path then
        mon.brick.set path (mon.data k.action)
      else mon.brick := by
  simp only [accepts, Bool.and_eq_true, Bool.not_eq_true'] at h
  have hins : ∀ action, (mon.insert path action).brick =
      if !mon.brick.contains path then mon.brick.set path (mon.data action) else mon.brick := by
    intro action
    rw [insert, enqueue]
    cases mon.brick.contains path <;> rfl
  cases k with
  | created =>
    simp only [handle, onCreated, h.1, h.2, passes, Bool.false_eq_true, if_false, Bool.true_and,
      Kind.action]
    rw [insert, enqueue]
    cases mon.brick.contains path <;> rfl
  | deleted =>
    simp only [handle, onDeleted, h.1, h.2, passes, Bool.false_eq_true, if_false, Bool.true_and,
      Kind.action]
    exact hins "delete"
  | modified =>
    simp only [handle, onModified, h.1, h.2, passes, Bool.false_eq_true, if_false, Kind.action]
    obtain hl | ⟨created, hl⟩ := Option.eq_none_or_eq_some (mon.lastCreated.get? path)
    · simp [hl]
    · by_cases hold : now - created < 1
      · have hle : ¬ 1 ≤ now - created := by grind
        simp [hl, hold, hle]
      · have hle : 1 ≤ now - created := by grind
        simp only [hl, hold, hle, if_false, decide_true, Bool.true_and]
        exact hins "modify"

end BrickMonitor

/-! ## A volume for runs on fixed inputs -/

theorem volume_plain : ':' ∉ "vol".toList ∧ ':' ∉ "Distribute".toList := by decide

def vol : Volume := ⟨"vol", "Distribute", volume_plain.1, volume_plain.2⟩

/-- What `WInit` excludes. -/
def gluster : List String := [".gluster", ".swp", ".smx", ".remove_me"]

end Lba2Pba.Worker
