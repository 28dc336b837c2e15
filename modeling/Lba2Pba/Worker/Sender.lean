import Lba2Pba.Messages
import Lba2Pba.Py.Path
import Lba2Pba.Worker.Monitor

/-!
# The sender

`sendProcess` of `worker.py` takes the items of a brick's queue as they are, sends
each of them to Trace and deletes its key from the queue once it is sent. `Sender`
is the position of that loop; its three steps are the points at which other
processes can act on the queue.
-/

namespace Lba2Pba.Worker

open Py

/-- What the sender finds on its node: the extents that the FIEMAP call of `getPBA`
reports for a path, empty where it fails, and the host's name. -/
structure Env where
  getPBA : String → List PBA
  hostname : String

/-- The request that `sendPba` sends to Trace. Extents are read for every action but a
deletion, and an unknown action is only logged. -/
def sendPba (env : Env) (fname action volName t : String) : Option TChangeRequest :=
  let pba := if action = "delete" then [⟨"", env.hostname, default, default, default, default⟩]
    else env.getPBA fname
  let filePba : FilePBA := { fileName := fname, volName, pba, type := t }
  if action = "create" then some ⟨"create", filePba⟩
  else if action = "modify" then some ⟨"modify", filePba⟩
  else if action = "move" then some ⟨"move", filePba⟩
  else if action = "delete" then some ⟨"delete", filePba⟩
  else none

/-- The paths that the loops of `getFilePba` come to, from what `os.walk` lists: the
directories with the names of the files in them. -/
def scanned (walk : List (String × List String)) : List String :=
  (walk.filter (fun x =>
    !([".glusterfs", ".remove_me"].any (fun exclude => Str.isIn exclude x.1)))).flatMap fun x =>
      (x.2.filter (fun f => !(Str.isIn ".swp" f || Str.isIn ".smx" f))).map (Path.join x.1)

/-- The files that the scan of a brick reports. -/
def getFilePba (env : Env) (walk : List (String × List String)) (volume t : String) :
    List FilePBA :=
  (scanned walk).map fun fname =>
    { pba := env.getPBA fname, volName := volume, fileName := fname, type := t }

/-- `volName, t, action = data.split(":",2)`. -/
def fields (data : String) : Except Err (String × String × String) :=
  match Str.splitMax data ':' 2 with
  | [volName, t, action] => .ok (volName, t, action)
  | _ => .error .valueError

/-- The entries of a monitor are read back as they were written. -/
theorem fields_data (volume : Volume) (action : String) :
    fields (volume.data action) = .ok (volume.name, volume.type, action) := by
  have hsep : (":" : String).toList = [':'] := by decide
  have hcut : Str.splitMax (volume.data action) ':' 2 = [volume.name, volume.type, action] := by
    rw [Volume.data, Str.splitMax_append hsep volume.name_colon,
      Str.splitMax_append hsep volume.type_colon]
    simp [Str.splitMax, Str.cutChars]
  rw [fields, hcut]

/-! ## The loop over a queue -/

/-- The items of the last snapshot that are not done yet, and whether the first of
them has been sent. -/
structure Sender where
  rest : List (String × String)
  sent : Bool

namespace Sender

/-- Before the first snapshot. -/
def idle : Sender := ⟨[], false⟩

/-- `for path, data in self.targets[target].items()`, once the last snapshot is done. -/
def snapshot (s : Sender) (queue : Dict String String) : Sender :=
  match s.rest with
  | [] => ⟨queue.items, false⟩
  | _ :: _ => s

/-- Split the first item and send it. -/
def send (env : Env) (s : Sender) : Except Err (Sender × Option TChangeRequest) :=
  match s.rest, s.sent with
  | (path, data) :: _, false => do
    let (volName, t, action) ← fields data
    pure ({ s with sent := true }, sendPba env path action volName t)
  | _, _ => pure (s, none)

/-- `del self.targets[target][path]` for the item that was sent. -/
def remove (s : Sender) (queue : Dict String String) : Except Err (Sender × Dict String String) :=
  match s.rest, s.sent with
  | (path, _) :: rest, true =>
    if queue.contains path then .ok (⟨rest, false⟩, queue.erase path) else .error .keyError
  | _, _ => .ok (s, queue)

end Sender

/-- The request for an entry that a monitor has made. -/
def request (env : Env) (volume : Volume) (path : String) (k : Kind) : TChangeRequest :=
  ⟨k.action,
    { fileName := path, volName := volume.name, type := volume.type,
      pba := if k = .deleted then [⟨"", env.hostname, default, default, default, default⟩]
        else env.getPBA path }⟩

theorem sendPba_action (env : Env) (volume : Volume) (path : String) (k : Kind) :
    sendPba env path k.action volume.name volume.type = some (request env volume path k) := by
  cases k <;> rfl

theorem send_data (env : Env) (volume : Volume) (path : String) (k : Kind)
    (rest : List (String × String)) :
    Sender.send env ⟨(path, volume.data k.action) :: rest, false⟩ =
      .ok (⟨(path, volume.data k.action) :: rest, true⟩, some (request env volume path k)) := by
  simp only [Sender.send, fields_data]
  rw [← sendPba_action]
  rfl

/-- A node on which no file has extents. -/
def idleNode : Env := ⟨fun _ => [], "n"⟩

end Lba2Pba.Worker
