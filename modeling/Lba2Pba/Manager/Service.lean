import Lba2Pba.Messages
import Lba2Pba.Py.Str
import Lba2Pba.Py.Mutable
import Mathlib.Data.List.Dedup

/-!
# The Manager service

`DBFileManager` merges the file maps of all nodes. It keeps the messages of Trace
in `rawFM`, and for each PVC one entry per path relative to the directory of the
PVC in `FM`, which it pushes to the agents registered for that PVC.

An entry of `FM` can be the very message that stands in `rawFM`: at start-up the
message of a distributed file is renamed in place and entered into `FM`, once for
every PVC whose directory its name still contains. Entries and messages are
therefore references into a heap.

The answers of `kubectl` and the fate of each push belong to the environment.
-/

namespace Lba2Pba

open Py

/-- The object of the service. `pvcInfo` has the directory of each PVC, or the
message of the command that failed. -/
structure Manager where
  heap : Heap FilePBA
  rawFM : List Nat
  FM : Dict String (Dict String Nat)
  QAs : Dict String (List String)
  pvcInfo : Except String (Dict String String)
deriving DecidableEq

namespace Manager

/-- A `PushFile` call to a registered agent. -/
structure Call where
  addr : String
  request : FAPushRequest
deriving DecidableEq

/-- What happens outside the service: the PVC of the pod with an address, and which
of the calls raise. -/
structure Env where
  getPVC : String → String
  raises : Nat → Call → Bool

structure FMPushPbaResponse where
  msg : String
  status : String
deriving DecidableEq

/-- A block of a handler of the service. -/
abbrev Handler := Exec Manager Call

/-! ## Entries -/

/-- `fileName.split(f'{subdir}/')[1]`. -/
def relPath (subDir fileName : String) : Option String :=
  (Str.split fileName (subDir ++ "/"))[1]?

/-- `self.FM[pvcName][fname] = filePba` for a new message. -/
def setEntry (pvc fname : String) (filePba : FilePBA) (m : Manager) : Manager :=
  { m with heap := m.heap.alloc filePba, FM := m.FM.set2 pvc fname m.heap.next }

/-- `rPba.append(...)` on the message at `ref`. -/
def addReplica (ref : Nat) (replica : ReplicaPba) (m : Manager) : Manager :=
  let e := m.heap.get ref
  { m with heap := m.heap.put ref { e with rPba := e.rPba ++ [replica] } }

/-- Add the extents of a replicated file as those of one more node. -/
def replicate (pvc fname : String) (filePba : FilePBA) (m : Manager) : Except Err Manager :=
  match filePba.pba.head? with
  | none => .error .indexError
  | some first =>
    match m.FM.get? pvc with
    | none => .error .keyError
    | some files =>
      let replica : ReplicaPba := ⟨filePba.pba, first.host⟩
      match files.get? fname with
      | none => .ok (m.setEntry pvc fname
          { rPba := [replica], fileName := fname, volName := filePba.volName,
            type := filePba.type })
      | some ref => .ok (m.addReplica ref replica)

/-! ## Start-up -/

/-- One message of the loop in `pvcFMInsert`. -/
def insertFile (pvc subDir : String) (m : Manager) (ref : Nat) : Except Err Manager :=
  let filePba := m.heap.get ref
  if Str.isIn (subDir ++ "/") filePba.fileName then
    match relPath subDir filePba.fileName with
    | none => .error .indexError
    | some fname =>
      if filePba.type = "Distribute" then
        .ok { m with
          heap := m.heap.put ref { filePba with fileName := fname }
          FM := m.FM.set2 pvc fname ref }
      else if Str.isIn "Replicate" filePba.type then m.replicate pvc fname filePba
      else .ok m
  else .ok m

/-- `pvcFMInsert(pvcName)`. -/
def pvcFMInsert (m : Manager) (pvc subDir : String) : Except Err Manager :=
  m.rawFM.foldlM (insertFile pvc subDir)
    { m with FM := if m.FM.contains pvc then m.FM else m.FM.set pvc ∅ }

/-- `DBFileManager.__init__` with the reply of `TGetFileMap`. -/
def start (pvcInfo : Except String (Dict String String)) (fileMap : List FilePBA) :
    Except Err Manager :=
  let m : Manager := ⟨⟨fileMap⟩, List.range fileMap.length, ∅, ∅, pvcInfo⟩
  match pvcInfo with
  | .error _ => .ok m
  | .ok info => info.items.foldlM (fun m x => pvcFMInsert m x.1 x.2) m

/-! ## Agents -/

/-- `ip, port = addr.split(":")`. -/
def splitAddr (addr : String) : Except Err (String × String) :=
  match Str.split addr ":" with
  | [ip, port] => .ok (ip, port)
  | _ => .error .valueError

/-- `RegisterQA`, for an address `ip:port`. -/
def registerQA (env : Env) (addr : String) (m : Manager) : Except Err Manager := do
  let (ip, port) ← splitAddr addr
  let pvc := env.getPVC ip
  return { m with QAs := m.QAs.set pvc ((m.QAs.get? pvc).getD [] ++ [ip ++ ":" ++ port]) }

/-- `DeregisterQA` returns: the list is rebuilt from a set, in any order. -/
def DeregisterQA (env : Env) (addr : String) (m m' : Manager) : Prop :=
  ∃ ip port registered, splitAddr addr = .ok (ip, port) ∧
    m.QAs.get? (env.getPVC ip) = some registered ∧ ip ++ ":" ++ port ∈ registered ∧
    ∃ agents : List String, agents.Perm (registered.dedup.erase (ip ++ ":" ++ port)) ∧
      m' = { m with QAs := m.QAs.set (env.getPVC ip) agents }

/-- The file map of `GetFileMap`. -/
def getFileMap (env : Env) (ip : String) (m : Manager) : Except Err (List FilePBA) :=
  match m.FM.get? (env.getPVC ip) with
  | none => .error .keyError
  | some files => .ok (files.values.map m.heap.get)

/-! ## `PushPba` -/

/-- The PVC of a file: the last one whose directory occurs in its name. -/
def pvcOf (info : Dict String String) (fileName : String) : String :=
  info.items.foldl (fun pvc x => if Str.isIn x.2 fileName then x.1 else pvc) ""

/-- The loop over the agents of a PVC. -/
def pushAgents (env : Env) (pvc action : String) (filePba : Manager → Except Err FilePBA) :
    Handler Unit := do
  let m ← Exec.self
  Exec.forEach ((m.QAs.get? pvc).getD []) (fun addr => do
    let m ← Exec.self
    match filePba m with
    | .error e => Exec.raise e
    | .ok f => Exec.call env.raises ⟨addr, ⟨action, f⟩⟩)

/-- `self.FM[pvcName][rPath]`. -/
def entryAt (pvc rPath : String) (m : Manager) : Except Err FilePBA :=
  match m.FM.get2? pvc rPath with
  | some ref => .ok (m.heap.get ref)
  | none => .error .keyError

/-- Enter a created file into `FM`. -/
def store (pvc rPath : String) (filePba : FilePBA) (m : Manager) : Except Err Manager :=
  if filePba.type = "Distribute" then
    match m.FM.get? pvc with
    | none => .error .keyError
    | some _ => .ok (m.setEntry pvc rPath filePba)
  else if Str.isIn "Replicate" filePba.type then m.replicate pvc rPath filePba
  else .ok m

/-- `self.rawFM.fileMap.filePba.append(filePba)`, which copies the message. -/
def keepRaw (filePba : FilePBA) (m : Manager) : Manager :=
  { m with heap := m.heap.alloc filePba, rawFM := m.rawFM ++ [m.heap.next] }

def pushCreate (env : Env) (pvc subDir : String) (filePba : FilePBA) : Handler Unit := do
  Exec.update (keepRaw filePba)
  let rPath ← Exec.expr .indexError (relPath subDir filePba.fileName)
  Exec.attempt (store pvc rPath { filePba with fileName := rPath })
  pushAgents env pvc "create" (entryAt pvc rPath)

/-- Neither type changes an entry: the assignment to the repeated field `pba` and
the subscript of an entry both raise. -/
def pushModify (pvc subDir : String) (filePba : FilePBA) : Handler Unit := do
  let rPath ← Exec.expr .indexError (relPath subDir filePba.fileName)
  let m ← Exec.self
  if Str.isIn "Distribute" filePba.type then
    let _ ← Exec.expr .keyError (m.FM.get2? pvc rPath)
    Exec.raise .attributeError
  else if Str.isIn "Replicate" filePba.type then
    let _ ← Exec.expr .indexError filePba.pba.head?
    let ref ← Exec.expr .keyError (m.FM.get2? pvc rPath)
    if (m.heap.get ref).rPba.isEmpty then pure () else Exec.raise .typeError
  else pure ()

/-- The message at `ref` is named like the PVC. -/
def namedPvc (pvc : String) (m : Manager) (ref : Nat) : Bool := pvc = (m.heap.get ref).fileName

/-- The removal from `rawFM`, which compares the names with that of the PVC. For a
replicated file the first match raises. -/
def forgetRaw (pvc type : String) (m : Manager) : Except Err Manager :=
  if type = "Distribute" then .ok { m with rawFM := popLast (m.namedPvc pvc) m.rawFM }
  else if Str.isIn "Replicate" type then
    if m.rawFM.any (m.namedPvc pvc) then .error .attributeError else .ok m
  else .ok m

def pushDelete (env : Env) (pvc subDir : String) (filePba : FilePBA) : Handler Unit := do
  let rPath ← Exec.expr .indexError (relPath subDir filePba.fileName)
  let m ← Exec.self
  let _ ← Exec.expr .keyError (m.FM.get? pvc)
  Exec.update (fun m => { m with FM := m.FM.erase2 pvc rPath })
  Exec.attempt (forgetRaw pvc filePba.type)
  pushAgents env pvc "delete" (fun _ => .ok { filePba with fileName := rPath })

/-- The three actions, for a file of `pvc`. -/
def pushFor (env : Env) (request : FMPushPbaRequest) (pvc subDir : String) : Handler Unit :=
  if request.action = "create" then pushCreate env pvc subDir request.filePba
  else if request.action = "modify" then pushModify pvc subDir request.filePba
  else if request.action = "delete" then pushDelete env pvc subDir request.filePba
  else pure ()

/-- `PushPba(request)`. -/
def pushPba (env : Env) (request : FMPushPbaRequest) : Handler FMPushPbaResponse := do
  let m ← Exec.self
  match m.pvcInfo with
  | .error res => return ⟨res, "1"⟩
  | .ok info =>
    let pvc := pvcOf info request.filePba.fileName
    if pvc = "" then return ⟨"OK", "0"⟩
    else
      let subDir ← Exec.expr .keyError (info.get? pvc)
      pushFor env request pvc subDir
      return ⟨"OK", "0"⟩

end Manager

end Lba2Pba
