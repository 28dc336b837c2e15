import Lba2Pba.Messages
import Lba2Pba.Py.Str
import Mathlib.Data.List.Sort
import Mathlib.Data.List.Dedup

/-!
# The Trace service

`Trace` collects the extents of all files from the workers. It keeps them twice:
`fmDict[node][file]` has the extents of the base file and its shards apart, and
`rawFM[node][file]` is the entry that is published to the managers.

The extended attribute that `toShard` reads over ssh and the fate of each push to
a manager belong to the environment (`Env`); a handler is a block over the object
(`Py.Exec`), so what it changed before an exception stays changed.
-/

namespace Lba2Pba

open Py

/-- `fmDict[node][fname]`. -/
@[ext] structure Trace.Entry where
  shard : Dict String FilePBA
  pba : List PBA
  type : String
deriving DecidableEq

/-- The object of the service. -/
structure Trace where
  agent : List String
  rawFM : Dict String (Dict String FilePBA)
  fmDict : Dict String (Dict String Trace.Entry)
  shardDict : Dict (Option String) String
deriving DecidableEq

namespace Trace

/-- A `PushPba` call to a registered manager. -/
structure Call where
  addr : String
  request : FMPushPbaRequest
deriving DecidableEq

/-- What happens outside the service while it handles a request: the result of
`toShard`, with `none` where the command fails, and which of the calls raise. -/
structure Env where
  toShard : String → String → Option String
  raises : Nat → Call → Bool

/-! ## Start-up -/

/-- The lists and the dictionary that the loop over the peers fills. -/
structure Scan where
  rawFilePba : List FilePBA
  shardPba : List FilePBA
  shardDict : Dict (Option String) String

/-- One file of a `WInit` reply. -/
def Scan.add (toShard : String → String → Option String) (peer : String) (sc : Scan)
    (filePba : FilePBA) : Scan :=
  let fname := filePba.fileName
  if Str.isIn "/.shard/" fname then { sc with shardPba := sc.shardPba ++ [filePba] }
  else { sc with
    rawFilePba := sc.rawFilePba ++ [filePba]
    shardDict := sc.shardDict.set (toShard fname peer) fname }

/-- The loop over the peers, with the `WInit` reply of each. -/
def scan (toShard : String → String → Option String) (replies : List (String × List FilePBA)) :
    Scan :=
  replies.foldl (fun sc r => r.2.foldl (Scan.add toShard r.1) sc) ⟨[], [], ∅⟩

/-- `d[peer] = dict()` for every peer. -/
def peerDicts {α : Type} (peers : List String) : Dict String (Dict String α) :=
  peers.foldl (fun d p => d.set p ∅) ∅

/-- Enter a base file under the host of its first extent, unless it is there. -/
def enterBase (d : Dict String (Dict String Entry)) (fPba : FilePBA) :
    Except Err (Dict String (Dict String Entry)) :=
  match fPba.pba with
  | [] => .error .indexError
  | first :: _ =>
    match d.get? first.host with
    | none => .error .keyError
    | some files =>
      if files.contains fPba.fileName then .ok d
      else .ok (d.set2 first.host fPba.fileName ⟨∅, fPba.pba, fPba.type⟩)

/-- The gfid in the name `.../<gfid>.<k>` of a shard. -/
def shardKey (fileName : String) : String :=
  Str.firstPiece (Str.remove (Str.lastPiece fileName "/") '-') "."

/-- Enter a shard under `node` and the file that owns its gfid. -/
def enterShard (node : String) (shardDict : Dict (Option String) String)
    (d : Dict String (Dict String Entry)) (sPba : FilePBA) :
    Except Err (Dict String (Dict String Entry)) :=
  match shardDict.get? (some (shardKey sPba.fileName)) with
  | none => .error .keyError
  | some fname =>
    match d.get2? node fname with
    | none => .error .keyError
    | some entry =>
      .ok (d.set2 node fname { entry with shard := entry.shard.set sPba.fileName sPba })

/-- The variable `node` after the loop over the base files. -/
def lastNode (rawFilePba : List FilePBA) : String :=
  ((rawFilePba.getLast?.bind (fun f => f.pba.head?)).map PBA.host).getD ""

/-- `int(x.rsplit('.', 1)[1])`. -/
def shardIndex (name : String) : Except Err Int :=
  match Str.afterLast name '.' with
  | none => .error .indexError
  | some k =>
    match Str.int k with
    | none => .error .valueError
    | some i => .ok i

/-- `sorted(shards, key=...)`: the shards of an entry by their numeric index. The
sort is stable. -/
def sortedShards (shards : List (String × FilePBA)) : Except Err (List FilePBA) := do
  let keyed ← shards.mapM (fun x => do return (← shardIndex x.1, x.2))
  return (keyed.insertionSort (fun a b => a.1 ≤ b.1)).map Prod.snd

/-- The published entry of a file at start-up. -/
def assemble (fname : String) (entry : Entry) : Except Err FilePBA := do
  let shards ← sortedShards entry.shard.items
  return { pba := entry.pba ++ shards.flatMap FilePBA.pba, fileName := fname, type := entry.type }

/-- The nested loops that fill `rawFM`. -/
def assembleAll (fmDict : Dict String (Dict String Entry))
    (rawFM : Dict String (Dict String FilePBA)) : Except Err (Dict String (Dict String FilePBA)) :=
  fmDict.flat.foldlM (fun raw x => do
    let e ← assemble x.1.2 x.2
    return raw.set2 x.1.1 x.1.2 e) rawFM

/-- `Trace.__init__` with the reply of each peer, in the order of the peers. -/
def init (toShard : String → String → Option String) (replies : List (String × List FilePBA)) :
    Except Err Trace := do
  let sc := scan toShard replies
  let peers := replies.map Prod.fst
  if sc.rawFilePba.isEmpty then
    return { agent := [], rawFM := peerDicts peers, fmDict := peerDicts peers,
             shardDict := sc.shardDict }
  else
    let d ← sc.rawFilePba.foldlM enterBase (peerDicts peers)
    let node := lastNode sc.rawFilePba
    let d ← sc.shardPba.foldlM (enterShard node sc.shardDict) d
    let raw ← assembleAll d (peerDicts peers)
    return { agent := [], rawFM := raw, fmDict := d, shardDict := sc.shardDict }

/-! ## `TChangeFile` -/

inductive TChangeResponse
  | OK
  | Fail
deriving DecidableEq

/-- A block of a handler of the service. -/
abbrev Handler := Exec Trace Call

/-- What `TChangeFile` takes for a shard. -/
def isShard (fileName : String) : Bool := Str.isIn ".shard" fileName

/-- The key under which `TChangeFile` looks a shard up. Unlike `shardKey` it keeps
the index. -/
def changeKey (fileName : String) : String := Str.remove (Str.lastPiece fileName "/") '-'

/-- `shardList = ...keys()` and, where it is not empty, `shardList.sort()`, which a
key view does not have. -/
def sortView (view : List String) : Handler Unit :=
  if view.isEmpty then pure () else Exec.raise .attributeError

/-- `self.rawFM[node][fname] = _filePba`. -/
def setRaw (node fname : String) (filePba : FilePBA) : Handler Unit := do
  let t ← Exec.self
  let _ ← Exec.expr .keyError (t.rawFM.get? node)
  Exec.update (fun t => { t with rawFM := t.rawFM.set2 node fname filePba })

/-- `fname = self.shardDict[sKey]` and `self.fmDict[node][fname]`. -/
def shardOwner (node sName : String) : Handler (String × Entry) := do
  let t ← Exec.self
  let fname ← Exec.expr .keyError (t.shardDict.get? (some (changeKey sName)))
  let entry ← Exec.expr .keyError (t.fmDict.get2? node fname)
  return (fname, entry)

def createBase (env : Env) (node : String) (fPba : FilePBA) : Handler String := do
  let fname := fPba.fileName
  let t ← Exec.self
  let files ← Exec.expr .keyError (t.fmDict.get? node)
  Exec.update (fun t =>
    if files.contains fname then t
    else { t with fmDict := t.fmDict.set2 node fname ⟨∅, fPba.pba, fPba.type⟩ })
  let shardName := env.toShard fname node
  Exec.update (fun t => { t with
    shardDict := t.shardDict.set shardName (Str.lastPiece fname "/") })
  setRaw node fname { pba := fPba.pba, fileName := fname, type := fPba.type }
  return fname

def createShard (node : String) (fPba : FilePBA) : Handler String := do
  let sName := fPba.fileName
  let (fname, entry) ← shardOwner node sName
  let entry' := { entry with shard := entry.shard.set sName fPba }
  Exec.update (fun t => { t with fmDict := t.fmDict.set2 node fname entry' })
  sortView entry'.shard.keys
  -- only reached without shards, so there is nothing to add to the base extents
  setRaw node fname { pba := entry'.pba, fileName := fname, type := entry'.type }
  return fname

/-- The list built here holds the new extents as one element, and is dropped. -/
def modifyBase (node : String) (fPba : FilePBA) : Handler String := do
  let fname := fPba.fileName
  let t ← Exec.self
  let entry ← Exec.expr .keyError (t.fmDict.get2? node fname)
  Exec.update (fun t => { t with
    fmDict := t.fmDict.set2 node fname { entry with pba := fPba.pba } })
  sortView entry.shard.keys
  return fname

/-- The shards are looked up at `self.fmDict[fname]['shard']`, without the node. -/
def modifyShard (node : String) (fPba : FilePBA) : Handler String := do
  let sName := fPba.fileName
  let (fname, entry) ← shardOwner node sName
  let entry' := { entry with shard := entry.shard.set sName fPba }
  Exec.update (fun t => { t with fmDict := t.fmDict.set2 node fname entry' })
  let t ← Exec.self
  let files ← Exec.expr .keyError (t.fmDict.get? fname)
  let _ ← Exec.expr .keyError (files.get? "shard")
  -- the keys of an entry, should a node and a file of these names exist
  sortView ["shard", "pba", "type"]
  setRaw node fname { pba := entry'.pba, fileName := fname, type := entry'.type }
  return fname

/-- The loop over `shardDict.items()` deletes the first key of `fname`, and the
next step of the iteration raises. -/
def forgetShards (fname : String) : Handler Unit := do
  let t ← Exec.self
  match t.shardDict.items.find? (fun x => decide (x.2 = fname)) with
  | some x =>
    Exec.update (fun t => { t with shardDict := t.shardDict.erase x.1 })
    Exec.raise .runtimeError
  | none => pure ()

/-- The loop over the registered managers. -/
def pushAll (env : Env) (action : String) (filePba : Trace → Except Err FilePBA) :
    Handler Unit := do
  let t ← Exec.self
  Exec.forEach t.agent (fun addr => do
    let t ← Exec.self
    match filePba t with
    | .error e => Exec.raise e
    | .ok f => Exec.call env.raises ⟨addr, ⟨action, f⟩⟩)

/-- `self.rawFM[node][fname]`. -/
def rawEntry (node fname : String) (t : Trace) : Except Err FilePBA :=
  match t.rawFM.get2? node fname with
  | some f => .ok f
  | none => .error .keyError

/-- `FilePBA` built from `self.rawFM[fname]`, where a node is expected: the keyword
arguments are the files of that node, and none of them is a field. -/
def rawNode (fname : String) (t : Trace) : Except Err FilePBA :=
  match t.rawFM.get? fname with
  | none => .error .keyError
  | some files => if files.items.isEmpty then .ok default else .error .valueError

def deleteBase (env : Env) (node : String) (fPba : FilePBA) : Handler Unit := do
  let fname := fPba.fileName
  let t ← Exec.self
  let _ ← Exec.expr .keyError (t.fmDict.get2? node fname)
  Exec.update (fun t => { t with fmDict := t.fmDict.erase2 node fname })
  let t ← Exec.self
  let _ ← Exec.expr .keyError (t.rawFM.get2? node fname)
  Exec.update (fun t => { t with rawFM := t.rawFM.erase2 node fname })
  forgetShards fname
  pushAll env "delete" (fun _ => .ok { fileName := fname, type := fPba.type })

def deleteShard (env : Env) (node : String) (fPba : FilePBA) : Handler Unit := do
  let sName := fPba.fileName
  let (fname, entry) ← shardOwner node sName
  let _ ← Exec.expr .keyError (entry.shard.get? sName)
  let entry' := { entry with shard := entry.shard.erase sName }
  Exec.update (fun t => { t with fmDict := t.fmDict.set2 node fname entry' })
  sortView entry'.shard.keys
  setRaw node fname { pba := entry'.pba, fileName := fname, type := "" }
  pushAll env "modify" (rawNode fname)

/-- `TChangeFile` inside its `try`. -/
def change (env : Env) (request : TChangeRequest) : Handler TChangeResponse := do
  let fPba := request.filePba
  let first ← Exec.expr .indexError fPba.pba.head?
  let node := first.host
  if request.action = "create" then
    let fname ← if isShard fPba.fileName then createShard node fPba else createBase env node fPba
    pushAll env "create" (rawEntry node fname)
    return .OK
  else if request.action = "modify" then
    let fname ← if isShard fPba.fileName then modifyShard node fPba else modifyBase node fPba
    pushAll env "modify" (rawEntry node fname)
    return .OK
  else if request.action = "delete" then
    if isShard fPba.fileName then deleteShard env node fPba else deleteBase env node fPba
    return .OK
  else return .Fail

/-- `TChangeFile(request)`. -/
def tChangeFile (env : Env) (request : TChangeRequest) : Handler TChangeResponse :=
  Exec.tryExcept (change env request) (pure .Fail)

/-! ## The other handlers -/

/-- The file map of `TGetFileMap`. -/
def tGetFileMap (t : Trace) : List FilePBA := t.rawFM.flat.map Prod.snd

def tRegister (addr : String) (t : Trace) : Trace := { t with agent := t.agent ++ [addr] }

/-- `TDeregister` returns: the list is rebuilt from a set, in any order. -/
def TDeregister (addr : String) (t t' : Trace) : Prop :=
  addr ∈ t.agent ∧ ∃ agents : List String, agents.Perm (t.agent.dedup.erase addr) ∧
    t' = { t with agent := agents }

end Trace

end Lba2Pba
