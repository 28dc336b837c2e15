import Lba2Pba.Py.Path
import Lba2Pba.Py.Loop
import Lba2Pba.Py.Rely
import Lba2Pba.Query.ShardOrder

/-!
# The Query Agent as a server

`lba2pba_query_agent.py` keeps the layout of all files of a mounted volume in `FM`.
`initFM` lists the files and asks the manager for each of them, `getPBA` answers from
`FM`, and every `initFM` starts a loop (`UpdatePush`) that looks for changes every five
seconds. The web server gives each request a thread of its own and there is no lock, so
the handlers are sequences of statements (`Py.Thread`), and the world outside changes
while they run: a change is one more step that any run can take (`Request.change`).

`UpdatePush` renews `FMState` and leaves `FM` alone. Only `initFM` writes `FM`, one file
at a time, and nothing removes a file from it.
-/

namespace Lba2Pba.Query.Server

open Py

/-! ## The world outside -/

/-- What the agent can observe at one moment: the output of its commands, the walk over a
directory with the subdirectories and files at each point, the times of files, how deep
calls can be nested, and the commands and nodes behind the manager. -/
structure World where
  mount : Except String String
  ifconfig : Except String String
  walk : String → List (String × List String × List String)
  getmtime : String → Except Err Int
  depth : Nat
  cmds : Commands
  nodes : Nodes

/-- `fileState(dic)`. The walks over the subdirectories start from their bare names, and
their results are dropped. -/
def fileState (w : World) : Nat → String → Except Err (Dict String Int)
  | 0, _ => .error .runtimeError
  | depth + 1, dic =>
    (w.walk dic).foldlM (fun state point => do
      point.2.1.foldlM (fun _ d => (fileState w depth d).map (fun _ => ())) ()
      point.2.2.foldlM (fun state f =>
        if Str.isIn ".swp" f then .ok state
        else do
          let p := Path.join point.1 f
          let mtime ← w.getmtime p
          return state.set p mtime) state) ∅

/-- `FMState != curFMState` is false: the same items, in any order. -/
def sameItems (d e : Dict String Int) : Bool :=
  d.items.length == e.items.length && d.items.all (fun x => e.get? x.1 == some x.2)

/-! ## The object -/

/-- The globals of the agent. -/
structure QueryAgent where
  FMState : Dict String Int
  FM : Dict String (List RangedChunk)
  Subvol : String
  Volume : String

/-- The agent, the world as it is now and as it was before, oldest first. -/
structure Site where
  agent : QueryAgent
  past : List World
  now : World

/-- The worlds since the start. -/
def Site.worlds (s : Site) : List World := s.past ++ [s.now]

def Site.setFMState (state : Dict String Int) (s : Site) : Site :=
  { s with agent := { s.agent with FMState := state } }

def Site.setSubvol (Subvol : String) (s : Site) : Site :=
  { s with agent := { s.agent with Subvol := Subvol } }

def Site.setVolume (Volume : String) (s : Site) : Site :=
  { s with agent := { s.agent with Volume := Volume } }

/-- `FM[fName] = pba`. -/
def Site.setFM (fName : String) (pba : List RangedChunk) (s : Site) : Site :=
  { s with agent := { s.agent with FM := s.agent.FM.set fName pba } }

def Site.change (w : World) (s : Site) : Site := { s with past := s.past ++ [s.now], now := w }

/-! ## The handlers -/

/-- What a handler returns. -/
inductive Reply
  | fm (FM : Option (Dict String (List RangedChunk)))
  | pba (name : String) (data : Dict String (List Chunk))
  | ended

/-- A block of a handler. The calls to the manager return within one statement. -/
abbrev Block := Thread Site Empty

/-- A call that returns or raises. -/
def result {α : Type} (x : Except Err α) : Block α := Thread.done x

/-- `file2PBA(fName, RootDic)`. If the manager has no reply, its answer is no JSON. -/
def file2PBA (fName rootDic : String) : Block (List RangedChunk) := do
  let name ← Thread.expr .indexError (Str.split fName rootDic)[1]?
  let s ← Thread.self
  let path := s.agent.Subvol ++ name
  let s ← Thread.self
  let volume := s.agent.Volume
  let s ← Thread.self
  Thread.expr .valueError (getPBAOf s.now.cmds s.now.nodes path volume)

def subvol : String := "subvol/23/67/pvc-b7006d8c-41cb-4867-8c44-afc28233377e"

def volume : String := "k8s-pv1"

/-- One pass of the loop of `initFM`. -/
def fetch (rootDic fName : String) : Block Unit := do
  let pba ← file2PBA fName rootDic
  Thread.update (Site.setFM fName pba)

/-- `initFM` from the call of `ifconfig` on. -/
def fetchAll (rootDic : String) : Block Unit := do
  let s ← Thread.self
  match s.now.ifconfig with
  | .error _ => pure ()
  | .ok res => do
    let _ ← Thread.expr .indexError (Str.words res)[1]?
    Thread.update (Site.setSubvol subvol)
    Thread.update (Site.setVolume volume)
    let s ← Thread.self
    Thread.forEach s.agent.FMState.keys (fetch rootDic)

/-- `initFM()`. The thread that it starts is a request of its own (`Request.updatePush`). -/
def initFM : Block Reply := do
  let s ← Thread.self
  match s.now.mount with
  | .error _ => return .fm none
  | .ok res => do
    let rootDic ← Thread.expr .indexError (Str.words res)[2]?
    let s ← Thread.self
    let state ← result (fileState s.now s.now.depth rootDic)
    Thread.update (Site.setFMState state)
    fetchAll rootDic
    let s ← Thread.self
    return .fm (some s.agent.FM)

/-- The first passes of the loop in `UpdatePush(RootDic)`. -/
def updatePush (rootDic : String) : Nat → Block Reply
  | 0 => pure .ended
  | passes + 1 => do
    let s ← Thread.self
    let state := s.agent.FMState
    let s ← Thread.self
    let cur ← result (fileState s.now s.now.depth rootDic)
    if sameItems state cur then pure ()
    else do
      let s ← Thread.self
      let cur ← result (fileState s.now s.now.depth rootDic)
      Thread.update (Site.setFMState cur)
    updatePush rootDic passes

/-- The loop of `LB2PBA` over the positions of the keys that `FM` had at its start. -/
def lb2pbaLoop (path : String) (start stop : Int) : List Nat → List Chunk → Block (List Chunk)
  | [], result => pure result
  | i :: is, result => do
    let s ← Thread.self
    let f ← Thread.expr .indexError s.agent.FM.keys[i]?
    if path ≠ f then lb2pbaLoop path start stop is result
    else do
      let s ← Thread.self
      let data ← Thread.expr .keyError (s.agent.FM.get? f)
      lb2pbaLoop path start stop is
        (data.foldl (scanStep start stop) ⟨false, false, result⟩).result

/-- `LB2PBA(path, sector, length)`. -/
def lb2pba (path : String) (sector length : Int) : Block (List Chunk) := do
  let s ← Thread.self
  lb2pbaLoop path sector (sector + length) (List.range s.agent.FM.keys.length) []

/-- `getPBA()` for the values `fpath` and `offsets` of the form. -/
def getPBA (fpath : String) : List (String × Int × Int) → Dict String (List Chunk) → Block Reply
  | [], data => pure (.pba fpath data)
  | (index, offset, length) :: offsets, data => do
    let pba ← lb2pba fpath offset length
    getPBA fpath offsets (data.set index pba)

/-- What can happen: the two routes, a loop that some `initFM` has started, and a change
of the world. -/
inductive Request
  | initFM
  | getPBA (fpath : String) (offsets : Dict String (Int × Int))
  | updatePush (rootDic : String) (passes : Nat)
  | change (w : World)

/-- The requests are numbered, so that any number of them can be in progress. -/
def serve : Nat × Request → Block Reply
  | (_, .initFM) => initFM
  | (_, .getPBA fpath offsets) => getPBA fpath offsets.items ∅
  | (_, .updatePush rootDic passes) => updatePush rootDic passes
  | (_, .change w) => do
    Thread.update (Site.change w)
    return .ended

/-! ## The walk -/

/-- The paths of the files that `fileState` lists. -/
def World.listed (w : World) (dic : String) : List String :=
  (w.walk dic).flatMap (fun point =>
    (point.2.2.filter (fun f => !Str.isIn ".swp" f)).map (Path.join point.1))

theorem keys_fileState {w : World} {depth : Nat} {dic : String} {state : Dict String Int}
    (h : fileState w depth dic = .ok state) (p : String) :
    p ∈ state.keys ↔ p ∈ w.listed dic := by
  cases depth with
  | zero => cases h
  | succ depth =>
    refine foldlM_inv (P := fun done state => p ∈ state.keys ↔ p ∈ done.flatMap
      (fun point => (point.2.2.filter (fun f => !Str.isIn ".swp" f)).map (Path.join point.1)))
      (by simp [Dict.mem_keys_iff]) ?_ h
    intro done point rest _ t t' ht hstep
    obtain ⟨-, -, hfiles⟩ := bind_eq_ok.1 hstep
    rw [List.flatMap_append, List.mem_append, ← ht, List.flatMap_singleton]
    refine foldlM_inv (P := fun files state => p ∈ state.keys ↔ p ∈ t.keys ∨
      p ∈ (files.filter (fun f => !Str.isIn ".swp" f)).map (Path.join point.1)) (by simp) ?_ hfiles
    intro files f more _ u u' hu hset
    rw [List.filter_append, List.map_append, List.mem_append, ← or_assoc, ← hu]
    split at hset
    · rename_i hswp
      cases hset
      simp [hswp]
    · rename_i hswp
      obtain ⟨mtime, -, hset⟩ := bind_eq_ok.1 hset
      cases hset
      rw [Dict.mem_keys_set]
      simp [hswp, or_comm]

end Lba2Pba.Query.Server
