import Lba2Pba.Py.Thread
import Lba2Pba.Trace.Step

/-!
# `TChangeFile`, statement by statement

The server runs up to ten handlers at the same time and takes no lock. Here a handler
is the sequence of its statements (`Py.Thread`): each read of the object, each
assignment and deletion, each call and each step of the iteration over `shardDict`
is one of them. Alone, it is the handler of `Trace.Service` (`tChangeFile_solo`).

An iterator over a dictionary raises when the size of the dictionary is no longer
what it was at the start. What it shows while others have exchanged items and kept
the size is left open (`Visit`).
-/

namespace Lba2Pba.Trace.Threaded

open Py

/-- A block of a handler of the service. -/
abbrev Block := Thread Trace Call

/-- The item that an iterator over a dictionary shows at a position, if it shows one. -/
abbrev Visit := Nat → Dict (Option String) String → Option (Option String × String)

/-- What an iterator shows if nobody else changes the dictionary. -/
def inOrder : Visit := fun i d => d.items[i]?

/-- `shardList.sort()`, as in `Trace.sortView`. -/
def sortView (view : List String) : Block Unit :=
  if view.isEmpty then pure () else Thread.raise .attributeError

/-- `self.rawFM[node][fname] = _filePba`. -/
def setRaw (node fname : String) (filePba : FilePBA) : Block Unit :=
  Thread.attempt (fun t => match t.rawFM.get? node with
    | none => .error .keyError
    | some _ => .ok { t with rawFM := t.rawFM.set2 node fname filePba })

/-- An assignment inside `self.fmDict[node][fname]`. -/
def setEntry (node fname : String) (change : Entry → Except Err Entry) : Block Unit :=
  Thread.attempt (fun t => match t.fmDict.get2? node fname with
    | none => .error .keyError
    | some entry =>
      match change entry with
      | .error e => .error e
      | .ok entry' => .ok { t with fmDict := t.fmDict.set2 node fname entry' })

/-- The expression `self.fmDict[node][fname]`. -/
def getEntry (node fname : String) : Block Entry := do
  let t ← Thread.self
  Thread.expr .keyError (t.fmDict.get2? node fname)

/-- `fname = self.shardDict[sKey]`. -/
def shardOwner (sName : String) : Block String := do
  let t ← Thread.self
  Thread.expr .keyError (t.shardDict.get? (some (changeKey sName)))

def createBase (env : Env) (node : String) (fPba : FilePBA) : Block String := do
  let fname := fPba.fileName
  let t ← Thread.self
  let files ← Thread.expr .keyError (t.fmDict.get? node)
  -- the file is entered by what the check has seen
  if files.contains fname then pure ()
  else Thread.update (fun t => { t with
    fmDict := t.fmDict.set2 node fname ⟨∅, fPba.pba, fPba.type⟩ })
  let shardName := env.toShard fname node
  Thread.update (fun t => { t with
    shardDict := t.shardDict.set shardName (Str.lastPiece fname "/") })
  setRaw node fname { pba := fPba.pba, fileName := fname, type := fPba.type }
  return fname

def createShard (node : String) (fPba : FilePBA) : Block String := do
  let sName := fPba.fileName
  let fname ← shardOwner sName
  setEntry node fname (fun entry => .ok { entry with shard := entry.shard.set sName fPba })
  let entry ← getEntry node fname
  sortView entry.shard.keys
  setRaw node fname { pba := entry.pba, fileName := fname, type := entry.type }
  return fname

def modifyBase (node : String) (fPba : FilePBA) : Block String := do
  let fname := fPba.fileName
  setEntry node fname (fun entry => .ok { entry with pba := fPba.pba })
  let entry ← getEntry node fname
  sortView entry.shard.keys
  return fname

def modifyShard (node : String) (fPba : FilePBA) : Block String := do
  let sName := fPba.fileName
  let fname ← shardOwner sName
  setEntry node fname (fun entry => .ok { entry with shard := entry.shard.set sName fPba })
  let entry ← getEntry node fname
  let t ← Thread.self
  let files ← Thread.expr .keyError (t.fmDict.get? fname)
  let _ ← Thread.expr .keyError (files.get? "shard")
  sortView ["shard", "pba", "type"]
  setRaw node fname { pba := entry.pba, fileName := fname, type := entry.type }
  return fname

/-- `del self.shardDict[key]`. -/
def delShard (key : Option String) : Block Unit :=
  Thread.attempt (fun t =>
    if t.shardDict.contains key then .ok { t with shardDict := t.shardDict.erase key }
    else .error .keyError)

/-- The rest of the loop over `self.shardDict.items()`, which had `size` items at its
start and has `left` of them to show. -/
def forgetLoop (visit : Visit) (fname : String) (size : Nat) : Nat → Block Unit
  | 0 => do
    let t ← Thread.self
    if t.shardDict.items.length = size then pure () else Thread.raise .runtimeError
  | left + 1 => do
    let t ← Thread.self
    if t.shardDict.items.length = size then
      match visit (size - (left + 1)) t.shardDict with
      | none => pure ()
      | some (key, value) => do
        if value = fname then delShard key else pure ()
        forgetLoop visit fname size left
    else Thread.raise .runtimeError

/-- `for key, value in self.shardDict.items(): ...`. -/
def forgetShards (visit : Visit) (fname : String) : Block Unit := do
  let t ← Thread.self
  forgetLoop visit fname t.shardDict.items.length t.shardDict.items.length

/-- The loop over the registered managers. -/
def pushAll (env : Env) (action : String) (filePba : Trace → Except Err FilePBA) :
    Block Unit := do
  let t ← Thread.self
  Thread.forEach t.agent (fun addr => do
    let t ← Thread.self
    match filePba t with
    | .error e => Thread.raise e
    | .ok f => Thread.call env.raises ⟨addr, ⟨action, f⟩⟩)

/-- `del self.fmDict[node][fname]`. -/
def delFile (node fname : String) : Block Unit :=
  Thread.attempt (fun t => match t.fmDict.get2? node fname with
    | none => .error .keyError
    | some _ => .ok { t with fmDict := t.fmDict.erase2 node fname })

/-- `del self.rawFM[node][fname]`. -/
def delRaw (node fname : String) : Block Unit :=
  Thread.attempt (fun t => match t.rawFM.get2? node fname with
    | none => .error .keyError
    | some _ => .ok { t with rawFM := t.rawFM.erase2 node fname })

def deleteBase (env : Env) (visit : Visit) (node : String) (fPba : FilePBA) : Block Unit := do
  let fname := fPba.fileName
  delFile node fname
  delRaw node fname
  forgetShards visit fname
  pushAll env "delete" (fun _ => .ok { fileName := fname, type := fPba.type })

def deleteShard (env : Env) (node : String) (fPba : FilePBA) : Block Unit := do
  let sName := fPba.fileName
  let fname ← shardOwner sName
  setEntry node fname (fun entry =>
    if entry.shard.contains sName then .ok { entry with shard := entry.shard.erase sName }
    else .error .keyError)
  let entry ← getEntry node fname
  sortView entry.shard.keys
  setRaw node fname { pba := entry.pba, fileName := fname, type := "" }
  pushAll env "modify" (rawNode fname)

/-- `TChangeFile` inside its `try`. -/
def change (env : Env) (visit : Visit) (request : TChangeRequest) : Block TChangeResponse := do
  let fPba := request.filePba
  let first ← Thread.expr .indexError fPba.pba.head?
  let node := first.host
  if request.action = "create" then
    let fname ← if isShard fPba.fileName then createShard node fPba else createBase env node fPba
    pushAll env "create" (rawEntry node fname)
    return .OK
  else if request.action = "modify" then
    let fname ← if isShard fPba.fileName then modifyShard node fPba else modifyBase node fPba
    pushAll env "modify" (rawEntry node fname)
    return .OK
  else if request.action = "delete" then
    if isShard fPba.fileName then deleteShard env node fPba else deleteBase env visit node fPba
    return .OK
  else return .Fail

/-- `TChangeFile(request)`. -/
def tChangeFile (env : Env) (visit : Visit) (request : TChangeRequest) : Block TChangeResponse :=
  Thread.tryExcept (change env visit request) (pure .Fail)

/-! ## Alone -/

theorem sortView_solo (view : List String) : (sortView view).Solo (Trace.sortView view) := by
  unfold sortView Trace.sortView
  split
  · exact .pure ()
  · exact .raise _

theorem setRaw_solo (node fname : String) (f : FilePBA) :
    (setRaw node fname f).Solo (Trace.setRaw node fname f) := by
  intro s
  cases h : s.self.rawFM.get? node with
  | none => simp [setRaw, Trace.setRaw, Thread.attempt, Thread.run, h]
  | some raws => simp [setRaw, Trace.setRaw, Thread.attempt, Thread.run, h]

section Solo

variable {α : Type} (node fname : String) (s : Frame Trace Call)

/-- An entry is changed and read again. -/
theorem setEntry_run (change : Entry → Except Err Entry) (next : Entry → Block α) :
    (setEntry node fname change >>= fun _ => getEntry node fname >>= next).run s =
      match s.self.fmDict.get2? node fname with
      | none => (.error .keyError, s)
      | some entry => match change entry with
        | .error e => (.error e, s)
        | .ok entry' => (next entry').run
            { s with self := { s.self with fmDict := s.self.fmDict.set2 node fname entry' } } := by
  cases he : s.self.fmDict.get2? node fname with
  | none => simp [setEntry, Thread.attempt, Thread.run_bind, Thread.run, he]
  | some entry =>
    cases hc : change entry with
    | error e => simp [setEntry, Thread.attempt, Thread.run_bind, Thread.run, he, hc]
    | ok entry' =>
      have hread := Dict.get2?_set2 (f := fname) (g := fname) (m := node) (v := entry')
        (Dict.mem_keys_of_get2? he)
      rw [if_pos ⟨rfl, rfl⟩] at hread
      simp [setEntry, getEntry, Thread.attempt, Thread.self, Thread.run_bind, Thread.run, he, hc,
        hread]

theorem shardOwner_run (sName : String) (next : String → Block α) :
    (shardOwner sName >>= next).run s =
      match s.self.shardDict.get? (some (changeKey sName)) with
      | none => (.error .keyError, s)
      | some fname => (next fname).run s := by
  cases h : s.self.shardDict.get? (some (changeKey sName)) with
  | none => simp [shardOwner, Thread.self, Thread.run_bind, Thread.run, Thread.raise, h]
  | some fname => simp [shardOwner, Thread.self, Thread.run_bind, Thread.run, h]

theorem owner_run (sName : String) (next : String × Entry → Handler α) :
    (Trace.shardOwner node sName >>= next).run s =
      match s.self.shardDict.get? (some (changeKey sName)) with
      | none => (.error .keyError, s)
      | some fname => match s.self.fmDict.get2? node fname with
        | none => (.error .keyError, s)
        | some entry => (next (fname, entry)).run s := by
  cases h : s.self.shardDict.get? (some (changeKey sName)) with
  | none => simp [Trace.shardOwner, h]
  | some fname =>
    cases h2 : s.self.fmDict.get2? node fname with
    | none => simp [Trace.shardOwner, h, h2]
    | some entry => simp [Trace.shardOwner, h, h2]

theorem createShard_solo (f : FilePBA) :
    (createShard node f).Solo (Trace.createShard node f) := by
  intro s
  unfold createShard Trace.createShard
  rw [shardOwner_run, owner_run]
  split
  · rfl
  · rw [setEntry_run]
    split
    · rfl
    · exact ((sortView_solo _).bind (fun _ => (setRaw_solo _ _ _).bind (fun _ => .pure _))) _

theorem modifyBase_solo (f : FilePBA) : (modifyBase node f).Solo (Trace.modifyBase node f) := by
  intro s
  unfold modifyBase Trace.modifyBase
  rw [setEntry_run, Exec.run_self_bind]
  cases s.self.fmDict.get2? node f.fileName with
  | none => rfl
  | some entry => exact ((sortView_solo _).bind (fun _ => .pure _)) _

theorem modifyShard_solo (f : FilePBA) :
    (modifyShard node f).Solo (Trace.modifyShard node f) := by
  intro s
  unfold modifyShard Trace.modifyShard
  rw [shardOwner_run, owner_run]
  split
  · rfl
  · rw [setEntry_run]
    split
    · rfl
    · exact (Thread.Solo.self.bind (fun t => (Thread.Solo.expr _ _).bind (fun _ =>
        (Thread.Solo.expr _ _).bind (fun _ => (sortView_solo _).bind (fun _ =>
          (setRaw_solo _ _ _).bind (fun _ => .pure _)))))) _

theorem pushAll_solo (env : Env) (action : String) (g : Trace → Except Err FilePBA) :
    (pushAll env action g).Solo (Trace.pushAll env action g) := by
  refine Thread.Solo.self.bind (fun t => Thread.Solo.forEach (fun addr => ?_) _)
  refine Thread.Solo.self.bind (fun t => ?_)
  cases g t with
  | error e => exact .raise e
  | ok f => exact .call _ _

theorem deleteShard_solo (env : Env) (f : FilePBA) :
    (deleteShard env node f).Solo (Trace.deleteShard env node f) := by
  intro s
  unfold deleteShard Trace.deleteShard
  rw [shardOwner_run, owner_run]
  split
  · rfl
  · rw [setEntry_run]
    split
    · rfl
    · rename_i entry he
      cases hs : entry.shard.get? f.fileName with
      | none => simp [Dict.contains, hs]
      | some old =>
        simp only [Dict.contains, hs, Option.isSome_some, if_true]
        exact ((sortView_solo _).bind (fun _ => (setRaw_solo _ _ _).bind (fun _ =>
          pushAll_solo env _ _))) _

theorem createBase_solo (env : Env) (f : FilePBA) :
    (createBase env node f).Solo (Trace.createBase env node f) := by
  refine Thread.Solo.self.bind (fun t => (Thread.Solo.expr _ _).bind (fun files => ?_))
  by_cases hc : files.contains f.fileName = true
  · simp only [hc, if_true]
    exact fun s => ((Thread.Solo.update _).bind (fun _ => (setRaw_solo _ _ _).bind
      (fun _ => .pure _))) s
  · simp only [hc]
    exact (Thread.Solo.update _).bind (fun _ => (Thread.Solo.update _).bind (fun _ =>
      (setRaw_solo _ _ _).bind (fun _ => .pure _)))

/-- Once an item is gone, the iterator raises. -/
theorem forgetLoop_changed (visit : Visit) {size : Nat} (left : Nat)
    (h : s.self.shardDict.items.length ≠ size) :
    (forgetLoop visit fname size left).run s = (.error .runtimeError, s) := by
  cases left with
  | zero => simp [forgetLoop, Thread.self, Thread.run_bind, Thread.run, Thread.raise, h]
  | succ left => simp [forgetLoop, Thread.self, Thread.run_bind, Thread.run, Thread.raise, h]

theorem forgetLoop_run (l₁ l₂ : List (Option String × String))
    (h : s.self.shardDict.items = l₁ ++ l₂) :
    (forgetLoop inOrder fname s.self.shardDict.items.length l₂.length).run s =
      match l₂.find? (fun x => decide (x.2 = fname)) with
      | none => (.ok (), s)
      | some x => (.error .runtimeError,
          { s with self := { s.self with shardDict := s.self.shardDict.erase x.1 } }) := by
  induction l₂ generalizing l₁ with
  | nil => simp [forgetLoop, Thread.self, Thread.run_bind, Thread.run]
  | cons x l₂ ih =>
    have hpos : s.self.shardDict.items.length - (l₂.length + 1) = l₁.length := by
      rw [h, List.length_append, List.length_cons]
      omega
    have hshow : inOrder l₁.length s.self.shardDict = some x := by
      rw [inOrder, h, List.getElem?_append_right (Nat.le_refl _), Nat.sub_self]
      rfl
    have hrest := ih (l₁ ++ [x]) (by rw [h, List.append_assoc]; rfl)
    by_cases hx : x.2 = fname
    · have hmem : s.self.shardDict.get? x.1 = some x.2 :=
        Dict.mem_items_iff.1 (by rw [h]; exact List.mem_append_right _ List.mem_cons_self)
      obtain ⟨m₁, m₂, hm, herase⟩ := Dict.items_erase hmem
      have hlen : (s.self.shardDict.erase x.1).items.length ≠ s.self.shardDict.items.length := by
        rw [herase, hm, List.length_append, List.length_append, List.length_cons]
        omega
      rw [List.find?_cons_of_pos (by simpa using hx), List.length_cons, forgetLoop]
      have hraise := forgetLoop_changed fname
        { s with self := { s.self with shardDict := s.self.shardDict.erase x.1 } } inOrder
        l₂.length hlen
      simp [Thread.self, Thread.run_bind, Thread.run, hpos, hshow, hx, delShard, Thread.attempt,
        Dict.contains, hmem, hraise]
    · rw [List.find?_cons_of_neg (by simpa using hx), List.length_cons, forgetLoop, ← hrest]
      simp [Thread.self, Thread.run_bind, Thread.run, hpos, hshow, hx]

theorem forgetShards_solo : (forgetShards inOrder fname).Solo (Trace.forgetShards fname) := by
  intro s
  have hloop := forgetLoop_run fname s [] _ rfl
  simp only [forgetShards, Trace.forgetShards, Exec.run_self_bind]
  refine Eq.trans hloop ?_
  cases s.self.shardDict.items.find? (fun x => decide (x.2 = fname)) <;> rfl

theorem deleteBase_solo (env : Env) (f : FilePBA) :
    (deleteBase env inOrder node f).Solo (Trace.deleteBase env node f) := by
  intro s
  have hrest := (forgetShards_solo f.fileName).bind (fun _ => pushAll_solo env "delete" (fun _ =>
    .ok { fileName := f.fileName, type := f.type }))
  cases h : s.self.fmDict.get2? node f.fileName with
  | none =>
    simp [deleteBase, Trace.deleteBase, delFile, Thread.attempt, Thread.run_bind, Thread.run, h]
  | some entry =>
    cases h2 : s.self.rawFM.get2? node f.fileName with
    | none =>
      simp [deleteBase, Trace.deleteBase, delFile, delRaw, Thread.attempt, Thread.run_bind,
        Thread.run, h, h2]
    | some raw =>
      have hdel : (delFile node f.fileName).run s = (.ok (), { s with
          self := { s.self with fmDict := s.self.fmDict.erase2 node f.fileName } }) := by
        simp [delFile, Thread.attempt, Thread.run, h]
      have hraw : (delRaw node f.fileName).run { s with
          self := { s.self with fmDict := s.self.fmDict.erase2 node f.fileName } } =
          (.ok (), { s with self := s.self.eraseFile node f.fileName }) := by
        simp [delRaw, Thread.attempt, Thread.run, h2, eraseFile]
      rw [deleteBase, Thread.run_bind, hdel]
      simp only
      rw [Thread.run_bind, hraw]
      simp only
      rw [hrest]
      simp [Trace.deleteBase, h, h2, eraseFile]

theorem tChangeFile_solo (env : Env) (r : TChangeRequest) :
    (tChangeFile env inOrder r).Solo (Trace.tChangeFile env r) := by
  refine Thread.Solo.tryExcept ((Thread.Solo.expr _ _).bind (fun first => ?_)) (.pure _)
  have push : ∀ action g, Thread.Solo (pushAll env action g >>= fun _ => pure TChangeResponse.OK)
      (Trace.pushAll env action g >>= fun _ => pure TChangeResponse.OK) :=
    fun action g => (pushAll_solo env action g).bind (fun _ => .pure _)
  split
  · split
    · exact (createShard_solo _ _).bind (fun _ => push _ _)
    · exact (createBase_solo _ _ _).bind (fun _ => push _ _)
  split
  · split
    · exact (modifyShard_solo _ _).bind (fun _ => push _ _)
    · exact (modifyBase_solo _ _).bind (fun _ => push _ _)
  split
  · split
    · exact (deleteShard_solo _ _ _).bind (fun _ => .pure _)
    · exact (deleteBase_solo _ _ _).bind (fun _ => .pure _)
  · exact .pure _

end Solo

end Lba2Pba.Trace.Threaded
