import Lba2Pba.Py.Thread
import Lba2Pba.Manager.Step

/-!
# The handlers of the Manager, statement by statement

The Manager handles up to ten requests at the same time and takes no lock. Here the
handlers of `Manager.Service` are the sequences of their statements (`Py.Thread`): each
access to `self.FM`, `self.rawFM` and `self.QAs` is one of them. Alone, they are the
handlers of `Manager.Service` (`pushPba_solo`, `registerQA_solo`).

Which agents a loop shows while others change the list that it goes over is left open
(`Visit`).
-/

namespace Lba2Pba.Manager.Threaded

open Py

/-- A block of a handler of the service. -/
abbrev Block := Thread Manager Call

/-- The agents that a loop over the list of a PVC shows, for the list at its start. -/
abbrev Visit := List String → List String

/-- What it shows if nobody else makes changes. -/
def inOrder : Visit := id

/-! ## `PushPba` -/

/-- The loop over the agents of a PVC. -/
def pushAgents (env : Env) (visit : Visit) (pvc action : String)
    (filePba : Manager → Except Err FilePBA) : Block Unit := do
  let m ← Thread.self
  Thread.forEach (visit ((m.QAs.get? pvc).getD [])) (fun addr => do
    let m ← Thread.self
    match filePba m with
    | .error e => Thread.raise e
    | .ok f => Thread.call env.raises ⟨addr, ⟨action, f⟩⟩)

/-- `self.FM[pvcName][rPath] = filePba`. -/
def enter (pvc rPath : String) (filePba : FilePBA) : Block Unit :=
  Thread.attempt (fun m => match m.FM.get? pvc with
    | none => .error .keyError
    | some _ => .ok (m.setEntry pvc rPath filePba))

/-- `self.FM[pvcName][rPath].rPba.append(...)`. -/
def append (pvc rPath : String) (replica : ReplicaPba) : Block Unit :=
  Thread.attempt (fun m => match m.FM.get2? pvc rPath with
    | none => .error .keyError
    | some ref => .ok (m.addReplica ref replica))

/-- Enter a created file into `FM`. A replicated file is added to the entry that the check
has seen. -/
def store (pvc rPath : String) (filePba : FilePBA) : Block Unit :=
  if filePba.type = "Distribute" then enter pvc rPath filePba
  else if Str.isIn "Replicate" filePba.type then do
    let first ← Thread.expr .indexError filePba.pba.head?
    let m ← Thread.self
    let files ← Thread.expr .keyError (m.FM.get? pvc)
    if files.contains rPath then append pvc rPath ⟨filePba.pba, first.host⟩
    else
      let tmpFilePba : FilePBA :=
        { rPba := [⟨filePba.pba, first.host⟩], fileName := rPath, volName := filePba.volName,
          type := filePba.type }
      enter pvc rPath tmpFilePba
  else pure ()

def pushCreate (env : Env) (visit : Visit) (pvc subDir : String) (filePba : FilePBA) :
    Block Unit := do
  Thread.update (keepRaw filePba)
  let rPath ← Thread.expr .indexError (relPath subDir filePba.fileName)
  store pvc rPath { filePba with fileName := rPath }
  pushAgents env visit pvc "create" (entryAt pvc rPath)

def pushModify (pvc subDir : String) (filePba : FilePBA) : Block Unit := do
  let rPath ← Thread.expr .indexError (relPath subDir filePba.fileName)
  let m ← Thread.self
  if Str.isIn "Distribute" filePba.type then
    let _ ← Thread.expr .keyError (m.FM.get2? pvc rPath)
    Thread.raise .attributeError
  else if Str.isIn "Replicate" filePba.type then
    let _ ← Thread.expr .indexError filePba.pba.head?
    let ref ← Thread.expr .keyError (m.FM.get2? pvc rPath)
    if (m.heap.get ref).rPba.isEmpty then pure ()
    else
      let m ← Thread.self
      let _ ← Thread.expr .keyError (m.FM.get2? pvc rPath)
      Thread.raise .typeError
  else pure ()

/-- `del self.FM[pvcName][rPath]`. -/
def delEntry (pvc rPath : String) : Block Unit :=
  Thread.attempt (fun m => match m.FM.get2? pvc rPath with
    | none => .error .keyError
    | some _ => .ok (m.eraseEntry pvc rPath))

/-- The loop that remembers the last message of `rawFM` with the name of the PVC. -/
def findRaw (pvc : String) : List Nat → Option Nat → Block (Option Nat)
  | [], index => pure index
  | i :: is, index => do
    let m ← Thread.self
    let ref ← Thread.expr .indexError m.rawFM[i]?
    findRaw pvc is (if m.namedPvc pvc ref then some i else index)

/-- `self.rawFM.fileMap.filePba.pop(index)`. -/
def popRaw (index : Nat) : Block Unit :=
  Thread.attempt (fun m =>
    if index < m.rawFM.length then .ok { m with rawFM := m.rawFM.eraseIdx index }
    else .error .indexError)

/-- The same loop for a replicated file, which raises at the first such message. -/
def rejectRaw (pvc : String) : List Nat → Block Unit
  | [] => pure ()
  | i :: is => do
    let m ← Thread.self
    let ref ← Thread.expr .indexError m.rawFM[i]?
    if m.namedPvc pvc ref then Thread.raise .attributeError else rejectRaw pvc is

def forgetRaw (pvc type : String) : Block Unit :=
  if type = "Distribute" then do
    let m ← Thread.self
    let index ← findRaw pvc (List.range m.rawFM.length) none
    match index with
    | none => pure ()
    | some index => popRaw index
  else if Str.isIn "Replicate" type then do
    let m ← Thread.self
    rejectRaw pvc (List.range m.rawFM.length)
  else pure ()

/-- The first statements of `delete`: the entry is removed if the check has seen it. -/
def removeEntry (pvc rPath : String) : Block Unit := do
  let m ← Thread.self
  let files ← Thread.expr .keyError (m.FM.get? pvc)
  if files.contains rPath then delEntry pvc rPath else pure ()

def pushDelete (env : Env) (visit : Visit) (pvc subDir : String) (filePba : FilePBA) :
    Block Unit := do
  let rPath ← Thread.expr .indexError (relPath subDir filePba.fileName)
  removeEntry pvc rPath
  forgetRaw pvc filePba.type
  pushAgents env visit pvc "delete" (fun _ => .ok { filePba with fileName := rPath })

/-- The three actions, for a file of `pvc`. -/
def pushFor (env : Env) (visit : Visit) (request : FMPushPbaRequest) (pvc subDir : String) :
    Block Unit :=
  if request.action = "create" then pushCreate env visit pvc subDir request.filePba
  else if request.action = "modify" then pushModify pvc subDir request.filePba
  else if request.action = "delete" then pushDelete env visit pvc subDir request.filePba
  else pure ()

/-- `PushPba(request)`. -/
def pushPba (env : Env) (visit : Visit) (request : FMPushPbaRequest) :
    Block FMPushPbaResponse := do
  let m ← Thread.self
  match m.pvcInfo with
  | .error res => return ⟨res, "1"⟩
  | .ok info =>
    let pvc := pvcOf info request.filePba.fileName
    if pvc = "" then return ⟨"OK", "0"⟩
    else
      let subDir ← Thread.expr .keyError (info.get? pvc)
      pushFor env visit request pvc subDir
      return ⟨"OK", "0"⟩

/-! ## The agents -/

/-- `self.QAs[pvcName].append(...)`. -/
def appendAgent (pvc addr : String) : Block Unit :=
  Thread.attempt (fun m => match m.QAs.get? pvc with
    | none => .error .keyError
    | some agents => .ok { m with QAs := m.QAs.set pvc (agents ++ [addr]) })

/-- `self.QAs[pvcName] = []` where the check has seen no list, and the append. -/
def register (pvc addr : String) : Block Unit := do
  let m ← Thread.self
  if m.QAs.contains pvc then pure ()
    else Thread.update (fun m => { m with QAs := m.QAs.set pvc [] })
  appendAgent pvc addr

/-- `RegisterQA`, for an address `ip:port`. -/
def registerQA (env : Env) (addr : String) : Block Unit :=
  match splitAddr addr with
  | .error e => Thread.raise e
  | .ok (ip, port) => register (env.getPVC ip) (ip ++ ":" ++ port)

/-! ## Requests -/

inductive Request
  | pushPba (request : FMPushPbaRequest)
  | registerQA (addr : String)

/-- A request with what its handler meets outside, and a number of its own. -/
structure Message where
  id : Nat
  env : Env
  visit : Visit
  request : Request

inductive Reply
  | push (response : FMPushPbaResponse)
  | registered
deriving DecidableEq

def serve (m : Message) : Block Reply :=
  match m.request with
  | .pushPba request => do
    let response ← pushPba m.env m.visit request
    return .push response
  | .registerQA addr => do
    registerQA m.env addr
    return .registered

/-! ## Alone -/

section Solo

variable (env : Env) (pvc rPath subDir : String) (f : FilePBA)

theorem pushAgents_solo (action : String) (g : Manager → Except Err FilePBA) :
    (pushAgents env inOrder pvc action g).Solo (Manager.pushAgents env pvc action g) := by
  refine Thread.Solo.self.bind (fun m => Thread.Solo.forEach (fun addr => ?_) _)
  refine Thread.Solo.self.bind (fun m => ?_)
  cases g m with
  | error e => exact .raise e
  | ok f => exact .call _ _

theorem enter_solo : (enter pvc rPath f).Solo (Exec.attempt (fun m =>
    match m.FM.get? pvc with
    | none => .error .keyError
    | some _ => .ok (m.setEntry pvc rPath f))) := Thread.Solo.attempt _

theorem store_solo : (store pvc rPath f).Solo (Exec.attempt (Manager.store pvc rPath f)) := by
  intro s
  unfold store Manager.store
  by_cases hd : f.type = "Distribute"
  · simp only [hd, if_true]
    exact enter_solo pvc rPath f s
  by_cases hr : Str.isIn "Replicate" f.type = true
  · simp only [hd, hr, if_true, if_false]
    unfold replicate
    cases hf : f.pba.head? with
    | none => rfl
    | some first =>
      cases hp : s.self.FM.get? pvc with
      | none => simp [Thread.self, Thread.run_bind, Thread.run, Thread.raise, Exec.attempt, hp]
      | some files =>
        have h2 : s.self.FM.get2? pvc rPath = files.get? rPath := Dict.get2?_of_get? hp
        cases hn : files.get? rPath with
        | none => simp [Thread.self, Thread.run_bind, Thread.run, Exec.attempt, hp, hn,
            Dict.contains, enter, Thread.attempt]
        | some ref => simp [Thread.self, Thread.run_bind, Thread.run, Exec.attempt, hp, hn, h2,
            Dict.contains, append, Thread.attempt]
  · simp only [hd, hr, if_false]
    rfl

theorem pushCreate_solo :
    (pushCreate env inOrder pvc subDir f).Solo (Manager.pushCreate env pvc subDir f) :=
  (Thread.Solo.update _).bind (fun _ => (Thread.Solo.expr _ _).bind (fun _ =>
    (store_solo _ _ _).bind (fun _ => pushAgents_solo _ _ _ _)))

theorem pushModify_solo :
    (pushModify pvc subDir f).Solo (Manager.pushModify pvc subDir f) := by
  intro s
  unfold pushModify Manager.pushModify
  cases relPath subDir f.fileName with
  | none => rfl
  | some n =>
    by_cases hd : Str.isIn "Distribute" f.type = true
    · simp only [hd, if_true]
      exact (Thread.Solo.self.bind (fun m => (Thread.Solo.expr _ _).bind (fun _ => .raise _))) s
    by_cases hr : Str.isIn "Replicate" f.type = true
    · simp only [hd, hr, if_true]
      cases hf : f.pba.head? with
      | none => rfl
      | some first =>
        cases hn : s.self.FM.get2? pvc n with
        | none => simp [Thread.self, Thread.run_bind, Thread.run, Thread.raise, hn]
        | some ref =>
          by_cases he : (s.self.heap.get ref).rPba.isEmpty = true
          · simp [Thread.self, Thread.run_bind, Thread.run, hn, List.isEmpty_iff.1 he]
          · have he' : (s.self.heap.get ref).rPba ≠ [] := fun h => he (List.isEmpty_iff.2 h)
            simp [Thread.self, Thread.run_bind, Thread.run, Thread.raise, hn, he']
    · simp only [hd, hr]
      rfl

/-- The loop over `rawFM`. -/
theorem findRaw_run (s : Frame Manager Call) {is : List Nat} (h : ∀ i ∈ is, i < s.self.rawFM.length)
    (index : Option Nat) : (findRaw pvc is index).run s =
      (.ok (is.foldl (fun index i => if s.self.rawFM[i]?.any (s.self.namedPvc pvc) then some i
        else index) index), s) := by
  induction is generalizing index with
  | nil => rfl
  | cons i is ih =>
    obtain ⟨ref, hi⟩ : ∃ ref, s.self.rawFM[i]? = some ref :=
      ⟨_, List.getElem?_eq_getElem (h i List.mem_cons_self)⟩
    have hrest := ih (fun j hj => h j (List.mem_cons_of_mem i hj))
    simp [findRaw, Thread.self, Thread.run_bind, Thread.run, hi, hrest]

theorem rejectRaw_run (s : Frame Manager Call) {is : List Nat}
    (h : ∀ i ∈ is, i < s.self.rawFM.length) : (rejectRaw pvc is).run s =
      if is.any (fun i => s.self.rawFM[i]?.any (s.self.namedPvc pvc)) then
        (.error .attributeError, s)
      else (.ok (), s) := by
  induction is with
  | nil => rfl
  | cons i is ih =>
    obtain ⟨ref, hi⟩ : ∃ ref, s.self.rawFM[i]? = some ref :=
      ⟨_, List.getElem?_eq_getElem (h i List.mem_cons_self)⟩
    have hrest := ih (fun j hj => h j (List.mem_cons_of_mem i hj))
    by_cases hr : s.self.namedPvc pvc ref = true
    · simp [rejectRaw, Thread.self, Thread.run_bind, Thread.run, Thread.raise, hi, hr]
    · simp [rejectRaw, Thread.self, Thread.run_bind, Thread.run, hi, hr, hrest]

theorem forgetRaw_solo (type : String) :
    (forgetRaw pvc type).Solo (Exec.attempt (Manager.forgetRaw pvc type)) := by
  intro s
  unfold forgetRaw Manager.forgetRaw
  by_cases hd : type = "Distribute"
  · simp only [hd, if_true]
    have hfind := findRaw_run pvc s (fun i hi => List.mem_range.1 hi) none
    have hpop := popLast_eq (p := s.self.namedPvc pvc) s.self.rawFM
    simp only [Thread.self, Thread.run_bind, Thread.run, id_eq, hfind, Exec.attempt, hpop]
    rw [← lastIndex]
    cases hlast : lastIndex (s.self.namedPvc pvc) s.self.rawFM with
    | none => rfl
    | some i =>
      simp [popRaw, Thread.attempt, Thread.run, lastIndex_lt s.self.rawFM hlast]
  by_cases hr : Str.isIn "Replicate" type = true
  · simp only [hd, hr, if_true, if_false]
    have hreject := rejectRaw_run pvc s (fun i hi => List.mem_range.1 hi)
    rw [any_range] at hreject
    simp only [Thread.self, Thread.run_bind, Thread.run]
    refine Eq.trans hreject ?_
    by_cases ha : s.self.rawFM.any (s.self.namedPvc pvc) = true
    · simp only [Exec.attempt, ha, if_true]
    · simp only [Exec.attempt, ha]
      rfl
  · simp only [hd, hr, if_false]
    rfl

theorem removeEntry_solo : (removeEntry pvc rPath).Solo (do
    let m ← Exec.self
    let _ ← Exec.expr .keyError (m.FM.get? pvc)
    Exec.update (fun m => { m with FM := m.FM.erase2 pvc rPath })) := by
  intro s
  unfold removeEntry
  cases hp : s.self.FM.get? pvc with
  | none => simp [Thread.self, Thread.run_bind, Thread.run, Thread.raise, hp]
  | some files =>
    have h2 : s.self.FM.get2? pvc rPath = files.get? rPath := Dict.get2?_of_get? hp
    cases hn : files.get? rPath with
    | none =>
      have hsame : s.self.FM.erase2 pvc rPath = s.self.FM := by
        simp only [Dict.erase2, hp, Dict.erase_of_none hn, Dict.set_self hp]
      simp [Thread.self, Thread.run_bind, Thread.run, Dict.contains, hp, hn, hsame]
    | some ref =>
      simp [Thread.self, Thread.run_bind, Thread.run, Dict.contains, hp, hn, h2, delEntry,
        Thread.attempt, eraseEntry]

theorem pushDelete_solo :
    (pushDelete env inOrder pvc subDir f).Solo (Manager.pushDelete env pvc subDir f) := by
  refine (Thread.Solo.expr _ _).bind (fun rPath => fun s => ?_)
  have hrest := (removeEntry_solo pvc rPath).bind (fun _ => (forgetRaw_solo pvc f.type).bind
    (fun _ => pushAgents_solo env pvc "delete" (fun _ => .ok { f with fileName := rPath })))
  refine (hrest s).trans ?_
  simp only [Exec.run_self_bind, Exec.run_bind_bind]

/-- Alone, `PushPba` is the handler of the service. -/
theorem pushPba_solo (r : FMPushPbaRequest) :
    (pushPba env inOrder r).Solo (Manager.pushPba env r) := by
  have hfor : ∀ pvc subDir, (pushFor env inOrder r pvc subDir).Solo
      (Manager.pushFor env r pvc subDir) := by
    intro pvc subDir
    unfold pushFor Manager.pushFor
    split
    · exact pushCreate_solo env pvc subDir r.filePba
    split
    · exact pushModify_solo pvc subDir r.filePba
    split
    · exact pushDelete_solo env pvc subDir r.filePba
    · exact .pure _
  refine Thread.Solo.self.bind (fun m => ?_)
  cases m.pvcInfo with
  | error res => exact .pure _
  | ok info =>
    by_cases hp : pvcOf info r.filePba.fileName = ""
    · simp only [hp, if_true]
      exact .pure _
    · simp only [hp, if_false]
      exact (Thread.Solo.expr _ _).bind (fun subDir => (hfor _ _).bind (fun _ => .pure _))

theorem register_solo (addr : String) : (register pvc addr).Solo (Exec.update (fun m =>
    { m with QAs := m.QAs.set pvc ((m.QAs.get? pvc).getD [] ++ [addr]) })) := by
  intro s
  unfold register
  cases hp : s.self.QAs.get? pvc with
  | none =>
    simp [Thread.self, Thread.update, appendAgent, Thread.attempt, Thread.run_bind, Thread.run,
      Dict.contains, hp, Dict.set_set]
  | some agents =>
    simp [Thread.self, appendAgent, Thread.attempt, Thread.run_bind, Thread.run, Dict.contains, hp]

/-- Alone, `RegisterQA` is the handler of the service. -/
theorem registerQA_solo (addr : String) :
    (registerQA env addr).Solo (Exec.attempt (Manager.registerQA env addr)) := by
  intro s
  unfold registerQA Manager.registerQA
  cases hs : splitAddr addr with
  | error e => simp [Thread.raise, Thread.run, Exec.attempt]
  | ok x =>
    obtain ⟨ip, port⟩ := x
    refine (register_solo (env.getPVC ip) (ip ++ ":" ++ port) s).trans ?_
    simp [Exec.attempt]

end Solo

end Lba2Pba.Manager.Threaded
