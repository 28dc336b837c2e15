import Lba2Pba.Agent.Get
import Lba2Pba.Py.Str
import Lba2Pba.Py.Mutable

/-!
# The file map of an agent

`DBFileAgent` keeps a list of file entries. A `create` appends to it, a `delete`
pops the last entry of the name, and `getPba` searches it from the front.
-/

namespace Lba2Pba.Agent

open Py

/-- The replicas of an answer, each with its range cut out. -/
def getReplicas (startOffset length : Int) (rPba : List ReplicaPba) :
    Except Err (List ReplicaPba) :=
  rPba.mapM (fun r => do return { pba := ← get startOffset length r.pba, Node := r.Node })

/-- `getPba(file_name, start_offset, length)`. An entry of the name with any other
type is passed over. -/
def getPba (fileName : String) (startOffset length : Int) :
    List FilePBA → Except Err (Option FilePBA)
  | [] => .ok none
  | filePba :: rest =>
    if fileName = filePba.fileName then
      if Str.isIn "Replicate" filePba.type then do
        let res ← getReplicas startOffset length filePba.rPba
        return some { fileName := fileName, type := filePba.type, rPba := res }
      else if filePba.type = "Distribute" then do
        let res ← get startOffset length filePba.pba
        return some { fileName := fileName, type := filePba.type, pba := res }
      else getPba fileName startOffset length rest
    else getPba fileName startOffset length rest

/-- `PushFile(request)`. Assigning to the repeated field `pba` raises, so a
`modify` never changes an entry. -/
def pushFile (request : FAPushRequest) (fm : List FilePBA) : Except Err (List FilePBA) :=
  let named (f : FilePBA) : Bool := request.filePba.fileName = f.fileName
  if request.action = "create" then .ok (fm ++ [request.filePba])
  else if request.action = "modify" then
    if fm.any named then .error .attributeError else .ok fm
  else if request.action = "delete" then .ok (popLast named fm)
  else .ok fm

/-! ## Reading -/

/-- The entries of a name. -/
def named (name : String) (fm : List FilePBA) : List FilePBA :=
  fm.filter (fun f => name = f.fileName)

/-- The entry that `getPba` finds: the first one of the name. -/
def findEntry (fm : List FilePBA) (name : String) : Option FilePBA :=
  fm.find? (fun f => name = f.fileName)

theorem findEntry_eq_head? (fm : List FilePBA) (name : String) :
    findEntry fm name = (named name fm).head? :=
  List.head?_filter.symm

/-- The types of the volumes that the services handle. -/
def KnownType (type : String) : Prop := Str.isIn "Replicate" type = true ∨ type = "Distribute"

/-- The answer from one entry. -/
def answer (startOffset length : Int) (filePba : FilePBA) : Except Err FilePBA :=
  if Str.isIn "Replicate" filePba.type then do
    let res ← getReplicas startOffset length filePba.rPba
    return { fileName := filePba.fileName, type := filePba.type, rPba := res }
  else do
    let res ← get startOffset length filePba.pba
    return { fileName := filePba.fileName, type := filePba.type, pba := res }

/-- The entries that `getPba` answers from. -/
def answers (name : String) (f : FilePBA) : Bool :=
  name = f.fileName && (Str.isIn "Replicate" f.type || f.type = "Distribute")

/-- `getPba` answers from the first entry of the name with a type it knows. -/
theorem getPba_eq_find (name : String) (o n : Int) (fm : List FilePBA) :
    getPba name o n fm = match fm.find? (answers name) with
      | some f => some <$> answer o n f
      | none => .ok none := by
  induction fm with
  | nil => rfl
  | cons f rest ih =>
    by_cases hname : name = f.fileName
    · by_cases hrep : Str.isIn "Replicate" f.type = true
      · have hf : answers name f = true := by simp [answers, hname, hrep]
        rw [List.find?_cons_of_pos hf]
        simp only [getPba, answer, if_pos hname, if_pos hrep]
        simp [← hname]
      · by_cases hdist : f.type = "Distribute"
        · have hf : answers name f = true := by simp [answers, hname, hdist]
          rw [List.find?_cons_of_pos hf]
          simp only [getPba, answer, if_pos hname, if_neg hrep, if_pos hdist]
          simp [← hname]
        · have hf : ¬ answers name f = true := by simp [answers, hrep, hdist]
          rw [List.find?_cons_of_neg hf, ← ih]
          simp only [getPba, if_pos hname, if_neg hrep, if_neg hdist]
    · have hf : ¬ answers name f = true := by simp [answers, hname]
      rw [List.find?_cons_of_neg hf, ← ih]
      simp only [getPba, if_neg hname]

/-- `getPba` answers from `findEntry`, where that has a type it knows. -/
theorem getPba_eq (name : String) (o n : Int) (fm : List FilePBA)
    (hk : ∀ f, findEntry fm name = some f → KnownType f.type) :
    getPba name o n fm = match findEntry fm name with
      | some f => some <$> answer o n f
      | none => .ok none := by
  have hfind : fm.find? (answers name) = findEntry fm name := by
    induction fm with
    | nil => rfl
    | cons f rest ih =>
      by_cases hf : name = f.fileName
      · have hfirst : findEntry (f :: rest) name = some f :=
          List.find?_cons_of_pos (by simpa using hf)
        have hans : answers name f = true := by
          simpa [answers, hf, KnownType] using hk f hfirst
        rw [hfirst, List.find?_cons_of_pos hans]
      · have hskip : findEntry (f :: rest) name = findEntry rest name :=
          List.find?_cons_of_neg (by simpa using hf)
        rw [hskip] at hk ⊢
        rw [List.find?_cons_of_neg (by simp [answers, hf]), ih hk]
  rw [getPba_eq_find, hfind]

end Lba2Pba.Agent
