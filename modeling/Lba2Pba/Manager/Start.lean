import Lba2Pba.Manager.Entries
import Lba2Pba.Py.Loop

/-!
# The start of a Manager

What `pvcFMInsert` does with one message of the file map, and that a Manager that
has started, and any run of its handlers after that, holds good references only
(`Reachable.valid`) and has a map for each PVC (`Reachable.keys`).
-/

namespace Lba2Pba.Manager

open Py

section Insert

variable {pvc subDir : String} {m m' : Manager} {ref : Nat}

/-- `self.FM[pvcName][fname] = filePba` for the message at `ref`, renamed in place. -/
def adopt (pvc fname : String) (ref : Nat) (m : Manager) : Manager :=
  { m with
    heap := m.heap.put ref { m.heap.get ref with fileName := fname }
    FM := m.FM.set2 pvc fname ref }

/-- What one pass of the loop does: the file is passed over, its message becomes the
entry, or its extents are added as a replica. -/
theorem insertFile_cases (h : insertFile pvc subDir m ref = .ok m') :
    m' = m ∨ ∃ n, relPath subDir (m.heap.get ref).fileName = some n ∧
      (((m.heap.get ref).type = "Distribute" ∧ m' = m.adopt pvc n ref) ∨
        ((m.heap.get ref).type ≠ "Distribute" ∧
          Str.isIn "Replicate" (m.heap.get ref).type = true ∧
          m.replicate pvc n (m.heap.get ref) = .ok m')) := by
  simp only [insertFile] at h
  split at h
  · split at h
    · cases h
    · rename_i n hn
      split at h
      · rename_i ht
        cases h
        exact .inr ⟨n, hn, .inl ⟨ht, rfl⟩⟩
      · rename_i ht
        split at h
        · rename_i hrep
          exact .inr ⟨n, hn, .inr ⟨ht, hrep, h⟩⟩
        · cases h
          exact .inl rfl
  · cases h
    exact .inl rfl

theorem Valid.adopt (hv : m.Valid) (hr : ref < m.heap.next) (n : String) :
    (m.adopt pvc n ref).Valid := by
  refine ⟨fun ref' hm => ?_, fun {p k ref'} h => ?_⟩
  · show ref' < (m.heap.put ref _).next
    rw [Heap.next_put]
    exact hv.raw ref' hm
  · show ref' < (m.heap.put ref _).next
    rw [Heap.next_put]
    rcases Dict.get2?_set2_cases h with ⟨-, -, rfl⟩ | h
    · exact hr
    · exact hv.entries h

theorem Valid.replicate {n : String} {f : FilePBA} (hv : m.Valid)
    (h : m.replicate pvc n f = .ok m') : m'.Valid := by
  obtain ⟨first, files, -, -, ⟨-, rfl⟩ | ⟨r, -, rfl⟩⟩ := replicate_cases pvc n f m h
  · exact hv.setEntry
  · exact hv.addReplica r _

theorem insertFile_rawFM (h : insertFile pvc subDir m ref = .ok m') : m'.rawFM = m.rawFM := by
  rcases insertFile_cases h with rfl | ⟨n, -, ⟨-, rfl⟩ | ⟨-, -, h⟩⟩
  · rfl
  · rfl
  · obtain ⟨first, files, -, -, ⟨-, rfl⟩ | ⟨r, -, rfl⟩⟩ := replicate_cases pvc n _ m h <;> rfl

theorem insertFile_frozen (h : insertFile pvc subDir m ref = .ok m') :
    m'.FM.keys = m.FM.keys ∧ m'.pvcInfo = m.pvcInfo := by
  rcases insertFile_cases h with rfl | ⟨n, -, ⟨-, rfl⟩ | ⟨-, -, h⟩⟩
  · exact ⟨rfl, rfl⟩
  · exact ⟨Dict.keys_set2 _ _ _ _, rfl⟩
  · obtain ⟨first, files, -, -, ⟨-, rfl⟩ | ⟨r, -, rfl⟩⟩ := replicate_cases pvc n _ m h
    · exact ⟨Dict.keys_set2 _ _ _ _, rfl⟩
    · exact ⟨rfl, rfl⟩

theorem insertFile_QAs (h : insertFile pvc subDir m ref = .ok m') : m'.QAs = m.QAs := by
  rcases insertFile_cases h with rfl | ⟨n, -, ⟨-, rfl⟩ | ⟨-, -, h⟩⟩
  · rfl
  · rfl
  · obtain ⟨first, files, -, -, ⟨-, rfl⟩ | ⟨r, -, rfl⟩⟩ := replicate_cases pvc n _ m h <;> rfl

theorem Valid.insertFile (hv : m.Valid) (hr : ref ∈ m.rawFM)
    (h : insertFile pvc subDir m ref = .ok m') : m'.Valid := by
  rcases insertFile_cases h with rfl | ⟨n, -, ⟨-, rfl⟩ | ⟨-, -, h⟩⟩
  · exact hv
  · exact hv.adopt (hv.raw ref hr) n
  · exact hv.replicate h

/-- `pvcFMInsert` starts with a map for the PVC. -/
def withMap (pvc : String) (m : Manager) : Manager :=
  { m with FM := if m.FM.contains pvc then m.FM else m.FM.set pvc ∅ }

theorem keys_withMap_new (hp : pvc ∉ m.FM.keys) :
    (m.withMap pvc).FM.keys = m.FM.keys ++ [pvc] := by
  have hc : ¬ m.FM.contains pvc = true := by
    rw [Dict.contains_iff, ← Dict.mem_keys_iff]
    exact hp
  simp only [withMap, if_neg hc]
  rw [Dict.keys_set, if_neg hp]

theorem withMap_get2? (pvc p n : String) (m : Manager) :
    (m.withMap pvc).FM.get2? p n = m.FM.get2? p n := by
  simp only [withMap]
  split
  · rfl
  · rename_i hc
    have hnone : m.FM.get? pvc = none := Dict.contains_eq_false.1 (by simpa using hc)
    unfold Dict.get2?
    rw [Dict.get?_set]
    split
    · rename_i hp
      subst hp
      rw [hnone]
      rfl
    · rfl

theorem Valid.withMap (hv : m.Valid) : (m.withMap pvc).Valid :=
  ⟨hv.raw, fun h => hv.entries (by rwa [withMap_get2?] at h)⟩

/-- The loop of `pvcFMInsert`. -/
theorem Valid.pvcFMInsert (hv : m.Valid) (h : pvcFMInsert m pvc subDir = .ok m') :
    m'.Valid ∧ m'.rawFM = m.rawFM := by
  refine foldlM_inv (P := fun _ t => t.Valid ∧ t.rawFM = m.rawFM) ⟨hv.withMap, rfl⟩ ?_ h
  rintro done ref rest hl t t' ⟨ht, hraw⟩ hstep
  have hmem : ref ∈ t.rawFM := by
    rw [hraw, hl]
    exact List.mem_append_right _ List.mem_cons_self
  exact ⟨ht.insertFile hmem hstep, (insertFile_rawFM hstep).trans hraw⟩

end Insert

theorem start_valid {info : Except String (Dict String String)} {fileMap : List FilePBA}
    {m : Manager} (h : start info fileMap = .ok m) : m.Valid := by
  have h0 : (⟨⟨fileMap⟩, List.range fileMap.length, ∅, ∅, info⟩ : Manager).Valid := by
    refine ⟨fun ref hr => List.mem_range.1 hr, fun {p n ref} h => ?_⟩
    rw [Dict.get2?_of_none (Dict.get?_empty p)] at h
    cases h
  unfold start at h
  simp only at h
  split at h
  · cases h
    exact h0
  · refine foldlM_inv (P := fun _ t => t.Valid) h0 ?_ h
    intro done x rest _ t t' ht hstep
    exact (ht.pvcFMInsert hstep).1

/-- Every PVC has a map after the start. -/
theorem start_keys {info : Dict String String} {fileMap : List FilePBA} {m : Manager}
    (h : start (.ok info) fileMap = .ok m) : m.FM.keys = info.keys ∧ m.pvcInfo = .ok info := by
  refine foldlM_inv (P := fun done t => t.FM.keys = done.map Prod.fst ∧ t.pvcInfo = .ok info)
    ⟨rfl, rfl⟩ ?_ h
  rintro done ⟨q, d⟩ rest hl t t' ⟨hkeys, hinfo⟩ hstep
  have hnew : q ∉ t.FM.keys := by
    rw [hkeys]
    intro hq
    obtain ⟨x, hx, hxq⟩ := List.mem_map.1 hq
    exact (Dict.key_ne_of_split hl).1 x hx hxq
  have hmap : (t.withMap q).FM.keys = (done ++ [(q, d)]).map Prod.fst := by
    rw [keys_withMap_new hnew, hkeys, List.map_append]
    rfl
  refine foldlM_inv (P := fun _ u => u.FM.keys = (done ++ [(q, d)]).map Prod.fst ∧
    u.pvcInfo = .ok info) ⟨hmap, hinfo⟩ ?_ hstep
  rintro _ ref _ _ u u' ⟨hu, hui⟩ hfile
  obtain ⟨hk, hi⟩ := insertFile_frozen hfile
  exact ⟨hk.trans hu, hi.trans hui⟩

/-- No agent is registered after the start. -/
theorem start_QAs {info : Except String (Dict String String)} {fileMap : List FilePBA}
    {m : Manager} (h : start info fileMap = .ok m) : m.QAs = ∅ := by
  unfold start at h
  simp only at h
  split at h
  · cases h
    rfl
  · refine foldlM_inv (P := fun _ t => t.QAs = ∅) rfl ?_ h
    intro done x rest _ t t' ht hstep
    refine foldlM_inv (P := fun _ u => u.QAs = ∅) ht ?_ hstep
    intro _ ref _ _ u u' hu hfile
    exact (insertFile_QAs hfile).trans hu

/-- The Managers that a start and a run of handlers can lead to. -/
inductive Reachable : Manager → Prop
  | start {info : Except String (Dict String String)} {fileMap : List FilePBA} {m : Manager}
      (h : start info fileMap = .ok m) : Reachable m
  | push {m : Manager} (hm : Reachable m) (env : Env) (r : FMPushPbaRequest) :
      Reachable ((pushPba env r).run ⟨m, []⟩).2.self
  | register {m m' : Manager} (hm : Reachable m) {env : Env} {addr : String}
      (h : m.registerQA env addr = .ok m') : Reachable m'
  | deregister {m m' : Manager} (hm : Reachable m) {env : Env} {addr : String}
      (h : DeregisterQA env addr m m') : Reachable m'

/-- One more agent of a PVC. -/
def addAgent (pvc addr : String) (m : Manager) : Manager :=
  { m with QAs := m.QAs.set pvc (m.agents pvc ++ [addr]) }

theorem registerQA_eq {env : Env} {addr : String} {m m' : Manager}
    (h : m.registerQA env addr = .ok m') : ∃ ip port, splitAddr addr = .ok (ip, port) ∧
      m' = m.addAgent (env.getPVC ip) (ip ++ ":" ++ port) := by
  obtain ⟨⟨ip, port⟩, hs, hm⟩ := bind_eq_ok.1 h
  exact ⟨ip, port, hs, (Except.ok.inj hm).symm⟩

theorem Reachable.valid {m : Manager} (h : Reachable m) : m.Valid := by
  induction h with
  | start h => exact start_valid h
  | push hm env r ih =>
    rw [pushPba_self]
    exact ih.after r
  | register hm h ih =>
    obtain ⟨ip, port, -, rfl⟩ := registerQA_eq h
    exact ⟨ih.raw, ih.entries⟩
  | deregister hm h ih =>
    obtain ⟨ip, port, registered, -, -, -, agents, -, rfl⟩ := h
    exact ⟨ih.raw, ih.entries⟩

theorem Reachable.keys {m : Manager} (h : Reachable m) {info : Dict String String}
    (hm : m.pvcInfo = .ok info) : m.FM.keys = info.keys := by
  induction h with
  | start h =>
    rename_i info' fileMap m
    cases info' with
    | error res =>
      cases h
      cases hm
    | ok info' =>
      obtain ⟨hkeys, hinfo⟩ := start_keys h
      cases hinfo.symm.trans hm
      exact hkeys
  | push hm' env r ih =>
    rename_i m'
    rw [pushPba_self] at hm ⊢
    have hf := frozen_after m' r
    rw [hf.keys]
    exact ih (hf.pvcInfo.symm.trans hm)
  | register hm' h ih =>
    obtain ⟨ip, port, -, rfl⟩ := registerQA_eq h
    exact ih hm
  | deregister hm' h ih =>
    obtain ⟨ip, port, registered, -, -, -, agents, -, rfl⟩ := h
    exact ih hm

/-! ## A start on fixed inputs -/

/-- Every address belongs to a pod of one PVC, and no push fails. -/
def quiet : Env := ⟨fun _ => "pvc1", fun _ _ => false⟩

def onePvc : Dict String String := (∅ : Dict String String).set "pvc1" "vol/pvc1"

/-- A Manager that was started without files. -/
def noFiles : Manager := ⟨⟨[]⟩, [], (∅ : Dict String (Dict String Nat)).set "pvc1" ∅, ∅, .ok onePvc⟩

theorem noFiles_start : start (.ok onePvc) [] = .ok noFiles := by decide

theorem place_table {m : Manager} (hm : m.pvcInfo = .ok onePvc) :
    m.place "/brick/vol/pvc1/table" = some ("pvc1", "vol/pvc1") := by
  simp only [place, hm]
  decide

theorem relPath_table : relPath "vol/pvc1" "/brick/vol/pvc1/table" = some "table" := by decide

end Lba2Pba.Manager
