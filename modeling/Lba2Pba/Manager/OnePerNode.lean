import Lba2Pba.Manager.Replicas
import Lba2Pba.Manager.Restart
import Lba2Pba.Run.Prefix

/-!
# One replica per node

The replicas of a Manager that loads a file map and then handles any messages. The
loader adds a replica for each replicated file it finds under a PVC, in the order of
the map; `Loading` carries what it has done with a part of the map. In the messages,
a node that has a replica and reports the file again gets a second one or keeps its old
extents, at once: the condition on the messages is exact (`onePerNode_iff`).
-/

namespace Lba2Pba.Manager

open Py

/-! ## Loading -/

/-- The report in a file of the map, if it is replicated. -/
def loadedFile (pvc subDir : String) (f : FilePBA) : Option Report :=
  if Str.isIn "Replicate" f.type then reportOf pvc subDir f else none

/-- The reports in the map that a Manager loads, in the order in which it does. -/
def loaded (pvcInfo : Except String (Dict String String)) (fileMap : List FilePBA) :
    List Report :=
  match pvcInfo with
  | .error _ => []
  | .ok info => info.items.flatMap (fun x => fileMap.filterMap (loadedFile x.1 x.2))

/-- The Manager has loaded the files with the reports `H`. The messages of replicated files
are as they came, and none of them is an entry. -/
structure Loading (fileMap : List FilePBA) (H : List Report) (m : Manager) : Prop where
  valid : m.Valid
  raws : m.rawFM = List.range fileMap.length
  types : ∀ {i f}, fileMap[i]? = some f → (m.heap.get i).type = f.type
  same : ∀ {i f}, fileMap[i]? = some f → Str.isIn "Replicate" f.type = true → m.heap.get i = f
  apart : ∀ {p n ref}, m.FM.get2? p n = some ref →
    Str.isIn "Replicate" (m.heap.get ref).type = true → fileMap.length ≤ ref
  own : m.Own
  onePerNode : OnePerNode H m

section Load

variable {fileMap : List FilePBA} {H : List Report} {m m' : Manager} {pvc subDir : String}
  {i : Nat} {f : FilePBA}

theorem Loading.lt_next (h : Loading fileMap H m) (hi : fileMap[i]? = some f) :
    i < m.heap.next := by
  refine h.valid.raw i ?_
  rw [h.raws, List.mem_range]
  exact (List.getElem?_eq_some_iff.1 hi).1

theorem type_adopt (hi : i < m.heap.next) (n : String) (ref : Nat) :
    ((m.adopt pvc n i).heap.get ref).type = (m.heap.get ref).type := by
  rw [Manager.adopt, Heap.get_put _ hi]
  split
  · rename_i href
    rw [← href]
  · rfl

/-- The entry of a replicated file is neither the new one nor the renamed message. -/
theorem get2?_of_adopt {p k n : String} {ref : Nat} (hi : i < m.heap.next)
    (hnot : Str.isIn "Replicate" (m.heap.get i).type ≠ true)
    (href : (m.adopt pvc n i).FM.get2? p k = some ref)
    (hrep : Str.isIn "Replicate" ((m.adopt pvc n i).heap.get ref).type = true) :
    m.FM.get2? p k = some ref ∧ (m.adopt pvc n i).heap.get ref = m.heap.get ref := by
  rw [type_adopt hi] at hrep
  have hne : ¬ (i = ref) := by
    rintro rfl
    exact hnot hrep
  rcases Dict.get2?_set2_cases href with ⟨-, -, rfl⟩ | href
  · exact absurd rfl hne
  · refine ⟨href, ?_⟩
    rw [Manager.adopt, Heap.get_put _ hi, if_neg hne]

theorem replicas_of_adopt {p k n : String} {l : List ReplicaPba} (hi : i < m.heap.next)
    (hnot : Str.isIn "Replicate" (m.heap.get i).type ≠ true)
    (hl : (m.adopt pvc n i).replicas p k = some l) : m.replicas p k = some l := by
  rw [← hl]
  unfold replicas
  cases he : (m.adopt pvc n i).entry p k with
  | none =>
    rw [replicas, he] at hl
    cases hl
  | some e =>
    obtain ⟨ref, href, hre⟩ := entry_eq_some_iff.1 he
    rw [replicas, he, replicasOf_some] at hl
    split at hl
    · rename_i hrep
      obtain ⟨hold, hsame⟩ := get2?_of_adopt hi hnot href (by rw [hre]; exact hrep)
      rw [entry_eq_some_iff.2 ⟨ref, hold, hsame.symm.trans hre⟩]
    · cases hl

/-- The entry of a distributed file is its message. -/
theorem Loading.adopt (h : Loading fileMap H m) (hi : fileMap[i]? = some f)
    (ht : f.type = "Distribute") (n : String) : Loading fileMap H (m.adopt pvc n i) := by
  have hlt := h.lt_next hi
  have hnot : Str.isIn "Replicate" (m.heap.get i).type ≠ true := by
    rw [h.types hi, ht]
    decide
  refine ⟨h.valid.adopt hlt n, h.raws, fun hj => ?_, fun {j g} hj hrep => ?_,
    fun href hrep => ?_, ⟨fun href href' hrep => ?_⟩, fun p k l hl => ?_⟩
  · rw [type_adopt hlt]
    exact h.types hj
  · have hne : ¬ (i = j) := by
      rintro rfl
      rw [hi] at hj
      cases hj
      exact ne_distribute hrep ht
    rw [Manager.adopt, Heap.get_put _ hlt, if_neg hne]
    exact h.same hj hrep
  · have hold := (get2?_of_adopt hlt hnot href hrep).1
    rw [type_adopt hlt] at hrep
    exact h.apart hold hrep
  · have hold := (get2?_of_adopt hlt hnot href hrep).1
    have hold' := (get2?_of_adopt hlt hnot href' hrep).1
    rw [type_adopt hlt] at hrep
    exact h.own.eq hold hold' hrep
  · exact h.onePerNode p k l (replicas_of_adopt hlt hnot hl)

theorem Loading.length_le (h : Loading fileMap H m) : fileMap.length ≤ m.heap.next := by
  by_contra hlt
  have hmem : m.heap.next ∈ m.rawFM := by
    rw [h.raws, List.mem_range]
    exact Nat.lt_of_not_le hlt
  exact Nat.lt_irrefl _ (h.valid.raw _ hmem)

/-- A replicated file adds its report. -/
theorem Loading.stored (h : Loading fileMap H m) {n : String} {first : PBA}
    (hrep : Str.isIn "Replicate" f.type = true) (hfirst : f.pba.head? = some first)
    (hnew : (pvc, n, first.host) ∉ H.map Report.key) :
    Loading fileMap (H ++ [⟨pvc, n, first.host, f.pba⟩])
      (m.stored pvc n { f with fileName := n }) := by
  refine ⟨h.valid.stored, rawFM_stored.trans h.raws, fun hj => ?_, fun {j g} hj hrep' => ?_,
    fun {p k ref} href hrep' => ?_, h.own.stored h.valid, fun p k l hl => ?_⟩
  · rw [type_stored h.valid (h.lt_next hj)]
    exact h.types hj
  · have hg := h.same hj hrep'
    have hne : m.FM.get2? pvc n ≠ some j := by
      intro href
      have hle := h.apart href (by rw [hg]; exact hrep')
      exact Nat.not_lt.2 hle (List.getElem?_eq_some_iff.1 hj).1
    rw [(get_stored h.valid (h.lt_next hj)).2 hne]
    exact hg
  · rcases get2?_stored href with hold | rfl
    · rw [type_stored h.valid (h.valid.entries hold)] at hrep'
      exact h.apart hold hrep'
    · exact h.length_le
  · by_cases hne : pvc = p ∧ n = k
    · obtain ⟨rfl, rfl⟩ := hne
      rw [replicas_stored_self (f := { f with fileName := n }) h.valid rfl] at hl
      refine (good_storedReplicas_iff (f := { f with fileName := n }) (h.onePerNode pvc n) hrep
        hfirst).2 (fun l0 hl0 hmem => ?_) l hl
      obtain ⟨r, hr, hnode⟩ := List.mem_map.1 hmem
      have hkey := mem_keys_of_latest ((h.onePerNode pvc n l0 hl0).latest r hr)
      rw [hnode] at hkey
      exact hnew hkey
    · rw [replicas_stored_of_ne h.valid h.own hne] at hl
      exact (good_other hne).2 (h.onePerNode p k l hl)

/-- One pass of the loop of the loader. -/
theorem Loading.insertFile (h : Loading fileMap H m) (hi : fileMap[i]? = some f)
    (hnew : ∀ x, loadedFile pvc subDir f = some x → x.key ∉ H.map Report.key)
    (hstep : Manager.insertFile pvc subDir m i = .ok m') :
    Loading fileMap (H ++ (loadedFile pvc subDir f).toList) m' := by
  have hskip : loadedFile pvc subDir f = none → Loading fileMap H m' →
      Loading fileMap (H ++ (loadedFile pvc subDir f).toList) m' := by
    intro hnone hm
    rw [hnone, Option.toList_none, List.append_nil]
    exact hm
  have htype := h.types hi
  by_cases hrep : Str.isIn "Replicate" f.type = true
  · have hd := ne_distribute hrep
    simp only [Manager.insertFile, h.same hi hrep, if_neg hd, if_pos hrep] at hstep
    split at hstep
    · split at hstep
      · cases hstep
      · rename_i n hn
        obtain ⟨first, files, hfirst, -, -⟩ := replicate_cases pvc n f m hstep
        have hreport : loadedFile pvc subDir f = some ⟨pvc, n, first.host, f.pba⟩ := by
          simp [loadedFile, hrep, reportOf, hn, hfirst]
        have hstored : m' = m.stored pvc n { f with fileName := n } := by
          have hstore : m.store pvc n { f with fileName := n } = .ok m' := by
            rw [store, if_neg hd, if_pos hrep]
            exact hstep
          rw [Manager.stored, hstore]
        rw [hreport, hstored]
        exact h.stored hrep hfirst (hnew _ hreport)
    · rename_i hin
      cases hstep
      refine hskip ?_ h
      rw [loadedFile, if_pos hrep, reportOf, relPath_of_not_isIn hin]
      rfl
  · have hnone : loadedFile pvc subDir f = none := by
      rw [loadedFile, if_neg hrep]
    refine hskip hnone ?_
    rcases insertFile_cases hstep with rfl | ⟨n, -, ⟨hd, rfl⟩ | ⟨-, hrep', -⟩⟩
    · exact h
    · rw [htype] at hd
      exact h.adopt hi hd n
    · rw [htype] at hrep'
      exact absurd hrep' hrep

theorem Loading.withMap (h : Loading fileMap H m) : Loading fileMap H (m.withMap pvc) := by
  have hget := fun p n => withMap_get2? pvc p n m
  refine ⟨h.valid.withMap, h.raws, h.types, h.same, fun href hrep => ?_,
    ⟨fun href href' hrep => ?_⟩, fun p n l hl => ?_⟩
  · rw [hget] at href
    exact h.apart href hrep
  · rw [hget] at href href'
    exact h.own.eq href href' hrep
  · refine h.onePerNode p n l ?_
    rw [← hl, replicas, replicas, entry, entry, hget]
    rfl

/-- The positions of a list give its elements. -/
theorem filterMap_range {α β : Type} (g : α → Option β) (l : List α) :
    (List.range l.length).filterMap (fun i => l[i]?.bind g) = l.filterMap g := by
  induction l with
  | nil => rfl
  | cons a l ih =>
    rw [List.length_cons, List.range_succ_eq_map, List.filterMap_cons, List.filterMap_map]
    simp only [List.filterMap_cons, Function.comp_def, List.getElem?_cons_succ,
      List.getElem?_cons_zero, Option.bind_some, ih]

/-- The files of one PVC. -/
theorem Loading.pvcFMInsert (h : Loading fileMap H m)
    (hnew : ((H ++ fileMap.filterMap (loadedFile pvc subDir)).map Report.key).Nodup)
    (hstep : Manager.pvcFMInsert m pvc subDir = .ok m') :
    Loading fileMap (H ++ fileMap.filterMap (loadedFile pvc subDir)) m' := by
  let reportAt (i : Nat) : Option Report := fileMap[i]?.bind (loadedFile pvc subDir)
  have hall : (List.range fileMap.length).filterMap reportAt =
      fileMap.filterMap (loadedFile pvc subDir) := filterMap_range _ _
  rw [← hall, ← h.raws] at hnew ⊢
  refine foldlM_inv (P := fun done t => Loading fileMap (H ++ done.filterMap reportAt) t)
    ?_ ?_ hstep
  · rw [List.filterMap_nil, List.append_nil]
    exact h.withMap
  · intro done i rest hl t t' ht hfile
    have hi : i < fileMap.length := by
      have hmem : i ∈ List.range fileMap.length := by
        rw [← h.raws, hl]
        exact List.mem_append_right _ List.mem_cons_self
      exact List.mem_range.1 hmem
    have hget : fileMap[i]? = some (fileMap.get ⟨i, hi⟩) := List.getElem?_eq_getElem hi
    have hat : reportAt i = loadedFile pvc subDir (fileMap.get ⟨i, hi⟩) := by
      simp only [reportAt, hget, Option.bind_some]
    have hmore : (done ++ [i]).filterMap reportAt =
        done.filterMap reportAt ++ (loadedFile pvc subDir (fileMap.get ⟨i, hi⟩)).toList := by
      rw [List.filterMap_append, List.filterMap_cons, List.filterMap_nil, hat]
      cases loadedFile pvc subDir (fileMap.get ⟨i, hi⟩) <;> rfl
    rw [hmore, ← List.append_assoc]
    refine ht.insertFile hget (fun x hx hmem => ?_) hfile
    -- the key of `x` would be there twice
    rw [hl, List.filterMap_append, List.filterMap_cons, hat, hx, ← List.append_assoc,
      List.map_append, List.nodup_append] at hnew
    exact hnew.2.2 _ hmem _ (by simp) rfl

end Load

/-- The replicas after the start. -/
theorem start_onePerNode {pvcInfo : Except String (Dict String String)} {fileMap : List FilePBA}
    {m : Manager} (h : start pvcInfo fileMap = .ok m)
    (hload : ((loaded pvcInfo fileMap).map Report.key).Nodup) :
    m.Own ∧ OnePerNode (loaded pvcInfo fileMap) m := by
  have hempty : ∀ p n, (⟨⟨fileMap⟩, List.range fileMap.length, ∅, ∅, pvcInfo⟩ : Manager).FM.get2?
      p n = none := fun p n => Dict.get2?_of_none (Dict.get?_empty p)
  have h0 : Loading fileMap [] ⟨⟨fileMap⟩, List.range fileMap.length, ∅, ∅, pvcInfo⟩ := by
    have hget : ∀ {i f}, fileMap[i]? = some f → (⟨fileMap⟩ : Heap FilePBA).get i = f := by
      intro i f hi
      simp [Heap.get, hi]
    refine ⟨⟨fun ref hr => List.mem_range.1 hr, fun {p n ref} href => ?_⟩, rfl, fun hi => ?_,
      fun hi _ => hget hi, fun {p n ref} href => ?_, ⟨fun {p n q k ref} href => ?_⟩,
      fun p n l hl => ?_⟩
    · rw [hempty] at href
      cases href
    · rw [hget hi]
    · rw [hempty] at href
      cases href
    · rw [hempty] at href
      cases href
    · rw [replicas, entry, hempty] at hl
      cases hl
  unfold start at h
  simp only at h
  cases pvcInfo with
  | error msg =>
    cases h
    exact ⟨h0.own, h0.onePerNode⟩
  | ok info =>
    simp only at h
    let reports (done : List (String × String)) : List Report :=
      done.flatMap (fun x => fileMap.filterMap (loadedFile x.1 x.2))
    have hfinal : Loading fileMap (reports info.items) m := by
      refine foldlM_inv (P := fun done t => Loading fileMap (reports done) t) h0 ?_ h
      intro done x rest hl t t' ht hstep
      simp only [reports]
      rw [List.flatMap_append, List.flatMap_cons, List.flatMap_nil, List.append_nil]
      refine ht.pvcFMInsert ?_ hstep
      rw [loaded, hl, List.flatMap_append, List.flatMap_cons, ← List.append_assoc, List.map_append]
        at hload
      exact (List.nodup_append.1 hload).1
    exact ⟨hfinal.own, hfinal.onePerNode⟩

/-! ## Runs -/

/-- The Manager after some messages, each with what happens around it. -/
def runAll (m : Manager) (l : List (Env × FMPushPbaRequest)) : Manager :=
  l.foldl (fun m x => ((pushPba x.1 x.2).run ⟨m, []⟩).2.self) m

/-- The reports in some messages. -/
def reports (m : Manager) (l : List (Env × FMPushPbaRequest)) : List Report :=
  l.filterMap (fun x => m.report x.2)

section Runs

variable {m : Manager}

theorem runAll_concat (l : List (Env × FMPushPbaRequest)) (x : Env × FMPushPbaRequest) :
    m.runAll (l ++ [x]) = (m.runAll l).after x.2 := by
  rw [runAll, List.foldl_append, List.foldl_cons, List.foldl_nil, pushPba_self]
  rfl

theorem reports_concat (l : List (Env × FMPushPbaRequest)) (x : Env × FMPushPbaRequest) :
    m.reports (l ++ [x]) = m.reports l ++ (m.report x.2).toList := by
  rw [reports, List.filterMap_append, List.filterMap_cons, List.filterMap_nil]
  cases m.report x.2 <;> rfl

theorem frozen_runAll (l : List (Env × FMPushPbaRequest)) : Frozen m (m.runAll l) := by
  induction l using List.reverseRecOn with
  | nil => exact Frozen.refl m
  | append_singleton l x ih =>
    rw [runAll_concat]
    exact ih.trans (frozen_after _ _)

theorem valid_runAll (hv : m.Valid) (ho : m.Own) (l : List (Env × FMPushPbaRequest)) :
    (m.runAll l).Valid ∧ (m.runAll l).Own := by
  induction l using List.reverseRecOn with
  | nil => exact ⟨hv, ho⟩
  | append_singleton l x ih =>
    rw [runAll_concat]
    exact ⟨ih.1.after x.2, ih.2.after ih.1 x.2⟩

/-- The PVCs do not change, so a message reports the same at any time. -/
theorem report_runAll (l : List (Env × FMPushPbaRequest)) (r : FMPushPbaRequest) :
    (m.runAll l).report r = m.report r := by
  unfold report place
  rw [(frozen_runAll l).pvcInfo]

end Runs

/-- **When a Manager has one replica per node, with the latest extents.** After a start on a
map that has no two files of one node for a path, all states of a run do exactly if no
message repeats a node. -/
theorem onePerNode_iff {pvcInfo : Except String (Dict String String)} {fileMap : List FilePBA}
    {m₀ : Manager} (h : start pvcInfo fileMap = .ok m₀)
    (hload : ((loaded pvcInfo fileMap).map Report.key).Nodup)
    (l : List (Env × FMPushPbaRequest)) :
    (∀ l', l' <+: l → OnePerNode (loaded pvcInfo fileMap ++ m₀.reports l') (m₀.runAll l')) ↔
      ∀ l₁ x l₂, l = l₁ ++ x :: l₂ → Unrepeated (m₀.runAll l₁) x.2 := by
  obtain ⟨hown, hone⟩ := start_onePerNode h hload
  refine Run.forall_prefix_iff ?_ (fun l' x _ _ hl' => ?_) l (fun _ _ => trivial)
  · rw [reports, List.filterMap_nil, List.append_nil]
    exact hone
  · obtain ⟨hv, ho⟩ := valid_runAll (start_valid h) hown l'
    rw [runAll_concat, reports_concat, ← List.append_assoc, ← report_runAll l']
    exact onePerNode_after_iff hv ho hl'

/-! ### Replicas of one file -/

/-- What Trace pushes for a new replica of `table`. -/
def tableCreate (node : String) : FMPushPbaRequest := ⟨"create", (tableOn "create" node).2.filePba⟩

theorem unrepeated_tableCreate {m : Manager} {node : String} (hm : m.pvcInfo = .ok onePvc)
    (hnot : ∀ l, m.replicas "pvc1" "table" = some l → node ∉ l.map ReplicaPba.Node) :
    Unrepeated m (tableCreate node) := by
  have htype : Str.isIn "Replicate" "Replicate" = true := by decide
  intro x hx l hl
  rw [report_eq (r := tableCreate node) (place_table hm) relPath_table] at hx
  cases hx
  rw [if_neg (fun h => ne_distribute htype h.2), if_pos ⟨rfl, htype⟩]
  exact hnot l hl

/-- Each of two nodes creates its replica once. -/
theorem eachOnce_onePerNode :
    OnePerNode (loaded (.ok onePvc) [] ++
        noFiles.reports [(quiet, tableCreate "node1"), (quiet, tableCreate "node2")])
      (noFiles.runAll [(quiet, tableCreate "node1"), (quiet, tableCreate "node2")]) := by
  refine (onePerNode_iff noFiles_start (by decide) _).2 (fun l₁ x l₂ he => ?_) _ List.prefix_rfl
  rcases l₁ with _ | ⟨y₁, _ | ⟨y₂, l₁⟩⟩
  · cases he
    exact unrepeated_tableCreate rfl (fun l hl => by cases hl)
  · cases he
    have hone : (noFiles.runAll [(quiet, tableCreate "node1")]).replicas "pvc1" "table" =
        some [⟨[.blockAt "node1" (.lit 0)], "node1"⟩] := by decide
    refine unrepeated_tableCreate (by decide) (fun l hl => ?_)
    cases hone.symm.trans hl
    decide
  · simp at he

/-- Trace reports a file of a node twice: the replica is there twice. -/
theorem reportedTwice_not_onePerNode :
    twoNodes.Reachable ∧
    start (.ok onePvc) (twoNodes.tRegister "m:23831").tGetFileMap = .ok noFiles ∧
    ∀ H, ¬ OnePerNode H
      (deployed [tableOn "create" "node1", tableOn "create" "node1"]).manager := by
  refine ⟨.init twoNodes_init, noFiles_listed, fun H h => ?_⟩
  have htwo : (deployed [tableOn "create" "node1", tableOn "create" "node1"]).manager.replicas
      "pvc1" "table" =
        some [⟨[.blockAt "node1" (.lit 0)], "node1"⟩, ⟨[.blockAt "node1" (.lit 0)], "node1"⟩] := by
    decide
  exact absurd (h _ _ _ htwo).nodes (by decide)

end Lba2Pba.Manager
