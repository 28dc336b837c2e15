import Lba2Pba.Worker.GetPba
import Lba2Pba.Worker.Filters
import Lba2Pba.Worker.StartupExact
import Mathlib.Data.List.Flatten

/-!
# The reply of `WInit`

The whole of `WInit`: the texts of gluster give the bricks, `os.walk` the files of each,
and the buffers of the kernel the extents of a file, which become messages when the
response is built. Elsewhere the worker is modelled over an `Env` that knows the extents;
`wInit_reports` is the step from the commands and the kernel (`Disks`) to that.
-/

namespace Lba2Pba.Worker

open Py Path Fiemap

/-! ## The code -/

/-- A file of `filePbaList`. -/
structure FileDict where
  pba : List ChunkObj
  volName : String
  fileName : String
  type : String

/-- `getFilePba(path, volume, t)`, from what `os.walk(path)` lists. -/
def fileDicts (node : Node) (walk : List (String × List String)) (volume t : String) :
    List FileDict :=
  (scanned walk).map fun fname =>
    { pba := getPBA node fname, volName := volume, fileName := fname, type := t }

/-- A chunk as a `PBA`. -/
def ChunkObj.toMessage (c : ChunkObj) : Except Err PBA := do
  let offset ← I64.assign c.offset
  let length ← I64.assign c.length
  let major ← I64.assign c.major
  let minor ← I64.assign c.minor
  return { disk := c.disk, host := c.host, offset, length, major, minor }

def FileDict.toMessage (d : FileDict) : Except Err FilePBA := do
  let pba ← d.pba.mapM ChunkObj.toMessage
  return { pba, volName := d.volName, fileName := d.fileName, type := d.type }

/-- `WInit(request)`: the `filePba` of the response, for what `os.walk` lists of a path. -/
def wInitResponse (sh : Shell) (node : Node) (walk : String → List (String × List String)) :
    Except Err (List FilePBA) := do
  let st ← wInit sh
  (st.scans.flatMap (fun label => fileDicts node (walk label.path) label.volName label.type)).mapM
    FileDict.toMessage

/-! ## The disks -/

/-- The device of a file, its status and its extents. -/
structure Disks where
  device : String → String
  stat : String → Stat
  extents : String → List Extent

/-- An extent of a file, as the worker reports it. -/
def Disks.message (d : Disks) (host path : String) (x : Extent) : PBA :=
  ⟨d.device path, host, .lit x.fePhysical.toNat, .lit x.feLength.toNat,
    .lit (d.stat path).major, .lit (d.stat path).minor⟩

/-- The extents that one FIEMAP request brings. -/
def Disks.env (d : Disks) (host : String) : Env :=
  ⟨fun path => ((d.extents path).take fiemapExtentCnt).map (d.message host path), host⟩

/-- The commands and the kernel tell of a file what the disks have, and its numbers fit
their fields. FIEMAP refuses a request for an empty range, so it does for an empty file. -/
structure Reads (node : Node) (d : Disks) (path : String) : Prop where
  df : dfDisk (node.df path) = some (d.device path)
  stat : node.stat path = some (d.stat path)
  ioctl : (d.stat path).stSize ≠ 0 → node.ioctl path = fiemap (d.extents path)
  empty : (d.stat path).stSize = 0 →
    node.ioctl path (fiemapRequest 0) = none ∧ d.extents path = []
  extents : ∀ x ∈ d.extents path, x.fePhysical.toNat < 2 ^ 63 ∧ x.feLength.toNat < 2 ^ 63
  numbers : (d.stat path).major < 2 ^ 63 ∧ (d.stat path).minor < 2 ^ 63

/-- The paths that `os.walk` lists. -/
def walked (walk : List (String × List String)) : List String :=
  walk.flatMap (fun x => x.2.map (join x.1))

/-! ## The messages -/

theorem assign_lit {n : Nat} (h : n < 2 ^ 63) : I64.assign n = .ok (I64.lit n) := by
  have hn : -2 ^ 63 ≤ (n : Int) ∧ (n : Int) < 2 ^ 63 := ⟨by omega, by omega⟩
  rw [I64.assign, dif_pos hn]
  simp only [I64.lit, Nat.mod_eq_of_lt h]

section Messages

variable {node : Node} {d : Disks} {path : String}

theorem toMessage_chunk (h : Reads node d path) {x : Extent} (hx : x ∈ d.extents path) :
    (chunkOf (d.device path) node.hostname (d.stat path) x).toMessage =
      .ok (d.message node.hostname path x) := by
  obtain ⟨hoff, hlen⟩ := h.extents x hx
  refine bind_eq_ok.2 ⟨_, assign_lit hoff, bind_eq_ok.2 ⟨_, assign_lit hlen, ?_⟩⟩
  exact bind_eq_ok.2 ⟨_, assign_lit h.numbers.1, bind_eq_ok.2 ⟨_, assign_lit h.numbers.2, rfl⟩⟩

theorem getPBA_of_reads (h : Reads node d path) : getPBA node path =
    ((d.extents path).take fiemapExtentCnt).map
      (chunkOf (d.device path) node.hostname (d.stat path)) := by
  by_cases hsize : (d.stat path).stSize = 0
  · obtain ⟨hio, hnil⟩ := h.empty hsize
    rw [hnil, List.take_nil, List.map_nil]
    exact getPBA_of_refused h.stat (hsize ▸ hio)
  · exact getPBA_fiemap h.df h.stat (h.ioctl hsize)

theorem mapM_chunks (h : Reads node d path) :
    (getPBA node path).mapM ChunkObj.toMessage = .ok ((d.env node.hostname).getPBA path) := by
  rw [getPBA_of_reads h, mapM_ok_iff, Disks.env, List.forall₂_map_left_iff,
    List.forall₂_map_right_iff, List.forall₂_same]
  exact fun x hx => toMessage_chunk h (List.mem_of_mem_take hx)

theorem scanned_sublist_walked (walk : List (String × List String)) :
    List.Sublist (scanned walk) (walked walk) := by
  refine (List.Sublist.flatMap_right _ (fun x _ => ?_)).trans (List.filter_sublist.flatMap _)
  exact List.filter_sublist.map (join x.1)

theorem mem_fileDicts {walk : List (String × List String)} {volume t : String} {x : FileDict}
    (hx : x ∈ fileDicts node walk volume t) :
    x.fileName ∈ walked walk ∧ x.pba = getPBA node x.fileName := by
  obtain ⟨fname, hf, rfl⟩ := List.mem_map.1 hx
  exact ⟨(scanned_sublist_walked walk).subset hf, rfl⟩

/-- The message of a file. -/
def FileDict.asRead (env : Env) (x : FileDict) : FilePBA :=
  { pba := env.getPBA x.fileName, volName := x.volName, fileName := x.fileName, type := x.type }

theorem toMessage_eq {x : FileDict} (hx : x.pba = getPBA node x.fileName)
    (h : Reads node d x.fileName) : x.toMessage = .ok (x.asRead (d.env node.hostname)) := by
  rw [FileDict.toMessage, hx, mapM_chunks h]
  rfl

theorem map_fileDicts (env : Env) (walk : List (String × List String)) (volume t : String) :
    (fileDicts node walk volume t).map (FileDict.asRead env) = getFilePba env walk volume t := by
  rw [fileDicts, getFilePba, List.map_map]
  rfl

end Messages

/-! ## The reply -/

section Reply

variable {c : Cluster} {node : Node} {d : Disks} {walk : String → List (String × List String)}

theorem wInitResponse_eq {scans : List Label} (hrun : wInit c.shell = .ok ⟨scans, scans⟩)
    (hread : ∀ label ∈ scans, ∀ path ∈ walked (walk label.path), Reads node d path) :
    wInitResponse c.shell node walk = .ok (scans.flatMap (fun label =>
      getFilePba (d.env node.hostname) (walk label.path) label.volName label.type)) := by
  have hmsg : ∀ x ∈ scans.flatMap (fun label =>
      fileDicts node (walk label.path) label.volName label.type),
      x.toMessage = .ok (x.asRead (d.env node.hostname)) := by
    intro x hx
    obtain ⟨label, hlabel, hx⟩ := List.mem_flatMap.1 hx
    obtain ⟨hname, hpba⟩ := mem_fileDicts hx
    exact toMessage_eq hpba (hread label hlabel _ hname)
  have hmap : scans.flatMap (fun label =>
      getFilePba (d.env node.hostname) (walk label.path) label.volName label.type) =
      (scans.flatMap (fun label =>
        fileDicts node (walk label.path) label.volName label.type)).map
          (FileDict.asRead (d.env node.hostname)) := by
    rw [List.map_flatMap]
    exact List.flatMap_congr (fun label _ => (map_fileDicts _ _ _ _).symm)
  simp only [wInitResponse, hrun, bind, Except.bind]
  rw [mapM_ok_iff, hmap, List.forall₂_map_right_iff, List.forall₂_same]
  exact hmsg

theorem mem_expected {label : Label} : label ∈ c.expected ↔
    ∃ v ∈ c.volumes, ∃ b ∈ v.bricks, b.isLocal = true ∧ label = ⟨b.path, v.name, v.type⟩ := by
  simp only [Cluster.expected, GlusterVolume.localLabels, List.mem_flatMap, List.mem_map,
    List.mem_filter, and_assoc, eq_comm]

end Reply

theorem mem_getFilePba_iff {env : Env} {walk : List (String × List String)} {volume t : String}
    {x : FilePBA} : x ∈ getFilePba env walk volume t ↔
      ∃ root files f, (root, files) ∈ walk ∧ f ∈ files ∧ ¬ Skipped root f ∧
        x = { pba := env.getPBA (join root f), volName := volume, fileName := join root f,
              type := t } := by
  rw [getFilePba, List.mem_map]
  constructor
  · rintro ⟨path, hpath, rfl⟩
    obtain ⟨root, files, f, hroot, hf, hskip, rfl⟩ := mem_scanned.1 hpath
    exact ⟨root, files, f, hroot, hf, hskip, rfl⟩
  · rintro ⟨root, files, f, hroot, hf, hskip, rfl⟩
    exact ⟨_, mem_scanned.2 ⟨root, files, f, hroot, hf, hskip, rfl⟩, rfl⟩

theorem fits_b1 : (localBrick "/b1" head_b1).Fits :=
  ⟨by decide, by decide, Str.forall_of_all (by decide +kernel), by decide +kernel⟩

theorem fits_b2 : (localBrick "/b2" head_b2).Fits :=
  ⟨by decide, by decide, Str.forall_of_all (by decide +kernel), by decide +kernel⟩

theorem separate_data : Separate (nodeWithTwo named_data nodup_names.2.1) := by
  have hnames : Str.isIn "vol" "data" = false ∧ Str.isIn "data" "vol" = false := by decide
  have hlines : ∀ line ∈ ["Status of volume: vol", "Status of volume: data"],
      grepLine "n1" line = false := by decide +kernel
  have htypes : ∀ line ∈ ["Volume Name: vol", "Volume Name: data"],
      Str.isIn "Type" line = false := by decide +kernel
  have hhost : Str.isIn "n1" "n1" = true := by decide
  refine ⟨List.cons_ne_nil _ _, fun u hu v hv hin => ?_, fun v hv => ?_, fun v hv => ?_, rfl,
    fun v hv => .of_eq (rows_of_fits (fun b hb _ => ?_) (fun b hb hl => ?_) (fun line hline => ?_)),
    fun v hv line hline => ?_⟩
  · rcases List.mem_pair.1 hu with rfl | rfl <;> rcases List.mem_pair.1 hv with rfl | rfl
    · rfl
    · exact absurd (hnames.1.symm.trans hin) Bool.false_ne_true
    · exact absurd (hnames.2.symm.trans hin) Bool.false_ne_true
    · rfl
  · rcases List.mem_pair.1 hv with rfl | rfl <;> rfl
  · rcases List.mem_pair.1 hv with rfl | rfl <;> exact ⟨_, List.mem_cons_self, rfl⟩
  · rcases List.mem_pair.1 hv with rfl | rfl
    · exact List.mem_singleton.1 hb ▸ ⟨fits_b1, hhost⟩
    · exact List.mem_singleton.1 hb ▸ ⟨fits_b2, hhost⟩
  · rcases List.mem_pair.1 hv with rfl | rfl
    · rw [List.mem_singleton.1 hb] at hl
      cases hl
    · rw [List.mem_singleton.1 hb] at hl
      cases hl
  · rcases List.mem_pair.1 hv with rfl | rfl
    · exact hlines line (List.mem_singleton.1 hline ▸ List.mem_cons_self)
    · exact hlines line (List.mem_singleton.1 hline ▸ List.mem_cons_of_mem _ List.mem_cons_self)
  · rcases List.mem_pair.1 hv with rfl | rfl
    · exact htypes line (List.mem_singleton.1 hline ▸ List.mem_cons_self)
    · exact htypes line (List.mem_singleton.1 hline ▸ List.mem_cons_of_mem _ List.mem_cons_self)

/-- A file on the first brick. -/
def oneWalk (brick : String) : List (String × List String) :=
  if brick = "/b1" then [("/b1", ["f"])] else []

def blockDisks : Disks := ⟨fun _ => "sda", fun _ => fileStat, fun _ => threeBlocks⟩

theorem reads_block (path : String) : Reads (nodeWith (fun _ => threeBlocks)) blockDisks path := by
  have hext : ∀ x ∈ threeBlocks, x.fePhysical.toNat < 2 ^ 63 ∧ x.feLength.toNat < 2 ^ 63 := by
    decide
  have hnumbers : 8 < 2 ^ 63 ∧ 0 < 2 ^ 63 := by decide
  have hsize : fileStat.stSize ≠ 0 := by decide
  exact ⟨dfDisk_nodeWith _ _, stat_nodeWith _ _, fun _ => rfl, fun h => absurd h hsize, hext,
    hnumbers⟩

end Lba2Pba.Worker
