import Lba2Pba.Py.Loop
import Lba2Pba.Fiemap

/-!
# The extents of a file: `getPBA` of the worker

`getPBA` of `worker.py` packs a FIEMAP request into a buffer, has the kernel fill it and
reads the extents out of it; any exception on the way is logged and gives no extents.
`getPBA_decodes` is the round trip through the bytes. There is only one request, so a
file with more extents than the buffer holds is cut off (`getPBA_complete_iff`).
-/

namespace Lba2Pba.Worker

open Py Fiemap

/-! ## The code -/

/-- An element of `chunk_list`. -/
structure ChunkObj where
  disk : String
  host : String
  major : Nat
  minor : Nat
  offset : Nat
  length : Nat
deriving DecidableEq

/-- The last part of the device that `df` prints. -/
def dfDisk (res : String) : Option String := do
  let device ← dfDevice res
  return Str.lastPiece device "/"

/-- One pass of the loop over the extents. -/
def chunkObj (disk host : String) (stat : Stat) (buf : List UInt8) (i : Nat) : Option ChunkObj := do
  let pbaExtent ← pbaExtent buf i
  let offset ← pbaExtent[1]?
  let length ← pbaExtent[2]?
  return ⟨disk, host, stat.major, stat.minor, offset, length⟩

/-- `chunk_list`. The line that logs `chunk_obj` after the loop raises if there was no
iteration. -/
def chunkList (disk host : String) (stat : Stat) (buf : List UInt8) : Option (List ChunkObj) := do
  let pbaMap ← pbaMap buf
  let count ← pbaMap[3]?
  let chunks ← (List.range count).mapM (chunkObj disk host stat buf)
  if count = 0 then none else return chunks

/-- `getPBA(path)`. -/
def getPBA (node : Node) (path : String) : List ChunkObj :=
  let chunks := do
    let disk ← dfDisk (node.df path)
    let stat ← node.stat path
    let buf ← node.ioctl path (fiemapRequest stat.stSize)
    chunkList disk node.hostname stat buf
  chunks.getD []

/-! ## Reading the buffer -/

/-- An extent as `getPBA` returns it. -/
def chunkOf (disk host : String) (stat : Stat) (x : Extent) : ChunkObj :=
  ⟨disk, host, stat.major, stat.minor, x.fePhysical.toNat, x.feLength.toNat⟩

section Decode

variable {disk host : String} {stat : Stat} {h : Header} {extents : List Extent}
  {tail : List UInt8} (hm : extents.length ≤ fiemapExtentCnt)

include hm in
theorem chunkObj_response {i : Nat} {x : Extent} (hx : extents[i]? = some x) :
    chunkObj disk host stat (response h extents tail) i = some (chunkOf disk host stat x) := by
  simp only [chunkObj, pbaExtent_response hm hx]
  rfl

include hm in
/-- The whole loop. Without extents the function raises after it. -/
theorem chunkList_response : chunkList disk host stat (response h extents tail) =
    if extents = [] then none else some (extents.map (chunkOf disk host stat)) := by
  have hloop : (List.range extents.length).mapM
      (chunkObj disk host stat (response h extents tail)) =
        some (extents.map (chunkOf disk host stat)) :=
    mapM_range_eq_some (fun i x hx => chunkObj_response hm hx)
  have hcount : (h.fields extents.length)[3]? = some extents.length := rfl
  simp only [chunkList, pbaMap_response hm, Option.bind_eq_bind, Option.bind_some, hcount, hloop,
    Option.pure_def, List.length_eq_zero_iff]

end Decode

/-! ## One call -/

theorem getPBA_of_response {node : Node} {path disk : String} {stat : Stat} {h : Header}
    {extents : List Extent} {tail : List UInt8} (hdisk : dfDisk (node.df path) = some disk)
    (hstat : node.stat path = some stat) (hm : extents.length ≤ fiemapExtentCnt)
    (hio : node.ioctl path (fiemapRequest stat.stSize) = some (response h extents tail)) :
    getPBA node path = extents.map (chunkOf disk node.hostname stat) := by
  simp only [getPBA, hdisk, hstat, hio, Option.bind_eq_bind, Option.bind_some,
    chunkList_response hm]
  split
  · rename_i hnil
    rw [hnil]
    rfl
  · rfl

/-- A call that FIEMAP refuses, as it does for an empty file, gives no extents. -/
theorem getPBA_of_refused {node : Node} {path : String} {stat : Stat}
    (hstat : node.stat path = some stat)
    (hio : node.ioctl path (fiemapRequest stat.stSize) = none) : getPBA node path = [] := by
  simp [getPBA, hstat, hio]

/-- **The round trip.** The kernel gets the header that was packed; for a buffer that it
has filled with extents, every slice is one whole record inside the buffer, and `getPBA`
returns the address and the length of each extent in order. -/
theorem getPBA_decodes {node : Node} {path disk : String} {stat : Stat}
    (hdisk : dfDisk (node.df path) = some disk) (hstat : node.stat path = some stat)
    (h : Header) (extents : List Extent) (hm : extents.length ≤ fiemapExtentCnt)
    (tail : List UInt8) (hlen : (response h extents tail).length = pbaBufSize)
    (hio : node.ioctl path (fiemapRequest stat.stSize) = some (response h extents tail)) :
    Struct.unpack pbascanFormat ((fiemapRequest stat.stSize).take pbascanSize) =
        some [0, stat.stSize.toNat, 1, 0, fiemapExtentCnt, 0] ∧
      (fiemapRequest stat.stSize).length = pbaBufSize ∧
      (∀ i < extents.length,
        pbascanSize + pbascanExtentSize * i + pbascanExtentSize ≤ pbaBufSize ∧
        (extentSlice (response h extents tail) i).length = Struct.calcsize pbascanExtentFormat) ∧
      getPBA node path = extents.map (chunkOf disk node.hostname stat) := by
  refine ⟨pbaMap_fiemapRequest _, length_fiemapRequest _, fun i hi => ?_,
    getPBA_of_response hdisk hstat hm hio⟩
  have hx : extents[i]? = some extents[i] := List.getElem?_eq_getElem hi
  refine ⟨?_, ?_⟩
  · -- the record after the last one would still end inside the buffer
    have hmul : pbascanExtentSize * i + pbascanExtentSize ≤ pbascanExtentSize * extents.length := by
      rw [← Nat.mul_succ]
      exact Nat.mul_le_mul_left _ hi
    rw [length_response hm] at hlen
    omega
  · rw [extentSlice_response hm hx, length_record]
    rfl

/-! ## Files with many extents -/

/-- What one request brings of a file. -/
theorem getPBA_fiemap {node : Node} {path disk : String} {stat : Stat}
    {extents : List Extent} (hdisk : dfDisk (node.df path) = some disk)
    (hstat : node.stat path = some stat) (hio : node.ioctl path = fiemap extents) :
    getPBA node path =
      (extents.take fiemapExtentCnt).map (chunkOf disk node.hostname stat) := by
  obtain ⟨tail, htail, -⟩ := fiemap_request extents stat.stSize
  exact getPBA_of_response hdisk hstat (List.length_take_le _ _) (hio ▸ htail)

theorem getPBA_of_df_none {node : Node} {path : String} (h : dfDisk (node.df path) = none) :
    getPBA node path = [] := by
  simp [getPBA, h]

/-- The chunks are those of all extents, in order. -/
def Complete (node : Node) (path : String) (extents : List Extent) : Prop :=
  (getPBA node path).map (fun c => (c.offset, c.length)) =
    extents.map (fun x => (x.fePhysical.toNat, x.feLength.toNat))

/-- **The whole file.** A file with extents is reported completely exactly if `df` names
its device and the extents fit one buffer: there is no second request. -/
theorem getPBA_complete_iff {node : Node} {path : String} {stat : Stat}
    {extents : List Extent} (hstat : node.stat path = some stat)
    (hio : node.ioctl path = fiemap extents) :
    Complete node path extents ↔
      extents = [] ∨ (dfDisk (node.df path)).isSome = true ∧ extents.length ≤ 4680 := by
  have hcnt : fiemapExtentCnt = 4680 := by decide
  cases hdisk : dfDisk (node.df path) with
  | none =>
    rw [Complete, getPBA_of_df_none hdisk, List.map_nil]
    constructor
    · intro heq
      exact .inl (List.map_eq_nil_iff.1 heq.symm)
    · rintro (rfl | ⟨hsome, -⟩)
      · rfl
      · cases hsome
  | some disk =>
    have hpairs : (getPBA node path).map (fun c => (c.offset, c.length)) =
        (extents.take 4680).map (fun x => (x.fePhysical.toNat, x.feLength.toNat)) := by
      rw [getPBA_fiemap hdisk hstat hio, hcnt, List.map_map]
      rfl
    rw [Complete, hpairs]
    constructor
    · intro heq
      have hlen := congrArg List.length heq
      rw [List.length_map, List.length_map, List.length_take] at hlen
      exact .inr ⟨rfl, by omega⟩
    · rintro (rfl | ⟨-, hle⟩)
      · rfl
      · rw [List.take_of_length_le hle]

/-! ### Fixed files -/

/-- The extents of a file of three blocks, the last of them out of order on the disk. -/
def threeBlocks : List Extent := [blockAt 0 8192, blockAt 4096 12288, blockAt 8192 4096]

theorem dfDisk_nodeWith (extents : String → List Extent) (path : String) :
    dfDisk ((nodeWith extents).df path) = some "sda" := by
  rw [dfDisk, dfDevice_nodeWith]
  decide +kernel

/-- Three blocks are decoded in the order of the file. -/
theorem getPBA_decodes_block :
    getPBA (nodeWith (fun _ => threeBlocks)) "/brick/f" =
      [⟨"sda", "n", 8, 0, 8192, 4096⟩, ⟨"sda", "n", 8, 0, 12288, 4096⟩,
        ⟨"sda", "n", 8, 0, 4096, 4096⟩] := by
  obtain ⟨tail, hio, hlen⟩ := fiemap_request threeBlocks fileStat.stSize
  have hdisk := dfDisk_nodeWith (fun _ => threeBlocks) "/brick/f"
  obtain ⟨-, -, -, hread⟩ := getPBA_decodes hdisk (stat_nodeWith _ _) _ threeBlocks (by decide)
    tail hlen hio
  rw [hread]
  rfl

theorem getPBA_complete_block :
    Complete (nodeWith (fun _ => threeBlocks)) "/brick/f" threeBlocks :=
  (getPBA_complete_iff (stat_nodeWith _ _) rfl).2
    (.inr ⟨by rw [dfDisk_nodeWith]; rfl, by decide⟩)

/-- One extent more than the buffer holds, and the last one is missing. -/
theorem getPBA_truncates :
    let extents := List.replicate 4681 (blockAt 0 8192)
    (getPBA (nodeWith (fun _ => extents)) "/brick/f").length = 4680 ∧
      ¬ Complete (nodeWith (fun _ => extents)) "/brick/f" extents := by
  intro extents
  have hcnt : fiemapExtentCnt = 4680 := by decide
  have hlen : (getPBA (nodeWith (fun _ => extents)) "/brick/f").length = 4680 := by
    rw [getPBA_fiemap (dfDisk_nodeWith _ _) (stat_nodeWith _ _) rfl, List.length_map,
      List.length_take, List.length_replicate, hcnt]
    rfl
  refine ⟨hlen, fun h => ?_⟩
  have heq := congrArg List.length h
  rw [List.length_map, List.length_map, hlen, List.length_replicate] at heq
  exact absurd heq (by decide)

end Lba2Pba.Worker
