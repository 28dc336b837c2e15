import Lba2Pba.Py.Loop
import Lba2Pba.Fiemap
import Lba2Pba.Query.RangeTable

/-!
# From FIEMAP to the range table

`block_query.post` of `lba2pba_worker.py` asks the kernel for the extents of a file,
reads them out of the packed buffer and replies with the physical address and the
length of each. `file2PBA` and `getPBA` of `lba2pba_manager.py` collect these replies
for the pieces of a file and attach the ranges. The logical address of an extent,
which the buffer has, is not passed on.
-/

namespace Lba2Pba.Query

open Py Fiemap

/-! ## The worker -/

/-- One element of `CHUNKS`. -/
structure WorkerChunk where
  SEQID : Nat
  MAJOR : Nat
  MINOR : Nat
  OFFSET : Nat
  LENGTH : Nat
deriving DecidableEq

/-- One element of `LIST` in the reply. -/
structure FileDict where
  FILENAME : String
  CHUNKS : List WorkerChunk
  DISK : String
deriving DecidableEq

/-- One pass of the loop over the extents in the buffer. -/
def readChunk (dbInfo : Stat) (buf : List UInt8) (i : Nat) : Option WorkerChunk := do
  let pbaExtent ← pbaExtent buf i
  let offset ← pbaExtent[1]?
  let length ← pbaExtent[2]?
  return ⟨i, dbInfo.major, dbInfo.minor, offset, length⟩

/-- `block_query.post` on a node: the `LIST` of its reply. Nothing is caught here, and a
failure of FIEMAP is raised again as an `Error`, so that whatever raises leaves no reply. -/
def post (node : Node) (fName : String) : Option (List FileDict) := do
  let disk ← dfDevice (node.df fName)
  let dbInfo ← node.stat fName
  let buf ← node.ioctl fName (fiemapRequest dbInfo.stSize)
  let pbaMap ← pbaMap buf
  let count ← pbaMap[3]?
  let chunks ← (List.range count).mapM (readChunk dbInfo buf)
  return [⟨fName, chunks, disk⟩]

/-! ## The manager -/

/-- The node that answers on each host. -/
abbrev Nodes := String → Option Node

/-- `file2PBA(host, fName)`. -/
def file2PBA (nodes : Nodes) (host fName : String) : Option (List Chunk) := do
  let node ← nodes host
  let res ← post node fName
  return res.flatMap (fun fileDict =>
    fileDict.CHUNKS.map (fun chunk => ⟨host, fileDict.DISK, chunk.OFFSET, chunk.LENGTH⟩))

/-- `data` in the reply of `getPBA`, for the list of a file's pieces (`shardList`). -/
def getPBA (nodes : Nodes) (shardList : List (String × String)) : Option (List RangedChunk) := do
  let data ← shardList.mapM (fun shard => file2PBA nodes shard.1 shard.2)
  return attachRange 0 data.flatten

/-! ## What passes through the buffer -/

/-- An extent as `getPBA` keeps it. -/
def chunkOf (host disk : String) (x : Extent) : Chunk :=
  ⟨host, disk, x.fePhysical.toNat, x.feLength.toNat⟩

theorem readChunk_response {dbInfo : Stat} {h : Header} {extents : List Extent}
    {tail : List UInt8} (hm : extents.length ≤ fiemapExtentCnt) {i : Nat} {x : Extent}
    (hx : extents[i]? = some x) : readChunk dbInfo (response h extents tail) i =
      some ⟨i, dbInfo.major, dbInfo.minor, x.fePhysical.toNat, x.feLength.toNat⟩ := by
  simp only [readChunk, pbaExtent_response hm hx]
  rfl

/-- The reply of a worker whose buffer was filled with these extents. -/
theorem file2PBA_eq {nodes : Nodes} {host fName disk : String} {node : Node}
    {extents : List Extent} (hnode : nodes host = some node) (hmaps : Maps node fName extents)
    (hdisk : dfDevice (node.df fName) = some disk) :
    file2PBA nodes host fName = some (extents.map (chunkOf host disk)) := by
  obtain ⟨hm, dbInfo, h, tail, hstat, hio⟩ := hmaps
  have hloop : (List.range extents.zipIdx.length).mapM
      (readChunk dbInfo (response h extents tail)) =
        some (extents.zipIdx.map (fun p =>
          ⟨p.2, dbInfo.major, dbInfo.minor, p.1.fePhysical.toNat, p.1.feLength.toNat⟩)) := by
    refine mapM_range_eq_some (fun i p hp => ?_)
    obtain ⟨x, hx, rfl⟩ := Option.map_eq_some_iff.1 (List.getElem?_zipIdx.symm.trans hp)
    rw [readChunk_response hm hx, Nat.zero_add]
  rw [List.length_zipIdx] at hloop
  have hcount : (h.fields extents.length)[3]? = some extents.length := rfl
  have hfst : extents.map (chunkOf host disk) =
      extents.zipIdx.map (fun p => chunkOf host disk p.1) := by
    rw [← List.zipIdx_map_fst 0 extents, List.map_map, List.zipIdx_map_fst]
    rfl
  simp only [file2PBA, post, hnode, hdisk, hstat, hio, pbaMap_response hm, hcount, hloop,
    Option.bind_eq_bind, Option.bind_some, Option.pure_def, hfst, List.flatMap_cons,
    List.flatMap_nil, List.append_nil, List.map_map]
  rfl

/-- Where `df` names no device, there is no reply. -/
theorem file2PBA_of_df_none {nodes : Nodes} {host fName : String} {node : Node}
    (hnode : nodes host = some node) (hdisk : dfDevice (node.df fName) = none) :
    file2PBA nodes host fName = none := by
  simp [file2PBA, post, hnode, hdisk]

theorem getPBA_single (nodes : Nodes) (host fName : String) :
    getPBA nodes [(host, fName)] = (file2PBA nodes host fName).map (attachRange 0) := by
  cases h : file2PBA nodes host fName with
  | none => simp [getPBA, h]
  | some data => simp [getPBA, h]

end Lba2Pba.Query
