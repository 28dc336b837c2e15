import Lba2Pba.Py.Str
import Lba2Pba.Py.Struct

/-!
# The FIEMAP buffer

`worker.py` and `lba2pba_worker.py` ask the kernel for the extents of a file in the same
way: they pack a request into a buffer, have FIEMAP fill it and unpack the records one by
one. The formats, the size of the buffer and what passes through it are stated here once.
The node is a parameter: what `df` prints, which files can be opened and what FIEMAP
leaves in the buffer are not code of the repository.
-/

namespace Lba2Pba.Fiemap

open Py

/-- `_PBASCAN_FORMAT = "=QQLLLL"`. -/
def pbascanFormat : List Nat := [8, 8, 4, 4, 4, 4]

/-- `_PBASCAN_EXTENT_FORMAT = "=QQQQQLLLL"`. -/
def pbascanExtentFormat : List Nat := [8, 8, 8, 8, 8, 4, 4, 4, 4]

def pbascanSize : Nat := Struct.calcsize pbascanFormat

def pbascanExtentSize : Nat := Struct.calcsize pbascanExtentFormat

def pbascanBufferSize : Nat := 256 * 1024

/-- The number of extents that the buffer has room for. -/
def fiemapExtentCnt : Nat := (pbascanBufferSize - pbascanSize) / pbascanExtentSize

/-- The final value of `pba_buf_size`. -/
def pbaBufSize : Nat := fiemapExtentCnt * pbascanExtentSize + pbascanSize

/-- What `os.stat` says of a file. -/
structure Stat where
  stSize : UInt64
  major : Nat
  minor : Nat

/-- A node as the workers meet it: the output of `df`, the files that can be opened and
what `os.stat` says of them, and the FIEMAP call on the buffer, with `none` where it
raises. -/
structure Node where
  df : String → String
  stat : String → Option Stat
  ioctl : String → List UInt8 → Option (List UInt8)
  hostname : String

/-- The device in the output of `df`: `res.split("\n")[1].split()[0]`. -/
def dfDevice (res : String) : Option String := do
  let line ← (Str.split res "\n")[1]?
  (Str.words line)[0]?

/-- The buffer that is given to the kernel, with the flag `_PBASCAN_FLAG_SYNC`. -/
def fiemapRequest (stSize : UInt64) : List UInt8 :=
  Struct.packInto pbascanFormat (List.replicate pbaBufSize 0)
    [0, stSize.toNat, 1, 0, fiemapExtentCnt, 0]

/-- `pba_buf[dist:dist+_PBASCAN_EXTENT_SIZE]` for the extent `i`. -/
def extentSlice (buf : List UInt8) (i : Nat) : List UInt8 :=
  (buf.drop (pbascanSize + pbascanExtentSize * i)).take pbascanExtentSize

/-- `pba_map`. -/
def pbaMap (buf : List UInt8) : Option (List Nat) :=
  Struct.unpack pbascanFormat (buf.take pbascanSize)

/-- `pba_extent` for the extent `i`. -/
def pbaExtent (buf : List UInt8) (i : Nat) : Option (List Nat) :=
  Struct.unpack pbascanExtentFormat (extentSlice buf i)

/-! ## What the kernel writes -/

/-- `struct fiemap_extent`. -/
structure Extent where
  feLogical : UInt64
  fePhysical : UInt64
  feLength : UInt64
  feReserved64 : UInt64 × UInt64
  feFlags : UInt32
  feReserved : UInt32 × UInt32 × UInt32

def Extent.fields (x : Extent) : List Nat :=
  [x.feLogical.toNat, x.fePhysical.toNat, x.feLength.toNat, x.feReserved64.1.toNat,
    x.feReserved64.2.toNat, x.feFlags.toNat, x.feReserved.1.toNat, x.feReserved.2.1.toNat,
    x.feReserved.2.2.toNat]

/-- The extent holds the logical offset `o` of its file. -/
def Extent.Covers (x : Extent) (o : Nat) : Prop :=
  x.feLogical.toNat ≤ o ∧ o < x.feLogical.toNat + x.feLength.toNat

instance (x : Extent) (o : Nat) : Decidable (x.Covers o) :=
  inferInstanceAs (Decidable (_ ∧ _))

/-- The physical address of the offset `o` in the extent that holds it. -/
def Extent.physical (x : Extent) (o : Nat) : Int :=
  x.fePhysical.toNat + ((o : Int) - x.feLogical.toNat)

/-- `struct fiemap` without `fm_mapped_extents`. -/
structure Header where
  fmStart : UInt64
  fmLength : UInt64
  fmFlags : UInt32
  fmExtentCount : UInt32
  fmReserved : UInt32

def Header.fields (h : Header) (mapped : Nat) : List Nat :=
  [h.fmStart.toNat, h.fmLength.toNat, h.fmFlags.toNat, mapped, h.fmExtentCount.toNat,
    h.fmReserved.toNat]

/-- The bytes of the extents. -/
def records (extents : List Extent) : List UInt8 :=
  extents.flatMap (fun x => Struct.pack pbascanExtentFormat x.fields)

/-- A buffer with these extents: the header with their number, the extents, and the
bytes after them. -/
def response (h : Header) (extents : List Extent) (tail : List UInt8) : List UInt8 :=
  Struct.pack pbascanFormat (h.fields extents.length) ++ (records extents ++ tail)

theorem fits_extent (x : Extent) : Struct.Fits pbascanExtentFormat x.fields := by
  have h1 := x.feLogical.toNat_lt
  have h2 := x.fePhysical.toNat_lt
  have h3 := x.feLength.toNat_lt
  have h4 := x.feReserved64.1.toNat_lt
  have h5 := x.feReserved64.2.toNat_lt
  have h6 := x.feFlags.toNat_lt
  have h7 := x.feReserved.1.toNat_lt
  have h8 := x.feReserved.2.1.toNat_lt
  have h9 := x.feReserved.2.2.toNat_lt
  simp only [Struct.Fits, pbascanExtentFormat, Extent.fields, List.forall₂_cons,
    List.Forall₂.nil, and_true]
  omega

theorem fits_header (h : Header) {mapped : Nat} (hm : mapped ≤ fiemapExtentCnt) :
    Struct.Fits pbascanFormat (h.fields mapped) := by
  have hcnt : fiemapExtentCnt = 4680 := by decide
  have h1 := h.fmStart.toNat_lt
  have h2 := h.fmLength.toNat_lt
  have h3 := h.fmFlags.toNat_lt
  have h4 := h.fmExtentCount.toNat_lt
  have h5 := h.fmReserved.toNat_lt
  simp only [Struct.Fits, pbascanFormat, Header.fields, List.forall₂_cons,
    List.Forall₂.nil, and_true]
  omega

theorem length_record (x : Extent) :
    (Struct.pack pbascanExtentFormat x.fields).length = pbascanExtentSize :=
  Struct.length_pack (fits_extent x)

theorem length_records (extents : List Extent) :
    (records extents).length = pbascanExtentSize * extents.length := by
  induction extents with
  | nil => rfl
  | cons x l ih =>
    have hcons : records (x :: l) = Struct.pack pbascanExtentFormat x.fields ++ records l :=
      List.flatMap_cons
    rw [hcons, List.length_append, length_record, ih, List.length_cons, Nat.mul_succ, Nat.add_comm]

/-! ## Reading the buffer -/

section Decode

variable {h : Header} {extents : List Extent} {tail : List UInt8}
  (hm : extents.length ≤ fiemapExtentCnt)

include hm in
theorem length_response : (response h extents tail).length =
    pbascanSize + (pbascanExtentSize * extents.length + tail.length) := by
  rw [response, List.length_append, List.length_append, length_records,
    Struct.length_pack (fits_header h hm)]
  rfl

include hm in
/-- The number of extents is read back. -/
theorem pbaMap_response : pbaMap (response h extents tail) = some (h.fields extents.length) := by
  have hfits := fits_header h hm
  have hheader : (Struct.pack pbascanFormat (h.fields extents.length)).length = pbascanSize :=
    Struct.length_pack hfits
  rw [pbaMap, response, List.take_left' hheader, Struct.unpack_pack hfits]

include hm in
theorem extentSlice_response {i : Nat} {x : Extent} (hx : extents[i]? = some x) :
    extentSlice (response h extents tail) i = Struct.pack pbascanExtentFormat x.fields := by
  have hheader : (Struct.pack pbascanFormat (h.fields extents.length)).length = pbascanSize :=
    Struct.length_pack (fits_header h hm)
  rw [extentSlice, response, ← List.drop_drop, List.drop_left' hheader]
  exact Struct.slice_flatMap length_record hx tail

include hm in
/-- Each record is read back. -/
theorem pbaExtent_response {i : Nat} {x : Extent} (hx : extents[i]? = some x) :
    pbaExtent (response h extents tail) i = some x.fields := by
  rw [pbaExtent, extentSlice_response hm hx, Struct.unpack_pack (fits_extent x)]

end Decode

/-! ## The request -/

/-- The header that the kernel is given. -/
def requestHeader (stSize : UInt64) : Header := ⟨0, stSize, 1, 4680, 0⟩

theorem fiemapRequest_eq (stSize : UInt64) : fiemapRequest stSize =
    response (requestHeader stSize) [] (List.replicate (pbaBufSize - pbascanSize) 0) := by
  have hfields : (requestHeader stSize).fields 0 =
      [0, stSize.toNat, 1, 0, fiemapExtentCnt, 0] := rfl
  rw [fiemapRequest, Struct.packInto, response, List.length_nil, hfields]
  exact congrArg _ (List.drop_replicate ..)

theorem length_fiemapRequest (stSize : UInt64) : (fiemapRequest stSize).length = pbaBufSize := by
  rw [fiemapRequest_eq, length_response (Nat.zero_le _), List.length_replicate]
  decide

/-- The request header is read back as it was packed. -/
theorem pbaMap_fiemapRequest (stSize : UInt64) :
    pbaMap (fiemapRequest stSize) = some [0, stSize.toNat, 1, 0, fiemapExtentCnt, 0] := by
  rw [fiemapRequest_eq, pbaMap_response (Nat.zero_le _)]
  rfl

/-! ## What a node reports of a file -/

/-- The file can be opened, and FIEMAP fills the buffer with these extents. -/
def Maps (node : Node) (path : String) (extents : List Extent) : Prop :=
  extents.length ≤ fiemapExtentCnt ∧ ∃ stat h tail, node.stat path = some stat ∧
    node.ioctl path (fiemapRequest stat.stSize) = some (response h extents tail)

/-- FIEMAP as it is documented, on a file with these extents: the kernel stores as many of
them as the request has room for, and their number. -/
def fiemap (extents : List Extent) (buf : List UInt8) : Option (List UInt8) :=
  match pbaMap buf with
  | some [fmStart, fmLength, fmFlags, _, fmExtentCount, fmReserved] =>
    let mapped := extents.take fmExtentCount
    some (Struct.pack pbascanFormat
        [fmStart, fmLength, fmFlags, mapped.length, fmExtentCount, fmReserved] ++
      (records mapped ++ buf.drop (pbascanSize + pbascanExtentSize * mapped.length)))
  | _ => none

/-- The kernel fills the buffer that it is given. -/
theorem fiemap_request (extents : List Extent) (stSize : UInt64) :
    ∃ tail, fiemap extents (fiemapRequest stSize) =
        some (response (requestHeader stSize) (extents.take fiemapExtentCnt) tail) ∧
      (response (requestHeader stSize) (extents.take fiemapExtentCnt) tail).length =
        pbaBufSize := by
  have hm : (extents.take fiemapExtentCnt).length ≤ fiemapExtentCnt := List.length_take_le _ _
  have hmul := Nat.mul_le_mul_left pbascanExtentSize hm
  refine ⟨(fiemapRequest stSize).drop
    (pbascanSize + pbascanExtentSize * (extents.take fiemapExtentCnt).length), ?_, ?_⟩
  · simp only [fiemap, pbaMap_fiemapRequest]
    rfl
  · rw [length_response hm, List.length_drop, length_fiemapRequest, pbaBufSize,
      Nat.mul_comm fiemapExtentCnt]
    omega

theorem maps_of_fiemap {node : Node} {path : String} {stat : Stat} {extents : List Extent}
    (hstat : node.stat path = some stat) (hio : node.ioctl path = fiemap extents) :
    Maps node path (extents.take fiemapExtentCnt) := by
  obtain ⟨tail, htail, -⟩ := fiemap_request extents stat.stSize
  exact ⟨List.length_take_le _ _, stat, requestHeader stat.stSize, tail, hstat, hio ▸ htail⟩

/-! ## Fixed nodes -/

/-- A block of a file at these addresses. -/
def blockAt (feLogical fePhysical : UInt64) : Extent :=
  ⟨feLogical, fePhysical, 4096, (0, 0), 0, (0, 0, 0)⟩

def dfText : String :=
  "Filesystem 1K-blocks Used Available Use% Mounted on\n/dev/sda 100 10 90 10% /brick"

theorem dfDevice_dfText : dfDevice dfText = some "/dev/sda" := by decide +kernel

/-- A file of 32 MiB, which can have a hole at its end. -/
def fileStat : Stat := ⟨33554432, 8, 0⟩

/-- A node with one disk, whose files have these extents. -/
def nodeWith (extents : String → List Extent) : Node where
  df := fun _ => dfText
  stat := fun _ => some fileStat
  ioctl := fun path => fiemap (extents path)
  hostname := "n"

theorem dfDevice_nodeWith (extents : String → List Extent) (path : String) :
    dfDevice ((nodeWith extents).df path) = some "/dev/sda" := dfDevice_dfText

theorem stat_nodeWith (extents : String → List Extent) (path : String) :
    (nodeWith extents).stat path = some fileStat := rfl

theorem maps_nodeWith {extents : String → List Extent} {path : String}
    (hm : (extents path).length ≤ fiemapExtentCnt) :
    Maps (nodeWith extents) path (extents path) := by
  have hmaps := maps_of_fiemap (stat_nodeWith extents path) rfl
  rwa [List.take_of_length_le hm] at hmaps

end Lba2Pba.Fiemap
