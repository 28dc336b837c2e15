import Lba2Pba.Py.Dict
import Lba2Pba.Layout.Window

/-!
# The range-annotated translation of the Query Agent

`lba2pba_manager.getPBA` attaches to each extent of a file the interval of logical
positions it holds, by a running sum (`attachRange`). The Query Agent keeps the
annotated lists in `FM` and cuts a requested range out of them in `LB2PBA`.

The intervals are contiguous from 0. This carries `lb2pba_exact`: at the extent
`[s, e)` the loop has still to deliver the positions from `s` on if it has found
the start, and from `start` on if it has not.
-/

namespace Lba2Pba.Query

open Py Layout

/-- One extent in the reply of `file2PBA`. -/
structure Chunk where
  HOST : String
  DISK : String
  OFFSET : Int
  LENGTH : Int
deriving DecidableEq

/-- An extent with the `RANGE` of logical positions it holds. -/
structure RangedChunk extends Chunk where
  RANGE : Int × Int
deriving DecidableEq

/-- The loop of `getPBA` that attaches the ranges, from the running sum `ran`. -/
def attachRange (ran : Int) : List Chunk → List RangedChunk
  | [] => []
  | c :: cs => { c with RANGE := (ran, ran + c.LENGTH) } :: attachRange (ran + c.LENGTH) cs

/-- The variables of the loop over one file in `LB2PBA`. -/
structure ScanState where
  schk : Bool
  echk : Bool
  result : List Chunk
deriving DecidableEq

/-- One pass of the loop over the extents of a file. -/
def scanStep (start stop : Int) (st : ScanState) (fpba : RangedChunk) : ScanState :=
  let s := fpba.RANGE.1
  let e := fpba.RANGE.2
  if !st.schk then
    if s ≤ start ∧ start < e then
      let offset := fpba.OFFSET + (start - s)
      if stop < e then
        { schk := true, echk := true,
          result := st.result ++ [⟨fpba.HOST, fpba.DISK, offset, stop - start⟩] }
      else
        { st with
          schk := true
          result := st.result ++ [⟨fpba.HOST, fpba.DISK, offset, e - start⟩] }
    else st
  else if !st.echk then
    if s ≤ e ∧ stop < e then
      { st with
        echk := true
        result := st.result ++ [⟨fpba.HOST, fpba.DISK, fpba.OFFSET, stop - s⟩] }
    else
      { st with result := st.result ++ [⟨fpba.HOST, fpba.DISK, fpba.OFFSET, fpba.LENGTH⟩] }
  else st

/-- `LB2PBA(path, sector, length)`: a loop over all files of `FM`, which skips the
others and starts the search anew in the one asked for. -/
def lb2pba (FM : Dict String (List RangedChunk)) (path : String) (sector length : Int) :
    List Chunk :=
  FM.items.foldl (fun result x =>
    if path ≠ x.1 then result
    else (x.2.foldl (scanStep sector (sector + length)) ⟨false, false, result⟩).result) []

/-! ## Bytes -/

/-- The physical bytes of an extent, as (host, disk) and address. -/
def Chunk.bytes (c : Chunk) : List ((String × String) × Int) :=
  span (c.HOST, c.DISK) c.OFFSET c.LENGTH

/-- The physical bytes of a list of extents, in order. -/
def chunkBytes (cs : List Chunk) : List ((String × String) × Int) := cs.flatMap Chunk.bytes

@[simp] theorem chunkBytes_nil : chunkBytes [] = [] := rfl

@[simp] theorem chunkBytes_cons (c : Chunk) (cs : List Chunk) :
    chunkBytes (c :: cs) = c.bytes ++ chunkBytes cs := by
  simp [chunkBytes]

@[simp] theorem chunkBytes_append (cs ds : List Chunk) :
    chunkBytes (cs ++ ds) = chunkBytes cs ++ chunkBytes ds := by
  simp [chunkBytes]

@[simp] theorem Chunk.length_bytes (c : Chunk) : c.bytes.length = c.LENGTH.toNat :=
  length_span _ _ _

/-- A part of an extent is a window of its bytes. -/
theorem bytes_part (c : Chunk) {k n : Int} (hk : 0 ≤ k) (hn : k + n ≤ c.LENGTH) :
    Chunk.bytes ⟨c.HOST, c.DISK, c.OFFSET + k, n⟩ = window k.toNat n.toNat c.bytes :=
  span_part _ _ _ hk hn

/-! ## The loop over one file -/

variable {start stop : Int}

theorem scan_done (l : List RangedChunk) (res : List Chunk) :
    l.foldl (scanStep start stop) ⟨true, true, res⟩ = ⟨true, true, res⟩ := by
  induction l with
  | nil => rfl
  | cons c l ih => exact ih

/-- After the start, from the position `s` on: what is left is the window of the
rest up to `stop`. A range that ends on the boundary `s = stop` takes an empty
piece of the next extent. -/
theorem scan_rest (cs : List Chunk) (hlen : ∀ c ∈ cs, 0 ≤ c.LENGTH) (s : Int) (hs : s ≤ stop)
    (res : List Chunk) :
    chunkBytes ((attachRange s cs).foldl (scanStep start stop) ⟨true, false, res⟩).result =
      chunkBytes res ++ window 0 (stop - s).toNat (chunkBytes cs) := by
  induction cs generalizing s res with
  | nil => simp [attachRange, window]
  | cons c cs ih =>
    have hc := hlen c List.mem_cons_self
    have hcs : ∀ c ∈ cs, 0 ≤ c.LENGTH := fun d hd => hlen d (List.mem_cons_of_mem _ hd)
    rw [attachRange, List.foldl_cons, chunkBytes_cons]
    by_cases hstop : stop < s + c.LENGTH
    · have hstep : scanStep start stop ⟨true, false, res⟩ { c with RANGE := (s, s + c.LENGTH) } =
          ⟨true, true, res ++ [⟨c.HOST, c.DISK, c.OFFSET, stop - s⟩]⟩ := by
        have hse : s ≤ s + c.LENGTH := by omega
        simp [scanStep, hstop, hse]
      have hpart := bytes_part c (k := 0) (n := stop - s) (Int.le_refl 0) (by omega)
      rw [Int.add_zero, Int.toNat_zero] at hpart
      rw [hstep, scan_done, chunkBytes_append, chunkBytes_cons, chunkBytes_nil, List.append_nil,
        hpart, window_append_left _ (by rw [Chunk.length_bytes]; omega)]
    · have hstep : scanStep start stop ⟨true, false, res⟩ { c with RANGE := (s, s + c.LENGTH) } =
          ⟨true, false, res ++ [c]⟩ := by
        simp [scanStep, hstop]
      have hall : window 0 (stop - s).toNat c.bytes = c.bytes :=
        window_zero_of_le (by rw [Chunk.length_bytes]; omega)
      have hleft : (stop - s).toNat - (c.bytes.length - 0) = (stop - (s + c.LENGTH)).toNat := by
        rw [Chunk.length_bytes]
        omega
      rw [hstep, ih hcs (s + c.LENGTH) (by omega), window_append, hall, hleft, Nat.zero_sub,
        chunkBytes_append, chunkBytes_cons, chunkBytes_nil, List.append_nil, List.append_assoc]

/-- Before the start, at the position `s`: what is returned is the window of the
rest that starts `start - s` further on. -/
theorem scan_seek (cs : List Chunk) (hlen : ∀ c ∈ cs, 0 ≤ c.LENGTH) (s : Int) (hs : s ≤ start)
    (hstop : start ≤ stop) :
    chunkBytes ((attachRange s cs).foldl (scanStep start stop) ⟨false, false, []⟩).result =
      window (start - s).toNat (stop - start).toNat (chunkBytes cs) := by
  induction cs generalizing s with
  | nil => simp [attachRange, window]
  | cons c cs ih =>
    have hc := hlen c List.mem_cons_self
    have hcs : ∀ c ∈ cs, 0 ≤ c.LENGTH := fun d hd => hlen d (List.mem_cons_of_mem _ hd)
    rw [attachRange, List.foldl_cons, chunkBytes_cons]
    by_cases hin : start < s + c.LENGTH
    · by_cases hend : stop < s + c.LENGTH
      · have hstep : scanStep start stop ⟨false, false, []⟩ { c with RANGE := (s, s + c.LENGTH) } =
            ⟨true, true, [⟨c.HOST, c.DISK, c.OFFSET + (start - s), stop - start⟩]⟩ := by
          simp [scanStep, hin, hs, hend]
        rw [hstep, scan_done, chunkBytes_cons, chunkBytes_nil, List.append_nil,
          bytes_part c (by omega) (by omega),
          window_append_left _ (by rw [Chunk.length_bytes]; omega)]
      · have hstep : scanStep start stop ⟨false, false, []⟩ { c with RANGE := (s, s + c.LENGTH) } =
            ⟨true, false, [⟨c.HOST, c.DISK, c.OFFSET + (start - s), s + c.LENGTH - start⟩]⟩ := by
          simp [scanStep, hin, hs, hend]
        have htail : window (start - s).toNat (s + c.LENGTH - start).toNat c.bytes =
            window (start - s).toNat (stop - start).toNat c.bytes := by
          rw [eq_window_iff (window_isPrefix _ _ _), length_window, Chunk.length_bytes]
          omega
        have hleft : (stop - start).toNat - (c.bytes.length - (start - s).toNat) =
            (stop - (s + c.LENGTH)).toNat := by
          rw [Chunk.length_bytes]
          omega
        have hzero : (start - s).toNat - c.bytes.length = 0 := by
          rw [Chunk.length_bytes]
          omega
        rw [hstep, scan_rest cs hcs (s + c.LENGTH) (by omega), window_append, hleft, hzero,
          chunkBytes_cons, chunkBytes_nil, List.append_nil, bytes_part c (by omega) (by omega),
          htail]
    · have hstep : scanStep start stop ⟨false, false, []⟩ { c with RANGE := (s, s + c.LENGTH) } =
          ⟨false, false, []⟩ := by
        simp [scanStep, hin]
      rw [hstep, ih hcs (s + c.LENGTH) (by omega),
        window_append_right _ (by rw [Chunk.length_bytes]; omega)]
      congr 1
      rw [Chunk.length_bytes]
      omega

/-! ## The loop over the files -/

/-- Only the file asked for contributes: its key occurs once. -/
theorem lb2pba_eq {FM : Dict String (List RangedChunk)} {path : String} {data : List RangedChunk}
    (h : FM.get? path = some data) (sector length : Int) :
    lb2pba FM path sector length =
      (data.foldl (scanStep sector (sector + length)) ⟨false, false, []⟩).result := by
  obtain ⟨l₁, l₂, hl⟩ := List.append_of_mem (Dict.mem_items_iff.2 h)
  obtain ⟨h1, h2⟩ := Dict.key_ne_of_split hl
  have skip : ∀ (l : List (String × List RangedChunk)) (res : List Chunk),
      (∀ x ∈ l, x.1 ≠ path) → l.foldl (fun result x =>
        if path ≠ x.1 then result
        else (x.2.foldl (scanStep sector (sector + length)) ⟨false, false, result⟩).result) res =
          res := by
    intro l
    induction l with
    | nil => intro res _; rfl
    | cons x l ih =>
      intro res hm
      rw [List.foldl_cons, if_pos (hm x List.mem_cons_self).symm]
      exact ih res (fun y hy => hm y (List.mem_cons_of_mem x hy))
  unfold lb2pba
  rw [hl, List.foldl_append, List.foldl_cons, skip l₁ [] h1, if_neg (by simp),
    skip l₂ _ h2]

/-- **The range-annotated translation is exact.** -/
theorem lb2pba_exact (FM : Dict String (List RangedChunk)) (path : String) (chunks : List Chunk)
    (hFM : FM.get? path = some (attachRange 0 chunks)) (hlen : ∀ c ∈ chunks, 0 ≤ c.LENGTH)
    (sector length : Int) (hs : 0 ≤ sector) (hl : 0 ≤ length) :
    chunkBytes (lb2pba FM path sector length) =
      window sector.toNat length.toNat (chunkBytes chunks) := by
  rw [lb2pba_eq hFM, scan_seek chunks hlen 0 hs (by omega)]
  congr 2 <;> omega

/-- A range over an empty extent that ends exactly on a boundary. -/
theorem lb2pba_exact_boundary :
    let chunks : List Chunk := [⟨"node1", "/dev/sda", 1000, 4⟩, ⟨"node1", "/dev/sda", 0, 0⟩,
      ⟨"node2", "/dev/sdb", 5000, 4⟩, ⟨"node2", "/dev/sdb", 7000, 4⟩]
    let FM : Dict String (List RangedChunk) := Dict.empty.set "a" (attachRange 0 chunks)
    chunkBytes (lb2pba FM "a" 3 5) = window 3 5 (chunkBytes chunks) :=
  lb2pba_exact _ "a" _ (Dict.get?_set_self _ _ _) (by decide) 3 5 (by decide) (by decide)

end Lba2Pba.Query
