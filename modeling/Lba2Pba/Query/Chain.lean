import Lba2Pba.Query.Fiemap

/-!
# Translation of a file with holes

The chain from the worker to `LB2PBA` for one file and one logical offset. Since the
ranges are attached by a running sum of the lengths, an extent is found at the sum of
the lengths before it. This is its logical address only if there is no hole before
it, and behind the last range nothing is found.
-/

namespace Lba2Pba.Query

open Py Fiemap Layout

/-- Extents that are sorted and disjoint. -/
structure Layered (extents : List Extent) : Prop where
  sorted : extents.Pairwise (fun x y => x.feLogical ≤ y.feLogical)
  disjoint : extents.Pairwise (fun x y => ∀ o, x.Covers o → ¬ y.Covers o)

/-- `LB2PBA(path, o, 1)` after the reply of `getPBA` for `path` was stored. -/
def translate (nodes : Nodes) (shardList : List (String × String))
    (FM : Dict String (List RangedChunk)) (path : String) (o : Nat) : Option (List Chunk) := do
  let data ← getPBA nodes shardList
  return lb2pba (FM.set path data) path o 1

/-- The sum of the lengths. -/
def total (xs : List Extent) : Nat := (xs.map (fun x => x.feLength.toNat)).sum

/-- No hole before an extent that is not empty, from the logical position `ran` on. -/
def Packed : Nat → List Extent → Prop
  | _, [] => True
  | ran, x :: xs =>
    (x.feLength ≠ 0 → x.feLogical.toNat = ran) ∧ Packed (ran + x.feLength.toNat) xs

instance decidablePacked : (ran : Nat) → (xs : List Extent) → Decidable (Packed ran xs)
  | _, [] => inferInstanceAs (Decidable True)
  | ran, x :: xs =>
    have := decidablePacked (ran + x.feLength.toNat) xs
    inferInstanceAs (Decidable (_ ∧ _))

@[simp] theorem total_nil : total [] = 0 := rfl

@[simp] theorem total_cons (x : Extent) (xs : List Extent) :
    total (x :: xs) = x.feLength.toNat + total xs := by
  simp [total]

theorem Packed.logical {pre post : List Extent} {x : Extent} {ran : Nat}
    (h : Packed ran (pre ++ x :: post)) (hx : x.feLength ≠ 0) :
    x.feLogical.toNat = ran + total pre := by
  induction pre generalizing ran with
  | nil => exact h.1 hx
  | cons y pre ih =>
    have hpos := ih h.2
    rw [total_cons]
    omega

/-! ## Where an offset is looked up -/

section
variable (host disk : String)

theorem length_chunkBytes (xs : List Extent) :
    (chunkBytes (xs.map (chunkOf host disk))).length = total xs := by
  induction xs with
  | nil => rfl
  | cons x xs ih =>
    rw [List.map_cons, chunkBytes_cons, List.length_append, Chunk.length_bytes, ih, total_cons]
    rfl

/-- The offset inside the extent `x` is found at the sum of the lengths before `x`. -/
theorem window_chunkBytes (pre post : List Extent) (x : Extent) {k : Nat}
    (hk : k < x.feLength.toNat) :
    window (total pre + k) 1 (chunkBytes ((pre ++ x :: post).map (chunkOf host disk))) =
      [((host, disk), (x.fePhysical.toNat : Int) + k)] := by
  have hpre := length_chunkBytes host disk pre
  have hlen : (chunkOf host disk x).bytes.length = x.feLength.toNat := by
    rw [Chunk.length_bytes]
    rfl
  rw [List.map_append, chunkBytes_append, window_append_right _ (by omega), hpre,
    Nat.add_sub_cancel_left, List.map_cons, chunkBytes_cons, window_append_left _ (by omega),
    Chunk.bytes, window_span]
  have hone : min ((1 : Nat) : Int) ((chunkOf host disk x).LENGTH - k) = 1 := by
    show min 1 ((x.feLength.toNat : Int) - k) = 1
    omega
  rw [hone]
  simp [span, chunkOf]

end

/-- What the chain answers for a file: the byte at position `o` of its extents, put
one after the other. -/
theorem translate_bytes {nodes : Nodes} {host fName disk : String} {node : Node}
    {extents : List Extent} (hnode : nodes host = some node) (hmaps : Maps node fName extents)
    (hdisk : dfDevice (node.df fName) = some disk) (FM : Dict String (List RangedChunk))
    (path : String) (o : Nat) :
    (translate nodes [(host, fName)] FM path o).map chunkBytes =
      some (window o 1 (chunkBytes (extents.map (chunkOf host disk)))) := by
  have hlen : ∀ c ∈ extents.map (chunkOf host disk), 0 ≤ c.LENGTH := by
    intro c hc
    obtain ⟨x, -, rfl⟩ := List.mem_map.1 hc
    exact Int.natCast_nonneg _
  have hstop : (o : Int) ≤ o + 1 := by omega
  have hscan := scan_seek _ hlen 0 (Int.natCast_nonneg o) hstop
  have hone : ((o : Int) + 1 - o).toNat = 1 := by omega
  rw [hone, Int.sub_zero, Int.toNat_natCast] at hscan
  rw [translate, getPBA_single, file2PBA_eq hnode hmaps hdisk]
  show some (chunkBytes (lb2pba _ path o 1)) = _
  rw [lb2pba_eq (Dict.get?_set_self _ _ _), hscan]

theorem translate_of_df_none {nodes : Nodes} {host fName : String} {node : Node}
    (hnode : nodes host = some node) (hdisk : dfDevice (node.df fName) = none)
    (FM : Dict String (List RangedChunk)) (path : String) (o : Nat) :
    translate nodes [(host, fName)] FM path o = none := by
  rw [translate, getPBA_single, file2PBA_of_df_none hnode hdisk]
  rfl

/-! ## Holes -/

/-- Sorted and disjoint: a non-empty extent ends before the next one starts. -/
theorem end_le {x y : Extent} (hle : x.feLogical ≤ y.feLogical)
    (hdis : ∀ o, x.Covers o → ¬ y.Covers o) (hy : y.feLength.toNat ≠ 0) :
    x.feLogical.toNat + x.feLength.toNat ≤ y.feLogical.toNat ∨ x.feLength.toNat = 0 := by
  by_contra hcon
  rw [not_or] at hcon
  have hlog : x.feLogical.toNat ≤ y.feLogical.toNat := UInt64.le_iff_toNat_le.1 hle
  have hxc : x.Covers y.feLogical.toNat := ⟨hlog, by omega⟩
  have hyc : y.Covers y.feLogical.toNat := ⟨Nat.le_refl _, by omega⟩
  exact hdis _ hxc hyc

/-- Behind a non-empty extent some extent ends no earlier than the lengths add up to. -/
theorem exists_last {x : Extent} {xs : List Extent} (hx : x.feLength.toNat ≠ 0)
    (hs : (x :: xs).Pairwise (fun x y => x.feLogical ≤ y.feLogical))
    (hd : (x :: xs).Pairwise (fun x y => ∀ o, x.Covers o → ¬ y.Covers o)) :
    ∃ y ∈ x :: xs, y.feLength.toNat ≠ 0 ∧
      x.feLogical.toNat + total (x :: xs) ≤ y.feLogical.toNat + y.feLength.toNat := by
  induction xs generalizing x with
  | nil => exact ⟨x, List.mem_cons_self, hx, by simp⟩
  | cons z xs ih =>
    obtain ⟨hsx, hsz⟩ := List.pairwise_cons.1 hs
    obtain ⟨hdx, hdz⟩ := List.pairwise_cons.1 hd
    by_cases hz : z.feLength.toNat = 0
    · -- an empty extent adds nothing to the sum
      have hskip : (x :: xs).Sublist (x :: z :: xs) := (List.sublist_cons_self z xs).cons_cons x
      obtain ⟨y, hy, hne, hle⟩ := ih hx (hs.sublist hskip) (hd.sublist hskip)
      refine ⟨y, hskip.subset hy, hne, ?_⟩
      simp only [total_cons] at hle ⊢
      omega
    · obtain ⟨y, hy, hne, hle⟩ := ih hz hsz hdz
      have hend := end_le (hsx z List.mem_cons_self) (hdx z List.mem_cons_self) hz
      refine ⟨y, List.mem_cons_of_mem x hy, hne, ?_⟩
      simp only [total_cons] at hle ⊢
      omega

/-- With a hole, some extent ends behind the last range. -/
theorem packed_or_exceeds {xs : List Extent} {ran : Nat}
    (hs : xs.Pairwise (fun x y => x.feLogical ≤ y.feLogical))
    (hd : xs.Pairwise (fun x y => ∀ o, x.Covers o → ¬ y.Covers o))
    (hran : ∀ x ∈ xs, x.feLength.toNat ≠ 0 → ran ≤ x.feLogical.toNat) :
    Packed ran xs ∨ ∃ y ∈ xs, y.feLength.toNat ≠ 0 ∧
      ran + total xs < y.feLogical.toNat + y.feLength.toNat := by
  induction xs generalizing ran with
  | nil => exact Or.inl trivial
  | cons x xs ih =>
    obtain ⟨hsx, hsxs⟩ := List.pairwise_cons.1 hs
    obtain ⟨hdx, hdxs⟩ := List.pairwise_cons.1 hd
    have hx := hran x List.mem_cons_self
    by_cases hhole : x.feLength.toNat ≠ 0 ∧ x.feLogical.toNat ≠ ran
    · obtain ⟨y, hy, hne, hle⟩ := exists_last hhole.1 hs hd
      have hlog := hx hhole.1
      exact Or.inr ⟨y, hy, hne, by omega⟩
    · have hnext : ∀ y ∈ xs, y.feLength.toNat ≠ 0 →
          ran + x.feLength.toNat ≤ y.feLogical.toNat := by
        intro y hy hne
        have hy' := hran y (List.mem_cons_of_mem x hy) hne
        have hend := end_le (hsx y hy) (hdx y hy) hne
        omega
      obtain hp | ⟨y, hy, hne, hlt⟩ := ih hsxs hdxs hnext
      · refine Or.inl ⟨?_, hp⟩
        intro hx0
        have hn : x.feLength.toNat ≠ 0 := fun h0 => hx0 (UInt64.toNat_inj.1 h0)
        omega
      · refine Or.inr ⟨y, List.mem_cons_of_mem x hy, hne, ?_⟩
        rw [total_cons]
        omega

theorem total_eq_zero {xs : List Extent} : total xs = 0 ↔ ∀ x ∈ xs, x.feLength.toNat = 0 := by
  induction xs with
  | nil => simp
  | cons x xs ih => rw [total_cons, List.forall_mem_cons, ← ih, Nat.add_eq_zero_iff]

theorem packed_of_total {xs : List Extent} (h : total xs = 0) (ran : Nat) : Packed ran xs := by
  induction xs generalizing ran with
  | nil => trivial
  | cons x xs ih =>
    rw [total_cons] at h
    have hx : x.feLength.toNat = 0 := by omega
    exact ⟨fun hne => absurd (UInt64.toNat_inj.1 hx) hne, ih (by omega) _⟩

section
variable {nodes : Nodes} {host fName disk : String} {node : Node} {extents : List Extent}
  {FM : Dict String (List RangedChunk)} {path : String}

/-- The chain answers the offset `o` with one byte: the address that the extent has for it. -/
def Translated (nodes : Nodes) (host fName : String) (FM : Dict String (List RangedChunk))
    (path disk : String) (x : Extent) (o : Nat) : Prop :=
  (translate nodes [(host, fName)] FM path o).map chunkBytes = some [((host, disk), x.physical o)]

/-- An extent with no hole before it. -/
theorem translated_of_logical (hnode : nodes host = some node) (hmaps : Maps node fName extents)
    (hdisk : dfDevice (node.df fName) = some disk) {pre post : List Extent} {x : Extent}
    (hsplit : extents = pre ++ x :: post) (hlog : x.feLogical.toNat = total pre) {o : Nat}
    (ho : x.Covers o) : Translated nodes host fName FM path disk x o := by
  obtain ⟨k, rfl⟩ := Nat.exists_eq_add_of_le ho.1
  have hk : k < x.feLength.toNat := by
    have := ho.2
    omega
  rw [Translated, translate_bytes hnode hmaps hdisk, hsplit, hlog,
    window_chunkBytes host disk pre post x hk, Extent.physical, hlog]
  congr 4
  push_cast
  omega

theorem translated_of_packed (hnode : nodes host = some node) (hmaps : Maps node fName extents)
    (hdisk : dfDevice (node.df fName) = some disk) (hp : Packed 0 extents) {x : Extent}
    (hx : x ∈ extents) {o : Nat} (ho : x.Covers o) :
    Translated nodes host fName FM path disk x o := by
  obtain ⟨pre, post, hsplit⟩ := List.append_of_mem hx
  have hne : x.feLength ≠ 0 := by
    intro h0
    have hlt := ho.2
    rw [h0] at hlt
    exact absurd hlt (by have := ho.1; simp; omega)
  rw [hsplit] at hp
  have hlog := hp.logical hne
  exact translated_of_logical hnode hmaps hdisk hsplit (by omega) ho

/-- Behind the last range nothing is found, so that a hole shows. -/
theorem packed_of_translated (hnode : nodes host = some node) (hmaps : Maps node fName extents)
    (hdisk : dfDevice (node.df fName) = some disk) (hlay : Layered extents)
    (hall : ∀ x ∈ extents, ∀ o, x.Covers o → ∃ d, Translated nodes host fName FM path d x o) :
    Packed 0 extents := by
  have hran : ∀ x ∈ extents, x.feLength.toNat ≠ 0 → 0 ≤ x.feLogical.toNat :=
    fun _ _ _ => Nat.zero_le _
  obtain hp | ⟨y, hy, hne, hlt⟩ := packed_or_exceeds hlay.sorted hlay.disjoint hran
  · exact hp
  · -- the last byte of `y` lies behind the last range
    exfalso
    have hlast : y.Covers (y.feLogical.toNat + y.feLength.toNat - 1) := by
      constructor <;> omega
    obtain ⟨d, hfound⟩ := hall y hy _ hlast
    rw [Translated, translate_bytes hnode hmaps hdisk, window_of_length_le] at hfound
    · cases hfound
    · rw [length_chunkBytes]
      omega

end

/-- **The chain translates the offsets of an extent with no hole before it, and those
of all extents if and only if there is no hole before any of them and `df` names the
device of the file.** -/
theorem translate_iff (nodes : Nodes) (host fName : String) (node : Node)
    (hnode : nodes host = some node) (extents : List Extent) (hmaps : Maps node fName extents)
    (hlay : Layered extents) (FM : Dict String (List RangedChunk)) (path : String) :
    (∀ disk, dfDevice (node.df fName) = some disk → ∀ pre x post, extents = pre ++ x :: post →
      x.feLogical.toNat = total pre → ∀ o, x.Covers o →
        Translated nodes host fName FM path disk x o) ∧
    ((∀ x ∈ extents, ∀ o, x.Covers o → ∃ disk, Translated nodes host fName FM path disk x o) ↔
      Packed 0 extents ∧ (total extents = 0 ∨ (dfDevice (node.df fName)).isSome = true)) := by
  refine ⟨fun disk hdisk pre x post hsplit hlog o ho =>
    translated_of_logical hnode hmaps hdisk hsplit hlog ho, ?_⟩
  cases hdisk : dfDevice (node.df fName) with
  | some disk =>
    constructor
    · intro hall
      exact ⟨packed_of_translated hnode hmaps hdisk hlay hall, .inr rfl⟩
    · rintro ⟨hp, -⟩ x hx o ho
      exact ⟨disk, translated_of_packed hnode hmaps hdisk hp hx ho⟩
  | none =>
    -- nothing at all is translated, so there is no byte to translate
    constructor
    · intro hall
      have hzero : total extents = 0 := by
        refine total_eq_zero.2 (fun x hx => ?_)
        by_contra hne
        obtain ⟨disk, hfound⟩ := hall x hx x.feLogical.toNat ⟨Nat.le_refl _, by omega⟩
        rw [Translated, translate_of_df_none hnode hdisk] at hfound
        cases hfound
      exact ⟨packed_of_total hzero 0, .inl hzero⟩
    · rintro ⟨-, hzero | hsome⟩ x hx o ⟨hle, hlt⟩
      · have hlen := total_eq_zero.1 hzero x hx
        omega
      · cases hsome

/-! ### A file with and without a hole -/

/-- The extents of a file of two blocks, at the given logical addresses. -/
def blocksAt (first second : UInt64) : List Extent :=
  [blockAt first 1048576, blockAt second 2097152]

theorem layered_blocksAt {first second : UInt64} (h : first.toNat + 4096 ≤ second.toNat) :
    Layered (blocksAt first second) := by
  have hlen : (4096 : UInt64).toNat = 4096 := rfl
  refine ⟨?_, ?_⟩
  · have hle : first ≤ second := UInt64.le_iff_toNat_le.2 (by omega)
    simp [blocksAt, blockAt, hle]
  · rw [blocksAt, List.pairwise_pair]
    rintro o ⟨-, hlt⟩ ⟨hle, -⟩
    dsimp only [blockAt] at hlt hle
    omega

/-- A cluster of one node, all of whose files have these extents. -/
def oneNode (extents : List Extent) : Nodes := fun host =>
  if host = "node1" then some (nodeWith (fun _ => extents)) else none

theorem maps_blocksAt (first second : UInt64) :
    Maps (nodeWith (fun _ => blocksAt first second)) "/brick/table" (blocksAt first second) := by
  have hcnt : 2 ≤ fiemapExtentCnt := by decide
  exact maps_nodeWith hcnt

/-- Without a hole every offset is translated. -/
theorem dense_translated : Packed 0 (blocksAt 0 4096) ∧
    ∀ x ∈ blocksAt 0 4096, ∀ o, x.Covers o →
      ∃ disk, Translated (oneNode (blocksAt 0 4096)) "node1" "/brick/table" Dict.empty "table"
        disk x o := by
  have hpacked : Packed 0 (blocksAt 0 4096) := by decide
  have hiff := (translate_iff (oneNode (blocksAt 0 4096)) "node1" "/brick/table" _ rfl _
    (maps_blocksAt 0 4096) (layered_blocksAt (by decide)) Dict.empty "table").2
  refine ⟨hpacked, hiff.2 ⟨hpacked, .inr ?_⟩⟩
  rw [dfDevice_nodeWith]
  rfl

/-- With a hole of one block at the front, the first byte of the first extent is looked
up in the second one. -/
theorem holeFirst_not_translated : ¬ ∀ x ∈ blocksAt 4096 8192, ∀ o, x.Covers o →
    ∃ disk, Translated (oneNode (blocksAt 4096 8192)) "node1" "/brick/table" Dict.empty "table"
      disk x o := by
  intro hall
  have hnode : oneNode (blocksAt 4096 8192) "node1" =
      some (nodeWith (fun _ => blocksAt 4096 8192)) := rfl
  obtain ⟨disk, hright⟩ := hall (blockAt 4096 1048576) List.mem_cons_self 4096 (by decide)
  have hwrong := window_chunkBytes "node1" "/dev/sda" [blockAt 4096 1048576] []
    (blockAt 8192 2097152) (k := 0) (by decide)
  rw [Translated, translate_bytes hnode (maps_blocksAt _ _) (dfDevice_nodeWith _ _)] at hright
  have hsame := hwrong.symm.trans (Option.some.inj hright)
  have haddr : ([2097152] : List Int) = [1048576] := congrArg (List.map Prod.snd) hsame
  exact absurd haddr (by decide)

end Lba2Pba.Query
