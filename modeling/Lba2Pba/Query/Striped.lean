import Lba2Pba.Query.Chain
import Lba2Pba.Query.ShardOrder

/-!
# A striped file, from its pieces to `LB2PBA`

A volume with sharding keeps the first block of a file in the base file and the `k`-th
one behind it in the shard with number `k`. `getShardList` finds the pieces, the workers
report the extents of each, `getPBA` attaches the ranges and `LB2PBA` cuts the requested
range out. `range_translated` says that this whole chain gives every logical byte its
physical address, for files of any number of pieces and for ranges that lie across them.
-/

namespace Lba2Pba.Query

open Py Fiemap Layout

/-! ## One piece -/

/-- The physical address of the offset `o` in the first extent that holds it. -/
def addressIn (host disk : String) (xs : List Extent) (o : Nat) :
    Option ((String × String) × Int) :=
  (xs.find? (fun x => decide (x.Covers o))).map (fun x => ((host, disk), x.physical o))

/-- The bytes of extents without a hole, by their logical offsets. -/
theorem chunkBytes_packed (host disk : String) {xs : List Extent} {ran : Nat}
    (h : Packed ran xs) :
    (chunkBytes (xs.map (chunkOf host disk))).map some =
      (List.range' ran (total xs)).map (addressIn host disk xs) := by
  induction xs generalizing ran with
  | nil => rfl
  | cons x xs ih =>
    obtain ⟨hx, hxs⟩ := h
    have hlog : x.feLength.toNat ≠ 0 → x.feLogical.toNat = ran :=
      fun hne => hx (fun h0 => hne (by rw [h0]; rfl))
    -- the extent holds the offsets up to its end, and none behind it
    have hhere : ∀ k, k < x.feLength.toNat → x.Covers (ran + k) ∧
        x.physical (ran + k) = (x.fePhysical.toNat : Int) + k := by
      intro k hk
      have hran := hlog (by omega)
      refine ⟨⟨by omega, by omega⟩, ?_⟩
      rw [Extent.physical]
      push_cast
      omega
    have hbehind : ∀ o, ran + x.feLength.toNat ≤ o → ¬ x.Covers o := by
      rintro o ho ⟨hle, hlt⟩
      have hran := hlog (by omega)
      omega
    rw [List.map_cons, chunkBytes_cons, List.map_append, ih hxs, total_cons, ← List.range'_append_1,
      List.map_append]
    congr 1
    · rw [List.range'_eq_map_range, List.map_map, Chunk.bytes, span, List.map_map]
      refine List.map_congr_left (fun k hk => ?_)
      obtain ⟨hcov, hphys⟩ := hhere k (List.mem_range.1 hk)
      have hfind : (x :: xs).find? (fun x => decide (x.Covers (ran + k))) = some x :=
        List.find?_cons_of_pos (decide_eq_true hcov)
      show some ((host, disk), (x.fePhysical.toNat : Int) + k) = addressIn host disk (x :: xs) _
      rw [addressIn, hfind, Option.map_some, hphys]
    · refine List.map_congr_left (fun o ho => ?_)
      have hle := (List.mem_range'_1.1 ho).1
      rw [addressIn, addressIn, List.find?_cons_of_neg]
      simpa using hbehind o hle

/-! ## The pieces of a file -/

/-- A piece of a file: the device that it is on, and its extents. -/
structure Content where
  disk : String
  extents : List Extent

/-- The worker of the host reads this piece at the path. -/
def HoldsPiece (nodes : Nodes) (host path : String) (piece : Content) : Prop :=
  ∃ node, nodes host = some node ∧ Maps node path piece.extents ∧
    dfDevice (node.df path) = some piece.disk

theorem HoldsPiece.file2PBA_eq {nodes : Nodes} {host path : String} {piece : Content}
    (h : HoldsPiece nodes host path piece) :
    file2PBA nodes host path = some (piece.extents.map (chunkOf host piece.disk)) := by
  obtain ⟨node, hnode, hmaps, hdisk⟩ := h
  exact Query.file2PBA_eq hnode hmaps hdisk

/-- A file of `m + 1` pieces of `block` bytes, the last one possibly shorter. `host k` and
`content k` are the node of the piece with number `k` and what its worker reads there. -/
structure Striped (nodes : Nodes) (path : String) (file : ShardedFile) (block m : Nat)
    (host : Nat → String) (content : Nat → Content) : Prop where
  numbers : (file.shards.map Prod.fst).Perm (List.range' 1 m)
  hosts : host 0 = file.base.host ∧ ∀ s ∈ file.shards, host s.1 = s.2.host
  base : HoldsPiece nodes file.base.host (file.basePiece path).path (content 0)
  shards : ∀ s ∈ file.shards, HoldsPiece nodes s.2.host (file.piece s).path (content s.1)
  packed : ∀ k ≤ m, Packed 0 (content k).extents
  full : ∀ k < m, total (content k).extents = block
  last : total (content m).extents ≤ block

/-- The physical address of a logical byte: which piece, and where in it. -/
def addressOf (host : Nat → String) (content : Nat → Content) (block o : Nat) :
    Option ((String × String) × Int) :=
  addressIn (host (o / block)) (content (o / block)).disk (content (o / block)).extents (o % block)

section

variable {nodes : Nodes} {path : String} {file : ShardedFile} {block m : Nat}
  {host : Nat → String} {content : Nat → Content}

/-- The chunks of the piece with number `k`. -/
def pieceChunks (host : Nat → String) (content : Nat → Content) (k : Nat) : List Chunk :=
  (content k).extents.map (chunkOf (host k) (content k).disk)

theorem Striped.map_byNumber (h : Striped nodes path file block m host content) :
    file.byNumber.map Prod.fst = List.range' 1 m := by
  have hperm := (byNumber_perm.map Prod.fst).trans h.numbers
  refine hperm.eq_of_pairwise (fun a b _ _ hab hba => absurd hab (Nat.lt_asymm hba)) ?_
    List.pairwise_lt_range'
  exact List.pairwise_map.2 byNumber_pairwise

/-- What the workers report for the pieces, in the order of their numbers. -/
theorem Striped.getPBA_eq (h : Striped nodes path file block m host content) :
    getPBA nodes ((file.basePiece path :: file.byNumber.map file.piece).map
        (fun shard => (shard.host, shard.path))) =
      some (attachRange 0 ((List.range (m + 1)).flatMap (pieceChunks host content))) := by
  have hbase : file2PBA nodes file.base.host (file.basePiece path).path =
      some (pieceChunks host content 0) := by
    rw [h.base.file2PBA_eq, pieceChunks, h.hosts.1]
  have hshards : file.byNumber.mapM
      (fun s => file2PBA nodes (file.piece s).host (file.piece s).path) =
        some (file.byNumber.map (fun s => pieceChunks host content s.1)) := by
    refine mapM_eq_some (fun s hs => ?_)
    have hs := byNumber_perm.mem_iff.1 hs
    rw [pieceChunks, h.hosts.2 s hs]
    exact (h.shards s hs).file2PBA_eq
  have hnumbers : file.byNumber.map (fun s => pieceChunks host content s.1) =
      (List.range' 1 m).map (pieceChunks host content) := by
    rw [← h.map_byNumber, List.map_map]
    rfl
  have hrange : List.range (m + 1) = 0 :: List.range' 1 m := by
    rw [List.range_eq_range', List.range'_succ]
  rw [getPBA, List.map_cons, List.mapM_cons, List.map_map, List.mapM_map]
  show (do
    let b ← file2PBA nodes file.base.host (file.basePiece path).path
    let bs ← file.byNumber.mapM (fun s => file2PBA nodes (file.piece s).host (file.piece s).path)
    pure (b :: bs)).bind _ = _
  rw [hbase, hshards, hnumbers, hrange, List.flatMap_cons, List.flatMap_def]
  rfl

/-- The bytes of the pieces, by their logical offsets in the file. -/
theorem Striped.chunkBytes_eq (h : Striped nodes path file block m host content) :
    (chunkBytes ((List.range (m + 1)).flatMap (pieceChunks host content))).map some =
      (List.range (m * block + total (content m).extents)).map (addressOf host content block) := by
  have hpiece : ∀ k ≤ m, (chunkBytes (pieceChunks host content k)).map some =
      (List.range' (k * block) (total (content k).extents)).map
        (addressOf host content block) := by
    intro k hk
    have hsize : total (content k).extents ≤ block := by
      rcases Nat.lt_or_eq_of_le hk with hlt | rfl
      · exact Nat.le_of_eq (h.full k hlt)
      · exact h.last
    rw [pieceChunks, chunkBytes_packed _ _ (h.packed k hk),
      List.range'_eq_map_range (s := k * block), List.map_map, ← List.range_eq_range']
    refine List.map_congr_left (fun o ho => ?_)
    have hlt : o < block := Nat.lt_of_lt_of_le (List.mem_range.1 ho) hsize
    have hdiv : (k * block + o) / block = k := by
      rw [Nat.mul_comm, Nat.mul_add_div (by omega), Nat.div_eq_of_lt hlt, Nat.add_zero]
    have hmod : (k * block + o) % block = o := by
      rw [Nat.mul_comm, Nat.mul_add_mod, Nat.mod_eq_of_lt hlt]
    rw [Function.comp_apply, addressOf, hdiv, hmod]
  -- the full pieces before the `n`-th one
  have hfull : ∀ n ≤ m, (chunkBytes ((List.range n).flatMap (pieceChunks host content))).map some =
      (List.range (n * block)).map (addressOf host content block) := by
    intro n hn
    induction n with
    | zero => simp
    | succ n ih =>
      rw [List.range_succ, List.flatMap_append, chunkBytes_append, List.map_append,
        ih (by omega), List.flatMap_singleton, hpiece n (by omega), h.full n (by omega),
        ← List.map_append, Nat.succ_mul]
      congr 1
      rw [List.range_eq_range', List.range_eq_range', ← List.range'_append_1, Nat.zero_add]
  rw [List.range_succ, List.flatMap_append, chunkBytes_append, List.map_append,
    hfull m (Nat.le_refl m), List.flatMap_singleton, hpiece m (Nat.le_refl m), ← List.map_append]
  congr 1
  rw [List.range_eq_range', List.range_eq_range', ← List.range'_append_1, Nat.zero_add]

end

/-! ## The chain -/

section

variable {cmds : Commands} {volume path : String} {bricks : List Brick} {file : ShardedFile}

/-- The pieces that the manager asks for, in the order of their numbers. -/
theorem getPBAOf_eq (h : Stores cmds volume path bricks file) (hp : PathsFollow bricks file)
    (nodes : Nodes) :
    getPBAOf cmds nodes path volume =
      getPBA nodes ((file.basePiece path :: file.byNumber.map file.piece).map
        (fun shard => (shard.host, shard.path))) := by
  have hall : file.shards.filter (fun s => decide (Kept bricks s.2)) = file.shards :=
    List.filter_eq_self.2 (fun s hs => decide_eq_true (hp.shards s hs))
  have hfound := flatMap_shardsOn_perm h
  rw [hall] at hfound
  rw [getPBAOf, getShardList_eq h, if_pos hp.base, sortByPath_eq hfound hp.paths]

theorem nonneg_pieceChunks {host : Nat → String} {content : Nat → Content} {c : Chunk} {k : Nat}
    (h : c ∈ pieceChunks host content k) : 0 ≤ c.LENGTH := by
  obtain ⟨x, -, rfl⟩ := List.mem_map.1 h
  exact Int.natCast_nonneg _

/-- The table translates every range inside the first `size` bytes of a file: each byte in
turn has the address that `address` gives it. -/
def Translates (data : List RangedChunk) (size : Nat)
    (address : Nat → Option ((String × String) × Int)) : Prop :=
  ∀ o n : Nat, o + n ≤ size →
    (chunkBytes (data.foldl (scanStep o (o + n)) ⟨false, false, []⟩).result).map some =
      (List.range' o n).map address

section

variable {nodes : Nodes} {block m : Nat} {host : Nat → String} {content : Nat → Content}

theorem Striped.translates (hs : Striped nodes path file block m host content) :
    Translates (attachRange 0 ((List.range (m + 1)).flatMap (pieceChunks host content)))
      (m * block + total (content m).extents) (addressOf host content block) := by
  intro o n hon
  have hlen : ∀ c ∈ (List.range (m + 1)).flatMap (pieceChunks host content), 0 ≤ c.LENGTH := by
    intro c hc
    obtain ⟨k, -, hk⟩ := List.mem_flatMap.1 hc
    exact nonneg_pieceChunks hk
  have hscan := scan_seek _ hlen 0 (Int.natCast_nonneg o) (by omega : (o : Int) ≤ o + n)
  have hn : ((o : Int) + n - o).toNat = n := by omega
  rw [hn, Int.sub_zero, Int.toNat_natCast] at hscan
  rw [hscan, window, List.map_take, List.map_drop, hs.chunkBytes_eq, ← List.map_drop,
    ← List.map_take]
  -- what follows the range in the file
  obtain ⟨rest, hrest⟩ := Nat.exists_eq_add_of_le hon
  have hdrop : m * block + total (content m).extents - o = n + rest := by omega
  rw [List.range_eq_range', List.drop_range', Nat.zero_add, Nat.mul_one, hdrop,
    ← List.range'_append_1, List.take_left' List.length_range']

theorem getPBAOf_translates (h : Stores cmds volume path bricks file)
    (hp : PathsFollow bricks file) (hs : Striped nodes path file block m host content) :
    ∃ data, getPBAOf cmds nodes path volume = some data ∧
      Translates data (m * block + total (content m).extents) (addressOf host content block) :=
  ⟨_, (getPBAOf_eq h hp nodes).trans hs.getPBA_eq, hs.translates⟩

/-- **Every range of a striped file is translated.** After the reply of the manager for a
file was stored, `LB2PBA` gives for any range inside the file the physical address of each
of its bytes in turn: node, disk and address in the piece that holds the byte. -/
theorem range_translated (h : Stores cmds volume path bricks file) (hp : PathsFollow bricks file)
    (hs : Striped nodes path file block m host content) :
    ∃ data, getPBAOf cmds nodes path volume = some data ∧
      ∀ (FM : Dict String (List RangedChunk)) (fName : String) (o n : Nat),
        o + n ≤ m * block + total (content m).extents →
        (chunkBytes (lb2pba (FM.set fName data) fName o n)).map some =
          (List.range' o n).map (addressOf host content block) := by
  obtain ⟨data, hdata, htranslates⟩ := getPBAOf_translates h hp hs
  refine ⟨data, hdata, fun FM fName o n hon => ?_⟩
  rw [lb2pba_eq (Dict.get?_set_self _ _ _)]
  exact htranslates o n hon

end

end

/-! ### A range across three pieces -/

/-- A piece of one block. -/
def blockPiece (k : Nat) : Content := ⟨"/dev/sda", [blockAt 0 (UInt64.ofNat (1048576 * (k + 1)))]⟩

/-- A host whose files are pieces of one block, with the number that `number` gives them. -/
def blockHost (host : String) (number : String → Nat) : Nodes := fun h =>
  if h = host then some (nodeWith (fun path => (blockPiece (number path)).extents)) else none

theorem holdsPiece_blockHost {host path : String} {number : String → Nat} {k : Nat}
    (h : number path = k) : HoldsPiece (blockHost host number) host path (blockPiece k) := by
  subst h
  have hcnt : 1 ≤ fiemapExtentCnt := by decide
  exact ⟨_, if_pos rfl, maps_nodeWith hcnt, dfDevice_nodeWith _ _⟩

/-- The node with the pieces of `twoShards 1 2`. -/
def threePieces : Nodes := blockHost "n2" (fun path =>
  if path = "/b2/f" then 0 else if path = "/b2/.shard/5f-01.1" then 1 else 2)

theorem striped_threePieces : Striped threePieces "f" (twoShards 1 2 nodup_one_two) 4096 2
    (fun _ => "n2") blockPiece where
  numbers := .refl _
  hosts := ⟨rfl, by decide⟩
  base := by
    have hpath : ((twoShards 1 2 nodup_one_two).basePiece "f").path = "/b2/f" := by decide
    rw [hpath]
    exact holdsPiece_blockHost rfl
  shards := by
    have hone : ((twoShards 1 2 nodup_one_two).piece (1, brick22)).path = "/b2/.shard/5f-01.1" := by
      decide +kernel
    have htwo : ((twoShards 1 2 nodup_one_two).piece (2, brick22)).path = "/b2/.shard/5f-01.2" := by
      decide +kernel
    intro s hs
    rcases List.mem_pair.1 hs with rfl | rfl
    · rw [hone]
      exact holdsPiece_blockHost (by decide)
    · rw [htwo]
      exact holdsPiece_blockHost (by decide)
  packed := fun _ _ => ⟨fun _ => rfl, trivial⟩
  full := fun _ _ => rfl
  last := Nat.le_refl _

/-- A range from the base file over the first shard into the second one. -/
theorem across_translated : ∃ data, getPBAOf (oneBrick 1 2) threePieces "f" "vol" = some data ∧
    (chunkBytes (lb2pba ((∅ : Dict String (List RangedChunk)).set "f" data) "f" 4000 5000)).map
        some = (List.range' 4000 5000).map (addressOf (fun _ => "n2") blockPiece 4096) := by
  obtain ⟨data, hdata, htranslated⟩ := range_translated (stores_twoShards 1 2 nodup_one_two)
    ⟨by decide, by decide, by decide +kernel⟩ striped_threePieces
  exact ⟨data, hdata, htranslated ∅ "f" 4000 5000 (by decide)⟩

end Lba2Pba.Query
