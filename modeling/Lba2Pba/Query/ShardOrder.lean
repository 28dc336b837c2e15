import Mathlib.Data.List.Pairwise
import Lba2Pba.Query.Fiemap
import Lba2Pba.Query.ShardList

/-!
# The order of the pieces

`getPBA` attaches the ranges to the pieces in the order of `getShardList`, so that order
has to be the logical one: the base file, and then the shards by their number. The code
sorts the whole paths as texts. `ordered_iff` says when the two orders agree.
-/

namespace Lba2Pba.Query

open Py

/-! ## A file on a volume -/

/-- A file of a `Distribute` volume: the brick of the base file, its gfid as a shard's
name has it, and the number and the brick of each shard. -/
structure ShardedFile where
  base : Brick
  uuid : String
  shards : List (Nat × Brick)
  gfid_ne : (Str.remove uuid '-').toList ≠ []
  nodup : (shards.map Prod.fst).Nodup

namespace ShardedFile

variable (file : ShardedFile)

/-- The gfid as `getfattr` prints it. -/
def gfid : String := Str.remove file.uuid '-'

/-- `<gfid>.<k>`. -/
def shardName (k : Nat) : String := file.uuid ++ "." ++ k.repr

/-- A shard as an element of `shardList`. -/
def piece (s : Nat × Brick) : Piece :=
  ⟨s.2.path ++ "/.shard/" ++ file.shardName s.1, s.2.host⟩

/-- The base file as an element of `shardList`. -/
def basePiece (path : String) : Piece := ⟨file.base.path ++ "/" ++ path, file.base.host⟩

/-- The shards on a brick. -/
def on (b : Brick) : List (Nat × Brick) := file.shards.filter (fun s => decide (s.2 = b))

end ShardedFile

/-- What `ls` prints for the `.shard` directory of a brick: the shards of the file there,
among names without its gfid. There may be no directory where there is no shard. -/
def ListsShards (cmds : Commands) (file : ShardedFile) (b : Brick) : Prop :=
  (file.on b = [] ∧ ∃ err, cmds.ls b.host (b.path ++ "/.shard/") = .error err) ∨
    ∃ names others, cmds.ls b.host (b.path ++ "/.shard/") = .ok (Str.join "\n" names) ∧
      (∀ name ∈ names, '\n' ∉ name.toList) ∧
      names.Perm (others ++ (file.on b).map (fun s => file.shardName s.1)) ∧
      ∀ name ∈ others, Str.isIn file.gfid (Str.remove name '-') = false

/-- The commands see the file on the volume: the base file on its brick only, with its
gfid, and its shards on theirs. -/
structure Stores (cmds : Commands) (volume path : String) (bricks : List Brick)
    (file : ShardedFile) : Prop where
  info : ∃ number, '\n' ∉ number.toList ∧
    cmds.volumeInfo volume = .ok (volumeText number bricks)
  base_mem : file.base ∈ bricks
  shard_mem : ∀ s ∈ file.shards, s.2 ∈ bricks
  base_only : ∀ b ∈ bricks, (cmds.ls b.host (b.path ++ "/" ++ path)).isOk = true ↔ b = file.base
  gfid : ∃ text, cmds.getfattr file.base.host (file.base.path ++ "/" ++ path) = .ok text ∧
    gfidOf text = some file.gfid
  lists : ∀ b ∈ bricks, ListsShards cmds file b

/-! ## What is found -/

section Found

variable {cmds : Commands} {volume path : String} {bricks : List Brick} {file : ShardedFile}

theorem isIn_shardName (k : Nat) :
    Str.isIn file.gfid (Str.remove (file.shardName k) '-') = true := by
  rw [ShardedFile.shardName, Str.remove_append, Str.remove_append, Str.isIn_iff,
    String.toList_append, String.toList_append, List.append_assoc]
  exact (List.prefix_append _ _).isInfix

/-- An empty directory is printed as one empty line, which has no gfid. -/
theorem filter_split_join {names : List String} (h : ∀ name ∈ names, '\n' ∉ name.toList) :
    (Str.split (Str.join "\n" names) "\n").filter
        (fun shard => Str.isIn file.gfid (Str.remove shard '-')) =
      names.filter (fun shard => Str.isIn file.gfid (Str.remove shard '-')) := by
  cases names with
  | nil =>
    have hempty : Str.isIn file.gfid "" = false := by
      refine Bool.eq_false_iff.2 (fun hin => file.gfid_ne ?_)
      exact List.infix_nil.1 (Str.isIn_iff.1 hin)
    have hsplit : Str.split (Str.join "\n" []) "\n" = [""] := by decide
    have hremove : Str.remove "" '-' = "" := by decide
    rw [hsplit, List.filter_cons_of_neg (by rw [hremove, hempty]; decide)]
  | cons name names => rw [Str.split_join rfl (List.cons_ne_nil _ _) h]

theorem shardsOn_perm {b : Brick} (h : ListsShards cmds file b) :
    (shardsOn cmds file.gfid b.pair).Perm ((file.on b).map file.piece) := by
  have hpieces : (file.on b).map file.piece = ((file.on b).map (fun s => file.shardName s.1)).map
      (fun name => ⟨b.path ++ "/.shard/" ++ name, b.host⟩) := by
    rw [List.map_map]
    refine List.map_congr_left (fun s hs => ?_)
    have hb : s.2 = b := by simpa using (List.mem_filter.1 hs).2
    rw [ShardedFile.piece, hb]
    rfl
  rcases h with ⟨hnil, err, hls⟩ | ⟨names, others, hls, hline, hperm, hothers⟩
  · rw [hnil, shardsOn, Brick.pair, hls]
    exact .refl _
  · rw [hpieces, shardsOn, Brick.pair, hls]
    simp only [filter_split_join hline]
    refine List.Perm.map _ ((hperm.filter _).trans (.of_eq ?_))
    rw [List.filter_append, List.filter_eq_nil_iff.2 (fun name hn => by simp [hothers name hn]),
      List.nil_append, List.filter_eq_self]
    intro name hname
    obtain ⟨s, -, rfl⟩ := List.mem_map.1 hname
    exact isIn_shardName s.1

/-- The elements with a key of the list, gathered key by key. -/
theorem flatMap_filter_perm {α κ : Type} [DecidableEq κ] (f : α → κ) (l : List α) {keys : List κ}
    (hn : keys.Nodup) : (keys.flatMap (fun k => l.filter (fun a => decide (f a = k)))).Perm
      (l.filter (fun a => decide (f a ∈ keys))) := by
  induction keys with
  | nil => simp
  | cons k keys ih =>
    obtain ⟨hk, hn⟩ := List.nodup_cons.1 hn
    rw [List.flatMap_cons]
    refine ((ih hn).append_left _).trans ?_
    have hsplit := List.filter_append_perm (fun a => decide (f a = k))
      (l.filter (fun a => decide (f a ∈ k :: keys)))
    rw [List.filter_filter, List.filter_filter] at hsplit
    have hhead : ∀ a, (decide (f a = k) && decide (f a ∈ k :: keys)) = decide (f a = k) := by
      intro a
      by_cases ha : f a = k <;> simp [ha]
    have htail : ∀ a, (!decide (f a = k) && decide (f a ∈ k :: keys)) = decide (f a ∈ keys) := by
      intro a
      by_cases ha : f a = k
      · simp [ha, hk]
      · simp [ha]
    simpa only [hhead, htail] using hsplit

/-- The shards on bricks that are searched. -/
theorem flatMap_shardsOn_perm (h : Stores cmds volume path bricks file) :
    ((hostsOf bricks).items.flatMap (shardsOn cmds file.gfid)).Perm
      ((file.shards.filter (fun s => decide (Kept bricks s.2))).map file.piece) := by
  have hon : ∀ x ∈ (hostsOf bricks).items, (shardsOn cmds file.gfid x).Perm
      ((file.shards.filter (fun s => decide (s.2.pair = x))).map file.piece) := by
    intro x hx
    obtain ⟨b, hb, rfl⟩ := mem_hostsOf.1 hx
    have hsame : (fun s : Nat × Brick => decide (s.2.pair = b.pair)) =
        fun s => decide (s.2 = b) := by
      funext s
      exact decide_eq_decide.2 ⟨Brick.pair_injective, congrArg Brick.pair⟩
    rw [hsame]
    exact shardsOn_perm (h.lists b hb.mem)
  have hnodup : (hostsOf bricks).items.Nodup := (hostsOf bricks).nodupKeys.of_map
  have hflat := (flatMap_filter_perm (fun s : Nat × Brick => s.2.pair) file.shards hnodup).map
    file.piece
  rw [List.map_flatMap] at hflat
  refine (List.Perm.flatMap_left _ hon).trans (hflat.trans (.of_eq ?_))
  exact congrArg _ (List.filter_congr (fun s _ => decide_eq_decide.2 pair_mem_hostsOf))

/-- The last host where the file is found: there is only one. -/
theorem foldl_found (x₀ : String × String) (found : String × String → Bool)
    (g : String × String → Piece) (hosts : List (String × String)) (acc : Option Piece)
    (h : ∀ x ∈ hosts, found x = true ↔ x = x₀) :
    hosts.foldl (fun first x => if found x then some (g x) else first) acc =
      if x₀ ∈ hosts then some (g x₀) else acc := by
  induction hosts generalizing acc with
  | nil => rfl
  | cons x hosts ih =>
    rw [List.foldl_cons, ih _ (fun y hy => h y (List.mem_cons_of_mem x hy))]
    by_cases hx : x = x₀
    · subst hx
      have hf : found x = true := (h x List.mem_cons_self).2 rfl
      simp [hf]
    · have hf : found x = false :=
        Bool.eq_false_iff.2 (fun hf => hx ((h x List.mem_cons_self).1 hf))
      simp [hf, Ne.symm hx]

theorem findFile_eq (h : Stores cmds volume path bricks file) :
    findFile cmds (hostsOf bricks).items path =
      if Kept bricks file.base then some (file.basePiece path) else none := by
  have hbase : ∀ x ∈ (hostsOf bricks).items,
      (cmds.ls x.1 (x.2 ++ "/" ++ path)).isOk = true ↔ x = file.base.pair := by
    intro x hx
    obtain ⟨b, hb, rfl⟩ := mem_hostsOf.1 hx
    exact (h.base_only b hb.mem).trans ⟨congrArg Brick.pair, Brick.pair_injective⟩
  have hfound := foldl_found file.base.pair _ (fun x => ⟨x.2 ++ "/" ++ path, x.1⟩) _ none hbase
  rw [findFile, hfound]
  exact if_congr pair_mem_hostsOf rfl rfl

/-- What `getShardList` returns: the pieces on searched bricks, by their paths. -/
theorem getShardList_eq (h : Stores cmds volume path bricks file) :
    getShardList cmds path volume =
      if Kept bricks file.base then .ok (.ok (file.basePiece path ::
        sortByPath ((hostsOf bricks).items.flatMap (shardsOn cmds file.gfid))))
      else .error .keyError := by
  obtain ⟨number, hnumber, hinfo⟩ := h.info
  obtain ⟨text, htext, hgfid⟩ := h.gfid
  have hfind := findFile_eq h
  simp only [getShardList, getVolumeHost_eq hnumber hinfo, bind, Except.bind]
  by_cases hkept : Kept bricks file.base
  · rw [if_pos hkept] at hfind ⊢
    have hget : getGfid cmds (some (file.basePiece path)) = .ok (.ok file.gfid) := by
      simp only [getGfid, ShardedFile.basePiece, htext, hgfid]
    simp only [hfind, hget]
    rfl
  · rw [if_neg hkept] at hfind ⊢
    simp only [hfind]
    rfl

end Found

/-! ## The two orders -/

section Order

variable {file : ShardedFile}

/-- What follows the last dot. -/
theorem append_dot_inj {x y a b : List Char} (ha : '.' ∉ a) (hb : '.' ∉ b)
    (h : x ++ '.' :: a = y ++ '.' :: b) : a = b := by
  have hlast : ∀ {x a : List Char}, '.' ∉ a →
      (x ++ '.' :: a).reverse.takeWhile (fun c => decide (c ≠ '.')) = a.reverse := by
    intro x a ha
    rw [List.reverse_append, List.reverse_cons, List.append_assoc, List.takeWhile_append_of_pos]
    · simp
    · intro c hc
      exact decide_eq_true (fun hcd => ha (List.mem_reverse.1 (hcd ▸ hc)))
  have hrev := congrArg (fun l => l.reverse.takeWhile (fun c => decide (c ≠ '.'))) h
  simp only [hlast ha, hlast hb] at hrev
  exact List.reverse_injective hrev

theorem piece_path_inj {s t : Nat × Brick} (h : (file.piece s).path = (file.piece t).path) :
    s.1 = t.1 := by
  have hchars := congrArg String.toList h
  simp only [ShardedFile.piece, ShardedFile.shardName, String.toList_append] at hchars
  have hdot : ∀ n : Nat, '.' ∉ n.repr.toList := not_mem_repr (by decide)
  have hrepr : s.1.repr.toList = t.1.repr.toList := by
    refine append_dot_inj (x := s.2.path.toList ++ "/.shard/".toList ++ file.uuid.toList)
      (y := t.2.path.toList ++ "/.shard/".toList ++ file.uuid.toList) (hdot s.1) (hdot t.1) ?_
    simpa using hchars
  rw [Nat.toList_repr, Nat.toList_repr] at hrepr
  simpa using congrArg (fun digits => Nat.ofDigitChars 10 digits 0) hrepr

theorem ShardedFile.eq_of_number {s t : Nat × Brick} (hs : s ∈ file.shards) (ht : t ∈ file.shards)
    (h : s.1 = t.1) : s = t :=
  List.inj_on_of_nodup_map file.nodup hs ht h

theorem sortByPath_pairwise (shardList : List Piece) :
    (sortByPath shardList).Pairwise (fun a b => a.path ≤ b.path) :=
  List.pairwise_insertionSort _ _

/-- Shards listed by number and by path at once: the paths follow the numbers. -/
theorem path_le_of_pairwise {l : List (Nat × Brick)}
    (hnum : l.Pairwise (fun s t => s.1 < t.1))
    (hpath : l.Pairwise (fun s t => (file.piece s).path ≤ (file.piece t).path)) :
    ∀ s ∈ l, ∀ t ∈ l, s.1 < t.1 → (file.piece s).path ≤ (file.piece t).path := by
  let Agree (s t : Nat × Brick) : Prop :=
    (s.1 < t.1 → (file.piece s).path ≤ (file.piece t).path) ∧
      (t.1 < s.1 → (file.piece t).path ≤ (file.piece s).path)
  have hsymm : Std.Symm Agree := ⟨fun _ _ h => ⟨h.2, h.1⟩⟩
  have hself : ∀ s ∈ l, Agree s s := fun s _ =>
    ⟨fun h => absurd h (Nat.lt_irrefl _), fun h => absurd h (Nat.lt_irrefl _)⟩
  have hpairs : l.Pairwise Agree :=
    (hnum.and hpath).imp (fun h => ⟨fun _ => h.2, fun hts => absurd hts (Nat.lt_asymm h.1)⟩)
  intro s hs t ht
  exact (hpairs.forall_of_forall hself hs ht).1

/-- The shards by number. -/
def ShardedFile.byNumber (file : ShardedFile) : List (Nat × Brick) :=
  file.shards.insertionSort (fun s t => s.1 ≤ t.1)

theorem byNumber_perm : file.byNumber.Perm file.shards := List.perm_insertionSort _ _

theorem byNumber_pairwise : file.byNumber.Pairwise (fun s t => s.1 < t.1) := by
  have hle : file.byNumber.Pairwise (fun s t => s.1 ≤ t.1) := List.pairwise_insertionSort _ _
  have hne : file.byNumber.Pairwise (fun s t => s.1 ≠ t.1) :=
    List.pairwise_map.1 ((byNumber_perm.map Prod.fst).nodup_iff.2 file.nodup)
  exact (hle.and hne).imp (fun h => Nat.lt_of_le_of_ne h.1 h.2)

/-- Sorting by path gives the order by number, if the paths follow the numbers. -/
theorem sortByPath_eq {found : List Piece} (hfound : found.Perm (file.shards.map file.piece))
    (hpaths : ∀ s ∈ file.shards, ∀ t ∈ file.shards, s.1 < t.1 →
      (file.piece s).path < (file.piece t).path) :
    sortByPath found = file.byNumber.map file.piece := by
  have hmem : ∀ a ∈ sortByPath found, ∃ s ∈ file.shards, file.piece s = a := by
    intro a ha
    exact List.mem_map.1 (((sortByPath_perm found).trans hfound).mem_iff.1 ha)
  refine List.Perm.eq_of_pairwise (fun a b ha hb hab hba => ?_)
    (sortByPath_pairwise found) ?_ ?_
  · -- equal paths are the path of one shard
    obtain ⟨s, hs, rfl⟩ := hmem a ha
    obtain ⟨t, ht, rfl⟩ := List.mem_map.1 hb
    have hst := piece_path_inj (le_antisymm hab hba)
    rw [file.eq_of_number hs (byNumber_perm.mem_iff.1 ht) hst]
  · rw [List.pairwise_map]
    refine byNumber_pairwise.imp_of_mem (fun {s t} hs ht hst => le_of_lt ?_)
    exact hpaths s (byNumber_perm.mem_iff.1 hs) t (byNumber_perm.mem_iff.1 ht) hst
  · exact (sortByPath_perm found).trans (hfound.trans (byNumber_perm.map _).symm)

end Order

/-- `data` in the reply of `getPBA()` for the values `path` and `volume` of the form. -/
def getPBAOf (cmds : Commands) (nodes : Nodes) (path volume : String) :
    Option (List RangedChunk) :=
  match getShardList cmds path volume with
  | .ok (.ok shardList) => getPBA nodes (shardList.map (fun shard => (shard.host, shard.path)))
  | _ => none

/-- The pieces are listed with the base file first and then all shards by increasing
number, and the ranges are attached in that order. -/
def Ordered (cmds : Commands) (volume path : String) (file : ShardedFile) : Prop :=
  ∃ order : List (Nat × Brick), order.Perm file.shards ∧
    order.Pairwise (fun s t => s.1 < t.1) ∧
    getShardList cmds path volume = .ok (.ok (file.basePiece path :: order.map file.piece)) ∧
    ∀ nodes, getPBAOf cmds nodes path volume =
      getPBA nodes ((file.base.host, file.base.path ++ "/" ++ path) ::
        order.map (fun s => (s.2.host, s.2.path ++ "/.shard/" ++ file.shardName s.1)))

/-- The bricks of all pieces are searched, and the paths of the shards are in the order
of their numbers. -/
structure PathsFollow (bricks : List Brick) (file : ShardedFile) : Prop where
  base : Kept bricks file.base
  shards : ∀ s ∈ file.shards, Kept bricks s.2
  paths : ∀ s ∈ file.shards, ∀ t ∈ file.shards, s.1 < t.1 →
    (file.piece s).path < (file.piece t).path

/-- **The order of the shards** is the logical one exactly if the texts of their paths
sort as their numbers do, and no piece is on a brick that is overlooked. -/
theorem ordered_iff {cmds : Commands} {volume path : String} {bricks : List Brick}
    {file : ShardedFile} (h : Stores cmds volume path bricks file) :
    Ordered cmds volume path file ↔ PathsFollow bricks file := by
  have hfound := flatMap_shardsOn_perm h
  constructor
  · rintro ⟨order, hperm, hnum, hlist, -⟩
    have hbase : Kept bricks file.base := by
      by_contra hkept
      rw [getShardList_eq h, if_neg hkept] at hlist
      cases hlist
    rw [getShardList_eq h, if_pos hbase] at hlist
    have hsorted : sortByPath ((hostsOf bricks).items.flatMap (shardsOn cmds file.gfid)) =
        order.map file.piece := (List.cons.inj (Except.ok.inj (Except.ok.inj hlist))).2
    refine ⟨hbase, ?_, ?_⟩
    · -- no shard is missing from the list
      have hlen := ((sortByPath_perm _).trans hfound).length_eq
      rw [hsorted, List.length_map, List.length_map, hperm.length_eq] at hlen
      have hall := List.length_filter_eq_length_iff.1 hlen.symm
      exact fun s hs => of_decide_eq_true (hall s hs)
    · intro s hs t ht hst
      have hpath : order.Pairwise (fun s t => (file.piece s).path ≤ (file.piece t).path) := by
        have hsort := sortByPath_pairwise
          ((hostsOf bricks).items.flatMap (shardsOn cmds file.gfid))
        rwa [hsorted, List.pairwise_map] at hsort
      have hle := path_le_of_pairwise hnum hpath s (hperm.mem_iff.2 hs) t (hperm.mem_iff.2 ht) hst
      exact lt_of_le_of_ne hle (fun heq => Nat.ne_of_lt hst (piece_path_inj heq))
  · rintro ⟨hbase, hshards, hpaths⟩
    have hall : file.shards.filter (fun s => decide (Kept bricks s.2)) = file.shards :=
      List.filter_eq_self.2 (fun s hs => decide_eq_true (hshards s hs))
    rw [hall] at hfound
    have hlist : getShardList cmds path volume =
        .ok (.ok (file.basePiece path :: file.byNumber.map file.piece)) := by
      rw [getShardList_eq h, if_pos hbase, sortByPath_eq hfound hpaths]
    refine ⟨file.byNumber, byNumber_perm, byNumber_pairwise, hlist, fun nodes => ?_⟩
    rw [getPBAOf, hlist]
    simp only [List.map_cons, List.map_map]
    rfl

/-! ## Numbers of one and of two digits -/

theorem uuid_ne_nil : (Str.remove "5f-01" '-').toList ≠ [] := by decide

/-- A file with two shards on the brick of its base file. -/
def twoShards (j k : Nat) (h : ([(j, brick22), (k, brick22)].map Prod.fst).Nodup) :
    ShardedFile where
  base := brick22
  uuid := "5f-01"
  shards := [(j, brick22), (k, brick22)]
  gfid_ne := uuid_ne_nil
  nodup := h

/-- The node with that file. -/
def oneBrick (j k : Nat) : Commands where
  volumeInfo := fun _ => .ok (volumeText "Number of Bricks: 1" [brick22])
  ls := fun _ path =>
    if path = "/b2/f" then .ok "/b2/f"
    else .ok (Str.join "\n" ["5f-01." ++ j.repr, "5f-01." ++ k.repr])
  getfattr := fun _ _ => .ok "# file: b2/f\ntrusted.gfid=0x5f01\n"

theorem stores_twoShards (j k : Nat) (h : ([(j, brick22), (k, brick22)].map Prod.fst).Nodup) :
    Stores (oneBrick j k) "vol" "f" [brick22] (twoShards j k h) where
  info := ⟨"Number of Bricks: 1", by decide, rfl⟩
  base_mem := List.mem_cons_self
  shard_mem := by simp [twoShards]
  base_only := by
    intro b hb
    obtain rfl := List.mem_singleton.1 hb
    have hls : (oneBrick j k).ls "n2" ("/b2" ++ "/" ++ "f") = .ok "/b2/f" := by
      simp only [oneBrick]
      exact if_pos (by decide)
    exact ⟨fun _ => rfl, fun _ => congrArg Except.isOk hls⟩
  gfid := by
    have hgfid : gfidOf "# file: b2/f\ntrusted.gfid=0x5f01\n" =
        some (Str.remove "5f-01" '-') := by decide +kernel
    exact ⟨_, rfl, hgfid⟩
  lists := by
    intro b hb
    obtain rfl := List.mem_singleton.1 hb
    have hls : (oneBrick j k).ls "n2" ("/b2" ++ "/.shard/") =
        .ok (Str.join "\n" ["5f-01." ++ j.repr, "5f-01." ++ k.repr]) := by
      simp only [oneBrick]
      exact if_neg (by decide)
    have hline : ∀ n : Nat, '\n' ∉ ("5f-01." ++ n.repr).toList := by
      intro n hn
      rcases List.mem_append.1 (String.toList_append ▸ hn) with htext | hdigits
      · exact absurd htext (by decide)
      · exact not_mem_repr (by decide) n hdigits
    refine .inr ⟨_, [], hls, ?_, ?_, by simp⟩
    · intro name hname
      rcases List.mem_pair.1 hname with rfl | rfl
      · exact hline j
      · exact hline k
    · exact .of_eq (by simp [twoShards, ShardedFile.on, ShardedFile.shardName])

theorem nodup_one_two : ([(1, brick22), (2, brick22)].map Prod.fst).Nodup := by decide

theorem nodup_two_ten : ([(2, brick22), (10, brick22)].map Prod.fst).Nodup := by decide

theorem ordered_one_digit : Ordered (oneBrick 1 2) "vol" "f" (twoShards 1 2 nodup_one_two) :=
  (ordered_iff (stores_twoShards 1 2 nodup_one_two)).2
    ⟨by decide, by decide, by decide +kernel⟩

/-- The tenth shard comes before the second. -/
theorem not_ordered_two_digits :
    Stores (oneBrick 2 10) "vol" "f" [brick22] (twoShards 2 10 nodup_two_ten) ∧
      getShardList (oneBrick 2 10) "f" "vol" = .ok (.ok [⟨"/b2/f", "n2"⟩,
        ⟨"/b2/.shard/5f-01.10", "n2"⟩, ⟨"/b2/.shard/5f-01.2", "n2"⟩]) ∧
      ¬ Ordered (oneBrick 2 10) "vol" "f" (twoShards 2 10 nodup_two_ten) := by
  have hlist : getShardList (oneBrick 2 10) "f" "vol" = .ok (.ok [⟨"/b2/f", "n2"⟩,
      ⟨"/b2/.shard/5f-01.10", "n2"⟩, ⟨"/b2/.shard/5f-01.2", "n2"⟩]) := by decide +kernel
  refine ⟨stores_twoShards 2 10 nodup_two_ten, hlist, ?_⟩
  rintro ⟨order, hperm, hnum, hlist', -⟩
  have horder : order = [(2, brick22), (10, brick22)] :=
    hperm.eq_of_pairwise (fun s t _ _ hst hts => absurd hst (Nat.lt_asymm hts)) hnum (by decide)
  rw [hlist, horder] at hlist'
  exact absurd hlist' (by decide +kernel)

end Lba2Pba.Query
