import Lba2Pba.Py.Loop
import Lba2Pba.Py.Str
import Mathlib.Data.List.Sort
import Mathlib.Data.String.Basic

/-!
# The pieces of a file: `getShardList`

`getVolumeHost` of `lba2pba_manager.py` reads the bricks of a volume out of the output of
`gluster volume info` into a dictionary by host, and `getShardList` looks on each of
them for the file and for its shards, over ssh. A host with two bricks keeps only the one
that is listed last, so files on the other one are not found (`covers_iff`).
-/

namespace Lba2Pba.Query

open Py

/-! ## The code -/

/-- What the commands print that the manager runs, or `error` with the text where the
exit code is not 0: `gluster volume info ... | grep Brick`, and on a host `ls` and
`getfattr`. -/
structure Commands where
  volumeInfo : String → Except String String
  ls : String → String → Except String String
  getfattr : String → String → Except String String

/-- An element of `shardList`. -/
structure Piece where
  path : String
  host : String
deriving DecidableEq

/-- `r.split(":")[1][1:]` and `r.split(":")[2]`. -/
def brickOf (r : String) : Except Err (String × String) :=
  match Str.split r ":" with
  | _ :: host :: brick :: _ => .ok (String.ofList host.toList.tail, brick)
  | _ => .error .indexError

/-- `getVolumeHost(volume)`. The inner error is the text of a command that failed. -/
def getVolumeHost (cmds : Commands) (volume : String) :
    Except Err (Except String (Dict String String)) :=
  match cmds.volumeInfo volume with
  | .error res => .ok (.error res)
  | .ok res => do
    let hosts ← ((Str.split res "\n").drop 2).foldlM (fun hosts r => do
      let (host, brick) ← brickOf r
      return hosts.set host brick) ∅
    return .ok hosts

/-- The hexadecimal digits after `gfid=0x`. -/
def gfidOf (res : String) : Option String :=
  (Str.split res "gfid=0x")[1]?.map (fun s => Str.firstPiece s "\n")

/-- `getGfid(firstFile)`. The dictionary is empty where no file was found. -/
def getGfid (cmds : Commands) (firstFile : Option Piece) : Except Err (Except String String) :=
  match firstFile with
  | none => .error .keyError
  | some file =>
    match cmds.getfattr file.host file.path with
    | .error res => .ok (.error res)
    | .ok res =>
      match gfidOf res with
      | none => .error .indexError
      | some gfid => .ok (.ok gfid)

/-- The loop that looks for the file itself. -/
def findFile (cmds : Commands) (hosts : List (String × String)) (path : String) : Option Piece :=
  hosts.foldl (fun firstFile x =>
    let fullPath := x.2 ++ "/" ++ path
    if (cmds.ls x.1 fullPath).isOk then some ⟨fullPath, x.1⟩ else firstFile) none

/-- The shards of a gfid on one brick. -/
def shardsOn (cmds : Commands) (gfid : String) (x : String × String) : List Piece :=
  let shardPath := x.2 ++ "/.shard/"
  match cmds.ls x.1 shardPath with
  | .error _ => []
  | .ok res =>
    ((Str.split res "\n").filter (fun shard => Str.isIn gfid (Str.remove shard '-'))).map
      (fun shard => ⟨shardPath ++ shard, x.1⟩)

/-- `sorted(shardList, key=(lambda x: x["path"]))`. -/
def sortByPath (shardList : List Piece) : List Piece :=
  shardList.insertionSort (fun a b => a.path ≤ b.path)

theorem sortByPath_perm (shardList : List Piece) : (sortByPath shardList).Perm shardList :=
  List.perm_insertionSort _ _

/-- `getShardList(path, volume)`. A failed `getfattr` leaves the file without shards. -/
def getShardList (cmds : Commands) (path volume : String) :
    Except Err (Except String (List Piece)) := do
  match ← getVolumeHost cmds volume with
  | .error res => return .error res
  | .ok hosts =>
    let firstFile := findFile cmds hosts.items path
    let gfid ← getGfid cmds firstFile
    let shardList := match gfid with
      | .error _ => []
      | .ok gfid => hosts.items.flatMap (shardsOn cmds gfid)
    return .ok (firstFile.toList ++ sortByPath shardList)

/-! ## The bricks of a volume -/

/-- A brick. Neither text has a colon or a line break. -/
structure Brick where
  host : String
  path : String
  colon : ':' ∉ host.toList ∧ ':' ∉ path.toList
  line : '\n' ∉ host.toList ∧ '\n' ∉ path.toList
deriving DecidableEq

def Brick.pair (b : Brick) : String × String := (b.host, b.path)

theorem Brick.pair_injective {b c : Brick} (h : b.pair = c.pair) : b = c := by
  cases b
  cases c
  cases h
  rfl

/-- The line `BrickN: host:path`. -/
def Brick.text (b : Brick) (n : Nat) : String :=
  "Brick" ++ n.repr ++ ":" ++ (" " ++ b.host ++ ":" ++ b.path)

/-- The lines of the bricks, numbered from `n`. -/
def brickLines : Nat → List Brick → List String
  | _, [] => []
  | n, b :: bricks => b.text n :: brickLines (n + 1) bricks

/-- What `gluster volume info ... | grep Brick` prints: the number of bricks, a heading
and the bricks. -/
def volumeText (number : String) (bricks : List Brick) : String :=
  Str.join "\n" (number :: "Bricks:" :: brickLines 1 bricks)

theorem not_mem_repr {c : Char} (hc : c.isDigit = false) (n : Nat) : c ∉ n.repr.toList := by
  rw [Nat.toList_repr]
  intro h
  have hd := Nat.isDigit_of_mem_toDigits (by decide) (by decide) h
  rw [hc] at hd
  cases hd

theorem brickOf_text (b : Brick) (n : Nat) : brickOf (b.text n) = .ok b.pair := by
  have hsep : (":" : String).toList = [':'] := rfl
  have hlabel : ':' ∉ ("Brick" ++ n.repr).toList := by
    rw [String.toList_append, List.mem_append, not_or]
    exact ⟨by decide, not_mem_repr (by decide) n⟩
  have hhost : ':' ∉ (" " ++ b.host).toList := by
    rw [String.toList_append, List.mem_append, not_or]
    exact ⟨by decide, b.colon.1⟩
  have hsplit : Str.split (b.text n) ":" = ["Brick" ++ n.repr, " " ++ b.host, b.path] := by
    rw [Brick.text, Str.split_append hsep hlabel, Str.split_append hsep hhost,
      Str.split_of_not_mem hsep b.colon.2]
  have htail : String.ofList (" " ++ b.host).toList.tail = b.host := by
    rw [String.toList_append]
    exact String.ofList_toList
  rw [brickOf, hsplit]
  simp only [htail]
  rfl

theorem line_text (b : Brick) (n : Nat) : '\n' ∉ (b.text n).toList := by
  simp only [Brick.text, String.toList_append, List.mem_append, not_or]
  exact ⟨⟨⟨by decide, not_mem_repr (by decide) n⟩, by decide⟩, ⟨⟨by decide, b.line.1⟩, by decide⟩,
    b.line.2⟩

theorem line_brickLines {n : Nat} {bricks : List Brick} {r : String}
    (h : r ∈ brickLines n bricks) : '\n' ∉ r.toList := by
  induction bricks generalizing n with
  | nil => cases h
  | cons b bricks ih =>
    rcases List.mem_cons.1 h with rfl | h
    · exact line_text b n
    · exact ih h

theorem foldlM_brickLines (n : Nat) (bricks : List Brick) (d : Dict String String) :
    (brickLines n bricks).foldlM (fun hosts r => do
      let (host, brick) ← brickOf r
      return hosts.set host brick) d = (.ok (d.update (bricks.map Brick.pair)) : Except Err _) := by
  induction bricks generalizing n d with
  | nil => rfl
  | cons b bricks ih =>
    rw [brickLines, List.foldlM_cons, brickOf_text]
    exact ih (n + 1) (d.set b.host b.path)

/-- The bricks by host. -/
def hostsOf (bricks : List Brick) : Dict String String :=
  (∅ : Dict String String).update (bricks.map Brick.pair)

theorem getVolumeHost_eq {cmds : Commands} {volume number : String} {bricks : List Brick}
    (hnumber : '\n' ∉ number.toList)
    (h : cmds.volumeInfo volume = .ok (volumeText number bricks)) :
    getVolumeHost cmds volume = .ok (.ok (hostsOf bricks)) := by
  have hsep : ("\n" : String).toList = ['\n'] := rfl
  have hsplit : Str.split (volumeText number bricks) "\n" =
      number :: "Bricks:" :: brickLines 1 bricks := by
    refine Str.split_join hsep (List.cons_ne_nil _ _) (fun r hr => ?_)
    rcases List.mem_cons.1 hr with rfl | hr
    · exact hnumber
    · rcases List.mem_cons.1 hr with rfl | hr
      · decide
      · exact line_brickLines hr
  rw [getVolumeHost, h]
  simp only [hsplit, List.drop_succ_cons, List.drop_zero, foldlM_brickLines]
  rfl

/-- The brick that is listed last for its host. -/
def Kept (bricks : List Brick) (b : Brick) : Prop :=
  (bricks.filter (fun c => decide (c.host = b.host))).getLast? = some b

instance (bricks : List Brick) (b : Brick) : Decidable (Kept bricks b) :=
  inferInstanceAs (Decidable (_ = _))

theorem Kept.mem {bricks : List Brick} {b : Brick} (h : Kept bricks b) : b ∈ bricks :=
  (List.mem_filter.1 (List.mem_of_getLast? h)).1

/-- The pairs that are searched. -/
theorem mem_hostsOf {bricks : List Brick} {x : String × String} :
    x ∈ (hostsOf bricks).items ↔ ∃ b, Kept bricks b ∧ b.pair = x := by
  obtain ⟨host, path⟩ := x
  have hfilter : (bricks.map Brick.pair).filter (fun x => decide (x.1 = host)) =
      (bricks.filter (fun c => decide (c.host = host))).map Brick.pair := by
    rw [List.filter_map]
    rfl
  rw [Dict.mem_items_iff, hostsOf, Dict.get?_update, Dict.get?_empty, Option.or_none, hfilter,
    List.getLast?_map, Option.map_map, Option.map_eq_some_iff]
  constructor
  · rintro ⟨b, hb, rfl⟩
    have hhost : b.host = host := by simpa using (List.mem_filter.1 (List.mem_of_getLast? hb)).2
    subst hhost
    exact ⟨b, hb, rfl⟩
  · rintro ⟨b, hb, hpair⟩
    cases hpair
    exact ⟨b, hb, rfl⟩

theorem pair_mem_hostsOf {bricks : List Brick} {b : Brick} :
    b.pair ∈ (hostsOf bricks).items ↔ Kept bricks b := by
  rw [mem_hostsOf]
  constructor
  · rintro ⟨c, hc, hpair⟩
    exact Brick.pair_injective hpair ▸ hc
  · exact fun h => ⟨b, h, rfl⟩

theorem exists_kept {bricks : List Brick} {b : Brick} (h : b ∈ bricks) :
    ∃ c, Kept bricks c ∧ c.host = b.host := by
  have hne : bricks.filter (fun c => decide (c.host = b.host)) ≠ [] :=
    List.ne_nil_of_mem (List.mem_filter.2 ⟨h, by simp⟩)
  have hlast := List.getLast?_eq_getLast_of_ne_nil hne
  have hhost : (List.getLast _ hne).host = b.host := by
    simpa using (List.mem_filter.1 (List.getLast_mem hne)).2
  refine ⟨_, ?_, hhost⟩
  rw [Kept, hhost]
  exact hlast

/-! ## What is searched -/

/-- A returned list begins with the file and goes on with what the search has found. -/
theorem getShardList_inv {cmds : Commands} {path volume : String} {hosts : Dict String String}
    {list : List Piece} (hv : getVolumeHost cmds volume = .ok (.ok hosts))
    (h : getShardList cmds path volume = .ok (.ok list)) :
    ∃ first, findFile cmds hosts.items path = some first ∧ ∃ gfid,
      getGfid cmds (some first) = .ok gfid ∧
      list = first :: sortByPath (match gfid with
        | .error _ => []
        | .ok gfid => hosts.items.flatMap (shardsOn cmds gfid)) := by
  simp only [getShardList, hv, bind, Except.bind] at h
  cases hf : findFile cmds hosts.items path with
  | none =>
    rw [hf] at h
    cases h
  | some first =>
    rw [hf] at h
    cases hg : getGfid cmds (some first) with
    | error e =>
      rw [hg] at h
      cases h
    | ok gfid =>
      rw [hg] at h
      cases h
      exact ⟨first, rfl, gfid, hg, rfl⟩

/-- The bricks are searched exactly, so every entry of a `.shard` directory with the
gfid of the file is returned. -/
structure Covers (cmds : Commands) (volume : String) (bricks : List Brick) : Prop where
  searched : ∃ hosts, getVolumeHost cmds volume = .ok (.ok hosts) ∧
    ∀ x, x ∈ hosts.items ↔ ∃ b ∈ bricks, b.pair = x
  found : ∀ path first list gfid,
    getShardList cmds path volume = .ok (.ok (first :: list)) →
    getGfid cmds (some first) = .ok (.ok gfid) →
    ∀ b ∈ bricks, ∀ piece ∈ shardsOn cmds gfid b.pair, piece ∈ list

/-- **No brick is overlooked** exactly if no host has two bricks at different paths. -/
theorem covers_iff {cmds : Commands} {volume number : String} {bricks : List Brick}
    (hnumber : '\n' ∉ number.toList)
    (h : cmds.volumeInfo volume = .ok (volumeText number bricks)) :
    Covers cmds volume bricks ↔
      ∀ b ∈ bricks, ∀ c ∈ bricks, b.host = c.host → b.path = c.path := by
  have hv := getVolumeHost_eq hnumber h
  constructor
  · rintro ⟨⟨hosts, hhosts, hall⟩, -⟩ b hb c hc hhost
    rw [hv] at hhosts
    cases hhosts
    -- both pairs are items of one dictionary
    have hget : ∀ x ∈ bricks, (hostsOf bricks).get? x.host = some x.path :=
      fun x hx => Dict.mem_items_iff.1 ((hall x.pair).2 ⟨x, hx, rfl⟩)
    have hb' := hget b hb
    rw [hhost, hget c hc] at hb'
    exact (Option.some.inj hb').symm
  · intro hpath
    have hkept : ∀ b ∈ bricks, Kept bricks b := by
      intro b hb
      obtain ⟨c, hc, hhost⟩ := exists_kept hb
      have hcb : c.pair = b.pair := Prod.ext hhost (hpath c hc.mem b hb hhost)
      exact Brick.pair_injective hcb ▸ hc
    refine ⟨⟨hostsOf bricks, hv, fun x => ?_⟩, ?_⟩
    · rw [mem_hostsOf]
      exact ⟨fun ⟨b, hb, hx⟩ => ⟨b, hb.mem, hx⟩, fun ⟨b, hb, hx⟩ => ⟨b, hkept b hb, hx⟩⟩
    · intro path first list gfid hlist hgfid b hb piece hp
      obtain ⟨first', -, gfid', hg, hl⟩ := getShardList_inv hv hlist
      cases hl
      rw [hgfid] at hg
      cases hg
      refine (sortByPath_perm _).mem_iff.2 ?_
      exact List.mem_flatMap.2 ⟨b.pair, pair_mem_hostsOf.2 (hkept b hb), hp⟩

/-! ## Bricks of one host -/

theorem plain_bricks :
    ((':' ∉ "n1".toList ∧ ':' ∉ "/b1".toList) ∧ ('\n' ∉ "n1".toList ∧ '\n' ∉ "/b1".toList)) ∧
    ((':' ∉ "n1".toList ∧ ':' ∉ "/b2".toList) ∧ ('\n' ∉ "n1".toList ∧ '\n' ∉ "/b2".toList)) ∧
    ((':' ∉ "n2".toList ∧ ':' ∉ "/b2".toList) ∧ ('\n' ∉ "n2".toList ∧ '\n' ∉ "/b2".toList)) := by
  decide

def brick11 : Brick := ⟨"n1", "/b1", plain_bricks.1.1, plain_bricks.1.2⟩

def brick12 : Brick := ⟨"n1", "/b2", plain_bricks.2.1.1, plain_bricks.2.1.2⟩

def brick22 : Brick := ⟨"n2", "/b2", plain_bricks.2.2.1, plain_bricks.2.2.2⟩

/-- A file `f` on the second brick of a volume and its shard on the first. -/
def shardApart (bricks : List Brick) : Commands where
  volumeInfo := fun _ => .ok (volumeText "Number of Bricks: 2" bricks)
  ls := fun _ path =>
    if path = "/b2/f" then .ok "/b2/f" else if path = "/b1/.shard/" then .ok "5f-01.1"
    else .error "No such file or directory"
  getfattr := fun _ _ => .ok "# file: b2/f\ntrusted.gfid=0x5f01\n"

theorem covers_two_hosts : Covers (shardApart [brick11, brick22]) "vol" [brick11, brick22] :=
  (covers_iff (by decide) rfl).2 (by decide)

/-- The first brick of the host is overlooked, and the shard on it with it. -/
theorem not_covers_one_host :
    getShardList (shardApart [brick11, brick22]) "f" "vol" =
        .ok (.ok [⟨"/b2/f", "n2"⟩, ⟨"/b1/.shard/5f-01.1", "n1"⟩]) ∧
      getShardList (shardApart [brick11, brick12]) "f" "vol" = .ok (.ok [⟨"/b2/f", "n1"⟩]) ∧
      ¬ Covers (shardApart [brick11, brick12]) "vol" [brick11, brick12] := by
  refine ⟨by decide +kernel, by decide +kernel, ?_⟩
  rintro ⟨⟨hosts, hhosts, hall⟩, -⟩
  have hv : getVolumeHost (shardApart [brick11, brick12]) "vol" =
      .ok (.ok ((∅ : Dict String String).set "n1" "/b2")) := by decide +kernel
  rw [hv] at hhosts
  cases hhosts
  exact absurd ((hall ("n1", "/b1")).2 ⟨brick11, List.mem_cons_self, rfl⟩) (by decide)

end Lba2Pba.Query
