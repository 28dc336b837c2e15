import Lba2Pba.Trace.Startup

/-!
# `Trace.__init__` as a function of the replies

What the loops of the constructor leave, in terms of the files that the peers
report: which base files have an entry, which shards are filed under it, and in
which order their extents are published.
-/

namespace Lba2Pba.Trace

open Py

/-! ## The reported files -/

/-- All files with the peer that reports them, in the order of the loop. -/
def reported (replies : List (String × List FilePBA)) : List (String × FilePBA) :=
  replies.flatMap (fun r => r.2.map (fun f => (r.1, f)))

/-- What the constructor takes for a shard. -/
def isShardFile (f : FilePBA) : Bool := Str.isIn "/.shard/" f.fileName

def baseFiles (replies : List (String × List FilePBA)) : List (String × FilePBA) :=
  (reported replies).filter (fun x => !isShardFile x.2)

def shardFiles (replies : List (String × List FilePBA)) : List (String × FilePBA) :=
  (reported replies).filter (fun x => isShardFile x.2)

/-- The base file that was last reported with a gfid. -/
def ownerOf (toShard : String → String → Option String) (replies : List (String × List FilePBA))
    (gfid : Option String) : Option String :=
  ((baseFiles replies).filter (fun x => decide (toShard x.2.fileName x.1 = gfid))).getLast?.map
    (fun x => x.2.fileName)

section Scan

variable (toShard : String → String → Option String)

theorem scan_eq (replies : List (String × List FilePBA)) : scan toShard replies =
    (reported replies).foldl (fun sc x => Scan.add toShard x.1 sc x.2) ⟨[], [], ∅⟩ := by
  simp only [scan, reported, List.foldl_flatMap, List.foldl_map]

theorem foldl_add (l : List (String × FilePBA)) (sc : Scan) :
    (l.foldl (fun sc x => Scan.add toShard x.1 sc x.2) sc).rawFilePba =
        sc.rawFilePba ++ (l.filter (fun x => !isShardFile x.2)).map Prod.snd ∧
      (l.foldl (fun sc x => Scan.add toShard x.1 sc x.2) sc).shardPba =
        sc.shardPba ++ (l.filter (fun x => isShardFile x.2)).map Prod.snd := by
  induction l generalizing sc with
  | nil => simp
  | cons x l ih =>
    rw [List.foldl_cons, (ih _).1, (ih _).2]
    cases h : isShardFile x.2 with
    | true => simp [Scan.add, show Str.isIn "/.shard/" x.2.fileName = true from h, h]
    | false => simp [Scan.add, show Str.isIn "/.shard/" x.2.fileName = false from h, h]

theorem foldl_add_shardDict (l : List (String × FilePBA)) (sc : Scan) :
    (l.foldl (fun sc x => Scan.add toShard x.1 sc x.2) sc).shardDict =
      sc.shardDict.update ((l.filter (fun x => !isShardFile x.2)).map
        (fun x => (toShard x.2.fileName x.1, x.2.fileName))) := by
  induction l generalizing sc with
  | nil => rfl
  | cons x l ih =>
    rw [List.foldl_cons, ih]
    cases h : isShardFile x.2 with
    | true => simp [Scan.add, show Str.isIn "/.shard/" x.2.fileName = true from h, h]
    | false =>
      simp [Scan.add, show Str.isIn "/.shard/" x.2.fileName = false from h, h, Dict.update]

variable (replies : List (String × List FilePBA))

theorem scan_rawFilePba :
    (scan toShard replies).rawFilePba = (baseFiles replies).map Prod.snd := by
  rw [scan_eq, (foldl_add toShard _ _).1]
  rfl

theorem scan_shardPba : (scan toShard replies).shardPba = (shardFiles replies).map Prod.snd := by
  rw [scan_eq, (foldl_add toShard _ _).2]
  rfl

theorem scan_shardDict (k : Option String) :
    (scan toShard replies).shardDict.get? k = ownerOf toShard replies k := by
  rw [scan_eq, foldl_add_shardDict, Dict.get?_update, List.filter_map, List.getLast?_map,
    Option.map_map]
  simp [ownerOf, baseFiles, Function.comp_def]

end Scan

/-! ## The base files -/

/-- The entry of a file is made of the first base file with that name and node. -/
def isEntry (n f : String) (b : FilePBA) : Bool :=
  decide (HostedOn n b.pba ∧ b.fileName = f)

def newEntry (b : FilePBA) : Entry := ⟨∅, b.pba, b.type⟩

/-- What the loop over the base files has done. -/
structure BasesEntered (d₀ : Dict String (Dict String Entry)) (done : List FilePBA)
    (d : Dict String (Dict String Entry)) : Prop where
  keys : d.keys = d₀.keys
  get : ∀ n f, d.get2? n f = (done.find? (isEntry n f)).map newEntry
  known : ∀ b ∈ done, ∃ first, b.pba.head? = some first ∧ first.host ∈ d₀.keys

section Bases

variable {d₀ d d' : Dict String (Dict String Entry)} {done : List FilePBA} {b : FilePBA}

theorem BasesEntered.step (h : BasesEntered d₀ done d) (hb : enterBase d b = .ok d') :
    BasesEntered d₀ (done ++ [b]) d' := by
  obtain ⟨first, hp, hn⟩ := enterBase_inv hb
  obtain ⟨d₁, h₁, hk, hget⟩ := enterBase_ok hp hn
  rw [hb] at h₁
  cases h₁
  refine ⟨hk.trans h.keys, fun n f => ?_, fun c hc => ?_⟩
  · rw [hget, h.get, List.find?_append]
    by_cases hc : first.host = n ∧ b.fileName = f
    · obtain ⟨rfl, rfl⟩ := hc
      have he : isEntry first.host b.fileName b = true := by simp [isEntry, HostedOn, hp]
      rw [if_pos ⟨rfl, rfl⟩, List.find?_singleton, if_pos he]
      cases done.find? (isEntry first.host b.fileName) <;> rfl
    · have he : isEntry n f b = false := by simpa [isEntry, HostedOn, hp] using hc
      rw [if_neg hc, List.find?_singleton, he]
      simp
  · rcases List.mem_append.1 hc with hc | hc
    · exact h.known c hc
    · cases List.mem_singleton.1 hc
      exact ⟨first, hp, h.keys ▸ hn⟩

theorem BasesEntered.next (h : BasesEntered d₀ done d)
    (hb : ∃ first, b.pba.head? = some first ∧ first.host ∈ d₀.keys) :
    ∃ d', enterBase d b = .ok d' := by
  obtain ⟨first, hp, hn⟩ := hb
  obtain ⟨d', hd', -⟩ := enterBase_ok hp (h.keys.symm ▸ hn : first.host ∈ d.keys)
  exact ⟨d', hd'⟩

end Bases

/-! ## The shards -/

/-- The shard is filed under file `f` of node `n`: there is one node for all shards. -/
def isFiled (node : String) (owner : Option String → Option String) (n f : String) (s : FilePBA) :
    Bool :=
  decide (n = node ∧ owner (some (shardKey s.fileName)) = some f)

/-- The dictionary of shards by path. -/
def byPath (d : Dict String FilePBA) (l : List FilePBA) : Dict String FilePBA :=
  l.foldl (fun d s => d.set s.fileName s) d

/-- What the loop over the shards has done. -/
structure ShardsEntered (node : String) (shardDict : Dict (Option String) String)
    (d₁ : Dict String (Dict String Entry)) (done : List FilePBA)
    (d : Dict String (Dict String Entry)) : Prop where
  keys : d.keys = d₁.keys
  get : ∀ n f, d.get2? n f = (d₁.get2? n f).map (fun e => { e with
    shard := byPath e.shard (done.filter (isFiled node shardDict.get? n f)) })
  owned : ∀ s ∈ done, ∃ fname, shardDict.get? (some (shardKey s.fileName)) = some fname ∧
    (d₁.get2? node fname).isSome

section Shards

variable {node : String} {shardDict : Dict (Option String) String}
  {d₁ d d' : Dict String (Dict String Entry)} {done : List FilePBA} {s : FilePBA}

theorem ShardsEntered.nil : ShardsEntered node shardDict d₁ [] d₁ := by
  refine ⟨rfl, fun n f => ?_, fun s hs => absurd hs List.not_mem_nil⟩
  cases d₁.get2? n f <;> rfl

theorem ShardsEntered.step (h : ShardsEntered node shardDict d₁ done d)
    (hs : enterShard node shardDict d s = .ok d') :
    ShardsEntered node shardDict d₁ (done ++ [s]) d' := by
  obtain ⟨fname, entry, hk, he, rfl⟩ := enterShard_inv hs
  have hsome : (d₁.get2? node fname).isSome := by
    have := h.get node fname
    rw [he] at this
    cases hd : d₁.get2? node fname with
    | none =>
      rw [hd] at this
      cases this
    | some e => rfl
  refine ⟨(Dict.keys_set2 ..).trans h.keys, fun n f => ?_, fun c hc => ?_⟩
  · rw [Dict.get2?_set2 (Dict.mem_keys_of_get2? he), List.filter_append]
    by_cases hc : node = n ∧ fname = f
    · obtain ⟨rfl, rfl⟩ := hc
      have hfiled : isFiled node shardDict.get? node fname s = true := by simp [isFiled, hk]
      have hget := h.get node fname
      rw [he] at hget
      obtain ⟨e₁, he₁⟩ := Option.isSome_iff_exists.1 hsome
      rw [he₁] at hget ⊢
      simp only [Option.map_some, Option.some.injEq] at hget
      simp [hget, hfiled, byPath]
    · have hfiled : isFiled node shardDict.get? n f s = false := by
        simp only [isFiled, hk, Option.some.injEq, decide_eq_false_iff_not]
        exact fun hx => hc ⟨hx.1.symm, hx.2⟩
      rw [if_neg hc, h.get]
      simp [hfiled]
  · rcases List.mem_append.1 hc with hc | hc
    · exact h.owned c hc
    · cases List.mem_singleton.1 hc
      exact ⟨fname, hk, hsome⟩

theorem ShardsEntered.next (h : ShardsEntered node shardDict d₁ done d)
    (hs : ∃ fname, shardDict.get? (some (shardKey s.fileName)) = some fname ∧
      (d₁.get2? node fname).isSome) : ∃ d', enterShard node shardDict d s = .ok d' := by
  obtain ⟨fname, hk, hsome⟩ := hs
  obtain ⟨e₁, he₁⟩ := Option.isSome_iff_exists.1 hsome
  have hget := h.get node fname
  rw [he₁] at hget
  exact ⟨_, enterShard_ok hk hget⟩

end Shards

theorem get?_byPath (l : List FilePBA) (d : Dict String FilePBA) (k : String) :
    (byPath d l).get? k =
      ((l.filter (fun s => decide (s.fileName = k))).getLast?).or (d.get? k) := by
  have hupdate : byPath d l = d.update (l.map (fun s => (s.fileName, s))) := by
    rw [byPath, Dict.update, List.foldl_map]
  rw [hupdate, Dict.get?_update, List.filter_map, List.getLast?_map, Option.map_map]
  simp [Function.comp_def]

/-! ## The order of the shards -/

/-- The numeric index of one shard is at most that of the other. -/
def IndexLE (a b : FilePBA) : Prop :=
  ∃ i j, shardIndex a.fileName = .ok i ∧ shardIndex b.fileName = .ok j ∧ i ≤ j

/-- The shards are sorted by their index. -/
structure IsSorted (shards l : List FilePBA) : Prop where
  perm : l.Perm shards
  sorted : l.Pairwise IndexLE

theorem sortedShards_iff {items : List (String × FilePBA)} {l : List FilePBA} :
    sortedShards items = .ok l ↔ ∃ keyed : List (Int × FilePBA),
      List.Forall₂ (fun x y => shardIndex x.1 = .ok y.1 ∧ y.2 = x.2) items keyed ∧
      l = (keyed.insertionSort (fun a b => a.1 ≤ b.1)).map Prod.snd := by
  have hitem : ∀ (x : String × FilePBA) (y : Int × FilePBA),
      (do return (← shardIndex x.1, x.2) : Except Err (Int × FilePBA)) = .ok y ↔
        shardIndex x.1 = .ok y.1 ∧ y.2 = x.2 := by
    rintro x ⟨i, f⟩
    rw [bind_eq_ok]
    constructor
    · rintro ⟨j, hj, he⟩
      cases he
      exact ⟨hj, rfl⟩
    · rintro ⟨hi, rfl⟩
      exact ⟨i, hi, rfl⟩
  simp only [← hitem, ← mapM_ok_iff]
  rw [sortedShards, bind_eq_ok]
  exact exists_congr (fun keyed => and_congr_right (fun _ =>
    ⟨fun h => (Except.ok.inj h).symm, fun h => h ▸ rfl⟩))

theorem isSorted_of_sortedShards {items : List (String × FilePBA)} {l : List FilePBA}
    (hnames : ∀ x ∈ items, x.2.fileName = x.1) (h : sortedShards items = .ok l) :
    IsSorted (items.map Prod.snd) l := by
  obtain ⟨keyed, hall, rfl⟩ := sortedShards_iff.1 h
  have hkeyed : keyed.map Prod.snd = items.map Prod.snd ∧
      ∀ y ∈ keyed, ∃ x ∈ items, shardIndex x.1 = .ok y.1 ∧ y.2 = x.2 := by
    clear h hnames
    induction hall with
    | nil => exact ⟨rfl, fun y hy => absurd hy List.not_mem_nil⟩
    | cons hxy _ ih =>
      rename_i x y items keyed _
      refine ⟨by rw [List.map_cons, List.map_cons, ih.1, hxy.2], fun z hz => ?_⟩
      rcases List.mem_cons.1 hz with rfl | hz
      · exact ⟨x, List.mem_cons_self, hxy⟩
      · obtain ⟨w, hw, hwz⟩ := ih.2 z hz
        exact ⟨w, List.mem_cons_of_mem x hw, hwz⟩
  obtain ⟨hsnd, hmem⟩ := hkeyed
  have hidx : ∀ y ∈ keyed, shardIndex y.2.fileName = .ok y.1 := by
    intro y hy
    obtain ⟨x, hx, hxy⟩ := hmem y hy
    rw [hxy.2, hnames x hx]
    exact hxy.1
  refine ⟨hsnd ▸ (List.perm_insertionSort _ keyed).map Prod.snd, ?_⟩
  rw [List.pairwise_map]
  refine (List.pairwise_insertionSort _ keyed).imp_of_mem (fun {a b} ha hb hab => ?_)
  exact ⟨a.1, b.1, hidx a ((List.mem_insertionSort _).1 ha),
    hidx b ((List.mem_insertionSort _).1 hb), hab⟩

theorem sortedShards_total {items : List (String × FilePBA)}
    (h : ∀ x ∈ items, ∃ i, shardIndex x.1 = .ok i) : ∃ l, sortedShards items = .ok l := by
  have hkeyed : ∃ keyed : List (Int × FilePBA),
      List.Forall₂ (fun x y => shardIndex x.1 = .ok y.1 ∧ y.2 = x.2) items keyed := by
    refine exists_forall₂_iff.2 (fun x hx => ?_)
    obtain ⟨i, hi⟩ := h x hx
    exact ⟨(i, x.2), hi, rfl⟩
  obtain ⟨keyed, hk⟩ := hkeyed
  exact ⟨_, sortedShards_iff.2 ⟨keyed, hk, rfl⟩⟩

/-! ## The result -/

section Result

variable (toShard : String → String → Option String) (replies : List (String × List FilePBA))

/-- The base file that makes the entry of a file. -/
def entryOf (n f : String) : Option FilePBA :=
  ((baseFiles replies).map Prod.snd).find? (isEntry n f)

/-- The shards that are filed under a file. -/
def filedUnder (n f : String) : List FilePBA :=
  ((shardFiles replies).map Prod.snd).filter
    (isFiled (lastNode ((baseFiles replies).map Prod.snd)) (ownerOf toShard replies) n f)

/-- The loops over the base files and the shards complete. -/
structure Buildable : Prop where
  known : ∀ x ∈ baseFiles replies, ∃ first, x.2.pba.head? = some first ∧
    first.host ∈ replies.map Prod.fst
  owned : baseFiles replies ≠ [] → ∀ x ∈ shardFiles replies, ∃ fname,
    ownerOf toShard replies (some (shardKey x.2.fileName)) = some fname ∧
    (entryOf replies (lastNode ((baseFiles replies).map Prod.snd)) fname).isSome

/-- What is published. -/
structure Built (t : Trace) : Prop where
  absent : ∀ n f, entryOf replies n f = none → t.rawFM.get2? n f = none
  present : ∀ n f b, entryOf replies n f = some b →
    ∃ l, IsSorted (byPath ∅ (filedUnder toShard replies n f)).values l ∧
      t.rawFM.get2? n f =
        some { pba := b.pba ++ l.flatMap FilePBA.pba, fileName := f, type := b.type }

variable {toShard replies}

theorem basesEntered_nil (peers : List String) :
    BasesEntered (peerDicts peers) [] (peerDicts peers) :=
  ⟨rfl, fun n f => get2?_peerDicts peers n f, fun _ h => absurd h List.not_mem_nil⟩

theorem names_byPath (l : List FilePBA) :
    ∀ x ∈ (byPath ∅ l).items, x.2.fileName = x.1 := by
  rintro ⟨k, s⟩ hx
  have hget := Dict.mem_items_iff.1 hx
  rw [get?_byPath, Dict.get?_empty, Option.or_none] at hget
  have hmem := List.mem_of_getLast? hget
  simpa using (List.mem_filter.1 hmem).2

theorem mem_of_byPath {l : List FilePBA} {s : FilePBA} (h : s ∈ (byPath ∅ l).values) : s ∈ l := by
  obtain ⟨k, hk⟩ := Dict.mem_values_iff.1 h
  rw [get?_byPath, Dict.get?_empty, Option.or_none] at hk
  exact (List.mem_filter.1 (List.mem_of_getLast? hk)).1

theorem entryOf_eq_some {m g : String} {b : FilePBA}
    (h : entryOf replies m g = some b) :
    (∃ p, (p, b) ∈ baseFiles replies) ∧ HostedOn m b.pba ∧ b.fileName = g := by
  have hp := List.find?_some h
  obtain ⟨x, hx, rfl⟩ := List.mem_map.1 (List.mem_of_find?_eq_some h)
  rw [isEntry, decide_eq_true_iff] at hp
  exact ⟨⟨x.1, hx⟩, hp⟩

theorem entryOf_isSome {p m g : String} {b : FilePBA}
    (hb : (p, b) ∈ baseFiles replies) (hm : HostedOn m b.pba) (hg : b.fileName = g) :
    (entryOf replies m g).isSome := by
  rw [entryOf, List.find?_isSome]
  exact ⟨b, List.mem_map.2 ⟨_, hb, rfl⟩, decide_eq_true ⟨hm, hg⟩⟩

theorem exists_mem_byPath {l : List FilePBA} {s : FilePBA} (h : s ∈ l) :
    ∃ s' ∈ (byPath ∅ l).values, s'.fileName = s.fileName := by
  have hne : l.filter (fun x => decide (x.fileName = s.fileName)) ≠ [] :=
    List.ne_nil_of_mem (List.mem_filter.2 ⟨h, by simp⟩)
  have hlast := List.getLast?_eq_getLast_of_ne_nil hne
  have hget := get?_byPath l ∅ s.fileName
  rw [hlast] at hget
  refine ⟨_, Dict.mem_values_iff.2 ⟨s.fileName, hget⟩, ?_⟩
  simpa using (List.mem_filter.1 (List.getLast_mem hne)).2

/-- The two loops together. -/
theorem get_entered {d₁ d₂ : Dict String (Dict String Entry)}
    (bases : BasesEntered (peerDicts (replies.map Prod.fst)) ((baseFiles replies).map Prod.snd) d₁)
    (shards : ShardsEntered (lastNode ((baseFiles replies).map Prod.snd))
      (scan toShard replies).shardDict d₁ ((shardFiles replies).map Prod.snd) d₂) (n f : String) :
    d₂.get2? n f = (entryOf replies n f).map
      (fun b => ⟨byPath ∅ (filedUnder toShard replies n f), b.pba, b.type⟩) := by
  have howner : (scan toShard replies).shardDict.get? = ownerOf toShard replies :=
    funext (scan_shardDict toShard replies)
  rw [shards.get, bases.get, howner, entryOf, Option.map_map]
  rfl

theorem keys_entered {d₁ d₂ : Dict String (Dict String Entry)}
    (bases : BasesEntered (peerDicts (replies.map Prod.fst)) ((baseFiles replies).map Prod.snd) d₁)
    (shards : ShardsEntered (lastNode ((baseFiles replies).map Prod.snd))
      (scan toShard replies).shardDict d₁ ((shardFiles replies).map Prod.snd) d₂) :
    d₂.keys = (peerDicts (replies.map Prod.fst) : Dict String (Dict String FilePBA)).keys :=
  shards.keys.trans (bases.keys.trans (keys_peerDicts _))

/-- The three loops, where there is a base file. -/
theorem init_entered {t : Trace} (h : init toShard replies = .ok t)
    (hne : baseFiles replies ≠ []) : ∃ d₁ d₂,
      BasesEntered (peerDicts (replies.map Prod.fst)) ((baseFiles replies).map Prod.snd) d₁ ∧
      ShardsEntered (lastNode ((baseFiles replies).map Prod.snd))
        (scan toShard replies).shardDict d₁ ((shardFiles replies).map Prod.snd) d₂ ∧
      Published (peerDicts (replies.map Prod.fst)) d₂.flat t.rawFM := by
  have hne' : (scan toShard replies).rawFilePba ≠ [] := by
    rw [scan_rawFilePba]
    simpa using hne
  obtain ⟨d₁, d₂, raw, h1, h2, h3, rfl⟩ := init_inv h hne'
  rw [scan_rawFilePba] at h1
  rw [scan_rawFilePba, scan_shardPba] at h2
  have bases := foldlM_inv (basesEntered_nil _) (fun done b rest _ d d' hd hb => hd.step hb) h1
  have shards := foldlM_inv ShardsEntered.nil (fun done s rest _ d d' hd hs => hd.step hs) h2
  exact ⟨d₁, d₂, bases, shards,
    assembleAll_inv (fun n hn => keys_entered bases shards ▸ hn) h3⟩

theorem init_built {t : Trace} (h : init toShard replies = .ok t) :
    Built toShard replies t ∧ Buildable toShard replies := by
  by_cases hne : baseFiles replies = []
  · have hraw : (scan toShard replies).rawFilePba.isEmpty = true := by
      rw [scan_rawFilePba, hne]
      rfl
    simp only [init, hraw, if_true] at h
    cases h
    refine ⟨⟨fun n f _ => get2?_peerDicts _ n f, fun n f b hb => ?_⟩, fun x hx => ?_, fun hc => ?_⟩
    · rw [entryOf, hne] at hb
      cases hb
    · rw [hne] at hx
      cases hx
    · exact absurd hne hc
  · obtain ⟨d₁, d₂, bases, shards, pub⟩ := init_entered h hne
    have hget := get_entered bases shards
    refine ⟨⟨fun n f hn => ?_, fun n f b hb => ?_⟩, fun x hx => ?_, fun _ x hx => ?_⟩
    · rw [pub.other n f, get2?_peerDicts]
      intro hm
      obtain ⟨⟨⟨m, g⟩, e⟩, hmem, hmg⟩ := List.mem_map.1 hm
      cases hmg
      rw [Dict.mem_flat_iff, hget, hn] at hmem
      cases hmem
    · have hentry := hget n f
      rw [hb] at hentry
      obtain ⟨x, hx, hraw⟩ := pub.entry n f _ (Dict.mem_flat_iff.2 hentry)
      obtain ⟨l, hl, rfl⟩ := assemble_inv hx
      exact ⟨l, isSorted_of_sortedShards (names_byPath _) hl, hraw⟩
    · obtain ⟨first, hp, hn⟩ := bases.known x.2 (List.mem_map.2 ⟨x, hx, rfl⟩)
      exact ⟨first, hp, mem_peerDicts.1 hn⟩
    · obtain ⟨fname, hk, hsome⟩ := shards.owned x.2 (List.mem_map.2 ⟨x, hx, rfl⟩)
      rw [scan_shardDict] at hk
      rw [bases.get, Option.isSome_map] at hsome
      exact ⟨fname, hk, hsome⟩

/-- Shards with an index can be sorted. -/
theorem sortedShards_filedUnder
    (hidx : ∀ x ∈ shardFiles replies, ∃ i, shardIndex x.2.fileName = .ok i) (n f : String) :
    ∃ l, sortedShards (byPath ∅ (filedUnder toShard replies n f)).items = .ok l := by
  refine sortedShards_total (fun x hx => ?_)
  have hval : x.2 ∈ (byPath ∅ (filedUnder toShard replies n f)).values :=
    List.mem_map.2 ⟨x, hx, rfl⟩
  have hmem := (List.mem_filter.1 (mem_of_byPath hval)).1
  obtain ⟨y, hy, hyx⟩ := List.mem_map.1 hmem
  rw [← names_byPath _ x hx, ← hyx]
  exact hidx y hy

theorem init_total (hb : Buildable toShard replies)
    (hidx : ∀ x ∈ shardFiles replies, ∃ i, shardIndex x.2.fileName = .ok i) :
    ∃ t, init toShard replies = .ok t := by
  by_cases hne : baseFiles replies = []
  · have hraw : (scan toShard replies).rawFilePba.isEmpty = true := by
      rw [scan_rawFilePba, hne]
      rfl
    simp only [init, hraw, if_true]
    exact ⟨_, rfl⟩
  · have hemp : ((baseFiles replies).map Prod.snd).isEmpty = false := by simpa using hne
    simp only [init, scan_rawFilePba, scan_shardPba, hemp, Bool.false_eq_true, if_false]
    obtain ⟨d₁, h1, bases⟩ := foldlM_total (f := enterBase) (l := (baseFiles replies).map Prod.snd)
      (basesEntered_nil (replies.map Prod.fst)) (fun done b rest hl d hd => by
        have hmem : b ∈ (baseFiles replies).map Prod.snd := by rw [hl]; simp
        obtain ⟨x, hx, rfl⟩ := List.mem_map.1 hmem
        obtain ⟨first, hp, hn⟩ := hb.known x hx
        obtain ⟨d', hd'⟩ := hd.next ⟨first, hp, mem_peerDicts.2 hn⟩
        exact ⟨d', hd', hd.step hd'⟩)
    obtain ⟨d₂, h2, shards⟩ := foldlM_total
      (f := enterShard (lastNode ((baseFiles replies).map Prod.snd))
        (scan toShard replies).shardDict)
      (l := (shardFiles replies).map Prod.snd) (s := d₁) ShardsEntered.nil
      (fun done s rest hl d hd => by
        have hmem : s ∈ (shardFiles replies).map Prod.snd := by rw [hl]; simp
        obtain ⟨x, hx, rfl⟩ := List.mem_map.1 hmem
        obtain ⟨fname, hk, hsome⟩ := hb.owned hne x hx
        rw [← scan_shardDict] at hk
        rw [entryOf] at hsome
        obtain ⟨d', hd'⟩ := hd.next ⟨fname, hk, by rw [bases.get, Option.isSome_map]; exact hsome⟩
        exact ⟨d', hd', hd.step hd'⟩)
    have hget := get_entered bases shards
    have hkeys := keys_entered bases shards
    obtain ⟨raw, h3, -⟩ := assembleAll_total (fun n hn => hkeys ▸ hn) (fun n f e he => by
      rw [hget, Option.map_eq_some_iff] at he
      obtain ⟨b, -, rfl⟩ := he
      obtain ⟨l, hl⟩ := sortedShards_filedUnder hidx n f
      exact ⟨_, bind_eq_ok.2 ⟨l, hl, rfl⟩⟩)
    exact ⟨_, bind_eq_ok.2 ⟨d₁, h1, bind_eq_ok.2 ⟨d₂, h2, bind_eq_ok.2 ⟨raw, h3, rfl⟩⟩⟩⟩

end Result

end Lba2Pba.Trace
