import Lba2Pba.Trace.Assembly

/-!
# When `Trace.__init__` completes

The constructor indexes the extents of every base file and looks up nodes, gfids and
files without a guard, so it is the replies that decide whether it completes.
`init_total_iff` lists what it needs of them: an extent of every base file, on a peer;
for every shard an owner, with an entry at the node that the loop over the base files
has left in `node`; and a number after the last dot of every shard. Replies without a
base file need nothing, since all loops after the first are skipped.
-/

namespace Lba2Pba.Trace

open Py

variable {toShard : String → String → Option String} {replies : List (String × List FilePBA)}

/-- What the constructor needs of the replies. -/
structure Startable (toShard : String → String → Option String)
    (replies : List (String × List FilePBA)) : Prop where
  /-- `fPba.pba[0].host` is a peer. -/
  known : ∀ x ∈ baseFiles replies, ∃ first, x.2.pba.head? = some first ∧
    first.host ∈ replies.map Prod.fst
  /-- The owner of a shard has an entry at the node of the last base file. -/
  owned : ∀ x ∈ shardFiles replies, ∃ fname,
    ownerOf toShard replies (some (shardKey x.2.fileName)) = some fname ∧
    (entryOf replies (lastNode ((baseFiles replies).map Prod.snd)) fname).isSome
  index : ∀ x ∈ shardFiles replies, ∃ i, shardIndex x.2.fileName = .ok i

theorem sortedShards_index {items : List (String × FilePBA)} {l : List FilePBA}
    (h : sortedShards items = .ok l) : ∀ x ∈ items, ∃ i, shardIndex x.1 = .ok i := by
  obtain ⟨keyed, hall, -⟩ := sortedShards_iff.1 h
  intro x hx
  obtain ⟨y, hy⟩ := exists_forall₂_iff.1 ⟨keyed, hall⟩ x hx
  exact ⟨y.1, hy.1⟩

/-- Every shard is filed somewhere, and the index of what is filed is read. -/
theorem init_index {t : Trace} (h : init toShard replies = .ok t) (hne : baseFiles replies ≠ []) :
    ∀ x ∈ shardFiles replies, ∃ i, shardIndex x.2.fileName = .ok i := by
  obtain ⟨d₁, d₂, bases, shards, pub⟩ := init_entered h hne
  have hget := get_entered bases shards
  intro x hx
  obtain ⟨fname, hk, hsome⟩ := (init_built h).2.owned hne x hx
  obtain ⟨b, hb⟩ := Option.isSome_iff_exists.1 hsome
  -- the shard is under the last node, so it is sorted with that entry
  have hentry := hget (lastNode ((baseFiles replies).map Prod.snd)) fname
  rw [hb] at hentry
  obtain ⟨raw, hraw, -⟩ := pub.entry _ _ _ (Dict.mem_flat_iff.2 hentry)
  obtain ⟨l, hl, -⟩ := assemble_inv hraw
  have hfiled : x.2 ∈ filedUnder toShard replies (lastNode ((baseFiles replies).map Prod.snd))
      fname :=
    List.mem_filter.2 ⟨List.mem_map.2 ⟨x, hx, rfl⟩, decide_eq_true ⟨rfl, hk⟩⟩
  obtain ⟨s, hs, hname⟩ := exists_mem_byPath hfiled
  obtain ⟨item, hitem, rfl⟩ := List.mem_map.1 hs
  obtain ⟨i, hi⟩ := sortedShards_index hl item hitem
  exact ⟨i, by rw [← hname, names_byPath _ item hitem]; exact hi⟩

theorem init_total_iff : (∃ t, init toShard replies = .ok t) ↔
    baseFiles replies = [] ∨ Startable toShard replies := by
  constructor
  · rintro ⟨t, h⟩
    by_cases hne : baseFiles replies = []
    · exact .inl hne
    · have hb := (init_built h).2
      exact .inr ⟨hb.known, hb.owned hne, init_index h hne⟩
  · rintro (hnil | hs)
    · have hraw : (scan toShard replies).rawFilePba.isEmpty = true := by
        rw [scan_rawFilePba, hnil]
        rfl
      simp only [init, hraw, if_true]
      exact ⟨_, rfl⟩
    · exact init_total ⟨hs.known, fun _ => hs.owned⟩ hs.index

/-- The constructor completes, and every base file with an extent on a peer has an
entry. -/
def Tolerates (toShard : String → String → Option String)
    (replies : List (String × List FilePBA)) : Prop :=
  ∃ t, init toShard replies = .ok t ∧
    ∀ x ∈ baseFiles replies, (∃ p ∈ x.2.pba, p.host ∈ replies.map Prod.fst) →
      ∃ node ∈ replies.map Prod.fst, (t.rawFM.get2? node x.2.fileName).isSome

/-- **Start-up.** It tolerates the replies exactly if it completes on them: an entry is
made of every base file on the way. -/
theorem tolerates_iff (toShard : String → String → Option String)
    (replies : List (String × List FilePBA)) :
    Tolerates toShard replies ↔ baseFiles replies = [] ∨ Startable toShard replies := by
  rw [← init_total_iff]
  constructor
  · rintro ⟨t, h, -⟩
    exact ⟨t, h⟩
  · rintro ⟨t, h⟩
    obtain ⟨built, buildable⟩ := init_built h
    refine ⟨t, h, fun x hx _ => ?_⟩
    obtain ⟨first, hp, hn⟩ := buildable.known x hx
    have hosted : HostedOn first.host x.2.pba := by rw [HostedOn, hp]; rfl
    obtain ⟨b, hb⟩ := Option.isSome_iff_exists.1 (entryOf_isSome (p := x.1) hx hosted rfl)
    obtain ⟨l, -, hraw⟩ := built.present first.host x.2.fileName b hb
    exact ⟨first.host, hn, by rw [hraw]; rfl⟩

/-- A peer with a file and an empty one. -/
def emptyFile : List (String × List FilePBA) :=
  [("node1", [
    { pba := [.blockAt "node1" (.lit 0)], fileName := "/vol/a", type := "Distribute" },
    { pba := [], fileName := "/vol/b", type := "Distribute" }])]

/-- A peer with a file and a shard of another one. -/
def strayShard : List (String × List FilePBA) :=
  [("node1", [
    { pba := [.blockAt "node1" (.lit 0)], fileName := "/vol/a", type := "Distribute" },
    { pba := [.blockAt "node1" (.lit 8192)], fileName := "/vol/.shard/6a.1",
      type := "Distribute" }])]

/-- An empty file stops the service from starting, and so does a shard without its
base file. -/
theorem init_raises : (init gfids emptyFile).toOption = none ∧
    (init gfids strayShard).toOption = none ∧
    ¬ Tolerates gfids emptyFile ∧ ¬ Tolerates gfids strayShard := by
  have hempty : (init gfids emptyFile).toOption = none := by decide
  have hstray : (init gfids strayShard).toOption = none := by decide
  refine ⟨hempty, hstray, ?_, ?_⟩
  · rintro ⟨t, h, -⟩
    rw [h] at hempty
    cases hempty
  · rintro ⟨t, h, -⟩
    rw [h] at hstray
    cases hstray

end Lba2Pba.Trace
