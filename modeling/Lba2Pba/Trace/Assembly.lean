import Lba2Pba.Trace.Replies
import Mathlib.Data.List.Pairwise

/-!
# The join of files and shards at start-up

Which shards belong to a file follows from the gfid and the volume type. The
constructor files every shard under one node, the one of the last base file, and
under the file that was last reported with its gfid; a path reported twice is kept
once. `assembled_iff` compares the two.
-/

namespace Lba2Pba.Trace

open Py

section Defs

variable (toShard : String → String → Option String) (replies : List (String × List FilePBA))

/-- Replies of distinct peers, with distinct paths in each. Every base file has an
extent on its peer, and every shard an index and the gfid of a reported base file. -/
structure Cluster : Prop where
  peers : (replies.map Prod.fst).Nodup
  names : ∀ r ∈ replies, (r.2.map FilePBA.fileName).Nodup
  extent : ∀ b ∈ baseFiles replies, ∃ p ∈ b.2.pba, p.host = b.1
  owned : ∀ s ∈ shardFiles replies, ∃ b ∈ baseFiles replies,
    toShard b.2.fileName b.1 = some (shardKey s.2.fileName)
  index : ∀ s ∈ shardFiles replies, ∃ i, shardIndex s.2.fileName = .ok i

/-- The shard `s` belongs to the base file `b`: on a `Distribute` volume from any peer,
and otherwise from the peer of the file. -/
def Belongs (s b : String × FilePBA) : Prop :=
  toShard b.2.fileName b.1 = some (shardKey s.2.fileName) ∧
    (b.2.type = "Distribute" ∨ s.1 = b.1)

instance (s b : String × FilePBA) : Decidable (Belongs toShard s b) :=
  inferInstanceAs (Decidable (_ ∧ _))

/-- The shards of a base file. -/
def shardsOf (b : String × FilePBA) : List FilePBA :=
  ((shardFiles replies).filter (fun s => decide (Belongs toShard s b))).map Prod.snd

/-- The constructor completes, publishes each base file with its own extents and then
those of its shards by index, and publishes nothing else. -/
def Assembled : Prop :=
  ∃ t, init toShard replies = .ok t ∧
    (∀ b ∈ baseFiles replies, ∃ raw l, t.rawFM.get2? b.1 b.2.fileName = some raw ∧
      IsSorted (shardsOf toShard replies b) l ∧ raw.pba = b.2.pba ++ l.flatMap FilePBA.pba) ∧
    ∀ n f, (∀ b ∈ baseFiles replies, ¬ (b.1 = n ∧ b.2.fileName = f)) → t.rawFM.get2? n f = none

/-- The peer that reports the last base file. -/
def lastPeer : Option String := (baseFiles replies).getLast?.map Prod.fst

/-- No shard with the path of `s` is reported after it. -/
def IsLastPath (s : String × FilePBA) : Prop :=
  ((shardFiles replies).filter (fun y => decide (y.2.fileName = s.2.fileName))).getLast? = some s

/-- The file that was last reported with the gfid of `s` is one of the last peer. -/
def OwnedBy (s b : String × FilePBA) : Prop :=
  lastPeer replies = some b.1 ∧
    ownerOf toShard replies (some (shardKey s.2.fileName)) = some b.2.fileName

instance (s : String × FilePBA) : Decidable (IsLastPath replies s) :=
  inferInstanceAs (Decidable (_ = _))

instance (s b : String × FilePBA) : Decidable (OwnedBy toShard replies s b) :=
  inferInstanceAs (Decidable (_ ∧ _))

/-- The replies that the constructor joins right. -/
structure Joinable : Prop where
  first : ∀ b ∈ baseFiles replies, HostedOn b.1 b.2.pba
  owned : ∀ s ∈ shardFiles replies, ∃ b ∈ baseFiles replies, OwnedBy toShard replies s b
  joined : ∀ s ∈ shardFiles replies, ∀ b ∈ baseFiles replies,
    Belongs toShard s b ↔ OwnedBy toShard replies s b ∧ IsLastPath replies s

/-- Every shard has an extent and no extent is reported twice. -/
structure Distinct : Prop where
  nonempty : ∀ s ∈ shardFiles replies, s.2.pba ≠ []
  nodup : ((reported replies).flatMap (fun x => x.2.pba)).Nodup

end Defs

/-! ## The reported files -/

section Reported

variable {toShard : String → String → Option String} {replies : List (String × List FilePBA)}

theorem mem_reported {x : String × FilePBA} :
    x ∈ reported replies ↔ ∃ r ∈ replies, r.1 = x.1 ∧ x.2 ∈ r.2 := by
  obtain ⟨p, f⟩ := x
  simp only [reported, List.mem_flatMap, List.mem_map, Prod.mk.injEq]
  constructor
  · rintro ⟨r, hr, g, hg, hp, rfl⟩
    exact ⟨r, hr, hp, hg⟩
  · rintro ⟨r, hr, hp, hf⟩
    exact ⟨r, hr, f, hf, hp, rfl⟩

theorem mem_reported_of_base {x : String × FilePBA} (h : x ∈ baseFiles replies) :
    x ∈ reported replies := (List.mem_filter.1 h).1

theorem mem_reported_of_shard {x : String × FilePBA} (h : x ∈ shardFiles replies) :
    x ∈ reported replies := (List.mem_filter.1 h).1

theorem peer_mem {x : String × FilePBA} (hx : x ∈ reported replies) :
    x.1 ∈ replies.map Prod.fst := by
  obtain ⟨r, hr, hrx, -⟩ := mem_reported.1 hx
  exact List.mem_map.2 ⟨r, hr, hrx⟩

variable (h : Cluster toShard replies)

include h

/-- A peer reports a path once. -/
theorem Cluster.eq_of_path {x y : String × FilePBA} (hx : x ∈ reported replies)
    (hy : y ∈ reported replies) (hp : x.1 = y.1) (hf : x.2.fileName = y.2.fileName) : x = y := by
  obtain ⟨r, hr, hrx, hxf⟩ := mem_reported.1 hx
  obtain ⟨q, hq, hqy, hyf⟩ := mem_reported.1 hy
  have hrq : r = q := List.inj_on_of_nodup_map h.peers hr hq (hrx.trans (hp.trans hqy.symm))
  subst hrq
  exact Prod.ext hp (List.inj_on_of_nodup_map (h.names r hr) hxf hyf hf)

theorem Cluster.reported_nodup : (reported replies).Nodup := by
  refine List.nodup_flatMap.2 ⟨fun r hr => ?_, ?_⟩
  · exact (List.Nodup.of_map _ (h.names r hr)).map (fun f g hfg => (Prod.mk.inj hfg).2)
  · have hpeers := List.pairwise_map.1 h.peers
    refine hpeers.imp (fun {r q} hrq => ?_)
    intro x hxr hxq
    obtain ⟨f, -, rfl⟩ := List.mem_map.1 hxr
    obtain ⟨g, -, hg⟩ := List.mem_map.1 hxq
    exact hrq (Prod.mk.inj hg).1.symm

variable (hfirst : ∀ b ∈ baseFiles replies, HostedOn b.1 b.2.pba)

include hfirst

theorem Cluster.entryOf_base {b : String × FilePBA} (hb : b ∈ baseFiles replies) :
    entryOf replies b.1 b.2.fileName = some b.2 := by
  obtain ⟨c, hc⟩ := Option.isSome_iff_exists.1
    (entryOf_isSome (p := b.1) (b := b.2) hb (hfirst b hb) rfl)
  obtain ⟨⟨p, hp⟩, hhost, hname⟩ := entryOf_eq_some hc
  have hpeer : p = b.1 := Option.some.inj ((hfirst _ hp).symm.trans hhost)
  have heq := h.eq_of_path (mem_reported_of_base hp) (mem_reported_of_base hb) hpeer hname
  rw [hc, ← heq]

omit h in
theorem lastNode_eq_lastPeer {n : String} (hne : baseFiles replies ≠ []) :
    lastNode ((baseFiles replies).map Prod.snd) = n ↔ lastPeer replies = some n := by
  have hlast := List.getLast_mem hne
  rw [lastNode, lastPeer, List.getLast?_map, List.getLast?_eq_getLast_of_ne_nil hne]
  generalize (baseFiles replies).getLast hne = b at hlast
  have hhost := hfirst b hlast
  simp only [Option.map_some, Option.bind_some, Option.some.injEq]
  rw [show b.2.pba.head?.map PBA.host = some b.1 from hhost]
  rfl

end Reported

/-! ## The filed shards -/

theorem values_byPath_nodup (l : List FilePBA) : (byPath ∅ l).values.Nodup := by
  refine List.Nodup.of_map FilePBA.fileName ?_
  have hkeys : (byPath ∅ l).values.map FilePBA.fileName = (byPath ∅ l).keys := by
    rw [Dict.values, List.map_map]
    exact List.map_congr_left (fun x hx => names_byPath l x hx)
  rw [hkeys]
  exact (byPath ∅ l).nodupKeys

section Filed

variable {toShard : String → String → Option String} {replies : List (String × List FilePBA)}
  (hfirst : ∀ b ∈ baseFiles replies, HostedOn b.1 b.2.pba) {b : String × FilePBA}
  (hb : b ∈ baseFiles replies)

include hfirst hb

theorem isFiled_iff {s : String × FilePBA} :
    isFiled (lastNode ((baseFiles replies).map Prod.snd)) (ownerOf toShard replies) b.1
      b.2.fileName s.2 = true ↔ OwnedBy toShard replies s b := by
  rw [isFiled, decide_eq_true_iff, OwnedBy, ← lastNode_eq_lastPeer hfirst (List.ne_nil_of_mem hb),
    eq_comm]

/-- The shards that are filed under a base file. -/
theorem mem_values_filed {S : FilePBA} :
    S ∈ (byPath ∅ (filedUnder toShard replies b.1 b.2.fileName)).values ↔
      ∃ s ∈ shardFiles replies, s.2 = S ∧ OwnedBy toShard replies s b ∧ IsLastPath replies s := by
  have hfilter : ∀ s : String × FilePBA, OwnedBy toShard replies s b →
      (filedUnder toShard replies b.1 b.2.fileName).filter
        (fun x => decide (x.fileName = s.2.fileName)) =
      ((shardFiles replies).filter
        (fun y => decide (y.2.fileName = s.2.fileName))).map Prod.snd := by
    intro s hs
    rw [filedUnder, List.filter_filter, List.filter_map]
    refine congrArg (List.map Prod.snd) (List.filter_congr (fun y _ => ?_))
    rw [Function.comp_apply, Bool.and_eq_left_iff_imp, decide_eq_true_iff]
    -- whether a shard is filed depends on its path alone
    intro hy
    refine (isFiled_iff hfirst hb).2 ⟨hs.1, ?_⟩
    rw [hy]
    exact hs.2
  rw [Dict.mem_values_iff]
  constructor
  · rintro ⟨k, hk⟩
    rw [get?_byPath, Dict.get?_empty, Option.or_none] at hk
    obtain ⟨hfiled, hname⟩ := List.mem_filter.1 (List.mem_of_getLast? hk)
    rw [decide_eq_true_iff] at hname
    obtain ⟨hmem, hisf⟩ := List.mem_filter.1 hfiled
    obtain ⟨s, hs, rfl⟩ := List.mem_map.1 hmem
    have hown := (isFiled_iff hfirst hb).1 hisf
    subst hname
    rw [hfilter s hown, List.getLast?_map, Option.map_eq_some_iff] at hk
    obtain ⟨y, hy, hys⟩ := hk
    have hymem := List.mem_filter.1 (List.mem_of_getLast? hy)
    refine ⟨y, hymem.1, hys, ⟨hown.1, ?_⟩, ?_⟩
    · rw [hys]
      exact hown.2
    · rw [IsLastPath, hys]
      exact hy
  · rintro ⟨s, hs, rfl, hown, hlast⟩
    refine ⟨s.2.fileName, ?_⟩
    rw [get?_byPath, Dict.get?_empty, Option.or_none, hfilter s hown, List.getLast?_map, hlast]
    rfl

/-- If exactly the shards of a file are filed under it, they are the same list up to
the order. -/
theorem filed_perm_shardsOf (h : Cluster toShard replies)
    (hjoin : ∀ s ∈ shardFiles replies,
      Belongs toShard s b ↔ OwnedBy toShard replies s b ∧ IsLastPath replies s) :
    (byPath ∅ (filedUnder toShard replies b.1 b.2.fileName)).values.Perm
      (shardsOf toShard replies b) := by
  refine (List.perm_ext_iff_of_nodup (values_byPath_nodup _) ?_).2 (fun S => ?_)
  · have hnd : ((shardFiles replies).filter (fun s => decide (Belongs toShard s b))).Nodup :=
      (h.reported_nodup.filter _).filter _
    refine (List.nodup_map_iff_inj_on hnd).2 (fun s hs s' hs' heq => ?_)
    obtain ⟨hsm, hsb⟩ := List.mem_filter.1 hs
    obtain ⟨hsm', hsb'⟩ := List.mem_filter.1 hs'
    have hl : IsLastPath replies s := ((hjoin s hsm).1 (of_decide_eq_true hsb)).2
    have hl' : IsLastPath replies s' := ((hjoin s' hsm').1 (of_decide_eq_true hsb')).2
    rw [IsLastPath, heq] at hl
    exact Option.some.inj (hl.symm.trans hl')
  · rw [mem_values_filed hfirst hb]
    simp only [shardsOf, List.mem_map, List.mem_filter, decide_eq_true_iff]
    constructor
    · rintro ⟨s, hs, rfl, hown⟩
      exact ⟨s, ⟨hs, (hjoin s hs).2 hown⟩, rfl⟩
    · rintro ⟨s, ⟨hs, hbel⟩, rfl⟩
      exact ⟨s, hs, rfl, (hjoin s hs).1 hbel⟩

end Filed

/-! ## The result -/

section Result

variable {toShard : String → String → Option String} {replies : List (String × List FilePBA)}
  (h : Cluster toShard replies)

include h

theorem Joinable.buildable (hj : Joinable toShard replies) : Buildable toShard replies := by
  refine ⟨fun b hb => ?_, fun hne s hs => ?_⟩
  · obtain ⟨first, hp, hn⟩ := (hj.first b hb).head?
    exact ⟨first, hp, hn ▸ peer_mem (mem_reported_of_base hb)⟩
  · obtain ⟨b, hb, hlast, hown⟩ := hj.owned s hs
    refine ⟨b.2.fileName, hown, ?_⟩
    rw [(lastNode_eq_lastPeer hj.first hne).2 hlast, h.entryOf_base hj.first hb]
    rfl

theorem Joinable.assembled (hj : Joinable toShard replies) : Assembled toShard replies := by
  obtain ⟨t, ht⟩ := init_total (hj.buildable h) h.index
  obtain ⟨built, -⟩ := init_built ht
  refine ⟨t, ht, fun b hb => ?_, fun n f hno => built.absent n f ?_⟩
  · obtain ⟨l, hl, hraw⟩ := built.present _ _ _ (h.entryOf_base hj.first hb)
    have hperm := filed_perm_shardsOf hj.first hb h (fun s hs => hj.joined s hs b hb)
    exact ⟨_, l, hraw, ⟨hl.perm.trans hperm, hl.sorted⟩, rfl⟩
  · rw [← Option.not_isSome_iff_eq_none]
    intro hsome
    obtain ⟨c, hc⟩ := Option.isSome_iff_exists.1 hsome
    obtain ⟨⟨p, hp⟩, hhost, hname⟩ := entryOf_eq_some hc
    exact hno (p, c) hp ⟨Option.some.inj ((hj.first _ hp).symm.trans hhost), hname⟩

/-- A base file that is published with its own extents first is on its peer. -/
theorem Assembled.first (ha : Assembled toShard replies) :
    ∀ b ∈ baseFiles replies, HostedOn b.1 b.2.pba := by
  obtain ⟨t, ht, hpub, -⟩ := ha
  obtain ⟨built, -⟩ := init_built ht
  intro b hb
  obtain ⟨raw, l, hraw, -, hpba⟩ := hpub b hb
  cases he : entryOf replies b.1 b.2.fileName with
  | none =>
    rw [built.absent _ _ he] at hraw
    cases hraw
  | some c =>
    obtain ⟨l', -, hraw'⟩ := built.present _ _ _ he
    obtain ⟨-, hhost, -⟩ := entryOf_eq_some he
    rw [hraw'] at hraw
    cases hraw
    -- the published list starts with an extent of `c`, and with one of `b`
    have hall := hhost.append (l'.flatMap FilePBA.pba)
    rw [show c.pba ++ l'.flatMap FilePBA.pba = _ from hpba] at hall
    obtain ⟨p, hp, -⟩ := h.extent b hb
    cases hbp : b.2.pba with
    | nil =>
      rw [hbp] at hp
      cases hp
    | cons e rest =>
      rw [hbp] at hall
      exact hall

omit h in
/-- An extent tells which report it is from. -/
theorem Distinct.eq_of_mem (hd : Distinct replies) {x y : String × FilePBA} {e : PBA}
    (hx : x ∈ reported replies) (hy : y ∈ reported replies) (hex : e ∈ x.2.pba)
    (hey : e ∈ y.2.pba) : x = y := by
  have hdis := (List.nodup_flatMap.1 hd.nodup).2
  by_contra hne
  have hsymm : Std.Symm (Function.onFun List.Disjoint (fun x : String × FilePBA => x.2.pba)) :=
    ⟨fun _ _ hab => hab.symm⟩
  exact (hdis.forall hx hy hne) hex hey

theorem Assembled.joinable (hd : Distinct replies) (ha : Assembled toShard replies) :
    Joinable toShard replies := by
  have hfirst := ha.first h
  obtain ⟨t, ht, hpub, -⟩ := ha
  obtain ⟨built, buildable⟩ := init_built ht
  refine ⟨hfirst, fun s hs => ?_, fun s hs b hb => ?_⟩
  · obtain ⟨b₀, hb₀, -⟩ := h.owned s hs
    have hne := List.ne_nil_of_mem hb₀
    obtain ⟨fname, hown, hsome⟩ := buildable.owned hne s hs
    obtain ⟨c, hc⟩ := Option.isSome_iff_exists.1 hsome
    obtain ⟨⟨p, hp⟩, hhost, rfl⟩ := entryOf_eq_some hc
    refine ⟨(p, c), hp, (lastNode_eq_lastPeer hfirst hne).1 ?_, hown⟩
    exact Option.some.inj (hhost.symm.trans (hfirst _ hp))
  · obtain ⟨raw, l, hraw, hl, hpba⟩ := hpub b hb
    obtain ⟨l', hl', hraw'⟩ := built.present _ _ _ (h.entryOf_base hfirst hb)
    rw [hraw'] at hraw
    cases hraw
    have hext : l'.flatMap FilePBA.pba = l.flatMap FilePBA.pba := List.append_cancel_left hpba
    have hl_mem : ∀ S, S ∈ l ↔ ∃ y ∈ shardFiles replies, Belongs toShard y b ∧ y.2 = S := by
      intro S
      rw [hl.perm.mem_iff]
      simp only [shardsOf, List.mem_map, List.mem_filter, decide_eq_true_iff, and_assoc]
    have hl'_mem : ∀ S, S ∈ l' ↔ ∃ y ∈ shardFiles replies, y.2 = S ∧
        OwnedBy toShard replies y b ∧ IsLastPath replies y := by
      intro S
      rw [hl'.perm.mem_iff, mem_values_filed hfirst hb]
    obtain ⟨e, he⟩ := List.exists_mem_of_ne_nil _ (hd.nonempty s hs)
    constructor
    · intro hbel
      have hmem : e ∈ l'.flatMap FilePBA.pba := by
        rw [hext]
        exact List.mem_flatMap.2 ⟨s.2, (hl_mem s.2).2 ⟨s, hs, hbel, rfl⟩, he⟩
      obtain ⟨S, hS, heS⟩ := List.mem_flatMap.1 hmem
      obtain ⟨y, hy, rfl, hown⟩ := (hl'_mem S).1 hS
      rw [hd.eq_of_mem (mem_reported_of_shard hs) (mem_reported_of_shard hy) he heS]
      exact hown
    · intro hown
      have hmem : e ∈ l.flatMap FilePBA.pba := by
        rw [← hext]
        exact List.mem_flatMap.2 ⟨s.2, (hl'_mem s.2).2 ⟨s, hs, rfl, hown⟩, he⟩
      obtain ⟨S, hS, heS⟩ := List.mem_flatMap.1 hmem
      obtain ⟨y, hy, hbel, rfl⟩ := (hl_mem S).1 hS
      rw [hd.eq_of_mem (mem_reported_of_shard hs) (mem_reported_of_shard hy) he heS]
      exact hbel

end Result

/-- **When start-up assembles the files right**: whenever the replies are joinable, and,
unless two extents or an empty shard hide a mistake, only then. -/
theorem assembled_iff {toShard : String → String → Option String}
    {replies : List (String × List FilePBA)} (h : Cluster toShard replies) :
    (Joinable toShard replies → Assembled toShard replies) ∧
      (Distinct replies → (Assembled toShard replies ↔ Joinable toShard replies)) :=
  ⟨fun hj => hj.assembled h, fun hd => ⟨fun ha => ha.joinable h hd, fun hj => hj.assembled h⟩⟩

def gfids (f : String) (_ : String) : Option String :=
  if f = "/vol/a" then some "5f" else if f = "/vol/b" then some "6a" else none

def onePeer : List (String × List FilePBA) :=
  [("node1", [
    { pba := [.blockAt "node1" (.lit 0)], fileName := "/vol/a", type := "Distribute" },
    { pba := [.blockAt "node1" (.lit 8192)], fileName := "/vol/.shard/5f.1",
      type := "Distribute" }])]

/-- The same, and another peer with a file that is reported later. -/
def twoPeers : List (String × List FilePBA) :=
  onePeer ++ [("node2", [
    { pba := [.blockAt "node2" (.lit 0)], fileName := "/vol/b", type := "Distribute" }])]

theorem onePeer_assembled : Assembled gfids onePeer := by
  have h : Cluster gfids onePeer := by
    refine ⟨by decide, by decide, by decide, by decide, fun s hs => ⟨1, ?_⟩⟩
    revert s
    decide
  exact (assembled_iff h).1 ⟨by decide, by decide, by decide⟩

/-- The constructor looks for the file of the shard on the other peer, and raises. -/
theorem twoPeers_not_assembled : Cluster gfids twoPeers ∧ ¬ Assembled gfids twoPeers := by
  refine ⟨⟨by decide, by decide, by decide, by decide, fun s hs => ⟨1, ?_⟩⟩, ?_⟩
  · revert s
    decide
  · rintro ⟨t, ht, -⟩
    have herr : (init gfids twoPeers).isOk = false := by decide
    rw [ht] at herr
    cases herr

end Lba2Pba.Trace
