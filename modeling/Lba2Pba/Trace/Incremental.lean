import Lba2Pba.Trace.Replies
import Lba2Pba.Trace.Publish

/-!
# Start-up against one message at a time

A node's files can reach the service in two ways: in the `WInit` reply, or one
`create` after the other. The two ways publish the same exactly when no path has
`.shard` in it (`agrees_iff`): a `create` of such a path never reaches `rawFM`, while
the constructor adds the extents of a shard to its file, and takes only paths with
`/.shard/` for shards.
-/

namespace Lba2Pba.Trace

open Py

/-- The files of one node: paths are distinct, every file has extents, all on the
node, and a shard has an index and a base file with its gfid. -/
structure NodeFiles (toShard : String → String → Option String) (n : String)
    (files : List FilePBA) : Prop where
  names : (files.map FilePBA.fileName).Nodup
  hosted : ∀ f ∈ files, HostedOn n f.pba
  owned : ∀ s ∈ files, isShardFile s = true → ∃ b ∈ files, isShardFile b = false ∧
    toShard b.fileName n = some (shardKey s.fileName)
  index : ∀ s ∈ files, isShardFile s = true → ∃ i, shardIndex s.fileName = .ok i

/-- The object after a `create` for each file. -/
def delivered (t : Trace) (l : List (Env × FilePBA)) : Trace :=
  t.runAll (l.map (fun x => (x.1, ⟨"create", x.2⟩)))

/-- An empty volume and then the messages, or all the files at start-up. -/
def Agrees (toShard : String → String → Option String) (n : String) (files : List FilePBA)
    (l : List (Env × FilePBA)) : Prop :=
  ∃ t₀ t, init toShard [(n, [])] = .ok t₀ ∧ init toShard [(n, files)] = .ok t ∧
    ∀ m g, (delivered t₀ l).rawFM.get2? m g = t.rawFM.get2? m g

/-! ## The messages -/

/-- The entry that a `create` publishes. -/
def rawOf (f : FilePBA) : FilePBA := { pba := f.pba, fileName := f.fileName, type := f.type }

theorem delivered_snoc (t : Trace) (l : List (Env × FilePBA)) (x : Env × FilePBA) :
    delivered t (l ++ [x]) = (delivered t l).after x.1.toShard ⟨"create", x.2⟩ := by
  simp only [delivered, runAll, List.map_append, List.map_cons, List.map_nil, List.foldl_append,
    List.foldl_cons, List.foldl_nil]
  rw [tChangeFile_self]

/-- One `create`: a path with `.shard` is not published. -/
theorem raw_after_create {t : Trace} {n : String} {f : FilePBA} (h : Sound t)
    (hn : n ∈ t.fmDict.keys) (hf : HostedOn n f.pba)
    (toShard : String → String → Option String) (m g : String) :
    (t.after toShard ⟨"create", f⟩).rawFM.get2? m g =
      if isShard f.fileName = false ∧ n = m ∧ f.fileName = g then some (rawOf f)
      else t.rawFM.get2? m g := by
  obtain ⟨first, hp, rfl⟩ := hf.head?
  cases hs : isShard f.fileName with
  | true =>
    rw [if_neg (fun hc => Bool.noConfusion hc.1)]
    rw [after_createShard toShard t (r := ⟨"create", f⟩) hp rfl hs, rawFM_putShard]
  | false =>
    have hcell := congrArg Cell.raw (cell_after_base toShard (r := ⟨"create", f⟩)
      hp hs (h.knows hn) m g)
    refine hcell.trans ?_
    by_cases hc : first.host = m ∧ f.fileName = g
    · rw [if_pos hc, if_pos ⟨rfl, hc⟩]
      rfl
    · rw [if_neg hc, if_neg (fun hx => hc hx.2)]
      rfl

/-- What the messages publish. -/
structure Delivered (n : String) (l : List (Env × FilePBA)) (t : Trace) : Prop where
  present : ∀ x ∈ l, isShard x.2.fileName = false →
    t.rawFM.get2? n x.2.fileName = some (rawOf x.2)
  absent : ∀ m g, (∀ x ∈ l, isShard x.2.fileName = false → n = m → x.2.fileName ≠ g) →
    t.rawFM.get2? m g = none

theorem delivered_spec {t : Trace} (ht : Reachable t) {n : String} (hn : n ∈ t.fmDict.keys)
    (hempty : ∀ m g, t.rawFM.get2? m g = none) (l : List (Env × FilePBA))
    (hnames : ((l.map Prod.snd).map FilePBA.fileName).Nodup)
    (hhost : ∀ x ∈ l, HostedOn n x.2.pba) : Delivered n l (delivered t l) := by
  induction l using List.reverseRecOn with
  | nil => exact ⟨fun x hx => absurd hx List.not_mem_nil, fun m g _ => hempty m g⟩
  | append_singleton l x ih =>
    have hs : Sound (delivered t l) := (ht.runAll _).sound
    have hn' : n ∈ (delivered t l).fmDict.keys := by
      rw [delivered, (sameNodes_runAll _ t).1]
      exact hn
    simp only [List.map_append, List.map_cons, List.map_nil] at hnames
    obtain ⟨hnames, -, hnew⟩ := List.nodup_append.1 hnames
    have ih := ih hnames (fun y hy => hhost y (List.mem_append_left _ hy))
    have hraw := raw_after_create hs hn' (hhost x (by simp)) x.1.toShard
    rw [delivered_snoc]
    refine ⟨fun y hy hys => ?_, fun m g hno => ?_⟩
    · rw [hraw]
      rcases List.mem_append.1 hy with hy | hy
      · have hne : x.2.fileName ≠ y.2.fileName := fun he =>
          hnew _ (List.mem_map_of_mem (List.mem_map_of_mem hy)) _ List.mem_cons_self he.symm
        rw [if_neg (fun hc => hne hc.2.2)]
        exact ih.present y hy hys
      · cases List.mem_singleton.1 hy
        rw [if_pos ⟨hys, rfl, rfl⟩]
    · rw [hraw, if_neg (fun hc => hno x (by simp) hc.1 hc.2.1 hc.2.2)]
      exact ih.absent m g (fun y hy => hno y (List.mem_append_left _ hy))

/-! ## The constructor on one node -/

section OneNode

variable {toShard : String → String → Option String} {n : String} {files : List FilePBA}

theorem reported_single : reported [(n, files)] = files.map (fun f => (n, f)) := by
  simp [reported]

theorem mem_baseFiles_single {x : String × FilePBA} :
    x ∈ baseFiles [(n, files)] ↔ x.1 = n ∧ x.2 ∈ files ∧ isShardFile x.2 = false := by
  obtain ⟨m, f⟩ := x
  simp only [baseFiles, reported_single, List.mem_filter, List.mem_map, Prod.mk.injEq,
    Bool.not_eq_true']
  constructor
  · rintro ⟨⟨a, ha, rfl, rfl⟩, hs⟩
    exact ⟨rfl, ha, hs⟩
  · rintro ⟨rfl, hf, hs⟩
    exact ⟨⟨f, hf, rfl, rfl⟩, hs⟩

theorem mem_shardFiles_single {x : String × FilePBA} :
    x ∈ shardFiles [(n, files)] ↔ x.1 = n ∧ x.2 ∈ files ∧ isShardFile x.2 = true := by
  obtain ⟨m, f⟩ := x
  simp only [shardFiles, reported_single, List.mem_filter, List.mem_map, Prod.mk.injEq]
  constructor
  · rintro ⟨⟨a, ha, rfl, rfl⟩, hs⟩
    exact ⟨rfl, ha, hs⟩
  · rintro ⟨rfl, hf, hs⟩
    exact ⟨⟨f, hf, rfl, rfl⟩, hs⟩

variable (h : NodeFiles toShard n files)

include h

theorem NodeFiles.eq_of_name {a b : FilePBA} (ha : a ∈ files) (hb : b ∈ files)
    (hab : a.fileName = b.fileName) : a = b :=
  List.inj_on_of_nodup_map h.names ha hb hab

theorem NodeFiles.entryOf_base {b : FilePBA} (hb : b ∈ files) (hs : isShardFile b = false) :
    entryOf [(n, files)] n b.fileName = some b := by
  have hmem : (n, b) ∈ baseFiles [(n, files)] := mem_baseFiles_single.2 ⟨rfl, hb, hs⟩
  obtain ⟨c, hc⟩ := Option.isSome_iff_exists.1 (entryOf_isSome hmem (h.hosted b hb) rfl)
  obtain ⟨⟨p, hp⟩, -, hname⟩ := entryOf_eq_some hc
  have hcb : c = b := h.eq_of_name (mem_baseFiles_single.1 hp).2.1 hb hname
  rw [hc, hcb]

theorem NodeFiles.lastNode_eq (hne : baseFiles [(n, files)] ≠ []) :
    lastNode ((baseFiles [(n, files)]).map Prod.snd) = n := by
  have hne' : (baseFiles [(n, files)]).map Prod.snd ≠ [] := by simpa using hne
  have hlast := List.getLast_mem hne'
  rw [lastNode, List.getLast?_eq_getLast_of_ne_nil hne']
  generalize (List.map Prod.snd (baseFiles [(n, files)])).getLast hne' = b at hlast
  obtain ⟨x, hx, rfl⟩ := List.mem_map.1 hlast
  have hhost := h.hosted x.2 (mem_baseFiles_single.1 hx).2.1
  rw [Option.bind_some, show x.2.pba.head?.map PBA.host = some n from hhost]
  rfl

end OneNode

/-! ## The two ways -/

theorem isShard_of_isShardFile {f : FilePBA} (h : isShardFile f = true) :
    isShard f.fileName = true :=
  Str.isIn_trans (by decide) h

section Agree

variable {toShard : String → String → Option String} {n : String} {files : List FilePBA}
  (h : NodeFiles toShard n files)

include h

theorem NodeFiles.known : ∀ x ∈ baseFiles [(n, files)], ∃ first, x.2.pba.head? = some first ∧
    first.host ∈ [(n, files)].map Prod.fst := by
  intro x hx
  obtain ⟨first, hp, hn⟩ := (h.hosted x.2 (mem_baseFiles_single.1 hx).2.1).head?
  exact ⟨first, hp, by simp [hn]⟩

/-- Without `.shard` in any path the constructor publishes what the messages do. -/
theorem NodeFiles.init_of_no_shard (hno : ∀ f ∈ files, isShard f.fileName = false) :
    ∃ t, init toShard [(n, files)] = .ok t ∧
      (∀ f ∈ files, t.rawFM.get2? n f.fileName = some (rawOf f)) ∧
      ∀ m g, (∀ f ∈ files, n = m → f.fileName ≠ g) → t.rawFM.get2? m g = none := by
  have hbase : ∀ f ∈ files, isShardFile f = false := by
    intro f hf
    rw [← Bool.not_eq_true]
    intro hs
    exact Bool.false_ne_true ((hno f hf).symm.trans (isShard_of_isShardFile hs))
  have hshards : shardFiles [(n, files)] = [] := by
    rw [List.eq_nil_iff_forall_not_mem]
    intro x hx
    obtain ⟨-, hf, hs⟩ := mem_shardFiles_single.1 hx
    exact Bool.false_ne_true ((hbase x.2 hf).symm.trans hs)
  have hnone : ∀ x ∈ shardFiles [(n, files)], False := by simp [hshards]
  have hbuild : Buildable toShard [(n, files)] := ⟨h.known, fun _ x hx => (hnone x hx).elim⟩
  obtain ⟨t, ht⟩ := init_total hbuild (fun x hx => (hnone x hx).elim)
  obtain ⟨built, -⟩ := init_built ht
  refine ⟨t, ht, fun f hf => ?_, fun m g hmg => ?_⟩
  · obtain ⟨l, hl, hraw⟩ := built.present n f.fileName f (h.entryOf_base hf (hbase f hf))
    have hnil : l = [] := by
      refine List.eq_nil_iff_forall_not_mem.2 (fun s hs => ?_)
      have hfiled := mem_of_byPath (hl.perm.mem_iff.1 hs)
      rw [filedUnder, hshards] at hfiled
      cases hfiled
    rw [hraw, hnil]
    simp [rawOf]
  · cases he : entryOf [(n, files)] m g with
    | none => exact built.absent m g he
    | some b =>
      obtain ⟨⟨p, hp⟩, hm, hg⟩ := entryOf_eq_some he
      have hb := (mem_baseFiles_single.1 hp).2.1
      have hmn : n = m := Option.some.inj ((h.hosted b hb).symm.trans hm)
      exact absurd hg (hmg b hb hmn)

/-- With `.shard` in some path the constructor publishes something that no message does. -/
theorem NodeFiles.init_of_shard {f : FilePBA} (hf : f ∈ files) (hs : isShard f.fileName = true)
    {t : Trace} (ht : init toShard [(n, files)] = .ok t) :
    ∃ b ∈ files, ∃ raw, t.rawFM.get2? n b.fileName = some raw ∧
      (isShard b.fileName = true ∨ raw.pba ≠ b.pba) := by
  obtain ⟨built, buildable⟩ := init_built ht
  cases hsf : isShardFile f with
  | false =>
    obtain ⟨l, -, hraw⟩ := built.present n f.fileName f (h.entryOf_base hf hsf)
    exact ⟨f, hf, _, hraw, .inl hs⟩
  | true =>
    -- a shard is filed under some file of the node, and has extents
    have hmem : (n, f) ∈ shardFiles [(n, files)] := mem_shardFiles_single.2 ⟨rfl, hf, hsf⟩
    obtain ⟨b₀, hb₀, hb₀s, -⟩ := h.owned f hf hsf
    have hne : baseFiles [(n, files)] ≠ [] :=
      List.ne_nil_of_mem (mem_baseFiles_single.2 ⟨rfl, hb₀, hb₀s⟩ : (n, b₀) ∈ _)
    obtain ⟨fname, hown, hsome⟩ := buildable.owned hne (n, f) hmem
    have hnode := h.lastNode_eq hne
    rw [hnode] at hsome
    obtain ⟨b, hb⟩ := Option.isSome_iff_exists.1 hsome
    obtain ⟨⟨p, hp⟩, -, rfl⟩ := entryOf_eq_some hb
    obtain ⟨l, hl, hraw⟩ := built.present n b.fileName b hb
    refine ⟨b, (mem_baseFiles_single.1 hp).2.1, _, hraw, .inr ?_⟩
    have hfiled : f ∈ filedUnder toShard [(n, files)] n b.fileName := by
      refine List.mem_filter.2 ⟨List.mem_map.2 ⟨_, hmem, rfl⟩, ?_⟩
      rw [isFiled, hnode]
      exact decide_eq_true ⟨rfl, hown⟩
    obtain ⟨s, hsval, -⟩ := exists_mem_byPath hfiled
    have hsl : s ∈ l := hl.perm.mem_iff.2 hsval
    obtain ⟨y, hy, rfl⟩ := List.mem_map.1 (List.mem_filter.1 (mem_of_byPath hsval)).1
    obtain ⟨first, hfirst, -⟩ := (h.hosted y.2 (mem_shardFiles_single.1 hy).2.1).head?
    intro hpba
    have hnil : l.flatMap FilePBA.pba = [] := List.append_right_eq_self.1 hpba
    rw [List.flatMap_eq_nil_iff.1 hnil y.2 hsl] at hfirst
    cases hfirst

end Agree

/-- **When start-up and the messages agree**: for the files of one node and every order
of their `create` messages, exactly when no path has `.shard` in it. -/
theorem agrees_iff {toShard : String → String → Option String} {n : String}
    {files : List FilePBA} (h : NodeFiles toShard n files) {l : List (Env × FilePBA)}
    (hl : (l.map Prod.snd).Perm files) :
    Agrees toShard n files l ↔ ∀ f ∈ files, isShard f.fileName = false := by
  have hnames : ((l.map Prod.snd).map FilePBA.fileName).Nodup :=
    (hl.map FilePBA.fileName).nodup_iff.2 h.names
  have hmem : ∀ f, (∃ x ∈ l, x.2 = f) ↔ f ∈ files := by
    intro f
    rw [← hl.mem_iff, List.mem_map]
  have hhost : ∀ x ∈ l, HostedOn n x.2.pba := fun x hx => h.hosted x.2 ((hmem x.2).1 ⟨x, hx, rfl⟩)
  -- an empty volume
  let t₀ : Trace := ⟨[], peerDicts [n], peerDicts [n], ∅⟩
  have h₀ : init toShard [(n, [])] = .ok t₀ := rfl
  have spec := delivered_spec (.init h₀) (mem_peerDicts.2 List.mem_cons_self)
    (get2?_peerDicts [n]) l hnames hhost
  constructor
  · rintro ⟨t₀', t, h₀', ht, hagree⟩ f hf
    rw [h₀] at h₀'
    cases h₀'
    rw [← Bool.not_eq_true]
    intro hs
    obtain ⟨b, hb, raw, hraw, hdiff⟩ := h.init_of_shard hf hs ht
    rw [← hagree] at hraw
    by_cases hbs : isShard b.fileName = true
    · have habs := spec.absent n b.fileName (fun x hx hxs _ hname => by
        have hxb := h.eq_of_name ((hmem x.2).1 ⟨x, hx, rfl⟩) hb hname
        rw [hxb, hbs] at hxs
        cases hxs)
      rw [habs] at hraw
      cases hraw
    · obtain ⟨x, hx, rfl⟩ := (hmem b).2 hb
      rw [spec.present x hx (by simpa using hbs)] at hraw
      cases hraw
      exact hdiff.elim hbs (fun hne => hne rfl)
  · intro hno
    obtain ⟨t, ht, hpres, habs⟩ := h.init_of_no_shard hno
    refine ⟨t₀, t, h₀, ht, fun m g => ?_⟩
    by_cases hex : ∃ f ∈ files, n = m ∧ f.fileName = g
    · obtain ⟨f, hf, rfl, rfl⟩ := hex
      obtain ⟨x, hx, rfl⟩ := (hmem f).2 hf
      rw [spec.present x hx (hno x.2 hf), hpres x.2 hf]
    · have hnone : ∀ f ∈ files, n = m → f.fileName ≠ g := fun f hf hn hg => hex ⟨f, hf, hn, hg⟩
      rw [habs m g hnone]
      exact spec.absent m g (fun x hx _ => hnone x.2 ((hmem x.2).1 ⟨x, hx, rfl⟩))

def fileA : FilePBA :=
  { pba := [.blockAt "node1" (.lit 0)], fileName := "/vol/a", type := "Distribute" }

/-- Two files, delivered in the other order. -/
theorem twoFiles_agree : Agrees oneGfid.toShard "node1" [fileA, createOther.filePba]
    [(oneGfid, createOther.filePba), (oneGfid, fileA)] := by
  have hno : ∀ f ∈ [fileA, createOther.filePba], isShardFile f ≠ true := by decide
  have h : NodeFiles oneGfid.toShard "node1" [fileA, createOther.filePba] :=
    ⟨by decide, by decide, fun s hs hsh => absurd hsh (hno s hs),
      fun s hs hsh => absurd hsh (hno s hs)⟩
  have hperm : ([(oneGfid, createOther.filePba), (oneGfid, fileA)].map Prod.snd).Perm
      [fileA, createOther.filePba] := List.Perm.swap fileA createOther.filePba []
  exact (agrees_iff h hperm).2 (by decide)

/-- The first shard of that file. -/
def shardA : FilePBA :=
  { pba := [.blockAt "node1" (.lit 8192)], fileName := "/vol/.shard/5f.1", type := "Distribute" }

/-- A file and its shard: the messages leave the shard out. -/
theorem fileAndShard_not_agree : NodeFiles oneGfid.toShard "node1" [fileA, shardA] ∧
    ¬ Agrees oneGfid.toShard "node1" [fileA, shardA] [(oneGfid, fileA), (oneGfid, shardA)] := by
  refine ⟨⟨by decide, by decide, fun s hs hsh => ?_, fun s hs hsh => ?_⟩, ?_⟩
  · rcases List.mem_cons.1 hs with rfl | hs
    · exact absurd hsh (by decide)
    · cases List.mem_singleton.1 hs
      exact ⟨fileA, List.mem_cons_self, by decide, by decide⟩
  · rcases List.mem_cons.1 hs with rfl | hs
    · exact absurd hsh (by decide)
    · cases List.mem_singleton.1 hs
      exact ⟨1, by decide⟩
  · rintro ⟨t₀, t, h₀, ht, hagree⟩
    have h1 : (init oneGfid.toShard [("node1", [])]).map (fun t₀ =>
        ((delivered t₀ [(oneGfid, fileA), (oneGfid, shardA)]).rawFM.get2? "node1" "/vol/a").map
          (fun x => x.pba.length)) = .ok (some 1) := by decide
    have h2 : (init oneGfid.toShard [("node1", [fileA, shardA])]).map (fun t =>
        (t.rawFM.get2? "node1" "/vol/a").map (fun x => x.pba.length)) = .ok (some 2) := by decide
    rw [h₀, Except.map, hagree] at h1
    rw [ht, Except.map, Except.ok.inj h1] at h2
    exact absurd h2 (by decide)

end Lba2Pba.Trace
