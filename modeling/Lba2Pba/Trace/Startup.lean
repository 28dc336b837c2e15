import Lba2Pba.Py.Loop
import Lba2Pba.Trace.Service

/-!
# What `Trace.__init__` builds

One lemma for each of its loops: over the peers, the base files, the shards, and
the entries that are published.
-/

namespace Lba2Pba.Trace

open Py

/-- The first extent is on node `n`. -/
def HostedOn (n : String) (pba : List PBA) : Prop := pba.head?.map PBA.host = some n

instance (n : String) (pba : List PBA) : Decidable (HostedOn n pba) :=
  inferInstanceAs (Decidable (_ = _))

theorem HostedOn.head? {n : String} {pba : List PBA} (h : HostedOn n pba) :
    ∃ first, pba.head? = some first ∧ first.host = n :=
  Option.map_eq_some_iff.1 h

theorem HostedOn.ne_nil {n : String} {pba : List PBA} (h : HostedOn n pba) : pba ≠ [] := by
  rintro rfl
  cases h

theorem HostedOn.append {n : String} {pba : List PBA} (h : HostedOn n pba) (more : List PBA) :
    HostedOn n (pba ++ more) := by
  cases pba with
  | nil => cases h
  | cons p rest => exact h

/-! ## The peers -/

section Peers

variable {α β : Type}

theorem keys_foldl_set (peers : List String) {d : Dict String (Dict String α)}
    {e : Dict String (Dict String β)} (h : d.keys = e.keys) :
    (peers.foldl (fun d p => d.set p ∅) d).keys = (peers.foldl (fun e p => e.set p ∅) e).keys := by
  induction peers generalizing d e with
  | nil => exact h
  | cons p peers ih =>
    refine ih ?_
    rw [Dict.keys_set, Dict.keys_set, h]

theorem keys_peerDicts (peers : List String) :
    (peerDicts peers : Dict String (Dict String α)).keys =
      (peerDicts peers : Dict String (Dict String β)).keys :=
  keys_foldl_set peers rfl

theorem get?_foldl_set (peers : List String) (n : String) (d : Dict String (Dict String α)) :
    (peers.foldl (fun d p => d.set p ∅) d).get? n =
      if n ∈ peers then some ∅ else d.get? n := by
  induction peers generalizing d with
  | nil => simp
  | cons p peers ih =>
    rw [List.foldl_cons, ih, Dict.get?_set]
    by_cases hp : p = n
    · subst hp
      simp
    · by_cases hn : n ∈ peers
      · simp [hn]
      · simp [hn, hp, Ne.symm hp]

theorem mem_peerDicts {peers : List String} {n : String} :
    n ∈ (peerDicts peers : Dict String (Dict String α)).keys ↔ n ∈ peers := by
  rw [Dict.mem_keys_iff, peerDicts, get?_foldl_set]
  by_cases h : n ∈ peers <;> simp [h]

@[simp] theorem get2?_peerDicts (peers : List String) (n f : String) :
    (peerDicts peers : Dict String (Dict String α)).get2? n f = none := by
  rw [Dict.get2?, peerDicts, get?_foldl_set]
  by_cases h : n ∈ peers <;> simp [h]

end Peers

/-! ## One base file, one shard -/

/-- A base file that can be entered. -/
theorem enterBase_ok {d : Dict String (Dict String Entry)} {f : FilePBA} {first : PBA}
    (hp : f.pba.head? = some first) (hn : first.host ∈ d.keys) :
    ∃ d', enterBase d f = .ok d' ∧ d'.keys = d.keys ∧ ∀ m g, d'.get2? m g =
      if first.host = m ∧ f.fileName = g then
        some ((d.get2? m g).getD ⟨∅, f.pba, f.type⟩) else d.get2? m g := by
  obtain ⟨files, hf⟩ := Dict.mem_keys_iff.1 hn
  obtain ⟨rest, hpba⟩ := List.head?_eq_some_iff.1 hp
  have hget : d.get2? first.host f.fileName = files.get? f.fileName := Dict.get2?_of_get? hf
  simp only [enterBase, hpba, hf]
  cases hc : files.contains f.fileName with
  | true =>
    obtain ⟨e, he⟩ := Dict.contains_iff.1 hc
    refine ⟨d, rfl, rfl, fun m g => ?_⟩
    split
    · rename_i h
      obtain ⟨rfl, rfl⟩ := h
      rw [hget, he]
      rfl
    · rfl
  | false =>
    have he := Dict.contains_eq_false.1 hc
    refine ⟨_, rfl, Dict.keys_set2 .., fun m g => ?_⟩
    rw [Dict.get2?_set2 hn]
    split
    · rename_i h
      obtain ⟨rfl, rfl⟩ := h
      rw [hget, he]
      rfl
    · rfl

theorem enterBase_inv {d d' : Dict String (Dict String Entry)} {f : FilePBA}
    (h : enterBase d f = .ok d') :
    ∃ first, f.pba.head? = some first ∧ first.host ∈ d.keys := by
  unfold enterBase at h
  cases hp : f.pba with
  | nil =>
    rw [hp] at h
    cases h
  | cons first rest =>
    rw [hp] at h
    simp only at h
    refine ⟨first, rfl, ?_⟩
    cases hf : d.get? first.host with
    | none =>
      rw [hf] at h
      cases h
    | some files => exact Dict.mem_keys_iff.2 ⟨files, hf⟩

theorem enterShard_ok {node fname : String} {shardDict : Dict (Option String) String}
    {d : Dict String (Dict String Entry)} {s : FilePBA} {entry : Entry}
    (hk : shardDict.get? (some (shardKey s.fileName)) = some fname)
    (he : d.get2? node fname = some entry) :
    enterShard node shardDict d s =
      .ok (d.set2 node fname { entry with shard := entry.shard.set s.fileName s }) := by
  simp [enterShard, hk, he]

theorem enterShard_inv {node : String} {shardDict : Dict (Option String) String}
    {d d' : Dict String (Dict String Entry)} {s : FilePBA}
    (h : enterShard node shardDict d s = .ok d') :
    ∃ fname entry, shardDict.get? (some (shardKey s.fileName)) = some fname ∧
      d.get2? node fname = some entry ∧
      d' = d.set2 node fname { entry with shard := entry.shard.set s.fileName s } := by
  unfold enterShard at h
  split at h
  · cases h
  · rename_i fname hk
    split at h
    · cases h
    · rename_i entry he
      cases h
      exact ⟨fname, entry, hk, he, rfl⟩

/-! ## The published entries -/

section Publish

variable {d : Dict String (Dict String Entry)} {raw₀ raw : Dict String (Dict String FilePBA)}

/-- The files of `done` are published and the others are as they were. -/
structure Published (raw₀ : Dict String (Dict String FilePBA))
    (done : List ((String × String) × Entry)) (raw : Dict String (Dict String FilePBA)) : Prop where
  keys : raw.keys = raw₀.keys
  entry : ∀ n f e, ((n, f), e) ∈ done → ∃ x, assemble f e = .ok x ∧ raw.get2? n f = some x
  other : ∀ n f, (n, f) ∉ done.map Prod.fst → raw.get2? n f = raw₀.get2? n f

theorem Published.nil : Published raw₀ [] raw₀ :=
  ⟨rfl, fun _ _ _ h => absurd h List.not_mem_nil, fun _ _ _ => rfl⟩

theorem Published.snoc {done : List ((String × String) × Entry)} {n f : String} {e : Entry}
    {x : FilePBA} (h : Published raw₀ done raw) (hn : n ∈ raw₀.keys)
    (hnew : (n, f) ∉ done.map Prod.fst) (hx : assemble f e = .ok x) :
    Published raw₀ (done ++ [((n, f), e)]) (raw.set2 n f x) := by
  have hget : ∀ m g, (raw.set2 n f x).get2? m g =
      if n = m ∧ f = g then some x else raw.get2? m g :=
    fun m g => Dict.get2?_set2 (h.keys ▸ hn)
  refine ⟨by rw [Dict.keys_set2, h.keys], fun m g e' he' => ?_, fun m g hmg => ?_⟩
  · rcases List.mem_append.1 he' with he' | he'
    · obtain ⟨y, hy, hr⟩ := h.entry m g e' he'
      refine ⟨y, hy, ?_⟩
      rw [hget, if_neg, hr]
      rintro ⟨rfl, rfl⟩
      exact hnew (List.mem_map.2 ⟨_, he', rfl⟩)
    · simp only [List.mem_singleton, Prod.mk.injEq] at he'
      obtain ⟨⟨rfl, rfl⟩, rfl⟩ := he'
      exact ⟨x, hx, by rw [hget, if_pos ⟨rfl, rfl⟩]⟩
  · simp only [List.map_append, List.map_cons, List.map_nil, List.mem_append, List.mem_singleton,
      Prod.mk.injEq, not_or] at hmg
    rw [hget, if_neg (fun hc => hmg.2 ⟨hc.1.symm, hc.2.symm⟩)]
    exact h.other m g hmg.1

/-- The keys of an iteration are new, and its node is known. -/
theorem flat_split {done rest : List ((String × String) × Entry)} {x : (String × String) × Entry}
    (h : d.flat = done ++ x :: rest) : x.1 ∉ done.map Prod.fst ∧ x.1.1 ∈ d.keys := by
  refine ⟨fun hm => ?_, ?_⟩
  · have hn := Dict.flat_nodup d
    rw [h, List.map_append, List.map_cons] at hn
    exact (List.nodup_append.1 hn).2.2 x.1 hm x.1 List.mem_cons_self rfl
  · obtain ⟨⟨n, f⟩, e⟩ := x
    refine Dict.mem_keys_of_get2? (f := f) (v := e) (Dict.mem_flat_iff.1 ?_)
    rw [h]
    exact List.mem_append_right _ List.mem_cons_self

theorem assembleAll_inv (hk : ∀ n ∈ d.keys, n ∈ raw₀.keys) (h : assembleAll d raw₀ = .ok raw) :
    Published raw₀ d.flat raw := by
  refine foldlM_inv .nil (fun done x rest hl t t' ht hx => ?_) h
  obtain ⟨⟨n, f⟩, e⟩ := x
  obtain ⟨hnew, hn⟩ := flat_split hl
  obtain ⟨y, hy, hx⟩ := bind_eq_ok.1 hx
  cases hx
  exact ht.snoc (hk n hn) hnew hy

theorem assembleAll_total (hk : ∀ n ∈ d.keys, n ∈ raw₀.keys)
    (h : ∀ n f e, d.get2? n f = some e → ∃ x, assemble f e = .ok x) :
    ∃ raw, assembleAll d raw₀ = .ok raw ∧ Published raw₀ d.flat raw := by
  refine foldlM_total .nil (fun done x rest hl t ht => ?_)
  obtain ⟨⟨n, f⟩, e⟩ := x
  obtain ⟨hnew, hn⟩ := flat_split hl
  obtain ⟨y, hy⟩ := h n f e (Dict.mem_flat_iff.1 (by
    rw [hl]
    exact List.mem_append_right _ List.mem_cons_self))
  refine ⟨t.set2 n f y, ?_, ht.snoc (hk n hn) hnew hy⟩
  simp only [hy]
  rfl

end Publish

theorem assemble_inv {fname : String} {entry : Entry} {x : FilePBA}
    (h : assemble fname entry = .ok x) : ∃ shards, sortedShards entry.shard.items = .ok shards ∧
      x = { pba := entry.pba ++ shards.flatMap FilePBA.pba, fileName := fname,
            type := entry.type } := by
  obtain ⟨shards, hs, hx⟩ := bind_eq_ok.1 h
  exact ⟨shards, hs, (Except.ok.inj hx).symm⟩

/-! ## The whole constructor -/

/-- `init` with at least one base file is its three loops. -/
theorem init_inv {toShard : String → String → Option String}
    {replies : List (String × List FilePBA)} {t : Trace} (h : init toShard replies = .ok t)
    (hne : (scan toShard replies).rawFilePba ≠ []) :
    ∃ d₁ d₂ raw,
      (scan toShard replies).rawFilePba.foldlM enterBase (peerDicts (replies.map Prod.fst)) =
        .ok d₁ ∧
      (scan toShard replies).shardPba.foldlM
        (enterShard (lastNode (scan toShard replies).rawFilePba)
          (scan toShard replies).shardDict) d₁ = .ok d₂ ∧
      assembleAll d₂ (peerDicts (replies.map Prod.fst)) = .ok raw ∧
      t = ⟨[], raw, d₂, (scan toShard replies).shardDict⟩ := by
  have hemp : (scan toShard replies).rawFilePba.isEmpty = false := by simp [hne]
  simp only [init, hemp, Bool.false_eq_true, if_false] at h
  obtain ⟨d₁, h1, h⟩ := bind_eq_ok.1 h
  obtain ⟨d₂, h2, h⟩ := bind_eq_ok.1 h
  obtain ⟨raw, h3, h⟩ := bind_eq_ok.1 h
  cases h
  exact ⟨d₁, d₂, raw, h1, h2, h3, rfl⟩

/-- No manager is registered at first. -/
theorem init_agent {toShard : String → String → Option String}
    {replies : List (String × List FilePBA)} {t : Trace} (h : init toShard replies = .ok t) :
    t.agent = [] := by
  by_cases hne : (scan toShard replies).rawFilePba = []
  · have hemp : (scan toShard replies).rawFilePba.isEmpty = true := by simp [hne]
    simp only [init, hemp, if_true] at h
    cases h
    rfl
  · obtain ⟨d₁, d₂, raw, -, -, -, rfl⟩ := init_inv h hne
    rfl

end Lba2Pba.Trace
