import Lba2Pba.Trace.Step

/-!
# The maps, one file at a time

`cell t n f` is what `fmDict` and `rawFM` hold for the file `f` of node `n`. A
message about a base file of a known node changes one cell, by a function of that
cell alone (`cell_after_base`); a message about a shard leaves the extents of all
entries as they are, and publishes at most the base extents of one of them again
(`cell_after_shard`).
-/

namespace Lba2Pba.Trace

open Py

/-- The two entries of a file. -/
structure Cell where
  entry : Option Entry
  raw : Option FilePBA
deriving DecidableEq

def cell (t : Trace) (n f : String) : Cell := ⟨t.fmDict.get2? n f, t.rawFM.get2? n f⟩

/-- What a base file message with this action does to the cell of its file. -/
def Cell.apply (action : String) (f : FilePBA) (c : Cell) : Cell :=
  if action = "create" then
    ⟨some (c.entry.getD ⟨∅, f.pba, f.type⟩),
      some { pba := f.pba, fileName := f.fileName, type := f.type }⟩
  else if action = "modify" then ⟨c.entry.map (fun e => { e with pba := f.pba }), c.raw⟩
  else if action = "delete" then if c.entry.isSome then ⟨none, none⟩ else c
  else c

/-- Both maps have a dictionary for the node. -/
def Knows (t : Trace) (n : String) : Prop := n ∈ t.fmDict.keys ∧ n ∈ t.rawFM.keys

section Base

variable (toShard : String → String → Option String) {node : String} {f : FilePBA} {t : Trace}
  {m g : String}

theorem cell_putBase (hk : t.Knows node) :
    (t.putBase toShard node f).cell m g =
      if node = m ∧ f.fileName = g then (t.cell m g).apply "create" f else t.cell m g := by
  obtain ⟨files, hf⟩ := Dict.mem_keys_iff.1 hk.1
  have hraw := Dict.get2?_set2 (m := m) (g := g) (f := f.fileName)
    (v := { pba := f.pba, fileName := f.fileName, type := f.type }) hk.2
  simp only [putBase, hf, cell, hraw]
  by_cases h : node = m ∧ f.fileName = g
  · obtain ⟨rfl, rfl⟩ := h
    cases hc : files.contains f.fileName with
    | true =>
      obtain ⟨e, he⟩ := Dict.contains_iff.1 hc
      have he2 : t.fmDict.get2? node f.fileName = some e := by rw [Dict.get2?_of_get? hf, he]
      simp [Cell.apply, he2]
    | false =>
      have he2 : t.fmDict.get2? node f.fileName = none := by
        rw [Dict.get2?_of_get? hf, Dict.contains_eq_false.1 hc]
      simp [Cell.apply, he2, Dict.get2?_set2 hk.1]
  · cases files.contains f.fileName with
    | true => simp [h]
    | false => simp [h, Dict.get2?_set2_of_ne h]

/-- A `create` publishes its own extents. -/
theorem raw_putBase (hk : t.Knows node) :
    (t.putBase toShard node f).rawFM.get2? node f.fileName =
      some { pba := f.pba, fileName := f.fileName, type := f.type } := by
  have hcell := cell_putBase toShard (f := f) (m := node) (g := f.fileName) hk
  rw [if_pos ⟨rfl, rfl⟩] at hcell
  exact congrArg Cell.raw hcell

theorem putBase_of_not_mem (h : node ∉ t.fmDict.keys) : t.putBase toShard node f = t := by
  rw [putBase, Dict.get?_eq_none_iff.2 h]

theorem cell_putPba :
    (t.putPba node f).cell m g =
      if node = m ∧ f.fileName = g then (t.cell m g).apply "modify" f else t.cell m g := by
  unfold putPba
  cases he : t.fmDict.get2? node f.fileName with
  | none =>
    by_cases h : node = m ∧ f.fileName = g
    · obtain ⟨rfl, rfl⟩ := h
      simp [cell, Cell.apply, he]
    · simp [h]
  | some e =>
    simp only [cell, Dict.get2?_set2 (Dict.mem_keys_of_get2? he)]
    by_cases h : node = m ∧ f.fileName = g
    · obtain ⟨rfl, rfl⟩ := h
      simp [Cell.apply, he]
    · simp [h]

@[simp] theorem fmDict_dropKey (fname : String) (t : Trace) :
    (dropKey fname t).fmDict = t.fmDict := by
  unfold dropKey
  split <;> rfl

@[simp] theorem rawFM_dropKey (fname : String) (t : Trace) :
    (dropKey fname t).rawFM = t.rawFM := by
  unfold dropKey
  split <;> rfl

theorem cell_dropBase :
    (t.dropBase node f).cell m g =
      if node = m ∧ f.fileName = g then (t.cell m g).apply "delete" f else t.cell m g := by
  unfold dropBase
  by_cases h : node = m ∧ f.fileName = g
  · obtain ⟨rfl, rfl⟩ := h
    cases he : t.fmDict.get2? node f.fileName with
    | none => simp [cell, Cell.apply, he]
    | some e =>
      cases hr : t.rawFM.get2? node f.fileName with
      | none => simp [cell, Cell.apply, he, hr, Dict.get2?_erase2]
      | some x => simp [cell, Cell.apply, he, Dict.get2?_erase2]
  · cases t.fmDict.get2? node f.fileName with
    | none => simp [h]
    | some e =>
      cases t.rawFM.get2? node f.fileName with
      | none => simp [h, cell, Dict.get2?_erase2_of_ne h]
      | some x => simp [h, cell, Dict.get2?_erase2_of_ne h]

end Base

/-- A message about a base file: `node` is the host of the first extent. -/
theorem cell_after_base (toShard : String → String → Option String) {r : TChangeRequest}
    {t : Trace} {first : PBA} (hp : r.filePba.pba.head? = some first)
    (hb : isShard r.filePba.fileName = false) (hk : t.Knows first.host) (m g : String) :
    (t.after toShard r).cell m g =
      if first.host = m ∧ r.filePba.fileName = g then (t.cell m g).apply r.action r.filePba
      else t.cell m g := by
  simp only [after, hp, hb, Bool.false_eq_true, if_false]
  split
  · rename_i ha
    rw [ha, cell_putBase toShard hk]
  split
  · rename_i ha
    rw [ha, cell_putPba]
  split
  · rename_i ha
    rw [ha, cell_dropBase]
  · rename_i h1 h2 h3
    simp [Cell.apply, h1, h2, h3]

/-- A message about a base file of an unknown node changes nothing. -/
theorem after_of_not_mem {toShard : String → String → Option String} {r : TChangeRequest}
    {t : Trace} {first : PBA} (hp : r.filePba.pba.head? = some first)
    (hb : isShard r.filePba.fileName = false) (hk : first.host ∉ t.fmDict.keys) :
    t.after toShard r = t := by
  have hnone : t.fmDict.get2? first.host r.filePba.fileName = none :=
    Dict.get2?_of_none (Dict.get?_eq_none_iff.2 hk)
  simp only [after, hp, hb, Bool.false_eq_true, if_false, putBase_of_not_mem toShard hk, putPba,
    dropBase, hnone, ite_self]

/-! ## Shards -/

/-- What a shard message can do to a cell of the node it names: the entry keeps its
extents and its type, and the published entry stays or is made of them. -/
structure Cell.ShardStep (f : String) (c c' : Cell) : Prop where
  entry : ∃ d : Entry → Dict String FilePBA,
    c'.entry = c.entry.map (fun e => { e with shard := d e })
  raw : c'.raw = c.raw ∨ ∃ e, c.entry = some e ∧ c'.raw = some { pba := e.pba, fileName := f }

theorem Cell.ShardStep.refl (f : String) (c : Cell) : Cell.ShardStep f c c := by
  refine ⟨⟨Entry.shard, ?_⟩, .inl rfl⟩
  cases c.entry <;> rfl

theorem owner?_eq_some {node sName fname : String} {entry : Entry} {t : Trace}
    (h : t.owner? node sName = some (fname, entry)) :
    t.shardDict.get? (some (changeKey sName)) = some fname ∧
      t.fmDict.get2? node fname = some entry := by
  simp only [owner?, Option.bind_eq_some_iff, Option.map_eq_some_iff, Prod.mk.injEq] at h
  obtain ⟨name, hname, e, he, rfl, rfl⟩ := h
  exact ⟨hname, he⟩

section Shard

variable {node : String} {f : FilePBA} {t : Trace} (m g : String)

/-- Writing other shards into an entry is such a step in every cell. -/
theorem shardStep_setShard {fname : String} {entry : Entry} (d : Dict String FilePBA)
    (h : t.fmDict.get2? node fname = some entry) :
    Cell.ShardStep g (t.cell m g)
      ({ t with fmDict := t.fmDict.set2 node fname { entry with shard := d } }.cell m g) := by
  by_cases hc : node = m ∧ fname = g
  · obtain ⟨rfl, rfl⟩ := hc
    refine ⟨⟨fun _ => d, ?_⟩, .inl rfl⟩
    simp [cell, h, Dict.get2?_set2 (Dict.mem_keys_of_get2? h)]
  · have : { t with fmDict := t.fmDict.set2 node fname { entry with shard := d } }.cell m g =
        t.cell m g := by
      simp only [cell, Dict.get2?_set2_of_ne hc]
    rw [this]
    exact .refl g _

theorem shardStep_putShard : Cell.ShardStep g (t.cell m g) ((t.putShard node f).cell m g) := by
  unfold putShard
  cases h : t.owner? node f.fileName with
  | none => exact .refl g _
  | some x => exact shardStep_setShard m g _ (owner?_eq_some h).2

theorem shardStep_dropShard : Cell.ShardStep g (t.cell m g) ((t.dropShard node f).cell m g) := by
  unfold dropShard
  cases h : t.owner? node f.fileName with
  | none => exact .refl g _
  | some x =>
    obtain ⟨fname, entry⟩ := x
    have he := (owner?_eq_some h).2
    cases hs : entry.shard.get? f.fileName with
    | none =>
      simp only [hs]
      exact .refl g _
    | some old =>
      have step := shardStep_setShard m g (entry.shard.erase f.fileName) he
      simp only [hs]
      split
      · refine ⟨step.entry, ?_⟩
        by_cases hc : node = m ∧ fname = g
        · obtain ⟨rfl, rfl⟩ := hc
          by_cases hn : node ∈ t.rawFM.keys
          · refine .inr ⟨entry, he, ?_⟩
            simp [cell, Dict.get2?_set2 hn]
          · left
            simp [cell, Dict.set2, Dict.get?_eq_none_iff.2 hn]
        · left
          simp only [cell, Dict.get2?_set2_of_ne hc]
      · exact step

end Shard

/-- A message about a shard, or one that names no node. -/
theorem cell_after_shard {toShard : String → String → Option String} {r : TChangeRequest}
    {t : Trace} (hs : r.filePba.pba.head? = none ∨ isShard r.filePba.fileName = true)
    (m g : String) : Cell.ShardStep g (t.cell m g) ((t.after toShard r).cell m g) := by
  unfold after
  cases hp : r.filePba.pba.head? with
  | none => exact .refl g _
  | some first =>
    have hs : isShard r.filePba.fileName = true := by
      rcases hs with h | h
      · rw [hp] at h
        cases h
      · exact h
    simp only [hs, if_true]
    split
    · exact shardStep_putShard m g
    split
    · exact shardStep_putShard m g
    split
    · exact shardStep_dropShard m g
    · exact .refl g _

/-! ## What stays -/

theorem agent_putBase (toShard : String → String → Option String) (n : String) (f : FilePBA)
    (t : Trace) : (t.putBase toShard n f).agent = t.agent := by
  unfold putBase
  split <;> rfl

theorem agent_putPba (n : String) (f : FilePBA) (t : Trace) : (t.putPba n f).agent = t.agent := by
  unfold putPba
  split <;> rfl

theorem agent_putShard (n : String) (f : FilePBA) (t : Trace) :
    (t.putShard n f).agent = t.agent := by
  unfold putShard
  split <;> rfl

theorem agent_dropKey (fname : String) (t : Trace) : (dropKey fname t).agent = t.agent := by
  unfold dropKey
  split <;> rfl

theorem agent_dropBase (n : String) (f : FilePBA) (t : Trace) :
    (t.dropBase n f).agent = t.agent := by
  unfold dropBase
  split
  · rfl
  · simp only
    split
    · rfl
    · rw [agent_dropKey]

theorem agent_dropShard (n : String) (f : FilePBA) (t : Trace) :
    (t.dropShard n f).agent = t.agent := by
  unfold dropShard
  split
  · rfl
  · split
    · rfl
    · simp only
      split <;> rfl

/-- No request changes the list of managers. -/
theorem agent_after (toShard : String → String → Option String) (r : TChangeRequest) (t : Trace) :
    (t.after toShard r).agent = t.agent :=
  after_cases (P := fun t' => t'.agent = t.agent) toShard r rfl
    (fun n f => agent_putBase toShard n f t) (fun n f => agent_putShard n f t)
    (fun n f => agent_putPba n f t) (fun n f => agent_dropBase n f t)
    (fun n f => agent_dropShard n f t)

theorem rawFM_putShard (node : String) (s : FilePBA) (t : Trace) :
    (t.putShard node s).rawFM = t.rawFM := by
  unfold putShard
  split <;> rfl

theorem rawFM_putBase (toShard : String → String → Option String) {node : String} (f : FilePBA)
    {t : Trace} (hk : node ∈ t.fmDict.keys) : (t.putBase toShard node f).rawFM =
      t.rawFM.set2 node f.fileName { pba := f.pba, fileName := f.fileName, type := f.type } := by
  obtain ⟨files, hf⟩ := Dict.mem_keys_iff.1 hk
  rw [putBase, hf]

theorem rawFM_dropBase {node : String} {f : FilePBA} {t : Trace} {entry : Entry} {x : FilePBA}
    (he : t.fmDict.get2? node f.fileName = some entry)
    (hx : t.rawFM.get2? node f.fileName = some x) :
    (t.dropBase node f).rawFM = t.rawFM.erase2 node f.fileName := by
  simp only [dropBase, he, hx, rawFM_dropKey]

theorem rawFM_putPba (node : String) (f : FilePBA) (t : Trace) :
    (t.putPba node f).rawFM = t.rawFM := by
  unfold putPba
  split <;> rfl

/-! ## The nodes -/

/-- The nodes of the two maps are those of `t`. -/
def SameNodes (t t' : Trace) : Prop :=
  t'.fmDict.keys = t.fmDict.keys ∧ t'.rawFM.keys = t.rawFM.keys

section Nodes

variable (toShard : String → String → Option String) (n : String) (f : FilePBA) (t : Trace)

theorem sameNodes_putBase : SameNodes t (t.putBase toShard n f) := by
  unfold putBase
  split
  · exact ⟨rfl, rfl⟩
  · refine ⟨?_, Dict.keys_set2 ..⟩
    simp only
    split
    · rfl
    · exact Dict.keys_set2 ..

theorem sameNodes_putShard : SameNodes t (t.putShard n f) := by
  unfold putShard
  split
  · exact ⟨rfl, rfl⟩
  · exact ⟨Dict.keys_set2 .., rfl⟩

theorem sameNodes_putPba : SameNodes t (t.putPba n f) := by
  unfold putPba
  split
  · exact ⟨rfl, rfl⟩
  · exact ⟨Dict.keys_set2 .., rfl⟩

theorem sameNodes_dropBase : SameNodes t (t.dropBase n f) := by
  unfold dropBase
  split
  · exact ⟨rfl, rfl⟩
  · simp only
    split
    · exact ⟨Dict.keys_erase2 .., rfl⟩
    · rw [SameNodes, fmDict_dropKey, rawFM_dropKey]
      exact ⟨Dict.keys_erase2 .., Dict.keys_erase2 ..⟩

theorem sameNodes_dropShard : SameNodes t (t.dropShard n f) := by
  unfold dropShard
  split
  · exact ⟨rfl, rfl⟩
  split
  · exact ⟨rfl, rfl⟩
  · simp only
    split
    · exact ⟨Dict.keys_set2 .., Dict.keys_set2 ..⟩
    · exact ⟨Dict.keys_set2 .., rfl⟩

end Nodes

theorem sameNodes_after (toShard : String → String → Option String) (r : TChangeRequest)
    (t : Trace) : SameNodes t (t.after toShard r) :=
  after_cases toShard r ⟨rfl, rfl⟩ (fun n f => sameNodes_putBase toShard n f t)
    (fun n f => sameNodes_putShard n f t) (fun n f => sameNodes_putPba n f t)
    (fun n f => sameNodes_dropBase n f t) (fun n f => sameNodes_dropShard n f t)

end Lba2Pba.Trace
