import Lba2Pba.Manager.Start

/-!
# The replicas of a file

`PushPba` appends a replica for every `create` of a replicated file, whoever sends it,
and never changes one. `OnePerNode` is what the replicas of a file are for: one for
each node, with the extents that the node reported last. A message keeps it exactly if
it does not repeat a node that has a replica with new extents, or at all if it creates
the file (`onePerNode_after_iff`).

The entry of a replicated file is built by the Manager itself, so unlike that of a
distributed file it is never the entry of a second path (`Own`).
-/

namespace Lba2Pba.Manager

open Py

/-- The replicas in the entry of a replicated file. -/
def replicasOf (e : Option FilePBA) : Option (List ReplicaPba) :=
  e.bind (fun e => if Str.isIn "Replicate" e.type then some e.rPba else none)

def replicas (m : Manager) (pvc name : String) : Option (List ReplicaPba) :=
  replicasOf (m.entry pvc name)

/-- The entry of a replicated file is not that of another path. -/
structure Own (m : Manager) : Prop where
  eq : ∀ {p n q k ref}, m.FM.get2? p n = some ref → m.FM.get2? q k = some ref →
    Str.isIn "Replicate" (m.heap.get ref).type = true → p = q ∧ n = k

/-! ## Reports -/

/-- The extents that a node has for a path of a PVC. -/
structure Report where
  pvc : String
  name : String
  node : String
  pba : List PBA
deriving DecidableEq

def Report.key (x : Report) : String × String × String := (x.pvc, x.name, x.node)

/-- The report in a file that is taken for a PVC. -/
def reportOf (pvc subDir : String) (f : FilePBA) : Option Report := do
  let n ← relPath subDir f.fileName
  let first ← f.pba.head?
  return ⟨pvc, n, first.host, f.pba⟩

/-- The report in a message. -/
def report (m : Manager) (r : FMPushPbaRequest) : Option Report :=
  if r.action = "create" ∨ r.action = "modify" then
    (m.place r.filePba.fileName).bind (fun x => reportOf x.1 x.2 r.filePba)
  else none

/-- The extents that were reported last. -/
def latest (H : List Report) (key : String × String × String) : Option (List PBA) :=
  (H.reverse.find? (fun x => x.key = key)).map Report.pba

theorem latest_concat (H : List Report) (x : Report) (key : String × String × String) :
    latest (H ++ [x]) key = if x.key = key then some x.pba else latest H key := by
  rw [latest, List.reverse_append, List.reverse_singleton, List.singleton_append,
    List.find?_cons]
  by_cases h : x.key = key
  · simp [h]
  · simp [h, latest]

/-- A key with a report is the key of a report. -/
theorem mem_keys_of_latest {H : List Report} {key : String × String × String} {pba : List PBA}
    (h : latest H key = some pba) : key ∈ H.map Report.key := by
  obtain ⟨x, hx, -⟩ := Option.map_eq_some_iff.1 h
  have hkey := List.find?_some hx
  rw [decide_eq_true_iff] at hkey
  exact List.mem_map.2 ⟨x, List.mem_reverse.1 (List.mem_of_find?_eq_some hx), hkey⟩

/-- The replicas are those of different nodes, each with the latest extents. -/
structure Good (H : List Report) (p n : String) (l : List ReplicaPba) : Prop where
  nodes : (l.map ReplicaPba.Node).Nodup
  latest : ∀ r ∈ l, latest H (p, n, r.Node) = some r.pba

/-- Every entry of a replicated file has at most one replica for each node, and it has
the extents that the node reported last. -/
def OnePerNode (H : List Report) (m : Manager) : Prop :=
  ∀ p n l, m.replicas p n = some l → Good H p n l

section Good

variable {H : List Report} {p n node : String} {pba : List PBA} {l : List ReplicaPba}

/-- A report for another path. -/
theorem good_other {x : Report} (hne : ¬ (x.pvc = p ∧ x.name = n)) :
    Good (H ++ [x]) p n l ↔ Good H p n l := by
  have hkey : ∀ node, Manager.latest (H ++ [x]) (p, n, node) = Manager.latest H (p, n, node) := by
    intro node
    rw [latest_concat, if_neg]
    intro hk
    injection hk with hp hk
    injection hk with hn _
    exact hne ⟨hp, hn⟩
  constructor
  · exact fun h => ⟨h.nodes, fun r hr => (hkey r.Node).symm.trans (h.latest r hr)⟩
  · exact fun h => ⟨h.nodes, fun r hr => (hkey r.Node).trans (h.latest r hr)⟩

theorem latest_same (node' : String) :
    latest (H ++ [⟨p, n, node, pba⟩]) (p, n, node') =
      if node = node' then some pba else latest H (p, n, node') := by
  rw [latest_concat]
  simp only [Report.key, Prod.mk.injEq, true_and]

/-- A report that is not stored. -/
theorem good_same (h : Good H p n l) : Good (H ++ [⟨p, n, node, pba⟩]) p n l ↔
    ∀ r ∈ l, r.Node = node → r.pba = pba := by
  constructor
  · intro hg r hr hnode
    have hlast := hg.latest r hr
    rw [latest_same, if_pos hnode.symm] at hlast
    exact (Option.some.inj hlast).symm
  · intro hall
    refine ⟨h.nodes, fun r hr => ?_⟩
    rw [latest_same]
    split
    · rename_i hnode
      rw [hall r hr hnode.symm]
    · exact h.latest r hr

/-- A report that is stored as one more replica. -/
theorem good_append (h : Good H p n l) : Good (H ++ [⟨p, n, node, pba⟩]) p n (l ++ [⟨pba, node⟩]) ↔
    node ∉ l.map ReplicaPba.Node := by
  constructor
  · intro hg hmem
    have hnodes := hg.nodes
    rw [List.map_append, List.nodup_append] at hnodes
    exact hnodes.2.2 node hmem node (by simp) rfl
  · intro hnot
    refine ⟨?_, fun r hr => ?_⟩
    · rw [List.map_append]
      exact List.Nodup.append h.nodes (List.nodup_singleton node)
        (List.disjoint_singleton.2 hnot)
    · rw [latest_same]
      rcases List.mem_append.1 hr with hr | hr
      · have hne : node ≠ r.Node := by
          intro hnode
          exact hnot (List.mem_map.2 ⟨r, hr, hnode.symm⟩)
        rw [if_neg hne]
        exact h.latest r hr
      · rw [List.mem_singleton.1 hr, if_pos rfl]

end Good

/-! ## What a message does to the replicas -/

section Own

variable {m : Manager} {p n : String} {f : FilePBA}

theorem Own.keepRaw (ho : m.Own) (hv : m.Valid) : (m.keepRaw f).Own := by
  refine ⟨fun h h' hrep => ?_⟩
  rw [Manager.keepRaw, Heap.get_alloc_of_lt f (hv.entries h)] at hrep
  exact ho.eq h h' hrep

theorem Own.setEntry (ho : m.Own) (hv : m.Valid) : (m.setEntry p n f).Own := by
  refine ⟨fun h h' hrep => ?_⟩
  rcases Dict.get2?_set2_cases h with ⟨rfl, rfl, rfl⟩ | h
  · rcases Dict.get2?_set2_cases h' with ⟨rfl, rfl, -⟩ | h'
    · exact ⟨rfl, rfl⟩
    · exact absurd (hv.entries h') (Nat.lt_irrefl _)
  · rcases Dict.get2?_set2_cases h' with ⟨rfl, rfl, rfl⟩ | h'
    · exact absurd (hv.entries h) (Nat.lt_irrefl _)
    · rw [Manager.setEntry, Heap.get_alloc_of_lt f (hv.entries h)] at hrep
      exact ho.eq h h' hrep

/-- The type of a message does not change with its replicas. -/
theorem type_addReplica {ref : Nat} {r : ReplicaPba} (hr : ref < m.heap.next) (ref' : Nat) :
    ((m.addReplica ref r).heap.get ref').type = (m.heap.get ref').type := by
  rw [addReplica, Heap.get_put _ hr]
  split
  · rename_i h
    rw [← h]
  · rfl

theorem Own.addReplica {ref : Nat} {r : ReplicaPba} (ho : m.Own) (hr : ref < m.heap.next) :
    (m.addReplica ref r).Own := by
  refine ⟨fun h h' hrep => ?_⟩
  rw [type_addReplica hr] at hrep
  exact ho.eq h h' hrep

theorem Own.stored (ho : m.Own) (hv : m.Valid) : (m.stored p n f).Own := by
  obtain h | ⟨-, e, h⟩ | ⟨ref, r, href, h⟩ := stored_cases p n f m
  · rw [h]
    exact ho
  · rw [h]
    exact ho.setEntry hv
  · rw [h]
    exact ho.addReplica (hv.entries href)

theorem Own.deleted (ho : m.Own) (subDir : String) : (m.deleted p subDir f).Own := by
  unfold Manager.deleted
  split
  · exact ho
  · split
    · rename_i n _ _
      obtain ⟨raw, hraw, -⟩ := forgotten_eq p (m.eraseEntry p n) f.type
      rw [hraw]
      exact ⟨fun h h' hrep => ho.eq (Dict.get2?_of_erase2 h) (Dict.get2?_of_erase2 h') hrep⟩
    · exact ho

theorem Own.after (ho : m.Own) (hv : m.Valid) (r : FMPushPbaRequest) : (m.after r).Own := by
  unfold Manager.after
  split
  · exact ho
  · split
    · unfold created
      split
      · exact ho.keepRaw hv
      · exact (ho.keepRaw hv).stored hv.keepRaw
    · split
      · exact ho.deleted _
      · exact ho

end Own

section Effects

variable {m : Manager} {p n q k subDir : String} {f : FilePBA}

theorem replicasOf_some {e : FilePBA} : replicasOf (some e) =
    if Str.isIn "Replicate" e.type then some e.rPba else none := rfl

/-- The replicas of a path after a file of that path is stored. -/
def storedReplicas (m : Manager) (p n : String) (f : FilePBA) : Option (List ReplicaPba) :=
  if f.type = "Distribute" then none
  else if Str.isIn "Replicate" f.type then
    match replicaOf f with
    | none => m.replicas p n
    | some x =>
      match m.entry p n with
      | none => if p ∈ m.FM.keys then some [x] else none
      | some _ => (m.replicas p n).map (fun l => l ++ [x])
  else m.replicas p n

theorem replicas_stored_self (hv : m.Valid) (hf : f.fileName = n) :
    (m.stored p n f).replicas p n = storedReplicas m p n f := by
  by_cases hk : p ∈ m.FM.keys
  · rw [replicas, entry_stored hv hk hf, merge, storedReplicas]
    split
    · rename_i ht
      rw [replicasOf_some, ht]
      rfl
    · split
      · rename_i hrep
        cases replicaOf f with
        | none => rfl
        | some x =>
          simp only [replicas]
          cases he : m.entry p n with
          | none => simp [replicasOf_some, noReplicas, hrep]
          | some e =>
            simp only [replicasOf_some, Option.getD_some]
            split <;> rfl
      · rfl
  · -- no map, no entry
    have hnone : m.entry p n = none := entry_of_not_mem hk
    rw [stored_of_not_mem hk, replicas, hnone, storedReplicas, replicas, hnone]
    split
    · rfl
    · split
      · cases replicaOf f with
        | none => rfl
        | some x => rfl
      · rfl

theorem replicas_stored_of_ne (hv : m.Valid) (ho : m.Own) (hne : ¬ (p = q ∧ n = k)) :
    (m.stored p n f).replicas q k = m.replicas q k := by
  obtain h | ⟨hk, e, h⟩ | ⟨ref, r, href, h⟩ := stored_cases p n f m
  · rw [h]
  · rw [h, replicas, entry_setEntry hv hk, if_neg hne]
    rfl
  · rw [h]
    by_cases hshare : m.FM.get2? q k = some ref
    · -- one message under two paths: not that of a replicated file
      have htype : ¬ Str.isIn "Replicate" (m.heap.get ref).type = true :=
        fun hrep => hne (ho.eq href hshare hrep)
      have htype' : ¬ Str.isIn "Replicate" ((m.addReplica ref r).heap.get ref).type = true := by
        rw [type_addReplica (hv.entries href)]
        exact htype
      rw [replicas, replicas, entry_eq_some_iff.2 ⟨ref, hshare, rfl⟩,
        (entry_eq_some_iff (m := m.addReplica ref r)).2 ⟨ref, hshare, rfl⟩, replicasOf_some,
        replicasOf_some, if_neg htype, if_neg htype']
    · rw [replicas, entry_addReplica_of_ne hv href hshare]
      rfl

theorem replicas_keepRaw (hv : m.Valid) : (m.keepRaw f).replicas q k = m.replicas q k := by
  rw [replicas, entry_keepRaw hv]
  rfl

end Effects

section After

variable {m : Manager} {r : FMPushPbaRequest} {p n subDir : String}

/-- A message without a place or a path. -/
theorem replicas_after_of_none (hv : m.Valid)
    (h : ∀ p subDir, m.place r.filePba.fileName = some (p, subDir) →
      relPath subDir r.filePba.fileName = none) (q k : String) :
    (m.after r).replicas q k = m.replicas q k := by
  unfold after
  split
  · rfl
  · rename_i p subDir hplace
    have hn := h p subDir hplace
    simp only [created, deleted, hn]
    split
    · exact replicas_keepRaw hv
    · split <;> rfl

/-- The replicas of the path of a message after it is handled. -/
def newReplicas (m : Manager) (p n : String) (r : FMPushPbaRequest) : Option (List ReplicaPba) :=
  if r.action = "create" then storedReplicas m p n r.filePba
  else if r.action = "delete" then none
  else m.replicas p n

theorem replicas_after (hv : m.Valid) (ho : m.Own)
    (hplace : m.place r.filePba.fileName = some (p, subDir))
    (hn : relPath subDir r.filePba.fileName = some n) (q k : String) :
    (m.after r).replicas q k = if p = q ∧ n = k then newReplicas m p n r else m.replicas q k := by
  unfold after newReplicas
  simp only [hplace]
  split
  · -- a created file is stored beside its copy in `rawFM`
    have hraw : storedReplicas (m.keepRaw r.filePba) p n { r.filePba with fileName := n } =
        storedReplicas m p n r.filePba := by
      unfold storedReplicas
      rw [entry_keepRaw hv, replicas_keepRaw hv]
      rfl
    simp only [created, hn]
    by_cases hne : p = q ∧ n = k
    · obtain ⟨rfl, rfl⟩ := hne
      rw [if_pos ⟨rfl, rfl⟩,
        replicas_stored_self (f := { r.filePba with fileName := n }) hv.keepRaw rfl, hraw]
    · rw [if_neg hne, replicas_stored_of_ne hv.keepRaw (ho.keepRaw hv) hne, replicas_keepRaw hv]
  · split
    · by_cases hk : p ∈ m.FM.keys
      · rw [replicas, entry_deleted hk hn]
        split <;> rfl
      · rw [deleted_of_not_mem hk]
        split
        · rename_i hne
          obtain ⟨rfl, rfl⟩ := hne
          rw [replicas, entry_of_not_mem hk]
          rfl
        · rfl
    · split
      · rename_i hne
        rw [hne.1, hne.2]
      · rfl

/-- A message that repeats no node: a created replicated file is from a node that has no
replica of it, and any other report has the extents that the node has there. A created
distributed file replaces the entry. -/
def Unrepeated (m : Manager) (r : FMPushPbaRequest) : Prop :=
  ∀ x, m.report r = some x → ∀ l, m.replicas x.pvc x.name = some l →
    if r.action = "create" ∧ r.filePba.type = "Distribute" then True
    else if r.action = "create" ∧ Str.isIn "Replicate" r.filePba.type then
      x.node ∉ l.map ReplicaPba.Node
    else ∀ e ∈ l, e.Node = x.node → e.pba = x.pba

theorem report_eq (hplace : m.place r.filePba.fileName = some (p, subDir))
    (hn : relPath subDir r.filePba.fileName = some n) :
    m.report r = if r.action = "create" ∨ r.action = "modify" then
      r.filePba.pba.head?.map (fun first => ⟨p, n, first.host, r.filePba.pba⟩) else none := by
  unfold report
  rw [hplace]
  simp only [Option.bind_some, reportOf, hn, Option.bind_eq_bind]
  cases r.filePba.pba.head? <;> rfl

/-- Without a report, replicas can only go. -/
theorem newReplicas_of_no_report (h : m.report r = none)
    (hplace : m.place r.filePba.fileName = some (p, subDir))
    (hn : relPath subDir r.filePba.fileName = some n) {l : List ReplicaPba}
    (hl : newReplicas m p n r = some l) : m.replicas p n = some l := by
  rw [report_eq hplace hn] at h
  unfold newReplicas at hl
  split at hl
  · rename_i hc
    rw [if_pos (Or.inl hc), Option.map_eq_none_iff] at h
    unfold storedReplicas at hl
    split at hl
    · cases hl
    · split at hl
      · rw [replicaOf, h] at hl
        exact hl
      · exact hl
  · split at hl
    · cases hl
    · exact hl

/-- The replicas after a replicated file is stored are good exactly if its node is new. -/
theorem good_storedReplicas_iff {H : List Report} {f : FilePBA} {first : PBA}
    (h : ∀ l, m.replicas p n = some l → Good H p n l)
    (hrep : Str.isIn "Replicate" f.type = true) (hfirst : f.pba.head? = some first) :
    (∀ l, storedReplicas m p n f = some l → Good (H ++ [⟨p, n, first.host, f.pba⟩]) p n l) ↔
      ∀ l, m.replicas p n = some l → first.host ∉ l.map ReplicaPba.Node := by
  have hx : replicaOf f = some ⟨f.pba, first.host⟩ := by
    rw [replicaOf, hfirst]
    rfl
  simp only [storedReplicas, if_neg (ne_distribute hrep), if_pos hrep, hx]
  cases he : m.entry p n with
  | none =>
    -- the first replica of the path
    have hnone : m.replicas p n = none := by
      rw [replicas, he]
      rfl
    rw [hnone]
    refine iff_of_true (fun l hl => ?_) (fun l hl => by cases hl)
    have hnew : (if p ∈ m.FM.keys then some [⟨f.pba, first.host⟩] else none) = some l := hl
    split at hnew
    · cases hnew
      have hempty : Good H p n [] := ⟨List.nodup_nil, fun _ hr => by cases hr⟩
      exact (good_append hempty).2 List.not_mem_nil
    · cases hnew
  | some e =>
    cases hl0 : m.replicas p n with
    | none => simp
    | some l0 =>
      simp only [Option.map_some, Option.some.injEq, forall_eq']
      exact good_append (h l0 hl0)

/-- What a report does to the replicas of its path. -/
theorem good_newReplicas_iff {H : List Report} {first : PBA} (h : OnePerNode H m)
    (ha : r.action = "create" ∨ r.action = "modify")
    (hplace : m.place r.filePba.fileName = some (p, subDir))
    (hn : relPath subDir r.filePba.fileName = some n)
    (hfirst : r.filePba.pba.head? = some first) :
    (∀ l, newReplicas m p n r = some l →
      Good (H ++ [⟨p, n, first.host, r.filePba.pba⟩]) p n l) ↔ Unrepeated m r := by
  have hreport : m.report r = some ⟨p, n, first.host, r.filePba.pba⟩ := by
    rw [report_eq hplace hn, if_pos ha, hfirst]
    rfl
  have hstay : newReplicas m p n r = m.replicas p n →
      ((∀ l, newReplicas m p n r = some l →
        Good (H ++ [⟨p, n, first.host, r.filePba.pba⟩]) p n l) ↔
      ∀ l, m.replicas p n = some l → ∀ e ∈ l, e.Node = first.host → e.pba = r.filePba.pba) := by
    intro hsame
    rw [hsame]
    exact forall_congr' (fun l => forall_congr' (fun hl => good_same (h p n l hl)))
  have hun : Unrepeated m r ↔ ∀ l, m.replicas p n = some l →
      if r.action = "create" ∧ r.filePba.type = "Distribute" then True
      else if r.action = "create" ∧ Str.isIn "Replicate" r.filePba.type then
        first.host ∉ l.map ReplicaPba.Node
      else ∀ e ∈ l, e.Node = first.host → e.pba = r.filePba.pba := by
    unfold Unrepeated
    rw [hreport]
    constructor
    · exact fun hall => hall _ rfl
    · rintro hall x hx
      cases hx
      exact hall
  rw [hun]
  rcases ha with hc | hmod
  · by_cases hd : r.filePba.type = "Distribute"
    · simp [newReplicas, storedReplicas, hc, hd]
    · by_cases hrep : Str.isIn "Replicate" r.filePba.type = true
      · simp only [hc, hd, hrep, and_self, and_false, if_true, if_false, newReplicas]
        exact good_storedReplicas_iff (h p n) hrep hfirst
      · have hsame : newReplicas m p n r = m.replicas p n := by
          simp [newReplicas, storedReplicas, hc, hd, hrep]
        rw [hstay hsame]
        simp [hd, hrep]
  · have hnc : r.action ≠ "create" := by
      rw [hmod]
      decide
    have hnd : r.action ≠ "delete" := by
      rw [hmod]
      decide
    have hsame : newReplicas m p n r = m.replicas p n := by
      rw [newReplicas, if_neg hnc, if_neg hnd]
    rw [hstay hsame]
    simp [hnc]

/-- **A message keeps one replica per node exactly if it repeats no node.** -/
theorem onePerNode_after_iff {H : List Report} (hv : m.Valid) (ho : m.Own) (h : OnePerNode H m) :
    OnePerNode (H ++ (m.report r).toList) (m.after r) ↔ Unrepeated m r := by
  by_cases hnone : ∀ p subDir, m.place r.filePba.fileName = some (p, subDir) →
      relPath subDir r.filePba.fileName = none
  · have hrep : m.report r = none := by
      unfold report
      split
      · cases hp : m.place r.filePba.fileName with
        | none => rfl
        | some x => simp [reportOf, hnone x.1 x.2 hp]
      · rfl
    rw [hrep, Option.toList_none, List.append_nil]
    refine iff_of_true (fun p n l hl => ?_) (fun x hx => ?_)
    · rw [replicas_after_of_none hv hnone] at hl
      exact h p n l hl
    · rw [hrep] at hx
      cases hx
  · push Not at hnone
    obtain ⟨p, subDir, hplace, hsome⟩ := hnone
    obtain ⟨n, hn⟩ := Option.ne_none_iff_exists'.1 hsome
    have hafter := replicas_after hv ho hplace hn
    cases hrep : m.report r with
    | none =>
      rw [Option.toList_none, List.append_nil]
      refine iff_of_true (fun q k l hl => ?_) (fun x hx => ?_)
      · rw [hafter] at hl
        split at hl
        · rename_i heq
          obtain ⟨rfl, rfl⟩ := heq
          exact h p n l (newReplicas_of_no_report hrep hplace hn hl)
        · exact h q k l hl
      · rw [hrep] at hx
        cases hx
    | some x =>
      have hx := hrep
      rw [report_eq hplace hn] at hx
      split at hx
      · rename_i ha
        obtain ⟨first, hfirst, rfl⟩ := Option.map_eq_some_iff.1 hx
        rw [← good_newReplicas_iff h ha hplace hn hfirst, Option.toList_some]
        constructor
        · intro hall l hl
          refine hall p n l ?_
          rw [hafter, if_pos ⟨rfl, rfl⟩]
          exact hl
        · intro hgood q k l hl
          rw [hafter] at hl
          split at hl
          · rename_i heq
            obtain ⟨rfl, rfl⟩ := heq
            exact hgood l hl
          · rename_i hne
            exact (good_other hne).2 (h q k l hl)
      · cases hx

end After

end Lba2Pba.Manager
