import Lba2Pba.Manager.Step

/-!
# The entries of the Manager

`entry` reads `FM` through the references. The operations of `PushPba` are
described on it: `merge` says what a created file makes of the entry of its path.
-/

namespace Lba2Pba.Manager

open Py

/-- `self.FM[pvc][name]`, the message itself. -/
def entry (m : Manager) (pvc name : String) : Option FilePBA :=
  (m.FM.get2? pvc name).map m.heap.get

/-- The extents of a file as those of one node. -/
def replicaOf (f : FilePBA) : Option ReplicaPba :=
  f.pba.head?.map (fun first => ⟨f.pba, first.host⟩)

/-- A replicated file without replicas. -/
def noReplicas (f : FilePBA) : FilePBA :=
  { fileName := f.fileName, volName := f.volName, type := f.type }

/-- The entry of a path after a file of that path was created. A distributed file
replaces it, a replicated one adds to it. -/
def merge (old : Option FilePBA) (f : FilePBA) : Option FilePBA :=
  if f.type = "Distribute" then some f
  else if Str.isIn "Replicate" f.type then
    match replicaOf f with
    | none => old
    | some r => some { old.getD (noReplicas f) with rPba := (old.getD (noReplicas f)).rPba ++ [r] }
  else old

theorem ne_distribute {type : String} (h : Str.isIn "Replicate" type = true) :
    type ≠ "Distribute" := by
  rintro rfl
  exact absurd h (by decide)

/-- The references stand for messages. -/
structure Valid (m : Manager) : Prop where
  raw : ∀ ref ∈ m.rawFM, ref < m.heap.next
  entries : ∀ {pvc n ref}, m.FM.get2? pvc n = some ref → ref < m.heap.next

/-- No two entries are one message. -/
structure Unshared (m : Manager) : Prop where
  eq : ∀ {p n q k ref}, m.FM.get2? p n = some ref → m.FM.get2? q k = some ref → p = q ∧ n = k

section Views

variable {m : Manager} {p n q k : String} {f : FilePBA} {ref : Nat}

theorem entry_eq_none_iff : m.entry p n = none ↔ m.FM.get2? p n = none := Option.map_eq_none_iff

theorem entry_eq_some_iff {e : FilePBA} :
    m.entry p n = some e ↔ ∃ ref, m.FM.get2? p n = some ref ∧ m.heap.get ref = e :=
  Option.map_eq_some_iff

/-- A PVC without a map has no entries, and none are made. -/
theorem entry_of_not_mem (hp : p ∉ m.FM.keys) : m.entry p n = none := by
  rw [entry_eq_none_iff]
  by_contra hne
  obtain ⟨ref, href⟩ := Option.ne_none_iff_exists'.1 hne
  exact hp (Dict.mem_keys_of_get2? href)

theorem stored_of_not_mem (hp : p ∉ m.FM.keys) : m.stored p n f = m := by
  obtain h | ⟨hk, -⟩ | ⟨ref, -, href, -⟩ := stored_cases p n f m
  · exact h
  · exact absurd hk hp
  · exact absurd (Dict.mem_keys_of_get2? href) hp

theorem deleted_of_not_mem (hp : p ∉ m.FM.keys) (subDir : String) : m.deleted p subDir f = m := by
  have hc : ¬ m.FM.contains p = true :=
    fun hc => hp (Dict.mem_keys_iff.2 (Dict.contains_iff.1 hc))
  unfold deleted
  split
  · rfl
  · rw [if_neg hc]

theorem entry_keepRaw (hv : m.Valid) : (m.keepRaw f).entry q k = m.entry q k := by
  unfold entry keepRaw
  simp only
  cases h : m.FM.get2? q k with
  | none => rfl
  | some ref => rw [Option.map_some, Option.map_some, Heap.get_alloc_of_lt f (hv.entries h)]

theorem entry_setEntry (hv : m.Valid) (hp : p ∈ m.FM.keys) :
    (m.setEntry p n f).entry q k = if p = q ∧ n = k then some f else m.entry q k := by
  unfold entry setEntry
  rw [Dict.get2?_set2 hp]
  split
  · rw [Option.map_some, Heap.get_alloc_next]
  · cases h : m.FM.get2? q k with
    | none => rfl
    | some ref => rw [Option.map_some, Option.map_some, Heap.get_alloc_of_lt f (hv.entries h)]

theorem entry_addReplica_self {r : ReplicaPba} (hv : m.Valid) (h : m.FM.get2? p n = some ref) :
    (m.addReplica ref r).entry p n =
      some { m.heap.get ref with rPba := (m.heap.get ref).rPba ++ [r] } := by
  unfold entry addReplica
  simp only [h, Option.map_some]
  rw [Heap.get_put _ (hv.entries h), if_pos rfl]

theorem entry_addReplica_of_ne {r : ReplicaPba} (hv : m.Valid) (h : m.FM.get2? p n = some ref)
    (hne : m.FM.get2? q k ≠ some ref) : (m.addReplica ref r).entry q k = m.entry q k := by
  unfold entry addReplica
  simp only
  cases hq : m.FM.get2? q k with
  | none => rfl
  | some ref' =>
    rw [Option.map_some, Option.map_some, Heap.get_put _ (hv.entries h), if_neg]
    rintro rfl
    exact hne hq

theorem entry_eraseEntry :
    (m.eraseEntry p n).entry q k = if p = q ∧ n = k then none else m.entry q k := by
  unfold entry eraseEntry
  rw [Dict.get2?_erase2]
  split <;> rfl

theorem entry_forgotten (type : String) : (m.forgotten p type).entry q k = m.entry q k := by
  obtain ⟨raw, hraw, -⟩ := forgotten_eq p m type
  rw [hraw]
  rfl

end Views

/-! ## The references stay good -/

section Valid

variable {m : Manager} {p n : String} {f : FilePBA}

theorem Valid.keepRaw (hv : m.Valid) : (m.keepRaw f).Valid := by
  constructor
  · intro ref hr
    show ref < (m.heap.alloc f).next
    rw [Heap.next_alloc]
    rcases List.mem_append.1 hr with hr | hr
    · exact Nat.lt_succ_of_lt (hv.raw ref hr)
    · rw [List.mem_singleton.1 hr]
      exact Nat.lt_succ_self _
  · intro pvc k ref h
    show ref < (m.heap.alloc f).next
    rw [Heap.next_alloc]
    exact Nat.lt_succ_of_lt (hv.entries h)

theorem Valid.setEntry (hv : m.Valid) : (m.setEntry p n f).Valid := by
  constructor
  · intro ref hr
    show ref < (m.heap.alloc f).next
    rw [Heap.next_alloc]
    exact Nat.lt_succ_of_lt (hv.raw ref hr)
  · intro pvc k ref h
    show ref < (m.heap.alloc f).next
    rw [Heap.next_alloc]
    rcases Dict.get2?_set2_cases h with ⟨-, -, rfl⟩ | h
    · exact Nat.lt_succ_self _
    · exact Nat.lt_succ_of_lt (hv.entries h)

theorem Valid.addReplica (hv : m.Valid) (ref : Nat) (r : ReplicaPba) :
    (m.addReplica ref r).Valid := by
  refine ⟨fun ref' hr => ?_, fun h => ?_⟩
  · show ref' < (m.heap.put ref _).next
    rw [Heap.next_put]
    exact hv.raw ref' hr
  · show _ < (m.heap.put ref _).next
    rw [Heap.next_put]
    exact hv.entries h

theorem Valid.stored (hv : m.Valid) : (m.stored p n f).Valid := by
  obtain h | ⟨-, e, h⟩ | ⟨ref, r, -, h⟩ := stored_cases p n f m
  · rw [h]
    exact hv
  · rw [h]
    exact hv.setEntry
  · rw [h]
    exact hv.addReplica ref r

theorem Valid.created (hv : m.Valid) (subDir : String) : (m.created p subDir f).Valid := by
  unfold Manager.created
  split
  · exact hv.keepRaw
  · exact hv.keepRaw.stored

theorem Valid.deleted (hv : m.Valid) (subDir : String) : (m.deleted p subDir f).Valid := by
  unfold Manager.deleted
  split
  · exact hv
  · split
    · rename_i n _ _
      obtain ⟨raw, hraw, hsub⟩ := forgotten_eq p (m.eraseEntry p n) f.type
      rw [hraw]
      exact ⟨fun ref hr => hv.raw ref (hsub ref hr), fun h => hv.entries (Dict.get2?_of_erase2 h)⟩
    · exact hv

theorem Valid.after (hv : m.Valid) (r : FMPushPbaRequest) : (m.after r).Valid := by
  unfold Manager.after
  split
  · exact hv
  · split
    · exact hv.created _
    · split
      · exact hv.deleted _
      · exact hv

end Valid

/-! ## Sharing -/

section Unshared

variable {m : Manager} {p n : String} {f : FilePBA}

/-- A reference that no entry has can be entered. -/
theorem Unshared.set2 (hu : m.Unshared) {ref : Nat} (hfree : ∀ q k, m.FM.get2? q k ≠ some ref)
    (heap : Heap FilePBA) : Unshared { m with heap := heap, FM := m.FM.set2 p n ref } := by
  refine ⟨fun h h' => ?_⟩
  rcases Dict.get2?_set2_cases h with ⟨rfl, rfl, rfl⟩ | h
  · rcases Dict.get2?_set2_cases h' with ⟨rfl, rfl, -⟩ | h'
    · exact ⟨rfl, rfl⟩
    · exact absurd h' (hfree _ _)
  · rcases Dict.get2?_set2_cases h' with ⟨rfl, rfl, rfl⟩ | h'
    · exact absurd h (hfree _ _)
    · exact hu.eq h h'

theorem Unshared.setEntry (hu : m.Unshared) (hv : m.Valid) : (m.setEntry p n f).Unshared :=
  hu.set2 (fun _ _ h => Nat.lt_irrefl _ (hv.entries h)) _

theorem Unshared.stored (hu : m.Unshared) (hv : m.Valid) : (m.stored p n f).Unshared := by
  obtain h | ⟨-, e, h⟩ | ⟨ref, r, -, h⟩ := stored_cases p n f m
  · rw [h]
    exact hu
  · rw [h]
    exact hu.setEntry hv
  · rw [h]
    exact ⟨hu.eq⟩

theorem Unshared.deleted (hu : m.Unshared) (subDir : String) :
    (m.deleted p subDir f).Unshared := by
  unfold Manager.deleted
  split
  · exact hu
  · split
    · rename_i n _ _
      obtain ⟨raw, hraw, -⟩ := forgotten_eq p (m.eraseEntry p n) f.type
      rw [hraw]
      exact ⟨fun h h' => hu.eq (Dict.get2?_of_erase2 h) (Dict.get2?_of_erase2 h')⟩
    · exact hu

theorem Unshared.after (hu : m.Unshared) (hv : m.Valid) (r : FMPushPbaRequest) :
    (m.after r).Unshared := by
  unfold Manager.after
  split
  · exact hu
  · split
    · unfold created
      split
      · exact ⟨hu.eq⟩
      · exact Unshared.stored (m := m.keepRaw r.filePba) ⟨hu.eq⟩ hv.keepRaw
    · split
      · exact hu.deleted _
      · exact hu

end Unshared

/-! ## Creating and deleting -/

section Effects

variable {m : Manager} {p n q k subDir : String} {f : FilePBA}

/-- The entry of the path of a created file. -/
theorem entry_stored (hv : m.Valid) (hp : p ∈ m.FM.keys) (hf : f.fileName = n) :
    (m.stored p n f).entry p n = merge (m.entry p n) f := by
  obtain ⟨files, hfiles⟩ := Dict.mem_keys_iff.1 hp
  unfold stored store merge
  split
  · rename_i m' h
    split at h
    · rename_i ht
      simp only [hfiles] at h
      cases h
      rw [if_pos ht, entry_setEntry hv hp, if_pos ⟨rfl, rfl⟩]
    · rename_i ht
      rw [if_neg ht]
      split at h
      · rename_i hrep
        rw [if_pos hrep]
        obtain ⟨first, files', hfirst, hfiles', hcases⟩ := replicate_cases p n f m h
        have hget := Dict.get2?_of_get? (f := n) hfiles'
        simp only [replicaOf, hfirst, Option.map_some]
        rcases hcases with ⟨hnone, rfl⟩ | ⟨ref, hsome, rfl⟩
        · rw [entry_setEntry hv hp, if_pos ⟨rfl, rfl⟩, entry_eq_none_iff.2 (hget.trans hnone)]
          simp [noReplicas, hf]
        · rw [entry_addReplica_self hv (hget.trans hsome),
            entry_eq_some_iff.2 ⟨ref, hget.trans hsome, rfl⟩]
          rfl
      · rename_i hrep
        cases h
        rw [if_neg hrep]
  · -- only a replicated file without extents is refused
    rename_i e h
    split at h
    · simp only [hfiles] at h
      cases h
    · rename_i ht
      rw [if_neg ht]
      split at h
      · rename_i hrep
        rw [if_pos hrep]
        cases hh : f.pba.head? with
        | none => simp [replicaOf, hh]
        | some first =>
          simp only [replicate, hh, hfiles] at h
          split at h <;> cases h
      · cases h

/-- Another entry changes only if it is the message that gets a replica. -/
theorem entry_stored_of_ne (hv : m.Valid) (hne : ¬ (p = q ∧ n = k))
    (hs : Str.isIn "Replicate" f.type = true → ∀ ref, m.FM.get2? p n = some ref →
      m.FM.get2? q k ≠ some ref) :
    (m.stored p n f).entry q k = m.entry q k := by
  unfold stored store
  split
  · rename_i m' h
    split at h
    · split at h
      · cases h
      · rename_i files hfiles
        cases h
        rw [entry_setEntry hv (Dict.mem_keys_iff.2 ⟨files, hfiles⟩), if_neg hne]
    · split at h
      · rename_i hrep
        obtain ⟨first, files, -, hfiles, ⟨-, rfl⟩ | ⟨ref, hsome, rfl⟩⟩ :=
          replicate_cases p n f m h
        · rw [entry_setEntry hv (Dict.mem_keys_iff.2 ⟨files, hfiles⟩), if_neg hne]
        · have hget := (Dict.get2?_of_get? (f := n) hfiles).trans hsome
          exact entry_addReplica_of_ne hv hget (hs hrep ref hget)
      · cases h
        rfl
  · rfl

theorem entryAt_ok_iff {e : FilePBA} : entryAt p n m = .ok e ↔ m.entry p n = some e := by
  unfold entryAt entry
  cases m.FM.get2? p n <;> simp

/-- When `store` leaves an entry of the name. -/
theorem store_entry_iff : (∃ m' e, m.store p n f = .ok m' ∧ m'.entry p n = some e) ↔
    p ∈ m.FM.keys ∧ (f.type = "Distribute" ∨
      if Str.isIn "Replicate" f.type then f.pba ≠ [] else m.FM.get2? p n ≠ none) := by
  have hset : ∀ e, p ∈ m.FM.keys → (m.setEntry p n e).entry p n = some e := by
    intro e hk
    rw [entry, setEntry, Dict.get2?_set2 hk, if_pos ⟨rfl, rfl⟩, Option.map_some,
      Heap.get_alloc_next]
  unfold store
  by_cases hd : f.type = "Distribute"
  · simp only [hd, if_true, true_or, and_true]
    cases hf : m.FM.get? p with
    | none => simp [Dict.get?_eq_none_iff.1 hf]
    | some files =>
      have hk := Dict.mem_keys_iff.2 ⟨files, hf⟩
      exact iff_of_true ⟨_, _, rfl, hset f hk⟩ hk
  · simp only [hd, if_false, false_or]
    by_cases hrep : Str.isIn "Replicate" f.type = true
    · simp only [hrep, if_true]
      unfold replicate
      cases hp : f.pba with
      | nil => simp
      | cons first rest =>
        cases hf : m.FM.get? p with
        | none => simp [Dict.get?_eq_none_iff.1 hf]
        | some files =>
          have hk := Dict.mem_keys_iff.2 ⟨files, hf⟩
          refine iff_of_true ?_ ⟨hk, List.cons_ne_nil first rest⟩
          simp only [List.head?_cons]
          cases hn : files.get? n with
          | none => exact ⟨_, _, rfl, hset _ hk⟩
          | some ref =>
            have href : (m.addReplica ref ⟨first :: rest, first.host⟩).FM.get2? p n = some ref :=
              (Dict.get2?_of_get? hf).trans hn
            exact ⟨_, _, rfl, entry_eq_some_iff.2 ⟨ref, href, rfl⟩⟩
    · simp only [hrep]
      constructor
      · rintro ⟨_, e, h, he⟩
        cases h
        obtain ⟨ref, href, -⟩ := entry_eq_some_iff.1 he
        exact ⟨Dict.mem_keys_of_get2? href, by rw [href]; exact Option.some_ne_none ref⟩
      · rintro ⟨-, hne⟩
        obtain ⟨ref, href⟩ := Option.ne_none_iff_exists'.1 hne
        exact ⟨m, _, rfl, entry_eq_some_iff.2 ⟨ref, href, rfl⟩⟩

theorem entry_created (hv : m.Valid) (hp : p ∈ m.FM.keys)
    (hn : relPath subDir f.fileName = some n) :
    (m.created p subDir f).entry p n = merge (m.entry p n) { f with fileName := n } := by
  simp only [created, hn]
  rw [entry_stored (f := { f with fileName := n }) (hv.keepRaw (f := f)) hp rfl, entry_keepRaw hv]

theorem entry_created_of_ne (hv : m.Valid) (hn : relPath subDir f.fileName = some n)
    (hne : ¬ (p = q ∧ n = k))
    (hs : Str.isIn "Replicate" f.type = true → ∀ ref, m.FM.get2? p n = some ref →
      m.FM.get2? q k ≠ some ref) :
    (m.created p subDir f).entry q k = m.entry q k := by
  simp only [created, hn]
  rw [entry_stored_of_ne (f := { f with fileName := n }) (hv.keepRaw (f := f)) hne hs,
    entry_keepRaw hv]

theorem entry_deleted (hp : p ∈ m.FM.keys) (hn : relPath subDir f.fileName = some n) :
    (m.deleted p subDir f).entry q k = if p = q ∧ n = k then none else m.entry q k := by
  simp only [deleted, hn]
  rw [if_pos (Dict.contains_iff.2 (Dict.mem_keys_iff.1 hp)), entry_forgotten, entry_eraseEntry]

end Effects

end Lba2Pba.Manager
