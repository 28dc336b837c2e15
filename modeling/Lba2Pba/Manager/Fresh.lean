import Lba2Pba.Manager.Start

/-!
# What a start makes of a file map

If no path lies under the directories of two PVCs, each message belongs to one entry
at most, and the loops of the start merge the messages of an entry in the order of
the file map (`freshEntry`). The messages are renamed while the loops go on; a name
only gets shorter, so no message matches a PVC that its path does not lie under.
-/

namespace Lba2Pba.Manager

open Py

/-- The PVCs whose directory a path lies under. -/
def pvcsOf (info : Dict String String) (path : String) : List (String × String) :=
  info.items.filter (fun x => Str.isIn (x.2 ++ "/") path)

/-- The path lies under one PVC, or under none. -/
def Unambiguous (info : Dict String String) (path : String) : Prop :=
  ∀ x ∈ pvcsOf info path, pvcsOf info path = [x]

/-- The PVC and the relative path of a file. -/
def target (info : Dict String String) (path : String) : Option (String × String) :=
  (pvcsOf info path).head?.bind (fun x => (relPath x.2 path).map (fun n => (x.1, n)))

/-- The messages of a path, with their new name. -/
def messagesOf (info : Dict String String) (fm : List FilePBA) (p n : String) : List FilePBA :=
  (fm.filter (fun f => target info f.fileName = some (p, n))).map
    (fun f => { f with fileName := n })

/-- The entry that the messages of a path are merged into. -/
def freshEntry (info : Dict String String) (fm : List FilePBA) (p n : String) : Option FilePBA :=
  (messagesOf info fm p n).foldl merge none

section Paths

variable {info : Dict String String} {path p d n : String}

theorem relPath_of_isIn (h : Str.isIn (d ++ "/") path = true) : ∃ n, relPath d path = some n := by
  refine Str.split_of_isIn ?_ h
  rw [String.toList_append]
  exact List.append_ne_nil_of_right_ne_nil _ (List.cons_ne_nil _ _)

theorem relPath_of_not_isIn (h : Str.isIn (d ++ "/") path ≠ true) : relPath d path = none := by
  rw [relPath, Str.split_of_not_isIn h]
  rfl

theorem isIn_relPath (h : relPath d path = some n) : Str.isIn n path = true :=
  Str.isIn_of_mem_split (List.mem_of_getElem? h)

theorem mem_pvcsOf : (p, d) ∈ pvcsOf info path ↔
    (p, d) ∈ info.items ∧ Str.isIn (d ++ "/") path = true := by
  rw [pvcsOf, List.mem_filter]

theorem exists_target (h : pvcsOf info path = [(p, d)]) :
    ∃ n, relPath d path = some n ∧ target info path = some (p, n) := by
  have hmem : (p, d) ∈ pvcsOf info path := h ▸ List.mem_singleton.2 rfl
  obtain ⟨n, hn⟩ := relPath_of_isIn (mem_pvcsOf.1 hmem).2
  exact ⟨n, hn, by simp [target, h, hn]⟩

/-- The target of a file is a PVC that it lies under. -/
theorem mem_pvcsOf_of_target (h : target info path = some (p, n)) :
    ∃ d, (p, d) ∈ pvcsOf info path := by
  obtain ⟨⟨q, d⟩, hx, hn⟩ := Option.bind_eq_some_iff.1 h
  obtain ⟨n', -, he⟩ := Option.map_eq_some_iff.1 hn
  cases he
  exact ⟨d, List.mem_of_mem_head? hx⟩

theorem messagesOf_append (fm fm' : List FilePBA) :
    messagesOf info (fm ++ fm') p n = messagesOf info fm p n ++ messagesOf info fm' p n := by
  rw [messagesOf, List.filter_append, List.map_append]
  rfl

theorem messagesOf_cons (f : FilePBA) (fm : List FilePBA) :
    messagesOf info (f :: fm) p n = if target info f.fileName = some (p, n) then
      { f with fileName := n } :: messagesOf info fm p n else messagesOf info fm p n := by
  unfold messagesOf
  by_cases h : target info f.fileName = some (p, n) <;> simp [h]

theorem messagesOf_eq_nil {fm : List FilePBA}
    (h : ∀ f ∈ fm, target info f.fileName ≠ some (p, n)) : messagesOf info fm p n = [] := by
  rw [messagesOf, List.map_eq_nil_iff, List.filter_eq_nil_iff]
  intro f hf
  simpa using h f hf

theorem freshEntry_snoc (fm : List FilePBA) (f : FilePBA) :
    freshEntry info (fm ++ [f]) p n =
      if target info f.fileName = some (p, n) then
        merge (freshEntry info fm p n) { f with fileName := n }
      else freshEntry info fm p n := by
  rw [freshEntry, messagesOf_append, messagesOf_cons, List.foldl_append]
  split <;> rfl

end Paths

/-! ## The loops -/

/-- The loops have gone over the first `k p` messages for each PVC `p`. A message that
they have not come to is as it was, and no entry refers to it. -/
structure Inserted (info : Dict String String) (fm : List FilePBA) (k : String → Nat)
    (m : Manager) : Prop where
  valid : m.Valid
  unshared : m.Unshared
  raw : m.rawFM = List.range fm.length
  unseen : ∀ {j f}, fm[j]? = some f → (∀ x, pvcsOf info f.fileName = [x] → k x.1 ≤ j) →
    m.heap.get j = f
  names : ∀ {j f}, fm[j]? = some f → ∀ s, Str.isIn s (m.heap.get j).fileName = true →
    Str.isIn s f.fileName = true
  refs : ∀ {p n j f}, fm[j]? = some f → m.FM.get2? p n = some j →
    ∃ x, pvcsOf info f.fileName = [x] ∧ j < k x.1
  entries : ∀ p n, m.entry p n = freshEntry info (fm.take (k p)) p n

section Step

variable {info : Dict String String} {fm : List FilePBA} {k : String → Nat} {m : Manager}
  {q d n : String} {f : FilePBA}

theorem Inserted.lt_next (h : Inserted info fm k m) {j : Nat} {f : FilePBA}
    (hj : fm[j]? = some f) : j < m.heap.next := by
  refine h.valid.raw j ?_
  rw [h.raw, List.mem_range]
  exact (List.getElem?_eq_some_iff.1 hj).1

/-- The entries after one more message. -/
theorem Inserted.entries_succ (h : Inserted info fm k m) (hf : fm[k q]? = some f)
    (ht : target info f.fileName = some (q, n)) {m' : Manager}
    (he : ∀ p' n', m'.entry p' n' = if q = p' ∧ n = n' then
      merge (m.entry q n) { f with fileName := n } else m.entry p' n') (p' n' : String) :
    m'.entry p' n' =
      freshEntry info (fm.take (Function.update k q (k q + 1) p')) p' n' := by
  rw [he]
  by_cases hp : p' = q
  · subst hp
    rw [Function.update_self, List.take_add_one, hf, Option.toList_some, freshEntry_snoc, ht]
    by_cases hn : n = n'
    · subst hn
      rw [if_pos ⟨rfl, rfl⟩, if_pos rfl, h.entries]
    · have hne : ¬ (some (p', n) = some (p', n')) := by simpa using hn
      rw [if_neg (fun hc => hn hc.2), if_neg hne, h.entries]
  · rw [Function.update_of_ne hp, if_neg (fun hc => hp hc.1.symm), h.entries]

theorem le_update (p : String) : k p ≤ Function.update k q (k q + 1) p := by
  by_cases hp : p = q
  · rw [hp, Function.update_self]
    exact Nat.le_succ _
  · rw [Function.update_of_ne hp]

/-- A message that does not lie under the PVC is passed over. -/
theorem Inserted.skip (h : Inserted info fm k m) (hx : (q, d) ∈ info.items)
    (hf : fm[k q]? = some f) (hne : (q, d) ∉ pvcsOf info f.fileName) :
    insertFile q d m (k q) = .ok m ∧ Inserted info fm (Function.update k q (k q + 1)) m := by
  constructor
  · have hnot : Str.isIn (d ++ "/") (m.heap.get (k q)).fileName ≠ true :=
      fun hin => hne (mem_pvcsOf.2 ⟨hx, h.names hf _ hin⟩)
    simp only [insertFile, if_neg hnot]
  · refine ⟨h.valid, h.unshared, h.raw, fun hj hk => h.unseen hj (fun y hy => ?_), h.names,
      fun hj hr => ?_, fun p n => ?_⟩
    · exact (le_update y.1).trans (hk y hy)
    · obtain ⟨y, hy, hlt⟩ := h.refs hj hr
      exact ⟨y, hy, hlt.trans_le (le_update y.1)⟩
    · rw [h.entries]
      by_cases hp : p = q
      · subst hp
        rw [Function.update_self, List.take_add_one, hf, Option.toList_some, freshEntry_snoc,
          if_neg]
        intro ht
        obtain ⟨d', hd'⟩ := mem_pvcsOf_of_target ht
        have hget := Dict.mem_items_iff.1 (mem_pvcsOf.1 hd').1
        rw [Dict.mem_items_iff.1 hx] at hget
        cases hget
        exact hne hd'
      · rw [Function.update_of_ne hp]

/-- The message of the file is still the one of the file map, and nobody refers to it. -/
theorem Inserted.current (h : Inserted info fm k m) (hf : fm[k q]? = some f)
    (hpvc : pvcsOf info f.fileName = [(q, d)]) :
    m.heap.get (k q) = f ∧ ∀ p n, m.FM.get2? p n ≠ some (k q) := by
  constructor
  · refine h.unseen hf (fun x hx => ?_)
    cases hpvc.symm.trans hx
    exact le_rfl
  · intro p n hr
    obtain ⟨x, hx, hlt⟩ := h.refs hf hr
    cases hpvc.symm.trans hx
    exact Nat.lt_irrefl _ hlt

theorem entry_adopt {ref : Nat} (hr : ref < m.heap.next) (hq : q ∈ m.FM.keys)
    (hfree : ∀ p n, m.FM.get2? p n ≠ some ref) (p' n' : String) :
    (m.adopt q n ref).entry p' n' =
      if q = p' ∧ n = n' then some { m.heap.get ref with fileName := n } else m.entry p' n' := by
  simp only [entry, adopt]
  rw [Dict.get2?_set2 hq]
  split
  · rw [Option.map_some, Heap.get_put _ hr, if_pos rfl]
  · cases hp : m.FM.get2? p' n' with
    | none => rfl
    | some ref' =>
      rw [Option.map_some, Option.map_some, Heap.get_put _ hr, if_neg]
      rintro rfl
      exact hfree p' n' hp

/-- A distributed file: its message becomes the entry. -/
theorem Inserted.adopt (h : Inserted info fm k m) (hq : q ∈ m.FM.keys) (hf : fm[k q]? = some f)
    (hpvc : pvcsOf info f.fileName = [(q, d)]) (hn : relPath d f.fileName = some n)
    (ht : target info f.fileName = some (q, n)) (htype : f.type = "Distribute") :
    Inserted info fm (Function.update k q (k q + 1)) (m.adopt q n (k q)) := by
  obtain ⟨hcur, hfree⟩ := h.current hf hpvc
  have hr := h.lt_next hf
  have hget : ∀ i, (m.adopt q n (k q)).heap.get i =
      if k q = i then { f with fileName := n } else m.heap.get i := by
    intro i
    rw [← hcur]
    exact Heap.get_put _ hr
  refine ⟨h.valid.adopt hr n, h.unshared.set2 hfree _, h.raw, fun {j g} hj hk => ?_,
    fun {j g} hj s hs => ?_, fun {p' n' j g} hj hi => ?_, ?_⟩
  · rw [hget, if_neg]
    · exact h.unseen hj (fun x hx => (le_update x.1).trans (hk x hx))
    · rintro rfl
      cases hf.symm.trans hj
      have hle := hk _ hpvc
      rw [Function.update_self] at hle
      exact Nat.not_succ_le_self _ hle
  · rw [hget] at hs
    split at hs
    · rename_i hc
      subst hc
      cases hf.symm.trans hj
      exact Str.isIn_trans hs (isIn_relPath hn)
    · exact h.names hj s hs
  · rcases Dict.get2?_set2_cases hi with ⟨-, -, rfl⟩ | hi
    · cases hf.symm.trans hj
      refine ⟨_, hpvc, ?_⟩
      rw [Function.update_self]
      exact Nat.lt_succ_self _
    · obtain ⟨x, hx, hlt⟩ := h.refs hj hi
      exact ⟨x, hx, hlt.trans_le (le_update x.1)⟩
  · refine h.entries_succ hf ht (fun p' n' => ?_)
    rw [entry_adopt hr hq hfree, hcur, merge, if_pos htype]

/-- What `store` does to the messages that are there. -/
theorem get_stored {i : Nat} (hv : m.Valid) (hi : i < m.heap.next) :
    ((m.stored q n f).heap.get i).fileName = (m.heap.get i).fileName ∧
      (m.FM.get2? q n ≠ some i → (m.stored q n f).heap.get i = m.heap.get i) := by
  obtain h | ⟨hp, e, h⟩ | ⟨ref, r, href, h⟩ := stored_cases q n f m
  · rw [h]
    exact ⟨rfl, fun _ => rfl⟩
  · have hget : (m.setEntry q n e).heap.get i = m.heap.get i := Heap.get_alloc_of_lt e hi
    rw [h, hget]
    exact ⟨rfl, fun _ => rfl⟩
  · have hget : (m.addReplica ref r).heap.get i = if ref = i then
        { m.heap.get ref with rPba := (m.heap.get ref).rPba ++ [r] } else m.heap.get i :=
      Heap.get_put _ (hv.entries href)
    rw [h, hget]
    split
    · rename_i hc
      subst hc
      exact ⟨rfl, fun hne => absurd href hne⟩
    · exact ⟨rfl, fun _ => rfl⟩

theorem type_stored {i : Nat} (hv : m.Valid) (hi : i < m.heap.next) :
    ((m.stored q n f).heap.get i).type = (m.heap.get i).type := by
  obtain h | ⟨hp, e, h⟩ | ⟨ref, r, href, h⟩ := stored_cases q n f m
  · rw [h]
  · rw [h]
    exact congrArg FilePBA.type (Heap.get_alloc_of_lt e hi)
  · rw [h, addReplica, Heap.get_put _ (hv.entries href)]
    split
    · rename_i hc
      rw [← hc]
    · rfl

/-- What `store` does to the references. -/
theorem get2?_stored {p' n' : String} {i : Nat}
    (hi : (m.stored q n f).FM.get2? p' n' = some i) :
    m.FM.get2? p' n' = some i ∨ i = m.heap.next := by
  obtain h | ⟨-, e, h⟩ | ⟨ref, r, -, h⟩ := stored_cases q n f m
  · rw [h] at hi
    exact .inl hi
  · rw [h] at hi
    rcases Dict.get2?_set2_cases hi with ⟨-, -, rfl⟩ | hi
    · exact .inr rfl
    · exact .inl hi
  · rw [h] at hi
    exact .inl hi

theorem rawFM_stored : (m.stored q n f).rawFM = m.rawFM := by
  obtain h | ⟨-, e, h⟩ | ⟨ref, r, -, h⟩ := stored_cases q n f m <;> rw [h] <;> rfl

/-- Any other file: its extents are added as by `PushPba`. -/
theorem Inserted.stored (h : Inserted info fm k m) (hq : q ∈ m.FM.keys) (hf : fm[k q]? = some f)
    (hpvc : pvcsOf info f.fileName = [(q, d)]) (ht : target info f.fileName = some (q, n)) :
    Inserted info fm (Function.update k q (k q + 1))
      (m.stored q n { f with fileName := n }) := by
  obtain ⟨-, hfree⟩ := h.current hf hpvc
  refine ⟨h.valid.stored, h.unshared.stored h.valid, rawFM_stored.trans h.raw,
    fun {j g} hj hk => ?_, fun {j g} hj s hs => ?_, fun {p' n' j g} hj hi => ?_, ?_⟩
  · have hunseen : ∀ x, pvcsOf info g.fileName = [x] → k x.1 ≤ j :=
      fun x hx => (le_update x.1).trans (hk x hx)
    rw [(get_stored h.valid (h.lt_next hj)).2]
    · exact h.unseen hj hunseen
    · intro hr
      obtain ⟨x, hx, hlt⟩ := h.refs hj hr
      exact Nat.not_lt.2 (hunseen x hx) hlt
  · rw [(get_stored h.valid (h.lt_next hj)).1] at hs
    exact h.names hj s hs
  · rcases get2?_stored hi with hi | rfl
    · obtain ⟨x, hx, hlt⟩ := h.refs hj hi
      exact ⟨x, hx, hlt.trans_le (le_update x.1)⟩
    · exact absurd (h.lt_next hj) (Nat.lt_irrefl _)
  · refine h.entries_succ hf ht (fun p' n' => ?_)
    by_cases hc : q = p' ∧ n = n'
    · obtain ⟨rfl, rfl⟩ := hc
      rw [if_pos ⟨rfl, rfl⟩]
      exact entry_stored h.valid hq rfl
    · rw [if_neg hc]
      exact entry_stored_of_ne h.valid hc (fun _ ref h1 h2 => hc (h.unshared.eq h1 h2))

/-- One pass of the loop in `pvcFMInsert`. -/
theorem Inserted.insertFile (h : Inserted info fm k m)
    (hone : ∀ f ∈ fm, Unambiguous info f.fileName)
    (hpba : ∀ f ∈ fm, Str.isIn "Replicate" f.type = true → f.pba ≠ [])
    (hx : (q, d) ∈ info.items) (hq : q ∈ m.FM.keys) (hf : fm[k q]? = some f) :
    ∃ m', insertFile q d m (k q) = .ok m' ∧ m'.FM.keys = m.FM.keys ∧ m'.pvcInfo = m.pvcInfo ∧
      Inserted info fm (Function.update k q (k q + 1)) m' := by
  have hmem : f ∈ fm := List.mem_of_getElem? hf
  by_cases hxq : (q, d) ∈ pvcsOf info f.fileName
  · have hpvc := hone f hmem _ hxq
    obtain ⟨n, hn, ht⟩ := exists_target hpvc
    have hin : Str.isIn (d ++ "/") f.fileName = true := (mem_pvcsOf.1 hxq).2
    have hcur := (h.current hf hpvc).1
    by_cases htype : f.type = "Distribute"
    · refine ⟨m.adopt q n (k q), ?_, Dict.keys_set2 _ _ _ _, rfl, h.adopt hq hf hpvc hn ht htype⟩
      simp only [Manager.insertFile, hcur, hin, hn, htype, if_true, Manager.adopt]
    · have hfrozen := frozen_stored q n { f with fileName := n } m
      refine ⟨m.stored q n { f with fileName := n }, ?_, hfrozen.keys, hfrozen.pvcInfo,
        h.stored hq hf hpvc ht⟩
      simp only [Manager.insertFile, hcur, hin, hn, if_true, if_neg htype, Manager.stored, store]
      split
      · rename_i hrep
        obtain ⟨first, hfirst⟩ := Option.ne_none_iff_exists'.1
          (fun hnil => hpba f hmem hrep (List.head?_eq_none_iff.1 hnil))
        obtain ⟨files, hfiles⟩ := Dict.mem_keys_iff.1 hq
        simp only [replicate, hfirst, hfiles]
        split <;> rfl
      · rfl
  · obtain ⟨hok, hnext⟩ := h.skip hx hf hxq
    exact ⟨m, hok, rfl, rfl, hnext⟩

theorem Inserted.withMap (h : Inserted info fm k m) : Inserted info fm k (m.withMap q) := by
  have hget : ∀ p n, (m.withMap q).FM.get2? p n = m.FM.get2? p n :=
    fun p n => withMap_get2? q p n m
  refine ⟨h.valid.withMap, ⟨fun h1 h2 => ?_⟩, h.raw, h.unseen, h.names, fun hj hr => ?_,
    fun p n => ?_⟩
  · rw [hget] at h1 h2
    exact h.unshared.eq h1 h2
  · rw [hget] at hr
    exact h.refs hj hr
  · rw [← h.entries, entry, hget]
    rfl

/-- The loop of `pvcFMInsert` goes over the whole file map. -/
theorem Inserted.pvcFMInsert (h : Inserted info fm k m)
    (hone : ∀ f ∈ fm, Unambiguous info f.fileName)
    (hpba : ∀ f ∈ fm, Str.isIn "Replicate" f.type = true → f.pba ≠ [])
    (hx : (q, d) ∈ info.items) (hk : k q = 0) (hq : q ∉ m.FM.keys) :
    ∃ m', pvcFMInsert m q d = .ok m' ∧ m'.FM.keys = m.FM.keys ++ [q] ∧
      m'.pvcInfo = m.pvcInfo ∧ Inserted info fm (Function.update k q fm.length) m' := by
  have hkeys := keys_withMap_new hq
  let P (done : List Nat) (t : Manager) : Prop := t.FM.keys = m.FM.keys ++ [q] ∧
    t.pvcInfo = m.pvcInfo ∧ Inserted info fm (Function.update k q done.length) t
  have h0 : P [] (m.withMap q) := by
    refine ⟨hkeys, rfl, ?_⟩
    rw [List.length_nil, ← hk, Function.update_eq_self]
    exact h.withMap
  suffices hstep : ∀ done j rest, m.rawFM = done ++ j :: rest → ∀ t, P done t →
      ∃ t', Manager.insertFile q d t j = .ok t' ∧ P (done ++ [j]) t' by
    obtain ⟨m', hm', hkeys', hinfo, hins⟩ := foldlM_total h0 hstep
    refine ⟨m', hm', hkeys', hinfo, ?_⟩
    rwa [h.raw, List.length_range] at hins
  rintro done j rest hl t ⟨htk, hti, ht⟩
  have hj : (List.range fm.length)[done.length]? = some j := by
    rw [← h.raw, hl]
    simp
  obtain ⟨hlt, hjv⟩ := List.getElem?_eq_some_iff.1 hj
  rw [List.getElem_range] at hjv
  rw [List.length_range] at hlt
  have hkq : Function.update k q done.length q = j := by rw [Function.update_self, hjv]
  have hf : fm[Function.update k q done.length q]? = some fm[done.length] := by
    rw [Function.update_self]
    exact List.getElem?_eq_getElem hlt
  have hqt : q ∈ t.FM.keys := by
    rw [htk]
    exact List.mem_append_right _ (List.mem_singleton.2 rfl)
  obtain ⟨t', hok, hk', hi', hins⟩ := ht.insertFile hone hpba hx hqt hf
  refine ⟨t', hkq ▸ hok, hk'.trans htk, hi'.trans hti, ?_⟩
  rw [List.length_append, List.length_singleton]
  rwa [Function.update_idem, Function.update_self] at hins

end Step

/-! ## The whole start -/

/-- A Manager as a start makes it of a file map. -/
structure Started (info : Dict String String) (fm : List FilePBA) (m : Manager) : Prop where
  keys : m.FM.keys = info.keys
  pvcInfo : m.pvcInfo = .ok info
  valid : m.Valid
  unshared : m.Unshared
  entries : ∀ p n, m.entry p n = freshEntry info fm p n

theorem freshEntry_of_not_mem {info : Dict String String} {p : String} (hp : p ∉ info.keys)
    (fm : List FilePBA) (n : String) : freshEntry info fm p n = none := by
  have hnil : messagesOf info fm p n = [] := by
    refine messagesOf_eq_nil (fun f _ ht => ?_)
    obtain ⟨d, hd⟩ := mem_pvcsOf_of_target ht
    exact hp (Dict.mem_keys_iff.2 ⟨d, Dict.mem_items_iff.1 (mem_pvcsOf.1 hd).1⟩)
  rw [freshEntry, hnil]
  rfl

/-- The messages read for each PVC when the PVCs of `done` have been inserted. -/
def readFor (fm : List FilePBA) (done : List (String × String)) (p : String) : Nat :=
  if p ∈ done.map Prod.fst then fm.length else 0

theorem readFor_snoc (fm : List FilePBA) (done : List (String × String)) (q d : String) :
    readFor fm (done ++ [(q, d)]) = Function.update (readFor fm done) q fm.length := by
  funext p
  by_cases hp : p = q
  · rw [hp, Function.update_self]
    exact if_pos (by simp)
  · have hmem : p ∈ (done ++ [(q, d)]).map Prod.fst ↔ p ∈ done.map Prod.fst := by
      rw [List.map_append, List.mem_append]
      simp [hp]
    rw [Function.update_of_ne hp]
    simp only [readFor, hmem]

theorem inserted_nil (info : Dict String String) (fm : List FilePBA) :
    Inserted info fm (readFor fm []) ⟨⟨fm⟩, List.range fm.length, ∅, ∅, .ok info⟩ := by
  have hget : ∀ {p n ref}, (∅ : Dict String (Dict String Nat)).get2? p n = some ref → False := by
    intro p n ref h
    rw [Dict.get2?_of_none (Dict.get?_empty p)] at h
    cases h
  have hobj : ∀ {j f}, fm[j]? = some f → (⟨fm⟩ : Heap FilePBA).get j = f := by
    intro j f hj
    simp [Heap.get, hj]
  refine ⟨⟨fun ref hr => List.mem_range.1 hr, fun h => (hget h).elim⟩,
    ⟨fun h => (hget h).elim⟩, rfl, fun hj _ => hobj hj, fun {j f} hj s hs => ?_,
    fun _ h => (hget h).elim, fun p n => ?_⟩
  · rwa [hobj hj] at hs
  · rfl

/-- A start on a file map whose paths lie under one PVC each, or under none, succeeds, and
merges the messages of each path in their order. -/
theorem start_ok {info : Dict String String} {fm : List FilePBA}
    (hone : ∀ f ∈ fm, Unambiguous info f.fileName)
    (hpba : ∀ f ∈ fm, Str.isIn "Replicate" f.type = true → f.pba ≠ []) :
    ∃ m, start (.ok info) fm = .ok m ∧ Started info fm m := by
  let P (done : List (String × String)) (t : Manager) : Prop :=
    t.FM.keys = done.map Prod.fst ∧ t.pvcInfo = .ok info ∧ Inserted info fm (readFor fm done) t
  suffices hstep : ∀ done x rest, info.items = done ++ x :: rest → ∀ t, P done t →
      ∃ t', pvcFMInsert t x.1 x.2 = .ok t' ∧ P (done ++ [x]) t' by
    obtain ⟨m, hm, hkeys, hinfo, hins⟩ := foldlM_total ⟨rfl, rfl, inserted_nil info fm⟩ hstep
    refine ⟨m, hm, hkeys, hinfo, hins.valid, hins.unshared, fun p n => ?_⟩
    rw [hins.entries]
    by_cases hp : p ∈ info.items.map Prod.fst
    · simp only [readFor, if_pos hp, List.take_length]
    · rw [freshEntry_of_not_mem hp, freshEntry_of_not_mem hp]
  rintro done ⟨q, d⟩ rest hl t ⟨htk, hti, ht⟩
  have hx : (q, d) ∈ info.items := by
    rw [hl]
    exact List.mem_append_right _ List.mem_cons_self
  have hnew : q ∉ done.map Prod.fst := by
    intro hq
    obtain ⟨x, hx', hxq⟩ := List.mem_map.1 hq
    exact (Dict.key_ne_of_split hl).1 x hx' hxq
  obtain ⟨t', hok, hk', hi', hins⟩ := ht.pvcFMInsert hone hpba hx (if_neg hnew) (htk ▸ hnew)
  refine ⟨t', hok, ?_, hi'.trans hti, ?_⟩
  · rw [hk', htk, List.map_append]
    rfl
  · rw [readFor_snoc]
    exact hins

end Lba2Pba.Manager
