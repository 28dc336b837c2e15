import Lba2Pba.Manager.Paths

/-!
# Isolation of the PVCs

A file `<brick>/<directory of the PVC>/<path>` is to be stored under that path for that
PVC and for no other, by `PushPba` and by a start. Both look for the directory anywhere
in the name, so this depends on what else stands in it and on the order of the PVCs
(`isolated_iff`): the directory of one PVC can begin like that of another, and whoever
writes to a volume chooses the rest of the path.
-/

namespace Lba2Pba.Manager

open Py

/-- The types that the Manager keeps. -/
def Kept (f : FilePBA) : Prop := f.type = "Distribute" ∨ Str.isIn "Replicate" f.type = true

/-- `PushPba` stores a created file under the path `n` of the PVC `p` and nowhere else. The
entry of a distributed file is the new message itself. -/
structure StoredOnly (env : Env) (m : Manager) (f : FilePBA) (p n : String) : Prop where
  reply : ((pushPba env ⟨"create", f⟩).run ⟨m, []⟩).1 = .ok ⟨"OK", "0"⟩
  stored : ((pushPba env ⟨"create", f⟩).run ⟨m, []⟩).2.self.entry p n =
    merge (m.entry p n) { f with fileName := n }
  new : f.type = "Distribute" → ∃ ref, m.heap.next ≤ ref ∧
    ((pushPba env ⟨"create", f⟩).run ⟨m, []⟩).2.self.FM.get2? p n = some ref
  others : ∀ q k, ¬ (p = q ∧ n = k) →
    ((pushPba env ⟨"create", f⟩).run ⟨m, []⟩).2.self.entry q k = m.entry q k

/-- A start on the file makes the entry for the path `n` of the PVC `p` and no other. -/
def LoadedOnly (info : Dict String String) (f : FilePBA) (p n : String) : Prop :=
  ∃ m, start (.ok info) [f] = .ok m ∧ ∀ q k, (m.entry q k).isSome ↔ p = q ∧ n = k

/-- An entry that gets a replica is the entry of no second path. -/
def Alone (m : Manager) (f : FilePBA) (p n : String) : Prop :=
  Str.isIn "Replicate" f.type = true → ∀ ref q k, m.FM.get2? p n = some ref →
    m.FM.get2? q k = some ref → p = q ∧ n = k

/-- What isolation takes, with the PVCs `before` and `after` in the table: no later directory
occurs in the name, no earlier one with a slash behind it, the path stands between the
first occurrence of the directory of the PVC and the next one, and an entry that gets a
replica is not the entry of a second path. -/
structure Apart (before after : List (String × String)) (p d : String) (m : Manager)
    (f : FilePBA) (n : String) : Prop where
  later : ∀ x ∈ after, Str.isIn x.2 f.fileName ≠ true
  earlier : ∀ x ∈ before, Str.isIn (x.2 ++ "/") f.fileName ≠ true
  piece : Str.Second (d ++ "/").toList f.fileName.toList n.toList
  alone : Alone m f p n

/-! ## The handler -/

section Handler

variable {env : Env} {m : Manager} {p n subDir : String} {f : FilePBA}

/-- A replica is always one more. -/
theorem merge_ne_self (hrep : Str.isIn "Replicate" f.type = true) (hpba : f.pba ≠ [])
    (old : Option FilePBA) : merge old f ≠ old := by
  obtain ⟨first, rest, hf⟩ := List.exists_cons_of_ne_nil hpba
  rw [merge, if_neg (ne_distribute hrep), if_pos hrep]
  simp only [replicaOf, hf, List.head?_cons, Option.map_some]
  cases old with
  | none => exact Option.some_ne_none _
  | some e =>
    intro h
    have hlen := congrArg (fun e => (e.map (fun e => e.rPba.length)).getD 0) h
    simp at hlen

theorem pushCreate_of_none (hn : relPath subDir f.fileName = none) (s : Frame Manager Call) :
    ((pushCreate env p subDir f).run s).1 = .error .indexError := by
  unfold pushCreate
  rw [Exec.run_update_bind, hn]
  rfl

theorem merge_isSome (hf : Kept f) (hpba : f.pba ≠ []) (old : Option FilePBA) :
    (merge old f).isSome := by
  obtain ⟨first, rest, hfirst⟩ := List.exists_cons_of_ne_nil hpba
  rw [merge]
  split
  · rfl
  · rename_i hne
    rw [if_pos (hf.resolve_left hne)]
    simp [replicaOf, hfirst]

/-- A file that can be stored is announced. -/
theorem pushCreate_ok (hr : ∀ n w, env.raises n w = false) (hp : p ∈ m.FM.keys) (hf : Kept f)
    (hpba : f.pba ≠ []) (hn : relPath subDir f.fileName = some n) :
    ((pushCreate env p subDir f).run ⟨m, []⟩).1 = .ok () := by
  have hkept : f.type = "Distribute" ∨
      if Str.isIn "Replicate" f.type then f.pba ≠ [] else (m.keepRaw f).FM.get2? p n ≠ none := by
    refine hf.imp_right (fun hrep => ?_)
    rw [if_pos hrep]
    exact hpba
  obtain ⟨m', e, hm', he⟩ := (store_entry_iff (m := m.keepRaw f)
    (f := { f with fileName := n })).2 ⟨hp, hkept⟩
  unfold pushCreate
  rw [Exec.run_update_bind, hn, Exec.expr_some, Exec.run_pure_bind, Exec.run_attempt_bind_ok hm',
    pushAgents_run p (fun _ => false) hr (entryAt_ok_iff.2 he)]
  simp

/-- A created distributed file is entered as a new message. -/
theorem created_distribute (hp : p ∈ m.FM.keys) (hn : relPath subDir f.fileName = some n)
    (ht : f.type = "Distribute") :
    m.created p subDir f = (m.keepRaw f).setEntry p n { f with fileName := n } := by
  obtain ⟨files, hfiles⟩ := Dict.mem_keys_iff.1 hp
  have hraw : (m.keepRaw f).FM.get? p = some files := hfiles
  simp only [created, hn, Manager.stored, store, ht, if_true, hraw]

/-- A created replicated file with an entry changes the message of the entry. -/
theorem created_replicate {ref : Nat} (href : m.FM.get2? p n = some ref)
    (hn : relPath subDir f.fileName = some n) (hrep : Str.isIn "Replicate" f.type = true) :
    (m.created p subDir f).FM = m.FM := by
  obtain ⟨files, hfiles, hfile⟩ := Dict.get2?_eq_some.1 href
  have hraw : (m.keepRaw f).FM.get? p = some files := hfiles
  simp only [created, hn, Manager.stored, store, if_neg (ne_distribute hrep), if_pos hrep,
    replicate, hraw, hfile]
  cases f.pba.head? <;> rfl

theorem storedOnly_of_place (hr : ∀ n w, env.raises n w = false) (hv : m.Valid)
    (hp : p ∈ m.FM.keys) (hf : Kept f) (hpba : f.pba ≠ [])
    (hplace : m.place f.fileName = some (p, subDir)) (hn : relPath subDir f.fileName = some n)
    (halone : Alone m f p n) : StoredOnly env m f p n := by
  refine ⟨?_, ?_, fun ht => ?_, fun q k hne => ?_⟩
  · rw [pushPba_reply env p subDir ⟨m, []⟩ ⟨"create", f⟩ hplace, pushFor, if_pos rfl,
      pushCreate_ok hr hp hf hpba hn]
    rfl
  · rw [pushPba_self, after_create hplace]
    exact entry_created hv hp hn
  · rw [pushPba_self, after_create hplace, created_distribute hp hn ht]
    refine ⟨(m.keepRaw f).heap.next, ?_, ?_⟩
    · show m.heap.next ≤ (m.heap.alloc f).next
      rw [Heap.next_alloc]
      omega
    · show (m.FM.set2 p n _).get2? p n = _
      rw [Dict.get2?_set2 hp, if_pos ⟨rfl, rfl⟩]
  · rw [pushPba_self, after_create hplace]
    exact entry_created_of_ne hv hn hne (fun hrep ref h1 h2 => hne (halone hrep ref q k h1 h2))

/-- A file that is stored changes the Manager: for a distributed file the reference of the
entry, for another its replicas. -/
theorem StoredOnly.after_ne (h : StoredOnly env m f p n) (hv : m.Valid) (hf : Kept f)
    (hpba : f.pba ≠ []) : m.after ⟨"create", f⟩ ≠ m := by
  intro hsame
  have hself : ((pushPba env ⟨"create", f⟩).run ⟨m, []⟩).2.self = m := by
    rw [pushPba_self]
    exact hsame
  rcases hf with ht | hrep
  · obtain ⟨ref, hle, hnew⟩ := h.new ht
    rw [hself] at hnew
    exact Nat.not_lt.2 hle (hv.entries hnew)
  · have hstored := h.stored
    rw [hself] at hstored
    exact merge_ne_self (f := { f with fileName := n }) hrep hpba _ hstored.symm

theorem StoredOnly.exists_place (h : StoredOnly env m f p n) (hv : m.Valid)
    (hkeys : ∀ {q d}, m.place f.fileName = some (q, d) → q ∈ m.FM.keys) (hf : Kept f)
    (hpba : f.pba ≠ []) :
    ∃ d, m.place f.fileName = some (p, d) ∧ relPath d f.fileName = some n := by
  cases hplace : m.place f.fileName with
  | none =>
    have hsame : m.after ⟨"create", f⟩ = m := by simp only [after, hplace]
    exact absurd hsame (h.after_ne hv hf hpba)
  | some x =>
    obtain ⟨q, d⟩ := x
    have hq := hkeys hplace
    cases hn : relPath d f.fileName with
    | none =>
      have hreply := h.reply
      rw [pushPba_reply env q d ⟨m, []⟩ ⟨"create", f⟩ hplace, pushFor, if_pos rfl,
        pushCreate_of_none hn] at hreply
      cases hreply
    | some k =>
      by_cases hc : p = q ∧ n = k
      · obtain ⟨rfl, rfl⟩ := hc
        exact ⟨d, rfl, hn⟩
      · -- the entry of another path has changed, and this one has not
        exfalso
        have hne : ¬ (q = p ∧ k = n) := fun he => hc ⟨he.1.symm, he.2.symm⟩
        rcases hf with ht | hrep
        · obtain ⟨ref, hle, hnew⟩ := h.new ht
          rw [pushPba_self, after_create hplace, created_distribute hq hn ht] at hnew
          have hold : m.FM.get2? p n = some ref := by
            rw [← hnew]
            exact (Dict.get2?_set2_of_ne hne).symm
          exact Nat.not_lt.2 hle (hv.entries hold)
        · have hother := h.others q k hc
          rw [pushPba_self, after_create hplace, entry_created hv hq hn] at hother
          exact merge_ne_self (f := { f with fileName := k }) hrep hpba _ hother

theorem StoredOnly.alone (h : StoredOnly env m f p n) (hv : m.Valid) (hp : p ∈ m.FM.keys)
    (hpba : f.pba ≠ []) (hplace : m.place f.fileName = some (p, subDir))
    (hn : relPath subDir f.fileName = some n) : Alone m f p n := by
  intro hrep ref q k h1 h2
  by_contra hne
  have hFM := created_replicate h1 hn hrep
  have hsame : (m.created p subDir f).entry q k = (m.created p subDir f).entry p n := by
    rw [entry, entry, hFM, h1, h2]
  have hold : m.entry q k = m.entry p n := by
    rw [entry, entry, h1, h2]
  have hother := h.others q k hne
  rw [pushPba_self, after_create hplace, hsame, entry_created hv hp hn, hold] at hother
  exact merge_ne_self (f := { f with fileName := n }) hrep hpba _ hother

end Handler

/-! ## The start on one file -/

section Load

variable {info : Dict String String} {m m' : Manager} {p q d n : String} {ref : Nat} {f : FilePBA}

theorem pvcFMInsert_one (h : m.rawFM = [ref]) :
    pvcFMInsert m q d = insertFile q d (m.withMap q) ref := by
  show m.rawFM.foldlM (insertFile q d) (m.withMap q) = _
  rw [h, List.foldlM_cons]
  cases insertFile q d (m.withMap q) ref <;> rfl

theorem mem_keys_withMap (q : String) (m : Manager) : q ∈ (m.withMap q).FM.keys := by
  by_cases hq : q ∈ m.FM.keys
  · simp only [withMap]
    rw [if_pos (Dict.contains_iff.2 (Dict.mem_keys_iff.1 hq))]
    exact hq
  · rw [keys_withMap_new hq]
    exact List.mem_append_right _ (List.mem_singleton.2 rfl)

/-- The PVCs whose directory is not in the name leave the message alone. -/
theorem foldlM_skip {l : List (String × String)} (hraw : m.rawFM = [ref])
    (hget : m.heap.get ref = f) (hl : ∀ y ∈ l, Str.isIn (y.2 ++ "/") f.fileName ≠ true)
    (h : l.foldlM (fun m x => pvcFMInsert m x.1 x.2) m = .ok m') :
    m'.rawFM = [ref] ∧ m'.heap.get ref = f := by
  refine foldlM_inv (P := fun _ t => t.rawFM = [ref] ∧ t.heap.get ref = f) ⟨hraw, hget⟩ ?_ h
  rintro done y rest hy t t' ⟨ht, hf⟩ hstep
  have hmem : y ∈ l := by
    rw [hy]
    exact List.mem_append_right _ List.mem_cons_self
  have hmap : (t.withMap y.1).heap.get ref = f := hf
  simp only [pvcFMInsert_one ht, insertFile, hmap, if_neg (hl y hmem)] at hstep
  cases hstep
  exact ⟨ht, hf⟩

/-- A PVC whose directory is in the name gets an entry. -/
theorem exists_of_insertFile (hp : p ∈ m.FM.keys) (hf : Kept (m.heap.get ref))
    (hin : Str.isIn (d ++ "/") (m.heap.get ref).fileName = true)
    (h : insertFile p d m ref = .ok m') : ∃ n r, m'.FM.get2? p n = some r := by
  obtain ⟨n, hn⟩ := relPath_of_isIn hin
  simp only [insertFile, if_pos hin, hn] at h
  split at h
  · cases h
    refine ⟨n, ref, ?_⟩
    rw [Dict.get2?_set2 hp, if_pos ⟨rfl, rfl⟩]
  · rename_i hne
    rw [if_pos (hf.resolve_left hne)] at h
    obtain ⟨first, files, -, hfiles, ⟨-, rfl⟩ | ⟨r, hr, rfl⟩⟩ := replicate_cases p n _ m h
    · refine ⟨n, m.heap.next, ?_⟩
      rw [setEntry, Dict.get2?_set2 hp, if_pos ⟨rfl, rfl⟩]
    · exact ⟨n, r, (Dict.get2?_of_get? hfiles).trans hr⟩

/-- No entry is removed. -/
theorem stays_set2 {FM : Dict String (Dict String Nat)} {k : String} {r r' : Nat}
    (h : FM.get2? p n = some r) : ∃ r, (FM.set2 q k r').get2? p n = some r := by
  by_cases hc : q = p ∧ k = n
  · obtain ⟨rfl, rfl⟩ := hc
    rw [Dict.get2?_set2 (Dict.mem_keys_of_get2? h), if_pos ⟨rfl, rfl⟩]
    exact ⟨_, rfl⟩
  · rw [Dict.get2?_set2_of_ne hc]
    exact ⟨r, h⟩

theorem stays_insertFile (hent : ∃ r, m.FM.get2? p n = some r)
    (h : insertFile q d m ref = .ok m') : ∃ r, m'.FM.get2? p n = some r := by
  obtain ⟨r, hr⟩ := hent
  rcases insertFile_cases h with rfl | ⟨k, -, ⟨-, rfl⟩ | ⟨-, -, h⟩⟩
  · exact ⟨r, hr⟩
  · exact stays_set2 hr
  · obtain ⟨first, files, -, -, ⟨-, rfl⟩ | ⟨r', -, rfl⟩⟩ := replicate_cases q k _ m h
    · exact stays_set2 hr
    · exact ⟨r, hr⟩

theorem stays_pvcFMInsert (hent : ∃ r, m.FM.get2? p n = some r)
    (h : pvcFMInsert m q d = .ok m') : ∃ r, m'.FM.get2? p n = some r := by
  refine foldlM_inv (P := fun _ t => ∃ r, t.FM.get2? p n = some r) ?_ ?_ h
  · have hmap := withMap_get2? q p n m
    obtain ⟨r, hr⟩ := hent
    exact ⟨r, hmap.trans hr⟩
  · intro done i rest _ t t' ht hstep
    exact stays_insertFile ht hstep

/-- The first PVC whose directory is in the name gets an entry in any case. -/
theorem exists_entry_of_first {x : String × String} {l₁ l₂ : List (String × String)}
    (h : start (.ok info) [f] = .ok m) (hl : info.items = l₁ ++ x :: l₂)
    (hfirst : ∀ y ∈ l₁, Str.isIn (y.2 ++ "/") f.fileName ≠ true)
    (hin : Str.isIn (x.2 ++ "/") f.fileName = true) (hf : Kept f) :
    ∃ n r, m.FM.get2? x.1 n = some r := by
  let m₀ : Manager := ⟨⟨[f]⟩, List.range [f].length, ∅, ∅, .ok info⟩
  have hloop : info.items.foldlM (fun m x => pvcFMInsert m x.1 x.2) m₀ = .ok m := h
  rw [hl, List.foldlM_append] at hloop
  obtain ⟨m₁, h₁, hloop⟩ := bind_eq_ok.1 hloop
  obtain ⟨m₂, h₂, h₃⟩ := foldlM_cons_ok.1 hloop
  have hraw₀ : m₀.rawFM = [0] := rfl
  have hget₀ : m₀.heap.get 0 = f := rfl
  obtain ⟨hraw, hget⟩ := foldlM_skip hraw₀ hget₀ hfirst h₁
  rw [pvcFMInsert_one hraw] at h₂
  have hmap : (m₁.withMap x.1).heap.get 0 = f := hget
  rw [← hmap] at hf hin
  obtain ⟨n, hn⟩ := exists_of_insertFile (mem_keys_withMap x.1 m₁) hf hin h₂
  refine ⟨n, foldlM_inv (P := fun _ t => ∃ r, t.FM.get2? x.1 n = some r) hn ?_ h₃⟩
  intro done y rest _ t t' ht hstep
  exact stays_pvcFMInsert ht hstep

/-- With an earlier PVC whose directory is in the name, an earlier PVC gets an entry. -/
theorem exists_earlier_entry {x y : String × String} {before after : List (String × String)}
    (h : start (.ok info) [f] = .ok m) (hl : info.items = before ++ y :: after)
    (hx : x ∈ before) (hin : Str.isIn (x.2 ++ "/") f.fileName = true) (hf : Kept f) :
    ∃ z n, z ∈ before ∧ (m.entry z.1 n).isSome := by
  obtain ⟨z, hz⟩ : ∃ z, before.find? (fun z => Str.isIn (z.2 ++ "/") f.fileName) = some z := by
    rw [← Option.isSome_iff_exists, List.find?_isSome]
    exact ⟨x, hx, hin⟩
  obtain ⟨hinz, l₁, l₂, hb, hfirst⟩ := List.find?_eq_some_iff_append.1 hz
  have hl' : info.items = l₁ ++ z :: (l₂ ++ y :: after) := by
    rw [hl, hb, List.append_assoc, List.cons_append]
  obtain ⟨n, r, hr⟩ := exists_entry_of_first h hl' (fun w hw => by simpa using hfirst w hw) hinz hf
  refine ⟨z, n, List.mem_of_find?_eq_some hz, ?_⟩
  rw [entry, hr]
  rfl

/-- A file that lies under one PVC, for that PVC. -/
theorem loadedOnly_of_pvcsOf (hpvc : pvcsOf info f.fileName = [(p, d)])
    (hn : relPath d f.fileName = some n) (hf : Kept f) (hpba : f.pba ≠ []) :
    LoadedOnly info f p n := by
  have hone : ∀ g ∈ [f], Unambiguous info g.fileName := by
    intro g hg x hx
    rw [List.mem_singleton.1 hg, hpvc] at hx ⊢
    rw [List.mem_singleton.1 hx]
  obtain ⟨m, hm, hs⟩ := start_ok hone (fun g hg _ => by rw [List.mem_singleton.1 hg]; exact hpba)
  obtain ⟨n', hn', ht⟩ := exists_target hpvc
  cases hn.symm.trans hn'
  refine ⟨m, hm, fun q k => ?_⟩
  rw [hs.entries, freshEntry, messagesOf_cons, ht]
  by_cases hc : p = q ∧ n = k
  · obtain ⟨rfl, rfl⟩ := hc
    refine iff_of_true ?_ ⟨rfl, rfl⟩
    rw [if_pos rfl]
    exact merge_isSome (f := { f with fileName := n }) hf hpba none
  · refine iff_of_false ?_ hc
    rw [if_neg (fun he => hc (Prod.mk.inj (Option.some.inj he)))]
    simp [messagesOf]

end Load

/-- **When a created file is isolated.** In every state of a Manager, for every PVC of its
table and every path, in both ways of storing the file. -/
theorem isolated_iff {env : Env} (hr : ∀ n w, env.raises n w = false) {t : Table} {m : Manager}
    (hm : Reachable m) (hinfo : m.pvcInfo = .ok t.info) {p d : String}
    {before after : List (String × String)} (hl : t.info.items = before ++ (p, d) :: after)
    {f : FilePBA} (hf : Kept f) (hpba : f.pba ≠ []) (n : String) :
    StoredOnly env m f p n ∧ LoadedOnly t.info f p n ↔ Apart before after p d m f n := by
  have hx : (p, d) ∈ t.info.items := by
    rw [hl]
    exact List.mem_append_right _ List.mem_cons_self
  have hget := Dict.mem_items_iff.1 hx
  have hne : p ≠ "" := by
    rintro rfl
    exact t.named (Dict.mem_keys_iff.2 ⟨d, hget⟩)
  have hkeys : ∀ {q d}, m.place f.fileName = some (q, d) → q ∈ m.FM.keys := by
    intro q d hplace
    rw [hm.keys hinfo]
    exact Dict.mem_keys_iff.2 ⟨d, ((place_eq_some_iff hinfo).1 hplace).2.2⟩
  constructor
  · rintro ⟨hstored, m', hm', honly⟩
    obtain ⟨d', hplace, hn⟩ := hstored.exists_place hm.valid hkeys hf hpba
    obtain ⟨-, hpvc, hget'⟩ := (place_eq_some_iff hinfo).1 hplace
    cases hget.symm.trans hget'
    refine ⟨((pvcOf_eq_iff hl hne).1 hpvc).2, fun x hmem hin => ?_, relPath_iff.1 hn,
      hstored.alone hm.valid (hkeys hplace) hpba hplace hn⟩
    obtain ⟨y, k, hy, hk⟩ := exists_earlier_entry hm' hl hmem hin hf
    exact (Dict.key_ne_of_split hl).1 y hy ((honly y.1 k).1 hk).1.symm
  · intro h
    have hn := relPath_iff.2 h.piece
    have hin : Str.isIn (d ++ "/") f.fileName = true := by
      by_contra hnot
      rw [relPath_of_not_isIn hnot] at hn
      cases hn
    have hplace : m.place f.fileName = some (p, d) :=
      (place_eq_some_iff hinfo).2 ⟨hne, (pvcOf_eq_iff hl hne).2 ⟨isIn_of_slash hin, h.later⟩, hget⟩
    refine ⟨storedOnly_of_place hr hm.valid (hkeys hplace) hf hpba hplace hn h.alone,
      loadedOnly_of_pvcsOf (pvcsOf_eq_singleton hx hin (fun x hmem hinx => ?_)) hn hf hpba⟩
    rw [hl, List.mem_append, List.mem_cons] at hmem
    rcases hmem with hmem | rfl | hmem
    · exact absurd hinx (h.earlier x hmem)
    · rfl
    · exact absurd (isIn_of_slash hinx) (h.later x hmem)

/-! ### A directory that begins like another -/

/-- The directory `a` is above `b`. -/
def Above (a b : String) : Prop := (a ++ "/").toList <+: b.toList

instance (a b : String) : Decidable (Above a b) :=
  inferInstanceAs (Decidable ((a ++ "/").toList <+: b.toList))

def shorterFirst : Dict String String :=
  ((∅ : Dict String String).set "pvc1" "vol/pvc1").set "pvc10" "vol/pvc10"

def longerFirst : Dict String String :=
  ((∅ : Dict String String).set "pvc10" "vol/pvc10").set "pvc1" "vol/pvc1"

/-- A Manager without files that has maps for two PVCs. -/
def emptyMaps (p q : String) (info : Dict String String) : Manager :=
  ⟨⟨[]⟩, [], ((∅ : Dict String (Dict String Nat)).set p ∅).set q ∅, ∅, .ok info⟩

def tableFile : FilePBA :=
  { pba := [.blockAt "a" (.lit 0)], fileName := "/brick/vol/pvc10/table", type := "Distribute" }

theorem shorterFirst_named : "" ∉ shorterFirst.keys := by decide

theorem shorterFirst_start :
    start (.ok shorterFirst) [] = .ok (emptyMaps "pvc1" "pvc10" shorterFirst) := by
  decide

theorem shorterFirst_isolated :
    StoredOnly quiet (emptyMaps "pvc1" "pvc10" shorterFirst) tableFile "pvc10" "table" ∧
      LoadedOnly shorterFirst tableFile "pvc10" "table" := by
  have hapart : Apart [("pvc1", "vol/pvc1")] [] "pvc10" "vol/pvc10"
      (emptyMaps "pvc1" "pvc10" shorterFirst) tableFile "table" := by
    refine ⟨fun x hx => absurd hx List.not_mem_nil, by decide, relPath_iff.1 (by decide), ?_⟩
    exact fun hrep => absurd hrep (by decide)
  exact (isolated_iff (t := ⟨shorterFirst, shorterFirst_named⟩) (fun _ _ => rfl)
    (.start shorterFirst_start) rfl rfl (.inl rfl) (List.cons_ne_nil _ _) "table").2 hapart

/-- With the PVCs in the other order the file is taken for the wrong one, and `PushPba`
raises. -/
theorem longerFirst_not_isolated :
    (∀ x ∈ longerFirst.items, ∀ y ∈ longerFirst.items, x ≠ y → x.2 ≠ y.2 ∧ ¬ Above x.2 y.2) ∧
    start (.ok longerFirst) [] = .ok (emptyMaps "pvc10" "pvc1" longerFirst) ∧
    tableFile.fileName = "/brick" ++ "/" ++ "vol/pvc10" ++ "/" ++ "table" ∧
    ((pushPba quiet ⟨"create", tableFile⟩).run ⟨emptyMaps "pvc10" "pvc1" longerFirst, []⟩).1 =
      .error .indexError ∧
    ¬ (StoredOnly quiet (emptyMaps "pvc10" "pvc1" longerFirst) tableFile "pvc10" "table" ∧
      LoadedOnly longerFirst tableFile "pvc10" "table") := by
  have hraise : ((pushPba quiet ⟨"create", tableFile⟩).run
      ⟨emptyMaps "pvc10" "pvc1" longerFirst, []⟩).1 = .error .indexError := by
    decide
  refine ⟨by decide, by decide, by decide, hraise, fun h => ?_⟩
  have hreply := h.1.reply
  rw [hraise] at hreply
  cases hreply

end Lba2Pba.Manager
