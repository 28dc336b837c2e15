import Lba2Pba.Manager.AgentSync

/-!
# Modified files

`PushPba` with `modify` chooses its branch by another test than `create` does: the
types `Distribute` and `Distributed-Replicate` both assign to the repeated field `pba`
of the entry, which raises, and the search among the replicas of a `Replicate` file
subscripts the entry itself, which raises as well. No entry is ever modified.
-/

namespace Lba2Pba.Manager

open Py

/-- The entry with the extents of the file: those of a distributed file, or those of
the replica of a node. -/
def withExtents (f : FilePBA) (node : String) (e : FilePBA) : FilePBA :=
  if f.type = "Distribute" then { e with pba := f.pba }
  else { e with rPba := e.rPba.map (fun r => if r.Node = node then { r with pba := f.pba } else r) }

/-- `PushPba` with `modify` replies with status `0`, puts the extents of the file into
its entry and changes nothing else. -/
structure Modifies (env : Env) (m : Manager) (f : FilePBA) (pvc rel node : String) : Prop where
  reply : ∃ res, ((pushPba env ⟨"modify", f⟩).run ⟨m, []⟩).1 = .ok res ∧ res.status = "0"
  entry : ((pushPba env ⟨"modify", f⟩).run ⟨m, []⟩).2.self.entry pvc rel =
    (m.entry pvc rel).map (withExtents f node)
  replica : f.type ≠ "Distribute" → ∃ e r,
    ((pushPba env ⟨"modify", f⟩).run ⟨m, []⟩).2.self.entry pvc rel = some e ∧
      r ∈ e.rPba ∧ r.Node = node ∧ r.pba = f.pba
  others : ∀ q k, ¬ (q = pvc ∧ k = rel) →
    ((pushPba env ⟨"modify", f⟩).run ⟨m, []⟩).2.self.entry q k = m.entry q k

section Modify

variable {env : Env} {m : Manager} {f : FilePBA} {pvc subDir rel : String} {first : PBA}

/-- What the handler returns for a file that has an entry. -/
theorem pushModify_result {ref : Nat} (sent : List Call)
    (hrel : relPath subDir f.fileName = some rel)
    (href : m.FM.get2? pvc rel = some ref) (hfirst : f.pba.head? = some first) :
    ((pushModify pvc subDir f).run ⟨m, sent⟩).1 =
      if Str.isIn "Distribute" f.type then .error .attributeError
      else if Str.isIn "Replicate" f.type ∧ (m.heap.get ref).rPba ≠ [] then .error .typeError
      else .ok () := by
  unfold pushModify
  rw [hrel, Exec.expr_some, Exec.run_pure_bind, Exec.run_self_bind]
  split
  · rw [href, Exec.expr_some, Exec.run_pure_bind]
    rfl
  · split
    · rename_i hrep
      rw [hfirst, Exec.expr_some, Exec.run_pure_bind, href, Exec.expr_some, Exec.run_pure_bind]
      cases (m.heap.get ref).rPba with
      | nil => simp
      | cons r l => simp [hrep]
    · rename_i hrep
      simp [hrep]

/-- **No modification reaches an entry.** For every Manager that has an entry of the file,
every message that `PushPba` takes for it and each of the three types, the request does
not do what a modification is for. -/
theorem not_modifies (hplace : m.place f.fileName = some (pvc, subDir))
    (hrel : relPath subDir f.fileName = some rel) (hentry : m.entry pvc rel ≠ none)
    (hfirst : f.pba.head? = some first)
    (htype : f.type ∈ ["Distribute", "Replicate", "Distributed-Replicate"]) :
    ¬ Modifies env m f pvc rel first.host := by
  intro h
  obtain ⟨ref, href⟩ := Option.ne_none_iff_exists'.1 (mt entry_eq_none_iff.2 hentry)
  have hfor : ∀ s : Frame Manager Call, (pushFor env ⟨"modify", f⟩ pvc subDir).run s =
      (pushModify pvc subDir f).run s := fun s => rfl
  have hresult := pushModify_result [] hrel href hfirst
  obtain ⟨res, hres, -⟩ := h.reply
  rw [pushPba_reply env pvc subDir ⟨m, []⟩ ⟨"modify", f⟩ hplace, hfor, hresult] at hres
  by_cases hdist : Str.isIn "Distribute" f.type = true
  · rw [if_pos hdist] at hres
    cases hres
  · -- the one type without the substring is the one with replicas
    have ht : f.type = "Replicate" := by
      simp only [List.mem_cons, List.not_mem_nil, or_false] at htype
      rcases htype with ht | ht | ht
      · rw [ht] at hdist
        exact absurd (by decide) hdist
      · exact ht
      · rw [ht] at hdist
        exact absurd (by decide) hdist
    have hrep : Str.isIn "Replicate" f.type = true := by
      rw [ht]
      decide
    rw [if_neg hdist] at hres
    split at hres
    · cases hres
    · rename_i hnil
      have hnone : (m.heap.get ref).rPba = [] := by
        by_contra hne
        exact hnil ⟨hrep, hne⟩
      obtain ⟨e, r, he, hr, -⟩ := h.replica (by rw [ht]; decide)
      rw [pushPba_self, after_modify] at he
      obtain ⟨ref', href', rfl⟩ := entry_eq_some_iff.1 he
      obtain rfl := Option.some.inj (href.symm.trans href')
      rw [hnone] at hr
      cases hr

end Modify

/-- A Manager with one file. -/
def oneTable (type : String) : Manager :=
  noFiles.after (tableAt "create" type "a" (.lit 0))

theorem replicaModified_not_modifies :
    ¬ Modifies quiet (oneTable "Replicate") (tableAt "modify" "Replicate" "a" (.lit 8192)).filePba
      "pvc1" "table" "a" := by
  have hfirst : (tableAt "modify" "Replicate" "a" (.lit 8192)).filePba.pba.head? =
      some (.blockAt "a" (.lit 8192)) := rfl
  exact not_modifies rfl rfl (by decide) hfirst (by decide)

theorem tableModified_raises :
    (oneTable "Distribute").entry "pvc1" "table" ≠ none ∧
    ((pushPba quiet (tableAt "modify" "Distribute" "a" (.lit 8192))).run
      ⟨oneTable "Distribute", []⟩).1 = .error .attributeError ∧
    ¬ Modifies quiet (oneTable "Distribute") (tableAt "modify" "Distribute" "a" (.lit 8192)).filePba
      "pvc1" "table" "a" := by
  refine ⟨by decide, by decide, ?_⟩
  intro h
  obtain ⟨res, hres, -⟩ := h.reply
  cases hres

end Lba2Pba.Manager
