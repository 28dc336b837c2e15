import Lba2Pba.Run.Keyed
import Lba2Pba.Trace.Invariant

/-!
# The order of messages about different files

Messages about base files act on the two maps file by file, so what the maps hold
after a run depends on the messages about each file alone. The replies are another
matter: the deletion of a file can fail because of `shardDict`, which the files
share.
-/

namespace Lba2Pba.Trace

open Py

/-- A request about a base file that names a node. -/
def BaseRequest (r : TChangeRequest) : Prop :=
  isShard r.filePba.fileName = false ∧ r.filePba.pba ≠ []

instance (r : TChangeRequest) : Decidable (BaseRequest r) := inferInstanceAs (Decidable (_ ∧ _))

/-- The requests of a run about one file, in their order. -/
def about (id : Option String × String) (l : List (Env × TChangeRequest)) : List TChangeRequest :=
  (l.map Prod.snd).filter (fun r => decide (fileId r.filePba = id))

/-- The same dictionaries as maps. -/
def SameMaps (t t' : Trace) : Prop :=
  (∀ n, n ∈ t.fmDict.keys ↔ n ∈ t'.fmDict.keys) ∧ (∀ n, n ∈ t.rawFM.keys ↔ n ∈ t'.rawFM.keys) ∧
    ∀ n f, t.cell n f = t'.cell n f

/-! ## The maps as a keyed system -/

/-- What is seen of a file: whether its node is known, and its cell. -/
def seen (t : Trace) (id : Option String × String) : Bool × Cell :=
  match id.1 with
  | none => (false, ⟨none, none⟩)
  | some n => (decide (n ∈ t.fmDict.keys), t.cell n id.2)

def applySeen (r : TChangeRequest) (c : Bool × Cell) : Bool × Cell :=
  (c.1, if c.1 then c.2.apply r.action r.filePba else c.2)

theorem seen_after {t : Trace} (h : Sound t) {r : TChangeRequest} (hr : BaseRequest r)
    (toShard : String → String → Option String) (id : Option String × String) :
    seen (t.after toShard r) id =
      if fileId r.filePba = id then applySeen r (seen t id) else seen t id := by
  obtain ⟨first, hp⟩ := Option.ne_none_iff_exists'.1 (mt List.head?_eq_none_iff.1 hr.2)
  have hid : fileId r.filePba = (some first.host, r.filePba.fileName) := by rw [fileId, hp]; rfl
  obtain ⟨o, g⟩ := id
  cases o with
  | none => simp [seen, hid]
  | some m =>
    have hkeys := (sameNodes_after toShard r t).1
    simp only [seen, applySeen, hid, hkeys, Prod.mk.injEq, Option.some.injEq]
    by_cases hk : first.host ∈ t.fmDict.keys
    · rw [cell_after_base _ hp hr.1 (h.knows hk)]
      split
      · rename_i hc
        rw [← hc.1]
        simp [hk]
      · rfl
    · rw [after_of_not_mem hp hr.1 hk]
      split
      · rename_i hc
        rw [← hc.1]
        simp [hk]
      · rfl

theorem keyed_runAll : Run.Keyed
    (fun (t : Trace) (x : Env × TChangeRequest) => ((tChangeFile x.1 x.2).run ⟨t, []⟩).2.self)
    seen (fun x => fileId x.2.filePba) (fun x => applySeen x.2) Sound
    (fun x => BaseRequest x.2) where
  inv_step := by
    intro t x ht _
    rw [tChangeFile_self]
    exact ht.after x.1.toShard x.2
  view_step := by
    intro t x ht hx id
    rw [tChangeFile_self]
    exact seen_after ht hx x.1.toShard id

theorem seen_runAll {t : Trace} (h : Sound t) {l : List (Env × TChangeRequest)}
    (hl : ∀ x ∈ l, BaseRequest x.2) (id : Option String × String) :
    seen (t.runAll l) id = (about id l).foldl (fun c r => applySeen r c) (seen t id) := by
  rw [runAll, keyed_runAll.view_foldl h hl id, about, List.filter_map, List.foldl_map]
  rfl

theorem SameMaps.seen {t t' : Trace} (h : SameMaps t t') (id : Option String × String) :
    seen t id = seen t' id := by
  obtain ⟨o, f⟩ := id
  cases o with
  | none => rfl
  | some n => simp only [Trace.seen, h.1 n, h.2.2 n f]

/-- **Interleavings do not matter.** Two runs that have the same requests about each
file, in the same order, end with the same maps, whatever managers are registered in
the two and whatever the environments of their requests are. -/
theorem runAll_interleave {t₁ t₂ : Trace} (ht₁ : Reachable t₁) (ht₂ : Reachable t₂)
    (ht : SameMaps t₁ t₂) {l₁ l₂ : List (Env × TChangeRequest)}
    (hl₁ : ∀ x ∈ l₁, BaseRequest x.2) (hl₂ : ∀ x ∈ l₂, BaseRequest x.2)
    (heq : ∀ id, about id l₁ = about id l₂) : SameMaps (t₁.runAll l₁) (t₂.runAll l₂) := by
  have n₁ := sameNodes_runAll l₁ t₁
  have n₂ := sameNodes_runAll l₂ t₂
  refine ⟨fun n => ?_, fun n => ?_, fun n f => ?_⟩
  · rw [n₁.1, n₂.1]
    exact ht.1 n
  · rw [n₁.2, n₂.2]
    exact ht.2.1 n
  · have hs : seen (t₁.runAll l₁) (some n, f) = seen (t₂.runAll l₂) (some n, f) := by
      rw [seen_runAll ht₁.sound hl₁, seen_runAll ht₂.sound hl₂, heq, ht.seen]
    exact congrArg Prod.snd hs

/-- The deletion of one file and the creation of another, in both orders. -/
theorem delete_create_interleave : ∃ t, init oneGfid.toShard oneFile = .ok t ∧
    SameMaps (t.runAll [(oneGfid, deleteOne), (oneGfid, createOther)])
      (t.runAll [(oneGfid, createOther), (oneGfid, deleteOne)]) := by
  have h : ∃ t, init oneGfid.toShard oneFile = .ok t := ⟨_, rfl⟩
  obtain ⟨t, ht⟩ := h
  refine ⟨t, ht, runAll_interleave (.init ht) (.init ht)
    ⟨fun _ => .rfl, fun _ => .rfl, fun _ _ => rfl⟩ (by decide) (by decide) (fun id => ?_)⟩
  have hne : fileId deleteOne.filePba ≠ fileId createOther.filePba := by decide
  by_cases h1 : fileId deleteOne.filePba = id
  · have h2 : fileId createOther.filePba ≠ id := fun h2 => hne (h1.trans h2.symm)
    simp [about, h1, h2]
  · by_cases h2 : fileId createOther.filePba = id
    · simp [about, h1, h2]
    · simp [about, h1, h2]

end Lba2Pba.Trace
