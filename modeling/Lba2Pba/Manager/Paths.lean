import Lba2Pba.Manager.Fresh

/-!
# The PVC of a path

`PushPba` takes a file for the last PVC whose directory occurs in its path; the loops
of a start take it for every PVC whose directory occurs with a slash behind it. Both
name it by the second piece of the path, split at the directory and the slash.

`Lies` says where a path lies in a table of PVCs without any of these: no directory
occurs in it, or that of one PVC does, once and before a slash. Such a path is taken
for that PVC in both ways, under what follows the slash.
-/

namespace Lba2Pba.Manager

open Py

/-- The PVCs with their directories. Every object of a cluster has a name. -/
structure Table where
  info : Dict String String
  named : "" ∉ info.keys

/-! ## The choice of `PushPba` -/

section PvcOf

variable {info : Dict String String} {path p d : String}

/-- The loop of `PushPba` over a part of the PVCs. -/
theorem foldl_pvc_cases (path : String) (l : List (String × String)) (c : String) :
    ((∀ x ∈ l, Str.isIn x.2 path ≠ true) ∧
      l.foldl (fun pvc x => if Str.isIn x.2 path then x.1 else pvc) c = c) ∨
    ∃ x ∈ l, Str.isIn x.2 path = true ∧
      l.foldl (fun pvc x => if Str.isIn x.2 path then x.1 else pvc) c = x.1 := by
  induction l generalizing c with
  | nil => exact .inl ⟨fun x hx => absurd hx List.not_mem_nil, rfl⟩
  | cons x l ih =>
    rw [List.foldl_cons]
    rcases ih (if Str.isIn x.2 path then x.1 else c) with ⟨hnone, heq⟩ | ⟨y, hy, hin, heq⟩
    · by_cases hx : Str.isIn x.2 path = true
      · refine .inr ⟨x, List.mem_cons_self, hx, ?_⟩
        rw [heq, if_pos hx]
      · refine .inl ⟨fun y hy => ?_, ?_⟩
        · rcases List.mem_cons.1 hy with rfl | hy
          · exact hx
          · exact hnone y hy
        · rw [heq, if_neg hx]
    · exact .inr ⟨y, List.mem_cons_of_mem _ hy, hin, heq⟩

theorem pvcOf_eq_empty (h : ∀ x ∈ info.items, Str.isIn x.2 path ≠ true) : pvcOf info path = "" := by
  rcases foldl_pvc_cases path info.items "" with ⟨-, heq⟩ | ⟨x, hx, hin, -⟩
  · exact heq
  · exact absurd hin (h x hx)

/-- The last PVC whose directory occurs. -/
theorem pvcOf_eq_iff {before after : List (String × String)}
    (hl : info.items = before ++ (p, d) :: after) (hp : p ≠ "") :
    pvcOf info path = p ↔
      Str.isIn d path = true ∧ ∀ x ∈ after, Str.isIn x.2 path ≠ true := by
  obtain ⟨hbefore, hafter⟩ := Dict.key_ne_of_split hl
  rw [pvcOf, hl, List.foldl_append, List.foldl_cons]
  constructor
  · intro h
    rcases foldl_pvc_cases path after (if Str.isIn d path then p else _) with
      ⟨hnone, heq⟩ | ⟨x, hx, -, heq⟩
    · refine ⟨?_, hnone⟩
      by_contra hd
      rw [heq, if_neg hd] at h
      rcases foldl_pvc_cases path before "" with ⟨-, heq⟩ | ⟨x, hx, -, heq⟩
      · exact hp (h.symm.trans heq)
      · exact hbefore x hx (heq.symm.trans h)
    · exact absurd (heq.symm.trans h) (hafter x hx)
  · rintro ⟨hd, hnone⟩
    rcases foldl_pvc_cases path after (if Str.isIn d path then p else _) with
      ⟨-, heq⟩ | ⟨x, hx, hin, -⟩
    · rw [heq, if_pos hd]
    · exact absurd hin (hnone x hx)

theorem place_eq_some_iff {m : Manager} (hm : m.pvcInfo = .ok info) :
    m.place path = some (p, d) ↔ p ≠ "" ∧ pvcOf info path = p ∧ info.get? p = some d := by
  simp only [place, hm]
  constructor
  · intro h
    split at h
    · cases h
    · rename_i hne
      obtain ⟨d', hd, he⟩ := Option.map_eq_some_iff.1 h
      cases he
      exact ⟨hne, rfl, hd⟩
  · rintro ⟨hne, rfl, hd⟩
    rw [if_neg hne, hd]
    rfl

theorem place_eq_none {m : Manager} (hm : m.pvcInfo = .ok info) (h : pvcOf info path = "") :
    m.place path = none := by
  simp only [place, hm]
  rw [if_pos h]

end PvcOf

/-! ## Pieces -/

section Pieces

variable {info : Dict String String} {path p d n : String}

theorem slash_ne_nil (d : String) : (d ++ "/").toList ≠ [] := by
  rw [String.toList_append]
  exact List.append_ne_nil_of_right_ne_nil _ (List.cons_ne_nil _ _)

theorem relPath_iff : relPath d path = some n ↔
    Str.Second (d ++ "/").toList path.toList n.toList :=
  Str.split_second_iff (slash_ne_nil d)

theorem isIn_of_slash (h : Str.isIn (d ++ "/") path = true) : Str.isIn d path = true := by
  refine Str.isIn_trans (Str.isIn_iff.2 ?_) h
  rw [String.toList_append]
  exact (List.prefix_append _ _).isInfix

/-- Where a path lies: in no PVC if no directory occurs in it; in a PVC if no other
directory occurs, and that of the PVC once and before a slash. -/
inductive Lies (info : Dict String String) (path : String) : Option (String × String) → Prop
  | outside (h : ∀ x ∈ info.items, Str.isIn x.2 path ≠ true) : Lies info path none
  | under {p d before n : String} (hx : (p, d) ∈ info.items)
      (hpath : path = before ++ d ++ "/" ++ n)
      (honce : ∀ a b, path.toList = a ++ d.toList ++ b → a = before.toList)
      (honly : ∀ x ∈ info.items, Str.isIn x.2 path = true → x = (p, d)) :
      Lies info path (some (p, n))

/-- A directory that occurs once, before a slash: the rest is the second piece. -/
theorem relPath_of_once {before : String} (hpath : path = before ++ d ++ "/" ++ n)
    (honce : ∀ a b, path.toList = a ++ d.toList ++ b → a = before.toList) :
    relPath d path = some n := by
  have hl : path.toList = before.toList ++ (d ++ "/").toList ++ n.toList := by
    rw [hpath]
    simp [String.toList_append]
  rw [relPath_iff]
  refine ⟨before.toList, n.toList, ⟨hl, fun a b hab => ?_⟩, .inl ⟨rfl, ?_⟩⟩
  · rw [String.toList_append] at hab
    rw [honce a ("/".toList ++ b) (by rw [hab]; simp)]
  · rintro ⟨a, b, hab⟩
    -- a second occurrence would have to be the first
    have hsame := honce (before.toList ++ (d ++ "/").toList ++ a) ("/".toList ++ b) (by
      rw [hl, ← hab]
      simp [String.toList_append])
    have hlen := congrArg List.length hsame
    simp [String.toList_append] at hlen

theorem Lies.exists_place {m : Manager} {t : Table} (hm : m.pvcInfo = .ok t.info)
    (h : Lies t.info path (some (p, n))) :
    ∃ d, m.place path = some (p, d) ∧ relPath d path = some n := by
  cases h with
  | under hx hpath honce honly =>
    rename_i d before
    have hget := Dict.mem_items_iff.1 hx
    have hne : p ≠ "" := by
      rintro rfl
      exact t.named (Dict.mem_keys_iff.2 ⟨d, hget⟩)
    obtain ⟨l₁, l₂, hl⟩ := List.append_of_mem hx
    have hd : Str.isIn d path = true := by
      rw [Str.isIn_iff]
      exact ⟨before.toList, ("/" ++ n).toList, by rw [hpath]; simp [String.toList_append]⟩
    refine ⟨d, (place_eq_some_iff hm).2 ⟨hne, ?_, hget⟩, relPath_of_once hpath honce⟩
    refine (pvcOf_eq_iff hl hne).2 ⟨hd, fun x hx' hin => ?_⟩
    have hmem : x ∈ t.info.items := by
      rw [hl]
      exact List.mem_append_right _ (List.mem_cons_of_mem _ hx')
    cases honly x hmem hin
    exact (Dict.key_ne_of_split hl).2 _ hx' rfl

theorem Lies.place_eq_none {m : Manager} (hm : m.pvcInfo = .ok info) (h : Lies info path none) :
    m.place path = none := by
  cases h with
  | outside h => exact Manager.place_eq_none hm (pvcOf_eq_empty h)

theorem pvcsOf_eq_nil (h : ∀ x ∈ info.items, Str.isIn x.2 path ≠ true) : pvcsOf info path = [] := by
  rw [pvcsOf, List.filter_eq_nil_iff]
  exact fun x hx hin => h x hx (isIn_of_slash hin)

theorem pvcsOf_eq_singleton (hx : (p, d) ∈ info.items) (hin : Str.isIn (d ++ "/") path = true)
    (honly : ∀ x ∈ info.items, Str.isIn (x.2 ++ "/") path = true → x = (p, d)) :
    pvcsOf info path = [(p, d)] := by
  have hnodup : (pvcsOf info path).Nodup := (List.Nodup.of_map _ info.nodupKeys).filter _
  have hall : ∀ x ∈ pvcsOf info path, x = (p, d) :=
    fun x hx' => honly x (mem_pvcsOf.1 hx').1 (mem_pvcsOf.1 hx').2
  have hlen := List.nodup_iff_count_le_one.1 hnodup (p, d)
  have hrep := List.eq_replicate_of_mem hall
  rw [hrep, List.count_replicate_self] at hlen
  have hmem := mem_pvcsOf.2 ⟨hx, hin⟩
  have hpos := List.length_pos_of_mem hmem
  rw [hrep, Nat.le_antisymm hlen hpos]
  rfl

/-- A start takes the file for the same PVC and path. -/
theorem Lies.target {x : Option (String × String)} (h : Lies info path x) :
    Manager.target info path = x ∧ Unambiguous info path := by
  cases h with
  | outside h =>
    have hnil := pvcsOf_eq_nil h
    refine ⟨by rw [Manager.target, hnil]; rfl, fun y hy => ?_⟩
    rw [hnil] at hy
    cases hy
  | under hx hpath honce honly =>
    rename_i p d before n
    have hin : Str.isIn (d ++ "/") path = true := by
      rw [Str.isIn_iff]
      exact ⟨before.toList, n.toList, by rw [hpath]; simp [String.toList_append]⟩
    have hone := pvcsOf_eq_singleton hx hin (fun y hy hiny => honly y hy (isIn_of_slash hiny))
    refine ⟨?_, fun y hy => ?_⟩
    · simp [Manager.target, hone, relPath_of_once hpath honce]
    · rw [hone] at hy ⊢
      rw [List.mem_singleton.1 hy]

end Pieces

end Lba2Pba.Manager
