import Lba2Pba.Py.Str

/-!
# Paths

`os.path.join` for a relative second part, and the paths that a walk down from a
directory gives to files. Names between slashes are `Name`s, so two files of one walk
have different paths (`join_descend_inj`), and a text without a slash occurs in a path
only where it occurs in the directory or in the name (`isIn_join_iff`).
-/

namespace Py.Path

/-- The name of a file or a directory. -/
structure Name where
  text : String
  ne_empty : text.toList ≠ []
  no_slash : '/' ∉ text.toList

theorem Name.ext {d e : Name} (h : d.text = e.text) : d = e := by
  cases d
  cases e
  cases h
  rfl

/-- `os.path.join(root, f)`. -/
def join (root f : String) : String :=
  if root.toList.getLast? = some '/' then root ++ f else root ++ "/" ++ f

/-- The directory that is reached from `root` by these names. -/
def descend (root : String) (dirs : List Name) : String :=
  dirs.foldl (fun r d => join r d.text) root

/-- The characters of a directory with its slash. -/
def slashed (root : String) : List Char :=
  if root.toList.getLast? = some '/' then root.toList else root.toList ++ ['/']

theorem toList_join (root f : String) : (join root f).toList = slashed root ++ f.toList := by
  unfold join slashed
  split
  · rw [String.toList_append]
  · rw [String.toList_append, String.toList_append]
    rfl

theorem getLast?_join (root : String) (f : Name) :
    (join root f.text).toList.getLast? = f.text.toList.getLast? := by
  rw [toList_join, List.getLast?_append]
  cases h : f.text.toList.getLast? with
  | none => exact absurd (List.getLast?_eq_none_iff.1 h) f.ne_empty
  | some c => rfl

theorem slashed_join (root : String) (d : Name) :
    slashed (join root d.text) = slashed root ++ (d.text.toList ++ ['/']) := by
  have hlast : (join root d.text).toList.getLast? ≠ some '/' := by
    rw [getLast?_join]
    exact fun h => d.no_slash (List.mem_of_getLast? h)
  rw [slashed, if_neg hlast, toList_join, List.append_assoc]

theorem slashed_descend (root : String) (dirs : List Name) :
    slashed (descend root dirs) =
      slashed root ++ dirs.flatMap (fun d => d.text.toList ++ ['/']) := by
  induction dirs generalizing root with
  | nil => simp [descend]
  | cons d dirs ih =>
    have hstep : descend root (d :: dirs) = descend (join root d.text) dirs := rfl
    rw [hstep, ih, slashed_join, List.flatMap_cons, List.append_assoc]

/-! ## Different files have different paths -/

/-- The names of a path are its pieces between the slashes. -/
theorem splitChars_names (dirs : List Name) (f : Name) :
    Str.splitChars ['/'] 0 [] (dirs.flatMap (fun d => d.text.toList ++ ['/']) ++ f.text.toList) =
      (dirs ++ [f]).map (fun d => d.text.toList) := by
  induction dirs with
  | nil =>
    refine Str.splitChars_of_not_occurs [] (fun h => f.no_slash ?_)
    exact (List.singleton_infix_iff _ _).1 h
  | cons d dirs ih =>
    rw [List.flatMap_cons, List.append_assoc, List.append_assoc, List.singleton_append,
      Str.splitChars_append [] _ d.no_slash, ih]
    simp

theorem join_descend_inj {root : String} {dirs dirs' : List Name} {f f' : Name}
    (h : join (descend root dirs) f.text = join (descend root dirs') f'.text) :
    dirs = dirs' ∧ f = f' := by
  have hchars := congrArg String.toList h
  rw [toList_join, toList_join, slashed_descend, slashed_descend, List.append_assoc,
    List.append_assoc] at hchars
  have hsplit := congrArg (Str.splitChars ['/'] 0 []) (List.append_cancel_left hchars)
  rw [splitChars_names, splitChars_names] at hsplit
  have hinj : Function.Injective (fun d : Name => d.text.toList) :=
    fun d e hde => Name.ext (String.toList_inj.1 hde)
  obtain ⟨hd, hf⟩ := List.append_inj' (List.map_injective_iff.2 hinj hsplit) rfl
  exact ⟨hd, List.singleton_injective hf⟩

/-! ## Texts in a path -/

/-- What does not have the element lies on one side of it. -/
theorem infix_append_cons_iff {α : Type} {c : α} {sub a b : List α} (hc : c ∉ sub) :
    sub <:+: a ++ c :: b ↔ sub <:+: a ∨ sub <:+: b := by
  constructor
  · rintro ⟨s, t, h⟩
    rcases List.append_eq_append_iff.1 h with ⟨x, hx, -⟩ | ⟨x, hx, hb⟩
    · exact .inl ⟨s, x, hx.symm⟩
    · cases x with
      | nil => exact .inl ⟨s, [], by simpa using hx⟩
      | cons d x =>
        obtain ⟨rfl, rfl⟩ := List.cons.inj hb
        rcases List.append_eq_append_iff.1 hx with ⟨y, -, hy⟩ | ⟨y, -, hy⟩
        · exact absurd (hy ▸ List.mem_append_right y List.mem_cons_self) hc
        · cases y with
          | nil =>
            rw [List.nil_append] at hy
            exact absurd (hy ▸ List.mem_cons_self) hc
          | cons e y =>
            obtain ⟨rfl, rfl⟩ := List.cons.inj hy
            exact .inr ⟨y, t, rfl⟩
  · rintro (h | h)
    · exact h.trans (List.prefix_append a (c :: b)).isInfix
    · exact h.trans ((List.suffix_cons c b).trans (List.suffix_append a (c :: b))).isInfix

/-- A text without a slash occurs in the directory or in the name. -/
theorem isIn_join_iff {sub root f : String} (hs : '/' ∉ sub.toList) :
    Str.isIn sub (join root f) = true ↔ Str.isIn sub root = true ∨ Str.isIn sub f = true := by
  simp only [Str.isIn_iff, toList_join, slashed]
  split
  · rename_i hlast
    -- the slash at the end of the directory separates it from the name
    obtain ⟨r, hr⟩ := List.getLast?_eq_some_iff.1 hlast
    rw [hr, List.append_assoc, List.singleton_append, infix_append_cons_iff hs,
      infix_append_cons_iff hs]
    constructor
    · rintro (h | h)
      · exact .inl (.inl h)
      · exact .inr h
    · rintro ((h | h) | h)
      · exact .inl h
      · rw [List.infix_nil.1 h]
        exact .inl (List.nil_infix)
      · exact .inr h
  · rw [List.append_assoc, List.singleton_append, infix_append_cons_iff hs]

end Py.Path
