import Mathlib.Data.List.Infix

/-!
# Python string operations

`in`, `split`, `split(c, n)`, `split()`, `rsplit(c, 1)`, `replace(c, '')` and `int` on
strings, computed on their characters. All of them evaluate, so a concrete path can be
decided. White space and digits are those of Unicode 14. That newer versions refuse
texts with thousands of digits is left out: no file name is that long.
-/

namespace Py.Str

/-! ## Substrings -/

/-- `sub in s`. -/
def isIn (sub s : String) : Bool := decide (sub.toList <:+: s.toList)

theorem isIn_iff {sub s : String} : isIn sub s = true ↔ sub.toList <:+: s.toList :=
  decide_eq_true_iff

theorem isIn_refl (s : String) : isIn s s = true := isIn_iff.2 List.infix_rfl

theorem isIn_trans {a b c : String} (hab : isIn a b = true) (hbc : isIn b c = true) :
    isIn a c = true :=
  isIn_iff.2 ((isIn_iff.1 hab).trans (isIn_iff.1 hbc))

/-! ## Splitting -/

/-- The pieces of a string between the leftmost, non-overlapping occurrences of
`sep`. The list `acc` holds the current piece backwards; the number counts the
characters of a separator that are still to be passed over. -/
def splitChars (sep : List Char) : Nat → List Char → List Char → List (List Char)
  | _, acc, [] => [acc.reverse]
  | skip + 1, acc, _ :: l => splitChars sep skip acc l
  | 0, acc, c :: l =>
    if sep.isPrefixOf (c :: l) then acc.reverse :: splitChars sep (sep.length - 1) [] l
    else splitChars sep 0 (c :: acc) l

/-- `s.split(sep)` for a separator that is not empty. -/
def split (s sep : String) : List String :=
  (splitChars sep.toList 0 [] s.toList).map String.ofList

/-- Every piece lies in what is already read of the current piece and the rest. -/
theorem splitChars_infix (sep : List Char) : ∀ (skip : Nat) (acc l p : List Char),
    (skip ≠ 0 → acc = []) → p ∈ splitChars sep skip acc l → p <:+: acc.reverse ++ l
  | _, acc, [], p, _, h => by
    simp only [splitChars, List.mem_singleton] at h
    rw [h, List.append_nil]
  | skip + 1, acc, c :: l, p, ha, h => by
    obtain rfl := ha (Nat.succ_ne_zero skip)
    simp only [splitChars] at h
    have ih := splitChars_infix sep skip [] l p (fun _ => rfl) h
    exact ih.trans ⟨[c], [], by simp⟩
  | 0, acc, c :: l, p, _, h => by
    simp only [splitChars] at h
    split at h
    · rcases List.mem_cons.mp h with rfl | h
      · exact ⟨[], c :: l, rfl⟩
      · have ih := splitChars_infix sep (sep.length - 1) [] l p (fun _ => rfl) h
        exact ih.trans ⟨acc.reverse ++ [c], [], by simp⟩
    · have ih := splitChars_infix sep 0 (c :: acc) l p (fun h => absurd rfl h) h
      simpa using ih

/-- Every piece of a split is a substring. -/
theorem isIn_of_mem_split {s sep p : String} (h : p ∈ split s sep) : isIn p s = true := by
  obtain ⟨l, hl, rfl⟩ := List.mem_map.mp h
  rw [isIn_iff, String.toList_ofList]
  exact splitChars_infix sep.toList 0 [] s.toList l (fun h => absurd rfl h) hl

theorem splitChars_append {c : Char} {l : List Char} (acc rest : List Char) (h : c ∉ l) :
    splitChars [c] 0 acc (l ++ c :: rest) = (acc.reverse ++ l) :: splitChars [c] 0 [] rest := by
  induction l generalizing acc with
  | nil => simp [splitChars]
  | cons d l ih =>
    rw [List.mem_cons, not_or] at h
    have hd : [c].isPrefixOf (d :: (l ++ c :: rest)) = false := by simp [List.isPrefixOf, h.1]
    simp only [List.cons_append, splitChars, hd, Bool.false_eq_true, if_false]
    rw [ih (d :: acc) h.2]
    simp

/-- The first piece is what precedes the first separator. -/
theorem split_append {s t sep : String} {c : Char} (hsep : sep.toList = [c]) (h : c ∉ s.toList) :
    split (s ++ sep ++ t) sep = s :: split t sep := by
  unfold split
  have hl : (s ++ sep ++ t).toList = s.toList ++ c :: t.toList := by
    simp [String.toList_append, hsep]
  rw [hl, hsep, splitChars_append [] t.toList h]
  simp

theorem splitChars_ne_nil (sep : List Char) (skip : Nat) (acc l : List Char) :
    splitChars sep skip acc l ≠ [] := by
  induction l generalizing skip acc with
  | nil => simp [splitChars]
  | cons c l ih =>
    cases skip with
    | succ skip => exact ih skip acc
    | zero =>
      simp only [splitChars]
      split
      · exact List.cons_ne_nil _ _
      · exact ih 0 (c :: acc)

theorem splitChars_of_infix {sep l : List Char} (acc : List Char) (hne : sep ≠ [])
    (h : sep <:+: l) : ∃ a b rest, splitChars sep 0 acc l = a :: b :: rest := by
  induction l generalizing acc with
  | nil => exact absurd (List.infix_nil.1 h) hne
  | cons c l ih =>
    simp only [splitChars]
    split
    · obtain ⟨b, rest, hr⟩ := List.exists_cons_of_ne_nil
        (splitChars_ne_nil sep (sep.length - 1) [] l)
      exact ⟨_, b, rest, by rw [hr]⟩
    · rename_i hp
      rcases List.infix_cons_iff.1 h with hpre | hin
      · exact absurd (List.isPrefixOf_iff_prefix.2 hpre) hp
      · exact ih (c :: acc) hin

theorem splitChars_of_not_occurs {sep l : List Char} (acc : List Char) (h : ¬ sep <:+: l) :
    splitChars sep 0 acc l = [acc.reverse ++ l] := by
  induction l generalizing acc with
  | nil => simp [splitChars]
  | cons c l ih =>
    have hp : sep.isPrefixOf (c :: l) ≠ true :=
      fun hp => h (List.isPrefixOf_iff_prefix.1 hp).isInfix
    have hl : ¬ sep <:+: l := fun hin => h (List.infix_cons hin)
    simp only [splitChars]
    rw [if_neg hp, ih (c :: acc) hl]
    simp

/-- The first `sep` in `l` stands between `u` and `r`. -/
structure Cut (sep l u r : List Char) : Prop where
  eq : l = u ++ sep ++ r
  first : ∀ a b, l = a ++ sep ++ b → u.length ≤ a.length

section Cut

variable {sep l u r : List Char}

theorem exists_cut (h : sep <:+: l) : ∃ u r, Cut sep l u r := by
  induction l with
  | nil =>
    obtain rfl := List.infix_nil.1 h
    exact ⟨[], [], rfl, fun _ _ _ => Nat.zero_le _⟩
  | cons c l ih =>
    by_cases hpre : sep <+: c :: l
    · obtain ⟨r, hr⟩ := hpre
      exact ⟨[], r, hr.symm, fun _ _ _ => Nat.zero_le _⟩
    · obtain ⟨u, r, hcut⟩ := ih ((List.infix_cons_iff.1 h).resolve_left hpre)
      refine ⟨c :: u, r, by rw [hcut.eq]; rfl, fun a b hab => ?_⟩
      cases a with
      | nil => exact absurd ⟨b, hab.symm⟩ hpre
      | cons d a =>
        injection hab with _ hab
        exact Nat.succ_le_succ (hcut.first a b hab)

theorem Cut.tail {c : Char} (h : Cut sep (c :: l) (c :: u) r) : Cut sep l u r := by
  refine ⟨List.cons.inj h.eq |>.2, fun a b hab => ?_⟩
  have hle := h.first (c :: a) b (by rw [hab]; rfl)
  exact Nat.le_of_succ_le_succ hle

/-- The rest of a separator is passed over. -/
theorem splitChars_skip (s acc : List Char) :
    splitChars sep s.length acc (s ++ r) = splitChars sep 0 acc r := by
  induction s with
  | nil => rfl
  | cons c s ih => exact ih

/-- What precedes the first separator is the first piece. -/
theorem splitChars_cut (hne : sep ≠ []) (h : Cut sep l u r) (acc : List Char) :
    splitChars sep 0 acc l = (acc.reverse ++ u) :: splitChars sep 0 [] r := by
  induction u generalizing l acc with
  | nil =>
    obtain ⟨c, s, rfl⟩ := List.exists_cons_of_ne_nil hne
    have hl : l = c :: (s ++ r) := h.eq
    have hpre : (c :: s).isPrefixOf (c :: (s ++ r)) = true :=
      List.isPrefixOf_iff_prefix.2 ⟨r, rfl⟩
    rw [hl, splitChars, if_pos hpre, List.append_nil, List.length_cons, Nat.add_sub_cancel,
      splitChars_skip]
  | cons c u ih =>
    obtain ⟨l, rfl⟩ : ∃ l', l = c :: l' := ⟨_, h.eq⟩
    have hpre : sep.isPrefixOf (c :: l) ≠ true := by
      intro hpre
      obtain ⟨b, hb⟩ := List.isPrefixOf_iff_prefix.1 hpre
      exact absurd (h.first [] b hb.symm) (Nat.not_succ_le_zero _)
    rw [splitChars, if_neg hpre, ih h.tail]
    simp

/-- What stands between the first separator and the next one, or the end. -/
def Second (sep l p : List Char) : Prop :=
  ∃ u r, Cut sep l u r ∧ ((r = p ∧ ¬ sep <:+: r) ∨ ∃ w, Cut sep r p w)

theorem splitChars_second_iff (hne : sep ≠ []) {p : List Char} :
    (splitChars sep 0 [] l)[1]? = some p ↔ Second sep l p := by
  have hsecond : ∀ {u r}, Cut sep l u r →
      ((splitChars sep 0 [] l)[1]? = some p ↔ (splitChars sep 0 [] r)[0]? = some p) := by
    intro u r hcut
    rw [splitChars_cut hne hcut, List.getElem?_cons_succ]
  constructor
  · intro h
    by_cases hin : sep <:+: l
    · obtain ⟨u, r, hcut⟩ := exists_cut hin
      refine ⟨u, r, hcut, ?_⟩
      have hp := (hsecond hcut).1 h
      by_cases hr : sep <:+: r
      · obtain ⟨v, w, hv⟩ := exists_cut hr
        rw [splitChars_cut hne hv] at hp
        cases hp
        exact .inr ⟨w, hv⟩
      · rw [splitChars_of_not_occurs [] hr] at hp
        cases hp
        exact .inl ⟨rfl, hr⟩
    · rw [splitChars_of_not_occurs [] hin] at h
      cases h
  · rintro ⟨u, r, hcut, ⟨rfl, hr⟩ | ⟨w, hw⟩⟩
    · rw [hsecond hcut, splitChars_of_not_occurs [] hr]
      rfl
    · rw [hsecond hcut, splitChars_cut hne hw]
      rfl

end Cut

/-- With another separator before it there are at least three pieces. -/
theorem split_append_of_mem {s t sep : String} {c : Char} (hsep : sep.toList = [c])
    (h : c ∈ s.toList) : ∃ p q r rest, split (s ++ sep ++ t) sep = p :: q :: r :: rest := by
  obtain ⟨l₁, l₂, hs, hl₁⟩ := List.eq_append_cons_of_mem h
  have hl : (s ++ sep ++ t).toList = l₁ ++ c :: (l₂ ++ c :: t.toList) := by
    simp [String.toList_append, hsep, hs]
  have hin : [c] <:+: l₂ ++ c :: t.toList := ⟨l₂, t.toList, by simp⟩
  obtain ⟨q, r, rest, hr⟩ := splitChars_of_infix [] (List.cons_ne_nil c []) hin
  unfold split
  rw [hl, hsep, splitChars_append [] _ hl₁, hr]
  exact ⟨_, _, _, _, rfl⟩

/-- A string with the separator in it has a second piece. -/
theorem split_of_isIn {s sep : String} (hne : sep.toList ≠ []) (h : isIn sep s = true) :
    ∃ p, (split s sep)[1]? = some p := by
  obtain ⟨a, b, rest, hs⟩ := splitChars_of_infix [] hne (isIn_iff.1 h)
  exact ⟨String.ofList b, by simp [split, hs]⟩

/-- A string without the separator is one piece. -/
theorem split_of_not_isIn {s sep : String} (h : isIn sep s ≠ true) : split s sep = [s] := by
  unfold split
  rw [splitChars_of_not_occurs [] (fun hin => h (isIn_iff.2 hin))]
  simp

/-- The second piece of a split, by what stands in the string. -/
theorem split_second_iff {s sep p : String} (hne : sep.toList ≠ []) :
    (split s sep)[1]? = some p ↔ Second sep.toList s.toList p.toList := by
  rw [← splitChars_second_iff hne, split, List.getElem?_map, Option.map_eq_some_iff]
  constructor
  · rintro ⟨l, hl, rfl⟩
    rw [hl, String.toList_ofList]
  · intro hl
    exact ⟨p.toList, hl, String.ofList_toList⟩

theorem split_of_not_mem {s sep : String} {c : Char} (hsep : sep.toList = [c])
    (h : c ∉ s.toList) : split s sep = [s] := by
  apply split_of_not_isIn
  rw [ne_eq, isIn_iff, hsep, List.singleton_infix_iff]
  exact h

/-- `sep.join(l)`. -/
def join (sep : String) : List String → String
  | [] => ""
  | [s] => s
  | s :: t :: l => s ++ sep ++ join sep (t :: l)

theorem split_join {sep : String} {c : Char} (hsep : sep.toList = [c]) {l : List String}
    (hne : l ≠ []) (h : ∀ s ∈ l, c ∉ s.toList) : split (join sep l) sep = l := by
  induction l with
  | nil => exact absurd rfl hne
  | cons s l ih =>
    have hs : c ∉ s.toList := h s List.mem_cons_self
    cases l with
    | nil => exact split_of_not_mem hsep hs
    | cons t l =>
      rw [join, split_append hsep hs, ih (List.cons_ne_nil t l)]
      exact fun u hu => h u (List.mem_cons_of_mem s hu)

theorem of_mem_join {sep : String} {c : Char} {l : List String} (h : c ∈ (join sep l).toList) :
    c ∈ sep.toList ∨ ∃ s ∈ l, c ∈ s.toList := by
  induction l with
  | nil => exact absurd h List.not_mem_nil
  | cons s l ih =>
    cases l with
    | nil => exact .inr ⟨s, List.mem_cons_self, h⟩
    | cons t l =>
      rw [join, String.toList_append, String.toList_append, List.mem_append, List.mem_append] at h
      rcases h with (h | h) | h
      · exact .inr ⟨s, List.mem_cons_self, h⟩
      · exact .inl h
      · rcases ih h with hsep | ⟨u, hu, hc⟩
        · exact .inl hsep
        · exact .inr ⟨u, List.mem_cons_of_mem s hu, hc⟩

/-- The first of the texts is a piece, whatever the others are. -/
theorem mem_split_join {s sep : String} {c : Char} (hsep : sep.toList = [c]) (h : c ∉ s.toList)
    (l : List String) : s ∈ split (join sep (s :: l)) sep := by
  cases l with
  | nil =>
    rw [join, split_of_not_mem hsep h]
    exact List.mem_cons_self
  | cons t l =>
    rw [join, split_append hsep h]
    exact List.mem_cons_self

theorem mem_join {sep : String} {c : Char} (hsep : sep.toList = [c]) (s t : String)
    (l : List String) : c ∈ (join sep (s :: t :: l)).toList := by
  simp [join, String.toList_append, hsep]

/-- A text without the separator is only joined from itself. -/
theorem join_eq_iff {sep t : String} {c : Char} (hsep : sep.toList = [c]) (h : c ∉ t.toList)
    (l m : List String) : join sep (l ++ t :: m) = t ↔ l = [] ∧ m = [] := by
  constructor
  · intro hj
    have hnot : ∀ a b rest, join sep (a :: b :: rest) ≠ t :=
      fun a b rest he => h (he ▸ mem_join hsep a b rest)
    cases l with
    | nil =>
      cases m with
      | nil => exact ⟨rfl, rfl⟩
      | cons b m => exact absurd hj (hnot t b m)
    | cons a l =>
      obtain ⟨b, rest, hb⟩ := List.exists_cons_of_ne_nil (l := l ++ t :: m) (by simp)
      rw [List.cons_append, hb] at hj
      exact absurd hj (hnot a b rest)
  · rintro ⟨rfl, rfl⟩
    rfl

/-- `s.split(c, n)` on characters: at most `n` cuts, from the left. -/
def cutChars (c : Char) : Nat → List Char → List (List Char)
  | 0, l => [l]
  | n + 1, l =>
    if c ∈ l then l.takeWhile (· ≠ c) :: cutChars c n (l.dropWhile (· ≠ c)).tail else [l]

/-- `s.split(c, n)` for a separator of one character. -/
def splitMax (s : String) (c : Char) (n : Nat) : List String :=
  (cutChars c n s.toList).map String.ofList

theorem splitMax_append {s sep : String} {c : Char} (hsep : sep.toList = [c]) (h : c ∉ s.toList)
    (t : String) (n : Nat) : splitMax (s ++ sep ++ t) c (n + 1) = s :: splitMax t c n := by
  have hne : ∀ a ∈ s.toList, decide (a ≠ c) = true := by
    intro a ha
    exact decide_eq_true (fun hac => h (hac ▸ ha))
  have hl : (s ++ sep ++ t).toList = s.toList ++ c :: t.toList := by
    simp [String.toList_append, hsep]
  unfold splitMax
  rw [hl, cutChars, if_pos (by simp), List.takeWhile_append_of_pos hne,
    List.dropWhile_append_of_pos hne]
  simp

/-- `s.split(sep)[-1]`. -/
def lastPiece (s sep : String) : String := (split s sep).getLastD ""

/-- `s.split(sep)[0]`. -/
def firstPiece (s sep : String) : String := (split s sep).headD ""

/-- `s.rsplit(c, 1)[1]`: what follows the last `c`, if there is one. -/
def afterLast (s : String) (c : Char) : Option String :=
  if c ∈ s.toList then
    some (String.ofList (s.toList.reverse.takeWhile (· ≠ c)).reverse)
  else none

/-- `s.replace(c, '')`. -/
def remove (s : String) (c : Char) : String := String.ofList (s.toList.filter (· ≠ c))

theorem remove_append (s t : String) (c : Char) : remove (s ++ t) c = remove s c ++ remove t c := by
  rw [remove, String.toList_append, List.filter_append, String.ofList_append]
  rfl

/-! ## White space -/

/-- The white space of a shell or of a pattern: blank, tab, and what ends a line or a page. -/
def isBlank (c : Char) : Bool := c = ' ' || (9 ≤ c.toNat && c.toNat ≤ 13)

/-- `c.isspace()`. -/
def isSpace (c : Char) : Bool :=
  isBlank c || (0x1c ≤ c.toNat && c.toNat ≤ 0x1f) || (0x2000 ≤ c.toNat && c.toNat ≤ 0x200a) ||
    [0x85, 0xa0, 0x1680, 0x2028, 0x2029, 0x202f, 0x205f, 0x3000].contains c.toNat

/-- The pieces between white space that are not empty. The list `acc` holds the current
piece backwards. -/
def wordChars (space : Char → Bool) : List Char → List Char → List (List Char)
  | acc, [] => if acc = [] then [] else [acc.reverse]
  | acc, c :: l =>
    if space c then
      if acc = [] then wordChars space [] l else acc.reverse :: wordChars space [] l
    else wordChars space (c :: acc) l

/-- The words of a text, with the white space that is between them. -/
def wordsBy (space : Char → Bool) (s : String) : List String :=
  (wordChars space [] s.toList).map String.ofList

/-- `s.split()`. -/
def words (s : String) : List String := wordsBy isSpace s

theorem wordChars_append {space : Char → Bool} {a : List Char} (acc l : List Char)
    (h : ∀ c ∈ a, space c = false) :
    wordChars space acc (a ++ l) = wordChars space (a.reverse ++ acc) l := by
  induction a generalizing acc with
  | nil => rfl
  | cons c a ih =>
    rw [List.cons_append, wordChars, h c List.mem_cons_self,
      ih (c :: acc) (fun d hd => h d (List.mem_cons_of_mem c hd))]
    simp

/-- White space ends a word. -/
theorem wordChars_append_space {space : Char → Bool} {c : Char} (hc : space c = true)
    (acc a l : List Char) :
    wordChars space acc (a ++ c :: l) = wordChars space acc a ++ wordChars space [] l := by
  induction a generalizing acc with
  | nil =>
    rw [List.nil_append, wordChars, wordChars, hc]
    by_cases hacc : acc = []
    · simp [hacc]
    · simp [hacc]
  | cons d a ih =>
    rw [List.cons_append, wordChars, wordChars, ih, ih]
    by_cases hd : space d = true
    · by_cases hacc : acc = []
      · simp [hd, hacc]
      · simp [hd, hacc]
    · simp [hd]

/-- No piece has white space in it. -/
theorem plain_of_mem_wordChars {space : Char → Bool} {acc l w : List Char}
    (hacc : ∀ c ∈ acc, space c = false) (h : w ∈ wordChars space acc l) :
    ∀ c ∈ w, space c = false := by
  have hrev : ∀ c ∈ acc.reverse, space c = false := fun c hc => hacc c (List.mem_reverse.1 hc)
  induction l generalizing acc with
  | nil =>
    rw [wordChars] at h
    split at h
    · exact absurd h List.not_mem_nil
    · rw [List.mem_singleton.1 h]
      exact hrev
  | cons d l ih =>
    have hnil : ∀ c ∈ ([] : List Char), space c = false := fun c hc => absurd hc List.not_mem_nil
    rw [wordChars] at h
    split at h
    · split at h
      · exact ih hnil h (by simp)
      · rcases List.mem_cons.1 h with rfl | h
        · exact hrev
        · exact ih hnil h (by simp)
    · rename_i hd
      have hcons : ∀ c ∈ d :: acc, space c = false := by
        intro c hc
        rcases List.mem_cons.1 hc with rfl | hc
        · exact Bool.eq_false_iff.2 hd
        · exact hacc c hc
      exact ih hcons h (fun c hc => hcons c (List.mem_reverse.1 hc))

theorem plain_of_mem_wordsBy {space : Char → Bool} {s w : String} (h : w ∈ wordsBy space s) :
    ∀ c ∈ w.toList, space c = false := by
  obtain ⟨l, hl, rfl⟩ := List.mem_map.1 h
  rw [String.toList_ofList]
  exact plain_of_mem_wordChars (fun c hc => absurd hc List.not_mem_nil) hl

/-- The words of two texts with a blank between them. -/
theorem wordsBy_append {space : Char → Bool} (hblank : space ' ' = true) (s t : String) :
    wordsBy space (s ++ " " ++ t) = wordsBy space s ++ wordsBy space t := by
  have hl : (s ++ " " ++ t).toList = s.toList ++ ' ' :: t.toList := by
    simp [String.toList_append]
  rw [wordsBy, hl, wordChars_append_space hblank, List.map_append]
  rfl

theorem words_append (s t : String) : words (s ++ " " ++ t) = words s ++ words t :=
  wordsBy_append (by decide) s t

theorem wordsBy_of_plain {space : Char → Bool} {a : String} (hne : a.toList ≠ [])
    (h : ∀ c ∈ a.toList, space c = false) : wordsBy space a = [a] := by
  have hl := wordChars_append [] [] h
  rw [List.append_nil] at hl
  rw [wordsBy, hl, wordChars]
  simp [hne]

/-- A text that is not empty and has no white space. -/
structure IsWord (s : String) : Prop where
  ne : s.toList ≠ []
  plain : ∀ c ∈ s.toList, isSpace c = false

theorem forall_of_all {s : String} {p : Char → Prop} [DecidablePred p]
    (h : s.toList.all (fun c => p c) = true) : ∀ c ∈ s.toList, p c := fun c hc =>
  of_decide_eq_true (List.all_eq_true.1 h c hc)

instance (s : String) : Decidable (IsWord s) :=
  decidable_of_iff (s.toList ≠ [] ∧ s.toList.all (fun c => isSpace c = false) = true)
    ⟨fun h => ⟨h.1, forall_of_all h.2⟩, fun h => ⟨h.ne, by simpa using h.plain⟩⟩

theorem IsWord.not_mem {s : String} (h : IsWord s) {c : Char} (hc : isSpace c = true) :
    c ∉ s.toList := by
  intro hmem
  rw [h.plain c hmem] at hc
  cases hc

theorem words_of_word {a : String} (h : IsWord a) : words a = [a] := wordsBy_of_plain h.ne h.plain

/-- What is no white space for Python is none for a shell either. -/
theorem IsWord.not_blank {s : String} (h : IsWord s) : ∀ c ∈ s.toList, isBlank c = false := by
  intro c hc
  have hplain := h.plain c hc
  simp only [isSpace, Bool.or_eq_false_iff] at hplain
  exact hplain.1.1.1

/-- Words with blanks between them. -/
theorem words_join {l : List String} (h : ∀ s ∈ l, IsWord s) : words (join " " l) = l := by
  induction l with
  | nil => rfl
  | cons s l ih =>
    have hs := words_of_word (h s List.mem_cons_self)
    have hl := ih (fun t ht => h t (List.mem_cons_of_mem s ht))
    cases l with
    | nil => exact hs
    | cons t l =>
      rw [join, words_append, hs, hl]
      rfl

/-! ## Integers -/

/-- The zeros of Unicode: behind each of them stand the other nine digits of its script. -/
def zeros : List Nat :=
  [0x30, 0x660, 0x6f0, 0x7c0, 0x966, 0x9e6, 0xa66, 0xae6, 0xb66, 0xbe6, 0xc66, 0xce6, 0xd66, 0xde6,
    0xe50, 0xed0, 0xf20, 0x1040, 0x1090, 0x17e0, 0x1810, 0x1946, 0x19d0, 0x1a80, 0x1a90, 0x1b50,
    0x1bb0, 0x1c40, 0x1c50, 0xa620, 0xa8d0, 0xa900, 0xa9d0, 0xa9f0, 0xaa50, 0xabf0, 0xff10, 0x104a0,
    0x10d30, 0x11066, 0x110f0, 0x11136, 0x111d0, 0x112f0, 0x11450, 0x114d0, 0x11650, 0x116c0,
    0x11730, 0x118e0, 0x11950, 0x11c50, 0x11d50, 0x11da0, 0x16a60, 0x16ac0, 0x16b50, 0x1d7ce,
    0x1d7d8, 0x1d7e2, 0x1d7ec, 0x1d7f6, 0x1e140, 0x1e2f0, 0x1e950, 0x1fbf0]

/-- The value of a decimal digit. -/
def decimal (c : Char) : Option Nat :=
  (zeros.find? (fun z => z ≤ c.toNat && c.toNat ≤ z + 9)).map (fun z => c.toNat - z)

/-- The digits of a literal, with single underscores between them. The Boolean
says whether the character before was a digit. -/
def digits : Nat → Bool → List Char → Option Nat
  | n, prev, [] => if prev then some n else none
  | n, prev, c :: l =>
    match decimal c with
    | some d => digits (10 * n + d) true l
    | none => if c = '_' && prev then digits n false l else none

/-- What may stand around a literal: of the ASCII characters only blanks. -/
def isPadding (c : Char) : Bool := isBlank c || (128 ≤ c.toNat && isSpace c)

/-- `int(s)`, or `none` where it raises. -/
def int (s : String) : Option Int :=
  match ((s.toList.dropWhile isPadding).reverse.dropWhile isPadding).reverse with
  | '+' :: l => (digits 0 false l).map Int.ofNat
  | '-' :: l => (digits 0 false l).map (fun n => -Int.ofNat n)
  | l => (digits 0 false l).map Int.ofNat

example : split "/b/.shard/x.1" "/" = ["", "b", ".shard", "x.1"] := by decide

example : (afterLast "/b/.shard/x.12" '.').bind int = some 12 := by decide

-- A digit of another script counts, and so does white space that is not ASCII.
example : int "\u00a01\u0661" = some 11 ∧ int "\x1c5" = none := by decide

end Py.Str
