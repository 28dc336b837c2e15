import Lba2Pba.Worker.Startup
import Mathlib.Data.List.Nodup

/-!
# The lines of `getBricks`

What `getBricks` prints for a volume of the cluster, and when `WInit` can read it. A line
that is not the row of a brick has no path, and the volume that is asked for must not be
without lines (`bricksOf_iff`). The type is that of the volume if `grep` finds its line only
(`volumeType_iff`).
-/

namespace Lba2Pba.Worker

open Py

/-! ## The lines of one volume -/

/-- A volume that is not started is reported in five words. -/
theorem labelOf_notStarted {name : String} (hname : Str.IsWord name) (type : String) :
    labelOf type ("Volume " ++ name ++ " is not started") = none := by
  have hline : "Volume " ++ name ++ " is not started" =
      "Volume" ++ " " ++ (name ++ " " ++ "is not started") := by
    have hleft : "Volume " = "Volume" ++ " " := by decide
    have hright : " is not started" = " " ++ "is not started" := by decide
    rw [hleft, hright]
    simp only [String.append_assoc]
  have hfirst : Str.words "Volume" = ["Volume"] := by decide
  have hrest : Str.words "is not started" = ["is", "not", "started"] := by decide +kernel
  rw [labelOf, hline, Str.words_append, Str.words_append, Str.words_of_word hname, hfirst, hrest]
  rfl

theorem isSpace_of_nameChar {c : Char} (h : c.isAlphanum = true ∨ c = '-' ∨ c = '_') :
    Str.isSpace c = false ∧ c ≠ '.' := by
  rcases h with h | rfl | rfl
  · have hrange : 48 ≤ c.toNat ∧ c.toNat ≤ 122 := by
      delta Char.isAlphanum Char.isAlpha Char.isUpper Char.isLower Char.isDigit at h
      simp only [Bool.or_eq_true, Bool.and_eq_true, decide_eq_true_eq, ge_iff_le,
        UInt32.le_iff_toNat_le] at h
      have hval : c.toNat = c.val.toNat := rfl
      have hfirst : 'A'.val.toNat = 65 ∧ 'a'.val.toNat = 97 ∧ '0'.val.toNat = 48 := ⟨rfl, rfl, rfl⟩
      have hlast : 'Z'.val.toNat = 90 ∧ 'z'.val.toNat = 122 ∧ '9'.val.toNat = 57 := ⟨rfl, rfl, rfl⟩
      omega
    have hblank : c ≠ ' ' := fun hc => absurd (hc ▸ hrange) (by decide)
    have hdot : c ≠ '.' := fun hc => absurd (hc ▸ hrange) (by decide)
    refine ⟨?_, hdot⟩
    simp only [Str.isSpace, Str.isBlank, Bool.or_eq_false_iff, Bool.and_eq_false_iff,
      decide_eq_false_iff_not, List.contains_eq_mem, List.mem_cons, List.not_mem_nil, or_false]
    exact ⟨⟨⟨⟨hblank, by omega⟩, by omega⟩, by omega⟩, by omega⟩
  · decide
  · decide

section Lines

variable {c : Cluster} {v : GlusterVolume}

theorem GlusterVolume.name_word (v : GlusterVolume) : Str.IsWord v.name :=
  ⟨v.name_ne, fun c hc => (isSpace_of_nameChar (v.name_chars c hc)).1⟩

theorem GlusterVolume.name_dot (v : GlusterVolume) : '.' ∉ v.name.toList :=
  fun h => (isSpace_of_nameChar (v.name_chars '.' h)).2 rfl

/-- The path that `WInit` reads in the line for a row: the second of the three words, of
which the first is the volume. -/
def Cluster.pathOf (c : Cluster) (row : String) : Option String :=
  match Str.words (brickOfRow row) ++ c.addresses with
  | [path, _] => some path
  | _ => none

/-- The rows in which `grep` finds the name of the host. -/
def Cluster.rows (c : Cluster) (v : GlusterVolume) : List String :=
  grep c.hostname v.volumeStatus.out

/-- The paths that are read for a volume. -/
def Cluster.hits (c : Cluster) (v : GlusterVolume) : List String := (c.rows v).filterMap c.pathOf

/-- The lines that `getBricks` prints for a volume. -/
def Cluster.printed (c : Cluster) (v : GlusterVolume) : List String :=
  (c.rows v).map (fun row => v.name ++ " " ++ brickOfRow row ++ " " ++ Str.join " " c.addresses)

theorem labelOf_printed (c : Cluster) (v : GlusterVolume) (type row : String) :
    labelOf type (v.name ++ " " ++ brickOfRow row ++ " " ++ Str.join " " c.addresses) =
      (c.pathOf row).map (fun path => ⟨path, v.name, type⟩) := by
  have hwords : Str.words (v.name ++ " " ++ brickOfRow row ++ " " ++ Str.join " " c.addresses) =
      v.name :: (Str.words (brickOfRow row) ++ c.addresses) := by
    rw [Str.words_append (v.name ++ " " ++ brickOfRow row), Str.words_append v.name,
      Str.words_of_word v.name_word, Str.words_join c.address_word, List.append_assoc,
      List.singleton_append]
  unfold labelOf Cluster.pathOf
  rw [hwords]
  -- the words behind the name of the volume, by their number
  generalize Str.words (brickOfRow row) ++ c.addresses = rest
  rcases rest with _ | ⟨a, _ | ⟨b, _ | ⟨d, rest⟩⟩⟩ <;> rfl

/-- Each line that is printed for the volume has three words. -/
structure Readable (c : Cluster) (v : GlusterVolume) : Prop where
  started : v.started = true
  rows : ∀ row ∈ c.rows v, (c.pathOf row).isSome = true

theorem volumeStatus_of_started (h : v.started = true) : v.volumeStatus = ⟨v.table, []⟩ := by
  rw [GlusterVolume.volumeStatus, if_pos h]

/-- All other lines raise. -/
theorem readable_iff (c : Cluster) (v : GlusterVolume) (type : String) :
    (∀ line ∈ v.volumeStatus.err ++ c.printed v, (labelOf type line).isSome = true) ↔
      Readable c v := by
  have hrows : (∀ line ∈ c.printed v, (labelOf type line).isSome = true) ↔
      ∀ row ∈ c.rows v, (c.pathOf row).isSome = true := by
    simp only [Cluster.printed, List.forall_mem_map, labelOf_printed, Option.isSome_map]
  rw [List.forall_mem_append, hrows]
  constructor
  · rintro ⟨herr, hrows⟩
    refine ⟨?_, hrows⟩
    by_contra hs
    have hline := herr ("Volume " ++ v.name ++ " is not started")
      (by simp [GlusterVolume.volumeStatus, hs])
    rw [labelOf_notStarted v.name_word] at hline
    cases hline
  · intro h
    rw [volumeStatus_of_started h.started]
    exact ⟨fun line hl => absurd hl List.not_mem_nil, h.rows⟩

theorem filterMap_printed (c : Cluster) (v : GlusterVolume) (type : String) :
    (c.printed v).filterMap (labelOf type) =
      (c.hits v).map (fun path => ⟨path, v.name, type⟩) := by
  rw [Cluster.printed, List.filterMap_map, Cluster.hits, List.map_filterMap]
  exact List.filterMap_congr (fun row _ => labelOf_printed c v type row)

/-- The fields of a row are cut at line breaks, too. -/
theorem brickOfRow_newline (row : String) : '\n' ∉ (brickOfRow row).toList := by
  have hempty : '\n' ∉ "".toList := by decide
  have hfield : '\n' ∉ ((rowFields row)[1]?.getD "").toList := by
    cases hf : (rowFields row)[1]? with
    | none => exact hempty
    | some field =>
      intro hmem
      have hwords : field ∈ Str.wordsBy Str.isBlank row := by
        rw [rowFields] at hf
        split at hf
        · exact List.mem_of_getElem? hf
        · exact List.mem_of_getElem? hf
      exact absurd (Str.plain_of_mem_wordsBy hwords '\n' hmem) (by decide)
  rw [brickOfRow]
  cases hp : (Str.split ((rowFields row)[1]?.getD "") ":")[1]? with
  | none => exact hempty
  | some p =>
    have hin := Str.isIn_iff.1 (Str.isIn_of_mem_split (List.mem_of_getElem? hp))
    exact fun hmem => hfield (hin.subset hmem)

theorem err_newline : ∀ line ∈ v.volumeStatus.err, '\n' ∉ line.toList := by
  intro line hl
  rw [GlusterVolume.volumeStatus] at hl
  split at hl
  · exact absurd hl List.not_mem_nil
  · obtain rfl := List.mem_singleton.1 hl
    rw [String.toList_append, String.toList_append, List.mem_append, List.mem_append]
    rintro ((h | h) | h)
    · exact absurd h (by decide)
    · exact v.name_word.not_mem rfl h
    · exact absurd h (by decide)

theorem printed_newline : ∀ line ∈ c.printed v, '\n' ∉ line.toList := by
  intro line hl
  obtain ⟨row, -, rfl⟩ := List.mem_map.1 hl
  have hblank : '\n' ∉ " ".toList := by decide
  have hjoin : '\n' ∉ (Str.join " " c.addresses).toList := by
    intro hmem
    rcases Str.of_mem_join hmem with hmem | ⟨a, ha, hmem⟩
    · exact hblank hmem
    · exact (c.address_word a ha).not_mem rfl hmem
  simp only [String.toList_append, List.mem_append, not_or]
  exact ⟨⟨⟨⟨v.name_word.not_mem rfl, hblank⟩, brickOfRow_newline row⟩, hblank⟩, hjoin⟩

end Lines

/-! ## The lines of one call of `getBricks` -/

namespace Cluster

variable {c : Cluster}

/-- The volumes whose names have the name of the volume in them. -/
def related (c : Cluster) (u : GlusterVolume) : List GlusterVolume :=
  c.volumes.filter (fun v => Str.isIn u.name v.name)

theorem mem_related {u v : GlusterVolume} :
    v ∈ c.related u ↔ v ∈ c.volumes ∧ Str.isIn u.name v.name = true := List.mem_filter

theorem eq_of_name {u v : GlusterVolume} (hu : u ∈ c.volumes) (hv : v ∈ c.volumes)
    (h : u.name = v.name) : u = v := List.inj_on_of_nodup_map c.names hu hv h

theorem about_eq (f : GlusterVolume → Output) {v : GlusterVolume} (hv : v ∈ c.volumes) :
    c.about f v.name = f v := by
  cases hfind : c.volumes.find? (fun w => w.name = v.name) with
  | none => exact absurd (List.find?_eq_none.1 hfind v hv) (by simp)
  | some w =>
    have hname : w.name = v.name := by simpa using List.find?_some hfind
    obtain rfl := eq_of_name (List.mem_of_find?_eq_some hfind) hv hname
    rw [about, hfind]

theorem volumeList_eq (hne : c.volumes ≠ []) :
    c.shell.volumeList = .ok ⟨c.volumes.map GlusterVolume.name, []⟩ := by
  rw [shell]
  split
  · contradiction
  · rfl

theorem hostIP_eq (haddr : c.addresses ≠ []) : c.hostIP = ⟨[Str.join " " c.addresses], []⟩ := by
  rw [hostIP]
  split
  · contradiction
  · rfl

theorem grep_names (c : Cluster) (u : GlusterVolume) :
    grep u.name (c.volumes.map GlusterVolume.name) = (c.related u).map GlusterVolume.name := by
  rw [grep, List.filter_map, related]
  exact congrArg _ (List.filter_congr (fun v _ => grepLine_eq u.name_dot v.name))

theorem getBricks_eq (hne : c.volumes ≠ []) (haddr : c.addresses ≠ []) (u : GlusterVolume) :
    getBricks c.shell u.name =
      ⟨(c.related u).flatMap c.printed, (c.related u).flatMap (fun v => v.volumeStatus.err)⟩ := by
  have hmem : ∀ v ∈ c.related u, c.shell.volumeStatus v.name = v.volumeStatus :=
    fun v hv => about_eq _ (mem_related.1 hv).1
  have hip : c.shell.hostIP = ⟨[Str.join " " c.addresses], []⟩ := hostIP_eq haddr
  simp only [getBricks, volumeList_eq hne, grep_names, hip, List.flatMap_map, List.nil_append,
    printLines, List.flatMap_assoc]
  congr 1
  · refine List.flatMap_congr (fun v hv => ?_)
    rw [hmem v hv, ← List.map_eq_flatMap]
    rfl
  · exact List.flatMap_congr (fun v hv => by rw [hmem v hv])

theorem bricksOf_name (c : Cluster) (u : GlusterVolume) :
    bricksOf c.shell u.name = Str.split (getBricks c.shell u.name).text "\n" := by
  rw [bricksOf, Str.wordsBy_of_plain u.name_ne u.name_word.not_blank]

/-- The lines of `getBricks` for a volume of the cluster, with one empty line if there
is none. -/
theorem bricksOf_eq (hne : c.volumes ≠ []) (haddr : c.addresses ≠ []) (u : GlusterVolume)
    {lines : List String}
    (h : (c.related u).flatMap (fun v => v.volumeStatus.err) ++ (c.related u).flatMap c.printed =
      lines) : bricksOf c.shell u.name = if lines = [] then [""] else lines := by
  rw [bricksOf_name, getBricks_eq hne haddr, Output.text, h]
  by_cases hlines : lines = []
  · rw [if_pos hlines, hlines]
    decide
  · rw [if_neg hlines]
    refine Str.split_join rfl hlines (fun line hl => ?_)
    rw [← h] at hl
    rcases List.mem_append.1 hl with hl | hl
    · obtain ⟨v, -, hl⟩ := List.mem_flatMap.1 hl
      exact err_newline line hl
    · obtain ⟨v, -, hl⟩ := List.mem_flatMap.1 hl
      exact printed_newline line hl

/-- Without an address the message of `hostname` is the first line. -/
theorem bricksOf_no_address (hne : c.volumes ≠ []) (haddr : c.addresses = []) (u : GlusterVolume) :
    "hostname: Name or service not known" ∈ bricksOf c.shell u.name := by
  have hip : c.shell.hostIP = ⟨[], ["hostname: Name or service not known"]⟩ := by
    simp only [shell, hostIP, haddr]
  have hplain : '\n' ∉ "hostname: Name or service not known".toList := by decide +kernel
  rw [bricksOf_name, Output.text]
  simp only [getBricks, volumeList_eq hne, hip, List.nil_append, List.cons_append]
  exact Str.mem_split_join rfl hplain _

/-- The labels of the paths that are read for a volume, with the type that was asked for. -/
def labels (c : Cluster) (type : String) (v : GlusterVolume) : List Label :=
  (c.hits v).map (fun path => ⟨path, v.name, type⟩)

theorem filterMap_lines {u : GlusterVolume} (h : ∀ v ∈ c.related u, Readable c v)
    (type : String) : ((c.related u).flatMap (fun v => v.volumeStatus.err) ++
      (c.related u).flatMap c.printed).filterMap (labelOf type) =
      (c.related u).flatMap (c.labels type) := by
  have herr : (c.related u).flatMap (fun v => v.volumeStatus.err) = [] :=
    List.flatMap_eq_nil_iff.2 (fun v hv => by rw [volumeStatus_of_started (h v hv).started])
  rw [herr, List.nil_append, List.filterMap_flatMap]
  exact List.flatMap_congr (fun v _ => filterMap_printed c v type)

theorem filterMap_bricksOf (hne : c.volumes ≠ []) (haddr : c.addresses ≠ [])
    {u : GlusterVolume} (h : ∀ v ∈ c.related u, Readable c v) (type : String) :
    (bricksOf c.shell u.name).filterMap (labelOf type) = (c.related u).flatMap (c.labels type) := by
  rw [bricksOf_eq hne haddr u rfl, ← filterMap_lines h type]
  split
  · rename_i hnil
    rw [hnil]
    rfl
  · rfl

/-- No line raises if all the volumes that are listed can be read and there is a brick. -/
theorem bricksOf_iff (hne : c.volumes ≠ []) (haddr : c.addresses ≠ []) (u : GlusterVolume)
    (type : String) :
    (∀ line ∈ bricksOf c.shell u.name, (labelOf type line).isSome = true) ↔
      (∀ v ∈ c.related u, Readable c v) ∧ (c.related u).flatMap (c.labels type) ≠ [] := by
  have hall : (∀ line ∈ (c.related u).flatMap (fun v => v.volumeStatus.err) ++
      (c.related u).flatMap c.printed, (labelOf type line).isSome = true) ↔
      ∀ v ∈ c.related u, Readable c v := by
    simp only [← readable_iff c _ type, List.forall_mem_append, List.forall_mem_flatMap]
    exact ⟨fun h v hv => ⟨h.1 v hv, h.2 v hv⟩,
      fun h => ⟨fun v hv => (h v hv).1, fun v hv => (h v hv).2⟩⟩
  have hblank : labelOf type "" = none := rfl
  rw [bricksOf_eq hne haddr u rfl]
  constructor
  · intro h
    split at h
    · have hsome := h "" List.mem_cons_self
      rw [hblank] at hsome
      cases hsome
    · rename_i hlines
      refine ⟨hall.1 h, fun hnil => ?_⟩
      rw [← filterMap_lines (hall.1 h) type, List.filterMap_eq_nil_iff] at hnil
      obtain ⟨line, hl⟩ := List.exists_mem_of_ne_nil _ hlines
      have hsome := h line hl
      rw [hnil line hl] at hsome
      cases hsome
  · rintro ⟨hr, hlabels⟩
    rw [if_neg]
    · exact hall.2 hr
    · intro hlines
      rw [← filterMap_lines hr type, hlines] at hlabels
      exact hlabels rfl

theorem self_mem_related {u : GlusterVolume} (hu : u ∈ c.volumes) : u ∈ c.related u :=
  mem_related.2 ⟨hu, Str.isIn_refl _⟩

end Cluster

/-! ## The type of a volume -/

theorem cutType_line {type : String} (h : ∀ c ∈ type.toList, c ≠ ':' ∧ c ≠ ' ' ∧ c ≠ '\n') :
    cutType ("Type: " ++ type) = type := by
  have hline : "Type: " ++ type = "Type" ++ ":" ++ (" " ++ type) := by
    have htext : "Type: " = "Type" ++ ":" ++ " " := by decide
    refine (congrArg (· ++ type) htext).trans ?_
    simp only [String.append_assoc]
  have hcolon : ':' ∉ (" " ++ type).toList := by
    rw [String.toList_append, List.mem_append, not_or]
    exact ⟨by decide, fun hc => (h ':' hc).1 rfl⟩
  have htype : Str.remove type ' ' = type := by
    have hkeep : type.toList.filter (fun c => c ≠ ' ') = type.toList :=
      List.filter_eq_self.2 (fun c hc => decide_eq_true (h c hc).2.1)
    rw [Str.remove, hkeep, String.ofList_toList]
  have hfield : Str.remove (" " ++ type) ' ' = type := by
    rw [Str.remove_append, htype]
    exact String.empty_append
  rw [cutType, hline, Str.split_append rfl (by decide), Str.split_of_not_mem rfl hcolon]
  exact hfield

namespace Cluster

variable {c : Cluster}

theorem volumeType_iff {v : GlusterVolume} (hv : v ∈ c.volumes) :
    volumeType c.shell v.name = v.type ↔
      ∀ line ∈ ("Volume Name: " ++ v.name) :: v.info, Str.isIn "Type" line = false := by
  have hdot : '.' ∉ "Type".toList := by decide
  have hline : grep "Type" ["Type: " ++ v.type] = ["Type: " ++ v.type] := by
    refine List.filter_eq_self.2 (fun line hl => ?_)
    rw [List.mem_singleton.1 hl]
    refine grepLine_of_isIn (Str.isIn_iff.2 ?_)
    have htext : ("Type: " ++ v.type).toList = "Type".toList ++ (": ".toList ++ v.type.toList) := by
      rw [String.toList_append, ← List.append_assoc]
      rfl
    rw [htext]
    exact (List.prefix_append _ _).isInfix
  have hgrep : (grep "Type" v.volumeInfo.out).map cutType =
      (grep "Type" ["Volume Name: " ++ v.name]).map cutType ++
        v.type :: (grep "Type" v.info).map cutType := by
    have hout : v.volumeInfo.out =
        ["Volume Name: " ++ v.name] ++ (["Type: " ++ v.type] ++ v.info) := rfl
    rw [hout, grep, List.filter_append, List.filter_append, ← grep, ← grep, ← grep, hline,
      List.map_append, List.map_append, List.map_singleton, cutType_line v.type_chars]
    rfl
  have hinfo : c.shell.volumeInfo v.name = v.volumeInfo := about_eq _ hv
  have hnil : ∀ lines, (grep "Type" lines).map cutType = [] ↔
      ∀ line ∈ lines, Str.isIn "Type" line = false := by
    intro lines
    rw [List.map_eq_nil_iff, grep, List.filter_eq_nil_iff]
    simp only [grepLine_eq hdot, Bool.not_eq_true]
  rw [volumeType, hinfo, Output.text, hgrep]
  have herr : v.volumeInfo.err = [] := rfl
  rw [herr, List.nil_append, Str.join_eq_iff rfl (fun h => (v.type_chars _ h).2.2 rfl), hnil, hnil,
    List.forall_mem_singleton, List.forall_mem_cons]

end Cluster

end Lba2Pba.Worker
