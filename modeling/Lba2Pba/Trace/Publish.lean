import Lba2Pba.Run.Prefix
import Lba2Pba.Trace.Invariant

/-!
# Are the last reported extents published?

A worker reports a file whenever it changes, at first perhaps without any extent.
`upToDate_iff` says for which runs the file map has, after every prefix, what was
last reported for a file: `modify` does not reach `rawFM`, so each of them must carry
what is published already, and the deletion of the last shard of a file publishes the
extents that `fmDict` has, which a second `create` does not replace. Files with `.shard` in
their names are taken for shards, and no report of them is published at all.
-/

namespace Lba2Pba.Trace

open Py

/-- A request and the node whose worker sends it. -/
structure Report where
  sender : String
  env : Env
  request : TChangeRequest

namespace Report

/-- What a worker sends: extents on its own node, possibly none, and for a deletion a
list with its host. -/
structure FromWorker (x : Report) : Prop where
  hosted : x.request.filePba.pba = [] ∨ HostedOn x.sender x.request.filePba.pba
  delete : x.request.action = "delete" → x.request.filePba.pba ≠ []

/-- A `create`, `modify` or `delete` of file `f` by node `n`. -/
def isAbout (n f : String) (x : Report) : Bool :=
  decide (x.sender = n) && decide (x.request.filePba.fileName = f) &&
    decide (x.request.action = "create" ∨ x.request.action = "modify" ∨
      x.request.action = "delete")

theorem isAbout_iff {n f : String} {x : Report} : x.isAbout n f = true ↔
    x.sender = n ∧ x.request.filePba.fileName = f ∧ (x.request.action = "create" ∨
      x.request.action = "modify" ∨ x.request.action = "delete") := by
  simp [isAbout, and_assoc]

end Report

/-- The object after the reports. -/
def reports (t : Trace) (l : List Report) : Trace :=
  t.runAll (l.map (fun x => (x.env, x.request)))

theorem reports_snoc (t : Trace) (l : List Report) (x : Report) :
    t.reports (l ++ [x]) = (t.reports l).after x.env.toShard x.request := by
  simp only [reports, runAll, List.map_append, List.map_cons, List.map_nil, List.foldl_append,
    List.foldl_cons, List.foldl_nil]
  rw [tChangeFile_self]

/-- The last report of a file. -/
def lastReport (n f : String) (l : List Report) : Option TChangeRequest :=
  (l.filter (Report.isAbout n f)).getLast?.map Report.request

theorem lastReport_snoc (n f : String) (l : List Report) (x : Report) :
    lastReport n f (l ++ [x]) = if x.isAbout n f then some x.request else lastReport n f l := by
  rw [lastReport, List.filter_append]
  cases h : x.isAbout n f with
  | true => simp [h]
  | false => simp [h, lastReport]

/-- What the file map must say of a file after the report `r`. -/
def Shows (n f : String) (r : TChangeRequest) (t : Trace) : Prop :=
  if r.action = "delete" then ∀ x ∈ t.tGetFileMap, fileId x ≠ (some n, f)
  else r.filePba.pba ≠ [] → (∃ x ∈ t.tGetFileMap, fileId x = (some n, f)) ∧
    ∀ x ∈ t.tGetFileMap, fileId x = (some n, f) → x.pba = r.filePba.pba

/-- The file map is up to date with a file after the reports. -/
def UpToDate (n f : String) (t : Trace) (l : List Report) : Prop :=
  ∀ r, lastReport n f l = some r → Shows n f r (t.reports l)

/-- The request deletes the last shard of a file. -/
structure DropsLastShard (t : Trace) (n f : String) (r : TChangeRequest) (entry : Entry) :
    Prop where
  action : r.action = "delete"
  shard : isShard r.filePba.fileName = true
  node : HostedOn n r.filePba.pba
  owner : t.owner? n r.filePba.fileName = some (f, entry)
  present : (entry.shard.get? r.filePba.fileName).isSome
  last : (entry.shard.erase r.filePba.fileName).keys = []

/-- The report keeps the file map up to date, on an object whose last report of the
file was `last`. A file with `.shard` in its name is taken for a shard, so that no report
of it reaches its own entry. -/
structure Faithful (n f : String) (t : Trace) (last : Option TChangeRequest) (x : Report) :
    Prop where
  publish : x.isAbout n f = true →
    x.request.action = "modify" ∨ x.request.action = "create" ∧ isShard f = true →
    x.request.filePba.pba ≠ [] →
    ∃ raw, t.rawFM.get2? n f = some raw ∧ raw.pba = x.request.filePba.pba
  delete : x.isAbout n f = true → x.request.action = "delete" → isShard f = true →
    t.rawFM.get2? n f = none
  shard : ∀ r entry, last = some r → r.action ≠ "delete" → r.filePba.pba ≠ [] →
    DropsLastShard t n f x.request entry → entry.pba = r.filePba.pba

/-! ## The file map and `rawFM` -/

section Sound

variable {t : Trace} (h : Sound t) {n f : String}

include h

theorem mem_fileMap_iff {x : FilePBA} :
    x ∈ t.tGetFileMap ∧ fileId x = (some n, f) ↔ t.rawFM.get2? n f = some x := by
  rw [tGetFileMap, List.mem_map]
  constructor
  · rintro ⟨⟨⟨⟨m, g⟩, y⟩, hy, rfl⟩, hid⟩
    rw [fileId_of_mem_flat h hy] at hid
    cases hid
    exact Dict.mem_flat_iff.1 hy
  · intro hx
    have hm := Dict.mem_flat_iff.2 hx
    exact ⟨⟨_, hm, rfl⟩, fileId_of_mem_flat h hm⟩

theorem shows_iff {r : TChangeRequest} : Shows n f r t ↔
    if r.action = "delete" then t.rawFM.get2? n f = none
    else r.filePba.pba ≠ [] → ∃ raw, t.rawFM.get2? n f = some raw ∧ raw.pba = r.filePba.pba := by
  unfold Shows
  split
  · rw [Option.eq_none_iff_forall_ne_some]
    constructor
    · intro hall x hx
      obtain ⟨hm, hid⟩ := (mem_fileMap_iff h).2 hx
      exact hall x hm hid
    · intro hall x hm hid
      exact hall x ((mem_fileMap_iff h).1 ⟨hm, hid⟩)
  · refine imp_congr_right (fun _ => ?_)
    constructor
    · rintro ⟨⟨x, hm, hid⟩, hall⟩
      exact ⟨x, (mem_fileMap_iff h).1 ⟨hm, hid⟩, hall x hm hid⟩
    · rintro ⟨raw, hraw, hpba⟩
      obtain ⟨hm, hid⟩ := (mem_fileMap_iff h).2 hraw
      refine ⟨⟨raw, hm, hid⟩, fun x hx hidx => ?_⟩
      have hx := (mem_fileMap_iff h).1 ⟨hx, hidx⟩
      rw [hraw] at hx
      cases hx
      exact hpba

end Sound

/-! ## One report -/

section Step

variable {t : Trace} {n f : String} {x : Report} (toShard : String → String → Option String)

theorem after_of_nil {r : TChangeRequest} (h : r.filePba.pba = []) : t.after toShard r = t := by
  rw [after, h]
  rfl

/-- `rawFM` changes only when the last shard of an entry is deleted. -/
theorem rawFM_dropShard (node : String) (s : FilePBA) (t : Trace) :
    (∃ fname entry, t.owner? node s.fileName = some (fname, entry) ∧
        (entry.shard.get? s.fileName).isSome ∧ (entry.shard.erase s.fileName).keys = [] ∧
        (t.dropShard node s).rawFM =
          t.rawFM.set2 node fname { pba := entry.pba, fileName := fname }) ∨
      ((∀ fname entry, t.owner? node s.fileName = some (fname, entry) →
        (entry.shard.get? s.fileName).isSome → (entry.shard.erase s.fileName).keys ≠ []) ∧
        (t.dropShard node s).rawFM = t.rawFM) := by
  unfold dropShard
  cases ho : t.owner? node s.fileName with
  | none =>
    refine .inr ⟨?_, rfl⟩
    intro fname entry hc
    cases hc
  | some y =>
    obtain ⟨fname, entry⟩ := y
    cases hs : entry.shard.get? s.fileName with
    | none =>
      refine .inr ⟨fun _ _ hc hsome => ?_, by simp only [hs]⟩
      cases hc
      rw [hs] at hsome
      cases hsome
    | some old =>
      by_cases hk : (entry.shard.erase s.fileName).keys = []
      · exact .inl ⟨fname, entry, rfl, by rw [hs]; rfl, hk, by simp [hs, hk]⟩
      · refine .inr ⟨fun _ _ hc _ => ?_, by simp [hs, hk]⟩
        cases hc
        exact hk

/-- The published entry after a shard message. -/
theorem raw_after_shard (h : Sound t) {r : TChangeRequest} {m : String}
    (hs : isShard r.filePba.fileName = true) (hm : HostedOn m r.filePba.pba) :
    (∃ entry, DropsLastShard t n f r entry ∧ (t.after toShard r).rawFM.get2? n f =
        some { pba := entry.pba, fileName := f }) ∨
      ((∀ entry, ¬ DropsLastShard t n f r entry) ∧
        (t.after toShard r).rawFM.get2? n f = t.rawFM.get2? n f) := by
  obtain ⟨first, hp, rfl⟩ := hm.head?
  by_cases hd : r.action = "delete"
  · have node_eq : ∀ entry, DropsLastShard t n f r entry → n = first.host := by
      intro entry he
      have := he.node
      rw [HostedOn, hp] at this
      exact (Option.some.inj this).symm
    rw [after_deleteShard toShard t hp hd hs]
    rcases rawFM_dropShard first.host r.filePba t with ⟨fname, entry, ho, hpres, hlast, hraw⟩ |
      ⟨hnone, hraw⟩
    · rw [hraw]
      by_cases hc : first.host = n ∧ fname = f
      · obtain ⟨rfl, rfl⟩ := hc
        have hk := (h.knows (Dict.mem_keys_of_get2? (owner?_eq_some ho).2)).2
        exact .inl ⟨entry, ⟨hd, hs, hm, ho, hpres, hlast⟩,
          by rw [Dict.get2?_set2 hk, if_pos ⟨rfl, rfl⟩]⟩
      · refine .inr ⟨fun e he => hc ?_, Dict.get2?_set2_of_ne hc⟩
        have hn := node_eq e he
        have hown := he.owner
        rw [hn, ho] at hown
        cases hown
        exact ⟨hn.symm, rfl⟩
    · refine .inr ⟨fun e he => ?_, by rw [hraw]⟩
      have hown := he.owner
      rw [node_eq e he] at hown
      exact hnone f e hown he.present he.last
  · refine .inr ⟨fun e he => hd he.action, ?_⟩
    have hraw : (t.after toShard r).rawFM = t.rawFM := by
      simp only [after, hp, hs, if_true, hd, if_false]
      split
      · exact rawFM_putShard ..
      split
      · exact rawFM_putShard ..
      · rfl
    rw [hraw]

/-- The published entry after a report that is not about the file. -/
theorem raw_after_other (h : Sound t) (hx : x.FromWorker) (ha : x.isAbout n f = false) :
    (∃ entry, DropsLastShard t n f x.request entry ∧
        (t.after toShard x.request).rawFM.get2? n f = some { pba := entry.pba, fileName := f }) ∨
      ((∀ entry, ¬ DropsLastShard t n f x.request entry) ∧
        (t.after toShard x.request).rawFM.get2? n f = t.rawFM.get2? n f) := by
  rcases hx.hosted with hnil | hhost
  · refine .inr ⟨fun e he => ?_, by rw [after_of_nil toShard hnil]⟩
    have := he.node
    rw [hnil] at this
    cases this
  cases hs : isShard x.request.filePba.fileName with
  | true => exact raw_after_shard toShard h hs hhost
  | false =>
    refine .inr ⟨fun e he => ?_, ?_⟩
    · exact Bool.false_ne_true (hs.symm.trans he.shard)
    obtain ⟨first, hp, hn⟩ := hhost.head?
    by_cases hk : first.host ∈ t.fmDict.keys
    · have hcell := congrArg Cell.raw (cell_after_base toShard hp hs (h.knows hk) n f)
      refine hcell.trans ?_
      split
      · -- the file itself, with an action the service does not know
        rename_i hc
        have hact : ¬ (x.request.action = "create" ∨ x.request.action = "modify" ∨
            x.request.action = "delete") := by
          intro hact
          rw [Report.isAbout_iff.2 ⟨hn.symm.trans hc.1, hc.2, hact⟩] at ha
          cases ha
        rw [not_or, not_or] at hact
        simp [Cell.apply, hact, cell]
      · rfl
    · rw [after_of_not_mem hp hs hk]

/-- After a report of a file with an ordinary name the file map is right, unless the report
is a `modify` with extents that are not published. -/
theorem shows_after_base (h : Sound t) (hn : n ∈ t.fmDict.keys)
    (hhost : HostedOn n x.request.filePba.pba) (hf : isShard f = false)
    (ha : x.isAbout n f = true) :
    Shows n f x.request (t.after toShard x.request) ↔
      (x.request.action = "modify" → x.request.filePba.pba ≠ [] →
        ∃ raw, t.rawFM.get2? n f = some raw ∧ raw.pba = x.request.filePba.pba) := by
  obtain ⟨-, hname, hact⟩ := Report.isAbout_iff.1 ha
  rw [shows_iff (h.after toShard x.request)]
  have hne := hhost.ne_nil
  obtain ⟨first, hp, rfl⟩ := hhost.head?
  have hb : isShard x.request.filePba.fileName = false := by rw [hname, hf]
  have hcell := congrArg Cell.raw
    (cell_after_base toShard hp hb (h.knows hn) first.host f)
  rw [if_pos ⟨rfl, hname⟩] at hcell
  change (t.after toShard x.request).rawFM.get2? first.host f = _ at hcell
  rw [hcell]
  rcases hact with hc | hm | hd
  · simp [hc, Cell.apply]
  · simp [hm, hne, Cell.apply, cell]
  · cases he : t.fmDict.get2? first.host f with
    | none =>
      have hnone := h.get2?_eq_none_iff.1 he
      simp [hd, Cell.apply, cell, he, hnone]
    | some e => simp [hd, Cell.apply, cell, he]

/-- After a report of a file that is taken for a shard the file map is right if and only if
it was so before: the entry of the file is at most written with what `fmDict` has. -/
theorem shows_after_shardNamed (h : Sound t) (hhost : HostedOn n x.request.filePba.pba)
    (hf : isShard x.request.filePba.fileName = true) :
    Shows n f x.request (t.after toShard x.request) ↔
      if x.request.action = "delete" then t.rawFM.get2? n f = none
      else ∃ raw, t.rawFM.get2? n f = some raw ∧ raw.pba = x.request.filePba.pba := by
  have hne := hhost.ne_nil
  rw [shows_iff (h.after toShard x.request)]
  rcases raw_after_shard (n := n) (f := f) toShard h hf hhost with ⟨entry, hd, hraw⟩ | ⟨-, hraw⟩
  · -- the file has an entry, and it keeps it
    obtain ⟨old, hold⟩ := h.published (owner?_eq_some hd.owner).2
    simp [hd.action, hraw, hold]
  · simp [hraw, hne]

theorem shows_after_about (h : Sound t) (hn : n ∈ t.fmDict.keys) (hx : x.FromWorker)
    (ha : x.isAbout n f = true) (last : Option TChangeRequest) :
    Shows n f x.request (t.after toShard x.request) ↔ Faithful n f t last x := by
  obtain ⟨hsender, hname, hact⟩ := Report.isAbout_iff.1 ha
  rcases hx.hosted with hnil | hhost
  · -- nothing is asked after a report without extents
    have hd : x.request.action ≠ "delete" := fun hd => hx.delete hd hnil
    refine iff_of_true ?_ ⟨fun _ _ hne => absurd hnil hne, fun _ hdel => absurd hdel hd,
      fun _ _ _ _ _ hdrop => absurd hdrop.action hd⟩
    rw [Shows, if_neg hd]
    exact fun hne => absurd hnil hne
  rw [hsender] at hhost
  cases hf : isShard f with
  | false =>
    rw [shows_after_base toShard h hn hhost hf ha]
    refine ⟨fun hmod => ⟨fun _ hm => ?_, fun _ _ hs => ?_, fun _ _ _ _ _ hdrop => ?_⟩,
      fun hfaith hm => hfaith.publish ha (.inl hm)⟩
    · exact hmod (hm.resolve_right (fun hc => Bool.false_ne_true (hf.symm.trans hc.2)))
    · exact absurd (hf.symm.trans hs) Bool.false_ne_true
    · exact absurd ((hname ▸ hf).symm.trans hdrop.shard) Bool.false_ne_true
  | true =>
    rw [shows_after_shardNamed toShard h hhost (hname ▸ hf)]
    split
    · rename_i hd
      refine ⟨fun hnone => ⟨fun _ hm => ?_, fun _ _ _ => hnone, fun _ _ _ _ _ hdrop => ?_⟩,
        fun hfaith => hfaith.delete ha hd hf⟩
      · rcases hm with hm | hm
        · exact absurd (hd.symm.trans hm) (by decide)
        · exact absurd (hd.symm.trans hm.1) (by decide)
      · obtain ⟨old, hold⟩ := h.published (owner?_eq_some hdrop.owner).2
        rw [hnone] at hold
        cases hold
    · rename_i hd
      refine ⟨fun hraw => ⟨fun _ _ _ => hraw, fun _ hdel => absurd hdel hd,
        fun _ _ _ _ _ hdrop => absurd hdrop.action hd⟩, fun hfaith => ?_⟩
      refine hfaith.publish ha ?_ hhost.ne_nil
      rcases hact with hc | hm | hdel
      · exact .inr ⟨hc, hf⟩
      · exact .inl hm
      · exact absurd hdel hd

theorem faithful_of_other (ha : x.isAbout n f = false) (last : Option TChangeRequest) :
    Faithful n f t last x ↔ ∀ r entry, last = some r → r.action ≠ "delete" →
      r.filePba.pba ≠ [] → DropsLastShard t n f x.request entry → entry.pba = r.filePba.pba := by
  have hnot : x.isAbout n f ≠ true := by simp [ha]
  exact ⟨Faithful.shard, fun hshard => ⟨fun hc => absurd hc hnot, fun hc => absurd hc hnot, hshard⟩⟩

/-- After any other report the file map is as right as before, unless the last shard of
the file is deleted: then it has the extents of `fmDict`. -/
theorem shows_after_other (hs : Sound t) (hx : x.FromWorker) (ha : x.isAbout n f = false)
    {last : Option TChangeRequest} (hl : ∀ r, last = some r → Shows n f r t) :
    (∀ r, last = some r → Shows n f r (t.after toShard x.request)) ↔ Faithful n f t last x := by
  have hs' := hs.after toShard x.request
  rw [faithful_of_other ha]
  rcases raw_after_other toShard hs hx ha with ⟨entry, hd, hraw⟩ | ⟨hno, hraw⟩
  · have huniq : ∀ e, DropsLastShard t n f x.request e → e = entry := by
      intro e he
      cases hd.owner.symm.trans he.owner
      rfl
    obtain ⟨old, hold⟩ := hs.published (owner?_eq_some hd.owner).2
    refine forall_congr' (fun r => ⟨fun hshow e hr hdel hne he => ?_, fun hshard hr => ?_⟩)
    · have hpba := (shows_iff hs').1 (hshow hr)
      rw [if_neg hdel, hraw] at hpba
      obtain ⟨raw, he', hpba⟩ := hpba hne
      cases he'
      rw [huniq e he]
      exact hpba
    · -- the file is in the maps, so its last report was not a deletion
      have hdel : r.action ≠ "delete" := by
        intro hdel
        have hshow := (shows_iff hs).1 (hl r hr)
        rw [if_pos hdel, hold] at hshow
        cases hshow
      rw [shows_iff hs', if_neg hdel, hraw]
      exact fun hne => ⟨_, rfl, hshard entry hr hdel hne hd⟩
  · refine iff_of_true (fun r hr => ?_) (fun r e _ _ _ he => absurd he (hno e))
    have hshow := (shows_iff hs).1 (hl r hr)
    rw [shows_iff hs', hraw]
    exact hshow

theorem upToDate_step {l : List Report} (ht : Reachable t) (hn : n ∈ t.fmDict.keys)
    (hx : x.FromWorker) (hl : UpToDate n f t l) :
    UpToDate n f t (l ++ [x]) ↔ Faithful n f (t.reports l) (lastReport n f l) x := by
  have hs : Sound (t.reports l) := (ht.runAll _).sound
  have hn' : n ∈ (t.reports l).fmDict.keys := by
    rw [reports, (sameNodes_runAll _ t).1]
    exact hn
  unfold UpToDate
  rw [lastReport_snoc, reports_snoc]
  cases ha : x.isAbout n f with
  | true =>
    simp only [if_true, Option.some.injEq, forall_eq']
    exact shows_after_about x.env.toShard hs hn' hx ha _
  | false =>
    simp only [Bool.false_eq_true, if_false]
    exact shows_after_other x.env.toShard hs hx ha hl

end Step

/-! ## Every run -/

/-- **When the last reported extents are published**: the file map is up to date with
a file of a known node after every prefix of a run exactly when every report is
faithful. -/
theorem upToDate_iff {t : Trace} (ht : Reachable t) {n f : String} (hn : n ∈ t.fmDict.keys)
    (l : List Report) (hl : ∀ x ∈ l, x.FromWorker) :
    (∀ l', l' <+: l → UpToDate n f t l') ↔
      ∀ l₁ x l₂, l = l₁ ++ x :: l₂ → Faithful n f (t.reports l₁) (lastReport n f l₁) x := by
  refine Run.forall_prefix_iff ?_ (fun l x _ (hx : x.FromWorker) hup => ?_) l hl
  · intro r hr
    cases hr
  · exact upToDate_step ht hn hx hup

/-- A new file, reported once with its extents. -/
theorem createOther_upToDate : ∃ t, init oneGfid.toShard oneFile = .ok t ∧
    UpToDate "node1" "/vol/b" t [⟨"node1", oneGfid, createOther⟩] := by
  have h : ∃ t, init oneGfid.toShard oneFile = .ok t ∧ "node1" ∈ t.fmDict.keys :=
    ⟨_, rfl, by decide⟩
  obtain ⟨t, ht, hn⟩ := h
  refine ⟨t, ht, (upToDate_iff (.init ht) hn _ ?_).2 ?_ _ List.prefix_rfl⟩
  · intro x hx
    cases List.mem_singleton.1 hx
    exact ⟨.inr rfl, fun h => absurd h (by decide)⟩
  · intro l₁ x l₂ he
    obtain ⟨rfl, rfl, rfl⟩ : l₁ = [] ∧ x = ⟨"node1", oneGfid, createOther⟩ ∧ l₂ = [] := by
      cases l₁ with
      | nil => simpa using he.symm
      | cons y l₁ => simp at he
    refine ⟨fun _ h => absurd h (by decide), fun _ h => absurd h (by decide), fun _ _ h => ?_⟩
    cases h

/-- A file that is created without extents and then written. -/
def lateExtents : List Report :=
  [⟨"node1", oneGfid, ⟨"create", { fileName := "/vol/b", type := "Distribute" }⟩⟩,
    ⟨"node1", oneGfid, { createOther with action := "modify" }⟩]

theorem lateExtents_not_upToDate : ∃ t, Reachable t ∧ "node1" ∈ t.fmDict.keys ∧
    t.fmDict.get2? "node1" "/vol/b" = none ∧ (∀ x ∈ lateExtents, x.FromWorker) ∧
    ¬ UpToDate "node1" "/vol/b" t lateExtents := by
  have h : ∃ t, init oneGfid.toShard oneFile = .ok t ∧ "node1" ∈ t.fmDict.keys ∧
      t.fmDict.get2? "node1" "/vol/b" = none ∧
      (some "node1", "/vol/b") ∉ (t.reports lateExtents).tGetFileMap.map fileId :=
    ⟨_, rfl, by decide, by decide, by decide⟩
  obtain ⟨t, ht, hn, hnew, hno⟩ := h
  refine ⟨t, .init ht, hn, hnew, fun x hx => ?_, fun hup => hno ?_⟩
  · simp only [lateExtents, List.mem_cons, List.not_mem_nil, or_false] at hx
    rcases hx with rfl | rfl
    · exact ⟨.inl rfl, fun h => absurd h (by decide)⟩
    · exact ⟨.inr rfl, fun h => absurd h (by decide)⟩
  · have hshow := hup { createOther with action := "modify" } (by decide)
    rw [Shows, if_neg (by decide)] at hshow
    obtain ⟨⟨x, hx, hid⟩, -⟩ := hshow (by decide)
    exact List.mem_map.2 ⟨x, hx, hid⟩

end Lba2Pba.Trace
