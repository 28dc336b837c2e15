import Lba2Pba.Worker.Sender

/-!
# What the scan reports and what the monitor follows

`getFilePba` leaves out directories and file names by two short lists; the monitor of
the same brick leaves out paths by a third list and by their last character. Every file
that the monitor follows is reported by the scan. `scan_agrees_iff` says for which files the
converse holds, too.
-/

namespace Lba2Pba.Worker

open Py Path

/-! ## The scan -/

/-- What `os.walk(brick)` lists, from the directories of the brick with their files. -/
def osWalk (brick : String) (tree : List (List Name × List Name)) : List (String × List String) :=
  tree.map (fun x => (descend brick x.1, x.2.map Name.text))

/-- A file of the tree, by its directory and its name. -/
def IsFile (tree : List (List Name × List Name)) (dirs : List Name) (f : Name) : Prop :=
  ∃ files, (dirs, files) ∈ tree ∧ f ∈ files

/-- The directory or the name has a text that the scan leaves out. -/
def Skipped (root f : String) : Prop :=
  Str.isIn ".glusterfs" root = true ∨ Str.isIn ".remove_me" root = true ∨
    Str.isIn ".swp" f = true ∨ Str.isIn ".smx" f = true

instance (root f : String) : Decidable (Skipped root f) :=
  inferInstanceAs (Decidable (_ ∨ _))

/-- The scan reports a file with this path. -/
def Reported (env : Env) (walk : List (String × List String)) (volume : Volume) (path : String) :
    Prop :=
  ∃ filePba ∈ getFilePba env walk volume.name volume.type, filePba.fileName = path

theorem mem_scanned {walk : List (String × List String)} {path : String} :
    path ∈ scanned walk ↔
      ∃ root files f, (root, files) ∈ walk ∧ f ∈ files ∧ ¬ Skipped root f ∧ join root f = path := by
  have hdir : ∀ root, (!([".glusterfs", ".remove_me"].any (fun exclude => Str.isIn exclude root))) =
      true ↔ ¬ (Str.isIn ".glusterfs" root = true ∨ Str.isIn ".remove_me" root = true) := by
    intro root
    simp
  have hname : ∀ f, (!(Str.isIn ".swp" f || Str.isIn ".smx" f)) = true ↔
      ¬ (Str.isIn ".swp" f = true ∨ Str.isIn ".smx" f = true) := by
    intro f
    simp
  constructor
  · intro hpath
    obtain ⟨⟨root, files⟩, hwalk, hx⟩ := List.mem_flatMap.1 hpath
    obtain ⟨f, hf, rfl⟩ := List.mem_map.1 hx
    obtain ⟨hwalk, hroot⟩ := List.mem_filter.1 hwalk
    obtain ⟨hf, hkeep⟩ := List.mem_filter.1 hf
    refine ⟨root, files, f, hwalk, hf, ?_, rfl⟩
    rintro (h | h | h)
    · exact (hdir root).1 hroot (.inl h)
    · exact (hdir root).1 hroot (.inr h)
    · exact (hname f).1 hkeep h
  · rintro ⟨root, files, f, hwalk, hf, hskip, rfl⟩
    refine List.mem_flatMap.2 ⟨(root, files), List.mem_filter.2 ⟨hwalk, ?_⟩,
      List.mem_map.2 ⟨f, List.mem_filter.2 ⟨hf, ?_⟩, rfl⟩⟩
    · refine (hdir root).2 (fun h => hskip ?_)
      rcases h with h | h
      · exact .inl h
      · exact .inr (.inl h)
    · exact (hname f).2 (fun h => hskip (.inr (.inr h)))

theorem reported_iff {env : Env} {walk : List (String × List String)} {volume : Volume}
    {path : String} : Reported env walk volume path ↔ path ∈ scanned walk := by
  constructor
  · rintro ⟨x, hx, rfl⟩
    obtain ⟨fname, hf, rfl⟩ := List.mem_map.1 hx
    exact hf
  · intro hpath
    exact ⟨_, List.mem_map_of_mem hpath, rfl⟩

/-- A file of the brick is reported unless it is skipped: no other file has its path. -/
theorem reported_file_iff {env : Env} {volume : Volume} {brick : String}
    {tree : List (List Name × List Name)} {dirs : List Name} {f : Name} (hf : IsFile tree dirs f) :
    Reported env (osWalk brick tree) volume (join (descend brick dirs) f.text) ↔
      ¬ Skipped (descend brick dirs) f.text := by
  rw [reported_iff, mem_scanned]
  constructor
  · rintro ⟨root, files, g, hwalk, hg, hskip, hpath⟩
    obtain ⟨⟨dirs', files'⟩, -, hx⟩ := List.mem_map.1 hwalk
    cases hx
    obtain ⟨g', -, rfl⟩ := List.mem_map.1 hg
    obtain ⟨rfl, rfl⟩ := join_descend_inj hpath
    exact hskip
  · intro hskip
    obtain ⟨files, htree, hmem⟩ := hf
    exact ⟨_, _, f.text, List.mem_map.2 ⟨_, htree, rfl⟩, List.mem_map.2 ⟨f, hmem, rfl⟩, hskip, rfl⟩

/-! ## The monitor -/

/-- A new monitor with the exclusions of `WInit` queues the deletion of the path. -/
def QueuesDeletion (volume : Volume) (path : String) : Prop :=
  ((BrickMonitor.new gluster volume).onDeleted { srcPath := path }).brick.get? path =
    some (volume.data "delete")

/-- The directory or the name has something that the monitor leaves out, and that the
scan does not look for there. -/
def Unwatched (root f : String) : Prop :=
  Str.isIn ".gluster" root = true ∨ Str.isIn ".gluster" f = true ∨
    Str.isIn ".swp" root = true ∨ Str.isIn ".smx" root = true ∨ Str.isIn ".remove_me" f = true ∨
    f.toList.getLast? = some '~'

instance (root f : String) : Decidable (Unwatched root f) :=
  inferInstanceAs (Decidable (_ ∨ _))

theorem queuesDeletion_iff {volume : Volume} {path : String} : QueuesDeletion volume path ↔
    (BrickMonitor.new gluster volume).accepts path = true := by
  unfold QueuesDeletion BrickMonitor.onDeleted BrickMonitor.accepts
  cases hex : (BrickMonitor.new gluster volume).isExcluded path with
  | true => simp [BrickMonitor.new]
  | false =>
    cases hb : BrickMonitor.isBackup path with
    | true => simp [BrickMonitor.new]
    | false =>
      have hnew : (∅ : Dict String String).contains path = false := rfl
      simp [BrickMonitor.insert, BrickMonitor.new, enqueue, BrickMonitor.data, hnew]

theorem accepts_join_iff {volume : Volume} {root : String} {f : Name} :
    (BrickMonitor.new gluster volume).accepts (join root f.text) = true ↔
      ¬ (Unwatched root f.text ∨ Skipped root f.text) := by
  have hsub : ∀ sub ∈ gluster, '/' ∉ sub.toList := by decide
  have hback : BrickMonitor.isBackup (join root f.text) = true ↔
      f.text.toList.getLast? = some '~' := by
    rw [BrickMonitor.isBackup, getLast?_join, beq_iff_eq]
  have hprefix : Str.isIn ".glusterfs" root = true → Str.isIn ".gluster" root = true :=
    Str.isIn_trans (by decide)
  have hex : (BrickMonitor.new gluster volume).isExcluded (join root f.text) = true ↔
      ∃ sub ∈ gluster, Str.isIn sub root = true ∨ Str.isIn sub f.text = true := by
    rw [BrickMonitor.isExcluded, List.any_eq_true]
    exact exists_congr (fun sub => and_congr_right (fun hs => isIn_join_iff (hsub sub hs)))
  have haccepts : (BrickMonitor.new gluster volume).accepts (join root f.text) = true ↔
      ¬ ((∃ sub ∈ gluster, Str.isIn sub root = true ∨ Str.isIn sub f.text = true) ∨
        f.text.toList.getLast? = some '~') := by
    rw [← hex, ← hback, BrickMonitor.accepts]
    simp
  rw [haccepts, not_iff_not]
  simp only [gluster, List.mem_cons, List.not_mem_nil, or_false, exists_eq_or_imp, exists_eq_left,
    Unwatched, Skipped]
  constructor
  · grind
  · grind

/-! ## The two together -/

/-- The scan reports the file if and only if its deletion would be queued. -/
def Agrees (env : Env) (volume : Volume) (brick : String) (tree : List (List Name × List Name))
    (dirs : List Name) (f : Name) : Prop :=
  let path := join (descend brick dirs) f.text
  Reported env (osWalk brick tree) volume path ↔ QueuesDeletion volume path

/-- **Scan and monitor.** They agree on a file exactly if what hides it from the monitor
comes with something that hides it from the scan. -/
theorem scan_agrees_iff (env : Env) (volume : Volume) (brick : String)
    (tree : List (List Name × List Name)) (dirs : List Name) (f : Name) (hf : IsFile tree dirs f) :
    Agrees env volume brick tree dirs f ↔
      (Unwatched (descend brick dirs) f.text → Skipped (descend brick dirs) f.text) := by
  rw [Agrees, reported_file_iff hf, queuesDeletion_iff, accepts_join_iff, not_iff_not]
  constructor
  · intro h hu
    exact h.2 (.inl hu)
  · intro h
    exact ⟨.inr, fun hus => hus.elim h id⟩

/-! ## A backup file -/

theorem plain_names : ("table".toList ≠ [] ∧ '/' ∉ "table".toList) ∧
    ("notes~".toList ≠ [] ∧ '/' ∉ "notes~".toList) := by decide

def table : Name := ⟨"table", plain_names.1.1, plain_names.1.2⟩

/-- A file that is named as the backups of an editor are. -/
def notes : Name := ⟨"notes~", plain_names.2.1, plain_names.2.2⟩

theorem agrees_table : Agrees idleNode vol "/brick" [([], [table, notes])] [] table := by
  refine (scan_agrees_iff _ _ _ _ _ _ ⟨_, List.mem_cons_self, List.mem_cons_self⟩).2 ?_
  decide +kernel

/-- The scan reports the backup, and no event of it is ever queued. -/
theorem not_agrees_notes : IsFile [([], [table, notes])] [] notes ∧
    Reported idleNode (osWalk "/brick" [([], [table, notes])]) vol "/brick/notes~" ∧
    ¬ QueuesDeletion vol "/brick/notes~" ∧
    ¬ Agrees idleNode vol "/brick" [([], [table, notes])] [] notes := by
  have hrep : Reported idleNode (osWalk "/brick" [([], [table, notes])]) vol "/brick/notes~" := by
    rw [reported_iff, mem_scanned]
    exact ⟨"/brick", ["table", "notes~"], "notes~", List.mem_cons_self,
      List.mem_cons_of_mem _ List.mem_cons_self, by decide +kernel, by decide⟩
  have hqueue : ¬ QueuesDeletion vol "/brick/notes~" := by
    rw [queuesDeletion_iff]
    decide +kernel
  refine ⟨⟨_, List.mem_cons_self, List.mem_cons_of_mem _ List.mem_cons_self⟩, hrep, hqueue, ?_⟩
  exact fun h => hqueue (h.1 hrep)

end Lba2Pba.Worker
