import Lba2Pba.Trace.Startup
import Lba2Pba.Trace.Cell

/-!
# The structural invariant of the service

`Reachable` is every object that the service can have after its constructor has
completed: any requests, any environments (so any exceptions and failing pushes),
managers coming and going. In all of them the two maps have the same nodes and the
same files, and every file has an extent, the first of them on its node
(`Sound`). A manager relies on it when it reads `pba[0]` of what it is sent.
-/

namespace Lba2Pba.Trace

open Py

structure Sound (t : Trace) : Prop where
  nodes : t.fmDict.keys = t.rawFM.keys
  files : ∀ n f, (t.fmDict.get2? n f).isSome = (t.rawFM.get2? n f).isSome
  entry : ∀ n f e, t.fmDict.get2? n f = some e → HostedOn n e.pba
  raw : ∀ n f x, t.rawFM.get2? n f = some x → x.fileName = f ∧ HostedOn n x.pba

/-- The invariant of one cell. -/
structure Cell.Sound (n f : String) (c : Cell) : Prop where
  both : c.entry.isSome = c.raw.isSome
  entry : ∀ e, c.entry = some e → HostedOn n e.pba
  raw : ∀ x, c.raw = some x → x.fileName = f ∧ HostedOn n x.pba

theorem Sound.cell {t : Trace} (h : Sound t) (n f : String) : Cell.Sound n f (t.cell n f) :=
  ⟨h.files n f, h.entry n f, h.raw n f⟩

theorem sound_of_cells {t : Trace} (hn : t.fmDict.keys = t.rawFM.keys)
    (h : ∀ n f, Cell.Sound n f (t.cell n f)) : Sound t :=
  ⟨hn, fun n f => (h n f).both, fun n f => (h n f).entry, fun n f => (h n f).raw⟩

theorem Sound.knows {t : Trace} (h : Sound t) {n : String} (hn : n ∈ t.fmDict.keys) : t.Knows n :=
  ⟨hn, h.nodes ▸ hn⟩

/-- Every entry is published. -/
theorem Sound.published {t : Trace} (h : Sound t) {n f : String} {e : Entry}
    (he : t.fmDict.get2? n f = some e) : ∃ x, t.rawFM.get2? n f = some x := by
  rw [← Option.isSome_iff_exists, ← h.files, he]
  rfl

theorem Sound.stored {t : Trace} (h : Sound t) {n f : String} {x : FilePBA}
    (hx : t.rawFM.get2? n f = some x) : ∃ e, t.fmDict.get2? n f = some e := by
  rw [← Option.isSome_iff_exists, h.files, hx]
  rfl

theorem Sound.get2?_eq_none_iff {t : Trace} (h : Sound t) {n f : String} :
    t.fmDict.get2? n f = none ↔ t.rawFM.get2? n f = none := by
  rw [← Option.not_isSome_iff_eq_none, ← Option.not_isSome_iff_eq_none, h.files]

/-! ## One step -/

theorem Cell.Sound.apply {n : String} {f : FilePBA} {c : Cell} (hf : HostedOn n f.pba)
    (h : Cell.Sound n f.fileName c) (action : String) :
    Cell.Sound n f.fileName (c.apply action f) := by
  unfold Cell.apply
  split
  · refine ⟨rfl, fun e he => ?_, fun x hx => ?_⟩
    · cases hc : c.entry with
      | none =>
        rw [hc] at he
        cases he
        exact hf
      | some e₀ =>
        rw [hc] at he
        cases he
        exact h.entry e₀ hc
    · cases hx
      exact ⟨rfl, hf⟩
  split
  · refine ⟨by simpa using h.both, fun e he => ?_, h.raw⟩
    obtain ⟨e₀, -, rfl⟩ := Option.map_eq_some_iff.1 he
    exact hf
  split
  · split
    · refine ⟨rfl, ?_, ?_⟩
      · intro e he
        cases he
      · intro x hx
        cases hx
    · exact h
  · exact h

theorem Cell.Sound.shardStep {n f : String} {c c' : Cell} (h : Cell.Sound n f c)
    (hs : Cell.ShardStep f c c') : Cell.Sound n f c' := by
  obtain ⟨⟨d, he⟩, hr⟩ := hs
  have hentry : ∀ e, c'.entry = some e → HostedOn n e.pba := by
    intro e hce
    rw [he, Option.map_eq_some_iff] at hce
    obtain ⟨e₀, he₀, rfl⟩ := hce
    exact h.entry e₀ he₀
  rcases hr with hr | ⟨e, hce, hr⟩
  · refine ⟨?_, hentry, fun x hx => h.raw x (hr ▸ hx)⟩
    rw [he, hr, Option.isSome_map, h.both]
  · refine ⟨by rw [he, hr, hce]; rfl, hentry, fun x hx => ?_⟩
    rw [hr] at hx
    cases hx
    exact ⟨rfl, h.entry e hce⟩

theorem Sound.after {t : Trace} (h : Sound t) (toShard : String → String → Option String)
    (r : TChangeRequest) : Sound (t.after toShard r) := by
  obtain ⟨hfm, hraw⟩ := sameNodes_after toShard r t
  refine sound_of_cells (by rw [hfm, hraw, h.nodes]) (fun n f => ?_)
  by_cases hs : r.filePba.pba.head? = none ∨ isShard r.filePba.fileName = true
  · exact (h.cell n f).shardStep (cell_after_shard hs n f)
  · rw [not_or, Bool.not_eq_true] at hs
    obtain ⟨first, hp⟩ := Option.ne_none_iff_exists'.1 hs.1
    by_cases hk : first.host ∈ t.fmDict.keys
    · rw [cell_after_base toShard hp hs.2 (h.knows hk)]
      split
      · rename_i hc
        obtain ⟨rfl, rfl⟩ := hc
        refine (h.cell _ _).apply ?_ r.action
        rw [HostedOn, hp]
        rfl
      · exact h.cell n f
    · rw [after_of_not_mem hp hs.2 hk]
      exact h.cell n f

/-! ## The constructor -/

section Init

variable {toShard : String → String → Option String}

/-- The invariant of the loops that fill `fmDict`. -/
def AllHosted (d : Dict String (Dict String Entry)) : Prop :=
  ∀ n f e, d.get2? n f = some e → HostedOn n e.pba

theorem allHosted_enterBase {d d' : Dict String (Dict String Entry)} {f : FilePBA}
    (hd : AllHosted d) (h : enterBase d f = .ok d') : d'.keys = d.keys ∧ AllHosted d' := by
  obtain ⟨first, hp, hn⟩ := enterBase_inv h
  obtain ⟨d₁, h₁, hk, hget⟩ := enterBase_ok hp hn
  rw [h] at h₁
  cases h₁
  refine ⟨hk, fun n g e he => ?_⟩
  rw [hget] at he
  split at he
  · rename_i hc
    obtain ⟨rfl, rfl⟩ := hc
    cases ho : d.get2? first.host f.fileName with
    | none =>
      rw [ho] at he
      cases he
      show HostedOn first.host f.pba
      rw [HostedOn, hp]
      rfl
    | some e₀ =>
      rw [ho] at he
      cases he
      exact hd _ _ _ ho
  · exact hd n g e he

theorem allHosted_enterShard {d d' : Dict String (Dict String Entry)} {node : String}
    {shardDict : Dict (Option String) String} {s : FilePBA} (hd : AllHosted d)
    (h : enterShard node shardDict d s = .ok d') : d'.keys = d.keys ∧ AllHosted d' := by
  obtain ⟨fname, entry, -, he, rfl⟩ := enterShard_inv h
  refine ⟨Dict.keys_set2 .., fun n g e hge => ?_⟩
  rw [Dict.get2?_set2 (Dict.mem_keys_of_get2? he)] at hge
  split at hge
  · rename_i hc
    obtain ⟨rfl, rfl⟩ := hc
    cases hge
    exact hd node fname entry he
  · exact hd n g e hge

/-- What the two loops over the replies enter. -/
theorem allHosted_entered {l₁ l₂ : List FilePBA} {node : String}
    {shardDict : Dict (Option String) String} {d d₁ d₂ : Dict String (Dict String Entry)}
    (hd : AllHosted d) (h₁ : l₁.foldlM enterBase d = .ok d₁)
    (h₂ : l₂.foldlM (enterShard node shardDict) d₁ = .ok d₂) : d₂.keys = d.keys ∧ AllHosted d₂ := by
  have i₁ : d₁.keys = d.keys ∧ AllHosted d₁ := by
    refine foldlM_inv (P := fun _ e => e.keys = d.keys ∧ AllHosted e) ⟨rfl, hd⟩ ?_ h₁
    intro done f rest _ e e' he hf
    obtain ⟨hk, ha⟩ := allHosted_enterBase he.2 hf
    exact ⟨hk.trans he.1, ha⟩
  refine foldlM_inv (P := fun _ e => e.keys = d.keys ∧ AllHosted e) i₁ ?_ h₂
  intro done s rest _ e e' he hs
  obtain ⟨hk, ha⟩ := allHosted_enterShard he.2 hs
  exact ⟨hk.trans he.1, ha⟩

theorem init_sound {replies : List (String × List FilePBA)} {t : Trace}
    (h : init toShard replies = .ok t) : Sound t := by
  by_cases hne : (scan toShard replies).rawFilePba = []
  · have hemp : (scan toShard replies).rawFilePba.isEmpty = true := by simp [hne]
    simp only [init, hemp, if_true] at h
    cases h
    refine ⟨keys_peerDicts _, fun n f => ?_, fun n f e he => ?_, fun n f x hx => ?_⟩
    · simp
    · simp at he
    · simp at hx
  · obtain ⟨d₁, d₂, raw, h1, h2, h3, rfl⟩ := init_inv h hne
    have h0 : AllHosted (peerDicts (replies.map Prod.fst)) := by
      intro n f e he
      rw [get2?_peerDicts] at he
      cases he
    obtain ⟨hentered, hall⟩ := allHosted_entered h0 h1 h2
    have hkeys : d₂.keys =
        (peerDicts (replies.map Prod.fst) : Dict String (Dict String FilePBA)).keys :=
      hentered.trans (keys_peerDicts _)
    have pub := assembleAll_inv (fun n hn => hkeys ▸ hn) h3
    refine sound_of_cells (hkeys.trans pub.keys.symm) (fun n f => ?_)
    cases he : d₂.get2? n f with
    | none =>
      have hr : raw.get2? n f = none := by
        rw [pub.other n f, get2?_peerDicts]
        intro hm
        obtain ⟨⟨⟨m, g⟩, e⟩, hmem, hmg⟩ := List.mem_map.1 hm
        cases hmg
        rw [Dict.mem_flat_iff, he] at hmem
        cases hmem
      simp only [cell, he, hr]
      refine ⟨rfl, ?_, ?_⟩
      · intro e' hc
        cases hc
      · intro x' hc
        cases hc
    | some e =>
      obtain ⟨x, hx, hr⟩ := pub.entry n f e (Dict.mem_flat_iff.2 he)
      obtain ⟨shards, -, rfl⟩ := assemble_inv hx
      have hosted := hall n f e he
      simp only [cell, he, hr]
      refine ⟨rfl, fun e' hc => ?_, fun x' hc => ?_⟩
      · cases hc
        exact hosted
      · cases hc
        exact ⟨rfl, hosted.append _⟩

end Init

/-! ## Every reachable object -/

inductive Reachable : Trace → Prop
  | init {toShard : String → String → Option String} {replies : List (String × List FilePBA)}
      {t : Trace} (h : Trace.init toShard replies = .ok t) : Reachable t
  | change {t : Trace} (env : Env) (r : TChangeRequest) (h : Reachable t) :
      Reachable ((tChangeFile env r).run ⟨t, []⟩).2.self
  | register {t : Trace} (addr : String) (h : Reachable t) : Reachable (t.tRegister addr)
  | deregister {t t' : Trace} (addr : String) (h : Reachable t) (hd : TDeregister addr t t') :
      Reachable t'

theorem Reachable.sound {t : Trace} (h : Reachable t) : Sound t := by
  induction h with
  | init h => exact init_sound h
  | change env r _ ih =>
    rw [tChangeFile_self]
    exact ih.after env.toShard r
  | register addr _ ih => exact ⟨ih.nodes, ih.files, ih.entry, ih.raw⟩
  | deregister addr _ hd ih =>
    obtain ⟨-, agents, -, rfl⟩ := hd
    exact ⟨ih.nodes, ih.files, ih.entry, ih.raw⟩

/-- The object after a list of requests, each with its environment. -/
def runAll (t : Trace) (l : List (Env × TChangeRequest)) : Trace :=
  l.foldl (fun t x => ((tChangeFile x.1 x.2).run ⟨t, []⟩).2.self) t

theorem sameNodes_runAll (l : List (Env × TChangeRequest)) (t : Trace) :
    SameNodes t (t.runAll l) := by
  induction l generalizing t with
  | nil => exact ⟨rfl, rfl⟩
  | cons x l ih =>
    have hx := sameNodes_after x.1.toShard x.2 t
    have hl := ih (t.after x.1.toShard x.2)
    rw [runAll, List.foldl_cons, tChangeFile_self]
    exact ⟨hl.1.trans hx.1, hl.2.trans hx.2⟩

theorem Reachable.runAll {t : Trace} (h : Reachable t) (l : List (Env × TChangeRequest)) :
    Reachable (t.runAll l) := by
  induction l generalizing t with
  | nil => exact h
  | cons x l ih => exact ih (.change x.1 x.2 h)

/-- The node and the name under which a reader of the file map finds an entry. -/
def fileId (x : FilePBA) : Option String × String := (x.pba.head?.map PBA.host, x.fileName)

theorem fileId_of_mem_flat {t : Trace} (h : Sound t) {x : (String × String) × FilePBA}
    (hx : x ∈ t.rawFM.flat) : fileId x.2 = (some x.1.1, x.1.2) := by
  obtain ⟨⟨n, f⟩, y⟩ := x
  obtain ⟨hname, hhost⟩ := h.raw n f y (Dict.mem_flat_iff.1 hx)
  simp only [fileId, hname]
  rw [show y.pba.head?.map PBA.host = some n from hhost]

theorem map_fileId {t : Trace} (h : Sound t) :
    t.tGetFileMap.map fileId = t.rawFM.flat.map (fun x => (some x.1.1, x.1.2)) := by
  rw [tGetFileMap, List.map_map]
  exact List.map_congr_left (fun x hx => fileId_of_mem_flat h hx)

/-- `TGetFileMap` lists each file of each node once. -/
structure OnePerFile (t : Trace) : Prop where
  nodup : (t.tGetFileMap.map fileId).Nodup
  mem : ∀ id, id ∈ t.tGetFileMap.map fileId ↔
    ∃ n f, id = (some n, f) ∧ (t.fmDict.get2? n f).isSome

theorem Sound.onePerFile {t : Trace} (h : Sound t) : OnePerFile t := by
  have hflat : t.tGetFileMap.map fileId =
      (t.rawFM.flat.map Prod.fst).map (fun k => (some k.1, k.2)) := by
    rw [map_fileId h, List.map_map]
    rfl
  refine ⟨?_, fun id => ?_⟩
  · rw [hflat]
    refine (Dict.flat_nodup t.rawFM).map ?_
    rintro ⟨n, f⟩ ⟨m, g⟩ he
    simpa using he
  · rw [map_fileId h, List.mem_map]
    constructor
    · rintro ⟨⟨⟨n, f⟩, x⟩, hx, rfl⟩
      refine ⟨n, f, rfl, ?_⟩
      rw [h.files, Dict.mem_flat_iff.1 hx]
      rfl
    · rintro ⟨n, f, rfl, hs⟩
      rw [h.files] at hs
      obtain ⟨x, hx⟩ := Option.isSome_iff_exists.1 hs
      exact ⟨((n, f), x), Dict.mem_flat_iff.2 hx, rfl⟩

/-- **Every reachable object is sound**, and its file map has one entry for each file
of each node. -/
theorem reachable_sound {t : Trace} (h : Reachable t) : Sound t ∧ OnePerFile t :=
  ⟨h.sound, h.sound.onePerFile⟩

/-- One node with one file. -/
def oneFile : List (String × List FilePBA) :=
  [("node1", [{ pba := [.blockAt "node1" (.lit 0)], fileName := "/vol/a", type := "Distribute" }])]

/-- `toShard` finds the gfid of this file only. -/
def oneGfid : Env :=
  ⟨fun f _ => if f = "/vol/a" then some "5f" else none, fun _ _ => false⟩

def deleteOne : TChangeRequest :=
  ⟨"delete", { pba := [.blockAt "node1" (.lit 0)], fileName := "/vol/a" }⟩

def createOther : TChangeRequest :=
  ⟨"create", { pba := [.blockAt "node1" (.lit 8192)], fileName := "/vol/b", type := "Distribute" }⟩

/-- Deleting the file fails after both maps are changed, and the object is sound. -/
theorem oneFile_delete_sound : ∃ t, init oneGfid.toShard oneFile = .ok t ∧
    ((tChangeFile oneGfid deleteOne).run ⟨t, []⟩).1 = .ok .Fail ∧
    Sound ((tChangeFile oneGfid deleteOne).run ⟨t, []⟩).2.self := by
  have h : ∃ t, init oneGfid.toShard oneFile = .ok t ∧
      ((tChangeFile oneGfid deleteOne).run ⟨t, []⟩).1 = .ok .Fail := ⟨_, rfl, rfl⟩
  obtain ⟨t, ht, hr⟩ := h
  exact ⟨t, ht, hr, (reachable_sound (.change oneGfid deleteOne (.init ht))).1⟩

end Lba2Pba.Trace
