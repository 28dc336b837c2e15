import Lba2Pba.Manager.AgentSync
import Lba2Pba.Manager.Restart

/-!
# Trace, a Manager and an agent

The three services that a lookup depends on, one behind the other: Trace handles the
messages of the workers, tells the Manager, and the Manager tells the agent. Each keeps
a map of its own. `agent_serves_trace` is about the three together: at every point of a
run the agent answers what the file map of Trace says (`translate`).

The messages have to be in order (`Orderly`). Each of them is about a base file, comes to
the other Managers and has a path that the Manager does not take for another PVC than it
lies under (`Routed`): with the directories `vol/pvc10` and `vol/pvc1`, in this order, a
path of the first one is taken for the second. Those about the PVC of the agent create
distributed files only while nothing of their name is published, and delete what Trace
announces.
-/

namespace Lba2Pba.System

open Py Agent

/-- Where the Manager and the agent run, and the PVCs with their directories. -/
structure Site where
  addr : String
  ip : String
  menv : Manager.Env
  info : Dict String String

/-- The PVC of the agent. -/
def Site.pvc (site : Site) : String := site.menv.getPVC site.ip

structure Chain where
  trace : Trace
  manager : Manager
  agent : List FilePBA
deriving DecidableEq

/-- The services start one after the other. -/
def boot (site : Site) (toShard : String → String → Option String)
    (replies : List (String × List FilePBA)) : Except Err Chain := do
  let t ← Trace.init toShard replies
  let t := t.tRegister site.addr
  let m ← Manager.start (.ok site.info) t.tGetFileMap
  let s ← Manager.connect site.menv site.ip m
  return ⟨t, s.manager, s.agent⟩

/-- Trace handles a message, the Manager what it is told of it, and the agent the pushes
of the Manager. -/
def handle (site : Site) (c : Chain) (x : Trace.Env × TChangeRequest) : Chain :=
  let s := (Trace.toldTo site.addr x.1 x.2 c.trace).foldl (Manager.handle site.menv site.ip)
    ⟨c.manager, c.agent⟩
  ⟨((Trace.tChangeFile x.1 x.2).run ⟨c.trace, []⟩).2.self, s.manager, s.agent⟩

/-- What a file map of Trace says of a range of a file of the PVC. -/
def translate (info : Dict String String) (fileMap : List FilePBA) (pvc name : String)
    (startOffset length : Int) : Except Err (Option FilePBA) :=
  match fileMap.find? (fun f => Manager.target info f.fileName = some (pvc, name)) with
  | none => .ok none
  | some f => (get startOffset length f.pba).map
      (fun res => some { fileName := name, type := f.type, pba := res })

/-- The file with this path is the file `name` of the agent's PVC. -/
def Site.Own (site : Site) (path name : String) : Prop :=
  Manager.target site.info path = some (site.pvc, name)

instance (site : Site) (path name : String) : Decidable (site.Own path name) :=
  inferInstanceAs (Decidable (_ = _))

/-- The Manager takes a file of the agent's PVC for one, and no other file. -/
inductive Routed (site : Site) (path : String) : Prop
  | own (subDir : String) (hpvc : Manager.pvcsOf site.info path = [(site.pvc, subDir)])
      (hpick : Manager.Picked site.info path)
  | foreign (hpick : Manager.pvcOf site.info path ≠ site.pvc) (hown : ∀ name, ¬ site.Own path name)

/-- The published files of the PVC are distributed, one for each name. -/
structure OneEach (site : Site) (raw : Dict String (Dict String FilePBA)) : Prop where
  alone : ∀ {m g x m' g' x' name}, raw.get2? m g = some x → raw.get2? m' g' = some x' →
    site.Own g name → site.Own g' name → m = m' ∧ g = g'
  distributed : ∀ {m g x name}, raw.get2? m g = some x → site.Own g name → x.type = "Distribute"

/-- A message about a base file that comes to all other Managers. Of the PVC it creates
distributed files only, of which nothing is published, and it deletes what Trace
announces. -/
structure Orderly (site : Site) (t : Trace) (x : Trace.Env × TChangeRequest) : Prop where
  base : Trace.isShard x.2.filePba.fileName = false
  delivered : ∀ n w, w.addr ≠ site.addr → x.1.raises n w = false
  routed : Routed site x.2.filePba.fileName
  distributed : ∀ {name}, site.Own x.2.filePba.fileName name → x.2.filePba.type = "Distribute"
  create : ∀ {name}, x.2.action = "create" → site.Own x.2.filePba.fileName name →
    ∀ m g x, t.rawFM.get2? m g = some x → ¬ site.Own g name
  delete : ∀ {name}, x.2.action = "delete" → site.Own x.2.filePba.fileName name →
    x.2.filePba.fileName ∉ t.shardDict.values

/-! ## What Trace does with a message -/

/-- What a message does to the published files, and what the Manager is told of it. -/
inductive Effect (t t' : Trace) (r : TChangeRequest) (told : List FMPushPbaRequest) : Prop
  | created (node : String) (f : FilePBA) (ha : r.action = "create") (hn : node ∈ t.rawFM.keys)
      (hname : f.fileName = r.filePba.fileName) (htype : f.type = r.filePba.type)
      (hraw : t'.rawFM = t.rawFM.set2 node f.fileName f) (htold : told = [⟨"create", f⟩])
  | removed (node : String) (ha : r.action = "delete")
      (x : FilePBA) (hget : t.rawFM.get2? node r.filePba.fileName = some x)
      (hraw : t'.rawFM = t.rawFM.erase2 node r.filePba.fileName)
      (htold : told = [⟨"delete", { fileName := r.filePba.fileName, type := r.filePba.type }⟩] ∨
        told = [] ∧ r.filePba.fileName ∈ t.shardDict.values)
  | unchanged (hraw : t'.rawFM = t.rawFM) (htold : ∀ q ∈ told, q.action = "modify")

section Effect

variable {addr : String} {env : Trace.Env} {r : TChangeRequest} {t : Trace} {first : PBA}
  (hs : t.Sound) (hb : Trace.isShard r.filePba.fileName = false)
  (hd : ∀ n w, w.addr ≠ addr → env.raises n w = false) (hone : t.agent.count addr = 1)

include hs hb hd hone

theorem effect_create (hp : r.filePba.pba.head? = some first) (ha : r.action = "create") :
    Effect t (t.after env.toShard r) r (Trace.toldTo addr env r t) := by
  by_cases hk : first.host ∈ t.fmDict.keys
  · refine .created first.host
      { pba := r.filePba.pba, fileName := r.filePba.fileName, type := r.filePba.type } ha
      (hs.nodes ▸ hk) rfl rfl ?_ (Trace.toldTo_create hp hb hs hd hone ha hk)
    rw [Trace.after_createBase env.toShard t hp ha hb, Trace.rawFM_putBase _ _ hk]
  · refine .unchanged ?_ ?_
    · rw [Trace.after_of_not_mem hp hb hk]
    · rw [Trace.toldTo_create_unknown hp hb ha hk]
      exact fun q hq => absurd hq List.not_mem_nil

theorem effect_modify (hp : r.filePba.pba.head? = some first) (ha : r.action = "modify") :
    Effect t (t.after env.toShard r) r (Trace.toldTo addr env r t) := by
  refine .unchanged ?_ (fun q hq => ?_)
  · rw [Trace.after_modifyBase env.toShard t hp ha hb, Trace.rawFM_putPba]
  · rcases Trace.toldTo_modify hp hb hs hd hone ha with htold | ⟨y, htold⟩
    · rw [htold] at hq
      cases hq
    · rw [htold, List.mem_singleton] at hq
      rw [hq]

theorem effect_delete (hp : r.filePba.pba.head? = some first) (ha : r.action = "delete") :
    Effect t (t.after env.toShard r) r (Trace.toldTo addr env r t) := by
  have hafter := Trace.after_deleteBase env.toShard t hp ha hb
  cases hget : t.rawFM.get2? first.host r.filePba.fileName with
  | none =>
    have hnone := hs.get2?_eq_none_iff.2 hget
    refine .unchanged ?_ ?_
    · rw [hafter, Trace.dropBase, hnone]
    · rw [Trace.toldTo_delete_absent hp hb ha hnone]
      exact fun q hq => absurd hq List.not_mem_nil
  | some raw =>
    have hsome : t.rawFM.get2? first.host r.filePba.fileName ≠ none := by
      rw [hget]
      exact Option.some_ne_none raw
    obtain ⟨entry, he⟩ := hs.stored hget
    refine .removed first.host ha raw hget (hafter ▸ Trace.rawFM_dropBase he hget) ?_
    by_cases hv : r.filePba.fileName ∈ t.shardDict.values
    · -- the loop over `shardDict` raises before the managers are told
      have hrun := Trace.deleteBase_known env he hget hv
      have hchange : ((Trace.change env r).run ⟨t, []⟩).2 =
          ⟨Trace.dropKey r.filePba.fileName (t.eraseFile first.host r.filePba.fileName), []⟩ := by
        rw [Trace.change_deleteBase env _ hp ha hb, Exec.run_bind_error hrun]
      exact .inr ⟨Trace.toldTo_of_change hchange rfl, hv⟩
    · exact .inl (Trace.toldTo_delete hp hb hs hd hone ha hsome hv)

theorem effect_after : Effect t (t.after env.toShard r) r (Trace.toldTo addr env r t) := by
  cases hp : r.filePba.pba.head? with
  | none =>
    refine .unchanged ?_ ?_
    · simp only [Trace.after, hp]
    · rw [Trace.toldTo_of_fail (.inl hp)]
      exact fun q hq => absurd hq List.not_mem_nil
  | some first =>
    by_cases hc : r.action = "create"
    · exact effect_create hs hb hd hone hp hc
    by_cases hm : r.action = "modify"
    · exact effect_modify hs hb hd hone hp hm
    by_cases hx : r.action = "delete"
    · exact effect_delete hs hb hd hone hp hx
    refine .unchanged ?_ ?_
    · simp only [Trace.after, hp, if_neg hc, if_neg hm, if_neg hx]
    · rw [Trace.toldTo_of_fail (.inr ⟨hc, hm, hx⟩)]
      exact fun q hq => absurd hq List.not_mem_nil

end Effect

/-! ## The published files and the entries of the Manager -/

/-- The entries are the published files of the PVC, by their names. -/
structure Projects (site : Site) (raw : Dict String (Dict String FilePBA))
    (entry : String → Option FilePBA) : Prop extends OneEach site raw where
  entries : ∀ name e, entry name = some e ↔
    ∃ m g x, raw.get2? m g = some x ∧ site.Own g name ∧ e = { x with fileName := name }

section Projects

variable {site : Site} {raw raw' : Dict String (Dict String FilePBA)}
  {entry entry' : String → Option FilePBA} {node path name : String} {f : FilePBA}

/-- Only the files of the PVC matter. -/
theorem Projects.congr (h : Projects site raw entry)
    (hraw : ∀ m g name, site.Own g name → raw'.get2? m g = raw.get2? m g)
    (hentry : ∀ name, entry' name = entry name) : Projects site raw' entry' := by
  refine ⟨⟨fun hg hg' ho ho' => ?_, fun hg ho => ?_⟩, fun name e => ?_⟩
  · rw [hraw _ _ _ ho] at hg
    rw [hraw _ _ _ ho'] at hg'
    exact h.alone hg hg' ho ho'
  · rw [hraw _ _ _ ho] at hg
    exact h.distributed hg ho
  · rw [hentry, h.entries]
    constructor
    · rintro ⟨m, g, x, hg, ho, he⟩
      exact ⟨m, g, x, (hraw _ _ _ ho).trans hg, ho, he⟩
    · rintro ⟨m, g, x, hg, ho, he⟩
      exact ⟨m, g, x, (hraw _ _ _ ho).symm.trans hg, ho, he⟩

theorem Site.Own.name_eq {name' : String} (h : site.Own path name) (h' : site.Own path name') :
    name = name' := by
  have hpair := Option.some.inj (h.symm.trans h')
  exact (Prod.mk.inj hpair).2

/-- A new file of the PVC. -/
theorem Projects.create (h : Projects site raw entry) (hn : node ∈ raw.keys)
    (hown : site.Own f.fileName name) (htype : f.type = "Distribute")
    (hnew : ∀ m g x, raw.get2? m g = some x → ¬ site.Own g name)
    (hself : entry' name = some { f with fileName := name })
    (hother : ∀ k, k ≠ name → entry' k = entry k) :
    Projects site (raw.set2 node f.fileName f) entry' := by
  refine ⟨⟨fun hg hg' ho ho' => ?_, fun hg ho => ?_⟩, fun k e => ?_⟩
  · rcases Dict.get2?_set2_cases hg with ⟨rfl, rfl, -⟩ | hg
    · rcases Dict.get2?_set2_cases hg' with ⟨rfl, rfl, -⟩ | hg'
      · exact ⟨rfl, rfl⟩
      · cases hown.name_eq ho
        exact absurd ho' (hnew _ _ _ hg')
    · rcases Dict.get2?_set2_cases hg' with ⟨rfl, rfl, -⟩ | hg'
      · cases hown.name_eq ho'
        exact absurd ho (hnew _ _ _ hg)
      · exact h.alone hg hg' ho ho'
  · rcases Dict.get2?_set2_cases hg with ⟨-, -, rfl⟩ | hg
    · exact htype
    · exact h.distributed hg ho
  · by_cases hk : k = name
    · subst hk
      rw [hself, Option.some.injEq]
      constructor
      · rintro rfl
        refine ⟨node, f.fileName, f, ?_, hown, rfl⟩
        rw [Dict.get2?_set2 hn, if_pos ⟨rfl, rfl⟩]
      · rintro ⟨m, g, x, hg, ho, rfl⟩
        rcases Dict.get2?_set2_cases hg with ⟨-, -, rfl⟩ | hg
        · rfl
        · exact absurd ho (hnew _ _ _ hg)
    · rw [hother k hk, h.entries]
      constructor
      · rintro ⟨m, g, x, hg, ho, he⟩
        refine ⟨m, g, x, ?_, ho, he⟩
        rw [Dict.get2?_set2 hn, if_neg]
        · exact hg
        · rintro ⟨-, rfl⟩
          exact hk (ho.name_eq hown)
      · rintro ⟨m, g, x, hg, ho, he⟩
        rcases Dict.get2?_set2_cases hg with ⟨-, rfl, -⟩ | hg
        · exact absurd (ho.name_eq hown) hk
        · exact ⟨m, g, x, hg, ho, he⟩

/-- A removed file of the PVC. -/
theorem Projects.delete (h : Projects site raw entry) (hget : raw.get2? node path = some f)
    (hown : site.Own path name) (hself : entry' name = none)
    (hother : ∀ k, k ≠ name → entry' k = entry k) :
    Projects site (raw.erase2 node path) entry' := by
  refine ⟨⟨fun hg hg' ho ho' => ?_, fun hg ho => ?_⟩, fun k e => ?_⟩
  · exact h.alone (Dict.get2?_of_erase2 hg) (Dict.get2?_of_erase2 hg') ho ho'
  · exact h.distributed (Dict.get2?_of_erase2 hg) ho
  · by_cases hk : k = name
    · subst hk
      rw [hself]
      refine iff_of_false (fun hc => Option.some_ne_none e hc.symm) ?_
      rintro ⟨m, g, x, hg, ho, -⟩
      -- the file that is left would be the removed one
      obtain ⟨rfl, rfl⟩ := h.alone hget (Dict.get2?_of_erase2 hg) hown ho
      rw [Dict.get2?_erase2, if_pos ⟨rfl, rfl⟩] at hg
      cases hg
    · rw [hother k hk, h.entries]
      constructor
      · rintro ⟨m, g, x, hg, ho, he⟩
        refine ⟨m, g, x, ?_, ho, he⟩
        rw [Dict.get2?_erase2, if_neg]
        · exact hg
        · rintro ⟨-, rfl⟩
          exact hk (ho.name_eq hown)
      · rintro ⟨m, g, x, hg, ho, he⟩
        exact ⟨m, g, x, Dict.get2?_of_erase2 hg, ho, he⟩

end Projects

/-! ## What the Manager does with a message -/

section Manager

open Manager

variable {site : Site} {m : Manager} {q : FMPushPbaRequest}

/-- A file that is not routed to the PVC leaves its entries alone. -/
theorem entry_after_foreign (hv : m.Valid) (hu : m.Unshared) {pvc : String}
    (hplace : ∀ subDir, m.place q.filePba.fileName ≠ some (pvc, subDir)) (name : String) :
    (m.after q).entry pvc name = m.entry pvc name := by
  cases hp : m.place q.filePba.fileName with
  | none => simp only [Manager.after, hp]
  | some x =>
    obtain ⟨p, subDir⟩ := x
    have hne : p ≠ pvc := by
      rintro rfl
      exact hplace subDir hp
    cases hn : relPath subDir q.filePba.fileName with
    | none =>
      simp only [Manager.after, hp, created, deleted, hn]
      split
      · exact entry_keepRaw hv
      · split <;> rfl
    | some n =>
      simp only [Manager.after, hp]
      split
      · exact entry_created_of_ne hv hn (fun hc => hne hc.1)
          (fun _ ref h1 h2 => hne (hu.eq h1 h2).1)
      · split
        · by_cases hk : p ∈ m.FM.keys
          · rw [entry_deleted hk hn, if_neg (fun hc => hne hc.1)]
          · rw [deleted_of_not_mem hk]
        · rfl

/-- A message that is not for the PVC keeps its agents together with the Manager. -/
theorem keeps_foreign {pvc : String} (hu : m.Unshared)
    (hplace : ∀ subDir, m.place q.filePba.fileName ≠ some (pvc, subDir)) : Keeps pvc m q :=
  ⟨fun _ hp => absurd hp (hplace _), fun _ _ _ _ hne h1 h2 => hne (hu.eq h1 h2).1,
    fun _ hp => absurd hp (hplace _)⟩

theorem place_foreign (hm : m.pvcInfo = .ok site.info) {path : String}
    (hpick : pvcOf site.info path ≠ site.pvc) (subDir : String) :
    m.place path ≠ some (site.pvc, subDir) := by
  intro hp
  simp only [place, hm] at hp
  split at hp
  · cases hp
  · obtain ⟨d, -, hd⟩ := Option.map_eq_some_iff.1 hp
    exact hpick (Prod.mk.inj hd).1

end Manager

/-! ## The invariant -/

/-- The Manager knows the PVCs, no two of its entries are one object, and the agent has
copies of its entries. -/
structure Attached (site : Site) (s : Manager.Pair) : Prop where
  pvcInfo : s.manager.pvcInfo = .ok site.info
  unshared : s.manager.Unshared
  synced : Manager.Synced site.pvc (Manager.agentAddr site.ip) s

structure Serves (site : Site) (c : Chain) : Prop where
  sound : c.trace.Sound
  once : c.trace.agent.count site.addr = 1
  attached : Attached site ⟨c.manager, c.agent⟩
  projects : Projects site c.trace.rawFM (c.manager.entry site.pvc)

section Step

variable {site : Site} (hr : ∀ n w, site.menv.raises n w = false) {c : Chain} {s : Manager.Pair}
  {q : FMPushPbaRequest} {x : Trace.Env × TChangeRequest}

include hr

theorem Attached.handle (h : Attached site s) (hk : Manager.Keeps site.pvc s.manager q) :
    Attached site (Manager.handle site.menv site.ip s q) := by
  rw [Manager.handle_eq hr]
  exact ⟨(Manager.frozen_after s.manager q).pvcInfo.trans h.pvcInfo,
    h.unshared.after h.synced.valid q, h.synced.after hk⟩

theorem manager_handle : (Manager.handle site.menv site.ip s q).manager = s.manager.after q := by
  rw [Manager.handle_eq hr]

theorem Attached.modify {l : List FMPushPbaRequest} (h : Attached site s)
    (hl : ∀ q ∈ l, q.action = "modify") :
    Attached site (l.foldl (Manager.handle site.menv site.ip) s) ∧
      (l.foldl (Manager.handle site.menv site.ip) s).manager = s.manager := by
  induction l generalizing s with
  | nil => exact ⟨h, rfl⟩
  | cons q l ih =>
    obtain ⟨action, f⟩ := q
    cases hl ⟨action, f⟩ List.mem_cons_self
    have hne : ("modify" : String) ≠ "create" ∧ ("modify" : String) ≠ "delete" := by decide
    have hk : Manager.Keeps site.pvc s.manager ⟨"modify", f⟩ :=
      ⟨fun ha => absurd ha hne.1, fun ha => absurd ha hne.1, fun ha => absurd ha hne.2⟩
    obtain ⟨hatt, hman⟩ := ih (h.handle hr hk) (fun q hq => hl q (List.mem_cons_of_mem _ hq))
    refine ⟨hatt, hman.trans ?_⟩
    rw [manager_handle hr, Manager.after_modify]

/-- A file of another PVC. -/
theorem Attached.foreign (h : Attached site s)
    (hpick : Manager.pvcOf site.info q.filePba.fileName ≠ site.pvc) :
    Attached site (Manager.handle site.menv site.ip s q) ∧
      ∀ name, (Manager.handle site.menv site.ip s q).manager.entry site.pvc name =
        s.manager.entry site.pvc name := by
  have hplace := place_foreign h.pvcInfo hpick
  refine ⟨h.handle hr (keeps_foreign h.unshared hplace), fun name => ?_⟩
  rw [manager_handle hr]
  exact entry_after_foreign h.synced.valid h.unshared hplace name

section Own

variable {f : FilePBA} {subDir n : String} (h : Attached site s)
  (hplace : s.manager.place f.fileName = some (site.pvc, subDir))
  (hrel : Manager.relPath subDir f.fileName = some n) (htype : f.type = "Distribute")

include h hplace hrel htype

/-- A file of the PVC that has no entry. -/
theorem Attached.create (hnone : s.manager.entry site.pvc n = none) :
    Attached site (Manager.handle site.menv site.ip s ⟨"create", f⟩) ∧
      (Manager.handle site.menv site.ip s ⟨"create", f⟩).manager.entry site.pvc n =
        some { f with fileName := n } ∧
      ∀ k, k ≠ n → (Manager.handle site.menv site.ip s ⟨"create", f⟩).manager.entry site.pvc k =
        s.manager.entry site.pvc k := by
  have hrep : Str.isIn "Replicate" f.type ≠ true := by
    rw [htype]
    decide
  have hk : Manager.Keeps site.pvc s.manager ⟨"create", f⟩ := by
    refine ⟨fun _ hp hn => ?_, fun _ hc => absurd hc hrep, fun _ _ _ _ hc => absurd hc hrep⟩
    cases hplace.symm.trans hp
    cases hrel.symm.trans hn
    exact hnone
  refine ⟨h.handle hr hk, ?_, fun k hne => ?_⟩
  · rw [manager_handle hr, Manager.after_create hplace,
      Manager.entry_created h.synced.valid h.synced.known hrel, Manager.merge, if_pos htype]
  · rw [manager_handle hr, Manager.after_create hplace]
    exact Manager.entry_created_of_ne h.synced.valid hrel (fun hc => hne hc.2.symm)
      (fun hc => absurd hc hrep)

theorem Attached.delete :
    Attached site (Manager.handle site.menv site.ip s ⟨"delete", f⟩) ∧
      (Manager.handle site.menv site.ip s ⟨"delete", f⟩).manager.entry site.pvc n = none ∧
      ∀ k, k ≠ n → (Manager.handle site.menv site.ip s ⟨"delete", f⟩).manager.entry site.pvc k =
        s.manager.entry site.pvc k := by
  have hrep : Str.isIn "Replicate" f.type ≠ true := by
    rw [htype]
    decide
  have hne : ("delete" : String) ≠ "create" := by decide
  have hk : Manager.Keeps site.pvc s.manager ⟨"delete", f⟩ :=
    ⟨fun hc => absurd hc hne, fun hc => absurd hc hne, fun _ _ _ _ hc => absurd hc hrep⟩
  refine ⟨h.handle hr hk, ?_, fun k hne => ?_⟩
  · rw [manager_handle hr, Manager.after_delete hplace,
      Manager.entry_deleted h.synced.known hrel, if_pos ⟨rfl, rfl⟩]
  · rw [manager_handle hr, Manager.after_delete hplace,
      Manager.entry_deleted h.synced.known hrel, if_neg (fun hc => hne hc.2.symm)]

end Own

/-- What is left to show of a step, from what Trace does with the message. -/
theorem Serves.effect {t' : Trace} {told : List FMPushPbaRequest} (h : Serves site c)
    (hx : Orderly site c.trace x) (heff : Effect c.trace t' x.2 told) :
    Attached site (told.foldl (Manager.handle site.menv site.ip) ⟨c.manager, c.agent⟩) ∧
      Projects site t'.rawFM ((told.foldl (Manager.handle site.menv site.ip)
        ⟨c.manager, c.agent⟩).manager.entry site.pvc) := by
  cases heff with
  | unchanged hraw htold =>
    obtain ⟨hatt, hman⟩ := h.attached.modify hr htold
    rw [hraw, hman]
    exact ⟨hatt, h.projects⟩
  | created node f ha hn hname htype hraw htold =>
    subst htold
    simp only [List.foldl_cons, List.foldl_nil]
    rw [hraw]
    cases hx.routed with
    | foreign hpick hown =>
      obtain ⟨hatt, hentry⟩ := h.attached.foreign hr (q := ⟨"create", f⟩) (hname ▸ hpick)
      refine ⟨hatt, h.projects.congr (fun m g name ho => ?_) hentry⟩
      rw [Dict.get2?_set2 hn, if_neg]
      rintro ⟨-, rfl⟩
      exact hown name (hname ▸ ho)
    | own subDir hpvc hpick =>
      obtain ⟨n, hrel, hown⟩ := Manager.exists_target hpvc
      have hplace := Manager.place_of_picked h.attached.pvcInfo hpick hpvc
      have hdist := htype.trans (hx.distributed hown)
      have hnew := hx.create ha hown
      rw [← hname] at hplace hrel hown
      have hnone : c.manager.entry site.pvc n = none := by
        rw [Option.eq_none_iff_forall_ne_some]
        intro e he
        obtain ⟨m, g, y, hg, ho, -⟩ := (h.projects.entries n e).1 he
        exact hnew m g y hg ho
      obtain ⟨hatt, hself, hother⟩ := h.attached.create hr hplace hrel hdist hnone
      exact ⟨hatt, h.projects.create hn hown hdist hnew hself hother⟩
  | removed node ha y hget hraw htold =>
    rw [hraw]
    cases hx.routed with
    | foreign hpick hown =>
      have hsame : ∀ m g name, site.Own g name →
          (c.trace.rawFM.erase2 node x.2.filePba.fileName).get2? m g =
            c.trace.rawFM.get2? m g := by
        intro m g name ho
        rw [Dict.get2?_erase2, if_neg]
        rintro ⟨-, rfl⟩
        exact hown name ho
      rcases htold with rfl | ⟨rfl, -⟩
      · obtain ⟨hatt, hentry⟩ := h.attached.foreign hr (q := ⟨"delete",
          { fileName := x.2.filePba.fileName, type := x.2.filePba.type }⟩) hpick
        exact ⟨hatt, h.projects.congr hsame hentry⟩
      · exact ⟨h.attached, h.projects.congr hsame (fun _ => rfl)⟩
    | own subDir hpvc hpick =>
      obtain ⟨n, hrel, hown⟩ := Manager.exists_target hpvc
      have hplace := Manager.place_of_picked h.attached.pvcInfo hpick hpvc
      rcases htold with rfl | ⟨-, hv⟩
      · obtain ⟨hatt, hself, hother⟩ := h.attached.delete hr
          (f := { fileName := x.2.filePba.fileName, type := x.2.filePba.type }) hplace hrel
          (hx.distributed hown)
        exact ⟨hatt, h.projects.delete hget hown hself hother⟩
      · exact absurd hv (hx.delete ha hown)

/-- One message. -/
theorem Serves.handle (h : Serves site c) (hx : Orderly site c.trace x) :
    Serves site (handle site c x) := by
  have heff := effect_after (r := x.2) h.sound hx.base hx.delivered h.once
  obtain ⟨hatt, hproj⟩ := h.effect hr hx heff
  simp only [System.handle, Trace.tChangeFile_self]
  refine ⟨h.sound.after _ _, ?_, hatt, hproj⟩
  rw [Trace.agent_after]
  exact h.once

end Step

/-! ## The start -/

section Start

variable {site : Site} {raw : Dict String (Dict String FilePBA)}

section Fresh

variable (hname : ∀ m g x, raw.get2? m g = some x → x.fileName = g) (h : OneEach site raw)

include hname h

/-- A name has one message in the file map. -/
theorem OneEach.messagesOf {name m g : String} {x : FilePBA} (hget : raw.get2? m g = some x)
    (hown : site.Own g name) :
    Manager.messagesOf site.info (Manager.listed raw) site.pvc name =
      [{ x with fileName := name }] := by
  have honly : ∀ m' g', raw.get2? m' g' ≠ none →
      Manager.target site.info g' = Manager.target site.info g → m' = m ∧ g' = g := by
    intro m' g' hg' ht
    obtain ⟨x', hx'⟩ := Option.ne_none_iff_exists'.1 hg'
    exact h.alone hx' hget (ht.trans hown) hown
  have hrest := Manager.messagesOf_erase2_self hname hown honly
  obtain ⟨L₁, L₂, hflat, herase⟩ := Dict.flat_erase2 hget
  rw [Manager.listed, herase, List.map_append, Manager.messagesOf_append,
    List.append_eq_nil_iff] at hrest
  have htarget : Manager.target site.info x.fileName = some (site.pvc, name) := by
    rw [hname m g x hget]
    exact hown
  rw [Manager.listed, hflat, List.map_append, List.map_cons, Manager.messagesOf_append,
    Manager.messagesOf_cons, if_pos htarget, hrest.1, hrest.2, List.nil_append]

theorem OneEach.projects :
    Projects site raw (Manager.freshEntry site.info (Manager.listed raw) site.pvc) := by
  have hentry : ∀ {m g x name}, raw.get2? m g = some x → site.Own g name →
      Manager.freshEntry site.info (Manager.listed raw) site.pvc name =
        some { x with fileName := name } := by
    intro m g x name hget hown
    rw [Manager.freshEntry, h.messagesOf hname hget hown, List.foldl_cons, List.foldl_nil,
      Manager.merge, if_pos (h.distributed hget hown)]
  refine ⟨h, fun name e => ⟨fun he => ?_, ?_⟩⟩
  · by_cases hmem : ∃ x ∈ Manager.listed raw, site.Own x.fileName name
    · obtain ⟨x, hx, hown⟩ := hmem
      obtain ⟨m, g, hget⟩ := Manager.mem_listed.1 hx
      rw [hname m g x hget] at hown
      rw [hentry hget hown] at he
      exact ⟨m, g, x, hget, hown, (Option.some.inj he).symm⟩
    · have hnil : Manager.messagesOf site.info (Manager.listed raw) site.pvc name = [] :=
        Manager.messagesOf_eq_nil (fun x hx ht => hmem ⟨x, hx, ht⟩)
      rw [Manager.freshEntry, hnil] at he
      cases he
  · rintro ⟨m, g, x, hget, hown, rfl⟩
    exact hentry hget hown

end Fresh

/-- A Manager can start on the file map of Trace if no path lies under two PVCs. -/
theorem start_published {t : Trace} {info : Dict String String} (hs : t.Sound)
    (hpaths : ∀ m g x, t.rawFM.get2? m g = some x → Manager.Unambiguous info g) :
    ∃ m, Manager.start (.ok info) t.tGetFileMap = .ok m ∧
      Manager.Started info (Manager.listed t.rawFM) m := by
  refine Manager.start_ok (fun f hf => ?_) (fun f hf _ hnil => ?_)
  · obtain ⟨n, g, hget⟩ := Manager.mem_listed.1 hf
    rw [(hs.raw n g f hget).1]
    exact hpaths n g f hget
  · obtain ⟨n, g, hget⟩ := Manager.mem_listed.1 hf
    obtain ⟨first, hfirst, -⟩ := (hs.raw n g f hget).2.head?
    rw [hnil] at hfirst
    cases hfirst

/-- After the start, if each name of the PVC is published once. -/
theorem serves_boot {toShard : String → String → Option String}
    {replies : List (String × List FilePBA)} {c : Chain} (hboot : boot site toShard replies = .ok c)
    (hpaths : ∀ m g x, c.trace.rawFM.get2? m g = some x → Manager.Unambiguous site.info g)
    (hone : OneEach site c.trace.rawFM) : Serves site c := by
  obtain ⟨t, hinit, h⟩ := bind_eq_ok.1 hboot
  obtain ⟨m, hstart, h⟩ := bind_eq_ok.1 h
  obtain ⟨s, hconn, h⟩ := bind_eq_ok.1 h
  cases h
  have hs : (t.tRegister site.addr).Sound := (Trace.Reachable.register _ (.init hinit)).sound
  have hname := fun m g x hget => (hs.raw m g x hget).1
  obtain ⟨m', hm', hst⟩ := start_published hs hpaths
  rw [hstart] at hm'
  cases hm'
  have hproj : Projects site t.rawFM (m.entry site.pvc) :=
    (hone.projects hname).congr (fun _ _ _ _ => rfl) (fun name => hst.entries site.pvc name)
  have hsync : Manager.Synced site.pvc (Manager.agentAddr site.ip) s := by
    refine Manager.connect_synced hst.valid (fun name e he => ?_) (fun p _ => ?_) hconn
    · obtain ⟨_, _, x, -, -, rfl⟩ := (hproj.entries name e).1 he
      rfl
    · rw [Manager.agents, Manager.start_QAs hstart]
      exact List.not_mem_nil
  obtain ⟨files, -, rfl⟩ := Manager.connect_eq hconn
  refine ⟨hs, ?_, ⟨hst.pvcInfo, ⟨hst.unshared.eq⟩, hsync⟩, hproj⟩
  show (t.agent ++ [site.addr]).count site.addr = 1
  rw [Trace.init_agent hinit]
  simp

end Start

/-! ## Lookups -/

section Lookup

variable {site : Site} {c : Chain} {name : String} (h : Serves site c)

include h

/-- A published file of the PVC. -/
theorem Serves.getPba_some {m g : String} {x : FilePBA} (hget : c.trace.rawFM.get2? m g = some x)
    (hown : site.Own g name) (o n : Int) :
    getPba name o n c.agent = (get o n x.pba).map
      (fun res => some { fileName := name, type := x.type, pba := res }) := by
  have htype := h.projects.distributed hget hown
  have hentry := (h.projects.entries name _).2 ⟨m, g, x, hget, hown, rfl⟩
  have hfind : findEntry c.agent name = some { x with fileName := name } :=
    (h.attached.synced.agree name).trans hentry
  have hrep : Str.isIn "Replicate" x.type ≠ true := by
    rw [htype]
    decide
  rw [Agent.getPba_eq name o n c.agent, hfind]
  · simp only [answer, if_neg hrep]
    cases get o n x.pba <;> rfl
  · intro f hf
    cases hfind.symm.trans hf
    exact .inr htype

theorem Serves.getPba_none
    (hno : ∀ m g x, c.trace.rawFM.get2? m g = some x → ¬ site.Own g name) (o n : Int) :
    getPba name o n c.agent = .ok none := by
  have hentry : c.manager.entry site.pvc name = none := by
    rw [Option.eq_none_iff_forall_ne_some]
    intro e he
    obtain ⟨m, g, x, hget, hown, -⟩ := (h.projects.entries name e).1 he
    exact hno m g x hget hown
  have hfind : findEntry c.agent name = none := (h.attached.synced.agree name).trans hentry
  rw [Agent.getPba_eq name o n c.agent, hfind]
  intro f hf
  cases hfind.symm.trans hf

/-- The agent answers from the published file. -/
theorem Serves.getPba_eq (o n : Int) :
    getPba name o n c.agent = translate site.info c.trace.tGetFileMap site.pvc name o n := by
  unfold translate
  cases hx : c.trace.tGetFileMap.find?
      (fun f => Manager.target site.info f.fileName = some (site.pvc, name)) with
  | none =>
    refine h.getPba_none (fun m g x hget hown => ?_) o n
    have hne := List.find?_eq_none.1 hx x (Manager.mem_listed.2 ⟨m, g, hget⟩)
    rw [(h.sound.raw m g x hget).1, decide_eq_true_iff] at hne
    exact hne hown
  | some x =>
    have hown := List.find?_some hx
    rw [decide_eq_true_iff] at hown
    obtain ⟨m, g, hget⟩ := Manager.mem_listed.1 (List.mem_of_find?_eq_some hx)
    rw [(h.sound.raw m g x hget).1] at hown
    exact h.getPba_some hget hown o n

end Lookup

def oneSite : Site := ⟨"m:23831", "10.0.0.1", Manager.quiet, Manager.onePvc⟩

/-- The services after a start on two nodes without files. -/
def noneServed : Chain :=
  ⟨Manager.twoNodes.tRegister "m:23831", Manager.noFiles.addAgent "pvc1" "10.0.0.1:23832", []⟩

theorem noneServed_boot :
    boot oneSite Manager.calm.toShard [("node1", []), ("node2", [])] = .ok noneServed := by
  decide

/-- A message about the distributed file `table`. -/
def tableBy (action node : String) : Trace.Env × TChangeRequest :=
  (Manager.calm, ⟨action, { pba := [.blockAt node (.lit 0)], fileName := "/brick/vol/pvc1/table",
                            type := "Distribute" }⟩)

theorem orderly_tableBy {t : Trace} {action node : String}
    (hnew : action = "create" → Manager.listed t.rawFM = [])
    (hv : action = "delete" → "/brick/vol/pvc1/table" ∉ t.shardDict.values) :
    Orderly oneSite t (tableBy action node) := by
  have hbase : Trace.isShard "/brick/vol/pvc1/table" = false := by decide
  have hpick : Manager.Picked Manager.onePvc "/brick/vol/pvc1/table" := by
    refine ⟨by decide, fun x hx => ?_⟩
    cases Manager.pvcsOf_table.symm.trans hx
    decide
  refine ⟨hbase, fun _ _ _ => rfl, .own "vol/pvc1" Manager.pvcsOf_table hpick, fun _ => rfl,
    fun ha _ m g x hget => ?_, fun ha _ => hv ha⟩
  have hx := Manager.mem_listed.2 ⟨m, g, hget⟩
  rw [hnew ha] at hx
  cases hx

end Lba2Pba.System
