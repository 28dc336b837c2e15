import Lba2Pba.Manager.Fresh
import Lba2Pba.Trace.Relay
import Lba2Pba.Agent.FileMap

/-!
# A running Manager and a new one

Trace keeps the files of each node apart; a Manager merges the files of all nodes
that have one relative path. A Manager that has been registered all the time got
there message by message, a new one from the file map of Trace. The two have the
same entries, up to the order of replicas, as long as each message has the effect on
the merged entry that a rebuild has (`Rebuilds`).
-/

namespace Lba2Pba.Manager

open Py

/-! ## Entries up to the order of their replicas -/

structure SameFile (e e' : FilePBA) : Prop where
  pba : e.pba = e'.pba
  rPba : e.rPba.Perm e'.rPba
  fileName : e.fileName = e'.fileName
  volName : e.volName = e'.volName
  type : e.type = e'.type

def SameEntry : Option FilePBA → Option FilePBA → Prop := Option.Rel SameFile

theorem SameEntry.refl : ∀ e : Option FilePBA, SameEntry e e
  | none => .none
  | some _ => .some ⟨rfl, .refl _, rfl, rfl, rfl⟩

theorem SameEntry.trans {e₁ e₂ e₃ : Option FilePBA} (h : SameEntry e₁ e₂) (h' : SameEntry e₂ e₃) :
    SameEntry e₁ e₃ := by
  cases h with
  | none => exact h'
  | some h =>
    cases h' with
    | some h' =>
      exact .some ⟨h.pba.trans h'.pba, h.rPba.trans h'.rPba, h.fileName.trans h'.fileName,
        h.volName.trans h'.volName, h.type.trans h'.type⟩

theorem merge_congr {e e' : Option FilePBA} (h : SameEntry e e') (f : FilePBA) :
    SameEntry (merge e f) (merge e' f) := by
  unfold merge
  split
  · exact .refl _
  · split
    · split
      · exact h
      · cases h with
        | none => exact .refl _
        | some h =>
          exact .some ⟨h.pba, h.rPba.append_right _, h.fileName, h.volName, h.type⟩
    · exact h

/-- Replicas of one file: the messages of all nodes for it. -/
structure Replica (n type : String) (f : FilePBA) : Prop where
  fileName : f.fileName = n
  volName : f.volName = ""
  type : f.type = type

/-- One more replica in an entry. -/
def addTo (e : FilePBA) (r : ReplicaPba) : FilePBA := { e with rPba := e.rPba ++ [r] }

theorem merge_replica {n type : String} (htype : type ≠ "Distribute")
    (hrep : Str.isIn "Replicate" type = true) {f : FilePBA} (hf : Replica n type f)
    (e : Option FilePBA) : merge e f = match replicaOf f with
      | none => e
      | some r => some (addTo (e.getD { fileName := n, type := type }) r) := by
  obtain ⟨rfl, hvol, rfl⟩ := hf
  rw [merge, if_neg htype, if_pos hrep, noReplicas, hvol]
  rfl

/-- Two replicas of one file can be added in either order. -/
theorem merge_comm {n type : String} (htype : type ≠ "Distribute")
    (hrep : Str.isIn "Replicate" type = true) {f g : FilePBA} (hf : Replica n type f)
    (hg : Replica n type g) (e : Option FilePBA) :
    SameEntry (merge (merge e f) g) (merge (merge e g) f) := by
  rw [merge_replica htype hrep hg, merge_replica htype hrep hf, merge_replica htype hrep hf,
    merge_replica htype hrep hg]
  cases replicaOf f with
  | none => exact .refl _
  | some rf =>
    cases replicaOf g with
    | none => exact .refl _
    | some rg =>
      refine .some ⟨rfl, ?_, rfl, rfl, rfl⟩
      simp only [addTo, Option.getD_some, List.append_assoc]
      exact List.Perm.append_left _ (List.Perm.swap rg rf [])

theorem foldl_merge_congr (l : List FilePBA) {e e' : Option FilePBA} (h : SameEntry e e') :
    SameEntry (l.foldl merge e) (l.foldl merge e') := by
  induction l generalizing e e' with
  | nil => exact h
  | cons f l ih => exact ih (merge_congr h f)

theorem foldl_merge_perm {n type : String} (htype : type ≠ "Distribute")
    (hrep : Str.isIn "Replicate" type = true) {l l' : List FilePBA} (hp : l.Perm l')
    (hl : ∀ f ∈ l, Replica n type f) (e : Option FilePBA) :
    SameEntry (l.foldl merge e) (l'.foldl merge e) := by
  induction hp generalizing e with
  | nil => exact .refl _
  | cons f _ ih => exact ih (fun g hg => hl g (List.mem_cons_of_mem f hg)) _
  | swap f g l =>
    exact foldl_merge_congr l (merge_comm htype hrep (hl g List.mem_cons_self)
      (hl f (List.mem_cons_of_mem g List.mem_cons_self)) e)
  | trans h1 _ ih1 ih2 =>
    exact (ih1 hl e).trans (ih2 (fun f hf => hl f (h1.mem_iff.2 hf)) e)

/-! ## One change of the file map -/

/-- The file map of Trace. -/
def listed (raw : Dict String (Dict String FilePBA)) : List FilePBA := raw.flat.map Prod.snd

section Map

variable {info : Dict String String} {raw : Dict String (Dict String FilePBA)} {node p n : String}
  {f : FilePBA}

theorem mem_listed {x : FilePBA} :
    x ∈ listed raw ↔ ∃ m g, raw.get2? m g = some x := by
  rw [listed, List.mem_map]
  constructor
  · rintro ⟨⟨⟨m, g⟩, x⟩, hx, rfl⟩
    exact ⟨m, g, Dict.mem_flat_iff.1 hx⟩
  · rintro ⟨m, g, hx⟩
    exact ⟨((m, g), x), Dict.mem_flat_iff.2 hx, rfl⟩

variable (hname : ∀ m g x, raw.get2? m g = some x → x.fileName = g)

include hname

/-- A change of one file leaves the messages of the other paths alone. -/
theorem messagesOf_set2_of_ne (hn : node ∈ raw.keys) (ht : target info f.fileName ≠ some (p, n)) :
    messagesOf info (listed (raw.set2 node f.fileName f)) p n =
      messagesOf info (listed raw) p n := by
  cases hget : raw.get2? node f.fileName with
  | none =>
    obtain ⟨L₁, h1, h2⟩ := Dict.flat_set2_new f hn hget
    rw [listed, listed, h1, h2, List.map_append, List.map_append, List.map_cons,
      messagesOf_append, messagesOf_append, messagesOf_cons, if_neg ht]
  | some x =>
    obtain ⟨L₁, h1, h2⟩ := Dict.flat_set2_old f hget
    have hx : target info x.fileName ≠ some (p, n) := by rwa [hname _ _ _ hget]
    rw [listed, listed, h1, h2, List.map_append, List.map_append, List.map_cons, List.map_cons,
      messagesOf_append, messagesOf_append, messagesOf_cons, messagesOf_cons, if_neg ht, if_neg hx]

theorem messagesOf_erase2_of_ne {path : String} {x : FilePBA} (hget : raw.get2? node path = some x)
    (ht : target info path ≠ some (p, n)) :
    messagesOf info (listed (raw.erase2 node path)) p n = messagesOf info (listed raw) p n := by
  obtain ⟨L₁, L₂, h1, h2⟩ := Dict.flat_erase2 hget
  have hx : target info x.fileName ≠ some (p, n) := by rwa [hname _ _ _ hget]
  rw [listed, listed, h1, h2, List.map_append, List.map_append, List.map_cons,
    messagesOf_append, messagesOf_append, messagesOf_cons, if_neg hx]

/-- Without another file of the path, nothing is left of it. -/
theorem messagesOf_erase2_self {path : String} (ht : target info path = some (p, n))
    (honly : ∀ m g, raw.get2? m g ≠ none → target info g = target info path →
      m = node ∧ g = path) : messagesOf info (listed (raw.erase2 node path)) p n = [] := by
  refine messagesOf_eq_nil (fun x hx hxt => ?_)
  obtain ⟨m, g, hget⟩ := mem_listed.1 hx
  have hold := Dict.get2?_of_erase2 hget
  rw [hname _ _ _ hold, ← ht] at hxt
  obtain ⟨rfl, rfl⟩ := honly m g (by rw [hold]; exact Option.some_ne_none x) hxt
  rw [Dict.get2?_erase2, if_pos ⟨rfl, rfl⟩] at hget
  cases hget

theorem messagesOf_later {path : String} (hn : node ∈ raw.keys)
    (hlater : ∀ x ∈ raw.later node path, target info x.1.2 ≠ some (p, n)) :
    messagesOf info ((raw.later node path).map Prod.snd) p n = [] := by
  refine messagesOf_eq_nil (fun y hy => ?_)
  obtain ⟨⟨⟨m, g⟩, y⟩, hx, rfl⟩ := List.mem_map.1 hy
  have hget := Dict.mem_flat_iff.1 (Dict.mem_flat_of_later hn hx)
  rw [hname _ _ _ hget]
  exact hlater ((m, g), y) hx

omit hname in
/-- The messages of the path of a file that was written, those of `later` behind it. -/
theorem messagesOf_set2_self (hn : node ∈ raw.keys) (ht : target info f.fileName = some (p, n)) :
    ∃ A, messagesOf info (listed (raw.set2 node f.fileName f)) p n =
        A ++ { f with fileName := n } ::
          messagesOf info ((raw.later node f.fileName).map Prod.snd) p n ∧
      (raw.get2? node f.fileName = none → messagesOf info (listed raw) p n =
        A ++ messagesOf info ((raw.later node f.fileName).map Prod.snd) p n) := by
  cases hget : raw.get2? node f.fileName with
  | none =>
    obtain ⟨L₁, h1, h2⟩ := Dict.flat_set2_new f hn hget
    refine ⟨messagesOf info (L₁.map Prod.snd) p n, ?_, fun _ => ?_⟩
    · rw [listed, h2, List.map_append, List.map_cons, messagesOf_append, messagesOf_cons, if_pos ht]
    · rw [listed, h1, List.map_append, messagesOf_append]
  | some x =>
    obtain ⟨L₁, h1, h2⟩ := Dict.flat_set2_old f hget
    refine ⟨messagesOf info (L₁.map Prod.snd) p n, ?_, fun hc => absurd hc (Option.some_ne_none x)⟩
    rw [listed, h2, List.map_append, List.map_cons, messagesOf_append, messagesOf_cons, if_pos ht]

/-- A distributed file that is listed last makes the entry. -/
theorem freshEntry_set2_distribute (hn : node ∈ raw.keys)
    (ht : target info f.fileName = some (p, n)) (htype : f.type = "Distribute")
    (hlater : ∀ x ∈ raw.later node f.fileName, target info x.1.2 ≠ some (p, n)) :
    freshEntry info (listed (raw.set2 node f.fileName f)) p n =
      some { f with fileName := n } := by
  obtain ⟨A, hA, -⟩ := messagesOf_set2_self hn ht
  rw [freshEntry, hA, messagesOf_later hname hn hlater, List.foldl_append, List.foldl_cons,
    List.foldl_nil, merge, if_pos htype]

/-- A new replica is added at some place among the others. -/
theorem freshEntry_set2_replica (hn : node ∈ raw.keys) (hvol : Trace.NoVolumes raw)
    (hfvol : f.volName = "") (hnew : raw.get2? node f.fileName = none)
    (ht : target info f.fileName = some (p, n)) (htype : f.type ≠ "Distribute")
    (hrep : Str.isIn "Replicate" f.type = true)
    (h : (∀ x ∈ raw.later node f.fileName, target info x.1.2 ≠ some (p, n)) ∨
      ∀ m g x, raw.get2? m g = some x → target info g = some (p, n) → x.type = f.type) :
    SameEntry (merge (freshEntry info (listed raw) p n) { f with fileName := n })
      (freshEntry info (listed (raw.set2 node f.fileName f)) p n) := by
  obtain ⟨A, hA, hold⟩ := messagesOf_set2_self hn ht
  rw [freshEntry, freshEntry, hA, hold hnew]
  rcases h with hlater | hall
  · rw [messagesOf_later hname hn hlater, List.append_nil, List.foldl_append, List.foldl_cons,
      List.foldl_nil]
    exact .refl _
  · have hsnoc : ∀ (l : List FilePBA) (x : FilePBA),
        merge (l.foldl merge none) x = (l ++ [x]).foldl merge none := by
      intro l x
      rw [List.foldl_append, List.foldl_cons, List.foldl_nil]
    rw [hsnoc]
    refine foldl_merge_perm htype hrep (n := n) ?_ (fun x hx => ?_) none
    · rw [List.append_assoc]
      exact List.Perm.append_left _ List.perm_append_comm
    · rw [← hold hnew] at hx
      rcases List.mem_append.1 hx with hx | hx
      · obtain ⟨y, hy, rfl⟩ := List.mem_map.1 hx
        obtain ⟨hy, hyt⟩ := List.mem_filter.1 hy
        obtain ⟨m, g, hget⟩ := mem_listed.1 hy
        have htarget : target info g = some (p, n) := by
          rw [← hname _ _ _ hget]
          simpa using hyt
        exact ⟨rfl, hvol m g y hget, hall m g y hget htarget⟩
      · rw [List.mem_singleton.1 hx]
        exact ⟨rfl, hfvol, rfl⟩

end Map

/-! ## The two services together -/

/-- Trace and a Manager that is registered with it. -/
structure Deployment where
  trace : Trace
  manager : Manager
deriving DecidableEq

/-- Trace handles a message, and the Manager at `addr` what it is told. -/
def relay (addr : String) (menv : Env) (s : Deployment) (x : Trace.Env × TChangeRequest) :
    Deployment :=
  ⟨((Trace.tChangeFile x.1 x.2).run ⟨s.trace, []⟩).2.self,
    (Trace.toldTo addr x.1 x.2 s.trace).foldl (fun m q => ((pushPba menv q).run ⟨m, []⟩).2.self)
      s.manager⟩

/-- The entries of two Managers are the same, up to the order of replicas. -/
structure SameFM (m m' : Manager) : Prop where
  keys : m.FM.keys = m'.FM.keys
  entries : ∀ p n, SameEntry (m.entry p n) (m'.entry p n)

/-- `PushPba` takes the file for the PVC that its path lies under. -/
def Picked (info : Dict String String) (path : String) : Prop :=
  pvcOf info path ≠ "" ∧ ∀ x, pvcsOf info path = [x] → pvcOf info path = x.1

/-- A message about a file of `node` that has the effect of a rebuild.

A distributed file replaces the entry of its path, so no file of that path may be
listed behind it; a replicated file is added to the entry, so it must be new, and
behind it there may be only replicas of its type; a removed file takes the whole entry
along, so it must be the only one of its path, and Trace must announce it. -/
structure Rebuilds (info : Dict String String) (t : Trace) (node : String) (r : TChangeRequest) :
    Prop where
  picked : (r.action = "create" ∧ node ∈ t.rawFM.keys) ∨
    (r.action = "delete" ∧ t.rawFM.get2? node r.filePba.fileName ≠ none) →
      Picked info r.filePba.fileName
  distribute : r.action = "create" → node ∈ t.rawFM.keys → r.filePba.type = "Distribute" →
    ∀ x ∈ t.rawFM.later node r.filePba.fileName,
      target info x.1.2 ≠ target info r.filePba.fileName
  replicate : r.action = "create" → node ∈ t.rawFM.keys → r.filePba.type ≠ "Distribute" →
    t.rawFM.get2? node r.filePba.fileName = none ∧
      ((∀ x ∈ t.rawFM.later node r.filePba.fileName,
          target info x.1.2 ≠ target info r.filePba.fileName) ∨
        ∀ m g x, t.rawFM.get2? m g = some x → target info g = target info r.filePba.fileName →
          x.type = r.filePba.type)
  delete : r.action = "delete" → t.rawFM.get2? node r.filePba.fileName ≠ none →
    r.filePba.fileName ∉ t.shardDict.values ∧
      ∀ m g, t.rawFM.get2? m g ≠ none → target info g = target info r.filePba.fileName →
        m = node ∧ g = r.filePba.fileName

/-- The Manager has the entries that a start on the file map of Trace would make. -/
structure Mirrors (info : Dict String String) (t : Trace) (m : Manager) : Prop where
  keys : m.FM.keys = info.keys
  pvcInfo : m.pvcInfo = .ok info
  valid : m.Valid
  unshared : m.Unshared
  entries : ∀ p n, SameEntry (m.entry p n) (freshEntry info (listed t.rawFM) p n)

section Step

variable {info : Dict String String} {t : Trace} {m : Manager}

theorem place_of_picked (hm : m.pvcInfo = .ok info) {path p d : String} (h : Picked info path)
    (hpvc : pvcsOf info path = [(p, d)]) : m.place path = some (p, d) := by
  have hp : pvcOf info path = p := h.2 _ hpvc
  have hd : info.get? p = some d :=
    Dict.mem_items_iff.1 (mem_pvcsOf.1 (hpvc ▸ List.mem_singleton.2 rfl)).1
  simp only [place, hm]
  rw [if_neg h.1, hp, hd]
  rfl

theorem Mirrors.mem_keys (h : Mirrors info t m) {path p d : String}
    (hpvc : pvcsOf info path = [(p, d)]) : p ∈ m.FM.keys := by
  have hd : info.get? p = some d :=
    Dict.mem_items_iff.1 (mem_pvcsOf.1 (hpvc ▸ List.mem_singleton.2 rfl)).1
  rw [h.keys]
  exact Dict.mem_keys_iff.2 ⟨d, hd⟩

/-- A request that neither side reacts to. -/
theorem Mirrors.of_rawFM {t' : Trace} (h : Mirrors info t m) (ht : t'.rawFM = t.rawFM) :
    Mirrors info t' m :=
  ⟨h.keys, h.pvcInfo, h.valid, h.unshared, fun p n => by rw [ht]; exact h.entries p n⟩

variable (hs : t.Sound)

include hs

theorem fileName_of_get2? : ∀ m g x, t.rawFM.get2? m g = some x → x.fileName = g :=
  fun m g x h => (hs.raw m g x h).1

/-- A created file. -/
theorem Mirrors.create {node : String} {f : FilePBA} {t' : Trace} (h : Mirrors info t m)
    (hn : node ∈ t.rawFM.keys) (ht' : t'.rawFM = t.rawFM.set2 node f.fileName f) {p d n : String}
    (hpvc : pvcsOf info f.fileName = [(p, d)]) (hrel : relPath d f.fileName = some n)
    (ht : target info f.fileName = some (p, n)) (hpick : Picked info f.fileName)
    (hentry : SameEntry (merge (m.entry p n) { f with fileName := n })
      (freshEntry info (listed (t.rawFM.set2 node f.fileName f)) p n)) :
    Mirrors info t' (m.after ⟨"create", f⟩) := by
  have hafter := after_create (place_of_picked h.pvcInfo hpick hpvc)
  have hp := h.mem_keys hpvc
  have hf := frozen_after m ⟨"create", f⟩
  refine ⟨hf.keys.trans h.keys, hf.pvcInfo.trans h.pvcInfo, h.valid.after _,
    h.unshared.after h.valid _, fun q k => ?_⟩
  rw [ht', hafter]
  by_cases hc : p = q ∧ n = k
  · obtain ⟨rfl, rfl⟩ := hc
    rw [entry_created h.valid hp hrel]
    exact hentry
  · have hne : target info f.fileName ≠ some (q, k) := by
      rw [ht]
      intro he
      cases he
      exact hc ⟨rfl, rfl⟩
    rw [entry_created_of_ne h.valid hrel hc (fun _ ref h1 h2 => hc (h.unshared.eq h1 h2)),
      freshEntry, messagesOf_set2_of_ne (fileName_of_get2? hs) hn hne]
    exact h.entries q k

/-- A removed file. -/
theorem Mirrors.delete {node : String} {f x : FilePBA} {t' : Trace} (h : Mirrors info t m)
    (hget : t.rawFM.get2? node f.fileName = some x)
    (ht' : t'.rawFM = t.rawFM.erase2 node f.fileName) {p d n : String}
    (hpvc : pvcsOf info f.fileName = [(p, d)]) (hrel : relPath d f.fileName = some n)
    (ht : target info f.fileName = some (p, n)) (hpick : Picked info f.fileName)
    (honly : ∀ m g, t.rawFM.get2? m g ≠ none → target info g = target info f.fileName →
      m = node ∧ g = f.fileName) :
    Mirrors info t' (m.after ⟨"delete", f⟩) := by
  have hafter := after_delete (place_of_picked h.pvcInfo hpick hpvc)
  have hp := h.mem_keys hpvc
  have hf := frozen_after m ⟨"delete", f⟩
  refine ⟨hf.keys.trans h.keys, hf.pvcInfo.trans h.pvcInfo, h.valid.after _,
    h.unshared.after h.valid _, fun q k => ?_⟩
  rw [ht', hafter, entry_deleted hp hrel, freshEntry]
  by_cases hc : p = q ∧ n = k
  · obtain ⟨rfl, rfl⟩ := hc
    rw [if_pos ⟨rfl, rfl⟩, messagesOf_erase2_self (fileName_of_get2? hs) ht honly]
    exact .refl _
  · have hne : target info f.fileName ≠ some (q, k) := by
      rw [ht]
      intro he
      cases he
      exact hc ⟨rfl, rfl⟩
    rw [if_neg hc, messagesOf_erase2_of_ne (fileName_of_get2? hs) hget hne]
    exact h.entries q k

end Step

/-! ## Runs -/

/-- A message about a base file that lies under one PVC, on a volume of a known type, and
that reaches the other Managers. -/
structure Relayed (info : Dict String String) (addr : String) (x : Trace.Env × TChangeRequest) :
    Prop where
  base : Trace.isShard x.2.filePba.fileName = false
  path : ∃ y, pvcsOf info x.2.filePba.fileName = [y]
  type : x.2.action = "create" → Agent.KnownType x.2.filePba.type
  delivered : ∀ n w, w.addr ≠ addr → x.1.raises n w = false

/-- The invariant of a run. -/
structure Linked (info : Dict String String) (addr : String) (s : Deployment) : Prop where
  sound : s.trace.Sound
  volumes : Trace.NoVolumes s.trace.rawFM
  once : s.trace.agent.count addr = 1
  paths : ∀ m g x, s.trace.rawFM.get2? m g = some x → ∃ y, pvcsOf info g = [y]
  mirrors : Mirrors info s.trace s.manager

section Run

variable {info : Dict String String} {addr : String} {s : Deployment}
  {x : Trace.Env × TChangeRequest}

theorem relay_eq (menv : Env) : relay addr menv s x = ⟨s.trace.after x.1.toShard x.2,
    (Trace.toldTo addr x.1 x.2 s.trace).foldl (fun m q => m.after q) s.manager⟩ := by
  simp only [relay, Trace.tChangeFile_self, pushPba_self]

/-- The entry of a created file is the one that a rebuild makes. -/
theorem Linked.sameEntry_create (h : Linked info addr s) (hx : Relayed info addr x)
    (ha : x.2.action = "create") {node : String} (hn : node ∈ s.trace.rawFM.keys)
    (hr : Rebuilds info s.trace node x.2) {f : FilePBA} (hf : f.fileName = x.2.filePba.fileName)
    (htype : f.type = x.2.filePba.type) (hvol : f.volName = "") {p n : String}
    (ht : target info f.fileName = some (p, n)) :
    SameEntry (merge (s.manager.entry p n) { f with fileName := n })
      (freshEntry info (listed (s.trace.rawFM.set2 node f.fileName f)) p n) := by
  have hname := fileName_of_get2? h.sound
  by_cases hd : f.type = "Distribute"
  · have hlater := hr.distribute ha hn (htype ▸ hd)
    rw [← hf, ht] at hlater
    rw [freshEntry_set2_distribute hname hn ht hd hlater, merge, if_pos hd]
    exact .refl _
  · have hrep : Str.isIn "Replicate" f.type = true := by
      rw [htype] at hd ⊢
      exact (hx.type ha).resolve_right hd
    obtain ⟨hnew, hrest⟩ := hr.replicate ha hn (htype ▸ hd)
    rw [← hf, ht, ← htype] at hrest
    rw [← hf] at hnew
    exact (merge_congr (h.mirrors.entries p n) _).trans
      (freshEntry_set2_replica hname hn h.volumes hvol hnew ht hd hrep hrest)

section Actions

variable {env : Trace.Env} {r : TChangeRequest} {first : PBA}
  (h : Linked info addr s) (hx : Relayed info addr (env, r))
  (hp : r.filePba.pba.head? = some first) (hr : Rebuilds info s.trace first.host r)

include h hx hp

include hr in
theorem Linked.mirrors_create (hc : r.action = "create") :
    Mirrors info (s.trace.after env.toShard r)
      ((Trace.toldTo addr env r s.trace).foldl (fun m q => m.after q) s.manager) := by
  by_cases hk : first.host ∈ s.trace.fmDict.keys
  · have hn : first.host ∈ s.trace.rawFM.keys := h.sound.nodes ▸ hk
    obtain ⟨⟨p, d⟩, hpvc⟩ := hx.path
    obtain ⟨n, hrel, ht⟩ := exists_target hpvc
    let f : FilePBA :=
      { pba := r.filePba.pba, fileName := r.filePba.fileName, type := r.filePba.type }
    have hraw : (s.trace.after env.toShard r).rawFM =
        s.trace.rawFM.set2 first.host f.fileName f := by
      rw [Trace.after_createBase env.toShard s.trace hp hc hx.base, Trace.rawFM_putBase _ _ hk]
    rw [Trace.toldTo_create hp hx.base h.sound hx.delivered h.once hc hk]
    exact h.mirrors.create h.sound hn hraw hpvc hrel ht (hr.picked (.inl ⟨hc, hn⟩))
      (h.sameEntry_create hx hc hn hr (f := f) rfl rfl rfl ht)
  · rw [Trace.toldTo_create_unknown hp hx.base hc hk, Trace.after_of_not_mem hp hx.base hk]
    exact h.mirrors

/-- Trace publishes nothing for a `modify`, and the Manager refuses it. -/
theorem Linked.mirrors_modify (hm : r.action = "modify") :
    Mirrors info (s.trace.after env.toShard r)
      ((Trace.toldTo addr env r s.trace).foldl (fun m q => m.after q) s.manager) := by
  have hraw : (s.trace.after env.toShard r).rawFM = s.trace.rawFM := by
    rw [Trace.after_modifyBase env.toShard s.trace hp hm hx.base, Trace.rawFM_putPba]
  rcases Trace.toldTo_modify hp hx.base h.sound hx.delivered h.once hm with htold | ⟨y, htold⟩
  · rw [htold]
    exact h.mirrors.of_rawFM hraw
  · rw [htold, List.foldl_cons, List.foldl_nil, after_modify]
    exact h.mirrors.of_rawFM hraw

include hr in
theorem Linked.mirrors_delete (hd : r.action = "delete") :
    Mirrors info (s.trace.after env.toShard r)
      ((Trace.toldTo addr env r s.trace).foldl (fun m q => m.after q) s.manager) := by
  have hafter := Trace.after_deleteBase env.toShard s.trace hp hd hx.base
  cases hget : s.trace.rawFM.get2? first.host r.filePba.fileName with
  | none =>
    have hnone := h.sound.get2?_eq_none_iff.2 hget
    rw [Trace.toldTo_delete_absent hp hx.base hd hnone, hafter, Trace.dropBase, hnone]
    exact h.mirrors
  | some y =>
    have hne : s.trace.rawFM.get2? first.host r.filePba.fileName ≠ none := by
      rw [hget]
      exact Option.some_ne_none y
    obtain ⟨entry, he⟩ := h.sound.stored hget
    obtain ⟨hshard, honly⟩ := hr.delete hd hne
    obtain ⟨⟨p, d⟩, hpvc⟩ := hx.path
    obtain ⟨n, hrel, ht⟩ := exists_target hpvc
    rw [Trace.toldTo_delete hp hx.base h.sound hx.delivered h.once hd hne hshard]
    exact h.mirrors.delete h.sound hget (hafter ▸ Trace.rawFM_dropBase he hget) hpvc hrel ht
      (hr.picked (.inr ⟨hd, hne⟩)) honly

end Actions

/-- One message keeps the Manager in step with a rebuild. -/
theorem Linked.mirrors_relay (h : Linked info addr s) (hx : Relayed info addr x)
    (hr : ∀ first, x.2.filePba.pba.head? = some first → Rebuilds info s.trace first.host x.2) :
    Mirrors info (s.trace.after x.1.toShard x.2)
      ((Trace.toldTo addr x.1 x.2 s.trace).foldl (fun m q => m.after q) s.manager) := by
  obtain ⟨env, r⟩ := x
  simp only at hr ⊢
  cases hp : r.filePba.pba.head? with
  | none =>
    rw [Trace.toldTo_of_fail (.inl hp)]
    refine h.mirrors.of_rawFM ?_
    simp only [Trace.after, hp]
  | some first =>
    by_cases hc : r.action = "create"
    · exact h.mirrors_create hx hp (hr first hp) hc
    by_cases hm : r.action = "modify"
    · exact h.mirrors_modify hx hp hm
    by_cases hd : r.action = "delete"
    · exact h.mirrors_delete hx hp (hr first hp) hd
    -- any other action is answered `Fail`
    · rw [Trace.toldTo_of_fail (.inr ⟨hc, hm, hd⟩)]
      refine h.mirrors.of_rawFM ?_
      simp only [Trace.after, hp, if_neg hc, if_neg hm, if_neg hd]

/-- A message about a base file enters no other name. -/
theorem path_after_base {t : Trace} (hs : t.Sound) {toShard : String → String → Option String}
    {r : TChangeRequest} (hb : Trace.isShard r.filePba.fileName = false) {m g : String}
    {y : FilePBA} (h : (t.after toShard r).rawFM.get2? m g = some y) :
    g = r.filePba.fileName ∨ ∃ y, t.rawFM.get2? m g = some y := by
  cases hp : r.filePba.pba.head? with
  | none =>
    have hafter : t.after toShard r = t := by simp only [Trace.after, hp]
    exact .inr ⟨y, hafter ▸ h⟩
  | some first =>
    by_cases hk : first.host ∈ t.fmDict.keys
    · have hcell := congrArg Trace.Cell.raw (Trace.cell_after_base toShard hp hb (hs.knows hk) m g)
      by_cases hc : first.host = m ∧ r.filePba.fileName = g
      · exact .inl hc.2.symm
      · rw [if_neg hc] at hcell
        exact .inr ⟨y, hcell.symm.trans h⟩
    · rw [Trace.after_of_not_mem hp hb hk] at h
      exact .inr ⟨y, h⟩

theorem Linked.relay (h : Linked info addr s) (menv : Env) (hx : Relayed info addr x)
    (hr : ∀ first, x.2.filePba.pba.head? = some first → Rebuilds info s.trace first.host x.2) :
    Linked info addr (relay addr menv s x) := by
  rw [relay_eq]
  refine ⟨h.sound.after _ _, h.volumes.after _ _, ?_, fun m g y hy => ?_, h.mirrors_relay hx hr⟩
  · rw [Trace.agent_after]
    exact h.once
  · rcases path_after_base h.sound hx.base hy with rfl | ⟨y', hy'⟩
    · exact hx.path
    · exact h.paths m g y' hy'

/-- A start on the file map of Trace. -/
theorem start_listed {t : Trace} (hs : t.Sound)
    (hpaths : ∀ m g x, t.rawFM.get2? m g = some x → ∃ y, pvcsOf info g = [y]) :
    ∃ m, start (.ok info) t.tGetFileMap = .ok m ∧ Started info (listed t.rawFM) m := by
  refine start_ok (fun f hf => ?_) (fun f hf _ hnil => ?_)
  · obtain ⟨m, g, hget⟩ := mem_listed.1 hf
    obtain ⟨y, hy⟩ := hpaths m g f hget
    intro x hx
    rw [(hs.raw m g f hget).1, hy] at hx ⊢
    rw [List.mem_singleton.1 hx]
  · obtain ⟨m, g, hget⟩ := mem_listed.1 hf
    obtain ⟨first, hfirst, -⟩ := (hs.raw m g f hget).2.head?
    rw [hnil] at hfirst
    cases hfirst

theorem linked_start {t : Trace} (ht : t.Reachable) (haddr : addr ∉ t.agent)
    (hpaths : ∀ m g x, t.rawFM.get2? m g = some x → ∃ y, pvcsOf info g = [y]) {m : Manager}
    (hstart : start (.ok info) (t.tRegister addr).tGetFileMap = .ok m) :
    Linked info addr ⟨t.tRegister addr, m⟩ := by
  have hreg : (t.tRegister addr).Reachable := .register addr ht
  obtain ⟨m', hm', hs⟩ := start_listed hreg.sound hpaths
  rw [hstart] at hm'
  cases hm'
  refine ⟨hreg.sound, hreg.noVolumes, ?_, hpaths, hs.keys, hs.pvcInfo, hs.valid, hs.unshared,
    fun p n => ?_⟩
  · show (t.agent ++ [addr]).count addr = 1
    rw [List.count_append, List.count_eq_zero_of_not_mem haddr]
    simp
  · rw [hs.entries]
    exact .refl _

end Run

/-- **A running Manager has the entries of a new one.** From every reachable Trace and a
Manager started on it, after each message of a run whose messages all have the effect of
a rebuild, a Manager that starts now succeeds and builds the same `FM`, up to the order
of replicas. -/
theorem running_eq_restarted {info : Dict String String} {addr : String} {t₀ : Trace}
    (ht : t₀.Reachable) (haddr : addr ∉ t₀.agent)
    (hpaths : ∀ n f x, t₀.rawFM.get2? n f = some x → ∃ y, pvcsOf info f = [y]) {m₀ : Manager}
    (hstart : start (.ok info) (t₀.tRegister addr).tGetFileMap = .ok m₀) (menv : Env)
    (l : List (Trace.Env × TChangeRequest)) (hmsg : ∀ x ∈ l, Relayed info addr x)
    (hl : ∀ l₁ x l₂, l = l₁ ++ x :: l₂ → ∀ first, x.2.filePba.pba.head? = some first →
      Rebuilds info (l₁.foldl (relay addr menv) ⟨t₀.tRegister addr, m₀⟩).trace first.host x.2) :
    ∀ l', l' <+: l → ∃ m,
      start (.ok info) (l'.foldl (relay addr menv) ⟨t₀.tRegister addr, m₀⟩).trace.tGetFileMap =
        .ok m ∧
      SameFM (l'.foldl (relay addr menv) ⟨t₀.tRegister addr, m₀⟩).manager m := by
  suffices H : ∀ l', l' <+: l →
      Linked info addr (l'.foldl (relay addr menv) ⟨t₀.tRegister addr, m₀⟩) by
    intro l' hl'
    have hlink := H l' hl'
    obtain ⟨m, hm, hs⟩ := start_listed hlink.sound hlink.paths
    refine ⟨m, hm, hlink.mirrors.keys.trans hs.keys.symm, fun p n => ?_⟩
    rw [hs.entries]
    exact hlink.mirrors.entries p n
  intro l'
  induction l' using List.reverseRecOn with
  | nil => exact fun _ => linked_start ht haddr hpaths hstart
  | append_singleton l' x ih =>
    rintro ⟨rest, hrest⟩
    rw [List.append_assoc, List.singleton_append] at hrest
    rw [List.foldl_append, List.foldl_cons, List.foldl_nil]
    have hx : x ∈ l := hrest ▸ List.mem_append_right _ List.mem_cons_self
    exact (ih ⟨x :: rest, hrest⟩).relay menv (hmsg x hx) (hl l' x rest hrest.symm)

/-! ## A replicated file on two nodes -/

/-- No file has a gfid, and no call fails. -/
def calm : Trace.Env := ⟨fun _ _ => none, fun _ _ => false⟩

/-- Two nodes without files. -/
def twoNodes : Trace :=
  ⟨[], Trace.peerDicts ["node1", "node2"], Trace.peerDicts ["node1", "node2"], ∅⟩

/-- A message about the replicated file `table`. -/
def tableOn (action node : String) : Trace.Env × TChangeRequest :=
  (calm, ⟨action, { pba := [.blockAt node (.lit 0)], fileName := "/brick/vol/pvc1/table",
                    type := "Replicate" }⟩)

theorem twoNodes_init : Trace.init calm.toShard [("node1", []), ("node2", [])] = .ok twoNodes := by
  decide

theorem pvcsOf_table : pvcsOf onePvc "/brick/vol/pvc1/table" = [("pvc1", "vol/pvc1")] := by decide

theorem relayed_tableOn (action node : String) :
    Relayed onePvc "m:23831" (tableOn action node) := by
  have hbase : Trace.isShard "/brick/vol/pvc1/table" = false := by decide
  have htype : Str.isIn "Replicate" "Replicate" = true := by decide
  exact ⟨hbase, ⟨_, pvcsOf_table⟩, fun _ => .inl htype, fun _ _ _ => rfl⟩

/-- The two services after some messages. -/
def deployed (l : List (Trace.Env × TChangeRequest)) : Deployment :=
  l.foldl (relay "m:23831" quiet) ⟨twoNodes.tRegister "m:23831", noFiles⟩

theorem noFiles_listed : start (.ok onePvc) (twoNodes.tRegister "m:23831").tGetFileMap =
    .ok noFiles := by
  decide

/-- A replica on a node that does not have the file yet. -/
theorem rebuilds_tableOn {t : Trace} {node : String}
    (hnew : t.rawFM.get2? node "/brick/vol/pvc1/table" = none)
    (hall : ∀ x ∈ listed t.rawFM, x.type = "Replicate") :
    Rebuilds onePvc t node (tableOn "create" node).2 := by
  have hpick : Picked onePvc "/brick/vol/pvc1/table" := by
    refine ⟨by decide, fun x hx => ?_⟩
    cases pvcsOf_table.symm.trans hx
    decide
  have htype : ("Replicate" : String) ≠ "Distribute" := by decide
  have haction : ("create" : String) ≠ "delete" := by decide
  exact ⟨fun _ => hpick, fun _ _ h => absurd h htype,
    fun _ _ _ => ⟨hnew, .inr (fun m g x h _ => hall x (mem_listed.2 ⟨m, g, h⟩))⟩,
    fun h => absurd h haction⟩

/-- A second replica, listed before the first one: the Managers differ in their order only. -/
theorem secondReplica_restarted :
    ∃ m, start (.ok onePvc)
        (deployed [tableOn "create" "node2", tableOn "create" "node1"]).trace.tGetFileMap = .ok m ∧
      SameFM (deployed [tableOn "create" "node2", tableOn "create" "node1"]).manager m := by
  refine running_eq_restarted (.init twoNodes_init) List.not_mem_nil (fun n f x h => ?_)
    noFiles_listed quiet _ (fun x hx => ?_) (fun l₁ x l₂ he first hfirst => ?_) _ List.prefix_rfl
  · change (Trace.peerDicts _).get2? n f = some x at h
    rw [Trace.get2?_peerDicts] at h
    cases h
  · simp only [List.mem_cons, List.not_mem_nil, or_false] at hx
    rcases hx with rfl | rfl <;> exact relayed_tableOn _ _
  · rcases l₁ with _ | ⟨y₁, _ | ⟨y₂, l₁⟩⟩
    · cases he
      cases hfirst
      exact rebuilds_tableOn (by decide) (by decide)
    · cases he
      cases hfirst
      exact rebuilds_tableOn (by decide) (by decide)
    · simp at he

/-- One of two replicas is deleted: the running Manager drops the whole entry, a new one
has the other replica. -/
theorem replicaDeleted_not_restarted :
    twoNodes.Reachable ∧
    start (.ok onePvc) (twoNodes.tRegister "m:23831").tGetFileMap = .ok noFiles ∧
    (∀ x ∈ [tableOn "create" "node1", tableOn "create" "node2", tableOn "delete" "node1"],
      Relayed onePvc "m:23831" x) ∧
    ¬ ∃ m, start (.ok onePvc) (deployed [tableOn "create" "node1", tableOn "create" "node2",
        tableOn "delete" "node1"]).trace.tGetFileMap = .ok m ∧
      SameFM (deployed [tableOn "create" "node1", tableOn "create" "node2",
        tableOn "delete" "node1"]).manager m := by
  refine ⟨.init twoNodes_init, noFiles_listed, ?_, ?_⟩
  · intro x hx
    simp only [List.mem_cons, List.not_mem_nil, or_false] at hx
    rcases hx with rfl | rfl | rfl <;> exact relayed_tableOn _ _
  · rintro ⟨m, hm, hsame⟩
    have hrunning : (deployed [tableOn "create" "node1", tableOn "create" "node2",
        tableOn "delete" "node1"]).manager.entry "pvc1" "table" = none := by decide
    have hfresh : (start (.ok onePvc) (deployed [tableOn "create" "node1",
        tableOn "create" "node2", tableOn "delete" "node1"]).trace.tGetFileMap).toOption.bind
          (fun m => m.entry "pvc1" "table") ≠ none := by decide
    have hentry := hsame.entries "pvc1" "table"
    rw [hm] at hfresh
    rw [hrunning] at hentry
    generalize he : m.entry "pvc1" "table" = e at hentry
    cases hentry
    exact hfresh he

end Lba2Pba.Manager
