import Lba2Pba.Manager.Paths

/-!
# The reference map of the Manager

`reference` is the map that some messages stand for, by the place of each message and
without references, loops over PVCs or raw messages. A Manager has it in `FM` after it
has loaded the first messages and handled the others, and also if the first ones are
pushed to a Manager that has loaded nothing (`map_eq_reference`): the loader goes PVC by
PVC over messages that it renames, the handler message by message.

Agents may be registered at any time, and any push to them may raise.
-/

namespace Lba2Pba.Manager

open Py

/-! ## Messages and what they stand for -/

/-- A file whose path has a place among the PVCs. -/
structure Placed (t : Table) where
  file : FilePBA
  place : Option (String × String)
  lies : Lies t.info file.fileName place

inductive Action
  | create
  | delete
deriving DecidableEq

def Action.toString : Action → String
  | .create => "create"
  | .delete => "delete"

structure Message (t : Table) extends Placed t where
  action : Action

def Message.request {t : Table} (x : Message t) : FMPushPbaRequest := ⟨x.action.toString, x.file⟩

/-- The file as a message that creates it. -/
def Placed.create {t : Table} (x : Placed t) : Message t := { x with action := .create }

/-- The entry for each PVC and relative path. -/
abbrev Entries := String → String → Option FilePBA

/-- A message changes the entry of its place. -/
def record {t : Table} (e : Entries) (x : Message t) : Entries :=
  match x.place with
  | none => e
  | some (p, n) => fun q k =>
    if p = q ∧ n = k then
      match x.action with
      | .create => merge (e p n) { x.file with fileName := n }
      | .delete => none
    else e q k

theorem record_of_none {t : Table} {x : Message t} (h : x.place = none) (e : Entries) :
    record e x = e := by
  rw [record, h]

theorem record_of_some {t : Table} {x : Message t} {p n : String} (h : x.place = some (p, n))
    (e : Entries) (q k : String) : record e x q k = if p = q ∧ n = k then
      match x.action with
      | .create => merge (e p n) { x.file with fileName := n }
      | .delete => none
    else e q k := by
  rw [record, h]

/-- The map that some messages stand for. -/
def reference {t : Table} (l : List (Message t)) : Entries := l.foldl record (fun _ _ => none)

/-- The Manager has a map for each PVC, with these entries. -/
structure HasMap (t : Table) (e : Entries) (m : Manager) : Prop where
  keys : m.FM.keys = t.info.keys
  entries : ∀ p n, m.entry p n = e p n

/-- A message, with the agents that are registered when it arrives and what happens
around it. -/
structure Arrival (t : Table) where
  message : Message t
  QAs : Dict String (List String)
  env : Env

def handleArrival {t : Table} (m : Manager) (x : Arrival t) : Manager :=
  ((pushPba x.env x.message.request).run ⟨{ m with QAs := x.QAs }, []⟩).2.self

/-! ## One message -/

/-- The Manager shows the entries, and can go on. -/
structure Follows (t : Table) (e : Entries) (m : Manager) : Prop extends HasMap t e m where
  pvcInfo : m.pvcInfo = .ok t.info
  valid : m.Valid
  unshared : m.Unshared

section Step

variable {t : Table} {e : Entries} {m : Manager}

theorem Follows.after (h : Follows t e m) (x : Message t) :
    Follows t (record e x) (m.after x.request) := by
  have hf := frozen_after m x.request
  refine ⟨⟨hf.keys.trans h.keys, fun q k => ?_⟩, hf.pvcInfo.trans h.pvcInfo, h.valid.after _,
    h.unshared.after h.valid _⟩
  have hlies := x.lies
  cases hplace : x.place with
  | none =>
    rw [hplace] at hlies
    have hnone : m.place x.request.filePba.fileName = none := hlies.place_eq_none h.pvcInfo
    rw [record_of_none hplace, Manager.after, hnone]
    exact h.entries q k
  | some y =>
    obtain ⟨p, n⟩ := y
    rw [hplace] at hlies
    obtain ⟨d, hd, hrel⟩ := hlies.exists_place h.pvcInfo
    have hp : p ∈ m.FM.keys := by
      rw [h.keys]
      exact Dict.mem_keys_iff.2 ⟨d, ((place_eq_some_iff h.pvcInfo).1 hd).2.2⟩
    rw [record_of_some hplace, ← h.entries, ← h.entries]
    cases hact : x.action with
    | create =>
      have hafter : m.after x.request = m.created p d x.file := by
        rw [Message.request, hact]
        exact after_create hd
      rw [hafter]
      split
      · rename_i hc
        obtain ⟨rfl, rfl⟩ := hc
        exact entry_created h.valid hp hrel
      · rename_i hc
        exact entry_created_of_ne h.valid hrel hc (fun _ ref h1 h2 => hc (h.unshared.eq h1 h2))
    | delete =>
      have hafter : m.after x.request = m.deleted p d x.file := by
        rw [Message.request, hact]
        exact after_delete hd
      rw [hafter]
      exact entry_deleted hp hrel

/-- Agents come and go between the messages. -/
theorem Follows.withAgents (h : Follows t e m) (QAs : Dict String (List String)) :
    Follows t e { m with QAs := QAs } :=
  ⟨⟨h.keys, h.entries⟩, h.pvcInfo, ⟨h.valid.raw, h.valid.entries⟩, ⟨h.unshared.eq⟩⟩

theorem Follows.handleArrival (h : Follows t e m) (x : Arrival t) :
    Follows t (record e x.message) (m.handleArrival x) := by
  rw [Manager.handleArrival, pushPba_self]
  exact (h.withAgents x.QAs).after x.message

theorem Follows.foldl (h : Follows t e m) (l : List (Arrival t)) :
    Follows t ((l.map Arrival.message).foldl record e) (l.foldl Manager.handleArrival m) := by
  induction l generalizing e m with
  | nil => exact h
  | cons x l ih => exact ih (h.handleArrival x)

end Step

/-! ## The start -/

section Start

variable {t : Table}

theorem reference_create_concat (files : List (Placed t)) (x : Placed t) :
    reference ((files ++ [x]).map Placed.create) =
      record (reference (files.map Placed.create)) x.create := by
  rw [reference, List.map_append, List.foldl_append]
  rfl

/-- The merged messages of the loops are the entries of the reference. -/
theorem freshEntry_eq_reference (files : List (Placed t)) (p n : String) :
    freshEntry t.info (files.map Placed.file) p n = reference (files.map Placed.create) p n := by
  induction files using List.reverseRecOn with
  | nil => rfl
  | append_singleton files x ih =>
    have ht : target t.info x.file.fileName = x.place := x.lies.target.1
    rw [List.map_append, List.map_singleton, freshEntry_snoc, reference_create_concat, ht, ih]
    cases hplace : x.place with
    | none =>
      rw [record_of_none (x := x.create) hplace]
      rfl
    | some y =>
      obtain ⟨q, k⟩ := y
      rw [record_of_some (x := x.create) hplace]
      by_cases hc : q = p ∧ k = n
      · obtain ⟨rfl, rfl⟩ := hc
        rw [if_pos rfl, if_pos ⟨rfl, rfl⟩]
        rfl
      · rw [if_neg hc, if_neg]
        intro he
        cases he
        exact hc ⟨rfl, rfl⟩

theorem start_follows (files : List (Placed t)) (hpba : ∀ x ∈ files, x.file.pba ≠ []) :
    ∃ m, start (.ok t.info) (files.map Placed.file) = .ok m ∧
      Follows t (reference (files.map Placed.create)) m := by
  have hone : ∀ f ∈ files.map Placed.file, Unambiguous t.info f.fileName := by
    intro f hf
    obtain ⟨x, -, rfl⟩ := List.mem_map.1 hf
    exact x.lies.target.2
  have hext : ∀ f ∈ files.map Placed.file, Str.isIn "Replicate" f.type = true → f.pba ≠ [] := by
    intro f hf _
    obtain ⟨x, hx, rfl⟩ := List.mem_map.1 hf
    exact hpba x hx
  obtain ⟨m, hm, hs⟩ := start_ok hone hext
  refine ⟨m, hm, ⟨hs.keys, fun p n => ?_⟩, hs.pvcInfo, hs.valid, hs.unshared⟩
  rw [hs.entries, freshEntry_eq_reference]

end Start

/-- **The Manager has the reference map**, for every table of PVCs, every list of files
and all messages after it. The files are loaded at the start, or pushed to a Manager
that has loaded none. -/
theorem map_eq_reference (t : Table) (files : List (Placed t))
    (hpba : ∀ x ∈ files, x.file.pba ≠ []) (l : List (Arrival t)) :
    (∃ m, start (.ok t.info) (files.map Placed.file) = .ok m ∧
      HasMap t (reference (files.map Placed.create ++ l.map Arrival.message))
        (l.foldl handleArrival m)) ∧
    ∃ m, start (.ok t.info) [] = .ok m ∧
      ∀ first : List (Arrival t), first.map Arrival.message = files.map Placed.create →
        HasMap t (reference (files.map Placed.create ++ l.map Arrival.message))
          ((first ++ l).foldl handleArrival m) := by
  constructor
  · obtain ⟨m, hm, hf⟩ := start_follows files hpba
    refine ⟨m, hm, ?_⟩
    rw [reference, List.foldl_append]
    exact (hf.foldl l).toHasMap
  · obtain ⟨m, hm, hf⟩ := start_follows (t := t) [] (fun x hx => absurd hx List.not_mem_nil)
    refine ⟨m, hm, fun first hfirst => ?_⟩
    have hall := hf.foldl (first ++ l)
    rw [List.map_append, hfirst] at hall
    exact hall.toHasMap

/-! ### A replica pushed after another was loaded -/

theorem onePvc_named : "" ∉ onePvc.keys := by decide

def pvcTable : Table := ⟨onePvc, onePvc_named⟩

/-- An occurrence begins at one of the positions of a string. -/
theorem eq_take_of_positions {l sep a b : List Char} {k : Nat}
    (h : ∀ i ≤ l.length, sep.isPrefixOf (l.drop i) = true → i = k) (hl : l = a ++ sep ++ b) :
    a = l.take k := by
  have hdrop : l.drop a.length = sep ++ b := by
    rw [hl, List.append_assoc, List.drop_left]
  have hlen : a.length ≤ l.length := by
    rw [hl, List.append_assoc, List.length_append]
    omega
  have hk := h a.length hlen (List.isPrefixOf_iff_prefix.2 ⟨b, hdrop.symm⟩)
  rw [← hk, hl, List.append_assoc, List.take_left]

theorem lies_table : Lies pvcTable.info "/brick/vol/pvc1/table" (some ("pvc1", "table")) := by
  have honly : ∀ x ∈ onePvc.items, x = ("pvc1", "vol/pvc1") := by decide
  have hone : ∀ i ≤ "/brick/vol/pvc1/table".toList.length,
      "vol/pvc1".toList.isPrefixOf ("/brick/vol/pvc1/table".toList.drop i) = true → i = 7 := by
    decide
  have hpath : "/brick/vol/pvc1/table" = "/brick/" ++ "vol/pvc1" ++ "/" ++ "table" := by decide
  refine .under (by decide) hpath (fun a b h => ?_) (fun x hx _ => honly x hx)
  exact eq_take_of_positions hone h

/-- The replica of a node. -/
def tableOf (node : String) : Placed pvcTable :=
  ⟨{ pba := [.blockAt node (.lit 0)], fileName := "/brick/vol/pvc1/table", type := "Replicate" },
    some ("pvc1", "table"), lies_table⟩

/-- The agent of the PVC does not answer. -/
def noAnswer : Arrival pvcTable :=
  ⟨(tableOf "b").create, (∅ : Dict String (List String)).set "pvc1" ["10.0.0.1:23832"],
    ⟨fun _ => "pvc1", fun _ _ => true⟩⟩

theorem secondReplica_eq_reference :
    (reference [(tableOf "a").create, noAnswer.message] "pvc1" "table").map FilePBA.rPba =
      some [⟨[.blockAt "a" (.lit 0)], "a"⟩, ⟨[.blockAt "b" (.lit 0)], "b"⟩] ∧
    ∃ m, start (.ok onePvc) [(tableOf "a").file] = .ok m ∧
      HasMap pvcTable (reference [(tableOf "a").create, noAnswer.message])
        (m.handleArrival noAnswer) := by
  refine ⟨by decide, (map_eq_reference pvcTable [tableOf "a"] (fun x hx => ?_) [noAnswer]).1⟩
  rw [List.mem_singleton.1 hx]
  exact List.cons_ne_nil _ _

end Lba2Pba.Manager
