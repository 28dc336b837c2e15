import Lba2Pba.Trace.Threads
import Lba2Pba.Trace.Cell

/-!
# What a handler touches

A handler of `TChangeFile` keeps to the dictionaries of its node (`row`): as long as
nobody else changes those, it changes nothing of another node, although it reads and
writes `shardDict`, which the nodes share. For a message about a base file what it
leaves is a function of what it found (`confined_base`); a message about a shard
leaves the extents of all entries as they are (`confined_shard`).
-/

namespace Lba2Pba.Trace

open Py

/-- What the service holds for one node, and what no request changes. -/
@[ext] structure Row where
  agent : List String
  nodes : List String × List String
  files : Option (Dict String Entry)
  raws : Option (Dict String FilePBA)

/-- The row of a node. A request without extents names no node. -/
def row (t : Trace) (k : Option String) : Row :=
  ⟨t.agent, (t.fmDict.keys, t.rawFM.keys), k.bind t.fmDict.get?, k.bind t.rawFM.get?⟩

/-- The node that a request names. -/
def nodeOf (r : TChangeRequest) : Option String := r.filePba.pba.head?.map PBA.host

namespace Row

variable (v : Row) (f : String)

/-- The two entries of a file. -/
def cell : Cell := ⟨v.files.bind (·.get? f), v.raws.bind (·.get? f)⟩

def setFile (e : Entry) : Row := { v with files := v.files.map (·.set f e) }

def eraseFile : Row := { v with files := v.files.map (·.erase f) }

def setRaw (x : FilePBA) : Row := { v with raws := v.raws.map (·.set f x) }

def eraseRaw : Row := { v with raws := v.raws.map (·.erase f) }

/-- What a message about a base file does to the row of its node. -/
def apply (action : String) (f : FilePBA) (v : Row) : Row :=
  if action = "create" then
    match v.files with
    | none => v
    | some files =>
      (if files.contains f.fileName then v else v.setFile f.fileName ⟨∅, f.pba, f.type⟩).setRaw
        f.fileName { pba := f.pba, fileName := f.fileName, type := f.type }
  else if action = "modify" then
    match (v.cell f.fileName).entry with
    | none => v
    | some e => v.setFile f.fileName { e with pba := f.pba }
  else if action = "delete" then
    if (v.cell f.fileName).entry.isSome then (v.eraseFile f.fileName).eraseRaw f.fileName else v
  else v

end Row

section Rows

variable (t : Trace) (n f : String)

@[simp] theorem cell_row : (row t (some n)).cell f = t.cell n f := rfl

theorem row_setFile (e : Entry) :
    row { t with fmDict := t.fmDict.set2 n f e } (some n) = (row t (some n)).setFile f e := by
  simp [row, Row.setFile, Dict.keys_set2, Dict.get?_set2]

theorem row_setFile_of_ne (e : Entry) {j : Option String} (h : j ≠ some n) :
    row { t with fmDict := t.fmDict.set2 n f e } j = row t j := by
  cases j with
  | none => simp [row, Dict.keys_set2]
  | some m =>
    have hne : n ≠ m := fun he => h (he ▸ rfl)
    simp [row, Dict.keys_set2, Dict.get?_set2, hne]

theorem row_eraseFile :
    row { t with fmDict := t.fmDict.erase2 n f } (some n) = (row t (some n)).eraseFile f := by
  simp [row, Row.eraseFile, Dict.keys_erase2, Dict.get?_erase2]

theorem row_eraseFile_of_ne {j : Option String} (h : j ≠ some n) :
    row { t with fmDict := t.fmDict.erase2 n f } j = row t j := by
  cases j with
  | none => simp [row, Dict.keys_erase2]
  | some m =>
    have hne : n ≠ m := fun he => h (he ▸ rfl)
    simp [row, Dict.keys_erase2, Dict.get?_erase2, hne]

theorem row_setRaw (x : FilePBA) :
    row { t with rawFM := t.rawFM.set2 n f x } (some n) = (row t (some n)).setRaw f x := by
  simp [row, Row.setRaw, Dict.keys_set2, Dict.get?_set2]

theorem row_setRaw_of_ne (x : FilePBA) {j : Option String} (h : j ≠ some n) :
    row { t with rawFM := t.rawFM.set2 n f x } j = row t j := by
  cases j with
  | none => simp [row, Dict.keys_set2]
  | some m =>
    have hne : n ≠ m := fun he => h (he ▸ rfl)
    simp [row, Dict.keys_set2, Dict.get?_set2, hne]

theorem row_eraseRaw :
    row { t with rawFM := t.rawFM.erase2 n f } (some n) = (row t (some n)).eraseRaw f := by
  simp [row, Row.eraseRaw, Dict.keys_erase2, Dict.get?_erase2]

theorem row_eraseRaw_of_ne {j : Option String} (h : j ≠ some n) :
    row { t with rawFM := t.rawFM.erase2 n f } j = row t j := by
  cases j with
  | none => simp [row, Dict.keys_erase2]
  | some m =>
    have hne : n ≠ m := fun he => h (he ▸ rfl)
    simp [row, Dict.keys_erase2, Dict.get?_erase2, hne]

end Rows

namespace Threaded

section Confined

variable {node : String} {v : Row} {sent : List Call} {α : Type}
  {Q : Row → List Call → Except Err α → Prop}

/-- A confined block of a handler for `node`. -/
abbrev Keeps (node : String) (Q : Row → List Call → Except Err α → Prop) (v : Row)
    (sent : List Call) (x : Block α) : Prop :=
  Thread.Confined (fun _ => True) row (some node) Q v sent x

theorem keeps_setRaw {fname : String} {f : FilePBA} {next : Unit → Block α}
    (hno : v.raws = none → Q v sent (.error .keyError))
    (h : v.raws ≠ none → Keeps node Q (v.setRaw fname f) sent (next ())) :
    Keeps node Q v sent (setRaw node fname f >>= next) := by
  refine Thread.Confined.attempt_bind (fun t _ ht => ?_)
  have hraws : t.rawFM.get? node = v.raws := congrArg Row.raws ht
  simp only [hraws]
  cases hv : v.raws with
  | none => exact hno hv
  | some raws =>
    refine ⟨trivial, fun j hj => row_setRaw_of_ne t node fname f hj, ?_⟩
    rw [row_setRaw, ht]
    exact h (by rw [hv]; exact Option.some_ne_none _)

theorem keeps_setEntry {fname : String} {change : Entry → Except Err Entry}
    {next : Unit → Block α} (hno : (v.cell fname).entry = none → Q v sent (.error .keyError))
    (h : ∀ e, (v.cell fname).entry = some e → match change e with
      | .error err => Q v sent (.error err)
      | .ok e' => Keeps node Q (v.setFile fname e') sent (next ())) :
    Keeps node Q v sent (setEntry node fname change >>= next) := by
  refine Thread.Confined.attempt_bind (fun t _ ht => ?_)
  have hentry : t.fmDict.get2? node fname = (v.cell fname).entry := by
    rw [← ht]
    rfl
  simp only [hentry]
  cases he : (v.cell fname).entry with
  | none => exact hno he
  | some e =>
    have he' := h e he
    cases hc : change e with
    | error err =>
      rw [hc] at he'
      simpa only [hc] using he'
    | ok e' =>
      rw [hc] at he'
      simp only [hc]
      refine ⟨trivial, fun j hj => row_setFile_of_ne t node fname e' hj, ?_⟩
      rw [row_setFile, ht]
      exact he'

theorem keeps_getEntry {fname : String} {next : Entry → Block α}
    (hno : (v.cell fname).entry = none → Q v sent (.error .keyError))
    (h : ∀ e, (v.cell fname).entry = some e → Keeps node Q v sent (next e)) :
    Keeps node Q v sent (getEntry node fname >>= next) := by
  refine Thread.Confined.bind (Thread.Confined.self_bind (fun t _ ht => ?_))
  have hentry : t.fmDict.get2? node fname = (v.cell fname).entry := by
    rw [← ht]
    rfl
  rw [hentry]
  cases he : (v.cell fname).entry with
  | none => exact hno he
  | some e => exact h e he

theorem keeps_sortView {view : List String} {next : Unit → Block α}
    (hne : view ≠ [] → Q v sent (.error .attributeError))
    (h : view = [] → Keeps node Q v sent (next ())) :
    Keeps node Q v sent (sortView view >>= next) := by
  cases view with
  | nil => exact h rfl
  | cons x l => exact hne (List.cons_ne_nil x l)

theorem keeps_shardOwner {sName : String} {next : String → Block α}
    (hno : Q v sent (.error .keyError)) (h : ∀ fname, Keeps node Q v sent (next fname)) :
    Keeps node Q v sent (shardOwner sName >>= next) := by
  refine Thread.Confined.bind (Thread.Confined.self_bind (fun t _ ht => ?_))
  cases t.shardDict.get? (some (changeKey sName)) with
  | none => exact hno
  | some fname => exact h fname

/-- The loop over the managers leaves the row alone. -/
theorem keeps_pushAll {env : Env} {action : String} {g : Trace → Except Err FilePBA}
    {P : Call → Prop} (hs : ∀ c ∈ sent, P c)
    (h : ∀ t, row t (some node) = v → ∀ f, g t = .ok f → ∀ addr ∈ v.agent, P ⟨addr, action, f⟩) :
    Keeps node (fun v' sent' _ => v' = v ∧ ∀ c ∈ sent', P c) v sent
      (pushAll env action g) := by
  refine Thread.Confined.self_bind (fun t _ ht => ?_)
  have hagent : t.agent = v.agent := congrArg Row.agent ht
  rw [hagent]
  refine Thread.Confined.forEach (fun addr haddr sent' hs' => ?_) hs
  refine Thread.Confined.self_bind (fun t' _ ht' => ?_)
  cases hg : g t' with
  | error e => exact ⟨rfl, hs'⟩
  | ok f => exact Thread.Confined.call (h t' ht' f hg addr haddr) hs'

end Confined

/-! ## Base files -/

section Base

variable {node : String} {v : Row} {sent : List Call} {f : FilePBA} {α : Type}
  {Q : Row → List Call → Except Err α → Prop}

theorem keeps_createBase {env : Env} {next : String → Block α}
    (hfail : ∀ e, Q (v.apply "create" f) sent (.error e))
    (h : ((v.apply "create" f).cell f.fileName).raw =
        some { pba := f.pba, fileName := f.fileName, type := f.type } →
      Keeps node Q (v.apply "create" f) sent (next f.fileName)) :
    Keeps node Q v sent (createBase env node f >>= next) := by
  refine Thread.Confined.bind (Thread.Confined.self_bind (fun t _ ht => ?_))
  have hfiles : t.fmDict.get? node = v.files := congrArg Row.files ht
  rw [hfiles]
  cases hv : v.files with
  | none =>
    have happly : v.apply "create" f = v := by simp [Row.apply, hv]
    rw [happly] at hfail
    exact hfail _
  | some files =>
    simp only [Thread.expr_some, Thread.done_ok_bind]
    -- `v₁` is the row with the file in `fmDict`
    have hrest : ∀ v₁ : Row, v₁.setRaw f.fileName
        { pba := f.pba, fileName := f.fileName, type := f.type } = v.apply "create" f →
        Keeps node (Thread.Then (fun _ => True) row (some node) Q next) v₁ sent (do
          Thread.update (fun t => { t with
            shardDict := t.shardDict.set (env.toShard f.fileName node)
              (Str.lastPiece f.fileName "/") })
          setRaw node f.fileName { pba := f.pba, fileName := f.fileName, type := f.type }
          return f.fileName) := by
      intro v₁ hv₁
      refine Thread.Confined.update_bind v₁ (fun _ _ _ => trivial) (fun _ _ ht => ht)
        (fun _ _ _ _ _ => rfl) ?_
      refine keeps_setRaw (fun hnone => ?_) (fun hsome => ?_)
      · have hsame : v₁ = v.apply "create" f := by
          rw [← hv₁]
          simp [Row.setRaw, hnone, Row.ext_iff]
        rw [hsame]
        exact hfail _
      · obtain ⟨raws, hraws⟩ := Option.ne_none_iff_exists'.1 hsome
        rw [hv₁]
        refine h ?_
        rw [← hv₁]
        simp [Row.cell, Row.setRaw, hraws]
    split
    · rename_i hc
      exact hrest v (by simp [Row.apply, hv, hc])
    · rename_i hc
      refine Thread.Confined.update_bind _ (fun _ _ _ => trivial) (fun t _ ht => ?_)
        (fun t j _ _ hj => ?_)
        (hrest (v.setFile f.fileName ⟨∅, f.pba, f.type⟩) (by simp [Row.apply, hv, hc]))
      · rw [row_setFile, ht]
      · exact row_setFile_of_ne t node _ _ hj

theorem keeps_modifyBase {next : String → Block α}
    (hfail : ∀ e, Q (v.apply "modify" f) sent (.error e))
    (h : Keeps node Q (v.apply "modify" f) sent (next f.fileName)) :
    Keeps node Q v sent (modifyBase node f >>= next) := by
  refine Thread.Confined.bind (keeps_setEntry (fun hnone => ?_) (fun e he => ?_))
  · have happly : v.apply "modify" f = v := by simp [Row.apply, hnone]
    rw [happly] at hfail
    exact hfail _
  · have happly : v.setFile f.fileName { e with pba := f.pba } = v.apply "modify" f := by
      simp [Row.apply, he]
    simp only [happly]
    refine keeps_getEntry (fun _ => hfail _) (fun e' _ => ?_)
    exact keeps_sortView (fun _ => hfail _) (fun _ => h)

theorem keeps_delShard {key : Option String} {next : Unit → Block α}
    (hno : Q v sent (.error .keyError)) (h : Keeps node Q v sent (next ())) :
    Keeps node Q v sent (delShard key >>= next) := by
  refine Thread.Confined.attempt_bind (fun t _ ht => ?_)
  by_cases hc : t.shardDict.contains key = true
  · simp only [hc, if_true]
    refine ⟨trivial, fun _ _ => rfl, ?_⟩
    have hrow : row { t with shardDict := t.shardDict.erase key } (some node) = v := ht
    rw [hrow]
    exact h
  · simp only [hc]
    exact hno

theorem keeps_forgetLoop {visit : Visit} {fname : String} (size left : Nat) :
    Keeps node (fun v' sent' _ => v' = v ∧ sent' = sent) v sent
      (forgetLoop visit fname size left) := by
  induction left with
  | zero =>
    refine Thread.Confined.self_bind (fun t _ ht => ?_)
    split
    · exact ⟨rfl, rfl⟩
    · exact ⟨rfl, rfl⟩
  | succ left ih =>
    refine Thread.Confined.self_bind (fun t _ ht => ?_)
    split
    · split
      · exact ⟨rfl, rfl⟩
      · split
        · exact keeps_delShard ⟨rfl, rfl⟩ ih
        · exact ih
    · exact ⟨rfl, rfl⟩

theorem keeps_deleteBase {env : Env} {visit : Visit} {P : Call → Prop}
    (h : ∀ addr ∈ v.agent,
      P ⟨addr, "delete", { fileName := f.fileName, type := f.type }⟩) :
    Keeps node (fun v' sent' _ => v' = v.apply "delete" f ∧ ∀ c ∈ sent', P c) v []
      (deleteBase env visit node f) := by
  refine Thread.Confined.attempt_bind (fun t _ ht => ?_)
  have hentry : t.fmDict.get2? node f.fileName = (v.cell f.fileName).entry := by
    rw [← ht]
    rfl
  simp only [hentry]
  cases he : (v.cell f.fileName).entry with
  | none => exact ⟨by simp [Row.apply, he], by simp⟩
  | some e =>
    have happly : v.apply "delete" f = (v.eraseFile f.fileName).eraseRaw f.fileName := by
      simp [Row.apply, he]
    refine ⟨trivial, fun j hj => row_eraseFile_of_ne t node _ hj, ?_⟩
    rw [row_eraseFile, ht]
    refine Thread.Confined.attempt_bind (fun t' _ ht' => ?_)
    have hraw : t'.rawFM.get2? node f.fileName = (v.cell f.fileName).raw := by
      show ((row t' (some node)).cell f.fileName).raw = _
      rw [ht']
      rfl
    simp only [hraw]
    cases hr : (v.cell f.fileName).raw with
    | none =>
      refine ⟨?_, by simp⟩
      have hsame : (v.raws.map (·.erase f.fileName)) = v.raws := by
        cases hv : v.raws with
        | none => rfl
        | some raws =>
          rw [Row.cell, hv] at hr
          exact congrArg some (Dict.erase_of_none hr)
      simp [happly, Row.eraseRaw, Row.eraseFile, hsame]
    | some x =>
      refine ⟨trivial, fun j hj => row_eraseRaw_of_ne t' node _ hj, ?_⟩
      rw [row_eraseRaw, ht', ← happly]
      have hpush : Keeps node (fun v' sent' _ => v' = v.apply "delete" f ∧ ∀ c ∈ sent', P c)
          (v.apply "delete" f) [] (pushAll env "delete" (fun _ =>
            .ok { fileName := f.fileName, type := f.type })) := by
        refine keeps_pushAll (by simp) (fun _ _ g hg addr haddr => ?_)
        cases hg
        exact h addr (by rwa [happly] at haddr)
      refine Thread.Confined.bind (Thread.Confined.self_bind (fun t'' _ _ => ?_))
      refine (keeps_forgetLoop _ _).mono ?_
      rintro v' sent' (err | u) ⟨rfl, rfl⟩
      · exact ⟨rfl, by simp⟩
      · exact hpush

end Base

/-! ## Shards -/

section Cells

variable (v : Row) (fname g : String)

theorem cell_setFile (e : Entry) : (v.setFile fname e).cell g =
    if fname = g then ⟨v.files.map (fun _ => e), (v.cell g).raw⟩ else v.cell g := by
  cases hv : v.files with
  | none => simp [Row.cell, Row.setFile, hv]
  | some files => by_cases hg : fname = g <;> simp [Row.cell, Row.setFile, hv, Dict.get?_set, hg]

theorem cell_setRaw (x : FilePBA) : (v.setRaw fname x).cell g =
    if fname = g then ⟨(v.cell g).entry, v.raws.map (fun _ => x)⟩ else v.cell g := by
  cases hv : v.raws with
  | none => simp [Row.cell, Row.setRaw, hv]
  | some raws => by_cases hg : fname = g <;> simp [Row.cell, Row.setRaw, hv, Dict.get?_set, hg]

theorem cell_eraseBoth : ((v.eraseFile fname).eraseRaw fname).cell g =
    if fname = g then ⟨none, none⟩ else v.cell g := by
  cases hv : v.files <;> cases hr : v.raws <;> by_cases hg : fname = g <;>
    simp [Row.cell, Row.eraseFile, Row.eraseRaw, hv, hr, Dict.get?_erase, hg]

end Cells


/-- What a message about a shard can do to the row of its node. -/
structure ShardStep (v v' : Row) : Prop where
  nodes : v'.nodes = v.nodes
  files : v'.files.isSome = v.files.isSome
  raws : v'.raws.isSome = v.raws.isSome
  cell : ∀ g, Cell.ShardStep g (v.cell g) (v'.cell g)

theorem ShardStep.refl (v : Row) : ShardStep v v := ⟨rfl, rfl, rfl, fun g => .refl g _⟩

section Shard

variable {node : String} {v : Row} {f : FilePBA} {α : Type} {fname : String} {e : Entry}
  (he : (v.cell fname).entry = some e)

include he

theorem entry_setFile_self (e' : Entry) : ((v.setFile fname e').cell fname).entry = some e' := by
  cases hv : v.files with
  | none =>
    rw [Row.cell, hv] at he
    cases he
  | some files => rw [cell_setFile, if_pos rfl, hv, Option.map_some]

theorem ShardStep.setFile (d : Dict String FilePBA) :
    ShardStep v (v.setFile fname { e with shard := d }) := by
  refine ⟨rfl, by simp [Row.setFile], rfl, fun g => ⟨?_, .inl rfl⟩⟩
  by_cases hg : fname = g
  · subst hg
    refine ⟨fun _ => d, ?_⟩
    rw [entry_setFile_self he, he]
    rfl
  · refine ⟨Entry.shard, ?_⟩
    rw [cell_setFile, if_neg hg]
    cases (v.cell g).entry <;> rfl

theorem ShardStep.publish (d : Dict String FilePBA) :
    ShardStep v ((v.setFile fname { e with shard := d }).setRaw fname
      { pba := e.pba, fileName := fname }) := by
  have hset := ShardStep.setFile he d
  refine ⟨hset.nodes, hset.files, by simp [Row.setRaw, Row.setFile], fun g =>
    ⟨(hset.cell g).entry, ?_⟩⟩
  rw [cell_setRaw]
  by_cases hg : fname = g
  · subst hg
    rw [if_pos rfl]
    cases hr : v.raws with
    | none =>
      left
      simp [Row.setFile, Row.cell, hr]
    | some raws =>
      right
      refine ⟨e, he, ?_⟩
      simp [Row.setFile, hr]
  · left
    rw [if_neg hg]
    rfl

end Shard

section ShardBranches

variable {node : String} {v : Row} {sent : List Call} {f : FilePBA} {α : Type}
  {P : Row → List Call → Prop}

/-- A new shard is entered, and its key view raises. -/
theorem keeps_createShard {next : String → Block α} {Q : Row → List Call → Except Err α → Prop}
    (hQ : ∀ v' e, ShardStep v v' → Q v' sent (.error e)) :
    Keeps node Q v sent (createShard node f >>= next) := by
  refine Thread.Confined.bind (keeps_shardOwner (hQ _ _ (.refl v)) (fun fname => ?_))
  refine keeps_setEntry (fun _ => hQ _ _ (.refl v)) (fun e he => ?_)
  refine keeps_getEntry (fun _ => hQ _ _ (.setFile he _)) (fun e' he' => ?_)
  rw [entry_setFile_self he] at he'
  cases he'
  refine keeps_sortView (fun _ => hQ _ _ (.setFile he _)) (fun hnil => ?_)
  exact absurd hnil (Dict.keys_set_ne_nil _ _ _)

theorem keeps_modifyShard {next : String → Block α} {Q : Row → List Call → Except Err α → Prop}
    (hQ : ∀ v' e, ShardStep v v' → Q v' sent (.error e)) :
    Keeps node Q v sent (modifyShard node f >>= next) := by
  refine Thread.Confined.bind (keeps_shardOwner (hQ _ _ (.refl v)) (fun fname => ?_))
  refine keeps_setEntry (fun _ => hQ _ _ (.refl v)) (fun e he => ?_)
  have hstep := fun err => hQ _ err (.setFile he (e.shard.set f.fileName f))
  refine keeps_getEntry (fun _ => hstep _) (fun e' _ => Thread.Confined.self_bind (fun t _ _ => ?_))
  cases t.fmDict.get? fname with
  | none => exact hstep _
  | some files =>
    simp only [Thread.expr_some, Thread.done_ok_bind]
    cases files.get? "shard" with
    | none => exact hstep _
    | some x => exact hstep _

theorem keeps_deleteShard {env : Env} :
    Keeps node (fun v' _ _ => ShardStep v v') v sent (deleteShard env node f) := by
  refine keeps_shardOwner (.refl v) (fun fname => ?_)
  refine keeps_setEntry (fun _ => .refl v) (fun e he => ?_)
  by_cases hc : e.shard.contains f.fileName = true
  · simp only [hc, if_true]
    refine keeps_getEntry (fun _ => .setFile he _) (fun e' he' => ?_)
    rw [entry_setFile_self he] at he'
    cases he'
    refine keeps_sortView (fun _ => .setFile he _) (fun _ => ?_)
    refine keeps_setRaw (fun _ => .setFile he _) (fun _ => ?_)
    refine (keeps_pushAll (P := fun _ => True) (fun _ _ => trivial)
      (fun _ _ _ _ _ _ => trivial)).mono ?_
    rintro v' sent' r ⟨rfl, -⟩
    exact .publish he _
  · simp only [hc]
    exact .refl v

end ShardBranches

/-! ## The handler -/

section Handler

variable {r : TChangeRequest} {first : PBA} (hp : r.filePba.pba.head? = some first)

/-- What a handler for a base file, which has found the row `v`, can tell a manager. A
`modify` tells what was published for the file before it. -/
structure Told (r : TChangeRequest) (v : Row) (c : Call) : Prop where
  addr : c.addr ∈ v.agent
  action : c.request.action = r.action
  create : r.action = "create" → c.request.filePba =
    { pba := r.filePba.pba, fileName := r.filePba.fileName, type := r.filePba.type }
  modify : r.action = "modify" → (v.cell r.filePba.fileName).raw = some c.request.filePba
  delete : r.action = "delete" → c.request.filePba =
    { fileName := r.filePba.fileName, type := r.filePba.type }

theorem keeps_try {P : Row → List Call → Prop} {node : String} {v : Row} {sent : List Call}
    {α : Type} {x : Block α} {a : α} (h : Keeps node (fun v' sent' _ => P v' sent') v sent x) :
    Keeps node (fun v' sent' _ => P v' sent') v sent (x.tryExcept (pure a)) := by
  refine Thread.Confined.tryExcept (h.mono ?_)
  rintro v' sent' (e | b) hP
  · exact hP
  · exact hP

theorem agent_apply (v : Row) (action : String) (f : FilePBA) :
    (v.apply action f).agent = v.agent := by
  unfold Row.apply
  split
  · split
    · rfl
    · split <;> rfl
  split
  · split <;> rfl
  split
  · split <;> rfl
  · rfl

theorem raw_apply_modify (v : Row) (f : FilePBA) (g : String) :
    ((v.apply "modify" f).cell g).raw = (v.cell g).raw := by
  have hne : ¬ "modify" = "create" := by decide
  rw [Row.apply, if_neg hne, if_pos rfl]
  split <;> rfl

/-- The pushes of a `create` or a `modify` of a base file. -/
theorem keeps_pushEntry (env : Env) (node : String) (v : Row) {action : String}
    {P : Call → Prop} (hP : ∀ addr ∈ v.agent, ∀ x, (v.cell r.filePba.fileName).raw = some x →
      P ⟨addr, ⟨action, x⟩⟩) :
    Keeps node (fun v' sent _ => v' = v ∧ ∀ c ∈ sent, P c) v []
      (pushAll env action (rawEntry node r.filePba.fileName) >>= fun _ =>
        pure TChangeResponse.OK) := by
  refine Thread.Confined.bind ((keeps_pushAll (P := P) ?_ ?_).mono ?_)
  · intro c hc
    cases hc
  · intro t ht f hf addr haddr
    have hread : t.rawFM.get2? node r.filePba.fileName = (v.cell r.filePba.fileName).raw := by
      rw [← ht]
      rfl
    refine hP addr haddr f ?_
    rw [rawEntry, hread] at hf
    split at hf
    · rename_i x hx
      exact hx.trans (congrArg some (Except.ok.inj hf))
    · cases hf
  · rintro v' sent (e | u) ⟨rfl, hs⟩
    · exact ⟨rfl, hs⟩
    · exact ⟨rfl, hs⟩

include hp

/-- A handler for a message about a base file keeps to the row of its node. -/
theorem confined_base (env : Env) (visit : Visit) (hb : isShard r.filePba.fileName = false)
    (v : Row) :
    Keeps first.host (fun v' sent _ => v' = v.apply r.action r.filePba ∧
      ∀ c ∈ sent, Told r v c) v [] (tChangeFile env visit r) := by
  refine keeps_try ?_
  simp only [change, hp, hb, Thread.expr_some, Thread.done_ok_bind, Bool.false_eq_true, if_false]
  split
  · rename_i ha
    rw [ha]
    refine keeps_createBase (fun e => ⟨rfl, by simp⟩) (fun hraw => ?_)
    refine keeps_pushEntry env first.host _ (fun addr haddr x hx => ?_)
    rw [agent_apply] at haddr
    cases hraw.symm.trans hx
    exact ⟨haddr, ha.symm, fun _ => rfl, fun hm => absurd (ha.symm.trans hm) (by decide),
      fun hd => absurd (ha.symm.trans hd) (by decide)⟩
  split
  · rename_i ha
    rw [ha]
    refine keeps_modifyBase (fun e => ⟨rfl, by simp⟩) ?_
    refine keeps_pushEntry env first.host _ (fun addr haddr x hx => ?_)
    rw [agent_apply] at haddr
    rw [raw_apply_modify] at hx
    exact ⟨haddr, ha.symm, fun hc => absurd (ha.symm.trans hc) (by decide), fun _ => hx,
      fun hd => absurd (ha.symm.trans hd) (by decide)⟩
  split
  · rename_i ha
    rw [ha]
    refine Thread.Confined.bind ((keeps_deleteBase (P := Told r v)
      (fun addr haddr => ?_)).mono ?_)
    · exact ⟨haddr, ha.symm, fun hc => absurd (ha.symm.trans hc) (by decide),
        fun hm => absurd (ha.symm.trans hm) (by decide), fun _ => rfl⟩
    · rintro v' sent (e | u) ⟨rfl, hs⟩
      · exact ⟨rfl, hs⟩
      · exact ⟨rfl, hs⟩
  · rename_i h1 h2 h3
    exact ⟨by simp [Row.apply, h1, h2, h3], by simp⟩

/-- A handler for a message about a shard keeps to the row of its node. -/
theorem confined_shard (env : Env) (visit : Visit) (hs : isShard r.filePba.fileName = true)
    (v : Row) :
    Keeps first.host (fun v' _ _ => ShardStep v v') v [] (tChangeFile env visit r) := by
  refine keeps_try (P := fun v' _ => ShardStep v v') ?_
  simp only [change, hp, hs, Thread.expr_some, Thread.done_ok_bind, if_true]
  split
  · exact keeps_createShard (fun v' e h => h)
  split
  · exact keeps_modifyShard (fun v' e h => h)
  split
  · refine Thread.Confined.bind (keeps_deleteShard.mono ?_)
    rintro v' sent (e | u) h
    · exact h
    · exact h
  · exact .refl v

end Handler

end Threaded

end Lba2Pba.Trace
