import Lba2Pba.Manager.Service

/-!
# What one `PushPba` does

`after` is the object after a request and `pushes` the calls to the agents when
none of them raises, both without the handler (`pushPba_self`, `pushPba_sent`).

The entries are seen through `entry`, which follows the references. A created file
changes the entry of its own path by `merge`. It changes another entry only where
that is the same message, which `Unshared` excludes.
-/

namespace Lba2Pba.Manager

open Py

/-! ## The effect of each branch -/

/-- The PVC that `PushPba` takes a file for, with its directory. -/
def place (m : Manager) (fileName : String) : Option (String × String) :=
  match m.pvcInfo with
  | .error _ => none
  | .ok info =>
    if pvcOf info fileName = "" then none
    else (info.get? (pvcOf info fileName)).map (fun subDir => (pvcOf info fileName, subDir))

/-- `store`, which leaves the object alone where it raises. -/
def stored (pvc rPath : String) (f : FilePBA) (m : Manager) : Manager :=
  match m.store pvc rPath f with
  | .ok m' => m'
  | .error _ => m

/-- `forgetRaw`, which leaves the object alone where it raises. -/
def forgotten (pvc type : String) (m : Manager) : Manager :=
  match m.forgetRaw pvc type with
  | .ok m' => m'
  | .error _ => m

/-- `create` of a file of `pvc`. -/
def created (pvc subDir : String) (f : FilePBA) (m : Manager) : Manager :=
  match relPath subDir f.fileName with
  | none => m.keepRaw f
  | some n => (m.keepRaw f).stored pvc n { f with fileName := n }

/-- `del self.FM[pvcName][rPath]`. -/
def eraseEntry (pvc rPath : String) (m : Manager) : Manager :=
  { m with FM := m.FM.erase2 pvc rPath }

/-- `delete` of a file of `pvc`. -/
def deleted (pvc subDir : String) (f : FilePBA) (m : Manager) : Manager :=
  match relPath subDir f.fileName with
  | none => m
  | some n => if m.FM.contains pvc then (m.eraseEntry pvc n).forgotten pvc f.type else m

/-- The object after a request. -/
def after (r : FMPushPbaRequest) (m : Manager) : Manager :=
  match m.place r.filePba.fileName with
  | none => m
  | some (pvc, subDir) =>
    if r.action = "create" then m.created pvc subDir r.filePba
    else if r.action = "delete" then m.deleted pvc subDir r.filePba
    else m

/-- The agents of a PVC. -/
def agents (m : Manager) (pvc : String) : List String := (m.QAs.get? pvc).getD []

/-- The calls of a `create`. -/
def createPushes (pvc subDir : String) (f : FilePBA) (m : Manager) : List Call :=
  match relPath subDir f.fileName with
  | none => []
  | some n =>
    match (m.keepRaw f).store pvc n { f with fileName := n } with
    | .error _ => []
    | .ok m' =>
      match entryAt pvc n m' with
      | .error _ => []
      | .ok e => (m.agents pvc).map (fun a => ⟨a, ⟨"create", e⟩⟩)

/-- The calls of a `delete`. -/
def deletePushes (pvc subDir : String) (f : FilePBA) (m : Manager) : List Call :=
  match relPath subDir f.fileName with
  | none => []
  | some n =>
    if m.FM.contains pvc then
      match (m.eraseEntry pvc n).forgetRaw pvc f.type with
      | .error _ => []
      | .ok _ => (m.agents pvc).map (fun a => ⟨a, ⟨"delete", { f with fileName := n }⟩⟩)
    else []

/-- The calls of a request, if none of them raises. -/
def pushes (r : FMPushPbaRequest) (m : Manager) : List Call :=
  match m.place r.filePba.fileName with
  | none => []
  | some (pvc, subDir) =>
    if r.action = "create" then m.createPushes pvc subDir r.filePba
    else if r.action = "delete" then m.deletePushes pvc subDir r.filePba
    else []

theorem after_create {m : Manager} {f : FilePBA} {pvc subDir : String}
    (h : m.place f.fileName = some (pvc, subDir)) :
    m.after ⟨"create", f⟩ = m.created pvc subDir f := by
  simp only [after, h, if_true]

theorem after_delete {m : Manager} {f : FilePBA} {pvc subDir : String}
    (h : m.place f.fileName = some (pvc, subDir)) :
    m.after ⟨"delete", f⟩ = m.deleted pvc subDir f := by
  have hne : ¬ ("delete" = "create") := by decide
  simp only [after, h, if_neg hne, if_true]

theorem after_modify (m : Manager) (f : FilePBA) : m.after ⟨"modify", f⟩ = m := by
  unfold after
  split
  · rfl
  · simp

/-! ## The parts that stay -/

/-- Apart from the messages and the entries, nothing changes. -/
structure Frozen (m m' : Manager) : Prop where
  QAs : m'.QAs = m.QAs
  pvcInfo : m'.pvcInfo = m.pvcInfo
  keys : m'.FM.keys = m.FM.keys

theorem Frozen.refl (m : Manager) : Frozen m m := ⟨rfl, rfl, rfl⟩

theorem Frozen.trans {m m' m'' : Manager} (h : Frozen m m') (h' : Frozen m' m'') : Frozen m m'' :=
  ⟨h'.QAs.trans h.QAs, h'.pvcInfo.trans h.pvcInfo, h'.keys.trans h.keys⟩

theorem Frozen.agents {m m' : Manager} (h : Frozen m m') (pvc : String) :
    m'.agents pvc = m.agents pvc := by
  rw [Manager.agents, Manager.agents, h.QAs]

section Frozen

variable (pvc n : String) (f : FilePBA) (m : Manager)

theorem frozen_setEntry : Frozen m (m.setEntry pvc n f) := ⟨rfl, rfl, Dict.keys_set2 _ _ _ _⟩

theorem frozen_keepRaw : Frozen m (m.keepRaw f) := ⟨rfl, rfl, rfl⟩

/-- What `replicate` does where it returns. -/
theorem replicate_cases {m' : Manager} (h : m.replicate pvc n f = .ok m') :
    ∃ first files, f.pba.head? = some first ∧ m.FM.get? pvc = some files ∧
      ((files.get? n = none ∧ m' = m.setEntry pvc n
        { rPba := [⟨f.pba, first.host⟩], fileName := n, volName := f.volName, type := f.type }) ∨
      ∃ ref, files.get? n = some ref ∧ m' = m.addReplica ref ⟨f.pba, first.host⟩) := by
  unfold replicate at h
  split at h
  · cases h
  · rename_i first hfirst
    split at h
    · cases h
    · rename_i files hfiles
      refine ⟨first, files, hfirst, hfiles, ?_⟩
      simp only at h
      split at h
      · rename_i hn
        exact .inl ⟨hn, (Except.ok.inj h).symm⟩
      · rename_i ref hn
        exact .inr ⟨ref, hn, (Except.ok.inj h).symm⟩

/-- What `store` does where it returns: nothing, a new entry, or one more replica. -/
theorem store_cases {m' : Manager} (h : m.store pvc n f = .ok m') :
    m' = m ∨ (pvc ∈ m.FM.keys ∧ ∃ e, m' = m.setEntry pvc n e) ∨
      ∃ ref r, m.FM.get2? pvc n = some ref ∧ m' = m.addReplica ref r := by
  unfold store at h
  split at h
  · split at h
    · cases h
    · rename_i files hfiles
      cases h
      exact .inr (.inl ⟨Dict.mem_keys_iff.2 ⟨files, hfiles⟩, f, rfl⟩)
  · split at h
    · obtain ⟨first, files, -, hfiles, ⟨-, rfl⟩ | ⟨ref, href, rfl⟩⟩ := replicate_cases pvc n f m h
      · exact .inr (.inl ⟨Dict.mem_keys_iff.2 ⟨files, hfiles⟩, _, rfl⟩)
      · exact .inr (.inr ⟨ref, _, (Dict.get2?_of_get? hfiles).trans href, rfl⟩)
    · cases h
      exact .inl rfl

theorem stored_cases : m.stored pvc n f = m ∨
    (pvc ∈ m.FM.keys ∧ ∃ e, m.stored pvc n f = m.setEntry pvc n e) ∨
      ∃ ref r, m.FM.get2? pvc n = some ref ∧ m.stored pvc n f = m.addReplica ref r := by
  unfold stored
  split
  · rename_i m' h
    exact store_cases pvc n f m h
  · exact .inl rfl

theorem frozen_store {m' : Manager} (h : m.store pvc n f = .ok m') : Frozen m m' := by
  obtain rfl | ⟨-, e, rfl⟩ | ⟨ref, r, -, rfl⟩ := store_cases pvc n f m h
  · exact Frozen.refl _
  · exact frozen_setEntry _ _ _ _
  · exact ⟨rfl, rfl, rfl⟩

theorem frozen_stored : Frozen m (m.stored pvc n f) := by
  unfold stored
  split
  · rename_i m' h
    exact frozen_store pvc n f m h
  · exact Frozen.refl m

theorem frozen_created (subDir : String) : Frozen m (m.created pvc subDir f) := by
  unfold created
  split
  · exact frozen_keepRaw f m
  · exact (frozen_keepRaw f m).trans (frozen_stored _ _ _ _)

/-- Only the list `rawFM` is changed when a message is forgotten. -/
theorem forgotten_eq (type : String) : ∃ raw, m.forgotten pvc type = { m with rawFM := raw } ∧
    ∀ ref ∈ raw, ref ∈ m.rawFM := by
  unfold forgotten forgetRaw
  split
  · rename_i m' h
    split at h
    · cases h
      refine ⟨_, rfl, fun ref hr => ?_⟩
      rw [popLast, List.mem_reverse] at hr
      exact List.mem_reverse.1 (List.mem_of_mem_eraseP hr)
    · refine ⟨m.rawFM, ?_, fun _ hr => hr⟩
      split at h
      · split at h
        · cases h
        · cases h
          rfl
      · cases h
        rfl
  · exact ⟨m.rawFM, rfl, fun _ hr => hr⟩

theorem frozen_deleted (subDir : String) : Frozen m (m.deleted pvc subDir f) := by
  unfold deleted
  split
  · exact Frozen.refl m
  · split
    · rename_i n _ _
      obtain ⟨raw, hraw, -⟩ := forgotten_eq pvc (m.eraseEntry pvc n) f.type
      rw [hraw]
      exact ⟨rfl, rfl, Dict.keys_erase2 _ _ _⟩
    · exact Frozen.refl m

theorem frozen_after (r : FMPushPbaRequest) : Frozen m (m.after r) := by
  unfold after
  split
  · exact Frozen.refl m
  · split
    · exact frozen_created _ _ _ _
    · split
      · exact frozen_deleted _ _ _ _
      · exact Frozen.refl m

end Frozen

/-! ## The handler -/

section Handler

variable (env : Env) (pvc subDir : String) (f : FilePBA) (s : Frame Manager Call)

theorem pushAgents_self (action : String) (g : Manager → Except Err FilePBA) :
    ((pushAgents env pvc action g).run s).2.self = s.self := by
  unfold pushAgents
  rw [Exec.run_self_bind]
  refine Exec.forEach_self (fun addr t => ?_) _ s
  rw [Exec.run_self_bind]
  cases g t.self <;> rfl

theorem pushCreate_self :
    ((pushCreate env pvc subDir f).run s).2.self = s.self.created pvc subDir f := by
  unfold pushCreate created stored
  rw [Exec.run_update_bind]
  cases hn : relPath subDir f.fileName with
  | none => rfl
  | some n =>
    rw [Exec.expr_some, Exec.run_pure_bind]
    cases hs : (s.self.keepRaw f).store pvc n { f with fileName := n } with
    | error e =>
      rw [Exec.run_attempt_bind_error hs]
      simp only [hs]
    | ok m' =>
      rw [Exec.run_attempt_bind_ok hs, pushAgents_self]
      simp only [hs]

theorem pushModify_run :
    ((pushModify pvc subDir f).run s).2 = s := by
  unfold pushModify
  cases relPath subDir f.fileName with
  | none => rfl
  | some n =>
    rw [Exec.expr_some, Exec.run_pure_bind, Exec.run_self_bind]
    split
    · cases s.self.FM.get2? pvc n <;> rfl
    · split
      · cases f.pba.head? with
        | none => rfl
        | some first =>
          cases s.self.FM.get2? pvc n with
          | none => rfl
          | some ref =>
            rw [Exec.expr_some, Exec.run_pure_bind, Exec.expr_some, Exec.run_pure_bind]
            split <;> rfl
      · rfl

theorem pushDelete_self :
    ((pushDelete env pvc subDir f).run s).2.self = s.self.deleted pvc subDir f := by
  unfold pushDelete deleted forgotten
  cases hn : relPath subDir f.fileName with
  | none => rfl
  | some n =>
    rw [Exec.expr_some, Exec.run_pure_bind, Exec.run_self_bind]
    cases hp : s.self.FM.get? pvc with
    | none => simp [Dict.contains, hp]
    | some files =>
      simp only [Dict.contains, hp, Exec.expr_some, Exec.run_pure_bind, Exec.run_update_bind,
        Option.isSome_some, if_true]
      cases hs : (s.self.eraseEntry pvc n).forgetRaw pvc f.type with
      | error e => rw [Exec.run_attempt_bind_error hs]; rfl
      | ok m' => rw [Exec.run_attempt_bind_ok hs, pushAgents_self]

/-- `PushPba` acts on the file of the PVC that `place` finds. -/
theorem pushPba_run (r : FMPushPbaRequest) :
    ((pushPba env r).run s).2 = match s.self.place r.filePba.fileName with
      | none => s
      | some (pvc, subDir) => ((pushFor env r pvc subDir).run s).2 := by
  unfold pushPba place
  rw [Exec.run_self_bind]
  cases s.self.pvcInfo with
  | error res => rfl
  | ok info =>
    simp only
    split
    · rfl
    · cases info.get? (pvcOf info r.filePba.fileName) with
      | none => rfl
      | some subDir =>
        rw [Exec.expr_some, Exec.run_pure_bind, Exec.run_bind, Option.map_some]
        simp only
        rcases (pushFor env r (pvcOf info r.filePba.fileName) subDir).run s with ⟨_ | _, s'⟩ <;> rfl

/-- The reply of `PushPba` for a file that it takes. -/
theorem pushPba_reply (r : FMPushPbaRequest)
    (h : s.self.place r.filePba.fileName = some (pvc, subDir)) :
    ((pushPba env r).run s).1 =
      ((pushFor env r pvc subDir).run s).1.map (fun _ => ⟨"OK", "0"⟩) := by
  unfold place at h
  unfold pushPba
  rw [Exec.run_self_bind]
  cases hinfo : s.self.pvcInfo with
  | error res => simp [hinfo] at h
  | ok info =>
    simp only [hinfo] at h
    split at h
    · cases h
    · rename_i hne
      obtain ⟨d, hd, he⟩ := Option.map_eq_some_iff.1 h
      cases he
      simp only [if_neg hne, hd]
      rw [Exec.expr_some, Exec.run_pure_bind, Exec.run_bind]
      rcases (pushFor env r (pvcOf info r.filePba.fileName) subDir).run s with ⟨_ | _, s'⟩ <;> rfl

/-- The object after `PushPba`, whatever the agents do. -/
theorem pushPba_self (r : FMPushPbaRequest) :
    ((pushPba env r).run s).2.self = s.self.after r := by
  rw [pushPba_run, after]
  cases s.self.place r.filePba.fileName with
  | none => rfl
  | some x =>
    obtain ⟨pvc, subDir⟩ := x
    simp only [pushFor]
    split
    · exact pushCreate_self env pvc subDir r.filePba s
    · split
      · rename_i hm
        rw [pushModify_run, if_neg (by rw [hm]; decide)]
      · split
        · exact pushDelete_self env pvc subDir r.filePba s
        · rfl

theorem pushAgents_error {action : String} {g : Manager → Except Err FilePBA} {e : Err}
    {m : Manager} (hg : g m = .error e) (sent : List Call) :
    ((pushAgents env pvc action g).run ⟨m, sent⟩).2.sent = sent := by
  unfold pushAgents
  rw [Exec.run_self_bind]
  cases (m.QAs.get? pvc).getD [] with
  | nil => rfl
  | cons addr rest =>
    rw [Exec.forEach_raise (e := e)]
    rw [Exec.run_self_bind, hg]
    rfl

variable {env} (dead : String → Bool) (hr : ∀ n w, env.raises n w = dead w.addr)

include hr

/-- The agents are called up to the first one that raises. -/
theorem pushAgents_run {action : String} {g : Manager → Except Err FilePBA} {x : FilePBA}
    {m : Manager} (hg : g m = .ok x) :
    (pushAgents env pvc action g).run ⟨m, []⟩ =
      (if ((m.agents pvc).map (fun a => (⟨a, ⟨action, x⟩⟩ : Call))).any (fun c => dead c.addr)
        then .error .rpcError else .ok (),
      ⟨m, Exec.upTo (fun c => dead c.addr)
        ((m.agents pvc).map (fun a => ⟨a, ⟨action, x⟩⟩))⟩) := by
  unfold pushAgents
  rw [Exec.run_self_bind]
  refine Exec.forEach_call_upTo hr _ (fun addr _ t ht => ?_)
  rw [Exec.run_self_bind, ht, hg]

theorem pushCreate_sent (m : Manager) :
    ((pushCreate env pvc subDir f).run ⟨m, []⟩).2.sent =
      Exec.upTo (fun c => dead c.addr) (m.createPushes pvc subDir f) := by
  unfold pushCreate createPushes
  rw [Exec.run_update_bind]
  cases hn : relPath subDir f.fileName with
  | none => rfl
  | some n =>
    rw [Exec.expr_some, Exec.run_pure_bind]
    cases hs : (m.keepRaw f).store pvc n { f with fileName := n } with
    | error e =>
      rw [Exec.run_attempt_bind_error hs]
      simp only [hs]
      rfl
    | ok m' =>
      rw [Exec.run_attempt_bind_ok hs]
      have hagents : m'.agents pvc = m.agents pvc := by
        rw [agents, (frozen_store _ _ _ _ hs).QAs]
        rfl
      simp only [hs]
      cases he : entryAt pvc n m' with
      | error e =>
        rw [pushAgents_error env pvc he]
        rfl
      | ok x => rw [pushAgents_run pvc dead hr he, hagents]

theorem pushDelete_sent (m : Manager) :
    ((pushDelete env pvc subDir f).run ⟨m, []⟩).2.sent =
      Exec.upTo (fun c => dead c.addr) (m.deletePushes pvc subDir f) := by
  unfold pushDelete deletePushes
  cases hn : relPath subDir f.fileName with
  | none => rfl
  | some n =>
    rw [Exec.expr_some, Exec.run_pure_bind, Exec.run_self_bind]
    cases hp : m.FM.get? pvc with
    | none =>
      simp only [Dict.contains, hp]
      rfl
    | some files =>
      simp only [Dict.contains, hp, Exec.expr_some, Exec.run_pure_bind, Exec.run_update_bind,
        Option.isSome_some, if_true]
      cases hs : (m.eraseEntry pvc n).forgetRaw pvc f.type with
      | error e =>
        rw [Exec.run_attempt_bind_error hs]
        rfl
      | ok m' =>
        have hforgot : m' = (m.eraseEntry pvc n).forgotten pvc f.type := by
          rw [forgotten, hs]
        obtain ⟨raw, hraw, -⟩ := forgotten_eq pvc (m.eraseEntry pvc n) f.type
        rw [Exec.run_attempt_bind_ok hs, pushAgents_run pvc dead hr rfl, hforgot, hraw]
        rfl

/-- The calls of `PushPba`, when the calls to some addresses raise. -/
theorem pushPba_sent_upTo (r : FMPushPbaRequest) (m : Manager) :
    ((pushPba env r).run ⟨m, []⟩).2.sent = Exec.upTo (fun c => dead c.addr) (m.pushes r) := by
  rw [pushPba_run, pushes]
  simp only
  cases m.place r.filePba.fileName with
  | none => rfl
  | some x =>
    obtain ⟨pvc, subDir⟩ := x
    simp only [pushFor]
    split
    · exact pushCreate_sent pvc subDir r.filePba dead hr m
    · split
      · rename_i hm
        rw [pushModify_run, if_neg (by rw [hm]; decide)]
        rfl
      · split
        · exact pushDelete_sent pvc subDir r.filePba dead hr m
        · rfl

omit dead hr in
/-- The calls of `PushPba`, if none of them raises. -/
theorem pushPba_sent (hr : ∀ n w, env.raises n w = false) (r : FMPushPbaRequest) (m : Manager) :
    ((pushPba env r).run ⟨m, []⟩).2.sent = m.pushes r := by
  rw [pushPba_sent_upTo (fun _ => false) hr]
  exact Exec.upTo_of_forall (fun _ _ => rfl)

end Handler

end Lba2Pba.Manager
