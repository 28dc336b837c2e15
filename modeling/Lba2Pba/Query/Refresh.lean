import Lba2Pba.Query.Server
import Lba2Pba.Query.Striped

/-!
# What the Query Agent answers, whatever runs at the same time

Between any two statements of a handler the world can change and other handlers can take
theirs. What none of them ever does is in `Later`: `FM` only grows, an entry is replaced
only by a reply that the manager gave for that file, `FMState` is replaced only by what a
walk has found. A handler of `initFM` that returns has then brought in a reply for every
file of some walk, and `getPBA` answers every range from one entry, never from two.
-/

namespace Lba2Pba.Query.Server

open Py

/-! ## What handlers do to the object -/

/-- The point where the volume is mounted. -/
def World.rootDic (w : World) : Option String :=
  match w.mount with
  | .error _ => none
  | .ok res => (Str.words res)[2]?

theorem World.mount_of_rootDic {w : World} {root : String} (h : w.rootDic = some root) :
    ∃ res, w.mount = .ok res ∧ (Str.words res)[2]? = some root := by
  rw [World.rootDic] at h
  split at h
  · cases h
  · rename_i res hmount
    exact ⟨res, hmount, h⟩

/-- What `file2PBA` gets for a file. -/
def World.reply (w : World) (root f : String) : Option (List RangedChunk) := do
  let name ← (Str.split f root)[1]?
  getPBAOf w.cmds w.nodes (subvol ++ name) volume

theorem World.reply_eq {w : World} {root f name : String}
    (h : (Str.split f root)[1]? = some name) :
    w.reply root f = getPBAOf w.cmds w.nodes (subvol ++ name) volume := by
  rw [World.reply, h]
  rfl

/-- A reply that the manager gives for the file in one of the worlds. -/
def Reported (root : String) (worlds : List World) (f : String) (data : List RangedChunk) : Prop :=
  ∃ w ∈ worlds, w.reply root f = some data

/-- `FMState` is what a walk has found. -/
def Walked (root : String) (s : Site) : Prop :=
  ∃ w ∈ s.worlds, fileState w w.depth root = .ok s.agent.FMState

/-- The volume is mounted at `root` in all worlds. -/
def Mounted (root : String) (s : Site) : Prop := ∀ w ∈ s.worlds, w.rootDic = some root

/-- The handlers of an agent whose volume stays mounted at `root` can bring it from `s`
to `s'`. -/
structure Later (root : String) (s s' : Site) : Prop where
  worlds : s.worlds <+: s'.worlds
  keys : s.agent.FM.keys <+: s'.agent.FM.keys
  entries : ∀ f data, s'.agent.FM.get? f = some data →
    s.agent.FM.get? f = some data ∨ Reported root s'.worlds f data
  state : s'.agent.FMState = s.agent.FMState ∨ Walked root s'
  subvol : s.agent.Subvol = subvol → s'.agent.Subvol = subvol
  volume : s.agent.Volume = volume → s'.agent.Volume = volume
  mounted : Mounted root s → Mounted root s'

section

variable {root f : String} {s s' s'' : Site} {data : List RangedChunk}

theorem Reported.later (h : Reported root s.worlds f data) (hs : s.worlds <+: s'.worlds) :
    Reported root s'.worlds f data := by
  obtain ⟨w, hw, hdata⟩ := h
  exact ⟨w, hs.subset hw, hdata⟩

theorem Later.refl (root : String) (s : Site) : Later root s s where
  worlds := List.prefix_refl _
  keys := List.prefix_refl _
  entries := fun _ _ h => .inl h
  state := .inl rfl
  subvol := id
  volume := id
  mounted := id

theorem Later.trans (root : String) (s s' s'' : Site) (h : Later root s s')
    (h' : Later root s' s'') : Later root s s'' where
  worlds := h.worlds.trans h'.worlds
  keys := h.keys.trans h'.keys
  entries := by
    intro f data hdata
    rcases h'.entries f data hdata with hdata | hdata
    · rcases h.entries f data hdata with hdata | hdata
      · exact .inl hdata
      · exact .inr (hdata.later h'.worlds)
    · exact .inr hdata
  state := by
    rcases h'.state with heq | hwalked
    · rcases h.state with heq' | ⟨w, hw, hstate⟩
      · exact .inl (heq.trans heq')
      · exact .inr ⟨w, h'.worlds.subset hw, by rw [heq]; exact hstate⟩
    · exact .inr hwalked
  subvol := h'.subvol ∘ h.subvol
  volume := h'.volume ∘ h.volume
  mounted := h'.mounted ∘ h.mounted

theorem now_mem_worlds (s : Site) : s.now ∈ s.worlds :=
  List.mem_append_right _ (List.mem_singleton_self _)

theorem Walked.later (h : Walked root s) (hs : Later root s s') : Walked root s' := by
  rcases hs.state with heq | hwalked
  · obtain ⟨w, hw, hstate⟩ := h
    exact ⟨w, hs.worlds.subset hw, by rw [heq]; exact hstate⟩
  · exact hwalked

/-- The file is answered by a reply of a world since the start. -/
def Fresh (root : String) (s : Site) (f : String) : Prop :=
  ∃ data, s.agent.FM.get? f = some data ∧ Reported root s.worlds f data

theorem Fresh.later (h : Fresh root s f) (hs : Later root s s') : Fresh root s' f := by
  obtain ⟨data, hdata, hreported⟩ := h
  obtain ⟨data', hdata'⟩ := Dict.mem_keys_iff.1
    (hs.keys.subset (Dict.mem_keys_iff.2 ⟨data, hdata⟩))
  refine ⟨data', hdata', ?_⟩
  rcases hs.entries f data' hdata' with hsame | hreported'
  · rw [hdata] at hsame
    cases hsame
    exact hreported.later hs.worlds
  · exact hreported'

/-! ## The single statements -/

theorem later_setFM (h : Reported root s.worlds f data) : Later root s (s.setFM f data) where
  worlds := List.prefix_refl _
  keys := by
    show s.agent.FM.keys <+: (s.agent.FM.set f data).keys
    rw [Dict.keys_set]
    split
    · exact List.prefix_refl _
    · exact List.prefix_append _ _
  entries := by
    intro g data' hdata'
    have hset : (s.agent.FM.set f data).get? g = some data' := hdata'
    rw [Dict.get?_set] at hset
    split at hset
    · rename_i hfg
      cases hset
      subst hfg
      exact .inr h
    · exact .inl hset
  state := .inl rfl
  subvol := id
  volume := id
  mounted := id

theorem later_setFMState {state : Dict String Int} {w : World} (hw : w ∈ s.worlds)
    (h : fileState w w.depth root = .ok state) : Later root s (s.setFMState state) :=
  { Later.refl root s with state := .inr ⟨w, hw, h⟩ }

theorem later_setSubvol : Later root s (s.setSubvol Server.subvol) :=
  { Later.refl root s with subvol := fun _ => rfl }

theorem later_setVolume : Later root s (s.setVolume Server.volume) :=
  { Later.refl root s with volume := fun _ => rfl }

theorem later_change {w : World} (hw : w.rootDic = some root) : Later root s (s.change w) :=
  { Later.refl root s with
    worlds := List.prefix_append _ _
    entries := fun _ _ h => .inl h
    state := .inl rfl
    mounted := by
      intro hmounted v hv
      rcases List.mem_append.1 hv with hv | hv
      · exact hmounted v hv
      · rw [List.mem_singleton.1 hv]
        exact hw }

/-! ## `initFM` and `UpdatePush` -/

/-- Some walk has found files, and all of them are fresh. -/
def Refreshed (root : String) (s : Site) : Prop :=
  ∃ w ∈ s.worlds, ∀ f ∈ w.listed root, Fresh root s f

theorem Refreshed.later (h : Refreshed root s) (hs : Later root s s') : Refreshed root s' := by
  obtain ⟨w, hw, hall⟩ := h
  exact ⟨w, hs.worlds.subset hw, fun f hf => (hall f hf).later hs⟩

/-- The loop has fetched these files. -/
structure Fetched (root : String) (done : List String) (s : Site) : Prop where
  subvol : s.agent.Subvol = Server.subvol
  volume : s.agent.Volume = Server.volume
  fresh : ∀ f ∈ done, Fresh root s f

theorem Fetched.later {done : List String} (h : Fetched root done s) (hs : Later root s s') :
    Fetched root done s' :=
  ⟨hs.subvol h.subvol, hs.volume h.volume, fun f hf => (h.fresh f hf).later hs⟩

theorem fetch_guarantees {done : List String} (h : Fetched root done s) :
    Thread.Guarantees (Later root) (fun s' sent r => match r with
      | .ok () => Fetched root (done ++ [f]) s' ∧ sent = []
      | .error _ => True) s [] (fetch root f) := by
  have hrefl := Later.refl root
  refine Thread.Guarantees.bind hrefl ?_
  refine Thread.Guarantees.expr_bind (fun _ _ _ => trivial) (fun name hname => ?_)
  refine Thread.Guarantees.self_bind hrefl (fun s₁ h₁ => ?_)
  refine Thread.Guarantees.self_bind hrefl (fun s₂ h₂ => ?_)
  refine Thread.Guarantees.self_bind hrefl (fun s₃ h₃ => ?_)
  have hpath := (h.later h₁).subvol
  have hvolume := ((h.later h₁).later h₂).volume
  rw [hpath, hvolume]
  cases hreply : getPBAOf s₃.now.cmds s₃.now.nodes (Server.subvol ++ name) Server.volume with
  | none => exact fun _ _ => trivial
  | some data =>
    intro s₄ h₄ s₅ h₅
    have hreported : Reported root s₅.worlds f data := by
      refine ⟨s₃.now, (h₄.worlds.trans h₅.worlds).subset (now_mem_worlds s₃), ?_⟩
      rw [World.reply_eq hname]
      exact hreply
    refine ⟨later_setFM hreported, fun s₆ h₆ => ⟨Fetched.later ?_ h₆, rfl⟩⟩
    have hs₅ := (((h.later h₁).later h₂).later h₃ |>.later h₄).later h₅
    refine ⟨hs₅.subvol, hs₅.volume, fun g hg => ?_⟩
    rcases List.mem_append.1 hg with hg | hg
    · exact (hs₅.fresh g hg).later (later_setFM hreported)
    · rw [List.mem_singleton.1 hg]
      exact ⟨data, Dict.get?_set_self _ _ _, hreported⟩

/-- Either `ifconfig` has failed at some moment, and then nothing was fetched. -/
theorem fetchAll_guarantees (h : Walked root s) :
    Thread.Guarantees (Later root) (fun s' sent r => match r with
      | .ok () =>
        ((∃ w ∈ s'.worlds, ∃ err, w.ifconfig = .error err) ∨ Refreshed root s') ∧ sent = []
      | .error _ => True) s [] (fetchAll root) := by
  have hrefl := Later.refl root
  refine Thread.Guarantees.self_bind hrefl (fun s₁ h₁ => ?_)
  cases hif : s₁.now.ifconfig with
  | error err =>
    exact fun s₂ h₂ =>
      ⟨.inl ⟨s₁.now, h₂.worlds.subset (now_mem_worlds s₁), err, hif⟩, rfl⟩
  | ok res =>
    refine Thread.Guarantees.expr_bind (fun _ _ _ => trivial) (fun _ _ => ?_)
    refine Thread.Guarantees.update_bind (fun s₂ h₂ => ⟨later_setSubvol, ?_⟩)
    refine Thread.Guarantees.update_bind (fun s₃ h₃ => ⟨later_setVolume, ?_⟩)
    refine Thread.Guarantees.self_bind hrefl (fun s₄ h₄ => ?_)
    -- the files of the walk behind `FMState` at this moment
    have h₃' := (h.later h₁).later h₂ |>.later later_setSubvol |>.later h₃
    obtain ⟨w, hw, hstate⟩ := (h₃'.later later_setVolume).later h₄
    have h0 : Fetched root [] s₄ :=
      ⟨h₄.subvol (h₃.subvol rfl), h₄.volume rfl, fun _ hf => absurd hf List.not_mem_nil⟩
    have hloop := Thread.Guarantees.forEach (E := fun _ _ _ => True) (l := s₄.agent.FMState.keys)
      hrefl h0 (fun _ _ _ _ _ hdone => fetch_guarantees hdone) (fun hs hdone => hdone.later hs)
    refine (hloop.reaches hrefl (Later.trans root)).mono ?_
    rintro t sent (e | ⟨⟩) ⟨hr, hlater⟩
    · trivial
    · refine ⟨.inr ⟨w, hlater.worlds.subset hw, fun f hf => ?_⟩, hr.2⟩
      exact hr.1.fresh f ((keys_fileState hstate f).2 hf)

/-- What a finished handler of `initFM` has done. -/
def InitDone (root : String) (s : Site) : Except Err Reply → Prop
  | .ok _ => (∃ w ∈ s.worlds, ∃ err, w.ifconfig = .error err) ∨ Refreshed root s
  | .error _ => True

theorem InitDone.later {r : Except Err Reply} (h : InitDone root s r) (hs : Later root s s') :
    InitDone root s' r := by
  cases r with
  | error e => trivial
  | ok reply =>
    rcases h with ⟨w, hw, herr⟩ | h
    · exact .inl ⟨w, hs.worlds.subset hw, herr⟩
    · exact .inr (h.later hs)

theorem initFM_guarantees (h : Mounted root s) :
    Thread.Guarantees (Later root) (fun s' _ r => InitDone root s' r) s [] initFM := by
  have hrefl := Later.refl root
  refine Thread.Guarantees.self_bind hrefl (fun s₁ h₁ => ?_)
  obtain ⟨res, hmount, hroot⟩ := World.mount_of_rootDic (h₁.mounted h _ (now_mem_worlds s₁))
  simp only [hmount, hroot]
  refine Thread.Guarantees.self_bind hrefl (fun s₂ h₂ => ?_)
  cases hstate : fileState s₂.now s₂.now.depth root with
  | error e => exact fun _ _ => trivial
  | ok state =>
    refine Thread.Guarantees.update_bind (fun s₃ h₃ => ?_)
    have hmem := h₃.worlds.subset (now_mem_worlds s₂)
    refine ⟨later_setFMState hmem hstate, Thread.Guarantees.bind hrefl ?_⟩
    have hwalked : Walked root (s₃.setFMState state) := ⟨s₂.now, hmem, hstate⟩
    refine (fetchAll_guarantees hwalked).mono ?_
    rintro t sent (e | ⟨⟩) hr
    · trivial
    · obtain ⟨hr, rfl⟩ := hr
      refine Thread.Guarantees.self_bind hrefl (fun s₄ h₄ s₅ h₅ => ?_)
      exact InitDone.later (r := .ok (.fm none)) (InitDone.later (r := .ok (.fm none)) hr h₄) h₅

theorem updatePush_guarantees {R : Site → Site → Prop} (refl : ∀ a, R a a)
    (hset : ∀ s s' state, R s s' → fileState s.now s.now.depth root = .ok state →
      R s' (s'.setFMState state)) (passes : Nat) (s : Site) :
    Thread.Guarantees R (fun _ _ _ => True) s [] (updatePush root passes) := by
  induction passes generalizing s with
  | zero => exact fun _ _ => trivial
  | succ passes ih =>
    refine Thread.Guarantees.self_bind refl (fun s₁ _ => ?_)
    refine Thread.Guarantees.self_bind refl (fun s₂ _ => ?_)
    cases hcur : fileState s₂.now s₂.now.depth root with
    | error e => exact fun _ _ => trivial
    | ok cur =>
      show Thread.Guarantees _ _ _ _ (ite _ _ _)
      split
      · exact ih s₂
      · refine Thread.Guarantees.self_bind refl (fun s₃ _ => ?_)
        cases hstate : fileState s₃.now s₃.now.depth root with
        | error e => exact fun _ _ => trivial
        | ok state => exact fun s₄ h₄ => ⟨hset s₃ s₄ state h₄ hstate, ih _⟩

end

/-! ## `getPBA` -/

/-- What one entry of `FM` answers. -/
def answer (entry : List RangedChunk) (start stop : Int) (acc : List Chunk) : List Chunk :=
  (entry.foldl (scanStep start stop) ⟨false, false, acc⟩).result

section

variable {R : Site → Site → Prop} {E : Site → List RangedChunk → Prop} {s₀ s : Site}
  {path : String} (start stop : Int)

/-- The loop over the keys that `FM` had when it started. As long as keys are only added
behind them, each position shows the key that it showed at the start. -/
theorem lb2pbaLoop_guarantees (refl : ∀ a, R a a) (trans : ∀ a b c, R a b → R b c → R a c)
    (hkeys : ∀ s s', R s s' → s.agent.FM.keys <+: s'.agent.FM.keys)
    (hE : ∀ t entry, R s₀ t → t.agent.FM.get? path = some entry → E t entry)
    (hlast : ∀ t t' entry, R t t' → E t entry → E t' entry) (seen rest : List String)
    (hnodup : (seen ++ rest).Nodup) (hs₀ : R s₀ s) (hs : seen ++ rest <+: s.agent.FM.keys)
    (acc : List Chunk) :
    Thread.Guarantees R (fun s' sent r => sent = [] ∧ ∃ res, r = .ok res ∧
      ((path ∉ rest ∧ res = acc) ∨
        path ∈ rest ∧ ∃ entry, E s' entry ∧ res = answer entry start stop acc)) s []
      (lb2pbaLoop path start stop (List.range' seen.length rest.length) acc) := by
  induction rest generalizing seen s acc with
  | nil => exact fun _ _ => ⟨rfl, acc, rfl, .inl ⟨List.not_mem_nil, rfl⟩⟩
  | cons g rest ih =>
    have hseen : seen ++ g :: rest = (seen ++ [g]) ++ rest := by simp
    have hlen : seen.length + 1 = (seen ++ [g]).length := by simp
    have hg : g ∉ rest := (List.nodup_cons.1 (List.nodup_append.1 hnodup).2.1).1
    rw [List.length_cons, List.range'_succ, lb2pbaLoop, hlen]
    refine Thread.Guarantees.self_bind refl (fun s₁ h₁ => ?_)
    have hs₁ := hs.trans (hkeys _ _ h₁)
    have hat : s₁.agent.FM.keys[seen.length]? = some g := by
      obtain ⟨added, hadded⟩ := hs₁
      rw [← hadded]
      simp
    rw [hat]
    rw [hseen] at hnodup
    show Thread.Guarantees _ _ _ _ (ite _ _ _)
    by_cases hpath : path = g
    · subst hpath
      rw [if_neg (by simp)]
      refine Thread.Guarantees.self_bind refl (fun s₂ h₂ => ?_)
      have hs₂ := hs₁.trans (hkeys _ _ h₂)
      have hR₂ := trans _ _ _ (trans _ _ _ hs₀ h₁) h₂
      obtain ⟨entry, hentry⟩ := Dict.mem_keys_iff.1 (hs₂.subset (by simp : path ∈ _))
      rw [hentry]
      rw [hseen] at hs₂
      refine ((ih _ hnodup hR₂ hs₂ _).reaches refl trans).mono ?_
      rintro s' sent r ⟨⟨hsent, res, hr, hres⟩, hs'⟩
      rcases hres with ⟨-, hres⟩ | ⟨hmem, -⟩
      · exact ⟨hsent, res, hr, .inr ⟨List.mem_cons_self, entry,
          hlast _ _ _ hs' (hE s₂ entry hR₂ hentry), hres⟩⟩
      · exact absurd hmem hg
    · rw [if_pos hpath]
      rw [hseen] at hs₁
      refine (ih _ hnodup (trans _ _ _ hs₀ h₁) hs₁ acc).mono ?_
      rintro s' sent r ⟨hsent, res, hr, hres⟩
      refine ⟨hsent, res, hr, ?_⟩
      rw [List.mem_cons, or_iff_right hpath]
      exact hres

/-- An answer of `LB2PBA`: from one entry, or nothing for a file that was not known at the
start. -/
def Answered (E : Site → List RangedChunk → Prop) (s₀ : Site) (path : String) (s : Site)
    (start stop : Int) (res : List Chunk) : Prop :=
  (path ∉ s₀.agent.FM.keys ∧ res = []) ∨ ∃ entry, E s entry ∧ res = answer entry start stop []

theorem getPBA_guarantees (s₀ : Site) (refl : ∀ a, R a a) (trans : ∀ a b c, R a b → R b c → R a c)
    (hkeys : ∀ s s', R s s' → s.agent.FM.keys <+: s'.agent.FM.keys)
    (hE : ∀ t entry, R s₀ t → t.agent.FM.get? path = some entry → E t entry)
    (hlast : ∀ t t' entry, R t t' → E t entry → E t' entry)
    {offsets : List (String × Int × Int)} (hnodup : (offsets.map Prod.fst).Nodup) (hs : R s₀ s)
    (data : Dict String (List Chunk)) :
    Thread.Guarantees R (fun s' _ r => ∃ d, r = .ok (.pba path d) ∧
      (∀ j, j ∉ offsets.map Prod.fst → d.get? j = data.get? j) ∧
      ∀ x ∈ offsets, ∃ res, d.get? x.1 = some res ∧
        Answered E s₀ path s' x.2.1 (x.2.1 + x.2.2) res) s [] (getPBA path offsets data) := by
  induction offsets generalizing s data with
  | nil => exact fun _ _ => ⟨data, rfl, fun _ _ => rfl, fun _ hx => absurd hx List.not_mem_nil⟩
  | cons x offsets ih =>
    obtain ⟨index, offset, length⟩ := x
    rw [List.map_cons, List.nodup_cons] at hnodup
    refine Thread.Guarantees.bind refl (Thread.Guarantees.self_bind refl (fun s₁ h₁ => ?_))
    have hR₁ := trans _ _ _ hs h₁
    have hloop := lb2pbaLoop_guarantees offset (offset + length) refl trans hkeys hE hlast []
      s₁.agent.FM.keys s₁.agent.FM.nodupKeys hR₁ (List.prefix_refl _) []
    rw [List.length_nil, ← List.range_eq_range'] at hloop
    refine (hloop.reaches refl trans).mono ?_
    rintro s₂ sent r ⟨⟨rfl, pba, rfl, hpba⟩, h₂⟩
    refine ((ih hnodup.2 (trans _ _ _ hR₁ h₂) (data.set index pba)).reaches refl trans).mono ?_
    rintro s₃ - r ⟨⟨d, rfl, hsame, hall⟩, h₃⟩
    refine ⟨d, rfl, fun j hj => ?_, fun x hx => ?_⟩
    · rw [List.map_cons, List.mem_cons, not_or] at hj
      rw [hsame j hj.2, Dict.get?_set_of_ne _ (Ne.symm hj.1)]
    · rcases List.mem_cons.1 hx with rfl | hx
      · refine ⟨pba, by rw [hsame index hnodup.1, Dict.get?_set_self], ?_⟩
        rcases hpba with ⟨hnone, rfl⟩ | ⟨-, entry, hentry, rfl⟩
        · exact .inl ⟨fun hmem => hnone ((hkeys _ _ hR₁).subset hmem), rfl⟩
        · exact .inr ⟨entry, hlast _ _ _ h₃ hentry, rfl⟩
      · exact hall x hx

end

/-! ## Runs -/

/-- The volume stays mounted at `root`, and the loops look there. -/
def Steady (root : String) (r : Nat × Request) : Prop :=
  match r.2 with
  | .change w => w.rootDic = some root
  | .updatePush rootDic _ => rootDic = root
  | _ => True

/-- What a finished handler has done or returned. -/
def Promise (root : String) (s₀ : Site) (r : Nat × Request) (s : Site) (_ : List Empty)
    (res : Except Err Reply) : Prop :=
  match r.2 with
  | .initFM => InitDone root s res
  | .getPBA fpath offsets => ∃ d, res = .ok (.pba fpath d) ∧
      ∀ x ∈ offsets.items, ∃ chunks, d.get? x.1 = some chunks ∧
        Answered (fun s entry => s₀.agent.FM.get? fpath = some entry ∨
          Reported root s.worlds fpath entry) s₀ fpath s x.2.1 (x.2.1 + x.2.2) chunks
  | _ => True

theorem serve_guarantees {root : String} {s₀ : Site} (h₀ : Mounted root s₀) (r : Nat × Request)
    (hr : Steady root r) (s : Site) (hs : Later root s₀ s) :
    Thread.Guarantees (Later root) (Promise root s₀ r) s [] (serve r) := by
  obtain ⟨n, r⟩ := r
  cases r with
  | initFM => exact initFM_guarantees (hs.mounted h₀)
  | getPBA fpath offsets =>
    have hget := getPBA_guarantees (E := fun s entry => s₀.agent.FM.get? fpath = some entry ∨
        Reported root s.worlds fpath entry) s₀ (Later.refl root) (Later.trans root)
      (fun _ _ h => h.keys) (fun t entry ht hentry => ht.entries fpath entry hentry)
      (fun t t' entry ht hentry => hentry.imp_right (fun h => h.later ht.worlds))
      offsets.nodupKeys hs ∅
    refine hget.mono ?_
    rintro s' sent res ⟨d, hres, -, hall⟩
    exact ⟨d, hres, hall⟩
  | updatePush rootDic passes =>
    obtain rfl : rootDic = root := hr
    exact updatePush_guarantees (Later.refl rootDic) (fun s s' state h hstate =>
      later_setFMState (h.worlds.subset (now_mem_worlds s)) hstate) passes s
  | change w =>
    refine Thread.Guarantees.update_bind (fun s' _ => ⟨later_change hr, fun _ _ => trivial⟩)

/-- The agent with these globals when the world is `w`. -/
def siteAt (agent : QueryAgent) (w : World) : Site := ⟨agent, [], w⟩

theorem mounted_siteAt {root : String} {agent : QueryAgent} {w : World}
    (h : w.rootDic = some root) : Mounted root (siteAt agent w) := by
  intro v hv
  rw [List.mem_singleton.1 hv]
  exact h

/-- The pools of an agent that starts with these globals in the world `w`. -/
abbrev Serves (root : String) (agent : QueryAgent) (w : World)
    (p : Pool Nat (Nat × Request) Site Empty Reply) : Prop :=
  Runs serve Prod.fst (Steady root) (siteAt agent w) p

theorem Serves.promise {root : String} {agent : QueryAgent} {w : World}
    {p : Pool Nat (Nat × Request) Site Empty Reply} (h : Serves root agent w p)
    (hw : w.rootDic = some root) :
    Later root (siteAt agent w) p.self ∧
      (∀ k x, p.live k = some x → x.request.1 = k ∧
        Thread.Guarantees (Later root) (fun _ _ _ => True) p.self x.sent x.rest) ∧
      ∀ x ∈ p.finished, Promise root (siteAt agent w) x.request p.self x.sent x.result := by
  obtain ⟨hlater, hlive, hfin⟩ := Runs.rely (Later.refl root) (Later.trans root)
    (serve_guarantees (mounted_siteAt hw)) h
  exact ⟨hlater, hlive, fun x hx => hfin x hx p.self (Later.refl root p.self)⟩

/-- The pools that the agent comes to from `p` on. -/
abbrev GoesOn (root : String) (p q : Pool Nat (Nat × Request) Site Empty Reply) : Prop :=
  Continues serve Prod.fst (Steady root) p q

/-- The requests that are taken up after `p`, under numbers that are free in it. -/
theorem GoesOn.promise {root : String} {agent : QueryAgent} {w : World}
    {p q : Pool Nat (Nat × Request) Site Empty Reply} (hp : Serves root agent w p)
    (hw : w.rootDic = some root) (h : GoesOn root p q) :
    Later root p.self q.self ∧ ∀ x ∈ q.finished.drop p.finished.length,
      p.live x.request.1 = none → Promise root p.self x.request q.self x.sent x.result := by
  obtain ⟨hlater, hlive, -⟩ := hp.promise hw
  have hrelies := Continues.rely (Later.refl root) (Later.trans root)
    (fun k x hx => (hlive k x hx).1) (fun k x hx => (hlive k x hx).2)
    (serve_guarantees (hlater.mounted (mounted_siteAt hw))) h
  obtain ⟨since, hsince, hQ⟩ := hrelies.finished
  refine ⟨hrelies.reached, fun x hx hfree => ?_⟩
  rw [hsince, List.drop_left] at hx
  exact hQ x hx q.self (Later.refl root q.self) hfree

end Lba2Pba.Query.Server
