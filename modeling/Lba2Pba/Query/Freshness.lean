import Lba2Pba.Query.Refresh

/-!
# How fresh the answers of the Query Agent are

Since `UpdatePush` never asks the manager, `FM` is as old as the last `initFM` for each
file: without one, nothing that happens outside is ever seen (`unrefreshed_unchanged`).
Once an `initFM` has returned, the files that it has listed are translated exactly as
long as their layout stays as it is, whatever else is running (`refreshed_then_exact`).
If two of them overlap, the older one can put an outdated layout over the newer one
(`overlap_rolls_back`).
-/

namespace Lba2Pba.Query.Server

open Py Fiemap

/-! ## A handler alone -/

/-- A world in which `initFM` brings in all files. -/
structure Ready (root : String) (state : Dict String Int) (w : World) : Prop where
  mounted : w.rootDic = some root
  walked : fileState w w.depth root = .ok state
  ifconfig : ∃ res ip, w.ifconfig = .ok res ∧ (Str.words res)[1]? = some ip
  replies : ∀ f ∈ state.keys, ∃ data, w.reply root f = some data

/-- `FM` after the loop over these files in the world `w`. -/
def World.fetched (w : World) (root : String) (files : List String)
    (FM : Dict String (List RangedChunk)) : Dict String (List RangedChunk) :=
  files.foldl (fun FM f => FM.set f ((w.reply root f).getD [])) FM

theorem get?_fetched {w : World} {root f : String} {files : List String} {data : List RangedChunk}
    (hf : f ∈ files) (h : w.reply root f = some data) (FM : Dict String (List RangedChunk)) :
    (w.fetched root files FM).get? f = some data := by
  have hkeep : ∀ (files : List String) (FM : Dict String (List RangedChunk)),
      FM.get? f = some data → (w.fetched root files FM).get? f = some data := by
    intro files
    induction files with
    | nil => exact fun _ hFM => hFM
    | cons g files ih =>
      intro FM hFM
      refine ih _ ?_
      rw [Dict.get?_set]
      split
      · rename_i hgf
        rw [hgf, h]
        rfl
      · exact hFM
  induction files generalizing FM with
  | nil => cases hf
  | cons g files ih =>
    rcases List.mem_cons.1 hf with rfl | hf
    · refine hkeep files _ ?_
      rw [Dict.get?_set_self, h]
      rfl
    · exact ih hf _

section Alone

variable {root f : String} {s : Site} {state : Dict String Int}

theorem fetch_run {data : List RangedChunk} (hsub : s.agent.Subvol = subvol)
    (hvol : s.agent.Volume = volume) (h : s.now.reply root f = some data) :
    (fetch root f).run ⟨s, []⟩ = (.ok (), ⟨s.setFM f data, []⟩) := by
  obtain ⟨name, hname, hdata⟩ := Option.bind_eq_some_iff.1 h
  simp only [fetch, file2PBA, hname, Thread.expr_some, Thread.done_ok_bind]
  show ((Thread.expr .valueError (getPBAOf s.now.cmds s.now.nodes (s.agent.Subvol ++ name)
    s.agent.Volume)) >>= fun pba => Thread.update (Site.setFM f pba)).run ⟨s, []⟩ = _
  rw [hsub, hvol, hdata]
  rfl

/-- The agent with another `FM`. -/
def Site.withFM (FM : Dict String (List RangedChunk)) (s : Site) : Site :=
  { s with agent := { s.agent with FM := FM } }

theorem forEach_fetch_run {files : List String} (hsub : s.agent.Subvol = subvol)
    (hvol : s.agent.Volume = volume) (h : ∀ f ∈ files, ∃ data, s.now.reply root f = some data) :
    (Thread.forEach files (fetch root)).run ⟨s, []⟩ =
      (.ok (), ⟨s.withFM (s.now.fetched root files s.agent.FM), []⟩) := by
  induction files generalizing s with
  | nil => rfl
  | cons f files ih =>
    obtain ⟨data, hdata⟩ := h f List.mem_cons_self
    have hrest := ih (s := s.setFM f data) hsub hvol
      (fun g hg => h g (List.mem_cons_of_mem f hg))
    rw [Thread.forEach, Thread.run_bind, fetch_run hsub hvol hdata]
    show (Thread.forEach files (fetch root)).run ⟨s.setFM f data, []⟩ = _
    have hcons : s.now.fetched root (f :: files) s.agent.FM =
        s.now.fetched root files (s.agent.FM.set f data) := by
      rw [World.fetched, List.foldl_cons, hdata]
      rfl
    rw [hrest, hcons]
    rfl

/-- The globals after `initFM` in the world `w`. -/
def QueryAgent.refreshed (a : QueryAgent) (w : World) (root : String) (state : Dict String Int) :
    QueryAgent :=
  ⟨state, w.fetched root state.keys a.FM, subvol, volume⟩

theorem now_setFMState : (s.setFMState state).now = s.now := rfl

theorem initFM_run (h : Ready root state s.now) :
    initFM.run ⟨s, []⟩ = (.ok (.fm (some (s.agent.refreshed s.now root state).FM)),
      ⟨{ s with agent := s.agent.refreshed s.now root state }, []⟩) := by
  obtain ⟨mountText, hmount, hroot⟩ := World.mount_of_rootDic h.mounted
  obtain ⟨res, ip, hif, hip⟩ := h.ifconfig
  -- the object when the loop starts
  let s' := ((s.setFMState state).setSubvol subvol).setVolume volume
  have hloop : (Thread.forEach s'.agent.FMState.keys (fetch root)).run ⟨s', []⟩ =
      (.ok (), ⟨s'.withFM (s'.now.fetched root state.keys s'.agent.FM), []⟩) :=
    forEach_fetch_run rfl rfl h.replies
  simp only [initFM, fetchAll, Thread.run_bind, Thread.run, Thread.self, Thread.update, result,
    hmount, hroot, Thread.expr_some, h.walked, now_setFMState, hif, hip, id]
  rw [hloop]
  rfl

/-- One pass of `UpdatePush` that takes notice of a change. -/
theorem updatePush_run (h : fileState s.now s.now.depth root = .ok state)
    (hne : sameItems s.agent.FMState state = false) :
    (updatePush root 1).run ⟨s, []⟩ = (.ok .ended, ⟨s.setFMState state, []⟩) := by
  simp [updatePush, Thread.run_bind, Thread.run, Thread.self, Thread.update, result, h, hne]

end Alone

/-! ### A volume with one file -/

/-- The file on its brick. -/
def fullPath : String := "/b2" ++ "/" ++ (subvol ++ "/f")

def unsharded : ShardedFile where
  base := brick22
  uuid := "5f-01"
  shards := []
  gfid_ne := uuid_ne_nil
  nodup := List.nodup_nil

/-- The volume is mounted at `/mnt` and has the file `f`, which is the `k`-th block. -/
def oneFileWorld (k : Nat) : World where
  mount := .ok "n2:/k8s-pv1 on /mnt type fuse.glusterfs"
  ifconfig := .ok "inet 10.0.0.9 netmask 255.255.255.0"
  walk := fun dic => if dic = "/mnt" then [("/mnt", [], ["f", ".f.swp"])] else []
  getmtime := fun _ => .ok 0
  depth := 1000
  cmds :=
    { volumeInfo := fun _ => .ok (volumeText "Number of Bricks: 1" [brick22])
      ls := fun _ path => if path = fullPath then .ok fullPath else .error "No such file"
      getfattr := fun _ _ => .ok "# file: b2/f\ntrusted.gfid=0x5f01\n" }
  nodes := blockHost "n2" (fun _ => k)

theorem stores_oneFile (k : Nat) :
    Stores (oneFileWorld k).cmds volume (subvol ++ "/f") [brick22] unsharded where
  info := ⟨"Number of Bricks: 1", by decide, rfl⟩
  base_mem := List.mem_cons_self
  shard_mem := fun _ h => absurd h List.not_mem_nil
  base_only := by
    intro b hb
    obtain rfl := List.mem_singleton.1 hb
    have hls : (oneFileWorld k).cmds.ls "n2" fullPath = .ok fullPath := by
      simp only [oneFileWorld, if_true]
    exact ⟨fun _ => rfl, fun _ => congrArg Except.isOk hls⟩
  gfid := by
    have hgfid : gfidOf "# file: b2/f\ntrusted.gfid=0x5f01\n" =
        some (Str.remove "5f-01" '-') := by decide +kernel
    exact ⟨_, rfl, hgfid⟩
  lists := by
    intro b hb
    obtain rfl := List.mem_singleton.1 hb
    have hne : "/b2" ++ "/.shard/" ≠ fullPath := by decide +kernel
    have hls : (oneFileWorld k).cmds.ls "n2" ("/b2" ++ "/.shard/") = .error "No such file" := by
      simp only [oneFileWorld]
      exact if_neg hne
    exact .inl ⟨rfl, _, hls⟩

theorem striped_oneFile (k : Nat) : Striped (oneFileWorld k).nodes (subvol ++ "/f")
    unsharded 4096 0 (fun _ => "n2") (fun _ => blockPiece k) where
  numbers := .refl _
  hosts := ⟨rfl, fun _ h => absurd h List.not_mem_nil⟩
  base := holdsPiece_blockHost rfl
  shards := fun _ h => absurd h List.not_mem_nil
  packed := fun _ _ => ⟨fun _ => rfl, trivial⟩
  full := fun _ _ => rfl
  last := Nat.le_refl _

theorem pathsFollow_unsharded : PathsFollow [brick22] unsharded :=
  ⟨by decide, fun _ h => absurd h List.not_mem_nil, fun _ h => absurd h List.not_mem_nil⟩

theorem name_oneFile : (Str.split "/mnt/f" "/mnt")[1]? = some "/f" := by decide +kernel

/-- The entry of the file. -/
def oneFileEntry (k : Nat) : List RangedChunk :=
  attachRange 0 ((List.range 1).flatMap (pieceChunks (fun _ => "n2") (fun _ => blockPiece k)))

theorem reply_oneFile (k : Nat) :
    (oneFileWorld k).reply "/mnt" "/mnt/f" = some (oneFileEntry k) := by
  rw [World.reply_eq name_oneFile, getPBAOf_eq (stores_oneFile _) pathsFollow_unsharded,
    (striped_oneFile k).getPBA_eq, oneFileEntry]

theorem ready_oneFile (k : Nat) :
    Ready "/mnt" ((∅ : Dict String Int).set "/mnt/f" 0) (oneFileWorld k) where
  mounted := by
    have hwords : (Str.words "n2:/k8s-pv1 on /mnt type fuse.glusterfs")[2]? = some "/mnt" := by
      decide +kernel
    exact hwords
  walked := by
    have hjoin : Path.join "/mnt" "f" = "/mnt/f" := by decide
    have hplain : Str.isIn ".swp" "f" = false := by decide
    have hswp : Str.isIn ".swp" ".f.swp" = true := by decide
    show fileState (oneFileWorld k) (999 + 1) "/mnt" = _
    rw [fileState]
    simp [oneFileWorld, hplain, hswp, hjoin, bind, Except.bind, pure, Except.pure]
  ifconfig := by
    have hwords : (Str.words "inet 10.0.0.9 netmask 255.255.255.0")[1]? = some "10.0.0.9" := by
      decide +kernel
    exact ⟨_, _, rfl, hwords⟩
  replies := by
    intro f hf
    obtain rfl := List.mem_singleton.1 hf
    exact ⟨_, reply_oneFile k⟩

/-! ## Without `initFM` -/

theorem lb2pba_of_not_mem {FM : Dict String (List RangedChunk)} {path : String}
    (h : path ∉ FM.keys) (sector length : Int) : Query.lb2pba FM path sector length = [] := by
  have hskip : ∀ l : List (String × List RangedChunk), path ∉ l.map Prod.fst →
      l.foldl (fun result x =>
        if path ≠ x.1 then result
        else (x.2.foldl (scanStep sector (sector + length)) ⟨false, false, result⟩).result) [] =
          [] := by
    intro l
    induction l with
    | nil => exact fun _ => rfl
    | cons x l ih =>
      intro hl
      rw [List.map_cons, List.mem_cons, not_or] at hl
      rw [List.foldl_cons, if_pos hl.1]
      exact ih hl.2
  exact hskip FM.items h

/-- **Only `initFM` changes what is answered.** In every interleaving of `getPBA`,
`UpdatePush` and changes of the world, without an `initFM`, each answer is the one that
the `FM` of the start gives. -/
theorem unrefreshed_unchanged (agent : QueryAgent) (w : World)
    (p : Pool Nat (Nat × Request) Site Empty Reply)
    (h : Runs serve Prod.fst (fun r => r.2 ≠ .initFM) (siteAt agent w) p) :
    p.self.agent.FM = agent.FM ∧ ∀ y ∈ p.finished, ∀ fpath offsets,
      y.request.2 = .getPBA fpath offsets → ∃ d, y.result = .ok (.pba fpath d) ∧
        ∀ index offset length, offsets.get? index = some (offset, length) →
          d.get? index = some (Query.lb2pba agent.FM fpath offset length) := by
  have refl : ∀ s : Site, s.agent.FM = s.agent.FM := fun _ => rfl
  have trans : ∀ a b c : Site, b.agent.FM = a.agent.FM → c.agent.FM = b.agent.FM →
      c.agent.FM = a.agent.FM := fun _ _ _ hab hbc => hbc.trans hab
  have hserve : ∀ r, r.2 ≠ .initFM → ∀ s : Site, s.agent.FM = agent.FM →
      Thread.Guarantees (fun s s' => s'.agent.FM = s.agent.FM)
        (fun _ _ res => ∀ fpath offsets, r.2 = .getPBA fpath offsets →
          ∃ d, res = .ok (.pba fpath d) ∧ ∀ index offset length,
            offsets.get? index = some (offset, length) →
              d.get? index = some (Query.lb2pba agent.FM fpath offset length)) s [] (serve r) := by
    rintro ⟨n, r⟩ hr s hs
    cases r with
    | initFM => exact absurd rfl hr
    | getPBA fpath offsets =>
      have hget := getPBA_guarantees (E := fun _ entry => agent.FM.get? fpath = some entry)
        (siteAt agent w) refl trans (fun s s' h => by rw [h])
        (fun t entry ht hentry => by rw [← hentry]; exact congrArg (·.get? fpath) ht.symm)
        (fun _ _ _ _ h => h) offsets.nodupKeys hs ∅
      refine hget.mono ?_
      rintro s' sent res ⟨d, rfl, -, hall⟩ _ _ ⟨⟩
      refine ⟨d, rfl, fun index offset length hindex => ?_⟩
      obtain ⟨chunks, hchunks, hanswered⟩ := hall _ (Dict.mem_items_iff.2 hindex)
      refine hchunks.trans (congrArg some ?_)
      rcases hanswered with ⟨hnone, rfl⟩ | ⟨entry, hentry, rfl⟩
      · exact (lb2pba_of_not_mem hnone offset length).symm
      · exact (lb2pba_eq hentry offset length).symm
    | updatePush rootDic passes =>
      refine (updatePush_guarantees refl (fun _ _ _ _ _ => rfl) passes s).mono ?_
      rintro s' sent res - _ _ ⟨⟩
    | change w =>
      refine Thread.Guarantees.update_bind (fun s' _ => ⟨rfl, ?_⟩)
      rintro s'' - _ _ ⟨⟩
  obtain ⟨hFM, -, hfin⟩ := Runs.rely refl trans hserve h
  exact ⟨hFM, fun y hy => hfin y hy p.self rfl⟩

/-- An agent that has the file at its first block. -/
def oneFileAgent : QueryAgent :=
  ⟨∅, (∅ : Dict String (List RangedChunk)).set "/mnt/f" (oneFileEntry 0), subvol, volume⟩

/-- The file is moved, `UpdatePush` takes notice, and `getPBA` answers as before. -/
theorem moved_unchanged : ∃ (p : Pool Nat (Nat × Request) Site Empty Reply) (d : _),
    Runs serve Prod.fst (fun r => r.2 ≠ .initFM)
      (siteAt oneFileAgent (oneFileWorld 0)) p ∧
    p.self.now = oneFileWorld 1 ∧
    p.self.agent.FMState = (∅ : Dict String Int).set "/mnt/f" 0 ∧
    (∃ y ∈ p.finished, y.result = .ok (.pba "/mnt/f" d)) ∧
    d.get? "0" = some (Query.lb2pba oneFileAgent.FM "/mnt/f" 100 20) := by
  let offsets : Dict String (Int × Int) := (∅ : Dict String (Int × Int)).set "0" (100, 20)
  let s := siteAt oneFileAgent (oneFileWorld 0)
  let w := oneFileWorld 1
  have hchange : (serve (0, .change w)).run ⟨s, []⟩ = (.ok .ended, ⟨s.change w, []⟩) := rfl
  have hpush : (serve (1, .updatePush "/mnt" 1)).run ⟨s.change w, []⟩ = _ :=
    updatePush_run (ready_oneFile 1).walked rfl
  have hstart : Runs serve Prod.fst (fun r => r.2 ≠ .initFM) s ⟨s, fun _ => none, []⟩ := .start
  have h := (hstart.accept (0, .change w) (fun h => by cases h) rfl).rest rfl
  simp only [hchange] at h
  have h := (h.accept (1, .updatePush "/mnt" 1) (fun h => by cases h) rfl).rest rfl
  simp only [hpush] at h
  have h := (h.accept (2, .getPBA "/mnt/f" offsets) (fun h => by cases h) rfl).rest rfl
  obtain ⟨d, hd, hall⟩ := (unrefreshed_unchanged _ _ _ h).2 _
    (List.mem_append_right _ (List.mem_singleton_self _)) "/mnt/f" offsets rfl
  exact ⟨_, d, h, rfl, rfl, ⟨_, List.mem_append_right _ (List.mem_singleton_self _), hd⟩,
    hall "0" 100 20 (Dict.get?_set_self _ _ _)⟩

/-! ## After `initFM` -/

/-- The file with this name on the volume is striped in the world. -/
def World.Holds (w : World) (name : String) (block m : Nat) (host : Nat → String)
    (content : Nat → Content) : Prop :=
  ∃ bricks file, Stores w.cmds volume (subvol ++ name) bricks file ∧ PathsFollow bricks file ∧
    Striped w.nodes (subvol ++ name) file block m host content

section

variable {root f name : String} {block m : Nat} {host : Nat → String} {content : Nat → Content}
  {worlds : List World}

theorem Reported.translates (hname : (Str.split f root)[1]? = some name)
    (hlayout : ∀ w ∈ worlds, w.Holds name block m host content) {entry : List RangedChunk}
    (h : Reported root worlds f entry) :
    Translates entry (m * block + total (content m).extents) (addressOf host content block) := by
  obtain ⟨w, hw, hreply⟩ := h
  obtain ⟨bricks, file, hstores, hpaths, hstriped⟩ := hlayout w hw
  obtain ⟨data, hdata, htranslates⟩ := getPBAOf_translates hstores hpaths hstriped
  rw [World.reply_eq hname, hdata] at hreply
  cases hreply
  exact htranslates

/-- **After `initFM`, answers are exact.** Suppose that a file is listed and that its
layout does not change. Once an `initFM` has returned, each `getPBA` that is taken up from
then on answers a range inside the file with the physical address of each of its bytes in
turn, whatever other handlers, changes and loops are in progress at that moment or start
later. -/
theorem refreshed_then_exact {agent : QueryAgent} {w : World}
    {p q : Pool Nat (Nat × Request) Site Empty Reply} (hw : w.rootDic = some root)
    (hp : Serves root agent w p) {x : Finished (Nat × Request) Empty Reply} (hx : x ∈ p.finished)
    (hinit : x.request.2 = .initFM) {reply : Reply} (hreply : x.result = .ok reply)
    (hif : ∀ v ∈ p.self.worlds, ∃ res, v.ifconfig = .ok res)
    (hlisted : ∀ v ∈ p.self.worlds, f ∈ v.listed root)
    (hname : (Str.split f root)[1]? = some name) (hq : GoesOn root p q)
    (hlayout : ∀ v ∈ q.self.worlds, v.Holds name block m host content)
    {y : Finished (Nat × Request) Empty Reply} (hy : y ∈ q.finished.drop p.finished.length)
    (hfree : p.live y.request.1 = none) {offsets : Dict String (Int × Int)}
    (hget : y.request.2 = .getPBA f offsets) :
    ∃ d, y.result = .ok (.pba f d) ∧ ∀ index (o n : Nat),
      offsets.get? index = some ((o : Int), (n : Int)) →
      o + n ≤ m * block + total (content m).extents →
      ∃ chunks, d.get? index = some chunks ∧
        (chunkBytes chunks).map some = (List.range' o n).map (addressOf host content block) := by
  obtain ⟨-, -, hfin⟩ := hp.promise hw
  obtain ⟨hlater, hsince⟩ := GoesOn.promise hp hw hq
  have hdone := hfin x hx
  rw [Promise, hinit, hreply] at hdone
  -- the file has an entry, which translates it
  have hfresh : Fresh root p.self f := by
    rcases hdone with ⟨v, hv, err, herr⟩ | ⟨v, hv, hall⟩
    · obtain ⟨res, hres⟩ := hif v hv
      rw [herr] at hres
      cases hres
    · exact hall f (hlisted v hv)
  obtain ⟨data, hdata, hreported⟩ := hfresh
  have hold := (hreported.later hlater.worlds).translates hname hlayout
  have hanswers := hsince y hy hfree
  rw [Promise, hget] at hanswers
  obtain ⟨d, hd, hall⟩ := hanswers
  refine ⟨d, hd, fun index o n hindex hon => ?_⟩
  obtain ⟨chunks, hchunks, hanswered⟩ := hall _ (Dict.mem_items_iff.2 hindex)
  refine ⟨chunks, hchunks, ?_⟩
  rcases hanswered with ⟨hnone, -⟩ | ⟨entry, hentry, rfl⟩
  · exact absurd (Dict.mem_keys_iff.2 ⟨data, hdata⟩) hnone
  · have htranslates : Translates entry (m * block + total (content m).extents)
        (addressOf host content block) := by
      rcases hentry with hentry | hentry
      · rw [hdata] at hentry
        cases hentry
        exact hold
      · exact hentry.translates hname hlayout
    exact htranslates o n hon

end

theorem holds_oneFile (k : Nat) : (oneFileWorld k).Holds "/f" 4096 0 (fun _ => "n2")
    (fun _ => blockPiece k) :=
  ⟨_, _, stores_oneFile _, pathsFollow_unsharded, striped_oneFile k⟩

/-- An agent that knows nothing. -/
def emptyAgent : QueryAgent := ⟨∅, ∅, "", ""⟩

/-- An agent that has just been started: `initFM`, a second one that does not come to its
end, and then `getPBA` for a range of the file. -/
theorem started_then_exact : ∃ p q : Pool Nat (Nat × Request) Site Empty Reply,
    Serves "/mnt" emptyAgent (oneFileWorld 0) p ∧ p.live 1 ≠ none ∧ GoesOn "/mnt" p q ∧
    ∃ y ∈ q.finished, ∃ d chunks, y.result = .ok (.pba "/mnt/f" d) ∧ d.get? "0" = some chunks ∧
      (chunkBytes chunks).map some =
        (List.range' 100 20).map (addressOf (fun _ => "n2") (fun _ => blockPiece 0) 4096) := by
  let w := oneFileWorld 0
  let offsets : Dict String (Int × Int) := (∅ : Dict String (Int × Int)).set "0" (100, 20)
  have hready := ready_oneFile 0
  have hrun : initFM.run ⟨siteAt emptyAgent w, []⟩ = _ := initFM_run hready
  have hstart : Serves "/mnt" emptyAgent w ⟨siteAt emptyAgent w, fun _ => none, []⟩ := .start
  have hp := (hstart.accept (0, .initFM) trivial rfl).rest rfl
  simp only [serve, hrun] at hp
  have hp := hp.accept (1, .initFM) trivial rfl
  have hstay : ∀ {p}, Serves "/mnt" emptyAgent w p → GoesOn "/mnt" p p := fun _ => .start
  have hq := ((hstay hp).accept (2, .getPBA "/mnt/f" offsets) trivial rfl).rest rfl
  have hworlds : ∀ v ∈ [w], v.Holds "/f" 4096 0 (fun _ => "n2") (fun _ => blockPiece 0) := by
    intro v hv
    obtain rfl := List.mem_singleton.1 hv
    exact holds_oneFile 0
  have hif : ∃ res, w.ifconfig = .ok res := ⟨_, rfl⟩
  have hlisted : "/mnt/f" ∈ w.listed "/mnt" :=
    (keys_fileState hready.walked "/mnt/f").1 List.mem_cons_self
  obtain ⟨d, hd, hall⟩ := refreshed_then_exact hready.mounted hp (List.mem_singleton_self _) rfl rfl
    (fun v hv => by rw [List.mem_singleton.1 hv]; exact hif)
    (fun v hv => by rw [List.mem_singleton.1 hv]; exact hlisted) name_oneFile hq hworlds
    (List.mem_singleton_self _) rfl rfl
  obtain ⟨chunks, hchunks, hbytes⟩ := hall "0" 100 20 (Dict.get?_set_self _ _ _) (by decide)
  exact ⟨_, _, hp, by decide, hq, _, List.mem_append_right _ (List.mem_singleton_self _), d, chunks,
    hd, hchunks, hbytes⟩

/-! ## Two `initFM` at the same time -/

theorem get?_fetched_of_not_mem {w : World} {root f : String} {files : List String}
    (hf : f ∉ files) (FM : Dict String (List RangedChunk)) :
    (w.fetched root files FM).get? f = FM.get? f := by
  induction files generalizing FM with
  | nil => rfl
  | cons g files ih =>
    rw [List.mem_cons, not_or] at hf
    exact (ih hf.2 _).trans (Dict.get?_set_of_ne _ (Ne.symm hf.1) _)

section Overlap

variable {root f : String} {done rest : List String} {state : Dict String Int}
  {data : List RangedChunk} {s : Site}

/-- The end of `initFM`. -/
def returnFM : Block Reply := do
  let s ← Thread.self
  return .fm (some s.agent.FM)

/-- What is left of an `initFM` that has the reply for `f` and has not stored it. -/
def unstored (root f : String) (rest : List String) (data : List RangedChunk) : Block Reply := do
  Thread.update (Site.setFM f data)
  Thread.forEach rest (fetch root)
  returnFM

theorem steps_initFM (h : Ready root state s.now) :
    initFM.steps 7 ⟨s, []⟩ = (Thread.forEach state.keys (fetch root) >>= fun _ => returnFM,
      ⟨((s.setFMState state).setSubvol subvol).setVolume volume, []⟩) := by
  obtain ⟨mountText, hmount, hroot⟩ := World.mount_of_rootDic h.mounted
  obtain ⟨res, ip, hif, hip⟩ := h.ifconfig
  simp [initFM, fetchAll, Thread.steps, Thread.self, Thread.update, result, bind, Thread.bind,
    hmount, hroot, h.walked, hif, hip, Site.setFMState, Site.setSubvol, Site.setVolume, returnFM]

theorem steps_fetch (hsub : s.agent.Subvol = subvol) (hvol : s.agent.Volume = volume)
    (hdata : s.now.reply root f = some data) :
    (Thread.forEach (f :: rest) (fetch root) >>= fun _ => returnFM).steps 3 ⟨s, []⟩ =
      (unstored root f rest data, ⟨s, []⟩) := by
  obtain ⟨name, hname, hreply⟩ := Option.bind_eq_some_iff.1 hdata
  simp [fetch, file2PBA, Thread.steps, Thread.self, Thread.update, bind, Thread.bind, hname,
    hreply, hsub, hvol, Thread.forEach, unstored]

/-- Alone, an `initFM` comes to the point where it has the reply for any one of its files. -/
theorem exists_steps_unstored (h : Ready root state s.now) (hkeys : state.keys = done ++ f :: rest)
    (hdata : s.now.reply root f = some data) :
    ∃ n s', initFM.steps n ⟨s, []⟩ = (unstored root f rest data, ⟨s', []⟩) := by
  have hreplies : ∀ g ∈ done, ∃ data, s.now.reply root g = some data := fun g hg =>
    h.replies g (hkeys ▸ List.mem_append_left _ hg)
  -- the object when the loop starts
  let s' := ((s.setFMState state).setSubvol subvol).setVolume volume
  obtain ⟨n, hn⟩ := Thread.exists_steps_bind (forEach_fetch_run (s := s') rfl rfl hreplies)
    (fun _ => Thread.forEach (f :: rest) (fetch root) >>= fun _ => returnFM)
  refine ⟨7 + (n + 3), s'.withFM (s'.now.fetched root done s'.agent.FM), ?_⟩
  rw [Thread.steps_add, steps_initFM h, hkeys, Thread.forEach_append, Thread.bind_assoc,
    Thread.steps_add, hn]
  exact steps_fetch rfl rfl hdata

theorem unstored_run (hsub : s.agent.Subvol = subvol) (hvol : s.agent.Volume = volume)
    (h : ∀ g ∈ rest, ∃ data, s.now.reply root g = some data) :
    (unstored root f rest data).run ⟨s, []⟩ =
      (.ok (.fm (some (s.now.fetched root rest (s.agent.FM.set f data)))),
        ⟨s.withFM (s.now.fetched root rest (s.agent.FM.set f data)), []⟩) := by
  have hloop := forEach_fetch_run (s := s.setFM f data) hsub hvol h
  simp only [unstored, returnFM, Thread.run_bind, Thread.run, Thread.self, Thread.update, id]
  rw [hloop]
  rfl

/-- **An older `initFM` can put back an outdated layout.** For any file of the first walk,
an `initFM` can have got its layout and not have stored it when the file is moved. A
second `initFM` starts after the move, returns the new layout and has stored it. Then the
first one goes on, and `FM` has the layout from before the move, with no handler left that
would correct it. -/
theorem overlap_rolls_back {w₁ w₂ : World} {state₂ : Dict String Int} {data₂ : List RangedChunk}
    (h₁ : Ready root state w₁) (h₂ : Ready root state₂ w₂) (hf : f ∈ state.keys)
    (hrest : ∀ g ∈ state.keys, ∃ data, w₂.reply root g = some data) (hf₂ : f ∈ state₂.keys)
    (hdata : w₁.reply root f = some data) (hdata₂ : w₂.reply root f = some data₂)
    (agent : QueryAgent) :
    ∃ (p : Pool Nat (Nat × Request) Site Empty Reply) (FM₂ : Dict String (List RangedChunk)),
      Serves root agent w₁ p ∧ (∀ k, p.live k = none) ∧ p.self.now = w₂ ∧
      p.finished = [⟨(1, .change w₂), [], .ok .ended⟩, ⟨(2, .initFM), [], .ok (.fm (some FM₂))⟩,
        ⟨(0, .initFM), [], .ok (.fm (some p.self.agent.FM))⟩] ∧
      FM₂.get? f = some data₂ ∧ p.self.agent.FM.get? f = some data := by
  obtain ⟨done, rest, hkeys⟩ := List.append_of_mem hf
  obtain ⟨n, s₁, hsteps⟩ := exists_steps_unstored (s := siteAt agent w₁) h₁ hkeys hdata
  have hrun₁ : (serve (1, .change w₂)).run ⟨s₁, []⟩ = (.ok .ended, ⟨s₁.change w₂, []⟩) := rfl
  have hrun₂ : (serve (2, .initFM)).run ⟨s₁.change w₂, []⟩ = _ := initFM_run h₂
  have hnot : f ∉ rest := by
    have hnodup := state.nodupKeys
    rw [show state.items.map Prod.fst = done ++ f :: rest from hkeys] at hnodup
    exact (List.nodup_cons.1 (List.nodup_append.1 hnodup).2.1).1
  -- the first `initFM` up to the reply, then the change, the second one, and what is left
  have hstart : Serves root agent w₁ ⟨siteAt agent w₁, fun _ => none, []⟩ := .start
  have hfirst := (hstart.accept (0, .initFM) trivial rfl).steps n
  simp only [serve, hsteps] at hfirst
  have hchange := (hfirst.accept (1, .change w₂) h₂.mounted rfl).rest rfl
  simp only [hrun₁] at hchange
  have hsecond := (hchange.accept (2, .initFM) trivial rfl).rest rfl
  simp only [hrun₂] at hsecond
  have hlast := hsecond.rest rfl
  rw [unstored_run rfl rfl (fun g hg => hrest g (by rw [hkeys]; simp [hg]))] at hlast
  refine ⟨_, _, hlast, fun _ => rfl, rfl, rfl, ?_, ?_⟩
  · exact get?_fetched hf₂ hdata₂ _
  · exact (get?_fetched_of_not_mem hnot _).trans (Dict.get?_set_self _ _ _)

end Overlap

/-- The file is moved from one block to another. -/
theorem moved_rolls_back : ∃ p : Pool Nat (Nat × Request) Site Empty Reply,
    Serves "/mnt" emptyAgent (oneFileWorld 0) p ∧ (∀ k, p.live k = none) ∧
    p.self.now.reply "/mnt" "/mnt/f" = some (oneFileEntry 1) ∧
    p.self.agent.FM.get? "/mnt/f" = some (oneFileEntry 0) ∧ oneFileEntry 0 ≠ oneFileEntry 1 := by
  obtain ⟨p, FM₂, hp, hlive, hnow, -, -, hFM⟩ := overlap_rolls_back (ready_oneFile 0)
    (ready_oneFile 1) List.mem_cons_self (ready_oneFile 1).replies List.mem_cons_self
    (reply_oneFile 0) (reply_oneFile 1) emptyAgent
  refine ⟨p, hp, hlive, ?_, hFM, by decide⟩
  rw [hnow]
  exact reply_oneFile 1

end Lba2Pba.Query.Server
