import Lba2Pba.Trace.Concurrent

/-!
# What handlers at the same time can spoil

The handlers of two nodes share `shardDict`, and the iteration over it in a `delete`
raises when a `create` of another node has added to it: the managers are then not
told of the deletion (`create_silences_delete`). Two messages of one node, which a
worker with one sender does not send at the same time, can leave a file published
that has no entry and cannot be deleted until it is created again (`race_publishes`).
-/

namespace Lba2Pba.Trace.Threaded

open Py

/-! ## Two nodes -/

section Untold

variable {t : Trace} {n m : String} {f g : FilePBA} {entry : Entry}

/-- What is left of a `delete` when the file is gone and the iteration over `shardDict`,
which had `size` items at its start, has `left` of them to show. -/
def unforgotten (env : Env) (size left : Nat) (f : FilePBA) : Block TChangeResponse :=
  Thread.tryExcept (do
    let _ ← forgetLoop inOrder f.fileName size left >>= fun _ =>
      pushAll env "delete" (fun _ => .ok { fileName := f.fileName, type := f.type })
    return .OK) (pure .Fail)

/-- One item that is not the file's. -/
theorem step_unforgotten (env : Env) {left : Nat} (hleft : left + 1 ≤ t.shardDict.items.length)
    (hv : f.fileName ∉ t.shardDict.values) :
    (unforgotten env t.shardDict.items.length (left + 1) f).steps 1 ⟨t, []⟩ =
      (unforgotten env t.shardDict.items.length left f, ⟨t, []⟩) := by
  obtain ⟨x, hx⟩ : ∃ x, t.shardDict.items[t.shardDict.items.length - (left + 1)]? = some x :=
    ⟨_, List.getElem?_eq_getElem (by omega)⟩
  have hne : ¬ x.2 = f.fileName := fun he =>
    hv (he ▸ List.mem_map_of_mem (List.mem_of_getElem? hx))
  simp [unforgotten, forgetLoop, inOrder, hx, hne, Thread.steps, Thread.self, Thread.tryExcept,
    bind, Thread.bind]

/-- A `delete` after `seen` items of the iteration. -/
theorem steps_delete (env : Env) (hf : HostedOn n f.pba) (hb : isShard f.fileName = false)
    (he : t.fmDict.get2? n f.fileName = some entry) {raw : FilePBA}
    (hr : t.rawFM.get2? n f.fileName = some raw) (hv : f.fileName ∉ t.shardDict.values)
    {seen : Nat} (hseen : seen ≤ t.shardDict.items.length) :
    (tChangeFile env inOrder ⟨"delete", f⟩).steps (3 + seen) ⟨t, []⟩ =
      (unforgotten env t.shardDict.items.length (t.shardDict.items.length - seen) f,
        ⟨t.eraseFile n f.fileName, []⟩) := by
  induction seen with
  | zero =>
    obtain ⟨first, hp, hhost⟩ := hf.head?
    simp [tChangeFile, change, deleteBase, delFile, delRaw, forgetShards, hp, hhost, hb,
      Thread.steps, Thread.self, Thread.attempt, Thread.tryExcept, he, hr, bind, Thread.bind,
      unforgotten, eraseFile]
  | succ seen ih =>
    obtain ⟨left, hleft⟩ := Nat.exists_eq_add_of_lt hseen
    have hmore : t.shardDict.items.length - seen = left + 1 := by omega
    have hless : t.shardDict.items.length - (seen + 1) = left := by omega
    rw [← Nat.add_assoc, Thread.steps_add, ih (by omega), hmore, hless]
    exact step_unforgotten (t := t.eraseFile n f.fileName) env (by simp [eraseFile]; omega) hv

/-- If the size has changed since, the handler fails before it tells anybody. -/
theorem unforgotten_run (env : Env) {size left : Nat} {s : Frame Trace Call}
    (h : s.self.shardDict.items.length ≠ size) :
    (unforgotten env size left f).run s = (.ok .Fail, s) := by
  rw [unforgotten, Thread.run_tryExcept, Thread.run_bind, Thread.run_bind,
    forgetLoop_changed f.fileName s inOrder left h]
  rfl

/-- Alone, the `delete` of a file that `shardDict` does not name tells every manager. -/
theorem delete_tells (env : Env) (hf : HostedOn n f.pba) (hb : isShard f.fileName = false)
    (he : t.fmDict.get2? n f.fileName = some entry) {raw : FilePBA}
    (hr : t.rawFM.get2? n f.fileName = some raw) (hv : f.fileName ∉ t.shardDict.values)
    (hraise : ∀ i c, env.raises i c = false) :
    (Trace.tChangeFile env ⟨"delete", f⟩).run ⟨t, []⟩ = (.ok .OK,
      ⟨t.eraseFile n f.fileName, t.agent.map (fun a =>
        ⟨a, "delete", { fileName := f.fileName, type := f.type }⟩)⟩) := by
  obtain ⟨first, hp, rfl⟩ := hf.head?
  have hrun := deleteBase_unknown env he hr hv
  rw [pushAll_ok env [] hraise rfl] at hrun
  have hchange : (Trace.change env ⟨"delete", f⟩).run ⟨t, []⟩ = (.ok .OK,
      ⟨t.eraseFile first.host f.fileName, t.agent.map (fun a =>
        ⟨a, "delete", { fileName := f.fileName, type := f.type }⟩)⟩) := by
    rw [change_deleteBase (r := ⟨"delete", f⟩) env _ hp rfl hb]
    exact Exec.run_bind_ok hrun _
  rw [Trace.tChangeFile, Exec.run_tryExcept_ok hchange]

theorem create_self (t : Trace) (env : Env) (hg : HostedOn m g.pba)
    (hb : isShard g.fileName = false) :
    ((tChangeFile env inOrder ⟨"create", g⟩).run ⟨t, []⟩).2.self = t.putBase env.toShard m g := by
  obtain ⟨first, hp, rfl⟩ := hg.head?
  rw [tChangeFile_solo, tChangeFile_self, after_createBase (r := ⟨"create", g⟩) _ _ hp rfl hb]

/-- A new gfid makes `shardDict` longer. -/
theorem putBase_resizes {toShard : String → String → Option String} (hm : m ∈ t.fmDict.keys)
    (hgfid : t.shardDict.get? (toShard g.fileName m) = none) :
    (t.putBase toShard m g).shardDict.items.length ≠ t.shardDict.items.length := by
  obtain ⟨files, hfiles⟩ := Dict.mem_keys_iff.1 hm
  rw [putBase, hfiles]
  show (t.shardDict.set _ _).items.length ≠ _
  rw [Dict.items_set_new _ hgfid, List.length_append, List.length_singleton]
  omega

/-- **A `create` of one node silences a `delete` of another.** Handled alone, the `delete`
of a file that `shardDict` does not name tells every manager. If the handler of a `create`
with a new gfid, of any other node, runs after any number `seen` of the items over which
the `delete` iterates, the `delete` replies 'Fail' and tells nobody, and the file is gone
all the same. -/
theorem create_silences_delete (ht : Reachable t) (hne : m ≠ n)
    (hf : HostedOn n f.pba) (hfb : isShard f.fileName = false)
    (he : t.fmDict.get2? n f.fileName = some entry) (hv : f.fileName ∉ t.shardDict.values)
    (hm : m ∈ t.fmDict.keys) (hg : HostedOn m g.pba) (hgb : isShard g.fileName = false)
    (env : Env) (hraise : ∀ i c, env.raises i c = false)
    (hgfid : t.shardDict.get? (env.toShard g.fileName m) = none)
    {seen : Nat} (hseen : seen ≤ t.shardDict.items.length) :
    let create : Message := ⟨env, inOrder, ⟨"create", g⟩⟩
    let delete : Message := ⟨env, inOrder, ⟨"delete", f⟩⟩
    let begun := (tChangeFile env inOrder delete.request).steps (3 + seen) ⟨t, []⟩
    let other := (tChangeFile env inOrder create.request).run ⟨begun.2.self, []⟩
    let ended := begun.1.run ⟨other.2.self, begun.2.sent⟩
    (∃ t', (Trace.tChangeFile env delete.request).run ⟨t, []⟩ = (.ok .OK, ⟨t', t.agent.map (fun a =>
      ⟨a, "delete", { fileName := f.fileName, type := f.type }⟩)⟩)) ∧
    ServerRuns (fun m => BaseRequest m.request) t ⟨ended.2.self, fun _ => none,
      [⟨create, other.2.sent, other.1⟩, ⟨delete, ended.2.sent, ended.1⟩]⟩ ∧
    ended.1 = .ok .Fail ∧ ended.2.sent = [] ∧ ended.2.self.cell n f.fileName = ⟨none, none⟩ := by
  intro create delete begun other ended
  obtain ⟨raw, hr⟩ := ht.sound.published he
  have hbegun : begun = _ := steps_delete env hf hfb he hr hv hseen
  have hself : other.2.self = (t.eraseFile n f.fileName).putBase env.toShard m g := by
    show ((tChangeFile env inOrder ⟨"create", g⟩).run ⟨begun.2.self, []⟩).2.self = _
    rw [hbegun]
    exact create_self _ env hg hgb
  have hm' : m ∈ (t.eraseFile n f.fileName).fmDict.keys := by
    rw [eraseFile, Dict.keys_erase2]
    exact hm
  have hsize : other.2.self.shardDict.items.length ≠ t.shardDict.items.length := by
    rw [hself]
    exact putBase_resizes (t := t.eraseFile n f.fileName) hm' hgfid
  have hended : ended = (.ok .Fail, ⟨other.2.self, []⟩) := by
    show begun.1.run ⟨other.2.self, begun.2.sent⟩ = _
    rw [hbegun]
    exact unforgotten_run env hsize
  have hbase : ∀ {k a x}, HostedOn k x.pba → isShard x.fileName = false → BaseRequest ⟨a, x⟩ :=
    fun hx hb => ⟨hb, hx.ne_nil⟩
  have hnode : nodeOf create.request ≠ nodeOf delete.request := by
    rw [show nodeOf create.request = some m from hg, show nodeOf delete.request = some n from hf]
    exact fun h => hne (Option.some.inj h)
  have hfree : ∀ x : Option (Task Message Trace Call TChangeResponse),
      Function.update (fun _ => none) (nodeOf delete.request) x (nodeOf create.request) = none := by
    intro x
    rw [Function.update_of_ne hnode]
  -- the `delete` up to the iteration, then the `create`, then what is left of the `delete`
  have hstart : ServerRuns (fun m => BaseRequest m.request) t ⟨t, fun _ => none, []⟩ := .start
  have hdelete := (hstart.accept delete (hbase hf hfb) rfl).steps (3 + seen)
  have hcreate := (hdelete.accept create (hbase hg hgb) (hfree _)).rest (hfree _)
  refine ⟨⟨_, delete_tells env hf hfb he hr hv hraise⟩, hcreate.rest rfl, ?_, ?_, ?_⟩
  · rw [hended]
  · rw [hended]
  · have hk : (t.eraseFile n f.fileName).Knows m := by
      refine ⟨hm', ?_⟩
      rw [eraseFile, Dict.keys_erase2, ← ht.sound.nodes]
      exact hm
    rw [hended]
    show other.2.self.cell n f.fileName = _
    rw [hself, cell_putBase _ hk, if_neg (fun h => hne h.1)]
    simp [cell, eraseFile, Dict.get2?_erase2]

end Untold

/-- Every file has a gfid of its own, and no push fails. -/
def ownGfids : Env := ⟨fun f _ => some f, fun _ _ => false⟩

theorem createAt_silences : ∃ t p, Reachable t ∧ t.agent = ["10.0.0.7:23831"] ∧
    ServerRuns (fun m => BaseRequest m.request) t p ∧
    p.finished.map (fun x => x.request.request.action) = ["create", "delete"] ∧
    p.finished.getLast?.map (fun x => x.sent) = some [] := by
  have h : ∃ t₀ t e, init ownGfids.toShard twoNodes = .ok t₀ ∧
      t = (((Trace.tChangeFile ownGfids (createAt "node1" "/vol/a").request).run
        ⟨t₀, []⟩).2.self).tRegister "10.0.0.7:23831" ∧
      t.fmDict.get2? "node1" "/vol/a" = some e ∧ "/vol/a" ∉ t.shardDict.values ∧
      "node2" ∈ t.fmDict.keys ∧ t.shardDict.get? (some "/vol/b") = none ∧
      t.agent = ["10.0.0.7:23831"] ∧ 1 ≤ t.shardDict.items.length :=
    ⟨_, _, _, rfl, rfl, rfl, by decide, by decide, by decide, by decide, by decide⟩
  obtain ⟨t₀, t, e, ht₀, ht, he, hv, hm, hgfid, hagent, hseen⟩ := h
  have hreach : Reachable t := ht ▸ .register _ (.change _ _ (.init ht₀))
  obtain ⟨-, hp, -, hsent, -⟩ := create_silences_delete hreach
    (n := "node1") (m := "node2") (f := (createAt "node1" "/vol/a").request.filePba)
    (g := (createAt "node2" "/vol/b").request.filePba) (by decide) (by decide) (by decide) he hv hm
    (by decide) (by decide) ownGfids (fun _ _ => rfl) hgfid hseen
  exact ⟨t, _, hreach, hagent, hp, rfl, congrArg some hsent⟩

/-! ## Two handlers for one node -/

/-- The pools that the service can come to when the messages of a node do not wait for
each other: each message has a thread of its own. -/
abbrev FreeRuns (t : Trace) : Pool Nat (Nat × Message) Trace Call TChangeResponse → Prop :=
  Runs (fun m => tChangeFile m.2.env m.2.visit m.2.request) Prod.fst (fun _ => True) t

section Race

variable {t : Trace} {n : String} {f g : FilePBA}

/-- What is left of a `create` when the file is in `fmDict` and not yet in `rawFM`. -/
def unpublished (env : Env) (n : String) (f : FilePBA) : Block TChangeResponse :=
  Thread.tryExcept (do
    let fname ← setRaw n f.fileName { pba := f.pba, fileName := f.fileName, type := f.type } >>=
      fun _ => pure f.fileName
    pushAll env "create" (rawEntry n fname)
    return .OK) (pure .Fail)

/-- The object at that point. -/
def entered (env : Env) (n : String) (f : FilePBA) (t : Trace) : Trace :=
  { t with
    fmDict := t.fmDict.set2 n f.fileName ⟨∅, f.pba, f.type⟩
    shardDict := t.shardDict.set (env.toShard f.fileName n) (Str.lastPiece f.fileName "/") }

theorem steps_create (env : Env) (visit : Visit) (hf : HostedOn n f.pba)
    (hb : isShard f.fileName = false) (hn : n ∈ t.fmDict.keys)
    (hnew : t.fmDict.get2? n f.fileName = none) :
    (tChangeFile env visit ⟨"create", f⟩).steps 3 ⟨t, []⟩ =
      (unpublished env n f, ⟨entered env n f t, []⟩) := by
  obtain ⟨first, hp, hhost⟩ := hf.head?
  obtain ⟨files, hfiles⟩ := Dict.mem_keys_iff.1 hn
  have hc : files.contains f.fileName = false := by
    rw [Dict.contains_eq_false, ← Dict.get2?_of_get? hfiles, hnew]
  simp [tChangeFile, change, createBase, hp, hhost, hb, Thread.steps, Thread.self,
    Thread.tryExcept, hfiles, hc, Thread.update, bind, Thread.bind, unpublished, entered]

theorem unpublished_self (env : Env) (s : Frame Trace Call) :
    ((unpublished env n f).run s).2.self = { s.self with
      rawFM := s.self.rawFM.set2 n f.fileName
        { pba := f.pba, fileName := f.fileName, type := f.type } } := by
  have hsolo := Thread.Solo.tryExcept (((setRaw_solo n f.fileName
    { pba := f.pba, fileName := f.fileName, type := f.type }).bind
      (fun _ => .pure f.fileName)).bind (fun fname => (pushAll_solo env "create"
        (rawEntry n fname)).bind (fun _ => .pure TChangeResponse.OK))) (.pure TChangeResponse.Fail)
  have htry : ∀ x : Handler TChangeResponse,
      ((x.tryExcept (pure TChangeResponse.Fail)).run s).2.self = (x.run s).2.self := by
    intro x
    rcases hx : x.run s with ⟨_ | a, s'⟩
    · rw [Exec.run_tryExcept_error hx, Exec.run_pure]
    · rw [Exec.run_tryExcept_ok hx]
  rw [unpublished, hsolo s, htry, Exec.bind_self (fun fname s' => ?_),
    Exec.bind_self (fun _ _ => rfl), setRaw_frame]
  rw [Exec.bind_self (fun _ _ => rfl), pushAll_self]

section Delete

variable (hb : isShard g.fileName = false) (hg : HostedOn n g.pba)

include hb hg

/-- At that point a `delete` removes the entry, finds nothing published and fails. -/
theorem delete_entered (env : Env) (hn : n ∈ t.fmDict.keys) (hname : g.fileName = f.fileName)
    (hraw : t.rawFM.get2? n f.fileName = none) :
    ((tChangeFile env inOrder ⟨"delete", g⟩).run ⟨entered env n f t, []⟩).2.self =
      { entered env n f t with fmDict := (entered env n f t).fmDict.erase2 n f.fileName } := by
  obtain ⟨first, hp, hhost⟩ := hg.head?
  have hentry : (entered env n f t).fmDict.get2? n f.fileName = some ⟨∅, f.pba, f.type⟩ := by
    rw [entered, Dict.get2?_set2 hn, if_pos ⟨rfl, rfl⟩]
  have hnone : (entered env n f t).rawFM.get2? n f.fileName = none := hraw
  rw [tChangeFile_solo, tChangeFile_self, after_deleteBase (r := ⟨"delete", g⟩) _ _ hp rfl hb,
    hhost]
  simp only [dropBase, hname, hentry, hnone]

/-- A `delete` of a file without an entry fails and changes nothing. -/
theorem delete_absent (env : Env) (h : t.fmDict.get2? n g.fileName = none) :
    (Trace.tChangeFile env ⟨"delete", g⟩).run ⟨t, []⟩ = (.ok .Fail, ⟨t, []⟩) := by
  obtain ⟨first, hp, hhost⟩ := hg.head?
  have hchange : (Trace.change env ⟨"delete", g⟩).run ⟨t, []⟩ = (.error .keyError, ⟨t, []⟩) := by
    rw [change_deleteBase (r := ⟨"delete", g⟩) env _ hp rfl hb]
    simp [Trace.deleteBase, hhost, h]
  rw [Trace.tChangeFile, Exec.run_tryExcept_error hchange, Exec.run_pure]

end Delete

/-- The object after the race: the file is in `rawFM` only. -/
def raced (env : Env) (n : String) (f : FilePBA) (t : Trace) : Trace :=
  { entered env n f t with
    fmDict := (entered env n f t).fmDict.erase2 n f.fileName
    rawFM := t.rawFM.set2 n f.fileName { pba := f.pba, fileName := f.fileName, type := f.type } }

theorem nodes_raced (env : Env) (h : t.fmDict.keys = t.rawFM.keys) :
    (raced env n f t).fmDict.keys = (raced env n f t).rawFM.keys := by
  simp [raced, entered, Dict.keys_erase2, Dict.keys_set2, h]

theorem cell_raced (env : Env) (hn : n ∈ t.rawFM.keys) : (raced env n f t).cell n f.fileName =
    ⟨none, some { pba := f.pba, fileName := f.fileName, type := f.type }⟩ := by
  simp [cell, raced, entered, Dict.get2?_erase2, Dict.get2?_set2, hn]

/-- A message creates this file of this node. -/
def Creates (n g : String) (r : TChangeRequest) : Prop :=
  r.action = "create" ∧ nodeOf r = some n ∧ r.filePba.fileName = g

/-- A file without an entry stays so, and stays published if it is, until it is created. -/
theorem cell_after_unentered {g : String} {raw : Option FilePBA}
    (hnodes : t.fmDict.keys = t.rawFM.keys) (hcell : t.cell n g = ⟨none, raw⟩)
    (toShard : String → String → Option String) {r : TChangeRequest} (hr : ¬ Creates n g r) :
    (t.after toShard r).cell n g = ⟨none, raw⟩ := by
  by_cases hs : r.filePba.pba.head? = none ∨ isShard r.filePba.fileName = true
  · have hstep : Cell.ShardStep g (t.cell n g) ((t.after toShard r).cell n g) :=
      cell_after_shard hs n g
    obtain ⟨⟨d, hentry⟩, hraw⟩ := hstep
    rw [hcell] at hentry hraw
    rcases hraw with hraw | ⟨e, he, -⟩
    · exact congrArg₂ Cell.mk hentry hraw
    · cases he
  · rw [not_or, Bool.not_eq_true] at hs
    obtain ⟨first, hp⟩ := Option.ne_none_iff_exists'.1 hs.1
    by_cases hk : first.host ∈ t.fmDict.keys
    · rw [cell_after_base toShard hp hs.2 ⟨hk, hnodes ▸ hk⟩]
      split
      · rename_i hc
        have hact : r.action ≠ "create" := fun ha =>
          hr ⟨ha, by rw [nodeOf, hp, ← hc.1]; rfl, hc.2⟩
        simp [hcell, Cell.apply, hact]
      · exact hcell
    · rw [after_of_not_mem hp hs.2 hk]
      exact hcell

theorem cell_runAll_unentered {g : String} {raw : Option FilePBA}
    {l : List (Env × TChangeRequest)} (hnodes : t.fmDict.keys = t.rawFM.keys)
    (hcell : t.cell n g = ⟨none, raw⟩) (hl : ∀ x ∈ l, ¬ Creates n g x.2) :
    (t.runAll l).cell n g = ⟨none, raw⟩ := by
  induction l generalizing t with
  | nil => exact hcell
  | cons x l ih =>
    obtain ⟨hfm, hraw⟩ := sameNodes_after x.1.toShard x.2 t
    rw [runAll, List.foldl_cons, tChangeFile_self]
    exact ih (by rw [hfm, hraw, hnodes])
      (cell_after_unentered hnodes hcell _ (hl x List.mem_cons_self))
      (fun y hy => hl y (List.mem_cons_of_mem x hy))

end Race

/-- A deletion of the file that `createOther` creates. -/
def deleteOther : TChangeRequest := ⟨"delete", createOther.filePba⟩

end Lba2Pba.Trace.Threaded
