import Lba2Pba.System.Chain
import Lba2Pba.Trace.Assembly

/-!
# A start of all services

From the replies of the workers to the answers of an agent. Trace joins the base files
with their shards and publishes them by node, a Manager takes them over by PVC and name,
and an agent fetches the names of its PVC. If Trace can join the replies (`Joinable`) and
the PVC has one distributed file for each name, all three start, and a lookup is cut out
of the extents of the file and of its shards by index.
-/

namespace Lba2Pba.System

open Py Agent

section Published

open Trace

variable {toShard : String → String → Option String} {replies : List (String × List FilePBA)}

/-- What Trace publishes of replies that it can join. -/
theorem published_of_joinable (h : Cluster toShard replies) (hj : Joinable toShard replies) :
    ∃ t, init toShard replies = .ok t ∧
      (∀ b ∈ baseFiles replies, ∃ l, IsSorted (shardsOf toShard replies b) l ∧
        t.rawFM.get2? b.1 b.2.fileName = some
          { pba := b.2.pba ++ l.flatMap FilePBA.pba, fileName := b.2.fileName,
            type := b.2.type }) ∧
      ∀ n f x, t.rawFM.get2? n f = some x →
        ∃ b ∈ baseFiles replies, b.1 = n ∧ b.2.fileName = f ∧ b.2.type = x.type := by
  obtain ⟨t, ht⟩ := init_total (hj.buildable h) h.index
  obtain ⟨built, -⟩ := init_built ht
  refine ⟨t, ht, fun b hb => ?_, fun n f x hx => ?_⟩
  · obtain ⟨l, hl, hraw⟩ := built.present _ _ _ (h.entryOf_base hj.first hb)
    have hperm := filed_perm_shardsOf hj.first hb h (fun s hs => hj.joined s hs b hb)
    exact ⟨l, ⟨hl.perm.trans hperm, hl.sorted⟩, hraw⟩
  · cases he : entryOf replies n f with
    | none =>
      rw [built.absent n f he] at hx
      cases hx
    | some b =>
      obtain ⟨⟨p, hp⟩, hhost, hname⟩ := entryOf_eq_some he
      obtain ⟨l, -, hraw⟩ := built.present n f b he
      rw [hraw] at hx
      cases hx
      exact ⟨(p, b), hp, Option.some.inj ((hj.first _ hp).symm.trans hhost), hname, rfl⟩

end Published

/-- The agent can connect to a Manager that knows its PVC. -/
theorem exists_connect {site : Site} {m : Manager} (hip : ':' ∉ site.ip.toList)
    (hpvc : site.pvc ∈ m.FM.keys) : ∃ s, Manager.connect site.menv site.ip m = .ok s := by
  obtain ⟨files, hfiles⟩ := Dict.mem_keys_iff.1 hpvc
  have hsplit : Manager.splitAddr (Manager.agentAddr site.ip) = .ok (site.ip, "23832") := by
    have hport : Str.split "23832" ":" = ["23832"] := by decide
    rw [Manager.splitAddr, Manager.agentAddr_eq, Str.split_append rfl hip, hport]
  have hreg : m.registerQA site.menv (Manager.agentAddr site.ip) =
      .ok (m.addAgent site.pvc (site.ip ++ ":" ++ "23832")) := by
    simp only [Manager.registerQA, hsplit, bind, Except.bind, pure, Except.pure]
    rfl
  have hmap : (m.addAgent site.pvc (site.ip ++ ":" ++ "23832")).getFileMap site.menv site.ip =
      .ok (files.values.map m.heap.get) := by
    have hfiles' : m.FM.get? (site.menv.getPVC site.ip) = some files := hfiles
    simp only [Manager.getFileMap, Manager.addAgent, hfiles']
  refine ⟨⟨m.addAgent site.pvc (site.ip ++ ":" ++ "23832"), files.values.map m.heap.get⟩, ?_⟩
  simp only [Manager.connect, hreg, hmap, bind, Except.bind, pure, Except.pure]

/-- The base files of the PVC are distributed, one for each name, and no path lies under
two PVCs. -/
structure Placed (site : Site) (replies : List (String × List FilePBA)) : Prop where
  paths : ∀ b ∈ Trace.baseFiles replies, Manager.Unambiguous site.info b.2.fileName
  alone : ∀ b ∈ Trace.baseFiles replies, ∀ b' ∈ Trace.baseFiles replies, ∀ name,
    site.Own b.2.fileName name → site.Own b'.2.fileName name → b = b'
  distributed : ∀ b ∈ Trace.baseFiles replies, ∀ name, site.Own b.2.fileName name →
    b.2.type = "Distribute"

/-- The services start one after the other. -/
theorem exists_boot {site : Site} {toShard : String → String → Option String}
    {replies : List (String × List FilePBA)} {t : Trace}
    (hinit : Trace.init toShard replies = .ok t)
    (hpaths : ∀ m g x, t.rawFM.get2? m g = some x → Manager.Unambiguous site.info g)
    (hip : ':' ∉ site.ip.toList) (hpvc : site.pvc ∈ site.info.keys) :
    ∃ c, boot site toShard replies = .ok c ∧ c.trace = t.tRegister site.addr := by
  have hs : (t.tRegister site.addr).Sound := (Trace.Reachable.register _ (.init hinit)).sound
  obtain ⟨m, hstart, hst⟩ := start_published hs hpaths
  obtain ⟨s, hconn⟩ := exists_connect hip (hst.keys ▸ hpvc)
  refine ⟨⟨t.tRegister site.addr, s.manager, s.agent⟩, ?_, rfl⟩
  simp only [boot, hinit, hstart, hconn, bind, Except.bind, pure, Except.pure]

/-- **From the workers to the agent.** Trace, the Manager and the agent start, and the agent
answers for each base file of its PVC from the extents of the file followed by those of
its shards by index; it has no other names. -/
theorem coldStart_serves {site : Site} {toShard : String → String → Option String}
    {replies : List (String × List FilePBA)} (h : Trace.Cluster toShard replies)
    (hj : Trace.Joinable toShard replies) (hp : Placed site replies)
    (hip : ':' ∉ site.ip.toList) (hpvc : site.pvc ∈ site.info.keys) :
    ∃ c, boot site toShard replies = .ok c ∧
      (∀ b ∈ Trace.baseFiles replies, ∀ name, site.Own b.2.fileName name →
        ∃ l, Trace.IsSorted (Trace.shardsOf toShard replies b) l ∧
          ∀ o n, getPba name o n c.agent = (get o n (b.2.pba ++ l.flatMap FilePBA.pba)).map
            (fun res => some { fileName := name, type := "Distribute", pba := res })) ∧
      ∀ name, (∀ b ∈ Trace.baseFiles replies, ¬ site.Own b.2.fileName name) →
        ∀ o n, getPba name o n c.agent = .ok none := by
  obtain ⟨t, hinit, hpub, hall⟩ := published_of_joinable h hj
  have hpaths : ∀ m g x, t.rawFM.get2? m g = some x → Manager.Unambiguous site.info g := by
    intro m g x hget
    obtain ⟨b, hb, -, rfl, -⟩ := hall m g x hget
    exact hp.paths b hb
  have hone : OneEach site t.rawFM := by
    refine ⟨fun hg hg' ho ho' => ?_, fun hg ho => ?_⟩
    · obtain ⟨b, hb, rfl, rfl, -⟩ := hall _ _ _ hg
      obtain ⟨b', hb', rfl, rfl, -⟩ := hall _ _ _ hg'
      cases hp.alone b hb b' hb' _ ho ho'
      exact ⟨rfl, rfl⟩
    · obtain ⟨b, hb, rfl, rfl, htype⟩ := hall _ _ _ hg
      exact htype ▸ hp.distributed b hb _ ho
  obtain ⟨c, hboot, htrace⟩ := exists_boot hinit hpaths hip hpvc
  have hraw : c.trace.rawFM = t.rawFM := by
    rw [htrace]
    rfl
  have hserves : Serves site c := by
    refine serves_boot hboot ?_ ?_
    · rw [hraw]
      exact hpaths
    · rw [hraw]
      exact hone
  refine ⟨c, hboot, fun b hb name hown => ?_, fun name hno o n => ?_⟩
  · obtain ⟨l, hl, hget⟩ := hpub b hb
    refine ⟨l, hl, fun o n => ?_⟩
    rw [hserves.getPba_some (by rw [hraw, hget]) hown, hp.distributed b hb name hown]
  · refine hserves.getPba_none (fun m g x hget hown => ?_) o n
    rw [hraw] at hget
    obtain ⟨b, hb, -, rfl, -⟩ := hall m g x hget
    exact hno b hb hown

/-- A PVC with the directory `vol`. -/
def volSite : Site :=
  ⟨"m:23831", "10.0.0.1", Manager.quiet, (∅ : Dict String String).set "pvc1" "vol"⟩

/-- The base file of `onePeer`. -/
def fileA : FilePBA :=
  { pba := [.blockAt "node1" (.lit 0)], fileName := "/vol/a", type := "Distribute" }

theorem baseFiles_onePeer {b : String × FilePBA} :
    b ∈ Trace.baseFiles Trace.onePeer ↔ b = ("node1", fileA) := by
  have hbase : Trace.baseFiles Trace.onePeer = [("node1", fileA)] := by decide
  rw [hbase, List.mem_singleton]

theorem placed_onePeer : Placed volSite Trace.onePeer := by
  refine ⟨fun b hb => ?_, fun b hb b' hb' _ _ _ => ?_, fun b hb _ _ => ?_⟩
  · have hpvcs : Manager.pvcsOf volSite.info fileA.fileName = [("pvc1", "vol")] := by decide
    cases baseFiles_onePeer.1 hb
    intro x hx
    rw [hpvcs, List.mem_singleton] at hx
    rw [hpvcs, hx]
  · rw [baseFiles_onePeer.1 hb, baseFiles_onePeer.1 hb']
  · rw [baseFiles_onePeer.1 hb]
    rfl

/-- A file with one shard, on one peer. -/
theorem onePeer_served : ∃ c, boot volSite Trace.gfids Trace.onePeer = .ok c ∧
    ∀ o n, getPba "a" o n c.agent =
      (get o n [.blockAt "node1" (.lit 0), .blockAt "node1" (.lit 8192)]).map
        (fun res => some { fileName := "a", type := "Distribute", pba := res }) := by
  have hc : Trace.Cluster Trace.gfids Trace.onePeer := by
    refine ⟨by decide, by decide, by decide, by decide, fun s hs => ⟨1, ?_⟩⟩
    revert s
    decide
  obtain ⟨c, hboot, hfiles, -⟩ := coldStart_serves hc ⟨by decide, by decide, by decide⟩
    placed_onePeer (by decide) (by decide)
  obtain ⟨l, hl, hget⟩ := hfiles _ (baseFiles_onePeer.2 rfl) "a" (by decide)
  have hshards : Trace.shardsOf Trace.gfids Trace.onePeer ("node1", fileA) =
      [{ pba := [.blockAt "node1" (.lit 8192)], fileName := "/vol/.shard/5f.1",
         type := "Distribute" }] := by
    decide
  rw [hshards] at hl
  rw [List.perm_singleton.1 hl.perm] at hget
  exact ⟨c, hboot, hget⟩

end Lba2Pba.System
