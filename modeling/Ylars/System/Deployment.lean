import Ylars.Dns.TableSource
import Ylars.System.CatchUp

/-!
# From the database to the messages

`Deployment` is the database, which its clients edit, the dns server on it, and the agent,
which gets the responses of the server as messages.  When the clients keep to the rules, and a
version change has come when all edits were complete, no message on its way means that the
hosts of each module that the agent knows are the rows of `RouteData`, whatever has been
loaded, swapped, published and pulled before (`rows_of_rest`).
-/

namespace Ylars.System

open Std (ExtTreeMap ExtTreeSet)
open Ylars.Lib Ylars.Proto Ylars.Agent Ylars.Dns

/-- The database, and the server and the agent. -/
structure Deployment where
  world : World
  sync : RouteSync

/-- What happens next. -/
inductive DeployEvent where
  /-- A statement of another client of the database. -/
  | client (op : ClientOp)
  /-- The update thread of the server goes on. -/
  | updater (elapsed : Int)
  /-- Something else happens in the server or in the agent. -/
  | sync (e : SyncEvent)

/-- Whether the update thread of the server does it. -/
def SyncEvent.isUpdater : SyncEvent → Bool
  | .dns e => e.isUpdater
  | _ => false

namespace Deployment

/-- The server on its database. -/
def db (d : Deployment) : DbServer := ⟨d.world, d.sync.dns⟩

/-- One step. -/
def step (cfg : LoadBalanceConfig) (fd : Int) (d : Deployment) : DeployEvent → Option Deployment
  | .client op => some { d with world := d.world.client op }
  | .updater elapsed =>
      (d.sync.step cfg fd (.dns (.updater (d.world.answers .ok elapsed)))).map fun sync ↦
        ⟨d.world.follow d.sync.dns.sending elapsed, sync⟩
  | .sync e =>
      if e.isUpdater then none else (d.sync.step cfg fd e).map fun sync ↦ { d with sync := sync }

/-- The clients keep to the rules, and a load keeps what is lost. -/
def Keeps (d : Deployment) : DeployEvent → Prop
  | .client op => d.db.Keeps (.client op)
  | .updater elapsed => d.db.Keeps (.updater elapsed)
  | .sync _ => True

/-- No client edits the database. -/
def NoEdits (_ : Deployment) : DeployEvent → Prop
  | .client _ => False
  | _ => True

end Deployment

/-- The runs of the whole, from when the agent has been connected. -/
def deployment (cfg : LoadBalanceConfig) (fd : Int) : LTS Deployment DeployEvent where
  init d := d.sync.Initial fd ∧ dbServer.Reachable d.db
  step d e t := d.Keeps e ∧ d.step cfg fd e = some t

/-- A state after a version-change turn that started when all edits were complete, with no
edit since. -/
def Deployment.AfterTurn (cfg : LoadBalanceConfig) (fd : Int) (u : Deployment) : Prop :=
  ∃ s elapsed t es, (deployment cfg fd).Reachable s ∧ s.world.Complete ∧
    s.world.publisher.phase = .checkVersion ∧ (deployment cfg fd).step s (.updater elapsed) t ∧
    t.world.publisher.phase = .loadRouteData true ∧
    ((deployment cfg fd).restrict Deployment.NoEdits).Run t es u ∧
    u.world.publisher.phase = .checkVersion

variable {cfg : LoadBalanceConfig} {fd : Int} {d t : Deployment} {e : DeployEvent}

/-! ## The parts of the whole -/

/-- The update thread goes on: in the server, and for the database. -/
theorem updater_step {elapsed : Int} (hst : d.step cfg fd (.updater elapsed) = some t) :
    d.sync.step cfg fd (.dns (.updater (d.world.answers .ok elapsed))) = some t.sync ∧
      d.db.step (.updater elapsed) = some t.db := by
  simp only [Deployment.step] at hst
  obtain ⟨sync, hsync, rfl⟩ := Option.map_eq_some_iff.mp hst
  refine ⟨hsync, ?_⟩
  simp only [RouteSync.step, Option.ite_none_right_eq_some, Option.map_eq_some_iff] at hsync
  obtain ⟨-, dns, hdns, rfl⟩ := hsync
  obtain rfl := Option.some.inj hdns
  rfl

/-- The agent and the server take their own steps. -/
theorem sync_of_reachable (h : (deployment cfg fd).Reachable d) :
    (routeSync cfg fd).Reachable d.sync := by
  induction h with
  | init hi => exact .init hi.1
  | @step d t e _ hst ih =>
      obtain ⟨-, hst⟩ := hst
      cases e with
      | client op =>
          obtain rfl := Option.some.inj hst
          exact ih
      | updater elapsed =>
          exact ih.step (a := .dns (.updater _)) (updater_step hst).1
      | sync e =>
          simp only [Deployment.step, Option.ite_none_left_eq_some] at hst
          obtain ⟨sync, hsync, rfl⟩ := Option.map_eq_some_iff.mp hst.2
          exact ih.step (a := e) hsync

theorem dns_step_other {s s' : RouteSync} {e : SyncEvent} (he : ¬e.isUpdater = true)
    (hst : s.step cfg fd e = some s') :
    s'.dns = s.dns ∨ ∃ e', e'.isUpdater = false ∧ s.dns.step e' = some s'.dns := by
  cases e with
  | agent a =>
      simp only [RouteSync.step, Option.ite_none_right_eq_some, Option.map_eq_some_iff] at hst
      obtain ⟨-, agents, -, rfl⟩ := hst
      exact .inl rfl
  | request i =>
      simp only [RouteSync.step] at hst
      split at hst
      · cases hst
      · obtain ⟨dns, hdns, rfl⟩ := Option.map_eq_some_iff.mp hst
        exact .inr ⟨_, rfl, hdns⟩
  | dns e =>
      simp only [RouteSync.step, Option.ite_none_right_eq_some, Option.map_eq_some_iff] at hst
      obtain ⟨-, dns, hdns, rfl⟩ := hst
      exact .inr ⟨e, Bool.eq_false_iff.mpr he, hdns⟩

theorem db_step (hst : (deployment cfg fd).step d e t) :
    t.db = d.db ∨ ∃ e', dbServer.step d.db e' t.db ∧ (d.NoEdits e → NoEdit d.db e') := by
  obtain ⟨hk, hst⟩ := hst
  cases e with
  | client op =>
      obtain rfl := Option.some.inj hst
      exact .inr ⟨.client op, ⟨hk, rfl⟩, id⟩
  | updater elapsed => exact .inr ⟨.updater elapsed, ⟨hk, (updater_step hst).2⟩, id⟩
  | sync e =>
      simp only [Deployment.step, Option.ite_none_left_eq_some] at hst
      obtain ⟨he, hst⟩ := hst
      obtain ⟨sync, hsync, rfl⟩ := Option.map_eq_some_iff.mp hst
      rcases dns_step_other he hsync with hdns | ⟨e', he', hdns⟩
      · exact .inl (by rw [Deployment.db, Deployment.db, hdns])
      · refine .inr ⟨.other e', ⟨trivial, ?_⟩, id⟩
        simp only [DbServer.step, he', Deployment.db, hdns]
        rfl

/-- The server on its database is in a state that it can reach. -/
theorem db_of_reachable (h : (deployment cfg fd).Reachable d) : dbServer.Reachable d.db := by
  induction h with
  | init hi => exact hi.2
  | step _ hst ih =>
      rcases db_step hst with he | ⟨e', hdb, -⟩
      · rwa [he]
      · exact ih.step hdb

theorem db_of_run {es : List DeployEvent}
    (hr : ((deployment cfg fd).restrict Deployment.NoEdits).Run d es t) :
    ∃ es', (dbServer.restrict NoEdit).Run d.db es' t.db := by
  refine hr.map (N := dbServer.restrict NoEdit) (f := Deployment.db) fun d e t hst ↦ ?_
  exact (db_step hst.2).imp_right fun ⟨e', hdb, hno⟩ ↦ ⟨e', hno hst.1, hdb⟩

/-- After the last turn of the whole, the server is after its last turn. -/
theorem Deployment.AfterTurn.parts (h : d.AfterTurn cfg fd) :
    (routeSync cfg fd).Reachable d.sync ∧ d.db.AfterTurn := by
  obtain ⟨s, elapsed, t, es, hs, hcomplete, hcheck, hstart, hnew, hrun, hdone⟩ := h
  refine ⟨sync_of_reachable ((hs.step hstart).run hrun.of_restrict), ?_⟩
  obtain ⟨es', hrun'⟩ := db_of_run hrun
  exact ⟨s.db, elapsed, t.db, es', db_of_reachable hs, hcomplete, hcheck,
    ⟨hstart.1, (updater_step hstart.2).2⟩, hnew, hrun', hdone⟩

/-! ## The rows come to the agent -/

/-- After the last turn the thread sends no tasks, and waits for the next version. -/
theorem idle_of_afterTurn {u : DbServer} (h : u.AfterTurn) :
    u.server.sending = none ∧ ¬u.server.Unpublished := by
  have hinv := h.finished.1
  obtain ⟨s, elapsed, t, es, -, -, -, -, -, -, hdone⟩ := h
  rcases hinv.phase with ⟨hsend, hphase⟩ | ⟨-, hphase⟩
  · rw [hdone] at hphase
    exact ⟨hsend, DnsServer.not_unpublished hphase (by simp) (by simp)⟩
  · rw [hdone] at hphase
    cases hphase

/-- The other threads of the server leave it after its last turn. -/
theorem afterTurn_other {u : DbServer} {dns : DnsServer} {e : Event} (h : u.AfterTurn)
    (he : e.isUpdater = false) (hst : u.server.step e = some dns) :
    DbServer.AfterTurn ⟨u.world, dns⟩ := by
  obtain ⟨s, elapsed, t, es, hs, hcomplete, hcheck, hstart, hnew, hrun, hdone⟩ := h
  have hlast : (dbServer.restrict NoEdit).step u (.other e) ⟨u.world, dns⟩ := by
    refine ⟨trivial, trivial, ?_⟩
    simp only [DbServer.step, he, hst]
    rfl
  exact ⟨s, elapsed, t, es ++ [.other e], hs, hcomplete, hcheck, hstart, hnew,
    hrun.append (.cons hlast (.nil _)), hdone⟩

/-- Work that is left in the server and the agent leaves the whole after its last turn. -/
theorem afterTurn_of_works {w : World} {s s' : RouteSync} {es : List SyncEvent}
    (hr : (working cfg fd).Run s es s') (h : DbServer.AfterTurn ⟨w, s.dns⟩) :
    DbServer.AfterTurn ⟨w, s'.dns⟩ := by
  induction hr with
  | nil s => exact h
  | @cons s s' s'' e es hst _ ih =>
      obtain ⟨hworks, hst⟩ := hst
      have hupdater : ¬e.isUpdater = true := by
        rintro he
        cases e with
        | agent | request => cases he
        | dns e =>
            cases e with
            | updater a => exact hworks (idle_of_afterTurn h).1
            | deal | task | request | connect | close | proceed => cases he
      rcases dns_step_other hupdater hst with hdns | ⟨e', he', hdns⟩
      · exact ih (by rwa [hdns])
      · exact ih (afterTurn_other h he' hdns)

/-- When the work that is left after the last turn is done, every module that the agent knows
has the hosts of its rows. -/
theorem rows_of_rest (h : d.AfterTurn cfg fd) {es : List SyncEvent} {s : RouteSync}
    (hr : (working cfg fd).Run d.sync es s) (hrest : (working cfg fd).AtRest s)
    {modid cmdid : UInt32} {lb : LoadBalance}
    (hget : (s.agents.agentRoutes (agentIndex modid cmdid)).routeMap[modKey modid cmdid]? =
      some lb) :
    lb.Sound (modKey modid cmdid) ∧ lb.status = some .new ∧ lb.empty = false ∧
      ∀ k, k ∈ lb.hostMap ↔
        ∃ row ∈ d.world.routes, row.modid = modid ∧ row.cmdid = cmdid ∧ row.value = k := by
  obtain ⟨hreach, hturn⟩ := h.parts
  have hs : (routeSync cfg fd).Reachable s := hreach.run hr.of_restrict
  have hinv := inv_of_reachable hs
  have hturn' := afterTurn_of_works hr hturn
  have hquiet := quiet_of_atRest hs (idle_of_afterTurn hturn').2 hrest
  have hentry : (agentStore cfg).get s.agents.agentRoutes (modKey modid cmdid) = some lb := by
    simp only [Store.split, homeOf_modKey]
    exact hget
  obtain ⟨c, hc, hopen, hmem, hcurrent⟩ := hinv.current hquiet hentry
  obtain ⟨hstatus, hempty, hhosts⟩ :=
    hcurrent.agrees fun _ ha ↦ last_answer_rows hturn' hquiet.settled hc hopen hmem ha
  exact ⟨hinv.sound _ lb hentry, hstatus, hempty, fun k ↦ (hhosts k).trans mem_hosts_tableOf⟩

end Ylars.System
