import Ylars.System.BytesCatchUp
import Ylars.System.Deployment

/-!
# From the database to the agent

`WireDeployment` is the database, which its clients edit, the dns server on it, and the agent on
a connection of the server, in bytes.  Its messages are a run of `Deployment`
(`messages_of_deployed`).  So when the clients keep to the rules, and a version change has come
when all edits were complete, the work that is left ends with the rows of `RouteData` as the
hosts of each module that the agent knows (`agents_have_rows`).

The responses have to be within the limit of the client, which otherwise closes the connection,
and nobody may ask for the module 0, for which the request has no payload.
-/

namespace Ylars.System

open Std (ExtTreeMap)
open Ylars.Lib Ylars.Proto Ylars.Reactor Ylars.Agent Ylars.Dns

/-- The database, and the server and the agent with their connection. -/
structure WireDeployment where
  world : World
  wire : WireSync

/-- What happens next. -/
inductive WireDeployEvent where
  /-- A statement of another client of the database. -/
  | client (op : ClientOp)
  /-- The update thread of the server goes on. -/
  | updater (elapsed : Int) (p₁ p₂ : AmplePool)
  /-- Something else happens in the server, in the agent or on the connection. -/
  | wire (e : WireEvent)

/-- Whether the update thread of the server does it. -/
def WireEvent.isUpdater : WireEvent → Bool
  | .dns e _ _ => e.isUpdater
  | _ => false

namespace WireDeployment

/-- One step. -/
def step (cfg : LoadBalanceConfig) (nlMsgmax fd : Int) (d : WireDeployment) :
    WireDeployEvent → Option WireDeployment
  | .client op => some { d with world := d.world.client op }
  | .updater elapsed p₁ p₂ =>
      (d.wire.step cfg nlMsgmax fd (.dns (.updater (d.world.answers .ok elapsed)) p₁ p₂)).map
        fun wire ↦ ⟨d.world.follow d.wire.dns.sending elapsed, wire⟩
  | .wire e =>
      if e.isUpdater then none
      else (d.wire.step cfg nlMsgmax fd e).map fun wire ↦ { d with wire := wire }

/-- The server on its database, and the messages between it and the agent. -/
def messages (d : WireDeployment) : Deployment := ⟨d.world, d.wire.toSync⟩

/-- The clients keep to the rules, and a load keeps what is lost; no call on the connection fails,
no end is closed, no module has more than `n` hosts, and nobody asks for the module 0. -/
def Keeps (nlMsgmax : Int) (n : ℕ) (d : WireDeployment) : WireDeployEvent → Prop
  | .client op => d.messages.Keeps (.client op)
  | .updater elapsed _ _ => d.messages.Keeps (.updater elapsed) ∧ FewInTables n d.wire.dns
  | .wire e => d.wire.Smooth nlMsgmax n e ∧ e.Asks (· ≠ 0)

/-- No client edits the database. -/
def NoEdits (_ : WireDeployment) : WireDeployEvent → Prop
  | .client _ => False
  | _ => True

end WireDeployment

/-- The runs of the whole, from when the agent has been connected. -/
def wireDeployment (cfg : LoadBalanceConfig) (nlMsgmax fd : Int) (n : ℕ) :
    LTS WireDeployment WireDeployEvent where
  init d := (d.wire.Initial fd ∧ d.wire.link.Fresh) ∧ dbServer.Reachable ⟨d.world, d.wire.dns⟩ ∧
    (dnsServer.restrict fun _ e ↦ e.Asks (· ≠ 0)).Reachable d.wire.dns
  step d e t := d.Keeps nlMsgmax n e ∧ d.step cfg nlMsgmax fd e = some t

/-- A state after a version-change turn that started when all edits were complete, with no
edit since. -/
def WireDeployment.AfterTurn (cfg : LoadBalanceConfig) (nlMsgmax fd : Int) (n : ℕ)
    (u : WireDeployment) : Prop :=
  ∃ s elapsed p₁ p₂ t es, (wireDeployment cfg nlMsgmax fd n).Reachable s ∧ s.world.Complete ∧
    s.world.publisher.phase = .checkVersion ∧
    (wireDeployment cfg nlMsgmax fd n).step s (.updater elapsed p₁ p₂) t ∧
    t.world.publisher.phase = .loadRouteData true ∧
    ((wireDeployment cfg nlMsgmax fd n).restrict WireDeployment.NoEdits).Run t es u ∧
    u.world.publisher.phase = .checkVersion

variable {cfg : LoadBalanceConfig} {nlMsgmax fd : Int} {n : ℕ} {d t : WireDeployment}
  {e : WireDeployEvent}

/-! ## The messages -/

/-- What a step does to the connection: a client of the database leaves it alone, and everything
else is a step of it that disturbs nothing. -/
theorem wire_step (hst : (wireDeployment cfg nlMsgmax fd n).step d e t) :
    t.wire = d.wire ∨ ∃ e', (d.wire.Smooth nlMsgmax n e' ∧ e'.Asks (· ≠ 0)) ∧
      d.wire.step cfg nlMsgmax fd e' = some t.wire := by
  obtain ⟨hk, hst⟩ := hst
  cases e with
  | client op =>
      obtain rfl := Option.some.inj hst
      exact .inl rfl
  | updater elapsed p₁ p₂ =>
      obtain ⟨wire, hwire, rfl⟩ := Option.map_eq_some_iff.mp hst
      refine .inr ⟨.dns (.updater _) p₁ p₂, ⟨hk.2, fun e' he' ↦ ?_⟩, hwire⟩
      obtain rfl := Option.some.inj he'
      exact trivial
  | wire e =>
      simp only [WireDeployment.step, Option.ite_none_left_eq_some] at hst
      obtain ⟨wire, hwire, rfl⟩ := Option.map_eq_some_iff.mp hst.2
      exact .inr ⟨e, hk, hwire⟩

/-- Every step keeps the connection steady. -/
theorem steady_of_step (hn : 12 + 14 * (n : Int) ≤ nlMsgmax) (hmax : nlMsgmax < 2 ^ 31)
    (h : Steady cfg nlMsgmax fd d.wire) (hst : (wireDeployment cfg nlMsgmax fd n).step d e t) :
    Steady cfg nlMsgmax fd t.wire := by
  rcases wire_step hst with he | ⟨e', hc, hwire⟩
  · rwa [he]
  · exact h.step hn hmax hc hwire

/-- The step of the update thread is one for the messages. -/
theorem messages_updater {elapsed : Int} {p₁ p₂ : AmplePool} (h : Steady cfg nlMsgmax fd d.wire)
    (ht : t.wire.link.Open)
    (hst : (wireDeployment cfg nlMsgmax fd n).step d (.updater elapsed p₁ p₂) t) :
    (deployment cfg fd).step d.messages (.updater elapsed) t.messages := by
  obtain ⟨hk, hst⟩ := hst
  obtain ⟨wire, hwire, rfl⟩ := Option.map_eq_some_iff.mp hst
  refine ⟨hk.1, ?_⟩
  rcases sync_cases (link_of_reachable h.reachable) hwire ht with
    ⟨he, -⟩ | ⟨⟨a, he⟩, -⟩ | ⟨e', he', hsync⟩
  · cases he
  · cases he
  · obtain rfl := Option.some.inj he'
    simp only [Deployment.step]
    exact Option.map_eq_some_iff.mpr ⟨_, hsync, rfl⟩

/-- Every step is one for the messages, or none. -/
theorem messages_step (h : Steady cfg nlMsgmax fd d.wire) (ht : t.wire.link.Open)
    (hst : (wireDeployment cfg nlMsgmax fd n).step d e t) :
    t.messages = d.messages ∨ ∃ e', (deployment cfg fd).step d.messages e' t.messages ∧
      (d.NoEdits e → d.messages.NoEdits e') := by
  cases e with
  | client op =>
      obtain ⟨hk, hst⟩ := hst
      obtain rfl := Option.some.inj hst
      exact .inr ⟨.client op, ⟨hk, rfl⟩, id⟩
  | updater elapsed p₁ p₂ => exact .inr ⟨.updater elapsed, messages_updater h ht hst, id⟩
  | wire e =>
      obtain ⟨-, hst⟩ := hst
      simp only [WireDeployment.step, Option.ite_none_left_eq_some] at hst
      obtain ⟨hother, hst⟩ := hst
      obtain ⟨wire, hwire, rfl⟩ := Option.map_eq_some_iff.mp hst
      rcases sync_step (link_of_reachable h.reachable) hwire ht with he | ⟨e', he', hsync⟩
      · exact .inl (congrArg (Deployment.mk d.world) he)
      · have hupdater : ¬e'.isUpdater = true := by
          cases e with
          | agent | sendTask | request =>
              obtain rfl := Option.some.inj he'
              exact Bool.false_ne_true
          | dns e p₁ p₂ =>
              obtain rfl := Option.some.inj he'
              exact hother
          | link op => cases he'
        refine .inr ⟨.sync e', ⟨trivial, ?_⟩, id⟩
        simp only [Deployment.step, if_neg hupdater]
        exact Option.map_eq_some_iff.mpr ⟨_, hsync, rfl⟩

/-- **The messages are a run of `Deployment`**, and the connection is steady. -/
theorem messages_of_deployed (hn : 12 + 14 * (n : Int) ≤ nlMsgmax) (hmax : nlMsgmax < 2 ^ 31)
    (h : (wireDeployment cfg nlMsgmax fd n).Reachable d) :
    Steady cfg nlMsgmax fd d.wire ∧ (deployment cfg fd).Reachable d.messages := by
  refine h.induction (I := fun d ↦ Steady cfg nlMsgmax fd d.wire ∧
    (deployment cfg fd).Reachable d.messages) ?_ ?_
  · rintro d ⟨⟨hinit, hfresh⟩, hdb, hdns⟩
    refine ⟨steady_initial hinit hfresh hdns, .init ⟨?_, hdb⟩⟩
    show RouteSync.Initial fd d.wire.toSync
    rw [initial_toSync hinit]
    exact hinit.sync
  · rintro d e t - ⟨hsteady, hreach⟩ hst
    have ht := steady_of_step hn hmax hsteady hst
    refine ⟨ht, ?_⟩
    rcases messages_step hsteady ht.flows.opened hst with he | ⟨e', hstep, -⟩
    · rwa [he]
    · exact hreach.step hstep

/-- After the last turn of the whole, the messages are after it. -/
theorem WireDeployment.AfterTurn.messages (hn : 12 + 14 * (n : Int) ≤ nlMsgmax)
    (hmax : nlMsgmax < 2 ^ 31) (h : d.AfterTurn cfg nlMsgmax fd n) :
    Steady cfg nlMsgmax fd d.wire ∧ d.messages.AfterTurn cfg fd := by
  obtain ⟨s, elapsed, p₁, p₂, t, es, hs, hcomplete, hcheck, hstart, hnew, hrun, hdone⟩ := h
  obtain ⟨hsteady, hreach⟩ := messages_of_deployed hn hmax hs
  have ht := steady_of_step hn hmax hsteady hstart
  obtain ⟨hd, es', hrun'⟩ : Steady cfg nlMsgmax fd d.wire ∧ ∃ es',
      ((deployment cfg fd).restrict Deployment.NoEdits).Run t.messages es' d.messages := by
    refine hrun.map_of (I := fun d ↦ Steady cfg nlMsgmax fd d.wire) (fun d e t hi hst ↦ ?_) ht
    have ht := steady_of_step hn hmax hi hst.2
    exact ⟨ht, (messages_step hi ht.flows.opened hst.2).imp_right
      fun ⟨e', hstep, hno⟩ ↦ ⟨e', hno hst.1, hstep⟩⟩
  exact ⟨hd, s.messages, elapsed, t.messages, es', hreach, hcomplete, hcheck,
    messages_updater hsteady ht.flows.opened hstart, hnew, hrun', hdone⟩

/-! ## The rows come to the agent -/

/-- When the work that is left after the last turn is done, the connection is open and every
module that the agent knows has the hosts of its rows. -/
theorem rows_of_rest_bytes (hn : 12 + 14 * (n : Int) ≤ nlMsgmax) (hmax : nlMsgmax < 2 ^ 31)
    (h : d.AfterTurn cfg nlMsgmax fd n) (hfew : FewInTables n d.wire.dns) {es : List WireEvent}
    {w : WireSync} (hr : (wireWorking cfg nlMsgmax fd).Run d.wire es w)
    (hrest : (wireWorking cfg nlMsgmax fd).AtRest w) {modid cmdid : UInt32} {lb : LoadBalance}
    (hget : (w.agents.agentRoutes (agentIndex modid cmdid)).routeMap[modKey modid cmdid]? =
      some lb) :
    lb.Sound (modKey modid cmdid) ∧ lb.status = some .new ∧ lb.empty = false ∧
      ∀ k, k ∈ lb.hostMap ↔
        ∃ row ∈ d.world.routes, row.modid = modid ∧ row.cmdid = cmdid ∧ row.value = k := by
  obtain ⟨hsteady, hturn⟩ := h.messages hn hmax
  obtain ⟨⟨hw, hwfew⟩, es', hrun⟩ := sync_of_wireWorks hn hmax hr ⟨hsteady, hfew⟩
  exact rows_of_rest hturn hrun (hw.atRest_sync hn hmax hwfew hrest) hget

/-- **The agent has the rows of the database.**  Let the clients of the database edit, log and
raise the version as the rules say, and the server, the agent and their connection do anything,
as long as no call on the connection fails and no end is closed, no module has more than `n`
hosts, a response with `n` hosts is within the limit of the client, and nobody asks for the
module 0.  After a version-change turn that started when all edits were complete, and with no
edit since: what is left to do comes to an end in every order, and when it has, the connection is
open and every module that the agent knows has some hosts, and they are those of the rows of the
module in `RouteData`. -/
theorem agents_have_rows (hn : 12 + 14 * (n : Int) ≤ nlMsgmax) (hmax : nlMsgmax < 2 ^ 31)
    (h : d.AfterTurn cfg nlMsgmax fd n) (hfew : FewInTables n d.wire.dns) :
    (¬∃ u : ℕ → WireSync, u 0 = d.wire ∧
        ∀ k, (wireWorking cfg nlMsgmax fd).Next (u (k + 1)) (u k)) ∧
      (∃ es w, (wireWorking cfg nlMsgmax fd).Run d.wire es w ∧
        (wireWorking cfg nlMsgmax fd).AtRest w) ∧
      ∀ es w, (wireWorking cfg nlMsgmax fd).Run d.wire es w →
        (wireWorking cfg nlMsgmax fd).AtRest w → w.link.Open ∧ ∀ modid cmdid lb,
          (w.agents.agentRoutes (agentIndex modid cmdid)).routeMap[modKey modid cmdid]? = some lb →
            lb.status = some .new ∧ lb.empty = false ∧ ∀ k, k ∈ lb.hostMap ↔
              ∃ row ∈ d.world.routes, row.modid = modid ∧ row.cmdid = cmdid ∧ row.value = k := by
  obtain ⟨hsteady, -⟩ := h.messages hn hmax
  have hacc := acc_wireWorking hn hmax hsteady hfew
  refine ⟨LTS.not_forever hacc, LTS.exists_atRest hacc, fun es w hr hrest ↦ ⟨?_, ?_⟩⟩
  · exact (sync_of_wireWorks hn hmax hr ⟨hsteady, hfew⟩).1.1.flows.opened
  · exact fun modid cmdid lb hget ↦ (rows_of_rest_bytes hn hmax h hfew hr hrest hget).2

/-- A database with one host, a server with one worker, and the agent on its connection 5. -/
def deployed : WireDeployment where
  world := oneHost
  wire := {
    agents := Agents.new
    dns := (DnsServer.start 1 oneHost.publisher.router).next (.connect 0 5)
    link := .new .new 3 .new 5 }

/-- A client of the agent asks for the host. -/
def asked₁ : WireDeployment :=
  { deployed with wire := deployed.wire.next .default 121 5 (.agent (.getHost 1 1 1 100)) }

/-- The version is raised. -/
def raised : WireDeployment := { asked₁ with world := oneHost.client (.setVersion 1) }

/-- The state after a step, if it can be taken. -/
def WireDeployment.next (cfg : LoadBalanceConfig) (nlMsgmax fd : Int) (d : WireDeployment)
    (e : WireDeployEvent) : WireDeployment := (d.step cfg nlMsgmax fd e).getD d

/-- The turn of the update thread after its first statement. -/
def turn : List WireDeployEvent := List.replicate 7 (.updater 12 exactPool exactPool)

/-- The state after the turn. -/
def turned : WireDeployment :=
  turn.foldl (WireDeployment.next .default 121 5)
    (raised.next .default 121 5 (.updater 12 exactPool exactPool))

theorem WireDeployment.next_step (hk : d.Keeps nlMsgmax n e)
    (h : (d.step cfg nlMsgmax fd e).isSome = true) :
    (wireDeployment cfg nlMsgmax fd n).step d e (d.next cfg nlMsgmax fd e) := by
  obtain ⟨t, ht⟩ := Option.isSome_iff_exists.mp h
  refine ⟨hk, ?_⟩
  show d.step cfg nlMsgmax fd e = some ((d.step cfg nlMsgmax fd e).getD d)
  rw [ht]
  rfl

/-- The table of the database with one host. -/
abbrev oneTable : RouterMap := Router.tableOf [⟨1, 1, 3232235953, 7777⟩]

theorem few_oneHost {dns : DnsServer}
    (h : ∀ tab ∈ dns.tables, tab = oneTable) :
    FewInTables 7 dns := by
  intro tab htab key
  rw [h tab htab]
  exact (size_lookup_tableOf _ key).trans (by decide)

theorem raised_reachable : (wireDeployment .default 121 5 7).Reachable raised := by
  have hstart : dbServer.Reachable ⟨oneHost, DnsServer.start 1 oneHost.publisher.router⟩ :=
    .init ⟨1, _, _, _, rfl, rfl⟩
  have hdb : dbServer.Reachable ⟨deployed.world, deployed.wire.dns⟩ :=
    hstart.step (a := .other (.connect 0 5)) ⟨trivial, rfl⟩
  have hdns : (dnsServer.restrict fun _ e ↦ e.Asks (· ≠ 0)).Reachable deployed.wire.dns :=
    .step (a := .connect 0 5) (.init ⟨1, _, rfl⟩) ⟨trivial, rfl⟩
  have hinit : deployed.wire.Initial 5 :=
    ⟨⟨rfl, (dbInv_of_reachable hdb).server, _, ExtTreeMap.getElem?_insert_self, rfl, rfl, rfl⟩,
      .new, 3, .new, by decide, by decide, rfl⟩
  have hdeployed : (wireDeployment .default 121 5 7).Reachable deployed :=
    .init ⟨⟨hinit, Duplex.fresh_new⟩, hdb, hdns⟩
  have hasked : (wireDeployment .default 121 5 7).step deployed
      (.wire (.agent (.getHost 1 1 1 100))) asked₁ := by
    refine ⟨⟨few_oneHost (List.forall_mem_singleton.mpr rfl), fun e he ↦ ?_⟩, rfl⟩
    obtain rfl := Option.some.inj he
    show modKey 1 1 ≠ 0
    decide
  exact (hdeployed.step hasked).step (a := .client (.setVersion 1))
    ⟨UInt32.lt_iff_toNat_lt.mpr (by decide), rfl⟩

/-- The turn of the update thread can be taken, and the whole is then after its last turn. -/
theorem turned_afterTurn : turned.AfterTurn .default 121 5 7 := by
  have hkeeps : ∀ d : WireDeployment, d.world.last = oneHost.last →
      (∀ publishes, d.world.publisher.phase = .loadRouteData publishes → publishes = true) →
      FewInTables 7 d.wire.dns → d.Keeps 121 7 (.updater 12 exactPool exactPool) := by
    refine fun d hlast htrue hfew ↦ ⟨fun _ publishes hp ↦ ?_, hfew⟩
    obtain rfl := htrue publishes hp
    show Within _ d.world.last _
    rw [hlast]
    exact within_oneHost _ _
  -- Before the swap both tables are the old one, after it one more is there.
  have hone {dns : DnsServer} (h : dns.tables = [oneTable]) : FewInTables 7 dns := by
    refine few_oneHost ?_
    rw [h]
    exact List.forall_mem_singleton.mpr rfl
  have htwo {dns : DnsServer} (h : dns.tables = [oneTable, oneTable]) : FewInTables 7 dns := by
    refine few_oneHost ?_
    rw [h]
    exact List.forall_mem_cons.mpr ⟨rfl, List.forall_mem_singleton.mpr rfl⟩
  refine ⟨raised, 12, exactPool, exactPool, _, turn, raised_reachable, ⟨fun _ _ ↦ rfl, ?_⟩, rfl,
    WireDeployment.next_step (hkeeps _ rfl (fun _ h ↦ by cases h) (hone rfl)) rfl, by decide, ?_,
    by decide⟩
  · exact fun c hc ↦ absurd hc List.not_mem_nil
  · refine LTS.Run.foldl (M := (wireDeployment .default 121 5 7).restrict WireDeployment.NoEdits)
      (C := fun d e ↦ d.NoEdits e ∧ d.Keeps 121 7 e ∧ (d.step .default 121 5 e).isSome = true)
      (fun _ _ h ↦ ⟨h.1, WireDeployment.next_step h.2.1 h.2.2⟩)
      ⟨⟨trivial, hkeeps _ rfl (fun _ h ↦ (Phase.loadRouteData.inj h).symm) (hone rfl), rfl⟩,
        ⟨trivial, hkeeps _ rfl (fun _ h ↦ by cases h) (hone rfl), rfl⟩,
        ⟨trivial, hkeeps _ rfl (fun _ h ↦ by cases h) (htwo rfl), rfl⟩,
        ⟨trivial, hkeeps _ rfl (fun _ h ↦ by cases h) (htwo rfl), rfl⟩,
        ⟨trivial, ⟨(fun h ↦ by cases h), htwo rfl⟩, rfl⟩,
        ⟨trivial, ⟨(fun h ↦ by cases h), htwo rfl⟩, rfl⟩,
        ⟨trivial, ⟨(fun _ _ h ↦ by cases h), htwo rfl⟩, rfl⟩, trivial⟩

theorem turned_few : FewInTables 7 turned.wire.dns :=
  few_oneHost (List.forall_mem_cons.mpr ⟨rfl, List.forall_mem_singleton.mpr rfl⟩)

theorem agents_have_rows_turned :
    (¬∃ u : ℕ → WireSync, u 0 = turned.wire ∧
        ∀ k, (wireWorking .default 121 5).Next (u (k + 1)) (u k)) ∧
      (∃ es w, (wireWorking .default 121 5).Run turned.wire es w ∧
        (wireWorking .default 121 5).AtRest w) ∧
      ∀ es w, (wireWorking .default 121 5).Run turned.wire es w →
        (wireWorking .default 121 5).AtRest w → w.link.Open ∧ ∀ modid cmdid lb,
          (w.agents.agentRoutes (agentIndex modid cmdid)).routeMap[modKey modid cmdid]? = some lb →
            lb.status = some .new ∧ lb.empty = false ∧ ∀ k, k ∈ lb.hostMap ↔
              ∃ row ∈ turned.world.routes,
                row.modid = modid ∧ row.cmdid = cmdid ∧ row.value = k :=
  agents_have_rows (by decide) (by decide) turned_afterTurn turned_few

end Ylars.System
