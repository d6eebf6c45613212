import Ylars.Api.Requests
import Ylars.Reactor.Delivery
import Ylars.Reporter.ReportWire
import Ylars.Reporter.StoreReport

/-!
# From the agent to the database

Each report of a client makes the `route_lb` of its module commit a status report, which goes
through the report queue, the connection of the report client and a task queue of the
reporter to a writer, and into the table.  `ReportFlow` is all of this: the connection is the
`Link` with its buffers, its writes in pieces and its reads in pieces, and the reporter is
`ReportServer`.

A status report has an entry for each host of its module, and a message has a largest size.
When no module has more than `maxHosts` hosts, all of them fit, and the reporter gets the
status reports in the order in which they were committed, each once and unchanged
(`reports_arrive`).
-/

namespace Ylars.System

open Std (ExtTreeMap)
open Ylars.Lib Ylars.Lib.Overwrite
open Ylars.Proto Ylars.Reactor Ylars.Agent Ylars.Api Ylars.Reporter

/-- The message with a status report. -/
def reportMsg (rep : ReportStatusReq) : Message :=
  MessageId.reportStatusRequest.message rep.serialize

/-- What the reporter makes of a message: the router calls `deal_report`, which parses it. -/
def dealMsg {κ : Type} (cnt : ℕ) (s : ReportServer κ) (m : Message) : ReportServer κ :=
  if m.msgid = MessageId.reportStatusRequest.code then
    let (rep, ok) := ReportStatusReq.parse m.data
    if ok then s.dealReport cnt rep else s
  else s

/-- The agent, the connection to the reporter, and the reporter. -/
structure ReportFlow (κ : Type) where
  routes : Fin 3 → RouteLb
  /-- The report queue. -/
  queue : List ReportStatusReq
  /-- What `report_task_cb` has taken from it and not sent yet. -/
  tasks : List ReportStatusReq
  link : Link
  reporter : ReportServer κ
  /-- The status reports that have been committed. -/
  committed : List ReportStatusReq

/-- What happens next. -/
inductive FlowEvent where
  /-- Something happens to a `route_lb`. -/
  | op (a : RouteOp)
  /-- `report_task_cb` takes the tasks of the queue. -/
  | recvTasks
  /-- `report_task_cb` sends one. -/
  | sendTask (p₁ p₂ : AmplePool)
  /-- The socket of the report client becomes writable. -/
  | writable (soError : Int) (res : List WriteResult)
  /-- A chunk arrives at the reporter. -/
  | deliver (p : AmplePool) (chunk : List UInt8)
  /-- A writer of the reporter takes its tasks. -/
  | writerTasks (i : ℕ)
  /-- A writer executes a statement. -/
  | execute (i : ℕ)

namespace ReportFlow

variable {κ : Type}

/-- One step. -/
def step (cfg : LoadBalanceConfig) (cnt : ℕ) (s : ReportFlow κ) : FlowEvent → Option (ReportFlow κ)
  | .op a =>
      match (agentStore cfg).step a s.routes with
      | .error _ => none
      | .ok (b, routes) => some { s with
          routes := routes
          queue := s.queue ++ (statusOf b).toList
          committed := s.committed ++ (statusOf b).toList }
  | .recvTasks =>
      match s.tasks with
      | [] => some { s with tasks := s.queue, queue := [] }
      | _ :: _ => none
  | .sendTask p₁ p₂ =>
      match s.tasks with
      | [] => none
      | rep :: tasks =>
          (s.link.step (.send p₁ p₂ (reportMsg rep))).toOption.map fun link ↦
            { s with tasks := tasks, link := link }
  | .writable soError res =>
      if s.link.Enabled (.writable soError res) then
        (s.link.step (.writable soError res)).toOption.map fun link ↦ { s with link := link }
      else none
  | .deliver p chunk =>
      if s.link.Enabled (.deliver p chunk) then
        (s.link.step (.deliver p chunk)).toOption.map fun link ↦ { s with
          link := link
          reporter := (link.received.drop s.link.received.length).foldl (dealMsg cnt) s.reporter }
      else none
  | .writerTasks i => (s.reporter.step cnt (.recvTasks i)).map fun reporter ↦
      { s with reporter := reporter }
  | .execute i => (s.reporter.step cnt (.execute i)).map fun reporter ↦
      { s with reporter := reporter }

/-- The agent and the reporter at their start, and a new connection. -/
structure Initial (start : ℕ) (table : StatusTable) (s : ReportFlow κ) : Prop where
  routes : s.routes = fun _ ↦ RouteLb.new
  queue : s.queue = []
  tasks : s.tasks = []
  link : Link.runs.init s.link
  reporter : s.reporter.Initial start table
  committed : s.committed = []

/-- Nothing is on its way to the reporter. -/
structure Sent (s : ReportFlow κ) : Prop where
  queue : s.queue = []
  tasks : s.tasks = []
  opened : 0 ≤ s.link.client.sockfd
  obuf : s.link.client.obuf.content = []
  wire : s.link.wire = []

end ReportFlow

/-- The most hosts whose status report is sure to fit into a message. -/
def maxHosts : ℕ := 2339

/-- The dns server gives no module more hosts than that. -/
def FewHosts : FlowEvent → Prop
  | .op (.updateHost res _) => res.host.length ≤ maxHosts
  | _ => True

/-- The runs of the agent and the reporter. -/
def reportFlow (κ : Type) (cfg : LoadBalanceConfig) (cnt start : ℕ) (table : StatusTable) :
    LTS (ReportFlow κ) FlowEvent where
  init := ReportFlow.Initial start table
  step s e t := s.step cfg cnt e = some t

variable {κ : Type} {cfg : LoadBalanceConfig} {cnt start : ℕ} {table : StatusTable}
  {s t : ReportFlow κ} {rep : ReportStatusReq}

/-! ## The size of a status report -/

/-- The entries have few hosts. -/
def Sized (cfg : LoadBalanceConfig) (routes : Fin 3 → RouteLb) : Prop :=
  ∀ k lb, (agentStore cfg).get routes k = some lb → lb.hostMap.size ≤ maxHosts

/-- A status report has no more entries than the module has hosts. -/
theorem length_commit_le {lb : LoadBalance} (h : lb.WellFormed) {now : Int}
    (hc : lb.commit now = some rep) : rep.result.length ≤ lb.hostMap.size := by
  have hnodup : (rep.result.map fun e ↦ Agent.hostKey e.ip e.port).Nodup := by
    refine List.nodup_iff_count_le_one.mpr fun k ↦ ?_
    by_cases hk : k ∈ lb.hostMap
    · obtain ⟨p, hp⟩ := Table.mem_iff_getElem?.mp hk
      have hone := congrArg List.length (h.commit_entry hc hp)
      rw [List.count_eq_countP, List.countP_map, List.countP_eq_length_filter]
      exact Nat.le_of_eq hone
    · rw [List.count_eq_zero.mpr]
      · exact Nat.zero_le 1
      · intro hmem
        obtain ⟨e, he, rfl⟩ := List.mem_map.mp hmem
        exact hk (h.commit_known hc he)
  exact Table.length_le_size hnodup fun e he ↦ h.commit_known hc he

/-- A status report that an operation commits is that of an entry it leaves. -/
theorem commit_of_status {a : RouteOp} {b : RouteResult} {v v' : Option LoadBalance}
    (hact : Entry.act cfg a v = .ok (b, v')) (hrep : rep ∈ statusOf b) :
    ∃ lb ∈ v', ∃ now, lb.commit now = some rep := by
  cases a with
  | getHost seq modid cmdid now =>
      cases v with
      | none =>
          obtain ⟨rfl, -⟩ := Prod.mk.inj (Except.ok.inj hact)
          cases hrep
      | some lb =>
          simp only [Entry.act, Outcome.bind_eq_ok] at hact
          obtain ⟨⟨ret, res, lb₁⟩, -, ⟨pulls, lb₂⟩, -, hb⟩ := hact
          obtain ⟨rfl, -⟩ := Prod.mk.inj (Except.ok.inj hb)
          cases hrep
  | getRoute modid cmdid now =>
      cases v with
      | none =>
          obtain ⟨rfl, -⟩ := Prod.mk.inj (Except.ok.inj hact)
          cases hrep
      | some lb =>
          simp only [Entry.act, Outcome.bind_eq_ok] at hact
          obtain ⟨⟨pulls, lb₁⟩, -, hb⟩ := hact
          obtain ⟨rfl, -⟩ := Prod.mk.inj (Except.ok.inj hb)
          cases hrep
  | reportHost req clock =>
      cases v with
      | none =>
          obtain ⟨rfl, -⟩ := Prod.mk.inj (Except.ok.inj hact)
          cases hrep
      | some lb =>
          simp only [Entry.act, Outcome.bind_eq_ok] at hact
          obtain ⟨lb₁, -, hb⟩ := hact
          obtain ⟨rfl, rfl⟩ := Prod.mk.inj (Except.ok.inj hb)
          exact ⟨lb₁, rfl, clock 3, hrep⟩
  | updateHost res clock =>
      obtain rfl := Entry.updated_of_act hact
      cases hrep

/-- A status report on few hosts fits into a message. -/
theorem reportMsg_le (h : rep.result.length ≤ maxHosts) :
    ((reportMsg rep).data.length : Int) ≤ msgMaxLimit := by
  have hlen := rep.length_serialize_le
  have hmax : maxHosts = 2339 := rfl
  show (rep.serialize.length : Int) ≤ msgMaxLimit
  rw [msgMaxLimit, msgHeadLen]
  omega

/-- A status report has a payload, since it names its caller. -/
theorem reportMsg_ne_nil (h : rep.caller ≠ 0) : (reportMsg rep).data ≠ [] := by
  show rep.serialize ≠ []
  intro hnil
  have hcaller : Protobuf.int32Field 3 rep.caller ≠ [] := by
    rw [Protobuf.int32Field, if_neg h]
    exact List.cons_ne_nil _ _
  obtain ⟨f, fs, hf⟩ := List.exists_cons_of_ne_nil hcaller
  have hpos := f.length_encode_pos
  have hlen := congrArg List.length hnil
  simp only [ReportStatusReq.serialize, ReportStatusReq.fields, hf, Protobuf.encode_append,
    Protobuf.encode_cons, List.length_append, List.length_nil] at hlen
  omega

theorem parse_reportMsg (rep : ReportStatusReq) :
    (ReportStatusReq.parse (reportMsg rep).data).1 = rep :=
  congrArg Prod.fst rep.parse_serialize

theorem dealMsg_reportMsg (cnt : ℕ) (s : ReportServer κ) (rep : ReportStatusReq) :
    dealMsg cnt s (reportMsg rep) = s.dealReport cnt rep := by
  have hparse : ReportStatusReq.parse (reportMsg rep).data = (rep, true) := rep.parse_serialize
  have hid : (reportMsg rep).msgid = MessageId.reportStatusRequest.code := rfl
  rw [dealMsg, if_pos hid, hparse]
  exact if_pos rfl

theorem foldl_dealMsg (reps : List ReportStatusReq) {r : ReportServer κ}
    (h : (reportServer κ cnt start table).Reachable r) :
    (reportServer κ cnt start table).Reachable ((reps.map reportMsg).foldl (dealMsg cnt) r) ∧
      ((reps.map reportMsg).foldl (dealMsg cnt) r).received = r.received ++ reps := by
  induction reps generalizing r with
  | nil => exact ⟨h, (List.append_nil _).symm⟩
  | cons rep reps ih =>
      obtain ⟨hr, hrec⟩ := ih (h.step (a := .dealReport rep) rfl)
      rw [List.map_cons, List.foldl_cons, dealMsg_reportMsg]
      refine ⟨hr, hrec.trans ?_⟩
      exact List.append_assoc r.received [rep] reps

theorem received_of_writerTasks {r r' : ReportServer κ} {i : ℕ}
    (h : r.step cnt (.recvTasks i) = some r') : r'.received = r.received := by
  simp only [ReportServer.step, Option.ite_none_right_eq_some, ReportServer.recvTasks] at h
  obtain ⟨-, h⟩ := h
  split at h
  · obtain rfl := Option.some.inj h
    rfl
  · cases h

theorem received_of_execute {r r' : ReportServer κ} {i : ℕ}
    (h : r.step cnt (.execute i) = some r') : r'.received = r.received := by
  simp only [ReportServer.step, Option.ite_none_right_eq_some, ReportServer.execute] at h
  obtain ⟨-, h⟩ := h
  split at h
  · cases h
  · obtain rfl := Option.some.inj h
    rfl

/-! ## The link -/

theorem sent_of_send {l l' : Link} {p₁ p₂ : AmplePool} {m : Message}
    (h : l.step (.send p₁ p₂ m) = .ok l') : l'.sent = l.sent ++ [m] ∧ l'.received = l.received := by
  simp only [Link.step, Outcome.bind_eq_ok] at h
  obtain ⟨⟨ret, client⟩, -, hl⟩ := h
  obtain rfl := Except.ok.inj hl
  exact ⟨rfl, rfl⟩

theorem sent_of_writable {l l' : Link} {soError : Int} {res : List WriteResult}
    (h : l.step (.writable soError res) = .ok l') :
    l'.sent = l.sent ∧ l'.received = l.received := by
  simp only [Link.step] at h
  split at h
  · obtain ⟨client, -, hl⟩ := Outcome.bind_eq_ok.mp h
    obtain rfl := Except.ok.inj hl
    exact ⟨rfl, rfl⟩
  · obtain ⟨⟨taken, client⟩, -, hl⟩ := Outcome.bind_eq_ok.mp h
    obtain rfl := Except.ok.inj hl
    exact ⟨rfl, rfl⟩
  · obtain rfl := Except.ok.inj h
    exact ⟨rfl, rfl⟩

theorem received_of_deliver {l l' : Link} {p : AmplePool} {chunk : List UInt8}
    (h : l.step (.deliver p chunk) = .ok l') :
    l'.sent = l.sent ∧ ∃ ms, l'.received = l.received ++ ms := by
  simp only [Link.step, Outcome.bind_eq_ok] at h
  obtain ⟨⟨ms, conn⟩, -, hl⟩ := h
  obtain rfl := Except.ok.inj hl
  exact ⟨rfl, ms, rfl⟩

theorem isPrefix_received {l : Link} (h : Link.runs.Reachable l) : l.received <+: l.sent := by
  have hi := Link.inv_of_reachable h
  exact hi.reads.isPrefix hi.legal hi.read_isPrefix

/-! ## The invariant -/

/-- A status report can be sent. -/
structure Sendable (rep : ReportStatusReq) : Prop where
  ne_nil : (reportMsg rep).data ≠ []
  le : ((reportMsg rep).data.length : Int) ≤ msgMaxLimit

/-- What every step keeps. -/
structure FlowInv (cfg : LoadBalanceConfig) (cnt start : ℕ) (table : StatusTable)
    (s : ReportFlow κ) : Prop where
  sound : AgentsSound cfg s.routes
  sized : Sized cfg s.routes
  sendable : ∀ rep ∈ s.committed, Sendable rep
  /-- What is not in the queue any more is with the task or has been sent. -/
  sent : s.link.sent ++ (s.tasks ++ s.queue).map reportMsg = s.committed.map reportMsg
  link : Link.runs.Reachable s.link
  /-- The reporter has dealt what has arrived. -/
  received : s.reporter.received.map reportMsg = s.link.received
  reporter : (reportServer κ cnt start table).Reachable s.reporter

namespace FlowInv

/-- What waits to be sent has been committed. -/
theorem mem_committed (h : FlowInv cfg cnt start table s) (hrep : rep ∈ s.tasks ++ s.queue) :
    rep ∈ s.committed := by
  have hmem : reportMsg rep ∈ s.committed.map reportMsg := by
    rw [← h.sent]
    exact List.mem_append_right _ (List.mem_map_of_mem hrep)
  obtain ⟨rep', hrep', he⟩ := List.mem_map.mp hmem
  rwa [← parse_reportMsg rep, ← he, parse_reportMsg]

theorem op {a : RouteOp} (h : FlowInv cfg cnt start table s) (hc : FewHosts (.op a))
    (hst : s.step cfg cnt (.op a) = some t) : FlowInv cfg cnt start table t := by
  obtain ⟨b, routes, hop, hsound, hother, hself⟩ := agentStore_step h.sound a
  simp only [ReportFlow.step, hop] at hst
  obtain rfl := Option.some.inj hst
  obtain ⟨v, hact, hv⟩ := (agentStore_local cfg).act_eq hop
  change Entry.act cfg a ((agentStore cfg).get s.routes a.key) = .ok (b, v) at hact
  have hentry : (agentStore cfg).get routes a.key = v := by
    rw [hv]
    exact Function.update_self _ _ _
  have hsized : Sized cfg routes := by
    intro k lb hget
    by_cases hk : k = a.key
    · subst hk
      by_cases hupdate : ∃ res clock, a = .updateHost res clock
      · obtain ⟨res, clock, rfl⟩ := hupdate
        obtain ⟨-, -, -, hmap⟩ := hself lb hget
        exact (Table.size_le_of_keys fun k hk ↦ (hmap k).mp hk).trans hc
      · rw [hentry] at hget
        rcases Entry.act_keeps (h.sound a.key) hact
          (fun res clock ha ↦ hupdate ⟨res, clock, ha⟩) hget with hempty | ⟨lb₀, hlb₀, hmap⟩
        · rw [LoadBalance.empty, ExtTreeMap.isEmpty_iff] at hempty
          rw [hempty]
          exact Nat.zero_le _
        · rw [hmap]
          exact h.sized a.key lb₀ hlb₀
    · exact h.sized k lb ((hother k hk).symm.trans hget)
  refine ⟨hsound, hsized, fun rep hrep ↦ ?_, ?_, h.link, h.received, h.reporter⟩
  · rcases List.mem_append.mp hrep with hrep | hrep
    · exact h.sendable rep hrep
    · obtain ⟨lb, hlb, now, hcommit⟩ := commit_of_status hact (Option.mem_toList.mp hrep)
      have hlen := length_commit_le (hsound a.key lb (hentry.trans hlb)).wf hcommit
      refine ⟨reportMsg_ne_nil ?_, reportMsg_le (hlen.trans (hsized a.key lb (hentry.trans hlb)))⟩
      unfold LoadBalance.commit at hcommit
      split at hcommit
      · cases hcommit
      · obtain rfl := Option.some.inj hcommit
        show (123 : Int32) ≠ 0
        decide
  · show s.link.sent ++ (s.tasks ++ (s.queue ++ _)).map reportMsg = (s.committed ++ _).map reportMsg
    rw [← List.append_assoc, List.map_append, ← List.append_assoc, h.sent, List.map_append]

/-- What has arrived has been committed. -/
theorem received_committed (h : FlowInv cfg cnt start table s) :
    s.reporter.received <+: s.committed := by
  have hp : s.reporter.received.map reportMsg <+: s.committed.map reportMsg := by
    rw [h.received, ← h.sent]
    exact (isPrefix_received h.link).trans (List.prefix_append _ _)
  have hparse : ∀ reps : List ReportStatusReq,
      (reps.map reportMsg).map (fun m ↦ (ReportStatusReq.parse m.data).1) = reps := fun reps ↦ by
    rw [List.map_map]
    exact (List.map_congr_left fun rep _ ↦ parse_reportMsg rep).trans (List.map_id reps)
  have hmap := hp.map fun m ↦ (ReportStatusReq.parse m.data).1
  rwa [hparse, hparse] at hmap

theorem sendTask {p₁ p₂ : AmplePool} (h : FlowInv cfg cnt start table s)
    (hst : s.step cfg cnt (.sendTask p₁ p₂) = some t) : FlowInv cfg cnt start table t := by
  simp only [ReportFlow.step] at hst
  split at hst
  · cases hst
  · rename_i rep tasks htasks
    obtain ⟨link, hlink, rfl⟩ := Option.map_eq_some_iff.mp hst
    rw [Outcome.toOption_eq_some] at hlink
    obtain ⟨hsent, hreceived⟩ := sent_of_send hlink
    have hrep : Sendable rep :=
      h.sendable rep (h.mem_committed (by rw [htasks]; exact List.mem_cons_self))
    refine ⟨h.sound, h.sized, h.sendable, ?_, ?_, h.received.trans hreceived.symm, h.reporter⟩
    · rw [← h.sent, htasks, hsent, List.append_assoc]
      rfl
    · exact h.link.step (a := .send p₁ p₂ (reportMsg rep)) ⟨⟨hrep.ne_nil, hrep.le⟩, hlink⟩

theorem deliver {p : AmplePool} {chunk : List UInt8} (h : FlowInv cfg cnt start table s)
    (hst : s.step cfg cnt (.deliver p chunk) = some t) : FlowInv cfg cnt start table t := by
  simp only [ReportFlow.step, Option.ite_none_right_eq_some] at hst
  obtain ⟨henabled, hst⟩ := hst
  obtain ⟨link, hlink, rfl⟩ := Option.map_eq_some_iff.mp hst
  rw [Outcome.toOption_eq_some] at hlink
  obtain ⟨hsent, ms, hms⟩ := received_of_deliver hlink
  have hreach : Link.runs.Reachable link := h.link.step (a := .deliver p chunk) ⟨henabled, hlink⟩
  -- the new messages are status reports that have been committed
  obtain ⟨rest, hrest⟩ : link.received <+: s.committed.map reportMsg := by
    rw [← h.sent, ← hsent]
    exact (isPrefix_received hreach).trans (List.prefix_append _ _)
  rw [hms] at hrest
  obtain ⟨front, back, -, hfront, -⟩ := List.map_eq_append_iff.mp hrest.symm
  obtain ⟨old, reps, -, -, hreps⟩ := List.map_eq_append_iff.mp hfront
  have hnew : link.received.drop s.link.received.length = reps.map reportMsg := by
    rw [hms, List.drop_left, hreps]
  obtain ⟨hr, hrec⟩ := foldl_dealMsg reps h.reporter
  rw [hnew]
  refine ⟨h.sound, h.sized, h.sendable, ?_, hreach, ?_, hr⟩
  · show link.sent ++ _ = _
    rw [hsent]
    exact h.sent
  · show _ = link.received
    rw [hrec, List.map_append, h.received, hreps, hms]

/-- Every step keeps the invariant. -/
theorem step {e : FlowEvent} (h : FlowInv cfg cnt start table s) (hc : FewHosts e)
    (hst : s.step cfg cnt e = some t) : FlowInv cfg cnt start table t := by
  cases e with
  | op a => exact h.op hc hst
  | recvTasks =>
      simp only [ReportFlow.step] at hst
      split at hst
      · rename_i htasks
        obtain rfl := Option.some.inj hst
        refine ⟨h.sound, h.sized, h.sendable, ?_, h.link, h.received, h.reporter⟩
        rw [← h.sent, htasks]
        simp
      · cases hst
  | sendTask p₁ p₂ => exact h.sendTask hst
  | writable soError res =>
      simp only [ReportFlow.step, Option.ite_none_right_eq_some] at hst
      obtain ⟨henabled, hst⟩ := hst
      obtain ⟨link, hlink, rfl⟩ := Option.map_eq_some_iff.mp hst
      rw [Outcome.toOption_eq_some] at hlink
      obtain ⟨hsent, hreceived⟩ := sent_of_writable hlink
      refine ⟨h.sound, h.sized, h.sendable, ?_, ?_, h.received.trans hreceived.symm, h.reporter⟩
      · show link.sent ++ _ = _
        rw [hsent]
        exact h.sent
      · exact h.link.step (a := .writable soError res) ⟨henabled, hlink⟩
  | deliver p chunk => exact h.deliver hst
  | writerTasks i =>
      obtain ⟨reporter, hr, rfl⟩ := Option.map_eq_some_iff.mp hst
      exact ⟨h.sound, h.sized, h.sendable, h.sent, h.link, received_of_writerTasks hr ▸ h.received,
        h.reporter.step hr⟩
  | execute i =>
      obtain ⟨reporter, hr, rfl⟩ := Option.map_eq_some_iff.mp hst
      exact ⟨h.sound, h.sized, h.sendable, h.sent, h.link, received_of_execute hr ▸ h.received,
        h.reporter.step hr⟩

end FlowInv

/-- The invariant holds in every run in which no module gets too many hosts. -/
theorem flowInv_of_reachable
    (h : ((reportFlow κ cfg cnt start table).restrict fun _ e ↦ FewHosts e).Reachable s) :
    FlowInv cfg cnt start table s := by
  refine h.induction (I := FlowInv cfg cnt start table) ?_ ?_
  · rintro s ⟨hroutes, hqueue, htasks, hlink, hreporter, hcommitted⟩
    have hnew : s.link.sent = [] ∧ s.link.received = [] := by
      obtain ⟨_, _, _, _, -, -, hl⟩ := hlink
      rw [hl]
      exact ⟨rfl, rfl⟩
    refine ⟨hroutes ▸ agentsSound_new cfg, fun k lb hget ↦ ?_, fun rep hrep ↦ ?_, ?_,
      .init hlink, ?_, .init hreporter⟩
    · rw [hroutes] at hget
      simp [Store.split, routeStore, RouteLb.new] at hget
    · rw [hcommitted] at hrep
      cases hrep
    · rw [hnew.1, htasks, hqueue, hcommitted]
      rfl
    · rw [hreporter.received, hnew.2]
      rfl
  · exact fun s e t _ hi hst ↦ hi.step hst.1 hst.2

/-! ## What arrives -/

/-- When nothing is on its way, everything has arrived. -/
theorem FlowInv.received_eq (h : FlowInv cfg cnt start table s) (hs : s.Sent) :
    s.reporter.received = s.committed := by
  have hl := Link.inv_of_reachable h.link
  -- all that was sent has been written and read
  have hread : s.link.read = Link.stream s.link.sent := by
    have hp := hl.pending hs.opened
    rwa [hs.obuf, List.append_nil, hl.written, hs.wire, List.append_nil] at hp
  have hall : s.link.received = s.link.sent := by
    have hreads := hl.reads
    rw [hread] at hreads
    exact (hreads.eq_of_encAll hl.legal).1
  refine h.received_committed.eq_of_length ?_
  have hlen := congrArg List.length h.sent
  rw [hs.tasks, hs.queue, ← hall, ← h.received] at hlen
  simpa using hlen

/-- **Status reports arrive.**  In every run in which the dns server gives no module more than
`maxHosts` hosts, and however the connection cuts what is sent, the reporter has got the
first of the status reports that the `route_lb` have committed, in this order, each once and
unchanged; and all of them when nothing is on its way. -/
theorem reports_arrive
    (h : ((reportFlow κ cfg cnt start table).restrict fun _ e ↦ FewHosts e).Reachable s) :
    s.reporter.received <+: s.committed ∧ (s.Sent → s.reporter.received = s.committed) :=
  ⟨(flowInv_of_reachable h).received_committed, (flowInv_of_reachable h).received_eq⟩

/-- A client asks for a host, the hosts come, and it reports a call. -/
def oneReport : List FlowEvent :=
  [.op (.getHost 0 1 1 100), .op (.updateHost ⟨1, 1, [⟨3232235953, 7777⟩]⟩ fun _ ↦ 100),
    .op (.reportHost ⟨1, 1, ⟨3232235953, 7777⟩, true⟩ fun _ ↦ 101), .recvTasks,
    .sendTask exactPool exactPool, .writable 0 [], .writable 0 [.wrote 1000]]

/-- The message with the report arrives in two pieces, and a writer executes its statement. -/
def arrival : List FlowEvent :=
  let msg := reportMsg ⟨1, 1, 123, 101, [⟨3232235953, 7777, 1, 0, false⟩]⟩
  [.deliver exactPool (msg.bytes.take 3), .deliver exactPool (msg.bytes.drop 3), .writerTasks 0,
    .execute 0]

/-- The state after a step, if it can be taken. -/
def ReportFlow.next (cfg : LoadBalanceConfig) (cnt : ℕ) (s : ReportFlow κ) (e : FlowEvent) :
    ReportFlow κ := (s.step cfg cnt e).getD s

/-- The agent and a reporter with one writer at their start. -/
def unreported : ReportFlow Unit where
  routes := fun _ ↦ RouteLb.new
  queue := []
  tasks := []
  link := .new .new 3 .new 5
  reporter := ReportServer.fresh 0 fun _ ↦ none
  committed := []

/-- The agent and the reporter after these steps. -/
def reported : ReportFlow Unit :=
  (oneReport ++ arrival).foldl (ReportFlow.next .default 1) unreported

theorem ReportFlow.next_step (s : ReportFlow κ) (e : FlowEvent)
    (h : (s.step cfg cnt e).isSome = true) :
    (reportFlow κ cfg cnt start table).step s e (s.next cfg cnt e) := by
  obtain ⟨t, ht⟩ := Option.isSome_iff_exists.mp h
  show s.step cfg cnt e = some ((s.step cfg cnt e).getD s)
  rw [ht]
  rfl

theorem reported_reachable :
    ((reportFlow Unit .default 1 0 fun _ ↦ none).restrict fun _ e ↦ FewHosts e).Reachable
      reported := by
  refine LTS.Reachable.run (s := unreported)
    (.init ⟨rfl, rfl, rfl, ⟨.new, 3, .new, 5, by decide, by decide, rfl⟩,
      ⟨rfl, fun _ ↦ ⟨rfl, rfl⟩, rfl, rfl, rfl⟩, rfl⟩)
    (LTS.Run.foldl (C := fun s e ↦ FewHosts e ∧ (s.step .default 1 e).isSome = true) ?_ ?_)
  · rintro s e ⟨hc, h⟩
    exact ⟨hc, s.next_step e h⟩
  · exact ⟨⟨trivial, rfl⟩, ⟨Nat.zero_lt_succ 2338, rfl⟩, ⟨trivial, rfl⟩, ⟨trivial, rfl⟩,
      ⟨trivial, rfl⟩, ⟨trivial, rfl⟩, ⟨trivial, rfl⟩, ⟨trivial, rfl⟩, ⟨trivial, rfl⟩,
      ⟨trivial, rfl⟩, ⟨trivial, rfl⟩, trivial⟩

theorem reported_sent : reported.Sent :=
  ⟨rfl, rfl, by decide, by decide, by decide⟩

theorem reports_arrive_one :
    reported.reporter.received <+: reported.committed ∧
      reported.reporter.received = reported.committed ∧ reported.committed.length = 1 :=
  ⟨(reports_arrive reported_reachable).1, (reports_arrive reported_reachable).2 reported_sent,
    by decide⟩

/-- With one writer all statements are its own. -/
theorem share_one (reps : List ReportStatusReq) : share 1 0 0 reps = entries reps := by
  induction reps using List.reverseRecOn with
  | nil => rfl
  | append_singleton reps rep ih =>
      rw [share_snoc, ih, if_pos (Nat.mod_one _), entries_append]
      congr 1
      exact (List.flatMap_singleton ..).symm

theorem byWriter_eq_map {log : List (ℕ × Statement)} {i : ℕ}
    (h : ∀ j, j ≠ i → byWriter j log = []) : byWriter i log = log.map Prod.snd := by
  rw [byWriter, List.filter_eq_self.mpr fun e he ↦ ?_]
  by_contra hne
  have hnil := h e.1 (by simpa using hne)
  rw [byWriter, List.map_eq_nil_iff, List.filter_eq_nil_iff] at hnil
  exact hnil e he (by simp)

/-- When all status reports have been sent and all queues of the reporter are drained, the rows
follow them. -/
theorem FlowInv.rows_of_drained (hstart : start < cnt) (h : FlowInv cfg cnt start table s)
    (hs : s.Sent) (hd : s.reporter.Drained cnt) :
    (∀ k v, last k (entries s.committed) = some v → ∃ i < cnt, ∃ w,
      last k (share cnt start i s.committed) = some w ∧ s.reporter.table k = some w) ∧
    (cnt = 1 → s.reporter.table = writeAll table (entries s.committed)) := by
  have hi := ReportServer.inv_of_reachable hstart h.reporter
  rw [← h.received_eq hs]
  refine ⟨fun k v hv ↦ ReportServer.exists_last_of_drained hstart hi hd hv, ?_⟩
  rintro rfl
  obtain rfl := Nat.lt_one_iff.mp hstart
  have hother : ∀ j, j ≠ 0 → byWriter j s.reporter.log = [] := fun j hj ↦ by
    have hshare := hi.shared j
    rw [share_of_le Nat.zero_lt_one (Nat.one_le_iff_ne_zero.mpr hj), List.append_assoc] at hshare
    exact (List.append_eq_nil_iff.mp hshare).1
  rw [hi.written, ← byWriter_eq_map hother, ReportServer.byWriter_of_drained hi hd Nat.zero_lt_one,
    share_one]

/-- **Rows follow the status reports.**  When everything that has been committed has been sent
and all queues of the reporter are drained, the row of a host that was reported has the
values of the last entry for it among the status reports that one of the writers was given;
and with one writer the table is what the entries make of it in the order in which they were
committed. -/
theorem rows_follow_reports (hstart : start < cnt)
    (h : ((reportFlow κ cfg cnt start table).restrict fun _ e ↦ FewHosts e).Reachable s)
    (hs : s.Sent) (hd : s.reporter.Drained cnt) :
    (∀ k v, last k (entries s.committed) = some v → ∃ i < cnt, ∃ w,
      last k (share cnt start i s.committed) = some w ∧ s.reporter.table k = some w) ∧
    (cnt = 1 → s.reporter.table = writeAll table (entries s.committed)) :=
  (flowInv_of_reachable h).rows_of_drained hstart hs hd

theorem rows_follow_reports_one :
    reported.reporter.table = writeAll (fun _ ↦ none) (entries reported.committed) := by
  refine (rows_follow_reports Nat.zero_lt_one reported_reachable reported_sent
    fun i hi ↦ ?_).2 rfl
  obtain rfl := Nat.lt_one_iff.mp hi
  exact ⟨rfl, rfl⟩

end Ylars.System
