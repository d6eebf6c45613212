import Ylars.Api.Requests
import Ylars.Reactor.Duplex
import Ylars.System.RouteSync

/-!
# The agent and the dns server, in bytes

`RouteSync` hands the requests of the agent and the responses of the server over as messages.
`WireSync` has the connection instead: `send_msg` puts a message into a write buffer, the
buffers are written in pieces, and what arrives is read in chunks, parsed and routed by its
id.  A response may be too long for the client, which then closes the connection, and so may
anything that an end cannot read or write.

As long as the connection is there `WireSync` does what `RouteSync` does: the messages that
are buffered, on the wire, or parsed in part are the ones that `RouteSync` has on their way
(`toSync`), and every step is a step of `RouteSync`, or none (`bytes_refine`).  So the agent
has what the server serves when no byte is left (`bytes_agree`).
-/

namespace Ylars.System

open Std (ExtTreeMap ExtTreeSet)
open Ylars.Lib Ylars.Proto Ylars.Reactor Ylars.Agent Ylars.Dns

/-! ## Messages -/

/-- The message of a request. -/
def requestMsg (req : GetRouteRequest) : Message :=
  MessageId.getRouteRequest.message req.serialize

/-- The message of a response. -/
def responseMsg (res : GetRouteResponse) : Message :=
  MessageId.getRouteResponse.message res.serialize

/-- What the router of the server makes of a message: `get_req` reads a request. -/
def requestOf (m : Message) : Option GetRouteRequest :=
  if m.msgid = MessageId.getRouteRequest.code then some (GetRouteRequest.parse m.data).1 else none

/-- What the router of the client makes of a message: `dns_res_cb` reads a response, and
returns if it is not well formed. -/
def responseOf (m : Message) : Option GetRouteResponse :=
  if m.msgid = MessageId.getRouteResponse.code then
    let (res, ok) := GetRouteResponse.parse m.data
    if ok then some res else none
  else none

theorem requestOf_requestMsg (req : GetRouteRequest) : requestOf (requestMsg req) = some req := by
  have hparse : GetRouteRequest.parse (requestMsg req).data = (req, true) := req.parse_serialize
  rw [requestOf, hparse]
  exact if_pos rfl

theorem responseOf_responseMsg (res : GetRouteResponse) :
    responseOf (responseMsg res) = some res := by
  have hparse : GetRouteResponse.parse (responseMsg res).data = (res, true) := res.parse_serialize
  have hid : (responseMsg res).msgid = MessageId.getRouteResponse.code := rfl
  rw [responseOf, if_pos hid, hparse]
  exact if_pos rfl

theorem filterMap_responseMsg (answers : List Answer) :
    (answers.map fun a ↦ responseMsg a.res).filterMap responseOf = answers.map Answer.res := by
  rw [List.filterMap_map, ← List.filterMap_eq_map]
  exact List.filterMap_congr fun a _ ↦ responseOf_responseMsg a.res

/-! ## The system -/

/-- The agent and the dns server with their connection.  The `requests` of the agent are those
that the router of the server has been given and the worker has not begun, its `responses`
those that the router of the client has been given and `dns_res_cb` has not begun. -/
structure WireSync where
  agents : Agents
  dns : DnsServer
  link : Duplex

/-- What happens next. -/
inductive WireEvent where
  /-- Something happens in the agent. -/
  | agent (a : Agent.Action)
  /-- `dns_task_cb` sends a request. -/
  | sendTask (p₁ p₂ : AmplePool)
  /-- A worker of the server reads the next request of the agent. -/
  | request (i : ℕ)
  /-- Something else happens in the server; what it answers on the connection is sent. -/
  | dns (e : Dns.Event) (p₁ p₂ : AmplePool)
  /-- An end of the connection writes, reads or closes. -/
  | link (op : DuplexOp)

/-- The step of `RouteSync` that a step is, unless it only moves bytes. -/
def WireEvent.sync : WireEvent → Option SyncEvent
  | .agent a => some (.agent a)
  | .sendTask _ _ => some (.agent .sendTask)
  | .request i => some (.request i)
  | .dns e _ _ => some (.dns e)
  | .link _ => none

/-- Whether it happens in the agent alone. -/
def isLocal : Agent.Action → Bool
  | .sendTask => false
  | .dnsAnswer _ => false
  | .dnsPush _ => false
  | _ => true

/-- The server sends its answers.  A message has less than 2^31 bytes: protobuf serializes
nothing longer. -/
def respondAll (nlMsgmax : Int) (p₁ p₂ : AmplePool) : List Answer → Duplex → Option Duplex
  | [], link => some link
  | a :: answers, link =>
      if link.Enabled (.respond p₁ p₂ (responseMsg a.res)) then
        (link.step nlMsgmax (.respond p₁ p₂ (responseMsg a.res))).toOption.bind
          (respondAll nlMsgmax p₁ p₂ answers)
      else none

namespace WireSync

/-- One step. -/
def step (cfg : LoadBalanceConfig) (nlMsgmax fd : Int) (w : WireSync) :
    WireEvent → Option WireSync
  | .agent a =>
      if isLocal a then (w.agents.step cfg a).toOption.map fun agents ↦ { w with agents := agents }
      else none
  | .sendTask p₁ p₂ =>
      match w.agents.tasks with
      | [] => none
      | req :: tasks =>
          if w.link.Enabled (.request p₁ p₂ (requestMsg req)) then
            (w.link.step nlMsgmax (.request p₁ p₂ (requestMsg req))).toOption.map fun link ↦
              { w with agents := { w.agents with tasks := tasks }, link := link }
          else none
  | .request i =>
      match w.agents.requests with
      | [] => none
      | req :: requests =>
          (w.dns.step (.request i fd req.modid req.cmdid)).map fun dns ↦
            { w with agents := { w.agents with requests := requests }, dns := dns }
  | .dns e p₁ p₂ =>
      if e.spares fd then
        (w.dns.step e).bind fun dns ↦
          (respondAll nlMsgmax p₁ p₂ ((answersOf fd dns).drop (answersOf fd w.dns).length)
            w.link).map fun link ↦ { w with dns := dns, link := link }
      else none
  | .link op =>
      if op.sends = false ∧ w.link.Enabled op then
        (w.link.step nlMsgmax op).toOption.map fun link ↦
          { w with
            agents := { w.agents with
              requests := w.agents.requests ++
                (link.up.received.drop w.link.up.received.length).filterMap requestOf
              responses := w.agents.responses ++
                ((link.down.received.drop w.link.down.received.length).filterMap responseOf).map
                  .push }
            link := link }
      else none

/-- The messages as `RouteSync` has them: on their way are also those that are buffered, on
the wire, or not parsed yet. -/
def toSync (w : WireSync) : RouteSync where
  agents := { w.agents with
    requests := w.agents.requests ++ w.link.up.onWay.filterMap requestOf
    responses := w.agents.responses ++ (w.link.down.onWay.filterMap responseOf).map .push }
  dns := w.dns

/-- The update thread announces what it changes. -/
def Announcing (w : WireSync) : WireEvent → Prop
  | .dns e _ _ => w.dns.Announced e
  | _ => True

/-- The agent at its start, a server that it has just been connected to, and a new
connection. -/
structure Initial (fd : Int) (w : WireSync) : Prop where
  sync : RouteSync.Initial fd ⟨w.agents, w.dns⟩
  link : ∃ loop sockfd connLoop, 0 ≤ sockfd ∧ 0 < fd ∧ w.link = .new loop sockfd connLoop fd

end WireSync

/-- The runs of the agent and the server with their connection. -/
def wireSync (cfg : LoadBalanceConfig) (nlMsgmax fd : Int) : LTS WireSync WireEvent where
  init := WireSync.Initial fd
  step w e t := w.step cfg nlMsgmax fd e = some t

/-- The runs in which the server announces what it changes, also before the agent comes. -/
def wireAnnouncing (cfg : LoadBalanceConfig) (nlMsgmax fd : Int) : LTS WireSync WireEvent where
  init w := w.Initial fd ∧ (dnsServer.restrict DnsServer.Announced).Reachable w.dns
  step w e t := w.Announcing e ∧ w.step cfg nlMsgmax fd e = some t

variable {cfg : LoadBalanceConfig} {nlMsgmax fd : Int} {w t : WireSync} {e : WireEvent}
  {p₁ p₂ : AmplePool}

/-! ## The connection -/

/-- What the server sends is a run of the connection. -/
theorem respondAll_run {answers : List Answer} {link link' : Duplex}
    (hs : respondAll nlMsgmax p₁ p₂ answers link = some link') :
    ∃ ops, (duplex nlMsgmax).Run link ops link' := by
  induction answers generalizing link with
  | nil =>
      obtain rfl := Option.some.inj hs
      exact ⟨[], .nil _⟩
  | cons a answers ih =>
      simp only [respondAll, Option.ite_none_right_eq_some, Option.bind_eq_some_iff,
        Outcome.toOption_eq_some] at hs
      obtain ⟨he, mid, hmid, hs⟩ := hs
      obtain ⟨ops, hrun⟩ := ih hs
      exact ⟨_, .cons ⟨he, hmid⟩ hrun⟩

/-- What the server sends goes behind what is on its way. -/
theorem onWay_respondAll {answers : List Answer} {link link' : Duplex}
    (h : (duplex nlMsgmax).Reachable link)
    (hs : respondAll nlMsgmax p₁ p₂ answers link = some link') :
    link'.up = link.up ∧
      link'.down.onWay = link.down.onWay ++ answers.map fun a ↦ responseMsg a.res := by
  induction answers generalizing link with
  | nil =>
      obtain rfl := Option.some.inj hs
      exact ⟨rfl, (List.append_nil _).symm⟩
  | cons a answers ih =>
      simp only [respondAll, Option.ite_none_right_eq_some, Option.bind_eq_some_iff,
        Outcome.toOption_eq_some] at hs
      obtain ⟨he, mid, hmid, hs⟩ := hs
      obtain ⟨hup, hdown⟩ := ih (h.step ⟨he, hmid⟩) hs
      have hsend := (Duplex.live_of_reachable h he.1).down.carries.onWay_send (responseMsg a.res)
      simp only [Duplex.step, Outcome.bind_eq_ok] at hmid
      obtain ⟨⟨ret, conn⟩, -, hmid⟩ := hmid
      obtain rfl := Except.ok.inj hmid
      refine ⟨hup, hdown.trans ?_⟩
      rw [hsend, List.map_cons, List.append_assoc, List.singleton_append]

theorem link_run (hst : w.step cfg nlMsgmax fd e = some t) :
    ∃ ops, (duplex nlMsgmax).Run w.link ops t.link := by
  cases e with
  | agent a =>
      simp only [WireSync.step, Option.ite_none_right_eq_some, Option.map_eq_some_iff] at hst
      obtain ⟨-, agents, -, rfl⟩ := hst
      exact ⟨[], .nil _⟩
  | sendTask p₁ p₂ =>
      simp only [WireSync.step] at hst
      split at hst
      · cases hst
      · simp only [Option.ite_none_right_eq_some, Option.map_eq_some_iff,
          Outcome.toOption_eq_some] at hst
        obtain ⟨he, link, hlink, rfl⟩ := hst
        exact ⟨_, .cons ⟨he, hlink⟩ (.nil _)⟩
  | request i =>
      simp only [WireSync.step] at hst
      split at hst
      · cases hst
      · obtain ⟨dns, -, rfl⟩ := Option.map_eq_some_iff.mp hst
        exact ⟨[], .nil _⟩
  | dns e p₁ p₂ =>
      simp only [WireSync.step, Option.ite_none_right_eq_some, Option.bind_eq_some_iff,
        Option.map_eq_some_iff] at hst
      obtain ⟨-, dns, -, link, hlink, rfl⟩ := hst
      exact respondAll_run hlink
  | link op =>
      simp only [WireSync.step, Option.ite_none_right_eq_some, Option.map_eq_some_iff,
        Outcome.toOption_eq_some] at hst
      obtain ⟨⟨-, he⟩, link, hlink, rfl⟩ := hst
      exact ⟨_, .cons ⟨he, hlink⟩ (.nil _)⟩

/-- In every run the connection is one of `duplex`. -/
theorem link_of_reachable (h : (wireSync cfg nlMsgmax fd).Reachable w) :
    (duplex nlMsgmax).Reachable w.link := by
  refine h.induction (I := fun w ↦ (duplex nlMsgmax).Reachable w.link) ?_ ?_
  · rintro w ⟨-, loop, sockfd, connLoop, hsock, hfd, hlink⟩
    exact .init ⟨loop, sockfd, connLoop, fd, hsock, hfd, hlink⟩
  · rintro w e t - hi hst
    obtain ⟨ops, hrun⟩ := link_run hst
    exact hi.run hrun

/-! ## What a step is for the messages -/

/-- What happens in the agent alone does not depend on what comes behind its queues. -/
theorem step_append {s s' : Agents} {a : Agent.Action} (ha : isLocal a = true)
    (hst : s.step cfg a = .ok s') (reqs : List GetRouteRequest) (resps : List Response) :
    s' = s ∨ Agents.step cfg
        { s with requests := s.requests ++ reqs, responses := s.responses ++ resps } a =
      .ok { s' with requests := s'.requests ++ reqs, responses := s'.responses ++ resps } := by
  cases a with
  | getHost seq modid cmdid now =>
      simp only [Agents.step, Outcome.bind_eq_ok] at hst ⊢
      obtain ⟨p, hp, hs'⟩ := hst
      obtain rfl := Except.ok.inj hs'
      exact .inr ⟨p, hp, rfl⟩
  | getRoute modid cmdid now =>
      simp only [Agents.step, Outcome.bind_eq_ok] at hst ⊢
      obtain ⟨p, hp, hs'⟩ := hst
      obtain rfl := Except.ok.inj hs'
      exact .inr ⟨p, hp, rfl⟩
  | reportHost req clock =>
      simp only [Agents.step, Outcome.bind_eq_ok] at hst ⊢
      obtain ⟨p, hp, hs'⟩ := hst
      obtain rfl := Except.ok.inj hs'
      exact .inr ⟨p, hp, rfl⟩
  | recvTasks =>
      simp only [Agents.step] at hst ⊢
      cases htasks : s.tasks with
      | nil =>
          rw [htasks] at hst
          obtain rfl := Except.ok.inj hst
          exact .inr rfl
      | cons task tasks =>
          rw [htasks] at hst
          exact .inl (Except.ok.inj hst).symm
  | sendTask => cases ha
  | dnsAnswer host => cases ha
  | dnsPush res => cases ha
  | dnsResCb clock =>
      simp only [Agents.step] at hst ⊢
      cases hrs : s.responses with
      | nil =>
          rw [hrs] at hst
          exact .inl (Except.ok.inj hst).symm
      | cons resp rest =>
          rw [hrs] at hst
          simp only [Outcome.bind_eq_ok] at hst
          obtain ⟨r, hr, hs'⟩ := hst
          obtain rfl := Except.ok.inj hs'
          refine .inr ?_
          simp only [List.cons_append, hr, Outcome.ok_bind]
          rfl

/-- A step that moves bytes is no step of `RouteSync`, and every other is one, unless the agent
finds nothing to do. -/
theorem sync_cases (h : (duplex nlMsgmax).Reachable w.link)
    (hst : w.step cfg nlMsgmax fd e = some t) (ho : t.link.Open) :
    (e.sync = none ∧ t.toSync = w.toSync) ∨ ((∃ a, e = .agent a) ∧ t = w) ∨
      ∃ e' ∈ e.sync, w.toSync.step cfg fd e' = some t.toSync := by
  obtain ⟨ops, hrun⟩ := link_run hst
  have hlive := Duplex.live_of_reachable h (Duplex.open_of_run hrun ho)
  cases e with
  | agent a =>
      simp only [WireSync.step, Option.ite_none_right_eq_some, Option.map_eq_some_iff,
        Outcome.toOption_eq_some] at hst
      obtain ⟨ha, agents, hagents, rfl⟩ := hst
      have hown : isOwn a = true := by
        cases a with
        | dnsAnswer | dnsPush => cases ha
        | getHost | getRoute | reportHost | recvTasks | sendTask | dnsResCb => rfl
      rcases step_append ha hagents (w.link.up.onWay.filterMap requestOf)
        ((w.link.down.onWay.filterMap responseOf).map .push) with rfl | hstep
      · exact .inr (.inl ⟨⟨a, rfl⟩, rfl⟩)
      · refine .inr (.inr ⟨.agent a, rfl, ?_⟩)
        simp only [RouteSync.step, hown, if_true, WireSync.toSync, hstep]
        rfl
  | sendTask p₁ p₂ =>
      simp only [WireSync.step] at hst
      split at hst
      · cases hst
      · rename_i req tasks htasks
        simp only [Option.ite_none_right_eq_some, Option.map_eq_some_iff,
          Outcome.toOption_eq_some] at hst
        obtain ⟨he, link, hlink, rfl⟩ := hst
        have hsend := hlive.up.carries.onWay_send (requestMsg req)
        simp only [Duplex.step, Outcome.bind_eq_ok] at hlink
        obtain ⟨⟨ret, client⟩, -, hlink⟩ := hlink
        obtain rfl := Except.ok.inj hlink
        refine .inr (.inr ⟨.agent .sendTask, rfl, ?_⟩)
        have hway : (w.link.up.send (requestMsg req)).onWay.filterMap requestOf =
            w.link.up.onWay.filterMap requestOf ++ [req] := by
          rw [hsend, List.filterMap_append, List.filterMap_cons_some (requestOf_requestMsg req)]
          rfl
        simp only [RouteSync.step, isOwn, if_true, WireSync.toSync, Agents.step, htasks, hway,
          List.append_assoc]
        rfl
  | request i =>
      simp only [WireSync.step] at hst
      split at hst
      · cases hst
      · rename_i req requests hs
        obtain ⟨dns, hdns, rfl⟩ := Option.map_eq_some_iff.mp hst
        refine .inr (.inr ⟨.request i, rfl, ?_⟩)
        simp only [RouteSync.step, WireSync.toSync, hs, List.cons_append, hdns]
        rfl
  | dns e p₁ p₂ =>
      simp only [WireSync.step, Option.ite_none_right_eq_some, Option.bind_eq_some_iff,
        Option.map_eq_some_iff] at hst
      obtain ⟨hspares, dns, hdns, link, hlink, rfl⟩ := hst
      obtain ⟨hup, hdown⟩ := onWay_respondAll h hlink
      refine .inr (.inr ⟨.dns e, rfl, ?_⟩)
      simp only [RouteSync.step, hspares, if_true, WireSync.toSync, hdns, hup, hdown,
        List.filterMap_append, filterMap_responseMsg, List.map_append, arrive, List.append_assoc,
        List.map_map]
      rfl
  | link op =>
      simp only [WireSync.step, Option.ite_none_right_eq_some, Option.map_eq_some_iff,
        Outcome.toOption_eq_some] at hst
      obtain ⟨⟨hop, he⟩, link, hlink, rfl⟩ := hst
      obtain ⟨link', hlink', hpass⟩ := hlive.passes he hop
      obtain rfl := Except.ok.inj (hlink'.symm.trans hlink)
      obtain ⟨-, ⟨us, hus⟩, ds, hds⟩ := hpass ho
      refine .inl ⟨rfl, ?_⟩
      simp only [WireSync.toSync, hus.received, hds.received, hus.onWay, hds.onWay,
        List.drop_left, List.filterMap_append, List.map_append, List.append_assoc]

/-- Every step is a step of `RouteSync`, or none. -/
theorem sync_step (h : (duplex nlMsgmax).Reachable w.link)
    (hst : w.step cfg nlMsgmax fd e = some t) (ho : t.link.Open) :
    t.toSync = w.toSync ∨ ∃ e' ∈ e.sync, w.toSync.step cfg fd e' = some t.toSync := by
  rcases sync_cases h hst ho with ⟨-, he⟩ | ⟨-, rfl⟩ | hstep
  · exact .inl he
  · exact .inl rfl
  · exact .inr hstep

/-- A step that announces is one that announces. -/
theorem announcing_sync {e' : SyncEvent} (he : e' ∈ e.sync) (h : w.Announcing e) :
    w.toSync.Announcing e' := by
  cases e with
  | agent | sendTask | request =>
      obtain rfl := Option.some.inj he
      exact trivial
  | dns e p₁ p₂ =>
      obtain rfl := Option.some.inj he
      exact h
  | link op => cases he

/-! ## The messages and the bytes -/

theorem initial_toSync (h : w.Initial fd) : w.toSync = ⟨w.agents, w.dns⟩ := by
  obtain ⟨hsync, loop, sockfd, connLoop, -, -, hlink⟩ := h
  have hagents : w.agents = Agents.new := hsync.agents
  rw [WireSync.toSync, hlink, hagents]
  rfl

/-- As long as the connection is open, the messages are a run of `RouteSync`. -/
theorem messages_of_reachable (h : (wireSync cfg nlMsgmax fd).Reachable w) :
    w.link.Open → (routeSync cfg fd).Reachable w.toSync := by
  refine h.map (f := WireSync.toSync) (G := fun w ↦ w.link.Open) (fun w hi ↦ ?_)
    (fun w e t hst ho ↦ ?_) fun w e t hr _ hst ho ↦ ?_
  · rw [initial_toSync hi]
    exact hi.sync
  · obtain ⟨ops, hrun⟩ := link_run hst
    exact Duplex.open_of_run hrun ho
  · exact (sync_step (link_of_reachable hr) hst ho).imp_right fun ⟨e', _, hst'⟩ ↦ ⟨e', hst'⟩

theorem wire_of_announcing (h : (wireAnnouncing cfg nlMsgmax fd).Reachable w) :
    (wireSync cfg nlMsgmax fd).Reachable w := by
  induction h with
  | init hi => exact .init hi.1
  | step _ hst ih => exact ih.step hst.2

/-- In an announcing run the messages are an announcing run. -/
theorem announcing_of_reachable (h : (wireAnnouncing cfg nlMsgmax fd).Reachable w) :
    w.link.Open → (announcing cfg fd).Reachable w.toSync := by
  refine h.map (f := WireSync.toSync) (G := fun w ↦ w.link.Open) (fun w hi ↦ ?_)
    (fun w e t hst ho ↦ ?_) fun w e t hr _ hst ho ↦ ?_
  · rw [initial_toSync hi.1]
    exact ⟨hi.1.sync, hi.2⟩
  · obtain ⟨ops, hrun⟩ := link_run hst.2
    exact Duplex.open_of_run hrun ho
  · exact (sync_step (link_of_reachable (wire_of_announcing hr)) hst.2 ho).imp_right
      fun ⟨e', he, hst'⟩ ↦ ⟨e', announcing_sync he hst.1, hst'⟩

/-- **The bytes do what the messages do.**  As long as the connection is open, the messages
that are queued, buffered, on the wire and parsed are in a state that `RouteSync` reaches,
and every step that leaves the connection open is a step of `RouteSync`, or none. -/
theorem bytes_refine (h : (wireSync cfg nlMsgmax fd).Reachable w) (ho : w.link.Open) :
    (routeSync cfg fd).Reachable w.toSync ∧
      ∀ e t, (wireSync cfg nlMsgmax fd).step w e t → t.link.Open →
        t.toSync = w.toSync ∨ ∃ e', (routeSync cfg fd).step w.toSync e' t.toSync := by
  exact ⟨messages_of_reachable h ho, fun e t hst ho' ↦
    (sync_step (link_of_reachable h) hst ho').imp_right fun ⟨e', _, hst'⟩ ↦ ⟨e', hst'⟩⟩

/-! ## When no byte is left -/

/-- Nothing is queued, buffered, on the wire or parsed, the server has finished all requests
and tasks, and the update thread has published what it has changed. -/
structure WireSync.Quiet (w : WireSync) : Prop where
  asked : asked w.agents = []
  responses : w.agents.responses = []
  clientOut : w.link.client.obuf.content = []
  up : w.link.up.wire = []
  connOut : w.link.conn.obuf.content = []
  down : w.link.down.wire = []
  settled : w.dns.Settled
  published : ¬w.dns.Unpublished

/-- Nothing on its way in bytes means no message on its way. -/
theorem WireSync.Quiet.toSync (hq : w.Quiet) (h : w.link.Live nlMsgmax) : w.toSync.Quiet := by
  have hup := h.up.carries
  rw [hq.clientOut] at hup
  have hdown := h.down.carries
  rw [hq.connOut] at hdown
  refine ⟨?_, ?_, hq.settled, hq.published⟩
  · have hasked := hq.asked
    simp only [WireSync.toSync, hup.onWay_eq_nil hq.up, List.filterMap_nil,
      List.append_nil] at hasked ⊢
    exact hasked
  · simp only [WireSync.toSync, hdown.onWay_eq_nil hq.down, List.filterMap_nil, List.map_nil,
      List.append_nil]
    exact hq.responses

/-- **The agent has what the server serves, when no byte is left.**  However the streams of
the connection are cut, as long as it is open: when nothing is left to write, to read or to
do, every module that the agent knows has some hosts, those that the server serves. -/
theorem bytes_agree (h : (wireAnnouncing cfg nlMsgmax fd).Reachable w) (ho : w.link.Open)
    (hq : w.Quiet) {modid cmdid : UInt32} {lb : LoadBalance}
    (hget : (w.agents.agentRoutes (agentIndex modid cmdid)).routeMap[modKey modid cmdid]? =
      some lb) :
    lb.status = some .new ∧ lb.empty = false ∧
      ∀ k, k ∈ lb.hostMap ↔ k ∈ w.dns.publisher.router.getHosts modid cmdid := by
  have hlive := Duplex.live_of_reachable (link_of_reachable (wire_of_announcing h)) ho
  obtain ⟨c, hcurrent, hlast⟩ :=
    served_of_quiet (announcing_of_reachable h ho) (hq.toSync hlive) hget
  exact hcurrent.agrees hlast

/-! ## When the connection stays -/

/-- No table that the server has served has more hosts for a module than this. -/
def FewInTables (n : ℕ) (dns : DnsServer) : Prop :=
  ∀ tab ∈ dns.tables, ∀ key, (MultiMap.lookup tab key).size ≤ n

/-- A table that is built has no more hosts for a module than there are rows. -/
theorem size_lookup_tableOf (rows : List RouteDataRow) (key : UInt64) :
    (MultiMap.lookup (Router.tableOf rows) key).size ≤ rows.length := by
  refine Table.size_le_of_keys (m := (MultiMap.lookup (Router.tableOf rows) key).inner)
    (f := RouteDataRow.value) fun v hv ↦ ?_
  obtain ⟨row, hrow, -, hvalue⟩ := Router.mem_lookup_tableOf.mp hv
  exact ⟨row, hrow, hvalue⟩

/-- No call fails, no end is closed, and the modules are small. -/
def WireSync.Smooth (nlMsgmax : Int) (n : ℕ) (w : WireSync) : WireEvent → Prop
  | .link op => FewInTables n w.dns ∧ op.Smooth nlMsgmax
  | _ => FewInTables n w.dns

/-- What the server answers on the connection comes from its tables. -/
theorem genuine_of_step {s : RouteSync} {dns : DnsServer} {e : Dns.Event}
    (h : (routeSync cfg fd).Reachable s) (hspares : e.spares fd = true)
    (hdns : s.dns.step e = some dns) :
    ∀ a ∈ (answersOf fd dns).drop (answersOf fd s.dns).length, a.Genuine s.dns.tables := by
  obtain ⟨-, hreach, c, hsync⟩ := inv_of_reachable h
  have hi := DnsServer.inv_of_reachable hreach
  obtain ⟨c', new, hserves⟩ := DnsServer.conn_step hi hdns hsync.conn hsync.open_ hspares
  have hnew : (answersOf fd dns).drop (answersOf fd s.dns).length = new := by
    simp only [answersOf, hsync.conn, hserves.conn, Option.map_some, Option.getD_some,
      hserves.answers, List.drop_left]
  rw [hnew]
  exact fun a ha ↦ (hi.worker c.worker).genuine fd a (hserves.carried a ha).2

/-- Responses from small tables are short. -/
theorem responseMsg_le {n : ℕ} {dns : DnsServer} {a : Answer} (h : FewInTables n dns)
    (ha : a.Genuine dns.tables) : (responseMsg a.res).data.length ≤ 12 + 14 * n := by
  obtain ⟨tab, htab, hres⟩ := ha
  have hlen : a.res.host.length ≤ n := by
    rw [hres]
    simp only [routeResponse, List.length_map, ExtTreeSet.length_toList]
    exact h tab (List.mem_of_getElem? htab) _
  show a.res.serialize.length ≤ 12 + 14 * n
  have := a.res.length_serialize_le
  omega

/-- Responses that fit into the reader's limit are sent, and the connection stays open. -/
theorem respondAll_smooth (p₁ p₂ : AmplePool) {answers : List Answer} {link : Duplex}
    (h : link.Flows nlMsgmax)
    (hlen : ∀ a ∈ answers, (responseMsg a.res).data.length < 2 ^ 31 ∧
      ((responseMsg a.res).data.length : Int) ≤ nlMsgmax) :
    ∃ link', respondAll nlMsgmax p₁ p₂ answers link = some link' ∧ link'.Flows nlMsgmax := by
  induction answers generalizing link with
  | nil => exact ⟨link, rfl, h⟩
  | cons a answers ih =>
      obtain ⟨hint, hle⟩ := hlen a List.mem_cons_self
      have he : link.Enabled (.respond p₁ p₂ (responseMsg a.res)) := ⟨h.opened, hint⟩
      obtain ⟨mid, hmid, -⟩ := h.live.step he
      obtain ⟨link', hs, hflows⟩ :=
        ih (h.step he hle hmid) fun a' ha' ↦ hlen a' (List.mem_cons_of_mem _ ha')
      refine ⟨link', ?_, hflows⟩
      rw [respondAll, if_pos he, hmid]
      exact hs

/-- Smooth steps keep the connection. -/
theorem flows_step {n : ℕ} (hn : 12 + 14 * (n : Int) ≤ nlMsgmax) (hmax : nlMsgmax < 2 ^ 31)
    (hr : (wireSync cfg nlMsgmax fd).Reachable w) (h : w.link.Flows nlMsgmax)
    (hsmooth : w.Smooth nlMsgmax n e) (hst : w.step cfg nlMsgmax fd e = some t) :
    t.link.Flows nlMsgmax := by
  cases e with
  | agent a =>
      simp only [WireSync.step, Option.ite_none_right_eq_some, Option.map_eq_some_iff] at hst
      obtain ⟨-, agents, -, rfl⟩ := hst
      exact h
  | sendTask p₁ p₂ =>
      simp only [WireSync.step] at hst
      split at hst
      · cases hst
      · rename_i req tasks htasks
        simp only [Option.ite_none_right_eq_some, Option.map_eq_some_iff,
          Outcome.toOption_eq_some] at hst
        obtain ⟨he, link, hlink, rfl⟩ := hst
        have hlen : (requestMsg req).data.length ≤ 12 := req.length_serialize_le
        refine h.step he ?_ hlink
        show ((requestMsg req).data.length : Int) ≤ msgMaxLimit
        rw [msgMaxLimit, msgHeadLen]
        omega
  | request i =>
      simp only [WireSync.step] at hst
      split at hst
      · cases hst
      · obtain ⟨dns, -, rfl⟩ := Option.map_eq_some_iff.mp hst
        exact h
  | dns e p₁ p₂ =>
      simp only [WireSync.step, Option.ite_none_right_eq_some, Option.bind_eq_some_iff,
        Option.map_eq_some_iff] at hst
      obtain ⟨hspares, dns, hdns, link, hlink, rfl⟩ := hst
      have hgenuine := genuine_of_step (messages_of_reachable hr h.opened) hspares hdns
      obtain ⟨link', hlink', hflows⟩ := respondAll_smooth p₁ p₂ h fun a ha ↦ by
        have hlen := responseMsg_le hsmooth (hgenuine a ha)
        omega
      obtain rfl := Option.some.inj (hlink'.symm.trans hlink)
      exact hflows
  | link op =>
      simp only [WireSync.step, Option.ite_none_right_eq_some, Option.map_eq_some_iff,
        Outcome.toOption_eq_some] at hst
      obtain ⟨⟨-, he⟩, link, hlink, rfl⟩ := hst
      exact h.step he hsmooth.2 hlink

/-- **The connection stays.**  Let no module have more than `n` hosts, so that a response with
`n` hosts is within the limit of the client.  Then nothing but a call that fails or a peer
that goes away closes the connection: in every run without these it is open, the messages are
in a state that `RouteSync` reaches, and it holds up no step of the server. -/
theorem stays_connected {n : ℕ} (hn : 12 + 14 * (n : Int) ≤ nlMsgmax) (hmax : nlMsgmax < 2 ^ 31)
    (h : ((wireSync cfg nlMsgmax fd).restrict (WireSync.Smooth nlMsgmax n)).Reachable w) :
    w.link.Open ∧ (routeSync cfg fd).Reachable w.toSync ∧
      ∀ e p₁ p₂ dns, e.spares fd = true → FewInTables n w.dns → w.dns.step e = some dns →
        ∃ t, w.step cfg nlMsgmax fd (.dns e p₁ p₂) = some t ∧ t.dns = dns := by
  have hflows : w.link.Flows nlMsgmax := by
    refine h.induction (I := fun w ↦ w.link.Flows nlMsgmax) ?_ ?_
    · rintro w ⟨-, loop, sockfd, connLoop, hsock, hfd, hlink⟩
      exact Duplex.flows_of_reachable (.init ⟨loop, sockfd, connLoop, fd, hsock, hfd, hlink⟩)
    · rintro w e t hr hi ⟨hsmooth, hst⟩
      exact flows_step hn hmax hr.of_restrict hi hsmooth hst
  have hsync := messages_of_reachable h.of_restrict hflows.opened
  refine ⟨hflows.opened, hsync, fun e p₁ p₂ dns hspares hfew hdns ↦ ?_⟩
  have hgenuine : ∀ a ∈ (answersOf fd dns).drop (answersOf fd w.dns).length,
      a.Genuine w.dns.tables := genuine_of_step hsync hspares hdns
  obtain ⟨link', hlink', -⟩ := respondAll_smooth p₁ p₂ hflows fun a ha ↦ by
    have hlen := responseMsg_le hfew (hgenuine a ha)
    omega
  refine ⟨{ w with dns := dns, link := link' }, ?_, rfl⟩
  simp only [WireSync.step, hspares, if_true, hdns, Option.bind_some, hlink']
  rfl

/-! ## A pull in bytes -/

/-- The agent that has just been connected, with a new connection. -/
def connecting : WireSync where
  agents := joined.agents
  dns := joined.dns
  link := .new .new 3 .new 5

/-- A client asks for a host, and the hosts of its module are pulled: the request is written in
two pieces, and the response arrives in two. -/
def onePullBytes : List WireEvent :=
  [.agent (.getHost 1 1 1 100), .link (.clientWrites 0 []), .agent .recvTasks,
    .sendTask exactPool exactPool, .link (.clientWrites 0 [.wrote 3]),
    .link (.clientWrites 0 [.wrote 100]),
    .link (.connReads ⟨exactPool, [1, 0, 0, 0, 4, 0, 0, 0, 8, 1, 16, 1], by decide⟩),
    .request 0, .dns (.proceed 0) exactPool exactPool, .dns (.proceed 0) exactPool exactPool,
    .dns (.proceed 0) exactPool exactPool, .link (.connWrites [.wrote 100]),
    .link (.clientReads ⟨exactPool, [2, 0, 0, 0, 15], by decide⟩),
    .link (.clientReads ⟨exactPool, [0, 0, 0, 8, 1, 16, 1, 26, 9, 8, 177, 131, 160, 133, 12, 16,
      225, 60], by decide⟩),
    .agent (.dnsResCb fun _ ↦ 100)]

/-- The state after a step, if it can be taken. -/
def WireSync.next (cfg : LoadBalanceConfig) (nlMsgmax fd : Int) (w : WireSync) (e : WireEvent) :
    WireSync := (w.step cfg nlMsgmax fd e).getD w

/-- The agent and the server after these steps. -/
def pulledBytes : WireSync := onePullBytes.foldl (WireSync.next .default 121 5) connecting

theorem WireSync.next_step (h : (w.step cfg nlMsgmax fd e).isSome = true) :
    w.step cfg nlMsgmax fd e = some (w.next cfg nlMsgmax fd e) := by
  obtain ⟨t, ht⟩ := Option.isSome_iff_exists.mp h
  rw [WireSync.next, ht]
  rfl

theorem connecting_initial : connecting.Initial 5 :=
  ⟨joined_initial, .new, 3, .new, by decide, by decide, rfl⟩

theorem pulledBytes_reachable : (wireAnnouncing .default 121 5).Reachable pulledBytes := by
  have hreach : (wireAnnouncing .default 121 5).Reachable connecting :=
    .init ⟨connecting_initial, joined_announced⟩
  refine hreach.run (LTS.Run.foldl
    (C := fun w e ↦ w.Announcing e ∧ (w.step .default 121 5 e).isSome = true) ?_ ?_)
  · rintro w e ⟨hc, h⟩
    exact ⟨hc, w.next_step h⟩
  · exact ⟨⟨trivial, rfl⟩, ⟨trivial, rfl⟩, ⟨trivial, rfl⟩, ⟨trivial, rfl⟩, ⟨trivial, rfl⟩,
      ⟨trivial, rfl⟩, ⟨trivial, rfl⟩, ⟨trivial, rfl⟩, ⟨trivial, rfl⟩, ⟨trivial, rfl⟩,
      ⟨trivial, rfl⟩, ⟨trivial, rfl⟩, ⟨trivial, rfl⟩, ⟨trivial, rfl⟩, ⟨trivial, rfl⟩, trivial⟩

theorem bytes_refine_pulled :
    (routeSync .default 5).Reachable pulledBytes.toSync ∧
      ∀ e t, (wireSync .default 121 5).step pulledBytes e t → t.link.Open →
        t.toSync = pulledBytes.toSync ∨
          ∃ e', (routeSync .default 5).step pulledBytes.toSync e' t.toSync :=
  bytes_refine (wire_of_announcing pulledBytes_reachable) (by decide)

theorem joined_few : FewInTables 7 joined.dns := by
  intro tab htab key
  obtain rfl := List.mem_singleton.mp htab
  exact (size_lookup_tableOf [⟨1, 1, 3232235953, 7777⟩] key).trans (by decide)

/-- No call failed, and the module has one host. -/
theorem pulledBytes_smooth :
    ((wireSync .default 121 5).restrict (WireSync.Smooth 121 7)).Reachable pulledBytes := by
  have hfew : ∀ w : WireSync, w.dns.tables = joined.dns.tables → FewInTables 7 w.dns := by
    intro w hw
    rw [FewInTables, hw]
    exact joined_few
  have hreach : ((wireSync .default 121 5).restrict (WireSync.Smooth 121 7)).Reachable
      connecting := .init connecting_initial
  refine hreach.run (LTS.Run.foldl
    (C := fun w e ↦ w.Smooth 121 7 e ∧ (w.step .default 121 5 e).isSome = true) ?_ ?_)
  · rintro w e ⟨hc, h⟩
    exact ⟨hc, w.next_step h⟩
  · exact ⟨⟨hfew _ rfl, rfl⟩, ⟨⟨hfew _ rfl, rfl, fun _ h ↦ absurd h List.not_mem_nil⟩, rfl⟩,
      ⟨hfew _ rfl, rfl⟩, ⟨hfew _ rfl, rfl⟩,
      ⟨⟨hfew _ rfl, rfl, List.forall_mem_singleton.mpr trivial⟩, rfl⟩,
      ⟨⟨hfew _ rfl, rfl, List.forall_mem_singleton.mpr trivial⟩, rfl⟩,
      ⟨⟨hfew _ rfl, trivial⟩, rfl⟩, ⟨hfew _ rfl, rfl⟩, ⟨hfew _ rfl, rfl⟩, ⟨hfew _ rfl, rfl⟩,
      ⟨hfew _ rfl, rfl⟩, ⟨⟨hfew _ rfl, List.forall_mem_singleton.mpr trivial⟩, rfl⟩,
      ⟨⟨hfew _ rfl, trivial⟩, rfl⟩, ⟨⟨hfew _ rfl, trivial⟩, rfl⟩, ⟨hfew _ rfl, rfl⟩, trivial⟩

theorem stays_connected_pulled :
    pulledBytes.link.Open ∧ (routeSync .default 5).Reachable pulledBytes.toSync ∧
      ∀ e p₁ p₂ dns, e.spares 5 = true → FewInTables 7 pulledBytes.dns →
        pulledBytes.dns.step e = some dns →
          ∃ t, pulledBytes.step .default 121 5 (.dns e p₁ p₂) = some t ∧ t.dns = dns :=
  stays_connected (by decide) (by decide) pulledBytes_smooth

theorem bytes_agree_pulled :
    ∃ lb, (pulledBytes.agents.agentRoutes (agentIndex 1 1)).routeMap[modKey 1 1]? = some lb ∧
      lb.status = some .new ∧ lb.empty = false ∧
        ∀ k, k ∈ lb.hostMap ↔ k ∈ pulledBytes.dns.publisher.router.getHosts 1 1 := by
  obtain ⟨lb, hget⟩ : ∃ lb,
      (pulledBytes.agents.agentRoutes (agentIndex 1 1)).routeMap[modKey 1 1]? = some lb :=
    Option.isSome_iff_exists.mp (by decide)
  refine ⟨lb, hget, bytes_agree pulledBytes_reachable (by decide)
    ⟨rfl, rfl, rfl, rfl, rfl, rfl, ⟨rfl, fun i hi ↦ ?_⟩, ?_⟩ hget⟩
  · obtain rfl := Nat.lt_one_iff.mp hi
    exact ⟨rfl, rfl, .inl rfl⟩
  · rintro (h | ⟨⟨mods, h⟩, -⟩) <;> cases h

end Ylars.System
