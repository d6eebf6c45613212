import Ylars.Agent.HostSet
import Ylars.Agent.RouteLb
import Ylars.Reactor.UdpServer
import Ylars.Wire

/-!
# The udp servers of the agent

A udp server has a `route_lb` and a callback for each of the three requests of a client: all
hosts of a module, one host of it, and the outcome of a call.  A callback parses its request,
asks the `route_lb` and sends the response, if there is one, as a datagram.
-/

namespace Ylars.Agent

open Std (ExtTreeMap)
open Ylars.Reactor Ylars.Proto

/-- What a callback sends: a datagram to the client, requests to the dns queue, a status
report to the report queue. -/
structure Effects where
  reply : Option (List UInt8)
  pulls : List GetRouteRequest
  status : Option ReportStatusReq

namespace AgentServer

/-- `route_req_cb`. -/
def routeReqCb (cfg : LoadBalanceConfig) (clock : Clock) (msg : List UInt8) (r : RouteLb) :
    Outcome (Effects × RouteLb) :=
  let (req, ok) := GetRouteRequest.parse msg
  if ok then do
    let (_, res, pulls, r) ← r.getRoute cfg (clock 0) req.modid req.cmdid
      { modid := req.modid, cmdid := req.cmdid, host := [] }
    let reply ← UdpServer.sendMsg (MessageId.getRouteResponse.message res.serialize)
    return (⟨reply, pulls, none⟩, r)
  else .ok (⟨none, [], none⟩, r)

/-- `host_req_cb`. -/
def hostReqCb (cfg : LoadBalanceConfig) (clock : Clock) (msg : List UInt8) (r : RouteLb) :
    Outcome (Effects × RouteLb) :=
  let (req, ok) := GetHostRequest.parse msg
  if ok then do
    let (_, res, pulls, r) ← r.getHost cfg (clock 0) req.modid req.cmdid
      { seq := req.seq, modid := req.modid, cmdid := req.cmdid, retcode := .retSucc, host := none }
    let reply ← UdpServer.sendMsg (MessageId.getHostResponse.message res.serialize)
    return (⟨reply, pulls, none⟩, r)
  else .ok (⟨none, [], none⟩, r)

/-- `report_req_cb`, which does not look whether the request is well formed. -/
def reportReqCb (cfg : LoadBalanceConfig) (clock : Clock) (msg : List UInt8) (r : RouteLb) :
    Outcome (Effects × RouteLb) := do
  let (status, r) ← r.reportHost cfg clock (ReportRequest.parse msg).1
  return (⟨none, [], status⟩, r)

/-- The callbacks that `agent_udp_server` registers. -/
def callback (cfg : LoadBalanceConfig) (clock : Clock) (msgid : Int32) :
    Option (List UInt8 → RouteLb → Outcome (Effects × RouteLb)) :=
  if msgid = MessageId.getHostRequest.code then some (hostReqCb cfg clock)
  else if msgid = MessageId.getRouteRequest.code then some (routeReqCb cfg clock)
  else if msgid = MessageId.reportRequest.code then some (reportReqCb cfg clock)
  else none

/-- What the server makes of a datagram. -/
def doRead (cfg : LoadBalanceConfig) (clock : Clock) (datagram : List UInt8) (r : RouteLb) :
    Outcome (Effects × RouteLb) :=
  match UdpServer.receive datagram with
  | none => .ok (⟨none, [], none⟩, r)
  | some m =>
      match callback cfg clock m.msgid with
      | none => .ok (⟨none, [], none⟩, r)
      | some cb => cb m.data r

theorem doRead_bytes {cfg : LoadBalanceConfig} {clock : Clock} {m : Message}
    (h : (m.data.length : Int) ≤ msgMaxLimit)
    {cb : List UInt8 → RouteLb → Outcome (Effects × RouteLb)}
    (hcb : callback cfg clock m.msgid = some cb) (r : RouteLb) :
    doRead cfg clock m.bytes r = cb m.data r := by
  simp only [doRead, UdpServer.receive_bytes h, hcb]

end AgentServer

/-! ## Asking for all hosts -/

/-- The hosts of a module, in the order of their keys. -/
def LoadBalance.routeHosts (lb : LoadBalance) : List Proto.HostInfo :=
  lb.hostMap.toList.map fun q ↦ lb.endpoint q.2

/-- The module has an entry with these hosts. -/
def RouteLb.Serves (r : RouteLb) (modid cmdid : UInt32) (hosts : List Proto.HostInfo) : Prop :=
  ∃ lb, r.routeMap[modKey modid cmdid]? = some lb ∧ lb.Sound (modKey modid cmdid) ∧
    lb.empty = false ∧ lb.routeHosts = hosts

variable {cfg : LoadBalanceConfig} {r : RouteLb} {modid cmdid : UInt32}
  {hosts : List Proto.HostInfo}

/-- Pulling the hosts again leaves the ones that are there. -/
theorem LoadBalance.refresh_frame {lb lb' : LoadBalance} {now : Int}
    {reqs : List Proto.GetRouteRequest} (h : lb.refresh cfg now = .ok (reqs, lb')) :
    lb'.hostMap = lb.hostMap ∧ lb'.heap = lb.heap := by
  unfold refresh at h
  split at h
  · cases h
  · obtain ⟨-, rfl⟩ := Prod.mk.inj (Except.ok.inj h)
    exact ⟨rfl, rfl⟩
  · split at h
    · cases h
    · split at h
      · obtain ⟨-, rfl⟩ := Prod.mk.inj (Except.ok.inj h)
        exact ⟨rfl, rfl⟩
      · obtain ⟨-, rfl⟩ := Prod.mk.inj (Except.ok.inj h)
        exact ⟨rfl, rfl⟩

namespace RouteLb.Serves

/-- A module that is served has hosts. -/
theorem ne_nil (h : r.Serves modid cmdid hosts) : hosts ≠ [] := by
  obtain ⟨lb, -, -, hne, rfl⟩ := h
  intro hnil
  rw [LoadBalance.routeHosts, List.map_eq_nil_iff] at hnil
  rw [LoadBalance.empty, ← ExtTreeMap.isEmpty_toList, hnil] at hne
  cases hne

/-- `get_route` answers with the hosts, and the module still has them. -/
theorem getRoute (h : r.Serves modid cmdid hosts) (cfg : LoadBalanceConfig) (now : Int) :
    ∃ reqs r', r.getRoute cfg now modid cmdid ⟨modid, cmdid, []⟩ =
      .ok (.retSucc, ⟨modid, cmdid, hosts⟩, reqs, r') ∧ r'.Serves modid cmdid hosts := by
  obtain ⟨lb, hlb, hsound, hne, rfl⟩ := h
  obtain ⟨reqs, lb', hr, hsound', -⟩ := hsound.refresh cfg now
  obtain ⟨hmap, hheap⟩ := LoadBalance.refresh_frame hr
  have hhosts : lb'.routeHosts = lb.routeHosts := by
    unfold LoadBalance.routeHosts LoadBalance.endpoint
    rw [hmap, hheap]
  have hall : lb.getAllHost = (.retSucc, lb.hostMap.toList.map Prod.snd) :=
    if_neg (by rw [LoadBalance.empty] at hne; simp [hne])
  refine ⟨reqs, ⟨r.routeMap.insert (modKey modid cmdid) lb'⟩, ?_, lb', ?_, hsound', ?_, hhosts⟩
  · simp only [RouteLb.getRoute, hlb, hne, hall, hr, Outcome.ok_bind, Bool.false_eq_true, if_false,
      List.nil_append, List.map_map]
    rw [← hhosts, LoadBalance.routeHosts, hmap]
    rfl
  · exact ExtTreeMap.getElem?_insert_self
  · rw [LoadBalance.empty, hmap]
    exact hne

/-- A request for the hosts is answered with the response in a datagram, as far as `sendto`
takes it. -/
theorem doRead (h : r.Serves modid cmdid hosts) (cfg : LoadBalanceConfig) (clock : Clock)
    (hsize : ((GetRouteResponse.serialize ⟨modid, cmdid, hosts⟩).length : Int) ≤ msgMaxLimit) :
    ∃ reqs r', AgentServer.doRead cfg clock
        (MessageId.getRouteRequest.message (GetRouteRequest.serialize ⟨modid, cmdid⟩)).bytes r =
      .ok (⟨sendto (MessageId.getRouteResponse.message
          (GetRouteResponse.serialize ⟨modid, cmdid, hosts⟩)).bytes, reqs, none⟩, r') ∧
      r'.Serves modid cmdid hosts := by
  obtain ⟨reqs, r', hget, hr'⟩ := h.getRoute cfg (clock 0)
  refine ⟨reqs, r', ?_, hr'⟩
  have hreq := GetRouteRequest.length_serialize_le ⟨modid, cmdid⟩
  have hlen : ((GetRouteRequest.serialize ⟨modid, cmdid⟩).length : Int) ≤ msgMaxLimit := by
    rw [msgMaxLimit, msgHeadLen]
    omega
  have hread := @AgentServer.doRead_bytes cfg clock
    (MessageId.getRouteRequest.message (GetRouteRequest.serialize ⟨modid, cmdid⟩)) hlen _ rfl r
  have hsend : UdpServer.sendMsg (MessageId.getRouteResponse.message
      (GetRouteResponse.serialize ⟨modid, cmdid, hosts⟩)) = .ok (sendto _) :=
    UdpServer.sendMsg_of_le_limit hsize
  rw [hread]
  change AgentServer.routeReqCb cfg clock (GetRouteRequest.serialize ⟨modid, cmdid⟩) r = _
  simp only [AgentServer.routeReqCb, GetRouteRequest.parse_serialize, if_true, hget,
    Outcome.ok_bind, hsend]
  rfl

end RouteLb.Serves

/-! ## Which hosts there can be -/

/-- The hosts of a well-formed module have the keys that they are filed under. -/
theorem LoadBalance.WellFormed.map_routeHosts {lb : LoadBalance} (h : lb.WellFormed) :
    lb.routeHosts.map (fun host ↦ hostKey host.ip host.port) = lb.hostMap.keys := by
  rw [routeHosts, List.map_map, ← ExtTreeMap.map_fst_toList_eq_keys]
  refine List.map_congr_left fun q hq ↦ ?_
  exact h.hostKey_endpoint (ExtTreeMap.mem_toList_iff_getElem?_eq_some.mp hq)

/-- An update with some hosts, all different, gives the module these hosts. -/
theorem LoadBalance.SetTo.perm_routeHosts {lb lb' : LoadBalance} (h : SetTo lb hosts lb')
    (hwf : lb'.WellFormed) (hnodup : hosts.Nodup) : lb'.routeHosts.Perm hosts := by
  have hkeys := hwf.map_routeHosts
  have hnodup' : lb'.routeHosts.Nodup := by
    apply List.Nodup.of_map fun host : Proto.HostInfo ↦ hostKey host.ip host.port
    rw [hkeys]
    exact ExtTreeMap.nodup_keys
  refine (List.perm_ext_iff_of_nodup hnodup' hnodup).mpr fun host ↦ ?_
  rw [← @exists_hostKey_eq hosts, ← h.mem, ← ExtTreeMap.mem_keys, ← hkeys, List.mem_map]
  exact exists_hostKey_eq.symm

/-- A module that has been asked for and gets an answer with some hosts has them. -/
theorem RouteLb.exists_serves (cfg : LoadBalanceConfig) (clock : Clock) (modid cmdid : UInt32)
    (hne : hosts ≠ []) (hnodup : hosts.Nodup) :
    ∃ r hosts', (RouteLb.new.create modid cmdid).2.updateHost cfg clock ⟨modid, cmdid, hosts⟩ =
      .ok r ∧ r.Serves modid cmdid hosts' ∧ hosts'.Perm hosts := by
  have hsound := LoadBalance.Sound.new_pull modid cmdid
  let res : GetRouteResponse := ⟨modid, cmdid, hosts⟩
  obtain ⟨lb, hu, hlb, -⟩ := hsound.update cfg clock (show res.host ≠ [] from hne)
  obtain ⟨hset, -⟩ : LoadBalance.SetTo _ hosts lb ∧ _ :=
    Outcome.of_exists_ok (hsound.wf.update_setTo clock res) hu
  obtain ⟨-, -, -, -, hempty⟩ := LoadBalance.update_spec hsound.wf hne hu
  have hentry : (RouteLb.new.create modid cmdid).2.routeMap[modKey modid cmdid]? =
      some (LoadBalance.new modid cmdid).pull.2 := ExtTreeMap.getElem?_insert_self
  have hne' : hosts.isEmpty = false := by simpa using hne
  refine ⟨⟨(RouteLb.new.create modid cmdid).2.routeMap.insert (modKey modid cmdid) lb⟩,
    lb.routeHosts, ?_, ⟨lb, ExtTreeMap.getElem?_insert_self, hlb, hempty, rfl⟩,
    hset.perm_routeHosts hlb.wf hnodup⟩
  simp only [updateHost, hentry, hne', Bool.false_eq_true, if_false]
  rw [hu]
  rfl

end Ylars.Agent
