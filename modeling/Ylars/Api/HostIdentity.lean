import Mathlib.Algebra.Ring.Nat
import Ylars.Agent.AgentServer
import Ylars.Api.YlarsApi
import Ylars.Dns.RowText

/-!
# The way of a host from the database to a report

An address is decimal text in `RouteData`, a number and half of a packed word in the DNS
server, a number in the messages and in the agent, dotted text for the caller of the client
library, and a number again in the report of a call.  A port is a signed number in the DNS
server and has sixteen bits for the caller.  For a port below `2 ^ 16` all of this is undone
on the way back: the report of a host that was given out finds this host
(`report_finds_host`).
-/

namespace Ylars.Agent.LoadBalance

open Std (ExtTreeMap)

/-- `op` is not an update that removes `k`. -/
def Op.Keeps (k : UInt64) : Op → Prop
  | .update _ res => ∃ host ∈ res.host, hostKey host.ip host.port = k
  | _ => True

/-- The report of a call that is about the host behind `p`: it is found, its record is
counted and possibly switched, and no other record changes. -/
structure Finds (cfg : LoadBalanceConfig) (clock : Clock) (req : Proto.ReportRequest)
    (lb : LoadBalance) (p : HostPtr) (lb' : LoadBalance) : Prop where
  found : lb.hostMap[hostKey req.host.ip req.host.port]? = some p
  reported : lb.report cfg clock req.host.ip req.host.port req.issucc = .ok lb'
  updated : ((lb.modifyHost p (·.record req.issucc)).switchState cfg (clock 1) req.issucc p).expire
    cfg (clock 0) (clock 2) p = .ok lb'
  others : ∀ q, q ≠ p → lb'.heap q = lb.heap q
  hostMap : lb'.hostMap = lb.hostMap

variable {cfg : LoadBalanceConfig} {lb lb' : LoadBalance} {k : UInt64} {p : HostPtr}

/-- A report for a filed host finds it. -/
theorem WellFormed.exists_finds (h : lb.WellFormed) (cfg : LoadBalanceConfig) (clock : Clock)
    {req : Proto.ReportRequest}
    (hp : lb.hostMap[hostKey req.host.ip req.host.port]? = some p) :
    ∃ lb', Finds cfg clock req lb p lb' := by
  obtain ⟨lb', hr, -⟩ : ∃ lb', lb.report cfg clock req.host.ip req.host.port req.issucc =
    .ok lb' ∧ lb'.WellFormed := h.report clock _ _ _
  have hu := hr
  simp only [LoadBalance.report, LoadBalance.reportSwitch, hp] at hu
  obtain ⟨hm, hh⟩ := expire_frame hu
  refine ⟨lb', hp, hr, hu, fun q hq ↦ ?_, ?_⟩
  · rw [hh q hq, heap_switchState_of_ne hq, heap_modifyHost_of_ne hq]
  · rw [hm, hostMap_switchState]
    rfl

/-- An operation that does not remove a host leaves it where it is. -/
theorem WellFormed.step_keeps (h : lb.WellFormed) {op : Op} (hst : lb.step cfg op = .ok lb')
    (hp : lb.hostMap[k]? = some p) (hk : op.Keeps k) : lb'.hostMap[k]? = some p := by
  cases op with
  | update clock res => exact (update_frame h hst hp hk).1
  | report clock ip port isSucc =>
      obtain ⟨_, _, _, rfl⟩ := report_eq hst
      exact hp
  | choiceOneHost res =>
      obtain ⟨_, _, h₁⟩ := exists_choiceOneHost hst
      rw [(choiceOneHost_frame h₁).1, hp]
  | getAllHost =>
      obtain rfl := Except.ok.inj hst
      exact hp
  | commit now =>
      obtain rfl := Except.ok.inj hst
      exact hp

/-- A run of operations that do not remove a host leaves it where it is. -/
theorem WellFormed.run_keeps (ops : List Op) (h : lb.WellFormed)
    (hrun : ops.foldlM (LoadBalance.step cfg) lb = .ok lb') (hp : lb.hostMap[k]? = some p)
    (hk : ∀ op ∈ ops, op.Keeps k) : lb'.hostMap[k]? = some p := by
  induction ops generalizing lb with
  | nil =>
      obtain rfl := Except.ok.inj hrun
      exact hp
  | cons op ops ih =>
      rw [List.foldlM_cons] at hrun
      obtain ⟨lb₁, h₁, hrun₁⟩ := Outcome.bind_eq_ok.mp hrun
      have hwf : lb₁.WellFormed := Outcome.of_exists_ok (h.step cfg op) h₁
      exact ih hwf hrun₁ (h.step_keeps h₁ hp (hk op List.mem_cons_self))
        fun o ho ↦ hk o (List.mem_cons_of_mem op ho)

theorem WellFormed.of_choiceOneHost (h : lb.WellFormed) {ret : Proto.LastRetCode}
    {res res' : Proto.GetHostResponse} (hc : lb.choiceOneHost cfg res = .ok (ret, res', lb')) :
    lb'.WellFormed := by
  obtain ⟨_, _, _, hc₁, hwf, -⟩ := h.choiceOneHost cfg res
  exact Outcome.of_exists_ok (P := fun x ↦ x.2.2.WellFormed) ⟨_, hc₁, hwf⟩ hc

/-- What `choice_one_host` answers: a code that says why there is no host, or a filed
host. -/
theorem WellFormed.choiceOneHost_answer (h : lb.WellFormed) {ret : Proto.LastRetCode}
    {res res' : Proto.GetHostResponse} (hc : lb.choiceOneHost cfg res = .ok (ret, res', lb')) :
    res' = res ∨
      ret = .retSucc ∧ ∃ p, lb.Known p ∧ res' = { res with host := some (lb.endpoint p) } := by
  cases chosen_of_choiceOneHost hc with
  | noexist => exact .inl rfl
  | overload => exact .inl rfl
  | @probe p _ hp => exact .inr ⟨rfl, p, ((h.split.mem_right p).mp hp).1, rfl⟩
  | @idle p _ _ hp => exact .inr ⟨rfl, p, ((h.split.mem_left p).mp hp).1, rfl⟩

end Ylars.Agent.LoadBalance

namespace Ylars.Api

open Ylars.Lib Text
open Ylars.Proto Reactor Agent Dns

variable {cfg : LoadBalanceConfig} {lb : LoadBalance} {seq modid cmdid : UInt32}
  {host : Proto.HostInfo}

/-- The datagram with one host of a module, which `host_req_cb` sends. -/
def hostReply (res : GetHostResponse) : List UInt8 :=
  (MessageId.getHostResponse.message res.serialize).bytes

/-- `host_req_cb` answers `get_host` with what the `route_lb` says. -/
theorem doRead_of_getHost {r r' : RouteLb} {clock : Clock} {ret : LastRetCode}
    {res : GetHostResponse} {pulls : List GetRouteRequest}
    (h : r.getHost cfg (clock 0) modid cmdid ⟨seq, modid, cmdid, .retSucc, none⟩ =
      .ok (ret, res, pulls, r')) :
    AgentServer.doRead cfg clock (hostRequest seq modid cmdid) r =
      .ok (⟨some (hostReply res), pulls, none⟩, r') := by
  have hreq := GetHostRequest.length_serialize_le ⟨seq, modid, cmdid⟩
  have hres := GetHostResponse.length_serialize_le res
  have hread := @AgentServer.doRead_bytes cfg clock (MessageId.getHostRequest.message
    (GetHostRequest.serialize ⟨seq, modid, cmdid⟩))
    (Int.ofNat_le.mpr (Nat.le_trans hreq (by decide))) _ rfl r
  have hsend : UdpServer.sendMsg (MessageId.getHostResponse.message
      (GetHostResponse.serialize res)) = .ok (some _) :=
    UdpServer.sendMsg_of_le (Nat.le_trans (Nat.add_le_add_right hres 8) (by decide))
  rw [hostRequest, hread]
  change AgentServer.hostReqCb cfg clock (GetHostRequest.serialize ⟨seq, modid, cmdid⟩) r = _
  simp only [AgentServer.hostReqCb, GetHostRequest.parse_serialize, if_true, h,
    Outcome.ok_bind, hsend]
  rfl

theorem doRead_hostRequest {r : RouteLb} (hlb : r.routeMap[modKey modid cmdid]? = some lb)
    (h : lb.Sound (modKey modid cmdid)) (hne : lb.empty = false) (clock : Clock)
    {ret : LastRetCode} {res : GetHostResponse} {lb₁ : LoadBalance}
    (hc : lb.choiceOneHost cfg ⟨seq, modid, cmdid, .retSucc, none⟩ = .ok (ret, res, lb₁)) :
    ∃ pulls r', AgentServer.doRead cfg clock (hostRequest seq modid cmdid) r =
      .ok (⟨some (hostReply { res with retcode := ret }), pulls, none⟩, r') := by
  have hany : lb.choiceIfAny cfg ⟨seq, modid, cmdid, .retSucc, none⟩ = .ok (ret, res, lb₁) := by
    rw [LoadBalance.choiceIfAny, hne]
    exact hc
  obtain ⟨_, _, _, hany', hsound, -⟩ := h.choiceIfAny cfg ⟨seq, modid, cmdid, .retSucc, none⟩
  obtain ⟨rfl, he⟩ := Prod.mk.inj (Except.ok.inj (hany.symm.trans hany'))
  obtain ⟨rfl, rfl⟩ := Prod.mk.inj he
  obtain ⟨pulls, lb₂, hr, -, -⟩ := hsound.refresh cfg (clock 0)
  have hget : r.getHost cfg (clock 0) modid cmdid ⟨seq, modid, cmdid, .retSucc, none⟩ =
      .ok (ret, { res with retcode := ret }, pulls,
        ⟨r.routeMap.insert (modKey modid cmdid) lb₂⟩) := by
    simp only [RouteLb.getHost, hlb, hany, hr, Outcome.ok_bind]
    rfl
  exact ⟨pulls, _, doRead_of_getHost hget⟩

/-- `report_req_cb` gives a report to the hosts of its module. -/
theorem doRead_report {r : RouteLb} (hlb : r.routeMap[modKey modid cmdid]? = some lb)
    {ip : String} {port : UInt16} {isSucc : Bool} {req : ReportRequest}
    (hreq : reportRequest modid cmdid ip port isSucc = .ok req) {clock : Clock} {lb₁ : LoadBalance}
    (hr : lb.report cfg clock req.host.ip req.host.port req.issucc = .ok lb₁) :
    ∃ datagram, report modid cmdid ip port isSucc = .ok datagram ∧
      AgentServer.doRead cfg clock datagram r = .ok (⟨none, [], lb₁.commit (clock 3)⟩,
        ⟨r.routeMap.insert (modKey modid cmdid) lb₁⟩) := by
  obtain ⟨hmodid, hcmdid⟩ : req.modid = modid ∧ req.cmdid = cmdid := by
    unfold reportRequest at hreq
    split at hreq
    · cases hreq
    · obtain rfl := Except.ok.inj hreq
      exact ⟨rfl, rfl⟩
  have hlen := ReportRequest.length_serialize_le req
  have hread := @AgentServer.doRead_bytes cfg clock
    (MessageId.reportRequest.message (ReportRequest.serialize req))
    (Int.ofNat_le.mpr (Nat.le_trans hlen (by decide))) _ rfl r
  refine ⟨_, by rw [report, hreq]; rfl, ?_⟩
  rw [hread]
  change AgentServer.reportReqCb cfg clock (ReportRequest.serialize req) r = _
  simp only [AgentServer.reportReqCb, ReportRequest.parse_serialize, RouteLb.reportHost, hmodid,
    hcmdid, hlb, hr, Outcome.ok_bind]
  rfl

theorem getHost_cons (seq modid cmdid : UInt32) (res : GetHostResponse)
    (ios : List (Option (List UInt8))) :
    getHost seq modid cmdid (some (hostReply res) :: ios) =
      if res.seq < seq then getHost seq modid cmdid ios
      else some (hostResult seq modid cmdid res.reply) := by
  have hlen := GetHostResponse.length_serialize_le res
  have hmsg := @checkMsg_bytes .getHostResponse _ (Nat.add_le_of_le_sub (by decide)
    (Nat.le_trans hlen (by decide)))
  rw [getHost, hostReply, hmsg]
  simp only [GetHostResponse.parse_serialize, Bool.not_true, Bool.false_eq_true, if_false]
  rfl

/-- `get_host` gives the host of the reply as text and a port of sixteen bits. -/
theorem getHost_hostReply (seq modid cmdid : UInt32) (host : Proto.HostInfo)
    (ios : List (Option (List UInt8))) :
    getHost seq modid cmdid (some (hostReply ⟨seq, modid, cmdid, .retSucc, some host⟩) :: ios) =
      some (LastRetCode.retSucc.code, some (dottedQuad host.ip, host.port.toUInt16)) := by
  have hseq : ¬seq < seq := UInt32.lt_irrefl seq
  rw [getHost_cons, if_neg hseq, hostResult, if_neg (by simp [GetHostResponse.reply]),
    if_neg (by simp [GetHostResponse.reply])]
  simp only [GetHostResponse.reply, Option.getD_some, inetNtoa_htonl]

theorem reportRequest_dottedQuad (hport : host.port.toNat < 2 ^ 16) (isSucc : Bool) :
    reportRequest modid cmdid (dottedQuad host.ip) host.port.toUInt16 isSucc =
      .ok ⟨modid, cmdid, host, isSucc⟩ := by
  simp only [reportRequest, ← inetNtoa_htonl, inetAton_inetNtoa, htonl_htonl,
    toUInt32_toUInt16 hport]

/-- The report of a host that was given out finds it. -/
theorem finds_chosen (h : lb.WellFormed) {ret : LastRetCode} {res : GetHostResponse}
    {lb₁ : LoadBalance}
    (hc : lb.choiceOneHost cfg ⟨seq, modid, cmdid, .retSucc, none⟩ = .ok (ret, res, lb₁))
    (hres : res.host = some host) (hport : host.port.toNat < 2 ^ 16) :
    ∃ p, lb.hostMap[hostKey host.ip host.port]? = some p ∧ ∃ ip port,
      getHost seq modid cmdid [some (hostReply { res with retcode := ret })] =
        some (LastRetCode.retSucc.code, some (ip, port)) ∧
      ∀ (ops : List LoadBalance.Op) (lb₂ : LoadBalance) (isSucc : Bool) (clock : Clock),
        ops.foldlM (LoadBalance.step cfg) lb₁ = .ok lb₂ →
        (∀ op ∈ ops, op.Keeps (hostKey host.ip host.port)) →
        ∃ req lb₃, reportRequest modid cmdid ip port isSucc = .ok req ∧
          LoadBalance.Finds cfg clock (ReportRequest.parse req.serialize).1 lb₂ p lb₃ := by
  rcases h.choiceOneHost_answer hc with rfl | ⟨rfl, p, ⟨k, hk⟩, rfl⟩
  · cases hres
  obtain rfl : lb.endpoint p = host := Option.some.inj hres
  obtain rfl := h.hostKey_endpoint hk
  refine ⟨p, hk, _, _, getHost_hostReply seq modid cmdid (lb.endpoint p) [], ?_⟩
  intro ops lb₂ isSucc clock hrun hkeeps
  have hwf := h.of_choiceOneHost hc
  have hk₁ : lb₁.hostMap[hostKey (lb.endpoint p).ip (lb.endpoint p).port]? = some p := by
    rw [(LoadBalance.choiceOneHost_frame hc).1, hk]
  have hk₂ := hwf.run_keeps ops hrun hk₁ hkeeps
  have hreq := @reportRequest_dottedQuad modid cmdid (lb.endpoint p) hport isSucc
  obtain ⟨lb₃, hfinds⟩ := @LoadBalance.WellFormed.exists_finds _ _ (hwf.of_run hrun) cfg clock
    ⟨modid, cmdid, lb.endpoint p, isSucc⟩ hk₂
  refine ⟨_, lb₃, hreq, ?_⟩
  rw [ReportRequest.parse_serialize]
  exact hfinds

/-- **Host identity survives the whole pipeline.**  A host of a row in decimal text, with any
address and a port below `2 ^ 16`, is filed by an update with the response of the DNS server;
whenever it is chosen after that, the report of what `get_host` gave the caller finds exactly
this host, as long as no update has removed it. -/
theorem report_finds_host (hlb : lb.Reachable cfg) {s : DnsServer} {rows : List TextRow}
    (hdata : s.publisher.router.data = Router.tableOfText rows) {row : RouteDataRow}
    (hrow : row.text ∈ rows) (hport : row.serverport.toNat < 2 ^ 16) (clock : Clock) :
    ∃ lb₁, lb.update cfg clock
        (GetRouteResponse.parse (s.answer row.modid row.cmdid).res.serialize).1 = .ok lb₁ ∧
      hostKey row.serverip row.serverport ∈ lb₁.hostMap ∧
      ∀ (ops : List LoadBalance.Op) (lb₂ : LoadBalance) (seq : UInt32) (ret : LastRetCode)
        (res : GetHostResponse) (lb₃ : LoadBalance),
        ops.foldlM (LoadBalance.step cfg) lb₁ = .ok lb₂ →
        lb₂.choiceOneHost cfg ⟨seq, row.modid, row.cmdid, .retSucc, none⟩ = .ok (ret, res, lb₃) →
        res.host = some ⟨row.serverip, row.serverport⟩ →
        ∃ p, lb₂.hostMap[hostKey row.serverip row.serverport]? = some p ∧ ∃ ip port,
          getHost seq row.modid row.cmdid [some (hostReply { res with retcode := ret })] =
            some (LastRetCode.retSucc.code, some (ip, port)) ∧
          ∀ (ops' : List LoadBalance.Op) (lb₄ : LoadBalance) (isSucc : Bool) (clock' : Clock),
            ops'.foldlM (LoadBalance.step cfg) lb₃ = .ok lb₄ →
            (∀ op ∈ ops', op.Keeps (hostKey row.serverip row.serverport)) →
            ∃ req lb₅, reportRequest row.modid row.cmdid ip port isSucc = .ok req ∧
              LoadBalance.Finds cfg clock' (ReportRequest.parse req.serialize).1 lb₄ p lb₅ := by
  rw [GetRouteResponse.parse_serialize]
  generalize hres₀ : (s.answer row.modid row.cmdid).res = res₀
  obtain ⟨lb₁, hu, hset, -⟩ : ∃ lb₁, lb.update cfg clock res₀ = .ok lb₁ ∧
    LoadBalance.SetTo lb res₀.host lb₁ ∧ lb₁.status = some .new :=
      hlb.wellFormed.update_setTo clock res₀
  have hwf : lb₁.WellFormed := Outcome.of_exists_ok (hlb.wellFormed.update clock res₀) hu
  have hmem := DnsServer.mem_answer hdata hrow (Nat.lt_trans hport (by decide))
  rw [hres₀] at hmem
  refine ⟨lb₁, hu, (hset.mem _).mpr ⟨_, hmem, rfl⟩, ?_⟩
  intro ops lb₂ seq ret res lb₃ hrun hc hres
  obtain ⟨p, hp, ip, port, hget, hfinds⟩ := @finds_chosen cfg lb₂ seq row.modid row.cmdid
    ⟨row.serverip, row.serverport⟩ (hwf.of_run hrun) ret res lb₃ hc hres hport
  refine ⟨p, hp, ip, port, hget, ?_⟩
  intro ops' lb₄ isSucc clock' hrun' hkeeps
  exact hfinds ops' lb₄ isSucc clock' hrun' hkeeps

/-- The way of one host, with a high address and a high port. -/
def highRow : RouteDataRow := ⟨1, 1, 3232235953, 65535⟩

/-- A server that has only this row. -/
def highServer : DnsServer :=
  .start 1 { data := Router.tableOfText [highRow.text], temp := ∅, version := 0 }

/-- A host with a high address and a high port is filed, chosen at once, and found by the report of
the failed call. -/
theorem report_finds_host_high :
    ∃ lb₁ p res lb₂ ip port req lb₃,
      (LoadBalance.new 1 1).update .default (fun _ ↦ 0)
        (GetRouteResponse.parse (highServer.answer 1 1).res.serialize).1 = .ok lb₁ ∧
      lb₁.choiceOneHost .default ⟨7, 1, 1, .retSucc, none⟩ = .ok (.retSucc, res, lb₂) ∧
      res.host = some ⟨3232235953, 65535⟩ ∧
      getHost 7 1 1 [some (hostReply { res with retcode := .retSucc })] =
        some (LastRetCode.retSucc.code, some (ip, port)) ∧
      reportRequest 1 1 ip port false = .ok req ∧
      LoadBalance.Finds .default (fun _ ↦ 1) (ReportRequest.parse req.serialize).1 lb₂ p lb₃ := by
  have hres : (highServer.answer 1 1).res = ⟨1, 1, [⟨3232235953, 65535⟩]⟩ := by
    have htable : Router.tableOfText [highRow.text] = Router.tableOf [highRow] :=
      Router.tableOfText_text [highRow]
    simp only [DnsServer.answer, highServer, DnsServer.start, Router.getHosts, htable]
    decide +kernel
  obtain ⟨lb₁, hu, -, h⟩ := @report_finds_host .default (.new 1 1) ⟨1, 1, [], rfl⟩ highServer _ rfl
    highRow (List.mem_singleton_self _) (by decide) fun _ ↦ 0
  have hchoice : (do
      let lb₁ ← (LoadBalance.new 1 1).update .default (fun _ ↦ 0) ⟨1, 1, [⟨3232235953, 65535⟩]⟩
      let chosen ← lb₁.choiceOneHost .default ⟨7, 1, 1, .retSucc, none⟩
      return (chosen.1, chosen.2.1)) =
        (.ok (.retSucc, ⟨7, 1, 1, .retSucc, some ⟨3232235953, 65535⟩⟩) :
          Outcome (LastRetCode × GetHostResponse)) := by
    decide +kernel
  obtain ⟨lb₁', hu', hret⟩ := Outcome.bind_eq_ok.mp hchoice
  obtain rfl : lb₁ = lb₁' := by
    have hparse := GetRouteResponse.parse_serialize (highServer.answer 1 1).res
    rw [← hres] at hu'
    refine Except.ok.inj (hu.symm.trans ?_)
    rw [← hu']
    exact congrArg (fun m ↦ (LoadBalance.new 1 1).update .default (fun _ ↦ 0) (Prod.fst m)) hparse
  obtain ⟨⟨ret, res, lb₂⟩, hc, he⟩ := Outcome.bind_eq_ok.mp hret
  obtain ⟨rfl, rfl⟩ := Prod.mk.inj (Except.ok.inj he)
  obtain ⟨p, -, ip, port, hget, hfinds⟩ := h [] lb₁ 7 _ _ lb₂ rfl hc rfl
  obtain ⟨req, lb₃, hreq, hp⟩ := hfinds [] lb₂ false (fun _ ↦ 1) rfl fun _ hop ↦ by cases hop
  exact ⟨lb₁, p, _, lb₂, ip, port, req, lb₃, hu, hc, rfl, hget, hreq, hp⟩

end Ylars.Api
