import Ylars.Agent.Entries
import Ylars.Api.RouteReply
import Ylars.Api.StaleReplies

/-!
# Requests as operations

The requests of `ylars_api` and the operations of `route_lb` are two sides of one thing: for
each request that a client can send, the udp server does the operation of the request and
sends its result, if there is anything to send (`doRead_request`).
-/

namespace Ylars.Api

open Ylars.Lib
open Ylars.Proto Reactor Agent

/-- A request of a client. -/
inductive Request where
  | host (seq modid cmdid : UInt32)
  | route (modid cmdid : UInt32)
  | report (req : ReportRequest)

/-- The functions of `ylars_api`. -/
inductive Kind where
  | host
  | route
  | report
deriving DecidableEq

namespace Request

/-- The function that sends it. -/
def kind : Request → Kind
  | host _ _ _ => .host
  | route _ _ => .route
  | report _ => .report

/-- The datagram. -/
def datagram : Request → List UInt8
  | host seq modid cmdid => hostRequest seq modid cmdid
  | route modid cmdid => routeRequest modid cmdid
  | report req => (MessageId.reportRequest.message req.serialize).bytes

/-- What the agent is asked to do. -/
def op (clock : Clock) : Request → RouteOp
  | host seq modid cmdid => .getHost seq modid cmdid (clock 0)
  | route modid cmdid => .getRoute modid cmdid (clock 0)
  | report req => .reportHost req clock

/-- The udp server that the datagram is sent to. -/
def server : Request → Fin 3
  | host _ modid cmdid => agentIndex modid cmdid
  | route modid cmdid => agentIndex modid cmdid
  | report req => agentIndex req.modid req.cmdid

theorem homeOf_key (req : Request) (clock : Clock) : homeOf (req.op clock).key = req.server := by
  cases req <;> exact homeOf_modKey _ _

end Request

/-- The datagram that is sent for a result. -/
def sendResult : RouteResult → Outcome (Option (List UInt8))
  | .host _ res _ => .ok (some (hostReply res))
  | .route _ res _ => UdpServer.sendMsg (MessageId.getRouteResponse.message res.serialize)
  | .status _ => .ok none
  | .updated => .ok none

/-- The status report of a result. -/
def statusOf : RouteResult → Option ReportStatusReq
  | .status report => report
  | _ => none

variable {cfg : LoadBalanceConfig} {clock : Clock} {r r' : RouteLb} {b : RouteResult}

/-- The udp server does what the request asks for. -/
theorem doRead_request (cfg : LoadBalanceConfig) (clock : Clock) (req : Request) (r : RouteLb) :
    AgentServer.doRead cfg clock req.datagram r = (do
      let (b, r) ← RouteLb.step cfg (req.op clock) r
      let reply ← sendResult b
      return (⟨reply, b.pulls, statusOf b⟩, r)) := by
  cases req with
  | host seq modid cmdid =>
      have hlen := GetHostRequest.length_serialize_le ⟨seq, modid, cmdid⟩
      have hread := @AgentServer.doRead_bytes cfg clock (MessageId.getHostRequest.message
        (GetHostRequest.serialize ⟨seq, modid, cmdid⟩))
        (Int.ofNat_le.mpr (Nat.le_trans hlen (by decide))) _ rfl r
      rw [Request.datagram, hostRequest, hread]
      change AgentServer.hostReqCb cfg clock (GetHostRequest.serialize ⟨seq, modid, cmdid⟩) r = _
      simp only [AgentServer.hostReqCb, GetHostRequest.parse_serialize, if_true, Request.op,
        RouteLb.step]
      cases r.getHost cfg (clock 0) modid cmdid ⟨seq, modid, cmdid, .retSucc, none⟩ with
      | error e => rfl
      | ok p =>
          have hres := GetHostResponse.length_serialize_le p.2.1
          have hsend : UdpServer.sendMsg (MessageId.getHostResponse.message p.2.1.serialize) =
              .ok (some (hostReply p.2.1)) :=
            UdpServer.sendMsg_of_le (Nat.le_trans (Nat.add_le_add_right hres 8) (by decide))
          simp only [Outcome.ok_bind, hsend]
          rfl
  | route modid cmdid =>
      have hlen := GetRouteRequest.length_serialize_le ⟨modid, cmdid⟩
      have hread := @AgentServer.doRead_bytes cfg clock (MessageId.getRouteRequest.message
        (GetRouteRequest.serialize ⟨modid, cmdid⟩))
        (Int.ofNat_le.mpr (Nat.le_trans hlen (by decide))) _ rfl r
      rw [Request.datagram, routeRequest, hread]
      change AgentServer.routeReqCb cfg clock (GetRouteRequest.serialize ⟨modid, cmdid⟩) r = _
      simp only [AgentServer.routeReqCb, GetRouteRequest.parse_serialize, if_true, Request.op,
        RouteLb.step]
      cases r.getRoute cfg (clock 0) modid cmdid ⟨modid, cmdid, []⟩ with
      | error e => rfl
      | ok p => rfl
  | report req =>
      have hlen := ReportRequest.length_serialize_le req
      have hread := @AgentServer.doRead_bytes cfg clock
        (MessageId.reportRequest.message (ReportRequest.serialize req))
        (Int.ofNat_le.mpr (Nat.le_trans hlen (by decide))) _ rfl r
      rw [Request.datagram, hread]
      change AgentServer.reportReqCb cfg clock (ReportRequest.serialize req) r = _
      simp only [AgentServer.reportReqCb, ReportRequest.parse_serialize, Request.op, RouteLb.step]
      cases r.reportHost cfg clock req with
      | error e => rfl
      | ok p => rfl

/-- A message with another id is refused. -/
theorem checkMsg_of_ne {id id' : MessageId} (h : id'.code ≠ id.code) (data : List UInt8) :
    checkMsg id (recvfrom tmpBufSize (id'.message data).bytes) = none := by
  have hhead : MsgHead.ofBytes ((recvfrom tmpBufSize (id'.message data).bytes).take 8) =
      (id'.message data).head := by
    have := Message.ofBytes_take_bytes (id'.message data) []
    rw [List.append_nil] at this
    rwa [recvfrom, List.take_take]
  have hid : (id'.message data).head.msgid = id'.code := rfl
  simp only [checkMsg, hhead, hid]
  split
  · rfl
  · rw [if_pos (.inr h)]

end Ylars.Api
