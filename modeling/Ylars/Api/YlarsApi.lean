import Ylars.Lib.Text
import Ylars.Reactor.UdpServer
import Ylars.Wire

/-!
# The client library: `ylars_api`

A call sends a request to the agent as a datagram and, except for `report`, waits for the
answer.  What `recvfrom` gives is an `Option`, `none` when it or one of the calls before it
fails; a function that has to wait for a datagram that does not come does not return, and its
result is `none`.

An address is a number in host byte order in the messages, and dotted text for the caller.
-/

namespace Ylars.Api

open Ylars.Lib Text
open Ylars.Proto Reactor

/-- `ylars_route_t`. -/
abbrev Route := List (String × UInt32)

/-- The size of `_tmp_buf`. -/
def tmpBufSize : ℕ := 1024

/-- The checks of `get_host` and `get_route` on what `recvfrom` has left in `_tmp_buf`: the
bytes of the message, if its size and its id are right. -/
def checkMsg (id : MessageId) (received : List UInt8) : Option (List UInt8) :=
  if (received.length : Int) < msgHeadLen then none
  else
    let head := MsgHead.ofBytes (received.take 8)
    if (received.length : Int) ≠ head.msglen.toInt + msgHeadLen ∨ head.msgid ≠ id.code then none
    else some ((received.drop 8).take head.msglen.toInt.toNat)

/-! ## All hosts of a module -/

/-- The request of `get_route`. -/
def routeRequest (modid cmdid : UInt32) : List UInt8 :=
  (MessageId.getRouteRequest.message (GetRouteRequest.serialize ⟨modid, cmdid⟩)).bytes

/-- A host as the caller gets it. -/
def routeEntry (host : HostInfo) : String × UInt32 :=
  (inetNtoa (htonl host.ip), host.port.toUInt16.toUInt32)

/-- `get_route`: the vector after it. -/
def getRoute (modid cmdid : UInt32) (io : Option (List UInt8)) (route : Route) : Route :=
  match io with
  | none => route
  | some datagram =>
      match checkMsg .getRouteResponse (recvfrom tmpBufSize datagram) with
      | none => route
      | some msg =>
          -- a message that is not well formed is used all the same
          let res := (GetRouteResponse.parse msg).1
          if res.modid ≠ modid ∨ res.cmdid ≠ cmdid then route
          else route ++ res.host.map routeEntry

/-- The loop of `reg_init`: at most `tries` more calls of `get_route`. -/
def regLoop (modid cmdid : UInt32) :
    (tries : ℕ) → List (Option (List UInt8)) → Route → Option Route
  | 0, _, route => some route
  | tries + 1, ios, route =>
      if route.isEmpty then
        match ios with
        | [] => none
        | io :: ios =>
            let route := getRoute modid cmdid io route
            if route.isEmpty then regLoop modid cmdid tries ios route else some route
      else some route

/-- `reg_init`. -/
def regInit (modid cmdid : UInt32) (ios : List (Option (List UInt8))) : Option LastRetCode :=
  (regLoop modid cmdid 3 ios []).map fun route ↦ if route.isEmpty then .retNoexist else .retSucc

/-! ## One host of a module -/

/-- The request of `get_host`. -/
def hostRequest (seq modid cmdid : UInt32) : List UInt8 :=
  (MessageId.getHostRequest.message (GetHostRequest.serialize ⟨seq, modid, cmdid⟩)).bytes

/-- The end of `get_host`: the result, and with `RET_SUCC` the address and the port. -/
def hostResult (seq modid cmdid : UInt32) (res : HostReply) : Int32 × Option (String × UInt16) :=
  if res.seq ≠ seq ∨ res.modid ≠ modid ∨ res.cmdid ≠ cmdid then
    (LastRetCode.retSystemError.code, none)
  else if res.retcode ≠ LastRetCode.retSucc.code then (res.retcode, none)
  else
    let host := res.host.getD ⟨0, 0⟩
    (LastRetCode.retSucc.code, some (inetNtoa (htonl host.ip), host.port.toUInt16))

/-- `get_host`: replies with a lower number than its own are skipped. -/
def getHost (seq modid cmdid : UInt32) :
    List (Option (List UInt8)) → Option (Int32 × Option (String × UInt16))
  | [] => none
  | none :: _ => some (LastRetCode.retSystemError.code, none)
  | some datagram :: ios =>
      match checkMsg .getHostResponse (recvfrom tmpBufSize datagram) with
      | none => some (LastRetCode.retSystemError.code, none)
      | some msg =>
          let (res, ok) := HostReply.parse msg
          if !ok then some (LastRetCode.retSystemError.code, none)
          else if res.seq < seq then getHost seq modid cmdid ios
          else some (hostResult seq modid cmdid res)

/-! ## The outcome of a call -/

/-- The message of `report`.  An address that `inet_aton` does not accept leaves `req_ip`
as it is. -/
def reportRequest (modid cmdid : UInt32) (ip : String) (port : UInt16) (isSucc : Bool) :
    Outcome ReportRequest :=
  match inetAton ip with
  | none => .error .uninitialised
  | some addr => .ok ⟨modid, cmdid, ⟨htonl addr, port.toUInt32⟩, isSucc⟩

/-- `report`: the datagram that is sent. -/
def report (modid cmdid : UInt32) (ip : String) (port : UInt16) (isSucc : Bool) :
    Outcome (List UInt8) := do
  let req ← reportRequest modid cmdid ip port isSucc
  return (MessageId.reportRequest.message req.serialize).bytes

/-! ## What the checks let through -/

/-- A message that fits into the buffer is let through. -/
theorem checkMsg_bytes {id : MessageId} {data : List UInt8}
    (h : data.length + 8 ≤ tmpBufSize) :
    checkMsg id (recvfrom tmpBufSize (id.message data).bytes) = some data := by
  have hlong : (id.message data).bytes.length = 8 + data.length := Message.length_bytes _
  have hlen : (id.message data).head.msglen.toInt = data.length :=
    Message.toInt_msglen (Nat.lt_of_le_of_lt (Nat.le_of_add_right_le h) (by decide))
  rw [recvfrom_of_le (by omega)]
  have hhead := Message.ofBytes_take_bytes (id.message data) []
  have hdata := Message.take_drop_bytes (id.message data) []
  rw [List.append_nil] at hhead hdata
  have hid : (id.message data).head.msgid = id.code := rfl
  simp only [checkMsg, hhead, hlen, hlong, msgHeadLen, hid, Int.toNat_natCast]
  rw [if_neg (by omega), if_neg (not_or.mpr ⟨by omega, not_not.mpr rfl⟩)]
  exact congrArg some hdata

theorem checkMsg_bytes_of_lt {id : MessageId} {data : List UInt8}
    (h : tmpBufSize < data.length + 8) (hlt : data.length < 2 ^ 31) :
    checkMsg id (recvfrom tmpBufSize (id.message data).bytes) = none := by
  have hlong : (id.message data).bytes.length = 8 + data.length := Message.length_bytes _
  have hlen : (id.message data).head.msglen.toInt = data.length := Message.toInt_msglen hlt
  have hhead : MsgHead.ofBytes ((recvfrom tmpBufSize (id.message data).bytes).take 8) =
      (id.message data).head := by
    have := Message.ofBytes_take_bytes (id.message data) []
    rw [List.append_nil] at this
    rwa [recvfrom, List.take_take]
  have hbuf : (recvfrom tmpBufSize (id.message data).bytes).length = tmpBufSize :=
    length_recvfrom_of_lt (by rw [hlong]; omega)
  have hsize : (tmpBufSize : Int) = 1024 := rfl
  simp only [checkMsg, hhead, hlen, hbuf, msgHeadLen]
  rw [if_neg (by omega), if_pos (.inl (by omega))]

end Ylars.Api
