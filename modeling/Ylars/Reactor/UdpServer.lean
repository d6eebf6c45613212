import Ylars.Fault
import Ylars.Reactor.Message

/-!
# Messages as datagrams: `udp_server`

A datagram is one message, its head and its bytes.  `do_read` clears its buffer, reads a
datagram into it and hands the message to the router when the head tells the size of the
datagram; `send_msg` refuses a message that does not fit into its buffer, and `sendto` one
that does not fit into a datagram.
-/

namespace Ylars.Reactor

open Ylars.Lib

/-- What `recvfrom` leaves of a datagram in a buffer of `size` bytes: the rest is lost. -/
def recvfrom (size : ℕ) (datagram : List UInt8) : List UInt8 := datagram.take size

theorem recvfrom_of_le {size : ℕ} {datagram : List UInt8} (h : datagram.length ≤ size) :
    recvfrom size datagram = datagram := List.take_of_length_le h

theorem length_recvfrom_of_lt {size : ℕ} {datagram : List UInt8} (h : size < datagram.length) :
    (recvfrom size datagram).length = size := List.length_take_of_le h.le

/-- The most that a datagram carries: an IPv4 packet of 65535 bytes less its head of 20 bytes
and that of the datagram, of 8. -/
def datagramMax : ℕ := 65535 - 20 - 8

/-- What `sendto` sends: a longer datagram fails with `EMSGSIZE`. -/
def sendto (datagram : List UInt8) : Option (List UInt8) :=
  if datagram.length ≤ datagramMax then some datagram else none

theorem Message.length_bytes (m : Message) : m.bytes.length = 8 + m.data.length := by
  rw [bytes, List.length_append, MsgHead.length_bytes]

theorem Message.ofBytes_take_bytes (m : Message) (rest : List UInt8) :
    MsgHead.ofBytes ((m.bytes ++ rest).take 8) = m.head := by
  rw [bytes, List.append_assoc, List.take_left' (MsgHead.length_bytes _), MsgHead.ofBytes_bytes]

theorem Message.take_drop_bytes (m : Message) (rest : List UInt8) :
    ((m.bytes ++ rest).drop 8).take m.data.length = m.data := by
  rw [bytes, List.append_assoc, List.drop_left' (MsgHead.length_bytes _), List.take_left' rfl]

namespace UdpServer

/-- The size of `_read_buf` and of `_write_buf`, `MSG_HEAD_LEN + MSG_MAX_LIMIT`. -/
def bufSize : ℕ := (msgHeadLen + msgMaxLimit).toNat

/-- `_read_buf` after a datagram has been received into it. -/
def readBuf (received : List UInt8) : List UInt8 :=
  received ++ List.replicate (bufSize - received.length) 0

/-- One datagram in `do_read`: the message that the router is called with, if any. -/
def receive (datagram : List UInt8) : Option Message :=
  let received := recvfrom bufSize datagram
  let head := MsgHead.ofBytes ((readBuf received).take 8)
  if msgMaxLimit < head.msglen.toInt ∨ head.msglen.toInt < 0 ∨
      head.msglen.toInt + msgHeadLen ≠ received.length then none
  else some ⟨head.msgid, ((readBuf received).drop 8).take head.msglen.toInt.toNat⟩

/-- `send_msg`: the datagram that is sent, none where it returns -1.  `datalen` is an `int`. -/
def sendMsg (m : Message) : Outcome (Option (List UInt8)) :=
  let datalen := Int32.ofNat m.data.length
  if msgMaxLimit < datalen.toInt then .ok none
  else if datalen.toInt < 0 then .error .outOfBounds
  else .ok (sendto m.bytes)

theorem sendMsg_of_le_limit {m : Message} (h : (m.data.length : Int) ≤ msgMaxLimit) :
    sendMsg m = .ok (sendto m.bytes) := by
  have hlen : (Int32.ofNat m.data.length).toInt = m.data.length :=
    Int32.toInt_ofNat_of_lt (by rw [msgMaxLimit, msgHeadLen] at h; omega)
  simp only [sendMsg, hlen]
  rw [if_neg (by omega), if_neg (by omega)]

theorem sendto_bytes {m : Message} (h : m.data.length + 8 ≤ datagramMax) :
    sendto m.bytes = some m.bytes :=
  if_pos (by rw [m.length_bytes, Nat.add_comm]; exact h)

theorem sendto_bytes_eq_none {m : Message} (h : datagramMax < m.data.length + 8) :
    sendto m.bytes = none :=
  if_neg (by rw [m.length_bytes, Nat.add_comm]; exact h.not_ge)

theorem sendMsg_of_le {m : Message} (h : m.data.length + 8 ≤ datagramMax) :
    sendMsg m = .ok (some m.bytes) := by
  rw [sendMsg_of_le_limit, sendto_bytes h]
  rw [datagramMax] at h
  rw [msgMaxLimit, msgHeadLen]
  omega

/-- Nothing but the datagram of the message is sent. -/
theorem eq_bytes_of_sendMsg {m : Message} {d : List UInt8} (h : sendMsg m = .ok (some d)) :
    d = m.bytes ∧ m.data.length + 8 ≤ datagramMax := by
  unfold sendMsg at h
  simp only at h
  split at h
  · cases h
  · split at h
    · cases h
    · have hsent : sendto m.bytes = some d := Except.ok.inj h
      rw [sendto] at hsent
      split at hsent
      · rename_i hlen
        rw [m.length_bytes, Nat.add_comm] at hlen
        exact ⟨(Option.some.inj hsent).symm, hlen⟩
      · cases hsent

/-- The datagram of a message within the limit is received. -/
theorem receive_bytes {m : Message} (h : (m.data.length : Int) ≤ msgMaxLimit) :
    receive m.bytes = some m := by
  have hsize : bufSize = 65535 := by decide
  rw [msgMaxLimit, msgHeadLen] at h
  have hlen : m.head.msglen.toInt = m.data.length := Message.toInt_msglen (by omega)
  have hrecv : recvfrom bufSize m.bytes = m.bytes :=
    recvfrom_of_le (by rw [m.length_bytes, hsize]; omega)
  rw [receive, hrecv]
  simp only [readBuf, Message.ofBytes_take_bytes, hlen, Int.toNat_natCast,
    Message.take_drop_bytes]
  rw [if_neg]
  · rfl
  · rw [m.length_bytes, msgMaxLimit, msgHeadLen]
    omega

end UdpServer

end Ylars.Reactor
