import Ylars.Reactor.UdpServer

/-!
# The read loop of the datagram ends: `do_read`

The loop clears `_read_buf`, receives a datagram into it and calls the router, until
`recvfrom` fails otherwise than by a signal.  The server and the client have the same loop.
The buffer outlives the loop, so a datagram meets what earlier ones left in it; the router
is called with a datagram exactly when it is a head and as many bytes as the head says
(`receive_eq_some_iff`), and with those bytes.
-/

namespace Ylars.Reactor

open Ylars.Lib

/-- What `recvfrom` gives. -/
inductive Recv where
  | datagram (d : List UInt8)
  /-- `EINTR`. -/
  | interrupted
  /-- `EAGAIN`, or an error that is printed. -/
  | failed
deriving DecidableEq, Repr

/-- `_read_buf`. -/
structure UdpBuf where
  bytes : List UInt8
  size : bytes.length = UdpServer.bufSize

namespace UdpBuf

/-- `bzero`. -/
def zero (buf : UdpBuf) : UdpBuf where
  bytes := List.replicate buf.bytes.length 0
  size := by rw [List.length_replicate, buf.size]

/-- `recvfrom`: the datagram is written to the front of the buffer. -/
def write (buf : UdpBuf) (d : List UInt8) : UdpBuf where
  bytes := recvfrom UdpServer.bufSize d ++
    buf.bytes.drop (recvfrom UdpServer.bufSize d).length
  size := by
    have hlen : (recvfrom UdpServer.bufSize d).length ≤ UdpServer.bufSize := List.length_take_le ..
    rw [List.length_append, List.length_drop, buf.size]
    omega

theorem bytes_write_zero (buf : UdpBuf) (d : List UInt8) :
    (buf.zero.write d).bytes = UdpServer.readBuf (recvfrom UdpServer.bufSize d) := by
  simp only [write, zero, UdpServer.readBuf, buf.size, List.drop_replicate]

end UdpBuf

/-- The loop of `do_read`: the calls of the router, and the buffer afterwards.  When all that
has come is read, `recvfrom` answers `EAGAIN`. -/
def readDatagrams (buf : UdpBuf) : List Recv → List Message × UdpBuf
  | [] => ([], buf.zero)
  | .interrupted :: rs => readDatagrams buf.zero rs
  | .failed :: _ => ([], buf.zero)
  | .datagram d :: rs =>
      let datalen := (recvfrom UdpServer.bufSize d).length
      let buf := buf.zero.write d
      let head := MsgHead.ofBytes (buf.bytes.take 8)
      if msgMaxLimit < head.msglen.toInt ∨ head.msglen.toInt < 0 ∨
          head.msglen.toInt + msgHeadLen ≠ datalen then readDatagrams buf rs
      else
        (⟨head.msgid, (buf.bytes.drop 8).take head.msglen.toInt.toNat⟩ ::
          (readDatagrams buf rs).1, (readDatagrams buf rs).2)

/-- `udp_server::do_read`. -/
def UdpServer.doRead (buf : UdpBuf) (rs : List Recv) : List Message × UdpBuf :=
  readDatagrams buf rs

/-- `udp_client::do_read`. -/
def UdpClient.doRead (buf : UdpBuf) (rs : List Recv) : List Message × UdpBuf :=
  readDatagrams buf rs

/-- `udp_client::send_msg`. -/
def UdpClient.sendMsg (m : Message) : Outcome (Option (List UInt8)) := UdpServer.sendMsg m

/-- The two datagram ends. -/
inductive UdpEnd where
  | server
  | client
deriving DecidableEq, Repr

namespace UdpEnd

/-- `do_read`. -/
def doRead : UdpEnd → UdpBuf → List Recv → List Message × UdpBuf
  | server => UdpServer.doRead
  | client => UdpClient.doRead

/-- `send_msg`. -/
def sendMsg : UdpEnd → Message → Outcome (Option (List UInt8))
  | server => UdpServer.sendMsg
  | client => UdpClient.sendMsg

theorem doRead_eq (e : UdpEnd) : e.doRead = readDatagrams := by cases e <;> rfl

theorem sendMsg_eq (e : UdpEnd) : e.sendMsg = UdpServer.sendMsg := by cases e <;> rfl

end UdpEnd

/-! ## The loop -/

theorem readDatagrams_datagram (buf : UdpBuf) (d : List UInt8) (rs : List Recv) :
    readDatagrams buf (.datagram d :: rs) =
      ((UdpServer.receive d).toList ++ (readDatagrams (buf.zero.write d) rs).1,
        (readDatagrams (buf.zero.write d) rs).2) := by
  rw [readDatagrams, UdpServer.receive, UdpBuf.bytes_write_zero]
  split
  · rfl
  · rfl

/-- What was received before is dealt with, and leaves its bytes in the buffer. -/
theorem readDatagrams_append {rs : List Recv} (h : ∀ r ∈ rs, r ≠ .failed) (buf : UdpBuf)
    (rs' : List Recv) :
    ∃ buf', (readDatagrams buf (rs ++ rs')).1 =
      (readDatagrams buf rs).1 ++ (readDatagrams buf' rs').1 := by
  induction rs generalizing buf with
  | nil => exact ⟨buf, rfl⟩
  | cons r rs ih =>
      have hrs : ∀ r ∈ rs, r ≠ .failed := fun r hr ↦ h r (List.mem_cons_of_mem _ hr)
      cases r with
      | datagram d =>
          obtain ⟨buf', hbuf'⟩ := ih hrs (buf.zero.write d)
          refine ⟨buf', ?_⟩
          rw [List.cons_append, readDatagrams_datagram, readDatagrams_datagram, hbuf',
            List.append_assoc]
      | interrupted => exact ih hrs buf.zero
      | failed => exact absurd rfl (h .failed List.mem_cons_self)

/-! ## The grammar of a datagram -/

/-- `receive` accepts a head and as many bytes as it says, within the limit, and nothing
else. -/
theorem receive_eq_some_iff {d : List UInt8} (hd : d.length ≤ UdpServer.bufSize) {m : Message} :
    UdpServer.receive d = some m ↔
      ∃ msglen : Int32, d = MsgHead.bytes ⟨m.msgid, msglen⟩ ++ m.data ∧ 0 ≤ msglen.toInt ∧
        msglen.toInt ≤ msgMaxLimit ∧ (m.data.length : Int) = msglen.toInt := by
  constructor
  · intro h
    rw [UdpServer.receive, recvfrom_of_le hd] at h
    split at h
    · cases h
    · rename_i hok
      obtain rfl := Option.some.inj h
      simp only [not_or, Int.not_lt, not_not] at hok
      obtain ⟨hlimit, hnonneg, hlen⟩ := hok
      generalize hhead : MsgHead.ofBytes ((UdpServer.readBuf d).take 8) = head at *
      have hlong : 8 ≤ d.length := by
        rw [msgHeadLen] at hlen
        omega
      have htake : (UdpServer.readBuf d).take 8 = d.take 8 := by
        rw [UdpServer.readBuf, List.take_append_of_le_length hlong]
      have hdata : ((UdpServer.readBuf d).drop 8).take head.msglen.toInt.toNat = d.drop 8 := by
        rw [UdpServer.readBuf, List.drop_append_of_le_length hlong, List.take_left']
        rw [List.length_drop]
        rw [msgHeadLen] at hlen
        omega
      refine ⟨head.msglen, ?_, hnonneg, hlimit, ?_⟩
      · have hbytes : head.bytes = d.take 8 := by
          rw [← hhead, htake, MsgHead.bytes_ofBytes (List.length_take_of_le hlong)]
        simp only [hdata]
        rw [hbytes, List.take_append_drop]
      · simp only [hdata, List.length_drop]
        rw [msgHeadLen] at hlen
        omega
  · rintro ⟨msglen, rfl, hnonneg, hlimit, hlen⟩
    have hhead : m.head = ⟨m.msgid, msglen⟩ := by
      have hmsglen : Int32.ofNat m.data.length = msglen := by
        apply Int32.toInt_inj.mp
        rw [Int32.toInt_ofNat_of_lt (by rw [msgMaxLimit, msgHeadLen] at hlimit; omega), hlen]
      rw [Message.head, hmsglen]
    rw [← hhead]
    exact UdpServer.receive_bytes (by rw [hlen]; exact hlimit)

/-- **Datagram framing accepts exactly its grammar.**  Let `do_read` of either end, with any
bytes in its buffer, receive `rs` first, then a datagram `d` that fits into the buffer, then
`rs'`.  For `d` the router is called at most once; with a message exactly when `d` is a head
with the message's id and length, the length within the limit, followed by its bytes.  And
`send_msg` of either end sends such a datagram for every message of at most 65499 bytes, and for
a longer one nothing: `sendto` refuses it. -/
theorem udp_framing (e : UdpEnd) (buf : UdpBuf) (rs rs' : List Recv)
    (h : ∀ r ∈ rs, r ≠ .failed) :
    (∀ d : List UInt8, d.length ≤ UdpServer.bufSize →
      ∃ (called : Option Message) (buf' : UdpBuf),
        (e.doRead buf (rs ++ .datagram d :: rs')).1 =
          (e.doRead buf rs).1 ++ called.toList ++ (e.doRead buf' rs').1 ∧
        ∀ m, called = some m ↔
          ∃ msglen : Int32, d = MsgHead.bytes ⟨m.msgid, msglen⟩ ++ m.data ∧ 0 ≤ msglen.toInt ∧
            msglen.toInt ≤ msgMaxLimit ∧ (m.data.length : Int) = msglen.toInt) ∧
    ∀ (sender : UdpEnd) (m : Message), (m.data.length : Int) ≤ msgMaxLimit →
      if m.data.length ≤ 65499 then
        ∃ d, sender.sendMsg m = .ok (some d) ∧ ∃ buf' : UdpBuf,
          (e.doRead buf (rs ++ .datagram d :: rs')).1 =
            (e.doRead buf rs).1 ++ [m] ++ (e.doRead buf' rs').1
      else sender.sendMsg m = .ok none := by
  have hcalls : ∀ d : List UInt8, ∃ buf' : UdpBuf,
      (readDatagrams buf (rs ++ .datagram d :: rs')).1 =
        (readDatagrams buf rs).1 ++ (UdpServer.receive d).toList ++
          (readDatagrams buf' rs').1 := by
    intro d
    obtain ⟨buf', hbuf'⟩ := readDatagrams_append h buf (.datagram d :: rs')
    exact ⟨buf'.zero.write d, by rw [hbuf', readDatagrams_datagram, List.append_assoc]⟩
  rw [e.doRead_eq]
  refine ⟨fun d hd ↦ ?_, fun sender m hm ↦ ?_⟩
  · obtain ⟨buf', hbuf'⟩ := hcalls d
    exact ⟨UdpServer.receive d, buf', hbuf', fun m ↦ receive_eq_some_iff hd⟩
  · obtain ⟨buf', hbuf'⟩ := hcalls m.bytes
    rw [sender.sendMsg_eq]
    split
    · rename_i hlen
      refine ⟨m.bytes, UdpServer.sendMsg_of_le (Nat.add_le_add_right hlen 8), buf', ?_⟩
      rw [hbuf', UdpServer.receive_bytes hm]
      rfl
    · rename_i hlong
      rw [UdpServer.sendMsg_of_le_limit hm, UdpServer.sendto_bytes_eq_none (by
        rw [datagramMax]
        omega)]

/-- A datagram behind a signal and a datagram that is too short, in a buffer full of ones. -/
theorem udp_framing_dirty :
    ∃ d, UdpEnd.client.sendMsg ⟨1, [42]⟩ = .ok (some d) ∧
      (UdpEnd.server.doRead ⟨List.replicate UdpServer.bufSize 1, List.length_replicate ..⟩
        [.interrupted, .datagram [1, 2, 3], .datagram d]).1 = [⟨1, [42]⟩] := by
  have hshort : UdpServer.receive [1, 2, 3] = none := by
    refine Option.eq_none_iff_forall_ne_some.mpr fun m hm ↦ ?_
    obtain ⟨msglen, hd, -⟩ := (receive_eq_some_iff (by decide)).mp hm
    have hlen := congrArg List.length hd
    rw [List.length_append, MsgHead.length_bytes] at hlen
    simp only [List.length_cons, List.length_nil] at hlen
    omega
  have hearlier : ∀ buf : UdpBuf,
      (UdpEnd.server.doRead buf [.interrupted, .datagram [1, 2, 3]]).1 = [] := by
    intro buf
    change (readDatagrams buf.zero [.datagram [1, 2, 3]]).1 = []
    rw [readDatagrams_datagram, hshort]
    rfl
  obtain ⟨-, hsend⟩ := udp_framing .server
    ⟨List.replicate UdpServer.bufSize 1, List.length_replicate ..⟩
    [.interrupted, .datagram [1, 2, 3]] [] (by decide)
  obtain ⟨d, hd, buf', hcalls⟩ :=
    (if_pos (by decide : [(42 : UInt8)].length ≤ 65499)).mp (hsend .client ⟨1, [42]⟩ (by decide))
  refine ⟨d, hd, hcalls.trans ?_⟩
  rw [hearlier]
  rfl

/-- A message that is within the limit and too long for `sendto`: there is no datagram that
either end accepts. -/
theorem udp_send_refused :
    ((List.replicate 65500 (0 : UInt8)).length : Int) ≤ msgMaxLimit ∧ ∀ sender : UdpEnd,
      ¬∃ d, sender.sendMsg ⟨1, List.replicate 65500 0⟩ = .ok (some d) := by
  have hlength : (List.replicate 65500 (0 : UInt8)).length = 65500 := List.length_replicate ..
  refine ⟨by rw [hlength]; decide, fun sender ⟨d, hd⟩ ↦ ?_⟩
  rw [sender.sendMsg_eq] at hd
  obtain ⟨-, hlen⟩ := UdpServer.eq_bytes_of_sendMsg hd
  simp only [hlength, datagramMax] at hlen
  omega

end Ylars.Reactor
