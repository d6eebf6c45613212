import Ylars.Lib.Rest
import Ylars.Reactor.Duplex
import Ylars.Reactor.SocketCalls

/-!
# A connection drains

An end of a connection writes when `epoll_wait` finds its socket writable and reads when it
finds it readable, and `epoll_wait` looks only for the events that are registered.  `Wired`
says that they are: the read event always, the write event as long as bytes wait, and
before the connection is there only the write event, for `connect_ser`.

So nothing that is sent stays behind.  When no more is sent, the callbacks that `epoll_wait`
finds something for cannot go on for ever, and when there is nothing left for them each end
has been given all messages of the other (`Duplex.drains`).

A message without payload is an exception: `send_msg` leaves its head in the buffer and does
not register the event.

`connect_ser` removes the event of the descriptor that it is given.  Here that is its own, as
it is when no other socket has fired before it.
-/

namespace Ylars.Reactor

open Ylars.Lib ReactorBuf

/-! ## Writing -/

/-- A buffer has a positive length when it has bytes. -/
theorem ReactorBuf.Ready.length_pos {buf : ReactorBuf} (h : buf.Ready) :
    0 < buf.length ↔ buf.content ≠ [] := by
  have hlen := h.wellFormed.length_content
  rw [← List.length_pos_iff]
  omega

/-- A call that takes some bytes, or none yet, does not fail. -/
theorem WriteResult.Transient.works {r : WriteResult} (h : r.Transient) : r.Works := by
  cases r with
  | wrote n => trivial
  | error errno => exact h

/-- `write2fd` that answers 0 leaves the buffer. -/
theorem write2fd_zero {r : WriteResult} {obuf obuf' : OutBuf} {taken : List UInt8}
    (h : OutBuf.write2fd r obuf = .ok (0, taken, obuf')) : obuf' = obuf := by
  cases obuf with
  | none => cases (Prod.mk.inj (Except.ok.inj h)).1
  | some b =>
      obtain ⟨offered, -, h⟩ := Outcome.bind_eq_ok.mp h
      cases r with
      | wrote n =>
          simp only at h
          split at h
          · exact (Prod.mk.inj (Prod.mk.inj (Except.ok.inj h)).2).2.symm
          · rename_i hne
            obtain ⟨b', -, h⟩ := Outcome.bind_eq_ok.mp h
            have hzero := (Prod.mk.inj (Except.ok.inj h)).1
            exact absurd (List.length_eq_zero_iff.mp (Int.natCast_eq_zero.mp hzero)) hne
      | error errno =>
          cases errno with
          | eagain => exact (Prod.mk.inj (Prod.mk.inj (Except.ok.inj h)).2).2.symm
          | _ => cases (Prod.mk.inj (Except.ok.inj h)).1

/-- `do_write` that stops because the socket takes no more has bytes left. -/
theorem length_of_writeLoop_blocked {res : List WriteResult} {obuf obuf' : OutBuf}
    {taken : List UInt8} (h : writeLoop res obuf = .ok (.blocked, taken, obuf')) :
    0 < obuf'.length := by
  induction res generalizing obuf taken with
  | nil =>
      obtain ⟨hfin, h⟩ := Prod.mk.inj (Except.ok.inj h)
      obtain ⟨-, rfl⟩ := Prod.mk.inj h
      by_contra hpos
      rw [if_neg hpos] at hfin
      cases hfin
  | cons r res ih =>
      rw [writeLoop] at h
      by_cases hpos : 0 < obuf.length
      · rw [if_pos hpos] at h
        obtain ⟨⟨ret, taken₁, obuf₁⟩, hw, h⟩ := Outcome.bind_eq_ok.mp h
        by_cases hneg : ret < 0
        · simp only [if_pos hneg] at h
          cases h
        by_cases hzero : ret = 0
        · simp only [if_neg hneg, if_pos hzero] at h
          obtain ⟨-, h⟩ := Prod.mk.inj (Except.ok.inj h)
          obtain ⟨-, rfl⟩ := Prod.mk.inj h
          subst hzero
          rw [write2fd_zero hw]
          exact hpos
        simp only [if_neg hneg, if_neg hzero] at h
        obtain ⟨⟨fin, taken₂, obuf₂⟩, hl, h⟩ := Outcome.bind_eq_ok.mp h
        obtain ⟨rfl, h⟩ := Prod.mk.inj (Except.ok.inj h)
        obtain ⟨-, rfl⟩ := Prod.mk.inj h
        exact ih hl
      · rw [if_neg hpos] at h
        cases h

/-! ## The events of an end -/

/-- An end of a connection has the read event registered, and the write event exactly as long
as bytes wait to be written. -/
structure Wired {κ : Type} (readCb writeCb : κ) (loop : EventLoop κ) (sockfd : Int)
    (obuf : OutBuf) : Prop where
  coherent : loop.Coherent
  reads : loop.registered sockfd .epollin = some readCb
  writes : loop.registered sockfd .epollout = if 0 < obuf.length then some writeCb else none

namespace Wired

variable {κ : Type} {readCb writeCb : κ} {loop loop' : EventLoop κ} {sockfd : Int}
  {obuf obuf' : OutBuf}

/-- `send_msg` registers the write event. -/
theorem send (h : Wired readCb writeCb loop sockfd obuf) (hpos : 0 < obuf'.length) :
    Wired readCb writeCb (loop.addEvent sockfd .writable writeCb) sockfd obuf' := by
  refine ⟨h.coherent.addEvent sockfd .epollout writeCb, ?_, ?_⟩
  · refine (h.coherent.registered_addEvent sockfd .epollout writeCb sockfd .epollin).trans ?_
    rw [if_neg fun e ↦ by cases e.2]
    exact h.reads
  · refine (h.coherent.registered_addEvent sockfd .epollout writeCb sockfd .epollout).trans ?_
    rw [if_pos ⟨rfl, rfl⟩, h.writes, if_pos hpos]
    split <;> rfl

theorem blocked (h : Wired readCb writeCb loop sockfd obuf) (hpos : 0 < obuf.length)
    (hpos' : 0 < obuf'.length) : Wired readCb writeCb loop sockfd obuf' :=
  ⟨h.coherent, h.reads, by rw [h.writes, if_pos hpos, if_pos hpos']⟩

/-- `do_write` removes the write event when everything is written. -/
theorem done (h : Wired readCb writeCb loop sockfd obuf)
    (hdel : loop.delEventMask sockfd .writable = .ok loop') (hzero : ¬0 < obuf'.length) :
    Wired readCb writeCb loop' sockfd obuf' := by
  refine ⟨h.coherent.delEventMask hdel, ?_, ?_⟩
  · refine (h.coherent.registered_delEventMask hdel sockfd .epollin).trans ?_
    rw [if_neg fun e ↦ by cases e.2]
    exact h.reads
  · refine (h.coherent.registered_delEventMask hdel sockfd .epollout).trans ?_
    rw [if_pos ⟨rfl, rfl⟩, if_neg hzero]

theorem writeCallback_of_pos (h : Wired readCb writeCb loop sockfd obuf) (hpos : 0 < obuf.length) :
    loop.writeCallback sockfd = some writeCb :=
  h.writes.trans (if_pos hpos)

/-- Bytes wait while a write callback is registered, and it is the one of the class. -/
theorem pos_of_writeCallback {cb : κ} (h : Wired readCb writeCb loop sockfd obuf)
    (hcb : loop.writeCallback sockfd = some cb) : 0 < obuf.length ∧ cb = writeCb := by
  have hw := h.writes.symm.trans hcb
  split at hw
  · rename_i hpos
    exact ⟨hpos, (Option.some.inj hw).symm⟩
  · cases hw

end Wired

namespace TcpConn

variable {c c' : TcpConn} {ret : Int}

/-- A connection that is wired. -/
abbrev Wired (c : TcpConn) : Prop :=
  Reactor.Wired .tcpSerReadCb .writeCb c.loop c.sockfd c.obuf

/-- A new connection listens. -/
theorem wired_new {loop : EventLoop ConnCallback} {fd : Int} (hc : loop.Coherent)
    (hfd : loop.ioEvns[fd]? = none) : (new loop fd).Wired where
  coherent := hc.addEvent fd .epollin .tcpSerReadCb
  reads := by
    refine (hc.registered_addEvent fd .epollin .tcpSerReadCb fd .epollin).trans ?_
    rw [if_pos ⟨rfl, rfl⟩, EventLoop.registered_of_none hfd]
    rfl
  writes := by
    refine (hc.registered_addEvent fd .epollin .tcpSerReadCb fd .epollout).trans ?_
    rw [if_neg (fun e ↦ by cases e.2), EventLoop.registered_of_none hfd]
    rfl

theorem Wired.sendMsg {p₁ p₂ : AmplePool} {m : Message} (h : c.Wired) (hr : c.obuf.Ready)
    (hm : m.data ≠ []) (hst : c.sendMsg p₁.1 p₂.1 m = .ok (ret, c')) : c'.Wired := by
  obtain ⟨buf, happ, hready, hcont⟩ := appendMsg_ample hr p₁.2 p₂.2 hm
  obtain ⟨obuf, happ', hcases⟩ := sendMsg_cases hst
  obtain ⟨rfl, rfl⟩ := Prod.mk.inj (Except.ok.inj (happ.symm.trans happ'))
  rcases hcases with ⟨hneg, -⟩ | ⟨-, rfl⟩
  · exact absurd hneg (lt_irrefl 0)
  · refine h.send (hready.length_pos.mpr ?_)
    rw [hcont]
    exact List.append_ne_nil_of_right_ne_nil _ (List.append_ne_nil_of_right_ne_nil _ hm)

theorem Wired.doWrite {res : List WriteResult} {taken : List UInt8} (h : c.Wired)
    (hst : c.doWrite res = .ok (taken, c')) (ho : c'.Open) : c'.Wired := by
  obtain ⟨fin, obuf, hw, ⟨rfl, rfl⟩ | ⟨-, rfl⟩ | ⟨rfl, loop, hdel, rfl⟩⟩ := doWrite_cases hst
  · exact h.blocked (length_of_writeLoop hw WriteEnd.noConfusion) (length_of_writeLoop_blocked hw)
  · exact absurd ho (not_open_clean _)
  · exact h.done hdel (length_of_writeLoop_done hw)

theorem Wired.doRead {alloc : Alloc} {fd : Socket} {ms : List Message} (h : c.Wired)
    (hst : c.doRead alloc fd = .ok (ms, c')) (ho : c'.Open) : c'.Wired := by
  obtain ⟨fin, ibuf, -, ⟨-, rfl⟩ | ⟨-, rfl⟩⟩ := doRead_cases hst
  · exact h
  · exact absurd ho (not_open_clean _)

theorem doWrite_transient {res : List WriteResult} {taken : List UInt8} (hr : c.obuf.Ready)
    (ht : ∀ r ∈ res, r.Transient) (hst : c.doWrite res = .ok (taken, c')) :
    taken = c.obuf.content.take (transferred res) ∧
      c'.obuf.content = c.obuf.content.drop (transferred res) := by
  obtain ⟨fin, obuf, hw, hcases⟩ := doWrite_cases hst
  obtain ⟨fin', obuf', hw', hfin, -, hc⟩ := writeLoop_transient ht hr
  obtain ⟨rfl, he⟩ := Prod.mk.inj (Except.ok.inj (hw'.symm.trans hw))
  obtain ⟨rfl, rfl⟩ := Prod.mk.inj he
  rcases hcases with ⟨-, rfl⟩ | ⟨he, -⟩ | ⟨-, loop, -, rfl⟩
  · exact ⟨rfl, hc⟩
  · exact absurd he hfin
  · exact ⟨rfl, hc⟩

end TcpConn

namespace TcpClient

variable {c c' : TcpClient} {ret : Int}

/-- A client that waits for its connection listens for nothing else. -/
structure Connecting (c : TcpClient) : Prop where
  coherent : c.loop.Coherent
  silent : c.loop.registered c.sockfd .epollin = none
  waits : c.loop.registered c.sockfd .epollout = some .connectSer

/-- A client that waits for its connection, or has it and is wired. -/
def Wired (c : TcpClient) : Prop :=
  c.Connecting ∨ Reactor.Wired .tcpCliReadCb .writeCb c.loop c.sockfd c.obuf

/-- A new client waits for its connection. -/
theorem connecting_new {loop : EventLoop ClientCallback} {sockfd : Int} (hc : loop.Coherent)
    (hfd : loop.ioEvns[sockfd]? = none) : (new loop sockfd).Connecting where
  coherent := hc.addEvent sockfd .epollout .connectSer
  silent := by
    refine (hc.registered_addEvent sockfd .epollout .connectSer sockfd .epollin).trans ?_
    rw [if_neg (fun e ↦ by cases e.2), EventLoop.registered_of_none hfd]
  waits := by
    refine (hc.registered_addEvent sockfd .epollout .connectSer sockfd .epollout).trans ?_
    rw [if_pos ⟨rfl, rfl⟩, EventLoop.registered_of_none hfd]
    rfl

/-- `send_msg` of a message with a payload; before the connection is there, the write event
keeps its callback. -/
theorem Wired.sendMsg {p₁ p₂ : AmplePool} {m : Message} (h : c.Wired) (hr : c.obuf.Ready)
    (hm : m.data ≠ []) (hst : c.sendMsg p₁.1 p₂.1 m = .ok (ret, c')) : c'.Wired := by
  obtain ⟨buf, happ, hready, hcont⟩ := appendMsg_ample hr p₁.2 p₂.2 hm
  obtain ⟨obuf, happ', hcases⟩ := sendMsg_cases hst
  obtain ⟨rfl, rfl⟩ := Prod.mk.inj (Except.ok.inj (happ.symm.trans happ'))
  rcases hcases with ⟨hneg, -⟩ | ⟨-, rfl⟩
  · exact absurd hneg (lt_irrefl 0)
  rcases h with ⟨hc, hsilent, hwaits⟩ | hwired
  · refine .inl ⟨hc.addEvent c.sockfd .epollout .writeCb, ?_, ?_⟩
    · refine (hc.registered_addEvent c.sockfd .epollout .writeCb c.sockfd .epollin).trans ?_
      rw [if_neg fun e ↦ by cases e.2]
      exact hsilent
    · refine (hc.registered_addEvent c.sockfd .epollout .writeCb c.sockfd .epollout).trans ?_
      rw [if_pos ⟨rfl, rfl⟩, hwaits]
      rfl
  · refine .inr (hwired.send (hready.length_pos.mpr ?_))
    rw [hcont]
    exact List.append_ne_nil_of_right_ne_nil _ (List.append_ne_nil_of_right_ne_nil _ hm)

/-- `connect_ser` finds the connection there. -/
theorem Connecting.connectSer (h : c.Connecting) (hst : c.connectSer 0 = .ok c') :
    Reactor.Wired .tcpCliReadCb .writeCb c'.loop c'.sockfd c'.obuf := by
  obtain ⟨loop, hdel, hst⟩ := Outcome.bind_eq_ok.mp hst
  rw [if_pos rfl] at hst
  obtain rfl := Except.ok.inj hst
  have hcl := h.coherent.delEventMask hdel
  have hnone : ∀ ev, loop.registered c.sockfd ev = none := by
    intro ev
    refine (h.coherent.registered_delEventMask hdel c.sockfd ev).trans ?_
    cases ev with
    | epollin => exact (if_neg fun e ↦ by cases e.2).trans h.silent
    | epollout => exact if_pos ⟨rfl, rfl⟩
  have hempty : Reactor.Wired .tcpCliReadCb .writeCb
      (loop.addEvent c.sockfd .readable .tcpCliReadCb) c.sockfd none := by
    refine ⟨hcl.addEvent c.sockfd .epollin .tcpCliReadCb, ?_, ?_⟩
    · refine (hcl.registered_addEvent c.sockfd .epollin .tcpCliReadCb c.sockfd .epollin).trans ?_
      rw [if_pos ⟨rfl, rfl⟩, hnone]
      rfl
    · refine (hcl.registered_addEvent c.sockfd .epollin .tcpCliReadCb c.sockfd .epollout).trans ?_
      rw [if_neg (fun e ↦ by cases e.2), hnone]
      rfl
  -- what has been sent in the meantime waits for the write event
  by_cases hpos : 0 < c.obuf.length
  · simp only [if_pos hpos]
    exact hempty.send hpos
  · simp only [if_neg hpos]
    refine ⟨hempty.coherent, hempty.reads, hempty.writes.trans ?_⟩
    rw [if_neg hpos]
    rfl

/-- The write callback of a client that is wired: `connect_ser` until the connection is there,
and `do_write` after that as long as bytes wait. -/
theorem Wired.callback_cases (h : c.Wired) :
    c.Connecting ∧ c.loop.writeCallback c.sockfd = some .connectSer ∨
      Reactor.Wired .tcpCliReadCb .writeCb c.loop c.sockfd c.obuf ∧
        (c.loop.writeCallback c.sockfd = none ∨
          c.loop.writeCallback c.sockfd = some .writeCb ∧ 0 < c.obuf.length) := by
  rcases h with hconnecting | hwired
  · exact .inl ⟨hconnecting, hconnecting.waits⟩
  · refine .inr ⟨hwired, ?_⟩
    by_cases hpos : 0 < c.obuf.length
    · exact .inr ⟨hwired.writeCallback_of_pos hpos, hpos⟩
    · exact .inl (hwired.writes.trans (if_neg hpos))

theorem Wired.doWrite {res : List WriteResult} {taken : List UInt8}
    (h : Reactor.Wired .tcpCliReadCb .writeCb c.loop c.sockfd c.obuf)
    (hst : c.doWrite res = .ok (taken, c')) (ho : c'.Open) :
    Reactor.Wired .tcpCliReadCb .writeCb c'.loop c'.sockfd c'.obuf := by
  obtain ⟨fin, obuf, hw, ⟨rfl, rfl⟩ | ⟨-, rfl⟩ | ⟨rfl, loop, hdel, rfl⟩⟩ := doWrite_cases hst
  · exact h.blocked (length_of_writeLoop hw WriteEnd.noConfusion) (length_of_writeLoop_blocked hw)
  · exact absurd ho (not_open_clean _)
  · exact h.done hdel (length_of_writeLoop_done hw)

theorem Wired.doRead {nlMsgmax : Int} {alloc : Alloc} {fd : Socket} {ms : List Message}
    (h : c.Wired) (hst : c.doRead nlMsgmax alloc fd = .ok (ms, c')) (ho : c'.Open) : c'.Wired := by
  obtain ⟨fin, ibuf, -, ⟨-, rfl⟩ | ⟨-, rfl⟩⟩ := doRead_cases hst
  · exact h.imp (fun h ↦ ⟨h.coherent, h.silent, h.waits⟩) id
  · exact absurd ho (not_open_clean _)

theorem doWrite_transient {res : List WriteResult} {taken : List UInt8} (hr : c.obuf.Ready)
    (ht : ∀ r ∈ res, r.Transient) (hst : c.doWrite res = .ok (taken, c')) :
    taken = c.obuf.content.take (transferred res) ∧
      c'.obuf.content = c.obuf.content.drop (transferred res) := by
  obtain ⟨fin, obuf, hw, hcases⟩ := doWrite_cases hst
  obtain ⟨fin', obuf', hw', hfin, -, hc⟩ := writeLoop_transient ht hr
  obtain ⟨rfl, he⟩ := Prod.mk.inj (Except.ok.inj (hw'.symm.trans hw))
  obtain ⟨rfl, rfl⟩ := Prod.mk.inj he
  rcases hcases with ⟨-, rfl⟩ | ⟨he, -⟩ | ⟨-, loop, -, rfl⟩
  · exact ⟨rfl, hc⟩
  · exact absurd he hfin
  · exact ⟨rfl, hc⟩

/-- What a client has still to write, each byte counted twice, and whether it still waits for
its connection. -/
def rank (c : TcpClient) : ℕ :=
  2 * c.obuf.content.length +
    if c.loop.writeCallback c.sockfd = some .connectSer then 1 else 0

/-- When the connection is there it waits no more. -/
theorem Connecting.rank_lt (h : c.Connecting) (hst : c.connectSer 0 = .ok c') (ho : c'.Open) :
    c'.rank < c.rank := by
  have hwaits : c.loop.writeCallback c.sockfd = some .connectSer := h.waits
  have hnot : c'.loop.writeCallback c'.sockfd ≠ some .connectSer := fun hcb ↦ by
    cases ((h.connectSer hst).pos_of_writeCallback hcb).2
  simp only [rank, (connectSer_keeps hst ho).1, if_pos hwaits, if_neg hnot]
  omega

/-- `do_write` lowers the rank when no call fails and the socket takes some bytes. -/
theorem Wired.rank_lt {res : List WriteResult} {taken : List UInt8}
    (h : Reactor.Wired .tcpCliReadCb .writeCb c.loop c.sockfd c.obuf) (hr : c.obuf.Ready)
    (hlen : 0 < c.obuf.length) (ht : ∀ r ∈ res, r.Transient) (hpos : 0 < transferred res)
    (hst : c.doWrite res = .ok (taken, c')) (ho : c'.Open) :
    c'.rank + taken.length < c.rank := by
  obtain ⟨rfl, hc⟩ := doWrite_transient hr ht hst
  have hne := List.length_pos_iff.mpr (hr.length_pos.mp hlen)
  have hnot : c'.loop.writeCallback c'.sockfd ≠ some .connectSer := fun hcb ↦ by
    cases ((Wired.doWrite h hst ho).pos_of_writeCallback hcb).2
  simp only [rank, hc, if_neg hnot, List.length_take, List.length_drop]
  omega

end TcpClient

/-! ## The connection -/

/-- A message that is sent has a payload. -/
def DuplexOp.Payload : DuplexOp → Prop
  | .request _ _ m => m.data ≠ []
  | .respond _ _ m => m.data ≠ []
  | _ => True

namespace Duplex

/-- A new connection on descriptors that have no events registered yet. -/
def Fresh (s : Duplex) : Prop :=
  ∃ loop sockfd connLoop connfd, 0 ≤ sockfd ∧ 0 < connfd ∧ loop.Coherent ∧ connLoop.Coherent ∧
    loop.ioEvns[sockfd]? = none ∧ connLoop.ioEvns[connfd]? = none ∧
    s = .new loop sockfd connLoop connfd

/-- Whether a step is a callback that `epoll_wait` has found something for: the connection is
there, the socket takes some bytes, or some have arrived. -/
def Moves (s : Duplex) : DuplexOp → Prop
  | .clientWrites soError res =>
      s.client.loop.writeCallback s.client.sockfd ≠ none ∧ soError = 0 ∧
        (∀ r ∈ res, r.Transient) ∧ 0 < transferred res
  | .connWrites res =>
      s.conn.loop.writeCallback s.conn.sockfd ≠ none ∧
        (∀ r ∈ res, r.Transient) ∧ 0 < transferred res
  | .connReads _ => True
  | .clientReads _ => True
  | _ => False

/-- Both ends are wired. -/
structure Wired (s : Duplex) : Prop where
  client : s.client.Wired
  conn : s.conn.Wired

/-- Nothing waits and nothing is on the wire. -/
structure Drained (s : Duplex) : Prop where
  client : s.client.obuf.content = []
  up : s.up.wire = []
  conn : s.conn.obuf.content = []
  down : s.down.wire = []

/-- The bytes that are on their way, those that wait counted twice, and whether the client
still waits for its connection. -/
def rank (s : Duplex) : ℕ :=
  2 * (s.client.obuf.content.length + s.conn.obuf.content.length) +
    (s.up.wire.length + s.down.wire.length) +
    if s.client.loop.writeCallback s.client.sockfd = some .connectSer then 1 else 0

end Duplex

/-- The runs of a new connection in which no call fails, no end is closed, and every message
has a payload and is within the limit of its reader. -/
def attended (nlMsgmax : Int) : LTS Duplex DuplexOp where
  init := Duplex.Fresh
  step s op t := (op.Smooth nlMsgmax ∧ op.Payload) ∧ (duplex nlMsgmax).step s op t

/-- The runs in which no more is sent, and `epoll_wait` runs the callbacks. -/
def draining (nlMsgmax : Int) : LTS Duplex DuplexOp :=
  (duplex nlMsgmax).restrict Duplex.Moves

namespace Duplex

variable {nlMsgmax : Int} {s t : Duplex} {op : DuplexOp}

/-- A callback that `epoll_wait` has found something for is smooth. -/
theorem Moves.smooth (h : s.Moves op) : op.Smooth nlMsgmax := by
  cases op with
  | clientWrites soError res => exact ⟨h.2.1, fun r hr ↦ (h.2.2.1 r hr).works⟩
  | connWrites res => exact fun r hr ↦ (h.2.1 r hr).works
  | connReads | clientReads => exact trivial
  | request | respond | clientHangs | connHangs => exact absurd h id

theorem Moves.sends (h : s.Moves op) : op.Payload ∧ op.sends = false := by
  cases op with
  | clientWrites | connWrites | connReads | clientReads => exact ⟨trivial, rfl⟩
  | request | respond | clientHangs | connHangs => exact absurd h id

/-- The write event of the client runs `connect_ser` until the connection is there, and
`do_write` after that as long as bytes wait. -/
theorem clientWrites_cases {soError : Int} {res : List WriteResult} (h : s.client.Wired)
    (hst : s.step nlMsgmax (.clientWrites soError res) = .ok t) :
    (s.client.Connecting ∧
        ∃ c, s.client.connectSer soError = .ok c ∧ t = { s with client := c }) ∨
      (Reactor.Wired .tcpCliReadCb .writeCb s.client.loop s.client.sockfd s.client.obuf ∧
        (t = s ∧ s.client.loop.writeCallback s.client.sockfd = none ∨
          0 < s.client.obuf.length ∧ ∃ taken c, s.client.doWrite res = .ok (taken, c) ∧
            t = { s with client := c, up := s.up.write taken })) := by
  rcases h.callback_cases with ⟨hconnecting, hcb⟩ | ⟨hwired, hcb | ⟨hcb, hpos⟩⟩
  · simp only [Duplex.step, hcb, Outcome.bind_eq_ok] at hst
    obtain ⟨c, hc, ht⟩ := hst
    exact .inl ⟨hconnecting, c, hc, (Except.ok.inj ht).symm⟩
  · simp only [Duplex.step, hcb] at hst
    exact .inr ⟨hwired, .inl ⟨(Except.ok.inj hst).symm, hcb⟩⟩
  · simp only [Duplex.step, hcb, Outcome.bind_eq_ok] at hst
    obtain ⟨⟨taken, c⟩, hc, ht⟩ := hst
    exact .inr ⟨hwired, .inr ⟨hpos, taken, c, hc, (Except.ok.inj ht).symm⟩⟩

/-- A smooth step keeps both ends wired. -/
theorem Wired.step (h : s.Wired) (hlive : s.Live nlMsgmax) (hop : op.Smooth nlMsgmax)
    (hp : op.Payload) (hst : s.step nlMsgmax op = .ok t) (ho : t.Open) : t.Wired := by
  obtain ⟨hclient, hconn⟩ := h
  cases op with
  | request p₁ p₂ m =>
      simp only [Duplex.step, Outcome.bind_eq_ok] at hst
      obtain ⟨⟨ret, c'⟩, hs, ht⟩ := hst
      obtain rfl := Except.ok.inj ht
      exact ⟨hclient.sendMsg hlive.up.out hp hs, hconn⟩
  | respond p₁ p₂ m =>
      simp only [Duplex.step, Outcome.bind_eq_ok] at hst
      obtain ⟨⟨ret, c'⟩, hs, ht⟩ := hst
      obtain rfl := Except.ok.inj ht
      exact ⟨hclient, TcpConn.Wired.sendMsg hconn hlive.down.out hp hs⟩
  | clientWrites soError res =>
      obtain ⟨rfl, -⟩ := hop
      rcases clientWrites_cases hclient hst with
        ⟨hconnecting, c', hc, rfl⟩ | ⟨hwired, ⟨rfl, -⟩ | ⟨-, taken, c', hw, rfl⟩⟩
      · exact ⟨.inr (hconnecting.connectSer hc), hconn⟩
      · exact ⟨hclient, hconn⟩
      · exact ⟨.inr (TcpClient.Wired.doWrite hwired hw ho.1), hconn⟩
  | connWrites res =>
      simp only [Duplex.step] at hst
      split at hst
      · obtain ⟨⟨taken, c'⟩, hw, ht⟩ := Outcome.bind_eq_ok.mp hst
        obtain rfl := Except.ok.inj ht
        exact ⟨hclient, TcpConn.Wired.doWrite hconn hw ho.2⟩
      · obtain rfl := Except.ok.inj hst
        exact ⟨hclient, hconn⟩
  | connReads chunk =>
      simp only [Duplex.step, Outcome.bind_eq_ok] at hst
      obtain ⟨⟨ms, c'⟩, hd, ht⟩ := hst
      obtain rfl := Except.ok.inj ht
      exact ⟨hclient, TcpConn.Wired.doRead hconn hd ho.2⟩
  | clientReads chunk =>
      simp only [Duplex.step, Outcome.bind_eq_ok] at hst
      obtain ⟨⟨ms, c'⟩, hd, ht⟩ := hst
      obtain rfl := Except.ok.inj ht
      exact ⟨TcpClient.Wired.doRead hclient hd ho.1, hconn⟩
  | clientHangs | connHangs => exact absurd hop id

/-- In a run of these steps the streams flow and both ends are wired. -/
theorem wired_of_reachable (h : (attended nlMsgmax).Reachable s) :
    s.Flows nlMsgmax ∧ s.Wired := by
  refine h.induction (I := fun s ↦ s.Flows nlMsgmax ∧ s.Wired) ?_ ?_
  · rintro s ⟨loop, sockfd, connLoop, connfd, hsock, hpos, hcl, hcc, hfd, hcfd, rfl⟩
    exact ⟨flows_of_reachable (.init ⟨loop, sockfd, connLoop, connfd, hsock, hpos, rfl⟩),
      .inl (TcpClient.connecting_new hcl hfd), TcpConn.wired_new hcc hcfd⟩
  · rintro s op t - ⟨hf, hw⟩ ⟨⟨hop, hp⟩, he, hst⟩
    have hf' := hf.step he hop hst
    exact ⟨hf', hw.step hf.live hop hp hst hf'.opened⟩

/-! ## Draining -/

theorem rank_eq (s : Duplex) : s.rank = s.client.rank + 2 * s.conn.obuf.content.length +
    s.up.wire.length + s.down.wire.length := by
  rw [rank, TcpClient.rank]
  omega

/-- Each callback lowers the rank. -/
theorem rank_lt (hf : s.Flows nlMsgmax) (hw : s.Wired) (ht : t.Wired) (he : s.Enabled op)
    (hm : s.Moves op) (hst : s.step nlMsgmax op = .ok t) (ho : t.Open) : t.rank < s.rank := by
  cases op with
  | request | respond | clientHangs | connHangs => exact absurd hm id
  | clientWrites soError res =>
      obtain ⟨hcb, rfl, htr, hpos⟩ := hm
      rcases clientWrites_cases hw.client hst with
        ⟨hconnecting, c', hc, rfl⟩ | ⟨hwired, ⟨-, hnone⟩ | ⟨hlen, taken, c', hd, rfl⟩⟩
      · have hlt := hconnecting.rank_lt hc ho.1
        rw [rank_eq, rank_eq]
        exact Nat.add_lt_add_right (Nat.add_lt_add_right (Nat.add_lt_add_right hlt _) _) _
      · exact absurd hnone hcb
      · have hlt := TcpClient.Wired.rank_lt hwired hf.live.up.out hlen htr hpos hd ho.1
        simp only [rank_eq, Pipe.write, List.length_append]
        omega
  | connWrites res =>
      obtain ⟨hcb, htr, hpos⟩ := hm
      obtain ⟨cb, hcb⟩ := Option.ne_none_iff_exists'.mp hcb
      obtain ⟨hlen, rfl⟩ := hw.conn.pos_of_writeCallback hcb
      simp only [Duplex.step, hcb, Outcome.bind_eq_ok] at hst
      obtain ⟨⟨taken, c'⟩, hd, he⟩ := hst
      obtain rfl := Except.ok.inj he
      obtain ⟨rfl, hc⟩ := TcpConn.doWrite_transient hf.live.down.out htr hd
      have hne := List.length_pos_iff.mpr (hf.live.down.out.length_pos.mp hlen)
      simp only [rank, hc, Pipe.write, List.length_append, List.length_take, List.length_drop]
      omega
  | connReads chunk =>
      have hchunk := List.length_pos_iff.mpr chunk.ne_nil
      have hle := he.2.2.length_le
      simp only [Duplex.step, Outcome.bind_eq_ok] at hst
      obtain ⟨⟨ms, c'⟩, hd, he⟩ := hst
      obtain rfl := Except.ok.inj he
      simp only [rank, TcpConn.doRead_keeps hd ho.2, Pipe.deliver, List.length_drop]
      omega
  | clientReads chunk =>
      have hchunk := List.length_pos_iff.mpr chunk.ne_nil
      have hle := he.2.2.length_le
      simp only [Duplex.step, Outcome.bind_eq_ok] at hst
      obtain ⟨⟨ms, c'⟩, hd, he⟩ := hst
      obtain rfl := Except.ok.inj he
      obtain ⟨fin, ibuf, -, ⟨-, rfl⟩ | ⟨-, rfl⟩⟩ := TcpClient.doRead_cases hd
      · simp only [rank, Pipe.deliver, List.length_drop]
        omega
      · exact absurd ho.1 (TcpClient.not_open_clean _)

/-- When `epoll_wait` finds nothing, nothing is on its way. -/
theorem drained_of_atRest (hf : s.Flows nlMsgmax) (hw : s.Wired)
    (hrest : (draining nlMsgmax).AtRest s) : s.Drained := by
  have hno : ∀ op, s.Enabled op → ¬s.Moves op := by
    intro op he hm
    obtain ⟨t, hst, -⟩ := hf.live.step he
    exact hrest op t ⟨hm, he, hst⟩
  have hbyte : (∀ r ∈ [WriteResult.wrote 1], r.Transient) ∧ 0 < transferred [.wrote 1] := by
    decide
  have hclient : s.client.loop.writeCallback s.client.sockfd = none := by
    by_contra hcb
    exact hno (.clientWrites 0 [.wrote 1]) ⟨hf.opened, trivial⟩ ⟨hcb, rfl, hbyte⟩
  have hconn : s.conn.loop.writeCallback s.conn.sockfd = none := by
    by_contra hcb
    exact hno (.connWrites [.wrote 1]) ⟨hf.opened, trivial⟩ ⟨hcb, hbyte⟩
  rcases hw.client with hconnecting | hwired
  · cases hclient.symm.trans hconnecting.waits
  refine ⟨?_, ?_, ?_, ?_⟩
  · by_contra hne
    have hpos := hf.live.up.out.length_pos.mpr hne
    cases hclient.symm.trans (hwired.writeCallback_of_pos hpos)
  · by_contra hne
    exact hno (.connReads ⟨exactPool, s.up.wire, hne⟩)
      ⟨hf.opened, hw.conn.reads, List.prefix_rfl⟩ trivial
  · by_contra hne
    have hpos := hf.live.down.out.length_pos.mpr hne
    cases hconn.symm.trans (hw.conn.writeCallback_of_pos hpos)
  · by_contra hne
    exact hno (.clientReads ⟨exactPool, s.down.wire, hne⟩)
      ⟨hf.opened, hwired.reads, List.prefix_rfl⟩ trivial

theorem drains_step (hf : s.Flows nlMsgmax) (hw : s.Wired) (hst : (draining nlMsgmax).step s op t) :
    (t.Flows nlMsgmax ∧ t.Wired) ∧ t.rank < s.rank ∧ t.up.sent = s.up.sent ∧
      t.down.sent = s.down.sent := by
  obtain ⟨hm, he, hst⟩ := hst
  have hsmooth : op.Smooth nlMsgmax := hm.smooth
  obtain ⟨hp, hsends⟩ := hm.sends
  have hf' := hf.step he hsmooth hst
  have hw' := hw.step hf.live hsmooth hp hst hf'.opened
  obtain ⟨t', hst', hpass⟩ := hf.live.passes he hsends
  obtain rfl := Except.ok.inj (hst'.symm.trans hst)
  obtain ⟨-, ⟨us, hus⟩, ds, hds⟩ := hpass hf'.opened
  exact ⟨⟨hf', hw'⟩, rank_lt hf hw hw' he hm hst hf'.opened,
    hf.live.up.carries.sent_of_takes hf'.live.up.carries hus,
    hf.live.down.carries.sent_of_takes hf'.live.down.carries hds⟩

/-- Along the callbacks nothing is sent. -/
theorem along_drains {ops : List DuplexOp} (hr : (draining nlMsgmax).Run s ops t)
    (hf : s.Flows nlMsgmax) (hw : s.Wired) :
    (t.Flows nlMsgmax ∧ t.Wired) ∧ t.up.sent = s.up.sent ∧ t.down.sent = s.down.sent := by
  induction hr with
  | nil s => exact ⟨⟨hf, hw⟩, rfl, rfl⟩
  | cons hst _ ih =>
      obtain ⟨⟨hf', hw'⟩, -, hup, hdown⟩ := drains_step hf hw hst
      obtain ⟨hend, hup', hdown'⟩ := ih hf' hw'
      exact ⟨hend, hup'.trans hup, hdown'.trans hdown⟩

/-- **A connection drains.**  Let no call fail, no end close, and every message have a payload
and be within the limit of its reader.  When no more is sent, then in no order do the
callbacks that `epoll_wait` finds something for go on for ever, some order brings them to
rest, and wherever they come to rest each end has been given all messages of the other. -/
theorem drains (h : (attended nlMsgmax).Reachable s) :
    (¬∃ u : ℕ → Duplex, u 0 = s ∧ ∀ n, (draining nlMsgmax).Next (u (n + 1)) (u n)) ∧
      (∃ ops t, (draining nlMsgmax).Run s ops t ∧ (draining nlMsgmax).AtRest t) ∧
      ∀ ops t, (draining nlMsgmax).Run s ops t → (draining nlMsgmax).AtRest t →
        t.Open ∧ t.up.received = s.up.sent ∧ t.down.received = s.down.sent := by
  obtain ⟨hf, hw⟩ := wired_of_reachable h
  have hacc : Acc (draining nlMsgmax).Next s := by
    refine LTS.acc_of_rank (r := (· < ·)) wellFounded_lt rank
      (I := fun s ↦ s.Flows nlMsgmax ∧ s.Wired) (fun s op t hi hst ↦ ?_) ⟨hf, hw⟩
    obtain ⟨hi', hlt, -⟩ := drains_step hi.1 hi.2 hst
    exact ⟨hi', hlt⟩
  refine ⟨LTS.not_forever hacc, LTS.exists_atRest hacc, fun ops t hr hrest ↦ ?_⟩
  obtain ⟨⟨hft, hwt⟩, hup, hdown⟩ := along_drains hr hf hw
  obtain ⟨hclient, hupwire, hconn, hdownwire⟩ := drained_of_atRest hft hwt hrest
  have hcup := hft.live.up.carries
  have hcdown := hft.live.down.carries
  rw [hclient] at hcup
  rw [hconn] at hcdown
  exact ⟨hft.opened, (hcup.eq_of_drained hupwire).trans hup,
    (hcdown.eq_of_drained hdownwire).trans hdown⟩

theorem fresh_new : (new .new 3 .new 5).Fresh :=
  ⟨.new, 3, .new, 5, by decide, by decide, EventLoop.coherent_new, EventLoop.coherent_new,
    Std.ExtTreeMap.getElem?_empty, Std.ExtTreeMap.getElem?_empty, rfl⟩

/-- A message is sent before the connection is there. -/
def hurried : Duplex := (new .new 3 .new 5).next 121 (.request exactPool exactPool ⟨1, [8, 1]⟩)

theorem drains_hurried :
    (¬∃ u : ℕ → Duplex, u 0 = hurried ∧ ∀ n, (draining 121).Next (u (n + 1)) (u n)) ∧
      (∃ ops t, (draining 121).Run hurried ops t ∧ (draining 121).AtRest t) ∧
      ∀ ops t, (draining 121).Run hurried ops t → (draining 121).AtRest t →
        t.Open ∧ t.up.received = [⟨1, [8, 1]⟩] ∧ t.down.received = [] := by
  have hnew : (attended 121).Reachable (new .new 3 .new 5) := .init fresh_new
  refine drains (hnew.step (a := .request exactPool exactPool ⟨1, [8, 1]⟩) ⟨⟨?_, ?_⟩, ?_, ?_⟩)
  · show ((2 : ℕ) : Int) ≤ msgMaxLimit
    decide
  · exact List.cons_ne_nil _ _
  · exact ⟨by decide, by decide⟩
  · exact next_step rfl

end Duplex

end Ylars.Reactor
