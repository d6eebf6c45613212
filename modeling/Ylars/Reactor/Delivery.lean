import Ylars.Lib.Transition
import Ylars.Reactor.TcpClient
import Ylars.Reactor.TcpConn

/-!
# From the client to the server

A client and the connection object of the server, with the byte stream between them.
The client sends messages at any time, also before the connection is there; its socket
becomes writable at any time and takes any number of bytes; and the stream arrives in
chunks of any size.  `Link.Inv` says that the bytes written and the bytes waiting make up
the stream of the messages sent, and that the server has read a prefix of that stream in
the sense of `Framing.Reads`; what reaches the router follows from the rules of the
framing.

The pools are ample: they give a block of at least the requested size.
-/

namespace Ylars.Reactor

open Ylars.Lib ReactorBuf

/-- The answers of an ample pool. -/
abbrev AmplePool := { alloc : Alloc // AmpleAlloc alloc }

/-- A pool that gives blocks of exactly the requested size. -/
def exactPool : AmplePool where
  val n := some (IoBuf.new n.toNat)
  property n := ⟨_, rfl, IoBuf.fresh_new (Int.natCast_nonneg _) (Int.self_le_toNat n)⟩

/-! ## What the operations do to the buffers -/

namespace TcpClient

variable {c : TcpClient}

theorem clean_spec (h : c.obuf.Ready) :
    c.clean.obuf.Ready ∧ (c.clean = c ∨ c.clean.sockfd < 0) := by
  unfold clean
  split
  · exact ⟨ready_none, .inr (show (-1 : Int) < 0 by decide)⟩
  · exact ⟨h, .inl rfl⟩

/-- `send_msg` with an ample pool appends the message. -/
theorem sendMsg_ample (h : c.obuf.Ready) (p₁ p₂ : AmplePool) {m : Message} (hm : m.data ≠ []) :
    ∃ c', c.sendMsg p₁.1 p₂.1 m = .ok (0, c') ∧ c'.sockfd = c.sockfd ∧ c'.obuf.Ready ∧
      c'.obuf.content = c.obuf.content ++ m.bytes := by
  obtain ⟨buf', hs, hr, hc⟩ := appendMsg_ample h p₁.2 p₂.2 hm
  simp only [sendMsg, hs, Outcome.ok_bind]
  exact ⟨_, rfl, rfl, hr, hc⟩

/-- `connect_ser`, run as the write callback, keeps the write buffer or closes the socket. -/
theorem connectSer_spec (h : c.obuf.Ready) {cb : ClientCallback}
    (hcb : c.loop.writeCallback c.sockfd = some cb) (soError : Int) :
    ∃ c', c.connectSer soError = .ok c' ∧ c'.obuf.Ready ∧
      (c'.obuf = c.obuf ∨ c'.sockfd < 0) := by
  obtain ⟨loop, hloop⟩ := EventLoop.exists_delEventMask .writable hcb
  simp only [connectSer, hloop, Outcome.ok_bind]
  by_cases he : soError = 0
  · rw [if_pos he]
    exact ⟨_, rfl, h, .inl rfl⟩
  · rw [if_neg he]
    refine ⟨_, rfl, ?_⟩
    obtain ⟨hr, hc⟩ := clean_spec (c := { c with loop := loop }) h
    refine ⟨hr, hc.imp (fun hc ↦ ?_) id⟩
    rw [hc]

/-- `do_write`, run as the write callback, takes what it writes off the write buffer, or
closes the socket. -/
theorem doWrite_spec (h : c.obuf.Ready) {cb : ClientCallback}
    (hcb : c.loop.writeCallback c.sockfd = some cb) (res : List WriteResult) :
    ∃ taken c', c.doWrite res = .ok (taken, c') ∧ c'.obuf.Ready ∧
      taken <+: c.obuf.content ∧
      (c.obuf.content = taken ++ c'.obuf.content ∨ c'.sockfd < 0) := by
  obtain ⟨fin, taken, obuf, hw, hr, hc⟩ := writeLoop_spec res h
  simp only [doWrite, hw, Outcome.ok_bind]
  have hp : taken <+: c.obuf.content := ⟨_, hc.symm⟩
  cases fin with
  | blocked => exact ⟨taken, _, rfl, hr, hp, .inl hc⟩
  | failed =>
      refine ⟨taken, _, rfl, ?_⟩
      obtain ⟨hr', hc'⟩ := clean_spec (c := { c with obuf := obuf }) hr
      refine ⟨hr', hp, hc'.imp (fun hc' ↦ ?_) id⟩
      rw [hc']
      exact hc
  | done =>
      obtain ⟨loop, hloop⟩ := EventLoop.exists_delEventMask .writable hcb
      simp only [hloop, Outcome.ok_bind]
      exact ⟨taken, _, rfl, hr, hp, .inl hc⟩

end TcpClient

namespace TcpConn

variable {c : TcpConn}

theorem doRead_pending (h : c.ibuf.Ready) (p : AmplePool) {chunk : List UInt8}
    (hc : chunk ≠ [])
    (hok : ((framing msgMaxLimit).parse (c.ibuf.content ++ chunk)).2.2 = true) :
    ∃ c', c.doRead p.1 (.pending chunk) =
        .ok (((framing msgMaxLimit).parse (c.ibuf.content ++ chunk)).1, c') ∧
      c'.calls = c.calls ∧ c'.ibuf.Ready ∧
      c'.ibuf.content = ((framing msgMaxLimit).parse (c.ibuf.content ++ chunk)).2.1 := by
  obtain ⟨buf', hr, -, hbuf⟩ := readMsgs_pending msgMaxLimit h p.2 hc
  obtain ⟨hready, hcont⟩ := hbuf hok
  simp only [doRead, hr, hok, if_true, Outcome.ok_bind]
  exact ⟨_, rfl, rfl, hready, hcont⟩

end TcpConn

/-! ## The link -/

/-- A client, the connection object of the server, and the stream between them. -/
structure Link where
  client : TcpClient
  conn : TcpConn
  /-- Bytes written by the client that have not arrived. -/
  wire : List UInt8
  /-- All bytes written. -/
  written : List UInt8
  /-- All bytes that have arrived. -/
  read : List UInt8
  /-- The messages given to `send_msg`. -/
  sent : List Message
  /-- The messages handed to the router. -/
  received : List Message

/-- The steps of a link. -/
inductive LinkOp where
  /-- `send_msg`. -/
  | send (p₁ p₂ : AmplePool) (m : Message)
  /-- The socket of the client becomes writable and its write callback runs. -/
  | writable (soError : Int) (res : List WriteResult)
  /-- A chunk arrives and the server reads. -/
  | deliver (p : AmplePool) (chunk : List UInt8)

namespace Link

/-- The stream of some messages. -/
def stream (ms : List Message) : List UInt8 := ms.flatMap Message.bytes

/-- A new connection: the client waits for it, nothing is sent. -/
def new (loop : EventLoop ClientCallback) (sockfd : Int) (connLoop : EventLoop ConnCallback)
    (connfd : Int) : Link where
  client := .new loop sockfd
  conn := .new connLoop connfd
  wire := []
  written := []
  read := []
  sent := []
  received := []

/-- One step. -/
def step (s : Link) : LinkOp → Outcome Link
  | .send p₁ p₂ m => do
      let (_, client) ← s.client.sendMsg p₁.1 p₂.1 m
      return { s with client := client, sent := s.sent ++ [m] }
  | .writable soError res =>
      match s.client.loop.writeCallback s.client.sockfd with
      | some .connectSer => do
          let client ← s.client.connectSer soError
          return { s with client := client }
      | some .writeCb => do
          let (taken, client) ← s.client.doWrite res
          return { s with
            client := client
            wire := s.wire ++ taken
            written := s.written ++ taken }
      | _ => return s
  | .deliver p chunk => do
      let (ms, conn) ← s.conn.doRead p.1 (.pending chunk)
      return { s with
        conn := conn
        wire := s.wire.drop chunk.length
        read := s.read ++ chunk
        received := s.received ++ ms }

/-- When a step can be taken: a message has between one byte and `MSG_MAX_LIMIT`, only an
open socket becomes writable, and a chunk comes from the front of the stream. -/
def Enabled (s : Link) : LinkOp → Prop
  | .send _ _ m => m.data ≠ [] ∧ (m.data.length : Int) ≤ msgMaxLimit
  | .writable _ _ => 0 ≤ s.client.sockfd
  | .deliver _ chunk => chunk ≠ [] ∧ chunk <+: s.wire

instance (s : Link) : DecidablePred s.Enabled := fun op ↦ by
  cases op <;> unfold Enabled <;> infer_instance

/-- The runs of a link. -/
def runs : LTS Link LinkOp where
  init s := ∃ loop sockfd connLoop connfd, 0 ≤ sockfd ∧ 0 < connfd ∧
    s = new loop sockfd connLoop connfd
  step s op t := s.Enabled op ∧ s.step op = .ok t

/-- The invariant of a link. -/
structure Inv (s : Link) : Prop where
  obuf : s.client.obuf.Ready
  ibuf : s.conn.ibuf.Ready
  legal : ∀ m ∈ s.sent, m.Within msgMaxLimit
  /-- What is written has arrived or is on its way. -/
  written : s.written = s.read ++ s.wire
  /-- Only the stream of the messages is written. -/
  isPrefix : s.written <+: stream s.sent
  /-- Until the socket is closed, what is not written waits in the write buffer. -/
  pending : 0 ≤ s.client.sockfd → s.written ++ s.client.obuf.content = stream s.sent
  /-- The server has taken off the messages in what has arrived. -/
  reads : (framing msgMaxLimit).Reads s.read s.received s.conn.ibuf.content
  /-- The connection is not torn down. -/
  calls : s.conn.calls = [.startHook]

variable {s t : Link}

theorem stream_append (ms : List Message) (m : Message) :
    stream (ms ++ [m]) = stream ms ++ m.bytes := by
  simp [stream]

/-- The invariant holds initially. -/
theorem Inv.new (loop : EventLoop ClientCallback) (sockfd : Int)
    (connLoop : EventLoop ConnCallback) (connfd : Int) :
    (Link.new loop sockfd connLoop connfd).Inv where
  obuf := ready_none
  ibuf := ready_none
  legal _ h := by cases h
  written := rfl
  isPrefix := List.nil_prefix
  pending _ := rfl
  reads := .nil
  calls := rfl

theorem Inv.read_isPrefix (h : s.Inv) : s.read <+: stream s.sent :=
  (List.prefix_append _ _).trans (h.written ▸ h.isPrefix)

/-- A message goes behind the others. -/
theorem Inv.send (h : s.Inv) {p₁ p₂ : AmplePool} {m : Message}
    (he : s.Enabled (.send p₁ p₂ m)) : ∃ t, s.step (.send p₁ p₂ m) = .ok t ∧ t.Inv := by
  obtain ⟨hne, hle⟩ := he
  obtain ⟨c', hs, hfd, hr, hc⟩ := TcpClient.sendMsg_ample h.obuf p₁ p₂ hne
  refine ⟨{ s with client := c', sent := s.sent ++ [m] }, ?_,
    { obuf := hr
      ibuf := h.ibuf
      legal := ?_
      written := h.written
      isPrefix := ?_
      pending := fun hopen ↦ ?_
      reads := h.reads
      calls := h.calls }⟩
  · simp only [Link.step, hs, Outcome.ok_bind]
    rfl
  · intro m' hm'
    rcases List.mem_append.mp hm' with hm' | hm'
    · exact h.legal m' hm'
    · obtain rfl := List.mem_singleton.mp hm'
      refine ⟨hle, ?_⟩
      simp only [msgMaxLimit, msgHeadLen] at hle
      omega
  · rw [stream_append]
    exact h.isPrefix.trans (List.prefix_append _ _)
  · simp only at hopen ⊢
    rw [hfd] at hopen
    rw [hc, ← List.append_assoc, h.pending hopen, stream_append]

theorem Inv.connectSer (h : s.Inv) (hopen : 0 ≤ s.client.sockfd)
    (hcb : s.client.loop.writeCallback s.client.sockfd = some .connectSer) (soError : Int) :
    ∃ c', s.client.connectSer soError = .ok c' ∧ Inv { s with client := c' } := by
  obtain ⟨c', hc, hr, hor⟩ := TcpClient.connectSer_spec h.obuf hcb soError
  refine ⟨c', hc, { h with obuf := hr, pending := fun hopen' ↦ ?_ }⟩
  rcases hor with hbuf | hclosed
  · simp only [hbuf]
    exact h.pending hopen
  · exact absurd hopen' (not_le.mpr hclosed)

/-- What is written is the front of what waits. -/
theorem Inv.doWrite (h : s.Inv) (hopen : 0 ≤ s.client.sockfd)
    (hcb : s.client.loop.writeCallback s.client.sockfd = some .writeCb) (res : List WriteResult) :
    ∃ taken c', s.client.doWrite res = .ok (taken, c') ∧
      Inv { s with client := c', wire := s.wire ++ taken, written := s.written ++ taken } := by
  obtain ⟨taken, c', hw, hr, hp, hor⟩ := TcpClient.doWrite_spec h.obuf hcb res
  refine ⟨taken, c', hw,
    { h with
      obuf := hr
      written := ?_
      isPrefix := ?_
      pending := fun hopen' ↦ ?_ }⟩
  · simp only
    rw [h.written, List.append_assoc]
  · simp only
    rw [← h.pending hopen, List.prefix_append_right_inj]
    exact hp
  · rcases hor with hbuf | hclosed
    · simp only
      rw [List.append_assoc, ← hbuf, h.pending hopen]
    · exact absurd hopen' (not_le.mpr hclosed)

/-- What arrives goes to the server. -/
theorem Inv.deliver (h : s.Inv) {p : AmplePool} {chunk : List UInt8}
    (he : s.Enabled (.deliver p chunk)) : ∃ t, s.step (.deliver p chunk) = .ok t ∧ t.Inv := by
  obtain ⟨hne, rest, hrest⟩ := he
  have hread : s.read ++ chunk <+: (framing msgMaxLimit).encAll s.sent := by
    refine List.IsPrefix.trans ?_ h.isPrefix
    rw [h.written, ← hrest, List.prefix_append_right_inj]
    exact List.prefix_append _ _
  have hok := h.reads.parse_ok h.legal hread
  obtain ⟨c', hd, hcalls, hready, hcont⟩ := TcpConn.doRead_pending h.ibuf p hne hok
  simp only [Link.step, hd, Outcome.ok_bind]
  refine ⟨_, rfl,
    { h with
      ibuf := hready
      written := ?_
      reads := ?_
      calls := hcalls.trans h.calls }⟩
  · simp only
    rw [h.written, ← hrest, List.drop_left' rfl, List.append_assoc]
  · simp only [hcont]
    exact h.reads.feed hok

/-- Every step succeeds and keeps the invariant. -/
theorem Inv.step (h : s.Inv) {op : LinkOp} (he : s.Enabled op) :
    ∃ t, s.step op = .ok t ∧ t.Inv := by
  cases op with
  | send p₁ p₂ m => exact h.send he
  | writable soError res =>
      simp only [Link.step]
      cases hcb : s.client.loop.writeCallback s.client.sockfd with
      | none => exact ⟨s, rfl, h⟩
      | some cb =>
          cases cb with
          | tcpCliReadCb => exact ⟨s, rfl, h⟩
          | connectSer =>
              obtain ⟨c', hc, hi⟩ := h.connectSer he hcb soError
              exact ⟨_, by rw [hc]; rfl, hi⟩
          | writeCb =>
              obtain ⟨taken, c', hw, hi⟩ := h.doWrite he hcb res
              exact ⟨_, by rw [hw]; rfl, hi⟩
  | deliver p chunk => exact h.deliver he

/-- The invariant holds in every reachable state. -/
theorem inv_of_reachable (h : runs.Reachable s) : s.Inv := by
  refine LTS.Reachable.induction ?_ ?_ h
  · rintro s ⟨loop, sockfd, connLoop, connfd, -, -, rfl⟩
    exact .new loop sockfd connLoop connfd
  · rintro s op t - hinv ⟨he, hst⟩
    exact Outcome.of_exists_ok (hinv.step he) hst

/-- **Messages arrive in order, once and unchanged.**  In every state of a link the router
has been given a prefix of the messages sent, and all of them once all bytes have been
written and read; what it has been given depends only on the bytes that have arrived, not
on how they were cut; the connection is not torn down; and every step succeeds. -/
theorem delivery (h : runs.Reachable s) :
    s.received <+: s.sent ∧
    (s.read = stream s.sent → s.received = s.sent) ∧
    (0 ≤ s.client.sockfd → s.client.obuf.content = [] → s.wire = [] →
      s.received = s.sent) ∧
    (∀ s', runs.Reachable s' → s'.read = s.read → s'.received = s.received) ∧
    s.conn.calls = [.startHook] ∧
    ∀ op, s.Enabled op → ∃ t, s.step op = .ok t := by
  have hinv := inv_of_reachable h
  have hall : s.read = stream s.sent → s.received = s.sent := fun hr ↦ by
    have hreads := hinv.reads
    rw [hr] at hreads
    exact (hreads.eq_of_encAll hinv.legal).1
  refine ⟨hinv.reads.isPrefix hinv.legal hinv.read_isPrefix, hall, fun hopen hbuf hwire ↦ ?_,
    fun s' h' hr ↦ ?_, hinv.calls, fun op he ↦ ?_⟩
  · have hp := hinv.pending hopen
    rw [hbuf, List.append_nil, hinv.written, hwire, List.append_nil] at hp
    exact hall hp
  · have hreads' := (inv_of_reachable h').reads
    rw [hr] at hreads'
    exact (hreads'.unique hinv.reads).1
  · obtain ⟨t, hst, -⟩ := hinv.step he
    exact ⟨t, hst⟩

/-- A message sent before the connection is there, written in two pieces and cut inside its
head, arrives. -/
theorem delivery_of_pieces :
    ∃ s, runs.Reachable s ∧ s.sent = [⟨7, [1, 2]⟩] ∧ s.received = s.sent := by
  have h₀ : runs.Reachable (new .new 3 .new 5) := .init ⟨_, 3, _, 5, by decide, by decide, rfl⟩
  have h₁ := h₀.step (a := .send exactPool exactPool ⟨7, [1, 2]⟩) ⟨by decide, rfl⟩
  have h₂ := h₁.step (a := .writable 0 []) ⟨by decide, rfl⟩
  have h₃ := h₂.step (a := .writable 0 [.wrote 4]) ⟨by decide, rfl⟩
  have h₄ := h₃.step (a := .deliver exactPool [7, 0, 0]) ⟨by decide, rfl⟩
  have h₅ := h₄.step (a := .writable 0 [.wrote 100]) ⟨by decide, rfl⟩
  have h₆ := h₅.step (a := .deliver exactPool [0, 2, 0, 0, 0, 1, 2]) ⟨by decide, rfl⟩
  exact ⟨_, h₆, rfl, (delivery h₆).2.1 rfl⟩

end Link

end Ylars.Reactor
