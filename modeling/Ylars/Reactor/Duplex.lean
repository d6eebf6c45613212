import Ylars.Lib.Pipe
import Ylars.Reactor.Epoll
import Ylars.Reactor.FrameLimits

/-!
# Both directions of a connection

A client and the connection object of the server with the two byte streams between them.
Either end sends messages at any time, writes any part of what waits and reads what has
arrived in chunks of any size.  The ends do not read the same messages: `do_read` of the
client refuses what is longer than `_SC_NL_MSGMAX`, that of the server what is longer than
`MSG_MAX_LIMIT`, and the one that refuses a message closes its end.

As long as both ends are open each of them has been given, in order and each once, the
first messages that the other has sent (`Duplex.both_ways`).
-/

namespace Ylars.Reactor

open Ylars.Lib ReactorBuf

/-! ## Messages and limits -/

/-- A reader takes a message or refuses it: the length in the head tells which. -/
theorem decides_framing (limit : Int) {m : Message} (hlen : m.data.length < 2 ^ 31) :
    (framing limit).Decides m := by
  by_cases hle : (m.data.length : Int) ≤ limit
  · exact .inl ⟨hle, hlen⟩
  have hbad : ∀ bs : List UInt8, bs.take 8 = m.head.bytes → frontMsg limit bs = .bad := by
    intro bs htake
    have hlong := congrArg List.length htake
    rw [List.length_take, MsgHead.length_bytes] at hlong
    rw [frontMsg, if_neg (by rw [msgHeadLen]; omega)]
    simp only [htake, MsgHead.ofBytes_bytes, Message.toInt_msglen hlen]
    exact if_pos (.inl (not_le.mp hle))
  refine .inr ⟨fun p hp g rest hf ↦ ?_, fun rest ↦ ?_⟩
  · change frontMsg limit p = .frame g rest at hf
    by_cases hshort : p.length < 8
    · rw [frontMsg, if_pos (by rw [msgHeadLen]; omega)] at hf
      cases hf
    · obtain ⟨tail, htail⟩ := hp
      have htake : p.take 8 = m.head.bytes := by
        have he := congrArg (List.take 8) htail
        rw [List.take_append_of_le_length (not_lt.mp hshort)] at he
        exact he.trans (List.take_left' (MsgHead.length_bytes _))
      rw [hbad p htake] at hf
      cases hf
  · refine hbad (m.bytes ++ rest) ?_
    rw [Message.bytes, List.append_assoc]
    exact List.take_left' (MsgHead.length_bytes _)

/-! ## One direction -/

/-- The stream from a write buffer to a read buffer with a limit. -/
structure Half (limit : Int) (p : Pipe Message UInt8) (obuf : OutBuf) (ibuf : InBuf) : Prop where
  out : obuf.Ready
  inp : ibuf.Ready
  carries : p.Carries (framing limit) obuf.content ibuf.content

namespace Half

variable {limit : Int} {p : Pipe Message UInt8} {obuf obuf' : OutBuf} {ibuf ibuf' : InBuf}

theorem new (limit : Int) : Half limit .new none none := ⟨ready_none, ready_none, .new⟩

theorem send (h : Half limit p obuf ibuf) {m : Message} (hlen : m.data.length < 2 ^ 31)
    (hr : obuf'.Ready) (hc : obuf'.content = obuf.content ++ m.bytes) :
    Half limit (p.send m) obuf' ibuf := by
  refine ⟨hr, h.inp, ?_⟩
  rw [hc]
  exact h.carries.send (decides_framing limit hlen)

theorem write (h : Half limit p obuf ibuf) {taken : List UInt8} (hr : obuf'.Ready)
    (hc : obuf.content = taken ++ obuf'.content) : Half limit (p.write taken) obuf' ibuf := by
  have hcarries := h.carries
  rw [hc] at hcarries
  exact ⟨hr, h.inp, hcarries.write⟩

theorem read (h : Half limit p obuf ibuf) {chunk : List UInt8} (hchunk : chunk <+: p.wire)
    (hok : ((framing limit).parse (ibuf.content ++ chunk)).2.2 = true) (hr : ibuf'.Ready)
    (hc : ibuf'.content = ((framing limit).parse (ibuf.content ++ chunk)).2.1) :
    Half limit (p.deliver chunk ((framing limit).parse (ibuf.content ++ chunk)).1) obuf ibuf' := by
  refine ⟨h.out, hr, ?_⟩
  rw [hc]
  exact h.carries.deliver hchunk hok

end Half

/-! ## What the operations do to the buffers -/

/-- With ample pools a message goes behind what waits, also one without bytes: `send_msg`
then answers -1, but the head is there. -/
theorem appendMsg_append {buf : ReactorBuf} (h : buf.Ready) (p₁ p₂ : AmplePool) (m : Message) :
    ∃ ret buf', appendMsg p₁.1 p₂.1 m buf = .ok (ret, buf') ∧ buf'.Ready ∧
      buf'.content = buf.content ++ m.bytes := by
  by_cases hm : m.data = []
  · obtain ⟨-, hrefused, -⟩ | ⟨buf', hs, hr, hc⟩ :=
      OutBuf.sendData_of_room h p₁.2.fresh m.head.bytes_ne_nil (p₁.2.room buf _)
    · exact absurd hrefused (p₁.2.ne_none _)
    · refine ⟨-1, buf', ?_, hr, ?_⟩
      · simp only [appendMsg, hs, Outcome.ok_bind, hm]
        rfl
      · rw [hc, Message.bytes, hm, List.append_nil]
  · obtain ⟨buf', hs, hr, hc⟩ := appendMsg_ample h p₁.2 p₂.2 hm
    exact ⟨0, buf', hs, hr, hc⟩

/-- Bytes can be written, or the socket takes none now. -/
def WriteResult.Works : WriteResult → Prop
  | .wrote _ => True
  | .error errno => errno = .eagain

theorem write2fd_nonneg {r : WriteResult} {buf buf' : OutBuf} {ret : Int} {taken : List UInt8}
    (hbuf : buf ≠ none) (hr : r.Works) (h : OutBuf.write2fd r buf = .ok (ret, taken, buf')) :
    0 ≤ ret := by
  obtain ⟨b, rfl⟩ := Option.ne_none_iff_exists'.mp hbuf
  obtain ⟨offered, -, h⟩ := Outcome.bind_eq_ok.mp h
  cases r with
  | wrote n =>
      simp only at h
      split at h
      · obtain ⟨rfl, -⟩ := Prod.mk.inj (Except.ok.inj h)
        exact le_rfl
      · obtain ⟨b', -, h⟩ := Outcome.bind_eq_ok.mp h
        obtain ⟨rfl, -⟩ := Prod.mk.inj (Except.ok.inj h)
        exact Int.natCast_nonneg _
  | error errno =>
      obtain rfl := hr
      obtain ⟨rfl, -⟩ := Prod.mk.inj (Except.ok.inj h)
      exact le_rfl

/-- The loop of `do_write` does not fail when every `write` works. -/
theorem writeLoop_ne_failed {res : List WriteResult} (hres : ∀ r ∈ res, r.Works)
    {buf buf' : OutBuf} {fin : WriteEnd} {taken : List UInt8}
    (h : writeLoop res buf = .ok (fin, taken, buf')) : fin ≠ .failed := by
  induction res generalizing buf taken with
  | nil =>
      obtain ⟨rfl, -⟩ := Prod.mk.inj (Except.ok.inj h)
      split <;> exact WriteEnd.noConfusion
  | cons r res ih =>
      rw [writeLoop] at h
      by_cases hpos : 0 < buf.length
      · rw [if_pos hpos] at h
        obtain ⟨⟨ret, taken₁, buf₁⟩, hw, h⟩ := Outcome.bind_eq_ok.mp h
        have hbuf : buf ≠ none := by
          rintro rfl
          exact absurd hpos (lt_irrefl 0)
        have hnonneg := write2fd_nonneg hbuf (hres r List.mem_cons_self) hw
        simp only [if_neg (not_lt.mpr hnonneg)] at h
        by_cases hzero : ret = 0
        · rw [if_pos hzero] at h
          obtain ⟨rfl, -⟩ := Prod.mk.inj (Except.ok.inj h)
          exact WriteEnd.noConfusion
        · rw [if_neg hzero] at h
          obtain ⟨⟨fin₁, taken₂, buf₂⟩, hl, h⟩ := Outcome.bind_eq_ok.mp h
          obtain ⟨rfl, hrest⟩ := Prod.mk.inj (Except.ok.inj h)
          obtain ⟨-, rfl⟩ := Prod.mk.inj hrest
          exact ih (fun r hr ↦ hres r (List.mem_cons_of_mem _ hr)) hl
      · rw [if_neg hpos] at h
        obtain ⟨rfl, -⟩ := Prod.mk.inj (Except.ok.inj h)
        exact WriteEnd.noConfusion

namespace TcpClient

variable {c c' : TcpClient}

/-- The client has not closed its socket. -/
def Open (c : TcpClient) : Prop := 0 ≤ c.sockfd

instance : DecidablePred Open := fun c ↦ inferInstanceAs (Decidable (0 ≤ c.sockfd))

theorem not_open_clean (c : TcpClient) : ¬c.clean.Open := by
  unfold clean
  split
  · exact of_decide_eq_false rfl
  · assumption

theorem sendMsg_append (h : c.obuf.Ready) (p₁ p₂ : AmplePool) (m : Message) :
    ∃ ret c', c.sendMsg p₁.1 p₂.1 m = .ok (ret, c') ∧ c'.ibuf = c.ibuf ∧ c'.obuf.Ready ∧
      c'.obuf.content = c.obuf.content ++ m.bytes := by
  obtain ⟨ret, buf', hs, hr, hc⟩ := appendMsg_append h p₁ p₂ m
  simp only [sendMsg, hs, Outcome.ok_bind]
  by_cases hneg : ret < 0
  · rw [if_pos hneg]
    exact ⟨_, _, rfl, rfl, hr, hc⟩
  · rw [if_neg hneg]
    exact ⟨_, _, rfl, rfl, hr, hc⟩

/-- `connect_ser` keeps the buffers or closes the socket. -/
theorem connectSer_keeps {soError : Int} (h : c.connectSer soError = .ok c') (ho : c'.Open) :
    c'.obuf = c.obuf ∧ c'.ibuf = c.ibuf := by
  obtain ⟨loop, -, h⟩ := Outcome.bind_eq_ok.mp h
  split at h
  · obtain rfl := Except.ok.inj h
    exact ⟨rfl, rfl⟩
  · obtain rfl := Except.ok.inj h
    exact absurd ho (not_open_clean _)

/-- `do_write` keeps the read buffer or closes the socket. -/
theorem doWrite_keeps {res : List WriteResult} {taken : List UInt8}
    (h : c.doWrite res = .ok (taken, c')) (ho : c'.Open) : c'.ibuf = c.ibuf := by
  obtain ⟨fin, obuf, -, ⟨-, rfl⟩ | ⟨-, rfl⟩ | ⟨-, loop, -, rfl⟩⟩ := doWrite_cases h
  · rfl
  · exact absurd ho (not_open_clean _)
  · rfl

/-- `do_read` keeps the write buffer or closes the socket. -/
theorem doRead_keeps {nlMsgmax : Int} {alloc : Alloc} {fd : Socket} {ms : List Message}
    (h : c.doRead nlMsgmax alloc fd = .ok (ms, c')) (ho : c'.Open) : c'.obuf = c.obuf := by
  obtain ⟨fin, ibuf, -, ⟨-, rfl⟩ | ⟨-, rfl⟩⟩ := doRead_cases h
  · rfl
  · exact absurd ho (not_open_clean _)

end TcpClient

namespace TcpConn

variable {c c' : TcpConn}

/-- The connection has not been torn down. -/
def Open (c : TcpConn) : Prop := 0 < c.sockfd ∧ ServerCall.endHook ∉ c.calls

instance : DecidablePred Open := fun c ↦
  inferInstanceAs (Decidable (0 < c.sockfd ∧ ServerCall.endHook ∉ c.calls))

theorem not_open_clean (c : TcpConn) : ¬c.clean.Open := by
  unfold clean
  split
  · exact fun h ↦ h.2 (by simp)
  · exact fun h ↦ absurd h.1 (by assumption)

theorem sendMsg_append (h : c.obuf.Ready) (p₁ p₂ : AmplePool) (m : Message) :
    ∃ ret c', c.sendMsg p₁.1 p₂.1 m = .ok (ret, c') ∧ c'.ibuf = c.ibuf ∧ c'.obuf.Ready ∧
      c'.obuf.content = c.obuf.content ++ m.bytes := by
  obtain ⟨ret, buf', hs, hr, hc⟩ := appendMsg_append h p₁ p₂ m
  simp only [sendMsg, hs, Outcome.ok_bind]
  by_cases hneg : ret < 0
  · rw [if_pos hneg]
    exact ⟨_, _, rfl, rfl, hr, hc⟩
  · rw [if_neg hneg]
    exact ⟨_, _, rfl, rfl, hr, hc⟩

/-- `do_write`, run as the write callback, takes what it writes off the write buffer, or tears
the connection down. -/
theorem doWrite_spec (h : c.obuf.Ready) {cb : ConnCallback}
    (hcb : c.loop.writeCallback c.sockfd = some cb) (res : List WriteResult) :
    ∃ taken c', c.doWrite res = .ok (taken, c') ∧
      (c'.Open → c'.ibuf = c.ibuf ∧ c'.obuf.Ready ∧ c.obuf.content = taken ++ c'.obuf.content) := by
  obtain ⟨fin, taken, obuf, hw, hr, hc⟩ := writeLoop_spec res h
  simp only [doWrite, hw, Outcome.ok_bind]
  cases fin with
  | blocked => exact ⟨taken, _, rfl, fun _ ↦ ⟨rfl, hr, hc⟩⟩
  | failed => exact ⟨taken, _, rfl, fun ho ↦ absurd ho (not_open_clean _)⟩
  | done =>
      obtain ⟨loop, hloop⟩ := EventLoop.exists_delEventMask .writable hcb
      simp only [hloop, Outcome.ok_bind]
      exact ⟨taken, _, rfl, fun _ ↦ ⟨rfl, hr, hc⟩⟩

/-- `do_read` keeps the write buffer or tears the connection down. -/
theorem doRead_keeps {alloc : Alloc} {fd : Socket} {ms : List Message}
    (h : c.doRead alloc fd = .ok (ms, c')) (ho : c'.Open) : c'.obuf = c.obuf := by
  obtain ⟨fin, ibuf, -, ⟨-, rfl⟩ | ⟨-, rfl⟩⟩ := doRead_cases h
  · rfl
  · exact absurd ho (not_open_clean _)

end TcpConn

/-! ## The connection -/

/-- A client, the connection object of the server, and what passes between them. -/
structure Duplex where
  client : TcpClient
  conn : TcpConn
  /-- From the client to the server. -/
  up : Pipe Message UInt8
  /-- From the server to the client. -/
  down : Pipe Message UInt8

/-- The steps of a connection. -/
inductive DuplexOp where
  /-- `send_msg` of the client. -/
  | request (p₁ p₂ : AmplePool) (m : Message)
  /-- `send_msg` of the server. -/
  | respond (p₁ p₂ : AmplePool) (m : Message)
  /-- The socket of the client becomes writable and its write callback runs. -/
  | clientWrites (soError : Int) (res : List WriteResult)
  /-- The socket of the server becomes writable and its write callback runs. -/
  | connWrites (res : List WriteResult)
  /-- A chunk arrives at the server, which reads it. -/
  | connReads (chunk : Chunk)
  /-- A chunk arrives at the client, which reads it. -/
  | clientReads (chunk : Chunk)
  /-- The client cannot read and closes. -/
  | clientHangs
  /-- The server cannot read and tears down. -/
  | connHangs

/-- Whether a step sends a message. -/
def DuplexOp.sends : DuplexOp → Bool
  | .request _ _ _ => true
  | .respond _ _ _ => true
  | _ => false

/-- A step in which no call fails and no end is closed, and which sends nothing too long for
its reader. -/
def DuplexOp.Smooth (nlMsgmax : Int) : DuplexOp → Prop
  | .request _ _ m => (m.data.length : Int) ≤ msgMaxLimit
  | .respond _ _ m => (m.data.length : Int) ≤ nlMsgmax
  | .clientWrites soError res => soError = 0 ∧ ∀ r ∈ res, r.Works
  | .connWrites res => ∀ r ∈ res, r.Works
  | .connReads _ => True
  | .clientReads _ => True
  | .clientHangs => False
  | .connHangs => False

namespace Duplex

/-- A new connection: the client waits for it, nothing is sent. -/
def new (loop : EventLoop ClientCallback) (sockfd : Int) (connLoop : EventLoop ConnCallback)
    (connfd : Int) : Duplex where
  client := .new loop sockfd
  conn := .new connLoop connfd
  up := .new
  down := .new

/-- Both ends are open. -/
def Open (s : Duplex) : Prop := s.client.Open ∧ s.conn.Open

instance : DecidablePred Open := fun s ↦
  inferInstanceAs (Decidable (s.client.Open ∧ s.conn.Open))

/-- One step. -/
def step (nlMsgmax : Int) (s : Duplex) : DuplexOp → Outcome Duplex
  | .request p₁ p₂ m => do
      let (_, client) ← s.client.sendMsg p₁.1 p₂.1 m
      return { s with client := client, up := s.up.send m }
  | .respond p₁ p₂ m => do
      let (_, conn) ← s.conn.sendMsg p₁.1 p₂.1 m
      return { s with conn := conn, down := s.down.send m }
  | .clientWrites soError res =>
      match s.client.loop.writeCallback s.client.sockfd with
      | some .connectSer => do
          let client ← s.client.connectSer soError
          return { s with client := client }
      | some .writeCb => do
          let (taken, client) ← s.client.doWrite res
          return { s with client := client, up := s.up.write taken }
      | _ => return s
  | .connWrites res =>
      match s.conn.loop.writeCallback s.conn.sockfd with
      | some .writeCb => do
          let (taken, conn) ← s.conn.doWrite res
          return { s with conn := conn, down := s.down.write taken }
      | _ => return s
  | .connReads chunk => do
      let (ms, conn) ← s.conn.doRead chunk.pool.1 (.pending chunk.bytes)
      return { s with conn := conn, up := s.up.deliver chunk.bytes ms }
  | .clientReads chunk => do
      let (ms, client) ← s.client.doRead nlMsgmax chunk.pool.1 (.pending chunk.bytes)
      return { s with client := client, down := s.down.deliver chunk.bytes ms }
  | .clientHangs => return { s with client := s.client.clean }
  | .connHangs => return { s with conn := s.conn.clean }

/-- When a step can be taken: the ends are open, the length of a message is an `int`, and an
end that waits for something to read gets the front of what is on its way. -/
def Enabled (s : Duplex) (op : DuplexOp) : Prop :=
  s.Open ∧
    match op with
    | .request _ _ m | .respond _ _ m => m.data.length < 2 ^ 31
    | .connReads chunk =>
        s.conn.loop.registered s.conn.sockfd .epollin = some .tcpSerReadCb ∧
          chunk.bytes <+: s.up.wire
    | .clientReads chunk =>
        s.client.loop.registered s.client.sockfd .epollin = some .tcpCliReadCb ∧
          chunk.bytes <+: s.down.wire
    | _ => True

instance (s : Duplex) : DecidablePred s.Enabled := fun op ↦ by
  cases op <;> unfold Enabled <;> infer_instance

/-- In a step that sends nothing, each end takes off some messages that were on their way. -/
structure Passes (s t : Duplex) : Prop where
  up : ∃ ms, s.up.Takes t.up ms
  down : ∃ ms, s.down.Takes t.down ms

/-- Both streams, while the ends are open. -/
structure Live (nlMsgmax : Int) (s : Duplex) : Prop where
  up : Half msgMaxLimit s.up s.client.obuf s.conn.ibuf
  down : Half nlMsgmax s.down s.conn.obuf s.client.ibuf

end Duplex

/-- The runs of a connection, until an end closes. -/
def duplex (nlMsgmax : Int) : LTS Duplex DuplexOp where
  init s := ∃ loop sockfd connLoop connfd, 0 ≤ sockfd ∧ 0 < connfd ∧
    s = .new loop sockfd connLoop connfd
  step s op t := s.Enabled op ∧ s.step nlMsgmax op = .ok t

namespace Duplex

variable {nlMsgmax : Int} {s t : Duplex}

theorem Live.new (loop : EventLoop ClientCallback) (sockfd : Int)
    (connLoop : EventLoop ConnCallback) (connfd : Int) :
    (Duplex.new loop sockfd connLoop connfd).Live nlMsgmax :=
  ⟨.new _, .new _⟩

theorem Live.request (h : s.Live nlMsgmax) (p₁ p₂ : AmplePool) {m : Message}
    (hlen : m.data.length < 2 ^ 31) :
    ∃ t, s.step nlMsgmax (.request p₁ p₂ m) = .ok t ∧ t.Live nlMsgmax := by
  obtain ⟨ret, c', hs, hibuf, hr, hc⟩ := TcpClient.sendMsg_append h.up.out p₁ p₂ m
  refine ⟨{ s with client := c', up := s.up.send m }, ?_, h.up.send hlen hr hc, ?_⟩
  · simp only [Duplex.step, hs, Outcome.ok_bind]
    rfl
  · show Half nlMsgmax s.down s.conn.obuf c'.ibuf
    rw [hibuf]
    exact h.down

theorem Live.respond (h : s.Live nlMsgmax) (p₁ p₂ : AmplePool) {m : Message}
    (hlen : m.data.length < 2 ^ 31) :
    ∃ t, s.step nlMsgmax (.respond p₁ p₂ m) = .ok t ∧ t.Live nlMsgmax := by
  obtain ⟨ret, c', hs, hibuf, hr, hc⟩ := TcpConn.sendMsg_append h.down.out p₁ p₂ m
  refine ⟨{ s with conn := c', down := s.down.send m }, ?_, ?_, h.down.send hlen hr hc⟩
  · simp only [Duplex.step, hs, Outcome.ok_bind]
    rfl
  · show Half msgMaxLimit s.up s.client.obuf c'.ibuf
    rw [hibuf]
    exact h.up

theorem Passes.refl (s : Duplex) : s.Passes s := ⟨⟨[], .refl _⟩, ⟨[], .refl _⟩⟩

theorem Live.clientWrites (h : s.Live nlMsgmax) (soError : Int) (res : List WriteResult) :
    ∃ t, s.step nlMsgmax (.clientWrites soError res) = .ok t ∧
      (t.Open → t.Live nlMsgmax ∧ s.Passes t) := by
  simp only [Duplex.step]
  cases hcb : s.client.loop.writeCallback s.client.sockfd with
  | none => exact ⟨s, rfl, fun _ ↦ ⟨h, .refl s⟩⟩
  | some cb =>
      cases cb with
      | tcpCliReadCb => exact ⟨s, rfl, fun _ ↦ ⟨h, .refl s⟩⟩
      | connectSer =>
          obtain ⟨c', hc, -⟩ := TcpClient.connectSer_spec h.up.out hcb soError
          simp only [hc, Outcome.ok_bind]
          refine ⟨_, rfl, fun ho ↦ ⟨?_, ⟨[], .refl _⟩, ⟨[], .refl _⟩⟩⟩
          obtain ⟨hobuf, hibuf⟩ := TcpClient.connectSer_keeps hc ho.1
          constructor
          · show Half msgMaxLimit s.up c'.obuf s.conn.ibuf
            rw [hobuf]
            exact h.up
          · show Half nlMsgmax s.down s.conn.obuf c'.ibuf
            rw [hibuf]
            exact h.down
      | writeCb =>
          obtain ⟨taken, c', hw, hr, -, hor⟩ := TcpClient.doWrite_spec h.up.out hcb res
          simp only [hw, Outcome.ok_bind]
          refine ⟨_, rfl, fun ho ↦ ⟨⟨h.up.write hr (hor.resolve_right (not_lt.mpr ho.1)), ?_⟩,
            ⟨[], s.up.takes_write taken⟩, ⟨[], .refl _⟩⟩⟩
          show Half nlMsgmax s.down s.conn.obuf c'.ibuf
          rw [TcpClient.doWrite_keeps hw ho.1]
          exact h.down

theorem Live.connWrites (h : s.Live nlMsgmax) (res : List WriteResult) :
    ∃ t, s.step nlMsgmax (.connWrites res) = .ok t ∧
      (t.Open → t.Live nlMsgmax ∧ s.Passes t) := by
  simp only [Duplex.step]
  cases hcb : s.conn.loop.writeCallback s.conn.sockfd with
  | none => exact ⟨s, rfl, fun _ ↦ ⟨h, .refl s⟩⟩
  | some cb =>
      cases cb with
      | tcpSerReadCb => exact ⟨s, rfl, fun _ ↦ ⟨h, .refl s⟩⟩
      | writeCb =>
          obtain ⟨taken, c', hw, hkeep⟩ := TcpConn.doWrite_spec h.down.out hcb res
          simp only [hw, Outcome.ok_bind]
          refine ⟨_, rfl, fun ho ↦ ?_⟩
          obtain ⟨hibuf, hr, hc⟩ := hkeep ho.2
          refine ⟨⟨?_, h.down.write hr hc⟩, ⟨[], .refl _⟩, ⟨[], s.down.takes_write taken⟩⟩
          show Half msgMaxLimit s.up s.client.obuf c'.ibuf
          rw [hibuf]
          exact h.up

theorem Live.connReads (h : s.Live nlMsgmax) {chunk : Chunk} (ho : s.conn.Open)
    (hc : chunk.bytes <+: s.up.wire) :
    ∃ t, s.step nlMsgmax (.connReads chunk) = .ok t ∧
      (t.Open → t.Live nlMsgmax ∧ s.Passes t) := by
  obtain ⟨c', hd, hopen, hbuf⟩ :=
    connReader.doRead_spec chunk s.conn (decide_eq_true ho) h.up.inp
  change s.conn.doRead chunk.pool.1 _ = _ at hd
  simp only [Duplex.step, hd, Outcome.ok_bind]
  refine ⟨_, rfl, fun ho' ↦ ?_⟩
  have hopen' : connReader.isOpen c' = true := decide_eq_true ho'.2
  have hok := hopen.symm.trans hopen'
  obtain ⟨hr, hcont⟩ := hbuf hopen'
  refine ⟨⟨h.up.read hc hok hr hcont, ?_⟩, ⟨_, h.up.carries.takes_deliver hc hok⟩, ⟨[], .refl _⟩⟩
  show Half nlMsgmax s.down c'.obuf s.client.ibuf
  rw [TcpConn.doRead_keeps hd ho'.2]
  exact h.down

theorem Live.clientReads (h : s.Live nlMsgmax) {chunk : Chunk} (ho : s.client.Open)
    (hc : chunk.bytes <+: s.down.wire) :
    ∃ t, s.step nlMsgmax (.clientReads chunk) = .ok t ∧
      (t.Open → t.Live nlMsgmax ∧ s.Passes t) := by
  obtain ⟨c', hd, hopen, hbuf⟩ :=
    (clientReader nlMsgmax).doRead_spec chunk s.client (decide_eq_true ho) h.down.inp
  change s.client.doRead nlMsgmax chunk.pool.1 _ = _ at hd
  simp only [Duplex.step, hd, Outcome.ok_bind]
  refine ⟨_, rfl, fun ho' ↦ ?_⟩
  have hopen' : (clientReader nlMsgmax).isOpen c' = true := decide_eq_true ho'.1
  have hok := hopen.symm.trans hopen'
  obtain ⟨hr, hcont⟩ := hbuf hopen'
  refine ⟨⟨?_, h.down.read hc hok hr hcont⟩, ⟨[], .refl _⟩,
    ⟨_, h.down.carries.takes_deliver hc hok⟩⟩
  show Half msgMaxLimit s.up c'.obuf s.conn.ibuf
  rw [TcpClient.doRead_keeps hd ho'.1]
  exact h.up

/-- Every step that sends nothing succeeds, and passes messages on unless it closes an end. -/
theorem Live.passes (h : s.Live nlMsgmax) {op : DuplexOp} (he : s.Enabled op)
    (hop : op.sends = false) :
    ∃ t, s.step nlMsgmax op = .ok t ∧ (t.Open → t.Live nlMsgmax ∧ s.Passes t) := by
  obtain ⟨ho, he⟩ := he
  cases op with
  | request | respond => cases hop
  | clientWrites soError res => exact h.clientWrites soError res
  | connWrites res => exact h.connWrites res
  | connReads chunk => exact h.connReads ho.2 he.2
  | clientReads chunk => exact h.clientReads ho.1 he.2
  | clientHangs => exact ⟨_, rfl, fun ho' ↦ absurd ho'.1 (TcpClient.not_open_clean _)⟩
  | connHangs => exact ⟨_, rfl, fun ho' ↦ absurd ho'.2 (TcpConn.not_open_clean _)⟩

/-- Every step succeeds, and keeps the streams unless it closes an end. -/
theorem Live.step (h : s.Live nlMsgmax) {op : DuplexOp} (he : s.Enabled op) :
    ∃ t, s.step nlMsgmax op = .ok t ∧ (t.Open → t.Live nlMsgmax) := by
  cases hop : op.sends with
  | false =>
      obtain ⟨t, hst, ht⟩ := h.passes he hop
      exact ⟨t, hst, fun ho ↦ (ht ho).1⟩
  | true =>
      cases op with
      | request p₁ p₂ m =>
          obtain ⟨t, hst, ht⟩ := h.request p₁ p₂ he.2
          exact ⟨t, hst, fun _ ↦ ht⟩
      | respond p₁ p₂ m =>
          obtain ⟨t, hst, ht⟩ := h.respond p₁ p₂ he.2
          exact ⟨t, hst, fun _ ↦ ht⟩
      | clientWrites | connWrites | connReads | clientReads | clientHangs | connHangs => cases hop

/-- As long as both ends are open the streams are kept. -/
theorem live_of_reachable (h : (duplex nlMsgmax).Reachable s) : s.Open → s.Live nlMsgmax := by
  refine h.induction (I := fun s ↦ s.Open → s.Live nlMsgmax) ?_ ?_
  · rintro s ⟨loop, sockfd, connLoop, connfd, -, -, rfl⟩ -
    exact .new loop sockfd connLoop connfd
  · rintro s op t - hi ⟨he, hst⟩ ho
    obtain ⟨t', hst', hlive⟩ := (hi he.1).step he
    obtain rfl := Except.ok.inj (hst'.symm.trans hst)
    exact hlive ho

/-- An end that is open at the end of a run was open before. -/
theorem open_of_run {ops : List DuplexOp} (h : (duplex nlMsgmax).Run s ops t) (ho : t.Open) :
    s.Open := by
  cases h with
  | nil => exact ho
  | cons hst _ => exact hst.1.1

/-- **Messages go both ways in order, once and unchanged.**  Whatever the pieces in which the
two streams are written and read, as long as both ends are open each end has been given the
first messages that the other has sent, and all of them when nothing is on its way; it has
been given none above its limit; and every step succeeds. -/
theorem both_ways (h : (duplex nlMsgmax).Reachable s) (ho : s.Open) :
    (s.up.received <+: s.up.sent ∧ s.down.received <+: s.down.sent) ∧
    (s.client.obuf.content = [] → s.up.wire = [] → s.up.received = s.up.sent) ∧
    (s.conn.obuf.content = [] → s.down.wire = [] → s.down.received = s.down.sent) ∧
    (∀ m ∈ s.up.received, (m.data.length : Int) ≤ msgMaxLimit) ∧
    (∀ m ∈ s.down.received, (m.data.length : Int) ≤ nlMsgmax) ∧
    ∀ op, s.Enabled op → ∃ t, s.step nlMsgmax op = .ok t := by
  have hlive := live_of_reachable h ho
  refine ⟨⟨hlive.up.carries.isPrefix, hlive.down.carries.isPrefix⟩, fun hobuf hwire ↦ ?_,
    fun hobuf hwire ↦ ?_, fun m hm ↦ (hlive.up.carries.reads.legal m hm).1,
    fun m hm ↦ (hlive.down.carries.reads.legal m hm).1, fun op he ↦ ?_⟩
  · have hcarries := hlive.up.carries
    rw [hobuf] at hcarries
    exact hcarries.eq_of_drained hwire
  · have hcarries := hlive.down.carries
    rw [hobuf] at hcarries
    exact hcarries.eq_of_drained hwire
  · obtain ⟨t, hst, -⟩ := hlive.step he
    exact ⟨t, hst⟩

/-! ## When no end closes -/

/-- The streams flow: both ends are open, and no message is too long for its reader. -/
structure Flows (nlMsgmax : Int) (s : Duplex) : Prop where
  opened : s.Open
  live : s.Live nlMsgmax
  up : ∀ m ∈ s.up.sent, m.Within msgMaxLimit
  down : ∀ m ∈ s.down.sent, m.Within nlMsgmax

/-- A smooth step closes no end. -/
theorem Flows.open_step {op : DuplexOp} (h : s.Flows nlMsgmax) (he : s.Enabled op)
    (hop : op.Smooth nlMsgmax) (hst : s.step nlMsgmax op = .ok t) : t.Open := by
  obtain ⟨⟨hclient, hconn⟩, hlive, hup, hdown⟩ := h
  cases op with
  | request p₁ p₂ m =>
      simp only [Duplex.step, Outcome.bind_eq_ok] at hst
      obtain ⟨⟨ret, c'⟩, hs, ht⟩ := hst
      obtain rfl := Except.ok.inj ht
      obtain ⟨obuf, -, ⟨-, rfl⟩ | ⟨-, rfl⟩⟩ := TcpClient.sendMsg_cases hs
      · exact ⟨hclient, hconn⟩
      · exact ⟨hclient, hconn⟩
  | respond p₁ p₂ m =>
      simp only [Duplex.step, Outcome.bind_eq_ok] at hst
      obtain ⟨⟨ret, c'⟩, hs, ht⟩ := hst
      obtain rfl := Except.ok.inj ht
      obtain ⟨obuf, -, ⟨-, rfl⟩ | ⟨-, rfl⟩⟩ := TcpConn.sendMsg_cases hs
      · exact ⟨hclient, hconn⟩
      · exact ⟨hclient, hconn⟩
  | clientWrites soError res =>
      obtain ⟨rfl, hres⟩ := hop
      simp only [Duplex.step] at hst
      split at hst
      · obtain ⟨c', hc, ht⟩ := Outcome.bind_eq_ok.mp hst
        obtain rfl := Except.ok.inj ht
        obtain ⟨loop, -, hc⟩ := Outcome.bind_eq_ok.mp hc
        obtain rfl := Except.ok.inj ((if_pos rfl).symm.trans hc)
        exact ⟨hclient, hconn⟩
      · obtain ⟨⟨taken, c'⟩, hw, ht⟩ := Outcome.bind_eq_ok.mp hst
        obtain rfl := Except.ok.inj ht
        obtain ⟨fin, obuf, hloop, ⟨-, rfl⟩ | ⟨hfin, rfl⟩ | ⟨-, loop, -, rfl⟩⟩ :=
          TcpClient.doWrite_cases hw
        · exact ⟨hclient, hconn⟩
        · exact absurd hfin (writeLoop_ne_failed hres hloop)
        · exact ⟨hclient, hconn⟩
      · obtain rfl := Except.ok.inj hst
        exact ⟨hclient, hconn⟩
  | connWrites res =>
      simp only [Duplex.step] at hst
      split at hst
      · obtain ⟨⟨taken, c'⟩, hw, ht⟩ := Outcome.bind_eq_ok.mp hst
        obtain rfl := Except.ok.inj ht
        obtain ⟨fin, obuf, hloop, ⟨-, rfl⟩ | ⟨hfin, rfl⟩ | ⟨-, loop, -, rfl⟩⟩ :=
          TcpConn.doWrite_cases hw
        · exact ⟨hclient, hconn⟩
        · exact absurd hfin (writeLoop_ne_failed hop hloop)
        · exact ⟨hclient, hconn⟩
      · obtain rfl := Except.ok.inj hst
        exact ⟨hclient, hconn⟩
  | connReads chunk =>
      obtain ⟨c', hd, hopen, -⟩ :=
        connReader.doRead_spec chunk s.conn (decide_eq_true hconn) hlive.up.inp
      change s.conn.doRead chunk.pool.1 _ = _ at hd
      simp only [Duplex.step, hd, Outcome.ok_bind] at hst
      obtain rfl := Except.ok.inj hst
      exact ⟨hclient, of_decide_eq_true (hopen.trans (hlive.up.carries.parse_ok hup he.2.2))⟩
  | clientReads chunk =>
      obtain ⟨c', hd, hopen, -⟩ :=
        (clientReader nlMsgmax).doRead_spec chunk s.client (decide_eq_true hclient) hlive.down.inp
      change s.client.doRead nlMsgmax chunk.pool.1 _ = _ at hd
      simp only [Duplex.step, hd, Outcome.ok_bind] at hst
      obtain rfl := Except.ok.inj hst
      exact ⟨of_decide_eq_true (hopen.trans (hlive.down.carries.parse_ok hdown he.2.2)), hconn⟩
  | clientHangs => exact absurd hop id
  | connHangs => exact absurd hop id

theorem sent_of_step {op : DuplexOp} (hst : s.step nlMsgmax op = .ok t) :
    (∀ m ∈ t.up.sent, m ∈ s.up.sent ∨ ∃ p₁ p₂, op = .request p₁ p₂ m) ∧
      ∀ m ∈ t.down.sent, m ∈ s.down.sent ∨ ∃ p₁ p₂, op = .respond p₁ p₂ m := by
  have hkeep : t.up.sent = s.up.sent → t.down.sent = s.down.sent →
      (∀ m ∈ t.up.sent, m ∈ s.up.sent ∨ ∃ p₁ p₂, op = .request p₁ p₂ m) ∧
        ∀ m ∈ t.down.sent, m ∈ s.down.sent ∨ ∃ p₁ p₂, op = .respond p₁ p₂ m := by
    intro hup hdown
    rw [hup, hdown]
    exact ⟨fun _ hm ↦ .inl hm, fun _ hm ↦ .inl hm⟩
  cases op with
  | request p₁ p₂ m =>
      simp only [Duplex.step, Outcome.bind_eq_ok] at hst
      obtain ⟨p, -, ht⟩ := hst
      obtain rfl := Except.ok.inj ht
      refine ⟨fun m' hm' ↦ (List.mem_append.mp hm').imp_right fun hm' ↦ ?_, fun _ hm' ↦ .inl hm'⟩
      obtain rfl := List.mem_singleton.mp hm'
      exact ⟨p₁, p₂, rfl⟩
  | respond p₁ p₂ m =>
      simp only [Duplex.step, Outcome.bind_eq_ok] at hst
      obtain ⟨p, -, ht⟩ := hst
      obtain rfl := Except.ok.inj ht
      refine ⟨fun _ hm' ↦ .inl hm', fun m' hm' ↦ (List.mem_append.mp hm').imp_right fun hm' ↦ ?_⟩
      obtain rfl := List.mem_singleton.mp hm'
      exact ⟨p₁, p₂, rfl⟩
  | clientWrites soError res =>
      simp only [Duplex.step] at hst
      split at hst
      · obtain ⟨c', -, ht⟩ := Outcome.bind_eq_ok.mp hst
        obtain rfl := Except.ok.inj ht
        exact hkeep rfl rfl
      · obtain ⟨p, -, ht⟩ := Outcome.bind_eq_ok.mp hst
        obtain rfl := Except.ok.inj ht
        exact hkeep rfl rfl
      · obtain rfl := Except.ok.inj hst
        exact hkeep rfl rfl
  | connWrites res =>
      simp only [Duplex.step] at hst
      split at hst
      · obtain ⟨p, -, ht⟩ := Outcome.bind_eq_ok.mp hst
        obtain rfl := Except.ok.inj ht
        exact hkeep rfl rfl
      · obtain rfl := Except.ok.inj hst
        exact hkeep rfl rfl
  | connReads chunk =>
      simp only [Duplex.step, Outcome.bind_eq_ok] at hst
      obtain ⟨p, -, ht⟩ := hst
      obtain rfl := Except.ok.inj ht
      exact hkeep rfl rfl
  | clientReads chunk =>
      simp only [Duplex.step, Outcome.bind_eq_ok] at hst
      obtain ⟨p, -, ht⟩ := hst
      obtain rfl := Except.ok.inj ht
      exact hkeep rfl rfl
  | clientHangs | connHangs =>
      obtain rfl := Except.ok.inj hst
      exact hkeep rfl rfl

/-- Smooth steps keep the streams flowing. -/
theorem Flows.step {op : DuplexOp} (h : s.Flows nlMsgmax) (he : s.Enabled op)
    (hop : op.Smooth nlMsgmax) (hst : s.step nlMsgmax op = .ok t) : t.Flows nlMsgmax := by
  have hopen := h.open_step he hop hst
  obtain ⟨t', hst', hlive⟩ := h.live.step he
  obtain rfl := Except.ok.inj (hst'.symm.trans hst)
  obtain ⟨hup, hdown⟩ := sent_of_step hst
  refine ⟨hopen, hlive hopen, fun m hm ↦ ?_, fun m hm ↦ ?_⟩
  · rcases hup m hm with hm | ⟨p₁, p₂, rfl⟩
    · exact h.up m hm
    · exact ⟨hop, he.2⟩
  · rcases hdown m hm with hm | ⟨p₁, p₂, rfl⟩
    · exact h.down m hm
    · exact ⟨hop, he.2⟩

/-- In a run of smooth steps the streams flow. -/
theorem flows_of_reachable
    (h : ((duplex nlMsgmax).restrict fun _ op ↦ op.Smooth nlMsgmax).Reachable s) :
    s.Flows nlMsgmax := by
  refine h.induction (I := Flows nlMsgmax) ?_ ?_
  · rintro s ⟨loop, sockfd, connLoop, connfd, hsock, hconn, rfl⟩
    exact ⟨⟨hsock, hconn, by simp [Duplex.new, TcpConn.new]⟩, .new _ _ _ _,
      fun _ hm ↦ absurd hm List.not_mem_nil, fun _ hm ↦ absurd hm List.not_mem_nil⟩
  · rintro s op t - hi ⟨hop, he, hst⟩
    exact hi.step he hop hst

/-- A request that is sent before the connection is there, and its response, which is cut
inside its head. -/
def exchange : List DuplexOp :=
  [.request exactPool exactPool ⟨1, [8, 1]⟩, .clientWrites 0 [], .clientWrites 0 [.wrote 100],
    .connReads ⟨exactPool, [1, 0, 0, 0, 2, 0, 0, 0, 8, 1], by decide⟩,
    .respond exactPool exactPool ⟨2, [8, 1]⟩, .connWrites [.wrote 5],
    .clientReads ⟨exactPool, [2, 0, 0, 0, 2], by decide⟩, .connWrites [.wrote 100],
    .clientReads ⟨exactPool, [0, 0, 0, 8, 1], by decide⟩]

/-- The state after a step, if it succeeds. -/
def next (nlMsgmax : Int) (s : Duplex) (op : DuplexOp) : Duplex :=
  (s.step nlMsgmax op).toOption.getD s

theorem next_step {op : DuplexOp} (h : (s.step nlMsgmax op).toOption.isSome = true) :
    s.step nlMsgmax op = .ok (s.next nlMsgmax op) := by
  obtain ⟨t, ht⟩ := Option.isSome_iff_exists.mp h
  rw [next, ht]
  exact Outcome.toOption_eq_some.mp ht

/-- The connection after the exchange. -/
def exchanged : Duplex := exchange.foldl (next 121) (new .new 3 .new 5)

theorem exchanged_reachable : (duplex 121).Reachable exchanged := by
  have hnew : (duplex 121).Reachable (new .new 3 .new 5) :=
    .init ⟨_, 3, _, 5, by decide, by decide, rfl⟩
  refine hnew.run (LTS.Run.foldl
    (C := fun s op ↦ s.Enabled op ∧ (s.step 121 op).toOption.isSome = true) ?_ ?_)
  · rintro s op ⟨he, h⟩
    exact ⟨he, next_step h⟩
  · exact ⟨⟨by decide, rfl⟩, ⟨by decide, rfl⟩, ⟨by decide, rfl⟩, ⟨by decide, rfl⟩, ⟨by decide, rfl⟩,
      ⟨by decide, rfl⟩, ⟨by decide, rfl⟩, ⟨by decide, rfl⟩, ⟨by decide, rfl⟩, trivial⟩

theorem both_ways_exchanged :
    exchanged.up.received = [⟨1, [8, 1]⟩] ∧ exchanged.down.received = [⟨2, [8, 1]⟩] := by
  obtain ⟨-, hup, hdown, -⟩ := both_ways exchanged_reachable (by decide)
  exact ⟨hup rfl rfl, hdown rfl rfl⟩

end Duplex

end Ylars.Reactor
