import Ylars.Reactor.Delivery
import Ylars.Reactor.PendingOutput
import Ylars.Reactor.SocketCalls

/-!
# Transient results of the socket

A connected endpoint whose callbacks run in any order, with system calls that give some
bytes, are interrupted, or would block.  `Exchange` keeps beside the endpoint what the calls
have transferred, and `Harmless` says that the endpoint is live and that the bytes it
started with and those transferred since are all accounted for.

`do_write` takes the 0 of `write2fd` for a socket that takes no more at the moment.
`do_read` takes the 0 of `readfd` for the end of the stream, so a `read` that would block
tears the connection down.
-/

namespace Ylars.Reactor

open Ylars.Lib ReactorBuf

/-! ## The callbacks, with every attempt at a system call -/

namespace Endpoint

/-- The input buffer. -/
def ibuf : Endpoint → InBuf
  | .conn c => c.ibuf
  | .client c => c.ibuf

/-- The bound that `do_read` compares a length with. -/
def limit (nlMsgmax : Int) : Endpoint → Int
  | .conn _ => msgMaxLimit
  | .client _ => nlMsgmax

/-- The endpoint with another input buffer. -/
def withIbuf (ibuf : InBuf) : Endpoint → Endpoint
  | .conn c => .conn { c with ibuf := ibuf }
  | .client c => .client { c with ibuf := ibuf }

/-- The endpoint with another output buffer. -/
def withObuf (obuf : OutBuf) : Endpoint → Endpoint
  | .conn c => .conn { c with obuf := obuf }
  | .client c => .client { c with obuf := obuf }

/-- `clean`. -/
def clean : Endpoint → Endpoint
  | .conn c => .conn c.clean
  | .client c => .client c.clean

/-- `clean` does something: it looks at the descriptor. -/
def Open : Endpoint → Prop
  | .conn c => 0 < c.sockfd
  | .client c => 0 ≤ c.sockfd

/-- The removal of the write event. -/
def delWritable : Endpoint → Outcome Endpoint
  | .conn c => do
      let loop ← c.loop.delEventMask c.sockfd .writable
      return .conn { c with loop := loop }
  | .client c => do
      let loop ← c.loop.delEventMask c.sockfd .writable
      return .client { c with loop := loop }

/-- `do_read`, with every attempt to `read`. -/
def doReadCall (nlMsgmax : Int) (alloc : Alloc) (call : ReadCall) (s : Endpoint) :
    Outcome (List Message × Endpoint) := do
  let (readlen, ibuf) ← InBuf.readfdCall alloc call s.ibuf
  let (fin, ms, ibuf) ← routeMsgs (s.limit nlMsgmax) readlen ibuf
  match fin with
  | .more => return (ms, s.withIbuf ibuf)
  | _ => return (ms, (s.withIbuf ibuf).clean)

/-- `do_write`, with every attempt to `write`. -/
def doWriteCalls (calls : List (Attempt WriteResult)) (s : Endpoint) :
    Outcome (List UInt8 × Endpoint) := do
  let (fin, taken, obuf) ← writeLoopCalls calls s.obuf
  match fin with
  | .blocked => return (taken, s.withObuf obuf)
  | .failed => return (taken, (s.withObuf obuf).clean)
  | .done => do
      let s ← (s.withObuf obuf).delWritable
      return (taken, s)

/-- `connect_ser` of a client whose connection is there. -/
def connectSer : Endpoint → Outcome Endpoint
  | .conn c => .ok (.conn c)
  | .client c => do
      let c ← c.connectSer 0
      return .client c

/-- The client waits for its connection. -/
def Connecting : Endpoint → Prop
  | .conn _ => False
  | .client c => c.loop.registered c.sockfd .epollout = some .connectSer

instance (s : Endpoint) : Decidable s.Connecting :=
  match s with
  | .conn _ => inferInstanceAs (Decidable False)
  | .client c =>
      inferInstanceAs (Decidable (c.loop.registered c.sockfd .epollout = some .connectSer))

variable {nlMsgmax : Int} {s t : Endpoint} {alloc : Alloc} {call : ReadCall}
  {calls : List (Attempt WriteResult)} {buf : ReactorBuf}

/-- For a socket that gives what is pending, this is `do_read`. -/
theorem doReadCall_eq {fd : Socket} (hneed : call.needRead = fd.needRead)
    (hread : ∀ k b, fd.needRead = some k → s.ibuf.reserve alloc k = .ok (some b) →
      call.answer = fd.read (readSize k b)) :
    (s.doReadCall nlMsgmax alloc call).map Prod.snd = s.step nlMsgmax (.doRead alloc fd) := by
  rw [doReadCall, InBuf.readfdCall_eq hneed hread]
  cases s with
  | conn c =>
      simp only [Endpoint.step, TcpConn.doRead, readMsgs_eq, ibuf, limit]
      cases InBuf.readfd alloc fd c.ibuf with
      | error e => rfl
      | ok r =>
          simp only [Outcome.ok_bind]
          cases routeMsgs msgMaxLimit r.1 r.2 with
          | error e => rfl
          | ok r => cases hfin : r.1 <;> simp only [Outcome.ok_bind, hfin] <;> rfl
  | client c =>
      simp only [Endpoint.step, TcpClient.doRead, readMsgs_eq, ibuf, limit]
      cases InBuf.readfd alloc fd c.ibuf with
      | error e => rfl
      | ok r =>
          simp only [Outcome.ok_bind]
          cases routeMsgs nlMsgmax r.1 r.2 with
          | error e => rfl
          | ok r => cases hfin : r.1 <;> simp only [Outcome.ok_bind, hfin] <;> rfl

/-- `do_write` with the calls to `write` is `do_write` on the answers. -/
theorem doWriteCalls_eq (nlMsgmax : Int) (s : Endpoint) (calls : List (Attempt WriteResult)) :
    (s.doWriteCalls calls).map Prod.snd =
      s.step nlMsgmax (.doWrite (Attempt.answers calls)) := by
  rw [doWriteCalls, writeLoopCalls_eq]
  cases s with
  | conn c =>
      simp only [Endpoint.step, TcpConn.doWrite, obuf]
      cases writeLoop (Attempt.answers calls) c.obuf with
      | error e => rfl
      | ok r =>
          simp only [Outcome.ok_bind]
          cases r.1 with
          | blocked | failed => rfl
          | done =>
              simp only [delWritable, withObuf]
              cases c.loop.delEventMask c.sockfd .writable <;> rfl
  | client c =>
      simp only [Endpoint.step, TcpClient.doWrite, obuf]
      cases writeLoop (Attempt.answers calls) c.obuf with
      | error e => rfl
      | ok r =>
          simp only [Outcome.ok_bind]
          cases r.1 with
          | blocked | failed => rfl
          | done =>
              simp only [delWritable, withObuf]
              cases c.loop.delEventMask c.sockfd .writable <;> rfl

/-! ### The parts of an endpoint -/

@[simp] theorem ibuf_withIbuf : (s.withIbuf buf).ibuf = buf := by cases s <;> rfl

@[simp] theorem obuf_withIbuf : (s.withIbuf buf).obuf = s.obuf := by cases s <;> rfl

@[simp] theorem ibuf_withObuf : (s.withObuf buf).ibuf = s.ibuf := by cases s <;> rfl

@[simp] theorem obuf_withObuf : (s.withObuf buf).obuf = buf := by cases s <;> rfl

@[simp] theorem live_withIbuf : (s.withIbuf buf).Live ↔ s.Live := by cases s <;> rfl

@[simp] theorem live_withObuf : (s.withObuf buf).Live ↔ s.Live := by cases s <;> rfl

@[simp] theorem open_withIbuf : (s.withIbuf buf).Open ↔ s.Open := by cases s <;> rfl

/-- `clean` tears an open endpoint down. -/
theorem not_live_clean (h : s.Open) : ¬s.clean.Live := by
  cases s with
  | conn c =>
      have hpos : 0 < c.sockfd := h
      rw [clean, TcpConn.clean, if_pos hpos]
      exact fun hl ↦ hl (by simp)
  | client c =>
      have hpos : 0 ≤ c.sockfd := h
      rw [clean, TcpClient.clean, if_pos hpos]
      exact fun hl ↦ absurd (show (0 : Int) ≤ -1 from hl) (by decide)

/-! ### What the callbacks do -/

/-- `do_read` of a whole answer parses the bytes held together with those given. -/
theorem doReadCall_of_whole (h : s.ibuf.Ready) (ha : FreshAlloc alloc)
    (hl : call.Lawful alloc s.ibuf) (hg : call.Granted alloc s.ibuf)
    (ht : call.answer.Transient) (hw : call.Whole)
    (hok : ((framing (s.limit nlMsgmax)).parse
      (s.ibuf.content ++ call.answer.transferred)).2.2 = true) :
    ∃ ms ibuf, s.doReadCall nlMsgmax alloc call = .ok (ms, s.withIbuf ibuf) ∧ ibuf.Ready ∧
      s.ibuf.content ++ call.answer.transferred = ms.flatMap Message.bytes ++ ibuf.content := by
  obtain ⟨readlen, ibuf₁, hrd, hpos, hr₁, hc₁⟩ := InBuf.readfdCall_of_whole h ha hl hg ht hw
  obtain ⟨ibuf₂, hroute, -, hbuf₂⟩ := routeMsgs_spec (s.limit nlMsgmax) hr₁ hpos
  rw [hc₁] at hroute hbuf₂
  rw [if_pos hok] at hroute
  obtain ⟨hr₂, hc₂⟩ := hbuf₂ hok
  refine ⟨((framing (s.limit nlMsgmax)).parse
    (s.ibuf.content ++ call.answer.transferred)).1, ibuf₂, ?_, hr₂, ?_⟩
  · simp only [doReadCall, hrd, hroute, Outcome.ok_bind]
    rfl
  · rw [hc₂]
    exact (Framing.parseN_sound (S := framing (s.limit nlMsgmax)) _ _).1

/-- `do_read` tears an open endpoint down when `readfd` has read nothing. -/
theorem not_live_of_readfdCall {readlen : Int} {ibuf' : InBuf} {ms : List Message}
    (hrd : InBuf.readfdCall alloc call s.ibuf = .ok (readlen, ibuf')) (hle : readlen ≤ 0)
    (hopen : s.Open) (hst : s.doReadCall nlMsgmax alloc call = .ok (ms, t)) : ¬t.Live := by
  obtain ⟨fin, hroute, hfin⟩ := routeMsgs_of_nonpos (s.limit nlMsgmax) ibuf' hle
  simp only [doReadCall, hrd, hroute, Outcome.ok_bind] at hst
  have hclean : ¬(s.withIbuf ibuf').clean.Live := not_live_clean (open_withIbuf.mpr hopen)
  cases fin with
  | more => exact absurd rfl hfin
  | closed | failed | abnormal =>
      obtain rfl := (Prod.mk.inj (Except.ok.inj hst)).2
      exact hclean

/-- `do_read` of any other transient answer tears an open endpoint down, or its assertion
does not hold. -/
theorem doReadCall_of_not_whole (h : s.ibuf.Ready) (ha : FreshAlloc alloc)
    (hl : call.Lawful alloc s.ibuf) (hg : call.Granted alloc s.ibuf)
    (ht : call.answer.Transient) (hw : ¬call.Whole) (hopen : s.Open) {ms : List Message}
    (hst : s.doReadCall nlMsgmax alloc call = .ok (ms, t)) : ¬t.Live := by
  rcases InBuf.readfdCall_of_not_whole h ha hl hg ht hw with hrd | ⟨ibuf', hrd⟩
  · rw [doReadCall, hrd] at hst
    cases hst
  · exact not_live_of_readfdCall hrd le_rfl hopen hst

/-- `do_read` without its memory tears an open endpoint down, faults, or has dropped the bytes
held. -/
theorem doReadCall_of_not_granted (h : s.ibuf.Ready) (ha : FreshAlloc alloc)
    (hl : call.Lawful alloc s.ibuf) (ht : call.answer.Transient)
    (hg : ¬call.Granted alloc s.ibuf) (hopen : s.Open) {ms : List Message}
    (hst : s.doReadCall nlMsgmax alloc call = .ok (ms, t)) :
    ¬t.Live ∨
      (call.answer.transferred = ms.flatMap Message.bytes ++ t.ibuf.content ∧
        s.ibuf.content ≠ []) := by
  rcases InBuf.readfdCall_of_not_granted h ha hl ht hg with
    ⟨e, hrd⟩ | ⟨readlen, ibuf₁, hrd, hle⟩ | ⟨readlen, ibuf₁, hrd, hpos, hr₁, hc₁, hne⟩
  · rw [doReadCall, hrd] at hst
    cases hst
  · exact .inl (not_live_of_readfdCall hrd hle hopen hst)
  · obtain ⟨ibuf₂, hroute, -, hbuf₂⟩ := routeMsgs_spec (s.limit nlMsgmax) hr₁ hpos
    rw [hc₁] at hroute hbuf₂
    simp only [doReadCall, hrd, hroute, Outcome.ok_bind] at hst
    cases hok : ((framing (s.limit nlMsgmax)).parse call.answer.transferred).2.2 with
    | false =>
        left
        rw [hok] at hst
        obtain rfl := (Prod.mk.inj (Except.ok.inj hst)).2
        exact not_live_clean (open_withIbuf.mpr hopen)
    | true =>
        right
        rw [hok] at hst
        obtain ⟨rfl, rfl⟩ := Prod.mk.inj (Except.ok.inj hst)
        refine ⟨?_, hne⟩
        rw [ibuf_withIbuf, (hbuf₂ hok).2]
        exact (Framing.parseN_sound (S := framing (s.limit nlMsgmax)) _ _).1

/-- The registered write event can be removed. -/
theorem exists_delWritable (h : s.WriteRegistered) :
    ∃ t, s.delWritable = .ok t ∧ (t.Live ↔ s.Live) ∧ t.ibuf = s.ibuf ∧ t.obuf = s.obuf := by
  cases s with
  | conn c =>
      obtain ⟨loop, hdel⟩ := EventLoop.exists_delEventMask .writable h
      exact ⟨.conn { c with loop := loop }, by rw [delWritable, hdel]; rfl, .rfl, rfl, rfl⟩
  | client c =>
      obtain ⟨loop, hdel⟩ := EventLoop.exists_delEventMask .writable h
      exact ⟨.client { c with loop := loop }, by rw [delWritable, hdel]; rfl, .rfl, rfl, rfl⟩

/-- `do_write` with transient answers takes off the output buffer the bytes that the calls
have taken. -/
theorem doWriteCalls_transient (h : s.obuf.Ready) (hreg : s.WriteRegistered)
    (ht : ∀ r ∈ Attempt.answers calls, r.Transient) :
    ∃ t, s.doWriteCalls calls =
        .ok (s.obuf.content.take (transferred (Attempt.answers calls)), t) ∧
      (t.Live ↔ s.Live) ∧ t.ibuf = s.ibuf ∧ t.obuf.Ready ∧
      t.obuf.content = s.obuf.content.drop (transferred (Attempt.answers calls)) := by
  obtain ⟨fin, obuf', hw, hfin, hr, hc⟩ := writeLoop_transient ht h
  simp only [doWriteCalls, writeLoopCalls_eq, hw, Outcome.ok_bind]
  cases fin with
  | blocked => exact ⟨s.withObuf obuf', rfl, by simp, by simp, by simpa, by simpa⟩
  | failed => exact absurd rfl hfin
  | done =>
      obtain ⟨t, hdel, hlive, hi, ho⟩ :=
        exists_delWritable (s := s.withObuf obuf') (by cases s <;> exact hreg)
      rw [live_withObuf] at hlive
      rw [ibuf_withObuf] at hi
      rw [obuf_withObuf] at ho
      subst ho
      exact ⟨t, by rw [hdel]; rfl, hlive, hi, hr, hc⟩

/-- `connect_ser` leaves the buffers alone. -/
theorem connectSer_connecting (h : s.Connecting) :
    ∃ t, s.connectSer = .ok t ∧ (t.Live ↔ s.Live) ∧ t.ibuf = s.ibuf ∧ t.obuf = s.obuf := by
  cases s with
  | conn c => exact h.elim
  | client c =>
      obtain ⟨loop, hdel⟩ := EventLoop.exists_delEventMask .writable h
      obtain ⟨c', hc, hfd, hi, ho⟩ : ∃ c', c.connectSer 0 = .ok c' ∧ c'.sockfd = c.sockfd ∧
          c'.ibuf = c.ibuf ∧ c'.obuf = c.obuf := by
        rw [TcpClient.connectSer, hdel]
        exact ⟨_, rfl, rfl, rfl, rfl⟩
      exact ⟨.client c', by rw [connectSer, hc]; rfl, by rw [Live, Live, hfd], hi, ho⟩

/-- `send_msg` with an ample pool appends the message. -/
theorem sendMsg_ample (h : s.obuf.Ready) (p₁ p₂ : AmplePool) {m : Message} (hm : m.data ≠ []) :
    ∃ t, s.sendMsg p₁.1 p₂.1 m = .ok (0, t) ∧ (t.Live ↔ s.Live) ∧ t.ibuf = s.ibuf ∧
      t.obuf.Ready ∧ t.obuf.content = s.obuf.content ++ m.bytes := by
  obtain ⟨buf', happ, hr, hc⟩ := appendMsg_ample h p₁.2 p₂.2 hm
  cases s with
  | conn c =>
      refine ⟨.conn { c with
        obuf := buf'
        loop := c.loop.addEvent c.sockfd .writable .writeCb }, ?_, .rfl, rfl, hr, hc⟩
      rw [sendMsg, TcpConn.sendMsg, show appendMsg _ _ m c.obuf = _ from happ]
      rfl
  | client c =>
      refine ⟨.client { c with
        obuf := buf'
        loop := c.loop.addEvent c.sockfd .writable .writeCb }, ?_, .rfl, rfl, hr, hc⟩
      rw [sendMsg, TcpClient.sendMsg, show appendMsg _ _ m c.obuf = _ from happ]
      rfl

end Endpoint

/-! ## The runs -/

/-- An endpoint with what its system calls have transferred. -/
structure Exchange where
  endpoint : Endpoint
  /-- The bytes that the calls of `read` have given. -/
  received : List UInt8
  /-- The messages handed to the router. -/
  routed : List Message
  /-- The bytes of the messages given to `send_msg`. -/
  queued : List UInt8
  /-- The bytes that the calls of `write` have taken. -/
  sent : List UInt8

/-- The callbacks of the event loop, and `send_msg` between them. -/
inductive ExchangeOp where
  /-- `read_cb`. -/
  | readable (alloc : Alloc) (call : ReadCall)
  /-- `write_cb`. -/
  | writable (calls : List (Attempt WriteResult))
  /-- `connect_ser`, when the connection is there. -/
  | connected
  /-- `send_msg`. -/
  | send (p₁ p₂ : AmplePool) (m : Message)

namespace Exchange

/-- Nothing is transferred yet. -/
def new (e : Endpoint) : Exchange where
  endpoint := e
  received := []
  routed := []
  queued := []
  sent := []

/-- One step. -/
def step (nlMsgmax : Int) (s : Exchange) : ExchangeOp → Outcome Exchange
  | .readable alloc call => do
      let (ms, e) ← s.endpoint.doReadCall nlMsgmax alloc call
      return { s with
        endpoint := e
        received := s.received ++ call.answer.transferred
        routed := s.routed ++ ms }
  | .writable calls => do
      let (_, e) ← s.endpoint.doWriteCalls calls
      return { s with
        endpoint := e
        sent := s.sent ++
          s.endpoint.obuf.content.take (transferred (Attempt.answers calls)) }
  | .connected => do
      let e ← s.endpoint.connectSer
      return { s with endpoint := e }
  | .send p₁ p₂ m => do
      let (_, e) ← s.endpoint.sendMsg p₁.1 p₂.1 m
      return { s with endpoint := e, queued := s.queued ++ m.bytes }

/-- When a step can be taken: every answer of a system call is transient, the pool gives unused
blocks, the heads received are legal, and a write callback runs when it is registered. -/
def Enabled (nlMsgmax : Int) (s : Exchange) : ExchangeOp → Prop
  | .readable alloc call =>
      FreshAlloc alloc ∧ call.Lawful alloc s.endpoint.ibuf ∧
        (∀ r ∈ Attempt.answers call.attempts, r.Transient) ∧
        ((framing (s.endpoint.limit nlMsgmax)).parse
          (s.endpoint.ibuf.content ++ call.answer.transferred)).2.2 = true
  | .writable calls => s.endpoint.WriteRegistered ∧ ∀ r ∈ Attempt.answers calls, r.Transient
  | .connected => s.endpoint.Connecting
  | .send _ _ m => m.data ≠ []

/-- What a step needs to be harmless: `do_read` gets its memory, and a whole answer. -/
def Provided (s : Exchange) : ExchangeOp → Prop
  | .readable alloc call => call.Granted alloc s.endpoint.ibuf ∧ call.Whole
  | _ => True

/-- The endpoint is live, and no byte is lost or made up: those it started with and those
received since are the messages routed and what the input buffer holds, and those it started
with and those queued since are what is sent and what the output buffer holds. -/
structure Harmless (e₀ : Endpoint) (s : Exchange) : Prop where
  live : s.endpoint.Live
  received : e₀.ibuf.content ++ s.received =
    s.routed.flatMap Message.bytes ++ s.endpoint.ibuf.content
  sent : e₀.obuf.content ++ s.queued = s.sent ++ s.endpoint.obuf.content

/-- What every step that is provided for keeps. -/
structure Inv (e₀ : Endpoint) (s : Exchange) : Prop extends s.Harmless e₀ where
  ibuf : s.endpoint.ibuf.Ready
  obuf : s.endpoint.obuf.Ready

variable {nlMsgmax : Int} {e₀ : Endpoint} {s t : Exchange} {alloc : Alloc} {call : ReadCall}
  {op : ExchangeOp}

theorem transient_answer (he : s.Enabled nlMsgmax (.readable alloc call)) :
    call.answer.Transient :=
  Attempt.retry_of_forall rfl he.2.2.1

theorem inv_new (hl : e₀.Live) (hi : e₀.ibuf.Ready) (ho : e₀.obuf.Ready) :
    (new e₀).Inv e₀ where
  live := hl
  received := by simp [new]
  sent := by simp [new]
  ibuf := hi
  obuf := ho

theorem Inv.readable (h : s.Inv e₀) (he : s.Enabled nlMsgmax (.readable alloc call))
    (hp : s.Provided (.readable alloc call)) :
    ∃ t, s.step nlMsgmax (.readable alloc call) = .ok t ∧ t.Inv e₀ := by
  obtain ⟨ha, hl, -, hok⟩ := id he
  obtain ⟨ms, ibuf', hst, hr, hc⟩ :=
    Endpoint.doReadCall_of_whole h.ibuf ha hl hp.1 (transient_answer he) hp.2 hok
  simp only [step, hst, Outcome.ok_bind]
  refine ⟨_, rfl,
    { live := Endpoint.live_withIbuf.mpr h.live
      received := ?_
      sent := by simpa using h.sent
      ibuf := by simpa using hr
      obuf := by simpa using h.obuf }⟩
  simp only [Endpoint.ibuf_withIbuf, List.flatMap_append]
  rw [← List.append_assoc, h.received, List.append_assoc, hc, List.append_assoc]

theorem Inv.writable {calls : List (Attempt WriteResult)} (h : s.Inv e₀)
    (he : s.Enabled nlMsgmax (.writable calls)) :
    ∃ t, s.step nlMsgmax (.writable calls) = .ok t ∧ t.Inv e₀ := by
  obtain ⟨e, hst, hlive, hi, hr, hc⟩ := Endpoint.doWriteCalls_transient h.obuf he.1 he.2
  simp only [step, hst, Outcome.ok_bind]
  refine ⟨_, rfl,
    { live := hlive.mpr h.live
      received := by rw [h.received, ← hi]
      sent := ?_
      ibuf := hi ▸ h.ibuf
      obuf := hr }⟩
  simp only
  rw [h.sent, hc, List.append_assoc, List.take_append_drop]

theorem Inv.connected (h : s.Inv e₀) (he : s.Enabled nlMsgmax .connected) :
    ∃ t, s.step nlMsgmax .connected = .ok t ∧ t.Inv e₀ := by
  obtain ⟨e, hst, hlive, hi, ho⟩ := Endpoint.connectSer_connecting he
  simp only [step, hst, Outcome.ok_bind]
  exact ⟨_, rfl,
    { live := hlive.mpr h.live
      received := by rw [h.received, ← hi]
      sent := by rw [h.sent, ← ho]
      ibuf := hi ▸ h.ibuf
      obuf := ho ▸ h.obuf }⟩

theorem Inv.send {p₁ p₂ : AmplePool} {m : Message} (h : s.Inv e₀)
    (he : s.Enabled nlMsgmax (.send p₁ p₂ m)) :
    ∃ t, s.step nlMsgmax (.send p₁ p₂ m) = .ok t ∧ t.Inv e₀ := by
  obtain ⟨e, hst, hlive, hi, hr, hc⟩ := Endpoint.sendMsg_ample h.obuf p₁ p₂ he
  simp only [step, hst, Outcome.ok_bind]
  refine ⟨_, rfl,
    { live := hlive.mpr h.live
      received := by rw [h.received, ← hi]
      sent := ?_
      ibuf := hi ▸ h.ibuf
      obuf := hr }⟩
  simp only
  rw [← List.append_assoc, h.sent, hc, List.append_assoc]

/-- Every step that is provided for succeeds and keeps the invariant. -/
theorem Inv.step (h : s.Inv e₀) (he : s.Enabled nlMsgmax op) (hp : s.Provided op) :
    ∃ t, s.step nlMsgmax op = .ok t ∧ t.Inv e₀ := by
  cases op with
  | readable alloc call => exact h.readable he hp
  | writable calls => exact h.writable he
  | connected => exact h.connected he
  | send p₁ p₂ m => exact h.send he

/-- A `read_cb` that is not provided for is never harmless. -/
theorem Inv.not_harmless (h : s.Inv e₀) (he : s.Enabled nlMsgmax (.readable alloc call))
    (hopen : s.endpoint.Open) (hp : ¬s.Provided (.readable alloc call))
    (hst : s.step nlMsgmax (.readable alloc call) = .ok t) : ¬t.Harmless e₀ := by
  intro ht
  obtain ⟨ha, hl, -⟩ := id he
  obtain ⟨⟨ms, e⟩, hrd, hst⟩ := Outcome.bind_eq_ok.mp hst
  obtain rfl := Except.ok.inj hst
  by_cases hg : call.Granted alloc s.endpoint.ibuf
  · exact Endpoint.doReadCall_of_not_whole h.ibuf ha hl hg (transient_answer he)
      (fun hw ↦ hp ⟨hg, hw⟩) hopen hrd ht.live
  · rcases Endpoint.doReadCall_of_not_granted h.ibuf ha hl (transient_answer he) hg hopen hrd with
      hdead | ⟨hnew, hne⟩
    · exact hdead ht.live
    · -- the bytes held before are missing
      have hall := ht.received
      simp only [List.flatMap_append] at hall
      rw [← List.append_assoc, h.received, List.append_assoc, List.append_assoc,
        List.append_cancel_left_eq, ← hnew, List.append_left_eq_self] at hall
      exact hne hall

/-- A step of an open endpoint is harmless exactly when it is provided for. -/
theorem Inv.step_iff (h : s.Inv e₀) (he : s.Enabled nlMsgmax op) (hopen : s.endpoint.Open) :
    (∃ t, s.step nlMsgmax op = .ok t ∧ t.Harmless e₀) ↔ s.Provided op := by
  constructor
  · rintro ⟨t, hst, ht⟩
    cases op with
    | readable alloc call => exact by_contra fun hp ↦ h.not_harmless he hopen hp hst ht
    | writable calls => trivial
    | connected => trivial
    | send p₁ p₂ m => trivial
  · intro hp
    obtain ⟨t, hst, ht⟩ := h.step he hp
    exact ⟨t, hst, ht.toHarmless⟩

end Exchange

/-- The runs of an endpoint whose system calls give transient results. -/
def transientRuns (nlMsgmax : Int) (e₀ : Endpoint) : LTS Exchange ExchangeOp where
  init s := s = .new e₀
  step s op t := s.Enabled nlMsgmax op ∧ s.step nlMsgmax op = .ok t

/-- The invariant holds in every run whose steps are provided for. -/
theorem Exchange.inv_of_reachable {nlMsgmax : Int} {e₀ : Endpoint} {s : Exchange} (hl : e₀.Live)
    (hi : e₀.ibuf.Ready) (ho : e₀.obuf.Ready)
    (h : ((transientRuns nlMsgmax e₀).restrict Provided).Reachable s) : s.Inv e₀ := by
  apply h.induction
  · rintro s rfl
    exact inv_new hl hi ho
  · rintro s op t - hinv ⟨hp, he, hst⟩
    exact Outcome.of_exists_ok (hinv.step he hp) hst

open Exchange

/-- **Transient results are harmless but for `EAGAIN` and short answers to `read`.**  In every
run of a live endpoint whose system calls give some bytes, are interrupted or would block, and
in which every `do_read` gets its memory and a whole answer, the endpoint stays live, all bytes
are accounted for, and every next callback of that kind succeeds.  Any other `do_read` of an
endpoint with an open descriptor is not harmless. -/
theorem transient_harmless_iff (nlMsgmax : Int) (e₀ : Endpoint) (hl : e₀.Live)
    (hi : e₀.ibuf.Ready) (ho : e₀.obuf.Ready) (s : Exchange)
    (h : ((transientRuns nlMsgmax e₀).restrict Provided).Reachable s) :
    s.Harmless e₀ ∧
    ∀ op, s.Enabled nlMsgmax op →
      (s.Provided op → ∃ t, s.step nlMsgmax op = .ok t) ∧
      (s.endpoint.Open →
        ((∃ t, s.step nlMsgmax op = .ok t ∧ t.Harmless e₀) ↔ s.Provided op)) := by
  have hinv := inv_of_reachable hl hi ho h
  refine ⟨hinv.toHarmless, fun op he ↦ ⟨fun hp ↦ ?_, hinv.step_iff he⟩⟩
  obtain ⟨t, hst, -⟩ := hinv.step he hp
  exact ⟨t, hst⟩

/-- The bytes `bs` are pending, and given at the second attempt. -/
def pendingCall (bs : List UInt8) : ReadCall where
  needRead := some bs.length
  attempts := [.eintr, .answer (.bytes bs)]

theorem pendingCall_spec {nlMsgmax : Int} {s : Exchange} (p : AmplePool) {bs : List UInt8}
    (hne : bs ≠ [])
    (hok : ((framing (s.endpoint.limit nlMsgmax)).parse
      (s.endpoint.ibuf.content ++ bs)).2.2 = true) :
    s.Provided (.readable p.1 (pendingCall bs)) ∧
      s.Enabled nlMsgmax (.readable p.1 (pendingCall bs)) := by
  have hpos : (bs.length : Int) ≠ 0 := Int.natCast_ne_zero.mpr fun h ↦
    hne (List.length_eq_zero_iff.mp h)
  refine ⟨⟨⟨_, rfl, p.2.room _ _, fun _ ↦ p.2.ne_none _⟩, _, rfl, bs, rfl, fun _ ↦ rfl⟩,
    p.2.fresh, ⟨fun k hk ↦ ?_, fun k b bs' hk _ hbs ↦ ?_⟩, fun r hr ↦ ?_, hok⟩
  · obtain rfl := Option.some.inj hk
    exact Int.natCast_nonneg _
  · obtain rfl := Option.some.inj hk
    obtain rfl := ReadResult.bytes.inj hbs
    rw [readSize, if_neg hpos]
  · obtain rfl := List.mem_singleton.mp hr
    exact hne

/-- A message arrives in two pieces while another one is written in two. -/
theorem transient_harmless_iff_pieces :
    ∃ s, ((transientRuns 100 accepted).restrict Provided).Reachable s ∧
      s.routed = [⟨7, [1, 2]⟩] ∧ s.sent = s.queued ∧ s.Harmless accepted := by
  have h₀ : ((transientRuns 100 accepted).restrict Provided).Reachable (.new accepted) := .init rfl
  have h₁ := h₀.step (a := .readable exactPool.1 (pendingCall [7, 0, 0]))
    ((pendingCall_spec exactPool (by decide) rfl).imp_right fun he ↦ ⟨he, rfl⟩)
  have h₂ := h₁.step (a := .send exactPool exactPool ⟨1, [7, 8]⟩)
    (by exact ⟨trivial, List.cons_ne_nil _ _, rfl⟩)
  have h₃ := h₂.step (a := .writable [.answer (.wrote 4), .eintr, .answer (.error .eagain)])
    (by exact ⟨trivial, ⟨by decide, by decide⟩, rfl⟩)
  have h₄ := h₃.step (a := .readable exactPool.1 (pendingCall [0, 2, 0, 0, 0, 1, 2]))
    ((pendingCall_spec exactPool (by decide) rfl).imp_right fun he ↦ ⟨he, rfl⟩)
  have h₅ := h₄.step (a := .writable [.eintr, .answer (.wrote 6)])
    (by exact ⟨trivial, ⟨by decide, by decide⟩, rfl⟩)
  exact ⟨_, h₅, rfl, rfl,
    (transient_harmless_iff 100 accepted (by decide) ready_none ready_none _ h₅).1⟩

/-- No byte is pending, and `read` is interrupted and then would block. -/
def blockedCall : ReadCall where
  needRead := some 0
  attempts := [.eintr, .answer (.error .eagain)]

theorem enabled_blockedCall {nlMsgmax : Int} {s : Exchange} (p : AmplePool)
    (hok : ((framing (s.endpoint.limit nlMsgmax)).parse s.endpoint.ibuf.content).2.2 = true) :
    s.Enabled nlMsgmax (.readable p.1 blockedCall) := by
  refine ⟨p.2.fresh, ⟨fun k hk ↦ ?_, fun k b bs _ _ hbs ↦ by cases hbs⟩, by decide, ?_⟩
  · obtain rfl := Option.some.inj hk
    exact le_rfl
  · rw [show s.endpoint.ibuf.content ++ blockedCall.answer.transferred = s.endpoint.ibuf.content
      from List.append_nil _]
    exact hok

/-- A client on descriptor 3 that waits for its connection. -/
def joining : Endpoint := .client (.new .new 3)

/-- A connection and a client, each with three bytes of a head in its buffer, are torn down by
a `read` that would block, and the bytes are gone. -/
theorem blockedRead_not_harmless :
    (accepted.Live ∧ ∃ t, (transientRuns 100 accepted).Reachable t ∧ ¬t.endpoint.Live ∧
      t.received = [7, 0, 0] ∧ t.routed = [] ∧ t.endpoint.ibuf.content = []) ∧
    joining.Live ∧ ∃ t, (transientRuns 100 joining).Reachable t ∧ ¬t.endpoint.Live ∧
      t.received = [7, 0, 0] ∧ t.routed = [] ∧ t.endpoint.ibuf.content = [] := by
  refine ⟨⟨by decide, ?_⟩, by decide, ?_⟩
  · have h₀ : (transientRuns 100 accepted).Reachable (.new accepted) := .init rfl
    have h₁ := h₀.step (a := .readable exactPool.1 (pendingCall [7, 0, 0]))
      ⟨(pendingCall_spec exactPool (by decide) rfl).2, rfl⟩
    have h₂ := h₁.step (a := .readable exactPool.1 blockedCall)
      ⟨enabled_blockedCall exactPool rfl, rfl⟩
    exact ⟨_, h₂, by decide, rfl, rfl, rfl⟩
  · have h₀ : (transientRuns 100 joining).Reachable (.new joining) := .init rfl
    have hconn : joining.Connecting := by decide
    have h₁ := h₀.step (a := .connected) (by exact ⟨hconn, rfl⟩)
    have h₂ := h₁.step (a := .readable exactPool.1 (pendingCall [7, 0, 0]))
      ⟨(pendingCall_spec exactPool (by decide) rfl).2, rfl⟩
    have h₃ := h₂.step (a := .readable exactPool.1 blockedCall)
      ⟨enabled_blockedCall exactPool rfl, rfl⟩
    exact ⟨_, h₃, by decide, rfl, rfl, rfl⟩

end Ylars.Reactor
