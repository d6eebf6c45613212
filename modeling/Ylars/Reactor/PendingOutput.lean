import Ylars.Lib.Transition
import Ylars.Reactor.Epoll
import Ylars.Reactor.TcpClient
import Ylars.Reactor.TcpConn

/-!
# Pending output

`send_msg` appends a head and a payload to the output buffer and then registers the write
event; `do_write` removes the event when the buffer is empty.  So a connected endpoint that
holds bytes should have the event registered, and a `send_msg` that fails should have
appended nothing.

`Armed` is what the two functions keep of the event table.  The two calls to `send_data`
can fail separately: the head of a message without payload is appended, and `send_data`
answers -1 to the empty payload.  A first block can only be refused to the head.
-/

namespace Ylars.Reactor

open Ylars.Lib ReactorBuf

/-! ## The event -/

/-- What `send_msg` and `do_write` keep of the event table, for a socket, an output buffer and
the write callback of the class. -/
structure Armed {κ : Type} (writeCb : κ) (loop : EventLoop κ) (sockfd : Int) (obuf : OutBuf) :
    Prop where
  coherent : loop.Coherent
  /-- The write event has no other callback. -/
  own : ∀ cb, loop.registered sockfd .epollout = some cb → cb = writeCb
  /-- With bytes pending it is registered. -/
  pending : 0 < obuf.length → loop.registered sockfd .epollout = some writeCb

namespace Armed

variable {κ : Type} {writeCb cb : κ} {loop loop' : EventLoop κ} {sockfd fd : Int}
  {obuf obuf' : OutBuf}

/-- `send_msg` registers the write event. -/
theorem sendMsg (h : Armed writeCb loop sockfd obuf) (obuf' : OutBuf) :
    Armed writeCb (loop.addEvent sockfd .writable writeCb) sockfd obuf' := by
  have hreg : (loop.addEvent sockfd .writable writeCb).registered sockfd .epollout =
      some writeCb := by
    refine (h.coherent.registered_addEvent sockfd .epollout writeCb sockfd .epollout).trans ?_
    rw [if_pos ⟨rfl, rfl⟩]
    cases hcb : loop.registered sockfd .epollout with
    | none => rfl
    | some cb => rw [h.own cb hcb, Option.some_or]
  refine ⟨h.coherent.addEvent sockfd .epollout writeCb, fun cb hcb ↦ ?_, fun _ ↦ hreg⟩
  exact Option.some.inj (hcb.symm.trans hreg)

theorem rest (h : Armed writeCb loop sockfd obuf) (hpos : 0 < obuf.length) (obuf' : OutBuf) :
    Armed writeCb loop sockfd obuf' :=
  ⟨h.coherent, h.own, fun _ ↦ h.pending hpos⟩

/-- `do_write` removes the write event when nothing is left. -/
theorem done (h : Armed writeCb loop sockfd obuf)
    (hdel : loop.delEventMask sockfd .writable = .ok loop') (hzero : ¬0 < obuf'.length) :
    Armed writeCb loop' sockfd obuf' := by
  have hreg : loop'.registered sockfd .epollout = none :=
    (h.coherent.registered_delEventMask hdel sockfd .epollout).trans (if_pos ⟨rfl, rfl⟩)
  refine ⟨h.coherent.delEventMask hdel, fun cb hcb ↦ ?_, fun hpos ↦ absurd hpos hzero⟩
  rw [hreg] at hcb
  cases hcb

theorem clean (h : Armed writeCb loop sockfd obuf) :
    Armed writeCb (loop.delEvent sockfd) sockfd obuf.clear := by
  refine ⟨h.coherent.delEvent sockfd, fun cb hcb ↦ ?_, fun hpos ↦ absurd hpos (lt_irrefl 0)⟩
  rw [EventLoop.registered_delEvent, if_pos rfl] at hcb
  cases hcb

theorem congr (h : Armed writeCb loop sockfd obuf) (hc : loop'.Coherent)
    (hreg : loop'.registered sockfd .epollout = loop.registered sockfd .epollout) :
    Armed writeCb loop' sockfd obuf :=
  ⟨hc, fun cb hcb ↦ h.own cb (hreg ▸ hcb), fun hpos ↦ hreg ▸ h.pending hpos⟩

end Armed

/-! ## Connected endpoints -/

/-- The two classes with a `send_msg` and a `do_write`. -/
inductive Endpoint where
  | conn (c : TcpConn)
  | client (c : TcpClient)

/-- What happens to an endpoint. -/
inductive EndpointOp where
  | sendMsg (alloc₁ alloc₂ : Alloc) (m : Message)
  | doWrite (res : List WriteResult)
  | doRead (alloc : Alloc) (fd : Socket)
  | disconnect
  /-- Another object on the loop of a connection calls the loop. -/
  | connLoop (op : LoopOp ConnCallback)
  /-- Another object on the loop of a client calls the loop. -/
  | clientLoop (op : LoopOp ClientCallback)

namespace Endpoint

/-- The output buffer. -/
def obuf : Endpoint → OutBuf
  | .conn c => c.obuf
  | .client c => c.obuf

/-- The write event is registered for the socket, with the write callback. -/
def WriteRegistered : Endpoint → Prop
  | .conn c => c.loop.registered c.sockfd .epollout = some .writeCb
  | .client c => c.loop.registered c.sockfd .epollout = some .writeCb

/-- The endpoint has not been torn down. -/
def Live : Endpoint → Prop
  | .conn c => .endHook ∉ c.calls
  | .client c => 0 ≤ c.sockfd

instance (s : Endpoint) : Decidable s.WriteRegistered :=
  match s with
  | .conn c => inferInstanceAs (Decidable (c.loop.registered c.sockfd .epollout = some .writeCb))
  | .client c => inferInstanceAs (Decidable (c.loop.registered c.sockfd .epollout = some .writeCb))

instance (s : Endpoint) : Decidable s.Live :=
  match s with
  | .conn c => inferInstanceAs (Decidable (.endHook ∉ c.calls))
  | .client c => inferInstanceAs (Decidable (0 ≤ c.sockfd))

/-- `send_msg`. -/
def sendMsg (alloc₁ alloc₂ : Alloc) (m : Message) : Endpoint → Outcome (Int × Endpoint)
  | .conn c => do
      let (ret, c) ← c.sendMsg alloc₁ alloc₂ m
      return (ret, .conn c)
  | .client c => do
      let (ret, c) ← c.sendMsg alloc₁ alloc₂ m
      return (ret, .client c)

/-- One step; a call of another object leaves an endpoint of the other class alone. -/
def step (nlMsgmax : Int) : Endpoint → EndpointOp → Outcome Endpoint
  | s, .sendMsg alloc₁ alloc₂ m => do
      let (_, t) ← s.sendMsg alloc₁ alloc₂ m
      return t
  | .conn c, .doWrite res => do
      let (_, c) ← c.doWrite res
      return .conn c
  | .client c, .doWrite res => do
      let (_, c) ← c.doWrite res
      return .client c
  | .conn c, .doRead alloc fd => do
      let (_, c) ← c.doRead alloc fd
      return .conn c
  | .client c, .doRead alloc fd => do
      let (_, c) ← c.doRead nlMsgmax alloc fd
      return .client c
  | .conn c, .disconnect => return .conn c.clean
  | .client c, .disconnect => return .client c.clean
  | .conn c, .connLoop op => do
      let loop ← op.run c.loop
      return .conn { c with loop := loop }
  | .client c, .clientLoop op => do
      let loop ← op.run c.loop
      return .client { c with loop := loop }
  | s, _ => return s

/-- The other objects have other descriptors. -/
def Foreign : Endpoint → EndpointOp → Prop
  | .conn c, .connLoop op => c.sockfd ≠ op.evnfd
  | .client c, .clientLoop op => c.sockfd ≠ op.evnfd
  | _, _ => True

/-- A connection that has just been accepted, or a client whose `connect_ser` has just found
the connection there. -/
def Connected (s : Endpoint) : Prop :=
  (∃ loop fd, loop.Coherent ∧ (∀ cb, loop.registered fd .epollout = some cb → cb = .writeCb) ∧
      s = .conn (.new loop fd)) ∨
    ∃ c c' : TcpClient, c.loop.Coherent ∧ c.connectSer 0 = .ok c' ∧ s = .client c'

/-- A message has a payload, or its head is refused. -/
def Payload (s : Endpoint) : EndpointOp → Prop
  | .sendMsg alloc₁ _ m => m.data ≠ [] ∨ s.obuf.Refused alloc₁ m.head.bytes
  | _ => True

end Endpoint

/-- A connected endpoint over any operations. -/
def endpoint (nlMsgmax : Int) : LTS Endpoint EndpointOp where
  init := Endpoint.Connected
  step s op t := s.Foreign op ∧ s.step nlMsgmax op = .ok t

/-! ## What the operations keep -/

namespace TcpConn

variable {c c' : TcpConn} {ret : Int}

/-- A connection whose write event is armed. -/
abbrev Armed (c : TcpConn) : Prop := Reactor.Armed .writeCb c.loop c.sockfd c.obuf

/-- A new connection has nothing to write. -/
theorem armed_new {loop : EventLoop ConnCallback} {fd : Int} (hc : loop.Coherent)
    (hown : ∀ cb, loop.registered fd .epollout = some cb → cb = .writeCb) :
    (new loop fd).Armed where
  coherent := hc.addEvent fd .epollin .tcpSerReadCb
  own cb hcb := by
    refine hown cb (Eq.trans ?_ hcb)
    rw [show (new loop fd).loop = loop.addEvent fd Event.epollin.mask .tcpSerReadCb from rfl,
      hc.registered_addEvent, if_neg fun e ↦ by cases e.2]
    rfl
  pending hpos := absurd hpos (lt_irrefl 0)

theorem Armed.clean (h : c.Armed) : c.clean.Armed := by
  unfold TcpConn.clean
  split
  · exact Reactor.Armed.clean h
  · exact h

theorem Armed.sendMsg {alloc₁ alloc₂ : Alloc} {m : Message} (h : c.Armed)
    (hm : m.data ≠ [] ∨ c.obuf.Refused alloc₁ m.head.bytes)
    (hst : c.sendMsg alloc₁ alloc₂ m = .ok (ret, c')) :
    c'.Armed ∧ (ret < 0 → c'.obuf = c.obuf) := by
  obtain ⟨obuf', happ, ⟨hneg, rfl⟩ | ⟨hneg, rfl⟩⟩ := sendMsg_cases hst
  · obtain rfl := appendMsg_refused happ hneg hm
    exact ⟨h, fun _ ↦ rfl⟩
  · exact ⟨Reactor.Armed.sendMsg h obuf', fun hret ↦ absurd hret hneg⟩

theorem Armed.doWrite {res : List WriteResult} {taken : List UInt8} (h : c.Armed)
    (hst : c.doWrite res = .ok (taken, c')) : c'.Armed := by
  obtain ⟨fin, obuf', hw, ⟨rfl, rfl⟩ | ⟨rfl, rfl⟩ | ⟨rfl, loop', hdel, rfl⟩⟩ :=
    doWrite_cases hst
  · exact h.rest (length_of_writeLoop hw WriteEnd.noConfusion) obuf'
  · exact Armed.clean (h.rest (length_of_writeLoop hw WriteEnd.noConfusion) obuf')
  · exact h.done hdel (length_of_writeLoop_done hw)

theorem Armed.doRead {alloc : Alloc} {fd : Socket} {ms : List Message} (h : c.Armed)
    (hst : c.doRead alloc fd = .ok (ms, c')) : c'.Armed := by
  obtain ⟨fin, ibuf', -, hcases⟩ := doRead_cases hst
  have hi : ({ c with ibuf := ibuf' } : TcpConn).Armed := h
  rcases hcases with ⟨-, rfl⟩ | ⟨-, rfl⟩
  · exact hi
  · exact hi.clean

theorem Armed.run {op : LoopOp ConnCallback} {loop' : EventLoop ConnCallback} (h : c.Armed)
    (hop : op.run c.loop = .ok loop') (hne : c.sockfd ≠ op.evnfd) :
    ({ c with loop := loop' } : TcpConn).Armed :=
  h.congr (h.coherent.run hop) (h.coherent.registered_run hop hne)

end TcpConn

namespace TcpClient

variable {c c' : TcpClient} {ret : Int}

/-- A client whose write event is armed, unless it is closed. -/
def Armed (c : TcpClient) : Prop :=
  0 ≤ c.sockfd → Reactor.Armed .writeCb c.loop c.sockfd c.obuf

/-- `connect_ser` registers the write event when messages have been waiting. -/
theorem armed_of_connectSer (hc : c.loop.Coherent) (hst : c.connectSer 0 = .ok c') : c'.Armed := by
  obtain ⟨loop, hdel, hst⟩ := Outcome.bind_eq_ok.mp hst
  rw [if_pos rfl] at hst
  obtain rfl := Except.ok.inj hst
  have hnone : loop.registered c.sockfd .epollout = none :=
    (hc.registered_delEventMask hdel c.sockfd .epollout).trans (if_pos ⟨rfl, rfl⟩)
  have hcl := hc.delEventMask hdel
  have hread : (loop.addEvent c.sockfd .readable .tcpCliReadCb).registered c.sockfd .epollout =
      none :=
    (hcl.registered_addEvent c.sockfd .epollin .tcpCliReadCb c.sockfd .epollout).trans
      ((if_neg fun e ↦ by cases e.2).trans hnone)
  have hempty : Reactor.Armed .writeCb (loop.addEvent c.sockfd .readable .tcpCliReadCb)
      c.sockfd none :=
    ⟨hcl.addEvent c.sockfd .epollin .tcpCliReadCb,
      fun cb hcb ↦ absurd (hcb.symm.trans hread) (Option.some_ne_none cb),
      fun hpos ↦ absurd hpos (lt_irrefl 0)⟩
  intro _
  by_cases hpos : 0 < c.obuf.length
  · simp only [if_pos hpos]
    exact hempty.sendMsg c.obuf
  · simp only [if_neg hpos]
    exact ⟨hempty.coherent, hempty.own, fun h ↦ absurd h hpos⟩

theorem Armed.clean (h : c.Armed) : c.clean.Armed := by
  unfold TcpClient.clean
  split
  · exact fun hopen ↦ absurd (show (0 : Int) ≤ -1 from hopen) (by decide)
  · exact h

theorem Armed.sendMsg {alloc₁ alloc₂ : Alloc} {m : Message} (h : c.Armed)
    (hm : m.data ≠ [] ∨ c.obuf.Refused alloc₁ m.head.bytes)
    (hst : c.sendMsg alloc₁ alloc₂ m = .ok (ret, c')) :
    c'.Armed ∧ (ret < 0 → c'.obuf = c.obuf) := by
  obtain ⟨obuf', happ, ⟨hneg, rfl⟩ | ⟨hneg, rfl⟩⟩ := sendMsg_cases hst
  · obtain rfl := appendMsg_refused happ hneg hm
    exact ⟨h, fun _ ↦ rfl⟩
  · exact ⟨fun hopen ↦ (h hopen).sendMsg obuf', fun hret ↦ absurd hret hneg⟩

theorem Armed.doWrite {res : List WriteResult} {taken : List UInt8} (h : c.Armed)
    (hst : c.doWrite res = .ok (taken, c')) : c'.Armed := by
  obtain ⟨fin, obuf', hw, hcases⟩ := doWrite_cases hst
  have hrest : fin ≠ .done → ({ c with obuf := obuf' } : TcpClient).Armed := fun hfin hopen ↦
    (h hopen).rest (length_of_writeLoop hw hfin) obuf'
  rcases hcases with ⟨rfl, rfl⟩ | ⟨rfl, rfl⟩ | ⟨rfl, loop', hdel, rfl⟩
  · exact hrest WriteEnd.noConfusion
  · exact (hrest WriteEnd.noConfusion).clean
  · exact fun hopen ↦ (h hopen).done hdel (length_of_writeLoop_done hw)

theorem Armed.doRead {nlMsgmax : Int} {alloc : Alloc} {fd : Socket} {ms : List Message}
    (h : c.Armed) (hst : c.doRead nlMsgmax alloc fd = .ok (ms, c')) : c'.Armed := by
  obtain ⟨fin, ibuf', -, hcases⟩ := doRead_cases hst
  have hi : ({ c with ibuf := ibuf' } : TcpClient).Armed := h
  rcases hcases with ⟨-, rfl⟩ | ⟨-, rfl⟩
  · exact hi
  · exact hi.clean

theorem Armed.run {op : LoopOp ClientCallback} {loop' : EventLoop ClientCallback} (h : c.Armed)
    (hop : op.run c.loop = .ok loop') (hne : c.sockfd ≠ op.evnfd) :
    ({ c with loop := loop' } : TcpClient).Armed := fun hopen ↦
  (h hopen).congr ((h hopen).coherent.run hop) ((h hopen).coherent.registered_run hop hne)

end TcpClient

namespace Endpoint

variable {nlMsgmax : Int} {s t : Endpoint} {op : EndpointOp} {ret : Int}

/-- What every step keeps. -/
def Kept : Endpoint → Prop
  | .conn c => c.Armed
  | .client c => c.Armed

theorem kept_of_connected (h : s.Connected) : s.Kept := by
  rcases h with ⟨loop, fd, hc, hown, rfl⟩ | ⟨c, c', hc, hst, rfl⟩
  · exact TcpConn.armed_new hc hown
  · exact TcpClient.armed_of_connectSer hc hst

theorem kept_sendMsg {alloc₁ alloc₂ : Alloc} {m : Message} (h : s.Kept)
    (hm : s.Payload (.sendMsg alloc₁ alloc₂ m))
    (hst : s.sendMsg alloc₁ alloc₂ m = .ok (ret, t)) : t.Kept ∧ (ret < 0 → t.obuf = s.obuf) := by
  cases s with
  | conn c =>
      obtain ⟨⟨ret₁, c'⟩, hc, hst⟩ := Outcome.bind_eq_ok.mp hst
      obtain ⟨rfl, rfl⟩ := Prod.mk.inj (Except.ok.inj hst)
      exact TcpConn.Armed.sendMsg h hm hc
  | client c =>
      obtain ⟨⟨ret₁, c'⟩, hc, hst⟩ := Outcome.bind_eq_ok.mp hst
      obtain ⟨rfl, rfl⟩ := Prod.mk.inj (Except.ok.inj hst)
      exact TcpClient.Armed.sendMsg h hm hc

theorem sendMsg_noPayload {alloc₁ : Alloc} {m : Message} (alloc₂ : Alloc) (hm : m.data = [])
    (h : s.obuf.Ready) (ha : FreshAlloc alloc₁) (hr : s.obuf.Room alloc₁ m.head.bytes.length)
    (hhead : ¬s.obuf.Refused alloc₁ m.head.bytes) :
    ∃ t, s.sendMsg alloc₁ alloc₂ m = .ok (-1, t) ∧
      t.obuf.content = s.obuf.content ++ m.head.bytes := by
  obtain ⟨obuf', happ, hc⟩ := appendMsg_noPayload alloc₂ hm h ha hr hhead
  cases s with
  | conn c =>
      refine ⟨.conn { c with obuf := obuf' }, ?_, hc⟩
      simp only [sendMsg, TcpConn.sendMsg, show appendMsg alloc₁ alloc₂ m c.obuf = _ from happ]
      rfl
  | client c =>
      refine ⟨.client { c with obuf := obuf' }, ?_, hc⟩
      simp only [sendMsg, TcpClient.sendMsg, show appendMsg alloc₁ alloc₂ m c.obuf = _ from happ]
      rfl

theorem kept_step_conn {c : TcpConn} (h : c.Armed) (hf : (conn c).Foreign op)
    (hm : (conn c).Payload op) (hst : (conn c).step nlMsgmax op = .ok t) : t.Kept := by
  cases op with
  | sendMsg alloc₁ alloc₂ m =>
      obtain ⟨⟨ret, t'⟩, hs, hst⟩ := Outcome.bind_eq_ok.mp hst
      obtain rfl := Except.ok.inj hst
      exact (kept_sendMsg (s := .conn c) h hm hs).1
  | doWrite res =>
      obtain ⟨⟨taken, c'⟩, hw, hst⟩ := Outcome.bind_eq_ok.mp hst
      obtain rfl := Except.ok.inj hst
      exact h.doWrite hw
  | doRead alloc fd =>
      obtain ⟨⟨ms, c'⟩, hr, hst⟩ := Outcome.bind_eq_ok.mp hst
      obtain rfl := Except.ok.inj hst
      exact h.doRead hr
  | disconnect =>
      obtain rfl := Except.ok.inj hst
      exact h.clean
  | connLoop op =>
      obtain ⟨loop', hop, hst⟩ := Outcome.bind_eq_ok.mp hst
      obtain rfl := Except.ok.inj hst
      exact h.run hop hf
  | clientLoop op =>
      obtain rfl := Except.ok.inj hst
      exact h

theorem kept_step_client {c : TcpClient} (h : c.Armed) (hf : (client c).Foreign op)
    (hm : (client c).Payload op) (hst : (client c).step nlMsgmax op = .ok t) : t.Kept := by
  cases op with
  | sendMsg alloc₁ alloc₂ m =>
      obtain ⟨⟨ret, t'⟩, hs, hst⟩ := Outcome.bind_eq_ok.mp hst
      obtain rfl := Except.ok.inj hst
      exact (kept_sendMsg (s := .client c) h hm hs).1
  | doWrite res =>
      obtain ⟨⟨taken, c'⟩, hw, hst⟩ := Outcome.bind_eq_ok.mp hst
      obtain rfl := Except.ok.inj hst
      exact h.doWrite hw
  | doRead alloc fd =>
      obtain ⟨⟨ms, c'⟩, hr, hst⟩ := Outcome.bind_eq_ok.mp hst
      obtain rfl := Except.ok.inj hst
      exact h.doRead hr
  | disconnect =>
      obtain rfl := Except.ok.inj hst
      exact h.clean
  | connLoop op =>
      obtain rfl := Except.ok.inj hst
      exact h
  | clientLoop op =>
      obtain ⟨loop', hop, hst⟩ := Outcome.bind_eq_ok.mp hst
      obtain rfl := Except.ok.inj hst
      exact h.run hop hf

/-- Every run whose messages have a payload keeps the write event armed. -/
theorem kept_of_reachable (h : ((endpoint nlMsgmax).restrict Payload).Reachable s) : s.Kept := by
  apply h.induction
  · exact fun s hs ↦ kept_of_connected hs
  · rintro s op t - hk ⟨hm, hf, hst⟩
    cases s with
    | conn c => exact kept_step_conn hk hf hm hst
    | client c => exact kept_step_client hk hf hm hst

/-- The write event is registered while bytes are pending. -/
theorem Kept.writeRegistered (h : s.Kept) (hl : s.Live) (hpos : 0 < s.obuf.length) :
    s.WriteRegistered := by
  cases s with
  | conn c => exact h.pending hpos
  | client c => exact (h hl).pending hpos

end Endpoint

open Endpoint

/-- In every run of a connected endpoint in which every message has a payload, or its head is
refused: while the output buffer holds bytes the write event is registered with the write
callback, and a `send_msg` that returns a negative value leaves the bytes pending as they
are.  In any run, a message without payload whose head finds room is answered with -1 and
leaves its head behind. -/
theorem no_stranded_output (nlMsgmax : Int) (s : Endpoint) :
    (((endpoint nlMsgmax).restrict Payload).Reachable s → s.Live →
      (0 < s.obuf.length → s.WriteRegistered) ∧
        ∀ alloc₁ alloc₂ m ret t, s.Payload (.sendMsg alloc₁ alloc₂ m) →
          s.sendMsg alloc₁ alloc₂ m = .ok (ret, t) → ret < 0 →
            t.obuf.content = s.obuf.content) ∧
      ∀ alloc₁ alloc₂ m, m.data = [] → s.obuf.Ready → FreshAlloc alloc₁ →
        s.obuf.Room alloc₁ m.head.bytes.length → ¬s.obuf.Refused alloc₁ m.head.bytes →
          ∃ t, s.sendMsg alloc₁ alloc₂ m = .ok (-1, t) ∧
            t.obuf.content = s.obuf.content ++ m.head.bytes := by
  refine ⟨fun h hl ↦ ?_, fun alloc₁ alloc₂ m ↦ sendMsg_noPayload alloc₂⟩
  have hk := kept_of_reachable h
  refine ⟨hk.writeRegistered hl, fun alloc₁ alloc₂ m ret t hm hst hret ↦ ?_⟩
  exact congrArg ReactorBuf.content ((kept_sendMsg hk hm hst).2 hret)

/-- A connection on descriptor 5. -/
def accepted : Endpoint := .conn (.new .new 5)

theorem connected_accepted : accepted.Connected :=
  .inl ⟨.new, 5, EventLoop.coherent_new,
    fun cb hcb ↦ absurd (hcb.symm.trans EventLoop.registered_new) (Option.some_ne_none cb), rfl⟩

/-- A message of two bytes waits to be written, with the write event registered. -/
theorem no_stranded_output_reply :
    ∃ s, ((endpoint 100).restrict Payload).Reachable s ∧ s.obuf.length = 10 ∧
      s.WriteRegistered := by
  have hr : ((endpoint 100).restrict Payload).Reachable _ :=
    LTS.Reachable.step (a := .sendMsg exactAlloc exactAlloc ⟨1, [7, 8]⟩)
      (.init connected_accepted) ⟨.inl (List.cons_ne_nil _ _), trivial, rfl⟩
  exact ⟨_, hr, rfl, ((no_stranded_output 100 _).1 hr (by decide)).1 (by decide)⟩

/-- After a message without payload, `send_msg` has answered -1, the buffer holds its head, and
nothing is going to write it. -/
theorem emptyPayload_stranded :
    ∃ s t, (endpoint 100).Reachable s ∧ s.Live ∧
      s.sendMsg exactAlloc exactAlloc ⟨1, []⟩ = .ok (-1, t) ∧
      (endpoint 100).Reachable t ∧ t.Live ∧
      t.obuf.content ≠ s.obuf.content ∧ 0 < t.obuf.length ∧ ¬t.WriteRegistered := by
  have hr : (endpoint 100).Reachable accepted := .init connected_accepted
  exact ⟨accepted, _, hr, by decide, rfl,
    hr.step (a := .sendMsg exactAlloc exactAlloc ⟨1, []⟩) ⟨trivial, rfl⟩, by decide, by decide,
    by decide, by decide⟩

end Ylars.Reactor
