import Ylars.Reactor.EventLoop
import Ylars.Reactor.MessageIO

/-!
# A client: `tcp_client`

The client connects without blocking.  Until the connection is there the event table
has `connect_ser` as the write callback, and a message sent in the meantime waits in
the write buffer: `add_event` leaves the callback as it is.  `connect_ser` then removes
the write event and files `write_cb` if something waits.

`nlMsgmax` is `_SC_NL_MSGMAX`, the bound that `do_read` compares a length with; its
value comes from `unistd.h`.
-/

namespace Ylars.Reactor

/-- The callbacks of a client. -/
inductive ClientCallback where
  | connectSer
  | writeCb
  | tcpCliReadCb
deriving DecidableEq, Repr

/-- The hooks of a client. -/
inductive HookCall where
  | startHook
  | endHook
deriving DecidableEq, Repr

/-- A client, `tcp_client`. -/
structure TcpClient where
  sockfd : Int
  loop : EventLoop ClientCallback
  ibuf : InBuf
  obuf : OutBuf
  /-- The hooks called. -/
  hooks : List HookCall

namespace TcpClient

/-- The constructor, when `connect` answers `EINPROGRESS`. -/
def new (loop : EventLoop ClientCallback) (sockfd : Int) : TcpClient where
  sockfd := sockfd
  loop := loop.addEvent sockfd .writable .connectSer
  ibuf := none
  obuf := none
  hooks := []

/-- `clean`: drop the buffers and the events and close the socket. -/
def clean (c : TcpClient) : TcpClient :=
  if 0 ≤ c.sockfd then
    { sockfd := -1
      loop := c.loop.delEvent c.sockfd
      ibuf := c.ibuf.clear
      obuf := c.obuf.clear
      hooks := c.hooks ++ [.endHook] }
  else c

/-- `connect_ser`: the connection is there, or `SO_ERROR` tells why not. -/
def connectSer (soError : Int) (c : TcpClient) : Outcome TcpClient := do
  let loop ← c.loop.delEventMask c.sockfd .writable
  if soError = 0 then
    let loop := loop.addEvent c.sockfd .readable .tcpCliReadCb
    let loop := if 0 < c.obuf.length then loop.addEvent c.sockfd .writable .writeCb else loop
    .ok { c with loop := loop, hooks := c.hooks ++ [.startHook] }
  else .ok { c with loop := loop }.clean

/-- `send_msg`. -/
def sendMsg (alloc₁ alloc₂ : Alloc) (m : Message) (c : TcpClient) :
    Outcome (Int × TcpClient) := do
  let (ret, obuf) ← appendMsg alloc₁ alloc₂ m c.obuf
  if ret < 0 then .ok (ret, { c with obuf := obuf })
  else
    .ok (ret, { c with
      obuf := obuf
      loop := c.loop.addEvent c.sockfd .writable .writeCb })

/-- `do_write`: the bytes written and the client after it. -/
def doWrite (res : List WriteResult) (c : TcpClient) : Outcome (List UInt8 × TcpClient) := do
  let (fin, taken, obuf) ← writeLoop res c.obuf
  let c := { c with obuf := obuf }
  match fin with
  | .blocked => return (taken, c)
  | .failed => return (taken, c.clean)
  | .done => do
      let loop ← c.loop.delEventMask c.sockfd .writable
      return (taken, { c with loop := loop })

/-- `do_read`: the messages handed to the router and the client after it. -/
def doRead (nlMsgmax : Int) (alloc : Alloc) (fd : Socket) (c : TcpClient) :
    Outcome (List Message × TcpClient) := do
  let (fin, ms, ibuf) ← readMsgs nlMsgmax alloc fd c.ibuf
  let c := { c with ibuf := ibuf }
  match fin with
  | .more => return (ms, c)
  | _ => return (ms, c.clean)

/-! ## What the functions do -/

section

variable {c c' : TcpClient}

/-- What `send_msg` does: it appends the message, and registers the event unless that is
refused. -/
theorem sendMsg_cases {alloc₁ alloc₂ : Alloc} {m : Message} {ret : Int}
    (h : c.sendMsg alloc₁ alloc₂ m = .ok (ret, c')) :
    ∃ obuf, appendMsg alloc₁ alloc₂ m c.obuf = .ok (ret, obuf) ∧
      ((ret < 0 ∧ c' = { c with obuf := obuf }) ∨
        (¬ret < 0 ∧ c' = { c with
          obuf := obuf
          loop := c.loop.addEvent c.sockfd .writable .writeCb })) := by
  obtain ⟨⟨ret₁, obuf⟩, happ, h⟩ := Outcome.bind_eq_ok.mp h
  by_cases hneg : ret₁ < 0
  · simp only [if_pos hneg] at h
    obtain ⟨rfl, rfl⟩ := Prod.mk.inj (Except.ok.inj h)
    exact ⟨obuf, happ, .inl ⟨hneg, rfl⟩⟩
  · simp only [if_neg hneg] at h
    obtain ⟨rfl, rfl⟩ := Prod.mk.inj (Except.ok.inj h)
    exact ⟨obuf, happ, .inr ⟨hneg, rfl⟩⟩

/-- What `do_write` does: it writes, and removes the event when nothing is left. -/
theorem doWrite_cases {res : List WriteResult} {taken : List UInt8}
    (h : c.doWrite res = .ok (taken, c')) :
    ∃ fin obuf, writeLoop res c.obuf = .ok (fin, taken, obuf) ∧
      ((fin = .blocked ∧ c' = { c with obuf := obuf }) ∨
        (fin = .failed ∧ c' = clean { c with obuf := obuf }) ∨
        (fin = .done ∧ ∃ loop, c.loop.delEventMask c.sockfd .writable = .ok loop ∧
          c' = { c with obuf := obuf, loop := loop })) := by
  obtain ⟨⟨fin, taken₁, obuf⟩, hw, h⟩ := Outcome.bind_eq_ok.mp h
  cases fin with
  | blocked =>
      obtain ⟨rfl, rfl⟩ := Prod.mk.inj (Except.ok.inj h)
      exact ⟨_, obuf, hw, .inl ⟨rfl, rfl⟩⟩
  | failed =>
      obtain ⟨rfl, rfl⟩ := Prod.mk.inj (Except.ok.inj h)
      exact ⟨_, obuf, hw, .inr (.inl ⟨rfl, rfl⟩)⟩
  | done =>
      obtain ⟨loop, hdel, h⟩ := Outcome.bind_eq_ok.mp h
      obtain ⟨rfl, rfl⟩ := Prod.mk.inj (Except.ok.inj h)
      exact ⟨_, obuf, hw, .inr (.inr ⟨rfl, loop, hdel, rfl⟩)⟩

/-- What `do_read` does: it reads messages, and tears down when it cannot go on. -/
theorem doRead_cases {nlMsgmax : Int} {alloc : Alloc} {fd : Socket} {ms : List Message}
    (h : c.doRead nlMsgmax alloc fd = .ok (ms, c')) :
    ∃ fin ibuf, readMsgs nlMsgmax alloc fd c.ibuf = .ok (fin, ms, ibuf) ∧
      ((fin = .more ∧ c' = { c with ibuf := ibuf }) ∨
        (fin ≠ .more ∧ c' = clean { c with ibuf := ibuf })) := by
  obtain ⟨⟨fin, ms₁, ibuf⟩, hr, h⟩ := Outcome.bind_eq_ok.mp h
  cases fin with
  | more =>
      obtain ⟨rfl, rfl⟩ := Prod.mk.inj (Except.ok.inj h)
      exact ⟨_, ibuf, hr, .inl ⟨rfl, rfl⟩⟩
  | closed | failed | abnormal =>
      obtain ⟨rfl, rfl⟩ := Prod.mk.inj (Except.ok.inj h)
      exact ⟨_, ibuf, hr, .inr ⟨ReadEnd.noConfusion, rfl⟩⟩

end

end TcpClient

end Ylars.Reactor
