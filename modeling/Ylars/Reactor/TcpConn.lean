import Ylars.Reactor.EventLoop
import Ylars.Reactor.MessageIO

/-!
# A server-side connection: `tcp_conn`

The connection object of the server: its buffers, its descriptor and the event table
of the worker it lives on.  What `clean` asks of the server (the end hook, and the
hand-over to the release queue) is recorded in `calls`.
-/

namespace Ylars.Reactor

/-- The callbacks of a connection. -/
inductive ConnCallback where
  | tcpSerReadCb
  | writeCb
deriving DecidableEq, Repr

/-- What a connection asks of `tcp_server`. -/
inductive ServerCall where
  | startHook
  | endHook
  | decreaseConn (connfd : Int)
deriving DecidableEq, Repr

/-- A server-side connection, `tcp_conn`. -/
structure TcpConn where
  loop : EventLoop ConnCallback
  sockfd : Int
  ibuf : InBuf
  obuf : OutBuf
  /-- The calls made to the server. -/
  calls : List ServerCall

namespace TcpConn

/-- The constructor. -/
def new (loop : EventLoop ConnCallback) (fd : Int) : TcpConn where
  loop := loop.addEvent fd .readable .tcpSerReadCb
  sockfd := fd
  ibuf := none
  obuf := none
  calls := [.startHook]

/-- `clean`: drop the buffers and the events and hand the object over for release. -/
def clean (c : TcpConn) : TcpConn :=
  if 0 < c.sockfd then
    { c with
      ibuf := c.ibuf.clear
      obuf := c.obuf.clear
      loop := c.loop.delEvent c.sockfd
      calls := c.calls ++ [.endHook, .decreaseConn c.sockfd] }
  else c

/-- `send_msg`. -/
def sendMsg (alloc₁ alloc₂ : Alloc) (m : Message) (c : TcpConn) : Outcome (Int × TcpConn) := do
  let (ret, obuf) ← appendMsg alloc₁ alloc₂ m c.obuf
  if ret < 0 then .ok (ret, { c with obuf := obuf })
  else
    .ok (ret, { c with
      obuf := obuf
      loop := c.loop.addEvent c.sockfd .writable .writeCb })

/-- `do_read`: the messages handed to the router and the connection after it. -/
def doRead (alloc : Alloc) (fd : Socket) (c : TcpConn) : Outcome (List Message × TcpConn) := do
  let (fin, ms, ibuf) ← readMsgs msgMaxLimit alloc fd c.ibuf
  let c := { c with ibuf := ibuf }
  match fin with
  | .more => return (ms, c)
  | _ => return (ms, c.clean)

/-- `do_write`: the bytes written and the connection after it. -/
def doWrite (res : List WriteResult) (c : TcpConn) : Outcome (List UInt8 × TcpConn) := do
  let (fin, taken, obuf) ← writeLoop res c.obuf
  let c := { c with obuf := obuf }
  match fin with
  | .blocked => return (taken, c)
  | .failed => return (taken, c.clean)
  | .done => do
      let loop ← c.loop.delEventMask c.sockfd .writable
      return (taken, { c with loop := loop })

/-! ## What the functions do -/

section

variable {c c' : TcpConn}

/-- What `send_msg` does: it appends the message, and registers the event unless that is
refused. -/
theorem sendMsg_cases {alloc₁ alloc₂ : Alloc} {m : Message} {ret : Int}
    (h : c.sendMsg alloc₁ alloc₂ m = .ok (ret, c')) :
    ∃ obuf, appendMsg alloc₁ alloc₂ m c.obuf = .ok (ret, obuf) ∧
      ((ret < 0 ∧ c' = { c with obuf := obuf }) ∨
        (¬ret < 0 ∧ c' = { c with
          obuf := obuf
          loop := c.loop.addEvent c.sockfd .writable .writeCb })) := by
  obtain ⟨⟨ret₁, obuf⟩, happ, h⟩ := Outcome.bind_eq_ok.mp h
  by_cases hneg : ret₁ < 0
  · simp only [if_pos hneg] at h
    obtain ⟨rfl, rfl⟩ := Prod.mk.inj (Except.ok.inj h)
    exact ⟨obuf, happ, .inl ⟨hneg, rfl⟩⟩
  · simp only [if_neg hneg] at h
    obtain ⟨rfl, rfl⟩ := Prod.mk.inj (Except.ok.inj h)
    exact ⟨obuf, happ, .inr ⟨hneg, rfl⟩⟩

/-- What `do_write` does: it writes, and removes the event when nothing is left. -/
theorem doWrite_cases {res : List WriteResult} {taken : List UInt8}
    (h : c.doWrite res = .ok (taken, c')) :
    ∃ fin obuf, writeLoop res c.obuf = .ok (fin, taken, obuf) ∧
      ((fin = .blocked ∧ c' = { c with obuf := obuf }) ∨
        (fin = .failed ∧ c' = clean { c with obuf := obuf }) ∨
        (fin = .done ∧ ∃ loop, c.loop.delEventMask c.sockfd .writable = .ok loop ∧
          c' = { c with obuf := obuf, loop := loop })) := by
  obtain ⟨⟨fin, taken₁, obuf⟩, hw, h⟩ := Outcome.bind_eq_ok.mp h
  cases fin with
  | blocked =>
      obtain ⟨rfl, rfl⟩ := Prod.mk.inj (Except.ok.inj h)
      exact ⟨_, obuf, hw, .inl ⟨rfl, rfl⟩⟩
  | failed =>
      obtain ⟨rfl, rfl⟩ := Prod.mk.inj (Except.ok.inj h)
      exact ⟨_, obuf, hw, .inr (.inl ⟨rfl, rfl⟩)⟩
  | done =>
      obtain ⟨loop, hdel, h⟩ := Outcome.bind_eq_ok.mp h
      obtain ⟨rfl, rfl⟩ := Prod.mk.inj (Except.ok.inj h)
      exact ⟨_, obuf, hw, .inr (.inr ⟨rfl, loop, hdel, rfl⟩)⟩

/-- What `do_read` does: it reads messages, and tears down when it cannot go on. -/
theorem doRead_cases {alloc : Alloc} {fd : Socket} {ms : List Message}
    (h : c.doRead alloc fd = .ok (ms, c')) :
    ∃ fin ibuf, readMsgs msgMaxLimit alloc fd c.ibuf = .ok (fin, ms, ibuf) ∧
      ((fin = .more ∧ c' = { c with ibuf := ibuf }) ∨
        (fin ≠ .more ∧ c' = clean { c with ibuf := ibuf })) := by
  obtain ⟨⟨fin, ms₁, ibuf⟩, hr, h⟩ := Outcome.bind_eq_ok.mp h
  cases fin with
  | more =>
      obtain ⟨rfl, rfl⟩ := Prod.mk.inj (Except.ok.inj h)
      exact ⟨_, ibuf, hr, .inl ⟨rfl, rfl⟩⟩
  | closed | failed | abnormal =>
      obtain ⟨rfl, rfl⟩ := Prod.mk.inj (Except.ok.inj h)
      exact ⟨_, ibuf, hr, .inr ⟨ReadEnd.noConfusion, rfl⟩⟩

end

end TcpConn

end Ylars.Reactor
