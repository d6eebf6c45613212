import Ylars.Lib.Transition
import Ylars.Reactor.Callbacks
import Ylars.Reactor.Epoll
import Ylars.Reactor.TcpConn
import Ylars.Reactor.TcpServer

/-!
# The life cycle of a connection

`tcp_conn::clean` calls the end hook, drops the buffers and the events and hands the object
over with `decrease_conn`; the object lives on until the main thread deletes it.  Its test
looks at `_sockfd`, which the tear-down leaves as it is, so a second call goes through all
of it again: the end hook of the DNS server, `clean_subscribe`, then finds a null parameter,
and `decrease_conn` a null entry.

`ConnLife` is a connection of the DNS server with the functions that have not returned,
from the call of the start hook in the constructor to the deletion.  The event loop runs
`do_read` and `do_write` when no other function is active; user code calls `send_msg` and
`disconnect`.  `Proper` is a life cycle as it should be.
-/

namespace Ylars.Dns

open Std (ExtTreeSet)
open Ylars.Lib Ylars.Reactor

/-- The modules a connection has asked for, `conn_mod_set_t`. -/
abbrev ConnModSet := ExtTreeSet UInt64

/-- What the other threads do with the connections of the server. -/
inductive ServerOp where
  | increaseConn (connfd : Int) (conn : ℕ)
  | decreaseConn (connfd : Int)
  /-- `do_release` takes a pointer. -/
  | takeRel
  /-- `do_release` returns. -/
  | rearm

/-- A connection and the functions of it that have not returned, the innermost first. -/
structure ConnLife where
  conn : TcpConn
  ser : TcpServer
  /-- `conn->param`. -/
  param : Option ConnModSet
  stack : List Frame
  /-- What each run of the end hook has found in `param`. -/
  ends : List (Option ConnModSet)
  /-- What `decrease_conn` has pushed for the connection. -/
  pushed : List (Option ℕ)
  /-- A call of `clean` has returned. -/
  torn : Bool

/-- What happens to a connection. -/
inductive ConnAction where
  | doRead (alloc : Alloc) (fd : Socket)
  /-- A turn of the loop of `do_read`. -/
  | turn
  | doWrite (res : List WriteResult)
  | sendMsg (alloc₁ alloc₂ : Alloc) (m : Message)
  | disconnect
  /-- `get_req` files a module. -/
  | getReq (mod : UInt64)
  /-- `clean` runs. -/
  | clean
  /-- A callback or a hook returns. -/
  | ret
  /-- Another object on the loop calls the loop. -/
  | other (op : LoopOp ConnCallback)
  /-- Another thread calls the server. -/
  | server (op : ServerOp)

namespace ConnLife

/-- The constructor has called the start hook, and `create_subscribe` has returned. -/
def new (loop : EventLoop ConnCallback) (fd : Int) (ser : TcpServer) : ConnLife where
  conn := .new loop fd
  ser := ser
  param := some ∅
  stack := [.startHook]
  ends := []
  pushed := []
  torn := false

/-- `do_read` up to its loop. -/
def doRead (alloc : Alloc) (fd : Socket) (s : ConnLife) : Outcome ConnLife := do
  let (readlen, ibuf) ← InBuf.readfd alloc fd s.conn.ibuf
  return { s with
    conn := { s.conn with ibuf := ibuf }
    stack := (if readlen ≤ 0 then .clean else .parse) :: s.stack }

/-- A turn of the loop of `do_read`, which `rest` waits for. -/
def turn (rest : List Frame) (s : ConnLife) : Outcome ConnLife := do
  match ← readTurn msgMaxLimit s.conn.ibuf with
  | .stop => do
      let ibuf ← InBuf.adjust s.conn.ibuf
      return { s with conn := { s.conn with ibuf := ibuf }, stack := rest }
  | .abnormal => return { s with stack := .clean :: rest }
  | .message _ msglen ibuf =>
      return { s with
        conn := { s.conn with ibuf := ibuf }
        stack := .callback msglen :: .parse :: rest }

/-- `do_write`. -/
def doWrite (res : List WriteResult) (s : ConnLife) : Outcome ConnLife := do
  let (fin, _, obuf) ← writeLoop res s.conn.obuf
  let c := { s.conn with obuf := obuf }
  match fin with
  | .blocked => return { s with conn := c }
  | .failed => return { s with conn := c, stack := .clean :: s.stack }
  | .done => do
      let loop ← c.loop.delEventMask c.sockfd .writable
      return { s with conn := { c with loop := loop } }

/-- `send_msg`. -/
def sendMsg (alloc₁ alloc₂ : Alloc) (m : Message) (s : ConnLife) : Outcome ConnLife := do
  let (_, c) ← s.conn.sendMsg alloc₁ alloc₂ m
  return { s with conn := c }

/-- `clean` up to the end hook, which `rest` waits for: `clean_subscribe` takes the module set
and leaves a null pointer. -/
def clean (rest : List Frame) (s : ConnLife) : ConnLife :=
  if 0 < s.conn.sockfd then
    { s with
      conn := { s.conn with calls := s.conn.calls ++ [.endHook] }
      param := none
      stack := .endHook :: rest
      ends := s.ends ++ [s.param] }
  else { s with stack := rest, torn := true }

/-- `clean` after the end hook. -/
def tearDown (rest : List Frame) (s : ConnLife) : ConnLife :=
  { s with
    conn :=
      { s.conn with
        ibuf := s.conn.ibuf.clear
        obuf := s.conn.obuf.clear
        loop := s.conn.loop.delEvent s.conn.sockfd
        calls := s.conn.calls ++ [.decreaseConn s.conn.sockfd] }
    ser := s.ser.decreaseConn s.conn.sockfd
    stack := rest
    pushed := s.pushed ++ [s.ser.conns[s.conn.sockfd]?]
    torn := true }

theorem conn_clean_tearDown (rest : List Frame) (s : ConnLife) (h : 0 < s.conn.sockfd) :
    ((s.clean rest).tearDown rest).conn = s.conn.clean := by
  simp only [clean, if_pos h, tearDown, TcpConn.clean, List.append_assoc, List.cons_append,
    List.nil_append]

/-- What another thread does; it has other connections on other descriptors.  The run ends
when `do_release` takes the connection itself. -/
def server (me : ℕ) (fd : Int) (s : ConnLife) : ServerOp → Option ConnLife
  | .increaseConn connfd conn =>
      if connfd ≠ fd ∧ conn ≠ me then some { s with ser := s.ser.increaseConn connfd conn }
      else none
  | .decreaseConn connfd =>
      if connfd ≠ fd then some { s with ser := s.ser.decreaseConn connfd } else none
  | .takeRel =>
      match s.ser.takeRel with
      | some (conn, ser) => if conn ≠ some me then some { s with ser := ser } else none
      | none => none
  | .rearm => some { s with ser := s.ser.rearm }

/-- One step of the connection at address `me` with descriptor `fd`. -/
def step (me : ℕ) (fd : Int) (s : ConnLife) : ConnAction → Option ConnLife
  | .doRead alloc sock => if s.stack = [] then (s.doRead alloc sock).toOption else none
  | .turn =>
      match s.stack with
      | .parse :: rest => (s.turn rest).toOption
      | _ => none
  | .doWrite res => if s.stack = [] then (s.doWrite res).toOption else none
  | .sendMsg alloc₁ alloc₂ m =>
      if Frame.userCode s.stack then (s.sendMsg alloc₁ alloc₂ m).toOption else none
  | .disconnect =>
      if Frame.userCode s.stack then some { s with stack := .clean :: s.stack } else none
  | .getReq mod =>
      match s.stack with
      | .callback _ :: _ => some { s with param := s.param.map fun set ↦ set.insert mod }
      | _ => none
  | .clean =>
      match s.stack with
      | .clean :: rest => some (s.clean rest)
      | _ => none
  | .ret =>
      match s.stack with
      | .callback msglen :: rest =>
          some { s with
            conn := { s.conn with ibuf := s.conn.ibuf.pop msglen }
            stack := rest }
      | .startHook :: rest =>
          -- `increase_conn` follows the constructor
          some { s with ser := s.ser.increaseConn s.conn.sockfd me, stack := rest }
      | .endHook :: rest => some (s.tearDown rest)
      | _ => none
  | .other op =>
      if op.evnfd ≠ fd then do
        let loop ← (op.run s.conn.loop).toOption
        return { s with conn := { s.conn with loop := loop } }
      else none
  | .server op => s.server me fd op

/-- The end hook has run at most once and found a parameter, and the connection and nothing
else has been pushed, at most once; after a tear-down both have happened, and the
connection has left `conns` and the event loop. -/
structure Proper (me : ℕ) (fd : Int) (s : ConnLife) : Prop where
  ends_le : s.ends.length ≤ 1
  ends : none ∉ s.ends
  pushed : s.pushed = [] ∨ s.pushed = [some me]
  torn : s.torn = true → s.ends.length = 1 ∧ s.pushed = [some me] ∧ s.ser.conns[fd]? = none ∧
    fd ∉ s.conn.loop.lfds ∧ fd ∉ s.conn.loop.ioEvns

/-- `clean` is called once, after `increase_conn` and with a positive descriptor; what is sent
after the tear-down has no payload, or a head that is refused. -/
def Once (s : ConnLife) : ConnAction → Prop
  | .clean => 0 < s.conn.sockfd ∧ .endHook ∉ s.conn.calls ∧ .startHook ∉ s.stack
  | .sendMsg alloc₁ _ m =>
      s.torn = false ∨ m.data = [] ∨ s.conn.obuf.Refused alloc₁ m.head.bytes
  | _ => True

end ConnLife

/-- The connection at address `me` with descriptor `fd`, from its constructor on. -/
def connLife (me : ℕ) (fd : Int) : LTS ConnLife ConnAction where
  init s := ∃ loop ser, loop.Coherent ∧ s = .new loop fd ser
  step s a t := s.step me fd a = some t

namespace ConnLife

/-! ## The functions of the class are runs

With callbacks and hooks that call nothing, the steps make up the functions of
`TcpConn`. -/

section

variable {me : ℕ} {fd : Int} {s : ConnLife} {c' : TcpConn}

/-- A call of `clean` runs to its end. -/
theorem run_clean (me : ℕ) (fd : Int) (s : ConnLife) {rest : List Frame}
    (hstack : s.stack = .clean :: rest) :
    ∃ as t, (connLife me fd).Run s as t ∧ t.conn = s.conn.clean ∧ t.stack = rest := by
  have hst : s.step me fd .clean = some (s.clean rest) := by
    simp only [step, hstack]
  by_cases hpos : 0 < s.conn.sockfd
  · have hret : (s.clean rest).step me fd .ret = some ((s.clean rest).tearDown rest) := by
      simp only [step, clean, if_pos hpos]
    exact ⟨_, _, .cons hst (.cons hret (.nil _)), conn_clean_tearDown rest s hpos, rfl⟩
  · rw [clean, if_neg hpos] at hst
    exact ⟨_, _, .cons hst (.nil _), (if_neg hpos).symm, rfl⟩

theorem run_readLoop (me : ℕ) (fd : Int) {n : ℕ} {ibuf ibuf' : InBuf} {ms : List Message}
    {ok : Bool} (hn : ibuf.length.toNat ≤ n)
    (h : readLoop msgMaxLimit n ibuf = .ok (ms, ibuf', ok)) (s : ConnLife)
    (hibuf : s.conn.ibuf = ibuf) (hstack : s.stack = [.parse]) :
    ∃ as, (connLife me fd).Run s as
        { s with
          conn := { s.conn with ibuf := ibuf' }
          stack := [if ok then .parse else .clean] } ∧
      (ok = true → readTurn msgMaxLimit ibuf' = .ok .stop) := by
  refine readLoop_induction (P := fun b _ b' ok ↦ ∀ s : ConnLife, s.conn.ibuf = b →
    s.stack = [.parse] → ∃ as, (connLife me fd).Run s as
        { s with
          conn := { s.conn with ibuf := b' }
          stack := [if ok then .parse else .clean] } ∧
      (ok = true → readTurn msgMaxLimit b' = .ok .stop)) ?_ ?_ ?_ hn h s hibuf hstack
  · rintro _ hr s rfl hstack
    refine ⟨[], ?_, fun _ ↦ hr⟩
    rw [if_pos rfl, ← hstack]
    exact .nil s
  · rintro _ hr s rfl hstack
    have hst : s.step me fd .turn = some { s with stack := [.clean] } := by
      simp only [step, hstack, turn, hr, Outcome.ok_bind]
      rfl
    exact ⟨[.turn], .cons hst (.nil _), fun hok ↦ by cases hok⟩
  · rintro _ m msglen b₁ ms b₂ ok hr ih s rfl hstack
    have hst : s.step me fd .turn = some { s with
        conn := { s.conn with ibuf := b₁ }
        stack := [.callback msglen, .parse] } := by
      simp only [step, hstack, turn, hr, Outcome.ok_bind]
      rfl
    obtain ⟨as, hrun, hstop⟩ := ih { s with
      conn := { s.conn with ibuf := b₁.pop msglen }
      stack := [.parse] } rfl rfl
    exact ⟨.turn :: .ret :: as, .cons hst (.cons rfl hrun), hstop⟩

theorem run_doRead {alloc : Alloc} {sock : Socket} {ms : List Message} (hstack : s.stack = [])
    (h : s.conn.doRead alloc sock = .ok (ms, c')) :
    ∃ as t, (connLife me fd).Run s as t ∧ t.conn = c' ∧ t.stack = [] := by
  obtain ⟨fin, ibuf', hread, hfin⟩ := TcpConn.doRead_cases h
  have hmore : fin = .more → c' = { s.conn with ibuf := ibuf' } := fun hf ↦
    (hfin.resolve_right fun hne ↦ hne.1 hf).2
  have hclean : fin ≠ .more → c' = TcpConn.clean { s.conn with ibuf := ibuf' } := fun hne ↦
    (hfin.resolve_left fun hf ↦ hne hf.1).2
  obtain ⟨readlen, ibuf₁, hrd, hcases⟩ := readMsgs_cases hread
  have hst : s.step me fd (.doRead alloc sock) = some { s with
      conn := { s.conn with ibuf := ibuf₁ }
      stack := [if readlen ≤ 0 then .clean else .parse] } := by
    simp only [step, hstack, if_true, doRead, hrd, Outcome.ok_bind]
    rfl
  rcases hcases with ⟨hle, hne, rfl⟩ | ⟨hle, ibuf₂, ok, hl, hok⟩
  · rw [if_pos hle] at hst
    obtain ⟨as, t, hrun, hconn, ht⟩ := run_clean me fd { s with
      conn := { s.conn with ibuf := ibuf' }
      stack := [.clean] } rfl
    exact ⟨_, t, .cons hst hrun, hconn.trans (hclean hne).symm, ht⟩
  · rw [if_neg hle] at hst
    obtain ⟨as, hrun, hstop⟩ := run_readLoop me fd le_rfl hl { s with
      conn := { s.conn with ibuf := ibuf₁ }
      stack := [.parse] } rfl rfl
    rcases hok with ⟨rfl, hf, hadj⟩ | ⟨rfl, hne, rfl⟩
    · have hlast : step me fd { s with
          conn := { s.conn with ibuf := ibuf₂ }
          stack := [.parse] } .turn = some { s with
          conn := { s.conn with ibuf := ibuf' }
          stack := [] } := by
        simp only [step, turn, hstop rfl, hadj, Outcome.ok_bind]
        rfl
      exact ⟨_, _, .cons hst (hrun.append (.cons hlast (.nil _))), (hmore hf).symm, rfl⟩
    · obtain ⟨bs, t, hrun', hconn, ht⟩ := run_clean me fd { s with
        conn := { s.conn with ibuf := ibuf' }
        stack := [.clean] } rfl
      exact ⟨_, t, .cons hst (hrun.append hrun'), hconn.trans (hclean hne).symm, ht⟩

theorem run_doWrite {res : List WriteResult} {taken : List UInt8} (hstack : s.stack = [])
    (h : s.conn.doWrite res = .ok (taken, c')) :
    ∃ as t, (connLife me fd).Run s as t ∧ t.conn = c' ∧ t.stack = [] := by
  obtain ⟨fin, obuf', hw, ⟨rfl, rfl⟩ | ⟨rfl, rfl⟩ | ⟨rfl, loop, hdel, rfl⟩⟩ :=
    TcpConn.doWrite_cases h
  · have hst : s.step me fd (.doWrite res) =
        some { s with conn := { s.conn with obuf := obuf' } } := by
      simp only [step, hstack, if_true, doWrite, hw, Outcome.ok_bind]
      rfl
    exact ⟨_, _, .cons hst (.nil _), rfl, hstack⟩
  · have hst : s.step me fd (.doWrite res) = some { s with
        conn := { s.conn with obuf := obuf' }
        stack := [.clean] } := by
      simp only [step, hstack, if_true, doWrite, hw, Outcome.ok_bind]
      rfl
    obtain ⟨as, t, hrun, hconn, ht⟩ := run_clean me fd { s with
      conn := { s.conn with obuf := obuf' }
      stack := [.clean] } rfl
    exact ⟨_, t, .cons hst hrun, hconn, ht⟩
  · have hst : s.step me fd (.doWrite res) =
        some { s with conn := { s.conn with obuf := obuf', loop := loop } } := by
      simp only [step, hstack, if_true, doWrite, hw, Outcome.ok_bind, hdel]
      rfl
    exact ⟨_, _, .cons hst (.nil _), rfl, hstack⟩

end

end ConnLife

/-- The hooks that have not returned. -/
def hooks (stack : List Frame) : List Frame :=
  stack.filter fun f ↦ decide (f = .startHook ∨ f = .endHook)

namespace ConnLife

variable {me : ℕ} {fd : Int} {s t : ConnLife} {a : ConnAction}

/-- The tear-down has not begun. -/
structure Living (me : ℕ) (fd : Int) (s : ConnLife) : Prop where
  calls : .endHook ∉ s.conn.calls
  ends : s.ends = []
  pushed : s.pushed = []
  torn : s.torn = false
  param : s.param ≠ none
  stack : hooks s.stack = [.startHook] ∨ hooks s.stack = [] ∧ s.ser.conns[fd]? = some me

/-- The end hook has been called. -/
structure Ending (me : ℕ) (fd : Int) (s : ConnLife) : Prop where
  calls : .endHook ∈ s.conn.calls
  ends : ∃ set, s.ends = [some set]
  pushed : s.pushed = []
  torn : s.torn = false
  stack : hooks s.stack = [.endHook]
  conns : s.ser.conns[fd]? = some me

/-- The tear-down is over. -/
structure Ended (me : ℕ) (fd : Int) (s : ConnLife) : Prop where
  calls : .endHook ∈ s.conn.calls
  ends : ∃ set, s.ends = [some set]
  pushed : s.pushed = [some me]
  torn : s.torn = true
  stack : hooks s.stack = []
  conns : s.ser.conns[fd]? = none
  loop : s.conn.loop.ioEvns[fd]? = none

/-- What every step keeps. -/
structure Inv (me : ℕ) (fd : Int) (s : ConnLife) : Prop where
  sockfd : s.conn.sockfd = fd
  coherent : s.conn.loop.Coherent
  positive : .endHook ∈ s.conn.calls → 0 < fd
  stage : s.Living me fd ∨ s.Ending me fd ∨ s.Ended me fd

/-- A step that has nothing to do with the tear-down. -/
structure Frames (fd : Int) (s t : ConnLife) : Prop where
  sockfd : t.conn.sockfd = s.conn.sockfd
  coherent : t.conn.loop.Coherent
  calls : t.conn.calls = s.conn.calls
  conns : t.ser.conns[fd]? = s.ser.conns[fd]?
  param : t.param = none → s.param = none
  stack : hooks t.stack = hooks s.stack
  ends : t.ends = s.ends
  pushed : t.pushed = s.pushed
  torn : t.torn = s.torn
  loop : s.torn = true → s.conn.loop.ioEvns[fd]? = none → t.conn.loop.ioEvns[fd]? = none

theorem Inv.frames (h : s.Inv me fd) (hf : s.Frames fd t) : t.Inv me fd := by
  refine ⟨hf.sockfd.trans h.sockfd, hf.coherent, hf.calls ▸ h.positive, ?_⟩
  rcases h.stage with hl | he | hd
  · refine .inl ⟨?_, hf.ends.trans hl.ends, hf.pushed.trans hl.pushed, hf.torn.trans hl.torn,
      fun hnone ↦ hl.param (hf.param hnone), ?_⟩
    · rw [hf.calls]
      exact hl.calls
    · rw [hf.stack, hf.conns]
      exact hl.stack
  · refine .inr (.inl ⟨?_, ?_, hf.pushed.trans he.pushed, hf.torn.trans he.torn,
      hf.stack.trans he.stack, hf.conns.trans he.conns⟩)
    · rw [hf.calls]
      exact he.calls
    · rw [hf.ends]
      exact he.ends
  · refine .inr (.inr ⟨?_, ?_, hf.pushed.trans hd.pushed, hf.torn.trans hd.torn,
      hf.stack.trans hd.stack, hf.conns.trans hd.conns, hf.loop hd.torn hd.loop⟩)
    · rw [hf.calls]
      exact hd.calls
    · rw [hf.ends]
      exact hd.ends

/-- A step that changes the read buffer and calls or returns from functions other than
hooks. -/
theorem Inv.reading (h : s.Inv me fd) (ibuf : InBuf) {stack : List Frame}
    (hstack : hooks stack = hooks s.stack) :
    Inv me fd { s with conn := { s.conn with ibuf := ibuf }, stack := stack } :=
  h.frames ⟨rfl, h.coherent, rfl, rfl, id, hstack, rfl, rfl, rfl, fun _ ↦ id⟩

theorem Inv.doRead (h : s.Inv me fd) {alloc : Alloc} {sock : Socket}
    (hst : s.doRead alloc sock = .ok t) : t.Inv me fd := by
  obtain ⟨⟨readlen, ibuf⟩, -, hst⟩ := Outcome.bind_eq_ok.mp hst
  obtain rfl := Except.ok.inj hst
  refine h.reading ibuf ?_
  split <;> rfl

theorem Inv.turn (h : s.Inv me fd) {rest : List Frame} (hstack : s.stack = .parse :: rest)
    (hst : s.turn rest = .ok t) : t.Inv me fd := by
  obtain ⟨r, -, hst⟩ := Outcome.bind_eq_ok.mp hst
  cases r with
  | stop =>
      obtain ⟨ibuf, -, hst⟩ := Outcome.bind_eq_ok.mp hst
      obtain rfl := Except.ok.inj hst
      exact h.reading ibuf (hstack ▸ rfl)
  | abnormal =>
      obtain rfl := Except.ok.inj hst
      exact h.reading s.conn.ibuf (hstack ▸ rfl)
  | message m msglen ibuf =>
      obtain rfl := Except.ok.inj hst
      exact h.reading ibuf (hstack ▸ rfl)

theorem Inv.doWrite (h : s.Inv me fd) {res : List WriteResult} (hst : s.doWrite res = .ok t) :
    t.Inv me fd := by
  obtain ⟨⟨fin, taken, obuf⟩, -, hst⟩ := Outcome.bind_eq_ok.mp hst
  cases fin with
  | blocked =>
      obtain rfl := Except.ok.inj hst
      exact h.frames ⟨rfl, h.coherent, rfl, rfl, id, rfl, rfl, rfl, rfl, fun _ ↦ id⟩
  | failed =>
      obtain rfl := Except.ok.inj hst
      exact h.frames ⟨rfl, h.coherent, rfl, rfl, id, rfl, rfl, rfl, rfl, fun _ ↦ id⟩
  | done =>
      obtain ⟨loop, hdel, hst⟩ := Outcome.bind_eq_ok.mp hst
      obtain rfl := Except.ok.inj hst
      refine h.frames ⟨rfl, h.coherent.delEventMask hdel, rfl, rfl, id, rfl, rfl, rfl, rfl,
        fun _ hnone ↦ ?_⟩
      -- there is no event to remove after the tear-down
      change s.conn.loop.delEventMask s.conn.sockfd .writable = .ok loop at hdel
      rw [h.sockfd, EventLoop.delEventMask_of_none hnone] at hdel
      cases hdel

theorem Inv.sendMsg (h : s.Inv me fd) {alloc₁ alloc₂ : Alloc} {m : Message}
    (hc : s.Once (.sendMsg alloc₁ alloc₂ m)) (hst : s.sendMsg alloc₁ alloc₂ m = .ok t) :
    t.Inv me fd := by
  obtain ⟨⟨ret, c⟩, hs, hst⟩ := Outcome.bind_eq_ok.mp hst
  obtain rfl := Except.ok.inj hst
  obtain ⟨obuf, happ, ⟨-, rfl⟩ | ⟨hneg, rfl⟩⟩ := TcpConn.sendMsg_cases hs
  · exact h.frames ⟨rfl, h.coherent, rfl, rfl, id, rfl, rfl, rfl, rfl, fun _ ↦ id⟩
  · refine h.frames ⟨rfl, h.coherent.addEvent s.conn.sockfd .epollout .writeCb, rfl, rfl, id, rfl,
      rfl, rfl, rfl, fun htorn ↦ ?_⟩
    refine absurd ((appendMsg_neg_iff happ).mpr ?_) hneg
    rcases hc with hc | hc
    · rw [htorn] at hc
      cases hc
    · exact hc

/-- The first `clean` keeps the invariant up to the end hook. -/
theorem Inv.clean (h : s.Inv me fd) {rest : List Frame} (hstack : s.stack = .clean :: rest)
    (hc : s.Once .clean) : (s.clean rest).Inv me fd := by
  obtain ⟨hpos, hcalls, hstart⟩ := hc
  have hl : s.Living me fd := h.stage.resolve_right fun he ↦
    hcalls (he.elim Ending.calls Ended.calls)
  have hrest : hooks s.stack = hooks rest := hstack ▸ rfl
  obtain ⟨hnone, hconns⟩ : hooks s.stack = [] ∧ s.ser.conns[fd]? = some me := by
    refine hl.stack.resolve_left fun hone ↦ hstart ?_
    exact (List.mem_filter.mp (hone ▸ List.mem_cons_self : Frame.startHook ∈ hooks s.stack)).1
  obtain ⟨set, hset⟩ := Option.ne_none_iff_exists'.mp hl.param
  rw [ConnLife.clean, if_pos hpos]
  refine ⟨h.sockfd, h.coherent, fun _ ↦ h.sockfd ▸ hpos,
    .inr (.inl ⟨?_, ⟨set, ?_⟩, hl.pushed, hl.torn, ?_, hconns⟩)⟩
  · exact List.mem_append_right _ List.mem_cons_self
  · rw [hl.ends, hset]
    rfl
  · rw [show hooks (Frame.endHook :: rest) = .endHook :: hooks rest from rfl, ← hrest, hnone]

/-- The end hook returns. -/
theorem Inv.tearDown (h : s.Inv me fd) {rest : List Frame} (hstack : s.stack = .endHook :: rest) :
    (s.tearDown rest).Inv me fd := by
  have hhooks : hooks s.stack = .endHook :: hooks rest := hstack ▸ rfl
  obtain hl | he | hd := h.stage
  · exfalso
    rcases hl.stack with hone | ⟨hnone, -⟩
    · rw [hhooks] at hone
      cases (List.cons.inj hone).1
    · rw [hhooks] at hnone
      cases hnone
  · refine ⟨h.sockfd, h.coherent.delEvent _, fun _ ↦ h.positive he.calls,
      .inr (.inr ⟨List.mem_append_left _ he.calls, he.ends, ?_, rfl, ?_, ?_, ?_⟩)⟩
    · simp only [ConnLife.tearDown, he.pushed, h.sockfd, he.conns, List.nil_append]
    · exact (List.cons.inj (hhooks.symm.trans he.stack)).2
    · simp only [ConnLife.tearDown, TcpServer.conns_decreaseConn, h.sockfd]
      exact Table.getElem?_erase.trans (if_pos rfl)
    · exact Table.getElem?_erase.trans (if_pos h.sockfd.symm)
  · have := hd.stack
    rw [hhooks] at this
    cases this

/-- The start hook returns, and the connection is filed. -/
theorem Inv.increaseConn (h : s.Inv me fd) {rest : List Frame}
    (hstack : s.stack = .startHook :: rest) :
    Inv me fd { s with ser := s.ser.increaseConn s.conn.sockfd me, stack := rest } := by
  have hhooks : hooks s.stack = .startHook :: hooks rest := hstack ▸ rfl
  obtain hl | he | hd := h.stage
  · refine ⟨h.sockfd, h.coherent, h.positive, .inl ⟨hl.calls, hl.ends, hl.pushed, hl.torn, hl.param,
      .inr ⟨?_, ?_⟩⟩⟩
    · rcases hl.stack with hone | ⟨hnone, -⟩
      · exact (List.cons.inj (hhooks.symm.trans hone)).2
      · rw [hhooks] at hnone
        cases hnone
    · exact Table.getElem?_insert.trans (if_pos h.sockfd.symm)
  · have := hhooks.symm.trans he.stack
    cases (List.cons.inj this).1
  · have := hd.stack
    rw [hhooks] at this
    cases this

/-- A callback or a hook returns. -/
theorem Inv.ret (h : s.Inv me fd) (hst : s.step me fd .ret = some t) : t.Inv me fd := by
  simp only [step] at hst
  split at hst
  · rename_i msglen rest hstack
    obtain rfl := Option.some.inj hst
    exact h.reading (s.conn.ibuf.pop msglen) (hstack ▸ rfl)
  · rename_i rest hstack
    obtain rfl := Option.some.inj hst
    exact h.increaseConn hstack
  · rename_i rest hstack
    obtain rfl := Option.some.inj hst
    exact h.tearDown hstack
  · cases hst

/-- Another thread leaves the entry of the connection alone. -/
theorem Inv.server (h : s.Inv me fd) {op : ServerOp} (hst : s.server me fd op = some t) :
    t.Inv me fd := by
  have hser : ∀ ser : TcpServer, ser.conns[fd]? = s.ser.conns[fd]? →
      Inv me fd { s with ser := ser } := fun ser hconns ↦
    h.frames ⟨rfl, h.coherent, rfl, hconns, id, rfl, rfl, rfl, rfl, fun _ ↦ id⟩
  cases op with
  | increaseConn connfd conn =>
      obtain ⟨⟨hne, -⟩, hst⟩ := Option.ite_none_right_eq_some.mp hst
      obtain rfl := Option.some.inj hst
      exact hser _ (Table.getElem?_insert.trans (if_neg hne.symm))
  | decreaseConn connfd =>
      obtain ⟨hne, hst⟩ := Option.ite_none_right_eq_some.mp hst
      obtain rfl := Option.some.inj hst
      refine hser _ ?_
      rw [TcpServer.conns_decreaseConn]
      exact Table.getElem?_erase.trans (if_neg hne.symm)
  | takeRel =>
      simp only [ConnLife.server] at hst
      split at hst
      · rename_i conn ser htake
        obtain ⟨-, hst⟩ := Option.ite_none_right_eq_some.mp hst
        obtain rfl := Option.some.inj hst
        exact hser ser (by rw [TcpServer.conns_takeRel htake])
      · cases hst
  | rearm =>
      obtain rfl := Option.some.inj hst
      exact hser _ rfl

/-- Every step keeps the invariant, when `clean` is called once. -/
theorem Inv.step (h : s.Inv me fd) (hc : s.Once a) (hst : s.step me fd a = some t) :
    t.Inv me fd := by
  cases a with
  | doRead alloc sock =>
      obtain ⟨-, hst⟩ := Option.ite_none_right_eq_some.mp hst
      exact h.doRead (Outcome.toOption_eq_some.mp hst)
  | turn =>
      simp only [ConnLife.step] at hst
      split at hst
      · rename_i rest hstack
        exact h.turn hstack (Outcome.toOption_eq_some.mp hst)
      · cases hst
  | doWrite res =>
      obtain ⟨-, hst⟩ := Option.ite_none_right_eq_some.mp hst
      exact h.doWrite (Outcome.toOption_eq_some.mp hst)
  | sendMsg alloc₁ alloc₂ m =>
      obtain ⟨-, hst⟩ := Option.ite_none_right_eq_some.mp hst
      exact h.sendMsg hc (Outcome.toOption_eq_some.mp hst)
  | disconnect =>
      obtain ⟨-, hst⟩ := Option.ite_none_right_eq_some.mp hst
      obtain rfl := Option.some.inj hst
      exact h.reading s.conn.ibuf rfl
  | getReq mod =>
      simp only [ConnLife.step] at hst
      split at hst
      · obtain rfl := Option.some.inj hst
        exact h.frames ⟨rfl, h.coherent, rfl, rfl, Option.map_eq_none_iff.mp, rfl, rfl, rfl, rfl,
          fun _ ↦ id⟩
      · cases hst
  | clean =>
      simp only [ConnLife.step] at hst
      split at hst
      · rename_i rest hstack
        obtain rfl := Option.some.inj hst
        exact h.clean hstack hc
      · cases hst
  | ret => exact h.ret hst
  | other op =>
      obtain ⟨hne, hst⟩ := Option.ite_none_right_eq_some.mp hst
      obtain ⟨loop, hop, hst⟩ := Option.bind_eq_some_iff.mp hst
      obtain rfl := Option.some.inj hst
      have hop := Outcome.toOption_eq_some.mp hop
      exact h.frames ⟨rfl, h.coherent.run hop, rfl, rfl, id, rfl, rfl, rfl, rfl,
        fun _ ↦ (h.coherent.getElem?_run hop hne.symm).trans⟩
  | server op => exact h.server hst

theorem inv_new {loop : EventLoop ConnCallback} {ser : TcpServer} (hc : loop.Coherent) :
    (new loop fd ser).Inv me fd := by
  have hcalls : .endHook ∉ (new loop fd ser).conn.calls := by
    change ServerCall.endHook ∉ [ServerCall.startHook]
    decide
  exact ⟨rfl, hc.addEvent fd .epollin .tcpSerReadCb, fun hmem ↦ absurd hmem hcalls,
    .inl ⟨hcalls, rfl, rfl, rfl, Option.some_ne_none _, .inl rfl⟩⟩

/-- The invariant holds in every run that calls `clean` once. -/
theorem inv_of_reachable (h : ((connLife me fd).restrict Once).Reachable s) : s.Inv me fd := by
  apply h.induction
  · rintro s ⟨loop, ser, hc, rfl⟩
    exact inv_new hc
  · exact fun s a t _ hi hst ↦ hi.step hst.1 hst.2

/-- The life cycle of a connection with the invariant is proper. -/
theorem Inv.proper (h : s.Inv me fd) : s.Proper me fd := by
  obtain hl | he | hd := h.stage
  · refine ⟨by rw [hl.ends]; decide, by rw [hl.ends]; exact List.not_mem_nil, .inl hl.pushed,
      fun htorn ↦ ?_⟩
    rw [hl.torn] at htorn
    cases htorn
  · obtain ⟨set, hset⟩ := he.ends
    refine ⟨by rw [hset]; exact le_rfl, by simp [hset], .inl he.pushed, fun htorn ↦ ?_⟩
    rw [he.torn] at htorn
    cases htorn
  · obtain ⟨set, hset⟩ := hd.ends
    have hno : fd ∉ s.conn.loop.ioEvns := fun hmem ↦ by
      obtain ⟨evn, hevn⟩ := Table.mem_iff_getElem?.mp hmem
      rw [hd.loop] at hevn
      cases hevn
    exact ⟨by rw [hset]; exact le_rfl, by simp [hset], .inr hd.pushed, fun _ ↦
      ⟨by rw [hset]; rfl, hd.pushed, hd.conns,
        fun hmem ↦ hno ((h.coherent.keys fd).mp hmem), hno⟩⟩

/-- A second `clean`, one on a descriptor that is not positive, and a message sent after the
tear-down end it. -/
theorem Inv.not_proper (h : s.Inv me fd) (hstart : .startHook ∉ s.stack) (hc : ¬s.Once a)
    (hst : s.step me fd a = some t) : ¬t.Proper me fd := by
  intro hp
  cases a with
  | clean =>
      simp only [ConnLife.step] at hst
      split at hst
      · rename_i rest hstack
        obtain rfl := Option.some.inj hst
        by_cases hpos : 0 < s.conn.sockfd
        · have hcalls : .endHook ∈ s.conn.calls := by
            by_contra hno
            exact hc ⟨hpos, hno, hstart⟩
          have hends : ∃ set, s.ends = [some set] := by
            obtain hl | he | hd := h.stage
            · exact absurd hcalls hl.calls
            · exact he.ends
            · exact hd.ends
          obtain ⟨set, hset⟩ := hends
          have hle := hp.ends_le
          simp [ConnLife.clean, hpos, hset] at hle
        · have hl : s.Living me fd := h.stage.resolve_right fun he ↦
            hpos (h.sockfd ▸ h.positive (he.elim Ending.calls Ended.calls))
          have htorn : (s.clean rest).torn = true := by
            rw [ConnLife.clean, if_neg hpos]
          have hone := (hp.torn htorn).1
          rw [ConnLife.clean, if_neg hpos] at hone
          simp [hl.ends] at hone
      · cases hst
  | sendMsg alloc₁ alloc₂ m =>
      obtain ⟨-, hst⟩ := Option.ite_none_right_eq_some.mp hst
      obtain ⟨⟨ret, c⟩, hs, hst⟩ := Outcome.bind_eq_ok.mp (Outcome.toOption_eq_some.mp hst)
      obtain rfl := Except.ok.inj hst
      obtain ⟨obuf, happ, hcases⟩ := TcpConn.sendMsg_cases hs
      obtain ⟨-, rfl⟩ := hcases.resolve_left fun hneg ↦
        hc (.inr ((appendMsg_neg_iff happ).mp hneg.1))
      have htorn : s.torn = true := by
        by_contra hno
        exact hc (.inl (Bool.eq_false_iff.mpr hno))
      have hmem := EventLoop.mem_addEvent s.conn.sockfd .epollout .writeCb s.conn.loop
      refine (hp.torn htorn).2.2.2.2 ?_
      rw [← h.sockfd]
      exact hmem
  | _ => exact hc trivial

end ConnLife

open ConnLife

/-- In every run of a connection of the DNS server in which `clean` is called once, after
`increase_conn` and with a positive descriptor, and in which messages sent after the
tear-down have no payload or a head that is refused: the life cycle is proper.  Once the
start hook has returned, it is not proper after any other call of `clean` nor after any
other message. -/
theorem proper_life_cycle (me : ℕ) (fd : Int) (s : ConnLife)
    (h : ((connLife me fd).restrict Once).Reachable s) :
    s.Proper me fd ∧
      (.startHook ∉ s.stack → ∀ a t, (connLife me fd).step s a t → ¬s.Once a →
        ¬t.Proper me fd) := by
  have hi := inv_of_reachable h
  exact ⟨hi.proper, fun hstart a t hst hc ↦ hi.not_proper hstart hc hst⟩

/-- A connection on descriptor 5 that disconnects once is handed over. -/
theorem proper_life_cycle_disconnect :
    ∃ s, ((connLife 100 5).restrict Once).Reachable s ∧ s.torn = true ∧ s.Proper 100 5 := by
  have h₀ : ((connLife 100 5).restrict Once).Reachable (.new .new 5 .new) :=
    .init ⟨.new, .new, EventLoop.coherent_new, rfl⟩
  have h₁ := h₀.next_restrict .ret trivial rfl
  have h₂ := h₁.next_restrict .disconnect trivial rfl
  have h₃ := h₂.next_restrict .clean ⟨by decide, by decide, by decide⟩ rfl
  have h₄ := h₃.next_restrict .ret trivial rfl
  exact ⟨_, h₄, rfl, (proper_life_cycle 100 5 _ h₄).1⟩

/-- `disconnect` is called twice. -/
def twice : List ConnAction :=
  [.ret, .disconnect, .clean, .ret, .disconnect, .clean, .ret]

/-- The second time the end hook finds a null parameter, and a null pointer is pushed. -/
theorem twice_not_proper :
    ∃ s, (connLife 100 5).Run (.new .new 5 .new) twice s ∧ (connLife 100 5).Reachable s ∧
      s.ends.map Option.isSome = [true, false] ∧ s.pushed = [some 100, none] ∧
      s.ser.relConns = [some 100, none] ∧ ¬s.Proper 100 5 := by
  obtain ⟨s, hs⟩ : ∃ s, twice.foldlM (step 100 5) (new .new 5 .new) = some s :=
    Option.isSome_iff_exists.mp (by decide)
  have hall : (twice.foldlM (step 100 5) (new .new 5 .new)).all (fun s ↦ decide
      (s.ends.map Option.isSome = [true, false] ∧ s.pushed = [some 100, none] ∧
        s.ser.relConns = [some 100, none])) = true := by decide
  rw [hs] at hall
  obtain ⟨hends, hpushed, hrel⟩ := of_decide_eq_true hall
  have hrun : (connLife 100 5).Run (.new .new 5 .new) twice s :=
    LTS.Run.foldlM (fun _ _ _ h ↦ h) hs
  have hnew : (connLife 100 5).Reachable (.new .new 5 .new) :=
    .init ⟨.new, .new, EventLoop.coherent_new, rfl⟩
  refine ⟨s, hrun, hnew.run hrun, hends, hpushed, hrel, fun hp ↦ ?_⟩
  have hle := hp.ends_le
  rw [← List.length_map Option.isSome, hends] at hle
  exact absurd hle (by decide)

end Ylars.Dns
