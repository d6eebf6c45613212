import Ylars.Lib.Transition
import Ylars.Reactor.Callbacks
import Ylars.Reactor.Epoll
import Ylars.Reactor.TcpClient

/-!
# The life of a client

`clean` drops the buffers and the events of a client, calls the end hook and closes the
socket; `_sockfd` is then -1.  Nothing opens it again.  The read and write callbacks are
not run any more, but `send_msg` can be called at any time: by tasks of the loop, which do
not look whether the client is connected, and by the end hook itself.

`ClientLife` is a client with the functions that have not returned.  The event loop runs
`connect_ser`, `do_read` and `do_write` when no other function is active; user code calls
`send_msg` and `disconnect`.  The kernel has nothing to read on a closed descriptor.
-/

namespace Ylars.Reactor

open Ylars.Lib ReactorBuf

namespace TcpClient

/-- `clean` up to the end hook. -/
def dropAll (c : TcpClient) : TcpClient :=
  { c with
    ibuf := c.ibuf.clear
    obuf := c.obuf.clear
    loop := c.loop.delEvent c.sockfd
    hooks := c.hooks ++ [.endHook] }

/-- `clean` after the end hook. -/
def closeSocket (c : TcpClient) : TcpClient := { c with sockfd := -1 }

theorem clean_eq (c : TcpClient) :
    c.clean = if 0 ≤ c.sockfd then c.dropAll.closeSocket else c := rfl

end TcpClient

/-- A client and the functions of it that have not returned, the innermost first. -/
structure ClientLife where
  client : TcpClient
  stack : List Frame

/-- What happens to a client. -/
inductive ClientAction where
  | connectSer (soError : Int)
  | doRead (alloc : Alloc) (fd : Socket)
  /-- A turn of the loop of `do_read`. -/
  | turn
  | doWrite (res : List WriteResult)
  | sendMsg (alloc₁ alloc₂ : Alloc) (m : Message)
  | disconnect
  /-- `clean` runs. -/
  | clean
  /-- A callback or the end hook returns. -/
  | ret
  /-- Another object on the loop calls the loop. -/
  | other (op : LoopOp ClientCallback)

namespace ClientLife

/-- `connect_ser`. -/
def connectSer (soError : Int) (s : ClientLife) : Outcome ClientLife :=
  if soError = 0 then do
    let c ← s.client.connectSer soError
    return { s with client := c }
  else do
    let loop ← s.client.loop.delEventMask s.client.sockfd .writable
    return { s with
      client := { s.client with loop := loop }
      stack := .clean :: s.stack }

/-- `do_read` up to its loop. -/
def doRead (alloc : Alloc) (fd : Socket) (s : ClientLife) : Outcome ClientLife := do
  let (readlen, ibuf) ← InBuf.readfd alloc fd s.client.ibuf
  return {
    client := { s.client with ibuf := ibuf }
    stack := (if readlen ≤ 0 then .clean else .parse) :: s.stack }

/-- A turn of the loop of `do_read`, which `rest` waits for. -/
def turn (nlMsgmax : Int) (rest : List Frame) (s : ClientLife) : Outcome ClientLife := do
  match ← readTurn nlMsgmax s.client.ibuf with
  | .stop => do
      let ibuf ← InBuf.adjust s.client.ibuf
      return ⟨{ s.client with ibuf := ibuf }, rest⟩
  | .abnormal => return { s with stack := .clean :: rest }
  | .message _ msglen ibuf =>
      return ⟨{ s.client with ibuf := ibuf }, .callback msglen :: .parse :: rest⟩

/-- `do_write`. -/
def doWrite (res : List WriteResult) (s : ClientLife) : Outcome ClientLife := do
  let (fin, _, obuf) ← writeLoop res s.client.obuf
  let c := { s.client with obuf := obuf }
  match fin with
  | .blocked => return { s with client := c }
  | .failed => return ⟨c, .clean :: s.stack⟩
  | .done => do
      let loop ← c.loop.delEventMask c.sockfd .writable
      return { s with client := { c with loop := loop } }

/-- `send_msg`. -/
def sendMsg (alloc₁ alloc₂ : Alloc) (m : Message) (s : ClientLife) : Outcome ClientLife := do
  let (_, c) ← s.client.sendMsg alloc₁ alloc₂ m
  return { s with client := c }

/-- `clean` up to the end hook, which `rest` waits for. -/
def clean (rest : List Frame) (s : ClientLife) : ClientLife :=
  if 0 ≤ s.client.sockfd then ⟨s.client.dropAll, .endHook :: rest⟩
  else { s with stack := rest }

/-- One step of the client with descriptor `fd`. -/
def step (nlMsgmax fd : Int) (s : ClientLife) : ClientAction → Option ClientLife
  | .connectSer soError => if s.stack = [] then (s.connectSer soError).toOption else none
  | .doRead alloc sock =>
      if s.stack = [] ∧ (s.client.sockfd < 0 → sock.needRead = none) then
        (s.doRead alloc sock).toOption
      else none
  | .turn =>
      match s.stack with
      | .parse :: rest => (s.turn nlMsgmax rest).toOption
      | _ => none
  | .doWrite res => if s.stack = [] then (s.doWrite res).toOption else none
  | .sendMsg alloc₁ alloc₂ m =>
      if Frame.userCode s.stack then (s.sendMsg alloc₁ alloc₂ m).toOption else none
  | .disconnect =>
      if Frame.userCode s.stack then some { s with stack := .clean :: s.stack } else none
  | .clean =>
      match s.stack with
      | .clean :: rest => some (s.clean rest)
      | _ => none
  | .ret =>
      match s.stack with
      | .callback msglen :: rest =>
          some ⟨{ s.client with ibuf := s.client.ibuf.pop msglen }, rest⟩
      | .endHook :: rest => some ⟨s.client.closeSocket, rest⟩
      | _ => none
  | .other op =>
      if op.evnfd ≠ fd ∧ op.evnfd ≠ -1 then do
        let loop ← (op.run s.client.loop).toOption
        return { s with client := { s.client with loop := loop } }
      else none

/-- The constructor has begun to connect; a `connect` that fails at once has asked for
`clean`. -/
def Started (fd : Int) (s : ClientLife) : Prop :=
  0 ≤ fd ∧ ∃ loop, loop.Coherent ∧ loop.ioEvns[(-1 : Int)]? = none ∧
    (s = ⟨.new loop fd, []⟩ ∨ s = ⟨⟨fd, loop, none, none, []⟩, [.clean]⟩)

/-- Nothing is left of a client that has closed its socket. -/
def Quiet (fd : Int) (s : ClientLife) : Prop :=
  s.client.sockfd < 0 →
    s.client.obuf.length = 0 ∧ s.client.ibuf.length = 0 ∧
      ∀ fd' : Int, fd' = fd ∨ fd' = -1 →
        fd' ∉ s.client.loop.lfds ∧ fd' ∉ s.client.loop.ioEvns

/-- `send_msg` finds the client open, and not in its end hook, or its head is refused. -/
def SendsOpen (s : ClientLife) : ClientAction → Prop
  | .sendMsg alloc₁ _ m =>
      (0 ≤ s.client.sockfd ∧ .endHook ∉ s.stack) ∨ s.client.obuf.Refused alloc₁ m.head.bytes
  | _ => True

end ClientLife

/-- A client with descriptor `fd` over any operations. -/
def clientLife (nlMsgmax fd : Int) : LTS ClientLife ClientAction where
  init := ClientLife.Started fd
  step s a t := s.step nlMsgmax fd a = some t

namespace ClientLife

/-! ## The functions of the class are runs

With callbacks and hooks that call nothing, the steps make up the functions of
`TcpClient`. -/

section

variable {nlMsgmax fd : Int} {c c' : TcpClient}

/-- A call of `clean` runs to its end. -/
theorem run_clean (nlMsgmax fd : Int) (c : TcpClient) (rest : List Frame) :
    ∃ as, (clientLife nlMsgmax fd).Run ⟨c, .clean :: rest⟩ as ⟨c.clean, rest⟩ := by
  rw [c.clean_eq]
  by_cases hopen : 0 ≤ c.sockfd
  · rw [if_pos hopen]
    have hst : step nlMsgmax fd ⟨c, .clean :: rest⟩ .clean = some ⟨c.dropAll, .endHook :: rest⟩ :=
      congrArg some (if_pos hopen)
    exact ⟨[.clean, .ret], .cons hst (.cons rfl (.nil _))⟩
  · rw [if_neg hopen]
    have hst : step nlMsgmax fd ⟨c, .clean :: rest⟩ .clean = some ⟨c, rest⟩ :=
      congrArg some (if_neg hopen)
    exact ⟨[.clean], .cons hst (.nil _)⟩

theorem run_readLoop (fd : Int) (c : TcpClient) {n : ℕ} {ibuf ibuf' : InBuf}
    {ms : List Message} {ok : Bool} (hn : ibuf.length.toNat ≤ n)
    (h : readLoop nlMsgmax n ibuf = .ok (ms, ibuf', ok)) :
    ∃ as, (clientLife nlMsgmax fd).Run ⟨{ c with ibuf := ibuf }, [.parse]⟩ as
        ⟨{ c with ibuf := ibuf' }, [if ok then .parse else .clean]⟩ ∧
      (ok = true → readTurn nlMsgmax ibuf' = .ok .stop) := by
  refine readLoop_induction (P := fun b _ b' ok ↦
    ∃ as, (clientLife nlMsgmax fd).Run ⟨{ c with ibuf := b }, [.parse]⟩ as
        ⟨{ c with ibuf := b' }, [if ok then .parse else .clean]⟩ ∧
      (ok = true → readTurn nlMsgmax b' = .ok .stop)) ?_ ?_ ?_ hn h
  · exact fun b hr ↦ ⟨[], .nil _, fun _ ↦ hr⟩
  · intro b hr
    have hst : step nlMsgmax fd ⟨{ c with ibuf := b }, [.parse]⟩ .turn =
        some ⟨{ c with ibuf := b }, [.clean]⟩ := by
      simp only [step, turn, hr, Outcome.ok_bind]
      rfl
    exact ⟨[.turn], .cons hst (.nil _), fun hok ↦ by cases hok⟩
  · rintro b m msglen b₁ ms b₂ ok hr ⟨as, hrun, hstop⟩
    have hst : step nlMsgmax fd ⟨{ c with ibuf := b }, [.parse]⟩ .turn =
        some ⟨{ c with ibuf := b₁ }, [.callback msglen, .parse]⟩ := by
      simp only [step, turn, hr, Outcome.ok_bind]
      rfl
    exact ⟨.turn :: .ret :: as, .cons hst (.cons rfl hrun), hstop⟩

theorem run_doRead {alloc : Alloc} {sock : Socket} {ms : List Message}
    (hclosed : c.sockfd < 0 → sock.needRead = none)
    (h : c.doRead nlMsgmax alloc sock = .ok (ms, c')) :
    ∃ as, (clientLife nlMsgmax fd).Run ⟨c, []⟩ as ⟨c', []⟩ := by
  obtain ⟨fin, ibuf', hread, hfin⟩ := TcpClient.doRead_cases h
  obtain ⟨readlen, ibuf₁, hrd, hcases⟩ := readMsgs_cases hread
  have hst : step nlMsgmax fd ⟨c, []⟩ (.doRead alloc sock) =
      some ⟨{ c with ibuf := ibuf₁ }, [if readlen ≤ 0 then .clean else .parse]⟩ := by
    simp only [step, doRead, hrd, Outcome.ok_bind]
    exact if_pos ⟨trivial, hclosed⟩
  rcases hcases with ⟨hle, hne, rfl⟩ | ⟨hle, ibuf₂, ok, hl, hok⟩
  · rw [if_pos hle] at hst
    obtain rfl := (hfin.resolve_left fun hf ↦ hne hf.1).2
    obtain ⟨as, hrun⟩ := run_clean nlMsgmax fd { c with ibuf := ibuf' } []
    exact ⟨_, .cons hst hrun⟩
  · rw [if_neg hle] at hst
    obtain ⟨as, hrun, hstop⟩ := run_readLoop fd c le_rfl hl
    rcases hok with ⟨rfl, hf, hadj⟩ | ⟨rfl, hne, rfl⟩
    · have hlast : step nlMsgmax fd ⟨{ c with ibuf := ibuf₂ }, [.parse]⟩ .turn =
          some ⟨{ c with ibuf := ibuf' }, []⟩ := by
        simp only [step, turn, hstop rfl, hadj, Outcome.ok_bind]
        rfl
      obtain rfl := (hfin.resolve_right fun hne ↦ hne.1 hf).2
      exact ⟨_, .cons hst (hrun.append (.cons hlast (.nil _)))⟩
    · obtain rfl := (hfin.resolve_left fun hf ↦ hne hf.1).2
      obtain ⟨bs, hrun'⟩ := run_clean nlMsgmax fd { c with ibuf := ibuf' } []
      exact ⟨_, .cons hst (hrun.append hrun')⟩

theorem run_doWrite {res : List WriteResult} {taken : List UInt8}
    (h : c.doWrite res = .ok (taken, c')) :
    ∃ as, (clientLife nlMsgmax fd).Run ⟨c, []⟩ as ⟨c', []⟩ := by
  obtain ⟨fin, obuf', hw, ⟨rfl, rfl⟩ | ⟨rfl, rfl⟩ | ⟨rfl, loop, hdel, rfl⟩⟩ :=
    TcpClient.doWrite_cases h
  · have hst : step nlMsgmax fd ⟨c, []⟩ (.doWrite res) = some ⟨{ c with obuf := obuf' }, []⟩ := by
      simp only [step, doWrite, hw, Outcome.ok_bind]
      rfl
    exact ⟨_, .cons hst (.nil _)⟩
  · have hst : step nlMsgmax fd ⟨c, []⟩ (.doWrite res) =
        some ⟨{ c with obuf := obuf' }, [.clean]⟩ := by
      simp only [step, doWrite, hw, Outcome.ok_bind]
      rfl
    obtain ⟨as, hrun⟩ := run_clean nlMsgmax fd { c with obuf := obuf' } []
    exact ⟨_, .cons hst hrun⟩
  · have hst : step nlMsgmax fd ⟨c, []⟩ (.doWrite res) =
        some ⟨{ c with obuf := obuf', loop := loop }, []⟩ := by
      simp only [step, doWrite, hw, Outcome.ok_bind, hdel]
      rfl
    exact ⟨_, .cons hst (.nil _)⟩

theorem run_connectSer {soError : Int} (h : c.connectSer soError = .ok c') :
    ∃ as, (clientLife nlMsgmax fd).Run ⟨c, []⟩ as ⟨c', []⟩ := by
  by_cases he : soError = 0
  · have hst : step nlMsgmax fd ⟨c, []⟩ (.connectSer soError) = some ⟨c', []⟩ := by
      simp only [step, connectSer, if_pos he, h, Outcome.ok_bind]
      rfl
    exact ⟨_, .cons hst (.nil _)⟩
  · obtain ⟨loop, hdel, h⟩ := Outcome.bind_eq_ok.mp h
    rw [if_neg he] at h
    obtain rfl := Except.ok.inj h
    have hst : step nlMsgmax fd ⟨c, []⟩ (.connectSer soError) =
        some ⟨{ c with loop := loop }, [.clean]⟩ := by
      simp only [step, connectSer, if_neg he, hdel, Outcome.ok_bind]
      rfl
    obtain ⟨as, hrun⟩ := run_clean nlMsgmax fd { c with loop := loop } []
    exact ⟨_, .cons hst hrun⟩

end

variable {nlMsgmax fd : Int} {s t : ClientLife} {a : ClientAction}

/-- The client is closed, or about to be closed behind its end hook. -/
def Down (s : ClientLife) : Prop := s.client.sockfd < 0 ∨ .endHook ∈ s.stack

/-- What every step keeps. -/
structure Inv (fd : Int) (s : ClientLife) : Prop where
  nonneg : 0 ≤ fd
  coherent : s.client.loop.Coherent
  sockfd : s.client.sockfd = fd ∨ s.client.sockfd = -1
  minusOne : s.client.loop.ioEvns[(-1 : Int)]? = none
  down : s.Down → s.client.obuf = none ∧ s.client.ibuf = none ∧ s.client.loop.ioEvns[fd]? = none

theorem Inv.of_open (h : s.Inv fd) (hfd : t.client.sockfd = fd) (hc : t.client.loop.Coherent)
    (hm : t.client.loop.ioEvns[(-1 : Int)]? = none) (hstack : .endHook ∉ t.stack) : t.Inv fd :=
  ⟨h.nonneg, hc, .inl hfd, hm,
    fun hdown ↦ hdown.elim (fun hneg ↦ absurd h.nonneg (not_le.mpr (hfd ▸ hneg)))
      fun hmem ↦ absurd hmem hstack⟩

theorem Inv.reading (h : s.Inv fd) {ibuf : InBuf} {stack : List Frame}
    (hibuf : s.Down → ibuf = none) (hstack : .endHook ∈ stack → .endHook ∈ s.stack) :
    Inv fd ⟨{ s.client with ibuf := ibuf }, stack⟩ :=
  ⟨h.nonneg, h.coherent, h.sockfd, h.minusOne, fun hdown ↦
    have hs : s.Down := hdown.imp id hstack
    ⟨(h.down hs).1, hibuf hs, (h.down hs).2.2⟩⟩

theorem Inv.sockfd_eq (h : s.Inv fd) (hup : ¬s.client.sockfd < 0) : s.client.sockfd = fd :=
  h.sockfd.resolve_right fun hneg ↦ hup (by rw [hneg]; decide)

theorem Inv.up_of_delEventMask (h : s.Inv fd) {loop : EventLoop ClientCallback}
    (hdel : s.client.loop.delEventMask s.client.sockfd .writable = .ok loop) :
    s.client.sockfd = fd := by
  refine h.sockfd.resolve_right fun hneg ↦ ?_
  rw [hneg, EventLoop.delEventMask_of_none h.minusOne] at hdel
  cases hdel

/-- The table of a client, which has nothing for -1. -/
def Filed (loop : EventLoop ClientCallback) : Prop :=
  loop.Coherent ∧ loop.ioEvns[(-1 : Int)]? = none

theorem Filed.run (op : LoopOp ClientCallback) {loop loop' : EventLoop ClientCallback}
    (h : Filed loop) (hne : -1 ≠ op.evnfd) (hop : op.run loop = .ok loop') : Filed loop' :=
  ⟨h.1.run hop, (h.1.getElem?_run hop hne).trans h.2⟩

theorem Inv.connectSer (h : s.Inv fd) {soError : Int} (hstack : s.stack = [])
    (hst : s.connectSer soError = .ok t) : t.Inv fd := by
  have hne : -1 ≠ fd := by
    have := h.nonneg
    omega
  unfold ClientLife.connectSer at hst
  by_cases he : soError = 0
  · rw [if_pos he] at hst
    obtain ⟨c, hc, hst⟩ := Outcome.bind_eq_ok.mp hst
    obtain rfl := Except.ok.inj hst
    obtain ⟨loop, hdel, hc⟩ := Outcome.bind_eq_ok.mp hc
    rw [if_pos he] at hc
    obtain rfl := Except.ok.inj hc
    have hfd := h.up_of_delEventMask hdel
    have hne' : -1 ≠ s.client.sockfd := hfd ▸ hne
    have h₁ : Filed loop := Filed.run (.delEventMask s.client.sockfd .writable)
      ⟨h.coherent, h.minusOne⟩ hne' hdel
    have h₂ : Filed (loop.addEvent s.client.sockfd .readable .tcpCliReadCb) :=
      h₁.run (.addEvent s.client.sockfd .epollin .tcpCliReadCb) hne' rfl
    have h₃ : Filed ((loop.addEvent s.client.sockfd .readable .tcpCliReadCb).addEvent
        s.client.sockfd .writable .writeCb) :=
      h₂.run (.addEvent s.client.sockfd .epollout .writeCb) hne' rfl
    have hstack' : .endHook ∉ s.stack := hstack ▸ List.not_mem_nil
    by_cases hpos : 0 < s.client.obuf.length
    · simp only [if_pos hpos]
      exact h.of_open hfd h₃.1 h₃.2 hstack'
    · simp only [if_neg hpos]
      exact h.of_open hfd h₂.1 h₂.2 hstack'
  · rw [if_neg he] at hst
    obtain ⟨loop, hdel, hst⟩ := Outcome.bind_eq_ok.mp hst
    obtain rfl := Except.ok.inj hst
    have hfd := h.up_of_delEventMask hdel
    have h₁ : Filed loop := Filed.run (.delEventMask s.client.sockfd .writable)
      ⟨h.coherent, h.minusOne⟩ (show -1 ≠ s.client.sockfd from hfd ▸ hne) hdel
    exact h.of_open hfd h₁.1 h₁.2 (by simp [hstack])

theorem Inv.doRead (h : s.Inv fd) {alloc : Alloc} {sock : Socket} (hstack : s.stack = [])
    (hclosed : s.client.sockfd < 0 → sock.needRead = none)
    (hst : s.doRead alloc sock = .ok t) : t.Inv fd := by
  obtain ⟨⟨readlen, ibuf⟩, hrd, hst⟩ := Outcome.bind_eq_ok.mp hst
  obtain rfl := Except.ok.inj hst
  refine h.reading (fun hdown ↦ ?_) fun hmem ↦ ?_
  · have hneg : s.client.sockfd < 0 := hdown.resolve_right (hstack ▸ List.not_mem_nil)
    rw [InBuf.readfd, hclosed hneg] at hrd
    exact (Prod.mk.inj (Except.ok.inj hrd)).2.symm.trans (h.down hdown).2.1
  · rw [hstack] at hmem
    split at hmem <;> cases hmem <;> contradiction

theorem Inv.turn (h : s.Inv fd) {rest : List Frame} (hstack : s.stack = .parse :: rest)
    (hst : s.turn nlMsgmax rest = .ok t) : t.Inv fd := by
  have hrest : .endHook ∈ rest → .endHook ∈ s.stack := fun hmem ↦
    hstack ▸ List.mem_cons_of_mem _ hmem
  obtain ⟨r, hr, hst⟩ := Outcome.bind_eq_ok.mp hst
  cases r with
  | stop =>
      obtain ⟨ibuf, hadj, hst⟩ := Outcome.bind_eq_ok.mp hst
      obtain rfl := Except.ok.inj hst
      refine h.reading (fun hdown ↦ ?_) hrest
      rw [(h.down hdown).2.1] at hadj
      exact (Except.ok.inj hadj).symm
  | abnormal =>
      obtain rfl := Except.ok.inj hst
      refine h.reading (fun hdown ↦ (h.down hdown).2.1) fun hmem ↦ hrest ?_
      exact List.mem_of_ne_of_mem Frame.noConfusion hmem
  | message m msglen ibuf =>
      obtain rfl := Except.ok.inj hst
      refine h.reading (fun hdown ↦ ?_) fun hmem ↦ hrest ?_
      · rw [(h.down hdown).2.1, readTurn_none] at hr
        cases hr
      · exact List.mem_of_ne_of_mem Frame.noConfusion
          (List.mem_of_ne_of_mem Frame.noConfusion hmem)

theorem Inv.doWrite (h : s.Inv fd) {res : List WriteResult} (hstack : s.stack = [])
    (hst : s.doWrite res = .ok t) : t.Inv fd := by
  obtain ⟨⟨fin, taken, obuf⟩, hw, hst⟩ := Outcome.bind_eq_ok.mp hst
  have hne : -1 ≠ fd := by
    have := h.nonneg
    omega
  -- bytes are left or were there only of an open client
  have hup : fin ≠ .done → s.client.sockfd = fd := fun hfin ↦ by
    refine h.sockfd_eq fun hneg ↦ ?_
    have hpos := length_of_writeLoop hw hfin
    rw [(h.down (.inl hneg)).1] at hpos
    exact lt_irrefl 0 hpos
  cases fin with
  | blocked =>
      obtain rfl := Except.ok.inj hst
      exact h.of_open (hup WriteEnd.noConfusion) h.coherent h.minusOne (by simp [hstack])
  | failed =>
      obtain rfl := Except.ok.inj hst
      exact h.of_open (hup WriteEnd.noConfusion) h.coherent h.minusOne (by simp [hstack])
  | done =>
      obtain ⟨loop, hdel, hst⟩ := Outcome.bind_eq_ok.mp hst
      obtain rfl := Except.ok.inj hst
      have hfd := h.up_of_delEventMask hdel
      have h₁ : Filed loop := Filed.run (.delEventMask s.client.sockfd .writable)
        ⟨h.coherent, h.minusOne⟩ (show -1 ≠ s.client.sockfd from hfd ▸ hne) hdel
      exact h.of_open hfd h₁.1 h₁.2 (by simp [hstack])

theorem Inv.sendMsg (h : s.Inv fd) {alloc₁ alloc₂ : Alloc} {m : Message}
    (hc : s.SendsOpen (.sendMsg alloc₁ alloc₂ m)) (hst : s.sendMsg alloc₁ alloc₂ m = .ok t) :
    t.Inv fd := by
  obtain ⟨⟨ret, c⟩, hs, hst⟩ := Outcome.bind_eq_ok.mp hst
  obtain rfl := Except.ok.inj hst
  obtain ⟨obuf, happ, hcases⟩ := TcpClient.sendMsg_cases hs
  rcases hc with ⟨hopen, hstack⟩ | hrefused
  · have hfd : s.client.sockfd = fd := h.sockfd_eq (not_lt.mpr hopen)
    have hne : -1 ≠ s.client.sockfd := by omega
    rcases hcases with ⟨-, rfl⟩ | ⟨-, rfl⟩
    · exact h.of_open hfd h.coherent h.minusOne hstack
    · have h₁ : Filed (s.client.loop.addEvent s.client.sockfd .writable .writeCb) :=
        Filed.run (.addEvent s.client.sockfd .epollout .writeCb)
          ⟨h.coherent, h.minusOne⟩ hne rfl
      exact h.of_open hfd h₁.1 h₁.2 hstack
  · obtain ⟨rfl, rfl⟩ := appendMsg_of_refused hrefused happ
    obtain ⟨-, rfl⟩ := hcases.resolve_right fun hno ↦ hno.1 (by decide)
    exact h

theorem Inv.clean (h : s.Inv fd) {rest : List Frame} (hstack : s.stack = .clean :: rest) :
    (s.clean rest).Inv fd := by
  unfold ClientLife.clean
  by_cases hopen : 0 ≤ s.client.sockfd
  · rw [if_pos hopen]
    have hfd : s.client.sockfd = fd := h.sockfd_eq (not_lt.mpr hopen)
    have hne : -1 ≠ s.client.sockfd := by omega
    have h₁ : Filed (s.client.loop.delEvent s.client.sockfd) :=
      Filed.run (.delEvent s.client.sockfd) ⟨h.coherent, h.minusOne⟩ hne rfl
    refine ⟨h.nonneg, h₁.1, .inl hfd, h₁.2, fun _ ↦ ⟨rfl, rfl, ?_⟩⟩
    exact Table.getElem?_erase.trans (if_pos hfd.symm)
  · rw [if_neg hopen]
    exact h.reading (fun hdown ↦ (h.down hdown).2.1) fun hmem ↦
      hstack ▸ List.mem_cons_of_mem _ hmem

theorem Inv.other (h : s.Inv fd) {op : LoopOp ClientCallback} {loop : EventLoop ClientCallback}
    (hne : op.evnfd ≠ fd ∧ op.evnfd ≠ -1) (hop : op.run s.client.loop = .ok loop) :
    Inv fd { s with client := { s.client with loop := loop } } := by
  obtain ⟨hc, hm⟩ : Filed loop := Filed.run op ⟨h.coherent, h.minusOne⟩ hne.2.symm hop
  refine ⟨h.nonneg, hc, h.sockfd, hm, fun hdown ↦ ?_⟩
  obtain ⟨ho, hi, hl⟩ := h.down hdown
  exact ⟨ho, hi, (h.coherent.getElem?_run hop hne.1.symm).trans hl⟩

/-- A callback or the end hook returns. -/
theorem Inv.ret (h : s.Inv fd) (hst : s.step nlMsgmax fd .ret = some t) : t.Inv fd := by
  simp only [step] at hst
  split at hst
  · rename_i msglen rest hstack
    obtain rfl := Option.some.inj hst
    refine h.reading (fun hdown ↦ ?_) fun hmem ↦ hstack ▸ List.mem_cons_of_mem _ hmem
    rw [(h.down hdown).2.1]
    rfl
  · rename_i rest hstack
    obtain rfl := Option.some.inj hst
    refine ⟨h.nonneg, h.coherent, .inr rfl, h.minusOne, fun _ ↦ h.down (.inr ?_)⟩
    rw [hstack]
    exact List.mem_cons_self
  · cases hst

/-- Every step keeps the invariant, unless it is a `send_msg` on a client that is down. -/
theorem Inv.step (h : s.Inv fd) (hc : s.SendsOpen a) (hst : s.step nlMsgmax fd a = some t) :
    t.Inv fd := by
  cases a with
  | connectSer soError =>
      obtain ⟨hstack, hst⟩ := Option.ite_none_right_eq_some.mp hst
      exact h.connectSer hstack (Outcome.toOption_eq_some.mp hst)
  | doRead alloc sock =>
      obtain ⟨⟨hstack, hclosed⟩, hst⟩ := Option.ite_none_right_eq_some.mp hst
      exact h.doRead hstack hclosed (Outcome.toOption_eq_some.mp hst)
  | turn =>
      simp only [ClientLife.step] at hst
      split at hst
      · rename_i rest hstack
        exact h.turn hstack (Outcome.toOption_eq_some.mp hst)
      · cases hst
  | doWrite res =>
      obtain ⟨hstack, hst⟩ := Option.ite_none_right_eq_some.mp hst
      exact h.doWrite hstack (Outcome.toOption_eq_some.mp hst)
  | sendMsg alloc₁ alloc₂ m =>
      obtain ⟨-, hst⟩ := Option.ite_none_right_eq_some.mp hst
      exact h.sendMsg hc (Outcome.toOption_eq_some.mp hst)
  | disconnect =>
      obtain ⟨-, hst⟩ := Option.ite_none_right_eq_some.mp hst
      obtain rfl := Option.some.inj hst
      exact h.reading (fun hdown ↦ (h.down hdown).2.1) (List.mem_of_ne_of_mem Frame.noConfusion)
  | clean =>
      simp only [ClientLife.step] at hst
      split at hst
      · rename_i rest hstack
        obtain rfl := Option.some.inj hst
        exact h.clean hstack
      · cases hst
  | ret => exact h.ret hst
  | other op =>
      obtain ⟨hne, hst⟩ := Option.ite_none_right_eq_some.mp hst
      obtain ⟨loop, hop, hst⟩ := Option.bind_eq_some_iff.mp hst
      obtain rfl := Option.some.inj hst
      exact h.other hne (Outcome.toOption_eq_some.mp hop)

theorem inv_of_started (h : s.Started fd) : s.Inv fd := by
  obtain ⟨hfd, loop, hc, hm, rfl | rfl⟩ := h
  · have hne : -1 ≠ fd := by omega
    have h₁ : Filed (loop.addEvent fd .writable .connectSer) :=
      Filed.run (.addEvent fd .epollout .connectSer) ⟨hc, hm⟩ hne rfl
    refine ⟨hfd, h₁.1, .inl rfl, h₁.2, fun hdown ↦ ?_⟩
    exact hdown.elim (fun hneg ↦ absurd hfd (not_le.mpr hneg)) fun hmem ↦ by cases hmem
  · refine ⟨hfd, hc, .inl rfl, hm, fun hdown ↦ ?_⟩
    exact hdown.elim (fun hneg ↦ absurd hfd (not_le.mpr hneg)) fun hmem ↦ by
      cases hmem with
      | tail _ hmem => cases hmem

/-- The invariant holds in every run without a `send_msg` on a client that is down. -/
theorem inv_of_reachable (h : ((clientLife nlMsgmax fd).restrict SendsOpen).Reachable s) :
    s.Inv fd := by
  apply h.induction
  · exact fun s hs ↦ inv_of_started hs
  · exact fun s a t _ hi hst ↦ hi.step hst.1 hst.2

/-- Nothing is left of a client that has closed its socket. -/
theorem Inv.quiet (h : s.Inv fd) : s.Quiet fd := by
  intro hneg
  obtain ⟨hobuf, hibuf, hfile⟩ := h.down (.inl hneg)
  refine ⟨by rw [hobuf]; rfl, by rw [hibuf]; rfl, fun fd' hfd' ↦ ?_⟩
  have hnone : s.client.loop.ioEvns[fd']? = none := by
    rcases hfd' with rfl | rfl
    · exact hfile
    · exact h.minusOne
  have hno : fd' ∉ s.client.loop.ioEvns := fun hmem ↦ by
    obtain ⟨evn, he⟩ := Table.mem_iff_getElem?.mp hmem
    rw [hnone] at he
    cases he
  exact ⟨fun hmem ↦ hno ((h.coherent.keys fd').mp hmem), hno⟩

/-- A `send_msg` on a closed client, with a head that is not refused, leaves bytes or an
event. -/
theorem Inv.not_quiet_of_sendMsg (h : s.Inv fd) (hclosed : s.client.sockfd < 0)
    {alloc₁ alloc₂ : Alloc} {m : Message} (ha : FreshAlloc alloc₁)
    (hhead : ¬s.client.obuf.Refused alloc₁ m.head.bytes)
    (hst : s.sendMsg alloc₁ alloc₂ m = .ok t) : ¬t.Quiet fd := by
  intro hq
  obtain ⟨⟨ret, c⟩, hs, hst⟩ := Outcome.bind_eq_ok.mp hst
  obtain rfl := Except.ok.inj hst
  obtain ⟨obuf, happ, hcases⟩ := TcpClient.sendMsg_cases hs
  rcases hcases with ⟨hneg, rfl⟩ | ⟨-, rfl⟩
  · -- the head is left
    obtain ⟨⟨ret₁, obuf₁⟩, h₁, happ⟩ := Outcome.bind_eq_ok.mp happ
    rw [(h.down (.inl hclosed)).1] at h₁ hhead
    have hlen := OutBuf.length_sendData_none ha h₁ hhead
    rcases OutBuf.sendData_cases h₁ with ⟨-, hrefused, -⟩ | ⟨rfl, -, -⟩
    · exact hhead hrefused
    rcases OutBuf.sendData_cases happ with ⟨-, -, rfl⟩ | ⟨rfl, -, -⟩
    · have hzero := (hq hclosed).1
      simp only [hlen, MsgHead.length_bytes] at hzero
      cases hzero
    · exact lt_irrefl 0 hneg
  · -- the event is left
    have hfd : s.client.sockfd = -1 := h.sockfd.resolve_left fun hfd ↦
      absurd h.nonneg (not_le.mpr (hfd ▸ hclosed))
    have hmem := EventLoop.mem_addEvent s.client.sockfd .epollout .writeCb s.client.loop
    refine ((hq hclosed).2.2 (-1) (.inr rfl)).2 ?_
    rw [← hfd]
    exact hmem

end ClientLife

open ClientLife

/-- In every run of a client in which `send_msg` is called only while the client is open and
not in its end hook, or with a head that is refused: a client that has closed its socket
holds no bytes, and the loop has no entry for its descriptor nor for -1.  Such a client does
not stay so when `send_msg` is called with a head that is not refused. -/
theorem closed_client_quiet (nlMsgmax fd : Int) (s : ClientLife)
    (h : ((clientLife nlMsgmax fd).restrict SendsOpen).Reachable s) :
    s.Quiet fd ∧
      (s.client.sockfd < 0 → ∀ alloc₁ alloc₂ m t, FreshAlloc alloc₁ →
        ¬s.client.obuf.Refused alloc₁ m.head.bytes →
          (clientLife nlMsgmax fd).step s (.sendMsg alloc₁ alloc₂ m) t → ¬t.Quiet fd) := by
  have hi := inv_of_reachable h
  refine ⟨hi.quiet, fun hclosed alloc₁ alloc₂ m t ha hhead hst ↦ ?_⟩
  obtain ⟨-, hst⟩ := Option.ite_none_right_eq_some.mp hst
  exact hi.not_quiet_of_sendMsg hclosed ha hhead (Outcome.toOption_eq_some.mp hst)

/-- A client that begins to connect on descriptor 5. -/
def connecting : ClientLife := ⟨.new .new 5, []⟩

theorem started_connecting : connecting.Started 5 :=
  ⟨by decide, .new, EventLoop.coherent_new, Std.ExtTreeMap.getElem?_empty, .inl rfl⟩

/-- The client connects, sends a message and disconnects. -/
def leave : List ClientAction :=
  [.connectSer 0, .sendMsg exactAlloc exactAlloc ⟨1, [7, 8]⟩, .disconnect, .clean, .ret]

/-- A client that has left is quiet. -/
theorem closed_client_quiet_left :
    ∃ s, ((clientLife 100 5).restrict SendsOpen).Reachable s ∧ s.client.sockfd < 0 ∧
      s.Quiet 5 := by
  have h₀ : ((clientLife 100 5).restrict SendsOpen).Reachable connecting :=
    .init started_connecting
  have h₁ := h₀.next_restrict (.connectSer 0) trivial rfl
  have h₂ := h₁.next_restrict (.sendMsg exactAlloc exactAlloc ⟨1, [7, 8]⟩)
    (.inl ⟨by decide, List.not_mem_nil⟩) rfl
  have h₃ := h₂.next_restrict .disconnect trivial rfl
  have h₄ := h₃.next_restrict .clean trivial rfl
  have h₅ := h₄.next_restrict .ret trivial rfl
  exact ⟨_, h₅, by decide, (closed_client_quiet 100 5 _ h₅).1⟩

/-- A task of the loop sends a message after the client has left. -/
def lateSend : List ClientAction :=
  leave ++ [.sendMsg exactAlloc exactAlloc ⟨1, [7]⟩]

/-- A message sent after the client has left waits in it, and it is registered for -1. -/
theorem lateSend_not_quiet :
    ∃ s, (clientLife 100 5).Run connecting lateSend s ∧ (clientLife 100 5).Reachable s ∧
      s.client.sockfd < 0 ∧ s.client.obuf.length = 9 ∧ (-1 : Int) ∈ s.client.loop.ioEvns ∧
      ¬s.Quiet 5 := by
  obtain ⟨s, hs⟩ : ∃ s, lateSend.foldlM (step 100 5) connecting = some s :=
    Option.isSome_iff_exists.mp (by decide)
  have hall : (lateSend.foldlM (step 100 5) connecting).all (fun s ↦ decide
      (s.client.sockfd < 0 ∧ s.client.obuf.length = 9 ∧
        (-1 : Int) ∈ s.client.loop.ioEvns)) = true := by decide
  rw [hs] at hall
  obtain ⟨hclosed, hlen, hmem⟩ := of_decide_eq_true hall
  have hrun : (clientLife 100 5).Run connecting lateSend s :=
    LTS.Run.foldlM (fun _ _ _ h ↦ h) hs
  refine ⟨s, hrun, (LTS.Reachable.init started_connecting).run hrun, hclosed, hlen, hmem,
    fun hq ↦ ?_⟩
  exact ((hq hclosed).2.2 (-1) (.inr rfl)).2 hmem

end Ylars.Reactor
