import Ylars.Reactor.Drain

/-!
# A link drains

The same as for both directions holds of a `Link`, which carries the messages of the client
only: both ends stay open and wired as long as no call fails (`Link.Attended.step`), each
callback that `epoll_wait` finds something for lowers a rank, and when there is none left
nothing waits and nothing is on the wire (`Link.Attended.drained_of_rest`).
-/

namespace Ylars.Reactor

open Ylars.Lib ReactorBuf

theorem TcpConn.sockfd_clean (c : TcpConn) : c.clean.sockfd = c.sockfd := by
  unfold clean
  split <;> rfl

/-- No call fails. -/
def LinkOp.Smooth : LinkOp → Prop
  | .writable soError res => soError = 0 ∧ ∀ r ∈ res, r.Works
  | _ => True

namespace Link

/-- A new connection on descriptors that have no events registered yet. -/
def Fresh (s : Link) : Prop :=
  ∃ loop sockfd connLoop connfd, 0 ≤ sockfd ∧ 0 < connfd ∧ loop.Coherent ∧ connLoop.Coherent ∧
    loop.ioEvns[sockfd]? = none ∧ connLoop.ioEvns[connfd]? = none ∧
    s = .new loop sockfd connLoop connfd

/-- Whether a step is a callback that `epoll_wait` has found something for. -/
def Moves (s : Link) : LinkOp → Prop
  | .send _ _ _ => False
  | .writable soError res =>
      s.client.loop.writeCallback s.client.sockfd ≠ none ∧ soError = 0 ∧
        (∀ r ∈ res, r.Transient) ∧ 0 < transferred res
  | .deliver _ _ => s.conn.loop.registered s.conn.sockfd .epollin = some .tcpSerReadCb

/-- What is left to write and to read. -/
def rank (s : Link) : ℕ := s.client.rank + s.wire.length

/-- Both ends are open and wired. -/
structure Attended (s : Link) : Prop where
  reachable : runs.Reachable s
  clientOpen : s.client.Open
  connOpen : s.conn.Open
  client : s.client.Wired
  conn : s.conn.Wired

variable {s t : Link} {op : LinkOp} {soError : Int} {res : List WriteResult}

/-- A new connection is attended: both ends are open and wired. -/
theorem Fresh.attended (h : s.Fresh) : s.Attended := by
  obtain ⟨loop, sockfd, connLoop, connfd, hsock, hpos, hcl, hcc, hfd, hcfd, rfl⟩ := h
  refine ⟨.init ⟨loop, sockfd, connLoop, connfd, hsock, hpos, rfl⟩, hsock, ⟨hpos, ?_⟩,
    .inl (TcpClient.connecting_new hcl hfd), TcpConn.wired_new hcc hcfd⟩
  show ServerCall.endHook ∉ [ServerCall.startHook]
  decide

theorem writable_cases (h : s.client.Wired)
    (hst : s.step (.writable soError res) = .ok t) :
    (s.client.Connecting ∧
        ∃ c, s.client.connectSer soError = .ok c ∧ t = { s with client := c }) ∨
      (Reactor.Wired .tcpCliReadCb .writeCb s.client.loop s.client.sockfd s.client.obuf ∧
        (t = s ∧ s.client.loop.writeCallback s.client.sockfd = none ∨
          0 < s.client.obuf.length ∧ ∃ taken c, s.client.doWrite res = .ok (taken, c) ∧
            t = { s with
              client := c
              wire := s.wire ++ taken
              written := s.written ++ taken })) := by
  rcases h.callback_cases with ⟨hconnecting, hcb⟩ | ⟨hwired, hcb | ⟨hcb, hpos⟩⟩
  · simp only [Link.step, hcb, Outcome.bind_eq_ok] at hst
    obtain ⟨c, hc, ht⟩ := hst
    exact .inl ⟨hconnecting, c, hc, (Except.ok.inj ht).symm⟩
  · simp only [Link.step, hcb] at hst
    exact .inr ⟨hwired, .inl ⟨(Except.ok.inj hst).symm, hcb⟩⟩
  · simp only [Link.step, hcb, Outcome.bind_eq_ok] at hst
    obtain ⟨⟨taken, c⟩, hc, ht⟩ := hst
    exact .inr ⟨hwired, .inr ⟨hpos, taken, c, hc, (Except.ok.inj ht).symm⟩⟩

/-- A step in which no call fails keeps both ends open and wired. -/
theorem Attended.step (h : s.Attended) (he : s.Enabled op) (hop : op.Smooth)
    (hst : s.step op = .ok t) : t.Attended := by
  have hreach : runs.Reachable t := h.reachable.step (a := op) ⟨he, hst⟩
  have hinv := inv_of_reachable h.reachable
  cases op with
  | send p₁ p₂ m =>
      simp only [Link.step, Outcome.bind_eq_ok] at hst
      obtain ⟨⟨ret, c⟩, hs, ht⟩ := hst
      obtain rfl := Except.ok.inj ht
      refine ⟨hreach, ?_, h.connOpen, h.client.sendMsg hinv.obuf he.1 hs, h.conn⟩
      obtain ⟨obuf, -, ⟨-, rfl⟩ | ⟨-, rfl⟩⟩ := TcpClient.sendMsg_cases hs
      · exact h.clientOpen
      · exact h.clientOpen
  | writable soError res =>
      obtain ⟨rfl, hres⟩ := hop
      rcases writable_cases h.client hst with
        ⟨hconnecting, c, hc, rfl⟩ | ⟨hwired, ⟨rfl, -⟩ | ⟨-, taken, c, hw, rfl⟩⟩
      · refine ⟨hreach, ?_, h.connOpen, .inr (hconnecting.connectSer hc), h.conn⟩
        obtain ⟨loop, -, hc⟩ := Outcome.bind_eq_ok.mp hc
        obtain rfl := Except.ok.inj ((if_pos rfl).symm.trans hc)
        exact h.clientOpen
      · exact h
      · have hopen : c.Open := by
          obtain ⟨fin, obuf, hloop, ⟨-, rfl⟩ | ⟨hfin, rfl⟩ | ⟨-, loop, -, rfl⟩⟩ :=
            TcpClient.doWrite_cases hw
          · exact h.clientOpen
          · exact absurd hfin (writeLoop_ne_failed hres hloop)
          · exact h.clientOpen
        exact ⟨hreach, hopen, h.connOpen, .inr (TcpClient.Wired.doWrite hwired hw hopen), h.conn⟩
  | deliver p chunk =>
      have hcalls := (inv_of_reachable hreach).calls
      simp only [Link.step, Outcome.bind_eq_ok] at hst
      obtain ⟨⟨ms, c⟩, hd, ht⟩ := hst
      obtain rfl := Except.ok.inj ht
      have hopen : c.Open := by
        refine ⟨?_, fun hmem ↦ ?_⟩
        · obtain ⟨fin, ibuf, -, ⟨-, rfl⟩ | ⟨-, rfl⟩⟩ := TcpConn.doRead_cases hd
          · exact h.connOpen.1
          · rw [TcpConn.sockfd_clean]
            exact h.connOpen.1
        · rw [show c.calls = [.startHook] from hcalls] at hmem
          revert hmem
          decide
      exact ⟨hreach, h.clientOpen, hopen, h.client, TcpConn.Wired.doRead h.conn hd hopen⟩

/-- A callback that `epoll_wait` has found something for does not fail. -/
theorem Moves.smooth (h : s.Moves op) : op.Smooth := by
  cases op with
  | send p₁ p₂ m => exact trivial
  | writable soError res => exact ⟨h.2.1, fun r hr ↦ (h.2.2.1 r hr).works⟩
  | deliver p chunk => exact trivial

/-- A callback for which `epoll_wait` finds something lowers the rank of the connection. -/
theorem Attended.rank_lt (h : s.Attended) (ht : t.Attended) (he : s.Enabled op) (hm : s.Moves op)
    (hst : s.step op = .ok t) : t.rank < s.rank := by
  cases op with
  | send p₁ p₂ m => exact absurd hm id
  | writable soError res =>
      obtain ⟨hcb, rfl, htr, hpos⟩ := hm
      rcases writable_cases h.client hst with
        ⟨hconnecting, c, hc, rfl⟩ | ⟨hwired, ⟨-, hnone⟩ | ⟨hlen, taken, c, hw, rfl⟩⟩
      · exact Nat.add_lt_add_right (hconnecting.rank_lt hc ht.clientOpen) _
      · exact absurd hnone hcb
      · have hready := (inv_of_reachable h.reachable).obuf
        have hlt := TcpClient.Wired.rank_lt hwired hready hlen htr hpos hw ht.clientOpen
        simp only [rank, List.length_append]
        omega
  | deliver p chunk =>
      obtain ⟨hne, hchunk⟩ := he
      have hpos := List.length_pos_of_ne_nil hne
      have hle := hchunk.length_le
      simp only [Link.step, Outcome.bind_eq_ok] at hst
      obtain ⟨⟨ms, c⟩, hd, ht⟩ := hst
      obtain rfl := Except.ok.inj ht
      simp only [rank, List.length_drop]
      omega

/-- When `epoll_wait` finds nothing, the connection is there, nothing waits and nothing is on
the wire. -/
theorem Attended.drained_of_rest (h : s.Attended)
    (hrest : ∀ op t, s.Enabled op → s.Moves op → s.step op ≠ .ok t) :
    s.client.loop.writeCallback s.client.sockfd = none ∧ s.client.obuf.content = [] ∧
      s.wire = [] := by
  have hno : ∀ op, s.Enabled op → ¬s.Moves op := fun op he hm ↦ by
    obtain ⟨t, hst, -⟩ := (inv_of_reachable h.reachable).step he
    exact hrest op t he hm hst
  have hcb : s.client.loop.writeCallback s.client.sockfd = none := by
    by_contra hcb
    have hbyte : (∀ r ∈ [WriteResult.wrote 1], r.Transient) ∧ 0 < transferred [.wrote 1] := by
      decide
    exact hno (.writable 0 [.wrote 1]) h.clientOpen ⟨hcb, rfl, hbyte⟩
  refine ⟨hcb, ?_, ?_⟩
  · by_contra hne
    have hpos := (inv_of_reachable h.reachable).obuf.length_pos.mpr hne
    rcases h.client.callback_cases with ⟨-, hcb'⟩ | ⟨hwired, -⟩
    · cases hcb.symm.trans hcb'
    · cases hcb.symm.trans (hwired.writeCallback_of_pos hpos)
  · by_contra hne
    exact hno (.deliver exactPool s.wire) ⟨hne, List.prefix_rfl⟩ h.conn.reads

theorem fresh_new : (new .new 3 .new 5).Fresh :=
  ⟨.new, 3, .new, 5, by decide, by decide, EventLoop.coherent_new, EventLoop.coherent_new,
    Std.ExtTreeMap.getElem?_empty, Std.ExtTreeMap.getElem?_empty, rfl⟩

end Link

end Ylars.Reactor
