import Ylars.Reactor.MessageIO

/-!
# Callbacks inside `do_read` and `clean`

`do_read` calls the router in the middle of its loop, and `clean` calls the end hook in the
middle of the tear-down.  What they call may send messages and disconnect, so that the rest
of the function runs on another object than the one it was called for.  A `Frame` is a
function that has been called and has not returned; an operation is a step on a stack of
them.

`readTurn` is one turn of the loop of `do_read`; with callbacks that do nothing the turns
are the loop (`readLoop_succ`).
-/

namespace Ylars.Reactor

/-- A function that has not returned. -/
inductive Frame where
  /-- The start hook, called by the constructor. -/
  | startHook
  /-- `do_read`, at the test of its loop. -/
  | parse
  /-- A callback of the router; `do_read` pops `msglen` bytes after it. -/
  | callback (msglen : Int)
  /-- `clean`, at its beginning. -/
  | clean
  /-- The end hook, called by `clean`. -/
  | endHook
deriving DecidableEq, Repr

namespace Frame

/-- The code that runs is not that of the class: the loop with its tasks, a callback or a
hook. -/
def userCode : List Frame → Bool
  | .parse :: _ => false
  | .clean :: _ => false
  | _ => true

end Frame

/-- What one turn of the loop of `do_read` finds. -/
inductive ReadTurn where
  /-- No whole message is there. -/
  | stop
  /-- The head is abnormal. -/
  | abnormal
  /-- A message for the router; its bytes are still at the front of the buffer. -/
  | message (m : Message) (msglen : Int) (ibuf : InBuf)

/-- One turn of the loop of `do_read`, up to the call of the router. -/
def readTurn (limit : Int) (ibuf : InBuf) : Outcome ReadTurn :=
  if ibuf.length < msgHeadLen then .ok .stop
  else do
    let bs ← ibuf.fetch msgHeadLen
    let head := MsgHead.ofBytes bs
    if limit < head.msglen.toInt ∨ head.msglen.toInt < 0 then .ok .abnormal
    else if ibuf.length - msgHeadLen < head.msglen.toInt then .ok .stop
    else do
      let ibuf := ibuf.pop msgHeadLen
      let data ← ibuf.fetch head.msglen.toInt
      return .message ⟨head.msgid, data⟩ head.msglen.toInt ibuf

/-- The loop of `do_read` takes its turns, where the router leaves the buffer alone. -/
theorem readLoop_succ (limit : Int) (n : ℕ) (ibuf : InBuf) :
    readLoop limit (n + 1) ibuf = (do
      match ← readTurn limit ibuf with
      | .stop => .ok ([], ibuf, true)
      | .abnormal => .ok ([], ibuf, false)
      | .message m msglen ibuf' => do
          let (ms, ibuf'', ok) ← readLoop limit n (ibuf'.pop msglen)
          return (m :: ms, ibuf'', ok)) := by
  rw [readLoop, readTurn]
  by_cases hshort : ibuf.length < msgHeadLen
  · rw [if_pos hshort, if_pos hshort]
    rfl
  rw [if_neg hshort, if_neg hshort]
  cases ibuf.fetch msgHeadLen with
  | error f => rfl
  | ok bs =>
      simp only [Outcome.ok_bind]
      generalize MsgHead.ofBytes bs = head
      by_cases hbad : limit < head.msglen.toInt ∨ head.msglen.toInt < 0
      · rw [if_pos hbad, if_pos hbad]
        rfl
      rw [if_neg hbad, if_neg hbad]
      by_cases hpart : ibuf.length - msgHeadLen < head.msglen.toInt
      · rw [if_pos hpart, if_pos hpart]
        rfl
      rw [if_neg hpart, if_neg hpart]
      cases (ibuf.pop msgHeadLen).fetch head.msglen.toInt with
      | error f => rfl
      | ok data => rfl

theorem readTurn_none (limit : Int) : readTurn limit none = .ok .stop :=
  if_pos (by decide)

variable {limit : Int} {ibuf ibuf' : InBuf} {m : Message} {msglen : Int}

theorem ReactorBuf.length_pop {n : Int} {buf : ReactorBuf} (hn : 0 ≤ n) (hle : n ≤ buf.length) :
    (buf.pop n).length = buf.length - n := by
  cases buf with
  | none =>
      change 0 = 0 - n
      have : n ≤ 0 := hle
      omega
  | some b => exact IoBuf.datalen_pop hn hle

/-- A message takes at least its head off the buffer. -/
theorem length_of_readTurn (h : readTurn limit ibuf = .ok (.message m msglen ibuf')) :
    msgHeadLen ≤ ibuf.length ∧ (ibuf'.pop msglen).length ≤ ibuf.length - msgHeadLen := by
  rw [readTurn] at h
  by_cases hshort : ibuf.length < msgHeadLen
  · rw [if_pos hshort] at h
    cases h
  rw [if_neg hshort] at h
  obtain ⟨bs, -, h⟩ := Outcome.bind_eq_ok.mp h
  by_cases hbad : limit < (MsgHead.ofBytes bs).msglen.toInt ∨ (MsgHead.ofBytes bs).msglen.toInt < 0
  · simp only [if_pos hbad] at h
    cases h
  simp only [if_neg hbad] at h
  by_cases hpart : ibuf.length - msgHeadLen < (MsgHead.ofBytes bs).msglen.toInt
  · rw [if_pos hpart] at h
    cases h
  rw [if_neg hpart] at h
  obtain ⟨data, -, h⟩ := Outcome.bind_eq_ok.mp h
  obtain ⟨-, rfl, rfl⟩ := ReadTurn.message.inj (Except.ok.inj h)
  have hhead := ReactorBuf.length_pop (n := msgHeadLen) (by decide) (not_lt.mp hshort)
  refine ⟨not_lt.mp hshort, ?_⟩
  rw [ReactorBuf.length_pop (by omega) (by omega), hhead]
  omega

/-- What holds of a buffer where the loop stops, of one where it finds an abnormal head, and
before a turn when it holds after it, holds of every loop with enough turns. -/
theorem readLoop_induction {P : InBuf → List Message → InBuf → Bool → Prop}
    (stop : ∀ b, readTurn limit b = .ok .stop → P b [] b true)
    (abnormal : ∀ b, readTurn limit b = .ok .abnormal → P b [] b false)
    (message : ∀ b m msglen b₁ ms b₂ ok, readTurn limit b = .ok (.message m msglen b₁) →
      P (b₁.pop msglen) ms b₂ ok → P b (m :: ms) b₂ ok)
    {n : ℕ} {ms : List Message} {ok : Bool} (hn : ibuf.length.toNat ≤ n)
    (h : readLoop limit n ibuf = .ok (ms, ibuf', ok)) : P ibuf ms ibuf' ok := by
  induction n generalizing ibuf ms with
  | zero =>
      obtain ⟨rfl, hrest⟩ := Prod.mk.inj (Except.ok.inj h)
      obtain ⟨rfl, rfl⟩ := Prod.mk.inj hrest
      refine stop ibuf (if_pos ?_)
      have : msgHeadLen = 8 := rfl
      omega
  | succ n ih =>
      rw [readLoop_succ] at h
      obtain ⟨r, hr, h⟩ := Outcome.bind_eq_ok.mp h
      cases r with
      | stop =>
          obtain ⟨rfl, hrest⟩ := Prod.mk.inj (Except.ok.inj h)
          obtain ⟨rfl, rfl⟩ := Prod.mk.inj hrest
          exact stop ibuf hr
      | abnormal =>
          obtain ⟨rfl, hrest⟩ := Prod.mk.inj (Except.ok.inj h)
          obtain ⟨rfl, rfl⟩ := Prod.mk.inj hrest
          exact abnormal ibuf hr
      | message m msglen b₁ =>
          obtain ⟨⟨ms', b₂, ok'⟩, hl, h⟩ := Outcome.bind_eq_ok.mp h
          obtain ⟨rfl, hrest⟩ := Prod.mk.inj (Except.ok.inj h)
          obtain ⟨rfl, rfl⟩ := Prod.mk.inj hrest
          obtain ⟨hhead, hlen⟩ := length_of_readTurn hr
          have : msgHeadLen = 8 := rfl
          exact message ibuf m msglen b₁ ms' b₂ ok' hr (ih (by omega) hl)

/-- What `do_read` does before a tear-down: `readfd`, and its loop when there is something to
read. -/
theorem readMsgs_cases {alloc : Alloc} {fd : Socket} {fin : ReadEnd} {ms : List Message}
    (h : readMsgs limit alloc fd ibuf = .ok (fin, ms, ibuf')) :
    ∃ readlen ibuf₁, InBuf.readfd alloc fd ibuf = .ok (readlen, ibuf₁) ∧
      ((readlen ≤ 0 ∧ fin ≠ .more ∧ ibuf' = ibuf₁) ∨
        (¬readlen ≤ 0 ∧ ∃ ibuf₂ ok,
          readLoop limit ibuf₁.length.toNat ibuf₁ = .ok (ms, ibuf₂, ok) ∧
            ((ok = true ∧ fin = .more ∧ InBuf.adjust ibuf₂ = .ok ibuf') ∨
              (ok = false ∧ fin ≠ .more ∧ ibuf' = ibuf₂)))) := by
  obtain ⟨⟨readlen, ibuf₁⟩, hrd, h⟩ := Outcome.bind_eq_ok.mp h
  refine ⟨readlen, ibuf₁, hrd, ?_⟩
  by_cases hzero : readlen = 0
  · simp only [if_pos hzero] at h
    obtain ⟨rfl, hrest⟩ := Prod.mk.inj (Except.ok.inj h)
    exact .inl ⟨hzero.le, ReadEnd.noConfusion, (Prod.mk.inj hrest).2.symm⟩
  by_cases hneg : readlen < 0
  · simp only [if_neg hzero, if_pos hneg] at h
    obtain ⟨rfl, hrest⟩ := Prod.mk.inj (Except.ok.inj h)
    exact .inl ⟨hneg.le, ReadEnd.noConfusion, (Prod.mk.inj hrest).2.symm⟩
  simp only [if_neg hzero, if_neg hneg] at h
  obtain ⟨⟨ms', ibuf₂, ok⟩, hl, h⟩ := Outcome.bind_eq_ok.mp h
  refine .inr ⟨by omega, ibuf₂, ok, ?_⟩
  cases ok with
  | true =>
      obtain ⟨ibuf₃, hadj, h⟩ := Outcome.bind_eq_ok.mp h
      obtain ⟨rfl, hrest⟩ := Prod.mk.inj (Except.ok.inj h)
      obtain ⟨rfl, rfl⟩ := Prod.mk.inj hrest
      exact ⟨hl, .inl ⟨rfl, rfl, hadj⟩⟩
  | false =>
      obtain ⟨rfl, hrest⟩ := Prod.mk.inj (Except.ok.inj h)
      obtain ⟨rfl, rfl⟩ := Prod.mk.inj hrest
      exact ⟨hl, .inr ⟨rfl, ReadEnd.noConfusion, rfl⟩⟩

end Ylars.Reactor
