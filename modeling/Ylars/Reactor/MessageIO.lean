import Ylars.Reactor.Message
import Ylars.Reactor.ReactorBuf

/-!
# Sending and receiving messages through the buffers

`tcp_conn` and `tcp_client` contain the same three loops: `send_msg` appends a head
and the bytes of a message to the write buffer, `do_write` writes until the buffer is
empty or the socket is full, and `do_read` reads what is pending and takes messages
off the read buffer.  They differ in the limit of `do_read` and in what they do with
the result; the loops are modelled here once, with the limit as a parameter.

The read loop on the bytes of the buffer is the parser of the framing `framing limit`
(`readLoop_eq`).
-/

namespace Ylars.Reactor

open Ylars.Lib ReactorBuf

/-- The two `send_data` calls of `send_msg`: the head, then the bytes. -/
def appendMsg (alloc₁ alloc₂ : Alloc) (m : Message) (obuf : OutBuf) :
    Outcome (Int × OutBuf) := do
  let (ret, obuf) ← OutBuf.sendData alloc₁ m.head.bytes obuf
  if ret < 0 then .ok (ret, obuf)
  else OutBuf.sendData alloc₂ m.data obuf

/-- How the loop of `do_write` ends. -/
inductive WriteEnd where
  /-- Everything is written. -/
  | done
  /-- The socket takes no more. -/
  | blocked
  /-- Writing fails. -/
  | failed
deriving DecidableEq, Repr

/-- The loop of `do_write`.  The socket gives the answers `res` and then takes no more.
The bytes written are returned. -/
def writeLoop : List WriteResult → OutBuf → Outcome (WriteEnd × List UInt8 × OutBuf)
  | [], obuf => .ok (if 0 < obuf.length then .blocked else .done, [], obuf)
  | r :: res, obuf =>
      if 0 < obuf.length then do
        let (ret, taken, obuf) ← OutBuf.write2fd r obuf
        if ret < 0 then .ok (.failed, taken, obuf)
        else if ret = 0 then .ok (.blocked, taken, obuf)
        else do
          let (fin, taken', obuf) ← writeLoop res obuf
          return (fin, taken ++ taken', obuf)
      else .ok (.done, [], obuf)

/-- The loop of `do_read`, at most `n` times: the messages handed to the router, the
buffer, and whether no abnormal head was met. -/
def readLoop (limit : Int) : Nat → InBuf → Outcome (List Message × InBuf × Bool)
  | 0, ibuf => .ok ([], ibuf, true)
  | n + 1, ibuf =>
      if ibuf.length < msgHeadLen then .ok ([], ibuf, true)
      else do
        let bs ← ibuf.fetch msgHeadLen
        let head := MsgHead.ofBytes bs
        if limit < head.msglen.toInt ∨ head.msglen.toInt < 0 then .ok ([], ibuf, false)
        else if ibuf.length - msgHeadLen < head.msglen.toInt then .ok ([], ibuf, true)
        else do
          let ibuf := ibuf.pop msgHeadLen
          let data ← ibuf.fetch head.msglen.toInt
          let (ms, ibuf, ok) ← readLoop limit n (ibuf.pop head.msglen.toInt)
          return (⟨head.msgid, data⟩ :: ms, ibuf, ok)

/-- How `do_read` ends. -/
inductive ReadEnd where
  /-- The connection goes on. -/
  | more
  /-- The other end has closed. -/
  | closed
  /-- Reading fails. -/
  | failed
  /-- A head is abnormal. -/
  | abnormal
deriving DecidableEq, Repr

/-- `do_read` up to the tear-down: the end, the messages handed to the router and the
buffer.  Each turn of the loop takes at least a head off the buffer, so as many turns as
there are bytes are enough. -/
def readMsgs (limit : Int) (alloc : Alloc) (fd : Socket) (ibuf : InBuf) :
    Outcome (ReadEnd × List Message × InBuf) := do
  let (readlen, ibuf) ← InBuf.readfd alloc fd ibuf
  if readlen = 0 then .ok (.closed, [], ibuf)
  else if readlen < 0 then .ok (.failed, [], ibuf)
  else do
    let (ms, ibuf, ok) ← readLoop limit ibuf.length.toNat ibuf
    if ok then do
      let ibuf ← InBuf.adjust ibuf
      return (.more, ms, ibuf)
    else .ok (.abnormal, ms, ibuf)

/-- The rest of `do_read` up to the tear-down, after `readfd`. -/
def routeMsgs (limit : Int) (readlen : Int) (ibuf : InBuf) :
    Outcome (ReadEnd × List Message × InBuf) :=
  if readlen = 0 then .ok (.closed, [], ibuf)
  else if readlen < 0 then .ok (.failed, [], ibuf)
  else do
    let (ms, ibuf, ok) ← readLoop limit ibuf.length.toNat ibuf
    if ok then do
      let ibuf ← InBuf.adjust ibuf
      return (.more, ms, ibuf)
    else .ok (.abnormal, ms, ibuf)

variable {alloc alloc₁ alloc₂ : Alloc} {buf : ReactorBuf} {m : Message} {obuf obuf' : OutBuf}
  {ret : Int}

/-! ## Sending -/

theorem MsgHead.bytes_ne_nil (h : MsgHead) : h.bytes ≠ [] := fun he ↦ by
  have := h.length_bytes
  rw [he] at this
  cases this

/-- With an ample pool, sending a message with bytes appends it. -/
theorem appendMsg_ample (h : buf.Ready) (h₁ : AmpleAlloc alloc₁) (h₂ : AmpleAlloc alloc₂)
    (hm : m.data ≠ []) :
    ∃ buf', appendMsg alloc₁ alloc₂ m buf = .ok (0, buf') ∧ buf'.Ready ∧
      buf'.content = buf.content ++ m.bytes := by
  obtain ⟨-, hrefused, -⟩ | ⟨buf₁, hs₁, hr₁, hc₁⟩ :=
    OutBuf.sendData_of_room h h₁.fresh m.head.bytes_ne_nil (h₁.room buf _)
  · exact absurd hrefused (h₁.ne_none _)
  obtain ⟨-, hrefused, -⟩ | ⟨buf₂, hs₂, hr₂, hc₂⟩ :=
    OutBuf.sendData_of_room hr₁ h₂.fresh hm (h₂.room buf₁ _)
  · exact absurd hrefused (h₂.ne_none _)
  refine ⟨buf₂, ?_, hr₂, ?_⟩
  · simp only [appendMsg, hs₁, hs₂, Outcome.ok_bind]
    rfl
  · rw [hc₂, hc₁, Message.bytes, List.append_assoc]

/-- A message with a head that is refused is not appended. -/
theorem appendMsg_of_refused (hhead : obuf.Refused alloc₁ m.head.bytes)
    (h : appendMsg alloc₁ alloc₂ m obuf = .ok (ret, obuf')) : ret = -1 ∧ obuf' = obuf := by
  obtain ⟨⟨ret₁, obuf₁⟩, h₁, h₂⟩ := Outcome.bind_eq_ok.mp h
  rcases OutBuf.sendData_cases h₁ with ⟨rfl, -, rfl⟩ | ⟨-, hno, -⟩
  · obtain ⟨rfl, rfl⟩ := Prod.mk.inj (Except.ok.inj h₂)
    exact ⟨rfl, rfl⟩
  · exact absurd hhead hno

/-- A message is answered with -1 when it has no payload or its head is refused. -/
theorem appendMsg_neg_iff (h : appendMsg alloc₁ alloc₂ m obuf = .ok (ret, obuf')) :
    ret < 0 ↔ m.data = [] ∨ obuf.Refused alloc₁ m.head.bytes := by
  obtain ⟨⟨ret₁, obuf₁⟩, h₁, h₂⟩ := Outcome.bind_eq_ok.mp h
  rcases OutBuf.sendData_cases h₁ with ⟨rfl, hhead, -⟩ | ⟨rfl, hhead, hsome⟩
  · obtain ⟨rfl, -⟩ := Prod.mk.inj (Except.ok.inj h₂)
    exact iff_of_true (by decide) (.inr hhead)
  · rcases OutBuf.sendData_cases h₂ with ⟨rfl, hd | ⟨hnone, -⟩, -⟩ | ⟨rfl, hno, -⟩
    · exact iff_of_true (by decide) (.inl hd)
    · exact absurd hnone hsome
    · exact iff_of_false (lt_irrefl 0) fun hm ↦ hm.elim (fun hd ↦ hno (.inl hd)) hhead

/-- Appending a message fails before it changes the buffer, when there is a payload or when
the head is refused. -/
theorem appendMsg_refused (h : appendMsg alloc₁ alloc₂ m obuf = .ok (ret, obuf')) (hret : ret < 0)
    (hm : m.data ≠ [] ∨ obuf.Refused alloc₁ m.head.bytes) : obuf' = obuf := by
  obtain ⟨⟨ret₁, obuf₁⟩, h₁, h₂⟩ := Outcome.bind_eq_ok.mp h
  rcases OutBuf.sendData_cases h₁ with ⟨rfl, -, rfl⟩ | ⟨rfl, hhead, hsome⟩
  · exact (Prod.mk.inj (Except.ok.inj h₂)).2.symm
  · rcases OutBuf.sendData_cases h₂ with ⟨-, hd | ⟨hnone, -⟩, -⟩ | ⟨rfl, -⟩
    · exact hm.elim (fun hm ↦ absurd hd hm) fun hm ↦ absurd hm hhead
    · exact absurd hnone hsome
    · exact absurd hret (lt_irrefl 0)

/-- The head of a message without payload is appended all the same, unless it is refused. -/
theorem appendMsg_noPayload (alloc₂ : Alloc) (hm : m.data = []) (h : obuf.Ready)
    (ha : FreshAlloc alloc₁) (hr : obuf.Room alloc₁ m.head.bytes.length)
    (hhead : ¬obuf.Refused alloc₁ m.head.bytes) :
    ∃ obuf', appendMsg alloc₁ alloc₂ m obuf = .ok (-1, obuf') ∧
      obuf'.content = obuf.content ++ m.head.bytes := by
  rcases OutBuf.sendData_of_room h ha m.head.bytes_ne_nil hr with
    ⟨hnone, hrefused, -⟩ | ⟨obuf', hs, -, hc⟩
  · exact absurd (.inr ⟨hnone, hrefused⟩) hhead
  · refine ⟨obuf', ?_, hc⟩
    simp only [appendMsg, hs, Outcome.ok_bind, hm]
    rfl

/-- Writing takes the bytes written off the front of the buffer. -/
theorem writeLoop_spec (res : List WriteResult) (h : buf.Ready) :
    ∃ fin taken buf', writeLoop res buf = .ok (fin, taken, buf') ∧ buf'.Ready ∧
      buf.content = taken ++ buf'.content := by
  induction res generalizing buf with
  | nil => exact ⟨_, [], buf, rfl, h, rfl⟩
  | cons r res ih =>
      rw [writeLoop]
      by_cases hpos : 0 < buf.length
      · obtain ⟨ret, taken, buf₁, hw, hr₁, hc₁, -⟩ := OutBuf.write2fd_spec h r
        simp only [if_pos hpos, hw, Outcome.ok_bind]
        by_cases hneg : ret < 0
        · exact ⟨.failed, taken, buf₁, if_pos hneg, hr₁, hc₁⟩
        · rw [if_neg hneg]
          by_cases hzero : ret = 0
          · exact ⟨.blocked, taken, buf₁, if_pos hzero, hr₁, hc₁⟩
          · obtain ⟨fin, taken', buf₂, hl, hr₂, hc₂⟩ := ih hr₁
            refine ⟨fin, taken ++ taken', buf₂, ?_, hr₂, ?_⟩
            · rw [if_neg hzero, hl]
              rfl
            · rw [hc₁, hc₂, List.append_assoc]
      · exact ⟨.done, [], buf, if_neg hpos, h, rfl⟩

/-- `do_write` that has written everything leaves no bytes. -/
theorem length_of_writeLoop_done {res : List WriteResult} {taken : List UInt8}
    (h : writeLoop res obuf = .ok (.done, taken, obuf')) : ¬0 < obuf'.length := by
  induction res generalizing obuf taken with
  | nil =>
      rw [writeLoop] at h
      obtain ⟨hfin, htaken⟩ := Prod.mk.inj (Except.ok.inj h)
      obtain ⟨rfl, rfl⟩ := Prod.mk.inj htaken
      by_cases hpos : 0 < obuf.length
      · rw [if_pos hpos] at hfin
        cases hfin
      · exact hpos
  | cons r res ih =>
      rw [writeLoop] at h
      by_cases hpos : 0 < obuf.length
      · rw [if_pos hpos] at h
        obtain ⟨⟨ret, taken₁, obuf₁⟩, -, h⟩ := Outcome.bind_eq_ok.mp h
        by_cases hneg : ret < 0
        · simp only [if_pos hneg] at h
          cases h
        by_cases hzero : ret = 0
        · simp only [if_neg hneg, if_pos hzero] at h
          cases h
        simp only [if_neg hneg, if_neg hzero] at h
        obtain ⟨⟨fin, taken₂, obuf₂⟩, hl, h⟩ := Outcome.bind_eq_ok.mp h
        obtain ⟨rfl, h⟩ := Prod.mk.inj (Except.ok.inj h)
        obtain ⟨-, rfl⟩ := Prod.mk.inj h
        exact ih hl
      · rw [if_neg hpos] at h
        obtain ⟨-, h⟩ := Prod.mk.inj (Except.ok.inj h)
        obtain ⟨-, rfl⟩ := Prod.mk.inj h
        exact hpos

/-- `do_write` that stops before has had bytes to write. -/
theorem length_of_writeLoop {res : List WriteResult} {fin : WriteEnd} {taken : List UInt8}
    (h : writeLoop res obuf = .ok (fin, taken, obuf')) (hfin : fin ≠ .done) : 0 < obuf.length := by
  by_contra hpos
  cases res with
  | nil =>
      rw [writeLoop, if_neg hpos] at h
      exact hfin (Prod.mk.inj (Except.ok.inj h)).1.symm
  | cons r res =>
      rw [writeLoop, if_neg hpos] at h
      exact hfin (Prod.mk.inj (Except.ok.inj h)).1.symm

/-! ## Receiving -/

/-- The read loop takes messages off the buffer as the parser takes them off its bytes. -/
theorem readLoop_eq (limit : Int) (n : ℕ) (h : buf.WellFormed) :
    ∃ buf', readLoop limit n buf =
        .ok (((framing limit).parseN n buf.content).1, buf',
          ((framing limit).parseN n buf.content).2.2) ∧
      buf'.WellFormed ∧ buf'.content = ((framing limit).parseN n buf.content).2.1 := by
  induction n generalizing buf with
  | zero => exact ⟨buf, rfl, h, rfl⟩
  | succ n ih =>
      have hlen := h.length_content
      rw [readLoop, Framing.parseN]
      simp only [framing]
      rw [frontMsg, hlen]
      by_cases hshort : buf.length < msgHeadLen
      · rw [if_pos hshort, if_pos hshort]
        exact ⟨buf, rfl, h, rfl⟩
      rw [if_neg hshort, if_neg hshort]
      have hbuf : buf ≠ none := by
        rintro rfl
        exact hshort (by decide)
      rw [h.fetch (by decide) (not_lt.mp hshort) hbuf]
      simp only [Outcome.ok_bind, show msgHeadLen.toNat = 8 from rfl]
      generalize MsgHead.ofBytes (buf.content.take 8) = head
      by_cases hbad : limit < head.msglen.toInt ∨ head.msglen.toInt < 0
      · rw [if_pos hbad, if_pos hbad]
        exact ⟨buf, rfl, h, rfl⟩
      rw [if_neg hbad, if_neg hbad]
      by_cases hpart : buf.length - msgHeadLen < head.msglen.toInt
      · rw [if_pos hpart, if_pos hpart]
        exact ⟨buf, rfl, h, rfl⟩
      rw [if_neg hpart, if_neg hpart]
      -- a whole message: the head goes, then the bytes
      have hnonneg : 0 ≤ head.msglen.toInt := by omega
      have hpop := h.pop msgHeadLen
      have hcont := h.content_pop (n := msgHeadLen) (by decide) (not_lt.mp hshort)
      have hlen' : (buf.pop msgHeadLen).length = buf.length - msgHeadLen := by
        rw [← hpop.length_content, hcont, List.length_drop, ← hlen]
        have : msgHeadLen.toNat = 8 := rfl
        have : msgHeadLen = 8 := rfl
        omega
      have hbuf' : buf.pop msgHeadLen ≠ none := by
        obtain ⟨b, rfl⟩ := Option.ne_none_iff_exists'.mp hbuf
        exact Option.some_ne_none _
      rw [hpop.fetch hnonneg (by omega) hbuf']
      obtain ⟨buf', hl, hwf, hc⟩ := ih (hpop.pop head.msglen.toInt)
      rw [hpop.content_pop hnonneg (by omega), hcont,
        show msgHeadLen.toNat = 8 from rfl, List.drop_drop] at hl hc
      simp only [Outcome.ok_bind, hl, hcont, show msgHeadLen.toNat = 8 from rfl]
      exact ⟨buf', rfl, hwf, hc⟩

theorem routeMsgs_of_nonpos (limit : Int) (ibuf : InBuf) {readlen : Int} (h : readlen ≤ 0) :
    ∃ fin, routeMsgs limit readlen ibuf = .ok (fin, [], ibuf) ∧ fin ≠ .more := by
  by_cases hzero : readlen = 0
  · exact ⟨.closed, if_pos hzero, ReadEnd.noConfusion⟩
  · refine ⟨.failed, ?_, ReadEnd.noConfusion⟩
    rw [routeMsgs, if_neg hzero, if_pos (lt_of_le_of_ne h hzero)]

/-- What `do_read` does after `readfd` has read something: it parses the bytes held. -/
theorem routeMsgs_spec (limit : Int) (h : buf.Ready) {readlen : Int} (hlen : 0 < readlen) :
    ∃ buf', routeMsgs limit readlen buf =
        .ok (if ((framing limit).parse buf.content).2.2 then .more else .abnormal,
          ((framing limit).parse buf.content).1, buf') ∧
      buf'.WellFormed ∧
      (((framing limit).parse buf.content).2.2 = true →
        buf'.Ready ∧ buf'.content = ((framing limit).parse buf.content).2.1) := by
  have hwf := h.wellFormed
  have hfuel : buf.length.toNat = buf.content.length := by
    rw [← hwf.length_content, Int.toNat_natCast]
  obtain ⟨buf₁, hl, hwf₁, hc₁⟩ := readLoop_eq limit buf.length.toNat hwf
  rw [hfuel, ← Framing.parse] at hl hc₁
  simp only [routeMsgs, if_neg hlen.ne', if_neg hlen.not_gt, hfuel, hl, Outcome.ok_bind]
  cases hok : ((framing limit).parse buf.content).2.2 with
  | false => exact ⟨buf₁, rfl, hwf₁, fun hf ↦ by cases hf⟩
  | true =>
      obtain ⟨buf₂, hadj, hr₂, hc₂⟩ := InBuf.adjust_spec hwf₁
      simp only [if_true, hadj, Outcome.ok_bind]
      exact ⟨buf₂, rfl, hr₂.wellFormed, fun _ ↦ ⟨hr₂, hc₂.trans hc₁⟩⟩

theorem readMsgs_eq (limit : Int) (alloc : Alloc) (fd : Socket) (ibuf : InBuf) :
    readMsgs limit alloc fd ibuf =
      InBuf.readfd alloc fd ibuf >>= fun r ↦ routeMsgs limit r.1 r.2 := rfl

/-- What `do_read` does with a chunk of the stream: it parses the bytes held together with
the chunk. -/
theorem readMsgs_pending (limit : Int) (h : buf.Ready) (ha : AmpleAlloc alloc) {chunk : List UInt8}
    (hc : chunk ≠ []) :
    ∃ buf', readMsgs limit alloc (.pending chunk) buf =
        .ok (if ((framing limit).parse (buf.content ++ chunk)).2.2 then .more else .abnormal,
          ((framing limit).parse (buf.content ++ chunk)).1, buf') ∧
      buf'.WellFormed ∧
      (((framing limit).parse (buf.content ++ chunk)).2.2 = true →
        buf'.Ready ∧ buf'.content = ((framing limit).parse (buf.content ++ chunk)).2.1) := by
  have hpos : 0 < chunk.length := List.length_pos_iff.mpr hc
  obtain ⟨ret, bs, buf₁, hrd, hr₁, hc₁, hread⟩ :=
    InBuf.readfd_of_room h ha.fresh (.pending chunk) fun k _ ↦ ha.room buf k
  obtain ⟨rfl, rfl⟩ := hread chunk.length chunk rfl (by omega) (by simp [Socket.pending])
    (ha.ne_none _)
  obtain ⟨buf₂, hroute, hbuf₂⟩ := routeMsgs_spec limit hr₁ (Int.natCast_pos.mpr hpos)
  rw [hc₁] at hroute hbuf₂
  refine ⟨buf₂, ?_, hbuf₂⟩
  rw [readMsgs_eq, hrd]
  exact hroute

end Ylars.Reactor
