import Mathlib.Data.List.TakeDrop
import Ylars.Lib.Retry
import Ylars.Reactor.BufferSafety
import Ylars.Reactor.MessageIO

/-!
# The system calls of `readfd` and `write2fd`

`readfd` and `write2fd` make a call again as long as it answers `EINTR`, and both return 0
for `EAGAIN`.  Here every attempt is seen, and a `read` may give fewer bytes than
`FIONREAD` has announced, which `readfd` asserts it does not.

An answer is *transient* when it is some bytes or `EAGAIN`.  Transient answers to `write`
take the bytes written off the front of the buffer and fail nothing (`writeLoop_transient`).
A transient answer to `read` appends its bytes when it is *whole*: there are bytes, and as
many as announced when some are (`readfdCall_of_whole`).  Otherwise `readfd` returns 0, as at
the end of the stream, or its assertion does not hold (`readfdCall_of_not_whole`).

When the attempts given are used up, the call would block.
-/

namespace Ylars.Reactor

open Ylars.Lib ReactorBuf

/-! ## Transient answers -/

/-- `read` has given some bytes, or would block. -/
def ReadResult.Transient : ReadResult → Prop
  | .bytes bs => bs ≠ []
  | .error errno => errno = .eagain

/-- `write` has taken some bytes, or would block. -/
def WriteResult.Transient : WriteResult → Prop
  | .wrote n => 0 < n
  | .error errno => errno = .eagain

instance : DecidablePred ReadResult.Transient := fun r ↦ by
  cases r <;> unfold ReadResult.Transient <;> infer_instance

instance : DecidablePred WriteResult.Transient := fun r ↦ by
  cases r <;> unfold WriteResult.Transient <;> infer_instance

/-- `read` has given bytes, and `needRead` of them when that is not 0. -/
def ReadResult.Whole (needRead : Int) (r : ReadResult) : Prop :=
  ∃ bs, r = .bytes bs ∧ (needRead ≠ 0 → (bs.length : Int) = needRead)

/-- The bytes that `read` has given. -/
def ReadResult.transferred : ReadResult → List UInt8
  | .bytes bs => bs
  | .error _ => []

/-- The number of bytes that `write` takes before it would block. -/
def transferred : List WriteResult → ℕ
  | .wrote n :: res => n + transferred res
  | _ => 0

/-! ## Writing -/

/-- The loop of `do_write`, with every attempt to `write`. -/
def writeLoopCalls : List (Attempt WriteResult) → OutBuf →
    Outcome (WriteEnd × List UInt8 × OutBuf)
  | [], obuf => writeLoop [] obuf
  | .eintr :: calls, obuf =>
      if 0 < obuf.length then writeLoopCalls calls obuf else .ok (.done, [], obuf)
  | .answer r :: calls, obuf =>
      if 0 < obuf.length then do
        let (ret, taken, obuf) ← OutBuf.write2fd r obuf
        if ret < 0 then .ok (.failed, taken, obuf)
        else if ret = 0 then .ok (.blocked, taken, obuf)
        else do
          let (fin, taken', obuf) ← writeLoopCalls calls obuf
          return (fin, taken ++ taken', obuf)
      else .ok (.done, [], obuf)

variable {obuf : OutBuf}

/-- Nothing is written from an empty buffer. -/
theorem writeLoop_of_empty (res : List WriteResult) (h : ¬0 < obuf.length) :
    writeLoop res obuf = .ok (.done, [], obuf) := by
  cases res with
  | nil => simp only [writeLoop, if_neg h]
  | cons r res => simp only [writeLoop, if_neg h]

theorem writeLoopCalls_eq (calls : List (Attempt WriteResult)) (obuf : OutBuf) :
    writeLoopCalls calls obuf = writeLoop (Attempt.answers calls) obuf := by
  induction calls generalizing obuf with
  | nil => rfl
  | cons call calls ih =>
      cases call with
      | eintr =>
          by_cases hpos : 0 < obuf.length
          · rw [writeLoopCalls, if_pos hpos, ih, Attempt.answers_eintr]
          · rw [writeLoopCalls, if_neg hpos, writeLoop_of_empty _ hpos]
      | answer r =>
          simp only [writeLoopCalls, ih, Attempt.answers_answer, writeLoop]

theorem write2fd_wrote (h : obuf.Ready) (hpos : 0 < obuf.length) {n : ℕ} (hn : 0 < n) :
    ∃ ret obuf', OutBuf.write2fd (.wrote n) obuf = .ok (ret, obuf.content.take n, obuf') ∧
      0 < ret ∧ obuf'.Ready ∧ obuf'.content = obuf.content.drop n := by
  cases obuf with
  | none => exact absurd hpos (lt_irrefl 0)
  | some b =>
      obtain ⟨ret, taken, obuf', hw, hr, hc, hne, hnil⟩ := OutBuf.write2fd_spec h (.wrote n)
      have hlen := h.wellFormed.length_content
      have ht : (content (some b)).take n ≠ [] := fun he ↦ by
        have := congrArg List.length he
        rw [List.length_take, List.length_nil] at this
        omega
      obtain rfl : taken = (content (some b)).take n := by
        rw [OutBuf.write2fd, OutBuf.offered h rfl] at hw
        simp only [Outcome.inBounds_some, Outcome.ok_bind, if_neg ht] at hw
        obtain ⟨b', -, hw⟩ := Outcome.bind_eq_ok.mp hw
        exact (congrArg (fun r ↦ r.2.1) (Except.ok.inj hw)).symm
      refine ⟨ret, obuf', hw, not_le.mp fun hle ↦ ht (hnil hle), hr, ?_⟩
      have hsplit := (List.take_append_drop n (content (some b))).trans hc
      exact (List.append_cancel_left hsplit).symm

/-- Writing with transient answers does not fail, and takes off the front the bytes that the
calls have taken. -/
theorem writeLoop_transient {res : List WriteResult} (ht : ∀ r ∈ res, r.Transient)
    (h : obuf.Ready) :
    ∃ fin obuf', writeLoop res obuf = .ok (fin, obuf.content.take (transferred res), obuf') ∧
      fin ≠ .failed ∧ obuf'.Ready ∧ obuf'.content = obuf.content.drop (transferred res) := by
  induction res generalizing obuf with
  | nil =>
      refine ⟨_, obuf, rfl, ?_, h, rfl⟩
      split <;> exact WriteEnd.noConfusion
  | cons r res ih =>
      by_cases hpos : 0 < obuf.length
      · have htr := ht r (List.mem_cons_self ..)
        cases r with
        | error errno =>
            obtain rfl : errno = .eagain := htr
            obtain ⟨b, rfl⟩ := Option.ne_none_iff_exists'.mp
              (show obuf ≠ none from fun he ↦ by rw [he] at hpos; exact lt_irrefl 0 hpos)
            refine ⟨.blocked, some b, ?_, WriteEnd.noConfusion, h, rfl⟩
            rw [writeLoop, if_pos hpos, OutBuf.write2fd, OutBuf.offered h rfl]
            rfl
        | wrote n =>
            obtain ⟨ret, obuf₁, hw, hret, hr₁, hc₁⟩ := write2fd_wrote h hpos htr
            obtain ⟨fin, obuf₂, hl, hfin, hr₂, hc₂⟩ :=
              ih (fun r' hr' ↦ ht r' (List.mem_cons_of_mem _ hr')) hr₁
            refine ⟨fin, obuf₂, ?_, hfin, hr₂, ?_⟩
            · simp only [writeLoop, if_pos hpos, hw, Outcome.ok_bind, if_neg hret.not_gt,
                if_neg hret.ne', hl, hc₁]
              rw [transferred, List.take_add]
              rfl
            · rw [hc₂, hc₁, List.drop_drop, transferred]
      · have hnil : obuf.content = [] := by
          rw [← List.length_eq_zero_iff]
          have := h.wellFormed.length_content
          omega
        refine ⟨.done, obuf, ?_, WriteEnd.noConfusion, h, by rw [hnil, List.drop_nil]⟩
        rw [writeLoop_of_empty _ hpos, hnil, List.take_nil]

/-! ## Reading -/

/-- What one `readfd` meets: the number of pending bytes that `FIONREAD` gives, unless it
fails, and what the attempts to `read` give. -/
structure ReadCall where
  needRead : Option Int
  attempts : List (Attempt ReadResult)

/-- The number of bytes that `readfd` asks `read` for. -/
def readSize (needRead : Int) (b : IoBuf) : Int :=
  if needRead = 0 then b.capacity - b.datalen else needRead

namespace ReadCall

/-- What `read` has answered in the end. -/
def answer (call : ReadCall) : ReadResult := Attempt.retry (.error .eagain) call.attempts

/-- A number of bytes is not negative, and `read` gives no more than it was asked for. -/
structure Lawful (call : ReadCall) (alloc : Alloc) (ibuf : InBuf) : Prop where
  needRead_nonneg : ∀ k, call.needRead = some k → 0 ≤ k
  read_le : ∀ k b bs, call.needRead = some k → ibuf.reserve alloc k = .ok (some b) →
    call.answer = .bytes bs → (bs.length : Int) ≤ readSize k b

/-- `FIONREAD` answers, and the pool gives the memory that the pending bytes need. -/
def Granted (call : ReadCall) (alloc : Alloc) (ibuf : InBuf) : Prop :=
  ∃ k, call.needRead = some k ∧ ibuf.Room alloc k ∧ (ibuf = none → alloc k ≠ none)

/-- `read` has given bytes: as many as are announced, when some are. -/
def Whole (call : ReadCall) : Prop := ∃ k, call.needRead = some k ∧ call.answer.Whole k

end ReadCall

/-- `readfd`, with every attempt to `read`. -/
def InBuf.readfdCall (alloc : Alloc) (call : ReadCall) (ibuf : InBuf) :
    Outcome (Int × InBuf) :=
  match call.needRead with
  | none => .ok (-1, ibuf)
  | some needRead => do
      match ← ibuf.reserve alloc needRead with
      | none => return (-1, none)
      | some b => readInto needRead (fun _ ↦ call.answer) b

namespace InBuf

variable {alloc : Alloc} {ibuf : InBuf} {call : ReadCall} {b : IoBuf} {k : Int}
  {bs : List UInt8}

theorem readInto_congr {read read' : Int → ReadResult}
    (h : read (readSize k b) = read' (readSize k b)) :
    readInto k read b = readInto k read' b := by
  unfold readSize at h
  simp only [readInto, h]

/-- For a socket that gives what is pending, this is `readfd`. -/
theorem readfdCall_eq {fd : Socket} (hneed : call.needRead = fd.needRead)
    (hread : ∀ k b, fd.needRead = some k → ibuf.reserve alloc k = .ok (some b) →
      call.answer = fd.read (readSize k b)) :
    readfdCall alloc call ibuf = readfd alloc fd ibuf := by
  rw [readfdCall, readfd, hneed]
  cases hk : fd.needRead with
  | none => rfl
  | some k =>
      cases hres : ibuf.reserve alloc k with
      | error e => simp only [hres, Outcome.error_bind]
      | ok r =>
          simp only [hres, Outcome.ok_bind]
          cases r with
          | none => rfl
          | some b => exact readInto_congr (hread k b hk hres)

theorem readfdCall_of_reserve (hk : call.needRead = some k)
    (hres : ibuf.reserve alloc k = .ok (some b)) :
    readfdCall alloc call ibuf = readInto k (fun _ ↦ call.answer) b := by
  simp only [readfdCall, hk, hres, Outcome.ok_bind]

/-- With the memory granted, `readfd` comes to its `read`, with space for what is announced. -/
theorem readfdCall_of_granted (h : ibuf.Ready) (ha : FreshAlloc alloc)
    (hl : call.Lawful alloc ibuf) (hg : call.Granted alloc ibuf) :
    ∃ k b, call.needRead = some k ∧ ibuf.reserve alloc k = .ok (some b) ∧ 0 ≤ k ∧
      b.WellFormed ∧ b.head = 0 ∧ k + b.datalen ≤ b.capacity ∧ b.content = ibuf.content ∧
      readfdCall alloc call ibuf = readInto k (fun _ ↦ call.answer) b := by
  obtain ⟨k, hk, hroom, hne⟩ := hg
  have hk₀ := hl.needRead_nonneg k hk
  obtain ⟨r, hres, hnone, hsome⟩ := h.reserve ha hk₀ hroom
  cases r with
  | none =>
      obtain ⟨hbuf, hrefused⟩ := hnone rfl
      exact absurd hrefused (hne hbuf)
  | some b =>
      obtain ⟨hwf, hhead, hle, hcont⟩ := hsome b rfl
      exact ⟨k, b, hk, hres, hk₀, hwf, hhead, hle, hcont, readfdCall_of_reserve hk hres⟩

/-- With space, the range that `read` may write to lies inside the block. -/
theorem load_readSize (hwf : b.WellFormed) (hk : 0 ≤ k) (hle : k + b.datalen ≤ b.capacity) :
    Block.load b.data b.datalen (readSize k b) =
        some (Block.slice b.data b.datalen (readSize k b)) ∧
      b.datalen + readSize k b ≤ b.capacity := by
  have hhead := hwf.head_nonneg
  have hcap := hwf.le_capacity
  have hsize : 0 ≤ readSize k b ∧ b.datalen + readSize k b ≤ b.capacity := by
    unfold readSize
    split <;> omega
  refine ⟨Block.load_eq hwf.datalen_nonneg hsize.1 ?_, hsize.2⟩
  rw [hwf.length_data]
  exact hsize.2

/-- A whole answer is appended to the block. -/
theorem readInto_of_whole {r : ReadResult} (hwf : b.WellFormed) (hhead : b.head = 0)
    (hk : 0 ≤ k) (hle : k + b.datalen ≤ b.capacity) (ht : r.Transient) (hw : r.Whole k)
    (hfit : ∀ bs, r = .bytes bs → (bs.length : Int) ≤ readSize k b) :
    ∃ readlen ibuf', readInto k (fun _ ↦ r) b = .ok (readlen, ibuf') ∧ 0 < readlen ∧
      ibuf'.Ready ∧ ibuf'.content = b.content ++ r.transferred := by
  obtain ⟨bs, rfl, hall⟩ := hw
  obtain ⟨hload, hsize⟩ := load_readSize hwf hk hle
  have hbs := hfit bs rfl
  cases bs with
  | nil => exact absurd rfl ht
  | cons c cs =>
      have hassert : ¬(k ≠ 0 ∧ ((c :: cs).length : Int) ≠ k) := fun hne ↦ hne.2 (hall hne.1)
      obtain ⟨data, hs, hwf', hcont'⟩ := hwf.append hhead
        (show b.datalen + (c :: cs).length ≤ _ by omega)
      unfold readSize at hload
      simp only [readInto, hload, Outcome.inBounds_some, Outcome.ok_bind, if_neg hassert, hs]
      exact ⟨_, _, rfl, Int.natCast_pos.mpr (Nat.succ_pos _), ready_some.mpr ⟨hwf', hhead⟩,
        hcont'⟩

/-- An answer that is not whole is taken for the end of the stream, or the assertion on the
number of bytes does not hold. -/
theorem readInto_of_not_whole {r : ReadResult} (hwf : b.WellFormed) (hk : 0 ≤ k)
    (hle : k + b.datalen ≤ b.capacity) (ht : r.Transient) (hw : ¬r.Whole k) :
    readInto k (fun _ ↦ r) b = .error .assertion ∨
      ∃ ibuf', readInto k (fun _ ↦ r) b = .ok (0, ibuf') := by
  obtain ⟨hload, -⟩ := load_readSize hwf hk hle
  unfold readSize at hload
  cases r with
  | error errno =>
      obtain rfl : errno = .eagain := ht
      right
      simp only [readInto, hload, Outcome.inBounds_some, Outcome.ok_bind]
      exact ⟨_, rfl⟩
  | bytes bs =>
      have hshort : k ≠ 0 ∧ (bs.length : Int) ≠ k := by
        by_contra hno
        exact hw ⟨bs, rfl, fun hne ↦ by_contra fun hlen ↦ hno ⟨hne, hlen⟩⟩
      left
      cases bs with
      | nil => exact absurd rfl ht
      | cons c cs =>
          simp only [readInto, hload, Outcome.inBounds_some, Outcome.ok_bind]
          rw [if_pos hshort]

/-- With the memory granted, a whole answer is appended. -/
theorem readfdCall_of_whole (h : ibuf.Ready) (ha : FreshAlloc alloc)
    (hl : call.Lawful alloc ibuf) (hg : call.Granted alloc ibuf) (ht : call.answer.Transient)
    (hw : call.Whole) :
    ∃ readlen ibuf', readfdCall alloc call ibuf = .ok (readlen, ibuf') ∧ 0 < readlen ∧
      ibuf'.Ready ∧ ibuf'.content = ibuf.content ++ call.answer.transferred := by
  obtain ⟨k, b, hk, hres, hk₀, hwf, hhead, hle, hcont, he⟩ := readfdCall_of_granted h ha hl hg
  obtain ⟨k', hk', hw⟩ := hw
  obtain rfl := Option.some.inj (hk.symm.trans hk')
  rw [he, ← hcont]
  exact readInto_of_whole hwf hhead hk₀ hle ht hw fun bs ↦ hl.read_le k b bs hk hres

/-- With the memory granted, an answer that is not whole makes `readfd` return 0, or its
assertion does not hold. -/
theorem readfdCall_of_not_whole (h : ibuf.Ready) (ha : FreshAlloc alloc)
    (hl : call.Lawful alloc ibuf) (hg : call.Granted alloc ibuf) (ht : call.answer.Transient)
    (hw : ¬call.Whole) :
    readfdCall alloc call ibuf = .error .assertion ∨
      ∃ ibuf', readfdCall alloc call ibuf = .ok (0, ibuf') := by
  obtain ⟨k, b, hk, -, hk₀, hwf, -, hle, -, he⟩ := readfdCall_of_granted h ha hl hg
  rw [he]
  exact readInto_of_not_whole hwf hk₀ hle ht fun hw' ↦ hw ⟨k, hk, hw'⟩

/-- Without the memory, `readfd` faults, or does not read, or has dropped the bytes held. -/
theorem readfdCall_of_not_granted (h : ibuf.Ready) (ha : FreshAlloc alloc)
    (hl : call.Lawful alloc ibuf) (ht : call.answer.Transient)
    (hg : ¬call.Granted alloc ibuf) :
    (∃ e, readfdCall alloc call ibuf = .error e) ∨
      (∃ readlen ibuf', readfdCall alloc call ibuf = .ok (readlen, ibuf') ∧ readlen ≤ 0) ∨
      ∃ readlen ibuf', readfdCall alloc call ibuf = .ok (readlen, ibuf') ∧ 0 < readlen ∧
        ibuf'.Ready ∧ ibuf'.content = call.answer.transferred ∧ ibuf.content ≠ [] := by
  cases hk : call.needRead with
  | none => exact .inr (.inl ⟨-1, ibuf, by rw [readfdCall, hk], by decide⟩)
  | some k =>
      have hk₀ := hl.needRead_nonneg k hk
      by_cases hroom : ibuf.Room alloc k
      · -- the first block is refused
        have hrefused : ibuf = none ∧ alloc k = none := by
          by_contra hno
          exact hg ⟨k, hk, hroom, fun hbuf hnone ↦ hno ⟨hbuf, hnone⟩⟩
        obtain ⟨rfl, hnone⟩ := hrefused
        refine .inr (.inl ⟨-1, none, ?_, by decide⟩)
        simp only [readfdCall, hk, reserve, hnone, Outcome.ok_bind]
        rfl
      rcases h.reserve_of_not_room ha hroom with
        ⟨e, hres⟩ | ⟨b', hres, hwf', hhead', hlt | ⟨hzero, b, rfl, -, hlt⟩⟩
      · left
        simp only [readfdCall, hk, hres]
        exact ⟨e, rfl⟩
      · have hcap := hwf'.le_capacity
        left
        rw [readfdCall_of_reserve hk hres]
        exact readInto_error hwf' (by omega) hlt
      · -- the old bytes are not copied
        have hcap := hwf'.le_capacity
        rw [readfdCall_of_reserve hk hres]
        by_cases hfit : k ≤ b'.capacity
        · by_cases hw : call.answer.Whole k
          · obtain ⟨readlen, ibuf', hrd, hpos, hr, hcont⟩ :=
              readInto_of_whole hwf' hhead' hk₀ (by omega) ht hw
                fun bs ↦ hl.read_le k b' bs hk hres
            rw [hwf'.content_eq_nil.mpr hzero, List.nil_append] at hcont
            refine .inr (.inr ⟨readlen, ibuf', hrd, hpos, hr, hcont, fun hnil ↦ ?_⟩)
            have := (ready_some.mp h).1.content_eq_nil.mp hnil
            omega
          · rcases readInto_of_not_whole hwf' hk₀ (by omega) ht hw with he | ⟨ibuf', he⟩
            · exact .inl ⟨_, he⟩
            · exact .inr (.inl ⟨0, ibuf', he, le_rfl⟩)
        · exact .inl (readInto_error hwf' (by omega) (by omega))

end InBuf

end Ylars.Reactor
