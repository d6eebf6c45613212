import Ylars.Reactor.IoBuf

/-!
# The buffers of a connection: `reactor_buf`, `in_buf` and `out_buf`

A `reactor_buf` points to a block of the pool, or to none.  `readfd` and
`send_data` make room in the same way (`reserve`): a first block when there is
none, and a larger one when the new bytes do not fit.  The test for a failed
allocation of the larger block looks at `_buf`, the old block, which is never
null there; so a null answer is dereferenced.

`alloc` is the pool's answer to `alloc_buf` at the moment of the call.  What is
released goes back to the pool and is not seen here again.  A socket answers one
`readfd` or one `write2fd`; an interrupted call is repeated until it answers
something else, so `EINTR` is not an answer.
-/

namespace Ylars.Reactor

open Ylars.Lib

/-- The errors the code tells apart. -/
inductive Errno where
  | eagain
  | econnreset
  | other
deriving DecidableEq, Repr

/-- What `read` answers: the bytes read, none at the end of the stream, or an error. -/
inductive ReadResult where
  | bytes (bs : List UInt8)
  | error (errno : Errno)
deriving DecidableEq, Repr

/-- What `write` answers: the number of bytes taken, or an error. -/
inductive WriteResult where
  | wrote (n : Nat)
  | error (errno : Errno)
deriving DecidableEq, Repr

/-- A socket during one `readfd`: the number of pending bytes that `FIONREAD` gives,
unless it fails, and the answer to a `read` of a given size. -/
structure Socket where
  needRead : Option Int
  read : Int → ReadResult
  /-- A number of bytes is not negative. -/
  needRead_nonneg : ∀ k, needRead = some k → 0 ≤ k
  /-- `read` gives no more than it was asked for. -/
  read_le : ∀ n bs, 0 ≤ n → read n = .bytes bs → (bs.length : Int) ≤ n
  /-- `read` gives what is pending. -/
  read_pending : ∀ k bs, needRead = some k → 0 < k → read k = .bytes bs → bs ≠ [] →
    (bs.length : Int) = k

namespace Socket

/-- A socket where the bytes `bs` are pending. -/
def pending (bs : List UInt8) : Socket where
  needRead := some bs.length
  read n := .bytes (bs.take n.toNat)
  needRead_nonneg k h := by
    obtain rfl := Option.some.inj h
    exact Int.natCast_nonneg _
  read_le n bs' hn h := by
    obtain rfl := ReadResult.bytes.inj h
    rw [List.length_take]
    omega
  read_pending k bs' h _ hr _ := by
    obtain rfl := Option.some.inj h
    obtain rfl := ReadResult.bytes.inj hr
    simp

end Socket

/-- The answers of `alloc_buf`. -/
abbrev Alloc := Int → Option IoBuf

/-- What a connection keeps of a buffer: the block it points to. -/
abbrev ReactorBuf := Option IoBuf

namespace ReactorBuf

/-- `length`: the number of bytes held. -/
def length : ReactorBuf → Int
  | none => 0
  | some b => b.datalen

/-- `pop`. -/
def pop (len : Int) (buf : ReactorBuf) : ReactorBuf := buf.map (IoBuf.pop len)

/-- `clear`: the block goes back to the pool. -/
def clear (_ : ReactorBuf) : ReactorBuf := none

/-- The bytes held. -/
def content : ReactorBuf → List UInt8
  | none => []
  | some b => b.content

/-- Reading `len` bytes from the address that `get_data` gives. -/
def fetch (len : Int) : ReactorBuf → Outcome (List UInt8)
  | none => .error .nullDeref
  | some b => Outcome.inBounds (Block.load b.data b.head len)

/-- Making room for `len` more bytes, as `readfd` and `send_data` begin; null when
the first block is refused. -/
def reserve (alloc : Alloc) (len : Int) : ReactorBuf → Outcome (Option IoBuf)
  | none => .ok (alloc len)
  | some b =>
      if b.head ≠ 0 then .error .assertion
      else if b.capacity < len + b.datalen then
        match alloc (len + b.datalen) with
        -- the null test is made on `_buf`, not on the new block
        | none => .error .nullDeref
        | some newBuf => do
            let newBuf ← newBuf.copy b
            return some newBuf
      else .ok (some b)

end ReactorBuf

/-- A read buffer, `in_buf`. -/
abbrev InBuf := ReactorBuf

namespace InBuf

/-- `adjust`. -/
def adjust : InBuf → Outcome InBuf
  | none => .ok none
  | some b => do
      let b ← b.adjust
      return some b

/-- The `read` of `readfd` into a block, and what is returned. -/
def readInto (needRead : Int) (read : Int → ReadResult) (b : IoBuf) :
    Outcome (Int × InBuf) := do
  let n := if needRead = 0 then b.capacity - b.datalen else needRead
  -- the range that `read` may write to
  let _ ← Outcome.inBounds (Block.load b.data b.datalen n)
  match read n with
  | .bytes [] => return (0, some b)
  | .bytes bs =>
      if needRead ≠ 0 ∧ (bs.length : Int) ≠ needRead then .error .assertion
      else do
        let data ← Outcome.inBounds (Block.store b.data b.datalen bs)
        return (bs.length, some { b with datalen := b.datalen + bs.length, data := data })
  | .error .other => return (-1, some b)
  | .error _ => return (0, some b)

/-- `readfd`: read what is pending behind the bytes held. -/
def readfd (alloc : Alloc) (fd : Socket) (buf : InBuf) : Outcome (Int × InBuf) :=
  match fd.needRead with
  | none => .ok (-1, buf)
  | some needRead => do
      match ← buf.reserve alloc needRead with
      | none => return (-1, none)
      | some b => readInto needRead fd.read b

end InBuf

/-- A write buffer, `out_buf`. -/
abbrev OutBuf := ReactorBuf

namespace OutBuf

/-- `send_data`: append the bytes `data`. -/
def sendData (alloc : Alloc) (data : List UInt8) (buf : OutBuf) : Outcome (Int × OutBuf) :=
  if data = [] then .ok (-1, buf)
  else do
    match ← buf.reserve alloc data.length with
    | none => return (-1, none)
    | some b =>
        let data' ← Outcome.inBounds (Block.store b.data b.datalen data)
        return (0, some { b with datalen := b.datalen + data.length, data := data' })

/-- `write2fd`: offer the bytes from the start of the block; what the socket takes is
returned and dropped. -/
def write2fd (res : WriteResult) : OutBuf → Outcome (Int × List UInt8 × OutBuf)
  | none => .ok (-1, [], none)
  | some b => do
      let offered ← Outcome.inBounds (Block.load b.data 0 b.datalen)
      match res with
      | .wrote n =>
          let taken := offered.take n
          if taken = [] then return (0, [], some b)
          else do
            let b ← (b.pop taken.length).adjust
            return (taken.length, taken, some b)
      | .error .eagain => return (0, [], some b)
      | .error _ => return (-1, [], some b)

end OutBuf

/-! ## The invariant of a buffer -/

namespace ReactorBuf

/-- The block, if any, is well formed. -/
def WellFormed (buf : ReactorBuf) : Prop := ∀ b, buf = some b → b.WellFormed

/-- The block, if any, is well formed and its bytes stand at the front. -/
def Ready (buf : ReactorBuf) : Prop := ∀ b, buf = some b → b.WellFormed ∧ b.head = 0

/-- The answers of the pool are unused blocks. -/
def FreshAlloc (alloc : Alloc) : Prop := ∀ n b, alloc n = some b → b.Fresh 0

/-- The pool gives a block of at least the requested size, whatever the request. -/
def AmpleAlloc (alloc : Alloc) : Prop := ∀ n, ∃ b, alloc n = some b ∧ b.Fresh n

/-- A pool that gives blocks of exactly the requested size. -/
def exactAlloc : Alloc := fun len ↦ some (IoBuf.new len)

/-- There is room for `len` more bytes: a first block is refused or holds them, and
so does the block in use or the larger one. -/
def Room (alloc : Alloc) (len : Int) : ReactorBuf → Prop
  | none => ∀ b, alloc len = some b → len ≤ b.capacity
  | some b => len + b.datalen ≤ b.capacity ∨
      ∃ b', alloc (len + b.datalen) = some b' ∧ len + b.datalen ≤ b'.capacity

variable {alloc : Alloc} {buf : ReactorBuf} {b : IoBuf} {len : Int}

/-- An ample pool answers with unused blocks. -/
theorem AmpleAlloc.fresh (h : AmpleAlloc alloc) : FreshAlloc alloc := by
  intro n b hb
  obtain ⟨b', hb', hwf, hhead, hlen, -⟩ := h n
  obtain rfl : b' = b := Option.some.inj (hb'.symm.trans hb)
  have := hwf.le_capacity
  exact ⟨hwf, hhead, hlen, by omega⟩

/-- An ample pool always has room. -/
theorem AmpleAlloc.room (h : AmpleAlloc alloc) (buf : ReactorBuf) (len : Int) :
    buf.Room alloc len := by
  cases buf with
  | none =>
      intro b hb
      obtain ⟨b', hb', hf⟩ := h len
      obtain rfl : b' = b := Option.some.inj (hb'.symm.trans hb)
      exact hf.le_capacity
  | some b =>
      obtain ⟨b', hb', hf⟩ := h (len + b.datalen)
      exact .inr ⟨b', hb', hf.le_capacity⟩

theorem AmpleAlloc.ne_none (h : AmpleAlloc alloc) (n : Int) : alloc n ≠ none := by
  obtain ⟨b, hb, -⟩ := h n
  rw [hb]
  exact Option.some_ne_none b

@[simp] theorem ready_none : Ready none := fun _ h ↦ by cases h

@[simp] theorem ready_some : Ready (some b) ↔ b.WellFormed ∧ b.head = 0 :=
  ⟨fun h ↦ h b rfl, fun h _ hb ↦ Option.some.inj hb ▸ h⟩

@[simp] theorem wellFormed_none : WellFormed none := fun _ h ↦ by cases h

@[simp] theorem wellFormed_some : WellFormed (some b) ↔ b.WellFormed :=
  ⟨fun h ↦ h b rfl, fun h _ hb ↦ Option.some.inj hb ▸ h⟩

theorem Ready.wellFormed (h : buf.Ready) : buf.WellFormed := fun b hb ↦ (h b hb).1

theorem WellFormed.length_content (h : buf.WellFormed) :
    (buf.content.length : Int) = buf.length := by
  cases buf with
  | none => rfl
  | some b => exact (wellFormed_some.mp h).length_content

theorem WellFormed.pop (h : buf.WellFormed) (n : Int) : (buf.pop n).WellFormed := by
  cases buf with
  | none => exact wellFormed_none
  | some b => exact wellFormed_some.mpr ((wellFormed_some.mp h).pop n)

theorem WellFormed.content_pop (h : buf.WellFormed) {n : Int} (hn : 0 ≤ n)
    (hle : n ≤ buf.length) : (buf.pop n).content = buf.content.drop n.toNat := by
  cases buf with
  | none => simp [ReactorBuf.pop, content]
  | some b => exact (wellFormed_some.mp h).content_pop hn hle

/-- The bytes that a buffer holds at its front can be read. -/
theorem WellFormed.fetch (h : buf.WellFormed) {n : Int} (hn : 0 ≤ n) (hle : n ≤ buf.length)
    (hb : buf ≠ none) : buf.fetch n = .ok (buf.content.take n.toNat) := by
  obtain ⟨b, rfl⟩ := Option.ne_none_iff_exists'.mp hb
  have hwf := wellFormed_some.mp h
  have hcap := hwf.le_capacity
  simp only [length] at hle
  rw [ReactorBuf.fetch, Block.load_eq hwf.head_nonneg hn (by rw [hwf.length_data]; omega)]
  simp only [content, IoBuf.content, Block.take_slice hle, Outcome.inBounds_some]

/-! ### Making room -/

/-- With room, the block that `reserve` gives holds the old bytes at its front and
has space for the new ones. -/
theorem Ready.reserve (h : buf.Ready) (ha : FreshAlloc alloc) (hlen : 0 ≤ len)
    (hr : buf.Room alloc len) :
    ∃ r, buf.reserve alloc len = .ok r ∧
      (r = none → buf = none ∧ alloc len = none) ∧
      ∀ b, r = some b → b.WellFormed ∧ b.head = 0 ∧ len + b.datalen ≤ b.capacity ∧
        b.content = buf.content := by
  cases buf with
  | none =>
      refine ⟨alloc len, rfl, fun hn ↦ ⟨rfl, hn⟩, fun b hb ↦ ?_⟩
      have hf := ha len b hb
      refine ⟨hf.wellFormed, hf.head_eq, ?_, hf.wellFormed.content_eq_nil.mpr hf.datalen_eq⟩
      have := hr b hb
      have := hf.datalen_eq
      omega
  | some b =>
      obtain ⟨hwf, hhead⟩ := ready_some.mp h
      simp only [ReactorBuf.reserve, ne_eq, hhead, not_true_eq_false, if_false]
      by_cases hc : b.capacity < len + b.datalen
      · rw [if_pos hc]
        obtain hfit | ⟨b', hb', hle⟩ := hr
        · omega
        · obtain ⟨b'', hcopy, hwf', hhead', hcap', hlen', hcont'⟩ :=
            hwf.copy (ha _ b' hb') (show b.datalen ≤ b'.capacity by omega)
          rw [hb']
          simp only [hcopy, Outcome.ok_bind]
          refine ⟨some b'', rfl, fun hn ↦ (by cases hn), fun b₀ hb₀ ↦ ?_⟩
          obtain rfl := Option.some.inj hb₀
          exact ⟨hwf', hhead', by omega, hcont'⟩
      · rw [if_neg hc]
        refine ⟨some b, rfl, fun hn ↦ (by cases hn), fun b₀ hb₀ ↦ ?_⟩
        obtain rfl := Option.some.inj hb₀
        exact ⟨hwf, hhead, by omega, rfl⟩

/-- Only a first block is refused without a fault. -/
theorem reserve_ok_none (h : buf.reserve alloc len = .ok none) :
    buf = none ∧ alloc len = none := by
  cases buf with
  | none => exact ⟨rfl, Except.ok.inj h⟩
  | some b =>
      exfalso
      simp only [ReactorBuf.reserve] at h
      by_cases hhead : b.head ≠ 0
      · rw [if_pos hhead] at h
        cases h
      rw [if_neg hhead] at h
      by_cases hc : b.capacity < len + b.datalen
      · rw [if_pos hc] at h
        cases ha : alloc (len + b.datalen) with
        | none =>
            rw [ha] at h
            cases h
        | some b' =>
            rw [ha] at h
            obtain ⟨b'', -, h⟩ := Outcome.bind_eq_ok.mp h
            exact Option.some_ne_none _ (Except.ok.inj h)
      · rw [if_neg hc] at h
        exact Option.some_ne_none _ (Except.ok.inj h)

/-- Without room for more bytes than a block in use holds, a null answer is
dereferenced. -/
theorem reserve_nullDeref (hhead : b.head = 0) (hc : b.capacity < len + b.datalen)
    (ha : alloc (len + b.datalen) = none) :
    reserve alloc len (some b) = .error .nullDeref := by
  simp [reserve, hhead, hc, ha]

/-- Without room, `reserve` faults or gives a block that is too small: when the larger block
does not even hold the old bytes, they are not copied. -/
theorem Ready.reserve_of_not_room (h : buf.Ready) (ha : FreshAlloc alloc)
    (hr : ¬buf.Room alloc len) :
    (∃ e, buf.reserve alloc len = .error e) ∨
      ∃ b', buf.reserve alloc len = .ok (some b') ∧ b'.WellFormed ∧ b'.head = 0 ∧
        (b'.capacity < len + b'.datalen ∨
          b'.datalen = 0 ∧ ∃ b, buf = some b ∧ alloc (len + b.datalen) = some b' ∧
            b'.capacity < b.datalen) := by
  cases buf with
  | none =>
      simp only [Room, not_forall, not_le] at hr
      obtain ⟨b, hb, hlt⟩ := hr
      have hf := ha _ b hb
      exact .inr ⟨b, congrArg _ hb, hf.wellFormed, hf.head_eq,
        .inl (by rw [hf.datalen_eq]; omega)⟩
  | some b =>
      obtain ⟨hwf, hhead⟩ := ready_some.mp h
      simp only [Room, not_or, not_le, not_exists, not_and] at hr
      obtain ⟨hc, hsmall⟩ := hr
      cases hb : alloc (len + b.datalen) with
      | none => exact .inl ⟨_, reserve_nullDeref hhead hc hb⟩
      | some b' =>
          have hlt := hsmall b' hb
          have hf := ha _ b' hb
          right
          simp only [ReactorBuf.reserve, ne_eq, hhead, not_true_eq_false, if_false, if_pos hc, hb]
          by_cases hcopy : b.datalen ≤ b'.capacity
          · -- the old bytes fit, the new ones do not
            obtain ⟨b'', hcopy', hwf', hhead', hcap', hlen', -⟩ := hwf.copy hf hcopy
            simp only [hcopy', Outcome.ok_bind]
            exact ⟨b'', rfl, hwf', hhead', .inl (by omega)⟩
          · rw [IoBuf.copy_of_lt (not_le.mp hcopy)]
            exact ⟨b', rfl, hf.wellFormed, hf.head_eq,
              .inr ⟨hf.datalen_eq, b, rfl, hb, not_le.mp hcopy⟩⟩

end ReactorBuf

namespace OutBuf

open ReactorBuf

variable {alloc : Alloc} {buf : OutBuf} {data : List UInt8}

/-! ### `send_data` -/

/-- `send_data` has nothing to append, or is refused a first block. -/
def Refused (alloc : Alloc) (data : List UInt8) (buf : OutBuf) : Prop :=
  data = [] ∨ buf = none ∧ alloc data.length = none

/-- What `send_data` answers: -1 when it is refused, which leaves the buffer alone, and
otherwise 0. -/
theorem sendData_cases {ret : Int} {buf' : OutBuf} (h : sendData alloc data buf = .ok (ret, buf')) :
    (ret = -1 ∧ Refused alloc data buf ∧ buf' = buf) ∨
      (ret = 0 ∧ ¬Refused alloc data buf ∧ buf' ≠ none) := by
  unfold sendData at h
  by_cases hd : data = []
  · rw [if_pos hd] at h
    obtain ⟨rfl, rfl⟩ := Prod.mk.inj (Except.ok.inj h)
    exact .inl ⟨rfl, .inl hd, rfl⟩
  rw [if_neg hd] at h
  obtain ⟨r, hr, h⟩ := Outcome.bind_eq_ok.mp h
  cases r with
  | none =>
      obtain ⟨rfl, rfl⟩ := Prod.mk.inj (Except.ok.inj h)
      obtain ⟨rfl, hrefused⟩ := reserve_ok_none hr
      exact .inl ⟨rfl, .inr ⟨rfl, hrefused⟩, rfl⟩
  | some b =>
      obtain ⟨data', -, h⟩ := Outcome.bind_eq_ok.mp h
      obtain ⟨rfl, rfl⟩ := Prod.mk.inj (Except.ok.inj h)
      refine .inr ⟨rfl, fun hrefused ↦ ?_, Option.some_ne_none _⟩
      rcases hrefused with hnil | ⟨rfl, hnone⟩
      · exact hd hnil
      · have := Except.ok.inj hr
        rw [hnone] at this
        cases this

/-- The first bytes of a buffer are those that `send_data` appends. -/
theorem length_sendData_none {ret : Int} {buf' : OutBuf} (ha : FreshAlloc alloc)
    (h : sendData alloc data none = .ok (ret, buf')) (hd : ¬Refused alloc data none) :
    buf'.length = data.length := by
  rw [sendData, if_neg fun hnil ↦ hd (.inl hnil)] at h
  cases hb : alloc data.length with
  | none => exact absurd (.inr ⟨rfl, hb⟩) hd
  | some b =>
      simp only [reserve, hb, Outcome.ok_bind] at h
      obtain ⟨data', -, h⟩ := Outcome.bind_eq_ok.mp h
      obtain ⟨-, rfl⟩ := Prod.mk.inj (Except.ok.inj h)
      simp only [ReactorBuf.length, (ha _ b hb).datalen_eq, Int.zero_add]

/-- With room, `send_data` appends its bytes, or is refused a first block. -/
theorem sendData_of_room (h : buf.Ready) (ha : FreshAlloc alloc) (hd : data ≠ [])
    (hr : buf.Room alloc data.length) :
    (buf = none ∧ alloc data.length = none ∧ sendData alloc data buf = .ok (-1, none)) ∨
    ∃ buf', sendData alloc data buf = .ok (0, buf') ∧ buf'.Ready ∧
      buf'.content = buf.content ++ data := by
  obtain ⟨r, hres, hnone, hsome⟩ := h.reserve ha (Int.natCast_nonneg _) hr
  rw [sendData, if_neg hd, hres]
  simp only [Outcome.ok_bind]
  cases r with
  | none => exact .inl ⟨(hnone rfl).1, (hnone rfl).2, rfl⟩
  | some b =>
      right
      obtain ⟨hwf, hhead, hle, hcont⟩ := hsome b rfl
      obtain ⟨data', hs, hwf', hcont'⟩ := hwf.append hhead
        (show b.datalen + data.length ≤ _ by omega)
      refine ⟨_, by simp only [hs, Outcome.inBounds_some, Outcome.ok_bind]; rfl, ?_, ?_⟩
      · exact ready_some.mpr ⟨hwf', hhead⟩
      · rw [← hcont]
        exact hcont'

theorem offered (h : buf.Ready) {b : IoBuf} (hb : buf = some b) :
    Block.load b.data 0 b.datalen = some buf.content := by
  subst hb
  obtain ⟨hwf, hhead⟩ := ready_some.mp h
  have := hwf.le_capacity
  rw [Block.load_eq le_rfl hwf.datalen_nonneg (by rw [hwf.length_data]; omega)]
  simp only [content, IoBuf.content, hhead]

/-- `write2fd` takes what it has written off the front. -/
theorem write2fd_spec (h : buf.Ready) (res : WriteResult) :
    ∃ ret taken buf', write2fd res buf = .ok (ret, taken, buf') ∧ buf'.Ready ∧
      buf.content = taken ++ buf'.content ∧ (0 < ret → taken ≠ []) ∧ (ret ≤ 0 → taken = []) := by
  cases buf with
  | none => exact ⟨-1, [], none, rfl, ready_none, rfl, by decide, fun _ ↦ rfl⟩
  | some b =>
      have hoff := offered h rfl
      obtain ⟨hwf, -⟩ := ready_some.mp h
      rw [write2fd, hoff]
      simp only [Outcome.inBounds_some, Outcome.ok_bind]
      cases res with
      | error errno =>
          cases errno
          case eagain => exact ⟨0, [], some b, rfl, h, rfl, by decide, fun _ ↦ rfl⟩
          all_goals exact ⟨-1, [], some b, rfl, h, rfl, by decide, fun _ ↦ rfl⟩
      | wrote n =>
          simp only
          by_cases ht : (content (some b)).take n = []
          · rw [if_pos ht]
            exact ⟨0, [], some b, rfl, h, rfl, by decide, fun _ ↦ rfl⟩
          · rw [if_neg ht]
            have hpos : 0 < ((content (some b)).take n).length := List.length_pos_iff.mpr ht
            have hle : (((content (some b)).take n).length : Int) ≤ b.datalen := by
              have hl := hwf.length_content
              rw [List.length_take]
              simp only [content]
              omega
            obtain ⟨b', hadj, hwf', hhead', -, -, hcont'⟩ :=
              (hwf.pop ((content (some b)).take n).length).adjust
            rw [hadj]
            refine ⟨_, _, some b', rfl, ready_some.mpr ⟨hwf', hhead'⟩, ?_, fun _ ↦ ht,
              fun hn ↦ by omega⟩
            simp only [content] at hcont' hle ⊢
            rw [hcont', hwf.content_pop (Int.natCast_nonneg _) hle, Int.toNat_natCast,
              List.length_take]
            rcases Nat.le_total n b.content.length with hn | hn
            · rw [Nat.min_eq_left hn, List.take_append_drop]
            · rw [Nat.min_eq_right hn, List.take_of_length_le hn, List.drop_length,
                List.append_nil]

end OutBuf

namespace InBuf

open ReactorBuf

variable {alloc : Alloc} {buf : InBuf} {b : IoBuf} {needRead : Int}

/-! ### `readfd` -/

/-- Reading into a block with space for the pending bytes appends what is read. -/
theorem readInto_spec (read : Int → ReadResult) (hwf : b.WellFormed) (hhead : b.head = 0)
    (hneed : 0 ≤ needRead)
    (hle : needRead + b.datalen ≤ b.capacity)
    (hread : ∀ n bs, 0 ≤ n → read n = .bytes bs → (bs.length : Int) ≤ n)
    (hpend : ∀ bs, 0 < needRead → read needRead = .bytes bs → bs ≠ [] →
      (bs.length : Int) = needRead) :
    ∃ ret bs buf', readInto needRead read b = .ok (ret, buf') ∧ buf'.Ready ∧
      buf'.content = b.content ++ bs ∧
      (0 < needRead → ∀ cs, read needRead = .bytes cs → bs = cs ∧ ret = cs.length) := by
  have hdl := hwf.datalen_nonneg
  generalize hn : (if needRead = 0 then b.capacity - b.datalen else needRead) = n
  have hn₀ : 0 ≤ n ∧ b.datalen + n ≤ b.capacity := by
    split at hn <;> omega
  have hload := Block.load_eq (m := b.data) hdl hn₀.1 (by rw [hwf.length_data]; exact hn₀.2)
  have hready : Ready (some b) := ready_some.mpr ⟨hwf, hhead⟩
  simp only [readInto, hn, hload, Outcome.inBounds_some, Outcome.ok_bind]
  -- with bytes pending, this is the read of the pending bytes
  have hpos : 0 < needRead → read needRead = read n := fun hp ↦ by
    rw [← hn, if_neg hp.ne']
  cases hr : read n with
  | error errno =>
      have hno : 0 < needRead → ∀ cs, read needRead ≠ .bytes cs := fun hp cs ↦ by
        rw [hpos hp, hr]
        exact ReadResult.noConfusion
      cases errno
      case other =>
        exact ⟨-1, [], some b, rfl, hready, (List.append_nil _).symm,
          fun hp cs hcs ↦ absurd hcs (hno hp cs)⟩
      all_goals
        exact ⟨0, [], some b, rfl, hready, (List.append_nil _).symm,
          fun hp cs hcs ↦ absurd hcs (hno hp cs)⟩
  | bytes bs =>
      have hsame : 0 < needRead → ∀ cs, read needRead = .bytes cs → bs = cs := fun hp cs hcs ↦ by
        rw [hpos hp, hr] at hcs
        exact ReadResult.bytes.inj hcs
      cases bs with
      | nil =>
          refine ⟨0, [], some b, rfl, hready, (List.append_nil _).symm, fun hp cs hcs ↦ ?_⟩
          obtain rfl := hsame hp cs hcs
          exact ⟨rfl, rfl⟩
      | cons c cs =>
          have hassert : ¬(needRead ≠ 0 ∧ ((c :: cs).length : Int) ≠ needRead) := by
            rintro ⟨hne, hlen⟩
            rw [if_neg hne] at hn
            subst hn
            exact hlen (hpend _ (by omega) hr (List.cons_ne_nil _ _))
          have hfit := hread n _ hn₀.1 hr
          obtain ⟨data, hs, hwf', hcont'⟩ := hwf.append hhead
            (show b.datalen + (c :: cs).length ≤ _ by omega)
          simp only [if_neg hassert, hs, Outcome.inBounds_some, Outcome.ok_bind]
          refine ⟨_, c :: cs, _, rfl, ready_some.mpr ⟨hwf', hhead⟩, hcont', fun hp cs' hcs ↦ ?_⟩
          obtain rfl := hsame hp cs' hcs
          exact ⟨rfl, rfl⟩

/-- With room, `readfd` appends what it has read: the pending bytes, unless a first block
is refused. -/
theorem readfd_of_room (h : buf.Ready) (ha : FreshAlloc alloc) (fd : Socket)
    (hr : ∀ k, fd.needRead = some k → buf.Room alloc k) :
    ∃ ret bs buf', readfd alloc fd buf = .ok (ret, buf') ∧ buf'.Ready ∧
      buf'.content = buf.content ++ bs ∧
      (∀ k cs, fd.needRead = some k → 0 < k → fd.read k = .bytes cs → alloc k ≠ none →
        bs = cs ∧ ret = cs.length) := by
  unfold readfd
  cases hk : fd.needRead with
  | none =>
      exact ⟨-1, [], buf, rfl, h, (List.append_nil _).symm, fun _ _ hk' ↦ by cases hk'⟩
  | some k =>
      have hk₀ := fd.needRead_nonneg k hk
      obtain ⟨r, hres, hnone, hsome⟩ := h.reserve ha hk₀ (hr k hk)
      simp only [hres, Outcome.ok_bind]
      cases r with
      | none =>
          obtain ⟨rfl, hrefused⟩ := hnone rfl
          refine ⟨-1, [], none, rfl, ready_none, rfl, fun k' cs hk' _ _ halloc ↦ ?_⟩
          obtain rfl := Option.some.inj hk'
          exact absurd hrefused halloc
      | some b =>
          obtain ⟨hwf, hhead, hle, hcont⟩ := hsome b rfl
          obtain ⟨ret, bs, buf', hrd, hready, hcont', hread⟩ :=
            readInto_spec fd.read hwf hhead hk₀ hle fd.read_le fun bs ↦ fd.read_pending k bs hk
          refine ⟨ret, bs, buf', hrd, hready, by rw [hcont', hcont], fun k' cs hk' hpos hcs _ ↦ ?_⟩
          obtain rfl := Option.some.inj hk'
          exact hread hpos cs hcs

/-- `adjust` keeps the bytes held and moves them to the front. -/
theorem adjust_spec (h : buf.WellFormed) :
    ∃ buf', adjust buf = .ok buf' ∧ buf'.Ready ∧ buf'.content = buf.content := by
  cases buf with
  | none => exact ⟨none, rfl, ready_none, rfl⟩
  | some b =>
      obtain ⟨b', hadj, hwf, hhead, -, -, hcont⟩ := (wellFormed_some.mp h).adjust
      refine ⟨some b', ?_, ready_some.mpr ⟨hwf, hhead⟩, hcont⟩
      simp only [adjust, hadj, Outcome.ok_bind]
      rfl

end InBuf

end Ylars.Reactor
