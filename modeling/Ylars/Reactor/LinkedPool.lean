import Mathlib.Tactic.Ring
import Ylars.Lib.Linked
import Ylars.Reactor.BufPool

/-!
# The free lists of the pool

`buf_pool` keeps the free buffers of a size in a list that runs through their `next`
fields, from the entry of `_pool` on.  `LinkedPool` has the buffers by their addresses, so
that it can be said where a buffer is; `BufPool` has the same lists by their contents, and
`Represents` relates the two.

`Accounted` is the invariant: the lists of all sizes are linked, hold clean buffers of
their size, and none that is handed out; and `_curr_cap` is the size of all buffers made.
-/

namespace Ylars.Reactor

open Ylars.Lib

/-- The address of a buffer, `io_buf*`. -/
abbrev BufPtr := ℕ

/-- The pool with its buffers. -/
structure LinkedPool where
  buf : BufPtr → IoBuf
  /-- The `next` fields. -/
  next : BufPtr → Option BufPtr
  /-- `_pool`: the first free buffer of a size. -/
  pool : Int → Option BufPtr
  currCap : ℕ
  /-- The first address that no buffer has been made at. -/
  made : BufPtr

namespace LinkedPool

/-- `new io_buf{type}`. -/
def newIoBuf (type : MemType) (p : LinkedPool) : BufPtr × LinkedPool :=
  (p.made, { p with
    buf := Function.update p.buf p.made (IoBuf.new type.size)
    next := Function.update p.next p.made none
    made := p.made + 1 })

/-- The loop of `make_io_buf_pool`: link `n` new buffers after `curr`. -/
def appendNew (type : MemType) : ℕ → BufPtr → LinkedPool → LinkedPool
  | 0, _, p => p
  | n + 1, curr, p =>
      let (buf, p) := p.newIoBuf type
      appendNew type n buf { p with next := Function.update p.next curr (some buf) }

/-- `make_io_buf_pool`: make `num` buffers of a size, unless that is too much. -/
def makeIoBufPool (type : MemType) (num : ℕ) (p : LinkedPool) : LinkedPool :=
  if maxBufPoolCap < type.size.toNat / 1024 * num + p.currCap then p
  else
    let (head, p) := p.newIoBuf type
    let p := { p with pool := Function.update p.pool type.size (some head) }
    let p := appendNew type (num - 1) head p
    { p with currCap := p.currCap + type.size.toNat / 1024 * num }

/-- The constructor. -/
@[irreducible] def new : LinkedPool :=
  ({ buf := fun _ ↦ .new 0, next := fun _ ↦ none, pool := fun _ ↦ none, currCap := 0, made := 0 } :
      LinkedPool)
    |>.makeIoBufPool .m4K 5000
    |>.makeIoBufPool .m16K 1000
    |>.makeIoBufPool .m64K 500
    |>.makeIoBufPool .m256K 200
    |>.makeIoBufPool .m1M 100
    |>.makeIoBufPool .m4M 50
    |>.makeIoBufPool .m16M 10

/-- `alloc_buf` up to its last test: the buffer, still with its link. -/
def takeBuf (len : Int) (p : LinkedPool) : Option BufPtr × LinkedPool :=
  let type := getMemLen len
  match p.pool type.size with
  | some b => (some b, { p with pool := Function.update p.pool type.size (p.next b) })
  | none =>
      if maxBufPoolCap < p.currCap + type.size.toNat / 1024 then (none, p)
      else
        let (b, p) := p.newIoBuf type
        (some b, { p with currCap := p.currCap + type.size.toNat / 1024 })

/-- `alloc_buf`. -/
def allocBuf (len : Int) (p : LinkedPool) : Option BufPtr × LinkedPool :=
  match p.takeBuf len with
  | (none, p) => (none, p)
  | (some b, p) => (some b, { p with next := Function.update p.next b none })

/-- `release`: clear a buffer and put it in front of the list of its capacity. -/
def release (b : BufPtr) (p : LinkedPool) : Outcome LinkedPool := do
  let buf ← ((p.buf b).pop (p.buf b).datalen).adjust
  let buf := { buf with datalen := 0 }
  return { p with
    buf := Function.update p.buf b buf
    next := Function.update p.next b (p.pool buf.capacity)
    pool := Function.update p.pool buf.capacity (some b) }

/-! ## Using a buffer -/

/-- Storing in a buffer. -/
def setBuf (b : BufPtr) (buf : IoBuf) (p : LinkedPool) : LinkedPool :=
  { p with buf := Function.update p.buf b buf }

/-- `buf->pop(n)`. -/
def pop (b : BufPtr) (n : Int) (p : LinkedPool) : LinkedPool := p.setBuf b ((p.buf b).pop n)

/-- `buf->adjust()`. -/
def adjust (b : BufPtr) (p : LinkedPool) : Outcome LinkedPool := do
  let buf ← (p.buf b).adjust
  return p.setBuf b buf

/-- `buf->copy(src)`.  The bytes are read after the old ones have been dropped, and the
source may be the same buffer. -/
def copy (b src : BufPtr) (p : LinkedPool) : Outcome LinkedPool :=
  if (p.buf src).datalen ≤ (p.buf b).capacity then do
    let buf ← ((p.buf b).pop (p.buf b).datalen).adjust
    let p := p.setBuf b buf
    let bytes ← Outcome.inBounds
      (Block.load (p.buf src).data (p.buf src).head (p.buf src).datalen)
    let data ← Outcome.inBounds (Block.store buf.data 0 bytes)
    return p.setBuf b { buf with datalen := (p.buf src).datalen, data := data }
  else .ok p

/-- What `send_data` and `readfd` do with a block that is large enough: the new bytes are
stored at `data + datalen`. -/
def append (b : BufPtr) (bytes : List UInt8) (p : LinkedPool) : Outcome LinkedPool := do
  let data ← Outcome.inBounds (Block.store (p.buf b).data (p.buf b).datalen bytes)
  return p.setBuf b { p.buf b with datalen := (p.buf b).datalen + bytes.length, data := data }

/-! ## The invariant -/

/-- The capacities of all buffers ever made, in bytes. -/
def totalCapacity (p : LinkedPool) : Int :=
  ((List.range p.made).map fun b ↦ (p.buf b).capacity).sum

/-- The buffers in the free list of a size. -/
def FreeList (p : LinkedPool) (c : Int) (l : List BufPtr) : Prop := Linked p.next (p.pool c) l

end LinkedPool

/-- The numbers of a buffer make sense, wherever its bytes are. -/
structure IoBuf.Sound (b : IoBuf) : Prop where
  head_nonneg : 0 ≤ b.head
  datalen_nonneg : 0 ≤ b.datalen
  length_data : (b.data.length : Int) = b.capacity

namespace IoBuf.Sound

variable {b b' : IoBuf}

theorem new (type : MemType) : (IoBuf.new type.size).Sound where
  head_nonneg := le_rfl
  datalen_nonneg := le_rfl
  length_data := by
    have := type.size_pos
    simp only [IoBuf.new, List.length_replicate]
    omega

theorem pop (h : b.Sound) (n : Int) : (b.pop n).Sound := by
  have h₁ := h.head_nonneg
  have h₂ := h.datalen_nonneg
  unfold IoBuf.pop
  split
  · exact h
  · refine ⟨?_, ?_, h.length_data⟩ <;> simp only <;> split <;> omega

theorem adjust (h : b.Sound) (ha : b.adjust = .ok b') :
    b'.Sound ∧ b'.capacity = b.capacity ∧ b'.head = 0 ∧ b'.datalen = b.datalen := by
  unfold IoBuf.adjust at ha
  split at ha
  · obtain ⟨data, hd, ha⟩ := Outcome.bind_eq_ok.mp ha
    obtain ⟨data', hs, ha⟩ := Outcome.bind_eq_ok.mp ha
    obtain rfl := Except.ok.inj ha
    have hlen : data.length = b.data.length := by
      unfold IoBuf.moveToFront at hd
      split at hd
      · obtain ⟨bytes, -, hd⟩ := Outcome.bind_eq_ok.mp hd
        exact Block.length_store (Outcome.inBounds_eq_ok.mp hd)
      · exact congrArg List.length (Except.ok.inj hd).symm
    refine ⟨⟨le_rfl, h.datalen_nonneg, ?_⟩, rfl, rfl, rfl⟩
    rw [Block.length_store (Outcome.inBounds_eq_ok.mp hs), hlen]
    exact h.length_data
  · rename_i hh
    obtain rfl := Except.ok.inj ha
    exact ⟨h, rfl, le_antisymm (not_lt.mp hh) h.head_nonneg, rfl⟩

/-- Dropping all bytes and adjusting stays inside the block, wherever the bytes are. -/
theorem exists_clear (h : b.Sound) :
    ∃ b', (b.pop b.datalen).adjust = .ok b' ∧ b'.Sound ∧ b'.capacity = b.capacity ∧
      b'.head = 0 := by
  have hpop : (b.pop b.datalen).datalen = 0 := by
    rw [IoBuf.datalen_pop h.datalen_nonneg le_rfl, Int.sub_self]
  have hs := h.pop b.datalen
  obtain ⟨b', ha⟩ : ∃ b', (b.pop b.datalen).adjust = .ok b' := by
    unfold IoBuf.adjust
    split
    · -- nothing is moved, and the whole block is cleared
      rw [IoBuf.moveToFront, if_neg (by omega), hpop, Int.sub_zero]
      obtain ⟨data, hst⟩ := Block.exists_store (b.pop b.datalen).data 0
        (List.replicate (b.pop b.datalen).capacity.toNat 0) le_rfl (by
          have := hs.length_data
          rw [List.length_replicate]
          omega)
      rw [Outcome.ok_bind, hst]
      exact ⟨_, rfl⟩
    · exact ⟨_, rfl⟩
  obtain ⟨hs', hcap, hhead, -⟩ := hs.adjust ha
  exact ⟨b', ha, hs', hcap.trans (IoBuf.capacity_pop _), hhead⟩

end IoBuf.Sound

namespace LinkedPool

/-- A free buffer of a size, while others are handed out. -/
structure Free (p : LinkedPool) (out : List BufPtr) (c : Int) (b : BufPtr) : Prop where
  lt : b < p.made
  notMem : b ∉ out
  capacity : (p.buf b).capacity = c
  head : (p.buf b).head = 0
  datalen : (p.buf b).datalen = 0

/-- Every buffer is in its place, with the buffers `out` handed out. -/
structure Accounted (p : LinkedPool) (out : List BufPtr) : Prop where
  nodup : out.Nodup
  lt : ∀ b ∈ out, b < p.made
  sound : ∀ b < p.made, (p.buf b).Sound
  free : ∀ c, ∃ l, p.FreeList c l ∧ ∀ b ∈ l, p.Free out c b
  total : p.totalCapacity = 1024 * p.currCap
  le_cap : p.currCap ≤ maxBufPoolCap

variable {p p' : LinkedPool} {out : List BufPtr} {b : BufPtr} {c : Int}

/-! ### What has been made -/

theorem totalCapacity_congr (hm : p'.made = p.made)
    (hc : ∀ b < p.made, (p'.buf b).capacity = (p.buf b).capacity) :
    p'.totalCapacity = p.totalCapacity := by
  rw [totalCapacity, totalCapacity, hm]
  exact congrArg List.sum (List.map_congr_left fun b hb ↦ hc b (List.mem_range.mp hb))

/-- A new buffer adds its size. -/
theorem totalCapacity_newIoBuf (type : MemType) :
    (p.newIoBuf type).2.totalCapacity = p.totalCapacity + type.size := by
  have hold : (List.range p.made).map (fun b ↦ ((p.newIoBuf type).2.buf b).capacity) =
      (List.range p.made).map fun b ↦ (p.buf b).capacity := by
    refine List.map_congr_left fun b hb ↦ ?_
    have hne : b ≠ p.made := (List.mem_range.mp hb).ne
    simp only [newIoBuf, Function.update_of_ne hne]
  rw [totalCapacity, show (p.newIoBuf type).2.made = p.made + 1 from rfl, List.range_succ,
    List.map_append, List.sum_append, hold, totalCapacity]
  simp [newIoBuf, IoBuf.new]

theorem size_eq (type : MemType) : type.size = 1024 * ((type.size.toNat / 1024 : ℕ) : Int) := by
  cases type <;> decide

/-- What linking new buffers after `curr` does. -/
structure Appended (type : MemType) (n : ℕ) (curr : BufPtr) (p p' : LinkedPool) : Prop where
  made : p'.made = p.made + n
  pool : p'.pool = p.pool
  currCap : p'.currCap = p.currCap
  total : p'.totalCapacity = p.totalCapacity + n * type.size
  old : ∀ b < p.made, p'.buf b = p.buf b ∧ (b ≠ curr → p'.next b = p.next b)
  new : ∀ b, p.made ≤ b → b < p'.made → p'.buf b = IoBuf.new type.size
  linked : Linked p'.next (some curr) (curr :: List.range' p.made n)

/-- The loop of `make_io_buf_pool` links new buffers. -/
theorem appended_appendNew (type : MemType) (n : ℕ) (hlt : b < p.made) (hnext : p.next b = none) :
    Appended type n b p (appendNew type n b p) := by
  induction n generalizing b p with
  | zero =>
      refine ⟨rfl, rfl, rfl, by simp [appendNew], fun _ _ ↦ ⟨rfl, fun _ ↦ rfl⟩, ?_, rfl, ?_⟩
      · intro b' h₁ h₂
        exact absurd h₂ (not_lt.mpr h₁)
      · exact hnext
  | succ n ih =>
      have hne : p.made ≠ b := hlt.ne'
      have happ := @ih
        { (p.newIoBuf type).2 with
          next := Function.update (p.newIoBuf type).2.next b (some p.made) } p.made
        (Nat.lt_succ_self _) (by simp [newIoBuf, hne])
      refine ⟨?_, happ.pool, happ.currCap, ?_, fun b' hb' ↦ ?_, fun b' h₁ h₂ ↦ ?_, rfl, ?_⟩
      · rw [appendNew]
        exact happ.made.trans (Nat.add_right_comm ..)
      · refine happ.total.trans ?_
        have ht := totalCapacity_newIoBuf (p := p) type
        simp only [totalCapacity] at ht ⊢
        rw [ht]
        push_cast
        ring
      · obtain ⟨hbuf, hnext'⟩ := happ.old b' (Nat.lt_succ_of_lt hb')
        have hnew : b' ≠ p.made := hb'.ne
        refine ⟨hbuf.trans ?_, fun hb ↦ (hnext' hnew).trans ?_⟩
        · simp only [newIoBuf, Function.update_of_ne hnew]
        · simp only [newIoBuf, Function.update_of_ne hnew, Function.update_of_ne hb]
      · by_cases e : b' = p.made
        · subst e
          refine (happ.old p.made (Nat.lt_succ_self _)).1.trans ?_
          simp only [newIoBuf, Function.update_self]
        · exact happ.new b' (lt_of_le_of_ne h₁ (Ne.symm e)) h₂
      · -- the rest starts with the first new buffer, which `curr` now points to
        have hcurr : (appendNew type (n + 1) b p).next b = some p.made := by
          refine ((happ.old b (Nat.lt_succ_of_lt hlt)).2 hne.symm).trans ?_
          simp only [Function.update_self]
        rw [hcurr]
        exact happ.linked

/-- What making the buffers of a size does. -/
structure Made (type : MemType) (num : ℕ) (p p' : LinkedPool) : Prop where
  made : p'.made = p.made + num
  pool : p'.pool = Function.update p.pool type.size (some p.made)
  currCap : p'.currCap = p.currCap + type.size.toNat / 1024 * num
  total : p'.totalCapacity = p.totalCapacity + num * type.size
  old : ∀ b < p.made, p'.buf b = p.buf b ∧ p'.next b = p.next b
  new : ∀ b, p.made ≤ b → b < p'.made → p'.buf b = IoBuf.new type.size
  linked : Linked p'.next (some p.made) (List.range' p.made num)

/-- `make_io_buf_pool` makes the buffers of a size, when the limit allows it. -/
theorem made_makeIoBufPool (type : MemType) {num : ℕ} (hnum : 0 < num)
    (hcap : ¬maxBufPoolCap < type.size.toNat / 1024 * num + p.currCap) :
    Made type num p (p.makeIoBufPool type num) := by
  have happ := appended_appendNew type (num - 1)
    (p := { (p.newIoBuf type).2 with
      pool := Function.update (p.newIoBuf type).2.pool type.size (some p.made) })
    (b := p.made) (Nat.lt_succ_self _) (by simp [newIoBuf])
  rw [LinkedPool.makeIoBufPool, if_neg hcap]
  obtain ⟨n, rfl⟩ : ∃ n, num = n + 1 := ⟨num - 1, (Nat.sub_add_cancel hnum).symm⟩
  refine ⟨happ.made.trans (Nat.add_right_comm ..), happ.pool,
    congrArg (· + type.size.toNat / 1024 * (n + 1)) happ.currCap, ?_, fun b hb ↦ ?_,
    fun b h₁ h₂ ↦ ?_, happ.linked⟩
  · refine happ.total.trans ?_
    have ht := totalCapacity_newIoBuf (p := p) type
    simp only [totalCapacity] at ht ⊢
    rw [ht]
    push_cast
    ring
  · obtain ⟨hbuf, hnext⟩ := happ.old b (Nat.lt_succ_of_lt hb)
    refine ⟨hbuf.trans ?_, (hnext hb.ne).trans ?_⟩ <;>
    simp only [newIoBuf, Function.update_of_ne hb.ne]
  · by_cases e : b = p.made
    · subst e
      refine (happ.old p.made (Nat.lt_succ_self _)).1.trans ?_
      simp only [newIoBuf, Function.update_self]
    · exact happ.new b (lt_of_le_of_ne h₁ (Ne.symm e)) h₂

theorem Free.push {b' : BufPtr} (h : p.Free out c b') (hne : b' ≠ b) :
    p.Free (out ++ [b]) c b' where
  lt := h.lt
  notMem hmem := by
    rcases List.mem_append.mp hmem with hmem | hmem
    · exact h.notMem hmem
    · exact hne (List.mem_singleton.mp hmem)
  capacity := h.capacity
  head := h.head
  datalen := h.datalen

/-- A free list stays one where its buffers and their links are left alone. -/
theorem free_congr (p' : LinkedPool) {l : List BufPtr} (hl : Linked p.next (p.pool c) l)
    (hf : ∀ b ∈ l, p.Free out c b)
    (hm : p.made ≤ p'.made) {out' : List BufPtr} (hout : ∀ b ∈ l, b ∈ out' → b ∈ out)
    (hsame : ∀ b ∈ l, p'.buf b = p.buf b ∧ p'.next b = p.next b) :
    Linked p'.next (p.pool c) l ∧ ∀ b ∈ l, p'.Free out' c b := by
  refine ⟨hl.congr fun b hb ↦ (hsame b hb).2, fun b hb ↦ ?_⟩
  have h := hf b hb
  obtain ⟨hbuf, -⟩ := hsame b hb
  exact ⟨h.lt.trans_le hm, fun hmem ↦ h.notMem (hout b hb hmem), by rw [hbuf, h.capacity],
    by rw [hbuf, h.head], by rw [hbuf, h.datalen]⟩

/-- Without an answer `alloc_buf` does nothing. -/
theorem eq_of_allocBuf_none {len : Int}
    (ha : p.allocBuf len = (none, p')) : p' = p := by
  unfold LinkedPool.allocBuf takeBuf at ha
  cases hp : p.pool (getMemLen len).size with
  | some b₀ =>
      simp only [hp] at ha
      cases (Prod.mk.inj ha).1
  | none =>
      simp only [hp] at ha
      by_cases hcap : maxBufPoolCap < p.currCap + (getMemLen len).size.toNat / 1024
      · simp only [hcap, if_true] at ha
        exact (Prod.mk.inj ha).2.symm
      · simp only [hcap, if_false] at ha
        cases (Prod.mk.inj ha).1

namespace Accounted

/-! ### Making the pool -/

theorem empty (buf : BufPtr → IoBuf) :
    Accounted { buf := buf, next := fun _ ↦ none, pool := fun _ ↦ none, currCap := 0, made := 0 }
      [] where
  nodup := List.nodup_nil
  lt b hb := by cases hb
  sound b hb := absurd hb (Nat.not_lt_zero b)
  free c := ⟨[], rfl, fun b hb ↦ by cases hb⟩
  total := rfl
  le_cap := Nat.zero_le _

/-- Making the buffers of a size, where this size and the larger ones have none. -/
theorem makeIoBufPool (h : p.Accounted out) (type : MemType) {num : ℕ} (hnum : 0 < num)
    (hpool : ∀ c, type.size ≤ c → p.pool c = none) :
    (p.makeIoBufPool type num).Accounted out ∧
      ∀ c, type.size < c → (p.makeIoBufPool type num).pool c = none := by
  by_cases hcap : maxBufPoolCap < type.size.toNat / 1024 * num + p.currCap
  · rw [LinkedPool.makeIoBufPool, if_pos hcap]
    exact ⟨h, fun c hc ↦ hpool c hc.le⟩
  have hmade := made_makeIoBufPool type hnum hcap
  generalize p.makeIoBufPool type num = q at hmade
  have hle : p.made ≤ q.made := by
    rw [hmade.made]
    exact Nat.le_add_right ..
  refine ⟨⟨h.nodup, fun b hb ↦ (h.lt b hb).trans_le hle, fun b hb ↦ ?_, fun c ↦ ?_, ?_, ?_⟩,
    fun c hc ↦ ?_⟩
  · by_cases hb' : b < p.made
    · rw [(hmade.old b hb').1]
      exact h.sound b hb'
    · rw [hmade.new b (not_lt.mp hb') hb]
      exact .new type
  · simp only [FreeList]
    by_cases hc : c = type.size
    · subst hc
      rw [hmade.pool, Function.update_self]
      refine ⟨_, hmade.linked, fun b hb ↦ ?_⟩
      obtain ⟨hb₁, hb₂⟩ := List.mem_range'_1.mp hb
      rw [← hmade.made] at hb₂
      have hbuf := hmade.new b hb₁ hb₂
      exact ⟨hb₂, fun hout ↦ absurd (h.lt b hout) (not_lt.mpr hb₁),
        congrArg IoBuf.capacity hbuf, congrArg IoBuf.head hbuf, congrArg IoBuf.datalen hbuf⟩
    · rw [hmade.pool, Function.update_of_ne hc]
      obtain ⟨l, hl, hf⟩ := h.free c
      exact ⟨l, free_congr q hl hf hle (fun _ _ hb ↦ hb) fun b hb ↦ hmade.old b (hf b hb).lt⟩
  · rw [hmade.total, h.total, hmade.currCap]
    conv_lhs => rw [size_eq type]
    push_cast
    ring
  · rw [hmade.currCap, Nat.add_comm]
    exact not_lt.mp hcap
  · rw [hmade.pool, Function.update_of_ne hc.ne', hpool c hc.le]

/-! ### Using the buffers -/

/-- What the holder of a buffer does with it, as long as its numbers make sense. -/
theorem setBuf (h : p.Accounted out) (hb : b ∈ out) {buf : IoBuf} (hs : buf.Sound)
    (hcap : buf.capacity = (p.buf b).capacity) : (p.setBuf b buf).Accounted out where
  nodup := h.nodup
  lt := h.lt
  sound b' hb' := by
    by_cases e : b' = b
    · subst e
      simpa only [LinkedPool.setBuf, Function.update_self] using hs
    · simpa only [LinkedPool.setBuf, Function.update_of_ne e] using h.sound b' hb'
  free c := by
    obtain ⟨l, hl, hf⟩ := h.free c
    refine ⟨l, free_congr (p.setBuf b buf) hl hf le_rfl (fun _ _ hb ↦ hb) fun b' hb' ↦ ⟨?_, rfl⟩⟩
    have hne : b' ≠ b := fun e ↦ (hf b' hb').notMem (e ▸ hb)
    simp only [LinkedPool.setBuf, Function.update_of_ne hne]
  total := by
    have ht : (p.setBuf b buf).totalCapacity = p.totalCapacity := by
      refine totalCapacity_congr rfl fun b' _ ↦ ?_
      by_cases e : b' = b
      · subst e
        simpa only [LinkedPool.setBuf, Function.update_self] using hcap
      · simp only [LinkedPool.setBuf, Function.update_of_ne e]
    exact ht.trans h.total
  le_cap := h.le_cap

theorem pop (h : p.Accounted out) (hb : b ∈ out) (n : Int) : (p.pop b n).Accounted out :=
  h.setBuf hb ((h.sound b (h.lt b hb)).pop n) (IoBuf.capacity_pop n)

theorem adjust (h : p.Accounted out) (hb : b ∈ out) (ha : p.adjust b = .ok p') :
    p'.Accounted out := by
  obtain ⟨buf, hbuf, ha⟩ := Outcome.bind_eq_ok.mp ha
  obtain rfl := Except.ok.inj ha
  obtain ⟨hs, hcap, -, -⟩ := (h.sound b (h.lt b hb)).adjust hbuf
  exact h.setBuf hb hs hcap

theorem copy (h : p.Accounted out) (hb : b ∈ out) {src : BufPtr} (hsrc : src ∈ out)
    (hc : p.copy b src = .ok p') : p'.Accounted out := by
  unfold LinkedPool.copy at hc
  split at hc
  · obtain ⟨buf, hbuf, hc⟩ := Outcome.bind_eq_ok.mp hc
    obtain ⟨hs, hcap, hhead, -⟩ := ((h.sound b (h.lt b hb)).pop (p.buf b).datalen).adjust hbuf
    have hcap' : buf.capacity = (p.buf b).capacity := hcap.trans (IoBuf.capacity_pop _)
    have h₁ := h.setBuf hb hs hcap'
    obtain ⟨bytes, -, hc⟩ := Outcome.bind_eq_ok.mp hc
    obtain ⟨data, hst, hc⟩ := Outcome.bind_eq_ok.mp hc
    obtain rfl := Except.ok.inj hc
    refine h₁.setBuf hb ⟨hs.head_nonneg, (h₁.sound src (h.lt src hsrc)).datalen_nonneg, ?_⟩ ?_
    · rw [Block.length_store (Outcome.inBounds_eq_ok.mp hst)]
      exact hs.length_data
    · simp only [LinkedPool.setBuf, Function.update_self]
  · obtain rfl := Except.ok.inj hc
    exact h

theorem append (h : p.Accounted out) (hb : b ∈ out) {bytes : List UInt8}
    (ha : p.append b bytes = .ok p') : p'.Accounted out := by
  obtain ⟨data, hst, ha⟩ := Outcome.bind_eq_ok.mp ha
  obtain rfl := Except.ok.inj ha
  have hs := h.sound b (h.lt b hb)
  refine h.setBuf hb ⟨hs.head_nonneg, ?_, ?_⟩ rfl
  · exact Int.add_nonneg hs.datalen_nonneg (Int.natCast_nonneg _)
  · rw [Block.length_store (Outcome.inBounds_eq_ok.mp hst)]
    exact hs.length_data

/-! ### Handing out and taking back -/

theorem nodup_push (h : p.Accounted out) (hb : b ∉ out) : (out ++ [b]).Nodup :=
  h.nodup.append (List.nodup_singleton _) fun _ hb' hmem ↦
    hb (List.mem_singleton.mp hmem ▸ hb')

theorem takeFirst (h : p.Accounted out) (hp : p.pool c = some b) :
    Accounted { p with
      pool := Function.update p.pool c (p.next b)
      next := Function.update p.next b none } (out ++ [b]) ∧
    (p.buf b).head = 0 ∧ (p.buf b).datalen = 0 := by
  obtain ⟨l, hl, hf⟩ := h.free c
  rw [FreeList, hp] at hl
  obtain ⟨l, rfl, hrest⟩ := hl.of_some
  have hb := hf b (List.mem_cons_self ..)
  have hnot : b ∉ l := (List.nodup_cons.mp hl.nodup).1
  refine ⟨⟨h.nodup_push hb.notMem, fun b' hb' ↦ ?_, h.sound, fun c' ↦ ?_, h.total, h.le_cap⟩,
    hb.head, hb.datalen⟩
  · rcases List.mem_append.mp hb' with hb' | hb'
    · exact h.lt b' hb'
    · exact List.mem_singleton.mp hb' ▸ hb.lt
  · change ∃ l', Linked (Function.update p.next b none)
      (Function.update p.pool c (p.next b) c') l' ∧ _
    by_cases hc : c' = c
    · -- the list of the size loses its first buffer
      subst hc
      rw [Function.update_self]
      refine ⟨l, hrest.update hnot none, fun b' hb' ↦ ?_⟩
      have hfree := (hf b' (List.mem_cons_of_mem _ hb')).push fun (e : b' = b) ↦ hnot (e ▸ hb')
      exact ⟨hfree.lt, hfree.notMem, hfree.capacity, hfree.head, hfree.datalen⟩
    · -- it is on no other list
      rw [Function.update_of_ne hc]
      obtain ⟨l', hl', hf'⟩ := h.free c'
      have hne : ∀ b' ∈ l', b' ≠ b := by
        rintro b' hb' rfl
        exact hc ((hf' b' hb').capacity.symm.trans hb.capacity)
      refine ⟨l', hl'.update (fun hmem ↦ hne b hmem rfl) none, fun b' hb' ↦ ?_⟩
      have hfree := (hf' b' hb').push (hne b' hb')
      exact ⟨hfree.lt, hfree.notMem, hfree.capacity, hfree.head, hfree.datalen⟩

theorem makeOne (h : p.Accounted out) {type : MemType}
    (hcap : p.currCap + type.size.toNat / 1024 ≤ maxBufPoolCap) :
    Accounted { (p.newIoBuf type).2 with
      currCap := p.currCap + type.size.toNat / 1024
      next := Function.update (p.newIoBuf type).2.next p.made none } (out ++ [p.made]) where
  nodup := h.nodup_push fun hb ↦ lt_irrefl _ (h.lt _ hb)
  lt b hb := by
    rcases List.mem_append.mp hb with hb | hb
    · exact Nat.lt_succ_of_lt (h.lt b hb)
    · obtain rfl := List.mem_singleton.mp hb
      exact Nat.lt_succ_self _
  sound b hb := by
    by_cases e : b = p.made
    · subst e
      simpa only [newIoBuf, Function.update_self] using .new type
    · simpa only [newIoBuf, Function.update_of_ne e] using
        h.sound b (lt_of_le_of_ne (Nat.lt_succ_iff.mp hb) e)
  free c := by
    obtain ⟨l, hl, hf⟩ := h.free c
    refine ⟨l, free_congr _ hl (fun b hb ↦ (hf b hb).push (hf b hb).lt.ne) (Nat.le_succ _)
      (fun _ _ hb ↦ hb) fun b hb ↦ ?_⟩
    have hne : b ≠ p.made := (hf b hb).lt.ne
    simp only [newIoBuf, Function.update_of_ne hne, and_self]
  total := by
    have ht := totalCapacity_newIoBuf (p := p) type
    refine Eq.trans ht ?_
    rw [h.total]
    conv_lhs => rw [size_eq type]
    push_cast
    ring
  le_cap := hcap

/-- A buffer that `alloc_buf` returns is unlinked and clean, and it was free or new. -/
theorem allocBuf (h : p.Accounted out) {len : Int} (ha : p.allocBuf len = (some b, p')) :
    p'.Accounted (out ++ [b]) ∧ p'.next b = none ∧ (p'.buf b).head = 0 ∧
      (p'.buf b).datalen = 0 := by
  unfold LinkedPool.allocBuf takeBuf at ha
  cases hp : p.pool (getMemLen len).size with
  | some b₀ =>
      simp only [hp] at ha
      obtain ⟨hb, rfl⟩ := Prod.mk.inj ha
      obtain rfl := Option.some.inj hb
      obtain ⟨h', hhead, hlen⟩ := h.takeFirst hp
      exact ⟨h', Function.update_self .., hhead, hlen⟩
  | none =>
      simp only [hp] at ha
      by_cases hcap : maxBufPoolCap < p.currCap + (getMemLen len).size.toNat / 1024
      · simp only [hcap, if_true] at ha
        cases (Prod.mk.inj ha).1
      · simp only [hcap, if_false] at ha
        obtain ⟨hb, rfl⟩ := Prod.mk.inj ha
        obtain rfl : p.made = b := Option.some.inj hb
        refine ⟨h.makeOne (not_lt.mp hcap), Function.update_self .., ?_, ?_⟩ <;>
        simp only [newIoBuf, Function.update_self, IoBuf.new]

/-- `release` of a buffer that is handed out succeeds, however the buffer was used. -/
theorem release (h : p.Accounted out) (hb : b ∈ out) :
    ∃ p', p.release b = .ok p' ∧ p'.Accounted (out.erase b) := by
  obtain ⟨buf, hbuf, hs, hcap, hhead⟩ := (h.sound b (h.lt b hb)).exists_clear
  refine ⟨{ p with
    buf := Function.update p.buf b { buf with datalen := 0 }
    next := Function.update p.next b (p.pool buf.capacity)
    pool := Function.update p.pool buf.capacity (some b) }, ?_, h.nodup.erase b,
    fun b' hb' ↦ h.lt b' (List.mem_of_mem_erase hb'), fun b' hb' ↦ ?_, fun c ↦ ?_, ?_, h.le_cap⟩
  · rw [LinkedPool.release, hbuf]
    rfl
  · by_cases e : b' = b
    · subst e
      simpa only [Function.update_self] using ⟨hs.head_nonneg, le_rfl, hs.length_data⟩
    · simpa only [Function.update_of_ne e] using h.sound b' hb'
  · obtain ⟨l, hl, hf⟩ := h.free c
    have hnot : b ∉ l := fun hmem ↦ (hf b hmem).notMem hb
    have hfree : ∀ b' ∈ l, Free { p with
        buf := Function.update p.buf b { buf with datalen := 0 }
        next := Function.update p.next b (p.pool buf.capacity)
        pool := Function.update p.pool buf.capacity (some b) } (out.erase b) c b' := by
      intro b' hb'
      have hne : b' ≠ b := fun e ↦ hnot (e ▸ hb')
      obtain ⟨h₁, h₂, h₃, h₄, h₅⟩ := hf b' hb'
      refine ⟨h₁, fun hmem ↦ h₂ (List.mem_of_mem_erase hmem), ?_, ?_, ?_⟩ <;>
      simpa only [Function.update_of_ne hne]
    change ∃ l', Linked (Function.update p.next b (p.pool buf.capacity))
      (Function.update p.pool buf.capacity (some b) c) l' ∧ _
    by_cases hc : c = buf.capacity
    · -- the buffer comes before those of its capacity
      subst hc
      rw [Function.update_self]
      refine ⟨b :: l, hl.push hnot, fun b' hb' ↦ ?_⟩
      rcases List.mem_cons.mp hb' with rfl | hb'
      · refine ⟨h.lt b' hb, fun hmem ↦ h.nodup.not_mem_erase hmem, ?_, ?_, ?_⟩ <;>
        simp only [Function.update_self, hhead]
      · exact hfree b' hb'
    · rw [Function.update_of_ne hc]
      exact ⟨l, hl.update hnot _, hfree⟩
  · refine Eq.trans (totalCapacity_congr (p := p) rfl fun b' _ ↦ ?_) h.total
    by_cases e : b' = b
    · subst e
      simpa only [Function.update_self] using hcap
    · simp only [Function.update_of_ne e]

end Accounted

end LinkedPool

end Ylars.Reactor
