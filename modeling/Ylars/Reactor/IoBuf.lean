import Ylars.Fault
import Ylars.Lib.Block

/-!
# A block of the buffer pool: `io_buf`

An `io_buf` is a block of `capacity` bytes of which the `datalen` bytes from
`head` on are in use.  The C `int`s are modelled by `Int`, so that a negative
length or offset can be stated; an access that leaves the block is the fault
`outOfBounds`.

`WellFormed` is the invariant of a block: the range in use lies inside the block.
`content` is the bytes in use, and the lemmas below say what each operation does
to it.
-/

namespace Ylars.Reactor

open Ylars.Lib

/-- A block of bytes with the range in use, `io_buf`. -/
structure IoBuf where
  capacity : Int
  datalen : Int
  data : List UInt8
  head : Int
deriving DecidableEq, Repr

namespace IoBuf

/-- The constructor: an unused block. -/
def new (capacity : Int) : IoBuf where
  capacity := capacity
  datalen := 0
  data := List.replicate capacity.toNat 0
  head := 0

/-- `pop`: drop up to `n` bytes in use from the front. -/
def pop (n : Int) (b : IoBuf) : IoBuf :=
  if n < 0 then b
  else
    let n := if b.datalen < n then b.datalen else n
    { b with head := b.head + n, datalen := b.datalen - n }

/-- The `memmove` of `adjust`: the block with the bytes in use at its front. -/
def moveToFront (b : IoBuf) : Outcome (List UInt8) :=
  if 0 < b.datalen then do
    let bytes ← Outcome.inBounds (Block.load b.data b.head b.datalen)
    Outcome.inBounds (Block.store b.data 0 bytes)
  else .ok b.data

/-- `adjust`: move the bytes in use to the front of the block and clear the rest. -/
def adjust (b : IoBuf) : Outcome IoBuf :=
  if 0 < b.head then do
    let data ← b.moveToFront
    let data ← Outcome.inBounds
      (Block.store data b.datalen (List.replicate (b.capacity - b.datalen).toNat 0))
    return { b with head := 0, data := data }
  else .ok b

/-- `copy`: replace the bytes in use by those of `buf`.  When they do not fit,
nothing happens. -/
def copy (b buf : IoBuf) : Outcome IoBuf :=
  if buf.datalen ≤ b.capacity then do
    let b ← (b.pop b.datalen).adjust
    let bytes ← Outcome.inBounds (Block.load buf.data buf.head buf.datalen)
    let data ← Outcome.inBounds (Block.store b.data 0 bytes)
    return { b with datalen := buf.datalen, data := data }
  else .ok b

/-- The range in use lies inside the block. -/
structure WellFormed (b : IoBuf) : Prop where
  head_nonneg : 0 ≤ b.head
  datalen_nonneg : 0 ≤ b.datalen
  le_capacity : b.head + b.datalen ≤ b.capacity
  length_data : (b.data.length : Int) = b.capacity

/-- The bytes in use. -/
def content (b : IoBuf) : List UInt8 := Block.slice b.data b.head b.datalen

/-- An unused block of at least `n` bytes: what the pool hands out. -/
structure Fresh (n : Int) (b : IoBuf) : Prop where
  wellFormed : b.WellFormed
  head_eq : b.head = 0
  datalen_eq : b.datalen = 0
  le_capacity : n ≤ b.capacity

variable {b buf : IoBuf}

namespace WellFormed

theorem length_content (h : b.WellFormed) : (b.content.length : Int) = b.datalen := by
  have h₁ := h.datalen_nonneg
  have h₂ := h.le_capacity
  rw [content, Block.length_slice h.head_nonneg (by rw [h.length_data]; exact h₂)]
  omega

theorem content_eq_nil (h : b.WellFormed) : b.content = [] ↔ b.datalen = 0 := by
  rw [← List.length_eq_zero_iff, ← h.length_content]
  omega

end WellFormed

/-- A new block is unused. -/
theorem fresh_new {capacity n : Int} (h : 0 ≤ capacity) (hn : n ≤ capacity) :
    (new capacity).Fresh n where
  wellFormed :=
    { head_nonneg := le_refl _
      datalen_nonneg := le_refl _
      le_capacity := by simpa [new] using h
      length_data := by
        simp only [new, List.length_replicate]
        omega }
  head_eq := rfl
  datalen_eq := rfl
  le_capacity := hn

/-! ## `pop` -/

/-- Popping keeps the range in use inside the block. -/
theorem WellFormed.pop (h : b.WellFormed) (n : Int) : (b.pop n).WellFormed := by
  have h₁ := h.head_nonneg
  have h₂ := h.datalen_nonneg
  have h₃ := h.le_capacity
  unfold IoBuf.pop
  split
  · exact h
  · refine ⟨?_, ?_, ?_, h.length_data⟩ <;> simp only <;> split <;> omega

theorem WellFormed.content_pop (h : b.WellFormed) {n : Int} (hn : 0 ≤ n)
    (hle : n ≤ b.datalen) : (b.pop n).content = b.content.drop n.toNat := by
  have e : b.pop n = { b with head := b.head + n, datalen := b.datalen - n } := by
    rw [IoBuf.pop, if_neg (not_lt.mpr hn)]
    simp only [if_neg (not_lt.mpr hle)]
  rw [e, content, content, Block.drop_slice h.head_nonneg hn]

theorem datalen_pop {n : Int} (hn : 0 ≤ n) (hle : n ≤ b.datalen) :
    (b.pop n).datalen = b.datalen - n := by
  rw [pop, if_neg (not_lt.mpr hn)]
  simp only [if_neg (not_lt.mpr hle)]

@[simp] theorem capacity_pop (n : Int) : (b.pop n).capacity = b.capacity := by
  unfold pop
  split <;> rfl

/-! ## `adjust` -/

/-- The move stays inside the block and brings the bytes in use to its front. -/
theorem WellFormed.moveToFront (h : b.WellFormed) :
    ∃ data, b.moveToFront = .ok data ∧ data.length = b.data.length ∧
      data.take b.datalen.toNat = b.content := by
  have h₂ := h.datalen_nonneg
  have h₃ := h.le_capacity
  have h₄ := h.length_data
  by_cases hpos : 0 < b.datalen
  · have hload := Block.load_eq (m := b.data) h.head_nonneg h₂ (by rw [h₄]; exact h₃)
    obtain ⟨data, hs⟩ := Block.exists_store b.data 0 b.content le_rfl
      (by have := h.head_nonneg; rw [h.length_content, h₄]; omega)
    refine ⟨data, ?_, Block.length_store hs, ?_⟩
    · rw [IoBuf.moveToFront, if_pos hpos, hload]
      simp only [Outcome.inBounds_some, Outcome.ok_bind]
      rw [show Block.slice b.data b.head b.datalen = b.content from rfl, hs,
        Outcome.inBounds_some]
    · have ht := Block.take_store hs
      rw [h.length_content] at ht
      simpa using ht
  · refine ⟨b.data, if_neg hpos, rfl, ?_⟩
    have hz : b.datalen = 0 := by omega
    rw [h.content_eq_nil.mpr hz, hz]
    rfl

/-- Adjusting stays inside the block, keeps the bytes in use and moves them to the
front. -/
theorem WellFormed.adjust (h : b.WellFormed) :
    ∃ b', b.adjust = .ok b' ∧ b'.WellFormed ∧ b'.head = 0 ∧ b'.capacity = b.capacity ∧
      b'.datalen = b.datalen ∧ b'.content = b.content := by
  have h₁ := h.head_nonneg
  have h₂ := h.datalen_nonneg
  have h₃ := h.le_capacity
  have h₄ := h.length_data
  by_cases hh : 0 < b.head
  · obtain ⟨data, hd, hlen, htake⟩ := h.moveToFront
    obtain ⟨data', hs⟩ := Block.exists_store data b.datalen
      (List.replicate (b.capacity - b.datalen).toNat 0) h₂ (by
        rw [List.length_replicate, hlen, h₄]
        omega)
    have hlen' := (Block.length_store hs).trans hlen
    refine ⟨{ b with head := 0, data := data' }, ?_, ⟨le_rfl, h₂, ?_, ?_⟩, rfl, rfl, rfl, ?_⟩
    · rw [IoBuf.adjust, if_pos hh, hd]
      simp only [Outcome.ok_bind, hs, Outcome.inBounds_some]
      rfl
    · simp only
      omega
    · rw [hlen', h₄]
    · -- clearing the rest leaves the front alone
      have ht := congrArg (List.take b.datalen.toNat) (Block.take_store hs)
      rw [List.take_take, Nat.min_eq_left (Int.toNat_le_toNat (by omega)),
        List.take_append_of_le_length (by rw [List.length_take, hlen]; omega), List.take_take,
        Nat.min_self, htake] at ht
      rw [content, Block.slice_zero, ht]
  · have hz : b.head = 0 := by omega
    exact ⟨b, if_neg hh, h, hz, rfl, rfl, rfl⟩

/-! ## Appending -/

/-- Storing bytes behind those in use, with space for them, appends them. -/
theorem WellFormed.append (h : b.WellFormed) (hhead : b.head = 0) {bs : List UInt8}
    (hle : b.datalen + bs.length ≤ b.capacity) :
    ∃ data, Block.store b.data b.datalen bs = some data ∧
      WellFormed { b with datalen := b.datalen + bs.length, data := data } ∧
      content { b with datalen := b.datalen + bs.length, data := data } = b.content ++ bs := by
  have hdl := h.datalen_nonneg
  obtain ⟨data, hs⟩ := Block.exists_store b.data b.datalen bs hdl (by rw [h.length_data]; exact hle)
  refine ⟨data, hs, ⟨h.head_nonneg, ?_, ?_, ?_⟩, ?_⟩
  · simp only
    omega
  · simp only [hhead]
    omega
  · rw [Block.length_store hs, h.length_data]
  · simp only [content, hhead, Block.slice_zero]
    exact Block.take_store hs

/-! ## `copy` -/

theorem WellFormed.copy (h : buf.WellFormed) {n : Int} (hb : b.Fresh n)
    (hle : buf.datalen ≤ b.capacity) :
    ∃ b', b.copy buf = .ok b' ∧ b'.WellFormed ∧ b'.head = 0 ∧ b'.capacity = b.capacity ∧
      b'.datalen = buf.datalen ∧ b'.content = buf.content := by
  have h₁ := h.datalen_nonneg
  have h₂ := hb.wellFormed.length_data
  obtain ⟨b₁, hadj, hwf, hhead, hcap, -, -⟩ := (hb.wellFormed.pop b.datalen).adjust
  rw [capacity_pop] at hcap
  have hload := Block.load_eq (m := buf.data) h.head_nonneg h₁
    (by rw [h.length_data]; exact h.le_capacity)
  obtain ⟨data, hs⟩ := Block.exists_store b₁.data 0 buf.content le_rfl
    (by rw [h.length_content, hwf.length_data, hcap]; omega)
  refine ⟨{ b₁ with datalen := buf.datalen, data := data }, ?_, ⟨?_, h₁, ?_, ?_⟩, hhead, hcap,
    rfl, ?_⟩
  · rw [IoBuf.copy, if_pos hle, hadj]
    simp only [Outcome.ok_bind, hload, Outcome.inBounds_some]
    rw [show Block.slice buf.data buf.head buf.datalen = buf.content from rfl, hs]
    rfl
  · exact hwf.head_nonneg
  · simp only [hhead, hcap]
    omega
  · rw [Block.length_store hs, hwf.length_data]
  · have ht := Block.take_store hs
    rw [h.length_content] at ht
    simpa [content, hhead, Block.slice_zero] using ht

theorem copy_of_lt (h : b.capacity < buf.datalen) : b.copy buf = .ok b :=
  if_neg (not_le.mpr h)

end IoBuf

end Ylars.Reactor
