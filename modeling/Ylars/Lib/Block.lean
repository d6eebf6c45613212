import Mathlib.Data.List.Basic
import Mathlib.Data.Int.Order.Basic

/-!
# Blocks of memory

A block is a list of cells of fixed length.  `load` and `store` access a range of
it at an integer offset; they are undefined (`none`) when the range leaves the
block, on either side.

What a store does is described by the prefix it leaves: `take_store` says that
the cells before the end of the stored range are the old ones followed by the
stored ones.
-/

universe u

namespace Ylars.Lib.Block

variable {β : Type u} {m m' xs : List β} {off len : Int}

/-- The `len` cells from `off` on. -/
def slice (m : List β) (off len : Int) : List β := (m.drop off.toNat).take len.toNat

/-- Reading a range. -/
def load (m : List β) (off len : Int) : Option (List β) :=
  if 0 ≤ off ∧ 0 ≤ len ∧ off + len ≤ m.length then some (slice m off len) else none

/-- Writing the cells `xs` at `off`. -/
def store (m : List β) (off : Int) (xs : List β) : Option (List β) :=
  if 0 ≤ off ∧ off + xs.length ≤ m.length then
    some (m.take off.toNat ++ xs ++ m.drop (off.toNat + xs.length))
  else none

theorem length_slice (h₁ : 0 ≤ off) (h₂ : off + len ≤ m.length) :
    (slice m off len).length = len.toNat := by
  rw [slice, List.length_take, List.length_drop]
  omega

theorem slice_zero : slice m 0 len = m.take len.toNat := by simp [slice]

theorem drop_slice {n : Int} (h₁ : 0 ≤ off) (h₂ : 0 ≤ n) :
    (slice m off len).drop n.toNat = slice m (off + n) (len - n) := by
  rw [slice, slice, List.drop_take, List.drop_drop, Int.toNat_add h₁ h₂]
  congr 1
  omega

theorem take_slice {n : Int} (h : n ≤ len) :
    (slice m off len).take n.toNat = slice m off n := by
  rw [slice, slice, List.take_take, Nat.min_eq_left (Int.toNat_le_toNat h)]

theorem load_eq (h₁ : 0 ≤ off) (h₂ : 0 ≤ len) (h₃ : off + len ≤ m.length) :
    load m off len = some (slice m off len) := if_pos ⟨h₁, h₂, h₃⟩

theorem exists_store (m : List β) (off : Int) (xs : List β) (h₁ : 0 ≤ off)
    (h₂ : off + xs.length ≤ m.length) :
    ∃ m', store m off xs = some m' := ⟨_, if_pos ⟨h₁, h₂⟩⟩

theorem store_eq_none (h : (m.length : Int) < off + xs.length) : store m off xs = none :=
  if_neg fun h' ↦ absurd h'.2 (not_le.mpr h)

/-- Writing keeps the length of the block. -/
theorem length_store (h : store m off xs = some m') : m'.length = m.length := by
  unfold store at h
  split at h
  · rename_i hb
    obtain rfl := Option.some.inj h
    simp only [List.length_append, List.length_take, List.length_drop]
    omega
  · cases h

theorem take_store (h : store m off xs = some m') :
    m'.take (off + xs.length).toNat = m.take off.toNat ++ xs := by
  unfold store at h
  split at h
  · rename_i hb
    obtain rfl := Option.some.inj h
    rw [Int.toNat_add hb.1 (Int.natCast_nonneg _), Int.toNat_natCast]
    refine List.take_left' ?_
    rw [List.length_append, List.length_take]
    omega
  · cases h

end Ylars.Lib.Block
