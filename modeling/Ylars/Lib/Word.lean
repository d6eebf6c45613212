import Mathlib.Algebra.Ring.Nat

/-!
# Two 32-bit words in one 64-bit word

`pack hi lo` is `(hi << 32) + lo` on unsigned words, `packSigned hi lo` is the
same expression on signed ones, where the widening to 64 bits extends the sign
of both operands.  Both are injective.  They give the same word exactly when the
low word has no sign bit; otherwise the borrow of the sign extension makes the
high half one smaller.
-/

namespace Ylars.Lib

/-- Two unsigned words side by side: `((uint64_t)hi << 32) + lo`. -/
def pack (hi lo : UInt32) : UInt64 := (hi.toUInt64 <<< 32) + lo.toUInt64

/-- Two signed words side by side, in the expression of `pack`: both operands are
sign-extended. -/
def packSigned (hi lo : Int32) : UInt64 :=
  (hi.toInt64.toUInt64 <<< 32) + lo.toInt64.toUInt64

theorem pack_toNat (hi lo : UInt32) :
    (pack hi lo).toNat = hi.toNat * 2 ^ 32 + lo.toNat := by
  have h₁ := hi.toNat_lt
  have h₂ := lo.toNat_lt
  simp [pack, Nat.shiftLeft_eq]
  omega

/-- Packing loses nothing. -/
theorem pack_inj {a b c d : UInt32} (h : pack a b = pack c d) : a = c ∧ b = d := by
  have hn := congrArg UInt64.toNat h
  rw [pack_toNat, pack_toNat] at hn
  have h₁ := a.toNat_lt
  have h₂ := b.toNat_lt
  have h₃ := c.toNat_lt
  have h₄ := d.toNat_lt
  exact ⟨UInt32.toNat_inj.mp (by omega), UInt32.toNat_inj.mp (by omega)⟩

/-- The two halves of a word, packed again. -/
theorem pack_unpack (x : UInt64) : pack (x >>> 32).toUInt32 x.toUInt32 = x := by
  apply UInt64.toNat_inj.mp
  have h := x.toNat_lt
  rw [pack_toNat]
  simp [Nat.shiftRight_eq_div_pow]
  omega

theorem toUInt64_signExtend (x : UInt32) :
    x.toInt32.toInt64.toUInt64.toNat =
      if x.toNat < 2 ^ 31 then x.toNat else x.toNat + (2 ^ 64 - 2 ^ 32) := by
  have h := x.toNat_lt
  have e : x.toInt32.toInt64.toUInt64.toNat = (x.toBitVec.signExtend 64).toNat := rfl
  rw [e, BitVec.toNat_signExtend, BitVec.msb_eq_decide]
  simp only [BitVec.toNat_setWidth, UInt32.toNat_toBitVec]
  split <;> rename_i h' <;> simp at h' <;> split <;> omega

/-- Signed packing borrows the sign of the low word from the high one. -/
theorem packSigned_toNat (hi lo : UInt32) :
    (packSigned hi.toInt32 lo.toInt32).toNat =
      if lo.toNat < 2 ^ 31 then hi.toNat * 2 ^ 32 + lo.toNat
      else (hi.toNat + (2 ^ 32 - 1)) % 2 ^ 32 * 2 ^ 32 + lo.toNat := by
  have h₁ := hi.toNat_lt
  have h₂ := lo.toNat_lt
  have key : (packSigned hi.toInt32 lo.toInt32).toNat =
      (hi.toInt32.toInt64.toUInt64.toNat * 2 ^ 32 % 2 ^ 64 +
        lo.toInt32.toInt64.toUInt64.toNat) % 2 ^ 64 := by
    unfold packSigned
    generalize hi.toInt32.toInt64.toUInt64 = x
    generalize lo.toInt32.toInt64.toUInt64 = y
    simp [Nat.shiftLeft_eq]
  rw [key, toUInt64_signExtend, toUInt64_signExtend]
  split <;> split <;> omega

/-- Signed packing loses nothing either. -/
theorem packSigned_inj {a b c d : UInt32}
    (h : packSigned a.toInt32 b.toInt32 = packSigned c.toInt32 d.toInt32) :
    a = c ∧ b = d := by
  have hn := congrArg UInt64.toNat h
  rw [packSigned_toNat, packSigned_toNat] at hn
  have h₁ := a.toNat_lt
  have h₂ := b.toNat_lt
  have h₃ := c.toNat_lt
  have h₄ := d.toNat_lt
  have hb : b.toNat = d.toNat := by split at hn <;> split at hn <;> omega
  rw [hb] at hn
  refine ⟨UInt32.toNat_inj.mp ?_, UInt32.toNat_inj.mp hb⟩
  split at hn <;> omega

theorem packSigned_eq_pack {hi lo : UInt32} (h : lo.toNat < 2 ^ 31) :
    packSigned hi.toInt32 lo.toInt32 = pack hi lo := by
  apply UInt64.toNat_inj.mp
  rw [packSigned_toNat, if_pos h, pack_toNat]

/-- Signed and unsigned packing agree exactly when the low word has no sign bit. -/
theorem packSigned_eq_pack_iff {hi lo : UInt32} :
    packSigned hi.toInt32 lo.toInt32 = pack hi lo ↔ lo.toNat < 2 ^ 31 := by
  refine ⟨fun h ↦ ?_, packSigned_eq_pack⟩
  by_contra hlo
  have hn := congrArg UInt64.toNat h
  rw [packSigned_toNat, if_neg hlo, pack_toNat] at hn
  have := hi.toNat_lt
  omega

/-- A signed and an unsigned packing of one word have the same low word. -/
theorem low_eq_of_packSigned_eq_pack {a b c d : UInt32}
    (h : packSigned a.toInt32 b.toInt32 = pack c d) : b = d := by
  have hn := congrArg UInt64.toNat h
  rw [packSigned_toNat, pack_toNat] at hn
  have h₁ := a.toNat_lt
  have h₂ := b.toNat_lt
  have h₃ := c.toNat_lt
  have h₄ := d.toNat_lt
  refine UInt32.toNat_inj.mp ?_
  split at hn <;> omega

/-- The two halves of a word. -/
def unpack (x : UInt64) : UInt32 × UInt32 := ((x >>> 32).toUInt32, x.toUInt32)

@[simp] theorem unpack_pack (hi lo : UInt32) : unpack (pack hi lo) = (hi, lo) := by
  obtain ⟨h₁, h₂⟩ := pack_inj (pack_unpack (pack hi lo))
  exact Prod.ext h₁ h₂

theorem toUInt32_toUInt16 {x : UInt32} (h : x.toNat < 2 ^ 16) : x.toUInt16.toUInt32 = x := by
  apply UInt32.toNat_inj.mp
  rw [UInt16.toNat_toUInt32, UInt32.toNat_toUInt16, Nat.mod_eq_of_lt h]

end Ylars.Lib
