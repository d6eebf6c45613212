import Mathlib.Data.List.Basic
import Mathlib.Algebra.Ring.Nat

/-!
# Little-endian numbers

`toBytes n x` is the `n` low bytes of `x`, the lowest first, and `ofBytes` reads
them back.  The two are inverse to each other on numbers below `256 ^ n` and on
lists of `n` bytes.
-/

namespace Ylars.Lib.LittleEndian

/-- The `n` low bytes of a number. -/
def toBytes : ℕ → ℕ → List UInt8
  | 0, _ => []
  | n + 1, x => UInt8.ofNat x :: toBytes n (x / 256)

/-- The number that a list of bytes stands for. -/
def ofBytes : List UInt8 → ℕ
  | [] => 0
  | b :: bs => b.toNat + 256 * ofBytes bs

@[simp] theorem length_toBytes (n x : ℕ) : (toBytes n x).length = n := by
  induction n generalizing x with
  | zero => rfl
  | succ n ih => simp [toBytes, ih]

/-- Reading back what was written. -/
theorem ofBytes_toBytes (n x : ℕ) (h : x < 256 ^ n) : ofBytes (toBytes n x) = x := by
  induction n generalizing x with
  | zero =>
      rw [Nat.pow_zero] at h
      obtain rfl : x = 0 := by omega
      rfl
  | succ n ih =>
      have hdiv : x / 256 < 256 ^ n := by
        rw [Nat.pow_succ, Nat.mul_comm] at h
        exact Nat.div_lt_of_lt_mul h
      rw [toBytes, ofBytes, ih _ hdiv, UInt8.toNat_ofNat']
      omega

/-- Writing back what was read. -/
theorem toBytes_ofBytes (bs : List UInt8) : toBytes bs.length (ofBytes bs) = bs := by
  induction bs with
  | nil => rfl
  | cons b bs ih =>
      have hb := b.toNat_lt
      have hmod : UInt8.ofNat (b.toNat + 256 * ofBytes bs) = b := by
        apply UInt8.toNat_inj.mp
        rw [UInt8.toNat_ofNat']
        omega
      have hdiv : (b.toNat + 256 * ofBytes bs) / 256 = ofBytes bs := by omega
      rw [List.length_cons, ofBytes, toBytes, hmod, hdiv, ih]

/-- `n` bytes stand for a number below `256 ^ n`. -/
theorem ofBytes_lt (bs : List UInt8) : ofBytes bs < 256 ^ bs.length := by
  induction bs with
  | nil => decide
  | cons b bs ih =>
      have hb := b.toNat_lt
      rw [List.length_cons, Nat.pow_succ, ofBytes]
      omega

end Ylars.Lib.LittleEndian
