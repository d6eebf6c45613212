import Mathlib.Algebra.Ring.Nat

/-!
# Event counters

`EventFd` is the counter behind a non-blocking event descriptor.  A write adds a value
and is refused when the sum would pass the largest counter; a read takes the whole
counter and leaves zero; and the descriptor is readable while the counter is not zero.

A wake-up is never lost by a refused write: after the write of a positive value the
descriptor is readable whether or not the value was added.
-/

namespace Ylars.Lib

/-- The largest value a counter holds, `0xfffffffffffffffe`. -/
def eventMax : ℕ := 2 ^ 64 - 2

/-- The counter of an event descriptor. -/
structure EventFd where
  count : ℕ
  count_le : count ≤ eventMax

namespace EventFd

/-- The counter of a new descriptor. -/
def zero : EventFd where
  count := 0
  count_le := Nat.zero_le _

/-- `write`: add a value, unless the counter would pass its largest value. -/
def write (v : ℕ) (e : EventFd) : EventFd :=
  if h : e.count + v ≤ eventMax then ⟨e.count + v, h⟩ else e

/-- `read`: take the counter. -/
def read (_ : EventFd) : EventFd := zero

/-- The descriptor is readable. -/
def Readable (e : EventFd) : Prop := e.count ≠ 0

instance (e : EventFd) : Decidable e.Readable := inferInstanceAs (Decidable (_ ≠ _))

theorem not_readable_zero : ¬zero.Readable := fun h ↦ h rfl

theorem not_readable_read (e : EventFd) : ¬e.read.Readable := not_readable_zero

/-- A write keeps a descriptor readable. -/
theorem Readable.write {e : EventFd} (h : e.Readable) (v : ℕ) : (e.write v).Readable := by
  unfold EventFd.write
  split
  · intro hz
    exact h (Nat.eq_zero_of_add_eq_zero_right hz)
  · exact h

/-- After the write of a positive value the descriptor is readable, also when the value
was refused. -/
theorem readable_write {v : ℕ} (hpos : 0 < v) (hle : v ≤ eventMax) (e : EventFd) :
    (e.write v).Readable := by
  by_cases he : e.Readable
  · exact he.write v
  · have hz : e.count = 0 := not_not.mp he
    unfold EventFd.write
    rw [dif_pos (by omega)]
    intro hv
    have hv' : e.count + v = 0 := hv
    omega

end EventFd

end Ylars.Lib
