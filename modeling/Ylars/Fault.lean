import Mathlib.Order.Basic

/-!
# What can go wrong in a C++ step

A modelled function returns `Outcome α`: the value it computes, or the first
operation it performs that the language gives no meaning to.  A claim that a
function is safe is the claim that its outcome is never a `Fault`.
-/

namespace Ylars

/-- The operations without a defined result that the modelled code can reach. -/
inductive Fault where
  /-- `front()` of an empty list. -/
  | emptyFront
  /-- A field is read before anything was stored in it. -/
  | uninitialised
  /-- A null pointer is dereferenced. -/
  | nullDeref
  /-- The end iterator of a map is dereferenced. -/
  | endIterator
  /-- Memory is read or written outside its block. -/
  | outOfBounds
  /-- An `assert` does not hold. -/
  | assertion
deriving DecidableEq, Repr

/-- The result of a modelled function. -/
abbrev Outcome := Except Fault

namespace Outcome

universe u

variable {α β : Type u}

/-- An access to a block of memory, `none` when it leaves the block. -/
def inBounds : Option α → Outcome α
  | none => .error .outOfBounds
  | some a => .ok a

@[simp] theorem inBounds_some (a : α) : inBounds (some a) = .ok a := rfl

@[simp] theorem inBounds_none : inBounds (none : Option α) = .error .outOfBounds := rfl

/-- An access that succeeds is inside the block. -/
theorem inBounds_eq_ok {x : Option α} {a : α} : inBounds x = .ok a ↔ x = some a := by
  cases x with
  | none => simp [inBounds]
  | some b => simp [inBounds]

/-- A sequence of two steps succeeds when both do. -/
theorem bind_eq_ok {x : Outcome α} {f : α → Outcome β} {b : β} :
    (x >>= f) = .ok b ↔ ∃ a, x = .ok a ∧ f a = .ok b := by
  cases x with
  | error e => simp [bind, Except.bind]
  | ok a => simp [bind, Except.bind]

theorem map_eq_ok {x : Outcome α} {f : α → β} {b : β} :
    x.map f = .ok b ↔ ∃ a, x = .ok a ∧ f a = b := by
  cases x with
  | error e => simp [Except.map]
  | ok a => simp [Except.map]

theorem of_exists_ok {x : Outcome α} {P : α → Prop} (h : ∃ a, x = .ok a ∧ P a) {a : α}
    (ha : x = .ok a) : P a := by
  obtain ⟨b, hb, hP⟩ := h
  obtain rfl := Except.ok.inj (ha.symm.trans hb)
  exact hP

@[simp] theorem ok_bind (a : α) (f : α → Outcome β) : ((.ok a : Outcome α) >>= f) = f a := rfl

@[simp] theorem error_bind (e : Fault) (f : α → Outcome β) :
    ((.error e : Outcome α) >>= f) = .error e := rfl

/-- The steps of a function are its results. -/
theorem toOption_eq_some {x : Outcome α} {a : α} : x.toOption = some a ↔ x = .ok a := by
  cases x with
  | error e => simp [Except.toOption]
  | ok b => simp [Except.toOption]

end Outcome

end Ylars
