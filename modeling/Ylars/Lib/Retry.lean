import Mathlib.Data.List.Basic

/-!
# Calls that are made again when they are interrupted

An `Attempt` at a call is interrupted or gives an answer.  `retry` is the loop that makes
one call until it has an answer, and `answers` forgets the interruptions.  The loop sees
the first answer (`retry_eq`), whatever the interruptions before it.
-/

universe u

namespace Ylars.Lib

/-- What one attempt at a call gives. -/
inductive Attempt (α : Type u) where
  /-- The call is interrupted. -/
  | eintr
  /-- The call gives an answer. -/
  | answer (a : α)
deriving DecidableEq, Repr

namespace Attempt

variable {α : Type u}

/-- The answers that some attempts give. -/
def answers : List (Attempt α) → List α
  | [] => []
  | .eintr :: as => answers as
  | .answer a :: as => a :: answers as

/-- Making one call until it gives an answer; `dflt` is the answer when the attempts are used
up. -/
def retry (dflt : α) : List (Attempt α) → α
  | [] => dflt
  | .eintr :: as => retry dflt as
  | .answer a :: _ => a

variable {dflt a : α} {as : List (Attempt α)}

@[simp] theorem answers_eintr : answers (.eintr :: as) = answers as := rfl

@[simp] theorem answers_answer : answers (.answer a :: as) = a :: answers as := rfl

/-- The loop ends with the first answer. -/
theorem retry_eq (dflt : α) (as : List (Attempt α)) :
    retry dflt as = (answers as).headD dflt := by
  induction as with
  | nil => rfl
  | cons a as ih =>
      cases a with
      | eintr => exact ih
      | answer a => rfl

/-- What holds of every answer, and of the one when there is none left, holds of the answer
that the loop ends with. -/
theorem retry_of_forall {p : α → Prop} (hd : p dflt) (h : ∀ a ∈ answers as, p a) :
    p (retry dflt as) := by
  rw [retry_eq]
  cases has : answers as with
  | nil => exact hd
  | cons a rest => exact h a (has ▸ List.mem_cons_self ..)

end Attempt

end Ylars.Lib
