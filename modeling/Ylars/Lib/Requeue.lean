import Mathlib.Data.List.Basic

/-!
# Moving an entry to the end of a queue

A scheduler with two queues does one of three things with an entry: it leaves it where
it is, or it moves it to the end of the left or of the right queue.  A `Move` says which,
and a `Place` is what the move makes of one of the queues.

A place does not touch the other entries and their order.  Two moves of one entry amount
to one, and moves of two different entries commute up to the order of these two at the
end of a queue they are both moved to.
-/

universe u

namespace Ylars.Lib

variable {α : Type u} [DecidableEq α]

/-- What is done with one entry of a queue. -/
inductive Place where
  /-- The entry stays where it is. -/
  | keep
  /-- The entry is taken out. -/
  | out
  /-- The entry goes to the end. -/
  | back
deriving DecidableEq, Repr

namespace Place

/-- The queue afterwards. -/
def apply (a : α) : Place → List α → List α
  | keep, xs => xs
  | out, xs => xs.filter (· ≠ a)
  | back, xs => xs.filter (· ≠ a) ++ [a]

/-- What was done last, if anything was done. -/
def andThen : Place → Place → Place
  | m, keep => m
  | _, out => out
  | _, back => back

section

variable (a : α) (xs : List α)

@[simp] theorem apply_keep : keep.apply a xs = xs := rfl
@[simp] theorem apply_out : out.apply a xs = xs.filter (· ≠ a) := rfl
@[simp] theorem apply_back : back.apply a xs = xs.filter (· ≠ a) ++ [a] := rfl

/-- The other entries and their order are not touched. -/
@[simp] theorem filter_apply (m : Place) :
    (m.apply a xs).filter (· ≠ a) = xs.filter (· ≠ a) := by
  cases m with
  | keep => rfl
  | out => simp
  | back => simp

theorem apply_andThen (m n : Place) :
    (m.andThen n).apply a xs = n.apply a (m.apply a xs) := by
  cases n with
  | keep => rfl
  | out => exact (filter_apply a xs m).symm
  | back => exact congrArg (· ++ [a]) (filter_apply a xs m).symm

end

end Place

/-- The same queue, but for the order of its last two entries `a` and `b`. -/
def TailSwap (a b : α) (xs ys : List α) : Prop :=
  xs = ys ∨ ∃ pre, xs = pre ++ [a, b] ∧ ys = pre ++ [b, a]

/-- Taking one entry out commutes with everything that is done with another. -/
theorem Place.filter_apply_of_ne {a b : α} (h : a ≠ b) (m : Place) (xs : List α) :
    (m.apply a xs).filter (· ≠ b) = m.apply a (xs.filter (· ≠ b)) := by
  have hcomm : (xs.filter (· ≠ a)).filter (· ≠ b) = (xs.filter (· ≠ b)).filter (· ≠ a) := by
    simp only [List.filter_filter, Bool.and_comm]
  cases m with
  | keep => rfl
  | out => exact hcomm
  | back => simp only [Place.apply_back, List.filter_append, hcomm, List.filter_singleton,
      decide_eq_true h, cond_true]

/-- What is done with two different entries may be done in either order, but for the
order of these two at the end. -/
theorem Place.tailSwap_apply {a b : α} (h : a ≠ b) (m n : Place) (xs : List α) :
    TailSwap a b (n.apply b (m.apply a xs)) (m.apply a (n.apply b xs)) := by
  cases n with
  | keep => exact .inl rfl
  | out => exact .inl (filter_apply_of_ne h m xs)
  | back =>
      rw [apply_back, filter_apply_of_ne h m xs]
      cases m with
      | keep => exact .inl rfl
      | out =>
          refine .inl ?_
          simp only [apply_out, apply_back, List.filter_append, List.filter_singleton,
            decide_eq_true h.symm, cond_true]
      | back =>
          refine .inr ⟨(xs.filter (· ≠ b)).filter (· ≠ a), ?_, ?_⟩
          · simp
          · simp [h.symm]

/-- Where an entry of two queues goes. -/
inductive Move where
  /-- The entry stays where it is. -/
  | stay
  /-- The entry goes to the end of the left queue. -/
  | left
  /-- The entry goes to the end of the right queue. -/
  | right
deriving DecidableEq, Repr

namespace Move

/-- What a move makes of the left queue. -/
def inLeft : Move → Place
  | stay => .keep
  | left => .back
  | right => .out

/-- What a move makes of the right queue. -/
def inRight : Move → Place
  | stay => .keep
  | left => .out
  | right => .back

/-- The last move, if the entry moved. -/
def andThen : Move → Move → Move
  | m, stay => m
  | _, left => left
  | _, right => right

@[simp] theorem stay_andThen (m : Move) : stay.andThen m = m := by cases m <;> rfl

theorem inLeft_andThen (m n : Move) : (m.andThen n).inLeft = m.inLeft.andThen n.inLeft := by
  cases n <;> rfl

theorem inRight_andThen (m n : Move) : (m.andThen n).inRight = m.inRight.andThen n.inRight := by
  cases n <;> rfl

end Move

end Ylars.Lib
