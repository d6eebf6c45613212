import Ylars.Lib.Text

/-!
# Numbers printed into a text

`sprintf` with the conversions `%u` and `%d` of 32-bit arguments.  A format is a list of
directives, each a character or a conversion with the number of its argument.  A text is no
longer than the format allows (`length_sprintf_le`).
-/

namespace Ylars.Lib.Printf

/-- What a format is made of. -/
inductive Directive where
  /-- A character that is printed as it is. -/
  | char (c : Char)
  /-- `%u`, for the argument with this number. -/
  | unsigned (i : ℕ)
  /-- `%d`, for the argument with this number. -/
  | signed (i : ℕ)
deriving DecidableEq, Repr

/-- The directives of a format string, when `i` conversions are before it. -/
def directives (i : ℕ) : List Char → List Directive
  | [] => []
  | '%' :: 'u' :: fmt => .unsigned i :: directives (i + 1) fmt
  | '%' :: 'd' :: fmt => .signed i :: directives (i + 1) fmt
  | c :: fmt => .char c :: directives i fmt

/-- The decimal text of a number. -/
def decimal (x : Int) : List Char :=
  if x < 0 then '-' :: Nat.toDigits 10 x.natAbs else Nat.toDigits 10 x.natAbs

/-- What a directive prints.  A conversion takes the 32 bits of its argument as an unsigned or as
a signed number; without an argument it prints a zero here. -/
def Directive.text (args : List UInt32) : Directive → List Char
  | .char c => [c]
  | .unsigned i => decimal (args.getD i 0).toNat
  | .signed i => decimal (args.getD i 0).toInt32.toInt

/-- `sprintf`. -/
def sprintf (fmt : List Directive) (args : List UInt32) : List Char :=
  fmt.flatMap (Directive.text args)

/-- How long a text of the format is when each number takes `n` characters. -/
def width (n : ℕ) : List Directive → ℕ
  | [] => 0
  | .char _ :: fmt => width n fmt + 1
  | .unsigned _ :: fmt => width n fmt + n
  | .signed _ :: fmt => width n fmt + n

variable {fmt : List Directive} {args : List UInt32} {x : Int}

theorem decimal_ne_nil (x : Int) : decimal x ≠ [] := by
  rw [decimal]
  split
  · exact List.cons_ne_nil _ _
  · exact Nat.toDigits_ne_nil

/-- The text of a number is made of digits, after a sign. -/
theorem mem_decimal {c : Char} (h : c ∈ decimal x) : c = '-' ∨ c.isDigit = true := by
  have hdigit : c ∈ Nat.toDigits 10 x.natAbs → c.isDigit = true :=
    Nat.isDigit_of_mem_toDigits (by decide) (by decide)
  rw [decimal] at h
  split at h
  · exact (List.mem_cons.mp h).imp_right hdigit
  · exact .inr (hdigit h)

theorem Directive.text_ne_nil (args : List UInt32) (d : Directive) : d.text args ≠ [] := by
  cases d with
  | char c => exact List.cons_ne_nil _ _
  | unsigned | signed => exact decimal_ne_nil _

theorem sprintf_chars (s : List Char) : sprintf (s.map .char) args = s := by
  rw [sprintf, List.flatMap_map]
  exact List.flatMap_singleton' s

/-! ## Lengths -/

/-- A number has a sign and its digits. -/
theorem length_decimal_le {n : ℕ} (hn : 0 < n) (h : x.natAbs < 10 ^ n) :
    (decimal x).length ≤ n + 1 := by
  have hdigits := (Nat.length_toDigits_le_iff (by decide) hn).mpr h
  rw [decimal]
  split
  · exact Nat.succ_le_succ hdigits
  · exact hdigits.trans (Nat.le_succ n)

/-- A number of 32 bits takes no more than eleven characters. -/
theorem length_decimal_le_eleven (x : UInt32) :
    (decimal x.toNat).length ≤ 11 ∧ (decimal x.toInt32.toInt).length ≤ 11 := by
  have hunsigned := x.toNat_lt
  have hlt := x.toInt32.toInt_lt
  have hle := x.toInt32.le_toInt
  exact ⟨length_decimal_le (by decide) (by omega), length_decimal_le (by decide) (by omega)⟩

/-- A text is no longer than its directives make it. -/
theorem length_sprintf_le (fmt : List Directive) (args : List UInt32) :
    (sprintf fmt args).length ≤ width 11 fmt := by
  induction fmt with
  | nil => exact Nat.le_refl 0
  | cons d fmt ih =>
      rw [sprintf, List.flatMap_cons, List.length_append, Nat.add_comm]
      cases d with
      | char c => exact Nat.add_le_add_right ih 1
      | unsigned i => exact Nat.add_le_add ih (length_decimal_le_eleven _).1
      | signed i => exact Nat.add_le_add ih (length_decimal_le_eleven _).2

end Ylars.Lib.Printf
