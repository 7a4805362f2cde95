/-!
# Numbers spelled by digits

`digitsValue` reads digits in any base, the most significant first. `digitsBelow?` reads a number that has to
be below a bound: the running value only grows, so it gives up at the first digit that reaches the bound, and
the numbers it works with stay small however many digits there are.
-/

namespace TapeElf

/-- The number that digits spell after those that spell `n`. -/
def digitsAfter (base n : Nat) (digits : List Nat) : Nat := digits.foldl (base * · + ·) n

/-- The number that digits spell. -/
def digitsValue (base : Nat) (digits : List Nat) : Nat := digitsAfter base 0 digits

/-- The number that digits spell after those that spell `n`, if it is below a bound. -/
def digitsBelowAfter? (base bound n : Nat) : List Nat → Option Nat
  | [] => if n < bound then some n else none
  | d :: digits => if n < bound then digitsBelowAfter? base bound (base * n + d) digits else none

/-- The number that digits spell, if it is below a bound. -/
def digitsBelow? (base bound : Nat) (digits : List Nat) : Option Nat := digitsBelowAfter? base bound 0 digits

theorem le_digitsAfter {base : Nat} (positive : 0 < base) (n : Nat) (digits : List Nat) :
    n ≤ digitsAfter base n digits := by
  induction digits generalizing n with
  | nil => exact Nat.le_refl n
  | cons d digits ih =>
    have : n ≤ base * n + d := Nat.le_trans (Nat.le_mul_of_pos_left n positive) (Nat.le_add_right _ _)
    exact Nat.le_trans this (ih _)

theorem digitsBelowAfter?_eq {base : Nat} (positive : 0 < base) (bound n : Nat) (digits : List Nat) :
    digitsBelowAfter? base bound n digits =
      if digitsAfter base n digits < bound then some (digitsAfter base n digits) else none := by
  induction digits generalizing n with
  | nil => rfl
  | cons d digits ih =>
    unfold digitsBelowAfter?
    split
    · exact ih _
    · next reached =>
      rw [if_neg]
      exact fun small => reached (Nat.lt_of_le_of_lt (le_digitsAfter positive n (d :: digits)) small)

/-- Giving up early loses nothing. -/
theorem digitsBelow?_eq {base : Nat} (positive : 0 < base) (bound : Nat) (digits : List Nat) :
    digitsBelow? base bound digits =
      if digitsValue base digits < bound then some (digitsValue base digits) else none :=
  digitsBelowAfter?_eq positive bound 0 digits

end TapeElf
