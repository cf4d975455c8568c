import Mathlib.Algebra.Group.Nat.Defs
import Mathlib.Algebra.Ring.Int.Defs
import Mathlib.Data.Int.Order.Basic
import Mathlib.Tactic.Common

/-!
# Integer columns of 64 bits

An integer column of SQLite holds an integer of 64 bits.  A parameter outside this range cannot be
bound at all, but a sum may leave it, and is then computed and stored as a `REAL`.  A `REAL` outside
the range is a whole number, and a whole `REAL` inside it is stored as an integer again, so that
what a column holds is an integer in either case.

* `Fits n` : `n` is an integer of 64 bits;
* `nearest n` : the double nearest to `n`;
* `add` : the sum of a column and a parameter, as SQLite computes it; `sum`, as Python does.
-/

namespace Library

namespace Integer64

/-- An integer of 64 bits. -/
def Fits (n : ℤ) : Prop := -2 ^ 63 ≤ n ∧ n < 2 ^ 63

instance : DecidablePred Fits := fun n => inferInstanceAs (Decidable (-2 ^ 63 ≤ n ∧ n < 2 ^ 63))

/-- The double nearest to a natural number: 53 binary digits, ties to the even one. -/
def nearestNat (n : ℕ) : ℕ :=
  let drop := n.log2 - 52
  let kept := n / 2 ^ drop
  let rest := n % 2 ^ drop
  (if 2 ^ drop < 2 * rest ∨ (2 ^ drop = 2 * rest ∧ kept % 2 = 1) then kept + 1 else kept) * 2 ^ drop

/-- The double nearest to an integer. -/
def nearest (n : ℤ) : ℤ := n.sign * nearestNat n.natAbs

/-- `x + y` in SQLite: an integer, or the sum of the doubles if the integers overflow. -/
def add (x y : ℤ) : ℤ :=
  if Fits x ∧ Fits y ∧ Fits (x + y) then x + y else nearest (nearest x + nearest y)

/-- `x + y` in Python, where `x` was read from a column: a `REAL` is a `float`. -/
def sum (x y : ℤ) : ℤ := if Fits x then x + y else nearest (x + nearest y)

variable {x y : ℤ}

theorem add_of_fits (hx : Fits x) (hy : Fits y) (h : Fits (x + y)) : add x y = x + y :=
  if_pos ⟨hx, hy, h⟩

theorem sum_of_fits (hx : Fits x) : sum x y = x + y := if_pos hx

theorem fits_zero : Fits 0 := by decide

/-- Natural numbers below the bound differ by an integer of 64 bits. -/
theorem fits_sub (hx : 0 ≤ x) (hx' : x < 2 ^ 63) (hy : 0 ≤ y) (hy' : y < 2 ^ 63) :
    Fits (x - y) := by
  constructor <;> omega

example : nearest (2 ^ 53 + 1) = 2 ^ 53 ∧ nearest (2 ^ 53 + 3) = 2 ^ 53 + 4 := by decide

example : add (2 ^ 62 + 1) (2 ^ 62 + 1) = 2 ^ 63 := by decide

end Integer64

end Library
