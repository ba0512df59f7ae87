import Mathlib.Algebra.Group.Nat.Defs
import Mathlib.Data.Int.Basic

/-!
# Checked `int` arithmetic

A 32-bit `int` is an integer between `intMin` and `intMax`. An operation whose mathematical result
is out of this range has no meaning in C; here it has no result. `%` truncates towards zero.
-/

namespace CppExamples.Lib.CInt

/-- `INT_MAX`, that is `2 ^ 31 - 1`. -/
def intMax : Int := 2147483647

/-- `INT_MIN`, that is `-2 ^ 31`. -/
def intMin : Int := -2147483648

/-- The result of an operation, if it is representable. -/
def checked (z : Int) : Option Int := if intMin ≤ z ∧ z ≤ intMax then some z else none

def add (a b : Int) : Option Int := checked (a + b)

def sub (a b : Int) : Option Int := checked (a - b)

def mul (a b : Int) : Option Int := checked (a * b)

/-- `a % b`, undefined for `b = 0`, and for the quotient `INT_MIN / -1`. -/
def rem (a b : Int) : Option Int :=
  if b = 0 then none else (checked (a.tdiv b)).map fun _ => a.tmod b

/-- A `size_t` stored in an `int`: the number of the same residue modulo `2 ^ 32`. -/
def ofSize (n : Nat) : Int := Int.bmod n (2 ^ 32)

theorem ofSize_of_le {n : Nat} (h : (n : Int) ≤ intMax) : ofSize n = n := by
  unfold intMax at h
  unfold ofSize
  rw [Int.bmod_eq_of_le] <;> omega

theorem checked_eq_some {z : Int} (hmin : intMin ≤ z) (hmax : z ≤ intMax) :
    checked z = some z := if_pos ⟨hmin, hmax⟩

/-- A product of natural numbers can only be too large. -/
theorem map_toNat_mul (a b : Nat) : (mul a b).map Int.toNat =
    if ((a * b : Nat) : Int) ≤ intMax then some (a * b) else none := by
  have hmin : intMin ≤ ((a * b : Nat) : Int) := by
    unfold intMin
    omega
  rw [mul, ← Int.natCast_mul]
  by_cases hmax : ((a * b : Nat) : Int) ≤ intMax
  · rw [checked_eq_some hmin hmax, if_pos hmax, Option.map_some, Int.toNat_natCast]
  · rw [checked, if_neg fun hand => hmax hand.2, if_neg hmax, Option.map_none]

/-- A dividend and a positive divisor in range always have a remainder. -/
theorem rem_eq_some {a b : Int} (ha : intMin ≤ a) (ha' : a ≤ intMax) (hb : 0 < b) :
    rem a b = some (a.tmod b) := by
  have hdiv : intMin ≤ a.tdiv b ∧ a.tdiv b ≤ intMax := by
    have habs := Int.natAbs_tdiv_le_natAbs a b
    unfold intMin intMax at *
    rcases Int.le_total 0 a with h | h
    · have hq := Int.tdiv_nonneg h (Int.le_of_lt hb)
      omega
    · have hq := Int.tdiv_nonneg (Int.neg_nonneg_of_nonpos h) (Int.le_of_lt hb)
      rw [Int.neg_tdiv] at hq
      omega
  rw [rem, if_neg (Int.ne_of_gt hb), checked_eq_some hdiv.1 hdiv.2, Option.map_some]

/-- The remainder of a dividend closer to zero than the divisor is the dividend. -/
theorem tmod_eq_self {a b : Int} (h : -b < a) (h' : a < b) : a.tmod b = a := by
  rcases Int.le_total 0 a with ha | ha
  · exact Int.tmod_eq_of_lt ha h'
  · have hneg : (-a).tmod b = -a := Int.tmod_eq_of_lt (by omega) (by omega)
    rw [Int.neg_tmod] at hneg
    omega

end CppExamples.Lib.CInt
