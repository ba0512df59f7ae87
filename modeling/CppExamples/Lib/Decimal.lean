import CppExamples.Lib.Ascii
import Mathlib.Algebra.Order.Field.Rat
import Mathlib.Data.List.DropRight
import Mathlib.Tactic.FieldSimp
import Mathlib.Tactic.Linarith
import Mathlib.Tactic.Ring

/-!
# Decimal fractions: numerals with a point, and numbers with six decimal places

* `fixedValue neg ds fs` is the rational number that a sign, the digits `ds`, a point and the
  digits `fs` denote. Zeros at the end of `fs` do not change it (`fixedValue_rdropWhile`).
* `Decimal` is a number with at most six decimal places, as the count of its millionths.
  `Decimal.toString` prints it the way `printf("%f")` does, with all six places, and the numeral
  denotes the number (`fixedValue_toString`).
-/

namespace CppExamples.Lib

/-! ## Numerals with a point -/

/-- The number that a sign, an integer part and a fractional part denote. -/
def fixedValue (neg : Bool) (ds fs : Bytes) : ℚ :=
  (if neg then -1 else 1) * (value ds + value fs / 10 ^ fs.length)

theorem value_append_zeros (ds : Bytes) (k : Nat) :
    value (ds ++ List.replicate k (ch '0')) = value ds * 10 ^ k := by
  induction k with
  | zero => rw [List.replicate_zero, List.append_nil, Nat.pow_zero, Nat.mul_one]
  | succ k ih =>
    have h0 : digitVal (ch '0') = 0 := rfl
    rw [List.replicate_succ', ← List.append_assoc, value_concat, ih, h0, Nat.pow_succ]
    ring

/-- A text and the zeros at its end. -/
theorem exists_trailing_zeros (fs : Bytes) :
    ∃ k, fs = fs.rdropWhile (· == ch '0') ++ List.replicate k (ch '0') := by
  refine ⟨(fs.rtakeWhile (· == ch '0')).length, ?_⟩
  have hzeros : fs.rtakeWhile (· == ch '0') =
      List.replicate (fs.rtakeWhile (· == ch '0')).length (ch '0') :=
    List.eq_replicate_of_mem fun c hc => by
      have hzero : (c == ch '0') = true := List.mem_rtakeWhile_imp (p := (· == ch '0')) hc
      exact eq_of_beq hzero
  calc fs = fs.rdropWhile (· == ch '0') ++ fs.rtakeWhile (· == ch '0') :=
        List.rdropWhile_append_rtakeWhile.symm
    _ = _ := congrArg _ hzeros

/-- **Zeros at the end of the fractional part do not change the number.** -/
theorem fixedValue_rdropWhile (neg : Bool) (ds fs : Bytes) :
    fixedValue neg ds (fs.rdropWhile (· == ch '0')) = fixedValue neg ds fs := by
  obtain ⟨k, hk⟩ := exists_trailing_zeros fs
  generalize fs.rdropWhile (· == ch '0') = fs' at hk
  subst hk
  have hpow : (10 : ℚ) ^ k ≠ 0 := pow_ne_zero _ (by norm_num)
  have hpow' : (10 : ℚ) ^ fs'.length ≠ 0 := pow_ne_zero _ (by norm_num)
  unfold fixedValue
  rw [value_append_zeros, List.length_append, List.length_replicate, pow_add]
  push_cast
  congr 2
  field_simp

theorem fixedValue_nil (neg : Bool) (ds : Bytes) : fixedValue neg ds [] = signedValue neg ds := by
  cases neg <;> simp [fixedValue, signedValue, value]

/-! ## Six decimal places -/

/-- A number with at most six decimal places, as its number of millionths. -/
structure Decimal where
  millionths : Int
  deriving Repr, DecidableEq

/-- The six digits of a number below a million. -/
def sixDigits (n : Nat) : Bytes :=
  [n / 100000 % 10, n / 10000 % 10, n / 1000 % 10, n / 100 % 10, n / 10 % 10, n % 10].map digit

theorem value_sixDigits {n : Nat} (hn : n < 1000000) : value (sixDigits n) = n := by
  have hmod : ∀ m, digitVal (digit (m % 10)) = m % 10 := fun m =>
    digitVal_digit (Nat.mod_lt m (by decide))
  simp only [value, sixDigits, List.map_cons, List.map_nil, List.foldl_cons, List.foldl_nil, hmod]
  omega

theorem isdigit_sixDigits {n : Nat} {c : UInt8} (hc : c ∈ sixDigits n) : isdigit c = true := by
  obtain ⟨d, hd, rfl⟩ := List.mem_map.mp hc
  refine isdigit_digit ?_
  simp only [List.mem_cons, List.not_mem_nil, or_false] at hd
  omega

/-- Only zero has zeros for its six digits. -/
theorem sixDigits_eq_zeros {n : Nat} (hn : n < 1000000) :
    (sixDigits n).rdropWhile (· == ch '0') = [] ↔ n = 0 := by
  constructor
  · intro h
    obtain ⟨k, hk⟩ := exists_trailing_zeros (sixDigits n)
    have hvalue := value_sixDigits hn
    rw [hk, h, value_append_zeros] at hvalue
    simpa [value] using hvalue.symm
  · rintro rfl
    rfl

namespace Decimal

/-- The number. -/
def toRat (d : Decimal) : ℚ := d.millionths / 1000000

/-- The number is an integer. -/
def Integral (d : Decimal) : Prop := 1000000 ∣ d.millionths

instance (d : Decimal) : Decidable d.Integral := inferInstanceAs (Decidable (_ ∣ _))

/-- The digits in front of the point. -/
def wholeDigits (d : Decimal) : Bytes := numeral (d.millionths.natAbs / 1000000)

/-- The six digits behind the point. -/
def fracDigits (d : Decimal) : Bytes := sixDigits (d.millionths.natAbs % 1000000)

/-- `std::to_string`: the number with six decimal places. -/
def toString (d : Decimal) : Bytes :=
  signed (decide (d.millionths < 0)) d.wholeDigits ++ ch '.' :: d.fracDigits

/-- **The printed numeral denotes the number.** -/
theorem fixedValue_toString (d : Decimal) :
    fixedValue (decide (d.millionths < 0)) d.wholeDigits d.fracDigits = d.toRat := by
  have hsplit : (d.millionths.natAbs : ℚ) =
      (d.millionths.natAbs / 1000000 : Nat) * 1000000 + (d.millionths.natAbs % 1000000 : Nat) := by
    have := Nat.div_add_mod' d.millionths.natAbs 1000000
    exact_mod_cast this.symm
  have hsign : (if decide (d.millionths < 0) = true then (-1 : ℚ) else 1) * d.millionths.natAbs =
      d.millionths := by
    rw [Nat.cast_natAbs]
    by_cases hneg : d.millionths < 0
    · rw [if_pos (decide_eq_true hneg), abs_of_neg hneg]
      push_cast
      ring
    · rw [if_neg (by simpa using hneg), abs_of_nonneg (not_lt.mp hneg), one_mul]
  unfold fixedValue wholeDigits fracDigits toRat
  rw [value_numeral, value_sixDigits (Nat.mod_lt _ (by decide)), ← hsign, hsplit]
  change _ * (_ + _ / 10 ^ 6) = _
  ring

/-- The digits behind the point are zeros iff the number is an integer. -/
theorem fracDigits_eq_zeros (d : Decimal) :
    d.fracDigits.rdropWhile (· == ch '0') = [] ↔ d.Integral := by
  unfold fracDigits Integral
  rw [sixDigits_eq_zeros (Nat.mod_lt _ (by decide)), ← Nat.dvd_iff_mod_eq_zero]
  omega

end Decimal

end CppExamples.Lib
