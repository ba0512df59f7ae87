import Mathlib.Data.List.Lex
import Mathlib.Data.Nat.Digits.Lemmas
import Mathlib.Data.List.TakeWhile
import Mathlib.Data.List.DropRight

/-!
# Byte strings: character classes, decimal numerals, number conversions

A `std::string` is its list of bytes. The character classes are those of the classic locale, in
which no byte from `0x80` on is a space or a digit. Where `char` is signed, such a byte is a
negative argument of `isspace` or `isdigit`, for which C++ promises nothing: both are taken to be
false there, as the tables of the usual libraries have it.

* `isspace`, `isdigit` (`<cctype>`).
* The order of bytes is the order of their values, and strings are ordered lexicographically, as
  `std::string` compares (`char_traits<char>::compare` compares as `unsigned char`).
* `numeral n` is the decimal numeral of a natural number and `value` reads it back
  (`value_numeral`); `decimal z` is `std::to_string` of a signed integer.
* `stoll` is `std::stoll` in base ten, with its two exceptions. `stoll_signed` is its value on a
  sign and a run of digits, `stoll_decimal` says that it reads `decimal` back.
-/

namespace CppExamples.Lib

/-- The bytes of a string. -/
abbrev Bytes := List UInt8

/-- The byte of an ASCII character. -/
def ch (c : Char) : UInt8 := UInt8.ofNat c.toNat

/-- The bytes of an ASCII string literal. -/
def ascii (s : String) : Bytes := s.toList.map ch

instance linearOrderUInt8 : LinearOrder UInt8 where
  le_refl a := Nat.le_refl a.toNat
  le_trans a b c := Nat.le_trans (n := a.toNat) (m := b.toNat) (k := c.toNat)
  le_antisymm _ _ := UInt8.le_antisymm
  lt_iff_le_not_ge a b := Nat.lt_iff_le_and_not_ge (m := a.toNat) (n := b.toNat)
  le_total a b := Nat.le_total a.toNat b.toNat
  min a b := if a ≤ b then a else b
  max a b := if a ≤ b then b else a
  toDecidableLE := inferInstance
  toDecidableEq := inferInstance
  toDecidableLT := inferInstance

instance decidableMemBytes (c : UInt8) (s : Bytes) : Decidable (c ∈ s) :=
  List.instDecidableMemOfLawfulBEq c s

/-- A property of bytes holds of all of them once it is checked on the 256 values. -/
theorem forall_byte {P : UInt8 → Prop} (h : ∀ n < 256, P (UInt8.ofNat n)) (c : UInt8) : P c := by
  have := h c.toNat c.toNat_lt
  rwa [UInt8.ofNat_toNat] at this

/-! ## Character classes -/

/-- `isspace`: blank, `\t`, `\n`, `\v`, `\f`, `\r`. -/
def isspace (c : UInt8) : Bool := c == 0x20 || (0x09 ≤ c && c ≤ 0x0D)

/-- `isdigit`. -/
def isdigit (c : UInt8) : Bool := 0x30 ≤ c && c ≤ 0x39

/-! ## Numerals -/

/-- The character of a decimal digit. -/
def digit (d : Nat) : UInt8 := UInt8.ofNat (0x30 + d)

/-- The value of a digit character. -/
def digitVal (c : UInt8) : Nat := c.toNat - 0x30

/-- The number a run of digits denotes. -/
def value (ds : Bytes) : Nat := ds.foldl (fun a c => 10 * a + digitVal c) 0

/-- The decimal numeral of `n`, without superfluous zeros. -/
def numeral (n : Nat) : Bytes :=
  if n = 0 then [digit 0] else (Nat.digits 10 n).reverse.map digit

/-- `std::to_string` of a signed integer. -/
def decimal (z : Int) : Bytes :=
  if z < 0 then ch '-' :: numeral z.natAbs else numeral z.natAbs

theorem isdigit_digit {d : Nat} (h : d < 10) : isdigit (digit d) = true := by
  have : ∀ d < 10, isdigit (digit d) = true := by decide
  exact this d h

theorem digitVal_digit {d : Nat} (h : d < 10) : digitVal (digit d) = d := by
  have : ∀ d < 10, digitVal (digit d) = d := by decide
  exact this d h

theorem value_concat (ds : Bytes) (c : UInt8) : value (ds ++ [c]) = 10 * value ds + digitVal c := by
  rw [value, List.foldl_append]
  rfl

theorem value_map_digit (l : List Nat) (h : ∀ d ∈ l, d < 10) :
    value (l.reverse.map digit) = Nat.ofDigits 10 l := by
  induction l with
  | nil => rfl
  | cons d l ih =>
    have hd : d < 10 := h d List.mem_cons_self
    rw [List.reverse_cons, List.map_append, List.map_singleton, value_concat,
      ih fun x hx => h x (List.mem_cons_of_mem d hx), digitVal_digit hd, Nat.ofDigits_cons]
    exact Nat.add_comm _ _

/-- **A numeral denotes its number.** -/
theorem value_numeral (n : Nat) : value (numeral n) = n := by
  unfold numeral
  split
  · rename_i h
    subst h
    rfl
  · rw [value_map_digit _ fun d hd => Nat.digits_lt_base (by decide) hd, Nat.ofDigits_digits]

theorem isdigit_of_mem_numeral {n : Nat} {c : UInt8} (h : c ∈ numeral n) : isdigit c = true := by
  unfold numeral at h
  split at h
  · rw [List.mem_singleton.mp h]
    rfl
  · obtain ⟨d, hd, rfl⟩ := List.mem_map.mp h
    exact isdigit_digit (Nat.digits_lt_base (by decide) (List.mem_reverse.mp hd))

theorem numeral_ne_nil (n : Nat) : numeral n ≠ [] := by
  unfold numeral
  split
  · exact List.cons_ne_nil _ _
  · rename_i h
    simpa using Nat.digits_ne_nil_iff_ne_zero.mpr h

/-- A sign character and a run of digits. -/
def signed (neg : Bool) (ds : Bytes) : Bytes := if neg then ch '-' :: ds else ds

/-- The number a sign and a run of digits denote. -/
def signedValue (neg : Bool) (ds : Bytes) : Int :=
  if neg then -(value ds : Int) else value ds

theorem decimal_eq_signed (z : Int) : decimal z = signed (decide (z < 0)) (numeral z.natAbs) := by
  by_cases h : z < 0 <;> simp [decimal, signed, h]

theorem signedValue_numeral (z : Int) : signedValue (decide (z < 0)) (numeral z.natAbs) = z := by
  unfold signedValue
  rw [value_numeral]
  split
  · rename_i h
    have := of_decide_eq_true h
    omega
  · rename_i h
    have : ¬ z < 0 := fun hz => h (decide_eq_true hz)
    omega

/-! ## `std::stoll` -/

/-- The exceptions of `std::stoll` and `std::stod`. -/
inductive ConvError where
  | invalidArgument
  | outOfRange
  deriving Repr, DecidableEq

/-- The sign `strtoll` reads, and what follows it. -/
def splitSign : Bytes → Bool × Bytes
  | c :: s => if c = ch '-' then (true, s) else if c = ch '+' then (false, s) else (false, c :: s)
  | [] => (false, [])

/-- `std::stoll(str)`: leading white space, a sign and the longest run of digits are read, what
follows them is ignored. -/
def stoll (str : Bytes) : Except ConvError Int64 :=
  let (neg, s) := splitSign (str.dropWhile isspace)
  let ds := s.takeWhile isdigit
  if ds = [] then .error .invalidArgument
  else if -2 ^ 63 ≤ signedValue neg ds ∧ signedValue neg ds < 2 ^ 63 then
    .ok (Int64.ofInt (signedValue neg ds))
  else .error .outOfRange

theorem not_isspace_of_isdigit {c : UInt8} : isdigit c = true → isspace c = false :=
  forall_byte (P := fun c => isdigit c = true → isspace c = false) (by decide +kernel) c

theorem splitSign_signed (neg : Bool) {ds : Bytes} (h : ∀ c ∈ ds, isdigit c = true) :
    splitSign ((signed neg ds).dropWhile isspace) = (neg, ds) := by
  cases neg with
  | true => rfl
  | false =>
    cases ds with
    | nil => rfl
    | cons c ds =>
      have hc : isdigit c = true := h c List.mem_cons_self
      have h1 : c ≠ ch '-' := by rintro rfl; exact absurd hc (by decide)
      have h2 : c ≠ ch '+' := by rintro rfl; exact absurd hc (by decide)
      simp [signed, splitSign, not_isspace_of_isdigit hc, h1, h2]

/-- **`stoll` on a sign and a run of digits.** -/
theorem stoll_signed (neg : Bool) {ds : Bytes} (h : ∀ c ∈ ds, isdigit c = true) :
    stoll (signed neg ds) =
      if ds = [] then .error .invalidArgument
      else if -2 ^ 63 ≤ signedValue neg ds ∧ signedValue neg ds < 2 ^ 63 then
        .ok (Int64.ofInt (signedValue neg ds))
      else .error .outOfRange := by
  have htake : ds.takeWhile isdigit = ds := List.takeWhile_eq_self_iff.mpr h
  rw [stoll, splitSign_signed neg h]
  simp only [htake]

/-- **`stoll` reads back what `to_string` prints.** -/
theorem stoll_decimal (i : Int64) : stoll (decimal i.toInt) = .ok i := by
  rw [decimal_eq_signed, stoll_signed _ fun c hc => isdigit_of_mem_numeral hc,
    if_neg (numeral_ne_nil _), signedValue_numeral, if_pos ⟨i.le_toInt, i.toInt_lt⟩,
    Int64.ofInt_toInt]

end CppExamples.Lib
