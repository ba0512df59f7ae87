import CppExamples.Json.RoundTrip
import CppExamples.Json.Trailing
import CppExamples.Lib.Decimal

/-!
# Doubles, printed and read back

`serialize_json` prints a double with `std::to_string` and then removes the zeros at the end, and
the point if nothing is left behind it. So the text of a number without fractional part is that of
an integer, and `parse_number` reads it with `std::stoll`.

A double is an exact decimal with six places here (`Lib.Decimal`), and `std::stod` is any function
that converts the numerals with at most six places exactly (`ExactStod`).

* `trimZeros_token`: what the trimming leaves of a numeral with a point.
* `value_double`: what the text of a double denotes.
* `parse_serialize_doubles`: an array of doubles comes back with the same numbers, the integers
  among them as `long long`.
-/

namespace CppExamples.Json

open Lib Lib.Cursor

/-! ## Zero trimming -/

theorem rdropWhile_append_replicate {f : UInt8 → Bool} {c : UInt8} (hc : f c = true) (l : Bytes)
    (k : Nat) : (l ++ List.replicate k c).rdropWhile f = l.rdropWhile f := by
  induction k with
  | zero => rw [List.replicate_zero, List.append_nil]
  | succ k ih =>
    rw [List.replicate_succ', ← List.append_assoc, List.rdropWhile_concat_pos f _ c hc, ih]

/-- **Trimming a numeral with a point** removes the zeros at the end of the fractional part, and
the point if the fractional part is zero. -/
theorem trimZeros_token {fs : Bytes} (u : Bytes) (hf : Digits fs) :
    trimZeros (u ++ ch '.' :: fs) =
      if fs.rdropWhile (· == ch '0') = [] then u
      else u ++ ch '.' :: fs.rdropWhile (· == ch '0') := by
  obtain ⟨k, hk⟩ := exists_trailing_zeros fs
  have hlast := fun hl => List.rdropWhile_last_not (· == ch '0') fs hl
  have hfront := List.rdropWhile_prefix (· == ch '0') (l := fs)
  generalize fs.rdropWhile (· == ch '0') = fs' at hk hlast hfront
  have hdot : ch '.' ∈ u ++ ch '.' :: fs := by simp
  have hdrop : (u ++ ch '.' :: fs).rdropWhile (· == ch '0') = u ++ ch '.' :: fs' := by
    rw [hk, ← List.cons_append, ← List.append_assoc, rdropWhile_append_replicate (by rfl),
      List.rdropWhile_eq_self_iff]
    intro hl
    by_cases hfs : fs' = []
    · subst hfs
      simp
      decide
    · rw [List.getLast_append_of_ne_nil _ (List.cons_ne_nil _ _), List.getLast_cons hfs]
      exact hlast hfs
  unfold trimZeros
  rw [if_pos hdot]
  simp only [hdrop]
  by_cases hfs : fs' = []
  · subst hfs
    rw [if_pos rfl, List.getLast?_concat, if_pos rfl, List.dropLast_concat]
  · have hne : (u ++ ch '.' :: fs').getLast? ≠ some (ch '.') := by
      rw [List.getLast?_append_of_ne_nil _ (List.cons_ne_nil _ _),
        List.getLast?_cons_of_ne_nil hfs, List.getLast?_eq_some_getLast hfs]
      intro h
      have hmem : ch '.' ∈ fs := hfront.subset (Option.some.inj h ▸ List.getLast_mem hfs)
      exact absurd (hf _ hmem) (by decide)
    rw [if_neg hfs, if_neg hne]

/-! ## One double -/

/-- `std::stod` converts every numeral with a point and at most six decimal places exactly. -/
def ExactStod (stod : Bytes → Except ConvError Decimal) : Prop :=
  ∀ (neg : Bool) (ds fs : Bytes), Digits ds → ds ≠ [] → Digits fs → fs ≠ [] → fs.length ≤ 6 →
    ∃ d, stod (signed neg ds ++ ch '.' :: fs) = .ok d ∧ d.toRat = fixedValue neg ds fs

/-- The number a value holds. -/
def JsonValue.number : JsonValue Decimal → Option ℚ
  | .double d => some d.toRat
  | .longLong i => some i.toInt
  | _ => none

/-- `v` is the double `d` printed and read back: the same number, as a `long long` if it is an
integer and as a double if not. -/
structure ReadBack (d : Decimal) (v : JsonValue Decimal) : Prop where
  number : v.number = some d.toRat
  integral : d.Integral → ∃ i, v = .longLong i
  fractional : ¬ d.Integral → ∃ d', v = .double d'

/-- The number fits into a `long long`, if it is an integer. -/
def Fits (d : Decimal) : Prop := d.Integral → -2 ^ 63 ≤ d.toRat ∧ d.toRat < 2 ^ 63

section One

variable {stod : Bytes → Except ConvError Decimal} {d : Decimal}

theorem digits_wholeDigits (d : Decimal) : Digits d.wholeDigits :=
  digits_iff.mpr fun _ hc => isdigit_of_mem_numeral hc

theorem digits_fracDigits (d : Decimal) : Digits d.fracDigits :=
  digits_iff.mpr fun _ hc => isdigit_sixDigits hc

/-- The text of an integer is read by `std::stoll`. -/
theorem number_integral (hfit : Fits d) (hint : d.Integral) :
    ∃ i : Int64, Number stod (signed (decide (d.millionths < 0)) d.wholeDigits) (.longLong i) ∧
      (i.toInt : ℚ) = d.toRat := by
  -- without its zeros, the printed numeral is the sign and the integer part
  have hvalue : ((signedValue (decide (d.millionths < 0)) d.wholeDigits : Int) : ℚ) = d.toRat := by
    rw [← d.fixedValue_toString, ← fixedValue_nil, ← d.fracDigits_eq_zeros.mpr hint,
      fixedValue_rdropWhile]
  obtain ⟨hlo, hhi⟩ := hfit hint
  rw [← hvalue] at hlo hhi
  have hlo' : -2 ^ 63 ≤ signedValue (decide (d.millionths < 0)) d.wholeDigits := by
    exact_mod_cast hlo
  have hhi' : signedValue (decide (d.millionths < 0)) d.wholeDigits < 2 ^ 63 := by
    exact_mod_cast hhi
  refine ⟨_, .longLong (digits_wholeDigits d) (numeral_ne_nil _) hlo' hhi', ?_⟩
  rw [Int64.toInt_ofInt_of_le hlo' hhi', hvalue]

/-- The text of any other double is read by `std::stod`. -/
theorem number_fractional (hstod : ExactStod stod) (hint : ¬ d.Integral) :
    ∃ d', Number stod (signed (decide (d.millionths < 0)) d.wholeDigits ++
        ch '.' :: d.fracDigits.rdropWhile (· == ch '0')) (.double d') ∧ d'.toRat = d.toRat := by
  have hne : d.fracDigits.rdropWhile (· == ch '0') ≠ [] := fun h =>
    hint (d.fracDigits_eq_zeros.mp h)
  have hfront := List.rdropWhile_prefix (· == ch '0') (l := d.fracDigits)
  have hfs : Digits (d.fracDigits.rdropWhile (· == ch '0')) := fun c hc =>
    digits_fracDigits d c (hfront.subset hc)
  have hds : d.wholeDigits ≠ [] := numeral_ne_nil _
  obtain ⟨d', hd', hvalue⟩ := hstod (decide (d.millionths < 0)) d.wholeDigits _
    (digits_wholeDigits d) hds hfs hne hfront.length_le
  refine ⟨d', ?_, ?_⟩
  · rw [← List.append_nil (signed _ _ ++ _)] at hd' ⊢
    exact .double (digits_wholeDigits d) (.inr hds) (.some hfs) .none rfl hd'
  · rw [hvalue, fixedValue_rdropWhile, d.fixedValue_toString]

/-- What the text of a double denotes. -/
theorem value_double (hstod : ExactStod stod) (hfit : Fits d) (k : Nat) :
    ∃ v, Value stod (serializeJson Decimal.toString (.double d) k) v ∧ ReadBack d v := by
  have htext : serializeJson Decimal.toString (.double d) k =
      trimZeros (signed (decide (d.millionths < 0)) d.wholeDigits ++ ch '.' :: d.fracDigits) := rfl
  rw [htext, trimZeros_token _ (digits_fracDigits d)]
  by_cases hint : d.Integral
  · rw [if_pos (d.fracDigits_eq_zeros.mpr hint)]
    obtain ⟨i, hnum, hi⟩ := number_integral hfit hint
    exact ⟨_, .number hnum, congrArg some hi, fun _ => ⟨i, rfl⟩, fun h => absurd hint h⟩
  · rw [if_neg (mt d.fracDigits_eq_zeros.mp hint)]
    obtain ⟨d', hnum, hd'⟩ := number_fractional hstod hint
    exact ⟨_, .number hnum, congrArg some hd', fun h => absurd h hint, fun _ => ⟨d', rfl⟩⟩

end One

/-! ## Arrays of doubles -/

section Arrays

variable {stod : Bytes → Except ConvError Decimal}

/-- What the text of an array of doubles denotes. -/
theorem value_doubles (hstod : ExactStod stod) (ds : List Decimal) (hfit : ∀ d ∈ ds, Fits d)
    (k : Nat) :
    ∃ arr, Value stod (serializeJson Decimal.toString (.array (ds.map .double)) k) (.array arr) ∧
      List.Forall₂ ReadBack ds arr := by
  have hitems : ∃ arr, List.Forall₂
      (fun v v' => Value stod (serializeJson Decimal.toString v (k + 1)) v') (ds.map .double) arr ∧
        List.Forall₂ ReadBack ds arr := by
    induction ds with
    | nil => exact ⟨[], .nil, .nil⟩
    | cons d ds ih =>
      obtain ⟨v, hv, hback⟩ := value_double hstod (hfit d List.mem_cons_self) (k + 1)
      obtain ⟨arr, harr, hbacks⟩ := ih fun d' hd' => hfit d' (List.mem_cons_of_mem _ hd')
      exact ⟨v :: arr, .cons hv harr, .cons hback hbacks⟩
  obtain ⟨arr, harr, hbacks⟩ := hitems
  exact ⟨arr, value_array harr, hbacks⟩

/-- The text of an array is parsed to what it denotes. -/
theorem parse_array {D : Type} {toString : D → Bytes} {stod : Bytes → Except ConvError D}
    {arr arr' : List (JsonValue D)} {k : Nat}
    (h : Value stod (serializeJson toString (.array arr) k) (.array arr')) :
    parse stod (serializeJson toString (.array arr) k) = .ret (.array arr') := by
  refine parse_iff.mpr ⟨[], _, [], Ws.nil, h, Ws.nil, by simp, fun _ => ?_⟩
  exact unended_cons (c := ch '[') rfl

/-- **An array of doubles comes back with the same numbers.** Each of them is a double again, unless
it is an integer: then it is a `long long`. -/
theorem parse_serialize_doubles (stod : Bytes → Except ConvError Decimal) (hstod : ExactStod stod)
    (ds : List Decimal) (hfit : ∀ d ∈ ds, Fits d) :
    ∃ arr, parse stod (serializeJson Decimal.toString (.array (ds.map .double)) 0) =
        .ret (.array arr) ∧ arr.length = ds.length ∧ List.Forall₂ ReadBack ds arr := by
  obtain ⟨arr, hvalue, hback⟩ := value_doubles hstod ds hfit 0
  exact ⟨arr, parse_array hvalue, hback.length_eq.symm, hback⟩

end Arrays

/-! ## An exact `std::stod` -/

/-- The sign of a numeral, whatever follows its digits. -/
theorem splitSign_signed_append (neg : Bool) {ds : Bytes} (hd : Digits ds) (hne : ds ≠ [])
    (rest : Bytes) : splitSign (signed neg ds ++ rest) = (neg, ds ++ rest) := by
  cases neg with
  | true => rfl
  | false =>
    obtain ⟨c, ds, rfl⟩ := List.exists_cons_of_ne_nil hne
    have hc := hd c List.mem_cons_self
    have hminus : c ≠ ch '-' := by
      rintro rfl
      exact absurd hc (by decide)
    have hplus : c ≠ ch '+' := by
      rintro rfl
      exact absurd hc (by decide)
    simp [signed, splitSign, hminus, hplus]

/-- The digits in front of the point, and what follows them. -/
theorem span_digits_point {ds : Bytes} (hd : Digits ds) (fs : Bytes) :
    (ds ++ ch '.' :: fs).takeWhile isdigit = ds ∧
      (ds ++ ch '.' :: fs).dropWhile isdigit = ch '.' :: fs := by
  have hdot : isdigit (ch '.') = false := rfl
  constructor
  · rw [List.takeWhile_append_of_pos (digits_iff.mp hd),
      List.takeWhile_cons_of_neg (by simp [hdot]), List.append_nil]
  · rw [List.dropWhile_append_of_pos (digits_iff.mp hd),
      List.dropWhile_cons_of_neg (by simp [hdot])]

/-- Exact conversion of the numerals with a point and at most six decimal places. -/
def exactStod (u : Bytes) : Except ConvError Decimal :=
  let (neg, s) := splitSign u
  let ds := s.takeWhile isdigit
  match s.dropWhile isdigit with
  | [] => .error .invalidArgument
  | _ :: fs =>
    .ok ⟨(if neg then -1 else 1) * (value ds * 1000000 + value fs * 10 ^ (6 - fs.length) : Nat)⟩

theorem exact_exactStod : ExactStod exactStod := by
  intro neg ds fs hd hne hf _ hlen
  obtain ⟨htake, hdrop⟩ := span_digits_point hd fs
  have hpow : (10 : ℚ) ^ (6 - fs.length) * 10 ^ fs.length = 1000000 := by
    rw [← pow_add, Nat.sub_add_cancel hlen]
    norm_num
  have hconv : exactStod (signed neg ds ++ ch '.' :: fs) =
      .ok ⟨(if neg then -1 else 1) * (value ds * 1000000 + value fs * 10 ^ (6 - fs.length) : Nat)⟩ := by
    rw [exactStod, splitSign_signed_append neg hd hne]
    simp only [htake, hdrop]
  refine ⟨_, hconv, ?_⟩
  have hpos : (10 : ℚ) ^ fs.length ≠ 0 := pow_ne_zero _ (by norm_num)
  unfold Decimal.toRat fixedValue
  rw [← hpow]
  cases neg <;> push_cast <;> field_simp <;> rw [← hpow] <;> ring

/-- The array `[2.5, -3]`. -/
theorem parse_serialize_doubles_two :
    ∃ arr, parse exactStod (serializeJson Decimal.toString
        (.array ([⟨2500000⟩, ⟨-3000000⟩].map .double)) 0) = .ret (.array arr) ∧
      arr.length = 2 ∧ List.Forall₂ ReadBack [⟨2500000⟩, ⟨-3000000⟩] arr := by
  refine parse_serialize_doubles exactStod exact_exactStod _ fun d hd _ => ?_
  rcases List.mem_cons.mp hd with rfl | hd
  · constructor <;> norm_num [Decimal.toRat]
  · obtain rfl := List.mem_singleton.mp hd
    constructor <;> norm_num [Decimal.toRat]

/-- The array `[1.0]` comes back with a `long long` in it, and not as an array of doubles. -/
theorem parse_serialize_one :
    let text := serializeJson Decimal.toString (.array ([⟨1000000⟩].map .double)) 0
    parse exactStod text = .ret (.array [.longLong 1]) ∧
      ¬ ∃ ds : List Decimal, parse exactStod text = .ret (.array (ds.map .double)) := by
  have hfit : ∀ d ∈ [(⟨1000000⟩ : Decimal)], Fits d := by
    intro d hd _
    obtain rfl := List.mem_singleton.mp hd
    constructor <;> norm_num [Decimal.toRat]
  obtain ⟨arr, hvalue, hback⟩ := value_doubles exact_exactStod _ hfit 0
  obtain ⟨v, _, hv, hnil, rfl⟩ := List.forall₂_cons_left_iff.mp hback
  obtain rfl := List.forall₂_nil_left_iff.mp hnil
  obtain ⟨i, rfl⟩ := hv.integral (by decide)
  have hi : (i.toInt : ℚ) = 1 := by
    have := Option.some.inj hv.number
    rw [this]
    norm_num [Decimal.toRat]
  have hone : i = 1 := Int64.toInt_inj.mp (by exact_mod_cast hi)
  intro text
  have hparse : parse exactStod text = .ret (.array [.longLong 1]) := hone ▸ parse_array hvalue
  refine ⟨hparse, ?_⟩
  rintro ⟨ds, hds⟩
  rw [hparse] at hds
  cases ds with
  | nil => exact absurd (JsonValue.array.inj (Outcome.ret.inj hds)) (by simp)
  | cons d ds => exact absurd (JsonValue.array.inj (Outcome.ret.inj hds)) (by simp)

/-- `Fits` is needed: the array `[2^63]` does not come back at all, `std::stoll` throws. -/
theorem parse_serialize_unfit :
    parse exactStod (serializeJson Decimal.toString (.array ([⟨2 ^ 63 * 1000000⟩].map .double)) 0) =
      .throw (.stoll .outOfRange) := by
  -- the value that is not returned would have no decidable equality
  have hthrow : (parse exactStod (serializeJson Decimal.toString
      (.array ([⟨2 ^ 63 * 1000000⟩].map .double)) 0) >>= fun _ => Outcome.ret ()) =
        .throw (.stoll .outOfRange) := by decide +kernel
  rcases Outcome.bind_eq_throw_iff.mp hthrow with h | ⟨_, _, h⟩
  · exact h
  · cases h

end CppExamples.Json
