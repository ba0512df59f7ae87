import CppExamples.Json.Doubles
import CppExamples.Json.Rfc

/-!
# Zero trimming keeps the number (`middleware/src/nonworking_json.cpp:318-327`)

The double branch of `serialize_json` looks for zeros and the point in the whole text. What
`std::to_string` gives has a point, so the trimming stops there at the latest, and the zeros of the
integer part stay.

* `Fixed`: the form of the texts that `std::to_string` gives for finite doubles. `fixed_toString`:
  the texts of `Decimal.toString` have it.
* `numeralValue`: the number that a numeral with or without a point denotes.
* `trimmed_double`: the text of a double denotes the number that it denotes untrimmed, is a number
  of RFC 8259, and ends in no zero if there is a point in it.
-/

namespace CppExamples.Json

open Lib Lib.Cursor

/-- The form of `std::to_string(double)`: an optional minus, digits without superfluous zeros in
front, a point and six digits. -/
inductive Fixed : Bytes → Prop
  | mk {neg : Bool} {ds fs : Bytes} (hi : Rfc.Int ds) (hf : Digits fs) (hlen : fs.length = 6) :
      Fixed (signed neg ds ++ ch '.' :: fs)

/-- The number that a text denotes if it is a sign and digits, and perhaps a point and digits. -/
def numeralValue (u : Bytes) : Option ℚ :=
  let (neg, s) := splitSign u
  let ds := s.takeWhile isdigit
  if ds = [] then none
  else
    match s.dropWhile isdigit with
    | [] => some (fixedValue neg ds [])
    | c :: fs => if c = ch '.' ∧ fs ≠ [] ∧ fs.all isdigit then some (fixedValue neg ds fs) else none

/-! ## Integer parts -/

theorem Rfc.Int.ne_nil {ds : Bytes} (h : Rfc.Int ds) : ds ≠ [] := by
  cases h with
  | zero => exact List.cons_ne_nil _ _
  | digits => exact List.cons_ne_nil _ _

theorem Rfc.Int.isDigits {ds : Bytes} (h : Rfc.Int ds) : Digits ds := by
  cases h with
  | zero => exact List.forall_mem_singleton.mpr (by decide)
  | digits hc hd =>
    refine List.forall_mem_cons.mpr ⟨⟨?_, hc.2⟩, hd⟩
    exact UInt8.le_trans (by decide) hc.1

/-- A numeral has no superfluous zeros. -/
theorem int_numeral (n : Nat) : Rfc.Int (numeral n) := by
  have hfirst : ∀ d < 10, d ≠ 0 → 0x31 ≤ digit d ∧ digit d ≤ 0x39 := by decide
  unfold numeral
  by_cases hn : n = 0
  · rw [if_pos hn]
    exact .zero
  · have hne := Nat.digits_ne_nil_iff_ne_zero (b := 10).mpr hn
    have hlast := Nat.getLast_digit_ne_zero 10 hn
    have hlt := fun d hd => Nat.digits_lt_base (b := 10) (m := n) (d := d) (by decide) hd
    rw [if_neg hn, ← List.dropLast_append_getLast hne, List.reverse_append, List.map_append]
    refine .digits (hfirst _ (hlt _ (List.getLast_mem hne)) hlast) (digits_iff.mpr fun c hc => ?_)
    obtain ⟨d, hd, rfl⟩ := List.mem_map.mp hc
    exact isdigit_digit (hlt d (List.mem_of_mem_dropLast (List.mem_reverse.mp hd)))

/-- `Decimal.toString` prints texts of that form. -/
theorem fixed_toString (d : Decimal) : Fixed d.toString :=
  .mk (int_numeral _) (digits_fracDigits d) rfl

/-! ## The number of a text -/

variable {ds fs : Bytes}

theorem numeralValue_whole (neg : Bool) (hd : Digits ds) (hne : ds ≠ []) :
    numeralValue (signed neg ds) = some (fixedValue neg ds []) := by
  have hsplit := splitSign_signed_append neg hd hne []
  rw [List.append_nil, List.append_nil] at hsplit
  have htake : ds.takeWhile isdigit = ds := List.takeWhile_eq_self_iff.mpr (digits_iff.mp hd)
  have hdrop : ds.dropWhile isdigit = [] := List.dropWhile_eq_nil_iff.mpr (digits_iff.mp hd)
  rw [numeralValue, hsplit]
  simp only [htake, hdrop, if_neg hne]

theorem numeralValue_point (neg : Bool) (hd : Digits ds) (hne : ds ≠ []) (hf : Digits fs)
    (hfne : fs ≠ []) : numeralValue (signed neg ds ++ ch '.' :: fs) = some (fixedValue neg ds fs) := by
  obtain ⟨htake, hdrop⟩ := span_digits_point hd fs
  have hall : fs.all isdigit = true := List.all_eq_true.mpr (digits_iff.mp hf)
  rw [numeralValue, splitSign_signed_append neg hd hne]
  simp only [htake, hdrop, if_neg hne]
  exact if_pos ⟨trivial, hfne, hall⟩

/-! ## Trimming -/

/-- A trimmed text is a whole number, or a number with a fractional part that does not end in a
zero. -/
theorem trimZeros_cases (neg : Bool) (ds : Bytes) (hf : Digits fs) :
    (trimZeros (signed neg ds ++ ch '.' :: fs) = signed neg ds ∧
      fs.rdropWhile (· == ch '0') = []) ∨
    ∃ fs', trimZeros (signed neg ds ++ ch '.' :: fs) = signed neg ds ++ ch '.' :: fs' ∧
      fs.rdropWhile (· == ch '0') = fs' ∧ Digits fs' ∧ fs' ≠ [] ∧
      fs'.getLast? ≠ some (ch '0') := by
  rw [trimZeros_token _ hf]
  by_cases hne : fs.rdropWhile (· == ch '0') = []
  · exact .inl ⟨if_pos hne, hne⟩
  · have hfront := List.rdropWhile_prefix (· == ch '0') (l := fs)
    refine .inr ⟨_, if_neg hne, rfl, fun c hc => hf c (hfront.subset hc), hne, ?_⟩
    intro hlast
    rw [List.getLast?_eq_some_getLast hne, Option.some.injEq] at hlast
    exact List.rdropWhile_last_not (· == ch '0') fs hne (beq_iff_eq.mpr hlast)

theorem not_mem_signed (neg : Bool) (hd : Digits ds) : ch '.' ∉ signed neg ds := by
  have hds : ch '.' ∉ ds := fun hmem => absurd (hd _ hmem).1 (by decide)
  cases neg with
  | false => exact hds
  | true => exact List.not_mem_cons_of_ne_of_not_mem (by decide) hds

/-- The number of a text of that form is kept. -/
theorem numeralValue_trimZeros {u : Bytes} (h : Fixed u) :
    ∃ q, numeralValue u = some q ∧ numeralValue (trimZeros u) = some q := by
  obtain @⟨neg, ds, fs, hi, hf, hlen⟩ := h
  have hne : fs ≠ [] := List.ne_nil_of_length_eq_add_one hlen
  refine ⟨fixedValue neg ds fs, numeralValue_point neg hi.isDigits hi.ne_nil hf hne, ?_⟩
  rw [← fixedValue_rdropWhile]
  rcases trimZeros_cases neg ds hf with ⟨htrim, hzeros⟩ | ⟨fs', htrim, hzeros, hf', hne', -⟩
  · rw [htrim, hzeros, numeralValue_whole neg hi.isDigits hi.ne_nil]
  · rw [htrim, hzeros, numeralValue_point neg hi.isDigits hi.ne_nil hf' hne']

theorem number_trimZeros {u : Bytes} (h : Fixed u) : Rfc.Number (trimZeros u) := by
  obtain @⟨neg, ds, fs, hi, hf, hlen⟩ := h
  rcases trimZeros_cases neg ds hf with ⟨htrim, -⟩ | ⟨fs', htrim, -, hf', hne', -⟩
  · have hnumber : Rfc.Number (signed neg ds ++ [] ++ []) := .mk hi .none .none
    rwa [List.append_nil, List.append_nil, ← htrim] at hnumber
  · have hnumber : Rfc.Number (signed neg ds ++ ch '.' :: fs' ++ []) :=
      .mk hi (.some hf' hne') .none
    rwa [List.append_nil, ← htrim] at hnumber

/-- No zero and no point is left at the end behind a point. -/
theorem getLast?_trimZeros {u : Bytes} (h : Fixed u) (hdot : ch '.' ∈ trimZeros u) :
    (trimZeros u).getLast? ≠ some (ch '0') ∧ (trimZeros u).getLast? ≠ some (ch '.') := by
  obtain @⟨neg, ds, fs, hi, hf, hlen⟩ := h
  rcases trimZeros_cases neg ds hf with ⟨htrim, -⟩ | ⟨fs', htrim, -, hf', hne', hlast⟩
  · rw [htrim] at hdot
    exact absurd hdot (not_mem_signed neg hi.isDigits)
  · have hend : (trimZeros (signed neg ds ++ ch '.' :: fs)).getLast? = fs'.getLast? := by
      rw [htrim, List.getLast?_append_of_ne_nil _ (List.cons_ne_nil _ _),
        List.getLast?_cons_of_ne_nil hne']
    rw [hend]
    refine ⟨hlast, fun hpoint => ?_⟩
    exact absurd (hf' _ (List.mem_of_getLast? hpoint)).1 (by decide)

/-- **Zero trimming keeps the number.** What `serialize_json` prints of a double denotes the number
that `std::to_string` of it denotes, is a number of RFC 8259, and has no zero at its end if it has a
point. -/
theorem trimmed_double {D : Type} (toString : D → Bytes) (d : D) (k : Nat) (h : Fixed (toString d)) :
    (∃ q, numeralValue (toString d) = some q ∧
      numeralValue (serializeJson toString (.double d) k) = some q) ∧
    Rfc.Number (serializeJson toString (.double d) k) ∧
    (ch '.' ∈ serializeJson toString (.double d) k →
      (serializeJson toString (.double d) k).getLast? ≠ some (ch '0') ∧
      (serializeJson toString (.double d) k).getLast? ≠ some (ch '.')) := by
  rw [serializeJson]
  exact ⟨numeralValue_trimZeros h, number_trimZeros h, getLast?_trimZeros h⟩

/-- An integer part that ends in zeros. -/
theorem trimmed_double_hundred :
    (∃ q, numeralValue (Decimal.toString ⟨-100500000⟩) = some q ∧
      numeralValue (serializeJson Decimal.toString (.double ⟨-100500000⟩) 0) = some q) ∧
    Rfc.Number (serializeJson Decimal.toString (.double ⟨-100500000⟩) 0) ∧
    (ch '.' ∈ serializeJson Decimal.toString (.double ⟨-100500000⟩) 0 →
      (serializeJson Decimal.toString (.double ⟨-100500000⟩) 0).getLast? ≠ some (ch '0') ∧
      (serializeJson Decimal.toString (.double ⟨-100500000⟩) 0).getLast? ≠ some (ch '.')) :=
  trimmed_double Decimal.toString ⟨-100500000⟩ 0 (fixed_toString _)

/-- Minus zero keeps its sign, and the zero in front of the point. -/
example : trimZeros (ascii "-0.000000") = ascii "-0" := rfl

/-- The number of a `Decimal` is printed. -/
theorem numeralValue_serializeJson (d : Decimal) (k : Nat) :
    numeralValue (serializeJson Decimal.toString (.double d) k) = some d.toRat := by
  obtain ⟨q, hq, htrim⟩ := numeralValue_trimZeros (fixed_toString d)
  have hne : d.fracDigits ≠ [] := List.cons_ne_nil _ _
  have hvalue := numeralValue_point (decide (d.millionths < 0)) (digits_wholeDigits d)
    (numeral_ne_nil _) (digits_fracDigits d) hne
  rw [d.fixedValue_toString] at hvalue
  rw [serializeJson, htrim, ← hq]
  exact hvalue

end CppExamples.Json
