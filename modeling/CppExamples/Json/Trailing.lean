import CppExamples.Json.Exact

/-!
# White space behind the document

`parse` skips white space behind the value, so it should not matter how much of it there is. It
does for one kind of document: `parse_number` looks at the byte behind the number with `peek()`,
and at the end of the input `peek()` throws.

* `parse_iff`: what `parse` returns on every input, without a newline at its end. A text of the
  grammar is refused exactly when it ends in an `unended` number.
* `parse_append_ws_iff`: white space behind a document makes a difference exactly when it is the
  first such byte behind an `unended` number.
-/

namespace CppExamples.Json

open Lib Lib.Cursor

variable {D : Type} {stod : Bytes → Except ConvError D}

/-! ## A value at the end of the input -/

theorem unended_cons {c : UInt8} {t : Bytes} (hc : numberStart c = false) :
    unended (c :: t) = false := by
  unfold unended
  rw [List.head?_cons, Option.any_some, hc, Bool.false_and]

/-- A number that `parse_value` returned at the end of the input is not `unended`. -/
theorem parseValueN_end {n : Nat} {p q : JsonParser} {v : JsonValue D} {w u : Bytes}
    (h : parseValueN stod n p = .ret (v, q)) (hw : Ws w) (hr : Reads p (w ++ u) q)
    (hq : q.rest = []) : unended u = false := by
  by_cases hu : Head numberStart u
  · obtain ⟨r, hpr, hrq⟩ := hr.split
    have hhead : Head numberStart r.rest := hrq.rest ▸ hu.append _
    obtain ⟨hskip, c, hc, hpeek⟩ :=
      skip_peek hw hpr hhead ((apart_byte rfl).or apart_isspace_isdigit.symm)
    cases n with
    | zero => exact absurd h (by simp [parseValueN])
    | succ n =>
      have hquote : c ≠ ch '"' := by
        rintro rfl
        exact absurd hc (by decide)
      have hc' : c = ch '-' ∨ isdigit c = true := by simpa [numberStart] using hc
      simp only [parseValueN, hskip, hpeek, Outcome.ret_bind] at h
      rw [if_neg hquote, if_pos hc'] at h
      obtain ⟨u', -, hr', hend⟩ := parseNumber_sound hhead h
      rw [hrq.text_unique hr']
      exact hend hq
  · cases u with
    | nil => rfl
    | cons c u =>
      refine unended_cons ?_
      by_contra hc
      exact hu ⟨c, u, rfl, Bool.not_eq_false _ ▸ hc⟩

/-- **What `parse` returns.** `json` is a text of the grammar, and if no white space is behind the
value, the value is not an `unended` number. -/
theorem parse_iff {json : Bytes} {v : JsonValue D} :
    parse stod json = .ret v ↔
      ∃ w u w', Ws w ∧ Value stod u v ∧ Ws w' ∧ json = w ++ u ++ w' ∧
        (w' = [] → unended u = false) := by
  rw [parse_eq_ret_iff]
  constructor
  · rintro ⟨q, hv, hq⟩
    obtain ⟨w, u, hw, hu, hr⟩ := (soundAt _).value hv
    exact ⟨w, u, q.rest, hw, hu, hq, hr.rest, parseValueN_end hv hw hr⟩
  · rintro ⟨w, u, w', hw, hu, hw', rfl, hend⟩
    obtain ⟨q, hr, hq⟩ := exists_reads (start_rest (w ++ u ++ w'))
    refine ⟨q, parseValue_complete hu hw hr ?_, hq ▸ hw'⟩
    rw [hq]
    cases w' with
    | nil => exact .inr ⟨rfl, hend rfl⟩
    | cons c w' =>
      exact .inl ⟨c, w', rfl, by simp [delim, ws_iff.mp hw' c List.mem_cons_self]⟩

/-! ## White space behind the value -/

/-- An `unended` value is a number. -/
theorem Value.number_of_unended {u : Bytes} {v : JsonValue D} (h : Value stod u v)
    (hu : unended u = true) : Number stod u v := by
  have hother : ∀ {c : UInt8} {t : Bytes}, numberStart c = false → unended (c :: t) ≠ true :=
    fun hc => by simp [unended_cons hc]
  cases h with
  | number h => exact h
  | string h =>
    obtain ⟨b, -, rfl⟩ := h
    exact absurd hu (hother rfl)
  | emptyArray | array | emptyObject | object => exact absurd hu (hother rfl)
  | litTrue => exact absurd hu (hother (c := ch 't') (t := ascii "rue") rfl)
  | litFalse => exact absurd hu (hother (c := ch 'f') (t := ascii "alse") rfl)
  | litNull => exact absurd hu (hother (c := ch 'n') (t := ascii "ull") rfl)

section Unended

variable {w₀ u : Bytes} {v : JsonValue D} (hw₀ : Ws w₀) (hu : Number stod u v)
  (hend : unended u = true)

include hw₀ hu

/-- In front of white space every number is parsed. -/
theorem parse_number_ws {w : Bytes} (hw : Ws w) (hne : w ≠ []) :
    parse stod (w₀ ++ u ++ w) = .ret v :=
  parse_iff.mpr ⟨w₀, u, w, hw₀, .number hu, hw, rfl, fun h => absurd h hne⟩

include hend

/-- At the end of the input an `unended` number is not. -/
theorem parse_number_end (v' : JsonValue D) : parse stod (w₀ ++ u) ≠ .ret v' := by
  intro h
  obtain ⟨q, hv, hq⟩ := parse_eq_ret_iff.mp h
  obtain ⟨w, u', hw, hu', hr⟩ := (soundAt _).value hv
  -- nothing is left behind the value, as `u` does not end in white space
  have hsplit : w ++ u' ++ q.rest = w₀ ++ u ++ [] := hr.rest.symm.trans (List.append_nil _).symm
  obtain ⟨a, -, ha⟩ := exists_of_append_ws hq (.number hu) hsplit
  obtain ⟨-, hnil⟩ := List.append_eq_nil_iff.mp ha.symm
  have hread : Reads (Cursor.start (w₀ ++ u)) (w₀ ++ u) q :=
    ⟨hr.text, by rw [hnil, List.append_nil, start_rest]⟩
  rw [parseValueN_end hv hw₀ hread hnil] at hend
  exact Bool.false_ne_true hend

end Unended

/-- **White space behind a document matters only behind an `unended` number.** -/
theorem parse_append_ws_iff (stod : Bytes → Except ConvError D) (s w : Bytes) (hw : Ws w) :
    (∀ v, parse stod s = .ret v ↔ parse stod (s ++ w) = .ret v) ↔
      w = [] ∨ ¬ ∃ w₀ u v, Ws w₀ ∧ Number stod u v ∧ unended u = true ∧ s = w₀ ++ u := by
  constructor
  · intro h
    by_cases hne : w = []
    · exact .inl hne
    · refine .inr ?_
      rintro ⟨w₀, u, v, hw₀, hu, hend, rfl⟩
      exact parse_number_end hw₀ hu hend v ((h v).mpr (parse_number_ws hw₀ hu hw hne))
  · rintro (rfl | hno) v
    · rw [List.append_nil]
    · constructor
      · intro h
        obtain ⟨w₀, u, w', hw₀, hu, hw', rfl, hend⟩ := parse_iff.mp h
        refine parse_iff.mpr ⟨w₀, u, w' ++ w, hw₀, hu, hw'.append hw, by simp, fun hnil => ?_⟩
        exact hend (List.append_eq_nil_iff.mp hnil).1
      · intro h
        obtain ⟨w₀, u, w', hw₀, hu, hw', hs, -⟩ := parse_iff.mp h
        obtain ⟨a, rfl, rfl⟩ := exists_of_append_ws hw hu hs
        have ha : Ws a := fun c hc => hw' c (List.mem_append_left _ hc)
        refine parse_iff.mpr ⟨w₀, u, a, hw₀, hu, ha, rfl, fun hnil => ?_⟩
        by_contra hend
        rw [Bool.not_eq_false] at hend
        exact hno ⟨w₀, u, v, hw₀, hu.number_of_unended hend, hend, by rw [hnil, List.append_nil]⟩

/-- `[12345]` with and without a blank behind it. -/
theorem parse_append_ws_iff_array :
    Ws [0x20] ∧
      ((∀ v : JsonValue Unit, parse (fun _ => .error .invalidArgument) (ascii "[12345]") = .ret v ↔
        parse (fun _ => .error .invalidArgument) (ascii "[12345]" ++ [0x20]) = .ret v) ↔
      [0x20] = ([] : Bytes) ∨ ¬ ∃ w₀ u v, Ws w₀ ∧
        Number (fun _ => .error .invalidArgument : Bytes → Except ConvError Unit) u v ∧
        unended u = true ∧ ascii "[12345]" = w₀ ++ u) :=
  ⟨ws_of_all rfl, parse_append_ws_iff _ _ _ (ws_of_all rfl)⟩

theorem number_12345 (stod : Bytes → Except ConvError D) :
    Number stod (signed false (ascii "12345")) (.longLong 12345) :=
  .longLong (digits_iff.mpr (List.all_eq_true.mp rfl)) (List.cons_ne_nil _ _) (by decide)
    (by decide)

/-- The document `12345` is refused, and `12345` with a blank behind it is not. -/
theorem parse_append_ws_fails :
    ¬ ∀ (D : Type) (stod : Bytes → Except ConvError D) (s w : Bytes), Ws w →
      ∀ v, parse stod s = .ret v ↔ parse stod (s ++ w) = .ret v := by
  intro h
  have hblank : Ws [0x20] := ws_of_all rfl
  have hnum := number_12345 fun _ => (.error .invalidArgument : Except _ Unit)
  have hret := parse_number_ws Ws.nil hnum hblank (List.cons_ne_nil _ _)
  exact parse_number_end Ws.nil hnum rfl _ ((h Unit _ _ _ hblank _).mpr hret)

end CppExamples.Json
