import CppExamples.Json.Rfc
import CppExamples.Json.Trailing

/-!
# What the parser accepts beyond JSON

* `settled_value`: JSON passes the automaton `strictLexer`.
* `split_value`: for a value of the parser's language the automaton decides which of the two it is:
  it ends where a token may end and the value is JSON, or it is stuck. Brackets and separators are
  the same in both grammars, so the derivation of the one is turned into a derivation of the other.
* `parse_rfc_iff`: an accepted text is JSON iff the automaton accepts it.
-/

namespace CppExamples.Json

open Lib Lib.Cursor

namespace LexState

variable {st : LexState}

/-! ## One token after the other -/

/-- The automaton passes `u` and is between tokens, and then `R`; or it refuses `u`. -/
def Ends (u : Bytes) (R : Prop) : Prop := (out.run u = out ∧ R) ∨ out.run u = bad

/-- The automaton passes `u` and a token may end, and then `R`; or it is stuck. -/
def Splits (u : Bytes) (R : Prop) : Prop :=
  ((out.run u).settled = true ∧ R) ∨ (out.run u).stuck = true

variable {u t w : Bytes} {R S : Prop}

theorem Ends.splits (h : Ends u R) : Splits u R := by
  rcases h with ⟨h, hR⟩ | h
  · exact .inl ⟨by rw [h]; rfl, hR⟩
  · exact .inr (by rw [h]; rfl)

theorem Splits.imp (h : Splits u R) (hRS : R → S) : Splits u S := h.imp_left (And.imp_right hRS)

/-- The punctuation between values and in front of them. -/
theorem ends_punct {c : UInt8} (hc : outside c = out) : Ends [c] True := .inl ⟨hc, trivial⟩

theorem ends_ws (hw : Ws w) : Ends w (Rfc.Ws w) := by
  rcases @split_ws out w hw rfl with h | h
  · exact .inl ⟨run_ws h, h⟩
  · exact .inr h

theorem ends_string {s : Bytes} (hu : StringLit u s) : Ends u (Rfc.String u) := by
  rcases split_string hu with h | h
  · exact .inl ⟨run_string h, h⟩
  · exact .inr h

theorem Ends.append (h : Ends u R) (h' : Ends t S) : Ends (u ++ t) (R ∧ S) := by
  unfold Ends
  rw [run_append]
  rcases h with ⟨h, hR⟩ | h
  · rw [h]
    exact h'.imp_left (And.imp_right (And.intro hR))
  · rw [h, run_bad]
    exact .inr rfl

theorem Ends.append_splits (h : Ends u R) (h' : Splits t S) : Splits (u ++ t) (R ∧ S) := by
  unfold Splits
  rw [run_append]
  rcases h with ⟨h, hR⟩ | h
  · rw [h]
    exact h'.imp_left (And.imp_right (And.intro hR))
  · rw [h, run_bad]
    exact .inr rfl

/-- White space behind a value. -/
theorem Splits.append_ws (h : Splits u R) (hw : Ws w) : Splits (u ++ w) (R ∧ Rfc.Ws w) := by
  unfold Splits
  rw [run_append]
  rcases h with ⟨h, hR⟩ | h
  · rcases split_ws hw h with hws | hbad
    · exact .inl ⟨(settled_ws hws h).1, hR, hws⟩
    · exact .inr (hbad ▸ rfl)
  · exact .inr (stuck_ws hw h)

/-- The delimiter behind a value. -/
theorem Splits.append_delim {c : UInt8} (h : Splits u R) (hc : outside c = out)
    (hd : delim c = true) : Ends (u ++ [c]) R := by
  unfold Ends
  rw [run_append, run_cons, run_nil]
  rcases h with ⟨h, hR⟩ | h
  · exact .inl ⟨(next_of_settled h hd).trans hc, hR⟩
  · exact .inr (next_of_stuck h hd)

/-! ## JSON passes the automaton -/

section Passes

variable {u t w w' : Bytes}

theorem run_brackets {o c : UInt8} (ho : outside o = out) (ht : (out.run t).settled = true)
    (hc : outside c = out) (hd : delim c = true) : out.run (o :: t ++ [c]) = out := by
  rw [run_append, run_cons, run_cons, run_nil]
  change ((outside o).run t).next c = out
  rw [ho, next_of_settled ht hd, hc]

theorem settled_item (hw : Rfc.Ws w) (hu : (out.run u).settled = true) (hw' : Rfc.Ws w') :
    (out.run (w ++ u ++ w')).settled = true := by
  rw [run_append, run_append, run_ws hw]
  exact (settled_ws hw' hu).1

theorem run_comma (hu : (out.run u).settled = true) (t : Bytes) :
    out.run (u ++ ch ',' :: t) = out.run t := by
  rw [run_append, run_cons, next_of_settled hu rfl]
  rfl

theorem run_key {q w₁ : Bytes} (hw : Rfc.Ws w) (hq : Rfc.String q) (hw₁ : Rfc.Ws w₁) (t : Bytes) :
    out.run (w ++ q ++ w₁ ++ ch ':' :: t) = out.run t := by
  rw [run_append, run_append, run_append, run_ws hw, run_string hq, run_ws hw₁]
  rfl

/-- **A JSON value passes the automaton.** -/
theorem settled_value (hu : Rfc.Value u) : (out.run u).settled = true :=
  @Rfc.Value.rec (fun u _ => (out.run u).settled = true) (fun t _ => (out.run t).settled = true)
    (fun t _ => (out.run t).settled = true)
    (fun h => by rw [run_string h]; rfl)
    settled_number
    (fun hw => by rw [run_brackets rfl (by rw [run_ws hw]; rfl) rfl rfl]; rfl)
    (fun _ ih => by rw [run_brackets rfl ih rfl rfl]; rfl)
    (fun hw => by rw [run_brackets rfl (by rw [run_ws hw]; rfl) rfl rfl]; rfl)
    (fun _ ih => by rw [run_brackets rfl ih rfl rfl]; rfl)
    rfl
    rfl
    rfl
    (fun hw _ hw' ih => settled_item hw ih hw')
    (fun hw _ hw' _ ih iht => by rw [run_comma (settled_item hw ih hw')]; exact iht)
    (fun hw hk hw₁ hw₂ _ hw' ih => by rw [run_key hw hk hw₁]; exact settled_item hw₂ ih hw')
    (fun hw hk hw₁ hw₂ _ hw' _ ih iht => by
      rw [run_key hw hk hw₁, run_comma (settled_item hw₂ ih hw')]; exact iht)
    u hu

theorem settled_text {s : Bytes} (hs : Rfc.Text s) : (out.run s).settled = true := by
  obtain ⟨w, u, w', hw, hu, hw', rfl⟩ := hs
  exact settled_item hw (settled_value hu) hw'

end Passes

/-! ## What passes is JSON -/

section Values

variable {D : Type} {stod : Bytes → Except ConvError D} {u t w w' : Bytes}

theorem splits_number {v : JsonValue D} (hu : Number stod u v) : Splits u (Rfc.Value u) := by
  have hsplit : Rfc.Number u ∨ (out.run u).stuck = true := by
    cases hu with
    | @longLong neg ds hd hne _ _ =>
      rw [← List.append_nil (signed neg ds), ← List.append_nil (signed neg ds ++ [])]
      exact split_token hd (.inr hne) .none .none
    | double hd hstart hf he _ _ => exact split_token hd hstart hf he
  rcases hsplit with h | h
  · exact .inl ⟨settled_number h, .number h⟩
  · exact .inr h

theorem splits_item (hw : Ws w) (ih : Splits u (Rfc.Value u)) (hw' : Ws w') :
    Splits (w ++ u ++ w') ((Rfc.Ws w ∧ Rfc.Value u) ∧ Rfc.Ws w') :=
  ((ends_ws hw).append_splits ih).append_ws hw'

theorem splits_cons {R S : Prop} (hu : Splits u R) (ht : Splits t S) :
    Splits (u ++ ch ',' :: t) (R ∧ S) := by
  have h := (hu.append_delim (c := ch ',') rfl rfl).append_splits ht
  rwa [List.append_assoc] at h

theorem splits_key {q k w₁ : Bytes} {R : Prop} (hw : Ws w) (hq : StringLit q k) (hw₁ : Ws w₁)
    (ht : Splits t R) :
    Splits (w ++ q ++ w₁ ++ ch ':' :: t) (((Rfc.Ws w ∧ Rfc.String q) ∧ Rfc.Ws w₁) ∧ R) := by
  have hkey := ((ends_ws hw).append (ends_string hq)).append (ends_ws hw₁)
  have h := (hkey.append (ends_punct (c := ch ':') rfl)).append_splits ht
  rw [List.append_assoc] at h
  exact h.imp fun h => ⟨h.1.1, h.2⟩

theorem splits_brackets {o c : UInt8} {R : Prop} (ho : outside o = out) (ht : Splits t R)
    (hc : outside c = out) (hd : delim c = true) : Splits (o :: t ++ [c]) R :=
  (((ends_punct ho).append_splits ht).append_delim hc hd).splits.imp And.right

/-- **The automaton tells the parser's values apart**: it passes a value that is JSON, and it is
stuck behind any other one. -/
theorem split_value {v : JsonValue D} (hu : Json.Value stod u v) : Splits u (Rfc.Value u) :=
  @Json.Value.rec D stod (fun u _ _ => Splits u (Rfc.Value u)) (fun t _ _ => Splits t (Rfc.Items t))
    (fun t _ _ => Splits t (Rfc.Members t))
    (fun h => (ends_string h).splits.imp .string)
    splits_number
    (fun hw => (splits_brackets rfl (ends_ws hw).splits rfl rfl).imp .emptyArray)
    (fun _ ih => (splits_brackets rfl ih rfl rfl).imp .array)
    (fun hw => (splits_brackets rfl (ends_ws hw).splits rfl rfl).imp .emptyObject)
    (fun _ _ ih => (splits_brackets rfl ih rfl rfl).imp .object)
    (.inl ⟨rfl, .litTrue⟩)
    (.inl ⟨rfl, .litFalse⟩)
    (.inl ⟨rfl, .litNull⟩)
    (fun hw _ hw' ih => (splits_item hw ih hw').imp fun ⟨⟨h, hv⟩, h'⟩ => .one h hv h')
    (fun hw _ hw' _ ih iht =>
      (splits_cons (splits_item hw ih hw') iht).imp fun ⟨⟨⟨h, hv⟩, h'⟩, ht⟩ => .cons h hv h' ht)
    (fun hw hk hw₁ hw₂ _ hw' ih =>
      (splits_key hw hk hw₁ (splits_item hw₂ ih hw')).imp
        fun ⟨⟨⟨h, hq⟩, h₁⟩, ⟨h₂, hv⟩, h'⟩ => .one h hq h₁ h₂ hv h')
    (fun hw hk hw₁ hw₂ _ hw' _ ih iht =>
      (splits_key hw hk hw₁ (splits_cons (splits_item hw₂ ih hw') iht)).imp
        fun ⟨⟨⟨h, hq⟩, h₁⟩, ⟨⟨h₂, hv⟩, h'⟩, ht⟩ => .cons h hq h₁ h₂ hv h' ht)
    u v hu

theorem split_text {s : Bytes} {v : JsonValue D} (hs : Json.Text stod s v) :
    Splits s (Rfc.Text s) := by
  obtain ⟨w, u, w', hw, hu, hw', rfl⟩ := hs
  exact (splits_item hw (split_value hu) hw').imp fun ⟨⟨h, hv⟩, h'⟩ => ⟨w, u, w', h, hv, h', rfl⟩

end Values

theorem not_settled_of_stuck (h : st.stuck = true) : st.settled = false := by
  cases st <;> first | rfl | exact absurd h (by simp [stuck])

end LexState

/-! ## Accepted texts -/

variable {D : Type}

/-- An accepted text is in the parser's language. -/
theorem text_of_parse {stod : Bytes → Except ConvError D} {s : Bytes} {v : JsonValue D}
    (h : parse stod s = .ret v) : Text stod s v := by
  obtain ⟨q, hv, hq⟩ := parse_eq_ret_iff.mp h
  obtain ⟨w, u, hw, hu, hr⟩ := (soundAt _).value hv
  exact ⟨w, u, q.rest, hw, hu, hq, hr.rest⟩

/-- **An accepted text is JSON iff the automaton accepts it.** -/
theorem parse_rfc_iff (stod : Bytes → Except ConvError D) (s : Bytes) (v : JsonValue D)
    (h : parse stod s = .ret v) : Rfc.Text s ↔ s ∈ strictLexer.accepts := by
  constructor
  · exact fun hs => LexState.settled_text hs
  · intro hs
    rcases LexState.split_text (text_of_parse h) with ⟨-, hrfc⟩ | hstuck
    · exact hrfc
    · have hsettled : (LexState.out.run s).settled = true := hs
      rw [LexState.not_settled_of_stuck hstuck] at hsettled
      exact absurd hsettled Bool.false_ne_true

/-- The parser accepts an array of one number, whatever stands in front of the number's digits. -/
theorem parse_singleton {stod : Bytes → Except ConvError D} {u : Bytes} {v : JsonValue D}
    (hu : Number stod u v) : parse stod (ch '[' :: u ++ [ch ']']) = .ret (.array [v]) := by
  have hitems : Items stod ([] ++ u ++ []) [v] := .one Ws.nil (.number hu) Ws.nil
  rw [List.nil_append, List.append_nil] at hitems
  refine parse_iff.mpr ⟨[], _, [], Ws.nil, .array hitems, Ws.nil, by simp, fun _ => ?_⟩
  exact unended_cons rfl

theorem number_01 (stod : Bytes → Except ConvError D) :
    Number stod (signed false (ascii "01")) (.longLong 1) :=
  .longLong (digits_iff.mpr (List.all_eq_true.mp rfl)) (List.cons_ne_nil _ _) (by decide)
    (by decide)

/-- The accepted text `[12345]`. -/
theorem parse_rfc_iff_array :
    parse (fun _ => .error .invalidArgument) (ascii "[12345]") =
        .ret (.array [.longLong 12345] : JsonValue Unit) ∧
      (Rfc.Text (ascii "[12345]") ↔ ascii "[12345]" ∈ strictLexer.accepts) := by
  have hparse := parse_singleton (number_12345 fun _ => (.error .invalidArgument : Except _ Unit))
  exact ⟨hparse, parse_rfc_iff _ _ _ hparse⟩

/-- `[01]` is accepted, whatever `std::stod` does, and is not JSON. -/
theorem parse_accepts_01 :
    (∀ (D : Type) (stod : Bytes → Except ConvError D),
      parse stod (ascii "[01]") = .ret (.array [.longLong 1])) ∧
    ¬ Rfc.Text (ascii "[01]") := by
  refine ⟨fun D stod => parse_singleton (number_01 stod), fun h => ?_⟩
  exact absurd (LexState.settled_text h) (by decide)

end CppExamples.Json
