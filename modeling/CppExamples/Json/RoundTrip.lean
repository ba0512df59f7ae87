import CppExamples.Json.Exact

/-!
# The parser reads back what the serializer prints

* `value_serializeJson`: the text of a value is a text of the language that denotes the value, for
  values without doubles whose keys need no escaping. The induction is over the value; the item
  and member lists have their own lemmas, in which the line breaks and the indentation are the
  white space of the grammar.
* `parseValue_serializeJson`: so `parse_value` reads it back in any context, at any indent level,
  and stops right behind it.
* `parseValue_of_serializeJson`: at the levels that `serialize_json` can print, it prints such a
  text.
-/

namespace CppExamples.Json

open Lib Lib.Cursor

variable {D : Type} {toString : D → Bytes} {stod : Bytes → Except ConvError D}

/-! ## The pieces of the text -/

theorem ws_newline : Ws (ascii "\n") := ws_of_all rfl

theorem ws_indentStr (k : Nat) : Ws (indentStr k) := by
  intro c hc
  rw [List.eq_of_mem_replicate hc]
  exact .inl (by decide)

/-- The indentation of an item or a member. -/
theorem ws_itemIndent (k : Nat) : Ws (indentStr k ++ ascii "  ") :=
  (ws_indentStr k).append (ws_of_all rfl)

/-- The line break and the indentation in front of a closing bracket. -/
theorem ws_closing (k : Nat) : Ws (ascii "\n" ++ indentStr k) := ws_newline.append (ws_indentStr k)

theorem stringBody_escape (s : Bytes) : StringBody (escape s) s := by
  induction s with
  | nil => exact .nil
  | cons c s ih =>
    rw [escape, List.flatMap_cons, escapeChar]
    split
    · rename_i hc
      subst hc
      exact .escape .quote ih
    · rename_i hq
      split
      · rename_i hc
        subst hc
        exact .escape .backslash ih
      · rename_i hb
        exact .plain hq hb ih

/-- A key without `"` and `\` stands for itself. -/
theorem stringBody_self {key : Bytes}
    (h : key.all (fun c => c != ch '"' && c != ch '\\') = true) : StringBody key key := by
  induction key with
  | nil => exact .nil
  | cons c key ih =>
    rw [List.all_cons, Bool.and_eq_true, Bool.and_eq_true, bne_iff_ne, bne_iff_ne] at h
    exact .plain h.1.1 h.1.2 (ih h.2)

theorem number_decimal (i : Int64) : Number stod (decimal i.toInt) (.longLong i) := by
  have hd : Digits (numeral i.toInt.natAbs) := digits_iff.mpr fun c hc => isdigit_of_mem_numeral hc
  rw [decimal_eq_signed]
  refine number_of_stoll hd ?_
  rw [← decimal_eq_signed]
  exact stoll_decimal i

/-! ## Item and member lists -/

theorem serializeItems_false (v : JsonValue D) (vs : List (JsonValue D)) (k : Nat) :
    serializeItems toString (v :: vs) k false =
      ch ',' :: (ascii "\n" ++ serializeItems toString (v :: vs) k true) := rfl

theorem serializeMembers_false (e : Bytes × JsonValue D) (ms : List (Bytes × JsonValue D))
    (k : Nat) : serializeMembers toString (e :: ms) k false =
      ch ',' :: (ascii "\n" ++ serializeMembers toString (e :: ms) k true) := rfl

theorem items_serializeItems {k : Nat} {w : Bytes} (hw : Ws w) :
    ∀ {arr arr' : List (JsonValue D)}, arr ≠ [] →
      List.Forall₂ (fun v v' => Value stod (serializeJson toString v (k + 1)) v') arr arr' →
      Items stod (serializeItems toString arr k true ++ w) arr' := by
  intro arr arr' hne h
  induction h with
  | nil => exact absurd rfl hne
  | cons hv hvs ih =>
    cases hvs with
    | nil =>
      have : Items stod _ _ := .one (ws_itemIndent k) hv hw
      simpa [serializeItems] using this
    | cons hv' hvs' =>
      have hrest : Items stod _ _ := ih (List.cons_ne_nil _ _)
      have : Items stod _ _ := .cons (ws_itemIndent k) hv Ws.nil (hrest.ws_append ws_newline)
      rw [serializeItems, serializeItems_false]
      simpa using this

theorem members_serializeMembers {k : Nat} {w : Bytes} (hw : Ws w) :
    ∀ {obj : List (Bytes × JsonValue D)}, obj ≠ [] →
      (∀ e ∈ obj, StringBody e.1 e.1 ∧ Value stod (serializeJson toString e.2 (k + 1)) e.2) →
      Members stod (serializeMembers toString obj k true ++ w) obj
  | [], hne, _ => absurd rfl hne
  | [(key, v)], _, h => by
    obtain ⟨hkey, hv⟩ := h (key, v) List.mem_cons_self
    have : Members stod _ _ := .one (ws_itemIndent k) ⟨key, hkey, rfl⟩ Ws.nil
      (ws_of_all (rfl : (ascii " ").all isspace = true)) hv hw
    have hquote : ascii "  \"" = ascii "  " ++ [ch '"'] := rfl
    have hcolon : ascii "\": " = ch '"' :: ch ':' :: ascii " " := rfl
    simpa [serializeMembers, hquote, hcolon] using this
  | (key, v) :: e' :: ms, _, h => by
    obtain ⟨hkey, hv⟩ := h (key, v) List.mem_cons_self
    have ih : Members stod _ _ := members_serializeMembers hw (List.cons_ne_nil e' ms)
      fun x hx => h x (List.mem_cons_of_mem _ hx)
    have : Members stod _ _ := .cons (ws_itemIndent k) ⟨key, hkey, rfl⟩ Ws.nil
      (ws_of_all (rfl : (ascii " ").all isspace = true)) hv Ws.nil
      (ih.ws_append ws_newline)
    have hquote : ascii "  \"" = ascii "  " ++ [ch '"'] := rfl
    have hcolon : ascii "\": " = ch '"' :: ch ':' :: ascii " " := rfl
    rw [serializeMembers, serializeMembers_false]
    simpa [hquote, hcolon] using this

/-- A map is the map of its own entries. -/
theorem lastWins_self {obj : List (Bytes × JsonValue D)} (h : OrdMap.Sorted obj) :
    LastWins obj obj := by
  refine ⟨h, fun k => ?_⟩
  rw [← OrdMap.find?_ofMembers, OrdMap.ofMembers_eq_self h]

/-! ## Whole values -/

/-- If the text of each item denotes a value, the text of the array denotes the array of them. -/
theorem value_array {arr arr' : List (JsonValue D)} {k : Nat}
    (h : List.Forall₂ (fun v v' => Value stod (serializeJson toString v (k + 1)) v') arr arr') :
    Value stod (serializeJson toString (.array arr) k) (.array arr') := by
  cases arr with
  | nil =>
    obtain rfl := List.forall₂_nil_left_iff.mp h
    have : Value stod _ (.array []) := .emptyArray (ws_newline.append (ws_closing k))
    exact this
  | cons v vs =>
    have hitems := items_serializeItems (ws_closing k) (List.cons_ne_nil v vs) h
    have : Value stod _ _ := .array (hitems.ws_append ws_newline)
    have hopen : ascii "[\n" = ch '[' :: ascii "\n" := rfl
    have hclose : ascii "]" = [ch ']'] := rfl
    simpa [serializeJson, hopen, hclose] using this

theorem value_object {obj : List (Bytes × JsonValue D)} {k : Nat} (hsorted : OrdMap.Sorted obj)
    (h : ∀ e ∈ obj, StringBody e.1 e.1 ∧ Value stod (serializeJson toString e.2 (k + 1)) e.2) :
    Value stod (serializeJson toString (.object obj) k) (.object obj) := by
  cases obj with
  | nil =>
    have : Value stod _ (.object []) := .emptyObject (ws_newline.append (ws_closing k))
    exact this
  | cons e ms =>
    have hmembers := members_serializeMembers (ws_closing k) (List.cons_ne_nil e ms) h
    have : Value stod _ _ := .object (hmembers.ws_append ws_newline) (lastWins_self hsorted)
    have hopen : ascii "\x7b\n" = ch '\x7b' :: ascii "\n" := rfl
    have hclose : ascii "\x7d" = [ch '\x7d'] := rfl
    simpa [serializeJson, hopen, hclose] using this

/-- **The text of a value denotes the value.** -/
theorem value_serializeJson (v : JsonValue D) :
    ∀ k, v.NoDouble = true → v.CleanKeys = true → v.Ordered = true →
      Value stod (serializeJson toString v k) v := by
  induction v using JsonValue.induct with
  | null => exact fun _ _ _ _ => .litNull
  | bool b =>
    intro _ _ _ _
    cases b with
    | true => exact .litTrue
    | false => exact .litFalse
  | longLong i => exact fun _ _ _ _ => .number (number_decimal i)
  | double d => exact fun _ hd _ _ => absurd hd Bool.false_ne_true
  | string s => exact fun _ _ _ _ => .string ⟨_, stringBody_escape s, rfl⟩
  | array arr ih =>
    intro k hd hk ho
    have hd' := (JsonValue.all_array.mp hd).2
    have hk' := (JsonValue.all_array.mp hk).2
    have ho' := (JsonValue.all_array.mp ho).2
    exact value_array (List.forall₂_same.mpr fun v hv =>
      ih v hv (k + 1) (hd' v hv) (hk' v hv) (ho' v hv))
  | object obj ih =>
    intro k hd hk ho
    have hd' := (JsonValue.all_object.mp hd).2
    obtain ⟨hkeys, hk'⟩ := JsonValue.all_object.mp hk
    obtain ⟨hsorted, ho'⟩ := JsonValue.all_object.mp ho
    refine value_object (of_decide_eq_true hsorted) fun e he => ?_
    exact ⟨stringBody_self (List.all_eq_true.mp hkeys e he),
      ih e he (k + 1) (hd' e he) (hk' e he) (ho' e he)⟩

/-- **The round trip.** Wherever the text of a value stands in an input, in front of a delimiter,
`parse_value` returns the value and leaves the position right behind the text. -/
theorem parseValue_serializeJson (toString : D → Bytes) (stod : Bytes → Except ConvError D)
    (v : JsonValue D) (hd : v.NoDouble = true) (hk : v.CleanKeys = true)
    (ho : v.Ordered = true) (k : Nat) (pre t : Bytes) (ht : Head delim t) :
    parseValue stod (Cursor.after pre (serializeJson toString v k ++ t)) =
      .ret (v, Cursor.after (pre ++ serializeJson toString v k) t) :=
  parseValue_complete (value_serializeJson v k hd hk ho) Ws.nil (reads_after pre _ t)
    (.inl ((after_rest (pre ++ serializeJson toString v k) t).symm ▸ ht))

/-- **`parse_value` reads back what `serialize_json` prints**, in any context, at every level that
leaves the product for the innermost value an `int`. -/
theorem parseValue_of_serializeJson (toString : D → Bytes) (stod : Bytes → Except ConvError D)
    (v : JsonValue D) (hd : v.NoDouble = true) (hk : v.CleanKeys = true)
    (ho : v.Ordered = true) (k : Nat) (hfits : Checked.LevelFits k v.height) (pre t : Bytes)
    (ht : Head delim t) :
    ∃ text, Checked.serializeJson toString v k = some text ∧
      parseValue stod (Cursor.after pre (text ++ t)) = .ret (v, Cursor.after (pre ++ text) t) :=
  ⟨serializeJson toString v k, by rw [Checked.serializeJson_eq, if_pos hfits],
    parseValue_serializeJson toString stod v hd hk ho k pre t ht⟩

/-- An object with an empty array, the smallest `long long` and a string that needs escapes. -/
def nestedDocument : JsonValue Float :=
  .object [(ascii "a", .array []),
    (ascii "b", .array [.longLong Int64.minValue, .string (ascii "\"\\")])]

/-- `nestedDocument` at level 3, as the one item of an array. -/
theorem parseValue_of_serializeJson_nested :
    ∃ text, Checked.serializeJson (fun _ => []) nestedDocument (3 : Nat) = some text ∧
      parseValue (fun _ => .error .invalidArgument) (Cursor.after (ascii "[") (text ++ ascii "]")) =
        .ret (nestedDocument, Cursor.after (ascii "[" ++ text) (ascii "]")) :=
  parseValue_of_serializeJson _ _ nestedDocument (by decide) (by decide) (by decide) 3 (by decide)
    _ _ ⟨_, [], rfl, rfl⟩

/-- At level `2 ^ 30` even a null has no text: `indent_level * 2` is beyond `INT_MAX`. -/
theorem serializeJson_level_overflow :
    (JsonValue.null : JsonValue Float).NoDouble = true ∧
      Checked.serializeJson (fun _ : Float => []) .null (2 ^ 30 : Nat) = none := by
  decide +kernel

end CppExamples.Json
