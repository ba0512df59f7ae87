import CppExamples.Json.Trailing

/-!
# Beginnings of values

`BeginsValue r`, `BeginsItems r`, `BeginsMembers r`: with some bytes behind it, `r` is a value
behind white space, an item list, a member list. There is one lemma for each place where a text may
break off in an array or an object. They say how the beginning of a part is a beginning of the
whole: `array`, `cons`, `member`, `object`.

`BeginsValue.document`: the beginnings of values are beginnings of documents.
-/

namespace CppExamples.Json

open Lib Lib.Cursor

variable {D : Type} {stod : Bytes → Except ConvError D} {r w w₁ w₂ w' u lit k : Bytes}
  {v : JsonValue D}

/-- With some bytes behind it, `r` is a string literal behind white space. -/
def BeginsString (r : Bytes) : Prop := ∃ t w u x, Ws w ∧ StringLit u x ∧ r ++ t = w ++ u

/-- With some bytes behind it, `r` is a value behind white space. -/
def BeginsValue (stod : Bytes → Except ConvError D) (r : Bytes) : Prop :=
  ∃ t w u v, Ws w ∧ Value stod u v ∧ r ++ t = w ++ u

/-- With some bytes behind it, `r` is an item list. -/
def BeginsItems (stod : Bytes → Except ConvError D) (r : Bytes) : Prop :=
  ∃ t vs, Items stod (r ++ t) vs

/-- With some bytes behind it, `r` is a member list. -/
def BeginsMembers (stod : Bytes → Except ConvError D) (r : Bytes) : Prop :=
  ∃ t ms, Members stod (r ++ t) ms

/-- With some bytes behind it, `r` is a document. -/
def BeginsDocument (stod : Bytes → Except ConvError D) (r : Bytes) : Prop :=
  ∃ t v, parse stod (r ++ t) = .ret v

theorem BeginsString.of_ws (hw : Ws w) : BeginsString w :=
  ⟨[ch '"', ch '"'], w, [ch '"', ch '"'], [], hw, ⟨[], .nil, rfl⟩, rfl⟩

theorem BeginsString.value (h : BeginsString r) : BeginsValue stod r := by
  obtain ⟨t, w, u, x, hw, hu, hr⟩ := h
  exact ⟨t, w, u, .string x, hw, .string hu, hr⟩

namespace BeginsValue

theorem null (hw : Ws w) : BeginsValue stod (w ++ ascii "null") :=
  ⟨[], w, ascii "null", .null, hw, .litNull, List.append_nil _⟩

theorem of_ws (hw : Ws w) : BeginsValue stod w :=
  ⟨ascii "null", w, ascii "null", .null, hw, .litNull, rfl⟩

theorem ws_append (hw : Ws w) (h : BeginsValue stod r) : BeginsValue stod (w ++ r) := by
  obtain ⟨t, w', u, v, hw', hu, hr⟩ := h
  exact ⟨t, w ++ w', u, v, hw.append hw', hu, by rw [List.append_assoc, hr, List.append_assoc]⟩

/-- **The beginning of a value is the beginning of a document.** -/
theorem document (h : BeginsValue stod r) : BeginsDocument stod r := by
  obtain ⟨t, w, u, v, hw, hu, hr⟩ := h
  refine ⟨t ++ [0x20], v, parse_iff.mpr ⟨w, u, [0x20], hw, hu, ws_of_all rfl, ?_, fun h => ?_⟩⟩
  · rw [← List.append_assoc, hr]
  · exact absurd h (List.cons_ne_nil _ _)

end BeginsValue

/-! ## Arrays -/

theorem BeginsValue.items (h : BeginsValue stod r) : BeginsItems stod r := by
  obtain ⟨t, w, u, v, hw, hu, hr⟩ := h
  have hone : Items stod (w ++ u ++ []) [v] := .one hw hu Ws.nil
  exact ⟨t, [v], by rwa [hr, ← List.append_nil (w ++ u)]⟩

theorem BeginsItems.of_item (hw : Ws w) (hu : Value stod u v) (hw' : Ws w') :
    BeginsItems stod (w ++ u ++ w') :=
  ⟨[], [v], by rw [List.append_nil]; exact .one hw hu hw'⟩

/-- Behind an item and a comma. -/
theorem BeginsItems.cons (hw : Ws w) (hu : Value stod u v) (hw' : Ws w')
    (h : BeginsItems stod r) : BeginsItems stod (w ++ u ++ w' ++ [ch ','] ++ r) := by
  obtain ⟨t, vs, hitems⟩ := h
  have hcons : Items stod _ _ := .cons hw hu hw' hitems
  exact ⟨t, v :: vs, by simpa using hcons⟩

/-- Behind the opening bracket. -/
theorem BeginsItems.array (hw : Ws w) (hw₁ : Ws w₁) (h : BeginsItems stod r) :
    BeginsValue stod (w ++ [ch '['] ++ w₁ ++ r) := by
  obtain ⟨t, vs, hitems⟩ := h
  exact ⟨t ++ [ch ']'], w, _, .array vs, hw, .array (hitems.ws_append hw₁), by simp⟩

/-! ## Objects -/

theorem BeginsMembers.of_key (hw : Ws w) (hlit : StringLit lit k) (hw₁ : Ws w₁) :
    BeginsMembers stod (w ++ lit ++ w₁) := by
  have hone : Members stod _ _ := .one hw hlit hw₁ Ws.nil .litNull Ws.nil
  exact ⟨ch ':' :: ascii "null", [(k, .null)], by simpa using hone⟩

theorem BeginsString.members (h : BeginsString r) : BeginsMembers stod r := by
  obtain ⟨t, w, lit, k, hw, hlit, hr⟩ := h
  have hone : Members stod _ _ := .one hw hlit Ws.nil Ws.nil .litNull Ws.nil
  refine ⟨t ++ ch ':' :: ascii "null", [(k, .null)], ?_⟩
  rw [← List.append_assoc, hr]
  simpa using hone

/-- Behind a key and a colon. -/
theorem BeginsValue.member (hw : Ws w) (hlit : StringLit lit k) (hw₁ : Ws w₁)
    (h : BeginsValue stod r) : BeginsMembers stod (w ++ lit ++ w₁ ++ [ch ':'] ++ r) := by
  obtain ⟨t, w₂, u, v, hw₂, hu, hr⟩ := h
  have hone : Members stod _ _ := .one hw hlit hw₁ hw₂ hu Ws.nil
  refine ⟨t, [(k, v)], ?_⟩
  rw [List.append_assoc, hr]
  simpa using hone

theorem BeginsMembers.of_member (hw : Ws w) (hlit : StringLit lit k) (hw₁ : Ws w₁) (hw₂ : Ws w₂)
    (hu : Value stod u v) (hw' : Ws w') :
    BeginsMembers stod (w ++ lit ++ w₁ ++ [ch ':'] ++ w₂ ++ u ++ w') := by
  have hone : Members stod _ _ := .one hw hlit hw₁ hw₂ hu hw'
  exact ⟨[], [(k, v)], by simpa using hone⟩

/-- Behind a member and a comma. -/
theorem BeginsMembers.cons (hw : Ws w) (hlit : StringLit lit k) (hw₁ : Ws w₁) (hw₂ : Ws w₂)
    (hu : Value stod u v) (hw' : Ws w') (h : BeginsMembers stod r) :
    BeginsMembers stod (w ++ lit ++ w₁ ++ [ch ':'] ++ w₂ ++ u ++ w' ++ [ch ','] ++ r) := by
  obtain ⟨t, ms, hmembers⟩ := h
  have hcons : Members stod _ _ := .cons hw hlit hw₁ hw₂ hu hw' hmembers
  exact ⟨t, (k, v) :: ms, by simpa using hcons⟩

/-- Behind the opening brace. -/
theorem BeginsMembers.object (hw : Ws w) (hw₁ : Ws w₁) (h : BeginsMembers stod r) :
    BeginsValue stod (w ++ [ch '\x7b'] ++ w₁ ++ r) := by
  obtain ⟨t, ms, hmembers⟩ := h
  have hlast : LastWins ms (OrdMap.ofMembers ms) :=
    ⟨OrdMap.sorted_ofMembers ms, OrdMap.find?_ofMembers ms⟩
  exact ⟨t ++ [ch '\x7d'], w, _, _, hw, .object (hmembers.ws_append hw₁) hlast, by simp⟩

end CppExamples.Json
