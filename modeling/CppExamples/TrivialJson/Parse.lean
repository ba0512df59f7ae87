import CppExamples.Json.RoundTrip
import CppExamples.TrivialJson.Node

/-!
# The parser of `middleware` reads what `Node::serialize` prints

The two programs were written independently. Result: `parse_serialize`. The text of a tree is a
text of the parser's language and denotes the value that the tree stands for (`value_serialize`, by
induction over the tree), as long as no string contains a character that the parser would take for
the end of the string or for an escape.
-/

namespace CppExamples.TrivialJson.Node

open Lib Json

variable {D : Type} {toString : D → Bytes} {stod : Bytes → Except ConvError D}

/-- A leaf that is not a double and, if it is a string, has no `"` and no `\` before the first
NUL. -/
def readable : Node D → Bool
  | .smallString str => str.cStr.all fun c => c != ch '"' && c != ch '\\'
  | .double _ => false
  | _ => true

/-- A tree of readable leaves and lists that are not null. -/
def Readable (t : Node D) : Bool := t.all readable

/-- The loop over a list prints its elements with a comma between them, and no white space. -/
theorem items_serializeList : ∀ {o : List (Node D)}, o ≠ [] →
    (∀ t ∈ o, Value stod (serialize toString t) t.toJson) →
    Items stod (serializeList toString o true) (toJsonList o)
  | [], hne, _ => absurd rfl hne
  | [t], _, h => by
    have : Items stod _ _ := .one Ws.nil (h t List.mem_cons_self) Ws.nil
    simpa [serializeList, toJsonList] using this
  | t :: t' :: ts, _, h => by
    have ih : Items stod _ _ := items_serializeList (List.cons_ne_nil t' ts)
      fun x hx => h x (List.mem_cons_of_mem t hx)
    have : Items stod _ _ := .cons Ws.nil (h t List.mem_cons_self) Ws.nil ih
    rw [serializeList_cons_true, serializeList_cons_false]
    simpa [toJsonList] using this

theorem value_list {o : List (Node D)}
    (h : ∀ t ∈ o, Value stod (serialize toString t) t.toJson) :
    Value stod (serialize toString (.list o)) (Node.list o).toJson := by
  cases o with
  | nil =>
    have : Value stod _ (.array []) := .emptyArray Ws.nil
    exact this
  | cons t ts =>
    have : Value stod _ _ := .array (items_serializeList (List.cons_ne_nil t ts) h)
    have hopen : ascii "[" = [ch '['] := rfl
    have hclose : ascii "]" = [ch ']'] := rfl
    simpa [serialize, toJson, hopen, hclose] using this

/-- **The text of a tree denotes the value of the tree.** -/
theorem value_serialize (t : Node D) (h : t.Readable = true) :
    Value stod (serialize toString t) t.toJson := by
  induction t using Node.induct with
  | smallString str => exact .string ⟨str.cStr, stringBody_self h, rfl⟩
  | int64 i => exact .number (number_decimal i)
  | double d => exact absurd h Bool.false_ne_true
  | nullList => exact absurd h Bool.false_ne_true
  | list o ih => exact value_list fun t ht => ih t ht (all_list.mp h t ht)

/-- **The two implementations agree on the format.** The parser reads back the text of every tree
of readable strings, integers and lists. -/
theorem parse_serialize (toString : D → Bytes) (stod : Bytes → Except ConvError D) (t : Node D)
    (h : t.Readable = true) : parse stod (serialize toString t ++ [0x0A]) = .ret t.toJson :=
  parse_concat_newline.mpr
    ⟨[], serialize toString t, [], Ws.nil, value_serialize t h, Ws.nil, by simp⟩

/-- Nested lists, a string that fills its array, one that does not, and the smallest integer. -/
def nestedTree : Node Float :=
  .list [.list [], .smallString (.ofChars (ascii "Kittycat")),
    .list [.int64 Int64.minValue, .smallString (.ofChars (ascii "Cat"))], .int64 42]

theorem parse_serialize_nested :
    parse (fun _ => .error .invalidArgument) (serialize (fun _ => []) nestedTree ++ [0x0A]) =
      .ret (.array [.array [], .string (ascii "Kittycat"),
        .array [.longLong Int64.minValue, .string (ascii "Cat")], .longLong 42] :
          JsonValue Float) :=
  parse_serialize _ _ nestedTree (by decide)

end CppExamples.TrivialJson.Node
