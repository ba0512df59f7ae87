import CppExamples.Lib.Ascii
import CppExamples.Lib.CInt
import CppExamples.Lib.OrdMap

/-!
# `JsonValue` and its text (`middleware/src/nonworking_json.cpp`)

Model of the data type (`:18-112`) and of `serialize_json` (`:306-358`).

* The `std::variant` is the inductive type, one constructor per alternative. `unique_ptr` members
  are deep values (the copy constructor copies them), so a tree models them. `JsonObject` is a
  `std::map`, the list of its entries in key order; `Ordered` says so at every depth.
* `double` is a type parameter `D`, and `std::to_string(double)` is a parameter of the serializer.
* `indent_level` is an `int`, and every call computes `indent_level * 2`, for a `null` too:
  `Checked.serializeJson`. What it prints, where every product is in range, is `serializeJson`, the
  text, with the level as a natural number: `Checked.serializeJson_eq`. At level 0 every product is,
  for values with less than `2 ^ 30` arrays and objects around the innermost one.

`all p` is the one traversal: `p` holds of the value and of every value inside it. The conditions
on values that the results need (`Ordered`, `NoDouble`, conditions on keys) are instances of it.
-/

namespace CppExamples.Json

open Lib

/-- `struct JsonValue`: the alternatives of its variant. -/
inductive JsonValue (D : Type) where
  | null
  | bool (b : Bool)
  | longLong (i : Int64)
  | double (d : D)
  | string (s : Bytes)
  | array (arr : List (JsonValue D))
  | object (obj : List (Bytes × JsonValue D))

variable {D : Type}

namespace JsonValue

/-! ## Conditions on a value and everything inside it -/

mutual

/-- `p` holds of the value and of every value inside it. -/
def all (p : JsonValue D → Bool) : JsonValue D → Bool
  | .array arr => p (.array arr) && allItems p arr
  | .object obj => p (.object obj) && allMembers p obj
  | .null => p .null
  | .bool b => p (.bool b)
  | .longLong i => p (.longLong i)
  | .double d => p (.double d)
  | .string s => p (.string s)

def allItems (p : JsonValue D → Bool) : List (JsonValue D) → Bool
  | [] => true
  | v :: vs => all p v && allItems p vs

def allMembers (p : JsonValue D → Bool) : List (Bytes × JsonValue D) → Bool
  | [] => true
  | (_, v) :: ms => all p v && allMembers p ms

end

/-- Not the `double` alternative. -/
def notDouble : JsonValue D → Bool
  | .double _ => false
  | _ => true

/-- The entries of an object are in key order, each key once. -/
def inKeyOrder : JsonValue D → Bool
  | .object obj => decide (OrdMap.Sorted obj)
  | _ => true

/-- Every byte of every key of an object satisfies `f`. -/
def keyBytes (f : UInt8 → Bool) : JsonValue D → Bool
  | .object obj => obj.all fun e => e.1.all f
  | _ => true

/-- `sep` stands somewhere in the text. -/
def occurs (sep : Bytes) : Bytes → Bool
  | [] => sep.isPrefixOf []
  | c :: s => sep.isPrefixOf (c :: s) || occurs sep s

/-- No key of an object contains what is printed between a key and its value. -/
def keysApart : JsonValue D → Bool
  | .object obj => obj.all fun e => !occurs (ascii "\": ") e.1
  | _ => true

/-- Every object is a `std::map`: what every value of the source satisfies. -/
def Ordered (v : JsonValue D) : Bool := v.all inKeyOrder

/-- Built without the `double` alternative. -/
def NoDouble (v : JsonValue D) : Bool := v.all notDouble

/-- No key contains `"` or `\`. -/
def CleanKeys (v : JsonValue D) : Bool := v.all (keyBytes fun c => c != ch '"' && c != ch '\\')

/-- No key contains `": `. -/
def SeparatorFreeKeys (v : JsonValue D) : Bool := v.all keysApart

mutual

/-- How many arrays and objects the innermost value stands in. -/
def height : JsonValue D → Nat
  | .array arr => heightItems arr
  | .object obj => heightMembers obj
  | .null => 0
  | .bool _ => 0
  | .longLong _ => 0
  | .double _ => 0
  | .string _ => 0

def heightItems : List (JsonValue D) → Nat
  | [] => 0
  | v :: vs => max (height v + 1) (heightItems vs)

def heightMembers : List (Bytes × JsonValue D) → Nat
  | [] => 0
  | (_, v) :: ms => max (height v + 1) (heightMembers ms)

end

theorem occurs_append (sep : Bytes) (a b : Bytes) : occurs sep (a ++ (sep ++ b)) = true := by
  induction a with
  | nil =>
    rw [List.nil_append]
    cases h : sep ++ b with
    | nil => simp [occurs, (List.append_eq_nil_iff.mp h).1]
    | cons c s => simp [occurs, ← h]
  | cons c a ih => simp [occurs, ih]

theorem allItems_iff {p : JsonValue D → Bool} {arr : List (JsonValue D)} :
    allItems p arr = true ↔ ∀ v ∈ arr, v.all p = true := by
  induction arr with
  | nil => simp [allItems]
  | cons v vs ih => simp [allItems, ih]

theorem allMembers_iff {p : JsonValue D → Bool} {obj : List (Bytes × JsonValue D)} :
    allMembers p obj = true ↔ ∀ e ∈ obj, e.2.all p = true := by
  induction obj with
  | nil => simp [allMembers]
  | cons e ms ih => simp [allMembers, ih]

theorem all_array {p : JsonValue D → Bool} {arr : List (JsonValue D)} :
    (JsonValue.array arr).all p = true ↔ p (.array arr) = true ∧ ∀ v ∈ arr, v.all p = true := by
  rw [all, Bool.and_eq_true, allItems_iff]

theorem all_object {p : JsonValue D → Bool} {obj : List (Bytes × JsonValue D)} :
    (JsonValue.object obj).all p = true ↔
      p (.object obj) = true ∧ ∀ e ∈ obj, e.2.all p = true := by
  rw [all, Bool.and_eq_true, allMembers_iff]

/-- Induction over a value: the items of an array and the values of an object come first. -/
theorem induct {P : JsonValue D → Prop} (null : P .null) (bool : ∀ b, P (.bool b))
    (longLong : ∀ i, P (.longLong i)) (double : ∀ d, P (.double d)) (string : ∀ s, P (.string s))
    (array : ∀ arr, (∀ v ∈ arr, P v) → P (.array arr))
    (object : ∀ obj, (∀ e ∈ obj, P e.2) → P (.object obj)) (v : JsonValue D) : P v :=
  @JsonValue.rec D P (fun arr => ∀ v ∈ arr, P v) (fun obj => ∀ e ∈ obj, P e.2) (fun e => P e.2)
    null bool longLong double string array object
    (fun _ h => absurd h List.not_mem_nil)
    (fun _ _ hv hvs => List.forall_mem_cons.mpr ⟨hv, hvs⟩)
    (fun _ h => absurd h List.not_mem_nil)
    (fun _ _ he hms => List.forall_mem_cons.mpr ⟨he, hms⟩)
    (fun _ _ hv => hv) v

end JsonValue

/-! ## The text -/

/-- `indent_str` at level `k`. -/
def indentStr (k : Nat) : Bytes := List.replicate (k * 2) (ch ' ')

/-- What the string branch prints for one character. -/
def escapeChar (c : UInt8) : Bytes :=
  if c = ch '"' then ascii "\\\""
  else if c = ch '\\' then ascii "\\\\"
  else [c]

/-- The loop of the string branch: `"` and `\` get a backslash. -/
def escape (s : Bytes) : Bytes := s.flatMap escapeChar

/-- The double branch: the text with a point in it loses its trailing zeros, and then the point if
it comes last. -/
def trimZeros (result : Bytes) : Bytes :=
  if ch '.' ∈ result then
    let result := result.rdropWhile (· == ch '0')
    if result.getLast? = some (ch '.') then result.dropLast else result
  else result

section Serialize

variable (toString : D → Bytes)

mutual

/-- The text of `value` at level `k`. -/
def serializeJson : JsonValue D → Nat → Bytes
  | .null, _ => ascii "null"
  | .bool b, _ => if b then ascii "true" else ascii "false"
  | .longLong i, _ => decimal i.toInt
  | .double d, _ => trimZeros (toString d)
  | .string s, _ => [ch '"'] ++ escape s ++ [ch '"']
  | .array arr, k =>
    ascii "[\n" ++ serializeItems arr k true ++ (ascii "\n" ++ indentStr k ++ ascii "]")
  | .object obj, k =>
    ascii "\x7b\n" ++ serializeMembers obj k true ++ (ascii "\n" ++ indentStr k ++ ascii "\x7d")

/-- The loop over the items of an array. -/
def serializeItems : List (JsonValue D) → Nat → Bool → Bytes
  | [], _, _ => []
  | item :: items, k, first =>
    (if first then [] else ascii ",\n") ++
      (indentStr k ++ ascii "  " ++ serializeJson item (k + 1)) ++ serializeItems items k false

/-- The loop over the entries of an object. The key is printed as it is. -/
def serializeMembers : List (Bytes × JsonValue D) → Nat → Bool → Bytes
  | [], _, _ => []
  | (key, value) :: members, k, first =>
    (if first then [] else ascii ",\n") ++
      (indentStr k ++ ascii "  \"" ++ key ++ ascii "\": " ++ serializeJson value (k + 1)) ++
        serializeMembers members k false

end

end Serialize

/-! ## `serialize_json` -/

namespace Checked

/-- `std::string indent_str(indent_level * 2, ' ')`. A negative size is converted to a `size_t` that
no string has. -/
def indentStr (indentLevel : Int) : Option Bytes := do
  let size ← CInt.mul indentLevel 2
  if 0 ≤ size then some (List.replicate size.toNat (ch ' ')) else none

variable (toString : D → Bytes)

mutual

/-- `serialize_json(value, indent_level)`. -/
def serializeJson (value : JsonValue D) (indentLevel : Int) : Option Bytes := do
  let indent ← indentStr indentLevel
  match value with
  | .null => return ascii "null"
  | .bool b => return if b then ascii "true" else ascii "false"
  | .longLong i => return decimal i.toInt
  | .double d => return trimZeros (toString d)
  | .string s => return [ch '"'] ++ escape s ++ [ch '"']
  | .array arr =>
    let items ← serializeItems arr indent indentLevel true
    return ascii "[\n" ++ items ++ (ascii "\n" ++ indent ++ ascii "]")
  | .object obj =>
    let members ← serializeMembers obj indent indentLevel true
    return ascii "\x7b\n" ++ members ++ (ascii "\n" ++ indent ++ ascii "\x7d")

/-- The loop over the items of an array. -/
def serializeItems (items : List (JsonValue D)) (indent : Bytes) (indentLevel : Int)
    (first : Bool) : Option Bytes :=
  match items with
  | [] => some []
  | item :: items => do
    let level ← CInt.add indentLevel 1
    let text ← serializeJson item level
    let rest ← serializeItems items indent indentLevel false
    return (if first then [] else ascii ",\n") ++ (indent ++ ascii "  " ++ text) ++ rest

/-- The loop over the entries of an object. The key is printed as it is. -/
def serializeMembers (members : List (Bytes × JsonValue D)) (indent : Bytes) (indentLevel : Int)
    (first : Bool) : Option Bytes :=
  match members with
  | [] => some []
  | (key, value) :: members => do
    let level ← CInt.add indentLevel 1
    let text ← serializeJson value level
    let rest ← serializeMembers members indent indentLevel false
    return (if first then [] else ascii ",\n") ++
      (indent ++ ascii "  \"" ++ key ++ ascii "\": " ++ text) ++ rest

end

/-! ### It prints the text, or overflows -/

/-- The level `k + n` has an indentation. -/
abbrev LevelFits (k n : Nat) : Prop := ((2 * (k + n) : Nat) : Int) ≤ CInt.intMax

theorem indentStr_eq (k : Nat) :
    indentStr k = if LevelFits k 0 then some (Json.indentStr k) else none := by
  unfold indentStr CInt.mul CInt.checked
  by_cases hk : LevelFits k 0
  · have hrange : CInt.intMin ≤ (k : Int) * 2 ∧ (k : Int) * 2 ≤ CInt.intMax := by
      unfold LevelFits CInt.intMax at hk
      unfold CInt.intMin CInt.intMax
      omega
    rw [if_pos hk, if_pos hrange, Option.bind_eq_bind, Option.bind_some, if_pos (by omega)]
    rfl
  · have hrange : ¬ (CInt.intMin ≤ (k : Int) * 2 ∧ (k : Int) * 2 ≤ CInt.intMax) := by
      unfold LevelFits CInt.intMax at hk
      unfold CInt.intMax
      omega
    rw [if_neg hk, if_neg hrange]
    rfl

theorem add_one_eq {k n : Nat} (h : LevelFits k n) : CInt.add k 1 = some ((k + 1 : Nat) : Int) := by
  unfold LevelFits CInt.intMax at h
  rw [CInt.add, CInt.checked_eq_some (by unfold CInt.intMin; omega) (by unfold CInt.intMax; omega)]
  rfl

variable {toString : D → Bytes}

theorem serializeItems_eq {arr : List (JsonValue D)} (h : ∀ v ∈ arr, ∀ k : Nat,
      serializeJson toString v k =
        if LevelFits k v.height then some (Json.serializeJson toString v k) else none)
    {k : Nat} (hk : LevelFits k 0) (first : Bool) :
    serializeItems toString arr (Json.indentStr k) k first =
      if LevelFits k (JsonValue.heightItems arr) then
        some (Json.serializeItems toString arr k first) else none := by
  induction arr generalizing first with
  | nil => rw [JsonValue.heightItems, if_pos hk, serializeItems, Json.serializeItems]
  | cons v vs ih =>
    rw [List.forall_mem_cons] at h
    rw [serializeItems, add_one_eq hk, Option.bind_eq_bind, Option.bind_some, h.1, ih h.2,
      JsonValue.heightItems]
    have hmax : LevelFits k (max (v.height + 1) (JsonValue.heightItems vs)) ↔
        LevelFits (k + 1) v.height ∧ LevelFits k (JsonValue.heightItems vs) := by
      unfold LevelFits
      omega
    by_cases hv : LevelFits (k + 1) v.height
    · by_cases hvs : LevelFits k (JsonValue.heightItems vs)
      · rw [if_pos hv, if_pos hvs, if_pos (hmax.mpr ⟨hv, hvs⟩)]
        rfl
      · rw [if_pos hv, if_neg hvs, if_neg fun hboth => hvs (hmax.mp hboth).2]
        rfl
    · rw [if_neg hv, if_neg fun hboth => hv (hmax.mp hboth).1]
      rfl

theorem serializeMembers_eq {obj : List (Bytes × JsonValue D)} (h : ∀ e ∈ obj, ∀ k : Nat,
      serializeJson toString e.2 k =
        if LevelFits k e.2.height then some (Json.serializeJson toString e.2 k) else none)
    {k : Nat} (hk : LevelFits k 0) (first : Bool) :
    serializeMembers toString obj (Json.indentStr k) k first =
      if LevelFits k (JsonValue.heightMembers obj) then
        some (Json.serializeMembers toString obj k first) else none := by
  induction obj generalizing first with
  | nil => rw [JsonValue.heightMembers, if_pos hk, serializeMembers, Json.serializeMembers]
  | cons e ms ih =>
    obtain ⟨key, v⟩ := e
    rw [List.forall_mem_cons] at h
    rw [serializeMembers, add_one_eq hk, Option.bind_eq_bind, Option.bind_some, h.1, ih h.2,
      JsonValue.heightMembers]
    have hmax : LevelFits k (max (v.height + 1) (JsonValue.heightMembers ms)) ↔
        LevelFits (k + 1) v.height ∧ LevelFits k (JsonValue.heightMembers ms) := by
      unfold LevelFits
      omega
    by_cases hv : LevelFits (k + 1) v.height
    · by_cases hms : LevelFits k (JsonValue.heightMembers ms)
      · rw [if_pos hv, if_pos hms, if_pos (hmax.mpr ⟨hv, hms⟩)]
        rfl
      · rw [if_pos hv, if_neg hms, if_neg fun hboth => hms (hmax.mp hboth).2]
        rfl
    · rw [if_neg hv, if_neg fun hboth => hv (hmax.mp hboth).1]
      rfl

/-- **`serialize_json` prints the text where `2 * (k + height)` is an `int`**, and is not defined
elsewhere. -/
theorem serializeJson_eq (toString : D → Bytes) (v : JsonValue D) :
    ∀ k : Nat, serializeJson toString v k =
      if LevelFits k v.height then some (Json.serializeJson toString v k) else none := by
  induction v using JsonValue.induct with
  | null | bool | longLong | double | string =>
    intro k
    rw [serializeJson, indentStr_eq, JsonValue.height]
    split <;> rfl
  | array arr ih =>
    intro k
    rw [serializeJson, indentStr_eq, JsonValue.height]
    by_cases hk : LevelFits k 0
    · rw [if_pos hk, Option.bind_eq_bind, Option.bind_some]
      dsimp only
      rw [serializeItems_eq ih hk]
      split <;> rfl
    · have hlow : ¬ LevelFits k (JsonValue.heightItems arr) := by
        unfold LevelFits at hk ⊢
        omega
      rw [if_neg hk, if_neg hlow]
      rfl
  | object obj ih =>
    intro k
    rw [serializeJson, indentStr_eq, JsonValue.height]
    by_cases hk : LevelFits k 0
    · rw [if_pos hk, Option.bind_eq_bind, Option.bind_some]
      dsimp only
      rw [serializeMembers_eq ih hk]
      split <;> rfl
    · have hlow : ¬ LevelFits k (JsonValue.heightMembers obj) := by
        unfold LevelFits at hk ⊢
        omega
      rw [if_neg hk, if_neg hlow]
      rfl

end Checked

end CppExamples.Json
