import CppExamples.Json.Value

/-!
# The accepted language

The texts the parser is meant to accept, and the value each of them denotes, as a grammar over
byte strings. Nothing here refers to the parser.

* `Ws`: `ws*`, the bytes `0x20` and `0x09`–`0x0D`.
* `StringBody u s`: `u` is what stands between the quotes of a string literal, `s` the string it
  denotes.
* `Number u v`: a token `-? D* ('.' D*)? ([eE] [+-]? D*)?` that starts with `-` or a digit and
  converts. Without fraction and exponent it has a digit and lies in `[-2⁶³, 2⁶³)`; any other token
  is one `std::stod` accepts (a parameter, any partial function on tokens).
* `Value`, `Items`, `Members`: values, nonempty item lists, nonempty member lists.
* `LastWins ms obj`: the map `obj` holds, for each key, the value of the last member of `ms` with
  that key.
* `Text s v`: `ws* value ws*`.
-/

namespace CppExamples.Json

open Lib

/-- `ws*`. -/
def Ws (w : Bytes) : Prop := ∀ c ∈ w, c = 0x20 ∨ (0x09 ≤ c ∧ c ≤ 0x0D)

/-- A run of decimal digits, `D*`. -/
def Digits (ds : Bytes) : Prop := ∀ c ∈ ds, 0x30 ≤ c ∧ c ≤ 0x39

/-- `Escape e c`: a backslash and `e` denote `c`. -/
inductive Escape : UInt8 → UInt8 → Prop
  | quote : Escape (ch '"') (ch '"')
  | backslash : Escape (ch '\\') (ch '\\')
  | slash : Escape (ch '/') (ch '/')
  | b : Escape (ch 'b') 0x08
  | f : Escape (ch 'f') 0x0C
  | n : Escape (ch 'n') 0x0A
  | r : Escape (ch 'r') 0x0D
  | t : Escape (ch 't') 0x09

/-- What stands between the quotes of a string literal, and the string it denotes. -/
inductive StringBody : Bytes → Bytes → Prop
  | nil : StringBody [] []
  | plain {c : UInt8} {u s : Bytes} (hq : c ≠ ch '"') (hb : c ≠ ch '\\') (h : StringBody u s) :
      StringBody (c :: u) (c :: s)
  | escape {e c : UInt8} {u s : Bytes} (he : Escape e c) (h : StringBody u s) :
      StringBody (ch '\\' :: e :: u) (c :: s)

/-- A string literal, and the string it denotes. -/
def StringLit (u s : Bytes) : Prop := ∃ b, StringBody b s ∧ u = ch '"' :: b ++ [ch '"']

/-- `('.' D*)?`; the flag says whether it is there. -/
inductive Fraction : Bytes → Bool → Prop
  | none : Fraction [] false
  | some {ds : Bytes} (h : Digits ds) : Fraction (ch '.' :: ds) true

/-- `[+-]?`. -/
def Sign (u : Bytes) : Prop := u = [] ∨ u = [ch '+'] ∨ u = [ch '-']

/-- `([eE] [+-]? D*)?`; the flag says whether it is there. -/
inductive Exponent : Bytes → Bool → Prop
  | none : Exponent [] false
  | some {e : UInt8} {sg ds : Bytes} (he : e = ch 'e' ∨ e = ch 'E') (hs : Sign sg)
      (h : Digits ds) : Exponent (e :: sg ++ ds) true

section Values

variable {D : Type} (stod : Bytes → Except ConvError D)

/-- A number token, and the value it converts to. -/
inductive Number : Bytes → JsonValue D → Prop
  | longLong {neg : Bool} {ds : Bytes} (hd : Digits ds) (hne : ds ≠ [])
      (hlo : -2 ^ 63 ≤ signedValue neg ds) (hhi : signedValue neg ds < 2 ^ 63) :
      Number (signed neg ds) (.longLong (Int64.ofInt (signedValue neg ds)))
  | double {neg : Bool} {ds fr ex : Bytes} {bf be : Bool} {d : D} (hd : Digits ds)
      (hstart : neg = true ∨ ds ≠ []) (hf : Fraction fr bf) (he : Exponent ex be)
      (hpart : (bf || be) = true) (hc : stod (signed neg ds ++ fr ++ ex) = .ok d) :
      Number (signed neg ds ++ fr ++ ex) (.double d)

/-- `obj` is the map of the members `ms`: for a repeated key the last member wins. -/
def LastWins (ms : List (Bytes × JsonValue D)) (obj : List (Bytes × JsonValue D)) : Prop :=
  OrdMap.Sorted obj ∧ ∀ k, OrdMap.find? obj k = OrdMap.find? ms.reverse k

mutual

/-- `value`, and what it denotes. -/
inductive Value : Bytes → JsonValue D → Prop
  | string {u s : Bytes} (h : StringLit u s) : Value u (.string s)
  | number {u : Bytes} {v : JsonValue D} (h : Number stod u v) : Value u v
  | emptyArray {w : Bytes} (h : Ws w) : Value (ch '[' :: w ++ [ch ']']) (.array [])
  | array {t : Bytes} {vs : List (JsonValue D)} (h : Items t vs) :
      Value (ch '[' :: t ++ [ch ']']) (.array vs)
  | emptyObject {w : Bytes} (h : Ws w) : Value (ch '\x7b' :: w ++ [ch '\x7d']) (.object [])
  | object {t : Bytes} {ms obj : List (Bytes × JsonValue D)} (h : Members t ms)
      (hobj : LastWins ms obj) : Value (ch '\x7b' :: t ++ [ch '\x7d']) (.object obj)
  | litTrue : Value (ascii "true") (.bool true)
  | litFalse : Value (ascii "false") (.bool false)
  | litNull : Value (ascii "null") .null

/-- `ws* value ws* (',' ws* value ws*)*`. -/
inductive Items : Bytes → List (JsonValue D) → Prop
  | one {w u w' : Bytes} {v : JsonValue D} (hw : Ws w) (hv : Value u v) (hw' : Ws w') :
      Items (w ++ u ++ w') [v]
  | cons {w u w' t : Bytes} {v : JsonValue D} {vs : List (JsonValue D)} (hw : Ws w)
      (hv : Value u v) (hw' : Ws w') (ht : Items t vs) :
      Items (w ++ u ++ w' ++ ch ',' :: t) (v :: vs)

/-- `ws* member ws* (',' ws* member ws*)*` with `member = string ws* ':' ws* value`. -/
inductive Members : Bytes → List (Bytes × JsonValue D) → Prop
  | one {w q k w₁ w₂ u w' : Bytes} {v : JsonValue D} (hw : Ws w) (hk : StringLit q k)
      (hw₁ : Ws w₁) (hw₂ : Ws w₂) (hv : Value u v) (hw' : Ws w') :
      Members (w ++ q ++ w₁ ++ ch ':' :: (w₂ ++ u ++ w')) [(k, v)]
  | cons {w q k w₁ w₂ u w' t : Bytes} {v : JsonValue D} {ms : List (Bytes × JsonValue D)}
      (hw : Ws w) (hk : StringLit q k) (hw₁ : Ws w₁) (hw₂ : Ws w₂) (hv : Value u v)
      (hw' : Ws w') (ht : Members t ms) :
      Members (w ++ q ++ w₁ ++ ch ':' :: (w₂ ++ u ++ w' ++ ch ',' :: t)) ((k, v) :: ms)

end

/-- `text = ws* value ws*`, and what it denotes. -/
def Text (s : Bytes) (v : JsonValue D) : Prop :=
  ∃ w u w', Ws w ∧ Value stod u v ∧ Ws w' ∧ s = w ++ u ++ w'

end Values

end CppExamples.Json
