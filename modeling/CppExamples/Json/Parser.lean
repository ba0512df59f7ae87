import CppExamples.Json.Value
import CppExamples.Lib.Cursor
import CppExamples.Lib.Outcome

/-!
# `JsonParser` (`middleware/src/nonworking_json.cpp:115-303`)

The parser object is a cursor over `json_str`: `pos ≤ json_str.length()` is carried by the
structure, and `json_str[pos]` is only read where `pos < json_str.length()` was tested.

* Each member function takes the parser before the call and returns its result with the parser
  after the call, or the exception. `skip_whitespace` and the three digit loops of `parse_number`
  are the one loop `Cursor.skipWhile`.
* `parse_value`, `parse_array` and `parse_object` call each other without a bound. They are
  modelled with a fuel argument (`parseValueN`, …), each call one unit, and `parseValue`,
  `parseArray`, `parseObject` give them `fuel p`. That this is always enough, and so that the fuel
  is not observable, is shown in `Json/Sound.lean`.
* `std::stod` is a parameter, a partial function on the number token; `std::stoll` is `stoll`.
* `isspace` and `isdigit` of a negative `char` (a byte from `0x80` on) are taken to be false.
-/

namespace CppExamples.Json

open Lib

/-- `class JsonParser`: `json_str` is the text, `pos` the position. -/
abbrev JsonParser := Cursor UInt8

/-- The exceptions of the parser. The first eight are its own `std::runtime_error`s. -/
inductive ParseError where
  | unexpectedEnd
  | expected (c got : UInt8) (pos : Nat)
  | invalidEscape
  | expectedLiteral (literal : Bytes)
  | arraySeparator
  | objectSeparator
  | unexpectedCharacter (c : UInt8) (pos : Nat)
  | extraCharacters (pos : Nat)
  | stoll (e : ConvError)
  | stod (e : ConvError)
  deriving Repr, DecidableEq

/-- `what()`, for the exceptions whose text is the parser's. -/
def ParseError.what : ParseError → Option Bytes
  | .unexpectedEnd => some (ascii "Unexpected end of input")
  | .expected c got pos =>
    some (ascii "Expected '" ++ [c] ++ ascii "', got '" ++ [got] ++ ascii "' at position " ++
      numeral pos)
  | .invalidEscape => some (ascii "Invalid escape sequence")
  | .expectedLiteral literal => some (ascii "Expected literal '" ++ literal ++ ascii "'")
  | .arraySeparator => some (ascii "Expected ',' or ']' in array")
  | .objectSeparator => some (ascii "Expected ',' or '\x7d' in object")
  | .unexpectedCharacter c pos =>
    some (ascii "Unexpected character: '" ++ [c] ++ ascii "' at position " ++ numeral pos)
  | .extraCharacters pos =>
    some (ascii "Extra characters after JSON value at position " ++ numeral pos)
  | .stoll _ => none
  | .stod _ => none

/-- A call of a member function. What it returns includes the parser after the call. -/
abbrev Call := Outcome ParseError

/-! ## The scanner -/

/-- `skip_whitespace()`. -/
def skipWhitespace (p : JsonParser) : JsonParser := p.skipWhile isspace

/-- `peek()`. -/
def peek (p : JsonParser) : Call UInt8 :=
  if h : p.pos < p.text.length then .ret p.text[p.pos] else .throw .unexpectedEnd

/-- `consume()`. -/
def consume (p : JsonParser) : Call (UInt8 × JsonParser) :=
  if h : p.pos < p.text.length then .ret (p.text[p.pos], p.next h) else .throw .unexpectedEnd

/-- `expect(c)`. -/
def expect (c : UInt8) (p : JsonParser) : Call JsonParser := do
  let p := skipWhitespace p
  let got ← peek p
  if got = c then
    let (_, p) ← consume p
    pure p
  else
    .throw (.expected c got p.pos)

/-- The `switch` on the character after a backslash. -/
def unescape (c : UInt8) : Option UInt8 :=
  if c = ch '"' then some (ch '"')
  else if c = ch '\\' then some (ch '\\')
  else if c = ch '/' then some (ch '/')
  else if c = ch 'b' then some 0x08
  else if c = ch 'f' then some 0x0C
  else if c = ch 'n' then some 0x0A
  else if c = ch 'r' then some 0x0D
  else if c = ch 't' then some 0x09
  else none

/-- `while (peek() != '"') { … }` of `parse_string`, with `peek` and `consume` written out. -/
def stringLoop (p : JsonParser) (s : Bytes) : Call (Bytes × JsonParser) :=
  if h : p.pos < p.text.length then
    if p.text[p.pos] = ch '"' then .ret (s, p)
    else if p.text[p.pos] = ch '\\' then
      if h' : (p.next h).pos < (p.next h).text.length then
        match unescape (p.next h).text[(p.next h).pos] with
        | some c => stringLoop ((p.next h).next h') (s ++ [c])
        | none => .throw .invalidEscape
      else .throw .unexpectedEnd
    else stringLoop (p.next h) (s ++ [p.text[p.pos]])
  else .throw .unexpectedEnd
termination_by p.text.length - p.pos
decreasing_by all_goals simp only [Cursor.next] at *; omega

/-- `parse_string()`. -/
def parseString (p : JsonParser) : Call (Bytes × JsonParser) := do
  let p ← expect (ch '"') p
  let (s, p) ← stringLoop p []
  let p ← expect (ch '"') p
  pure (s, p)

/-- `if (test(peek())) consume();`. -/
def optional (test : UInt8 → Bool) (p : JsonParser) : Call (Bool × JsonParser) := do
  let c ← peek p
  if test c then
    let (_, p) ← consume p
    pure (true, p)
  else
    pure (false, p)

/-- The fractional part of `parse_number`: `true` if there is one. -/
def parseFraction (p : JsonParser) : Call (Bool × JsonParser) := do
  let (isDouble, p) ← optional (· == ch '.') p
  pure (isDouble, if isDouble then p.skipWhile isdigit else p)

/-- The exponent part of `parse_number`: `true` if there is one. -/
def parseExponent (p : JsonParser) : Call (Bool × JsonParser) := do
  let (isDouble, p) ← optional (fun c => c == ch 'e' || c == ch 'E') p
  if isDouble then
    let (_, p) ← optional (fun c => c == ch '+' || c == ch '-') p
    pure (true, p.skipWhile isdigit)
  else
    pure (false, p)

/-- `json_str.substr(start_pos, pos - start_pos)`. -/
def substr (start p : JsonParser) : Bytes := start.rest.take (p.pos - start.pos)

/-- The token `parse_number` scans, and whether it has a fraction or an exponent. -/
def scanNumber (p : JsonParser) : Call (Bool × JsonParser) := do
  let (_, p) ← optional (· == ch '-') p
  let p := p.skipWhile isdigit
  let (fraction, p) ← parseFraction p
  let (exponent, p) ← parseExponent p
  pure (fraction || exponent, p)

/-- `parse_literal(literal, value)`: the loop over the characters of the literal. -/
def literalLoop (literal : Bytes) : Bytes → JsonParser → Call JsonParser
  | [], p => .ret p
  | c :: cs, p =>
    if h : p.pos < p.text.length then
      if p.text[p.pos] = c then literalLoop literal cs (p.next h)
      else .throw (.expectedLiteral literal)
    else .throw (.expectedLiteral literal)

variable {D : Type}

/-- `parse_literal(literal, value)`. -/
def parseLiteral (literal : Bytes) (value : JsonValue D) (p : JsonParser) :
    Call (JsonValue D × JsonParser) := do
  let p ← literalLoop literal literal p
  pure (value, p)

/-! ## The recursive descent -/

section Descent

variable (stod : Bytes → Except ConvError D)

/-- The conversion at the end of `parse_number`. -/
def convert (isDouble : Bool) (numStr : Bytes) : Call (JsonValue D) :=
  if isDouble then
    match stod numStr with
    | .ok d => .ret (.double d)
    | .error e => .throw (.stod e)
  else
    match Lib.stoll numStr with
    | .ok i => .ret (.longLong i)
    | .error e => .throw (.stoll e)

/-- `parse_number()`. -/
def parseNumber (p : JsonParser) : Call (JsonValue D × JsonParser) := do
  let (isDouble, q) ← scanNumber p
  let value ← convert stod isDouble (substr p q)
  pure (value, q)

mutual

/-- `parse_value()`. -/
def parseValueN : Nat → JsonParser → Call (JsonValue D × JsonParser)
  | 0, _ => .timeout
  | n + 1, p => do
    let p := skipWhitespace p
    let c ← peek p
    if c = ch '"' then
      let (s, p) ← parseString p
      pure (.string s, p)
    else if c = ch '-' ∨ isdigit c = true then parseNumber stod p
    else if c = ch '[' then parseArrayN n p
    else if c = ch '\x7b' then parseObjectN n p
    else if c = ch 't' then parseLiteral (ascii "true") (.bool true) p
    else if c = ch 'f' then parseLiteral (ascii "false") (.bool false) p
    else if c = ch 'n' then parseLiteral (ascii "null") .null p
    else .throw (.unexpectedCharacter c p.pos)

/-- `parse_array()`. -/
def parseArrayN : Nat → JsonParser → Call (JsonValue D × JsonParser)
  | 0, _ => .timeout
  | n + 1, p => do
    let p ← expect (ch '[') p
    let p := skipWhitespace p
    let c ← peek p
    let (arr, p) ← (if c ≠ ch ']' then arrayLoopN n p [] else pure ([], p))
    let p ← expect (ch ']') p
    pure (.array arr, p)

/-- `while (true) { … }` of `parse_array`. -/
def arrayLoopN : Nat → JsonParser → List (JsonValue D) → Call (List (JsonValue D) × JsonParser)
  | 0, _, _ => .timeout
  | n + 1, p, arr => do
    let (value, p) ← parseValueN n p
    let arr := arr ++ [value]
    let p := skipWhitespace p
    let c ← peek p
    if c = ch ',' then
      let (_, p) ← consume p
      arrayLoopN n p arr
    else if c = ch ']' then pure (arr, p)
    else .throw .arraySeparator

/-- `parse_object()`. -/
def parseObjectN : Nat → JsonParser → Call (JsonValue D × JsonParser)
  | 0, _ => .timeout
  | n + 1, p => do
    let p ← expect (ch '\x7b') p
    let p := skipWhitespace p
    let c ← peek p
    let (obj, p) ← (if c ≠ ch '\x7d' then objectLoopN n p [] else pure ([], p))
    let p ← expect (ch '\x7d') p
    pure (.object obj, p)

/-- `while (true) { … }` of `parse_object`. -/
def objectLoopN : Nat → JsonParser → List (Bytes × JsonValue D) →
    Call (List (Bytes × JsonValue D) × JsonParser)
  | 0, _, _ => .timeout
  | n + 1, p, obj => do
    let (key, p) ← parseString p
    let p ← expect (ch ':') p
    let (value, p) ← parseValueN n p
    let obj := OrdMap.assign obj key value
    let p := skipWhitespace p
    let c ← peek p
    if c = ch ',' then
      let (_, p) ← consume p
      objectLoopN n p obj
    else if c = ch '\x7d' then pure (obj, p)
    else .throw .objectSeparator

end

/-- Three units for each byte that is left. -/
def fuel (p : JsonParser) : Nat := 3 * p.rest.length + 3

/-- `parse_value()`. -/
def parseValue (p : JsonParser) : Call (JsonValue D × JsonParser) := parseValueN stod (fuel p) p

/-- `parse_array()`. -/
def parseArray (p : JsonParser) : Call (JsonValue D × JsonParser) := parseArrayN stod (fuel p) p

/-- `parse_object()`. -/
def parseObject (p : JsonParser) : Call (JsonValue D × JsonParser) := parseObjectN stod (fuel p) p

/-- `JsonParser(json).parse()`. -/
def parse (json : Bytes) : Call (JsonValue D) := do
  let (result, p) ← parseValue stod (Cursor.start json)
  let p := skipWhitespace p
  if p.pos ≠ p.text.length then .throw (.extraCharacters p.pos)
  else pure result

end Descent

end CppExamples.Json
