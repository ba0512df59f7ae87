import CppExamples.Json.Exact
import CppExamples.Lib.Walk

/-!
# The parser over raw memory

`Json/Parser.lean` keeps `pos ≤ json_str.length()` in the type of the parser. Here the member
functions are taken once more as they stand: `pos` is a number, `json_str[pos]` reads the memory at
that address whatever is there, only the tests of the source are made, and each of its loops and
recursive calls goes on without a bound. `mem` holds `json_str` at the addresses below `len` and
anything behind.

The loops take a fuel argument, like the recursive calls; `n` is the fuel of a loop. As in the
source, `peek()` is called again where the source calls it again.

`safeAt`: no member function reads behind the end of the text or moves `pos` back, from any
position in the text, whatever the fuel. There is one lemma per function (`safe_…`); the tests of
the source are what the rule for a single read asks for.
-/

namespace CppExamples.Json.Raw

open Lib

/-- A call of a member function. -/
abbrev Prog := Walk ParseError

section Scanner

variable (mem : Nat → UInt8) (len : Nat)

/-- `skip_whitespace()`. -/
def skipWhitespace : Nat → Prog Unit
  | 0 => .timeout
  | n + 1 => do
    let pos ← .pos
    if pos < len then
      let c ← .read mem
      if isspace c = true then
        .advance
        skipWhitespace n
      else pure ()
    else pure ()

/-- `peek()`. -/
def peek : Prog UInt8 := do
  let pos ← .pos
  if len ≤ pos then .throw .unexpectedEnd else .read mem

/-- `consume()`. -/
def consume : Prog UInt8 := do
  let pos ← .pos
  if len ≤ pos then .throw .unexpectedEnd
  else
    let c ← .read mem
    .advance
    pure c

/-- `expect(c)`. -/
def expect (n : Nat) (c : UInt8) : Prog Unit := do
  skipWhitespace mem len n
  let got ← peek mem len
  if got = c then
    let _ ← consume mem len
    pure ()
  else
    let got ← peek mem len
    let pos ← .pos
    .throw (.expected c got pos)

/-- `while (peek() != '"') { … }` of `parse_string`. -/
def stringLoop : Nat → Bytes → Prog Bytes
  | 0, _ => .timeout
  | n + 1, s => do
    let next ← peek mem len
    if next = ch '"' then pure s
    else
      let c ← consume mem len
      if c = ch '\\' then
        let escapedChar ← consume mem len
        match unescape escapedChar with
        | some c => stringLoop n (s ++ [c])
        | none => .throw .invalidEscape
      else stringLoop n (s ++ [c])

/-- `parse_string()`. -/
def parseString (n : Nat) : Prog Bytes := do
  expect mem len n (ch '"')
  let s ← stringLoop mem len n []
  expect mem len n (ch '"')
  pure s

/-- `while (pos < json_str.length() && std::isdigit(json_str[pos])) consume();`. -/
def digits : Nat → Prog Unit
  | 0 => .timeout
  | n + 1 => do
    let pos ← .pos
    if pos < len then
      let c ← .read mem
      if isdigit c = true then
        let _ ← consume mem len
        digits n
      else pure ()
    else pure ()

/-- `peek() == c₁ || peek() == c₂ || …`. -/
def peekAny : List UInt8 → Prog Bool
  | [] => pure false
  | c :: cs => do
    let got ← peek mem len
    if got = c then pure true else peekAny cs

/-- `if (peek() == c₁ || …) consume();`. -/
def optional (cs : List UInt8) : Prog Bool := do
  let found ← peekAny mem len cs
  if found = true then
    let _ ← consume mem len
    pure true
  else pure false

/-- The fractional part of `parse_number`. -/
def parseFraction (n : Nat) : Prog Bool := do
  let isDouble ← optional mem len [ch '.']
  if isDouble = true then
    digits mem len n
    pure true
  else pure false

/-- The exponent part of `parse_number`. -/
def parseExponent (n : Nat) : Prog Bool := do
  let isDouble ← optional mem len [ch 'e', ch 'E']
  if isDouble = true then
    let _ ← optional mem len [ch '+', ch '-']
    digits mem len n
    pure true
  else pure false

/-- The token `parse_number` scans. -/
def scanNumber (n : Nat) : Prog Bool := do
  let _ ← optional mem len [ch '-']
  digits mem len n
  let fraction ← parseFraction mem len n
  let exponent ← parseExponent mem len n
  pure (fraction || exponent)

/-- The loop of `parse_literal`. -/
def literalLoop (literal : Bytes) : Bytes → Prog Unit
  | [] => pure ()
  | c :: cs => do
    let pos ← .pos
    if len ≤ pos then .throw (.expectedLiteral literal)
    else
      let got ← .read mem
      if got ≠ c then .throw (.expectedLiteral literal)
      else
        .advance
        literalLoop literal cs

variable {D : Type}

/-- `parse_literal(literal, value)`. -/
def parseLiteral (literal : Bytes) (value : JsonValue D) : Prog (JsonValue D) := do
  literalLoop mem len literal literal
  pure value

end Scanner

section Descent

variable {D : Type} (mem : Nat → UInt8) (len : Nat) (stod : Bytes → Except ConvError D) (n : Nat)

/-- `parse_number()`. -/
def parseNumber : Prog (JsonValue D) := do
  let start ← .pos
  let isDouble ← scanNumber mem len n
  let pos ← .pos
  let numStr ← .slice mem start pos
  .lift (convert stod isDouble numStr)

mutual

/-- `parse_value()`. -/
def parseValueN : Nat → Prog (JsonValue D)
  | 0 => .timeout
  | k + 1 => do
    skipWhitespace mem len n
    let c ← peek mem len
    if c = ch '"' then
      let s ← parseString mem len n
      pure (.string s)
    else if c = ch '-' ∨ isdigit c = true then parseNumber mem len stod n
    else if c = ch '[' then parseArrayN k
    else if c = ch '\x7b' then parseObjectN k
    else if c = ch 't' then parseLiteral mem len (ascii "true") (.bool true)
    else if c = ch 'f' then parseLiteral mem len (ascii "false") (.bool false)
    else if c = ch 'n' then parseLiteral mem len (ascii "null") .null
    else
      let pos ← .pos
      .throw (.unexpectedCharacter c pos)

/-- `parse_array()`. -/
def parseArrayN : Nat → Prog (JsonValue D)
  | 0 => .timeout
  | k + 1 => do
    expect mem len n (ch '[')
    skipWhitespace mem len n
    let c ← peek mem len
    let arr ← (if c ≠ ch ']' then arrayLoopN k [] else pure [])
    expect mem len n (ch ']')
    pure (.array arr)

/-- `while (true) { … }` of `parse_array`. -/
def arrayLoopN : Nat → List (JsonValue D) → Prog (List (JsonValue D))
  | 0, _ => .timeout
  | k + 1, arr => do
    let value ← parseValueN k
    skipWhitespace mem len n
    let comma ← peekAny mem len [ch ',']
    if comma = true then
      let _ ← consume mem len
      arrayLoopN k (arr ++ [value])
    else
      let bracket ← peekAny mem len [ch ']']
      if bracket = true then pure (arr ++ [value]) else .throw .arraySeparator

/-- `parse_object()`. -/
def parseObjectN : Nat → Prog (JsonValue D)
  | 0 => .timeout
  | k + 1 => do
    expect mem len n (ch '\x7b')
    skipWhitespace mem len n
    let c ← peek mem len
    let obj ← (if c ≠ ch '\x7d' then objectLoopN k [] else pure [])
    expect mem len n (ch '\x7d')
    pure (.object obj)

/-- `while (true) { … }` of `parse_object`. -/
def objectLoopN : Nat → List (Bytes × JsonValue D) → Prog (List (Bytes × JsonValue D))
  | 0, _ => .timeout
  | k + 1, obj => do
    let key ← parseString mem len n
    expect mem len n (ch ':')
    let value ← parseValueN k
    skipWhitespace mem len n
    let comma ← peekAny mem len [ch ',']
    if comma = true then
      let _ ← consume mem len
      objectLoopN k (OrdMap.assign obj key value)
    else
      let brace ← peekAny mem len [ch '\x7d']
      if brace = true then pure (OrdMap.assign obj key value) else .throw .objectSeparator

end

/-- `parse_array` and `parse_object`: brackets around what a loop reads, or around white space. -/
def brackets {β : Type} (a b : UInt8) (loop : Prog β) (empty : β) (wrap : β → JsonValue D) :
    Prog (JsonValue D) := do
  expect mem len n a
  skipWhitespace mem len n
  let c ← peek mem len
  let items ← (if c ≠ b then loop else pure empty)
  expect mem len n b
  pure (wrap items)

theorem parseArrayN_eq (k : Nat) : parseArrayN mem len stod n (k + 1) =
    brackets mem len n (ch '[') (ch ']') (arrayLoopN mem len stod n k []) [] .array := rfl

theorem parseObjectN_eq (k : Nat) : parseObjectN mem len stod n (k + 1) =
    brackets mem len n (ch '\x7b') (ch '\x7d') (objectLoopN mem len stod n k []) [] .object := rfl

/-- `parse()`. -/
def parse : Prog (JsonValue D) := do
  let result ← parseValueN mem len stod n n
  skipWhitespace mem len n
  let pos ← .pos
  if pos ≠ len then .throw (.extraCharacters pos)
  else pure result

end Descent

/-! ## Reads in bounds -/

open Lib.Walk

section Safety

variable {mem : Nat → UInt8} {len p : Nat} (hp : p ≤ len)

include hp

theorem safe_skipWhitespace (n : Nat) : Safe len p (skipWhitespace mem len n) := by
  induction n generalizing p with
  | zero => exact .timeout
  | succ n ih =>
    refine Safe.pos_bind hp (.ite (fun hlt => ?_) fun _ => .pure _)
    exact .read_bind hlt (.ite (fun _ => .advance_bind hlt (ih hlt)) fun _ => .pure _)

theorem safe_peek : Safe len p (peek mem len) :=
  .pos_bind hp (.ite (fun _ => .throw _) fun h => .read (Nat.not_le.mp h))

theorem safe_consume : Safe len p (consume mem len) := by
  refine .pos_bind hp (.ite (fun _ => .throw _) fun h => ?_)
  have hlt := Nat.not_le.mp h
  exact .read_bind hlt (.advance_bind hlt (.pure _))

theorem safe_expect (n : Nat) (c : UInt8) : Safe len p (expect mem len n c) := by
  refine .bind hp (safe_skipWhitespace hp n) fun _ p hp _ => ?_
  refine .bind hp (safe_peek hp) fun got p hp _ => .ite (fun _ => ?_) fun _ => ?_
  · exact .bind hp (safe_consume hp) fun _ _ _ _ => .pure _
  · exact .bind hp (safe_peek hp) fun _ p hp _ => .pos_bind hp (.throw _)

theorem safe_stringLoop (n : Nat) (s : Bytes) : Safe len p (stringLoop mem len n s) := by
  induction n generalizing p s with
  | zero => exact .timeout
  | succ n ih =>
    refine .bind hp (safe_peek hp) fun _ p hp _ => .ite (fun _ => .pure _) fun _ => ?_
    refine .bind hp (safe_consume hp) fun c p hp _ => .ite (fun _ => ?_) fun _ => ih hp _
    refine .bind hp (safe_consume hp) fun e p hp _ => ?_
    split
    · exact ih hp _
    · exact .throw _

theorem safe_parseString (n : Nat) : Safe len p (parseString mem len n) := by
  refine .bind hp (safe_expect hp n _) fun _ p hp _ => ?_
  refine .bind hp (safe_stringLoop hp n _) fun s p hp _ => ?_
  exact .bind hp (safe_expect hp n _) fun _ _ _ _ => .pure _

theorem safe_digits (n : Nat) : Safe len p (digits mem len n) := by
  induction n generalizing p with
  | zero => exact .timeout
  | succ n ih =>
    refine .pos_bind hp (.ite (fun hlt => ?_) fun _ => .pure _)
    refine .read_bind hlt (.ite (fun _ => ?_) fun _ => .pure _)
    exact .bind hp (safe_consume hp) fun _ p hp _ => ih hp

theorem safe_peekAny (cs : List UInt8) : Safe len p (peekAny mem len cs) := by
  induction cs generalizing p with
  | nil => exact .pure _
  | cons c cs ih =>
    exact .bind hp (safe_peek hp) fun _ p hp _ => .ite (fun _ => .pure _) fun _ => ih hp

theorem safe_optional (cs : List UInt8) : Safe len p (optional mem len cs) := by
  refine .bind hp (safe_peekAny hp cs) fun _ p hp _ => .ite (fun _ => ?_) fun _ => .pure _
  exact .bind hp (safe_consume hp) fun _ _ _ _ => .pure _

theorem safe_parseFraction (n : Nat) : Safe len p (parseFraction mem len n) := by
  refine .bind hp (safe_optional hp _) fun _ p hp _ => .ite (fun _ => ?_) fun _ => .pure _
  exact .bind hp (safe_digits hp n) fun _ _ _ _ => .pure _

theorem safe_parseExponent (n : Nat) : Safe len p (parseExponent mem len n) := by
  refine .bind hp (safe_optional hp _) fun _ p hp _ => .ite (fun _ => ?_) fun _ => .pure _
  refine .bind hp (safe_optional hp _) fun _ p hp _ => ?_
  exact .bind hp (safe_digits hp n) fun _ _ _ _ => .pure _

theorem safe_scanNumber (n : Nat) : Safe len p (scanNumber mem len n) := by
  refine .bind hp (safe_optional hp _) fun _ p hp _ => ?_
  refine .bind hp (safe_digits hp n) fun _ p hp _ => ?_
  refine .bind hp (safe_parseFraction hp n) fun _ p hp _ => ?_
  exact .bind hp (safe_parseExponent hp n) fun _ _ _ _ => .pure _

theorem safe_literalLoop (literal cs : Bytes) : Safe len p (literalLoop mem len literal cs) := by
  induction cs generalizing p with
  | nil => exact .pure _
  | cons c cs ih =>
    refine .pos_bind hp (.ite (fun _ => .throw _) fun h => ?_)
    have hlt := Nat.not_le.mp h
    exact .read_bind hlt (.ite (fun _ => .throw _) fun _ => .advance_bind hlt (ih hlt))

variable {D : Type}

theorem safe_parseLiteral (literal : Bytes) (value : JsonValue D) :
    Safe len p (parseLiteral mem len literal value) :=
  .bind hp (safe_literalLoop hp literal literal) fun _ _ _ _ => .pure _

variable (stod : Bytes → Except ConvError D)

theorem safe_parseNumber (n : Nat) : Safe len p (parseNumber mem len stod n) := by
  refine .pos_bind hp (.bind hp (safe_scanNumber hp n) fun b p hp _ => ?_)
  exact .pos_bind hp (.slice_bind hp hp fun l => .lift _)

omit hp

/-- The descent stays in bounds with `k` units of fuel. -/
structure SafeAt (mem : Nat → UInt8) (len : Nat) (stod : Bytes → Except ConvError D) (n k : Nat) :
    Prop where
  value : ∀ p ≤ len, Safe len p (parseValueN mem len stod n k)
  array : ∀ p ≤ len, Safe len p (parseArrayN mem len stod n k)
  items : ∀ p ≤ len, ∀ arr, Safe len p (arrayLoopN mem len stod n k arr)
  object : ∀ p ≤ len, Safe len p (parseObjectN mem len stod n k)
  members : ∀ p ≤ len, ∀ obj, Safe len p (objectLoopN mem len stod n k obj)

variable {stod} {n k : Nat}

theorem safe_value (ih : SafeAt mem len stod n k) (hp : p ≤ len) :
    Safe len p (parseValueN mem len stod n (k + 1)) := by
  refine .bind hp (safe_skipWhitespace hp n) fun _ p hp _ => ?_
  refine .bind hp (safe_peek hp) fun c p hp _ => ?_
  refine .ite (fun _ => ?_) fun _ => .ite (fun _ => safe_parseNumber hp stod n) fun _ =>
    .ite (fun _ => ih.array p hp) fun _ => .ite (fun _ => ih.object p hp) fun _ =>
      .ite (fun _ => safe_parseLiteral hp _ _) fun _ =>
        .ite (fun _ => safe_parseLiteral hp _ _) fun _ =>
          .ite (fun _ => safe_parseLiteral hp _ _) fun _ => .pos_bind hp (.throw _)
  exact .bind hp (safe_parseString hp n) fun _ _ _ _ => .pure _

theorem safe_brackets {β : Type} {a b : UInt8} {loop : Prog β} {empty : β} {wrap : β → JsonValue D}
    (h : ∀ p, p ≤ len → Safe len p loop) (hp : p ≤ len) :
    Safe len p (brackets mem len n a b loop empty wrap) := by
  refine .bind hp (safe_expect hp n _) fun _ p hp _ => ?_
  refine .bind hp (safe_skipWhitespace hp n) fun _ p hp _ => ?_
  refine .bind hp (safe_peek hp) fun c p hp _ => ?_
  refine .bind hp (.ite (fun _ => h p hp) fun _ => .pure _) fun items p hp _ => ?_
  exact .bind hp (safe_expect hp n _) fun _ _ _ _ => .pure _

theorem safe_array (ih : SafeAt mem len stod n k) (hp : p ≤ len) :
    Safe len p (parseArrayN mem len stod n (k + 1)) := by
  rw [parseArrayN_eq]
  exact safe_brackets (fun p hp => ih.items p hp []) hp

theorem safe_items (ih : SafeAt mem len stod n k) (hp : p ≤ len) (arr : List (JsonValue D)) :
    Safe len p (arrayLoopN mem len stod n (k + 1) arr) := by
  refine .bind hp (ih.value p hp) fun v p hp _ => ?_
  refine .bind hp (safe_skipWhitespace hp n) fun _ p hp _ => ?_
  refine .bind hp (safe_peekAny hp _) fun _ p hp _ => .ite (fun _ => ?_) fun _ => ?_
  · exact .bind hp (safe_consume hp) fun _ p hp _ => ih.items p hp _
  · exact .bind hp (safe_peekAny hp _) fun _ p hp _ => .ite (fun _ => .pure _) fun _ => .throw _

theorem safe_object (ih : SafeAt mem len stod n k) (hp : p ≤ len) :
    Safe len p (parseObjectN mem len stod n (k + 1)) := by
  rw [parseObjectN_eq]
  exact safe_brackets (fun p hp => ih.members p hp []) hp

theorem safe_members (ih : SafeAt mem len stod n k) (hp : p ≤ len)
    (obj : List (Bytes × JsonValue D)) :
    Safe len p (objectLoopN mem len stod n (k + 1) obj) := by
  refine .bind hp (safe_parseString hp n) fun key p hp _ => ?_
  refine .bind hp (safe_expect hp n _) fun _ p hp _ => ?_
  refine .bind hp (ih.value p hp) fun v p hp _ => ?_
  refine .bind hp (safe_skipWhitespace hp n) fun _ p hp _ => ?_
  refine .bind hp (safe_peekAny hp _) fun _ p hp _ => .ite (fun _ => ?_) fun _ => ?_
  · exact .bind hp (safe_consume hp) fun _ p hp _ => ih.members p hp _
  · exact .bind hp (safe_peekAny hp _) fun _ p hp _ => .ite (fun _ => .pure _) fun _ => .throw _

/-- **The descent stays in bounds, whatever the fuel.** -/
theorem safeAt : ∀ k, SafeAt mem len stod n k
  | 0 => ⟨fun _ _ => .timeout, fun _ _ => .timeout, fun _ _ _ => .timeout, fun _ _ => .timeout,
      fun _ _ _ => .timeout⟩
  | k + 1 =>
    have ih := safeAt k
    ⟨fun _ => safe_value ih, fun _ => safe_array ih, fun _ => safe_items ih,
      fun _ => safe_object ih, fun _ => safe_members ih⟩

theorem safe_parse (hp : p ≤ len) : Safe len p (parse mem len stod n) := by
  refine .bind hp ((safeAt n).value p hp) fun v p hp _ => ?_
  refine .bind hp (safe_skipWhitespace hp n) fun _ p hp _ => ?_
  exact .pos_bind hp (.ite (fun _ => .throw _) fun _ => .pure _)

end Safety

end CppExamples.Json.Raw
