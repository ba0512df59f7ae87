import CppExamples.Lib.Ascii

/-!
# Strings in the FIFO (`cjunk/practice/uartfifo.c:18-71`)

The FIFO behind `fifo_push_value` and `fifo_pop_value` is taken as an unbounded queue of bytes; a
pop from the empty queue waits and has no result. `fifo_push_string` pushes the characters, as many
as `strlen` modulo 256 says, and nothing else. `fifo_pop_string` takes the first byte that it pops
for the length, which no push has sent, and does not end what it returns by a NUL.

* `popString_shorter`: what comes back has fewer characters than what was pushed.
* `not_popsBack`: no string is popped back.
-/

namespace CppExamples.Practice.UartFifo

open Lib

/-- A NUL-terminated string, without its NUL. -/
structure CString where
  chars : Bytes
  nul_free : 0 ∉ chars

/-- `fifo_push_value`. -/
def pushValue (fifo : Bytes) (data : UInt8) : Bytes := fifo ++ [data]

/-- `fifo_push_array`, with the bytes of the array. -/
def pushArray (fifo : Bytes) : Bytes → Nat → Option Bytes
  | _, 0 => some fifo
  | [], _ + 1 => none
  | value :: data, length + 1 => pushArray (pushValue fifo value) data length

/-- `fifo_push_string`. -/
def pushString (fifo : Bytes) (string : CString) : Option Bytes :=
  let length := UInt8.ofNat string.chars.length
  pushArray fifo (string.chars ++ [0]) length.toNat

/-- `fifo_pop_value`. -/
def popValue : Bytes → Option (UInt8 × Bytes)
  | [] => none
  | value :: fifo => some (value, fifo)

/-- `fifo_pop_array`: the bytes of the array, and the FIFO afterwards. -/
def popArray (fifo : Bytes) : Nat → Option (Bytes × Bytes)
  | 0 => some ([], fifo)
  | length + 1 => do
    let (value, fifo) ← popValue fifo
    let (data, fifo) ← popArray fifo length
    return (value :: data, fifo)

/-- `fifo_pop_string`: the allocated array, and the FIFO afterwards. -/
def popString (fifo : Bytes) : Option (Bytes × Bytes) := do
  let (length, fifo) ← popValue fifo
  popArray fifo length.toNat

/-- A push and a pop on the empty FIFO give the string back and leave the FIFO empty. Where no NUL
ends the array, the string is taken to end with it. -/
def PopsBack (string : CString) : Prop :=
  ∃ data fifo, (pushString [] string).bind popString = some (data, fifo) ∧
    data.takeWhile (· != 0) = string.chars ∧ fifo = []

theorem pushArray_eq (fifo data : Bytes) {length : Nat} (h : length ≤ data.length) :
    pushArray fifo data length = some (fifo ++ data.take length) := by
  induction data generalizing fifo length with
  | nil =>
    obtain rfl := Nat.le_zero.mp h
    rw [pushArray, List.take_zero, List.append_nil]
  | cons value data ih =>
    cases length with
    | zero => rw [pushArray, List.take_zero, List.append_nil]
    | succ length =>
      rw [pushArray, ih _ (Nat.le_of_succ_le_succ h), pushValue, List.append_assoc,
        List.take_succ_cons, List.singleton_append]

/-- The length is kept in a byte. -/
theorem pushString_eq (fifo : Bytes) (string : CString) :
    pushString fifo string = some (fifo ++ string.chars.take (string.chars.length % 256)) := by
  have hle : string.chars.length % 256 ≤ string.chars.length := Nat.mod_le _ _
  have hlength : (UInt8.ofNat string.chars.length).toNat = string.chars.length % 256 :=
    UInt8.toNat_ofNat'
  simp only [pushString]
  rw [hlength, pushArray_eq, List.take_append_of_le_length hle]
  rw [List.length_append]
  exact Nat.le_add_right_of_le hle

/-- What is popped stood at the front. -/
theorem popArray_eq_some {fifo data rest : Bytes} {length : Nat}
    (h : popArray fifo length = some (data, rest)) : data ++ rest = fifo := by
  induction length generalizing fifo data with
  | zero =>
    cases h
    rfl
  | succ length ih =>
    cases fifo with
    | nil => cases h
    | cons value fifo =>
      obtain ⟨⟨data', rest'⟩, hpop, hdata⟩ := Option.bind_eq_some_iff.mp h
      cases hdata
      rw [List.cons_append, ih hpop]

/-- What is popped has fewer characters than what was pushed. -/
theorem popString_shorter {string : CString} {data fifo : Bytes}
    (h : (pushString [] string).bind popString = some (data, fifo)) :
    data.length < string.chars.length := by
  rw [pushString_eq, Option.bind_some, List.nil_append] at h
  have hle : (string.chars.take (string.chars.length % 256)).length ≤ string.chars.length :=
    List.length_take_le' _ _
  cases hfifo : string.chars.take (string.chars.length % 256) with
  | nil =>
    rw [hfifo] at h
    cases h
  | cons length rest =>
    rw [hfifo] at h hle
    have hrest := congrArg List.length (popArray_eq_some h)
    rw [List.length_append] at hrest
    rw [List.length_cons] at hle
    omega

/-- **No string is popped back.** -/
theorem not_popsBack (string : CString) : ¬ PopsBack string := by
  rintro ⟨data, fifo, hpop, hstring, -⟩
  have hle := (List.takeWhile_prefix (l := data) (· != 0)).length_le
  rw [hstring] at hle
  exact absurd (popString_shorter hpop) (Nat.not_lt.mpr hle)

/-- The letter A is taken for a length, and the pop waits for 65 characters. -/
theorem popString_waits :
    pushString [] ⟨ascii "A", by decide⟩ = some (ascii "A") ∧ popString (ascii "A") = none := by
  decide

end CppExamples.Practice.UartFifo
