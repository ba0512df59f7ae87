import CppExamples.Lib.Ascii

/-!
# `outbuf` (`example_streambuffer/testHello.cpp:10-35`)

The stream buffer that stores what is written to it in upper case. `char` is signed: a `char` is an
`Int8`, an `int_type` an `Int32`, and each conversion of the source is a conversion here. `putchar`
succeeds, and returns the byte it has written. The stream hands each byte to `overflow` as a number
from 0 to 255; once a result is `EOF`, its badbit is set and it drops the rest.

`overflow` uses its parameter for the converted character and returns it. The character 0xFF is the
`char` -1, which comes back as the `int_type` -1: it is stored, and reported as a failure. Result:
`dump_write_iff`. All bytes reach the buffer unless one of them is 0xFF and another follows it.
-/

namespace CppExamples.Streams

open Lib

/-- `EOF`. -/
def eof : Int32 := -1

/-- `std::toupper(c, loc)` in the classic locale. -/
def toupper (c : Int8) : Int8 := if 97 ≤ c ∧ c ≤ 122 then c - 32 else c

/-- `putchar`, where it succeeds: the byte written. -/
def putchar (c : Int32) : Int32 := c.toUInt32.toUInt8.toUInt32.toInt32

/-- `class outbuf`. -/
structure Outbuf where
  internalBuffer : List Int8 := []

/-- `outbuf::dump`. -/
def Outbuf.dump (b : Outbuf) : List Int8 := b.internalBuffer

/-- `outbuf::overflow`. -/
def Outbuf.overflow (b : Outbuf) (c : Int32) : Outbuf × Int32 :=
  if c ≠ eof then
    let c := (toupper c.toInt8).toInt32
    let b := { b with internalBuffer := b.internalBuffer ++ [c.toInt8] }
    if putchar c = eof then (b, eof) else (b, c)
  else (b, c)

/-- A `std::ostream` over an `outbuf`. -/
structure Ostream where
  buf : Outbuf := {}
  badbit : Bool := false

/-- One byte is handed to `overflow`. -/
def Ostream.put (os : Ostream) (byte : UInt8) : Ostream :=
  if os.badbit then os
  else
    let (buf, result) := os.buf.overflow byte.toUInt32.toInt32
    { buf := buf, badbit := result == eof }

def Ostream.write (os : Ostream) (bytes : Bytes) : Ostream := bytes.foldl Ostream.put os

/-- The character that a byte is stored as. -/
def upper (byte : UInt8) : Int8 := toupper byte.toInt8

/-! ## One byte -/

theorem toInt8_byte : ∀ byte : UInt8, byte.toUInt32.toInt32.toInt8 = byte.toInt8 :=
  forall_byte (by decide +kernel)

theorem byte_ne_eof : ∀ byte : UInt8, byte.toUInt32.toInt32 ≠ eof :=
  forall_byte (by decide +kernel)

/-- A byte that has been written is not `EOF`. -/
theorem putchar_ne_eof (c : Int32) : putchar c ≠ eof := byte_ne_eof _

/-- 0xFF is the only character that is `EOF` as an `int_type`. -/
theorem upper_eq_eof_iff : ∀ byte : UInt8, (upper byte).toInt32 = eof ↔ byte = 0xFF :=
  forall_byte (by decide +kernel)

/-- `overflow` stores every byte, and returns `EOF` for 0xFF only. -/
theorem overflow_byte (b : Outbuf) (byte : UInt8) : b.overflow byte.toUInt32.toInt32 =
    ({ internalBuffer := b.internalBuffer ++ [upper byte] }, (upper byte).toInt32) := by
  unfold Outbuf.overflow
  rw [if_pos (byte_ne_eof byte), toInt8_byte, ← upper, if_neg (putchar_ne_eof _),
    Int8.toInt8_toInt32]

theorem put_eq (b : Outbuf) (byte : UInt8) : ({ buf := b } : Ostream).put byte =
    { buf := { internalBuffer := b.internalBuffer ++ [upper byte] }, badbit := byte == 0xFF } := by
  have hbad : ((upper byte).toInt32 == eof) = (byte == 0xFF) := by
    rw [Bool.eq_iff_iff, beq_iff_eq, beq_iff_eq]
    exact upper_eq_eof_iff byte
  unfold Ostream.put
  rw [if_neg Bool.false_ne_true, overflow_byte, ← hbad]

/-! ## Sequences -/

/-- What reaches the buffer: the bytes up to the first 0xFF. -/
def accepted : Bytes → Bytes
  | [] => []
  | byte :: bytes => if byte = 0xFF then [byte] else byte :: accepted bytes

theorem write_bad (b : Outbuf) (bytes : Bytes) :
    ({ buf := b, badbit := true } : Ostream).write bytes = { buf := b, badbit := true } := by
  induction bytes with
  | nil => rfl
  | cons byte bytes ih => exact ih

theorem write_buf (b : Outbuf) (bytes : Bytes) : (({ buf := b } : Ostream).write bytes).buf =
    { internalBuffer := b.internalBuffer ++ (accepted bytes).map upper } := by
  induction bytes generalizing b with
  | nil => rw [accepted, List.map_nil, List.append_nil]; rfl
  | cons byte bytes ih =>
    have hwrite : ({ buf := b } : Ostream).write (byte :: bytes) =
      (({ buf := b } : Ostream).put byte).write bytes := rfl
    rw [hwrite, put_eq, accepted]
    by_cases hff : byte = 0xFF
    · rw [if_pos hff, beq_iff_eq.mpr hff, write_bad]
      rfl
    · rw [if_neg hff, beq_eq_false_iff_ne.mpr hff, ih, List.map_cons, List.append_assoc,
        List.singleton_append]

theorem accepted_isPrefix (bytes : Bytes) : accepted bytes <+: bytes := by
  induction bytes with
  | nil => exact List.prefix_refl []
  | cons byte bytes ih =>
    rw [accepted]
    split
    · exact List.prefix_append [byte] bytes
    · exact List.cons_prefix_cons.mpr ⟨rfl, ih⟩

/-- Everything is accepted if and only if nothing follows a byte 0xFF. -/
theorem accepted_eq_iff (bytes : Bytes) : accepted bytes = bytes ↔ 0xFF ∉ bytes.dropLast := by
  induction bytes with
  | nil => simp [accepted]
  | cons byte bytes ih =>
    cases bytes with
    | nil => simp [accepted]
    | cons next bytes =>
      rw [accepted, List.dropLast_cons_cons, List.mem_cons, not_or, ← ih]
      by_cases hff : byte = 0xFF
      · simp [hff]
      · rw [if_neg hff, List.cons_inj_right]
        exact (and_iff_right (Ne.symm hff)).symm

/-- **Every written byte reaches the buffer**, in upper case, if and only if no byte follows a byte
0xFF. -/
theorem dump_write_iff (bytes : Bytes) : (({} : Ostream).write bytes).buf.dump =
    bytes.map (fun byte => toupper byte.toInt8) ↔ 0xFF ∉ bytes.dropLast := by
  have hdump : (({} : Ostream).write bytes).buf.dump = (accepted bytes).map upper := by
    rw [Outbuf.dump, write_buf, List.nil_append]
  rw [hdump, ← accepted_eq_iff]
  constructor
  · intro h
    have hlen := congrArg List.length h
    rw [List.length_map, List.length_map] at hlen
    exact (accepted_isPrefix bytes).eq_of_length hlen
  · intro h
    rw [h]
    rfl

/-- After 0xFF the letter a is lost. -/
theorem dump_loses : (({} : Ostream).write [0xFF, 0x61]).buf.dump = [-1] ∧
    [0xFF, 0x61].map (fun byte : UInt8 => toupper byte.toInt8) = [-1, 65] := by
  decide

end CppExamples.Streams
