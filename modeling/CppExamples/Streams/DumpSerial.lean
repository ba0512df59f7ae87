import CppExamples.Lib.Ascii
import CppExamples.Lib.Buffer
import CppExamples.Lib.Loop

/-!
# The read loop of `dump_serial` (`middleware/src/dump_serial.cpp:44-64`)

`read` puts a chunk at the beginning of the buffer, whose bytes are not initialised before. A NUL is
written behind the chunk, or over its last byte where it fills the buffer, and the buffer is printed
as a C string, which ends at its first NUL. The comment in the code names the way that would print
all of it, `std::cout.write(buffer.data(), bytesRead)`.

* `dumpSerial_eq`: the printing never leaves the buffer, and prints of each chunk the bytes before
  the first NUL, and never its 1024th byte.
* `dumpSerial_lossless_iff`: so it prints all bytes exactly if no chunk fills the buffer or has a
  NUL.
-/

namespace CppExamples.Streams

open Lib Lib.Buffer Lib.Loop

/-- `BUFFER_SIZE`. -/
def bufferSize : Nat := 1024

/-- The C string at the beginning of an array. It must end inside the array. -/
def cString (array : Bytes) : Option Bytes :=
  if 0 ∈ array then some (array.takeWhile (· != 0)) else none

/-- The NUL that ends the string. -/
def terminate (buffer : Bytes) (bytesRead : Nat) : Option Bytes :=
  if bytesRead < bufferSize then store buffer bytesRead 0 else store buffer (bufferSize - 1) 0

/-- One iteration, for the bytes that `read` delivers: the buffer, and what is sent to stdout. -/
def dumpChunk (buffer chunk : Bytes) : Option (Bytes × Bytes) := do
  let buffer ← writeAt buffer 0 chunk
  if 0 < chunk.length then
    let buffer ← terminate buffer chunk.length
    let text ← cString buffer
    return (buffer, text ++ [ch '\n'])
  else return (buffer, [])

/-- What is sent to stdout for each result of `read`. -/
def dumpSerial (buffer : Bytes) : List Bytes → Option (List Bytes)
  | [] => some []
  | chunk :: chunks => do
    let (buffer, out) ← dumpChunk buffer chunk
    let outs ← dumpSerial buffer chunks
    return out :: outs

/-- What is printed of a chunk. -/
def printed (chunk : Bytes) : Bytes := (chunk.take (bufferSize - 1)).takeWhile (· != 0)

theorem cString_append_nul (text rest : Bytes) :
    cString (text ++ 0 :: rest) = some (text.takeWhile (· != 0)) := by
  have hmem : 0 ∈ text ++ 0 :: rest := List.mem_append_right _ List.mem_cons_self
  rw [cString, if_pos hmem]
  congr 1
  induction text with
  | nil => rfl
  | cons c text ih =>
    rw [List.cons_append, List.takeWhile_cons, List.takeWhile_cons, ih]
    exact List.mem_append_right _ List.mem_cons_self

variable {buffer chunk : Bytes}

/-- The NUL is written behind the first bytes of the chunk, of which there are at most 1023. -/
theorem exists_terminate {rest : Bytes} (hlen : (chunk ++ rest).length = bufferSize) :
    ∃ rest', terminate (chunk ++ rest) chunk.length =
      some (chunk.take (bufferSize - 1) ++ 0 :: rest') ∧
      (chunk.take (bufferSize - 1) ++ 0 :: rest').length = bufferSize := by
  have hstore : ∀ k, k ≤ chunk.length → k < bufferSize → ∃ rest',
      store (chunk ++ rest) k 0 = some (chunk.take k ++ 0 :: rest') ∧
      (chunk.take k ++ 0 :: rest').length = bufferSize := by
    intro k hk hlt
    obtain ⟨buffer', hbuffer', hlen'⟩ := exists_store (hlen.symm ▸ hlt) 0
    have hset : buffer' = chunk.take k ++ 0 :: (chunk ++ rest).drop (k + 1) := by
      rw [store, if_pos (hlen.symm ▸ hlt), Option.some.injEq] at hbuffer'
      rw [← hbuffer', List.set_eq_take_append_cons_drop, if_pos (hlen.symm ▸ hlt),
        List.take_append_of_le_length hk]
    subst hset
    exact ⟨_, hbuffer', hlen'.trans hlen⟩
  have hpos : 0 < bufferSize := by decide
  rw [List.length_append] at hlen
  unfold terminate
  by_cases hfull : chunk.length < bufferSize
  · have htake : chunk.take (bufferSize - 1) = chunk.take chunk.length := by
      rw [List.take_of_length_le (by omega), List.take_length]
    rw [if_pos hfull, htake]
    exact hstore _ (Nat.le_refl _) hfull
  · rw [if_neg hfull]
    exact hstore _ (by omega) (by omega)

/-- **One chunk.** -/
theorem exists_dumpChunk (hbuffer : buffer.length = bufferSize) (hpos : 0 < chunk.length)
    (hle : chunk.length ≤ bufferSize) : ∃ buffer', buffer'.length = bufferSize ∧
      dumpChunk buffer chunk = some (buffer', printed chunk ++ [ch '\n']) := by
  have hwrite : writeAt buffer 0 chunk = some (chunk ++ buffer.drop chunk.length) := by
    rw [writeAt, Nat.zero_add, if_pos (by omega), List.take_zero, List.nil_append]
  have hlen : (chunk ++ buffer.drop chunk.length).length = bufferSize := by
    rw [List.length_append, List.length_drop]
    omega
  obtain ⟨rest, hterminate, hlen'⟩ := exists_terminate hlen
  refine ⟨_, hlen', ?_⟩
  unfold dumpChunk
  rw [hwrite, Option.bind_eq_bind, Option.bind_some, if_pos hpos, hterminate, Option.bind_some,
    cString_append_nul]
  rfl

/-- Every run prints of every chunk what is printed of it alone. -/
theorem dumpSerial_eq {chunks : List Bytes} (hbuffer : buffer.length = bufferSize)
    (hchunks : ∀ chunk ∈ chunks, 0 < chunk.length ∧ chunk.length ≤ bufferSize) :
    dumpSerial buffer chunks = some (chunks.map fun chunk => printed chunk ++ [ch '\n']) := by
  induction chunks generalizing buffer with
  | nil => rfl
  | cons chunk chunks ih =>
    rw [List.forall_mem_cons] at hchunks
    obtain ⟨buffer', hlen, hchunk⟩ := exists_dumpChunk hbuffer hchunks.1.1 hchunks.1.2
    have hrest := ih hlen hchunks.2
    rw [dumpSerial, hchunk]
    show ((dumpSerial buffer' chunks).bind fun outs => _) = _
    rw [hrest]
    rfl

theorem printed_eq_iff : printed chunk = chunk ↔ chunk.length < bufferSize ∧ 0 ∉ chunk := by
  constructor
  · intro h
    constructor
    · have hlen := (List.takeWhile_prefix (l := chunk.take (bufferSize - 1)) (· != 0)).length_le
      rw [← printed, h, List.length_take] at hlen
      unfold bufferSize at *
      omega
    · intro hmem
      rw [← h] at hmem
      exact absurd (List.mem_takeWhile_imp hmem) (by decide)
  · rintro ⟨hlen, hmem⟩
    rw [printed, List.take_of_length_le (by omega), List.takeWhile_eq_self_iff]
    intro c hc
    exact bne_iff_ne.mpr fun h => hmem (h ▸ hc)

/-- **The dump loses nothing** if and only if no chunk fills the buffer and no byte is NUL. -/
theorem dumpSerial_lossless_iff (buffer : Bytes) (hbuffer : buffer.length = bufferSize)
    (chunks : List Bytes)
    (hchunks : ∀ chunk ∈ chunks, 0 < chunk.length ∧ chunk.length ≤ bufferSize) :
    dumpSerial buffer chunks = some (chunks.map fun chunk => chunk ++ [ch '\n']) ↔
      ∀ chunk ∈ chunks, chunk.length < bufferSize ∧ 0 ∉ chunk := by
  rw [dumpSerial_eq hbuffer hchunks, Option.some.injEq, List.map_inj_left]
  refine forall₂_congr fun chunk _ => ?_
  rw [List.append_left_inj, printed_eq_iff]

/-- Two text lines. -/
theorem dumpSerial_lossless_two : dumpSerial (List.replicate bufferSize 7) [ascii "ab", ascii "c"] =
    some [ascii "ab\n", ascii "c\n"] :=
  (dumpSerial_lossless_iff (List.replicate bufferSize 7) List.length_replicate [ascii "ab", ascii "c"]
    (by decide)).mpr (by decide)

/-- A NUL ends the line. -/
theorem dumpSerial_loses : dumpSerial (List.replicate bufferSize 7) [[0x41, 0, 0x42]] =
    some [ascii "A\n"] := by
  rw [dumpSerial_eq List.length_replicate (by decide)]
  decide

end CppExamples.Streams
