import CppExamples.Lib.Machine
import Mathlib.Data.List.Infix

/-!
# `StandardInput` (`cjunk/practice/asyncStdin.cc:12-75`)

`inputCharTask` reads stdin in a thread of its own and pushes what it reads; `main` pops as long as
`hasChar` says that there is something. A step of the reader is the test of `m_running`, a read, or
a push; a step of `main` is one call. Each block under the mutex is one step, and the steps of the
two threads come in any order.

`fread(&c, 1, 1, stdin)` writes one byte of the `int` (the low one, on a little-endian machine) and
at the end of the file none. The rest of `c` is not initialised: it is a parameter of the step. So
the comparison `c != EOF` tells the end of the file from a byte only by chance:

* a byte 0xFF is dropped where the other three bytes of `c` happen to be 0xFF;
* at the end of the file some character is pushed unless all of `c` happens to be `EOF`.

Result: `popped_isPrefix`. In the runs in which neither happens, what `main` pops is what was typed.
-/

namespace CppExamples.Practice.StandardInput

open Lib.Machine

/-- `int`, as its bits. -/
abbrev Word := BitVec 32

/-- `EOF`, that is -1. -/
def eof : Word := BitVec.allOnes 32

/-- `c` after `fread` has written one byte to its address. -/
def fill (c : Word) (b : UInt8) : Word := c.extractLsb' 8 24 ++ b.toBitVec

/-- `fread(&c, 1, 1, stdin)`: `c` and the rest of stdin. -/
def fread (c : Word) : List UInt8 → Word × List UInt8
  | [] => (c, [])
  | b :: input => (fill c b, input)

/-- `c` as a `char`. -/
def toChar (c : Word) : UInt8 := ⟨c.setWidth 8⟩

/-- Where `inputCharTask` is. -/
inductive Reader where
  | testing
  | reading
  | pushing (c : Word)
  | stopped
  deriving DecidableEq

/-- `if(c != EOF)` -/
def Reader.received (c : Word) : Reader := if c ≠ eof then .pushing c else .testing

/-- Where `main` is. -/
inductive Main where
  | testing
  | popping
  | leaving
  | done
  deriving DecidableEq

structure State where
  /-- What has not been read yet. -/
  input : List UInt8
  reader : Reader := .testing
  main : Main := .testing
  queue : List UInt8 := []
  running : Bool := true
  /-- What `popChar` has returned. -/
  popped : List UInt8 := []
  deriving DecidableEq

/-- One step of the reader or of `main`. -/
inductive Act where
  /-- `while(m_running)` -/
  | test
  /-- `fread`, and `c != EOF`, with what `c` holds before -/
  | read (c : Word)
  /-- `m_queue.push(c)` -/
  | push
  | hasChar
  | popChar
  /-- `~StandardInput` -/
  | destroy

def step (s : State) : Act → Option State
  | .test =>
    if s.reader = .testing then
      some { s with reader := if s.running then .reading else .stopped }
    else none
  | .read c =>
    if s.reader = .reading then
      let (c, input) := fread c s.input
      some { s with input := input, reader := .received c }
    else none
  | .push =>
    match s.reader with
    | .pushing c => some { s with queue := s.queue ++ [toChar c], reader := .testing }
    | _ => none
  | .hasChar =>
    if s.main = .testing then
      some { s with main := if s.queue.isEmpty then .leaving else .popping }
    else none
  | .popChar =>
    match s.main, s.queue with
    | .popping, c :: queue =>
      some { s with queue := queue, popped := s.popped ++ [c], main := .testing }
    | _, _ => none
  | .destroy =>
    if s.main = .leaving then some { s with running := false, main := .done } else none

/-- What `c` holds before a read tells the end of the file from a byte: the byte is not 0xFF or the
other bytes of `c` are not all 0xFF, and at the end of the file `c` is `EOF`. -/
def Telling (c : Word) : List UInt8 → Prop
  | [] => c = eof
  | b :: _ => b ≠ 0xFF ∨ c.extractLsb' 8 24 ≠ BitVec.allOnes 24

/-- Every read is such a one. -/
def Tells (s : State) : Act → Prop
  | .read c => Telling c s.input
  | _ => True

instance decidableTelling (c : Word) : ∀ input, Decidable (Telling c input)
  | [] => inferInstanceAs (Decidable (c = eof))
  | b :: _ => inferInstanceAs (Decidable (b ≠ 0xFF ∨ c.extractLsb' 8 24 ≠ BitVec.allOnes 24))

instance decidableTells (s : State) : ∀ a, Decidable (Tells s a)
  | .read c => inferInstanceAs (Decidable (Telling c s.input))
  | .test | .push | .hasChar | .popChar | .destroy => isTrue trivial

theorem toChar_fill (c : Word) (b : UInt8) : toChar (fill c b) = b :=
  congrArg UInt8.ofBitVec BitVec.setWidth_append_eq_right

theorem eq_of_fill_eq_eof {c : Word} {b : UInt8} (h : fill c b = eof) :
    b = 0xFF ∧ c.extractLsb' 8 24 = BitVec.allOnes 24 := by
  constructor
  · rw [← toChar_fill c b, h]
    rfl
  · have hhigh : (fill c b).extractLsb' 8 24 = c.extractLsb' 8 24 :=
      BitVec.extractLsb'_append_eq_left
    rw [← hhigh, h]
    rfl

/-- What has been read and not pushed yet. -/
def Reader.pending : Reader → List UInt8
  | .testing => []
  | .reading => []
  | .pushing c => [toChar c]
  | .stopped => []

/-- Everything typed is popped, in the queue, about to be pushed, or not read yet, in this order. -/
def Ordered (typed : List UInt8) (s : State) : Prop :=
  s.popped ++ s.queue ++ s.reader.pending ++ s.input = typed

variable {typed : List UInt8} {s s' : State}

/-- What a telling read takes from stdin is what is pushed. -/
theorem pending_received {c : Word} {input : List UInt8} (h : Telling c input) :
    (Reader.received (fread c input).1).pending ++ (fread c input).2 = input := by
  cases input with
  | nil =>
    have heq : c = eof := h
    rw [fread, Reader.received, if_neg (not_not.mpr heq)]
    rfl
  | cons b input =>
    have hne : fill c b ≠ eof := by
      intro heq
      obtain ⟨hb, hc⟩ := eq_of_fill_eq_eof heq
      exact h.elim (fun hb' => hb' hb) (fun hc' => hc' hc)
    rw [fread, Reader.received, if_pos hne, Reader.pending, toChar_fill]
    rfl

/-- **One step** of either thread. -/
theorem Ordered.step {a : Act} (h : Ordered typed s) (ha : Tells s a)
    (hstep : StandardInput.step s a = some s') : Ordered typed s' := by
  unfold Ordered at *
  cases a with
  | test =>
    simp only [StandardInput.step, Option.ite_none_right_eq_some, Option.some.injEq] at hstep
    obtain ⟨hreader, rfl⟩ := hstep
    rw [hreader] at h
    cases s.running with
    | false => exact h
    | true => exact h
  | read c =>
    simp only [StandardInput.step, Option.ite_none_right_eq_some, Option.some.injEq] at hstep
    obtain ⟨hreader, rfl⟩ := hstep
    rw [hreader, Reader.pending, List.append_nil] at h
    rw [List.append_assoc, pending_received ha, h]
  | push =>
    simp only [StandardInput.step] at hstep
    split at hstep
    case h_1 c hreader =>
      cases hstep
      rw [hreader] at h
      rw [Reader.pending, List.append_nil, ← List.append_assoc]
      exact h
    case h_2 => cases hstep
  | hasChar =>
    simp only [StandardInput.step, Option.ite_none_right_eq_some, Option.some.injEq] at hstep
    obtain ⟨-, rfl⟩ := hstep
    exact h
  | popChar =>
    simp only [StandardInput.step] at hstep
    split at hstep
    case h_1 c queue hmain hqueue =>
      cases hstep
      rw [hqueue] at h
      rw [List.append_assoc s.popped]
      exact h
    case h_2 => cases hstep
  | destroy =>
    simp only [StandardInput.step, Option.ite_none_right_eq_some, Option.some.injEq] at hstep
    obtain ⟨-, rfl⟩ := hstep
    exact h

/-- **What is popped was typed, in this order**, in every run in which each read can tell the end of
the file from a byte. -/
theorem popped_isPrefix (typed : List UInt8) (acts : List Act) (s : State)
    (hacts : Meets step Tells { input := typed } acts)
    (hrun : run step { input := typed } acts = some s) : s.popped <+: typed := by
  have hstart : Ordered typed { input := typed } := rfl
  have hordered := run_invariant_of_meets Ordered.step hstart hacts hrun
  rw [← hordered, List.append_assoc, List.append_assoc]
  exact List.prefix_append _ _

/-- Two characters, of which the second is 0xFF. The reader and `main` take turns, and the reader
runs on into the end of the file. -/
theorem popped_isPrefix_two : ∃ s, run step { input := [0x41, 0xFF] }
    [.test, .read 0, .push, .hasChar, .test, .read 0, .popChar, .push, .hasChar, .test, .popChar,
      .read eof, .hasChar, .destroy, .test] = some s ∧ s.popped = [0x41, 0xFF] ∧
    s.popped <+: [0x41, 0xFF] :=
  ⟨_, rfl, rfl, popped_isPrefix [0x41, 0xFF]
    [.test, .read 0, .push, .hasChar, .test, .read 0, .popChar, .push, .hasChar, .test, .popChar,
      .read eof, .hasChar, .destroy, .test] _ (by decide) rfl⟩

/-- Nothing is typed, and `c` holds the letter A by chance: `main` pops it. -/
theorem popped_not_typed : ∃ s, run step { input := [] }
    [.test, .read 0x41, .push, .hasChar, .popChar] = some s ∧ s.popped = [0x41] ∧
    ¬ s.popped <+: [] := by
  refine ⟨_, rfl, rfl, ?_⟩
  rw [List.prefix_nil]
  exact List.cons_ne_nil _ _

end CppExamples.Practice.StandardInput
