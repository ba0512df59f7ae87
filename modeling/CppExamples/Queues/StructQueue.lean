import CppExamples.Lib.Buffer
import CppExamples.Lib.CInt
import CppExamples.Lib.Machine
import CppExamples.Lib.Ring

/-!
# `struct Queue` (`cjunk/practice/queue.h:1-74`)

The C functions on 16-bit fields and a byte array that the caller gives.

* `uint16_t` operands are promoted to `int`: sums and differences of them do not overflow, the
  product `index * elementSize` may, and then the call is not defined. A result stored in a
  `uint16_t` is reduced modulo `2 ^ 16`.
* `memcpy` is defined for ranges inside the array and inside what `pData` points to.

Full and empty are told apart by `isFull` alone. `private_queueEnqueue` would set it where
`elementCapacity - endIndex` is 0, but `endIndex` is a remainder modulo `elementCapacity`, so it
never does. With `c - 1` elements held one more enqueue makes `end` catch up with `begin`, and the
queue looks empty. `behaves_iff_safe`: the functions behave as a queue of capacity `c` in exactly
the runs in which that does not happen and no touched offset leaves the range of `int`.
-/

namespace CppExamples.Queues

open Lib Lib.Machine

/-- `struct Queue`. -/
structure Queue where
  begin : UInt16
  end_ : UInt16
  pDataArray : List UInt8
  elementSize : UInt16
  elementCapacity : UInt16
  isFull : Bool
  deriving DecidableEq

namespace Queue

/-- `private_queueInitialize`. -/
def queueInitialize (pDataArray : List UInt8) (elementSize elementCapacity : UInt16) : Queue where
  begin := 0
  end_ := 0
  pDataArray := pDataArray
  elementSize := elementSize
  elementCapacity := elementCapacity
  isFull := false

/-- `(x + 1u) % elementCapacity`. -/
def advance (self : Queue) (x : UInt16) : UInt16 :=
  UInt16.ofNat ((x.toNat + 1) % self.elementCapacity.toNat)

theorem toNat_advance {s : Queue} (hcap : 0 < s.elementCapacity.toNat) (x : UInt16) :
    (s.advance x).toNat = (x.toNat + 1) % s.elementCapacity.toNat := by
  have hlt := Nat.mod_lt (x.toNat + 1) hcap
  rw [advance, UInt16.toNat_ofNat_of_lt' (hlt.trans s.elementCapacity.toNat_lt)]

theorem end_sub_begin_ne_zero {s : Queue} (h : s.begin ≠ s.end_) : s.end_ - s.begin ≠ 0 := by
  intro hzero
  rw [UInt16.sub_eq_iff_eq_add, UInt16.zero_add] at hzero
  exact h hzero.symm

theorem elementCapacity_ne_zero {s : Queue} (h : 0 < s.elementCapacity.toNat) :
    s.elementCapacity ≠ 0 := by
  intro hzero
  rw [hzero, UInt16.toNat_zero] at h
  exact Nat.lt_irrefl 0 h

/-- `index * elementSize`, a product of `int`s. -/
def offset (self : Queue) (index : UInt16) : Option Nat :=
  (CInt.mul index.toNat self.elementSize.toNat).map Int.toNat

/-- `private_queueEnqueue`. -/
def enqueue (self : Queue) (pData : List UInt8) : Option Queue :=
  if self.isFull then some self
  else if self.elementCapacity = 0 then none
  else do
    let index := self.end_
    let endIndex := (self.begin.toNat + self.end_.toNat) % self.elementCapacity.toNat
    let availableSpace := UInt16.ofNat (self.elementCapacity.toNat - endIndex)
    if availableSpace = 0 then return { self with isFull := true }
    let bytes ← Buffer.readAt pData 0 self.elementSize.toNat
    let off ← self.offset index
    let pDataArray ← Buffer.writeAt self.pDataArray off bytes
    return { self with end_ := self.advance self.end_, pDataArray := pDataArray }

/-- `private_queueDequeue`. The second component is what `pData` points to after the call. -/
def dequeue (self : Queue) (pData : List UInt8) : Option (Queue × List UInt8) :=
  if self.begin = self.end_ then some (self, pData)
  else do
    let index := self.begin
    let availableSpace := self.end_ - self.begin
    if availableSpace = 0 then return ({ self with isFull := false }, pData)
    if self.elementCapacity = 0 then none
    let off ← self.offset index
    let bytes ← Buffer.readAt self.pDataArray off self.elementSize.toNat
    let pData ← Buffer.writeAt pData 0 bytes
    return ({ self with begin := self.advance self.begin }, pData)

/-- `private_queueIsEmpty`. -/
def queueIsEmpty (self : Queue) : Bool := self.begin == self.end_

/-- `private_queueIsFull`. -/
def queueIsFull (self : Queue) : Bool := self.isFull

/-- `availableSpace` is never 0, so a call always reaches its `memcpy`. -/
theorem enqueue_eq {s : Queue} {pData : List UInt8} (hcap : 0 < s.elementCapacity.toNat)
    (hfull : s.isFull = false) (hlen : pData.length = s.elementSize.toNat) :
    s.enqueue pData = (s.offset s.end_).bind fun off =>
      (Buffer.writeAt s.pDataArray off pData).map fun pDataArray =>
        { s with end_ := s.advance s.end_, pDataArray := pDataArray } := by
  have hspace : UInt16.ofNat (s.elementCapacity.toNat -
      (s.begin.toNat + s.end_.toNat) % s.elementCapacity.toNat) ≠ 0 := by
    have hlt := Nat.mod_lt (s.begin.toNat + s.end_.toNat) hcap
    have hbound := s.elementCapacity.toNat_lt
    intro hzero
    have hnat := congrArg UInt16.toNat hzero
    rw [UInt16.toNat_ofNat_of_lt' (show _ < 65536 by omega), UInt16.toNat_zero] at hnat
    omega
  rw [enqueue, hfull, if_neg Bool.false_ne_true, if_neg (elementCapacity_ne_zero hcap),
    if_neg hspace, Buffer.readAt_zero hlen]
  simp only [Option.bind_eq_bind, Option.bind_some, Option.pure_def, Option.map_eq_bind,
    Function.comp_def]

/-- What a call copies from a queue that does not look empty. -/
theorem dequeue_eq {s : Queue} {pData : List UInt8} (hcap : 0 < s.elementCapacity.toNat)
    (hne : s.begin ≠ s.end_) (hlen : pData.length = s.elementSize.toNat) :
    s.dequeue pData = (s.offset s.begin).bind fun off =>
      (Buffer.readAt s.pDataArray off s.elementSize.toNat).map fun bytes =>
        ({ s with begin := s.advance s.begin }, bytes) := by
  rw [dequeue, if_neg hne, if_neg (end_sub_begin_ne_zero hne),
    if_neg (elementCapacity_ne_zero hcap)]
  cases s.offset s.begin with
  | none => rfl
  | some off =>
    cases hread : Buffer.readAt s.pDataArray off s.elementSize.toNat with
    | none => simp [hread]
    | some bytes =>
      have hwrite : Buffer.writeAt pData 0 bytes = some bytes :=
        Buffer.writeAt_zero ((Buffer.readAt_eq_some hread).2.trans hlen.symm)
      simp [hread, hwrite]

/-! ## Calls -/

/-- An element, or a variable for one: `n` bytes. -/
abbrev Element (n : Nat) := { bytes : List UInt8 // bytes.length = n }

/-- A call; `dequeue` with what `pData` points to. -/
inductive Call (n : Nat) where
  | enqueue (pData : Element n)
  | dequeue (pData : Element n)

/-- A call and what `pData` points to after it. -/
def call {n : Nat} (self : Queue) : Call n → Option (Queue × List UInt8)
  | .enqueue pData => (self.enqueue pData.1).map fun self' => (self', pData.1)
  | .dequeue pData => self.dequeue pData.1

/-- What the structure is for: a list, oldest element first, of at most `capacity` elements. -/
def specCall {n : Nat} (capacity : Nat) (q : List (Element n)) :
    Call n → List (Element n) × List UInt8
  | .enqueue pData => (if q.length < capacity then q ++ [pData] else q, pData.1)
  | .dequeue pData =>
    match q with
    | [] => ([], pData.1)
    | x :: q' => (q', x.1)

/-- The structure after some calls agrees with the list after the same calls. -/
structure Agrees {n : Nat} (capacity : Nat) (s : Queue × List (Call n × List UInt8))
    (a : List (Element n) × List (Call n × List UInt8)) : Prop where
  replies : s.2 = a.2
  full : s.1.queueIsFull = true ↔ a.1.length = capacity
  noop : a.1.length = capacity → ∀ pData, s.1.enqueue pData = some s.1
  empty : s.1.queueIsEmpty = true ↔ a.1.length = 0

/-- From `s` the calls are defined, and they lead to a structure that agrees with the list that
they lead to from `a`. -/
def Behaves {n : Nat} (capacity : Nat) (s : Queue × List (Call n × List UInt8))
    (a : List (Element n) × List (Call n × List UInt8)) (calls : List (Call n)) : Prop :=
  ∃ s' a', run (logged call) s calls = some s' ∧
    run (logged fun q c => some (specCall capacity q c)) a calls = some a' ∧
    Agrees capacity s' a'

/-- With `held` elements held and `count` enqueues done: no enqueue comes when `capacity - 1`
elements are held, and every slot that an enqueue writes has an `int` offset. -/
def Safe {n : Nat} (capacity : Nat) : Nat → Nat → List (Call n) → Prop
  | _, _, [] => True
  | held, count, .enqueue _ :: calls =>
    held + 1 < capacity ∧ ((count % capacity * n : Nat) : Int) ≤ CInt.intMax ∧
      Safe capacity (held + 1) (count + 1) calls
  | held, count, .dequeue _ :: calls => Safe capacity (held - 1) count calls

/-! ## The structure stands for a list -/

variable {cap es : UInt16} [NeZero cap.toNat]

/-- After `d` dequeues the structure stands for `q`. -/
structure Abs (cap es : UInt16) [NeZero cap.toNat] (s : Queue) (d : Nat)
    (q : List (Element es.toNat)) : Prop where
  size : s.elementSize = es
  capacity : s.elementCapacity = cap
  notFull : s.isFull = false
  array : s.pDataArray.length = cap.toNat * es.toNat
  length_lt : q.length < cap.toNat
  begin_eq : s.begin.toNat = d % cap.toNat
  end_eq : s.end_.toNat = (d + q.length) % cap.toNat
  holds : Ring.Holds (fun j : Fin cap.toNat => Buffer.block es.toNat s.pDataArray j) d
    (q.map Subtype.val)
  offsets : ∀ i < q.length, (((d + i) % cap.toNat * es.toNat : Nat) : Int) ≤ CInt.intMax

section Step

variable {s : Queue} {d : Nat} {q : List (Element es.toNat)}

theorem abs_queueInitialize {pDataArray : List UInt8}
    (hlen : pDataArray.length = cap.toNat * es.toNat) :
    Abs cap es (queueInitialize pDataArray es cap) 0 [] where
  size := rfl
  capacity := rfl
  notFull := rfl
  array := hlen
  length_lt := Nat.pos_of_neZero _
  begin_eq := (Nat.zero_mod _).symm
  end_eq := (Nat.zero_mod _).symm
  holds := Ring.Holds.nil _ _
  offsets := fun _ h => absurd h (Nat.not_lt_zero _)

theorem Abs.cap_pos (h : Abs cap es s d q) : 0 < s.elementCapacity.toNat := by
  rw [h.capacity]
  exact Nat.pos_of_neZero _

theorem Abs.toNat_advance (h : Abs cap es s d q) (x : UInt16) :
    (s.advance x).toNat = (x.toNat + 1) % cap.toNat := by
  rw [Queue.toNat_advance h.cap_pos, h.capacity]

theorem Abs.offset_eq (h : Abs cap es s d q) (index : UInt16) :
    s.offset index =
      if ((index.toNat * es.toNat : Nat) : Int) ≤ CInt.intMax
      then some (index.toNat * es.toNat) else none := by
  rw [offset, h.size, CInt.map_toNat_mul]

/-- `begin == end` only where nothing is held. -/
theorem Abs.begin_eq_end_iff (h : Abs cap es s d q) : s.begin = s.end_ ↔ q.length = 0 := by
  have hlen := h.length_lt
  rw [← UInt16.toNat_inj, h.begin_eq, h.end_eq, ← Ring.slot_eq_iff]
  constructor
  · intro heq
    by_contra hne
    exact Ring.slot_ne (by omega) (by omega) heq
  · intro hzero
    rw [hzero, Nat.add_zero]

theorem Abs.agrees (h : Abs cap es s d q) (log : List (Call es.toNat × List UInt8)) :
    Agrees cap.toNat (s, log) (q, log) where
  replies := rfl
  full := by
    have hlen := h.length_lt
    rw [queueIsFull, h.notFull]
    simp only [Bool.false_eq_true, false_iff]
    omega
  noop := fun hfull => absurd hfull (Nat.ne_of_lt h.length_lt)
  empty := by rw [queueIsEmpty, beq_iff_eq, h.begin_eq_end_iff]

theorem Abs.end_lt (h : Abs cap es s d q) : s.end_.toNat < cap.toNat := by
  rw [h.end_eq]
  exact Nat.mod_lt _ (Nat.pos_of_neZero _)

theorem Abs.begin_lt (h : Abs cap es s d q) : s.begin.toNat < cap.toNat := by
  rw [h.begin_eq]
  exact Nat.mod_lt _ (Nat.pos_of_neZero _)

theorem Abs.enqueue_overflow (h : Abs cap es s d q) (x : Element es.toNat)
    (hoff : ¬ ((s.end_.toNat * es.toNat : Nat) : Int) ≤ CInt.intMax) : s.enqueue x.1 = none := by
  rw [enqueue_eq h.cap_pos h.notFull (x.2.trans (congrArg _ h.size.symm)), h.offset_eq, if_neg hoff,
    Option.bind_none]

theorem Abs.enqueue_some (h : Abs cap es s d q) (x : Element es.toNat)
    (hoff : ((s.end_.toNat * es.toNat : Nat) : Int) ≤ CInt.intMax) :
    ∃ buf, s.enqueue x.1 = some { s with end_ := s.advance s.end_, pDataArray := buf } ∧
      buf.length = s.pDataArray.length ∧
      ∀ j, Buffer.block es.toNat buf j =
        if j = s.end_.toNat then x.1 else Buffer.block es.toNat s.pDataArray j := by
  obtain ⟨buf, hwrite, hlen, hblocks⟩ := Buffer.writeAt_block h.array h.end_lt x.2
  refine ⟨buf, ?_, hlen, hblocks⟩
  rw [enqueue_eq h.cap_pos h.notFull (x.2.trans (congrArg _ h.size.symm)), h.offset_eq, if_pos hoff,
    Option.bind_some, hwrite, Option.map_some]

/-- An enqueue with a slot to spare appends. -/
theorem Abs.enqueue_free (h : Abs cap es s d q) (x : Element es.toNat)
    (hoff : ((s.end_.toNat * es.toNat : Nat) : Int) ≤ CInt.intMax)
    (hfree : q.length + 1 < cap.toNat) :
    ∃ s', s.enqueue x.1 = some s' ∧ Abs cap es s' d (q ++ [x]) := by
  obtain ⟨buf, henq, hlen, hblocks⟩ := h.enqueue_some x hoff
  refine ⟨_, henq, h.size, h.capacity, h.notFull, hlen.trans h.array, ?_, h.begin_eq, ?_, ?_, ?_⟩
  · rw [List.length_append, List.length_singleton]
    exact hfree
  · simp only [h.toNat_advance, h.end_eq, List.length_append, List.length_singleton,
      Nat.mod_add_mod, Nat.add_assoc]
  · have hupdate : (fun j : Fin cap.toNat => Buffer.block es.toNat buf j) =
        Function.update (fun j : Fin cap.toNat => Buffer.block es.toNat s.pDataArray j)
          (Ring.slot cap.toNat (d + (q.map Subtype.val).length)) x.1 := by
      funext j
      have hslot : j = Ring.slot cap.toNat (d + (q.map Subtype.val).length) ↔
          j.val = s.end_.toNat := by
        rw [← Fin.val_inj, Ring.slot_val, List.length_map, h.end_eq]
      rw [hblocks, Function.update_apply]
      simp only [hslot]
    simp only [hupdate, List.map_append, List.map_singleton]
    exact h.holds.put (by rw [List.length_map]; exact h.length_lt) x.1
  · intro i hi
    rw [List.length_append, List.length_singleton] at hi
    by_cases hlast : i = q.length
    · rw [hlast, ← h.end_eq]
      exact hoff
    · exact h.offsets i (by omega)

/-- An enqueue with all slots but one in use makes the queue look empty. -/
theorem Abs.enqueue_wrap (h : Abs cap es s d q) (x : Element es.toNat)
    (hoff : ((s.end_.toNat * es.toNat : Nat) : Int) ≤ CInt.intMax)
    (hlast : q.length + 1 = cap.toNat) :
    ∃ s', s.enqueue x.1 = some s' ∧ s'.queueIsEmpty = true := by
  obtain ⟨buf, henq, -, -⟩ := h.enqueue_some x hoff
  refine ⟨_, henq, ?_⟩
  rw [queueIsEmpty, beq_iff_eq, ← UInt16.toNat_inj]
  simp only [h.toNat_advance, h.begin_eq, h.end_eq, Nat.mod_add_mod, Nat.add_assoc, hlast,
    Nat.add_mod_right]

theorem Abs.dequeue_nil (h : Abs cap es s d ([] : List (Element es.toNat))) (pData : List UInt8) :
    s.dequeue pData = some (s, pData) := by
  rw [dequeue, if_pos (h.begin_eq_end_iff.mpr rfl)]

theorem Abs.dequeue_cons {x : Element es.toNat} (h : Abs cap es s d (x :: q))
    (pData : Element es.toNat) :
    ∃ s', s.dequeue pData.1 = some (s', x.1) ∧ Abs cap es s' (d + 1) q := by
  have hne : s.begin ≠ s.end_ := by
    rw [ne_eq, h.begin_eq_end_iff]
    exact Nat.succ_ne_zero _
  have hoff := h.offsets 0 (Nat.succ_pos _)
  rw [Nat.add_zero, ← h.begin_eq] at hoff
  have hx : Buffer.block es.toNat s.pDataArray s.begin.toNat = x.1 := by
    have hhead := h.holds.head_eq
    simp only [Ring.slot_val, ← h.begin_eq] at hhead
    exact hhead
  have hread := Buffer.readAt_block h.array h.begin_lt
  rw [hx] at hread
  refine ⟨{ s with begin := s.advance s.begin }, ?_, ?_⟩
  · rw [dequeue_eq h.cap_pos hne (pData.2.trans (congrArg _ h.size.symm)), h.offset_eq, if_pos hoff,
      h.size, Option.bind_some, hread, Option.map_some]
  · refine ⟨h.size, h.capacity, h.notFull, h.array, Nat.lt_of_succ_lt h.length_lt, ?_, ?_,
      h.holds.take, ?_⟩
    · simp only [h.toNat_advance, h.begin_eq, Nat.mod_add_mod]
    · simp only [h.end_eq, List.length_cons]
      congr 1
      omega
    · intro i hi
      have := h.offsets (i + 1) (Nat.succ_lt_succ hi)
      rwa [show d + (i + 1) = d + 1 + i by omega] at this

end Step

/-! ## Runs -/

/-- The calls behind a defined first call. -/
theorem behaves_cons {n capacity : Nat} {s s₁ : Queue} {q : List (Element n)}
    {log : List (Call n × List UInt8)} {c : Call n} {reply : List UInt8} {calls : List (Call n)}
    (hcall : s.call c = some (s₁, reply)) (hreply : (specCall capacity q c).2 = reply) :
    Behaves capacity (s, log) (q, log) (c :: calls) ↔
      Behaves capacity (s₁, log ++ [(c, reply)]) ((specCall capacity q c).1, log ++ [(c, reply)])
        calls := by
  have hs : logged call (s, log) c = some (s₁, log ++ [(c, reply)]) := by
    rw [logged, hcall, Option.map_some]
  have ha : logged (fun q c => some (specCall capacity q c)) (q, log) c =
      some ((specCall capacity q c).1, log ++ [(c, reply)]) := by
    rw [logged, Option.map_some, hreply]
  unfold Behaves
  rw [run, run, hs, ha, Option.bind_some, Option.bind_some]

theorem behaves_nil {n capacity : Nat} {s : Queue × List (Call n × List UInt8)}
    {a : List (Element n) × List (Call n × List UInt8)} :
    Behaves capacity s a [] ↔ Agrees capacity s a := by
  constructor
  · rintro ⟨s', a', hs, ha, h⟩
    cases hs
    cases ha
    exact h
  · intro h
    exact ⟨s, a, rfl, rfl, h⟩

theorem not_behaves_of_none {n capacity : Nat} {s : Queue} {q : List (Element n)}
    {log : List (Call n × List UInt8)} {c : Call n} (h : s.call c = none) (calls : List (Call n)) :
    ¬ Behaves capacity (s, log) (q, log) (c :: calls) := by
  rintro ⟨s', a', hs, -, -⟩
  rw [run, logged, h, Option.map_none, Option.bind_none] at hs
  exact absurd hs (by simp)

/-- With `c - 1` elements held, the next enqueue makes the queue look empty. -/
theorem Abs.not_behaves_last {s : Queue} {d : Nat} {q : List (Element es.toNat)}
    (h : Abs cap es s d q) (log : List (Call es.toNat × List UInt8)) (x : Element es.toNat)
    (hoff : ((s.end_.toNat * es.toNat : Nat) : Int) ≤ CInt.intMax)
    (hlast : q.length + 1 = cap.toNat) :
    ¬ Behaves cap.toNat (s, log) (q, log) [.enqueue x] := by
  intro hbehaves
  obtain ⟨s', henq, hempty⟩ := h.enqueue_wrap x hoff hlast
  have hcall : s.call (.enqueue x) = some (s', x.1) := by
    rw [call, henq, Option.map_some]
  have hspec : (specCall cap.toNat q (.enqueue x)).1 = q ++ [x] := if_pos h.length_lt
  have hlen := (behaves_nil.mp ((behaves_cons hcall rfl).mp hbehaves)).empty.mp hempty
  simp only [hspec, List.length_append, List.length_singleton] at hlen
  omega

/-- The theorem of this module, from any state that stands for a list. -/
theorem Abs.behaves_from {s : Queue} {d : Nat} {q : List (Element es.toNat)}
    (h : Abs cap es s d q) (log : List (Call es.toNat × List UInt8))
    (calls : List (Call es.toNat)) :
    (∀ pre, pre <+: calls → Behaves cap.toNat (s, log) (q, log) pre) ↔
      Safe cap.toNat q.length (d + q.length) calls := by
  induction calls generalizing s d q log with
  | nil =>
    simp only [List.prefix_nil, forall_eq, Safe, iff_true]
    exact behaves_nil.mpr (h.agrees log)
  | cons c calls ih =>
    rw [forall_prefix_cons]
    have hnow : Behaves cap.toNat (s, log) (q, log) [] := behaves_nil.mpr (h.agrees log)
    simp only [hnow, true_and]
    cases c with
    | enqueue x =>
      by_cases hoff : ((s.end_.toNat * es.toNat : Nat) : Int) ≤ CInt.intMax
      · have hoff' := hoff
        rw [h.end_eq] at hoff'
        by_cases hfree : q.length + 1 < cap.toNat
        · obtain ⟨s', henq, habs⟩ := h.enqueue_free x hoff hfree
          have hcall : s.call (.enqueue x) = some (s', x.1) := by
            rw [call, henq, Option.map_some]
          have hspec : (specCall cap.toNat q (.enqueue x)).1 = q ++ [x] :=
            if_pos (Nat.lt_of_succ_lt hfree)
          have hnext := ih habs (log ++ [(.enqueue x, x.1)])
          rw [List.length_append, List.length_singleton, ← Nat.add_assoc] at hnext
          simp only [behaves_cons hcall rfl, hspec, hnext, Safe, hfree, hoff', true_and]
        · have hlt := h.length_lt
          simp only [Safe, hfree, false_and, iff_false]
          intro hall
          exact h.not_behaves_last log x hoff (by omega) (hall [] List.nil_prefix)
      · have hnone : s.call (.enqueue x) = none := by
          rw [call, h.enqueue_overflow x hoff, Option.map_none]
        rw [h.end_eq] at hoff
        simp only [Safe, hoff, false_and, and_false, iff_false]
        intro hall
        exact not_behaves_of_none hnone [] (hall [] List.nil_prefix)
    | dequeue pData =>
      cases q with
      | nil =>
        have hcall : s.call (.dequeue pData) = some (s, pData.1) := h.dequeue_nil pData.1
        have hreply : (specCall cap.toNat [] (.dequeue pData)).2 = pData.1 := rfl
        have hnext := ih h (log ++ [(.dequeue pData, pData.1)])
        simp only [behaves_cons hcall hreply, specCall, hnext, Safe, List.length_nil]
      | cons x q =>
        obtain ⟨s', hdeq, habs⟩ := h.dequeue_cons pData
        have hcall : s.call (.dequeue pData) = some (s', x.1) := hdeq
        have hreply : (specCall cap.toNat (x :: q) (.dequeue pData)).2 = x.1 := rfl
        have hnext := ih habs (log ++ [(.dequeue pData, x.1)])
        rw [Nat.add_assoc, Nat.add_comm 1] at hnext
        simp only [behaves_cons hcall hreply, specCall, hnext, Safe, List.length_cons,
          Nat.add_sub_cancel]

/-- **`struct Queue` behaves as a queue of its capacity exactly in the safe runs.** In every state
of a run it agrees with the list if and only if the run has no enqueue with `c - 1` elements held
and no slot offset beyond the range of `int`. -/
theorem behaves_iff_safe (es cap : UInt16) (hcap : 1 ≤ cap.toNat) (pDataArray : List UInt8)
    (hlen : pDataArray.length = cap.toNat * es.toNat) (calls : List (Call es.toNat)) :
    (∀ pre, pre <+: calls →
      Behaves cap.toNat (queueInitialize pDataArray es cap, []) ([], []) pre) ↔
      Safe cap.toNat 0 0 calls := by
  have : NeZero cap.toNat := ⟨by omega⟩
  exact (abs_queueInitialize hlen).behaves_from [] calls

/-- Two slots of one byte: one enqueue and one dequeue are safe, two enqueues are not. -/
theorem behaves_iff_safe_two :
    (∀ pre, pre <+: [Call.enqueue ⟨[1], rfl⟩, .dequeue ⟨[9], rfl⟩] →
      Behaves 2 (queueInitialize [0, 0] 1 2, []) ([], []) pre) ∧
    ¬ ∀ pre, pre <+: [Call.enqueue ⟨[1], rfl⟩, .enqueue ⟨[2], rfl⟩] →
      Behaves 2 (queueInitialize [0, 0] 1 2, []) ([], []) pre := by
  constructor
  · refine (behaves_iff_safe 1 2 (by decide) [0, 0] rfl _).mpr ?_
    exact ⟨by decide, by decide, trivial⟩
  · intro hall
    have hsafe := (behaves_iff_safe 1 2 (by decide) [0, 0] rfl _).mp hall
    exact absurd hsafe.2.2.1 (by decide)

/-- Two slots of one byte and two enqueues: the queue holds two elements and says that it is empty
and not full, and a dequeue delivers nothing. -/
theorem enqueue_loses_elements :
    (∃ s log, run (logged call) (queueInitialize [0, 0] 1 2, [])
        [Call.enqueue (n := 1) ⟨[1], rfl⟩, .enqueue ⟨[2], rfl⟩, .dequeue ⟨[9], rfl⟩] =
          some (s, log) ∧
      log.map Prod.snd = [[1], [2], [9]] ∧ s.queueIsEmpty = true ∧ s.queueIsFull = false) ∧
    ¬ Behaves 2 (queueInitialize [0, 0] 1 2, []) ([], [])
        [Call.enqueue (n := 1) ⟨[1], rfl⟩, .enqueue ⟨[2], rfl⟩] := by
  refine ⟨⟨_, _, rfl, rfl, rfl, rfl⟩, ?_⟩
  rintro ⟨s, a, hs, ha, h⟩
  cases hs
  cases ha
  exact absurd (h.empty.mp rfl) (by decide)

end Queue

end CppExamples.Queues
