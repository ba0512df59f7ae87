import CppExamples.Queues.StructQueue

/-!
# Size and random access of `struct Queue` (`cjunk/practice/queue.h:71-109`)

`private_queueGetSize` stores `end - begin` in a `uint16_t`; `private_queueGetData` and
`private_queueSetData` compare the index with `end - begin` as an `int` and use the slot
`begin + index`. None of them takes a remainder modulo the capacity, as enqueue and dequeue do.
They are right as long as the elements held stand in one piece, from `begin` up to `end`, and the
size is wrong in every other state.

* `Delivers s q`: the elements that dequeues deliver from `s` on are those of `q`.
* `Describes s q`: `private_queueGetSize`, `private_queueGetData` and `private_queueSetData` agree
  with the contents `q`.
* `describes_iff_unwrapped`: in every state of a run they agree iff the ring is not wrapped in any
  of them.
-/

namespace CppExamples.Queues.Queue

open Lib Lib.Machine

/-- `private_queueGetSize`. -/
def getSize (self : Queue) : UInt16 := self.end_ - self.begin

/-- `(begin + index) * elementSize`, in `int`. -/
def offsetAt (self : Queue) (index : UInt16) : Option Nat :=
  (CInt.mul (self.begin.toNat + index.toNat) self.elementSize.toNat).map Int.toNat

/-- `private_queueGetData`. The result is `NULL` (`some none`) or a place in the array. -/
def getData (self : Queue) (index : UInt16) : Option (Option Nat) :=
  if (index.toNat : Int) ≥ (self.end_.toNat : Int) - self.begin.toNat then some none
  else do
    let off ← self.offsetAt index
    if off ≤ self.pDataArray.length then some (some off) else none

/-- `private_queueSetData`. -/
def setData (self : Queue) (index : UInt16) (pData : List UInt8) : Option Queue :=
  if (index.toNat : Int) ≥ (self.end_.toNat : Int) - self.begin.toNat then some self
  else do
    let off ← self.offsetAt index
    let bytes ← Buffer.readAt pData 0 self.elementSize.toNat
    let pDataArray ← Buffer.writeAt self.pDataArray off bytes
    return { self with pDataArray := pDataArray }

/-- Where the index is one of the queue, `pData` is copied to its slot. -/
theorem setData_eq {s : Queue} {index : UInt16} {pData : List UInt8}
    (hlt : ¬ (index.toNat : Int) ≥ (s.end_.toNat : Int) - s.begin.toNat)
    (hlen : pData.length = s.elementSize.toNat) :
    s.setData index pData = (s.offsetAt index).bind fun off =>
      (Buffer.writeAt s.pDataArray off pData).map fun pDataArray =>
        { s with pDataArray := pDataArray } := by
  rw [setData, if_neg hlt, Buffer.readAt_zero hlen]
  simp only [Option.bind_eq_bind, Option.bind_some, Option.pure_def, Option.map_eq_bind,
    Function.comp_def]

/-! ## Calls -/

/-- A call that may change the queue. -/
inductive Access (n : Nat) where
  | enqueue (pData : Element n)
  | dequeue (pData : Element n)
  | setData (index : UInt16) (pData : Element n)

/-- The queue after a call. -/
def access {n : Nat} (self : Queue) : Access n → Option Queue
  | .enqueue pData => self.enqueue pData.1
  | .dequeue pData => (self.dequeue pData.1).map Prod.fst
  | .setData index pData => self.setData index pData.1

/-- The contents after a call, oldest element first. -/
def specAccess {n : Nat} (q : List (Element n)) : Access n → List (Element n)
  | .enqueue pData => q ++ [pData]
  | .dequeue _ => q.tail
  | .setData index pData => q.set index.toNat pData

/-- The elements that dequeues deliver from here on, until the queue is empty. -/
def Delivers {n : Nat} : Queue → List (Element n) → Prop
  | s, [] => s.queueIsEmpty = true
  | s, x :: q => s.queueIsEmpty = false ∧
      ∀ pData : Element n, ∃ s', s.dequeue pData.1 = some (s', x.1) ∧ Delivers s' q

/-- Size and random access agree with the contents `q`. -/
structure Describes {n : Nat} (s : Queue) (q : List (Element n)) : Prop where
  delivers : Delivers s q
  size : s.getSize.toNat = q.length
  get : ∀ (i : UInt16) (h : i.toNat < q.length), ∃ off, s.getData i = some (some off) ∧
    Buffer.readAt s.pDataArray off n = some (q.get ⟨i.toNat, h⟩).1
  set : ∀ i : UInt16, i.toNat < q.length → ∀ x : Element n, ∃ s', s.setData i x.1 = some s' ∧
    Delivers s' (q.set i.toNat x)
  beyond : ∀ i : UInt16, q.length ≤ i.toNat → s.getData i = some none ∧
    ∀ x : Element n, s.setData i x.1 = some s

/-- After `d` dequeued elements and with `held` elements held: in every state the elements held
stand in one piece, and every slot that an enqueue writes has an `int` offset. -/
def Unwrapped {n : Nat} (capacity : Nat) : Nat → Nat → List (Access n) → Prop
  | d, held, [] => d % capacity + held < capacity
  | d, held, .enqueue _ :: calls => d % capacity + held < capacity ∧
      ((((d + held) % capacity * n : Nat) : Int) ≤ CInt.intMax ∧
        Unwrapped capacity d (held + 1) calls)
  | d, held, .dequeue _ :: calls => d % capacity + held < capacity ∧
      Unwrapped capacity (if held = 0 then d else d + 1) (held - 1) calls
  | d, held, .setData _ _ :: calls => d % capacity + held < capacity ∧
      Unwrapped capacity d held calls

/-! ## One state -/

section State

variable {cap es : UInt16} [NeZero cap.toNat] {s : Queue} {d : Nat} {q : List (Element es.toNat)}

theorem Abs.delivers (h : Abs cap es s d q) : Delivers s q := by
  induction q generalizing s d with
  | nil =>
    unfold Delivers
    rw [queueIsEmpty, beq_iff_eq, h.begin_eq_end_iff]
    rfl
  | cons x q ih =>
    refine ⟨?_, fun pData => ?_⟩
    · rw [queueIsEmpty, beq_eq_false_iff_ne, ne_eq, h.begin_eq_end_iff]
      exact Nat.succ_ne_zero _
    · obtain ⟨s', hdeq, habs⟩ := h.dequeue_cons pData
      exact ⟨s', hdeq, ih habs⟩

/-- In one piece: `end` is as far behind `begin` as elements are held. -/
theorem Abs.end_of_unwrapped (h : Abs cap es s d q) (hw : d % cap.toNat + q.length < cap.toNat) :
    s.end_.toNat = s.begin.toNat + q.length := by
  rw [h.end_eq, h.begin_eq, ← Nat.mod_add_mod, Nat.mod_eq_of_lt hw]

/-- Wrapped: `end` is in front of `begin`, by the slots that are free. -/
theorem Abs.end_of_wrapped (h : Abs cap es s d q) (hw : ¬ d % cap.toNat + q.length < cap.toNat) :
    s.end_.toNat + cap.toNat = s.begin.toNat + q.length := by
  have hlen := h.length_lt
  have hd := Nat.mod_lt d (Nat.pos_of_neZero cap.toNat)
  rw [h.end_eq, h.begin_eq, ← Nat.mod_add_mod, Nat.mod_eq_sub_mod (by omega),
    Nat.mod_eq_of_lt (by omega)]
  omega

/-- **The size is right iff the ring is not wrapped.** -/
theorem Abs.getSize_iff (h : Abs cap es s d q) :
    s.getSize.toNat = q.length ↔ d % cap.toNat + q.length < cap.toNat := by
  have hcap := cap.toNat_lt
  have hlen := h.length_lt
  have hend := s.end_.toNat_lt
  have hbegin := s.begin.toNat_lt
  unfold getSize
  rw [UInt16.toNat_sub]
  by_cases hw : d % cap.toNat + q.length < cap.toNat
  · have heq := h.end_of_unwrapped hw
    simp only [hw, iff_true]
    omega
  · -- the difference is off by `2 ^ 16 - cap`
    have heq := h.end_of_wrapped hw
    simp only [hw, iff_false]
    omega

variable (hw : d % cap.toNat + q.length < cap.toNat)

include hw

/-- The index is compared with the number of elements held. -/
theorem Abs.index_ge_iff (h : Abs cap es s d q) (i : UInt16) :
    (i.toNat : Int) ≥ (s.end_.toNat : Int) - s.begin.toNat ↔ q.length ≤ i.toNat := by
  have heq := h.end_of_unwrapped hw
  omega

/-- The slot of the `i`-th oldest element. -/
theorem Abs.slot_of_index (h : Abs cap es s d q) {i : Nat} (hi : i < q.length) :
    s.begin.toNat + i = (d + i) % cap.toNat := by
  have hlt : d % cap.toNat + i < cap.toNat := by omega
  rw [h.begin_eq, ← Nat.mod_add_mod d cap.toNat i, Nat.mod_eq_of_lt hlt]

theorem Abs.offsetAt_eq (h : Abs cap es s d q) {i : UInt16} (hi : i.toNat < q.length) :
    s.offsetAt i = some ((d + i.toNat) % cap.toNat * es.toNat) := by
  unfold offsetAt
  rw [← Int.natCast_add, h.slot_of_index hw hi, h.size, CInt.map_toNat_mul,
    if_pos (h.offsets i.toNat hi)]

theorem Abs.getData_inside (h : Abs cap es s d q) {i : UInt16} (hi : i.toNat < q.length) :
    ∃ off, s.getData i = some (some off) ∧
      Buffer.readAt s.pDataArray off es.toNat = some (q.get ⟨i.toNat, hi⟩).1 := by
  have hslot := Nat.mod_lt (d + i.toNat) (Nat.pos_of_neZero cap.toNat)
  have hbound := Buffer.block_bound h.array hslot
  refine ⟨(d + i.toNat) % cap.toNat * es.toNat, ?_, ?_⟩
  · unfold getData
    rw [if_neg (mt (h.index_ge_iff hw i).mp (Nat.not_le.mpr hi)), h.offsetAt_eq hw hi]
    exact if_pos (by omega)
  · have hdata := h.holds.at_slot i.toNat (by rw [List.length_map]; exact hi)
    simp only [Ring.slot_val, List.get_eq_getElem, List.getElem_map] at hdata
    rw [Buffer.readAt_block h.array hslot, hdata]
    rfl

/-- Writing the `i`-th oldest element replaces it. -/
theorem Abs.setData_inside (h : Abs cap es s d q) {i : UInt16} (hi : i.toNat < q.length)
    (x : Element es.toNat) :
    ∃ s', s.setData i x.1 = some s' ∧ Abs cap es s' d (q.set i.toNat x) := by
  have hslot := Nat.mod_lt (d + i.toNat) (Nat.pos_of_neZero cap.toNat)
  obtain ⟨buf, hwrite, hlen, hblocks⟩ := Buffer.writeAt_block h.array hslot x.2
  have hupdate : (fun j : Fin cap.toNat => Buffer.block es.toNat buf j) =
      Function.update (fun j : Fin cap.toNat => Buffer.block es.toNat s.pDataArray j)
        (Ring.slot cap.toNat (d + i.toNat)) x.1 := by
    funext j
    rw [hblocks, Function.update_apply]
    simp only [← Fin.val_inj, Ring.slot_val]
  refine ⟨{ s with pDataArray := buf }, ?_, ?_⟩
  · rw [setData_eq (mt (h.index_ge_iff hw i).mp (Nat.not_le.mpr hi))
      (x.2.trans (congrArg _ h.size.symm)), h.offsetAt_eq hw hi, Option.bind_some, hwrite,
      Option.map_some]
  · refine ⟨h.size, h.capacity, h.notFull, hlen.trans h.array, ?_, h.begin_eq, ?_, ?_, ?_⟩
    · rw [List.length_set]
      exact h.length_lt
    · rw [List.length_set]
      exact h.end_eq
    · simp only [hupdate, List.map_set]
      exact h.holds.set (by rw [List.length_map]; exact hi) x.1
    · intro j hj
      rw [List.length_set] at hj
      exact h.offsets j hj

theorem Abs.beyond (h : Abs cap es s d q) {i : UInt16} (hi : q.length ≤ i.toNat) :
    s.getData i = some none ∧ ∀ x, s.setData i x = some s := by
  have hge := (h.index_ge_iff hw i).mpr hi
  exact ⟨if_pos hge, fun x => if_pos hge⟩

omit hw

/-- **Size and random access agree with the contents iff the ring is not wrapped.** -/
theorem Abs.describes_iff (h : Abs cap es s d q) :
    Describes s q ↔ d % cap.toNat + q.length < cap.toNat := by
  constructor
  · intro hdesc
    exact h.getSize_iff.mp hdesc.size
  · intro hw
    refine ⟨h.delivers, h.getSize_iff.mpr hw, fun i hi => h.getData_inside hw hi,
      fun i hi x => ?_, fun i hi => ?_⟩
    · obtain ⟨s', hset, habs⟩ := h.setData_inside hw hi x
      exact ⟨s', hset, habs.delivers⟩
    · obtain ⟨hget, hset⟩ := h.beyond hw hi
      exact ⟨hget, fun x => hset x.1⟩

end State

/-! ## Runs -/

/-- After the calls the queue agrees with its contents. -/
def Described {n : Nat} (s : Queue) (q : List (Element n)) (calls : List (Access n)) : Prop :=
  ∃ s', run access s calls = some s' ∧ Describes s' (calls.foldl specAccess q)

theorem described_cons {n : Nat} {s s' : Queue} {q : List (Element n)} {c : Access n}
    {calls : List (Access n)} (h : s.access c = some s') :
    Described s q (c :: calls) ↔ Described s' (specAccess q c) calls := by
  unfold Described
  rw [run, h, Option.bind_some, List.foldl_cons]

theorem not_described_of_none {n : Nat} {s : Queue} {q : List (Element n)} {c : Access n}
    {calls : List (Access n)} (h : s.access c = none) : ¬ Described s q (c :: calls) := by
  rintro ⟨s', hs, -⟩
  rw [run, h, Option.bind_none] at hs
  exact absurd hs (by simp)

theorem described_nil {n : Nat} {s : Queue} {q : List (Element n)} :
    Described s q [] ↔ Describes s q := by
  constructor
  · rintro ⟨s', hs, h⟩
    cases hs
    exact h
  · exact fun h => ⟨s, rfl, h⟩

section Runs

variable {cap es : UInt16} [NeZero cap.toNat]

section Step

variable {s : Queue} {d : Nat} {q : List (Element es.toNat)}

/-- A dequeue leaves the rest, and an empty queue as it is. -/
theorem Abs.access_dequeue (h : Abs cap es s d q) (pData : Element es.toNat) :
    ∃ s', s.access (.dequeue pData) = some s' ∧
      Abs cap es s' (if q.length = 0 then d else d + 1) q.tail := by
  cases q with
  | nil => exact ⟨s, by rw [access, h.dequeue_nil pData.1, Option.map_some], h⟩
  | cons x q =>
    obtain ⟨s', hdeq, habs⟩ := h.dequeue_cons pData
    exact ⟨s', by rw [access, hdeq, Option.map_some], habs⟩

/-- In one piece, a write replaces the element with that index, if there is one. -/
theorem Abs.access_setData (h : Abs cap es s d q) (hw : d % cap.toNat + q.length < cap.toNat)
    (i : UInt16) (x : Element es.toNat) :
    ∃ s', s.access (.setData i x) = some s' ∧ Abs cap es s' d (q.set i.toNat x) := by
  by_cases hi : i.toNat < q.length
  · exact h.setData_inside hw hi x
  · have hbeyond := Nat.not_lt.mp hi
    rw [List.set_eq_of_length_le hbeyond]
    exact ⟨s, (h.beyond hw hbeyond).2 x.1, h⟩

end Step

/-- The theorem of this module, from any state that stands for a list. -/
theorem Abs.described_from {s : Queue} {d : Nat} {q : List (Element es.toNat)}
    (h : Abs cap es s d q) (calls : List (Access es.toNat))
    (hheld : ∀ pre, pre <+: calls → (pre.foldl specAccess q).length < cap.toNat) :
    (∀ pre, pre <+: calls → Described s q pre) ↔ Unwrapped cap.toNat d q.length calls := by
  induction calls generalizing s d q with
  | nil =>
    simp only [List.prefix_nil, forall_eq, Unwrapped]
    exact described_nil.trans h.describes_iff
  | cons c calls ih =>
    rw [forall_prefix_cons, described_nil, h.describes_iff]
    have hheld' : ∀ pre, pre <+: calls →
        (pre.foldl specAccess (specAccess q c)).length < cap.toNat :=
      (forall_prefix_cons.mp hheld).2
    by_cases hw : d % cap.toNat + q.length < cap.toNat
    · simp only [hw, true_and]
      cases c with
      | enqueue x =>
        have hfree : q.length + 1 < cap.toNat := by
          have := hheld' [] List.nil_prefix
          rwa [List.foldl_nil, specAccess, List.length_append, List.length_singleton] at this
        have hend := h.end_eq
        by_cases hoff : ((s.end_.toNat * es.toNat : Nat) : Int) ≤ CInt.intMax
        · obtain ⟨s', henq, habs⟩ := h.enqueue_free x hoff hfree
          have hcall : s.access (.enqueue x) = some s' := henq
          have hnext := ih habs hheld'
          rw [List.length_append, List.length_singleton] at hnext
          rw [hend] at hoff
          simp only [described_cons hcall, specAccess, hnext, Unwrapped, hw, hoff, true_and]
        · have hcall : s.access (.enqueue x) = none := h.enqueue_overflow x hoff
          rw [hend] at hoff
          simp only [Unwrapped, hoff, false_and, and_false, iff_false]
          exact fun hall => not_described_of_none hcall (hall [] List.nil_prefix)
      | dequeue pData =>
        obtain ⟨s', hcall, habs⟩ := h.access_dequeue pData
        have hnext := ih habs hheld'
        rw [List.length_tail] at hnext
        simp only [described_cons hcall, specAccess, hnext, Unwrapped, hw, true_and]
      | setData i x =>
        obtain ⟨s', hcall, habs⟩ := h.access_setData hw i x
        have hnext := ih habs hheld'
        rw [List.length_set] at hnext
        simp only [described_cons hcall, specAccess, hnext, Unwrapped, hw, true_and]
    · cases c <;> simp only [Unwrapped, hw, false_and]

end Runs

/-- **Size and random access agree with the contents in exactly the runs in which the ring never
wraps.** In a run with at most `c - 1` elements held, `private_queueGetSize`,
`private_queueGetData` and `private_queueSetData` are right in every state iff the elements held
stand in one piece in every state, and no enqueued slot has an offset beyond the range of `int`. -/
theorem describes_iff_unwrapped (es cap : UInt16) (hcap : 2 ≤ cap.toNat) (pDataArray : List UInt8)
    (hlen : pDataArray.length = cap.toNat * es.toNat) (calls : List (Access es.toNat))
    (hheld : ∀ pre, pre <+: calls → (pre.foldl specAccess []).length ≤ cap.toNat - 1) :
    (∀ pre, pre <+: calls → Described (queueInitialize pDataArray es cap) [] pre) ↔
      Unwrapped cap.toNat 0 0 calls := by
  have : NeZero cap.toNat := ⟨by omega⟩
  refine (abs_queueInitialize hlen).described_from calls fun pre hpre => ?_
  have := hheld pre hpre
  omega

/-- Three slots of one byte, a run of two enqueues and a write. -/
theorem describes_iff_unwrapped_three :
    Described (queueInitialize [0, 0, 0] 1 3) []
      [Access.enqueue ⟨[1], rfl⟩, .enqueue ⟨[2], rfl⟩, .setData 1 ⟨[3], rfl⟩] := by
  refine (describes_iff_unwrapped 1 3 (by decide) [0, 0, 0] rfl _ ?_).mpr ?_ _ List.prefix_rfl
  · simp only [forall_prefix_cons, List.prefix_nil, forall_eq]
    decide
  · unfold Unwrapped Unwrapped Unwrapped Unwrapped
    decide

/-- Two slots of one byte: after an enqueue and a dequeue, one element is enqueued. It is held, and
the size is 65535 and the element is not found. -/
theorem getSize_wraps :
    let calls : List (Access 1) :=
      [.enqueue ⟨[1], rfl⟩, .dequeue ⟨[9], rfl⟩, .enqueue ⟨[2], rfl⟩]
    (∀ pre, pre <+: calls → (pre.foldl specAccess []).length ≤ 1) ∧
      calls.foldl specAccess [] = [⟨[2], rfl⟩] ∧
      (∃ s, run access (queueInitialize [0, 0] 1 2) calls = some s ∧
        s.getSize = 65535 ∧ s.getData 0 = some none) ∧
      ¬ Described (queueInitialize [0, 0] 1 2) [] calls := by
  refine ⟨?_, rfl, ⟨_, rfl, rfl, rfl⟩, ?_⟩
  · simp only [forall_prefix_cons, List.prefix_nil, forall_eq]
    decide
  · rintro ⟨s, hs, h⟩
    cases hs
    exact absurd h.size (by decide)

end CppExamples.Queues.Queue
