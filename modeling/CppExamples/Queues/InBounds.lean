import CppExamples.Queues.Resize

/-!
# `struct Queue` stays inside its array (`cjunk/practice/queue.h:1-59,81-109`)

`private_queueEnqueue` and `private_queueDequeue` reduce their counters modulo the capacity.
`private_queueGetData` and `private_queueSetData` do not reduce `begin + index`. They compare the
index with `end - begin`, which is an `int` and negative where the ring is wrapped, so that a slot
they use stands in front of `end`.

* `place`: the place of the array that a call copies to, copies from or returns, in exact numbers.
  `operateAt` is the call with its one access there.
* `InBounds`: the counters are below the capacity. `InBounds.operate`: every call is defined and
  keeps that. `InBounds.operate_of_some`: a call that does not return at once is its access at its
  place.
* `stays_inside`: in every run without resizes all accesses lie inside the array.
-/

namespace CppExamples.Queues.Queue

open Lib Lib.Machine

/-- A call other than a resize. -/
inductive Operation (n : Nat) where
  | enqueue (pData : Element n)
  | dequeue (pData : Element n)
  | clear
  | getData (index : UInt16)
  | setData (index : UInt16) (pData : Element n)

section Operations

variable {n : Nat} (self : Queue)

/-- The queue after a call. -/
def operate : Operation n → Option Queue
  | .enqueue pData => self.enqueue pData.1
  | .dequeue pData => (self.dequeue pData.1).map Prod.fst
  | .clear => some self.clear
  | .getData index => (self.getData index).map fun _ => self
  | .setData index pData => self.setData index pData.1

/-- The first byte of the range that a call copies to, copies from or returns, if there is one. -/
def place : Operation n → Option Nat
  | .enqueue _ => if self.isFull then none else some (self.end_.toNat * self.elementSize.toNat)
  | .dequeue _ =>
    if self.begin = self.end_ then none else some (self.begin.toNat * self.elementSize.toNat)
  | .clear => none
  | .getData index | .setData index _ =>
    if (index.toNat : Int) ≥ (self.end_.toNat : Int) - self.begin.toNat then none
    else some ((self.begin.toNat + index.toNat) * self.elementSize.toNat)

/-- A call that gets to its access. -/
def operateAt (off : Nat) : Operation n → Option Queue
  | .enqueue pData => (Buffer.writeAt self.pDataArray off pData.1).map fun pDataArray =>
    { self with end_ := self.advance self.end_, pDataArray := pDataArray }
  | .dequeue _ => (Buffer.readAt self.pDataArray off self.elementSize.toNat).map fun _ =>
    { self with begin := self.advance self.begin }
  | .clear => some self.clear
  | .getData _ => some self
  | .setData _ pData => (Buffer.writeAt self.pDataArray off pData.1).map fun pDataArray =>
    { self with pDataArray := pDataArray }

end Operations

/-! ## The counters stay below the capacity -/

/-- A queue of `cap` slots of `es` bytes whose array has room for them, with the counters below the
capacity. -/
structure InBounds (cap es : UInt16) (s : Queue) : Prop where
  size : s.elementSize = es
  capacity : s.elementCapacity = cap
  int : ((cap.toNat * es.toNat : Nat) : Int) ≤ CInt.intMax
  array : s.pDataArray.length = cap.toNat * es.toNat
  begin_lt : s.begin.toNat < cap.toNat
  end_lt : s.end_.toNat < cap.toNat

namespace InBounds

variable {cap es : UInt16} {s : Queue}

theorem cap_pos (h : InBounds cap es s) : 0 < s.elementCapacity.toNat := by
  have hlt := h.begin_lt
  rw [h.capacity]
  omega

theorem advance_lt (h : InBounds cap es s) (x : UInt16) : (s.advance x).toNat < cap.toNat := by
  have hlt := Nat.mod_lt (x.toNat + 1) h.cap_pos
  rwa [← toNat_advance h.cap_pos, h.capacity] at hlt

theorem length_eq (h : InBounds cap es s) (x : Element es.toNat) :
    x.1.length = s.elementSize.toNat := x.2.trans (congrArg _ h.size.symm)

/-- A slot below the capacity has its bytes inside the array. -/
theorem slot_le (h : InBounds cap es s) {j : Nat} (hj : j < cap.toNat) :
    j * s.elementSize.toNat + es.toNat ≤ cap.toNat * es.toNat := by
  rw [h.size, ← h.array]
  exact Buffer.block_bound h.array hj

theorem mul_eq (h : InBounds cap es s) {j : Nat} (hj : j < cap.toNat) :
    (CInt.mul j s.elementSize.toNat).map Int.toNat = some (j * s.elementSize.toNat) := by
  have hle := h.slot_le hj
  have hint := h.int
  rw [CInt.map_toNat_mul, if_pos (by omega)]

/-- What is not at or behind the difference of the counters stands in front of `end`. -/
theorem index_lt (h : InBounds cap es s) {i : UInt16}
    (hi : ¬ (i.toNat : Int) ≥ (s.end_.toNat : Int) - s.begin.toNat) :
    s.begin.toNat + i.toNat < cap.toNat := by
  have hend := h.end_lt
  omega

theorem offsetAt_eq (h : InBounds cap es s) {i : UInt16}
    (hi : ¬ (i.toNat : Int) ≥ (s.end_.toNat : Int) - s.begin.toNat) :
    s.offsetAt i = some ((s.begin.toNat + i.toNat) * s.elementSize.toNat) := by
  rw [offsetAt, ← Int.natCast_add]
  exact h.mul_eq (h.index_lt hi)

/-- The place of a call is that of a slot below the capacity. -/
theorem place_le (h : InBounds cap es s) (op : Operation es.toNat) {off : Nat}
    (hoff : s.place op = some off) : off + es.toNat ≤ cap.toNat * es.toNat := by
  cases op with
  | enqueue x =>
    obtain ⟨-, hslot⟩ := Option.ite_none_left_eq_some.mp hoff
    exact Option.some.inj hslot ▸ h.slot_le h.end_lt
  | dequeue x =>
    obtain ⟨-, hslot⟩ := Option.ite_none_left_eq_some.mp hoff
    exact Option.some.inj hslot ▸ h.slot_le h.begin_lt
  | clear => cases hoff
  | getData i =>
    obtain ⟨hi, hslot⟩ := Option.ite_none_left_eq_some.mp hoff
    exact Option.some.inj hslot ▸ h.slot_le (h.index_lt hi)
  | setData i x =>
    obtain ⟨hi, hslot⟩ := Option.ite_none_left_eq_some.mp hoff
    exact Option.some.inj hslot ▸ h.slot_le (h.index_lt hi)

/-! ## One call -/

theorem getData_eq (h : InBounds cap es s) (i : UInt16) :
    s.getData i = some (s.place (n := es.toNat) (.getData i)) := by
  rw [getData, place]
  by_cases hi : (i.toNat : Int) ≥ (s.end_.toNat : Int) - s.begin.toNat
  · rw [if_pos hi, if_pos hi]
  · have hle := h.slot_le (h.index_lt hi)
    rw [if_neg hi, if_neg hi, h.offsetAt_eq hi, Option.bind_eq_bind, Option.bind_some, h.array]
    exact if_pos (by omega)

/-- A call without a place leaves the array alone. -/
theorem operate_of_none {op : Operation es.toNat} (h : InBounds cap es s) (hop : s.place op = none) :
    s.operate op = some s ∨ s.operate op = some s.clear := by
  cases op with
  | enqueue x =>
    left
    have hfull : s.isFull = true := by simpa [place] using hop
    exact if_pos hfull
  | dequeue x =>
    left
    have hempty : s.begin = s.end_ := by simpa [place] using hop
    rw [operate, dequeue, if_pos hempty, Option.map_some]
  | clear => exact .inr rfl
  | getData i =>
    left
    rw [operate, h.getData_eq, Option.map_some]
  | setData i x =>
    left
    have hi : (i.toNat : Int) ≥ (s.end_.toNat : Int) - s.begin.toNat := by
      by_contra hi
      rw [place, if_neg hi] at hop
      cases hop
    exact if_pos hi

/-- A call with a place is its access there. -/
theorem operate_of_some (h : InBounds cap es s) {op : Operation es.toNat} {off : Nat}
    (hop : s.place op = some off) : s.operate op = s.operateAt off op := by
  cases op with
  | enqueue x =>
    obtain ⟨hfull, hslot⟩ := Option.ite_none_left_eq_some.mp hop
    rw [operate, enqueue_eq h.cap_pos (Bool.not_eq_true _ ▸ hfull) (h.length_eq x), offset,
      h.mul_eq h.end_lt, Option.bind_some, Option.some.inj hslot]
    rfl
  | dequeue x =>
    obtain ⟨hne, hslot⟩ := Option.ite_none_left_eq_some.mp hop
    rw [operate, dequeue_eq h.cap_pos hne (h.length_eq x), offset, h.mul_eq h.begin_lt,
      Option.bind_some, Option.some.inj hslot, Option.map_map]
    rfl
  | clear => rfl
  | getData i =>
    rw [operate, h.getData_eq, Option.map_some]
    rfl
  | setData i x =>
    obtain ⟨hi, hslot⟩ := Option.ite_none_left_eq_some.mp hop
    rw [operate, setData_eq hi (h.length_eq x), h.offsetAt_eq hi, Option.bind_some,
      Option.some.inj hslot]
    rfl

theorem clear (h : InBounds cap es s) : InBounds cap es s.clear := by
  have hpos := Nat.zero_lt_of_lt h.begin_lt
  exact ⟨h.size, h.capacity, h.int, h.array, hpos, hpos⟩

/-- The array written at the place of a call. -/
theorem exists_writeAt (h : InBounds cap es s) {off : Nat}
    (hle : off + es.toNat ≤ cap.toNat * es.toNat) (x : Element es.toNat) :
    ∃ buf, Buffer.writeAt s.pDataArray off x.1 = some buf ∧ buf.length = cap.toNat * es.toNat := by
  have hin : off + x.1.length ≤ s.pDataArray.length := by
    rw [x.2, h.array]
    exact hle
  have hwrite : Buffer.writeAt s.pDataArray off x.1 =
      some (s.pDataArray.take off ++ x.1 ++ s.pDataArray.drop (off + x.1.length)) := if_pos hin
  exact ⟨_, hwrite, (Buffer.writeAt_eq_some hwrite).2.trans h.array⟩

/-- Every call is defined and keeps the counters below the capacity. -/
theorem operate (h : InBounds cap es s) (op : Operation es.toNat) :
    ∃ s', s.operate op = some s' ∧ InBounds cap es s' := by
  cases hop : s.place op with
  | none =>
    rcases h.operate_of_none hop with hs | hs
    · exact ⟨s, hs, h⟩
    · exact ⟨s.clear, hs, h.clear⟩
  | some off =>
    have hle := h.place_le op hop
    rw [h.operate_of_some hop]
    cases op with
    | enqueue x =>
      obtain ⟨buf, hwrite, hlen⟩ := h.exists_writeAt hle x
      refine ⟨{ s with end_ := s.advance s.end_, pDataArray := buf }, ?_, h.size, h.capacity, h.int,
        hlen, h.begin_lt, h.advance_lt _⟩
      rw [operateAt, hwrite, Option.map_some]
    | dequeue x =>
      have hin : off + s.elementSize.toNat ≤ s.pDataArray.length := by
        rw [h.size, h.array]
        exact hle
      refine ⟨{ s with begin := s.advance s.begin }, ?_, h.size, h.capacity, h.int, h.array,
        h.advance_lt _, h.end_lt⟩
      rw [operateAt, Buffer.readAt, if_pos hin, Option.map_some]
    | clear => exact ⟨s.clear, rfl, h.clear⟩
    | getData i => exact ⟨s, rfl, h⟩
    | setData i x =>
      obtain ⟨buf, hwrite, hlen⟩ := h.exists_writeAt hle x
      refine ⟨{ s with pDataArray := buf }, ?_, h.size, h.capacity, h.int, hlen, h.begin_lt, h.end_lt⟩
      rw [operateAt, hwrite, Option.map_some]

end InBounds

theorem inBounds_queueInitialize {cap es : UInt16} {pDataArray : List UInt8} (hcap : 1 ≤ cap.toNat)
    (hint : ((cap.toNat * es.toNat : Nat) : Int) ≤ CInt.intMax)
    (hlen : pDataArray.length = cap.toNat * es.toNat) :
    InBounds cap es (queueInitialize pDataArray es cap) :=
  ⟨rfl, rfl, hint, hlen, hcap, hcap⟩

/-- **`struct Queue` never touches memory outside its array.** Every run of calls other than resizes
is defined, with `begin` and `end` below the capacity behind it. The next call either leaves the
array alone or has its one access at its place, inside the array, and that place is what
`private_queueGetData` returns. -/
theorem stays_inside (es cap : UInt16) (hcap : 1 ≤ cap.toNat)
    (hint : ((cap.toNat * es.toNat : Nat) : Int) ≤ CInt.intMax) (pDataArray : List UInt8)
    (hlen : pDataArray.length = cap.toNat * es.toNat) (ops : List (Operation es.toNat)) :
    ∃ s, run operate (queueInitialize pDataArray es cap) ops = some s ∧
      s.begin.toNat < cap.toNat ∧ s.end_.toNat < cap.toNat ∧
      (∀ op : Operation es.toNat, match s.place op with
        | none => s.operate op = some s ∨ s.operate op = some s.clear
        | some off => s.operate op = s.operateAt off op ∧
            off + es.toNat ≤ cap.toNat * es.toNat) ∧
      ∀ i, s.getData i = some (s.place (n := es.toNat) (.getData i)) := by
  obtain ⟨s, hrun, h⟩ := exists_run (fun s op hs => InBounds.operate hs op)
    (inBounds_queueInitialize hcap hint hlen) ops
  refine ⟨s, hrun, h.begin_lt, h.end_lt, fun op => ?_, h.getData_eq⟩
  cases hop : s.place op with
  | none => exact h.operate_of_none hop
  | some off => exact ⟨h.operate_of_some hop, h.place_le op hop⟩

/-- Two slots of two bytes, an enqueue past the full ring and a write behind it. -/
theorem stays_inside_two :
    ∃ s, run operate (queueInitialize [0, 0, 0, 0] 2 2)
        [Operation.enqueue ⟨[1, 2], rfl⟩, .enqueue ⟨[3, 4], rfl⟩, .enqueue ⟨[5, 6], rfl⟩,
          .setData 0 ⟨[7, 8], rfl⟩, .dequeue ⟨[9, 9], rfl⟩, .getData 0] = some s ∧
      s.begin.toNat < 2 ∧ s.end_.toNat < 2 ∧
      ∀ i, s.getData i = some (s.place (n := 2) (.getData i)) := by
  obtain ⟨s, hrun, hbegin, hend, -, hget⟩ := stays_inside 2 2 (by decide) (by decide) [0, 0, 0, 0] rfl
    [.enqueue ⟨[1, 2], rfl⟩, .enqueue ⟨[3, 4], rfl⟩, .enqueue ⟨[5, 6], rfl⟩,
      .setData 0 ⟨[7, 8], rfl⟩, .dequeue ⟨[9, 9], rfl⟩, .getData 0]
  exact ⟨s, hrun, hbegin, hend, hget⟩

end CppExamples.Queues.Queue
