import CppExamples.Queues.RandomAccess

/-!
# Resizing `struct Queue` (`cjunk/practice/queue.h:54-59,111-159`)

`private_queueSetCapacity` and `private_queueSetElementSize` allocate a new array, copy the whole of
the old one to its beginning and leave `begin` and `end` as they are.

* The size of the new array is a product stored in a `uint16_t`; the number of bytes copied is a
  product of the old capacity and the old element size, as an `int`.
* A slot number designates other bytes once the element size is another one, and a wrapped ring has
  other slots behind its last one once the capacity is another one.
* Both refuse where the wrapped difference `end - begin` exceeds the capacity that is asked for.

`free` has no effect here: the array given to `private_queueInitialize` is taken to come from
`malloc`.

* `Placed s`: the slots in use lie inside the array. `Placed.request`: no call leaves these states
  but a resize that is not `Carried`.
* `InRing.delivers_iff`: dequeues deliver the bytes of the slots in use.
* `resize_keeps`: in every run whose resizes are all carried, a resize keeps the contents iff it is
  carried, too.
-/

namespace CppExamples.Queues.Queue

open Lib Lib.Machine

/-- `private_queueClear`. -/
def clear (self : Queue) : Queue := { self with begin := 0, end_ := 0, isFull := false }

/-- The product of two `uint16_t`, an `int`. -/
def product (a b : UInt16) : Option Nat := (CInt.mul a.toNat b.toNat).map Int.toNat

/-- What `malloc` returns: `NULL`, or for every size an array of that size, holding anything. -/
abbrev Malloc := Option ((n : Nat) → Element n)

/-- `private_queueSetCapacity` and `private_queueSetElementSize`, for the capacity and the element
size that the queue is to have. -/
def reallocate (self : Queue) (malloc : Malloc) (elementCapacity elementSize : UInt16) :
    Option Queue :=
  let size := self.end_ - self.begin
  if size > elementCapacity then some self
  else do
    let newDataArraySize := UInt16.ofNat (← product elementCapacity elementSize)
    match malloc with
    | none => some self
    | some array =>
      let n ← product self.elementSize self.elementCapacity
      let bytes ← Buffer.readAt self.pDataArray 0 n
      let pNewDataArray ← Buffer.writeAt (array newDataArraySize.toNat).1 0 bytes
      return { self with
        pDataArray := pNewDataArray
        elementCapacity := elementCapacity
        elementSize := elementSize }

/-- `private_queueSetCapacity`. -/
def setCapacity (self : Queue) (malloc : Malloc) (elementCapacity : UInt16) : Option Queue :=
  self.reallocate malloc elementCapacity self.elementSize

/-- `private_queueSetElementSize`. -/
def setElementSize (self : Queue) (malloc : Malloc) (elementSize : UInt16) : Option Queue :=
  self.reallocate malloc self.elementCapacity elementSize

/-! ## Calls -/

/-- A call that may change the queue; `pData` is what the pointer points to. -/
inductive Request where
  | enqueue (pData : List UInt8)
  | dequeue (pData : List UInt8)
  | clear
  | setData (index : UInt16) (pData : List UInt8)
  | setCapacity (malloc : Malloc) (elementCapacity : UInt16)
  | setElementSize (malloc : Malloc) (elementSize : UInt16)

/-- The queue after a call. -/
def request (self : Queue) : Request → Option Queue
  | .enqueue pData => self.enqueue pData
  | .dequeue pData => (self.dequeue pData).map Prod.fst
  | .clear => some self.clear
  | .setData index pData => self.setData index pData
  | .setCapacity malloc elementCapacity => self.setCapacity malloc elementCapacity
  | .setElementSize malloc elementSize => self.setElementSize malloc elementSize

/-- The number of elements held. -/
def held (s : Queue) : Nat :=
  (s.end_.toNat + s.elementCapacity.toNat - s.begin.toNat) % s.elementCapacity.toNat

/-- The slot of the `k`-th oldest element. -/
def slotAt (s : Queue) (k : Nat) : Nat := (s.begin.toNat + k) % s.elementCapacity.toNat

/-- The size of the new array. -/
def newDataArraySize (elementCapacity elementSize : UInt16) : Nat :=
  elementCapacity.toNat * elementSize.toNat % 2 ^ 16

/-- What a resize from `s` is to do: it is defined, it copies no more bytes than it allocates,
`begin` and `end` are below the capacity, and dequeues deliver the same elements, as far as the
bytes of the old element size go. -/
def Keeps (s : Queue) (elementCapacity elementSize : UInt16) (result : Option Queue) : Prop :=
  ∃ s', result = some s' ∧
    (s.end_ - s.begin ≤ elementCapacity → s.elementSize.toNat * s.elementCapacity.toNat ≤
      newDataArraySize elementCapacity elementSize) ∧
    s'.begin.toNat < s'.elementCapacity.toNat ∧ s'.end_.toNat < s'.elementCapacity.toNat ∧
    ∃ (q : List (Element s.elementSize.toNat)) (q' : List (Element s'.elementSize.toNat)),
      Delivers s q ∧ Delivers s' q' ∧
        q'.map (fun x => x.1.take s.elementSize.toNat) = q.map Subtype.val

/-- The contents can be carried over to another capacity: the call refuses, or the old array fits
into the new one, whose size is a product in the range of `int`, `begin` and `end` are below the
new capacity, and the ring is not wrapped if the capacity changes. -/
def CapacityCarried (s : Queue) (elementCapacity : UInt16) : Prop :=
  elementCapacity < s.end_ - s.begin ∨
  ((elementCapacity.toNat * s.elementSize.toNat : Nat) : Int) ≤ CInt.intMax ∧
    s.elementSize.toNat * s.elementCapacity.toNat ≤
      newDataArraySize elementCapacity s.elementSize ∧
    s.begin < elementCapacity ∧ s.end_ < elementCapacity ∧
    (s.begin ≤ s.end_ ∨ elementCapacity = s.elementCapacity)

/-- The contents can be carried over to another element size: the call refuses, or the old array
fits into the new one, whose size is a product in the range of `int`, there is a slot at all, and
every slot in use lies inside the new array and, unless elements have no bytes, begins at the same
byte as before. -/
def ElementSizeCarried (s : Queue) (elementSize : UInt16) : Prop :=
  s.elementCapacity < s.end_ - s.begin ∨
  ((s.elementCapacity.toNat * elementSize.toNat : Nat) : Int) ≤ CInt.intMax ∧
    s.elementSize.toNat * s.elementCapacity.toNat ≤
      newDataArraySize s.elementCapacity elementSize ∧
    0 < s.elementCapacity ∧
    ∀ k < s.held,
      s.slotAt k * elementSize.toNat + elementSize.toNat ≤
        newDataArraySize s.elementCapacity elementSize ∧
      (s.elementSize = 0 ∨ s.slotAt k * elementSize.toNat = s.slotAt k * s.elementSize.toNat)

/-- The condition on a call. -/
def Carried (s : Queue) : Request → Prop
  | .setCapacity (some _) elementCapacity => CapacityCarried s elementCapacity
  | .setElementSize (some _) elementSize => ElementSizeCarried s elementSize
  | _ => True

instance (s : Queue) (c : UInt16) : Decidable (CapacityCarried s c) :=
  inferInstanceAs (Decidable (_ ∨ _))

instance (s : Queue) (e : UInt16) : Decidable (ElementSizeCarried s e) :=
  inferInstanceAs (Decidable (_ ∨ _))

instance (s : Queue) : (r : Request) → Decidable (Carried s r)
  | .setCapacity (some _) c => inferInstanceAs (Decidable (CapacityCarried s c))
  | .setElementSize (some _) e => inferInstanceAs (Decidable (ElementSizeCarried s e))
  | .setCapacity none _ | .setElementSize none _ => isTrue trivial
  | .enqueue _ | .dequeue _ | .clear | .setData _ _ => isTrue trivial

/-! ## The slots in use -/

/-- `begin` and `end` are below the capacity, or 0 where it is 0. -/
structure InRing (s : Queue) : Prop where
  begin_le : s.begin.toNat ≤ s.elementCapacity.toNat - 1
  end_le : s.end_.toNat ≤ s.elementCapacity.toNat - 1

namespace InRing

variable {s : Queue}

theorem held_of_le (h : InRing s) (hle : s.begin.toNat ≤ s.end_.toNat) :
    s.held = s.end_.toNat - s.begin.toNat := by
  have hend := h.end_le
  unfold held
  by_cases hcap : s.elementCapacity.toNat = 0
  · rw [hcap, Nat.mod_zero, Nat.add_zero]
  · rw [Nat.sub_add_comm hle, Nat.add_mod_right, Nat.mod_eq_of_lt (by omega)]

theorem held_of_gt (h : InRing s) (hgt : s.end_.toNat < s.begin.toNat) :
    s.held = s.end_.toNat + s.elementCapacity.toNat - s.begin.toNat := by
  have hbegin := h.begin_le
  unfold held
  rw [Nat.mod_eq_of_lt (by omega)]

theorem held_pos_iff (h : InRing s) : 0 < s.held ↔ s.begin ≠ s.end_ := by
  have hbegin := h.begin_le
  rw [ne_eq, ← UInt16.toNat_inj]
  by_cases hle : s.begin.toNat ≤ s.end_.toNat
  · have := h.held_of_le hle
    omega
  · have := h.held_of_gt (Nat.not_le.mp hle)
    omega

theorem cap_pos_of_held (h : InRing s) (hpos : 0 < s.held) : 0 < s.elementCapacity.toNat := by
  have hbegin := h.begin_le
  have hend := h.end_le
  have hne := h.held_pos_iff.mp hpos
  rw [ne_eq, ← UInt16.toNat_inj] at hne
  omega

/-- `end` is the slot behind the last one in use. -/
theorem slotAt_held (h : InRing s) (hcap : 0 < s.elementCapacity.toNat) :
    s.slotAt s.held = s.end_.toNat := by
  have hbegin := h.begin_le
  have hend := h.end_le
  unfold slotAt
  by_cases hle : s.begin.toNat ≤ s.end_.toNat
  · rw [h.held_of_le hle, Nat.add_sub_of_le hle, Nat.mod_eq_of_lt (by omega)]
  · rw [h.held_of_gt (Nat.not_le.mp hle), Nat.add_sub_of_le (by omega), Nat.add_mod_right,
      Nat.mod_eq_of_lt (by omega)]

/-- In one piece the slots in use are those from `begin` on. -/
theorem slotAt_of_le (h : InRing s) (hle : s.begin.toNat ≤ s.end_.toNat) {k : Nat}
    (hk : k < s.held) : s.slotAt k = s.begin.toNat + k := by
  have hend := h.end_le
  rw [h.held_of_le hle] at hk
  exact Nat.mod_eq_of_lt (by omega)

/-- The slots in use after a dequeue: all but the oldest. -/
theorem dequeued (h : InRing s) (hpos : 0 < s.held) :
    InRing { s with begin := s.advance s.begin } ∧
      ({ s with begin := s.advance s.begin } : Queue).held + 1 = s.held ∧
      ∀ k, ({ s with begin := s.advance s.begin } : Queue).slotAt k = s.slotAt (k + 1) := by
  have hcap := h.cap_pos_of_held hpos
  have hbegin := h.begin_le
  have hend := h.end_le
  have hadv := toNat_advance hcap s.begin
  have hring : InRing { s with begin := s.advance s.begin } := by
    refine ⟨?_, hend⟩
    simp only [hadv]
    have := Nat.mod_lt (s.begin.toNat + 1) hcap
    omega
  refine ⟨hring, ?_, fun k => ?_⟩
  · have hne := h.held_pos_iff.mp hpos
    rw [ne_eq, ← UInt16.toNat_inj] at hne
    by_cases hlast : s.begin.toNat + 1 = s.elementCapacity.toNat
    · -- `begin` comes round to slot 0
      rw [hlast, Nat.mod_self] at hadv
      rw [hring.held_of_le (by simp only [hadv]; omega), h.held_of_gt (by omega)]
      simp only [hadv]
      omega
    · rw [Nat.mod_eq_of_lt (by omega)] at hadv
      by_cases hle : s.begin.toNat ≤ s.end_.toNat
      · rw [hring.held_of_le (by simp only [hadv]; omega), h.held_of_le hle]
        simp only [hadv]
        omega
      · rw [hring.held_of_gt (by simp only [hadv]; omega), h.held_of_gt (by omega)]
        simp only [hadv]
        omega
  · simp only [slotAt, hadv, Nat.mod_add_mod]
    congr 1
    omega

/-- The slots in use after an enqueue: one more, or none where `end` has caught up. -/
theorem enqueued (h : InRing s) (hcap : 0 < s.elementCapacity.toNat) (buf : List UInt8) :
    InRing { s with end_ := s.advance s.end_, pDataArray := buf } ∧
      ({ s with end_ := s.advance s.end_, pDataArray := buf } : Queue).held ≤ s.held + 1 := by
  have hbegin := h.begin_le
  have hend := h.end_le
  have hadv := toNat_advance hcap s.end_
  have hring : InRing { s with end_ := s.advance s.end_, pDataArray := buf } := by
    refine ⟨hbegin, ?_⟩
    simp only [hadv]
    have := Nat.mod_lt (s.end_.toNat + 1) hcap
    omega
  refine ⟨hring, ?_⟩
  unfold held
  simp only [hadv]
  rw [Nat.add_sub_assoc (by omega), Nat.mod_add_mod,
    show s.end_.toNat + 1 + (s.elementCapacity.toNat - s.begin.toNat) =
      s.end_.toNat + s.elementCapacity.toNat - s.begin.toNat + 1 by omega, Nat.add_mod]
  refine (Nat.mod_le _ _).trans ?_
  exact Nat.add_le_add_left (Nat.mod_le _ _) _

end InRing

/-- The bytes of the `k`-th oldest element. -/
def content (s : Queue) (k : Nat) : List UInt8 :=
  Buffer.block s.elementSize.toNat s.pDataArray (s.slotAt k)

/-- The slot of the `k`-th oldest element lies inside the array, and its offset is an `int`. -/
def Inside (s : Queue) (k : Nat) : Prop :=
  ((s.slotAt k * s.elementSize.toNat : Nat) : Int) ≤ CInt.intMax ∧
    s.slotAt k * s.elementSize.toNat + s.elementSize.toNat ≤ s.pDataArray.length

theorem getElem?_content_zero {s : Queue} (hpos : 0 < s.elementSize.toNat) (k : Nat) :
    (s.content k)[0]? = s.pDataArray[s.slotAt k * s.elementSize.toNat]? :=
  Buffer.getElem?_block_zero hpos _

/-! ## Deliveries -/

section Deliveries

variable {s : Queue}

theorem Inside.readAt {k : Nat} (h : s.Inside k) :
    Buffer.readAt s.pDataArray (s.slotAt k * s.elementSize.toNat) s.elementSize.toNat =
      some (s.content k) := if_pos h.2

theorem Inside.length_content {k : Nat} (h : s.Inside k) :
    (s.content k).length = s.elementSize.toNat := (Buffer.readAt_eq_some h.readAt).2

/-- A dequeue from a queue that is not empty: it reads the slot of the oldest element. -/
theorem InRing.dequeue_eq_some (h : InRing s) (hpos : 0 < s.held) {s' : Queue} {pData : List UInt8}
    {reply : List UInt8} (hlen : pData.length = s.elementSize.toNat) :
    s.dequeue pData = some (s', reply) ↔
      s.Inside 0 ∧ s' = { s with begin := s.advance s.begin } ∧ reply = s.content 0 := by
  have hcap := h.cap_pos_of_held hpos
  have hbegin := h.begin_le
  have hne : s.begin ≠ s.end_ := h.held_pos_iff.mp hpos
  have hslot : s.slotAt 0 = s.begin.toNat := Nat.mod_eq_of_lt (by omega)
  have hoffset : s.offset s.begin =
      if ((s.slotAt 0 * s.elementSize.toNat : Nat) : Int) ≤ CInt.intMax
      then some (s.slotAt 0 * s.elementSize.toNat) else none := by
    rw [offset, CInt.map_toNat_mul, hslot]
  rw [dequeue_eq hcap hne hlen, hoffset]
  constructor
  · intro hs
    obtain ⟨off, hoff, h₁⟩ := Option.bind_eq_some_iff.mp hs
    obtain ⟨bytes, hread, h₂⟩ := Option.map_eq_some_iff.mp h₁
    rw [Option.ite_none_right_eq_some, Option.some.injEq] at hoff
    obtain ⟨hmax, rfl⟩ := hoff
    have hin : s.Inside 0 := ⟨hmax, (Buffer.readAt_eq_some hread).1⟩
    rw [hin.readAt, Option.some.injEq] at hread
    rw [Prod.mk.injEq] at h₂
    exact ⟨hin, h₂.1.symm, h₂.2.symm.trans hread.symm⟩
  · rintro ⟨hin, rfl, rfl⟩
    rw [if_pos hin.1, Option.bind_some, hin.readAt, Option.map_some]

/-- The elements held are the oldest one and those held after a dequeue. -/
theorem InRing.contents_cons (h : InRing s) (hpos : 0 < s.held) :
    (List.range s.held).map s.content = s.content 0 ::
      (List.range ({ s with begin := s.advance s.begin } : Queue).held).map
        ({ s with begin := s.advance s.begin } : Queue).content := by
  obtain ⟨-, hheld, hslot⟩ := h.dequeued hpos
  rw [← hheld, List.range_succ_eq_map, List.map_cons, List.map_map]
  congr 2
  funext k
  simp only [Function.comp_apply, content, hslot]

theorem InRing.inside_cons (h : InRing s) (hpos : 0 < s.held) :
    (∀ k < s.held, s.Inside k) ↔ s.Inside 0 ∧
      ∀ k < ({ s with begin := s.advance s.begin } : Queue).held,
        ({ s with begin := s.advance s.begin } : Queue).Inside k := by
  obtain ⟨-, hheld, hslot⟩ := h.dequeued hpos
  rw [← hheld, Nat.forall_lt_succ_left]
  simp only [Inside, hslot]

/-- **Dequeues deliver the bytes of the slots in use** and nothing else, if these slots lie inside
the array. -/
theorem InRing.delivers_iff {n : Nat} (h : InRing s) (hn : s.elementSize.toNat = n)
    (q : List (Element n)) :
    Delivers s q ↔ (∀ k < s.held, s.Inside k) ∧
      q.map Subtype.val = (List.range s.held).map s.content := by
  induction q generalizing s with
  | nil =>
    have hpos := h.held_pos_iff
    unfold Delivers
    rw [queueIsEmpty, beq_iff_eq, List.map_nil, @eq_comm _ [], List.map_eq_nil_iff,
      List.range_eq_nil]
    constructor
    · intro heq
      have hzero : s.held = 0 := by
        by_contra hne
        exact hpos.mp (by omega) heq
      exact ⟨fun k hk => absurd hk (by omega), hzero⟩
    · rintro ⟨-, hzero⟩
      by_contra hne
      exact absurd (hpos.mpr hne) (by omega)
  | cons x q ih =>
    unfold Delivers
    rw [queueIsEmpty, beq_eq_false_iff_ne, ← h.held_pos_iff, List.map_cons]
    by_cases hpos : 0 < s.held
    · have hnext := ih (h.dequeued hpos).1 hn
      subst hn
      rw [h.contents_cons hpos, h.inside_cons hpos, List.cons.injEq]
      constructor
      · rintro ⟨-, hall⟩
        obtain ⟨s', hs', hrest⟩ := hall ⟨List.replicate _ 0, List.length_replicate⟩
        obtain ⟨hin, rfl, hx⟩ := (h.dequeue_eq_some hpos List.length_replicate).mp hs'
        obtain ⟨hins, hq⟩ := hnext.mp hrest
        exact ⟨⟨hin, hins⟩, hx, hq⟩
      · rintro ⟨⟨hin, hins⟩, hx, hq⟩
        exact ⟨hpos, fun pData => ⟨_, (h.dequeue_eq_some hpos pData.2).mpr ⟨hin, rfl, hx⟩,
          hnext.mpr ⟨hins, hq⟩⟩⟩
    · have hzero : s.held = 0 := by omega
      rw [hzero, List.range_zero, List.map_nil]
      simp

/-- Where the slots in use lie inside the array, some list is delivered. -/
theorem InRing.exists_delivers (h : InRing s) (hin : ∀ k < s.held, s.Inside k) :
    ∃ q : List (Element s.elementSize.toNat), Delivers s q := by
  refine ⟨(List.range s.held).pmap (fun k hk => ⟨s.content k, (hin k hk).length_content⟩)
    fun k => List.mem_range.mp, (h.delivers_iff rfl _).mpr ⟨hin, ?_⟩⟩
  rw [List.map_pmap, List.pmap_eq_map]

end Deliveries

/-- The slots in use lie inside the array, which is as long as its slots unless its size was
truncated. -/
structure Placed (s : Queue) : Prop extends InRing s where
  room : s.pDataArray.length = s.elementCapacity.toNat * s.elementSize.toNat ∨
    2 ^ 16 ≤ s.elementCapacity.toNat * s.elementSize.toNat
  inside : ∀ k < s.held, s.Inside k

theorem placed_queueInitialize {es cap : UInt16} {pDataArray : List UInt8}
    (hlen : pDataArray.length = cap.toNat * es.toNat) :
    Placed (queueInitialize pDataArray es cap) where
  begin_le := Nat.zero_le _
  end_le := Nat.zero_le _
  room := .inl hlen
  inside := by
    intro k hk
    simp [queueInitialize, held] at hk

/-! ## What a call can do -/

section Calls

variable {s s' : Queue}

theorem enqueue_cases {pData : List UInt8} (h : s.enqueue pData = some s') :
    (∃ full, s' = { s with isFull := full }) ∨
    ∃ buf, s' = { s with end_ := s.advance s.end_, pDataArray := buf } ∧
      0 < s.elementCapacity.toNat ∧ buf.length = s.pDataArray.length ∧
      ((s.end_.toNat * s.elementSize.toNat : Nat) : Int) ≤ CInt.intMax ∧
      s.end_.toNat * s.elementSize.toNat + s.elementSize.toNat ≤ s.pDataArray.length := by
  unfold enqueue at h
  split at h
  · exact .inl ⟨s.isFull, (Option.some.inj h).symm⟩
  split at h
  · cases h
  next hcap =>
  dsimp only at h
  split at h
  · exact .inl ⟨true, (Option.some.inj h).symm⟩
  · obtain ⟨bytes, hread, h₁⟩ := Option.bind_eq_some_iff.mp h
    obtain ⟨off, hoff, h₂⟩ := Option.bind_eq_some_iff.mp h₁
    obtain ⟨buf, hwrite, h₃⟩ := Option.bind_eq_some_iff.mp h₂
    rw [offset, CInt.map_toNat_mul] at hoff
    split at hoff
    · next hmax =>
      cases hoff
      obtain ⟨hin, hlen⟩ := Buffer.writeAt_eq_some hwrite
      rw [(Buffer.readAt_eq_some hread).2] at hin
      refine .inr ⟨buf, (Option.some.inj h₃).symm, ?_, hlen, hmax, hin⟩
      exact Nat.pos_of_ne_zero fun hzero => hcap (UInt16.toNat_inj.mp hzero)
    · cases hoff

theorem dequeue_cases {pData reply : List UInt8} (h : s.dequeue pData = some (s', reply)) :
    (∃ full, s' = { s with isFull := full }) ∨
    s.begin ≠ s.end_ ∧ s' = { s with begin := s.advance s.begin } := by
  unfold dequeue at h
  split at h
  · cases h
    exact .inl ⟨s.isFull, rfl⟩
  next hne =>
  dsimp only at h
  split at h
  · cases h
    exact .inl ⟨false, rfl⟩
  split at h
  · cases h
  · obtain ⟨off, -, h₁⟩ := Option.bind_eq_some_iff.mp h
    obtain ⟨bytes, -, h₂⟩ := Option.bind_eq_some_iff.mp h₁
    obtain ⟨reply', -, h₃⟩ := Option.bind_eq_some_iff.mp h₂
    cases h₃
    exact .inr ⟨hne, rfl⟩

theorem setData_cases {index : UInt16} {pData : List UInt8}
    (h : s.setData index pData = some s') :
    ∃ buf, s' = { s with pDataArray := buf } ∧ buf.length = s.pDataArray.length := by
  unfold setData at h
  split at h
  · cases h
    exact ⟨s.pDataArray, rfl, rfl⟩
  · obtain ⟨off, -, h⟩ := Option.bind_eq_some_iff.mp h
    obtain ⟨bytes, -, h⟩ := Option.bind_eq_some_iff.mp h
    obtain ⟨buf, hwrite, h⟩ := Option.bind_eq_some_iff.mp h
    cases h
    exact ⟨buf, rfl, (Buffer.writeAt_eq_some hwrite).2⟩

theorem Placed.enqueue {pData : List UInt8} (h : Placed s) (hs : s.enqueue pData = some s') :
    Placed s' := by
  obtain ⟨full, rfl⟩ | ⟨buf, rfl, hcap, hlen, hmax, hin⟩ := enqueue_cases hs
  · exact ⟨⟨h.begin_le, h.end_le⟩, h.room, h.inside⟩
  · obtain ⟨hring, hheld⟩ := h.toInRing.enqueued hcap buf
    refine ⟨hring, ?_, fun k hk => ?_⟩
    · simp only [hlen]
      exact h.room
    · have hslot := h.slotAt_held hcap
      by_cases hlast : k = s.held
      · subst hlast
        simp only [Inside, slotAt, hlen] at hslot ⊢
        rw [hslot]
        exact ⟨hmax, hin⟩
      · have hold := h.inside k (by omega)
        simp only [Inside, slotAt, hlen] at hold ⊢
        exact hold

theorem Placed.dequeue {pData reply : List UInt8} (h : Placed s)
    (hs : s.dequeue pData = some (s', reply)) : Placed s' := by
  obtain ⟨full, rfl⟩ | ⟨hne, rfl⟩ := dequeue_cases hs
  · exact ⟨⟨h.begin_le, h.end_le⟩, h.room, h.inside⟩
  · have hpos := h.held_pos_iff.mpr hne
    exact ⟨(h.dequeued hpos).1, h.room, ((h.inside_cons hpos).mp h.inside).2⟩

theorem Placed.clear (h : Placed s) : Placed s.clear where
  begin_le := Nat.zero_le _
  end_le := Nat.zero_le _
  room := h.room
  inside := by
    intro k hk
    simp [Queue.clear, held] at hk

/-- Only the length of the array matters. -/
theorem Placed.withArray (h : Placed s) {buf : List UInt8}
    (hlen : buf.length = s.pDataArray.length) : Placed { s with pDataArray := buf } := by
  refine ⟨⟨h.begin_le, h.end_le⟩, ?_, fun k hk => ?_⟩
  · simp only [hlen]
    exact h.room
  · have hold := h.inside k hk
    simp only [Inside, slotAt, hlen] at hold ⊢
    exact hold

theorem Placed.setData {index : UInt16} {pData : List UInt8} (h : Placed s)
    (hs : s.setData index pData = some s') : Placed s' := by
  obtain ⟨buf, rfl, hlen⟩ := setData_cases hs
  exact h.withArray hlen

end Calls

/-! ## Reallocation -/

section Reallocation

variable {s s' : Queue} {array : (n : Nat) → Element n} {c e : UInt16}

/-- The queue with capacity `c` and element size `e` and a new array, to whose beginning the old one
is copied. -/
def moved (s : Queue) (array : (n : Nat) → Element n) (c e : UInt16) : Queue :=
  { s with
    pDataArray := s.pDataArray.take (s.elementSize.toNat * s.elementCapacity.toNat) ++
      (array (newDataArraySize c e)).1.drop (s.elementSize.toNat * s.elementCapacity.toNat)
    elementCapacity := c
    elementSize := e }

theorem reallocate_refused {malloc : Malloc} (h : c < s.end_ - s.begin) :
    s.reallocate malloc c e = some s := if_pos h

theorem newDataArraySize_lt (c e : UInt16) : newDataArraySize c e < 65536 :=
  Nat.mod_lt _ (by decide)

theorem product_eq_some {a b : UInt16} {n : Nat} :
    product a b = some n ↔ ((a.toNat * b.toNat : Nat) : Int) ≤ CInt.intMax ∧
      a.toNat * b.toNat = n := by
  unfold product
  rw [CInt.map_toNat_mul, Option.ite_none_right_eq_some, Option.some.injEq]

/-- What a reallocation that does not refuse needs, and what it does. -/
theorem reallocate_eq_some (h : ¬ c < s.end_ - s.begin) :
    s.reallocate (some array) c e = some s' ↔
      ((c.toNat * e.toNat : Nat) : Int) ≤ CInt.intMax ∧
      s.elementSize.toNat * s.elementCapacity.toNat ≤ s.pDataArray.length ∧
      s.elementSize.toNat * s.elementCapacity.toNat ≤ newDataArraySize c e ∧
      s' = s.moved array c e := by
  have hlt := newDataArraySize_lt c e
  have hlen := (array (newDataArraySize c e)).2
  unfold reallocate
  rw [if_neg h]
  constructor
  · intro hs
    obtain ⟨size, hsize, h₁⟩ := Option.bind_eq_some_iff.mp hs
    obtain ⟨n, hn, h₂⟩ := Option.bind_eq_some_iff.mp h₁
    obtain ⟨bytes, hread, h₃⟩ := Option.bind_eq_some_iff.mp h₂
    obtain ⟨buf, hwrite, h₄⟩ := Option.bind_eq_some_iff.mp h₃
    obtain ⟨hmax, rfl⟩ := product_eq_some.mp hsize
    obtain ⟨-, rfl⟩ := product_eq_some.mp hn
    obtain ⟨hsrc, hdst, rfl⟩ := Buffer.copy_eq_some.mp
      (Option.bind_eq_some_iff.mpr ⟨bytes, hread, hwrite⟩)
    exact ⟨hmax, hsrc, hdst.trans_eq hlen, (Option.some.inj h₄).symm⟩
  · rintro ⟨hmax, hsrc, hdst, rfl⟩
    have hint : ((s.elementSize.toNat * s.elementCapacity.toNat : Nat) : Int) ≤ CInt.intMax := by
      unfold CInt.intMax
      omega
    obtain ⟨bytes, hread, hwrite⟩ := Option.bind_eq_some_iff.mp
      (Buffer.copy_eq_some.mpr ⟨hsrc, hdst.trans_eq hlen.symm, rfl⟩)
    refine Option.bind_eq_some_iff.mpr ⟨_, product_eq_some.mpr ⟨hmax, rfl⟩, ?_⟩
    refine Option.bind_eq_some_iff.mpr ⟨_, product_eq_some.mpr ⟨hint, rfl⟩, ?_⟩
    refine Option.bind_eq_some_iff.mpr ⟨bytes, hread, ?_⟩
    exact Option.bind_eq_some_iff.mpr ⟨_, hwrite, rfl⟩

theorem map_take_val {n : Nat} (q : List (Element n)) (m : Nat) :
    q.map (fun x => x.1.take m) = (q.map Subtype.val).map (List.take m) := by
  rw [List.map_map]
  rfl

/-- The contents of `s` can be carried over to capacity `c` and element size `e`. -/
structure Movable (s : Queue) (c e : UInt16) : Prop where
  size : ((c.toNat * e.toNat : Nat) : Int) ≤ CInt.intMax
  copy : s.elementSize.toNat * s.elementCapacity.toNat ≤ newDataArraySize c e
  begin_lt : s.begin.toNat < c.toNat
  end_lt : s.end_.toNat < c.toNat
  order : s.begin.toNat ≤ s.end_.toNat ∨ c = s.elementCapacity
  le : s.elementSize.toNat ≤ e.toNat
  slots : ∀ k < s.held, s.slotAt k * e.toNat + e.toNat ≤ newDataArraySize c e ∧
    (s.elementSize = 0 ∨ s.slotAt k * e.toNat = s.slotAt k * s.elementSize.toNat)

/-- The copy reads the old array only where it is. -/
theorem Placed.source_le (h : Placed s)
    (hcopy : s.elementSize.toNat * s.elementCapacity.toNat ≤ newDataArraySize c e) :
    s.elementSize.toNat * s.elementCapacity.toNat ≤ s.pDataArray.length := by
  have hlt := newDataArraySize_lt c e
  rcases h.room with hlen | htrunc
  · rw [hlen, Nat.mul_comm]
  · rw [Nat.mul_comm] at htrunc
    omega

theorem Placed.length_moved (h : Placed s)
    (hcopy : s.elementSize.toNat * s.elementCapacity.toNat ≤ newDataArraySize c e) :
    (s.moved array c e).pDataArray.length = newDataArraySize c e := by
  have hsrc := h.source_le hcopy
  simp only [moved, List.length_append, List.length_take, List.length_drop,
    (array (newDataArraySize c e)).2]
  omega

namespace Movable

theorem reallocate (h : Movable s c e) (hs : Placed s) (hsize : ¬ c < s.end_ - s.begin) :
    s.reallocate (some array) c e = some (s.moved array c e) :=
  (reallocate_eq_some hsize).mpr ⟨h.size, hs.source_le h.copy, h.copy, rfl⟩

theorem inRing (h : Movable s c e) (array : (n : Nat) → Element n) :
    InRing (s.moved array c e) where
  begin_le := Nat.le_sub_one_of_lt h.begin_lt
  end_le := Nat.le_sub_one_of_lt h.end_lt

theorem held_eq (h : Movable s c e) (hs : InRing s) : (s.moved array c e).held = s.held := by
  rcases h.order with hle | rfl
  · rw [hs.held_of_le hle, (h.inRing array).held_of_le hle]
    rfl
  · rfl

theorem slotAt_eq (h : Movable s c e) (hs : InRing s) {k : Nat} (hk : k < s.held) :
    (s.moved array c e).slotAt k = s.slotAt k := by
  rcases h.order with hle | rfl
  · rw [hs.slotAt_of_le hle hk, (h.inRing array).slotAt_of_le hle]
    · rfl
    · rwa [h.held_eq hs]
  · rfl

theorem placed (h : Movable s c e) (hs : Placed s) : Placed (s.moved array c e) where
  toInRing := h.inRing array
  room := by
    rw [hs.length_moved h.copy]
    by_cases hlt : c.toNat * e.toNat < 2 ^ 16
    · exact .inl (Nat.mod_eq_of_lt hlt)
    · exact .inr (Nat.not_lt.mp hlt)
  inside := by
    intro k hk
    rw [h.held_eq hs.toInRing] at hk
    have hin : s.slotAt k * e.toNat + e.toNat ≤ newDataArraySize c e := (h.slots k hk).1
    have hlt := newDataArraySize_lt c e
    unfold Inside CInt.intMax
    rw [h.slotAt_eq hs.toInRing hk, hs.length_moved h.copy]
    refine ⟨?_, hin⟩
    simp only [moved]
    omega

/-- A slot in use that keeps its first byte keeps its bytes. -/
theorem content_eq (h : Movable s c e) (hs : Placed s) {k : Nat} (hk : k < s.held) :
    ((s.moved array c e).content k).take s.elementSize.toNat = s.content k := by
  obtain ⟨-, hoff⟩ := h.slots k hk
  have hcap := hs.cap_pos_of_held (by omega)
  unfold content
  rw [h.slotAt_eq hs.toInRing hk]
  by_cases hzero : s.elementSize = 0
  · simp [hzero, Buffer.block]
  · have hslot : s.slotAt k < s.elementCapacity.toNat := Nat.mod_lt _ hcap
    have hend : s.slotAt k * s.elementSize.toNat + s.elementSize.toNat ≤
        s.elementSize.toNat * s.elementCapacity.toNat := by
      rw [← Nat.succ_mul, Nat.mul_comm]
      exact Nat.mul_le_mul_left _ hslot
    exact Buffer.take_block_copy (hoff.resolve_left hzero) h.le hend (hs.source_le h.copy)

/-- **What is carried over is kept.** -/
theorem keeps (h : Movable s c e) (hs : Placed s) (hsize : ¬ c < s.end_ - s.begin) :
    Keeps s c e (s.reallocate (some array) c e) := by
  have hplaced : Placed (s.moved array c e) := h.placed hs
  obtain ⟨q, hq⟩ := hs.exists_delivers hs.inside
  obtain ⟨q', hq'⟩ := hplaced.exists_delivers hplaced.inside
  refine ⟨_, h.reallocate hs hsize, fun _ => h.copy, h.begin_lt, h.end_lt, q, q', hq, hq', ?_⟩
  have hcontents := ((hs.delivers_iff rfl q).mp hq).2
  have hcontents' := ((hplaced.delivers_iff rfl q').mp hq').2
  rw [map_take_val, hcontents, hcontents', List.map_map, h.held_eq hs.toInRing]
  refine List.map_congr_left fun k hk => ?_
  exact h.content_eq hs (List.mem_range.mp hk)

end Movable

/-- The old element size is at most the new one where the old array fits into the new one. -/
theorem le_of_copy (hcap : 0 < s.elementCapacity.toNat)
    (hcopy : s.elementSize.toNat * s.elementCapacity.toNat ≤
      newDataArraySize s.elementCapacity e) : s.elementSize.toNat ≤ e.toNat := by
  have hle := hcopy.trans (Nat.mod_le _ _)
  rw [Nat.mul_comm] at hle
  exact Nat.le_of_mul_le_mul_left hle hcap

/-- What `Keeps` says about a reallocation that does not refuse. -/
theorem keeps_reallocate (h : Keeps s c e (s.reallocate (some array) c e)) (hs : InRing s)
    (hsize : ¬ c < s.end_ - s.begin) :
    ((c.toNat * e.toNat : Nat) : Int) ≤ CInt.intMax ∧
      s.elementSize.toNat * s.elementCapacity.toNat ≤ newDataArraySize c e ∧
      s.begin.toNat < c.toNat ∧ s.end_.toNat < c.toNat ∧
      (∀ k < (s.moved array c e).held, (s.moved array c e).Inside k) ∧
      (List.range (s.moved array c e).held).map
          (fun k => ((s.moved array c e).content k).take s.elementSize.toNat) =
        (List.range s.held).map s.content := by
  obtain ⟨s', hres, hcopy, hbegin, hend, q, q', hq, hq', hsame⟩ := h
  obtain ⟨hmax, hsrc, -, rfl⟩ := (reallocate_eq_some hsize).mp hres
  have hring : InRing (s.moved array c e) :=
    ⟨Nat.le_sub_one_of_lt hbegin, Nat.le_sub_one_of_lt hend⟩
  obtain ⟨-, hcontents⟩ := (hs.delivers_iff rfl q).mp hq
  obtain ⟨hin, hcontents'⟩ := (hring.delivers_iff rfl q').mp hq'
  refine ⟨hmax, hcopy (UInt16.not_lt.mp hsize), hbegin, hend, hin, ?_⟩
  rw [← hcontents, ← hsame, map_take_val, hcontents', List.map_map]
  rfl

/-- A call that refuses changes nothing. -/
theorem keeps_refused (hs : Placed s) (hsize : c < s.end_ - s.begin) {malloc : Malloc} :
    Keeps s c e (s.reallocate malloc c e) := by
  have hne : s.begin ≠ s.end_ := by
    intro heq
    rw [heq, UInt16.sub_self] at hsize
    exact absurd hsize (UInt16.not_lt_zero)
  have hcap := hs.cap_pos_of_held (hs.held_pos_iff.mpr hne)
  have hbegin := hs.begin_le
  have hend := hs.end_le
  obtain ⟨q, hq⟩ := hs.exists_delivers hs.inside
  refine ⟨s, reallocate_refused hsize, fun hle => ?_, by omega, by omega, q, q, hq, hq, ?_⟩
  · exact absurd hsize (UInt16.not_lt.mpr hle)
  · refine List.map_congr_left fun x _ => ?_
    exact List.take_of_length_le (Nat.le_of_eq x.2)

end Reallocation

/-! ## The two calls -/

section Resizes

variable {s s' : Queue} {array : (n : Nat) → Element n} {c e : UInt16}

theorem Placed.movable_capacity (h : Placed s) (hsize : ¬ c < s.end_ - s.begin)
    (hc : CapacityCarried s c) : Movable s c s.elementSize := by
  obtain ⟨hmax, hcopy, hbegin, hend, horder⟩ := hc.resolve_left hsize
  refine ⟨hmax, hcopy, hbegin, hend, horder, Nat.le_refl _, fun k hk => ⟨?_, .inr rfl⟩⟩
  have hslot : s.slotAt k < s.elementCapacity.toNat :=
    Nat.mod_lt _ (h.cap_pos_of_held (by omega))
  calc s.slotAt k * s.elementSize.toNat + s.elementSize.toNat
      = (s.slotAt k + 1) * s.elementSize.toNat := (Nat.succ_mul _ _).symm
    _ ≤ s.elementCapacity.toNat * s.elementSize.toNat := Nat.mul_le_mul_right _ hslot
    _ = s.elementSize.toNat * s.elementCapacity.toNat := Nat.mul_comm _ _
    _ ≤ newDataArraySize c s.elementSize := hcopy

theorem Placed.movable_elementSize (h : Placed s) (hsize : ¬ s.elementCapacity < s.end_ - s.begin)
    (he : ElementSizeCarried s e) : Movable s s.elementCapacity e := by
  obtain ⟨hmax, hcopy, hcap, hslots⟩ := he.resolve_left hsize
  have hpos : 0 < s.elementCapacity.toNat := UInt16.lt_iff_toNat_lt.mp hcap
  have hbegin := h.begin_le
  have hend := h.end_le
  exact ⟨hmax, hcopy, by omega, by omega, .inr rfl, le_of_copy hpos hcopy, hslots⟩

/-- **A change of the capacity keeps the contents iff they can be carried over.** -/
theorem Placed.keeps_setCapacity_iff (h : Placed s) (array : (n : Nat) → Element n) (c : UInt16) :
    Keeps s c s.elementSize (s.setCapacity (some array) c) ↔ CapacityCarried s c := by
  by_cases hsize : c < s.end_ - s.begin
  · exact iff_of_true (keeps_refused h hsize) (.inl hsize)
  constructor
  · intro hkeeps
    obtain ⟨hmax, hcopy, hbegin, hend, -, hsame⟩ := keeps_reallocate hkeeps h.toInRing hsize
    refine .inr ⟨hmax, hcopy, hbegin, hend, ?_⟩
    by_contra horder
    rw [not_or] at horder
    -- a wrapped ring has as many slots more in use as the capacity has grown
    have hgt : s.end_.toNat < s.begin.toNat := Nat.not_le.mp horder.1
    have hring : InRing (s.moved array c s.elementSize) :=
      ⟨Nat.le_sub_one_of_lt hbegin, Nat.le_sub_one_of_lt hend⟩
    have hheld : (s.moved array c s.elementSize).held = s.held := by
      have := congrArg List.length hsame
      simpa only [List.length_map, List.length_range] using this
    rw [h.held_of_gt hgt, hring.held_of_gt hgt] at hheld
    simp only [moved] at hheld
    exact horder.2 (UInt16.toNat_inj.mp (by omega))
  · intro hcarried
    exact (h.movable_capacity hsize hcarried).keeps h hsize

theorem Placed.keeps_setElementSize (h : Placed s) (he : ElementSizeCarried s e) :
    Keeps s s.elementCapacity e (s.setElementSize (some array) e) := by
  by_cases hsize : s.elementCapacity < s.end_ - s.begin
  · exact keeps_refused h hsize
  · exact (h.movable_elementSize hsize he).keeps h hsize

/-- A memory all of whose bytes are 0. -/
def zeros (n : Nat) : Element n := ⟨List.replicate n 0, List.length_replicate⟩

/-- All bytes 0, but the one at `m`. -/
def marked (len m : Nat) : List UInt8 := (List.replicate len 0).set m 1

/-- The new array has no mark at another place. -/
theorem moved_marked_ne {len m i : Nat} (hi : i ≠ m) :
    (({ s with pDataArray := marked len m } : Queue).moved zeros c e).pDataArray[i]? ≠ some 1 := by
  have hzero : ∀ n j : Nat, (List.replicate n (0 : UInt8))[j]? ≠ some 1 := by
    intro n j
    rw [List.getElem?_replicate]
    split <;> simp
  unfold moved marked zeros
  rw [List.getElem?_append]
  split
  · rw [List.getElem?_take]
    split
    · rw [List.getElem?_set_ne hi.symm]
      exact hzero _ _
    · simp
  · rw [List.getElem?_drop]
    exact hzero _ _

/-- **A change of the element size keeps the contents, whatever they are, iff they can be carried
over.** -/
theorem Placed.keeps_setElementSize_iff (h : Placed s) (e : UInt16) :
    (∀ buf : List UInt8, buf.length = s.pDataArray.length → ∀ array : (n : Nat) → Element n,
      Keeps { s with pDataArray := buf } s.elementCapacity e
        (({ s with pDataArray := buf } : Queue).setElementSize (some array) e)) ↔
      ElementSizeCarried s e := by
  constructor
  · intro hall
    by_cases hsize : s.elementCapacity < s.end_ - s.begin
    · exact .inl hsize
    have hkeeps := fun buf hbuf array =>
      keeps_reallocate (hall buf hbuf array) (h.withArray hbuf).toInRing hsize
    obtain ⟨hmax, hcopy, hbegin, -, -, -⟩ :=
      hkeeps s.pDataArray rfl zeros
    refine .inr ⟨hmax, hcopy, UInt16.lt_iff_toNat_lt.mpr (Nat.zero_lt_of_lt hbegin), ?_⟩
    intro k hk
    -- a mark on the first byte of the slot, and no other byte like it
    have hbuf : (marked s.pDataArray.length (s.slotAt k * s.elementSize.toNat)).length =
        s.pDataArray.length := by
      rw [marked, List.length_set, List.length_replicate]
    obtain ⟨-, -, -, -, hin, hsame⟩ := hkeeps _ hbuf zeros
    have hplace := (hin k hk).2
    rw [(h.withArray hbuf).length_moved hcopy] at hplace
    refine ⟨hplace, ?_⟩
    by_contra hmoved
    rw [not_or] at hmoved
    have hpos : 0 < s.elementSize.toNat :=
      Nat.pos_of_ne_zero fun hzero => hmoved.1 (UInt16.toNat_inj.mp hzero)
    have hold := (h.inside k hk).2
    have hfirst := congrArg (fun l => l[0]?) (List.map_inj_left.mp hsame k (List.mem_range.mpr hk))
    have hle : s.elementSize.toNat ≤ e.toNat := le_of_copy (Nat.zero_lt_of_lt hbegin) hcopy
    simp only [List.getElem?_take_of_lt hpos] at hfirst
    rw [getElem?_content_zero, getElem?_content_zero] at hfirst
    · refine moved_marked_ne hmoved.2 (hfirst.trans ?_)
      exact List.getElem?_set_self (by rw [List.length_replicate]; omega)
    · exact hpos
    · exact hpos.trans_le hle
  · intro he buf hbuf array
    exact (h.withArray hbuf).keeps_setElementSize he

theorem Placed.reallocate (h : Placed s) (hm : ¬ c < s.end_ - s.begin → Movable s c e)
    (hs : s.reallocate (some array) c e = some s') : Placed s' := by
  by_cases hsize : c < s.end_ - s.begin
  · rw [reallocate_refused hsize] at hs
    exact Option.some.inj hs ▸ h
  · rw [(hm hsize).reallocate h hsize] at hs
    exact Option.some.inj hs ▸ (hm hsize).placed h

/-- Where `malloc` returns `NULL` nothing changes. -/
theorem reallocate_null (hs : s.reallocate none c e = some s') : s' = s := by
  by_cases hsize : c < s.end_ - s.begin
  · rw [reallocate_refused hsize] at hs
    exact (Option.some.inj hs).symm
  · rw [Queue.reallocate, if_neg hsize] at hs
    obtain ⟨size, -, h₁⟩ := Option.bind_eq_some_iff.mp hs
    exact (Option.some.inj h₁).symm

/-- **No carried call leaves the states whose slots in use lie inside the array.** -/
theorem Placed.request {r : Request} (h : Placed s) (hr : Carried s r)
    (hs : s.request r = some s') : Placed s' := by
  cases r with
  | enqueue pData => exact h.enqueue hs
  | dequeue pData =>
    obtain ⟨⟨s₁, reply⟩, hdeq, rfl⟩ := Option.map_eq_some_iff.mp hs
    exact h.dequeue hdeq
  | clear => exact Option.some.inj hs ▸ h.clear
  | setData index pData => exact h.setData hs
  | setCapacity malloc c =>
    cases malloc with
    | none => exact reallocate_null hs ▸ h
    | some array => exact h.reallocate (fun hsize => h.movable_capacity hsize hr) hs
  | setElementSize malloc e =>
    cases malloc with
    | none => exact reallocate_null hs ▸ h
    | some array => exact h.reallocate (fun hsize => h.movable_elementSize hsize hr) hs

end Resizes

/-- **In every run whose resizes are carried, resizes keep the contents iff they are carried.** From
the state that such a run leads to, a change of the capacity keeps the contents iff
`CapacityCarried` holds, and a change of the element size keeps them, whatever the array holds, iff
`ElementSizeCarried` does. -/
theorem resize_keeps (es cap : UInt16) (pDataArray : List UInt8)
    (hlen : pDataArray.length = cap.toNat * es.toNat) (requests : List Request) (s : Queue)
    (hcarried : Meets request Carried (queueInitialize pDataArray es cap) requests)
    (hrun : run request (queueInitialize pDataArray es cap) requests = some s) :
    (∀ (array : (n : Nat) → Element n) (c : UInt16),
      Keeps s c s.elementSize (s.setCapacity (some array) c) ↔ CapacityCarried s c) ∧
    (∀ (array : (n : Nat) → Element n) (e : UInt16), ElementSizeCarried s e →
      Keeps s s.elementCapacity e (s.setElementSize (some array) e)) ∧
    ∀ e : UInt16,
      (∀ buf : List UInt8, buf.length = s.pDataArray.length → ∀ array : (n : Nat) → Element n,
        Keeps { s with pDataArray := buf } s.elementCapacity e
          (({ s with pDataArray := buf } : Queue).setElementSize (some array) e)) ↔
        ElementSizeCarried s e := by
  have h : Placed s := run_invariant_of_meets (fun h hr hs => h.request hr hs)
    (placed_queueInitialize hlen) hcarried hrun
  exact ⟨h.keeps_setCapacity_iff, fun array e he => h.keeps_setElementSize he,
    h.keeps_setElementSize_iff⟩

/-- Two slots of one byte, one of them in use: the capacity is doubled, and then the element
size. -/
theorem resize_keeps_two :
    ∃ s, run request (queueInitialize [0, 0] 1 2) [.enqueue [7], .setCapacity (some zeros) 4] =
        some s ∧
      Keeps s 4 2 (s.setElementSize (some zeros) 2) := by
  refine ⟨_, rfl, ?_⟩
  exact (resize_keeps 1 2 [0, 0] rfl [.enqueue [7], .setCapacity (some zeros) 4] _ (by decide)
    rfl).2.1 zeros 2 (by decide)

/-- Three slots of one byte. Shrinking the empty queue to one slot copies three bytes into one.
With the elements 1 and 2 held, doubling the element size moves the second one: the next deliveries
begin with 1 and 0. -/
theorem resize_loses_elements :
    ((queueInitialize [0, 0, 0] 1 3).setCapacity (some zeros) 1 = none ∧
      ¬ Keeps (queueInitialize [0, 0, 0] 1 3) 1 1
        ((queueInitialize [0, 0, 0] 1 3).setCapacity (some zeros) 1)) ∧
    ∃ s s', run request (queueInitialize [0, 0, 0] 1 3) [.enqueue [1], .enqueue [2]] = some s ∧
      s.setElementSize (some zeros) 2 = some s' ∧
      (s.dequeue [9]).bind (fun r => r.1.dequeue [9]) =
        some ({ s with begin := 2 }, [2]) ∧
      (s'.dequeue [9, 9]).bind (fun r => r.1.dequeue [9, 9]) =
        some ({ s' with begin := 2 }, [0, 0]) ∧
      ¬ Keeps s 3 2 (s.setElementSize (some zeros) 2) := by
  refine ⟨⟨rfl, ?_⟩, _, _, rfl, rfl, rfl, rfl, ?_⟩
  · rintro ⟨s', hs', -⟩
    cases hs'
  · intro hkeeps
    obtain ⟨-, -, -, -, -, hsame⟩ :=
      keeps_reallocate hkeeps ⟨by decide, by decide⟩ (by decide)
    exact absurd hsame (by decide)

end CppExamples.Queues.Queue
