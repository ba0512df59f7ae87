import CppExamples.Queues.Resize

/-!
# What `struct Queue` does in every run (`cjunk/practice/queue.h:1-109`)

`behaves_iff_safe` says when the functions behave as a bounded queue. This module says what they do
otherwise: `Contents` is the list of the elements held with the number of elements taken out before,
and `specAnswer` gives for each function the next contents and the answer, in all cases.

* An enqueue with `capacity - 1` elements held empties the queue: the `capacity` elements are gone.
* `private_queueIsFull` is always false.
* Where the elements held do not stand in one piece, `private_queueGetSize` is too large by
  `2 ^ 16 - capacity`, `private_queueGetData` is `NULL` for every index, and `private_queueSetData`
  does nothing.

`answers_exact`: every run of calls other than resizes is defined, and all its answers are those of
`specAnswer`. `delivered_sublist`: what gets lost gets lost by `capacity` elements at a time, and
the rest is delivered in order.
-/

namespace CppExamples.Queues.Queue

open Lib Lib.Machine

/-- A call of a function other than a resize. -/
inductive Func (n : Nat) where
  | enqueue (pData : Element n)
  | dequeue (pData : Element n)
  | clear
  | isEmpty
  | isFull
  | getSize
  | getCapacity
  | getData (index : UInt16)
  | setData (index : UInt16) (pData : Element n)

/-- What the caller sees: nothing, what `pData` points to after the call, a result, or what the
result points to. -/
inductive Answer where
  | done
  | bytes (pData : List UInt8)
  | flag (b : Bool)
  | number (k : Nat)
  | pointer (data : Option (List UInt8))
  deriving DecidableEq

/-- `private_queueGetCapacity`. -/
def getCapacity (self : Queue) : UInt16 := self.elementCapacity

/-- What the result of `private_queueGetData` points to. -/
def pointedTo (self : Queue) (index : UInt16) : Option (Option (List UInt8)) :=
  (self.getData index).bind fun place => place.elim (some none) fun off =>
    (Buffer.readAt self.pDataArray off self.elementSize.toNat).map some

/-- A call and its answer. -/
def answer {n : Nat} (self : Queue) : Func n → Option (Queue × Answer)
  | .enqueue pData => (self.enqueue pData.1).map fun self' => (self', .done)
  | .dequeue pData => (self.dequeue pData.1).map fun r => (r.1, .bytes r.2)
  | .clear => some (self.clear, .done)
  | .isEmpty => some (self, .flag self.queueIsEmpty)
  | .isFull => some (self, .flag self.queueIsFull)
  | .getSize => some (self, .number self.getSize.toNat)
  | .getCapacity => some (self, .number self.getCapacity.toNat)
  | .getData index => (self.pointedTo index).map fun data => (self, .pointer data)
  | .setData index pData => (self.setData index pData.1).map fun self' => (self', .done)

/-! ## The abstract queue -/

/-- The elements held, oldest first, and how many were taken out before them. -/
structure Contents (n : Nat) where
  taken : Nat
  items : List (Element n)

namespace Contents

variable {n : Nat}

/-- The elements held stand in one piece. -/
def OnePiece (capacity : Nat) (a : Contents n) : Prop :=
  a.taken % capacity + a.items.length < capacity

instance decidableOnePiece (capacity : Nat) (a : Contents n) : Decidable (a.OnePiece capacity) :=
  inferInstanceAs (Decidable (_ < _))

end Contents

/-- The contents after a call, and its answer. -/
def specAnswer {n : Nat} (capacity : Nat) (a : Contents n) : Func n → Contents n × Answer
  | .enqueue pData =>
    if a.items.length + 1 < capacity then (⟨a.taken, a.items ++ [pData]⟩, .done)
    else (⟨a.taken, []⟩, .done)
  | .dequeue pData =>
    match a.items with
    | [] => (a, .bytes pData.1)
    | x :: items => (⟨a.taken + 1, items⟩, .bytes x.1)
  | .clear => (⟨0, []⟩, .done)
  | .isEmpty => (a, .flag a.items.isEmpty)
  | .isFull => (a, .flag false)
  | .getSize =>
    (a, .number (a.items.length + if a.OnePiece capacity then 0 else 2 ^ 16 - capacity))
  | .getCapacity => (a, .number capacity)
  | .getData index =>
    (a, .pointer (if a.OnePiece capacity then a.items[index.toNat]?.map Subtype.val else none))
  | .setData index pData =>
    (if a.OnePiece capacity then ⟨a.taken, a.items.set index.toNat pData⟩ else a, .done)

/-! ## One call -/

section Step

variable {cap es : UInt16} [NeZero cap.toNat] {s : Queue} {d : Nat} {q : List (Element es.toNat)}

omit [NeZero cap.toNat] in
/-- The offsets of all slots are `int`s if that of the end of the array is. -/
theorem slot_le_intMax (hint : ((cap.toNat * es.toNat : Nat) : Int) ≤ CInt.intMax) {j : Nat}
    (hj : j < cap.toNat) : ((j * es.toNat : Nat) : Int) ≤ CInt.intMax :=
  (Int.ofNat_le.mpr (Nat.mul_le_mul_right es.toNat hj.le)).trans hint

/-- An enqueue that takes the last slot empties the queue. -/
theorem Abs.enqueue_flush (h : Abs cap es s d q) (x : Element es.toNat)
    (hoff : ((s.end_.toNat * es.toNat : Nat) : Int) ≤ CInt.intMax)
    (hlast : q.length + 1 = cap.toNat) :
    ∃ s', s.enqueue x.1 = some s' ∧ Abs cap es s' d [] := by
  obtain ⟨buf, henq, hlen, -⟩ := h.enqueue_some x hoff
  refine ⟨_, henq, h.size, h.capacity, h.notFull, hlen.trans h.array, Nat.pos_of_neZero _,
    h.begin_eq, ?_, Ring.Holds.nil _ _, fun _ hi => absurd hi (Nat.not_lt_zero _)⟩
  simp only [h.toNat_advance, h.end_eq, Nat.mod_add_mod, Nat.add_assoc, hlast, Nat.add_mod_right,
    List.length_nil, Nat.add_zero]

theorem Abs.clear (h : Abs cap es s d q) :
    Abs cap es s.clear 0 ([] : List (Element es.toNat)) where
  size := h.size
  capacity := h.capacity
  notFull := rfl
  array := h.array
  length_lt := Nat.pos_of_neZero _
  begin_eq := (Nat.zero_mod _).symm
  end_eq := (Nat.zero_mod _).symm
  holds := Ring.Holds.nil _ _
  offsets := fun _ hi => absurd hi (Nat.not_lt_zero _)

theorem Abs.toNat_getSize (h : Abs cap es s d q) : s.getSize.toNat =
    q.length + if d % cap.toNat + q.length < cap.toNat then 0 else 2 ^ 16 - cap.toNat := by
  have hcap := cap.toNat_lt
  have hbegin := s.begin.toNat_lt
  have hend := s.end_.toNat_lt
  split
  · rename_i hw
    exact h.getSize_iff.mpr hw
  · rename_i hw
    have heq := h.end_of_wrapped hw
    have hlen := h.length_lt
    rw [getSize, UInt16.toNat_sub]
    omega

/-- Wrapped: no index is below `end - begin`. -/
theorem Abs.index_ge_of_wrapped (h : Abs cap es s d q)
    (hw : ¬ d % cap.toNat + q.length < cap.toNat) (i : UInt16) :
    (i.toNat : Int) ≥ (s.end_.toNat : Int) - s.begin.toNat := by
  have heq := h.end_of_wrapped hw
  have hlen := h.length_lt
  omega

theorem Abs.pointedTo_eq (h : Abs cap es s d q) (i : UInt16) : s.pointedTo i =
    some (if d % cap.toNat + q.length < cap.toNat then q[i.toNat]?.map Subtype.val else none) := by
  by_cases hw : d % cap.toNat + q.length < cap.toNat
  · rw [if_pos hw]
    by_cases hi : i.toNat < q.length
    · obtain ⟨off, hget, hread⟩ := h.getData_inside hw hi
      rw [pointedTo, hget, Option.bind_some, Option.elim_some, h.size, hread,
        List.getElem?_eq_getElem hi]
      rfl
    · have hbeyond := Nat.not_lt.mp hi
      rw [pointedTo, (h.beyond hw hbeyond).1, List.getElem?_eq_none hbeyond]
      rfl
  · rw [if_neg hw, pointedTo, getData, if_pos (h.index_ge_of_wrapped hw i)]
    rfl

theorem Abs.setData_spec (h : Abs cap es s d q) (i : UInt16) (x : Element es.toNat) :
    ∃ s', s.setData i x.1 = some s' ∧
      Abs cap es s' (specAnswer cap.toNat ⟨d, q⟩ (.setData i x)).1.taken
        (specAnswer cap.toNat ⟨d, q⟩ (.setData i x)).1.items := by
  rw [specAnswer]
  split
  · rename_i hw
    exact h.access_setData hw i x
  · rename_i hw
    exact ⟨s, if_pos (h.index_ge_of_wrapped hw i), h⟩

/-- **Every call gives the answer of the abstract queue.** -/
theorem Abs.answer (h : Abs cap es s d q)
    (hint : ((cap.toNat * es.toNat : Nat) : Int) ≤ CInt.intMax) (f : Func es.toNat) :
    ∃ s', s.answer f = some (s', (specAnswer cap.toNat ⟨d, q⟩ f).2) ∧
      Abs cap es s' (specAnswer cap.toNat ⟨d, q⟩ f).1.taken
        (specAnswer cap.toNat ⟨d, q⟩ f).1.items := by
  cases f with
  | enqueue x =>
    have hoff := slot_le_intMax hint h.end_lt
    have hlen := h.length_lt
    by_cases hfree : q.length + 1 < cap.toNat
    · obtain ⟨s', henq, habs⟩ := h.enqueue_free x hoff hfree
      refine ⟨s', ?_, ?_⟩
      · rw [Queue.answer, henq, specAnswer, if_pos hfree, Option.map_some]
      · rw [specAnswer, if_pos hfree]
        exact habs
    · obtain ⟨s', henq, habs⟩ := h.enqueue_flush x hoff (by omega)
      refine ⟨s', ?_, ?_⟩
      · rw [Queue.answer, henq, specAnswer, if_neg hfree, Option.map_some]
      · rw [specAnswer, if_neg hfree]
        exact habs
  | dequeue x =>
    cases q with
    | nil =>
      refine ⟨s, ?_, h⟩
      rw [Queue.answer, h.dequeue_nil x.1, Option.map_some]
      rfl
    | cons y q =>
      obtain ⟨s', hdeq, habs⟩ := h.dequeue_cons x
      refine ⟨s', ?_, habs⟩
      rw [Queue.answer, hdeq, Option.map_some]
      rfl
  | clear => exact ⟨s.clear, rfl, h.clear⟩
  | isEmpty =>
    refine ⟨s, ?_, h⟩
    have hempty : s.queueIsEmpty = q.isEmpty := by
      rw [Bool.eq_iff_iff, queueIsEmpty, beq_iff_eq, h.begin_eq_end_iff, List.isEmpty_iff,
        List.length_eq_zero_iff]
    rw [Queue.answer, hempty]
    rfl
  | isFull =>
    refine ⟨s, ?_, h⟩
    rw [Queue.answer, queueIsFull, h.notFull]
    rfl
  | getSize =>
    refine ⟨s, ?_, h⟩
    rw [Queue.answer, h.toNat_getSize]
    rfl
  | getCapacity =>
    refine ⟨s, ?_, h⟩
    rw [Queue.answer, getCapacity, h.capacity]
    rfl
  | getData i =>
    refine ⟨s, ?_, h⟩
    rw [Queue.answer, h.pointedTo_eq, Option.map_some]
    rfl
  | setData i x =>
    obtain ⟨s', hset, habs⟩ := h.setData_spec i x
    refine ⟨s', ?_, habs⟩
    rw [Queue.answer, hset, Option.map_some]
    rfl

end Step

/-! ## Runs -/

section Runs

variable {cap es : UInt16}

/-- The abstract queue with its log. -/
def specLogged {n : Nat} (capacity : Nat) : Contents n × List (Func n × Answer) → Func n →
    Option (Contents n × List (Func n × Answer)) :=
  logged fun a f => some (specAnswer capacity a f)

/-- The structure stands for the contents, and the answers so far are the same. -/
def Related (cap es : UInt16) [NeZero cap.toNat] (s : Queue × List (Func es.toNat × Answer))
    (a : Contents es.toNat × List (Func es.toNat × Answer)) : Prop :=
  Abs cap es s.1 a.1.taken a.1.items ∧ s.2 = a.2

theorem related_step [NeZero cap.toNat] {s : Queue × List (Func es.toNat × Answer)}
    {a : Contents es.toNat × List (Func es.toNat × Answer)} (h : Related cap es s a)
    (hint : ((cap.toNat * es.toNat : Nat) : Int) ≤ CInt.intMax) (f : Func es.toNat) :
    Option.Rel (Related cap es) (logged answer s f) (specLogged cap.toNat a f) := by
  obtain ⟨habs, hlog⟩ := h
  obtain ⟨s', hs, habs'⟩ := habs.answer hint f
  rw [specLogged, logged, logged, hs, hlog]
  exact .some ⟨habs', rfl⟩

/-- **All answers of all runs.** Every run of calls other than resizes is defined; it has the
answers of the abstract queue, and dequeues deliver the contents of that queue from then on. -/
theorem answers_exact (es cap : UInt16) (hcap : 1 ≤ cap.toNat)
    (hint : ((cap.toNat * es.toNat : Nat) : Int) ≤ CInt.intMax) (pDataArray : List UInt8)
    (hlen : pDataArray.length = cap.toNat * es.toNat) (calls : List (Func es.toNat)) :
    ∃ s a log, run (logged answer) (queueInitialize pDataArray es cap, []) calls = some (s, log) ∧
      run (specLogged cap.toNat) (⟨0, []⟩, []) calls = some (a, log) ∧ Delivers s a.items := by
  have : NeZero cap.toNat := ⟨by omega⟩
  have hstart : Related cap es (queueInitialize pDataArray es cap, []) (⟨0, []⟩, []) :=
    ⟨abs_queueInitialize hlen, rfl⟩
  have hrel := run_rel (fun f hR => related_step hR hint f) hstart calls
  obtain ⟨⟨a, log⟩, ha, -⟩ : ∃ a, run (specLogged cap.toNat) (⟨0, []⟩, []) calls = some a ∧ True :=
    exists_run (fun a f _ => ⟨_, rfl, trivial⟩) trivial calls
  rw [ha] at hrel
  generalize hs : run (logged answer) (queueInitialize pDataArray es cap, []) calls = o at hrel
  cases hrel with
  | @some s _ hR =>
    obtain ⟨habs, hlog⟩ := hR
    exact ⟨s.1, a, log, congrArg some (Prod.ext rfl hlog), ha, habs.delivers⟩

/-- Two slots of one byte: the second enqueue empties the queue. -/
theorem answers_exact_two :
    ∃ s a log, run (logged answer) (queueInitialize [0, 0] 1 2, [])
        [Func.enqueue ⟨[1], rfl⟩, .enqueue ⟨[2], rfl⟩, .getSize, .dequeue ⟨[9], rfl⟩] =
        some (s, log) ∧
      run (specLogged 2) (⟨0, []⟩, [])
        [Func.enqueue ⟨[1], rfl⟩, .enqueue ⟨[2], rfl⟩, .getSize, .dequeue ⟨[9], rfl⟩] =
        some (a, log) ∧ Delivers s a.items :=
  answers_exact 1 2 (by decide) (by decide) [0, 0] rfl _

/-! ## What gets lost -/

/-- The element that a call puts into the queue. -/
def enqueuedBy {n : Nat} : Func n → List (List UInt8)
  | .enqueue pData => [pData.1]
  | _ => []

/-- The element that a call takes out of the queue. -/
def deliveredBy {n : Nat} (s : Queue) : Func n → List (List UInt8)
  | .dequeue pData => if s.queueIsEmpty then [] else ((s.dequeue pData.1).map Prod.snd).toList
  | _ => []

/-- The elements that calls take out, in order. -/
def delivered {n : Nat} (s : Queue) : List (Func n) → List (List UInt8)
  | [] => []
  | f :: calls => s.deliveredBy f ++ ((s.answer f).map fun r => delivered r.1 calls).getD []

/-- A call that does not replace an element. -/
def NoSet {n : Nat} : Func n → Prop
  | .setData _ _ => False
  | _ => True

/-- One call: what it delivers and what is held then was held or enqueued, in that order, and unless
the queue is cleared, a multiple of the capacity is missing. -/
theorem Abs.delivers_step [NeZero cap.toNat] {s : Queue} {d : Nat} {q : List (Element es.toNat)}
    (h : Abs cap es s d q) (hint : ((cap.toNat * es.toNat : Nat) : Int) ≤ CInt.intMax)
    {f : Func es.toNat} (hf : NoSet f) :
    ∃ s' d' q' o, s.answer f = some (s', o) ∧ Abs cap es s' d' q' ∧
      (s.deliveredBy f ++ q'.map Subtype.val).Sublist (q.map Subtype.val ++ enqueuedBy f) ∧
      (f ≠ .clear → ∃ k, q.length + (enqueuedBy f).length =
        (s.deliveredBy f).length + q'.length + cap.toNat * k) := by
  obtain ⟨s', hs, habs⟩ := h.answer hint f
  refine ⟨s', _, _, _, hs, habs, ?_⟩
  cases f with
  | enqueue x =>
    have hlen := h.length_lt
    have hnone : s.deliveredBy (.enqueue x) = [] := rfl
    rw [hnone, enqueuedBy, specAnswer]
    by_cases hfree : q.length + 1 < cap.toNat
    · rw [if_pos hfree]
      exact ⟨by simp, fun _ => ⟨0, by simp⟩⟩
    · rw [if_neg hfree]
      refine ⟨by simp, fun _ => ⟨1, ?_⟩⟩
      simp only [List.length_nil, List.length_singleton]
      omega
  | dequeue x =>
    cases q with
    | nil =>
      have hempty : s.queueIsEmpty = true := by
        rw [queueIsEmpty, beq_iff_eq]
        exact h.begin_eq_end_iff.mpr rfl
      rw [deliveredBy, if_pos hempty]
      exact ⟨List.Sublist.refl _, fun _ => ⟨0, rfl⟩⟩
    | cons y q =>
      have hempty : s.queueIsEmpty = false := by
        rw [queueIsEmpty, beq_eq_false_iff_ne, ne_eq, h.begin_eq_end_iff]
        exact Nat.succ_ne_zero _
      obtain ⟨s₁, hdeq, -⟩ := h.dequeue_cons x
      rw [deliveredBy, hempty, if_neg Bool.false_ne_true, hdeq]
      refine ⟨by simp [specAnswer, enqueuedBy], fun _ => ⟨0, ?_⟩⟩
      simp only [enqueuedBy, specAnswer, List.length_cons, List.length_nil, Option.map_some,
        Option.toList_some]
      omega
  | clear => exact ⟨List.nil_sublist _, fun hne => absurd rfl hne⟩
  | setData => exact hf.elim
  | isEmpty | isFull | getSize | getCapacity | getData =>
    exact ⟨by simp [deliveredBy, enqueuedBy, specAnswer], fun _ => ⟨0, by
      simp [deliveredBy, enqueuedBy, specAnswer]⟩⟩

theorem Abs.delivered_from [NeZero cap.toNat] {s : Queue} {d : Nat} {q : List (Element es.toNat)}
    (h : Abs cap es s d q) (hint : ((cap.toNat * es.toNat : Nat) : Int) ≤ CInt.intMax)
    {calls : List (Func es.toNat)} (hcalls : ∀ f ∈ calls, NoSet f) :
    ∃ s' q', run (fun s f => (s.answer f).map Prod.fst) s calls = some s' ∧
      Delivers (n := es.toNat) s' q' ∧
      (s.delivered calls ++ q'.map Subtype.val).Sublist
        (q.map Subtype.val ++ calls.flatMap enqueuedBy) ∧
      (.clear ∉ calls → ∃ k, q.length + (calls.flatMap enqueuedBy).length =
        (s.delivered calls).length + q'.length + cap.toNat * k) := by
  induction calls generalizing s d q with
  | nil =>
    refine ⟨s, q, rfl, h.delivers, by simp [delivered], fun _ => ⟨0, ?_⟩⟩
    simp [delivered]
  | cons f calls ih =>
    obtain ⟨hf, hcalls⟩ := List.forall_mem_cons.mp hcalls
    obtain ⟨s₁, d₁, q₁, o, hs, habs, hsub, hcount⟩ := h.delivers_step hint hf
    obtain ⟨s', q', hrun, hdel, hsub', hcount'⟩ := ih habs hcalls
    refine ⟨s', q', ?_, hdel, ?_, fun hclear => ?_⟩
    · rw [run, hs]
      exact hrun
    · rw [delivered, hs, List.flatMap_cons, List.append_assoc, ← List.append_assoc (q.map _)]
      exact ((List.Sublist.refl _).append hsub').trans (by
        rw [← List.append_assoc]
        exact hsub.append (List.Sublist.refl _))
    · rw [List.mem_cons, not_or] at hclear
      obtain ⟨k, hk⟩ := hcount (Ne.symm hclear.1)
      obtain ⟨k', hk'⟩ := hcount' hclear.2
      refine ⟨k + k', ?_⟩
      rw [delivered, hs, List.flatMap_cons, List.length_append, List.length_append, Option.map_some,
        Option.getD_some, Nat.mul_add]
      dsimp only
      omega

/-- **Overflows lose whole rings, and nothing is reordered, repeated or made up.** In every run
without `private_queueSetData` the elements delivered, and those still held behind them, are some of
the elements enqueued, in the same order; without `private_queueClear` the number of the missing
ones is a multiple of the capacity. -/
theorem delivered_sublist (es cap : UInt16) (hcap : 1 ≤ cap.toNat)
    (hint : ((cap.toNat * es.toNat : Nat) : Int) ≤ CInt.intMax) (pDataArray : List UInt8)
    (hlen : pDataArray.length = cap.toNat * es.toNat) (calls : List (Func es.toNat))
    (hcalls : ∀ f ∈ calls, NoSet f) :
    ∃ s held, run (fun s f => (s.answer f).map Prod.fst) (queueInitialize pDataArray es cap) calls =
        some s ∧ Delivers (n := es.toNat) s held ∧
      ((queueInitialize pDataArray es cap).delivered calls ++ held.map Subtype.val).Sublist
        (calls.flatMap enqueuedBy) ∧
      (.clear ∉ calls → ∃ k, (calls.flatMap enqueuedBy).length =
        ((queueInitialize pDataArray es cap).delivered calls).length + held.length +
          cap.toNat * k) := by
  have : NeZero cap.toNat := ⟨by omega⟩
  have hstart : Abs cap es (queueInitialize pDataArray es cap) 0 [] := abs_queueInitialize hlen
  obtain ⟨s, held, hrun, hdel, hsub, hcount⟩ := hstart.delivered_from hint hcalls
  refine ⟨s, held, hrun, hdel, hsub, fun hclear => ?_⟩
  obtain ⟨k, hk⟩ := hcount hclear
  exact ⟨k, by simpa using hk⟩

/-- Two slots of one byte: of three elements two are lost. -/
theorem delivered_sublist_two :
    ∃ s held, run (fun s f => (s.answer f).map Prod.fst) (queueInitialize [0, 0] 1 2)
        [Func.enqueue ⟨[1], rfl⟩, .enqueue ⟨[2], rfl⟩, .enqueue ⟨[3], rfl⟩] = some s ∧
      Delivers (n := 1) s held := by
  obtain ⟨s, held, hrun, hdel, -⟩ := delivered_sublist 1 2 (by decide) (by decide) [0, 0] rfl
    [.enqueue ⟨[1], rfl⟩, .enqueue ⟨[2], rfl⟩, .enqueue ⟨[3], rfl⟩] (by simp [NoSet])
  exact ⟨s, held, hrun, hdel⟩

end Runs

end CppExamples.Queues.Queue
