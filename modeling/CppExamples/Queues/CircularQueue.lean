import CppExamples.Lib.Machine
import CppExamples.Lib.Ring

/-!
# `CircularQueue`, one call at a time (`cjunk/practice/circularqueue.cc:11-62`)

The members of the class and the operations that the code applies to them, then the calls
`try_push`, `push` and `pop` as one thread sees them. The same operations are the atomic steps of
`CppExamples.Queues.Threads`.

* `m_head` and `m_tail` are 32-bit unsigned counters. A slot that was never written is `none`.
* A semaphore is the number of its permits. `m_sem_full.post()` is a further release. A semaphore
  has no upper bound here; with the bound `N` of `std::counting_semaphore<N>` the second release of
  `pop` would not be defined.
* A blocking call has a result only where it has a permit. `try_acquire` may fail for no reason.

`pop` releases `m_sem_full` twice. So the permits add up to `N` only as long as nothing has been
popped (`lossless_iff_no_pop`), and from then on more values than there are slots can be accepted.
As long as at most `N` wait, the values come out in order (`order_of_waiting`).
-/

namespace CppExamples.Queues

open Lib Lib.Machine

/-- `class CircularQueue<T, N>`. -/
structure CircularQueue (T : Type) (N : Nat) where
  head : UInt32
  tail : UInt32
  data : Fin N → Option T
  semEmpty : Nat
  semFull : Nat

namespace CircularQueue

variable {T : Type} {N : Nat}

/-! ## Operations on the members -/

/-- The constructor. -/
def fresh : CircularQueue T N where
  head := 0
  tail := 0
  data := fun _ => none
  semEmpty := 0
  semFull := N

/-- `m_sem_full.acquire()`. -/
def acquireFull (q : CircularQueue T N) : Option (CircularQueue T N) :=
  if 0 < q.semFull then some { q with semFull := q.semFull - 1 } else none

/-- `m_sem_empty.acquire()`. -/
def acquireEmpty (q : CircularQueue T N) : Option (CircularQueue T N) :=
  if 0 < q.semEmpty then some { q with semEmpty := q.semEmpty - 1 } else none

/-- `m_sem_full.release()`, and `m_sem_full.post()`. -/
def releaseFull (q : CircularQueue T N) : CircularQueue T N := { q with semFull := q.semFull + 1 }

/-- `m_sem_empty.release()`. -/
def releaseEmpty (q : CircularQueue T N) : CircularQueue T N :=
  { q with semEmpty := q.semEmpty + 1 }

/-- `m_head++`, whose value is `q.head`. -/
def incHead (q : CircularQueue T N) : CircularQueue T N := { q with head := q.head + 1 }

/-- `m_tail++`, whose value is `q.tail`. -/
def incTail (q : CircularQueue T N) : CircularQueue T N := { q with tail := q.tail + 1 }

/-- `expected % N`. -/
def desired (N : Nat) (expected : UInt32) : UInt32 := UInt32.ofNat (expected.toNat % N)

/-- `m_tail.compare_exchange_strong(expected, desired)`. -/
def compareExchangeTail (q : CircularQueue T N) (expected : UInt32) : CircularQueue T N :=
  if q.tail = expected then { q with tail := desired N expected } else q

/-- `m_head.compare_exchange_strong(expected, desired)`. -/
def compareExchangeHead (q : CircularQueue T N) (expected : UInt32) : CircularQueue T N :=
  if q.head = expected then { q with head := desired N expected } else q

theorem toNat_desired (N : Nat) (expected : UInt32) :
    (desired N expected).toNat = expected.toNat % N :=
  UInt32.toNat_ofNat_of_lt (Nat.lt_of_le_of_lt (Nat.mod_le _ _) expected.toNat_lt)

variable [NeZero N]

/-- `m_data[ticket % N] = item`. -/
def store (q : CircularQueue T N) (ticket : UInt32) (item : T) : CircularQueue T N :=
  { q with data := Function.update q.data (Ring.slot N ticket.toNat) (some item) }

/-- `m_data[ticket % N]`. -/
def load (q : CircularQueue T N) (ticket : UInt32) : Option T :=
  q.data (Ring.slot N ticket.toNat)

/-! ## The calls -/

/-- What `push` and `try_push` do with a permit: `m_data[m_head++ % N] = item`, then
`m_sem_empty.release()`. -/
def enqueue (q : CircularQueue T N) (item : T) : CircularQueue T N :=
  (q.incHead.store q.head item).releaseEmpty

/-- `push`. -/
def push (q : CircularQueue T N) (item : T) : Option (CircularQueue T N) :=
  q.acquireFull.map fun q => q.enqueue item

/-- `try_push`, with a `try_acquire` that may fail although there is a permit. -/
def tryPush (q : CircularQueue T N) (item : T) (spurious : Bool) : CircularQueue T N × Bool :=
  match if spurious then none else q.acquireFull with
  | some q => (q.enqueue item, true)
  | none => (q, false)

/-- `pop`. -/
def pop (q : CircularQueue T N) : Option (CircularQueue T N × Option T) := do
  let q ← q.acquireEmpty
  let ticket := q.tail
  let q := q.incTail
  let item := q.load ticket
  let q := q.releaseFull
  let q := q.compareExchangeTail q.tail
  let q := q.compareExchangeHead q.head
  return (q.releaseFull, item)

inductive Call (T : Type) where
  | tryPush (item : T) (spurious : Bool)
  | push (item : T)
  | pop
  deriving DecidableEq

inductive Reply (T : Type) where
  | tryPush (accepted : Bool)
  | push
  | pop (item : Option T)
  deriving DecidableEq

/-- A call that completes. -/
def call (q : CircularQueue T N) : Call T → Option (CircularQueue T N × Reply T)
  | .tryPush item spurious =>
    let (q', accepted) := q.tryPush item spurious
    some (q', .tryPush accepted)
  | .push item => (q.push item).map fun q' => (q', .push)
  | .pop => q.pop.map fun (q', item) => (q', .pop item)

/-- The value that an entry of the log put into the queue. -/
def acceptedBy : Call T × Reply T → Option T
  | (.tryPush item _, .tryPush true) => some item
  | (.push item, .push) => some item
  | _ => none

/-- What an entry of the log took out of the queue. -/
def poppedBy : Call T × Reply T → Option (Option T)
  | (.pop, .pop item) => some item
  | _ => none

def accepted (log : List (Call T × Reply T)) : List T := log.filterMap acceptedBy

def popped (log : List (Call T × Reply T)) : List (Option T) := log.filterMap poppedBy

/-- A lossless bounded queue: what was popped is what was accepted first, at most `N` values wait,
and the permits add up to `N`. -/
structure Lossless (s : CircularQueue T N × List (Call T × Reply T)) : Prop where
  order : popped s.2 <+: (accepted s.2).map some
  waiting : (accepted s.2).length ≤ (popped s.2).length + N
  permits : s.1.semFull + s.1.semEmpty = N

/-! ## What one call can do -/

/-- The three things that a completed call can do to the queue and the log. -/
inductive Effect (q : CircularQueue T N) (log : List (Call T × Reply T)) :
    Call T → CircularQueue T N × List (Call T × Reply T) → Prop where
  | refuse {c : Call T} {r : Reply T} (hc : c ≠ .pop) (hput : acceptedBy (c, r) = none)
      (htake : poppedBy (c, r) = none) : Effect q log c (q, log ++ [(c, r)])
  | put {c : Call T} {r : Reply T} {item : T} {q' : CircularQueue T N} (hc : c ≠ .pop)
      (hput : acceptedBy (c, r) = some item) (htake : poppedBy (c, r) = none)
      (hperm : 0 < q.semFull)
      (hq : q' = ⟨q.head + 1, q.tail,
        Function.update q.data (Ring.slot N q.head.toNat) (some item),
        q.semEmpty + 1, q.semFull - 1⟩) : Effect q log c (q', log ++ [(c, r)])
  | take {q' : CircularQueue T N} (hperm : 0 < q.semEmpty)
      (hq : q' = ⟨desired N q.head, desired N (q.tail + 1), q.data, q.semEmpty - 1,
        q.semFull + 2⟩) :
      Effect q log .pop (q', log ++ [(.pop, .pop (q.data (Ring.slot N q.tail.toNat)))])

theorem enqueue_of_acquireFull {q q₁ : CircularQueue T N} (h : q.acquireFull = some q₁)
    (item : T) : 0 < q.semFull ∧
      q₁.enqueue item = ⟨q.head + 1, q.tail,
        Function.update q.data (Ring.slot N q.head.toNat) (some item),
        q.semEmpty + 1, q.semFull - 1⟩ := by
  rw [acquireFull, Option.ite_none_right_eq_some, Option.some.injEq] at h
  obtain ⟨hperm, rfl⟩ := h
  exact ⟨hperm, rfl⟩

theorem pop_eq_some {q q' : CircularQueue T N} {item : Option T} (h : q.pop = some (q', item)) :
    0 < q.semEmpty ∧ item = q.data (Ring.slot N q.tail.toNat) ∧
      q' = ⟨desired N q.head, desired N (q.tail + 1), q.data, q.semEmpty - 1, q.semFull + 2⟩ := by
  unfold pop acquireEmpty at h
  split at h
  · rename_i hperm
    simp only [Option.bind_eq_bind, Option.bind_some, Option.pure_def, Option.some.injEq,
      Prod.mk.injEq] at h
    obtain ⟨rfl, rfl⟩ := h
    refine ⟨hperm, rfl, ?_⟩
    simp [compareExchangeTail, compareExchangeHead, releaseFull, incTail]
  · exact absurd h (by simp)

theorem effect_of_step {s s' : CircularQueue T N × List (Call T × Reply T)} {c : Call T}
    (h : logged call s c = some s') : Effect s.1 s.2 c s' := by
  obtain ⟨r, hcall, hlog⟩ := logged_eq_some.mp h
  obtain ⟨q', log'⟩ := s'
  simp only at hlog
  subst hlog
  cases c with
  | tryPush item spurious =>
    simp only [call, tryPush, Option.some.injEq, Prod.mk.injEq] at hcall
    split at hcall
    · rename_i q₁ hacq
      obtain ⟨rfl, rfl⟩ := hcall
      have hacq' : s.1.acquireFull = some q₁ := by
        cases spurious with
        | true => exact absurd hacq (by simp)
        | false => simpa using hacq
      obtain ⟨hperm, henq⟩ := enqueue_of_acquireFull hacq' item
      exact .put (by simp) rfl rfl hperm henq
    · obtain ⟨rfl, rfl⟩ := hcall
      exact .refuse (by simp) rfl rfl
  | push item =>
    simp only [call, push, Option.map_map, Option.map_eq_some_iff, Function.comp_apply,
      Prod.mk.injEq] at hcall
    obtain ⟨q₁, hacq, rfl, rfl⟩ := hcall
    obtain ⟨hperm, henq⟩ := enqueue_of_acquireFull hacq item
    exact .put (by simp) rfl rfl hperm henq
  | pop =>
    simp only [call, Option.map_eq_some_iff, Prod.mk.injEq] at hcall
    obtain ⟨⟨q₁, item⟩, hpop, rfl, rfl⟩ := hcall
    obtain ⟨hperm, rfl, hq⟩ := pop_eq_some hpop
    exact .take hperm hq

/-! ## Permits -/

theorem accepted_concat (log : List (Call T × Reply T)) (e : Call T × Reply T) :
    accepted (log ++ [e]) = accepted log ++ (acceptedBy e).toList := by
  rw [accepted, List.filterMap_append]
  cases h : acceptedBy e <;> simp [accepted, h]

theorem popped_concat (log : List (Call T × Reply T)) (e : Call T × Reply T) :
    popped (log ++ [e]) = popped log ++ (poppedBy e).toList := by
  rw [popped, List.filterMap_append]
  cases h : poppedBy e <;> simp [popped, h]

/-- The permits in terms of the log: one for every waiting value, and two for every pop. -/
structure Permits (s : CircularQueue T N × List (Call T × Reply T)) : Prop where
  empty : s.1.semEmpty + (popped s.2).length = (accepted s.2).length
  full : s.1.semFull + (accepted s.2).length = N + 2 * (popped s.2).length

omit [NeZero N] in
theorem permits_fresh : Permits ((fresh, []) : CircularQueue T N × List (Call T × Reply T)) :=
  ⟨rfl, rfl⟩

theorem Permits.step {s s' : CircularQueue T N × List (Call T × Reply T)} {c : Call T}
    (h : Permits s) (hstep : logged call s c = some s') : Permits s' := by
  have hempty := h.empty
  have hfull := h.full
  cases effect_of_step hstep with
  | refuse hc hput htake =>
    exact ⟨by simpa [accepted_concat, popped_concat, hput, htake] using hempty,
      by simpa [accepted_concat, popped_concat, hput, htake] using hfull⟩
  | put hc hput htake hperm hq =>
    subst hq
    constructor
    · simp only [accepted_concat, popped_concat, hput, htake, Option.toList_some,
        Option.toList_none, List.append_nil, List.length_append, List.length_singleton]
      omega
    · simp only [accepted_concat, popped_concat, hput, htake, Option.toList_some,
        Option.toList_none, List.append_nil, List.length_append, List.length_singleton]
      omega
  | take hperm hq =>
    subst hq
    constructor
    · simp only [accepted_concat, popped_concat, acceptedBy, poppedBy, Option.toList_some,
        Option.toList_none, List.append_nil, List.length_append, List.length_singleton]
      omega
    · simp only [accepted_concat, popped_concat, acceptedBy, poppedBy, Option.toList_some,
        Option.toList_none, List.append_nil, List.length_append, List.length_singleton]
      omega

/-- A run pops if and only if its calls do. -/
theorem popped_length_lt_iff {s s' : CircularQueue T N × List (Call T × Reply T)}
    {calls : List (Call T)} (h : run (logged call) s calls = some s') :
    (popped s.2).length ≤ (popped s'.2).length ∧
      ((popped s.2).length < (popped s'.2).length ↔ Call.pop ∈ calls) := by
  induction calls generalizing s with
  | nil => simp [Option.some.inj h]
  | cons c calls ih =>
    obtain ⟨u, hu, hrun⟩ := run_cons_eq_some.mp h
    obtain ⟨hle, hiff⟩ := ih hrun
    rw [List.mem_cons]
    cases effect_of_step hu with
    | refuse hc hput htake | put hc hput htake hperm hq =>
      simp only [popped_concat, htake, Option.toList_none, List.append_nil] at hle hiff
      exact ⟨hle, by rw [hiff]; simp [hc.symm]⟩
    | take hperm hq =>
      simp only [popped_concat, poppedBy, Option.toList_some, List.length_append,
        List.length_singleton] at hle
      exact ⟨by omega, by simp only [true_or, iff_true]; omega⟩

/-! ## Order -/

/-- The representation as long as at most `N` values wait: after `k` pops the values `waiting` stand
in the slots from `k` on. Every `pop` reduces `m_head`, so it stays below `N` and the number of
waiting values. -/
structure InOrder (q : CircularQueue T N) (k : Nat) (waiting : List T) : Prop where
  permits : q.semEmpty = waiting.length
  head_lt : q.head.toNat < N + waiting.length
  head_mod : q.head.toNat % N = (k + waiting.length) % N
  tail_lt : q.tail.toNat < N
  tail_mod : q.tail.toNat % N = k % N
  holds : Ring.Holds q.data k (waiting.map some)

theorem inOrder_fresh : InOrder (fresh : CircularQueue T N) 0 [] where
  permits := rfl
  head_lt := Nat.pos_of_neZero N
  head_mod := rfl
  tail_lt := Nat.pos_of_neZero N
  tail_mod := rfl
  holds := Ring.Holds.nil _ _

theorem InOrder.put {q : CircularQueue T N} {k : Nat} {waiting : List T} (h : InOrder q k waiting)
    (hN : N ≤ 2 ^ 31) (hfree : waiting.length < N) (item : T) :
    InOrder ⟨q.head + 1, q.tail, Function.update q.data (Ring.slot N q.head.toNat) (some item),
      q.semEmpty + 1, q.semFull - 1⟩ k (waiting ++ [item]) := by
  have hlt := h.head_lt
  have hhead : (q.head + 1).toNat = q.head.toNat + 1 := by
    rw [UInt32.toNat_add, UInt32.toNat_one]
    exact Nat.mod_eq_of_lt (by omega)
  have hslot : Ring.slot N q.head.toNat = Ring.slot N (k + (waiting.map some).length) := by
    rw [Ring.slot_eq_iff, h.head_mod, List.length_map]
  constructor
  · simp [h.permits]
  · simp only [hhead, List.length_append, List.length_singleton]
    omega
  · simp only [hhead, List.length_append, List.length_singleton]
    rw [Nat.add_mod, h.head_mod, ← Nat.add_mod, Nat.add_assoc]
  · exact h.tail_lt
  · exact h.tail_mod
  · rw [hslot, List.map_append, List.map_singleton]
    exact h.holds.put (by rw [List.length_map]; exact hfree) (some item)

theorem InOrder.take {q : CircularQueue T N} {k : Nat} {x : T} {waiting : List T}
    (h : InOrder q k (x :: waiting)) (hN : N ≤ 2 ^ 31) :
    q.data (Ring.slot N q.tail.toNat) = some x ∧
      InOrder ⟨desired N q.head, desired N (q.tail + 1), q.data, q.semEmpty - 1, q.semFull + 2⟩
        (k + 1) waiting := by
  have hlt := h.tail_lt
  have htail : (q.tail + 1).toNat = q.tail.toNat + 1 := by
    rw [UInt32.toNat_add, UInt32.toNat_one]
    exact Nat.mod_eq_of_lt (by omega)
  have hpos := Nat.pos_of_neZero N
  constructor
  · rw [Ring.slot_eq_iff.mpr h.tail_mod]
    exact h.holds.head_eq
  · constructor
    · simp [h.permits]
    · rw [toNat_desired]
      exact Nat.lt_of_lt_of_le (Nat.mod_lt _ hpos) (Nat.le_add_right N _)
    · rw [toNat_desired, Nat.mod_mod, h.head_mod, List.length_cons, Nat.add_right_comm,
        ← Nat.add_assoc]
    · rw [toNat_desired]
      exact Nat.mod_lt _ hpos
    · rw [toNat_desired, Nat.mod_mod, htail, Nat.add_mod, h.tail_mod, ← Nat.add_mod]
    · exact h.holds.take

/-- The log up to here: what came out, and what waits. -/
def Accounts (s : CircularQueue T N × List (Call T × Reply T)) : Prop :=
  ∃ waiting, InOrder s.1 (popped s.2).length waiting ∧
    (accepted s.2).map some = popped s.2 ++ waiting.map some

theorem Accounts.step {s s' : CircularQueue T N × List (Call T × Reply T)} {c : Call T}
    (hN : N ≤ 2 ^ 31) (h : Accounts s)
    (hwait : (accepted s'.2).length ≤ (popped s'.2).length + N)
    (hstep : logged call s c = some s') : Accounts s' := by
  obtain ⟨waiting, hinv, hlog⟩ := h
  have hlen := congrArg List.length hlog
  rw [List.length_map, List.length_append, List.length_map] at hlen
  cases effect_of_step hstep with
  | refuse hc hput htake =>
    refine ⟨waiting, ?_⟩
    simpa [accepted_concat, popped_concat, hput, htake] using And.intro hinv hlog
  | put hc hput htake hperm hq =>
    rename_i r item q'
    subst hq
    simp only [accepted_concat, popped_concat, hput, htake, Option.toList_some,
      Option.toList_none, List.append_nil, List.length_append, List.length_singleton] at hwait
    refine ⟨waiting ++ [item], ?_, ?_⟩
    · simp only [popped_concat, htake, Option.toList_none, List.append_nil]
      exact hinv.put hN (by omega) item
    · simp [accepted_concat, popped_concat, hput, htake, hlog]
  | take hperm hq =>
    subst hq
    cases waiting with
    | nil => exact absurd hinv.permits (Nat.pos_iff_ne_zero.mp hperm)
    | cons x waiting =>
      obtain ⟨hx, hinv'⟩ := hinv.take hN
      refine ⟨waiting, ?_, ?_⟩
      · simpa [popped_concat, poppedBy] using hinv'
      · simpa [accepted_concat, popped_concat, acceptedBy, poppedBy, hx] using hlog

/-- As long as at most `N` values wait, they come out in the order in which they went in. -/
theorem order_of_waiting (hN : N ≤ 2 ^ 31) {calls : List (Call T)}
    (hwait : Always (logged call) (fun s => (accepted s.2).length ≤ (popped s.2).length + N)
      ((fresh, []) : CircularQueue T N × List (Call T × Reply T)) calls) :
    Always (logged call) (fun s => popped s.2 <+: (accepted s.2).map some)
      ((fresh, []) : CircularQueue T N × List (Call T × Reply T)) calls := by
  have hacc := always_of_always (J := Accounts) (Accounts.step hN)
    ⟨[], inOrder_fresh, rfl⟩ hwait
  intro pre hpre s hs
  obtain ⟨waiting, -, hlog⟩ := hacc pre hpre s hs
  exact ⟨waiting.map some, hlog.symm⟩

/-! ## Lossless until the first pop -/

/-- **`CircularQueue` is lossless exactly until the first pop.** In a run of completed calls it is a
lossless bounded queue in every state if and only if no call is a `pop`. The order alone lasts as
long as at most `N` values wait. -/
theorem lossless_iff_no_pop (calls : List (Call T))
    (s : CircularQueue T N × List (Call T × Reply T))
    (h : run (logged call) (fresh, []) calls = some s) :
    (Always (logged call) Lossless ((fresh, []) : CircularQueue T N × List (Call T × Reply T))
        calls ↔ Call.pop ∉ calls) ∧
      (N ≤ 2 ^ 31 →
        Always (logged call) (fun s => (accepted s.2).length ≤ (popped s.2).length + N)
          ((fresh, []) : CircularQueue T N × List (Call T × Reply T)) calls →
        Always (logged call) (fun s => popped s.2 <+: (accepted s.2).map some)
          ((fresh, []) : CircularQueue T N × List (Call T × Reply T)) calls) := by
  refine ⟨⟨?_, ?_⟩, fun hN => order_of_waiting hN⟩
  · intro hall hpop
    have hloss := hall calls (List.prefix_refl calls) s h
    have hpermits := run_invariant Permits.step permits_fresh h
    have hpos := ((popped_length_lt_iff h).2.mpr hpop)
    have hsum := hloss.permits
    have hempty := hpermits.empty
    have hfull := hpermits.full
    omega
  · intro hno pre hpre u hu
    have hpermits := run_invariant Permits.step permits_fresh hu
    have hnone : (popped u.2).length = 0 := by
      by_contra hne
      have hpop := (popped_length_lt_iff hu).2.mp (Nat.pos_of_ne_zero hne)
      exact hno (hpre.subset hpop)
    have hempty := hpermits.empty
    have hfull := hpermits.full
    rw [hnone] at hempty hfull
    refine ⟨?_, by omega, by omega⟩
    rw [List.length_eq_zero_iff.mp hnone]
    exact List.nil_prefix

/-- With one slot: a push keeps every clause, a pop behind it loses one. -/
theorem lossless_iff_no_pop_one :
    Always (logged call) Lossless
        ((fresh, []) : CircularQueue Nat 1 × List (Call Nat × Reply Nat)) [.push 1] ∧
      ¬ Always (logged call) Lossless
        ((fresh, []) : CircularQueue Nat 1 × List (Call Nat × Reply Nat)) [.push 1, .pop] := by
  constructor
  · exact (lossless_iff_no_pop [.push 1] _ rfl).1.mpr (by simp)
  · intro hall
    exact (lossless_iff_no_pop [.push 1, .pop] _ rfl).1.mp hall (by simp)

/-- One slot, and after one pop two permits: the value 3 overwrites the value 2. -/
theorem pop_loses_value :
    ∃ s : CircularQueue Nat 1 × List (Call Nat × Reply Nat),
      run (logged call) (fresh, []) [.push 1, .pop, .push 2, .push 3, .pop] = some s ∧
        accepted s.2 = [1, 2, 3] ∧ popped s.2 = [some 1, some 3] ∧ ¬ Lossless s := by
  refine ⟨_, rfl, rfl, rfl, fun h => ?_⟩
  exact absurd h.order (by decide)

end CircularQueue

end CppExamples.Queues
