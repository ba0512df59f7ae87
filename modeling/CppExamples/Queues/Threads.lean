import CppExamples.Lib.Threads
import CppExamples.Queues.CircularQueue

/-!
# `CircularQueue` under any interleaving (`cjunk/practice/circularqueue.cc:24-62`)

Finitely many threads call `push`, `try_push` and `pop` in any order. One step of one thread is one
semaphore operation, one atomic operation on `m_head` or `m_tail`, or one access to a slot: `Pc` has
a place in front of each of them.

The state also has a history, which no step reads except to write it: how many calls have started,
the items in the order of the `m_head++` steps, which of their slots are written and announced by
`m_sem_empty.release()`, and what the pops have read. A place behind `m_head++` or `m_tail++`
carries the number `k` of that step, counted from 0.

Result: `index_sound`. The reductions of `m_head` and `m_tail` modulo `N`, each a load and a later
compare-and-exchange, never change which slot a ticket designates, until the 32 bits overflow. The
value loaded does not matter: where the exchange succeeds, it replaces the counter by its own
residue.
-/

namespace CppExamples.Queues

open Lib Lib.Machine Lib.Threads

namespace CircularQueue

/-- The places of `pop` behind the access to the slot, each in front of the operation it names. -/
inductive Stage where
  | releaseFull
  | loadTail
  | exchangeTail (expected : UInt32)
  | loadHead
  | exchangeHead (expected : UInt32)
  | post

/-- Where a thread is: in front of the operation it names. -/
inductive Pc (T : Type) where
  | idle
  | acquire (item : T)
  | tryAcquire (item : T)
  | incHead (item : T)
  | store (item : T) (ticket : UInt32) (k : Nat)
  | releaseEmpty (k : Nat)
  | acquireEmpty
  | incTail
  | load (ticket : UInt32) (k : Nat)
  | finish (k : Nat) (item : Option T) (stage : Stage)

/-- What a thread does next: start a call, fail in `try_acquire`, or go on. -/
inductive Act (T : Type) where
  | push (item : T)
  | tryPush (item : T)
  | pop
  | fail
  | next

structure State (ι T : Type) (N : Nat) where
  queue : CircularQueue T N
  pc : ι → Pc T
  /-- Calls of `push` and `try_push` so far. -/
  pushesStarted : Nat
  popsStarted : Nat
  /-- The items of the `m_head++` steps, in their order. -/
  items : List T
  /-- The `m_head++` steps whose slot has been written. -/
  written : Finset Nat
  /-- The `m_head++` steps whose push has released `m_sem_empty`. -/
  released : Finset Nat
  /-- The number of `m_tail++` steps. -/
  tailIncs : Nat
  /-- What the pops have read, with the numbers of their `m_tail++` steps. -/
  reads : List (Nat × Option T)
  /-- What the completed pops have returned. -/
  returned : List (Nat × Option T)

namespace State

variable {ι T : Type} {N : Nat} [DecidableEq ι]

/-- The state before the first call. -/
def initial : State ι T N where
  queue := fresh
  pc := fun _ => .idle
  pushesStarted := 0
  popsStarted := 0
  items := []
  written := ∅
  released := ∅
  tailIncs := 0
  reads := []
  returned := []

/-- Thread `t` goes to the place `p`. -/
def goto (s : State ι T N) (t : ι) (p : Pc T) : State ι T N :=
  { s with pc := Function.update s.pc t p }

variable [NeZero N]

/-- The step of thread `t` behind its access to the slot. -/
def finishStep (s : State ι T N) (t : ι) (k : Nat) (item : Option T) : Stage → State ι T N
  | .releaseFull =>
    { s.goto t (.finish k item .loadTail) with queue := s.queue.releaseFull }
  | .loadTail => s.goto t (.finish k item (.exchangeTail s.queue.tail))
  | .exchangeTail expected =>
    { s.goto t (.finish k item .loadHead) with queue := s.queue.compareExchangeTail expected }
  | .loadHead => s.goto t (.finish k item (.exchangeHead s.queue.head))
  | .exchangeHead expected =>
    { s.goto t (.finish k item .post) with queue := s.queue.compareExchangeHead expected }
  | .post =>
    { s.goto t .idle with
      queue := s.queue.releaseFull
      returned := s.returned ++ [(k, item)] }

/-- The next operation of thread `t`, which is inside a call. -/
def nextStep (s : State ι T N) (t : ι) : Pc T → Option (State ι T N)
  | .idle => none
  | .acquire item | .tryAcquire item =>
    s.queue.acquireFull.map fun q => { s.goto t (.incHead item) with queue := q }
  | .incHead item =>
    some { s.goto t (.store item s.queue.head s.items.length) with
      queue := s.queue.incHead
      items := s.items ++ [item] }
  | .store item ticket k =>
    some { s.goto t (.releaseEmpty k) with
      queue := s.queue.store ticket item
      written := insert k s.written }
  | .releaseEmpty k =>
    some { s.goto t .idle with
      queue := s.queue.releaseEmpty
      released := insert k s.released }
  | .acquireEmpty =>
    s.queue.acquireEmpty.map fun q => { s.goto t .incTail with queue := q }
  | .incTail =>
    some { s.goto t (.load s.queue.tail s.tailIncs) with
      queue := s.queue.incTail
      tailIncs := s.tailIncs + 1 }
  | .load ticket k =>
    some { s.goto t (.finish k (s.queue.load ticket) .releaseFull) with
      reads := s.reads ++ [(k, s.queue.load ticket)] }
  | .finish k item stage => some (s.finishStep t k item stage)

/-- One step of one thread. -/
def step (s : State ι T N) : ι × Act T → Option (State ι T N)
  | (t, act) =>
    match act, s.pc t with
    | .push item, .idle =>
      some { s.goto t (.acquire item) with pushesStarted := s.pushesStarted + 1 }
    | .tryPush item, .idle =>
      some { s.goto t (.tryAcquire item) with pushesStarted := s.pushesStarted + 1 }
    | .pop, .idle => some { s.goto t .acquireEmpty with popsStarted := s.popsStarted + 1 }
    | .fail, .tryAcquire _ => some (s.goto t .idle)
    | .next, p => s.nextStep t p
    | _, _ => none

/-! ## What one step can do -/

/-- The effects of a step of thread `t`. The stages behind the access to the slot are one case: they
move no data, and change a counter at most to its residue. -/
inductive Step (s : State ι T N) (t : ι) : State ι T N → Prop where
  | startPush {p : Pc T} {item : T} (hpc : s.pc t = .idle)
      (hp : p = .acquire item ∨ p = .tryAcquire item) :
      Step s t { s.goto t p with pushesStarted := s.pushesStarted + 1 }
  | startPop (hpc : s.pc t = .idle) :
      Step s t { s.goto t .acquireEmpty with popsStarted := s.popsStarted + 1 }
  | giveUp {item : T} (hpc : s.pc t = .tryAcquire item) : Step s t (s.goto t .idle)
  | acquire {item : T} {q : CircularQueue T N}
      (hpc : s.pc t = .acquire item ∨ s.pc t = .tryAcquire item)
      (hq : q = { s.queue with semFull := s.queue.semFull - 1 }) :
      Step s t { s.goto t (.incHead item) with queue := q }
  | incHead {item : T} (hpc : s.pc t = .incHead item) :
      Step s t { s.goto t (.store item s.queue.head s.items.length) with
        queue := s.queue.incHead
        items := s.items ++ [item] }
  | store {item : T} {ticket : UInt32} {k : Nat} (hpc : s.pc t = .store item ticket k) :
      Step s t { s.goto t (.releaseEmpty k) with
        queue := s.queue.store ticket item
        written := insert k s.written }
  | releaseEmpty {k : Nat} (hpc : s.pc t = .releaseEmpty k) :
      Step s t { s.goto t .idle with
        queue := s.queue.releaseEmpty
        released := insert k s.released }
  | acquireEmpty {q : CircularQueue T N} (hpc : s.pc t = .acquireEmpty)
      (hperm : 0 < s.queue.semEmpty)
      (hq : q = { s.queue with semEmpty := s.queue.semEmpty - 1 }) :
      Step s t { s.goto t .incTail with queue := q }
  | incTail (hpc : s.pc t = .incTail) :
      Step s t { s.goto t (.load s.queue.tail s.tailIncs) with
        queue := s.queue.incTail
        tailIncs := s.tailIncs + 1 }
  | load {ticket : UInt32} {k : Nat} (hpc : s.pc t = .load ticket k) :
      Step s t { s.goto t (.finish k (s.queue.load ticket) .releaseFull) with
        reads := s.reads ++ [(k, s.queue.load ticket)] }
  | finish {k : Nat} {item : Option T} {stage : Stage} {p : Pc T} {q : CircularQueue T N}
      {returned : List (Nat × Option T)} (hpc : s.pc t = .finish k item stage)
      (hp : p = .idle ∨ ∃ stage', p = .finish k item stage')
      (hhead : q.head = s.queue.head ∨ q.head = desired N s.queue.head)
      (htail : q.tail = s.queue.tail ∨ q.tail = desired N s.queue.tail)
      (hdata : q.data = s.queue.data) (hempty : q.semEmpty = s.queue.semEmpty)
      (hret : returned = s.returned ∨ returned = s.returned ++ [(k, item)]) :
      Step s t { s.goto t p with queue := q, returned := returned }

theorem finishStep_step {s : State ι T N} {t : ι} {k : Nat} {item : Option T} {stage : Stage}
    (hpc : s.pc t = .finish k item stage) : Step s t (s.finishStep t k item stage) := by
  cases stage with
  | releaseFull =>
    exact .finish hpc (.inr ⟨_, rfl⟩) (.inl rfl) (.inl rfl) rfl rfl (.inl rfl)
  | loadTail => exact .finish hpc (.inr ⟨_, rfl⟩) (.inl rfl) (.inl rfl) rfl rfl (.inl rfl)
  | exchangeTail expected =>
    by_cases h : s.queue.tail = expected
    · refine .finish hpc (.inr ⟨_, rfl⟩) (.inl ?_) (.inr ?_) ?_ ?_ (.inl rfl) <;>
        simp [compareExchangeTail, h]
    · refine .finish hpc (.inr ⟨_, rfl⟩) (.inl ?_) (.inl ?_) ?_ ?_ (.inl rfl) <;>
        simp [compareExchangeTail, h]
  | loadHead => exact .finish hpc (.inr ⟨_, rfl⟩) (.inl rfl) (.inl rfl) rfl rfl (.inl rfl)
  | exchangeHead expected =>
    by_cases h : s.queue.head = expected
    · refine .finish hpc (.inr ⟨_, rfl⟩) (.inr ?_) (.inl ?_) ?_ ?_ (.inl rfl) <;>
        simp [compareExchangeHead, h]
    · refine .finish hpc (.inr ⟨_, rfl⟩) (.inl ?_) (.inl ?_) ?_ ?_ (.inl rfl) <;>
        simp [compareExchangeHead, h]
  | post => exact .finish hpc (.inl rfl) (.inl rfl) (.inl rfl) rfl rfl (.inr rfl)

theorem nextStep_step {s s' : State ι T N} {t : ι} {p : Pc T} (hpc : s.pc t = p)
    (h : s.nextStep t p = some s') : Step s t s' := by
  cases p with
  | idle => exact absurd h (by simp [nextStep])
  | acquire item =>
    simp only [nextStep, acquireFull, Option.map_eq_some_iff, Option.ite_none_right_eq_some] at h
    obtain ⟨q, ⟨-, hq⟩, rfl⟩ := h
    exact .acquire (.inl hpc) (Option.some.inj hq).symm
  | tryAcquire item =>
    simp only [nextStep, acquireFull, Option.map_eq_some_iff, Option.ite_none_right_eq_some] at h
    obtain ⟨q, ⟨-, hq⟩, rfl⟩ := h
    exact .acquire (.inr hpc) (Option.some.inj hq).symm
  | incHead item => exact Option.some.inj h ▸ .incHead hpc
  | store item ticket k => exact Option.some.inj h ▸ .store hpc
  | releaseEmpty k => exact Option.some.inj h ▸ .releaseEmpty hpc
  | acquireEmpty =>
    simp only [nextStep, CircularQueue.acquireEmpty, Option.map_eq_some_iff,
      Option.ite_none_right_eq_some] at h
    obtain ⟨q, ⟨hperm, hq⟩, rfl⟩ := h
    exact .acquireEmpty hpc hperm (Option.some.inj hq).symm
  | incTail => exact Option.some.inj h ▸ .incTail hpc
  | load ticket k => exact Option.some.inj h ▸ .load hpc
  | finish k item stage => exact Option.some.inj h ▸ finishStep_step hpc

theorem step_of_step {s s' : State ι T N} {a : ι × Act T} (h : s.step a = some s') :
    Step s a.1 s' := by
  obtain ⟨t, act⟩ := a
  unfold step at h
  simp only at h
  split at h
  · rename_i item hpc
    exact Option.some.inj h ▸ .startPush hpc (.inl rfl)
  · rename_i item hpc
    exact Option.some.inj h ▸ .startPush hpc (.inr rfl)
  · rename_i hpc
    exact Option.some.inj h ▸ .startPop hpc
  · rename_i item hpc
    exact Option.some.inj h ▸ .giveUp hpc
  · exact nextStep_step rfl h
  · exact absurd h (by simp)

/-! ## The counters -/

/-- The counter `c` after `n` increments and any number of reductions modulo `N`. -/
def Counts (N : Nat) (c : UInt32) (n : Nat) : Prop :=
  n < 2 ^ 32 → c.toNat ≤ n ∧ c.toNat % N = n % N

omit [NeZero N] in
theorem Counts.inc {c : UInt32} {n : Nat} (h : Counts N c n) : Counts N (c + 1) (n + 1) := by
  intro hn
  obtain ⟨hle, hmod⟩ := h (by omega)
  have hc : (c + 1).toNat = c.toNat + 1 := by
    rw [UInt32.toNat_add, UInt32.toNat_one]
    exact Nat.mod_eq_of_lt (by omega)
  refine ⟨by omega, ?_⟩
  rw [hc, Nat.add_mod, hmod, ← Nat.add_mod]

omit [NeZero N] in
theorem Counts.reduce {c c' : UInt32} {n : Nat} (h : Counts N c n)
    (hc : c' = c ∨ c' = desired N c) : Counts N c' n := by
  intro hn
  obtain ⟨hle, hmod⟩ := h hn
  rcases hc with rfl | rfl
  · exact ⟨hle, hmod⟩
  · rw [toNat_desired, Nat.mod_mod]
    exact ⟨(Nat.mod_le _ _).trans hle, hmod⟩

/-- The ticket at this place designates the slot of its number. -/
def TicketSound (N : Nat) : Pc T → Prop
  | .store _ ticket k => k < 2 ^ 32 → ticket.toNat % N = k % N
  | .load ticket k => k < 2 ^ 32 → ticket.toNat % N = k % N
  | _ => True

/-- The counters and the tickets taken from them. -/
structure Index (s : State ι T N) : Prop where
  head : Counts N s.queue.head s.items.length
  tail : Counts N s.queue.tail s.tailIncs
  tickets : ∀ t, TicketSound N (s.pc t)

omit [DecidableEq ι] [NeZero N] in
theorem index_initial : Index (initial : State ι T N) where
  head := fun _ => ⟨le_refl 0, rfl⟩
  tail := fun _ => ⟨le_refl 0, rfl⟩
  tickets := fun _ => trivial

theorem Index.step {s s' : State ι T N} {a : ι × Act T} (h : Index s)
    (hstep : s.step a = some s') : Index s' := by
  cases step_of_step hstep with
  | startPush hpc hp =>
    refine ⟨h.head, h.tail, forall_update h.tickets _ ?_⟩
    rcases hp with rfl | rfl <;> exact trivial
  | startPop hpc | giveUp hpc | releaseEmpty hpc | load hpc | store hpc =>
    exact ⟨h.head, h.tail, forall_update h.tickets _ trivial⟩
  | acquire hpc hq | acquireEmpty hpc hperm hq =>
    subst hq
    exact ⟨h.head, h.tail, forall_update h.tickets _ trivial⟩
  | incHead hpc =>
    refine ⟨?_, h.tail, forall_update h.tickets _ fun hk => (h.head hk).2⟩
    simp only [List.length_append, List.length_singleton]
    exact h.head.inc
  | incTail hpc =>
    exact ⟨h.head, h.tail.inc, forall_update h.tickets _ fun hk => (h.tail hk).2⟩
  | finish hpc hp hhead htail hdata hempty hret =>
    refine ⟨h.head.reduce hhead, h.tail.reduce htail, forall_update h.tickets _ ?_⟩
    rcases hp with rfl | ⟨stage', rfl⟩ <;> exact trivial

/-! ## Started calls -/

/-- A push that has not done its `m_head++`. -/
def beforeIncHead : Pc T → Nat
  | .acquire _ | .tryAcquire _ | .incHead _ => 1
  | _ => 0

/-- A pop that has not done its `m_tail++`. -/
def beforeIncTail : Pc T → Nat
  | .acquireEmpty | .incTail => 1
  | _ => 0

/-- The numbers at a place are numbers of steps that have been done. -/
def NumberBelow (heads tails : Nat) : Pc T → Prop
  | .store _ _ k | .releaseEmpty k => k < heads
  | .load _ k | .finish k _ _ => k < tails
  | _ => True

theorem NumberBelow.mono {heads tails heads' tails' : Nat} {p : Pc T}
    (h : NumberBelow heads tails p) (hh : heads ≤ heads') (ht : tails ≤ tails') :
    NumberBelow heads' tails' p := by
  cases p <;> simp only [NumberBelow] at h ⊢ <;> omega

variable [Fintype ι]

/-- Every increment of a counter belongs to a started call. -/
structure Started (s : State ι T N) : Prop where
  pushes : s.items.length + tally beforeIncHead s.pc ≤ s.pushesStarted
  pops : s.tailIncs + tally beforeIncTail s.pc ≤ s.popsStarted
  numbers : ∀ t, NumberBelow s.items.length s.tailIncs (s.pc t)

omit [DecidableEq ι] [NeZero N] in
theorem started_initial : Started (initial : State ι T N) where
  pushes := by simp [initial, tally, beforeIncHead]
  pops := by simp [initial, tally, beforeIncTail]
  numbers := fun _ => trivial

omit [NeZero N] in
/-- A thread moves to `p`: it may do an increment only where its call is counted as waiting for
one, and it may wait for one only where its call has just started. -/
theorem Started.move {s s' : State ι T N} {t : ι} {p : Pc T} (h : Started s)
    (hpc : s'.pc = Function.update s.pc t p)
    (hpush : s'.items.length + beforeIncHead p + s.pushesStarted ≤
      s.items.length + beforeIncHead (s.pc t) + s'.pushesStarted)
    (hpop : s'.tailIncs + beforeIncTail p + s.popsStarted ≤
      s.tailIncs + beforeIncTail (s.pc t) + s'.popsStarted)
    (hheads : s.items.length ≤ s'.items.length) (htails : s.tailIncs ≤ s'.tailIncs)
    (hp : NumberBelow s'.items.length s'.tailIncs p) : Started s' := by
  have hpushes := h.pushes
  have hpops := h.pops
  have hhead := tally_update beforeIncHead s.pc t p
  have htail := tally_update beforeIncTail s.pc t p
  refine ⟨by rw [hpc]; omega, by rw [hpc]; omega, ?_⟩
  rw [hpc]
  exact forall_update (fun u => (h.numbers u).mono hheads htails) t hp

theorem Started.step {s s' : State ι T N} {a : ι × Act T} (h : Started s)
    (hstep : s.step a = some s') : Started s' := by
  have hnum := h.numbers a.1
  cases step_of_step hstep with
  | startPush hpc hp =>
    rcases hp with rfl | rfl <;>
      exact h.move rfl (by simp +arith [hpc, beforeIncHead, goto])
        (by simp [hpc, beforeIncTail, goto]) le_rfl le_rfl trivial
  | startPop hpc =>
    exact h.move rfl (by simp [hpc, beforeIncHead, goto])
      (by simp +arith [hpc, beforeIncTail, goto]) le_rfl le_rfl trivial
  | giveUp hpc =>
    exact h.move rfl (by simp [hpc, beforeIncHead, goto]) (by simp [hpc, beforeIncTail, goto])
      le_rfl le_rfl trivial
  | acquire hpc hq =>
    rcases hpc with hpc | hpc <;>
      exact h.move rfl (by simp [hpc, beforeIncHead, goto]) (by simp [hpc, beforeIncTail, goto])
        le_rfl le_rfl trivial
  | incHead hpc =>
    exact h.move rfl (by simp [hpc, beforeIncHead, goto]) (by simp [hpc, beforeIncTail, goto])
      (by simp) le_rfl (by simp [NumberBelow])
  | store hpc | releaseEmpty hpc | load hpc =>
    rw [hpc] at hnum
    exact h.move rfl (by simp [hpc, beforeIncHead, goto]) (by simp [hpc, beforeIncTail, goto])
      le_rfl le_rfl (by first | exact hnum | trivial)
  | acquireEmpty hpc hperm hq =>
    exact h.move rfl (by simp [hpc, beforeIncHead, goto]) (by simp [hpc, beforeIncTail, goto])
      le_rfl le_rfl trivial
  | incTail hpc =>
    exact h.move rfl (by simp [hpc, beforeIncHead, goto])
      (by simp +arith [hpc, beforeIncTail, goto]) le_rfl (by simp) (by simp [NumberBelow])
  | finish hpc hp hhead htail hdata hempty hret =>
    rw [hpc] at hnum
    rcases hp with rfl | ⟨stage', rfl⟩ <;>
      exact h.move rfl (by simp [hpc, beforeIncHead, goto]) (by simp [hpc, beforeIncTail, goto])
        le_rfl le_rfl (by first | exact hnum | trivial)

/-- **The index reduction is sound.** As long as fewer than `2 ^ 32` pushes and pops have started,
under every interleaving `m_head` and `m_tail` have the residues of the numbers of `m_head++` and
`m_tail++` steps, and the `k`-th ticket designates slot `k % N`. -/
theorem index_sound (steps : List (ι × Act T)) (s : State ι T N)
    (h : run step initial steps = some s) (hpush : s.pushesStarted < 2 ^ 32)
    (hpop : s.popsStarted < 2 ^ 32) :
    s.queue.head.toNat % N = s.items.length % N ∧ s.queue.tail.toNat % N = s.tailIncs % N ∧
      (∀ t item ticket k, s.pc t = .store item ticket k →
        k < s.items.length ∧ (Ring.slot N ticket.toNat).val = k % N) ∧
      ∀ t ticket k, s.pc t = .load ticket k →
        k < s.tailIncs ∧ (Ring.slot N ticket.toNat).val = k % N := by
  have hindex := run_invariant Index.step index_initial h
  have hstarted := run_invariant Started.step started_initial h
  have hpushes := hstarted.pushes
  have hpops := hstarted.pops
  have hthread : ∀ t p, s.pc t = p →
      NumberBelow s.items.length s.tailIncs p ∧ TicketSound N p := fun t p hpc =>
    hpc ▸ ⟨hstarted.numbers t, hindex.tickets t⟩
  refine ⟨(hindex.head (by omega)).2, (hindex.tail (by omega)).2, ?_, ?_⟩
  · intro t item ticket k hpc
    obtain ⟨hk, hslot⟩ := hthread t _ hpc
    simp only [NumberBelow] at hk
    exact ⟨hk, hslot (by omega)⟩
  · intro t ticket k hpc
    obtain ⟨hk, hslot⟩ := hthread t _ hpc
    simp only [NumberBelow] at hk
    exact ⟨hk, hslot (by omega)⟩

/-- Three slots, and a pop of thread 1 between its load of `m_tail` and its exchange. -/
theorem index_sound_three :
    ∃ s : State (Fin 2) Nat 3, run step initial
        [(0, .push 7), (0, .next), (0, .next), (0, .next), (0, .next), (1, .pop), (1, .next),
          (1, .next), (1, .next), (1, .next), (1, .next)] = some s ∧
      s.queue.head.toNat % 3 = s.items.length % 3 ∧ s.queue.tail.toNat % 3 = s.tailIncs % 3 := by
  refine ⟨_, rfl, ?_⟩
  have h := index_sound (ι := Fin 2) (N := 3) [(0, .push 7), (0, .next), (0, .next), (0, .next),
    (0, .next), (1, .pop), (1, .next), (1, .next), (1, .next), (1, .next), (1, .next)] _ rfl
    (by decide) (by decide)
  exact ⟨h.1, h.2.1⟩

end State

end CircularQueue

end CppExamples.Queues
