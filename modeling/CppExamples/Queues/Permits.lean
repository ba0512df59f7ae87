import CppExamples.Queues.Threads

/-!
# The permits of `CircularQueue`, and when its calls block

`pop` gives back two permits of `m_sem_full` for the one that a push has taken
(`cjunk/practice/circularqueue.cc:44,60`). `accounts` says what that does to the two semaphores
under every interleaving, as equations between the permits, the places of the threads and the
numbers of pushes and pops.

* `stepsOf_add_remaining_le`: a thread inside a call takes at most nine steps until the call ends or
  blocks. There is no retry: a failed `compare_exchange_strong` is not repeated.
* `blocked`: where no thread can go on, the calls that have not ended are all pushes or all pops.
  They are pops if everything pushed has been popped, and pushes if `N + 2 n` items have been pushed
  for `n` popped ones.
* `schedule_independent`: so the schedule does not matter for how far the calls get. From every
  reachable state they come to a halt, and of `p` pushes and `n` pops `min p (N + 2 n)` and
  `min n p` have completed then.
-/

namespace CppExamples.Queues

open Lib Lib.Machine Lib.Threads

namespace CircularQueue.State

variable {ι T : Type} {N : Nat} [DecidableEq ι] [NeZero N]

/-! ## The equations -/

/-- The permits of `m_sem_full` that a thread has taken or will give back. -/
def fullOwed : Pc T → Nat
  | .incHead _ => 1
  | .load _ _ | .finish _ _ .releaseFull => 2
  | .finish _ _ _ => 1
  | _ => 0

/-- The permits of `m_sem_empty` that a thread has taken or will give back. -/
def emptyOwed : Pc T → Nat
  | .store _ _ _ | .releaseEmpty _ | .incTail => 1
  | _ => 0

/-- A pop that has its ticket and has not returned. -/
def popping : Pc T → Nat
  | .load _ _ | .finish _ _ _ => 1
  | _ => 0

variable [Fintype ι]

/-- Where the permits are. -/
structure Accounts (s : State ι T N) : Prop where
  full : s.queue.semFull + tally fullOwed s.pc + s.items.length = N + 2 * s.tailIncs
  empty : s.queue.semEmpty + tally emptyOwed s.pc + s.tailIncs = s.items.length
  pops : s.returned.length + tally popping s.pc = s.tailIncs

omit [DecidableEq ι] [NeZero N] in
theorem accounts_initial : Accounts (initial : State ι T N) := by
  refine ⟨?_, ?_, ?_⟩ <;>
    simp [initial, CircularQueue.fresh, tally, fullOwed, emptyOwed, popping]

omit [NeZero N] in
/-- A thread moves to `p`: each equation changes by the same on both sides. -/
theorem Accounts.move {s s' : State ι T N} {t : ι} {p : Pc T} (h : Accounts s)
    (hpc : s'.pc = Function.update s.pc t p)
    (hfull : s'.queue.semFull + fullOwed p + s'.items.length + 2 * s.tailIncs =
      s.queue.semFull + fullOwed (s.pc t) + s.items.length + 2 * s'.tailIncs)
    (hempty : s'.queue.semEmpty + emptyOwed p + s'.tailIncs + s.items.length =
      s.queue.semEmpty + emptyOwed (s.pc t) + s.tailIncs + s'.items.length)
    (hpops : s'.returned.length + popping p + s.tailIncs =
      s.returned.length + popping (s.pc t) + s'.tailIncs) : Accounts s' := by
  obtain ⟨h1, h2, h3⟩ := h
  have hf := tally_update fullOwed s.pc t p
  have he := tally_update emptyOwed s.pc t p
  have hp := tally_update popping s.pc t p
  refine ⟨?_, ?_, ?_⟩ <;> rw [hpc] <;> omega

omit [Fintype ι] in
/-- A push that goes on from `m_sem_full.acquire()` had a permit. -/
theorem semFull_pos_of_step {s s' : State ι T N} {a : ι × Act T} {item : T}
    (hpc : s.pc a.1 = .acquire item ∨ s.pc a.1 = .tryAcquire item) (h : s.step a = some s')
    (hne : s'.pc a.1 ≠ .idle) : 0 < s.queue.semFull := by
  obtain ⟨t, act⟩ := a
  by_contra hzero
  have hnone : s.queue.acquireFull = none := if_neg hzero
  rcases hpc with hpc | hpc
  · cases act <;> simp [step, hpc, nextStep, hnone] at h
  · cases act with
    | fail =>
      simp only [step, hpc, Option.some.injEq] at h
      exact hne (by rw [← h]; exact Function.update_self ..)
    | _ => simp [step, hpc, nextStep, hnone] at h

omit [Fintype ι] in
theorem eq_finishStep {s s' : State ι T N} {a : ι × Act T} {k : Nat} {item : Option T}
    {stage : Stage} (hpc : s.pc a.1 = .finish k item stage) (h : s.step a = some s') :
    s' = s.finishStep a.1 k item stage := by
  obtain ⟨t, act⟩ := a
  cases act with
  | next => exact (Option.some.inj (by simpa [step, hpc, nextStep] using h)).symm
  | _ => simp [step, hpc] at h

section CompareExchange

variable (q : CircularQueue T N) (expected : UInt32)

omit [NeZero N]

theorem semFull_compareExchangeTail :
    (q.compareExchangeTail expected).semFull = q.semFull := by
  unfold compareExchangeTail
  split <;> rfl

theorem semEmpty_compareExchangeTail :
    (q.compareExchangeTail expected).semEmpty = q.semEmpty := by
  unfold compareExchangeTail
  split <;> rfl

theorem semFull_compareExchangeHead :
    (q.compareExchangeHead expected).semFull = q.semFull := by
  unfold compareExchangeHead
  split <;> rfl

theorem semEmpty_compareExchangeHead :
    (q.compareExchangeHead expected).semEmpty = q.semEmpty := by
  unfold compareExchangeHead
  split <;> rfl

end CompareExchange

omit [NeZero N] in
/-- Behind the access to the slot: two permits are given back, one at each end. -/
theorem Accounts.finishStep {s : State ι T N} {t : ι} {k : Nat} {item : Option T} {stage : Stage}
    (h : Accounts s) (hpc : s.pc t = .finish k item stage) :
    Accounts (s.finishStep t k item stage) := by
  cases stage with
  | releaseFull =>
    refine h.move rfl ?_
      (by simp [State.finishStep, hpc, emptyOwed, goto, CircularQueue.releaseFull])
      (by simp [State.finishStep, hpc, popping, goto])
    simp +arith only [State.finishStep, hpc, fullOwed, goto, CircularQueue.releaseFull]
  | loadTail | loadHead =>
    exact h.move rfl (by simp [State.finishStep, hpc, fullOwed, goto])
      (by simp [State.finishStep, hpc, emptyOwed, goto])
      (by simp [State.finishStep, hpc, popping, goto])
  | exchangeTail expected =>
    exact h.move rfl
      (by simp [State.finishStep, hpc, fullOwed, goto, semFull_compareExchangeTail])
      (by simp [State.finishStep, hpc, emptyOwed, goto, semEmpty_compareExchangeTail])
      (by simp [State.finishStep, hpc, popping, goto])
  | exchangeHead expected =>
    exact h.move rfl
      (by simp [State.finishStep, hpc, fullOwed, goto, semFull_compareExchangeHead])
      (by simp [State.finishStep, hpc, emptyOwed, goto, semEmpty_compareExchangeHead])
      (by simp [State.finishStep, hpc, popping, goto])
  | post =>
    refine h.move rfl ?_
      (by simp [State.finishStep, hpc, emptyOwed, goto, CircularQueue.releaseFull])
      ?_
    · simp +arith only [State.finishStep, hpc, fullOwed, goto, CircularQueue.releaseFull]
    · simp +arith only [State.finishStep, hpc, popping, goto, List.length_append,
        List.length_singleton]

theorem Accounts.step {s s' : State ι T N} {a : ι × Act T} (h : Accounts s)
    (hstep : s.step a = some s') : Accounts s' := by
  cases step_of_step hstep with
  | startPush hpc hp =>
    rcases hp with rfl | rfl <;>
      exact h.move rfl (by simp [hpc, fullOwed, goto]) (by simp [hpc, emptyOwed, goto])
        (by simp [hpc, popping, goto])
  | startPop hpc | giveUp hpc =>
    exact h.move rfl (by simp [hpc, fullOwed, goto]) (by simp [hpc, emptyOwed, goto])
      (by simp [hpc, popping, goto])
  | @acquire item q hpc hq =>
    have hpos := semFull_pos_of_step hpc hstep (by simp [goto])
    subst hq
    rcases hpc with hpc | hpc <;>
      exact h.move rfl (by simp only [hpc, fullOwed, goto]; omega) (by simp [hpc, emptyOwed, goto])
        (by simp [hpc, popping, goto])
  | incHead hpc =>
    refine h.move rfl ?_ ?_ (by simp [hpc, popping, goto])
    · simp only [hpc, fullOwed, goto, CircularQueue.incHead, List.length_append,
        List.length_singleton]
      omega
    · simp only [hpc, emptyOwed, goto, CircularQueue.incHead, List.length_append,
        List.length_singleton]
      omega
  | store hpc =>
    exact h.move rfl (by simp [hpc, fullOwed, goto, CircularQueue.store])
      (by simp [hpc, emptyOwed, goto, CircularQueue.store]) (by simp [hpc, popping, goto])
  | releaseEmpty hpc =>
    refine h.move rfl (by simp [hpc, fullOwed, goto, CircularQueue.releaseEmpty]) ?_
      (by simp [hpc, popping, goto])
    simp +arith only [hpc, emptyOwed, goto, CircularQueue.releaseEmpty]
  | acquireEmpty hpc hperm hq =>
    subst hq
    refine h.move rfl (by simp [hpc, fullOwed, goto]) ?_ (by simp [hpc, popping, goto])
    simp only [hpc, emptyOwed, goto]
    omega
  | incTail hpc =>
    refine h.move rfl ?_ ?_ ?_
    · simp only [hpc, fullOwed, goto, CircularQueue.incTail]
      omega
    · simp only [hpc, emptyOwed, goto, CircularQueue.incTail]
      omega
    · simp only [hpc, popping, goto]
      omega
  | load hpc =>
    exact h.move rfl (by simp [hpc, fullOwed, goto]) (by simp [hpc, emptyOwed, goto])
      (by simp [hpc, popping, goto])
  | finish hpc =>
    rw [eq_finishStep hpc hstep]
    exact h.finishStep hpc

theorem accounts_of_run {steps : List (ι × Act T)} {s : State ι T N}
    (h : run step initial steps = some s) : Accounts s :=
  run_invariant Accounts.step accounts_initial h

/-- **Where the permits are.** In every interleaving `m_sem_full` has `N` permits, one less for each
item pushed, two more for each pop past its `m_tail++`, and less what the running calls have taken
or will give back; and `m_sem_empty` has one for each item pushed and not popped, less what the
running calls have taken or will give back. -/
theorem accounts (steps : List (ι × Act T)) (s : State ι T N)
    (h : run step initial steps = some s) : Accounts s :=
  accounts_of_run h

/-- One slot, one push and one pop: `m_sem_full` has two permits then. -/
theorem accounts_one :
    ∃ s : State (Fin 2) Nat 1, run step initial
        [(0, .push 7), (0, .next), (0, .next), (0, .next), (0, .next), (1, .pop), (1, .next),
          (1, .next), (1, .next), (1, .next), (1, .next), (1, .next), (1, .next), (1, .next),
          (1, .next)] = some s ∧ s.queue.semFull = 2 ∧ Accounts s := by
  refine ⟨_, rfl, rfl, ?_⟩
  exact accounts (ι := Fin 2) (N := 1) [(0, .push 7), (0, .next), (0, .next), (0, .next),
    (0, .next), (1, .pop), (1, .next), (1, .next), (1, .next), (1, .next), (1, .next), (1, .next),
    (1, .next), (1, .next), (1, .next)] _ rfl

/-! ## Calls end or block -/

/-- The steps to the end of the call. -/
def remaining : Pc T → Nat
  | .idle => 0
  | .acquire _ | .tryAcquire _ => 4
  | .incHead _ => 3
  | .store _ _ _ => 2
  | .releaseEmpty _ => 1
  | .acquireEmpty => 9
  | .incTail => 8
  | .load _ _ => 7
  | .finish _ _ .releaseFull => 6
  | .finish _ _ .loadTail => 5
  | .finish _ _ (.exchangeTail _) => 4
  | .finish _ _ .loadHead => 3
  | .finish _ _ (.exchangeHead _) => 2
  | .finish _ _ .post => 1

theorem remaining_le (p : Pc T) : remaining p ≤ 9 := by
  cases p with
  | finish k item stage => cases stage <;> simp [remaining]
  | _ => simp [remaining]

/-- A step that starts no call. -/
def Continues : Act T → Prop
  | .fail | .next => True
  | _ => False

omit [Fintype ι] in
/-- A step that starts no call brings its thread one step nearer to the end. -/
theorem remaining_step {s s' : State ι T N} {t : ι} {act : Act T} (hact : Continues act)
    (h : s.step (t, act) = some s') :
    (∃ p, s'.pc = Function.update s.pc t p ∧ remaining p < remaining (s.pc t)) ∧
      s'.pushesStarted = s.pushesStarted ∧ s'.popsStarted = s.popsStarted := by
  cases act with
  | fail =>
    cases hpc : s.pc t with
    | tryAcquire item =>
      simp only [step, hpc, Option.some.injEq] at h
      subst h
      exact ⟨⟨.idle, rfl, by simp [remaining]⟩, rfl, rfl⟩
    | _ => simp [step, hpc] at h
  | next =>
    cases hpc : s.pc t with
    | idle => simp [step, hpc, nextStep] at h
    | acquire item | tryAcquire item =>
      simp only [step, hpc, nextStep, Option.map_eq_some_iff] at h
      obtain ⟨q, -, rfl⟩ := h
      exact ⟨⟨.incHead item, rfl, by simp [remaining]⟩, rfl, rfl⟩
    | acquireEmpty =>
      simp only [step, hpc, nextStep, Option.map_eq_some_iff] at h
      obtain ⟨q, -, rfl⟩ := h
      exact ⟨⟨.incTail, rfl, by simp [remaining]⟩, rfl, rfl⟩
    | finish k item stage =>
      rw [eq_finishStep hpc h]
      cases stage <;> exact ⟨⟨_, rfl, by simp [remaining]⟩, rfl, rfl⟩
    | incHead item | store item ticket k | releaseEmpty k | incTail | load ticket k =>
      simp only [step, hpc, nextStep, Option.some.injEq] at h
      subst h
      exact ⟨⟨_, rfl, by simp [remaining]⟩, rfl, rfl⟩
  | push | tryPush | pop => exact hact.elim

/-- The steps of one thread. -/
def stepsOf (t : ι) (steps : List (ι × Act T)) : Nat := steps.countP fun a => a.1 = t

omit [Fintype ι] in
/-- Without new calls a thread takes no more steps than its call has left. -/
theorem stepsOf_add_remaining_le {steps : List (ι × Act T)} {s s' : State ι T N}
    (hacts : ∀ a ∈ steps, Continues a.2) (h : run step s steps = some s') (t : ι) :
    stepsOf t steps + remaining (s'.pc t) ≤ remaining (s.pc t) := by
  induction steps generalizing s with
  | nil =>
    obtain rfl := Option.some.inj h
    simp [stepsOf]
  | cons a steps ih =>
    obtain ⟨u, hu, hrun⟩ := run_cons_eq_some.mp h
    obtain ⟨hact, hacts⟩ := List.forall_mem_cons.mp hacts
    obtain ⟨⟨p, hpc, hlt⟩, -⟩ := remaining_step hact hu
    have hrest := ih hacts hrun
    rw [hpc] at hrest
    rw [stepsOf, List.countP_cons, ← stepsOf]
    by_cases ht : a.1 = t
    · subst ht
      rw [Function.update_self] at hrest
      simp only [decide_true, if_true]
      omega
    · rw [Function.update_of_ne (Ne.symm ht)] at hrest
      simpa [ht] using hrest

/-! ## Where no thread can go on -/

/-- No thread can go on with its call. -/
def Stuck (s : State ι T N) : Prop := ∀ t act, Continues act → s.step (t, act) = none

omit [Fintype ι] in
/-- A thread that cannot go on has no call, or waits for a permit that is not there. -/
theorem Stuck.cases {s : State ι T N} (h : Stuck s) (t : ι) :
    s.pc t = .idle ∨ (∃ item, s.pc t = .acquire item ∧ s.queue.semFull = 0) ∨
      (s.pc t = .acquireEmpty ∧ s.queue.semEmpty = 0) := by
  have hnext := h t .next trivial
  have hfail := h t .fail trivial
  cases hpc : s.pc t with
  | idle => exact .inl rfl
  | acquire item =>
    refine .inr (.inl ⟨item, rfl, ?_⟩)
    simpa [step, hpc, nextStep, acquireFull] using hnext
  | tryAcquire item => simp [step, hpc] at hfail
  | acquireEmpty =>
    refine .inr (.inr ⟨rfl, ?_⟩)
    simpa [step, hpc, nextStep, CircularQueue.acquireEmpty] using hnext
  | _ => simp [step, hpc, nextStep] at hnext

/-- What is 0 for a thread that cannot go on adds up to 0. -/
theorem Stuck.tally_eq_zero {s : State ι T N} (h : Stuck s) {w : Pc T → Nat} (hidle : w .idle = 0)
    (hacquire : ∀ item, w (.acquire item) = 0) (hacquireEmpty : w .acquireEmpty = 0) :
    tally w s.pc = 0 := by
  refine Finset.sum_eq_zero fun t _ => ?_
  rcases h.cases t with hpc | ⟨item, hpc, -⟩ | ⟨hpc, -⟩ <;> rw [hpc]
  · exact hidle
  · exact hacquire item
  · exact hacquireEmpty

/-- The threads that cannot go on wait all for a slot, or all for an item. -/
theorem Stuck.waits {s : State ι T N} (hstuck : Stuck s) (hacc : Accounts s) :
    ((∀ t, s.pc t = .idle ∨ ∃ item, s.pc t = .acquire item) ∧
        ((∃ t, s.pc t ≠ .idle) → s.items.length = N + 2 * s.returned.length)) ∨
      ((∀ t, s.pc t = .idle ∨ s.pc t = .acquireEmpty) ∧
        ((∃ t, s.pc t ≠ .idle) → s.items.length = s.returned.length)) := by
  obtain ⟨hfull, hempty, hpops⟩ := hacc
  rw [hstuck.tally_eq_zero (w := fullOwed) rfl (fun _ => rfl) rfl] at hfull
  rw [hstuck.tally_eq_zero (w := emptyOwed) rfl (fun _ => rfl) rfl] at hempty
  rw [hstuck.tally_eq_zero (w := popping) rfl (fun _ => rfl) rfl] at hpops
  have hN := Nat.pos_of_neZero N
  by_cases hsem : s.queue.semEmpty = 0
  · -- everything pushed has been popped, so there are permits to push
    refine .inr ⟨fun t => ?_, fun _ => by omega⟩
    rcases hstuck.cases t with hpc | ⟨item, hpc, hsem'⟩ | ⟨hpc, -⟩
    · exact .inl hpc
    · omega
    · exact .inr hpc
  · refine .inl ⟨fun t => ?_, ?_⟩
    · rcases hstuck.cases t with hpc | ⟨item, hpc, -⟩ | ⟨hpc, hsem'⟩
      · exact .inl hpc
      · exact .inr ⟨item, hpc⟩
      · exact absurd hsem' hsem
    · rintro ⟨t, ht⟩
      rcases hstuck.cases t with hpc | ⟨item, hpc, hsem'⟩ | ⟨hpc, hsem'⟩
      · exact absurd hpc ht
      · omega
      · exact absurd hsem' hsem

/-- **When calls block.** In a reachable state in which no thread can go on, the unfinished calls
are all pushes, and `N` plus twice as many items have been pushed as popped; or they are all pops,
and all items have been popped. A push and a pop never wait at the same time. -/
theorem blocked (steps : List (ι × Act T)) (s : State ι T N)
    (h : run step initial steps = some s) (hstuck : Stuck s) :
    ((∀ t, s.pc t = .idle ∨ ∃ item, s.pc t = .acquire item) ∧
        ((∃ t, s.pc t ≠ .idle) → s.items.length = N + 2 * s.returned.length)) ∨
      ((∀ t, s.pc t = .idle ∨ s.pc t = .acquireEmpty) ∧
        ((∃ t, s.pc t ≠ .idle) → s.items.length = s.returned.length)) :=
  hstuck.waits (accounts_of_run h)

/-- A pop of an empty queue. -/
theorem blocked_pop :
    ∃ s : State Unit Nat 1, run step initial [((), .pop)] = some s ∧
      ((∀ t, s.pc t = .idle ∨ ∃ item, s.pc t = .acquire item) ∧
          ((∃ t, s.pc t ≠ .idle) → s.items.length = 1 + 2 * s.returned.length) ∨
        (∀ t, s.pc t = .idle ∨ s.pc t = .acquireEmpty) ∧
          ((∃ t, s.pc t ≠ .idle) → s.items.length = s.returned.length)) := by
  refine ⟨_, rfl, blocked [((), .pop)] _ rfl fun t act hact => ?_⟩
  cases act with
  | fail | next => rfl
  | _ => exact hact.elim

/-! ## How far the calls get -/

/-- The calls of `try_push` that have been refused. -/
def refused (steps : List (ι × Act T)) : Nat :=
  steps.countP fun a => match a.2 with
    | .fail => true
    | _ => false

/-- Every started call that is not among the `f` refused ones waits in front of its increment, or
has made it. -/
structure Counted (f : Nat) (s : State ι T N) : Prop where
  pushes : s.items.length + tally beforeIncHead s.pc + f = s.pushesStarted
  pops : s.tailIncs + tally beforeIncTail s.pc = s.popsStarted

omit [DecidableEq ι] [NeZero N] in
theorem counted_initial : Counted 0 (initial : State ι T N) where
  pushes := by simp [initial, tally, beforeIncHead]
  pops := by simp [initial, tally, beforeIncTail]

omit [NeZero N] in
/-- A thread moves to `p`. -/
theorem Counted.move {f f' : Nat} {s s' : State ι T N} {t : ι} {p : Pc T} (h : Counted f s)
    (hpc : s'.pc = Function.update s.pc t p)
    (hpush : s'.items.length + beforeIncHead p + f' + s.pushesStarted =
      s.items.length + beforeIncHead (s.pc t) + f + s'.pushesStarted)
    (hpop : s'.tailIncs + beforeIncTail p + s.popsStarted =
      s.tailIncs + beforeIncTail (s.pc t) + s'.popsStarted) : Counted f' s' := by
  obtain ⟨h1, h2⟩ := h
  have hhead := tally_update beforeIncHead s.pc t p
  have htail := tally_update beforeIncTail s.pc t p
  refine ⟨?_, ?_⟩ <;> rw [hpc] <;> omega

/-- A step inside a call that is not a refusal. -/
theorem Counted.next {f : Nat} {s s' : State ι T N} {t : ι} (h : Counted f s)
    (hstep : s.step (t, .next) = some s') : Counted f s' := by
  cases hpc : s.pc t with
  | idle => simp [State.step, hpc, nextStep] at hstep
  | acquire item | tryAcquire item =>
    simp only [State.step, hpc, nextStep, Option.map_eq_some_iff] at hstep
    obtain ⟨q, -, rfl⟩ := hstep
    exact h.move rfl (by simp [hpc, beforeIncHead, goto]) (by simp [hpc, beforeIncTail, goto])
  | acquireEmpty =>
    simp only [State.step, hpc, nextStep, Option.map_eq_some_iff] at hstep
    obtain ⟨q, -, rfl⟩ := hstep
    exact h.move rfl (by simp [hpc, beforeIncHead, goto]) (by simp [hpc, beforeIncTail, goto])
  | incHead item | store item ticket k | releaseEmpty k | incTail | load ticket k =>
    simp only [State.step, hpc, nextStep, Option.some.injEq] at hstep
    subst hstep
    exact h.move rfl (by simp +arith [hpc, beforeIncHead, goto])
      (by simp +arith [hpc, beforeIncTail, goto])
  | finish k item stage =>
    rw [eq_finishStep hpc hstep]
    cases stage <;>
      exact h.move rfl (by simp [State.finishStep, hpc, beforeIncHead, goto])
        (by simp [State.finishStep, hpc, beforeIncTail, goto])

theorem Counted.step {f : Nat} {s s' : State ι T N} {a : ι × Act T} (h : Counted f s)
    (hstep : s.step a = some s') : Counted (f + refused [a]) s' := by
  obtain ⟨t, act⟩ := a
  cases act with
  | next => exact h.next hstep
  | push item | tryPush item | pop =>
    cases hpc : s.pc t with
    | idle =>
      simp only [State.step, hpc, Option.some.injEq] at hstep
      subst hstep
      exact h.move rfl (by simp +arith [refused, hpc, beforeIncHead, goto])
        (by simp +arith [hpc, beforeIncTail, goto])
    | _ => simp [State.step, hpc] at hstep
  | fail =>
    cases hpc : s.pc t with
    | tryAcquire item =>
      simp only [State.step, hpc, Option.some.injEq] at hstep
      subst hstep
      exact h.move rfl (by simp +arith [refused, hpc, beforeIncHead, goto])
        (by simp [hpc, beforeIncTail, goto])
    | _ => simp [State.step, hpc] at hstep

theorem counted_of_run {f : Nat} {s s' : State ι T N} {steps : List (ι × Act T)} (h : Counted f s)
    (hrun : run step s steps = some s') : Counted (f + refused steps) s' := by
  induction steps generalizing f s with
  | nil =>
    obtain rfl := Option.some.inj hrun
    exact h
  | cons a steps ih =>
    obtain ⟨u, hu, hrest⟩ := run_cons_eq_some.mp hrun
    have hcount : refused ([a] ++ steps) = refused [a] + refused steps := List.countP_append
    rw [List.singleton_append] at hcount
    rw [hcount, ← Nat.add_assoc]
    exact ih (h.step hu) hrest

omit [Fintype ι] in
/-- Steps that start no call leave the numbers of started calls. -/
theorem started_of_continues {s s' : State ι T N} {steps : List (ι × Act T)}
    (hacts : ∀ a ∈ steps, Continues a.2) (h : run step s steps = some s') :
    s'.pushesStarted = s.pushesStarted ∧ s'.popsStarted = s.popsStarted := by
  induction steps generalizing s with
  | nil =>
    obtain rfl := Option.some.inj h
    exact ⟨rfl, rfl⟩
  | cons a steps ih =>
    obtain ⟨u, hu, hrun⟩ := run_cons_eq_some.mp h
    obtain ⟨hact, hacts⟩ := List.forall_mem_cons.mp hacts
    obtain ⟨-, hpushes, hpops⟩ := remaining_step hact hu
    obtain ⟨hpushes', hpops'⟩ := ih hacts hrun
    exact ⟨hpushes'.trans hpushes, hpops'.trans hpops⟩

/-- Without new calls every state comes to a halt. -/
theorem exists_stuck (s : State ι T N) : ∃ steps s', (∀ a ∈ steps, Continues a.2) ∧
    run step s steps = some s' ∧ Stuck s' := by
  induction hn : tally remaining s.pc using Nat.strong_induction_on generalizing s with
  | _ n ih =>
    by_cases hstuck : Stuck s
    · exact ⟨[], s, fun a ha => absurd ha List.not_mem_nil, rfl, hstuck⟩
    · unfold Stuck at hstuck
      push Not at hstuck
      obtain ⟨t, act, hact, hne⟩ := hstuck
      obtain ⟨u, hu⟩ := Option.ne_none_iff_exists'.mp hne
      obtain ⟨⟨p, hpc, hlt⟩, -⟩ := remaining_step hact hu
      have htally := tally_update remaining s.pc t p
      obtain ⟨steps, s', hacts, hrun, hstuck'⟩ := ih _ (by rw [hpc]; omega) u rfl
      exact ⟨(t, act) :: steps, s', List.forall_mem_cons.mpr ⟨hact, hacts⟩,
        run_cons_eq_some.mpr ⟨u, hu, hrun⟩, hstuck'⟩

omit [DecidableEq ι] [NeZero N] in
/-- A thread with a weight. -/
theorem exists_of_tally_ne_zero {s : State ι T N} {w : Pc T → Nat} (hidle : w .idle = 0)
    (h : tally w s.pc ≠ 0) : ∃ t, s.pc t ≠ .idle := by
  obtain ⟨t, -, ht⟩ := Finset.exists_ne_zero_of_sum_ne_zero h
  exact ⟨t, fun hpc => ht (by rw [hpc, hidle])⟩

/-- Where no thread can go on, the numbers of started calls tell how far they have got. -/
theorem completed_of_stuck {steps : List (ι × Act T)} {s : State ι T N}
    (h : run step initial steps = some s) (hstuck : Stuck s) :
    s.items.length = min (s.pushesStarted - refused steps) (N + 2 * s.popsStarted) ∧
      s.returned.length = min s.popsStarted (s.pushesStarted - refused steps) := by
  obtain ⟨hfull, hempty, hpops⟩ := accounts_of_run h
  have hcounted := counted_of_run counted_initial h
  rw [Nat.zero_add] at hcounted
  obtain ⟨hpushes, htails⟩ := hcounted
  rw [hstuck.tally_eq_zero (w := fullOwed) rfl (fun _ => rfl) rfl] at hfull
  rw [hstuck.tally_eq_zero (w := emptyOwed) rfl (fun _ => rfl) rfl] at hempty
  rw [hstuck.tally_eq_zero (w := popping) rfl (fun _ => rfl) rfl] at hpops
  rcases hstuck.waits (accounts_of_run h) with ⟨hall, hwait⟩ | ⟨hall, hwait⟩
  · -- pushes wait, if any: no pop does
    have hnone : tally beforeIncTail s.pc = 0 := by
      refine Finset.sum_eq_zero fun t _ => ?_
      rcases hall t with hpc | ⟨item, hpc⟩ <;> rw [hpc] <;> rfl
    by_cases hpush : tally beforeIncHead s.pc = 0
    · omega
    · have hitems := hwait (exists_of_tally_ne_zero rfl hpush)
      omega
  · have hnone : tally beforeIncHead s.pc = 0 := by
      refine Finset.sum_eq_zero fun t _ => ?_
      rcases hall t with hpc | hpc <;> rw [hpc] <;> rfl
    by_cases hpop : tally beforeIncTail s.pc = 0
    · omega
    · have hitems := hwait (exists_of_tally_ne_zero rfl hpop)
      omega

/-- **The schedule does not matter.** From a reachable state, whichever threads go on, no thread
takes more than nine steps without a new call; the calls come to a halt; and wherever they do,
`min p (N + 2 n)` of the `p` pushes that were started and not refused and `min n p` of the `n` pops
have completed. -/
theorem schedule_independent (steps : List (ι × Act T)) (s : State ι T N)
    (h : run step initial steps = some s) :
    (∀ more s', (∀ a ∈ more, Continues a.2) → run step s more = some s' →
      ∀ t, stepsOf t more ≤ 9) ∧
    (∃ more s', (∀ a ∈ more, Continues a.2) ∧ run step s more = some s' ∧ Stuck s') ∧
    ∀ more s', (∀ a ∈ more, Continues a.2) → run step s more = some s' → Stuck s' →
      s'.items.length =
          min (s.pushesStarted - refused (steps ++ more)) (N + 2 * s.popsStarted) ∧
        s'.returned.length = min s.popsStarted (s.pushesStarted - refused (steps ++ more)) := by
  refine ⟨fun more s' hacts hmore t => ?_, exists_stuck s, fun more s' hacts hmore hstuck => ?_⟩
  · have hle := stepsOf_add_remaining_le hacts hmore t
    have hmax := remaining_le (s.pc t)
    omega
  · obtain ⟨hpushes, hpops⟩ := started_of_continues hacts hmore
    have hrun : run step initial (steps ++ more) = some s' := by
      rw [run_append, h, Option.bind_some, hmore]
    rw [← hpushes, ← hpops]
    exact completed_of_stuck hrun hstuck

/-- One slot: two pushes that have been started, and no pop. One of them completes. -/
theorem schedule_independent_two :
    ∃ s : State (Fin 2) Nat 1, run step initial [(0, .push 7), (1, .push 8)] = some s ∧
      ∀ more s', (∀ a ∈ more, Continues a.2) → run step s more = some s' → Stuck s' →
        s'.items.length = min (2 - refused ([(0, .push 7), (1, .push 8)] ++ more)) 1 := by
  refine ⟨_, rfl, fun more s' hacts hmore hstuck => ?_⟩
  exact ((schedule_independent (ι := Fin 2) (N := 1) [(0, .push 7), (1, .push 8)] _ rfl).2.2 more s'
    hacts hmore hstuck).1

end CircularQueue.State

end CppExamples.Queues
