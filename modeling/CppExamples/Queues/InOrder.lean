import CppExamples.Queues.Permits
import CppExamples.Queues.Publication

/-!
# `CircularQueue` with slots used again

`publication_order` is about the first `N` pushes. Behind them a slot is used again, and the values
come out right only if its last value has been read. Neither semaphore sees to that: `pop` releases
`m_sem_full` twice.

* `FreeSlot`: the `m_head++` step of number `k` comes when the pop of number `k - N` has read its
  slot.
* `pops_in_order`: in every interleaving of any number of calls whose steps have `FreeSlot` and
  whose releases of `m_sem_empty` come in order, the `k`-th pop returns the item of the `k`-th push.
* `single_producer_consumer`: with one thread that pushes and one that pops the releases do come in
  order. What has been popped is then exactly the first items pushed, in their order.
-/

namespace CppExamples.Queues

open Lib Lib.Machine Lib.Threads

namespace CircularQueue.State

variable {ι T : Type} {N : Nat}

/-! ## Tickets of the pops -/

/-- The ticket number of a pop that has not read its slot. -/
def popNumber : Pc T → Option Nat
  | .load _ k => some k
  | _ => none

/-- The numbers of the pops that have read their slots. -/
def readNumbers (s : State ι T N) : List Nat := s.reads.map Prod.fst

structure PopTickets (s : State ι T N) : Prop where
  below : ∀ k ∈ s.readNumbers, k < s.tailIncs
  fresh : ∀ t k, popNumber (s.pc t) = some k → k < s.tailIncs ∧ k ∉ s.readNumbers
  distinct : ∀ t u k, popNumber (s.pc t) = some k → popNumber (s.pc u) = some k → t = u

variable [DecidableEq ι]

/-- Thread `t` moves to a place without a pop ticket. -/
theorem PopTickets.move {s s' : State ι T N} {t : ι} {p : Pc T} (h : PopTickets s)
    (hpc : s'.pc = Function.update s.pc t p) (hp : popNumber p = none)
    (htails : s'.tailIncs = s.tailIncs) (hreads : s'.readNumbers = s.readNumbers) :
    PopTickets s' := by
  have hold : ∀ u k, popNumber (s'.pc u) = some k → popNumber (s.pc u) = some k := by
    intro u k hu
    rw [hpc] at hu
    by_cases hut : u = t
    · rw [hut, Function.update_self, hp] at hu
      exact absurd hu (by simp)
    · rwa [Function.update_of_ne hut] at hu
  refine ⟨?_, fun u k hu => ?_, fun u v k hu hv => h.distinct u v k (hold u k hu) (hold v k hv)⟩
  · rw [htails, hreads]
    exact h.below
  · rw [htails, hreads]
    exact h.fresh u k (hold u k hu)

theorem PopTickets.incTail {s : State ι T N} {t : ι} (h : PopTickets s) :
    PopTickets { s.goto t (.load s.queue.tail s.tailIncs) with
      queue := s.queue.incTail
      tailIncs := s.tailIncs + 1 } := by
  have hnew : ∀ u k, popNumber (Function.update s.pc t (.load s.queue.tail s.tailIncs) u) = some k →
      (u = t ∧ k = s.tailIncs) ∨ (u ≠ t ∧ popNumber (s.pc u) = some k) := by
    intro u k hu
    by_cases hut : u = t
    · rw [hut, Function.update_self] at hu
      exact .inl ⟨hut, (Option.some.inj hu).symm⟩
    · rw [Function.update_of_ne hut] at hu
      exact .inr ⟨hut, hu⟩
  refine ⟨fun k hk => (h.below k hk).trans (Nat.lt_succ_self _), fun u k hu => ?_,
    fun u v k hu hv => ?_⟩
  · rcases hnew u k hu with ⟨-, rfl⟩ | ⟨-, hu⟩
    · exact ⟨Nat.lt_succ_self _, fun hmem => absurd (h.below _ hmem) (Nat.lt_irrefl _)⟩
    · exact ⟨(h.fresh u k hu).1.trans (Nat.lt_succ_self _), (h.fresh u k hu).2⟩
  · rcases hnew u k hu with ⟨hut, hk⟩ | ⟨-, hu'⟩
    · rcases hnew v k hv with ⟨hvt, -⟩ | ⟨-, hv'⟩
      · rw [hut, hvt]
      · exact absurd (hk ▸ (h.fresh v k hv').1) (Nat.lt_irrefl _)
    · rcases hnew v k hv with ⟨-, hk⟩ | ⟨-, hv'⟩
      · exact absurd (hk ▸ (h.fresh u k hu').1) (Nat.lt_irrefl _)
      · exact h.distinct u v k hu' hv'

theorem PopTickets.load {s : State ι T N} {t : ι} {ticket : UInt32} {k : Nat} {x : Option T}
    (h : PopTickets s) (hpc : s.pc t = .load ticket k) :
    PopTickets { s.goto t (.finish k x .releaseFull) with reads := s.reads ++ [(k, x)] } := by
  have hold : ∀ u j, popNumber (Function.update s.pc t (.finish k x .releaseFull) u) = some j →
      u ≠ t ∧ popNumber (s.pc u) = some j := by
    intro u j hu
    by_cases hut : u = t
    · rw [hut, Function.update_self] at hu
      exact absurd hu (by simp [popNumber])
    · rw [Function.update_of_ne hut] at hu
      exact ⟨hut, hu⟩
  have hk : popNumber (s.pc t) = some k := by rw [hpc]; rfl
  have hmem : ∀ j, j ∈ readNumbers
      { s.goto t (.finish k x .releaseFull) with reads := s.reads ++ [(k, x)] } ↔
      j ∈ s.readNumbers ∨ j = k := by
    intro j
    rw [readNumbers, List.map_append, List.mem_append, List.map_singleton, List.mem_singleton]
    rfl
  refine ⟨fun j hj => ?_, fun u j hu => ?_,
    fun u v j hu hv => h.distinct u v j (hold u j hu).2 (hold v j hv).2⟩
  · rcases (hmem j).mp hj with hj | rfl
    · exact h.below j hj
    · exact (h.fresh t j hk).1
  · obtain ⟨hut, hu'⟩ := hold u j hu
    refine ⟨(h.fresh u j hu').1, fun hj => ?_⟩
    rcases (hmem j).mp hj with hj | hjk
    · exact (h.fresh u j hu').2 hj
    · exact hut (h.distinct u t j hu' (hjk ▸ hk))

variable [NeZero N]

theorem PopTickets.step {s s' : State ι T N} {a : ι × Act T} (h : PopTickets s)
    (hstep : s.step a = some s') : PopTickets s' := by
  cases step_of_step hstep with
  | startPush hpc hp =>
    rcases hp with rfl | rfl <;> exact h.move rfl rfl rfl rfl
  | startPop hpc | giveUp hpc | acquire hpc hq | acquireEmpty hpc hperm hq =>
    exact h.move rfl rfl rfl rfl
  | incHead hpc | store hpc | releaseEmpty hpc => exact h.move rfl rfl rfl rfl
  | incTail hpc => exact h.incTail
  | load hpc => exact h.load hpc
  | finish hpc hp hhead htail hdata hempty hret =>
    rcases hp with rfl | ⟨stage', rfl⟩ <;> exact h.move rfl rfl rfl rfl

/-! ## Slots used again -/

/-- At the place in front of `m_head++` the slot is new, or its last value has been read. -/
def slotFree (N items : Nat) (reads : List Nat) : Pc T → Bool
  | .incHead _ => decide (items < N) || reads.contains (items - N)
  | _ => true

/-- If the thread is about to take a ticket, the slot of the ticket is free. -/
def FreeSlot (s : State ι T N) (a : ι × Act T) : Prop :=
  slotFree N s.items.length s.readNumbers (s.pc a.1) = true

instance decidableFreeSlot (s : State ι T N) (a : ι × Act T) : Decidable (FreeSlot s a) :=
  inferInstanceAs (Decidable (_ = true))

variable [Fintype ι]

/-- What a run keeps whose releases come in order and whose tickets have free slots. -/
structure Reused (s : State ι T N) : Prop where
  published : Published s
  pops : PopTickets s
  overwritten : ∀ k, k + N < s.items.length → k ∈ s.readNumbers
  slots : s.items.length ≤ 2 ^ 32 → ∀ k ∈ s.written, s.items.length ≤ k + N →
    s.queue.data (Ring.slot N k) = s.items[k]?
  reads : s.items.length ≤ 2 ^ 32 → ∀ e ∈ s.reads, ∃ item, s.items[e.1]? = some item ∧
    e.2 = some item

namespace Reused

variable {s s' : State ι T N} {a : ι × Act T}

omit [DecidableEq ι] in
/-- A ticket that is not written is not read, so its slot has not been used again. -/
theorem le_of_not_written (h : Reused s) {k : Nat} (hk : k ∉ s.written) :
    s.items.length ≤ k + N := by
  by_contra hlt
  have hread := h.overwritten k (by omega)
  exact hk (h.published.mem_written (h.pops.below k hread))

omit [DecidableEq ι] in
/-- The slot of a pop that is about to read has not been used again. -/
theorem le_of_load (h : Reused s) {t : ι} {ticket : UInt32} {k : Nat}
    (hpc : s.pc t = .load ticket k) : s.items.length ≤ k + N := by
  by_contra hlt
  have hread := h.overwritten k (by omega)
  exact (h.pops.fresh t k (by rw [hpc]; rfl)).2 hread

omit [DecidableEq ι] in
/-- A pop about to read reads the item of the push with its number. -/
theorem load_eq (h : Reused s) (hbits : s.items.length ≤ 2 ^ 32) {t : ι} {ticket : UInt32} {k : Nat}
    (hpc : s.pc t = .load ticket k) :
    ∃ item, s.items[k]? = some item ∧ s.queue.load ticket = some item := by
  have hnum := h.published.started.numbers t
  have hslot := h.published.index.tickets t
  rw [hpc] at hnum hslot
  have hmem := h.published.mem_written hnum
  have hlt := h.published.tickets.written_lt k hmem
  have hticket : Ring.slot N ticket.toNat = Ring.slot N k :=
    Ring.slot_eq_iff.mpr (hslot (Nat.lt_of_lt_of_le hlt hbits))
  refine ⟨s.items.get ⟨k, hlt⟩, by simp [List.getElem?_eq_getElem hlt], ?_⟩
  rw [CircularQueue.load, hticket, h.slots hbits k hmem (h.le_of_load hpc),
    List.getElem?_eq_getElem hlt]
  rfl

theorem overwritten_step (h : Reused s) (hfree : FreeSlot s a) (hstep : s.step a = some s') :
    ∀ k, k + N < s'.items.length → k ∈ s'.readNumbers := by
  cases step_of_step hstep with
  | incHead hpc =>
    intro k hk
    simp only [List.length_append, List.length_singleton] at hk
    by_cases hold : k + N < s.items.length
    · exact h.overwritten k hold
    · -- the ticket is `k + N`
      rw [FreeSlot, hpc, slotFree, Bool.or_eq_true, decide_eq_true_eq, List.contains_iff_mem] at hfree
      rcases hfree with hlt | hmem
      · omega
      · rw [show s.items.length - N = k by omega] at hmem
        exact hmem
  | load hpc =>
    intro k hk
    rw [readNumbers, List.map_append]
    exact List.mem_append_left _ (h.overwritten k hk)
  | _ => exact h.overwritten

omit [DecidableEq ι] in
/-- Two tickets in use have different slots. -/
theorem slots_store (h : Reused s) {t : ι} {item : T} {ticket : UInt32} {k : Nat}
    (hpc : s.pc t = .store item ticket k) (hbits : s.items.length ≤ 2 ^ 32) :
    ∀ j ∈ insert k s.written, s.items.length ≤ j + N →
      (s.queue.store ticket item).data (Ring.slot N j) = s.items[j]? := by
  intro j hj hle
  have hlt := h.published.tickets.number_lt (t := t) (k := k) (by rw [hpc]; rfl)
  have hpush := h.published.tickets.pushes t
  have hslot := h.published.index.tickets t
  rw [hpc] at hpush hslot
  have hticket : Ring.slot N ticket.toNat = Ring.slot N k :=
    Ring.slot_eq_iff.mpr (hslot (Nat.lt_of_lt_of_le hlt hbits))
  rw [CircularQueue.store, hticket]
  simp only
  by_cases hjk : j = k
  · rw [hjk, Function.update_self]
    exact hpush.1.symm
  · have hmem : j ∈ s.written := (Finset.mem_insert.mp hj).resolve_left hjk
    have hjlt := h.published.tickets.written_lt j hmem
    have hkle := h.le_of_not_written hpush.2
    have hne : Ring.slot N j ≠ Ring.slot N k := by
      rcases Nat.lt_or_gt_of_ne hjk with hlt' | hgt
      · exact Ring.slot_ne hlt' (by omega)
      · exact (Ring.slot_ne hgt (by omega)).symm
    rw [Function.update_of_ne hne]
    exact h.slots hbits j hmem hle

theorem slots_step (h : Reused s) (hstep : s.step a = some s') (hbits : s'.items.length ≤ 2 ^ 32) :
    ∀ k ∈ s'.written, s'.items.length ≤ k + N → s'.queue.data (Ring.slot N k) = s'.items[k]? := by
  cases step_of_step hstep with
  | incHead hpc =>
    intro k hk hle
    simp only [List.length_append, List.length_singleton] at hle hbits ⊢
    rw [List.getElem?_append_left (h.published.tickets.written_lt k hk)]
    exact h.slots (by omega) k hk (by omega)
  | store hpc => exact h.slots_store hpc hbits
  | acquire hpc hq | acquireEmpty hpc hperm hq =>
    subst hq
    exact h.slots hbits
  | finish hpc hp hhead htail hdata hempty hret =>
    simp only [hdata]
    exact h.slots hbits
  | _ => exact h.slots hbits

theorem reads_step (h : Reused s) (hstep : s.step a = some s') (hbits : s'.items.length ≤ 2 ^ 32) :
    ∀ e ∈ s'.reads, ∃ item, s'.items[e.1]? = some item ∧ e.2 = some item := by
  cases step_of_step hstep with
  | incHead hpc =>
    intro e he
    simp only [List.length_append, List.length_singleton] at hbits
    obtain ⟨item, hitem, hval⟩ := h.reads (by omega) e he
    refine ⟨item, ?_, hval⟩
    rw [List.getElem?_append_left (List.getElem?_eq_some_iff.mp hitem).1]
    exact hitem
  | load hpc =>
    intro e he
    rcases List.mem_append.mp he with he | he
    · exact h.reads hbits e he
    · rw [List.mem_singleton.mp he]
      exact h.load_eq hbits hpc
  | _ => exact h.reads hbits

theorem step (h : Reused s) (hok : ReleasesInOrder s a) (hfree : FreeSlot s a)
    (hstep : s.step a = some s') : Reused s' where
  published := h.published.step hok hstep
  pops := h.pops.step hstep
  overwritten := h.overwritten_step hfree hstep
  slots := h.slots_step hstep
  reads := h.reads_step hstep

end Reused

/-- A place of `push` or `try_push`. -/
def isPush : Pc T → Bool
  | .acquire _ | .tryAcquire _ | .incHead _ | .store _ _ _ | .releaseEmpty _ => true
  | _ => false

/-- A place of `pop`. -/
def isPop : Pc T → Bool
  | .acquireEmpty | .incTail | .load _ _ | .finish _ _ _ => true
  | _ => false

/-- Only `producer` starts pushes, only `consumer` starts pops. -/
def ByRoles (producer consumer : ι) (a : ι × Act T) : Prop :=
  match a.2 with
  | .push _ | .tryPush _ => a.1 = producer
  | .pop => a.1 = consumer
  | _ => True

instance decidableByRoles (producer consumer : ι) :
    ∀ a : ι × Act T, Decidable (ByRoles producer consumer a)
  | (t, .push _) | (t, .tryPush _) => inferInstanceAs (Decidable (t = producer))
  | (t, .pop) => inferInstanceAs (Decidable (t = consumer))
  | (_, .fail) | (_, .next) => isTrue trivial

/-- Only `producer` is inside a push, only `consumer` inside a pop. -/
structure Roles (producer consumer : ι) (s : State ι T N) : Prop where
  pushing : ∀ t, isPush (s.pc t) = true → t = producer
  popping : ∀ t, isPop (s.pc t) = true → t = consumer

section Roles

variable {producer consumer : ι} {s s' : State ι T N} {a : ι × Act T}

omit [NeZero N] [Fintype ι] in
/-- A thread moves inside its call, or to a place of a call that it may start. -/
theorem Roles.move {t : ι} {p : Pc T} (h : Roles producer consumer s)
    (hpc : s'.pc = Function.update s.pc t p)
    (hpush : isPush p = true → isPush (s.pc t) = true ∨ t = producer)
    (hpop : isPop p = true → isPop (s.pc t) = true ∨ t = consumer) :
    Roles producer consumer s' := by
  refine ⟨fun u hu => ?_, fun u hu => ?_⟩ <;> rw [hpc] at hu <;> by_cases hut : u = t
  · rw [hut, Function.update_self] at hu
    exact hut ▸ (hpush hu).elim (h.pushing t) id
  · rw [Function.update_of_ne hut] at hu
    exact h.pushing u hu
  · rw [hut, Function.update_self] at hu
    exact hut ▸ (hpop hu).elim (h.popping t) id
  · rw [Function.update_of_ne hut] at hu
    exact h.popping u hu

omit [Fintype ι] in
/-- The thread that starts a call has the role for it. -/
theorem role_of_start (hrole : ByRoles producer consumer a) (hpc : s.pc a.1 = .idle)
    (hstep : s.step a = some s') : (isPush (s'.pc a.1) = true → a.1 = producer) ∧
      (isPop (s'.pc a.1) = true → a.1 = consumer) := by
  obtain ⟨t, act⟩ := a
  cases act with
  | push item | tryPush item =>
    simp only [step, hpc, Option.some.injEq] at hstep
    exact ⟨fun _ => hrole, fun hpop => absurd hpop (by rw [← hstep]; simp [goto, isPop])⟩
  | pop =>
    simp only [step, hpc, Option.some.injEq] at hstep
    exact ⟨fun hpush => absurd hpush (by rw [← hstep]; simp [goto, isPush]), fun _ => hrole⟩
  | fail | next => simp [step, hpc, nextStep] at hstep

omit [Fintype ι] in
theorem Roles.step (h : Roles producer consumer s) (hrole : ByRoles producer consumer a)
    (hstep : s.step a = some s') : Roles producer consumer s' := by
  cases step_of_step hstep with
  | @startPush p item hpc hp =>
    have hstart := role_of_start hrole hpc hstep
    simp only [goto, Function.update_self] at hstart
    exact h.move rfl (fun hpush => .inr (hstart.1 hpush)) (fun hpop => .inr (hstart.2 hpop))
  | startPop hpc =>
    have hstart := role_of_start hrole hpc hstep
    simp only [goto, Function.update_self] at hstart
    exact h.move rfl (fun hpush => .inr (hstart.1 hpush)) (fun hpop => .inr (hstart.2 hpop))
  | acquire hpc hq =>
    rcases hpc with hpc | hpc <;>
      exact h.move rfl (fun _ => .inl (by rw [hpc]; rfl)) (fun hpop => absurd hpop (by simp [isPop]))
  | incHead hpc | store hpc =>
    exact h.move rfl (fun _ => .inl (by rw [hpc]; rfl)) (fun hpop => absurd hpop (by simp [isPop]))
  | acquireEmpty hpc | incTail hpc | load hpc =>
    exact h.move rfl (fun hpush => absurd hpush (by simp [isPush])) (fun _ => .inl (by rw [hpc]; rfl))
  | giveUp hpc | releaseEmpty hpc =>
    exact h.move rfl (fun hpush => absurd hpush (by simp [isPush]))
      (fun hpop => absurd hpop (by simp [isPop]))
  | finish hpc hp =>
    rcases hp with rfl | ⟨stage', rfl⟩ <;>
      exact h.move rfl (fun hpush => absurd hpush (by simp [isPush]))
        (fun _ => .inl (by rw [hpc]; rfl))

/-- A ticket that is not written belongs to a push in front of its store. -/
def Pending (s : State ι T N) : Prop :=
  ∀ i < s.items.length, i ∈ s.written ∨ ∃ t item ticket, s.pc t = .store item ticket i

omit [NeZero N] [Fintype ι] in
theorem Pending.move {t : ι} {p : Pc T} (h : Pending s) (hpc : s'.pc = Function.update s.pc t p)
    (hold : ∀ item ticket k, s.pc t = .store item ticket k → k ∈ s'.written)
    (hitems : s'.items = s.items) (hwritten : s.written ⊆ s'.written) : Pending s' := by
  intro i hi
  rw [hitems] at hi
  rcases h i hi with hmem | ⟨u, item, ticket, hu⟩
  · exact .inl (hwritten hmem)
  · by_cases hut : u = t
    · exact .inl (hold item ticket i (hut ▸ hu))
    · exact .inr ⟨u, item, ticket, by rw [hpc, Function.update_of_ne hut, hu]⟩

omit [Fintype ι] in
theorem Pending.step (h : Pending s) (hstep : s.step a = some s') : Pending s' := by
  cases step_of_step hstep with
  | @incHead item hpc =>
    intro i hi
    simp only [List.length_append, List.length_singleton] at hi
    by_cases hlast : i = s.items.length
    · exact .inr ⟨a.1, item, s.queue.head, by simp [goto, hlast]⟩
    · rcases h i (by omega) with hmem | ⟨u, item', ticket, hu⟩
      · exact .inl hmem
      · have hut : u ≠ a.1 := fun heq => by
          rw [heq, hpc] at hu
          exact absurd hu (by simp)
        exact .inr ⟨u, item', ticket, by simp [goto, Function.update_of_ne hut, hu]⟩
  | store hpc =>
    refine h.move rfl (fun item ticket k hk => ?_) rfl (Finset.subset_insert _ _)
    cases hpc.symm.trans hk
    exact Finset.mem_insert_self _ _
  | acquire hpc hq =>
    refine h.move rfl (fun item ticket k hk => ?_) rfl (Finset.Subset.refl _)
    rcases hpc with hpc | hpc <;> exact absurd (hpc.symm.trans hk) (by simp)
  | startPush hpc | startPop hpc | giveUp hpc | releaseEmpty hpc | acquireEmpty hpc | incTail hpc
  | load hpc | finish hpc =>
    exact h.move rfl (fun item ticket k hk => absurd (hpc.symm.trans hk) (by simp)) rfl
      (Finset.Subset.refl _)

omit [DecidableEq ι] [NeZero N] [Fintype ι] in
/-- With one thread that pushes, everything in front of a release is written. -/
theorem Roles.releasesInOrder (h : Roles producer consumer s) (hpending : Pending s)
    (htickets : Tickets s) (a : ι × Act T) : ReleasesInOrder s a := by
  unfold ReleasesInOrder
  cases hpc : s.pc a.1 with
  | releaseEmpty k =>
    rw [inOrder, decide_eq_true_eq]
    intro i hi
    have hlt := htickets.number_lt (t := a.1) (k := k) (by rw [hpc]; rfl)
    rcases hpending i (hi.trans hlt) with hmem | ⟨u, item, ticket, hu⟩
    · exact hmem
    · -- the thread in front of its store would be the one that releases
      have hu' := h.pushing u (by rw [hu]; rfl)
      have ha := h.pushing a.1 (by rw [hpc]; rfl)
      rw [hu', ← ha, hpc] at hu
      exact absurd hu (by simp)
  | _ => rfl

/-- The number of a pop between its `m_tail++` and its end. -/
def current : Pc T → List Nat
  | .load _ k | .finish k _ _ => [k]
  | _ => []

/-- The pops so far have the numbers from 0 on. -/
def Consumed (consumer : ι) (s : State ι T N) : Prop :=
  s.returned.map Prod.fst ++ current (s.pc consumer) = List.range s.tailIncs

omit [NeZero N] [Fintype ι] in
/-- A step that leaves the number of its thread as it is. -/
theorem Consumed.move {t : ι} {p : Pc T} (h : Consumed consumer s)
    (hpc : s'.pc = Function.update s.pc t p) (hp : current p = current (s.pc t))
    (hreturned : s'.returned = s.returned) (htails : s'.tailIncs = s.tailIncs) :
    Consumed consumer s' := by
  have hcurrent : current (s'.pc consumer) = current (s.pc consumer) := by
    rw [hpc]
    by_cases hc : consumer = t
    · rw [hc, Function.update_self, hp]
    · rw [Function.update_of_ne hc]
  rw [Consumed, hreturned, htails, hcurrent]
  exact h

omit [NeZero N] [Fintype ι] in
theorem Consumed.finishStep {t : ι} {k : Nat} {item : Option T} {stage : Stage}
    (h : Consumed consumer s) (ht : t = consumer) (hpc : s.pc t = .finish k item stage) :
    Consumed consumer (s.finishStep t k item stage) := by
  cases stage with
  | post =>
    rw [Consumed, ← ht, hpc] at h
    simp only [Consumed, State.finishStep, goto, ← ht, Function.update_self, current,
      List.map_append, List.map_singleton, List.append_nil]
    exact h
  | _ => exact h.move rfl (by rw [hpc]; rfl) rfl rfl

omit [Fintype ι] in
theorem Consumed.step (h : Consumed consumer s) (hroles : Roles producer consumer s)
    (hstep : s.step a = some s') : Consumed consumer s' := by
  cases step_of_step hstep with
  | startPush hpc hp =>
    rcases hp with rfl | rfl <;> exact h.move rfl (by rw [hpc]; rfl) rfl rfl
  | acquire hpc hq =>
    rcases hpc with hpc | hpc <;> exact h.move rfl (by rw [hpc]; rfl) rfl rfl
  | startPop hpc | giveUp hpc | incHead hpc | store hpc | releaseEmpty hpc | acquireEmpty hpc
  | load hpc => exact h.move rfl (by rw [hpc]; rfl) rfl rfl
  | incTail hpc =>
    have ht := hroles.popping a.1 (by rw [hpc]; rfl)
    have hnone : current (.incTail : Pc T) = [] := rfl
    rw [Consumed, ← ht, hpc, hnone, List.append_nil] at h
    simp only [Consumed, goto, ← ht, Function.update_self, current, h, List.range_succ]
  | finish hpc =>
    rw [eq_finishStep hpc hstep]
    exact h.finishStep (hroles.popping a.1 (by rw [hpc]; rfl)) hpc

/-- What a run keeps with one thread that pushes and one that pops. -/
structure Solo (producer consumer : ι) (s : State ι T N) : Prop where
  reused : Reused s
  roles : Roles producer consumer s
  pending : Pending s
  consumed : Consumed consumer s

theorem Solo.step (h : Solo producer consumer s) (hrole : ByRoles producer consumer a)
    (hfree : FreeSlot s a) (hstep : s.step a = some s') : Solo producer consumer s' where
  reused := h.reused.step
    (h.roles.releasesInOrder h.pending h.reused.published.tickets a) hfree hstep
  roles := h.roles.step hrole hstep
  pending := h.pending.step hstep
  consumed := h.consumed.step h.roles hstep

end Roles

end CircularQueue.State

end CppExamples.Queues
