import CppExamples.Queues.Threads
import Mathlib.Data.Finset.Card

/-!
# When a pop of `CircularQueue` reads what its push has written

A push takes its ticket (`m_head++`) before it writes its slot, and `m_sem_empty` counts the pushes
that are done, not which ones. So a pop can get the ticket of a push that has not written yet
(`pop_reads_unwritten`).

Result: `publication_order`. In runs in which every `m_sem_empty.release()` comes when all pushes
with earlier tickets have written, and in which no slot is used twice, the `k`-th pop returns the
item of the `k`-th push. The argument: the `n` releases so far belong to `n` different tickets, so
one of them has a number `n - 1` or higher, and all tickets up to it are written; a pop past its
`m_tail++` has a number below `n`.
-/

namespace CppExamples.Queues

open Lib Lib.Machine Lib.Threads

namespace CircularQueue.State

variable {ι T : Type} {N : Nat}

/-! ## Tickets of the pushes -/

/-- The ticket number of a push that has one. -/
def pushNumber : Pc T → Option Nat
  | .store _ _ k => some k
  | .releaseEmpty k => some k
  | _ => none

/-- What a push knows about its ticket. -/
def PushOk (items : List T) (written released : Finset Nat) : Pc T → Prop
  | .store item _ k => items[k]? = some item ∧ k ∉ written
  | .releaseEmpty k => k ∈ written ∧ k ∉ released
  | _ => True

theorem pushOk_of_none {items : List T} {written released : Finset Nat} {p : Pc T}
    (h : pushNumber p = none) : PushOk items written released p := by
  cases p <;> trivial

structure Tickets (s : State ι T N) : Prop where
  written_lt : ∀ k ∈ s.written, k < s.items.length
  released_written : s.released ⊆ s.written
  pushes : ∀ t, PushOk s.items s.written s.released (s.pc t)
  distinct : ∀ t u k, pushNumber (s.pc t) = some k → pushNumber (s.pc u) = some k → t = u

theorem tickets_initial : Tickets (initial : State ι T N) where
  written_lt := fun _ h => absurd h (Finset.notMem_empty _)
  released_written := Finset.Subset.refl _
  pushes := fun _ => trivial
  distinct := fun _ _ _ h => absurd h (by simp [initial, pushNumber])

variable [DecidableEq ι]

/-- Only thread `t` moves, to a place whose ticket it had before or that no thread has. -/
theorem distinct_update {pc : ι → Pc T} {t : ι} {p : Pc T}
    (h : ∀ u v k, pushNumber (pc u) = some k → pushNumber (pc v) = some k → u = v)
    (hp : ∀ k, pushNumber p = some k →
      pushNumber (pc t) = some k ∨ ∀ u, pushNumber (pc u) ≠ some k) :
    ∀ u v k, pushNumber (Function.update pc t p u) = some k →
      pushNumber (Function.update pc t p v) = some k → u = v := by
  have key : ∀ u k, u ≠ t → pushNumber p = some k → pushNumber (pc u) ≠ some k := by
    intro u k hu hk hku
    rcases hp k hk with ht | hnone
    · exact hu (h u t k hku ht)
    · exact hnone u hku
  intro u v k hu hv
  by_cases hut : u = t
  · by_cases hvt : v = t
    · rw [hut, hvt]
    · rw [hut, Function.update_self] at hu
      rw [Function.update_of_ne hvt] at hv
      exact absurd hv (key v k hvt hu)
  · rw [Function.update_of_ne hut] at hu
    by_cases hvt : v = t
    · rw [hvt, Function.update_self] at hv
      exact absurd hu (key u k hut hv)
    · rw [Function.update_of_ne hvt] at hv
      exact h u v k hu hv

/-- Thread `t` moves to a place without a push ticket, and the tickets stay as they are. -/
theorem Tickets.move {s s' : State ι T N} {t : ι} {p : Pc T} (h : Tickets s)
    (hpc : s'.pc = Function.update s.pc t p) (hp : pushNumber p = none)
    (hitems : s'.items = s.items) (hwritten : s'.written = s.written)
    (hreleased : s'.released = s.released) : Tickets s' := by
  refine ⟨?_, ?_, ?_, ?_⟩
  · rw [hitems, hwritten]
    exact h.written_lt
  · rw [hreleased, hwritten]
    exact h.released_written
  · rw [hitems, hwritten, hreleased, hpc]
    exact forall_update h.pushes t (pushOk_of_none hp)
  · rw [hpc]
    exact distinct_update h.distinct fun k hk => absurd (hp.symm.trans hk) (by simp)

omit [DecidableEq ι] in
theorem Tickets.number_lt {s : State ι T N} (h : Tickets s) {t : ι} {k : Nat}
    (hk : pushNumber (s.pc t) = some k) : k < s.items.length := by
  have hpush := h.pushes t
  cases hpc : s.pc t with
  | store item ticket k' =>
    rw [hpc] at hpush hk
    cases Option.some.inj hk
    exact (List.getElem?_eq_some_iff.mp hpush.1).1
  | releaseEmpty k' =>
    rw [hpc] at hpush hk
    cases Option.some.inj hk
    exact h.written_lt k hpush.1
  | _ => exact absurd (hpc ▸ hk) (by simp [pushNumber])

theorem Tickets.incHead {s s' : State ι T N} {t : ι} {item : T} {ticket : UInt32}
    (h : Tickets s) (hpc : s'.pc = Function.update s.pc t (.store item ticket s.items.length))
    (hitems : s'.items = s.items ++ [item]) (hwritten : s'.written = s.written)
    (hreleased : s'.released = s.released) : Tickets s' := by
  have hnone : s.items.length ∉ s.written := fun hmem => absurd (h.written_lt _ hmem) (by omega)
  refine ⟨?_, ?_, ?_, ?_⟩
  · intro k hk
    rw [hwritten] at hk
    rw [hitems, List.length_append]
    exact Nat.lt_of_lt_of_le (h.written_lt k hk) (Nat.le_add_right _ _)
  · rw [hreleased, hwritten]
    exact h.released_written
  · rw [hitems, hwritten, hreleased, hpc]
    refine forall_update (fun u => ?_) t ⟨List.getElem?_concat_length, hnone⟩
    have hu := h.pushes u
    cases hpu : s.pc u with
    | store item' ticket' k =>
      rw [hpu] at hu
      refine ⟨?_, hu.2⟩
      rw [List.getElem?_append_left (List.getElem?_eq_some_iff.mp hu.1).1]
      exact hu.1
    | releaseEmpty k =>
      rw [hpu] at hu
      exact hu
    | _ => trivial
  · rw [hpc]
    refine distinct_update h.distinct fun k hk => .inr fun u hu => ?_
    cases Option.some.inj hk
    exact absurd (h.number_lt hu) (Nat.lt_irrefl _)

omit [DecidableEq ι] in
/-- The number of another push is not the one that is added. -/
theorem Tickets.notMem_insert {s : State ι T N} {t u : ι} {j k : Nat} {done : Finset Nat}
    (h : Tickets s) (hu : u ≠ t) (hj : pushNumber (s.pc u) = some j)
    (hk : pushNumber (s.pc t) = some k) (hdone : j ∉ done) : j ∉ insert k done := by
  intro hmem
  rcases Finset.mem_insert.mp hmem with rfl | hmem
  · exact hu (h.distinct u t j hj hk)
  · exact hdone hmem

theorem Tickets.store {s s' : State ι T N} {t : ι} {item : T} {ticket : UInt32} {k : Nat}
    (h : Tickets s) (ht : s.pc t = .store item ticket k)
    (hpc : s'.pc = Function.update s.pc t (.releaseEmpty k)) (hitems : s'.items = s.items)
    (hwritten : s'.written = insert k s.written) (hreleased : s'.released = s.released) :
    Tickets s' := by
  have hpush := h.pushes t
  have hnum : pushNumber (s.pc t) = some k := by rw [ht]; rfl
  rw [ht] at hpush
  refine ⟨?_, ?_, ?_, ?_⟩
  · intro j hj
    rw [hwritten, Finset.mem_insert] at hj
    rw [hitems]
    rcases hj with rfl | hj
    · exact h.number_lt hnum
    · exact h.written_lt j hj
  · rw [hreleased, hwritten]
    exact h.released_written.trans (Finset.subset_insert _ _)
  · intro u
    rw [hpc, hitems, hwritten, hreleased]
    by_cases hu : u = t
    · rw [hu, Function.update_self]
      exact ⟨Finset.mem_insert_self _ _, fun hmem => hpush.2 (h.released_written hmem)⟩
    · rw [Function.update_of_ne hu]
      have hpu := h.pushes u
      cases hcu : s.pc u with
      | store item' ticket' j =>
        rw [hcu] at hpu
        exact ⟨hpu.1, h.notMem_insert hu (by rw [hcu]; rfl) hnum hpu.2⟩
      | releaseEmpty j =>
        rw [hcu] at hpu
        exact ⟨Finset.mem_insert_of_mem hpu.1, hpu.2⟩
      | _ => trivial
  · rw [hpc]
    refine distinct_update h.distinct fun j hj => .inl ?_
    cases Option.some.inj hj
    exact hnum

theorem Tickets.release {s s' : State ι T N} {t : ι} {k : Nat} (h : Tickets s)
    (ht : s.pc t = .releaseEmpty k) (hpc : s'.pc = Function.update s.pc t .idle)
    (hitems : s'.items = s.items) (hwritten : s'.written = s.written)
    (hreleased : s'.released = insert k s.released) : Tickets s' := by
  have hpush := h.pushes t
  have hnum : pushNumber (s.pc t) = some k := by rw [ht]; rfl
  rw [ht] at hpush
  refine ⟨?_, ?_, ?_, ?_⟩
  · rw [hitems, hwritten]
    exact h.written_lt
  · rw [hreleased, hwritten]
    exact Finset.insert_subset hpush.1 h.released_written
  · intro u
    rw [hpc, hitems, hwritten, hreleased]
    by_cases hu : u = t
    · rw [hu, Function.update_self]
      trivial
    · rw [Function.update_of_ne hu]
      have hpu := h.pushes u
      cases hcu : s.pc u with
      | store item' ticket' j =>
        rw [hcu] at hpu
        exact hpu
      | releaseEmpty j =>
        rw [hcu] at hpu
        exact ⟨hpu.1, h.notMem_insert hu (by rw [hcu]; rfl) hnum hpu.2⟩
      | _ => trivial
  · rw [hpc]
    exact distinct_update h.distinct fun j hj => absurd hj (by simp [pushNumber])

variable [NeZero N]

theorem Tickets.step {s s' : State ι T N} {a : ι × Act T} (h : Tickets s)
    (hstep : s.step a = some s') : Tickets s' := by
  cases step_of_step hstep with
  | startPush hpc hp =>
    rcases hp with rfl | rfl <;> exact h.move rfl rfl rfl rfl rfl
  | startPop hpc | giveUp hpc | load hpc | incTail hpc => exact h.move rfl rfl rfl rfl rfl
  | acquire hpc hq | acquireEmpty hpc hperm hq => exact h.move rfl rfl rfl rfl rfl
  | incHead hpc => exact h.incHead rfl rfl rfl rfl
  | store hpc => exact h.store hpc rfl rfl rfl rfl
  | releaseEmpty hpc => exact h.release hpc rfl rfl rfl rfl
  | finish hpc hp hhead htail hdata hempty hret =>
    rcases hp with rfl | ⟨stage', rfl⟩ <;> exact h.move rfl rfl rfl rfl rfl

/-! ## The permits of `m_sem_empty` -/

/-- A pop that has its permit and not yet its ticket. -/
def holdsPermit : Pc T → Nat
  | .incTail => 1
  | _ => 0

variable [Fintype ι]

/-- Every release is a permit, or the permit of a pop with or without its ticket. -/
def Permitted (s : State ι T N) : Prop :=
  s.queue.semEmpty + tally holdsPermit s.pc + s.tailIncs = s.released.card

omit [DecidableEq ι] [NeZero N] in
theorem permitted_initial : Permitted (initial : State ι T N) := by
  simp [Permitted, initial, fresh, tally, holdsPermit]

omit [NeZero N] in
theorem Permitted.move {s s' : State ι T N} {t : ι} {p : Pc T} (h : Permitted s)
    (hpc : s'.pc = Function.update s.pc t p)
    (hsum : s'.queue.semEmpty + holdsPermit p + s'.tailIncs + s.released.card =
      s.queue.semEmpty + holdsPermit (s.pc t) + s.tailIncs + s'.released.card) : Permitted s' := by
  have htally := tally_update holdsPermit s.pc t p
  unfold Permitted at h ⊢
  rw [hpc]
  omega

theorem Permitted.step {s s' : State ι T N} {a : ι × Act T} (h : Permitted s) (ht : Tickets s)
    (hstep : s.step a = some s') : Permitted s' := by
  cases step_of_step hstep with
  | startPush hpc hp =>
    rcases hp with rfl | rfl <;> exact h.move rfl (by simp [hpc, holdsPermit, goto])
  | startPop hpc | giveUp hpc | load hpc => exact h.move rfl (by simp [hpc, holdsPermit, goto])
  | acquire hpc hq =>
    subst hq
    rcases hpc with hpc | hpc <;> exact h.move rfl (by simp [hpc, holdsPermit, goto])
  | incHead hpc =>
    exact h.move rfl (by simp [hpc, holdsPermit, goto, CircularQueue.incHead])
  | store hpc => exact h.move rfl (by simp [hpc, holdsPermit, goto, CircularQueue.store])
  | releaseEmpty hpc =>
    have hpush := ht.pushes a.1
    rw [hpc] at hpush
    refine h.move rfl ?_
    simp only [hpc, holdsPermit, goto, CircularQueue.releaseEmpty,
      Finset.card_insert_of_notMem hpush.2]
    omega
  | acquireEmpty hpc hperm hq =>
    subst hq
    refine h.move rfl ?_
    simp only [hpc, holdsPermit, goto]
    omega
  | incTail hpc =>
    refine h.move rfl ?_
    simp only [hpc, holdsPermit, goto, CircularQueue.incTail]
    omega
  | finish hpc hp hhead htail hdata hempty hret =>
    rcases hp with rfl | ⟨stage', rfl⟩ <;>
      exact h.move rfl (by simp [hpc, holdsPermit, goto, hempty])

/-! ## Slots and reads -/

/-- No slot is used twice, and no ticket number needs more than 32 bits. -/
def Bounded (s : State ι T N) : Prop := s.items.length ≤ N ∧ s.items.length ≤ 2 ^ 32

/-- A written slot has the item of its ticket. -/
def Slots (s : State ι T N) : Prop :=
  Bounded s → ∀ k ∈ s.written, s.queue.data (Ring.slot N k) = s.items[k]?

omit [DecidableEq ι] [Fintype ι] in
theorem Slots.move {s s' : State ι T N} (h : Slots s) (ht : Tickets s)
    (hitems : s.items <+: s'.items) (hwritten : s'.written = s.written)
    (hdata : s'.queue.data = s.queue.data) : Slots s' := by
  intro hb k hk
  have hle := hitems.length_le
  rw [hwritten] at hk
  rw [hdata, h ⟨hle.trans hb.1, hle.trans hb.2⟩ k hk]
  obtain ⟨rest, hrest⟩ := hitems
  rw [← hrest, List.getElem?_append_left (ht.written_lt k hk)]

omit [DecidableEq ι] [Fintype ι] in
/-- The tickets in use are below `N`, so each has a slot of its own. -/
theorem Slots.store {s s' : State ι T N} {t : ι} {item : T} {ticket : UInt32} {k : Nat}
    (h : Slots s) (ht : Tickets s) (hi : Index s) (hpc : s.pc t = .store item ticket k)
    (hitems : s'.items = s.items) (hwritten : s'.written = insert k s.written)
    (hqueue : s'.queue = s.queue.store ticket item) : Slots s' := by
  intro hb j hj
  have hlt := ht.number_lt (t := t) (k := k) (by rw [hpc]; rfl)
  have hpush := ht.pushes t
  have hslot := hi.tickets t
  rw [hpc] at hpush hslot
  rw [Bounded, hitems] at hb
  have hticket : Ring.slot N ticket.toNat = Ring.slot N k :=
    Ring.slot_eq_iff.mpr (hslot (Nat.lt_of_lt_of_le hlt hb.2))
  rw [hqueue, hitems, CircularQueue.store, hticket]
  simp only
  by_cases hjk : j = k
  · rw [hjk, Function.update_self]
    exact hpush.1.symm
  · have hmem : j ∈ s.written := by
      rw [hwritten, Finset.mem_insert] at hj
      exact hj.resolve_left hjk
    have hjlt := ht.written_lt j hmem
    have hne : Ring.slot N j ≠ Ring.slot N k := by
      rw [Ring.slot_of_lt (by omega), Ring.slot_of_lt (by omega)]
      exact fun heq => hjk (Fin.mk.inj heq)
    rw [Function.update_of_ne hne]
    exact h hb j hmem

omit [Fintype ι] in
theorem Slots.step {s s' : State ι T N} {a : ι × Act T} (h : Slots s) (ht : Tickets s)
    (hi : Index s) (hstep : s.step a = some s') : Slots s' := by
  cases step_of_step hstep with
  | startPush hpc hp | startPop hpc | giveUp hpc | load hpc | incTail hpc | releaseEmpty hpc =>
    exact h.move ht (List.prefix_refl _) rfl rfl
  | acquire hpc hq | acquireEmpty hpc hperm hq =>
    subst hq
    exact h.move ht (List.prefix_refl _) rfl rfl
  | incHead hpc => exact h.move ht (List.prefix_append _ _) rfl rfl
  | store hpc => exact h.store ht hi hpc rfl rfl rfl
  | finish hpc hp hhead htail hdata hempty hret =>
    exact h.move ht (List.prefix_refl _) rfl hdata

/-- What a pop returns is what it has read. -/
structure Returns (s : State ι T N) : Prop where
  finishing : ∀ t k item stage, s.pc t = .finish k item stage → (k, item) ∈ s.reads
  returned : ∀ e ∈ s.returned, e ∈ s.reads

omit [NeZero N] [Fintype ι] in
theorem Returns.move {s s' : State ι T N} {t : ι} {p : Pc T} (h : Returns s)
    (hpc : s'.pc = Function.update s.pc t p) (hreads : s.reads ⊆ s'.reads)
    (hp : ∀ k item stage, p = .finish k item stage → (k, item) ∈ s'.reads)
    (hreturned : ∀ e ∈ s'.returned, e ∈ s'.reads) : Returns s' := by
  refine ⟨fun u k item stage hu => ?_, hreturned⟩
  rw [hpc] at hu
  by_cases hut : u = t
  · rw [hut, Function.update_self] at hu
    exact hp k item stage hu
  · rw [Function.update_of_ne hut] at hu
    exact hreads (h.finishing u k item stage hu)

omit [Fintype ι] in
theorem Returns.step {s s' : State ι T N} {a : ι × Act T} (h : Returns s)
    (hstep : s.step a = some s') : Returns s' := by
  cases step_of_step hstep with
  | startPush hpc hp =>
    refine h.move rfl (List.Subset.refl _) ?_ h.returned
    rcases hp with rfl | rfl <;> exact fun _ _ _ heq => absurd heq (by simp)
  | startPop hpc | giveUp hpc | incHead hpc | store hpc | releaseEmpty hpc | incTail hpc
  | acquire hpc hq | acquireEmpty hpc hperm hq =>
    exact h.move rfl (List.Subset.refl _) (fun _ _ _ heq => absurd heq (by simp)) h.returned
  | load hpc =>
    refine h.move rfl (List.subset_append_left _ _) ?_ fun e he =>
      List.mem_append_left _ (h.returned e he)
    rintro k item stage ⟨⟩
    exact List.mem_append_right _ List.mem_cons_self
  | finish hpc hp hhead htail hdata hempty hret =>
    have hread := h.finishing _ _ _ _ hpc
    refine h.move rfl (List.Subset.refl _) ?_ ?_
    · intro k item stage heq
      rcases hp with rfl | ⟨stage', rfl⟩
      · exact absurd heq (by simp)
      · cases heq
        exact hread
    · intro e he
      rcases hret with rfl | rfl
      · exact h.returned e he
      · rcases List.mem_append.mp he with he | he
        · exact h.returned e he
        · rw [List.mem_singleton.mp he]
          exact hread

/-! ## Releases in order -/

/-- At the place in front of `m_sem_empty.release()` all earlier tickets are written. -/
def inOrder (written : Finset Nat) : Pc T → Bool
  | .releaseEmpty k => decide (∀ i < k, i ∈ written)
  | _ => true

/-- If the thread is about to release `m_sem_empty`, all pushes with earlier tickets have written
their slots. -/
def ReleasesInOrder (s : State ι T N) (a : ι × Act T) : Prop :=
  inOrder s.written (s.pc a.1) = true

instance (s : State ι T N) (a : ι × Act T) : Decidable (ReleasesInOrder s a) :=
  inferInstanceAs (Decidable (_ = true))

/-- What a run keeps whose releases come in order. -/
structure Published (s : State ι T N) : Prop where
  index : Index s
  started : Started s
  tickets : Tickets s
  permits : Permitted s
  slots : Slots s
  returns : Returns s
  ordered : ∀ j ∈ s.released, ∀ i ≤ j, i ∈ s.written
  reads : Bounded s → ∀ e ∈ s.reads, ∃ item, s.items[e.1]? = some item ∧ e.2 = some item

omit [DecidableEq ι] in
theorem published_initial : Published (initial : State ι T N) where
  index := index_initial
  started := started_initial
  tickets := tickets_initial
  permits := permitted_initial
  slots := fun _ _ h => absurd h (Finset.notMem_empty _)
  returns := ⟨fun _ _ _ _ h => absurd h (by simp [initial]),
    fun _ h => absurd h List.not_mem_nil⟩
  ordered := fun _ h => absurd h (Finset.notMem_empty _)
  reads := fun _ _ h => absurd h List.not_mem_nil

omit [DecidableEq ι] in
/-- The slot of a pop's ticket is written: of the tickets released so far, at least one is as high
as the pop's. -/
theorem Published.mem_written {s : State ι T N} (h : Published s) {k : Nat}
    (hk : k < s.tailIncs) : k ∈ s.written := by
  have hcard := h.permits
  unfold Permitted at hcard
  have hexists : ∃ j ∈ s.released, k ≤ j := by
    by_contra hnone
    have hsub : s.released ⊆ Finset.range k := by
      intro j hj
      rw [Finset.mem_range]
      by_contra hle
      exact hnone ⟨j, hj, Nat.le_of_not_lt hle⟩
    have hle := Finset.card_le_card hsub
    rw [Finset.card_range] at hle
    omega
  obtain ⟨j, hj, hkj⟩ := hexists
  exact h.ordered j hj k hkj

omit [DecidableEq ι] in
/-- A pop about to read reads the item of the push with its number. -/
theorem Published.load_eq {s : State ι T N} (h : Published s) (hb : Bounded s) {t : ι}
    {ticket : UInt32} {k : Nat} (hpc : s.pc t = .load ticket k) :
    ∃ item, s.items[k]? = some item ∧ s.queue.load ticket = some item := by
  have hnum := h.started.numbers t
  have hslot := h.index.tickets t
  rw [hpc] at hnum hslot
  have hmem := h.mem_written hnum
  have hlt := h.tickets.written_lt k hmem
  have hticket : Ring.slot N ticket.toNat = Ring.slot N k :=
    Ring.slot_eq_iff.mpr (hslot (Nat.lt_of_lt_of_le hlt hb.2))
  refine ⟨s.items.get ⟨k, hlt⟩, by simp [List.getElem?_eq_getElem hlt], ?_⟩
  rw [CircularQueue.load, hticket, h.slots hb k hmem, List.getElem?_eq_getElem hlt]
  rfl

theorem Published.ordered_step {s s' : State ι T N} {a : ι × Act T} (h : Published s)
    (hok : ReleasesInOrder s a) (hstep : s.step a = some s') :
    ∀ j ∈ s'.released, ∀ i ≤ j, i ∈ s'.written := by
  cases step_of_step hstep with
  | store hpc => exact fun j hj i hi => Finset.mem_insert_of_mem (h.ordered j hj i hi)
  | releaseEmpty hpc =>
    intro j hj i hi
    rcases Finset.mem_insert.mp hj with rfl | hj
    · have hpush := h.tickets.pushes a.1
      rw [hpc] at hpush
      rw [ReleasesInOrder, hpc, inOrder, decide_eq_true_eq] at hok
      rcases Nat.lt_or_eq_of_le hi with hlt | rfl
      · exact hok i hlt
      · exact hpush.1
    · exact h.ordered j hj i hi
  | _ => exact h.ordered

omit [DecidableEq ι] [NeZero N] [Fintype ι] in
/-- The items of earlier tickets stay what they are. -/
theorem reads_mono {s s' : State ι T N} (hitems : s.items <+: s'.items)
    (h : Bounded s → ∀ e ∈ s.reads, ∃ item, s.items[e.1]? = some item ∧ e.2 = some item)
    (hb : Bounded s') : ∀ e ∈ s.reads, ∃ item, s'.items[e.1]? = some item ∧ e.2 = some item := by
  intro e he
  have hle := hitems.length_le
  obtain ⟨item, hitem, hval⟩ := h ⟨hle.trans hb.1, hle.trans hb.2⟩ e he
  obtain ⟨rest, hrest⟩ := hitems
  refine ⟨item, ?_, hval⟩
  rw [← hrest, List.getElem?_append_left (List.getElem?_eq_some_iff.mp hitem).1]
  exact hitem

theorem Published.reads_step {s s' : State ι T N} {a : ι × Act T} (h : Published s)
    (hstep : s.step a = some s') (hb : Bounded s') :
    ∀ e ∈ s'.reads, ∃ item, s'.items[e.1]? = some item ∧ e.2 = some item := by
  cases step_of_step hstep with
  | incHead hpc => exact reads_mono (s := s) (List.prefix_append _ _) h.reads hb
  | load hpc =>
    intro e he
    rcases List.mem_append.mp he with he | he
    · exact h.reads hb e he
    · rw [List.mem_singleton.mp he]
      exact h.load_eq hb hpc
  | _ => exact h.reads hb

theorem Published.step {s s' : State ι T N} {a : ι × Act T} (h : Published s)
    (hok : ReleasesInOrder s a) (hstep : s.step a = some s') : Published s' where
  index := h.index.step hstep
  started := h.started.step hstep
  tickets := h.tickets.step hstep
  permits := h.permits.step h.tickets hstep
  slots := h.slots.step h.tickets h.index hstep
  returns := h.returns.step hstep
  ordered := h.ordered_step hok hstep
  reads := h.reads_step hstep

/-- **Publication order.** In every interleaving with at most `N` items pushed, in which every
release of `m_sem_empty` comes when all earlier tickets have been written, the pop with the `k`-th
`m_tail++` reads and returns the item of the push with the `k`-th `m_head++`. -/
theorem publication_order (steps : List (ι × Act T)) (s : State ι T N)
    (h : run step initial steps = some s) (hitems : s.items.length ≤ N)
    (hbits : s.items.length ≤ 2 ^ 32)
    (hok : Meets step ReleasesInOrder (initial : State ι T N) steps) :
    (∀ k x, (k, x) ∈ s.reads → ∃ item, s.items[k]? = some item ∧ x = some item) ∧
      ∀ k x, (k, x) ∈ s.returned → ∃ item, s.items[k]? = some item ∧ x = some item := by
  have hpub := run_invariant_of_meets Published.step published_initial hok h
  have hreads := hpub.reads ⟨hitems, hbits⟩
  exact ⟨fun k x hmem => hreads (k, x) hmem,
    fun k x hmem => hreads (k, x) (hpub.returns.returned _ hmem)⟩

/-- One push and one pop: the only release finds no earlier ticket. -/
theorem publication_order_one :
    ∃ s : State (Fin 2) Nat 2, run step initial
        [(0, .push 10), (0, .next), (0, .next), (0, .next), (0, .next), (1, .pop), (1, .next),
          (1, .next), (1, .next)] = some s ∧ (0, some 10) ∈ s.reads ∧
      ∀ k x, (k, x) ∈ s.reads → ∃ item, s.items[k]? = some item ∧ x = some item := by
  refine ⟨_, rfl, by decide, ?_⟩
  exact (publication_order (ι := Fin 2) (N := 2) [(0, .push 10), (0, .next), (0, .next),
    (0, .next), (0, .next), (1, .pop), (1, .next), (1, .next), (1, .next)] _ rfl (by decide)
    (by decide) (by decide)).1

/-- Two slots and two pushes. Thread 0 has the first ticket and has not written; thread 1 writes
behind it and releases; thread 2 pops with the first ticket and reads an unwritten slot. -/
theorem pop_reads_unwritten :
    ∃ s : State (Fin 3) Nat 2, run step initial
        [(0, .push 10), (0, .next), (0, .next),
          (1, .push 20), (1, .next), (1, .next), (1, .next), (1, .next),
          (2, .pop), (2, .next), (2, .next), (2, .next)] = some s ∧
      s.pushesStarted ≤ 2 ∧ s.items[0]? = some 10 ∧ (0, none) ∈ s.reads :=
  ⟨_, rfl, by decide, rfl, by decide⟩

end CircularQueue.State

end CppExamples.Queues
