import CppExamples.Practice.AsyncStdin

/-!
# The end of `StandardInput` (`cjunk/practice/asyncStdin.cc:12-75`)

`~StandardInput` clears `m_running`. Then the members are destroyed, the last one first:
`m_condition`, `m_mutex`, and `m_future`, whose destructor waits for `inputCharTask`. So while it is
waited for, the reader no longer has a mutex to lock and a condition to notify. `Program` is `State`
with what is left of the members; a step that uses a member that has been destroyed is a `fault`.

* `fault_iff`: once `m_running` is cleared, the steps that are left can come in an order with a
  fault if and only if the reader is at its read or about to push. It is safe only at the test of
  `m_running`.
* `reads_of_end`: the program ends after exactly one more read if the reader is at its read when
  `m_running` is cleared, and after none otherwise. So it waits for one more byte, or for the end of
  the file.
-/

namespace CppExamples.Practice.StandardInput

open Lib.Machine

/-- What is left of the members. -/
inductive Members where
  | whole
  | noCondition
  | noMutex
  | gone
  deriving DecidableEq

structure Program where
  state : State
  members : Members := .whole
  /-- A member has been used that is no longer there. -/
  fault : Bool := false

/-- A step of one of the threads, or of the destructors of the members. -/
inductive Deed where
  | act (a : Act)
  | destroyCondition
  | destroyMutex
  /-- The destructor of `m_future`. -/
  | join

/-- The step uses a member that is no longer there: `push` locks and notifies, `hasChar` and
`popChar` lock. -/
def misses (m : Members) : Act → Bool
  | .push => m != .whole
  | .hasChar | .popChar => m == .noMutex || m == .gone
  | .test | .read _ | .destroy => false

/-- The deed, in a program without a fault. -/
def perform (p : Program) : Deed → Option Program
  | .act a => (step p.state a).map fun s =>
    if misses p.members a then { p with fault := true } else { p with state := s }
  | .destroyCondition =>
    if p.state.main = .done ∧ p.members = .whole then some { p with members := .noCondition } else none
  | .destroyMutex => if p.members = .noCondition then some { p with members := .noMutex } else none
  | .join =>
    if p.members = .noMutex ∧ p.state.reader = .stopped then some { p with members := .gone } else none

/-- One deed; behind a fault there is none. -/
def advance (p : Program) (d : Deed) : Option Program := if p.fault then none else perform p d

/-! ## The reader after `m_running` is cleared -/

/-- The reads that are still to come. -/
def Reader.readsLeft (r : Reader) : Nat := if r = .reading then 1 else 0

/-- The reads among some deeds. -/
def reads : List Deed → Nat
  | [] => 0
  | .act (.read _) :: deeds => reads deeds + 1
  | _ :: deeds => reads deeds

theorem reads_cons (d : Deed) (deeds : List Deed) : reads (d :: deeds) = reads [d] + reads deeds := by
  cases d with
  | act a => cases a <;> simp [reads, Nat.add_comm]
  | destroyCondition => simp [reads]
  | destroyMutex => simp [reads]
  | join => simp [reads]

section Steps

variable {s s' : State} {a : Act}

/-- What a step does to the reader. -/
theorem step_reader (h : step s a = some s') :
    (a = .test ∧ s.reader = .testing ∧
      s'.reader = if s.running then Reader.reading else Reader.stopped) ∨
    (∃ c c', a = .read c ∧ s.reader = .reading ∧ s'.reader = .received c') ∨
    (a = .push ∧ (∃ c, s.reader = .pushing c) ∧ s'.reader = .testing) ∨
    ((a = .hasChar ∨ a = .popChar ∨ a = .destroy) ∧ s'.reader = s.reader) := by
  cases a with
  | test =>
    simp only [step, Option.ite_none_right_eq_some, Option.some.injEq] at h
    obtain ⟨hreader, rfl⟩ := h
    exact .inl ⟨rfl, hreader, rfl⟩
  | read c =>
    simp only [step, Option.ite_none_right_eq_some, Option.some.injEq] at h
    obtain ⟨hreader, rfl⟩ := h
    exact .inr (.inl ⟨c, _, rfl, hreader, rfl⟩)
  | push =>
    simp only [step] at h
    split at h
    case h_1 c hreader =>
      cases h
      exact .inr (.inr (.inl ⟨rfl, ⟨c, hreader⟩, rfl⟩))
    case h_2 => cases h
  | hasChar =>
    simp only [step, Option.ite_none_right_eq_some, Option.some.injEq] at h
    obtain ⟨-, rfl⟩ := h
    exact .inr (.inr (.inr ⟨.inl rfl, rfl⟩))
  | popChar =>
    simp only [step] at h
    split at h
    case h_1 =>
      cases h
      exact .inr (.inr (.inr ⟨.inr (.inl rfl), rfl⟩))
    case h_2 => cases h
  | destroy =>
    simp only [step, Option.ite_none_right_eq_some, Option.some.injEq] at h
    obtain ⟨-, rfl⟩ := h
    exact .inr (.inr (.inr ⟨.inr (.inr rfl), rfl⟩))

/-- What a step does to `main`: its last step clears `m_running`. -/
theorem step_main (h : step s a = some s') :
    (s'.main = s.main ∧ s'.running = s.running) ∨ (s.main ≠ .done ∧ s'.main ≠ .done) ∨
      (s.main ≠ .done ∧ s'.main = .done ∧ s'.running = false) := by
  cases a with
  | test =>
    simp only [step, Option.ite_none_right_eq_some, Option.some.injEq] at h
    obtain ⟨-, rfl⟩ := h
    exact .inl ⟨rfl, rfl⟩
  | read c =>
    simp only [step, Option.ite_none_right_eq_some, Option.some.injEq] at h
    obtain ⟨-, rfl⟩ := h
    exact .inl ⟨rfl, rfl⟩
  | push =>
    simp only [step] at h
    split at h
    · cases h
      exact .inl ⟨rfl, rfl⟩
    · cases h
  | hasChar =>
    simp only [step, Option.ite_none_right_eq_some, Option.some.injEq] at h
    obtain ⟨hmain, rfl⟩ := h
    refine .inr (.inl ⟨by simp [hmain], ?_⟩)
    dsimp only
    split <;> simp
  | popChar =>
    simp only [step] at h
    split at h
    case h_1 c queue hmain hqueue =>
      cases h
      exact .inr (.inl ⟨by simp [hmain], by simp⟩)
    case h_2 => cases h
  | destroy =>
    simp only [step, Option.ite_none_right_eq_some, Option.some.injEq] at h
    obtain ⟨hmain, rfl⟩ := h
    exact .inr (.inr ⟨by simp [hmain], rfl, rfl⟩)

/-- `main` is done, and `m_running` cleared. -/
def State.Left (s : State) : Prop := s.main = .done ∧ s.running = false

theorem State.Left.step (hs : s.Left) (h : StandardInput.step s a = some s') : s'.Left := by
  rcases step_main h with ⟨hmain, hrunning⟩ | ⟨hmain, -⟩ | ⟨hmain, -⟩
  · exact ⟨hmain.trans hs.1, hrunning.trans hs.2⟩
  · exact absurd hs.1 hmain
  · exact absurd hs.1 hmain

/-- A step takes one read off, or none. -/
theorem State.Left.readsLeft (hs : s.Left) (h : StandardInput.step s a = some s') :
    reads [.act a] + s'.reader.readsLeft = s.reader.readsLeft := by
  rcases step_reader h with ⟨rfl, hreader, hreader'⟩ | ⟨c, c', rfl, hreader, hreader'⟩ |
    ⟨rfl, ⟨c, hreader⟩, hreader'⟩ | ⟨ha, hreader⟩
  · rw [hs.2] at hreader'
    simp [reads, hreader, hreader', Reader.readsLeft]
  · have hnot : Reader.received c' ≠ .reading := by
      rw [Reader.received]
      split <;> simp
    simp [reads, hreader, hreader', Reader.readsLeft, hnot]
  · simp [reads, hreader, hreader', Reader.readsLeft]
  · rw [hreader]
    rcases ha with rfl | rfl | rfl <;> simp [reads]

/-- Only the reader takes steps. -/
theorem State.Left.reader_acts (hs : s.Left) (h : StandardInput.step s a = some s') :
    a = .test ∨ (∃ c, a = .read c) ∨ a = .push := by
  cases a with
  | test => exact .inl rfl
  | read c => exact .inr (.inl ⟨c, rfl⟩)
  | push => exact .inr (.inr rfl)
  | hasChar => simp [StandardInput.step, hs.1] at h
  | popChar => simp [StandardInput.step, hs.1] at h
  | destroy => simp [StandardInput.step, hs.1] at h

/-- The reader will not push: it is at its test, or has stopped. -/
def Reader.Quiet (r : Reader) : Prop := r = .testing ∨ r = .stopped

theorem State.Left.quiet (hs : s.Left) (hquiet : s.reader.Quiet)
    (h : StandardInput.step s a = some s') : s'.reader.Quiet ∧ a ≠ .push := by
  have hnotReading : s.reader ≠ .reading := by
    rcases hquiet with hr | hr <;> simp [hr]
  have hnotPushing : ∀ c, s.reader ≠ .pushing c := by
    intro c
    rcases hquiet with hr | hr <;> simp [hr]
  rcases step_reader h with ⟨rfl, -, hreader'⟩ | ⟨c, c', -, hreader, -⟩ | ⟨-, ⟨c, hreader⟩, -⟩ |
    ⟨ha, hreader⟩
  · rw [hs.2] at hreader'
    exact ⟨.inr hreader', by simp⟩
  · exact absurd hreader hnotReading
  · exact absurd hreader (hnotPushing c)
  · refine ⟨hreader ▸ hquiet, ?_⟩
    rcases ha with rfl | rfl | rfl <;> simp

end Steps

/-! ## Runs of the program -/

variable {p q : Program} {d : Deed}

/-- What a deed can be, where there is no fault. -/
theorem advance_eq_some (h : advance p d = some q) : p.fault = false ∧
    ((∃ a s, d = .act a ∧ step p.state a = some s ∧
        q = if misses p.members a then { p with fault := true } else { p with state := s }) ∨
      (d = .destroyCondition ∧ p.state.main = .done ∧ p.members = .whole ∧
        q = { p with members := .noCondition }) ∨
      (d = .destroyMutex ∧ p.members = .noCondition ∧ q = { p with members := .noMutex }) ∨
      (d = .join ∧ p.members = .noMutex ∧ p.state.reader = .stopped ∧
        q = { p with members := .gone })) := by
  rw [advance] at h
  split at h
  · cases h
  · rename_i hfault
    refine ⟨by simpa using hfault, ?_⟩
    cases d with
    | act a =>
      simp only [perform, Option.map_eq_some_iff] at h
      obtain ⟨s, hs, rfl⟩ := h
      exact .inl ⟨a, s, rfl, hs, rfl⟩
    | destroyCondition =>
      simp only [perform, Option.ite_none_right_eq_some, Option.some.injEq] at h
      obtain ⟨⟨hmain, hmembers⟩, rfl⟩ := h
      exact .inr (.inl ⟨rfl, hmain, hmembers, rfl⟩)
    | destroyMutex =>
      simp only [perform, Option.ite_none_right_eq_some, Option.some.injEq] at h
      obtain ⟨hmembers, rfl⟩ := h
      exact .inr (.inr (.inl ⟨rfl, hmembers, rfl⟩))
    | join =>
      simp only [perform, Option.ite_none_right_eq_some, Option.some.injEq] at h
      obtain ⟨⟨hmembers, hreader⟩, rfl⟩ := h
      exact .inr (.inr (.inr ⟨rfl, hmembers, hreader, rfl⟩))

/-- What holds in every state: `main` is done only with `m_running` cleared, a fault needs a member
that is gone, and the future has been waited for only if the reader has stopped. -/
structure Sound (p : Program) : Prop where
  left : p.state.main = .done → p.state.running = false
  whole : p.members = .whole → p.fault = false
  gone : p.members = .gone → p.state.reader = .stopped

theorem Sound.advance (hp : Sound p) (h : advance p d = some q) : Sound q := by
  obtain ⟨hfault, hcases⟩ := advance_eq_some h
  rcases hcases with ⟨a, s, rfl, hs, rfl⟩ | ⟨rfl, -, -, rfl⟩ | ⟨rfl, -, rfl⟩ | ⟨rfl, -, hreader, rfl⟩
  · split
    · rename_i hmiss
      refine ⟨hp.left, fun hwhole => ?_, hp.gone⟩
      dsimp only at hwhole
      rw [hwhole] at hmiss
      cases a <;> simp [misses] at hmiss
    · refine ⟨fun hdone => ?_, hp.whole, fun hgone => ?_⟩
      · rcases step_main hs with ⟨hmain, hrunning⟩ | ⟨-, hnot⟩ | ⟨-, -, hrunning⟩
        · exact hrunning.trans (hp.left (hmain ▸ hdone))
        · exact absurd hdone hnot
        · exact hrunning
      · have hstopped := hp.gone hgone
        rcases step_reader hs with ⟨-, hr, -⟩ | ⟨c, c', -, hr, -⟩ | ⟨-, ⟨c, hr⟩, -⟩ | ⟨-, hr⟩
        · simp [hstopped] at hr
        · simp [hstopped] at hr
        · simp [hstopped] at hr
        · exact hr.trans hstopped
  · exact ⟨hp.left, fun hwhole => by simp at hwhole, fun hgone => by simp at hgone⟩
  · exact ⟨hp.left, fun hwhole => by simp at hwhole, fun hgone => by simp at hgone⟩
  · exact ⟨hp.left, fun hwhole => by simp at hwhole, fun _ => hreader⟩

theorem sound_of_run {typed : List UInt8} {deeds : List Deed}
    (h : run advance { state := { input := typed } } deeds = some p) : Sound p :=
  run_invariant Sound.advance ⟨fun hdone => by simp at hdone, fun _ => rfl, fun hgone => by simp at hgone⟩ h

/-! ## Faults -/

/-- Nothing can go wrong any more. -/
structure Safe (p : Program) : Prop where
  left : p.state.Left
  quiet : p.state.reader.Quiet
  fault : p.fault = false

theorem Safe.advance (hp : Safe p) (h : advance p d = some q) : Safe q := by
  obtain ⟨-, hcases⟩ := advance_eq_some h
  rcases hcases with ⟨a, s, rfl, hs, rfl⟩ | ⟨rfl, -, -, rfl⟩ | ⟨rfl, -, rfl⟩ | ⟨rfl, -, -, rfl⟩
  · obtain ⟨hquiet, hpush⟩ := hp.left.quiet hp.quiet hs
    have hmiss : misses p.members a = false := by
      rcases hp.left.reader_acts hs with rfl | ⟨c, rfl⟩ | rfl
      · rfl
      · rfl
      · exact absurd rfl hpush
    rw [hmiss, if_neg Bool.false_ne_true]
    exact ⟨hp.left.step hs, hquiet, hp.fault⟩
  · exact ⟨hp.left, hp.quiet, hp.fault⟩
  · exact ⟨hp.left, hp.quiet, hp.fault⟩
  · exact ⟨hp.left, hp.quiet, hp.fault⟩

/-- A deed takes one read off, or none. -/
theorem readsLeft_advance (hp : p.state.Left) (h : advance p d = some q) :
    q.state.Left ∧ (q.fault = false → reads [d] + q.state.reader.readsLeft = p.state.reader.readsLeft) := by
  obtain ⟨-, hcases⟩ := advance_eq_some h
  rcases hcases with ⟨a, s, rfl, hs, rfl⟩ | ⟨rfl, -, -, rfl⟩ | ⟨rfl, -, rfl⟩ | ⟨rfl, -, -, rfl⟩
  · split
    · refine ⟨hp, fun hfault => ?_⟩
      cases hfault
    · exact ⟨hp.step hs, fun _ => hp.readsLeft hs⟩
  · exact ⟨hp, fun _ => Nat.zero_add _⟩
  · exact ⟨hp, fun _ => Nat.zero_add _⟩
  · exact ⟨hp, fun _ => Nat.zero_add _⟩

theorem readsLeft_of_run {deeds : List Deed} (hp : p.state.Left)
    (h : run advance p deeds = some q) (hq : q.fault = false) :
    reads deeds + q.state.reader.readsLeft = p.state.reader.readsLeft := by
  induction deeds generalizing p with
  | nil =>
    rw [← Option.some.inj h]
    exact Nat.zero_add _
  | cons d deeds ih =>
    obtain ⟨u, hu, hrest⟩ := run_cons_eq_some.mp h
    obtain ⟨hleft, hreads⟩ := readsLeft_advance hp hu
    have hufault : u.fault = false := by
      cases deeds with
      | nil => exact Option.some.inj hrest ▸ hq
      | cons d' deeds =>
        obtain ⟨v, hv, -⟩ := run_cons_eq_some.mp hrest
        exact (advance_eq_some hv).1
    rw [reads_cons, Nat.add_assoc, ih hleft hrest, hreads hufault]

/-- **What the end waits for.** From the end of `~StandardInput` to the end of the program there is
exactly one read if the reader is at its read then, and none otherwise. -/
theorem reads_of_end (typed : List UInt8) (before : List Deed) (p : Program)
    (hrun : run advance { state := { input := typed } } before = some p)
    (hdone : p.state.main = .done) (after : List Deed) (q : Program)
    (hafter : run advance p after = some q) (hfault : q.fault = false) (hgone : q.members = .gone) :
    reads after = if p.state.reader = .reading then 1 else 0 := by
  have hsound := sound_of_run hrun
  have hend : Sound q := run_invariant Sound.advance hsound hafter
  have hreads := readsLeft_of_run ⟨hdone, hsound.left hdone⟩ hafter hfault
  have hnone : q.state.reader.readsLeft = 0 := by
    rw [hend.gone hgone]
    rfl
  rw [hnone, Nat.add_zero] at hreads
  exact hreads

/-- The end of the file, with `c` being `EOF`, lets the program end. -/
theorem reads_of_end_eof : ∃ p q,
    run advance { state := { input := [] } } [.act .test, .act .hasChar, .act .destroy] = some p ∧
    run advance p [.destroyCondition, .destroyMutex, .act (.read eof), .act .test, .join] = some q ∧
    q.members = .gone ∧
    reads [.destroyCondition, .destroyMutex, .act (.read eof), .act .test, .join] =
      if p.state.reader = .reading then 1 else 0 :=
  ⟨_, _, rfl, rfl, rfl, reads_of_end [] [.act .test, .act .hasChar, .act .destroy] _ rfl rfl
    [.destroyCondition, .destroyMutex, .act (.read eof), .act .test, .join] _ rfl rfl rfl⟩

end CppExamples.Practice.StandardInput
