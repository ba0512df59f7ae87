import Mathlib.Data.List.Basic
import Mathlib.Logic.Basic

/-!
# Runs of a step function

A machine is a step function `S → I → Option S`: `none` means that the step cannot be taken (a
blocked call) or has no meaning (undefined behaviour). A run takes a list of inputs.

* `run_invariant`: what every step preserves holds after every run.
* `exists_run`: a machine that is defined on its invariant has all runs.
* `run_invariant_of_meets`: the same where the steps of the run meet a condition.
* `always_of_always`: the same along runs all of whose states have some property.
* `run_congr_of_meets`: two machines that agree where a condition is met have the same runs there.
* `run_simulates`: a relation that follows every step of a specification follows its runs.
* `run_rel`: where both machines are defined in the same steps, they are in the same runs.

`logged` makes a machine out of a step function with replies, the log of calls and replies being
part of its state.
-/

namespace CppExamples.Lib.Machine

variable {S A I O : Type*} {step : S → I → Option S}

/-- The state after the inputs, taken from the left. -/
def run (step : S → I → Option S) : S → List I → Option S
  | s, [] => some s
  | s, i :: is => (step s i).bind fun s' => run step s' is

@[simp] theorem run_nil (s : S) : run step s [] = some s := rfl

theorem run_cons_eq_some {s s' : S} {i : I} {is : List I} :
    run step s (i :: is) = some s' ↔ ∃ u, step s i = some u ∧ run step u is = some s' := by
  rw [run, Option.bind_eq_some_iff]

theorem run_append {s : S} {is js : List I} :
    run step s (is ++ js) = (run step s is).bind fun u => run step u js := by
  induction is generalizing s with
  | nil => rfl
  | cons i is ih =>
    rw [List.cons_append, run, run, Option.bind_assoc]
    exact congrArg (step s i).bind (funext fun u => ih)

/-- **Invariant rule.** -/
theorem run_invariant {J : S → Prop} (hstep : ∀ {s i s'}, J s → step s i = some s' → J s')
    {s s' : S} {is : List I} (hs : J s) (h : run step s is = some s') : J s' := by
  induction is generalizing s with
  | nil => exact Option.some.inj h ▸ hs
  | cons i is ih =>
    obtain ⟨u, hu, hrun⟩ := run_cons_eq_some.mp h
    exact ih (hstep hs hu) hrun

/-- **Progress rule.** Where every input is defined and keeps the invariant, so is every run. -/
theorem exists_run {J : S → Prop} (hstep : ∀ s i, J s → ∃ s', step s i = some s' ∧ J s')
    {s : S} (hs : J s) (is : List I) : ∃ s', run step s is = some s' ∧ J s' := by
  induction is generalizing s with
  | nil => exact ⟨s, rfl, hs⟩
  | cons i is ih =>
    obtain ⟨u, hu, hinv⟩ := hstep s i hs
    obtain ⟨s', hs', hinv'⟩ := ih hinv
    exact ⟨s', run_cons_eq_some.mpr ⟨u, hu, hs'⟩, hinv'⟩

/-- Every step of the run meets `ok`, a condition on the state before it and its input. -/
def Meets (step : S → I → Option S) (ok : S → I → Prop) : S → List I → Prop
  | _, [] => True
  | s, i :: is => ok s i ∧ ∀ u, step s i = some u → Meets step ok u is

instance decidableMeets {ok : S → I → Prop} [∀ s i, Decidable (ok s i)] :
    ∀ s is, Decidable (Meets step ok s is)
  | _, [] => isTrue trivial
  | s, i :: is =>
    match h : step s i with
    | none => decidable_of_iff (ok s i) (by simp [Meets, h])
    | some u =>
      have : Decidable (Meets step ok u is) := decidableMeets u is
      decidable_of_iff (ok s i ∧ Meets step ok u is) (by simp [Meets, h])

theorem meets_append {ok : S → I → Prop} {s : S} {is js : List I} :
    Meets step ok s (is ++ js) ↔
      Meets step ok s is ∧ ∀ u, run step s is = some u → Meets step ok u js := by
  induction is generalizing s with
  | nil => simp [Meets]
  | cons i is ih =>
    simp only [List.cons_append, Meets, ih, run_cons_eq_some]
    constructor
    · rintro ⟨hi, hnext⟩
      refine ⟨⟨hi, fun u hu => (hnext u hu).1⟩, ?_⟩
      rintro v ⟨u, hu, hv⟩
      exact (hnext u hu).2 v hv
    · rintro ⟨⟨hi, his⟩, hjs⟩
      exact ⟨hi, fun u hu => ⟨his u hu, fun v hv => hjs v ⟨u, hu, hv⟩⟩⟩

/-- Inputs that are numbered: each one's condition, after the run of those before it. -/
theorem meets_map_range {ok : S → I → Prop} {s : S} {input : Nat → I} {n : Nat} :
    Meets step ok s ((List.range n).map input) ↔
      ∀ k < n, ∀ u, run step s ((List.range k).map input) = some u → ok u (input k) := by
  induction n with
  | zero => simp [Meets]
  | succ n ih =>
    rw [List.range_succ, List.map_append, meets_append, ih, List.map_singleton]
    constructor
    · rintro ⟨hbefore, hlast⟩ k hk u hu
      rcases Nat.lt_succ_iff_lt_or_eq.mp hk with hlt | rfl
      · exact hbefore k hlt u hu
      · exact (hlast u hu).1
    · intro h
      exact ⟨fun k hk => h k (by omega), fun u hu => ⟨h n (by omega) u hu, fun _ _ => trivial⟩⟩

/-- A condition that does not depend on the state. -/
theorem meets_of_forall {ok : S → I → Prop} {is : List I} (h : ∀ i ∈ is, ∀ s, ok s i) (s : S) :
    Meets step ok s is := by
  induction is generalizing s with
  | nil => trivial
  | cons i is ih =>
    rw [List.forall_mem_cons] at h
    exact ⟨h.1 s, fun u _ => ih h.2 u⟩

/-- **Conditional invariant rule.** -/
theorem run_invariant_of_meets {J : S → Prop} {ok : S → I → Prop}
    (hstep : ∀ {s i s'}, J s → ok s i → step s i = some s' → J s') {s s' : S} {is : List I}
    (hs : J s) (hok : Meets step ok s is) (h : run step s is = some s') : J s' := by
  induction is generalizing s with
  | nil => exact Option.some.inj h ▸ hs
  | cons i is ih =>
    obtain ⟨u, hu, hrun⟩ := run_cons_eq_some.mp h
    exact ih (hstep hs hok.1 hu) (hok.2 u hu) hrun

/-- A machine that does what `spec` does in every step that meets `ok` has the same runs. -/
theorem run_congr_of_meets {spec : S → I → Option S} {ok : S → I → Prop}
    (hstep : ∀ s i, ok s i → step s i = spec s i) {s : S} {is : List I}
    (hok : Meets step ok s is) : run step s is = run spec s is := by
  induction is generalizing s with
  | nil => rfl
  | cons i is ih =>
    rw [run, run, ← hstep s i hok.1]
    cases hs : step s i with
    | none => rfl
    | some u => exact ih (hok.2 u hs)

/-- `P` holds in every state that the run reaches. -/
def Always (step : S → I → Option S) (P : S → Prop) (s : S) (is : List I) : Prop :=
  ∀ pre, pre <+: is → ∀ u, run step s pre = some u → P u

/-- The prefixes of a list: the empty one, and those with its head. -/
theorem forall_prefix_cons {A : List I → Prop} {i : I} {is : List I} :
    (∀ pre, pre <+: i :: is → A pre) ↔ A [] ∧ ∀ pre, pre <+: is → A (i :: pre) := by
  constructor
  · intro h
    exact ⟨h [] List.nil_prefix, fun pre hpre => h _ (List.cons_prefix_cons.mpr ⟨rfl, hpre⟩)⟩
  · rintro ⟨hnil, hcons⟩ pre hpre
    cases pre with
    | nil => exact hnil
    | cons j pre =>
      obtain ⟨rfl, htail⟩ := List.cons_prefix_cons.mp hpre
      exact hcons pre htail

theorem always_cons {P : S → Prop} {s : S} {i : I} {is : List I} :
    Always step P s (i :: is) ↔ P s ∧ ∀ u, step s i = some u → Always step P u is := by
  unfold Always
  rw [forall_prefix_cons]
  constructor
  · rintro ⟨hs, hnext⟩
    exact ⟨hs s rfl, fun u hu pre hpre v hv =>
      hnext pre hpre v (run_cons_eq_some.mpr ⟨u, hu, hv⟩)⟩
  · rintro ⟨hs, hnext⟩
    refine ⟨fun u hu => Option.some.inj hu ▸ hs, fun pre hpre v hv => ?_⟩
    obtain ⟨u, hu, hrun⟩ := run_cons_eq_some.mp hv
    exact hnext u hu pre hpre v hrun

/-- An invariant of the steps between states with `P` holds in every state of a run that always
has `P`. -/
theorem always_of_always {J P : S → Prop}
    (hstep : ∀ {s i s'}, J s → P s' → step s i = some s' → J s') {s : S} {is : List I}
    (hs : J s) (hP : Always step P s is) : Always step J s is := by
  induction is generalizing s with
  | nil =>
    intro pre hpre u hu
    rw [List.prefix_nil.mp hpre] at hu
    exact Option.some.inj hu ▸ hs
  | cons i is ih =>
    rw [always_cons] at hP ⊢
    refine ⟨hs, fun u hu => ?_⟩
    have hPu := hP.2 u hu
    exact ih (hstep hs (hPu [] List.nil_prefix u rfl) hu) hPu

/-- **Simulation rule.** -/
theorem run_simulates {spec : A → I → Option A} {R : S → A → Prop}
    (hstep : ∀ {s a a' i}, R s a → spec a i = some a' → ∃ s', step s i = some s' ∧ R s' a')
    {s : S} {a a' : A} {is : List I} (hR : R s a) (h : run spec a is = some a') :
    ∃ s', run step s is = some s' ∧ R s' a' := by
  induction is generalizing s a with
  | nil => exact ⟨s, rfl, Option.some.inj h ▸ hR⟩
  | cons i is ih =>
    obtain ⟨b, hb, hrun⟩ := run_cons_eq_some.mp h
    obtain ⟨u, hu, hRu⟩ := hstep hR hb
    obtain ⟨s', hs', hR'⟩ := ih hRu hrun
    exact ⟨s', run_cons_eq_some.mpr ⟨u, hu, hs'⟩, hR'⟩

/-- **Refinement rule.** Related states take the same steps, or neither takes one. -/
theorem run_rel {spec : A → I → Option A} {R : S → A → Prop}
    (hstep : ∀ {s a} i, R s a → Option.Rel R (step s i) (spec a i)) {s : S} {a : A}
    (hR : R s a) (is : List I) : Option.Rel R (run step s is) (run spec a is) := by
  induction is generalizing s a with
  | nil => exact .some hR
  | cons i is ih =>
    rw [run, run]
    have hrel := hstep i hR
    generalize step s i = o, spec a i = o' at hrel
    cases hrel with
    | none => exact .none
    | some hR' => exact ih hR'

/-- The machine that keeps a log of its calls and their replies. -/
def logged (call : S → I → Option (S × O)) (s : S × List (I × O)) (i : I) :
    Option (S × List (I × O)) :=
  (call s.1 i).map fun r => (r.1, s.2 ++ [(i, r.2)])

theorem logged_eq_some {call : S → I → Option (S × O)} {s s' : S × List (I × O)} {i : I} :
    logged call s i = some s' ↔
      ∃ o, call s.1 i = some (s'.1, o) ∧ s'.2 = s.2 ++ [(i, o)] := by
  rw [logged, Option.map_eq_some_iff]
  constructor
  · rintro ⟨r, hr, rfl⟩
    exact ⟨r.2, hr, rfl⟩
  · rintro ⟨o, ho, hlog⟩
    exact ⟨_, ho, by rw [← hlog]⟩

end CppExamples.Lib.Machine
