import CppExamples.Practice.AntColony
import Mathlib.Algebra.BigOperators.Field
import Mathlib.Algebra.BigOperators.Intervals
import Mathlib.Algebra.Order.BigOperators.Ring.Finset
import Mathlib.Algebra.Order.Field.Basic
import Mathlib.Algebra.Order.Field.Rat
import Mathlib.Data.Finset.Range
import Mathlib.Logic.Function.Iterate

/-!
# What the ant learns (`cjunk/practice/antColonyOptimization.cc:38-91`)

`pheromone` has an element for each position of the tour. An iteration adds the same number to all
of them but the last, which gets nothing.

* `pheromone_of_run`: so in every run, whatever the arithmetic, all elements but the last are equal,
  and the last one depends on the number of iterations only. No position is ever told from another
  by `pheromone`.
* `choice_of_run`: in exact arithmetic, with `rho < 1`, positive visibilities and positive
  distances of tours, `next` is in every iteration of every run the position whose interval the draw
  falls in: the search finds it, and does not fall back to position 0.

The loops are first given as equations: each vector is the list of its elements by position.
-/

namespace CppExamples.Practice.AntColony

open Lib Lib.Loop Lib.Machine

section Loops

variable {D : Type} {A : Arithmetic D} {M : Model D} {P : Parameters D} {n : Nat}
  {path : List Nat} (hmax : (n : Int) ≤ CInt.intMax) (hpath : path.length = n)

/-- The vector with the elements `f 0`, …, `f (n - 1)`. -/
def vector (n : Nat) (f : Nat → D) : List D := (List.range n).map f

@[simp] theorem length_vector (n : Nat) (f : Nat → D) : (vector n f).length = n := by
  rw [vector, List.length_map, List.length_range]

theorem getElem?_vector {f : Nat → D} {j : Nat} (hj : j < n) : (vector n f)[j]? = some (f j) := by
  rw [vector, List.getElem?_map, List.getElem?_range hj, Option.map_some]

theorem replicate_eq_vector (n : Nat) (x : D) : List.replicate n x = vector n fun _ => x := by
  rw [vector, List.map_const', List.length_range]

/-- The whole vector is replaced. -/
theorem filled_vector (out f : Nat → D) : filled out (vector n f) n = vector n out := by
  have h := filled_length out (vector n f)
  rw [length_vector] at h
  exact h

/-- What position `j` gets. -/
def deposit (A : Arithmetic D) (M : Model D) (n : Nat) (path : List Nat) (j : Nat) : D :=
  if j < n - 1 then A.div A.one (M.getDistance path) else A.zero

/-- The pheromone of a position that has `x` and gets `delta`. -/
def mixed (A : Arithmetic D) (P : Parameters D) (x delta : D) : D :=
  A.add (A.mul (A.sub A.one P.rho) x) delta

/-- The weight of position `j` with pheromone `x`. -/
def weight (A : Arithmetic D) (M : Model D) (P : Parameters D) (x : D) (j : Nat) : D :=
  A.mul (A.pow x P.alpha) (A.pow (M.getVisibility j) P.beta)

/-- The sum of the first `j` elements, as the loop adds them. -/
def sumTo (A : Arithmetic D) (f : Nat → D) : Nat → D
  | 0 => A.zero
  | j + 1 => A.add (sumTo A f j) (f j)

/-- Element `j` of the cumulative vector. -/
def cumulated (A : Arithmetic D) (f : Nat → D) : Nat → D
  | 0 => f 0
  | j + 1 => A.add (cumulated A f j) (f (j + 1))

include hmax hpath

theorem deltaPheromone_eq (hn : 1 ≤ n) :
    deltaPheromone A M path = some (vector n (deposit A M n path)) := by
  unfold deltaPheromone
  rw [lastIndex_eq hn hmax hpath, hpath, replicate_eq_vector]
  have hfill : forRange 0 (n - 1)
      (fun j delta => store delta j (A.div A.one (M.getDistance path))) (vector n fun _ => A.zero) =
        some (filled (fun _ => A.div A.one (M.getDistance path)) (vector n fun _ => A.zero) (n - 1)) := by
    refine forRange_fill (v := vector n fun _ => A.zero) _ (Nat.zero_le _) (by omega) fun j _ hj => ?_
    exact store_filled (f := fun _ => A.div A.one (M.getDistance path))
      (by rw [length_vector]; omega)
  rw [hfill]
  congr 1
  refine List.ext_getElem? fun j => ?_
  rw [getElem?_filled]
  by_cases hj : j < n
  · rw [getElem?_vector hj, getElem?_vector hj, deposit]
    split <;> rfl
  · rw [if_neg (by omega), List.getElem?_eq_none (by simpa using hj),
      List.getElem?_eq_none (by simpa using hj)]

theorem updatePheromone_eq (delta pheromone : Nat → D) :
    updatePheromone A P path (vector n delta) (vector n pheromone) =
      some (vector n fun j => mixed A P (pheromone j) (delta j)) := by
  unfold updatePheromone
  rw [hpath, ← filled_vector (fun j => mixed A P (pheromone j) (delta j)) pheromone]
  refine forRange_fill (v := vector n pheromone) _ (Nat.zero_le _) hmax fun j _ hj => ?_
  rw [getElem?_filled, if_neg (lt_irrefl j), getElem?_vector hj, getElem?_vector hj]
  exact store_filled (f := fun j => mixed A P (pheromone j) (delta j))
    (by rwa [length_vector])

theorem weights_eq (pheromone : Nat → D) :
    weights A M P path (vector n pheromone) =
      some (vector n fun j => weight A M P (pheromone j) j,
        sumTo A (fun j => weight A M P (pheromone j) j) n) := by
  unfold weights
  rw [hpath, replicate_eq_vector]
  have hstep : ∀ j (s : List D × D), j < n →
      (s = (filled (fun j => weight A M P (pheromone j) j) (vector n fun _ => A.zero) j,
        sumTo A (fun j => weight A M P (pheromone j) j) j)) →
      ∃ s', (do
        let x ← (vector n pheromone)[j]?
        let probability ← store s.1 j (A.mul (A.pow x P.alpha) (A.pow (M.getVisibility j) P.beta))
        let weight ← probability[j]?
        return (probability, A.add s.2 weight)) = some s' ∧
        s' = (filled (fun j => weight A M P (pheromone j) j) (vector n fun _ => A.zero) (j + 1),
          sumTo A (fun j => weight A M P (pheromone j) j) (j + 1)) := by
    rintro j s hj rfl
    refine ⟨_, ?_, rfl⟩
    have hstore := store_filled (f := fun j => weight A M P (pheromone j) j)
      (v := vector n fun _ => A.zero) (j := j) (by rwa [length_vector])
    have hread : (filled (fun j => weight A M P (pheromone j) j) (vector n fun _ => A.zero)
        (j + 1))[j]? = some (weight A M P (pheromone j) j) := by
      rw [getElem?_filled, if_pos (Nat.lt_succ_self j)]
    unfold weight at hstore hread
    simp only [getElem?_vector hj, Option.bind_eq_bind, Option.bind_some, weight, hstore, hread,
      sumTo, Option.pure_def]
  obtain ⟨s, hs, rfl⟩ := exists_forRange _ (Nat.zero_le n) hmax hstep (s := (vector n fun _ => A.zero, A.zero)) rfl
  rw [hs, filled_vector]

theorem divideBy_eq (sum : D) (f : Nat → D) :
    divideBy A path sum (vector n f) = some (vector n fun j => A.div (f j) sum) := by
  unfold divideBy
  rw [hpath, ← filled_vector (fun j => A.div (f j) sum) f]
  refine forRange_fill (v := vector n f) _ (Nat.zero_le _) hmax fun j _ hj => ?_
  rw [getElem?_filled, if_neg (lt_irrefl j), getElem?_vector hj]
  exact store_filled (f := fun j => A.div (f j) sum) (by rwa [length_vector])

theorem cumulativeProbability_eq (hn : 1 ≤ n) (f : Nat → D) :
    cumulativeProbability A path (vector n f) = some (vector n (cumulated A f)) := by
  unfold cumulativeProbability
  have hfirst : store (vector n fun _ => A.zero) 0 (f 0) =
      some (filled (cumulated A f) (vector n fun _ => A.zero) 1) :=
    store_filled (f := cumulated A f) (v := vector n fun _ => A.zero) (j := 0)
      (by rw [length_vector]; omega)
  rw [hpath, replicate_eq_vector, getElem?_vector hn, Option.bind_eq_bind, Option.bind_some, hfirst,
    Option.bind_eq_bind, Option.bind_some, ← filled_vector (cumulated A f) fun _ => A.zero]
  refine forRange_fill _ hn hmax fun j hj hlt => ?_
  obtain ⟨k, rfl⟩ := Nat.exists_eq_add_of_le' hj
  rw [Nat.add_sub_cancel, getElem?_filled, if_pos (Nat.lt_succ_self k), getElem?_vector hlt]
  exact store_filled (f := cumulated A f) (by rwa [length_vector])

/-- The probabilities, added up. -/
def limits (A : Arithmetic D) (M : Model D) (P : Parameters D) (n : Nat) (p : Nat → D) : Nat → D :=
  cumulated A fun j => A.div (weight A M P (p j) j) (sumTo A (fun j => weight A M P (p j) j) n)

/-- `choose`, as an equation. -/
theorem choose_eq (hn : 1 ≤ n) (p : Nat → D) (r : D) :
    choose A M P path (vector n p) r =
      (selectNext A path
        (vector n (limits A M P n fun j => mixed A P (p j) (deposit A M n path j))) r).map
        fun next => (vector n fun j => mixed A P (p j) (deposit A M n path j), next) := by
  unfold choose
  rw [deltaPheromone_eq hmax hpath hn, Option.bind_eq_bind, Option.bind_some,
    updatePheromone_eq hmax hpath, Option.bind_eq_bind, Option.bind_some, weights_eq hmax hpath,
    Option.bind_eq_bind, Option.bind_some]
  simp only [divideBy_eq hmax hpath, cumulativeProbability_eq hmax hpath hn, Option.bind_some, limits]
  cases selectNext A path _ r <;> rfl

/-- The new pheromone. -/
theorem choose_pheromone (hn : 1 ≤ n) {p : Nat → D} {r : D} {pheromone : List D} {next : Nat}
    (h : choose A M P path (vector n p) r = some (pheromone, next)) :
    pheromone = vector n fun j => mixed A P (p j) (deposit A M n path j) := by
  rw [choose_eq hmax hpath hn, Option.map_eq_some_iff] at h
  obtain ⟨next', -, hpair⟩ := h
  exact (congrArg Prod.fst hpair).symm

end Loops

/-! ## Pheromone in a run -/

section Runs

variable {D : Type} {A : Arithmetic D} {M : Model D} {P : Parameters D} {n : Nat} {s s' : Ant D}
  {x : Sample D}

theorem sampled_pheromone (s : Ant D) (nextPath : List Nat) :
    (sampled A M s nextPath).pheromone = s.pheromone := by
  unfold sampled
  dsimp only
  split <;> rfl

/-- What an iteration does to the pheromone. -/
theorem iteration_pheromone (h : iteration A M P s x = some s') (hn : 1 ≤ n)
    (hmax : (n : Int) ≤ CInt.intMax) (hpath : (sampled A M s x.nextPath).path.length = n)
    {p : Nat → D} (hp : s.pheromone = vector n p) :
    s'.pheromone =
      vector n fun j => mixed A P (p j) (deposit A M n (sampled A M s x.nextPath).path j) := by
  unfold iteration at h
  simp only [Option.bind_eq_bind, Option.bind_eq_some_iff] at h
  obtain ⟨⟨pheromone, next⟩, hchoose, path, -, path', -, hs'⟩ := h
  rw [Option.pure_def, Option.some.injEq] at hs'
  subst hs'
  rw [sampled_pheromone, hp] at hchoose
  exact choose_pheromone hmax hpath hn hchoose

variable (A P) in
/-- The pheromone of the last position after `k` iterations. -/
def faded (k : Nat) : D := (fun x => mixed A P x A.zero)^[k] A.one

/-- All positions but the last have the pheromone `a`. -/
def twoValued (n : Nat) (a b : D) (j : Nat) : D := if j < n - 1 then a else b

theorem vector_twoValued (hn : 1 ≤ n) (a b : D) :
    vector n (twoValued n a b) = List.replicate (n - 1) a ++ [b] := by
  obtain ⟨k, rfl⟩ := Nat.exists_eq_add_of_le' hn
  rw [vector, List.range_succ, List.map_append, List.map_singleton, Nat.add_sub_cancel]
  refine congrArg₂ (· ++ ·) ?_ (by simp [twoValued])
  rw [← List.length_range (n := k), ← List.map_const', List.length_range]
  refine List.map_congr_left fun j hj => ?_
  rw [twoValued, Nat.add_sub_cancel, if_pos (List.mem_range.mp hj)]

theorem mixed_twoValued (a b : D) (path : List Nat) (j : Nat) :
    mixed A P (twoValued n a b j) (deposit A M n path j) =
      twoValued n (mixed A P a (A.div A.one (M.getDistance path))) (mixed A P b A.zero) j := by
  unfold twoValued deposit
  split <;> rfl

/-- **The ant tells no position from another.** With 2 to `INT_MAX` cities, whatever the model
computes, the arithmetic gives and the draws are, after every run all positions but the last have
the same pheromone, and that of the last one depends on the number of iterations only. -/
theorem pheromone_of_run (A : Arithmetic D) (M : Model D) (P : Parameters D) (n : Nat) (hn : 2 ≤ n)
    (hmax : (n : Int) ≤ CInt.intMax) (first : List Nat) (hfirst : first.length = n)
    (samples : List (Sample D)) (hsamples : ∀ x ∈ samples, x.nextPath.length = n) :
    ∃ s a, run (iteration A M P) (start A first) samples = some s ∧
      s.pheromone = List.replicate (n - 1) a ++ [faded A P samples.length] := by
  suffices hrun : ∀ (k : Nat) (s : Ant D) (a : D), Sized n s →
      s.pheromone = vector n (twoValued n a (faded A P k)) →
      ∃ s' a', run (iteration A M P) s samples = some s' ∧
        s'.pheromone = vector n (twoValued n a' (faded A P (k + samples.length))) by
    have hstart : (start A first).pheromone = vector n (twoValued n A.one (faded A P 0)) := by
      rw [start, hfirst, replicate_eq_vector]
      refine List.map_congr_left fun j _ => ?_
      unfold twoValued faded
      split <;> rfl
    obtain ⟨s', a', hs', hph⟩ := hrun 0 (start A first) A.one (sized_start hfirst) hstart
    rw [Nat.zero_add, vector_twoValued (by omega)] at hph
    exact ⟨s', a', hs', hph⟩
  induction samples with
  | nil => exact fun k s a _ hph => ⟨s, a, rfl, hph⟩
  | cons x samples ih =>
    intro k s a hs hph
    rw [List.forall_mem_cons] at hsamples
    obtain ⟨u, hu, hsized, -⟩ :=
      hs.iteration (A := A) (M := M) (P := P) hn hmax hsamples.1
    have hnext := iteration_pheromone hu (by omega) hmax (hs.sampled hsamples.1).path hph
    have hfaded : mixed A P (faded A P k) A.zero = faded A P (k + 1) :=
      (Function.iterate_succ_apply' (fun x => mixed A P x A.zero) k A.one).symm
    simp only [mixed_twoValued, hfaded] at hnext
    obtain ⟨s', a', hs', hph'⟩ := ih hsamples.2 (k + 1) u _ hsized hnext
    refine ⟨s', a', run_cons_eq_some.mpr ⟨u, hu, hs'⟩, ?_⟩
    rw [hph', List.length_cons, Nat.add_right_comm, Nat.add_assoc]

/-- Three cities and two iterations. -/
theorem pheromone_of_run_three : ∃ s a,
    run (iteration rational (line 3) plain) (start rational [2, 0, 1])
      [⟨[0, 1, 2], 0, 0⟩, ⟨[1, 0, 2], 1 / 2, 0⟩] = some s ∧
    s.pheromone = List.replicate 2 a ++ [faded rational plain 2] :=
  pheromone_of_run rational (line 3) plain 3 (by decide) (by decide) [2, 0, 1] rfl
    [⟨[0, 1, 2], 0, 0⟩, ⟨[1, 0, 2], 1 / 2, 0⟩] (by simp)

end Runs

/-! ## The choice in exact arithmetic -/

/-- The operations are those of an ordered field. Of `pow` it is known that it keeps numbers
positive. -/
structure Exact {K : Type} [Field K] [LinearOrder K] (A : Arithmetic K) : Prop where
  zero : A.zero = 0
  one : A.one = 1
  add : ∀ x y, A.add x y = x + y
  sub : ∀ x y, A.sub x y = x - y
  mul : ∀ x y, A.mul x y = x * y
  div : ∀ x y, A.div x y = x / y
  lt : ∀ x y, A.lt x y = true ↔ x < y
  pow_pos : ∀ x y, 0 < x → 0 < A.pow x y

section Choice

open Finset

variable {K : Type} [Field K] [LinearOrder K] {A : Arithmetic K} {M : Model K} {P : Parameters K}
  {n : Nat}

theorem Exact.sumTo_eq (hA : Exact A) (f : Nat → K) (n : Nat) :
    sumTo A f n = ∑ i ∈ range n, f i := by
  induction n with
  | zero => exact hA.zero
  | succ n ih => rw [sumTo, hA.add, ih, sum_range_succ]

theorem Exact.cumulated_eq (hA : Exact A) (f : Nat → K) (j : Nat) :
    cumulated A f j = ∑ i ∈ range (j + 1), f i := by
  induction j with
  | zero => rw [cumulated, zero_add, sum_range_one]
  | succ j ih => rw [cumulated, hA.add, ih, sum_range_succ _ (j + 1)]

theorem Exact.limits_eq (hA : Exact A) (p : Nat → K) (j : Nat) :
    limits A M P n p j =
      (∑ i ∈ range (j + 1), weight A M P (p i) i) / ∑ i ∈ range n, weight A M P (p i) i := by
  rw [limits, hA.cumulated_eq, hA.sumTo_eq, sum_div]
  exact sum_congr rfl fun i _ => hA.div _ _

/-- The tour is one, and every position has some pheromone. -/
structure Fresh (n : Nat) (s : Ant K) : Prop where
  path : s.path.Perm (List.range n)
  pheromone : ∃ p : Nat → K, s.pheromone = vector n p ∧ ∀ j < n, 0 < p j

theorem Fresh.sized {s : Ant K} (h : Fresh n s) : Sized n s := by
  obtain ⟨p, hp, -⟩ := h.pheromone
  exact ⟨h.path.length_eq.trans List.length_range, by rw [hp, length_vector]⟩

theorem Fresh.sampled {s : Ant K} (h : Fresh n s) {nextPath : List Nat}
    (hnext : nextPath.Perm (List.range n)) : Fresh n (sampled A M s nextPath) := by
  refine ⟨?_, by rw [sampled_pheromone]; exact h.pheromone⟩
  rcases sampled_path (A := A) (M := M) s nextPath with heq | heq
  · rw [heq]
    exact hnext
  · rw [heq]
    exact h.path

variable [IsStrictOrderedRing K]

theorem Exact.weight_pos (hA : Exact A) (hvis : ∀ j < n, 0 < M.getVisibility j) {x : K}
    (hx : 0 < x) {j : Nat} (hj : j < n) : 0 < weight A M P x j := by
  rw [weight, hA.mul]
  exact mul_pos (hA.pow_pos _ _ hx) (hA.pow_pos _ _ (hvis j hj))

theorem Exact.mixed_pos (hA : Exact A) (hrho : P.rho < 1) {x delta : K} (hx : 0 < x)
    (hdelta : 0 ≤ delta) : 0 < mixed A P x delta := by
  rw [mixed, hA.add, hA.mul, hA.sub, hA.one]
  exact add_pos_of_pos_of_nonneg (mul_pos (sub_pos.mpr hrho) hx) hdelta

theorem Exact.deposit_nonneg (hA : Exact A) {path : List Nat} (hdist : 0 < M.getDistance path)
    (j : Nat) : 0 ≤ deposit A M n path j := by
  unfold deposit
  split
  · rw [hA.div, hA.one]
    exact (one_div_pos.mpr hdist).le
  · rw [hA.zero]

/-- `next` is the position whose interval the draw falls in: the weights before it are at most the
draw's share of all weights, and with its own weight they are more. -/
structure Falls (weights : Nat → K) (n : Nat) (r : K) (next : Nat) : Prop where
  lt : next < n
  before : ∑ i ∈ range next, weights i ≤ r * ∑ i ∈ range n, weights i
  reached : r * ∑ i ∈ range n, weights i < ∑ i ∈ range (next + 1), weights i

/-- A draw from `[0, 1)` falls in one interval. -/
theorem exists_falls {weights : Nat → K} (hn : 1 ≤ n) (hpos : ∀ j < n, 0 < weights j) {r : K}
    (hr : 0 ≤ r) (hr1 : r < 1) : ∃ next, Falls weights n r next := by
  have htotal : 0 < ∑ i ∈ range n, weights i :=
    sum_pos (fun i hi => hpos i (mem_range.mp hi)) ⟨0, mem_range.mpr hn⟩
  have hend : r * ∑ i ∈ range n, weights i < ∑ i ∈ range (n - 1 + 1), weights i := by
    rw [Nat.sub_add_cancel hn]
    exact mul_lt_of_lt_one_left htotal hr1
  classical
  let found : ∃ j, r * ∑ i ∈ range n, weights i < ∑ i ∈ range (j + 1), weights i := ⟨n - 1, hend⟩
  have hle : Nat.find found ≤ n - 1 := Nat.find_min' found hend
  refine ⟨Nat.find found, by omega, ?_, Nat.find_spec found⟩
  cases hnext : Nat.find found with
  | zero =>
    rw [range_zero, sum_empty]
    exact mul_nonneg hr htotal.le
  | succ k => exact not_lt.mp (Nat.find_min found (m := k) (by omega))

/-- **One choice.** The search finds the interval. -/
theorem Exact.choose_falls (hA : Exact A) (hvis : ∀ j < n, 0 < M.getVisibility j) (hn : 1 ≤ n)
    (hmax : (n : Int) ≤ CInt.intMax) {path : List Nat} (hpath : path.length = n) {p : Nat → K}
    (hp : ∀ j < n, 0 < mixed A P (p j) (deposit A M n path j)) {r : K} (hr : 0 ≤ r) (hr1 : r < 1) :
    ∃ next, choose A M P path (vector n p) r =
        some (vector n fun j => mixed A P (p j) (deposit A M n path j), next) ∧
      Falls (fun j => weight A M P (mixed A P (p j) (deposit A M n path j)) j) n r next := by
  have hweight : ∀ j < n, 0 < weight A M P (mixed A P (p j) (deposit A M n path j)) j :=
    fun j hj => hA.weight_pos hvis (hp j hj) hj
  obtain ⟨next, hfalls⟩ := exists_falls hn hweight hr hr1
  refine ⟨next, ?_, hfalls⟩
  have htotal : 0 < ∑ i ∈ range n, weight A M P (mixed A P (p i) (deposit A M n path i)) i :=
    sum_pos (fun i hi => hweight i (mem_range.mp hi)) ⟨0, mem_range.mpr hn⟩
  have htest : ∀ j < n,
      ((vector n (limits A M P n fun j => mixed A P (p j) (deposit A M n path j)))[j]?).map (A.lt r) =
        some (decide (r * ∑ i ∈ range n, weight A M P (mixed A P (p i) (deposit A M n path i)) i <
          ∑ i ∈ range (j + 1), weight A M P (mixed A P (p i) (deposit A M n path i)) i)) := by
    intro j hj
    rw [getElem?_vector hj, Option.map_some, hA.limits_eq]
    congr 1
    rw [Bool.eq_iff_iff, hA.lt, decide_eq_true_iff, lt_div_iff₀ htotal]
  have hsearch : selectNext A path
      (vector n (limits A M P n fun j => mixed A P (p j) (deposit A M n path j))) r = some next := by
    unfold selectNext
    rw [hpath, search_eq hmax htest hfalls.lt (decide_eq_true hfalls.reached) fun k hk => ?_]
    · rfl
    · refine decide_eq_false (not_lt.mpr (le_trans ?_ hfalls.before))
      refine sum_le_sum_of_subset_of_nonneg (range_subset_range.mpr hk) fun i hi _ => ?_
      exact (hweight i ((mem_range.mp hi).trans hfalls.lt)).le
  rw [choose_eq hmax hpath hn, hsearch, Option.map_some]

/-- An iteration leaves some pheromone everywhere. -/
theorem Fresh.iteration {s : Ant K} (h : Fresh n s) (hA : Exact A) (hrho : P.rho < 1)
    (hdist : ∀ path : List Nat, path.Perm (List.range n) → 0 < M.getDistance path) (hn : 2 ≤ n)
    (hmax : (n : Int) ≤ CInt.intMax) {x : Sample K} (hx : x.nextPath.Perm (List.range n)) :
    ∃ s', AntColony.iteration A M P s x = some s' ∧ Fresh n s' := by
  have hs : Fresh n (AntColony.sampled A M s x.nextPath) := h.sampled hx
  obtain ⟨s', hs', -, hperm⟩ := h.sized.iteration (A := A) (M := M) (P := P) hn hmax
    (hx.length_eq.trans List.length_range)
  obtain ⟨p, hp, hpos⟩ := h.pheromone
  refine ⟨s', hs', hperm.trans hs.path, _,
    iteration_pheromone hs' (by omega) hmax hs.sized.path hp, fun j hj => ?_⟩
  exact hA.mixed_pos hrho (hpos j hj) (hA.deposit_nonneg (hdist _ hs.path) j)

/-- **Every choice falls in its interval.** In exact arithmetic, for 2 to `INT_MAX` cities whose
tours have positive distances, positive visibilities and `rho < 1`, the draw of every iteration of
every run is found, and falls in the interval of the position that is taken. -/
theorem choice_of_run (A : Arithmetic K) (M : Model K) (P : Parameters K) (hA : Exact A) (n : Nat)
    (hn : 2 ≤ n) (hmax : (n : Int) ≤ CInt.intMax) (hrho : P.rho < 1)
    (hvis : ∀ j < n, 0 < M.getVisibility j)
    (hdist : ∀ path : List Nat, path.Perm (List.range n) → 0 < M.getDistance path)
    (first : List Nat) (hfirst : first.Perm (List.range n)) (samples : List (Sample K))
    (hsamples : ∀ x ∈ samples, x.nextPath.Perm (List.range n)) (x : Sample K)
    (hx : x.nextPath.Perm (List.range n)) (hr : 0 ≤ x.r) (hr1 : x.r < 1) :
    ∃ s p next, run (iteration A M P) (start A first) samples = some s ∧
      choose A M P (sampled A M s x.nextPath).path s.pheromone x.r = some (vector n p, next) ∧
      Falls (fun j => weight A M P (p j) j) n x.r next := by
  have hstart : Fresh n (start A first) := by
    refine ⟨hfirst, fun _ => 1, ?_, fun _ _ => one_pos⟩
    rw [start, hfirst.length_eq, List.length_range, replicate_eq_vector, hA.one]
  have hrun : ∃ s, run (iteration A M P) (start A first) samples = some s ∧ Fresh n s := by
    generalize start A first = s at hstart
    induction samples generalizing s with
    | nil => exact ⟨s, rfl, hstart⟩
    | cons y samples ih =>
      rw [List.forall_mem_cons] at hsamples
      obtain ⟨u, hu, hfresh⟩ := hstart.iteration hA hrho hdist hn hmax hsamples.1
      obtain ⟨s', hs', hfresh'⟩ := ih hsamples.2 u hfresh
      exact ⟨s', run_cons_eq_some.mpr ⟨u, hu, hs'⟩, hfresh'⟩
  obtain ⟨s, hs, hfresh⟩ := hrun
  have hsampled : Fresh n (sampled A M s x.nextPath) := hfresh.sampled hx
  obtain ⟨p, hp, hpos⟩ := hfresh.pheromone
  have hmixed : ∀ j < n, 0 < mixed A P (p j) (deposit A M n (sampled A M s x.nextPath).path j) :=
    fun j hj => hA.mixed_pos hrho (hpos j hj) (hA.deposit_nonneg (hdist _ hsampled.path) j)
  obtain ⟨next, hchoose, hfalls⟩ :=
    hA.choose_falls hvis (by omega) hmax hsampled.sized.path hmixed hr hr1
  exact ⟨s, _, next, hs, hp ▸ hchoose, hfalls⟩

end Choice

theorem exact_rational : Exact rational where
  zero := rfl
  one := rfl
  add := fun _ _ => rfl
  sub := fun _ _ => rfl
  mul := fun _ _ => rfl
  div := fun _ _ => rfl
  lt := fun _ _ => decide_eq_true_iff
  pow_pos := fun _ _ hx => pow_pos hx _

/-- Three cities on a line, and a draw in the second iteration. -/
theorem choice_of_run_three : ∃ s p next,
    run (iteration rational (line 3) plain) (start rational [2, 0, 1]) [⟨[0, 1, 2], 0, 0⟩] = some s ∧
    choose rational (line 3) plain (sampled rational (line 3) s [1, 0, 2]).path s.pheromone (1 / 2) =
      some (vector 3 p, next) ∧
    Falls (fun j => weight rational (line 3) plain (p j) j) 3 (1 / 2) next := by
  have hdist : ∀ p ∈ (List.range 3).permutations', 0 < lineDistance p := by decide +kernel
  refine choice_of_run rational (line 3) plain exact_rational 3 (by decide) (by decide)
    (by decide +kernel) (by decide +kernel)
    (fun path hpath => hdist path (List.mem_permutations'.mpr hpath))
    [2, 0, 1] (by decide) [⟨[0, 1, 2], 0, 0⟩] ?_ ⟨[1, 0, 2], 1 / 2, 0⟩ (by decide) one_half_pos.le
    one_half_lt_one
  intro x hx
  rw [List.mem_singleton] at hx
  subst hx
  decide

end CppExamples.Practice.AntColony
