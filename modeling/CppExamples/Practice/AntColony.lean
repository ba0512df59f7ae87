import CppExamples.Lib.Loop
import CppExamples.Lib.Machine
import Mathlib.Algebra.Order.Ring.Rat
import Mathlib.Data.List.Permutation

/-!
# `AntColonyOptimization::ant` (`cjunk/practice/antColonyOptimization.cc:38-91`)

The template parameter `Model` and the operations on `double` are parameters: nothing is assumed
about them, so that every outcome of a comparison is covered. What is random comes from outside: the
first path, and for each iteration the path `next_path` and the two draws `r`.

Every access to a vector is checked, and so is every counter, which is an `int`. `path.size() - 1`
is a `size_t`.

* `ant_tour`: with 2 to `INT_MAX` cities every run is defined, and its result is a tour.
* `ant_overflow`: with more cities no run with an iteration is.
-/

namespace CppExamples.Practice.AntColony

open Lib Lib.Loop Lib.Machine

/-- The operations on `double`, with `numeric_limits<double>::max()`. -/
structure Arithmetic (D : Type) where
  zero : D
  one : D
  max : D
  add : D → D → D
  sub : D → D → D
  mul : D → D → D
  div : D → D → D
  pow : D → D → D
  lt : D → D → Bool

/-- The template parameter `Model`, apart from what is random. -/
structure Model (D : Type) where
  getDistance : List Nat → D
  getVisibility : Nat → D

/-- The members `alpha`, `beta`, `rho` and `q0`. -/
structure Parameters (D : Type) where
  alpha : D
  beta : D
  rho : D
  q0 : D

/-- What is random in an iteration: `model.get_path()` and the draws for the position and for
`q0`. -/
structure Sample (D : Type) where
  nextPath : List Nat
  r : D
  rq : D

/-- The variables of `ant` that outlive an iteration. -/
structure Ant (D : Type) where
  path : List Nat
  pheromone : List D
  bestDistance : D

/-- `path.size() - 1`. -/
def lastIndex (path : List Nat) : Nat := (path.length + (2 ^ 64 - 1)) % 2 ^ 64

section Code

variable {D : Type} (A : Arithmetic D) (M : Model D) (P : Parameters D)

/-- The sampled path replaces `path` if it is shorter than all before. -/
def sampled (s : Ant D) (nextPath : List Nat) : Ant D :=
  let nextDistance := M.getDistance nextPath
  if A.lt nextDistance s.bestDistance then
    { s with path := nextPath, bestDistance := nextDistance }
  else s

/-- `delta_pheromone`. -/
def deltaPheromone (path : List Nat) : Option (List D) :=
  forRange 0 (lastIndex path)
    (fun j deltaPheromone => store deltaPheromone j (A.div A.one (M.getDistance path)))
    (List.replicate path.length A.zero)

/-- The new `pheromone`. -/
def updatePheromone (path : List Nat) (deltaPheromone pheromone : List D) : Option (List D) :=
  forRange 0 path.length (fun j pheromone => do
    let x ← pheromone[j]?
    let delta ← deltaPheromone[j]?
    store pheromone j (A.add (A.mul (A.sub A.one P.rho) x) delta)) pheromone

/-- `probability` before the division, and `sum`. -/
def weights (path : List Nat) (pheromone : List D) : Option (List D × D) :=
  forRange 0 path.length (fun j s => do
    let x ← pheromone[j]?
    let probability ← store s.1 j
      (A.mul (A.pow x P.alpha) (A.pow (M.getVisibility j) P.beta))
    let weight ← probability[j]?
    return (probability, A.add s.2 weight)) (List.replicate path.length A.zero, A.zero)

/-- `probability` after the division. -/
def divideBy (path : List Nat) (sum : D) (probability : List D) : Option (List D) :=
  forRange 0 path.length (fun j probability => do
    let x ← probability[j]?
    store probability j (A.div x sum)) probability

/-- `cumulative_probability`. -/
def cumulativeProbability (path : List Nat) (probability : List D) : Option (List D) := do
  let x ← probability[0]?
  let cumulative ← store (List.replicate path.length A.zero) 0 x
  forRange 1 path.length (fun j cumulative => do
    let x ← cumulative[j - 1]?
    let y ← probability[j]?
    store cumulative j (A.add x y)) cumulative

/-- `next`, which stays 0 if no position is found. -/
def selectNext (path : List Nat) (cumulative : List D) (r : D) : Option Nat :=
  (search path.length fun j => (cumulative[j]?).map (A.lt r)).map fun found => found.getD 0

/-- From the update of `pheromone` to the selection of `next`. -/
def choose (path : List Nat) (pheromone : List D) (r : D) : Option (List D × Nat) := do
  let delta ← deltaPheromone A M path
  let pheromone ← updatePheromone A P path delta pheromone
  let (probability, sum) ← weights A M P path pheromone
  let probability ← divideBy A path sum probability
  let cumulative ← cumulativeProbability A path probability
  let next ← selectNext A path cumulative r
  return (pheromone, next)

/-- The exchange at `next`. -/
def exchangeNext (path : List Nat) (next : Nat) : Option (List Nat) :=
  if next ≠ lastIndex path then (succ next).bind fun k => exchange path next k else some path

/-- The exchange of the first two cities. -/
def exchangeFirst (path : List Nat) (rq : D) : Option (List Nat) :=
  if A.lt A.zero P.q0 then
    if A.lt rq P.q0 then exchange path 0 1 else some path
  else some path

/-- The tour after both exchanges. -/
def exchanges (path : List Nat) (pheromone : List D) (x : Sample D) : Option (List Nat) := do
  let (_, next) ← choose A M P path pheromone x.r
  let path ← exchangeNext path next
  exchangeFirst A P path x.rq

/-- One iteration. -/
def iteration (s : Ant D) (x : Sample D) : Option (Ant D) := do
  let s := sampled A M s x.nextPath
  let (pheromone, next) ← choose A M P s.path s.pheromone x.r
  let path ← exchangeNext s.path next
  let path ← exchangeFirst A P path x.rq
  return { s with path := path, pheromone := pheromone }

/-- Before the first iteration. -/
def start (path : List Nat) : Ant D where
  path := path
  pheromone := List.replicate path.length A.one
  bestDistance := A.max

/-- `ant`, with one sample for each of its iterations. -/
def ant (first : List Nat) (samples : List (Sample D)) : Option (List Nat) :=
  (run (iteration A M P) (start A first) samples).map Ant.path

end Code

/-! ## Every index is inside its vector -/

section Bounds

variable {D : Type} {A : Arithmetic D} {M : Model D} {P : Parameters D} {n : Nat}
  {path : List Nat} (hn : 1 ≤ n) (hmax : (n : Int) ≤ CInt.intMax) (hpath : path.length = n)

/-- A read inside a vector is defined. -/
theorem exists_read {α : Type} {v : List α} {j : Nat} (hv : v.length = n) (hj : j < n) :
    ∃ x, v[j]? = some x :=
  ⟨v[j], List.getElem?_eq_getElem (by omega)⟩

/-- A store inside a vector is defined and keeps its length. -/
theorem exists_store_of_length {v : List D} {j : Nat} (hv : v.length = n) (hj : j < n) (x : D) :
    ∃ v', store v j x = some v' ∧ v'.length = n := by
  obtain ⟨v', hstore, hlen⟩ := exists_store (hv ▸ hj) x
  exact ⟨v', hstore, hlen.trans hv⟩

include hn hmax hpath

theorem lastIndex_eq : lastIndex path = n - 1 := by
  have hlt : n < 2 ^ 64 := by
    unfold CInt.intMax at hmax
    omega
  unfold lastIndex
  rw [hpath]
  omega

theorem exists_deltaPheromone :
    ∃ delta, deltaPheromone A M path = some delta ∧ delta.length = n := by
  unfold deltaPheromone
  rw [lastIndex_eq hn hmax hpath]
  refine exists_forRange (fun _ (delta : List D) => delta.length = n) (Nat.zero_le _) (by omega) ?_ ?_
  · intro j delta hj hdelta
    exact exists_store_of_length hdelta (by omega) _
  · rw [List.length_replicate, hpath]

omit hn

theorem exists_updatePheromone {delta pheromone : List D} (hdelta : delta.length = n)
    (hpheromone : pheromone.length = n) :
    ∃ pheromone', updatePheromone A P path delta pheromone = some pheromone' ∧
      pheromone'.length = n := by
  unfold updatePheromone
  rw [hpath]
  refine exists_forRange (fun _ (v : List D) => v.length = n) (Nat.zero_le _) hmax ?_ hpheromone
  intro j v hj hv
  obtain ⟨x, hx⟩ := exists_read hv hj
  obtain ⟨y, hy⟩ := exists_read hdelta hj
  rw [hx, hy]
  exact exists_store_of_length hv hj _

theorem exists_weights {pheromone : List D} (hpheromone : pheromone.length = n) :
    ∃ s, weights A M P path pheromone = some s ∧ s.1.length = n := by
  unfold weights
  rw [hpath]
  refine exists_forRange (fun _ (s : List D × D) => s.1.length = n) (Nat.zero_le _) hmax ?_
    List.length_replicate
  intro j s hj hs
  obtain ⟨x, hx⟩ := exists_read hpheromone hj
  obtain ⟨v, hstore, hv⟩ := exists_store_of_length hs hj
    (A.mul (A.pow x P.alpha) (A.pow (M.getVisibility j) P.beta))
  obtain ⟨y, hy⟩ := exists_read hv hj
  refine ⟨(v, A.add s.2 y), ?_, hv⟩
  simp [hx, hstore, hy]

theorem exists_divideBy (sum : D) {probability : List D} (hprob : probability.length = n) :
    ∃ v, divideBy A path sum probability = some v ∧ v.length = n := by
  unfold divideBy
  rw [hpath]
  refine exists_forRange (fun _ (v : List D) => v.length = n) (Nat.zero_le _) hmax ?_ hprob
  intro j v hj hv
  obtain ⟨x, hx⟩ := exists_read hv hj
  rw [hx]
  exact exists_store_of_length hv hj _

theorem exists_cumulativeProbability (hn : 1 ≤ n) {probability : List D}
    (hprob : probability.length = n) :
    ∃ v, cumulativeProbability A path probability = some v ∧ v.length = n := by
  obtain ⟨x, hx⟩ := exists_read hprob (Nat.lt_of_lt_of_le Nat.zero_lt_one hn)
  obtain ⟨v, hstore, hv⟩ := exists_store_of_length (j := 0)
    (List.length_replicate : (List.replicate n A.zero).length = n) (by omega) x
  unfold cumulativeProbability
  rw [hpath, hx, Option.bind_eq_bind, Option.bind_some, hstore, Option.bind_eq_bind,
    Option.bind_some]
  refine exists_forRange (fun _ (v : List D) => v.length = n) hn hmax ?_ hv
  intro j v hj hv
  obtain ⟨y, hy⟩ := exists_read (j := j - 1) hv (by omega)
  obtain ⟨z, hz⟩ := exists_read hprob hj
  rw [hy, hz]
  exact exists_store_of_length hv hj _

theorem exists_selectNext (hn : 1 ≤ n) {cumulative : List D} (hlen : cumulative.length = n)
    (r : D) :
    ∃ next, selectNext A path cumulative r = some next ∧ next < n := by
  unfold selectNext
  rw [hpath]
  have htest : ∀ j < n, ∃ t, (cumulative[j]?).map (A.lt r) = some t := by
    intro j hj
    obtain ⟨x, hx⟩ := exists_read hlen hj
    exact ⟨A.lt r x, by rw [hx, Option.map_some]⟩
  obtain ⟨found, hfound, hlt⟩ := exists_search hmax htest
  refine ⟨found.getD 0, by rw [hfound, Option.map_some], ?_⟩
  cases found with
  | none => exact hn
  | some k => exact hlt k rfl

theorem exists_choose (hn : 1 ≤ n) {pheromone : List D} (hpheromone : pheromone.length = n)
    (r : D) :
    ∃ pheromone' next, choose A M P path pheromone r = some (pheromone', next) ∧
      pheromone'.length = n ∧ next < n := by
  obtain ⟨delta, hdelta, hlen₁⟩ := exists_deltaPheromone (A := A) (M := M) hn hmax hpath
  obtain ⟨pheromone', hupdate, hlen₂⟩ :=
    exists_updatePheromone (A := A) (P := P) hmax hpath hlen₁ hpheromone
  obtain ⟨⟨raw, sum⟩, hweights, hlen₃⟩ := exists_weights (A := A) (M := M) (P := P) hmax hpath hlen₂
  obtain ⟨probability, hdivide, hlen₄⟩ := exists_divideBy (A := A) hmax hpath sum hlen₃
  obtain ⟨cumulative, hcumulative, hlen₅⟩ :=
    exists_cumulativeProbability (A := A) hmax hpath hn hlen₄
  obtain ⟨next, hnext, hlt⟩ := exists_selectNext (A := A) hmax hpath hn hlen₅ r
  refine ⟨pheromone', next, ?_, hlen₂, hlt⟩
  unfold choose
  simp only [hdelta, hupdate, hweights, hdivide, hcumulative, hnext, Option.bind_eq_bind,
    Option.bind_some, Option.pure_def]

theorem exists_exchangeNext {next : Nat} (hnext : next < n) :
    ∃ path', exchangeNext path next = some path' ∧ path'.Perm path := by
  unfold exchangeNext
  rw [lastIndex_eq (by omega) hmax hpath]
  by_cases hlast : next = n - 1
  · exact ⟨path, if_neg (not_not.mpr hlast), .refl _⟩
  · rw [if_pos hlast, succ_eq_some hnext hmax, Option.bind_some]
    exact exists_exchange (by omega) (by omega)

omit hmax

theorem exists_exchangeFirst (hn : 2 ≤ n) (rq : D) :
    ∃ path', exchangeFirst A P path rq = some path' ∧ path'.Perm path := by
  unfold exchangeFirst
  split
  · split
    · exact exists_exchange (by omega) (by omega)
    · exact ⟨path, rfl, .refl _⟩
  · exact ⟨path, rfl, .refl _⟩

end Bounds

/-! ## Runs -/

section Runs

variable {D : Type} {A : Arithmetic D} {M : Model D} {P : Parameters D} {n : Nat} {s s' : Ant D}
  {x : Sample D}

/-- The vectors that outlive an iteration have an element for each of the `n` cities. -/
structure Sized (n : Nat) (s : Ant D) : Prop where
  path : s.path.length = n
  pheromone : s.pheromone.length = n

theorem sized_start {first : List Nat} (h : first.length = n) : Sized n (start A first) where
  path := h
  pheromone := by
    unfold start
    rw [List.length_replicate, h]

/-- A sample changes neither `pheromone` nor the number of cities. -/
theorem Sized.sampled (h : Sized n s) {nextPath : List Nat} (hlen : nextPath.length = n) :
    Sized n (sampled A M s nextPath) := by
  unfold AntColony.sampled
  dsimp only
  split
  · exact ⟨hlen, h.pheromone⟩
  · exact h

/-- What an iteration does. -/
theorem iteration_eq_some (h : iteration A M P s x = some s') :
    exchanges A M P (sampled A M s x.nextPath).path (sampled A M s x.nextPath).pheromone x =
        some s'.path ∧
      s'.bestDistance = (sampled A M s x.nextPath).bestDistance := by
  unfold iteration at h
  simp only [Option.bind_eq_bind, Option.bind_eq_some_iff] at h
  obtain ⟨⟨pheromone, next⟩, hchoose, path, hnext, path', hfirst, hs'⟩ := h
  rw [Option.pure_def, Option.some.injEq] at hs'
  subst hs'
  refine ⟨?_, rfl⟩
  unfold exchanges
  simp only [hchoose, hnext, hfirst, Option.bind_eq_bind, Option.bind_some]

/-- **An iteration is defined, and its exchanges permute the tour.** -/
theorem Sized.iteration (h : Sized n s) (hn : 2 ≤ n) (hmax : (n : Int) ≤ CInt.intMax)
    (hlen : x.nextPath.length = n) :
    ∃ s', AntColony.iteration A M P s x = some s' ∧ Sized n s' ∧
      s'.path.Perm (AntColony.sampled A M s x.nextPath).path := by
  have hs : Sized n (AntColony.sampled A M s x.nextPath) := h.sampled hlen
  obtain ⟨pheromone, next, hchoose, hph, hlt⟩ :=
    exists_choose (A := A) (M := M) (P := P) hmax hs.path (by omega) hs.pheromone x.r
  obtain ⟨path₁, hnext, hperm₁⟩ := exists_exchangeNext hmax hs.path hlt
  have hlen₁ : path₁.length = n := hperm₁.length_eq.trans hs.path
  obtain ⟨path₂, hfirst, hperm₂⟩ := exists_exchangeFirst (A := A) (P := P) hlen₁ hn x.rq
  have hperm := hperm₂.trans hperm₁
  refine ⟨{ AntColony.sampled A M s x.nextPath with path := path₂, pheromone := pheromone }, ?_,
    ⟨hperm.length_eq.trans hs.path, hph⟩, hperm⟩
  unfold AntColony.iteration
  simp only [hchoose, hnext, hfirst, Option.bind_eq_bind, Option.bind_some, Option.pure_def]

/-- After a sample the tour is the sampled path or the one before. -/
theorem sampled_path (s : Ant D) (nextPath : List Nat) :
    (sampled A M s nextPath).path = nextPath ∨ (sampled A M s nextPath).path = s.path := by
  unfold sampled
  dsimp only
  split
  · exact .inl rfl
  · exact .inr rfl

/-- **Runs over paths of one length are defined**, and what permutations of a path keep and the
paths have, the result has. -/
theorem exists_ant {T : List Nat → Prop} (hperm : ∀ {p q}, q.Perm p → T p → T q)
    (hlen : ∀ {p}, T p → p.length = n) (hn : 2 ≤ n) (hmax : (n : Int) ≤ CInt.intMax)
    {first : List Nat} (hfirst : T first) {samples : List (Sample D)}
    (hsamples : ∀ x ∈ samples, T x.nextPath) :
    ∃ path, ant A M P first samples = some path ∧ T path := by
  suffices hrun : ∀ s : Ant D, Sized n s → T s.path →
      ∃ s', run (iteration A M P) s samples = some s' ∧ T s'.path by
    obtain ⟨s', hs', hT⟩ := hrun (start A first) (sized_start (hlen hfirst)) hfirst
    exact ⟨s'.path, by rw [ant, hs', Option.map_some], hT⟩
  induction samples with
  | nil => exact fun s _ hT => ⟨s, rfl, hT⟩
  | cons x samples ih =>
    intro s hs hT
    have hx := hsamples x List.mem_cons_self
    obtain ⟨u, hu, hsized, hpath⟩ := hs.iteration (A := A) (M := M) (P := P) hn hmax (hlen hx)
    have hTu : T u.path := by
      refine hperm hpath ?_
      rcases sampled_path (A := A) (M := M) s x.nextPath with heq | heq
      · rw [heq]
        exact hx
      · rw [heq]
        exact hT
    obtain ⟨s', hs', hT'⟩ := ih (fun y hy => hsamples y (List.mem_cons_of_mem x hy)) u hsized hTu
    exact ⟨s', run_cons_eq_some.mpr ⟨u, hu, hs'⟩, hT'⟩

/-- With more than `INT_MAX` cities the counter of the loop over `pheromone` overflows. -/
theorem iteration_overflow (hmax : CInt.intMax < (n : Int)) (h : Sized n s)
    (hlen : x.nextPath.length = n) : iteration A M P s x = none := by
  have hs : Sized n (sampled A M s x.nextPath) := h.sampled hlen
  have hpos : 0 < n := by
    unfold CInt.intMax at hmax
    omega
  have hupdate : ∀ delta, updatePheromone A P (sampled A M s x.nextPath).path delta
      (sampled A M s x.nextPath).pheromone = none := by
    intro delta
    unfold updatePheromone
    rw [hs.path]
    exact forRange_overflow hpos hmax _
  have hchoose : choose A M P (sampled A M s x.nextPath).path
      (sampled A M s x.nextPath).pheromone x.r = none := by
    unfold choose
    simp only [hupdate]
    cases deltaPheromone A M (sampled A M s x.nextPath).path <;> rfl
  unfold iteration
  simp only [hchoose]
  rfl

theorem ant_overflow (hmax : CInt.intMax < (n : Int)) {first : List Nat} (hfirst : first.length = n)
    (hlen : x.nextPath.length = n) (samples : List (Sample D)) :
    ant A M P first (x :: samples) = none := by
  have hnone : iteration A M P (start A first) x = none :=
    iteration_overflow hmax (sized_start hfirst) hlen
  rw [ant, run, hnone, Option.bind_none, Option.map_none]

end Runs

/-! ## Cities on a line -/

/-- `double` as far as it is exact, with the largest `double`; exponents are natural numbers. -/
def rational : Arithmetic ℚ where
  zero := 0
  one := 1
  max := 2 ^ 1024 - 2 ^ 971
  add := (· + ·)
  sub := (· - ·)
  mul := (· * ·)
  div := (· / ·)
  pow := fun x y => x ^ y.num.toNat
  lt := fun x y => decide (x < y)

/-- `Model::get_distance` for cities with the coordinates `(0, 0)`, `(1, 0)`, `(2, 0)` and so on. -/
def lineDistance : List Nat → ℚ
  | a :: b :: path => |(a : ℚ) - b| + lineDistance (b :: path)
  | _ => 0

/-- `Model` for `n` such cities. -/
def line (n : Nat) : Model ℚ where
  getDistance := lineDistance
  getVisibility := fun i =>
    (((List.range n).filter (· ≠ i)).map fun j => 1 / |(i : ℚ) - (j : ℚ)|).sum

/-- `alpha` and `beta` are 1, `rho` is a half, and the first two cities are never exchanged. -/
def plain : Parameters ℚ where
  alpha := 1
  beta := 1
  rho := 1 / 2
  q0 := 0

/-! ## The tour -/

/-- **The ant's tour is a tour.** With 2 to `INT_MAX` cities, whatever the model computes, the
arithmetic gives and the draws are, every index is inside its vector, and the result is a
permutation of the cities. -/
theorem ant_tour {D : Type} (A : Arithmetic D) (M : Model D) (P : Parameters D) (n : Nat)
    (hn : 2 ≤ n) (hmax : (n : Int) ≤ CInt.intMax) (first : List Nat) (hfirst : first.Perm (List.range n))
    (samples : List (Sample D)) (hsamples : ∀ x ∈ samples, x.nextPath.Perm (List.range n)) :
    ∃ path, ant A M P first samples = some path ∧ path.Perm (List.range n) := by
  refine exists_ant (fun hqp hp => hqp.trans hp) (fun hp => ?_) hn hmax hfirst hsamples
  exact hp.length_eq.trans List.length_range

/-- Three cities and two iterations. -/
theorem ant_tour_three :
    ∃ path, ant rational (line 3) plain [2, 0, 1] [⟨[0, 1, 2], 0, 0⟩, ⟨[1, 0, 2], 1 / 2, 0⟩] =
        some path ∧ path.Perm (List.range 3) := by
  refine ant_tour rational (line 3) plain 3 (by decide) (by decide) [2, 0, 1] (by decide) _ ?_
  intro x hx
  simp only [List.mem_cons, List.not_mem_nil, or_false] at hx
  rcases hx with rfl | rfl
  · decide
  · decide

/-- With `2 ^ 31` cities one iteration is not defined. -/
theorem ant_overflow_cities :
    (List.range (2 ^ 31)).Perm (List.range (2 ^ 31)) ∧
      ant rational (line (2 ^ 31)) plain (List.range (2 ^ 31)) [⟨List.range (2 ^ 31), 0, 0⟩] =
        none := by
  refine ⟨.refl _, ?_⟩
  have hmax : CInt.intMax < ((2 ^ 31 : Nat) : Int) := by decide
  exact ant_overflow hmax List.length_range List.length_range []

end CppExamples.Practice.AntColony
