import CppExamples.Lib.Loop
import Mathlib.Algebra.BigOperators.Group.List.Basic
import Mathlib.Algebra.Order.BigOperators.Group.List
import Mathlib.Algebra.Order.Field.Basic
import Mathlib.Algebra.Order.Field.Rat
import Mathlib.Data.List.GetD
import Mathlib.Order.Bounds.Basic
import Mathlib.Tactic.Linarith

/-!
# Resampling in `ParticleFilter` (`cjunk/practice/geoParticleFilter.cc:32-61`)

`normalize` divides the weights by their sum, `resample` draws a number for each particle and walks
along the cumulative weights until they reach it. The weights and the draws are rational numbers,
and the arithmetic is exact. The counters are `int`s; the inner loop has no bound, and where it
reads behind the last cumulative weight there is no result.

* `resample_interval`: for normalized weights the walk stops in the vector, at the first cumulative
  weight that the draw does not exceed.
* `resample_positive_iff`: the weights found there are positive unless the first weight is 0 and so
  is a draw.
-/

namespace CppExamples.Practice.ParticleFilter

open Lib Lib.Loop

/-- `normalize`. -/
def normalize (weights : List ℚ) : Option (List ℚ) :=
  let sum := weights.foldl (· + ·) 0
  forRange 0 weights.length (fun i normalizedWeights => do
    let w ← weights[i]?
    return normalizedWeights ++ [w / sum]) []

/-- `cumulative_weights`. -/
def cumulativeWeights (weights : List ℚ) : Option (List ℚ) := do
  let w ← weights[0]?
  forRange 1 weights.length (fun i cumulativeWeights => do
    let c ← cumulativeWeights[i - 1]?
    let w ← weights[i]?
    return cumulativeWeights ++ [c + w]) [w]

/-- `while(random_number > cumulative_weights[index]) index++`, where the cumulative weights from
`index` on are given. -/
def walk (randomNumber : ℚ) : Nat → List ℚ → Option Nat
  | _, [] => none
  | index, c :: cs =>
    if randomNumber > c then (succ index).bind fun index => walk randomNumber index cs
    else some index

/-- The body of the loop of `resample`. `draws` is what `dis(gen)` returns. -/
def resampleStep {α : Type} (particles : List α) (cumulative draws : List ℚ) (i : Nat)
    (resampledParticles : List α) : Option (List α) := do
  let randomNumber ← draws[i]?
  let index ← walk randomNumber 0 cumulative
  let particle ← particles[index]?
  return resampledParticles ++ [particle]

/-- `resample`. -/
def resample {α : Type} (particles : List α) (weights draws : List ℚ) : Option (List α) := do
  let cumulative ← cumulativeWeights weights
  forRange 0 particles.length (resampleStep particles cumulative draws) []

/-- The sum of the weights up to the `i`-th. -/
def upTo (weights : List ℚ) (i : Nat) : ℚ := (weights.take (i + 1)).sum

/-- The first `n` draws: each picks the particle at the least index whose cumulative weight it does
not exceed. -/
structure Picks {α : Type} (weights draws : List ℚ) (particles : List α) (n : Nat)
    (resampled : List α) : Prop where
  length_eq : resampled.length = n
  pick : ∀ k < n, ∀ r, draws[k]? = some r →
    ∃ i < weights.length, IsLeast { i | r ≤ upTo weights i } i ∧ resampled[k]? = particles[i]?

/-! ## The loops -/

variable {weights : List ℚ} (hlen : (weights.length : Int) ≤ CInt.intMax)

/-- The vector of the members below its length. -/
theorem map_range_getD (f : ℚ → ℚ) :
    (List.range weights.length).map (fun i => f (weights.getD i 0)) = weights.map f := by
  refine List.ext_getElem (by simp) fun i h₁ h₂ => ?_
  rw [List.length_map] at h₂
  simp [h₂]

theorem upTo_succ {i : Nat} (h : i + 1 < weights.length) :
    upTo weights (i + 1) = upTo weights i + weights[i + 1] := by
  unfold upTo
  rw [List.take_succ_eq_append_getElem h, List.sum_append, List.sum_singleton]

theorem upTo_zero (h : 0 < weights.length) : upTo weights 0 = weights[0] := by
  unfold upTo
  rw [List.take_succ_eq_append_getElem h, List.take_zero, List.nil_append, List.sum_singleton]

include hlen

theorem normalize_eq : normalize weights = some (weights.map (· / weights.sum)) := by
  have hsum : weights.foldl (· + ·) 0 = weights.sum := List.sum_eq_foldl.symm
  unfold normalize
  rw [hsum, ← map_range_getD]
  refine forRange_push (fun i => weights.getD i 0 / weights.sum) (Nat.zero_le _) hlen ?_
  intro i _ hi
  simp [hi]

theorem cumulativeWeights_eq (hne : weights ≠ []) :
    cumulativeWeights weights = some ((List.range weights.length).map (upTo weights)) := by
  have hpos : 0 < weights.length := List.length_pos_of_ne_nil hne
  unfold cumulativeWeights
  rw [List.getElem?_eq_getElem hpos, Option.bind_eq_bind, Option.bind_some]
  have hfirst : [weights[0]] = (List.range 1).map (upTo weights) := by
    rw [List.range_one, List.map_singleton, upTo_zero hpos]
  rw [hfirst]
  refine forRange_push (upTo weights) hpos hlen ?_
  intro i hi hlt
  obtain ⟨k, rfl⟩ := Nat.exists_eq_add_of_le' hi
  rw [Nat.add_sub_cancel, List.getElem?_map, List.getElem?_range (Nat.lt_succ_self k),
    List.getElem?_eq_getElem hlt, upTo_succ hlt]
  rfl

omit hlen

/-- The walk stops at the first cumulative weight that the draw does not exceed. -/
theorem exists_walk {r : ℚ} {cs : List ℚ} {j : Nat}
    (hint : ((j + cs.length : Nat) : Int) ≤ CInt.intMax)
    (hstop : ∃ (k : Nat) (c : ℚ), cs[k]? = some c ∧ r ≤ c) :
    ∃ (i : Nat) (c : ℚ), walk r j cs = some (j + i) ∧ cs[i]? = some c ∧ r ≤ c ∧
      ∀ k < i, ∀ c, cs[k]? = some c → c < r := by
  induction cs generalizing j with
  | nil =>
    obtain ⟨k, c, hc, -⟩ := hstop
    cases hc
  | cons d cs ih =>
    rw [List.length_cons] at hint
    unfold walk
    by_cases hd : r > d
    · have hstop' : ∃ (k : Nat) (c : ℚ), cs[k]? = some c ∧ r ≤ c := by
        obtain ⟨k, c, hc, hrc⟩ := hstop
        cases k with
        | zero =>
          rw [List.getElem?_cons_zero, Option.some.injEq] at hc
          exact absurd (hc ▸ hrc) (not_le.mpr hd)
        | succ k => exact ⟨k, c, hc, hrc⟩
      obtain ⟨i, c, hwalk, hc, hrc, hbefore⟩ := @ih (j + 1) (by omega) hstop'
      have hsucc : succ j = some (j + 1) := if_pos (by omega)
      refine ⟨i + 1, c, ?_, hc, hrc, ?_⟩
      · have hindex : j + 1 + i = j + (i + 1) := by omega
        rw [if_pos hd, hsucc, Option.bind_some, hwalk, hindex]
      · intro k hk b hb
        cases k with
        | zero => exact Option.some.inj hb ▸ hd
        | succ k => exact hbefore k (by omega) b hb
    · exact ⟨0, d, if_neg hd, rfl, not_lt.mp hd, fun k hk => absurd hk (Nat.not_lt_zero k)⟩

/-- Along the cumulative weights of `weights` the walk stops at the least index whose cumulative
weight reaches the draw. -/
theorem exists_walk_upTo (hlen : (weights.length : Int) ≤ CInt.intMax) (hne : weights ≠ []) {r : ℚ}
    (hr : r ≤ weights.sum) :
    ∃ i, walk r 0 ((List.range weights.length).map (upTo weights)) = some i ∧ i < weights.length ∧
      IsLeast { i | r ≤ upTo weights i } i := by
  have hpos : 0 < weights.length := List.length_pos_of_ne_nil hne
  have hread : ∀ k < weights.length,
      ((List.range weights.length).map (upTo weights))[k]? = some (upTo weights k) := by
    intro k hk
    rw [List.getElem?_map, List.getElem?_range hk, Option.map_some]
  have hlast : upTo weights (weights.length - 1) = weights.sum := by
    unfold upTo
    rw [Nat.sub_add_cancel hpos, List.take_length]
  obtain ⟨i, c, hwalk, hc, hrc, hbefore⟩ := exists_walk (j := 0)
    (by rw [List.length_map, List.length_range, Nat.zero_add]; exact hlen)
    ⟨weights.length - 1, _, hread _ (by omega), hlast ▸ hr⟩
  have hi : i < weights.length := by
    have := (List.getElem?_eq_some_iff.mp hc).1
    rwa [List.length_map, List.length_range] at this
  rw [hread i hi, Option.some.injEq] at hc
  subst hc
  refine ⟨i, by rw [hwalk, Nat.zero_add], hi, hrc, ?_⟩
  intro k hk
  by_contra hlt
  rw [not_le] at hlt
  exact absurd (hbefore k hlt _ (hread k (by omega))) (not_lt.mpr hk)

/-- Normalized weights have the sum 1. -/
theorem sum_normalized (hsum : weights.sum ≠ 0) : (weights.map (· / weights.sum)).sum = 1 := by
  have hdiv : ∀ (l : List ℚ) (d : ℚ), (l.map (· / d)).sum = l.sum / d := by
    intro l d
    induction l with
    | nil => rw [List.map_nil, List.sum_nil, zero_div]
    | cons w l ih => rw [List.map_cons, List.sum_cons, List.sum_cons, ih, add_div]
  rw [hdiv, div_self hsum]

/-- One more draw, which the sum of the weights is not below. -/
theorem Picks.step {α : Type} (hlen : (weights.length : Int) ≤ CInt.intMax) (hne : weights ≠ [])
    {particles resampled : List α} (hparticles : particles.length = weights.length)
    {draws : List ℚ} {n : Nat} (h : Picks weights draws particles n resampled)
    (hn : n < draws.length) (hr : draws[n] ≤ weights.sum) :
    ∃ resampled', resampleStep particles ((List.range weights.length).map (upTo weights)) draws n
        resampled = some resampled' ∧ Picks weights draws particles (n + 1) resampled' := by
  obtain ⟨rfl, hpick⟩ := h
  have hdraw : draws[resampled.length]? = some draws[resampled.length] :=
    List.getElem?_eq_getElem hn
  obtain ⟨i, hwalk, hi, hleast⟩ := exists_walk_upTo hlen hne hr
  have hparticle : particles[i]? = some particles[i] := List.getElem?_eq_getElem (by omega)
  refine ⟨resampled ++ [particles[i]], ?_, by simp, ?_⟩
  · unfold resampleStep
    rw [hdraw, Option.bind_eq_bind, Option.bind_some, hwalk, Option.bind_eq_bind,
      Option.bind_some, hparticle]
    rfl
  · intro k hk r hrk
    by_cases hlast : k = resampled.length
    · subst hlast
      rw [hdraw, Option.some.injEq] at hrk
      subst hrk
      exact ⟨i, hi, hleast, by rw [List.getElem?_concat_length, hparticle]⟩
    · have hlt : k < resampled.length := by omega
      obtain ⟨l, hl, hleast', hread⟩ := hpick k hlt r hrk
      exact ⟨l, hl, hleast', by rw [List.getElem?_append_left hlt, hread]⟩

/-- The loop over the particles, for weights whose sum no draw exceeds. -/
theorem exists_resample {α : Type} (hlen : (weights.length : Int) ≤ CInt.intMax) (hne : weights ≠ [])
    {particles : List α} (hparticles : particles.length = weights.length) {draws : List ℚ}
    (hdraws : draws.length = particles.length) (hr : ∀ r ∈ draws, r ≤ weights.sum) :
    ∃ resampled, resample particles weights draws = some resampled ∧
      Picks weights draws particles particles.length resampled := by
  have hbound : (particles.length : Int) ≤ CInt.intMax := hparticles ▸ hlen
  unfold resample
  rw [cumulativeWeights_eq hlen hne, Option.bind_eq_bind, Option.bind_some]
  refine exists_forRange (Picks weights draws particles) (Nat.zero_le _) hbound ?_
    ⟨rfl, fun k hk => absurd hk (Nat.not_lt_zero k)⟩
  intro n res hn h
  have hlt : n < draws.length := hdraws ▸ hn
  exact h.step hlen hne hparticles hlt (hr _ (List.getElem_mem hlt))

/-- `resample` after `normalize`. -/
theorem exists_resample_normalized {α : Type} (hlen : (weights.length : Int) ≤ CInt.intMax)
    (hsum : 0 < weights.sum) {particles : List α} (hparticles : particles.length = weights.length)
    {draws : List ℚ} (hdraws : draws.length = particles.length) (hr : ∀ r ∈ draws, 0 ≤ r ∧ r < 1) :
    ∃ resampled, resample particles (weights.map (· / weights.sum)) draws = some resampled ∧
      Picks (weights.map (· / weights.sum)) draws particles particles.length resampled := by
  have hlength : (weights.map (· / weights.sum)).length = weights.length := List.length_map _
  have hne : weights.map (· / weights.sum) ≠ [] := by
    rw [Ne, List.map_eq_nil_iff]
    rintro rfl
    exact lt_irrefl 0 hsum
  refine exists_resample (hlength.symm ▸ hlen) hne (hparticles.trans hlength.symm) hdraws ?_
  intro r hmem
  rw [sum_normalized hsum.ne']
  exact (hr r hmem).2.le

/-! ## Results -/

/-- **Resampling picks the right interval.** For at most `INT_MAX` weights with a positive sum every
walk stops inside the vector, as many particles come out as went in, and the particle for a draw is
the one at the least index whose cumulative normalized weight the draw does not exceed. -/
theorem resample_interval {α : Type} (weights : List ℚ) (hsum : 0 < weights.sum)
    (hlen : (weights.length : Int) ≤ CInt.intMax) (particles : List α)
    (hparticles : particles.length = weights.length) (draws : List ℚ)
    (hdraws : draws.length = particles.length) (hr : ∀ r ∈ draws, 0 ≤ r ∧ r < 1) :
    ∃ normalized resampled, normalize weights = some normalized ∧
      resample particles normalized draws = some resampled ∧
      Picks normalized draws particles particles.length resampled := by
  obtain ⟨resampled, hres, hpicks⟩ :=
    exists_resample_normalized hlen hsum hparticles hdraws hr
  exact ⟨_, resampled, normalize_eq hlen, hres, hpicks⟩

/-- Weights 1, 0 and 3, with draws at both ends of the first interval and in the last one. -/
theorem resample_interval_three : ∃ normalized resampled,
    normalize [1, 0, 3] = some normalized ∧
      resample ["a", "b", "c"] normalized [0, 1 / 4, 1 / 2] = some resampled ∧
      Picks normalized [0, 1 / 4, 1 / 2] ["a", "b", "c"] 3 resampled :=
  resample_interval [1, 0, 3] (by norm_num) (by decide) ["a", "b", "c"] rfl [0, 1 / 4, 1 / 2] rfl
    (by norm_num)

/-- Beyond `INT_MAX` weights the counter of `normalize` overflows. -/
theorem normalize_overflow (h : CInt.intMax < (weights.length : Int)) : normalize weights = none := by
  refine forRange_overflow ?_ h []
  unfold CInt.intMax at h
  omega

/-- `2 ^ 31` weights 1. -/
theorem normalize_not_defined : (∀ w ∈ List.replicate (2 ^ 31) (1 : ℚ), 0 ≤ w) ∧
    0 < (List.replicate (2 ^ 31) (1 : ℚ)).sum ∧ normalize (List.replicate (2 ^ 31) 1) = none := by
  refine ⟨fun w hw => ?_, ?_, normalize_overflow ?_⟩
  · rw [List.eq_of_mem_replicate hw]
    exact zero_le_one
  · rw [List.sum_replicate]
    norm_num
  · rw [List.length_replicate]
    decide

/-- A draw that picks an index behind the first picks a positive weight. -/
theorem pos_of_isLeast {ws : List ℚ} {r : ℚ} {i : Nat} (hi : i + 1 < ws.length)
    (h : IsLeast { i | r ≤ upTo ws i } (i + 1)) : 0 < ws[i + 1] := by
  have hreach : r ≤ upTo ws i + ws[i + 1] := upTo_succ hi ▸ h.1
  have hbefore : upTo ws i < r := by
    by_contra hle
    exact absurd (h.2 (not_lt.mp hle)) (Nat.not_succ_le_self i)
  linarith

/-- The picked weight is positive unless the draw and the first weight are both 0. -/
theorem pick_pos_iff (hnonneg : ∀ w ∈ weights, 0 ≤ w) (hsum : 0 < weights.sum) {r : ℚ} (hr : 0 ≤ r)
    {i : Nat} (hi : i < weights.length)
    (h : IsLeast { i | r ≤ upTo (weights.map (· / weights.sum)) i } i) :
    0 < weights.getD i 0 ↔ 0 < r ∨ 0 < weights.getD 0 0 := by
  have hpos : 0 < weights.length := by omega
  have hget : ∀ k (hk : k < weights.length),
      0 < weights.getD k 0 ↔ 0 < weights[k] / weights.sum := by
    intro k hk
    rw [List.getD_eq_getElem _ _ hk, div_pos_iff_of_pos_right hsum]
  have hfirst : upTo (weights.map (· / weights.sum)) 0 = weights[0] / weights.sum := by
    rw [upTo_zero (by rwa [List.length_map]), List.getElem_map]
  rw [hget i hi, hget 0 hpos]
  cases i with
  | zero =>
    refine ⟨.inr, ?_⟩
    rintro (hlt | hlt)
    · exact hlt.trans_le (hfirst ▸ h.1)
    · exact hlt
  | succ i =>
    have hpick : 0 < weights[i + 1] / weights.sum := by
      have := pos_of_isLeast (by rwa [List.length_map]) h
      rwa [List.getElem_map] at this
    refine iff_of_true hpick (.inl ?_)
    -- a draw of 0 would already stop at the first weight
    by_contra hzero
    have hstop : r ≤ upTo (weights.map (· / weights.sum)) 0 := by
      rw [hfirst, le_antisymm (not_lt.mp hzero) hr]
      exact div_nonneg (hnonneg _ (List.getElem_mem hpos)) hsum.le
    exact absurd (h.2 hstop) (Nat.not_succ_le_zero i)

/-- Each draw picks an index, where the particles stand for their own indices. -/
theorem Picks.exists_pick {draws : List ℚ} {n : Nat} {resampled : List Nat}
    (h : Picks weights draws (List.range weights.length) n resampled) (hn : draws.length = n)
    {r : ℚ} (hr : r ∈ draws) :
    ∃ i < weights.length, IsLeast { i | r ≤ upTo weights i } i ∧ i ∈ resampled := by
  obtain ⟨k, hk⟩ := List.getElem?_of_mem hr
  have hlt := (List.getElem?_eq_some_iff.mp hk).1
  obtain ⟨i, hi, hleast, hread⟩ := h.pick k (hn ▸ hlt) r hk
  rw [List.getElem?_range hi] at hread
  exact ⟨i, hi, hleast, List.mem_of_getElem? hread⟩

/-- Each index is picked by a draw. -/
theorem Picks.exists_draw {draws : List ℚ} {n : Nat} {resampled : List Nat}
    (h : Picks weights draws (List.range weights.length) n resampled) (hn : draws.length = n)
    {i : Nat} (hi : i ∈ resampled) :
    i < weights.length ∧ ∃ r ∈ draws, IsLeast { i | r ≤ upTo weights i } i := by
  obtain ⟨k, hk⟩ := List.getElem?_of_mem hi
  have hlt := (List.getElem?_eq_some_iff.mp hk).1
  rw [h.length_eq] at hlt
  have hlt' : k < draws.length := hn ▸ hlt
  have hdraw : draws[k]? = some draws[k] := List.getElem?_eq_getElem hlt'
  obtain ⟨j, hj, hleast, hread⟩ := h.pick k hlt _ hdraw
  rw [List.getElem?_range hj, hk, Option.some.injEq] at hread
  subst hread
  exact ⟨hj, draws[k], List.getElem_mem hlt', hleast⟩

/-- **A dead particle is picked only first.** The particles stand for their own indices. For weights
that are not negative, with a positive sum, and draws in `[0, 1)`, all picked indices have a
positive weight if and only if there are at most `INT_MAX` weights, and no draw is 0 or the first
weight is positive. -/
theorem resample_positive_iff (weights : List ℚ) (hnonneg : ∀ w ∈ weights, 0 ≤ w)
    (hsum : 0 < weights.sum) (draws : List ℚ) (hdraws : draws.length = weights.length)
    (hr : ∀ r ∈ draws, 0 ≤ r ∧ r < 1) :
    (∃ normalized resampled, normalize weights = some normalized ∧
      resample (List.range weights.length) normalized draws = some resampled ∧
      ∀ i ∈ resampled, 0 < weights.getD i 0) ↔
    (weights.length : Int) ≤ CInt.intMax ∧ ((∀ r ∈ draws, 0 < r) ∨ 0 < weights.getD 0 0) := by
  have hlength : (weights.map (· / weights.sum)).length = weights.length := List.length_map _
  constructor
  · rintro ⟨normalized, resampled, hnorm, hres, hpositive⟩
    have hlen : (weights.length : Int) ≤ CInt.intMax := by
      by_contra hlt
      rw [normalize_overflow (not_le.mp hlt)] at hnorm
      cases hnorm
    refine ⟨hlen, ?_⟩
    rw [normalize_eq hlen, Option.some.injEq] at hnorm
    subst hnorm
    obtain ⟨res, hres', hpicks⟩ := exists_resample_normalized hlen hsum List.length_range
      (hdraws.trans List.length_range.symm) hr
    rw [hres', Option.some.injEq] at hres
    subst hres
    rw [List.length_range, ← hlength] at hpicks
    by_cases hfirst : 0 < weights.getD 0 0
    · exact .inr hfirst
    · refine .inl fun r hmem => ?_
      obtain ⟨i, hi, hleast, hpicked⟩ := hpicks.exists_pick (hdraws.trans hlength.symm) hmem
      have hpos := (pick_pos_iff hnonneg hsum (hr r hmem).1 (hlength ▸ hi) hleast).mp
        (hpositive i hpicked)
      exact hpos.resolve_right hfirst
  · rintro ⟨hlen, hpos⟩
    obtain ⟨resampled, hres, hpicks⟩ := exists_resample_normalized hlen hsum List.length_range
      (hdraws.trans List.length_range.symm) hr
    refine ⟨_, resampled, normalize_eq hlen, hres, fun i hmem => ?_⟩
    rw [List.length_range, ← hlength] at hpicks
    obtain ⟨hi, r, hdraw, hleast⟩ := hpicks.exists_draw (hdraws.trans hlength.symm) hmem
    exact (pick_pos_iff hnonneg hsum (hr r hdraw).1 (hlength ▸ hi) hleast).mpr
      (hpos.imp_left fun h => h r hdraw)

/-- Weights 0 and 1: a positive draw picks the second particle. -/
theorem resample_positive_two : ∃ normalized resampled, normalize [0, 1] = some normalized ∧
    resample (List.range 2) normalized [1 / 3, 2 / 3] = some resampled ∧
    ∀ i ∈ resampled, (0 : ℚ) < [0, 1].getD i 0 :=
  (resample_positive_iff [0, 1] (by norm_num) (by norm_num) [1 / 3, 2 / 3] rfl (by norm_num)).mpr
    ⟨by decide, .inl (by norm_num)⟩

/-- Weights 0 and 1: a draw of 0 picks the first particle. -/
theorem resample_picks_dead : (∀ w ∈ [(0 : ℚ), 1], 0 ≤ w) ∧ 0 < [(0 : ℚ), 1].sum ∧
    normalize [0, 1] = some [0, 1] ∧ resample [0, 1] [0, 1] [0, 1 / 2] = some [0, 1] := by
  refine ⟨by norm_num, by norm_num, by decide +kernel, by decide +kernel⟩

end CppExamples.Practice.ParticleFilter
