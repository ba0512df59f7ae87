import CppExamples.Lib.Loop
import Mathlib.Order.Bounds.Basic

/-!
# `Solution::maxProfit` (`cjunk/practice/financialAnalysis.cc:23-41`)

One pass over the prices. `int n = prices.size()` keeps the size modulo `2 ^ 32`, so the loop sees
all prices only if there are at most `INT_MAX` of them. A price below the minimum replaces it; only
the other prices are subtracted, and the difference is never negative.

* `Scanned`: after `i` prices `min_price` is their minimum and `max_profit` their best profit.
* `maxProfit_optimal`: up to `INT_MAX` prices the result is the best profit.
-/

namespace CppExamples.Practice.Solution

open Lib Lib.Loop

/-- The body of the loop, on `min_price` and `max_profit`. -/
def scan (prices : List Int) (i : Nat) (s : Int × Int) : Option (Int × Int) := do
  let price ← prices[i]?
  if price < s.1 then return (price, s.2)
  else
    let profit ← CInt.sub price s.1
    return (s.1, max s.2 profit)

/-- `maxProfit`. -/
def maxProfit (prices : List Int) : Option Int :=
  let n := CInt.ofSize prices.length
  if n = 0 then some 0
  else do
    let minPrice ← prices[0]?
    let s ← forRange 1 n.toNat (scan prices) (minPrice, 0)
    return s.2

/-- What can be earned: nothing, or the difference of a price and one that is not later. -/
def profits (prices : List Int) : Set Int :=
  { d | d = 0 ∨ ∃ (i j : Nat) (a b : Int),
    i ≤ j ∧ prices[i]? = some a ∧ prices[j]? = some b ∧ d = b - a }

/-- After `i` prices. -/
structure Scanned (prices : List Int) (i : Nat) (s : Int × Int) : Prop where
  min_mem : s.1 ∈ prices.take i
  min_le : ∀ a ∈ prices.take i, s.1 ≤ a
  best : IsGreatest (profits (prices.take i)) s.2

/-! ## One more price -/

variable {prices l : List Int} {p d : Int} {i : Nat} {s : Int × Int}

/-- With one more price, a profit is one of those before, or the price is the one that is sold. -/
theorem mem_profits_concat :
    d ∈ profits (l ++ [p]) ↔ d ∈ profits l ∨ ∃ a ∈ l ++ [p], d = p - a := by
  constructor
  · rintro (rfl | ⟨i, j, a, b, hij, ha, hb, rfl⟩)
    · exact .inl (.inl rfl)
    · have hj := (List.getElem?_eq_some_iff.mp hb).1
      rw [List.length_append, List.length_singleton] at hj
      by_cases hlast : j = l.length
      · rw [hlast, List.getElem?_concat_length, Option.some.injEq] at hb
        exact .inr ⟨a, List.mem_of_getElem? ha, by rw [hb]⟩
      · rw [List.getElem?_append_left (by omega)] at ha hb
        exact .inl (.inr ⟨i, j, a, b, hij, ha, hb, rfl⟩)
  · rintro ((rfl | ⟨i, j, a, b, hij, ha, hb, rfl⟩) | ⟨a, ha, rfl⟩)
    · exact .inl rfl
    · have hj := (List.getElem?_eq_some_iff.mp hb).1
      refine .inr ⟨i, j, a, b, hij, ?_, ?_, rfl⟩
      · rw [List.getElem?_append_left (by omega), ha]
      · rw [List.getElem?_append_left hj, hb]
    · obtain ⟨k, hk⟩ := List.getElem?_of_mem ha
      have hlt := (List.getElem?_eq_some_iff.mp hk).1
      rw [List.length_append, List.length_singleton] at hlt
      exact .inr ⟨k, l.length, a, p, by omega, hk, List.getElem?_concat_length, rfl⟩

/-- A profit of the first prices is a profit of all of them. -/
theorem profits_take_subset (i : Nat) : profits (prices.take i) ⊆ profits prices := by
  have hread : ∀ (j : Nat) (a : Int), (prices.take i)[j]? = some a → prices[j]? = some a := by
    intro j a h
    rw [List.getElem?_take] at h
    split at h
    · exact h
    · cases h
  rintro d (rfl | ⟨j, k, a, b, hjk, ha, hb, rfl⟩)
  · exact .inl rfl
  · exact .inr ⟨j, k, a, b, hjk, hread j a ha, hread k b hb, rfl⟩

theorem scanned_one {rest : List Int} : Scanned (p :: rest) 1 (p, 0) where
  min_mem := List.mem_cons_self
  min_le := by
    intro a ha
    rw [List.take_succ_cons, List.take_zero, List.mem_singleton] at ha
    exact Int.le_of_eq ha.symm
  best := by
    refine ⟨.inl rfl, fun d hd => ?_⟩
    rw [List.take_succ_cons, List.take_zero, ← List.nil_append [p], mem_profits_concat] at hd
    rcases hd with (rfl | ⟨i, j, a, b, -, ha, -, -⟩) | ⟨a, ha, rfl⟩
    · exact Int.le_refl _
    · cases ha
    · rw [List.nil_append, List.mem_singleton] at ha
      omega

/-- A price that no earlier one is above cannot be sold with a profit. -/
theorem best_of_min {best : Int} (hbest : IsGreatest (profits l) best)
    (hmin : ∀ a ∈ l ++ [p], p ≤ a) : IsGreatest (profits (l ++ [p])) best := by
  have hpos : 0 ≤ best := hbest.2 (.inl rfl)
  refine ⟨mem_profits_concat.mpr (.inl hbest.1), fun d hd => ?_⟩
  rcases mem_profits_concat.mp hd with hd | ⟨a, ha, rfl⟩
  · exact hbest.2 hd
  · have hle := hmin a ha
    omega

/-- Any other price is sold best if it was bought at the minimum. -/
theorem best_of_sold {best m : Int} (hbest : IsGreatest (profits l) best) (hm : m ∈ l)
    (hmin : ∀ a ∈ l ++ [p], m ≤ a) : IsGreatest (profits (l ++ [p])) (max best (p - m)) := by
  constructor
  · rcases Int.le_total best (p - m) with hle | hle
    · rw [Int.max_eq_right hle]
      exact mem_profits_concat.mpr (.inr ⟨m, List.mem_append_left _ hm, rfl⟩)
    · rw [Int.max_eq_left hle]
      exact mem_profits_concat.mpr (.inl hbest.1)
  · intro d hd
    rcases mem_profits_concat.mp hd with hd | ⟨a, ha, rfl⟩
    · exact Int.le_trans (hbest.2 hd) (Int.le_max_left _ _)
    · have hle := hmin a ha
      exact Int.le_trans (by omega) (Int.le_max_right _ _)

/-- **One iteration.** -/
theorem Scanned.step (h : Scanned prices i s) (hi : i < prices.length)
    (hfit : ∀ d ∈ profits prices, d ≤ CInt.intMax) :
    ∃ s', scan prices i s = some s' ∧ Scanned prices (i + 1) s' := by
  obtain ⟨m, best⟩ := s
  have hprice : prices[i]? = some prices[i] := List.getElem?_eq_getElem hi
  have hnext : prices.take (i + 1) = prices.take i ++ [prices[i]] :=
    List.take_succ_eq_append_getElem hi
  have hmin : ∀ a ∈ prices.take i ++ [prices[i]], min m prices[i] ≤ a := by
    intro a ha
    rw [List.mem_append, List.mem_singleton] at ha
    rcases ha with ha | rfl
    · exact Int.le_trans (Int.min_le_left _ _) (h.min_le a ha)
    · exact Int.min_le_right _ _
  unfold scan
  rw [hprice, Option.bind_eq_bind, Option.bind_some]
  by_cases hlt : prices[i] < m
  · rw [Int.min_eq_right (Int.le_of_lt hlt)] at hmin
    refine ⟨(prices[i], best), if_pos hlt, ?_, hnext ▸ hmin, hnext ▸ best_of_min h.best hmin⟩
    rw [hnext]
    exact List.mem_concat_self
  · rw [Int.min_eq_left (Int.not_lt.mp hlt)] at hmin
    have hsold : prices[i] - m ∈ profits (prices.take (i + 1)) := by
      rw [hnext]
      exact mem_profits_concat.mpr (.inr ⟨m, List.mem_append_left _ h.min_mem, rfl⟩)
    have hsub : CInt.sub prices[i] m = some (prices[i] - m) := by
      refine CInt.checked_eq_some ?_ (hfit _ (profits_take_subset _ hsold))
      unfold CInt.intMin
      omega
    refine ⟨(m, max best (prices[i] - m)), ?_, ?_, hnext ▸ hmin,
      hnext ▸ best_of_sold h.best h.min_mem hmin⟩
    · rw [if_neg hlt, hsub]
      rfl
    · rw [hnext]
      exact List.mem_append_left _ h.min_mem

/-! ## The result -/

/-- **The result is the best profit**, with at most `INT_MAX` prices whose differences fit in an
`int`. Every subtraction is in range. -/
theorem maxProfit_optimal (prices : List Int) (hlen : (prices.length : Int) ≤ CInt.intMax)
    (hfit : ∀ d ∈ profits prices, d ≤ CInt.intMax) :
    ∃ r, maxProfit prices = some r ∧ IsGreatest (profits prices) r := by
  unfold maxProfit
  rw [CInt.ofSize_of_le hlen]
  cases prices with
  | nil =>
    refine ⟨0, rfl, .inl rfl, ?_⟩
    rintro d (rfl | ⟨i, j, a, b, -, ha, -, -⟩)
    · exact Int.le_refl _
    · cases ha
  | cons p rest =>
    have hne : ((p :: rest).length : Int) ≠ 0 := by
      rw [List.length_cons]
      omega
    obtain ⟨s, hs, hscanned⟩ := exists_forRange (Scanned (p :: rest))
      (Nat.succ_le_of_lt (List.length_pos_of_ne_nil (List.cons_ne_nil p rest))) hlen
      (fun i s hi h => h.step hi hfit) scanned_one
    refine ⟨s.2, ?_, ?_⟩
    · rw [if_neg hne, List.getElem?_cons_zero, Int.toNat_natCast, Option.bind_eq_bind,
        Option.bind_some, hs]
      rfl
    · have hbest := hscanned.best
      rwa [List.take_length] at hbest

/-- Differences of prices that are not negative fit in an `int`. -/
theorem profits_le_of_nonneg (h : ∀ a ∈ prices, 0 ≤ a ∧ a ≤ CInt.intMax) :
    ∀ d ∈ profits prices, d ≤ CInt.intMax := by
  rintro d (rfl | ⟨i, j, a, b, -, ha, hb, rfl⟩)
  · decide
  · have hlow := (h a (List.mem_of_getElem? ha)).1
    have hhigh := (h b (List.mem_of_getElem? hb)).2
    omega

/-- The six prices of `main`. -/
theorem maxProfit_optimal_six :
    ∃ r, maxProfit [7, 1, 5, 3, 6, 4] = some r ∧ IsGreatest (profits [7, 1, 5, 3, 6, 4]) r :=
  maxProfit_optimal _ (by decide) (profits_le_of_nonneg (by decide))

/-- With `2 ^ 31` prices `n` is negative, and the loop is not entered. -/
theorem maxProfit_narrowed {rest : List Int} (hlen : (p :: rest).length = 2 ^ 31) :
    maxProfit (p :: rest) = some 0 := by
  unfold maxProfit
  rw [hlen]
  rfl

/-- Prices 0, 1, 1, … of which there are `2 ^ 31`: the result is 0, and 1 can be earned. -/
theorem maxProfit_misses_profit :
    (∀ d ∈ profits (0 :: List.replicate (2 ^ 31 - 1) 1), d ≤ CInt.intMax) ∧
      maxProfit (0 :: List.replicate (2 ^ 31 - 1) 1) = some 0 ∧
      (1 : Int) ∈ profits (0 :: List.replicate (2 ^ 31 - 1) 1) := by
  refine ⟨profits_le_of_nonneg fun a ha => ?_, ?_, ?_⟩
  · rcases List.mem_cons.mp ha with rfl | ha
    · decide
    · rw [List.eq_of_mem_replicate ha]
      decide
  · have hlen : (0 :: List.replicate (2 ^ 31 - 1) (1 : Int)).length = 2 ^ 31 - 1 + 1 := by
      rw [List.length_cons, List.length_replicate]
    exact maxProfit_narrowed (hlen.trans (Nat.sub_add_cancel Nat.one_le_two_pow))
  · refine .inr ⟨0, 1, 0, 1, Nat.zero_le 1, rfl, ?_, rfl⟩
    rw [List.getElem?_cons_succ, List.getElem?_replicate, if_pos (by decide)]

end CppExamples.Practice.Solution
