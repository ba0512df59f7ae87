import CppExamples.Lib.Machine
import Mathlib.Algebra.Order.BigOperators.Group.List
import Mathlib.Algebra.Order.Ring.Int

/-!
# `container_source` (`cjunk/tests.cpp:28-56`)

The device of a stream that reads a container. `read` copies at most `n` elements from the position
on and returns their number, or -1, which the stream takes for the end, if it copies none. A
negative `n` makes a range that ends before it begins: no result.

* `exists_run_iff`: the reads of a run have a result if and only if none asks for a negative number.
* `delivered_of_run`: they deliver the beginning of the container, each element once and in order,
  as many as have been asked for or as there are; and the next one returns -1 if and only if nothing
  is left or it asks for nothing.
-/

namespace CppExamples.Streams

open Lib.Machine

/-- `container_` and `pos_`. -/
structure ContainerSource (α : Type) where
  container : List α
  pos : Nat := 0

/-- What `read` returns, and the elements that it copies to `s`. -/
structure Reply (α : Type) where
  result : Int
  copied : List α

namespace ContainerSource

variable {α : Type} {c : ContainerSource α} {n : Int} {ns : List Int}

def read (c : ContainerSource α) (n : Int) : Option (ContainerSource α × Reply α) :=
  let amt := (c.container.length : Int) - c.pos
  let result := min n amt
  if result ≠ 0 then
    if 0 ≤ result then
      some ({ c with pos := c.pos + result.toNat },
        ⟨result, (c.container.drop c.pos).take result.toNat⟩)
    else none
  else some (c, ⟨-1, []⟩)

/-- The reply that goes with some elements. -/
def replyOf (copied : List α) : Reply α := ⟨if copied = [] then -1 else copied.length, copied⟩

/-- What `read` does. -/
theorem read_eq (hpos : c.pos ≤ c.container.length) (hn : 0 ≤ n) :
    read c n = some ({ c with pos := min (c.pos + n.toNat) c.container.length },
      replyOf ((c.container.drop c.pos).take n.toNat)) := by
  have hleft : (c.container.drop c.pos).length = c.container.length - c.pos := List.length_drop
  by_cases hzero : min n ((c.container.length : Int) - c.pos) = 0
  · have hnone : (c.container.drop c.pos).take n.toNat = [] := by
      rw [← List.length_eq_zero_iff, List.length_take, hleft]
      omega
    have hsame : min (c.pos + n.toNat) c.container.length = c.pos := by omega
    simp [read, hzero, hnone, hsame, replyOf]
  · have hpositive : 0 ≤ min n ((c.container.length : Int) - c.pos) := by omega
    have htake : (c.container.drop c.pos).take (min n ((c.container.length : Int) - c.pos)).toNat =
        (c.container.drop c.pos).take n.toNat := by
      rw [List.take_eq_take_iff, hleft]
      omega
    have hlength : ((c.container.drop c.pos).take n.toNat).length =
        (min n ((c.container.length : Int) - c.pos)).toNat := by
      rw [List.length_take, hleft]
      omega
    have hsome : (c.container.drop c.pos).take n.toNat ≠ [] := by
      rw [← List.length_pos_iff, hlength]
      omega
    have hnext : c.pos + (min n ((c.container.length : Int) - c.pos)).toNat =
        min (c.pos + n.toNat) c.container.length := by omega
    rw [read, if_pos hzero, if_pos hpositive, htake, hnext, replyOf, if_neg hsome, hlength,
      Int.toNat_of_nonneg hpositive]

theorem nonneg_of_read {r : ContainerSource α × Reply α} (h : read c n = some r) : 0 ≤ n := by
  by_contra hn
  have hnegative : min n ((c.container.length : Int) - c.pos) < 0 := by omega
  rw [read, if_pos (Int.ne_of_lt hnegative), if_neg (Int.not_le.mpr hnegative)] at h
  cases h

/-! ## Runs -/

/-- What the reads have copied. -/
def copiedOf (log : List (Int × Reply α)) : List α := log.flatMap fun e => e.2.copied

/-- The reads of a run from any position. -/
theorem exists_run (hns : ∀ n ∈ ns, 0 ≤ n) (hpos : c.pos ≤ c.container.length)
    (log : List (Int × Reply α)) (hlog : ∀ e ∈ log, e.2 = replyOf e.2.copied) :
    ∃ log', run (logged read) (c, log) ns =
        some ({ c with pos := min (c.pos + ns.sum.toNat) c.container.length }, log') ∧
      copiedOf log' = copiedOf log ++ (c.container.drop c.pos).take ns.sum.toNat ∧
      ∀ e ∈ log', e.2 = replyOf e.2.copied := by
  induction ns generalizing c log with
  | nil => exact ⟨log, by simp [Nat.min_eq_left hpos], by simp, hlog⟩
  | cons n ns ih =>
    rw [List.forall_mem_cons] at hns
    have hsum : 0 ≤ ns.sum := List.sum_nonneg hns.2
    have hadd : (n + ns.sum).toNat = n.toNat + ns.sum.toNat := Int.toNat_add hns.1 hsum
    have hstep : logged read (c, log) n =
        some ({ c with pos := min (c.pos + n.toNat) c.container.length },
          log ++ [(n, replyOf ((c.container.drop c.pos).take n.toNat))]) := by
      rw [logged, read_eq hpos hns.1, Option.map_some]
    have hlog' : ∀ e ∈ log ++ [(n, replyOf ((c.container.drop c.pos).take n.toNat))],
        e.2 = replyOf e.2.copied := by
      intro e he
      rcases List.mem_append.mp he with he | he
      · exact hlog e he
      · rw [List.mem_singleton.mp he]
        rfl
    obtain ⟨log', hrun, hcopied, hreplies⟩ :=
      ih (c := { c with pos := min (c.pos + n.toNat) c.container.length }) hns.2
        (Nat.min_le_right _ _) _ hlog'
    refine ⟨log', ?_, ?_, hreplies⟩
    · rw [run_cons_eq_some]
      refine ⟨_, hstep, hrun.trans ?_⟩
      have hpos' : min (min (c.pos + n.toNat) c.container.length + ns.sum.toNat) c.container.length =
          min (c.pos + (n.toNat + ns.sum.toNat)) c.container.length := by omega
      rw [List.sum_cons, hadd, ← hpos']
    · rw [hcopied, ← List.drop_eq_drop_min, ← List.drop_drop, List.sum_cons, hadd, List.take_add]
      simp [copiedOf, replyOf]

theorem nonneg_of_run {s s' : ContainerSource α × List (Int × Reply α)}
    (h : run (logged read) s ns = some s') : ∀ n ∈ ns, 0 ≤ n := by
  induction ns generalizing s with
  | nil => exact fun n hn => absurd hn List.not_mem_nil
  | cons n ns ih =>
    obtain ⟨u, hu, hrest⟩ := run_cons_eq_some.mp h
    obtain ⟨reply, hread, -⟩ := logged_eq_some.mp hu
    exact List.forall_mem_cons.mpr ⟨nonneg_of_read hread, ih hrest⟩

/-- **When a run of reads has a result.** -/
theorem exists_run_iff (container : List α) (ns : List Int) :
    (∃ s, run (logged read) (⟨container, 0⟩, []) ns = some s) ↔ ∀ n ∈ ns, 0 ≤ n := by
  constructor
  · rintro ⟨s, hs⟩
    exact nonneg_of_run hs
  · intro hns
    obtain ⟨log', hrun, -⟩ := exists_run (c := ⟨container, 0⟩) hns (Nat.zero_le _) []
      (fun e he => absurd he List.not_mem_nil)
    exact ⟨_, hrun⟩

/-- A reply of -1. -/
theorem replyOf_result_eq {copied : List α} : (replyOf copied).result = -1 ↔ copied = [] := by
  rw [replyOf]
  by_cases hcopied : copied = []
  · simp [hcopied]
  · rw [if_neg hcopied]
    have hlength : (0 : Int) ≤ copied.length := Int.natCast_nonneg _
    constructor
    · intro hresult
      dsimp only at hresult
      omega
    · exact fun hnil => absurd hnil hcopied

/-- **What a run of reads delivers.** All that it copies, one read after the other, is the beginning
of the container, as long as the numbers asked for together; each read returns the number that it
copies, or -1 if it copies nothing, and one more read of `n` elements returns -1 if and only if `n`
is 0 or nothing is left. -/
theorem delivered_of_run (container : List α) (ns : List Int) (c : ContainerSource α)
    (log : List (Int × Reply α))
    (h : run (logged read) (⟨container, 0⟩, []) ns = some (c, log)) :
    (log.flatMap fun e => e.2.copied) = container.take ns.sum.toNat ∧
    (∀ e ∈ log, e.2.result = if e.2.copied = [] then -1 else (e.2.copied.length : Int)) ∧
    ∀ n c' reply, read c n = some (c', reply) →
      (reply.result = -1 ↔ n = 0 ∨ container.length ≤ ns.sum.toNat) := by
  obtain ⟨log', hrun, hcopied, hreplies⟩ := exists_run (c := ⟨container, 0⟩) (nonneg_of_run h)
    (Nat.zero_le _) [] (fun e he => absurd he List.not_mem_nil)
  obtain ⟨rfl, rfl⟩ := Prod.mk.inj (Option.some.inj (hrun.symm.trans h))
  refine ⟨by simpa [copiedOf] using hcopied, fun e he => ?_, fun n c' reply hread => ?_⟩
  · exact congrArg Reply.result (hreplies e he)
  · have hn := nonneg_of_read hread
    rw [read_eq (Nat.min_le_right _ _) hn] at hread
    obtain ⟨-, rfl⟩ := Prod.mk.inj (Option.some.inj hread)
    rw [replyOf_result_eq, ← List.length_eq_zero_iff, List.length_take, List.length_drop]
    dsimp only
    omega

/-- Four characters in reads of 3, 0 and 3. -/
theorem delivered_of_run_four : ∃ c log,
    run (logged read) (⟨['a', 'b', 'c', 'd'], 0⟩, []) [3, 0, 3] = some (c, log) ∧
      (log.flatMap fun e => e.2.copied) = ['a', 'b', 'c', 'd'] :=
  ⟨_, _, rfl, (delivered_of_run ['a', 'b', 'c', 'd'] [3, 0, 3] _ _ rfl).1⟩

end ContainerSource

end CppExamples.Streams
