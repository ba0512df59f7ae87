import Mathlib.Algebra.BigOperators.Group.Finset.Basic
import Mathlib.Data.Fintype.BigOperators
import Mathlib.Algebra.Order.BigOperators.Group.Finset

/-!
# Counting threads

Threads are the elements of a finite type, each at a place of its program. `tally w pc` adds up
the weights `w` of the places; a step of one thread changes it by the weights of its two places.
-/

namespace CppExamples.Lib.Threads

variable {ι P : Type*} [Fintype ι]

/-- The weights of all threads' places. -/
def tally (w : P → Nat) (pc : ι → P) : Nat := ∑ t, w (pc t)

/-- One thread moves from its place to `p`. -/
theorem tally_update [DecidableEq ι] (w : P → Nat) (pc : ι → P) (t : ι) (p : P) :
    tally w (Function.update pc t p) + w (pc t) = tally w pc + w p := by
  have hrest : ∑ u ∈ Finset.univ.erase t, w (Function.update pc t p u) =
      ∑ u ∈ Finset.univ.erase t, w (pc u) := by
    refine Finset.sum_congr rfl fun u hu => ?_
    rw [Function.update_of_ne (Finset.ne_of_mem_erase hu)]
  have hnew := Finset.sum_erase_add Finset.univ (fun u => w (Function.update pc t p u))
    (Finset.mem_univ t)
  have hold := Finset.sum_erase_add Finset.univ (fun u => w (pc u)) (Finset.mem_univ t)
  rw [Function.update_self] at hnew
  unfold tally
  omega

omit [Fintype ι] in
/-- What holds at every thread's place still does where one thread moves to such a place. -/
theorem forall_update [DecidableEq ι] {A : P → Prop} {pc : ι → P} (h : ∀ u, A (pc u)) (t : ι)
    {p : P} (hp : A p) : ∀ u, A (Function.update pc t p u) := by
  intro u
  by_cases hu : u = t
  · rw [hu, Function.update_self]
    exact hp
  · rw [Function.update_of_ne hu]
    exact h u

end CppExamples.Lib.Threads
