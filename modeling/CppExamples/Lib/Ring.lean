import Mathlib.Data.Nat.ModEq
import Mathlib.Logic.Function.Basic

/-!
# A queue in a ring of slots

`N` slots, numbered modulo `N`. `Holds data start q` says that the queue `q`, oldest element
first, stands in the slots from number `start` on. The numbers count on without end; only their
residues designate slots, so `start` may be replaced by any number of the same residue.

* `Holds.put`: writing the slot behind the last element appends, as long as a slot is free.
* `Holds.take`: the slot at `start` has the oldest element, and the rest stands behind it.
* `Holds.set`: writing the slot of one element replaces it and no other.
-/

namespace CppExamples.Lib.Ring

variable {α : Type*} {N : Nat} [NeZero N]

/-- The slot with number `k`. -/
def slot (N : Nat) [NeZero N] (k : Nat) : Fin N := Fin.ofNat N k

theorem slot_val (k : Nat) : (slot N k).val = k % N := rfl

theorem slot_eq_iff {j k : Nat} : slot N j = slot N k ↔ j % N = k % N := by
  rw [← Fin.val_inj, slot_val, slot_val]

theorem slot_of_lt {k : Nat} (h : k < N) : slot N k = ⟨k, h⟩ :=
  Fin.ext (Nat.mod_eq_of_lt h)

/-- Numbers less than `N` apart designate different slots. -/
theorem slot_ne {j k : Nat} (hjk : j < k) (hk : k < j + N) : slot N j ≠ slot N k := by
  intro h
  have hdvd : N ∣ k - j := (Nat.modEq_iff_dvd' hjk.le).mp (slot_eq_iff.mp h)
  exact absurd (Nat.le_of_dvd (by omega) hdvd) (by omega)

/-- The queue `q` stands in the slots from `start` on. -/
structure Holds (data : Fin N → α) (start : Nat) (q : List α) : Prop where
  length_le : q.length ≤ N
  at_slot : ∀ i (h : i < q.length), data (slot N (start + i)) = q.get ⟨i, h⟩

namespace Holds

variable {data : Fin N → α} {start : Nat} {q : List α} {x : α}

theorem nil (data : Fin N → α) (start : Nat) : Holds data start [] where
  length_le := Nat.zero_le N
  at_slot := fun _ h => absurd h (Nat.not_lt_zero _)

theorem congr_start {start' : Nat} (h : Holds data start q) (hs : start % N = start' % N) :
    Holds data start' q where
  length_le := h.length_le
  at_slot := by
    intro i hi
    rw [← h.at_slot i hi]
    congr 1
    rw [slot_eq_iff, Nat.add_mod, ← hs, ← Nat.add_mod]

/-- Writing behind the last element, a slot being free. -/
theorem put (h : Holds data start q) (hfree : q.length < N) (x : α) :
    Holds (Function.update data (slot N (start + q.length)) x) start (q ++ [x]) where
  length_le := by
    rw [List.length_append, List.length_singleton]
    exact hfree
  at_slot := by
    intro i hi
    rw [List.length_append, List.length_singleton] at hi
    by_cases hlast : i = q.length
    · subst hlast
      simp
    · have hold : i < q.length := by omega
      have hne : slot N (start + i) ≠ slot N (start + q.length) := slot_ne (by omega) (by omega)
      rw [Function.update_of_ne hne, h.at_slot i hold]
      simp [List.getElem_append_left hold]

theorem head_eq (h : Holds data start (x :: q)) : data (slot N start) = x :=
  h.at_slot 0 (Nat.zero_lt_succ _)

theorem take (h : Holds data start (x :: q)) : Holds data (start + 1) q where
  length_le := Nat.le_of_succ_le h.length_le
  at_slot := by
    intro i hi
    have := h.at_slot (i + 1) (Nat.succ_lt_succ hi)
    rw [show start + 1 + i = start + (i + 1) by omega, this]
    rfl

/-- Writing the slot of the `i`-th oldest element replaces that element. -/
theorem set {i : Nat} (h : Holds data start q) (hi : i < q.length) (x : α) :
    Holds (Function.update data (slot N (start + i)) x) start (q.set i x) where
  length_le := by
    rw [List.length_set]
    exact h.length_le
  at_slot := by
    intro j hj
    rw [List.length_set] at hj
    have hle := h.length_le
    by_cases hji : j = i
    · subst hji
      simp
    · have hne : slot N (start + j) ≠ slot N (start + i) := by
        rcases Nat.lt_or_gt_of_ne hji with hlt | hgt
        · exact slot_ne (by omega) (by omega)
        · exact (slot_ne (by omega) (by omega)).symm
      rw [Function.update_of_ne hne, h.at_slot j hj]
      simp [List.getElem_set_ne (Ne.symm hji)]

end Holds

end CppExamples.Lib.Ring
