import Mathlib.Analysis.Matrix.PosDef
import Mathlib.Data.Matrix.Basis
import Mathlib.LinearAlgebra.Matrix.NonsingularInverse

/-!
# Covariance matrices under linear maps and measurements

Symmetric positive semidefinite real matrices, indexed by finite types.

* `propagate`: `A P Aᵀ + Q` is one, where `P` and `Q` are.
* `congruence_eq_iff`: `A` and `B` propagate every matrix alike if and only if `A = B` or `A = -B`.
* `innovation_posDef`: `H P Hᵀ + R` is positive definite where `R` is, and so invertible.
* `measure`: with `S = H P Hᵀ + R` and the gain `K = P Hᵀ S⁻¹`, the matrix `(1 - K H) P` is one.
  By `joseph` it is the sum of two congruences, `(1 - K H) P (1 - K H)ᵀ + K R Kᵀ`; the identity
  needs only `K S = P Hᵀ`.
-/

namespace CppExamples.Lib.Covariance

open Matrix

variable {m n : Type*} [Fintype m] [Fintype n]

theorem congruence {P : Matrix n n ℝ} (hP : P.PosSemidef) (A : Matrix m n ℝ) :
    (A * P * Aᵀ).PosSemidef := by
  have h := hP.mul_mul_conjTranspose_same A
  rwa [conjTranspose_eq_transpose_of_trivial] at h

omit [Fintype n] in
theorem symm_of_posSemidef {P : Matrix n n ℝ} (hP : P.PosSemidef) : Pᵀ = P := by
  rw [← conjTranspose_eq_transpose_of_trivial]
  exact hP.isHermitian

theorem propagate {P : Matrix n n ℝ} {Q : Matrix m m ℝ} (hP : P.PosSemidef) (hQ : Q.PosSemidef)
    (A : Matrix m n ℝ) : (A * P * Aᵀ + Q).PosSemidef :=
  (congruence hP A).add hQ

theorem innovation_posDef {P : Matrix n n ℝ} {R : Matrix m m ℝ} (hP : P.PosSemidef)
    (hR : R.PosDef) (H : Matrix m n ℝ) : (H * P * Hᵀ + R).PosDef :=
  PosDef.posSemidef_add (congruence hP H) hR

variable [DecidableEq n]

/-- The Joseph form of a measurement, for any gain with `K S = P Hᵀ`. -/
theorem joseph {P : Matrix n n ℝ} {R S : Matrix m m ℝ} {H : Matrix m n ℝ} {K : Matrix n m ℝ}
    (hS : S = H * P * Hᵀ + R) (hK : K * S = P * Hᵀ) :
    (1 - K * H) * P = (1 - K * H) * P * (1 - K * H)ᵀ + K * R * Kᵀ := by
  have hexpand : (1 - K * H) * P * (1 - K * H)ᵀ =
      (1 - K * H) * P - (1 - K * H) * P * (Hᵀ * Kᵀ) := by
    rw [transpose_sub, transpose_one, transpose_mul, Matrix.mul_sub, Matrix.mul_one]
  have hcancel : (1 - K * H) * P * (Hᵀ * Kᵀ) = K * R * Kᵀ := by
    calc (1 - K * H) * P * (Hᵀ * Kᵀ)
        = (P * Hᵀ - K * (H * P * Hᵀ)) * Kᵀ := by
          simp only [Matrix.sub_mul, Matrix.one_mul, Matrix.mul_assoc]
      _ = (K * S - K * (H * P * Hᵀ)) * Kᵀ := by rw [hK]
      _ = K * R * Kᵀ := by rw [hS, Matrix.mul_add, add_sub_cancel_left]
  rw [hexpand, hcancel, sub_add_cancel]

omit [Fintype m] in
theorem congruence_single_apply (A : Matrix m n ℝ) (i l : m) (j k : n) :
    (A * vecMulVec (Pi.single j (1 : ℝ)) (Pi.single k (1 : ℝ)) * Aᵀ) i l = A i j * A l k := by
  rw [mul_vecMulVec, vecMulVec_mul, vecMul_transpose, vecMulVec_apply, mulVec_single_one,
    mulVec_single_one, col_apply, col_apply]

omit [Fintype m] in
/-- Two linear maps propagate all matrices alike only if they agree up to the sign. -/
theorem congruence_eq_iff {A B : Matrix m n ℝ} :
    (∀ P : Matrix n n ℝ, A * P * Aᵀ = B * P * Bᵀ) ↔ A = B ∨ A = -B := by
  constructor
  · intro h
    have hprod : ∀ i j l k, A i j * A l k = B i j * B l k := by
      intro i j l k
      rw [← congruence_single_apply, h, congruence_single_apply]
    by_cases hzero : B = 0
    · left
      ext i j
      have hsq := hprod i j i j
      rw [hzero, Matrix.zero_apply, mul_zero, mul_self_eq_zero] at hsq
      rw [hsq, hzero, Matrix.zero_apply]
    · obtain ⟨i, j, hij⟩ : ∃ i j, B i j ≠ 0 := by
        by_contra hall
        push Not at hall
        exact hzero (Matrix.ext hall)
      rcases mul_self_eq_mul_self_iff.mp (hprod i j i j) with heq | hneg
      · left
        ext l k
        have hlk := hprod i j l k
        rw [heq] at hlk
        exact mul_left_cancel₀ hij hlk
      · right
        ext l k
        have hlk := hprod i j l k
        rw [hneg, neg_mul, ← mul_neg] at hlk
        exact neg_eq_iff_eq_neg.mp (mul_left_cancel₀ hij hlk)
  · rintro (rfl | rfl) P
    · rfl
    · rw [transpose_neg, Matrix.neg_mul, Matrix.neg_mul, Matrix.mul_neg, neg_neg]

variable [DecidableEq m]

theorem measure {P : Matrix n n ℝ} {R : Matrix m m ℝ} (hP : P.PosSemidef) (hR : R.PosDef)
    (H : Matrix m n ℝ) :
    ((1 - P * Hᵀ * (H * P * Hᵀ + R)⁻¹ * H) * P).PosSemidef := by
  have hunit : IsUnit (H * P * Hᵀ + R).det :=
    (Matrix.isUnit_iff_isUnit_det _).mp (innovation_posDef hP hR H).isUnit
  have hK : P * Hᵀ * (H * P * Hᵀ + R)⁻¹ * (H * P * Hᵀ + R) = P * Hᵀ := by
    rw [Matrix.mul_assoc, Matrix.nonsing_inv_mul _ hunit, Matrix.mul_one]
  rw [joseph rfl hK]
  exact (congruence hP _).add (congruence hR.posSemidef _)

end CppExamples.Lib.Covariance
