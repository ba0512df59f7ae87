import CppExamples.Lib.Covariance

/-!
# Weighted least squares, one measurement at a time

Real vectors and matrices over finite index types. `quad A v = vᵀ A v`.

A gain `K` with `K S = P Hᵀ`, `S = H P Hᵀ + R`, turns the covariance `P` and the estimate `x` into
`(1 - K H) P` and `x + K (z - H x)`. In terms of the inverses `A` of `P` and `B` of `R` this adds
`Hᵀ B H` and `Hᵀ B z`:

* `residual_mul`, `weight_mul_gain`: where `P` need not have an inverse, `1 + P Hᵀ B H` is the
  inverse of `1 - K H`, and takes `K` to `P Hᵀ B`.
* `information`: `A + Hᵀ B H` is the inverse of `(1 - K H) P`.
* `information_mulVec`: it takes the new estimate to `A x + Hᵀ B z`.
* `completed_square`: as a function of `v`, `quad A (v - x) + quad B (z - H v)` is up to a constant
  the one quadratic form around the new estimate.
-/

namespace CppExamples.Lib.LeastSquares

open Matrix

variable {m n : Type*} [Fintype m] [Fintype n]

/-! ## The gain -/

section Gain

variable [DecidableEq m] [DecidableEq n] {P A : Matrix n n ℝ} {R B S : Matrix m m ℝ}
  {H : Matrix m n ℝ} {K : Matrix n m ℝ} (hS : S = H * P * Hᵀ + R) (hK : K * S = P * Hᵀ)

include hS hK

omit [DecidableEq m] in
theorem residual_gain : (1 - K * H) * P * Hᵀ = K * R := by
  calc (1 - K * H) * P * Hᵀ
      = P * Hᵀ - K * (H * P * Hᵀ) := by
        simp only [Matrix.sub_mul, Matrix.one_mul, Matrix.mul_assoc]
    _ = K * S - K * (H * P * Hᵀ) := by rw [hK]
    _ = K * R := by rw [hS, Matrix.mul_add, add_sub_cancel_left]

/-- What a measurement leaves of the error, undone. -/
theorem residual_mul (hB : R * B = 1) : (1 - K * H) * (1 + P * (Hᵀ * B * H)) = 1 := by
  calc (1 - K * H) * (1 + P * (Hᵀ * B * H))
      = (1 - K * H) + (1 - K * H) * P * Hᵀ * (B * H) := by
        simp only [Matrix.mul_add, Matrix.mul_one, Matrix.mul_assoc]
    _ = (1 - K * H) + K * R * (B * H) := by rw [residual_gain hS hK]
    _ = (1 - K * H) + K * (R * B) * H := by simp only [Matrix.mul_assoc]
    _ = 1 := by rw [hB, Matrix.mul_one, sub_add_cancel]

theorem mul_residual (hB : R * B = 1) : (1 + P * (Hᵀ * B * H)) * (1 - K * H) = 1 :=
  mul_eq_one_comm.mp (residual_mul hS hK hB)

theorem weight_mul_gain (hB : R * B = 1) : (1 + P * (Hᵀ * B * H)) * K = P * Hᵀ * B := by
  have hgain : (1 - K * H) * P * Hᵀ * B = K := by
    rw [residual_gain hS hK, Matrix.mul_assoc, hB, Matrix.mul_one]
  calc (1 + P * (Hᵀ * B * H)) * K
      = (1 + P * (Hᵀ * B * H)) * ((1 - K * H) * P * Hᵀ * B) := by rw [hgain]
    _ = (1 + P * (Hᵀ * B * H)) * (1 - K * H) * (P * Hᵀ * B) := by simp only [Matrix.mul_assoc]
    _ = P * Hᵀ * B := by rw [mul_residual hS hK hB, Matrix.one_mul]

/-- The information of the prior and that of the measurement add up. -/
theorem information (hA : P * A = 1) (hB : R * B = 1) :
    (1 - K * H) * P * (A + Hᵀ * B * H) = 1 := by
  calc (1 - K * H) * P * (A + Hᵀ * B * H)
      = (1 - K * H) * (P * A + P * (Hᵀ * B * H)) := by rw [Matrix.mul_assoc, Matrix.mul_add]
    _ = 1 := by rw [hA, residual_mul hS hK hB]

/-- The new estimate solves the normal equation. -/
theorem information_mulVec (hA : P * A = 1) (hB : R * B = 1) (x : n → ℝ) (z : m → ℝ) :
    (A + Hᵀ * B * H) *ᵥ (x + K *ᵥ (z - H *ᵥ x)) = A *ᵥ x + (Hᵀ * B) *ᵥ z := by
  have hfactor : A + Hᵀ * B * H = A * (1 + P * (Hᵀ * B * H)) := by
    rw [Matrix.mul_add, Matrix.mul_one, ← Matrix.mul_assoc, mul_eq_one_comm.mp hA, Matrix.one_mul]
  have hprior : (A + Hᵀ * B * H) * (1 - K * H) = A := by
    rw [hfactor, Matrix.mul_assoc, mul_residual hS hK hB, Matrix.mul_one]
  have hgain : (A + Hᵀ * B * H) * K = Hᵀ * B := by
    rw [hfactor, Matrix.mul_assoc, weight_mul_gain hS hK hB, Matrix.mul_assoc P, ← Matrix.mul_assoc,
      mul_eq_one_comm.mp hA, Matrix.one_mul]
  have hsplit : x + K *ᵥ (z - H *ᵥ x) = (1 - K * H) *ᵥ x + K *ᵥ z := by
    rw [Matrix.sub_mulVec, Matrix.one_mulVec, Matrix.mulVec_sub, ← Matrix.mulVec_mulVec]
    abel
  rw [hsplit, Matrix.mulVec_add, Matrix.mulVec_mulVec, Matrix.mulVec_mulVec, hprior, hgain]

end Gain

/-! ## Quadratic forms -/

/-- `vᵀ A v`. -/
def quad (A : Matrix n n ℝ) (v : n → ℝ) : ℝ := v ⬝ᵥ A *ᵥ v

theorem quad_add {A : Matrix n n ℝ} (hA : Aᵀ = A) (v w : n → ℝ) :
    quad A (v + w) = quad A v + 2 * (v ⬝ᵥ A *ᵥ w) + quad A w := by
  have hsymm : w ⬝ᵥ A *ᵥ v = v ⬝ᵥ A *ᵥ w := by
    rw [dotProduct_mulVec, ← mulVec_transpose, hA, dotProduct_comm]
  simp only [quad, mulVec_add, dotProduct_add, add_dotProduct, hsymm]
  ring

theorem quad_mulVec (B : Matrix m m ℝ) (H : Matrix m n ℝ) (v : n → ℝ) :
    quad B (H *ᵥ v) = quad (Hᵀ * B * H) v := by
  rw [quad, quad, ← mulVec_mulVec, ← mulVec_mulVec, dotProduct_transpose_mulVec, dotProduct_comm]

theorem quad_neg (A : Matrix n n ℝ) (v : n → ℝ) : quad A (-v) = quad A v := by
  rw [quad, quad, mulVec_neg, neg_dotProduct_neg]

theorem add_quad (A B : Matrix n n ℝ) (v : n → ℝ) : quad (A + B) v = quad A v + quad B v := by
  rw [quad, add_mulVec, dotProduct_add, quad, quad]

/-- **Completing the square.** Around a solution `x'` of the normal equation the sum of the two
forms is one form. -/
theorem completed_square {A : Matrix n n ℝ} {B : Matrix m m ℝ} {H : Matrix m n ℝ} (hA : Aᵀ = A)
    (hB : Bᵀ = B) {x x' : n → ℝ} {z : m → ℝ}
    (hx' : (A + Hᵀ * B * H) *ᵥ x' = A *ᵥ x + (Hᵀ * B) *ᵥ z) (v : n → ℝ) :
    quad A (v - x) + quad B (z - H *ᵥ v) =
      quad (A + Hᵀ * B * H) (v - x') + (quad A (x' - x) + quad B (z - H *ᵥ x')) := by
  have hnormal : A *ᵥ (x' - x) = (Hᵀ * B) *ᵥ (z - H *ᵥ x') := by
    rw [add_mulVec, ← mulVec_mulVec x' (Hᵀ * B) H] at hx'
    rw [mulVec_sub, mulVec_sub, sub_eq_sub_iff_add_eq_add, hx', add_comm]
  have hcross : (H *ᵥ (-(v - x'))) ⬝ᵥ B *ᵥ (z - H *ᵥ x') = -((v - x') ⬝ᵥ A *ᵥ (x' - x)) := by
    rw [hnormal, mulVec_neg, neg_dotProduct, ← mulVec_mulVec, dotProduct_transpose_mulVec,
      dotProduct_comm]
  have hleft : v - x = (v - x') + (x' - x) := by abel
  have hright : z - H *ᵥ v = H *ᵥ (-(v - x')) + (z - H *ᵥ x') := by
    rw [mulVec_neg, mulVec_sub]
    abel
  rw [hleft, hright, quad_add hA, quad_add hB, hcross, quad_mulVec, quad_neg, add_quad]
  ring

end CppExamples.Lib.LeastSquares
