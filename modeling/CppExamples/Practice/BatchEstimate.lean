import CppExamples.Lib.LeastSquares
import CppExamples.Practice.KalmanFilter

/-!
# What `KalmanFilter::update` computes (`cjunk/practice/kalmanFilter.cc:15-22`)

With a linear measurement `h(x) = H x` a sequence of updates is a least squares problem solved one
measurement at a time. `cost` is the problem: the distance from the prior state, weighted by `P₀⁻¹`,
and the distances of the measurements from `H v`, weighted by `R⁻¹`.

* `least_squares`: after any sequence of updates `x_` is the one minimum of the cost, and `P_` is
  the inverse of `P₀⁻¹ + k Hᵀ R⁻¹ H` for `k` measurements.
* `updates_perm`: the order of the measurements does not matter, for a singular `P₀` neither.
* `update_le`: an update never enlarges `P_`, also where `H` depends on the state.
-/

namespace CppExamples.Practice

open Lib Lib.Machine Lib.LeastSquares Matrix

variable {m n : Type} [Fintype m] [Fintype n] [DecidableEq m] [DecidableEq n]

namespace KalmanFilter

variable {model : Model m n} {H : Matrix m n ℝ}

/-- The gain `K` of an update. -/
noncomputable def gain (model : Model m n) (s : KalmanFilter n) : Matrix n m ℝ :=
  s.P * (model.H s.x)ᵀ * (innovation model s)⁻¹

theorem update_eq {s : KalmanFilter n} (hR : model.R.PosDef) (hP : s.P.PosSemidef) (z : m → ℝ) :
    update model s z = some ⟨s.x + gain model s *ᵥ (z - model.h s.x),
      (1 - gain model s * model.H s.x) * s.P⟩ := by
  rw [update, inverse, if_pos (innovation_isUnit hR hP)]
  rfl

omit [DecidableEq n] in
theorem gain_mul {s : KalmanFilter n} (hR : model.R.PosDef) (hP : s.P.PosSemidef) :
    gain model s * innovation model s = s.P * (model.H s.x)ᵀ := by
  have hunit : IsUnit (innovation model s).det :=
    (Matrix.isUnit_iff_isUnit_det _).mp (innovation_isUnit hR hP)
  rw [gain, Matrix.mul_assoc, Matrix.nonsing_inv_mul _ hunit, Matrix.mul_one]

/-! ## Least squares -/

/-- `h` is the linear map `H`. -/
structure Linear (model : Model m n) (H : Matrix m n ℝ) : Prop where
  map : ∀ x, model.h x = H *ᵥ x
  jacobian : ∀ x, model.H x = H

/-- The distance from `x`, weighted by `A`, and from the measurements, weighted by `B`. -/
def costFrom (H : Matrix m n ℝ) (A : Matrix n n ℝ) (B : Matrix m m ℝ) (x : n → ℝ)
    (zs : List (m → ℝ)) (v : n → ℝ) : ℝ :=
  quad A (v - x) + (zs.map fun z => quad B (z - H *ᵥ v)).sum

/-- What the filter is to minimise. -/
noncomputable def cost (model : Model m n) (H : Matrix m n ℝ) (x₀ : n → ℝ) (P₀ : Matrix n n ℝ)
    (zs : List (m → ℝ)) : (n → ℝ) → ℝ :=
  costFrom H P₀⁻¹ model.R⁻¹ x₀ zs

/-- The estimate `s` in terms of its information matrix `A`. -/
structure Informed (s : KalmanFilter n) (A : Matrix n n ℝ) : Prop where
  inv : s.P * A = 1
  pos : A.PosDef

theorem Informed.P_eq {s : KalmanFilter n} {A : Matrix n n ℝ} (h : Informed s A) : s.P = A⁻¹ :=
  (Matrix.inv_eq_left_inv h.inv).symm

theorem Informed.posSemidef {s : KalmanFilter n} {A : Matrix n n ℝ} (h : Informed s A) :
    s.P.PosSemidef := by
  rw [h.P_eq]
  exact h.pos.inv.posSemidef

section Updates

variable (hlin : Linear model H) (hR : model.R.PosDef)

include hlin hR

/-- One update: it adds to the information, and the cost of the measurement to the cost. -/
theorem Informed.update {s : KalmanFilter n} {A : Matrix n n ℝ} (h : Informed s A) (z : m → ℝ) :
    ∃ s', KalmanFilter.update model s z = some s' ∧ Informed s' (A + Hᵀ * model.R⁻¹ * H) ∧
      ∃ c, ∀ v, quad A (v - s.x) + quad model.R⁻¹ (z - H *ᵥ v) =
        quad (A + Hᵀ * model.R⁻¹ * H) (v - s'.x) + c := by
  have hS : innovation model s = H * s.P * Hᵀ + model.R := by rw [innovation, hlin.jacobian]
  have hK : gain model s * innovation model s = s.P * (model.H s.x)ᵀ := gain_mul hR h.posSemidef
  rw [hlin.jacobian] at hK
  have hB : model.R * model.R⁻¹ = 1 :=
    Matrix.mul_nonsing_inv _ ((Matrix.isUnit_iff_isUnit_det _).mp hR.isUnit)
  have hupdate := update_eq hR h.posSemidef z
  rw [hlin.map, hlin.jacobian] at hupdate
  have hnormal := information_mulVec hS hK h.inv hB s.x z
  have hpos : (A + Hᵀ * model.R⁻¹ * H).PosDef := by
    have hcongr := Covariance.congruence hR.inv.posSemidef Hᵀ
    rw [Matrix.transpose_transpose] at hcongr
    exact h.pos.add_posSemidef hcongr
  exact ⟨_, hupdate, ⟨information hS hK h.inv hB, hpos⟩, _,
    completed_square (Covariance.symm_of_posSemidef h.pos.posSemidef)
      (Covariance.symm_of_posSemidef hR.inv.posSemidef) hnormal⟩

/-- A sequence of updates, from any estimate. -/
theorem Informed.updates {s : KalmanFilter n} {A : Matrix n n ℝ} (h : Informed s A)
    (zs : List (m → ℝ)) :
    ∃ s' A', run (call model) s (zs.map .update) = some s' ∧ Informed s' A' ∧
      A' = A + zs.length • (Hᵀ * model.R⁻¹ * H) ∧
      ∃ c, ∀ v, costFrom H A model.R⁻¹ s.x zs v = quad A' (v - s'.x) + c := by
  induction zs generalizing s A with
  | nil =>
    refine ⟨s, A, rfl, h, by simp, 0, fun v => ?_⟩
    rw [costFrom, List.map_nil, List.sum_nil]
  | cons z zs ih =>
    obtain ⟨s₁, hs₁, hinf, c₁, hc₁⟩ := h.update hlin hR z
    obtain ⟨s', A', hrun, hinf', hA', c, hc⟩ := ih hinf
    refine ⟨s', A', ?_, hinf', ?_, c + c₁, fun v => ?_⟩
    · rw [List.map_cons, run, call, hs₁]
      exact hrun
    · rw [hA', List.length_cons, succ_nsmul]
      abel
    · have hrest := hc v
      rw [costFrom] at hrest ⊢
      rw [List.map_cons, List.sum_cons, ← add_assoc, hc₁ v, add_right_comm, hrest]
      ring

end Updates

/-- The covariance that `init` gets, as information. -/
theorem informed_init (x₀ : n → ℝ) {P₀ : Matrix n n ℝ} (hP₀ : P₀.PosDef) :
    Informed (init x₀ P₀) P₀⁻¹ where
  inv := Matrix.mul_nonsing_inv _ ((Matrix.isUnit_iff_isUnit_det _).mp hP₀.isUnit)
  pos := hP₀.inv

/-- **Updates solve the least squares problem.** For a linear measurement, `P₀` and `R` positive
definite and any sequence of measurements, `x_` is the only minimum of the cost, and `P_` is the
inverse of `P₀⁻¹ + k Hᵀ R⁻¹ H`. -/
theorem least_squares (model : Model m n) (H : Matrix m n ℝ) (hlin : Linear model H)
    (hR : model.R.PosDef) (x₀ : n → ℝ) (P₀ : Matrix n n ℝ) (hP₀ : P₀.PosDef) (zs : List (m → ℝ)) :
    ∃ s, run (call model) (init x₀ P₀) (zs.map .update) = some s ∧
      (∀ v, v ≠ s.x → cost model H x₀ P₀ zs s.x < cost model H x₀ P₀ zs v) ∧
      s.P = (P₀⁻¹ + zs.length • (Hᵀ * model.R⁻¹ * H))⁻¹ := by
  obtain ⟨s, A, hrun, hinf, hA, c, hc⟩ := (informed_init x₀ hP₀).updates hlin hR zs
  refine ⟨s, hrun, fun v hv => ?_, hA ▸ hinf.P_eq⟩
  have hpos : 0 < quad A (v - s.x) := by
    have h := hinf.pos.dotProduct_mulVec_pos (sub_ne_zero.mpr hv)
    rwa [star_trivial] at h
  have hzero : quad A (s.x - s.x) = 0 := by rw [sub_self, quad, zero_dotProduct]
  have hs := hc s.x
  have hv := hc v
  rw [hzero] at hs
  rw [cost]
  have hinit : (init x₀ P₀).x = x₀ := rfl
  rw [hinit] at hs hv
  linarith

/-- The mean of two numbers and the prior. -/
theorem least_squares_scalar :
    let model : Model (Fin 1) (Fin 1) := ⟨id, fun _ => 1, 0, fun x => 1 *ᵥ x, fun _ => 1, 1⟩
    ∃ s, run (call model) (init 0 1) ([1, 2].map .update) = some s ∧
      (∀ v, v ≠ s.x → cost model 1 0 1 [1, 2] s.x < cost model 1 0 1 [1, 2] v) ∧
      s.P = (1⁻¹ + [(1 : Fin 1 → ℝ), 2].length • (1ᵀ * (1 : Matrix (Fin 1) (Fin 1) ℝ)⁻¹ * 1))⁻¹ :=
  least_squares ⟨id, fun _ => 1, 0, fun x => 1 *ᵥ x, fun _ => 1, 1⟩ 1 ⟨fun _ => rfl, fun _ => rfl⟩
    PosDef.one 0 1 PosDef.one [1, 2]

/-! ## The order of the measurements -/

/-- The estimate after measurements with the information `J` and the weighted sum `v`, in terms of
the first one, which need not have an information matrix. -/
structure Absorbed (x₀ : n → ℝ) (P₀ J : Matrix n n ℝ) (v : n → ℝ) (s : KalmanFilter n) : Prop where
  isUnit : IsUnit (1 + P₀ * J)
  mul_P : (1 + P₀ * J) * s.P = P₀
  mulVec_x : (1 + P₀ * J) *ᵥ (s.x - x₀) = P₀ *ᵥ (v - J *ᵥ x₀)
  posSemidef : s.P.PosSemidef

theorem absorbed_init (x₀ : n → ℝ) {P₀ : Matrix n n ℝ} (hP₀ : P₀.PosSemidef) :
    Absorbed x₀ P₀ 0 0 (init x₀ P₀) where
  isUnit := by rw [Matrix.mul_zero, add_zero]; exact isUnit_one
  mul_P := by rw [Matrix.mul_zero, add_zero, Matrix.one_mul, init]
  mulVec_x := by rw [init, sub_self, mulVec_zero, zero_mulVec, sub_zero, mulVec_zero]
  posSemidef := hP₀

/-- There is one such estimate. -/
theorem Absorbed.unique {x₀ : n → ℝ} {P₀ J : Matrix n n ℝ} {v : n → ℝ} {s s' : KalmanFilter n}
    (h : Absorbed x₀ P₀ J v s) (h' : Absorbed x₀ P₀ J v s') : s = s' := by
  have hP : s.P = s'.P := h.isUnit.mul_left_cancel (h.mul_P.trans h'.mul_P.symm)
  have hx : s.x - x₀ = s'.x - x₀ :=
    Matrix.mulVec_injective_of_isUnit h.isUnit (h.mulVec_x.trans h'.mulVec_x.symm)
  cases s
  cases s'
  simp only at hP hx
  rw [hP, sub_left_injective hx]

section Order

variable (hlin : Linear model H) (hR : model.R.PosDef) {x₀ v : n → ℝ} {P₀ J : Matrix n n ℝ}
  {s : KalmanFilter n}

include hlin hR

/-- One update adds to both. -/
theorem Absorbed.update (h : Absorbed x₀ P₀ J v s) (z : m → ℝ) :
    ∃ s', KalmanFilter.update model s z = some s' ∧
      Absorbed x₀ P₀ (J + Hᵀ * model.R⁻¹ * H) (v + (Hᵀ * model.R⁻¹) *ᵥ z) s' := by
  have hS : innovation model s = H * s.P * Hᵀ + model.R := by rw [innovation, hlin.jacobian]
  have hK : gain model s * innovation model s = s.P * (model.H s.x)ᵀ := gain_mul hR h.posSemidef
  rw [hlin.jacobian] at hK
  have hB : model.R * model.R⁻¹ = 1 :=
    Matrix.mul_nonsing_inv _ ((Matrix.isUnit_iff_isUnit_det _).mp hR.isUnit)
  have hupdate := update_eq hR h.posSemidef z
  rw [hlin.map, hlin.jacobian] at hupdate
  have hpos : ((1 - gain model s * H) * s.P).PosSemidef := by
    have hmeasure := Covariance.measure h.posSemidef hR H
    rwa [← hS, ← hlin.jacobian s.x, ← gain, hlin.jacobian] at hmeasure
  -- what the update adds is a factor, which takes the residual and the gain back
  have hfactor : 1 + P₀ * (J + Hᵀ * model.R⁻¹ * H) =
      (1 + P₀ * J) * (1 + s.P * (Hᵀ * model.R⁻¹ * H)) := by
    rw [Matrix.mul_add P₀, Matrix.mul_add (1 + P₀ * J), Matrix.mul_one,
      ← Matrix.mul_assoc (1 + P₀ * J) s.P, h.mul_P, add_assoc]
  have hresidual := mul_residual hS hK hB
  have hgain := weight_mul_gain hS hK hB
  refine ⟨_, hupdate, ?_, ?_, ?_, hpos⟩
  · rw [hfactor]
    exact h.isUnit.mul ((Matrix.isUnit_iff_isUnit_det _).mpr
      (Matrix.isUnit_det_of_right_inverse hresidual))
  · rw [hfactor, Matrix.mul_assoc, ← Matrix.mul_assoc _ (1 - gain model s * H), hresidual,
      Matrix.one_mul, h.mul_P]
  · have hinner : (1 + s.P * (Hᵀ * model.R⁻¹ * H)) *ᵥ
        (s.x + gain model s *ᵥ (z - H *ᵥ s.x) - x₀) =
          (s.x - x₀) + s.P *ᵥ ((Hᵀ * model.R⁻¹) *ᵥ z - (Hᵀ * model.R⁻¹ * H) *ᵥ x₀) := by
      rw [add_sub_right_comm, mulVec_add, mulVec_mulVec, hgain]
      simp only [add_mulVec, one_mulVec, mulVec_sub, ← mulVec_mulVec]
      abel
    rw [hfactor, ← mulVec_mulVec, hinner, mulVec_add, h.mulVec_x, mulVec_mulVec, h.mul_P]
    simp only [mulVec_add, mulVec_sub, add_mulVec]
    abel

/-- A sequence of updates. -/
theorem Absorbed.updates (h : Absorbed x₀ P₀ J v s) (zs : List (m → ℝ)) :
    ∃ s', run (call model) s (zs.map .update) = some s' ∧
      Absorbed x₀ P₀ (J + zs.length • (Hᵀ * model.R⁻¹ * H)) (v + (Hᵀ * model.R⁻¹) *ᵥ zs.sum)
        s' := by
  induction zs generalizing s J v with
  | nil => exact ⟨s, rfl, by simpa using h⟩
  | cons z zs ih =>
    obtain ⟨s₁, hs₁, habs⟩ := h.update hlin hR z
    obtain ⟨s', hrun, habs'⟩ := ih habs
    refine ⟨s', ?_, ?_⟩
    · rw [List.map_cons, run, call, hs₁]
      exact hrun
    · rw [List.length_cons, succ_nsmul', ← add_assoc, List.sum_cons, mulVec_add, ← add_assoc]
      exact habs'

end Order

/-- **The order of the measurements does not matter.** For a linear measurement, `P₀` positive
semidefinite and `R` positive definite, a sequence of updates and any permutation of it lead to the
same estimate. -/
theorem updates_perm (model : Model m n) (H : Matrix m n ℝ) (hlin : Linear model H)
    (hR : model.R.PosDef) (x₀ : n → ℝ) (P₀ : Matrix n n ℝ) (hP₀ : P₀.PosSemidef)
    (zs zs' : List (m → ℝ)) (hperm : zs.Perm zs') :
    ∃ s, run (call model) (init x₀ P₀) (zs.map .update) = some s ∧
      run (call model) (init x₀ P₀) (zs'.map .update) = some s := by
  obtain ⟨s, hrun, habs⟩ := (absorbed_init x₀ hP₀).updates hlin hR zs
  obtain ⟨s', hrun', habs'⟩ := (absorbed_init x₀ hP₀).updates hlin hR zs'
  rw [← hperm.length_eq, ← hperm.sum_eq] at habs'
  obtain rfl := habs.unique habs'
  exact ⟨s, hrun, hrun'⟩

/-- Two numbers in either order. -/
theorem updates_perm_scalar :
    let model : Model (Fin 1) (Fin 1) := ⟨id, fun _ => 1, 0, fun x => 1 *ᵥ x, fun _ => 1, 1⟩
    ∃ s, run (call model) (init 0 1) ([1, 2].map .update) = some s ∧
      run (call model) (init 0 1) ([2, 1].map .update) = some s :=
  updates_perm ⟨id, fun _ => 1, 0, fun x => 1 *ᵥ x, fun _ => 1, 1⟩ 1 ⟨fun _ => rfl, fun _ => rfl⟩
    PosDef.one 0 1 PosSemidef.one [1, 2] [2, 1] (.swap 2 1 [])

/-! ## Updates and the covariance -/

omit [DecidableEq m] [DecidableEq n] in
theorem innovation_symm {s : KalmanFilter n} (hR : model.R.PosDef) (hP : s.P.PosSemidef) :
    (innovation model s)ᵀ = innovation model s :=
  Covariance.symm_of_posSemidef (Covariance.innovation_posDef hP hR (model.H s.x)).posSemidef

omit [DecidableEq n] in
/-- What an update takes off `P_`: the covariance of the correction. -/
theorem gain_mul_mul {s : KalmanFilter n} (hR : model.R.PosDef) (hP : s.P.PosSemidef) :
    gain model s * model.H s.x * s.P = gain model s * innovation model s * (gain model s)ᵀ := by
  have hK : (gain model s * innovation model s)ᵀ = (s.P * (model.H s.x)ᵀ)ᵀ :=
    congrArg transpose (gain_mul hR hP)
  rw [transpose_mul, transpose_mul, transpose_transpose, innovation_symm hR hP,
    Covariance.symm_of_posSemidef hP] at hK
  rw [Matrix.mul_assoc, Matrix.mul_assoc, hK]

/-- **An update never enlarges the covariance.** After every sequence of calls an update is defined,
and `P_` before it less `P_` after it is positive semidefinite, whatever `f`, `F`, `h`, `H` are. -/
theorem update_le (model : Model m n) (hQ : model.Q.PosSemidef) (hR : model.R.PosDef)
    (x₀ : n → ℝ) (P₀ : Matrix n n ℝ) (hP₀ : P₀.PosSemidef) (calls : List (Call m)) (z : m → ℝ) :
    ∃ s s', run (call model) (init x₀ P₀) calls = some s ∧
      run (call model) (init x₀ P₀) (calls ++ [.update z]) = some s' ∧
      (s.P - s'.P).PosSemidef := by
  obtain ⟨s, hs, hP⟩ := exists_run (J := fun s : KalmanFilter n => s.P.PosSemidef)
    (fun s c hP => call_posSemidef hQ hR hP c) (s := init x₀ P₀) hP₀ calls
  have hlast : run (call model) (init x₀ P₀) (calls ++ [.update z]) =
      some ⟨s.x + gain model s *ᵥ (z - model.h s.x),
        (1 - gain model s * model.H s.x) * s.P⟩ := by
    rw [run_append, hs, Option.bind_some, run, call, update_eq hR hP, Option.bind_some, run_nil]
  have hdiff : s.P - (1 - gain model s * model.H s.x) * s.P =
      gain model s * innovation model s * (gain model s)ᵀ := by
    rw [Matrix.sub_mul, Matrix.one_mul, sub_sub_cancel, gain_mul_mul hR hP]
  refine ⟨s, _, hs, hlast, ?_⟩
  rw [hdiff]
  exact Covariance.congruence (Covariance.innovation_posDef hP hR (model.H s.x)).posSemidef _

/-- A scalar filter with `f`, `F` and `H` that depend on the state. -/
theorem update_le_scalar :
    let model : Model (Fin 1) (Fin 1) :=
      ⟨fun x => x + 1, fun x => diagonal x, 0, fun x => x, fun x => diagonal x, 1⟩
    ∃ s s', run (call model) (init 0 1) [.predict, .update 1] = some s ∧
      run (call model) (init 0 1) ([.predict, .update 1] ++ [.update 2]) = some s' ∧
      (s.P - s'.P).PosSemidef :=
  update_le ⟨fun x => x + 1, fun x => diagonal x, 0, fun x => x, fun x => diagonal x, 1⟩
    PosSemidef.zero PosDef.one 0 1 PosSemidef.one [.predict, .update 1] 2

end KalmanFilter

end CppExamples.Practice
