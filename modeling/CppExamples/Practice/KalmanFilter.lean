import CppExamples.Lib.Covariance
import CppExamples.Lib.Machine
import Mathlib.Algebra.Order.Star.Real

/-!
# `KalmanFilter` (`cjunk/practice/kalmanFilter.cc:3-29`)

Eigen's operations as exact algebra of real matrices. The dimensions of the state and of the
measurement are finite types `n` and `m`; the model's functions have matching dimensions by their
types.

`S.inverse()` is defined for an invertible `S` only, so `update` has a result only then.

* `covariance_sound`: every sequence of calls after `init` is defined, and `P_` is a covariance
  after each of them.
* `predict_prior_iff`: `predict` writes `x_` first, so that it linearises at the state after the
  step. That is the state before it only where the two Jacobians agree up to the sign.
* `run_eq_priorCall`: a run of such steps is a run of the filter that linearises before the step.
-/

namespace CppExamples.Practice

open Lib Lib.Machine Matrix

variable {m n : Type} [Fintype m] [Fintype n] [DecidableEq m] [DecidableEq n]

/-- The template parameter `Model`. -/
structure Model (m n : Type) where
  f : (n → ℝ) → (n → ℝ)
  F : (n → ℝ) → Matrix n n ℝ
  Q : Matrix n n ℝ
  h : (n → ℝ) → (m → ℝ)
  H : (n → ℝ) → Matrix m n ℝ
  R : Matrix m m ℝ

/-- The members `x_` and `P_`. -/
structure KalmanFilter (n : Type) where
  x : n → ℝ
  P : Matrix n n ℝ

namespace KalmanFilter

/-- `init`. -/
def init (x₀ : n → ℝ) (P₀ : Matrix n n ℝ) : KalmanFilter n := ⟨x₀, P₀⟩

/-- `predict`. `F` is evaluated at the new `x_`. -/
def predict (model : Model m n) (s : KalmanFilter n) : KalmanFilter n :=
  let x := model.f s.x
  { x := x, P := model.F x * s.P * (model.F x)ᵀ + model.Q }

/-- The matrix `S` that `update` inverts. -/
def innovation (model : Model m n) (s : KalmanFilter n) : Matrix m m ℝ :=
  model.H s.x * s.P * (model.H s.x)ᵀ + model.R

open Classical in
/-- `S.inverse()`. -/
noncomputable def inverse (S : Matrix m m ℝ) : Option (Matrix m m ℝ) :=
  if IsUnit S then some S⁻¹ else none

/-- `update`. -/
noncomputable def update (model : Model m n) (s : KalmanFilter n) (z : m → ℝ) :
    Option (KalmanFilter n) := do
  let y := z - model.h s.x
  let H := model.H s.x
  let inv ← inverse (innovation model s)
  let K := s.P * Hᵀ * inv
  return { x := s.x + K *ᵥ y, P := (1 - K * H) * s.P }

inductive Call (m : Type) where
  | predict
  | update (z : m → ℝ)

noncomputable def call (model : Model m n) (s : KalmanFilter n) : Call m → Option (KalmanFilter n)
  | .predict => some (predict model s)
  | .update z => update model s z

variable {model : Model m n} {s : KalmanFilter n}

omit [DecidableEq n] in
theorem innovation_isUnit (hR : model.R.PosDef) (hP : s.P.PosSemidef) :
    IsUnit (innovation model s) :=
  (Covariance.innovation_posDef hP hR (model.H s.x)).isUnit

/-- One call on a covariance is defined and gives a covariance. -/
theorem call_posSemidef (hQ : model.Q.PosSemidef) (hR : model.R.PosDef) (hP : s.P.PosSemidef)
    (c : Call m) : ∃ s', call model s c = some s' ∧ s'.P.PosSemidef := by
  cases c with
  | predict => exact ⟨_, rfl, Covariance.propagate hP hQ (model.F (model.f s.x))⟩
  | update z =>
    have hinv : inverse (innovation model s) = some (innovation model s)⁻¹ :=
      if_pos (innovation_isUnit hR hP)
    have hcall : call model s (.update z) = some
        ⟨s.x + (s.P * (model.H s.x)ᵀ * (innovation model s)⁻¹) *ᵥ (z - model.h s.x),
          (1 - s.P * (model.H s.x)ᵀ * (innovation model s)⁻¹ * model.H s.x) * s.P⟩ := by
      rw [call, update, hinv]
      rfl
    exact ⟨_, hcall, Covariance.measure hP hR (model.H s.x)⟩

/-- **The covariance stays a covariance.** With `Q` symmetric positive semidefinite and `R`
symmetric positive definite, every sequence of calls after `init` with a covariance is defined; then
`P_` is symmetric positive semidefinite and the matrix that an update would invert is invertible. -/
theorem covariance_sound (model : Model m n) (hQ : model.Q.PosSemidef) (hR : model.R.PosDef)
    (x₀ : n → ℝ) (P₀ : Matrix n n ℝ) (hP₀ : P₀.PosSemidef) (calls : List (Call m)) :
    ∃ s, run (call model) (init x₀ P₀) calls = some s ∧ s.Pᵀ = s.P ∧ s.P.PosSemidef ∧
      IsUnit (innovation model s) := by
  obtain ⟨s, hs, hP⟩ := exists_run (J := fun s : KalmanFilter n => s.P.PosSemidef)
    (fun s c hP => call_posSemidef hQ hR hP c) (s := init x₀ P₀) hP₀ calls
  exact ⟨s, hs, Covariance.symm_of_posSemidef hP, hP, innovation_isUnit hR hP⟩

/-- A scalar filter with `f`, `F` and `H` that depend on the state: two calls of each kind. -/
theorem covariance_sound_scalar :
    let model : Model (Fin 1) (Fin 1) :=
      ⟨fun x => x + 1, fun x => diagonal x, 0, fun x => x, fun x => diagonal x, 1⟩
    ∃ s, run (call model) (init 0 1) [.predict, .update 1, .update 2, .predict] = some s ∧
      s.P.PosSemidef ∧ IsUnit (innovation model s) := by
  intro model
  obtain ⟨s, hs, -, hP, hS⟩ := covariance_sound model PosSemidef.zero PosDef.one 0 1
    PosSemidef.one [.predict, .update 1, .update 2, .predict]
  exact ⟨s, hs, hP, hS⟩

/-! ## The state at which `predict` linearises -/

/-- The extended Kalman filter's prediction: `F` is evaluated at the state before the call. -/
def predictPrior (model : Model m n) (s : KalmanFilter n) : KalmanFilter n :=
  { x := model.f s.x, P := model.F s.x * s.P * (model.F s.x)ᵀ + model.Q }

/-- The filter that predicts so. -/
noncomputable def priorCall (model : Model m n) (s : KalmanFilter n) :
    Call m → Option (KalmanFilter n)
  | .predict => some (predictPrior model s)
  | .update z => update model s z

/-- The Jacobians before and after the step agree up to the sign. -/
def Steady (model : Model m n) (x : n → ℝ) : Prop :=
  model.F (model.f x) = model.F x ∨ model.F (model.f x) = -model.F x

omit [Fintype m] [DecidableEq m] in
/-- For every `P_` at once, the prediction is the one that linearises before the step exactly if the
Jacobians agree up to the sign. -/
theorem predict_eq_predictPrior_iff {x : n → ℝ} :
    (∀ P, predict model ⟨x, P⟩ = predictPrior model ⟨x, P⟩) ↔ Steady model x := by
  have hP : ∀ P, predict model ⟨x, P⟩ = predictPrior model ⟨x, P⟩ ↔
      model.F (model.f x) * P * (model.F (model.f x))ᵀ = model.F x * P * (model.F x)ᵀ := by
    intro P
    unfold predict predictPrior
    rw [KalmanFilter.mk.injEq, add_left_inj]
    exact and_iff_right rfl
  rw [forall_congr' hP]
  exact Covariance.congruence_eq_iff

/-- **Where `predict` linearises.** At every state `x` that some run of the filter reaches, with
whatever `P_`, the prediction is `f x` and `F x P (F x)ᵀ + Q` if and only if `F (f x)` is `F x` or
`-F x`. -/
theorem predict_prior_iff (model : Model m n) (x : n → ℝ) :
    (∀ P x₀ P₀ calls, run (call model) (init x₀ P₀) calls = some ⟨x, P⟩ →
      predict model ⟨x, P⟩ =
        { x := model.f x, P := model.F x * P * (model.F x)ᵀ + model.Q }) ↔
    model.F (model.f x) = model.F x ∨ model.F (model.f x) = -model.F x := by
  rw [← Steady, ← predict_eq_predictPrior_iff]
  constructor
  · intro h P
    exact h P x P [] rfl
  · intro h P x₀ P₀ calls _
    exact h P

/-- Along a run that only predicts where the Jacobians agree up to the sign, the filter is the one
that linearises before the step. -/
theorem run_eq_priorCall (x₀ : n → ℝ) (P₀ : Matrix n n ℝ) (calls : List (Call m))
    (h : Meets (call model) (fun s c => c = .predict → Steady model s.x) (init x₀ P₀) calls) :
    run (call model) (init x₀ P₀) calls = run (priorCall model) (init x₀ P₀) calls := by
  refine run_congr_of_meets (fun s c hc => ?_) h
  cases c with
  | predict => exact congrArg some (predict_eq_predictPrior_iff.mpr (hc rfl) s.P)
  | update z => rfl

/-- `f x = x² + 1` at 0, with the Jacobian `2 x`: `P_` becomes 4, not 0. -/
theorem predict_not_prior :
    let model : Model (Fin 1) (Fin 1) :=
      ⟨fun x i => x i * x i + 1, fun x => diagonal fun i => 2 * x i, 0, id, fun _ => 1, 1⟩
    (predict model (init 0 1)).P = diagonal (fun _ => 4) ∧
      model.F 0 * 1 * (model.F 0)ᵀ + model.Q = 0 := by
  intro model
  have hstep : model.F (model.f 0) = diagonal fun _ => 2 := by
    simp [model]
  have hzero : model.F 0 = 0 := by
    simp [model]
  constructor
  · show model.F (model.f 0) * 1 * (model.F (model.f 0))ᵀ + 0 = _
    rw [hstep, Matrix.mul_one, diagonal_transpose, diagonal_mul_diagonal, add_zero]
    norm_num
  · rw [hzero, Matrix.zero_mul, Matrix.zero_mul, zero_add]

end KalmanFilter

end CppExamples.Practice
