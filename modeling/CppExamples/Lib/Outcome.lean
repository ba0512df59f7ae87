import Mathlib.Tactic.Basic

/-!
# How a call ends: `Outcome`

A recursive function of the source is modelled with a fuel argument, so a call of the model ends
in one of three ways: it returns (`ret`), it throws (`throw`), or the fuel runs out (`timeout`).
`timeout` is not an outcome of the source: a model built on this type has to show that its own
fuel is always enough.

* `bind_eq_ret_iff`, `bind_ne_timeout`: a sequence of calls taken apart, once for all.
* `Le`: `x` is `y`, or `x` ran out of fuel. `Le.bind` makes a fuelled function monotone in its
  fuel as soon as its recursive calls are.
* `Settles`: what `x` did, `y` does. Two kinds of outcomes say nothing about `y`: exceptions that
  are `late`, and results that are left `unsure`.
-/

namespace CppExamples.Lib

universe u v

/-- How a call ends. -/
inductive Outcome (ε : Type v) (α : Type u) where
  | ret (a : α)
  | throw (e : ε)
  | timeout
  deriving Repr, DecidableEq

namespace Outcome

variable {ε : Type v} {α β : Type u}

/-- Sequencing: what does not return ends the sequence. -/
def bind : Outcome ε α → (α → Outcome ε β) → Outcome ε β
  | .ret a, f => f a
  | .throw e, _ => .throw e
  | .timeout, _ => .timeout

instance : Monad (Outcome ε) where
  pure := .ret
  bind := bind

@[simp] theorem pure_eq (a : α) : (Pure.pure a : Outcome ε α) = .ret a := rfl

@[simp] theorem ret_bind (a : α) (f : α → Outcome ε β) : (Outcome.ret a >>= f) = f a := rfl

@[simp] theorem throw_bind (e : ε) (f : α → Outcome ε β) :
    (Outcome.throw e >>= f) = .throw e := rfl

@[simp] theorem timeout_bind (f : α → Outcome ε β) :
    ((Outcome.timeout : Outcome ε α) >>= f) = .timeout := rfl

/-- A sequence returns iff both parts do. -/
theorem bind_eq_ret_iff {x : Outcome ε α} {f : α → Outcome ε β} {b : β} :
    (x >>= f) = .ret b ↔ ∃ a, x = .ret a ∧ f a = .ret b := by
  cases x <;> simp

/-- A sequence throws iff its first part does, or its second after the first returned. -/
theorem bind_eq_throw_iff {x : Outcome ε α} {f : α → Outcome ε β} {e : ε} :
    (x >>= f) = .throw e ↔ x = .throw e ∨ ∃ a, x = .ret a ∧ f a = .throw e := by
  cases x <;> simp

/-- A sequence runs out of fuel iff its first part does, or its second after the first
returned. -/
theorem bind_eq_timeout_iff {x : Outcome ε α} {f : α → Outcome ε β} :
    (x >>= f) = .timeout ↔ x = .timeout ∨ ∃ a, x = .ret a ∧ f a = .timeout := by
  cases x <;> simp

/-- A sequence ends if its first part does, and its second from every result of the first. -/
theorem bind_ne_timeout {x : Outcome ε α} {f : α → Outcome ε β} (hx : x ≠ .timeout)
    (hf : ∀ a, x = .ret a → f a ≠ .timeout) : (x >>= f) ≠ .timeout := by
  intro h
  rcases bind_eq_timeout_iff.mp h with h | ⟨a, ha, h⟩
  · exact hx h
  · exact hf a ha h

/-! ## More fuel -/

/-- `x` ran out of fuel, or it is `y`. -/
def Le (x y : Outcome ε α) : Prop := x = .timeout ∨ x = y

theorem Le.refl (x : Outcome ε α) : Le x x := .inr rfl

theorem Le.timeout (x : Outcome ε α) : Le .timeout x := .inl rfl

theorem Le.eq_of_ne_timeout {x y : Outcome ε α} (h : Le x y) (hx : x ≠ .timeout) : x = y :=
  h.resolve_left hx

theorem Le.bind {x y : Outcome ε α} {f g : α → Outcome ε β} (h : Le x y)
    (hf : ∀ a, Le (f a) (g a)) : Le (x >>= f) (y >>= g) := by
  rcases h with rfl | rfl
  · exact .inl rfl
  · cases x with
    | ret a => exact hf a
    | throw e => exact Le.refl _
    | timeout => exact Le.refl _

theorem Le.ite {c : Prop} [Decidable c] {x x' y y' : Outcome ε α} (hx : Le x x')
    (hy : Le y y') : Le (if c then x else y) (if c then x' else y') := by
  split
  · exact hx
  · exact hy

/-! ## A call that settles another -/

/-- The outcome of `x` says nothing about another call. -/
def Unsettled (late : ε → Prop) (unsure : α → Prop) : Outcome ε α → Prop
  | .ret a => unsure a
  | .throw e => late e
  | .timeout => True

/-- The outcome of `x` is unsettled, or `y` ends in the same way with a related result. -/
def Settles (late : ε → Prop) (unsure : α → Prop) (R : α → α → Prop) (x y : Outcome ε α) : Prop :=
  Unsettled late unsure x ∨ (∃ a b, x = .ret a ∧ y = .ret b ∧ R a b) ∨
    ∃ e, x = .throw e ∧ y = .throw e

section Settles

variable {late : ε → Prop} {unsure : α → Prop} {unsure' : β → Prop} {R : α → α → Prop}
  {R' : β → β → Prop} {x y : Outcome ε α}

theorem Settles.ret {a b : α} (h : R a b) :
    Settles late unsure R (.ret a : Outcome ε α) (.ret b) := .inr (.inl ⟨a, b, rfl, rfl, h⟩)

theorem Settles.throw (e : ε) : Settles late unsure R (.throw e : Outcome ε α) (.throw e) :=
  .inr (.inr ⟨e, rfl, rfl⟩)

theorem Settles.of_late {e : ε} (h : late e) : Settles late unsure R (.throw e : Outcome ε α) y :=
  .inl h

theorem Settles.refl (x : Outcome ε α) : Settles late unsure Eq x x := by
  cases x with
  | ret a => exact .ret rfl
  | throw e => exact .throw e
  | timeout => exact .inl trivial

theorem Settles.of_timeout : Settles late unsure R (.timeout : Outcome ε α) y := .inl trivial

/-- **Sequencing.** After a settled result the second parts settle each other; after an unsure one
the second part must not settle anything. -/
theorem Settles.bind {f g : α → Outcome ε β} (h : Settles late unsure R x y)
    (hf : ∀ a b, x = .ret a → R a b → Settles late unsure' R' (f a) (g b))
    (hunsure : ∀ a, x = .ret a → unsure a → Unsettled late unsure' (f a)) :
    Settles late unsure' R' (x >>= f) (y >>= g) := by
  rcases h with h | ⟨a, b, rfl, rfl, hab⟩ | ⟨e, rfl, rfl⟩
  · cases x with
    | ret a => exact .inl (hunsure a rfl h)
    | throw e => exact .inl h
    | timeout => exact .inl trivial
  · exact hf a b rfl hab
  · exact .throw e

theorem Settles.weaken {unsure₁ : α → Prop} (h : Settles late unsure R x y)
    (himp : ∀ a, unsure a → unsure₁ a) : Settles late unsure₁ R x y := by
  rcases h with h | h
  · cases x with
    | ret a => exact .inl (himp a h)
    | throw e => exact .inl h
    | timeout => exact .inl trivial
  · exact .inr h

theorem Settles.mono {late₁ : ε → Prop} (h : Settles late unsure R x y)
    (himp : ∀ e, late e → late₁ e) : Settles late₁ unsure R x y := by
  rcases h with h | h
  · cases x with
    | ret a => exact .inl h
    | throw e => exact .inl (himp e h)
    | timeout => exact .inl trivial
  · exact .inr h

theorem Settles.ite {c : Prop} [Decidable c] {x' y' : Outcome ε α}
    (h : Settles late unsure R x y) (h' : Settles late unsure R x' y') :
    Settles late unsure R (if c then x else x') (if c then y else y') := by
  split
  · exact h
  · exact h'

theorem Settles.eq_throw {e : ε} (h : Settles late unsure R (.throw e : Outcome ε α) y)
    (he : ¬ late e) : y = .throw e := by
  rcases h with h | ⟨a, b, h, -⟩ | ⟨e', h, rfl⟩
  · exact absurd h he
  · exact absurd h (by simp)
  · rw [Outcome.throw.inj h]

theorem Settles.exists_ret {a : α} (h : Settles late unsure R (.ret a : Outcome ε α) y)
    (ha : ¬ unsure a) : ∃ b, y = .ret b ∧ R a b := by
  rcases h with h | ⟨a', b, h, rfl, hab⟩ | ⟨e', h, -⟩
  · exact absurd h ha
  · exact ⟨b, rfl, Outcome.ret.inj h ▸ hab⟩
  · exact absurd h (by simp)

end Settles

end Outcome

end CppExamples.Lib
