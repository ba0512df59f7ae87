import Mathlib.Data.List.Basic

/-!
# `ChainablePromise` (`cjunk/practice/chainablePromise.cc:6-93`)

A promise is a functor and a vector of further promises, held by value: a tree. `operator()` calls
the functor and then every child with its result.

* `then` appends a copy of the new promise to the children and returns another copy. So a function
  of the source that changes `*this` and returns a value gives both here.
* A `Runnable` carries a label that the code does not have, by which the calls of different functors
  can be told apart: `none` for the identity of the default constructor. A call of `operator()`
  gives the list of functor calls it makes, with their arguments.

Result: `invocations_chain_iff`. In `p.then(f1)...then(fn)` only the first `then` reaches `p`; each
later one changes the temporary copy that the one before has returned. So `p(x)` calls `f1` and
nothing else, and the chain runs as written only for `n = 1`.
-/

namespace CppExamples.Practice

/-- `std::function<T(T)>`, with a label to tell its calls apart. -/
structure Runnable (T : Type) where
  label : Option Nat
  apply : T → T

/-- `class ChainablePromise<T>`. -/
inductive ChainablePromise (T : Type) where
  | mk (functor : Runnable T) (children : List (ChainablePromise T))

namespace ChainablePromise

variable {T : Type}

/-- `ChainablePromise()`. -/
def default : ChainablePromise T := ⟨⟨none, fun arg => arg⟩, []⟩

/-- `ChainablePromise(Runnable functor)`. -/
def ofRunnable (functor : Runnable T) : ChainablePromise T := ⟨functor, []⟩

/-- `then(ChainablePromise promise)`: `*this` afterwards, and the returned copy. -/
def thenPromise : ChainablePromise T → ChainablePromise T →
    ChainablePromise T × ChainablePromise T
  | ⟨functor, children⟩, promise => (⟨functor, children ++ [promise]⟩, promise)

/-- `then(Runnable onSuccess)`: `*this` afterwards, and the returned copy. -/
def thenRunnable (self : ChainablePromise T) (onSuccess : Runnable T) :
    ChainablePromise T × ChainablePromise T :=
  self.thenPromise (ofRunnable onSuccess)

mutual

/-- `operator()(arg)`: the functor calls it makes, in order. -/
def invoke : ChainablePromise T → T → List (Option Nat × T)
  | ⟨functor, children⟩, arg => (functor.label, arg) :: invokeAll children (functor.apply arg)

/-- The loop over the children. -/
def invokeAll : List (ChainablePromise T) → T → List (Option Nat × T)
  | [], _ => []
  | child :: children, result => invoke child result ++ invokeAll children result

end

/-- `self.then(f1).then(f2)...`: `self` and the temporaries at the end of the expression. The
receiver of each `then` is what the one before has returned. -/
def chain (self : ChainablePromise T) :
    List (Runnable T) → ChainablePromise T × List (ChainablePromise T)
  | [] => (self, [])
  | f :: fs =>
    let (self', promise) := self.thenRunnable f
    let (temporary, temporaries) := chain promise fs
    (self', temporary :: temporaries)

/-- The functor calls with a label, that is without those of default-constructed promises. -/
def invocations (p : ChainablePromise T) (x : T) : List (Nat × T) :=
  (p.invoke x).filterMap fun call => call.1.map fun k => (k, call.2)

/-- The functions `f1, f2, ...` with the labels `k, k + 1, ...`. -/
def labelled : Nat → List (T → T) → List (Runnable T)
  | _, [] => []
  | k, f :: fs => ⟨some k, f⟩ :: labelled (k + 1) fs

/-- The calls that a chain means: each function once, with the result of the one before. -/
def expected : Nat → List (T → T) → T → List (Nat × T)
  | _, [], _ => []
  | k, f :: fs, x => (k, x) :: expected (k + 1) fs (f x)

theorem expected_length (k : Nat) (fs : List (T → T)) (x : T) :
    (expected k fs x).length = fs.length := by
  induction fs generalizing k x with
  | nil => rfl
  | cons f fs ih => rw [expected, List.length_cons, List.length_cons, ih]

theorem invokeAll_append (children children' : List (ChainablePromise T)) (result : T) :
    invokeAll (children ++ children') result =
      invokeAll children result ++ invokeAll children' result := by
  induction children with
  | nil => rfl
  | cons child children ih => rw [List.cons_append, invokeAll, ih, invokeAll, List.append_assoc]

/-- The functor's result, with which `operator()` calls the children. -/
def result : ChainablePromise T → T → T
  | ⟨functor, _⟩, arg => functor.apply arg

/-- `then` adds the calls of the new promise behind all others. -/
theorem invoke_thenPromise (self promise : ChainablePromise T) (x : T) :
    (self.thenPromise promise).1.invoke x = self.invoke x ++ promise.invoke (self.result x) := by
  obtain ⟨functor, children⟩ := self
  rw [thenPromise, invoke, invoke, invokeAll_append, invokeAll, invokeAll, List.append_nil,
    List.cons_append]
  rfl

/-- A chain of any length adds one call to its receiver. -/
theorem invoke_chain (self : ChainablePromise T) (f : Runnable T) (fs : List (Runnable T)) (x : T) :
    (self.chain (f :: fs)).1.invoke x = self.invoke x ++ [(f.label, self.result x)] := by
  have hself : (self.chain (f :: fs)).1 = (self.thenRunnable f).1 := rfl
  rw [hself, thenRunnable, invoke_thenPromise]
  rfl

theorem invocations_chain (f : T → T) (fs : List (T → T)) (x : T) :
    (default.chain (labelled 1 (f :: fs))).1.invocations x = [(1, x)] := by
  rw [invocations, labelled, invoke_chain]
  rfl

/-- **Only chains of length one run as written.** After `p.then(f1)...then(fn)` on a
default-constructed `p` with `n ≥ 1`, `p(x)` calls each `fk` once, in order and with the result of
the one before, if and only if `n = 1`. -/
theorem invocations_chain_iff (fs : List (T → T)) (hfs : fs ≠ []) (x : T) :
    (default.chain (labelled 1 fs)).1.invocations x = expected 1 fs x ↔ fs.length = 1 := by
  obtain ⟨f, fs, rfl⟩ := List.exists_cons_of_ne_nil hfs
  rw [invocations_chain]
  constructor
  · intro h
    rw [← expected_length 1 (f :: fs) x, ← h, List.length_singleton]
  · intro h
    rw [List.length_cons, Nat.add_eq_right, List.length_eq_zero_iff] at h
    rw [h, expected, expected]

/-- One `then` runs as written. -/
theorem invocations_chain_iff_one :
    (default.chain (labelled 1 [fun i : Nat => i + 1])).1.invocations 1 =
      expected 1 [fun i => i + 1] 1 :=
  (invocations_chain_iff [fun i : Nat => i + 1] (by simp) 1).mpr rfl

/-- The chain of `test_then`: its second function is not called. -/
theorem second_then_not_invoked :
    (default.chain (labelled 1 [fun i : Nat => i + 1, fun _ => 0])).1.invocations 1 = [(1, 1)] ∧
      expected 1 [fun i : Nat => i + 1, fun _ => 0] 1 = [(1, 1), (2, 2)] :=
  ⟨rfl, rfl⟩

end ChainablePromise

end CppExamples.Practice
