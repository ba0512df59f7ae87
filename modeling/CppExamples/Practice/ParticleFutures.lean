import CppExamples.Lib.Machine
import Mathlib.Data.List.Nodup

/-!
# The futures of `ParticleFilter::run_pf` (`cjunk/practice/geoParticleFilter.cc:6-29`)

Each iteration launches one update for each particle and then calls `get` on `futures[0]`, …,
`futures[num_particles - 1]`. The loops are unrolled into the list of what they do (`program`), with
the loop counters; `num_particles` and `num_iterations` bound `int` counters, so these do not
overflow. The state has what decides which `get` is defined:

* a future is the update whose end it waits for, or `none` after its `get`. A second `get` has no
  result, as has one behind the end of the vector;
* of the weights, the particles they are read from. Printing calls `resample`, which reads the first
  weight (`geoParticleFilter.cc:45`) also where there is none.

`futures` is never cleared, so the second iteration waits for the futures of the first again.
Result: `awaits_iff`. Every update is waited for as it should be exactly if there are no particles,
or at most one iteration.
-/

namespace CppExamples.Practice.ParticleFilter

open Lib.Machine

/-- The update of a particle that an iteration launches. -/
structure Update where
  iteration : Nat
  particle : Nat
  deriving DecidableEq

/-- `futures` and `weights`, and the updates that have been waited for. -/
structure State where
  futures : List (Option Update) := []
  awaited : List Update := []
  weights : List Nat := []

/-- What iteration `i` does. -/
inductive Instr where
  /-- `futures.push_back(std::async(…, &particles[j], …))` -/
  | launch (i j : Nat)
  /-- `futures[j].get()` -/
  | get (i j : Nat)
  /-- `weights.clear()` -/
  | clear (i : Nat)
  /-- `weights.push_back(particles[j].weight)` -/
  | push (i j : Nat)
  /-- the output of `weights`, `normalize` and `resample` -/
  | print (i : Nat)

def step (s : State) : Instr → Option State
  | .launch i j => some { s with futures := s.futures ++ [some ⟨i, j⟩] }
  | .get _ j => do
    let future ← s.futures[j]?
    let update ← future
    return { s with futures := s.futures.set j none, awaited := s.awaited ++ [update] }
  | .clear _ => some { s with weights := [] }
  | .push _ j => some { s with weights := s.weights ++ [j] }
  | .print _ => do
    let _ ← s.weights[0]?
    return s

/-- One round of the loop over `i`. -/
def iteration (numParticles i : Nat) : List Instr :=
  (List.range numParticles).map (.launch i) ++ (List.range numParticles).map (.get i) ++
    [.clear i] ++ (List.range numParticles).map (.push i) ++ [.print i]

/-- `run_pf`. -/
def program (numParticles numIterations : Nat) : List Instr :=
  (List.range numIterations).flatMap (iteration numParticles)

/-- A `get` is applied to a future of its iteration that has not been consumed, and a weight is read
when each update of the iteration has been waited for once. -/
def Awaits (numParticles : Nat) (s : State) : Instr → Prop
  | .get i j => ∃ p, s.futures[j]? = some (some ⟨i, p⟩)
  | .push i _ => ∀ p < numParticles, s.awaited.count ⟨i, p⟩ = 1
  | _ => True

/-! ## The phases of an iteration -/

variable {s : State} {i k n : Nat}

theorem run_launch : run step s ((List.range k).map (.launch i)) =
    some { s with futures := s.futures ++ (List.range k).map fun j => some ⟨i, j⟩ } := by
  induction k with
  | zero => simp
  | succ k ih =>
    rw [List.range_succ, List.map_append, List.map_append, run_append, ih, ← List.append_assoc]
    rfl

theorem run_push : run step s ((List.range k).map (.push i)) =
    some { s with weights := s.weights ++ List.range k } := by
  induction k with
  | zero => simp
  | succ k ih =>
    rw [List.range_succ, List.map_append, run_append, ih, ← List.append_assoc]
    rfl

/-- The futures of an iteration, of which the first `k` have been consumed. -/
def consumed (i n k : Nat) : List (Option Update) :=
  (List.range n).map fun j => if j < k then none else some ⟨i, j⟩

theorem consumed_getElem? (h : k < n) : (consumed i n k)[k]? = some (some ⟨i, k⟩) := by
  rw [consumed, List.getElem?_map, List.getElem?_range h, Option.map_some,
    if_neg (Nat.lt_irrefl k)]

theorem consumed_succ : (consumed i n k).set k none = consumed i n (k + 1) := by
  refine List.ext_getElem (by simp [consumed]) fun j _ hj => ?_
  simp only [consumed, List.length_map, List.length_range] at hj
  simp only [consumed, List.getElem_set, List.getElem_map, List.getElem_range]
  by_cases hjk : k = j
  · rw [if_pos hjk, if_pos (by omega)]
  · rw [if_neg hjk]
    exact ite_congr (by rw [eq_iff_iff]; omega) (fun _ => rfl) (fun _ => rfl)

/-- The calls of `get` on the futures of their own iteration. -/
theorem run_get (h : s.futures = consumed i n 0) (hk : k ≤ n) :
    run step s ((List.range k).map (.get i)) = some { s with
      futures := consumed i n k, awaited := s.awaited ++ (List.range k).map (Update.mk i) } := by
  induction k with
  | zero => simp [← h]
  | succ k ih =>
    rw [List.range_succ, List.map_append, List.map_append, run_append, ih (by omega),
      ← List.append_assoc]
    simp only [Option.bind_some, List.map_singleton, run, step, consumed_getElem? hk,
      consumed_succ, Option.bind_eq_bind]
    rfl

theorem consumed_zero : consumed i n 0 = (List.range n).map fun j => some ⟨i, j⟩ := by
  simp [consumed]

/-! ## Whole runs -/

/-- The state after the first calls of `get`. -/
def gotten (n k : Nat) : State where
  futures := consumed 0 n k
  awaited := (List.range k).map (Update.mk 0)

theorem run_launch_first : run step {} ((List.range n).map (.launch 0)) = some (gotten n 0) := by
  rw [run_launch, gotten, consumed_zero]
  rfl

theorem run_get_first (hk : k ≤ n) :
    run step (gotten n 0) ((List.range k).map (.get 0)) = some (gotten n k) := by
  rw [run_get rfl hk]
  rfl

theorem run_until_push : run step {}
    ((List.range n).map (.launch 0) ++ (List.range n).map (.get 0) ++ [.clear 0]) =
      some (gotten n n) := by
  rw [run_append, run_append, run_launch_first, Option.bind_some, run_get_first (Nat.le_refl n)]
  rfl

/-- After the first iteration all futures are consumed. -/
theorem run_first (hn : 0 < n) :
    run step {} (iteration n 0) = some { gotten n n with weights := List.range n } := by
  have hfirst : (List.range n)[0]? = some 0 := List.getElem?_range hn
  rw [iteration, run_append, run_append, run_until_push, Option.bind_some, run_push,
    Option.bind_some, run, step, gotten, List.nil_append, hfirst]
  rfl

/-- The first iteration waits for each of its updates. -/
theorem meets_first (n : Nat) : Meets step (Awaits n) {} (iteration n 0) := by
  have hlaunch : Meets step (Awaits n) {} ((List.range n).map (.launch 0)) :=
    meets_of_forall (by simp [Awaits]) _
  have hget : Meets step (Awaits n) (gotten n 0) ((List.range n).map (.get 0)) := by
    rw [meets_map_range]
    intro k hk u hu
    rw [run_get_first (Nat.le_of_lt hk), Option.some.injEq] at hu
    subst hu
    exact ⟨k, consumed_getElem? hk⟩
  have hpush : Meets step (Awaits n) (gotten n n) ((List.range n).map (.push 0)) := by
    rw [meets_map_range]
    intro k hk u hu p hp
    rw [run_push, Option.some.injEq] at hu
    subst hu
    have hnodup : ((List.range n).map (Update.mk 0)).Nodup :=
      List.nodup_range.map fun a b hab => congrArg Update.particle hab
    exact List.count_eq_one_of_mem hnodup (List.mem_map_of_mem (List.mem_range.mpr hp))
  rw [iteration, meets_append, meets_append, meets_append, meets_append]
  refine ⟨⟨⟨⟨hlaunch, fun u hu => ?_⟩, fun u _ => ⟨trivial, fun _ _ => trivial⟩⟩, fun u hu => ?_⟩,
    fun u _ => ⟨trivial, fun _ _ => trivial⟩⟩
  · rw [run_launch_first, Option.some.injEq] at hu
    exact hu ▸ hget
  · rw [run_until_push, Option.some.injEq] at hu
    exact hu ▸ hpush

/-- Where the futures of the first iteration are consumed, the first `get` of the second one finds
one of these. -/
theorem not_meets_second (hn : 0 < n) (h : s.futures = consumed 0 n n) :
    ¬ Meets step (Awaits n) s (iteration n 1) := by
  intro hmeets
  rw [iteration, meets_append, meets_append, meets_append, meets_append] at hmeets
  have hget := hmeets.1.1.1.2 _ run_launch
  rw [meets_map_range] at hget
  obtain ⟨p, hp⟩ := hget 0 hn _ rfl
  have hlen : 0 < (consumed 0 n n).length := by
    rwa [consumed, List.length_map, List.length_range]
  rw [h, List.getElem?_append_left hlen, consumed, List.getElem?_map, List.getElem?_range hn,
    Option.map_some, if_pos hn] at hp
  cases hp

/-- **Every update is awaited** as it should be, in all iterations, if and only if there are no
particles or there is at most one iteration. -/
theorem awaits_iff (numParticles numIterations : Nat) :
    Meets step (Awaits numParticles) {} (program numParticles numIterations) ↔
      numParticles = 0 ∨ numIterations ≤ 1 := by
  constructor
  · intro h
    by_contra hmany
    obtain ⟨hn, hm⟩ := not_or.mp hmany
    obtain ⟨m, rfl⟩ := Nat.exists_eq_add_of_le (Nat.lt_of_not_le hm)
    have hpos : 0 < numParticles := Nat.pos_of_ne_zero hn
    have hprogram : program numParticles (1 + 1 + m) = iteration numParticles 0 ++
        (iteration numParticles 1 ++ (List.range m).flatMap fun k =>
          iteration numParticles (1 + 1 + k)) := by
      have htwo : List.range (1 + 1) = [0, 1] := rfl
      rw [program, List.range_add, List.flatMap_append, List.flatMap_map, htwo, List.flatMap_cons,
        List.flatMap_singleton, List.append_assoc]
    rw [hprogram, meets_append] at h
    have hsecond := (meets_append.mp (h.2 _ (run_first hpos))).1
    exact not_meets_second hpos rfl hsecond
  · rintro (rfl | hm)
    · refine meets_of_forall (fun instr hinstr s => ?_) _
      obtain ⟨i, -, hi⟩ := List.mem_flatMap.mp hinstr
      rcases List.mem_pair.mp hi with rfl | rfl
      · trivial
      · trivial
    · rcases Nat.le_one_iff_eq_zero_or_eq_one.mp hm with rfl | rfl
      · trivial
      · rw [program, List.range_one, List.flatMap_singleton]
        exact meets_first numParticles

/-- One particle and two iterations: the second `get` is called on the first future again. -/
theorem second_get_consumed : ∃ s, run step {} ((program 1 2).take 6) = some s ∧
    (program 1 2)[6]? = some (.get 1 0) ∧ s.futures = [none, some ⟨1, 0⟩] ∧
    ¬ Awaits 1 s (.get 1 0) ∧ step s (.get 1 0) = none := by
  refine ⟨_, rfl, rfl, rfl, ?_, rfl⟩
  rintro ⟨p, hp⟩
  cases hp

end CppExamples.Practice.ParticleFilter
