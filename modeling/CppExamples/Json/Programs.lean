import CppExamples.Json.Lifetimes

/-!
# Programs on the heap do what they do on values

`Represents s σ`: the variables of `s` own trees of blocks that mean the values of `σ`, and besides
them only blocks that were lost are on the heap.

* `run_refines`: every program on the heap does what the same program does on plain values, and both
  are defined for the same programs.
* `assign_undefined_iff`: which copy and move assignments between places are not defined.
* `blocks_of_run`: after every run there are on the heap as many blocks as there are arrays and
  objects in the variables, each with one owner, and those that were lost. A value is lost if it is
  moved into a place inside of itself, and only then.
-/

namespace CppExamples.Json.Ownership

open Lib Lib.Machine
open Owned (Addr Place Loc Rep getAt setAt blocksOf)

variable {D : Type}

/-- The variables of `s` own trees that mean the values, and as many blocks as are lost are left. -/
def Represents (s : State D) (σ : Values D) : Prop :=
  ∃ (ts : List (Tree Addr D)) (lost : List (Addr × Owned.Block (Payload D) Kind Bytes)),
    Rep s ts lost ∧ ts.map value = σ.vars ∧ lost.length = σ.lost

/-! ## Runs -/

theorem represents_start : Represents (start : State D) Values.start :=
  ⟨[], [], ⟨rfl, Owned.Heap.holds_empty⟩, rfl, rfl⟩

section Statements

variable {s : State D} {ts : List (Tree Addr D)}
  {lost : List (Addr × Owned.Block (Payload D) Kind Bytes)}

theorem declare_rel (hs : Rep s ts lost) (a : Scalar D) :
    Option.Rel (Means lost) (step s (.declare a)) (stepVars (ts.map value) (.declare a)) := by
  have hrep : Rep s ts ((Owned.Tree.leaf (.scalar a) : Tree Addr D).blocks ++ lost) := hs
  have hpush : Rep ⟨s.heap, s.vars ++ [.val (.scalar a)]⟩ (ts ++ [Owned.Tree.leaf (.scalar a)])
    lost := Owned.Rep.push_iff.mpr hrep
  refine .some ⟨ts ++ [Owned.Tree.leaf (.scalar a)], hpush, ?_⟩
  rw [List.map_append]
  rfl

theorem declareContainer_rel (hs : Rep s ts lost) (k : Kind) :
    Option.Rel (Means lost) (step s (.declareContainer k))
      (stepVars (ts.map value) (.declareContainer k)) := by
  have hrep : Rep (⟨s.heap.alloc [], s.vars⟩ : State D) ts
      ((Owned.Tree.node k s.heap.next [] : Tree Addr D).blocks ++ lost) := by
    refine ⟨hs.vars, (hs.holds.alloc []).perm ?_⟩
    exact List.perm_middle.symm
  refine .some ⟨ts ++ [Owned.Tree.node k s.heap.next []], Owned.Rep.push_iff.mpr hrep, ?_⟩
  rw [List.map_append]
  cases k <;> rfl

/-- A statement that refers to a place is defined only if it is there, on both sides. -/
theorem refer_rel {α β : Type} {R : α → β → Prop} {f : Loc → Option α} {g : Plain D → Option β}
    (hs : Rep s ts lost) (place : Place)
    (h : ∀ u loc, getAt ts place = some u → s.resolve place = some loc →
      s.read loc = some u.ref → Option.Rel R (f loc) (g (value u))) :
    Option.Rel R (refer s place >>= f) (partAt (ts.map value) place >>= g) := by
  rw [partAt_map]
  cases hu : getAt ts place with
  | none =>
    rw [refer_eq_none hs hu]
    exact .none
  | some u =>
    obtain ⟨loc, hrefer, hresolve, hread⟩ := refer_spec hs hu
    rw [hrefer]
    exact h u loc hu hresolve hread

theorem copy_rel (hs : Rep s ts lost) (src : Place) :
    Option.Rel (Means lost) (step s (.copy src)) (stepVars (ts.map value) (.copy src)) := by
  rw [stepVars, step]
  refine refer_rel hs src fun w other hw _ hread => ?_
  have hcopy := copyConstruct_spec hs hw hread
  by_cases hwhole : (value w).whole = true
  · rw [if_pos hwhole] at hcopy ⊢
    obtain ⟨s', w', hcopy, hrep, hmeans⟩ := hcopy
    have hvars : s'.vars = s.vars := hrep.vars.trans hs.vars.symm
    rw [hcopy]
    refine .some ⟨ts ++ [w'], hvars ▸ Owned.Rep.push_iff.mpr hrep, ?_⟩
    rw [List.map_append, List.map_singleton, hmeans]
  · rw [if_neg hwhole] at hcopy ⊢
    rw [hcopy]
    exact .none

theorem move_rel (hs : Rep s ts lost) (src : Place) (left : Bytes) :
    Option.Rel (Means lost) (step s (.move src left))
      (stepVars (ts.map value) (.move src left)) := by
  rw [stepVars, step]
  refine refer_rel hs src fun w other hw hother _ => ?_
  obtain ⟨s', a, hmove, ha, hrep⟩ := moveConstruct_spec hs hw hother left
  obtain ⟨a', ha', hmeans⟩ := exists_movedFrom left w
  obtain rfl := Owned.Ref.val.inj (ha'.symm.trans ha)
  rw [hmove]
  refine .some ⟨_, Owned.Rep.push_iff.mpr hrep, ?_⟩
  rw [List.map_append, map_setAt, hmeans]
  rfl

theorem assign_rel (hs : Rep s ts lost) (dst src : Place) :
    Option.Rel (Means lost) (step s (.assign dst src))
      (stepVars (ts.map value) (.assign dst src)) := by
  rw [stepVars, step]
  refine refer_rel hs dst fun u this hu hthis _ => ?_
  refine refer_rel hs src fun w other hw hother _ => ?_
  by_cases hne : dst = src
  · -- the source has a guard against self-assignment
    subst hne
    obtain rfl := Option.some.inj (hother.symm.trans hthis)
    rw [if_pos rfl, copyAssign, if_pos rfl]
    exact .some ⟨ts, hs, rfl⟩
  · have hspec := copyAssign_spec hs hu hw hthis hother hne
    rw [if_neg hne]
    split
    · rename_i hok
      rw [if_pos hok] at hspec
      obtain ⟨s', w', hassign, hrep, hmeans⟩ := hspec
      rw [hassign]
      refine .some ⟨_, hrep, ?_⟩
      rw [map_setAt, hmeans]
    · rename_i hok
      rw [if_neg hok] at hspec
      rw [hspec]
      exact .none

theorem pushBack_rel (hs : Rep s ts lost) (dst src : Place) :
    Option.Rel (Means lost) (step s (.pushBack dst src))
      (stepVars (ts.map value) (.pushBack dst src)) := by
  rw [stepVars, step]
  refine refer_rel hs dst fun u this hu _ hread => ?_
  refine refer_rel hs src fun w other hw _ hread' => ?_
  exact pushBack_spec hs hu hw hread hread'

theorem subscript_rel (hs : Rep s ts lost) (dst : Place) (key : Bytes) :
    Option.Rel (Means lost) (step s (.subscript dst key))
      (stepVars (ts.map value) (.subscript dst key)) := by
  rw [stepVars, step]
  exact refer_rel hs dst fun u this hu _ hread => subscript_spec hs hu hread key

theorem endScope_rel (hs : Rep s ts lost) :
    Option.Rel (Means lost) (step s .endScope) (stepVars (ts.map value) .endScope) := by
  rw [stepVars, step]
  rcases List.eq_nil_or_concat ts with rfl | ⟨ts, t, rfl⟩
  · have hvars : s.vars = [] := hs.vars
    rw [endScope, hvars]
    exact .none
  · rw [List.concat_eq_append] at hs ⊢
    obtain ⟨s', hs', hrep⟩ := endScope_spec hs
    rw [hs', List.map_append, List.map_singleton, List.getLast?_concat, List.dropLast_concat]
    exact .some ⟨ts, hrep, rfl⟩

/-- A statement that loses nothing. -/
theorem represents_of_means {o : Option (State D)} {stmt : Stmt D} {vs : List (Plain D)}
    (h : Option.Rel (Means lost) o (stepVars vs stmt)) (hloses : loses vs stmt = 0) :
    Option.Rel Represents o (stepValues ⟨vs, lost.length⟩ stmt) := by
  rw [stepValues]
  generalize stepVars vs stmt = o' at h
  cases h with
  | none => exact .none
  | some h =>
    obtain ⟨ts, hs, hvs⟩ := h
    exact .some ⟨ts, lost, hs, hvs, by rw [hloses]; rfl⟩

theorem moveAssign_rel (hs : Rep s ts lost) (dst src : Place) (left : Bytes) :
    Option.Rel Represents (step s (.moveAssign dst src left))
      (stepValues ⟨ts.map value, lost.length⟩ (.moveAssign dst src left)) := by
  simp only [stepValues, stepVars, step, Option.bind_eq_bind, Option.map_bind, Function.comp_def]
  refine refer_rel hs dst fun u this hu hthis _ => ?_
  refine refer_rel hs src fun w other hw hother _ => ?_
  have hspec := moveAssign_spec hs hu hw hthis hother left
  split at hspec
  · rename_i hdangles
    rw [if_pos hdangles, hspec]
    exact .none
  · rename_i hok
    obtain ⟨s', hmove, ts', more, hrep, hvs, hlen⟩ := hspec
    rw [if_neg hok, hmove]
    refine .some ⟨ts', more ++ lost, hrep, hvs, ?_⟩
    simp only [loses, partAt_map, hu, hw, Option.map_some, Option.elim_some, ← length_blocks]
    rw [List.length_append, hlen]
    exact Nat.add_comm _ _

end Statements

/-- **One statement** on the heap does what it does on values, or both are not defined. -/
theorem step_rel {s : State D} {σ : Values D} (stmt : Stmt D) (h : Represents s σ) :
    Option.Rel Represents (step s stmt) (stepValues σ stmt) := by
  obtain ⟨ts, lost, hs, hvs, hlost⟩ := h
  obtain rfl : σ = ⟨ts.map value, lost.length⟩ := by rw [hvs, hlost]
  cases stmt with
  | declare a => exact represents_of_means (declare_rel hs a) rfl
  | declareContainer k => exact represents_of_means (declareContainer_rel hs k) rfl
  | copy src => exact represents_of_means (copy_rel hs src) rfl
  | move src left => exact represents_of_means (move_rel hs src left) rfl
  | assign dst src => exact represents_of_means (assign_rel hs dst src) rfl
  | moveAssign dst src left => exact moveAssign_rel hs dst src left
  | pushBack dst src => exact represents_of_means (pushBack_rel hs dst src) rfl
  | subscript dst key => exact represents_of_means (subscript_rel hs dst key) rfl
  | endScope => exact represents_of_means (endScope_rel hs) rfl

theorem run_represents {s : State D} {σ : Values D} (h : Represents s σ) (program : List (Stmt D)) :
    Option.Rel Represents (run step s program) (run stepValues σ program) :=
  run_rel step_rel h program

/-- A statement after a program is defined if it is on the values. -/
theorem run_append_eq_none {program : List (Stmt D)} {σ : Values D}
    (hrun : run stepValues Values.start program = some σ) (stmt : Stmt D) :
    run step start (program ++ [stmt]) = none ↔ stepVars σ.vars stmt = none := by
  have hrel := run_represents represents_start (program ++ [stmt])
  have hlast : run stepValues Values.start (program ++ [stmt]) = stepValues σ stmt := by
    rw [run_append, hrun, Option.bind_some, run]
    exact Option.bind_fun_some _
  rw [hlast, stepValues] at hrel
  generalize run step start (program ++ [stmt]) = o, stepVars σ.vars stmt = o' at hrel ⊢
  cases o' with
  | none =>
    cases hrel
    exact iff_of_true rfl rfl
  | some vs =>
    cases hrel
    exact iff_of_false (Option.some_ne_none _) (Option.some_ne_none _)

/-- **An assignment between places that exist.** A copy assignment is not defined exactly where it
copies what has been moved from, or a null, a bool, an integer or a double from inside the target.
A move assignment is not defined exactly where it takes another alternative from inside the
target. -/
theorem assign_undefined_iff {program : List (Stmt D)} {σ : Values D} {dst src : Place}
    {v w : Plain D} (hrun : run stepValues Values.start program = some σ)
    (hv : partAt σ.vars dst = some v) (hw : partAt σ.vars src = some w) (left : Bytes) :
    (run step start (program ++ [.assign dst src]) = none ↔
      dst ≠ src ∧ (w.whole = false ∨ dst.Above src ∧ w.isScalar = true)) ∧
    (run step start (program ++ [.moveAssign dst src left]) = none ↔
      dst.Above src ∧ v.index ≠ w.index) := by
  constructor
  · rw [run_append_eq_none hrun, stepVars, hv, hw]
    simp only [Option.bind_eq_bind, Option.bind_some]
    by_cases hsame : dst = src
    · rw [if_pos hsame]
      exact iff_of_false (Option.some_ne_none _) fun h => h.1 hsame
    · have hnot : ¬ (w.whole = true ∧ ¬ (dst.Above src ∧ w.isScalar = true)) ↔
          w.whole = false ∨ dst.Above src ∧ w.isScalar = true := by
        rw [not_and_or, not_not, Bool.not_eq_true]
      rw [if_neg hsame, and_iff_right hsame, ← hnot]
      split
      · rename_i h
        exact iff_of_false (Option.some_ne_none _) (not_not.mpr h)
      · rename_i h
        exact iff_of_true rfl h
  · rw [run_append_eq_none hrun, stepVars, hv, hw]
    simp only [Option.bind_eq_bind, Option.bind_some]
    split
    · rename_i h
      exact iff_of_true rfl h
    · rename_i h
      exact iff_of_false (Option.some_ne_none _) h

/-- `v = v.get_array()[0]` and `v = std::move(v.get_array()[0])` for an array of a null. -/
theorem assign_undefined_iff_item :
    run step (start : State Unit) ([.declareContainer .array, .declare .null,
      .pushBack ⟨0, []⟩ ⟨1, []⟩] ++ [.assign ⟨0, []⟩ ⟨0, [0]⟩]) = none ∧
    run step (start : State Unit) ([.declareContainer .array, .declare .null,
      .pushBack ⟨0, []⟩ ⟨1, []⟩] ++ [.moveAssign ⟨0, []⟩ ⟨0, [0]⟩ []]) = none :=
  have h := assign_undefined_iff (v := .array [.scalar .null]) (w := .scalar .null) rfl rfl rfl []
  ⟨h.1.mpr ⟨by decide, .inr ⟨by decide, rfl⟩⟩, h.2.mpr ⟨by decide, by decide⟩⟩

/-! ## The blocks on the heap -/

/-- **Every block has one owner or is lost**: after every program the blocks on the heap are those
of the variables' trees, as many as there are arrays and objects in the values, and those that were
lost. None is lost if and only if no statement moves a value into a place inside of it. -/
theorem blocks_of_run (program : List (Stmt D)) :
    Option.Rel (fun (s : State D) (σ : Values D) =>
        (∃ (ts : List (Tree Addr D)) (lost : List (Addr × Owned.Block (Payload D) Kind Bytes)),
          Rep s ts lost ∧ (blocksOf ts).length = (σ.vars.map Plain.containers).sum ∧
            lost.length = σ.lost) ∧
          (σ.lost = 0 ↔ ∀ stmt ∈ program, stmt.intoItself = false))
      (run step start program) (run stepValues Values.start program) := by
  have hrel := run_represents represents_start program
  have hlost : ∀ {σ : Values D}, run stepValues Values.start program = some σ →
      (σ.lost = 0 ↔ ∀ stmt ∈ program, stmt.intoItself = false) := fun h =>
    (lost_of_run h).trans (and_iff_right rfl)
  generalize run step start program = o, run stepValues Values.start program = o' at hrel hlost
  cases hrel with
  | none => exact .none
  | some h =>
    obtain ⟨ts, lost, hs, hvs, hlen⟩ := h
    refine .some ⟨⟨ts, lost, hs, ?_, hlen⟩, hlost rfl⟩
    rw [← hvs, blocksOf, List.length_flatMap, List.map_map]
    exact congrArg List.sum (List.map_congr_left fun t _ => length_blocks t)

end CppExamples.Json.Ownership
