import CppExamples.Json.Plain

/-!
# What each function of `JsonValue` does to the trees

`Rep s ts temps`: the variables of `s` own the trees `ts`, and besides their blocks there are only
those of temporaries on the heap. For each function: between places that exist it changes the trees
as the statement changes the values, or it is not defined where the statement is not.

The functions that overwrite a slot are exchanges: the tree that was there goes, a temporary takes
its place. A move into a place inside of the source is the one case that is no exchange: the source
is a temporary by then, and the pointer to it is written into one of its own blocks
(`Rep.lose_spec`). From there on nothing leads to them.

* `copyConstruct_spec`, `copyAssign_spec`: a copy is defined where nothing has been moved from.
* `moveConstruct_spec`, `moveAssign_spec`: `Moved` is what a move does, with the blocks it loses.
* `pushBack_spec`, `subscript_spec`, `endScope_spec`.
-/

namespace CppExamples.Json.Ownership

open Lib Lib.Machine
open Owned (Addr Place Loc Rep getAt setAt blocksOf outsideAt)

variable {D : Type}

/-- The variables of `s` own trees that mean the values, and besides them there is `lost`. -/
def Means (lost : List (Addr × Owned.Block (Payload D) Kind Bytes)) (s : State D)
    (vs : List (Plain D)) : Prop :=
  ∃ ts : List (Tree Addr D), Rep s ts lost ∧ ts.map value = vs

section Functions

variable {s : State D} {ts : List (Tree Addr D)}
  {temps : List (Addr × Owned.Block (Payload D) Kind Bytes)} {place src dst : Place}
  {u w : Tree Addr D} {this other : Loc} {left : Bytes}

theorem refer_spec (hs : Rep s ts temps) (h : getAt ts place = some u) :
    ∃ loc, refer s place = some loc ∧ s.resolve place = some loc ∧ s.read loc = some u.ref := by
  obtain ⟨loc, hresolve, hread⟩ := hs.resolve_spec h
  refine ⟨loc, ?_, hresolve, hread⟩
  rw [refer, hresolve, Option.bind_eq_bind, Option.bind_some, hread, Option.bind_eq_bind,
    Option.bind_some, Option.pure_def]

theorem refer_eq_none (hs : Rep s ts temps) (h : getAt ts place = none) :
    refer s place = none := by
  have hnone := hs.read_eq_none h
  rw [refer]
  cases hloc : s.resolve place with
  | none => rfl
  | some loc =>
    rw [hloc, Option.bind_some] at hnone
    rw [Option.bind_eq_bind, Option.bind_some, hnone, Option.bind_eq_bind, Option.bind_none]

/-- Around the subtree at a place there are the rest of the trees and the temporaries. -/
theorem holds_split (hs : Rep s ts temps) (h : getAt ts place = some u) :
    s.heap.Holds (u.blocks ++ (outsideAt ts place ++ temps)) := by
  rw [← List.append_assoc]
  exact hs.holds.perm ((Owned.blocksOf_perm h).append_right temps)

/-- The copy constructor makes a temporary that means the same, if nothing has been moved from. -/
theorem copyConstruct_spec (hs : Rep s ts temps) (h : getAt ts src = some w)
    (hread : s.read other = some w.ref) :
    if (value w).whole then ∃ (s' : State D) (w' : Tree Addr D),
      copyConstruct s other = some (s', w'.ref) ∧ Rep s' ts (w'.blocks ++ temps) ∧
        value w' = value w
    else copyConstruct s other = none := by
  have hspec := Owned.Heap.copy_spec Payload.copyable (holds_split hs h)
  rw [whole_value, copyConstruct, hread, Option.bind_eq_bind, Option.bind_some]
  by_cases hall : w.all Payload.copyable = true
  · rw [if_pos hall] at hspec ⊢
    obtain ⟨heap, w', hcopy, hholds, hforget⟩ := hspec
    refine ⟨⟨heap, s.vars⟩, w', ?_, ⟨hs.vars, ?_⟩, ?_⟩
    · rw [hcopy]
      rfl
    · refine hholds.perm ?_
      rw [← List.append_assoc w.blocks]
      refine List.Perm.trans (((Owned.blocksOf_perm h).symm.append_right temps).append_left _) ?_
      rw [← List.append_assoc, ← List.append_assoc]
      exact List.perm_append_comm.append_right temps
    · rw [← value_forget w', hforget, value_forget]
  · rw [if_neg hall] at hspec ⊢
    rw [hspec]
    rfl

/-- What the variant's slot holds is freed. The slots inside of it are gone. -/
theorem destroy_spec (hs : Rep s ts temps) (h : getAt ts dst = some u)
    (hthis : s.resolve dst = some this) :
    ∃ s', destroy s this = some s' ∧ Rep s' (setAt ts dst (.leaf (.scalar .null))) temps ∧
      ∀ src w other, getAt ts src = some w → s.resolve src = some other → dst ≠ src →
        s'.read other = if dst.Above src then none else some w.ref := by
  obtain ⟨loc, hresolve, hread, hwrite⟩ := hs.write_spec h
  obtain rfl : loc = this := Option.some.inj (hresolve.symm.trans hthis)
  obtain ⟨heap, hfree, hholds⟩ := Owned.Heap.free_spec (holds_split hs h)
  obtain ⟨s', hs', hrep⟩ := hwrite heap (.leaf (.scalar .null)) temps hholds
  refine ⟨s', ?_, hrep, fun src w other hw hother hne => ?_⟩
  · rw [destroy, hread, Option.bind_eq_bind, Option.bind_some, hfree, Option.bind_eq_bind,
      Option.bind_some]
    exact hs'
  · have hloc : other ≠ loc := by
      rintro rfl
      exact hne (hs.resolve_inj h hw hthis hother)
    rw [Owned.State.read_of_write hs', if_neg hloc]
    exact hs.read_freed h hw hother hholds

/-- A temporary takes the place of what was held. -/
theorem emplace_spec {u' : Tree Addr D} (hs : Rep s ts (u'.blocks ++ temps))
    (h : getAt ts dst = some u) (hthis : s.resolve dst = some this) :
    ∃ s', emplace s this u'.ref = some s' ∧ Rep s' (setAt ts dst u') temps := by
  obtain ⟨s₁, hdestroy, hrep, -⟩ := destroy_spec hs h hthis
  have hthis₁ := (hs.resolve_setAt hrep h h (Place.not_above_self dst)).trans hthis
  obtain ⟨s', hwrite, hrep'⟩ := hrep.exchange_spec (Owned.getAt_setAt_self h _) hthis₁
  rw [Owned.setAt_setAt_self] at hrep'
  refine ⟨s', ?_, hrep'⟩
  rw [emplace, hdestroy, Option.bind_eq_bind, Option.bind_some, hwrite]

/-- The assignment of an alternative that is held in place: not defined where it comes from inside
what the assignment destroys. -/
theorem assignScalar_spec {arg : Scalar D} (hs : Rep s ts temps) (hu : getAt ts dst = some u)
    (hw : getAt ts src = some (.leaf (.scalar arg))) (hthis : s.resolve dst = some this)
    (hother : s.resolve src = some other) (hne : dst ≠ src) :
    if dst.Above src then assignScalar s this other arg = none
    else ∃ s', assignScalar s this other arg = some s' ∧
      Rep s' (setAt ts dst (.leaf (.scalar arg))) temps := by
  rw [assignScalar, hs.read_of_resolve hu hthis, Option.bind_eq_bind, Option.bind_some]
  by_cases hindex : index u.ref = arg.index
  · obtain ⟨a, rfl⟩ := exists_scalar fun k => hindex ▸ arg.index_ne_pointer k
    have hnot : ¬ dst.Above src := fun h => by
      rw [Owned.getAt_eq_none_of_leaf hu h] at hw
      exact absurd hw (Option.some_ne_none _).symm
    rw [if_pos hindex, if_neg hnot]
    exact hs.write_val_spec hu hthis _
  · obtain ⟨s₁, hdestroy, hrep, hreads⟩ := destroy_spec hs hu hthis
    rw [if_neg hindex, hdestroy, Option.bind_eq_bind, Option.bind_some, hreads _ _ _ hw hother hne]
    split
    · rfl
    · have hthis₁ := (hs.resolve_setAt hrep hu hu (Place.not_above_self dst)).trans hthis
      obtain ⟨s', hwrite, hrep'⟩ :=
        hrep.write_val_spec (Owned.getAt_setAt_self hu _) hthis₁ (.scalar arg)
      rw [Owned.setAt_setAt_self] at hrep'
      exact ⟨s', hwrite, hrep'⟩

/-- **Copy assignment** between two places. -/
theorem copyAssign_spec (hs : Rep s ts temps) (hu : getAt ts dst = some u)
    (hw : getAt ts src = some w) (hthis : s.resolve dst = some this)
    (hother : s.resolve src = some other) (hne : dst ≠ src) :
    if (value w).whole = true ∧ ¬ (dst.Above src ∧ (value w).isScalar = true) then
      ∃ s' w', copyAssign s this other = some s' ∧ Rep s' (setAt ts dst w') temps ∧
        value w' = value w
    else copyAssign s this other = none := by
  have hread := hs.read_of_resolve hw hother
  have hloc : this ≠ other := fun heq => hne (hs.resolve_inj hu hw hthis (heq ▸ hother))
  rw [copyAssign, if_neg hloc, hread, Option.bind_eq_bind, Option.bind_some]
  cases w with
  | node k p items =>
    have hscalar : ¬ (value (.node k p items : Tree Addr D)).isScalar = true := by
      cases k <;> exact Bool.false_ne_true
    have hcopy := copyConstruct_spec hs hw hread
    by_cases hwhole : (value (.node k p items : Tree Addr D)).whole = true
    · rw [if_pos hwhole] at hcopy
      obtain ⟨s₁, w', hcopy, hrep, hmeans⟩ := hcopy
      obtain ⟨s', hemplace, hrep'⟩ := emplace_spec hrep hu ((hs.resolve_congr hrep hu).trans hthis)
      rw [if_pos ⟨hwhole, fun h => hscalar h.2⟩]
      refine ⟨s', w', ?_, hrep', hmeans⟩
      rw [Owned.Tree.ref]
      simp only [hcopy, Option.bind_eq_bind, Option.bind_some, hemplace]
    · rw [if_neg hwhole] at hcopy
      rw [if_neg fun h => hwhole h.1]
      simp only [Owned.Tree.ref, hcopy, Option.bind_eq_bind, Option.bind_none]
  | leaf a =>
    cases a with
    | nullptr k => rw [if_neg fun h => Bool.false_ne_true h.1]; rfl
    | scalar a =>
      have hscalar := assignScalar_spec hs hu hw hthis hother hne
      have hconv : a.index ≠ .string →
          (if (value (.leaf (.scalar a) : Tree Addr D)).whole = true ∧
              ¬ (dst.Above src ∧ (value (.leaf (.scalar a) : Tree Addr D)).isScalar = true) then
            ∃ s' w', assignScalar s this other a = some s' ∧ Rep s' (setAt ts dst w') temps ∧
              value w' = value (.leaf (.scalar a) : Tree Addr D)
          else assignScalar s this other a = none) := by
        intro hstring
        have his : (value (.leaf (.scalar a) : Tree Addr D)).isScalar = true := by
          cases a <;> first | rfl | exact absurd rfl hstring
        have hwhole : (value (.leaf (.scalar a) : Tree Addr D)).whole = true := rfl
        simp only [hwhole, his, and_true, true_and]
        split
        · rename_i hnot
          rw [if_neg hnot] at hscalar
          obtain ⟨s', hassign, hrep⟩ := hscalar
          exact ⟨s', _, hassign, hrep, rfl⟩
        · rename_i hnot
          rwa [if_pos (not_not.mp hnot)] at hscalar
      cases a with
      | string str =>
        have htemp : Rep s ts
          ((Owned.Tree.leaf (.scalar (.string str)) : Tree Addr D).blocks ++ temps) := hs
        obtain ⟨s', hemplace, hrep⟩ := emplace_spec htemp hu hthis
        rw [if_pos ⟨rfl, fun h => Bool.false_ne_true h.2⟩]
        exact ⟨s', _, hemplace, hrep, rfl⟩
      | _ => exact hconv fun h => Alternative.noConfusion h

/-! ### Moves -/

/-- The move constructor makes a temporary of what was there. -/
theorem moveConstruct_spec (hs : Rep s ts temps) (hw : getAt ts src = some w)
    (hother : s.resolve src = some other) (left : Bytes) :
    ∃ s' a, moveConstruct s other left = some (s', w.ref) ∧
      movedFrom left w.ref = .val a ∧ Rep s' (setAt ts src (.leaf a)) (w.blocks ++ temps) := by
  obtain ⟨a, ha, -⟩ := exists_movedFrom left w
  obtain ⟨s', hwrite, hrep⟩ := hs.write_val_spec hw hother a
  refine ⟨s', a, ?_, ha, hrep⟩
  rw [moveConstruct, hs.read_of_resolve hw hother, Option.bind_eq_bind, Option.bind_some, ha,
    hwrite]
  rfl

/-- `reset(other.release())` where the target stays in reach. -/
theorem resetRelease_spec (hs : Rep s ts temps) (hu : getAt ts dst = some u)
    (hw : getAt ts src = some w) (hthis : s.resolve dst = some this)
    (hother : s.resolve src = some other) (hnot : ¬ src.Above dst) (k : Kind) :
    ∃ s', resetRelease s this other k = some s' ∧
      Rep s' (setAt (setAt ts src (.leaf (.nullptr k))) dst w) temps := by
  have hread := hs.read_of_resolve hw hother
  obtain ⟨s₁, hwrite₁, hrep₁⟩ := hs.write_val_spec hw hother (.nullptr k)
  obtain ⟨u₁, hu₁⟩ : ∃ u₁, getAt (setAt ts src (.leaf (.nullptr k))) dst = some u₁ := by
    by_cases hsame : src = dst
    · subst hsame
      exact ⟨_, Owned.getAt_setAt_self hw _⟩
    · obtain ⟨u₁, hu₁, -⟩ := Owned.exists_getAt_setAt hw hu hsame hnot
      exact ⟨u₁, hu₁⟩
  have hthis₁ := (hs.resolve_setAt hrep₁ hw hu hnot).trans hthis
  have hread₁ := hrep₁.read_of_resolve hu₁ hthis₁
  obtain ⟨s₂, hwrite₂, hrep₂⟩ := hrep₁.exchange_spec hu₁ hthis₁
  obtain ⟨heap, hfree, hrep₃⟩ := hrep₂.free_spec
  refine ⟨_, ?_, hrep₃⟩
  simp only [resetRelease, hread, hwrite₁, hread₁, hwrite₂, hfree, Option.bind_eq_bind,
    Option.bind_some, Option.pure_def]

/-- `reset(other.release())` where the target is inside of the source. -/
theorem resetRelease_lose (hs : Rep s ts temps) (hu : getAt ts dst = some u)
    (hw : getAt ts src = some w) (hthis : s.resolve dst = some this)
    (hother : s.resolve src = some other) (habove : src.Above dst) (k : Kind) :
    ∃ s' lost, resetRelease s this other k = some s' ∧
      Rep s' (setAt ts src (.leaf (.nullptr k))) (lost ++ temps) ∧
      lost.length + u.blocks.length = w.blocks.length := by
  have hread := hs.read_of_resolve hw hother
  obtain ⟨s₁, hwrite₁, hrep₁⟩ := hs.write_val_spec hw hother (.nullptr k)
  obtain ⟨path, k', p, front, l, back, hget, rfl⟩ := hs.exists_slot hw hu habove hthis
  obtain ⟨hread₁, s₂, lost, hwrite₂, hrep₂, hlen⟩ := hrep₁.lose_spec hget w.ref
  obtain ⟨heap, hfree, hrep₃⟩ := hrep₂.free_spec
  refine ⟨_, lost, ?_, hrep₃, hlen⟩
  simp only [resetRelease, hread, hwrite₁, hread₁, hwrite₂, hfree, Option.bind_eq_bind,
    Option.bind_some, Option.pure_def]

/-- What has been moved is lost, or nothing is. -/
def Moved (ts : List (Tree Addr D)) (dst src : Place) (u w : Tree Addr D) (left : Bytes)
    (temps : List (Addr × Owned.Block (Payload D) Kind Bytes)) (s' : State D) : Prop :=
  ∃ (ts' : List (Tree Addr D)) (lost : List (Addr × Owned.Block (Payload D) Kind Bytes)),
    Rep s' ts' (lost ++ temps) ∧ ts'.map value = moved (ts.map value) dst src (value w) left ∧
      lost.length = if src.Above dst then w.blocks.length - u.blocks.length else 0

/-- Where the alternatives are the same, the pointer is handed over. -/
theorem moveAssign_pointer {k : Kind} (hs : Rep s ts temps) (hu : getAt ts dst = some u)
    (hw : getAt ts src = some w) (hthis : s.resolve dst = some this)
    (hother : s.resolve src = some other) (hindex : index w.ref = .pointer k) :
    ∃ s', resetRelease s this other k = some s' ∧ Moved ts dst src u w left temps s' := by
  have hvalue : (value w).index = .pointer k := (index_value w).trans hindex
  have hmap : (setAt (setAt ts src (.leaf (.nullptr k))) dst w).map value =
      moved (ts.map value) dst src (value w) left := by
    rw [moved, hvalue, afterMove_of_pointer hvalue, map_setAt, map_setAt]
    rfl
  by_cases habove : src.Above dst
  · obtain ⟨s', lost, hreset, hrep, hlen⟩ := resetRelease_lose hs hu hw hthis hother habove k
    refine ⟨s', hreset, _, lost, hrep, ?_, by rw [if_pos habove]; omega⟩
    have hnull := Owned.getAt_setAt_self hw (.leaf (.nullptr k))
    have hgone := Owned.getAt_eq_none_of_leaf hnull habove
    rw [← hmap, Owned.setAt_of_getAt_eq_none hgone]
  · obtain ⟨s', hreset, hrep⟩ := resetRelease_spec hs hu hw hthis hother habove k
    exact ⟨s', hreset, _, [], hrep, hmap, by rw [if_neg habove, List.length_nil]⟩

/-- Two scalars of the same alternative: assigned, and then left behind. -/
theorem moveAssign_scalar {a b : Scalar D} (hs : Rep s ts temps)
    (hu : getAt ts dst = some (.leaf (.scalar b))) (hw : getAt ts src = some (.leaf (.scalar a)))
    (hthis : s.resolve dst = some this) (hother : s.resolve src = some other) (left : Bytes) :
    ∃ s₁ s', s.write this (.val (.scalar a)) = some s₁ ∧
      s₁.write other (movedFrom left (.val (.scalar a))) = some s' ∧
      Moved ts dst src (.leaf (.scalar b)) (.leaf (.scalar a)) left temps s' := by
  have hnotAbove : ∀ {p q : Place} {a b : Payload D}, getAt ts p = some (.leaf a) →
      getAt ts q = some (.leaf b) → ¬ p.Above q := fun hp hq h => by
    rw [Owned.getAt_eq_none_of_leaf hp h] at hq
    exact absurd hq (Option.some_ne_none _).symm
  obtain ⟨m, hm, hmeans⟩ := exists_movedFrom left (.leaf (.scalar a) : Tree Addr D)
  obtain ⟨s₁, hwrite₁, hrep₁⟩ := hs.write_val_spec hu hthis (.scalar a)
  obtain ⟨w₁, hw₁⟩ : ∃ w₁, getAt (setAt ts dst (.leaf (.scalar a))) src = some (.leaf w₁) := by
    by_cases hsame : dst = src
    · subst hsame
      exact ⟨_, Owned.getAt_setAt_self hu _⟩
    · obtain ⟨w₁, hw₁, href⟩ :=
        Owned.exists_getAt_setAt (u := .leaf (.scalar a)) hu hw hsame (hnotAbove hu hw)
      cases w₁ with
      | leaf a => exact ⟨a, hw₁⟩
      | node k p items => exact absurd href (by simp [Owned.Tree.ref])
  have hother₁ := (hs.resolve_setAt hrep₁ hu hw (hnotAbove hu hw)).trans hother
  obtain ⟨s', hwrite₂, hrep₂⟩ := hrep₁.write_val_spec hw₁ hother₁ m
  refine ⟨s₁, s', hwrite₁, hm ▸ hwrite₂, _, [], hrep₂, ?_, ?_⟩
  · rw [map_setAt, map_setAt, hmeans, moved]
    cases a <;> rfl
  · rw [if_neg (hnotAbove hw hu), List.length_nil]

/-- Another alternative is destroyed before the source is read, which must not go with it. -/
theorem moveAssign_other (hs : Rep s ts temps) (hu : getAt ts dst = some u)
    (hw : getAt ts src = some w) (hthis : s.resolve dst = some this)
    (hother : s.resolve src = some other) (hne : dst ≠ src) (left : Bytes) :
    ∃ s₁, destroy s this = some s₁ ∧
      if dst.Above src then moveConstruct s₁ other left = none
      else ∃ s₂ data s', moveConstruct s₁ other left = some (s₂, data) ∧
        s₂.write this data = some s' ∧ Moved ts dst src u w left temps s' := by
  obtain ⟨s₁, hdestroy, hrep₁, hreads⟩ := destroy_spec hs hu hthis
  refine ⟨s₁, hdestroy, ?_⟩
  by_cases hgone : dst.Above src
  · rw [if_pos hgone, moveConstruct, hreads _ _ _ hw hother hne, if_pos hgone]
    rfl
  rw [if_neg hgone]
  have hthis₁ := (hs.resolve_setAt hrep₁ hu hu (Place.not_above_self dst)).trans hthis
  have hother₁ := (hs.resolve_setAt hrep₁ hu hw hgone).trans hother
  have hz := Owned.getAt_setAt_self hu (.leaf (.scalar .null))
  obtain ⟨w₁, hw₁, href⟩ :=
    Owned.exists_getAt_setAt (u := .leaf (.scalar .null)) hu hw hne hgone
  obtain ⟨s₂, m, hmove, hm, hrep₂⟩ := moveConstruct_spec hrep₁ hw₁ hother₁ left
  obtain ⟨m', hm', hmeans⟩ := exists_movedFrom left w
  obtain rfl : m' = m := by
    rw [href, hm'] at hm
    exact Owned.Ref.val.inj hm
  rcases src.cases_of dst with heq | habove | hbelow | hapart
  · exact absurd heq.symm hne
  · -- the target is inside of the source
    obtain ⟨i, r, rfl⟩ := habove.exists_path
    obtain ⟨path, k, p, front, l, back, hget, rfl⟩ := hrep₁.exists_slot hw₁ hz habove hthis₁
    obtain ⟨-, s', lost, hwrite, hrep₃, hlen⟩ := hrep₂.lose_spec hget w₁.ref
    refine ⟨s₂, w₁.ref, s', hmove, hwrite, _, lost, hrep₃, ?_, ?_⟩
    · have hindex : ∃ k, (value w).index = .pointer k := by
        cases w with
        | leaf a =>
          rw [Owned.getAt_eq_none_of_leaf hw habove] at hu
          exact absurd hu (Option.some_ne_none _).symm
        | node k p items => exact ⟨k, by rw [index_value]; rfl⟩
      obtain ⟨k, hindex⟩ := hindex
      have hgone := Owned.getAt_eq_none_of_leaf (Owned.getAt_setAt_self hw (.leaf m')) habove
      rw [Owned.setAt_setAt_of_above habove, moved, hindex, ← hmeans, ← map_setAt, ← map_setAt,
        Owned.setAt_of_getAt_eq_none hgone]
    · have hw₁' := Owned.getAt_setAt_above hw (i := i) (r := r) (.leaf (.scalar .null))
      obtain rfl := Option.some.inj (hw₁.symm.trans hw₁')
      rw [Owned.getAt_append hw] at hu
      have hblocks := Owned.Tree.length_blocks_set hu (.leaf (.scalar .null))
      have hnil : (Owned.Tree.leaf (.scalar .null) : Tree Addr D).blocks.length = 0 := rfl
      rw [if_pos habove]
      omega
  · exact absurd hbelow hgone
  · -- two places apart
    have hnotAbove : ¬ src.Above dst := fun h => (hapart h.1).1 h.2.1
    rw [Owned.getAt_setAt_of_apart hapart.symm, hw] at hw₁
    obtain rfl := Option.some.inj hw₁
    have hz₂ : getAt (setAt (setAt ts dst (.leaf (.scalar .null))) src (.leaf m')) dst =
        some (.leaf (.scalar .null)) := by rw [Owned.getAt_setAt_of_apart hapart, hz]
    have hw₁ : getAt (setAt ts dst (.leaf (.scalar .null))) src = some w := by
      rw [Owned.getAt_setAt_of_apart hapart.symm, hw]
    have hthis₂ := (hrep₁.resolve_setAt hrep₂ hw₁ hz hnotAbove).trans hthis₁
    obtain ⟨s', hwrite, hrep₃⟩ := hrep₂.exchange_spec hz₂ hthis₂
    refine ⟨s₂, w.ref, s', hmove, hwrite, _, [], hrep₃, ?_,
      by rw [if_neg hnotAbove, List.length_nil]⟩
    rw [Owned.setAt_comm hapart.symm, Owned.setAt_setAt_self, moved, ← hmeans, ← map_setAt,
      ← map_setAt, ← map_setAt, ← map_setAt, Owned.setAt_comm hapart.symm]
    split <;> rfl

/-- **Move assignment** between two places. -/
theorem moveAssign_spec (hs : Rep s ts temps) (hu : getAt ts dst = some u)
    (hw : getAt ts src = some w) (hthis : s.resolve dst = some this)
    (hother : s.resolve src = some other) (left : Bytes) :
    if dst.Above src ∧ (value u).index ≠ (value w).index then
      moveAssign s this other left = none
    else ∃ s', moveAssign s this other left = some s' ∧ Moved ts dst src u w left temps s' := by
  rw [index_value, index_value, moveAssign, hs.read_of_resolve hu hthis,
    hs.read_of_resolve hw hother]
  simp only [Option.bind_eq_bind, Option.bind_some]
  by_cases hindex : index u.ref = index w.ref
  · rw [if_neg fun h => h.2 hindex, if_pos hindex]
    by_cases hpointer : ∃ k, index w.ref = .pointer k
    · obtain ⟨k, hk⟩ := hpointer
      rw [hk]
      exact moveAssign_pointer hs hu hw hthis hother hk
    · rw [not_exists] at hpointer
      obtain ⟨a, rfl⟩ := exists_scalar hpointer
      obtain ⟨b, rfl⟩ := exists_scalar (t := u) fun k => hindex ▸ hpointer k
      obtain ⟨s₁, s', hwrite₁, hwrite₂, hmoved⟩ := moveAssign_scalar hs hu hw hthis hother left
      refine ⟨s', ?_, hmoved⟩
      rw [Owned.Tree.ref]
      cases a <;> exact Option.bind_eq_some_iff.mpr ⟨s₁, hwrite₁, hwrite₂⟩
  · have hne : dst ≠ src := by
      rintro rfl
      exact hindex (congrArg _ (Option.some.inj (hu.symm.trans hw) ▸ rfl))
    obtain ⟨s₁, hdestroy, hrest⟩ := moveAssign_other hs hu hw hthis hother hne left
    rw [if_neg hindex, hdestroy, Option.bind_some]
    simp only [ne_eq, hindex, not_false_eq_true, and_true]
    split
    · rename_i habove
      rw [if_pos habove] at hrest
      rw [hrest]
      rfl
    · rename_i habove
      rw [if_neg habove] at hrest
      obtain ⟨s₂, data, s', hmove, hwrite, hmoved⟩ := hrest
      exact ⟨s', by rw [hmove]; exact hwrite, hmoved⟩

/-- A block whose items change in place. -/
theorem store_spec {k : Kind} {p : Addr} {items : List (Bytes × Tree Addr D)}
    {extra : List (Addr × Owned.Block (Payload D) Kind Bytes)} (hs : Rep s ts (extra ++ temps))
    (hu : getAt ts dst = some (.node k p items)) (items' : List (Bytes × Tree Addr D))
    (hitems : (Owned.Tree.blocksItems items').Perm (Owned.Tree.blocksItems items ++ extra)) :
    s.heap.block p = some (Owned.Tree.refs items) ∧
      Rep ⟨s.heap.store p (Owned.Tree.refs items'), s.vars⟩ (setAt ts dst (.node k p items'))
        temps := by
  have hholds := holds_split hs hu
  rw [Owned.Tree.blocks, List.cons_append] at hholds
  refine ⟨hholds.block_eq List.mem_cons_self, hs.store_spec hu ((hholds.store _).perm ?_)⟩
  rw [Owned.Tree.blocks, List.cons_append]
  refine List.Perm.cons _ (List.Perm.trans ?_ (hitems.symm.append_right _))
  rw [List.append_assoc, ← List.append_assoc (outsideAt ts dst),
    ← List.append_assoc extra]
  exact (List.perm_append_comm.append_right temps).append_left _

theorem pushBack_spec (hs : Rep s ts temps) (hu : getAt ts dst = some u)
    (hw : getAt ts src = some w) (hthis : s.read this = some u.ref)
    (hother : s.read other = some w.ref) :
    Option.Rel (Means temps) (pushBack s this other) (match value u with
      | .array arr =>
        if (value w).whole then some (withPartAt (ts.map value) dst (.array (arr ++ [value w])))
        else none
      | .movedFrom .array => none
      | _ => some (ts.map value)) := by
  rw [pushBack, hthis, Option.bind_eq_bind, Option.bind_some]
  cases u with
  | leaf a =>
    cases a with
    | scalar a =>
      simp only [Owned.Tree.ref, hother, Option.bind_some, Option.pure_def]
      exact .some ⟨ts, hs, rfl⟩
    | nullptr k =>
      cases k with
      | array => exact .none
      | object =>
        simp only [Owned.Tree.ref, hother, Option.bind_some, Option.pure_def]
        exact .some ⟨ts, hs, rfl⟩
  | node k p items =>
    cases k with
    | object =>
      simp only [Owned.Tree.ref, hother, Option.bind_some, Option.pure_def]
      exact .some ⟨ts, hs, rfl⟩
    | array =>
      have hcopy := copyConstruct_spec hs hw hother
      rw [Owned.Tree.ref, value_array]
      by_cases hwhole : (value w).whole = true
      · rw [if_pos hwhole] at hcopy
        obtain ⟨s₁, w', hcopy, hrep, hmeans⟩ := hcopy
        obtain ⟨hblock, hstore⟩ := store_spec hrep hu (items ++ [([], w')]) (by
          rw [Owned.Tree.blocksItems_append, Owned.Tree.blocksItems, Owned.Tree.blocksItems,
            List.append_nil])
        simp only [hcopy, Option.bind_eq_bind, Option.bind_some, hblock, Option.pure_def, hwhole,
          if_true]
        refine .some ⟨_, Owned.Tree.refs_append items [([], w')] ▸ hstore, ?_⟩
        rw [map_setAt, value_array, List.map_append, List.map_singleton, hmeans]
      · rw [if_neg hwhole] at hcopy
        simp only [hcopy, Option.bind_eq_bind, Option.bind_none, hwhole, Bool.false_eq_true,
          if_false]
        exact .none

theorem subscript_spec (hs : Rep s ts temps) (hu : getAt ts dst = some u)
    (hthis : s.read this = some u.ref) (key : Bytes) :
    Option.Rel (Means temps) (subscript s this key) (match value u with
      | .object obj =>
        if (OrdMap.find? obj key).isSome then some (ts.map value)
        else some (withPartAt (ts.map value) dst (.object (OrdMap.assign obj key (.scalar .null))))
      | .movedFrom .object => none
      | _ => some (ts.map value)) := by
  rw [subscript, hthis, Option.bind_eq_bind, Option.bind_some]
  cases u with
  | leaf a =>
    cases a with
    | scalar a => exact .some ⟨ts, hs, rfl⟩
    | nullptr k =>
      cases k with
      | array => exact .some ⟨ts, hs, rfl⟩
      | object => exact .none
  | node k p items =>
    cases k with
    | array => exact .some ⟨ts, hs, rfl⟩
    | object =>
      have hrefs : OrdMap.find? (Owned.Tree.refs items) key =
          (OrdMap.find? items key).map Owned.Tree.ref := OrdMap.find?_map _ items key
      have hs' : Rep s ts ([] ++ temps) := hs
      have hblock := (store_spec hs' hu items (by rw [List.append_nil])).1
      rw [Owned.Tree.ref, value_object]
      simp only [hblock, Option.bind_eq_bind, Option.bind_some, hrefs, Option.isSome_map,
        OrdMap.find?_map]
      cases hfind : OrdMap.find? items key with
      | some t => exact .some ⟨ts, hs, rfl⟩
      | none =>
        obtain ⟨front, back, rfl, hassign⟩ :=
          OrdMap.exists_assign hfind (Owned.Tree.leaf (Payload.scalar Scalar.null))
        obtain ⟨-, hstore⟩ := store_spec hs' hu
          (OrdMap.assign (front ++ back) key (.leaf (.scalar .null))) (by
            rw [hassign, List.append_nil, Owned.Tree.blocksItems_append,
              Owned.Tree.blocksItems_append, Owned.Tree.blocksItems, Owned.Tree.blocks,
              List.nil_append])
        have hmap : Owned.Tree.refs (OrdMap.assign (front ++ back) key (.leaf (.scalar .null))) =
            OrdMap.assign (Owned.Tree.refs (front ++ back)) key (.val (.scalar .null)) :=
          (OrdMap.assign_map Owned.Tree.ref (front ++ back) key (.leaf (.scalar .null))).symm
        simp only [Option.isSome_none, Bool.false_eq_true, if_false, Option.pure_def]
        refine .some ⟨_, hmap ▸ hstore, ?_⟩
        rw [map_setAt, value_object]
        exact congrArg (fun obj => withPartAt (ts.map value) dst (.object obj))
          (OrdMap.assign_map value (front ++ back) key (.leaf (.scalar .null))).symm

theorem endScope_spec {t : Tree Addr D} (hs : Rep s (ts ++ [t]) temps) :
    ∃ s', endScope s = some s' ∧ Rep s' ts temps := by
  have hvars : s.vars = ts.map Owned.Tree.ref ++ [t.ref] := by
    rw [hs.vars, List.map_append, List.map_singleton]
  have hrest : Rep (⟨s.heap, ts.map Owned.Tree.ref⟩ : State D) ts (t.blocks ++ temps) := by
    refine Owned.Rep.push_iff.mp ?_
    rw [← hvars]
    exact hs
  obtain ⟨heap, hfree, hrep⟩ := hrest.free_spec
  refine ⟨⟨heap, ts.map Owned.Tree.ref⟩, ?_, hrep⟩
  rw [endScope, hvars, List.getLast?_concat, List.dropLast_concat, Option.bind_eq_bind,
    Option.bind_some, hfree]
  rfl

end Functions

end CppExamples.Json.Ownership
