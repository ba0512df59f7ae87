import CppExamples.Lib.Machine
import Mathlib.Data.List.Nodup
import Mathlib.Logic.Function.Basic

/-!
# Tables of handles

A handle is a number that is given out by an opening and taken back by a close. After that it is
given out again, to somebody else: whoever still has the number has no way to tell. So each opening
has a number of its own, `calls`, that is never used twice, and a table says which opening an open
handle comes from.

* `run_close_eq_some`: a number of closes, one after another, succeeds if and only if they are of
  different open handles.
* `Over`: an opening has been closed. It stays so (`Over.give`, `Over.close`), and closing a handle
  makes its opening one that is over (`over_of_close`), where no two handles come from one opening.
-/

namespace CppExamples.Lib.Handles

open Machine

/-- The opening of each open handle, and the number of openings. -/
structure Table where
  opening : Nat → Option Nat
  calls : Nat

namespace Table

variable {t u : Table} {h : Nat} {hs : List Nat} {o : Nat}

/-- Open `h`, which must not be open. -/
def give (t : Table) (h : Nat) : Option Table :=
  if t.opening h = none then
    some { opening := Function.update t.opening h (some t.calls), calls := t.calls + 1 }
  else none

/-- Close `h`, which must be open. -/
def close (t : Table) (h : Nat) : Option Table :=
  if t.opening h = none then none
  else some { t with opening := Function.update t.opening h none }

/-- The table with some handles closed. -/
def without (t : Table) (hs : List Nat) : Table :=
  { t with opening := fun h => if h ∈ hs then none else t.opening h }

theorem give_eq_some : t.give h = some u ↔ t.opening h = none ∧
    u = { opening := Function.update t.opening h (some t.calls), calls := t.calls + 1 } := by
  rw [give, Option.ite_none_right_eq_some, Option.some.injEq, eq_comm (a := u)]

theorem close_eq_some : t.close h = some u ↔ t.opening h ≠ none ∧ u = t.without [h] := by
  have hwithout : t.without [h] = { t with opening := Function.update t.opening h none } := by
    rw [without]
    congr 1
    funext k
    by_cases hk : k = h <;> simp [hk]
  rw [close, Option.ite_none_left_eq_some, Option.some.injEq, hwithout, eq_comm (a := u)]

@[simp] theorem without_nil (t : Table) : t.without [] = t := by
  simp [without]

theorem without_without (t : Table) (hs hs' : List Nat) :
    (t.without hs).without hs' = t.without (hs ++ hs') := by
  simp only [without, List.mem_append, Table.mk.injEq, and_true]
  funext k
  by_cases hk : k ∈ hs <;> by_cases hk' : k ∈ hs' <;> simp [hk, hk']

theorem opening_without_ne_none : (t.without hs).opening h ≠ none ↔ h ∉ hs ∧ t.opening h ≠ none := by
  simp [without]

/-- **A row of closes** succeeds if and only if its handles are different, and open. -/
theorem run_close_eq_some : run close t hs = some u ↔
    hs.Nodup ∧ (∀ h ∈ hs, t.opening h ≠ none) ∧ u = t.without hs := by
  induction hs generalizing t with
  | nil => simp [eq_comm]
  | cons h hs ih =>
    simp only [run_cons_eq_some, close_eq_some, ih, List.nodup_cons, List.forall_mem_cons]
    constructor
    · rintro ⟨_, ⟨hopen, rfl⟩, hnodup, hall, rfl⟩
      refine ⟨⟨fun hmem => ?_, hnodup⟩, ⟨hopen, fun k hk => ?_⟩, without_without t [h] hs⟩
      · exact (opening_without_ne_none.mp (hall h hmem)).1 List.mem_cons_self
      · exact (opening_without_ne_none.mp (hall k hk)).2
    · rintro ⟨⟨hnot, hnodup⟩, ⟨hopen, hall⟩, rfl⟩
      refine ⟨_, ⟨hopen, rfl⟩, hnodup, fun k hk => ?_, (without_without t [h] hs).symm⟩
      refine opening_without_ne_none.mpr ⟨fun hmem => ?_, hall k hk⟩
      rw [List.mem_singleton] at hmem
      exact hnot (hmem ▸ hk)

/-- Closing a handle that is not open is no matter to the others. -/
theorem without_append_of_none (h_none : t.opening h = none) :
    t.without (hs ++ [h]) = t.without hs := by
  simp only [without, Table.mk.injEq, and_true]
  funext k
  by_cases hk : k = h
  · subst hk
    simp [h_none]
  · simp [hk]

/-! ## Openings -/

/-- The openings of a table are some of those that have been made, and no two handles come from one
of them. -/
structure Sound (t : Table) : Prop where
  lt : ∀ h o, t.opening h = some o → o < t.calls
  inj : ∀ h h' o, t.opening h = some o → t.opening h' = some o → h = h'

/-- What the opening `o` gave has been closed. -/
def Over (t : Table) (o : Nat) : Prop := o < t.calls ∧ ∀ h, t.opening h ≠ some o

theorem opening_of_without (hopen : (t.without hs).opening h = some o) :
    h ∉ hs ∧ t.opening h = some o := by
  rw [without] at hopen
  dsimp only at hopen
  split at hopen
  · cases hopen
  · rename_i hnot
    exact ⟨hnot, hopen⟩

theorem Sound.give (ht : t.Sound) (hgive : t.give h = some u) : u.Sound := by
  obtain ⟨-, rfl⟩ := give_eq_some.mp hgive
  have hnew : ∀ k o, Function.update t.opening h (some t.calls) k = some o →
      (k = h ∧ o = t.calls) ∨ (t.opening k = some o ∧ o < t.calls) := by
    intro k o hk
    rw [Function.update_apply] at hk
    split at hk
    · rename_i heq
      exact .inl ⟨heq, (Option.some.inj hk).symm⟩
    · exact .inr ⟨hk, ht.lt k o hk⟩
  constructor
  · intro k o hk
    rcases hnew k o hk with ⟨-, rfl⟩ | ⟨-, hlt⟩
    · exact Nat.lt_succ_self _
    · exact Nat.lt_succ_of_lt hlt
  · intro k k' o hk hk'
    rcases hnew k o hk with ⟨rfl, rfl⟩ | ⟨hold, hlt⟩
    · rcases hnew k' _ hk' with ⟨rfl, -⟩ | ⟨-, hlt⟩
      · rfl
      · exact absurd hlt (Nat.lt_irrefl _)
    · rcases hnew k' o hk' with ⟨-, rfl⟩ | ⟨hold', -⟩
      · exact absurd hlt (Nat.lt_irrefl _)
      · exact ht.inj k k' o hold hold'

theorem Sound.without (ht : t.Sound) (hs : List Nat) : (t.without hs).Sound where
  lt := fun k o hk => ht.lt k o (opening_of_without hk).2
  inj := fun k k' o hk hk' => ht.inj k k' o (opening_of_without hk).2 (opening_of_without hk').2

theorem Over.give (ho : t.Over o) (hgive : t.give h = some u) : u.Over o := by
  obtain ⟨-, rfl⟩ := give_eq_some.mp hgive
  refine ⟨Nat.lt_succ_of_lt ho.1, fun k hk => ?_⟩
  dsimp only at hk
  rw [Function.update_apply] at hk
  split at hk
  · exact absurd (Option.some.inj hk) (Nat.ne_of_gt ho.1)
  · exact ho.2 k hk

theorem Over.without (ho : t.Over o) (hs : List Nat) : (t.without hs).Over o :=
  ⟨ho.1, fun k hk => ho.2 k (opening_of_without hk).2⟩

/-- Closing a handle ends its opening. -/
theorem over_of_close (ht : t.Sound) (hopen : t.opening h = some o) (hmem : h ∈ hs) :
    (t.without hs).Over o := by
  refine ⟨ht.lt h o hopen, fun k hk => ?_⟩
  obtain ⟨hnot, hk⟩ := opening_of_without hk
  exact hnot (ht.inj k h o hk hopen ▸ hmem)

/-- A handle that has been given is open. -/
theorem opening_of_give (hgive : t.give h = some u) : u.opening h = some t.calls := by
  obtain ⟨-, rfl⟩ := give_eq_some.mp hgive
  exact Function.update_self _ _ _

/-- Giving a handle leaves the others as they are. -/
theorem opening_of_give_ne (hgive : t.give h = some u) {k : Nat} (hk : k ≠ h) :
    u.opening k = t.opening k := by
  obtain ⟨-, rfl⟩ := give_eq_some.mp hgive
  exact Function.update_of_ne hk _ _

/-- A handle that is given and closed again leaves one more call. -/
theorem without_of_give (hgive : t.give h = some u) (hmem : h ∈ hs) :
    u.without hs = { t.without hs with calls := t.calls + 1 } := by
  obtain ⟨-, rfl⟩ := give_eq_some.mp hgive
  simp only [without, Table.mk.injEq, and_true]
  funext k
  by_cases hk : k ∈ hs
  · simp [hk]
  · have hne : k ≠ h := fun heq => hk (heq ▸ hmem)
    simp [hk, hne]

end Table

end CppExamples.Lib.Handles
