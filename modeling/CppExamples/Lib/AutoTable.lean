import CppExamples.Lib.OrdMap
import Mathlib.Order.Interval.Set.Basic
import Mathlib.Algebra.Order.Group.Int

/-!
# Tables with automatic keys

A table whose key is counted up by the database: a row is inserted under the number after `seq`,
the largest key that any row of the table ever had, so a key that was deleted is not given out
again. The rows stand in the order of their keys. `last` is the largest key there can be.

* `insert`, `update`, `delete` and `select` are the four statements, each one about the row of one
  key; `contents` is the table as a partial function.
* `contents_insert`, `contents_update`, `contents_delete`: each statement changes one key.
* `Extended`: what a number of inserts does.
-/

namespace CppExamples.Lib

/-- The rows of a table, and the largest key so far. -/
@[ext]
structure AutoTable (V : Type*) where
  rows : OrdMap Int V
  seq : Int
  sorted : rows.Sorted
  le_seq : ∀ e ∈ rows, e.1 ≤ seq
  seq_nonneg : 0 ≤ seq

namespace AutoTable

variable {V : Type*} {last : Int}

/-- A table that has never had a row. -/
def empty : AutoTable V where
  rows := []
  seq := 0
  sorted := OrdMap.sorted_nil
  le_seq := fun _ h => absurd h List.not_mem_nil
  seq_nonneg := Int.le_refl 0

/-- The value of each key that has a row. -/
def contents (t : AutoTable V) (k : Int) : Option V := OrdMap.find? t.rows k

/-- The rows of one key: at most one. -/
def select (t : AutoTable V) (k : Int) : List (Int × V) := t.rows.filter fun e => e.1 = k

/-- A new row under the next key, and the key; `none` if there are no more keys. -/
def insert (last : Int) (t : AutoTable V) (v : V) : Option (Int × AutoTable V) :=
  if t.seq < last then
    some (t.seq + 1,
      { rows := t.rows ++ [(t.seq + 1, v)]
        seq := t.seq + 1
        sorted := List.pairwise_append.mpr ⟨t.sorted, List.pairwise_singleton _ _, fun a ha b hb =>
          (List.mem_singleton.mp hb) ▸ Int.lt_add_one_of_le (t.le_seq a ha)⟩
        le_seq := fun e he => by
          rcases List.mem_append.mp he with he | he
          · exact Int.le_of_lt (Int.lt_add_one_of_le (t.le_seq e he))
          · exact (List.mem_singleton.mp he) ▸ Int.le_refl _
        seq_nonneg := Int.add_nonneg t.seq_nonneg Int.one_nonneg })
  else none

/-- The row of `k` with another value. -/
def setRow (k : Int) (v : V) (e : Int × V) : Int × V := if e.1 = k then (e.1, v) else e

@[simp] theorem setRow_fst (k : Int) (v : V) (e : Int × V) : (setRow k v e).1 = e.1 := by
  rw [setRow]
  split <;> rfl

/-- The rows of `k` get the value `v`. -/
def update (t : AutoTable V) (k : Int) (v : V) : AutoTable V where
  rows := t.rows.map (setRow k v)
  seq := t.seq
  sorted := List.pairwise_map.mpr (t.sorted.imp fun h => by rwa [setRow_fst, setRow_fst])
  le_seq := fun e he => by
    obtain ⟨e', he', rfl⟩ := List.mem_map.mp he
    rw [setRow_fst]
    exact t.le_seq e' he'
  seq_nonneg := t.seq_nonneg

/-- The rows of `k` are taken out. -/
def delete (t : AutoTable V) (k : Int) : AutoTable V where
  rows := t.rows.filter fun e => e.1 ≠ k
  seq := t.seq
  sorted := t.sorted.filter _
  le_seq := fun e he => t.le_seq e (List.mem_filter.mp he).1
  seq_nonneg := t.seq_nonneg

@[simp] theorem seq_update (t : AutoTable V) (k : Int) (v : V) : (t.update k v).seq = t.seq := rfl

@[simp] theorem seq_delete (t : AutoTable V) (k : Int) : (t.delete k).seq = t.seq := rfl

/-! ## One key at a time -/

theorem mem_rows_iff {t : AutoTable V} {k : Int} {v : V} :
    (k, v) ∈ t.rows ↔ t.contents k = some v := OrdMap.mem_iff_find? t.sorted

/-- A key that has a row was given out. -/
theorem le_seq_of_contents {t : AutoTable V} {k : Int} {v : V} (h : t.contents k = some v) :
    k ≤ t.seq := t.le_seq _ (mem_rows_iff.mpr h)

theorem contents_of_seq_lt {t : AutoTable V} {k : Int} (h : t.seq < k) : t.contents k = none := by
  cases hk : t.contents k with
  | none => rfl
  | some v => exact absurd (le_seq_of_contents hk) (not_le.mpr h)

/-- The rows of one key. -/
theorem select_eq (t : AutoTable V) (k : Int) :
    t.select k = ((t.contents k).map fun v => (k, v)).toList := by
  unfold select contents
  have hsorted := t.sorted
  generalize t.rows = rows at hsorted
  induction rows with
  | nil => rfl
  | cons e rows ih =>
    obtain ⟨hlt, hrows⟩ := OrdMap.sorted_cons.mp hsorted
    rw [OrdMap.find?, List.filter_cons]
    by_cases hk : e.1 = k
    · subst hk
      rw [decide_eq_true rfl, if_pos rfl, if_pos rfl, List.filter_eq_nil_iff.mpr fun x hx => by
        simpa using (hlt x hx).ne']
      rfl
    · rw [decide_eq_false hk, if_neg Bool.false_ne_true, if_neg (Ne.symm hk)]
      exact ih hrows

/-- **An insert changes the next key.** -/
theorem contents_insert {t t' : AutoTable V} {v : V} {k : Int}
    (h : t.insert last v = some (k, t')) (q : Int) :
    t'.contents q = if q = k then some v else t.contents q := by
  rw [insert] at h
  split at h
  · simp only [Option.some.injEq, Prod.mk.injEq] at h
    obtain ⟨rfl, rfl⟩ := h
    simp only [contents, OrdMap.find?_append, OrdMap.find?]
    by_cases hq : q = t.seq + 1
    · subst hq
      have hfree : t.contents (t.seq + 1) = none := contents_of_seq_lt (Int.lt_succ _)
      rw [contents] at hfree
      rw [hfree, if_pos rfl]
      rfl
    · rw [if_neg hq, if_neg hq]
      cases OrdMap.find? t.rows q <;> rfl
  · exact absurd h (by simp)

/-- **An update changes one key, and only if it has a row.** -/
theorem contents_update (t : AutoTable V) (k : Int) (v : V) (q : Int) :
    (t.update k v).contents q = if q = k then (t.contents k).map fun _ => v else t.contents q := by
  simp only [contents, update]
  induction t.rows with
  | nil => simp [OrdMap.find?]
  | cons e rows ih =>
    rw [List.map_cons, OrdMap.find?, OrdMap.find?, OrdMap.find?, setRow_fst, ih]
    by_cases hq : q = e.1
    · subst hq
      by_cases hk : e.1 = k
      · simp [setRow, hk]
      · simp [setRow, hk]
    · by_cases hk : q = k
      · subst hk
        simp [hq]
      · simp [hq, hk]

/-- **A delete frees one key.** -/
theorem contents_delete (t : AutoTable V) (k q : Int) :
    (t.delete k).contents q = if q = k then none else t.contents q := by
  simp only [contents, delete]
  induction t.rows with
  | nil => simp [OrdMap.find?]
  | cons e rows ih =>
    rw [List.filter_cons]
    by_cases hk : e.1 = k
    · rw [decide_eq_false (not_not.mpr hk), if_neg Bool.false_ne_true, ih, OrdMap.find?]
      by_cases hq : q = k
      · simp [hq]
      · simp [hq, hk]
    · rw [decide_eq_true hk, if_pos rfl, OrdMap.find?, OrdMap.find?, ih]
      by_cases hq : q = e.1
      · simp [hq, hk]
      · simp [hq]

/-- An insert takes the key after `seq`. -/
theorem insert_eq_some {t t' : AutoTable V} {v : V} {k : Int}
    (h : t.insert last v = some (k, t')) : t.seq < last ∧ k = t.seq + 1 ∧ t'.seq = t.seq + 1 := by
  rw [insert] at h
  split at h
  · rename_i hlt
    simp only [Option.some.injEq, Prod.mk.injEq] at h
    obtain ⟨rfl, rfl⟩ := h
    exact ⟨hlt, rfl, rfl⟩
  · exact absurd h (by simp)

theorem insert_eq_none {t : AutoTable V} {v : V} : t.insert last v = none ↔ last ≤ t.seq := by
  rw [insert]
  split
  · simp_all
  · simp_all

/-! ## A number of inserts -/

/-- `t'` is `t` with `n` rows inserted. -/
structure Extended (t : AutoTable V) (n : Int) (t' : AutoTable V) : Prop where
  seq_eq : t'.seq = t.seq + n
  old : ∀ k ≤ t.seq, t'.contents k = t.contents k
  new : ∀ k, t.seq < k → k ≤ t.seq + n → (t'.contents k).isSome

namespace Extended

variable {t t' t'' : AutoTable V} {n : Int}

theorem refl (t : AutoTable V) : Extended t 0 t where
  seq_eq := (Int.add_zero _).symm
  old := fun _ _ => rfl
  new := fun k hlt hle => by omega

theorem insert (h : Extended t n t') {v : V} {k : Int} (hi : t'.insert last v = some (k, t''))
    (hn : 0 ≤ n) : Extended t (n + 1) t'' := by
  obtain ⟨-, rfl, hseq⟩ := insert_eq_some hi
  have hold := h.seq_eq
  refine ⟨by omega, fun q hq => ?_, fun q hlt hle => ?_⟩
  · rw [contents_insert hi, if_neg (by omega), h.old q hq]
  · rw [contents_insert hi]
    split
    · rfl
    · exact h.new q hlt (by omega)

/-- The keys that have a row: those that had one, and the new ones. -/
theorem isSome_iff (h : Extended t n t') {k : Int} (hk : k ≤ t.seq + n) :
    (t'.contents k).isSome ↔ t.seq < k ∨ (t.contents k).isSome := by
  by_cases hlt : t.seq < k
  · exact ⟨fun _ => .inl hlt, fun _ => h.new k hlt hk⟩
  · rw [h.old k (not_lt.mp hlt)]
    exact ⟨.inr, fun hor => hor.resolve_left hlt⟩

end Extended

end AutoTable

end CppExamples.Lib
