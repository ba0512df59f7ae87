import Mathlib.Order.Lattice

/-!
# Ordered maps as sorted association lists

An ordered map is the list of its entries in key order, which is the order an iteration over it
visits them in. `Sorted` says that the keys strictly increase, so no key occurs twice.

* `assign m k v` is `m[k] = v`: insert, or replace the value of `k`.
* `find? m k` is the value of `k`.
* `ofMembers l` assigns the pairs of `l` one after the other.

Results: `assign` keeps the map sorted (`sorted_assign`) and changes one key (`find?_assign`);
two sorted maps with the same values are equal (`Sorted.ext`); of the pairs assigned under one
key the last one stays (`find?_ofMembers`); a sorted list is its own map (`ofMembers_eq_self`).
-/

namespace CppExamples.Lib

universe u v

/-- The entries of an ordered map. -/
abbrev OrdMap (K : Type u) (V : Type v) := List (K × V)

namespace OrdMap

variable {K : Type u} {V : Type v} [LinearOrder K]

/-- The keys strictly increase. -/
def Sorted (m : OrdMap K V) : Prop := m.Pairwise fun a b => a.1 < b.1

instance (m : OrdMap K V) : Decidable m.Sorted :=
  inferInstanceAs (Decidable (List.Pairwise _ m))

/-- `m[k] = v`. -/
def assign : OrdMap K V → K → V → OrdMap K V
  | [], k, v => [(k, v)]
  | (k', v') :: m, k, v =>
    if k < k' then (k, v) :: (k', v') :: m
    else if k = k' then (k, v) :: m
    else (k', v') :: assign m k v

/-- The value of the first entry for `k`. -/
def find? : OrdMap K V → K → Option V
  | [], _ => none
  | (k', v') :: m, k => if k = k' then some v' else find? m k

/-- The pairs of `l` assigned in order, into an empty map. -/
def ofMembers (l : List (K × V)) : OrdMap K V := l.foldl (fun m e => assign m e.1 e.2) []

/-! ## Sorted maps -/

theorem sorted_nil : Sorted ([] : OrdMap K V) := List.Pairwise.nil

theorem sorted_cons {e : K × V} {m : OrdMap K V} :
    Sorted (e :: m) ↔ (∀ x ∈ m, e.1 < x.1) ∧ Sorted m := List.pairwise_cons

theorem mem_assign {m : OrdMap K V} {k : K} {v : V} {e : K × V} (h : e ∈ assign m k v) :
    e = (k, v) ∨ e ∈ m := by
  induction m with
  | nil => exact .inl (List.mem_singleton.mp h)
  | cons x m ih =>
    obtain ⟨k', v'⟩ := x
    simp only [assign] at h
    split at h
    · exact (List.mem_cons.mp h)
    · split at h
      · exact (List.mem_cons.mp h).imp_right (List.mem_cons_of_mem _)
      · rcases List.mem_cons.mp h with rfl | h
        · exact .inr List.mem_cons_self
        · exact (ih h).imp_right (List.mem_cons_of_mem _)

/-- **Assignment keeps the order.** -/
theorem sorted_assign {m : OrdMap K V} (hm : Sorted m) (k : K) (v : V) :
    Sorted (assign m k v) := by
  induction m with
  | nil => exact sorted_cons.mpr ⟨fun _ h => absurd h List.not_mem_nil, sorted_nil⟩
  | cons x m ih =>
    obtain ⟨k', v'⟩ := x
    obtain ⟨hlt, hm⟩ := sorted_cons.mp hm
    simp only [assign]
    split
    · rename_i hk
      refine sorted_cons.mpr ⟨fun e he => ?_, sorted_cons.mpr ⟨hlt, hm⟩⟩
      rcases List.mem_cons.mp he with rfl | he
      · exact hk
      · exact lt_trans hk (hlt e he)
    · split
      · rename_i hk
        exact sorted_cons.mpr ⟨fun e he => hk ▸ hlt e he, hm⟩
      · rename_i hk hk'
        have hgt : k' < k := lt_of_le_of_ne (not_lt.mp hk) (Ne.symm hk')
        refine sorted_cons.mpr ⟨fun e he => ?_, ih hm⟩
        rcases mem_assign he with rfl | he
        · exact hgt
        · exact hlt e he

theorem mem_of_find? {m : OrdMap K V} {k : K} {v : V} (h : find? m k = some v) :
    (k, v) ∈ m := by
  induction m with
  | nil => exact absurd h (by simp [find?])
  | cons x m ih =>
    simp only [find?] at h
    split at h
    · rename_i hk
      rw [hk, ← Option.some.inj h]
      exact List.mem_cons_self
    · exact List.mem_cons_of_mem _ (ih h)

/-- The entries of a sorted map are its values. -/
theorem mem_iff_find? {m : OrdMap K V} (hm : Sorted m) {k : K} {v : V} :
    (k, v) ∈ m ↔ find? m k = some v := by
  refine ⟨fun h => ?_, mem_of_find?⟩
  induction m with
  | nil => exact absurd h List.not_mem_nil
  | cons x m ih =>
    obtain ⟨hlt, hm⟩ := sorted_cons.mp hm
    simp only [find?]
    rcases List.mem_cons.mp h with rfl | h
    · rw [if_pos rfl]
    · rw [if_neg (ne_of_gt (hlt _ h)), ih hm h]

/-- **Assignment changes one key.** -/
theorem find?_assign (m : OrdMap K V) (k : K) (v : V) (q : K) :
    find? (assign m k v) q = if q = k then some v else find? m q := by
  induction m with
  | nil => rfl
  | cons x m ih =>
    obtain ⟨k', v'⟩ := x
    simp only [assign]
    split
    · rfl
    · split
      · rename_i hk
        subst hk
        simp only [find?]
        by_cases hq : q = k
        · rw [if_pos hq, if_pos hq]
        · rw [if_neg hq, if_neg hq, if_neg hq]
      · rename_i hk
        simp only [find?]
        rw [ih]
        by_cases hq : q = k'
        · subst hq
          rw [if_pos rfl, if_pos rfl, if_neg (Ne.symm hk)]
        · rw [if_neg hq, if_neg hq]

theorem Sorted.nodup {m : OrdMap K V} (hm : Sorted m) : m.Nodup :=
  List.Pairwise.imp (S := (· ≠ ·)) (fun h e => lt_irrefl _ (e ▸ h)) hm

/-- **Sorted maps with the same values are equal.** -/
theorem Sorted.ext {a b : OrdMap K V} (ha : Sorted a) (hb : Sorted b)
    (h : ∀ k, find? a k = find? b k) : a = b := by
  have hmem : ∀ e : K × V, e ∈ a ↔ e ∈ b := fun ⟨k, v⟩ => by
    rw [mem_iff_find? ha, mem_iff_find? hb, h]
  refine List.Perm.eq_of_pairwise (fun x y _ _ hxy hyx => ?_) ha hb
    ((List.perm_ext_iff_of_nodup ha.nodup hb.nodup).mpr hmem)
  exact absurd hyx (not_lt.mpr (le_of_lt hxy))

/-! ## Assigning a list of pairs -/

theorem sorted_foldl_assign (l : List (K × V)) {m : OrdMap K V} (hm : Sorted m) :
    Sorted (l.foldl (fun m e => assign m e.1 e.2) m) := by
  induction l generalizing m with
  | nil => exact hm
  | cons e l ih => exact ih (sorted_assign hm e.1 e.2)

theorem sorted_ofMembers (l : List (K × V)) : Sorted (ofMembers l) :=
  sorted_foldl_assign l sorted_nil

theorem find?_append (a b : OrdMap K V) (k : K) :
    find? (a ++ b) k = (find? a k).or (find? b k) := by
  induction a with
  | nil => rfl
  | cons x a ih =>
    simp only [List.cons_append, find?]
    split
    · rfl
    · exact ih

theorem find?_foldl_assign (l : List (K × V)) (m : OrdMap K V) (k : K) :
    find? (l.foldl (fun m e => assign m e.1 e.2) m) k = (find? l.reverse k).or (find? m k) := by
  induction l generalizing m with
  | nil => rfl
  | cons e l ih =>
    rw [List.foldl_cons, ih, find?_assign, List.reverse_cons, find?_append]
    cases find? l.reverse k with
    | some v => rfl
    | none =>
      simp only [Option.none_or, find?]
      split <;> rfl

/-- **The last pair assigned under a key stays.** -/
theorem find?_ofMembers (l : List (K × V)) (k : K) : find? (ofMembers l) k = find? l.reverse k := by
  rw [ofMembers, find?_foldl_assign]
  cases find? l.reverse k <;> rfl

/-- A key above all others goes to the end. -/
theorem assign_eq_append {m : OrdMap K V} {k : K} (h : ∀ e ∈ m, e.1 < k) (v : V) :
    assign m k v = m ++ [(k, v)] := by
  induction m with
  | nil => rfl
  | cons x m ih =>
    obtain ⟨k', v'⟩ := x
    have hlt : k' < k := h (k', v') List.mem_cons_self
    simp only [assign]
    rw [if_neg (not_lt.mpr (le_of_lt hlt)), if_neg (ne_of_gt hlt),
      ih fun e he => h e (List.mem_cons_of_mem _ he)]
    rfl

theorem foldl_assign_eq_append (l : List (K × V)) {m : OrdMap K V} (h : Sorted (m ++ l)) :
    l.foldl (fun m e => assign m e.1 e.2) m = m ++ l := by
  induction l generalizing m with
  | nil => rw [List.foldl_nil, List.append_nil]
  | cons e l ih =>
    have hlt : ∀ x ∈ m, x.1 < e.1 := fun x hx =>
      (List.pairwise_append.mp h).2.2 x hx e List.mem_cons_self
    have happ : m ++ e :: l = (m ++ [e]) ++ l := by rw [List.append_assoc]; rfl
    rw [List.foldl_cons, assign_eq_append hlt, happ]
    exact ih (happ ▸ h)

/-- **A sorted list of pairs is its own map.** -/
theorem ofMembers_eq_self {l : List (K × V)} (h : Sorted l) : ofMembers l = l :=
  foldl_assign_eq_append l h

/-! ## Other values under the same keys -/

variable {W : Type*}

theorem find?_map (f : V → W) (m : OrdMap K V) (k : K) :
    find? (m.map fun e => (e.1, f e.2)) k = (find? m k).map f := by
  induction m with
  | nil => rfl
  | cons x m ih =>
    rw [List.map_cons, find?, find?]
    split
    · rfl
    · exact ih

theorem assign_map (f : V → W) (m : OrdMap K V) (k : K) (v : V) :
    assign (m.map fun e => (e.1, f e.2)) k (f v) = (assign m k v).map fun e => (e.1, f e.2) := by
  induction m with
  | nil => rfl
  | cons x m ih =>
    rw [List.map_cons, assign, assign]
    split
    · rfl
    · split
      · rfl
      · rw [ih, List.map_cons]

/-- A new key stands between the entries that were there. -/
theorem exists_assign {m : OrdMap K V} {k : K} (h : find? m k = none) (v : V) :
    ∃ front back, m = front ++ back ∧ assign m k v = front ++ (k, v) :: back := by
  induction m with
  | nil => exact ⟨[], [], rfl, rfl⟩
  | cons x m ih =>
    obtain ⟨k', v'⟩ := x
    rw [find?] at h
    split at h
    · exact absurd h (Option.some_ne_none _)
    · rename_i hk
      rw [assign]
      split
      · exact ⟨[], (k', v') :: m, rfl, rfl⟩
      · obtain ⟨front, back, rfl, hassign⟩ := ih h
        rw [hassign]
        exact ⟨(k', v') :: front, back, rfl, rfl⟩

end OrdMap

end CppExamples.Lib
