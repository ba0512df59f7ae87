import CppExamples.Lib.CInt
import Mathlib.Data.List.Basic
import Mathlib.Data.List.Perm.Basic

/-!
# Vectors with checked indices, loops with an `int` counter

A vector is the list of its elements; an access outside it has no result. `forRange a b` is the loop
`for (int j = a; j < b; ++j)`, whose counter must not leave the range of `int`; `search` is the loop
that stops at the first index with some property.

* `exists_forRange`: a loop whose body keeps an invariant is defined and has it at the end;
  `forRange_invariant`: it has it at the end if it is defined.
* `forRange_eq_foldlM`: a loop over the elements of a vector is a fold.
* `forRange_push`, `forRange_fill`, `getElem?_forRange_store`: a loop that appends, one that
  replaces the elements in order, and one that changes them.
* `forRange_overflow`: a loop to a bound beyond `INT_MAX` is not defined.
* `exists_search`: a search is defined and finds an index below its bound, or none; `search_eq`: it
  finds the first one; `search_eq_none`: there is none.
* `exists_exchange`: exchanging two elements permutes the vector; `exchange_exchange`: doing it
  twice restores it.
-/

namespace CppExamples.Lib.Loop

variable {S α : Type*}

/-! ## Vectors -/

/-- `v[i] = x`. -/
def store (v : List α) (i : Nat) (x : α) : Option (List α) :=
  if i < v.length then some (v.set i x) else none

/-- `std::swap(v[i], v[j])`. -/
def exchange (v : List α) (i j : Nat) : Option (List α) := do
  let x ← v[i]?
  let y ← v[j]?
  return (v.set i y).set j x

theorem exists_store {v : List α} {i : Nat} (h : i < v.length) (x : α) :
    ∃ v', store v i x = some v' ∧ v'.length = v.length :=
  ⟨v.set i x, if_pos h, List.length_set⟩

theorem exists_exchange {v : List α} {i j : Nat} (hi : i < v.length) (hj : j < v.length) :
    ∃ v', exchange v i j = some v' ∧ v'.Perm v := by
  refine ⟨(v.set i v[j]).set j v[i], ?_, List.set_set_perm hi hj⟩
  unfold exchange
  rw [List.getElem?_eq_getElem hi, List.getElem?_eq_getElem hj]
  rfl

theorem exchange_length {v v' : List α} {i j : Nat} (h : exchange v i j = some v') :
    v'.length = v.length := by
  unfold exchange at h
  simp only [Option.bind_eq_bind, Option.bind_eq_some_iff, Option.pure_def, Option.some.injEq] at h
  obtain ⟨x, -, y, -, rfl⟩ := h
  rw [List.length_set, List.length_set]

theorem lt_of_exchange {v v' : List α} {i j : Nat} (h : exchange v i j = some v') :
    j < v.length := by
  unfold exchange at h
  simp only [Option.bind_eq_bind, Option.bind_eq_some_iff] at h
  obtain ⟨x, -, y, hy, -⟩ := h
  exact (List.getElem?_eq_some_iff.mp hy).1

/-- Exchanging the same two elements again. -/
theorem exchange_exchange {v v' : List α} {i j : Nat} (h : exchange v i j = some v') :
    exchange v' i j = some v := by
  unfold exchange at h
  simp only [Option.bind_eq_bind, Option.bind_eq_some_iff, Option.pure_def, Option.some.injEq] at h
  obtain ⟨x, hx, y, hy, rfl⟩ := h
  have hi : i < v.length := (List.getElem?_eq_some_iff.mp hx).1
  have hj : j < v.length := (List.getElem?_eq_some_iff.mp hy).1
  have hread : ((v.set i y).set j x)[i]? = some y := by
    by_cases hij : j = i
    · subst hij
      rw [List.getElem?_set_self (by rwa [List.length_set]), ← hx, hy]
    · rw [List.getElem?_set_ne hij, List.getElem?_set_self hi]
  have hback : (((v.set i y).set j x).set i x).set j y = v := by
    refine List.ext_getElem? fun k => ?_
    by_cases hjk : j = k
    · subst hjk
      rw [List.getElem?_set_self (by simpa using hj), hy]
    · rw [List.getElem?_set_ne hjk]
      by_cases hik : i = k
      · subst hik
        rw [List.getElem?_set_self (by simpa using hi), hx]
      · rw [List.getElem?_set_ne hik, List.getElem?_set_ne hjk, List.getElem?_set_ne hik]
  unfold exchange
  rw [hread, List.getElem?_set_self (by simpa using hj)]
  exact congrArg some hback

/-! ## Loops -/

/-- `j + 1` in `int`. -/
def succ (j : Nat) : Option Nat :=
  if ((j + 1 : Nat) : Int) ≤ CInt.intMax then some (j + 1) else none

/-- `n` rounds of a loop, from counter `j` on. -/
def rounds (body : Nat → S → Option S) : Nat → Nat → S → Option S
  | 0, _, s => some s
  | n + 1, j, s => (body j s).bind fun s => (succ j).bind fun j => rounds body n j s

/-- `for (int j = a; j < b; ++j)`. -/
def forRange (a b : Nat) (body : Nat → S → Option S) (s : S) : Option S := rounds body (b - a) a s

/-- `n` rounds of a search, from counter `j` on. -/
def searchFrom (test : Nat → Option Bool) : Nat → Nat → Option (Option Nat)
  | 0, _ => some none
  | n + 1, j => do
    if ← test j then return some j
    let j ← succ j
    searchFrom test n j

/-- `for (int j = 0; j < b; ++j) if (test(j)) break;`, with the index at which it stops. -/
def search (b : Nat) (test : Nat → Option Bool) : Option (Option Nat) := searchFrom test b 0

theorem succ_eq_some {j b : Nat} (hj : j < b) (hb : (b : Int) ≤ CInt.intMax) :
    succ j = some (j + 1) := if_pos (by omega)

variable {body : Nat → S → Option S} {a b : Nat}

theorem exists_rounds {inv : Nat → S → Prop} (hb : (b : Int) ≤ CInt.intMax)
    (hstep : ∀ j s, j < b → inv j s → ∃ s', body j s = some s' ∧ inv (j + 1) s')
    {n j : Nat} (hn : j + n = b) {s : S} (hs : inv j s) :
    ∃ s', rounds body n j s = some s' ∧ inv b s' := by
  induction n generalizing j s with
  | zero => exact ⟨s, rfl, hn ▸ hs⟩
  | succ n ih =>
    obtain ⟨u, hu, hinv⟩ := hstep j s (by omega) hs
    have hnext : j + 1 + n = b := by omega
    obtain ⟨s', hs', hfinal⟩ := ih hnext hinv
    refine ⟨s', ?_, hfinal⟩
    rw [rounds, hu, succ_eq_some (by omega) hb]
    exact hs'

/-- **Invariant rule.** -/
theorem exists_forRange (inv : Nat → S → Prop) (hab : a ≤ b) (hb : (b : Int) ≤ CInt.intMax)
    (hstep : ∀ j s, j < b → inv j s → ∃ s', body j s = some s' ∧ inv (j + 1) s')
    {s : S} (hs : inv a s) : ∃ s', forRange a b body s = some s' ∧ inv b s' :=
  exists_rounds hb hstep (Nat.add_sub_of_le hab) hs

theorem rounds_invariant {inv : Nat → S → Prop}
    (hstep : ∀ j s s', j < b → inv j s → body j s = some s' → inv (j + 1) s')
    {n j : Nat} (hn : j + n = b) {s s' : S} (hs : inv j s) (h : rounds body n j s = some s') :
    inv b s' := by
  induction n generalizing j s with
  | zero =>
    cases h
    exact hn ▸ hs
  | succ n ih =>
    simp only [rounds, Option.bind_eq_some_iff] at h
    obtain ⟨u, hu, k, hk, hrest⟩ := h
    obtain rfl : j + 1 = k := (Option.ite_none_right_eq_some.mp hk).2 |> Option.some.inj
    have hnext : j + 1 + n = b := by omega
    exact ih hnext (hstep j s u (by omega) hs hu) hrest

/-- **Partial invariant rule.** It holds at the end if the loop has a result. -/
theorem forRange_invariant (inv : Nat → S → Prop) (hab : a ≤ b)
    (hstep : ∀ j s s', j < b → inv j s → body j s = some s' → inv (j + 1) s')
    {s s' : S} (hs : inv a s) (h : forRange a b body s = some s') : inv b s' :=
  rounds_invariant hstep (Nat.add_sub_of_le hab) hs h

theorem rounds_eq_foldlM (f : S → α → Option S) {v : List α} (hb : (v.length : Int) ≤ CInt.intMax)
    {n j : Nat} (hn : j + n = v.length) (s : S) :
    rounds (fun j s => v[j]?.bind (f s)) n j s = (v.drop j).foldlM f s := by
  induction n generalizing j s with
  | zero =>
    rw [rounds, List.drop_of_length_le (by omega), List.foldlM_nil]
    rfl
  | succ n ih =>
    have hj : j < v.length := by omega
    have hnext : j + 1 + n = v.length := by omega
    rw [rounds, List.drop_eq_getElem_cons hj, List.foldlM_cons, List.getElem?_eq_getElem hj,
      Option.bind_some]
    refine congrArg (f s v[j]).bind (funext fun u => ?_)
    rw [succ_eq_some hj hb, Option.bind_some, ih hnext]

/-- A loop over the elements of a vector. -/
theorem forRange_eq_foldlM (f : S → α → Option S) {v : List α} (hb : (v.length : Int) ≤ CInt.intMax)
    (s : S) : forRange 0 v.length (fun j s => v[j]?.bind (f s)) s = v.foldlM f s :=
  rounds_eq_foldlM f hb (Nat.zero_add _) s

/-- A fold that appends what it computes from each element. -/
theorem foldlM_push {β : Type*} (g : α → Option β) (l : List α) (out : List β) :
    l.foldlM (fun out x => (g x).map fun y => out ++ [y]) out = (l.mapM g).map (out ++ ·) := by
  induction l generalizing out with
  | nil => simp
  | cons x l ih =>
    rw [List.foldlM_cons, List.mapM_cons]
    cases hx : g x with
    | none => rfl
    | some y =>
      simp only [Option.map_some, Option.bind_eq_bind, Option.bind_some, ih]
      cases l.mapM g with
      | none => rfl
      | some ys => simp

/-- A computation for each element has a result if and only if each of them has one. -/
theorem exists_mapM_iff {β : Type*} {g : α → Option β} {l : List α} :
    (∃ ys, l.mapM g = some ys) ↔ ∀ x ∈ l, ∃ y, g x = some y := by
  induction l with
  | nil => simp
  | cons x l ih =>
    rw [List.forall_mem_cons, ← ih, List.mapM_cons]
    simp only [Option.bind_eq_bind, Option.pure_def, Option.bind_eq_some_iff, Option.some.injEq]
    constructor
    · rintro ⟨_, y, hy, ys, hys, -⟩
      exact ⟨⟨y, hy⟩, ys, hys⟩
    · rintro ⟨⟨y, hy⟩, ys, hys⟩
      exact ⟨_, y, hy, ys, hys, rfl⟩

theorem length_of_mapM {β : Type*} {g : α → Option β} {l : List α} {ys : List β}
    (h : l.mapM g = some ys) : ys.length = l.length := by
  induction l generalizing ys with
  | nil =>
    rw [List.mapM_nil] at h
    cases h
    rfl
  | cons x l ih =>
    rw [List.mapM_cons] at h
    simp only [Option.bind_eq_bind, Option.pure_def, Option.bind_eq_some_iff, Option.some.injEq] at h
    obtain ⟨y, -, ys, hys, rfl⟩ := h
    rw [List.length_cons, List.length_cons, ih hys]

/-- A loop that appends the members of a sequence one after the other. -/
theorem forRange_push {body : Nat → List α → Option (List α)} (out : Nat → α) (hab : a ≤ b)
    (hb : (b : Int) ≤ CInt.intMax)
    (hbody : ∀ i, a ≤ i → i < b →
      body i ((List.range i).map out) = some ((List.range i).map out ++ [out i])) :
    forRange a b body ((List.range a).map out) = some ((List.range b).map out) := by
  have hstep : ∀ i v, i < b → (a ≤ i ∧ v = (List.range i).map out) →
      ∃ v', body i v = some v' ∧ a ≤ i + 1 ∧ v' = (List.range (i + 1)).map out := by
    rintro i v hi ⟨hai, rfl⟩
    refine ⟨_, hbody i hai hi, Nat.le_succ_of_le hai, ?_⟩
    rw [List.range_succ, List.map_append, List.map_singleton]
  obtain ⟨v, hv, -, rfl⟩ := exists_forRange _ hab hb hstep ⟨Nat.le_refl a, rfl⟩
  exact hv

/-- A vector whose first `j` elements have been replaced. -/
def filled (f : Nat → α) (v : List α) (j : Nat) : List α := (List.range j).map f ++ v.drop j

@[simp] theorem filled_zero (f : Nat → α) (v : List α) : filled f v 0 = v := rfl

theorem filled_length (f : Nat → α) (v : List α) :
    filled f v v.length = (List.range v.length).map f := by
  rw [filled, List.drop_length, List.append_nil]

theorem getElem?_filled {f : Nat → α} {v : List α} {i j : Nat} :
    (filled f v j)[i]? = if i < j then some (f i) else v[i]? := by
  unfold filled
  split
  · rename_i hi
    rw [List.getElem?_append_left (by simpa using hi), List.getElem?_map, List.getElem?_range hi]
    rfl
  · rename_i hi
    rw [List.getElem?_append_right (by simpa using hi), List.length_map, List.length_range,
      List.getElem?_drop]
    congr 1
    omega

/-- The next element is replaced. -/
theorem store_filled {f : Nat → α} {v : List α} {j : Nat} (hj : j < v.length) :
    store (filled f v j) j (f j) = some (filled f v (j + 1)) := by
  have hlen : (filled f v j).length = v.length := by
    simp only [filled, List.length_append, List.length_map, List.length_range, List.length_drop]
    omega
  rw [store, if_pos (hlen.symm ▸ hj)]
  congr 1
  refine List.ext_getElem? fun i => ?_
  rw [List.getElem?_set, getElem?_filled, getElem?_filled, hlen]
  by_cases hi : j = i
  · subst hi
    rw [if_pos rfl, if_pos hj, if_pos (Nat.lt_succ_self j)]
  · rw [if_neg hi]
    by_cases hlt : i < j
    · rw [if_pos hlt, if_pos (by omega)]
    · rw [if_neg hlt, if_neg (by omega)]

/-- A loop that replaces one element after the other. -/
theorem forRange_fill {body : Nat → List α → Option (List α)} (f : Nat → α) {v : List α}
    (hab : a ≤ b) (hb : (b : Int) ≤ CInt.intMax)
    (hbody : ∀ j, a ≤ j → j < b → body j (filled f v j) = some (filled f v (j + 1))) :
    forRange a b body (filled f v a) = some (filled f v b) := by
  have hstep : ∀ j u, j < b → (a ≤ j ∧ u = filled f v j) →
      ∃ u', body j u = some u' ∧ a ≤ j + 1 ∧ u' = filled f v (j + 1) := by
    rintro j u hj ⟨haj, rfl⟩
    exact ⟨_, hbody j haj hj, Nat.le_succ_of_le haj, rfl⟩
  obtain ⟨u, hu, -, rfl⟩ := exists_forRange _ hab hb hstep ⟨Nat.le_refl a, rfl⟩
  exact hu

/-- A loop that changes one element after the other, with a result. -/
theorem getElem?_forRange_store {g : Nat → α → Option α} {v v' : List α}
    (h : forRange 0 v.length (fun j u => u[j]?.bind fun x => (g j x).bind (store u j)) v = some v') :
    v'.length = v.length ∧ ∀ i, v'[i]? = v[i]?.bind (g i) := by
  have hend := forRange_invariant (b := v.length)
    (fun j u => u.length = v.length ∧ ∀ i, u[i]? = if i < j then v[i]?.bind (g i) else v[i]?)
    (Nat.zero_le _) ?_ ⟨rfl, fun i => by simp⟩ h
  · refine ⟨hend.1, fun i => (hend.2 i).trans ?_⟩
    split
    · rfl
    · rename_i hi
      rw [List.getElem?_eq_none (Nat.le_of_not_lt hi), Option.bind_none]
  · rintro j u u' hj ⟨hlength, hget⟩ hbody
    simp only [Option.bind_eq_some_iff, store, Option.ite_none_right_eq_some, Option.some.injEq]
      at hbody
    obtain ⟨x, hx, y, hy, -, rfl⟩ := hbody
    rw [hget j, if_neg (Nat.lt_irrefl j)] at hx
    refine ⟨by rw [List.length_set, hlength], fun i => ?_⟩
    rw [List.getElem?_set]
    by_cases hi : j = i
    · subst hi
      rw [if_pos rfl, if_pos (hlength ▸ hj), if_pos (Nat.lt_succ_self j), hx, Option.bind_some, hy]
    · rw [if_neg hi, hget i]
      by_cases hlt : i < j
      · rw [if_pos hlt, if_pos (by omega)]
      · rw [if_neg hlt, if_neg (by omega)]

theorem rounds_overflow {n j : Nat} (h : CInt.intMax < ((j + (n + 1) : Nat) : Int)) (s : S) :
    rounds body (n + 1) j s = none := by
  induction n generalizing j s with
  | zero =>
    have hsucc : succ j = none := by
      rw [succ, if_neg (by omega)]
    rw [rounds, hsucc]
    cases body j s with
    | none => rfl
    | some u => rfl
  | succ n ih =>
    rw [rounds]
    cases body j s with
    | none => rfl
    | some u =>
      rw [Option.bind_some]
      by_cases hj : ((j + 1 : Nat) : Int) ≤ CInt.intMax
      · rw [succ, if_pos hj, Option.bind_some]
        exact ih (by omega) u
      · rw [succ, if_neg hj, Option.bind_none]

/-- The counter of a loop to a bound beyond `INT_MAX` overflows. -/
theorem forRange_overflow (hab : a < b) (hb : CInt.intMax < (b : Int)) (s : S) :
    forRange a b body s = none := by
  unfold forRange
  obtain ⟨n, hn⟩ : ∃ n, b - a = n + 1 := ⟨b - a - 1, by omega⟩
  rw [hn]
  exact rounds_overflow (by omega) s

theorem exists_searchFrom {test : Nat → Option Bool} (hb : (b : Int) ≤ CInt.intMax)
    (htest : ∀ j < b, ∃ t, test j = some t) {n j : Nat} (hn : j + n = b) :
    ∃ found, searchFrom test n j = some found ∧ ∀ k ∈ found, k < b := by
  induction n generalizing j with
  | zero => exact ⟨none, rfl, by simp⟩
  | succ n ih =>
    obtain ⟨t, ht⟩ := htest j (by omega)
    rw [searchFrom, ht]
    cases t with
    | true => exact ⟨some j, rfl, by simp; omega⟩
    | false =>
      obtain ⟨found, hfound, hlt⟩ := @ih (j + 1) (by omega)
      refine ⟨found, ?_, hlt⟩
      rw [succ_eq_some (by omega) hb]
      exact hfound

/-- **Search rule.** -/
theorem exists_search {test : Nat → Option Bool} (hb : (b : Int) ≤ CInt.intMax)
    (htest : ∀ j < b, ∃ t, test j = some t) :
    ∃ found, search b test = some found ∧ ∀ k ∈ found, k < b :=
  exists_searchFrom hb htest (Nat.zero_add b)

/-- A search stops at the first index with the property. -/
theorem searchFrom_eq {test : Nat → Option Bool} {p : Nat → Bool} (hb : (b : Int) ≤ CInt.intMax)
    (htest : ∀ j < b, test j = some (p j)) {i : Nat} (hi : i < b) (hp : p i = true)
    {n j : Nat} (hn : j + n = b) (hji : j ≤ i) (hbefore : ∀ k, j ≤ k → k < i → p k = false) :
    searchFrom test n j = some (some i) := by
  induction n generalizing j with
  | zero => omega
  | succ n ih =>
    rw [searchFrom, htest j (by omega)]
    by_cases hj : j = i
    · rw [hj, hp]
      rfl
    · rw [hbefore j le_rfl (by omega), succ_eq_some (by omega) hb]
      exact ih (by omega) (by omega) fun k hk hki => hbefore k (by omega) hki

/-- A search that finds nothing. -/
theorem searchFrom_eq_none {test : Nat → Option Bool} (hb : (b : Int) ≤ CInt.intMax)
    (htest : ∀ j < b, test j = some false) {n j : Nat} (hn : j + n = b) :
    searchFrom test n j = some none := by
  induction n generalizing j with
  | zero => rfl
  | succ n ih =>
    rw [searchFrom, htest j (by omega), succ_eq_some (by omega) hb]
    exact ih (by omega)

theorem search_eq_none {test : Nat → Option Bool} (hb : (b : Int) ≤ CInt.intMax)
    (htest : ∀ j < b, test j = some false) : search b test = some none :=
  searchFrom_eq_none hb htest (Nat.zero_add b)

theorem search_eq {test : Nat → Option Bool} {p : Nat → Bool} (hb : (b : Int) ≤ CInt.intMax)
    (htest : ∀ j < b, test j = some (p j)) {i : Nat} (hi : i < b) (hp : p i = true)
    (hbefore : ∀ k < i, p k = false) : search b test = some (some i) :=
  searchFrom_eq hb htest hi hp (Nat.zero_add b) (Nat.zero_le i) fun k _ => hbefore k

end CppExamples.Lib.Loop
