import CppExamples.Lib.Owned

/-!
# Subtrees

A path of item numbers leads from an owner to a subtree. `get?` and `set` read and replace it;
`outside` is the frame: the blocks of the tree that are not in the subtree.

* `blocks_perm`: the blocks of a tree are those of a subtree and those outside of it.
* `blocks_set`: replacing the subtree by one with the same owner changes nothing outside.
* `get?_set_append`, `get?_set_above`, `get?_set_of_apart`, `set_comm`, `set_set_append`: two paths
  into one tree, where the subtree at one of them is replaced.
* `address_mem_outside`: what is not below the path is outside.
-/

namespace CppExamples.Lib.Owned

variable {P A K L : Type}

/-! ## Lists with one item taken out -/

theorem exists_split {α : Type} {l : List α} {i : Nat} {e : α} (h : l[i]? = some e) :
    ∃ front back, l = front ++ e :: back ∧ front.length = i := by
  obtain ⟨hi, rfl⟩ := List.getElem?_eq_some_iff.mp h
  refine ⟨l.take i, l.drop (i + 1), ?_, List.length_take_of_le (Nat.le_of_lt hi)⟩
  rw [List.getElem_cons_drop, List.take_append_drop]

theorem getElem?_split {α : Type} (front : List α) (e : α) (back : List α) :
    (front ++ e :: back)[front.length]? = some e := by
  rw [List.getElem?_append_right (Nat.le_refl _), Nat.sub_self, List.getElem?_cons_zero]

theorem set_split {α : Type} (front : List α) (e : α) (back : List α) (x : α) :
    (front ++ e :: back).set front.length x = front ++ x :: back := by
  induction front with
  | nil => rfl
  | cons y front ih => exact congrArg (y :: ·) ih

theorem modify_split {α : Type} (front : List α) (e : α) (back : List α) (f : α → α) :
    (front ++ e :: back).modify front.length f = front ++ f e :: back := by
  induction front with
  | nil => rfl
  | cons x front ih => exact congrArg (x :: ·) ih

/-! ## Subtrees -/

namespace Tree

/-- The subtree at the end of the path. -/
def get? : Tree P A K L → List Nat → Option (Tree P A K L)
  | t, [] => some t
  | .leaf _, _ :: _ => none
  | .node _ _ items, i :: path => items[i]?.bind fun e => e.2.get? path

/-- The tree with another subtree at the end of the path. -/
def set : Tree P A K L → List Nat → Tree P A K L → Tree P A K L
  | _, [], u => u
  | .leaf a, _ :: _, _ => .leaf a
  | .node k p items, i :: path, u => .node k p (items.modify i fun e => (e.1, e.2.set path u))

theorem get?_nil (t : Tree P A K L) : t.get? [] = some t := by cases t <;> rfl

theorem set_nil (t u : Tree P A K L) : t.set [] u = u := by cases t <;> rfl

/-- A step down is a step into a block. -/
theorem get?_cons_eq_some {t u : Tree P A K L} {i : Nat} {path : List Nat} :
    t.get? (i :: path) = some u ↔ ∃ k p front l c back,
      t = .node k p (front ++ (l, c) :: back) ∧ front.length = i ∧ c.get? path = some u := by
  constructor
  · intro h
    cases t with
    | leaf a => exact absurd h (by simp [get?])
    | node k p items =>
      obtain ⟨e, he, hget⟩ := Option.bind_eq_some_iff.mp h
      obtain ⟨front, back, rfl, hlen⟩ := exists_split he
      exact ⟨k, p, front, e.1, e.2, back, rfl, hlen, hget⟩
  · rintro ⟨k, p, front, l, c, back, rfl, rfl, hget⟩
    rw [get?, getElem?_split]
    exact hget

theorem set_cons (k : K) (p : P) (front : List (L × Tree P A K L)) (l : L) (c : Tree P A K L)
    (back : List (L × Tree P A K L)) (path : List Nat) (u : Tree P A K L) :
    (Tree.node k p (front ++ (l, c) :: back)).set (front.length :: path) u =
      .node k p (front ++ (l, c.set path u) :: back) := by
  rw [set, modify_split]

theorem get?_append (t : Tree P A K L) (p q : List Nat) :
    t.get? (p ++ q) = (t.get? p).bind fun u => u.get? q := by
  induction p generalizing t with
  | nil => rw [List.nil_append, get?_nil, Option.bind_some]
  | cons i p ih =>
    cases t with
    | leaf a => rfl
    | node k a items =>
      rw [List.cons_append, get?, get?, Option.bind_assoc]
      exact congrArg _ (funext fun e => ih e.2)

theorem set_get? {t u : Tree P A K L} {path : List Nat} (h : t.get? path = some u) :
    t.set path u = t := by
  induction path generalizing t with
  | nil =>
    rw [get?_nil] at h
    rw [set_nil, Option.some.inj h]
  | cons i path ih =>
    obtain ⟨k, p, front, l, c, back, rfl, rfl, hget⟩ := get?_cons_eq_some.mp h
    rw [set_cons, ih hget]

theorem set_append {t v : Tree P A K L} {p q : List Nat} (h : t.get? p = some v)
    (u : Tree P A K L) : t.set (p ++ q) u = t.set p (v.set q u) := by
  induction p generalizing t with
  | nil =>
    rw [get?_nil] at h
    rw [List.nil_append, set_nil, Option.some.inj h]
  | cons i p ih =>
    obtain ⟨k, a, front, l, c, back, rfl, rfl, hget⟩ := get?_cons_eq_some.mp h
    rw [List.cons_append, set_cons, set_cons, ih hget]

/-! ### A path in a tree that was changed -/

/-- Below the new subtree. -/
theorem get?_set_append {t v : Tree P A K L} {p : List Nat} (h : t.get? p = some v)
    (u : Tree P A K L) (q : List Nat) : (t.set p u).get? (p ++ q) = u.get? q := by
  induction p generalizing t with
  | nil => rw [set_nil, List.nil_append]
  | cons i p ih =>
    obtain ⟨k, a, front, l, c, back, rfl, rfl, hget⟩ := get?_cons_eq_some.mp h
    rw [set_cons, List.cons_append, get?, getElem?_split]
    exact ih hget

/-- Above the new subtree. -/
theorem get?_set_above {t v : Tree P A K L} {p : List Nat} (h : t.get? p = some v) (r : List Nat)
    (u : Tree P A K L) : (t.set (p ++ r) u).get? p = some (v.set r u) := by
  have hget := get?_set_append h (v.set r u) []
  rwa [List.append_nil, get?_nil, ← set_append h] at hget

/-- Neither above nor below. -/
theorem get?_set_of_apart (t u : Tree P A K L) {p q : List Nat} (hpq : ¬ p <+: q)
    (hqp : ¬ q <+: p) : (t.set p u).get? q = t.get? q := by
  induction p generalizing t q with
  | nil => exact absurd List.nil_prefix hpq
  | cons i p ih =>
    cases q with
    | nil => exact absurd List.nil_prefix hqp
    | cons j q =>
      cases t with
      | leaf a => rfl
      | node k a items =>
        rw [set, get?, get?]
        by_cases hij : i = j
        · subst hij
          rw [List.getElem?_modify_eq]
          cases items[i]? with
          | none => rfl
          | some e =>
            exact ih e.2 (fun h => hpq (List.cons_prefix_cons.mpr ⟨rfl, h⟩))
              fun h => hqp (List.cons_prefix_cons.mpr ⟨rfl, h⟩)
        · rw [List.getElem?_modify_ne _ _ hij]

/-- A change inside a subtree is lost with the subtree. -/
theorem set_set_append (t u u' : Tree P A K L) (p r : List Nat) :
    (t.set (p ++ r) u).set p u' = t.set p u' := by
  induction p generalizing t with
  | nil => rw [List.nil_append, set_nil, set_nil]
  | cons i p ih =>
    cases t with
    | leaf a => rfl
    | node k a items =>
      rw [List.cons_append, set, set, set, List.modify_modify_eq]
      exact congrArg (Tree.node k a ∘ items.modify i) (funext fun e => by
        rw [Function.comp, ih])

theorem set_comm (t u u' : Tree P A K L) {p q : List Nat} (hpq : ¬ p <+: q) (hqp : ¬ q <+: p) :
    (t.set p u).set q u' = (t.set q u').set p u := by
  induction p generalizing t q with
  | nil => exact absurd List.nil_prefix hpq
  | cons i p ih =>
    cases q with
    | nil => exact absurd List.nil_prefix hqp
    | cons j q =>
      cases t with
      | leaf a => rfl
      | node k a items =>
        rw [set, set, set, set]
        by_cases hij : i = j
        · subst hij
          rw [List.modify_modify_eq, List.modify_modify_eq]
          refine congrArg (Tree.node k a ∘ items.modify i) (funext fun e => ?_)
          rw [Function.comp, Function.comp, ih _ (fun h => hpq (List.cons_prefix_cons.mpr ⟨rfl, h⟩))
            fun h => hqp (List.cons_prefix_cons.mpr ⟨rfl, h⟩)]
        · rw [List.modify_modify_ne _ _ _ hij]

/-- A path that leads nowhere. -/
theorem set_of_get?_eq_none {t : Tree P A K L} {p : List Nat} (h : t.get? p = none)
    (u : Tree P A K L) : t.set p u = t := by
  induction p generalizing t with
  | nil => exact absurd h (by rw [get?_nil]; exact Option.some_ne_none t)
  | cons i p ih =>
    cases t with
    | leaf a => rfl
    | node k a items =>
      rw [get?] at h
      rw [set]
      congr 1
      cases he : items[i]? with
      | none => exact List.modify_eq_self (List.getElem?_eq_none_iff.mp he)
      | some e =>
        obtain ⟨front, back, rfl, rfl⟩ := exists_split he
        rw [he, Option.bind_some] at h
        rw [modify_split, ih h]

/-- The owner of a block stays, whatever changes in the block. -/
theorem ref_set (t u : Tree Addr A K L) {p : List Nat} (h : p ≠ []) :
    (t.set p u).ref = t.ref := by
  cases p with
  | nil => exact absurd rfl h
  | cons i p => cases t <;> rfl

theorem refs_append (front back : List (L × Tree Addr A K L)) :
    refs (front ++ back) = refs front ++ refs back := List.map_append

theorem blocksItems_append (front back : List (L × Tree Addr A K L)) :
    blocksItems (front ++ back) = blocksItems front ++ blocksItems back := by
  rw [blocksItems_eq, blocksItems_eq, blocksItems_eq, List.flatMap_append]

/-- The blocks of a node, those of one item in front. -/
theorem blocks_node_split (k : K) (p : Addr) (front : List (L × Tree Addr A K L)) (l : L)
    (c : Tree Addr A K L) (back : List (L × Tree Addr A K L)) :
    (Tree.node k p (front ++ (l, c) :: back)).blocks.Perm
      (c.blocks ++ ((p, refs front ++ (l, c.ref) :: refs back) ::
        (blocksItems front ++ blocksItems back))) := by
  have hrefs : refs (front ++ (l, c) :: back) = refs front ++ (l, c.ref) :: refs back :=
    refs_append _ _
  rw [blocks, hrefs, blocksItems_append, blocksItems]
  refine List.Perm.trans (List.Perm.cons _ ?_) List.perm_middle.symm
  rw [← List.append_assoc, ← List.append_assoc]
  exact List.perm_append_comm.append_right _

/-- The blocks that are not in the subtree at the end of the path. -/
def outside : Tree Addr A K L → List Nat → List (Addr × Block A K L)
  | _, [] => []
  | .leaf _, _ :: _ => []
  | .node _ p items, i :: path =>
    (p, refs items) ::
      ((items[i]?.elim [] fun e => e.2.outside path) ++ blocksItems (items.eraseIdx i))

theorem outside_nil (t : Tree Addr A K L) : t.outside [] = [] := by cases t <;> rfl

theorem outside_cons (k : K) (p : Addr) (front : List (L × Tree Addr A K L)) (l : L)
    (c : Tree Addr A K L) (back : List (L × Tree Addr A K L)) (path : List Nat) :
    (Tree.node k p (front ++ (l, c) :: back)).outside (front.length :: path) =
      (p, refs front ++ (l, c.ref) :: refs back) ::
        (c.outside path ++ (blocksItems front ++ blocksItems back)) := by
  rw [outside, refs_append, getElem?_split, Option.elim_some,
    List.eraseIdx_append_of_length_le (Nat.le_refl _), Nat.sub_self, List.eraseIdx_cons_zero,
    blocksItems_append]
  rfl

/-- **The blocks of a tree are those of a subtree and those outside.** Another subtree with the
same owner changes nothing outside. -/
theorem blocks_set {t u u' : Tree Addr A K L} {path : List Nat} (h : t.get? path = some u)
    (hu : u'.ref = u.ref) :
    (t.set path u').blocks.Perm (u'.blocks ++ t.outside path) ∧ (t.set path u').ref = t.ref := by
  induction path generalizing t with
  | nil =>
    rw [get?_nil] at h
    rw [set_nil, outside_nil, List.append_nil, Option.some.inj h]
    exact ⟨List.Perm.refl _, hu⟩
  | cons i path ih =>
    obtain ⟨k, p, front, l, c, back, rfl, rfl, hget⟩ := get?_cons_eq_some.mp h
    obtain ⟨hperm, href⟩ := ih hget
    rw [set_cons, outside_cons, ← href]
    refine ⟨(blocks_node_split k p front l _ back).trans ?_, rfl⟩
    refine (hperm.append_right _).trans ?_
    rw [List.append_assoc]
    exact List.perm_middle.append_left _

theorem blocks_perm {t u : Tree Addr A K L} {path : List Nat} (h : t.get? path = some u) :
    t.blocks.Perm (u.blocks ++ t.outside path) := by
  have hperm := (blocks_set h rfl).1
  rwa [set_get? h] at hperm

/-- The number of blocks with another subtree. -/
theorem length_blocks_set {t u : Tree Addr A K L} {path : List Nat} (h : t.get? path = some u)
    (u' : Tree Addr A K L) :
    (t.set path u').blocks.length + u.blocks.length = t.blocks.length + u'.blocks.length := by
  induction path generalizing t with
  | nil =>
    rw [get?_nil] at h
    rw [set_nil, Option.some.inj h, Nat.add_comm]
  | cons i path ih =>
    obtain ⟨k, p, front, l, c, back, rfl, rfl, hget⟩ := get?_cons_eq_some.mp h
    have hold := (blocks_node_split k p front l c back).length_eq
    have hnew := (blocks_node_split k p front l (c.set path u') back).length_eq
    have hitem := ih hget
    rw [List.length_append, List.length_cons] at hold hnew
    rw [set_cons]
    omega

/-- What is outside a subtree of a subtree. -/
theorem outside_append {t v : Tree Addr A K L} {p : List Nat} (h : t.get? p = some v)
    (q : List Nat) : (t.outside (p ++ q)).Perm (v.outside q ++ t.outside p) := by
  induction p generalizing t with
  | nil =>
    rw [get?_nil] at h
    rw [List.nil_append, outside_nil, List.append_nil, Option.some.inj h]
  | cons i p ih =>
    obtain ⟨k, a, front, l, c, back, rfl, rfl, hget⟩ := get?_cons_eq_some.mp h
    rw [List.cons_append, outside_cons, outside_cons]
    refine (List.Perm.cons _ ((ih hget).append_right _)).trans ?_
    rw [List.append_assoc]
    exact List.perm_middle.symm

theorem address_mem {t : Tree Addr A K L} {q : List Nat} {k : K} {a : Addr}
    {items : List (L × Tree Addr A K L)} (hq : t.get? q = some (.node k a items)) :
    a ∈ t.blocks.map Prod.fst := by
  refine (((blocks_perm hq).map Prod.fst).mem_iff).mpr ?_
  rw [blocks, List.cons_append, List.map_cons]
  exact List.mem_cons_self

/-- A block that is not in the subtree at `p` is outside of it. -/
theorem address_mem_outside {t : Tree Addr A K L} {p q : List Nat} {k : K} {a : Addr}
    {items : List (L × Tree Addr A K L)} {u : Tree Addr A K L} (hp : t.get? p = some u)
    (hq : t.get? q = some (.node k a items)) (hpq : ¬ p <+: q) :
    a ∈ (t.outside p).map Prod.fst := by
  induction p generalizing t q with
  | nil => exact absurd List.nil_prefix hpq
  | cons i p ih =>
    obtain ⟨k', a', front, l, c, back, rfl, rfl, hget⟩ := get?_cons_eq_some.mp hp
    rw [outside_cons, List.map_cons, List.map_append]
    cases q with
    | nil =>
      rw [get?_nil] at hq
      have ha : a' = a := by
        injection Option.some.inj hq
      rw [ha]
      exact List.mem_cons_self
    | cons j q =>
      refine List.mem_cons_of_mem _ (List.mem_append.mpr ?_)
      by_cases hij : j = front.length
      · subst hij
        rw [get?, getElem?_split, Option.bind_some] at hq
        exact .inl (ih hget hq fun h => hpq (List.cons_prefix_cons.mpr ⟨rfl, h⟩))
      · rw [get?] at hq
        obtain ⟨e, he, hnext⟩ := Option.bind_eq_some_iff.mp hq
        have hmem : e ∈ front ++ back := by
          have herase : (front ++ (l, c) :: back).eraseIdx front.length = front ++ back := by
            rw [List.eraseIdx_append_of_length_le (Nat.le_refl _), Nat.sub_self,
              List.eraseIdx_cons_zero]
          rw [← herase]
          exact List.mem_eraseIdx_iff_getElem?.mpr ⟨j, hij, he⟩
        refine .inr ?_
        rw [← blocksItems_append, blocksItems_eq, List.map_flatMap]
        exact List.mem_flatMap.mpr ⟨e, hmem, address_mem hnext⟩

end Tree

end CppExamples.Lib.Owned
