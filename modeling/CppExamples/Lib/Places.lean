import CppExamples.Lib.Subtrees

/-!
# Places in owned trees

A program state is a heap and a stack of variables. A place is a variable and a path of item
numbers; `State.resolve` walks it to the slot it designates (`Loc`), which is what a reference is.

`Rep s ts temps`: the variables of `s` own the trees `ts`, and the heap is their blocks and those
of the temporaries, `temps`.

* `Rep.resolve_spec`: a place of the trees resolves to a slot that holds the owner of its subtree.
* `Rep.write_spec`: **update rule**. Everything but the subtree at the place is a frame, and with
  the frame and the blocks of another tree on the heap, writing the slot makes the state that has
  the other tree at the place.
* `Rep.exchange_spec`: the same for a temporary that takes the place of the subtree, and
  `Rep.write_val_spec` for a payload.
* `Rep.lose_spec`: written into one of its own blocks, a temporary is lost with the rest of it.
* `Rep.store_spec`: the update rule for a block whose items change.
* `Rep.resolve_setAt`: an exchange at one place leaves the slots of the places not inside of it.
* `Rep.resolve_inj`: two places resolve to one slot only if they are one place.
* `Rep.read_freed`: once the subtree at a place is freed, the slots strictly inside it are gone,
  and all the other slots are as they were.
-/

namespace CppExamples.Lib.Owned

variable {P A K L : Type}

open CppExamples.Lib.Owned.Tree

/-! ## States, slots and places -/

/-- A heap and the variables in scope, the outermost first. -/
structure State (A K L : Type) where
  heap : Heap A K L
  vars : List (Ref A K)

/-- A slot: a variable, or the `i`-th item of the block at `p`. -/
inductive Loc where
  | var (x : Nat)
  | item (p : Addr) (i : Nat)
  deriving DecidableEq

/-- A variable and the item numbers on the way down. -/
@[ext] structure Place where
  var : Nat
  path : List Nat
  deriving DecidableEq

namespace Place

/-- One more step down. -/
def item (place : Place) (i : Nat) : Place := ⟨place.var, place.path ++ [i]⟩

/-- `q` is strictly inside the subtree at `p`. -/
def Above (p q : Place) : Prop := p.var = q.var ∧ p.path <+: q.path ∧ p ≠ q

instance decidableAbove (p q : Place) : Decidable (p.Above q) :=
  inferInstanceAs (Decidable (_ ∧ _ ∧ _))

/-- Neither is inside the other. -/
def Apart (p q : Place) : Prop := p.var = q.var → ¬ p.path <+: q.path ∧ ¬ q.path <+: p.path

theorem Apart.symm {p q : Place} (h : p.Apart q) : q.Apart p := fun hvar => (h hvar.symm).symm

/-- Two places are one place, one is inside the other, or they are apart. -/
theorem cases_of (p q : Place) : p = q ∨ p.Above q ∨ q.Above p ∨ p.Apart q := by
  by_cases heq : p = q
  · exact .inl heq
  by_cases hpq : p.var = q.var ∧ p.path <+: q.path
  · exact .inr (.inl ⟨hpq.1, hpq.2, heq⟩)
  by_cases hqp : q.var = p.var ∧ q.path <+: p.path
  · exact .inr (.inr (.inl ⟨hqp.1, hqp.2, Ne.symm heq⟩))
  · exact .inr (.inr (.inr fun hvar => ⟨fun h => hpq ⟨hvar, h⟩, fun h => hqp ⟨hvar.symm, h⟩⟩))

theorem not_above_self (p : Place) : ¬ p.Above p := fun h => h.2.2 rfl

theorem Above.asymm {p q : Place} (h : p.Above q) : ¬ q.Above p := fun h' =>
  h.2.2 (Place.ext h.1 (h.2.1.eq_of_length (Nat.le_antisymm h.2.1.length_le h'.2.1.length_le)))

theorem Above.trans {p q r : Place} (h : p.Above q) (h' : q.Above r) : p.Above r :=
  ⟨h.1.trans h'.1, h.2.1.trans h'.2.1, fun heq => (heq ▸ h).asymm h'⟩

theorem above_item (p : Place) (i : Nat) : p.Above (p.item i) := by
  refine ⟨rfl, List.prefix_append _ _, fun heq => ?_⟩
  have hlen := congrArg (fun p => p.path.length) heq
  rw [item, List.length_append, List.length_singleton] at hlen
  omega

/-- The path from the outer place to the inner one. -/
theorem Above.exists_path {p q : Place} (h : p.Above q) :
    ∃ i path, q = ⟨p.var, p.path ++ i :: path⟩ := by
  obtain ⟨hvar, ⟨r, hr⟩, hne⟩ := h
  cases r with
  | nil => exact absurd (Place.ext hvar ((List.append_nil _).symm.trans hr)) hne
  | cons i path => exact ⟨i, path, Place.ext hvar.symm hr.symm⟩

theorem eq_var_or_item (place : Place) :
    (∃ x, place = ⟨x, []⟩) ∨ ∃ (p : Place) (i : Nat), place = p.item i := by
  rcases List.eq_nil_or_concat place.path with hpath | ⟨path, i, hpath⟩
  · exact .inl ⟨place.var, Place.ext rfl hpath⟩
  · refine .inr ⟨⟨place.var, path⟩, i, Place.ext rfl ?_⟩
    rw [hpath, List.concat_eq_append, item]

end Place

namespace State

/-- What the slot holds. There is no slot in a block that is gone. -/
def read (s : State A K L) : Loc → Option (Ref A K)
  | .var x => s.vars[x]?
  | .item p i => do
    let items ← s.heap.block p
    let e ← items[i]?
    return e.2

def write (s : State A K L) (loc : Loc) (r : Ref A K) : Option (State A K L) :=
  match loc with
  | .var x => if x < s.vars.length then some { s with vars := s.vars.set x r } else none
  | .item p i => do
    let items ← s.heap.block p
    let e ← items[i]?
    return { s with heap := s.heap.store p (items.set i (e.1, r)) }

/-- The slot at the end of the path that starts in `loc`. -/
def walk (s : State A K L) : Loc → List Nat → Option Loc
  | loc, [] => some loc
  | loc, i :: path =>
    match s.read loc with
    | some (.own _ p) => walk s (.item p i) path
    | _ => none

/-- The slot of one item of a block. -/
theorem item_spec (s : State A K L) {p : Addr} {front : List (L × Tree Addr A K L)} {l : L}
    {r : Ref A K} {back : List (L × Tree Addr A K L)}
    (h : s.heap.block p = some (refs front ++ (l, r) :: refs back)) :
    s.read (.item p front.length) = some r ∧ ∀ r', s.write (.item p front.length) r' =
      some ⟨s.heap.store p (refs front ++ (l, r') :: refs back), s.vars⟩ := by
  have hlen : front.length = (refs front).length := (List.length_map _).symm
  rw [hlen]
  constructor
  · rw [read, h, Option.bind_eq_bind, Option.bind_some, getElem?_split]
    rfl
  · intro r'
    rw [write, h, Option.bind_eq_bind, Option.bind_some, getElem?_split, Option.bind_eq_bind,
      Option.bind_some, set_split]
    rfl

/-- What a slot holds after another one, or itself, was written. -/
theorem read_of_write {s s' : State A K L} {loc : Loc} {r : Ref A K} (h : s.write loc r = some s')
    (loc' : Loc) : s'.read loc' = if loc' = loc then some r else s.read loc' := by
  cases loc with
  | var x =>
    rw [write] at h
    split at h
    · rename_i hx
      obtain rfl := Option.some.inj h
      cases loc' with
      | var y =>
        by_cases hyx : y = x
        · subst hyx
          simp [read, hx]
        · simp [read, hyx, Ne.symm hyx]
      | item p i => rfl
    · exact absurd h (Option.some_ne_none s').symm
  | item p i =>
    obtain ⟨items, hitems, h⟩ := Option.bind_eq_some_iff.mp h
    obtain ⟨e, he, h⟩ := Option.bind_eq_some_iff.mp h
    obtain rfl := Option.some.inj h
    cases loc' with
    | var y => rfl
    | item q j =>
      by_cases hq : q = p
      · subst hq
        by_cases hj : j = i
        · subst hj
          obtain ⟨hlt, -⟩ := List.getElem?_eq_some_iff.mp he
          simp [read, Heap.store, hlt]
        · simp [read, Heap.store, hitems, hj, List.getElem?_set_ne (Ne.symm hj)]
      · simp [read, Heap.store, hq]

/-- The slot that a place designates. -/
def resolve (s : State A K L) (place : Place) : Option Loc := s.walk (.var place.var) place.path

theorem walk_append (s : State A K L) (loc : Loc) (p q : List Nat) :
    s.walk loc (p ++ q) = (s.walk loc p).bind fun loc' => s.walk loc' q := by
  induction p generalizing loc with
  | nil => rfl
  | cons i p ih =>
    rw [List.cons_append, walk, walk]
    cases s.read loc with
    | none => rfl
    | some r =>
      cases r with
      | val a => rfl
      | own k a => exact ih _

/-- Where a tree stands, the walk along a path of it finds the subtree's slot. -/
theorem walk_spec {s : State A K L} {bs : List (Addr × Block A K L)} (hh : s.heap.Holds bs)
    {t u : Tree Addr A K L} {path : List Nat} (hget : t.get? path = some u) {loc : Loc}
    (hread : s.read loc = some t.ref) (hsub : t.blocks ⊆ bs) :
    ∃ loc', s.walk loc path = some loc' ∧ s.read loc' = some u.ref := by
  induction path generalizing t loc with
  | nil =>
    rw [get?_nil] at hget
    exact ⟨loc, rfl, Option.some.inj hget ▸ hread⟩
  | cons i path ih =>
    obtain ⟨k, p, front, l, c, back, rfl, rfl, hnext⟩ := get?_cons_eq_some.mp hget
    have hsplit := blocks_node_split k p front l c back
    have hblock := hh.block_eq (hsub (hsplit.mem_iff.mpr
      (List.mem_append_right _ List.mem_cons_self)))
    have hchild : s.read (.item p front.length) = some c.ref := (s.item_spec hblock).1
    rw [Tree.ref] at hread
    rw [walk, hread]
    exact ih hnext hchild fun e he => hsub (hsplit.mem_iff.mpr (List.mem_append_left _ he))

/-- The last step of a walk. -/
theorem walk_item {s : State A K L} {bs : List (Addr × Block A K L)} (hh : s.heap.Holds bs)
    {t : Tree Addr A K L} {path : List Nat} {k : K} {p : Addr}
    {items : List (L × Tree Addr A K L)} (hget : t.get? path = some (.node k p items)) {loc : Loc}
    (hread : s.read loc = some t.ref) (hsub : t.blocks ⊆ bs) (i : Nat) :
    s.walk loc (path ++ [i]) = some (.item p i) := by
  obtain ⟨loc', hwalk, hread'⟩ := walk_spec hh hget hread hsub
  rw [Tree.ref] at hread'
  rw [walk_append, hwalk, Option.bind_some, walk, hread']
  rfl

end State

/-! ## Trees in the variables -/

/-- The subtree at a place. -/
def getAt (ts : List (Tree P A K L)) (place : Place) : Option (Tree P A K L) :=
  ts[place.var]?.bind fun t => t.get? place.path

/-- The trees with another subtree at a place. -/
def setAt (ts : List (Tree P A K L)) (place : Place) (u : Tree P A K L) : List (Tree P A K L) :=
  ts.modify place.var fun t => t.set place.path u

/-- All blocks of the trees. -/
def blocksOf (ts : List (Tree Addr A K L)) : List (Addr × Block A K L) := ts.flatMap blocks

/-- The variables of `s` own the trees `ts`; besides their blocks only those of temporaries are on
the heap. -/
structure Rep (s : State A K L) (ts : List (Tree Addr A K L))
    (temps : List (Addr × Block A K L)) : Prop where
  vars : s.vars = ts.map Tree.ref
  holds : s.heap.Holds (blocksOf ts ++ temps)

theorem getAt_eq_some {ts : List (Tree P A K L)} {place : Place} {u : Tree P A K L} :
    getAt ts place = some u ↔ ∃ front t back,
      ts = front ++ t :: back ∧ front.length = place.var ∧ t.get? place.path = some u := by
  constructor
  · intro h
    obtain ⟨t, ht, hget⟩ := Option.bind_eq_some_iff.mp h
    obtain ⟨front, back, rfl, hlen⟩ := exists_split ht
    exact ⟨front, t, back, rfl, hlen, hget⟩
  · rintro ⟨front, t, back, rfl, hlen, hget⟩
    rw [getAt, ← hlen, getElem?_split]
    exact hget

theorem setAt_split (front : List (Tree P A K L)) (t : Tree P A K L) (back : List (Tree P A K L))
    {place : Place} (h : front.length = place.var) (u : Tree P A K L) :
    setAt (front ++ t :: back) place u = front ++ t.set place.path u :: back := by
  rw [setAt, ← h, modify_split]

theorem setAt_getAt {ts : List (Tree P A K L)} {place : Place} {u : Tree P A K L}
    (h : getAt ts place = some u) : setAt ts place u = ts := by
  obtain ⟨front, t, back, rfl, hlen, hget⟩ := getAt_eq_some.mp h
  rw [setAt_split _ _ _ hlen, set_get? hget]

theorem getAt_item_eq_some {ts : List (Tree P A K L)} {place : Place} {i : Nat}
    {u : Tree P A K L} : getAt ts (place.item i) = some u ↔ ∃ k p front l back,
      getAt ts place = some (.node k p (front ++ (l, u) :: back)) ∧ front.length = i := by
  have happ : getAt ts (place.item i) = (getAt ts place).bind fun v => v.get? [i] := by
    rw [getAt, getAt, Option.bind_assoc]
    exact congrArg _ (funext fun t => get?_append t _ _)
  rw [happ, Option.bind_eq_some_iff]
  constructor
  · rintro ⟨v, hv, hstep⟩
    obtain ⟨k, p, front, l, c, back, rfl, hlen, hget⟩ := get?_cons_eq_some.mp hstep
    rw [get?_nil] at hget
    obtain rfl := Option.some.inj hget
    exact ⟨k, p, front, l, back, hv, hlen⟩
  · rintro ⟨k, p, front, l, back, hv, hlen⟩
    exact ⟨_, hv, get?_cons_eq_some.mpr ⟨k, p, front, l, u, back, rfl, hlen, get?_nil u⟩⟩

/-- Replacing an item is replacing the node. -/
theorem setAt_item {ts : List (Tree P A K L)} {place : Place} {k : K} {p : P}
    {front : List (L × Tree P A K L)} {l : L} {c : Tree P A K L}
    {back : List (L × Tree P A K L)}
    (h : getAt ts place = some (.node k p (front ++ (l, c) :: back))) (u : Tree P A K L) :
    setAt ts (place.item front.length) u =
      setAt ts place (.node k p (front ++ (l, u) :: back)) := by
  obtain ⟨before, t, after, rfl, hlen, hget⟩ := getAt_eq_some.mp h
  have hlen' : before.length = (place.item front.length).var := hlen
  rw [setAt_split _ _ _ hlen, setAt_split _ _ _ hlen', Place.item, set_append hget, set_cons,
    set_nil]

/-! ### Two places -/

section TwoPlaces

variable {ts : List (Tree P A K L)} {p q : Place} {u u' v : Tree P A K L}

theorem getAt_setAt_self (h : getAt ts p = some v) (u : Tree P A K L) :
    getAt (setAt ts p u) p = some u := by
  obtain ⟨front, t, back, rfl, hlen, hget⟩ := getAt_eq_some.mp h
  have hset := get?_set_append hget u []
  rw [List.append_nil, get?_nil] at hset
  rw [setAt_split _ _ _ hlen, getAt, ← hlen, getElem?_split]
  exact hset

theorem getAt_setAt_of_apart (h : p.Apart q) : getAt (setAt ts p u) q = getAt ts q := by
  rw [getAt, getAt, setAt]
  by_cases hvar : p.var = q.var
  · obtain ⟨hpq, hqp⟩ := h hvar
    rw [hvar, List.getElem?_modify_eq]
    cases ts[q.var]? with
    | none => rfl
    | some t => exact get?_set_of_apart t u hpq hqp
  · rw [List.getElem?_modify_ne _ _ hvar]

/-- The subtree around a place. -/
theorem getAt_setAt_above {x i : Nat} {path r : List Nat} (h : getAt ts ⟨x, path⟩ = some v)
    (u : Tree P A K L) : getAt (setAt ts ⟨x, path ++ i :: r⟩ u) ⟨x, path⟩ =
      some (v.set (i :: r) u) := by
  obtain ⟨front, t, back, rfl, rfl, hget⟩ := getAt_eq_some.mp h
  rw [setAt_split _ _ _ rfl, getAt, getElem?_split]
  exact get?_set_above hget _ _

theorem getAt_append {x : Nat} {path r : List Nat} (h : getAt ts ⟨x, path⟩ = some v) :
    getAt ts ⟨x, path ++ r⟩ = v.get? r := by
  obtain ⟨t, ht, hget⟩ := Option.bind_eq_some_iff.mp h
  rw [getAt, ht, Option.bind_some, get?_append, hget, Option.bind_some]

/-- A payload has nothing inside. -/
theorem getAt_eq_none_of_leaf {a : A} (h : getAt ts p = some (.leaf a)) (hpq : p.Above q) :
    getAt ts q = none := by
  obtain ⟨i, path, rfl⟩ := hpq.exists_path
  exact getAt_append h

theorem setAt_setAt_self : setAt (setAt ts p u) p u' = setAt ts p u' := by
  rw [setAt, setAt, setAt, List.modify_modify_eq]
  refine congrArg (ts.modify p.var) (funext fun t => ?_)
  have hset := set_set_append t u u' p.path []
  rwa [List.append_nil] at hset

theorem setAt_setAt_of_above (h : q.Above p) : setAt (setAt ts p u) q u' = setAt ts q u' := by
  obtain ⟨i, path, rfl⟩ := h.exists_path
  rw [setAt, setAt, setAt, List.modify_modify_eq]
  exact congrArg (ts.modify q.var) (funext fun t => set_set_append t u u' _ _)

theorem setAt_comm (h : p.Apart q) : setAt (setAt ts p u) q u' = setAt (setAt ts q u') p u := by
  rw [setAt, setAt, setAt, setAt]
  by_cases hvar : p.var = q.var
  · obtain ⟨hpq, hqp⟩ := h hvar
    rw [hvar, List.modify_modify_eq, List.modify_modify_eq]
    exact congrArg (ts.modify q.var) (funext fun t => set_comm t u u' hpq hqp)
  · rw [List.modify_modify_ne _ _ _ hvar]

theorem setAt_of_getAt_eq_none (h : getAt ts p = none) (u : Tree P A K L) : setAt ts p u = ts := by
  rw [setAt]
  cases ht : ts[p.var]? with
  | none => exact List.modify_eq_self (List.getElem?_eq_none_iff.mp ht)
  | some t =>
    obtain ⟨front, back, rfl, hlen⟩ := exists_split ht
    rw [getAt, ht, Option.bind_some] at h
    rw [← hlen, modify_split, set_of_get?_eq_none h]

end TwoPlaces

/-- Where the change is not above the place, the same owner stands there. -/
theorem exists_getAt_setAt {ts : List (Tree Addr A K L)} {p q : Place} {u v w : Tree Addr A K L}
    (hp : getAt ts p = some w) (hq : getAt ts q = some v) (hne : p ≠ q) (hpq : ¬ p.Above q) :
    ∃ v', getAt (setAt ts p u) q = some v' ∧ v'.ref = v.ref := by
  rcases p.cases_of q with heq | habove | habove | hapart
  · exact absurd heq hne
  · exact absurd habove hpq
  · obtain ⟨i, path, rfl⟩ := habove.exists_path
    exact ⟨_, getAt_setAt_above hq u, ref_set v u (List.cons_ne_nil i path)⟩
  · exact ⟨v, by rw [getAt_setAt_of_apart hapart, hq], rfl⟩

theorem blocksOf_split (front : List (Tree Addr A K L)) (t : Tree Addr A K L)
    (back : List (Tree Addr A K L)) :
    (blocksOf (front ++ t :: back)).Perm (t.blocks ++ (blocksOf front ++ blocksOf back)) := by
  rw [blocksOf, List.flatMap_append, List.flatMap_cons, ← List.append_assoc, ← List.append_assoc]
  exact List.perm_append_comm.append_right _

/-- The blocks that are not in the subtree at a place. -/
def outsideAt (ts : List (Tree Addr A K L)) (place : Place) : List (Addr × Block A K L) :=
  (ts[place.var]?.elim [] fun t => t.outside place.path) ++ blocksOf (ts.eraseIdx place.var)

theorem outsideAt_split (front : List (Tree Addr A K L)) (t : Tree Addr A K L)
    (back : List (Tree Addr A K L)) {place : Place} (h : front.length = place.var) :
    outsideAt (front ++ t :: back) place =
      t.outside place.path ++ (blocksOf front ++ blocksOf back) := by
  rw [outsideAt, ← h, getElem?_split, Option.elim_some,
    List.eraseIdx_append_of_length_le (Nat.le_refl _), Nat.sub_self, List.eraseIdx_cons_zero,
    blocksOf, List.flatMap_append]
  rfl

section Frame

variable {ts : List (Tree Addr A K L)} {place : Place} {u : Tree Addr A K L}

theorem blocksOf_setAt (h : getAt ts place = some u) {u' : Tree Addr A K L}
    (hu : u'.ref = u.ref) : (blocksOf (setAt ts place u')).Perm (u'.blocks ++ outsideAt ts place) ∧
      (setAt ts place u').map Tree.ref = ts.map Tree.ref := by
  obtain ⟨front, t, back, rfl, hlen, hget⟩ := getAt_eq_some.mp h
  obtain ⟨hperm, href⟩ := blocks_set hget hu
  rw [setAt_split _ _ _ hlen, outsideAt_split _ _ _ hlen]
  constructor
  · rw [← List.append_assoc]
    exact (blocksOf_split _ _ _).trans (hperm.append_right _)
  · rw [List.map_append, List.map_append, List.map_cons, List.map_cons, href]

theorem blocksOf_perm (h : getAt ts place = some u) :
    (blocksOf ts).Perm (u.blocks ++ outsideAt ts place) := by
  have hperm := (blocksOf_setAt h rfl).1
  rwa [setAt_getAt h] at hperm

theorem outsideAt_item {k : K} {p : Addr} {front : List (L × Tree Addr A K L)} {l : L}
    {c : Tree Addr A K L} {back : List (L × Tree Addr A K L)}
    (h : getAt ts place = some (.node k p (front ++ (l, c) :: back))) :
    (outsideAt ts (place.item front.length)).Perm
      ((p, refs front ++ (l, c.ref) :: refs back) ::
        (blocksItems front ++ blocksItems back ++ outsideAt ts place)) := by
  obtain ⟨before, t, after, rfl, hlen, hget⟩ := getAt_eq_some.mp h
  have hlen' : before.length = (place.item front.length).var := hlen
  rw [outsideAt_split _ _ _ hlen, outsideAt_split _ _ _ hlen', Place.item]
  have hperm := (outside_append hget [front.length]).append_right
    (blocksOf before ++ blocksOf after)
  rw [outside_cons, outside_nil, List.nil_append] at hperm
  simpa only [List.append_assoc, List.cons_append] using hperm

/-- A block that is not in the subtree at a place is outside of it. -/
theorem address_mem_outsideAt {q : Place} {k : K} {a : Addr}
    {items : List (L × Tree Addr A K L)} (hp : getAt ts place = some u)
    (hq : getAt ts q = some (.node k a items))
    (hpq : ¬ (place.var = q.var ∧ place.path <+: q.path)) :
    a ∈ (outsideAt ts place).map Prod.fst := by
  obtain ⟨front, t, back, rfl, hlen, hget⟩ := getAt_eq_some.mp hp
  obtain ⟨t', ht', hget'⟩ := Option.bind_eq_some_iff.mp hq
  rw [outsideAt_split _ _ _ hlen, List.map_append]
  refine List.mem_append.mpr ?_
  by_cases hvar : q.var = front.length
  · rw [hvar, getElem?_split] at ht'
    rw [← Option.some.inj ht'] at hget'
    exact .inl (address_mem_outside hget hget'
      fun h => hpq ⟨hlen.symm.trans hvar.symm, h⟩)
  · refine .inr ?_
    have hmem : t' ∈ front ++ back := by
      have herase : (front ++ t :: back).eraseIdx front.length = front ++ back := by
        rw [List.eraseIdx_append_of_length_le (Nat.le_refl _), Nat.sub_self,
          List.eraseIdx_cons_zero]
      rw [← herase]
      exact List.mem_eraseIdx_iff_getElem?.mpr ⟨q.var, hvar, ht'⟩
    rw [blocksOf, blocksOf, ← List.flatMap_append, List.map_flatMap]
    exact List.mem_flatMap.mpr ⟨t', hmem, address_mem hget'⟩

end Frame

namespace Rep

variable {s : State A K L} {ts : List (Tree Addr A K L)} {temps : List (Addr × Block A K L)}
  {place : Place} {u : Tree Addr A K L}

theorem read_var (hs : Rep s ts temps) {x : Nat} {t : Tree Addr A K L} (h : ts[x]? = some t) :
    s.read (.var x) = some t.ref := by
  rw [State.read, hs.vars, List.getElem?_map, h, Option.map_some]

theorem blocks_subset (_ : Rep s ts temps) {x : Nat} {t : Tree Addr A K L} (h : ts[x]? = some t) :
    t.blocks ⊆ blocksOf ts ++ temps := by
  obtain ⟨front, back, rfl, -⟩ := exists_split h
  exact fun e he => List.mem_append_left _
    ((blocksOf_split _ _ _).mem_iff.mpr (List.mem_append_left _ he))

/-- **A place resolves to the slot of its subtree.** -/
theorem resolve_spec (hs : Rep s ts temps) (h : getAt ts place = some u) :
    ∃ loc, s.resolve place = some loc ∧ s.read loc = some u.ref := by
  obtain ⟨t, ht, hget⟩ := Option.bind_eq_some_iff.mp h
  exact State.walk_spec hs.holds hget (hs.read_var ht) (hs.blocks_subset ht)

theorem resolve_item {k : K} {p : Addr} {items : List (L × Tree Addr A K L)} (hs : Rep s ts temps)
    (h : getAt ts place = some (.node k p items)) (i : Nat) :
    s.resolve (place.item i) = some (.item p i) := by
  obtain ⟨t, ht, hget⟩ := Option.bind_eq_some_iff.mp h
  exact State.walk_item hs.holds hget (hs.read_var ht) (hs.blocks_subset ht) i

theorem read_of_resolve {loc : Loc} (hs : Rep s ts temps) (h : getAt ts place = some u)
    (hloc : s.resolve place = some loc) : s.read loc = some u.ref := by
  obtain ⟨loc', hresolve, hread⟩ := hs.resolve_spec h
  rwa [Option.some.inj (hresolve.symm.trans hloc)] at hread

/-- A place inside of another one is the slot of a block of the tree that is there. -/
theorem exists_slot {q : Place} {w : Tree Addr A K L} {loc : Loc} (hs : Rep s ts temps)
    (h : getAt ts place = some w) (hq : getAt ts q = some u) (habove : place.Above q)
    (hloc : s.resolve q = some loc) :
    ∃ path k p front l back, w.get? path = some (.node k p (front ++ (l, u) :: back)) ∧
      loc = .item p front.length := by
  rcases q.eq_var_or_item with ⟨x, rfl⟩ | ⟨q, i, rfl⟩
  · exact absurd (Place.ext habove.1 (List.prefix_nil.mp habove.2.1)) habove.2.2
  · obtain ⟨k, p, front, l, back, hnode, rfl⟩ := getAt_item_eq_some.mp hq
    obtain ⟨path, hpath⟩ : place.path <+: q.path := by
      rcases List.prefix_concat_iff.mp habove.2.1 with heq | hprefix
      · exact absurd (Place.ext habove.1 heq) habove.2.2
      · exact hprefix
    have hplace : q = ⟨place.var, place.path ++ path⟩ := Place.ext habove.1.symm hpath.symm
    refine ⟨path, k, p, front, l, back, ?_, ?_⟩
    · rw [← getAt_append h, ← hplace]
      exact hnode
    · exact Option.some.inj (hloc.symm.trans (hs.resolve_item hnode front.length))

/-- A new variable takes what a temporary owns, and the innermost variable leaves it behind. -/
theorem push_iff {t : Tree Addr A K L} :
    Rep ⟨s.heap, s.vars ++ [t.ref]⟩ (ts ++ [t]) temps ↔ Rep s ts (t.blocks ++ temps) := by
  have hblocks : blocksOf (ts ++ [t]) ++ temps = blocksOf ts ++ (t.blocks ++ temps) := by
    rw [blocksOf, List.flatMap_append, List.flatMap_singleton, List.append_assoc]
    rfl
  constructor
  · intro h
    have hvars := h.vars
    rw [List.map_append] at hvars
    exact ⟨(List.append_inj' hvars rfl).1, hblocks ▸ h.holds⟩
  · intro h
    refine ⟨?_, hblocks ▸ h.holds⟩
    rw [List.map_append, h.vars]
    rfl

/-- A change elsewhere leaves a place its slot. -/
theorem resolve_setAt {s' : State A K L} {temps' : List (Addr × Block A K L)} {q : Place}
    {u' v : Tree Addr A K L} (hs : Rep s ts temps) (hs' : Rep s' (setAt ts place u') temps')
    (h : getAt ts place = some u) (hq : getAt ts q = some v) (hnot : ¬ place.Above q) :
    s'.resolve q = s.resolve q := by
  rcases q.eq_var_or_item with ⟨x, rfl⟩ | ⟨q, i, rfl⟩
  · rfl
  · obtain ⟨k, p, front, l, back, hnode, rfl⟩ := getAt_item_eq_some.mp hq
    have habove : q.Above (q.item front.length) := Place.above_item q _
    have hne : place ≠ q := fun heq => hnot (heq ▸ habove)
    obtain ⟨v', hv', href⟩ := exists_getAt_setAt (u := u') h hnode hne
      fun hpq => hnot (hpq.trans habove)
    cases v' with
    | leaf a => exact absurd href (by simp [Tree.ref])
    | node k' p' items =>
      obtain ⟨rfl, rfl⟩ : k' = k ∧ p' = p := by simpa [Tree.ref] using href
      rw [hs.resolve_item hnode, hs'.resolve_item hv']

/-- The slot of a place depends on the trees alone. -/
theorem resolve_congr {s' : State A K L} {temps' : List (Addr × Block A K L)}
    (hs : Rep s ts temps) (hs' : Rep s' ts temps') (h : getAt ts place = some u) :
    s'.resolve place = s.resolve place := by
  rcases place.eq_var_or_item with ⟨x, rfl⟩ | ⟨place, i, rfl⟩
  · rfl
  · obtain ⟨k, p, front, l, back, hnode, rfl⟩ := getAt_item_eq_some.mp h
    rw [hs.resolve_item hnode, hs'.resolve_item hnode]

/-- **Update rule for a block**: with other items in the block at the place, the state has another
node there. -/
theorem store_spec {k : K} {p : Addr} {items items' : List (L × Tree Addr A K L)}
    (hs : Rep s ts temps) (h : getAt ts place = some (.node k p items)) {heap : Heap A K L}
    {rest : List (Addr × Block A K L)}
    (hheap : heap.Holds ((Tree.node k p items').blocks ++ (outsideAt ts place ++ rest))) :
    Rep ⟨heap, s.vars⟩ (setAt ts place (.node k p items')) rest := by
  have href : (Tree.node k p items').ref = (Tree.node k p items).ref := rfl
  obtain ⟨hperm, hrefs⟩ := blocksOf_setAt h href
  rw [← List.append_assoc] at hheap
  exact ⟨hs.vars.trans hrefs.symm, hheap.perm (hperm.symm.append_right _)⟩

/-- **Update rule for a slot**: with the blocks of another tree in place of those of the subtree,
writing the slot makes the state that has the other tree at the place. -/
theorem write_spec (hs : Rep s ts temps) (h : getAt ts place = some u) :
    ∃ loc, s.resolve place = some loc ∧ s.read loc = some u.ref ∧
      ∀ (heap : Heap A K L) (u' : Tree Addr A K L) (rest : List (Addr × Block A K L)),
        heap.Holds (u'.blocks ++ (outsideAt ts place ++ rest)) →
          ∃ s', State.write ⟨heap, s.vars⟩ loc u'.ref = some s' ∧
            Rep s' (setAt ts place u') rest := by
  obtain ⟨loc, hresolve, hread⟩ := hs.resolve_spec h
  refine ⟨loc, hresolve, hread, fun heap u' rest hheap => ?_⟩
  rcases place.eq_var_or_item with ⟨x, rfl⟩ | ⟨place, i, rfl⟩
  · obtain ⟨front, t, back, rfl, hlen, hget⟩ := getAt_eq_some.mp h
    obtain rfl : front.length = x := hlen
    rw [get?_nil] at hget
    obtain rfl := Option.some.inj hget
    rw [State.resolve, State.walk] at hresolve
    rw [outsideAt_split _ _ _ rfl, outside_nil, List.nil_append] at hheap
    have hvars : s.vars.set front.length u'.ref = (front ++ u' :: back).map Tree.ref := by
      have hvar : front.length = (front.map Tree.ref).length := (List.length_map _).symm
      rw [hs.vars, hvar, List.map_append, List.map_append, List.map_cons, List.map_cons, set_split]
    have hlt : front.length < s.vars.length := by
      rw [hs.vars, List.length_map, List.length_append, List.length_cons]
      omega
    rw [← Option.some.inj hresolve, setAt_split _ _ _ rfl, set_nil]
    refine ⟨⟨heap, s.vars.set front.length u'.ref⟩, if_pos hlt, hvars, ?_⟩
    rw [← List.append_assoc] at hheap
    exact hheap.perm ((blocksOf_split _ _ _).symm.append_right _)
  · obtain ⟨k, p, front, l, back, hnode, rfl⟩ := getAt_item_eq_some.mp h
    rw [hs.resolve_item hnode] at hresolve
    have hout := (outsideAt_item hnode).append_right rest
    rw [List.cons_append, List.append_assoc _ (outsideAt ts place)] at hout
    have hold := (hheap.perm (hout.append_left _)).perm List.perm_middle
    have hblock := hold.block_eq List.mem_cons_self
    refine ⟨⟨heap.store p (refs front ++ (l, u'.ref) :: refs back), s.vars⟩, ?_, ?_⟩
    · rw [← Option.some.inj hresolve]
      exact (State.item_spec ⟨heap, s.vars⟩ hblock).2 u'.ref
    · rw [setAt_item hnode]
      refine hs.store_spec hnode ((hold.store _).perm ?_)
      refine List.Perm.trans ?_ ((blocks_node_split k p front l u' back).append_right _).symm
      rw [List.append_assoc u'.blocks, List.cons_append]
      exact List.perm_middle.symm

/-- **Exchange rule**: a tree that was a temporary goes into the slot, and what was there is a
temporary. -/
theorem exchange_spec {u' : Tree Addr A K L} {loc : Loc} (hs : Rep s ts (u'.blocks ++ temps))
    (h : getAt ts place = some u) (hloc : s.resolve place = some loc) :
    ∃ s', s.write loc u'.ref = some s' ∧ Rep s' (setAt ts place u') (u.blocks ++ temps) := by
  obtain ⟨loc', hresolve, -, hwrite⟩ := hs.write_spec h
  obtain rfl : loc' = loc := Option.some.inj (hresolve.symm.trans hloc)
  refine hwrite s.heap u' (u.blocks ++ temps) (hs.holds.perm ?_)
  refine ((blocksOf_perm h).append_right _).trans ?_
  have hfront : (u.blocks ++ outsideAt ts place ++ u'.blocks).Perm
      (u'.blocks ++ (outsideAt ts place ++ u.blocks)) :=
    List.perm_append_comm.trans (List.perm_append_comm.append_left _)
  have hall := hfront.append_right temps
  simpa only [List.append_assoc] using hall

/-- A payload goes into the slot, and what was there is a temporary. -/
theorem write_val_spec {loc : Loc} (hs : Rep s ts temps) (h : getAt ts place = some u)
    (hloc : s.resolve place = some loc) (a : A) :
    ∃ s', s.write loc (.val a) = some s' ∧ Rep s' (setAt ts place (.leaf a)) (u.blocks ++ temps) :=
  have hleaf : Rep s ts ((Tree.leaf a : Tree Addr A K L).blocks ++ temps) := hs
  hleaf.exchange_spec h hloc

/-- A temporary is freed. -/
theorem free_spec (hs : Rep s ts (u.blocks ++ temps)) :
    ∃ heap, s.heap.free u.ref = some heap ∧ Rep ⟨heap, s.vars⟩ ts temps := by
  have hholds : s.heap.Holds (u.blocks ++ (blocksOf ts ++ temps)) := by
    refine hs.holds.perm ?_
    rw [← List.append_assoc, ← List.append_assoc]
    exact List.perm_append_comm.append_right temps
  obtain ⟨heap, hfree, hheap⟩ := Heap.free_spec hholds
  exact ⟨heap, hfree, hs.vars, hheap⟩

/-- **What is written inside of a temporary is lost**: the slot holds something else, and the
variables do not see it. What the slot held can still be freed. -/
theorem lose_spec {w : Tree Addr A K L} {path : List Nat} {k : K} {p : Addr}
    {front : List (L × Tree Addr A K L)} {l : L} {back : List (L × Tree Addr A K L)}
    (hs : Rep s ts (w.blocks ++ temps))
    (h : w.get? path = some (.node k p (front ++ (l, u) :: back))) (r : Ref A K) :
    s.read (.item p front.length) = some u.ref ∧
      ∃ s' lost, s.write (.item p front.length) r = some s' ∧
        Rep s' ts (u.blocks ++ (lost ++ temps)) ∧
        lost.length + u.blocks.length = w.blocks.length := by
  obtain ⟨rest, hw⟩ : ∃ rest, w.blocks.Perm
      ((p, refs front ++ (l, u.ref) :: refs back) :: (u.blocks ++ rest)) := by
    refine ⟨blocksItems front ++ blocksItems back ++ w.outside path, ?_⟩
    refine (blocks_perm h).trans (((blocks_node_split k p front l u back).append_right _).trans ?_)
    rw [List.append_assoc, List.cons_append]
    exact List.perm_middle
  have hholds : s.heap.Holds ((p, refs front ++ (l, u.ref) :: refs back) ::
      (blocksOf ts ++ (u.blocks ++ rest ++ temps))) := by
    refine hs.holds.perm (((hw.append_right temps).append_left _).trans ?_)
    rw [List.cons_append]
    exact List.perm_middle
  obtain ⟨hread, hwrite⟩ := s.item_spec (hholds.block_eq List.mem_cons_self)
  refine ⟨hread, _, (p, refs front ++ (l, r) :: refs back) :: rest, hwrite r, ⟨hs.vars, ?_⟩, ?_⟩
  · refine (hholds.store _).perm (List.perm_middle.symm.trans (List.Perm.append_left _ ?_))
    rw [List.append_assoc, List.cons_append]
    exact List.perm_middle.symm
  · rw [hw.length_eq, List.length_cons, List.length_cons, List.length_append]
    omega

/-- The blocks of the subtree at a place are not among the others. -/
theorem disjoint (hs : Rep s ts temps) (h : getAt ts place = some u) {a : Addr}
    (ha : a ∈ u.blocks.map Prod.fst) : a ∉ (outsideAt ts place ++ temps).map Prod.fst := by
  have hnodup := (hs.holds.perm ((blocksOf_perm h).append_right temps)).nodup
  rw [List.append_assoc, List.map_append, List.nodup_append] at hnodup
  exact fun hout => hnodup.2.2 a ha a hout rfl

/-- A block has one place. -/
theorem place_unique (hs : Rep s ts temps) {p q : Place} {k k' : K} {a : Addr}
    {items items' : List (L × Tree Addr A K L)} (hp : getAt ts p = some (.node k a items))
    (hq : getAt ts q = some (.node k' a items')) : p = q := by
  have hprefix : ∀ {p q : Place} {k k' : K} {items items' : List (L × Tree Addr A K L)},
      getAt ts p = some (.node k a items) → getAt ts q = some (.node k' a items') →
        p.var = q.var ∧ p.path <+: q.path := by
    intro p q k k' items items' hp hq
    by_contra hpq
    have hdisjoint := hs.disjoint hp (address_mem (get?_nil _))
    rw [List.map_append] at hdisjoint
    exact hdisjoint (List.mem_append_left _ (address_mem_outsideAt hp hq hpq))
  obtain ⟨hvar, hpq⟩ := hprefix hp hq
  obtain ⟨-, hqp⟩ := hprefix hq hp
  have hpath := hpq.eq_of_length (Nat.le_antisymm hpq.length_le hqp.length_le)
  exact Place.ext hvar hpath

/-- **Two places resolve to one slot only if they are one place.** -/
theorem resolve_inj (hs : Rep s ts temps) {p q : Place} {u w : Tree Addr A K L} {loc : Loc}
    (hp : getAt ts p = some u) (hq : getAt ts q = some w) (hploc : s.resolve p = some loc)
    (hqloc : s.resolve q = some loc) : p = q := by
  rcases p.eq_var_or_item with ⟨x, rfl⟩ | ⟨p, i, rfl⟩ <;>
    rcases q.eq_var_or_item with ⟨y, rfl⟩ | ⟨q, j, rfl⟩
  · rw [← hploc] at hqloc
    simp only [State.resolve, State.walk, Option.some.injEq, Loc.var.injEq] at hqloc
    rw [hqloc]
  · obtain ⟨k, a, front, l, back, hnode, rfl⟩ := getAt_item_eq_some.mp hq
    rw [hs.resolve_item hnode, ← hploc] at hqloc
    simp [State.resolve, State.walk] at hqloc
  · obtain ⟨k, a, front, l, back, hnode, rfl⟩ := getAt_item_eq_some.mp hp
    rw [hs.resolve_item hnode, ← hqloc] at hploc
    simp [State.resolve, State.walk] at hploc
  · obtain ⟨k, a, front, l, back, hnode, rfl⟩ := getAt_item_eq_some.mp hp
    obtain ⟨k', a', front', l', back', hnode', rfl⟩ := getAt_item_eq_some.mp hq
    rw [hs.resolve_item hnode] at hploc
    rw [hs.resolve_item hnode', ← hploc, Option.some.injEq, Loc.item.injEq] at hqloc
    obtain ⟨rfl, hlen⟩ := hqloc
    rw [hs.place_unique hnode hnode', hlen]

/-- **What is freed with the subtree at `p`**: the slots strictly inside it are gone, and all other
slots hold what they held. -/
theorem read_freed (hs : Rep s ts temps) {p q : Place} {u w : Tree Addr A K L} {loc : Loc}
    {heap : Heap A K L} (hp : getAt ts p = some u) (hq : getAt ts q = some w)
    (hloc : s.resolve q = some loc) (hheap : heap.Holds (outsideAt ts p ++ temps)) :
    State.read ⟨heap, s.vars⟩ loc = if p.Above q then none else some w.ref := by
  rcases q.eq_var_or_item with ⟨y, rfl⟩ | ⟨q, i, rfl⟩
  · -- a variable is inside nothing
    have habove : ¬ p.Above ⟨y, []⟩ := fun h =>
      h.2.2 (Place.ext h.1 (List.prefix_nil.mp h.2.1))
    obtain ⟨t, ht, hget⟩ := Option.bind_eq_some_iff.mp hq
    rw [get?_nil] at hget
    rw [State.resolve, State.walk] at hloc
    rw [if_neg habove, ← Option.some.inj hloc, ← Option.some.inj hget]
    exact hs.read_var ht
  · obtain ⟨k, a, front, l, back, hnode, rfl⟩ := getAt_item_eq_some.mp hq
    rw [hs.resolve_item hnode] at hloc
    rw [← Option.some.inj hloc]
    by_cases hpq : p.var = q.var ∧ p.path <+: q.path
    · -- the block of the slot is one of the subtree
      have habove : p.Above (q.item front.length) := by
        refine ⟨hpq.1, hpq.2.trans (List.prefix_append _ _), fun heq => ?_⟩
        have hlen := hpq.2.length_le
        rw [heq, Place.item, List.length_append, List.length_singleton] at hlen
        omega
      have hgone : heap.block a = none := by
        obtain ⟨hvar, r, hr⟩ := hpq
        rw [getAt, ← hvar, ← hr] at hnode
        obtain ⟨t, ht, hget⟩ := Option.bind_eq_some_iff.mp hnode
        rw [get?_append] at hget
        obtain ⟨u', hu', hget⟩ := Option.bind_eq_some_iff.mp hget
        have hsame : u' = u := by
          rw [getAt, ht, Option.bind_some, hu'] at hp
          exact Option.some.inj hp
        exact hheap.block_eq_none (hs.disjoint hp (address_mem (hsame ▸ hget)))
      rw [if_pos habove, State.read, hgone]
      rfl
    · have habove : ¬ p.Above (q.item front.length) := by
        rintro ⟨hvar, hprefix, hne⟩
        refine hpq ⟨hvar, ?_⟩
        rcases List.prefix_concat_iff.mp hprefix with heq | hprefix
        · exact absurd (Place.ext hvar heq) hne
        · exact hprefix
      obtain ⟨⟨a', b⟩, hmem, ha⟩ := List.mem_map.mp (address_mem_outsideAt hp hnode hpq)
      obtain rfl : a' = a := ha
      have hold : s.read (.item a' front.length) = some w.ref := by
        obtain ⟨loc', hresolve, hread⟩ := hs.resolve_spec hq
        rw [hs.resolve_item hnode] at hresolve
        rwa [← Option.some.inj hresolve] at hread
      have hblock : s.heap.block a' = some b :=
        hs.holds.block_eq (List.mem_append_left _
          ((blocksOf_perm hp).mem_iff.mpr (List.mem_append_right _ hmem)))
      rw [if_neg habove, ← hold, State.read, State.read,
        hheap.block_eq (List.mem_append_left _ hmem), hblock]

/-- A place that is not in the trees designates no slot with contents. -/
theorem read_eq_none (hs : Rep s ts temps) (h : getAt ts place = none) :
    ((s.resolve place).bind fun loc => s.read loc) = none := by
  have hwalk : ∀ {path : List Nat} {t : Tree Addr A K L} {loc : Loc}, t.get? path = none →
      s.read loc = some t.ref → t.blocks ⊆ blocksOf ts ++ temps →
        ((s.walk loc path).bind fun loc => s.read loc) = none := by
    intro path
    induction path with
    | nil => intro t loc hget; rw [get?_nil] at hget; exact absurd hget (Option.some_ne_none _)
    | cons i path ih =>
      intro t loc hget hread hsub
      cases t with
      | leaf a =>
        rw [Tree.ref] at hread
        rw [State.walk, hread]
        rfl
      | node k p items =>
        rw [Tree.ref] at hread
        rw [State.walk, hread]
        rw [blocks, List.cons_subset] at hsub
        have hslot : s.read (.item p i) = (items[i]?).map fun e => e.2.ref := by
          rw [State.read, hs.holds.block_eq hsub.1, refs, Option.bind_eq_bind, Option.bind_some,
            List.getElem?_map]
          cases items[i]? <;> rfl
        cases hi : items[i]? with
        | none =>
          rw [hi, Option.map_none] at hslot
          cases path with
          | nil => exact hslot
          | cons j path =>
            simp only [State.walk, hslot]
            rfl
        | some e =>
          rw [hi, Option.map_some] at hslot
          rw [get?, hi, Option.bind_some] at hget
          refine ih hget hslot fun x hx => hsub.2 ?_
          rw [blocksItems_eq]
          exact List.mem_flatMap.mpr ⟨e, List.mem_of_getElem? hi, hx⟩
  cases hx : ts[place.var]? with
  | none =>
    rw [State.resolve]
    have hread : s.read (.var place.var) = none := by
      rw [State.read, hs.vars, List.getElem?_map, hx, Option.map_none]
    cases place.path with
    | nil => exact hread
    | cons i path =>
      rw [State.walk, hread]
      rfl
  | some t =>
    rw [getAt, hx, Option.bind_some] at h
    exact hwalk h (hs.read_var hx) (hs.blocks_subset hx)

end Rep

end CppExamples.Lib.Owned
