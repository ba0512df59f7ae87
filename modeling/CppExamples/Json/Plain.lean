import CppExamples.Json.Ownership

/-!
# What a `JsonValue` means when parts of it have been moved from

`Plain` is the tree of `Value.lean` with one more case, what a move leaves of an array or an object.
`stepValues` runs the statements of `Ownership.lean` on such values: no heap, no owners, no order of
destruction. It counts the arrays and objects that a program puts out of reach.

On values three things are not defined besides places that do not exist: to look into what has been
moved from, to copy it, and to assign from inside of a value what goes with it: a null, bool,
integer or double (`*this = arg`), or another alternative than that of the value
(`*this = std::move(arg)`).

* `whole_iff`: the values of `Value.lean` are those of which nothing has been moved from.
* `value`: a tree of blocks means a value. `partAt_map`, `map_setAt`: the subtree at a place means
  the part at the place, and replacing the one is replacing the other.
* `length_blocks`: a tree has as many blocks as its value has arrays and objects.
* `lost_of_run`: a program loses something only by a move into a place inside of the source.
-/

namespace CppExamples.Json.Ownership

open Lib Lib.Machine
open Owned (Addr Place Loc Rep getAt setAt blocksOf outsideAt)

variable {D : Type}

/-! ## The same programs on values -/

/-- What a `JsonValue` means, with what has been moved from. -/
inductive Plain (D : Type) where
  | scalar (a : Scalar D)
  | array (arr : List (Plain D))
  | object (obj : List (Bytes × Plain D))
  | movedFrom (k : Kind)

/-- The part at the end of the path. -/
def part : Plain D → List Nat → Option (Plain D)
  | v, [] => some v
  | .array arr, i :: path => arr[i]?.bind fun v => part v path
  | .object obj, i :: path => obj[i]?.bind fun e => part e.2 path
  | _, _ :: _ => none

/-- The value with another part at the end of the path. -/
def withPart : Plain D → List Nat → Plain D → Plain D
  | _, [], w => w
  | .array arr, i :: path, w => .array (arr.modify i fun v => withPart v path w)
  | .object obj, i :: path, w => .object (obj.modify i fun e => (e.1, withPart e.2 path w))
  | v, _ :: _, _ => v

def partAt (vs : List (Plain D)) (place : Place) : Option (Plain D) :=
  vs[place.var]?.bind fun v => part v place.path

def withPartAt (vs : List (Plain D)) (place : Place) (w : Plain D) : List (Plain D) :=
  vs.modify place.var fun v => withPart v place.path w

def Kind.empty : Kind → Plain D
  | .array => .array []
  | .object => .object []

namespace Plain

def index : Plain D → Alternative
  | .scalar a => a.index
  | .array _ => .pointer .array
  | .object _ => .pointer .object
  | .movedFrom k => .pointer k

/-- What a move leaves behind. -/
def afterMove (left : Bytes) : Plain D → Plain D
  | .scalar (.string _) => .scalar (.string left)
  | .scalar a => .scalar a
  | .array _ => .movedFrom .array
  | .object _ => .movedFrom .object
  | .movedFrom k => .movedFrom k

/-- The alternatives that `data = arg` copies without a chance to throw. -/
def isScalar : Plain D → Bool
  | .scalar (.string _) => false
  | .scalar _ => true
  | _ => false

mutual

/-- Nothing in the value has been moved from. -/
def whole : Plain D → Bool
  | .scalar _ => true
  | .array arr => wholeItems arr
  | .object obj => wholeMembers obj
  | .movedFrom _ => false

def wholeItems : List (Plain D) → Bool
  | [] => true
  | v :: arr => whole v && wholeItems arr

def wholeMembers : List (Bytes × Plain D) → Bool
  | [] => true
  | (_, v) :: obj => whole v && wholeMembers obj

end

mutual

/-- The tree of `Value.lean`. -/
def ofJson : JsonValue D → Plain D
  | .null => .scalar .null
  | .bool b => .scalar (.bool b)
  | .longLong i => .scalar (.longLong i)
  | .double d => .scalar (.double d)
  | .string s => .scalar (.string s)
  | .array arr => .array (ofItems arr)
  | .object obj => .object (ofMembers obj)

def ofItems : List (JsonValue D) → List (Plain D)
  | [] => []
  | v :: arr => ofJson v :: ofItems arr

def ofMembers : List (Bytes × JsonValue D) → List (Bytes × Plain D)
  | [] => []
  | (key, v) :: obj => (key, ofJson v) :: ofMembers obj

end

theorem whole_ofJson (w : JsonValue D) : (ofJson w).whole = true := by
  induction w using JsonValue.induct with
  | array arr ih =>
    rw [ofJson, whole]
    induction arr with
    | nil => rfl
    | cons v arr ihs =>
      rw [ofItems, wholeItems, ih v List.mem_cons_self, Bool.true_and]
      exact ihs fun u hu => ih u (List.mem_cons_of_mem v hu)
  | object obj ih =>
    rw [ofJson, whole]
    induction obj with
    | nil => rfl
    | cons e obj ihs =>
      rw [ofMembers, wholeMembers, ih e List.mem_cons_self, Bool.true_and]
      exact ihs fun u hu => ih u (List.mem_cons_of_mem e hu)
  | _ => rfl

mutual

theorem exists_ofJson : ∀ {v : Plain D}, v.whole = true → ∃ w, ofJson w = v
  | .scalar .null, _ => ⟨.null, rfl⟩
  | .scalar (.bool b), _ => ⟨.bool b, rfl⟩
  | .scalar (.longLong i), _ => ⟨.longLong i, rfl⟩
  | .scalar (.double d), _ => ⟨.double d, rfl⟩
  | .scalar (.string s), _ => ⟨.string s, rfl⟩
  | .array arr, h => by
    have hitems : wholeItems arr = true := h
    obtain ⟨ws, rfl⟩ := exists_ofItems hitems
    exact ⟨.array ws, rfl⟩
  | .object obj, h => by
    have hmembers : wholeMembers obj = true := h
    obtain ⟨ms, rfl⟩ := exists_ofMembers hmembers
    exact ⟨.object ms, rfl⟩
  | .movedFrom _, h => absurd h Bool.false_ne_true

theorem exists_ofItems : ∀ {arr : List (Plain D)}, wholeItems arr = true → ∃ ws, ofItems ws = arr
  | [], _ => ⟨[], rfl⟩
  | v :: arr, h => by
    rw [wholeItems, Bool.and_eq_true] at h
    obtain ⟨w, rfl⟩ := exists_ofJson h.1
    obtain ⟨ws, rfl⟩ := exists_ofItems h.2
    exact ⟨w :: ws, rfl⟩

theorem exists_ofMembers : ∀ {obj : List (Bytes × Plain D)}, wholeMembers obj = true →
    ∃ ms, ofMembers ms = obj
  | [], _ => ⟨[], rfl⟩
  | (key, v) :: obj, h => by
    rw [wholeMembers, Bool.and_eq_true] at h
    obtain ⟨w, rfl⟩ := exists_ofJson h.1
    obtain ⟨ms, rfl⟩ := exists_ofMembers h.2
    exact ⟨(key, w) :: ms, rfl⟩

end

/-- **The values of `Value.lean` are those of which nothing has been moved from.** -/
theorem whole_iff {v : Plain D} : v.whole = true ↔ ∃ w, ofJson w = v := by
  refine ⟨exists_ofJson, ?_⟩
  rintro ⟨w, rfl⟩
  exact whole_ofJson w

mutual

/-- The arrays and objects in a value. -/
def containers : Plain D → Nat
  | .array arr => containersItems arr + 1
  | .object obj => containersMembers obj + 1
  | _ => 0

def containersItems : List (Plain D) → Nat
  | [] => 0
  | v :: arr => containers v + containersItems arr

def containersMembers : List (Bytes × Plain D) → Nat
  | [] => 0
  | (_, v) :: obj => containers v + containersMembers obj

end

end Plain

/-- `dst = std::move(src)` on values: the pointer is taken out before it is stored, all other
alternatives are assigned first. -/
def moved (vs : List (Plain D)) (dst src : Place) (w : Plain D) (left : Bytes) : List (Plain D) :=
  match w.index with
  | .pointer _ => withPartAt (withPartAt vs src (w.afterMove left)) dst w
  | _ => withPartAt (withPartAt vs dst w) src (w.afterMove left)

/-- One statement, on the values of the variables. -/
def stepVars (vs : List (Plain D)) : Stmt D → Option (List (Plain D))
  | .declare a => some (vs ++ [.scalar a])
  | .declareContainer k => some (vs ++ [k.empty])
  | .copy src => do
    let w ← partAt vs src
    if w.whole then return vs ++ [w] else none
  | .move src left => do
    let w ← partAt vs src
    return withPartAt vs src (w.afterMove left) ++ [w]
  | .assign dst src => do
    let _ ← partAt vs dst
    let w ← partAt vs src
    if dst = src then return vs
    else if w.whole ∧ ¬ (dst.Above src ∧ w.isScalar) then return withPartAt vs dst w
    else none
  | .moveAssign dst src left => do
    let v ← partAt vs dst
    let w ← partAt vs src
    if dst.Above src ∧ v.index ≠ w.index then none
    else return moved vs dst src w left
  | .pushBack dst src => do
    let v ← partAt vs dst
    let w ← partAt vs src
    match v with
    | .array arr => if w.whole then return withPartAt vs dst (.array (arr ++ [w])) else none
    | .movedFrom .array => none
    | _ => return vs
  | .subscript dst key => do
    let v ← partAt vs dst
    match v with
    | .object obj =>
      if (OrdMap.find? obj key).isSome then return vs
      else return withPartAt vs dst (.object (OrdMap.assign obj key (.scalar .null)))
    | .movedFrom .object => none
    | _ => return vs
  | .endScope => do
    let _ ← vs.getLast?
    return vs.dropLast

/-- `a.get_array()[0] = std::move(a)` and the like: the target is inside the source. -/
def Stmt.intoItself : Stmt D → Bool
  | .moveAssign dst src _ => decide (src.Above dst)
  | _ => false

/-- The arrays and objects that a statement puts out of reach: what is moved into itself, but for
what was at the target. -/
def loses (vs : List (Plain D)) : Stmt D → Nat
  | .moveAssign dst src _ =>
    if src.Above dst then
      (partAt vs src).elim 0 Plain.containers - (partAt vs dst).elim 0 Plain.containers
    else 0
  | _ => 0

/-- The values of the variables, and how many arrays and objects have been lost. -/
structure Values (D : Type) where
  vars : List (Plain D)
  lost : Nat

/-- One statement, on values. -/
def stepValues (σ : Values D) (stmt : Stmt D) : Option (Values D) :=
  (stepVars σ.vars stmt).map fun vs => ⟨vs, σ.lost + loses σ.vars stmt⟩

/-- Before the first statement. -/
def Values.start : Values D := ⟨[], 0⟩

/-! ## Trees of blocks mean values -/

mutual

/-- What a tree of blocks means. -/
def value {P : Type} : Tree P D → Plain D
  | .leaf (.scalar a) => .scalar a
  | .leaf (.nullptr k) => .movedFrom k
  | .node .array _ items => .array ((entries items).map Prod.snd)
  | .node .object _ items => .object (entries items)

def entries {P : Type} : List (Bytes × Tree P D) → List (Bytes × Plain D)
  | [] => []
  | (key, t) :: items => (key, value t) :: entries items

end

theorem entries_eq {P : Type} (items : List (Bytes × Tree P D)) :
    entries items = items.map fun e => (e.1, value e.2) := by
  induction items with
  | nil => rfl
  | cons e items ih => rw [entries, ih, List.map_cons]

theorem value_array {P : Type} (p : P) (items : List (Bytes × Tree P D)) :
    value (.node .array p items) = .array (items.map fun e => value e.2) := by
  rw [value, entries_eq, List.map_map]
  rfl

theorem value_object {P : Type} (p : P) (items : List (Bytes × Tree P D)) :
    value (.node .object p items) = .object (items.map fun e => (e.1, value e.2)) := by
  rw [value, entries_eq]

theorem value_forget {P : Type} (t : Tree P D) : value t.forget = value t := by
  induction t using Owned.Tree.induct with
  | leaf a => cases a <;> rfl
  | node k p items ih =>
    have hmap : (items.map fun e => (e.1, e.2.forget)).map (fun e => (e.1, value e.2)) =
        items.map fun e => (e.1, value e.2) := by
      rw [List.map_map]
      exact List.map_congr_left fun e he => congrArg (e.1, ·) (ih e he)
    rw [Owned.Tree.forget, Owned.Tree.forgetItems_eq]
    cases k with
    | array => rw [value, value, entries_eq, entries_eq, hmap]
    | object => rw [value, value, entries_eq, entries_eq, hmap]

theorem part_nil (v : Plain D) : part v [] = some v := by cases v <;> rfl

theorem part_append (v : Plain D) (path path' : List Nat) :
    part v (path ++ path') = (part v path).bind fun u => part u path' := by
  induction path generalizing v with
  | nil => rw [List.nil_append, part_nil, Option.bind_some]
  | cons i path ih =>
    cases v with
    | scalar a => rfl
    | movedFrom k => rfl
    | array arr =>
      rw [List.cons_append, part, part, Option.bind_assoc]
      exact congrArg _ (funext fun v => ih v)
    | object obj =>
      rw [List.cons_append, part, part, Option.bind_assoc]
      exact congrArg _ (funext fun e => ih e.2)

theorem withPart_nil (v w : Plain D) : withPart v [] w = w := by cases v <;> rfl

theorem part_value {P : Type} (t : Tree P D) (path : List Nat) :
    part (value t) path = (t.get? path).map value := by
  induction path generalizing t with
  | nil => rw [part_nil, Owned.Tree.get?_nil, Option.map_some]
  | cons i path ih =>
    cases t with
    | leaf a => cases a <;> rfl
    | node k p items =>
      cases k with
      | array =>
        rw [value_array, part, Owned.Tree.get?, List.getElem?_map]
        cases items[i]? with
        | none => rfl
        | some e => exact ih e.2
      | object =>
        rw [value_object, part, Owned.Tree.get?, List.getElem?_map]
        cases items[i]? with
        | none => rfl
        | some e => exact ih e.2

theorem map_modify_comm {α β : Type} (f : α → β) {g : α → α} {g' : β → β}
    (h : ∀ x, f (g x) = g' (f x)) (l : List α) (i : Nat) :
    (l.modify i g).map f = (l.map f).modify i g' := by
  induction l generalizing i with
  | nil => simp
  | cons x l ih =>
    cases i with
    | zero => simp [h]
    | succ i => simp [ih]

theorem value_set {P : Type} (t u : Tree P D) (path : List Nat) :
    value (t.set path u) = withPart (value t) path (value u) := by
  induction path generalizing t with
  | nil => rw [withPart_nil, Owned.Tree.set_nil]
  | cons i path ih =>
    cases t with
    | leaf a => cases a <;> rfl
    | node k p items =>
      cases k with
      | array =>
        rw [Owned.Tree.set, value_array, value_array, withPart]
        exact congrArg Plain.array (map_modify_comm _ (fun e => ih e.2) _ _)
      | object =>
        rw [Owned.Tree.set, value_object, value_object, withPart]
        exact congrArg Plain.object
          (map_modify_comm _ (fun e => congrArg (e.1, ·) (ih e.2)) _ _)

theorem partAt_map {P : Type} (ts : List (Tree P D)) (place : Place) :
    partAt (ts.map value) place = (getAt ts place).map value := by
  rw [partAt, getAt, List.getElem?_map]
  cases ts[place.var]? with
  | none => rfl
  | some t => exact part_value t _

theorem map_setAt {P : Type} (ts : List (Tree P D)) (place : Place) (u : Tree P D) :
    (setAt ts place u).map value = withPartAt (ts.map value) place (value u) :=
  map_modify_comm _ (fun t => value_set t u _) _ _

/-! ### What is read off a tree -/

theorem index_value (t : Tree Addr D) : (value t).index = index t.ref := by
  cases t with
  | leaf a => cases a <;> rfl
  | node k p items => cases k <;> rfl

theorem wholeItems_map_snd (obj : List (Bytes × Plain D)) :
    Plain.wholeItems (obj.map Prod.snd) = Plain.wholeMembers obj := by
  induction obj with
  | nil => rfl
  | cons e obj ih => rw [List.map_cons, Plain.wholeItems, Plain.wholeMembers, ih]

/-- A value is whole if all of it can be copied. -/
theorem whole_value {P : Type} (t : Tree P D) : (value t).whole = t.all Payload.copyable := by
  induction t using Owned.Tree.induct with
  | leaf a => cases a <;> rfl
  | node k p items ih =>
    have hitems : Plain.wholeMembers (entries items) =
        Owned.Tree.allItems Payload.copyable items := by
      induction items with
      | nil => rfl
      | cons e items ihs =>
        rw [entries, Plain.wholeMembers, Owned.Tree.allItems, ih e List.mem_cons_self,
          ihs fun x hx => ih x (List.mem_cons_of_mem _ hx)]
    rw [Owned.Tree.all, ← hitems]
    cases k with
    | array => rw [value, Plain.whole, wholeItems_map_snd]
    | object => rw [value, Plain.whole]

theorem containersItems_map_snd (obj : List (Bytes × Plain D)) :
    Plain.containersItems (obj.map Prod.snd) = Plain.containersMembers obj := by
  induction obj with
  | nil => rfl
  | cons e obj ih => rw [List.map_cons, Plain.containersItems, Plain.containersMembers, ih]

/-- As many blocks as containers. -/
theorem length_blocks (t : Tree Addr D) : t.blocks.length = (value t).containers := by
  induction t using Owned.Tree.induct with
  | leaf a => cases a <;> rfl
  | node k p items ih =>
    have hitems : (Owned.Tree.blocksItems items).length =
        Plain.containersMembers (entries items) := by
      induction items with
      | nil => rfl
      | cons e items ihs =>
        rw [Owned.Tree.blocksItems, entries, Plain.containersMembers, List.length_append,
          ih e List.mem_cons_self, ihs fun x hx => ih x (List.mem_cons_of_mem _ hx)]
    rw [Owned.Tree.blocks, List.length_cons, hitems]
    cases k with
    | array => rw [value, Plain.containers, containersItems_map_snd]
    | object => rw [value, Plain.containers]

/-- The payload that a move leaves behind. -/
theorem exists_movedFrom (left : Bytes) (t : Tree Addr D) :
    ∃ a, movedFrom left t.ref = .val a ∧
      value (Owned.Tree.leaf a : Tree Addr D) = (value t).afterMove left := by
  cases t with
  | node k p items => exact ⟨.nullptr k, rfl, by cases k <;> rfl⟩
  | leaf a =>
    cases a with
    | nullptr k => exact ⟨.nullptr k, rfl, rfl⟩
    | scalar a => cases a <;> exact ⟨_, rfl, rfl⟩

/-- What is held in place is a leaf. -/
theorem exists_scalar {t : Tree Addr D} (h : ∀ k, index t.ref ≠ .pointer k) :
    ∃ a, t = .leaf (.scalar a) := by
  cases t with
  | node k p items => exact absurd rfl (h k)
  | leaf a =>
    cases a with
    | nullptr k => exact absurd rfl (h k)
    | scalar a => exact ⟨a, rfl⟩

theorem Scalar.index_ne_pointer (a : Scalar D) (k : Kind) : a.index ≠ .pointer k := by
  cases a <;> exact fun h => Alternative.noConfusion h

theorem afterMove_of_pointer {v : Plain D} {k : Kind} (h : v.index = .pointer k) (left : Bytes) :
    v.afterMove left = .movedFrom k := by
  cases v with
  | scalar a => exact absurd h (a.index_ne_pointer k)
  | array | object | movedFrom => exact congrArg _ (Alternative.pointer.inj h)

/-! ### What is put out of reach -/

theorem containers_le_items {v : Plain D} {arr : List (Plain D)} (h : v ∈ arr) :
    v.containers ≤ Plain.containersItems arr := by
  induction arr with
  | nil => cases h
  | cons w arr ih =>
    rw [Plain.containersItems]
    cases h with
    | head => exact Nat.le_add_right _ _
    | tail _ h => exact (ih h).trans (Nat.le_add_left _ _)

/-- Around a part there is a container for every step of the path to it. -/
theorem containers_part {v u : Plain D} {path : List Nat} (h : part v path = some u) :
    u.containers + path.length ≤ v.containers := by
  induction path generalizing v with
  | nil =>
    rw [part_nil] at h
    obtain rfl := Option.some.inj h
    exact Nat.le_refl _
  | cons i path ih =>
    cases v with
    | scalar a => cases h
    | movedFrom k => cases h
    | array arr =>
      rw [part, Option.bind_eq_some_iff] at h
      obtain ⟨w, hget, hpart⟩ := h
      have hitem := containers_le_items (List.mem_of_getElem? hget)
      rw [Plain.containers, List.length_cons]
      exact Nat.succ_le_succ ((ih hpart).trans hitem)
    | object obj =>
      rw [part, Option.bind_eq_some_iff] at h
      obtain ⟨e, hget, hpart⟩ := h
      have hitem := containers_le_items
        (List.mem_map_of_mem (f := Prod.snd) (List.mem_of_getElem? hget))
      rw [Plain.containers, List.length_cons, ← containersItems_map_snd]
      exact Nat.succ_le_succ ((ih hpart).trans hitem)

theorem containers_lt_of_above {vs : List (Plain D)} {src dst : Place} {v w : Plain D}
    (habove : src.Above dst) (hv : partAt vs dst = some v) (hw : partAt vs src = some w) :
    v.containers < w.containers := by
  obtain ⟨i, path, rfl⟩ := habove.exists_path
  rw [partAt, Option.bind_eq_some_iff] at hv hw
  obtain ⟨u, hu, hw⟩ := hw
  obtain ⟨u', hu', hv⟩ := hv
  obtain rfl := Option.some.inj (hu.symm.trans hu')
  rw [part_append, hw, Option.bind_some] at hv
  have hlt := containers_part hv
  rw [List.length_cons] at hlt
  omega

/-- Only a move into itself loses anything. -/
theorem lost_of_step {σ σ' : Values D} {stmt : Stmt D} (h : stepValues σ stmt = some σ') :
    σ'.lost = 0 ↔ σ.lost = 0 ∧ stmt.intoItself = false := by
  rw [stepValues, Option.map_eq_some_iff] at h
  obtain ⟨vs, hvs, rfl⟩ := h
  rw [Nat.add_eq_zero_iff]
  refine and_congr_right fun _ => ?_
  cases stmt with
  | moveAssign dst src left =>
    rw [stepVars] at hvs
    simp only [Option.bind_eq_bind, Option.bind_eq_some_iff] at hvs
    obtain ⟨v, hv, w, hw, -⟩ := hvs
    rw [loses, Stmt.intoItself, decide_eq_false_iff_not, hv, hw, Option.elim_some,
      Option.elim_some]
    split
    · rename_i habove
      have hlt := containers_lt_of_above habove hv hw
      exact iff_of_false (by omega) (not_not.mpr habove)
    · rename_i habove
      exact iff_of_true rfl habove
  | _ => exact iff_of_true rfl rfl

theorem lost_of_run {σ σ' : Values D} {program : List (Stmt D)}
    (h : run stepValues σ program = some σ') :
    σ'.lost = 0 ↔ σ.lost = 0 ∧ ∀ stmt ∈ program, stmt.intoItself = false := by
  induction program generalizing σ with
  | nil =>
    obtain rfl := Option.some.inj h
    exact (and_iff_left fun stmt hstmt => absurd hstmt List.not_mem_nil).symm
  | cons stmt program ih =>
    obtain ⟨u, hu, hrun⟩ := run_cons_eq_some.mp h
    rw [ih hrun, lost_of_step hu, List.forall_mem_cons, and_assoc]

end CppExamples.Json.Ownership
