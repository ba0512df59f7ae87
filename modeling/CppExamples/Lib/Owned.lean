import Mathlib.Data.List.Perm.Subperm
import Mathlib.Data.List.Nodup
import Mathlib.Data.List.Range

/-!
# Trees of owned blocks

A variable or a slot holds a payload or owns a block on the heap; a block is a row of labelled
slots. A `Tree` is what one owner reaches, its blocks named by address; `forget` leaves the
addresses out. `Holds h bs`: the blocks of `h` are exactly those listed in `bs`, each once, so a
heap that holds the blocks of some trees holds nothing else (nothing has leaked) and no block has
two owners.

* `copyRef`, `freeRef` follow the owners with fuel. `Heap.copy`, `Heap.free` have enough of it:
  `Heap.copy_spec`: a copy stands for the same tree in new blocks, and no old block changes;
  `Heap.free_spec`: freeing an owner takes its blocks off the heap and no others.
* Payloads that are not `ok` cannot be copied. A copy is made exactly if there are none in the tree.
* A block that is gone is not read: `Heap.block` is `none` there.

An address is never given out twice. Nothing can be seen of that: no operation compares or prints
the address of a block that is gone.
-/

namespace CppExamples.Lib.Owned

abbrev Addr := Nat

variable {P A K L : Type}

/-! ## Heaps -/

/-- A payload, or the owner of the block at `p`. -/
inductive Ref (A K : Type) where
  | val (a : A)
  | own (k : K) (p : Addr)
  deriving DecidableEq

/-- The slots of a block. -/
abbrev Block (A K L : Type) := List (L × Ref A K)

/-- The blocks in use. From `next` on no address has been given out. -/
structure Heap (A K L : Type) where
  block : Addr → Option (Block A K L)
  next : Addr

namespace Heap

def empty : Heap A K L := ⟨fun _ => none, 0⟩

/-- A new block; its address is `next`. -/
def alloc (h : Heap A K L) (b : Block A K L) : Heap A K L :=
  ⟨fun p => if p = h.next then some b else h.block p, h.next + 1⟩

/-- Overwrite the block at `p`. -/
def store (h : Heap A K L) (p : Addr) (b : Block A K L) : Heap A K L :=
  ⟨fun q => if q = p then some b else h.block q, h.next⟩

/-- Give the block at `p` back. -/
def release (h : Heap A K L) (p : Addr) : Heap A K L :=
  ⟨fun q => if q = p then none else h.block q, h.next⟩

/-- The blocks of the heap are those of the list. -/
structure Holds (h : Heap A K L) (bs : List (Addr × Block A K L)) : Prop where
  nodup : (bs.map Prod.fst).Nodup
  block_iff : ∀ p b, h.block p = some b ↔ (p, b) ∈ bs
  lt_next : ∀ e ∈ bs, e.1 < h.next

variable {h : Heap A K L} {p : Addr} {b b' : Block A K L} {bs bs' : List (Addr × Block A K L)}

theorem holds_empty : (empty : Heap A K L).Holds [] where
  nodup := List.nodup_nil
  block_iff := fun p b => by simp [empty]
  lt_next := fun e he => absurd he List.not_mem_nil

theorem Holds.perm (hh : h.Holds bs) (hp : bs.Perm bs') : h.Holds bs' where
  nodup := (hp.map Prod.fst).nodup_iff.mp hh.nodup
  block_iff := fun p b => (hh.block_iff p b).trans hp.mem_iff
  lt_next := fun e he => hh.lt_next e (hp.mem_iff.mpr he)

theorem Holds.alloc (hh : h.Holds bs) (b : Block A K L) :
    (h.alloc b).Holds ((h.next, b) :: bs) where
  nodup := by
    rw [List.map_cons, List.nodup_cons]
    refine ⟨fun hmem => ?_, hh.nodup⟩
    obtain ⟨e, he, heq⟩ := List.mem_map.mp hmem
    exact absurd heq (Nat.ne_of_lt (hh.lt_next e he))
  block_iff := by
    intro p c
    by_cases hp : p = h.next
    · subst hp
      have hnew : (h.next, c) ∉ bs := fun he => Nat.lt_irrefl _ (hh.lt_next _ he)
      simp [Heap.alloc, hnew, eq_comm]
    · simp [Heap.alloc, hp, hh.block_iff]
  lt_next := by
    intro e he
    rcases List.mem_cons.mp he with rfl | he
    · exact Nat.lt_succ_self _
    · exact Nat.lt_succ_of_lt (hh.lt_next e he)

theorem Holds.not_mem_cons (hh : h.Holds ((p, b) :: bs)) (c : Block A K L) : (p, c) ∉ bs :=
  fun hmem => (List.nodup_cons.mp hh.nodup).1 (List.mem_map.mpr ⟨(p, c), hmem, rfl⟩)

theorem Holds.store (hh : h.Holds ((p, b) :: bs)) (b' : Block A K L) :
    (h.store p b').Holds ((p, b') :: bs) where
  nodup := hh.nodup
  block_iff := by
    intro q c
    by_cases hq : q = p
    · subst hq
      simp [Heap.store, hh.not_mem_cons c, eq_comm]
    · simp [Heap.store, hq, hh.block_iff]
  lt_next := by
    intro e he
    rcases List.mem_cons.mp he with rfl | he
    · exact hh.lt_next (p, b) List.mem_cons_self
    · exact hh.lt_next e (List.mem_cons_of_mem _ he)

theorem Holds.release (hh : h.Holds ((p, b) :: bs)) : (h.release p).Holds bs where
  nodup := (List.nodup_cons.mp hh.nodup).2
  block_iff := by
    intro q c
    by_cases hq : q = p
    · subst hq
      simp [Heap.release, hh.not_mem_cons c]
    · simp [Heap.release, hq, hh.block_iff]
  lt_next := fun e he => hh.lt_next e (List.mem_cons_of_mem _ he)

theorem Holds.block_eq (hh : h.Holds bs) (hb : (p, b) ∈ bs) : h.block p = some b :=
  (hh.block_iff p b).mpr hb

/-- An address that is not listed is not in use. -/
theorem Holds.block_eq_none (hh : h.Holds bs) (hp : p ∉ bs.map Prod.fst) : h.block p = none := by
  cases hb : h.block p with
  | none => rfl
  | some b => exact absurd (List.mem_map.mpr ⟨(p, b), (hh.block_iff p b).mp hb, rfl⟩) hp

/-- As many addresses have been given out as there are blocks, or more. -/
theorem Holds.length_le_next (hh : h.Holds bs) : bs.length ≤ h.next := by
  have hsub : bs.map Prod.fst ⊆ List.range h.next := by
    intro p hp
    obtain ⟨e, he, rfl⟩ := List.mem_map.mp hp
    exact List.mem_range.mpr (hh.lt_next e he)
  have hle := (List.subperm_of_subset hh.nodup hsub).length_le
  rwa [List.length_map, List.length_range] at hle

end Heap

/-! ## Trees -/

/-- What an owner reaches. `P` names the blocks: addresses, or nothing (`Unit`). -/
inductive Tree (P A K L : Type) where
  | leaf (a : A)
  | node (k : K) (p : P) (items : List (L × Tree P A K L))

namespace Tree

/-- Induction over a tree: the items of a block come first. -/
theorem induct {Q : Tree P A K L → Prop} (leaf : ∀ a, Q (.leaf a))
    (node : ∀ k p items, (∀ e ∈ items, Q e.2) → Q (.node k p items)) (t : Tree P A K L) : Q t :=
  @Tree.rec P A K L Q (fun items => ∀ e ∈ items, Q e.2) (fun e => Q e.2) leaf node
    (fun _ h => absurd h List.not_mem_nil)
    (fun _ _ he hes => List.forall_mem_cons.mpr ⟨he, hes⟩) (fun _ _ ht => ht) t

/-- What the owner of the tree holds. -/
def ref : Tree Addr A K L → Ref A K
  | .leaf a => .val a
  | .node k p _ => .own k p

/-- The slots of a block whose items are trees. -/
def refs (items : List (L × Tree Addr A K L)) : Block A K L := items.map fun e => (e.1, e.2.ref)

mutual

/-- The blocks of the tree. -/
def blocks : Tree Addr A K L → List (Addr × Block A K L)
  | .leaf _ => []
  | .node _ p items => (p, refs items) :: blocksItems items

def blocksItems : List (L × Tree Addr A K L) → List (Addr × Block A K L)
  | [] => []
  | (_, t) :: items => blocks t ++ blocksItems items

end

mutual

/-- The tree without its addresses. -/
def forget : Tree P A K L → Tree Unit A K L
  | .leaf a => .leaf a
  | .node k _ items => .node k () (forgetItems items)

def forgetItems : List (L × Tree P A K L) → List (L × Tree Unit A K L)
  | [] => []
  | (l, t) :: items => (l, forget t) :: forgetItems items

end

mutual

/-- Every payload is `ok`. -/
def all (ok : A → Bool) : Tree P A K L → Bool
  | .leaf a => ok a
  | .node _ _ items => allItems ok items

def allItems (ok : A → Bool) : List (L × Tree P A K L) → Bool
  | [] => true
  | (_, t) :: items => all ok t && allItems ok items

end

mutual

/-- The number of blocks on the longest way down. -/
def height : Tree P A K L → Nat
  | .leaf _ => 0
  | .node _ _ items => heightItems items + 1

def heightItems : List (L × Tree P A K L) → Nat
  | [] => 0
  | (_, t) :: items => max (height t) (heightItems items)

end

theorem blocksItems_eq (items : List (L × Tree Addr A K L)) :
    blocksItems items = items.flatMap fun e => e.2.blocks := by
  induction items with
  | nil => rfl
  | cons e items ih => rw [blocksItems, ih, List.flatMap_cons]

theorem forgetItems_eq (items : List (L × Tree P A K L)) :
    forgetItems items = items.map fun e => (e.1, e.2.forget) := by
  induction items with
  | nil => rfl
  | cons e items ih => rw [forgetItems, ih, List.map_cons]

theorem height_le_heightItems {items : List (L × Tree P A K L)} {e : L × Tree P A K L}
    (h : e ∈ items) : e.2.height ≤ heightItems items := by
  induction items with
  | nil => exact absurd h List.not_mem_nil
  | cons x items ih =>
    rw [heightItems]
    rcases List.mem_cons.mp h with rfl | h
    · exact Nat.le_max_left _ _
    · exact (ih h).trans (Nat.le_max_right _ _)

theorem height_le_length_blocks (t : Tree Addr A K L) : t.height ≤ t.blocks.length := by
  induction t using induct with
  | leaf a => exact Nat.le_refl _
  | node k p items ih =>
    have hitems : heightItems items ≤ (blocksItems items).length := by
      induction items with
      | nil => exact Nat.le_refl _
      | cons e items ihs =>
        rw [heightItems, blocksItems, List.length_append]
        have hhead := ih e List.mem_cons_self
        have htail := ihs fun x hx => ih x (List.mem_cons_of_mem _ hx)
        omega
    rw [height, blocks, List.length_cons]
    exact Nat.succ_le_succ hitems

end Tree

/-! ## Copying -/

/-- Copy the slots of a block, in order. -/
def copyItems (copy : Heap A K L → Ref A K → Option (Heap A K L × Ref A K)) :
    Heap A K L → Block A K L → Option (Heap A K L × Block A K L)
  | h, [] => some (h, [])
  | h, (l, r) :: items => do
    let (h, r') ← copy h r
    let (h, items') ← copyItems copy h items
    return (h, (l, r') :: items')

/-- Copy what `r` holds: a payload as it is, an owned block into a new one, item by item. -/
def copyRef (ok : A → Bool) : Nat → Heap A K L → Ref A K → Option (Heap A K L × Ref A K)
  | _, h, .val a => if ok a then some (h, .val a) else none
  | 0, _, .own _ _ => none
  | fuel + 1, h, .own k p => do
    let items ← h.block p
    let (h, items') ← copyItems (copyRef ok fuel) h items
    return (h.alloc items', .own k h.next)

/-- Give back the block that `r` owns, its items first. -/
def freeRef : Nat → Heap A K L → Ref A K → Option (Heap A K L)
  | _, h, .val _ => some h
  | 0, _, .own _ _ => none
  | fuel + 1, h, .own _ p => do
    let items ← h.block p
    let h ← items.foldlM (fun h e => freeRef fuel h e.2) h
    return h.release p

/-- `h.next` is fuel enough: no way down passes more blocks. -/
def Heap.copy (ok : A → Bool) (h : Heap A K L) (r : Ref A K) : Option (Heap A K L × Ref A K) :=
  copyRef ok h.next h r

def Heap.free (h : Heap A K L) (r : Ref A K) : Option (Heap A K L) := freeRef h.next h r

variable {h : Heap A K L} {bs : List (Addr × Block A K L)} {ok : A → Bool}

open CppExamples.Lib.Owned.Tree

/-- What `copy` does with the owner of `t`: a copy in new blocks, or nothing, if some payload
cannot be copied. -/
def Copies (ok : A → Bool) (copy : Heap A K L → Ref A K → Option (Heap A K L × Ref A K))
    (t : Tree Addr A K L) : Prop :=
  ∀ {h : Heap A K L} {bs : List (Addr × Block A K L)}, h.Holds bs → t.blocks ⊆ bs →
    if t.all ok then ∃ (h' : Heap A K L) (t' : Tree Addr A K L),
      copy h t.ref = some (h', t'.ref) ∧ h'.Holds (t'.blocks ++ bs) ∧ t'.forget = t.forget
    else copy h t.ref = none

theorem copyItems_spec {copy : Heap A K L → Ref A K → Option (Heap A K L × Ref A K)}
    {items : List (L × Tree Addr A K L)} (hcopy : ∀ e ∈ items, Copies ok copy e.2)
    {h : Heap A K L} {bs : List (Addr × Block A K L)} (hh : h.Holds bs)
    (hsub : blocksItems items ⊆ bs) :
    if allItems ok items then ∃ (h' : Heap A K L) (items' : List (L × Tree Addr A K L)),
      copyItems copy h (refs items) = some (h', refs items') ∧
        h'.Holds (blocksItems items' ++ bs) ∧ forgetItems items' = forgetItems items
    else copyItems copy h (refs items) = none := by
  induction items generalizing h bs with
  | nil => exact ⟨_, [], rfl, hh, rfl⟩
  | cons e items ih =>
    obtain ⟨l, t⟩ := e
    rw [blocksItems, List.append_subset] at hsub
    have hfirst := hcopy (l, t) List.mem_cons_self hh hsub.1
    rw [allItems]
    simp only [refs, List.map_cons] at ih ⊢
    cases hall : t.all ok with
    | false =>
      rw [hall, if_neg Bool.false_ne_true] at hfirst
      rw [Bool.false_and, if_neg Bool.false_ne_true, copyItems, hfirst]
      rfl
    | true =>
      rw [hall, if_pos rfl] at hfirst
      obtain ⟨h₁, t', hcopied, hh₁, hforget⟩ := hfirst
      have hrest := ih (fun x hx => hcopy x (List.mem_cons_of_mem _ hx)) hh₁
        (List.subset_append_of_subset_right _ hsub.2)
      rw [Bool.true_and]
      by_cases halls : allItems ok items = true
      · rw [if_pos halls] at hrest ⊢
        obtain ⟨h₂, items', hcopies, hh₂, hforgets⟩ := hrest
        refine ⟨h₂, (l, t') :: items', ?_, hh₂.perm ?_, ?_⟩
        · simp only [List.map_cons, copyItems, hcopied, hcopies, Option.bind_eq_bind,
            Option.bind_some, Option.pure_def]
        · rw [blocksItems, List.append_assoc, ← List.append_assoc, ← List.append_assoc]
          exact List.perm_append_comm.append_right bs
        · rw [forgetItems, forgetItems, hforget, hforgets]
      · rw [if_neg halls] at hrest ⊢
        simp only [copyItems, hcopied, hrest, Option.bind_eq_bind, Option.bind_some,
          Option.bind_none]

theorem copyRef_spec (t : Tree Addr A K L) {fuel : Nat} (hfuel : t.height ≤ fuel) :
    Copies ok (copyRef ok fuel) t := by
  induction t using Tree.induct generalizing fuel with
  | leaf a =>
    intro h bs hh _
    have hcopy : copyRef ok fuel h (Tree.leaf a : Tree Addr A K L).ref =
        if ok a then some (h, .val a) else none := by cases fuel <;> rfl
    rw [hcopy, all]
    split
    · exact ⟨h, .leaf a, rfl, hh, rfl⟩
    · rfl
  | node k p items ih =>
    intro h bs hh hsub
    cases fuel with
    | zero => exact absurd hfuel (Nat.not_succ_le_zero _)
    | succ fuel =>
      rw [height, Nat.succ_le_succ_iff] at hfuel
      rw [blocks, List.cons_subset] at hsub
      have hitems : ∀ e ∈ items, Copies ok (copyRef ok fuel) e.2 := fun e he =>
        ih e he ((height_le_heightItems he).trans hfuel)
      have hcopies := copyItems_spec hitems hh hsub.2
      rw [all]
      by_cases hall : allItems ok items = true
      · rw [if_pos hall] at hcopies ⊢
        obtain ⟨h', items', hcopies, hh', hforgets⟩ := hcopies
        refine ⟨h'.alloc (refs items'), .node k h'.next items', ?_, hh'.alloc _, ?_⟩
        · simp only [Tree.ref, copyRef, hh.block_eq hsub.1, hcopies, Option.bind_eq_bind,
            Option.bind_some, Option.pure_def]
        · rw [forget, forget, hforgets]
      · rw [if_neg hall] at hcopies ⊢
        simp only [Tree.ref, copyRef, hh.block_eq hsub.1, hcopies, Option.bind_eq_bind,
          Option.bind_some, Option.bind_none]

theorem freeRef_spec (t : Tree Addr A K L) : ∀ {fuel : Nat} {h : Heap A K L}
    {bs : List (Addr × Block A K L)}, h.Holds (t.blocks ++ bs) → t.height ≤ fuel →
    ∃ h', freeRef fuel h t.ref = some h' ∧ h'.Holds bs := by
  induction t using Tree.induct with
  | leaf a =>
    intro fuel h bs hh _
    exact ⟨h, by cases fuel <;> rfl, hh⟩
  | node k p items ih =>
    intro fuel h bs hh hfuel
    cases fuel with
    | zero => exact absurd hfuel (Nat.not_succ_le_zero _)
    | succ fuel =>
      have hitems : ∀ {h : Heap A K L} {bs : List (Addr × Block A K L)},
          h.Holds (blocksItems items ++ bs) → heightItems items ≤ fuel →
          ∃ h', (refs items).foldlM (fun h e => freeRef fuel h e.2) h = some h' ∧ h'.Holds bs := by
        clear hfuel hh
        induction items with
        | nil => exact fun hh _ => ⟨_, rfl, hh⟩
        | cons e items ihs =>
          obtain ⟨l, t⟩ := e
          intro h bs hh hfuel
          rw [blocksItems, List.append_assoc] at hh
          rw [heightItems] at hfuel
          obtain ⟨h₁, hfree, hh₁⟩ :=
            ih (l, t) List.mem_cons_self hh ((Nat.le_max_left _ _).trans hfuel)
          obtain ⟨h₂, hfrees, hh₂⟩ :=
            ihs (fun x hx => ih x (List.mem_cons_of_mem _ hx)) hh₁
              ((Nat.le_max_right _ _).trans hfuel)
          refine ⟨h₂, ?_, hh₂⟩
          simp only [refs, List.map_cons] at hfrees ⊢
          simp only [List.foldlM_cons, hfree, hfrees, Option.bind_eq_bind, Option.bind_some]
      rw [blocks, List.cons_append] at hh
      obtain ⟨h', hfrees, hh'⟩ := hitems (hh.perm List.perm_middle.symm)
        (Nat.le_of_succ_le_succ hfuel)
      refine ⟨h'.release p, ?_, hh'.release⟩
      simp only [Tree.ref, freeRef, hh.block_eq List.mem_cons_self, hfrees, Option.bind_eq_bind,
        Option.bind_some, Option.pure_def]

theorem Heap.Holds.height_le {t : Tree Addr A K L} (hh : h.Holds (t.blocks ++ bs)) :
    t.height ≤ h.next := by
  have hle := hh.length_le_next
  have hheight := t.height_le_length_blocks
  rw [List.length_append] at hle
  omega

/-- **A copy stands for the same tree, in new blocks**, if every payload can be copied. -/
theorem Heap.copy_spec (ok : A → Bool) {t : Tree Addr A K L} (hh : h.Holds (t.blocks ++ bs)) :
    if t.all ok then ∃ (h' : Heap A K L) (t' : Tree Addr A K L),
      h.copy ok t.ref = some (h', t'.ref) ∧ h'.Holds (t'.blocks ++ (t.blocks ++ bs)) ∧
        t'.forget = t.forget
    else h.copy ok t.ref = none :=
  copyRef_spec t hh.height_le hh (List.subset_append_left _ _)

/-- **Freeing an owner takes its blocks off the heap, and no others.** -/
theorem Heap.free_spec {t : Tree Addr A K L} (hh : h.Holds (t.blocks ++ bs)) :
    ∃ h', h.free t.ref = some h' ∧ h'.Holds bs := freeRef_spec t hh hh.height_le

end CppExamples.Lib.Owned
