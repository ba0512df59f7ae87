import CppExamples.Lib.Loop

/-!
# The network of `cjunk/practice/perceptron.cc`

`Network::run` gives each layer what the layer before it returned, and the first layer an empty
vector: the argument `x` is not read. `Perceptron::run` takes as many products as its argument has
elements, so the weights of the first layer are not read either, and a weight that is missing in a
later layer is read outside its vector, which has no result here. `set_weights` takes weights of any
lengths.

The operations on `double` are parameters, and the weights that a new network draws are inputs. An
access outside a vector and a counter beyond `INT_MAX` have no result.

* `Network.exists_run_iff`: a network whose vectors have at most `INT_MAX` elements runs if and only
  if every layer but the first has a weight for each perceptron of the layer before it (`Fits`).
* `run_of_setWeights`: a network that is constructed and given weights runs if and only if the rows
  behind those of the first layer are long enough; what it returns depends on no input and on no
  weight of the first layer.
-/

namespace CppExamples.Practice.ML

open Lib Lib.Loop

/-- The operations on `double`. -/
structure Arithmetic (D : Type) where
  zero : D
  one : D
  add : D → D → D
  mul : D → D → D
  div : D → D → D
  neg : D → D
  exp : D → D

structure Perceptron (D : Type) where
  weights : List D
  bias : D

structure Layer (D : Type) where
  perceptrons : List (Perceptron D)

structure Network (D : Type) where
  layers : List (Layer D)

section Code

variable {D : Type} (A : Arithmetic D)

def sigmoid (x : D) : D := A.div A.one (A.add A.one (A.exp (A.neg x)))

/-- A new perceptron, with the weights that are drawn. -/
def Perceptron.make (inputs : Nat) (bias : D) (dis : Nat → D) : Perceptron D :=
  ⟨(List.range inputs).map dis, bias⟩

def Perceptron.run (p : Perceptron D) (x : List D) : Option D :=
  (forRange 0 x.length (fun i sum =>
    x[i]?.bind fun a => p.weights[i]?.map fun w => A.add sum (A.mul a w)) A.zero).map fun sum =>
  sigmoid A (A.add sum p.bias)

def Perceptron.setWeights (p : Perceptron D) (w : List D) : Perceptron D := { p with weights := w }

def Layer.make (inputs outputs : Nat) (dis : Nat → Nat → D) : Layer D :=
  ⟨(List.range outputs).map fun i => Perceptron.make inputs A.one (dis i)⟩

def Layer.run (l : Layer D) (x : List D) : Option (List D) :=
  forRange 0 l.perceptrons.length (fun i output =>
    l.perceptrons[i]?.bind fun p => (p.run A x).map fun y => output ++ [y]) []

def Layer.setWeights (l : Layer D) (w : List (List D)) : Option (Layer D) :=
  (forRange 0 l.perceptrons.length (fun i perceptrons =>
    perceptrons[i]?.bind fun p => (w[i]?.map p.setWeights).bind (store perceptrons i))
    l.perceptrons).map Layer.mk

def Network.make (inputs outputs hidden : Nat) (dis : Nat → Nat → Nat → D) : Network D :=
  ⟨(List.range hidden).map (fun i => Layer.make A inputs inputs (dis i)) ++
    [Layer.make A inputs outputs (dis hidden)]⟩

/-- `x` is not used. -/
def Network.run (n : Network D) (_x : List D) : Option (List D) :=
  forRange 0 n.layers.length (fun i output => n.layers[i]?.bind fun l => l.run A output) []

def Network.setWeights (n : Network D) (w : List (List (List D))) : Option (Network D) :=
  (forRange 0 n.layers.length (fun i layers =>
    layers[i]?.bind fun l => (w[i]?.bind l.setWeights).bind (store layers i)) n.layers).map Network.mk

end Code

variable {D : Type} {A : Arithmetic D}

/-! ## Running -/

/-- A perceptron needs a weight for each input. -/
theorem Perceptron.exists_run_iff (p : Perceptron D) {x : List D}
    (hx : (x.length : Int) ≤ CInt.intMax) :
    (∃ y, p.run A x = some y) ↔ x.length ≤ p.weights.length := by
  simp only [Perceptron.run, Option.map_eq_some_iff]
  constructor
  · rintro ⟨_, sum, hsum, -⟩
    refine forRange_invariant (fun i _ => i ≤ p.weights.length) (Nat.zero_le _) ?_ (Nat.zero_le _) hsum
    intro i s s' _ _ hbody
    simp only [Option.bind_eq_some_iff, Option.map_eq_some_iff] at hbody
    obtain ⟨a, -, w, hw, -⟩ := hbody
    exact (List.getElem?_eq_some_iff.mp hw).1
  · intro hlength
    have hstep : ∀ i (s : D), i < x.length → True → ∃ s',
        (x[i]?.bind fun a => p.weights[i]?.map fun w => A.add s (A.mul a w)) = some s' ∧ True := by
      intro i s hi _
      rw [List.getElem?_eq_getElem hi, List.getElem?_eq_getElem (Nat.lt_of_lt_of_le hi hlength)]
      exact ⟨_, rfl, trivial⟩
    obtain ⟨sum, hsum, -⟩ :=
      exists_forRange (fun _ _ => True) (Nat.zero_le x.length) hx hstep (s := A.zero) trivial
    exact ⟨_, sum, hsum, rfl⟩

theorem Layer.run_eq_mapM {l : Layer D} (hl : (l.perceptrons.length : Int) ≤ CInt.intMax)
    (x : List D) : l.run A x = l.perceptrons.mapM fun p => p.run A x := by
  have hloop := forRange_eq_foldlM
    (fun output (p : Perceptron D) => (p.run A x).map fun y => output ++ [y]) hl []
  rw [foldlM_push] at hloop
  rw [Layer.run, hloop]
  simp

/-- A layer needs a weight for each input in each of its perceptrons. -/
theorem Layer.exists_run_iff {l : Layer D} (hl : (l.perceptrons.length : Int) ≤ CInt.intMax)
    {x : List D} (hx : (x.length : Int) ≤ CInt.intMax) :
    (∃ y, l.run A x = some y) ↔ ∀ p ∈ l.perceptrons, x.length ≤ p.weights.length := by
  rw [Layer.run_eq_mapM hl, exists_mapM_iff]
  exact forall₂_congr fun p _ => p.exists_run_iff hx

theorem Layer.length_of_run {l : Layer D} (hl : (l.perceptrons.length : Int) ≤ CInt.intMax)
    {x y : List D} (h : l.run A x = some y) : y.length = l.perceptrons.length := by
  rw [Layer.run_eq_mapM hl] at h
  exact length_of_mapM h

/-- Without inputs a perceptron returns what its bias makes. -/
theorem Layer.run_nil {l : Layer D} (hl : (l.perceptrons.length : Int) ≤ CInt.intMax) :
    l.run A [] = some (l.perceptrons.map fun p => sigmoid A (A.add A.zero p.bias)) := by
  rw [Layer.run_eq_mapM hl]
  generalize l.perceptrons = perceptrons
  induction perceptrons with
  | nil => rfl
  | cons p perceptrons ih =>
    rw [List.mapM_cons, ih]
    rfl

/-- Each layer has the weights for `n` inputs and returns the inputs of the next one. -/
def Fits : Nat → List (Layer D) → Prop
  | _, [] => True
  | n, l :: layers => (∀ p ∈ l.perceptrons, n ≤ p.weights.length) ∧ Fits l.perceptrons.length layers

/-- `Fits` looks at neighbours. -/
theorem fits_iff {n : Nat} {layers : List (Layer D)} : Fits n layers ↔
    (∀ l, layers[0]? = some l → ∀ p ∈ l.perceptrons, n ≤ p.weights.length) ∧
      ∀ k l l', layers[k]? = some l → layers[k + 1]? = some l' → ∀ p ∈ l'.perceptrons,
        l.perceptrons.length ≤ p.weights.length := by
  induction layers generalizing n with
  | nil => simp [Fits]
  | cons l layers ih =>
    rw [Fits, ih]
    constructor
    · rintro ⟨hfirst, hsecond, hrest⟩
      refine ⟨fun l' hl' => (Option.some.inj hl') ▸ hfirst, fun k l₁ l₂ h₁ h₂ => ?_⟩
      cases k with
      | zero => exact (Option.some.inj h₁) ▸ hsecond l₂ h₂
      | succ k => exact hrest k l₁ l₂ h₁ h₂
    · rintro ⟨hfirst, hrest⟩
      exact ⟨hfirst l rfl, fun l' hl' => hrest 0 l l' rfl hl', fun k => hrest (k + 1)⟩

theorem exists_foldlM_iff {layers : List (Layer D)}
    (hlayers : ∀ l ∈ layers, (l.perceptrons.length : Int) ≤ CInt.intMax) {x : List D}
    (hx : (x.length : Int) ≤ CInt.intMax) :
    (∃ y, layers.foldlM (fun output l => l.run A output) x = some y) ↔ Fits x.length layers := by
  induction layers generalizing x with
  | nil => simp [Fits]
  | cons l layers ih =>
    rw [List.forall_mem_cons] at hlayers
    rw [Fits, ← Layer.exists_run_iff (A := A) hlayers.1 hx]
    simp only [List.foldlM_cons, Option.bind_eq_bind, Option.bind_eq_some_iff]
    constructor
    · rintro ⟨y, output, houtput, hy⟩
      have hlength := Layer.length_of_run hlayers.1 houtput
      rw [← hlength] at hlayers ⊢
      exact ⟨⟨output, houtput⟩, (ih hlayers.2 hlayers.1).mp ⟨y, hy⟩⟩
    · rintro ⟨⟨output, houtput⟩, hfits⟩
      rw [← Layer.length_of_run hlayers.1 houtput] at hfits hlayers
      obtain ⟨y, hy⟩ := (ih hlayers.2 hlayers.1).mpr hfits
      exact ⟨y, output, houtput, hy⟩

/-- The vectors of a network have at most `INT_MAX` elements. -/
structure Network.Sized (n : Network D) : Prop where
  layers : (n.layers.length : Int) ≤ CInt.intMax
  perceptrons : ∀ l ∈ n.layers, (l.perceptrons.length : Int) ≤ CInt.intMax

theorem Network.run_eq_foldlM {n : Network D} (hn : n.Sized) (x : List D) :
    n.run A x = n.layers.foldlM (fun output l => l.run A output) [] :=
  forRange_eq_foldlM (fun output (l : Layer D) => l.run A output) hn.layers []

/-- **When a network runs.** -/
theorem Network.exists_run_iff {n : Network D} (hn : n.Sized) (x : List D) :
    (∃ y, n.run A x = some y) ↔ Fits 0 n.layers := by
  rw [Network.run_eq_foldlM hn]
  have hnone : (([] : List D).length : Int) ≤ CInt.intMax := by simp [CInt.intMax]
  exact exists_foldlM_iff hn.perceptrons hnone

/-- Networks whose layers differ in the weights of the first one only return the same. -/
theorem Network.run_congr {n n' : Network D} (hn : n.Sized) (hn' : n'.Sized)
    (hfirst : (n.layers[0]?.map fun l => l.perceptrons.map Perceptron.bias) =
      n'.layers[0]?.map fun l => l.perceptrons.map Perceptron.bias)
    (hrest : n.layers.drop 1 = n'.layers.drop 1) (x x' : List D) : n.run A x = n'.run A x' := by
  rw [Network.run_eq_foldlM hn, Network.run_eq_foldlM hn']
  have hsized := hn.perceptrons
  have hsized' := hn'.perceptrons
  revert hfirst hrest hsized hsized'
  generalize n.layers = layers, n'.layers = layers'
  intro hfirst hrest hsized hsized'
  match layers, layers' with
  | [], [] => rfl
  | [], l' :: _ => simp at hfirst
  | l :: _, [] => simp at hfirst
  | l :: rest, l' :: rest' =>
    obtain rfl : rest = rest' := hrest
    have hbias : l.perceptrons.map Perceptron.bias = l'.perceptrons.map Perceptron.bias := by
      simpa using hfirst
    have hoff : ∀ ps : List (Perceptron D), (ps.map fun p => sigmoid A (A.add A.zero p.bias)) =
        (ps.map Perceptron.bias).map fun b => sigmoid A (A.add A.zero b) := by
      intro ps
      rw [List.map_map]
      rfl
    rw [List.foldlM_cons, List.foldlM_cons, Layer.run_nil (hsized l List.mem_cons_self),
      Layer.run_nil (hsized' l' List.mem_cons_self), hoff, hoff, hbias]

/-! ## Given weights -/

/-- Each perceptron of a layer gets a row. -/
theorem Layer.setWeights_eq_some {l l' : Layer D} {w : List (List D)}
    (h : l.setWeights w = some l') : l'.perceptrons.length = l.perceptrons.length ∧
      ∀ j : Nat, l'.perceptrons[j]? = l.perceptrons[j]?.bind fun p => w[j]?.map p.setWeights := by
  obtain ⟨perceptrons, hloop, rfl⟩ := Option.map_eq_some_iff.mp h
  exact getElem?_forRange_store (g := fun j (p : Perceptron D) => w[j]?.map p.setWeights) hloop

/-- Each layer of a network gets its weights. -/
theorem Network.setWeights_eq_some {n n' : Network D} {w : List (List (List D))}
    (h : n.setWeights w = some n') : n'.layers.length = n.layers.length ∧
      ∀ k : Nat, n'.layers[k]? = n.layers[k]?.bind fun l => w[k]?.bind l.setWeights := by
  obtain ⟨layers, hloop, rfl⟩ := Option.map_eq_some_iff.mp h
  exact getElem?_forRange_store (g := fun k (l : Layer D) => w[k]?.bind l.setWeights) hloop

section Constructed

variable {inputs outputs hidden : Nat} {dis : Nat → Nat → Nat → D}

/-- The perceptrons in layer `k`. -/
def width (inputs outputs hidden k : Nat) : Nat := if k = hidden then outputs else inputs

/-- A layer of a new network: its width, and biases of 1. -/
theorem Network.layer_of_make {k : Nat} {l : Layer D}
    (hl : (Network.make A inputs outputs hidden dis).layers[k]? = some l) :
    l.perceptrons.length = width inputs outputs hidden k ∧ ∀ p ∈ l.perceptrons, p.bias = A.one := by
  have hbias : ∀ inputs outputs dis, ∀ p ∈ (Layer.make A inputs outputs dis).perceptrons,
      p.bias = A.one := by
    intro inputs outputs dis p hp
    obtain ⟨i, -, rfl⟩ := List.mem_map.mp hp
    rfl
  simp only [Network.make, List.getElem?_append, List.length_map, List.length_range] at hl
  split at hl
  · rename_i hk
    rw [List.getElem?_map, List.getElem?_range hk] at hl
    cases hl
    exact ⟨by simp [Layer.make, width, Nat.ne_of_lt hk], hbias _ _ _⟩
  · rw [List.getElem?_singleton] at hl
    split at hl
    · rename_i hk hzero
      cases hl
      have hlast : k = hidden := by omega
      exact ⟨by simp [Layer.make, width, hlast], hbias _ _ _⟩
    · cases hl

variable {w : List (List (List D))} {n : Network D}

/-- A layer of a network that has been given weights: nothing is left of those that it drew. -/
theorem layer_of_setWeights
    (h : (Network.make A inputs outputs hidden dis).setWeights w = some n) {k : Nat} {l : Layer D}
    (hl : n.layers[k]? = some l) : l.perceptrons.length = width inputs outputs hidden k ∧
      ∃ rows, w[k]? = some rows ∧ ∀ j p, l.perceptrons[j]? = some p ↔
        j < width inputs outputs hidden k ∧ ∃ row, rows[j]? = some row ∧ p = ⟨row, A.one⟩ := by
  rw [(Network.setWeights_eq_some h).2 k] at hl
  simp only [Option.bind_eq_some_iff] at hl
  obtain ⟨l₀, hl₀, rows, hrows, hset⟩ := hl
  obtain ⟨hwidth, hbias⟩ := Network.layer_of_make hl₀
  obtain ⟨hlength, hget⟩ := Layer.setWeights_eq_some hset
  refine ⟨hlength.trans hwidth, rows, hrows, fun j p => ?_⟩
  rw [hget j, ← hwidth]
  simp only [Option.bind_eq_some_iff, Option.map_eq_some_iff]
  constructor
  · rintro ⟨p₀, hp₀, row, hrow, rfl⟩
    refine ⟨(List.getElem?_eq_some_iff.mp hp₀).1, row, hrow, ?_⟩
    rw [Perceptron.setWeights, hbias p₀ (List.mem_of_getElem? hp₀)]
  · rintro ⟨hj, row, hrow, rfl⟩
    refine ⟨_, List.getElem?_eq_getElem hj, row, hrow, ?_⟩
    rw [Perceptron.setWeights, hbias _ (List.getElem_mem hj)]

theorem length_layers_of_setWeights
    (h : (Network.make A inputs outputs hidden dis).setWeights w = some n) :
    n.layers.length = hidden + 1 := by
  rw [(Network.setWeights_eq_some h).1]
  simp [Network.make]

theorem sized_of_setWeights (hinputs : (inputs : Int) ≤ CInt.intMax)
    (houtputs : (outputs : Int) ≤ CInt.intMax) (hhidden : (hidden : Int) < CInt.intMax)
    (h : (Network.make A inputs outputs hidden dis).setWeights w = some n) : n.Sized where
  layers := by
    rw [length_layers_of_setWeights h]
    omega
  perceptrons := by
    intro l hl
    obtain ⟨k, hk⟩ := List.mem_iff_getElem?.mp hl
    rw [(layer_of_setWeights h hk).1, width]
    split
    · exact houtputs
    · exact hinputs

/-- The rows behind those of the first layer have a weight for each input. -/
def LongEnough (inputs outputs hidden : Nat) (w : List (List (List D))) : Prop :=
  ∀ k rows j row, k < hidden → w[k + 1]? = some rows → j < width inputs outputs hidden (k + 1) →
    rows[j]? = some row → inputs ≤ row.length

theorem fits_iff_longEnough
    (h : (Network.make A inputs outputs hidden dis).setWeights w = some n) :
    Fits 0 n.layers ↔ LongEnough inputs outputs hidden w := by
  have hlength := length_layers_of_setWeights h
  have hget : ∀ k, k < hidden + 1 → ∃ l, n.layers[k]? = some l := fun k hk =>
    ⟨_, List.getElem?_eq_getElem (hlength.symm ▸ hk)⟩
  rw [fits_iff]
  constructor
  · rintro ⟨-, hnext⟩ k rows j row hk hrows hj hrow
    obtain ⟨l, hl⟩ := hget k (by omega)
    obtain ⟨l', hl'⟩ := hget (k + 1) (by omega)
    obtain ⟨-, rows', hrows', hp⟩ := layer_of_setWeights h hl'
    obtain rfl : rows = rows' := Option.some.inj (hrows.symm.trans hrows')
    have hle := hnext k l l' hl hl' _ (List.mem_of_getElem? ((hp j _).mpr ⟨hj, row, hrow, rfl⟩))
    rwa [(layer_of_setWeights h hl).1, width, if_neg (Nat.ne_of_lt hk)] at hle
  · intro hlong
    refine ⟨fun l _ p _ => Nat.zero_le _, fun k l l' hl hl' p hmem => ?_⟩
    have hk : k < hidden := by
      have hlt := (List.getElem?_eq_some_iff.mp hl').1
      omega
    obtain ⟨-, rows, hrows, hp⟩ := layer_of_setWeights h hl'
    obtain ⟨j, hj⟩ := List.mem_iff_getElem?.mp hmem
    obtain ⟨hwidth, row, hrow, rfl⟩ := (hp j p).mp hj
    rw [(layer_of_setWeights h hl).1, width, if_neg (Nat.ne_of_lt hk)]
    exact hlong k rows j row hk hrows hwidth hrow

/-- The biases of a layer are 1. -/
theorem bias_of_setWeights
    (h : (Network.make A inputs outputs hidden dis).setWeights w = some n) {k : Nat} {l : Layer D}
    (hl : n.layers[k]? = some l) :
    l.perceptrons.map Perceptron.bias = List.replicate (width inputs outputs hidden k) A.one := by
  obtain ⟨hlength, rows, -, hp⟩ := layer_of_setWeights h hl
  refine List.eq_replicate_iff.mpr ⟨by rw [List.length_map, hlength], fun b hb => ?_⟩
  obtain ⟨p, hmem, rfl⟩ := List.mem_map.mp hb
  obtain ⟨j, hj⟩ := List.mem_iff_getElem?.mp hmem
  obtain ⟨-, row, -, rfl⟩ := (hp j p).mp hj
  rfl

/-- A layer is what its rows make of it. -/
theorem layer_congr {dis' : Nat → Nat → Nat → D} {w' : List (List (List D))} {n' : Network D}
    (h : (Network.make A inputs outputs hidden dis).setWeights w = some n)
    (h' : (Network.make A inputs outputs hidden dis').setWeights w' = some n') {k : Nat}
    (hw : w[k]? = w'[k]?) {l l' : Layer D} (hl : n.layers[k]? = some l)
    (hl' : n'.layers[k]? = some l') : l = l' := by
  obtain ⟨-, rows, hrows, hp⟩ := layer_of_setWeights h hl
  obtain ⟨-, rows', hrows', hp'⟩ := layer_of_setWeights h' hl'
  obtain rfl : rows = rows' := Option.some.inj (hrows.symm.trans (hw.trans hrows'))
  obtain ⟨perceptrons⟩ := l
  obtain ⟨perceptrons'⟩ := l'
  congr 1
  refine List.ext_getElem? fun j => Option.ext fun p => ?_
  exact (hp j p).trans (hp' j p).symm

end Constructed

/-- **What a network makes of its weights.** A network that is constructed and then given the
weights `w` runs if and only if the rows behind those of the first layer are long enough, and it
returns what every such network returns for every input whose weights are the same behind those of
the first layer. -/
theorem run_of_setWeights (inputs outputs hidden : Nat) (dis : Nat → Nat → Nat → D)
    (hinputs : (inputs : Int) ≤ CInt.intMax) (houtputs : (outputs : Int) ≤ CInt.intMax)
    (hhidden : (hidden : Int) < CInt.intMax) (w : List (List (List D))) (n : Network D)
    (hn : (Network.make A inputs outputs hidden dis).setWeights w = some n) (x : List D) :
    ((∃ y, n.run A x = some y) ↔ LongEnough inputs outputs hidden w) ∧
    ∀ dis' w' n' x', (Network.make A inputs outputs hidden dis').setWeights w' = some n' →
      w'.drop 1 = w.drop 1 → n'.run A x' = n.run A x := by
  have hsized := sized_of_setWeights hinputs houtputs hhidden hn
  refine ⟨(Network.exists_run_iff hsized x).trans (fits_iff_longEnough hn), ?_⟩
  intro dis' w' n' x' hn' htail
  have hsized' := sized_of_setWeights hinputs houtputs hhidden hn'
  have hlength := length_layers_of_setWeights hn
  have hlength' := length_layers_of_setWeights hn'
  have hget : ∀ k, k < hidden + 1 → ∃ l, n.layers[k]? = some l := fun k hk =>
    ⟨_, List.getElem?_eq_getElem (hlength.symm ▸ hk)⟩
  have hget' : ∀ k, k < hidden + 1 → ∃ l, n'.layers[k]? = some l := fun k hk =>
    ⟨_, List.getElem?_eq_getElem (hlength'.symm ▸ hk)⟩
  refine Network.run_congr hsized' hsized ?_ ?_ x' x
  · obtain ⟨l, hl⟩ := hget 0 (Nat.succ_pos _)
    obtain ⟨l', hl'⟩ := hget' 0 (Nat.succ_pos _)
    rw [hl, hl', Option.map_some, Option.map_some, bias_of_setWeights hn hl,
      bias_of_setWeights hn' hl']
  · refine List.ext_getElem? fun k => ?_
    rw [List.getElem?_drop, List.getElem?_drop]
    by_cases hk : 1 + k < hidden + 1
    · obtain ⟨l, hl⟩ := hget (1 + k) hk
      obtain ⟨l', hl'⟩ := hget' (1 + k) hk
      have hw : w'[1 + k]? = w[1 + k]? := by
        rw [← List.getElem?_drop, htail, List.getElem?_drop]
      rw [hl, hl', layer_congr hn' hn hw hl' hl]
    · rw [List.getElem?_eq_none (by omega), List.getElem?_eq_none (by omega)]

/-- Whole numbers. -/
def whole : Arithmetic Int := ⟨0, 1, (· + ·), (· * ·), (· / ·), (- ·), id⟩

/-- Two layers; the first one has no weight at all. -/
theorem run_of_setWeights_two : ∃ n y,
    (Network.make whole 1 1 1 fun _ _ _ => 0).setWeights [[[]], [[7]]] = some n ∧
      n.run whole [3] = some y := by
  have hlong : LongEnough 1 1 1 [[[]], [[(7 : Int)]]] := by
    intro k rows j row hk hrows hj hrow
    obtain rfl : k = 0 := by omega
    obtain rfl := Option.some.inj hrows
    obtain rfl : j = 0 := Nat.lt_one_iff.mp hj
    obtain rfl := Option.some.inj hrow
    exact Nat.le_refl 1
  obtain ⟨y, hy⟩ := (run_of_setWeights 1 1 1 (fun _ _ _ => 0) (by decide) (by decide) (by decide)
    [[[]], [[7]]] _ rfl [3]).1.mpr hlong
  exact ⟨_, y, rfl, hy⟩

end CppExamples.Practice.ML
