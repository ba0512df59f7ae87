import CppExamples.Lib.CInt
import CppExamples.Lib.Machine
import CppExamples.Lib.Ring

/-!
# `DeclareFifo` (`cjunk/ringBuffer.h:17-44`)

The functions that `DeclareFifo(T, N)` generates, for every element type and every `N`.

* `head` and `tail` are `int`s. Every `int` expression goes through `CInt`, every access to `data`
  through `readAt` and `writeAt`: an overflow, or an index out of `[0, N)`, leaves no result.
* `*output` is the value that the caller's variable has before the call, and the reply of `pop`
  carries what it has after the call.

Result: `fifo_refines`. Over every sequence of calls the generated functions are defined, and they
reply as a list of capacity `N - 1` does. One slot always stays free, by which `head == tail` means
empty.
-/

namespace CppExamples.Queues

open Lib Lib.Machine

/-- `Status`. -/
inductive Status where
  | SUCCESS
  | FAILURE
  deriving DecidableEq, Repr

/-- `T##Fifo`. -/
structure Fifo (T : Type) (N : Nat) where
  head : Int
  tail : Int
  data : Fin N → T

namespace Fifo

variable {T : Type} {N : Nat}

/-- `fifo->data[i]`. -/
def readAt (data : Fin N → T) (i : Int) : Option T :=
  if h : 0 ≤ i ∧ i < N then some (data ⟨i.toNat, by omega⟩) else none

/-- `fifo->data[i] = x`. -/
def writeAt (data : Fin N → T) (i : Int) (x : T) : Option (Fin N → T) :=
  if h : 0 ≤ i ∧ i < N then some (Function.update data ⟨i.toNat, by omega⟩ x) else none

/-- `T##Fifo_init`. The slots keep what they have. -/
def init (fifo : Fifo T N) : Fifo T N := { fifo with head := 0, tail := 0 }

/-- `T##Fifo_isEmpty`. -/
def isEmpty (fifo : Fifo T N) : Bool := fifo.head == fifo.tail

/-- `T##Fifo_size`: `(((head - tail) % N) + N) % N`. -/
def size (fifo : Fifo T N) : Option Int := do
  let distance ← CInt.sub fifo.head fifo.tail
  let residue ← CInt.rem distance N
  let shifted ← CInt.add residue N
  CInt.rem shifted N

/-- `T##Fifo_push`. -/
def push (fifo : Fifo T N) (data : T) : Option (Fifo T N × Status) := do
  let size ← fifo.size
  let needed ← CInt.add size 1
  if (N : Int) ≤ needed then return (fifo, .FAILURE)
  let slots ← writeAt fifo.data fifo.head data
  let next ← CInt.add fifo.head 1
  let head ← CInt.rem next N
  return ({ fifo with data := slots, head := head }, .SUCCESS)

/-- `T##Fifo_pop`. The second component is `*output` after the call. -/
def pop (fifo : Fifo T N) (output : T) : Option (Fifo T N × T × Status) := do
  if fifo.isEmpty then return (fifo, output, .FAILURE)
  let item ← readAt fifo.data fifo.tail
  let next ← CInt.add fifo.tail 1
  let tail ← CInt.rem next N
  return ({ fifo with tail := tail }, item, .SUCCESS)

/-! ## Calls -/

/-- A call; `pop` with the contents of `*output`. -/
inductive Call (T : Type) where
  | push (data : T)
  | pop (output : T)

/-- What the caller sees; `pop` with the contents of `*output`. -/
inductive Reply (T : Type) where
  | push (status : Status)
  | pop (status : Status) (output : T)
  deriving DecidableEq

def Reply.status : Reply T → Status
  | .push status => status
  | .pop status _ => status

/-- The reply `r` to the call leaves `*output` as it was. -/
def Reply.OutputKept : Call T → Reply T → Prop
  | .pop output, .pop _ output' => output' = output
  | _, _ => True

def call (fifo : Fifo T N) : Call T → Option (Fifo T N × Reply T)
  | .push data => (fifo.push data).map fun (fifo', status) => (fifo', .push status)
  | .pop output =>
    (fifo.pop output).map fun (fifo', output', status) => (fifo', .pop status output')

/-- What the structure is for: a list, oldest element first, of at most `capacity` elements. -/
def specCall (capacity : Nat) (q : List T) : Call T → List T × Reply T
  | .push data =>
    if q.length < capacity then (q ++ [data], .push .SUCCESS) else (q, .push .FAILURE)
  | .pop output =>
    match q with
    | [] => ([], .pop .FAILURE output)
    | item :: q' => (q', .pop .SUCCESS item)

/-! ## The structure stands for a list -/

/-- The structure stands for `q`. -/
structure Abs [NeZero N] (fifo : Fifo T N) (q : List T) : Prop where
  length_lt : q.length < N
  tail_nonneg : 0 ≤ fifo.tail
  tail_lt : fifo.tail < N
  head_eq : fifo.head = ((fifo.tail.toNat + q.length) % N : Nat)
  holds : Ring.Holds fifo.data fifo.tail.toNat q

section Refines

variable [NeZero N] {fifo : Fifo T N} {q : List T}

theorem abs_init (fifo : Fifo T N) : Abs fifo.init [] where
  length_lt := Nat.pos_of_neZero N
  tail_nonneg := le_refl 0
  tail_lt := by have := Nat.pos_of_neZero N; simp only [init]; omega
  head_eq := by simp [init]
  holds := Ring.Holds.nil _ _

theorem Abs.head_nonneg (h : Abs fifo q) : 0 ≤ fifo.head := by rw [h.head_eq]; omega

theorem Abs.head_lt (h : Abs fifo q) : fifo.head < N := by
  rw [h.head_eq]
  exact_mod_cast Nat.mod_lt _ (Nat.pos_of_neZero N)

/-- `head - tail` is the length, or the length less `N` once `head` has wrapped around. -/
theorem Abs.distance (h : Abs fifo q) :
    fifo.head - fifo.tail = q.length ∨
      fifo.head - fifo.tail = q.length - N ∧ 0 < q.length := by
  have hlen := h.length_lt
  have ht := h.tail_nonneg
  have ht' := h.tail_lt
  rw [h.head_eq]
  by_cases hwrap : fifo.tail.toNat + q.length < N
  · rw [Nat.mod_eq_of_lt hwrap]
    omega
  · rw [Nat.mod_eq_sub_mod (by omega), Nat.mod_eq_of_lt (by omega)]
    omega

theorem Abs.isEmpty_iff (h : Abs fifo q) : fifo.isEmpty = true ↔ q = [] := by
  have hlen := h.length_lt
  rw [isEmpty, beq_iff_eq, ← List.length_eq_zero_iff]
  rcases h.distance with hd | ⟨hd, hpos⟩ <;> omega

theorem Abs.size_eq (h : Abs fifo q) (hN : N ≤ 2 ^ 30) : fifo.size = some (q.length : Int) := by
  have hlen := h.length_lt
  have hpos : (0 : Int) < N := by omega
  have hrange : -(N : Int) < fifo.head - fifo.tail ∧ fifo.head - fifo.tail < N := by
    rcases h.distance with hd | ⟨hd, hlen'⟩ <;> omega
  have hsub : CInt.sub fifo.head fifo.tail = some (fifo.head - fifo.tail) :=
    CInt.checked_eq_some (by unfold CInt.intMin; omega) (by unfold CInt.intMax; omega)
  have hrem : CInt.rem (fifo.head - fifo.tail) N = some (fifo.head - fifo.tail) := by
    rw [CInt.rem_eq_some (by unfold CInt.intMin; omega) (by unfold CInt.intMax; omega) hpos,
      CInt.tmod_eq_self hrange.1 hrange.2]
  have hadd : CInt.add (fifo.head - fifo.tail) N = some (fifo.head - fifo.tail + N) :=
    CInt.checked_eq_some (by unfold CInt.intMin; omega) (by unfold CInt.intMax; omega)
  have hmod : (fifo.head - fifo.tail + N).tmod N = q.length := by
    rcases h.distance with hd | ⟨hd, hlen'⟩
    · rw [hd, Int.tmod_eq_emod_of_nonneg (by omega), Int.add_emod_right]
      exact Int.emod_eq_of_lt (by omega) (by omega)
    · rw [hd, Int.sub_add_cancel]
      exact Int.tmod_eq_of_lt (by omega) (by omega)
  simp only [size, hsub, hrem, hadd, Option.bind_eq_bind, Option.bind_some]
  rw [CInt.rem_eq_some (by unfold CInt.intMin; omega) (by unfold CInt.intMax; omega) hpos, hmod]

omit [NeZero N] in
/-- `i + 1` for an index, or for the number of elements. -/
theorem add_one_eq {i : Int} (hN : N ≤ 2 ^ 30) (hi : 0 ≤ i) (hi' : i < N) :
    CInt.add i 1 = some (i + 1) :=
  CInt.checked_eq_some (by unfold CInt.intMin; omega) (by unfold CInt.intMax; omega)

omit [NeZero N] in
/-- `(i + 1) % N` for an index. -/
theorem rem_add_one_eq {i : Int} (hN : N ≤ 2 ^ 30) (hi : 0 ≤ i) (hi' : i < N) :
    CInt.rem (i + 1) N = some (((i.toNat + 1) % N : Nat) : Int) := by
  rw [CInt.rem_eq_some (by unfold CInt.intMin; omega) (by unfold CInt.intMax; omega) (by omega),
    Int.tmod_eq_emod_of_nonneg (by omega), Int.natCast_emod, Int.natCast_add,
    Int.toNat_of_nonneg hi]
  rfl

theorem readAt_eq (data : Fin N → T) {i : Int} (hi : 0 ≤ i) (hi' : i < N) :
    readAt data i = some (data (Ring.slot N i.toNat)) := by
  rw [readAt, dif_pos ⟨hi, hi'⟩, Ring.slot_of_lt]

theorem writeAt_eq (data : Fin N → T) (k : Nat) (x : T) :
    writeAt data (k % N : Nat) x = some (Function.update data (Ring.slot N k) x) := by
  have hlt : k % N < N := Nat.mod_lt k (Nat.pos_of_neZero N)
  rw [writeAt, dif_pos ⟨by omega, by omega⟩]
  rfl

theorem Abs.push_full (h : Abs fifo q) (hN : N ≤ 2 ^ 30) (hfull : N ≤ q.length + 1) (data : T) :
    fifo.push data = some (fifo, .FAILURE) := by
  have hlen := h.length_lt
  have hadd := add_one_eq (i := q.length) hN (by omega) (by omega)
  have hle : (N : Int) ≤ q.length + 1 := by omega
  rw [push, h.size_eq hN, Option.bind_eq_bind, Option.bind_some, hadd, Option.bind_some,
    if_pos hle]
  rfl

theorem Abs.push_free (h : Abs fifo q) (hN : N ≤ 2 ^ 30) (hfree : q.length + 1 < N) (data : T) :
    ∃ fifo', fifo.push data = some (fifo', .SUCCESS) ∧ Abs fifo' (q ++ [data]) := by
  have hneeded := add_one_eq (i := q.length) hN (by omega) (by omega)
  have hlt : ¬ (N : Int) ≤ q.length + 1 := by omega
  have hwrite := writeAt_eq fifo.data (fifo.tail.toNat + q.length) data
  have hadd := add_one_eq hN h.head_nonneg h.head_lt
  have hrem := rem_add_one_eq hN h.head_nonneg h.head_lt
  rw [← h.head_eq] at hwrite
  refine ⟨⟨((fifo.head.toNat + 1) % N : Nat), fifo.tail,
    Function.update fifo.data (Ring.slot N (fifo.tail.toNat + q.length)) data⟩, ?_, ?_⟩
  · rw [push, h.size_eq hN, Option.bind_eq_bind, Option.bind_some, hneeded, Option.bind_some,
      if_neg hlt, hwrite, Option.bind_eq_bind, Option.bind_some, hadd, Option.bind_some, hrem]
    rfl
  · refine ⟨?_, h.tail_nonneg, h.tail_lt, ?_, h.holds.put h.length_lt data⟩
    · rw [List.length_append, List.length_singleton]
      exact hfree
    · simp only [List.length_append, List.length_singleton, h.head_eq, Int.toNat_natCast,
        Nat.mod_add_mod, ← Nat.add_assoc]

theorem Abs.pop_empty (h : Abs fifo []) (output : T) :
    fifo.pop output = some (fifo, output, .FAILURE) := by
  simp only [pop, h.isEmpty_iff.mpr rfl, if_true, Option.pure_def]

theorem Abs.pop_cons {x : T} (h : Abs fifo (x :: q)) (hN : N ≤ 2 ^ 30) (output : T) :
    ∃ fifo', fifo.pop output = some (fifo', x, .SUCCESS) ∧ Abs fifo' q := by
  have hne : fifo.isEmpty = false := by
    rw [Bool.eq_false_iff]
    intro hempty
    exact absurd (h.isEmpty_iff.mp hempty) (List.cons_ne_nil x q)
  have hread := readAt_eq fifo.data h.tail_nonneg h.tail_lt
  have hadd := add_one_eq hN h.tail_nonneg h.tail_lt
  have hrem := rem_add_one_eq hN h.tail_nonneg h.tail_lt
  rw [h.holds.head_eq] at hread
  refine ⟨{ fifo with tail := ((fifo.tail.toNat + 1) % N : Nat) }, ?_, ?_⟩
  · simp only [pop, hne, hread, hadd, hrem, Option.bind_eq_bind, Option.bind_some,
      Bool.false_eq_true, if_false, Option.pure_def]
  · have hmod := Nat.mod_lt (fifo.tail.toNat + 1) (Nat.pos_of_neZero N)
    refine ⟨Nat.lt_of_succ_lt h.length_lt, Int.natCast_nonneg _, Int.ofNat_lt.mpr hmod, ?_, ?_⟩
    · simp only [h.head_eq, Int.toNat_natCast, Nat.mod_add_mod, List.length_cons]
      congr 2
      omega
    · refine h.holds.take.congr_start ?_
      rw [Int.toNat_natCast, Nat.mod_mod]

/-- One call: the structure replies as the list does, and stands for the new list. A failure
changes nothing. -/
theorem Abs.call (h : Abs fifo q) (hN : N ≤ 2 ^ 30) (c : Call T) :
    ∃ fifo', fifo.call c = some (fifo', (specCall (N - 1) q c).2) ∧
      Abs fifo' (specCall (N - 1) q c).1 ∧
      ((specCall (N - 1) q c).2.status = .FAILURE →
        fifo' = fifo ∧ (specCall (N - 1) q c).2.OutputKept c) := by
  cases c with
  | push data =>
    by_cases hfree : q.length < N - 1
    · obtain ⟨fifo', hpush, habs⟩ := h.push_free hN (by omega) data
      refine ⟨fifo', ?_⟩
      simp [Fifo.call, specCall, hfree, hpush, habs, Reply.status]
    · refine ⟨fifo, ?_⟩
      simp [Fifo.call, specCall, hfree, h.push_full hN (by omega) data, h, Reply.OutputKept]
  | pop output =>
    cases q with
    | nil =>
      refine ⟨fifo, ?_⟩
      simp [Fifo.call, specCall, h.pop_empty output, h, Reply.OutputKept]
    | cons x q =>
      obtain ⟨fifo', hpop, habs⟩ := h.pop_cons hN output
      refine ⟨fifo', ?_⟩
      simp [Fifo.call, specCall, hpop, habs, Reply.status]

/-- The step of the simulation, logs included. -/
theorem Abs.logged {log log' : List (Call T × Reply T)} {c : Call T}
    {a' : List T × List (Call T × Reply T)} (h : Abs fifo q) (hN : N ≤ 2 ^ 30) (hlog : log = log')
    (ha : Machine.logged (fun q c => some (specCall (N - 1) q c)) (q, log') c = some a') :
    ∃ s', Machine.logged Fifo.call (fifo, log) c = some s' ∧ Abs s'.1 a'.1 ∧ s'.2 = a'.2 := by
  obtain ⟨fifo', hcall, habs, -⟩ := h.call hN c
  obtain ⟨reply, hspec, hlog'⟩ := logged_eq_some.mp ha
  obtain ⟨hq, hreply⟩ := Prod.ext_iff.mp (Option.some.inj hspec)
  simp only at hq hreply
  refine ⟨(fifo', log ++ [(c, reply)]), logged_eq_some.mpr ⟨reply, ?_, rfl⟩, ?_, ?_⟩
  · rw [hcall, hreply]
  · rw [← hq]
    exact habs
  · rw [hlog', hlog]

end Refines

/-- **`DeclareFifo` is a bounded queue.** Every sequence of calls after `T##Fifo_init` is defined
and gets the replies of a list of capacity `N - 1`. Afterwards the size and the emptiness test
are those of the list, the indices are in range, and a call that fails changes nothing. -/
theorem fifo_refines (N : Nat) (hpos : 1 ≤ N) (hN : N ≤ 2 ^ 30) (fifo₀ : Fifo T N)
    (calls : List (Call T)) :
    ∃ fifo q log, run (logged Fifo.call) (fifo₀.init, []) calls = some (fifo, log) ∧
      run (logged fun q c => some (specCall (N - 1) q c)) ([], []) calls = some (q, log) ∧
      fifo.size = some (q.length : Int) ∧ (fifo.isEmpty = true ↔ q.length = 0) ∧
      (0 ≤ fifo.head ∧ fifo.head < N) ∧ (0 ≤ fifo.tail ∧ fifo.tail < N) ∧
      ∀ c fifo' reply, fifo.call c = some (fifo', reply) → reply.status = .FAILURE →
        fifo' = fifo ∧ reply.OutputKept c := by
  have : NeZero N := ⟨by omega⟩
  have htotal : ∀ (a : List T × List (Call T × Reply T)) (c : Call T), True →
      ∃ a', logged (fun q c => some (specCall (N - 1) q c)) a c = some a' ∧ True :=
    fun _ _ _ => ⟨_, rfl, trivial⟩
  obtain ⟨⟨q, log⟩, hspec, -⟩ := exists_run htotal (s := ([], [])) trivial calls
  -- the relation of the simulation also says that the two logs are the same
  obtain ⟨⟨fifo, log'⟩, hrun, habs, rfl⟩ := run_simulates (s := (fifo₀.init, []))
    (R := fun (s : Fifo T N × List (Call T × Reply T)) a => Abs s.1 a.1 ∧ s.2 = a.2)
    (fun hR ha => Abs.logged hR.1 hN hR.2 ha) ⟨abs_init fifo₀, rfl⟩ hspec
  refine ⟨fifo, q, log', hrun, hspec, habs.size_eq hN, ?_, ⟨habs.head_nonneg, habs.head_lt⟩,
    ⟨habs.tail_nonneg, habs.tail_lt⟩, ?_⟩
  · rw [habs.isEmpty_iff, List.length_eq_zero_iff]
  · intro c fifo' reply hcall hfail
    obtain ⟨fifo'', hcall', -, hkept⟩ := habs.call hN c
    have heq := Option.some.inj (hcall.symm.trans hcall')
    have hreply : reply = (specCall (N - 1) q c).2 := congrArg Prod.snd heq
    have hfifo : fifo' = fifo'' := congrArg Prod.fst heq
    rw [hreply] at hfail ⊢
    rw [hfifo]
    exact hkept hfail

/-- The refinement at `N = 3`: of three pushes two are accepted, and a pop delivers the first. -/
theorem fifo_refines_three :
    ∃ fifo log, run (logged Fifo.call) ((⟨7, -1, fun _ => 0⟩ : Fifo Nat 3).init, [])
        [.push 100, .push 200, .push 300, .pop 0] = some (fifo, log) ∧
      log.map Prod.snd =
        [.push .SUCCESS, .push .SUCCESS, .push .FAILURE, .pop .SUCCESS 100] ∧
      fifo.size = some 1 := by
  obtain ⟨fifo, q, log, hrun, hspec, hsize, -⟩ := fifo_refines 3 (by decide) (by decide)
    (⟨7, -1, fun _ => 0⟩ : Fifo Nat 3) [.push 100, .push 200, .push 300, .pop 0]
  obtain ⟨rfl, rfl⟩ := Prod.ext_iff.mp (Option.some.inj hspec)
  exact ⟨fifo, _, hrun, rfl, hsize⟩

end Fifo

end CppExamples.Queues
