import CppExamples.Lib.Cursor
import CppExamples.Lib.Outcome

/-!
# A program that walks over a text: `Walk`

A `Cursor` cannot leave its text. `Walk` is the level below: the position is any number, an element
is read from a memory that has something at every address, and nothing is checked but what the
program checks. What the program does to the position and to the memory is kept as a list of
events, in their order.

* `Safe len p m`: started at the position `p`, the program `m` reads below `len` only, and moves
  its position upwards only, at most to `len`. One rule per way to build a program (`Safe.bind`,
  `Safe.read`, …). It says nothing about how the program ends.
* `Models k c m o`: started at the position of the cursor `c`, the program ends as the outcome `o`
  of the checked level says. The function `k` picks the value and the cursor out of what the
  checked level returns. `Models.bind` composes.
-/

namespace CppExamples.Lib

/-- What a program does to its text: it reads the element at an address, or its position
becomes `i`. -/
inductive Event where
  | read (i : Nat)
  | move (i : Nat)
  deriving Repr, DecidableEq

/-- A program with a position: from the position before, what it did, and how it ended, with the
position after. -/
def Walk (ε : Type) (β : Type) := Nat → List Event × Outcome ε (β × Nat)

namespace Walk

variable {ε : Type} {β γ : Type}

def pure (b : β) : Walk ε β := fun p => ([], .ret (b, p))

/-- First `m`, and from where it ends `f`, if `m` returns. -/
def bind (m : Walk ε β) (f : β → Walk ε γ) : Walk ε γ := fun p =>
  match m p with
  | (t, .ret (b, q)) => (t ++ (f b q).1, (f b q).2)
  | (t, .throw e) => (t, .throw e)
  | (t, .timeout) => (t, .timeout)

instance : Monad (Walk ε) where
  pure := pure
  bind := bind

def throw (e : ε) : Walk ε β := fun _ => ([], .throw e)

def timeout : Walk ε β := fun _ => ([], .timeout)

/-- The position. -/
def pos : Walk ε Nat := fun p => ([], .ret (p, p))

/-- `pos++`. -/
def advance : Walk ε Unit := fun p => ([.move (p + 1)], .ret ((), p + 1))

/-- `text[pos]`, where the text starts at the address 0 of `mem`. -/
def read (mem : Nat → β) : Walk ε β := fun p => ([.read p], .ret (mem p, p))

/-- The elements from the address `a` up to `b`. -/
def slice (mem : Nat → β) (a b : Nat) : Walk ε (List β) := fun p =>
  ((List.range' a (b - a)).map .read, .ret ((List.range' a (b - a)).map mem, p))

/-- A computation that has nothing to do with the text. -/
def lift (o : Outcome ε β) : Walk ε β := fun p => ([], o >>= fun b => .ret (b, p))

theorem bind_outcome (m : Walk ε β) (f : β → Walk ε γ) (p : Nat) :
    ((m >>= f) p).2 = (m p).2 >>= fun r => (f r.1 r.2).2 := by
  change (bind m f p).2 = _
  unfold bind
  split <;> rename_i h <;> rw [h] <;> rfl

theorem bind_trace (m : Walk ε β) (f : β → Walk ε γ) (p : Nat) :
    ((m >>= f) p).1 = (m p).1 ++ match (m p).2 with
      | .ret (b, q) => (f b q).1
      | _ => [] := by
  change (bind m f p).1 = _
  unfold bind
  split <;> rename_i h <;> rw [h] <;> simp

/-! ## Reads in bounds, positions upwards -/

/-- From the position `p` the events lead to the position `q`: every read is below `len`, every
move is upwards and at most to `len`. -/
def Stays (len : Nat) : Nat → List Event → Nat → Prop
  | p, [], q => p = q
  | p, .read i :: t, q => i < len ∧ Stays len p t q
  | p, .move i :: t, q => p ≤ i ∧ i ≤ len ∧ Stays len i t q

theorem Stays.append {len p q r : Nat} {t t' : List Event} (h : Stays len p t q)
    (h' : Stays len q t' r) : Stays len p (t ++ t') r := by
  fun_induction Stays len p t q with
  | case1 => exact h ▸ h'
  | case2 p i t q ih => exact ⟨h.1, ih h.2 h'⟩
  | case3 p i t q ih => exact ⟨h.1, h.2.1, ih h.2.2 h'⟩

theorem Stays.le {len p q : Nat} {t : List Event} (h : Stays len p t q) (hp : p ≤ len) :
    p ≤ q ∧ q ≤ len := by
  fun_induction Stays len p t q with
  | case1 => omega
  | case2 p i t q ih => exact ih h.2 hp
  | case3 p i t q ih =>
    have := ih h.2.2 h.2.1
    omega

theorem stays_reads {len p : Nat} {l : List Nat} (h : ∀ i ∈ l, i < len) :
    Stays len p (l.map .read) p := by
  induction l with
  | nil => rfl
  | cons i l ih => exact ⟨h i List.mem_cons_self, ih fun j hj => h j (List.mem_cons_of_mem _ hj)⟩

/-- Every read is in bounds. -/
theorem Stays.read_lt {len p q : Nat} {t : List Event} (h : Stays len p t q) {i : Nat}
    (hi : .read i ∈ t) : i < len := by
  fun_induction Stays len p t q with
  | case1 => exact absurd hi List.not_mem_nil
  | case2 p j t q ih =>
    rcases List.mem_cons.mp hi with hij | hi
    · cases hij
      exact h.1
    · exact ih h.2 hi
  | case3 p j t q ih =>
    rcases List.mem_cons.mp hi with hij | hi
    · exact absurd hij (by simp)
    · exact ih h.2.2 hi

/-- The positions of a list of events, from `p` on. -/
def positions (p : Nat) : List Event → List Nat
  | [] => [p]
  | .read _ :: t => positions p t
  | .move i :: t => p :: positions i t

/-- The positions go upwards. -/
theorem Stays.sorted {len p q : Nat} {t : List Event} (h : Stays len p t q) :
    (∀ i ∈ positions p t, p ≤ i) ∧ (positions p t).Pairwise (· ≤ ·) := by
  fun_induction Stays len p t q with
  | case1 p q => simp [positions]
  | case2 p j t q ih => exact ih h.2
  | case3 p j t q ih =>
    obtain ⟨hle, hsorted⟩ := ih h.2.2
    have hall : ∀ i ∈ positions j t, p ≤ i := fun i hi => Nat.le_trans h.1 (hle i hi)
    refine ⟨fun i hi => ?_, List.pairwise_cons.mpr ⟨hall, hsorted⟩⟩
    rcases List.mem_cons.mp hi with rfl | hi
    · exact Nat.le_refl _
    · exact hall i hi

/-- No position is beyond the end of the text. -/
theorem Stays.positions_le {len p q : Nat} {t : List Event} (h : Stays len p t q) (hp : p ≤ len) :
    ∀ i ∈ positions p t, i ≤ len := by
  fun_induction Stays len p t q with
  | case1 p q => simpa [positions] using hp
  | case2 p j t q ih => exact ih h.2 hp
  | case3 p j t q ih =>
    intro i hi
    rcases List.mem_cons.mp hi with rfl | hi
    · exact hp
    · exact ih h.2.2 h.2.1 i hi

/-- Started at `p`, the program stays in bounds and moves upwards, and where it returns is where
its events lead. -/
def Safe (len p : Nat) (m : Walk ε β) : Prop :=
  ∃ q, Stays len p (m p).1 q ∧ ∀ b r, (m p).2 = .ret (b, r) → r = q

section Rules

variable {len p : Nat} {m : Walk ε β} {f : β → Walk ε γ}

theorem Safe.pure (b : β) : Safe len p (Pure.pure b : Walk ε β) :=
  ⟨p, rfl, fun _ _ h => (Prod.mk.inj (Outcome.ret.inj h)).2.symm⟩

theorem Safe.throw (e : ε) : Safe len p (throw e : Walk ε β) :=
  ⟨p, rfl, fun _ _ h => absurd h (by simp [Walk.throw])⟩

theorem Safe.timeout : Safe len p (timeout : Walk ε β) :=
  ⟨p, rfl, fun _ _ h => absurd h (by simp [Walk.timeout])⟩

theorem Safe.ite {c : Prop} [Decidable c] {m m' : Walk ε β} (h : c → Safe len p m)
    (h' : ¬ c → Safe len p m') : Safe len p (if c then m else m') := by
  split
  · exact h ‹_›
  · exact h' ‹_›

/-- What does not return is not continued. -/
theorem Safe.bind_of_not_ret (hm : Safe len p m) (hend : ∀ r, (m p).2 ≠ .ret r) :
    Safe len p (m >>= f) := by
  obtain ⟨q, hstays, -⟩ := hm
  refine ⟨q, ?_, fun c r h => ?_⟩
  · rw [bind_trace]
    split
    · exact absurd ‹_› (hend _)
    · rwa [List.append_nil]
  · rw [bind_outcome] at h
    obtain ⟨b, hret, -⟩ := Outcome.bind_eq_ret_iff.mp h
    exact absurd hret (hend b)

theorem Safe.bind (hp : p ≤ len) (hm : Safe len p m)
    (hf : ∀ b q, q ≤ len → (m p).2 = .ret (b, q) → Safe len q (f b)) : Safe len p (m >>= f) := by
  cases ho : (m p).2 with
  | ret r =>
    obtain ⟨q, hstays, hq⟩ := hm
    obtain ⟨b, q'⟩ := r
    obtain rfl := hq b q' ho
    obtain ⟨r, hstays', hr⟩ := hf b q' (hstays.le hp).2 ho
    refine ⟨r, ?_, fun c r' h => ?_⟩
    · rw [bind_trace, ho]
      exact hstays.append hstays'
    · rw [bind_outcome, ho] at h
      exact hr c r' h
  | throw e => exact hm.bind_of_not_ret fun r => by simp [ho]
  | timeout => exact hm.bind_of_not_ret fun r => by simp [ho]

theorem Safe.pos_bind {f : Nat → Walk ε γ} (hp : p ≤ len) (hf : Safe len p (f p)) :
    Safe len p (pos >>= f) := by
  refine Safe.bind hp ⟨p, rfl, fun b r h => ?_⟩ fun b q _ h => ?_
  · exact (Prod.mk.inj (Outcome.ret.inj h)).2.symm
  · obtain ⟨rfl, rfl⟩ := Prod.mk.inj (Outcome.ret.inj h)
    exact hf

theorem Safe.read_bind {mem : Nat → β} (hp : p < len) (hf : Safe len p (f (mem p))) :
    Safe len p (read mem >>= f) := by
  refine Safe.bind hp.le ⟨p, ⟨hp, rfl⟩, fun b r h => ?_⟩ fun b q _ h => ?_
  · exact (Prod.mk.inj (Outcome.ret.inj h)).2.symm
  · obtain ⟨rfl, rfl⟩ := Prod.mk.inj (Outcome.ret.inj h)
    exact hf

theorem Safe.read {mem : Nat → β} (hp : p < len) : Safe len p (read mem : Walk ε β) :=
  ⟨p, ⟨hp, rfl⟩, fun _ _ h => (Prod.mk.inj (Outcome.ret.inj h)).2.symm⟩

theorem Safe.advance_bind {f : Unit → Walk ε γ} (hp : p < len)
    (hf : Safe len (p + 1) (f ())) : Safe len p (advance >>= f) := by
  refine Safe.bind hp.le ⟨p + 1, ⟨Nat.le_succ p, hp, rfl⟩, fun b r h => ?_⟩ fun b q _ h => ?_
  · exact (Prod.mk.inj (Outcome.ret.inj h)).2.symm
  · obtain ⟨-, rfl⟩ := Prod.mk.inj (Outcome.ret.inj h)
    exact hf

theorem Safe.slice_bind {mem : Nat → β} {a b : Nat} {f : List β → Walk ε γ} (hp : p ≤ len)
    (hb : b ≤ len) (hf : ∀ l, Safe len p (f l)) : Safe len p (slice mem a b >>= f) := by
  refine Safe.bind hp ⟨p, ?_, fun b r h => ?_⟩ fun l q _ h => ?_
  · refine stays_reads fun i hi => ?_
    rw [List.mem_range'_1] at hi
    omega
  · exact (Prod.mk.inj (Outcome.ret.inj h)).2.symm
  · obtain ⟨-, rfl⟩ := Prod.mk.inj (Outcome.ret.inj h)
    exact hf l

theorem Safe.lift (o : Outcome ε β) : Safe len p (lift o) := by
  refine ⟨p, rfl, fun b r h => ?_⟩
  obtain ⟨b', -, h⟩ := Outcome.bind_eq_ret_iff.mp h
  exact (Prod.mk.inj (Outcome.ret.inj h)).2.symm

end Rules

/-! ## The checked level -/

/-- The program does what the checked level does: from the position of `c` it ends as `o` does,
with the value and at the position that `k` picks. The checked level does not change the text. -/
structure Models {α δ : Type} (k : δ → β × Cursor α) (c : Cursor α) (m : Walk ε β)
    (o : Outcome ε δ) : Prop where
  outcome : (m c.pos).2 = o >>= fun r => .ret ((k r).1, (k r).2.pos)
  text : ∀ r, o = .ret r → (k r).2.text = c.text

section Models

variable {α δ δ' : Type} {k : δ → β × Cursor α} {k' : δ' → γ × Cursor α} {c : Cursor α}
  {m : Walk ε β} {f : β → Walk ε γ} {o : Outcome ε δ} {g : δ → Outcome ε δ'}

theorem Models.bind (hm : Models k c m o)
    (hf : ∀ r, o = .ret r → (k r).2.text = c.text → Models k' (k r).2 (f (k r).1) (g r)) :
    Models k' c (m >>= f) (o >>= g) := by
  cases o with
  | ret r =>
    have h := hf r rfl (hm.text r rfl)
    refine ⟨?_, fun r' hr' => (h.text r' hr').trans (hm.text r rfl)⟩
    rw [bind_outcome, hm.outcome]
    exact h.outcome
  | throw e =>
    refine ⟨?_, fun r' hr' => absurd hr' (by simp)⟩
    rw [bind_outcome, hm.outcome]
    rfl
  | timeout =>
    refine ⟨?_, fun r' hr' => absurd hr' (by simp)⟩
    rw [bind_outcome, hm.outcome]
    rfl

theorem Models.ne_timeout (h : Models k c m o) (ho : o ≠ .timeout) : (m c.pos).2 ≠ .timeout := by
  rw [h.outcome]
  exact Outcome.bind_ne_timeout ho fun _ _ => by simp

theorem Models.ret {b : β} {r : δ} (h : k r = (b, c)) :
    Models k c (Pure.pure b : Walk ε β) (.ret r) := by
  refine ⟨?_, fun r' hr' => ?_⟩
  · change Outcome.ret (b, c.pos) = Outcome.ret ((k r).1, (k r).2.pos)
    rw [h]
  · rw [← Outcome.ret.inj hr', h]

theorem Models.throw (e : ε) : Models k c (Walk.throw e) (.throw e) :=
  ⟨rfl, fun _ h => absurd h (by simp)⟩

theorem Models.timeout : Models k c (Walk.timeout : Walk ε β) .timeout :=
  ⟨rfl, fun _ h => absurd h (by simp)⟩

theorem Models.ite {b : Prop} [Decidable b] {m m' : Walk ε β} {o o' : Outcome ε δ}
    (h : b → Models k c m o) (h' : ¬ b → Models k c m' o') :
    Models k c (if b then m else m') (if b then o else o') := by
  split
  · exact h ‹_›
  · exact h' ‹_›

/-- A step of the program that the checked level has no call for. -/
theorem Models.ret_bind {r : δ} {o : Outcome ε δ'} (hm : Models k c m (.ret r))
    (h : Models k' (k r).2 (f (k r).1) o) : Models k' c (m >>= f) o := by
  refine ⟨?_, fun r' hr' => (h.text r' hr').trans (hm.text r rfl)⟩
  rw [bind_outcome, hm.outcome]
  exact h.outcome

theorem Models.throw_bind {e : ε} (hm : Models k c m (.throw e)) :
    Models k' c (m >>= f) (.throw e) := by
  refine ⟨?_, fun r' hr' => absurd hr' (by simp)⟩
  rw [bind_outcome, hm.outcome]
  rfl

theorem Models.pos_bind {f : Nat → Walk ε γ} {o : Outcome ε δ'} (h : Models k' c (f c.pos) o) :
    Models k' c (pos >>= f) o := ⟨by rw [bind_outcome]; exact h.outcome, h.text⟩

theorem Models.read_bind {mem : Nat → β} {o : Outcome ε δ'} (h : Models k' c (f (mem c.pos)) o) :
    Models k' c (read mem >>= f) o := ⟨by rw [bind_outcome]; exact h.outcome, h.text⟩

theorem Models.advance_bind {f : Unit → Walk ε γ} {o : Outcome ε δ'} (hlt : c.pos < c.text.length)
    (h : Models k' (c.next hlt) (f ()) o) : Models k' c (advance >>= f) o :=
  ⟨by rw [bind_outcome]; exact h.outcome, h.text⟩

theorem Models.slice_bind {mem : Nat → β} {a b : Nat} {f : List β → Walk ε γ}
    {o : Outcome ε δ'} (h : Models k' c (f ((List.range' a (b - a)).map mem)) o) :
    Models k' c (slice mem a b >>= f) o := ⟨by rw [bind_outcome]; exact h.outcome, h.text⟩

theorem Models.lift (o : Outcome ε β) (c : Cursor α) :
    Models (fun b => (b, c)) c (lift o) o := ⟨rfl, fun _ _ => rfl⟩

/-- The cursor picked by `k` may as well be returned. -/
theorem Models.returned (h : Models k c m o) :
    Models id c m (o >>= fun r => .ret (k r)) := by
  cases o with
  | ret r => exact ⟨h.outcome, fun r' hr' => Outcome.ret.inj hr' ▸ h.text r rfl⟩
  | throw e => exact ⟨h.outcome, fun r' hr' => absurd hr' (by simp)⟩
  | timeout => exact ⟨h.outcome, fun r' hr' => absurd hr' (by simp)⟩

end Models

end Walk

end CppExamples.Lib
