import Mathlib.Data.List.TakeWhile

/-!
# A reading position in a text: `Cursor`

A cursor is a text and a position in it, with `pos ≤ text.length` carried by the structure, so a
position past the end cannot be built and every element read is in bounds.

* `Reads c u d`: the text between the positions `c` and `d` of one text is `u`. Readings compose
  (`Reads.trans`), the text read fixes the end position (`Reads.unique`), and any prefix of what
  is left can be read (`exists_reads`).
* `skipWhile f` is the loop `while (pos < length && f(text[pos])) pos++`. It reads exactly the
  longest run of `f`-elements (`skipWhile_reads`, `skipWhile_eq`).
* `Grown s t c d`: the same position, in `s` and in `s ++ t`. The loop stops at the same place in
  both, unless it runs to the end of `s` (`Grown.skipWhile`).
-/

namespace CppExamples.Lib

universe u

/-- A text and a position in it. -/
@[ext]
structure Cursor (α : Type u) where
  text : List α
  pos : Nat
  pos_le : pos ≤ text.length

namespace Cursor

variable {α : Type u}

/-- The start of a text. -/
def start (t : List α) : Cursor α := ⟨t, 0, Nat.zero_le _⟩

/-- The position behind `pre` in the text `pre ++ t`. -/
def after (pre t : List α) : Cursor α := ⟨pre ++ t, pre.length, by simp⟩

/-- What is left of the text. -/
def rest (c : Cursor α) : List α := c.text.drop c.pos

/-- One element further. -/
def next (c : Cursor α) (h : c.pos < c.text.length) : Cursor α := ⟨c.text, c.pos + 1, h⟩

@[simp] theorem start_rest (t : List α) : (start t).rest = t := rfl

@[simp] theorem after_rest (pre t : List α) : (after pre t).rest = t := List.drop_left

theorem rest_length (c : Cursor α) : c.rest.length = c.text.length - c.pos := List.length_drop

theorem rest_eq_cons (c : Cursor α) (h : c.pos < c.text.length) :
    c.rest = c.text[c.pos] :: (c.next h).rest :=
  List.drop_eq_getElem_cons h

theorem rest_eq_nil (c : Cursor α) (h : ¬ c.pos < c.text.length) : c.rest = [] :=
  List.drop_eq_nil_of_le (Nat.not_lt.mp h)

/-- A cursor with something left is inside its text. -/
theorem pos_lt_of_rest {c : Cursor α} {x : α} {t : List α} (h : c.rest = x :: t) :
    c.pos < c.text.length := by
  by_contra hn
  rw [c.rest_eq_nil hn] at h
  exact absurd h (by simp)

/-- The element read and what is left after it. -/
theorem getElem_of_rest {c : Cursor α} {x : α} {t : List α} (h : c.rest = x :: t)
    (hlt : c.pos < c.text.length) : c.text[c.pos] = x ∧ (c.next hlt).rest = t := by
  rw [c.rest_eq_cons hlt] at h
  exact List.cons.inj h

/-! ## The text between two positions -/

/-- `u` is the text between `c` and `d`. -/
structure Reads (c : Cursor α) (u : List α) (d : Cursor α) : Prop where
  text : d.text = c.text
  rest : c.rest = u ++ d.rest

namespace Reads

variable {c d e : Cursor α} {u v : List α}

theorem refl (c : Cursor α) : Reads c [] c := ⟨rfl, rfl⟩

theorem trans (h : Reads c u d) (h' : Reads d v e) : Reads c (u ++ v) e :=
  ⟨h'.text.trans h.text, by rw [h.rest, h'.rest, List.append_assoc]⟩

theorem next (c : Cursor α) (h : c.pos < c.text.length) :
    Reads c [c.text[c.pos]] (c.next h) :=
  ⟨rfl, c.rest_eq_cons h⟩

/-- The end position is the start position and the length of the text read. -/
theorem pos (h : Reads c u d) : d.pos = c.pos + u.length := by
  have hlen := congrArg List.length h.rest
  rw [List.length_append, rest_length, rest_length, h.text] at hlen
  have hc := c.pos_le
  have hd := d.pos_le
  rw [h.text] at hd
  omega

/-- The text read fixes the end position. -/
theorem unique (h : Reads c u d) (h' : Reads c u e) : d = e := by
  ext1
  · exact h.text.trans h'.text.symm
  · rw [h.pos, h'.pos]

/-- The two positions fix the text read. -/
theorem text_unique (h : Reads c u d) (h' : Reads c v d) : u = v :=
  List.append_cancel_right (h.rest.symm.trans h'.rest)

/-- A reading of a text that starts with `u` reads `u` first. -/
theorem split (h : Reads c (u ++ v) e) : ∃ d, Reads c u d ∧ Reads d v e := by
  have hlen := h.pos
  rw [List.length_append] at hlen
  have hle := e.pos_le
  rw [h.text] at hle
  let d : Cursor α := ⟨c.text, c.pos + u.length, by omega⟩
  have hd : d.rest = v ++ e.rest := by
    have : d.rest = (u ++ v ++ e.rest).drop u.length := by
      rw [← h.rest]
      exact (List.drop_drop).symm
    rw [this, List.append_assoc, List.drop_left]
  exact ⟨d, ⟨rfl, by rw [hd, h.rest, List.append_assoc]⟩, ⟨h.text, hd⟩⟩

end Reads

/-- Any prefix of what is left can be read. -/
theorem exists_reads {c : Cursor α} {u t : List α} (h : c.rest = u ++ t) :
    ∃ d, Reads c u d ∧ d.rest = t := by
  let e : Cursor α := ⟨c.text, c.text.length, Nat.le_refl _⟩
  have he : e.rest = [] := List.drop_length
  have hall : Reads c (u ++ t) e := ⟨rfl, by rw [he, List.append_nil, h]⟩
  obtain ⟨d, hd, hd'⟩ := hall.split
  exact ⟨d, hd, by rw [hd'.rest, he, List.append_nil]⟩

/-- A reading leaves less, by the length of the text read. -/
theorem Reads.rest_length {c d : Cursor α} {u : List α} (h : Reads c u d) :
    c.rest.length = u.length + d.rest.length := by
  rw [h.rest, List.length_append]

theorem reads_after (pre u t : List α) : Reads (after pre (u ++ t)) u (after (pre ++ u) t) :=
  ⟨List.append_assoc pre u t, by rw [after_rest, after_rest]⟩

/-! ## The skipping loop -/

/-- `while (pos < length && f(text[pos])) pos++`. -/
def skipWhile (f : α → Bool) (c : Cursor α) : Cursor α :=
  if h : c.pos < c.text.length then
    if f c.text[c.pos] then skipWhile f (c.next h) else c
  else c
termination_by c.text.length - c.pos
decreasing_by simp only [next]; omega

/-- The loop reads the longest run of `f`-elements. -/
theorem skipWhile_reads (f : α → Bool) (c : Cursor α) :
    Reads c (c.rest.takeWhile f) (c.skipWhile f) := by
  fun_induction skipWhile f c with
  | case1 c h hf ih =>
    rw [c.rest_eq_cons h, List.takeWhile_cons_of_pos hf]
    exact (Reads.next c h).trans ih
  | case2 c h hf =>
    rw [c.rest_eq_cons h, List.takeWhile_cons_of_neg hf]
    exact Reads.refl c
  | case3 c h =>
    rw [c.rest_eq_nil h]
    exact Reads.refl c

theorem skipWhile_rest (f : α → Bool) (c : Cursor α) :
    (c.skipWhile f).rest = c.rest.dropWhile f := by
  have h := (skipWhile_reads f c).rest
  have h' := List.takeWhile_append_dropWhile (p := f) (l := c.rest)
  exact (List.append_cancel_left (h'.trans h)).symm

/-- `t` does not start with an `f`-element. -/
def Stops (f : α → Bool) (t : List α) : Prop := ∀ x s, t = x :: s → f x = false

theorem Stops.nil (f : α → Bool) : Stops f [] := fun _ _ h => absurd h (by simp)

theorem Stops.cons {f : α → Bool} {x : α} {t : List α} (h : f x = false) : Stops f (x :: t) :=
  fun _ _ he => (List.cons.inj he).1 ▸ h

theorem stops_skipWhile (f : α → Bool) (c : Cursor α) : Stops f (c.skipWhile f).rest := by
  intro x s hx
  rw [skipWhile_rest] at hx
  have := List.head_dropWhile_not f (l := c.rest) (by rw [hx]; simp)
  simpa [hx] using this

/-- **The loop stops where the run does.** -/
theorem skipWhile_eq {f : α → Bool} {c d : Cursor α} {w : List α} (h : Reads c w d)
    (hw : ∀ x ∈ w, f x = true) (hd : Stops f d.rest) : c.skipWhile f = d := by
  refine (skipWhile_reads f c).unique ?_
  have htake : c.rest.takeWhile f = w := by
    rw [h.rest, List.takeWhile_append_of_pos hw]
    cases hr : d.rest with
    | nil => rw [List.takeWhile_nil, List.append_nil]
    | cons x s =>
      rw [List.takeWhile_cons_of_neg (by rw [hd x s hr]; exact Bool.false_ne_true),
        List.append_nil]
  rw [htake]
  exact h

/-- What the loop skipped. -/
theorem exists_skipWhile (f : α → Bool) (c : Cursor α) :
    ∃ w, Reads c w (c.skipWhile f) ∧ (∀ x ∈ w, f x = true) ∧ Stops f (c.skipWhile f).rest :=
  ⟨_, skipWhile_reads f c, fun _ hx => List.mem_takeWhile_imp hx, stops_skipWhile f c⟩

/-! ## One position in two texts -/

/-- The same position, in `s` and in the longer text `s ++ t`. -/
structure Grown (s t : List α) (c d : Cursor α) : Prop where
  text : c.text = s
  text' : d.text = s ++ t
  pos : d.pos = c.pos

namespace Grown

variable {s t : List α} {c d : Cursor α}

theorem start (s t : List α) : Grown s t (start s) (start (s ++ t)) := ⟨rfl, rfl, rfl⟩

theorem rest (h : Grown s t c d) : d.rest = c.rest ++ t := by
  have hle := c.pos_le
  rw [h.text] at hle
  rw [Cursor.rest, Cursor.rest, h.text, h.text', h.pos, List.drop_append_of_le_length hle]

/-- Inside the shorter text the two read the same element. -/
theorem getElem (h : Grown s t c d) (hc : c.pos < c.text.length) :
    ∃ hd : d.pos < d.text.length, d.text[d.pos] = c.text[c.pos] ∧
      Grown s t (c.next hc) (d.next hd) := by
  have hrest := h.rest
  rw [c.rest_eq_cons hc, List.cons_append] at hrest
  have hd := pos_lt_of_rest hrest
  exact ⟨hd, (getElem_of_rest hrest hd).1, h.text, h.text', congrArg (· + 1) h.pos⟩

/-- The loop does not see what is behind the place where it stopped. -/
theorem skipWhile {f : α → Bool} (h : Grown s t c d) (hc : (c.skipWhile f).rest ≠ []) :
    Grown s t (c.skipWhile f) (d.skipWhile f) := by
  obtain ⟨w, hw, hall, hstops⟩ := exists_skipWhile f c
  obtain ⟨e, he, hrest⟩ : ∃ e, Reads d w e ∧ e.rest = (c.skipWhile f).rest ++ t :=
    exists_reads (by rw [h.rest, hw.rest, List.append_assoc])
  have hstops' : Stops f e.rest := by
    intro x l hx
    rw [hrest] at hx
    cases hr : (c.skipWhile f).rest with
    | nil => exact absurd hr hc
    | cons y l' =>
      rw [hr, List.cons_append] at hx
      exact (List.cons.inj hx).1 ▸ hstops y l' hr
  rw [skipWhile_eq he hall hstops']
  exact ⟨hw.text.trans h.text, he.text.trans h.text', by rw [he.pos, hw.pos, h.pos]⟩

end Grown

end Cursor

end CppExamples.Lib
