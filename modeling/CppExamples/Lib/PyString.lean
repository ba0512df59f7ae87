import Mathlib.Data.List.DropRight
import Mathlib.Data.List.Infix
import Mathlib.Data.List.TakeWhile

/-!
# Python strings

A `str` is the list of its characters.

* `isspace`: the characters that `str.isspace` accepts, which `strip` and `split` without arguments
  drop.
* `strip`, `words` (`s.split()`), `split` (`s.split(sep)`, for a separator that is not empty).
* `intercalate_split`: `sep.join(s.split(sep))` is `s`.
* `split_append_sep`: the text before the first separator is the first token.
* `words_suffix_of_getLast`: the words of the last token are the last words.
-/

namespace CppExamples.Lib.PyString

/-- `str`. -/
abbrev Str := List Char

/-- `str.isspace`, of one character. -/
def isspace (c : Char) : Bool :=
  let n := c.toNat
  (0x09 ≤ n && n ≤ 0x0D) || (0x1C ≤ n && n ≤ 0x20) || n == 0x85 || n == 0xA0 || n == 0x1680 ||
    (0x2000 ≤ n && n ≤ 0x200A) || n == 0x2028 || n == 0x2029 || n == 0x202F || n == 0x205F ||
    n == 0x3000

/-- `s.strip()`. -/
def strip (s : Str) : Str := (s.dropWhile isspace).rdropWhile isspace

/-- `s.split()`. -/
def words (s : Str) : List Str := (s.splitOnP isspace).filter (!·.isEmpty)

/-- `s.split(sep)`, where the next characters belong to a separator already found. -/
def splitFrom (sep : Str) : Nat → Str → List Str
  | _, [] => [[]]
  | skip + 1, _ :: s => splitFrom sep skip s
  | 0, c :: s =>
    if sep <+: c :: s then [] :: splitFrom sep (sep.length - 1) s
    else (splitFrom sep 0 s).modifyHead (c :: ·)

/-- `s.split(sep)`. -/
def split (sep s : Str) : List Str := splitFrom sep 0 s

/-! ## Words -/

variable {s t sep : Str} {c : Char}

/-- A space separates words. -/
theorem words_append_cons (h : isspace c) (s t : Str) :
    words (s ++ c :: t) = words s ++ words t := by
  unfold words
  rw [List.splitOnP_append_cons _ _ h, List.filter_append]

/-- Spaces have no words. -/
theorem words_of_isspace (h : ∀ c ∈ s, isspace c) : words s = [] := by
  induction s with
  | nil => rfl
  | cons c s ih =>
    rw [List.forall_mem_cons] at h
    have hsplit := words_append_cons h.1 [] s
    rw [List.nil_append, ih h.2] at hsplit
    exact hsplit

/-- Spaces behind a text do not change its words. -/
theorem words_append_of_isspace (s : Str) (h : ∀ c ∈ t, isspace c) :
    words (s ++ t) = words s := by
  cases t with
  | nil => rw [List.append_nil]
  | cons c t =>
    rw [List.forall_mem_cons] at h
    rw [words_append_cons h.1, words_of_isspace h.2, List.append_nil]

/-! ## Tokens -/

theorem splitFrom_eq (skip : Nat) (s : Str) : splitFrom sep skip s = split sep (s.drop skip) := by
  induction skip generalizing s with
  | zero => rfl
  | succ skip ih =>
    cases s with
    | nil => rfl
    | cons c s => exact ih s

theorem split_cons_of_not_sep (h : ¬ sep <+: c :: s) :
    split sep (c :: s) = (split sep s).modifyHead (c :: ·) := by
  unfold split
  rw [splitFrom, if_neg h]

/-- A separator at the beginning. -/
theorem split_sep_append (hsep : sep ≠ []) (s : Str) : split sep (sep ++ s) = [] :: split sep s := by
  cases sep with
  | nil => exact absurd rfl hsep
  | cons a sep =>
    have hprefix : a :: sep <+: a :: (sep ++ s) := List.prefix_append (a :: sep) s
    rw [List.cons_append, split, splitFrom, if_pos hprefix, splitFrom_eq, List.length_cons,
      Nat.add_sub_cancel, List.drop_left]

/-- **The induction of `split`.** A text is empty, or begins with a separator, or does not. -/
theorem split_induction {P : Str → Prop} (hsep : sep ≠ []) (nil : P [])
    (sep_append : ∀ s, P s → P (sep ++ s))
    (cons : ∀ c s, ¬ sep <+: c :: s → P s → P (c :: s)) (s : Str) : P s := by
  induction hn : s.length using Nat.strong_induction_on generalizing s with
  | _ n ih =>
    cases s with
    | nil => exact nil
    | cons c s =>
      by_cases h : sep <+: c :: s
      · obtain ⟨rest, hrest⟩ := h
        have hlen := congrArg List.length hrest
        rw [List.length_append] at hlen
        have hpos := List.length_pos_of_ne_nil hsep
        rw [← hrest]
        exact sep_append rest (ih rest.length (by omega) rest rfl)
      · rw [List.length_cons] at hn
        exact cons c s h (ih s.length (by omega) s rfl)

theorem split_ne_nil (hsep : sep ≠ []) (s : Str) : split sep s ≠ [] := by
  induction s using split_induction hsep with
  | nil => exact List.cons_ne_nil _ _
  | sep_append s ih =>
    rw [split_sep_append hsep]
    exact List.cons_ne_nil _ _
  | cons c s h ih =>
    rw [split_cons_of_not_sep h]
    cases hs : split sep s with
    | nil => exact absurd hs ih
    | cons token tokens => exact List.cons_ne_nil _ _

/-- `sep.join(s.split(sep))` is `s`. -/
theorem intercalate_split (hsep : sep ≠ []) (s : Str) : sep.intercalate (split sep s) = s := by
  induction s using split_induction hsep with
  | nil => rfl
  | sep_append s ih =>
    rw [split_sep_append hsep, List.intercalate_cons_of_ne_nil (split_ne_nil hsep s), ih,
      List.nil_append]
  | cons c s h ih =>
    rw [split_cons_of_not_sep h]
    cases hs : split sep s with
    | nil => exact absurd hs (split_ne_nil hsep s)
    | cons token tokens =>
      rw [List.modifyHead_cons, List.intercalate_cons_cons_left, ← hs, ih]

/-- A text in which the separator does not begin is the token in front of the separator. -/
theorem split_append_sep (hsep : sep ≠ []) (hs : ∀ u, u <:+ s → u ≠ [] → ¬ sep <+: u ++ sep)
    (t : Str) : split sep (s ++ sep ++ t) = s :: split sep t := by
  induction s with
  | nil => exact split_sep_append hsep t
  | cons c s ih =>
    have hhead : ¬ sep <+: c :: (s ++ sep ++ t) := by
      intro h
      have hlonger : c :: s ++ sep <+: c :: (s ++ sep ++ t) := by
        rw [List.cons_append, List.cons_prefix_cons]
        exact ⟨rfl, List.prefix_append _ _⟩
      refine hs (c :: s) List.suffix_rfl (List.cons_ne_nil c s) ?_
      exact List.prefix_of_prefix_length_le h hlonger (by rw [List.length_append]; omega)
    have htail := ih fun u hu => hs u (hu.trans (List.suffix_cons c s))
    rw [List.cons_append, List.cons_append, split_cons_of_not_sep hhead, htail,
      List.modifyHead_cons]

/-- Without the first character of the separator there is one token. -/
theorem split_of_not_mem {a : Char} (h : a ∉ s) : split (a :: sep) s = [s] := by
  induction s with
  | nil => rfl
  | cons c s ih =>
    rw [List.mem_cons, not_or] at h
    have hhead : ¬ a :: sep <+: c :: s := fun hprefix => h.1 (List.cons_prefix_cons.mp hprefix).1
    rw [split_cons_of_not_sep hhead, ih h.2, List.modifyHead_cons]

theorem intercalate_concat (init : List Str) (last : Str) :
    sep.intercalate (init ++ [last]) = init.flatMap (· ++ sep) ++ last := by
  induction init with
  | nil => exact List.intercalate_singleton
  | cons token init ih =>
    have hne : init ++ [last] ≠ [] := List.append_ne_nil_of_right_ne_nil _ (List.cons_ne_nil _ _)
    rw [List.cons_append, List.intercalate_cons_of_ne_nil hne, ih, List.flatMap_cons]
    simp only [List.append_assoc]

/-- Where separators end with a space, the words of a text end with those of its last token. -/
theorem words_suffix_of_getLast {sp : Char} (hsp : isspace sp) {last : Str}
    (h : (split (sep ++ [sp]) s).getLast? = some last) : words last <:+ words s := by
  obtain ⟨init, hsplit⟩ := List.getLast?_eq_some_iff.mp h
  have hs := intercalate_split (List.append_ne_nil_of_right_ne_nil sep (List.cons_ne_nil sp [])) s
  rw [hsplit, intercalate_concat] at hs
  rw [← hs]
  cases init using List.reverseRecOn with
  | nil => exact List.suffix_rfl
  | append_singleton init token =>
    rw [List.flatMap_append, List.flatMap_singleton, List.append_assoc, List.append_assoc,
      List.append_assoc, List.singleton_append, ← List.append_assoc, ← List.append_assoc,
      words_append_cons hsp]
    exact List.suffix_append _ _

end CppExamples.Lib.PyString
