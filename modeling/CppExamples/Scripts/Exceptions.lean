import CppExamples.Scripts.Time2Trace

/-!
# Which lines end the parse (`cmake/time2trace.py:22-64`)

`parseLine` logs a missing field and a text that is no time, and means to go on. It does not always:

* the user time is taken from `tokens[1]`, before the number of tokens is looked at;
* after the `ValueError` of a text that is no time, `t` is read and has no value;
* a time of more than 174 parts has a power of 60 that no `float` holds;
* a value without a word has no last word, which is found out when the row is made, at the next
  command.

`Harmless` says of the values in `sections` and of a line that none of these is met. `held` is what
`sections` holds after a line, whether or not the line ends the parse.

* `parse_completes_iff`: `parseLine` returns if and only if the line is harmless, and `main` gets to
  the end of the file if and only if each line is harmless behind the lines before it.
-/

namespace CppExamples.Scripts.Time2Trace

open Lib Lib.PyString

variable (number : Str → Bool)

/-! ## Harmless lines -/

/-- `tokens[0]`. -/
def label (line : Str) : Str := strip ((split colon line).headD [])

/-- The values of the labels in front of the first one that `sections` does not have, which raises
the `KeyError` that is caught, have words. -/
def HasWords (sections : Str → Option Str) (labels : List Str) : Prop :=
  ∀ name ∈ labels.takeWhile fun name => (sections name).isSome,
    ∀ value ∈ sections name, words value ≠ []

/-- At most 174 parts, each a number. -/
def IsTime (token : Str) : Prop :=
  (∀ x ∈ split [':'] token, number x) ∧ (split [':'] token).length ≤ 174

/-- A line that does not end the parse, with the values that `sections` holds before it. -/
structure Harmless (sections : Str → Option Str) (line : Str) : Prop where
  row : label line = cmd → HasWords sections names
  time : label line = cpuTime → ∃ token, (split colon line)[1]? = some token ∧ IsTime number token

/-- `sections` after a line: the command clears it first. -/
def held (sections : Str → Option Str) (line : Str) : Str → Option Str :=
  (store { sections := if label line = cmd then fun _ => none else sections } (label line)
    (split colon line)).sections

/-! ## The row -/

variable {sections : Str → Option Str} {number : Str → Bool}

theorem item_of_words {name value : Str} (h : sections name = some value) (hwords : words value ≠ []) :
    ∃ word, item sections name = .ok word := by
  obtain ⟨word, hword⟩ := Option.ne_none_iff_exists'.mp (mt List.getLast?_eq_none_iff.mp hwords)
  exact ⟨word, item_eq_ok h hword⟩

theorem item_of_words_eq_nil {name value : Str} (h : sections name = some value)
    (hwords : words value = []) : item sections name = .error .indexError := by
  rw [item, h]
  simp only [hwords, List.getLast?_nil]

/-- The items are made, or a label is missing, if and only if the values looked at have words. -/
theorem mapM_item_iff (labels : List Str) :
    ((∃ items, labels.mapM (item sections) = .ok items) ∨
      labels.mapM (item sections) = .error .keyError) ↔ HasWords sections labels := by
  induction labels with
  | nil => exact ⟨fun _ name h => absurd h List.not_mem_nil, fun _ => .inl ⟨[], rfl⟩⟩
  | cons name labels ih =>
    unfold HasWords at ih ⊢
    rw [List.mapM_cons]
    cases h : sections name with
    | none =>
      have hitem : item sections name = .error .keyError := by rw [item, h]
      rw [hitem, List.takeWhile_cons_of_neg (by simp [h])]
      exact ⟨fun _ name h => absurd h List.not_mem_nil, fun _ => .inr rfl⟩
    | some value =>
      rw [List.takeWhile_cons_of_pos (by simp [h]), List.forall_mem_cons, h, ← ih]
      by_cases hwords : words value = []
      · rw [item_of_words_eq_nil h hwords]
        refine ⟨?_, fun hall => absurd hwords (hall.1 value rfl)⟩
        rintro (⟨items, hitems⟩ | hkey)
        · cases hitems
        · cases hkey
      · obtain ⟨word, hword⟩ := item_of_words h hwords
        have hvalue : ∀ v ∈ some value, words v ≠ [] := fun v hv => Option.some.inj hv ▸ hwords
        rw [hword, and_iff_right hvalue]
        cases labels.mapM (item sections) with
        | ok items => exact ⟨fun _ => .inl ⟨items, rfl⟩, fun _ => .inl ⟨_, rfl⟩⟩
        | error e => exact Iff.rfl

theorem exists_newItem_iff {s : State} :
    (∃ s', newItem s = .ok s') ↔ HasWords s.sections names := by
  rw [← mapM_item_iff, newItem]
  cases names.mapM (item s.sections) with
  | ok items => exact ⟨fun _ => .inl ⟨items, rfl⟩, fun _ => ⟨_, rfl⟩⟩
  | error e =>
    cases e <;> simp

/-! ## The user time -/

theorem floatBound_le_iff (i : Nat) : floatBound ≤ 60 ^ i ↔ 174 ≤ i := by
  have hsmall : 60 ^ 173 < floatBound := by decide +kernel
  have hlarge : floatBound ≤ 60 ^ 174 := by decide +kernel
  constructor
  · intro h
    by_contra hi
    have hle : 60 ^ i ≤ 60 ^ 173 := Nat.pow_le_pow_right (by omega) (by omega)
    exact absurd (Nat.le_trans h hle) (Nat.not_le.mpr hsmall)
  · intro h
    exact Nat.le_trans hlarge (Nat.pow_le_pow_right (by omega) h)

theorem seconds_eq_ok_iff {xs : List Str} {i : Nat} (hi : i ≤ 174) :
    seconds number i xs = .ok () ↔ (∀ x ∈ xs, number x) ∧ i + xs.length ≤ 174 := by
  induction xs generalizing i with
  | nil => exact ⟨fun _ => ⟨fun x h => absurd h List.not_mem_nil, hi⟩, fun _ => rfl⟩
  | cons x xs ih =>
    rw [seconds, List.forall_mem_cons, List.length_cons]
    cases number x with
    | false => simp
    | true =>
      rw [Bool.not_true, if_neg Bool.false_ne_true]
      by_cases hlast : i = 174
      · rw [if_pos ((floatBound_le_iff i).mpr (by omega))]
        constructor
        · intro h
          cases h
        · rintro ⟨-, hlen⟩
          omega
      · rw [if_neg (mt (floatBound_le_iff i).mp (by omega)), ih (by omega), Nat.add_right_comm,
          ← Nat.add_assoc, eq_self_iff_true, true_and]

theorem userTime_eq_ok_iff {token? : Option Str} :
    userTime number token? = .ok () ↔ ∃ token, token? = some token ∧ IsTime number token := by
  cases token? with
  | none => simp [userTime]
  | some token =>
    have hsome : (∃ t, some token = some t ∧ IsTime number t) ↔ IsTime number token := by simp
    rw [hsome, IsTime, ← Nat.zero_add (split [':'] token).length,
      ← seconds_eq_ok_iff (Nat.zero_le 174), userTime]
    cases seconds number 0 (split [':'] token) with
    | ok u => rfl
    | error e => cases e <;> simp

/-! ## One line -/

variable {s s' : State} {line : Str}

/-- The exceptions of the row come first. -/
theorem parseLine_eq (number : Str → Bool) (s : State) (line : Str) : parseLine number s line =
    (if label line = cmd then newItem s else .ok s).bind fun u =>
      (if label line = cpuTime then userTime number (split colon line)[1]? else .ok ()).map fun _ =>
        store u (label line) (split colon line) := by
  unfold parseLine label
  dsimp only
  generalize strip ((split colon line).headD []) = token
  split_ifs
  · rfl
  · rfl
  · rfl
  · rfl

theorem parseLine_eq_ok_iff : parseLine number s line = .ok s' ↔
    ∃ u, (if label line = cmd then newItem s else .ok s) = .ok u ∧
      (label line = cpuTime → userTime number (split colon line)[1]? = .ok ()) ∧
      s' = store u (label line) (split colon line) := by
  rw [parseLine_eq]
  cases (if label line = cmd then newItem s else .ok s) with
  | error e => simp [Except.bind]
  | ok u =>
    by_cases htime : label line = cpuTime
    · rw [if_pos htime]
      cases userTime number (split colon line)[1]? with
      | error e => simp [Except.bind, Except.map, htime]
      | ok u => simp [Except.bind, Except.map, eq_comm]
    · rw [if_neg htime]
      simp [Except.bind, Except.map, htime, eq_comm]

theorem exists_parseLine_iff :
    (∃ s', parseLine number s line = .ok s') ↔ Harmless number s.sections line := by
  simp only [parseLine_eq_ok_iff]
  constructor
  · rintro ⟨-, u, hu, htime, rfl⟩
    refine ⟨fun hcmd => ?_, fun hlabel => userTime_eq_ok_iff.mp (htime hlabel)⟩
    rw [if_pos hcmd] at hu
    exact exists_newItem_iff.mp ⟨u, hu⟩
  · intro h
    have htime := fun hlabel => userTime_eq_ok_iff.mpr (h.time hlabel)
    by_cases hcmd : label line = cmd
    · obtain ⟨u, hu⟩ := exists_newItem_iff.mpr (h.row hcmd)
      exact ⟨_, u, by rw [if_pos hcmd, hu], htime, rfl⟩
    · exact ⟨_, s, if_neg hcmd, htime, rfl⟩

theorem store_sections (s : State) (token : Str) (tokens : List Str) :
    (store s token tokens).sections = (store { sections := s.sections } token tokens).sections := by
  unfold store
  split
  · rfl
  · rfl

theorem parseLine_sections (h : parseLine number s line = .ok s') :
    s'.sections = held s.sections line := by
  obtain ⟨u, hu, -, rfl⟩ := parseLine_eq_ok_iff.mp h
  rw [store_sections, held]
  by_cases hcmd : label line = cmd
  · rw [if_pos hcmd] at hu
    rw [if_pos hcmd, newItem_sections hu]
  · rw [if_neg hcmd] at hu
    rw [if_neg hcmd, ← Except.ok.inj hu]

/-! ## Files -/

/-- The loop ends without an exception if and only if each line is harmless in its turn. -/
theorem loop_eq_none_iff (s : State) (lines : List Str) : (loop number s lines).2 = none ↔
    ∀ before line after, lines = before ++ line :: after →
      Harmless number (before.foldl held s.sections) line := by
  induction lines generalizing s with
  | nil =>
    refine ⟨fun _ before line after h => absurd h.symm ?_, fun _ => rfl⟩
    exact List.append_ne_nil_of_right_ne_nil _ (List.cons_ne_nil _ _)
  | cons first lines ih =>
    rw [loop]
    constructor
    · intro h before line after hlines
      cases hfirst : parseLine number s first with
      | error e =>
        rw [hfirst] at h
        cases h
      | ok s' =>
        rw [hfirst] at h
        cases before with
        | nil =>
          obtain ⟨rfl, -⟩ := List.cons.inj hlines
          exact exists_parseLine_iff.mp ⟨s', hfirst⟩
        | cons l before =>
          obtain ⟨rfl, hrest⟩ := List.cons.inj hlines
          rw [List.foldl_cons, ← parseLine_sections hfirst]
          exact (ih s').mp h before line after hrest
    · intro h
      obtain ⟨s', hfirst⟩ := exists_parseLine_iff.mpr (h [] first lines rfl)
      rw [hfirst]
      refine (ih s').mpr fun before line after hlines => ?_
      have hline := h (first :: before) line after (congrArg (first :: ·) hlines)
      rwa [List.foldl_cons, ← parseLine_sections hfirst] at hline

/-- **Which lines end the parse.** `parseLine` returns if and only if the line is harmless, whatever
`sections` holds, and `main` gets to the end of a file if and only if each of its lines is harmless,
with what the lines before it leave in `sections`. -/
theorem parse_completes_iff (number : Str → Bool) :
    (∀ s line, (∃ s', parseLine number s line = .ok s') ↔ Harmless number s.sections line) ∧
    ∀ lines, (main number lines).2 = none ↔
      ∀ before line after, lines = before ++ line :: after →
        Harmless number (before.foldl held fun _ => none) line := by
  refine ⟨fun s line => exists_parseLine_iff, fun lines => ?_⟩
  exact loop_eq_none_iff {} lines

/-- A user time without a value, one that is no number, and one whose last token has no word, which
the next command finds. -/
theorem parse_aborted :
    (¬ ∃ s', parseLine (fun _ => true) {} "User time (seconds)\n".toList = .ok s') ∧
    (main (fun _ => true) ["User time (seconds)\n".toList, "Page size (bytes): 4096\n".toList]).2 =
      some .indexError ∧
    (main (fun _ => false) ["User time (seconds): unknown\n".toList]).2 =
      some .unboundLocalError ∧
    (main (fun _ => true) ["User time (seconds): 1: \n".toList,
      "Command being timed: make\n".toList]).2 = some .indexError := by
  refine ⟨?_, by decide +kernel, by decide +kernel, by decide +kernel⟩
  rw [exists_parseLine_iff]
  intro h
  obtain ⟨token, htoken, -⟩ := h.time (by decide +kernel)
  have hnone : (split colon "User time (seconds)\n".toList)[1]? = none := by decide +kernel
  rw [hnone] at htoken
  cases htoken

end CppExamples.Scripts.Time2Trace
