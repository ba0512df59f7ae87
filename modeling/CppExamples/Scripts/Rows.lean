import CppExamples.Scripts.Exceptions

/-!
# What `main` prints for any file (`cmake/time2trace.py:22-64`)

`main_eq` is about logs of well-formed records. This module says what is printed for every file that
`main` gets to the end of, whatever its lines are.

* A segment is a line of a command with the lines up to the next one. The lines in front of the
  first command are in no segment.
* The value of a label in a segment is that of its last line that has one (`value`).

Result: `main_prints`. The rows are those of all segments but the last that have a value for each of
the five labels. So no line has an effect on the row of another segment, and what is in front of the
first command and behind the last one is not printed.
-/

namespace CppExamples.Scripts.Time2Trace

open Lib Lib.PyString

/-! ## Segments -/

/-- The lines up to the next command. -/
def body (lines : List Str) : List Str := lines.takeWhile fun line => !decide (label line = cmd)

/-- The commands, each with its lines. -/
def segments : List Str → List (List Str)
  | [] => []
  | line :: lines => if label line = cmd then (line :: body lines) :: segments lines else segments lines

/-- What a line stores under its label, if anything. -/
def lineValue (line : Str) : Option Str :=
  if (split colon line).length > 2 then (split colon line).getLast? else (split colon line)[1]?

/-- The value of a label: that of the last line that has one. -/
def value (segment : List Str) (name : Str) : Option Str :=
  segment.reverse.findSome? fun line => if label line = name then lineValue line else none

/-- The row of a segment, if it has a value for each label: the last word of each value. -/
def row (segment : List Str) : Option Str :=
  (names.mapM fun name => (value segment name).bind fun text => (words text).getLast?).map joinItems

/-! ## `sections` -/

variable {sections : Str → Option Str} {line : Str} {number : Str → Bool}

theorem store_eq (s : State) (token line name : Str) :
    (store s token (split colon line)).sections name =
      (if token = name then lineValue line else none).or (s.sections name) := by
  unfold store lineValue
  cases (if (split colon line).length > 2 then (split colon line).getLast?
      else (split colon line)[1]?) with
  | none => rw [ite_self, Option.none_or]
  | some text =>
    by_cases hname : token = name
    · rw [if_pos hname, hname]
      exact Function.update_self name (some text) s.sections
    · rw [if_neg hname]
      exact Function.update_of_ne (Ne.symm hname) (some text) s.sections

/-- A line that is no command. -/
theorem held_of_not_command (h : label line ≠ cmd) (name : Str) :
    held sections line name =
      (if label line = name then lineValue line else none).or (sections name) := by
  rw [held, if_neg h, store_eq]

/-- A command clears `sections` first. -/
theorem held_of_command (h : label line = cmd) : held sections line = held (fun _ => none) line := by
  rw [held, held, if_pos h, if_pos h]

theorem value_concat (segment : List Str) (line name : Str) : value (segment ++ [line]) name =
    (if label line = name then lineValue line else none).or (value segment name) := by
  rw [value, List.reverse_append, List.reverse_singleton, List.singleton_append, List.findSome?_cons,
    value]
  cases (if label line = name then lineValue line else none) <;> rfl

/-- `sections` holds the values of the lines. -/
def Holds (sections : Str → Option Str) (segment : List Str) : Prop :=
  ∀ name, sections name = value segment name

/-- One more line of the segment. -/
theorem Holds.concat {segment : List Str} (h : Holds sections segment) (hline : label line ≠ cmd) :
    Holds (held sections line) (segment ++ [line]) := by
  intro name
  rw [held_of_not_command hline, value_concat, h name]

/-- The command of a segment. -/
theorem Holds.command (hline : label line = cmd) : Holds (held sections line) [line] := by
  intro name
  have hvalue := value_concat [] line name
  rw [List.nil_append] at hvalue
  rw [held_of_command hline, held, if_pos hline, store_eq, hvalue]
  rfl

/-! ## Rows -/

/-- An item is the last word of the value; a missing one is a `KeyError`. -/
theorem item_cases (name : Str) (hwords : ∀ text ∈ sections name, words text ≠ []) :
    (∃ word, item sections name = .ok word ∧
      ((sections name).bind fun text => (words text).getLast?) = some word) ∨
    (item sections name = .error .keyError ∧ sections name = none) := by
  cases h : sections name with
  | none => exact .inr ⟨by rw [item, h], rfl⟩
  | some text =>
    obtain ⟨word, hword⟩ :=
      Option.ne_none_iff_exists'.mp (mt List.getLast?_eq_none_iff.mp (hwords text h))
    exact .inl ⟨word, item_eq_ok h hword, hword⟩

/-- The items are those of the row, or one is missing and there is no row. -/
theorem mapM_item_cases {labels : List Str} (h : HasWords sections labels) :
    (∃ items, labels.mapM (item sections) = .ok items ∧
      (labels.mapM fun name => (sections name).bind fun text => (words text).getLast?) =
        some items) ∨
    (labels.mapM (item sections) = .error .keyError ∧
      (labels.mapM fun name => (sections name).bind fun text => (words text).getLast?) = none) := by
  induction labels with
  | nil => exact .inl ⟨[], rfl, rfl⟩
  | cons name labels ih =>
    rw [List.mapM_cons, List.mapM_cons]
    unfold HasWords at h ih
    cases hname : sections name with
    | none =>
      have hitem : item sections name = .error .keyError := by rw [item, hname]
      rw [hitem]
      exact .inr ⟨rfl, rfl⟩
    | some text =>
      rw [List.takeWhile_cons_of_pos (by simp [hname]), List.forall_mem_cons] at h
      rcases item_cases name h.1 with ⟨word, hitem, hword⟩ | ⟨-, hnone⟩
      · rw [hname, Option.bind_some] at hword
        rw [hitem, Option.bind_some, hword]
        rcases ih h.2 with ⟨items, hok, hsome⟩ | ⟨herror, hnone⟩
        · rw [hok, hsome]
          exact .inl ⟨word :: items, rfl, rfl⟩
        · rw [herror, hnone]
          exact .inr ⟨rfl, rfl⟩
      · rw [hname] at hnone
        cases hnone

/-- A command prints the row of the segment before it. -/
theorem newItem_prints {s s' : State} {segment : List Str} (hs : Holds s.sections segment)
    (h : newItem s = .ok s') : s'.out = s.out ++ (row segment).toList := by
  have hrow : row segment = (names.mapM fun name =>
      (s.sections name).bind fun text => (words text).getLast?).map joinItems := by
    unfold row
    simp only [hs _]
  rw [newItem] at h
  rcases mapM_item_cases (exists_newItem_iff.mp ⟨s', by rw [newItem]; exact h⟩) with
    ⟨items, hok, hsome⟩ | ⟨herror, hnone⟩
  · rw [hok] at h
    rw [hrow, hsome, ← Except.ok.inj h]
    rfl
  · rw [herror] at h
    rw [hrow, hnone, ← Except.ok.inj h]
    exact (List.append_nil _).symm

/-! ## Files -/

/-- The loop, behind some lines of a segment: the row of the segment comes first if a command
follows. -/
theorem loop_prints {s : State} {segment lines : List Str} (hs : Holds s.sections segment)
    (h : (loop number s lines).2 = none) : (loop number s lines).1.out =
      s.out ++ ((segment ++ body lines) :: segments lines).dropLast.filterMap row := by
  induction lines generalizing s segment with
  | nil => exact (List.append_nil _).symm
  | cons line lines ih =>
    rw [loop] at h ⊢
    cases hline : parseLine number s line with
    | error e =>
      rw [hline] at h
      cases h
    | ok s' =>
      rw [hline] at h
      have hsections := parseLine_sections hline
      obtain ⟨u, hu, -, hstore⟩ := parseLine_eq_ok_iff.mp hline
      have hout : s'.out = u.out := by
        rw [hstore, store]
        split <;> rfl
      by_cases hcmd : label line = cmd
      · have hnext : Holds s'.sections [line] := hsections ▸ Holds.command hcmd
        rw [if_pos hcmd] at hu
        have hbody : body (line :: lines) = [] := by
          rw [body, List.takeWhile_cons_of_neg (by simpa using hcmd)]
        rw [segments, if_pos hcmd, hbody, List.append_nil, List.dropLast_cons_cons,
          List.filterMap_cons]
        refine (ih hnext h).trans ?_
        rw [hout, newItem_prints hs hu, List.append_assoc, List.singleton_append]
        cases row segment <;> rfl
      · have hnext : Holds s'.sections (segment ++ [line]) := hsections ▸ hs.concat hcmd
        rw [if_neg hcmd] at hu
        have hbody : body (line :: lines) = line :: body lines := by
          rw [body, List.takeWhile_cons_of_pos (by simpa using hcmd)]
          rfl
        rw [segments, if_neg hcmd, hbody]
        refine (ih hnext h).trans ?_
        rw [hout, ← Except.ok.inj hu, List.append_assoc, List.singleton_append]

theorem value_of_not_command {segment : List Str} (h : ∀ line ∈ segment, label line ≠ cmd) :
    value segment cmd = none := by
  rw [value, List.findSome?_eq_none_iff]
  intro line hline
  exact if_neg (h line (List.mem_reverse.mp hline))

/-- Without a command there is no row. -/
theorem row_of_not_command {segment : List Str} (h : ∀ line ∈ segment, label line ≠ cmd) :
    row segment = none := by
  have hmissing : ∀ labels : List Str, cmd ∈ labels →
      (labels.mapM fun name => (value segment name).bind fun text => (words text).getLast?) = none := by
    intro labels
    induction labels with
    | nil => exact fun hmem => absurd hmem List.not_mem_nil
    | cons name labels ih =>
      intro hmem
      rw [List.mapM_cons]
      rcases List.mem_cons.mp hmem with rfl | hmem
      · rw [value_of_not_command h]
        rfl
      · rw [ih hmem]
        cases (value segment name).bind fun text => (words text).getLast? <;> rfl
  rw [row, hmissing names (by decide)]
  rfl

/-- **What is printed.** If `main` gets to the end of the file, it has printed the header and the
rows of all segments but the last that have a value for each label. -/
theorem main_prints (number : Str → Bool) (lines : List Str) (h : (main number lines).2 = none) :
    (main number lines).1 =
      joinItems (goodParts.map Prod.fst) :: (segments lines).dropLast.filterMap row := by
  have hempty : Holds ({} : State).sections [] := fun _ => rfl
  have hloop : (loop number {} lines).1.out = _ := loop_prints hempty h
  have hmain : (main number lines).1 =
      joinItems (goodParts.map Prod.fst) :: (loop number {} lines).1.out := rfl
  rw [hmain, hloop, List.nil_append, List.nil_append]
  congr 1
  cases hsegments : segments lines with
  | nil => rfl
  | cons segment rest =>
    have hnone : row (body lines) = none := by
      refine row_of_not_command fun line hline => ?_
      simpa using List.mem_takeWhile_imp hline
    rw [List.dropLast_cons_cons, List.filterMap_cons, hnone]

/-- A line of no record, and two records: the first one is printed. -/
theorem main_prints_two :
    (main (fun _ => true) ("make: Nothing to be done\n".toList :: log [sample, sample])).1 =
      joinItems (goodParts.map Prod.fst) ::
        (segments ("make: Nothing to be done\n".toList :: log [sample, sample])).dropLast.filterMap row :=
  main_prints (fun _ => true) _ (by decide +kernel)

end CppExamples.Scripts.Time2Trace
