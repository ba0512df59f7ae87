import CppExamples.Lib.PyString
import Mathlib.Algebra.Group.Nat.Defs

/-!
# `time2trace.py` (`cmake/time2trace.py:12-64`)

`parseLine` keeps the values of the lines in the dictionary `sections`. A line `Command being timed`
prints the values that `sections` has, as a row, and clears it; so a row is printed when the next
record begins. What is logged goes to the standard error output and is left out, with the branch
that only logs; `argparse` is left out too, and `main` takes the lines of the file.

* A `KeyError` is caught where the row is made. An `IndexError` is not: it ends the program where a
  value has no word. Neither are the exceptions of the user time: after a `ValueError` the variable
  `t` has no value, and `60**i` is too large for a `float` from `i = 174` on.
* `number` says which texts `float` accepts, with whatever spaces are around them: `float` does not
  ignore all that `strip` does. No row depends on it.

A log is a list of `Record`s. Results:

* `main_eq`: where the text behind the last `": "` of each value has a word, `main` ends without an
  exception and prints the rows of all records but the last.
* `printsAll_iff`: so it prints the rows of all records only if there are none.
-/

namespace CppExamples.Scripts.Time2Trace

open Lib Lib.PyString

/-! ## The script -/

inductive Exc where
  | keyError
  | indexError
  | valueError
  | overflowError
  | unboundLocalError
  deriving DecidableEq

/-- `goodParts['cpuTime']`. -/
def cpuTime : Str := "User time (seconds)".toList

/-- `goodParts['cmd']`. -/
def cmd : Str := "Command being timed".toList

/-- `goodParts`. -/
def goodParts : List (Str × Str) :=
  [("cpuTime".toList, cpuTime),
    ("memory(kB)".toList, "Maximum resident set size (kbytes)".toList),
    ("pageFaults".toList, "Minor (reclaiming a frame) page faults".toList),
    ("inputFileIO".toList, "File system inputs".toList),
    ("cmd".toList, cmd)]

/-- The labels of a row, in its order. -/
def names : List Str := goodParts.map Prod.snd

/-- `', '.join(items)`. -/
def joinItems (items : List Str) : Str := ", ".toList.intercalate items

/-- `": "`. -/
def colon : Str := ": ".toList

/-- `sections`, and what has been printed. -/
structure State where
  sections : Str → Option Str := fun _ => none
  out : List Str := []

/-- `sections[name].split()[-1]`. -/
def item (sections : Str → Option Str) (name : Str) : Except Exc Str :=
  match sections name with
  | none => .error .keyError
  | some value =>
    match (words value).getLast? with
    | none => .error .indexError
    | some word => .ok word

/-- The row is printed, and `sections` cleared. -/
def newItem (s : State) : Except Exc State :=
  match names.mapM (item s.sections) with
  | .ok items => .ok { out := s.out ++ [joinItems items] }
  | .error .keyError => .ok { out := s.out }
  | .error e => .error e

variable (number : Str → Bool)

/-- `2 ^ 1024`: the powers of 60 from here on are too large for a `float`. -/
def floatBound : Nat := (2 ^ 256) ^ 4

/-- `sum(float(x)*60**i for i,x in enumerate(…))`, from `i` on. -/
def seconds : Nat → List Str → Except Exc Unit
  | _, [] => .ok ()
  | i, x :: xs =>
    if !number x then .error .valueError
    else if floatBound ≤ 60 ^ i then .error .overflowError
    else seconds (i + 1) xs

/-- The user time, of `tokens[1]`. -/
def userTime : Option Str → Except Exc Unit
  | none => .error .indexError
  | some token =>
    match seconds number 0 (split [':'] token) with
    | .error .valueError => .error .unboundLocalError
    | result => result

/-- `sections[tokens[0]] = …`, with the last token where there are more than two. -/
def store (s : State) (token : Str) (tokens : List Str) : State :=
  match if tokens.length > 2 then tokens.getLast? else tokens[1]? with
  | some value => { s with sections := Function.update s.sections token (some value) }
  | none => s

/-- `parseLine`. Where it raises an exception it has printed nothing. -/
def parseLine (s : State) (line : Str) : Except Exc State := do
  let tokens := split colon line
  let token := strip (tokens.headD [])
  let s ← if token = cmd then newItem s else pure s
  if token = cpuTime then userTime number tokens[1]?
  return store s token tokens

/-- The loop of `main`: the state and the exception that ends it, if any. -/
def loop : State → List Str → State × Option Exc
  | s, [] => (s, none)
  | s, line :: lines =>
    match parseLine number s line with
    | .ok s => loop s lines
    | .error e => (s, some e)

/-- `main`: what it prints, and the exception that ends it, if any. -/
def main (lines : List Str) : List Str × Option Exc :=
  let (s, e) := loop number {} lines
  (joinItems (goodParts.map Prod.fst) :: s.out, e)

/-! ## Logs -/

/-- A line `label: value`. `head` is the text before the first `": "`. -/
structure Line where
  head : Str
  value : Str
  eol : Str
  head_free : ¬ colon <:+: head
  eol_space : ∀ c ∈ eol, isspace c

def Line.text (l : Line) : Str := l.head ++ colon ++ (l.value ++ l.eol)

/-- The label, without the spaces around it. -/
def Line.label (l : Line) : Str := strip l.head

/-- A record: the line of the command, and in any order one line for each of the other four labels
of `goodParts` and lines with other labels, which do not contain `Command`. `float` accepts the user
time as it is read, with the end of the line. -/
structure Record where
  command : Line
  body : List Line
  command_label : command.label = cmd
  count_label : ∀ name ∈ names, name ≠ cmd → (body.map Line.label).count name = 1
  other_label : ∀ l ∈ body, l.label ∈ names ∧ l.label ≠ cmd ∨
    l.label ∉ names ∧ ¬ "Command".toList <:+: l.label
  value_ne_nil : ∀ l ∈ body, l.label ∈ names → l.value ≠ []
  numeric : ∀ l ∈ body, l.label = cpuTime → ':' ∉ l.value ∧ number (l.value ++ l.eol)

variable {number}

def Record.lines (r : Record number) : List Line := r.command :: r.body

/-- The value of a label. -/
def Record.value (r : Record number) (name : Str) : Option Str :=
  (r.lines.find? fun l => l.label = name).map Line.value

/-- The row of a record: the last word of each value. -/
def Record.row (r : Record number) : Option Str :=
  (names.mapM fun name => (r.value name).bind fun value => (words value).getLast?).map joinItems

/-- The lines of a log. -/
def log (records : List (Record number)) : List Str :=
  records.flatMap fun r => r.lines.map Line.text

/-- After the header `main` prints the rows of all records. -/
def PrintsAll (records : List (Record number)) : Prop :=
  ∃ rows, (main number (log records)).1 = joinItems (goodParts.map Prod.fst) :: rows ∧
    rows.map some = records.map Record.row

/-! ## One line -/

variable {s s' : State} {l : Line}

theorem split_text (l : Line) : split colon l.text = l.head :: split colon (l.value ++ l.eol) := by
  refine split_append_sep (by decide) (fun u hu hne hcolon => ?_) _
  obtain ⟨c, u, rfl⟩ := List.exists_cons_of_ne_nil hne
  obtain ⟨rfl, htail⟩ := List.cons_prefix_cons.mp hcolon
  cases u with
  | nil => exact absurd (List.cons_prefix_cons.mp htail).1 (by decide)
  | cons d u =>
    obtain ⟨rfl, -⟩ := List.cons_prefix_cons.mp htail
    exact l.head_free ((List.prefix_append colon u).isInfix.trans hu.isInfix)

theorem label_text (l : Line) : strip ((split colon l.text).headD []) = l.label := by
  rw [split_text]
  rfl

/-- What is stored of the value: the text behind its last `": "`. -/
def Line.stored (l : Line) : Str := (split colon (l.value ++ l.eol)).getLastD []

/-- `sections` with the value of a line. -/
def put (sections : Str → Option Str) (l : Line) : Str → Option Str :=
  Function.update sections l.label (some l.stored)

theorem store_text (s : State) (l : Line) :
    store s l.label (split colon l.text) = { s with sections := put s.sections l } := by
  have hvalue : (if (split colon l.text).length > 2 then (split colon l.text).getLast?
      else (split colon l.text)[1]?) = some l.stored := by
    rw [split_text, Line.stored]
    cases hsplit : split colon (l.value ++ l.eol) with
    | nil => exact absurd hsplit (split_ne_nil (by decide) _)
    | cons token tokens =>
      cases tokens with
      | nil => rfl
      | cons next tokens =>
        rw [if_pos (by simp), List.getLast?_cons_cons, List.getLastD_eq_getLast?]
        rfl
  unfold store
  rw [hvalue]
  rfl

/-- The text of a numeric value, with the end of the line, is one token. -/
theorem userTime_numeric (hcolon : ':' ∉ l.value) (hnumber : number (l.value ++ l.eol)) :
    userTime number (split colon l.text)[1]? = .ok () := by
  have hfree : ':' ∉ l.value ++ l.eol := by
    rw [List.mem_append, not_or]
    exact ⟨hcolon, fun h => absurd (l.eol_space ':' h) (by decide)⟩
  have hsplit : split colon (l.value ++ l.eol) = [l.value ++ l.eol] := split_of_not_mem hfree
  have htime : split [':'] (l.value ++ l.eol) = [l.value ++ l.eol] := split_of_not_mem hfree
  have hsmall : ¬ floatBound ≤ 60 ^ 0 := by decide
  rw [split_text, hsplit, List.getElem?_cons_succ, List.getElem?_cons_zero, userTime, htime, seconds,
    hnumber, Bool.not_true, if_neg Bool.false_ne_true, if_neg hsmall, seconds]

/-- A line of the command. -/
theorem parseLine_command (h : l.label = cmd) : parseLine number s l.text =
    (newItem s).map fun s => { s with sections := put s.sections l } := by
  have hne : cmd ≠ cpuTime := by decide
  unfold parseLine
  simp only [label_text, h, if_true, if_neg hne]
  cases newItem s with
  | error e => rfl
  | ok s =>
    rw [← h]
    exact congrArg Except.ok (store_text s l)

/-- Any other line, with a numeric value if it is the user time. -/
theorem parseLine_other (h : l.label ≠ cmd)
    (hnumeric : l.label = cpuTime → ':' ∉ l.value ∧ number (l.value ++ l.eol)) :
    parseLine number s l.text = .ok { s with sections := put s.sections l } := by
  unfold parseLine
  simp only [label_text, if_neg h, pure_bind]
  by_cases htime : l.label = cpuTime
  · obtain ⟨hcolon, hnumber⟩ := hnumeric htime
    rw [if_pos htime, userTime_numeric hcolon hnumber]
    exact congrArg Except.ok (store_text s l)
  · rw [if_neg htime]
    exact congrArg Except.ok (store_text s l)

/-! ## One record -/

/-- `sections` after the lines of a record. -/
def Record.sections (r : Record number) : Str → Option Str := r.lines.foldl put fun _ => none

theorem loop_body {body : List Line} (h : ∀ l ∈ body, l.label ≠ cmd)
    (hnumeric : ∀ l ∈ body, l.label = cpuTime → ':' ∉ l.value ∧ number (l.value ++ l.eol))
    (s : State) (rest : List Str) : loop number s (body.map Line.text ++ rest) =
      loop number { s with sections := body.foldl put s.sections } rest := by
  induction body generalizing s with
  | nil => rfl
  | cons l body ih =>
    rw [List.forall_mem_cons] at h hnumeric
    rw [List.map_cons, List.cons_append, loop, parseLine_other h.1 hnumeric.1]
    exact ih h.2 hnumeric.2 _

theorem newItem_sections (h : newItem s = .ok s') : s'.sections = fun _ => none := by
  unfold newItem at h
  split at h
  · cases h
    rfl
  · cases h
    rfl
  · cases h

theorem Record.label_ne_cmd (r : Record number) : ∀ l ∈ r.body, l.label ≠ cmd := by
  intro l hl h
  rcases r.other_label l hl with ⟨-, hne⟩ | ⟨hnot, -⟩
  · exact hne h
  · exact hnot (h ▸ by decide)

/-- The row of what `sections` holds is printed, and then it holds the record. -/
theorem loop_record (s : State) (r : Record number) (rest : List Str) :
    loop number s (r.lines.map Line.text ++ rest) =
      match newItem s with
      | .ok s' => loop number { sections := r.sections, out := s'.out } rest
      | .error e => (s, some e) := by
  rw [Record.lines, List.map_cons, List.cons_append, loop, parseLine_command r.command_label]
  cases hnew : newItem s with
  | error e => rfl
  | ok s' =>
    have hcommand : (fun s : State => { s with sections := put s.sections r.command }) s' =
        { sections := put (fun _ => none) r.command, out := s'.out } := by
      simp only [newItem_sections hnew]
    show loop number ((fun s : State => { s with sections := put s.sections r.command }) s')
      (r.body.map Line.text ++ rest) = _
    rw [hcommand, loop_body r.label_ne_cmd r.numeric]
    rfl

/-- The first command finds nothing to print. -/
theorem loop_first (r : Record number) (records : List (Record number)) :
    loop number {} (log (r :: records)) = loop number { sections := r.sections } (log records) := by
  rw [log, List.flatMap_cons, loop_record]
  rfl

/-! ## All records but the last are printed -/

/-- Where a label has at most one line, `sections` holds what is stored of it. -/
theorem foldl_put {lines : List Line} {name : Str} (h : (lines.map Line.label).count name ≤ 1)
    (sections : Str → Option Str) : lines.foldl put sections name =
      ((lines.find? fun l => l.label = name).map Line.stored).or (sections name) := by
  induction lines generalizing sections with
  | nil => rfl
  | cons l lines ih =>
    rw [List.map_cons] at h
    by_cases hl : l.label = name
    · rw [hl, List.count_cons_self] at h
      have hnone : lines.find? (fun l => l.label = name) = none := by
        rw [List.find?_eq_none]
        intro m hm hlabel
        have hmem := List.mem_map_of_mem (f := Line.label) hm
        rw [of_decide_eq_true hlabel, ← List.count_pos_iff] at hmem
        omega
      rw [List.foldl_cons, ih (by omega), hnone, List.find?_cons_of_pos (by simpa using hl), put, hl,
        Function.update_self]
      rfl
    · rw [List.count_cons_of_ne hl] at h
      rw [List.foldl_cons, ih h, List.find?_cons_of_neg (by simpa using hl), put,
        Function.update_of_ne (Ne.symm hl)]

theorem Record.count_lines (r : Record number) {name : Str} (h : name ∈ names) :
    (r.lines.map Line.label).count name = 1 := by
  rw [Record.lines, List.map_cons, r.command_label]
  by_cases hcmd : name = cmd
  · have hbody : (r.body.map Line.label).count cmd = 0 := by
      rw [List.count_eq_zero]
      intro hmem
      obtain ⟨l, hl, hlabel⟩ := List.mem_map.mp hmem
      exact r.label_ne_cmd l hl hlabel
    rw [hcmd, List.count_cons_self, hbody]
  · rw [List.count_cons_of_ne (Ne.symm hcmd), r.count_label name h hcmd]

/-- A label of a row has a line, whose stored value `sections` holds. -/
theorem Record.exists_line (r : Record number) {name : Str} (h : name ∈ names) :
    ∃ l ∈ r.lines, l.label = name ∧ r.sections name = some l.stored ∧
      r.value name = some l.value := by
  have hcount := r.count_lines h
  have hmem : name ∈ r.lines.map Line.label := by
    rw [← List.count_pos_iff]
    omega
  obtain ⟨m, hm, hlabel⟩ := List.mem_map.mp hmem
  cases hfind : r.lines.find? (fun l => l.label = name) with
  | none => exact absurd (by simpa using hlabel) (List.find?_eq_none.mp hfind m hm)
  | some l =>
    refine ⟨l, List.mem_of_find?_eq_some hfind, by simpa using List.find?_some hfind, ?_, ?_⟩
    · rw [Record.sections, foldl_put (Nat.le_of_eq hcount), hfind]
      rfl
    · rw [Record.value, hfind]
      rfl

/-- The text behind the last `": "` of each value has a word. -/
def Record.Worded (r : Record number) : Prop :=
  ∀ l ∈ r.lines, l.label ∈ names → words l.stored ≠ []

/-- The last word of what is stored is that of the value. -/
theorem getLast?_words_stored (h : words l.stored ≠ []) :
    (words l.stored).getLast? = (words l.value).getLast? := by
  have hlast : (split ([':'] ++ [' ']) (l.value ++ l.eol)).getLast? = some l.stored := by
    have hne : split colon (l.value ++ l.eol) ≠ [] := split_ne_nil (by decide) _
    rw [Line.stored, List.getLastD_eq_getLast?, List.getLast?_eq_some_getLast hne]
    exact List.getLast?_eq_some_getLast hne
  have hsuffix := words_suffix_of_getLast (by decide) hlast
  rw [words_append_of_isspace _ l.eol_space] at hsuffix
  obtain ⟨before, hbefore⟩ := hsuffix
  rw [← hbefore, List.getLast?_append_of_ne_nil _ h]

/-- Two functions with the same results on the members of a list. -/
theorem mapM_eq_ok {f : Str → Except Exc Str} {g : Str → Option Str} {l : List Str}
    (h : ∀ a ∈ l, ∃ b, f a = .ok b ∧ g a = some b) : ∃ bs, l.mapM f = .ok bs ∧ l.mapM g = some bs := by
  induction l with
  | nil => exact ⟨[], rfl, rfl⟩
  | cons a l ih =>
    rw [List.forall_mem_cons] at h
    obtain ⟨⟨b, hf, hg⟩, hl⟩ := h
    obtain ⟨bs, hfs, hgs⟩ := ih hl
    refine ⟨b :: bs, ?_, ?_⟩
    · rw [List.mapM_cons, hf, hfs]
      rfl
    · rw [List.mapM_cons, hg, hgs]
      rfl

theorem item_eq_ok {sections : Str → Option Str} {name value word : Str}
    (h : sections name = some value) (hword : (words value).getLast? = some word) :
    item sections name = .ok word := by
  rw [item, h]
  simp only [hword]

/-- The row of a record is printed when the next one begins. -/
theorem newItem_record (r : Record number) (hr : r.Worded) (out : List Str) :
    ∃ row, r.row = some row ∧
      newItem { sections := r.sections, out := out } = .ok { out := out ++ [row] } := by
  have hitem : ∀ name ∈ names, ∃ word, item r.sections name = .ok word ∧
      ((r.value name).bind fun value => (words value).getLast?) = some word := by
    intro name hname
    obtain ⟨l, hl, rfl, hstored, hvalue⟩ := r.exists_line hname
    have hwords := hr l hl hname
    obtain ⟨word, hword⟩ := Option.ne_none_iff_exists'.mp
      (mt List.getLast?_eq_none_iff.mp hwords)
    refine ⟨word, item_eq_ok hstored hword, ?_⟩
    rw [hvalue, Option.bind_some, ← getLast?_words_stored hwords, hword]
  obtain ⟨items, hitems, hrow⟩ := mapM_eq_ok hitem
  refine ⟨joinItems items, ?_, ?_⟩
  · rw [Record.row, hrow]
    rfl
  · rw [newItem, hitems]

theorem loop_log (r : Record number) (records : List (Record number))
    (h : ∀ q ∈ r :: records, q.Worded) (out : List Str) :
    ∃ rows s, loop number { sections := r.sections, out := out } (log records) = (s, none) ∧
      s.out = out ++ rows ∧ rows.map some = (r :: records).dropLast.map Record.row := by
  induction records generalizing r out with
  | nil => exact ⟨[], _, rfl, (List.append_nil out).symm, rfl⟩
  | cons q records ih =>
    rw [List.forall_mem_cons] at h
    obtain ⟨row, hrow, hnew⟩ := newItem_record r h.1 out
    obtain ⟨rows, s, hloop, hout, hrows⟩ := ih q h.2 (out ++ [row])
    refine ⟨row :: rows, s, ?_, ?_, ?_⟩
    · rw [log, List.flatMap_cons, loop_record, hnew]
      exact hloop
    · rw [hout, List.append_assoc, List.singleton_append]
    · rw [List.dropLast_cons_cons, List.map_cons, List.map_cons, hrows, hrow]

/-- **Which rows are printed.** Where the text behind the last `": "` of each value has a word,
`main` ends without an exception, and prints the rows of all records but the last. -/
theorem main_eq (records : List (Record number)) (h : ∀ r ∈ records, r.Worded) :
    ∃ rows, main number (log records) = (joinItems (goodParts.map Prod.fst) :: rows, none) ∧
      rows.map some = records.dropLast.map Record.row := by
  cases records with
  | nil => exact ⟨[], rfl, rfl⟩
  | cons r records =>
    obtain ⟨rows, s, hloop, hout, hrows⟩ := loop_log r records h []
    rw [List.nil_append] at hout
    refine ⟨rows, ?_, hrows⟩
    rw [main, loop_first, hloop, ← hout]

/-! ## Not all records are printed -/

theorem newItem_out_length (h : newItem s = .ok s') : s'.out.length ≤ s.out.length + 1 := by
  unfold newItem at h
  split at h
  · cases h
    rw [List.length_append, List.length_singleton]
  · cases h
    exact Nat.le_succ _
  · cases h

/-- A record prints at most one row, that of what `sections` holds before. -/
theorem loop_out_length (s : State) (records : List (Record number)) :
    (loop number s (log records)).1.out.length ≤ s.out.length + records.length := by
  induction records generalizing s with
  | nil => exact Nat.le_refl _
  | cons r records ih =>
    rw [log, List.flatMap_cons, loop_record, List.length_cons]
    cases hnew : newItem s with
    | error e => exact Nat.le_add_right _ _
    | ok s' =>
      have hone := newItem_out_length hnew
      have hrest := ih { sections := r.sections, out := s'.out }
      refine Nat.le_trans hrest ?_
      show s'.out.length + records.length ≤ s.out.length + (records.length + 1)
      omega

/-- **The last row is missing.** `main` prints the rows of all records if and only if there are no
records. -/
theorem printsAll_iff (number : Str → Bool) (records : List (Record number)) :
    PrintsAll records ↔ records = [] := by
  constructor
  · rintro ⟨rows, hmain, hrows⟩
    cases records with
    | nil => rfl
    | cons r records =>
      have hout : (loop number {} (log (r :: records))).1.out = rows := (List.cons.inj hmain).2
      have hle := loop_out_length { sections := r.sections } records
      have hlen := congrArg List.length hrows
      rw [← loop_first, hout] at hle
      simp only [List.length_map, List.length_cons, List.length_nil] at hlen hle
      omega
  · rintro rfl
    exact ⟨[], rfl, rfl⟩

/-- A line without indentation. -/
def line (head value : String) (h : ¬ colon <:+: head.toList := by decide) : Line where
  head := head.toList
  value := value.toList
  eol := ['\n']
  head_free := h
  eol_space := List.forall_mem_singleton.mpr rfl

/-- A record as `time -v` writes it, with some of its other lines. Any text is a number here. -/
def sample : Record fun _ => true where
  command := line "Command being timed" "\"gcc -c a.c\""
  body := [line "User time (seconds)" "0.03", line "System time (seconds)" "0.01",
    line "Maximum resident set size (kbytes)" "3456",
    line "Minor (reclaiming a frame) page faults" "120", line "File system inputs" "8"]
  command_label := by decide +kernel
  count_label := by decide +kernel
  other_label := by decide +kernel
  value_ne_nil := by decide +kernel
  numeric := by decide +kernel

/-- Of one record only the header is printed. -/
theorem sample_not_printed :
    main (fun _ => true) (log [sample]) =
      (["cpuTime, memory(kB), pageFaults, inputFileIO, cmd".toList], none) ∧
    sample.row = some "0.03, 3456, 120, 8, a.c\"".toList := by
  decide +kernel

end CppExamples.Scripts.Time2Trace
