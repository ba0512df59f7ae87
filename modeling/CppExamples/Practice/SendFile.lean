import CppExamples.Lib.Handles
import CppExamples.Lib.Loop

/-!
# The owners of descriptors (`cjunk/practice/sendFile.cc:98-189`)

`File` opens a file and closes its descriptor in its destructor, and so does `FileDescriptor` with a
descriptor that it is given. Both can be copied, so a copy and the original close the same number.
`FileVector` and `FileDescriptorVector` put a temporary at the end of a `std::vector`, which copies
it; the temporary is destroyed, and closes what the copy in the vector stands for. A vector that is
full copies all its elements into new storage and destroys the old copies. A close that fails ends
the program with `exit(1)`: the result is `none`.

The numbers that `open` gives and the room that a vector takes when it grows are inputs, and so is
what the rest of the process opens and closes between two calls (`Event`).

* `closed_of_run`: in every run, the descriptor of every file in the vector has been closed, and the
  files still have its number.
* `grow_of_run`: `Add` to a vector that is full returns if and only if the numbers of its files are
  different and have all been given to somebody else meanwhile; it closes all of them.
* `main_exits`: `main` never gets past the first round of its loop. `destroy_eq_none`: and no vector
  with an element is ever destroyed, as its elements close what its own destructor has closed.
-/

namespace CppExamples.Practice.SendFile

open Lib Lib.Machine Lib.Handles Lib.Handles.Table

/-- `File`, and the opening that gave its descriptor. -/
structure File where
  fd : Nat
  opening : Nat
  deriving DecidableEq

structure FileDescriptor where
  fd : Nat
  deriving DecidableEq

/-- `std::vector`. -/
structure Elements (α : Type) where
  items : List α := []
  capacity : Nat := 0

variable {α : Type} {t t' u : Table} {fd extra : Nat}

/-! ## The classes -/

/-- `push_back` of a copy of `x`. If the elements have to move, they are copied, and the old ones
destroyed; `extra` is the room behind the new one then. -/
def pushBack (number : α → Nat) (t : Table) (v : Elements α) (x : α) (extra : Nat) :
    Option (Table × Elements α) :=
  if v.items.length < v.capacity then some (t, { v with items := v.items ++ [x] })
  else (run close t (v.items.map number)).map fun t =>
    (t, { items := v.items ++ [x], capacity := v.items.length + 1 + extra })

/-- `FileVector::Add`, where `open` gives `fd`. -/
def FileVector.add (t : Table) (files : Elements File) (fd extra : Nat) :
    Option (Table × Elements File) :=
  (t.give fd).bind fun opened =>
  (pushBack File.fd opened files { fd, opening := t.calls } extra).bind fun pushed =>
  -- the temporary goes
  (pushed.1.close fd).map fun closed => (closed, pushed.2)

/-- `FileDescriptorVector::Add`. -/
def FileDescriptorVector.add (t : Table) (fds : Elements FileDescriptor) (fd extra : Nat) :
    Option (Table × Elements FileDescriptor) :=
  (pushBack FileDescriptor.fd t fds { fd } extra).bind fun pushed =>
  (pushed.1.close fd).map fun closed => (closed, pushed.2)

/-- `~FileVector` and `~FileDescriptorVector`: the loop, and the destructors of the elements. -/
def destroy (number : α → Nat) (t : Table) (v : Elements α) : Option Table :=
  (run close t (v.items.map number)).bind fun t => run close t (v.items.map number)

/-- What `main` has, and the numbers and the room of one round of its loop. -/
structure Variables where
  table : Table
  files : Elements File := {}
  fds : Elements FileDescriptor := {}

structure Choice where
  fd : Nat
  extra : Nat
  extra' : Nat

/-- A round of the loop of `main`. -/
def round (choice : Choice) (i : Nat) (s : Variables) : Option Variables :=
  (FileVector.add s.table s.files choice.fd choice.extra).bind fun added =>
  added.2.items[i]?.bind fun file =>
  (FileDescriptorVector.add added.1 s.fds file.fd choice.extra').map fun r => ⟨r.1, added.2, r.2⟩

/-- The loop of `main`. -/
def mainLoop (choice : Nat → Choice) (t : Table) : Option Variables :=
  Loop.forRange 0 10 (fun i => round (choice i) i) { table := t }

/-! ## One call -/

theorem pushBack_of_full {number : α → Nat} {v : Elements α} {x : α}
    (h : ¬v.items.length < v.capacity) :
    pushBack number t v x extra = (run close t (v.items.map number)).map fun t =>
      (t, { items := v.items ++ [x], capacity := v.items.length + 1 + extra }) := if_neg h

/-- What `push_back` leaves: fewer handles, or the same, and the elements with the new one. -/
theorem pushBack_eq_some {number : α → Nat} {v : Elements α} {x : α} {r : Table × Elements α}
    (h : pushBack number t v x extra = some r) :
    (∃ hs, r.1 = t.without hs) ∧ r.2.items = v.items ++ [x] := by
  rw [pushBack] at h
  split at h
  · cases h
    exact ⟨⟨[], (without_nil t).symm⟩, rfl⟩
  · obtain ⟨u, hu, rfl⟩ := Option.map_eq_some_iff.mp h
    exact ⟨⟨_, (run_close_eq_some.mp hu).2.2⟩, rfl⟩

/-- `FileVector::Add` opens `fd`, and closes it with some others. -/
theorem FileVector.add_eq_some {files : Elements File} {r : Table × Elements File}
    (h : FileVector.add t files fd extra = some r) :
    (∃ opened hs, t.give fd = some opened ∧ fd ∈ hs ∧ r.1 = opened.without hs) ∧
      r.2.items = files.items ++ [{ fd, opening := t.calls }] := by
  simp only [FileVector.add, Option.bind_eq_some_iff, Option.map_eq_some_iff] at h
  obtain ⟨opened, hopened, pushed, hpushed, closed, hclosed, rfl⟩ := h
  obtain ⟨⟨hs, hs_eq⟩, hitems⟩ := pushBack_eq_some hpushed
  obtain ⟨-, rfl⟩ := close_eq_some.mp hclosed
  refine ⟨⟨opened, hs ++ [fd], hopened, by simp, ?_⟩, hitems⟩
  rw [hs_eq, without_without]

/-- A descriptor that is not open cannot be added. -/
theorem FileDescriptorVector.add_of_closed (h : t.opening fd = none) (fds : Elements FileDescriptor) :
    FileDescriptorVector.add t fds fd extra = none := by
  cases hadd : FileDescriptorVector.add t fds fd extra with
  | none => rfl
  | some r =>
    simp only [FileDescriptorVector.add, Option.bind_eq_some_iff, Option.map_eq_some_iff] at hadd
    obtain ⟨pushed, hpushed, closed, hclosed, -⟩ := hadd
    obtain ⟨⟨hs, hs_eq⟩, -⟩ := pushBack_eq_some hpushed
    have hopen := (close_eq_some.mp hclosed).1
    rw [hs_eq] at hopen
    exact absurd h (opening_without_ne_none.mp hopen).2

/-- A vector that is not empty is never destroyed: the elements close again what the loop has
closed. -/
theorem destroy_eq_none {number : α → Nat} {v : Elements α} (h : v.items ≠ []) :
    destroy number t v = none := by
  cases hdestroy : destroy number t v with
  | none => rfl
  | some u =>
    simp only [destroy, Option.bind_eq_some_iff] at hdestroy
    obtain ⟨w, hw, hu⟩ := hdestroy
    obtain ⟨-, -, rfl⟩ := run_close_eq_some.mp hw
    obtain ⟨-, hopen, -⟩ := run_close_eq_some.mp hu
    obtain ⟨x, hx⟩ := List.exists_mem_of_ne_nil _ h
    have hmem : number x ∈ v.items.map number := List.mem_map_of_mem hx
    exact absurd hmem (opening_without_ne_none.mp (hopen _ hmem)).1

/-! ## Runs -/

structure State where
  table : Table
  files : Elements File := {}

/-- `FileVector::Add`, or a descriptor that the rest of the process opens or closes. -/
inductive Event where
  | add (fd extra : Nat)
  | openOther (fd : Nat)
  | closeOther (fd : Nat)

def step (s : State) : Event → Option State
  | .add fd extra => (FileVector.add s.table s.files fd extra).map fun r => ⟨r.1, r.2⟩
  | .openOther fd => (s.table.give fd).map fun t => { s with table := t }
  | .closeOther fd => (s.table.close fd).map fun t => { s with table := t }

/-- No file in the vector has its descriptor any more. -/
structure Stale (s : State) : Prop where
  sound : s.table.Sound
  closed : ∀ f ∈ s.files.items, s.table.Over f.opening

theorem Stale.step {s s' : State} {e : Event} (hs : Stale s) (h : SendFile.step s e = some s') :
    Stale s' := by
  cases e with
  | add fd extra =>
    obtain ⟨r, hr, rfl⟩ := Option.map_eq_some_iff.mp h
    obtain ⟨⟨opened, closed, hgive, hmem, htable⟩, hitems⟩ := FileVector.add_eq_some hr
    refine ⟨htable ▸ (hs.sound.give hgive).without closed, fun f hf => ?_⟩
    dsimp only at hf ⊢
    rw [htable]
    rw [hitems, List.mem_append, List.mem_singleton] at hf
    rcases hf with hf | rfl
    · exact ((hs.closed f hf).give hgive).without closed
    · exact over_of_close (hs.sound.give hgive) (opening_of_give hgive) hmem
  | openOther fd =>
    obtain ⟨t, ht, rfl⟩ := Option.map_eq_some_iff.mp h
    exact ⟨hs.sound.give ht, fun f hf => (hs.closed f hf).give ht⟩
  | closeOther fd =>
    obtain ⟨t, ht, rfl⟩ := Option.map_eq_some_iff.mp h
    obtain ⟨-, rfl⟩ := close_eq_some.mp ht
    exact ⟨hs.sound.without [fd], fun f hf => (hs.closed f hf).without [fd]⟩

theorem stale_of_run (ht : t.Sound) {events : List Event} {s : State}
    (h : run step { table := t } events = some s) : Stale s :=
  run_invariant Stale.step ⟨ht, fun _ hf => absurd hf List.not_mem_nil⟩ h

/-- **The files have lost their descriptors.** In every run, what `open` gave to a file of the
vector has been closed, and nothing that is open comes from there. -/
theorem closed_of_run (t : Table) (ht : t.Sound) (events : List Event) (s : State)
    (h : run step { table := t } events = some s) (f : File) (hf : f ∈ s.files.items) (fd : Nat) :
    s.table.opening fd ≠ some f.opening := ((stale_of_run ht h).closed f hf).2 fd

/-! ## Growing -/

/-- What `Add` to a full vector needs, and leaves. -/
theorem FileVector.add_full_eq_some {files : Elements File} {r : Table × Elements File}
    (hfull : ¬files.items.length < files.capacity) (hfree : t.opening fd = none) :
    FileVector.add t files fd extra = some r ↔ (files.items.map File.fd).Nodup ∧
      (∀ f ∈ files.items, t.opening f.fd ≠ none) ∧
      r = ({ t.without (files.items.map File.fd) with calls := t.calls + 1 },
        { items := files.items ++ [{ fd, opening := t.calls }]
          capacity := files.items.length + 1 + extra }) := by
  obtain ⟨opened, hgive⟩ : ∃ opened, t.give fd = some opened := ⟨_, give_eq_some.mpr ⟨hfree, rfl⟩⟩
  have hothers : ∀ k, k ≠ fd → opened.opening k = t.opening k := fun k => opening_of_give_ne hgive
  have hleft : opened.without (files.items.map File.fd ++ [fd]) =
      { t.without (files.items.map File.fd) with calls := t.calls + 1 } := by
    rw [without_of_give hgive (List.mem_append_right _ List.mem_cons_self),
      without_append_of_none hfree]
  simp only [FileVector.add, hgive, Option.bind_some, pushBack_of_full hfull, Option.bind_map,
    Function.comp_def, Option.bind_eq_some_iff, Option.map_eq_some_iff, run_close_eq_some,
    close_eq_some, List.forall_mem_map]
  constructor
  · rintro ⟨_, ⟨hnodup, hopen, rfl⟩, _, ⟨hfd, rfl⟩, rfl⟩
    refine ⟨hnodup, fun f hf => ?_, ?_⟩
    · have hne : f.fd ≠ fd := fun heq =>
        (opening_without_ne_none.mp hfd).1 (heq ▸ List.mem_map_of_mem hf)
      rw [← hothers f.fd hne]
      exact hopen f hf
    · rw [without_without, hleft]
  · rintro ⟨hnodup, hopen, rfl⟩
    have hne : ∀ f ∈ files.items, f.fd ≠ fd := fun f hf heq => hopen f hf (heq ▸ hfree)
    have hnot : fd ∉ files.items.map File.fd := by
      rw [List.mem_map]
      rintro ⟨f, hf, heq⟩
      exact hne f hf heq
    have hgiven : opened.opening fd ≠ none := by
      rw [opening_of_give hgive]
      exact Option.some_ne_none _
    refine ⟨_, ⟨hnodup, fun f hf => ?_, rfl⟩, _, ⟨opening_without_ne_none.mpr ⟨hnot, hgiven⟩, rfl⟩, ?_⟩
    · rw [hothers f.fd (hne f hf)]
      exact hopen f hf
    · rw [without_without, hleft]

/-- **When a full vector can grow.** In every run, `Add` to a vector that is full returns if and
only if the numbers of its files are different, and each has been given to somebody else meanwhile.
It closes all of them. -/
theorem grow_of_run (t : Table) (ht : t.Sound) (events : List Event) (s : State)
    (h : run step { table := t } events = some s) (hfull : ¬s.files.items.length < s.files.capacity)
    (fd extra : Nat) (hfree : s.table.opening fd = none) (s' : State) :
    step s (.add fd extra) = some s' ↔ (s.files.items.map File.fd).Nodup ∧
      (∀ f ∈ s.files.items, ∃ o, s.table.opening f.fd = some o ∧ o ∉ s.files.items.map File.opening) ∧
      s' =
        { table := { s.table.without (s.files.items.map File.fd) with calls := s.table.calls + 1 }
          files :=
            { items := s.files.items ++ [{ fd, opening := s.table.calls }]
              capacity := s.files.items.length + 1 + extra } } := by
  have hothers : (∀ f ∈ s.files.items, s.table.opening f.fd ≠ none) ↔
      ∀ f ∈ s.files.items, ∃ o, s.table.opening f.fd = some o ∧
        o ∉ s.files.items.map File.opening := by
    refine forall₂_congr fun f hf => ?_
    rw [Option.ne_none_iff_exists']
    refine exists_congr fun o => (and_iff_left_of_imp fun ho hmem => ?_).symm
    obtain ⟨f', hf', rfl⟩ := List.mem_map.mp hmem
    exact closed_of_run t ht events s h f' hf' f.fd ho
  rw [← hothers]
  simp only [step, Option.map_eq_some_iff, FileVector.add_full_eq_some hfull hfree]
  constructor
  · rintro ⟨r, ⟨hnodup, hopen, rfl⟩, rfl⟩
    exact ⟨hnodup, hopen, rfl⟩
  · rintro ⟨hnodup, hopen, rfl⟩
    exact ⟨_, ⟨hnodup, hopen, rfl⟩, rfl⟩

/-- A table with nothing open. -/
def noneOpen : Table := ⟨fun _ => none, 0⟩

theorem sound_noneOpen : noneOpen.Sound where
  lt := fun _ _ hopen => by cases hopen
  inj := fun _ _ _ hopen => by cases hopen

/-- Somebody else has been given the number of the only file; the second `Add` closes it. -/
theorem grow_of_run_reused : ∃ s s',
    run step { table := noneOpen } [.add 3 0, .openOther 3] = some s ∧
      step s (.add 4 0) = some s' ∧ s.table.opening 3 = some 1 ∧ s'.table.opening 3 = none := by
  refine ⟨_, _, rfl, (grow_of_run noneOpen sound_noneOpen [.add 3 0, .openOther 3] _ rfl ?_ 4 0 ?_ _).mpr
    ⟨?_, ?_, rfl⟩, ?_, ?_⟩
  · decide
  · decide
  · decide
  · exact fun f hf => ⟨1, by rw [List.mem_singleton.mp hf]; decide, by decide⟩
  · decide
  · decide

/-! ## `main` -/

/-- No round of the loop returns: the number that is added to `fds` has just been closed. -/
theorem round_eq_none (choice : Choice) {i : Nat} {s : Variables} (hi : s.files.items.length = i) :
    round choice i s = none := by
  cases hadd : FileVector.add s.table s.files choice.fd choice.extra with
  | none => rw [round, hadd, Option.bind_none]
  | some r =>
    obtain ⟨⟨opened, hs, -, hmem, htable⟩, hitems⟩ := FileVector.add_eq_some hadd
    have hlast : r.2.items[i]? = some { fd := choice.fd, opening := s.table.calls } := by
      rw [hitems, ← hi, List.getElem?_concat_length]
    have hclosed : r.1.opening choice.fd = none := by
      rw [htable]
      exact if_pos hmem
    rw [round, hadd, Option.bind_some, hlast, Option.bind_some,
      FileDescriptorVector.add_of_closed hclosed, Option.map_none]

/-- **`main` never gets past its loop**, nor past the first round of it. It gets as far as
`FileVector::Add`, which returns. -/
theorem main_exits (choice : Nat → Choice) (t : Table) : mainLoop choice t = none ∧
    ((∃ added, FileVector.add t {} (choice 0).fd (choice 0).extra = some added) ↔
      t.opening (choice 0).fd = none) := by
  constructor
  · have hround : round (choice 0) 0 { table := t } = none := round_eq_none (choice 0) rfl
    rw [mainLoop, Loop.forRange, Loop.rounds, hround, Option.bind_none]
  · constructor
    · rintro ⟨added, hadded⟩
      obtain ⟨⟨opened, -, hgive, -⟩, -⟩ := FileVector.add_eq_some hadded
      exact (give_eq_some.mp hgive).1
    · intro hfree
      have hfull : ¬([] : List File).length < 0 := Nat.lt_irrefl 0
      exact ⟨_, (FileVector.add_full_eq_some hfull hfree).mpr
        ⟨List.nodup_nil, fun _ hf => absurd hf List.not_mem_nil, rfl⟩⟩

end CppExamples.Practice.SendFile
