import CppExamples.Scripts.TornadoService

/-!
# Starting the data service again (`cjunk/practice/test_tornadoService.py:151-184`)

`instance` creates the table if the file has none, adds three rows, prints the rows 1, 2 and 3,
changes the row 1 and deletes it, and opens the server. The rows that it adds have these numbers in
an empty table only.

* `instance_returns_iff`: it returns if and only if the rows 1, 2 and 3 are there after its own rows
  have been added, and the port is free then; otherwise the `TypeError` of `get_data` ends it, a
  table without a next key, or the server.
* `instance_keeps`: the rows that were there stay as they were, but for row 1, and row 1 too if it
  does not get to the server.
* `instance_once`: no key is given out twice, so the row 1 does not come back, whatever the clients
  do, and every start after the first one that got to the server ends in an exception.
-/

namespace CppExamples.Scripts.TornadoService

open Lib

/-! ## The parts of `instance` -/

/-- The rows that `instance` prints. -/
def HasRows (table : Table) : Prop := ∀ id : Int, 1 ≤ id → id ≤ 3 → (table.contents id).isSome

section Parts

variable {w : World}

/-- `# add data`: three rows more, or no next key. -/
theorem addRows_cases (w : World) :
    (∃ table, AutoTable.Extended w.table 3 table ∧ w.table.seq + 3 ≤ maxRowid ∧
      addRows w = (.ok (), { w with table })) ∨
    (∃ n table, 0 ≤ n ∧ AutoTable.Extended w.table n table ∧ maxRowid < w.table.seq + 3 ∧
      addRows w = (.error .operationalError, { w with table })) := by
  have h0 := AutoTable.Extended.refl w.table
  unfold addRows
  cases h1 : w.table.insert maxRowid (some "data1") with
  | none =>
    have hfull := AutoTable.insert_eq_none.mp h1
    exact .inr ⟨0, w.table, le_rfl, h0, by omega, bind_of_error (addData_of_full h1)⟩
  | some r1 =>
    rw [bind_of_ok (addData_of_insert h1)]
    have e1 := h0.insert h1 le_rfl
    have s1 := e1.seq_eq
    cases h2 : r1.2.insert maxRowid (some "data2") with
    | none =>
      have hfull := AutoTable.insert_eq_none.mp h2
      exact .inr ⟨0 + 1, r1.2, by omega, e1, by omega,
        bind_of_error (addData_of_full (w := { w with table := r1.2 }) h2)⟩
    | some r2 =>
      rw [bind_of_ok (addData_of_insert (w := { w with table := r1.2 }) h2)]
      have e2 := e1.insert h2 (by omega)
      have s2 := e2.seq_eq
      cases h3 : r2.2.insert maxRowid (some "data3") with
      | none =>
        have hfull := AutoTable.insert_eq_none.mp h3
        exact .inr ⟨0 + 1 + 1, r2.2, by omega, e2, by omega,
          bind_of_error (addData_of_full (w := { w with table := r2.2 }) h3)⟩
      | some r3 =>
        have hlt := (AutoTable.insert_eq_some h3).1
        exact .inl ⟨r3.2, e2.insert h3 (by omega), by omega,
          bind_of_ok (addData_of_insert (w := { w with table := r2.2 }) h3)⟩

theorem printRow_of_some {id : Int} (hid : IsInteger id) (h : (w.table.contents id).isSome) :
    ∃ out, printRow id w = (.ok (), { w with out }) := by
  obtain ⟨data, hdata⟩ := Option.isSome_iff_exists.mp h
  exact ⟨w.out ++ [.one ⟨id, data⟩], bind_of_ok (getData_of_some hid hdata)⟩

theorem printRow_of_none {id : Int} (hid : IsInteger id) (h : w.table.contents id = none) :
    printRow id w = (.error .typeError, w) :=
  bind_of_error (getData_of_none hid h)

/-- Rows one after the other. -/
theorem printRow_bind_cases {id : Int} (hid : IsInteger id) (rest : Py Unit) (w : World) :
    ((w.table.contents id).isSome ∧
      ∃ out, (printRow id >>= fun _ => rest) w = rest { w with out }) ∨
    (w.table.contents id = none ∧
      (printRow id >>= fun _ => rest) w = (.error .typeError, w)) := by
  cases h : w.table.contents id with
  | some data =>
    obtain ⟨out, hout⟩ := printRow_of_some (w := w) hid (Option.isSome_iff_exists.mpr ⟨data, h⟩)
    exact .inl ⟨rfl, out, bind_of_ok hout⟩
  | none => exact .inr ⟨rfl, bind_of_error (printRow_of_none hid h)⟩

theorem not_hasRows {table : Table} {id : Int} (hpos : 1 ≤ id) (hle : id ≤ 3)
    (h : table.contents id = none) : ¬HasRows table := by
  intro hrows
  have hsome := hrows id hpos hle
  rw [h] at hsome
  exact absurd hsome Bool.false_ne_true

/-- `# get data`: all three rows, or the `TypeError` of one that is not there. -/
theorem getRows_cases (w : World) :
    (HasRows w.table ∧ ∃ out, getRows w = (.ok (), { w with out })) ∨
    (¬HasRows w.table ∧ ∃ out, getRows w = (.error .typeError, { w with out })) := by
  have i1 : IsInteger 1 := by decide
  have i2 : IsInteger 2 := by decide
  have i3 : IsInteger 3 := by decide
  unfold getRows
  rcases printRow_bind_cases i1 (do printRow 2; printRow 3) w with ⟨h1, out1, e1⟩ | ⟨h1, e1⟩
  · rw [e1]
    rcases printRow_bind_cases i2 (printRow 3) { w with out := out1 } with ⟨h2, out2, e2⟩ | ⟨h2, e2⟩
    · rw [e2]
      cases h3 : w.table.contents 3 with
      | some data =>
        obtain ⟨out3, e3⟩ := printRow_of_some (w := { w with out := out2 }) i3
          (Option.isSome_iff_exists.mpr ⟨data, h3⟩)
        refine .inl ⟨fun id hpos hle => ?_, out3, e3⟩
        obtain rfl | rfl | rfl : id = 1 ∨ id = 2 ∨ id = 3 := by omega
        · exact h1
        · exact h2
        · exact Option.isSome_iff_exists.mpr ⟨data, h3⟩
      | none =>
        exact .inr ⟨not_hasRows (by omega) le_rfl h3, out2, printRow_of_none i3 h3⟩
    · exact .inr ⟨not_hasRows (by omega) (by omega) h2, out1, e2⟩
  · exact .inr ⟨not_hasRows le_rfl (by omega) h1, w.out, e1⟩

/-- `# update data`, of a row that is there. -/
theorem updateRow_of_isSome (h : (w.table.contents 1).isSome) :
    ∃ out, updateRow w = (.ok (), ⟨w.table.update 1 (some "data1 updated"), out⟩) := by
  have hid : IsInteger 1 := by decide
  obtain ⟨old, hold⟩ := Option.isSome_iff_exists.mp h
  have hrow : (w.table.update 1 (some "data1 updated")).contents 1 =
      some (some "data1 updated") := by
    rw [AutoTable.contents_update, if_pos rfl, hold]
    rfl
  have hupdate := (updateData_apply hid (some "data1 updated") w).trans (getData_of_some hid hrow)
  obtain ⟨out, hout⟩ := printRow_of_some
    (w := { w with table := w.table.update 1 (some "data1 updated") }) hid
    (Option.isSome_iff_exists.mpr ⟨_, hrow⟩)
  exact ⟨out, (bind_of_ok hupdate).trans hout⟩

/-- `# delete data`. -/
theorem deleteRow_apply (w : World) :
    ∃ out, deleteRow w = (.ok (), ⟨w.table.delete 1, out⟩) := by
  have hdelete := (deleteData_apply 1 w).trans (if_pos (by decide))
  exact ⟨_, (bind_of_ok hdelete).trans (bind_of_ok (getAllData_apply _))⟩

/-- How a start ends that gets to the server. -/
def serverResult (portFree : Bool) : Except PyError Unit :=
  if portFree then .ok () else .error .osError

theorem runServer_apply (portFree : Bool) (w : World) :
    runServer portFree w = (serverResult portFree, w) := by
  cases portFree <;> rfl

/-- The start got to the server. -/
def Served (r : Except PyError Unit) : Prop := r = .ok () ∨ r = .error .osError

theorem served_serverResult (portFree : Bool) : Served (serverResult portFree) := by
  cases portFree
  · exact .inr rfl
  · exact .inl rfl

instance decidableServed (r : Except PyError Unit) : Decidable (Served r) :=
  inferInstanceAs (Decidable (_ ∨ _))

end Parts

/-! ## One start -/

/-- How `instance` ends: at the server with all its rows, without one, or without a next key. -/
theorem instance_cases (portFree : Bool) (w : World) :
    (∃ table, AutoTable.Extended w.table 3 table ∧ w.table.seq + 3 ≤ maxRowid ∧ HasRows table ∧
      ∃ out, instance_ portFree w =
        (serverResult portFree, ⟨(table.update 1 (some "data1 updated")).delete 1, out⟩)) ∨
    (∃ table, AutoTable.Extended w.table 3 table ∧ w.table.seq + 3 ≤ maxRowid ∧ ¬HasRows table ∧
      ∃ out, instance_ portFree w = (.error .typeError, ⟨table, out⟩)) ∨
    (∃ n table, 0 ≤ n ∧ AutoTable.Extended w.table n table ∧ maxRowid < w.table.seq + 3 ∧
      instance_ portFree w = (.error .operationalError, { w with table })) := by
  unfold instance_
  rcases addRows_cases w with ⟨table, hext, hseq, hadd⟩ | ⟨n, table, hn, hext, hseq, hadd⟩
  · rw [bind_of_ok hadd]
    rcases getRows_cases { w with table } with ⟨hrows, out, hget⟩ | ⟨hrows, out, hget⟩
    · rw [bind_of_ok hget]
      obtain ⟨out', hupdate⟩ := updateRow_of_isSome (w := ⟨table, out⟩) (hrows 1 le_rfl (by omega))
      obtain ⟨out'', hdelete⟩ := deleteRow_apply ⟨table.update 1 (some "data1 updated"), out'⟩
      rw [bind_of_ok hupdate, bind_of_ok hdelete, runServer_apply]
      exact .inl ⟨table, hext, hseq, hrows, out'', rfl⟩
    · exact .inr (.inl ⟨table, hext, hseq, hrows, out, bind_of_error hget⟩)
  · exact .inr (.inr ⟨n, table, hn, hext, hseq, bind_of_error hadd⟩)

/-- **When `instance` returns.** -/
theorem instance_returns_iff (portFree : Bool) (file : Option Table) :
    (instance_ portFree { table := createTable file }).1 = .ok () ↔
      portFree = true ∧ (createTable file).seq + 3 ≤ maxRowid ∧ ∀ id : Int, 1 ≤ id → id ≤ 3 →
        (createTable file).seq < id ∨ ((createTable file).contents id).isSome := by
  generalize createTable file = table
  have hnonneg := table.seq_nonneg
  have hrows : ∀ {table' : Table}, AutoTable.Extended table 3 table' → (HasRows table' ↔
      ∀ id : Int, 1 ≤ id → id ≤ 3 → table.seq < id ∨ (table.contents id).isSome) := by
    intro table' hext
    unfold HasRows
    constructor
    · intro h id hpos hle
      exact (hext.isSome_iff (by omega)).mp (h id hpos hle)
    · intro h id hpos hle
      exact (hext.isSome_iff (by omega)).mpr (h id hpos hle)
  rcases instance_cases portFree { table } with
    ⟨table', hext, hseq, hhas, out, h⟩ | ⟨table', hext, hseq, hhas, out, h⟩ |
      ⟨n, table', -, -, hseq, h⟩
  · rw [h]
    have hserver : serverResult portFree = .ok () ↔ portFree = true := by
      cases portFree <;> simp [serverResult]
    exact hserver.trans (and_iff_left ⟨hseq, (hrows hext).mp hhas⟩).symm
  · rw [h]
    refine ⟨fun hok => ?_, fun hok => absurd ((hrows hext).mpr hok.2.2) hhas⟩
    cases hok
  · rw [h]
    refine ⟨fun hok => ?_, fun hok => absurd hok.2.1 (not_le.mpr hseq)⟩
    cases hok

/-- **The rows that were there**: they stay as they were, row 1 only if `instance` does not get to
the server; if it does there is no row 1. -/
theorem instance_keeps (portFree : Bool) (file : Option Table) (id : Int)
    (h : id ≤ (createTable file).seq) :
    (instance_ portFree { table := createTable file }).2.table.contents id =
      if id = 1 ∧ Served (instance_ portFree { table := createTable file }).1 then none
      else (createTable file).contents id := by
  generalize createTable file = table at h ⊢
  rcases instance_cases portFree { table } with
    ⟨table', hext, -, -, out, hi⟩ | ⟨table', hext, -, -, out, hi⟩ | ⟨n, table', -, hext, -, hi⟩
  · rw [hi, AutoTable.contents_delete, AutoTable.contents_update]
    by_cases hid : id = 1
    · rw [if_pos hid, if_pos ⟨hid, served_serverResult portFree⟩]
    · rw [if_neg hid, if_neg hid, if_neg fun hc => hid hc.1]
      exact hext.old id h
  · rw [hi, if_neg fun hc => by rcases hc.2 with hc | hc <;> cases hc]
    exact hext.old id h
  · rw [hi, if_neg fun hc => by rcases hc.2 with hc | hc <;> cases hc]
    exact hext.old id h

/-- Row 1 was given out and is gone. -/
def Spent (table : Table) : Prop := 1 ≤ table.seq ∧ table.contents 1 = none

/-- A key that is free and was given out stays free. -/
theorem Answers.stays_free {c c' : Contents} {q : Call} {r : Except PyError Reply}
    (h : Answers c q r c') {id : Int} (hle : id ≤ c.seq) (hfree : c.data id = none) :
    id ≤ c'.seq ∧ c'.data id = none := by
  cases h with
  | add hnext =>
    have hne : id ≠ c.seq + 1 := by omega
    exact ⟨Int.le_of_lt (Int.lt_add_one_of_le hle), (Function.update_of_ne hne _ _).trans hfree⟩
  | @update key data hid hrow =>
    have hne : id ≠ key := by
      rintro rfl
      rw [hfree] at hrow
      exact absurd hrow Bool.false_ne_true
    exact ⟨hle, (Function.update_of_ne hne _ _).trans hfree⟩
  | @delete key hid =>
    refine ⟨hle, ?_⟩
    by_cases hkey : id = key
    · rw [hkey]
      exact Function.update_self key none c.data
    · exact (Function.update_of_ne hkey _ _).trans hfree
  | _ => exact ⟨hle, hfree⟩

theorem Spent.call {w : World} (h : Spent w.table) (q : Call) : Spent (call q w).2.table :=
  (call_answers q w).stays_free h.1 h.2

/-- A start that gets to the server deletes row 1. -/
theorem spent_of_served {portFree : Bool} {w : World} (h : Served (instance_ portFree w).1) :
    Spent (instance_ portFree w).2.table := by
  rcases instance_cases portFree w with
    ⟨table', hext, -, -, out, hi⟩ | ⟨table', -, -, -, out, hi⟩ | ⟨n, table', -, -, -, hi⟩
  · rw [hi]
    have hseq := hext.seq_eq
    have hnonneg := w.table.seq_nonneg
    refine ⟨?_, by rw [AutoTable.contents_delete, if_pos rfl]⟩
    rw [AutoTable.seq_delete, AutoTable.seq_update]
    omega
  · rw [hi] at h
    rcases h with h | h <;> cases h
  · rw [hi] at h
    rcases h with h | h <;> cases h

/-- **No start without row 1.** -/
theorem instance_of_spent (portFree : Bool) {w : World} (h : Spent w.table) :
    ((instance_ portFree w).1 = .error .typeError ∨
        (instance_ portFree w).1 = .error .operationalError) ∧
      Spent (instance_ portFree w).2.table := by
  have hold : ∀ {n : Int} {table' : Table}, 0 ≤ n → AutoTable.Extended w.table n table' →
      Spent table' := by
    intro n table' hn hext
    have hseq := hext.seq_eq
    have hone := h.1
    exact ⟨by omega, (hext.old 1 h.1).trans h.2⟩
  rcases instance_cases portFree w with
    ⟨table', hext, -, hhas, out, hi⟩ | ⟨table', hext, -, -, out, hi⟩ | ⟨n, table', hn, hext, -, hi⟩
  · exact absurd hhas (not_hasRows le_rfl (by omega) (hold (by omega) hext).2)
  · rw [hi]
    exact ⟨.inl rfl, hold (by omega) hext⟩
  · rw [hi]
    exact ⟨.inr rfl, hold hn hext⟩

/-! ## Every start -/

/-- What happens to the file: the script is started, or a client calls. -/
inductive Event where
  | start (portFree : Bool)
  | request (q : Call)

/-- How the starts end, one after the other. -/
def starts : Table → List Event → List (Except PyError Unit)
  | _, [] => []
  | table, .start portFree :: events =>
    (instance_ portFree { table := createTable (some table) }).1 ::
      starts (instance_ portFree { table := createTable (some table) }).2.table events
  | table, .request q :: events => starts (call q { table }).2.table events

theorem starts_of_spent {table : Table} (h : Spent table) (events : List Event) :
    ∀ r ∈ starts table events, r = .error .typeError ∨ r = .error .operationalError := by
  induction events generalizing table with
  | nil => exact fun r hr => absurd hr List.not_mem_nil
  | cons event events ih =>
    cases event with
    | start portFree =>
      obtain ⟨hraises, hspent⟩ :=
        instance_of_spent portFree (w := { table := createTable (some table) }) h
      rw [starts, List.forall_mem_cons]
      exact ⟨hraises, ih hspent⟩
    | request q => exact ih (h.call (w := { table }) q)

/-- **The service starts once.** Whatever the clients do in between, and whether or not the port is
free, every start after one that returned, or ended at the server, ends in an exception before the
server. -/
theorem instance_once (file : Option Table) (events : List Event) :
    (starts (createTable file) events).Pairwise fun first later =>
      Served first → later = .error .typeError ∨ later = .error .operationalError := by
  generalize createTable file = table
  induction events generalizing table with
  | nil => exact .nil
  | cons event events ih =>
    cases event with
    | start portFree =>
      rw [starts, List.pairwise_cons]
      refine ⟨fun later hlater hserved => ?_, ih _⟩
      exact starts_of_spent (spent_of_served hserved) events later hlater
    | request q => exact ih _

/-- A fresh file: the first start returns, and no other one. -/
example : starts (createTable none)
    [.start true, .request (.addData none), .start true, .start false] =
    [.ok (), .error .typeError, .error .typeError] := by
  decide

end CppExamples.Scripts.TornadoService
