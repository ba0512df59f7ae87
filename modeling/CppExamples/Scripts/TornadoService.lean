import CppExamples.Lib.AutoTable
import Mathlib.Logic.Function.Basic

/-!
# The data service (`cjunk/practice/test_tornadoService.py:16-184`)

A table of texts behind five layers: `Database` runs the SQL statements, `Controller` makes
dictionaries of the rows, the other layers pass on. The key of the table is
`INTEGER PRIMARY KEY AUTOINCREMENT`, so the table is an `AutoTable` with the keys that SQLite has.
`CREATE TABLE IF NOT EXISTS` keeps whatever table `data` the file has: the files here have none, or
one that this statement created. The statements are committed one by one, so the table after a call
is the one that the file holds, whether or not the call raises an exception; no other process writes
the file.

* `get_data` and `update_data` of a key without a row raise the `TypeError` of `None[0]`; an `int`
  that SQLite has no integer for raises an `OverflowError`; a table without a next key raises an
  `OperationalError`.
* `instance_` is `instance`. Whether the port 8000 is free when it gets to the server comes from
  outside; see `CppExamples/Scripts/Restarts.lean`. What the server answers has nothing to do with
  the table.

Results:

* `calls_refine`: in every run of calls all replies are those of a partial function from keys to
  texts, with a counter; a call that raises changes nothing.
* `added_of_run`: the keys that a run adds are the numbers after the largest one before it, whatever
  was deleted in between.
-/

namespace CppExamples.Scripts.TornadoService

open Lib

/-! ## Python and SQLite -/

/-- A value of the column `data`: a `str`, or `None`. -/
abbrev Text := Option String

/-- The table `data`. -/
abbrev Table := AutoTable Text

/-- A row as the cursor gives it: `(id, data)`. -/
abbrev Row := Int × Text

inductive PyError where
  /-- `'NoneType' object is not subscriptable`. -/
  | typeError
  /-- `Python int too large to convert to SQLite INTEGER`. -/
  | overflowError
  /-- `sqlite3.OperationalError: database or disk is full`. -/
  | operationalError
  /-- `Address already in use`. -/
  | osError
  deriving DecidableEq, Repr

/-- The dictionary `{"id": …, "data": …}`. -/
structure Dto where
  id : Int
  data : Text
  deriving DecidableEq, Repr

/-- What `print` gets. -/
inductive Printed where
  | one (dto : Dto)
  | all (dtos : List Dto)
  deriving DecidableEq, Repr

/-- The table, and what the process has printed. -/
structure World where
  table : Table
  out : List Printed := []

/-- A call: its result or its exception, and the world after it. -/
def Py (α : Type) : Type := World → Except PyError α × World

/-- Sequencing: an exception ends the sequence, and what was done before it stays. -/
def Py.bind {α β : Type} (m : Py α) (f : α → Py β) : Py β := fun w =>
  match m w with
  | (.ok a, w') => f a w'
  | (.error e, w') => (.error e, w')

instance monadPy : Monad Py where
  pure a := fun w => (.ok a, w)
  bind := Py.bind

/-- `raise`. -/
def raise {α : Type} (e : PyError) : Py α := fun w => (.error e, w)

/-- `print`. -/
def print (p : Printed) : Py Unit := fun w => (.ok (), { w with out := w.out ++ [p] })

/-- The largest key, `2 ^ 63 - 1`. -/
def maxRowid : Int := 9223372036854775807

/-- The integers that SQLite has. -/
def IsInteger (id : Int) : Prop := -maxRowid - 1 ≤ id ∧ id ≤ maxRowid

instance decidableIsInteger (id : Int) : Decidable (IsInteger id) :=
  inferInstanceAs (Decidable (_ ∧ _))

/-- The parameter `id` of a statement. -/
def bindInteger (id : Int) : Py Unit := if IsInteger id then pure () else raise .overflowError

/-- A statement that reads the table. -/
def fetch {α : Type} (f : Table → α) : Py α := fun w => (.ok (f w.table), w)

/-- A statement that changes the table, and `commit`. -/
def execute (f : Table → Table) : Py Unit := fun w => (.ok (), { w with table := f w.table })

/-! ## The layers -/

namespace Database

/-- `SELECT * FROM data`, `fetchall`. -/
def getAllData : Py (List Row) := fetch AutoTable.rows

/-- `SELECT * FROM data WHERE id=?`, `fetchone`. -/
def getData (id : Int) : Py (Option Row) := do
  bindInteger id
  fetch fun table => (table.select id).head?

/-- `INSERT INTO data(data) VALUES (?)`, `lastrowid`. -/
def addData (data : Text) : Py Int := fun w =>
  match w.table.insert maxRowid data with
  | some (id, table) => (.ok id, { w with table })
  | none => (.error .operationalError, w)

/-- `UPDATE data SET data=? WHERE id=?`. -/
def updateData (id : Int) (data : Text) : Py Unit := do
  bindInteger id
  execute fun table => table.update id data

/-- `DELETE FROM data WHERE id=?`. -/
def deleteData (id : Int) : Py Unit := do
  bindInteger id
  execute fun table => table.delete id

end Database

namespace BusinessLogic

def getAllData : Py (List Row) := Database.getAllData

def getData (id : Int) : Py (Option Row) := Database.getData id

def addData (data : Text) : Py Int := Database.addData data

def updateData (id : Int) (data : Text) : Py Unit := Database.updateData id data

def deleteData (id : Int) : Py Unit := Database.deleteData id

end BusinessLogic

namespace DataTransferObject

/-- `get_all_data_dto`. -/
def getAllDataDto (data : List Row) : List Dto := data.map fun row => ⟨row.1, row.2⟩

/-- `get_data_dto`: there is no row behind a `None`. -/
def getDataDto : Option Row → Py Dto
  | some row => pure ⟨row.1, row.2⟩
  | none => raise .typeError

end DataTransferObject

namespace Controller

def getAllData : Py (List Dto) := do
  let data ← BusinessLogic.getAllData
  return DataTransferObject.getAllDataDto data

def getData (id : Int) : Py Dto := do
  let data ← BusinessLogic.getData id
  DataTransferObject.getDataDto data

def addData (data : Text) : Py Dto := do
  let id ← BusinessLogic.addData data
  getData id

def updateData (id : Int) (data : Text) : Py Dto := do
  BusinessLogic.updateData id data
  getData id

def deleteData (id : Int) : Py Unit := BusinessLogic.deleteData id

end Controller

namespace InterfaceLayer

def getAllData : Py (List Dto) := Controller.getAllData

def getData (id : Int) : Py Dto := Controller.getData id

def addData (data : Text) : Py Dto := Controller.addData data

def updateData (id : Int) (data : Text) : Py Dto := Controller.updateData id data

def deleteData (id : Int) : Py Unit := Controller.deleteData id

end InterfaceLayer

namespace Client

def getAllData : Py (List Dto) := InterfaceLayer.getAllData

def getData (id : Int) : Py Dto := InterfaceLayer.getData id

def addData (data : Text) : Py Dto := InterfaceLayer.addData data

def updateData (id : Int) (data : Text) : Py Dto := InterfaceLayer.updateData id data

def deleteData (id : Int) : Py Unit := InterfaceLayer.deleteData id

end Client

/-- `# add data`, of `instance`. -/
def addRows : Py Unit := do
  let _ ← Client.addData (some "data1")
  let _ ← Client.addData (some "data2")
  let _ ← Client.addData (some "data3")

/-- `print(client.get_data(id))`. -/
def printRow (id : Int) : Py Unit := do
  let dto ← Client.getData id
  print (.one dto)

/-- `# get data`. -/
def getRows : Py Unit := do
  printRow 1
  printRow 2
  printRow 3

/-- `# update data`. -/
def updateRow : Py Unit := do
  let _ ← Client.updateData 1 (some "data1 updated")
  printRow 1

/-- `# delete data`. -/
def deleteRow : Py Unit := do
  Client.deleteData 1
  let dtos ← Client.getAllData
  print (.all dtos)

/-- `# run server`: `HTTPServer(('', 8000), MyHandler)` binds its socket. -/
def runServer (portFree : Bool) : Py Unit := if portFree then pure () else raise .osError

/-- `instance`, from `# add data` on. -/
def instance_ (portFree : Bool) : Py Unit := do
  addRows
  getRows
  updateRow
  deleteRow
  runServer portFree

/-- `CREATE TABLE IF NOT EXISTS data`, of a file without the table or with one that this statement
created. -/
def createTable (file : Option Table) : Table := file.getD .empty

/-- A call of a client. -/
inductive Call where
  | getAllData
  | getData (id : Int)
  | addData (data : Text)
  | updateData (id : Int) (data : Text)
  | deleteData (id : Int)

/-- What a call returns. -/
inductive Reply where
  | all (dtos : List Dto)
  | one (dto : Dto)
  | none

/-- The call of the client. -/
def call : Call → Py Reply
  | .getAllData => do return .all (← Client.getAllData)
  | .getData id => do return .one (← Client.getData id)
  | .addData data => do return .one (← Client.addData data)
  | .updateData id data => do return .one (← Client.updateData id data)
  | .deleteData id => do
    Client.deleteData id
    return .none

/-- Calls one after the other, whether or not they raise, and their replies. -/
def runCalls : World → List Call → List (Except PyError Reply) × World
  | w, [] => ([], w)
  | w, q :: qs => ((call q w).1 :: (runCalls (call q w).2 qs).1, (runCalls (call q w).2 qs).2)

/-! ## Sequences -/

section Sequences

variable {α β : Type} {m : Py α} {f : α → Py β} {w w' : World}

theorem bind_of_ok {a : α} (h : m w = (.ok a, w')) : (m >>= f) w = f a w' := by
  change Py.bind m f w = _
  rw [Py.bind, h]

theorem bind_of_error {e : PyError} (h : m w = (.error e, w')) :
    (m >>= f) w = (.error e, w') := by
  change Py.bind m f w = _
  rw [Py.bind, h]

theorem bindInteger_bind {f : Unit → Py β} (id : Int) (w : World) :
    (bindInteger id >>= f) w = if IsInteger id then f () w else (.error .overflowError, w) := by
  split
  · rename_i hid
    exact bind_of_ok (by rw [bindInteger, if_pos hid]; rfl)
  · rename_i hid
    exact bind_of_error (by rw [bindInteger, if_neg hid]; rfl)

end Sequences

/-! ## One call -/

section Calls

variable {w : World} {id : Int} {data : Text}

theorem getAllData_apply (w : World) :
    Client.getAllData w = (.ok (w.table.rows.map fun row => ⟨row.1, row.2⟩), w) := rfl

/-- `get_data` with a row, without one, and with an `int` that is too large. -/
theorem getData_of_some (hid : IsInteger id) (h : w.table.contents id = some data) :
    Client.getData id w = (.ok ⟨id, data⟩, w) := by
  have hrow : Database.getData id w = (.ok (some (id, data)), w) := by
    rw [Database.getData, bindInteger_bind, if_pos hid, fetch, AutoTable.select_eq, h]
    rfl
  exact bind_of_ok hrow

theorem getData_of_none (hid : IsInteger id) (h : w.table.contents id = none) :
    Client.getData id w = (.error .typeError, w) := by
  have hrow : Database.getData id w = (.ok none, w) := by
    rw [Database.getData, bindInteger_bind, if_pos hid, fetch, AutoTable.select_eq, h]
    rfl
  exact bind_of_ok hrow

theorem getData_of_not_isInteger (hid : ¬IsInteger id) :
    Client.getData id w = (.error .overflowError, w) := by
  have hrow : Database.getData id w = (.error .overflowError, w) := by
    rw [Database.getData, bindInteger_bind, if_neg hid]
  exact bind_of_error hrow

theorem addData_of_insert {table : Table} (h : w.table.insert maxRowid data = some (id, table)) :
    Client.addData data w = (.ok ⟨id, data⟩, { w with table }) := by
  have hdb : Database.addData data w = (.ok id, { w with table }) := by
    rw [Database.addData, h]
  obtain ⟨hlt, hid, -⟩ := AutoTable.insert_eq_some h
  have hnonneg := w.table.seq_nonneg
  have hinteger : IsInteger id := ⟨by unfold maxRowid; omega, by omega⟩
  have hget : Client.getData id { w with table } = (.ok ⟨id, data⟩, { w with table }) :=
    getData_of_some hinteger (by rw [AutoTable.contents_insert h, if_pos rfl])
  exact (bind_of_ok hdb).trans hget

theorem addData_of_full (h : w.table.insert maxRowid data = none) :
    Client.addData data w = (.error .operationalError, w) := by
  have hdb : Database.addData data w = (.error .operationalError, w) := by
    rw [Database.addData, h]
  exact bind_of_error hdb

theorem updateData_apply (hid : IsInteger id) (data : Text) (w : World) :
    Client.updateData id data w =
      Client.getData id { w with table := w.table.update id data } := by
  have hdb : Database.updateData id data w =
      (.ok (), { w with table := w.table.update id data }) := by
    rw [Database.updateData, bindInteger_bind, if_pos hid, execute]
  exact bind_of_ok hdb

theorem updateData_of_not_isInteger (hid : ¬IsInteger id) :
    Client.updateData id data w = (.error .overflowError, w) := by
  have hdb : Database.updateData id data w = (.error .overflowError, w) := by
    rw [Database.updateData, bindInteger_bind, if_neg hid]
  exact bind_of_error hdb

theorem deleteData_apply (id : Int) (w : World) : Client.deleteData id w =
    if IsInteger id then (.ok (), { w with table := w.table.delete id })
    else (.error .overflowError, w) :=
  bindInteger_bind id w

end Calls

/-! ## The service as a partial function -/

/-- The texts by key, and the number of keys given out. -/
structure Contents where
  data : Int → Option Text
  seq : Int

/-- What the table holds. -/
def contents (table : Table) : Contents := ⟨table.contents, table.seq⟩

/-- The replies to a call, and the contents after it. -/
inductive Answers (c : Contents) : Call → Except PyError Reply → Contents → Prop where
  | all {dtos : List Dto} (nodup : (dtos.map Dto.id).Nodup)
      (rows : ∀ id data, ⟨id, data⟩ ∈ dtos ↔ c.data id = some data) :
      Answers c .getAllData (.ok (.all dtos)) c
  | get {id : Int} {data : Text} (hid : IsInteger id) (row : c.data id = some data) :
      Answers c (.getData id) (.ok (.one ⟨id, data⟩)) c
  | getMissing {id : Int} (hid : IsInteger id) (free : c.data id = none) :
      Answers c (.getData id) (.error .typeError) c
  | getLarge {id : Int} (hid : ¬IsInteger id) : Answers c (.getData id) (.error .overflowError) c
  | add {data : Text} (next : c.seq < maxRowid) :
      Answers c (.addData data) (.ok (.one ⟨c.seq + 1, data⟩))
        ⟨Function.update c.data (c.seq + 1) (some data), c.seq + 1⟩
  | addFull {data : Text} (full : maxRowid ≤ c.seq) :
      Answers c (.addData data) (.error .operationalError) c
  | update {id : Int} {data : Text} (hid : IsInteger id) (row : (c.data id).isSome) :
      Answers c (.updateData id data) (.ok (.one ⟨id, data⟩))
        ⟨Function.update c.data id (some data), c.seq⟩
  | updateMissing {id : Int} {data : Text} (hid : IsInteger id) (free : c.data id = none) :
      Answers c (.updateData id data) (.error .typeError) c
  | updateLarge {id : Int} {data : Text} (hid : ¬IsInteger id) :
      Answers c (.updateData id data) (.error .overflowError) c
  | delete {id : Int} (hid : IsInteger id) :
      Answers c (.deleteData id) (.ok .none) ⟨Function.update c.data id none, c.seq⟩
  | deleteLarge {id : Int} (hid : ¬IsInteger id) :
      Answers c (.deleteData id) (.error .overflowError) c

/-- The replies to a sequence of calls, and the contents after them. -/
inductive Answered : Contents → List Call → List (Except PyError Reply) → Contents → Prop where
  | nil (c : Contents) : Answered c [] [] c
  | cons {c c' c'' : Contents} {q : Call} {r : Except PyError Reply} {qs : List Call}
      {rs : List (Except PyError Reply)} (head : Answers c q r c') (tail : Answered c' qs rs c'') :
      Answered c (q :: qs) (r :: rs) c''

section Contents

variable {table table' : Table} {id : Int} {data : Text}

theorem contents_insert (h : table.insert maxRowid data = some (id, table')) :
    contents table' = ⟨Function.update (contents table).data id (some data), table.seq + 1⟩ := by
  obtain ⟨-, -, hseq⟩ := AutoTable.insert_eq_some h
  rw [contents, hseq]
  congr 1
  funext k
  rw [AutoTable.contents_insert h, Function.update_apply]
  rfl

theorem contents_update (h : (table.contents id).isSome) : contents (table.update id data) =
    ⟨Function.update (contents table).data id (some data), table.seq⟩ := by
  obtain ⟨old, hold⟩ := Option.isSome_iff_exists.mp h
  rw [contents]
  congr 1
  funext k
  rw [AutoTable.contents_update, Function.update_apply, hold]
  rfl

theorem contents_update_of_none (h : table.contents id = none) :
    contents (table.update id data) = contents table := by
  rw [contents, contents]
  congr 1
  funext k
  rw [AutoTable.contents_update]
  split
  · rename_i hk
    rw [hk, h]
    rfl
  · rfl

theorem contents_delete (table : Table) (id : Int) : contents (table.delete id) =
    ⟨Function.update (contents table).data id none, table.seq⟩ := by
  rw [contents]
  congr 1
  funext k
  rw [AutoTable.contents_delete, Function.update_apply]
  rfl

end Contents

theorem answers_getAllData (w : World) :
    Answers (contents w.table) .getAllData (call .getAllData w).1
      (contents (call .getAllData w).2.table) := by
  have hcall : call .getAllData w = (.ok (.all (w.table.rows.map fun row => ⟨row.1, row.2⟩)), w) :=
    bind_of_ok (getAllData_apply w)
  rw [hcall]
  refine .all ?_ fun id data => ?_
  · rw [List.map_map]
    exact (List.pairwise_map.mpr (w.table.sorted.imp fun h => ne_of_lt h))
  · simp only [List.mem_map, Dto.mk.injEq, Prod.exists, exists_eq_right_right, exists_eq_right]
    exact AutoTable.mem_rows_iff

theorem answers_getData (id : Int) (w : World) :
    Answers (contents w.table) (.getData id) (call (.getData id) w).1
      (contents (call (.getData id) w).2.table) := by
  by_cases hid : IsInteger id
  · cases h : w.table.contents id with
    | some data =>
      have hcall : call (.getData id) w = (.ok (.one ⟨id, data⟩), w) :=
        bind_of_ok (getData_of_some hid h)
      rw [hcall]
      exact .get hid h
    | none =>
      have hcall : call (.getData id) w = (.error .typeError, w) :=
        bind_of_error (getData_of_none hid h)
      rw [hcall]
      exact .getMissing hid h
  · have hcall : call (.getData id) w = (.error .overflowError, w) :=
      bind_of_error (getData_of_not_isInteger hid)
    rw [hcall]
    exact .getLarge hid

theorem answers_addData (data : Text) (w : World) :
    Answers (contents w.table) (.addData data) (call (.addData data) w).1
      (contents (call (.addData data) w).2.table) := by
  cases h : w.table.insert maxRowid data with
  | some row =>
    obtain ⟨id, table⟩ := row
    have hcall : call (.addData data) w = (.ok (.one ⟨id, data⟩), { w with table }) :=
      bind_of_ok (addData_of_insert h)
    obtain ⟨hlt, rfl, -⟩ := AutoTable.insert_eq_some h
    rw [hcall, contents_insert h]
    exact .add hlt
  | none =>
    have hcall : call (.addData data) w = (.error .operationalError, w) :=
      bind_of_error (addData_of_full h)
    rw [hcall]
    exact .addFull (AutoTable.insert_eq_none.mp h)

theorem answers_updateData (id : Int) (data : Text) (w : World) :
    Answers (contents w.table) (.updateData id data) (call (.updateData id data) w).1
      (contents (call (.updateData id data) w).2.table) := by
  by_cases hid : IsInteger id
  · cases h : w.table.contents id with
    | some old =>
      have hrow : (w.table.update id data).contents id = some data := by
        rw [AutoTable.contents_update, if_pos rfl, h]
        rfl
      have hcall : call (.updateData id data) w =
          (.ok (.one ⟨id, data⟩), { w with table := w.table.update id data }) :=
        bind_of_ok ((updateData_apply hid data w).trans (getData_of_some hid hrow))
      have hsome : (w.table.contents id).isSome := Option.isSome_iff_exists.mpr ⟨old, h⟩
      rw [hcall, contents_update hsome]
      exact .update hid hsome
    | none =>
      have hrow : (w.table.update id data).contents id = none := by
        rw [AutoTable.contents_update, if_pos rfl, h]
        rfl
      have hcall : call (.updateData id data) w =
          (.error .typeError, { w with table := w.table.update id data }) :=
        bind_of_error ((updateData_apply hid data w).trans (getData_of_none hid hrow))
      rw [hcall, contents_update_of_none h]
      exact .updateMissing hid h
  · have hcall : call (.updateData id data) w = (.error .overflowError, w) :=
      bind_of_error (updateData_of_not_isInteger hid)
    rw [hcall]
    exact .updateLarge hid

theorem answers_deleteData (id : Int) (w : World) :
    Answers (contents w.table) (.deleteData id) (call (.deleteData id) w).1
      (contents (call (.deleteData id) w).2.table) := by
  by_cases hid : IsInteger id
  · have hcall : call (.deleteData id) w =
        (.ok .none, { w with table := w.table.delete id }) :=
      bind_of_ok ((deleteData_apply id w).trans (if_pos hid))
    rw [hcall, contents_delete]
    exact .delete hid
  · have hcall : call (.deleteData id) w = (.error .overflowError, w) :=
      bind_of_error ((deleteData_apply id w).trans (if_neg hid))
    rw [hcall]
    exact .deleteLarge hid

/-- **One call.** -/
theorem call_answers (q : Call) (w : World) :
    Answers (contents w.table) q (call q w).1
      (contents (call q w).2.table) := by
  cases q with
  | getAllData => exact answers_getAllData w
  | getData id => exact answers_getData id w
  | addData data => exact answers_addData data w
  | updateData id data => exact answers_updateData id data w
  | deleteData id => exact answers_deleteData id w

/-- **Every run of calls is one of the partial function**, with all replies and exceptions. -/
theorem calls_refine (w : World) (qs : List Call) :
    Answered (contents w.table) qs (runCalls w qs).1 (contents (runCalls w qs).2.table) := by
  induction qs generalizing w with
  | nil => exact .nil _
  | cons q qs ih => exact .cons (call_answers q w) (ih (call q w).2)

/-! ## The keys that a run adds -/

/-- The keys that were answered to `add_data`. -/
def added : List Call → List (Except PyError Reply) → List Int
  | .addData _ :: qs, .ok (.one dto) :: rs => dto.id :: added qs rs
  | _ :: qs, _ :: rs => added qs rs
  | _, _ => []

/-- The number of calls of `add_data`. -/
def adds : List Call → Nat
  | .addData _ :: qs => adds qs + 1
  | _ :: qs => adds qs
  | [] => 0

/-- The next `n` keys, as far as there are any. -/
def nextKeys (seq : Int) (n : Nat) : List Int :=
  (List.range (min n (maxRowid - seq).toNat)).map fun k : Nat => seq + 1 + (k : Int)

theorem nextKeys_succ {seq : Int} (h : seq < maxRowid) (n : Nat) :
    nextKeys seq (n + 1) = (seq + 1) :: nextKeys (seq + 1) n := by
  have hmin : min (n + 1) (maxRowid - seq).toNat = min n (maxRowid - (seq + 1)).toNat + 1 := by
    omega
  rw [nextKeys, hmin, List.range_succ_eq_map, List.map_cons, List.map_map, nextKeys]
  refine List.cons_eq_cons.mpr ⟨by simp, List.map_congr_left fun k _ => ?_⟩
  simp only [Function.comp, Nat.succ_eq_add_one, Int.natCast_add, Int.natCast_one]
  omega

theorem nextKeys_full {seq : Int} (h : maxRowid ≤ seq) (n : Nat) : nextKeys seq n = [] := by
  have hmin : min n (maxRowid - seq).toNat = 0 := by omega
  rw [nextKeys, hmin]
  rfl

/-- One call more in front. -/
theorem Answers.added_cons {c c' : Contents} {q : Call} {r : Except PyError Reply}
    (h : Answers c q r c') {qs : List Call} {rs : List (Except PyError Reply)}
    (hrest : added qs rs = nextKeys c'.seq (adds qs)) :
    added (q :: qs) (r :: rs) = nextKeys c.seq (adds (q :: qs)) := by
  cases h with
  | add hnext => rw [adds, nextKeys_succ hnext, added, hrest]
  | addFull hfull =>
    rw [nextKeys_full hfull] at hrest ⊢
    exact hrest
  | _ => exact hrest

/-- **The keys added in a run are the numbers after the largest one before it**, in order, whatever
the run deletes: no key is given out twice, and none that a row ever had. -/
theorem added_of_run (w : World) (qs : List Call) :
    added qs (runCalls w qs).1 = nextKeys w.table.seq (adds qs) := by
  induction qs generalizing w with
  | nil => simp [added, adds, nextKeys]
  | cons q qs ih => exact (call_answers q w).added_cons (ih (call q w).2)

end CppExamples.Scripts.TornadoService
