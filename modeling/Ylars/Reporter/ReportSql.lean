import Ylars.Fault
import Ylars.Lib.Sql
import Ylars.Reporter.StoreReport

/-!
# The text of the statements

`report2db` prints each statement into `_sql` and hands the text to `mysql_real_query`.  The
reporter of `StoreReport` takes a statement for the row it writes; here is the text.  It always
fits into `_sql`, and a database that reads the verb, the table, the columns and the numbers
from it writes the row that `report2db` means (`report2db_sql`).

The table is not in the repository.  Its columns are taken to have the widths of the fields
that are reported, and to be written in the letters of the source.
-/

namespace Ylars.Reporter

open Ylars.Lib Ylars.Lib.Overwrite Ylars.Lib.Printf Ylars.Lib.Sql Ylars.Proto

/-! ## What is printed -/

/-- The format of `report2db`, in the pieces that the source has. -/
def insertFormat : List Directive := directives 0 <|
  ["INSERT INTO ServerCallStatus",
    "(modid, cmdid, ip, port, caller, succ_cnt, err_cnt, ts, overload) ",
    "VALUES (%u, %u, %u, %u, %d, %u, %u, %u, %d) ON DUPLICATE KEY ",
    "UPDATE succ_cnt = %u, err_cnt = %u, ts = %u, overload = %u"].flatMap String.toList

/-- The size of `_sql`. -/
def sqlSize : ℕ := 1024

/-- The arguments of `sprintf`. -/
def insertArgs (rep : ReportStatusReq) (res : HostCallResult) : List UInt32 :=
  [rep.modid, rep.cmdid, res.ip, res.port, rep.caller.toUInt32, res.succ, res.err, rep.ts,
    res.overload.toUInt32, res.succ, res.err, rep.ts, res.overload.toUInt32]

/-- `sprintf` into `_sql`, which has to take the text and the zero behind it. -/
def printSql (fmt : List Directive) (args : List UInt32) : Outcome (List Char) :=
  let sql := sprintf fmt args
  if sql.length + 1 ≤ sqlSize then .ok sql else .error .outOfBounds

/-- `report2db`: the texts that are handed to `mysql_real_query`. -/
def report2dbSql (rep : ReportStatusReq) : Outcome (List (List Char)) :=
  rep.result.mapM fun res ↦ printSql insertFormat (insertArgs rep res)

/-! ## What the database does with it -/

/-- The columns of `ServerCallStatus`. -/
inductive Column where
  | modid
  | cmdid
  | ip
  | port
  | caller
  | succCnt
  | errCnt
  | ts
  | overload
deriving DecidableEq, Repr

namespace Column

/-- The name of a column. -/
def name : Column → String
  | modid => "modid"
  | cmdid => "cmdid"
  | ip => "ip"
  | port => "port"
  | caller => "caller"
  | succCnt => "succ_cnt"
  | errCnt => "err_cnt"
  | ts => "ts"
  | overload => "overload"

/-- The column with a name. -/
def ofName (s : List Char) : Option Column :=
  [modid, cmdid, ip, port, caller, succCnt, errCnt, ts, overload].find? fun c ↦ c.name.toList = s

theorem ofName_name (c : Column) : ofName c.name.toList = some c := by
  cases c <;> decide +kernel

end Column

/-- Some columns with their values, if there are columns with these names. -/
def columnValues (ps : List (List Char × Int)) : Option (List (Column × Int)) :=
  ps.mapM fun p ↦ (Column.ofName p.1).map fun column ↦ (column, p.2)

/-- Some columns with their values, under their names. -/
def namedValues (values : List (Column × Int)) : List (List Char × Int) :=
  values.map fun p ↦ (p.1.name.toList, p.2)

theorem columnValues_namedValues (values : List (Column × Int)) :
    columnValues (namedValues values) = some values := by
  rw [columnValues, namedValues, List.mapM_map]
  simp only [Function.comp_def, Column.ofName_name, Option.map_some]
  exact List.mapM_pure.trans (congrArg some (List.map_id' values))

/-- A number in an unsigned column of 32 bits. -/
def unsignedValue (x : Int) : Option UInt32 :=
  if 0 ≤ x ∧ x.toNat < UInt32.size then some (.ofNat x.toNat) else none

/-- A number in a signed column of 32 bits. -/
def signedValue (x : Int) : Option Int32 :=
  if Int32.minValue.toInt ≤ x ∧ x ≤ Int32.maxValue.toInt then some (.ofInt x) else none

/-- A number in a column of truth values. -/
def flagValue (x : Int) : Option Bool :=
  if x = 0 then some false else if x = 1 then some true else none

/-- The unique key in the values of a row. -/
def RowKey.ofValues (values : List (Column × Int)) : Option RowKey := do
  let modid ← (values.lookup .modid).bind unsignedValue
  let cmdid ← (values.lookup .cmdid).bind unsignedValue
  let ip ← (values.lookup .ip).bind unsignedValue
  let port ← (values.lookup .port).bind unsignedValue
  let caller ← (values.lookup .caller).bind signedValue
  return ⟨modid, cmdid, ip, port, caller⟩

/-- The other columns in the values of a row. -/
def StatusRow.ofValues (values : List (Column × Int)) : Option StatusRow := do
  let succCnt ← (values.lookup .succCnt).bind unsignedValue
  let errCnt ← (values.lookup .errCnt).bind unsignedValue
  let ts ← (values.lookup .ts).bind unsignedValue
  let overload ← (values.lookup .overload).bind flagValue
  return ⟨succCnt, errCnt, ts, overload⟩

/-- An assignment to a column that is not in the key. -/
def StatusRow.set (row : StatusRow) : Column × Int → Option StatusRow
  | (.succCnt, x) => (unsignedValue x).map fun x ↦ { row with succCnt := x }
  | (.errCnt, x) => (unsignedValue x).map fun x ↦ { row with errCnt := x }
  | (.ts, x) => (unsignedValue x).map fun x ↦ { row with ts := x }
  | (.overload, x) => (flagValue x).map fun x ↦ { row with overload := x }
  | _ => none

/-- What an insertion does to `ServerCallStatus`, in which `RowKey` is unique: a row with a new key
is put there as it is, and of a row that is there the assigned columns change.  Every column has
to be given once, and the key of a row does not change here. -/
def insertRow (table : StatusTable) (stmt : Insert) : Option StatusTable := do
  let values ← columnValues stmt.values
  let updates ← columnValues stmt.updates
  if stmt.table = "ServerCallStatus".toList ∧ (values.map Prod.fst).Nodup then do
    let key ← RowKey.ofValues values
    let new ← StatusRow.ofValues values
    let row ← match table key with
      | none => some new
      | some old => updates.foldlM StatusRow.set old
    return put table (key, row)
  else none

/-- What the database does with a text. -/
def executeSql (table : StatusTable) (sql : List Char) : Option StatusTable :=
  (Insert.parse (lex sql)).bind (insertRow table)

/-! ## The text is the statement -/

theorem width_insertFormat : width 11 insertFormat < sqlSize := by decide +kernel

theorem printSql_insert (rep : ReportStatusReq) (res : HostCallResult) :
    printSql insertFormat (insertArgs rep res) =
      .ok (sprintf insertFormat (insertArgs rep res)) :=
  if_pos (lt_of_le_of_lt (length_sprintf_le _ _) width_insertFormat)

/-- A word that is printed as it is. -/
def word (s : String) : List Directive := s.toList.map .char

/-- The words and signs of the format. -/
def insertLexemes : List (List Directive) :=
  [word "INSERT", word "INTO", word "ServerCallStatus", [.char '('], word "modid", [.char ','],
    word "cmdid", [.char ','], word "ip", [.char ','], word "port", [.char ','], word "caller",
    [.char ','], word "succ_cnt", [.char ','], word "err_cnt", [.char ','], word "ts",
    [.char ','], word "overload", [.char ')'], word "VALUES", [.char '('], [.unsigned 0],
    [.char ','], [.unsigned 1], [.char ','], [.unsigned 2], [.char ','], [.unsigned 3],
    [.char ','], [.signed 4], [.char ','], [.unsigned 5], [.char ','], [.unsigned 6],
    [.char ','], [.unsigned 7], [.char ','], [.signed 8], [.char ')'], word "ON",
    word "DUPLICATE", word "KEY", word "UPDATE", word "succ_cnt", [.char '='], [.unsigned 9],
    [.char ','], word "err_cnt", [.char '='], [.unsigned 10], [.char ','], word "ts",
    [.char '='], [.unsigned 11], [.char ','], word "overload", [.char '='], [.unsigned 12]]

theorem lexFormat_insertFormat : lexFormat insertFormat = insertLexemes := by decide +kernel

/-- The values that are inserted for a host. -/
def insertedValues (rep : ReportStatusReq) (res : HostCallResult) : List (Column × Int) :=
  [(.modid, rep.modid.toNat), (.cmdid, rep.cmdid.toNat), (.ip, res.ip.toNat),
    (.port, res.port.toNat), (.caller, rep.caller.toInt), (.succCnt, res.succ.toNat),
    (.errCnt, res.err.toNat), (.ts, rep.ts.toNat), (.overload, res.overload.toNat)]

/-- The values that are updated for a host. -/
def updatedValues (rep : ReportStatusReq) (res : HostCallResult) : List (Column × Int) :=
  [(.succCnt, res.succ.toNat), (.errCnt, res.err.toNat), (.ts, rep.ts.toNat),
    (.overload, res.overload.toNat)]

/-- The statement of `report2db` for a host. -/
def insertOf (rep : ReportStatusReq) (res : HostCallResult) : Insert where
  table := "ServerCallStatus".toList
  values := namedValues (insertedValues rep res)
  updates := namedValues (updatedValues rep res)

/-- The words and signs of the text are those of the statement. -/
theorem lex_insert (rep : ReportStatusReq) (res : HostCallResult) :
    lex (sprintf insertFormat (insertArgs rep res)) = (insertOf rep res).words := by
  have hword : ∀ s, sprintf (word s) (insertArgs rep res) = s.toList := fun s ↦ sprintf_chars _
  have hsign : ∀ c, sprintf [.char c] (insertArgs rep res) = [c] := fun c ↦ rfl
  have hunsigned : ∀ i, sprintf [.unsigned i] (insertArgs rep res) =
      decimal ((insertArgs rep res).getD i 0).toNat := fun i ↦ List.append_nil _
  have hsigned : ∀ i, sprintf [.signed i] (insertArgs rep res) =
      decimal ((insertArgs rep res).getD i 0).toInt32.toInt := fun i ↦ List.append_nil _
  have hflag : ∀ b : Bool, b.toUInt32.toInt32.toInt = b.toNat ∧ b.toUInt32.toNat = b.toNat := by
    decide
  have hinserted : ((insertArgs rep res).getD 8 0).toInt32.toInt = res.overload.toNat :=
    (hflag _).1
  have hupdated : ((insertArgs rep res).getD 12 0).toNat = res.overload.toNat := (hflag _).2
  rw [lex_sprintf, lexFormat_insertFormat]
  simp only [insertLexemes, List.map_cons, List.map_nil, hword, hsign, hunsigned, hsigned,
    hinserted, hupdated]
  have hvalues : (insertOf rep res).values = [("modid".toList, (rep.modid.toNat : Int)),
      ("cmdid".toList, (rep.cmdid.toNat : Int)), ("ip".toList, (res.ip.toNat : Int)),
      ("port".toList, (res.port.toNat : Int)), ("caller".toList, rep.caller.toInt),
      ("succ_cnt".toList, (res.succ.toNat : Int)), ("err_cnt".toList, (res.err.toNat : Int)),
      ("ts".toList, (rep.ts.toNat : Int)), ("overload".toList, (res.overload.toNat : Int))] := rfl
  have hupdates : (insertOf rep res).updates = [("succ_cnt".toList, (res.succ.toNat : Int)),
      ("err_cnt".toList, (res.err.toNat : Int)), ("ts".toList, (rep.ts.toNat : Int)),
      ("overload".toList, (res.overload.toNat : Int))] := rfl
  rw [Insert.words, hvalues, hupdates]
  rfl

theorem unsignedValue_toNat (x : UInt32) : unsignedValue x.toNat = some x := by
  rw [unsignedValue, Int.toNat_natCast, if_pos ⟨Int.natCast_nonneg _, x.toNat_lt_size⟩,
    UInt32.ofNat_toNat]

theorem signedValue_toInt (x : Int32) : signedValue x.toInt = some x := by
  rw [signedValue, if_pos ⟨x.minValue_le_toInt, x.toInt_le⟩, Int32.ofInt_toInt]

theorem flagValue_toNat : ∀ b : Bool, flagValue b.toNat = some b := by decide

theorem ofValues_insertedValues (rep : ReportStatusReq) (res : HostCallResult) :
    RowKey.ofValues (insertedValues rep res) =
        some ⟨rep.modid, rep.cmdid, res.ip, res.port, rep.caller⟩ ∧
      StatusRow.ofValues (insertedValues rep res) =
        some ⟨res.succ, res.err, rep.ts, res.overload⟩ := by
  have hunsigned : ∀ c (x : UInt32), (insertedValues rep res).lookup c = some (x.toNat : Int) →
      ((insertedValues rep res).lookup c).bind unsignedValue = some x := by
    intro c x h
    rw [h, Option.bind_some, unsignedValue_toNat]
  have hcaller : ((insertedValues rep res).lookup .caller).bind signedValue = some rep.caller :=
    signedValue_toInt _
  have hoverload : ((insertedValues rep res).lookup .overload).bind flagValue =
      some res.overload := flagValue_toNat _
  rw [RowKey.ofValues, hunsigned .modid rep.modid rfl, hunsigned .cmdid rep.cmdid rfl,
    hunsigned .ip res.ip rfl, hunsigned .port res.port rfl, hcaller, StatusRow.ofValues,
    hunsigned .succCnt res.succ rfl, hunsigned .errCnt res.err rfl, hunsigned .ts rep.ts rfl,
    hoverload]
  exact ⟨rfl, rfl⟩

/-- The updates replace all columns that are not in the key. -/
theorem set_updatedValues (rep : ReportStatusReq) (res : HostCallResult) (row : StatusRow) :
    (updatedValues rep res).foldlM StatusRow.set row =
      some ⟨res.succ, res.err, rep.ts, res.overload⟩ := by
  simp only [updatedValues, List.foldlM_cons, List.foldlM_nil, StatusRow.set, unsignedValue_toNat,
    flagValue_toNat, Option.map_some, Option.bind_eq_bind, Option.bind_some]
  rfl

/-- An insertion whose updates make the new row of every other puts the new row. -/
theorem insertRow_of_updates {table : StatusTable} {stmt : Insert}
    {values updates : List (Column × Int)} {key : RowKey} {new : StatusRow}
    (hvalues : columnValues stmt.values = some values)
    (hupdates : columnValues stmt.updates = some updates)
    (hcolumns : stmt.table = "ServerCallStatus".toList ∧ (values.map Prod.fst).Nodup)
    (hkey : RowKey.ofValues values = some key) (hnew : StatusRow.ofValues values = some new)
    (hset : ∀ row, updates.foldlM StatusRow.set row = some new) :
    insertRow table stmt = some (put table (key, new)) := by
  simp only [insertRow, hvalues, hupdates, Option.bind_eq_bind, Option.bind_some, if_pos hcolumns,
    hkey, hnew, hset]
  cases table key <;> rfl

/-- The statement puts the row of the host, also where there is one. -/
theorem insertRow_insertOf (table : StatusTable) (rep : ReportStatusReq) (res : HostCallResult) :
    insertRow table (insertOf rep res) = some (put table
      (⟨rep.modid, rep.cmdid, res.ip, res.port, rep.caller⟩,
        ⟨res.succ, res.err, rep.ts, res.overload⟩)) := by
  obtain ⟨hkey, hnew⟩ := ofValues_insertedValues rep res
  have hnodup : [Column.modid, .cmdid, .ip, .port, .caller, .succCnt, .errCnt, .ts,
      .overload].Nodup := by decide
  exact insertRow_of_updates (columnValues_namedValues _) (columnValues_namedValues _)
    ⟨rfl, hnodup⟩ hkey hnew (set_updatedValues rep res)

theorem executeSql_insert (table : StatusTable) (rep : ReportStatusReq) (res : HostCallResult) :
    executeSql table (sprintf insertFormat (insertArgs rep res)) = some (put table
      (⟨rep.modid, rep.cmdid, res.ip, res.port, rep.caller⟩,
        ⟨res.succ, res.err, rep.ts, res.overload⟩)) := by
  have hparse : Insert.parse (insertOf rep res).words = some (insertOf rep res) :=
    Insert.parse_words (List.cons_ne_nil _ _) (List.cons_ne_nil _ _)
  rw [executeSql, lex_insert, hparse, Option.bind_some, insertRow_insertOf]

/-- **The texts do what is meant.**  For every report, each text that `report2db` prints fits
into `_sql`.  The database that takes the texts one after the other, and reads from each of them
the table, the columns with their values and the columns to update with theirs, writes the rows
of the report. -/
theorem report2db_sql (rep : ReportStatusReq) :
    ∃ sqls, report2dbSql rep = .ok sqls ∧
      ∀ table, sqls.foldlM executeSql table = some (writeAll table (report2db rep)) := by
  refine ⟨rep.result.map fun res ↦ sprintf insertFormat (insertArgs rep res), ?_, fun table ↦ ?_⟩
  · rw [report2dbSql, funext (printSql_insert rep)]
    exact List.mapM_pure
  · rw [report2db]
    induction rep.result generalizing table with
    | nil => rfl
    | cons res results ih =>
        rw [List.map_cons, List.foldlM_cons, executeSql_insert]
        exact ih _

end Ylars.Reporter
