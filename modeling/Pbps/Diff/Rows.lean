/-
Declared rows: `diff_data` of `schema_diff.rs`, with `forwarded_rows` of `enum_labels.rs`. Rows are
matched by key, and a cell is resolved on each side against that side's own table.
-/
import Pbps.Diff.Columns

namespace Pbps

open Std (ExtTreeMap ExtTreeSet)

/-- `Table::row_columns`: the columns a row may write, the key aside. -/
def Table.rowColumns (t : Table) (keyColumn : ColumnName) : List (ColumnName × Column) :=
  (t.columnList.filter fun (c, spec) => c ≠ keyColumn && !spec.valueSource.enginesOwn).filter
    fun (c, _) => !t.systemTime.any (·.isPeriodColumn c)

namespace Diff

/-! ## Label renames -/

abbrev LabelRenames := ExtTreeMap Uid (List (Nat × String × String))

def LabelRenames.le (a b : Nat × String × String) : Bool :=
  a.1 < b.1 || (a.1 == b.1 && (a.2.1 < b.2.1 || (a.2.1 == b.2.1 && a.2.2 ≤ b.2.2)))

/-- `label_renames`. -/
def labelRenames (changes : List Change) : LabelRenames :=
  (changes.foldl (fun (out : LabelRenames) change =>
    match change with
    | .renameEnumValue uid _ from_ to_ ordinal _ _ => out.insert uid (out.getD uid [] ++ [(ordinal, from_, to_)])
    | _ => out) ∅).map fun _ pairs => pairs.mergeSort LabelRenames.le

/-- `carried_label`, forward: a label the database has now, as the plan leaves it. -/
def carriedLabel (pairs : List (Nat × String × String)) (label : String) : String :=
  pairs.foldl (fun now (_, from_, to_) => if now = from_ then to_ else now) label

def columnRenames (ids : IdsFile) (renames : LabelRenames) (column : Column) : Option (List (Nat × String × String)) :=
  if column.ty.array then none
  else column.ty.user.bind (uidOf ids.types) |>.bind fun uid => renames[uid]?

/-- `forwarded_rows`: the rows a table holds as the plan's label renames leave them. -/
def forwardedRows (ids : IdsFile) (renames : LabelRenames) (table : Table) : Table :=
  match table.data with
  | none => table
  | some data =>
    let carry (column : ColumnName) (label : String) : String :=
      match (table.columns.lookup column).bind (columnRenames ids renames) with
      | some pairs => carriedLabel pairs label
      | none => label
    let carryKey (key : RowKey) : RowKey :=
      match table.primaryKey.map (·.columns) with
      | some [only] => carry only key
      | _ => key
    let carryRow (row : Row) : Row :=
      row.map fun column value =>
        match value with
        | .text label => .text (carry column label)
        | value => value
    if table.columnList.any fun (_, c) => (columnRenames ids renames c).isSome then
      { table with data := some ⟨data.mode, .ofList (data.rows.toList.map fun (k, r) => (carryKey k, carryRow r))⟩ }
    else table

/-! ## The key -/

/-- `BaselineDataKey`. -/
inductive BaselineDataKey where
  | absent
  | single (column : ColumnName)
  | multiple (columns : List ColumnName)

def BaselineDataKey.of (table : Table) : BaselineDataKey :=
  match table.primaryKey.map (·.columns) with
  | none => .absent
  | some [column] => .single column
  | some columns => .multiple columns

/-- Whether the plan so far puts a primary key of this one column on a table without one. -/
def restoresKey (plan : List Change) (name : TableName) (keyColumn : ColumnName) : Bool :=
  plan.any fun change =>
    match change with
    | .setPrimaryKey table none (some pk) _ => table = name && pk.columns = [keyColumn]
    | _ => false

section Data

variable (name : TableName) (base declared : Table) (baseNameOf : ExtTreeMap ColumnName ColumnName)

/-- What keeps the two sides' row keys from being keys of one column. -/
def dataKeyError (plan : List Change) (keyColumn : ColumnName) : Option DiffError :=
  match BaselineDataKey.of base with
  | .absent =>
    if !restoresKey plan name keyColumn then some (.dataBaselineKeyAbsent name)
    else if !baseNameOf[keyColumn]?.any fun c => decide (c ∈ base.columns) then
      some (.dataBaselineKeyOnNewColumn name keyColumn)
    else none
  | .multiple columns => some (.dataBaselineKeyNotSingle name columns)
  | .single baseKey => if baseNameOf[keyColumn]? ≠ some baseKey then some (.dataKeyColumnChanged name) else none

/-! ## One row -/

/-- `omitted_defaults`: the defaults an inserted row is left to, and the types of its columns. -/
def omittedDefaults (table : Table) (keyColumn : ColumnName) (row : Row) :
    ExtTreeMap ColumnName String × ExtTreeMap ColumnName ColumnType :=
  (.ofList ((table.rowColumns keyColumn).filterMap fun (c, spec) =>
      if row.contains c then none else spec.valueSource.default?.map fun e => (c, e)),
    .ofList ((table.rowColumns keyColumn).map fun (c, spec) => (c, spec.ty)))

variable (keyColumn : ColumnName)

def comparedColumns : List (ColumnName × Column) :=
  declared.columnList.filter fun (c, spec) => c ≠ keyColumn && !spec.valueSource.enginesOwn

/-- The base's cell of a declared column, under the name the base has for it: a column the base does
not have is NULL there. -/
def baseCell (before : Row) (column : ColumnName) : Cell :=
  match baseNameOf[column]? with
  | some baseColumn => cell before baseColumn (base.columns.lookup baseColumn)
  | none => .value .null

def baseSpec (column : ColumnName) : Option Column := baseNameOf[column]?.bind (base.columns.lookup ·)

/-- The cells of a row both sides hold that differ, each with both its values. -/
def changedCells (before row : Row) : ExtTreeMap ColumnName (Cell × Cell) :=
  .ofList ((comparedColumns declared keyColumn).filterMap fun (c, spec) =>
    let b := baseCell base baseNameOf before c
    let d := cell row c (some spec)
    if b = d then none else some (c, (b, d)))

/-- The cells that agree, which the statement holds and does not restate. -/
def unchangedCells (before row : Row) : ExtTreeMap ColumnName Cell :=
  .ofList ((comparedColumns declared keyColumn).filterMap fun (c, spec) =>
    let d := cell row c (some spec)
    if baseCell base baseNameOf before c = d then some (c, d) else none)

def identityKey : Bool :=
  (declared.columns.lookup keyColumn).any fun c => c.valueSource.isIdentity

def baseRows : ExtTreeMap RowKey Row := (base.data.map TableData.rows).getD ∅

def diffDeclaredRow (key : RowKey) (row : Row) : Out :=
  match (baseRows base)[key]? with
  | none =>
    let (defaults, types) := omittedDefaults declared keyColumn row
    .change (.insertRow name keyColumn (identityKey declared keyColumn) key row defaults types)
  | some before =>
    let compared := comparedColumns declared keyColumn
    let columns := changedCells base declared baseNameOf keyColumn before row
    -- the type each recorded cell was read in, and the one the column has when the row changes run
    let types := compared.filterMap fun (c, _) => (baseSpec base baseNameOf c).map fun s => (c, s.ty)
    let afterTypes := compared.filterMap fun (c, spec) =>
      if (baseSpec base baseNameOf c).map Column.ty ≠ some spec.ty then some (c, spec.ty) else none
    .changeIf (!columns.isEmpty) (.updateRow name keyColumn key columns
      (unchangedCells base declared baseNameOf keyColumn before row) (.ofList types) (.ofList afterTypes)
      ((declared.columns.lookup keyColumn).map Column.ty))

/-- The delete of a row only the base holds, which carries the cells the reviewer saw. -/
def deleteUndeclared (key : RowKey) (before : Row) : Change :=
  let held := baseNameOf.toList.filterMap fun (c, b) =>
    if c = keyColumn then none
    else (base.columns.lookup b).bind fun spec => if spec.valueSource.enginesOwn then none else some (c, b, spec)
  let typed := held.filterMap fun (c, _, spec) => (declared.columns.lookup c).map fun d => (c, spec.ty, d.ty)
  let surviving := baseNameOf.toList.map Prod.snd
  let dropped := base.columnList.filter fun (b, spec) => !spec.valueSource.enginesOwn && !surviving.contains b
  .deleteRow name keyColumn key .undeclared
    (.ofList (held.map fun (c, b, spec) => (c, cell before b (some spec))))
    (.ofList (dropped.map fun (b, spec) => (b, cell before b (some spec))))
    (.ofList (typed.map fun (c, was, _) => (c, was)))
    (.ofList (typed.filterMap fun (c, was, now) => if now = was then none else some (c, now)))
    ((declared.columns.lookup keyColumn).map Column.ty)

/-! ## The block -/

def dataKey (t : Table) : Option ColumnName :=
  match t.primaryKey.map (·.columns) with
  | some [k] => some k
  | _ => none

/-- The deletes of a block: `ensure` has none. -/
def deleteRows (declaredData : TableData) : Out :=
  if declaredData.mode = .exact then
    .forEach (baseRows base).toList fun (key, before) =>
      .changeIf (!declaredData.rows.contains key) (deleteUndeclared name base declared baseNameOf keyColumn key before)
  else {}

def diffRows (declaredData : TableData) : Out :=
  .forEach declaredData.rows.toList (fun (key, row) => diffDeclaredRow name base declared baseNameOf keyColumn key row) ++
    deleteRows name base declared baseNameOf keyColumn declaredData

def diffDataMode : Out :=
  let mode := base.data.map (·.mode)
  let declaredMode := declared.data.map (·.mode)
  .changeIf (mode ≠ declaredMode) (.setDataMode name mode declaredMode)

/-- `diff_data`, after the changes of `plan`. -/
def diffData (plan : List Change) : Out :=
  diffDataMode name base declared ++
  match dataKey declared, declared.data with
  | none, some _ => .err (.dataWithoutKey name)
  -- without a block nothing is deleted and nothing inserted
  | _, none => {}
  | some keyColumn, some declaredData =>
    match if base.data.isSome then dataKeyError name base baseNameOf plan keyColumn else none with
    | some error => .err error
    | none => diffRows name base declared baseNameOf keyColumn declaredData

end Data

/-- The name the base has for each declared column of a kept table: the uid says they are one. -/
def baseNameOf (baseCols declaredCols : ExtTreeMap Uid ColumnRef) : ExtTreeMap ColumnName ColumnName :=
  .ofList (declaredCols.toList.filterMap fun (uid, d) => baseCols[uid]?.map fun b => (d.name, b.name))

end Diff

end Pbps
