/-
The passes over a whole list of changes that follow the comparison of the tables: what stands in the way of a retype or
holds on to a key that goes comes down and goes back (`split_tightenings_from_retypes` to
`unlink_cycles_around_persistence_switches` of `schema_diff.rs`, with `rebuild_defaults` of `enum_labels.rs`).
-/
import Pbps.Diff.Tables

namespace Pbps.Diff

open Std (ExtTreeMap ExtTreeSet)

/-! ## Tightenings and loosenings -/

def rowTable : Change → Option TableName
  | .insertRow table _ _ _ _ _ _ | .updateRow table _ _ _ _ _ _ _ | .deleteRow table _ _ _ _ _ _ _ _ => some table
  | _ => none

def insertedTable : Change → Option TableName
  | .insertRow table _ _ _ _ _ _ => some table
  | _ => none

def deletedTable : Change → Option TableName
  | .deleteRow table _ _ _ _ _ _ _ _ => some table
  | _ => none

def identityPutOn : Change → Option ColumnRef
  | .alterColumnNumbering _ column _ from_ (.identity _) =>
    match from_ with
    | .none | .default _ | .sequence _ => some column
    | _ => none
  | _ => none

/-- The column a change puts a numbering source on that it was not numbered by. -/
def numberingPutOn : Change → Option ColumnRef
  | .alterColumnNumbering _ column _ from_ to_ =>
    if (to_.isIdentity && !from_.isIdentity) || (to_.isSequence && !from_.isSequence) then some column else none
  | _ => none

variable (declared : Schema) (table : TableName) (plan : List Change)

/-- The tables a plan puts a numbering source on and both deletes and inserts rows of. -/
def numberingAfterDeletes : List TableName :=
  (plan.filterMap numberingPutOn).filterMap fun column =>
    if column.table ∈ plan.filterMap insertedTable ∧ column.table ∈ plan.filterMap deletedTable then some column.table else none

def tightensAfterRows (column : ColumnRef) : Bool :=
  (plan.filterMap rowTable).contains column.table &&
    !((plan.filterMap identityPutOn).contains column && (plan.filterMap insertedTable).contains column.table &&
      !(numberingAfterDeletes plan).contains column.table)

def withoutTightening : Change → Change
  | .alterColumnType uid column from_ to_ true false fromCollation toCollation ext using_ =>
    .alterColumnType uid column from_ to_ true (tightensAfterRows plan column) fromCollation toCollation ext using_
  | change => change

def tightening : Change → Option Change
  | .alterColumnType uid column _ to_ true false _ toCollation _ _ =>
    if tightensAfterRows plan column then some (.alterColumnNullability uid column to_ false toCollation false) else none
  | _ => none

/-- `split_tightenings_from_retypes`. -/
def splitTightenings : List Change :=
  plan.map (withoutTightening plan) ++ plan.filterMap (tightening plan)

/-- Whether a declared table has partitions the declarations do not list. -/
def hasExternalPartitions : Bool :=
  (declared.tables[table]?.bind (·.partitionBy)).any (·.external)

/-- `clear_external_partitions_after_loosening`, on one change. -/
def clearExternalPartitions : Change → Change
  | .alterColumnNullability uid column ty true collation _ =>
    .alterColumnNullability uid column ty true collation (hasExternalPartitions declared column.table)
  | .alterColumnType uid column from_ to_ false true fromCollation toCollation _ using_ =>
    .alterColumnType uid column from_ to_ false true fromCollation toCollation (hasExternalPartitions declared column.table)
      using_
  | change => change

/-! ## Defaults around a rebuild of a type -/

def movedColumn : Change → Option (Uid × ColumnRef)
  | .enumRebuild _ _ _ (.retype uid column _ _ _) => some (uid, column)
  | _ => none

def columnDefault (schema : Schema) (column : ColumnRef) : Option String :=
  ((schema.tables[column.table]?).bind (·.columns.lookup column.name)).bind fun c => c.valueSource.default?

def altersDefaultOf (column : ColumnRef) : Change → Bool
  | .alterColumnDefault _ c _ _ => c = column
  | _ => false

def rebuildDefault (base desired : Side) (plan : List Change) (uid : Uid) (column : ColumnRef) : List Change :=
  (plan.filter fun c => !altersDefaultOf column c) ++
    (((base.ids.columns[uid]?).bind (columnDefault base.schema)).map fun text =>
      Change.alterColumnDefault uid column (some text) none).toList ++
    ((columnDefault desired.schema column).map fun text => Change.alterColumnDefault uid column none (some text)).toList

/-- `rebuild_defaults`. -/
def rebuildDefaults (base desired : Side) (plan : List Change) : List Change :=
  (plan.filterMap movedColumn).foldl (fun plan (uid, column) => rebuildDefault base desired plan uid column) plan

/-! ## What stands over a retyped column -/

/-- `RetypeDependents::of_retype`. -/
def ofRetype (dialect : Dialect) (from_ to_ : ColumnType) (recollates : Bool) (nullability : Option Bool) : RetypeDependents :=
  let dependents := dialect.retypeDependents from_ to_
  let dependents := if recollates then dependents.and dialect.recollateDependents else dependents
  match nullability with
  | some toNullable => dependents.and (dialect.nullabilityDependents toNullable)
  | none => dependents

def changeDependents (dialect : Dialect) : Change → Option (ColumnRef × RetypeDependents)
  | .alterColumnType _ column from_ to_ fromNullable toNullable fromCollation toCollation _ _ =>
    some (column, ofRetype dialect from_ to_ (fromCollation ≠ toCollation)
      (if fromNullable ≠ toNullable then some toNullable else none))
  | .alterColumnNullability _ column _ toNullable _ _ => some (column, dialect.nullabilityDependents toNullable)
  | .enumRebuild _ _ _ (.retype _ column _ _ values) =>
    some (column, match values with
      | .relabel _ => dialect.enumRebuildDependents
      | .cast _ _ _ _ => {})
  | _ => none

/-- Whether a plan takes a column's name away: from a computed column, or from an ordinary one. -/
def columnRemoved (column : ColumnRef) : Option Bool :=
  plan.findSome? fun change =>
    match change with
    | .dropComputedColumn table name _ => if table = column.table ∧ name = column.name then some true else none
    | .dropColumn _ dropped => if dropped = column then some false else none
    | _ => none

def columnAdded : Change → Option (ColumnRef × Bool)
  | .addComputedColumn table name _ => some (table.column name, true)
  | .addColumn _ table name _ => some (table.column name, false)
  | _ => none

def recomputedColumns : List ColumnRef :=
  (plan.filterMap columnAdded).filterMap fun (column, computed) =>
    if (columnRemoved plan column).any fun was => was || computed then some column else none

def addDependents (retyped : ExtTreeMap ColumnRef RetypeDependents) (column : ColumnRef) (more : RetypeDependents) :
    ExtTreeMap ColumnRef RetypeDependents :=
  retyped.insert column ((retyped.getD column {}).and more)

def overComputed : RetypeDependents where
  keysAndIndexes := true
  checks := true
  filteredIndexes := true
  foreignKeys := false

/-- The columns a plan has something taken down for, of the tables the changes name. -/
def retypedColumns (dialect : Dialect) (plan : List Change) : ExtTreeMap ColumnRef RetypeDependents :=
  (((recomputedColumns plan).map fun c => (c, overComputed)) ++ plan.filterMap (changeDependents dialect)).foldl
    (fun retyped e => addDependents retyped e.1 e.2) ∅

/-- The declared partitions of `parent`. -/
def partitionsOf (parent : TableName) : List TableName :=
  (declared.tables.toList.filter fun e => e.2.partitionOf.any fun of => of.parent = parent).map Prod.fst

/-- The tables reached from those in `parents`, each once. -/
def reachPartitions (declared : Schema) : Nat → List TableName → List TableName → List TableName
  | 0, _, reached => reached
  | _, [], reached => reached
  | fuel + 1, parent :: parents, reached =>
    let found := (partitionsOf declared parent).filter fun name => !reached.contains name
    reachPartitions declared fuel (found ++ parents) (reached ++ found)

def partitionsBelow : List TableName :=
  (reachPartitions declared (declared.tables.size + 1) [table] [table]).tail

/-- The columns a plan has something taken down for: a parent's retype reaches its partitions. -/
def retypedThroughPartitions (retyped : ExtTreeMap ColumnRef RetypeDependents) :
    ExtTreeMap ColumnRef RetypeDependents :=
  (retyped.toList.flatMap fun (column, dependents) =>
    (partitionsBelow declared column.table).map fun name => (name.column column.name, dependents)).foldl
    (fun retyped e => addDependents retyped e.1 e.2) retyped

section Recreate

variable (retyped : ExtTreeMap ColumnRef RetypeDependents) (name : TableName) (before after : Table)

def overKeyColumn (column : ColumnName) : Bool := retyped[name.column column]?.any (·.keysAndIndexes)

def overChecks : Bool := retyped.toList.any fun (c, d) => c.table = name && d.checks

/-- Whether some column of the table takes its filtered indexes down. -/
def overFilters : Bool := retyped.toList.any fun (c, d) => c.table = name && d.filteredIndexes

def overIndex (index : Index) : Bool :=
  (index.columns.any fun c => c.key.column?.any (overKeyColumn retyped name)) ||
    index.include_.any (overKeyColumn retyped name) || (overFilters retyped name && index.holdsExpression)

def overForeignKey (fk : ForeignKey) : Bool :=
  ((fk.columns.map name.column) ++ fk.referencesColumns.map fk.referencesTable.column).any fun c =>
    retyped[c]?.any (·.foreignKeys)

def setsPrimaryKey (table : TableName) : Change → Bool
  | .setPrimaryKey t _ _ _ => t = table
  | _ => false

def recreatePrimaryKey (plan : List Change) : List Change :=
  match before.primaryKey, after.primaryKey with
  | some key, some wanted =>
    if key.columns.any (overKeyColumn retyped name) && !plan.any (setsPrimaryKey name) then
      [.setPrimaryKey name (some key) none false, .setPrimaryKey name none (some wanted) (!after.primaryKeyIsClustered)]
    else []
  | _, _ => []

/-- One part dropped and added again, for each that stands on both sides and is over a retyped column. -/
def recreateParts {V : Type} (parts : ExtTreeMap ObjectLocalName V) (covers : ObjectLocalName → V → Bool)
    (drop : ObjectLocalName → Change) (add : ObjectLocalName → V → Change) : List Change :=
  parts.toList.flatMap fun (n, part) => if covers n part then [drop n, add n part] else []

def recreateUniques : List Change :=
  recreateParts before.unique
    (fun n key => after.unique[n]? = some key && before.uniqueIsClustered n == after.uniqueIsClustered n &&
      key.columns.any (overKeyColumn retyped name))
    (.dropUnique name) fun n key => .addUnique name n key (after.uniqueIsClustered n)

def recreateChecks : List Change :=
  recreateParts before.checks (fun n check => overChecks retyped name && after.checks[n]? = some check) (.dropCheck name)
    (.addCheck name)

def recreateIndexes : List Change :=
  recreateParts before.indexes
    (fun n index => after.indexes[n]? = some index && before.indexIsClustered n == after.indexIsClustered n &&
      overIndex retyped name index)
    (.dropIndex name) fun n index => .addIndex name n index (after.indexIsClustered n)

def recreateForeignKeys : List Change :=
  recreateParts before.foreignKeys (fun n fk => after.foreignKeys[n]? = some fk && overForeignKey retyped name fk)
    (.dropForeignKey name) (.addForeignKey name)

def recreateTable (plan : List Change) : List Change :=
  recreatePrimaryKey retyped name before after plan ++ recreateUniques retyped name before after ++
    recreateChecks retyped name before after ++ recreateIndexes retyped name before after ++
    recreateForeignKeys retyped name before after

end Recreate

/-- The names and tables of a uid both sides hold, the base's brought through the renames. -/
def alignedTable (base declared : Side) (renames : Renames) (uid : Uid) (oldName : TableName) :
    Option (TableName × Table × Table) := do
  let name ← declared.ids.tables[uid]?
  let old ← base.schema.tables[oldName]?
  let after ← declared.schema.tables[name]?
  some (name, renames.apply old oldName, after)

/-- `recreate_retyped_dependents`: what it appends to `plan`. -/
def recreateRetypedDependents (base declared : Side) (renames : Renames) (dialect : Dialect) (plan : List Change) :
    List Change :=
  let retyped := retypedColumns dialect plan
  if retyped.isEmpty then []
  else
    let retyped := retypedThroughPartitions declared.schema retyped
    base.ids.tables.toList.foldl (fun acc (uid, oldName) =>
      match alignedTable base declared renames uid oldName with
      | some (name, before, after) => acc ++ recreateTable retyped name before after (plan ++ acc)
      | none => acc) []

/-! ## Foreign keys to a key that goes -/

def removesKey : Change → Bool
  | .setPrimaryKey _ (some _) _ _ | .dropUnique _ _ | .dropIndex _ _ => true
  | _ => false

/-- The kept tables by declared name, as the plan's renames leave them. -/
def alignedTables (base declared : Side) (renames : Renames) : ExtTreeMap TableName Table :=
  .ofList (base.ids.tables.toList.filterMap fun (uid, oldName) =>
    declared.ids.tables[uid]?.bind fun newName =>
      base.schema.tables[oldName]?.map fun table => (newName, renames.apply table oldName))

/-- The key a change takes down: its table and its columns. Only a unique index over plain columns can
back a foreign key. -/
def removedKey (aligned : ExtTreeMap TableName Table) : Change → Option (TableName × ExtTreeSet ColumnName)
  | .setPrimaryKey table (some key) _ _ => some (table, .ofList key.columns)
  | .dropUnique table name => ((aligned[table]?).bind (·.unique[name]?)).map fun key => (table, .ofList key.columns)
  | .dropIndex table name =>
    (((aligned[table]?).bind (·.indexes[name]?)).filter fun ix => ix.unique && ix.filter.isNone).bind fun ix =>
      ix.columnKeys.map fun columns => (table, .ofList columns)
  | _ => none

def dropsForeignKey (name : ObjectLocalName) : Change → Bool
  | .dropForeignKey t n => t = table && n = name
  | _ => false

def addsForeignKey (name : ObjectLocalName) : Change → Bool
  | .addForeignKey t n _ => t = table && n = name
  | _ => false

/-- Whether the key a foreign key references is one of `removed`. -/
def referencesRemoved (removed : List (TableName × ExtTreeSet ColumnName)) (fk : ForeignKey) : Bool :=
  removed.contains (fk.referencesTable, .ofList fk.referencesColumns)

/-- The foreign keys of one table whose key goes, dropped and added again unless the list drops them. -/
def recreateReferencing (removed : List (TableName × ExtTreeSet ColumnName)) (table : TableName) (before after : Table)
    (plan : List Change) : List Change :=
  before.foreignKeys.toList.foldl (fun acc (name, fk) =>
    match after.foreignKeys[name]? with
    | none => acc
    | some wanted =>
      if referencesRemoved removed fk && !(plan ++ acc).any (dropsForeignKey table name) then
        acc ++ [.dropForeignKey table name, .addForeignKey table name wanted]
      else acc) []

/-- `recreate_referenced_foreign_keys`: what it appends to `plan`. -/
def recreateReferencedForeignKeys (base declared : Side) (renames : Renames) (plan : List Change) : List Change :=
  if !plan.any removesKey then []
  else
    let aligned := alignedTables base declared renames
    let removed := plan.filterMap (removedKey aligned)
    aligned.toList.foldl (fun acc (table, before) =>
      match declared.schema.tables[table]? with
      | none => acc
      | some after => acc ++ recreateReferencing removed table before after (plan ++ acc)) []

/-- The foreign keys of one kept table that read alike by name and reference two tables. -/
def rebindForeignKeys (base declared : Side) (plan : List Change) (newName : TableName) (before after : Table) :
    List Change :=
  before.foreignKeys.toList.flatMap fun (name, fk) =>
    match after.foreignKeys[name]? with
    | none => []
    | some wanted =>
      if base.ids.tableUid fk.referencesTable = declared.ids.tableUid wanted.referencesTable ||
          plan.any (addsForeignKey newName name) then []
      else [.dropForeignKey newName name, .addForeignKey newName name wanted]

/-- `rebind_foreign_keys_to_a_new_occupant`: what it appends to `plan`. -/
def rebindForeignKeysToANewOccupant (base declared : Side) (plan : List Change) : List Change :=
  base.ids.tables.toList.flatMap fun (uid, oldName) =>
    match declared.ids.tables[uid]?, base.schema.tables[oldName]? with
    | some newName, some before =>
      ((declared.schema.tables[newName]?).map (rebindForeignKeys base declared plan newName before)).getD []
    | _, _ => []

/-! ## Cycles of tables that change persistence -/

def referencedTables : List TableName :=
  ((declared.tables[table]?).map fun t => (t.foreignKeys.toList.map fun e => e.2.referencesTable).filter fun to_ =>
    to_ ≠ table && declared.tables.contains to_).getD []

/-- The tables reached through foreign keys in at most so many steps. -/
def reachTables (declared : Schema) : Nat → TableName → List TableName
  | 0, table => [table]
  | fuel + 1, table => table :: (referencedTables declared table).flatMap (reachTables declared fuel)

/-- Whether two declared tables reach each other through foreign keys: what the graph's components
answer. -/
def sameComponent (a b : TableName) : Bool :=
  declared.tables.contains a && declared.tables.contains b && (reachTables declared declared.tables.size a).contains b &&
    (reachTables declared declared.tables.size b).contains a

def switchedTable : Change → Option TableName
  | .setTablePersistence _ table _ => some table
  | _ => none

/-- `unlink_cycles_around_persistence_switches`: what it appends to `plan`. -/
def unlinkCycles : List Change :=
  let switching : ExtTreeSet TableName := .ofList (plan.filterMap switchedTable)
  if switching.size < 2 then []
  else
    declared.tables.toList.flatMap fun (name, table) =>
      if !switching.contains name then []
      else
        table.foreignKeys.toList.flatMap fun (key, fk) =>
          let to_ := fk.referencesTable
          if to_ ≠ name && switching.contains to_ && sameComponent declared name to_ && !plan.any (addsForeignKey name key) then
            [.dropForeignKey name key, .addForeignKey name key fk]
          else []

/-! ## The list -/

section Passes

variable (dialect : Dialect) (base declared : Side) (readBack : Option Schema)

def tableChanges (before : List Change) : List Change :=
  let plan := before ++ (diffTables dialect base declared (renamesOf base.ids declared.ids) readBack before).changes
  rebuildDefaults base declared ((splitTightenings plan).map (clearExternalPartitions declared.schema))

/-- The list before the foreign keys of keys that go are made explicit. -/
def withRetypedDependents (before : List Change) : List Change :=
  let plan := tableChanges dialect base declared readBack before
  plan ++ recreateRetypedDependents base declared (renamesOf base.ids declared.ids) dialect plan

def relinked (before : List Change) : List Change :=
  let plan := withRetypedDependents dialect base declared readBack before
  let plan := plan ++ recreateReferencedForeignKeys base declared (renamesOf base.ids declared.ids) plan
  let plan := plan ++ rebindForeignKeysToANewOccupant base declared plan
  plan ++ unlinkCycles declared.schema plan

end Passes

end Pbps.Diff
