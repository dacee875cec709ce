/-
Partitions of a plan: what a partition is once detached (`detached_names`), what a table is once
attached (`attached`), and a standing partition's own defaults and NOT NULLs
(`diff_partition_columns`), all of `schema_diff.rs`.
-/
import Pbps.Diff.Parts

namespace Pbps.Diff

open Std (ExtTreeMap ExtTreeSet)

/-! ## Detaching -/

variable (dialect : Dialect)

/-- The columns of a table as the engine spells them, without their prose. -/
def spelledColumns (t : Table) : List (ColumnName × Column) :=
  t.columns.entries.map fun e => (e.1, { e.2 with ty := dialect.norm e.2.ty, description := none })

/-- A parent as one of its partitions holds it: with the partition's own defaults, NOT NULLs,
persistence and storage parameters. -/
def asHeldBy (parent partition : Table) : Table :=
  let own : ExtTreeMap ColumnName PartitionColumn := (partition.partitionOf.map PartitionOf.columns).getD ∅
  let columns := own.toList.foldl (fun (columns : IndexMap ColumnName Column) (name, own) =>
    match columns.lookup name with
    | none => columns
    | some c =>
      columns.replace name { c with
        valueSource := (own.default.map ValueSource.default).getD c.valueSource
        nullable := c.nullable && !own.notNull }) parent.columns
  { parent with unlogged := partition.unlogged, storageParameters := partition.storageParameters, columns }

/-- Each of the parent's parts with the first declared one left that is defined alike, what the parent
has that is not declared, and what is declared that the parent does not have. -/
def matched {V : Type} [DecidableEq V] (kind : DetachedKind) (parent declared : ExtTreeMap ObjectLocalName V) :
    List DetachedName × List ShapeProblem :=
  let start : List DetachedName × List ShapeProblem × List (ObjectLocalName × V) := ([], [], declared.toList)
  let (names, what, unused) := parent.toList.foldl (fun (names, what, unused) (from_, definition) =>
    match unused.find? fun e => e.2 = definition with
    | some e => (names ++ [⟨kind, from_, some e.1⟩], what, unused.erase e)
    | none => (names, what ++ [.parentsMissing kind from_], unused)) start
  (names, what ++ unused.map fun e => .notParents kind e.1)

/-- Everything of a table that a detach does not match part by part. -/
def detachedRest (t : Table) : Table :=
  { t with columns := ∅, primaryKey := none, unique := ∅, foreignKeys := ∅, checks := ∅, indexes := ∅, partitionBy := none,
           partitionOf := none, description := none }

/-- The partition's own parts of one kind that the declaration does not hold as they stand. -/
def ownMissing {V : Type} [DecidableEq V] (kind : DetachedKind) (own declared : ExtTreeMap ObjectLocalName V) :
    List ShapeProblem :=
  own.toList.filterMap fun (name, v) => if declared[name]? = some v then none else some (.ownNotDeclared kind name)

def withoutOwn {V : Type} [DecidableEq V] (own declared : ExtTreeMap ObjectLocalName V) : ExtTreeMap ObjectLocalName V :=
  declared.filter fun name v => own[name]? ≠ some v

/-- `detached_names`. -/
def detachedNames (parent partition declared : Table) (pendingColumns : Bool) :
    Except (List ShapeProblem) (List DetachedName) :=
  let parent := asHeldBy parent partition
  let own := ownMissing .check partition.checks declared.checks ++ ownMissing .index partition.indexes declared.indexes ++
    ownMissing .foreignKey partition.foreignKeys declared.foreignKeys
  let declared := { declared with
    checks := withoutOwn partition.checks declared.checks
    indexes := withoutOwn partition.indexes declared.indexes
    foreignKeys := withoutOwn partition.foreignKeys declared.foreignKeys }
  let columns :=
    if !pendingColumns && decide (spelledColumns dialect parent ≠ spelledColumns dialect declared) then
      [ShapeProblem.columnsNotParents]
    else []
  let (keyNames, key) : List DetachedName × List ShapeProblem :=
    match parent.primaryKey, declared.primaryKey with
    | none, none => ([], [])
    | some was, some now =>
      if was.columns = now.columns ∧ was.storageParameters = now.storageParameters then
        ([⟨.primaryKey, was.name.getD "", now.name⟩], [])
      else ([], [.keyNotParents])
    | _, _ => ([], [.keyNotParents])
  let uniques := matched .unique parent.unique declared.unique
  let foreignKeys := matched .foreignKey parent.foreignKeys declared.foreignKeys
  let checks := matched .check parent.checks declared.checks
  let indexes := matched .index parent.indexes declared.indexes
  let rest := if detachedRest parent ≠ detachedRest declared then [ShapeProblem.otherSetting] else []
  let what := own ++ columns ++ key ++ uniques.2 ++ foreignKeys.2 ++ checks.2 ++ indexes.2 ++ rest
  if what.isEmpty then .ok (keyNames ++ uniques.1 ++ foreignKeys.1 ++ checks.1 ++ indexes.1) else .error what

/-! ## Attaching -/

/-- `parent_shape_changes`: column facts only. -/
def parentShapeChanges (old new : Table) : Bool :=
  let shape (t : Table) := t.columns.entries.map fun e => (e.1, e.2.ty, e.2.collation, e.2.nullable, e.2.valueSource)
  old.computed ≠ new.computed || shape old ≠ shape new

/-- A table being attached: itself as a partition once the attach has run, its columns without a
default where the parent's has one, and what goes before the attach. -/
structure Attached where
  table : Table
  defaultless : List ColumnName
  displaced : List ObjectLocalName
  released : List Change

/-- A column as the engine compares it when it attaches: a default and NOT NULL may be its own. -/
def attachedColumn (isParent : Bool) (c : Column) : Column :=
  { c with
    ty := dialect.norm c.ty
    nullable := true
    valueSource :=
      match c.valueSource with
      | .default _ | .none | .identity _ => .none
      | .sequence s => if isParent then .none else .sequence s
      | .generated g => .generated g
    description := none
    deprecated := none }

/-- The checks and generation expressions of a table in the engine's own spelling, where a read-back
has it; offline they are left out. -/
def spelledByEngine (readBack : Option Schema) (t : Table) (name : TableName) : Table :=
  { t with
    checks := t.checks.map fun check spec =>
      match readBack with
      | none => { spec with expression := "" }
      | some r => ((r.tables[name]?.bind (·.checks[check]?)).map fun c => { spec with expression := c.expression }).getD spec
    columns := ⟨t.columns.entries.map fun e =>
        match e.2.valueSource with
        | .generated g =>
          let read := readBack.bind fun r => (r.tables[name]?.bind (·.columns.lookup e.1)).bind fun c =>
            match c.valueSource with
            | .generated v => some v.expression
            | _ => none
          let text := if readBack.isNone then "" else read.getD g.expression
          ⟨e.1, { e.2 with valueSource := .generated { g with expression := text } }⟩
        | _ => e,
      by
        rw [List.NodupKeys, List.keys, List.map_map]
        refine (List.map_congr_left fun e _ => ?_ : _ = t.columns.entries.map Sigma.fst) ▸ t.columns.nodupKeys
        dsimp only [Function.comp]
        split <;> rfl⟩ }

/-- The parts whose definition meets none of the parent's that is still free. -/
def unmatched {V : Type} [DecidableEq V] (own parent : ExtTreeMap ObjectLocalName V) : List ObjectLocalName :=
  (own.toList.foldl (fun (free, out) (name, d) =>
    if d ∈ free then (free.erase d, out) else (free, out ++ [name])) (parent.toList.map Prod.snd, [])).2

/-- An index as the engine matches it to adopt it: parameters and sort order aside. -/
def adoptedAs (ix : Index) : Index :=
  { ix with columns := ix.columns.map fun c => { c with descending := false }, storageParameters := ∅ }

/-- The index a key or a unique constraint over these columns stands on. -/
def backingIndex (columns : List ColumnName) : Index :=
  { columns := columns.map fun c => { key := .column c }, unique := true }

/-- The indexes taken from a table that is attached, and those of them dropped before: at most one is
left for each of the parent's, and none that is matched on text. -/
def takenIndexes (table parent declared : Table) : List ObjectLocalName × List ObjectLocalName :=
  let onText := (table.indexes.toList.filter fun e => e.2.holdsExpression).map Prod.fst
  (parent.indexes.toList.map Prod.snd).foldl (fun (taken, displaced) definition =>
    let matches_ := (table.indexes.toList.filter fun e =>
      adoptedAs e.2 = adoptedAs definition && !taken.contains e.1).map Prod.fst
    let left := matches_.find? fun n => !declared.indexes.contains n
    (taken ++ matches_, displaced ++ matches_.filter fun n => some n ≠ left)) (onText, onText)

/-- Whether an index of the parent's could take the index of a key over these columns. -/
def contested (parent : Table) (columns : List ColumnName) : Bool :=
  parent.indexes.toList.any fun e => adoptedAs e.2 = backingIndex columns

def ownForeignKeys (table parent : Table) : ExtTreeMap ObjectLocalName ForeignKey :=
  table.foreignKeys.filter fun _ fk => !(parent.foreignKeys.toList.any fun p => p.2 = fk)

/-- What is dropped before the attach because the engine would take it for one of the parent's: keys
an index could take, and foreign keys with a twin or with a name the partition declares. -/
def releasedBefore (name : TableName) (table parent declared : Table) : List Change :=
  ((table.primaryKey.filter fun key => contested parent key.columns).map fun key =>
      Change.setPrimaryKey name (some key) none false).toList ++
    ((table.unique.toList.filter fun e => contested parent e.2.columns).map fun e => Change.dropUnique name e.1) ++
    (table.foreignKeys.toList.filter fun e =>
        !(ownForeignKeys table parent).contains e.1 &&
          ((table.foreignKeys.toList.filter fun o => o.2 = e.2).length > 1 || declared.foreignKeys.contains e.1 ||
            declared.checks.contains e.1)).map fun e => Change.dropForeignKey name e.1

def attachedRest (t : Table) : Table :=
  { t with description := none, columns := ∅, primaryKey := none, unique := ∅, foreignKeys := ∅, checks := ∅, indexes := ∅,
           replicaIdentity := none, storageParameters := ∅, unlogged := false, partitionBy := none, partitionOf := none,
           data := none }

section Attach

variable (dialect : Dialect) (baseName declaredName : TableName) (table parent declared : Table) (of : PartitionOf)
  (goalParent : Option Table) (pending : Bool)

def ownColumn (name : ColumnName) (c : Column) : PartitionColumn where
  default :=
    c.valueSource.default?.filter fun d =>
      pending || baseName.schema ≠ of.parent.schema ||
        some d ≠ (parent.columns.lookup name).bind fun p => p.valueSource.default?
  notNull := !c.nullable && ((if pending then goalParent else some parent).bind (·.columns.lookup name)).any (·.nullable)

/-- Whether the attach leaves the column without the default its parent's has. -/
def isDefaultless (name : ColumnName) (c : Column) : Bool :=
  c.valueSource.default?.isNone && ((if pending then goalParent else some parent).bind (·.columns.lookup name)).any fun p =>
    match p.valueSource with
    | .default _ | .sequence _ => true
    | _ => false

/-- The columns an attach compares: all, where the parent's are still to change. -/
def attachedColumns : List (ColumnName × Column) :=
  table.columnList.filter fun (name, _) => pending || decide (name ∈ parent.columns)

def columnProblems (readBack : Option Schema) (parentName : TableName) : List ShapeProblem :=
  let mine := (spelledByEngine readBack table baseName).columns.entries.map fun e => (e.1, attachedColumn dialect false e.2)
  let theirs := (spelledByEngine readBack parent parentName).columns.entries.map fun e => (e.1, attachedColumn dialect true e.2)
  (if pending then []
    else if mine.map Prod.fst ≠ theirs.map Prod.fst then [.columnsNotParents]
    else (mine.zip theirs).filterMap fun (a, b) =>
      if a.2 ≠ b.2 then some (.columnNotParents a.1)
      else if a.2.valueSource.isGenerated && baseName.schema ≠ of.parent.schema then some (.generatedElsewhere a.1)
      else none) ++
  (if pending && (baseName.schema ≠ parentName.schema || baseName.schema ≠ of.parent.schema) &&
      table.columns.entries.any fun e => e.2.valueSource.isGenerated then [.generatedElsewhere ""] else []) ++
  table.columns.entries.flatMap fun e =>
    (if e.2.valueSource.isIdentity then [ShapeProblem.ownIdentity e.1] else []) ++
    (if !pending && e.2.nullable && (parent.columns.lookup e.1).any (!·.nullable) then [.nullableColumn e.1] else [])

/-- What keeps the table's parts from being the parent's or its own. -/
def partProblems (readBack : Option Schema) (parentName : TableName) : List ShapeProblem :=
  (match table.primaryKey, parent.primaryKey with
    | none, _ => []
    | some own, some p => if own.columns = p.columns then [] else [.keyNotParents]
    | some _, none => [.keyNotParents]) ++
  (unmatched (table.unique.map fun _ => UniqueConstraint.bare) (parent.unique.map fun _ => UniqueConstraint.bare)).map
    (.notParents .unique) ++
  ((spelledByEngine readBack parent parentName).checks.toList.filterMap fun (name, p) =>
    if (spelledByEngine readBack table baseName).checks[name]? = some p then none else some (.parentsMissing .check name))

def attachedTable : Table where
  checks := table.checks.filter fun name _ => !parent.checks.contains name
  indexes := table.indexes.filter fun name _ => !(takenIndexes table parent declared).1.contains name
  foreignKeys := ownForeignKeys table parent
  storageParameters := table.storageParameters
  unlogged := table.unlogged
  partitionOf := some
    { parent := of.parent
      bound := of.bound
      columns := .ofList ((attachedColumns table parent pending).filterMap fun (name, c) =>
        let own := ownColumn baseName parent of goalParent pending name c
        if own = PartitionColumn.mk none false then none else some (name, own)) }

/-- `attached`: `boundary` is the parent's base name, whether its columns are still to change, and the
parent as declared. -/
def attached (base : Schema) (readBack : Option Schema) (boundary : Option (TableName × Bool × Table)) :
    Except (List ShapeProblem) Attached :=
  let parentName := (boundary.map (·.1)).getD of.parent
  let pending := (boundary.map (·.2.1)).getD false
  let goalParent := boundary.map (·.2.2)
  match base.tables[parentName]?.filter fun p => p.partitionBy.isSome && p.partitionOf.isNone with
  | none => .error [.parentNotPartitioned of.parent]
  | some parent =>
    let what :=
      (if baseName ≠ declaredName then [ShapeProblem.renamed baseName] else []) ++
      (if table.partitionBy.isSome then [.partitionedItself] else []) ++
      columnProblems dialect baseName table parent of pending readBack parentName ++
      partProblems baseName table parent readBack parentName ++
      (if table.replicaIdentity.isSome then [.replicaIdentity] else []) ++
      (if table.data.isSome then [.declaresData] else []) ++
      (if attachedRest table ≠ {} then [.otherSetting] else []) ++
      base.tables.toList.flatMap fun (other, t) => t.foreignKeys.toList.filterMap fun (name, fk) =>
        if fk.referencesTable = baseName then some (.referencedBy other name) else none
    if what.isEmpty then
      .ok
        { table := attachedTable baseName table parent declared of goalParent pending
          defaultless := ((attachedColumns table parent pending).filter fun (name, c) =>
            isDefaultless parent goalParent pending name c).map Prod.fst
          displaced := (takenIndexes table parent declared).2
          released := releasedBefore declaredName table parent declared }
    else .error what

end Attach

/-! ## A standing partition's own columns -/

/-- `partition_columns_by_uid`: what became of each of a parent's columns. One no identity names is
taken as it stands. -/
def partitionColumnsByUid {T : Type} (columns : List (ColumnName × T)) (baseCols declaredCols : ExtTreeMap Uid ColumnRef) :
    ExtTreeMap ColumnName T :=
  let fate : ExtTreeMap ColumnName (Option ColumnName) :=
    .ofList (baseCols.toList.map fun (uid, c) => (c.name, declaredCols[uid]?.map (·.name)))
  .ofList (columns.filterMap fun (c, value) =>
    ((fate[c]?).getD (some c)).map fun now => (now, value))

/-- `partition_default`: the default a partition's column falls back to. -/
def partitionDefault (dialect : Dialect) (parent : TableName) (column : ColumnName) (declared previous : Option Column) :
    Option String × Out :=
  match declared.map Column.valueSource with
  | some (.default value) => (some value, {})
  | some (.sequence sequence) =>
    let name := previous.bind fun c =>
      match c.valueSource with
      | .sequence s => s.name
      | _ => none
    match dialect.ownedSequenceDefault parent column { sequence with name := sequence.name.or name } with
    | .ok value => (some value, {})
    | .error reason => (none, .err (.partitionDefault (parent.column column) reason))
  | _ => (none, {})

/-- The default or owned sequence a parent's column gives its partitions. -/
def parentDefault (c : Column) : Option ValueSource :=
  match c.valueSource with
  | .default e => some (.default e)
  | .sequence s => some (.sequence s)
  | _ => none

/-- Whether the parent's default changes: a name is compared only where both sides give one. -/
def defaultMoved (was now : Option ValueSource) : Bool :=
  match was, now with
  | some (.sequence was), some (.sequence now) => !now.declares { was with name := was.name.or now.name }
  | _, _ => was ≠ now

section PartitionColumns

variable (dialect : Dialect) (uid : Uid) (name : TableName) (was now : PartitionOf) (parent : Option Table)
  (wasColumns : ExtTreeMap ColumnName PartitionColumn) (baseOf : ExtTreeMap ColumnName Column)

def loosenedColumns : List ColumnName :=
  ((parent.map Table.columnList).getD []).filterMap fun (c, column) =>
    if column.nullable && baseOf[c]?.any (!·.nullable) then some c else none

def diffPartitionColumn (column : ColumnName) : Out :=
  let from_ := wasColumns.getD column {}
  let to_ := now.columns.getD column {}
  let theirs := parent.bind (·.columns.lookup column)
  let theirsWas := baseOf[column]?
  let moved := theirsWas.isSome && defaultMoved (theirsWas.bind parentDefault) (theirs.bind parentDefault)
  let fallback := partitionDefault dialect now.parent column theirs theirsWas
  (if from_.default ≠ to_.default || (moved && to_.default.isSome) then
      fallback.2 ++ .change (.setPartitionDefault uid name now.parent column from_.default to_.default fallback.1)
    else {}) ++
  .changeIf (!(theirs.any (!·.nullable) && theirsWas.any (·.nullable)) &&
      (from_.notNull != to_.notNull || (loosenedColumns parent baseOf).contains column))
    (.setPartitionNotNull uid name column to_.notNull)

end PartitionColumns

/-- `diff_partition_columns`. -/
def diffPartitionColumns (uid : Uid) (name : TableName) (baseTable declaredTable : Table) (base declared : Side) : Out :=
  match baseTable.partitionOf, declaredTable.partitionOf with
  | some was, some now =>
    let baseCols := columnsOf base.ids was.parent
    let declaredCols := columnsOf declared.ids now.parent
    let parent := declared.schema.tables[now.parent]?
    let wasColumns := partitionColumnsByUid was.columns.toList baseCols declaredCols
    let baseOf := ((base.schema.tables[was.parent]?).map fun p =>
      partitionColumnsByUid p.columnList baseCols declaredCols).getD ∅
    let columns : ExtTreeSet ColumnName := .ofList (wasColumns.keys ++ now.columns.keys ++ loosenedColumns parent baseOf)
    .forEach columns.toList (diffPartitionColumn dialect uid name now parent wasColumns baseOf)
  | _, _ => {}

end Pbps.Diff
