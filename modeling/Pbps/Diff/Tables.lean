/-
The tables of a plan: those it drops, those it creates and those both sides hold, in the order of
`diff_partial_rebuilding` (`schema_diff.rs`). Tables are matched by uid. A pass that reads the list
built so far takes it as `plan`.
-/
import Pbps.Diff.Partition
import Pbps.Diff.Rows

namespace Pbps.Diff

open Std (ExtTreeMap ExtTreeSet)

/-! ## Parents on both sides -/

/-- A kept table's names, its declaration, and whether it is a partitioned parent whose name or columns
this plan changes. -/
structure ParentShape where
  oldName : TableName
  newName : TableName
  goal : Table
  pending : Bool

section Sides

variable (dialect : Dialect) (base declared : Side)

/-- The shape of a table both sides hold, where the engine lets partitions meet changes of the parent. -/
def parentShape (uid : Uid) : Option ParentShape :=
  if dialect.partitionMeetings then do
    let oldName ← base.ids.tables[uid]?
    let newName ← declared.ids.tables[uid]?
    let old ← base.schema.tables[oldName]?
    let new ← declared.schema.tables[newName]?
    some ⟨oldName, newName, new, old.partitionBy.isSome && old.partitionOf.isNone && new.partitionBy.isSome &&
      new.partitionOf.isNone && (oldName ≠ newName || parentShapeChanges old new)⟩
  else none

def finalParent (name : TableName) : TableName :=
  (((base.ids.tableUid name).bind (parentShape dialect base declared)).map (·.newName)).getD name

/-! ## Dropped and created tables -/

/-- A dropped table: its foreign keys go first, each as a change of its own. -/
def dropTable (uid : Uid) (name : TableName) : List Change :=
  let table := base.schema.tables[name]?
  ((table.map fun t => t.foreignKeys.keys).getD []).map (.dropForeignKey name) ++
    [.dropTable uid name ((table.bind (·.partitionOf)).map fun of => finalParent dialect base declared of.parent)]

def droppedTables : List Change :=
  base.ids.tables.toList.flatMap fun (uid, name) =>
    if declared.ids.tables.contains uid then [] else dropTable dialect base declared uid name

/-- The default partition of a parent, where both sides hold it under one uid: `standing_default`. -/
def standingDefault (of : PartitionOf) : Option TableName :=
  match of.bound with
  | .range _ _ | .list _ => do
    let parentUid ← declared.ids.tableUid of.parent
    let parent ← base.ids.tables[parentUid]?
    let isDefaultOf (side : Side) (name parent : TableName) : Bool :=
      (side.schema.tables[name]?.bind (·.partitionOf)).any fun o => o.parent = parent && o.bound = .default
    declared.ids.tables.toList.findSome? fun (uid, name) =>
      base.ids.tables[uid]?.bind fun was =>
        if isDefaultOf declared name of.parent && isDefaultOf base was parent then some name else none
  | _ => none

def insertRows (name : TableName) (table : Table) : Out :=
  match table.data, dataKey table with
  | some data, some k =>
    .forEach data.rows.toList fun (key, row) =>
      let (defaults, types) := omittedDefaults table k row
      .change (.insertRow name k (identityKey table k) key row defaults types)
  | some _, none => .err (.dataWithoutKey name)
  | none, _ => {}

/-- A created table: its foreign keys, rows and policies are changes of their own. -/
def createTable (uid : Uid) (name : TableName) (t : Table) : Out :=
  let table := { t with foreignKeys := ∅ }
  let besideDefault := table.partitionOf.bind (standingDefault base declared)
  .forEach t.foreignKeys.toList (fun (n, fk) => .change (.addForeignKey name n fk)) ++
    insertRows name table ++
    .forEach table.rowPolicies.toList (fun (n, policy) => .change (.createPolicy name n policy .created)) ++
    .changeIf (!table.rowSecurity.isDefault) (.setRowSecurity uid name {} table.rowSecurity .created) ++
    .forEach table.exclude.keys (fun n => .err (.exclusionRefused name n)) ++
    .change (.createTable uid name table besideDefault
      (besideDefault.bind fun _ => declared.ids.moves[uid]?.map (·.maxRows)))

def createdTables : Out :=
  .forEach declared.ids.tables.toList fun (uid, name) =>
    if base.ids.tables.contains uid then {}
    else ((declared.schema.tables[name]?).map (createTable base declared uid name)).getD {}

/-! ## Kept tables -/

/-- A rename, with the columns whose defaults the engine names after the table. -/
def renameTable (uid : Uid) (baseName declaredName : TableName) : Out :=
  .changeIf (baseName ≠ declaredName) (.renameTable uid baseName declaredName
    (((base.schema.tables[baseName]?).map fun t =>
      (t.columnList.filter fun e => e.2.valueSource.default?.isSome).map Prod.fst).getD []))

end Sides

section Kept

variable (dialect : Dialect) (base declared : Side) (uid : Uid) (baseName declaredName : TableName)
  (baseTable declaredTable : Table)

def diffPolicies : Out :=
  let names : ExtTreeSet String := .ofList (baseTable.rowPolicies.keys ++ declaredTable.rowPolicies.keys)
  .forEach names.toList fun name =>
    let before := baseTable.rowPolicies[name]?
    let after := declaredTable.rowPolicies[name]?
    if before = after then {}
    else
      ((before.map fun policy => Out.change (.dropPolicy baseName name policy)).getD {}) ++
        ((after.map fun policy => Out.change (.createPolicy declaredName name policy .standing)).getD {})

def diffRowSecurity : Out :=
  .changeIf (baseTable.rowSecurity ≠ declaredTable.rowSecurity)
    (.setRowSecurity uid declaredName baseTable.rowSecurity declaredTable.rowSecurity .standing)

/-- A partition declared as an ordinary table is detached, and that is all the plan does to it. -/
def detachPartition (renames : Renames) (of : PartitionOf) : Out :=
  let names : Except (List ShapeProblem) (List DetachedName) :=
    match base.schema.tables[of.parent]? with
    | none => .error [.parentNotInBase of.parent]
    | some parent =>
      detachedNames dialect (renames.apply parent of.parent) (renames.apply baseTable baseName) declaredTable
        (((base.ids.tableUid of.parent).bind (parentShape dialect base declared)).any ParentShape.pending)
  match names with
  | .ok names =>
    .change (.detachPartition uid declaredName (finalParent dialect base declared of.parent) names declaredTable)
  | .error what => .err (.detachedShape declaredName of.parent what)

/-- The columns the rows of an attached table are checked by, with the parent's types. -/
def attachKey (of : PartitionOf) : List ColumnName :=
  let columns := (declared.schema.tables[of.parent]?).bind fun parent =>
    parent.partitionBy.bind fun by_ => by_.columns.mapM fun c => (parent.columns.lookup c).map fun spec => (c, spec.ty)
  dialect.attachScanKey uid (columns.getD []) declared.schema.types

/-- The parent's default for a column the attach leaves without one. -/
def attachDefault (of : PartitionOf) (column : ColumnName) : Out :=
  let own := of.columns[column]?.bind (·.default)
  let fallback := partitionDefault dialect of.parent column
    ((declared.schema.tables[of.parent]?).bind (·.columns.lookup column))
    ((base.schema.tables[of.parent]?).bind (·.columns.lookup column))
  fallback.2 ++ .changeIf (own.isNone && fallback.1.isSome)
    (.setPartitionDefault uid declaredName of.parent column none none fallback.1)

/-- An ordinary table declared as a partition is attached, and keeps its rows. -/
def attachPartition (renames : Renames) (readBack : Option Schema) (of : PartitionOf) : Out :=
  let boundary := ((declared.ids.tableUid of.parent).bind (parentShape dialect base declared)).map fun s =>
    (s.oldName, s.pending, s.goal)
  match attached dialect baseName declaredName baseTable declaredTable of base.schema readBack boundary with
  | .ok a =>
    { changes := a.released } ++
      .forEach a.displaced (fun name => .change (.dropIndex declaredName name)) ++
      .change (.attachPartition uid declaredName of.parent of.bound (attachKey dialect declared uid of) declaredTable) ++
      diffConstraints declaredName (renames.apply a.table baseName) declaredTable ++
      diffStorageParameters declaredName a.table declaredTable uid ++
      diffPersistence declaredName a.table declaredTable uid ++
      diffPartitionColumns dialect uid declaredName a.table declaredTable base declared ++
      .forEach a.defaultless (attachDefault dialect base declared uid declaredName of)
  | .error what => .err (.attachedShape declaredName of.parent what)

def diffStandingParts (renames : Renames) : Out :=
  diffColumns dialect ⟨base.ids, declared.ids⟩ declared.ids.conversions baseName declaredName baseTable declaredTable
      (columnsOf base.ids baseName) (columnsOf declared.ids declaredName) ++
    diffConstraints declaredName (renames.apply baseTable baseName) declaredTable ++
    diffExclusions declaredName (renames.apply baseTable baseName) declaredTable ++
    diffComputed declaredName baseTable declaredTable ++
    diffStorageParameters declaredName baseTable declaredTable uid ++
    diffPersistence declaredName baseTable declaredTable uid ++
    diffPartitionColumns dialect uid declaredName baseTable declaredTable base declared

def diffStandingTable (renames : Renames) (plan : List Change) : Out :=
  let parts := diffStandingParts dialect base declared uid baseName declaredName baseTable declaredTable renames
  let plan := plan ++ parts.changes
  parts ++ diffData declaredName (forwardedRows base.ids (labelRenames plan) baseTable) declaredTable
    (baseNameOf (columnsOf base.ids baseName) (columnsOf declared.ids declaredName)) plan

def diffKeptTable (renames : Renames) (readBack : Option Schema) (plan : List Change) : Out :=
  let head := diffPolicies baseName declaredName baseTable declaredTable ++
    diffRowSecurity uid declaredName baseTable declaredTable
  head ++
    match baseTable.partitionOf, declaredTable.partitionOf with
    | some of, none =>
      if declaredTable.partitionBy.isNone then
        detachPartition dialect base declared uid baseName declaredName baseTable declaredTable renames of
      else diffStandingTable dialect base declared uid baseName declaredName baseTable declaredTable renames
        (plan ++ head.changes)
    | none, some of =>
      attachPartition dialect base declared uid baseName declaredName baseTable declaredTable renames readBack of
    | _, _ => diffStandingTable dialect base declared uid baseName declaredName baseTable declaredTable renames
        (plan ++ head.changes)

end Kept

section Loop

variable (dialect : Dialect) (base declared : Side) (renames : Renames) (readBack : Option Schema)

def keptTable (plan : List Change) (uid : Uid) (declaredName : TableName) : Out :=
  match base.ids.tables[uid]? with
  | none => {}
  | some baseName =>
    let renamed := renameTable base uid baseName declaredName
    renamed ++
      match base.schema.tables[baseName]?, declared.schema.tables[declaredName]? with
      | some baseTable, some declaredTable =>
        diffKeptTable dialect base declared uid baseName declaredName baseTable declaredTable renames readBack
          (plan ++ renamed.changes)
      | _, _ => {}

/-- The loop over the tables both sides hold, in the order of the declared identities. -/
def keptTables (plan : List Change) : List (Uid × TableName) → Out
  | [] => {}
  | (uid, name) :: rest =>
    let out := keptTable dialect base declared renames readBack plan uid name
    out ++ keptTables (plan ++ out.changes) rest

/-- The changes of a plan's tables, after those of `plan`. -/
def diffTables (plan : List Change) : Out :=
  let dropped : Out := { changes := droppedTables dialect base declared }
  let created := createdTables base declared
  dropped ++ created ++
    keptTables dialect base declared renames readBack (plan ++ dropped.changes ++ created.changes) declared.ids.tables.toList

end Loop

end Pbps.Diff
