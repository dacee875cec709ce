/-
The parts of a table that have names and no uids: keys, constraints, indexes and computed columns.
The base's are first brought through the plan's renames (`rename.rs`), then compared by name
(`diff_constraints_by` of `schema_diff.rs`).
-/
import Pbps.Diff.Columns

namespace Pbps

open Std (ExtTreeMap ExtTreeSet)

/-! ## Renames -/

/-- The new name a plan gives each renamed table and column, by the old. -/
structure Renames where
  tables : ExtTreeMap TableName TableName := ∅
  columns : ExtTreeMap ColumnRef ColumnName := ∅

namespace Renames

def isEmpty (r : Renames) : Bool := r.tables.isEmpty && r.columns.isEmpty

def table (r : Renames) (t : TableName) : TableName := r.tables.getD t t

def column (r : Renames) (table : TableName) (name : ColumnName) : ColumnName :=
  r.columns.getD (table.column name) name

variable (r : Renames) (table : TableName)

def columnList (names : List ColumnName) : List ColumnName :=
  names.map (r.column table)

def indexKey : IndexKey → IndexKey
  | .column c => .column (r.column table c)
  | .expression text => .expression text

def primaryKey (pk : PrimaryKey) : PrimaryKey :=
  { pk with columns := r.columnList table pk.columns }

def unique (u : UniqueConstraint) : UniqueConstraint :=
  { u with columns := r.columnList table u.columns }

def index (ix : Index) : Index :=
  { ix with
    columns := ix.columns.map fun c => { c with key := r.indexKey table c.key }
    include_ := r.columnList table ix.include_ }

def exclusion (x : ExclusionConstraint) : ExclusionConstraint :=
  { x with
    keys := x.keys.map fun k => { k with key := { k.key with key := r.indexKey table k.key.key } }
    include_ := r.columnList table x.include_ }

/-- The referenced columns are looked up under the referenced table's own old name. -/
def foreignKey (r : Renames) (table : TableName) (fk : ForeignKey) : ForeignKey :=
  { fk with
    columns := r.columnList table fk.columns
    referencesColumns := r.columnList fk.referencesTable fk.referencesColumns
    referencesTable := r.table fk.referencesTable }

def partitionOf (r : Renames) (table : TableName) (of : PartitionOf) : PartitionOf :=
  { of with
    columns := .ofList (of.columns.toList.map fun (c, own) => (r.column table c, own))
    parent := r.table of.parent }

/-- `Renames::apply`: the table with every constraint the engine carries through a rename spelled as
the plan leaves it. Checks and predicates are opaque and stay. -/
def apply (t : Table) (name : TableName) : Table :=
  if r.isEmpty then t
  else
    -- a partition's columns are its parent's
    let name := (t.partitionOf.map PartitionOf.parent).getD name
    { t with
      primaryKey := t.primaryKey.map (r.primaryKey name)
      unique := t.unique.map fun _ => r.unique name
      indexes := t.indexes.map fun _ => r.index name
      exclude := t.exclude.map fun _ => r.exclusion name
      foreignKeys := t.foreignKeys.map fun _ => r.foreignKey name
      partitionBy := t.partitionBy.map fun by_ => { by_ with columns := r.columnList name by_.columns }
      partitionOf := t.partitionOf.map (r.partitionOf name) }

end Renames

/-! ## Storage parameters -/

/-- What changing an index storage parameter in place does. -/
inductive ParameterChange where
  | alter
  | rebuild
  | refuse
  deriving DecidableEq, Repr

/-- The verdict on a parameter of a method: only a BRIN's granularity takes a rebuild. -/
def IndexMethod.policy : IndexMethod → String → ParameterChange
  | .brin, "pages_per_range" => .rebuild
  | _, _ => .alter

/-- `MethodPolicy::change_of`: the most severe verdict, and the first name that has it. -/
def changeOf (policy : String → ParameterChange) (names : List String) : ParameterChange × Option String :=
  names.foldl (fun worst name => if worst.1.ctorIdx < (policy name).ctorIdx then (policy name, some name) else worst)
    (.alter, none)

/-! ## Clustering -/

def Table.primaryKeyIsClustered (t : Table) : Bool := t.primaryKey.isSome && t.clustered.isNone
def Table.uniqueIsClustered (t : Table) (name : ObjectLocalName) : Bool := t.clustered = some (.unique name)
def Table.indexIsClustered (t : Table) (name : ObjectLocalName) : Bool := t.clustered = some (.index name)

namespace Diff

/-- `renames_of`: the renames two identity files make, by uid. -/
def renamesOf (base declared : IdsFile) : Renames where
  tables := .ofList (declared.tables.toList.filterMap fun (uid, now) =>
    base.tables[uid]?.bind fun was => if was ≠ now then some (was, now) else none)
  columns := .ofList (declared.columns.toList.filterMap fun (uid, now) =>
    base.columns[uid]?.bind fun was => if was.name ≠ now.name then some (was, now.name) else none)

/-! ## Parts by name -/

/-- `by_name`. `kept` answers `none` for a part that is replaced, else the edit that keeps it. -/
def byName {T : Type} (base declared : ExtTreeMap ObjectLocalName T) (kept : ObjectLocalName → T → T → Option Out)
    (drop : ObjectLocalName → Change) (add : ObjectLocalName → T → Change) : Out :=
  .forEach declared.toList (fun (name, part) =>
    match base[name]?.bind fun was => kept name was part with
    | some edit => edit
    | none => .changeIf (base.contains name) (drop name) ++ .change (add name part)) ++
  .forEach base.keys fun name => .changeIf (!declared.contains name) (drop name)

inductive ParameterEdit where
  | unchanged
  | rebuild
  | refuse (parameter : String)
  | alter (set : Parameters) (reset : ExtTreeSet String)

def parametersSet (was now : Parameters) : Parameters := now.filter fun k v => was[k]? ≠ some v
def parametersReset (was now : Parameters) : ExtTreeSet String := .ofList (was.keys.filter fun k => !now.contains k)

/-- `parameter_edit`. -/
def parameterEdit (policy : String → ParameterChange) (was now : Parameters) : ParameterEdit :=
  let set := parametersSet was now
  let reset := parametersReset was now
  if set.isEmpty && reset.isEmpty then .unchanged
  else
    match changeOf policy (set.keys ++ reset.toList) with
    | (.alter, _) => .alter set reset
    | (.rebuild, _) => .rebuild
    | (.refuse, parameter) => .refuse (parameter.getD "")

section Constraints

variable (policy : IndexMethod → String → ParameterChange) (name : TableName) (base declared : Table)

/-- What a difference in storage parameters asks of a part that is otherwise kept. -/
def diffParameters (target : IndexPart) (method : IndexMethod) (was now : Parameters) : Option Out :=
  match parameterEdit (policy method) was now with
  | .unchanged => some {}
  | .rebuild => none
  | .refuse parameter => some (.err (.indexParameterRefused name target method parameter))
  | .alter set reset =>
    -- a partitioned parent's index takes no change in place
    if declared.partitionBy.isSome then none
    else some (.change (.setIndexStorageParameters name target method set reset))

def PrimaryKey.bare (pk : PrimaryKey) : PrimaryKey := { pk with storageParameters := ∅ }
def UniqueConstraint.bare (u : UniqueConstraint) : UniqueConstraint := { u with storageParameters := ∅ }
def Index.bare (ix : Index) : Index := { ix with storageParameters := ∅ }

/-- Whether the primary key is another one, its storage parameters aside: an unnamed declaration
matches any name, and a key that changes layout is replaced. -/
def primaryKeyDiffers : Bool :=
  (match base.primaryKey, declared.primaryKey with
    | some b, some d => if d.name.isNone then decide (b.columns ≠ d.columns) else decide (PrimaryKey.bare b ≠ PrimaryKey.bare d)
    | b, d => decide (b ≠ d)) ||
  (base.primaryKey.isSome && declared.primaryKey.isSome && base.primaryKeyIsClustered != declared.primaryKeyIsClustered)

/-- A key that goes, comes or is replaced: replaced, its drop and its add are two changes. -/
def replacePrimaryKey : Out :=
  let split := base.primaryKey.isSome && declared.primaryKey.isSome
  .change (.setPrimaryKey name base.primaryKey (if split then none else declared.primaryKey)
    (!split && declared.primaryKey.isSome && !declared.primaryKeyIsClustered)) ++
  .changeIf split (.setPrimaryKey name none declared.primaryKey (!declared.primaryKeyIsClustered))

def diffPrimaryKey : Out :=
  if primaryKeyDiffers base declared then replacePrimaryKey name base declared
  else
    match base.primaryKey, declared.primaryKey with
    | some b, some d =>
      (diffParameters policy name declared .primaryKey .btree b.storageParameters d.storageParameters).getD
        (replacePrimaryKey name base declared)
    | _, _ => {}

def diffForeignKeys : Out :=
  byName base.foreignKeys declared.foreignKeys (fun _ b d => if b = d then some {} else none)
    (.dropForeignKey name) (.addForeignKey name)

def diffChecks : Out :=
  byName base.checks declared.checks (fun _ b d => if b = d then some {} else none) (.dropCheck name) (.addCheck name)

def keptUnique (n : ObjectLocalName) (b d : UniqueConstraint) : Option Out :=
  if UniqueConstraint.bare b = UniqueConstraint.bare d ∧ base.uniqueIsClustered n = declared.uniqueIsClustered n then
    diffParameters policy name declared (.unique n) .btree b.storageParameters d.storageParameters
  else none

def diffUniques : Out :=
  byName base.unique declared.unique (keptUnique policy name base declared) (.dropUnique name)
    fun n c => .addUnique name n c (declared.uniqueIsClustered n)

def keptIndex (n : ObjectLocalName) (b d : Index) : Option Out :=
  if Index.bare b = Index.bare d ∧ base.indexIsClustered n = declared.indexIsClustered n then
    diffParameters policy name declared (.index n) d.method b.storageParameters d.storageParameters
  else none

def diffIndexes : Out :=
  byName base.indexes declared.indexes (keptIndex policy name base declared) (.dropIndex name)
    fun n ix => .addIndex name n ix (declared.indexIsClustered n)

/-- `diff_constraints_by`. -/
def diffConstraintsBy : Out :=
  diffPrimaryKey policy name base declared ++ diffForeignKeys name base declared ++ diffChecks name base declared ++
    diffUniques policy name base declared ++ diffIndexes policy name base declared

/-- `diff_constraints`. -/
def diffConstraints : Out := diffConstraintsBy IndexMethod.policy name base declared

/-- `diff_exclusions`: every difference is refused. -/
def diffExclusions : Out :=
  .forEach base.exclude.toList (fun (key, was) =>
    if declared.exclude[key]? = some was then {} else .err (.exclusionRefused name key)) ++
  .forEach declared.exclude.keys fun key => if base.exclude.contains key then {} else .err (.exclusionRefused name key)

/-- Whether a wanted computed column stands: a read-back may know more than the declaration says. -/
def computedKept (wanted was : Option ComputedColumn) : Bool :=
  match wanted, was with
  | some w, some b => w.declares b
  | _, _ => false

/-- `diff_computed`. -/
def diffComputed : Out :=
  .forEach base.computed.toList (fun (column, was) =>
    .changeIf (!computedKept declared.computed[column]? (some was)) (.dropComputedColumn name column was)) ++
  .forEach declared.computed.toList fun (column, wanted) =>
    .changeIf (!computedKept (some wanted) base.computed[column]?) (.addComputedColumn name column wanted)

/-- `diff_storage_parameters`. -/
def diffStorageParameters (uid : Uid) : Out :=
  let set := parametersSet base.storageParameters declared.storageParameters
  let reset := parametersReset base.storageParameters declared.storageParameters
  .changeIf (!(set.isEmpty && reset.isEmpty)) (.setStorageParameters uid name set reset)

def diffPersistence (uid : Uid) : Out :=
  .changeIf (base.unlogged != declared.unlogged) (.setTablePersistence uid name declared.unlogged)

end Constraints

end Diff

end Pbps
