/-
What was declared when an object was last written: `Declared` of `pbps-model`'s `declared.rs`. The record
is taken from a schema (`from_schema`) and carried over the changes a plan ran (`advance_over`).
-/
import Pbps.Diff.Domains
import Pbps.Lib.Nested

namespace Pbps

open Std (ExtTreeMap ExtTreeSet)
open Pbps.Diff (Change DomainDelta DetachedKind DetachedName RetainedExpression)

/-! ## The record -/

namespace Declared

/-- Containers hold names, elements do not: by table, then by the part's own name. -/
abbrev ByTable (K V : Type) [Ord K] := ExtTreeMap TableName (ExtTreeMap K V)

structure DeclaredPolicyExpressions where
  using_ : Option String := none
  withCheck : Option String := none
  deriving DecidableEq, Repr

def DeclaredPolicyExpressions.ofPolicy (p : RowPolicy) : DeclaredPolicyExpressions := ⟨p.using_, p.withCheck⟩

/-- The expressions the model holds verbatim. Of an index's or an exclusion constraint's keys, one entry for
each key: the text of an expression and nothing for a column. -/
@[ext]
structure DeclaredExpressions where
  defaults : ByTable ColumnName String := ∅
  generated : ByTable ColumnName String := ∅
  computed : ByTable ColumnName String := ∅
  checks : ByTable ObjectLocalName String := ∅
  filters : ByTable ObjectLocalName String := ∅
  keys : ByTable ObjectLocalName (List (Option String)) := ∅
  exclusionFilters : ByTable ObjectLocalName String := ∅
  exclusionKeys : ByTable ObjectLocalName (List (Option String)) := ∅
  policies : ByTable String DeclaredPolicyExpressions := ∅
  deriving DecidableEq

/-- What a declaration's unqualified names could have resolved to. -/
structure Binding where
  candidates : ExtTreeMap String (ExtTreeSet String)
  deriving DecidableEq

structure Bindings where
  modules : ExtTreeMap ModuleId Binding := ∅
  defaults : ByTable ColumnName Binding := ∅
  checks : ByTable ObjectLocalName Binding := ∅
  filters : ByTable ObjectLocalName Binding := ∅
  deriving DecidableEq

end Declared

/-- Everything a state records as declared. -/
structure Declared where
  types : ExtTreeMap TypeRef ManagedType := ∅
  modules : ExtTreeMap ModuleId String := ∅
  expressions : Declared.DeclaredExpressions := {}
  bindings : Declared.Bindings := {}
  deriving DecidableEq

namespace Declared

/-! ## What a table declares -/

def generatedText : ValueSource → Option String
  | .generated g => some g.expression
  | _ => none

variable (d : Declared) (t : Table)

def columnTexts (text : ValueSource → Option String) : ExtTreeMap ColumnName String :=
  .ofList (t.columnList.filterMap fun e => (text e.2.valueSource).map fun v => (e.1, v))

def ownColumns : ExtTreeMap ColumnName PartitionColumn :=
  match t.partitionOf with
  | some p => p.columns
  | none => ∅

def ownDefaults : ExtTreeMap ColumnName String := (ownColumns t).filterMap fun _ own => own.default

/-- The defaults of a table's columns, and then those a partition has of its own. -/
def defaultsOf : ExtTreeMap ColumnName String := columnTexts t ValueSource.default? ∪ ownDefaults t

def generatedOf : ExtTreeMap ColumnName String := columnTexts t generatedText

def computedOf : ExtTreeMap ColumnName String := t.computed.map fun _ c => c.expression

def checksOf : ExtTreeMap ObjectLocalName String := t.checks.map fun _ c => c.expression

/-- The keys as they are recorded, or nothing where every key is a column. -/
def keysText (keys : List IndexKey) : Option (List (Option String)) :=
  if keys.any fun k => k.expression?.isSome then some (keys.map IndexKey.expression?) else none

def declaredKeys (ix : Index) : Option (List (Option String)) := keysText (ix.columns.map (·.key))

def filtersOf : ExtTreeMap ObjectLocalName String := t.indexes.filterMap fun _ ix => ix.filter

def keysOf : ExtTreeMap ObjectLocalName (List (Option String)) := t.indexes.filterMap fun _ ix => declaredKeys ix

def exclusionFiltersOf : ExtTreeMap ObjectLocalName String := t.exclude.filterMap fun _ x => x.filter

def exclusionKeysOf : ExtTreeMap ObjectLocalName (List (Option String)) :=
  t.exclude.filterMap fun _ x => keysText (x.keys.map (·.key.key))

def policiesOf : ExtTreeMap String DeclaredPolicyExpressions := t.rowPolicies.map fun _ p => .ofPolicy p

/-- The expressions of every table. A table that declares none of a kind has no entry there. -/
def expressionsOf (tables : ExtTreeMap TableName Table) : DeclaredExpressions where
  defaults := Nested.ofMap tables defaultsOf
  generated := Nested.ofMap tables generatedOf
  computed := Nested.ofMap tables computedOf
  checks := Nested.ofMap tables checksOf
  filters := Nested.ofMap tables filtersOf
  keys := Nested.ofMap tables keysOf
  exclusionFilters := Nested.ofMap tables exclusionFiltersOf
  exclusionKeys := Nested.ofMap tables exclusionKeysOf
  policies := Nested.ofMap tables policiesOf

def fromSchema (s : Schema) : Declared where
  types := s.types
  modules := s.modules.map fun _ m => m.definition
  expressions := expressionsOf s.tables

/-! ## The record over a plan -/

/-- `from_`'s records copied to `to_`, each under its new name. -/
def copyTable {K V : Type} [Ord K] [Std.TransOrd K] (m : ByTable K V) (from_ to_ : TableName) (rename : K → K) :
    ByTable K V :=
  match m[from_]? with
  | none => m
  | some records => m.insert to_ (.ofList (records.toList.map fun e => (rename e.1, e.2)))

def forgetTable (name : TableName) : Declared where
  types := d.types
  modules := d.modules
  expressions :=
    { defaults := d.expressions.defaults.erase name
      generated := d.expressions.generated.erase name
      computed := d.expressions.computed.erase name
      checks := d.expressions.checks.erase name
      filters := d.expressions.filters.erase name
      keys := d.expressions.keys.erase name
      exclusionFilters := d.expressions.exclusionFilters.erase name
      exclusionKeys := d.expressions.exclusionKeys.erase name
      policies := d.expressions.policies.erase name }
  bindings :=
    { d.bindings with
      defaults := d.bindings.defaults.erase name
      checks := d.bindings.checks.erase name
      filters := d.bindings.filters.erase name }

/-- The expressions of a table that was just written, beside the others'. -/
def DeclaredExpressions.extend (e fresh : DeclaredExpressions) : DeclaredExpressions where
  defaults := e.defaults ∪ fresh.defaults
  generated := e.generated ∪ fresh.generated
  computed := e.computed ∪ fresh.computed
  checks := e.checks ∪ fresh.checks
  filters := e.filters ∪ fresh.filters
  keys := e.keys ∪ fresh.keys
  exclusionFilters := e.exclusionFilters ∪ fresh.exclusionFilters
  exclusionKeys := e.exclusionKeys ∪ fresh.exclusionKeys
  policies := e.policies ∪ fresh.policies

def freshExpressions (name : TableName) (t : Table) : DeclaredExpressions :=
  expressionsOf ((∅ : ExtTreeMap TableName Table).insert name t)

def detachedName (names : List DetachedName) (kind : DetachedKind) (of : ObjectLocalName) : ObjectLocalName :=
  ((names.find? fun n => n.kind = kind ∧ n.parent = of).bind (·.name)).getD of

/-- The bindings an attached table keeps: those of the parts its shape still holds as its own. -/
def keptBindings {K V : Type} [Ord K] [Std.TransOrd K] (bindings : ByTable K Binding) (fresh : ByTable K V) (table : TableName) :
    ByTable K Binding :=
  let kept := (Nested.inner bindings table).filter fun name _ => (Nested.inner fresh table).contains name
  if kept.isEmpty then bindings.erase table else bindings.insert table kept

/-- An expression the engine answered for on both sides of a label's rename. -/
def retain (r : RetainedExpression) : Declared :=
  match r.target with
  | .check _ table name =>
    { d with
      expressions := { d.expressions with checks := Nested.insert d.expressions.checks table name r.after }
      bindings := { d.bindings with checks := Nested.remove d.bindings.checks table name } }
  | .columnDefault _ column =>
    { d with
      expressions := { d.expressions with defaults := Nested.insert d.expressions.defaults column.table column.name r.after }
      bindings := { d.bindings with defaults := Nested.remove d.bindings.defaults column.table column.name } }

/-- A column's default given up, and another taken where there is one. -/
def setDefault (table : TableName) (column : ColumnName) (to_ : Option String) : Declared :=
  { d with
    expressions := { d.expressions with
      defaults := Nested.set (Nested.remove d.expressions.defaults table column) table column to_ }
    bindings := { d.bindings with defaults := Nested.remove d.bindings.defaults table column } }

def writeModule (id : ModuleId) (m : Module) : Declared :=
  { d with
    modules := d.modules.insert id m.definition
    bindings := { d.bindings with modules := d.bindings.modules.erase id } }

def partitionsOf (state : Option Schema) (parent : TableName) : List TableName :=
  match state with
  | none => []
  | some s => (s.tables.toList.filter fun e => e.2.partitionOf.any fun p => p.parent = parent).map Prod.fst

/-- One change of `advance_over`. -/
def advanceChange (state : Option Schema) (d : Declared) : Change → Declared
  | .rebuildPartitionedTable .. | .buildPartitionedIndex .. | .copyTableRows .. | .analyzeTableTree ..
  | .createExtension .. | .dropExtension .. | .updateExtension .. | .setExtensionSchema .. => d
  | .alterDomain _ name from_ to_ half =>
    let current := (d.types[name]?).getD from_
    let definition := ((DomainDelta.of from_ to_).bind fun delta => delta.applyTo current half).getD to_
    { d with types := d.types.insert name definition }
  | .addEnumValue _ name _ _ _ definition => { d with types := d.types.insert name definition }
  | .renameEnumValue _ name _ _ _ retained definition =>
    let d := retained.foldl retain d
    { d with types := d.types.insert name definition }
  | .createType _ name definition => { d with types := d.types.insert name definition }
  | .enumRebuild _ name _ (.swap definition ..) => { d with types := d.types.insert name definition }
  | .enumRebuild .. => d
  | .dropType _ name _ => { d with types := d.types.erase name }
  | .renameType _ from_ to_ _ => { d with types := Nested.rekey d.types from_ to_ }
  | .createTable _ name table .. =>
    let d := d.forgetTable name
    { d with expressions := d.expressions.extend (freshExpressions name table) }
  | .dropTable _ name .. => d.forgetTable name
  | .detachPartition _ table parent names shape =>
    let d := d.forgetTable table
    { d with
      expressions := d.expressions.extend (freshExpressions table shape)
      bindings := { d.bindings with
        defaults := copyTable d.bindings.defaults parent table id
        checks := copyTable d.bindings.checks parent table (detachedName names .check)
        filters := copyTable d.bindings.filters parent table (detachedName names .index) } }
  | .attachPartition _ table _ _ _ shape =>
    let fresh := freshExpressions table shape
    let forgotten := d.forgetTable table
    { forgotten with
      expressions := { forgotten.expressions with
        defaults := forgotten.expressions.defaults ∪ fresh.defaults
        checks := forgotten.expressions.checks ∪ fresh.checks
        filters := forgotten.expressions.filters ∪ fresh.filters
        keys := forgotten.expressions.keys ∪ fresh.keys
        exclusionFilters := forgotten.expressions.exclusionFilters ∪ fresh.exclusionFilters
        exclusionKeys := forgotten.expressions.exclusionKeys ∪ fresh.exclusionKeys }
      bindings := { forgotten.bindings with
        defaults := keptBindings d.bindings.defaults fresh.defaults table
        checks := keptBindings d.bindings.checks fresh.checks table
        filters := keptBindings d.bindings.filters fresh.filters table } }
  | .renameTable _ from_ to_ _ =>
    { d with
      expressions :=
        { defaults := Nested.rekey d.expressions.defaults from_ to_
          generated := Nested.rekey d.expressions.generated from_ to_
          computed := Nested.rekey d.expressions.computed from_ to_
          checks := Nested.rekey d.expressions.checks from_ to_
          filters := Nested.rekey d.expressions.filters from_ to_
          keys := Nested.rekey d.expressions.keys from_ to_
          exclusionFilters := Nested.rekey d.expressions.exclusionFilters from_ to_
          exclusionKeys := Nested.rekey d.expressions.exclusionKeys from_ to_
          policies := Nested.rekey d.expressions.policies from_ to_ }
      bindings := { d.bindings with
        defaults := Nested.rekey d.bindings.defaults from_ to_
        checks := Nested.rekey d.bindings.checks from_ to_
        filters := Nested.rekey d.bindings.filters from_ to_ } }
  | .addColumn _ table name column =>
    { d with
      expressions := { d.expressions with
        defaults := Nested.set (Nested.remove d.expressions.defaults table name) table name column.valueSource.default?
        generated := Nested.set (Nested.remove d.expressions.generated table name) table name
          (generatedText column.valueSource) }
      bindings := { d.bindings with defaults := Nested.remove d.bindings.defaults table name } }
  | .dropColumn _ column =>
    { d with
      expressions := { d.expressions with
        defaults := (column.table :: partitionsOf state column.table).foldl (Nested.remove · · column.name) d.expressions.defaults
        generated := Nested.remove d.expressions.generated column.table column.name }
      bindings := { d.bindings with
        defaults := (column.table :: partitionsOf state column.table).foldl (Nested.remove · · column.name) d.bindings.defaults } }
  | .renameColumn _ table from_ to_ _ =>
    { d with
      expressions := { d.expressions with
        defaults := (table :: partitionsOf state table).foldl (Nested.rekeyInner · · from_ to_) d.expressions.defaults
        generated := Nested.rekeyInner d.expressions.generated table from_ to_ }
      bindings := { d.bindings with
        defaults := (table :: partitionsOf state table).foldl (Nested.rekeyInner · · from_ to_) d.bindings.defaults } }
  | .alterColumnDefault _ column _ to_ => d.setDefault column.table column.name to_
  | .setPartitionDefault _ table _ column _ to_ _ => d.setDefault table column to_
  | .alterColumnNumbering _ column _ _ to_ => d.setDefault column.table column.name to_.default?
  | .alterColumnExpression _ column _ to_ =>
    { d with expressions := { d.expressions with
        generated := Nested.insert d.expressions.generated column.table column.name to_ } }
  | .addComputedColumn table name computed =>
    { d with expressions := { d.expressions with
        computed := Nested.insert d.expressions.computed table name computed.expression } }
  | .dropComputedColumn table name _ =>
    { d with expressions := { d.expressions with computed := Nested.remove d.expressions.computed table name } }
  | .addCheck table name constraint =>
    { d with
      expressions := { d.expressions with checks := Nested.insert d.expressions.checks table name constraint.expression }
      bindings := { d.bindings with checks := Nested.remove d.bindings.checks table name } }
  | .dropCheck table name =>
    { d with
      expressions := { d.expressions with checks := Nested.remove d.expressions.checks table name }
      bindings := { d.bindings with checks := Nested.remove d.bindings.checks table name } }
  | .addIndex table name index _ =>
    { d with
      expressions := { d.expressions with
        filters := Nested.set (Nested.remove d.expressions.filters table name) table name index.filter
        keys := Nested.set (Nested.remove d.expressions.keys table name) table name (declaredKeys index) }
      bindings := { d.bindings with filters := Nested.remove d.bindings.filters table name } }
  | .dropIndex table name =>
    { d with
      expressions := { d.expressions with
        filters := Nested.remove d.expressions.filters table name
        keys := Nested.remove d.expressions.keys table name }
      bindings := { d.bindings with filters := Nested.remove d.bindings.filters table name } }
  | .dropPolicy table name _ =>
    { d with expressions := { d.expressions with policies := Nested.remove d.expressions.policies table name } }
  | .createPolicy table name policy _ =>
    { d with expressions := { d.expressions with
        policies := Nested.insert d.expressions.policies table name (.ofPolicy policy) } }
  | .createModule id module => d.writeModule id module
  | .alterModule id module => d.writeModule id module
  | .dropModule id _ =>
    { d with
      modules := d.modules.erase id
      bindings := { d.bindings with modules := d.bindings.modules.erase id } }
  | .setRowSecurity .. | .alterColumnType .. | .alterColumnNullability .. | .setColumnDeprecated ..
  | .setPrimaryKey .. | .setIndexStorageParameters .. | .setTablePersistence .. | .setStorageParameters ..
  | .setPartitionNotNull .. | .setReplicaIdentity .. | .addUnique .. | .dropUnique .. | .addForeignKey ..
  | .dropForeignKey .. | .insertRow .. | .updateRow .. | .deleteRow .. | .setDataMode .. | .setEnsureKeys ..
  | .createRole .. | .dropRole .. | .renameRole .. | .grant .. | .revoke .. | .publicExecution .. => d

def advance (changes : List Change) : Declared := changes.foldl (advanceChange none) d

/-- The record carried over a plan, a parent's column rename or drop into its partitions in the state the
plan leaves. -/
def advanceWithPartitions (changes : List Change) (state : Schema) : Declared :=
  changes.foldl (advanceChange (some state)) d

end Declared

end Pbps
