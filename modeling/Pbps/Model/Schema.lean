/-
The structure of the desired state: `pbps-model`'s `schema.rs`, `data.rs`, `role.rs`, `module.rs`
and `managed_type.rs`. Containers hold names and elements do not; the model expresses state, never
intent. A `BTreeMap` is an `ExtTreeMap`, whose equality is that of its entries, and the
insertion-ordered `IndexMap` of a table's columns is an `AList`.
-/
import Pbps.Model.Name
import Mathlib.Data.List.AList

namespace Pbps

open Std (ExtTreeMap ExtTreeSet)

abbrev IndexMap (K V : Type) := AList fun _ : K => V

abbrev Parameters := ExtTreeMap String String

/-! ## Column types -/

/-- One argument of a type, such as the `255` of `nvarchar(255)`. -/
inductive TypeArg where
  | int (n : Int)
  | max
  | ident (name : String)
  deriving DecidableEq, Repr

/-- A column type as written: a base name, arguments and an array marker; `user` is the
user-defined type it names, if any. -/
structure ColumnType where
  base : String
  args : List TypeArg := []
  argsAfterWord : Option Nat := none
  array : Bool := false
  user : Option TypeRef := none
  deriving DecidableEq, Repr

/-- A collation, by the key its comparison reads: names differ only by more than ASCII case. -/
structure Collation where
  key : String
  deriving DecidableEq, Repr

/-- A domain's collation: a case-sensitive qualified name. -/
structure CollationName where
  ref : TypeRef
  deriving DecidableEq, Repr

/-! ## Columns -/

structure SequenceOptions where
  min : Option Int := none
  max : Option Int := none
  cycle : Bool := false
  cache : Option Int := none
  deriving DecidableEq, Repr

structure Identity where
  seed : Int
  increment : Int
  options : SequenceOptions := {}
  deriving DecidableEq, Repr

structure OwnedSequence where
  start : Int
  increment : Int
  name : Option String := none
  options : SequenceOptions := {}
  deriving DecidableEq, Repr

/-- Whether this declaration holds of a sequence as read: an undeclared name fits any. -/
def OwnedSequence.declares (self read : OwnedSequence) : Bool :=
  self.start == read.start && self.increment == read.increment && self.options == read.options &&
    self.name.all fun n => read.name == some n

structure Generated where
  expression : String
  stored : Bool
  deriving DecidableEq, Repr

/-- Where a column's value comes from when a row does not give it. -/
inductive ValueSource where
  | none
  | default (expression : String)
  | identity (identity : Identity)
  | sequence (sequence : OwnedSequence)
  | generated (generated : Generated)
  deriving DecidableEq, Repr

namespace ValueSource

def isIdentity : ValueSource → Bool
  | .identity _ => true
  | _ => false

def isSequence : ValueSource → Bool
  | .sequence _ => true
  | _ => false

def isGenerated : ValueSource → Bool
  | .generated _ => true
  | _ => false

/-- Whether the engine, not a row, writes the column: an identity, a `serial` or a generated one. -/
def enginesOwn : ValueSource → Bool
  | .identity _ | .sequence _ | .generated _ => true
  | .none | .default _ => false

def default? : ValueSource → Option String
  | .default e => some e
  | _ => Option.none

end ValueSource

structure Column where
  ty : ColumnType
  nullable : Bool := true
  valueSource : ValueSource := .none
  collation : Option Collation := none
  description : Option String := none
  deprecated : Option String := none
  deriving DecidableEq, Repr

structure ComputedColumn where
  expression : String
  persisted : Bool := false
  notNull : Bool := false
  deriving DecidableEq, Repr

/-- Whether this declaration holds of a computed column as read: an undeclared not-null fits either. -/
def ComputedColumn.declares (self read : ComputedColumn) : Bool :=
  self.expression == read.expression && self.persisted == read.persisted &&
    (!self.notNull || read.notNull)

/-! ## Keys, constraints and indexes -/

structure PrimaryKey where
  name : Option ObjectLocalName := none
  columns : List ColumnName
  storageParameters : Parameters := ∅
  deriving DecidableEq

structure UniqueConstraint where
  columns : List ColumnName
  storageParameters : Parameters := ∅
  deriving DecidableEq

inductive ReferentialAction where
  | noAction
  | restrict
  | cascade
  | setNull
  | setDefault
  deriving DecidableEq, Repr

structure ForeignKey where
  columns : List ColumnName
  referencesTable : TableName
  referencesColumns : List ColumnName
  onDelete : ReferentialAction := .noAction
  onUpdate : ReferentialAction := .noAction
  deriving DecidableEq, Repr

structure CheckConstraint where
  expression : String
  deriving DecidableEq, Repr

inductive IndexMethod where
  | btree
  | gin
  | gist
  | brin
  deriving DecidableEq, Repr

/-- One index key: a column or an opaque expression. -/
inductive IndexKey where
  | column (name : ColumnName)
  | expression (text : String)
  deriving DecidableEq, Repr

def IndexKey.column? : IndexKey → Option ColumnName
  | .column name => some name
  | .expression _ => none

def IndexKey.expression? : IndexKey → Option String
  | .column _ => none
  | .expression text => some text

/-- An operator class: the engine's own by bare name, or a schema's own. -/
inductive OpClassRef where
  | bare (name : String)
  | qualified (ref : TypeRef)
  deriving DecidableEq, Repr

structure IndexColumn where
  key : IndexKey
  descending : Bool := false
  opclass : Option OpClassRef := none
  collation : Option String := none
  deriving DecidableEq, Repr

structure Index where
  columns : List IndexColumn
  include_ : List ColumnName := []
  unique : Bool := false
  filter : Option String := none
  method : IndexMethod := .btree
  storageParameters : Parameters := ∅
  deriving DecidableEq

namespace Index

def holdsExpressionWhen (ix : Index) (filterBinds : Bool) : Bool :=
  (filterBinds && ix.filter.isSome) || ix.columns.any fun c => c.key.expression?.isSome

def holdsExpression (ix : Index) : Bool := ix.holdsExpressionWhen true

def columnKeys (ix : Index) : Option (List ColumnName) := ix.columns.mapM fun c => c.key.column?

end Index

inductive ExclusionTiming where
  | immediate
  | deferrableImmediate
  | deferrableDeferred
  deriving DecidableEq, Repr

structure ExclusionKey where
  key : IndexColumn
  operator : String
  deriving DecidableEq, Repr

structure ExclusionConstraint where
  method : IndexMethod
  keys : List ExclusionKey
  include_ : List ColumnName := []
  filter : Option String := none
  storageParameters : Parameters := ∅
  timing : ExclusionTiming := .immediate
  deriving DecidableEq

/-- What the rows are physically ordered by, where it is not the primary key. -/
inductive Clustered where
  | heap
  | unique (name : ObjectLocalName)
  | index (name : ObjectLocalName)
  deriving DecidableEq, Repr

inductive ReplicaIdentity where
  | full
  | nothing
  | primaryKey
  | unique (name : ObjectLocalName)
  | index (name : ObjectLocalName)
  deriving DecidableEq, Repr

/-! ## Row security -/

structure RowSecurity where
  enabled : Bool := false
  forced : Bool := false
  deriving DecidableEq, Repr

def RowSecurity.isDefault (s : RowSecurity) : Bool := !s.enabled && !s.forced

inductive PolicyCommand where
  | all
  | select
  | insert
  | update
  | delete
  deriving DecidableEq, Repr

inductive PolicyRoles where
  | public_
  | roles (names : ExtTreeSet RoleName)
  deriving DecidableEq

structure RowPolicy where
  command : PolicyCommand := .all
  restrictive : Bool := false
  to_ : PolicyRoles := .public_
  using_ : Option String := none
  withCheck : Option String := none
  deriving DecidableEq

/-! ## Partitions and periods -/

inductive PartitionStrategy where
  | range
  | list
  | hash
  deriving DecidableEq, Repr

structure PartitionBy where
  strategy : PartitionStrategy := .range
  columns : List ColumnName
  external : Bool := false
  deriving DecidableEq, Repr

/-- What a partition declares of its own on a column it has from its parent. -/
structure PartitionColumn where
  default : Option String := none
  notNull : Bool := false
  deriving DecidableEq, Repr

inductive BoundDatum where
  | minValue
  | maxValue
  | value (text : String)
  deriving DecidableEq, Repr

/-- A list bound's datum; `none` is NULL, which sorts first. -/
abbrev ListDatum := Option String

inductive PartitionBound where
  | default
  | range (from_ to_ : List BoundDatum)
  | list (values : ExtTreeSet ListDatum)
  | hash (modulus remainder : Nat)
  deriving DecidableEq

structure PartitionOf where
  parent : TableName
  bound : PartitionBound
  columns : ExtTreeMap ColumnName PartitionColumn := ∅
  deriving DecidableEq

inductive RetentionUnit where
  | day
  | week
  | month
  | year
  deriving DecidableEq, Repr

structure Retention where
  count : Nat
  unit : RetentionUnit
  deriving DecidableEq, Repr

structure SystemVersioning where
  history : TableName
  retention : Option Retention := none
  deriving DecidableEq, Repr

structure SystemTime where
  start : ColumnName
  end_ : ColumnName
  hidden : Bool := false
  versioning : Option SystemVersioning := none
  deriving DecidableEq, Repr

def SystemTime.isPeriodColumn (p : SystemTime) (column : ColumnName) : Bool :=
  p.start == column || p.end_ == column

/-! ## Declared rows -/

inductive DataMode where
  | exact
  | ensure
  deriving DecidableEq, Repr

abbrev RowKey := String

inductive Value where
  | null
  | bool (b : Bool)
  | int (n : Int)
  | text (t : String)
  deriving DecidableEq, Repr

abbrev Row := ExtTreeMap ColumnName Value

structure TableData where
  mode : DataMode
  rows : ExtTreeMap RowKey Row
  deriving DecidableEq

/-- What a row holds in a column: a value, or the default the column gives. -/
inductive Cell where
  | value (v : Value)
  | default (expression : String)
  deriving DecidableEq, Repr

/-- The cell of `row` in `column`, under the column's own specification. -/
def cell (row : Row) (column : ColumnName) (spec : Option Column) : Cell :=
  match row[column]? with
  | some v => .value v
  | none =>
    match spec.map Column.valueSource with
    | some (.default expression) => .default expression
    | _ => .value .null

/-! ## Tables -/

structure Table where
  description : Option String := none
  columns : IndexMap ColumnName Column := ∅
  computed : ExtTreeMap ColumnName ComputedColumn := ∅
  primaryKey : Option PrimaryKey := none
  unique : ExtTreeMap ObjectLocalName UniqueConstraint := ∅
  foreignKeys : ExtTreeMap ObjectLocalName ForeignKey := ∅
  checks : ExtTreeMap ObjectLocalName CheckConstraint := ∅
  indexes : ExtTreeMap ObjectLocalName Index := ∅
  exclude : ExtTreeMap ObjectLocalName ExclusionConstraint := ∅
  clustered : Option Clustered := none
  replicaIdentity : Option ReplicaIdentity := none
  storageParameters : Parameters := ∅
  unlogged : Bool := false
  rowSecurity : RowSecurity := {}
  rowPolicies : ExtTreeMap String RowPolicy := ∅
  systemTime : Option SystemTime := none
  partitionBy : Option PartitionBy := none
  partitionOf : Option PartitionOf := none
  data : Option TableData := none
  deriving DecidableEq, Inhabited

def Table.columnList (t : Table) : List (ColumnName × Column) := t.columns.entries.map fun e => (e.1, e.2)

theorem nodup_columnList (t : Table) : (t.columnList.map Prod.fst).Nodup := by
  have : t.columnList.map Prod.fst = t.columns.keys := by
    simp [Table.columnList, AList.keys, List.keys, Function.comp_def]
  rw [this]
  exact t.columns.keys_nodup

theorem mem_columnList {t : Table} {c : ColumnName} {spec : Column} :
    (c, spec) ∈ t.columnList ↔ t.columns.lookup c = some spec := by
  rw [← Option.mem_def, AList.mem_lookup_iff, Table.columnList, List.mem_map]
  constructor
  · rintro ⟨⟨c', spec'⟩, h, he⟩
    cases he; exact h
  · exact fun h => ⟨⟨c, spec⟩, h, rfl⟩

/-! ## Modules, roles and types -/

/-- A function or procedure, identified by name and argument types. -/
structure RoutineId where
  name : ObjectName
  args : List String
  deriving DecidableEq, Repr

namespace RoutineId

instance : Ord RoutineId := ⟨compareFields RoutineId.name RoutineId.args⟩

instance : Std.TransOrd RoutineId :=
  inferInstanceAs (Std.TransCmp (compareFields RoutineId.name RoutineId.args))

instance : Std.LawfulEqOrd RoutineId where
  compare_self := compareFields_self _
  eq_of_compare {a b} h := by
    obtain ⟨h1, h2⟩ := compareFields_eq h
    cases a; cases b; simp_all

end RoutineId

/-- A module's identity: a view by name, a routine by signature, a trigger by table and name. -/
inductive ModuleId where
  | named (name : ObjectName)
  | routine (id : RoutineId)
  | trigger (on : ObjectName) (name : String)
  deriving DecidableEq, Repr

namespace ModuleId

/-- The variant's place, and its name with the argument types or the trigger's own name. -/
def orderKey : ModuleId → Nat × RoutineId
  | .named n => (0, ⟨n, []⟩)
  | .routine r => (1, r)
  | .trigger on name => (2, ⟨on, [name]⟩)

def compareKeys : ModuleId → ModuleId → Ordering :=
  compareFields (fun m => m.orderKey.1) (fun m => m.orderKey.2)

instance : Ord ModuleId := ⟨compareKeys⟩

instance : Std.TransOrd ModuleId :=
  inferInstanceAs (Std.TransCmp (compareFields _ _))

instance : Std.LawfulEqOrd ModuleId where
  compare_self := compareFields_self _
  eq_of_compare {a b} h := by
    obtain ⟨h1, h2⟩ := compareFields_eq h
    cases a <;> cases b <;> simp_all [orderKey]

end ModuleId

def ModuleId.referencedName : ModuleId → Option ObjectName
  | .named n => some n
  | .routine r => some r.name
  | .trigger _ _ => none

def ModuleId.attachedTo : ModuleId → Option ObjectName
  | .trigger on _ => some on
  | .named _ | .routine _ => none

inductive ModuleKind where
  | view
  | procedure
  | function
  | trigger
  deriving DecidableEq, Repr

structure ModuleOptions where
  schemabinding : Bool := false
  indexes : ExtTreeMap ObjectLocalName Index := ∅
  clustered : Option ObjectLocalName := none
  deriving DecidableEq

structure Module where
  kind : ModuleKind
  description : Option String := none
  options : ModuleOptions := {}
  definition : String
  deriving DecidableEq

/-- What a grant is about. -/
inductive GrantTarget where
  | object (name : ObjectName)
  | routine (id : RoutineId)
  | schema (name : String)
  | sequence (column : ColumnRef)
  deriving DecidableEq, Repr

namespace GrantTarget

def orderKey : GrantTarget → Nat × List String
  | .object n => (0, [n.schema, n.name])
  | .routine r => (1, r.name.schema :: r.name.name :: r.args)
  | .schema s => (2, [s])
  | .sequence c => (3, [c.table.schema, c.table.name, c.name])

def compareKeys : GrantTarget → GrantTarget → Ordering :=
  compareFields (fun g => g.orderKey.1) (fun g => g.orderKey.2)

instance : Ord GrantTarget := ⟨compareKeys⟩

instance : Std.TransOrd GrantTarget :=
  inferInstanceAs (Std.TransCmp (compareFields _ _))

instance : Std.LawfulEqOrd GrantTarget where
  compare_self := compareFields_self _
  eq_of_compare {a b} h := by
    obtain ⟨h1, h2⟩ := compareFields_eq h
    rcases a with ⟨⟨_, _⟩⟩ | ⟨⟨_, _⟩, _⟩ | _ | ⟨⟨_, _⟩, _⟩ <;>
      rcases b with ⟨⟨_, _⟩⟩ | ⟨⟨_, _⟩, _⟩ | _ | ⟨⟨_, _⟩, _⟩ <;> simp_all [orderKey]

end GrantTarget

inductive Permission where
  | select
  | insert
  | update
  | delete
  | references
  | execute
  | alter
  | viewDefinition
  | usage
  | create
  | truncate
  | trigger
  | maintain
  | serialSequences
  deriving DecidableEq, Repr

namespace Permission

instance : Ord Permission := ⟨compareOn Permission.ctorIdx⟩

instance : Std.TransOrd Permission := inferInstanceAs (Std.TransCmp (compareOn Permission.ctorIdx))

instance : Std.LawfulEqOrd Permission where
  compare_self {a} := Std.ReflOrd.compare_self (a := a.ctorIdx)
  eq_of_compare {a b} h := by
    have : a.ctorIdx = b.ctorIdx := Std.LawfulEqOrd.eq_of_compare h
    cases a <;> cases b <;> first | rfl | cases this

end Permission

/-- A database role's declaration: what it is granted, by target. -/
structure Role where
  description : Option String := none
  grants : ExtTreeMap GrantTarget (ExtTreeSet Permission) := ∅
  deriving DecidableEq

/-- A declared shared type. -/
inductive ManagedType where
  | enum (values : List String)
  | domain (base : ColumnType) (notNull : Bool) (default : Option String)
      (checks : ExtTreeMap ObjectLocalName String) (collation : Option CollationName)
  deriving DecidableEq

structure Extension where
  schema : String
  version : String
  deriving DecidableEq, Repr

/-- The desired state of a database. -/
structure Schema where
  tables : ExtTreeMap TableName Table := ∅
  types : ExtTreeMap TypeRef ManagedType := ∅
  extensions : ExtTreeMap ObjectLocalName Extension := ∅
  modules : ExtTreeMap ModuleId Module := ∅
  roles : ExtTreeMap RoleName Role := ∅
  deriving DecidableEq, Inhabited

end Pbps
