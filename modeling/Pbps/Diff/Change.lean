/-
What a plan is made of: `pbps-model`'s `change.rs`, with the steps of a partitioned table's rebuild by the table's name.
A change names its object as the engine knows it when the change runs.
-/
import Pbps.Model.Ids

namespace Pbps.Diff

open Std (ExtTreeMap ExtTreeSet)

/-! ## Parts of changes -/

/-- Why a row is deleted. -/
inductive DeleteCause where
  | undeclared
  | keyChanged
  deriving DecidableEq, Repr

/-- Whether a table's policies and flags come with the table or stand on one. -/
inductive RowSecurityOrigin where
  | created
  | standing
  deriving DecidableEq, Repr

/-- The part whose index a storage parameter belongs to. -/
inductive IndexPart where
  | primaryKey
  | unique (name : ObjectLocalName)
  | index (name : ObjectLocalName)
  deriving DecidableEq, Repr

inductive DetachedKind where
  | primaryKey
  | unique
  | foreignKey
  | check
  | index
  deriving DecidableEq, Repr

/-- What one of a parent's parts is called on a partition that is detached. -/
structure DetachedName where
  kind : DetachedKind
  parent : ObjectLocalName
  name : Option ObjectLocalName
  deriving DecidableEq, Repr

/-- How a retype carries the values over. -/
inductive ValueChange where
  | cast (from_ to_ : ColumnType) (arrays : Nat) (using_ : Option String)
  | relabel (removed : List String)
  deriving DecidableEq, Repr

/-- One step of the rebuild of a type: the replacement is created, takes the columns over one by one
and then takes the name. `overType` is the replacement of the type this one is built on. -/
inductive EnumRebuildStep where
  | create (definition : ManagedType) (removed : List String) (ordinal : Nat) (overType : Option TypeRef) (why : Option String)
  | retype (columnUid : Uid) (column : ColumnRef) (to_ : ColumnType) (array : Bool) (values : ValueChange)
  | swap (definition : ManagedType) (comment : Option String) (depth : Nat) (overType : Option TypeRef)
  deriving DecidableEq

/-- The neighbour a new label stands beside. -/
inductive EnumPlacement where
  | before (label : String)
  | after (label : String)
  deriving DecidableEq, Repr

/-- Which half of a domain's change in place: what it drops, or what it adds and checks. -/
inductive DomainHalf where
  | loosen
  | tighten
  deriving DecidableEq, Repr

/-- An expression the engine answers for on both sides of a plan's label renames. -/
inductive ExpressionTarget where
  | columnDefault (uid : Uid) (column : ColumnRef)
  | check (uid : Uid) (table : TableName) (name : ObjectLocalName)
  deriving DecidableEq, Repr

structure RenameAnchor where
  uid : Uid
  ordinal : Nat
  deriving DecidableEq, Repr

/-- An expression that reads differently on the two sides and is the same one: the label renames it
waits for, in order. -/
structure RetainedExpression where
  target : ExpressionTarget
  before : String
  after : String
  anchors : List RenameAnchor
  deriving DecidableEq, Repr

/-- What becomes of the engine's default `EXECUTE` to everyone on a routine. -/
inductive PublicAccess where
  | kept
  | revoked
  deriving DecidableEq, Repr

/-- Whether a routine the plan creates stood before. -/
inductive RoutineOrigin where
  | created
  | rebuilt
  deriving DecidableEq, Repr

/-! ## Changes -/

inductive Change where
  | rebuildPartitionedTable (table : TableName)
  | buildPartitionedIndex (parent : TableName)
  | copyTableRows (target : TableName)
  | analyzeTableTree (parent : TableName)
  | createExtension (uid : Uid) (name : ObjectLocalName) (definition : Extension) (requires : ExtTreeSet Uid)
  | dropExtension (uid : Uid) (name : ObjectLocalName) (definition : Extension) (requirers : ExtTreeSet Uid)
      (releases : ExtTreeSet ModuleId)
  | updateExtension (uid : Uid) (name : ObjectLocalName) (from_ to_ : Extension) (requires : ExtTreeSet Uid)
      (releases : ExtTreeSet ModuleId)
  | setExtensionSchema (uid : Uid) (name : ObjectLocalName) (from_ to_ : Extension) (releases : ExtTreeSet ModuleId)
  | addEnumValue (uid : Uid) (name : TypeRef) (value : String) (placement : Option EnumPlacement) (ordinal : Nat)
      (definition : ManagedType)
  | renameEnumValue (uid : Uid) (name : TypeRef) (from_ to_ : String) (ordinal : Nat) (retained : List RetainedExpression)
      (definition : ManagedType)
  | alterDomain (uid : Uid) (name : TypeRef) (from_ to_ : ManagedType) (half : DomainHalf)
  | enumRebuild (uid : Uid) (name tmp : TypeRef) (step : EnumRebuildStep)
  | createType (uid : Uid) (name : TypeRef) (definition : ManagedType)
  | dropType (uid : Uid) (name : TypeRef) (definition : ManagedType)
  | renameType (uid : Uid) (from_ to_ : TypeRef) (definition : ManagedType)
  | createTable (uid : Uid) (name : TableName) (table : Table) (besideDefault : Option TableName)
      (movesAtMost : Option Nat)
  | dropTable (uid : Uid) (name : TableName) (detachFrom : Option TableName)
  | detachPartition (uid : Uid) (table parent : TableName) (names : List DetachedName) (shape : Table)
  | attachPartition (uid : Uid) (table parent : TableName) (bound : PartitionBound) (key : List ColumnName) (shape : Table)
  | renameTable (uid : Uid) (from_ to_ : TableName) (defaults : List ColumnName)
  | addColumn (uid : Uid) (table : TableName) (name : ColumnName) (column : Column)
  | dropColumn (uid : Uid) (column : ColumnRef)
  | renameColumn (uid : Uid) (table : TableName) (from_ to_ : ColumnName) (tableWas : Option TableName)
  | alterColumnType (uid : Uid) (column : ColumnRef) (from_ to_ : ColumnType) (fromNullable toNullable : Bool)
      (fromCollation toCollation : Option Collation) (throughExternalPartitions : Bool) (using_ : Option String)
  | alterColumnNullability (uid : Uid) (column : ColumnRef) (ty : ColumnType) (toNullable : Bool)
      (collation : Option Collation) (throughExternalPartitions : Bool)
  | alterColumnDefault (uid : Uid) (column : ColumnRef) (from_ to_ : Option String)
  | alterColumnExpression (uid : Uid) (column : ColumnRef) (from_ to_ : String)
  | alterColumnNumbering (uid : Uid) (column : ColumnRef) (ty : ColumnType) (from_ to_ : ValueSource)
  | addComputedColumn (table : TableName) (name : ColumnName) (computed : ComputedColumn)
  | dropComputedColumn (table : TableName) (name : ColumnName) (computed : ComputedColumn)
  | setColumnDeprecated (uid : Uid) (column : ColumnRef) (reason : Option String)
  | setReplicaIdentity (uid : Uid) (table : TableName) (to_ : Option ReplicaIdentity)
  | setStorageParameters (uid : Uid) (table : TableName) (set : Parameters) (reset : ExtTreeSet String)
  | setTablePersistence (uid : Uid) (table : TableName) (unlogged : Bool)
  | setPartitionDefault (uid : Uid) (table parent : TableName) (column : ColumnName) (from_ to_ fallback : Option String)
  | setPartitionNotNull (uid : Uid) (table : TableName) (column : ColumnName) (notNull : Bool)
  | setIndexStorageParameters (table : TableName) (target : IndexPart) (method : IndexMethod) (set : Parameters)
      (reset : ExtTreeSet String)
  | createPolicy (table : TableName) (name : String) (policy : RowPolicy) (origin : RowSecurityOrigin)
  | dropPolicy (table : TableName) (name : String) (policy : RowPolicy)
  | setRowSecurity (uid : Uid) (table : TableName) (from_ to_ : RowSecurity) (origin : RowSecurityOrigin)
  | setPrimaryKey (table : TableName) (from_ to_ : Option PrimaryKey) (nonclustered : Bool)
  | addUnique (table : TableName) (name : ObjectLocalName) (constraint : UniqueConstraint) (clustered : Bool)
  | dropUnique (table : TableName) (name : ObjectLocalName)
  | addForeignKey (table : TableName) (name : ObjectLocalName) (constraint : ForeignKey)
  | dropForeignKey (table : TableName) (name : ObjectLocalName)
  | addCheck (table : TableName) (name : ObjectLocalName) (constraint : CheckConstraint)
  | dropCheck (table : TableName) (name : ObjectLocalName)
  | addIndex (table : TableName) (name : ObjectLocalName) (index : Index) (clustered : Bool)
  | dropIndex (table : TableName) (name : ObjectLocalName)
  | insertRow (table : TableName) (keyColumn : ColumnName) (identityKey : Bool) (key : RowKey) (row : Row)
      (defaults : ExtTreeMap ColumnName String) (types : ExtTreeMap ColumnName ColumnType)
  | updateRow (table : TableName) (keyColumn : ColumnName) (key : RowKey) (columns : ExtTreeMap ColumnName (Cell × Cell))
      (unchanged : ExtTreeMap ColumnName Cell) (types afterTypes : ExtTreeMap ColumnName ColumnType)
      (keyType : Option ColumnType)
  | deleteRow (table : TableName) (keyColumn : ColumnName) (key : RowKey) (cause : DeleteCause)
      (row dropped : ExtTreeMap ColumnName Cell) (types afterTypes : ExtTreeMap ColumnName ColumnType)
      (keyType : Option ColumnType)
  | setDataMode (table : TableName) (from_ to_ : Option DataMode)
  | setEnsureKeys (table : TableName) (from_ to_ : ExtTreeSet RowKey)
  | createModule (id : ModuleId) (module : Module)
  | alterModule (id : ModuleId) (module : Module)
  | dropModule (id : ModuleId) (kind : ModuleKind)
  | createRole (uid : Uid) (name : RoleName)
  | dropRole (uid : Uid) (name : RoleName) (members : List RoleName)
  | renameRole (uid : Uid) (from_ to_ : RoleName)
  | grant (role : RoleName) (target : GrantTarget) (permissions : ExtTreeSet Permission)
  | revoke (role : RoleName) (target : GrantTarget) (permissions : ExtTreeSet Permission)
  | publicExecution (routine : RoutineId) (access : PublicAccess) (origin : RoutineOrigin)
  deriving DecidableEq

end Pbps.Diff
