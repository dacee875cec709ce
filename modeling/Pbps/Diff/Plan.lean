/-
The list of changes a comparison builds: `diff_partial_rebuilding` of `schema_diff.rs` from its first
pass to `drop_parameter_changes_of_rebuilt_indexes`. What follows there orders the list, gives a drop
the name its object has when it runs, and annotates.
-/
import Pbps.Diff.Domains
import Pbps.Diff.Roles
import Pbps.Identity.Standing

namespace Pbps.Diff

open Std (ExtTreeMap ExtTreeSet)

/-! ## Packages

A package is created, dropped, updated or moved under its recorded uid (`extensions.rs`); offline there are no facts, so only a
create is planned. -/

/-- How the objects a package owns read as the plan's own. -/
structure Members where
  /-- `ProviderMember::module`. -/
  module : ProviderMember → List ModuleId → Option ModuleId
  /-- The type a member is in a schema and once its package has moved to another. -/
  movedType : ProviderMember → String → String → Option (TypeRef × TypeRef)

section Extensions

variable (members : Members) (base desired : Side)

def createdExtensions : List (ObjectLocalName × Uid × Extension) :=
  desired.schema.extensions.toList.filterMap fun (name, definition) =>
    if base.schema.extensions.contains name then none
    else (desired.ids.extensionUid name).map fun uid => (name, uid, definition)

def createdExtension (name : ObjectLocalName) : Option Uid :=
  ((createdExtensions base desired).find? fun e => e.1 = name).map (·.2.1)

/-- `creates`. -/
def createExtensions (requires : ExtTreeMap ObjectLocalName (ExtTreeSet ObjectLocalName)) : List Change :=
  (createdExtensions base desired).map fun (name, uid, definition) =>
    .createExtension uid name definition
      (.ofList ((((requires[name]?).map ExtTreeSet.toList).getD []).filterMap (createdExtension base desired)))

/-- The packages a recorded intent retires, by `retired`. -/
def droppedExtensions : List (ObjectLocalName × Uid × Extension) :=
  base.schema.extensions.toList.filterMap fun (name, definition) =>
    if desired.schema.extensions.contains name then none
    else ((base.ids.extensionUid name).filter desired.ids.tombstones.contains).map fun uid => (name, uid, definition)

def removedModules : List ModuleId := base.schema.modules.keys.filter fun id => !desired.schema.modules.contains id

/-- What a blocker of a drop is: a dropped package, a dropped module, or something that stays. -/
def blocker (member : ProviderMember) : Option (Uid ⊕ ModuleId) :=
  match member.cls, member.names with
  | "extension", [requiredBy] =>
    ((droppedExtensions base desired).find? fun e => e.1 = requiredBy).map fun e => .inl e.2.1
  | _, _ => (members.module member (removedModules base desired)).map .inr

/-- One dropped package, against what the engine says the drop reaches. -/
def dropExtension (facts : ExtTreeMap ObjectLocalName PackageReach) (name : ObjectLocalName) (uid : Uid)
    (definition : Extension) : Out :=
  match facts[name]? with
  | none => .err (.extensionDropNeedsDatabase name)
  | some reach =>
    let outside := reach.outside.map fun m => members.module m (removedModules base desired)
    let blockers := reach.blockers.map (blocker members base desired)
    if outside.any (·.isNone) || blockers.any (·.isNone) then .err (.extensionDropRefused name)
    else
      .change (.dropExtension uid name definition (.ofList (blockers.filterMap fun b => b.bind Sum.getLeft?))
        (.ofList (outside.filterMap id ++ blockers.filterMap fun b => b.bind Sum.getRight?)))

/-- `drops`. -/
def dropExtensions (facts : ExtTreeMap ObjectLocalName PackageReach) : Out :=
  .forEach (droppedExtensions base desired) fun (name, uid, definition) =>
    dropExtension members base desired facts name uid definition

def keptExtension (name : ObjectLocalName) : Option (Uid × Extension) := do
  let from_ ← base.schema.extensions[name]?
  let uid ← base.ids.extensionUid name
  let recorded ← desired.ids.extensionUid name
  if uid = recorded then some (uid, from_) else none

/-- `updates`: beside a move, the update runs first and where the package is. -/
def updateExtensions (facts : ExtTreeMap ObjectLocalName ExtensionUpdateFacts) : Out :=
  .forEach desired.schema.extensions.toList fun (name, to_) =>
    match keptExtension base desired name with
    | none => {}
    | some (uid, from_) =>
      if from_.version = to_.version then {}
      else
        match facts[name]? with
        | none => .err (.extensionUpdateNeedsDatabase name from_.version to_.version)
        | some f =>
          let carried (reached : List ProviderMember) := reached.filterMap fun m => members.module m (removedModules base desired)
          .change (.updateExtension uid name from_ ⟨from_.schema, to_.version⟩
            (.ofList (f.requires.filterMap (createdExtension base desired)))
            (.ofList (carried f.reach.outside ++ carried f.reach.blockers)))

/-- `moves`: a move starts from the version an update of the same plan leaves. -/
def moveExtensions (facts : ExtTreeMap ObjectLocalName (List ProviderMember)) : Out :=
  .forEach desired.schema.extensions.toList fun (name, to_) =>
    match keptExtension base desired name with
    | none => {}
    | some (uid, from_) =>
      if from_.schema = to_.schema then {}
      else
        match facts[name]? with
        | none => .err (.extensionMoveNeedsDatabase name from_.schema to_.schema)
        | some held =>
          .change (.setExtensionSchema uid name ⟨from_.schema, to_.version⟩ to_
            (.ofList (held.filterMap fun m => members.module m (removedModules base desired))))

/-- The types that move with their packages, by the name they have now. -/
def movedTypes (facts : ExtTreeMap ObjectLocalName (List ProviderMember)) : ExtTreeMap TypeRef TypeRef :=
  .ofList (desired.schema.extensions.toList.flatMap fun (name, to_) =>
    match keptExtension base desired name, facts[name]? with
    | some (_, from_), some held =>
      if from_.schema = to_.schema then [] else held.filterMap fun m => members.movedType m from_.schema to_.schema
    | _, _ => [])

def carryType (moved : ExtTreeMap TypeRef TypeRef) (ty : ColumnType) : ColumnType :=
  match ty.user.bind (moved[·]?) with
  | some new => { ColumnType.reference new with array := ty.array }
  | none => ty

def carryTable (moved : ExtTreeMap TypeRef TypeRef) (t : Table) : Table :=
  { t with
    columns := ⟨t.columns.entries.map fun e => ⟨e.1, { e.2 with ty := carryType moved e.2.ty }⟩, by
      rw [List.NodupKeys, List.keys, List.map_map]
      exact t.columns.nodupKeys⟩ }

/-- `forward_moved_types`: the comparison schema with every type spelled where its package moves to. -/
def forwardMovedTypes (comparison : Schema) (facts : ExtTreeMap ObjectLocalName (List ProviderMember)) : Schema :=
  let moved := movedTypes members base desired facts
  if moved.isEmpty then comparison
  else
    { comparison with
      tables := comparison.tables.map fun _ => carryTable moved
      types := comparison.types.map fun _ ty =>
        match ty with
        | .domain base notNull default checks collation => .domain (carryType moved base) notNull default checks collation
        | .enum values => .enum values }

end Extensions

/-! ## The list -/

/-- An engine, as the comparison asks it. -/
structure Differ where
  dialect : Dialect
  modules : ModuleDialect
  members : Members
  /-- The dialect's name is `postgres`: it has packages, and rewrites partitioned tables. -/
  isPostgres : Bool
  /-- Whether an approved rewrite takes a partitioned table from the one side to the other: `qualify`. -/
  qualifies : Side → Side → TableName → Bool

/-- What a comparison is asked with beside the two sides. -/
structure Request where
  hints : Hints := {}
  also : ExtTreeSet ModuleId := ∅
  rebinding : Rebinding := .candidates
  readBack : Option Schema := none

section Plan

variable (d : Differ) (request : Request) (base declared : Side)

/-- The base as everything after the label changes is compared with, and the label changes. -/
def comparison : Side × List Change :=
  let labels := enumLabels base declared request.hints
  let (schema, steps) := retainedComparison base declared request.hints labels.changes
  (⟨forwardMovedTypes d.members base declared schema request.hints.extensionMoves, base.ids⟩, steps)

def extensionChanges : List Change :=
  if d.isPostgres then
    createExtensions base declared request.hints.extensionRequires ++
      (dropExtensions d.members base declared request.hints.extensionDrops).changes ++
      (updateExtensions d.members base declared request.hints.extensionUpdates).changes ++
      (moveExtensions d.members base declared request.hints.extensionMoves).changes
  else []

/-- The changes of types and packages, which come before those of the tables. `base` is the side the
comparison is made with. -/
def typeChanges (labels : List Change) : List Change :=
  let rebuilt := rebuiltDomains d.dialect base declared request.hints labels
  labels ++ rebuilt.1.changes ++ extensionChanges d request base declared ++ (diffTypes base declared rebuilt.2).changes

def rebuiltPart : Change → Option (TableName × IndexPart)
  | .addIndex table name _ _ => some (table, .index name)
  | .addUnique table name _ _ => some (table, .unique name)
  | .setPrimaryKey table _ (some _) _ => some (table, .primaryKey)
  | _ => none

/-- `drop_parameter_changes_of_rebuilt_indexes`: a part made anew carries its parameters. -/
def dropParameterChanges (plan : List Change) : List Change :=
  plan.filter fun change =>
    match change with
    | .setIndexStorageParameters table target _ _ _ => !(plan.filterMap rebuiltPart).contains (table, target)
    | _ => true

/-- The list after the passes that follow those over tables and foreign keys. -/
def finished (plan : List Change) : List Change :=
  let plan := plan ++ diffReplicaIdentity base declared plan
  let plan := withModules d.modules base declared request.rebinding request.also request.hints.enumDependents plan
  let plan := plan ++ diffRoles d.modules base declared plan
  let plan := plan ++ revokePublicExecution d.modules base.schema request.hints.publicExecute plan
  dropParameterChanges plan

def rebuiltTables : List TableName :=
  (declared.ids.rebuilds.toList.filterMap fun (_, r) => declared.ids.tables[r.replacementRoot]?).filter
    (d.qualifies base declared)

/-- What the approved rewrites of the declared files refuse of this comparison. -/
abbrev rewriteErrors : List LineageError := lineageErrors d.isPostgres (d.qualifies base declared) base.ids declared.ids

/-- The list a comparison builds. An approved rewrite is a plan of its own, and one that cannot be read or does not qualify leaves
no plan, rather than an ordinary drop and create. -/
def diffPartial : List Change :=
  if !(rewriteErrors d base declared).isEmpty then []
  else if rebuiltTables d base declared ≠ [] then (rebuiltTables d base declared).map .rebuildPartitionedTable
  else
    let (compared, labels) := comparison d request base declared
    finished d request compared declared
      (relinked d.dialect compared declared request.readBack (typeChanges d request compared declared labels))

end Plan

end Pbps.Diff
