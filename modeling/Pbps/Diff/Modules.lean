/-
Replica identities and modules of a plan: `diff_replica_identity`, `diff_modules` and the rebuilds of modules a plan's names
or columns reach, of `schema_diff.rs`, with `binding.rs` of the SQL Server dialect and `rebound_by_this_plan` of the
PostgreSQL one.
-/
import Pbps.Diff.Rebuild

namespace Pbps

/-- Whether a replica identity is one the table can take: `replica_identity_problems` finds nothing. -/
def Table.takesIdentity (t : Table) (identity : Option ReplicaIdentity) : Bool :=
  let keyed (columns : List ColumnName) : Bool := !columns.any fun c => (t.columns.lookup c).any (·.nullable)
  match identity with
  | none | some .full | some .nothing => true
  | some .primaryKey => t.primaryKey.isSome
  | some (.unique n) => (t.unique[n]?).any fun u => keyed u.columns
  | some (.index n) => (t.indexes[n]?).any fun ix => ix.unique && ix.filter.isNone && ix.columnKeys.any keyed

namespace Diff

open Std (ExtTreeMap ExtTreeSet)

/-! ## Replica identities -/

def addsIdentity (table : TableName) (identity : Option ReplicaIdentity) : Change → Bool
  | .setPrimaryKey t _ (some _) _ => identity = some .primaryKey && t = table
  | .addUnique t n _ _ => identity = some (.unique n) && t = table
  | .addIndex t n _ _ => identity = some (.index n) && t = table
  | _ => false

/-- Whether a change drops the object whose index an identity names. -/
def dropsIdentity (on : TableName → Bool) (identity : Option ReplicaIdentity) : Change → Bool
  | .setPrimaryKey t (some _) _ _ => identity = some .primaryKey && on t
  | .dropUnique t n => identity = some (.unique n) && on t
  | .dropIndex t n => identity = some (.index n) && on t
  | _ => false

/-- The identity of one kept table: set where it changes and where its index is made anew. One that
waits while the old index goes is preceded by `full`. -/
def diffIdentity (plan : List Change) (uid : Uid) (baseName declaredName : TableName) (was table : Table) : List Change :=
  let readded := plan.any (addsIdentity declaredName table.replicaIdentity)
  if was.replicaIdentity = table.replicaIdentity && !readded then []
  else
    let now := !readded && was.takesIdentity table.replicaIdentity
    let oldDropped := plan.any (dropsIdentity (fun t => t = baseName || t = declaredName) was.replicaIdentity)
    (if !now && oldDropped then [.setReplicaIdentity uid baseName (some .full)] else []) ++
      [.setReplicaIdentity uid (if now then baseName else declaredName) table.replicaIdentity]

/-- `diff_replica_identity`: what it appends to `plan`. It reads no change it makes. -/
def diffReplicaIdentity (base declared : Side) (plan : List Change) : List Change :=
  declared.ids.tables.toList.flatMap fun (uid, declaredName) =>
    match base.ids.tables[uid]? with
    | none => []
    | some baseName =>
      match base.schema.tables[baseName]?, declared.schema.tables[declaredName]? with
      | some was, some table => diffIdentity plan uid baseName declaredName was table
      | _, _ => []

/-! ## Modules -/

/-- What a dialect says about modules. -/
structure ModuleDialect where
  normalizeDefinition : String → String
  /-- Whether a name that arrives may change what a declared module is bound to. -/
  captures : ModuleId → Module → ModuleId → Bool
  /-- The bound modules of a base that a change alone stops from standing. -/
  blockedBy : Schema → Change → List ModuleId
  isSchemaBound : Module → Bool
  mayNameQualified : String → ObjectName → Bool
  rebuildsModules : Bool
  createsPublicExecutableRoutines : Bool
  managesRoles : Bool

inductive ModuleDelta where
  | unchanged
  | alter
  | rebuild
  deriving DecidableEq

variable (dialect : ModuleDialect)

/-- `module_delta`: descriptions are no part of a module. -/
def moduleDelta (before after : Module) : ModuleDelta :=
  if before.kind ≠ after.kind then .rebuild
  else if dialect.normalizeDefinition before.definition ≠ dialect.normalizeDefinition after.definition ||
      before.options ≠ after.options then .alter
  else .unchanged

/-- `names_changing_hands`: the names one table holds in the base and another after the plan. -/
def namesChangingHands (base declared : Side) : ExtTreeSet TableName :=
  .ofList ((declared.ids.tables.toList.filter fun (uid, name) => (base.ids.tableUid name).any (· ≠ uid)).map Prod.snd)

/-- `trigger_changes_hands`. -/
def triggerChangesHands (changingHands : ExtTreeSet TableName) (id : ModuleId) : Bool :=
  id.attachedTo.any changingHands.contains

def rebuildModule (id : ModuleId) (before module : Module) : List Change :=
  [.dropModule id before.kind, .createModule id module]

def diffModule (base : Schema) (changingHands : ExtTreeSet TableName) (id : ModuleId) (module : Module) : List Change :=
  match base.modules[id]? with
  | none => [.createModule id module]
  | some before =>
    if triggerChangesHands changingHands id then rebuildModule id before module
    else
      match moduleDelta dialect before module with
      | .unchanged => []
      | .alter => [.alterModule id module]
      | .rebuild => rebuildModule id before module

/-- `diff_modules`. -/
def diffModules (base declared : Schema) (changingHands : ExtTreeSet TableName) : List Change :=
  (declared.modules.toList.flatMap fun (id, module) => diffModule dialect base changingHands id module) ++
    (base.modules.toList.filter fun (id, _) => !declared.modules.contains id).map fun (id, module) =>
      .dropModule id module.kind

/-! ## Modules a plan reaches -/

def arrivingName : Change → Option ModuleId
  | .createModule id _ => some id
  | .createTable _ name _ _ _ => some (.named name)
  | .renameTable _ _ to_ _ => some (.named to_)
  | _ => none

def changedModule : Change → Option ModuleId
  | .createModule id _ | .alterModule id _ | .dropModule id _ => some id
  | _ => none

def reboundModules (declared : Schema) (arriving changed : List ModuleId) : List ModuleId :=
  (declared.modules.toList.filter fun (id, module) =>
    !changed.contains id && arriving.any fun new => new ≠ id && dialect.captures id module new).map Prod.fst

/-- Whether a module's binding is asked of the dialect, or left to a connection's evidence. -/
inductive Rebinding where
  | candidates
  | evidence
  deriving DecidableEq

/-- The kept modules restated: those the dialect finds bound anew, those asked for, and those over a
rebuilt type's columns. -/
def restateModules (base declared : Schema) (rebinding : Rebinding) (also dependents : ExtTreeSet ModuleId) (plan : List Change) :
    List Change :=
  let changed := plan.filterMap changedModule
  let candidates :=
    match rebinding with
    | .candidates => reboundModules dialect declared (plan.filterMap arrivingName) changed
    | .evidence => []
  let rebound : ExtTreeSet ModuleId := .ofList (candidates ++ also.toList ++ dependents.toList)
  rebound.toList.filterMap fun id =>
    if !changed.contains id && base.modules.contains id then (declared.modules[id]?).map (.alterModule id) else none

/-- A restated module over a rebuilt type's columns comes down and goes back instead. -/
def splitDependents (dependents : ExtTreeSet ModuleId) (plan : List Change) : List Change :=
  plan.flatMap fun change =>
    match change with
    | .alterModule id module => if dependents.contains id then rebuildModule id module module else [change]
    | _ => [change]

/-- The bound modules that read one of `torn`, added until there are no more. -/
def closeTorn (dialect : ModuleDialect) (base : Schema) : Nat → List ModuleId → List ModuleId
  | 0, torn => torn
  | fuel + 1, torn =>
    let readers := (base.modules.toList.filter fun (id, module) =>
      dialect.isSchemaBound module && !torn.contains id &&
        torn.any fun gone => gone.referencedName.any (dialect.mayNameQualified module.definition)).map Prod.fst
    if readers.isEmpty then torn else closeTorn dialect base fuel (torn ++ readers)

/-- `schema_bound_teardown`: the modules bound to what the plan changes, their bound readers, and the
triggers on the views among them. -/
def schemaBoundTeardown (base declared : Schema) (plan : List Change) : List ModuleId :=
  let torn := closeTorn dialect base (base.modules.size + 1) (plan.flatMap (dialect.blockedBy base))
  let views := (torn.filter fun id => (base.modules[id]?).any fun m => m.kind = .view).filterMap ModuleId.referencedName
  let triggers := base.modules.keys.filter fun id => id.attachedTo.any views.contains
  (ExtTreeSet.ofList (torn ++ triggers)).toList.filter fun id => base.modules.contains id && declared.modules.contains id

def isAlterOf (id : ModuleId) : Change → Bool
  | .alterModule other _ => other = id
  | _ => false

def dropsOrCreates (id : ModuleId) : Change → Bool
  | .dropModule other _ | .createModule other _ => other = id
  | _ => false

def tearDown (base declared : Schema) (plan : List Change) (id : ModuleId) : List Change :=
  match base.modules[id]?, declared.modules[id]? with
  | some before, some module =>
    if plan.any (dropsOrCreates id) then plan
    else (plan.filter fun c => !isAlterOf id c) ++ rebuildModule id before module
  | _, _ => plan

/-- The list after every pass over modules. `also` is what a caller asks to have restated, `dependents`
the modules over a rebuilt type's columns. -/
def withModules (base declared : Side) (rebinding : Rebinding) (also dependents : ExtTreeSet ModuleId) (plan : List Change) :
    List Change :=
  let plan := plan ++ diffModules dialect base.schema declared.schema (namesChangingHands base declared)
  let plan := plan ++ restateModules dialect base.schema declared.schema rebinding also dependents plan
  let plan := splitDependents dependents plan
  (schemaBoundTeardown dialect base.schema declared.schema plan).foldl (tearDown base.schema declared.schema) plan

end Diff

end Pbps
