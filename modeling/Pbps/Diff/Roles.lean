/-
Roles and grants of a plan: `diff_roles` and `revoke_public_execution` of `schema_diff.rs`, with
`role.rs`. Roles are matched by uid, and their grants by target once the base's targets are brought
forward through the plan's renames.
-/
import Pbps.Diff.Modules

namespace Pbps

open Std (ExtTreeMap ExtTreeSet)

/-! ## Effective grants -/

/-- `ancestor_chain`: the table and its parents up to the root, if the chain has one. -/
def ancestorChain (tables : ExtTreeMap TableName Table) : Nat → TableName → Option (List (TableName × Table))
  | 0, _ => none
  | fuel + 1, name => do
    let table ← tables[name]?
    match table.partitionOf with
    | none => some [(name, table)]
    | some of => do
      let rest ← ancestorChain tables fuel of.parent
      some ((name, table) :: rest)

/-- `serial_grant_columns`: the serial columns whose sequences an insert into the table uses, which are
its root's. -/
def serialGrantColumns (tables : ExtTreeMap TableName Table) (table : TableName) : List ColumnRef :=
  match (ancestorChain tables tables.size table).bind List.getLast? with
  | none => []
  | some (name, root) =>
    (root.columnList.filter fun (_, c) => c.valueSource.isSequence).map fun (column, _) => name.column column

abbrev Grants := ExtTreeMap GrantTarget (ExtTreeSet Permission)

namespace Grants

def add (grants : Grants) (target : GrantTarget) (permissions : List Permission) : Grants :=
  grants.insert target ((grants.getD target ∅).insertMany permissions)

def held (grants : Grants) (target : GrantTarget) : ExtTreeSet Permission := grants.getD target ∅

end Grants

def marksSequences (target : GrantTarget) (rights : ExtTreeSet Permission) : Option TableName :=
  match target with
  | .object table => if rights.contains .serialSequences then some table else none
  | _ => none

def Role.markedTables (role : Role) : List TableName :=
  role.grants.toList.filterMap fun (target, rights) => marksSequences target rights

/-- `effective_grants`: the marker of a table as the permissions on its sequences. -/
def Role.effectiveGrants (role : Role) (tables : ExtTreeMap TableName Table) : Grants :=
  (role.markedTables.foldl (fun (grants : Grants) table =>
    let grants := (serialGrantColumns tables table).foldl (fun grants column => Grants.add grants (.sequence column) [.usage])
      grants
    match grants[GrantTarget.object table]? with
    | some rights => grants.insert (.object table) (rights.erase .serialSequences)
    | none => grants) role.grants).filter fun _ rights => !rights.isEmpty

/-- The permissions compared: the sequences', with the marker kept beside them. -/
def Role.comparedGrants (role : Role) (tables : ExtTreeMap TableName Table) : Grants :=
  (role.grants.toList.filter fun (_, rights) => rights.contains .serialSequences).foldl
    (fun grants (target, _) => Grants.add grants target [.serialSequences]) (role.effectiveGrants tables)

/-! ## What a declaration must satisfy -/

inductive RoleProblem where
  | unnamed
  | noPermission (role : RoleName) (target : GrantTarget)
  | undeclaredObject (role : RoleName) (object : ObjectName)
  | undeclaredRoutine (role : RoleName) (routine : RoutineId)
  | notSerial (role : RoleName) (column : ColumnRef)
  | notSequencePermission (role : RoleName) (column : ColumnRef) (permission : Permission)
  deriving DecidableEq

def Schema.serialColumn (schema : Schema) (column : ColumnRef) : Bool :=
  (((schema.tables[column.table]?).filter fun t => t.partitionOf.isNone).bind (·.columns.lookup column.name)).any
    fun c => c.valueSource.isSequence

def grantProblems (schema : Schema) (role : RoleName) (target : GrantTarget) (permissions : ExtTreeSet Permission) :
    List RoleProblem :=
  (if permissions.isEmpty then [.noPermission role target] else []) ++
    match target with
    | .object object =>
      if schema.tables.contains object || schema.modules.keys.any fun id => id.referencedName = some object then []
      else [.undeclaredObject role object]
    | .routine routine => if schema.modules.keys.contains (.routine routine) then [] else [.undeclaredRoutine role routine]
    | .sequence column =>
      (if schema.serialColumn column then [] else [.notSerial role column]) ++
        (permissions.toList.filter fun p => !([.usage, .select, .update] : List Permission).contains p).map
          (.notSequencePermission role column)
    | .schema _ => []

/-- `role::check`. -/
def roleCheck (schema : Schema) : List RoleProblem :=
  schema.roles.toList.flatMap fun (name, role) =>
    (if isBlank name then [RoleProblem.unnamed] else []) ++
      role.grants.toList.flatMap fun (target, permissions) => grantProblems schema name target permissions

namespace Diff

/-! ## What a plan takes -/

/-- An object a plan removes. -/
inductive Dropped where
  | table (name : TableName)
  | module (id : ModuleId)
  deriving DecidableEq

/-- Whether dropping the object takes the permissions on a target with it. -/
def Dropped.takes : Dropped → GrantTarget → Bool
  | .table t, .object o => o = t
  | .table t, .sequence c => c.table = t
  | .module (.named n), .object o => n = o
  | .module (.routine m), .routine r => m = r
  | _, _ => false

def dropped : Change → Option Dropped
  | .dropTable _ name _ => some (.table name)
  | .dropModule id _ => some (.module id)
  | _ => none

/-- A restated module loses its grants where the engine rebuilds it. -/
def restated : Change → Option Dropped
  | .alterModule id _ => some (.module id)
  | _ => none

def sequencesCreated : Change → List ColumnRef
  | .addColumn _ table name column => if column.valueSource.isSequence then [table.column name] else []
  | .alterColumnNumbering _ column _ from_ to_ => if to_.isSequence && !from_.isSequence then [column] else []
  | .createTable _ name table _ _ =>
    (table.columnList.filter fun (_, c) => c.valueSource.isSequence).map fun (column, _) => name.column column
  | _ => []

def detachedUid : Change → Option Uid
  | .detachPartition uid _ _ _ _ => some uid
  | _ => none

/-! ## Roles -/

section Roles

variable (dialect : ModuleDialect) (base declared : Side) (plan : List Change)

def takenObjects : List Dropped :=
  plan.filterMap dropped ++ if dialect.rebuildsModules then plan.filterMap restated else []

variable (role : Role) (target : GrantTarget)

/-- Whether a sequence's usage comes from a marker on a partition the plan detaches. -/
def detachedUsage : Bool :=
  match target with
  | .sequence column =>
    role.markedTables.any fun table =>
      (base.ids.tableUid table).any (plan.filterMap detachedUid).contains &&
        (serialGrantColumns base.schema.tables table).contains column
  | _ => false

def serialStill (uid : Uid) : Bool :=
  ((declared.ids.columns[uid]?).bind fun c => (declared.schema.tables[c.table]?).bind (·.columns.lookup c.name)).any
    fun c => c.valueSource.isSequence

/-- Whether the base's object of a target goes with its table or loses its sequence. -/
def droppedWithItsTable : Bool :=
  match target with
  | .object o => (base.ids.tableUid o).any fun uid => !declared.ids.tables.contains uid
  | .sequence c => base.ids.columns.toList.any fun (uid, from_) => from_ = c && !serialStill declared uid
  | .routine _ | .schema _ => false

def changesHands : Bool :=
  match target with
  | .object table => (namesChangingHands base declared).contains table
  | .sequence column => (namesChangingHands base declared).contains column.table
  | .routine _ | .schema _ => false

def forwardTable (table : TableName) : TableName :=
  ((base.ids.tableUid table).bind (declared.ids.tables[·]?)).getD table

def forwardTarget : GrantTarget :=
  match target with
  | .object o => .object (forwardTable base declared o)
  | .sequence column =>
    .sequence (((base.ids.columnUid column).bind (declared.ids.columns[·]?)).getD
      ((forwardTable base declared column.table).column column.name))
  | .routine r => .routine r
  | .schema s => .schema s

/-- Whether the plan takes a target's permissions away with its object. -/
def targetDropped : Bool :=
  (takenObjects dialect plan).any (·.takes target) && !changesHands base declared target

/-- A role only the base holds. Where the principal is not the tool's, what it was granted is revoked. -/
def dropRole (uid : Uid) (name : RoleName) : List Change :=
  if dialect.managesRoles then [.dropRole uid name []]
  else
    match base.schema.roles[name]? with
    | none => []
    | some held =>
      (held.effectiveGrants base.schema.tables).toList.filterMap fun (target, permissions) =>
        let permissions := if detachedUsage base plan held target then permissions.erase .usage else permissions
        if droppedWithItsTable base declared target || permissions.isEmpty ||
            targetDropped dialect base declared plan (forwardTarget base declared target) then none
        else some (.revoke name (forwardTarget base declared target) permissions)

def createRole (uid : Uid) (name : RoleName) (role : Role) : List Change :=
  (if dialect.managesRoles then [.createRole uid name] else []) ++
    (role.grants.toList.filter fun (_, permissions) => !permissions.isEmpty).map fun (target, permissions) =>
      .grant name target permissions

/-- The base's grants that outlive the plan, by the name their target has after it. -/
def grantsBefore : Grants :=
  ((role.comparedGrants base.schema.tables).toList.filter fun (target, _) => !droppedWithItsTable base declared target).foldl
    (fun before (target, permissions) => Grants.add before (forwardTarget base declared target) permissions.toList) ∅

def detachedTargets : List GrantTarget :=
  ((role.comparedGrants base.schema.tables).toList.filter fun (target, _) =>
    !droppedWithItsTable base declared target && detachedUsage base plan role target).map fun (target, _) =>
      forwardTarget base declared target

def grantsAdded (held wanted : ExtTreeSet Permission) (target : GrantTarget) : ExtTreeSet Permission :=
  let created := plan.flatMap sequencesCreated
  let added := wanted.filter fun p => !held.contains p
  match target with
  | .object table =>
    if wanted.contains .serialSequences && (serialGrantColumns declared.schema.tables table).any created.contains then
      added.insert .serialSequences
    else added
  | .sequence column =>
    let added := if created.contains column then added.insertMany wanted.toList else added
    -- the table's marker grants this same entry once
    if role.markedTables.any fun table => (serialGrantColumns declared.schema.tables table).contains column then
      added.erase .usage
    else added
  | _ => added

/-- What a kept role loses on a target: a marker's narrowing is settled column by column. -/
def grantsRemoved (detached : List GrantTarget) (held wanted : ExtTreeSet Permission) (target : GrantTarget) :
    ExtTreeSet Permission :=
  let removed := (held.filter fun p => !wanted.contains p).erase .serialSequences
  if detached.contains target then removed.erase .usage else removed

def diffGrant (name : RoleName) (role : Role) (before : Grants) (detached : List GrantTarget) (target : GrantTarget) :
    List Change :=
  let gone := targetDropped dialect base declared plan target
  let held := if gone then ∅ else before.held target
  let wanted := Grants.held (role.comparedGrants declared.schema.tables) target
  let added := grantsAdded declared plan role held wanted target
  let removed := grantsRemoved detached held wanted target
  (if added.isEmpty then [] else [.grant name target added]) ++
    if removed.isEmpty || gone then [] else [.revoke name target removed]

def diffRole (uid : Uid) (baseName name : RoleName) (role : Role) : List Change :=
  let was := base.schema.roles[baseName]?
  let before := (was.map (grantsBefore base declared)).getD ∅
  let detached := (was.map (detachedTargets base declared plan)).getD []
  let targets : ExtTreeSet GrantTarget := .ofList (before.keys ++ (role.comparedGrants declared.schema.tables).keys)
  (if baseName ≠ name && dialect.managesRoles then [.renameRole uid baseName name] else []) ++
    targets.toList.flatMap (diffGrant dialect base declared plan name role before detached)

/-- `diff_roles`: what it appends to `plan`. -/
def diffRoles : List Change :=
  (base.ids.roles.toList.flatMap fun (uid, name) =>
    if declared.ids.roles.contains uid then [] else dropRole dialect base declared plan uid name) ++
  declared.ids.roles.toList.flatMap fun (uid, name) =>
    match declared.schema.roles[name]? with
    | none => []
    | some role =>
      match base.ids.roles[uid]? with
      | none => createRole dialect uid name role
      | some baseName => diffRole dialect base declared plan uid baseName name role

end Roles

/-! ## Public execution -/

def createdRoutine (rebuilds : Bool) : Change → Option RoutineId
  | .createModule (.routine r) _ => some r
  | .alterModule (.routine r) _ => if rebuilds then some r else none
  | _ => none

/-- `revoke_public_execution`: what it appends to `plan`. -/
def revokePublicExecution (dialect : ModuleDialect) (base : Schema) (publicExecute : ExtTreeSet ModuleId)
    (plan : List Change) : List Change :=
  if !dialect.createsPublicExecutableRoutines then []
  else
    (plan.filterMap (createdRoutine dialect.rebuildsModules)).map fun routine =>
      .publicExecution routine (if publicExecute.contains (.routine routine) then .kept else .revoked)
        (if base.modules.contains (.routine routine) then .rebuilt else .created)

end Diff

end Pbps
