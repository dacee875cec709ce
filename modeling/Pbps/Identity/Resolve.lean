/-
Identity resolution: `resolve_with_provenance` of `pbps-diff`'s `identity.rs` and the passes it
runs. The passes over types, tables, columns and roles are one algorithm, `resolveScope`, over what
each of them matches and does; a sorted duplicate-free list stands for the `BTreeSet`s that the
matching loops consume from.
-/
import Pbps.Identity.Intent

namespace Pbps.Identity

open Std (ExtTreeMap ExtTreeSet)

/-! ## Contested renames -/

/-- One rename intent that could match in the scope being resolved, and the two names it claims. -/
structure Claim (T : Type) where
  intent : Intent
  source : T
  target : T

/-- Both ends of every contested claim, by raw name text. -/
structure Conflicting where
  sources : ExtTreeSet String := ∅
  targets : ExtTreeSet String := ∅

/-- The distinct intents of some claims, in order: one statement written twice is one statement. -/
def distinctIntents {T : Type} (group : List (Claim T)) : List Intent :=
  group.foldl (fun acc c => if c.intent ∈ acc then acc else acc ++ [c.intent]) []

section Contested

variable {T : Type} [Ord T] [Std.TransOrd T] [DecidableEq T]

/-- One name of one pass of `contested_rename_claims`, with the claims that share it. -/
def contestedStep (claims : List (Claim T)) (raw : T → String) (side : RenameSide) (pick : Claim T → T)
    (acc : List Blocker × Conflicting) (name : T) : List Blocker × Conflicting :=
  let group := claims.filter fun c => pick c = name
  let distinct := distinctIntents group
  if distinct.length < 2 then acc
  else
    (acc.1 ++ [.conflictingRenameIntents side (raw name) distinct],
      { sources := acc.2.sources.insertMany (group.map fun c => raw c.source)
        targets := acc.2.targets.insertMany (group.map fun c => raw c.target) })

/-- One pass of `contested_rename_claims`: the claims grouped by one of their two names. -/
def contestedPass (claims : List (Claim T)) (raw : T → String) (side : RenameSide) (pick : Claim T → T)
    (acc : List Blocker × Conflicting) : List Blocker × Conflicting :=
  (ExtTreeSet.ofList (claims.map pick)).toList.foldl (contestedStep claims raw side pick) acc

def contestedRenameClaims (claims : List (Claim T)) (raw : T → String) : List Blocker × Conflicting :=
  contestedPass claims raw .target Claim.target
    (contestedPass claims raw .source Claim.source ([], {}))

end Contested

/-! ## One scope of names -/

/-- What a run carries from pass to pass. -/
structure Progress where
  r : Resolution
  blockers : List Blocker := []
  used : ExtTreeSet Nat := ∅

def Progress.block (s : Progress) (b : Blocker) : Progress := { s with blockers := s.blockers ++ [b] }

def Progress.use (s : Progress) (i : Nat) : Progress := { s with used := s.used.insert i }

/-- What a pass over one kind of name matches, reports and does. -/
structure Scope (N : Type) where
  /-- A name as the user spells it. -/
  raw : N → String
  /-- The two names a rename intent of this scope claims. -/
  renameOf : Intent → Option (N × N)
  /-- The name a drop intent of this scope gives a reason for. -/
  dropOf : Intent → Option (N × Reason)
  ambiguous : List N → List N → Blocker
  needsReason : N → Blocker
  onRename : Resolution → Uid → N → N → Resolution
  onDrop : Resolution → Uid → N → Reason → Resolution
  /-- Gives a new name an identity, or says why it cannot have one. -/
  mint : Resolution → N → Except Blocker Resolution

section Scope

variable {N : Type} [Ord N] [Std.TransOrd N] [DecidableEq N]

def knownNames (section_ : ExtTreeMap Uid N) : ExtTreeMap N Uid :=
  ExtTreeMap.ofList (section_.toList.map fun e => (e.2, e.1))

variable (sc : Scope N)

/-- The rename intents that could match: from a name that disappeared to one that appeared. -/
def scopeClaims (disappeared appeared : List N) (intents : List Intent) : List (Claim N) :=
  intents.filterMap fun intent =>
    match sc.renameOf intent with
    | some (from_, to_) =>
      if from_ ∈ disappeared ∧ to_ ∈ appeared then some ⟨intent, from_, to_⟩ else none
    | none => none

/-- One turn of the collision check: a rename onto a name that is known and still declared cannot
match, and is accounted for here. -/
def occupiedStep (declared : List N) (known : ExtTreeMap N Uid) (disappeared : List N) (claims : List (Claim N))
    (intents : List Intent) (annotationCount : Nat) (acc : Progress × List N) (entry : Intent × Nat) : Progress × List N :=
  match sc.renameOf entry.1 with
  | none => acc
  | some (from_, to_) =>
    let currentDecision := annotationCount ≤ entry.2
    let staleAnnotation := entry.2 < annotationCount ∧
      intents.any fun candidate => (sc.dropOf candidate).any fun d => d.1 = from_
    if from_ ∈ disappeared ∧ to_ ∈ declared ∧ known.contains to_ then
      let acc :=
        if (currentDecision ∨ ¬ claims.any fun c => c.source = from_) ∧ ¬ staleAnnotation ∧ to_ ∉ acc.2 then
          (acc.1.block (.renameTargetExists (sc.raw to_)), to_ :: acc.2)
        else acc
      (acc.1.use entry.2, acc.2)
    else acc

def occupiedTargets (declared : List N) (known : ExtTreeMap N Uid) (disappeared : List N) (claims : List (Claim N))
    (intents : List Intent) (annotationCount : Nat) (s : Progress) : Progress :=
  (intents.zipIdx.foldl (occupiedStep sc declared known disappeared claims intents annotationCount) (s, [])).1

/-- The state of the matching loops: the names still unmatched on each side. -/
structure Matching (N : Type) where
  disappeared : List N
  appeared : List N
  s : Progress

def renameStep (known : ExtTreeMap N Uid) (m : Matching N) (entry : Intent × Nat) : Matching N :=
  match sc.renameOf entry.1 with
  | none => m
  | some (from_, to_) =>
    if from_ ∈ m.disappeared ∧ to_ ∈ m.appeared then
      match known[from_]? with
      | none => m
      | some uid =>
        { disappeared := m.disappeared.erase from_
          appeared := m.appeared.erase to_
          s := { m.s.use entry.2 with r := sc.onRename m.s.r uid from_ to_ } }
    else m

def dropStep (known : ExtTreeMap N Uid) (m : Matching N) (entry : Intent × Nat) : Matching N :=
  match sc.dropOf entry.1 with
  | none => m
  | some (name, reason) =>
    if name ∈ m.disappeared then
      match known[name]? with
      | none => m
      | some uid =>
        { m with
          disappeared := m.disappeared.erase name
          s := { m.s.use entry.2 with r := sc.onDrop m.s.r uid name reason } }
    else m

def mintStep (s : Progress) (name : N) : Progress :=
  match sc.mint s.r name with
  | .error b => s.block b
  | .ok r => { s with r }

/-- After the matching loops: what is left on both sides is ambiguous, what is left of the old names
lacks a reason, what is left of the new ones is new. -/
def settleScope (conflicting : Conflicting) (m : Matching N) : Progress :=
  let disappeared := m.disappeared.filter fun n => !conflicting.sources.contains (sc.raw n)
  let candidates := m.appeared.filter fun n => !conflicting.targets.contains (sc.raw n)
  if candidates ≠ [] ∧ disappeared ≠ [] then m.s.block (sc.ambiguous disappeared candidates)
  else
    let s := { m.s with blockers := m.s.blockers ++ disappeared.map sc.needsReason }
    m.appeared.foldl (mintStep sc) s

/-- One kind of name resolved against what the identity file knows of it. -/
def resolveScope (declared : List N) (known : ExtTreeMap N Uid) (intents : List Intent) (annotationCount : Nat) (s : Progress) :
    Progress :=
  let appeared := declared.filter fun n => !known.contains n
  let disappeared := known.keys.filter fun n => n ∉ declared
  let claims := scopeClaims sc disappeared appeared intents
  let (renameBlockers, conflicting) := contestedRenameClaims claims sc.raw
  let s := { s with blockers := s.blockers ++ renameBlockers }
  let s := occupiedTargets sc declared known disappeared claims intents annotationCount s
  let m := intents.zipIdx.foldl (renameStep sc known) { disappeared, appeared, s }
  let m := intents.zipIdx.foldl (dropStep sc known) m
  settleScope sc conflicting m

end Scope

/-! ## The four kinds -/

variable (src : UidSource) (declared : Schema) (ids : IdsFile) (intents : List Intent)

variable (annotationCount : Nat) (ctx : Context)

/-- `resolve_types`' scope. -/
def typeScope : Scope TypeRef where
  raw := TypeRef.raw
  renameOf | .renameType from_ to_ => some (from_, to_) | _ => none
  dropOf | .dropType name reason => some (name, reason) | _ => none
  ambiguous := .ambiguousTypes
  needsReason := .dropTypeNeedsReason
  onRename r uid from_ to_ :=
    { r with
      ids := { r.ids with types := r.ids.types.insert uid to_ }
      renamedTypes := r.renamedTypes ++ [(uid, from_, to_)] }
  onDrop r uid name reason :=
    { r with
      ids := { r.ids with
        types := r.ids.types.erase uid
        tombstones := r.ids.tombstones.insert uid (ctx.tombstone name.raw reason) }
      droppedTypes := r.droppedTypes ++ [(uid, name)] }
  mint r name :=
    let uid := src.fresh r.ids .type
    .ok { r with
      ids := { r.ids with types := r.ids.types.insert uid name }
      createdTypes := r.createdTypes ++ [(uid, name)] }

def resolveTypes (s : Progress) : Progress :=
  resolveScope (typeScope src ctx) declared.types.keys (knownNames s.r.ids.types) intents annotationCount s

/-- `resolve_roles`' scope. -/
def roleScope : Scope RoleName where
  raw := id
  renameOf | .renameRole from_ to_ => some (from_, to_) | _ => none
  dropOf | .dropRole role reason => some (role, reason) | _ => none
  ambiguous := .ambiguousRoles
  needsReason := .dropRoleNeedsReason
  onRename r uid from_ to_ :=
    { r with
      ids := { r.ids with roles := r.ids.roles.insert uid to_ }
      renamedRoles := r.renamedRoles ++ [(uid, from_, to_)] }
  onDrop r uid role reason :=
    { r with
      ids := { r.ids with
        roles := r.ids.roles.erase uid
        tombstones := r.ids.tombstones.insert uid (ctx.tombstone role reason) }
      droppedRoles := r.droppedRoles ++ [(uid, role)] }
  mint r name :=
    let uid := src.fresh r.ids .role
    .ok { r with
      ids := { r.ids with roles := r.ids.roles.insert uid name }
      createdRoles := r.createdRoles ++ [(uid, name)] }

def resolveRoles (s : Progress) : Progress :=
  resolveScope (roleScope src ctx) declared.roles.keys (knownNames s.r.ids.roles) intents annotationCount s

/-- `rename_table_in_ids`: the columns' qualified names hold the table's, so they move with it. -/
def renameTableInIds (uid : Uid) (from_ to_ : TableName) : IdsFile :=
  { ids with
    tables := ids.tables.insert uid to_
    columns := ids.columns.map fun _ c => if c.table = from_ then to_.column c.name else c }

/-- `drop_table_in_ids`: the table and its columns become tombstones. -/
def dropTableInIds (ids : IdsFile) (uid : Uid) (table : TableName) (reason : Reason) : IdsFile :=
  let cols := ids.columns.filter fun _ c => c.table = table
  { ids with
    tables := ids.tables.erase uid
    moves := ids.moves.erase uid
    columns := ids.columns.filter fun _ c => !(c.table = table)
    tombstones := (ids.tombstones.insert uid (ctx.tombstone table.raw reason)).insertMany
      (cols.toList.map fun e => (e.1, ctx.tombstone e.2.raw reason)) }

/-- `resolve_tables`' scope. Only a fresh identity checks the separator. -/
def tableScope : Scope TableName where
  raw := TableName.raw
  renameOf | .renameTable from_ to_ => some (from_, to_) | _ => none
  dropOf | .dropTable table reason => some (table, reason) | _ => none
  ambiguous := .ambiguousTables
  needsReason := .dropTableNeedsReason
  onRename r uid from_ to_ :=
    { r with
      ids := renameTableInIds r.ids uid from_ to_
      renamedTables := r.renamedTables ++ [(uid, from_, to_)] }
  onDrop r uid table reason :=
    { r with
      ids := dropTableInIds ctx r.ids uid table reason
      droppedTables := r.droppedTables ++ [(uid, table)] }
  mint r name :=
    if !checkSegment name.schema then .error (.unrepresentableName "schema" name.schema none)
    else if !checkSegment name.name then .error (.unrepresentableName "table" name.name none)
    else
      let uid := src.fresh r.ids .table
      .ok { r with
        ids := { r.ids with tables := r.ids.tables.insert uid name }
        createdTables := r.createdTables ++ [(uid, name)] }

def resolveTables (s : Progress) : Progress :=
  resolveScope (tableScope src ctx) declared.tables.keys (knownNames s.r.ids.tables) intents annotationCount s

/-- `resolve_columns`' scope for the columns of one table. -/
def columnScope (table : TableName) : Scope ColumnName where
  raw n := (table.column n).raw
  renameOf | .renameColumn t from_ to_ => if t = table then some (from_, to_) else none | _ => none
  dropOf | .dropColumn c reason => if c.table = table then some (c.name, reason) else none | _ => none
  ambiguous := .ambiguousColumns table
  needsReason n := .dropColumnNeedsReason (table.column n)
  onRename r uid from_ to_ :=
    { r with
      ids := { r.ids with columns := r.ids.columns.insert uid (table.column to_) }
      renamedColumns := r.renamedColumns ++ [(uid, table.column from_, table.column to_)] }
  onDrop r uid name reason :=
    { r with
      ids := { r.ids with
        columns := r.ids.columns.erase uid
        tombstones := r.ids.tombstones.insert uid (ctx.tombstone (table.column name).raw reason) }
      droppedColumns := r.droppedColumns ++ [(uid, table.column name)] }
  mint r name :=
    if !checkSegment name then .error (.unrepresentableName "column" name (some table))
    else
      let uid := src.fresh r.ids .column
      .ok { r with
        ids := { r.ids with columns := r.ids.columns.insert uid (table.column name) }
        addedColumns := r.addedColumns ++ [(uid, table.column name)] }

def knownColumns (table : TableName) : ExtTreeMap ColumnName Uid :=
  ExtTreeMap.ofList ((ids.columns.toList.filter fun e => e.2.table = table).map fun e => (e.2.name, e.1))

/-- The body of `resolve_columns`' loop: the columns of one declared table. A partition declares no
columns of its own, so those of a table declared as one leave the file without a record. -/
def resolveColumnsOf (ids₀ : IdsFile) (intents : List Intent) (annotationCount : Nat) (ctx : Context) (s : Progress)
    (entry : TableName × Table) : Progress :=
  let known := knownColumns ids₀ entry.1
  if entry.2.partitionOf.isSome then
    { s with r := { s.r with ids := { s.r.ids with columns := (known.toList.map Prod.snd).foldl .erase s.r.ids.columns } } }
  else resolveScope (columnScope src ctx entry.1) (entry.2.columns.keys.mergeSort fun a b => (compare a b).isLE)
    known intents annotationCount s

/-- `resolve_columns`: every declared table against the columns known when the pass begins. -/
def resolveColumns (s : Progress) : Progress :=
  declared.tables.toList.foldl (resolveColumnsOf src s.r.ids intents annotationCount ctx) s

/-! ## Extensions, modules and moves -/

def dropExtensionIntent (name : ObjectLocalName) : Option (Nat × Reason) :=
  intents.zipIdx.findSome? fun
    | (.dropExtension named reason, i) => if named = name then some (i, reason) else none
    | _ => none

/-- A package the declarations no longer hold: a tombstone where an intent names it, and forgotten
otherwise. -/
def retireExtension (intents : List Intent) (s : Progress) (entry : Uid × ObjectLocalName) :
    Progress :=
  let ids := { s.r.ids with extensions := s.r.ids.extensions.erase entry.1 }
  match dropExtensionIntent intents entry.2 with
  | none => { s with r := { s.r with ids } }
  | some (i, reason) =>
    { s.use i with
      r := { s.r with
        ids := { ids with tombstones := ids.tombstones.insert entry.1 (ctx.tombstone entry.2 reason) }
        droppedExtensions := s.r.droppedExtensions ++ [entry] } }

def mintExtension (s : Progress) (name : ObjectLocalName) : Progress :=
  match s.r.ids.extensionUid name with
  | some _ => s
  | none =>
    let uid := src.fresh s.r.ids .extension
    { s with r := { s.r with ids := { s.r.ids with extensions := s.r.ids.extensions.insert uid name } } }

/-- The head of `resolve_with_provenance`: global names never enter rename inference. -/
def resolveExtensions (s : Progress) : Progress :=
  let gone := s.r.ids.extensions.toList.filter fun e => !declared.extensions.contains e.2
  declared.extensions.keys.foldl (mintExtension src) (gone.foldl (retireExtension ctx intents) s)

/-- `check_object_name`: both parts of a `schema.name` against the separator. -/
def checkObjectName (n : ObjectName) (kind : String) : List Blocker :=
  (if checkSegment n.schema then [] else [.unrepresentableName "schema" n.schema none]) ++
    if checkSegment n.name then [] else [.unrepresentableName kind n.name none]

/-- The blockers `resolve_modules` raises for one declared module. -/
def moduleBlockers : ModuleId → List Blocker
  | .named n => checkObjectName n "view"
  | .routine r => checkObjectName r.name "routine"
  | .trigger on name =>
    checkObjectName on "table" ++
      if checkSegment name then [] else [.unrepresentableName "trigger" name (some on)]

def resolveModules (s : Progress) : Progress :=
  { s with blockers := s.blockers ++ declared.modules.keys.flatMap moduleBlockers }

/-- Whether rows can move into this table: a range or list partition whose parent declares a
DEFAULT partition. -/
def besideDefault (table : TableName) : Bool :=
  match (declared.tables[table]?).bind Table.partitionOf with
  | none => false
  | some of_ =>
    (match of_.bound with | .range .. | .list .. => true | _ => false) &&
      declared.tables.toList.any fun other =>
        other.2.partitionOf.any fun o => o.parent = of_.parent ∧ o.bound = .default

/-- One turn of `resolve_moves`. -/
def moveStep (s : Progress) (entry : Intent × Nat) : Progress :=
  match entry.1 with
  | .moveRows table maxRows reason =>
    let s := s.use entry.2
    match (s.r.ids.tableUid table).filter fun _ => besideDefault declared table with
    | none => s.block (.moveNotBesideDefault table)
    | some uid =>
      if (s.r.ids.moves[uid]?).any fun m => m.maxRows = maxRows ∧ m.reason = reason then s
      else
        let move : Move := { maxRows, allowedAt := ctx.today, reason, operator := ctx.operator }
        { s with r := { s.r with ids := { s.r.ids with moves := s.r.ids.moves.insert uid move } } }
  | _ => s

def resolveMoves (s : Progress) : Progress :=
  intents.zipIdx.foldl (moveStep declared ctx) s

/-! ## Absorption -/

/-- What the declarations say about the name an intent claims to have left behind. -/
inductive RenameSource where
  | vacated
  | redeclared
  deriving DecidableEq, Repr

def declaresColumn (table : TableName) (column : ColumnName) : Bool :=
  (declared.tables[table]?).any fun t => column ∈ t.columns

def RenameSource.of (intent : Intent) (declared : Schema) : RenameSource :=
  let redeclared := match intent with
    | .renameTable from_ _ => declared.tables.contains from_
    | .renameColumn table from_ _ => declaresColumn declared table from_
    | .renameType from_ _ => declared.types.contains from_
    | .renameRole from_ _ => declared.roles.contains from_
    | .dropTable table _ => declared.tables.contains table
    | .dropColumn column _ => declaresColumn declared column.table column.name
    | .dropType name _ => declared.types.contains name
    | .dropRole role _ => declared.roles.contains role
    | .dropExtension name _ => declared.extensions.contains name
    | .moveRows .. => false
  if redeclared then .redeclared else .vacated

/-- `intent_is_absorbed`: whether the file is already in the shape the intent asks for. -/
def intentIsAbsorbed (intent : Intent) (ids : IdsFile) (source : RenameSource) : Bool :=
  let vacated (live : Bool) := !live || source = .redeclared
  let retired (kind : UidKind) (name : String) :=
    source = .vacated && ids.tombstones.toList.any fun e => e.1.kind = kind ∧ e.2.was = name
  match intent with
  | .renameTable from_ to_ => (ids.tableUid to_).isSome && vacated (ids.tableUid from_).isSome
  | .renameColumn table from_ to_ =>
    (ids.columnUid (table.column to_)).isSome && vacated (ids.columnUid (table.column from_)).isSome
  | .dropTable table _ => (ids.tableUid table).isNone && retired .table table.raw
  | .dropColumn column _ => (ids.columnUid column).isNone && retired .column column.raw
  | .renameType from_ to_ => (ids.typeUid to_).isSome && vacated (ids.typeUid from_).isSome
  | .dropType name _ => (ids.typeUid name).isNone && retired .type name.raw
  | .renameRole from_ to_ => (ids.roleUid to_).isSome && vacated (ids.roleUid from_).isSome
  | .dropRole role _ => (ids.roleUid role).isNone && retired .role role
  | .dropExtension name _ => (ids.extensionUid name).isNone && retired .extension name
  | .moveRows table maxRows _ =>
    ((ids.tableUid table).bind fun uid => ids.moves[uid]?).any fun m => m.maxRows = maxRows

/-- A column annotation in the namespace it was written against: under the table's old name, if
this run renamed the table. A current decision is never moved. -/
def originalIntent (renamed : List (Uid × TableName × TableName)) (currentDecision : Bool) (intent : Intent) :
    Option Intent :=
  if currentDecision then none
  else
    match intent with
    | .renameColumn table from_ to_ => renamed.findSome? fun (_, old, new) =>
        if table = new then some (.renameColumn old from_ to_) else none
    | .dropColumn column reason => renamed.findSome? fun (_, old, new) =>
        if column.table = new then some (.dropColumn (old.column column.name) reason) else none
    | _ => none

/-- Whether the final sweep finds this intent's effect in the input already. A rename decided this
run that this run did not perform changed nothing, whatever the file holds. -/
def sweepAbsorbed (r : Resolution) (currentDecision : Bool) (intent : Intent) :
    Bool :=
  let source :=
    if currentDecision ∧ intent.isRename then .vacated else RenameSource.of intent declared
  if currentDecision ∧ intent.isRename then false
  else intentIsAbsorbed ((originalIntent r.renamedTables currentDecision intent).getD intent) ids source

def contestedIntents (blockers : List Blocker) : List Intent :=
  blockers.flatMap fun | .conflictingRenameIntents _ _ intents => intents | _ => []

/-- The final sweep: an intent that did nothing, was in no conflict and is not absorbed is unused. -/
def unusedIntents (s : Progress) : List Blocker :=
  let contested := contestedIntents s.blockers
  let accounted := s.used.toList.filterMap fun i => intents[i]?
  intents.zipIdx.filterMap fun (intent, i) =>
    if intent ∉ accounted ∧ intent ∉ contested ∧
        !sweepAbsorbed declared ids s.r (decide (annotationCount ≤ i)) intent then
      some (.unusedIntent intent)
    else none

/-! ## Provisional diagnoses -/

/-- A contested table rename a later diagnosis assumes. -/
structure Assumption where
  from_ : TableName
  to_ : TableName
  deriving DecidableEq

namespace Assumption

instance : Ord Assumption := ⟨compareFields Assumption.from_ Assumption.to_⟩

instance : Std.TransOrd Assumption :=
  inferInstanceAs (Std.TransCmp (compareFields Assumption.from_ Assumption.to_))

end Assumption

def provisionalTables (s : Progress) : ExtTreeMap TableName (ExtTreeSet Assumption) :=
  let scopes := s.r.renamedTables.flatMap fun (_, from_, to_) =>
    s.blockers.flatMap fun
      | .conflictingRenameIntents _ _ intents =>
        if .renameTable from_ to_ ∈ intents then
          intents.filterMap fun
            | .renameTable _ scope => some (scope, Assumption.mk from_ to_)
            | _ => none
        else []
      | _ => []
  scopes.foldl (fun m e => m.insert e.1 ((m[e.1]?.getD ∅).insert e.2)) ∅

def blockerTable (provisional : ExtTreeMap TableName (ExtTreeSet Assumption)) (isColumnBlocker : Bool) :
    Blocker → Option TableName
  | .ambiguousColumns table _ _ => some table
  | .dropColumnNeedsReason column => some column.table
  | .conflictingRenameIntents _ _ (.renameColumn table _ _ :: _) => some table
  | .unusedIntent (.renameColumn table _ _) => some table
  | .unusedIntent (.dropColumn column _) => some column.table
  | .renameTargetExists target =>
    if isColumnBlocker then provisional.keys.find? fun table => (table.raw ++ ".").toList.isPrefixOf target.toList
    else none
  | _ => none

def annotateBlocker (provisional : ExtTreeMap TableName (ExtTreeSet Assumption)) (columnBlockers : Nat × Nat)
    (entry : Blocker × Nat) : Blocker :=
  let isColumnBlocker := decide (columnBlockers.1 ≤ entry.2 ∧ entry.2 < columnBlockers.2)
  match (blockerTable provisional isColumnBlocker entry.1).bind fun table => provisional[table]? with
  | none => entry.1
  | some assumptions => assumptions.toList.reverse.foldl (fun b a => .provisionalTableIdentity a.from_ a.to_ b) entry.1

/-! ## The whole resolution -/

def sortFacts {α : Type} [Ord α] (facts : List (Uid × α)) : List (Uid × α) :=
  facts.mergeSort fun a b => (compareFields Prod.fst Prod.snd a b).isLE

/-- `sort_resolution`. The facts about types are left as they are found. -/
def sortResolution (r : Resolution) : Resolution :=
  let moves {α : Type} [Ord α] (facts : List (Uid × α × α)) :=
    facts.mergeSort fun a b =>
      (compareFields (fun f : Uid × α × α => f.1) (fun f => f.2.1) a b).then (compare a.2.2 b.2.2) |>.isLE
  { r with
    createdTables := sortFacts r.createdTables
    droppedTables := sortFacts r.droppedTables
    renamedTables := moves r.renamedTables
    addedColumns := sortFacts r.addedColumns
    droppedColumns := sortFacts r.droppedColumns
    renamedColumns := moves r.renamedColumns
    createdRoles := sortFacts r.createdRoles
    droppedRoles := sortFacts r.droppedRoles
    droppedExtensions := sortFacts r.droppedExtensions
    renamedRoles := moves r.renamedRoles }

/-- The passes in order, with the range of blockers the column pass raised. -/
def resolvePasses :
    Progress × ExtTreeMap TableName (ExtTreeSet Assumption) × (Nat × Nat) :=
  let s := resolveExtensions src declared intents ctx { r := { ids } }
  let s := resolveTypes src declared intents annotationCount ctx s
  let s := resolveTables src declared intents annotationCount ctx s
  let provisional := provisionalTables s
  let start := s.blockers.length
  let s := resolveColumns src declared intents annotationCount ctx s
  let columnBlockers := (start, s.blockers.length)
  let s := resolveModules declared s
  let s := resolveRoles src declared intents annotationCount ctx s
  let s := resolveMoves declared intents ctx s
  -- a column the identities no longer hold takes its recorded conversion with it
  let ids := { s.r.ids with conversions := s.r.ids.conversions.filter fun uid _ => s.r.ids.columns.contains uid }
  ({ s with r := { s.r with ids } }, provisional, columnBlockers)

/-- `resolve_with_provenance`, which `resolve_with_annotations` is. -/
def resolveWithAnnotations : Except (List Blocker) Resolution :=
  let (s, provisional, columnBlockers) := resolvePasses src declared ids intents annotationCount ctx
  let blockers := s.blockers ++ unusedIntents declared ids intents annotationCount s
  if blockers = [] then .ok (sortResolution s.r)
  else .error (blockers.zipIdx.map (annotateBlocker provisional columnBlockers))

/-- `resolve`: every intent a current decision. -/
def resolve :
    Except (List Blocker) Resolution :=
  resolveWithAnnotations src declared ids intents 0 ctx

end Pbps.Identity
