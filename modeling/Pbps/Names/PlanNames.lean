/-
Identity-preserving address translation through one ordered plan: `identity_change` and `PlanNames` of
`pbps-model`'s `plan_names.rs`. Tables, roles and types are replayed from the changes alone; a column's
events are merged with the lifetime of the table that owns it, since creating, dropping, attaching or
detaching a table begins or ends the scope of its columns.
-/
import Pbps.Diff.Change
import Pbps.Names.History
import Mathlib.Data.List.Sort

namespace Pbps.Names

open Std (ExtTreeMap ExtTreeSet)
open Pbps.Diff (Change)

/-! ## What a change does to identities -/

/-- A column under the uid of its table. -/
structure OwnedColumn where
  owner : Uid
  name : ColumnName
  deriving DecidableEq, Repr, Inhabited

namespace OwnedColumn

instance : Ord OwnedColumn := ⟨compareFields OwnedColumn.owner OwnedColumn.name⟩

instance : Std.TransOrd OwnedColumn :=
  inferInstanceAs (Std.TransCmp (compareFields OwnedColumn.owner OwnedColumn.name))

instance : Std.LawfulEqOrd OwnedColumn where
  compare_self {a} := compareFields_self a
  eq_of_compare {a b} h := by
    obtain ⟨h1, h2⟩ := compareFields_eq (f := OwnedColumn.owner) (g := OwnedColumn.name) h
    cases a; cases b; simp_all

end OwnedColumn

/-- What a change to a table does to the scope of its columns. A partition inherits names and owns no
column uids. -/
inductive ColumnLife where
  | keep
  | begin_ (columns : ExtTreeSet ColumnName)
  | end_
  deriving DecidableEq

inductive IdentityChange where
  | table (e : Transition TableName) (life : ColumnLife)
  | column (e : Transition ColumnRef)
  | role (e : Transition RoleName)
  | type (e : Transition TypeRef)
  | other
  deriving DecidableEq

def tableKept (step : Nat) (uid : Uid) (table : TableName) (life : ColumnLife) : IdentityChange :=
  .table ⟨step, uid, some table, some table⟩ life

def columnKept (step : Nat) (uid : Uid) (column : ColumnRef) : IdentityChange :=
  .column ⟨step, uid, some column, some column⟩

def columnNames (table : Table) : ExtTreeSet ColumnName := .ofList table.columns.keys

def identityChange (step : Nat) : Change → IdentityChange
  | .rebuildPartitionedTable .. | .buildPartitionedIndex .. | .copyTableRows .. | .analyzeTableTree .. => .other
  | .createTable uid name table .. => .table ⟨step, uid, none, some name⟩ (.begin_ (columnNames table))
  | .dropTable uid name .. => .table ⟨step, uid, some name, none⟩ .end_
  | .renameTable uid from_ to_ .. => .table ⟨step, uid, some from_, some to_⟩ .keep
  | .detachPartition uid table _ _ shape => tableKept step uid table (.begin_ (columnNames shape))
  | .attachPartition uid table .. => tableKept step uid table .end_
  | .setTablePersistence uid table .. => tableKept step uid table .keep
  | .setStorageParameters uid table .. => tableKept step uid table .keep
  | .setRowSecurity uid table .. => tableKept step uid table .keep
  | .setReplicaIdentity uid table .. => tableKept step uid table .keep
  | .setPartitionDefault uid table .. => tableKept step uid table .keep
  | .setPartitionNotNull uid table .. => tableKept step uid table .keep
  | .addColumn uid table name _ => .column ⟨step, uid, none, some (table.column name)⟩
  | .dropColumn uid column => .column ⟨step, uid, some column, none⟩
  | .renameColumn uid table from_ to_ _ => .column ⟨step, uid, some (table.column from_), some (table.column to_)⟩
  | .enumRebuild _ _ _ (.retype columnUid column ..) => columnKept step columnUid column
  | .alterColumnType uid column .. => columnKept step uid column
  | .alterColumnNullability uid column .. => columnKept step uid column
  | .alterColumnDefault uid column .. => columnKept step uid column
  | .alterColumnExpression uid column .. => columnKept step uid column
  | .alterColumnNumbering uid column .. => columnKept step uid column
  | .setColumnDeprecated uid column .. => columnKept step uid column
  | .createRole uid name => .role ⟨step, uid, none, some name⟩
  | .dropRole uid name .. => .role ⟨step, uid, some name, none⟩
  | .renameRole uid from_ to_ => .role ⟨step, uid, some from_, some to_⟩
  | .createType uid name .. => .type ⟨step, uid, none, some name⟩
  | .dropType uid name .. => .type ⟨step, uid, some name, none⟩
  | .renameType uid from_ to_ .. => .type ⟨step, uid, some from_, some to_⟩
  | .addEnumValue .. | .alterDomain .. | .renameEnumValue .. | .enumRebuild .. | .createExtension ..
  | .dropExtension .. | .updateExtension .. | .setExtensionSchema .. | .addComputedColumn ..
  | .dropComputedColumn .. | .setPrimaryKey .. | .setIndexStorageParameters .. | .addUnique .. | .dropUnique ..
  | .addForeignKey .. | .dropForeignKey .. | .dropPolicy .. | .createPolicy .. | .addCheck .. | .dropCheck ..
  | .addIndex .. | .dropIndex .. | .insertRow .. | .updateRow .. | .deleteRow .. | .setDataMode ..
  | .setEnsureKeys .. | .createModule .. | .alterModule .. | .dropModule .. | .grant .. | .revoke ..
  | .publicExecution .. => .other

/-! ## Events of the namespaces -/

def identityChanges (changes : List Change) : List IdentityChange := changes.zipIdx.map fun p => identityChange p.2 p.1

/-- A table's event. A pending identity's pure spelling is not placed yet. -/
def tableEvent (pending : ExtTreeSet Uid) : IdentityChange → Option (Transition TableName)
  | .table e life =>
    if life = .keep ∧ e.before = e.after ∧ e.uid.kind = .table ∧ pending.contains e.uid then none else some e
  | _ => none

def columnEvent (pending : ExtTreeSet Uid) : IdentityChange → Option (Transition ColumnRef)
  | .column e => if e.before ≠ e.after ∨ e.uid.kind ≠ .column ∨ !pending.contains e.uid then some e else none
  | _ => none

def roleEvent : IdentityChange → Option (Transition RoleName)
  | .role e => some e
  | _ => none

def typeEvent : IdentityChange → Option (Transition TypeRef)
  | .type e => some e
  | _ => none

def ownerEvent (owner : Uid) : IdentityChange → Option (Nat × ColumnLife)
  | .table e life => if e.uid = owner ∧ life ≠ .keep then some (e.step, life) else none
  | _ => none

/-! ## Columns under their owners -/

variable (tables : History TableName)

/-- A column under the uid that holds its table's name at the boundary. -/
def owned (column : ColumnRef) (boundary : Nat) : Except PlanNamesError OwnedColumn :=
  match tables.holder column.table boundary with
  | .tracked uid => pure ⟨uid, column.name⟩
  | .unmanaged => throw (.owner column boundary)
  | .vacant => throw (.owner column boundary)

def ownedOption (column : Option ColumnRef) (boundary : Nat) :
    Except PlanNamesError (Option OwnedColumn) :=
  match column with
  | none => pure none
  | some c => do pure (some (← owned tables c boundary))

/-- The final columns under the owners that hold their tables' names at the end. -/
def columnsAfter (total : Nat) (after : IdsFile) :
    Except PlanNamesError (ExtTreeMap Uid OwnedColumn) := do
  let entries ← after.columns.toList.mapM fun (uid, column) => do pure (uid, ← owned tables column total)
  pure (.ofList entries)

def ownedEvent (e : Transition ColumnRef) :
    Except PlanNamesError (Transition OwnedColumn) := do
  pure ⟨e.step, e.uid, ← ownedOption tables e.before e.step, ← ownedOption tables e.after e.step⟩

def claimOwner (owners : ExtTreeMap Uid Uid) (claim : Uid × Uid) : Except PlanNamesError (ExtTreeMap Uid Uid) :=
  match owners[claim.1]? with
  | some old => if old ≠ claim.2 then throw (.columnOwner claim.1) else pure (owners.insert claim.1 claim.2)
  | none => pure (owners.insert claim.1 claim.2)

/-- Everything that says who owns a column: the events, then the final names. -/
def ownerClaims (events : List (Transition OwnedColumn)) (after : ExtTreeMap Uid OwnedColumn) : List (Uid × Uid) :=
  (events.flatMap fun e => (e.before.toList ++ e.after.toList).map fun a => (e.uid, a.owner)) ++
    after.toList.map fun e => (e.1, e.2.owner)

def ownersOf (events : List (Transition OwnedColumn)) (after : ExtTreeMap Uid OwnedColumn) :
    Except PlanNamesError (ExtTreeMap Uid Uid) :=
  (ownerClaims events after).foldlM claimOwner ∅

/-! ## Scopes -/

/-- The address a scope that begins gives a column: its next event before the scope's end, or its final
name where the scope is the last. Evidence of a later scope says nothing about this one. -/
def scopeAddress (total until_ : Nat) (final : Option OwnedColumn) (later : List (Transition OwnedColumn)) :
    Option OwnedColumn :=
  match later with
  | e :: _ => if e.step < until_ then e.before else none
  | [] => if until_ = total then final else none

/-- A column's events among the scopes of its owner: what the changes say of it, and where a scope that
begins or ends gives or takes its name. `held` is the name it has so far. -/
def mergeScopes (total : Nat) (uid : Uid) (final : Option OwnedColumn) :
    List (Nat × ColumnLife) → List (Transition OwnedColumn) → Option OwnedColumn → List (Transition OwnedColumn)
  | [], explicit, _ => explicit
  | (step, life) :: scopes, explicit, held =>
    let early := explicit.takeWhile (·.step < step)
    let later := explicit.dropWhile (·.step < step)
    let held := early.lastSays (·.after) held
    early ++ match life with
    | .keep => mergeScopes total uid final scopes later held
    | .begin_ columns =>
      match (scopeAddress total ((scopes.head?.map (·.1)).getD total) final later).filter (columns.contains ·.name) with
      | some address => ⟨step, uid, none, some address⟩ :: mergeScopes total uid final scopes later (some address)
      | none => mergeScopes total uid final scopes later held
    | .end_ =>
      match held with
      | some address => ⟨step, uid, some address, none⟩ :: mergeScopes total uid final scopes later none
      | none => mergeScopes total uid final scopes later none

/-- A column's name at the start: its first evidence, unless its scope begins only after that or its
owner has no name there. -/
def startOf (total : Nat) (tables : History TableName) (owner : Uid) (scopes : List (Nat × ColumnLife))
    (explicit : List (Transition OwnedColumn)) (seed : Option OwnedColumn) : Option OwnedColumn :=
  let firstEvidence := (explicit.head?.map (·.step)).getD total
  let startsLater := scopes.any fun (step, life) => step < firstEvidence && (life matches .begin_ _)
  seed.filter fun _ => !startsLater && (tables.name owner 0).isSome

def columnScopes (total : Nat) (tables : History TableName) (scopesOf : Uid → List (Nat × ColumnLife))
    (owners : ExtTreeMap Uid Uid) (events : List (Transition OwnedColumn)) (after : ExtTreeMap Uid OwnedColumn)
    (uid : Uid) (seed : Option OwnedColumn) : Option OwnedColumn × List (Transition OwnedColumn) :=
  let owner := owners[uid]!
  let scopes := scopesOf owner
  let explicit := events.filter (·.uid = uid)
  let start := startOf total tables owner scopes explicit seed
  (start, mergeScopes total uid after[uid]? scopes explicit start)

/-- Events are sorted by step alone: those of one step keep their order. -/
def NoLater {A : Type} (a b : Transition A) : Prop := a.step ≤ b.step

instance {A : Type} : DecidableRel (NoLater (A := A)) := fun a b => inferInstanceAs (Decidable (a.step ≤ b.step))

/-! ## The index -/

def tableNamespace : Namespace TableName := ⟨"table", .table⟩
def columnNamespace : Namespace OwnedColumn := ⟨"column", fun a => .column a.owner a.name⟩
def roleNamespace : Namespace RoleName := ⟨"role", .role⟩
def typeNamespace : Namespace TypeRef := ⟨"type", .type⟩

/-- The histories of one plan. An unreadable history of types is kept until a type is asked for. -/
structure PlanNames where
  changes : List Change
  tables : History TableName
  columns : History OwnedColumn
  roles : History RoleName
  types : Except PlanNamesError (History TypeRef)

namespace PlanNames

def columnHistory (identities : List IdentityChange) (tables : History TableName) (after : IdsFile)
    (pending : ExtTreeSet Uid) : Except PlanNamesError (History OwnedColumn) := do
  let total := identities.length
  let final ← columnsAfter tables total after
  let events ← (identities.filterMap (columnEvent pending)).mapM (ownedEvent tables)
  let owners ← ownersOf events final
  events.forM fun e => if e.uid.kind ≠ .column then throw (.kind columnNamespace.label e.uid) else pure ()
  let scopesOf := fun owner => identities.filterMap (ownerEvent owner)
  let lives := columnScopes total tables scopesOf owners events final
  let seeds := History.seeds events final
  let initial := seeds.map fun uid seed => (lives uid seed).1
  let merged := seeds.toList.flatMap fun (uid, seed) => (lives uid seed).2
  History.fromInitial columnNamespace (merged.insertionSort NoLater) final initial

def build (changes : List Change) (after : IdsFile) (pending : ExtTreeSet Uid) : Except PlanNamesError PlanNames := do
  after.validate.mapError .ids
  let identities := identityChanges changes
  let tables ← History.of tableNamespace .table (identities.filterMap (tableEvent pending)) after.tables
  let roles ← History.of roleNamespace .role (identities.filterMap roleEvent) after.roles
  let types := History.of typeNamespace .type (identities.filterMap typeEvent) after.types
  let columns ← columnHistory identities tables after pending
  pure ⟨changes, tables, columns, roles, types⟩

def of (changes : List Change) (after : IdsFile) : Except PlanNamesError PlanNames := build changes after ∅

def columnAt (n : PlanNames) (column : Uid) (boundary : Nat) : Option OwnedColumn := do
  let address ← n.columns.name column boundary
  let _ ← n.tables.name address.owner boundary
  pure address

def columnHolder (n : PlanNames) (column : ColumnRef) (boundary : Nat) : Holder :=
  match n.tables.holder column.table boundary with
  | .tracked owner => n.columns.holder ⟨owner, column.name⟩ boundary
  | .unmanaged => .unmanaged
  | .vacant => .vacant

end PlanNames

end Pbps.Names
