/-
The identity file: `pbps-model`'s `ids.rs`, with `rebuild.rs`'s lineage records. It maps uids to
names, keeps a tombstone for each deleted object, and holds the moves, conversions and rebuilds a
human allowed. `validate` checks the cross-map rules in the source's order and returns the first
problem.
-/
import Pbps.Model.Schema
import Pbps.Model.Text

namespace Pbps

open Std (ExtTreeMap ExtTreeSet)

def CURRENT_VERSION : Nat := 1

/-- What the identity file got wrong. -/
inductive IdsError where
  | unsupportedVersion (found supported : Nat)
  | liveAndTombstoned (uid : Uid)
  | duplicateName (a b : Uid) (name : String)
  | kindMismatch (uid : Uid)
  | orphanColumn (uid : Uid) (column : String)
  | orphanMove (uid : Uid)
  | invalidRebuild (uid : Uid)
  | orphanConversion (uid : Uid)
  | invalidConversion (uid : Uid)
  | invalidDropRequirement (uid : Uid)
  | notHeld (uid : Uid) (name : String)
  deriving DecidableEq, Repr

/-! ## Records -/

abbrev Reason := String

/-- A move of a DEFAULT partition's rows into a new partition, allowed by a human. -/
structure Move where
  maxRows : Nat
  allowedAt : String
  reason : String
  operator : String
  deriving DecidableEq, Repr

/-- A conversion a human recorded for one column type change. -/
structure Conversion where
  from_ : String
  to_ : String
  using_ : String
  allowedAt : String
  operator : String
  deriving DecidableEq, Repr

/-- Human intent sealed with a tombstone: what must hold of the rows before the drop. -/
structure DropRequirement where
  tableUid : Uid
  predicate : String
  requiredAt : String
  operator : String
  deriving DecidableEq, Repr

/-- The record an object leaves behind when it is deleted. -/
structure Tombstone where
  was : String
  droppedAt : String
  reason : String
  operator : String
  require : Option DropRequirement := none
  deriving DecidableEq, Repr

/-- One end of an approved rewrite. -/
structure RebuildIdentities where
  tables : ExtTreeMap Uid TableName := ∅
  columns : ExtTreeMap Uid ColumnRef := ∅
  deriving DecidableEq

/-- A replacement column's type and collation at approval. -/
structure ColumnShape where
  ty : ColumnType
  collation : Option Collation := none
  deriving DecidableEq, Repr

/-- One lineage record, `source → replacement`. -/
structure Rebuild where
  source : RebuildIdentities
  replacement : RebuildIdentities
  replacementRoot : Uid
  continues : ExtTreeMap Uid Uid
  targetChecksum : String
  maxRows : Nat
  allowedAt : String
  reason : Reason
  operator : String
  types : ExtTreeMap Uid ColumnShape := ∅
  conversions : ExtTreeMap Uid Conversion := ∅
  deriving DecidableEq

/-- The identity file. -/
structure IdsFile where
  version : Nat := CURRENT_VERSION
  tables : ExtTreeMap Uid TableName := ∅
  columns : ExtTreeMap Uid ColumnRef := ∅
  roles : ExtTreeMap Uid RoleName := ∅
  types : ExtTreeMap Uid TypeRef := ∅
  extensions : ExtTreeMap Uid ObjectLocalName := ∅
  tombstones : ExtTreeMap Uid Tombstone := ∅
  moves : ExtTreeMap Uid Move := ∅
  rebuilds : ExtTreeMap Uid Rebuild := ∅
  conversions : ExtTreeMap Uid Conversion := ∅
  deriving DecidableEq, Inhabited

def RebuildIdentities.asIds (r : RebuildIdentities) : IdsFile :=
  { tables := r.tables, columns := r.columns }

/-! ## Lookups -/

/-- The lowest uid that holds a name: the scan `iter().find(…)` of a section. -/
def uidOf {N : Type} [DecidableEq N] (section_ : ExtTreeMap Uid N) (name : N) : Option Uid :=
  (section_.toList.find? fun e => e.2 = name).map (·.1)

theorem uidOf_eq_some {N : Type} [DecidableEq N] {section_ : ExtTreeMap Uid N} {name : N} {u : Uid}
    (h : uidOf section_ name = some u) : section_[u]? = some name := by
  rw [uidOf, Option.map_eq_some_iff] at h
  obtain ⟨⟨v, n⟩, he, rfl⟩ := h
  have h1 := List.mem_of_find?_eq_some he
  have h2 : n = name := by simpa using List.find?_some he
  subst h2
  exact ExtTreeMap.mem_toList_iff_getElem?_eq_some.1 h1

theorem uidOf_eq_none {N : Type} [DecidableEq N] {section_ : ExtTreeMap Uid N} {name : N} (h : uidOf section_ name = none)
    (u : Uid) : section_[u]? ≠ some name := by
  intro hu
  rw [uidOf, Option.map_eq_none_iff, List.find?_eq_none] at h
  have := h (u, name) (ExtTreeMap.mem_toList_iff_getElem?_eq_some.2 hu)
  simp at this

theorem uidOf_of_unique {N : Type} [DecidableEq N] {section_ : ExtTreeMap Uid N} {name : N} {u : Uid}
    (h : section_[u]? = some name) (unique : ∀ v : Uid, section_[v]? = some name → v = u) : uidOf section_ name = some u := by
  cases hv : uidOf section_ name with
  | some v => rw [unique v (uidOf_eq_some hv)]
  | none => exact absurd h (uidOf_eq_none hv u)

namespace IdsFile

variable (ids : IdsFile)

def tableUid (name : TableName) : Option Uid := uidOf ids.tables name
def columnUid (r : ColumnRef) : Option Uid := uidOf ids.columns r
def roleUid (name : RoleName) : Option Uid := uidOf ids.roles name
def extensionUid (name : ObjectLocalName) : Option Uid := uidOf ids.extensions name
def typeUid (name : TypeRef) : Option Uid := uidOf ids.types name

def containsUid (uid : Uid) : Bool :=
  ids.tables.contains uid || ids.columns.contains uid || ids.roles.contains uid ||
    ids.types.contains uid || ids.extensions.contains uid || ids.tombstones.contains uid

def isLive (uid : Uid) : Bool :=
  ids.tables.contains uid || ids.columns.contains uid || ids.roles.contains uid ||
    ids.types.contains uid || ids.extensions.contains uid

end IdsFile

/-! ## Validation -/

def checkKind {N : Type} (kind : UidKind) (section_ : ExtTreeMap Uid N) : Except IdsError Unit :=
  section_.keys.forM fun uid => if uid.kind ≠ kind then throw (.kindMismatch uid) else pure ()

/-- `check_unique`: no two uids of a section point at one spelling. -/
def checkUnique : List (Uid × String) → ExtTreeMap String Uid → Except IdsError Unit
  | [], _ => pure ()
  | (uid, name) :: rest, seen =>
    match seen[name]? with
    | some prev => throw (.duplicateName prev uid name)
    | none => checkUnique rest (seen.insert name uid)

/-- A section's entries as `check_unique` reads them. -/
def spelled {N : Type} (raw : N → String) (section_ : ExtTreeMap Uid N) : List (Uid × String) :=
  section_.toList.map fun e => (e.1, raw e.2)

/-- Whether a tombstone's row requirement is not one its object can carry. -/
def DropRequirement.invalidFor (r : DropRequirement) (uid : Uid) : Bool :=
  isBlank r.predicate || r.tableUid.kind != .table || !(uid.kind == .table || uid.kind == .column) ||
    (uid.kind == .table && uid != r.tableUid)

/-- Whether a conversion says nothing, or does not convert between two types. -/
def Conversion.invalid (c : Conversion) : Bool :=
  isBlank c.using_ || isBlank c.from_ || isBlank c.to_ || c.from_ == c.to_

namespace Rebuild

variable (r : Rebuild)

/-- The source parent: `continues` ties the replacement parent to it. -/
def sourceRoot : Option Uid := r.continues[r.replacementRoot]?

/-- Whether every pairing joins members of one kind and no source is continued twice. -/
def continuesAreWhole : Bool :=
  (r.continues.toList.all fun (to_, from_) =>
    (r.replacement.tables.contains to_ && r.source.tables.contains from_) ||
      (r.replacement.columns.contains to_ && r.source.columns.contains from_)) &&
    decide (r.continues.toList.map (·.2)).Nodup

/-- Whether a conversion of the record is not one of its continued replacement columns. -/
def conversionInvalid (to_ : Uid) (c : Conversion) : Bool :=
  !r.replacement.columns.contains to_ || !r.continues.contains to_ || c.invalid

def targets : List Uid := r.replacement.tables.keys ++ r.replacement.columns.keys

def sources : List Uid := r.source.tables.keys ++ r.source.columns.keys

end Rebuild

namespace IdsFile

/-- The checks before the rebuild records, which need no other file's validation. -/
def validateSections (ids : IdsFile) : Except IdsError Unit := do
  if ids.version ≠ CURRENT_VERSION then throw (.unsupportedVersion ids.version CURRENT_VERSION)
  checkKind .table ids.tables
  checkKind .column ids.columns
  checkKind .role ids.roles
  checkKind .extension ids.extensions
  checkKind .type ids.types
  ids.tombstones.toList.forM fun (uid, tombstone) => do
    if tombstone.require.any (·.invalidFor uid) then throw (.invalidDropRequirement uid)
    if ids.isLive uid then throw (.liveAndTombstoned uid)
  checkUnique (spelled TableName.raw ids.tables) ∅
  checkUnique (spelled ColumnRef.raw ids.columns) ∅
  checkUnique (spelled id ids.roles) ∅
  checkUnique (spelled TypeRef.raw ids.types) ∅
  checkUnique (spelled id ids.extensions) ∅
  ids.columns.toList.forM fun (uid, c) =>
    if c.table ∈ ids.tables.toList.map Prod.snd then pure () else throw (.orphanColumn uid c.raw)
  ids.moves.keys.forM fun uid =>
    if ids.tables.contains uid then pure () else throw (.orphanMove uid)
  ids.conversions.toList.forM fun (uid, c) => do
    if !ids.columns.contains uid then throw (.orphanConversion uid)
    if c.invalid then throw (.invalidConversion uid)

/-- Whether a rebuild record names this uid as one the file still knows. -/
def held (ids : IdsFile) (uid : Uid) : Bool :=
  ids.tables.contains uid || ids.columns.contains uid || ids.tombstones.contains uid

/-- Whether one record does not match the identities around it, apart from the uids other records
reserve. The two ends are files without rebuild records, so their validation is their sections'. -/
def rebuildInvalid (ids : IdsFile) (uid : Uid) (r : Rebuild) : Bool :=
  (r.conversions.toList.any fun (to_, c) => r.conversionInvalid to_ c) ||
    r.maxRows == 0 || r.targetChecksum.utf8ByteSize != 64 || !r.targetChecksum.toList.all isAsciiHexdigit ||
    r.source.asIds.validateSections != .ok () || r.replacement.asIds.validateSections != .ok () ||
    r.sourceRoot != some uid || !r.continuesAreWhole ||
    (r.types.keys.any fun u => !r.replacement.columns.contains u) ||
    (r.sources.any fun u => !ids.tombstones.contains u) ||
    (r.targets.any fun u => !ids.held u || r.source.tables.contains u || r.source.columns.contains u)

/-- The records in order, each replacement uid reserved by one of them. -/
def validateRebuilds (ids : IdsFile) : List (Uid × Rebuild) → ExtTreeSet Uid → Except IdsError Unit
  | [], _ => pure ()
  | (uid, r) :: rest, reserved =>
    if ids.rebuildInvalid uid r || r.targets.any reserved.contains || !decide r.targets.Nodup then
      throw (.invalidRebuild uid)
    else ids.validateRebuilds rest (reserved.insertMany r.targets)

/-- `IdsFile::validate`. -/
def validate (ids : IdsFile) : Except IdsError Unit := do
  ids.validateSections
  ids.validateRebuilds ids.rebuilds.toList ∅

end IdsFile

end Pbps
