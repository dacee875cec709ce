/-
The columns of a table both sides hold: `diff_columns` of `schema_diff.rs`. Columns are matched by
uid, so a rename is a change of name and never a drop and an add. A dialect is what the comparison
asks of an engine; every pass is written for any.
-/
import Pbps.Diff.Change

namespace Pbps

def TypeArg.raw : TypeArg → String
  | .int n => toString n
  | .max => "max"
  | .ident s => s

/-- A name cut before its `words`-th space. -/
def splitAtWord : Nat → List Char → List Char × List Char
  | _, [] => ([], [])
  | n, c :: cs =>
    if c = ' ' ∧ n ≤ 1 then ([], c :: cs)
    else
      let (before, after) := splitAtWord (if c = ' ' then n - 1 else n) cs
      (c :: before, after)

/-- The canonical spelling of a type: `ColumnType::raw`. -/
def ColumnType.raw (ty : ColumnType) : String :=
  let (before, after) :=
    match ty.argsAfterWord with
    | some words => let (b, a) := splitAtWord words ty.base.toList; (String.ofList b, String.ofList a)
    | none => (ty.base, "")
  let args := if ty.args.isEmpty then "" else "(" ++ String.intercalate ", " (ty.args.map TypeArg.raw) ++ ")"
  before ++ args ++ after ++ if ty.array then "[]" else ""

namespace Diff

open Std (ExtTreeMap ExtTreeSet)

/-! ## Dialects -/

/-- What an engine needs out of the way of a column change. -/
structure RetypeDependents where
  keysAndIndexes : Bool := false
  checks : Bool := false
  filteredIndexes : Bool := false
  foreignKeys : Bool := false
  deriving DecidableEq, Repr

def RetypeDependents.and (a b : RetypeDependents) : RetypeDependents where
  keysAndIndexes := a.keysAndIndexes || b.keysAndIndexes
  checks := a.checks || b.checks
  filteredIndexes := a.filteredIndexes || b.filteredIndexes
  foreignKeys := a.foreignKeys || b.foreignKeys

/-- What the passes over tables ask of an engine. -/
structure Dialect where
  normalizeType : ColumnType → Option ColumnType
  changesNumbering : Bool
  typeChangeNeedsUsing : ColumnType → ColumnType → Bool
  /-- Whether `value_change` of these values asks for a recorded conversion. -/
  valueChangeNeedsUsing : ValueChange → Bool
  /-- Whether `value_change` of these values is one the engine makes by itself. -/
  valueChangeConverts : ValueChange → Bool
  retypeDependents : ColumnType → ColumnType → RetypeDependents
  recollateDependents : RetypeDependents
  nullabilityDependents : Bool → RetypeDependents
  enumRebuildDependents : RetypeDependents
  partitionMeetings : Bool
  attachScanKey : Uid → List (ColumnName × ColumnType) → ExtTreeMap TypeRef ManagedType → List ColumnName
  ownedSequenceDefault : TableName → ColumnName → OwnedSequence → Except String String

def Dialect.norm (dialect : Dialect) (ty : ColumnType) : ColumnType := (dialect.normalizeType ty).getD ty

/-! ## Results -/

/-- What keeps a table from the shape a detach or an attach gives it. -/
inductive ShapeProblem where
  | parentNotInBase (parent : TableName)
  | parentNotPartitioned (parent : TableName)
  | renamed (from_ : TableName)
  | partitionedItself
  | columnsNotParents
  | columnNotParents (column : ColumnName)
  | generatedElsewhere (column : ColumnName)
  | ownIdentity (column : ColumnName)
  | nullableColumn (column : ColumnName)
  | keyNotParents
  | parentsMissing (kind : DetachedKind) (name : ObjectLocalName)
  | notParents (kind : DetachedKind) (name : ObjectLocalName)
  | ownNotDeclared (kind : DetachedKind) (name : ObjectLocalName)
  | replicaIdentity
  | declaresData
  | otherSetting
  | referencedBy (table : TableName) (name : ObjectLocalName)
  deriving DecidableEq

/-- Why a type cannot be changed as declared. -/
inductive TypeProblem where
  | twoLabelsClaim (from_ : String)
  | renamedLabelNotDeclared (to_ : String)
  | labelRenamesItself (label : String)
  | renamedLabelMissing (from_ : String)
  | labelRenameCycle (labels : List String)
  | rebuiltUnderNewName
  | noRecordedIdentity (column : ColumnRef)
  | retypedInSamePlan (column : ColumnRef)
  | generatedColumn (column : ColumnRef)
  | externalPartitions (column : ColumnRef)
  | partitionKey (column : ColumnRef)
  | partitionDefault (partition : TableName) (column : ColumnName)
  | baseNotConvertible (from_ to_ : ColumnType)
  | createdOverRebuilt (on : TypeRef)
  | baseNotOrdered
  | kindChanged
  deriving DecidableEq

inductive DiffError where
  | typeLifecycleUnsupported (name : TypeRef) (problem : TypeProblem)
  | extensionDropNeedsDatabase (name : ObjectLocalName)
  | extensionDropRefused (name : ObjectLocalName)
  | extensionUpdateNeedsDatabase (name : ObjectLocalName) (from_ to_ : String)
  | extensionMoveNeedsDatabase (name : ObjectLocalName) (from_ to_ : String)
  | identityChangeUnsupported (column : ColumnRef)
  | sequenceChangeUnsupported (column : ColumnRef)
  | numberingChangeOnPartitionedTable (column : ColumnRef)
  | numberingDirectionChange (column : ColumnRef)
  | generationChangeUnsupported (column : ColumnRef)
  | conversionWithRename (column : ColumnRef)
  | conversionFromMismatch (column : ColumnRef) (recorded actual to_ : String)
  | dataWithoutKey (table : TableName)
  | dataBaselineKeyAbsent (table : TableName)
  | dataBaselineKeyOnNewColumn (table : TableName) (column : ColumnName)
  | dataBaselineKeyNotSingle (table : TableName) (columns : List ColumnName)
  | dataKeyColumnChanged (table : TableName)
  | indexParameterRefused (table : TableName) (target : IndexPart) (method : IndexMethod) (parameter : String)
  | exclusionRefused (table : TableName) (name : ObjectLocalName)
  | detachedShape (table parent : TableName) (what : List ShapeProblem)
  | attachedShape (table parent : TableName) (what : List ShapeProblem)
  | partitionDefault (column : ColumnRef) (reason : String)
  deriving DecidableEq

/-- What a pass appends to the plan and to the errors. -/
structure Out where
  changes : List Change := []
  errs : List DiffError := []

namespace Out

instance : Append Out := ⟨fun a b => ⟨a.changes ++ b.changes, a.errs ++ b.errs⟩⟩

def change (c : Change) : Out := { changes := [c] }
def err (e : DiffError) : Out := { errs := [e] }

def changeIf (wanted : Bool) (c : Change) : Out := if wanted then change c else {}

def forEach {α : Type} (l : List α) (f : α → Out) : Out :=
  ⟨l.flatMap fun a => (f a).changes, l.flatMap fun a => (f a).errs⟩

@[simp] theorem append_changes (a b : Out) : (a ++ b).changes = a.changes ++ b.changes := rfl
@[simp] theorem append_errs (a b : Out) : (a ++ b).errs = a.errs ++ b.errs := rfl

@[simp] theorem change_changes (c : Change) : (change c).changes = [c] := rfl
@[simp] theorem empty_changes : ({} : Out).changes = [] := rfl

@[simp] theorem err_changes (e : DiffError) : (err e).changes = [] := rfl

variable {w : Bool} {c : Change} {α : Type}

theorem mem_changeIf {d : Change} : d ∈ (changeIf w c).changes ↔ w = true ∧ d = c := by
  cases w <;> simp [changeIf]

theorem forEach_changes_eq_nil {l : List α} {f : α → Out} : (forEach l f).changes = [] ↔ ∀ a ∈ l, (f a).changes = [] := by
  simp [forEach]

theorem changeIf_changes_eq_nil : (changeIf w c).changes = [] ↔ w = false := by
  cases w <;> simp [changeIf]

theorem mem_forEach {l : List α} {f : α → Out} : c ∈ (forEach l f).changes ↔ ∃ a ∈ l, c ∈ (f a).changes := by
  simp [forEach]

end Out

/-- A state with the identities it goes by. -/
structure Side where
  schema : Schema
  ids : IdsFile

def columnsOf (ids : IdsFile) (table : TableName) : ExtTreeMap Uid ColumnRef := ids.columns.filter fun _ c => c.table = table

theorem getElem?_columnsOf {ids : IdsFile} {table : TableName} {u : Uid} {r : ColumnRef} :
    (columnsOf ids table)[u]? = some r ↔ ids.columns[u]? = some r ∧ r.table = table := by
  simp [columnsOf]

/-! ## One column -/

/-- The declared identities of types on the two sides. -/
structure TypeResolver where
  base : IdsFile
  desired : IdsFile

def TypeResolver.sameDeclared (types : TypeResolver) (before after : TypeRef) : Bool :=
  match uidOf types.base.types before, uidOf types.desired.types after with
  | some a, some b => a = b
  | _, _ => false

/-- The two types a column is compared by: one declared type on both sides is one type, whatever its
name. -/
def comparedTypes (dialect : Dialect) (types : TypeResolver) (was col : Column) : ColumnType × ColumnType :=
  let toTy := dialect.norm col.ty
  let same :=
    match (dialect.norm was.ty).user, toTy.user with
    | some old, some new => types.sameDeclared old new && (dialect.norm was.ty).array == toTy.array
    | _, _ => false
  (if same then toTy else dialect.norm was.ty, toTy)

def retyped (dialect : Dialect) (types : TypeResolver) (was col : Column) : Bool :=
  (comparedTypes dialect types was col).1 ≠ (comparedTypes dialect types was col).2 || was.collation ≠ col.collation

def increments : ValueSource → ValueSource → Option (Int × Int)
  | .identity was, .identity now => some (was.increment, now.increment)
  | .sequence was, .sequence now => some (was.increment, now.increment)
  | _, _ => none

section Column

variable (dialect : Dialect) (base declared : Table) (uid : Uid) (at_ : ColumnRef)

/-- A numbering source changed in place, where the engine has a statement for it. -/
def numbering (toTy : ColumnType) (from_ to_ : ValueSource) : Out :=
  let identity := from_.isIdentity || to_.isIdentity
  if !dialect.changesNumbering then
    .err (if identity then .identityChangeUnsupported at_ else .sequenceChangeUnsupported at_)
  else if [base, declared].any fun t => t.partitionOf.isSome || (identity && t.partitionBy.isSome) then
    .err (.numberingChangeOnPartitionedTable at_)
  else if to_.isSequence && !from_.isSequence && (base.unlogged || declared.unlogged) then
    .err (.sequenceChangeUnsupported at_)
  else if (increments from_ to_).any fun (was, now) => decide (was < 0) != decide (now < 0) then
    .err (.numberingDirectionChange at_)
  else .change (.alterColumnNumbering uid at_ toTy from_ to_)

/-- What a change of value source comes to. -/
structure SourceDelta where
  out : Out := {}
  recomputed : Bool := false
  oldDefault : Option String := none
  newDefault : Option String := none

/-- The two sources as one property: defaults change, generated text changes in place, numbering
changes as one change, and a change to or from generated is refused. -/
def sourceDelta (baseSource source : ValueSource) (fromTy toTy : ColumnType) : SourceDelta :=
  let numbering := numbering dialect base declared uid at_ toTy
  match baseSource, source with
  | .none, .none => {}
  | .default old, .default new => { oldDefault := some old, newDefault := some new }
  | .none, .default new => { newDefault := some new }
  | .default old, .none => { oldDefault := some old }
  | .identity old, .identity new => { out := if old = new then {} else numbering baseSource source }
  | .generated from_, .generated to_ =>
    if from_.stored ≠ to_.stored then { out := .err (.generationChangeUnsupported at_) }
    else if from_.expression ≠ to_.expression then
      { out := .change (.alterColumnExpression uid at_ from_.expression to_.expression), recomputed := true }
    else {}
  | .sequence from_, .sequence to_ =>
    -- a name is compared only where both sides give one
    let named := { from_ with name := from_.name.or to_.name }
    { out := if !to_.declares named || fromTy ≠ toTy then numbering baseSource source else {} }
  | .generated _, _ | _, .generated _ => { out := .err (.generationChangeUnsupported at_) }
  | _, .default new => { out := numbering baseSource .none, newDefault := some new }
  | .default old, _ => { out := numbering .none source, oldDefault := some old }
  | _, _ => { out := numbering baseSource source }

def recordedUsing (conversions : ExtTreeMap Uid Conversion) (renamed : Bool) (fromTy toTy : ColumnType) :
    Option String × Out :=
  match conversions[uid]?.filter fun r => r.to_ = toTy.raw ∧ fromTy ≠ toTy with
  | none => (none, {})
  | some record =>
    if record.from_ = fromTy.raw then
      if renamed then (none, .err (.conversionWithRename at_)) else (some record.using_, {})
    else
      let needs :=
        if fromTy.array = toTy.array then
          dialect.valueChangeNeedsUsing
            (.cast { fromTy with array := false } { toTy with array := false } (if toTy.array then 1 else 0) none)
        else dialect.typeChangeNeedsUsing fromTy toTy
      (none, if needs then .err (.conversionFromMismatch at_ record.from_ fromTy.raw record.to_) else {})

/-- The change of type, or of nullability alone. A recomputed column is tightened after its new
expression. -/
def diffColumnType (was col : Column) (fromTy toTy : ColumnType) (retyped recomputed : Bool) (using_ : Option String) : Out :=
  let tightenedAfter := recomputed && was.nullable && !col.nullable
  if retyped then
    .change (.alterColumnType uid at_ fromTy toTy was.nullable (col.nullable || tightenedAfter) was.collation col.collation
      false using_) ++
    .changeIf tightenedAfter (.alterColumnNullability uid at_ toTy false col.collation false)
  else .changeIf (was.nullable != col.nullable) (.alterColumnNullability uid at_ toTy col.nullable col.collation false)

/-- The change of default: one replaced around a retype is two changes, which the retype runs between. -/
def diffColumnDefault (old new : Option String) (retyped converting : Bool) : Out :=
  if old ≠ new || (converting && old.isSome) then
    let split := retyped && old.isSome && new.isSome
    .change (.alterColumnDefault uid at_ old (if split then none else new)) ++
      .changeIf split (.alterColumnDefault uid at_ none new)
  else {}

def diffColumn (types : TypeResolver) (conversions : ExtTreeMap Uid Conversion) (renamed : Bool) (was col : Column) : Out :=
  let fromTy := (comparedTypes dialect types was col).1
  let toTy := (comparedTypes dialect types was col).2
  let delta := sourceDelta dialect base declared uid at_ was.valueSource col.valueSource fromTy toTy
  let retyped := retyped dialect types was col
  let recorded := recordedUsing dialect uid at_ conversions renamed fromTy toTy
  delta.out ++ recorded.2 ++
    diffColumnType uid at_ was col fromTy toTy retyped delta.recomputed recorded.1 ++
    diffColumnDefault uid at_ delta.oldDefault delta.newDefault retyped recorded.1.isSome ++
    .changeIf (was.deprecated != col.deprecated) (.setColumnDeprecated uid at_ col.deprecated)

end Column

/-! ## The columns of a table -/

section Columns

variable (dialect : Dialect) (types : TypeResolver) (conversions : ExtTreeMap Uid Conversion)
  (baseName declaredName : TableName) (base declared : Table) (baseCols declaredCols : ExtTreeMap Uid ColumnRef)

def diffDeclaredColumn (uid : Uid) (declaredRef : ColumnRef) : Out :=
  match baseCols[uid]? with
  | none =>
    match declared.columns.lookup declaredRef.name with
    | none => {}
    | some c =>
      (if c.valueSource.isSequence && declared.unlogged then .err (.sequenceChangeUnsupported declaredRef)
        else {}) ++
        .change (.addColumn uid declaredName declaredRef.name c)
  | some baseRef =>
    let renamed := baseRef.name ≠ declaredRef.name
    .changeIf renamed (.renameColumn uid declaredName baseRef.name declaredRef.name
      (if baseName ≠ declaredName then some baseName else none)) ++
    match base.columns.lookup baseRef.name, declared.columns.lookup declaredRef.name with
    | some was, some col => diffColumn dialect base declared uid declaredRef types conversions renamed was col
    | _, _ => {}

/-- `diff_columns`. -/
def diffColumns : Out :=
  .forEach declaredCols.toList
    (fun (uid, ref) => diffDeclaredColumn dialect types conversions baseName declaredName base declared baseCols uid ref) ++
  -- a dropped column goes under the table's declared name and its own base name
  .forEach baseCols.toList fun (uid, ref) =>
    .changeIf (!declaredCols.contains uid) (.dropColumn uid (declaredName.column ref.name))

end Columns

end Diff

end Pbps
