/-
Enum labels and the rebuild of a type under its uid: `enum_labels.rs`, with the type identities of
`identity/type_refs.rs` it reads. Labels are renamed and added in place; a label taken away or moved
has the type rebuilt.
-/
import Pbps.Diff.Columns

namespace Pbps

def ColumnType.reference (user : TypeRef) : ColumnType where
  base := user.raw
  user := some user

def ColumnType.element (ty : ColumnType) : ColumnType := { ty with array := false }

namespace Diff

open Std (ExtTreeMap ExtTreeSet)

/-! ## Hints -/

/-- An object a package owns or holds, as the engine names it. -/
structure ProviderMember where
  cls : String
  names : List String
  args : List String
  deriving DecidableEq, Repr

/-- What dropping or updating a package would reach outside it. -/
structure PackageReach where
  outside : List ProviderMember := []
  blockers : List ProviderMember := []

structure ExtensionUpdateFacts where
  requires : List ObjectLocalName := []
  reach : PackageReach := {}

/-- What a plan is told beside the two sides: one-shot label intent, and the facts a connection reads.
What only orders or annotates a change is left out. -/
structure Hints where
  retainedExpressions : List RetainedExpression := []
  enumValueRenames : ExtTreeMap TypeRef (ExtTreeMap String String) := ∅
  enumComments : ExtTreeMap TypeRef String := ∅
  domainArrayHolders : ExtTreeSet Uid := ∅
  enumDependents : ExtTreeSet ModuleId := ∅
  extensionRequires : ExtTreeMap ObjectLocalName (ExtTreeSet ObjectLocalName) := ∅
  extensionDrops : ExtTreeMap ObjectLocalName PackageReach := ∅
  extensionUpdates : ExtTreeMap ObjectLocalName ExtensionUpdateFacts := ∅
  extensionMoves : ExtTreeMap ObjectLocalName (List ProviderMember) := ∅
  publicExecute : ExtTreeSet ModuleId := ∅

/-! ## Type identity -/

inductive TypeSide where
  | base
  | desired

namespace TypeResolver

variable (types : TypeResolver)

def ids : TypeSide → IdsFile
  | .base => types.base
  | .desired => types.desired

/-- The declared type a reference names; `none` is an external or unrecorded one. -/
def resolve (side : TypeSide) (reference : TypeRef) : Option Uid :=
  (types.ids side).typeUid reference

def name (side : TypeSide) (uid : Uid) : Option TypeRef := (types.ids side).types[uid]?

def remap (ty : ColumnType) (from_ to_ : TypeSide) : ColumnType :=
  match (ty.user.bind (types.resolve from_)).bind (types.name to_) with
  | some name => { ColumnType.reference name with array := ty.array }
  | none => ty

end TypeResolver

/-- What a column's values are at the bottom of its domain chain. -/
inductive Leaf where
  | enum (uid : Uid)
  | builtin (ty : ColumnType)
  | other
  deriving DecidableEq

/-- The leaf of a type and the levels of array above it. -/
structure ValuesShape where
  leaf : Leaf
  arrays : Nat
  deriving DecidableEq

/-- The walk of `values_shape` down a chain of domains. -/
def valuesShapeFrom (types : TypeResolver) (side : TypeSide) (schema : Schema) : Nat → ColumnType → Nat → ValuesShape
  | 0, _, arrays => ⟨.other, arrays⟩
  | fuel + 1, ty, arrays =>
    let arrays := if ty.array then arrays + 1 else arrays
    match ty.user with
    | none => ⟨.builtin ty.element, arrays⟩
    | some reference =>
      match types.resolve side reference, schema.types[reference]? with
      | none, _ => ⟨.other, arrays⟩
      | some uid, some (.enum _) => ⟨.enum uid, arrays⟩
      | some _, some (.domain base _ _ _ _) => valuesShapeFrom types side schema fuel base arrays
      | some _, none => ⟨.other, arrays⟩

/-- `values_shape`. -/
def valuesShape (types : TypeResolver) (side : TypeSide) (ty : ColumnType) (schema : Schema) : ValuesShape :=
  valuesShapeFrom types side schema (schema.types.size + 1) ty 0

/-- `holds_directly`: whether a type is `uid` or an array of it, and not one built on it. -/
def holdsDirectly (ty : ColumnType) (uid : Uid) (ids : IdsFile) : Bool :=
  ty.user.any fun name => ids.typeUid name = some uid

/-! ## Rebuilding a type -/

/-- What a rebuild creates and how its columns convert. -/
structure Replacement where
  definition : ManagedType
  removed : List String
  overType : Option TypeRef
  why : Option String
  values : ValueChange
  ordinal : Nat
  depth : Nat

def rootOf (schema : Schema) : Nat → List TableName → Table → Table
  | 0, _, owner => owner
  | fuel + 1, seen, owner =>
    match owner.partitionOf with
    | none => owner
    | some of =>
      if seen.contains of.parent then owner
      else
        match schema.tables[of.parent]? with
        | none => owner
        | some parent => rootOf schema fuel (of.parent :: seen) parent

section Rebuild

variable (base desired : Side)

/-- Whether a side holds a type, a table or a named module under the name. -/
def typeNameTaken (schema : Schema) (candidate : TypeRef) : Bool :=
  schema.types.contains candidate ||
    (schema.tables.keys.any fun t => t.schema = candidate.schema && t.name = candidate.name) ||
    schema.modules.keys.any fun m =>
      match m with
      | .named n => n.schema = candidate.schema && n.name = candidate.name
      | _ => false

/-- The `k`-th name tried for a replacement. -/
def replacementCandidate (uid : Uid) (name : TypeRef) (k : Nat) : TypeRef :=
  ⟨name.schema, "pbps_rebuild_" ++ uid.text ++ if k = 0 then "" else "_" ++ toString k⟩

/-- `replacement_name`: the first name neither side holds, which comes before there are more tried than
held. -/
def replacementName (uid : Uid) (name : TypeRef) : TypeRef :=
  let held (s : Schema) := s.types.size + s.tables.size + s.modules.size
  let tried := (List.range (held base.schema + held desired.schema + 1)).map (replacementCandidate uid name)
  (tried.find? fun c => !typeNameTaken base.schema c && !typeNameTaken desired.schema c).getD
    (replacementCandidate uid name 0)

/-- Whether a column of the declarations stands in the base and holds the type there. -/
def columnStands (uid columnUid : Uid) : Bool :=
  ((base.ids.columns[columnUid]?).bind fun at_ => (base.schema.tables[at_.table]?).bind (·.columns.lookup at_.name)).any
    fun c => holdsDirectly c.ty uid base.ids

/-- One column of the declarations: where it holds the type, what is moved, or why it cannot be. -/
def rebuiltColumn (uid : Uid) (table : TableName) (t : Table) (name : ColumnName) (column : Column) :
    Except TypeProblem (Option (Uid × ColumnRef × ColumnType)) :=
  let reference := table.column name
  if !holdsDirectly column.ty uid desired.ids then .ok none
  else
    match desired.ids.columnUid reference with
    | none => .error (.noRecordedIdentity reference)
    | some columnUid =>
      if !columnStands base uid columnUid then .error (.retypedInSamePlan reference)
      else if column.valueSource.isGenerated then .error (.generatedColumn reference)
      else if t.partitionBy.any (·.external) then .error (.externalPartitions reference)
      else if t.partitionBy.any (·.columns.contains name) then .error (.partitionKey reference)
      else .ok (some (columnUid, reference, column.ty))

def rebuiltColumns (uid : Uid) : Except TypeProblem (List (Uid × ColumnRef × ColumnType)) := do
  let columns ← (desired.schema.tables.toList.flatMap fun (table, t) => t.columnList.map fun c => (table, t, c)).mapM
    fun (table, t, name, column) => rebuiltColumn base desired uid table t name column
  return columns.filterMap id

/-- A partition's own default over the type, which a rebuild does not restore. -/
def partitionDefaultOver (uid : Uid) : Option TypeProblem :=
  desired.schema.tables.toList.findSome? fun (partition, t) =>
    t.partitionOf.bind fun of =>
      of.columns.toList.findSome? fun (column, own) =>
        if own.default.isSome && ((rootOf desired.schema (desired.schema.tables.size + 1) [] t).columns.lookup column).any
            fun c => holdsDirectly c.ty uid desired.ids then
          some (.partitionDefault partition column)
        else none

/-- How the values of a column of `to_` reach the replacement. -/
def columnValues (values : ValueChange) (to_ : ColumnType) : ValueChange :=
  match values with
  | .cast from_ into _ using_ =>
    .cast from_ into (valuesShape ⟨base.ids, desired.ids⟩ .desired to_ desired.schema).arrays using_
  | .relabel removed => .relabel removed

/-- `rebuild_type`: the replacement, one retype per column that holds the type, and the swap. -/
def rebuildType (hints : Hints) (uid : Uid) (name : TypeRef) (r : Replacement) : Except TypeProblem (List Change) := do
  if base.ids.types[uid]? ≠ some name then throw .rebuiltUnderNewName
  let columns ← rebuiltColumns base desired uid
  if let some problem := partitionDefaultOver desired uid then throw problem
  let tmp := replacementName base desired uid name
  let step := Change.enumRebuild uid name tmp
  return [step (.create r.definition r.removed r.ordinal r.overType r.why)] ++
    (columns.map fun (columnUid, column, to_) =>
      step (.retype columnUid column to_ to_.array (columnValues base desired r.values to_))) ++
    [step (.swap r.definition hints.enumComments[name]? r.depth r.overType)]

end Rebuild

/-! ## Label renames -/

/-- Follows the renames from a label to the end of its chain: the labels left on the way and whether
every one taken stands already. -/
def renameChain (old : List String) (graph : ExtTreeMap String String) : Nat → String → List String × Bool
  | 0, _ => ([], true)
  | fuel + 1, at_ =>
    match graph[at_]? with
    | none => ([], true)
    | some to_ =>
      let rest := renameChain old graph fuel to_
      (at_ :: rest.1, old.contains to_ && rest.2)

/-- The old labels of renames an earlier plan made: whole chains whose first label is gone and whose
others all stand. -/
def appliedSources (old : List String) (renames : ExtTreeMap String String) : List String :=
  let graph : ExtTreeMap String String := .ofList (renames.toList.map fun (to_, from_) => (from_, to_))
  (graph.keys.filter fun head => !renames.contains head).flatMap fun head =>
    let chain := renameChain old graph (graph.size + 1) head
    if !old.contains head && chain.2 then chain.1 else []

/-- The renames still to make, by old label, and what is wrong with the others. -/
def pendingRenames (old wanted : List String) (renames : ExtTreeMap String String) :
    ExtTreeMap String String × List TypeProblem :=
  let applied := appliedSources old renames
  let start : ExtTreeMap String String × List TypeProblem × List String := (∅, [], [])
  let (pending, errors, _) := renames.toList.foldl (fun (pending, errors, sources) (to_, from_) =>
    if sources.contains from_ then (pending, errors ++ [.twoLabelsClaim from_], sources)
    else
      let sources := from_ :: sources
      if !wanted.contains to_ then (pending, errors ++ [.renamedLabelNotDeclared to_], sources)
      else if from_ = to_ then (pending, errors ++ [.labelRenamesItself from_], sources)
      else if applied.contains from_ then (pending, errors, sources)
      else if old.contains from_ then (pending.insert from_ to_, errors, sources)
      else if !old.contains to_ then (pending, errors ++ [.renamedLabelMissing from_], sources)
      else (pending, errors, sources)) start
  (pending, errors)

/-- The labels of one type while its changes are made. -/
structure LabelRun where
  changes : List Change := []
  errors : List TypeProblem := []
  current : List String
  ordinal : Nat := 0

section Labels

variable (uid : Uid) (name : TypeRef)

def renameLabels : Nat → ExtTreeMap String String → LabelRun → LabelRun
  | 0, _, run => run
  | fuel + 1, pending, run =>
    if pending.isEmpty then run
    else
      match pending.toList.find? fun e => !run.current.contains e.2 with
      | none => { run with errors := run.errors ++ [.labelRenameCycle pending.keys] }
      | some (from_, to_) =>
        let current := run.current.replace from_ to_
        renameLabels fuel (pending.erase from_) { run with
          changes := run.changes ++ [.renameEnumValue uid name from_ to_ run.ordinal [] (.enum current)]
          current := current
          ordinal := run.ordinal + 1 }

def addLabels (wanted : List String) (run : LabelRun) : LabelRun :=
  wanted.zipIdx.foldl (fun run (value, index) =>
    if run.current.contains value then run
    else
      let placement :=
        if index > 0 then (wanted[index - 1]?).map EnumPlacement.after else run.current.head?.map EnumPlacement.before
      let current := run.current.insertIdx index value
      { run with
        changes := run.changes ++ [.addEnumValue uid name value placement run.ordinal (.enum current)]
        current := current
        ordinal := run.ordinal + 1 }) run

/-- The labels a rebuild takes away, as the database spells them now. -/
def removedLabels (old current wanted : List String) : List String :=
  ((current.zip old).filter fun e => !wanted.contains e.1).map Prod.snd

def labelChanges (base desired : Side) (hints : Hints) (old wanted : List String) : List Change × List TypeProblem :=
  let renames := hints.enumValueRenames.getD name ∅
  if old = wanted ∧ renames.isEmpty then ([], [])
  else
    let (pending, problems) := pendingRenames old wanted renames
    let run := renameLabels uid name (pending.size + 1) pending { current := old, errors := problems }
    let removed := removedLabels old run.current wanted
    if !removed.isEmpty || (run.current.filter wanted.contains) ≠ wanted.filter run.current.contains then
      match rebuildType base desired hints uid name
          { definition := .enum wanted, removed, overType := none, why := none, values := .relabel removed,
            ordinal := run.ordinal, depth := 0 } with
      | .ok steps => (run.changes ++ steps, run.errors)
      | .error problem => (run.changes, run.errors ++ [problem])
    else
      let run := addLabels uid name wanted run
      (run.changes, run.errors)

end Labels

/-- `enum_labels::changes`. -/
def enumLabels (base desired : Side) (hints : Hints) : Out :=
  .forEach desired.ids.types.toList fun (uid, name) =>
    match desired.schema.types[name]?, (base.ids.types[uid]?).bind (base.schema.types[·]?) with
    | some (.enum wanted), some (.enum old) =>
      let (changes, problems) := labelChanges uid name base desired hints old wanted
      { changes, errs := problems.map (.typeLifecycleUnsupported name) }
    | _, _ => {}

/-! ## Retained expressions -/

section Retained

variable (base desired : Side)

def ExpressionTarget.expression (schema : Schema) : ExpressionTarget → Option String
  | .columnDefault _ column =>
    ((schema.tables[column.table]?).bind (·.columns.lookup column.name)).bind fun c => c.valueSource.default?
  | .check _ table name => ((schema.tables[table]?).bind (·.checks[name]?)).map CheckConstraint.expression

def ExpressionTarget.replace (schema : Schema) (text : String) : ExpressionTarget → Schema
  | .columnDefault _ column =>
    match schema.tables[column.table]? with
    | none => schema
    | some t =>
      match t.columns.lookup column.name with
      | none => schema
      | some c =>
        let columns := t.columns.replace column.name { c with valueSource := .default text }
        { schema with tables := schema.tables.insert column.table { t with columns } }
  | .check _ table name =>
    match schema.tables[table]? with
    | none => schema
    | some t => { schema with tables := schema.tables.insert table { t with checks := t.checks.insert name ⟨text⟩ } }

/-- Whether a column is the same on both sides but for its default and nullability, and not generated. -/
def columnRetained (types : TypeResolver) (x y : Column) : Bool :=
  x.ty.array == y.ty.array && decide (x.collation = y.collation) && !x.valueSource.isGenerated && !y.valueSource.isGenerated &&
    (x.ty = y.ty || match x.ty.user, y.ty.user with
      | some a, some b => types.sameDeclared a b
      | _, _ => false)

/-- Whether a table has the same columns on both sides and takes no part in partitions. -/
def tableRetained (table : TableName) (old new : Table) : Bool :=
  !(old.partitionBy.isSome || old.partitionOf.isSome || new.partitionBy.isSome || new.partitionOf.isSome) &&
    decide (old.computed = new.computed) &&
    decide ((columnsOf base.ids table).toList = (columnsOf desired.ids table).toList) &&
    old.columns.entries.length == new.columns.entries.length &&
    old.columnList.all fun (name, x) => (new.columns.lookup name).any (columnRetained ⟨base.ids, desired.ids⟩ x)

/-- The expressions of one kept table that read differently on the two sides. -/
def retainedOf (anchors : List RenameAnchor) (uid : Uid) (table : TableName) (old new : Table) : List RetainedExpression :=
  ((columnsOf desired.ids table).toList.filterMap fun (columnUid, column) =>
    let target := ExpressionTarget.columnDefault columnUid column
    match target.expression base.schema, target.expression desired.schema with
    | some before, some after => if before ≠ after then some ⟨target, before, after, anchors⟩ else none
    | _, _ => none) ++
  new.checks.toList.filterMap fun (name, after) =>
    (old.checks[name]?).bind fun before =>
      if before ≠ after then some ⟨.check uid table name, before.expression, after.expression, anchors⟩ else none

/-- `retained::candidates`. -/
def retainedCandidates (hints : Hints) : List RetainedExpression :=
  let labels := enumLabels base desired hints
  let anchors := labels.changes.filterMap fun c =>
    match c with
    | .renameEnumValue uid _ _ _ ordinal _ _ => some (RenameAnchor.mk uid ordinal)
    | _ => none
  if base.schema.modules ≠ desired.schema.modules ∨ labels.errs ≠ [] ∨ anchors = [] then []
  else
    desired.ids.tables.toList.flatMap fun (uid, table) =>
      match base.schema.tables[table]?, desired.schema.tables[table]? with
      | some old, some new =>
        if base.ids.tables[uid]? = some table ∧ tableRetained base desired table old new then
          retainedOf base desired anchors uid table old new
        else []
      | _, _ => []

def anchorAnswer (answer : RetainedExpression) (anchor : RenameAnchor) : List Change → Option (List Change)
  | [] => none
  | .renameEnumValue uid name from_ to_ ordinal retained definition :: rest =>
    if uid = anchor.uid ∧ ordinal = anchor.ordinal then
      some (.renameEnumValue uid name from_ to_ ordinal (retained ++ [answer]) definition :: rest)
    else (anchorAnswer answer anchor rest).map (.renameEnumValue uid name from_ to_ ordinal retained definition :: ·)
  | change :: rest => (anchorAnswer answer anchor rest).map (change :: ·)

/-- `retained::comparison`: the base as its expressions are compared, and the label changes with the
answers they carry. -/
def retainedComparison (hints : Hints) (steps : List Change) : Schema × List Change :=
  if hints.retainedExpressions.isEmpty then (base.schema, steps)
  else
    let allowed := retainedCandidates base desired { hints with retainedExpressions := [] }
    let start : Schema × List Change × List ExpressionTarget := (base.schema, steps, [])
    let (schema, steps, _) := hints.retainedExpressions.foldl (fun (schema, steps, seen) answer =>
      if !allowed.contains answer || seen.contains answer.target then (schema, steps, seen)
      else
        let seen := answer.target :: seen
        match answer.anchors.getLast?.bind fun anchor => anchorAnswer answer anchor steps with
        | none => (schema, steps, seen)
        | some steps => (answer.target.replace schema answer.after, steps, seen)) start
    (schema, steps)

end Retained

end Diff

end Pbps
