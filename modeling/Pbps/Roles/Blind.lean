/-
What a comparison reads besides roles: a table but for its policies, a schema but for its roles, an identity file but for its.
Every pass over types, packages and label renames is the same whatever the roles are called.
-/
import Pbps.Diff.Plan
import Pbps.Roles.Mapping

namespace Pbps

open Std (ExtTreeMap ExtTreeSet)
open List Option Std.ExtTreeMap

variable {f : RoleName → RoleName}

/-! ## Schemas -/

section Schemas

variable (schema : Schema)

@[simp] theorem Schema.types_mapRoles : (schema.mapRoles f).types = schema.types := rfl
@[simp] theorem Schema.extensions_mapRoles : (schema.mapRoles f).extensions = schema.extensions := rfl

@[simp] theorem Schema.modules_mapRoles : (schema.mapRoles f).modules = schema.modules := rfl

@[simp] theorem Schema.getElem?_tables_mapRoles (name : TableName) :
    (schema.mapRoles f).tables[name]? = schema.tables[name]?.map (Table.mapRoles f) := ExtTreeMap.getElem?_map

@[simp] theorem Schema.toList_tables_mapRoles :
    (schema.mapRoles f).tables.toList = schema.tables.toList.map fun e => (e.1, e.2.mapRoles f) := ExtTreeMap.toList_map

@[simp] theorem Schema.keys_tables_mapRoles : (schema.mapRoles f).tables.keys = schema.tables.keys := keys_map

@[simp] theorem Schema.size_tables_mapRoles : (schema.mapRoles f).tables.size = schema.tables.size := size_map

@[simp] theorem Schema.contains_tables_mapRoles (name : TableName) :
    (schema.mapRoles f).tables.contains name = schema.tables.contains name := ExtTreeMap.contains_map

end Schemas

variable (schema : Schema) (name : TableName)

theorem Schema.bind_tables_mapRoles {A : Type} {g : Table → Option A} (h : ∀ t, g (t.mapRoles f) = g t) :
    ((schema.mapRoles f).tables[name]?).bind g = schema.tables[name]?.bind g := by
  rw [Schema.getElem?_tables_mapRoles, bind_map]
  exact congrArg _ (funext h)

theorem Schema.map_tables_mapRoles {A : Type} {g : Table → A} (h : ∀ t, g (t.mapRoles f) = g t) :
    ((schema.mapRoles f).tables[name]?).map g = schema.tables[name]?.map g := by
  rw [Schema.getElem?_tables_mapRoles, Option.map_map]
  exact congrArg (Option.map · _) (funext h)

namespace Diff

/-! ## Rebuilding a type -/

section Rebuild

variable (base desired : Side)

theorem rootOf_mapRoles (schema : Schema) : ∀ (fuel : Nat) (seen : List TableName) (owner : Table),
    rootOf (schema.mapRoles f) fuel seen (owner.mapRoles f) = (rootOf schema fuel seen owner).mapRoles f
  | 0, _, _ => rfl
  | fuel + 1, seen, owner => by
    rw [rootOf, rootOf, show (owner.mapRoles f).partitionOf = owner.partitionOf from rfl]
    cases owner.partitionOf with
    | none => rfl
    | some of =>
      dsimp only
      split
      · rfl
      · rw [Schema.getElem?_tables_mapRoles]
        cases schema.tables[of.parent]? with
        | none => rfl
        | some parent => exact rootOf_mapRoles schema fuel _ parent

theorem typeNameTaken_mapRoles (schema : Schema) (candidate : TypeRef) :
    typeNameTaken (schema.mapRoles f) candidate = typeNameTaken schema candidate := by
  rw [typeNameTaken, typeNameTaken, Schema.keys_tables_mapRoles]
  rfl

variable (uid : Uid)

theorem replacementName_mapRoles (name : TypeRef) :
    replacementName (base.mapRoles f) (desired.mapRoles f) uid name = replacementName base desired uid name := by
  unfold replacementName
  simp only [Side.mapRoles, Schema.size_tables_mapRoles, typeNameTaken_mapRoles, Schema.types_mapRoles, Schema.modules_mapRoles]

theorem columnStands_mapRoles (columnUid : Uid) :
    columnStands (base.mapRoles f) uid columnUid = columnStands base uid columnUid := by
  show (((base.ids.columns[columnUid]?).bind fun at_ => ((base.schema.mapRoles f).tables[at_.table]?).bind
    (·.columns.lookup at_.name)).any fun c => holdsDirectly c.ty uid base.ids) = _
  simp only [Schema.bind_tables_mapRoles base.schema _ (g := fun t => t.columns.lookup _) fun _ => rfl]
  rfl

theorem rebuiltColumn_mapRoles (table : TableName) (t : Table) (name : ColumnName) (column : Column) :
    rebuiltColumn (base.mapRoles f) (desired.mapRoles f) uid table (t.mapRoles f) name column =
      rebuiltColumn base desired uid table t name column := by
  unfold rebuiltColumn
  simp only [columnStands_mapRoles]
  rfl

theorem rebuiltColumns_mapRoles :
    rebuiltColumns (base.mapRoles f) (desired.mapRoles f) uid = rebuiltColumns base desired uid := by
  have hcolumns : ((desired.mapRoles f).schema.tables.toList.flatMap fun e => e.2.columnList.map fun c => (e.1, e.2, c)) =
      (desired.schema.tables.toList.flatMap fun e => e.2.columnList.map fun c => (e.1, e.2, c)).map
        fun e => (e.1, e.2.1.mapRoles f, e.2.2) := by
    simp only [Side.mapRoles, Schema.toList_tables_mapRoles, flatMap_map, map_flatMap, List.map_map]
    rfl
  refine (congrArg (fun columns => List.mapM _ columns >>= _) hcolumns).trans ?_
  rw [mapM_map]
  exact congrArg (· >>= _) (congrArg (List.mapM · _) (funext fun e => rebuiltColumn_mapRoles base desired uid _ _ _ _))

theorem partitionDefaultOver_mapRoles : partitionDefaultOver (desired.mapRoles f) uid = partitionDefaultOver desired uid := by
  unfold partitionDefaultOver
  simp only [Side.mapRoles, Schema.toList_tables_mapRoles, Schema.size_tables_mapRoles, List.findSome?_map, Function.comp_def,
    rootOf_mapRoles]
  rfl

theorem valuesShapeFrom_mapRoles (side : TypeSide) (schema : Schema) : ∀ (fuel : Nat) (ty : ColumnType) (arrays : Nat),
    valuesShapeFrom ⟨base.ids.mapRoles f, desired.ids.mapRoles f⟩ side (schema.mapRoles f) fuel ty arrays =
      valuesShapeFrom ⟨base.ids, desired.ids⟩ side schema fuel ty arrays
  | 0, _, _ => rfl
  | fuel + 1, ty, arrays => by
    have hresolve : ∀ reference, TypeResolver.resolve ⟨base.ids.mapRoles f, desired.ids.mapRoles f⟩ side reference =
        TypeResolver.resolve ⟨base.ids, desired.ids⟩ side reference := by
      intro reference
      cases side <;> rfl
    rw [valuesShapeFrom, valuesShapeFrom, Schema.types_mapRoles]
    simp only [hresolve, valuesShapeFrom_mapRoles side schema fuel]

theorem valuesShape_mapRoles (side : TypeSide) (ty : ColumnType) (schema : Schema) :
    valuesShape ⟨base.ids.mapRoles f, desired.ids.mapRoles f⟩ side ty (schema.mapRoles f) =
      valuesShape ⟨base.ids, desired.ids⟩ side ty schema := valuesShapeFrom_mapRoles base desired side schema ..

theorem columnValues_mapRoles (values : ValueChange) (to_ : ColumnType) :
    columnValues (base.mapRoles f) (desired.mapRoles f) values to_ = columnValues base desired values to_ := by
  unfold columnValues
  simp only [Side.mapRoles, valuesShape_mapRoles]

theorem rebuildType_mapRoles (hints : Hints) (uid : Uid) (name : TypeRef) (r : Replacement) :
    rebuildType (base.mapRoles f) (desired.mapRoles f) hints uid name r = rebuildType base desired hints uid name r := by
  unfold rebuildType
  simp only [rebuiltColumns_mapRoles, partitionDefaultOver_mapRoles, replacementName_mapRoles, columnValues_mapRoles]
  rfl

end Rebuild

/-! ## Labels -/

section Labels

variable (base desired : Side) (hints : Hints)

theorem labelChanges_mapRoles (uid : Uid) (name : TypeRef) (old wanted : List String) :
    labelChanges uid name (base.mapRoles f) (desired.mapRoles f) hints old wanted =
      labelChanges uid name base desired hints old wanted := by
  unfold labelChanges
  simp only [rebuildType_mapRoles]

theorem enumLabels_mapRoles : enumLabels (base.mapRoles f) (desired.mapRoles f) hints = enumLabels base desired hints := by
  unfold enumLabels
  simp only [labelChanges_mapRoles]
  rfl

end Labels

/-! ## Retained expressions -/

section Retained

variable (base desired : Side) (hints : Hints)

variable (schema : Schema)

theorem expression_mapRoles (target : ExpressionTarget) : target.expression (schema.mapRoles f) = target.expression schema := by
  cases target with
  | columnDefault uid column =>
    unfold ExpressionTarget.expression
    dsimp only
    rw [Schema.bind_tables_mapRoles _ _ fun _ => rfl]
  | check uid table name =>
    unfold ExpressionTarget.expression
    dsimp only
    rw [Schema.bind_tables_mapRoles _ _ fun _ => rfl]

theorem insert_mapRoles (name : TableName) (t : Table) :
    { schema with tables := schema.tables.insert name t }.mapRoles f =
      ⟨(schema.mapRoles f).tables.insert name (t.mapRoles f), schema.types, schema.extensions, schema.modules,
        (schema.mapRoles f).roles⟩ := by
  unfold Schema.mapRoles
  simp only [map_insert_eq]

theorem replace_mapRoles (text : String) (target : ExpressionTarget) :
    target.replace (schema.mapRoles f) text = (target.replace schema text).mapRoles f := by
  cases target with
  | columnDefault uid column =>
    rw [ExpressionTarget.replace, ExpressionTarget.replace, Schema.getElem?_tables_mapRoles]
    cases schema.tables[column.table]? with
    | none => rfl
    | some t =>
      dsimp only [map_some, Table.mapRoles]
      cases t.columns.lookup column.name with
      | none => rfl
      | some c =>
        exact (insert_mapRoles schema column.table
          { t with columns := t.columns.replace column.name { c with valueSource := .default text } }).symm
  | check uid table name =>
    rw [ExpressionTarget.replace, ExpressionTarget.replace, Schema.getElem?_tables_mapRoles]
    cases schema.tables[table]? with
    | none => rfl
    | some t =>
      exact (insert_mapRoles schema table { t with checks := t.checks.insert name ⟨text⟩ }).symm

theorem retainedOf_mapRoles (anchors : List RenameAnchor) (uid : Uid) (table : TableName) (old new : Table) :
    retainedOf (base.mapRoles f) (desired.mapRoles f) anchors uid table (old.mapRoles f) (new.mapRoles f) =
      retainedOf base desired anchors uid table old new := by
  unfold retainedOf
  simp only [Side.mapRoles, expression_mapRoles]
  rfl

theorem retainedCandidates_mapRoles :
    retainedCandidates (base.mapRoles f) (desired.mapRoles f) hints = retainedCandidates base desired hints := by
  unfold retainedCandidates
  rw [enumLabels_mapRoles]
  refine ite_congr rfl (fun _ => rfl) fun _ => flatMap_congr fun e _ => ?_
  rcases e with ⟨uid, table⟩
  simp only [Side.mapRoles, Schema.getElem?_tables_mapRoles]
  cases base.schema.tables[table]? with
  | none => rfl
  | some old =>
    cases desired.schema.tables[table]? with
    | none => rfl
    | some new =>
      dsimp only [map_some]
      rw [show retainedOf ⟨base.schema.mapRoles f, base.ids.mapRoles f⟩ ⟨desired.schema.mapRoles f, desired.ids.mapRoles f⟩ _ uid
        table (old.mapRoles f) (new.mapRoles f) = _ from retainedOf_mapRoles base desired _ uid table old new]
      rfl

theorem foldl_under {S X B : Type} (g : S → S) {step : S × X → B → S × X}
    (h : ∀ s x b, step (g s, x) b = (g (step (s, x) b).1, (step (s, x) b).2)) (l : List B) (s : S) (x : X) :
    l.foldl step (g s, x) = (g (l.foldl step (s, x)).1, (l.foldl step (s, x)).2) := by
  induction l generalizing s x with
  | nil => rfl
  | cons b l ih => rw [foldl_cons, h, ih, foldl_cons]

theorem retainedComparison_mapRoles (steps : List Change) :
    retainedComparison (base.mapRoles f) (desired.mapRoles f) hints steps =
      ((retainedComparison base desired hints steps).1.mapRoles f, (retainedComparison base desired hints steps).2) := by
  unfold retainedComparison
  split
  · rfl
  · rw [retainedCandidates_mapRoles]
    dsimp only [Side.mapRoles]
    rw [foldl_under (Schema.mapRoles f)]
    rintro schema ⟨steps, seen⟩ answer
    dsimp only
    split
    · rfl
    · cases answer.anchors.getLast?.bind fun anchor => anchorAnswer answer anchor steps with
      | none => rfl
      | some steps =>
        dsimp only
        rw [replace_mapRoles]

end Retained

/-! ## Types and packages -/

section Types

variable (dialect : Dialect) (members : Members) (base desired : Side) (hints : Hints)

theorem ownValues_mapRoles (d : RetainedDomain) :
    ownValues dialect (base.mapRoles f) (desired.mapRoles f) d = ownValues dialect base desired d := by
  have hcast : ∀ ty, castType dialect (base.mapRoles f) (desired.mapRoles f) ty = castType dialect base desired ty := by
    intro ty
    unfold castType
    simp only [Side.mapRoles, valuesShape_mapRoles]
    rfl
  unfold ownValues
  simp only [hcast]
  simp only [Side.mapRoles, valuesShape_mapRoles]

theorem labelsBefore_mapRoles (operations : ExtTreeMap Uid Nat) : ∀ (fuel : Nat) (at_ : ManagedType),
    labelsBefore (desired.mapRoles f) operations fuel at_ = labelsBefore desired operations fuel at_
  | 0, _ => rfl
  | fuel + 1, at_ => by
    rw [labelsBefore, labelsBefore]
    simp only [labelsBefore_mapRoles operations fuel]
    rfl

theorem rebuiltDomains_mapRoles (steps : List Change) :
    rebuiltDomains dialect (base.mapRoles f) (desired.mapRoles f) hints steps = rebuiltDomains dialect base desired hints steps := by
  have hrebuild : rebuildDomain dialect (base.mapRoles f) (desired.mapRoles f) hints = rebuildDomain dialect base desired hints := by
    funext operations why run d
    unfold rebuildDomain
    simp only [rebuildType_mapRoles, replacementName_mapRoles, ownValues_mapRoles, labelsBefore_mapRoles]
    rfl
  have hpasses : ∀ operations why fuel pending run,
      rebuildDomains dialect (base.mapRoles f) (desired.mapRoles f) hints operations why fuel pending run =
        rebuildDomains dialect base desired hints operations why fuel pending run := by
    intro operations why fuel
    induction fuel with
    | zero =>
      intro pending run
      rfl
    | succ fuel ih =>
      intro pending run
      rw [rebuildDomains, rebuildDomains, hrebuild]
      exact ih _ _
  unfold rebuiltDomains
  dsimp only
  rw [hpasses]
  rfl

theorem extensionChanges_mapRoles (d : Differ) (request : Request) :
    extensionChanges d request (base.mapRoles f) (desired.mapRoles f) = extensionChanges d request base desired := rfl

theorem forwardMovedTypes_mapRoles (comparison : Schema) (facts : ExtTreeMap ObjectLocalName (List ProviderMember)) :
    forwardMovedTypes members (base.mapRoles f) (desired.mapRoles f) (comparison.mapRoles f) facts =
      (forwardMovedTypes members base desired comparison facts).mapRoles f := by
  unfold forwardMovedTypes
  rw [show movedTypes members (base.mapRoles f) (desired.mapRoles f) facts = movedTypes members base desired facts from rfl]
  dsimp only
  split
  · rfl
  · have htables : (comparison.mapRoles f).tables.map (fun _ => carryTable (movedTypes members base desired facts)) =
        (comparison.tables.map fun _ => carryTable (movedTypes members base desired facts)).map fun _ => Table.mapRoles f := by
      unfold Schema.mapRoles
      rw [map_map_eq, map_map_eq]
      rfl
    rw [htables]
    rfl

end Types

end Diff

end Pbps
