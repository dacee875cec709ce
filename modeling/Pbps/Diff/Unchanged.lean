/-
A side compared with itself: every pass finds nothing to do, so the list a comparison builds is empty.
Each pass decides equality on its own, and each gets its own lemma here.
-/
import Pbps.Diff.Plan
import Pbps.Diff.RowsReach

namespace Pbps.Diff

open Std (ExtTreeMap ExtTreeSet)
open List Std.ExtTreeMap
open Option (bind_eq_bind bind_eq_some_iff bind_some getD_some map_some)

variable {s : Side}

/-! ## Types and packages -/

theorem enumLabels_self : (enumLabels s s {}).changes = [] := by
  refine Out.forEach_changes_eq_nil.2 ?_
  rintro ⟨uid, name⟩ h
  have hname : s.ids.types[uid]? = some name := getElem?_of_mem_toList h
  simp only [hname, bind_some]
  cases hty : s.schema.types[name]? with
  | none => rfl
  | some ty =>
    cases ty with
    | enum values =>
      have : labelChanges uid name s s {} values values = ([], []) := by
        unfold labelChanges
        rw [if_pos ⟨rfl, by simp⟩]
      simp only [this]
    | domain => rfl

theorem movedTypes_self (members : Members) : movedTypes members s s ∅ = ∅ := by
  unfold movedTypes
  rw [flatMap_eq_nil_iff.2]
  · rfl
  · rintro ⟨name, to_⟩ -
    simp

theorem comparison_self (d : Differ) : comparison d {} s s = (s, []) := by
  unfold comparison retainedComparison forwardMovedTypes
  simp [enumLabels_self, movedTypes_self]

/-- A type as its constructors build it: a user-defined one is spelled by its name. -/
def ColumnType.Spelled (ty : ColumnType) : Prop :=
  ∀ r, ty.user = some r → ty = { ColumnType.reference r with array := ty.array }

theorem remap_self {ids : IdsFile} {ty : ColumnType} (h : ColumnType.Spelled ty) (a b : TypeSide) :
    TypeResolver.remap ⟨ids, ids⟩ ty a b = ty := by
  have hids : ∀ side : TypeSide, (TypeResolver.mk ids ids).ids side = ids := by
    intro side
    cases side <;> rfl
  unfold TypeResolver.remap TypeResolver.resolve TypeResolver.name
  simp only [hids]
  cases hu : ty.user with
  | none => rfl
  | some r =>
    simp only [bind_some]
    cases hr : ids.typeUid r with
    | none => rfl
    | some uid =>
      have hname : ids.types[uid]? = some r := uidOf_eq_some hr
      simp only [bind_some, hname]
      exact (h r hu).symm

/-- Every domain of a schema is over a type as its constructors build it. -/
def Schema.Spelled (schema : Schema) : Prop :=
  ∀ (name : TypeRef) ty base, schema.types[name]? = some ty → domainBase ty = some base → ColumnType.Spelled base

variable {uid : Uid} {d : RetainedDomain} {c : ColumnName} {table : TableName} {grants : Grants}
variable {tables : ExtTreeMap TableName Table} {column : ColumnRef}

theorem retainedDomain_self (h : Schema.Spelled s.schema) {name : TypeRef} (hname : s.ids.types[uid]? = some name)
    (hd : retainedDomain s s uid name = some d) : d.old = d.new := by
  unfold retainedDomain at hd
  rw [hname, bind_some] at hd
  split at hd
  · rename_i h1 h2
    rw [h1] at h2
    cases h2
    cases hd
    rw [remap_self (h name _ _ h1 rfl)]
  · cases hd

variable {ty : ManagedType} {name : TableName} {T : Type} {t : Table} {target : GrantTarget} {p : Permission} {role : Role}

theorem DomainDelta.of_self {delta : DomainDelta} (h : DomainDelta.of ty ty = some delta) :
    delta.loosens = false ∧ delta.tightens = false := by
  cases ty with
  | enum => cases h
  | domain =>
    cases h
    constructor
    · simp [DomainDelta.loosens]
    · simp [DomainDelta.tightens]

variable (ids : IdsFile) (dialect : Dialect) (types : TypeResolver)

theorem ownReason_self (hd : d.old = d.new) : (ownReason dialect {} d).1 = none := by
  unfold ownReason
  rw [hd]
  cases d.new with
  | enum => rfl
  | domain => simp

theorem rebuildReasons_self (h : Schema.Spelled s.schema) : rebuildReasons dialect s {} ∅ (retainedDomains s s) = ∅ := by
  unfold rebuildReasons
  have hown : ((retainedDomains s s).filterMap fun d => (ownReason dialect {} d).1.map fun w => (d.uid, w)) = [] := by
    rw [filterMap_eq_nil_iff]
    intro d hd
    obtain ⟨⟨uid, name⟩, hm, hd⟩ := List.mem_filterMap.1 hd
    rw [ownReason_self dialect (retainedDomain_self h (getElem?_of_mem_toList hm) hd)]
    rfl
  have hpass : derivedPass s ∅ (retainedDomains s s) ∅ = ∅ := by
    unfold derivedPass
    refine foldlRecOn (motive := fun why => why = ∅) _ _ rfl ?_
    rintro why rfl d -
    simp only [getElem?_empty, contains_empty]
    split
    · rfl
    · simp
  rw [hown]
  exact Function.iterate_fixed hpass _

theorem rebuiltDomains_self (h : Schema.Spelled s.schema) :
    (rebuiltDomains dialect s s {} []).1.changes = [] ∧ (rebuiltDomains dialect s s {} []).2 = ∅ := by
  have hwhy : rebuildReasons dialect s {} (rebuiltEnums []) (retainedDomains s s) = ∅ := rebuildReasons_self dialect h
  unfold rebuiltDomains
  simp only [hwhy]
  refine ⟨?_, trivial⟩
  simp [rebuildDomains]

theorem createdExtensions_self : createdExtensions s s = [] := by
  unfold createdExtensions
  rw [filterMap_eq_nil_iff]
  rintro ⟨name, definition⟩ h
  dsimp only
  rw [if_pos (contains_of_mem_toList h)]

theorem droppedExtensions_self : droppedExtensions s s = [] := by
  unfold droppedExtensions
  rw [filterMap_eq_nil_iff]
  rintro ⟨name, definition⟩ h
  dsimp only
  rw [if_pos (contains_of_mem_toList h)]

theorem keptExtension_self {name : ObjectLocalName} {definition : Extension} {kept : Uid × Extension}
    (h : s.schema.extensions[name]? = some definition) (hk : keptExtension s s name = some kept) : kept.2 = definition := by
  unfold keptExtension at hk
  rw [h] at hk
  cases hu : s.ids.extensionUid name with
  | none => simp [hu] at hk
  | some uid =>
    simp only [hu, bind_eq_bind, bind_some, if_true, Option.some.injEq] at hk
    rw [← hk]

theorem extensionChanges_self (d : Differ) : extensionChanges d {} s s = [] := by
  unfold extensionChanges createExtensions dropExtensions
  rw [createdExtensions_self, droppedExtensions_self]
  have hupdate : (updateExtensions d.members s s ∅).changes = [] := by
    refine Out.forEach_changes_eq_nil.2 ?_
    rintro ⟨name, to_⟩ h
    dsimp only
    split
    · rfl
    · rename_i uid from_ hk
      have := keptExtension_self (getElem?_of_mem_toList h) hk
      rw [if_pos (congrArg Extension.version this)]
  have hmove : (moveExtensions d.members s s ∅).changes = [] := by
    refine Out.forEach_changes_eq_nil.2 ?_
    rintro ⟨name, to_⟩ h
    dsimp only
    split
    · rfl
    · rename_i uid from_ hk
      have := keptExtension_self (getElem?_of_mem_toList h) hk
      rw [if_pos (congrArg Extension.schema this)]
  simp [hupdate, hmove, Out.forEach]

section

variable (h : Schema.Spelled s.schema)
include h

theorem withDomainBase_self {name : TypeRef} (hty : s.schema.types[name]? = some ty) :
    withDomainBase (fun t => TypeResolver.remap ⟨s.ids, s.ids⟩ t .base .desired) ty = ty := by
  cases ty with
  | enum => rfl
  | domain => simp only [withDomainBase, remap_self (h name _ _ hty rfl)]

theorem diffType_self {name : TypeRef} (hname : s.ids.types[uid]? = some name) (hty : s.schema.types[name]? = some ty) :
    (diffType s s ∅ uid name ty).changes = [] := by
  have halter : (alterDomain uid name ty ty).changes = [] := by
    unfold alterDomain
    split
    · rfl
    · rename_i delta hd
      obtain ⟨h1, h2⟩ := DomainDelta.of_self hd
      simp [h1, h2, Out.changeIf]
  unfold diffType
  simp only [hname, hty, bind_some, map_some, withDomainBase_self h hty]
  simp only [Out.append_changes, append_eq_nil_iff, Out.changeIf_changes_eq_nil]
  refine ⟨⟨by simp, ?_⟩, by simp⟩
  split
  · exact halter
  · rfl

theorem diffTypes_self : (diffTypes s s ∅).changes = [] := by
  unfold diffTypes
  rw [Out.append_changes, append_eq_nil_iff]
  constructor
  · refine Out.forEach_changes_eq_nil.2 ?_
    rintro ⟨uid, name⟩ hm
    have hname : s.ids.types[uid]? = some name := getElem?_of_mem_toList hm
    cases hty : s.schema.types[name]? with
    | none => simp [hty]
    | some ty => simp [hty, diffType_self h hname hty]
  · refine Out.forEach_changes_eq_nil.2 ?_
    rintro ⟨uid, name⟩ hm
    have hname : s.ids.types[uid]? = some name := getElem?_of_mem_toList hm
    cases hty : s.schema.types[name]? with
    | none => simp [hname, hty]
    | some ty => simp [hname, hty]

end

theorem typeChanges_self (d : Differ) (h : Schema.Spelled s.schema) : typeChanges d {} s s [] = [] := by
  obtain ⟨h1, h2⟩ := rebuiltDomains_self d.dialect h
  unfold typeChanges
  simp [h1, h2, extensionChanges_self, diffTypes_self h]

/-! ## Parts of a table -/

theorem renamesOf_self : renamesOf ids ids = {} := by
  have htables : (ids.tables.toList.filterMap fun e =>
      ids.tables[e.1]?.bind fun was => if was ≠ e.2 then some (was, e.2) else none) = [] := by
    rw [filterMap_eq_nil_iff]
    intro e h
    simp [getElem?_of_mem_toList h]
  have hcolumns : (ids.columns.toList.filterMap fun e =>
      ids.columns[e.1]?.bind fun was => if was.name ≠ e.2.name then some (was, e.2.name) else none) = [] := by
    rw [filterMap_eq_nil_iff]
    intro e h
    simp [getElem?_of_mem_toList h]
  exact congrArg₂ (fun tables columns => Renames.mk (.ofList tables) (.ofList columns)) htables hcolumns

theorem Renames.apply_empty (t : Table) (name : TableName) : Renames.apply {} t name = t := by
  unfold Renames.apply
  rw [if_pos]
  simp [Renames.isEmpty]

theorem byName_self {parts : ExtTreeMap ObjectLocalName T} {kept : ObjectLocalName → T → T → Option Out}
    {drop : ObjectLocalName → Change} {add : ObjectLocalName → T → Change} (h : ∀ n part, kept n part part = some {}) :
    (byName parts parts kept drop add).changes = [] := by
  unfold byName
  rw [Out.append_changes, append_eq_nil_iff, Out.forEach_changes_eq_nil, Out.forEach_changes_eq_nil]
  constructor
  · rintro ⟨n, part⟩ hm
    simp [getElem?_of_mem_toList hm, h]
  · intro n hn
    rw [Out.changeIf_changes_eq_nil, ExtTreeMap.mem_keys.1 hn |> ExtTreeMap.contains_iff_mem.2]
    rfl

theorem parametersSet_self (p : Parameters) : (parametersSet p p).isEmpty = true := by
  refine isEmpty_of_forall fun k => Option.eq_none_iff_forall_ne_some.2 fun v hv => ?_
  rw [parametersSet, getElem?_filter_eq_some] at hv
  simp [hv.1] at hv

theorem parametersReset_self (p : Parameters) : (parametersReset p p).isEmpty = true := by
  have : (p.keys.filter fun k => !p.contains k) = [] := by
    rw [filter_eq_nil_iff]
    intro k hk
    simp [ExtTreeMap.mem_keys.1 hk]
  rw [parametersReset, this]
  rfl

section Parts

variable (policy : IndexMethod → String → ParameterChange) (name : TableName) (t : Table)

theorem diffParameters_self (target : IndexPart) (method : IndexMethod) (p : Parameters) :
    diffParameters policy name t target method p p = some {} := by
  unfold diffParameters parameterEdit
  simp [parametersSet_self, parametersReset_self]

theorem diffPrimaryKey_self : (diffPrimaryKey policy name t t).changes = [] := by
  have hd : primaryKeyDiffers t t = false := by
    unfold primaryKeyDiffers
    cases t.primaryKey with
    | none => simp
    | some pk => simp
  unfold diffPrimaryKey
  rw [hd]
  cases t.primaryKey with
  | none => rfl
  | some pk => simp [diffParameters_self]

theorem diffConstraints_self : (diffConstraints name t t).changes = [] := by
  unfold diffConstraints diffConstraintsBy diffForeignKeys diffChecks diffUniques diffIndexes
  simp only [Out.append_changes, append_eq_nil_iff]
  refine ⟨⟨⟨⟨diffPrimaryKey_self _ _ _, byName_self ?_⟩, byName_self ?_⟩, byName_self ?_⟩, byName_self ?_⟩
  · intro n fk
    rw [if_pos rfl]
  · intro n check
    rw [if_pos rfl]
  · intro n u
    rw [keptUnique, if_pos ⟨rfl, rfl⟩, diffParameters_self]
  · intro n ix
    rw [keptIndex, if_pos ⟨rfl, rfl⟩, diffParameters_self]

theorem diffExclusions_changes (base declared : Table) : (diffExclusions name base declared).changes = [] := by
  unfold diffExclusions
  rw [Out.append_changes, append_eq_nil_iff, Out.forEach_changes_eq_nil, Out.forEach_changes_eq_nil]
  constructor
  · rintro ⟨key, was⟩ -
    dsimp only
    split <;> rfl
  · intro key _
    split <;> rfl

theorem diffComputed_self : (diffComputed name t t).changes = [] := by
  have hself : ∀ c : ComputedColumn, computedKept (some c) (some c) = true := by
    intro c
    cases hn : c.notNull <;> simp [computedKept, ComputedColumn.declares, hn]
  unfold diffComputed
  rw [Out.append_changes, append_eq_nil_iff, Out.forEach_changes_eq_nil, Out.forEach_changes_eq_nil]
  constructor
  · rintro ⟨column, c⟩ h
    simp [getElem?_of_mem_toList h, hself, Out.changeIf]
  · rintro ⟨column, c⟩ h
    simp [getElem?_of_mem_toList h, hself, Out.changeIf]

theorem diffStorageParameters_self (uid : Uid) : (diffStorageParameters name t t uid).changes = [] := by
  unfold diffStorageParameters
  simp [parametersSet_self, parametersReset_self, Out.changeIf]

theorem diffPersistence_self (uid : Uid) : (diffPersistence name t t uid).changes = [] := by
  simp [diffPersistence, Out.changeIf]

end Parts

/-! ## Columns -/

theorem OwnedSequence.declares_self (q : OwnedSequence) : q.declares q = true := by
  unfold OwnedSequence.declares
  cases q.name <;> simp

theorem comparedTypes_self (c : Column) : (comparedTypes dialect types c c).1 = (comparedTypes dialect types c c).2 := by
  simp [comparedTypes]

theorem sourceDelta_self (t : Table) (uid : Uid) (at_ : ColumnRef) (source : ValueSource) (ty : ColumnType) :
    (sourceDelta dialect t t uid at_ source source ty ty).out.changes = [] ∧
      (sourceDelta dialect t t uid at_ source source ty ty).recomputed = false ∧
      (sourceDelta dialect t t uid at_ source source ty ty).oldDefault =
        (sourceDelta dialect t t uid at_ source source ty ty).newDefault := by
  cases source with
  | none => exact ⟨rfl, rfl, rfl⟩
  | default e => exact ⟨rfl, rfl, rfl⟩
  | identity i => simp [sourceDelta]
  | generated g => simp [sourceDelta]
  | sequence q =>
    have hname : { q with name := q.name.or q.name } = q := by simp
    simp only [sourceDelta, hname, OwnedSequence.declares_self]
    simp

theorem diffColumn_self (t : Table) (uid : Uid) (at_ : ColumnRef) (types : TypeResolver) (conversions : ExtTreeMap Uid Conversion)
    (c : Column) : (diffColumn dialect t t uid at_ types conversions false c c).changes = [] := by
  have hty := comparedTypes_self dialect types c
  unfold diffColumn
  simp only [hty]
  obtain ⟨h1, -, h3⟩ := sourceDelta_self dialect t uid at_ c.valueSource (comparedTypes dialect types c c).2
  have hre : retyped dialect types c c = false := by
    unfold retyped
    simp [hty]
  have hrec : recordedUsing dialect uid at_ conversions false (comparedTypes dialect types c c).2
      (comparedTypes dialect types c c).2 = (none, {}) := by
    unfold recordedUsing
    simp
  simp [h1, h3, hre, hrec, diffColumnType, diffColumnDefault, Out.changeIf]

theorem diffColumns_self (conversions : ExtTreeMap Uid Conversion) (name : TableName) (t : Table)
    (cols : ExtTreeMap Uid ColumnRef) : (diffColumns dialect types conversions name name t t cols cols).changes = [] := by
  unfold diffColumns
  rw [Out.append_changes, append_eq_nil_iff, Out.forEach_changes_eq_nil, Out.forEach_changes_eq_nil]
  constructor
  · rintro ⟨uid, ref⟩ h
    unfold diffDeclaredColumn
    simp only [getElem?_of_mem_toList h]
    cases hc : t.columns.lookup ref.name with
    | none => simp [Out.changeIf]
    | some c => simp [Out.changeIf, diffColumn_self]
  · rintro ⟨uid, ref⟩ h
    rw [Out.changeIf_changes_eq_nil, contains_of_mem_toList h]
    rfl

/-! ## Partitions -/

theorem getElem?_partitionColumnsByUid_self {columns : List (ColumnName × T)} {cols : ExtTreeMap Uid ColumnRef}
    (hn : (columns.map Prod.fst).Nodup) {v : T} :
    (partitionColumnsByUid columns cols cols)[c]? = some v ↔ (c, v) ∈ columns := by
  have hfate : ∀ c : ColumnName, ((ExtTreeMap.ofList (cols.toList.map fun e => (e.2.name, cols[e.1]?.map (·.name))))[c]?).getD (some c) =
      some c := by
    intro c
    cases hf : (ExtTreeMap.ofList (cols.toList.map fun e => (e.2.name, cols[e.1]?.map (·.name))))[c]? with
    | none => rfl
    | some now =>
      obtain ⟨⟨uid, r⟩, hm, he⟩ := List.mem_map.1 (mem_of_getElem?_ofList hf)
      cases he
      simp [getElem?_of_mem_toList hm]
  have hkeep : (columns.filterMap fun e =>
      (((ExtTreeMap.ofList (cols.toList.map fun e => (e.2.name, cols[e.1]?.map (·.name))))[e.1]?).getD (some e.1)).map
        fun now => (now, e.2)) = columns := by
    rw [filterMap_congr (g := some), filterMap_some]
    intro e _
    simp only [hfate, map_some]
  have hall : partitionColumnsByUid columns cols cols = .ofList columns := by
    rw [partitionColumnsByUid]
    exact congrArg (ExtTreeMap.ofList · _) hkeep
  rw [hall]
  exact getElem?_ofList_eq_some hn

theorem partitionColumnsByUid_self (columns : ExtTreeMap ColumnName T) (cols : ExtTreeMap Uid ColumnRef) :
    partitionColumnsByUid columns.toList cols cols = columns := by
  refine ExtTreeMap.ext_getElem? fun c => Option.ext fun v => ?_
  rw [getElem?_partitionColumnsByUid_self, mem_toList_iff_getElem?_eq_some]
  rw [map_fst_toList_eq_keys]
  exact nodup_keys

theorem defaultMoved_self (v : Option ValueSource) : defaultMoved v v = false := by
  rcases v with _ | _ | _ | _ | q | _
  case some.sequence =>
    have hname : { q with name := q.name.or q.name } = q := by simp
    simp only [defaultMoved, hname, OwnedSequence.declares_self]
    rfl
  all_goals simp [defaultMoved]

theorem diffPartitionColumns_self (uid : Uid) (name : TableName) (t : Table) :
    (diffPartitionColumns dialect uid name t t s s).changes = [] := by
  unfold diffPartitionColumns
  cases t.partitionOf with
  | none => rfl
  | some of =>
    dsimp only
    generalize hbase : ((s.schema.tables[of.parent]?).map fun p =>
      partitionColumnsByUid p.columnList (columnsOf s.ids of.parent) (columnsOf s.ids of.parent)).getD ∅ = baseOf
    have hlookup : ∀ c : ColumnName, baseOf[c]? = (s.schema.tables[of.parent]?).bind (·.columns.lookup c) := by
      intro c
      subst hbase
      cases s.schema.tables[of.parent]? with
      | none => simp
      | some p =>
        refine Option.ext fun v => ?_
        simp only [map_some, getD_some, bind_some]
        rw [getElem?_partitionColumnsByUid_self (nodup_columnList p), mem_columnList]
    have hloose : loosenedColumns s.schema.tables[of.parent]? baseOf = [] := by
      unfold loosenedColumns
      rw [filterMap_eq_nil_iff]
      rintro ⟨c, column⟩ hm
      cases hp : s.schema.tables[of.parent]? with
      | none => simp [hp] at hm
      | some p =>
        rw [hp] at hm
        have hc := mem_columnList.1 hm
        cases hn : column.nullable <;> simp [hlookup, hp, hc, hn]
    rw [partitionColumnsByUid_self]
    refine Out.forEach_changes_eq_nil.2 fun c _ => ?_
    unfold diffPartitionColumn
    simp only [hlookup, hloose, defaultMoved_self]
    simp [Out.changeIf]

/-! ## Rows -/

theorem labelRenames_nil : labelRenames [] = ∅ := by
  refine ExtTreeMap.ext_getElem? fun u => ?_
  simp [labelRenames]

theorem forwardedRows_nil (t : Table) : forwardedRows ids (labelRenames []) t = t := by
  have hnone : ∀ c : Column, columnRenames ids (labelRenames []) c = none := by
    intro c
    unfold columnRenames
    simp [labelRenames_nil]
  unfold forwardedRows
  split
  · rfl
  · simp [hnone]

theorem getElem?_baseNameOf_self {u : Uid} (hu : s.ids.columns[u]? = some (table.column c)) :
    (baseNameOf (columnsOf s.ids table) (columnsOf s.ids table))[c]? = some c := by
  have hmem : (u, table.column c) ∈ (columnsOf s.ids table).toList :=
    mem_toList_iff_getElem?_eq_some.2 (getElem?_columnsOf.2 ⟨hu, rfl⟩)
  have hentries : ((columnsOf s.ids table).toList.filterMap fun e =>
      (columnsOf s.ids table)[e.1]?.map fun b => (e.2.name, b.name)) =
      (columnsOf s.ids table).toList.map fun e => (e.2.name, e.2.name) := by
    rw [← List.filterMap_eq_map]
    refine filterMap_congr fun e he => ?_
    simp [getElem?_of_mem_toList he]
  have hnames : baseNameOf (columnsOf s.ids table) (columnsOf s.ids table) =
      .ofList ((columnsOf s.ids table).toList.map fun e => (e.2.name, e.2.name)) := by
    rw [← hentries]
    rfl
  rw [hnames]
  cases hf : (ExtTreeMap.ofList ((columnsOf s.ids table).toList.map fun e => (e.2.name, e.2.name)))[c]? with
  | some b =>
    obtain ⟨⟨v, r⟩, -, he⟩ := List.mem_map.1 (mem_of_getElem?_ofList hf)
    cases he
    rfl
  | none => exact absurd hf (getElem?_ofList_ne_none (List.mem_map.2 ⟨_, hmem, rfl⟩))

theorem changedCells_self (h : s.Described) (ht : s.schema.tables[name]? = some t) (keyColumn : ColumnName) (row : Row) :
    (changedCells t t (baseNameOf (columnsOf s.ids name) (columnsOf s.ids name)) keyColumn row row).isEmpty = true := by
  unfold changedCells
  rw [filterMap_eq_nil_iff.2]
  · rfl
  rintro ⟨c, spec⟩ hm
  have hc : t.columns.lookup c = some spec := mem_columnList.1 (List.mem_of_mem_filter hm)
  have hmem : c ∈ t.columns := by
    rw [← AList.lookup_isSome, hc]
    rfl
  obtain ⟨u, hu⟩ := (h.columns name t ht c).1 hmem
  simp [baseCell, getElem?_baseNameOf_self hu, hc]

theorem diffData_self (h : s.Described) (ht : s.schema.tables[name]? = some t) (plan : List Change) :
    (diffData name t t (baseNameOf (columnsOf s.ids name) (columnsOf s.ids name)) plan).changes = [] := by
  have hmode : (diffDataMode name t t).changes = [] := by simp [diffDataMode, Out.changeIf]
  unfold diffData
  rw [Out.append_changes, hmode, nil_append]
  cases hk : dataKey t with
  | none => cases t.data <;> rfl
  | some k =>
    cases hd : t.data with
    | none => rfl
    | some data =>
      dsimp only
      split
      · rfl
      have hrows : baseRows t = data.rows := by simp [baseRows, hd]
      unfold diffRows deleteRows
      rw [Out.append_changes, append_eq_nil_iff]
      constructor
      · refine Out.forEach_changes_eq_nil.2 ?_
        rintro ⟨key, row⟩ hm
        dsimp only
        unfold diffDeclaredRow
        rw [hrows, getElem?_of_mem_toList hm]
        simp only [changedCells_self h ht, Out.changeIf_changes_eq_nil]
        rfl
      · split
        · refine Out.forEach_changes_eq_nil.2 ?_
          rintro ⟨key, row⟩ hm
          rw [hrows] at hm
          rw [Out.changeIf_changes_eq_nil, contains_of_mem_toList hm]
          rfl
        · rfl

/-! ## Tables -/

theorem droppedTables_self : droppedTables dialect s s = [] := by
  unfold droppedTables
  rw [flatMap_eq_nil_iff]
  rintro ⟨uid, name⟩ h
  dsimp only
  rw [if_pos (contains_of_mem_toList h)]

theorem createdTables_self : (createdTables s s).changes = [] := by
  refine Out.forEach_changes_eq_nil.2 ?_
  rintro ⟨uid, name⟩ h
  dsimp only
  rw [if_pos (contains_of_mem_toList h)]

section

variable (h : s.Described) (uid : Uid) (ht : s.schema.tables[name]? = some t)
include h ht

theorem diffStandingTable_self : (diffStandingTable dialect s s uid name name t t {} []).changes = [] := by
  have hparts : (diffStandingParts dialect s s uid name name t t {}).changes = [] := by
    unfold diffStandingParts
    simp only [Renames.apply_empty, Out.append_changes, diffColumns_self, diffConstraints_self, diffExclusions_changes,
      diffComputed_self, diffStorageParameters_self, diffPersistence_self, diffPartitionColumns_self, append_nil]
  unfold diffStandingTable
  simp only [Out.append_changes, hparts, append_nil, forwardedRows_nil, diffData_self h ht]

theorem diffKeptTable_self : (diffKeptTable dialect s s uid name name t t {} none []).changes = [] := by
  have hhead : (diffPolicies name name t t ++ diffRowSecurity uid name t t).changes = [] := by
    rw [Out.append_changes, append_eq_nil_iff]
    constructor
    · refine Out.forEach_changes_eq_nil.2 fun n _ => ?_
      rw [if_pos rfl]
    · simp [diffRowSecurity, Out.changeIf]
  unfold diffKeptTable
  dsimp only
  rw [Out.append_changes, hhead, nil_append]
  cases t.partitionOf <;> exact diffStandingTable_self dialect h uid ht

end

theorem keptTables_self (dialect : Dialect) (h : s.Described) :
    ∀ {l : List (Uid × TableName)}, (∀ e ∈ l, s.ids.tables[e.1]? = some e.2) →
      (keptTables dialect s s {} none [] l).changes = []
  | [], _ => rfl
  | (uid, name) :: l, hl => by
    have hname : s.ids.tables[uid]? = some name := hl _ mem_cons_self
    have hkept : (keptTable dialect s s {} none [] uid name).changes = [] := by
      unfold keptTable
      rw [hname]
      have hrename : (renameTable s uid name name).changes = [] := by simp [renameTable, Out.changeIf]
      simp only [Out.append_changes, hrename, nil_append]
      cases ht : s.schema.tables[name]? with
      | none => rfl
      | some t => exact diffKeptTable_self dialect h uid ht
    unfold keptTables
    simp only [Out.append_changes, hkept, append_nil, nil_append]
    exact keptTables_self dialect h fun e he => hl e (mem_cons_of_mem _ he)

/-- Against itself, no side has anything to relink. -/
theorem relinked_self (h : s.Described) : relinked dialect s s none [] = [] := by
  have htables : tableChanges dialect s s none [] = [] := by
    unfold tableChanges diffTables
    simp only [renamesOf_self, Out.append_changes, droppedTables_self, createdTables_self, append_nil,
      keptTables_self dialect h fun e he => getElem?_of_mem_toList he]
    rfl
  have hretyped : withRetypedDependents dialect s s none [] = [] := by
    unfold withRetypedDependents
    rw [htables]
    rfl
  have hrebind : rebindForeignKeysToANewOccupant s s [] = [] := by
    unfold rebindForeignKeysToANewOccupant
    rw [flatMap_eq_nil_iff]
    rintro ⟨uid, name⟩ hm
    dsimp only
    rw [getElem?_of_mem_toList hm]
    cases ht : s.schema.tables[name]? with
    | none => rfl
    | some t =>
      simp only [ht, map_some, getD_some]
      unfold rebindForeignKeys
      rw [flatMap_eq_nil_iff]
      rintro ⟨n, fk⟩ hfk
      simp [getElem?_of_mem_toList hfk]
  unfold relinked
  simp only [hretyped, renamesOf_self]
  have hreferenced : recreateReferencedForeignKeys s s {} [] = [] := rfl
  simp only [hreferenced, append_nil, hrebind]
  rfl

/-! ## Replica identities and modules -/

theorem diffReplicaIdentity_self : diffReplicaIdentity s s [] = [] := by
  unfold diffReplicaIdentity
  rw [flatMap_eq_nil_iff]
  rintro ⟨uid, name⟩ hm
  dsimp only
  rw [getElem?_of_mem_toList hm]
  dsimp only
  cases s.schema.tables[name]? with
  | none => rfl
  | some t => simp [diffIdentity]

theorem namesChangingHands_self (h : s.Described) : namesChangingHands s s = ∅ := by
  unfold namesChangingHands
  rw [filter_eq_nil_iff.2]
  · rfl
  rintro ⟨uid, name⟩ hm
  have hname : s.ids.tables[uid]? = some name := getElem?_of_mem_toList hm
  have huid : s.ids.tableUid name = some uid :=
    uidOf_of_unique hname fun v hv => (validate_eq_ok.1 h.valid).tables v uid name name hv hname rfl
  simp [huid]

theorem diffModules_self (dialect : ModuleDialect) : diffModules dialect s.schema s.schema ∅ = [] := by
  unfold diffModules
  rw [append_eq_nil_iff, flatMap_eq_nil_iff, map_eq_nil_iff, filter_eq_nil_iff]
  constructor
  · rintro ⟨id, module⟩ hm
    have hands : triggerChangesHands ∅ id = false := by
      unfold triggerChangesHands
      cases id.attachedTo <;> simp
    have hdelta : moduleDelta dialect module module = .unchanged := by simp [moduleDelta]
    dsimp only
    unfold diffModule
    rw [getElem?_of_mem_toList hm]
    simp [hands, hdelta]
  · rintro ⟨id, module⟩ hm
    simp [contains_of_mem_toList hm]

theorem withModules_self (dialect : ModuleDialect) (h : s.Described) :
    withModules dialect s s .candidates ∅ ∅ [] = [] := by
  have hrestate : restateModules dialect s.schema s.schema .candidates ∅ ∅ [] = [] := by
    have : reboundModules dialect s.schema [] [] = [] := by simp [reboundModules]
    simp [restateModules, this]
  have hteardown : schemaBoundTeardown dialect s.schema s.schema [] = [] := by
    have hclose : ∀ fuel, closeTorn dialect s.schema fuel [] = [] := by
      intro fuel
      cases fuel <;> simp [closeTorn]
    have htriggers : ∀ id : ModuleId, id.attachedTo.any ([] : List ObjectName).contains = false := by
      intro id
      cases id.attachedTo <;> simp
    unfold schemaBoundTeardown
    simp [hclose, htriggers]
  unfold withModules
  simp only [namesChangingHands_self h, diffModules_self, append_nil, hrestate]
  have hsplit : splitDependents ∅ [] = [] := rfl
  rw [hsplit, hteardown]
  rfl

/-! ## Grants -/

theorem Grants.mem_held_add {target' : GrantTarget} {permissions : List Permission} :
    p ∈ (Grants.add grants target permissions).held target' ↔
      p ∈ grants.held target' ∨ (target' = target ∧ p ∈ permissions) := by
  unfold Grants.add Grants.held
  by_cases h : target' = target
  · subst h
    simp [ExtTreeSet.mem_insertMany_list]
  · simp only [getD_insert, h, false_and, or_false]
    rw [if_neg fun hc => h (Std.LawfulEqOrd.eq_of_compare hc).symm]

theorem Grants.mem_held_foldl {f : GrantTarget → GrantTarget} :
    ∀ {l : List (GrantTarget × ExtTreeSet Permission)} {grants : Grants},
      p ∈ (l.foldl (fun before (t, permissions) => Grants.add before (f t) permissions.toList) grants).held target ↔
        p ∈ grants.held target ∨ ∃ e ∈ l, f e.1 = target ∧ p ∈ e.2
  | [], grants => by simp
  | (t, permissions) :: l, grants => by
    rw [foldl_cons, Grants.mem_held_foldl, Grants.mem_held_add]
    simp only [mem_cons, exists_eq_or_imp, ExtTreeSet.mem_toList, or_assoc]
    refine or_congr_right (or_congr_left (and_congr_left fun _ => eq_comm))

theorem Grants.mem_held : p ∈ grants.held target ↔ ∃ e ∈ grants.toList, e.1 = target ∧ p ∈ e.2 := by
  unfold Grants.held
  constructor
  · intro h
    cases hg : grants[target]? with
    | none => simp [getD_eq_getD_getElem?, hg] at h
    | some permissions =>
      rw [getD_eq_getD_getElem?, hg] at h
      exact ⟨(target, permissions), mem_toList_iff_getElem?_eq_some.2 hg, rfl, h⟩
  · rintro ⟨⟨t, permissions⟩, hm, rfl, h⟩
    rw [getD_eq_getD_getElem?, getElem?_of_mem_toList hm]
    exact h

theorem getElem?_of_mem_ancestorChain :
    ∀ {fuel : Nat} {name : TableName} {chain : List (TableName × Table)}, ancestorChain tables fuel name = some chain →
      ∀ e ∈ chain, tables[e.1]? = some e.2
  | fuel + 1, name, chain, h => by
    unfold ancestorChain at h
    cases ht : tables[name]? with
    | none => simp [ht] at h
    | some t =>
      simp only [ht, bind_eq_bind, bind_some] at h
      cases ho : t.partitionOf with
      | none =>
        rw [ho] at h
        cases h
        simpa using ht
      | some of =>
        rw [ho] at h
        obtain ⟨rest, hrest, he⟩ := bind_eq_some_iff.1 h
        cases he
        rw [forall_mem_cons]
        exact ⟨ht, getElem?_of_mem_ancestorChain hrest⟩

def serialIn (schema : Schema) (column : ColumnRef) : Prop :=
  ∃ t c, schema.tables[column.table]? = some t ∧ t.columns.lookup column.name = some c ∧ c.valueSource.isSequence = true

theorem serialIn_of_mem_serialGrantColumns {schema : Schema} (h : column ∈ serialGrantColumns schema.tables table) :
    serialIn schema column := by
  unfold serialGrantColumns at h
  split at h
  · simp at h
  rename_i name root hlast
  obtain ⟨chain, hchain, hlast⟩ := bind_eq_some_iff.1 hlast
  obtain ⟨⟨c, spec⟩, hm, rfl⟩ := List.mem_map.1 h
  obtain ⟨hm, hseq⟩ := List.mem_filter.1 hm
  exact ⟨root, spec, getElem?_of_mem_ancestorChain hchain _ (mem_of_getLast? hlast), mem_columnList.1 hm, hseq⟩

theorem mem_comparedGrants (h : target ∈ role.comparedGrants tables) :
    target ∈ role.grants ∨ ∃ table column, column ∈ serialGrantColumns tables table ∧ target = .sequence column := by
  let From (grants : Grants) : Prop := ∀ t, t ∈ grants →
    t ∈ role.grants ∨ ∃ table column, column ∈ serialGrantColumns tables table ∧ t = .sequence column
  have hadd : ∀ {grants : Grants} {t permissions}, From grants →
      (t ∈ role.grants ∨ ∃ table column, column ∈ serialGrantColumns tables table ∧ t = .sequence column) →
      From (Grants.add grants t permissions) := by
    intro grants t permissions hg ht t' ht'
    rw [Grants.add, mem_insert] at ht'
    rcases ht' with ht' | ht'
    · rw [← Std.LawfulEqOrd.eq_of_compare ht']
      exact ht
    · exact hg t' ht'
  have hcolumns : ∀ {grants : Grants} {table : TableName}, From grants →
      From ((serialGrantColumns tables table).foldl (fun grants column => Grants.add grants (.sequence column) [.usage])
        grants) := by
    intro grants table hg
    refine foldlRecOn (motive := From) _ _ hg ?_
    intro grants hg column hc
    exact hadd hg (Or.inr ⟨table, column, hc, rfl⟩)
  have heffective : From (role.effectiveGrants tables) := by
    intro t ht
    obtain ⟨_, ht⟩ := mem_iff_exists.1 ht
    rw [Role.effectiveGrants, getElem?_filter_eq_some] at ht
    refine foldlRecOn (motive := From) _ _ (fun t ht => Or.inl ht) ?_ t (mem_of_getElem?_eq ht.1)
    intro grants hg table _
    have hc := @hcolumns grants table hg
    dsimp only
    split
    · rename_i rights hr
      intro t ht
      rw [mem_insert] at ht
      rcases ht with ht | ht
      · rw [← Std.LawfulEqOrd.eq_of_compare ht]
        exact hc _ (mem_of_getElem?_eq hr)
      · exact hc t ht
    · exact hc
  have hcompared : From (role.comparedGrants tables) := by
    unfold Role.comparedGrants
    refine foldlRecOn (motive := From) _ _ heffective ?_
    rintro grants hg ⟨t, rights⟩ hm
    have ht : t ∈ role.grants := mem_of_getElem?_eq (getElem?_of_mem_toList (List.mem_of_mem_filter hm))
    exact hadd hg (Or.inl ht)
  exact hcompared target h

/-- Every grant on a sequence names a serial column of a table that is no partition; `roleCheck` asks it of every load. -/
def Schema.GrantsSerial (schema : Schema) : Prop :=
  ∀ (name : RoleName) (role : Role), schema.roles[name]? = some role →
    ∀ column, GrantTarget.sequence column ∈ role.grants → schema.serialColumn column = true

theorem serialIn_of_serialColumn (h : s.schema.serialColumn column = true) : serialIn s.schema column := by
  unfold Schema.serialColumn at h
  rw [Option.any_eq_true] at h
  obtain ⟨c, hb, hseq⟩ := h
  obtain ⟨t, hf, hl⟩ := bind_eq_some_iff.1 hb
  exact ⟨t, c, (Option.filter_eq_some_iff.1 hf).1, hl, hseq⟩

theorem droppedWithItsTable_self (h : ∀ column, target = .sequence column → serialIn s.schema column) :
    droppedWithItsTable s s target = false := by
  unfold droppedWithItsTable
  cases target with
  | routine | schema => rfl
  | object o =>
    dsimp only
    cases hu : s.ids.tableUid o with
    | none => rfl
    | some uid =>
      have : s.ids.tables.contains uid = true := contains_iff_exists.2 ⟨_, uidOf_eq_some hu⟩
      simp [this]
  | sequence column =>
    obtain ⟨t, c, ht, hc, hseq⟩ := h column rfl
    dsimp only
    rw [any_eq_false]
    rintro ⟨uid, from_⟩ hm
    by_cases hf : from_ = column
    · subst hf
      simp [serialStill, getElem?_of_mem_toList hm, ht, hc, hseq]
    · simp [hf]

theorem forwardTarget_self (target : GrantTarget) : forwardTarget s s target = target := by
  have htable : ∀ table : TableName, forwardTable s s table = table := by
    intro table
    unfold forwardTable
    cases hu : s.ids.tableUid table with
    | none => rfl
    | some uid =>
      have : s.ids.tables[uid]? = some table := uidOf_eq_some hu
      simp [this]
  cases target with
  | object o => simp [forwardTarget, htable]
  | routine | schema => rfl
  | sequence column =>
    unfold forwardTarget
    dsimp only
    rw [htable]
    cases hu : s.ids.columnUid column with
    | none => rfl
    | some uid =>
      have : s.ids.columns[uid]? = some column := uidOf_eq_some hu
      simp [this]

theorem mem_grantsBefore_self (h : Schema.GrantsSerial s.schema) {name : RoleName} (hrole : s.schema.roles[name]? = some role)
    (target : GrantTarget) (p : Permission) :
    p ∈ (grantsBefore s s role).held target ↔ p ∈ Grants.held (role.comparedGrants s.schema.tables) target := by
  have hstay : ∀ e ∈ (role.comparedGrants s.schema.tables).toList, droppedWithItsTable s s e.1 = false := by
    rintro ⟨t, permissions⟩ hm
    refine droppedWithItsTable_self fun column ht => ?_
    subst ht
    rcases mem_comparedGrants (mem_of_getElem?_eq (getElem?_of_mem_toList hm)) with hg | ⟨table, c, hc, he⟩
    · exact serialIn_of_serialColumn (h _ _ hrole _ hg)
    · cases he
      exact serialIn_of_mem_serialGrantColumns hc
  unfold grantsBefore
  have hempty : p ∉ Grants.held ∅ target := by simp [Grants.held]
  rw [filter_eq_self.2 fun e he => by simp [hstay e he], Grants.mem_held_foldl, or_iff_right hempty, Grants.mem_held]
  simp only [forwardTarget_self]

theorem diffGrant_self (dialect : ModuleDialect) (h : Schema.GrantsSerial s.schema) {name : RoleName}
    (hrole : s.schema.roles[name]? = some role) (detached : List GrantTarget) (target : GrantTarget) :
    diffGrant dialect s s [] name role (grantsBefore s s role) detached target = [] := by
  have hgone : targetDropped dialect s s [] target = false := by simp [targetDropped, takenObjects]
  have hheld := mem_grantsBefore_self h hrole target
  have hcreated : ([] : List Change).flatMap sequencesCreated = [] := rfl
  have hadded : (grantsAdded s [] role ((grantsBefore s s role).held target)
      (Grants.held (role.comparedGrants s.schema.tables) target) target).isEmpty = true := by
    have hnone := ExtTreeSet.filter_not_contains_eq_empty fun p => (hheld p).2
    unfold grantsAdded
    rw [hcreated, hnone]
    cases target <;> simp
  have hremoved : (grantsRemoved detached ((grantsBefore s s role).held target)
      (Grants.held (role.comparedGrants s.schema.tables) target) target).isEmpty = true := by
    have hnone := ExtTreeSet.filter_not_contains_eq_empty fun p => (hheld p).1
    unfold grantsRemoved
    rw [hnone]
    simp
  unfold diffGrant
  simp [hgone, hadded, hremoved]

theorem diffRoles_self (dialect : ModuleDialect) (h : Schema.GrantsSerial s.schema) : diffRoles dialect s s [] = [] := by
  unfold diffRoles
  rw [append_eq_nil_iff, flatMap_eq_nil_iff, flatMap_eq_nil_iff]
  constructor
  · rintro ⟨uid, name⟩ hm
    dsimp only
    rw [if_pos (contains_of_mem_toList hm)]
  · rintro ⟨uid, name⟩ hm
    dsimp only
    rw [getElem?_of_mem_toList hm]
    cases hrole : s.schema.roles[name]? with
    | none => rfl
    | some role =>
      dsimp only
      unfold diffRole
      simp [hrole, diffGrant_self dialect h hrole]

/-! ## The list -/

/-- A side as a comparison is given it: its identity file validates and describes its schema, without a
record of a rebuild, its types are as their constructors build them, and its grants on sequences have one. -/
structure Side.Settled (s : Side) : Prop where
  described : s.Described
  unrebuilt : s.ids.rebuilds = ∅
  spelled : Schema.Spelled s.schema
  sequences : Schema.GrantsSerial s.schema

/-- Nothing has changed on a side compared with itself. -/
theorem diffPartial_self (d : Differ) {s : Side} (h : s.Settled) : diffPartial d {} s s = [] := by
  have hrefused : rewriteErrors d s s = [] := lineageErrors_eq_nil.2 (by simp [h.unrebuilt])
  have hrebuilt : rebuiltTables d s s = [] := by simp [rebuiltTables, h.unrebuilt]
  unfold diffPartial
  rw [if_neg (by simp [hrefused]), if_neg (by simp [hrebuilt]), comparison_self]
  dsimp only
  rw [typeChanges_self d h.spelled, relinked_self d.dialect h.described]
  unfold finished
  simp only [diffReplicaIdentity_self, withModules_self d.modules h.described, diffRoles_self d.modules h.sequences,
    append_nil]
  unfold revokePublicExecution
  simp [dropParameterChanges]

/-- An engine with no packages that reads every definition as written and takes no partitioned table
through a rewrite. -/
def plainDiffer : Differ where
  dialect := plainDialect
  modules :=
    { normalizeDefinition := id
      captures := fun _ _ _ => false
      blockedBy := fun _ _ => []
      isSchemaBound := fun _ => false
      mayNameQualified := fun _ _ => true
      rebuildsModules := true
      createsPublicExecutableRoutines := true
      managesRoles := true }
  members := ⟨fun _ _ => none, fun _ _ _ => none⟩
  isPostgres := true
  qualifies _ _ _ := false

/-- A role that reads a table, its view and the sequence of its column. -/
def kindsUser : Role where
  grants := (((∅ : Grants).insert (.object kinds) ((∅ : ExtTreeSet Permission).insert .select)).insert
    (.object ⟨"app", "active"⟩) ((∅ : ExtTreeSet Permission).insert .select)).insert
      (.sequence (kinds.column "id")) ((∅ : ExtTreeSet Permission).insert .usage)

/-- The table of kinds with a serial column, and a type, a view and a role beside it. -/
def usedSide : Side :=
  ⟨{ tables := (∅ : ExtTreeMap TableName Table).insert kinds
        { kindsTable with columns := AList.singleton "id" { kindId with valueSource := .sequence { start := 1, increment := 1 } } }
     types := (∅ : ExtTreeMap TypeRef ManagedType).insert ⟨"app", "mood"⟩ (.enum ["sad", "glad"])
     modules := (∅ : ExtTreeMap ModuleId Module).insert (.named ⟨"app", "active"⟩)
       { kind := .view, definition := "SELECT id FROM app.kinds" }
     roles := (∅ : ExtTreeMap RoleName Role).insert "reader" kindsUser },
    { kindsIds with
      types := (∅ : ExtTreeMap Uid TypeRef).insert ⟨"y_mood"⟩ ⟨"app", "mood"⟩
      roles := (∅ : ExtTreeMap Uid RoleName).insert ⟨"r_reader"⟩ "reader" }⟩

theorem usedSide_settled : usedSide.Settled where
  described := Side.described_of_single rfl rfl rfl (by decide) (by decide) (by decide)
  unrebuilt := rfl
  spelled name ty base h hbase := by
    rcases getElem?_insert_eq_some.1 h with ⟨-, rfl⟩ | ⟨-, h⟩
    · cases hbase
    · simp at h
  sequences name role h column hcolumn := by
    rcases getElem?_insert_eq_some.1 h with ⟨-, rfl⟩ | ⟨-, h⟩
    · rcases mem_insert.1 hcolumn with heq | hcolumn
      · cases Std.LawfulEqOrd.eq_of_compare heq
        decide
      · simp [mem_insert] at hcolumn
    · simp at h

theorem usedSide_unchanged : usedSide.Settled ∧ diffPartial plainDiffer {} usedSide usedSide = [] :=
  ⟨usedSide_settled, diffPartial_self plainDiffer usedSide_settled⟩

/-- A role that may use the sequence of `app.kinds.id`, which has none. -/
def kindsReader : Role where
  grants := (∅ : Grants).insert (.sequence (kinds.column "id")) ((∅ : ExtTreeSet Permission).insert .usage)

def kindsReaderSide : Side :=
  ⟨{ kindsSide.schema with roles := (∅ : ExtTreeMap RoleName Role).insert "reader" kindsReader },
    { kindsIds with roles := (∅ : ExtTreeMap Uid RoleName).insert ⟨"r_reader"⟩ "reader" }⟩

theorem kindsReaderSide_described : kindsReaderSide.Described :=
  Side.described_of_single rfl rfl rfl (by decide) (by decide) (by decide)

/-- The grant on a sequence that is not there is planned again on every run: the base's is taken for one
that went with its column. Roles that pass their check have no such grant. -/
theorem diffPartial_self_ne_nil : kindsReaderSide.Described ∧ kindsReaderSide.ids.rebuilds = ∅ ∧
    Schema.Spelled kindsReaderSide.schema ∧ roleCheck kindsReaderSide.schema = [.notSerial "reader" (kinds.column "id")] ∧
      diffPartial plainDiffer {} kindsReaderSide kindsReaderSide ≠ [] := by
  refine ⟨kindsReaderSide_described, rfl, ?_, by decide, by decide +kernel⟩
  intro name ty base h
  simp [kindsReaderSide, kindsSide] at h

end Pbps.Diff
