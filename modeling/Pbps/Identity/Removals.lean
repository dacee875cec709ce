/-
The removal inventory: `identity/removals.rs`, and `resolve_with_baseline` of `identity.rs`. A baseline object that the
declarations no longer hold is a removal; a resolution is refused while one of them has no recorded drop.
-/
import Pbps.Diff.Columns
import Pbps.Identity.Guarantees

namespace Pbps.Identity

open Std (ExtTreeMap ExtTreeSet)
open Pbps.Diff (Side)
open List (mem_append mem_filter mem_map)
open Option Std.ExtTreeMap

/-- A baseline object removed from management. A computed column has no uid. -/
inductive Removal where
  | table (uid : Uid) (name : TableName)
  | column (uid : Uid) (name : ColumnRef)
  | computedColumn (name : ColumnRef)
  | role (uid : Uid) (name : RoleName)
  | type (uid : Uid) (name : TypeRef)
  | extension (uid : Uid) (name : ObjectLocalName)
  deriving DecidableEq, Repr

/-! ## Names with their pending renames -/

section Pending

variable {N : Type} [Ord N] [Std.TransOrd N] [DecidableEq N] (names : ExtTreeMap Uid N) (declared : List N)
  (intents : List (N × N))

/-- The renames that could still match: from a name that is not declared to a declared one that is not known. Of two renames
of one name the later counts. -/
def pendingRenames : ExtTreeMap N N :=
  .ofList (intents.filter fun e => e.1 ∉ declared ∧ e.2 ∈ declared ∧ e.2 ∉ names.toList.map Prod.snd)

/-- `project_pending_renames`: the names of a section with the renames that are pending. -/
def projectPendingRenames : ExtTreeMap Uid N :=
  names.map fun _ name => (pendingRenames names declared intents)[name]?.getD name

end Pending

variable (intents : List Intent)

def renamedTables : List (TableName × TableName) :=
  intents.filterMap fun | .renameTable from_ to_ => some (from_, to_) | _ => none

def renamedColumns : List (ColumnRef × ColumnRef) :=
  intents.filterMap fun | .renameColumn table from_ to_ => some (table.column from_, table.column to_) | _ => none

def renamedRoles : List (RoleName × RoleName) :=
  intents.filterMap fun | .renameRole from_ to_ => some (from_, to_) | _ => none

def renamedTypes : List (TypeRef × TypeRef) :=
  intents.filterMap fun | .renameType from_ to_ => some (from_, to_) | _ => none

def declaredColumns (schema : Schema) : List ColumnRef :=
  schema.tables.toList.flatMap fun e => e.2.columns.keys.map e.1.column

def followTable (local_ : IdsFile) (tables : ExtTreeMap Uid TableName) (c : ColumnRef) : ColumnRef :=
  match (local_.tableUid c.table).bind (tables[·]?) with
  | some table => { c with table }
  | none => c

/-- The mapping that the inventory reads: existing names and explicit renames. -/
def projectNames (local_ : IdsFile) (schema : Schema) (intents : List Intent) : IdsFile :=
  let tables := projectPendingRenames local_.tables schema.tables.keys (renamedTables intents)
  { local_ with
    tables
    columns := projectPendingRenames (local_.columns.map fun _ c => followTable local_ tables c) (declaredColumns schema)
      (renamedColumns intents)
    roles := projectPendingRenames local_.roles schema.roles.keys (renamedRoles intents)
    types := projectPendingRenames local_.types schema.types.keys (renamedTypes intents) }

/-! ## The inventory -/

section Inventory

variable (baseline : Side) (names : IdsFile) (schema : Schema)

def declaredTable (uid : Uid) : Option (TableName × Table) :=
  names.tables[uid]?.bind fun name => schema.tables[name]?.map (name, ·)

def removedTables : List (Uid × TableName) :=
  baseline.ids.tables.toList.filter fun e => baseline.schema.tables.contains e.2 && (declaredTable names schema e.1).isNone

/-- The baseline tables that are declared, by the names the baseline has for them. -/
def declaredTables : ExtTreeMap TableName (TableName × Table) :=
  .ofList (baseline.ids.tables.toList.filterMap fun e => (declaredTable names schema e.1).map (e.2, ·))

/-- Whether a baseline column is looked for: the columns of a removed table go with it, and those of a table attached as a
partition are its parent's. -/
def looksFor (c : ColumnRef) : Bool :=
  !((declaredTables baseline names schema)[c.table]?).any (·.2.partitionOf.isSome) &&
    declaresColumn baseline.schema c.table c.name && c.table ∉ (removedTables baseline names schema).map Prod.snd

def removedColumn (e : Uid × ColumnRef) : Option Removal :=
  if looksFor baseline names schema e.2 && !(names.columns[e.1]?).any (fun c => declaresColumn schema c.table c.name) then
    let table := ((declaredTables baseline names schema)[e.2.table]?.map Prod.fst).getD e.2.table
    some (.column e.1 (table.column e.2.name))
  else none

/-- The computed columns of a baseline table that are gone: their names are their identity. -/
def removedComputed (e : Uid × TableName) : List Removal :=
  if e.2 ∈ (removedTables baseline names schema).map Prod.snd then []
  else match baseline.schema.tables[e.2]? with
    | none => []
    | some table => (table.computed.keys.filter fun column =>
        !(declaredTable names schema e.1).any fun t => t.2.computed.contains column || column ∈ t.2.columns).map fun column =>
          .computedColumn ((names.tables[e.1]?.getD e.2).column column)

def removedRoles : List (Uid × RoleName) :=
  baseline.ids.roles.toList.filter fun e =>
    baseline.schema.roles.contains e.2 && !(names.roles[e.1]?).any schema.roles.contains

/-- A package is immutable by name, so there is no rename to project; only the mapping is asked. -/
def removedExtensions : List (Uid × ObjectLocalName) :=
  baseline.ids.extensions.toList.filter fun e => baseline.schema.extensions.contains e.2 && !names.extensions.contains e.1

def removedTypes : List (Uid × TypeRef) :=
  baseline.ids.types.toList.filter fun e =>
    baseline.schema.types.contains e.2 && !(names.types[e.1]?).any schema.types.contains

/-- What the declarations hold no longer, over a mapping that is projected already. -/
def removalsOf : List Removal :=
  (removedTables baseline names schema).map (fun e => .table e.1 e.2) ++
    baseline.ids.columns.toList.filterMap (removedColumn baseline names schema) ++
    baseline.ids.tables.toList.flatMap (removedComputed baseline names schema) ++
    (removedRoles baseline names schema).map (fun e => .role e.1 e.2) ++
    (removedExtensions baseline names).map (fun e => .extension e.1 e.2) ++
    (removedTypes baseline names schema).map fun e => .type e.1 e.2

end Inventory

/-- `inventory`: the baseline objects that the declarations hold no longer. -/
def inventory (baseline : Side) (local_ : IdsFile) (schema : Schema) (intents : List Intent) : List Removal :=
  removalsOf baseline (projectNames local_ schema intents) schema

/-! ## Resolution against a baseline -/

def Removal.blocker (tombstones : ExtTreeMap Uid Tombstone) : Removal → Option Blocker
  | .table uid name => if tombstones.contains uid then none else some (.dropTableNeedsReason name)
  | .column uid name => if tombstones.contains uid then none else some (.dropColumnNeedsReason name)
  | .role uid name => if tombstones.contains uid then none else some (.dropRoleNeedsReason name)
  | .type uid name => if tombstones.contains uid then none else some (.dropTypeNeedsReason name)
  | .extension uid name => if tombstones.contains uid then none else some (.dropExtensionNeedsReason name)
  | .computedColumn _ => none

/-- `resolve_with_baseline`. -/
def resolveWithBaseline (src : UidSource) (declared : Schema) (ids : IdsFile) (intents : List Intent) (annotationCount : Nat)
    (baseline : Side) (ctx : Context) : Except (List Blocker) Resolution := do
  let resolved ← resolveWithAnnotations src declared ids intents annotationCount ctx
  let blockers := (inventory baseline resolved.ids declared []).filterMap (Removal.blocker resolved.ids.tombstones)
  if blockers = [] then return resolved else throw blockers

/-! ## What the inventory says -/

section Said

variable {baseline : Side} {names local_ : IdsFile} {schema : Schema}

variable {u : Uid} {t : TableName}

theorem declaredTable_eq_some {table : Table} :
    declaredTable names schema u = some (t, table) ↔ names.tables[u]? = some t ∧ schema.tables[t]? = some table := by
  rw [declaredTable, bind_eq_some_iff]
  constructor
  · rintro ⟨n, hn, ht⟩
    obtain ⟨table', htable, heq⟩ := map_eq_some_iff.1 ht
    cases heq
    exact ⟨hn, htable⟩
  · rintro ⟨hn, htable⟩
    exact ⟨t, hn, map_eq_some_iff.2 ⟨table, htable, rfl⟩⟩

theorem mem_removedTables : (u, t) ∈ removedTables baseline names schema ↔
    baseline.ids.tables[u]? = some t ∧ t ∈ baseline.schema.tables ∧ declaredTable names schema u = none := by
  rw [removedTables, mem_filter, mem_toList_iff_getElem?_eq_some, Bool.and_eq_true, contains_iff_mem,
    isNone_iff_eq_none]

theorem declaresColumn_eq_true {n : ColumnName} :
    declaresColumn schema t n = true ↔ ∃ table, schema.tables[t]? = some table ∧ n ∈ table.columns := by
  simp [declaresColumn, any_eq_true]

theorem mem_declaredTables {p : TableName × Table} (h : (declaredTables baseline names schema)[t]? = some p) :
    ∃ u : Uid, baseline.ids.tables[u]? = some t ∧ declaredTable names schema u = some p := by
  obtain ⟨⟨u, t'⟩, hu, hp⟩ := List.mem_filterMap.1 (mem_of_getElem?_ofList h)
  obtain ⟨q, hq, heq⟩ := map_eq_some_iff.1 hp
  cases heq
  exact ⟨u, mem_toList_iff_getElem?_eq_some.1 hu, hq⟩

theorem projectPendingRenames_nil {N : Type} [Ord N] [Std.TransOrd N] [Std.LawfulEqOrd N] [DecidableEq N]
    (names : ExtTreeMap Uid N) (declared : List N) : projectPendingRenames names declared [] = names := by
  ext u n
  rw [projectPendingRenames, getElem?_map]
  simp [pendingRenames]

theorem projectNames_nil : projectNames local_ schema [] = local_ := by
  have hcolumns : (local_.columns.map fun _ c => followTable local_ local_.tables c) = local_.columns := by
    ext u c
    rw [getElem?_map]
    have hfollow : ∀ c, followTable local_ local_.tables c = c := by
      intro c
      unfold followTable
      split
      · next t ht =>
        obtain ⟨v, hv, ht⟩ := bind_eq_some_iff.1 ht
        rw [uidOf_eq_some hv] at ht
        cases ht
        rfl
      · rfl
    simp [hfollow]
  simp only [projectNames, renamedTables, renamedColumns, renamedRoles, renamedTypes, List.filterMap_nil,
    projectPendingRenames_nil, hcolumns]

end Said

/-! ## Nothing is dropped in silence -/

section Silence

variable {src : UidSource} {declared : Schema} {ids : IdsFile} {intents : List Intent} {k : Nat} {baseline : Side}
  {ctx : Context} {r : Resolution}

theorem resolveWithBaseline_eq_ok : resolveWithBaseline src declared ids intents k baseline ctx = .ok r ↔
    resolveWithAnnotations src declared ids intents k ctx = .ok r ∧
      ∀ x ∈ removalsOf baseline r.ids declared, x.blocker r.ids.tombstones = none := by
  unfold resolveWithBaseline
  rw [Except.bind_eq_ok_iff]
  constructor
  · rintro ⟨resolved, hresolved, h⟩
    dsimp only at h
    split at h
    · next hnone =>
      cases h
      rw [inventory, projectNames_nil, List.filterMap_eq_nil_iff] at hnone
      exact ⟨hresolved, hnone⟩
    · cases h
  · rintro ⟨hresolved, hnone⟩
    refine ⟨r, hresolved, ?_⟩
    dsimp only
    rw [if_pos (by rwa [inventory, projectNames_nil, List.filterMap_eq_nil_iff])]
    rfl

section

variable (h : ∀ x ∈ removalsOf baseline r.ids declared, x.blocker r.ids.tombstones = none)

include h

variable {u : Uid}

theorem table_blocks {t : TableName} (ht : (u, t) ∈ removedTables baseline r.ids declared) : u ∈ r.ids.tombstones := by
  have hmem : Removal.table u t ∈ removalsOf baseline r.ids declared := by
    simp only [removalsOf, mem_append]
    exact .inl (.inl (.inl (.inl (.inl (List.mem_map.2 ⟨_, ht, rfl⟩)))))
  have := h _ hmem
  simpa [Removal.blocker] using this

theorem column_blocks {c c' : ColumnRef} (hc : baseline.ids.columns[u]? = some c)
    (hgone : removedColumn baseline r.ids declared (u, c) = some (.column u c')) : u ∈ r.ids.tombstones := by
  have hmem : Removal.column u c' ∈ removalsOf baseline r.ids declared := by
    simp only [removalsOf, mem_append]
    refine .inl (.inl (.inl (.inl (.inr (List.mem_filterMap.2 ⟨(u, c), ?_, hgone⟩)))))
    exact mem_toList_iff_getElem?_eq_some.2 hc
  have := h _ hmem
  simpa [Removal.blocker] using this

theorem role_blocks {n : RoleName} (hn : (u, n) ∈ removedRoles baseline r.ids declared) : u ∈ r.ids.tombstones := by
  have hmem : Removal.role u n ∈ removalsOf baseline r.ids declared := by
    simp only [removalsOf, mem_append]
    exact .inl (.inl (.inr (List.mem_map.2 ⟨_, hn, rfl⟩)))
  have := h _ hmem
  simpa [Removal.blocker] using this

theorem type_blocks {n : TypeRef} (hn : (u, n) ∈ removedTypes baseline r.ids declared) : u ∈ r.ids.tombstones := by
  have hmem : Removal.type u n ∈ removalsOf baseline r.ids declared := by
    simp only [removalsOf, mem_append]
    exact .inr (List.mem_map.2 ⟨_, hn, rfl⟩)
  have := h _ hmem
  simpa [Removal.blocker] using this

end

theorem any_contains {N V : Type} [Ord N] [Std.TransOrd N] [Std.LawfulEqOrd N] {name : Option N} {declared : ExtTreeMap N V} :
    name.any declared.contains = true ↔ ∃ n, name = some n ∧ n ∈ declared := by
  cases name with
  | none => simp
  | some n => simp [contains_iff_mem]

/-- Everything that the baseline's mapping and its schema both hold is live under a declared name, or retired with a
tombstone; or it is a column whose table is removed, or declared as a partition. -/
theorem resolveWithBaseline_accounts (h : resolveWithBaseline src declared ids intents k baseline ctx = .ok r) :
    (∀ (u : Uid) t, baseline.ids.tables[u]? = some t → t ∈ baseline.schema.tables →
      (∃ t', r.ids.tables[u]? = some t' ∧ t' ∈ declared.tables) ∨ u ∈ r.ids.tombstones) ∧
    (∀ (u : Uid) n, baseline.ids.types[u]? = some n → n ∈ baseline.schema.types →
      (∃ n', r.ids.types[u]? = some n' ∧ n' ∈ declared.types) ∨ u ∈ r.ids.tombstones) ∧
    (∀ (u : Uid) n, baseline.ids.roles[u]? = some n → n ∈ baseline.schema.roles →
      (∃ n', r.ids.roles[u]? = some n' ∧ n' ∈ declared.roles) ∨ u ∈ r.ids.tombstones) ∧
    ∀ (u : Uid) c table, baseline.ids.columns[u]? = some c → baseline.schema.tables[c.table]? = some table →
      c.name ∈ table.columns →
      (∃ c' table', r.ids.columns[u]? = some c' ∧ declared.tables[c'.table]? = some table' ∧ c'.name ∈ table'.columns) ∨
      u ∈ r.ids.tombstones ∨ ∃ v : Uid, baseline.ids.tables[v]? = some c.table ∧
        ((v ∈ r.ids.tombstones ∧ ∀ t', r.ids.tables[v]? = some t' → t' ∉ declared.tables) ∨
          ∃ t' table', r.ids.tables[v]? = some t' ∧ declared.tables[t']? = some table' ∧ table'.partitionOf.isSome) := by
  obtain ⟨-, hnone⟩ := resolveWithBaseline_eq_ok.1 h
  refine ⟨fun u t hu ht => ?_, fun u n hu hn => ?_, fun u n hu hn => ?_, fun u c table hu htable hcolumn => ?_⟩
  · cases hd : declaredTable r.ids declared u with
    | some p => exact .inl ⟨p.1, (declaredTable_eq_some.1 hd).1, mem_of_getElem?_eq (declaredTable_eq_some.1 hd).2⟩
    | none => exact .inr (table_blocks hnone (mem_removedTables.2 ⟨hu, ht, hd⟩))
  · by_cases hlive : (r.ids.types[u]?).any declared.types.contains = true
    · exact .inl (any_contains.1 hlive)
    · refine .inr (type_blocks hnone (n := n) (mem_filter.2 ⟨mem_toList_iff_getElem?_eq_some.2 hu, ?_⟩))
      simp only [contains_iff_mem.2 hn, Bool.eq_false_iff.2 hlive, Bool.not_false, Bool.and_self]
  · by_cases hlive : (r.ids.roles[u]?).any declared.roles.contains = true
    · exact .inl (any_contains.1 hlive)
    · refine .inr (role_blocks hnone (n := n) (mem_filter.2 ⟨mem_toList_iff_getElem?_eq_some.2 hu, ?_⟩))
      simp only [contains_iff_mem.2 hn, Bool.eq_false_iff.2 hlive, Bool.not_false, Bool.and_self]
  · -- The four tests that a removed column passes, one by one.
    by_cases hattached : ((declaredTables baseline r.ids declared)[c.table]?).any (·.2.partitionOf.isSome) = true
    · obtain ⟨p, hp, hpart⟩ := (any_eq_true _ _).1 hattached
      obtain ⟨v, hv, hd⟩ := mem_declaredTables hp
      obtain ⟨ht', htable'⟩ := declaredTable_eq_some.1 hd
      exact .inr (.inr ⟨v, hv, .inr ⟨p.1, p.2, ht', htable', hpart⟩⟩)
    by_cases hremoved : c.table ∈ (removedTables baseline r.ids declared).map Prod.snd
    · obtain ⟨⟨v, t⟩, hv, rfl⟩ := List.mem_map.1 hremoved
      obtain ⟨hvt, -, hd⟩ := mem_removedTables.1 hv
      refine .inr (.inr ⟨v, hvt, .inl ⟨table_blocks hnone hv, fun t' ht' hmem => ?_⟩⟩)
      obtain ⟨table', htable'⟩ := mem_iff_exists.1 hmem
      rw [declaredTable_eq_some.2 ⟨ht', htable'⟩] at hd
      cases hd
    by_cases hlive : (r.ids.columns[u]?).any (fun c => declaresColumn declared c.table c.name) = true
    · obtain ⟨c', hc', hdeclared⟩ := (any_eq_true _ _).1 hlive
      obtain ⟨table', htable', hname⟩ := declaresColumn_eq_true.1 hdeclared
      exact .inl ⟨c', table', hc', htable', hname⟩
    · have hheld : declaresColumn baseline.schema c.table c.name = true := declaresColumn_eq_true.2 ⟨table, htable, hcolumn⟩
      have hgone : removedColumn baseline r.ids declared (u, c) = some (.column u
          ((((declaredTables baseline r.ids declared)[c.table]?.map Prod.fst).getD c.table).column c.name)) := by
        rw [removedColumn, looksFor]
        simp only [Bool.eq_false_iff.2 hattached, hheld, hremoved, Bool.eq_false_iff.2 hlive, Bool.not_false, not_false_eq_true,
          decide_true, Bool.and_self, if_true]
      exact .inr (.inl (column_blocks hnone hu hgone))

/-! ### A table dropped with a reason -/

namespace Retired

def usersTable : TableName := ⟨"app", "users"⟩

def usersIds : IdsFile where
  tables := (∅ : ExtTreeMap Uid TableName).insert ⟨"t_users"⟩ usersTable

def usersBaseline : Side where
  schema := { tables := (∅ : ExtTreeMap TableName Table).insert usersTable {} }
  ids := usersIds

theorem usersTable_retired : ∃ r, resolveWithBaseline longSource {} usersIds [.dropTable usersTable "unused"] 0 usersBaseline
    opsContext = .ok r ∧ ⟨"t_users"⟩ ∈ r.ids.tombstones := by
  obtain ⟨r, hr, -⟩ := exists_of_toOption (x := resolveWithBaseline longSource {} usersIds [.dropTable usersTable "unused"] 0
    usersBaseline opsContext) (f := fun _ => ()) (b := ()) (by decide)
  refine ⟨r, hr, ?_⟩
  obtain ⟨t', -, ht'⟩ | h := (resolveWithBaseline_accounts hr).1 ⟨"t_users"⟩ usersTable (by decide) (by decide)
  · exact absurd ht' not_mem_empty
  · exact h

end Retired

end Silence

end Pbps.Identity
