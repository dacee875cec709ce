/-
The tables the changes of a plan carry: those it creates, and those it attaches to a parent or detaches from one. A mapping
of roles leaves them as they are declared, with the roles their policies apply to.
-/
import Pbps.Roles.Commutes
import Pbps.Diff.Unchanged

namespace Pbps

open Std (ExtTreeMap ExtTreeSet)
open List

namespace Diff

/-! ## What a change carries -/

def Change.load : Change → Option (Table ⊕ TableName)
  | .createTable _ _ table _ _ => some (.inl table)
  | .detachPartition _ _ _ _ shape => some (.inl shape)
  | .attachPartition _ _ _ _ _ shape => some (.inl shape)
  | .rebuildPartitionedTable table => some (.inr table)
  | _ => none

/-- The roles a change names, and those the policies of a table it carries apply to. -/
def Change.roles : Change → List RoleName
  | .createRole _ name => [name]
  | .dropRole _ name members => name :: members
  | .renameRole _ from_ to_ => [from_, to_]
  | .grant role _ _ | .revoke role _ _ => [role]
  | .createPolicy _ _ policy _ | .dropPolicy _ _ policy => policy.roles
  | .createTable _ _ table _ _ => table.policyRoles
  | .detachPartition _ _ _ _ shape => shape.policyRoles
  | .attachPartition _ _ _ _ _ shape => shape.policyRoles
  | _ => []

theorem Change.load_of_plain {c : Change} (h : c.isPlain = true) : c.load = none := by
  cases c <;> first | rfl | cases h

def loads (l : List Change) : List (Table ⊕ TableName) := l.filterMap Change.load

@[simp] theorem loads_append (l m : List Change) : loads (l ++ m) = loads l ++ loads m := filterMap_append

variable {l : List Change}

theorem loads_of_none (h : ∀ c ∈ l, c.load = none) : loads l = [] := filterMap_eq_nil_iff.2 h

theorem loads_of_plain (h : Plain l) : loads l = [] := loads_of_none fun c hc => Change.load_of_plain (h c hc)

theorem loads_special (l : List Change) : loads (special l) = loads l := by
  induction l with
  | nil => rfl
  | cons c l ih =>
    unfold loads special at ih ⊢
    rw [filter_cons, filterMap_cons]
    cases hc : c.isPlain with
    | true =>
      rw [Change.load_of_plain hc]
      exact ih
    | false =>
      rw [Bool.not_false, if_pos rfl, filterMap_cons, ih]

theorem loads_congr {m : List Change} (h : special l = special m) : loads l = loads m := by
  rw [← loads_special l, h, loads_special]

/-! ## The tables of a plan -/

section Tables

variable (dialect : Dialect) (base declared : Side) (renames : Renames) (readBack : Option Schema)

def detachable (baseName : TableName) (baseTable declaredTable : Table) (of : PartitionOf) : Bool :=
  (base.schema.tables[of.parent]?).any fun parent =>
    (detachedNames dialect (renames.apply parent of.parent) (renames.apply baseTable baseName) declaredTable
      (((base.ids.tableUid of.parent).bind (parentShape dialect base declared)).any ParentShape.pending)).isOk

def attachable (baseName declaredName : TableName) (baseTable declaredTable : Table) (of : PartitionOf) : Bool :=
  (attached dialect baseName declaredName baseTable declaredTable of base.schema readBack
    (((declared.ids.tableUid of.parent).bind (parentShape dialect base declared)).map fun s => (s.oldName, s.pending, s.goal))).isOk

/-- Whether a kept table is carried by a change: it is detached from its parent, or attached to one. -/
def carriedKept (baseName declaredName : TableName) (baseTable declaredTable : Table) : Bool :=
  match baseTable.partitionOf, declaredTable.partitionOf with
  | some of, none =>
    declaredTable.partitionBy.isNone && detachable dialect base declared renames baseName baseTable declaredTable of
  | none, some of => attachable dialect base declared readBack baseName declaredName baseTable declaredTable of
  | _, _ => false

def carriedCreated : List Table :=
  declared.ids.tables.toList.filterMap fun (uid, name) =>
    if base.ids.tables.contains uid then none else (declared.schema.tables[name]?).map fun t => { t with foreignKeys := ∅ }

def carriedMoved : List Table :=
  declared.ids.tables.toList.filterMap fun (uid, declaredName) => do
    let baseName ← base.ids.tables[uid]?
    let baseTable ← base.schema.tables[baseName]?
    let declaredTable ← declared.schema.tables[declaredName]?
    if carriedKept dialect base declared renames readBack baseName declaredName baseTable declaredTable then some declaredTable
    else none

def carriedTables : List Table :=
  carriedCreated base declared ++ carriedMoved dialect base declared (renamesOf base.ids declared.ids) readBack

theorem loads_cons {A : Type} {h : A → Option Table} {a : A} {l : List A} {m n : List Change}
    (hm : loads m = (h a).toList.map .inl) (hn : loads n = (l.filterMap h).map .inl) :
    loads (m ++ n) = ((a :: l).filterMap h).map .inl := by
  rw [loads_append, hm, hn, filterMap_cons]
  cases h a <;> rfl

theorem loads_forEach {A : Type} {g : A → Out} {h : A → Option Table} (hg : ∀ a, loads (g a).changes = (h a).toList.map .inl)
    (l : List A) : loads (Out.forEach l g).changes = (l.filterMap h).map .inl := by
  induction l with
  | nil => rfl
  | cons a l ih => exact loads_cons (hg a) ih

theorem loads_createdTables : loads (createdTables base declared).changes = (carriedCreated base declared).map .inl := by
  have hcreate : ∀ uid name (t : Table),
      loads (createTable base declared uid name t).changes = [.inl { t with foreignKeys := ∅ }] := by
    intro uid name t
    have hkeys : loads (Out.forEach t.foreignKeys.toList fun e => .change (.addForeignKey name e.1 e.2)).changes = [] :=
      loads_of_plain (plain_forEach.2 fun _ _ => by simp [Change.isPlain])
    have hpolicies : loads (Out.forEach t.rowPolicies.toList fun e => .change (.createPolicy name e.1 e.2 .created)).changes = [] := by
      refine loads_of_none fun c hc => ?_
      obtain ⟨e, -, he⟩ := Out.mem_forEach.1 hc
      rw [mem_singleton.1 he]
      rfl
    have hexclude : loads (Out.forEach t.exclude.keys fun n => .err (.exclusionRefused name n)).changes = [] :=
      loads_of_plain (plain_forEach.2 fun _ _ => plain_nil)
    have hnil : ∀ {a b : List (Table ⊕ TableName)}, a = [] → b = [] → a ++ b = [] := fun ha hb => append_eq_nil_iff.2 ⟨ha, hb⟩
    unfold createTable
    dsimp only
    simp only [Out.append_changes, loads_append]
    exact congrArg (· ++ _) (hnil (hnil (hnil (hnil hkeys (loads_of_plain (quiet_insertRows _ _).plain)) hpolicies)
      (loads_of_plain (plain_changeIf.2 fun _ => rfl))) hexclude)
  refine loads_forEach (fun e => ?_) _
  rcases e with ⟨uid, name⟩
  dsimp only
  split
  · rfl
  · cases declared.schema.tables[name]? with
    | none => rfl
    | some t => exact hcreate uid name t

/-- A kept table is loaded where its declaration is carried, and nowhere else. -/
theorem loads_diffKeptTable (uid : Uid) (baseName declaredName : TableName) (baseTable declaredTable : Table) (plan : List Change) :
    loads (diffKeptTable dialect base declared uid baseName declaredName baseTable declaredTable renames readBack plan).changes =
      if carriedKept dialect base declared renames readBack baseName declaredName baseTable declaredTable then [.inl declaredTable]
      else [] := by
  have hpolicies : loads (diffPolicies baseName declaredName baseTable declaredTable).changes = [] := by
    refine loads_of_none fun c hc => ?_
    obtain ⟨name, -, hname⟩ := Out.mem_forEach.1 hc
    dsimp only at hname
    split at hname
    · cases hname
    · rw [Out.append_changes, mem_append] at hname
      rcases hname with h | h
      · cases hwas : baseTable.rowPolicies[name]? with
        | none =>
          rw [hwas] at h
          cases h
        | some policy =>
          rw [hwas] at h
          rw [mem_singleton.1 h]
          rfl
      · cases hnow : declaredTable.rowPolicies[name]? with
        | none =>
          rw [hnow] at h
          cases h
        | some policy =>
          rw [hnow] at h
          rw [mem_singleton.1 h]
          rfl
  have hstanding : ∀ plan, loads (diffStandingTable dialect base declared uid baseName declaredName baseTable declaredTable renames
      plan).changes = [] := fun plan => loads_of_plain (each_diffStandingTable _ _ _ _ _ _ _ _ admits_plain)
  have hdetach : ∀ of, loads (detachPartition dialect base declared uid baseName declaredName baseTable declaredTable renames
      of).changes = if detachable dialect base declared renames baseName baseTable declaredTable of then [.inl declaredTable]
        else [] := by
    intro of
    unfold detachPartition detachable
    cases base.schema.tables[of.parent]? with
    | none => rfl
    | some parent =>
      simp only [Option.any_some]
      split
      · next names hnames =>
        simp only [hnames]
        rfl
      · next what hnames =>
        simp only [hnames]
        rfl
  have hattach : ∀ of, loads (attachPartition dialect base declared uid baseName declaredName baseTable declaredTable renames
      readBack of).changes = if attachable dialect base declared readBack baseName declaredName baseTable declaredTable of then
        [.inl declaredTable] else [] := by
    intro of
    unfold attachPartition attachable
    dsimp only
    split
    · next a ha =>
      rw [ha]
      simp only [Out.append_changes, loads_append]
      rw [loads_of_plain (quiet_attached _ _ _ _ _ ha).plain, loads_of_plain (quiet_diffConstraints _ _ _).plain,
        loads_of_plain (quiet_diffSettings _ _ _).2.2.1.plain, loads_of_plain (quiet_diffSettings _ _ _).2.2.2.plain,
        loads_of_plain (quiet_diffPartitionColumns _ _ _ _).plain,
        loads_of_plain (plain_forEach.2 fun _ _ => (quiet_attachDefault _ _ _ _ _).plain),
        loads_of_plain (plain_forEach.2 fun _ _ => by simp [Change.isPlain])]
      rfl
    · next what ha =>
      rw [ha]
      rfl
  unfold diffKeptTable carriedKept
  dsimp only
  rw [Out.append_changes, Out.append_changes, loads_append, loads_append, hpolicies,
    loads_of_plain (quiet_diffRowSecurity _ _ _ _).plain, nil_append, nil_append]
  cases baseTable.partitionOf with
  | none =>
    cases declaredTable.partitionOf with
    | none => exact hstanding _
    | some of => exact hattach of
  | some was =>
    cases declaredTable.partitionOf with
    | none =>
      dsimp only
      cases declaredTable.partitionBy.isNone with
      | true => exact hdetach was
      | false => exact hstanding _
    | some of => exact hstanding _

theorem loads_keptTables : ∀ (l : List (Uid × TableName)) (plan : List Change),
    loads (keptTables dialect base declared renames readBack plan l).changes =
      (l.filterMap fun (uid, declaredName) => do
        let baseName ← base.ids.tables[uid]?
        let baseTable ← base.schema.tables[baseName]?
        let declaredTable ← declared.schema.tables[declaredName]?
        if carriedKept dialect base declared renames readBack baseName declaredName baseTable declaredTable then
          some declaredTable
        else none).map .inl
  | [], _ => rfl
  | (uid, declaredName) :: rest, plan => by
    rw [keptTables]
    refine loads_cons ?_ (loads_keptTables rest _)
    unfold keptTable
    dsimp only
    cases base.ids.tables[uid]? with
    | none => rfl
    | some baseName =>
      dsimp only [Option.bind_eq_bind, Option.bind_some]
      rw [Out.append_changes, loads_append, loads_of_plain (plain_renameTable _ _ _ _), nil_append]
      cases base.schema.tables[baseName]? with
      | none => rfl
      | some baseTable =>
        dsimp only [Option.bind_some]
        cases declared.schema.tables[declaredName]? with
        | none => rfl
        | some declaredTable =>
          dsimp only [Option.bind_some]
          rw [loads_diffKeptTable]
          split <;> rfl

theorem loads_diffTables (plan : List Change) :
    loads (diffTables dialect base declared (renamesOf base.ids declared.ids) readBack plan).changes =
      (carriedTables dialect base declared readBack).map .inl := by
  unfold diffTables carriedTables
  dsimp only
  rw [Out.append_changes, Out.append_changes, loads_append, loads_append, loads_of_plain (quiet_droppedTables _ _ _).plain,
    loads_createdTables, loads_keptTables, nil_append, map_append]
  rfl

end Tables

/-! ## The loads of a plan -/

section Plan

variable (d : Differ) (request : Request) (base declared : Side)

theorem loads_relinked (dialect : Dialect) (readBack : Option Schema) {before : List Change} (h : Plain before) :
    loads (relinked dialect base declared readBack before) = (carriedTables dialect base declared readBack).map .inl := by
  have htables : loads (tableChanges dialect base declared readBack before) =
      (carriedTables dialect base declared readBack).map .inl := by
    unfold tableChanges
    dsimp only
    rw [loads_congr (special_rebuildDefaults _ _ _), loads_congr (special_map (fun _ => isPlain_clearExternalPartitions _)
      fun _ => clearExternalPartitions_special _), loads_congr (special_splitTightenings _), loads_append, loads_of_plain h,
      loads_diffTables, nil_append]
  unfold relinked withRetypedDependents
  dsimp only
  rw [loads_append, loads_append, loads_append, loads_append, htables,
    loads_of_plain (quiet_recreateRetypedDependents _ _ _ _ _).plain,
    loads_of_plain (quiet_recreateReferencedForeignKeys _ _ _ _).plain, loads_of_plain (quiet_rebindForeignKeys _ _ _).plain,
    loads_of_plain (quiet_unlinkCycles _ _).plain, append_nil, append_nil, append_nil, append_nil]

theorem loads_flatMap {A : Type} {l : List A} {g : A → List Change} (h : ∀ a ∈ l, loads (g a) = []) : loads (l.flatMap g) = [] :=
  loads_of_none fun c hc => by
    obtain ⟨a, ha, hmem⟩ := mem_flatMap.1 hc
    exact filterMap_eq_nil_iff.1 (h a ha) c hmem

theorem loads_ite {p : Prop} [Decidable p] {c : Change} (h : c.load = none) : loads (if p then [c] else []) = [] := by
  split
  · exact loads_of_none fun _ hc => mem_singleton.1 hc ▸ h
  · rfl

theorem loads_diffRoles (dialect : ModuleDialect) (plan : List Change) : loads (diffRoles dialect base declared plan) = [] := by
  have hdrop : ∀ uid name, loads (dropRole dialect base declared plan uid name) = [] := by
    intro uid name
    unfold dropRole
    split
    · rfl
    · split
      · rfl
      · refine loads_of_none fun c hc => ?_
        obtain ⟨e, -, he⟩ := mem_filterMap.1 hc
        dsimp only at he
        obtain ⟨-, he⟩ | ⟨-, he⟩ := ite_eq_iff.1 he <;> cases he
        rfl
  have hcreate : ∀ uid name role, loads (createRole dialect uid name role) = [] := by
    intro uid name role
    unfold createRole
    rw [loads_append, loads_ite rfl, nil_append]
    refine loads_of_none fun c hc => ?_
    obtain ⟨e, -, rfl⟩ := mem_map.1 hc
    rfl
  have hrole : ∀ uid baseName name role, loads (diffRole dialect base declared plan uid baseName name role) = [] := by
    intro uid baseName name role
    unfold diffRole
    dsimp only
    rw [loads_append, loads_ite rfl, nil_append]
    refine loads_flatMap fun target _ => ?_
    unfold diffGrant
    dsimp only
    rw [loads_append, ← ite_not, loads_ite rfl, ← ite_not, loads_ite rfl, nil_append]
  unfold diffRoles
  rw [loads_append, loads_flatMap, loads_flatMap, nil_append]
  · rintro ⟨uid, name⟩ -
    dsimp only
    split
    · rfl
    · split
      · exact hcreate ..
      · exact hrole ..
  · rintro ⟨uid, name⟩ -
    dsimp only
    split
    · rfl
    · exact hdrop ..

theorem loads_finished (plan : List Change) : loads (finished d request base declared plan) = loads plan := by
  unfold finished
  dsimp only
  rw [loads_congr (special_dropParameterChanges _), loads_append, loads_append, loads_diffRoles,
    loads_congr (special_withModules _ _ _ _ _ _ _), loads_append, loads_of_plain (quiet_diffReplicaIdentity _ _ _).plain,
    loads_of_plain (quiet_revokePublicExecution _ _).plain, append_nil, append_nil, append_nil]

theorem loads_diffPartial (hread : rewriteErrors d base declared = []) : loads (diffPartial d request base declared) =
    if rebuiltTables d base declared ≠ [] then (rebuiltTables d base declared).map .inr
    else (carriedTables d.dialect (comparison d request base declared).1 declared request.readBack).map .inl := by
  unfold diffPartial
  rw [hread, isEmpty_nil, Bool.not_true, if_neg Bool.false_ne_true]
  split
  · unfold loads
    rw [filterMap_map]
    exact congrFun filterMap_eq_map _
  · dsimp only
    rw [loads_finished, loads_relinked _ _ _ _ (each_typeChanges _ _ _ _ admits_plain (quiet_comparison base declared d request))]

theorem diffPartial_of_refused (h : rewriteErrors d base declared ≠ []) : diffPartial d request base declared = [] := by
  unfold diffPartial
  rw [if_pos (by simpa using h)]

/-- The live tables approved rewrites lead to. -/
def approvedRewrites : List TableName :=
  declared.ids.rebuilds.toList.filterMap fun (_, r) => declared.ids.tables[r.replacementRoot]?

theorem rebuiltTables_eq : rebuiltTables d base declared = (approvedRewrites declared).filter (d.qualifies base declared) := rfl

variable {base declared} in
theorem rewrite_mem_loads (hread : rewriteErrors d base declared = []) {name : TableName} (h : name ∈ approvedRewrites declared) :
    .inr name ∈ loads (diffPartial d request base declared) ↔ d.qualifies base declared name = true := by
  rw [loads_diffPartial _ _ _ _ hread]
  split
  · rw [mem_map, rebuiltTables_eq]
    constructor
    · rintro ⟨name', hname, heq⟩
      obtain rfl := Sum.inr.inj heq
      exact (mem_filter.1 hname).2
    · exact fun hname => ⟨name, mem_filter.2 ⟨h, hname⟩, rfl⟩
  · next hnone =>
    rw [ne_eq, not_not, rebuiltTables_eq, filter_eq_nil_iff] at hnone
    constructor
    · intro hmem
      obtain ⟨t, -, heq⟩ := mem_map.1 hmem
      cases heq
    · exact fun hname => absurd hname (hnone name h)

variable {base declared} in
/-- Where nothing is refused and something would be if other rewrites qualified, the plan holds a rewrite. -/
theorem exists_rewrite (hread : rewriteErrors d base declared = []) {qualifies : TableName → Bool}
    (hother : lineageErrors d.isPostgres qualifies base.ids declared.ids ≠ []) :
    ∃ name, .inr name ∈ loads (diffPartial d request base declared) := by
  obtain ⟨e, he, name, hname, hqualifies, -⟩ := exists_qualifies hread hother
  exact ⟨name, (rewrite_mem_loads d request hread (mem_filterMap.2 ⟨e, he, hname⟩)).2 hqualifies⟩

end Plan

end Diff

/-! ## Mapped changes -/

open Diff

/-- The mapping leaves every policy of the table as it is. -/
def Table.KeepsRoles (f : RoleName → RoleName) (t : Table) : Prop :=
  ∀ (name : String) (policy : RowPolicy), t.rowPolicies[name]? = some policy → policy.mapRoles f = policy

variable {f : RoleName → RoleName} {role : RoleName}

theorem Table.mapRoles_eq_self {t : Table} : t.mapRoles f = t ↔ t.KeepsRoles f := by
  constructor
  · intro h name policy hpolicy
    have hmapped : (t.mapRoles f).rowPolicies[name]? = some (policy.mapRoles f) := by
      rw [show (t.mapRoles f).rowPolicies = t.rowPolicies.map fun _ => RowPolicy.mapRoles f from rfl, ExtTreeMap.getElem?_map,
        hpolicy]
      rfl
    rw [h, hpolicy] at hmapped
    exact (Option.some_inj.1 hmapped).symm
  · intro h
    have hpolicies : (t.rowPolicies.map fun _ => RowPolicy.mapRoles f) = t.rowPolicies := by
      refine ExtTreeMap.ext_getElem? fun name => ?_
      rw [ExtTreeMap.getElem?_map]
      cases hpolicy : t.rowPolicies[name]? with
      | none => rfl
      | some policy => rw [Option.map_some, h name policy hpolicy]
    exact congrArg (fun p => { t with rowPolicies := p }) hpolicies

theorem RowPolicy.mem_roles_mapRoles {policy : RowPolicy} (h : role ∈ (policy.mapRoles f).roles) :
    ∃ role' ∈ policy.roles, f role' = role := by
  unfold RowPolicy.mapRoles RowPolicy.roles at h
  unfold RowPolicy.roles
  cases hto : policy.to_ with
  | roles names =>
    rw [hto] at h
    rw [ExtTreeSet.mem_toList, ExtTreeSet.mem_ofList, contains_iff_mem] at h
    exact mem_map.1 h
  | public_ =>
    rw [hto] at h
    dsimp only at h
    rw [hto] at h
    cases h

theorem Table.mem_policyRoles_mapRoles {t : Table} (h : role ∈ (t.mapRoles f).policyRoles) :
    ∃ role' ∈ t.policyRoles, f role' = role := by
  obtain ⟨⟨name, policy⟩, he, hrole⟩ := mem_flatMap.1 h
  rw [show (t.mapRoles f).rowPolicies = t.rowPolicies.map fun _ => RowPolicy.mapRoles f from rfl, ExtTreeMap.toList_map,
    mem_map] at he
  obtain ⟨⟨name', policy'⟩, he, heq⟩ := he
  cases heq
  obtain ⟨role', hrole', hname⟩ := RowPolicy.mem_roles_mapRoles hrole
  exact ⟨role', mem_flatMap.2 ⟨_, he, hrole'⟩, hname⟩

theorem Diff.Change.mem_roles_mapRoles {c : Change} (h : role ∈ (c.mapRoles f).roles) : ∃ role' ∈ c.roles, f role' = role := by
  cases c
  case createTable => exact Table.mem_policyRoles_mapRoles h
  case detachPartition => exact Table.mem_policyRoles_mapRoles h
  case attachPartition => exact Table.mem_policyRoles_mapRoles h
  case createPolicy => exact RowPolicy.mem_roles_mapRoles h
  case dropPolicy => exact RowPolicy.mem_roles_mapRoles h
  case createRole uid name => exact ⟨name, mem_singleton.2 rfl, (mem_singleton.1 h).symm⟩
  case dropRole uid name members => exact mem_map.1 (show role ∈ (name :: members).map f from h)
  case renameRole uid from_ to_ => exact mem_map.1 (show role ∈ [from_, to_].map f from h)
  case grant name target permissions => exact ⟨name, mem_singleton.2 rfl, (mem_singleton.1 h).symm⟩
  case revoke name target permissions => exact ⟨name, mem_singleton.2 rfl, (mem_singleton.1 h).symm⟩
  all_goals cases h

namespace RoleMapping

variable (mapping : RoleMapping)

theorem load_change (c : Change) : (mapping.change c).load = c.load := by cases c <;> rfl

theorem loads_changes (plan : List Change) : loads (mapping.changes plan) = loads plan := by
  unfold loads changes
  rw [filterMap_map]
  exact congrArg (plan.filterMap ·) (funext (load_change mapping))

theorem change_eq_mapRoles_iff (c : Change) :
    mapping.change c = c.mapRoles mapping.name ↔ ∀ t, c.load = some (.inl t) → t.KeepsRoles mapping.name := by
  have hcarried : ∀ t : Table, t = t.mapRoles mapping.name ↔
      ∀ u, some (Sum.inl (β := TableName) t) = some (.inl u) → u.KeepsRoles mapping.name := by
    intro t
    rw [eq_comm, Table.mapRoles_eq_self]
    exact ⟨fun h u hu => Sum.inl.inj (Option.some_inj.1 hu) ▸ h, fun h => h t rfl⟩
  cases c
  case createTable uid name table besideDefault movesAtMost =>
    refine Iff.trans ?_ (hcarried table)
    exact ⟨fun h => (Change.createTable.inj h).2.2.1, fun h => congrArg (Change.createTable uid name · besideDefault movesAtMost) h⟩
  case detachPartition uid table parent names shape =>
    refine Iff.trans ?_ (hcarried shape)
    exact ⟨fun h => (Change.detachPartition.inj h).2.2.2.2, fun h => congrArg (Change.detachPartition uid table parent names) h⟩
  case attachPartition uid table parent bound key shape =>
    refine Iff.trans ?_ (hcarried shape)
    exact ⟨fun h => (Change.attachPartition.inj h).2.2.2.2.2, fun h => congrArg (Change.attachPartition uid table parent bound key) h⟩
  all_goals exact ⟨fun _ t h => (nomatch h), fun _ => rfl⟩

/-- What mapping a plan's changes is for: they are the plan of the mapped sides, in some order, with every role they name under the
run's name. So none of them names a role that is mapped, where the run's names are of no such role. -/
structure Commutes (plan mapped : List Change) : Prop where
  same : (mapping.changes plan).Perm mapped
  named : ∀ c ∈ plan, mapping.change c = c.mapRoles mapping.name
  unmapped : (∀ role ∈ mapping.created, mapping.toRun[role]? = none) →
    ∀ c ∈ mapping.changes plan, ∀ role ∈ c.roles, mapping.toRun[role]? = none

section Commutes

variable {mapping : RoleMapping}

variable {plan mapped : List Change}

theorem commutes_of (hcreated : ∀ role run : RoleName, mapping.toRun[role]? = some run → run ∈ mapping.created)
    (hmapped : mapped = plan.map (Change.mapRoles mapping.name)) (hkept : ∀ t, .inl t ∈ loads plan → t.KeepsRoles mapping.name) :
    mapping.Commutes plan mapped := by
  have hnamed : ∀ c ∈ plan, mapping.change c = c.mapRoles mapping.name := fun c hc =>
    (change_eq_mapRoles_iff mapping c).2 fun t ht => hkept t (mem_filterMap.2 ⟨c, hc, ht⟩)
  refine ⟨?_, hnamed, fun hfresh c hc role hrole => ?_⟩
  · rw [hmapped, changes, map_congr_left hnamed]
  · obtain ⟨c', hc', rfl⟩ := mem_map.1 hc
    rw [hnamed c' hc'] at hrole
    obtain ⟨role', -, rfl⟩ := Change.mem_roles_mapRoles hrole
    cases hrun : mapping.toRun[role']? with
    | none =>
      rw [name, ExtTreeMap.getD_eq_getD_getElem?, hrun]
      exact hrun
    | some run =>
      rw [name, ExtTreeMap.getD_eq_getD_getElem?, hrun]
      exact hfresh run (hcreated role' run hrun)

theorem Commutes.kept (h : mapping.Commutes plan mapped) {t : Table} (ht : .inl t ∈ loads plan) :
    t.KeepsRoles mapping.name := by
  obtain ⟨c, hc, hload⟩ := mem_filterMap.1 ht
  exact (change_eq_mapRoles_iff mapping c).1 (h.named c hc) t hload

theorem Commutes.mem_loads (h : mapping.Commutes plan mapped) (load : Table ⊕ TableName) :
    load ∈ loads plan ↔ load ∈ loads mapped := by
  rw [← loads_changes mapping plan]
  exact (h.same.filterMap _).mem_iff

def side (mapping : RoleMapping) (side : Side) : Side := ⟨mapping.schema side.schema, mapping.ids side.ids⟩

/-- Mapping a plan's changes commutes with planning exactly where the rewrites are refused on both pairs of sides or on neither
and, where they are not, the same rewrites qualify under the run's names and, where there is none, the policies of the tables the
plan creates, attaches and detaches keep the names of their roles. -/
theorem commutes_diffPartial_iff (d : Differ) (hblind : d.modules.BlindToRoles) (request : Request) (base declared : Side)
    (names : List RoleName) (label token : String) (keeps : RoleName → Bool)
    (happart : ∀ role ∈ base.roles ++ declared.roles, (generate names label token keeps).toRun[role]? = none →
      role ∉ (generate names label token keeps).created) :
    (generate names label token keeps).Commutes (diffPartial d request base declared)
        (diffPartial d request ((generate names label token keeps).side base) ((generate names label token keeps).side declared)) ↔
      (rewriteErrors d ((generate names label token keeps).side base) ((generate names label token keeps).side declared) = [] ↔
          rewriteErrors d base declared = []) ∧ (rewriteErrors d base declared = [] → (∀ name ∈ approvedRewrites declared,
            d.qualifies ((generate names label token keeps).side base) ((generate names label token keeps).side declared) name =
              d.qualifies base declared name) ∧ ((∀ name ∈ approvedRewrites declared, d.qualifies base declared name = false) →
            ∀ t ∈ carriedTables d.dialect (comparison d request base declared).1 declared request.readBack,
              t.KeepsRoles (generate names label token keeps).name)) := by
  have hinj := name_inj happart
  have hcreated : ∀ role run : RoleName, (generate names label token keeps).toRun[role]? = some run →
      run ∈ (generate names label token keeps).created := fun _ _ => mem_created
  generalize generate names label token keeps = mapping at *
  have happroved : approvedRewrites (mapping.side declared) = approvedRewrites declared := rfl
  have hlineage : ∀ qualifies : TableName → Bool,
      lineageErrors d.isPostgres qualifies (mapping.side base).ids (mapping.side declared).ids = [] ↔
        lineageErrors d.isPostgres qualifies base.ids declared.ids = [] :=
    lineageErrors_mapRoles hinj
      (Subset.trans (subset_append_right _ _) (subset_append_right _ _)) d.isPostgres
  constructor
  · intro h
    have hrefused : rewriteErrors d (mapping.side base) (mapping.side declared) = [] ↔ rewriteErrors d base declared = [] := by
      constructor
      · intro hread
        by_contra hne
        obtain ⟨name, hname⟩ := exists_rewrite d request hread (mt (hlineage _).1 hne)
        rw [← h.mem_loads, diffPartial_of_refused _ _ _ _ hne] at hname
        cases hname
      · intro hread
        by_contra hne
        obtain ⟨name, hname⟩ := exists_rewrite d request hread (mt (hlineage _).2 hne)
        rw [h.mem_loads, diffPartial_of_refused _ _ _ _ hne] at hname
        cases hname
    refine ⟨hrefused, fun hread => ⟨fun name hname => ?_, fun hnone t ht => h.kept ?_⟩⟩
    · have hplanned := rewrite_mem_loads d request hread hname
      have hmapped := rewrite_mem_loads d request (hrefused.2 hread) (happroved ▸ hname)
      rw [Bool.eq_iff_iff]
      exact hmapped.symm.trans ((h.mem_loads _).symm.trans hplanned)
    · have hrebuilt : rebuiltTables d base declared = [] := by
        rw [rebuiltTables_eq, filter_eq_nil_iff]
        intro name hname
        rw [hnone name hname]
        exact Bool.false_ne_true
      rw [loads_diffPartial _ _ _ _ hread, if_neg (by simp [hrebuilt])]
      exact mem_map.2 ⟨t, ht, rfl⟩
  · rintro ⟨hrefused, hkept⟩
    by_cases hread : rewriteErrors d base declared = []
    · obtain ⟨hsame, hkept⟩ := hkept hread
      have hrewrites : rebuiltTables d (mapping.side base) (mapping.side declared) = rebuiltTables d base declared :=
        filter_congr hsame
      refine commutes_of hcreated (diffPartial_mapRoles d request base declared hblind hinj hrefused hrewrites) fun t ht => ?_
      rw [loads_diffPartial _ _ _ _ hread] at ht
      split at ht
      · obtain ⟨name, -, heq⟩ := mem_map.1 ht
        cases heq
      · next hnone =>
        rw [ne_eq, not_not, rebuiltTables_eq, filter_eq_nil_iff] at hnone
        obtain ⟨u, hu, heq⟩ := mem_map.1 ht
        obtain rfl := Sum.inl.inj heq
        exact hkept (fun name hname => Bool.eq_false_iff.2 (hnone name hname)) _ hu
    · rw [diffPartial_of_refused _ _ _ _ hread, diffPartial_of_refused _ _ _ _ (mt hrefused.1 hread)]
      exact commutes_of hcreated rfl fun t ht => by cases ht

end Commutes

/-! ## A table with a policy -/

def docs : TableName := ⟨"app", "docs"⟩

def readBy (role : RoleName) : RowPolicy where
  command := .select
  to_ := .roles ((∅ : ExtTreeSet RoleName).insert role)
  using_ := some "true"

def docsTable (role : RoleName) : Table where
  rowPolicies := (∅ : ExtTreeMap String RowPolicy).insert "read" (readBy role)

def docsSide (role : RoleName) : Side :=
  ⟨{ tables := (∅ : ExtTreeMap TableName Table).insert docs (docsTable role) },
    { tables := (∅ : ExtTreeMap Uid TableName).insert ⟨"t_docs"⟩ docs }⟩

def twoRoles : RoleMapping := generate ["reader", "writer"] "pbps_rehearsal" "tok" fun _ => false

/-- A policy that comes to be another role's is mapped as it is planned. -/
theorem commutes_policy_change : twoRoles.Commutes (diffPartial plainDiffer {} (docsSide "reader") (docsSide "writer"))
      (diffPartial plainDiffer {} (twoRoles.side (docsSide "reader")) (twoRoles.side (docsSide "writer"))) := by
  have hkept : carriedTables plainDiffer.dialect (comparison plainDiffer {} (docsSide "reader") (docsSide "writer")).1
      (docsSide "writer") none = [] := by decide +kernel
  refine (commutes_diffPartial_iff plainDiffer (fun _ _ _ => rfl) {} (docsSide "reader") (docsSide "writer") ["reader", "writer"]
    "pbps_rehearsal" "tok" (fun _ => false) (by decide +kernel)).2 ⟨Iff.rfl, fun _ => ⟨fun _ _ => rfl, fun _ t ht => ?_⟩⟩
  rw [show carriedTables _ _ _ _ = [] from hkept] at ht
  cases ht

/-- A table that is created comes with its policy, and the policy's role keeps its name in the mapped change. -/
theorem not_commutes_created_table : ¬ twoRoles.Commutes (diffPartial plainDiffer {} ⟨{}, {}⟩ (docsSide "reader"))
      (diffPartial plainDiffer {} (twoRoles.side ⟨{}, {}⟩) (twoRoles.side (docsSide "reader"))) := by
  intro h
  have hcarried : loads (diffPartial plainDiffer {} ⟨{}, {}⟩ (docsSide "reader")) = [.inl (docsTable "reader")] := by
    rw [loads_diffPartial _ _ _ _ rfl]
    rfl
  have hpolicy : (readBy "reader").mapRoles twoRoles.name = readBy "reader" :=
    h.kept (hcarried ▸ mem_singleton_self _) "read" (readBy "reader") ExtTreeMap.getElem?_insert_self
  exact absurd hpolicy (by decide +kernel)

end RoleMapping

end Pbps
