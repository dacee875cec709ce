/-
Identities, modules, roles and grants of a plan under other role names. A dialect's modules are blocked by tables, columns and
other modules, and by no role. The grants of a role are compared as its name in the base is found, so one name stands for one
role there too.
-/
import Pbps.Roles.Passes

namespace Pbps

open Std (ExtTreeMap ExtTreeSet)
open List Option Std.ExtTreeMap

variable {f : RoleName → RoleName}

namespace Diff

/-- A dialect whose bound modules are blocked by no role: it has one answer for a change and for that change with other roles. -/
def ModuleDialect.BlindToRoles (dialect : ModuleDialect) : Prop :=
  ∀ (f : RoleName → RoleName) (schema : Schema) (change : Change),
    dialect.blockedBy (schema.mapRoles f) (change.mapRoles f) = dialect.blockedBy schema change

/-! ## Identities and modules -/

section Modules

variable (dialect : ModuleDialect) (base declared : Side) (plan : List Change)

theorem diffReplicaIdentity_mapRoles :
    diffReplicaIdentity (base.mapRoles f) (declared.mapRoles f) (plan.map (Change.mapRoles f)) =
      diffReplicaIdentity base declared plan := by
  have hadds : ∀ table identity, (plan.map (Change.mapRoles f)).any (addsIdentity table identity) =
      plan.any (addsIdentity table identity) := fun table identity => any_mapRoles plan fun c => by
    cases c
    case setPrimaryKey table from_ to_ nonclustered => cases to_ <;> rfl
    all_goals rfl
  have hdrops : ∀ on identity, (plan.map (Change.mapRoles f)).any (dropsIdentity on identity) =
      plan.any (dropsIdentity on identity) := fun on identity => any_mapRoles plan fun c => by
    cases c
    case setPrimaryKey table from_ to_ nonclustered => cases from_ <;> rfl
    all_goals rfl
  have htable : ∀ uid baseName declaredName (was table : Table),
      diffIdentity (plan.map (Change.mapRoles f)) uid baseName declaredName (was.mapRoles f) (table.mapRoles f) =
        diffIdentity plan uid baseName declaredName was table := by
    intro uid baseName declaredName was table
    unfold diffIdentity
    simp only [hadds, hdrops]
    rfl
  unfold diffReplicaIdentity
  refine flatMap_congr fun e _ => ?_
  rcases e with ⟨uid, declaredName⟩
  rw [base.schema_mapRoles,
    declared.schema_mapRoles,
    show (base.mapRoles f).ids.tables = base.ids.tables from rfl]
  simp only [Schema.getElem?_tables_mapRoles]
  cases base.ids.tables[uid]? with
  | none => rfl
  | some baseName =>
    dsimp only
    cases base.schema.tables[baseName]? with
    | none => rfl
    | some was =>
      cases declared.schema.tables[declaredName]? with
      | none => rfl
      | some table => exact htable uid baseName declaredName was table

variable (was : Schema) (dependents : ExtTreeSet ModuleId)

theorem splitDependents_mapRoles :
    splitDependents dependents (plan.map (Change.mapRoles f)) = (splitDependents dependents plan).map (Change.mapRoles f) := by
  unfold splitDependents
  rw [flatMap_map, map_flatMap]
  refine flatMap_congr fun c _ => ?_
  cases c
  case alterModule id module =>
    dsimp only [Change.mapRoles]
    split <;> rfl
  all_goals rfl

theorem special_splitDependents : special (splitDependents dependents plan) = special plan := by
  unfold splitDependents
  refine special_flatMap (fun c hc => ?_) fun c hc => ?_
  · split
    · split
      · exact quiet_rebuildModule.plain
      · simp [Change.isPlain]
    · simp [hc]
  · cases c <;> first | rfl | cases hc

theorem schemaBoundTeardown_mapRoles (hblind : dialect.BlindToRoles) (was now : Schema) :
    schemaBoundTeardown dialect (was.mapRoles f) (now.mapRoles f) (plan.map (Change.mapRoles f)) =
      schemaBoundTeardown dialect was now plan := by
  have hclose : ∀ fuel torn, closeTorn dialect (was.mapRoles f) fuel torn = closeTorn dialect was fuel torn := by
    intro fuel
    induction fuel with
    | zero => exact fun _ => rfl
    | succ fuel ih =>
      intro torn
      rw [closeTorn, closeTorn]
      simp only [ih]
      rfl
  unfold schemaBoundTeardown
  rw [flatMap_map, flatMap_congr fun c _ => hblind f was c, hclose]
  rfl

theorem tearDown_mapRoles (now : Schema) (id : ModuleId) :
    tearDown (was.mapRoles f) (now.mapRoles f) (plan.map (Change.mapRoles f)) id =
      (tearDown was now plan id).map (Change.mapRoles f) := by
  unfold tearDown
  rw [Schema.modules_mapRoles, Schema.modules_mapRoles, any_mapRoles plan fun c => by cases c <;> rfl,
    filter_mapRoles (fun c => by cases c <;> rfl)]
  split
  · split
    · rfl
    · exact quiet_rebuildModule.plain.append_map _
  · rfl

theorem special_tearDown (now : Schema) (id : ModuleId) : special (tearDown was now plan id) = special plan := by
  have hkept : ∀ c : Change, c.isPlain = false → (!isAlterOf id c) = true := by
    intro c hc
    cases c <;> first | rfl | cases hc
  unfold tearDown
  split
  · split
    · rfl
    · rw [special_append, special_filter hkept, special_of_plain quiet_rebuildModule.plain, append_nil]
  · rfl

theorem withModules_mapRoles (hblind : dialect.BlindToRoles) (rebinding : Rebinding) (also dependents : ExtTreeSet ModuleId) :
    withModules dialect (base.mapRoles f) (declared.mapRoles f) rebinding also dependents (plan.map (Change.mapRoles f)) =
      (withModules dialect base declared rebinding also dependents plan).map (Change.mapRoles f) := by
  have hrestate : ∀ plan : List Change,
      restateModules dialect (base.mapRoles f).schema (declared.mapRoles f).schema rebinding also dependents
          (plan.map (Change.mapRoles f)) =
        restateModules dialect base.schema declared.schema rebinding also dependents plan := by
    intro plan
    unfold restateModules
    rw [filterMap_mapRoles plan (q := changedModule) fun c => by cases c <;> rfl,
      filterMap_mapRoles plan (q := arrivingName) fun c => by cases c <;> rfl]
    rfl
  unfold withModules
  dsimp only
  rw [show diffModules dialect (base.mapRoles f).schema (declared.mapRoles f).schema
    (namesChangingHands (base.mapRoles f) (declared.mapRoles f)) =
      diffModules dialect base.schema declared.schema (namesChangingHands base declared) from rfl,
    (quiet_diffModules dialect).plain.append_map, hrestate, (quiet_restateModules dialect _).plain.append_map, splitDependents_mapRoles,
    base.schema_mapRoles,
    declared.schema_mapRoles, schemaBoundTeardown_mapRoles _ _ hblind]
  exact foldl_mapRoles (fun plan id => tearDown_mapRoles plan base.schema declared.schema id) _ _

theorem special_withModules (rebinding : Rebinding) (also dependents : ExtTreeSet ModuleId) :
    special (withModules dialect base declared rebinding also dependents plan) = special plan := by
  unfold withModules
  dsimp only
  rw [special_foldl (fun plan id => special_tearDown plan _ _ id), special_splitDependents, special_append, special_append,
    special_of_plain (quiet_diffModules dialect).plain, special_of_plain (quiet_restateModules dialect _).plain, append_nil,
    append_nil]

theorem revokePublicExecution_mapRoles (publicExecute : ExtTreeSet ModuleId) :
    revokePublicExecution dialect (was.mapRoles f) publicExecute (plan.map (Change.mapRoles f)) =
      revokePublicExecution dialect was publicExecute plan := by
  unfold revokePublicExecution
  rw [filterMap_mapRoles plan fun c => by
    cases c
    case createModule id module => cases id <;> rfl
    case alterModule id module => cases id <;> rfl
    all_goals rfl]
  rfl

theorem dropParameterChanges_mapRoles :
    dropParameterChanges (plan.map (Change.mapRoles f)) = (dropParameterChanges plan).map (Change.mapRoles f) := by
  unfold dropParameterChanges
  rw [filterMap_mapRoles plan fun c => by
    cases c
    case setPrimaryKey table from_ to_ nonclustered => cases to_ <;> rfl
    all_goals rfl]
  exact filter_mapRoles (fun c => by cases c <;> rfl) plan

theorem special_dropParameterChanges : special (dropParameterChanges plan) = special plan := by
  unfold dropParameterChanges
  refine special_filter fun c hc => ?_
  cases c <;> first | rfl | cases hc

end Modules

/-! ## Roles -/

section Roles

variable (dialect : ModuleDialect) (base declared : Side) (plan : List Change)

variable {roles : List RoleName} {name : RoleName}

theorem Schema.getElem?_roles_mapRoles (hf : InjOn f roles) {schema : Schema} (hkeys : schema.roles.keys ⊆ roles)
    (hname : name ∈ roles) : (schema.mapRoles f).roles[f name]? = schema.roles[name]? := by
  have hmem : ∀ e ∈ schema.roles.toList, e.1 ∈ roles := by
    rintro ⟨role, value⟩ he
    exact hkeys (ExtTreeMap.mem_keys.2 (mem_of_getElem?_eq (getElem?_of_mem_toList he)))
  have hnodup : ((schema.roles.toList.map fun e => (f e.1, e.2)).map Prod.fst).Nodup := by
    rw [List.map_map, show Prod.fst ∘ (fun e : RoleName × Role => (f e.1, e.2)) = f ∘ Prod.fst from rfl, ← List.map_map,
      map_fst_toList_eq_keys]
    exact nodup_keys.map_on fun a ha b hb => hf a (hkeys ha) b (hkeys hb)
  refine Option.ext fun value => ?_
  rw [show (schema.mapRoles f).roles = .ofList (schema.roles.toList.map fun e => (f e.1, e.2)) from rfl,
    getElem?_ofList_eq_some hnodup, List.mem_map, ← mem_toList_iff_getElem?_eq_some]
  constructor
  · rintro ⟨⟨role, value'⟩, he, heq⟩
    obtain ⟨hrole, rfl⟩ := Prod.mk.inj heq
    obtain rfl := hf _ (hmem _ he) _ hname hrole
    exact he
  · exact fun he => ⟨(name, value), he, rfl⟩

theorem Side.roles_keys_subset (side : Side) : side.schema.roles.keys ⊆ side.roles := fun _ h =>
  mem_append_left _ (mem_append_left _ h)

theorem Side.mem_roles_of_ids {side : Side} {uid : Uid} (h : side.ids.roles[uid]? = some name) : name ∈ side.roles :=
  mem_append_right _ (List.mem_map.2 ⟨(uid, name), mem_toList_iff_getElem?_eq_some.2 h, rfl⟩)

variable (schema : Schema) (role : Role)

theorem serialGrantColumns_mapRoles : serialGrantColumns (schema.mapRoles f).tables = serialGrantColumns schema.tables := by
  have hchain : ∀ fuel name, ancestorChain (schema.mapRoles f).tables fuel name =
      (ancestorChain schema.tables fuel name).map (List.map fun e => (e.1, e.2.mapRoles f)) := by
    intro fuel
    induction fuel with
    | zero => exact fun _ => rfl
    | succ fuel ih =>
      intro name
      rw [ancestorChain, ancestorChain, Schema.getElem?_tables_mapRoles]
      cases schema.tables[name]? with
      | none => rfl
      | some t =>
        dsimp only [map_some, bind_eq_bind, bind_some]
        rw [show (t.mapRoles f).partitionOf = t.partitionOf from rfl]
        cases t.partitionOf with
        | none => rfl
        | some of =>
          dsimp only
          rw [ih]
          cases ancestorChain schema.tables fuel of.parent <;> rfl
  funext table
  unfold serialGrantColumns
  rw [hchain, Schema.size_tables_mapRoles]
  cases ancestorChain schema.tables schema.tables.size table with
  | none => rfl
  | some chain =>
    rw [map_some, bind_some, bind_some, List.getLast?_map]
    cases chain.getLast? <;> rfl

theorem effectiveGrants_mapRoles : role.effectiveGrants (schema.mapRoles f).tables = role.effectiveGrants schema.tables := by
  unfold Role.effectiveGrants
  rw [serialGrantColumns_mapRoles]

theorem comparedGrants_mapRoles : role.comparedGrants (schema.mapRoles f).tables = role.comparedGrants schema.tables := by
  unfold Role.comparedGrants
  rw [effectiveGrants_mapRoles]

theorem detachedUsage_mapRoles : detachedUsage (base.mapRoles f) (plan.map (Change.mapRoles f)) = detachedUsage base plan := by
  have huids := filterMap_mapRoles (f := f) plan (q := detachedUid) fun c => by cases c <;> rfl
  funext role target
  unfold detachedUsage
  simp only [huids, base.schema_mapRoles, serialGrantColumns_mapRoles]
  rfl

theorem droppedWithItsTable_mapRoles :
    droppedWithItsTable (base.mapRoles f) (declared.mapRoles f) = droppedWithItsTable base declared := by
  have hserial : serialStill (declared.mapRoles f) = serialStill declared := by
    funext uid
    unfold serialStill
    rw [declared.schema_mapRoles]
    simp only [Schema.bind_tables_mapRoles declared.schema _ (g := fun t => t.columns.lookup _) fun _ => rfl]
    rfl
  funext target
  unfold droppedWithItsTable
  rw [hserial]
  rfl

theorem targetDropped_mapRoles : targetDropped dialect (base.mapRoles f) (declared.mapRoles f) (plan.map (Change.mapRoles f)) =
      targetDropped dialect base declared plan := by
  funext target
  unfold targetDropped takenObjects
  rw [filterMap_mapRoles plan (q := dropped) fun c => by cases c <;> rfl,
    filterMap_mapRoles plan (q := restated) fun c => by cases c <;> rfl]
  rfl

theorem dropRole_mapRoles (hf : InjOn f roles) (hbase : base.roles ⊆ roles) (uid : Uid) (hname : name ∈ roles) :
    dropRole dialect (base.mapRoles f) (declared.mapRoles f) (plan.map (Change.mapRoles f)) uid (f name) =
      (dropRole dialect base declared plan uid name).map (Change.mapRoles f) := by
  have hrole : (base.mapRoles f).schema.roles[f name]? = base.schema.roles[name]? :=
    Schema.getElem?_roles_mapRoles hf (Subset.trans (Side.roles_keys_subset base) hbase) hname
  unfold dropRole
  split
  · rfl
  · rw [hrole, detachedUsage_mapRoles, droppedWithItsTable_mapRoles, targetDropped_mapRoles,
      base.schema_mapRoles]
    cases base.schema.roles[name]? with
    | none => rfl
    | some held =>
      dsimp only
      rw [effectiveGrants_mapRoles, map_filterMap]
      refine filterMap_congr fun e _ => ?_
      rw [apply_ite (Option.map (Change.mapRoles f))]
      rfl

theorem diffGrant_mapRoles (name : RoleName) (role : Role) (before : Grants) (detached : List GrantTarget) (target : GrantTarget) :
    diffGrant dialect (base.mapRoles f) (declared.mapRoles f) (plan.map (Change.mapRoles f)) (f name) role before detached target =
      (diffGrant dialect base declared plan name role before detached target).map (Change.mapRoles f) := by
  have hcreated : (plan.map (Change.mapRoles f)).flatMap sequencesCreated = plan.flatMap sequencesCreated := by
    rw [flatMap_map]
    exact flatMap_congr fun c _ => by cases c <;> rfl
  have hadded : ∀ held wanted, grantsAdded (declared.mapRoles f) (plan.map (Change.mapRoles f)) role held wanted target =
      grantsAdded declared plan role held wanted target := by
    intro held wanted
    unfold grantsAdded
    rw [hcreated, declared.schema_mapRoles, serialGrantColumns_mapRoles]
  unfold diffGrant
  dsimp only
  rw [targetDropped_mapRoles, declared.schema_mapRoles, comparedGrants_mapRoles,
    hadded, map_append, apply_ite (List.map (Change.mapRoles f)), apply_ite (List.map (Change.mapRoles f))]
  rfl

variable (hf : InjOn f roles) (hbase : base.roles ⊆ roles)
include hf hbase

theorem diffRole_mapRoles (uid : Uid) {baseName : RoleName} (hbaseName : baseName ∈ roles) (hname : name ∈ roles) (role : Role) :
    diffRole dialect (base.mapRoles f) (declared.mapRoles f) (plan.map (Change.mapRoles f)) uid (f baseName) (f name) role =
      (diffRole dialect base declared plan uid baseName name role).map (Change.mapRoles f) := by
  have hrole : (base.mapRoles f).schema.roles[f baseName]? = base.schema.roles[baseName]? :=
    Schema.getElem?_roles_mapRoles hf (Subset.trans (Side.roles_keys_subset base) hbase) hbaseName
  have hbefore : grantsBefore (base.mapRoles f) (declared.mapRoles f) = grantsBefore base declared := by
    funext role
    unfold grantsBefore
    rw [droppedWithItsTable_mapRoles, base.schema_mapRoles, comparedGrants_mapRoles]
    rfl
  have hdetached : detachedTargets (base.mapRoles f) (declared.mapRoles f) (plan.map (Change.mapRoles f)) =
      detachedTargets base declared plan := by
    funext role
    unfold detachedTargets
    rw [droppedWithItsTable_mapRoles, detachedUsage_mapRoles,
      base.schema_mapRoles, comparedGrants_mapRoles]
    rfl
  have hrenamed : f baseName ≠ f name ↔ baseName ≠ name :=
    not_congr ⟨hf _ hbaseName _ hname, congrArg f⟩
  unfold diffRole
  dsimp only
  rw [hrole, hbefore, hdetached, declared.schema_mapRoles,
    comparedGrants_mapRoles, map_append, map_flatMap]
  refine congrArg₂ _ ?_ (flatMap_congr fun target _ => diffGrant_mapRoles ..)
  simp only [hrenamed]
  split <;> rfl

theorem diffRoles_mapRoles (hdeclared : declared.roles ⊆ roles) :
    diffRoles dialect (base.mapRoles f) (declared.mapRoles f) (plan.map (Change.mapRoles f)) =
      (diffRoles dialect base declared plan).map (Change.mapRoles f) := by
  have hids : ∀ side : Side, (side.mapRoles f).ids.roles.toList = side.ids.roles.toList.map fun e => (e.1, f e.2) :=
    fun _ => ExtTreeMap.toList_map
  unfold diffRoles
  rw [hids, hids, flatMap_map, flatMap_map, map_append, map_flatMap, map_flatMap]
  refine congrArg₂ _ (flatMap_congr fun e he => ?_) (flatMap_congr fun e he => ?_)
  · rcases e with ⟨uid, name⟩
    have hname : name ∈ roles := hbase (Side.mem_roles_of_ids (getElem?_of_mem_toList he))
    dsimp only
    rw [show (declared.mapRoles f).ids.roles.contains uid = declared.ids.roles.contains uid from ExtTreeMap.contains_map,
      apply_ite (List.map (Change.mapRoles f)), dropRole_mapRoles dialect base declared plan hf hbase uid hname]
    rfl
  · rcases e with ⟨uid, name⟩
    have hname : name ∈ roles := hdeclared (Side.mem_roles_of_ids (getElem?_of_mem_toList he))
    have hrole : (declared.mapRoles f).schema.roles[f name]? = declared.schema.roles[name]? :=
      Schema.getElem?_roles_mapRoles hf (Subset.trans (Side.roles_keys_subset declared) hdeclared) hname
    have hbaseName : (base.mapRoles f).ids.roles[uid]? = base.ids.roles[uid]?.map f := ExtTreeMap.getElem?_map
    dsimp only
    rw [hrole, hbaseName]
    cases declared.schema.roles[name]? with
    | none => rfl
    | some role =>
      cases hbaseRole : base.ids.roles[uid]? with
      | none =>
        dsimp only [map_none]
        unfold createRole
        rw [map_append, List.map_map, apply_ite (List.map (Change.mapRoles f))]
        rfl
      | some baseName =>
        dsimp only [map_some]
        exact diffRole_mapRoles dialect base declared plan hf hbase uid (hbase (Side.mem_roles_of_ids hbaseRole)) hname role

end Roles

end Diff

end Pbps
