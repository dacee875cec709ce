/-
Role mapping and planning. A comparison of two sides under the run's names makes the changes of the comparison of the sides,
with every role they name under the run's name, those in the tables they carry too.
-/
import Pbps.Identity.Valid
import Pbps.Roles.Grants

namespace Pbps

open Std (ExtTreeMap ExtTreeSet)
open List Std.ExtTreeMap

variable {f : RoleName → RoleName}

/-! ## The records of a file -/

namespace IdsFile

theorem chain_mapRoles (ids : IdsFile) (turns : Nat) (key : Uid) (record : Rebuild) :
    (ids.mapRoles f).chain turns key record = ids.chain turns key record := by
  have hloop : ∀ turns link later, (ids.mapRoles f).chainFrom turns link later = ids.chainFrom turns link later := by
    intro turns
    induction turns with
    | zero => intro _ _; rfl
    | succ turns ih =>
      intro link later
      unfold chainFrom
      rw [show (ids.mapRoles f).rebuildInto link.1 = ids.rebuildInto link.1 from rfl]
      cases ids.rebuildInto link.1 with
      | none => rfl
      | some previous => exact ih previous _
  exact hloop turns _ _

theorem isLive_mapRoles (ids : IdsFile) : (ids.mapRoles f).isLive = ids.isLive := by
  funext uid
  simp [isLive, mapRoles]

theorem validate_mapRoles {ids : IdsFile} {roles : List RoleName} (hf : InjOn f roles)
    (hroles : ids.roles.toList.map Prod.snd ⊆ roles) : (ids.mapRoles f).validate = .ok () ↔ ids.validate = .ok () := by
  have hlisted : ∀ {u : Uid} {role}, ids.roles[u]? = some role → role ∈ roles := fun h =>
    hroles (List.mem_map.2 ⟨_, mem_toList_iff_getElem?_eq_some.2 h, rfl⟩)
  have hspelled : SpelledOnce id (ids.mapRoles f).roles ↔ SpelledOnce id ids.roles := by
    simp only [SpelledOnce, mapRoles, ExtTreeMap.getElem?_map, Option.map_eq_some_iff]
    constructor
    · intro h u v a b hu hv hab
      exact h u v (f a) (f b) ⟨a, hu, rfl⟩ ⟨b, hv, rfl⟩ (congrArg f hab)
    · rintro h u v _ _ ⟨a, hu, rfl⟩ ⟨b, hv, rfl⟩ hab
      exact h u v a b hu hv (hf a (hlisted hu) b (hlisted hv) hab)
  have hkinds : (∀ u : Uid, u ∈ (ids.mapRoles f).roles → u.kind = .role) ↔ ∀ u : Uid, u ∈ ids.roles → u.kind = .role := by
    simp [mapRoles]
  rw [validate_eq_ok, validate_eq_ok]
  constructor
  · intro h
    exact { h with
      kinds := { h.kinds with roles := hkinds.1 h.kinds.roles }
      apart := isLive_mapRoles (f := f) ids ▸ h.apart
      roles := hspelled.1 h.roles }
  · intro h
    exact { h with
      kinds := { h.kinds with roles := hkinds.2 h.kinds.roles }
      apart := (isLive_mapRoles ids).symm ▸ h.apart
      roles := hspelled.2 h.roles }

end IdsFile

/-- What the records refuse does not depend on what the roles are called. -/
theorem lineageErrors_mapRoles {base declared : IdsFile} {roles : List RoleName} (hf : InjOn f roles)
    (hroles : declared.roles.toList.map Prod.snd ⊆ roles) (postgres : Bool) (qualifies : TableName → Bool) :
    lineageErrors postgres qualifies (base.mapRoles f) (declared.mapRoles f) = [] ↔
      lineageErrors postgres qualifies base declared = [] := by
  have hlink : ∀ key record, linkError postgres qualifies (base.mapRoles f) (declared.mapRoles f) key record =
      linkError postgres qualifies base declared key record := by
    intro key record
    unfold linkError
    rw [IdsFile.chain_mapRoles]
    rfl
  rw [lineageErrors_eq_nil, lineageErrors_eq_nil, IdsFile.validate_mapRoles hf hroles]
  simp only [hlink]
  exact Iff.rfl

namespace Diff

/-! ## The roles of what is compared -/

section Compared

variable (base desired : Side) (hints : Hints)

theorem Schema.namedRoles_insert_subset {schema : Schema} {name : TableName} {t u : Table} (hname : schema.tables[name]? = some t)
    (ht : u.rowPolicies = t.rowPolicies) : { schema with tables := schema.tables.insert name u }.namedRoles ⊆ schema.namedRoles := by
  intro role hrole
  rcases mem_append.1 hrole with h | h
  · exact mem_append_left _ h
  · obtain ⟨⟨n, v⟩, he, hpolicy⟩ := mem_flatMap.1 h
    refine mem_append_right _ (mem_flatMap.2 ?_)
    rcases getElem?_insert_eq_some.1 (getElem?_of_mem_toList he) with ⟨rfl, rfl⟩ | ⟨-, hv⟩
    · refine ⟨(n, t), mem_toList_iff_getElem?_eq_some.2 hname, ?_⟩
      unfold Table.policyRoles at hpolicy ⊢
      rwa [← ht]
    · exact ⟨(n, v), mem_toList_iff_getElem?_eq_some.2 hv, hpolicy⟩

theorem namedRoles_replace_subset (schema : Schema) (text : String) (target : ExpressionTarget) :
    (target.replace schema text).namedRoles ⊆ schema.namedRoles := by
  cases target with
  | columnDefault uid column =>
    unfold ExpressionTarget.replace
    dsimp only
    cases hname : schema.tables[column.table]? with
    | none => exact Subset.refl _
    | some t =>
      dsimp only
      split
      · exact Subset.refl _
      · exact Schema.namedRoles_insert_subset hname rfl
  | check uid table name =>
    unfold ExpressionTarget.replace
    dsimp only
    cases hname : schema.tables[table]? with
    | none => exact Subset.refl _
    | some t => exact Schema.namedRoles_insert_subset hname rfl

theorem namedRoles_retainedComparison_subset (steps : List Change) :
    (retainedComparison base desired hints steps).1.namedRoles ⊆ base.schema.namedRoles :=
  retainedComparison_rec (P := fun schema _ => schema.namedRoles ⊆ base.schema.namedRoles) base desired hints (Subset.refl _)
    fun h _ => Subset.trans (namedRoles_replace_subset ..) h

theorem namedRoles_forwardMovedTypes_subset (members : Members) (schema : Schema)
    (facts : ExtTreeMap ObjectLocalName (List ProviderMember)) :
    (forwardMovedTypes members base desired schema facts).namedRoles ⊆ schema.namedRoles := by
  unfold forwardMovedTypes
  dsimp only
  split
  · exact Subset.refl _
  · unfold Schema.namedRoles
    dsimp only
    rw [toList_map, flatMap_map]
    exact Subset.refl _

theorem comparison_roles_subset (d : Differ) (request : Request) :
    (comparison d request base desired).1.roles ⊆ base.roles := by
  unfold comparison Side.roles
  dsimp only
  refine append_subset.2 ⟨Subset.trans ?_ (subset_append_left _ _), subset_append_right _ _⟩
  exact Subset.trans (namedRoles_forwardMovedTypes_subset ..) (namedRoles_retainedComparison_subset ..)

theorem comparison_mapRoles (d : Differ) (request : Request) : comparison d request (base.mapRoles f) (desired.mapRoles f) =
      ((comparison d request base desired).1.mapRoles f, (comparison d request base desired).2) := by
  unfold comparison
  dsimp only
  rw [enumLabels_mapRoles, retainedComparison_mapRoles]
  dsimp only
  rw [forwardMovedTypes_mapRoles]
  rfl

end Compared

/-! ## The list under other role names -/

section Plan

variable (d : Differ) (request : Request) (base declared : Side)

theorem typeChanges_mapRoles (labels : List Change) :
    typeChanges d request (base.mapRoles f) (declared.mapRoles f) labels = typeChanges d request base declared labels := by
  unfold typeChanges
  rw [rebuiltDomains_mapRoles, extensionChanges_mapRoles]
  rfl

theorem relinked_mapRoles {roles : List RoleName} (hf : InjOn f roles) (hbase : base.roles ⊆ roles)
    (hdeclared : declared.roles ⊆ roles) (dialect : Dialect) (readBack : Option Schema) (before : List Change) :
    relinked dialect (base.mapRoles f) (declared.mapRoles f) readBack (before.map (Change.mapRoles f)) =
      (relinked dialect base declared readBack before).map (Change.mapRoles f) := by
  have htables : tableChanges dialect (base.mapRoles f) (declared.mapRoles f) readBack (before.map (Change.mapRoles f)) =
      (tableChanges dialect base declared readBack before).map (Change.mapRoles f) := by
    unfold tableChanges
    dsimp only
    rw [show renamesOf (base.mapRoles f).ids (declared.mapRoles f).ids = renamesOf base.ids declared.ids from rfl,
      diffTables_mapRoles dialect base declared _ _ hf hbase hdeclared, Out.changes_mapRoles, ← map_append,
      splitTightenings_mapRoles, declared.schema_mapRoles,
      clearExternalPartitions_mapRoles, map_mapRoles (fun _ => isPlain_clearExternalPartitions _) fun _ =>
        clearExternalPartitions_special _, rebuildDefaults_mapRoles]
  have hretyped : withRetypedDependents dialect (base.mapRoles f) (declared.mapRoles f) readBack (before.map (Change.mapRoles f)) =
      (withRetypedDependents dialect base declared readBack before).map (Change.mapRoles f) := by
    unfold withRetypedDependents
    dsimp only
    rw [htables, show renamesOf (base.mapRoles f).ids (declared.mapRoles f).ids = renamesOf base.ids declared.ids from rfl,
      recreateRetypedDependents_mapRoles, (quiet_recreateRetypedDependents _ _ _ _ _).plain.append_map]
  unfold relinked
  dsimp only
  rw [hretyped, show renamesOf (base.mapRoles f).ids (declared.mapRoles f).ids = renamesOf base.ids declared.ids from rfl,
    recreateReferencedForeignKeys_mapRoles, (quiet_recreateReferencedForeignKeys _ _ _ _).plain.append_map,
    rebindForeignKeys_mapRoles, (quiet_rebindForeignKeys _ _ _).plain.append_map,
    declared.schema_mapRoles, unlinkCycles_mapRoles,
    (quiet_unlinkCycles _ _).plain.append_map]

theorem finished_mapRoles (hblind : d.modules.BlindToRoles) {roles : List RoleName} (hf : InjOn f roles) (hbase : base.roles ⊆ roles)
    (hdeclared : declared.roles ⊆ roles) (plan : List Change) :
    finished d request (base.mapRoles f) (declared.mapRoles f) (plan.map (Change.mapRoles f)) =
      (finished d request base declared plan).map (Change.mapRoles f) := by
  unfold finished
  dsimp only
  rw [diffReplicaIdentity_mapRoles, (quiet_diffReplicaIdentity _ _ _).plain.append_map, withModules_mapRoles _ _ _ _ hblind,
    diffRoles_mapRoles _ _ _ _ hf hbase hdeclared, ← map_append,
    base.schema_mapRoles, revokePublicExecution_mapRoles,
    (quiet_revokePublicExecution _ _).plain.append_map, dropParameterChanges_mapRoles]

/-- The plan of two sides under other role names is their plan under those names, where the same rewrites are refused and the
same qualify. -/
theorem diffPartial_mapRoles (hblind : d.modules.BlindToRoles) (hf : InjOn f (base.roles ++ declared.roles))
    (hrefused : rewriteErrors d (base.mapRoles f) (declared.mapRoles f) = [] ↔ rewriteErrors d base declared = [])
    (hrewrites : rebuiltTables d (base.mapRoles f) (declared.mapRoles f) = rebuiltTables d base declared) :
    diffPartial d request (base.mapRoles f) (declared.mapRoles f) =
      (diffPartial d request base declared).map (Change.mapRoles f) := by
  unfold diffPartial
  rw [hrewrites, show (rewriteErrors d (base.mapRoles f) (declared.mapRoles f)).isEmpty = (rewriteErrors d base declared).isEmpty by
    rw [Bool.eq_iff_iff, List.isEmpty_iff, List.isEmpty_iff, hrefused]]
  split
  · rfl
  split
  · rw [List.map_map]
    rfl
  · have hbase : (comparison d request base declared).1.roles ⊆ base.roles ++ declared.roles :=
      Subset.trans (comparison_roles_subset base declared d request) (subset_append_left _ _)
    have hdeclared : declared.roles ⊆ base.roles ++ declared.roles := subset_append_right _ _
    have htypes : Plain (typeChanges d request (comparison d request base declared).1 declared (comparison d request base declared).2) :=
      each_typeChanges _ declared d request admits_plain (quiet_comparison base declared d request)
    rw [comparison_mapRoles]
    dsimp only
    rw [typeChanges_mapRoles, ← htypes.map_mapRoles (f := f), relinked_mapRoles _ _ hf hbase hdeclared,
      finished_mapRoles _ _ _ _ hblind hf hbase hdeclared, htypes.map_mapRoles]

end Plan

end Diff

end Pbps
