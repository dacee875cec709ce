/-
The renames of a plan. Objects are matched by uid, so each is of what both identity files hold under one uid, from the name
the base has to the name the declarations have.
-/
import Pbps.Diff.Quiet

namespace Pbps.Diff

open Std (ExtTreeMap ExtTreeSet)

def Change.isRename : Change → Bool
  | .renameTable _ _ _ _ | .renameColumn _ _ _ _ _ | .renameType _ _ _ _ | .renameRole _ _ _ => true
  | _ => false

def RenamesKept (base declared : IdsFile) : Change → Prop
  | .renameTable uid was now _ => base.tables[uid]? = some was ∧ declared.tables[uid]? = some now ∧ was ≠ now
  | .renameColumn uid _ was now _ =>
    ∃ ref ref', base.columns[uid]? = some ref ∧ declared.columns[uid]? = some ref' ∧ ref.name = was ∧ ref'.name = now ∧ was ≠ now
  | .renameType uid was now _ => base.types[uid]? = some was ∧ declared.types[uid]? = some now ∧ was ≠ now
  | .renameRole uid was now => base.roles[uid]? = some was ∧ declared.roles[uid]? = some now ∧ was ≠ now
  | _ => True

variable {base declared : IdsFile}

theorem Quiet.renamesKept {c : Change} (h : Quiet c) : RenamesKept base declared c := by
  cases c
  all_goals trivial

theorem admits_renamesKept : Admits base declared (RenamesKept base declared) where
  quiet _ := Quiet.renamesKept
  table _ _ _ _ hwas hnow hne := ⟨hwas, hnow, hne⟩
  column _ was now _ _ hwas hnow hne := ⟨was, now, hwas, hnow, rfl, rfl, hne⟩
  type _ _ _ _ hwas hnow hne := ⟨hwas, hnow, hne⟩

theorem Each.renamesKept {l : List Change} (h : Each Quiet l) : Each (RenamesKept base declared) l :=
  h.imp fun _ => Quiet.renamesKept

/-! ## Tables -/

section Tables

variable (dialect : Dialect) (base declared : Side) (renames : Renames) (readBack : Option Schema)

theorem renamesKept_createdTables : Each (RenamesKept base.ids declared.ids) (createdTables base declared).changes := by
  have hcreate : ∀ uid name (t : Table), Each (RenamesKept base.ids declared.ids) (createTable base declared uid name t).changes := by
    intro uid name t
    unfold createTable
    dsimp only
    simp only [Out.append_changes, each_append]
    refine ⟨⟨⟨⟨⟨?_, (quiet_insertRows _ _).renamesKept⟩, ?_⟩, ?_⟩, ?_⟩, ?_⟩
    · simp [RenamesKept]
    · simp [RenamesKept]
    · simp [RenamesKept]
    · simp
    · simp [RenamesKept]
  unfold createdTables
  rw [each_forEach]
  rintro ⟨uid, name⟩ -
  dsimp only
  split
  · simp
  · cases declared.schema.tables[name]? with
    | none => simp
    | some t => exact hcreate uid name t

theorem renamesKept_diffKeptTable (uid : Uid) (baseName declaredName : TableName) (baseTable declaredTable : Table)
    (plan : List Change) : Each (RenamesKept base.ids declared.ids)
      (diffKeptTable dialect base declared uid baseName declaredName baseTable declaredTable renames readBack plan).changes := by
  have hpolicies : Each (RenamesKept base.ids declared.ids) (diffPolicies baseName declaredName baseTable declaredTable).changes := by
    unfold diffPolicies
    dsimp only
    rw [each_forEach]
    intro name _
    split
    · simp
    · rw [Out.append_changes, each_append]
      constructor
      · cases baseTable.rowPolicies[name]? <;> simp [RenamesKept]
      · cases declaredTable.rowPolicies[name]? <;> simp [RenamesKept]
  have hstanding : ∀ plan, Each (RenamesKept base.ids declared.ids)
      (diffStandingTable dialect base declared uid baseName declaredName baseTable declaredTable renames plan).changes :=
    fun _ => each_diffStandingTable _ _ _ _ _ _ _ _ admits_renamesKept
  have hdetach : ∀ of, Each (RenamesKept base.ids declared.ids)
      (detachPartition dialect base declared uid baseName declaredName baseTable declaredTable renames of).changes := by
    intro of
    unfold detachPartition
    extract_lets names
    cases names <;> simp [RenamesKept]
  have hattach : ∀ of, Each (RenamesKept base.ids declared.ids)
      (attachPartition dialect base declared uid baseName declaredName baseTable declaredTable renames readBack of).changes := by
    intro of
    unfold attachPartition
    dsimp only
    split
    · next a ha =>
      simp only [Out.append_changes, each_append]
      refine ⟨⟨⟨⟨⟨⟨⟨?_, ?_⟩, ?_⟩, ?_⟩, ?_⟩, ?_⟩, ?_⟩, ?_⟩
      · exact (quiet_attached _ _ _ _ _ ha).renamesKept
      · simp [RenamesKept]
      · simp [RenamesKept]
      · exact (quiet_diffConstraints _ _ _).renamesKept
      · exact (quiet_diffSettings _ _ _).2.2.1.renamesKept
      · exact (quiet_diffSettings _ _ _).2.2.2.renamesKept
      · exact (quiet_diffPartitionColumns _ _ _ _).renamesKept
      · exact each_forEach.2 fun _ _ => (quiet_attachDefault _ _ _ _ _).renamesKept
    · simp
  unfold diffKeptTable
  dsimp only
  rw [Out.append_changes, each_append, Out.append_changes, each_append]
  refine ⟨⟨hpolicies, (quiet_diffRowSecurity _ _ _ _).renamesKept⟩, ?_⟩
  split
  · split
    · exact hdetach _
    · exact hstanding _
  · exact hattach _
  · exact hstanding _

theorem renamesKept_keptTables : ∀ (l : List (Uid × TableName)) (plan : List Change),
    (∀ e ∈ l, declared.ids.tables[e.1]? = some e.2) →
      Each (RenamesKept base.ids declared.ids) (keptTables dialect base declared renames readBack plan l).changes
  | [], _, _ => by simp [keptTables]
  | (uid, declaredName) :: rest, plan, h => by
    obtain ⟨hnow, hrest⟩ := List.forall_mem_cons.1 h
    rw [keptTables, Out.append_changes, each_append]
    refine ⟨?_, renamesKept_keptTables rest _ hrest⟩
    unfold keptTable
    split
    · simp
    · next baseName hwas =>
      dsimp only
      rw [Out.append_changes, each_append]
      refine ⟨each_renameTable _ _ _ _ _ admits_renamesKept hwas hnow, ?_⟩
      split
      · exact renamesKept_diffKeptTable _ _ _ _ _ _ _ _ _ _ _
      · simp

theorem renamesKept_diffTables (plan : List Change) :
    Each (RenamesKept base.ids declared.ids) (diffTables dialect base declared renames readBack plan).changes := by
  unfold diffTables
  dsimp only
  rw [Out.append_changes, Out.append_changes, each_append, each_append]
  refine ⟨⟨(quiet_droppedTables _ _ _).renamesKept, renamesKept_createdTables base declared⟩, ?_⟩
  exact renamesKept_keptTables _ _ _ _ _ _ _ fun e he => ExtTreeMap.getElem?_of_mem_toList he

end Tables

/-! ## Roles -/

theorem renamesKept_diffRoles (dialect : ModuleDialect) (base declared : Side) (plan : List Change) :
    Each (RenamesKept base.ids declared.ids) (diffRoles dialect base declared plan) := by
  have hdrop : ∀ uid name, Each (RenamesKept base.ids declared.ids) (dropRole dialect base declared plan uid name) := by
    intro uid name
    unfold dropRole
    split
    · simp [RenamesKept]
    · split
      · simp
      · rw [each_filterMap]
        rintro ⟨target, permissions⟩ - c hc
        dsimp only at hc
        obtain ⟨-, hc⟩ | ⟨-, hc⟩ := ite_eq_iff.1 hc <;> cases hc
        trivial
  have hcreate : ∀ uid name role, Each (RenamesKept base.ids declared.ids) (createRole dialect uid name role) := by
    intro uid name role
    simp [createRole, RenamesKept]
  have hgrant : ∀ name role before detached target,
      Each (RenamesKept base.ids declared.ids) (diffGrant dialect base declared plan name role before detached target) := by
    intro name role before detached target
    simp [diffGrant, RenamesKept]
  unfold diffRoles
  rw [each_append, each_flatMap, each_flatMap]
  refine ⟨fun e _ => ?_, fun e he => ?_⟩
  · dsimp only
    split
    · simp
    · exact hdrop _ _
  · rcases e with ⟨uid, name⟩
    dsimp only
    split
    · simp
    · split
      · exact hcreate _ _ _
      · next baseName hwas =>
        unfold diffRole
        dsimp only
        rw [each_append, each_flatMap]
        refine ⟨?_, fun target _ => hgrant _ _ _ _ _⟩
        rw [each_ite, each_cons]
        refine ⟨fun hne => ⟨?_, each_nil⟩, fun _ => each_nil⟩
        exact ⟨hwas, ExtTreeMap.getElem?_of_mem_toList he, of_decide_eq_true (Bool.and_eq_true_iff.1 hne).1⟩

/-! ## The passes over the list -/

section Passes

variable {base declared : IdsFile} {plan : List Change}

theorem renamesKept_splitTightenings (h : Each (RenamesKept base declared) plan) :
    Each (RenamesKept base declared) (splitTightenings plan) := by
  unfold splitTightenings
  rw [each_append, each_map, each_filterMap]
  refine ⟨fun c hc => ?_, fun c _ c' hc' => ?_⟩
  · unfold withoutTightening
    split
    · trivial
    · exact h c hc
  · unfold tightening at hc'
    split at hc'
    · split at hc'
      · cases hc'
        trivial
      · cases hc'
    · cases hc'

theorem renamesKept_clearExternalPartitions (schema : Schema) (h : Each (RenamesKept base declared) plan) :
    Each (RenamesKept base declared) (plan.map (clearExternalPartitions schema)) := by
  rw [each_map]
  intro c hc
  unfold clearExternalPartitions
  split
  · trivial
  · trivial
  · exact h c hc

theorem renamesKept_rebuildDefaults (was desired : Side) (h : Each (RenamesKept base declared) plan) :
    Each (RenamesKept base declared) (rebuildDefaults was desired plan) := by
  unfold rebuildDefaults
  refine each_foldl (fun plan e hplan => ?_) _ h
  rcases e with ⟨uid, column⟩
  dsimp only
  unfold rebuildDefault
  rw [each_append, each_append]
  refine ⟨⟨hplan.filter _, ?_⟩, ?_⟩
  · simp only [each_toList, Option.map_eq_some_iff]
    rintro c ⟨text, -, rfl⟩
    trivial
  · simp only [each_toList, Option.map_eq_some_iff]
    rintro c ⟨text, -, rfl⟩
    trivial

theorem renamesKept_withModules (dialect : ModuleDialect) (was now : Side) (rebinding : Rebinding)
    (also dependents : ExtTreeSet ModuleId) (h : Each (RenamesKept base declared) plan) :
    Each (RenamesKept base declared) (withModules dialect was now rebinding also dependents plan) := by
  have hsplit : ∀ {plan : List Change}, Each (RenamesKept base declared) plan →
      Each (RenamesKept base declared) (splitDependents dependents plan) := by
    intro plan hplan
    unfold splitDependents
    rw [each_flatMap]
    intro c hc
    split
    · split
      · exact quiet_rebuildModule.renamesKept
      · exact each_cons.2 ⟨trivial, each_nil⟩
    · exact each_cons.2 ⟨hplan c hc, each_nil⟩
  have htear : ∀ (plan : List Change) id, Each (RenamesKept base declared) plan →
      Each (RenamesKept base declared) (tearDown was.schema now.schema plan id) := by
    intro plan id hplan
    unfold tearDown
    split
    · split
      · exact hplan
      · exact each_append.2 ⟨hplan.filter _, quiet_rebuildModule.renamesKept⟩
    · exact hplan
  unfold withModules
  refine each_foldl htear _ (hsplit ?_)
  rw [each_append, each_append]
  exact ⟨⟨h, (quiet_diffModules dialect).renamesKept⟩, (quiet_restateModules dialect _).renamesKept⟩

end Passes

/-! ## The whole list -/

section Plan

variable (d : Differ) (request : Request) (base declared : Side)

theorem renamesKept_relinked (dialect : Dialect) (readBack : Option Schema) {before : List Change}
    (h : Each (RenamesKept base.ids declared.ids) before) :
    Each (RenamesKept base.ids declared.ids) (relinked dialect base declared readBack before) := by
  have htables : Each (RenamesKept base.ids declared.ids) (tableChanges dialect base declared readBack before) := by
    unfold tableChanges
    refine renamesKept_rebuildDefaults _ _ (renamesKept_clearExternalPartitions _ (renamesKept_splitTightenings ?_))
    exact each_append.2 ⟨h, renamesKept_diffTables _ _ _ _ _ _⟩
  unfold relinked withRetypedDependents
  dsimp only
  simp only [each_append]
  refine ⟨⟨⟨⟨htables, ?_⟩, ?_⟩, ?_⟩, ?_⟩
  · exact (quiet_recreateRetypedDependents _ _ _ _ _).renamesKept
  · exact (quiet_recreateReferencedForeignKeys _ _ _ _).renamesKept
  · exact (quiet_rebindForeignKeys _ _ _).renamesKept
  · exact (quiet_unlinkCycles _ _).renamesKept

theorem renamesKept_finished {plan : List Change} (h : Each (RenamesKept base.ids declared.ids) plan) :
    Each (RenamesKept base.ids declared.ids) (finished d request base declared plan) := by
  unfold finished
  refine Each.filter ?_ _
  rw [each_append, each_append]
  refine ⟨⟨renamesKept_withModules _ _ _ _ _ _ ?_, renamesKept_diffRoles _ _ _ _⟩, (quiet_revokePublicExecution _ _).renamesKept⟩
  exact each_append.2 ⟨h, (quiet_diffReplicaIdentity _ _ _).renamesKept⟩

theorem renamesKept_diffPartial : Each (RenamesKept base.ids declared.ids) (diffPartial d request base declared) := by
  unfold diffPartial
  split
  · intro c hc
    cases hc
  split
  · rw [each_map]
    exact fun _ _ => trivial
  · have htypes : Each (RenamesKept base.ids declared.ids)
        (typeChanges d request (comparison d request base declared).1 declared (comparison d request base declared).2) :=
      each_typeChanges _ declared d request admits_renamesKept (quiet_comparison base declared d request)
    exact renamesKept_finished d request (comparison d request base declared).1 declared
      (renamesKept_relinked (comparison d request base declared).1 declared d.dialect request.readBack htypes)

end Plan

/-- Two files have one name for each uid both hold. -/
structure Agrees (ids ids' : IdsFile) : Prop where
  tables : ∀ (u : Uid) a b, ids.tables[u]? = some a → ids'.tables[u]? = some b → a = b
  columns : ∀ (u : Uid) a b, ids.columns[u]? = some a → ids'.columns[u]? = some b → a = b
  types : ∀ (u : Uid) a b, ids.types[u]? = some a → ids'.types[u]? = some b → a = b
  roles : ∀ (u : Uid) a b, ids.roles[u]? = some a → ids'.roles[u]? = some b → a = b

theorem Agrees.symm {ids ids' : IdsFile} (h : Agrees ids ids') : Agrees ids' ids where
  tables u a b ha hb := (h.tables u b a hb ha).symm
  columns u a b ha hb := (h.columns u b a hb ha).symm
  types u a b ha hb := (h.types u b a hb ha).symm
  roles u a b ha hb := (h.roles u b a hb ha).symm

theorem Agrees.no_rename {base declared : Side} (h : Agrees base.ids declared.ids) (d : Differ) (request : Request) :
    ∀ c ∈ diffPartial d request base declared, c.isRename = false := by
  intro c hc
  have hkept := renamesKept_diffPartial d request base declared c hc
  cases c
  case renameTable uid was now columns => exact absurd (h.tables uid was now hkept.1 hkept.2.1) hkept.2.2
  case renameColumn uid table was now prior =>
    obtain ⟨ref, ref', hwas, hnow, rfl, rfl, hne⟩ := hkept
    exact absurd (congrArg ColumnRef.name (h.columns uid ref ref' hwas hnow)) hne
  case renameType uid was now definition => exact absurd (h.types uid was now hkept.1 hkept.2.1) hkept.2.2
  case renameRole uid was now => exact absurd (h.roles uid was now hkept.1 hkept.2.1) hkept.2.2
  all_goals rfl

end Pbps.Diff
