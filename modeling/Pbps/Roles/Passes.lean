/-
The passes over a whole list of changes under other role names. What such a pass reads of a change is no role, so what it appends
is the same, and what it rewrites or takes out is no change that names one.
-/
import Pbps.Roles.Tables

namespace Pbps.Diff

open Std (ExtTreeMap ExtTreeSet)
open List

variable {f : RoleName → RoleName}

/-! ## Lists under other role names -/

theorem Change.isPlain_mapRoles (c : Change) : (c.mapRoles f).isPlain = c.isPlain := by cases c <;> rfl

variable {g : Change → Change} {A : Type}

section

variable (hplain : ∀ c, c.isPlain = true → (g c).isPlain = true) (h : ∀ c, c.isPlain = false → g c = c)
include hplain h

theorem Change.mapRoles_of_eq (c : Change) : g (c.mapRoles f) = (g c).mapRoles f := by
  cases hc : c.isPlain with
  | true => rw [mapRoles_of_plain hc, mapRoles_of_plain (hplain c hc)]
  | false => rw [h c hc, h _ ((isPlain_mapRoles c).trans hc)]

theorem map_mapRoles (plan : List Change) : (plan.map (Change.mapRoles f)).map g = (plan.map g).map (Change.mapRoles f) := by
  rw [map_map, map_map]
  exact congrArg (plan.map ·) (funext (Change.mapRoles_of_eq hplain h))

end

theorem plain_toList_map {g : A → Change} (h : ∀ a, (g a).isPlain = true) (o : Option A) : Plain (o.map g).toList := by
  cases o <;> simp [h]

theorem filterMap_mapRoles_of {q q' : Change → Option A} (plan : List Change) (h : ∀ c, q' (c.mapRoles f) = q c) :
    (plan.map (Change.mapRoles f)).filterMap q' = plan.filterMap q := by
  rw [filterMap_map]
  exact congrArg (plan.filterMap ·) (funext h)

theorem filter_mapRoles {q : Change → Bool} (h : ∀ c, q (c.mapRoles f) = q c) (plan : List Change) :
    (plan.map (Change.mapRoles f)).filter q = (plan.filter q).map (Change.mapRoles f) := by
  rw [filter_map]
  exact congrArg (fun p => (plan.filter p).map _) (funext h)

theorem foldl_mapRoles {step step' : List Change → A → List Change}
    (h : ∀ plan a, step' (plan.map (Change.mapRoles f)) a = (step plan a).map (Change.mapRoles f)) :
    ∀ (l : List A) (plan : List Change), l.foldl step' (plan.map (Change.mapRoles f)) = (l.foldl step plan).map (Change.mapRoles f)
  | [], _ => rfl
  | a :: l, plan => by rw [foldl_cons, foldl_cons, h, foldl_mapRoles h l]

/-! ## Tightenings and loosenings -/

section Tightenings

variable (plan : List Change)

theorem tightensAfterRows_mapRoles : tightensAfterRows (plan.map (Change.mapRoles f)) = tightensAfterRows plan := by
  funext column
  have hrows := filterMap_mapRoles (f := f) plan (q := rowTable) fun c => by cases c <;> rfl
  have hinserted := filterMap_mapRoles (f := f) plan (q := insertedTable) fun c => by cases c <;> rfl
  have hdeleted := filterMap_mapRoles (f := f) plan (q := deletedTable) fun c => by cases c <;> rfl
  have hidentity := filterMap_mapRoles (f := f) plan (q := identityPutOn) fun c => by cases c <;> rfl
  have hnumbering := filterMap_mapRoles (f := f) plan (q := numberingPutOn) fun c => by cases c <;> rfl
  unfold tightensAfterRows numberingAfterDeletes
  rw [hrows, hinserted, hdeleted, hidentity, hnumbering]

variable {c : Change}

theorem isPlain_withoutTightening (h : c.isPlain = true) : (withoutTightening plan c).isPlain = true := by
  unfold withoutTightening
  split
  · rfl
  · exact h

theorem withoutTightening_special (h : c.isPlain = false) : withoutTightening plan c = c := by
  unfold withoutTightening
  split
  · cases h
  · rfl

theorem plain_tightening : Plain (plan.filterMap (tightening plan)) := by
  rw [plain_filterMap]
  intro c _ d hd
  unfold tightening at hd
  split at hd
  · split at hd
    · cases hd
      rfl
    · cases hd
  · cases hd

theorem splitTightenings_mapRoles :
    splitTightenings (plan.map (Change.mapRoles f)) = (splitTightenings plan).map (Change.mapRoles f) := by
  have hwithout : withoutTightening (plan.map (Change.mapRoles f)) = withoutTightening plan := by
    funext c
    unfold withoutTightening
    rw [tightensAfterRows_mapRoles]
  have htightening : ∀ c, tightening (plan.map (Change.mapRoles f)) (Change.mapRoles f c) = tightening plan c := by
    intro c
    unfold tightening
    rw [tightensAfterRows_mapRoles]
    cases c <;> rfl
  unfold splitTightenings
  rw [hwithout, map_mapRoles (fun _ => isPlain_withoutTightening plan) (fun _ => withoutTightening_special plan),
    filterMap_map, show tightening (plan.map (Change.mapRoles f)) ∘ Change.mapRoles f = tightening plan from funext htightening,
    (plain_tightening plan).append_map]

theorem special_splitTightenings : special (splitTightenings plan) = special plan := by
  unfold splitTightenings
  rw [special_append, special_map (fun _ => isPlain_withoutTightening plan) (fun _ => withoutTightening_special plan),
    special_of_plain (plain_tightening plan), append_nil]

end Tightenings

section Loosenings

variable (schema : Schema)

variable {c : Change}

theorem isPlain_clearExternalPartitions (h : c.isPlain = true) : (clearExternalPartitions schema c).isPlain = true := by
  unfold clearExternalPartitions
  split
  · rfl
  · rfl
  · exact h

theorem clearExternalPartitions_special (h : c.isPlain = false) : clearExternalPartitions schema c = c := by
  unfold clearExternalPartitions
  split
  · cases h
  · cases h
  · rfl

theorem clearExternalPartitions_mapRoles : clearExternalPartitions (schema.mapRoles f) = clearExternalPartitions schema := by
  have hexternal : hasExternalPartitions (schema.mapRoles f) = hasExternalPartitions schema := by
    funext table
    unfold hasExternalPartitions
    rw [Schema.bind_tables_mapRoles _ _ fun _ => rfl]
  funext c
  unfold clearExternalPartitions
  rw [hexternal]

end Loosenings

/-! ## Defaults around a rebuild of a type -/

section Defaults

variable (base desired : Side) (plan : List Change)

theorem columnDefault_mapRoles (schema : Schema) (column : ColumnRef) :
    columnDefault (schema.mapRoles f) column = columnDefault schema column := by
  unfold columnDefault
  rw [Schema.bind_tables_mapRoles _ _ fun _ => rfl]

theorem rebuildDefaults_mapRoles : rebuildDefaults (base.mapRoles f) (desired.mapRoles f) (plan.map (Change.mapRoles f)) =
      (rebuildDefaults base desired plan).map (Change.mapRoles f) := by
  unfold rebuildDefaults
  rw [filterMap_mapRoles plan fun c => by cases c <;> rfl]
  refine foldl_mapRoles (fun plan e => ?_) _ plan
  rcases e with ⟨uid, column⟩
  have hbefore : ((base.mapRoles f).ids.columns[uid]?).bind (columnDefault (base.mapRoles f).schema) =
      (base.ids.columns[uid]?).bind (columnDefault base.schema) := by
    rw [base.schema_mapRoles, funext (columnDefault_mapRoles base.schema)]
    rfl
  have hafter : columnDefault (desired.mapRoles f).schema column = columnDefault desired.schema column :=
    columnDefault_mapRoles _ _
  dsimp only
  unfold rebuildDefault
  rw [hbefore, hafter, filter_mapRoles (fun c => by cases c <;> rfl), (plain_toList_map (fun _ => rfl) _).append_map,
    (plain_toList_map (fun _ => rfl) _).append_map]

theorem special_rebuildDefaults : special (rebuildDefaults base desired plan) = special plan := by
  unfold rebuildDefaults
  refine special_foldl (fun plan e => ?_) _ plan
  rcases e with ⟨uid, column⟩
  dsimp only
  unfold rebuildDefault
  have hkept : ∀ c : Change, c.isPlain = false → (!altersDefaultOf column c) = true := by
    intro c hc
    cases c <;> first | rfl | cases hc
  rw [special_append, special_append, special_filter hkept, special_of_plain (plain_toList_map (fun _ => rfl) _),
    special_of_plain (plain_toList_map (fun _ => rfl) _), append_nil, append_nil]

end Defaults

/-! ## What comes down and goes back -/

section Recreate

variable (dialect : Dialect) (base declared : Side) (renames : Renames) (plan : List Change)

theorem foldl_same {A B : Type} {step step' : B → A → B} (h : ∀ acc a, step' acc a = step acc a) (l : List A) (acc : B) :
    l.foldl step' acc = l.foldl step acc := congrArg (List.foldl · acc l) (funext₂ h)

theorem any_append_mapRoles {q : Change → Bool} (h : ∀ c, q (c.mapRoles f) = q c) (acc : List Change) :
    (plan.map (Change.mapRoles f) ++ acc).any q = (plan ++ acc).any q := by
  rw [any_append, any_append, any_mapRoles plan h]

theorem retypedColumns_mapRoles : retypedColumns dialect (plan.map (Change.mapRoles f)) = retypedColumns dialect plan := by
  have hremoved : columnRemoved (plan.map (Change.mapRoles f)) = columnRemoved plan := by
    funext column
    unfold columnRemoved
    rw [List.findSome?_map]
    refine congrArg (plan.findSome? ·) (funext fun c => ?_)
    cases c <;> rfl
  unfold retypedColumns recomputedColumns
  rw [hremoved, filterMap_mapRoles plan (q := columnAdded) fun c => by cases c <;> rfl,
    filterMap_mapRoles plan (q := changeDependents dialect) fun c => by cases c <;> rfl]

theorem retypedThroughPartitions_mapRoles (schema : Schema) (retyped : ExtTreeMap ColumnRef RetypeDependents) :
    retypedThroughPartitions (schema.mapRoles f) retyped = retypedThroughPartitions schema retyped := by
  have hpartitions : partitionsOf (schema.mapRoles f) = partitionsOf schema := by
    funext parent
    unfold partitionsOf
    rw [Schema.toList_tables_mapRoles, filter_map, map_map]
    rfl
  have hreach : ∀ fuel parents reached,
      reachPartitions (schema.mapRoles f) fuel parents reached = reachPartitions schema fuel parents reached := by
    intro fuel
    induction fuel with
    | zero =>
      intro parents reached
      rfl
    | succ fuel ih =>
      intro parents reached
      cases parents with
      | nil => rfl
      | cons parent parents =>
        rw [reachPartitions, reachPartitions, hpartitions]
        exact ih _ _
  unfold retypedThroughPartitions partitionsBelow
  simp only [hreach, Schema.size_tables_mapRoles]

theorem alignedTable_mapRoles (uid : Uid) (oldName : TableName) :
    alignedTable (base.mapRoles f) (declared.mapRoles f) renames uid oldName =
      (alignedTable base declared renames uid oldName).map fun e => (e.1, e.2.1.mapRoles f, e.2.2.mapRoles f) := by
  unfold alignedTable
  dsimp only [Side.mapRoles, IdsFile.mapRoles]
  simp only [Schema.getElem?_tables_mapRoles]
  cases declared.ids.tables[uid]? with
  | none => rfl
  | some name =>
    cases base.schema.tables[oldName]? with
    | none => rfl
    | some old =>
      cases hafter : declared.schema.tables[name]? with
      | none => simp [hafter]
      | some after => simp [hafter, apply_mapRoles]

theorem recreateTable_mapRoles (retyped : ExtTreeMap ColumnRef RetypeDependents) (name : TableName) (before after : Table)
    (acc : List Change) :
    recreateTable retyped name (before.mapRoles f) (after.mapRoles f) (plan.map (Change.mapRoles f) ++ acc) =
      recreateTable retyped name before after (plan ++ acc) := by
  have hkey : recreatePrimaryKey retyped name (before.mapRoles f) (after.mapRoles f) (plan.map (Change.mapRoles f) ++ acc) =
      recreatePrimaryKey retyped name before after (plan ++ acc) := by
    unfold recreatePrimaryKey
    rw [any_append_mapRoles plan fun c => by cases c <;> rfl]
    rfl
  unfold recreateTable
  rw [hkey]
  rfl

theorem recreateRetypedDependents_mapRoles :
    recreateRetypedDependents (base.mapRoles f) (declared.mapRoles f) renames dialect (plan.map (Change.mapRoles f)) =
      recreateRetypedDependents base declared renames dialect plan := by
  unfold recreateRetypedDependents
  rw [retypedColumns_mapRoles]
  dsimp only
  split
  · rfl
  · rw [declared.schema_mapRoles, retypedThroughPartitions_mapRoles]
    refine foldl_same (fun acc e => ?_) _ _
    rcases e with ⟨uid, oldName⟩
    dsimp only
    rw [alignedTable_mapRoles]
    cases alignedTable base declared renames uid oldName with
    | none => rfl
    | some aligned =>
      dsimp only [Option.map_some]
      rw [recreateTable_mapRoles]

end Recreate

/-! ## Foreign keys -/

section ForeignKeys

variable (base declared : Side) (renames : Renames) (plan : List Change)

theorem alignedTables_mapRoles : alignedTables (base.mapRoles f) (declared.mapRoles f) renames =
    (alignedTables base declared renames).map fun _ => Table.mapRoles f := by
  unfold alignedTables
  rw [ExtTreeMap.map_ofList, map_filterMap]
  refine congrArg (ExtTreeMap.ofList · _) (filterMap_congr fun e _ => ?_)
  rcases e with ⟨uid, oldName⟩
  dsimp only [Side.mapRoles, IdsFile.mapRoles]
  rw [Schema.getElem?_tables_mapRoles]
  cases declared.ids.tables[uid]? with
  | none => rfl
  | some newName =>
    cases base.schema.tables[oldName]? with
    | none => rfl
    | some table => simp [apply_mapRoles]

theorem removedKey_mapRoles (aligned : ExtTreeMap TableName Table) (c : Change) :
    removedKey (aligned.map fun _ => Table.mapRoles f) (c.mapRoles f) = removedKey aligned c := by
  have hlookup : ∀ (table : TableName) {A : Type} (g : Table → Option A), (∀ t, g (t.mapRoles f) = g t) →
      ((aligned.map fun _ => Table.mapRoles f)[table]?).bind g = aligned[table]?.bind g := by
    intro table A g hg
    rw [ExtTreeMap.getElem?_map, Option.bind_map]
    exact congrArg _ (funext hg)
  cases c
  case dropUnique table name =>
    unfold removedKey
    dsimp only [Change.mapRoles]
    rw [hlookup _ _ fun _ => rfl]
  case dropIndex table name =>
    unfold removedKey
    dsimp only [Change.mapRoles]
    rw [hlookup _ _ fun _ => rfl]
  case setPrimaryKey table from_ to_ nonclustered => cases from_ <;> rfl
  all_goals rfl

theorem recreateReferencedForeignKeys_mapRoles :
    recreateReferencedForeignKeys (base.mapRoles f) (declared.mapRoles f) renames (plan.map (Change.mapRoles f)) =
      recreateReferencedForeignKeys base declared renames plan := by
  have htable : ∀ removed table (before after : Table) acc,
      recreateReferencing removed table (before.mapRoles f) (after.mapRoles f) (plan.map (Change.mapRoles f) ++ acc) =
        recreateReferencing removed table before after (plan ++ acc) := by
    intro removed table before after acc
    unfold recreateReferencing
    refine foldl_same (fun got e => ?_) _ _
    rcases e with ⟨name, fk⟩
    dsimp only
    have hdrops : (plan.map (Change.mapRoles f) ++ acc ++ got).any (dropsForeignKey table name) =
        (plan ++ acc ++ got).any (dropsForeignKey table name) := by
      rw [append_assoc, any_append_mapRoles plan fun c => by cases c <;> rfl, ← append_assoc]
    rw [hdrops]
    rfl
  unfold recreateReferencedForeignKeys
  rw [any_mapRoles plan fun c => by cases c <;> rfl, alignedTables_mapRoles]
  split
  · rfl
  · dsimp only
    rw [filterMap_mapRoles_of plan (removedKey_mapRoles _), ExtTreeMap.toList_map, foldl_map]
    refine foldl_same (fun acc e => ?_) _ _
    rw [declared.schema_mapRoles, Schema.getElem?_tables_mapRoles]
    cases declared.schema.tables[e.1]? with
    | none => rfl
    | some after =>
      dsimp only [Option.map_some]
      rw [htable]

theorem rebindForeignKeys_mapRoles :
    rebindForeignKeysToANewOccupant (base.mapRoles f) (declared.mapRoles f) (plan.map (Change.mapRoles f)) =
      rebindForeignKeysToANewOccupant base declared plan := by
  have htable : ∀ newName (before after : Table),
      rebindForeignKeys (base.mapRoles f) (declared.mapRoles f) (plan.map (Change.mapRoles f)) newName (before.mapRoles f)
        (after.mapRoles f) = rebindForeignKeys base declared plan newName before after := by
    intro newName before after
    have hadds : ∀ name, (plan.map (Change.mapRoles f)).any (addsForeignKey newName name) =
        plan.any (addsForeignKey newName name) := fun name => any_mapRoles plan fun c => by cases c <;> rfl
    unfold rebindForeignKeys
    simp only [hadds]
    rfl
  unfold rebindForeignKeysToANewOccupant
  refine congrArg (fun g => List.flatMap g base.ids.tables.toList) (funext fun e => ?_)
  rcases e with ⟨uid, oldName⟩
  rw [base.schema_mapRoles,
    declared.schema_mapRoles,
    show (declared.mapRoles f).ids.tables = declared.ids.tables from rfl]
  simp only [Schema.getElem?_tables_mapRoles]
  cases declared.ids.tables[uid]? with
  | none => rfl
  | some newName =>
    cases base.schema.tables[oldName]? with
    | none => rfl
    | some before =>
      dsimp only [Option.map_some]
      cases declared.schema.tables[newName]? with
      | none => rfl
      | some after => exact htable newName before after

theorem unlinkCycles_mapRoles (schema : Schema) :
    unlinkCycles (schema.mapRoles f) (plan.map (Change.mapRoles f)) = unlinkCycles schema plan := by
  have hreferenced : referencedTables (schema.mapRoles f) = referencedTables schema := by
    funext table
    unfold referencedTables
    rw [Schema.map_tables_mapRoles]
    · simp only [Schema.contains_tables_mapRoles]
    · intro t
      rfl
  have hreach : ∀ fuel table, reachTables (schema.mapRoles f) fuel table = reachTables schema fuel table := by
    intro fuel
    induction fuel with
    | zero =>
      intro table
      rfl
    | succ fuel ih =>
      intro table
      rw [reachTables, reachTables, hreferenced, funext ih]
  have hcomponent : sameComponent (schema.mapRoles f) = sameComponent schema := by
    funext a b
    unfold sameComponent
    simp only [Schema.contains_tables_mapRoles, Schema.size_tables_mapRoles, hreach]
  have hadds : ∀ name key, (plan.map (Change.mapRoles f)).any (addsForeignKey name key) = plan.any (addsForeignKey name key) :=
    fun name key => any_mapRoles plan fun c => by cases c <;> rfl
  unfold unlinkCycles
  rw [filterMap_mapRoles plan fun c => by cases c <;> rfl, hcomponent]
  simp only [hadds, Schema.toList_tables_mapRoles, flatMap_map]
  rfl

end ForeignKeys

end Pbps.Diff
