/-
The passes over tables under other role names: the policies of a table are compared as their roles are, so one name stands for
one role, and a table that a change carries comes with its policies. All other parts of a table are the same.
-/
import Pbps.Diff.Quiet
import Pbps.Roles.Blind

/-! The changes of a plan that name no role and carry no table. All passes of a comparison make such changes, except those over
roles, over the policies of a table, over tables that are created, attached or detached, and an approved rewrite. -/

namespace Pbps.Diff

open Std (ExtTreeMap ExtTreeSet)
open Option Std.ExtTreeMap

/-- Whether a change names no role, carries no table and is no rewrite of one. -/
def Change.isPlain : Change → Bool
  | .rebuildPartitionedTable _ | .createTable _ _ _ _ _ | .detachPartition _ _ _ _ _ | .attachPartition _ _ _ _ _ _
  | .createPolicy _ _ _ _ | .dropPolicy _ _ _ | .createRole _ _ | .dropRole _ _ _ | .renameRole _ _ _ | .grant _ _ _
  | .revoke _ _ _ => false
  | _ => true

variable {f : RoleName → RoleName} {c : Change} {l : List Change} {A : Type}

theorem Change.mapRoles_of_plain (h : c.isPlain = true) : c.mapRoles f = c := by
  cases c
  all_goals first | rfl | cases h

def Plain (l : List Change) : Prop := ∀ c ∈ l, c.isPlain = true

@[simp] theorem plain_nil : Plain [] := each_nil

@[simp] theorem plain_cons : Plain (c :: l) ↔ c.isPlain = true ∧ Plain l := each_cons

@[simp] theorem plain_filterMap {l : List A} {g : A → Option Change} :
    Plain (l.filterMap g) ↔ ∀ a ∈ l, ∀ c, g a = some c → c.isPlain = true := each_filterMap

@[simp] theorem plain_changeIf {w : Bool} : Plain (Out.changeIf w c).changes ↔ (w = true → c.isPlain = true) :=
  each_changeIf

@[simp] theorem plain_forEach {l : List A} {g : A → Out} :
    Plain (Out.forEach l g).changes ↔ ∀ a ∈ l, Plain (g a).changes := each_forEach

theorem Plain.map_mapRoles (h : Plain l) : l.map (Change.mapRoles f) = l :=
  (List.map_congr_left fun c hc => Change.mapRoles_of_plain (h c hc)).trans (List.map_id _)

theorem Plain.append_map (h : Plain l) (plan : List Change) :
    plan.map (Change.mapRoles f) ++ l = (plan ++ l).map (Change.mapRoles f) := by
  rw [List.map_append, h.map_mapRoles]

theorem Quiet.isPlain (h : Quiet c) : c.isPlain = true := by
  cases c
  all_goals first | rfl | cases h

theorem Each.plain (h : Each Quiet l) : Plain l := h.imp fun _ => Quiet.isPlain

theorem admits_plain {base declared : IdsFile} : Admits base declared (·.isPlain = true) where
  quiet _ := Quiet.isPlain
  table _ _ _ _ _ _ _ := rfl
  column _ _ _ _ _ _ _ _ := rfl
  type _ _ _ _ _ _ _ := rfl

theorem plain_renameTable (base : Side) (uid : Uid) (baseName declaredName : TableName) :
    Plain (renameTable base uid baseName declaredName).changes := by
  simp [renameTable, Change.isPlain]

/-! ## The changes that are left -/

def special (l : List Change) : List Change := l.filter fun c => !c.isPlain

@[simp] theorem special_append (l m : List Change) : special (l ++ m) = special l ++ special m := List.filter_append ..

theorem special_of_plain (h : Plain l) : special l = [] := by
  rw [special, List.filter_eq_nil_iff]
  intro c hc
  simp [h c hc]

theorem special_filter {p : Change → Bool} (h : ∀ c, c.isPlain = false → p c = true) : special (l.filter p) = special l := by
  rw [special, special, List.filter_filter]
  refine List.filter_congr fun c _ => ?_
  cases hplain : c.isPlain with
  | true => rfl
  | false => simp [h c hplain]

theorem special_map {g : Change → Change} (hplain : ∀ c, c.isPlain = true → (g c).isPlain = true)
    (h : ∀ c, c.isPlain = false → g c = c) : special (l.map g) = special l := by
  induction l with
  | nil => rfl
  | cons c l ih =>
    rw [special, special] at ih ⊢
    rw [List.map_cons, List.filter_cons, List.filter_cons, ih]
    cases hc : c.isPlain with
    | true =>
      rw [hplain c hc]
      rfl
    | false => rw [h c hc, hc]

theorem special_flatMap {g : Change → List Change} (hplain : ∀ c, c.isPlain = true → Plain (g c))
    (h : ∀ c, c.isPlain = false → g c = [c]) : special (l.flatMap g) = special l := by
  induction l with
  | nil => rfl
  | cons c l ih =>
    rw [List.flatMap_cons, special_append, ih]
    cases hc : c.isPlain with
    | true =>
      rw [special_of_plain (hplain c hc), special, special, List.filter_cons, hc]
      rfl
    | false =>
      rw [h c hc, ← special_append]
      rfl

theorem special_foldl {step : List Change → A → List Change} (h : ∀ plan a, special (step plan a) = special plan) :
    ∀ (l : List A) (plan : List Change), special (l.foldl step plan) = special plan
  | [], _ => rfl
  | a :: l, plan => (special_foldl h l (step plan a)).trans (h plan a)

end Pbps.Diff

/-! The passes over tables under other role names: the policies of a table are compared as their roles are, so one name stands for
one role, and a table that a change carries comes with its policies. All other parts of a table are the same. -/

namespace Pbps

open Std (ExtTreeMap ExtTreeSet)
open Std.ExtTreeMap (ext_getElem? getElem?_map keys_map)
open Std.ExtTreeSet (ext_mem mem_ofList mem_toList)
open Option (bind_some map_some some_inj)

variable {f : RoleName → RoleName}

/-! ## Policies -/

def InjOn (f : RoleName → RoleName) (roles : List RoleName) : Prop := ∀ a ∈ roles, ∀ b ∈ roles, f a = f b → a = b

variable {roles : List RoleName} {t : Table}

theorem RowPolicy.mapRoles_inj (hf : InjOn f roles) {p q : RowPolicy} (hp : p.roles ⊆ roles) (hq : q.roles ⊆ roles)
    (h : p.mapRoles f = q.mapRoles f) : p = q := by
  have hsets : ∀ a b : ExtTreeSet RoleName, a.toList ⊆ roles → b.toList ⊆ roles →
      ExtTreeSet.ofList (a.toList.map f) = ExtTreeSet.ofList (b.toList.map f) → ∀ role ∈ a, role ∈ b := by
    intro a b ha hb heq role hrole
    have hmem : f role ∈ ExtTreeSet.ofList (b.toList.map f) := by
      rw [← heq, mem_ofList, List.contains_iff_mem]
      exact List.mem_map_of_mem (mem_toList.2 hrole)
    rw [mem_ofList, List.contains_iff_mem, List.mem_map] at hmem
    obtain ⟨role', hrole', hname⟩ := hmem
    obtain rfl := hf _ (hb hrole') _ (ha (mem_toList.2 hrole)) hname
    exact mem_toList.1 hrole'
  rcases p with ⟨command, restrictive, to_, using_, check⟩
  rcases q with ⟨command', restrictive', to_', using_', check'⟩
  cases to_ with
  | public_ =>
    cases to_' with
    | public_ => exact h
    | roles names => cases h
  | roles names =>
    cases to_' with
    | public_ => cases h
    | roles names' =>
      obtain ⟨rfl, rfl, hto, rfl, rfl⟩ := RowPolicy.mk.inj h
      have heq := PolicyRoles.roles.inj hto
      have hnames : names = names' := ext_mem fun role =>
        ⟨hsets names names' hp hq heq role, hsets names' names hq hp heq.symm role⟩
      rw [hnames]

theorem Table.roles_subset {name : String} {policy : RowPolicy} (h : t.rowPolicies[name]? = some policy) :
    policy.roles ⊆ t.policyRoles := fun _ hrole =>
  List.mem_flatMap.2 ⟨(name, policy), ExtTreeMap.mem_toList_iff_getElem?_eq_some.2 h, hrole⟩

theorem Table.policies_inj (hf : InjOn f roles) {u : Table} (ht : t.policyRoles ⊆ roles) (hu : u.policyRoles ⊆ roles)
    (name : String) :
    (t.mapRoles f).rowPolicies[name]? = (u.mapRoles f).rowPolicies[name]? ↔ t.rowPolicies[name]? = u.rowPolicies[name]? := by
  show (t.rowPolicies.map fun _ => RowPolicy.mapRoles f)[name]? = (u.rowPolicies.map fun _ => RowPolicy.mapRoles f)[name]? ↔ _
  rw [getElem?_map, getElem?_map]
  cases hp : t.rowPolicies[name]? with
  | none => cases u.rowPolicies[name]? <;> simp
  | some p =>
    cases hq : u.rowPolicies[name]? with
    | none => simp
    | some q =>
      rw [map_some, map_some, some_inj, some_inj]
      refine ⟨RowPolicy.mapRoles_inj hf ?_ ?_, congrArg _⟩
      · exact List.Subset.trans (Table.roles_subset hp) ht
      · exact List.Subset.trans (Table.roles_subset hq) hu

theorem Table.mapRoles_inj (hf : InjOn f roles) {u : Table} (ht : t.policyRoles ⊆ roles) (hu : u.policyRoles ⊆ roles) :
    t.mapRoles f = u.mapRoles f ↔ t = u := by
  refine ⟨fun h => ?_, congrArg _⟩
  have hpolicies : t.rowPolicies = u.rowPolicies :=
    ext_getElem? fun name => (Table.policies_inj hf ht hu name).1 (congrArg (·.rowPolicies[name]?) h)
  rcases t with ⟨_⟩
  rcases u with ⟨_⟩
  cases hpolicies
  simpa [Table.mapRoles] using h

theorem Table.mapRoles_eq_empty : t.mapRoles f = {} ↔ t = {} := by
  constructor
  · intro h
    have hpolicies : t.rowPolicies = ∅ := by
      refine ext_getElem? fun name => ?_
      have hname := congrArg (·.rowPolicies[name]?) h
      dsimp only [Table.mapRoles] at hname
      rw [getElem?_map] at hname
      simpa using hname
    rcases t with ⟨_⟩
    cases hpolicies
    simpa [Table.mapRoles] using h
  · rintro rfl
    simp [Table.mapRoles]

namespace Diff

/-! ## What a pass gives -/

/-- What a pass gives, with the roles its changes name under their new names. -/
def Out.mapRoles (f : RoleName → RoleName) (out : Out) : Out := ⟨out.changes.map (Change.mapRoles f), out.errs⟩

@[simp] theorem Out.changes_mapRoles (out : Out) : (out.mapRoles f).changes = out.changes.map (Change.mapRoles f) := rfl

@[simp] theorem Out.mapRoles_append (a b : Out) : (a ++ b).mapRoles f = a.mapRoles f ++ b.mapRoles f :=
  congrArg (Out.mk · _) List.map_append

@[simp] theorem Out.mapRoles_change (c : Change) : (Out.change c).mapRoles f = .change (c.mapRoles f) := rfl

@[simp] theorem Out.mapRoles_err (e : DiffError) : (Out.err e).mapRoles f = .err e := rfl

@[simp] theorem Out.mapRoles_empty : ({} : Out).mapRoles f = {} := rfl

@[simp] theorem Out.mapRoles_forEach {A : Type} (l : List A) (g : A → Out) :
    (Out.forEach l g).mapRoles f = .forEach l fun a => (g a).mapRoles f :=
  congrArg (Out.mk · _) List.map_flatMap

theorem Out.forEach_map {A B : Type} (l : List A) (h : A → B) (g : B → Out) :
    Out.forEach (l.map h) g = .forEach l fun a => g (h a) := by
  simp only [Out.forEach, List.flatMap_map]

theorem Out.mapRoles_of_plain {out : Out} (h : Plain out.changes) : out.mapRoles f = out :=
  congrArg (Out.mk · out.errs) h.map_mapRoles

/-! ## Dropped and created tables -/

section Sides

variable (dialect : Dialect) (base declared : Side)

variable (uid : Uid) (name : TableName)

theorem parentShape_mapRoles : parentShape dialect (base.mapRoles f) (declared.mapRoles f) uid =
    (parentShape dialect base declared uid).map fun s => { s with goal := s.goal.mapRoles f } := by
  unfold parentShape
  split
  · dsimp only [Side.mapRoles, IdsFile.mapRoles]
    cases base.ids.tables[uid]? with
    | none => rfl
    | some oldName =>
      cases declared.ids.tables[uid]? with
      | none => rfl
      | some newName =>
        dsimp only [Option.bind_eq_bind, bind_some]
        rw [Schema.getElem?_tables_mapRoles, Schema.getElem?_tables_mapRoles]
        cases base.schema.tables[oldName]? with
        | none => rfl
        | some old => cases declared.schema.tables[newName]? <;> rfl
  · rfl

theorem finalParent_mapRoles :
    finalParent dialect (base.mapRoles f) (declared.mapRoles f) name = finalParent dialect base declared name := by
  show Option.getD (((base.ids.tableUid name).bind (parentShape dialect (base.mapRoles f) (declared.mapRoles f))).map _) name = _
  unfold finalParent
  cases base.ids.tableUid name with
  | none => rfl
  | some uid =>
    rw [bind_some, bind_some, parentShape_mapRoles, Option.map_map]
    rfl

theorem droppedTables_mapRoles :
    droppedTables dialect (base.mapRoles f) (declared.mapRoles f) = droppedTables dialect base declared := by
  have htable : ∀ uid name, dropTable dialect (base.mapRoles f) (declared.mapRoles f) uid name =
      dropTable dialect base declared uid name := by
    intro uid name
    unfold dropTable
    simp only [finalParent_mapRoles]
    dsimp only [Side.mapRoles]
    rw [Schema.map_tables_mapRoles _ _ fun _ => rfl, Schema.bind_tables_mapRoles _ _ fun _ => rfl]
  unfold droppedTables
  simp only [htable]
  rfl

theorem standingDefault_mapRoles (of : PartitionOf) :
    standingDefault (base.mapRoles f) (declared.mapRoles f) of = standingDefault base declared of := by
  have hdefault : ∀ (schema : Schema) (name parent : TableName),
      ((schema.mapRoles f).tables[name]?.bind (·.partitionOf)).any (fun o => o.parent = parent && o.bound = .default) =
        (schema.tables[name]?.bind (·.partitionOf)).any fun o => o.parent = parent && o.bound = .default := by
    intro schema name parent
    rw [Schema.bind_tables_mapRoles _ _ fun _ => rfl]
  unfold standingDefault
  dsimp only [Side.mapRoles]
  simp only [hdefault]
  rfl

theorem createTable_mapRoles (t : Table) : createTable (base.mapRoles f) (declared.mapRoles f) uid name (t.mapRoles f) =
      (createTable base declared uid name t).mapRoles f := by
  have hpolicies : (Out.forEach (t.mapRoles f).rowPolicies.toList fun e => .change (.createPolicy name e.1 e.2 .created)) =
      (Out.forEach t.rowPolicies.toList fun e => .change (.createPolicy name e.1 e.2 .created)).mapRoles f := by
    rw [show (t.mapRoles f).rowPolicies = t.rowPolicies.map fun _ => RowPolicy.mapRoles f from rfl, ExtTreeMap.toList_map,
      Out.forEach_map, Out.mapRoles_forEach]
    rfl
  unfold createTable
  simp only [Out.mapRoles_append]
  refine congrArg₂ _ (congrArg₂ _ (congrArg₂ _ (congrArg₂ _ (congrArg₂ _ ?_ ?_) hpolicies) ?_) ?_) ?_
  · rw [Out.mapRoles_forEach]
    rfl
  · exact (Out.mapRoles_of_plain (quiet_insertRows _ _).plain).symm
  · exact (Out.mapRoles_of_plain (plain_changeIf.2 fun _ => rfl)).symm
  · rw [Out.mapRoles_forEach]
    rfl
  · rw [funext (standingDefault_mapRoles base declared)]
    rfl

theorem createdTables_mapRoles :
    createdTables (base.mapRoles f) (declared.mapRoles f) = (createdTables base declared).mapRoles f := by
  unfold createdTables
  rw [Out.mapRoles_forEach]
  refine congrArg (Out.forEach _) (funext fun e => ?_)
  rcases e with ⟨uid, name⟩
  show (if base.ids.tables.contains uid then _ else (((declared.schema.mapRoles f).tables[name]?).map
    (createTable (base.mapRoles f) (declared.mapRoles f) uid name)).getD _) = Out.mapRoles f (if _ then _ else _)
  split
  · rfl
  · rw [Schema.getElem?_tables_mapRoles]
    cases declared.schema.tables[name]? with
    | none => rfl
    | some t => exact createTable_mapRoles base declared uid name t

theorem renameTable_mapRoles (baseName declaredName : TableName) :
    renameTable (base.mapRoles f) uid baseName declaredName = renameTable base uid baseName declaredName := by
  unfold renameTable
  dsimp only [Side.mapRoles]
  rw [Schema.map_tables_mapRoles _ _ fun _ => rfl]

end Sides

/-! ## Changes a pass reads -/

section Readers

variable (plan : List Change)

theorem filterMap_mapRoles {A : Type} {q : Change → Option A} (h : ∀ c, q (c.mapRoles f) = q c) :
    (plan.map (Change.mapRoles f)).filterMap q = plan.filterMap q := by
  rw [List.filterMap_map]
  exact congrArg (plan.filterMap ·) (funext h)

theorem any_mapRoles {q : Change → Bool} (h : ∀ c, q (c.mapRoles f) = q c) :
    (plan.map (Change.mapRoles f)).any q = plan.any q := by
  rw [List.any_map]
  exact congrArg (plan.any ·) (funext h)

theorem labelRenames_mapRoles : labelRenames (plan.map (Change.mapRoles f)) = labelRenames plan := by
  unfold labelRenames
  rw [List.foldl_map]
  refine congrArg (ExtTreeMap.map _ ·) (congrArg (List.foldl · _ plan) (funext₂ fun out c => ?_))
  cases c <;> rfl

theorem restoresKey_mapRoles (name : TableName) (keyColumn : ColumnName) :
    restoresKey (plan.map (Change.mapRoles f)) name keyColumn = restoresKey plan name keyColumn := by
  unfold restoresKey
  exact any_mapRoles plan fun c => by cases c <;> rfl

end Readers

/-! ## Kept tables -/

theorem Side.policyRoles_subset {side : Side} {name : TableName} {t : Table} (h : side.schema.tables[name]? = some t) :
    t.policyRoles ⊆ side.roles := fun _ hrole =>
  List.mem_append_left _ (List.mem_append_right _
    (List.mem_flatMap.2 ⟨(name, t), ExtTreeMap.mem_toList_iff_getElem?_eq_some.2 h, hrole⟩))

section Kept

variable (dialect : Dialect) (base declared : Side) (uid : Uid) (baseName declaredName : TableName)
  (baseTable declaredTable : Table) (renames : Renames)

variable {roles : List RoleName}

theorem diffPolicies_mapRoles (hf : InjOn f roles) (hbase : baseTable.policyRoles ⊆ roles)
    (hdeclared : declaredTable.policyRoles ⊆ roles) :
    diffPolicies baseName declaredName (baseTable.mapRoles f) (declaredTable.mapRoles f) =
      (diffPolicies baseName declaredName baseTable declaredTable).mapRoles f := by
  have hkeys : ∀ t : Table, (t.mapRoles f).rowPolicies.keys = t.rowPolicies.keys := fun _ => keys_map
  have hpolicy : ∀ (t : Table) (name : String),
      (t.mapRoles f).rowPolicies[name]? = t.rowPolicies[name]?.map (RowPolicy.mapRoles f) := fun _ _ => getElem?_map
  unfold diffPolicies
  dsimp only
  rw [hkeys, hkeys, Out.mapRoles_forEach]
  refine congrArg (Out.forEach _) (funext fun name => ?_)
  simp only [Table.policies_inj hf hbase hdeclared name]
  split
  · rfl
  · rw [hpolicy, hpolicy, Out.mapRoles_append]
    refine congrArg₂ _ ?_ ?_
    · cases baseTable.rowPolicies[name]? <;> rfl
    · cases declaredTable.rowPolicies[name]? <;> rfl

theorem detachedNames_mapRoles (hf : InjOn f roles) {parent partition declared : Table} (hparent : parent.policyRoles ⊆ roles)
    (hdeclared : declared.policyRoles ⊆ roles) (pending : Bool) :
    detachedNames dialect (parent.mapRoles f) (partition.mapRoles f) (declared.mapRoles f) pending =
      detachedNames dialect parent partition declared pending := by
  have hrest : ∀ t u : Table, t.policyRoles ⊆ roles → u.policyRoles ⊆ roles →
      (detachedRest (t.mapRoles f) ≠ detachedRest (u.mapRoles f)) = (detachedRest t ≠ detachedRest u) := by
    intro t u ht hu
    refine propext (not_congr ?_)
    exact Table.mapRoles_inj hf (t := detachedRest t) (u := detachedRest u) ht hu
  have hfinal : (detachedRest (asHeldBy (parent.mapRoles f) (partition.mapRoles f)) ≠ detachedRest (declared.mapRoles f)) =
      (detachedRest (asHeldBy parent partition) ≠ detachedRest declared) := hrest (asHeldBy parent partition) declared hparent hdeclared
  unfold detachedNames
  dsimp only
  simp only [show ∀ t : Table, ∀ a b c, detachedRest { t with checks := a, indexes := b, foreignKeys := c } = detachedRest t from
    fun _ _ _ _ => rfl, hfinal]
  rfl

theorem apply_mapRoles (t : Table) (name : TableName) : renames.apply (t.mapRoles f) name = (renames.apply t name).mapRoles f := by
  unfold Renames.apply
  split <;> rfl

theorem policyRoles_apply (t : Table) (name : TableName) : (renames.apply t name).policyRoles = t.policyRoles := by
  unfold Renames.apply
  split <;> rfl

theorem detachPartition_mapRoles (hf : InjOn f roles) (hbase : base.roles ⊆ roles) (hdeclared : declaredTable.policyRoles ⊆ roles)
    (of : PartitionOf) :
    detachPartition dialect (base.mapRoles f) (declared.mapRoles f) uid baseName declaredName (baseTable.mapRoles f)
        (declaredTable.mapRoles f) renames of =
      (detachPartition dialect base declared uid baseName declaredName baseTable declaredTable renames of).mapRoles f := by
  have hlookup : (base.mapRoles f).schema.tables[of.parent]? = base.schema.tables[of.parent]?.map (Table.mapRoles f) :=
    Schema.getElem?_tables_mapRoles _ _
  have hpending : (((base.mapRoles f).ids.tableUid of.parent).bind
        (parentShape dialect (base.mapRoles f) (declared.mapRoles f))).any ParentShape.pending =
      ((base.ids.tableUid of.parent).bind (parentShape dialect base declared)).any ParentShape.pending := by
    show ((base.ids.tableUid of.parent).bind _).any _ = _
    cases base.ids.tableUid of.parent with
    | none => rfl
    | some uid =>
      rw [bind_some, bind_some, parentShape_mapRoles]
      cases parentShape dialect base declared uid <;> rfl
  unfold detachPartition
  rw [finalParent_mapRoles, hlookup]
  cases hparent : base.schema.tables[of.parent]? with
  | none => rfl
  | some parent =>
    have hroles : (renames.apply parent of.parent).policyRoles ⊆ roles := by
      rw [policyRoles_apply]
      exact List.Subset.trans (Side.policyRoles_subset hparent) hbase
    dsimp only [map_some]
    rw [apply_mapRoles, apply_mapRoles, detachedNames_mapRoles dialect hf hroles hdeclared, hpending]
    split <;> rfl

variable (parent : Table) (of : PartitionOf) (goal : Option Table) (pending : Bool)

theorem attachKey_mapRoles : attachKey dialect (declared.mapRoles f) uid of = attachKey dialect declared uid of := by
  unfold attachKey
  dsimp only [Side.mapRoles]
  rw [Schema.bind_tables_mapRoles _ _ fun _ => rfl]
  rfl

theorem attachDefault_mapRoles (column : ColumnName) :
    attachDefault dialect (base.mapRoles f) (declared.mapRoles f) uid declaredName of column =
      attachDefault dialect base declared uid declaredName of column := by
  unfold attachDefault
  dsimp only [Side.mapRoles]
  rw [Schema.bind_tables_mapRoles declared.schema _ fun _ => rfl, Schema.bind_tables_mapRoles base.schema _ fun _ => rfl]

theorem diffPartitionColumns_mapRoles (t u : Table) :
    diffPartitionColumns dialect uid declaredName (t.mapRoles f) (u.mapRoles f) (base.mapRoles f) (declared.mapRoles f) =
      diffPartitionColumns dialect uid declaredName t u base declared := by
  have hloosened : ∀ (parent : Option Table) baseOf,
      loosenedColumns (parent.map (Table.mapRoles f)) baseOf = loosenedColumns parent baseOf := by
    intro parent baseOf
    cases parent <;> rfl
  have hcolumn : ∀ now (parent : Option Table) wasColumns baseOf,
      diffPartitionColumn dialect uid declaredName now (parent.map (Table.mapRoles f)) wasColumns baseOf =
        diffPartitionColumn dialect uid declaredName now parent wasColumns baseOf := by
    intro now parent wasColumns baseOf
    cases parent <;> rfl
  unfold diffPartitionColumns
  dsimp only [Table.mapRoles, Side.mapRoles]
  cases t.partitionOf with
  | none => rfl
  | some was =>
    cases u.partitionOf with
    | none => rfl
    | some now =>
      dsimp only
      rw [Schema.getElem?_tables_mapRoles, Schema.map_tables_mapRoles base.schema _ fun _ => rfl, hloosened, hcolumn]
      rfl

theorem ownColumn_mapRoles :
    ownColumn baseName (parent.mapRoles f) of (goal.map (Table.mapRoles f)) pending = ownColumn baseName parent of goal pending := by
  funext name c
  cases pending with
  | false => rfl
  | true => cases goal <;> rfl

theorem isDefaultless_mapRoles :
    isDefaultless (parent.mapRoles f) (goal.map (Table.mapRoles f)) pending = isDefaultless parent goal pending := by
  funext name c
  cases pending with
  | false => rfl
  | true => cases goal <;> rfl

theorem attachedTable_mapRoles (t parent u : Table) (of : PartitionOf) (goal : Option Table) (pending : Bool) :
    attachedTable baseName (t.mapRoles f) (parent.mapRoles f) (u.mapRoles f) of (goal.map (Table.mapRoles f)) pending =
      attachedTable baseName t parent u of goal pending := by
  unfold attachedTable
  rw [ownColumn_mapRoles]
  rfl

theorem attached_mapRoles {of : PartitionOf} {readBack : Option Schema} {boundary : Option (TableName × Bool × Table)} :
    attached dialect baseName declaredName (baseTable.mapRoles f) (declaredTable.mapRoles f) of (base.schema.mapRoles f) readBack
        (boundary.map fun b => (b.1, b.2.1, b.2.2.mapRoles f)) =
      attached dialect baseName declaredName baseTable declaredTable of base.schema readBack boundary := by
  have hrest : (attachedRest (baseTable.mapRoles f) ≠ {}) = (attachedRest baseTable ≠ {}) :=
    propext (not_congr (Table.mapRoles_eq_empty (t := attachedRest baseTable)))
  have hreferenced : ∀ g : TableName → Table → List ShapeProblem, (∀ n t, g n (t.mapRoles f) = g n t) →
      (base.schema.mapRoles f).tables.toList.flatMap (fun e => g e.1 e.2) = base.schema.tables.toList.flatMap fun e => g e.1 e.2 := by
    intro g hg
    rw [Schema.toList_tables_mapRoles, List.flatMap_map]
    simp only [hg]
  have hparent : ∀ n : TableName, (((base.schema.mapRoles f).tables[n]?).filter fun p => p.partitionBy.isSome && p.partitionOf.isNone) =
      ((base.schema.tables[n]?).filter fun p => p.partitionBy.isSome && p.partitionOf.isNone).map (Table.mapRoles f) := by
    intro n
    rw [Schema.getElem?_tables_mapRoles, Option.filter_map]
    rfl
  have hname : (boundary.map fun b => (b.1, b.2.1, b.2.2.mapRoles f)).map (·.1) = boundary.map (·.1) := by cases boundary <;> rfl
  have hpending : (boundary.map fun b => (b.1, b.2.1, b.2.2.mapRoles f)).map (·.2.1) = boundary.map (·.2.1) := by
    cases boundary <;> rfl
  have hgoal : (boundary.map fun b => (b.1, b.2.1, b.2.2.mapRoles f)).map (·.2.2) =
      (boundary.map (·.2.2)).map (Table.mapRoles f) := by
    cases boundary <;> rfl
  unfold attached
  rw [hname, hpending, hgoal]
  dsimp only
  rw [hparent, hreferenced (fun other t => t.foreignKeys.toList.filterMap fun e =>
    if e.2.referencesTable = baseName then some (ShapeProblem.referencedBy other e.1) else none) fun _ _ => rfl]
  cases (base.schema.tables[(boundary.map (·.1)).getD of.parent]?).filter fun p =>
      p.partitionBy.isSome && p.partitionOf.isNone with
  | none => rfl
  | some parent =>
    dsimp only [map_some]
    simp only [attachedTable_mapRoles, isDefaultless_mapRoles, hrest]
    rfl

theorem attachPartition_mapRoles (readBack : Option Schema) (of : PartitionOf) :
    attachPartition dialect (base.mapRoles f) (declared.mapRoles f) uid baseName declaredName (baseTable.mapRoles f)
        (declaredTable.mapRoles f) renames readBack of =
      (attachPartition dialect base declared uid baseName declaredName baseTable declaredTable renames readBack of).mapRoles f := by
  have hboundary : (((declared.mapRoles f).ids.tableUid of.parent).bind
        (parentShape dialect (base.mapRoles f) (declared.mapRoles f))).map (fun s => (s.oldName, s.pending, s.goal)) =
      (((declared.ids.tableUid of.parent).bind (parentShape dialect base declared)).map fun s =>
        (s.oldName, s.pending, s.goal)).map fun b => (b.1, b.2.1, b.2.2.mapRoles f) := by
    show ((declared.ids.tableUid of.parent).bind _).map _ = _
    cases declared.ids.tableUid of.parent with
    | none => rfl
    | some uid =>
      rw [bind_some, bind_some, parentShape_mapRoles]
      cases parentShape dialect base declared uid <;> rfl
  unfold attachPartition
  dsimp only
  rw [hboundary, base.schema_mapRoles, attached_mapRoles]
  split
  · next a ha =>
    have hcolumns := diffPartitionColumns_mapRoles (f := f) dialect base declared uid declaredName a.table declaredTable
    simp only [Out.mapRoles_append]
    refine congrArg₂ _ (congrArg₂ _ (congrArg₂ _ (congrArg₂ _ (congrArg₂ _ (congrArg₂ _ (congrArg₂ _ ?_ ?_) ?_) ?_) ?_) ?_) ?_) ?_
    · exact (Out.mapRoles_of_plain (quiet_attached dialect baseName declaredName baseTable declaredTable ha).plain).symm
    · exact (Out.mapRoles_of_plain (plain_forEach.2 fun _ _ => by simp [Change.isPlain])).symm
    · rw [attachKey_mapRoles]
      rfl
    · exact (Out.mapRoles_of_plain (quiet_diffConstraints _ _ _).plain).symm
    · exact (Out.mapRoles_of_plain (quiet_diffSettings _ _ _).2.2.1.plain).symm
    · exact (Out.mapRoles_of_plain (quiet_diffSettings _ _ _).2.2.2.plain).symm
    · exact hcolumns.trans (Out.mapRoles_of_plain (quiet_diffPartitionColumns _ _ _ _).plain).symm
    · rw [funext (attachDefault_mapRoles dialect base declared uid declaredName of)]
      exact (Out.mapRoles_of_plain (plain_forEach.2 fun _ _ => (quiet_attachDefault _ _ _ _ _).plain)).symm
  · rfl

theorem diffStandingParts_mapRoles :
    diffStandingParts dialect (base.mapRoles f) (declared.mapRoles f) uid baseName declaredName (baseTable.mapRoles f)
        (declaredTable.mapRoles f) renames =
      diffStandingParts dialect base declared uid baseName declaredName baseTable declaredTable renames := by
  unfold diffStandingParts
  rw [apply_mapRoles, diffPartitionColumns_mapRoles]
  rfl

theorem diffStandingTable_mapRoles (plan : List Change) :
    diffStandingTable dialect (base.mapRoles f) (declared.mapRoles f) uid baseName declaredName (baseTable.mapRoles f)
        (declaredTable.mapRoles f) renames (plan.map (Change.mapRoles f)) =
      diffStandingTable dialect base declared uid baseName declaredName baseTable declaredTable renames plan := by
  have hrows : ∀ pairs, forwardedRows base.ids pairs (baseTable.mapRoles f) = (forwardedRows base.ids pairs baseTable).mapRoles f := by
    intro pairs
    rw [forwardedRows, forwardedRows, show (baseTable.mapRoles f).data = baseTable.data from rfl]
    cases baseTable.data with
    | none => rfl
    | some data =>
      dsimp only
      rw [apply_ite (Table.mapRoles f)]
      rfl
  have hdata : ∀ (t u : Table) names plan, diffData declaredName (t.mapRoles f) (u.mapRoles f) names
      (List.map (Change.mapRoles f) plan) = diffData declaredName t u names plan := by
    intro t u names plan
    have herror : ∀ keyColumn, dataKeyError declaredName (t.mapRoles f) names (plan.map (Change.mapRoles f)) keyColumn =
        dataKeyError declaredName t names plan keyColumn := by
      intro keyColumn
      unfold dataKeyError
      rw [restoresKey_mapRoles]
      rfl
    unfold diffData
    simp only [herror]
    rfl
  unfold diffStandingTable
  dsimp only
  rw [diffStandingParts_mapRoles, Plain.append_map (each_diffStandingParts _ _ _ _ _ _ _ _ admits_plain) plan, labelRenames_mapRoles]
  refine congrArg₂ _ rfl ?_
  exact (congrArg (diffData declaredName · _ _ _) (hrows _)).trans (hdata ..)

/-- Comparing two mapped sides is mapping what comparing them gives. -/
theorem diffKeptTable_mapRoles (hf : InjOn f roles) (hbase : base.roles ⊆ roles) (hbaseTable : baseTable.policyRoles ⊆ roles)
    (hdeclaredTable : declaredTable.policyRoles ⊆ roles) (readBack : Option Schema) (plan : List Change) :
    diffKeptTable dialect (base.mapRoles f) (declared.mapRoles f) uid baseName declaredName (baseTable.mapRoles f)
        (declaredTable.mapRoles f) renames readBack (plan.map (Change.mapRoles f)) =
      (diffKeptTable dialect base declared uid baseName declaredName baseTable declaredTable renames readBack plan).mapRoles f := by
  have hhead : diffPolicies baseName declaredName (baseTable.mapRoles f) (declaredTable.mapRoles f) ++
        diffRowSecurity uid declaredName (baseTable.mapRoles f) (declaredTable.mapRoles f) =
      (diffPolicies baseName declaredName baseTable declaredTable ++
        diffRowSecurity uid declaredName baseTable declaredTable).mapRoles f := by
    rw [Out.mapRoles_append, Out.mapRoles_of_plain (quiet_diffRowSecurity _ _ _ _).plain,
      diffPolicies_mapRoles baseName declaredName baseTable declaredTable hf hbaseTable hdeclaredTable]
    rfl
  unfold diffKeptTable
  dsimp only
  rw [hhead, show (baseTable.mapRoles f).partitionOf = baseTable.partitionOf from rfl,
    show (declaredTable.mapRoles f).partitionOf = declaredTable.partitionOf from rfl,
    show (declaredTable.mapRoles f).partitionBy = declaredTable.partitionBy from rfl]
  generalize diffPolicies baseName declaredName baseTable declaredTable ++
    diffRowSecurity uid declaredName baseTable declaredTable = head
  have hstanding : diffStandingTable dialect (base.mapRoles f) (declared.mapRoles f) uid baseName declaredName
        (baseTable.mapRoles f) (declaredTable.mapRoles f) renames (plan.map (Change.mapRoles f) ++ (head.mapRoles f).changes) =
      (diffStandingTable dialect base declared uid baseName declaredName baseTable declaredTable renames
        (plan ++ head.changes)).mapRoles f := by
    rw [Out.changes_mapRoles, ← List.map_append, diffStandingTable_mapRoles,
      Out.mapRoles_of_plain (each_diffStandingTable _ _ _ _ _ _ _ _ admits_plain)]
  rw [Out.mapRoles_append]
  refine congrArg₂ _ rfl ?_
  cases baseTable.partitionOf with
  | none =>
    cases declaredTable.partitionOf with
    | none => exact hstanding
    | some of => exact attachPartition_mapRoles ..
  | some was =>
    cases declaredTable.partitionOf with
    | none =>
      dsimp only
      split
      · exact detachPartition_mapRoles _ _ _ _ _ _ _ _ _ hf hbase hdeclaredTable _
      · exact hstanding
    | some of => exact hstanding

end Kept

/-! ## The loop -/

section Loop

variable (dialect : Dialect) (base declared : Side) (renames : Renames) (readBack : Option Schema)

variable {roles : List RoleName}

theorem keptTable_mapRoles (hf : InjOn f roles) (hbase : base.roles ⊆ roles) (hdeclared : declared.roles ⊆ roles)
    (plan : List Change) (uid : Uid) (declaredName : TableName) :
    keptTable dialect (base.mapRoles f) (declared.mapRoles f) renames readBack (plan.map (Change.mapRoles f)) uid declaredName =
      (keptTable dialect base declared renames readBack plan uid declaredName).mapRoles f := by
  rw [keptTable, keptTable, show (base.mapRoles f).ids.tables = base.ids.tables from rfl]
  cases base.ids.tables[uid]? with
  | none => rfl
  | some baseName =>
    dsimp only
    rw [renameTable_mapRoles, Out.mapRoles_append, Out.mapRoles_of_plain (plain_renameTable _ _ _ _),
      (plain_renameTable _ _ _ _).append_map plan, base.schema_mapRoles,
      declared.schema_mapRoles, Schema.getElem?_tables_mapRoles,
      Schema.getElem?_tables_mapRoles]
    refine congrArg₂ _ rfl ?_
    cases hbaseTable : base.schema.tables[baseName]? with
    | none => rfl
    | some baseTable =>
      cases hdeclaredTable : declared.schema.tables[declaredName]? with
      | none => rfl
      | some declaredTable =>
        dsimp only [map_some]
        exact diffKeptTable_mapRoles _ _ _ _ _ _ _ _ _ hf hbase (List.Subset.trans (Side.policyRoles_subset hbaseTable) hbase)
          (List.Subset.trans (Side.policyRoles_subset hdeclaredTable) hdeclared) _ _

theorem keptTables_mapRoles (hf : InjOn f roles) (hbase : base.roles ⊆ roles) (hdeclared : declared.roles ⊆ roles) :
    ∀ (l : List (Uid × TableName)) (plan : List Change),
    keptTables dialect (base.mapRoles f) (declared.mapRoles f) renames readBack (plan.map (Change.mapRoles f)) l =
      (keptTables dialect base declared renames readBack plan l).mapRoles f
  | [], _ => rfl
  | (uid, name) :: rest, plan => by
    rw [keptTables, keptTables, keptTable_mapRoles dialect base declared renames readBack hf hbase hdeclared]
    rw [Out.changes_mapRoles, ← List.map_append, keptTables_mapRoles hf hbase hdeclared rest, Out.mapRoles_append]

theorem diffTables_mapRoles (hf : InjOn f roles) (hbase : base.roles ⊆ roles) (hdeclared : declared.roles ⊆ roles)
    (plan : List Change) :
    diffTables dialect (base.mapRoles f) (declared.mapRoles f) renames readBack (plan.map (Change.mapRoles f)) =
      (diffTables dialect base declared renames readBack plan).mapRoles f := by
  unfold diffTables
  dsimp only
  rw [droppedTables_mapRoles, createdTables_mapRoles, Out.changes_mapRoles,
    (quiet_droppedTables dialect base declared).plain.append_map plan, ← List.map_append]
  simp only [Out.mapRoles_append]
  refine congrArg₂ _ (congrArg₂ _ ?_ rfl) (keptTables_mapRoles dialect base declared renames readBack hf hbase hdeclared _ _)
  exact (Out.mapRoles_of_plain (quiet_droppedTables dialect base declared).plain).symm

end Loop

end Diff

end Pbps
