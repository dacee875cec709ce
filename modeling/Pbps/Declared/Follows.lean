/-
The record follows a plan: carried over a step, it is what would be taken anew from the schema after it.
Each arm of `advance_over` is compared with the step's edit of the schema, map by map; a run of steps is
then an induction over its list.
-/
import Pbps.Diff.Modules
import Pbps.Declared.Overlay

namespace Pbps

open Std (ExtTreeMap ExtTreeSet)
open Pbps.Diff (Change)
open Option Std.ExtTreeMap

/-! ## Edits of a schema

The schema a step of a plan leaves, for the steps that write a recorded text or move one to another name. -/

def ValueSource.ofDefault : Option String → ValueSource
  | .some text => .default text
  | .none => .none

def ModuleId.reattach (from_ to_ : TableName) : ModuleId → ModuleId
  | .trigger on name => .trigger (if on = from_ then to_ else on) name
  | id => id

namespace Table

def reparent (from_ to_ : TableName) (t : Table) : Table :=
  { t with partitionOf := t.partitionOf.map fun p => { p with parent := if p.parent = from_ then to_ else p.parent } }

/-- What a partition has of its own on the columns of one parent, edited. -/
def editOwn (parent : TableName) (f : ExtTreeMap ColumnName PartitionColumn → ExtTreeMap ColumnName PartitionColumn)
    (t : Table) : Table :=
  { t with partitionOf := t.partitionOf.map fun p => if p.parent = parent then { p with columns := f p.columns } else p }

def setSource (t : Table) (column : ColumnName) (f : ValueSource → ValueSource) : Table :=
  { t with columns := t.columns.mapValues fun c s => if c = column then { s with valueSource := f s.valueSource } else s }

end Table

namespace Schema

def edit (s : Schema) (table : TableName) (f : Table → Table) : Schema :=
  match s.tables[table]? with
  | some t => { s with tables := s.tables.insert table (f t) }
  | none => s

/-- The partitions of one parent, what they have of their own edited. -/
def editPartitions (s : Schema) (parent : TableName)
    (f : ExtTreeMap ColumnName PartitionColumn → ExtTreeMap ColumnName PartitionColumn) : Schema :=
  { s with tables := s.tables.map fun _ t => t.editOwn parent f }

/-- The schema after one step. A rename of a table takes its partitions and its triggers along, and a column's
rename or drop reaches the table's partitions. -/
def after (s : Schema) : Change → Schema
  | .createType _ name definition => { s with types := s.types.insert name definition }
  | .dropType _ name _ => { s with types := s.types.erase name }
  | .renameType _ from_ to_ _ => { s with types := Nested.rekey s.types from_ to_ }
  | .createTable _ name table .. => { s with tables := s.tables.insert name table }
  | .dropTable _ name .. => { s with tables := s.tables.erase name }
  | .renameTable _ from_ to_ _ =>
    { s with
      tables := (Nested.rekey s.tables from_ to_).map fun _ t => t.reparent from_ to_
      modules := .ofList (s.modules.toList.map fun e => (e.1.reattach from_ to_, e.2)) }
  | .addColumn _ table name column => s.edit table fun t => { t with columns := t.columns.push name column }
  | .dropColumn _ column =>
    (s.edit column.table fun t => { t with columns := t.columns.erase column.name }).editPartitions column.table
      fun own => own.erase column.name
  | .renameColumn _ table from_ to_ _ =>
    (s.edit table fun t => { t with columns := t.columns.renameKey from_ to_ }).editPartitions table
      fun own => Nested.rekey own from_ to_
  | .alterColumnDefault _ column _ to_ => s.edit column.table fun t => t.setSource column.name fun _ => .ofDefault to_
  | .alterColumnExpression _ column _ to_ => s.edit column.table fun t => t.setSource column.name fun
    | .generated g => .generated { g with expression := to_ }
    | source => source
  | .addComputedColumn table name computed => s.edit table fun t => { t with computed := t.computed.insert name computed }
  | .dropComputedColumn table name _ => s.edit table fun t => { t with computed := t.computed.erase name }
  | .addCheck table name constraint => s.edit table fun t => { t with checks := t.checks.insert name constraint }
  | .dropCheck table name => s.edit table fun t => { t with checks := t.checks.erase name }
  | .addIndex table name index clustered => s.edit table fun t => { t with
      indexes := t.indexes.insert name index
      clustered := if clustered then some (.index name) else t.clustered }
  | .dropIndex table name => s.edit table fun t => { t with indexes := t.indexes.erase name }
  | .createPolicy table name policy _ => s.edit table fun t => { t with rowPolicies := t.rowPolicies.insert name policy }
  | .dropPolicy table name _ => s.edit table fun t => { t with rowPolicies := t.rowPolicies.erase name }
  | .createModule id module => { s with modules := s.modules.insert id module }
  | .alterModule id module => { s with modules := s.modules.insert id module }
  | .dropModule id _ => { s with modules := s.modules.erase id }
  | _ => s

/-! ## Steps that apply -/

def TableHas (s : Schema) (table : TableName) (P : Table → Prop) : Prop := ∃ t, s.tables[table]? = some t ∧ P t

/-- What the step drops, renames or alters stands, and what it creates does not. -/
def Applicable (s : Schema) : Change → Prop
  | .createType _ name _ => s.types[name]? = none
  | .dropType _ name _ => (s.types[name]?).isSome
  | .renameType _ from_ to_ _ => (s.types[from_]?).isSome ∧ s.types[to_]? = none
  | .createTable _ name .. => s.tables[name]? = none
  | .dropTable _ name .. => (s.tables[name]?).isSome
  | .renameTable _ from_ to_ _ => (s.tables[from_]?).isSome ∧ s.tables[to_]? = none
  | .addColumn _ table name _ => s.TableHas table fun t => t.columns.lookup name = none
  | .dropColumn _ column => s.TableHas column.table fun t => (t.columns.lookup column.name).isSome
  | .renameColumn _ table from_ to_ _ => s.TableHas table fun t =>
    (t.columns.lookup from_).isSome ∧ t.columns.lookup to_ = none
  | .alterColumnDefault _ column _ _ => s.TableHas column.table fun t =>
    ∃ c text, t.columns.lookup column.name = some c ∧ c.valueSource = .ofDefault text
  | .alterColumnExpression _ column _ _ => s.TableHas column.table fun t =>
    ∃ c g, t.columns.lookup column.name = some c ∧ c.valueSource = .generated g
  | .addComputedColumn table name _ => s.TableHas table fun t => t.computed[name]? = none
  | .dropComputedColumn table name _ => s.TableHas table fun t => (t.computed[name]?).isSome
  | .addCheck table name _ => s.TableHas table fun t => t.checks[name]? = none
  | .dropCheck table name => s.TableHas table fun t => (t.checks[name]?).isSome
  | .addIndex table name .. => s.TableHas table fun t => t.indexes[name]? = none
  | .dropIndex table name => s.TableHas table fun t => (t.indexes[name]?).isSome
  | .createPolicy table name .. => s.TableHas table fun t => t.rowPolicies[name]? = none
  | .dropPolicy table name _ => s.TableHas table fun t => (t.rowPolicies[name]?).isSome
  | .createModule id _ => s.modules[id]? = none
  | .alterModule id _ => (s.modules[id]?).isSome
  | .dropModule id _ => (s.modules[id]?).isSome
  | _ => False

/-- A partition has no columns, and what it has of its own is on its parent's. -/
def PartitionsOverride (s : Schema) : Prop :=
  ∀ (name : TableName) (t : Table) (p : PartitionOf), s.tables[name]? = some t → t.partitionOf = some p →
    t.columns = ∅ ∧ ∀ c own, p.columns[c]? = some own → s.TableHas p.parent fun parent => (parent.columns.lookup c).isSome

def TriggersStay (s : Schema) : Change → Prop
  | .renameTable _ from_ .. => ∀ (id : ModuleId) m, s.modules[id]? = some m → id.attachedTo ≠ some from_
  | _ => True

end Schema

namespace Declared


/-! ## One table edited -/

section Edited

variable {s : Schema} {table : TableName} {t t' : Table} {f : Table → Table}

variable (ht : s.tables[table]? = some t)
include ht

theorem edit_eq : s.edit table f = { s with tables := s.tables.insert table (f t) } := by
  rw [Schema.edit, ht]

theorem unedited {K V : Type} [Ord K] [Std.TransOrd K] [Std.LawfulEqOrd K] {g : Table → ExtTreeMap K V} (hg : g t' = g t) :
    Nested.ofMap s.tables g = Nested.ofMap (s.tables.insert table t') g :=
  (Nested.ofMap_insert_same ht hg).symm

theorem fromSchema_edit {e : DeclaredExpressions} (he : e = expressionsOf (s.tables.insert table (f t))) :
    { fromSchema s with expressions := e } = fromSchema (s.edit table f) := by
  rw [edit_eq ht, he]
  rfl

end Edited

/-- What is known of the declarations after a step is what they declare then. -/
def Advances (state : Option Schema) (s : Schema) (c : Change) : Prop :=
  advanceChange state (fromSchema s) c = fromSchema (s.after c)

section Parts

variable {s : Schema} {table : TableName} (state : Option Schema)

variable {computed : ComputedColumn} {policy : RowPolicy}

theorem advance_addComputedColumn {name : ColumnName} (h : s.Applicable (.addComputedColumn table name computed)) :
    Advances state s (.addComputedColumn table name computed) := by
  obtain ⟨t, ht, -⟩ := h
  refine fromSchema_edit ht (DeclaredExpressions.ext ?_ ?_ (Nested.ofMap_insert_insert ht map_insert_eq).symm ?_ ?_ ?_ ?_ ?_ ?_)
    <;> exact unedited ht rfl

theorem advance_dropComputedColumn {name : ColumnName} (h : s.Applicable (.dropComputedColumn table name computed)) :
    Advances state s (.dropComputedColumn table name computed) := by
  obtain ⟨t, ht, -⟩ := h
  refine fromSchema_edit ht (DeclaredExpressions.ext ?_ ?_ (Nested.ofMap_insert_remove ht map_erase_eq).symm ?_ ?_ ?_ ?_ ?_ ?_)
    <;> exact unedited ht rfl

theorem advance_createPolicy {name : String} {origin : Diff.RowSecurityOrigin}
    (h : s.Applicable (.createPolicy table name policy origin)) :
    Advances state s (.createPolicy table name policy origin) := by
  obtain ⟨t, ht, -⟩ := h
  refine fromSchema_edit ht (DeclaredExpressions.ext ?_ ?_ ?_ ?_ ?_ ?_ ?_ ?_ (Nested.ofMap_insert_insert ht map_insert_eq).symm)
    <;> exact unedited ht rfl

theorem advance_dropPolicy {name : String} (h : s.Applicable (.dropPolicy table name policy)) :
    Advances state s (.dropPolicy table name policy) := by
  obtain ⟨t, ht, -⟩ := h
  refine fromSchema_edit ht (DeclaredExpressions.ext ?_ ?_ ?_ ?_ ?_ ?_ ?_ ?_ (Nested.ofMap_insert_remove ht map_erase_eq).symm)
    <;> exact unedited ht rfl

theorem fromSchema_bindings {d : Declared} {b : Bindings} {e : DeclaredExpressions} (hb : b = {})
    (hd : { fromSchema s with expressions := e } = d) : { fromSchema s with expressions := e, bindings := b } = d := by
  rw [hb]
  exact hd

variable {name : ObjectLocalName}

theorem advance_addCheck {constraint : CheckConstraint} (h : s.Applicable (.addCheck table name constraint)) :
    Advances state s (.addCheck table name constraint) := by
  obtain ⟨t, ht, -⟩ := h
  refine fromSchema_bindings (by simp [fromSchema]) (fromSchema_edit ht (DeclaredExpressions.ext ?_ ?_ ?_
    (Nested.ofMap_insert_insert ht map_insert_eq).symm ?_ ?_ ?_ ?_ ?_)) <;> exact unedited ht rfl

theorem advance_dropCheck (h : s.Applicable (.dropCheck table name)) : Advances state s (.dropCheck table name) := by
  obtain ⟨t, ht, -⟩ := h
  refine fromSchema_bindings (by simp [fromSchema]) (fromSchema_edit ht (DeclaredExpressions.ext ?_ ?_ ?_
    (Nested.ofMap_insert_remove ht map_erase_eq).symm ?_ ?_ ?_ ?_ ?_)) <;> exact unedited ht rfl

theorem advance_addIndex {index : Index} {clustered : Bool} (h : s.Applicable (.addIndex table name index clustered)) :
    Advances state s (.addIndex table name index clustered) := by
  obtain ⟨t, ht, -⟩ := h
  refine fromSchema_bindings (by simp [fromSchema]) (fromSchema_edit ht (DeclaredExpressions.ext ?_ ?_ ?_ ?_
    (Nested.ofMap_insert_set ht fun _ => getElem?_filterMap_insert).symm
    (Nested.ofMap_insert_set ht fun _ => getElem?_filterMap_insert).symm ?_ ?_ ?_)) <;> exact unedited ht rfl

theorem advance_dropIndex (h : s.Applicable (.dropIndex table name)) : Advances state s (.dropIndex table name) := by
  obtain ⟨t, ht, -⟩ := h
  refine fromSchema_bindings (by simp [fromSchema]) (fromSchema_edit ht (DeclaredExpressions.ext ?_ ?_ ?_ ?_
    (Nested.ofMap_insert_remove ht filterMap_erase_eq).symm
    (Nested.ofMap_insert_remove ht filterMap_erase_eq).symm ?_ ?_ ?_)) <;> exact unedited ht rfl

end Parts

/-! ## Columns -/

section Columns

variable {s : Schema} {table : TableName} {t : Table} (state : Option Schema)

variable {column : Column} {uid : Uid}

theorem ownColumns_of_column (hs : s.PartitionsOverride) (ht : s.tables[table]? = some t) {c : ColumnName}
    (hc : t.columns.lookup c = some column) : t.partitionOf = none := by
  cases hp : t.partitionOf with
  | none => rfl
  | some p =>
    rw [(hs table t p ht hp).1, AList.lookup_empty] at hc
    cases hc

theorem ownColumns_of_none (h : t.partitionOf = none) : ownColumns t = ∅ := by
  rw [ownColumns, h]

theorem getElem?_defaultsOf_of_none (h : t.partitionOf = none) (c : ColumnName) :
    (defaultsOf t)[c]? = (t.columns.lookup c).bind fun s => s.valueSource.default? := by
  rw [getElem?_defaultsOf, ownColumns_of_none h, getElem?_empty, bind_none, none_or]

variable {name : ColumnName}

theorem advance_addColumn (h : s.Applicable (.addColumn uid table name column))
    (hafter : (s.after (.addColumn uid table name column)).PartitionsOverride) :
    Advances state s (.addColumn uid table name column) := by
  obtain ⟨t, ht, hnone⟩ := h
  -- With the column in it, the table is no partition.
  have hp : t.partitionOf = none := by
    have hcolumn : (t.columns.push name column).lookup name = some column := by rw [AList.lookup_push, if_pos rfl]
    unfold Schema.after at hafter
    simp only [edit_eq ht] at hafter
    exact ownColumns_of_column (t := { t with columns := t.columns.push name column }) hafter
      getElem?_insert_self hcolumn
  have htext : ∀ (text : ValueSource → Option String) (j : ColumnName),
      ((t.columns.push name column).lookup j).bind (fun s => text s.valueSource) =
        if j = name then text column.valueSource else (t.columns.lookup j).bind fun s => text s.valueSource := by
    intro text j
    rw [AList.lookup_push]
    split <;> rfl
  refine fromSchema_bindings (by simp [fromSchema]) (fromSchema_edit ht (DeclaredExpressions.ext
    (Nested.ofMap_insert_set ht fun j => ?_).symm (Nested.ofMap_insert_set ht fun j => ?_).symm (unedited ht rfl)
    (unedited ht rfl) (unedited ht rfl) (unedited ht rfl) (unedited ht rfl) (unedited ht rfl) (unedited ht rfl)))
  · rw [getElem?_defaultsOf_of_none (t := { t with columns := t.columns.push name column }) hp j,
      getElem?_defaultsOf_of_none hp]
    exact htext _ j
  · rw [generatedOf, generatedOf, getElem?_columnTexts, getElem?_columnTexts, htext]

theorem bind_lookup_setSource {text : ValueSource → Option String} {f : ValueSource → ValueSource}
    (hc : t.columns.lookup name = some column) (j : ColumnName) :
    ((t.setSource name f).columns.lookup j).bind (fun s => text s.valueSource) =
      if j = name then text (f column.valueSource) else (t.columns.lookup j).bind fun s => text s.valueSource := by
  rw [Table.setSource, AList.lookup_mapValues]
  by_cases hj : j = name
  · subst hj
    rw [hc, map_some, bind_some, if_pos rfl, if_pos rfl]
  · rw [if_neg hj]
    cases t.columns.lookup j <;> simp [hj]

theorem ofDefault_default? (text : Option String) : (ValueSource.ofDefault text).default? = text := by
  cases text <;> rfl

theorem generatedText_ofDefault (text : Option String) : generatedText (.ofDefault text) = none := by
  cases text <;> rfl

theorem advance_alterColumnDefault {column : ColumnRef} {from_ to_ : Option String} (hs : s.PartitionsOverride)
    (h : s.Applicable (.alterColumnDefault uid column from_ to_)) :
    Advances state s (.alterColumnDefault uid column from_ to_) := by
  obtain ⟨t, ht, c, text, hc, hsource⟩ := h
  have hp := ownColumns_of_column hs ht hc
  refine fromSchema_bindings (by simp [fromSchema]) (fromSchema_edit ht (DeclaredExpressions.ext
    (Nested.ofMap_insert_set ht fun j => ?_).symm (unedited ht ?_) (unedited ht rfl) (unedited ht rfl) (unedited ht rfl)
    (unedited ht rfl) (unedited ht rfl) (unedited ht rfl) (unedited ht rfl)))
  · rw [getElem?_defaultsOf_of_none (t := t.setSource column.name _) hp, getElem?_defaultsOf_of_none hp,
      bind_lookup_setSource hc, ofDefault_default?]
  · refine ext_getElem? fun j => ?_
    rw [generatedOf, generatedOf, getElem?_columnTexts, getElem?_columnTexts, bind_lookup_setSource hc]
    split
    · next hj => rw [hj, hc, bind_some, hsource, generatedText_ofDefault, generatedText_ofDefault]
    · rfl

theorem advance_alterColumnExpression {column : ColumnRef} {from_ to_ : String}
    (h : s.Applicable (.alterColumnExpression uid column from_ to_)) :
    Advances state s (.alterColumnExpression uid column from_ to_) := by
  obtain ⟨t, ht, c, g, hc, hsource⟩ := h
  refine fromSchema_edit ht (DeclaredExpressions.ext (unedited ht ?_) (Nested.ofMap_insert_insert ht ?_).symm (unedited ht rfl)
    (unedited ht rfl) (unedited ht rfl) (unedited ht rfl) (unedited ht rfl) (unedited ht rfl) (unedited ht rfl))
  · refine ext_getElem? fun j => ?_
    rw [getElem?_defaultsOf, getElem?_defaultsOf, bind_lookup_setSource hc]
    congr 1
    split
    · next hj => rw [hj, hc, bind_some, hsource]; rfl
    · rfl
  · refine ext_getElem? fun j => ?_
    rw [generatedOf, generatedOf, getElem?_columnTexts, bind_lookup_setSource hc, hsource]
    by_cases hj : j = column.name
    · subst hj; simp [generatedText]
    · rw [if_neg hj, getElem?_insert_of_ne hj, getElem?_columnTexts]

end Columns

/-! ## A column and the partitions -/

section Partitions

variable {s : Schema} {table b : TableName} {t : Table} (state : Option Schema)

theorem mem_partitionsOf {s : Schema} {parent name : TableName} : name ∈ partitionsOf (some s) parent ↔
    (s.tables[name]?.bind fun t => t.partitionOf.map (·.parent)) = some parent := by
  simp only [partitionsOf, List.mem_map, List.mem_filter, Prod.exists, mem_toList_iff_getElem?_eq_some,
    exists_and_right, exists_eq_right, any_eq_true, decide_eq_true_eq, bind_eq_some_iff,
    map_eq_some_iff]

theorem nodup_partitionsOf (s : Schema) (parent : TableName) : (partitionsOf (some s) parent).Nodup := by
  have hkeys : (s.tables.toList.map Prod.fst).Nodup := by
    rw [map_fst_toList_eq_keys]
    exact nodup_keys
  exact (List.filter_sublist.map Prod.fst).nodup hkeys

variable {f : ExtTreeMap ColumnName PartitionColumn → ExtTreeMap ColumnName PartitionColumn} {g : Table → Table}

theorem getElem?_editPartitions (ht : s.tables[table]? = some t) : ((s.edit table g).editPartitions table f).tables[b]? =
      (if b = table then some (g t) else s.tables[b]?).map (Table.editOwn table f) := by
  rw [edit_eq ht, Schema.editPartitions, getElem?_map]
  split
  · next hb => rw [hb, getElem?_insert_self]
  · next hb => rw [getElem?_insert_of_ne hb]

theorem parent_editOwn (u : Table) : (u.editOwn table f).partitionOf.map (·.parent) = u.partitionOf.map (·.parent) := by
  rw [Table.editOwn, Option.map_map]
  refine congrArg (u.partitionOf.map ·) (funext fun p => ?_)
  rw [Function.comp_apply]
  split <;> rfl

theorem mem_partitionsOf_editPartitions (ht : s.tables[table]? = some t) (hg : (g t).partitionOf = t.partitionOf) :
    b ∈ partitionsOf (some ((s.edit table g).editPartitions table f)) table ↔ b ∈ partitionsOf (some s) table := by
  rw [mem_partitionsOf, mem_partitionsOf, getElem?_editPartitions ht, bind_map]
  simp only [Function.comp_def, parent_editOwn]
  by_cases hb : b = table
  · subst hb; rw [if_pos rfl, bind_some, hg, ht, bind_some]
  · rw [if_neg hb]

variable {K V : Type} {uid : Uid}

theorem unedited_partitions [Ord K] [Std.TransOrd K] [Std.LawfulEqOrd K] {e : Table → ExtTreeMap K V}
    (ht : s.tables[table]? = some t) (hg : e (g t) = e t) (hf : ∀ u : Table, e (u.editOwn table f) = e u) :
    Nested.ofMap s.tables e = Nested.ofMap ((s.edit table g).editPartitions table f).tables e := by
  refine Nested.ofMap_congr fun b => ?_
  rw [getElem?_editPartitions ht, Option.map_map]
  by_cases hb : b = table
  · subst hb; rw [ht, if_pos rfl, map_some, map_some, Function.comp_apply, hf, hg]
  · rw [if_neg hb]
    exact congrArg (s.tables[b]?.map ·) (funext fun u => (hf u).symm)

def ownAt (s : Schema) (b : TableName) : ExtTreeMap ColumnName PartitionColumn := (s.tables[b]?.map ownColumns).getD ∅

theorem value_defaults_partition (hs : s.PartitionsOverride) (hb : b ∈ partitionsOf (some s) table) (j : ColumnName) :
    Nested.value (Nested.ofMap s.tables defaultsOf) b j = ((ownAt s b)[j]?).bind (·.default) := by
  rw [mem_partitionsOf, bind_eq_some_iff] at hb
  obtain ⟨u, hu, hparent⟩ := hb
  obtain ⟨p, hp, -⟩ := map_eq_some_iff.1 hparent
  rw [Nested.value_ofMap, ownAt, hu, bind_some, map_some, getD_some, getElem?_defaultsOf,
    (hs b u p hu hp).1, AList.lookup_empty, bind_none, or_none]

theorem value_defaults_edited (hs : s.PartitionsOverride) (ht : s.tables[table]? = some t) (hp : t.partitionOf = none)
    {columns : IndexMap ColumnName Column} (hg : g t = { t with columns := columns }) (j : ColumnName) :
    Nested.value (Nested.ofMap ((s.edit table g).editPartitions table f).tables defaultsOf) b j =
      if b = table then (columns.lookup j).bind fun c => c.valueSource.default?
      else if b ∈ partitionsOf (some s) table then ((f (ownAt s b))[j]?).bind (·.default)
      else Nested.value (Nested.ofMap s.tables defaultsOf) b j := by
  rw [Nested.value_ofMap, getElem?_editPartitions ht]
  by_cases hb : b = table
  · subst hb
    rw [if_pos rfl, if_pos rfl, map_some, bind_some, hg]
    have hnone : (Table.editOwn b f { t with columns := columns }).partitionOf = none := by
      rw [Table.editOwn]; simp only [hp, map_none]
    rw [getElem?_defaultsOf_of_none hnone]
    rfl
  · rw [if_neg hb, if_neg hb, bind_map]
    cases hu : s.tables[b]? with
    | none =>
      rw [if_neg (by rw [mem_partitionsOf, hu]; simp), Nested.value_ofMap, hu]
      rfl
    | some u =>
      rw [bind_some, Function.comp_apply]
      by_cases hpart : b ∈ partitionsOf (some s) table
      · have hmem := hpart
        rw [mem_partitionsOf, hu, bind_some, map_eq_some_iff] at hmem
        obtain ⟨p, hpu, rfl⟩ := hmem
        have hown : ownColumns (u.editOwn p.parent f) = f (ownColumns u) := by
          simp only [ownColumns, Table.editOwn, hpu, map_some, if_true]
        have hcolumns : (u.editOwn p.parent f).columns = u.columns := rfl
        rw [if_pos hpart, getElem?_defaultsOf, hown, hcolumns, (hs b u p hu hpu).1, AList.lookup_empty, bind_none,
          or_none, ownAt, hu, map_some, getD_some]
      · have hsame : u.editOwn table f = u := by
          rw [mem_partitionsOf, hu, bind_some] at hpart
          cases hpu : u.partitionOf with
          | none => cases u; simp_all [Table.editOwn]
          | some p =>
            have hne : p.parent ≠ table := by simpa [hpu] using hpart
            cases u; simp_all [Table.editOwn]
        rw [if_neg hpart, hsame, Nested.value_ofMap, hu, bind_some]

theorem generated_edited (ht : s.tables[table]? = some t) :
    Nested.ofMap ((s.edit table g).editPartitions table f).tables generatedOf =
      Nested.ofMap (s.tables.insert table (g t)) generatedOf := by
  refine Nested.ofMap_congr fun b => ?_
  rw [edit_eq ht, Schema.editPartitions, getElem?_map, Option.map_map]
  rfl

def SeesPartitions (state : Option Schema) (s : Schema) (c : Change) : Prop :=
  match c with
  | .dropColumn _ column => partitionsOf state column.table = partitionsOf (some (s.after c)) column.table
  | .renameColumn _ table .. => partitionsOf state table = partitionsOf (some (s.after c)) table
  | _ => True

theorem fromSchema_editPartitions {e : DeclaredExpressions} (ht : s.tables[table]? = some t)
    (he : e = expressionsOf ((s.edit table g).editPartitions table f).tables) :
    { fromSchema s with expressions := e } = fromSchema ((s.edit table g).editPartitions table f) := by
  rw [he, edit_eq ht]
  rfl

theorem fromSchema_defaults (s : Schema) : (fromSchema s).expressions.defaults = Nested.ofMap s.tables defaultsOf := rfl

theorem fromSchema_generated (s : Schema) : (fromSchema s).expressions.generated = Nested.ofMap s.tables generatedOf := rfl

theorem foldl_remove_empty (l : List TableName) (c : ColumnName) :
    l.foldl (Nested.remove · · c) (∅ : ByTable ColumnName Binding) = ∅ := by
  induction l with
  | nil => rfl
  | cons a l ih => rw [List.foldl_cons, Nested.remove_empty, ih]

theorem foldl_rekeyInner_empty (l : List TableName) (from_ to_ : ColumnName) :
    l.foldl (Nested.rekeyInner · · from_ to_) (∅ : ByTable ColumnName Binding) = ∅ := by
  induction l with
  | nil => rfl
  | cons a l ih => rw [List.foldl_cons, Nested.rekeyInner_empty, ih]

theorem advance_dropColumn {column : ColumnRef} (hs : s.PartitionsOverride) (h : s.Applicable (.dropColumn uid column))
    (hstate : SeesPartitions state s (.dropColumn uid column)) : Advances state s (.dropColumn uid column) := by
  obtain ⟨t, ht, hc⟩ := h
  obtain ⟨c, hc⟩ := isSome_iff_exists.1 hc
  have hp := ownColumns_of_column hs ht hc
  have hmem : ∀ b, b ∈ partitionsOf state column.table ↔ b ∈ partitionsOf (some s) column.table := fun b => by
    rw [show partitionsOf state column.table = _ from hstate]
    exact mem_partitionsOf_editPartitions ht rfl
  have herase : ∀ j, (t.columns.erase column.name).lookup j = if j = column.name then none else t.columns.lookup j := by
    intro j
    split
    · next hj => rw [hj, AList.lookup_erase]
    · next hj => rw [AList.lookup_erase_ne hj]
  refine fromSchema_bindings (by simp only [fromSchema, foldl_remove_empty]) (fromSchema_editPartitions ht ?_)
  simp only [expressionsOf, DeclaredExpressions.mk.injEq]
  refine ⟨?defaults, ?generated, ?_, ?_, ?_, ?_, ?_, ?_, ?_⟩
  case defaults =>
    refine Nested.ext (Nested.noEmpty_ofMap.foldl_remove _ _) Nested.noEmpty_ofMap fun b j => ?_
    rw [value_defaults_edited hs ht hp rfl, Nested.value_foldl_remove]
    simp only [List.mem_cons, hmem, herase, fromSchema_defaults]
    by_cases hb : b = column.table
    · subst hb
      rw [Nested.value_ofMap, ht, bind_some, getElem?_defaultsOf_of_none hp]
      by_cases hj : j = column.name <;> simp [hj]
    · by_cases hpart : b ∈ partitionsOf (some s) column.table
      · rw [value_defaults_partition hs hpart]
        by_cases hj : j = column.name
        · simp [hj, hb, hpart]
        · simp [hj, hb, hpart, getElem?_erase_of_ne hj]
      · simp [hb, hpart]
  case generated =>
    rw [generated_edited ht]
    refine (Nested.ofMap_insert_remove ht (ext_getElem? fun j => ?_)).symm
    rw [generatedOf, generatedOf, getElem?_columnTexts]
    show ((t.columns.erase column.name).lookup j).bind _ = _
    rw [herase]
    by_cases hj : j = column.name
    · subst hj; simp
    · rw [if_neg hj, getElem?_erase_of_ne hj, getElem?_columnTexts]
  all_goals exact unedited_partitions ht rfl fun _ => rfl

theorem renamed_texts {W : Type} [DecidableEq K] {X : K → Option W} {text : W → Option V} {from_ to_ : K} (hto : X to_ = none)
    (j : K) :
    (match (X from_).bind text with
      | none => (X j).bind text
      | some v => if j = to_ then some v else if j = from_ then none else (X j).bind text) =
    (if j = to_ then X from_ else if j = from_ then none else X j).bind text := by
  cases hf : (X from_).bind text with
  | none =>
    by_cases hj : j = to_
    · subst hj; simp [hto, hf]
    · by_cases hjf : j = from_
      · subst hjf; simp [hj, hf]
      · simp [hj, hjf]
  | some v =>
    by_cases hj : j = to_
    · subst hj; simp [hf]
    · by_cases hjf : j = from_
      · subst hjf; simp [hj]
      · simp [hj, hjf]

/-- A renamed column takes its expressions along, and those of the partitions. -/
theorem advance_renameColumn {from_ to_ : ColumnName} {was : Option TableName} (hs : s.PartitionsOverride)
    (h : s.Applicable (.renameColumn uid table from_ to_ was))
    (hstate : SeesPartitions state s (.renameColumn uid table from_ to_ was)) :
    Advances state s (.renameColumn uid table from_ to_ was) := by
  obtain ⟨t, ht, hc, hto⟩ := h
  obtain ⟨c, hc⟩ := isSome_iff_exists.1 hc
  have hne : from_ ≠ to_ := by rintro rfl; rw [hto] at hc; cases hc
  have hp := ownColumns_of_column hs ht hc
  have hmem : ∀ b, b ∈ partitionsOf state table ↔ b ∈ partitionsOf (some s) table := fun b => by
    rw [show partitionsOf state table = _ from hstate]
    exact mem_partitionsOf_editPartitions ht rfl
  have hnodup : (table :: partitionsOf state table).Nodup := by
    rw [List.nodup_cons, hmem, mem_partitionsOf, ht, bind_some, hp]
    refine ⟨by simp, ?_⟩
    rw [show partitionsOf state table = _ from hstate]
    exact nodup_partitionsOf _ _
  -- No partition has anything of its own on a column its parent does not have.
  have hown : ∀ b ∈ partitionsOf (some s) table, (ownAt s b)[to_]? = none := by
    intro b hb
    rw [mem_partitionsOf, bind_eq_some_iff] at hb
    obtain ⟨u, hu, hparent⟩ := hb
    obtain ⟨p, hpu, rfl⟩ := map_eq_some_iff.1 hparent
    rw [ownAt, hu, map_some, getD_some, ownColumns, hpu]
    cases ho : p.columns[to_]? with
    | none => rfl
    | some own =>
      obtain ⟨t', ht', hcol⟩ := (hs b u p hu hpu).2 to_ own ho
      rw [ht] at ht'
      cases ht'
      rw [hto] at hcol
      cases hcol
  refine fromSchema_bindings (by simp only [fromSchema, foldl_rekeyInner_empty]) (fromSchema_editPartitions ht ?_)
  simp only [expressionsOf, DeclaredExpressions.mk.injEq]
  refine ⟨?defaults, ?generated, ?_, ?_, ?_, ?_, ?_, ?_, ?_⟩
  case defaults =>
    refine Nested.ext (Nested.noEmpty_ofMap.foldl_rekeyInner _ _ _) Nested.noEmpty_ofMap fun b j => ?_
    rw [value_defaults_edited hs ht hp rfl, Nested.value_foldl_rekeyInner _ _ hnodup, Nested.value_rekeyInner, if_pos rfl]
    simp only [List.mem_cons, hmem, fromSchema_defaults]
    by_cases hb : b = table
    · subst hb
      have hvalue : ∀ j, Nested.value (Nested.ofMap s.tables defaultsOf) b j =
          (t.columns.lookup j).bind fun c => c.valueSource.default? := fun j => by
        rw [Nested.value_ofMap, ht, bind_some, getElem?_defaultsOf_of_none hp]
      rw [if_pos (.inl rfl), if_pos rfl, AList.lookup_renameKey hto hne]
      simp only [hvalue]
      exact renamed_texts (X := fun j => t.columns.lookup j) hto j
    · by_cases hpart : b ∈ partitionsOf (some s) table
      · rw [if_pos (.inr hpart), if_neg hb, if_pos hpart]
        simp only [value_defaults_partition hs hpart]
        refine (renamed_texts (X := fun j => (ownAt s b)[j]?) (hown b hpart) j).trans ?_
        rw [Nested.getElem?_rekey]
        congr 1
        cases hf : (ownAt s b)[from_]? with
        | none =>
          by_cases hj : j = to_
          · rw [hj, if_pos rfl, hown b hpart]
          · by_cases hjf : j = from_
            · rw [if_neg hj, if_pos hjf, hjf, hf]
            · rw [if_neg hj, if_neg hjf]
        | some own => rfl
      · rw [if_neg (by simp [hb, hpart]), if_neg hb, if_neg hpart]
  case generated =>
    rw [generated_edited ht, fromSchema_generated]
    refine Nested.ext Nested.noEmpty_ofMap.rekeyInner Nested.noEmpty_ofMap fun b j => ?_
    rw [Nested.value_rekeyInner]
    simp only [Nested.value_ofMap]
    by_cases hb : b = table
    · subst hb
      rw [if_pos rfl, getElem?_insert_self, ht]
      simp only [bind_some, generatedOf, getElem?_columnTexts]
      rw [AList.lookup_renameKey hto hne]
      exact renamed_texts (X := fun j => t.columns.lookup j) hto j
    · rw [if_neg hb, getElem?_insert_of_ne hb]
  all_goals exact unedited_partitions ht rfl fun _ => rfl

end Partitions

/-! ## Tables and modules -/

section Objects

variable {s : Schema} (state : Option Schema)

variable {uid : Uid} {from_ to_ : TableName} {id : ModuleId}

variable {name : TableName}

theorem advance_createTable {table : Table} {beside : Option TableName} {most : Option Nat} :
    Advances state s (.createTable uid name table beside most) := by
  unfold Advances advanceChange Schema.after
  simp only [fromSchema, forgetTable, DeclaredExpressions.extend, freshExpressions, expressionsOf,
    Declared.mk.injEq, DeclaredExpressions.mk.injEq, erase_empty, true_and, and_true]
  exact ⟨Nested.ofMap_insert_fresh.symm, Nested.ofMap_insert_fresh.symm, Nested.ofMap_insert_fresh.symm,
    Nested.ofMap_insert_fresh.symm, Nested.ofMap_insert_fresh.symm, Nested.ofMap_insert_fresh.symm,
    Nested.ofMap_insert_fresh.symm, Nested.ofMap_insert_fresh.symm, Nested.ofMap_insert_fresh.symm⟩

theorem advance_dropTable {detach : Option TableName} : Advances state s (.dropTable uid name detach) := by
  unfold Advances advanceChange Schema.after
  simp only [fromSchema, forgetTable, expressionsOf, Nested.ofMap_erase, erase_empty]

theorem unmoved {K V : Type} [Ord K] [Std.TransOrd K] [Std.LawfulEqOrd K] {e : Table → ExtTreeMap K V}
    (hto : s.tables[to_]? = none) (he : ∀ u : Table, e (u.reparent from_ to_) = e u) :
    Nested.rekey (Nested.ofMap s.tables e) from_ to_ =
      Nested.ofMap ((Nested.rekey s.tables from_ to_).map fun _ t => t.reparent from_ to_) e :=
  (Nested.ofMap_rekey_map hto fun _ u => he u).symm

theorem ownColumns_reparent (from_ to_ : TableName) (u : Table) : ownColumns (u.reparent from_ to_) = ownColumns u := by
  cases hp : u.partitionOf <;> simp [ownColumns, Table.reparent, hp]

theorem reattach_of_ne (h : id.attachedTo ≠ some from_) : id.reattach from_ to_ = id := by
  cases id with
  | trigger on name =>
    have hne : on ≠ from_ := fun he => h (congrArg some he)
    rw [ModuleId.reattach, if_neg hne]
  | named n => rfl
  | routine r => rfl

theorem advance_renameTable {defaults : List ColumnName} (h : s.Applicable (.renameTable uid from_ to_ defaults))
    (htriggers : s.TriggersStay (.renameTable uid from_ to_ defaults)) :
    Advances state s (.renameTable uid from_ to_ defaults) := by
  obtain ⟨-, hto⟩ := h
  have hmodules : ExtTreeMap.ofList (s.modules.toList.map fun e => (e.1.reattach from_ to_, e.2)) = s.modules :=
    ofList_map_toList fun id m hm => reattach_of_ne (htriggers id m hm)
  unfold Advances advanceChange Schema.after
  simp only [fromSchema, hmodules, expressionsOf, Declared.mk.injEq,
    DeclaredExpressions.mk.injEq, Nested.rekey_empty, true_and, and_true]
  refine ⟨unmoved hto fun u => ?_, unmoved hto fun _ => rfl, unmoved hto fun _ => rfl, unmoved hto fun _ => rfl,
    unmoved hto fun _ => rfl, unmoved hto fun _ => rfl, unmoved hto fun _ => rfl, unmoved hto fun _ => rfl,
    unmoved hto fun _ => rfl⟩
  simp only [defaultsOf, ownDefaults, ownColumns_reparent]
  rfl

theorem advance_writeModule {module : Module} :
    (fromSchema s).writeModule id module = fromSchema { s with modules := s.modules.insert id module } := by
  simp only [writeModule, fromSchema, map_insert_eq, erase_empty]

theorem advance_dropModule {kind : ModuleKind} : Advances state s (.dropModule id kind) := by
  unfold Advances advanceChange Schema.after
  simp only [fromSchema, map_erase_eq, erase_empty]

end Objects

/-! ## Steps and runs -/

section Runs

variable {s : Schema} {c : Change}

/-- A step that the record follows: it applies, partitions have no columns before it and after it, and it
renames no table from under a trigger. -/
structure Step (s : Schema) (c : Change) : Prop where
  applicable : s.Applicable c
  before : s.PartitionsOverride
  after : (s.after c).PartitionsOverride
  triggers : s.TriggersStay c

theorem advanceChange_fromSchema {state : Option Schema} (h : Step s c) (hstate : SeesPartitions state s c) :
    advanceChange state (fromSchema s) c = fromSchema (s.after c) := by
  obtain ⟨happ, hbefore, hafter, htriggers⟩ := h
  cases c with
  | createType => rfl
  | dropType => rfl
  | renameType => rfl
  | createTable => exact advance_createTable state
  | dropTable => exact advance_dropTable state
  | renameTable => exact advance_renameTable state happ htriggers
  | addColumn => exact advance_addColumn state happ hafter
  | dropColumn => exact advance_dropColumn state hbefore happ hstate
  | renameColumn => exact advance_renameColumn state hbefore happ hstate
  | alterColumnDefault => exact advance_alterColumnDefault state hbefore happ
  | alterColumnExpression => exact advance_alterColumnExpression state happ
  | addComputedColumn => exact advance_addComputedColumn state happ
  | dropComputedColumn => exact advance_dropComputedColumn state happ
  | addCheck => exact advance_addCheck state happ
  | dropCheck => exact advance_dropCheck state happ
  | addIndex => exact advance_addIndex state happ
  | dropIndex => exact advance_dropIndex state happ
  | createPolicy => exact advance_createPolicy state happ
  | dropPolicy => exact advance_dropPolicy state happ
  | createModule => exact advance_writeModule
  | alterModule => exact advance_writeModule
  | dropModule => exact advance_dropModule state
  | _ => exact happ.elim

/-- Every step of a list is one that the record follows, at the schema the steps before it leave. -/
def Steps : Schema → List Change → Prop
  | _, [] => True
  | s, c :: cs => Step s c ∧ Steps (s.after c) cs

/-- One state shows, for every step of a list, the partitions that the step leaves. -/
def SeesEach (state : Schema) : Schema → List Change → Prop
  | _, [] => True
  | s, c :: cs => SeesPartitions (some state) s c ∧ SeesEach state (s.after c) cs

/-- The record carried over one step after the other, each with the schema after it. -/
def advanceEach : Declared → Schema → List Change → Declared
  | d, _, [] => d
  | d, s, c :: cs => advanceEach (d.advanceWithPartitions [c] (s.after c)) (s.after c) cs

theorem seesPartitions_after (s : Schema) (c : Change) : SeesPartitions (some (s.after c)) s c := by
  unfold SeesPartitions
  split <;> trivial

theorem advanceWithPartitions_single (h : Step s c) :
    (fromSchema s).advanceWithPartitions [c] (s.after c) = fromSchema (s.after c) :=
  advanceChange_fromSchema h (seesPartitions_after s c)

variable {cs : List Change}

theorem advanceEach_fromSchema (h : Steps s cs) : advanceEach (fromSchema s) s cs = fromSchema (cs.foldl Schema.after s) := by
  induction cs generalizing s with
  | nil => rfl
  | cons c cs ih =>
    obtain ⟨hstep, hrest⟩ := h
    rw [advanceEach, advanceWithPartitions_single hstep, List.foldl_cons]
    exact ih hrest

theorem advanceWithPartitions_fromSchema {state : Schema} (h : Steps s cs) (hsees : SeesEach state s cs) :
    (fromSchema s).advanceWithPartitions cs state = fromSchema (cs.foldl Schema.after s) := by
  induction cs generalizing s with
  | nil => rfl
  | cons c cs ih =>
    obtain ⟨hstep, hrest⟩ := h
    rw [advanceWithPartitions, List.foldl_cons, advanceChange_fromSchema hstep hsees.1, List.foldl_cons]
    exact ih hrest hsees.2

/-- The record follows every step and every run of steps: one at a time, each with the schema after it, or all
at once, where the last schema has the partitions that each column's rename or drop left. -/
theorem record_follows_plan :
    (∀ s c, Step s c → (fromSchema s).advanceWithPartitions [c] (s.after c) = fromSchema (s.after c)) ∧
    ∀ s cs, Steps s cs → advanceEach (fromSchema s) s cs = fromSchema (cs.foldl Schema.after s) ∧
      (SeesEach (cs.foldl Schema.after s) s cs →
        (fromSchema s).advanceWithPartitions cs (cs.foldl Schema.after s) = fromSchema (cs.foldl Schema.after s)) :=
  ⟨fun _ _ h => advanceWithPartitions_single h,
    fun _ _ h => ⟨advanceEach_fromSchema h, fun hsees => advanceWithPartitions_fromSchema h hsees⟩⟩

end Runs

/-! ## Steps the record does not follow -/

section Examples

theorem partitionsOverride_of_all {s : Schema} (h : (s.tables.toList.all fun e => e.2.partitionOf.all fun p =>
      e.2.columns.entries.isEmpty && p.columns.toList.all fun x =>
        (s.tables[p.parent]?).any fun t => (t.columns.lookup x.1).isSome) = true) : s.PartitionsOverride := by
  intro name t p ht hp
  have hall := List.all_eq_true.1 h (name, t) (mem_toList_iff_getElem?_eq_some.2 ht)
  rw [show (name, t).2.partitionOf = some p from hp, all_some, Bool.and_eq_true] at hall
  refine ⟨AList.ext (List.isEmpty_iff.1 hall.1), fun c own hown => ?_⟩
  have hx := List.all_eq_true.1 hall.2 (c, own) (mem_toList_iff_getElem?_eq_some.2 hown)
  exact (any_eq_true _ _).1 hx

def hitColumn : Column := { ty := { base := "int" }, valueSource := .default "0" }

/-- A partition with a default of its own on a column of its parent, and whether the column is its own too. -/
def hitsPartition (bare : Bool) : Table :=
  { columns := if bare then ∅ else (∅ : IndexMap ColumnName Column).insert "hits" { ty := { base := "int" } }
    partitionOf := some
      { parent := ⟨"app", "pages"⟩, bound := .default
        columns := (∅ : ExtTreeMap ColumnName PartitionColumn).insert "hits" { default := some "1" } } }

def pagesSchema (bare : Bool) : Schema :=
  { tables := ((∅ : ExtTreeMap TableName Table).insert ⟨"app", "pages"⟩
      { columns := (∅ : IndexMap ColumnName Column).insert "hits" hitColumn }).insert ⟨"app", "pages_new"⟩ (hitsPartition bare)
    modules := (∅ : ExtTreeMap ModuleId Module).insert (.trigger ⟨"app", "pages"⟩ "audit")
      { kind := .trigger, definition := "after insert" } }

def renameHits : Change := .renameColumn ⟨"c1"⟩ ⟨"app", "pages"⟩ "hits" "views" none

def renamePartition : Change := .renameTable ⟨"t2"⟩ ⟨"app", "pages_new"⟩ ⟨"app", "pages_rest"⟩ []

def renamePages : Change := .renameTable ⟨"t1"⟩ ⟨"app", "pages"⟩ ⟨"app", "sheets"⟩ []

theorem renameHits_step : Step (pagesSchema true) renameHits where
  applicable := ⟨_, rfl, by decide⟩
  before := partitionsOverride_of_all (by decide)
  after := partitionsOverride_of_all (by decide)
  triggers := trivial

theorem renamePartition_step : Step ((pagesSchema true).after renameHits) renamePartition where
  applicable := by show _ ∧ _; decide
  before := partitionsOverride_of_all (by decide)
  after := partitionsOverride_of_all (by decide)
  triggers := by
    intro id m hm
    rw [show ((pagesSchema true).after renameHits).modules = (pagesSchema true).modules from rfl, pagesSchema,
      getElem?_insert_eq_some] at hm
    obtain ⟨rfl, -⟩ := hm.resolve_right (by simp)
    decide

/-- A parent's column renamed, and then its partition: the record is carried along step by step. -/
theorem record_follows_pages : advanceEach (fromSchema (pagesSchema true)) (pagesSchema true) [renameHits, renamePartition] =
      fromSchema (((pagesSchema true).after renameHits).after renamePartition) :=
  (record_follows_plan.2 (pagesSchema true) [renameHits, renamePartition]
    ⟨renameHits_step, renamePartition_step, trivial⟩).1

/-- A trigger is recorded under the name its table had, a column of a partition takes the partition's own
default with it, and the last schema does not show the partition a column's rename reached. -/
theorem record_leaves_plan : (¬ ∀ s c, s.Applicable c → s.PartitionsOverride → (s.after c).PartitionsOverride →
        (fromSchema s).advanceWithPartitions [c] (s.after c) = fromSchema (s.after c)) ∧
    (¬ ∀ s c, s.Applicable c → s.TriggersStay c →
        (fromSchema s).advanceWithPartitions [c] (s.after c) = fromSchema (s.after c)) ∧ ¬ ∀ s cs, Steps s cs →
        (fromSchema s).advanceWithPartitions cs (cs.foldl Schema.after s) = fromSchema (cs.foldl Schema.after s) := by
  refine ⟨fun h => ?_, fun h => ?_, fun h => ?_⟩
  · have hsame := h (pagesSchema true) renamePages (by show _ ∧ _; decide)
      (partitionsOverride_of_all (by decide)) (partitionsOverride_of_all (by decide))
    have htrigger := congrArg (fun d => d.modules[(.trigger ⟨"app", "sheets"⟩ "audit" : ModuleId)]?) hsame
    revert htrigger
    decide
  · have hsame := h (pagesSchema false) (.dropColumn ⟨"c2"⟩ ⟨⟨"app", "pages_new"⟩, "hits"⟩) ⟨_, rfl, by decide⟩ trivial
    have hown := congrArg (fun d => Nested.value d.expressions.defaults ⟨"app", "pages_new"⟩ "hits") hsame
    revert hown
    decide +kernel
  · have hsame := h (pagesSchema true) [renameHits, renamePartition] ⟨renameHits_step, renamePartition_step, trivial⟩
    have hown := congrArg (fun d => Nested.value d.expressions.defaults ⟨"app", "pages_rest"⟩ "views") hsame
    revert hown
    decide +kernel

end Examples

end Declared

end Pbps
