/-
Whether a plan leaves a kept table with its declared rows. The column changes and then the row changes
of a table are replayed on its base rows; each cell of a declared row is written, or judged equal and
left, and a cell that is left is the declared one unless the column itself changed it.

The table is its columns, each with the cell of every row, so that a change of a column reaches every row at once and a change of a
row reaches one cell of each column. ADD COLUMN gives every row the column's default, as the PostgreSQL emitter writes it
(`column_definition`), and a default set on a standing column changes no row.
-/
import Pbps.Diff.Rows
import Pbps.Identity.Valid

namespace Pbps.Diff

open Std (ExtTreeMap ExtTreeSet)

/-! ## The engine -/

/-- What the rows hold that no declaration says: the values the engine writes itself, and what a
change of type makes of a cell. -/
structure Engine where
  held : RowKey → Uid → Cell
  convert : Uid → ColumnType → ColumnType → Cell → Cell

/-- A column that stands, with its cell in every row. -/
structure StandingColumn where
  name : ColumnName
  default : Option String
  enginesOwn : Bool
  cells : RowKey → Cell

def Engine.given (engine : Engine) (uid : Uid) (default : Option String) (enginesOwn : Bool) (key : RowKey) : Cell :=
  if enginesOwn then engine.held key uid
  else
    match default with
    | some e => .default e
    | none => .value .null

namespace StandingColumn

def write (col : StandingColumn) (key : RowKey) (v : Cell) : StandingColumn :=
  { col with cells := fun k => if k = key then v else col.cells k }

def view (key : RowKey) (col : StandingColumn) : ColumnName × Option String × Bool × Cell :=
  (col.name, col.default, col.enginesOwn, col.cells key)

@[simp] theorem write_cells_self (col : StandingColumn) (key : RowKey) (v : Cell) : (col.write key v).cells key = v := by
  simp [write]

theorem view_write_of_ne {col : StandingColumn} {key k : RowKey} {v : Cell} (h : key ≠ k) :
    (col.write k v).view key = col.view key := by
  simp [view, write, h]

end StandingColumn

section Step

variable (engine : Engine) (u : Uid)

def Engine.inserted (row : Row) (key : RowKey) (col : StandingColumn) : Cell :=
  match row[col.name]? with
  | some v => .value v
  | none => engine.given u col.default col.enginesOwn key

/-- What one change does to the column of uid `u`. -/
def stepColumn (col : Option StandingColumn) : Change → Option StandingColumn
  | .addColumn uid _ name c =>
    if uid = u then
      some ⟨name, c.valueSource.default?, c.valueSource.enginesOwn,
        engine.given u c.valueSource.default? c.valueSource.enginesOwn⟩
    else col
  | .dropColumn uid _ => if uid = u then none else col
  | .renameColumn uid _ _ to_ _ => if uid = u then col.map fun c => { c with name := to_ } else col
  | .alterColumnType uid _ from_ to_ _ _ _ _ _ _ =>
    if uid = u then col.map fun c => { c with cells := fun k => engine.convert u from_ to_ (c.cells k) } else col
  | .alterColumnDefault uid _ _ to_ => if uid = u then col.map fun c => { c with default := to_ } else col
  | .alterColumnNumbering uid _ _ _ to_ =>
    if uid = u then col.map fun c => { c with enginesOwn := to_.enginesOwn } else col
  | .alterColumnExpression uid _ _ _ =>
    if uid = u then col.map fun c => { c with cells := fun k => engine.held k u } else col
  | .insertRow _ _ _ key row _ _ => col.map fun c => c.write key (engine.inserted u row key c)
  | .updateRow _ _ key columns _ _ _ _ =>
    col.map fun c =>
      match columns[c.name]? with
      | some (_, d) => c.write key d
      | none => c
  | _ => col

def stepRows (rows : ExtTreeSet RowKey) : Change → ExtTreeSet RowKey
  | .insertRow _ _ _ key _ _ _ => rows.insert key
  | .deleteRow _ _ key _ _ _ _ _ _ => rows.erase key
  | _ => rows

end Step

/-! ## The table -/

/-- A table that stands: its columns by uid, and the keys of its rows. -/
structure Standing where
  columns : Uid → Option StandingColumn
  rows : ExtTreeSet RowKey

namespace Standing

def step (engine : Engine) (s : Standing) (change : Change) : Standing where
  columns u := stepColumn engine u (s.columns u) change
  rows := stepRows s.rows change

def replay (engine : Engine) (s : Standing) (changes : List Change) : Standing := changes.foldl (step engine) s

/-- A cell a base row holds: what it spells, or what the column gave it. -/
def baseCellOf (engine : Engine) (u : Uid) (name : ColumnName) (c : Column) (row : Option Row) (key : RowKey) : Cell :=
  match row.bind (·[name]?) with
  | some v => .value v
  | none => engine.given u c.valueSource.default? c.valueSource.enginesOwn key

def ofBase (engine : Engine) (base : Table) (baseCols : ExtTreeMap Uid ColumnRef) : Standing where
  columns u := baseCols[u]?.bind fun ref => (base.columns.lookup ref.name).map fun c =>
    ⟨ref.name, c.valueSource.default?, c.valueSource.enginesOwn,
      fun key => baseCellOf engine u ref.name c (baseRows base)[key]? key⟩
  rows := .ofList (baseRows base).keys

theorem replay_columns (engine : Engine) (u : Uid) : ∀ (l : List Change) (s : Standing),
    (s.replay engine l).columns u = l.foldl (stepColumn engine u) (s.columns u)
  | [], _ => rfl
  | c :: l, s => replay_columns engine u l (s.step engine c)

theorem replay_rows (engine : Engine) : ∀ (l : List Change) (s : Standing),
    (s.replay engine l).rows = l.foldl stepRows s.rows
  | [], _ => rfl
  | c :: l, s => replay_rows engine l (s.step engine c)

end Standing

open List Option Std.ExtTreeMap

/-! ## The changes of a column -/

def Change.OfColumn (uid : Uid) : Change → Prop
  | .addColumn u _ _ _ | .dropColumn u _ | .renameColumn u _ _ _ _ | .alterColumnType u _ _ _ _ _ _ _ _ _
  | .alterColumnNullability u _ _ _ _ _ | .alterColumnDefault u _ _ _ | .alterColumnExpression u _ _ _
  | .alterColumnNumbering u _ _ _ _ | .setColumnDeprecated u _ _ => u = uid
  | _ => False

section OfColumn

variable {engine : Engine} {u uid : Uid} {change : Change}

theorem Change.OfColumn.stepColumn_of_ne (h : Change.OfColumn uid change) (hne : uid ≠ u) (col : Option StandingColumn) :
    stepColumn engine u col change = col := by
  cases change <;> simp only [Change.OfColumn] at h <;> subst h <;> simp [stepColumn, hne]

theorem Change.OfColumn.stepRows (h : Change.OfColumn uid change) (rows : ExtTreeSet RowKey) : stepRows rows change = rows := by
  cases change <;> simp only [Change.OfColumn] at h <;> rfl

theorem foldl_stepColumn_of_ne {l : List Change} (h : ∀ c ∈ l, Change.OfColumn uid c) (hne : uid ≠ u) :
    ∀ col, l.foldl (stepColumn engine u) col = col :=
  fun _ => foldl_of_idle fun c hc col => (h c hc).stepColumn_of_ne hne col

end OfColumn

section Column

variable {dialect : Dialect} {base declared : Table} {uid : Uid} {at_ : ColumnRef} {types : TypeResolver}
  {conversions : ExtTreeMap Uid Conversion} {renamed : Bool} {was col : Column}

variable (dialect base declared uid at_) in
theorem numbering_cases (ty : ColumnType) (from_ to_ : ValueSource) :
    (∃ e, numbering dialect base declared uid at_ ty from_ to_ = .err e) ∨
      numbering dialect base declared uid at_ ty from_ to_ = .change (.alterColumnNumbering uid at_ ty from_ to_) := by
  unfold numbering
  dsimp only
  split
  · exact .inl ⟨_, rfl⟩
  split
  · exact .inl ⟨_, rfl⟩
  split
  · exact .inl ⟨_, rfl⟩
  split
  · exact .inl ⟨_, rfl⟩
  · exact .inr rfl

theorem numbering_ofColumn {ty : ColumnType} {from_ to_ : ValueSource} :
    ∀ c ∈ (numbering dialect base declared uid at_ ty from_ to_).changes, Change.OfColumn uid c := by
  obtain ⟨e, h⟩ | h := numbering_cases dialect base declared uid at_ ty from_ to_
  · rw [h]; simp
  · rw [h]; simp [Change.OfColumn]

variable {fromTy toTy : ColumnType}

theorem sourceDelta_ofColumn {a b : ValueSource} :
    ∀ c ∈ (sourceDelta dialect base declared uid at_ a b fromTy toTy).out.changes, Change.OfColumn uid c := by
  cases a <;> cases b <;> simp only [sourceDelta]
  all_goals first
    | exact numbering_ofColumn
    | (simp; done)
    | (split_ifs <;> first | exact numbering_ofColumn | simp [Change.OfColumn])

theorem recordedUsing_changes : (recordedUsing dialect uid at_ conversions renamed fromTy toTy).2.changes = [] := by
  unfold recordedUsing
  split
  · rfl
  · dsimp only
    split
    · split <;> rfl
    · split_ifs <;> rfl

theorem diffColumn_ofColumn :
    ∀ c ∈ (diffColumn dialect base declared uid at_ types conversions renamed was col).changes, Change.OfColumn uid c := by
  intro c hc
  simp only [diffColumn, Out.append_changes, mem_append, recordedUsing_changes, not_mem_nil, or_false,
    Out.mem_changeIf] at hc
  rcases hc with ((h | h) | h) | ⟨-, rfl⟩
  · exact sourceDelta_ofColumn c h
  · unfold diffColumnType at h
    split at h
    · simp only [Out.append_changes, Out.change_changes, mem_append, mem_singleton, Out.mem_changeIf] at h
      rcases h with rfl | ⟨-, rfl⟩ <;> rfl
    · obtain ⟨-, rfl⟩ := Out.mem_changeIf.1 h
      rfl
  · unfold diffColumnDefault at h
    split at h
    · simp only [Out.append_changes, Out.change_changes, mem_append, mem_singleton, Out.mem_changeIf] at h
      rcases h with rfl | ⟨-, rfl⟩ <;> rfl
    · cases h
  · rfl

variable {engine : Engine} {c : StandingColumn}

/-- A change of source without an error: the two defaults are the sources', and the column is no
longer the engine's where a row writes it. -/
theorem sourceDelta_settles {a b : ValueSource} (herr : (sourceDelta dialect base declared uid at_ a b fromTy toTy).out.errs = [])
    (hown : b.enginesOwn = false) (hc : c.enginesOwn = a.enginesOwn) :
    (sourceDelta dialect base declared uid at_ a b fromTy toTy).oldDefault = a.default? ∧
      (sourceDelta dialect base declared uid at_ a b fromTy toTy).newDefault = b.default? ∧
      (sourceDelta dialect base declared uid at_ a b fromTy toTy).out.changes.foldl (stepColumn engine uid) (some c) =
        some { c with enginesOwn := false } := by
  have hnum : ∀ from_, (numbering dialect base declared uid at_ toTy from_ .none).errs = [] →
      (numbering dialect base declared uid at_ toTy from_ .none).changes.foldl (stepColumn engine uid) (some c) =
        some { c with enginesOwn := false } := by
    intro from_ h
    obtain ⟨e, he⟩ | he := numbering_cases dialect base declared uid at_ toTy from_ .none
    · rw [he] at h; cases h
    · rw [he]; simp [stepColumn, ValueSource.enginesOwn]
  have hkept : a.enginesOwn = false → some c = some { c with enginesOwn := false } := by
    intro ha; rw [ha] at hc; rw [← hc]
  cases b with
  | identity _ | sequence _ | generated _ => cases hown
  | none | default _ =>
    cases a with
    | none | default _ => exact ⟨rfl, rfl, hkept rfl⟩
    | identity _ | sequence _ => exact ⟨rfl, rfl, hnum _ herr⟩
    | generated _ => simp [sourceDelta, Out.err] at herr

def Engine.carried (engine : Engine) (dialect : Dialect) (types : TypeResolver) (uid : Uid) (was col : Column) (v : Cell) :
    Cell :=
  if retyped dialect types was col then
    engine.convert uid (comparedTypes dialect types was col).1 (comparedTypes dialect types was col).2 v
  else v

theorem diffColumnType_carries {recomputed : Bool} {using_ : Option String} :
    (diffColumnType uid at_ was col (comparedTypes dialect types was col).1 (comparedTypes dialect types was col).2
        (retyped dialect types was col) recomputed using_).changes.foldl (stepColumn engine uid) (some c) =
      some { c with cells := fun k => engine.carried dialect types uid was col (c.cells k) } := by
  unfold diffColumnType Engine.carried
  split
  · cases recomputed && was.nullable && !col.nullable <;> simp [Out.changeIf, stepColumn]
  · cases was.nullable != col.nullable <;> simp [Out.changeIf, stepColumn]

theorem diffColumnDefault_settles {new : Option String} {retyped converting : Bool} :
    (diffColumnDefault uid at_ c.default new retyped converting).changes.foldl (stepColumn engine uid) (some c) =
      some { c with default := new } := by
  unfold diffColumnDefault
  dsimp only
  split
  · by_cases hs : (retyped && c.default.isSome && new.isSome) = true
    · simp [hs, Out.changeIf, stepColumn]
    · simp [hs, Out.changeIf, stepColumn]
  · rename_i h
    have : c.default = new := by
      by_contra hne
      exact h (by simp [hne])
    rw [← this]
    rfl

/-- A column whose comparison reports no error ends as the declaration has it, its cells carried
through the change of type. -/
theorem diffColumn_settles (herr : (diffColumn dialect base declared uid at_ types conversions renamed was col).errs = [])
    (hown : col.valueSource.enginesOwn = false) (hc : c.enginesOwn = was.valueSource.enginesOwn)
    (hd : c.default = was.valueSource.default?) :
    (diffColumn dialect base declared uid at_ types conversions renamed was col).changes.foldl (stepColumn engine uid)
        (some c) =
      some ⟨c.name, col.valueSource.default?, false, fun k => engine.carried dialect types uid was col (c.cells k)⟩ := by
  have hsource : (sourceDelta dialect base declared uid at_ was.valueSource col.valueSource
      (comparedTypes dialect types was col).1 (comparedTypes dialect types was col).2).out.errs = [] := by
    simp only [diffColumn, Out.append_errs, append_eq_nil_iff] at herr
    exact herr.1.1.1.1
  obtain ⟨hold, hnew, hout⟩ := @sourceDelta_settles _ _ _ _ _ _ _ engine c _ _ hsource hown hc
  simp only [diffColumn, Out.append_changes, recordedUsing_changes, append_nil, foldl_append, hold, hnew, hout,
    diffColumnType_carries]
  rw [← hd, diffColumnDefault_settles]
  cases was.deprecated != col.deprecated <;> simp [Out.changeIf, stepColumn]

end Column

/-! ## The columns of a kept table -/

/-- A side whose identity file validates and holds exactly the columns of its tables. -/
structure Side.Described (s : Side) : Prop where
  valid : s.ids.validate = .ok ()
  columns : ∀ (name : TableName) t, s.schema.tables[name]? = some t →
    ∀ c, c ∈ t.columns ↔ ∃ u : Uid, s.ids.columns[u]? = some (name.column c)

theorem Side.Described.inj {s : Side} (h : s.Described) {u v : Uid} {r : ColumnRef} (hu : s.ids.columns[u]? = some r)
    (hv : s.ids.columns[v]? = some r) : u = v :=
  (validate_eq_ok.1 h.valid).columns u v r r hu hv rfl

/-- A table both sides hold under one uid. -/
structure KeptTable (base declared : Side) where
  uid : Uid
  baseName : TableName
  declaredName : TableName
  baseTable : Table
  declaredTable : Table
  was : base.ids.tables[uid]? = some baseName
  now : declared.ids.tables[uid]? = some declaredName
  wasTable : base.schema.tables[baseName]? = some baseTable
  nowTable : declared.schema.tables[declaredName]? = some declaredTable

namespace KeptTable

variable {base declared : Side} (t : KeptTable base declared)

def baseCols : ExtTreeMap Uid ColumnRef := columnsOf base.ids t.baseName
def declaredCols : ExtTreeMap Uid ColumnRef := columnsOf declared.ids t.declaredName

def columnChanges (dialect : Dialect) : Out :=
  diffColumns dialect ⟨base.ids, declared.ids⟩ declared.ids.conversions t.baseName t.declaredName t.baseTable t.declaredTable
    t.baseCols t.declaredCols

/-- The base table with its rows as the plan's label renames leave them. -/
def observed (plan : List Change) : Table := forwardedRows base.ids (labelRenames plan) t.baseTable

/-- The row changes of the table, after those of `plan`. -/
def rowChanges (plan : List Change) : Out :=
  diffData t.declaredName (t.observed plan) t.declaredTable (baseNameOf t.baseCols t.declaredCols) plan

def standing (engine : Engine) (plan : List Change) : Standing := .ofBase engine (t.observed plan) t.baseCols

end KeptTable

section Columns

variable {base declared : Side} {t : KeptTable base declared} {dialect : Dialect} {engine : Engine} {u : Uid}

variable {ref : ColumnRef}

theorem diffDeclaredColumn_ofColumn {types : TypeResolver} {conversions : ExtTreeMap Uid Conversion}
    {baseName declaredName : TableName} {was now : Table} {baseCols : ExtTreeMap Uid ColumnRef} :
    ∀ c ∈ (diffDeclaredColumn dialect types conversions baseName declaredName was now baseCols u ref).changes,
      Change.OfColumn u c := by
  intro c hc
  unfold diffDeclaredColumn at hc
  split at hc
  · split at hc
    · cases hc
    · rw [Out.append_changes, mem_append] at hc
      rcases hc with hc | hc
      · split at hc <;> cases hc
      · rw [Out.change_changes, mem_singleton] at hc; subst hc; rfl
  · rw [Out.append_changes, mem_append] at hc
    rcases hc with hc | hc
    · obtain ⟨-, rfl⟩ := Out.mem_changeIf.1 hc; rfl
    · split at hc
      · exact diffColumn_ofColumn c hc
      · cases hc

theorem columnChanges_fold (hu : t.declaredCols[u]? = some ref) (col : Option StandingColumn) :
    (t.columnChanges dialect).changes.foldl (stepColumn engine u) col =
      (diffDeclaredColumn dialect ⟨base.ids, declared.ids⟩ declared.ids.conversions t.baseName t.declaredName t.baseTable
        t.declaredTable t.baseCols u ref).changes.foldl (stepColumn engine u) col := by
  have hmem := mem_toList_iff_getElem?_eq_some.2 hu
  have hother : ∀ e ∈ t.declaredCols.toList, e ≠ (u, ref) → e.1 ≠ u := by
    rintro ⟨v, r⟩ he hne rfl
    rw [mem_toList_iff_getElem?_eq_some, hu] at he
    cases he
    exact hne rfl
  simp only [KeptTable.columnChanges, diffColumns, Out.append_changes, Out.forEach, foldl_append]
  refine (foldl_flatMap_same id ?_).trans ?_
  · rintro ⟨v, r⟩ - col
    by_cases hv : t.declaredCols.contains v = true
    · simp [hv, Out.changeIf]
    · have hne : v ≠ u := by
        rintro rfl
        exact hv (contains_iff_exists.2 ⟨ref, hu⟩)
      refine foldl_stepColumn_of_ne (fun c hc => ?_) hne col
      obtain ⟨-, rfl⟩ := Out.mem_changeIf.1 hc
      rfl
  · exact foldl_flatMap_eq_of_mem nodup_toList hmem
      fun e he hne col => foldl_stepColumn_of_ne diffDeclaredColumn_ofColumn (hother e he hne) col

theorem diffDeclaredColumn_errs (herr : (t.columnChanges dialect).errs = []) (hu : t.declaredCols[u]? = some ref) :
    (diffDeclaredColumn dialect ⟨base.ids, declared.ids⟩ declared.ids.conversions t.baseName t.declaredName t.baseTable
      t.declaredTable t.baseCols u ref).errs = [] := by
  simp only [KeptTable.columnChanges, diffColumns, Out.append_errs, append_eq_nil_iff, Out.forEach,
    flatMap_eq_nil_iff] at herr
  exact herr.1 (u, ref) (mem_toList_iff_getElem?_eq_some.2 hu)

/-- The cell a row of the base holds in a declared column once the column changes have run: the
default where the plan adds the column, else its own, carried through a change of type. -/
def KeptTable.left (t : KeptTable base declared) (engine : Engine) (dialect : Dialect) (before : Row) (u : Uid)
    (spec : Column) (key : RowKey) : Cell :=
  match t.baseCols[u]? with
  | none => engine.given u spec.valueSource.default? false key
  | some ref =>
    match t.baseTable.columns.lookup ref.name with
    | none => .value .null
    | some was =>
      engine.carried dialect ⟨base.ids, declared.ids⟩ u was spec (Standing.baseCellOf engine u ref.name was (some before) key)

@[simp] theorem forwardedRows_columns {ids : IdsFile} {renames : LabelRenames} {table : Table} :
    (forwardedRows ids renames table).columns = table.columns := by
  unfold forwardedRows
  split
  · rfl
  · dsimp only; split <;> rfl

variable (engine) in
/-- The changes of a table leave each declared column with its default. -/
theorem columnChanges_settle (plan : List Change) {spec : Column} (hbase : base.Described)
    (herr : (t.columnChanges dialect).errs = []) (hu : t.declaredCols[u]? = some ref)
    (hspec : t.declaredTable.columns.lookup ref.name = some spec) (hown : spec.valueSource.enginesOwn = false) :
    ∃ col, ((t.standing engine plan).replay engine (t.columnChanges dialect).changes).columns u = some col ∧
      col.name = ref.name ∧ col.default = spec.valueSource.default? ∧ col.enginesOwn = false ∧
      ∀ key before, (baseRows (t.observed plan))[key]? = some before →
        col.cells key = t.left engine dialect before u spec key := by
  have herr' := diffDeclaredColumn_errs herr hu
  rw [Standing.replay_columns, columnChanges_fold hu]
  unfold diffDeclaredColumn at herr' ⊢
  cases hb : t.baseCols[u]? with
  | none =>
    simp only [hb, hspec, Out.append_changes] at herr' ⊢
    refine ⟨⟨ref.name, spec.valueSource.default?, false, engine.given u spec.valueSource.default? false⟩, ?_, rfl, rfl, rfl, ?_⟩
    · split <;> simp [stepColumn, hown]
    · intro key before _
      simp only [KeptTable.left, hb]
  | some was =>
    obtain ⟨hbu, hbt⟩ := getElem?_columnsOf.1 hb
    have hmem : was.name ∈ t.baseTable.columns := by
      rw [hbase.columns t.baseName t.baseTable t.wasTable]
      exact ⟨u, by rw [hbu, ← hbt]; rfl⟩
    obtain ⟨wasSpec, hw⟩ := isSome_iff_exists.1 (AList.lookup_isSome.2 hmem)
    have hstart : (t.standing engine plan).columns u = some ⟨was.name, wasSpec.valueSource.default?,
        wasSpec.valueSource.enginesOwn,
        fun key => Standing.baseCellOf engine u was.name wasSpec (baseRows (t.observed plan))[key]? key⟩ := by
      simp only [KeptTable.standing, Standing.ofBase, KeptTable.observed, forwardedRows_columns, hb, bind_some, hw,
        map_some]
    simp only [hb, hw, hspec, Out.append_changes, Out.append_errs, append_eq_nil_iff, foldl_append,
      hstart] at herr' ⊢
    -- a rename changes the name alone
    have hrename : ∀ c : StandingColumn, c.name = was.name →
        (Out.changeIf (decide (was.name ≠ ref.name)) (.renameColumn u t.declaredName was.name ref.name
          (if t.baseName ≠ t.declaredName then some t.baseName else none))).changes.foldl (stepColumn engine u) (some c) =
          some { c with name := ref.name } := by
      intro c hc
      by_cases hn : was.name = ref.name
      · have : c = { c with name := ref.name } := by rw [← hn, ← hc]
        simpa [hn, Out.changeIf] using this
      · simp [hn, Out.changeIf, stepColumn]
    rw [hrename _ rfl, diffColumn_settles herr'.2 hown rfl rfl]
    refine ⟨_, rfl, rfl, rfl, rfl, fun key before hbefore => ?_⟩
    simp only [KeptTable.left, hb, hw, hbefore]

end Columns

/-! ## The rows of a kept table -/

section Rows

variable {name : TableName} {base declared : Table} {names : ExtTreeMap ColumnName ColumnName} {keyColumn : ColumnName}
  {key k : RowKey} {row before : Row}
  {engine : Engine} {u : Uid}

theorem mem_comparedColumns {c : ColumnName} {spec : Column} : (c, spec) ∈ comparedColumns declared keyColumn ↔
    declared.columns.lookup c = some spec ∧ c ≠ keyColumn ∧ spec.valueSource.enginesOwn = false := by
  simp [comparedColumns, mem_columnList]

theorem getElem?_changedCells {c : ColumnName} {spec : Column} (h : (c, spec) ∈ comparedColumns declared keyColumn) :
    (changedCells base declared names keyColumn before row)[c]? =
      if baseCell base names before c = cell row c (some spec) then none
      else some (baseCell base names before c, cell row c (some spec)) := by
  have hnd : ((comparedColumns declared keyColumn).map Prod.fst).Nodup :=
    (filter_sublist.map Prod.fst).nodup (nodup_columnList declared)
  unfold changedCells
  rw [getElem?_ofList_filterMap hnd ?_ h]
  · dsimp only; split <;> rfl
  · rintro ⟨c, spec⟩ w hw
    dsimp only at hw
    split at hw
    · cases hw
    · cases hw; rfl

def updated (columns : ExtTreeMap ColumnName (Cell × Cell)) (key : RowKey) (c : StandingColumn) : StandingColumn :=
  match columns[c.name]? with
  | some (_, d) => c.write key d
  | none => c

theorem view_updated_of_ne {columns : ExtTreeMap ColumnName (Cell × Cell)} {c : StandingColumn} (h : key ≠ k) :
    (updated columns k c).view key = c.view key := by
  unfold updated
  split
  · exact StandingColumn.view_write_of_ne h
  · rfl

theorem diffDeclaredRow_fold (col : Option StandingColumn) :
    (diffDeclaredRow name base declared names keyColumn key row).changes.foldl
        (stepColumn engine u) col =
      col.map fun c =>
        match (baseRows base)[key]? with
        | none => c.write key (engine.inserted u row key c)
        | some before => updated (changedCells base declared names keyColumn before row) key c := by
  unfold diffDeclaredRow
  cases h : (baseRows base)[key]? with
  | none => rfl
  | some before =>
    dsimp only
    by_cases he : (changedCells base declared names keyColumn before row).isEmpty = true
    · have hempty : changedCells base declared names keyColumn before row = ∅ := ExtTreeMap.isEmpty_iff.1 he
      cases col <;> simp [hempty, updated, Out.changeIf]
    · cases col with
      | none => simp [he, Out.changeIf, stepColumn]
      | some c => simp only [he, Out.changeIf]; rfl

theorem diffDeclaredRow_view_of_ne (h : key ≠ k) (col : Option StandingColumn) :
    ((diffDeclaredRow name base declared names keyColumn k row).changes.foldl
        (stepColumn engine u) col).map (·.view key) = col.map (·.view key) := by
  rw [diffDeclaredRow_fold]
  cases col with
  | none => rfl
  | some c =>
    simp only [map_some, Option.some.injEq]
    split
    · exact StandingColumn.view_write_of_ne h
    · exact view_updated_of_ne h

end Rows

section Keys

variable {base declared : Side} {t : KeptTable base declared} {plan : List Change}

theorem getElem?_baseNameOf (hdecl : declared.Described) {u : Uid} {ref : ColumnRef} (hu : t.declaredCols[u]? = some ref) :
    (baseNameOf t.baseCols t.declaredCols)[ref.name]? = t.baseCols[u]?.map (·.name) := by
  have hnames : ((t.declaredCols.toList.map fun e => (e.2.name, e.1)).map Prod.fst).Nodup := by
    rw [List.map_map]
    refine List.Nodup.map_on ?_ nodup_toList
    rintro ⟨v, r⟩ hv ⟨w, r'⟩ hw hn
    obtain ⟨hv1, hv2⟩ := getElem?_columnsOf.1 (mem_toList_iff_getElem?_eq_some.1 hv)
    obtain ⟨hw1, hw2⟩ := getElem?_columnsOf.1 (mem_toList_iff_getElem?_eq_some.1 hw)
    have : r = r' := by cases r; cases r'; simp_all
    subst this
    rw [hdecl.inj hv1 hw1]
  have hmem : (ref.name, u) ∈ t.declaredCols.toList.map fun e => (e.2.name, e.1) :=
    List.mem_map.2 ⟨(u, ref), mem_toList_iff_getElem?_eq_some.2 hu, rfl⟩
  have hshape : baseNameOf t.baseCols t.declaredCols = .ofList ((t.declaredCols.toList.map fun e => (e.2.name, e.1)).filterMap
      fun e => t.baseCols[e.2]?.map fun b => (e.1, b.name)) := by
    rw [filterMap_map]; rfl
  rw [hshape, getElem?_ofList_filterMap hnames ?_ hmem]
  · cases t.baseCols[u]? <;> rfl
  · rintro ⟨n, v⟩ w hw
    obtain ⟨b, -, rfl⟩ := map_eq_some_iff.1 hw
    rfl

/-- The table's rows have one key column, under one uid on both sides, which the base's primary key is
over or this plan puts one on. -/
structure KeptTable.KeyKept (t : KeptTable base declared) (plan : List Change) (k : ColumnName) : Prop where
  declaredKey : dataKey t.declaredTable = some k
  kept : ∃ (u : Uid) (b : ColumnName), t.declaredCols[u]? = some (t.declaredName.column k) ∧
    t.baseCols[u]? = some (t.baseName.column b) ∧ (dataKey t.baseTable = some b ∨
      t.baseTable.primaryKey = none ∧ restoresKey plan t.declaredName k = true)

@[simp] theorem forwardedRows_primaryKey {ids : IdsFile} {renames : LabelRenames} {table : Table} :
    (forwardedRows ids renames table).primaryKey = table.primaryKey := by
  unfold forwardedRows
  split
  · rfl
  · dsimp only; split <;> rfl

theorem KeptTable.KeyKept.dataKeyError {k : ColumnName} (hkey : t.KeyKept plan k) (hbase : base.Described)
    (hdecl : declared.Described) :
    dataKeyError t.declaredName (t.observed plan) (baseNameOf t.baseCols t.declaredCols) plan k = none := by
  obtain ⟨u, b, hu, hb, h⟩ := hkey.kept
  have hname : (baseNameOf t.baseCols t.declaredCols)[k]? = some b := by
    have := getElem?_baseNameOf hdecl hu
    rw [hb] at this
    exact this
  unfold Diff.dataKeyError BaselineDataKey.of
  rw [KeptTable.observed, forwardedRows_primaryKey, forwardedRows_columns]
  rcases h with h | ⟨hnone, hrestored⟩
  · unfold dataKey at h
    split at h
    · rename_i b' hcols
      cases h
      simp [hcols, hname]
    · cases h
  · have hmem : b ∈ t.baseTable.columns := by
      rw [hbase.columns t.baseName t.baseTable t.wasTable]
      exact ⟨u, (getElem?_columnsOf.1 hb).1⟩
    simp [hnone, hrestored, hname, hmem]

theorem rowChanges_eq {k : ColumnName} {data : TableData} (hkey : t.KeyKept plan k) (hbase : base.Described)
    (hdecl : declared.Described) (hdata : t.declaredTable.data = some data) :
    t.rowChanges plan = diffDataMode t.declaredName (t.observed plan) t.declaredTable ++
      diffRows t.declaredName (t.observed plan) t.declaredTable (baseNameOf t.baseCols t.declaredCols) k data := by
  unfold KeptTable.rowChanges diffData
  simp only [hkey.declaredKey, hdata, hkey.dataKeyError hbase hdecl, ite_self]

end Keys

/-! ## The run over a block -/

section Block

variable {name : TableName} {base declared : Table} {names : ExtTreeMap ColumnName ColumnName} {keyColumn : ColumnName}
  {data : TableData} {key : RowKey} {row : Row} {engine : Engine} {u : Uid}

theorem diffDataMode_fold {β : Type} (f : β → Change → β) (hf : ∀ s a b, f s (.setDataMode name a b) = s) (s : β) :
    (diffDataMode name base declared).changes.foldl f s = s := by
  unfold diffDataMode Out.changeIf
  dsimp only
  split
  · exact hf _ _ _
  · rfl

theorem deleteRows_fold_stepColumn (col : Option StandingColumn) :
    (deleteRows name base declared names keyColumn data).changes.foldl (stepColumn engine u) col = col := by
  unfold deleteRows
  split
  · refine foldl_flatMap_same id fun ⟨k, before⟩ _ col => ?_
    dsimp only
    unfold Out.changeIf
    split <;> rfl
  · rfl

theorem diffRows_view (hrow : data.rows[key]? = some row) (col : Option StandingColumn) :
    ∃ col' : Option StandingColumn, col'.map (·.view key) = col.map (·.view key) ∧
      ((diffRows name base declared names keyColumn data).changes.foldl (stepColumn engine u) col).map (·.view key) =
        ((diffDeclaredRow name base declared names keyColumn key row).changes.foldl (stepColumn engine u) col').map
          (·.view key) := by
  rw [diffRows, Out.append_changes, foldl_append, deleteRows_fold_stepColumn]
  refine foldl_flatMap_of_mem (Option.map (StandingColumn.view key)) (a := (key, row)) nodup_toList
    (mem_toList_iff_getElem?_eq_some.2 hrow) fun ⟨k, r⟩ he hne col => diffDeclaredRow_view_of_ne ?_ col
  rintro rfl
  rw [mem_toList_iff_getElem?_eq_some, hrow] at he
  cases he
  exact hne rfl

theorem diffRows_view_undeclared (hrow : key ∉ data.rows) (col : Option StandingColumn) :
    ((diffRows name base declared names keyColumn data).changes.foldl (stepColumn engine u) col).map (·.view key) =
      col.map (·.view key) := by
  rw [diffRows, Out.append_changes, foldl_append, deleteRows_fold_stepColumn]
  refine foldl_flatMap_same (Option.map (StandingColumn.view key)) fun ⟨k, r⟩ he col => diffDeclaredRow_view_of_ne ?_ col
  rintro rfl
  exact hrow (mem_of_getElem?_eq (mem_toList_iff_getElem?_eq_some.1 he))

/-! The keys of the rows. -/

theorem diffDeclaredRow_rows (rows : ExtTreeSet RowKey) :
    (diffDeclaredRow name base declared names keyColumn key row).changes.foldl stepRows rows =
      if key ∈ baseRows base then rows else rows.insert key := by
  unfold diffDeclaredRow
  cases h : (baseRows base)[key]? with
  | none =>
    have hn : key ∉ baseRows base := by rw [mem_iff_exists, h]; simp
    rw [if_neg hn]; rfl
  | some before =>
    rw [if_pos (mem_of_getElem?_eq h)]
    dsimp only
    unfold Out.changeIf
    split <;> rfl

theorem mem_diffDeclaredRow_rows_of_ne {k : RowKey} (h : key ≠ k) (rows : ExtTreeSet RowKey) :
    (key ∈ (diffDeclaredRow name base declared names keyColumn k row).changes.foldl stepRows rows) = (key ∈ rows) := by
  rw [diffDeclaredRow_rows]
  split
  · rfl
  · rw [ExtTreeSet.mem_insert, Std.LawfulEqOrd.compare_eq_iff_eq, eq_iff_iff]
    exact ⟨fun hk => hk.resolve_left (Ne.symm h), .inr⟩

variable {rows : ExtTreeSet RowKey}

theorem mem_diffRows_declared (hbase : ∀ k : RowKey, k ∈ baseRows base → k ∈ rows) :
    key ∈ ((Out.forEach data.rows.toList fun (k, r) => diffDeclaredRow name base declared names keyColumn k r).changes.foldl
      stepRows rows) ↔ key ∈ rows ∨ key ∈ data.rows := by
  by_cases hd : key ∈ data.rows
  · obtain ⟨row, hrow⟩ := mem_iff_exists.1 hd
    obtain ⟨rows', h1, h2⟩ := foldl_flatMap_of_mem (fun rows => key ∈ rows) (b := rows) (f := stepRows)
      (g := fun e : RowKey × Row => (diffDeclaredRow name base declared names keyColumn e.1 e.2).changes)
      nodup_toList (mem_toList_iff_getElem?_eq_some.2 hrow) fun ⟨k, r⟩ he hne rows => by
        refine mem_diffDeclaredRow_rows_of_ne ?_ rows
        rintro rfl
        rw [mem_toList_iff_getElem?_eq_some, hrow] at he
        cases he
        exact hne rfl
    refine (iff_of_eq h2).trans ?_
    simp only [hd, or_true, iff_true]
    rw [diffDeclaredRow_rows]
    split
    · exact (iff_of_eq h1).2 (hbase key (by assumption))
    · exact ExtTreeSet.mem_insert_self
  · simp only [hd, or_false]
    refine iff_of_eq (foldl_flatMap_same (fun rows => key ∈ rows) fun ⟨k, r⟩ he rows =>
      mem_diffDeclaredRow_rows_of_ne ?_ rows)
    rintro rfl
    exact hd (mem_of_getElem?_eq (mem_toList_iff_getElem?_eq_some.1 he))

theorem mem_deleteUndeclared {k : RowKey} {before : Row} :
    key ∈ (Out.changeIf (!data.rows.contains k) (deleteUndeclared name base declared names keyColumn k before)).changes.foldl
      stepRows rows ↔ key ∈ rows ∧ (k = key → key ∈ data.rows) := by
  by_cases hk : k ∈ data.rows
  · have hc : (!data.rows.contains k) = false := by simp [hk]
    rw [hc]
    refine ⟨fun h => ⟨h, ?_⟩, And.left⟩
    rintro rfl
    exact hk
  · have hc : (!data.rows.contains k) = true := by
      rw [Bool.not_eq_true', Bool.eq_false_iff, ne_eq, ExtTreeMap.contains_iff_mem]
      exact hk
    rw [hc]
    show key ∈ rows.erase k ↔ _
    rw [ExtTreeSet.mem_erase, ne_eq, Std.LawfulEqOrd.compare_eq_iff_eq, and_comm]
    refine and_congr_right fun _ => ⟨fun h he => absurd he h, fun h he => ?_⟩
    subst he
    exact hk (h rfl)

theorem mem_deleteRows : key ∈ (deleteRows name base declared names keyColumn data).changes.foldl stepRows rows ↔
      key ∈ rows ∧ (data.mode = .exact → key ∈ baseRows base → key ∈ data.rows) := by
  have hlist : ∀ (l : List (RowKey × Row)) (rows : ExtTreeSet RowKey),
      key ∈ (Out.forEach l fun (k, before) => .changeIf (!data.rows.contains k)
        (deleteUndeclared name base declared names keyColumn k before)).changes.foldl stepRows rows ↔
        key ∈ rows ∧ ∀ e ∈ l, e.1 = key → key ∈ data.rows := by
    intro l
    induction l with
    | nil => intro rows; simp [Out.forEach]
    | cons e l ih =>
      intro rows
      simp only [Out.forEach, flatMap_cons, foldl_append] at ih ⊢
      rw [ih, mem_deleteUndeclared, forall_mem_cons, and_assoc]
  unfold deleteRows
  split
  · rename_i hexact
    rw [hlist]
    refine and_congr_right fun _ => ⟨fun h _ hb => ?_, fun h e he hk => ?_⟩
    · obtain ⟨before, hbefore⟩ := mem_iff_exists.1 hb
      exact h (key, before) (mem_toList_iff_getElem?_eq_some.2 hbefore) rfl
    · subst hk
      exact h hexact (mem_of_getElem?_eq (mem_toList_iff_getElem?_eq_some.1 he))
  · rename_i hexact
    simp [hexact]

theorem mem_diffRows (hbase : ∀ k : RowKey, k ∈ rows ↔ k ∈ baseRows base) :
    key ∈ (diffRows name base declared names keyColumn data).changes.foldl stepRows rows ↔
      key ∈ data.rows ∨ (data.mode = .ensure ∧ key ∈ baseRows base) := by
  rw [diffRows, Out.append_changes, foldl_append, mem_deleteRows, mem_diffRows_declared fun k hk => (hbase k).2 hk,
    hbase]
  cases data.mode <;> by_cases hd : key ∈ data.rows <;> by_cases hb : key ∈ baseRows base <;> simp [hd, hb]

end Block

/-! ## Reaching the declared rows -/

section Reach

variable {base declared : Side} (t : KeptTable base declared) (engine : Engine) (dialect : Dialect) (plan : List Change)

def KeptTable.afterColumns : Standing := (t.standing engine plan).replay engine (t.columnChanges dialect).changes

def KeptTable.afterRows : Standing := (t.afterColumns engine dialect plan).replay engine (t.rowChanges plan).changes

/-- The plan leaves the table with its declared rows: each with its declared cell in every column a
row may write; in `exact` mode with no other row; in `ensure` mode with every other row as the
column changes left it. -/
structure KeptTable.Reaches (k : ColumnName) (data : TableData) : Prop where
  declaredRows : ∀ key row, data.rows[key]? = some row → key ∈ (t.afterRows engine dialect plan).rows ∧
    ∀ c spec, (c, spec) ∈ t.declaredTable.rowColumns k →
      ∃ (u : Uid) (col : StandingColumn), t.declaredCols[u]? = some (t.declaredName.column c) ∧
        (t.afterRows engine dialect plan).columns u = some col ∧ col.name = c ∧ col.cells key = cell row c (some spec)
  exactRows : data.mode = .exact → ∀ key ∈ (t.afterRows engine dialect plan).rows, key ∈ data.rows
  ensuredRows : data.mode = .ensure → ∀ key, key ∉ data.rows →
    (key ∈ (t.afterRows engine dialect plan).rows ↔ key ∈ (t.standing engine plan).rows) ∧
    ∀ u, ((t.afterRows engine dialect plan).columns u).map (·.view key) =
      ((t.afterColumns engine dialect plan).columns u).map (·.view key)

/-- A row both sides hold, and a column a row may write, by its uid. -/
structure KeptTable.Shared (k : ColumnName) (data : TableData) (key : RowKey) (before row : Row) (u : Uid) (c : ColumnName)
    (spec : Column) : Prop where
  before : (baseRows (t.observed plan))[key]? = some before
  row : data.rows[key]? = some row
  column : (c, spec) ∈ t.declaredTable.rowColumns k
  uid : t.declaredCols[u]? = some (t.declaredName.column c)

/-- What the comparison takes for granted of the cells it leaves. A row that spells NULL in a column
the plan adds does not meet a default there; a row that is NULL in a column the engine wrote for the
base holds NULL; and a change of type keeps a cell that both sides spell alike. -/
structure KeptTable.Settled (k : ColumnName) (data : TableData) : Prop where
  added : ∀ key before row u c spec, t.Shared plan k data key before row u c spec → t.baseCols[u]? = none →
    ∀ e, spec.valueSource = .default e → row[c]? ≠ some .null
  numbered : ∀ key before row u c spec, t.Shared plan k data key before row u c spec →
    ∀ b was, t.baseCols[u]? = some (t.baseName.column b) → t.baseTable.columns.lookup b = some was →
      was.valueSource.enginesOwn = true → before[b]? = none → cell row c (some spec) = .value .null →
      engine.carried dialect ⟨base.ids, declared.ids⟩ u was spec (engine.held key u) = .value .null
  converted : ∀ key before row u c spec, t.Shared plan k data key before row u c spec →
    ∀ b was, t.baseCols[u]? = some (t.baseName.column b) → t.baseTable.columns.lookup b = some was →
      ¬ (was.valueSource.enginesOwn = true ∧ before[b]? = none) →
      cell before b (some was) = cell row c (some spec) →
      engine.carried dialect ⟨base.ids, declared.ids⟩ u was spec (cell row c (some spec)) = cell row c (some spec)

variable {t engine dialect plan} {k : ColumnName} {data : TableData}

variable {u : Uid} {key : RowKey} {row : Row} {c : ColumnName} {spec : Column}

theorem Engine.given_eq_cell (hrow : row[c]? = none) (hown : spec.valueSource.enginesOwn = false) :
    engine.given u spec.valueSource.default? false key = cell row c (some spec) := by
  unfold Engine.given cell
  rw [hrow]
  cases hs : spec.valueSource <;> simp_all [ValueSource.default?, ValueSource.enginesOwn]

theorem mem_rowColumns {table : Table} (h : (c, spec) ∈ table.rowColumns k) : (c, spec) ∈ comparedColumns table k := by
  rw [Table.rowColumns, List.mem_filter] at h
  exact h.1

/-- The cell a declared row ends with: its own where it is inserted or the sides differ, else what the
column changes left. -/
theorem afterRows_cell (hbase : base.Described) (hdecl : declared.Described) (herr : (t.columnChanges dialect).errs = [])
    (hkey : t.KeyKept plan k) (hdata : t.declaredTable.data = some data) (hrow : data.rows[key]? = some row)
    (hc : (c, spec) ∈ t.declaredTable.rowColumns k) (hu : t.declaredCols[u]? = some (t.declaredName.column c)) :
    ∃ col, (t.afterRows engine dialect plan).columns u = some col ∧ col.name = c ∧ col.cells key =
      match (baseRows (t.observed plan))[key]? with
      | none => cell row c (some spec)
      | some before =>
        if baseCell (t.observed plan) (baseNameOf t.baseCols t.declaredCols) before c = cell row c (some spec) then
          t.left engine dialect before u spec key
        else cell row c (some spec) := by
  obtain ⟨hspec, -, hown⟩ := mem_comparedColumns.1 (mem_rowColumns hc)
  obtain ⟨col, hcol, hname, hdefault, hcolOwn, hcells⟩ := columnChanges_settle engine plan hbase herr hu hspec hown
  have hmode : ∀ col, (diffDataMode t.declaredName (t.observed plan) t.declaredTable).changes.foldl (stepColumn engine u) col =
      col := diffDataMode_fold _ fun _ _ _ => rfl
  obtain ⟨start, hstart, hfold⟩ := @diffRows_view t.declaredName (t.observed plan) t.declaredTable
    (baseNameOf t.baseCols t.declaredCols) k data key row engine u hrow (some col)
  obtain ⟨c', rfl, hview⟩ := map_eq_some_iff.1 hstart
  obtain ⟨hn, hd, ho, hk⟩ : c'.name = c ∧ c'.default = spec.valueSource.default? ∧ c'.enginesOwn = false ∧
      c'.cells key = col.cells key := by
    simp only [StandingColumn.view, Prod.mk.injEq] at hview
    exact ⟨hview.1.trans hname, hview.2.1.trans hdefault, hview.2.2.1.trans hcolOwn, hview.2.2.2⟩
  rw [diffDeclaredRow_fold] at hfold
  rw [KeptTable.afterRows, Standing.replay_columns, rowChanges_eq hkey hbase hdecl hdata, Out.append_changes,
    foldl_append, hmode, KeptTable.afterColumns, hcol]
  obtain ⟨final, hfinal, hshow⟩ := map_eq_some_iff.1 (hfold.trans (map_some ..))
  simp only [StandingColumn.view, Prod.mk.injEq] at hshow
  obtain ⟨hfname, -, -, hfcell⟩ := hshow
  refine ⟨final, hfinal, ?_⟩
  rw [hfname, hfcell]
  cases hbefore : (baseRows (t.observed plan))[key]? with
  | none =>
    refine ⟨hn, ?_⟩
    simp only [StandingColumn.write_cells_self, Engine.inserted, hn, hd, ho]
    cases hcell : row[c]? with
    | some v => simp [cell, hcell]
    | none => exact Engine.given_eq_cell hcell hown
  | some before =>
    simp only [updated, hn, getElem?_changedCells (mem_rowColumns hc)]
    by_cases hj : baseCell (t.observed plan) (baseNameOf t.baseCols t.declaredCols) before c = cell row c (some spec)
    · rw [if_pos hj, if_pos hj]
      exact ⟨hn, hk.trans (hcells key before hbefore)⟩
    · rw [if_neg hj, if_neg hj]
      exact ⟨hn, StandingColumn.write_cells_self ..⟩

theorem columnChanges_rows (rows : ExtTreeSet RowKey) : (t.columnChanges dialect).changes.foldl stepRows rows = rows := by
  refine foldl_of_idle fun change h rows => ?_
  simp only [KeptTable.columnChanges, diffColumns, Out.append_changes, mem_append, Out.mem_forEach] at h
  rcases h with ⟨⟨u, ref⟩, -, h⟩ | ⟨⟨u, ref⟩, -, h⟩
  · exact (diffDeclaredColumn_ofColumn change h).stepRows rows
  · obtain ⟨-, rfl⟩ := Out.mem_changeIf.1 h
    rfl

theorem mem_standing_rows : key ∈ (t.standing engine plan).rows ↔ key ∈ baseRows (t.observed plan) := by
  simp [KeptTable.standing, Standing.ofBase, ExtTreeSet.mem_ofList, ExtTreeMap.mem_keys]

section

variable (hbase : base.Described) (hdecl : declared.Described) (hkey : t.KeyKept plan k)
variable (hdata : t.declaredTable.data = some data)
include hbase hdecl hkey hdata

theorem mem_afterRows : key ∈ (t.afterRows engine dialect plan).rows ↔
      key ∈ data.rows ∨ (data.mode = .ensure ∧ key ∈ baseRows (t.observed plan)) := by
  have hmode : ∀ rows, (diffDataMode t.declaredName (t.observed plan) t.declaredTable).changes.foldl stepRows rows = rows :=
    diffDataMode_fold _ fun _ _ _ => rfl
  rw [KeptTable.afterRows, Standing.replay_rows, rowChanges_eq hkey hbase hdecl hdata, Out.append_changes, foldl_append,
    hmode, KeptTable.afterColumns, Standing.replay_rows, columnChanges_rows]
  exact mem_diffRows fun _ => mem_standing_rows

theorem afterRows_view_undeclared (h : key ∉ data.rows) (u : Uid) :
    ((t.afterRows engine dialect plan).columns u).map (·.view key) =
      ((t.afterColumns engine dialect plan).columns u).map (·.view key) := by
  have hmode : ∀ col, (diffDataMode t.declaredName (t.observed plan) t.declaredTable).changes.foldl (stepColumn engine u) col =
      col := diffDataMode_fold _ fun _ _ _ => rfl
  rw [KeptTable.afterRows, Standing.replay_columns, rowChanges_eq hkey hbase hdecl hdata, Out.append_changes,
    foldl_append, hmode]
  exact diffRows_view_undeclared h _

end

/-! ### Cells judged equal -/

/-- A cell of a row both sides hold that the comparison leaves is the declared one. -/
def KeptTable.LeavesDeclared (t : KeptTable base declared) (engine : Engine) (dialect : Dialect) (plan : List Change)
    (before row : Row) (key : RowKey) (u : Uid) (c : ColumnName) (spec : Column) : Prop :=
  baseCell (t.observed plan) (baseNameOf t.baseCols t.declaredCols) before c = cell row c (some spec) →
    t.left engine dialect before u spec key = cell row c (some spec)

theorem reaches_iff_leavesDeclared (hbase : base.Described) (hdecl : declared.Described)
    (herr : (t.columnChanges dialect).errs = []) (hkey : t.KeyKept plan k) (hdata : t.declaredTable.data = some data) :
    t.Reaches engine dialect plan k data ↔ ∀ key before row u c spec, t.Shared plan k data key before row u c spec →
      t.LeavesDeclared engine dialect plan before row key u c spec := by
  constructor
  · intro h key before row u c spec hs hjudged
    obtain ⟨v, col, hv, hcol, -, hcell⟩ := (h.declaredRows key row hs.row).2 c spec hs.column
    obtain rfl : v = u := hdecl.inj (getElem?_columnsOf.1 hv).1 (getElem?_columnsOf.1 hs.uid).1
    obtain ⟨col', hcol', -, hcell'⟩ := @afterRows_cell _ _ t engine dialect plan k data v key row c spec hbase hdecl
      herr hkey hdata hs.row hs.column hs.uid
    rw [hs.before] at hcell'
    rw [hcol] at hcol'
    cases hcol'
    rw [← hcell, hcell']
    exact (if_pos hjudged).symm
  · intro h
    refine ⟨fun key row hrow => ⟨(mem_afterRows hbase hdecl hkey hdata).2 (.inl (mem_of_getElem?_eq hrow)),
      fun c spec hc => ?_⟩, fun hexact key hmem => ?_, fun hensure key hmem => ⟨?_, ?_⟩⟩
    · have hmem : c ∈ t.declaredTable.columns :=
        AList.lookup_isSome.1 (by rw [(mem_comparedColumns.1 (mem_rowColumns hc)).1]; rfl)
      obtain ⟨u, hu⟩ := (hdecl.columns t.declaredName t.declaredTable t.nowTable c).1 hmem
      have hu' : t.declaredCols[u]? = some (t.declaredName.column c) := getElem?_columnsOf.2 ⟨hu, rfl⟩
      obtain ⟨col, hcol, hname, hcell⟩ := @afterRows_cell _ _ t engine dialect plan k data u key row c spec hbase hdecl herr
        hkey hdata hrow hc hu'
      refine ⟨u, col, hu', hcol, hname, ?_⟩
      cases hbefore : (baseRows (t.observed plan))[key]? with
      | none => rw [hbefore] at hcell; exact hcell
      | some before =>
        rw [hbefore] at hcell
        refine hcell.trans ?_
        dsimp only
        split
        · exact h key before row u c spec ⟨hbefore, hrow, hc, hu'⟩ (by assumption)
        · rfl
    · rcases (mem_afterRows hbase hdecl hkey hdata).1 hmem with h | ⟨h, -⟩
      · exact h
      · rw [hexact] at h; cases h
    · rw [mem_afterRows hbase hdecl hkey hdata, mem_standing_rows]
      simp [hmem, hensure]
    · exact afterRows_view_undeclared hbase hdecl hkey hdata hmem

theorem leavesDeclared_added (hdecl : declared.Described) {before : Row} (hs : t.Shared plan k data key before row u c spec)
    (hb : t.baseCols[u]? = none) : t.LeavesDeclared engine dialect plan before row key u c spec ↔
      ∀ e, spec.valueSource = .default e → row[c]? ≠ some .null := by
  obtain ⟨-, -, hown⟩ := mem_comparedColumns.1 (mem_rowColumns hs.column)
  have hname : (baseNameOf t.baseCols t.declaredCols)[c]? = none := by
    have := getElem?_baseNameOf hdecl hs.uid
    rw [hb] at this
    exact this
  unfold KeptTable.LeavesDeclared baseCell KeptTable.left
  rw [hname, hb]
  dsimp only
  cases hrow : row[c]? with
  | none =>
    rw [Engine.given_eq_cell hrow hown]
    simp
  | some v =>
    unfold cell Engine.given
    rw [hrow]
    generalize spec.valueSource = source at hown
    cases source with
    | none => simp [ValueSource.default?]
    | default e =>
      simp only [ValueSource.default?, Cell.value.injEq, Bool.false_eq_true, if_false, reduceCtorEq, imp_false,
        ValueSource.default.injEq, forall_eq', ne_eq, Option.some.injEq]
      exact not_congr eq_comm
    | identity _ | sequence _ | generated _ => cases hown

section Kept

variable {before row : Row} {key : RowKey} {u : Uid} {c b : ColumnName} {spec was : Column}

theorem baseCell_of_kept (hdecl : declared.Described) (hs : t.Shared plan k data key before row u c spec)
    (hb : t.baseCols[u]? = some (t.baseName.column b)) (hwas : t.baseTable.columns.lookup b = some was) :
    baseCell (t.observed plan) (baseNameOf t.baseCols t.declaredCols) before c = cell before b (some was) := by
  have hname : (baseNameOf t.baseCols t.declaredCols)[c]? = some b := by
    have := getElem?_baseNameOf hdecl hs.uid
    rw [hb] at this
    exact this
  rw [baseCell, hname, KeptTable.observed, forwardedRows_columns]
  dsimp only
  rw [hwas]

theorem left_of_kept (hb : t.baseCols[u]? = some (t.baseName.column b)) (hwas : t.baseTable.columns.lookup b = some was) :
    t.left engine dialect before u spec key =
      engine.carried dialect ⟨base.ids, declared.ids⟩ u was spec (Standing.baseCellOf engine u b was (some before) key) := by
  simp only [KeptTable.left, hb, TableName.column, hwas]

variable (hdecl : declared.Described) (hs : t.Shared plan k data key before row u c spec)
variable (hb : t.baseCols[u]? = some (t.baseName.column b)) (hwas : t.baseTable.columns.lookup b = some was)
include hdecl hs hb hwas

theorem leavesDeclared_numbered (hown : was.valueSource.enginesOwn = true) (hbefore : before[b]? = none) :
    t.LeavesDeclared engine dialect plan before row key u c spec ↔ (cell row c (some spec) = .value .null →
      engine.carried dialect ⟨base.ids, declared.ids⟩ u was spec (engine.held key u) = .value .null) := by
  have hcell : cell before b (some was) = .value .null := by
    unfold cell
    rw [hbefore]
    cases hsource : was.valueSource <;> simp_all [ValueSource.enginesOwn]
  have hbase : Standing.baseCellOf engine u b was (some before) key = engine.held key u := by
    simp [Standing.baseCellOf, hbefore, hown, Engine.given]
  unfold KeptTable.LeavesDeclared
  rw [baseCell_of_kept hdecl hs hb hwas, left_of_kept hb hwas, hcell, hbase]
  constructor
  · intro h hnull
    rw [h hnull.symm, hnull]
  · intro h hnull
    rw [h hnull.symm, hnull]

theorem leavesDeclared_converted (hknown : ¬ (was.valueSource.enginesOwn = true ∧ before[b]? = none)) :
    t.LeavesDeclared engine dialect plan before row key u c spec ↔ (cell before b (some was) = cell row c (some spec) →
      engine.carried dialect ⟨base.ids, declared.ids⟩ u was spec (cell row c (some spec)) = cell row c (some spec)) := by
  have hbase : Standing.baseCellOf engine u b was (some before) key = cell before b (some was) := by
    unfold Standing.baseCellOf
    rw [bind_some]
    cases hbefore : before[b]? with
    | some v => simp [cell, hbefore]
    | none =>
      have hown : was.valueSource.enginesOwn = false := by
        rw [Bool.eq_false_iff]
        exact fun h => hknown ⟨h, hbefore⟩
      rw [hown]
      exact Engine.given_eq_cell hbefore hown
  unfold KeptTable.LeavesDeclared
  rw [baseCell_of_kept hdecl hs hb hwas, left_of_kept hb hwas, hbase]
  exact ⟨fun h heq => heq ▸ h heq, fun h heq => heq ▸ h heq⟩

end Kept

theorem baseCols_lookup (hbase : base.Described) {ref : ColumnRef} (hb : t.baseCols[u]? = some ref) :
    ∃ b was, ref = t.baseName.column b ∧ t.baseTable.columns.lookup b = some was := by
  obtain ⟨hu, htable⟩ := getElem?_columnsOf.1 hb
  have href : ref = t.baseName.column ref.name := by rw [← htable]; rfl
  have hmem : ref.name ∈ t.baseTable.columns := by
    rw [hbase.columns t.baseName t.baseTable t.wasTable]
    exact ⟨u, href ▸ hu⟩
  obtain ⟨was, hwas⟩ := isSome_iff_exists.1 (AList.lookup_isSome.2 hmem)
  exact ⟨ref.name, was, href, hwas⟩

/-- The plan reaches the declared rows of a kept table exactly where the comparison is right about
the cells it leaves. -/
theorem rowChanges_reach_iff_settled (hbase : base.Described) (hdecl : declared.Described)
    (herr : (t.columnChanges dialect).errs = []) (hkey : t.KeyKept plan k) (hdata : t.declaredTable.data = some data) :
    t.Reaches engine dialect plan k data ↔ t.Settled engine dialect plan k data := by
  rw [reaches_iff_leavesDeclared hbase hdecl herr hkey hdata]
  constructor
  · intro h
    exact
      { added := fun key before row u c spec hs hb => (leavesDeclared_added hdecl hs hb).1 (h key before row u c spec hs)
        numbered := fun key before row u c spec hs b was hb hwas hown hn =>
          (leavesDeclared_numbered hdecl hs hb hwas hown hn).1 (h key before row u c spec hs)
        converted := fun key before row u c spec hs b was hb hwas hknown =>
          (leavesDeclared_converted hdecl hs hb hwas hknown).1 (h key before row u c spec hs) }
  · intro h key before row u c spec hs
    cases hb : t.baseCols[u]? with
    | none => exact (leavesDeclared_added hdecl hs hb).2 (h.added key before row u c spec hs hb)
    | some ref =>
      obtain ⟨b, was, rfl, hwas⟩ := baseCols_lookup hbase hb
      by_cases hown : was.valueSource.enginesOwn = true ∧ before[b]? = none
      · exact (leavesDeclared_numbered hdecl hs hb hwas hown.1 hown.2).2
          (h.numbered key before row u c spec hs b was hb hwas hown.1 hown.2)
      · exact (leavesDeclared_converted hdecl hs hb hwas hown).2
          (h.converted key before row u c spec hs b was hb hwas hown)

end Reach

/-! ## A column added over a row that is NULL in it -/

section Kinds

theorem Side.described_of_single {s : Side} {name : TableName} {t : Table} {columns : IndexMap ColumnName Column}
    {ids : IdsFile} (htables : s.schema.tables = (∅ : ExtTreeMap TableName Table).insert name t) (hcols : t.columns = columns)
    (hids : s.ids = ids) (valid : ids.validate = .ok ())
    (held : ∀ c ∈ columns.keys, ∃ i ∈ ids.columns.toList, i.2 = name.column c)
    (named : ∀ i ∈ ids.columns.toList, i.2.table = name → i.2.name ∈ columns.keys) : s.Described := by
  subst hids hcols
  refine ⟨valid, fun n t' ht c => ?_⟩
  rw [htables, getElem?_insert_eq_some] at ht
  obtain ⟨rfl, rfl⟩ : n = name ∧ t' = t := ht.resolve_right (by simp)
  rw [AList.mem_keys]
  constructor
  · intro hc
    obtain ⟨⟨u, r⟩, hu, rfl⟩ := held c hc
    exact ⟨u, mem_toList_iff_getElem?_eq_some.1 hu⟩
  · rintro ⟨u, hu⟩
    exact named (u, n.column c) (mem_toList_iff_getElem?_eq_some.2 hu) rfl

def kinds : TableName := ⟨"app", "kinds"⟩
def kindId : Column := { ty := { base := "integer" }, nullable := false }
def kindNote : Column := { ty := { base := "text" }, valueSource := .default "'none'" }

def kindsTable : Table where
  columns := AList.singleton "id" kindId
  primaryKey := some { columns := ["id"] }
  data := some ⟨.exact, (∅ : ExtTreeMap RowKey Row).insert "1" ∅⟩

def notedColumns : IndexMap ColumnName Column := (AList.singleton "id" kindId).insert "note" kindNote

def notedRow (given : Bool) : Row := (∅ : Row).insert "note" (if given then .text "first" else .null)

def notedData (given : Bool) : TableData := ⟨.exact, (∅ : ExtTreeMap RowKey Row).insert "1" (notedRow given)⟩

def notedTable (given : Bool) : Table where
  columns := notedColumns
  primaryKey := some { columns := ["id"] }
  data := some (notedData given)

def kindsIds : IdsFile where
  tables := (∅ : ExtTreeMap Uid TableName).insert ⟨"t_kinds"⟩ kinds
  columns := (∅ : ExtTreeMap Uid ColumnRef).insert ⟨"c_id"⟩ (kinds.column "id")

def notedIds : IdsFile where
  tables := (∅ : ExtTreeMap Uid TableName).insert ⟨"t_kinds"⟩ kinds
  columns := (∅ : ExtTreeMap Uid ColumnRef).insert ⟨"c_id"⟩ (kinds.column "id") |>.insert ⟨"c_note"⟩ (kinds.column "note")

def kindsSide : Side := ⟨{ tables := (∅ : ExtTreeMap TableName Table).insert kinds kindsTable }, kindsIds⟩

def notedSide (given : Bool) : Side :=
  ⟨{ tables := (∅ : ExtTreeMap TableName Table).insert kinds (notedTable given) }, notedIds⟩

def keptKinds (given : Bool) : KeptTable kindsSide (notedSide given) where
  uid := ⟨"t_kinds"⟩
  baseName := kinds
  declaredName := kinds
  baseTable := kindsTable
  declaredTable := notedTable given
  was := getElem?_insert_self
  now := getElem?_insert_self
  wasTable := getElem?_insert_self
  nowTable := getElem?_insert_self

/-- An engine that takes every type as written and rebuilds nothing for a retype. -/
def plainDialect : Dialect where
  normalizeType := some
  changesNumbering := true
  typeChangeNeedsUsing _ _ := false
  valueChangeNeedsUsing _ := false
  valueChangeConverts _ := true
  retypeDependents _ _ := {}
  recollateDependents := {}
  nullabilityDependents _ := {}
  enumRebuildDependents := {}
  partitionMeetings := false
  attachScanKey _ _ _ := []
  ownedSequenceDefault _ _ _ := .error "no sequences"

def plainEngine : Engine := ⟨fun _ _ => .value .null, fun _ _ _ v => v⟩

theorem kindsSide_described : kindsSide.Described :=
  Side.described_of_single rfl rfl rfl (by decide) (by decide) (by decide)

variable (given : Bool)

theorem notedSide_described : (notedSide given).Described := by
  cases given
  · exact Side.described_of_single rfl rfl rfl (by decide) (by decide) (by decide)
  · exact Side.described_of_single rfl rfl rfl (by decide) (by decide) (by decide)

theorem keptKinds_columns : ((keptKinds given).columnChanges plainDialect).errs = [] ∧
    (keptKinds given).declaredCols[(⟨"c_id"⟩ : Uid)]? = some ((keptKinds given).declaredName.column "id") ∧
    (keptKinds given).baseCols[(⟨"c_id"⟩ : Uid)]? = some ((keptKinds given).baseName.column "id") ∧
    (keptKinds given).declaredCols[(⟨"c_note"⟩ : Uid)]? = some ((keptKinds given).declaredName.column "note") ∧
    (keptKinds given).baseCols[(⟨"c_note"⟩ : Uid)]? = none := by
  revert given
  decide +kernel

theorem keptKinds_errs : ((keptKinds given).columnChanges plainDialect).errs = [] := (keptKinds_columns given).1

theorem keptKinds_keyKept : (keptKinds given).KeyKept [] "id" := by
  obtain ⟨-, hdeclared, hbase, -⟩ := keptKinds_columns given
  exact ⟨rfl, ⟨"c_id"⟩, "id", hdeclared, hbase, .inl rfl⟩

theorem keptKinds_shared :
    (keptKinds given).Shared [] "id" (notedData given) "1" ∅ (notedRow given) ⟨"c_note"⟩ "note" kindNote where
  before := by revert given; decide
  row := getElem?_insert_self
  column := by revert given; decide
  uid := (keptKinds_columns given).2.2.2.1

/-- The plan for the row with a note leaves it with its note. -/
theorem keptKinds_reaches : (keptKinds true).Reaches plainEngine plainDialect [] "id" (notedData true) := by
  have hiff := @rowChanges_reach_iff_settled _ _ (keptKinds true) plainEngine plainDialect [] "id" (notedData true)
    kindsSide_described (notedSide_described true) (keptKinds_errs true) (keptKinds_keyKept true) rfl
  have hnote : ∀ {key before row u c spec}, (keptKinds true).Shared [] "id" (notedData true) key before row u c spec →
      row = notedRow true ∧ c = "note" ∧ (keptKinds true).baseCols[u]? = none := by
    intro key before row u c spec hs
    have hrow := hs.row
    rw [notedData, getElem?_insert_eq_some] at hrow
    obtain ⟨-, rfl⟩ := hrow.resolve_right (by simp)
    have hcols : (notedTable true).rowColumns "id" = [("note", kindNote)] := by decide
    have hc := hs.column
    rw [show (keptKinds true).declaredTable = notedTable true from rfl, hcols, mem_singleton] at hc
    cases hc
    obtain rfl : u = ⟨"c_note"⟩ := (notedSide_described true).inj (getElem?_columnsOf.1 hs.uid).1
      (getElem?_columnsOf.1 (keptKinds_shared true).uid).1
    exact ⟨rfl, rfl, (keptKinds_columns true).2.2.2.2⟩
  refine hiff.2 ⟨fun key before row u c spec hs _ e _ => ?_, fun key before row u c spec hs b was hb => ?_,
    fun key before row u c spec hs b was hb => ?_⟩
  · obtain ⟨rfl, rfl, -⟩ := hnote hs
    decide
  · rw [(hnote hs).2.2] at hb; cases hb
  · rw [(hnote hs).2.2] at hb; cases hb

/-- The plan for the row without one adds the column with its default, and leaves the row at that. -/
theorem rowChanges_miss_null : ¬ ∀ (base declared : Side) (t : KeptTable base declared) (engine : Engine) (dialect : Dialect)
    (plan : List Change) (k : ColumnName) (data : TableData), base.Described → declared.Described →
      (t.columnChanges dialect).errs = [] → t.KeyKept plan k → t.declaredTable.data = some data →
      t.baseTable.data.isSome = true → t.Reaches engine dialect plan k data := by
  intro h
  have hreach := h _ _ (keptKinds false) plainEngine plainDialect [] "id" (notedData false) kindsSide_described
    (notedSide_described false) (keptKinds_errs false) (keptKinds_keyKept false) rfl rfl
  rw [reaches_iff_leavesDeclared kindsSide_described (notedSide_described false) (keptKinds_errs false)
    (keptKinds_keyKept false) rfl] at hreach
  have hleft := hreach _ _ _ _ _ _ (keptKinds_shared false)
  rw [leavesDeclared_added (notedSide_described false) (keptKinds_shared false) (keptKinds_columns false).2.2.2.2] at hleft
  exact hleft "'none'" rfl (by decide)

end Kinds

end Pbps.Diff
