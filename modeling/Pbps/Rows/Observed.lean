/-
Rows as the catalog read them, and as a side of a plan spells them: `ObservedRow`, `ObservedTable` and `DataScope::project` of
`data.rs`. A declaration may write a key the engine spells otherwise, and leave out a cell that is at its default.
-/
import Pbps.Lib.Map
import Pbps.Model.Schema

namespace Pbps.Rows

open Std (ExtTreeMap ExtTreeSet)
open Std.ExtTreeSet (contains_iff_mem distinct_toList mem_toList)
open Option (any_some getD_none getD_some map_eq_some_iff map_some)
open Std.ExtTreeMap

/-! ## What was read, and how a side sees it -/

/-- One row as the catalog read it. Which cells were written and which left at a default the catalog does not know: `atDefault`
are those the engine confirmed, and `unknown` those it was not asked about. -/
structure ObservedRow where
  cells : Row
  atDefault : ExtTreeSet ColumnName := ∅
  unknown : ExtTreeSet ColumnName := ∅

def ObservedRow.asSeenBy (observed : ObservedRow) (reference : Option Row) : Row :=
  observed.cells.filter fun column _ =>
    let spelled := reference.any (·.contains column)
    if observed.atDefault.contains column then spelled
    else if observed.unknown.contains column then reference.all (·.contains column)
    else true

/-- One table's rows, by the engine's spelling of each key. `aliases` says which row each requested spelling named. -/
structure ObservedTable where
  rows : ExtTreeMap RowKey ObservedRow := ∅
  aliases : ExtTreeMap RowKey RowKey := ∅

namespace ObservedTable

def row (t : ObservedTable) (key : RowKey) : Option (RowKey × ObservedRow) :=
  let canonical := t.aliases.getD key key
  t.rows[canonical]?.map fun row => (canonical, row)

/-- Notes which of a side's keys named a row, unless one already did. -/
def request (t : ObservedTable) (requested : ExtTreeMap RowKey RowKey) (key : RowKey) : ExtTreeMap RowKey RowKey :=
  match t.aliases[key]? with
  | none => requested
  | some canonical => if requested.contains canonical then requested else requested.insert canonical key

/-- By the engine's spelling, the first of `keys` that named the row. -/
def requested (t : ObservedTable) (keys : List RowKey) : ExtTreeMap RowKey RowKey := keys.foldl t.request ∅

/-- Every row, as `prefer` spells it, or else `spelling`, or else the engine. -/
def rowsAs (t : ObservedTable) (spelling prefer : ExtTreeSet RowKey) : ExtTreeMap RowKey ObservedRow :=
  let requested := t.requested (prefer.toList ++ spelling.toList)
  .ofList (t.rows.toList.map fun e => (requested.getD e.1 e.1, e.2))

def conflictFrom (t : ObservedTable) : ExtTreeMap RowKey RowKey → List RowKey → Option (RowKey × RowKey × RowKey)
  | _, [] => none
  | seen, key :: rest =>
    match t.aliases[key]? with
    | none => t.conflictFrom seen rest
    | some canonical =>
      match seen[canonical]? with
      | some first => some (first, key, canonical)
      | none => t.conflictFrom (seen.insert canonical key) rest

def conflict (t : ObservedTable) (spelling : ExtTreeSet RowKey) : Option (RowKey × RowKey × RowKey) :=
  t.conflictFrom ∅ spelling.toList

end ObservedTable

/-- Which of a table's rows a read is asked for. -/
structure DataScope where
  mode : DataMode
  keys : ExtTreeSet RowKey := ∅

namespace DataScope

def of (data : TableData) : DataScope where
  mode := data.mode
  keys := .ofList data.rows.keys

/-- The block a scope describes, from rows read under it or under a wider read. `reference` is this side's own block. -/
def project (scope : DataScope) (observed : ObservedTable) (reference : Option TableData) : TableData where
  mode := scope.mode
  rows :=
    let preferred := (reference.map fun data => (of data).keys).getD ∅
    let seen := fun (k : RowKey) (r : ObservedRow) => r.asSeenBy (reference.bind fun data => data.rows[k]?)
    match scope.mode with
    | .exact => (observed.rowsAs scope.keys preferred).map seen
    | .ensure => .ofList (scope.keys.toList.filterMap fun k => (observed.row k).map fun r => (k, seen k r.2))

end DataScope

/-- One table of `with_observed_rows`. The conflict test asks the reference's own keys, and the scope's where it has none. -/
def withObservedRows (scope : DataScope) (observed : ObservedTable) (own : Option TableData) :
    Except (RowKey × RowKey × RowKey) TableData :=
  match observed.conflict ((own.map DataScope.of).getD scope).keys with
  | some conflict => .error conflict
  | none => .ok (scope.project observed own)

/-! ## The spelling of a row -/

namespace ObservedTable

/-- The engine answers with its own spelling for a key it spells itself. -/
def Fixed (t : ObservedTable) : Prop := ∀ k ∈ t.rows, ∀ canonical, t.aliases[k]? = some canonical → canonical = k

variable {t : ObservedTable}

variable {canonical k : RowKey} {keys : List RowKey} {spelling prefer : ExtTreeSet RowKey}

theorem request_eq_some {requested : ExtTreeMap RowKey RowKey} {key : RowKey} : (t.request requested key)[canonical]? = some k ↔
      requested[canonical]? = some k ∨ requested[canonical]? = none ∧ t.aliases[key]? = some canonical ∧ k = key := by
  rw [request]
  cases halias : t.aliases[key]? with
  | none => simp
  | some named =>
    dsimp only
    by_cases hmem : requested.contains named = true
    · rw [if_pos hmem]
      obtain ⟨first, hfirst⟩ := contains_iff_exists.1 hmem
      refine ⟨.inl, fun h => h.resolve_right ?_⟩
      rintro ⟨hnone, heq, -⟩
      rw [← Option.some.inj heq, hfirst] at hnone
      cases hnone
    · rw [if_neg hmem, getElem?_insert_eq_some]
      have hnone : requested[named]? = none := by
        by_contra hne
        obtain ⟨first, hfirst⟩ := Option.ne_none_iff_exists'.1 hne
        exact hmem (contains_iff_exists.2 ⟨first, hfirst⟩)
      constructor
      · rintro (⟨rfl, rfl⟩ | ⟨-, h⟩)
        · exact .inr ⟨hnone, rfl, rfl⟩
        · exact .inl h
      · rintro (h | ⟨-, heq, rfl⟩)
        · refine .inr ⟨?_, h⟩
          rintro rfl
          rw [hnone] at h
          cases h
        · exact .inl ⟨(Option.some.inj heq).symm, rfl⟩

theorem requested_sound (h : (t.requested keys)[canonical]? = some k) : k ∈ keys ∧ t.aliases[k]? = some canonical := by
  have hfold : ∀ (keys : List RowKey) (r : ExtTreeMap RowKey RowKey), (keys.foldl t.request r)[canonical]? = some k →
      r[canonical]? = some k ∨ k ∈ keys ∧ t.aliases[k]? = some canonical := by
    intro keys
    induction keys with
    | nil => exact fun r h => .inl h
    | cons key keys ih =>
      intro r h
      rcases ih _ h with h | ⟨hmem, halias⟩
      · rcases request_eq_some.1 h with h | ⟨-, halias, rfl⟩
        · exact .inl h
        · exact .inr ⟨List.mem_cons_self, halias⟩
      · exact .inr ⟨List.mem_cons_of_mem _ hmem, halias⟩
  exact (hfold keys ∅ h).resolve_left (by simp)

/-- Who named a row first is not displaced. -/
theorem foldl_request_keeps {first : RowKey} : ∀ (keys : List RowKey) {r : ExtTreeMap RowKey RowKey}, r[canonical]? = some first →
    (keys.foldl t.request r)[canonical]? = some first
  | [], _, h => h
  | _ :: keys, _, h => foldl_request_keeps keys (request_eq_some.2 (.inl h))

theorem requested_complete (hk : k ∈ keys) (halias : t.aliases[k]? = some canonical) :
    ∃ first, (t.requested keys)[canonical]? = some first := by
  have hfold : ∀ (keys : List RowKey) (r : ExtTreeMap RowKey RowKey), k ∈ keys →
      ∃ first, (keys.foldl t.request r)[canonical]? = some first := by
    intro keys
    induction keys with
    | nil => exact fun _ hk => absurd hk List.not_mem_nil
    | cons key keys ih =>
      intro r hk
      rcases List.mem_cons.1 hk with rfl | hk
      · cases hr : r[canonical]? with
        | some first => exact ⟨first, foldl_request_keeps keys (request_eq_some.2 (.inl hr))⟩
        | none => exact ⟨k, foldl_request_keeps keys (request_eq_some.2 (.inr ⟨hr, halias, rfl⟩))⟩
      · exact ih _ hk
  exact hfold keys ∅ hk

/-- The key `rowsAs` files the engine's row under. -/
def rowKey (t : ObservedTable) (spelling prefer : ExtTreeSet RowKey) (canonical : RowKey) : RowKey :=
  (t.requested (prefer.toList ++ spelling.toList)).getD canonical canonical

theorem rowKey_cases (t : ObservedTable) (spelling prefer : ExtTreeSet RowKey) (canonical : RowKey) :
    ((t.rowKey spelling prefer canonical ∈ prefer ∨ t.rowKey spelling prefer canonical ∈ spelling) ∧
        t.aliases[t.rowKey spelling prefer canonical]? = some canonical) ∨
      t.rowKey spelling prefer canonical = canonical ∧ ∀ k, k ∈ prefer ∨ k ∈ spelling → t.aliases[k]? ≠ some canonical := by
  have hkeys : ∀ k, k ∈ prefer.toList ++ spelling.toList ↔ k ∈ prefer ∨ k ∈ spelling := by
    intro k
    rw [List.mem_append, mem_toList, mem_toList]
  cases hr : (t.requested (prefer.toList ++ spelling.toList))[canonical]? with
  | some k =>
    have hkey : t.rowKey spelling prefer canonical = k := by rw [rowKey, getD_eq_getD_getElem?, hr, getD_some]
    obtain ⟨hmem, halias⟩ := requested_sound hr
    rw [hkey]
    exact .inl ⟨(hkeys k).1 hmem, halias⟩
  | none =>
    have hkey : t.rowKey spelling prefer canonical = canonical := by
      rw [rowKey, getD_eq_getD_getElem?, hr, getD_none]
    refine .inr ⟨hkey, fun k hk halias => ?_⟩
    obtain ⟨first, hfirst⟩ := requested_complete ((hkeys k).2 hk) halias
    rw [hr] at hfirst
    cases hfirst

variable (spelling) in
/-- A row that a preferred key names goes by a preferred key, whatever other keys name it. -/
theorem rowKey_of_prefer (hk : k ∈ prefer) (halias : t.aliases[k]? = some canonical) :
    t.rowKey spelling prefer canonical ∈ prefer ∧ t.aliases[t.rowKey spelling prefer canonical]? = some canonical := by
  obtain ⟨first, hfirst⟩ := requested_complete (mem_toList.2 hk) halias
  have hall : (t.requested (prefer.toList ++ spelling.toList))[canonical]? = some first := by
    rw [requested, List.foldl_append]
    exact foldl_request_keeps _ hfirst
  obtain ⟨hmem, hnamed⟩ := requested_sound hfirst
  rw [rowKey, getD_eq_getD_getElem?, hall, getD_some]
  exact ⟨mem_toList.1 hmem, hnamed⟩

theorem rowKey_injective (hfixed : t.Fixed) {c c' : RowKey} (hc : c ∈ t.rows) (hc' : c' ∈ t.rows)
    (h : t.rowKey spelling prefer c = t.rowKey spelling prefer c') : c = c' := by
  rcases t.rowKey_cases spelling prefer c with ⟨-, halias⟩ | ⟨hkey, -⟩ <;>
    rcases t.rowKey_cases spelling prefer c' with ⟨-, halias'⟩ | ⟨hkey', -⟩
  · rw [h, halias'] at halias
    exact (Option.some.inj halias).symm
  · -- one side spells the row by a key the engine gives another
    rw [h, hkey'] at halias
    exact hfixed c' hc' c halias
  · rw [← h, hkey] at halias'
    exact (hfixed c hc c' halias').symm
  · rw [hkey, hkey'] at h
    exact h

theorem nodup_rowKeys (hfixed : t.Fixed) (spelling prefer : ExtTreeSet RowKey) :
    ((t.rows.toList.map fun e => (t.rowKey spelling prefer e.1, e.2)).map Prod.fst).Nodup := by
  rw [List.map_map]
  refine List.Nodup.map_on ?_ nodup_toList
  intro e he e' he' h
  have hmem := mem_of_getElem?_eq (getElem?_of_mem_toList he)
  have hmem' := mem_of_getElem?_eq (getElem?_of_mem_toList he')
  have hkey : e.1 = e'.1 := rowKey_injective hfixed hmem hmem' h
  have hrow := getElem?_of_mem_toList he
  rw [hkey, getElem?_of_mem_toList he'] at hrow
  exact Prod.ext hkey (Option.some.inj hrow).symm

theorem rowsAs_eq_some (hfixed : t.Fixed) {row : ObservedRow} :
    (t.rowsAs spelling prefer)[k]? = some row ↔ ∃ c, t.rows[c]? = some row ∧ t.rowKey spelling prefer c = k := by
  have hmem := getElem?_ofList_eq_some (nodup_rowKeys hfixed spelling prefer) (k := k) (v := row)
  refine Iff.trans hmem ?_
  rw [List.mem_map]
  constructor
  · rintro ⟨e, he, heq⟩
    obtain ⟨rfl, rfl⟩ := Prod.mk.inj heq
    exact ⟨e.1, getElem?_of_mem_toList he, rfl⟩
  · rintro ⟨c, hc, rfl⟩
    exact ⟨(c, row), mem_toList_iff_getElem?_eq_some.2 hc, rfl⟩

end ObservedTable

/-! ## Rows read back as declared -/

/-- An observation that holds a declared block's rows as they are declared: each declared key names a row, no two the same one,
and of that row each cell the declaration spells holds its value, and each other one is at its default or unknown. -/
structure ReadsBack (data : TableData) (observed : ObservedTable) : Prop where
  fixed : observed.Fixed
  names : ∀ k ∈ data.rows, observed.aliases.getD k k ∈ observed.rows
  distinct : ∀ k ∈ data.rows, ∀ k' ∈ data.rows, observed.aliases.getD k k = observed.aliases.getD k' k' → k = k'
  spelled : ∀ (k : RowKey) (row : Row) (r : ObservedRow), data.rows[k]? = some row →
    observed.rows[observed.aliases.getD k k]? = some r →
      ∀ (column : ColumnName) (value : Value), row[column]? = some value → r.cells[column]? = some value
  omitted : ∀ (k : RowKey) (row : Row) (r : ObservedRow), data.rows[k]? = some row →
    observed.rows[observed.aliases.getD k k]? = some r →
      ∀ column ∈ r.cells, column ∉ row → column ∈ r.atDefault ∨ column ∈ r.unknown

theorem mem_keys_of {data : TableData} {k : RowKey} : k ∈ (DataScope.of data).keys ↔ k ∈ data.rows := by
  rw [DataScope.of, ← ExtTreeSet.contains_iff_mem, ExtTreeSet.contains_ofList, List.contains_iff_mem, mem_keys]

theorem asSeenBy_eq {r : ObservedRow} {row : Row}
    (hspelled : ∀ (column : ColumnName) (value : Value), row[column]? = some value → r.cells[column]? = some value)
    (homitted : ∀ column ∈ r.cells, column ∉ row → column ∈ r.atDefault ∨ column ∈ r.unknown) :
    r.asSeenBy (some row) = row := by
  refine ext_getElem? fun column => Option.ext fun value => ?_
  rw [ObservedRow.asSeenBy, getElem?_filter_eq_some]
  cases hrow : row[column]? with
  | some spelled =>
    have hcontains : row.contains column = true := contains_iff_exists.2 ⟨spelled, hrow⟩
    rw [hspelled column spelled hrow]
    simp [hcontains]
  | none =>
    have hcontains : row.contains column = false := by
      rw [← Bool.not_eq_true, contains_iff_exists, hrow]
      rintro ⟨_, h⟩
      cases h
    refine iff_of_false ?_ (by simp)
    rintro ⟨hcell, hkept⟩
    have hnot : column ∉ row := fun hmem => by rw [← ExtTreeMap.contains_iff_mem, hcontains] at hmem; cases hmem
    -- the side leaves the cell out, and so does what it sees
    rcases homitted column (mem_of_getElem?_eq hcell) hnot with hdefault | hunknown
    · rw [if_pos (ExtTreeSet.contains_iff_mem.2 hdefault), any_some, hcontains] at hkept
      cases hkept
    · rw [ExtTreeSet.contains_iff_mem.2 hunknown, if_pos rfl, any_some, Option.all_some, hcontains] at hkept
      split at hkept <;> cases hkept

theorem nodup_ensure {observed : ObservedTable} (seen : RowKey → ObservedRow → Row) (keys : ExtTreeSet RowKey) :
    ((keys.toList.filterMap fun k => (observed.row k).map fun r => (k, seen k r.2)).map Prod.fst).Nodup := by
  rw [List.map_filterMap]
  refine List.Nodup.filterMap ?_ ?_
  · intro a a' b hb hb'
    simp only [Option.mem_def, map_eq_some_iff] at hb hb'
    obtain ⟨_, ⟨_, _, rfl⟩, rfl⟩ := hb
    obtain ⟨_, ⟨_, _, rfl⟩, rfl⟩ := hb'
    rfl
  · exact distinct_toList.imp fun hne heq => hne (Std.LawfulEqOrd.compare_eq_iff_eq.2 heq)

namespace ReadsBack

variable {data : TableData} {observed : ObservedTable} (h : ReadsBack data observed)

include h

variable {k : RowKey} {row : Row} {spelling prefer : ExtTreeSet RowKey}

theorem asSeenBy_row {r : ObservedRow} (hrow : data.rows[k]? = some row) (hr : observed.rows[observed.aliases.getD k k]? = some r) :
    r.asSeenBy (some row) = row :=
  asSeenBy_eq (h.spelled k row r hrow hr) (h.omitted k row r hrow hr)

section

variable (hkeys : ∀ k, k ∈ prefer ∨ k ∈ spelling ↔ k ∈ data.rows)
include hkeys

theorem rowKey_eq (hk : k ∈ data.rows) : observed.rowKey spelling prefer (observed.aliases.getD k k) = k := by
  rcases observed.rowKey_cases spelling prefer (observed.aliases.getD k k) with ⟨hmem, halias⟩ | ⟨hkey, hnone⟩
  · refine h.distinct _ ((hkeys _).1 hmem) k hk ?_
    rw [getD_eq_getD_getElem?, halias, getD_some]
  · rw [hkey]
    cases halias : observed.aliases[k]? with
    | none => rw [getD_eq_getD_getElem?, halias, getD_none]
    | some canonical =>
      have hnamed := hnone k ((hkeys k).2 hk)
      rw [getD_eq_getD_getElem?, halias, getD_some] at hnamed
      exact absurd rfl hnamed

theorem rowsAs_map (hrow : data.rows[k]? = some row) :
    ((observed.rowsAs spelling prefer).map fun k r => r.asSeenBy data.rows[k]?)[k]? = some row := by
  have hk := mem_of_getElem?_eq hrow
  obtain ⟨r, hr⟩ := mem_iff_exists.1 (h.names k hk)
  have hfiled := (ObservedTable.rowsAs_eq_some h.fixed).2 ⟨_, hr, h.rowKey_eq hkeys hk⟩
  rw [getElem?_map, hfiled, map_some, hrow, h.asSeenBy_row hrow hr]

end

theorem project_exact (honly : ∀ c ∈ observed.rows, ∃ k ∈ data.rows, observed.aliases.getD k k = c) :
    ((observed.rowsAs (DataScope.of data).keys (DataScope.of data).keys).map fun k r => r.asSeenBy data.rows[k]?) = data.rows := by
  have hkeys : ∀ k, k ∈ (DataScope.of data).keys ∨ k ∈ (DataScope.of data).keys ↔ k ∈ data.rows := by
    intro k
    rw [or_self, mem_keys_of]
  refine ext_getElem? fun k => ?_
  cases hrow : data.rows[k]? with
  | some row => exact h.rowsAs_map hkeys hrow
  | none =>
    rw [getElem?_map, Option.map_eq_none_iff, Option.eq_none_iff_forall_ne_some]
    intro r hr
    obtain ⟨c, hc, hkey⟩ := (ObservedTable.rowsAs_eq_some h.fixed).1 hr
    obtain ⟨k', hk', rfl⟩ := honly c (mem_of_getElem?_eq hc)
    rw [h.rowKey_eq hkeys hk'] at hkey
    rw [hkey, mem_iff_exists, hrow] at hk'
    obtain ⟨_, hnone⟩ := hk'
    cases hnone

theorem project_ensure : ExtTreeMap.ofList ((DataScope.of data).keys.toList.filterMap fun k =>
    (observed.row k).map fun r => (k, r.2.asSeenBy data.rows[k]?)) = data.rows := by
  refine ext_getElem? fun k => Option.ext fun row => ?_
  rw [getElem?_ofList_eq_some (nodup_ensure (fun k r => r.asSeenBy data.rows[k]?) _), List.mem_filterMap]
  constructor
  · rintro ⟨k', hk', hseen⟩
    rw [mem_toList, mem_keys_of, mem_iff_exists] at hk'
    obtain ⟨row', hrow⟩ := hk'
    obtain ⟨_, hnamed, heq⟩ := map_eq_some_iff.1 hseen
    obtain ⟨r, hr, rfl⟩ := map_eq_some_iff.1 hnamed
    obtain ⟨rfl, rfl⟩ := Prod.mk.inj heq
    rw [hrow, h.asSeenBy_row hrow hr]
  · intro hrow
    have hk := mem_of_getElem?_eq hrow
    obtain ⟨r, hr⟩ := mem_iff_exists.1 (h.names k hk)
    refine ⟨k, mem_toList.2 (mem_keys_of.2 hk), ?_⟩
    rw [ObservedTable.row, hr, map_some, map_some, hrow, h.asSeenBy_row hrow hr]

theorem project_eq (honly : data.mode = .exact → ∀ c ∈ observed.rows, ∃ k ∈ data.rows, observed.aliases.getD k k = c) :
    (DataScope.of data).project observed (some data) = data := by
  obtain ⟨mode, rows⟩ := data
  cases mode with
  | exact => exact congrArg (TableData.mk .exact) (h.project_exact (honly rfl))
  | ensure => exact congrArg (TableData.mk .ensure) h.project_ensure

/-- Under a wider scope too, each declared row is there as it is declared, where its key was asked for. -/
theorem project_union (hasked : ∀ k ∈ data.rows, k ∈ observed.aliases) {scope : DataScope}
    (hscope : ∀ k ∈ data.rows, k ∈ scope.keys) (hrow : data.rows[k]? = some row) :
    (scope.project observed (some data)).rows[k]? = some row := by
  have hk := mem_of_getElem?_eq hrow
  obtain ⟨r, hr⟩ := mem_iff_exists.1 (h.names k hk)
  rw [DataScope.project]
  cases scope.mode with
  | exact =>
    obtain ⟨canonical, halias⟩ := mem_iff_exists.1 (hasked k hk)
    have hnamed : observed.aliases.getD k k = canonical := by rw [getD_eq_getD_getElem?, halias, getD_some]
    have hkey : observed.rowKey scope.keys (DataScope.of data).keys canonical = k := by
      obtain ⟨hmem, halias'⟩ := ObservedTable.rowKey_of_prefer scope.keys (mem_keys_of.2 hk) halias
      refine h.distinct _ (mem_keys_of.1 hmem) k hk ?_
      rw [hnamed, getD_eq_getD_getElem?, halias', getD_some]
    have hfiled := (ObservedTable.rowsAs_eq_some h.fixed).2 ⟨canonical, hnamed ▸ hr, hkey⟩
    dsimp only [map_some, getD_some, Option.bind_some]
    rw [getElem?_map, hfiled, map_some, hrow, h.asSeenBy_row hrow hr]
  | ensure =>
    have hfiled : (k, row) ∈ scope.keys.toList.filterMap fun k =>
        (observed.row k).map fun r => (k, r.2.asSeenBy (data.rows[k]?)) := by
      refine List.mem_filterMap.2 ⟨k, mem_toList.2 (hscope k hk), ?_⟩
      rw [ObservedTable.row, hr, map_some, map_some, hrow, h.asSeenBy_row hrow hr]
    exact (getElem?_ofList_eq_some (nodup_ensure (fun k r => r.asSeenBy data.rows[k]?) _)).2 hfiled

end ReadsBack

theorem ObservedTable.conflictFrom_eq_none {t : ObservedTable} : ∀ {keys : List RowKey} {seen : ExtTreeMap RowKey RowKey},
    t.conflictFrom seen keys = none ↔
      (keys.filterMap (t.aliases[·]?)).Nodup ∧ ∀ c ∈ keys.filterMap (t.aliases[·]?), seen[c]? = none
  | [], _ => by simp [conflictFrom]
  | key :: rest, seen => by
    rw [conflictFrom]
    cases halias : t.aliases[key]? with
    | none =>
      rw [List.filterMap_cons_none halias]
      exact conflictFrom_eq_none
    | some c =>
      rw [List.filterMap_cons_some halias, List.nodup_cons, List.forall_mem_cons]
      dsimp only
      cases hseen : seen[c]? with
      | some first => simp
      | none =>
        have hinsert : ∀ d, (seen.insert c key)[d]? = none ↔ d ≠ c ∧ seen[d]? = none := by
          intro d
          simp only [getElem?_insert, Std.LawfulEqOrd.compare_eq_iff_eq]
          by_cases h : c = d <;> simp [h, eq_comm]
        dsimp only
        rw [conflictFrom_eq_none]
        simp only [hinsert]
        constructor
        · exact fun h => ⟨⟨fun hc => (h.2 c hc).1 rfl, h.1⟩, trivial, fun d hd => (h.2 d hd).2⟩
        · exact fun h => ⟨h.1.2, fun d hd => ⟨fun heq => h.1.1 (heq ▸ hd), h.2.2 d hd⟩⟩

/-- Rows are refused exactly where two of a side's keys name one of them; those that read back as declared come back so under
the side's own scope; and under any scope that has the side's keys, each declared row comes back as declared under its own key, which
the read was asked for, whatever other keys of the scope name it. -/
theorem withObservedRows_spec (scope : DataScope) (observed : ObservedTable) :
    (∀ own, (∃ conflict, withObservedRows scope observed own = .error conflict) ↔
      ¬ (((own.map DataScope.of).getD scope).keys.toList.filterMap (observed.aliases[·]?)).Nodup) ∧
    ∀ data, ReadsBack data observed →
      ((data.mode = .exact → ∀ c ∈ observed.rows, ∃ k ∈ data.rows, observed.aliases.getD k k = c) →
        withObservedRows (DataScope.of data) observed (some data) = .ok data) ∧
      ((∀ k ∈ data.rows, k ∈ scope.keys) → (∀ k ∈ data.rows, k ∈ observed.aliases) →
        ∃ t, withObservedRows scope observed (some data) = .ok t ∧ t.mode = scope.mode ∧
          ∀ (k : RowKey) (row : Row), data.rows[k]? = some row → t.rows[k]? = some row) := by
  have hnone : ∀ {keys}, observed.conflict keys = none ↔ (keys.toList.filterMap (observed.aliases[·]?)).Nodup :=
    ObservedTable.conflictFrom_eq_none.trans (and_iff_left fun _ _ => getElem?_empty)
  constructor
  · intro own
    rw [← hnone, withObservedRows]
    cases observed.conflict ((own.map DataScope.of).getD scope).keys <;> simp
  intro data h
  have hagree : observed.conflict (DataScope.of data).keys = none := by
    refine hnone.2 (List.pairwise_filterMap.2 (distinct_toList.imp_of_mem ?_))
    rintro k k' hk hk' hne c hc _ hc' rfl
    refine hne (Std.LawfulEqOrd.compare_eq_iff_eq.2 (h.distinct k ?_ k' ?_ ?_))
    · exact mem_keys_of.1 (mem_toList.1 hk)
    · exact mem_keys_of.1 (mem_toList.1 hk')
    · rw [getD_eq_getD_getElem?, getD_eq_getD_getElem?, hc, hc', getD_some, getD_some]
  constructor
  · intro honly
    rw [withObservedRows, map_some, getD_some, hagree, h.project_eq honly]
  · intro hscope hasked
    refine ⟨scope.project observed (some data), ?_, rfl, fun k row hrow => h.project_union hasked hscope hrow⟩
    rw [withObservedRows, map_some, getD_some, hagree]

/-- Rows read back as declared are no difference, in `ensure` mode whatever other rows there are and in `exact` mode where
there are no others; and in `exact` mode every row read is there, each under a key of its own. -/
theorem project_reads_back : (∀ (data : TableData) (observed : ObservedTable), ReadsBack data observed →
      (data.mode = .exact → ∀ c ∈ observed.rows, ∃ k ∈ data.rows, observed.aliases.getD k k = c) →
        (DataScope.of data).project observed (some data) = data) ∧
    ∀ (scope : DataScope) (observed : ObservedTable) (reference : Option TableData), scope.mode = .exact → observed.Fixed →
      ∃ key : RowKey → RowKey, (∀ c ∈ observed.rows, ∀ c' ∈ observed.rows, key c = key c' → c = c') ∧
        ∀ (k : RowKey) (row : Row), (scope.project observed reference).rows[k]? = some row ↔
          ∃ (c : RowKey) (r : ObservedRow), observed.rows[c]? = some r ∧ key c = k ∧ row = r.asSeenBy (reference.bind fun data => data.rows[k]?) := by
  refine ⟨fun data observed h honly => h.project_eq honly, fun scope observed reference hmode hfixed => ?_⟩
  refine ⟨observed.rowKey scope.keys ((reference.map fun data => (DataScope.of data).keys).getD ∅), ?_, fun k row => ?_⟩
  · exact fun c hc c' hc' heq => ObservedTable.rowKey_injective hfixed hc hc' heq
  · rw [DataScope.project, hmode]
    dsimp only
    rw [getElem?_map, map_eq_some_iff]
    constructor
    · rintro ⟨r, hr, rfl⟩
      obtain ⟨c, hc, hkey⟩ := (ObservedTable.rowsAs_eq_some hfixed).1 hr
      exact ⟨c, r, hc, hkey, rfl⟩
    · rintro ⟨c, r, hc, hkey, rfl⟩
      exact ⟨r, (ObservedTable.rowsAs_eq_some hfixed).2 ⟨c, hc, hkey⟩, rfl⟩

/-! ## A key the engine spells otherwise -/

namespace Spelt

def labelled : Row := (∅ : Row).insert "label" (.text "first")

def declared : TableData where
  mode := .exact
  rows := (∅ : ExtTreeMap RowKey Row).insert "01" labelled

/-- The engine spells the key `1`, and a column the declaration leaves out is at its default. -/
def read : ObservedTable where
  rows := (∅ : ExtTreeMap RowKey ObservedRow).insert "1"
    { cells := labelled.insert "rank" (.int 0), atDefault := (∅ : ExtTreeSet ColumnName).insert "rank" }
  aliases := (∅ : ExtTreeMap RowKey RowKey).insert "01" "1"

theorem mem_declared {k : RowKey} (h : k ∈ declared.rows) : k = "01" := by
  rcases mem_insert.1 h with heq | h
  · exact (Std.LawfulEqOrd.eq_of_compare heq).symm
  · exact absurd h not_mem_empty

theorem mem_read {c : RowKey} (h : c ∈ read.rows) : c = "1" := by
  rcases mem_insert.1 h with heq | h
  · exact (Std.LawfulEqOrd.eq_of_compare heq).symm
  · exact absurd h not_mem_empty

theorem rows_at {k : RowKey} {row : Row} {r : ObservedRow} (hrow : declared.rows[k]? = some row)
    (hr : read.rows[read.aliases.getD k k]? = some r) : k = "01" ∧ row = labelled ∧
      r = { cells := labelled.insert "rank" (.int 0), atDefault := (∅ : ExtTreeSet ColumnName).insert "rank" } := by
  obtain rfl := mem_declared (mem_of_getElem?_eq hrow)
  simp only [declared, getElem?_insert_self, Option.some.injEq] at hrow
  simp [read] at hr
  exact ⟨rfl, hrow.symm, hr.symm⟩

theorem readsBack : ReadsBack declared read where
  fixed k hk canonical halias := by
    obtain rfl := mem_read hk
    have hnone : read.aliases["1"]? = none := by decide
    rw [hnone] at halias
    cases halias
  names k hk := by
    obtain rfl := mem_declared hk
    decide
  distinct k hk k' hk' _ := (mem_declared hk).trans (mem_declared hk').symm
  spelled k row r hrow hr column value hvalue := by
    obtain ⟨rfl, rfl, rfl⟩ := rows_at hrow hr
    have hne : column ≠ "rank" := by
      rintro rfl
      have hnone : labelled["rank"]? = none := by decide
      rw [hnone] at hvalue
      cases hvalue
    rw [getElem?_insert_of_ne hne]
    exact hvalue
  omitted k row r hrow hr column hcolumn hnot := by
    obtain ⟨rfl, rfl, rfl⟩ := rows_at hrow hr
    rcases mem_insert.1 hcolumn with heq | hmem
    · exact .inl (ExtTreeSet.mem_insert.2 (.inl heq))
    · exact absurd hmem hnot

/-- Beside a recorded side that has the engine's key, the row is still the declared one's. -/
theorem withObservedRows_spec_spelt : withObservedRows (DataScope.of declared) read (some declared) = .ok declared ∧
    ∃ t, withObservedRows { mode := .exact, keys := .ofList ["01", "1"] } read (some declared) = .ok t ∧ t.mode = .exact ∧
      ∀ (k : RowKey) (row : Row), declared.rows[k]? = some row → t.rows[k]? = some row := by
  refine ⟨((withObservedRows_spec (DataScope.of declared) read).2 declared readsBack).1 fun _ c hc => ⟨"01", by decide, ?_⟩,
    ((withObservedRows_spec _ read).2 declared readsBack).2 (fun k hk => ?_) fun k hk => ?_⟩
  · obtain rfl := mem_read hc
    decide
  · rw [mem_declared hk]
    decide
  · rw [mem_declared hk]
    decide

theorem project_reads_back_spelt : (DataScope.of declared).project read (some declared) = declared := by
  refine project_reads_back.1 declared read readsBack fun _ c hc => ⟨"01", by decide, ?_⟩
  obtain rfl := mem_read hc
  decide

end Spelt

end Pbps.Rows
