/-
`IdsFile::without` and its siblings for roles and types: the mapping that a state records for a database that lacks some
of the objects. A valid file stays valid, and loses nothing but what belongs to the objects named.
-/
import Mathlib.Data.List.Flatten
import Pbps.Identity.Guarantees

namespace Pbps

open Std (ExtTreeMap)
open Bool (and_eq_true or_eq_false_iff or_eq_true)
open Std.ExtTreeMap

namespace IdsFile

def without (ids : IdsFile) (tables : List TableName) : IdsFile :=
  let live := ids.tables.filter fun _ name => !decide (name ∈ tables)
  let columns := ids.columns.filter fun _ column => !decide (column.table ∈ tables)
  { ids with
    tables := live
    columns := columns
    moves := ids.moves.filter fun uid _ => live.contains uid
    conversions := ids.conversions.filter fun uid _ => columns.contains uid
    -- a lineage whose replacement parts were removed is no longer whole
    rebuilds := ids.rebuilds.filter fun _ rebuild =>
      (rebuild.replacement.tables.keys.all fun uid => live.contains uid || ids.tombstones.contains uid) &&
        rebuild.replacement.columns.keys.all fun uid => columns.contains uid || ids.tombstones.contains uid }

def withoutRoles (ids : IdsFile) (roles : List RoleName) : IdsFile :=
  { ids with roles := ids.roles.filter fun _ name => !decide (name ∈ roles) }

def withoutTypes (ids : IdsFile) (types : List TypeRef) : IdsFile :=
  { ids with types := ids.types.filter fun _ name => !decide (name ∈ types) }

/-- An identity of one of the tables, or of a column of one. -/
def Removed (ids : IdsFile) (tables : List TableName) (uid : Uid) : Prop :=
  (∃ name ∈ tables, ids.tables[uid]? = some name) ∨ ∃ column, ids.columns[uid]? = some column ∧ column.table ∈ tables

end IdsFile

section Sections

variable {N : Type} {m : ExtTreeMap Uid N}

variable {u : Uid} {p : Uid → N → Bool}

theorem getElem?_notGone [DecidableEq N] {gone : List N} {n : N} :
    (m.filter fun _ name => !decide (name ∈ gone))[u]? = some n ↔ m[u]? = some n ∧ n ∉ gone := by
  rw [getElem?_filter_eq_some, Bool.not_eq_true', decide_eq_false_iff_not]

theorem SpelledOnce.filter {raw : N → String} (h : SpelledOnce raw m) : SpelledOnce raw (m.filter p) := by
  intro u v a b hu hv hab
  exact h u v a b (getElem?_filter_eq_some.1 hu).1 (getElem?_filter_eq_some.1 hv).1 hab

theorem mem_of_mem_filter (h : u ∈ m.filter p) : u ∈ m := by
  obtain ⟨n, hn⟩ := mem_iff_exists.1 h
  exact mem_of_getElem?_eq (getElem?_filter_eq_some.1 hn).1

theorem contains_filter_eq_false (h : m.contains u = false) : (m.filter p).contains u = false := by
  rw [← Bool.not_eq_true, contains_iff_mem] at h ⊢
  exact fun hu => h (mem_of_mem_filter hu)

variable {q : Uid → N → Bool}

theorem filter_filter : (m.filter p).filter q = m.filter fun u n => p u n && q u n := by
  refine ext_getElem? fun u => Option.ext fun n => ?_
  simp only [getElem?_filter_eq_some, and_eq_true, and_assoc]

theorem contains_of_filter_and (h : (m.filter fun u n => p u n && q u n).contains u = true) : (m.filter p).contains u = true :=
  contains_of_contains_filter (filter_filter ▸ h)

theorem live_of_filter_and {d : Uid → Bool} (u : Uid) (h : ((m.filter fun u n => p u n && q u n).contains u || d u) = true) :
    ((m.filter p).contains u || d u) = true := by
  rw [or_eq_true] at h ⊢
  exact h.imp_left contains_of_filter_and

end Sections

namespace IdsFile

variable {ids : IdsFile} {gone : List TableName} {u : Uid}

theorem tables_without {n : TableName} :
    (ids.without gone).tables[u]? = some n ↔ ids.tables[u]? = some n ∧ n ∉ gone := getElem?_notGone

theorem columns_without {c : ColumnRef} :
    (ids.without gone).columns[u]? = some c ↔ ids.columns[u]? = some c ∧ c.table ∉ gone := by
  show (ids.columns.filter _)[u]? = some c ↔ _
  rw [getElem?_filter_eq_some, Bool.not_eq_true', decide_eq_false_iff_not]

/-! ### What is removed with a table -/

theorem without_append {tables : List TableName} : (ids.without gone).without tables = ids.without (gone ++ tables) := by
  simp only [without, filter_filter, List.mem_append, Bool.decide_or, Bool.not_or,
    Bool.and_eq_right_iff_imp.2 contains_of_filter_and]
  congr 2
  funext u r
  simp only [Bool.and_eq_right_iff_imp, and_eq_true, List.all_eq_true]
  exact fun h => ⟨fun u hu => live_of_filter_and u (h.1 u hu), fun u hu => live_of_filter_and u (h.2 u hu)⟩

/-- Scoping by two lists is scoping by both at once, in whatever order, and scoping again changes nothing. -/
theorem without_without (ids : IdsFile) (gone tables : List TableName) :
    (ids.without gone).without tables = ids.without (gone ++ tables) ∧
      (ids.without tables).without gone = (ids.without gone).without tables ∧ (ids.without gone).without gone = ids.without gone := by
  refine ⟨without_append, ?_, ?_⟩
  · rw [without_append, without_append]
    simp only [without, List.mem_append, or_comm]
  · rw [without_append]
    simp only [without, List.mem_append, or_self]

variable (hv : Valid ids)

include hv

theorem mem_tables_without : u ∈ (ids.without gone).tables ↔ u ∈ ids.tables ∧ ¬ ids.Removed gone u := by
  rw [mem_iff_exists, mem_iff_exists]
  constructor
  · rintro ⟨n, hn⟩
    obtain ⟨hn, hkept⟩ := tables_without.1 hn
    refine ⟨⟨n, hn⟩, ?_⟩
    rintro (⟨n', hgone, hn'⟩ | ⟨c, hc, -⟩)
    · rw [hn] at hn'; cases hn'
      exact hkept hgone
    · have htable := hv.kinds.tables u (mem_of_getElem?_eq hn)
      rw [hv.kinds.columns u (mem_of_getElem?_eq hc)] at htable
      cases htable
  · rintro ⟨⟨n, hn⟩, hkept⟩
    exact ⟨n, tables_without.2 ⟨hn, fun hgone => hkept (.inl ⟨n, hgone, hn⟩)⟩⟩

theorem mem_columns_without : u ∈ (ids.without gone).columns ↔ u ∈ ids.columns ∧ ¬ ids.Removed gone u := by
  rw [mem_iff_exists, mem_iff_exists]
  constructor
  · rintro ⟨c, hc⟩
    obtain ⟨hc, hkept⟩ := columns_without.1 hc
    refine ⟨⟨c, hc⟩, ?_⟩
    rintro (⟨n, -, hn⟩ | ⟨c', hc', hgone⟩)
    · have htable := hv.kinds.tables u (mem_of_getElem?_eq hn)
      rw [hv.kinds.columns u (mem_of_getElem?_eq hc)] at htable
      cases htable
    · rw [hc] at hc'; cases hc'
      exact hkept hgone
  · rintro ⟨⟨c, hc⟩, hkept⟩
    exact ⟨c, columns_without.2 ⟨hc, fun hgone => hkept (.inr ⟨c, hc, hgone⟩)⟩⟩

theorem not_removed_of_tombstone (h : u ∈ ids.tombstones) : ¬ ids.Removed gone u := by
  have hdead := hv.apart u h
  simp only [isLive, or_eq_false_iff] at hdead
  rintro (⟨n, -, hn⟩ | ⟨c, hc, -⟩)
  · have hlive := contains_iff_exists.2 ⟨n, hn⟩
    rw [hdead.1.1.1.1] at hlive; cases hlive
  · have hlive := contains_iff_exists.2 ⟨c, hc⟩
    rw [hdead.1.1.1.2] at hlive; cases hlive

theorem moves_without {m : Move} : (ids.without gone).moves[u]? = some m ↔ ids.moves[u]? = some m ∧ ¬ ids.Removed gone u := by
  show (ids.moves.filter fun uid _ => (ids.without gone).tables.contains uid)[u]? = some m ↔ _
  rw [getElem?_filter_eq_some, contains_iff_mem, mem_tables_without hv]
  constructor
  · rintro ⟨hm, -, hkept⟩
    exact ⟨hm, hkept⟩
  · rintro ⟨hm, hkept⟩
    exact ⟨hm, hv.moves u (mem_of_getElem?_eq hm), hkept⟩

theorem conversions_without {c : Conversion} :
    (ids.without gone).conversions[u]? = some c ↔ ids.conversions[u]? = some c ∧ ¬ ids.Removed gone u := by
  show (ids.conversions.filter fun uid _ => (ids.without gone).columns.contains uid)[u]? = some c ↔ _
  rw [getElem?_filter_eq_some, contains_iff_mem, mem_columns_without hv]
  constructor
  · rintro ⟨hc, -, hkept⟩
    exact ⟨hc, hkept⟩
  · rintro ⟨hc, hkept⟩
    exact ⟨hc, (hv.conversions u c hc).1, hkept⟩

variable {r : Rebuild}

theorem target_held (hr : ids.rebuilds[u]? = some r) {t : Uid} :
    (t ∈ r.replacement.tables → t ∈ ids.tables ∨ t ∈ ids.tombstones) ∧
      (t ∈ r.replacement.columns → t ∈ ids.columns ∨ t ∈ ids.tombstones) := by
  have h := hv.rebuilds u r hr
  simp only [rebuildInvalid, or_eq_false_iff, List.any_eq_false, Bool.not_eq_true', not_or, bne_eq_false_iff_eq,
    or_eq_true, Bool.not_eq_false] at h
  obtain ⟨⟨⟨⟨⟨⟨-, hreplacement⟩, -⟩, -⟩, -⟩, -⟩, hheld⟩ := h
  have hkinds := (validateSections_eq_ok.1 hreplacement).2.1
  constructor
  · intro ht
    have hmem : t ∈ r.targets := List.mem_append_left _ (mem_keys.2 ht)
    have hkind := hkinds.tables t ht
    have := (hheld t hmem).1.1
    simp only [held, or_eq_true, contains_iff_mem] at this
    rcases this with (htable | hcolumn) | hdead
    · exact .inl htable
    · rw [hv.kinds.columns t hcolumn] at hkind; cases hkind
    · exact .inr hdead
  · intro ht
    have hmem : t ∈ r.targets := List.mem_append_right _ (mem_keys.2 ht)
    have hkind := hkinds.columns t ht
    have := (hheld t hmem).1.1
    simp only [held, or_eq_true, contains_iff_mem] at this
    rcases this with (htable | hcolumn) | hdead
    · rw [hv.kinds.tables t htable] at hkind; cases hkind
    · exact .inl hcolumn
    · exact .inr hdead

theorem rebuilds_without :
    (ids.without gone).rebuilds[u]? = some r ↔ ids.rebuilds[u]? = some r ∧ ∀ t ∈ r.targets, ¬ ids.Removed gone t := by
  show (ids.rebuilds.filter fun _ rebuild =>
    (rebuild.replacement.tables.keys.all fun uid =>
        (ids.without gone).tables.contains uid || ids.tombstones.contains uid) &&
      rebuild.replacement.columns.keys.all fun uid =>
        (ids.without gone).columns.contains uid || ids.tombstones.contains uid)[u]? = some r ↔ _
  rw [getElem?_filter_eq_some]
  refine and_congr_right fun hr => ?_
  simp only [and_eq_true, List.all_eq_true, or_eq_true, contains_iff_mem, mem_keys,
    mem_tables_without hv, mem_columns_without hv]
  constructor
  · rintro ⟨htables, hcolumns⟩ t ht
    rcases List.mem_append.1 ht with ht | ht
    · rcases htables t (mem_keys.1 ht) with ⟨-, hkept⟩ | hdead
      · exact hkept
      · exact not_removed_of_tombstone hv hdead
    · rcases hcolumns t (mem_keys.1 ht) with ⟨-, hkept⟩ | hdead
      · exact hkept
      · exact not_removed_of_tombstone hv hdead
  · intro hkept
    constructor
    · intro t ht
      have hnot := hkept t (List.mem_append_left _ (mem_keys.2 ht))
      exact ((target_held hv hr).1 ht).imp_left fun h => ⟨h, hnot⟩
    · intro t ht
      have hnot := hkept t (List.mem_append_right _ (mem_keys.2 ht))
      exact ((target_held hv hr).2 ht).imp_left fun h => ⟨h, hnot⟩

/-! ### What is left is valid -/

theorem rebuildInvalid_without (hr : (ids.without gone).rebuilds[u]? = some r) :
    (ids.without gone).rebuildInvalid u r = false := by
  obtain ⟨hr, hkept⟩ := (rebuilds_without hv).1 hr
  have hheld : ∀ t ∈ r.targets, (ids.without gone).held t = true := by
    intro t ht
    have hnot := hkept t ht
    simp only [held, or_eq_true, contains_iff_mem, mem_tables_without hv, mem_columns_without hv]
    rcases List.mem_append.1 ht with ht | ht
    · rcases (target_held hv hr).1 (mem_keys.1 ht) with htable | hdead
      · exact .inl (.inl ⟨htable, hnot⟩)
      · exact .inr hdead
    · rcases (target_held hv hr).2 (mem_keys.1 ht) with hcolumn | hdead
      · exact .inl (.inr ⟨hcolumn, hnot⟩)
      · exact .inr hdead
  have h := hv.rebuilds u r hr
  rw [rebuildInvalid, or_eq_false_iff] at h ⊢
  refine ⟨h.1, ?_⟩
  rw [List.any_eq_false] at h ⊢
  intro t ht
  have hbefore := h.2 t ht
  rw [hheld t ht]
  simp only [or_eq_true, not_or] at hbefore ⊢
  exact ⟨⟨by simp, hbefore.1.2⟩, hbefore.2⟩

theorem valid_without : Valid (ids.without gone) := by
  constructor
  case version => exact hv.version
  case kinds =>
    exact ⟨fun u hu => hv.kinds.tables u (mem_of_mem_filter hu), fun u hu => hv.kinds.columns u (mem_of_mem_filter hu),
      hv.kinds.roles, hv.kinds.types, hv.kinds.extensions⟩
  case requires => exact hv.requires
  case apart =>
    intro u hdead
    have hlive := hv.apart u hdead
    simp only [isLive, or_eq_false_iff] at hlive ⊢
    obtain ⟨⟨⟨⟨htables, hcolumns⟩, hroles⟩, htypes⟩, hextensions⟩ := hlive
    exact ⟨⟨⟨⟨contains_filter_eq_false htables, contains_filter_eq_false hcolumns⟩, hroles⟩, htypes⟩, hextensions⟩
  case tables => exact hv.tables.filter
  case columns => exact hv.columns.filter
  case roles => exact hv.roles
  case types => exact hv.types
  case extensions => exact hv.extensions
  case parents =>
    intro u c hc
    obtain ⟨hc, hkept⟩ := columns_without.1 hc
    obtain ⟨v, hparent⟩ := hv.parents u c hc
    exact ⟨v, tables_without.2 ⟨hparent, hkept⟩⟩
  case moves =>
    intro u hu
    obtain ⟨m, hm⟩ := mem_iff_exists.1 hu
    obtain ⟨hm, hkept⟩ := (moves_without hv).1 hm
    exact (mem_tables_without hv).2 ⟨hv.moves u (mem_of_getElem?_eq hm), hkept⟩
  case conversions =>
    intro u c hc
    obtain ⟨hc, hkept⟩ := (conversions_without hv).1 hc
    obtain ⟨hcolumn, hsays⟩ := hv.conversions u c hc
    exact ⟨(mem_columns_without hv).2 ⟨hcolumn, hkept⟩, hsays⟩
  case rebuilds => exact fun u r => rebuildInvalid_without hv
  case reserved =>
    have hsub : (ids.without gone).rebuilds.toList.Sublist ids.rebuilds.toList := by
      show (ids.rebuilds.filter _).toList.Sublist _
      rw [toList_filter]
      exact List.filter_sublist
    exact (hsub.flatMap _).nodup hv.reserved

theorem valid_withoutRoles {roles : List RoleName} : Valid (ids.withoutRoles roles) := by
  refine { hv with kinds := ?_, apart := ?_, roles := hv.roles.filter, rebuilds := hv.rebuilds }
  · exact { hv.kinds with roles := fun u hu => hv.kinds.roles u (mem_of_mem_filter hu) }
  · intro u hdead
    have hlive := hv.apart u hdead
    simp only [isLive, or_eq_false_iff] at hlive ⊢
    exact ⟨⟨⟨hlive.1.1.1, contains_filter_eq_false hlive.1.1.2⟩, hlive.1.2⟩, hlive.2⟩

theorem valid_withoutTypes {types : List TypeRef} : Valid (ids.withoutTypes types) := by
  refine { hv with kinds := ?_, apart := ?_, types := hv.types.filter, rebuilds := hv.rebuilds }
  · exact { hv.kinds with types := fun u hu => hv.kinds.types u (mem_of_mem_filter hu) }
  · intro u hdead
    have hlive := hv.apart u hdead
    simp only [isLive, or_eq_false_iff] at hlive ⊢
    exact ⟨⟨hlive.1.1, contains_filter_eq_false hlive.1.2⟩, hlive.2⟩

omit hv in
/-- A mapping without some of its tables, roles or types is a valid mapping that holds exactly its other objects, and
nothing else in it changed than what belongs to the removed ones. -/
theorem scoped_file_stays_valid (ids : IdsFile) (h : ids.validate = .ok ()) (tables : List TableName)
    (roles : List RoleName) (types : List TypeRef) :
    ((ids.without tables).validate = .ok () ∧
      (∀ (u : Uid) n, (ids.without tables).tables[u]? = some n ↔ ids.tables[u]? = some n ∧ n ∉ tables) ∧
      (∀ (u : Uid) c, (ids.without tables).columns[u]? = some c ↔ ids.columns[u]? = some c ∧ c.table ∉ tables) ∧
      (∀ (u : Uid) m, (ids.without tables).moves[u]? = some m ↔ ids.moves[u]? = some m ∧ ¬ ids.Removed tables u) ∧
      (∀ (u : Uid) c, (ids.without tables).conversions[u]? = some c ↔
        ids.conversions[u]? = some c ∧ ¬ ids.Removed tables u) ∧
      (∀ (u : Uid) r, (ids.without tables).rebuilds[u]? = some r ↔
        ids.rebuilds[u]? = some r ∧ ∀ t ∈ r.targets, ¬ ids.Removed tables t) ∧
      { ids.without tables with
        tables := ids.tables, columns := ids.columns, moves := ids.moves, conversions := ids.conversions
        rebuilds := ids.rebuilds } = ids) ∧
    ((ids.withoutRoles roles).validate = .ok () ∧
      (∀ (u : Uid) n, (ids.withoutRoles roles).roles[u]? = some n ↔ ids.roles[u]? = some n ∧ n ∉ roles) ∧
      { ids.withoutRoles roles with roles := ids.roles } = ids) ∧
    ((ids.withoutTypes types).validate = .ok () ∧
      (∀ (u : Uid) n, (ids.withoutTypes types).types[u]? = some n ↔ ids.types[u]? = some n ∧ n ∉ types) ∧
      { ids.withoutTypes types with types := ids.types } = ids) := by
  have hv : Valid ids := validate_eq_ok.1 h
  refine ⟨⟨validate_eq_ok.2 (valid_without hv), fun u n => tables_without, fun u c => columns_without,
    fun u m => moves_without hv, fun u c => conversions_without hv, fun u r => rebuilds_without hv, rfl⟩,
    ⟨validate_eq_ok.2 (valid_withoutRoles hv), fun u n => getElem?_notGone, rfl⟩,
    validate_eq_ok.2 (valid_withoutTypes hv), fun u n => getElem?_notGone, rfl⟩

omit hv in
/-- The record of a rebuilt table goes with it, and the table beside it stays. -/
theorem scoped_file_stays_valid_rebuilt : (Identity.rebuiltIds.without [Identity.rebuiltTable]).validate = .ok () ∧
    (Identity.rebuiltIds.without [Identity.rebuiltTable]).rebuilds[(⟨"t_old"⟩ : Uid)]? = none ∧
    (Identity.rebuiltIds.without [Identity.rebuiltTable]).tables[(⟨"t_all"⟩ : Uid)]? = some Identity.partitionedTable := by
  obtain ⟨⟨hvalid, htables, -, -, -, hrebuilds, -⟩, -⟩ := scoped_file_stays_valid Identity.rebuiltIds Identity.rebuiltIds_valid [Identity.rebuiltTable] [] []
  refine ⟨hvalid, ?_, (htables _ _).2 ⟨by decide, by decide⟩⟩
  rw [Option.eq_none_iff_forall_ne_some]
  intro r hr
  obtain ⟨hr, hkept⟩ := (hrebuilds _ r).1 hr
  have hrecord : r = Identity.rebuildRecord := by
    have : Identity.rebuiltIds.rebuilds[(⟨"t_old"⟩ : Uid)]? = some Identity.rebuildRecord := by decide
    rw [this] at hr
    exact (Option.some.inj hr).symm
  subst hrecord
  exact hkept ⟨"t_new"⟩ (by decide) (.inl ⟨Identity.rebuiltTable, by simp, by decide⟩)

end IdsFile

end Pbps
