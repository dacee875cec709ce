/-
The identity tree round-trips unless a live table is placed twice. What `split` writes holds the mapping's entries and
those of the tables placed twice once more; `assemble` refuses the second claim of a uid, so it gives the mapping back
exactly if there is no such table.
-/
import Mathlib.Algebra.Order.Group.Multiset
import Mathlib.Tactic.Abel
import Pbps.Tree.Scatter

namespace Pbps.Tree

open Std (ExtTreeMap)
open List Option Except Std.ExtTreeMap

/-! ## The records collected -/

/-- The loops of `collectRecords`, each with its results. -/
structure Collects (ids : IdsFile) (p : Placement) (files : ExtTreeMap Uid TreeFile) (r : Records) (columns : List (Owned Rec))
    (tombs : List Kept) (parts : List (Option (Owned Rec))) : Prop where
  live : Forall₂ (fun e o => placeColumn ids files e = .ok o) ids.columns.toList columns
  kept : Forall₂ (fun e o => keepTombstone ids p files e = .ok o) ids.tombstones.toList tombs
  children : Forall₂ (fun e o => placeChild ids files e = .ok o) p.children.toList parts
  moves : Forall₂ (fun e o => placeMove p e = .ok o) ids.moves.toList r.moves
  conversions : Forall₂ (fun e o => placeConversion ids e = .ok o) ids.conversions.toList r.conversions
  rebuilds : Forall₂ (fun e o => placeRebuild files e = .ok o) ids.rebuilds.toList r.rebuilds
  columns_eq : r.columns = columns ++ tombs.filterMap Kept.column?
  partitions_eq : r.partitions = tombs.filterMap Kept.partition? ++ parts.filterMap id

section

variable {ids : IdsFile} {p : Placement}

theorem collects_of_collectRecords {files : ExtTreeMap Uid TreeFile} {r : Records} (h : collectRecords ids p files = .ok r) :
    ∃ live kept children, Collects ids p files r live kept children := by
  rw [collectRecords, bind_eq_ok_iff] at h
  obtain ⟨live, hlive, h⟩ := h
  obtain ⟨kept, hkept, h⟩ := bind_eq_ok_iff.1 h
  obtain ⟨children, hchildren, h⟩ := bind_eq_ok_iff.1 h
  obtain ⟨moves, hmoves, h⟩ := bind_eq_ok_iff.1 h
  obtain ⟨conversions, hconversions, h⟩ := bind_eq_ok_iff.1 h
  obtain ⟨rebuilds, hrebuilds, h⟩ := bind_eq_ok_iff.1 h
  cases h
  exact ⟨live, kept, children, mapM_eq_ok.1 hlive, mapM_eq_ok.1 hkept, mapM_eq_ok.1 hchildren,
    mapM_eq_ok.1 hmoves, mapM_eq_ok.1 hconversions, mapM_eq_ok.1 hrebuilds, rfl, rfl⟩

section Steps

variable {ids : IdsFile} {p : Placement} {files : ExtTreeMap Uid TreeFile}

theorem table_of_liveByName {name : TableName} {u : Uid} (h : (liveByName ids)[name]? = some u) : ids.tables[u]? = some name := by
  have hmem := mem_of_getElem?_ofList h
  rw [List.mem_map] at hmem
  obtain ⟨e, he, heq⟩ := hmem
  cases heq
  exact mem_toList_iff_getElem?_eq_some.1 he

theorem placeColumn_eq_ok {e : Uid × ColumnRef} {o : Owned Rec} (h : placeColumn ids files e = .ok o) :
    ids.tables[o.owner]? = some e.2.table ∧ Houses files o.owner ∧ o.uid = e.1 ∧ o.value = .live e.2.name := by
  rw [placeColumn] at h
  split at h
  · cases h
  · next owner howner =>
    obtain ⟨hfile, h⟩ := bind_eq_ok.1 h
    cases h
    exact ⟨table_of_liveByName howner, houses_of_tableFile hfile, rfl, rfl⟩

theorem keepTombstone_eq_ok {e : Uid × Tombstone} {k : Kept} (h : keepTombstone ids p files e = .ok k) :
    (∃ o, k = .column o ∧ e.1.kind = .column ∧ Houses files o.owner ∧ o.uid = e.1 ∧ o.value = .dead e.2) ∨
    (∃ o, k = .partition o ∧ e.1.kind = .table ∧ p.primary e.1 = false ∧ Houses files o.owner ∧ o.uid = e.1 ∧
      o.value = .dead e.2) ∨ (k = .elsewhere ∧ e.1.kind ≠ .column ∧ (e.1.kind = .table → p.primary e.1 = true)) := by
  rw [keepTombstone] at h
  split at h
  · next hkind =>
    obtain ⟨owner, -, h⟩ := bind_eq_ok_iff.1 h
    obtain ⟨hfile, h⟩ := bind_eq_ok.1 h
    cases h
    exact .inl ⟨_, rfl, hkind, houses_of_tableFile hfile, rfl, rfl⟩
  · next hkind =>
    split at h
    · next hprimary =>
      cases h
      exact .inr (.inr ⟨rfl, by simp [hkind], fun _ => hprimary⟩)
    · next hprimary =>
      split at h
      · cases h
      · obtain ⟨hfile, h⟩ := bind_eq_ok.1 h
        cases h
        exact .inr (.inl ⟨_, rfl, hkind, by simpa using hprimary, houses_of_tableFile hfile, rfl, rfl⟩)
  · next hcolumn htable =>
    cases h
    exact .inr (.inr ⟨rfl, hcolumn, fun hkind => absurd hkind htable⟩)

theorem placeChild_eq_ok {e : Uid × Uid} {o : Option (Owned Rec)} (h : placeChild ids files e = .ok o) :
    (ids.tables[e.1]? = none ∧ o = none) ∨
      ∃ name, ids.tables[e.1]? = some name ∧ Houses files e.2 ∧ o = some ⟨e.2, e.1, .live name.raw⟩ := by
  rw [placeChild] at h
  split at h
  · next hnone =>
    cases h
    exact .inl ⟨hnone, rfl⟩
  · next name hname =>
    obtain ⟨hfile, h⟩ := bind_eq_ok.1 h
    cases h
    exact .inr ⟨name, hname, houses_of_tableFile hfile, rfl⟩

theorem placeMove_eq_ok {e : Uid × Move} {o : Owned Move} (h : placeMove p e = .ok o) :
    home p e.1 = some o.owner ∧ o.uid = e.1 ∧ o.value = e.2 := by
  rw [placeMove] at h
  split at h
  · cases h
  · next owner howner =>
    cases h
    exact ⟨howner, rfl, rfl⟩

theorem placeConversion_eq_ok {e : Uid × Conversion} {o : Owned Conversion} (h : placeConversion ids e = .ok o) :
    (∃ c, ids.columns[e.1]? = some c ∧ (liveByName ids)[c.table]? = some o.owner) ∧ o.uid = e.1 ∧ o.value = e.2 := by
  rw [placeConversion] at h
  split at h
  · cases h
  · next owner howner =>
    cases h
    obtain ⟨c, hc, howner⟩ := bind_eq_some_iff.1 howner
    exact ⟨⟨c, hc, howner⟩, rfl, rfl⟩

theorem placeRebuild_eq_ok {e : Uid × Rebuild} {o : Owned Rebuild} (h : placeRebuild files e = .ok o) :
    Houses files o.owner ∧ o.owner = e.2.replacementRoot ∧ o.uid = e.1 ∧ o.value = e.2 := by
  obtain ⟨hfile, h⟩ := bind_eq_ok.1 h
  cases h
  exact ⟨houses_of_tableFile hfile, rfl, rfl, rfl⟩

end Steps

namespace Splits

variable {ids : IdsFile} {p : Placement} {files : ExtTreeMap Uid TreeFile} {r : Records} {written : List (String × TreeFile)}

/-! ## The files that are written -/

theorem files_iff (h : Splits ids p files r written) (u : Uid) (f : TreeFile) :
    files[u]? = some f ↔ f ∈ objects ids ∧ f.uid = u ∧ p.primary u = true := by
  rw [(foldlM_placeObjects h.placed (nodup_objects h.valid) (by simp)).2 u f]
  simp

variable {f : TreeFile} {u : Uid} {name : TableName} {V α : Type} {o : Owned Rec}

section

variable (h : Splits ids p files r written)

include h

theorem primary_or_child (hf : f ∈ objects ids) :
    p.primary f.uid = true ∨ (f.body.isTable = true ∧ p.children.contains f.uid = true) :=
  (foldlM_placeObjects h.placed (nodup_objects h.valid) (by simp)).1 f hf

theorem uid_eq (hf : files[u]? = some f) : f.uid = u :=
  ((h.files_iff u f).1 hf).2.1

theorem rules (hf : files[u]? = some f) : (fill p r f).Rules := by
  have hall := (writeFiles_eq_ok h.written).1
  obtain ⟨w, -, hw, hrules⟩ := hall.exists_of_mem_left (mem_toList_iff_getElem?_eq_some.2 hf)
  rw [← hw]
  exact hrules

section

variable (hu : ids.tables[u]? = some name) (hp : p.primary u = true)
include hu hp

theorem table_file : files[u]? = some ⟨u, .table { table := name.raw }, none⟩ := by
  rw [h.files_iff]
  refine ⟨?_, rfl, hp⟩
  simp only [objects, mem_append, List.mem_map]
  exact .inl (.inl (.inl (.inl ⟨(u, name), mem_toList_iff_getElem?_eq_some.2 hu, rfl⟩)))

theorem parse_table : TableName.parse name.raw = .ok name := by
  have hname : TableNamed name.raw := (h.rules (h.table_file hu hp)).name
  obtain ⟨n, hn⟩ := hname
  rw [hn, TableName.eq_of_parse_raw hn]

theorem nameAt_table : nameAt files u = name := by
  simp only [nameAt, h.table_file hu hp, TreeFile.tableName, h.parse_table hu hp]
  rfl

end

theorem primary_of_houses (hu : Houses files u) : p.primary u = true := by
  obtain ⟨f, t, hf, -⟩ := hu
  exact ((h.files_iff u f).1 hf).2.2

theorem houses_of_table (hu : ids.tables[u]? = some name) (hp : p.primary u = true) :
    Houses files u := ⟨_, _, h.table_file hu hp, rfl⟩

/-! ## Where the records go -/

theorem housed : r.Housed files := by
  obtain ⟨columns, tombs, parts, hc⟩ := collects_of_collectRecords h.collected
  refine ⟨?_, ?_, ?_, ?_, ?_⟩
  · intro o ho
    rw [hc.columns_eq, mem_append, List.mem_filterMap] at ho
    rcases ho with ho | ⟨k, hk, ho⟩
    · obtain ⟨e, -, he⟩ := hc.live.exists_of_mem_right ho
      exact (placeColumn_eq_ok he).2.1
    · obtain ⟨e, -, he⟩ := hc.kept.exists_of_mem_right hk
      rcases keepTombstone_eq_ok he with ⟨o', rfl, -, hhouse, -⟩ | ⟨o', rfl, -⟩ | ⟨rfl, -⟩
      · cases ho
        exact hhouse
      · cases ho
      · cases ho
  · intro o ho
    rw [hc.partitions_eq, mem_append, List.mem_filterMap, List.mem_filterMap] at ho
    rcases ho with ⟨k, hk, ho⟩ | ⟨k, hk, ho⟩
    · obtain ⟨e, -, he⟩ := hc.kept.exists_of_mem_right hk
      rcases keepTombstone_eq_ok he with ⟨o', rfl, -⟩ | ⟨o', rfl, -, -, hhouse, -⟩ | ⟨rfl, -⟩
      · cases ho
      · cases ho
        exact hhouse
      · cases ho
    · obtain ⟨e, -, he⟩ := hc.children.exists_of_mem_right hk
      rcases placeChild_eq_ok he with ⟨-, rfl⟩ | ⟨name, -, hhouse, rfl⟩
      · cases ho
      · cases ho
        exact hhouse
  · intro o ho
    obtain ⟨e, he, hplace⟩ := hc.moves.exists_of_mem_right ho
    obtain ⟨hhome, -, -⟩ := placeMove_eq_ok hplace
    have hmove := mem_of_getElem?_eq (getElem?_of_mem_toList he)
    obtain ⟨name, hname⟩ := mem_iff_exists.1 (h.valid.moves e.1 hmove)
    rw [home] at hhome
    split at hhome
    · next hp =>
      rw [← some.inj hhome]
      exact h.houses_of_table hname hp
    · rw [filter_eq_some_iff] at hhome
      obtain ⟨k, -, hk⟩ := hc.children.exists_of_mem_left (mem_toList_iff_getElem?_eq_some.2 hhome.1)
      rcases placeChild_eq_ok hk with ⟨hnone, -⟩ | ⟨-, -, hhouse, -⟩
      · rw [hname] at hnone
        cases hnone
      · exact hhouse
  · intro o ho
    obtain ⟨e, -, hplace⟩ := hc.conversions.exists_of_mem_right ho
    obtain ⟨⟨c, hcol, howner⟩, -, -⟩ := placeConversion_eq_ok hplace
    obtain ⟨o', -, ho'⟩ := hc.live.exists_of_mem_left (mem_toList_iff_getElem?_eq_some.2 hcol)
    have hsame : o'.owner = o.owner := by
      rw [placeColumn, howner] at ho'
      obtain ⟨-, ho'⟩ := bind_eq_ok.1 ho'
      cases ho'
      rfl
    rw [← hsame]
    exact (placeColumn_eq_ok ho').2.1
  · intro o ho
    obtain ⟨e, -, hplace⟩ := hc.rebuilds.exists_of_mem_right ho
    exact (placeRebuild_eq_ok hplace).1

end

theorem fill_body {t : TableBody} (ht : f.body = .table t) : (fill p r f).body = .table { t with
    columns := ordered (ownedBy r.columns f.uid) p.order[f.uid]?
    partitions := ordered (ownedBy r.partitions f.uid) none
    moves := ordered (ownedBy r.moves f.uid) none
    conversions := ordered (ownedBy r.conversions f.uid) none
    rebuilds := ordered (ownedBy r.rebuilds f.uid) none } := by
  rw [fill, ht]

variable {records : List (Owned V)}

theorem mem_ownedBy {o : Owned V} (ho : o ∈ records) : (o.uid, o.value) ∈ ownedBy records o.owner := by
  rw [ownedBy, List.mem_map]
  exact ⟨o, List.mem_filter.2 ⟨ho, by simp⟩, rfl⟩

theorem partition_named (h : Splits ids p files r written) (ho : o ∈ r.partitions) : o.value.Named TableNamed := by
  obtain ⟨f, t, hf, ht⟩ := h.housed.partitions o ho
  have huid := h.uid_eq hf
  apply ((h.rules hf).sections _ (fill_body ht)).partitions (o.uid, o.value)
  rw [huid]
  exact (ordered_perm _ none).mem_iff.2 (mem_ownedBy ho)

/-! ## The records as entries -/

theorem filterMap_ite {β : Type} (c : α → Bool) (g : α → β) (l : List α) :
    (l.filterMap fun a => if c a then some (g a) else none) = (l.filter c).map g := by
  induction l with
  | nil => rfl
  | cons a l ih =>
    rw [filterMap_cons, filter_cons]
    cases c a with
    | false => exact ih
    | true => rw [if_pos rfl, if_pos rfl, ih, map_cons]

section

variable (h : Splits ids p files r written)

include h

theorem columns_entries : (r.columns.map fun o => columnEntry (nameAt files o.owner) (o.uid, o.value)) =
      ids.columns.toList.map (fun e => .column e.1 e.2) ++
        (ids.tombstones.toList.filter fun e => e.1.kind = .column).map fun e => .tombstone e.1 e.2 := by
  obtain ⟨columns, tombs, parts, hc⟩ := collects_of_collectRecords h.collected
  rw [hc.columns_eq, map_append, map_filterMap, ← filterMap_ite]
  congr 1
  · symm
    apply hc.live.map_eq
    intro e o ho
    obtain ⟨htable, hhouse, huid, hvalue⟩ := placeColumn_eq_ok ho
    rw [h.nameAt_table htable (h.primary_of_houses hhouse), huid, hvalue]
    rfl
  · symm
    apply hc.kept.filterMap_eq
    intro e k _ hk
    rcases keepTombstone_eq_ok hk with ⟨o, rfl, hkind, -, huid, hvalue⟩ | ⟨o, rfl, hkind, -⟩ | ⟨rfl, hkind, -⟩
    · simp only [hkind, Kept.column?, map_some, huid, hvalue]
      rfl
    · simp [hkind, Kept.column?]
    · simp [hkind, Kept.column?]

theorem partitions_entries : (r.partitions.filterMap fun o => partitionEntry (o.uid, o.value)) =
      (ids.tombstones.toList.filter fun e => e.1.kind = .table && !p.primary e.1).map (fun e => .tombstone e.1 e.2) ++
        p.children.toList.filterMap fun e => ids.tables[e.1]?.map (.table e.1) := by
  obtain ⟨columns, tombs, parts, hc⟩ := collects_of_collectRecords h.collected
  have hnamed := fun o => h.partition_named (o := o)
  rw [hc.partitions_eq] at hnamed ⊢
  rw [filterMap_append, filterMap_filterMap, filterMap_filterMap, ← filterMap_ite]
  congr 1
  · symm
    apply hc.kept.filterMap_eq
    intro e k _ hk
    rcases keepTombstone_eq_ok hk with ⟨o, rfl, hkind, -⟩ | ⟨o, rfl, hkind, hp, -, huid, hvalue⟩ | ⟨rfl, -, hp⟩
    · simp [hkind, Kept.partition?]
    · simp only [hkind, hp, Kept.partition?, bind_some, huid, hvalue]
      rfl
    · by_cases hkind : e.1.kind = .table
      · simp [hkind, hp hkind, Kept.partition?]
      · simp [hkind, Kept.partition?]
  · symm
    apply hc.children.filterMap_eq
    intro e k hk hplace
    rcases placeChild_eq_ok hplace with ⟨hnone, rfl⟩ | ⟨name, hname, -, rfl⟩
    · simp [hnone]
    · have hread : TableNamed name.raw := hnamed ⟨e.2, e.1, .live name.raw⟩
        (mem_append.2 (.inr (List.mem_filterMap.2 ⟨_, hk, rfl⟩)))
      obtain ⟨n, hn⟩ := hread
      rw [TableName.eq_of_parse_raw hn] at hn
      simp [hname, partitionEntry, hn, Except.toOption]

theorem moves_entries : (r.moves.map fun o => Entry.move o.uid o.value) = ids.moves.toList.map fun e => .move e.1 e.2 := by
  obtain ⟨columns, tombs, parts, hc⟩ := collects_of_collectRecords h.collected
  refine (hc.moves.map_eq fun e o ho => ?_).symm
  obtain ⟨-, huid, hvalue⟩ := placeMove_eq_ok ho
  rw [huid, hvalue]

theorem conversions_entries :
    (r.conversions.map fun o => Entry.conversion o.uid o.value) = ids.conversions.toList.map fun e => .conversion e.1 e.2 := by
  obtain ⟨columns, tombs, parts, hc⟩ := collects_of_collectRecords h.collected
  refine (hc.conversions.map_eq fun e o ho => ?_).symm
  obtain ⟨-, huid, hvalue⟩ := placeConversion_eq_ok ho
  rw [huid, hvalue]

theorem rebuilds_entries :
    (r.rebuilds.map fun o => Entry.rebuild o.uid o.value) = ids.rebuilds.toList.map fun e => .rebuild e.1 e.2 := by
  obtain ⟨columns, tombs, parts, hc⟩ := collects_of_collectRecords h.collected
  refine (hc.rebuilds.map_eq fun e o ho => ?_).symm
  obtain ⟨-, -, huid, hvalue⟩ := placeRebuild_eq_ok ho
  rw [huid, hvalue]

/-! ## The objects as entries -/

theorem files_perm : (files.toList.map (·.2)).Perm ((objects ids).filter fun f => p.primary f.uid) := by
  have hkeys : (files.toList.map (·.2)).map (·.uid) = files.toList.map (·.1) := by
    rw [List.map_map]
    apply map_congr_left
    intro e he
    exact h.uid_eq (getElem?_of_mem_toList he)
  have hfiles : (files.toList.map (·.2)).Nodup := by
    apply Nodup.of_map (·.uid)
    rw [hkeys, map_fst_toList_eq_keys]
    exact nodup_keys
  rw [perm_ext_iff_of_nodup hfiles ((Nodup.of_map _ (nodup_objects h.valid)).filter _)]
  intro f
  rw [List.mem_map, List.mem_filter]
  constructor
  · rintro ⟨⟨u, f'⟩, he, rfl⟩
    obtain ⟨hmem, rfl, hp⟩ := (h.files_iff u f').1 (getElem?_of_mem_toList he)
    exact ⟨hmem, hp⟩
  · rintro ⟨hmem, hp⟩
    exact ⟨(f.uid, f), mem_toList_iff_getElem?_eq_some.2 ((h.files_iff _ _).2 ⟨hmem, rfl, hp⟩), rfl⟩

theorem own_tables :
    ((ids.tables.toList.map fun e => (⟨e.1, .table { table := e.2.raw }, none⟩ : TreeFile)).filter fun f => p.primary f.uid).flatMap own =
      (ids.tables.toList.filter fun e => p.primary e.1).map fun e => .table e.1 e.2 := by
  rw [List.filter_map, flatMap_map, map_eq_flatMap]
  apply flatMap_congr
  intro e he
  rw [List.mem_filter] at he
  have hparse := h.parse_table (getElem?_of_mem_toList he.1) he.2
  simp [own, TreeFile.liveEntry, hparse, Except.toOption]

theorem filter_primary {l : List TreeFile} (hl : ∀ f ∈ l, f ∈ objects ids) (htable : ∀ f ∈ l, f.body.isTable = false) :
    l.filter (fun f => p.primary f.uid) = l := by
  rw [filter_eq_self]
  intro f hf
  rcases h.primary_or_child (hl f hf) with hp | ⟨ht, -⟩
  · exact hp
  · rw [htable f hf] at ht
    cases ht

theorem own_roles :
    ((ids.roles.toList.map fun e => (⟨e.1, .role e.2, none⟩ : TreeFile)).filter fun f => p.primary f.uid).flatMap own =
      ids.roles.toList.map fun e => .role e.1 e.2 := by
  rw [h.filter_primary (fun f hf => by simp only [objects, mem_append]; tauto) (fun f hf => by obtain ⟨e, -, rfl⟩ := List.mem_map.1 hf; rfl),
    flatMap_map, map_eq_flatMap]
  rfl

theorem own_extensions :
    ((ids.extensions.toList.map fun e => (⟨e.1, .extension e.2, none⟩ : TreeFile)).filter fun f => p.primary f.uid).flatMap own =
      ids.extensions.toList.map fun e => .extension e.1 e.2 := by
  rw [h.filter_primary (fun f hf => by simp only [objects, mem_append]; tauto) (fun f hf => by obtain ⟨e, -, rfl⟩ := List.mem_map.1 hf; rfl),
    flatMap_map, map_eq_flatMap]
  rfl

theorem own_types :
    ((ids.types.toList.map fun e => (⟨e.1, .type e.2.raw, none⟩ : TreeFile)).filter fun f => p.primary f.uid).flatMap own =
      ids.types.toList.map fun e => .type e.1 e.2 := by
  have hobjects : ∀ f ∈ ids.types.toList.map fun e => (⟨e.1, .type e.2.raw, none⟩ : TreeFile), f ∈ objects ids :=
    fun f hf => by simp only [objects, mem_append]; tauto
  have hall := h.filter_primary hobjects (fun f hf => by obtain ⟨e, -, rfl⟩ := List.mem_map.1 hf; rfl)
  rw [hall, flatMap_map, map_eq_flatMap]
  apply flatMap_congr
  intro e he
  have hmem := List.mem_map_of_mem (f := fun e : Uid × TypeRef => (⟨e.1, .type e.2.raw, none⟩ : TreeFile)) he
  have hp := (filter_eq_self.1 hall) _ hmem
  have hname : TypeNamed e.2.raw := (h.rules ((h.files_iff e.1 _).2 ⟨hobjects _ hmem, rfl, hp⟩)).name
  obtain ⟨n, hn⟩ := hname
  rw [TypeRef.eq_of_parse_raw hn] at hn
  simp [own, TreeFile.liveEntry, hn, Except.toOption]

end

theorem own_tombstones :
    ((ids.tombstones.toList.filterMap fun e => (tombstoneBody e.1 e.2).map fun body =>
      (⟨e.1, body, some e.2⟩ : TreeFile)).filter fun f => p.primary f.uid).flatMap own =
      (ids.tombstones.toList.filter fun e => e.1.kind ≠ .column && p.primary e.1).map fun e => .tombstone e.1 e.2 := by
  induction ids.tombstones.toList with
  | nil => rfl
  | cons e l ih =>
    have hbody : (tombstoneBody e.1 e.2).isSome = decide (e.1.kind ≠ .column) := by
      rw [tombstoneBody]
      cases e.1.kind <;> rfl
    cases hb : tombstoneBody e.1 e.2 with
    | none =>
      rw [hb] at hbody
      have hkind : decide (e.1.kind ≠ .column) = false := hbody.symm
      rw [filterMap_cons_none (by simp [hb]), filter_cons, hkind]
      exact ih
    | some body =>
      rw [hb] at hbody
      have hkind : decide (e.1.kind ≠ .column) = true := hbody.symm
      rw [filterMap_cons_some (b := ⟨e.1, body, some e.2⟩) (by simp [hb]), filter_cons, filter_cons, hkind]
      cases hp : p.primary e.1 with
      | false => exact ih
      | true =>
        simp only [if_true, Bool.and_self, flatMap_cons, map_cons, ih]
        rfl

/-! ## Everything that is written -/

/-- The live tables that are placed both as a file and as a partition. -/
def doubled (ids : IdsFile) (p : Placement) : List Entry :=
  (ids.tables.toList.filter fun e => p.primary e.1 && p.children.contains e.1).map fun e => .table e.1 e.2

theorem own_perm (h : Splits ids p files r written) : (files.toList.flatMap fun e => own e.2).Perm
    ((ids.tables.toList.filter fun e => p.primary e.1).map (fun e => .table e.1 e.2) ++
      ids.roles.toList.map (fun e => .role e.1 e.2) ++ ids.types.toList.map (fun e => .type e.1 e.2) ++
      ids.extensions.toList.map (fun e => .extension e.1 e.2) ++
      (ids.tombstones.toList.filter fun e => e.1.kind ≠ .column && p.primary e.1).map fun e => .tombstone e.1 e.2) := by
  have hobjects := h.files_perm.flatMap_right own
  rw [flatMap_map] at hobjects
  refine hobjects.trans ?_
  simp only [objects, filter_append, flatMap_append]
  rw [h.own_tables, h.own_roles, h.own_types, h.own_extensions, own_tombstones]

theorem sections_perm (h : Splits ids p files r written) :
    (files.toList.flatMap fun e => (ownedBody r e.1 "").entries (nameAt files e.1)).Perm
      ((r.columns.map fun o => columnEntry (nameAt files o.owner) (o.uid, o.value)) ++
        (r.partitions.filterMap fun o => partitionEntry (o.uid, o.value)) ++ (r.moves.map fun o => .move o.uid o.value) ++
        (r.conversions.map fun o => .conversion o.uid o.value) ++ r.rebuilds.map fun o => .rebuild o.uid o.value) := by
  have hnodup : (files.toList.map (·.1)).Nodup := by
    rw [map_fst_toList_eq_keys]
    exact nodup_keys
  have howner : ∀ {u : Uid}, Houses files u → u ∈ files.toList.map (·.1) := by
    rintro u ⟨f, t, hf, -⟩
    exact List.mem_map.2 ⟨(u, f), mem_toList_iff_getElem?_eq_some.2 hf, rfl⟩
  have hr := h.housed
  have hcolumns := flatMap_ownedBy_perm hnodup (fun o ho => howner (hr.columns o ho)) fun u e => [columnEntry (nameAt files u) e]
  have hpartitions := flatMap_ownedBy_perm hnodup (fun o ho => howner (hr.partitions o ho)) fun _ e => (partitionEntry e).toList
  have hmoves := flatMap_ownedBy_perm hnodup (fun o ho => howner (hr.moves o ho)) fun _ e => [.move e.1 e.2]
  have hconversions := flatMap_ownedBy_perm hnodup (fun o ho => howner (hr.conversions o ho)) fun _ e => [.conversion e.1 e.2]
  have hrebuilds := flatMap_ownedBy_perm hnodup (fun o ho => howner (hr.rebuilds o ho)) fun _ e => [.rebuild e.1 e.2]
  rw [show (files.toList.flatMap fun e => (ownedBody r e.1 "").entries (nameAt files e.1)) =
    (files.toList.map (·.1)).flatMap fun u => (ownedBody r u "").entries (nameAt files u) by rw [flatMap_map]]
  simp only [TableBody.entries, ownedBody, map_eq_flatMap, filterMap_eq_flatMap_toList] at *
  have hsplit := ((((hcolumns.append hpartitions).append hmoves).append hconversions).append hrebuilds)
  refine Perm.trans ?_ hsplit
  refine (flatMap_append_perm _ _ _).symm.trans (.append_right _ ?_)
  refine (flatMap_append_perm _ _ _).symm.trans (.append_right _ ?_)
  refine (flatMap_append_perm _ _ _).symm.trans (.append_right _ ?_)
  exact (flatMap_append_perm _ _ _).symm

theorem children_perm : (p.children.toList.filterMap fun e => ids.tables[e.1]?.map (Entry.table e.1)).Perm
    ((ids.tables.toList.filter fun e => p.children.contains e.1).map fun e => .table e.1 e.2) := by
  have hchildren : (p.children.toList.filterMap fun e => ids.tables[e.1]?.map (Entry.table e.1)).Nodup := by
    have hsub := filterMap_sublist_map (f := fun e : Uid × Uid => (ids.tables[e.1]?.map (Entry.table e.1)).map Entry.key)
      (g := fun e => (Space.identity, e.1)) (by
        rintro ⟨u, v⟩ b hb
        simp only [Option.map_map, map_eq_some_iff] at hb
        obtain ⟨name, -, rfl⟩ := hb
        rfl) p.children.toList
    have hkeys : (p.children.toList.map fun e => (Space.identity, e.1)).Nodup := by
      rw [show (p.children.toList.map fun e => (Space.identity, e.1)) = (p.children.toList.map (·.1)).map (Space.identity, ·) by
        rw [List.map_map]; rfl, map_fst_toList_eq_keys]
      exact nodup_keys.map fun a b hab => (Prod.mk.inj hab).2
    apply Nodup.of_map Entry.key
    rw [map_filterMap]
    exact hkeys.sublist hsub
  have htables : ((ids.tables.toList.filter fun e => p.children.contains e.1).map fun e => Entry.table e.1 e.2).Nodup := by
    apply (nodup_toList.filter _).map
    rintro ⟨u, a⟩ ⟨v, b⟩ hab
    cases hab
    rfl
  rw [perm_ext_iff_of_nodup hchildren htables]
  intro x
  simp only [List.mem_filterMap, List.mem_map, List.mem_filter, Prod.exists, mem_toList_iff_getElem?_eq_some,
    map_eq_some_iff, contains_iff_exists]
  constructor
  · rintro ⟨u, v, hu, name, hname, rfl⟩
    exact ⟨u, name, ⟨hname, v, hu⟩, rfl⟩
  · rintro ⟨u, name, ⟨hname, v, hu⟩, rfl⟩
    exact ⟨u, v, hu, name, hname, rfl⟩

theorem filter_append_filter_perm (a b : α → Bool) (l : List α) :
    (l.filter a ++ l.filter b).Perm (l.filter (fun x => a x || b x) ++ l.filter fun x => a x && b x) := by
  have h := Multiset.filter_add_filter (fun x => a x = true) (fun x => b x = true) (l : Multiset α)
  rw [← Multiset.coe_eq_coe, ← Multiset.coe_add, ← Multiset.coe_add]
  simpa only [Multiset.filter_coe, Bool.decide_eq_true, Bool.decide_or, Bool.decide_and] using h

section

variable (h : Splits ids p files r written)
include h

theorem tables_perm : List.Perm ((ids.tables.toList.filter fun e => p.primary e.1).map (fun e => Entry.table e.1 e.2) ++
      (ids.tables.toList.filter fun e => p.children.contains e.1).map fun e => .table e.1 e.2)
      (ids.tables.toList.map (fun e => .table e.1 e.2) ++ doubled ids p) := by
  have hall : ids.tables.toList.filter (fun e => p.primary e.1 || p.children.contains e.1) = ids.tables.toList := by
    rw [filter_eq_self]
    intro e he
    rw [Bool.or_eq_true]
    refine (h.primary_or_child (f := ⟨e.1, .table { table := e.2.raw }, none⟩) ?_).imp_right (·.2)
    simp only [objects, mem_append, List.mem_map]
    exact .inl (.inl (.inl (.inl ⟨e, he, rfl⟩)))
  have hfilter := (filter_append_filter_perm (fun e : Uid × TableName => p.primary e.1) (fun e => p.children.contains e.1)
    ids.tables.toList).map fun e => Entry.table e.1 e.2
  rw [hall, map_append, map_append] at hfilter
  exact hfilter

theorem primary_or_table {e : Uid × Tombstone} (he : e ∈ ids.tombstones.toList) (hkind : e.1.kind ≠ .column) :
    p.primary e.1 = true ∨ e.1.kind = .table := by
  cases hbody : tombstoneBody e.1 e.2 with
  | none =>
    rw [tombstoneBody] at hbody
    cases hk : e.1.kind <;> simp_all
  | some body =>
    have hmem : (⟨e.1, body, some e.2⟩ : TreeFile) ∈ objects ids := by
      simp only [objects, mem_append]
      exact .inr (List.mem_filterMap.2 ⟨e, he, by rw [hbody]; rfl⟩)
    refine (h.primary_or_child hmem).imp_right fun htable => ?_
    rw [tombstoneBody] at hbody
    cases hk : e.1.kind <;> rw [hk] at hbody <;> cases hbody <;> first | rfl | cases htable.1

theorem tombstones_perm : List.Perm ((ids.tombstones.toList.filter fun e => e.1.kind = .column) ++
      ((ids.tombstones.toList.filter fun e => e.1.kind ≠ .column && p.primary e.1) ++
      (ids.tombstones.toList.filter fun e => e.1.kind = .table && !p.primary e.1))) ids.tombstones.toList := by
  have hcolumn := filter_append_perm (fun e : Uid × Tombstone => decide (e.1.kind = .column)) ids.tombstones.toList
  have hprimary := filter_append_perm (fun e : Uid × Tombstone => p.primary e.1)
    (ids.tombstones.toList.filter fun e => !decide (e.1.kind = .column))
  rw [List.filter_filter, List.filter_filter] at hprimary
  refine Perm.trans (.append_left _ ?_) hcolumn
  refine Perm.trans (.append (.of_eq ?_) (.of_eq ?_)) hprimary
  · apply filter_congr
    intro e _
    rw [Bool.and_comm, ← decide_not]
  · apply filter_congr
    intro e he
    by_cases hp : p.primary e.1 = true
    · simp [hp]
    · have hkind : e.1.kind = .column ∨ e.1.kind = .table := by
        by_contra hne
        rw [not_or] at hne
        exact (h.primary_or_table he hne.1).elim hp hne.2
      rcases hkind with hkind | hkind
      · simp [hkind]
      · simp [hkind]

end

theorem sum_by_section {tables₁ tables₂ tables twice columns roles types extensions tombs₁ tombs₂ tombs₃ tombs moves
    conversions rebuilds : Multiset α} (htables : tables₁ + tables₂ = tables + twice)
    (htombs : tombs₁ + (tombs₂ + tombs₃) = tombs) :
    tables₁ + roles + types + extensions + tombs₂ + (columns + tombs₁ + (tombs₃ + tables₂) + moves + conversions + rebuilds) =
      tables + columns + roles + types + extensions + tombs + moves + conversions + rebuilds + twice := by
  calc tables₁ + roles + types + extensions + tombs₂ + (columns + tombs₁ + (tombs₃ + tables₂) + moves + conversions + rebuilds)
      = (tables₁ + tables₂) + columns + roles + types + extensions + (tombs₁ + (tombs₂ + tombs₃)) + moves + conversions +
          rebuilds := by abel
    _ = (tables + twice) + columns + roles + types + extensions + tombs + moves + conversions + rebuilds := by
      rw [htables, htombs]
    _ = tables + columns + roles + types + extensions + tombs + moves + conversions + rebuilds + twice := by abel

theorem written_perm (h : Splits ids p files r written) :
    (written.flatMap fun w => w.2.entries).Perm (entries ids ++ doubled ids p) := by
  have hwritten : (written.flatMap fun w => w.2.entries) = files.toList.flatMap fun e => (fill p r e.2).entries := by
    have := (writeFiles_eq_ok h.written).1.map_eq (f := fun e => (fill p r e.2).entries) (g := fun w => w.2.entries)
      fun e w hw => by rw [hw.1]
    rw [flatMap_def, flatMap_def, this]
  have hfill : (files.toList.flatMap fun e => (fill p r e.2).entries).Perm
      (files.toList.flatMap fun e => own e.2 ++ (ownedBody r e.1 "").entries (nameAt files e.1)) := by
    apply List.Perm.flatMap_left
    intro e he
    have hf := getElem?_of_mem_toList he
    have huid := h.uid_eq hf
    have := entries_fill (p := p) (f := e.2) h.housed (by rw [huid]; exact hf)
    rwa [huid] at this
  have hall := hfill.trans ((flatMap_append_perm _ _ _).symm.trans (h.own_perm.append h.sections_perm))
  rw [h.columns_entries, h.partitions_entries, h.moves_entries, h.conversions_entries, h.rebuilds_entries] at hall
  have htables := h.tables_perm
  have htombs := h.tombstones_perm.map fun e => Entry.tombstone e.1 e.2
  have hchildren := @children_perm ids p
  rw [hwritten]
  rw [← Multiset.coe_eq_coe] at hall htables htombs hchildren ⊢
  simp only [map_append, ← Multiset.coe_add] at hall htables htombs hchildren
  rw [hall, hchildren, entries]
  simp only [← Multiset.coe_add]
  exact sum_by_section htables htombs

/-! ## What is written is accepted -/

theorem keyed_ordered {kind : UidKind} (u : Uid) (order : Option (List Uid)) (hwf : ∀ o ∈ records, o.uid.WellFormed)
    (hkind : ∀ o ∈ records, o.uid.kind = kind) (hnodup : (records.map (·.uid)).Nodup) :
    Keyed kind (ordered (ownedBy records u) order) := by
  have hperm := ordered_perm (ownedBy records u) order
  have howned : ∀ e ∈ ownedBy records u, ∃ o ∈ records, o.uid = e.1 := by
    intro e he
    rw [ownedBy, List.mem_map] at he
    obtain ⟨o, ho, rfl⟩ := he
    exact ⟨o, (List.mem_filter.1 ho).1, rfl⟩
  refine ⟨fun e he => ?_, fun e he => ?_, ?_⟩
  · obtain ⟨o, ho, heq⟩ := howned e (hperm.mem_iff.1 he)
    rw [← heq]
    exact hwf o ho
  · obtain ⟨o, ho, heq⟩ := howned e (hperm.mem_iff.1 he)
    rw [← heq]
    exact hkind o ho
  · rw [(hperm.map _).nodup_iff, ownedBy, List.map_map]
    exact hnodup.sublist (filter_sublist.map _)

section

variable (h : Splits ids p files r written)

include h

theorem column_uid (ho : o ∈ r.columns) : o.uid.kind = .column ∧ ids.containsUid o.uid = true := by
  have hentry := List.mem_map_of_mem (f := fun o : Owned Rec => columnEntry (nameAt files o.owner) (o.uid, o.value)) ho
  rw [h.columns_entries, mem_append, List.mem_map, List.mem_map] at hentry
  have hkey := columnEntry_key (nameAt files o.owner) (o.uid, o.value)
  rcases hentry with ⟨e, he, heq⟩ | ⟨e, he, heq⟩
  · rw [← heq] at hkey
    have huid : e.1 = o.uid := congrArg Prod.snd hkey
    have hmem := mem_of_getElem?_eq (getElem?_of_mem_toList he)
    rw [← huid]
    exact ⟨h.valid.kinds.columns _ hmem, by simp [IdsFile.containsUid, hmem]⟩
  · rw [← heq] at hkey
    have huid : e.1 = o.uid := congrArg Prod.snd hkey
    rw [List.mem_filter, decide_eq_true_eq] at he
    have hmem := mem_of_getElem?_eq (getElem?_of_mem_toList he.1)
    rw [← huid]
    exact ⟨he.2, by simp [IdsFile.containsUid, hmem]⟩

theorem partition_entry (ho : o ∈ r.partitions) : ∃ x, partitionEntry (o.uid, o.value) = some x ∧ x.key = (.identity, o.uid) ∧
      x ∈ r.partitions.filterMap fun o => partitionEntry (o.uid, o.value) := by
  have hnamed := h.partition_named ho
  obtain ⟨x, hx, hkey⟩ := partitionEntry_eq (e := (o.uid, o.value)) fun n hn => by
    dsimp only at hn
    rw [hn] at hnamed
    exact hnamed
  exact ⟨x, hx, hkey, List.mem_filterMap.2 ⟨o, ho, hx⟩⟩

theorem partition_uid (ho : o ∈ r.partitions) : o.uid.kind = .table ∧ ids.containsUid o.uid = true := by
  obtain ⟨x, -, hkey, hmem⟩ := h.partition_entry ho
  rw [h.partitions_entries, mem_append, List.mem_map, List.mem_filterMap] at hmem
  rcases hmem with ⟨e, he, rfl⟩ | ⟨e, -, heq⟩
  · have huid : e.1 = o.uid := congrArg Prod.snd hkey
    rw [List.mem_filter, Bool.and_eq_true, decide_eq_true_eq] at he
    have hmem := mem_of_getElem?_eq (getElem?_of_mem_toList he.1)
    rw [← huid]
    exact ⟨he.2.1, by simp [IdsFile.containsUid, hmem]⟩
  · obtain ⟨name, hname, rfl⟩ := map_eq_some_iff.1 heq
    have huid : e.1 = o.uid := congrArg Prod.snd hkey
    have hmem := mem_of_getElem?_eq hname
    rw [← huid]
    exact ⟨h.valid.kinds.tables _ hmem, by simp [IdsFile.containsUid, hmem]⟩

theorem move_uid {o : Owned Move} (ho : o ∈ r.moves) : o.uid.kind = .table ∧ ids.containsUid o.uid = true := by
  obtain ⟨columns, tombs, parts, hc⟩ := collects_of_collectRecords h.collected
  obtain ⟨e, he, hplace⟩ := hc.moves.exists_of_mem_right ho
  have hmem := h.valid.moves e.1 (mem_of_getElem?_eq (getElem?_of_mem_toList he))
  rw [(placeMove_eq_ok hplace).2.1]
  exact ⟨h.valid.kinds.tables _ hmem, by simp [IdsFile.containsUid, hmem]⟩

theorem conversion_uid {o : Owned Conversion} (ho : o ∈ r.conversions) :
    o.uid.kind = .column ∧ ids.containsUid o.uid = true := by
  obtain ⟨columns, tombs, parts, hc⟩ := collects_of_collectRecords h.collected
  obtain ⟨e, he, hplace⟩ := hc.conversions.exists_of_mem_right ho
  have hmem := (h.valid.conversions e.1 e.2 (getElem?_of_mem_toList he)).1
  rw [(placeConversion_eq_ok hplace).2.1]
  exact ⟨h.valid.kinds.columns _ hmem, by simp [IdsFile.containsUid, hmem]⟩

theorem rebuild_uid {o : Owned Rebuild} (ho : o ∈ r.rebuilds) : o.uid.kind = .table ∧ ids.containsUid o.uid = true := by
  obtain ⟨columns, tombs, parts, hc⟩ := collects_of_collectRecords h.collected
  obtain ⟨e, he, hplace⟩ := hc.rebuilds.exists_of_mem_right ho
  obtain ⟨hhouse, howner, huid, -⟩ := placeRebuild_eq_ok hplace
  have hroot : e.2.replacementRoot.kind = .table := by
    obtain ⟨f, t, hf, ht⟩ := hhouse
    have hkind := (h.rules hf).kind
    rw [fill_body ht] at hkind
    rw [← howner, ← h.uid_eq hf]
    rw [fill, ht] at hkind
    exact hkind
  have hvalid := h.valid.rebuilds e.1 e.2 (getElem?_of_mem_toList he)
  simp only [IdsFile.rebuildInvalid, Bool.or_eq_false_iff, bne_eq_false_iff_eq, Bool.not_eq_eq_eq_not, Bool.not_false] at hvalid
  obtain ⟨⟨⟨⟨⟨⟨⟨-, hsource⟩, hreplacement⟩, hsourceRoot⟩, hwhole⟩, -⟩, hsources⟩, -⟩ := hvalid
  rw [validateSections_eq_ok] at hsource hreplacement
  rw [Rebuild.continuesAreWhole, Bool.and_eq_true, List.all_eq_true] at hwhole
  have hpair := hwhole.1 (e.2.replacementRoot, e.1) (mem_toList_iff_getElem?_eq_some.2 hsourceRoot)
  rw [Bool.or_eq_true, Bool.and_eq_true, Bool.and_eq_true] at hpair
  rw [huid]
  rcases hpair with ⟨-, htable⟩ | ⟨hcolumn, -⟩
  · have hmem := ExtTreeMap.contains_iff_mem.1 htable
    refine ⟨hsource.2.1.tables _ hmem, ?_⟩
    rw [List.any_eq_false] at hsources
    have htomb := hsources e.1 (mem_append.2 (.inl (ExtTreeMap.mem_keys.2 hmem)))
    simp only [Bool.not_eq_true', Bool.not_eq_false] at htomb
    simp [IdsFile.containsUid, htomb]
  · have hkind := hreplacement.2.1.columns _ (ExtTreeMap.contains_iff_mem.1 hcolumn)
    rw [hroot] at hkind
    cases hkind

theorem nodup_columns : (r.columns.map (·.uid)).Nodup := by
  have hsub : (r.columns.map fun o => columnEntry (nameAt files o.owner) (o.uid, o.value)).Sublist (entries ids) := by
    rw [h.columns_entries, entries]
    apply sublist_append_of_sublist_left
    apply sublist_append_of_sublist_left
    apply sublist_append_of_sublist_left
    refine List.Sublist.append ?_ (filter_sublist.map _)
    apply sublist_append_of_sublist_left
    apply sublist_append_of_sublist_left
    apply sublist_append_of_sublist_left
    exact sublist_append_right _ _
  have hkeys := (nodup_keys_entries h.valid).sublist (hsub.map Entry.key)
  simp only [List.map_map, Function.comp_def, columnEntry_key] at hkeys
  apply Nodup.of_map (Space.identity, ·)
  rwa [List.map_map]

theorem nodup_partitions : (r.partitions.map (·.uid)).Nodup := by
  have hperm : (r.partitions.filterMap fun o => partitionEntry (o.uid, o.value)).Perm
      ((ids.tables.toList.filter fun e => p.children.contains e.1).map (fun e => Entry.table e.1 e.2) ++
        (ids.tombstones.toList.filter fun e => e.1.kind = .table && !p.primary e.1).map fun e => .tombstone e.1 e.2) := by
    rw [h.partitions_entries]
    exact (children_perm.append_left _).trans perm_append_comm
  have hsub : List.Sublist ((ids.tables.toList.filter fun e => p.children.contains e.1).map (fun e => Entry.table e.1 e.2) ++
      (ids.tombstones.toList.filter fun e => e.1.kind = .table && !p.primary e.1).map fun e => .tombstone e.1 e.2)
      (entries ids) := by
    rw [entries]
    apply sublist_append_of_sublist_left
    apply sublist_append_of_sublist_left
    apply sublist_append_of_sublist_left
    refine List.Sublist.append ?_ (filter_sublist.map _)
    apply sublist_append_of_sublist_left
    apply sublist_append_of_sublist_left
    apply sublist_append_of_sublist_left
    apply sublist_append_of_sublist_left
    exact filter_sublist.map _
  have hkeys := (hperm.map Entry.key).nodup_iff.2 ((nodup_keys_entries h.valid).sublist (hsub.map Entry.key))
  have hmap : (r.partitions.filterMap fun o => partitionEntry (o.uid, o.value)).map Entry.key =
      r.partitions.map fun o => (.identity, o.uid) := by
    have := @map_key_partitions (r.partitions.map fun o => (o.uid, o.value)) (by
      intro e he n hn
      obtain ⟨o, ho, rfl⟩ := List.mem_map.1 he
      have hnamed := h.partition_named ho
      dsimp only at hn
      rw [hn] at hnamed
      exact hnamed)
    rwa [filterMap_map, List.map_map] at this
  rw [hmap] at hkeys
  apply Nodup.of_map (Space.identity, ·)
  rwa [List.map_map]

end

theorem nodup_of_entries {N : Type} {m : ExtTreeMap Uid N} {f : Uid → V → Entry} {g : Uid → N → Entry} {space : Space}
    (hf : ∀ u v, (f u v).key = (space, u)) (hg : ∀ u v, (g u v).key = (space, u))
    (h : (records.map fun o => f o.uid o.value) = m.toList.map fun e => g e.1 e.2) : (records.map (·.uid)).Nodup := by
  have hkeys := congrArg (List.map fun e => (Entry.key e).2) h
  simp only [List.map_map, Function.comp_def, hf, hg] at hkeys
  rw [hkeys, map_fst_toList_eq_keys]
  exact nodup_keys

theorem accepted (h : Splits ids p files r written) (hwf : ∀ u : Uid, ids.containsUid u = true → u.WellFormed)
    {w : String × TreeFile} (hw : w ∈ written) : w.2.Accepted := by
  obtain ⟨e, he, hfill, hrules⟩ := (writeFiles_eq_ok h.written).1.exists_of_mem_right hw
  have hf := getElem?_of_mem_toList he
  have huid : (fill p r e.2).uid = e.2.uid := by
    rw [fill]
    split <;> rfl
  refine ⟨?_, ?_, hrules⟩
  · rw [hfill, huid]
    apply hwf
    have hmem := ((h.files_iff _ _).1 hf).1
    simp only [objects, mem_append, List.mem_map, List.mem_filterMap, map_eq_some_iff] at hmem
    rcases hmem with (((⟨x, hx, hmem⟩ | ⟨x, hx, hmem⟩) | ⟨x, hx, hmem⟩) | ⟨x, hx, hmem⟩) | ⟨x, hx, body, -, hmem⟩ <;>
      · rw [← hmem]
        simp [IdsFile.containsUid, mem_of_getElem?_eq (getElem?_of_mem_toList hx)]
  · rw [hfill]
    cases hbody : e.2.body with
    | table t =>
      rw [TreeFile.KeyedSections, fill_body hbody]
      exact ⟨keyed_ordered e.2.uid p.order[e.2.uid]? (fun o ho => hwf _ (h.column_uid ho).2) (fun o ho => (h.column_uid ho).1) h.nodup_columns,
        keyed_ordered e.2.uid none (fun o ho => hwf _ (h.partition_uid ho).2) (fun o ho => (h.partition_uid ho).1) h.nodup_partitions,
        keyed_ordered e.2.uid none (fun o ho => hwf _ (h.move_uid ho).2) (fun o ho => (h.move_uid ho).1)
          (nodup_of_entries (fun _ _ => rfl) (fun _ _ => rfl) h.moves_entries),
        keyed_ordered e.2.uid none (fun o ho => hwf _ (h.conversion_uid ho).2) (fun o ho => (h.conversion_uid ho).1)
          (nodup_of_entries (fun _ _ => rfl) (fun _ _ => rfl) h.conversions_entries),
        keyed_ordered e.2.uid none (fun o ho => hwf _ (h.rebuild_uid ho).2) (fun o ho => (h.rebuild_uid ho).1)
          (nodup_of_entries (fun _ _ => rfl) (fun _ _ => rfl) h.rebuilds_entries)⟩
    | role n => rw [TreeFile.KeyedSections, fill, hbody]; simp only [hbody]
    | type n => rw [TreeFile.KeyedSections, fill, hbody]; simp only [hbody]
    | extension n => rw [TreeFile.KeyedSections, fill, hbody]; simp only [hbody]

end Splits

/-! ## The round trip -/

theorem doubled_eq_nil : Splits.doubled ids p = [] ↔
    ∀ u : Uid, ids.tables.contains u = true → p.primary u = true → p.children.contains u = false := by
  rw [Splits.doubled, map_eq_nil_iff, filter_eq_nil_iff]
  constructor
  · intro h u hu hp
    obtain ⟨name, hname⟩ := contains_iff_exists.1 hu
    have := h (u, name) (mem_toList_iff_getElem?_eq_some.2 hname)
    simpa only [hp, Bool.true_and, Bool.not_eq_true] using this
  · intro h e he
    have hu := contains_of_mem_toList he
    by_cases hp : p.primary e.1 = true
    · simp [h e.1 hu hp]
    · simp [hp]

theorem nodup_claims_iff {files : List TreeFile} (hvalid : Valid ids) (hfiles : ∀ f ∈ files, f.Readable)
    (hperm : (files.flatMap TreeFile.entries).Perm (entries ids ++ Splits.doubled ids p)) :
    (files.flatMap TreeFile.claims).Nodup ↔ Splits.doubled ids p = [] := by
  have hclaims : (files.flatMap TreeFile.claims).Perm ((files.flatMap TreeFile.entries).map Entry.key) := by
    rw [map_flatMap]
    exact List.Perm.flatMap_left _ fun f hf => (hfiles f hf).claims_perm
  rw [hclaims.nodup_iff, (hperm.map Entry.key).nodup_iff, map_append, nodup_append']
  constructor
  · rintro ⟨-, -, hdisjoint⟩
    rw [eq_nil_iff_forall_not_mem]
    intro x hx
    have hin : x ∈ entries ids := by
      rw [Splits.doubled, List.mem_map] at hx
      obtain ⟨e, he, rfl⟩ := hx
      exact mem_entries.2 (getElem?_of_mem_toList (List.mem_filter.1 he).1)
    exact hdisjoint (List.mem_map_of_mem hin) (List.mem_map_of_mem hx)
  · intro hnil
    rw [hnil]
    exact ⟨nodup_keys_entries hvalid, .nil, by simp⟩

/-- A split file is assembled again unless it doubles a record. -/
theorem assemble_split {serde : Serde} {out : ExtTreeMap String String} (hwf : ∀ u : Uid, ids.containsUid u = true → u.WellFormed)
    (hserde : ∀ files, splitFiles ids p = .ok files → ∀ w ∈ files, serde.Reads w.2) (h : split serde ids p = .ok out) :
    assemble serde out = .ok ids ↔ Splits.doubled ids p = [] := by
  obtain ⟨written, hwritten, hout⟩ := bind_eq_ok_iff.1 h
  have hout : (ExtTreeMap.ofList (written.map fun w => (w.1, render serde w.2)) : ExtTreeMap String String) = out :=
    ok.inj hout
  obtain ⟨files, r, hsplits⟩ := splits_of_splitFiles hwritten
  have hparse : ∀ w ∈ written, parse serde w.1 (render serde w.2) = .ok w.2 :=
    fun w hw => (hsplits.accepted hwf hw).parse_render (hserde written hwritten w hw) w.1
  -- The map's entries are the files written, in the order of their paths.
  have htexts : ((written.map fun w => (w.1, render serde w.2)).map (·.1)).Nodup := by
    rw [List.map_map]
    exact (writeFiles_eq_ok hsplits.written).2.1
  have hlist : out.toList.Perm (written.map fun w => (w.1, render serde w.2)) := by
    rw [perm_ext_iff_of_nodup nodup_toList (Nodup.of_map _ htexts)]
    rintro ⟨path, text⟩
    rw [← hout, mem_toList_iff_getElem?_eq_some, getElem?_ofList_eq_some htexts]
  have hread : ∀ e ∈ out.toList, ∃ f, parse serde e.1 e.2 = .ok f := by
    intro e he
    obtain ⟨w, hw, rfl⟩ := List.mem_map.1 (hlist.mem_iff.1 he)
    exact ⟨w.2, hparse w hw⟩
  have hfiles : (readFiles serde out.toList).Perm (written.map (·.2)) := by
    have hsame : readFiles serde (written.map fun w => (w.1, render serde w.2)) = written.map (·.2) := by
      rw [readFiles, filterMap_map, ← List.filterMap_eq_map]
      apply filterMap_congr
      intro w hw
      simp [hparse w hw, Except.toOption]
    rw [← hsame]
    exact hlist.filterMap _
  have hperm : ((readFiles serde out.toList).flatMap TreeFile.entries).Perm (entries ids ++ Splits.doubled ids p) := by
    refine (hfiles.flatMap_right _).trans ?_
    rw [flatMap_map]
    exact hsplits.written_perm
  have hreadable : ∀ f ∈ readFiles serde out.toList, f.Readable := by
    intro f hf
    obtain ⟨w, hw, rfl⟩ := List.mem_map.1 (hfiles.mem_iff.1 hf)
    exact (hsplits.accepted hwf hw).rules.readable
  rw [assemble_eq_ok hread, nodup_claims_iff hsplits.valid hreadable hperm]
  refine ⟨fun hok => hok.1, fun hnil => ⟨hnil, ?_, validate_eq_ok.2 hsplits.valid⟩⟩
  rw [hnil, append_nil] at hperm
  have hkeys := (hperm.map Entry.key).nodup_iff.2 (nodup_keys_entries hsplits.valid)
  exact (foldl_add_entries hsplits.valid.version hperm hkeys).symm

/-- A mapping split by a placement is assembled back exactly if the placement gives no live table both a path and a
parent. -/
theorem split_assembles {serde : Serde} {ids : IdsFile} {p : Placement} {out : ExtTreeMap String String}
    (hwf : ∀ u : Uid, ids.containsUid u = true → u.WellFormed)
    (hserde : ∀ files, splitFiles ids p = .ok files → ∀ w ∈ files, serde.Reads w.2) (h : split serde ids p = .ok out) :
    assemble serde out = .ok ids ↔
      ∀ u : Uid, ids.tables.contains u = true → p.primary u = true → p.children.contains u = false := by
  rw [assemble_split hwf hserde h, doubled_eq_nil]

/-! ## A parent and its partition -/

end

/-- Of a writer of values a file's text asks nothing more. -/
def writing (line : Doc → String) : Serde := ⟨line, fun _ => .error "unexpected text"⟩

/-- A reader of some files' texts and of no other. -/
def reading (line : Doc → String) (files : List TreeFile) : Serde where
  line := line
  fromStr text :=
    match files.find? fun f => render (writing line) f = text with
    | some f => .ok (document f)
    | none => .error "unexpected text"

theorem reading_reads {line : Doc → String} {files : List TreeFile} {f : TreeFile} (hline : ∀ v, '\n' ∉ (line v).toList)
    (h : files.Pairwise fun f g => render (writing line) f ≠ render (writing line) g) (hf : f ∈ files) :
    (reading line files).Reads f := by
  have hfind : files.find? (fun g => render (writing line) g = render (writing line) f) = some f := by
    obtain ⟨l, l', rfl⟩ := append_of_mem hf
    rw [find?_eq_some_iff_append]
    refine ⟨by simp, l, l', rfl, fun g hg => ?_⟩
    simpa using (pairwise_append.1 h).2.2 g hg f (by simp)
  have hread : (reading line files).fromStr (render (writing line) f) = .ok (document f) := by
    simp only [reading, hfind]
  exact ⟨hline, hread⟩

namespace Family

def escaped (c : Char) : List Char :=
  if c = '\n' then ['\\', 'n'] else if c = '"' then ['\\', '"'] else if c = '\\' then ['\\', '\\'] else [c]

def line : Doc → String
  | .text s => String.ofList ('"' :: s.toList.flatMap escaped ++ ['"'])
  | _ => "null"

def serde (files : List TreeFile) : Serde := reading line files

theorem line_unbroken (v : Doc) : '\n' ∉ (line v).toList := by
  cases v with
  | text s =>
    simp only [line, String.toList_ofList, cons_append, mem_cons, mem_append, mem_flatMap, not_mem_nil,
      or_false, not_or, not_exists, not_and]
    refine ⟨by decide, ?_, by decide⟩
    intro c _
    unfold escaped
    split
    · decide
    · next hc =>
      split
      · decide
      · split
        · decide
        · simpa using Ne.symm hc
  | _ => exact (by decide : '\n' ∉ "null".toList)

def parent : Uid := ⟨"t_aaaaaa"⟩
def child : Uid := ⟨"t_bbbbbb"⟩

def ids : IdsFile := { tables := .ofList [(parent, TableName.mk "app" "a"), (child, TableName.mk "app" "b")] }

def placement : Placement := { paths := .ofList [(parent, "a.json")], children := .ofList [(child, parent)] }

def twice : Placement :=
  { paths := .ofList [(parent, "a.json"), (child, "b.json")], children := .ofList [(child, parent)] }

def parentFile : TreeFile := ⟨parent, .table { table := "app.a", partitions := [(child, .live "app.b")] }, none⟩
def childFile : TreeFile := ⟨child, .table { table := "app.b" }, none⟩

theorem splitFiles_placement : splitFiles ids placement = .ok [("a.json", parentFile)] := by decide

theorem splitFiles_twice : splitFiles ids twice = .ok [("a.json", parentFile), ("b.json", childFile)] := by decide

theorem wellFormed (u : Uid) (h : ids.containsUid u = true) : u.WellFormed := by
  have hu : u = parent ∨ u = child := by
    simp only [IdsFile.containsUid, ids, contains_empty, Bool.or_false, contains_iff_exists] at h
    obtain ⟨name, hname⟩ := h
    have := mem_of_getElem?_ofList hname
    simp only [mem_cons, Prod.mk.injEq, not_mem_nil, or_false] at this
    exact this.imp And.left And.left
  rcases hu with rfl | rfl <;> decide

theorem texts_ne : render (writing line) parentFile ≠ render (writing line) childFile := by
  intro h
  have hparent : (line (.text parent.text)).length = 10 := by decide
  have hchild : (line (.text child.text)).length = 10 := by decide
  have ha : (line (.text "app.a")).length = 7 := by decide
  have hb : (line (.text "app.b")).length = 7 := by decide
  -- The parent's text is longer by the section of its partition.
  have hlength := congrArg String.length h
  simp [render, writing, topTexts, parentFile, childFile, sectionText, optionalSection, Body.key, Rec.doc, String.intercalate_cons_cons,
    String.intercalate_singleton, String.length_append, hparent, hchild, ha, hb] at hlength
  revert hlength
  decide

/-- A mapping in a tree of one file. -/
theorem split_assembles_family : assemble (serde [parentFile])
    (.ofList [("a.json", render (serde [parentFile]) parentFile)]) = .ok ids := by
  have hsplit : split (serde [parentFile]) ids placement = .ok (.ofList [("a.json", render (serde [parentFile]) parentFile)]) := by
    rw [split, splitFiles_placement]
    rfl
  refine (split_assembles wellFormed ?_ hsplit).2 ?_
  · intro files hfiles w hw
    rw [splitFiles_placement] at hfiles
    cases hfiles
    rw [mem_singleton.1 hw]
    exact reading_reads line_unbroken (by simp) mem_cons_self
  · intro u _ hp
    obtain ⟨path, hpath⟩ := contains_iff_exists.1 hp
    have hu := mem_of_getElem?_ofList hpath
    simp only [mem_singleton, Prod.mk.injEq] at hu
    rw [hu.1]
    decide

/-- The partition is written twice, and the tree that holds it twice is refused. -/
theorem split_writes_twice : ids.validate = .ok () ∧
    splitFiles ids twice = .ok [("a.json", parentFile), ("b.json", childFile)] ∧
    (∀ f ∈ [parentFile, childFile], (serde [parentFile, childFile]).Reads f) ∧
    ∃ out, split (serde [parentFile, childFile]) ids twice = .ok out ∧
      assemble (serde [parentFile, childFile]) out ≠ .ok ids := by
  have hreads : ∀ f ∈ [parentFile, childFile], (serde [parentFile, childFile]).Reads f := fun f hf =>
    reading_reads line_unbroken (by simp [texts_ne]) hf
  have hsplit : split (serde [parentFile, childFile]) ids twice = .ok (.ofList
      [("a.json", render (serde [parentFile, childFile]) parentFile),
        ("b.json", render (serde [parentFile, childFile]) childFile)]) := by
    rw [split, splitFiles_twice]
    rfl
  refine ⟨by decide, splitFiles_twice, hreads, _, hsplit, fun hok => ?_⟩
  have hwritten : ∀ files, splitFiles ids twice = .ok files → ∀ w ∈ files, (serde [parentFile, childFile]).Reads w.2 := by
    intro files hfiles w hw
    rw [splitFiles_twice] at hfiles
    cases hfiles
    exact hreads w.2 (List.mem_map_of_mem (f := Prod.snd) hw)
  have hnone := doubled_eq_nil.1 ((assemble_split wellFormed hwritten hsplit).1 hok) child (by decide) (by decide)
  revert hnone
  decide

end Family

end Pbps.Tree
