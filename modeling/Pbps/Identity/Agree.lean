/-
The inventory before a resolution and after it. Before, it reads the project's mapping with the renames still pending;
after, the mapping that the resolution left. The two readings agree on every object but two kinds: an extension, which is
looked up in the mapping alone, and a column that a partition declares.
-/
import Pbps.Identity.Leads

namespace Pbps.Identity

open Std (ExtTreeMap ExtTreeSet)
open Pbps.Diff (Side)
open List (filter_congr mem_filter mem_filterMap mem_flatMap mem_map)
open Option Std.ExtTreeMap

/-! ## Pending renames -/

section Pending

variable {N : Type} [Ord N] [Std.TransOrd N] [Std.LawfulEqOrd N] [DecidableEq N] {names : ExtTreeMap Uid N} {declared : List N}
  {renames : List (N × N)} {u : Uid}

variable {a n : N}

theorem pendingRenames_eq_some {b : N} (h : (pendingRenames names declared renames)[a]? = some b) :
    a ∉ declared ∧ b ∈ declared ∧ (¬ ∃ v : Uid, names[v]? = some b) ∧ (a, b) ∈ renames := by
  obtain ⟨hmem, hpending⟩ := mem_filter.1 (mem_of_getElem?_ofList h)
  obtain ⟨hfrom, hto, hnew⟩ := of_decide_eq_true hpending
  rw [mem_map_snd_toList] at hnew
  exact ⟨hfrom, hto, hnew, hmem⟩

theorem exists_pendingRenames (h : a ∉ declared ∧ n ∈ declared ∧ (¬ ∃ v : Uid, names[v]? = some n) ∧ (a, n) ∈ renames) :
    ∃ b, (pendingRenames names declared renames)[a]? = some b := by
  refine ne_none_iff_exists'.1 (getElem?_ofList_ne_none (v := n) (mem_filter.2 ⟨h.2.2.2, ?_⟩))
  refine decide_eq_true ⟨h.1, h.2.1, ?_⟩
  rw [mem_map_snd_toList]
  exact h.2.2.1

theorem leads_of_projectPendingRenames (h : (projectPendingRenames names declared renames)[u]? = some n) :
    ∃ a, names[u]? = some a ∧
      (Leads (· ∈ declared) (fun m => ∃ v : Uid, names[v]? = some m) renames a n ∨ (n = a ∧ a ∉ declared)) := by
  rw [projectPendingRenames, getElem?_map, map_eq_some_iff] at h
  obtain ⟨a, ha, hn⟩ := h
  refine ⟨a, ha, ?_⟩
  cases hp : (pendingRenames names declared renames)[a]? with
  | some b =>
    rw [hp] at hn
    cases hn
    exact .inl (.inr (pendingRenames_eq_some hp))
  | none =>
    rw [hp] at hn
    cases hn
    by_cases hd : a ∈ declared
    · exact .inl (.inl ⟨rfl, hd⟩)
    · exact .inr ⟨rfl, hd⟩

theorem projectPendingRenames_of_leads (ha : names[u]? = some a)
    (hn : Leads (· ∈ declared) (fun m => ∃ v : Uid, names[v]? = some m) renames a n)
    (hone : ∀ m, Leads (· ∈ declared) (fun m => ∃ v : Uid, names[v]? = some m) renames a m → m = n) :
    (projectPendingRenames names declared renames)[u]? = some n := by
  rw [projectPendingRenames, getElem?_map, ha, map_some]
  obtain ⟨rfl, hd⟩ | hn := hn
  · cases hp : (pendingRenames names declared renames)[n]? with
    | none => rfl
    | some b => exact absurd hd (pendingRenames_eq_some hp).1
  · obtain ⟨b, hb⟩ := exists_pendingRenames hn
    rw [hb, getD_some, hone b (.inr (pendingRenames_eq_some hb))]

theorem projectPendingRenames_eq_some (hd : n ∈ declared)
    (hone : ∀ a, names[u]? = some a → ∀ m m', Leads (· ∈ declared) (fun m => ∃ v : Uid, names[v]? = some m) renames a m →
      Leads (· ∈ declared) (fun m => ∃ v : Uid, names[v]? = some m) renames a m' → m = m') :
    (projectPendingRenames names declared renames)[u]? = some n ↔
      ∃ a, names[u]? = some a ∧ Leads (· ∈ declared) (fun m => ∃ v : Uid, names[v]? = some m) renames a n := by
  constructor
  · intro h
    obtain ⟨a, ha, hlead | ⟨rfl, hnot⟩⟩ := leads_of_projectPendingRenames h
    · exact ⟨a, ha, hlead⟩
    · exact absurd hd hnot
  · rintro ⟨a, ha, hlead⟩
    exact projectPendingRenames_of_leads ha hlead fun m hm => hone a ha m n hm hlead

theorem projectPendingRenames_agrees {after : Option N} {declared' : N → Prop} (hkeys : ∀ n, n ∈ declared ↔ declared' n)
    (hafter : ∀ n, after = some n ↔
      ∃ a, names[u]? = some a ∧ Leads declared' (fun m => ∃ v : Uid, names[v]? = some m) renames a n) (hd : declared' n) :
    (projectPendingRenames names declared renames)[u]? = some n ↔ after = some n := by
  have hcongr : ∀ a m, Leads (· ∈ declared) (fun m => ∃ v : Uid, names[v]? = some m) renames a m ↔
      Leads declared' (fun m => ∃ v : Uid, names[v]? = some m) renames a m := fun a m =>
    Leads.congr hkeys (fun _ => Iff.rfl) Iff.rfl
  rw [hafter, projectPendingRenames_eq_some ((hkeys n).2 hd)]
  · simp only [hcongr]
  · intro a ha m m' hm hm'
    have h1 := (hafter m).2 ⟨a, ha, (hcongr a m).1 hm⟩
    have h2 := (hafter m').2 ⟨a, ha, (hcongr a m').1 hm'⟩
    exact some.inj (h1.symm.trans h2)

end Pending

/-! ## The two mappings -/

section Mappings

variable {src : UidSource} {declared : Schema} {intents : List Intent} {ids after : IdsFile} {u : Uid}

section

variable (hled : Led src declared intents ids after)

include hled

theorem tables_agree (hu : ¬ src.Draws u ∨ ∃ t, ids.tables[u]? = some t) {t : TableName} (ht : t ∈ declared.tables) :
    (projectNames ids declared intents).tables[u]? = some t ↔ after.tables[u]? = some t :=
  projectPendingRenames_agrees (fun _ => mem_keys) (hled.tables u hu) ht

theorem declaredTable_agree (hu : ¬ src.Draws u) :
    declaredTable (projectNames ids declared intents) declared u = declaredTable after declared u := by
  refine Option.ext fun p => ?_
  obtain ⟨t, table⟩ := p
  rw [declaredTable_eq_some, declaredTable_eq_some]
  refine and_congr_left fun htable => ?_
  exact tables_agree hled (.inl hu) (mem_of_getElem?_eq htable)

theorem roles_agree (hu : ¬ src.Draws u) :
    ((projectNames ids declared intents).roles[u]?).any declared.roles.contains = (after.roles[u]?).any declared.roles.contains := by
  rw [Bool.eq_iff_iff, any_contains, any_contains]
  refine exists_congr fun n => and_congr_left fun hn => ?_
  exact projectPendingRenames_agrees (fun _ => mem_keys) (hled.roles u hu) hn

theorem types_agree (hu : ¬ src.Draws u) :
    ((projectNames ids declared intents).types[u]?).any declared.types.contains = (after.types[u]?).any declared.types.contains := by
  rw [Bool.eq_iff_iff, any_contains, any_contains]
  refine exists_congr fun n => and_congr_left fun hn => ?_
  exact projectPendingRenames_agrees (fun _ => mem_keys) (hled.types u hu) hn

end

/-! ### Columns -/

variable {c d : ColumnRef}

theorem mem_declaredColumns : c ∈ declaredColumns declared ↔ DeclaresColumn declared c.table c.name := by
  rw [declaredColumns, mem_flatMap]
  constructor
  · rintro ⟨⟨t, table⟩, htable, hc⟩
    obtain ⟨n, hn, rfl⟩ := List.mem_map.1 hc
    exact ⟨table, mem_toList_iff_getElem?_eq_some.1 htable, AList.mem_keys.1 hn⟩
  · rintro ⟨table, htable, hn⟩
    exact ⟨(c.table, table), mem_toList_iff_getElem?_eq_some.2 htable, List.mem_map.2 ⟨c.name, AList.mem_keys.2 hn, rfl⟩⟩

theorem table_eq_of_leads {known : ColumnRef → Prop} {declared' : ColumnRef → Prop}
    (h : Leads declared' known (renamedColumns intents) d c) : d.table = c.table := by
  obtain ⟨rfl, -⟩ | ⟨-, -, -, hmem⟩ := h
  · rfl
  · rw [renamedColumns, mem_filterMap] at hmem
    obtain ⟨i, -, hi⟩ := hmem
    cases i with
    | renameColumn t from_ to_ =>
      cases hi
      rfl
    | _ => cases hi

def followed (ids : IdsFile) (declared : Schema) (intents : List Intent) : ExtTreeMap Uid ColumnRef :=
  ids.columns.map fun _ c => followTable ids (projectNames ids declared intents).tables c

theorem projectNames_columns : (projectNames ids declared intents).columns =
    projectPendingRenames (followed ids declared intents) (declaredColumns declared) (renamedColumns intents) := rfl

variable (hs : Sound src declared intents ids ids) (hled : Led src declared intents ids after)
include hs hled

theorem followed_eq_some (hd : d.table ∈ declared.tables) :
    (followed ids declared intents)[u]? = some d ↔ CarriedColumn declared intents ids u d := by
  rw [followed, getElem?_map, map_eq_some_iff, CarriedColumn]
  refine exists_congr fun c => and_congr_right fun hc => ?_
  obtain ⟨w, hw⟩ := hs.wf.parent u _ _ ((live_column hs.kinds).2 hc) rfl
  have hwt := (live_table hs.kinds).1 hw
  have huid : ids.tableUid c.table = some w := uidOf_of_unique hwt fun v hv =>
    hs.wf.unique v w _ ((live_table hs.kinds).2 hv) hw
  -- The table's uid has a projected name, which is the declared one its own leads to or none of them.
  have hlead : (projectNames ids declared intents).tables[w]? = some d.table ↔ TableLeads declared intents ids c.table d.table := by
    rw [tables_agree hled (.inr ⟨_, hwt⟩) hd, hled.tables w (.inr ⟨_, hwt⟩)]
    constructor
    · rintro ⟨t, ht, h⟩
      rw [hwt] at ht
      cases ht
      exact h
    · exact fun h => ⟨_, hwt, h⟩
  rw [← hlead, followTable, huid, bind_some]
  cases hproj : (projectNames ids declared intents).tables[w]? with
  | none =>
    -- The projection has every uid of the file.
    have : (projectNames ids declared intents).tables[w]? ≠ none := by
      simp only [projectNames, projectPendingRenames, getElem?_map, hwt]
      exact some_ne_none _
    exact absurd hproj this
  | some t =>
    cases d with
    | mk t' n =>
      simp only [some.injEq, ColumnRef.mk.injEq]
      exact and_congr_right fun _ => eq_comm

theorem columns_agree (hu : ¬ src.Draws u) (hown : OwnsColumn declared c.table c.name) :
    (projectNames ids declared intents).columns[u]? = some c ↔ after.columns[u]? = some c := by
  obtain ⟨table, htable, hnone, hname⟩ := hown
  have ht : c.table ∈ declared.tables := mem_of_getElem?_eq htable
  have hdeclares : DeclaresColumn declared c.table c.name := ⟨table, htable, hname⟩
  -- Within a declared table the two readings of a lead are one.
  have hcongr : ∀ {d m : ColumnRef}, m.table = c.table →
      (Leads (· ∈ declaredColumns declared) (fun m => ∃ v : Uid, (followed ids declared intents)[v]? = some m)
        (renamedColumns intents) d m ↔
      Leads (fun c => DeclaresColumn declared c.table c.name) (fun c => ∃ v, CarriedColumn declared intents ids v c)
        (renamedColumns intents) d m) := by
    intro d m hm
    have hknown : (∃ v : Uid, (followed ids declared intents)[v]? = some m) ↔ ∃ v, CarriedColumn declared intents ids v m :=
      exists_congr fun v => followed_eq_some hs hled (hm ▸ ht)
    rw [Leads, Leads, mem_declaredColumns, mem_declaredColumns, hknown]
  rw [projectNames_columns]
  constructor
  · intro h
    obtain ⟨d, hd, hlead | ⟨rfl, hnot⟩⟩ := leads_of_projectPendingRenames h
    · have hdt := table_eq_of_leads hlead
      have hcarried := (followed_eq_some hs hled (hdt ▸ ht)).1 hd
      refine (hled.columns u hu c).2 ⟨⟨table, htable, hnone⟩, d.name, ?_, ?_⟩
      · rw [← hdt]
        exact hcarried
      · rw [← hdt]
        exact (hcongr rfl).1 hlead
    · exact absurd (mem_declaredColumns.2 hdeclares) hnot
  · intro h
    obtain ⟨hcolumns, a, hcarried, hlead⟩ := (hled.columns u hu c).1 h
    have hfollowed : (followed ids declared intents)[u]? = some (c.table.column a) :=
      (followed_eq_some hs hled (d := c.table.column a) ht).2 hcarried
    refine projectPendingRenames_of_leads hfollowed ((hcongr rfl).2 hlead) fun m hm => ?_
    have hmt : (c.table.column a).table = m.table := table_eq_of_leads hm
    change c.table = m.table at hmt
    have hm' := (hcongr hmt.symm).1 hm
    have hafter : after.columns[u]? = some m := by
      rw [hmt] at hcolumns hcarried hm'
      exact (hled.columns u hu m).2 ⟨hcolumns, a, hcarried, hm'⟩
    rw [h] at hafter
    exact (some.inj hafter).symm

theorem present_after (hu : ¬ src.Draws u) : (after.columns[u]?).any (fun c => declaresColumn declared c.table c.name) = true ↔
      ∃ c, (projectNames ids declared intents).columns[u]? = some c ∧ OwnsColumn declared c.table c.name := by
  rw [any_eq_true]
  constructor
  · rintro ⟨c, hc, -⟩
    obtain ⟨⟨table, htable, hnone⟩, a, -, hlead⟩ := (hled.columns u hu c).1 hc
    obtain ⟨table', htable', hname⟩ := hlead.declared
    rw [htable] at htable'
    cases htable'
    have hown : OwnsColumn declared c.table c.name := ⟨table, htable, hnone, hname⟩
    exact ⟨c, (columns_agree hs hled hu hown).2 hc, hown⟩
  · rintro ⟨c, hc, hown⟩
    refine ⟨c, (columns_agree hs hled hu hown).1 hc, ?_⟩
    obtain ⟨table, htable, -, hname⟩ := hown
    exact declaresColumn_eq_true.2 ⟨table, htable, hname⟩

end Mappings

/-! ## Members of the inventory -/

section Members

variable {baseline : Side} {names : IdsFile} {schema : Schema}

variable {e : Uid × ColumnRef} {x : Removal} {u : Uid}

theorem eq_of_mem_removedComputed {e : Uid × TableName} (h : x ∈ removedComputed baseline names schema e) :
    ∃ c, x = .computedColumn c := by
  unfold removedComputed at h
  split at h
  · cases h
  · split at h
    · cases h
    · obtain ⟨column, -, rfl⟩ := List.mem_map.1 h
      exact ⟨_, rfl⟩

theorem eq_of_removedColumn (h : removedColumn baseline names schema e = some x) : ∃ c, x = .column e.1 c := by
  unfold removedColumn at h
  split at h
  · cases h
    exact ⟨_, rfl⟩
  · cases h

theorem removedColumn_isSome : (removedColumn baseline names schema e).isSome = true ↔
    looksFor baseline names schema e.2 = true ∧
      (names.columns[e.1]?).any (fun c => declaresColumn schema c.table c.name) = false := by
  unfold removedColumn
  split
  · next h => simpa using h
  · next h => simpa using h

theorem extension_mem_removalsOf {n : ObjectLocalName} :
    .extension u n ∈ removalsOf baseline names schema ↔ (u, n) ∈ removedExtensions baseline names := by
  simp only [removalsOf, List.mem_append]
  constructor
  · rintro (((((h | h) | h) | h) | h) | h)
    · obtain ⟨e, -, heq⟩ := List.mem_map.1 h
      cases heq
    · obtain ⟨e, -, heq⟩ := mem_filterMap.1 h
      obtain ⟨c, heq⟩ := eq_of_removedColumn heq
      cases heq
    · obtain ⟨e, -, he⟩ := mem_flatMap.1 h
      obtain ⟨c, heq⟩ := eq_of_mem_removedComputed he
      cases heq
    · obtain ⟨e, -, heq⟩ := List.mem_map.1 h
      cases heq
    · obtain ⟨e, he, heq⟩ := List.mem_map.1 h
      cases heq
      exact he
    · obtain ⟨e, -, heq⟩ := List.mem_map.1 h
      cases heq
  · intro h
    exact .inl (.inr (List.mem_map.2 ⟨_, h, rfl⟩))

theorem column_mem_removalsOf {d : ColumnRef} : .column u d ∈ removalsOf baseline names schema ↔
    ∃ c, baseline.ids.columns[u]? = some c ∧ removedColumn baseline names schema (u, c) = some (.column u d) := by
  simp only [removalsOf, List.mem_append]
  constructor
  · rintro (((((h | h) | h) | h) | h) | h)
    · obtain ⟨e, -, heq⟩ := List.mem_map.1 h
      cases heq
    · obtain ⟨⟨v, c⟩, he, heq⟩ := mem_filterMap.1 h
      obtain ⟨d', hd'⟩ := eq_of_removedColumn heq
      cases hd'
      exact ⟨c, mem_toList_iff_getElem?_eq_some.1 he, heq⟩
    · obtain ⟨e, -, he⟩ := mem_flatMap.1 h
      obtain ⟨c, heq⟩ := eq_of_mem_removedComputed he
      cases heq
    · obtain ⟨e, -, heq⟩ := List.mem_map.1 h
      cases heq
    · obtain ⟨e, -, heq⟩ := List.mem_map.1 h
      cases heq
    · obtain ⟨e, -, heq⟩ := List.mem_map.1 h
      cases heq
  · rintro ⟨c, hc, h⟩
    refine .inl (.inl (.inl (.inl (.inr (mem_filterMap.2 ⟨(u, c), ?_, h⟩)))))
    exact mem_toList_iff_getElem?_eq_some.2 hc

end Members

/-! ## The two inventories -/

section Inventories

variable {src : UidSource} {declared : Schema} {intents : List Intent} {ids after : IdsFile} {baseline : Side}

/-- What the two readings could still tell apart: no extension of the baseline is in the project's mapping and not declared,
and no column looked for is one that a partition declares. -/
structure NothingApart (baseline : Side) (ids : IdsFile) (declared : Schema) (intents : List Intent) : Prop where
  extensions : ∀ (u : Uid) n m, baseline.ids.extensions[u]? = some n → n ∈ baseline.schema.extensions →
    ids.extensions[u]? = some m → m ∈ declared.extensions
  columns : ∀ (u : Uid) c c' table, baseline.ids.columns[u]? = some c →
    looksFor baseline (projectNames ids declared intents) declared c = true →
    (projectNames ids declared intents).columns[u]? = some c' → declared.tables[c'.table]? = some table →
    c'.name ∈ table.columns → table.partitionOf = none

/-- No uid of the file is one that the generator draws. -/
structure Undrawn (src : UidSource) (ids : IdsFile) : Prop where
  tables : ∀ u ∈ ids.tables, ¬ src.Draws u
  columns : ∀ u ∈ ids.columns, ¬ src.Draws u
  roles : ∀ u ∈ ids.roles, ¬ src.Draws u
  types : ∀ u ∈ ids.types, ¬ src.Draws u
  extensions : ∀ u ∈ ids.extensions, ¬ src.Draws u

variable (hled : Led src declared intents ids after) (hfresh : Undrawn src baseline.ids)

include hled hfresh

variable {e : Uid × TableName}

theorem declaredTable_agree_of_mem (he : e ∈ baseline.ids.tables.toList) :
    declaredTable (projectNames ids declared intents) declared e.1 = declaredTable after declared e.1 :=
  declaredTable_agree hled (hfresh.tables e.1 (mem_of_getElem?_eq (mem_toList_iff_getElem?_eq_some.1 he)))

theorem removedTables_agree :
    removedTables baseline (projectNames ids declared intents) declared = removedTables baseline after declared := by
  refine filter_congr fun e he => ?_
  rw [declaredTable_agree_of_mem hled hfresh he]

theorem declaredTables_agree :
    declaredTables baseline (projectNames ids declared intents) declared = declaredTables baseline after declared := by
  unfold declaredTables
  congr 1
  refine List.filterMap_congr fun e he => ?_
  rw [declaredTable_agree_of_mem hled hfresh he]

theorem looksFor_agree (c : ColumnRef) :
    looksFor baseline (projectNames ids declared intents) declared c = looksFor baseline after declared c := by
  rw [looksFor, looksFor, declaredTables_agree hled hfresh, removedTables_agree hled hfresh]

theorem removedComputed_agree (he : e ∈ baseline.ids.tables.toList) :
    removedComputed baseline (projectNames ids declared intents) declared e = removedComputed baseline after declared e := by
  rw [removedComputed, removedComputed, removedTables_agree hled hfresh, declaredTable_agree_of_mem hled hfresh he]
  split
  · rfl
  · next hkept =>
    split
    · rfl
    · next table htable =>
      -- A table that is kept is declared, under one name in both mappings.
      cases hd : declaredTable after declared e.1 with
      | none =>
        refine absurd (List.mem_map.2 ⟨e, mem_removedTables.2 ⟨?_, ?_, hd⟩, rfl⟩) hkept
        · exact mem_toList_iff_getElem?_eq_some.1 he
        · exact mem_of_getElem?_eq htable
      | some p =>
        have hbefore := declaredTable_agree_of_mem hled hfresh he
        rw [hd] at hbefore
        rw [(declaredTable_eq_some.1 hbefore).1, (declaredTable_eq_some.1 hd).1]

theorem removedRoles_agree :
    removedRoles baseline (projectNames ids declared intents) declared = removedRoles baseline after declared := by
  refine filter_congr fun e he => ?_
  rw [roles_agree hled (hfresh.roles e.1 (mem_of_getElem?_eq (mem_toList_iff_getElem?_eq_some.1 he)))]

theorem removedTypes_agree :
    removedTypes baseline (projectNames ids declared intents) declared = removedTypes baseline after declared := by
  refine filter_congr fun e he => ?_
  rw [types_agree hled (hfresh.types e.1 (mem_of_getElem?_eq (mem_toList_iff_getElem?_eq_some.1 he)))]

theorem removalsOf_agree (hs : Sound src declared intents ids ids) (h : NothingApart baseline ids declared intents) :
    removalsOf baseline (projectNames ids declared intents) declared = removalsOf baseline after declared := by
  have hextensions : removedExtensions baseline (projectNames ids declared intents) = removedExtensions baseline after := by
    refine filter_congr fun e he => ?_
    have hu := mem_toList_iff_getElem?_eq_some.1 he
    by_cases hheld : e.2 ∈ baseline.schema.extensions
    · have hsame : ids.extensions.contains e.1 = after.extensions.contains e.1 := by
        rw [Bool.eq_iff_iff, contains_iff_exists, contains_iff_exists]
        refine exists_congr fun m => ?_
        rw [hled.extensions e.1 (hfresh.extensions e.1 (mem_of_getElem?_eq hu)) m]
        exact ⟨fun hm => ⟨hm, h.extensions e.1 e.2 m hu hheld hm⟩, And.left⟩
      show (_ && !ids.extensions.contains e.1) = _
      rw [hsame]
    · have hnot : baseline.schema.extensions.contains e.2 = false := by
        rwa [Bool.eq_false_iff, ne_eq, contains_iff_mem]
      rw [hnot, Bool.false_and, Bool.false_and]
  have hcolumns : ∀ e ∈ baseline.ids.columns.toList, removedColumn baseline (projectNames ids declared intents) declared e =
      removedColumn baseline after declared e := by
    intro e he
    have hu := mem_toList_iff_getElem?_eq_some.1 he
    rw [removedColumn, removedColumn, looksFor_agree hled hfresh, declaredTables_agree hled hfresh]
    cases hlooks : looksFor baseline after declared e.2 with
    | false => rfl
    | true =>
      have hsame : ((projectNames ids declared intents).columns[e.1]?).any (fun c => declaresColumn declared c.table c.name) =
          (after.columns[e.1]?).any (fun c => declaresColumn declared c.table c.name) := by
        rw [Bool.eq_iff_iff, present_after hs hled (hfresh.columns e.1 (mem_of_getElem?_eq hu)), any_eq_true]
        refine exists_congr fun c => and_congr_right fun hc => ?_
        rw [declaresColumn_eq_true]
        refine exists_congr fun table => and_congr_right fun htable => ?_
        refine ⟨fun hname => ⟨?_, hname⟩, And.right⟩
        exact h.columns e.1 e.2 c table hu ((looksFor_agree hled hfresh e.2).trans hlooks) hc htable hname
      rw [hsame]
  rw [removalsOf, removalsOf, removedTables_agree hled hfresh, List.filterMap_congr hcolumns,
    List.flatMap_congr fun e he => removedComputed_agree hled hfresh he, removedRoles_agree hled hfresh, hextensions,
    removedTypes_agree hled hfresh]

end Inventories

section Result

variable {src : UidSource} {declared : Schema} {intents : List Intent} {ids : IdsFile} {baseline : Side} {k : Nat} {ctx : Context}
  {r : Resolution}

/-- The inventory asked before a resolution, with the intents, and after it, of what it left, report the same removals just
when nothing is apart. -/
theorem inventory_agrees_iff (hv : ids.validate = .ok ()) (h : resolveWithAnnotations src declared ids intents k ctx = .ok r)
    (hfresh : Undrawn src baseline.ids) :
    (∀ x, x ∈ inventory baseline ids declared intents ↔ x ∈ inventory baseline r.ids declared []) ↔
      NothingApart baseline ids declared intents := by
  have hs : Sound src declared intents ids ids := Sound.start (validate_eq_ok.1 hv)
  have hled := resolve_led hv h
  rw [inventory, inventory, projectNames_nil]
  constructor
  · intro hsame
    constructor
    · intro u n m hu hheld hm
      have hundrawn := hfresh.extensions u (mem_of_getElem?_eq hu)
      by_contra hnot
      -- After the resolution the mapping has lost the extension, and before it had it.
      have hafter : Removal.extension u n ∈ removalsOf baseline r.ids declared := by
        rw [extension_mem_removalsOf, removedExtensions, mem_filter]
        refine ⟨mem_toList_iff_getElem?_eq_some.2 hu, ?_⟩
        rw [Bool.and_eq_true, contains_iff_mem, Bool.not_eq_true', Bool.eq_false_iff, ne_eq,
          contains_iff_exists]
        refine ⟨hheld, ?_⟩
        rintro ⟨m', hm'⟩
        obtain ⟨hm', hdeclared⟩ := (hled.extensions u hundrawn m').1 hm'
        rw [hm] at hm'
        cases hm'
        exact hnot hdeclared
      have hbefore := extension_mem_removalsOf.1 ((hsame _).2 hafter)
      have hlost := (mem_filter.1 hbefore).2
      rw [Bool.and_eq_true, Bool.not_eq_true'] at hlost
      have hin : ids.extensions.contains u = true := contains_iff_exists.2 ⟨m, hm⟩
      exact Bool.false_ne_true (hlost.2.symm.trans hin)
    · intro u c c' table hu hlooks hc' htable hname
      have hundrawn := hfresh.columns u (mem_of_getElem?_eq hu)
      by_contra hpart
      have habsent : (r.ids.columns[u]?).any (fun c => declaresColumn declared c.table c.name) = false := by
        rw [Bool.eq_false_iff, ne_eq, present_after hs hled hundrawn]
        rintro ⟨c'', hc'', table', htable', hnone, -⟩
        rw [hc'] at hc''
        cases hc''
        rw [htable] at htable'
        cases htable'
        exact hpart hnone
      obtain ⟨x, hx⟩ := isSome_iff_exists.1
        ((removedColumn_isSome (e := (u, c))).2 ⟨(looksFor_agree hled hfresh c).symm.trans hlooks, habsent⟩)
      obtain ⟨d, rfl⟩ := eq_of_removedColumn hx
      obtain ⟨c₂, hc₂, hbefore⟩ := column_mem_removalsOf.1 ((hsame _).2 (column_mem_removalsOf.2 ⟨c, hu, hx⟩))
      have hgone := ((removedColumn_isSome (e := (u, c₂))).1 (isSome_iff_exists.2 ⟨_, hbefore⟩)).2
      rw [hc'] at hgone
      have hdeclares : declaresColumn declared c'.table c'.name = true := declaresColumn_eq_true.2 ⟨table, htable, hname⟩
      exact Bool.false_ne_true (hgone.symm.trans hdeclares)
  · intro hapart x
    rw [removalsOf_agree hled hfresh hs hapart]

theorem longSource_draws {u : Uid} (h : longSource.Draws u) : (u.text.toList.drop 2).all (· = '0') = true := by
  obtain ⟨ids, kind, rfl⟩ := h
  cases kind <;> simp [longSource, UidKind.prefixText]

/-! ### A table dropped with a reason, and an extension -/

theorem usersIds_undrawn : Undrawn longSource Retired.usersIds := by
  refine ⟨fun u hu hdraws => ?_, fun u hu => ?_, fun u hu => ?_, fun u hu => ?_, fun u hu => ?_⟩
  · have hkeys : u ∈ Retired.usersIds.tables.keys := mem_keys.2 hu
    have hall : ∀ v ∈ Retired.usersIds.tables.keys, (v.text.toList.drop 2).all (· = '0') = false := by decide
    exact Bool.false_ne_true ((hall u hkeys).symm.trans (longSource_draws hdraws))
  · exact absurd hu not_mem_empty
  · exact absurd hu not_mem_empty
  · exact absurd hu not_mem_empty
  · exact absurd hu not_mem_empty

/-- A table dropped with a reason is the same removal before and after. -/
theorem usersTable_agrees : ∃ r, resolveWithAnnotations longSource {} Retired.usersIds [.dropTable Retired.usersTable "unused"] 0
    opsContext = .ok r ∧ ∀ x, x ∈ inventory Retired.usersBaseline Retired.usersIds {} [.dropTable Retired.usersTable "unused"] ↔
      x ∈ inventory Retired.usersBaseline r.ids {} [] := by
  obtain ⟨r, hr, -⟩ := exists_of_toOption (x := resolveWithAnnotations longSource {} Retired.usersIds
    [.dropTable Retired.usersTable "unused"] 0 opsContext) (f := fun _ => ()) (b := ()) (by decide)
  refine ⟨r, hr, (inventory_agrees_iff (by decide) hr usersIds_undrawn).2 ⟨fun u n m hu => ?_, fun u c c' table hu => ?_⟩⟩
  · exact absurd (mem_of_getElem?_eq hu) not_mem_empty
  · exact absurd (mem_of_getElem?_eq hu) not_mem_empty

namespace Package

def packageIds : IdsFile where
  extensions := (∅ : ExtTreeMap Uid ObjectLocalName).insert ⟨"e_postgis"⟩ "postgis"

def packageBaseline : Side where
  schema := { extensions := (∅ : ExtTreeMap ObjectLocalName Extension).insert "postgis" ⟨"public", "3.4"⟩ }
  ids := packageIds

theorem packageIds_undrawn : Undrawn longSource packageIds := by
  refine ⟨fun u hu => ?_, fun u hu => ?_, fun u hu => ?_, fun u hu => ?_, fun u hu hdraws => ?_⟩
  · exact absurd hu not_mem_empty
  · exact absurd hu not_mem_empty
  · exact absurd hu not_mem_empty
  · exact absurd hu not_mem_empty
  · have hkeys : u ∈ packageIds.extensions.keys := mem_keys.2 hu
    have hall : ∀ v ∈ packageIds.extensions.keys, (v.text.toList.drop 2).all (· = '0') = false := by decide
    exact Bool.false_ne_true ((hall u hkeys).symm.trans (longSource_draws hdraws))

/-- An extension dropped with a reason is no removal before the resolution and one after it. -/
theorem package_disagrees : packageIds.validate = .ok () ∧ Undrawn longSource packageBaseline.ids ∧
    ∃ r, resolveWithBaseline longSource {} packageIds [.dropExtension "postgis" "unused"] 0 packageBaseline opsContext = .ok r ∧
      ¬ ∀ x, x ∈ inventory packageBaseline packageIds {} [.dropExtension "postgis" "unused"] ↔
        x ∈ inventory packageBaseline r.ids {} [] := by
  refine ⟨by decide, packageIds_undrawn, ?_⟩
  obtain ⟨r, hr, hafter⟩ := exists_of_toOption (x := resolveWithBaseline longSource {} packageIds
    [.dropExtension "postgis" "unused"] 0 packageBaseline opsContext) (f := fun r : Resolution => inventory packageBaseline r.ids {} [])
    (b := [.extension ⟨"e_postgis"⟩ "postgis"]) (by decide)
  have hbefore : inventory packageBaseline packageIds {} [.dropExtension "postgis" "unused"] = [] := by decide
  refine ⟨r, hr, fun h => ?_⟩
  have hmem := (h (.extension ⟨"e_postgis"⟩ "postgis")).2 (by rw [hafter]; exact List.mem_singleton.2 rfl)
  rw [hbefore] at hmem
  cases hmem

end Package

end Result

end Pbps.Identity
