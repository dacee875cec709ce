/-
What each edit of a resolution does to the registry, and that it keeps `Sound`: a name changed,
retired, forgotten or minted in one section, and a table renamed or dropped together with its
columns.
-/
import Pbps.Identity.State

namespace Pbps.Identity

open Std (ExtTreeMap ExtTreeSet)
open Std.ExtTreeMap

variable {src : UidSource} {declared : Schema} {intents : List Intent} {ids₀ ids : IdsFile}

/-! ## One section -/

section Section

variable {N : Type} {sec : Section N}

def replace (a b o : Obj) : Obj := if o = a then b else o

variable {uid : Uid} {n : N}

theorem live_eq_none_of_not_contained (h : ids.containsUid uid = false) : live ids uid = none := by
  simp only [IdsFile.containsUid, Bool.or_eq_false_iff] at h
  obtain ⟨⟨⟨⟨⟨h1, h2⟩, h3⟩, h4⟩, h5⟩, -⟩ := h
  unfold live
  split <;> simp only [Option.map_eq_none_iff, getElem?_eq_none_iff, ← contains_iff_mem,
    Bool.not_eq_true] <;> assumption

theorem down_eq {a : Obj} (hnt : ∀ t, a ≠ .table t) (o p : Obj) (hp : o.parent = some p) (h : p = a) : o = a := by
  cases o <;> simp only [Obj.parent, reduceCtorEq, Option.some.injEq] at hp
  subst hp; exact absurd h.symm (hnt _)

variable (law : sec.Lawful) (hs : Sound src declared intents ids₀ ids)

include law hs

/-- An edit of one section leaves the rest of the file as it was. -/
theorem Sound.set {m : ExtTreeMap Uid N} (hkinds : Kinds (sec.set ids m)) (hwf : Registry.Wf Obj.parent (registry (sec.set ids m)))
    (haccounts : Registry.Accounts (Reach declared intents ids₀) (Dropped declared intents ids₀)
      (Forgotten declared intents ids₀) src.Draws (registry ids₀) (registry (sec.set ids m)))
    (hmoves : ∀ u t, live ids u = some (.table t) → ∃ t', live (sec.set ids m) u = some (.table t')) :
    Sound src declared intents ids₀ (sec.set ids m) := by
  refine ⟨hkinds, hwf, haccounts, ?_, ?_, ?_, ?_, ?_, ?_⟩
  · rw [law.tombstones_set]; exact hs.tombstones
  · rw [law.tombstones_set]; exact hs.requires
  · intro u hm
    rw [law.moves_set] at hm
    obtain ⟨t, ht⟩ := hs.moves u hm
    exact hmoves u t ht
  · rw [law.version_set]; exact hs.version
  · rw [law.rebuilds_set]; exact hs.rebuilds
  · rw [law.conversions_set]; exact hs.conversions

theorem registry_rename {from_ : N} (hu : (sec.get ids)[uid]? = some from_) (to_ : N) : registry (sec.set ids ((sec.get ids).insert uid to_)) =
      (registry ids).relabel (replace (sec.obj from_) (sec.obj to_)) := by
  have hl := (law.live_eq_some hs.kinds).2 hu
  have hk : uid.kind = sec.kind := (live_kind hl).trans (law.kind_obj from_)
  unfold registry Registry.State.relabel
  simp only [law.tombstones_set, Registry.State.mk.injEq, and_true]
  funext u
  rw [law.live_insert hk]
  by_cases h : u = uid
  · subst h; simp [hl, replace]
  · rw [if_neg h]
    cases ho : live ids u with
    | none => rfl
    | some o =>
      have : o ≠ sec.obj from_ := by rintro rfl; exact h (hs.wf.unique u uid _ ho hl)
      simp [replace, this]

/-- A rename keeps a sound file sound, where the new name is free and reached. -/
theorem Sound.rename {from_ to_ : N} (hu : (sec.get ids)[uid]? = some from_) (hto : ∀ u, live ids u ≠ some (sec.obj to_))
    (hpar : (sec.obj to_).parent = (sec.obj from_).parent) (hnt : ∀ t, sec.obj from_ ≠ .table t)
    (hreach : ∀ o, Reach declared intents ids₀ o (sec.obj from_) → Reach declared intents ids₀ o (sec.obj to_)) :
    Sound src declared intents ids₀ (sec.set ids ((sec.get ids).insert uid to_)) := by
  have hl := (law.live_eq_some hs.kinds).2 hu
  have hk : uid.kind = sec.kind := (live_kind hl).trans (law.kind_obj from_)
  have hreg := registry_rename law hs hu to_
  have hparent : ∀ o p : Obj, o.parent = some p → replace (sec.obj from_) (sec.obj to_) p = p := by
    intro o p hp
    cases o <;> simp only [Obj.parent, reduceCtorEq, Option.some.injEq] at hp
    subst hp
    exact if_neg fun h => hnt _ h.symm
  refine hs.set law (law.kinds_insert hs.kinds to_ hk) ?_ ?_ fun u t ht => ?_
  · rw [hreg]
    refine hs.wf.relabel (fun a ha b hb hab => ?_) fun o _ => ?_
    · obtain ⟨u, hua⟩ := ha
      obtain ⟨v, hvb⟩ := hb
      unfold replace at hab
      split at hab <;> split at hab
      · simp_all
      · subst hab; exact absurd hvb (hto v)
      · subst hab; exact absurd hua (hto u)
      · exact hab
    · by_cases ho : o = sec.obj from_
      · subst ho
        rw [show replace (sec.obj from_) (sec.obj to_) (sec.obj from_) = sec.obj to_ from if_pos rfl, hpar]
        cases hp : (sec.obj from_).parent with
        | none => rfl
        | some p => simp [hparent _ p hp]
      · rw [show replace (sec.obj from_) (sec.obj to_) o = o from if_neg ho]
        cases hp : o.parent with
        | none => rfl
        | some p => simp [hparent _ p hp]
  · rw [hreg]
    refine hs.accounts.relabel fun o o' h _ => ?_
    unfold replace
    split
    · rename_i he; subst he; exact hreach o h
    · exact h
  · have : u ≠ uid := by rintro rfl; rw [hl] at ht; exact hnt t (Option.some.inj ht)
    exact ⟨t, by rw [law.live_insert hk, if_neg this]; exact ht⟩

theorem Sound.mint (hk : uid.kind = sec.kind)
    (hfresh : ids.containsUid uid = false) (hdrawn : src.Draws uid) (hn : ∀ u, live ids u ≠ some (sec.obj n))
    (hpar : ∀ p, (sec.obj n).parent = some p → ∃ u, live ids u = some p) :
    Sound src declared intents ids₀ (sec.set ids ((sec.get ids).insert uid n)) ∧ live ids uid = none := by
  have hl := live_eq_none_of_not_contained hfresh
  have h6 : ids.tombstones.contains uid = false := by
    simp only [IdsFile.containsUid, Bool.or_eq_false_iff] at hfresh
    exact hfresh.2
  have hreg : registry (sec.set ids ((sec.get ids).insert uid n)) = (registry ids).mint uid (sec.obj n) := by
    unfold registry Registry.State.mint
    simp only [law.tombstones_set, Registry.State.mk.injEq, and_true]
    funext u
    exact law.live_insert hk u
  refine ⟨hs.set law (law.kinds_insert hs.kinds n hk) ?_ ?_ fun u t ht => ?_, hl⟩
  · rw [hreg]
    refine hs.wf.mint (by simp only [registry, h6]; exact Bool.false_ne_true) hl (fun ⟨u, h⟩ => hn u h) hpar
  · rw [hreg]; exact hs.accounts.mint hl hdrawn
  · have : u ≠ uid := by rintro rfl; rw [hl] at ht; cases ht
    exact ⟨t, by rw [law.live_insert hk, if_neg this]; exact ht⟩

theorem live_erase_filter (hu : (sec.get ids)[uid]? = some n)
    (u : Uid) : live (sec.set ids ((sec.get ids).erase uid)) u = (live ids u).filter fun o => ¬ o = sec.obj n := by
  have hl := (law.live_eq_some hs.kinds).2 hu
  have hk : uid.kind = sec.kind := (live_kind hl).trans (law.kind_obj n)
  rw [law.live_erase hk]
  by_cases h : u = uid
  · subst h; simp [hl, Option.filter]
  · rw [if_neg h]
    cases ho : live ids u with
    | none => rfl
    | some o =>
      have : o ≠ sec.obj n := by rintro rfl; exact h (hs.wf.unique u uid _ ho hl)
      simp [this, Option.filter]

theorem exists_table_of_erase (hu : (sec.get ids)[uid]? = some n) (hnt : ∀ t, sec.obj n ≠ .table t) {u : Uid} {t : TableName}
    (ht : live ids u = some (.table t)) : ∃ t', live (sec.set ids ((sec.get ids).erase uid)) u = some (.table t') := by
  refine ⟨t, (live_erase_filter law hs hu u).trans ?_⟩
  rw [ht]; simp [Option.filter, (hnt t).symm]

omit law in
theorem tombstones_insert {o : Obj} (hl : live ids uid = some o) (t : Tombstone)
    {u : Uid} {t' : Tombstone} (h : ids.tombstones[u]? = some t') : (ids.tombstones.insert uid t)[u]? = some t' := by
  have hne : u ≠ uid := by
    rintro rfl
    have : (registry ids).dead u := by
      simp only [registry, contains_iff_mem, mem_iff_isSome_getElem?, h]; rfl
    have := hs.wf.apart u this
    rw [show (registry ids).live u = live ids u from rfl, hl] at this
    cases this
  have : compare uid u ≠ .eq := fun hc => hne (Std.LawfulEqOrd.eq_of_compare hc).symm
  rw [getElem?_insert, if_neg this, h]

omit law in
theorem requires_insert {t : Tombstone} (ht : t.require = none) {u : Uid}
    {t' : Tombstone} (h : (ids.tombstones.insert uid t)[u]? = some t') : ids₀.tombstones[u]? = some t' ∨ t'.require = none := by
  rw [getElem?_insert] at h
  split at h
  · cases h; exact Or.inr ht
  · exact hs.requires u t' h

theorem Sound.retire {t : Tombstone}
    (hu : (sec.get ids)[uid]? = some n) (hnt : ∀ t, sec.obj n ≠ .table t) (ht : t.require = none)
    (hdrop : ∀ o, Reach declared intents ids₀ o (sec.obj n) → Dropped declared intents ids₀ o) :
    Sound src declared intents ids₀
      { sec.set ids ((sec.get ids).erase uid) with tombstones := ids.tombstones.insert uid t } := by
  have hl := (law.live_eq_some hs.kinds).2 hu
  have hlive := live_erase_filter law hs hu
  have hreg : registry { sec.set ids ((sec.get ids).erase uid) with tombstones := ids.tombstones.insert uid t } =
      (registry ids).retire (· = sec.obj n) := by
    unfold registry Registry.State.retire
    simp only [Registry.State.mk.injEq]
    refine ⟨funext hlive, funext fun u => ?_⟩
    rw [contains_insert, Bool.or_eq_true, beq_iff_eq, propext Std.LawfulEqOrd.compare_eq_iff_eq,
      or_comm]
    refine propext (or_congr Iff.rfl ⟨?_, ?_⟩)
    · rintro rfl; exact ⟨_, hl, rfl⟩
    · rintro ⟨o, ho, rfl⟩; exact hs.wf.unique uid u _ hl ho
  have hkinds := law.kinds_erase hs.kinds uid
  refine ⟨⟨hkinds.tables, hkinds.columns, hkinds.roles, hkinds.types, hkinds.extensions⟩, ?_, ?_, ?_, ?_, ?_, ?_, ?_, ?_⟩
  · rw [hreg]; exact hs.wf.retire (down_eq hnt)
  · rw [hreg]; exact hs.accounts.retire fun o o' h he => hdrop o (he ▸ h)
  · exact fun u t' h => tombstones_insert hs hl t (hs.tombstones u t' h)
  · exact fun u t' h => requires_insert hs ht h
  · intro u hm
    rw [law.moves_set] at hm
    obtain ⟨t, ht⟩ := hs.moves u hm
    exact exists_table_of_erase law hs hu hnt ht
  · exact (law.version_set _ _).trans hs.version
  · exact (law.rebuilds_set _ _).trans hs.rebuilds
  · exact (law.conversions_set _ _).trans hs.conversions

theorem Sound.forget (hu : (sec.get ids)[uid]? = some n) (hnt : ∀ t, sec.obj n ≠ .table t)
    (hforget : ∀ o, Reach declared intents ids₀ o (sec.obj n) → Forgotten declared intents ids₀ o) :
    Sound src declared intents ids₀ (sec.set ids ((sec.get ids).erase uid)) := by
  have hlive := live_erase_filter law hs hu
  have hreg : registry (sec.set ids ((sec.get ids).erase uid)) = (registry ids).forget (· = sec.obj n) := by
    unfold registry Registry.State.forget
    simp only [law.tombstones_set, Registry.State.mk.injEq, and_true]
    exact funext hlive
  refine hs.set law (law.kinds_erase hs.kinds uid) ?_ ?_ fun u t ht => exists_table_of_erase law hs hu hnt ht
  · rw [hreg]; exact hs.wf.forget (down_eq hnt)
  · rw [hreg]; exact hs.accounts.forget hs.wf fun o o' h he => hforget o (he ▸ h)

end Section

/-! ## Tables -/

variable {u uid : Uid} {t from_ to_ : TableName}

theorem live_table (hk : Kinds ids) :
    live ids u = some (.table t) ↔ ids.tables[u]? = some t := tableSection_lawful.live_eq_some hk

theorem live_column (hk : Kinds ids) {c : ColumnRef} :
    live ids u = some (.column c) ↔ ids.columns[u]? = some c := columnSection_lawful.live_eq_some hk

section

variable (hs : Sound src declared intents ids₀ ids)
include hs

theorem registry_renameTable (hu : ids.tables[uid]? = some from_) (to_ : TableName) :
    registry (renameTableInIds ids uid from_ to_) = (registry ids).relabel (Obj.moveTable from_ to_) := by
  have hk : uid.kind = .table := hs.kinds.tables uid (mem_of_getElem?_eq hu)
  unfold registry Registry.State.relabel
  simp only [renameTableInIds, Registry.State.mk.injEq, and_true]
  funext u
  unfold live
  cases hku : u.kind with
  | table =>
    simp only
    by_cases h : u = uid
    · subst h; simp [hu, Obj.moveTable]
    · rw [getElem?_insert_of_ne h]
      cases ht : ids.tables[u]? with
      | none => rfl
      | some t =>
        have : t ≠ from_ := by
          rintro rfl
          exact h (hs.wf.unique u uid _ ((live_table hs.kinds).2 ht) ((live_table hs.kinds).2 hu))
        simp [Obj.moveTable, this]
  | column =>
    simp only [getElem?_map, Option.map_map]
    cases ids.columns[u]? <;> simp [Obj.moveTable]
  | extension => cases ids.extensions[u]? <;> simp [Obj.moveTable]
  | type => cases ids.types[u]? <;> simp [Obj.moveTable]
  | role => cases ids.roles[u]? <;> simp [Obj.moveTable]

theorem no_column_under (ht : ∀ u, live ids u ≠ some (.table t)) {c : ColumnRef} (hc : live ids u = some (.column c)) :
    c.table ≠ t := by
  rintro rfl
  obtain ⟨v, hv⟩ := hs.wf.parent u _ _ hc rfl
  exact ht v hv

theorem moveTable_injOn (hto : ∀ u, live ids u ≠ some (.table to_)) :
    Set.InjOn (Obj.moveTable from_ to_) (registry ids).objects := by
  rintro a ⟨u, ha⟩ b ⟨v, hb⟩ hab
  change live ids u = some a at ha
  change live ids v = some b at hb
  cases a <;> cases b <;> simp only [Obj.moveTable, reduceCtorEq, Obj.table.injEq, Obj.column.injEq] at hab ⊢ <;>
    try exact hab
  · rename_i s t
    split at hab <;> split at hab
    · simp_all
    · subst hab; exact absurd hb (hto v)
    · subst hab; exact absurd ha (hto u)
    · exact hab
  · rename_i c d
    have hc := no_column_under hs hto ha
    have hd := no_column_under hs hto hb
    split at hab <;> split at hab
    · cases c; cases d; simp_all [TableName.column]
    · subst hab; exact absurd rfl hd
    · subst hab; exact absurd rfl hc
    · exact hab

end

theorem parent_moveTable (from_ to_ : TableName) (o : Obj) :
    (Obj.moveTable from_ to_ o).parent = o.parent.map (Obj.moveTable from_ to_) := by
  cases o <;> simp only [Obj.moveTable, Obj.parent, Option.map_none, Option.map_some]
  split <;> rfl

theorem tableReach_trans (hf : from_ ∉ declared.tables) (ht : to_ ∈ declared.tables)
    (hnew : ∀ u : Uid, ids₀.tables[u]? ≠ some to_) (hi : .renameTable from_ to_ ∈ intents)
    (h : TableReach declared intents ids₀ t from_) : TableReach declared intents ids₀ t to_ ∧ from_ = t := by
  rcases h with rfl | ⟨-, h, -⟩
  · exact ⟨Or.inr ⟨hf, ht, hnew, hi⟩, rfl⟩
  · exact absurd h hf

theorem Sound.renameTable (hs : Sound src declared intents ids₀ ids) (hu : ids.tables[uid]? = some from_)
    (hto : ∀ u, live ids u ≠ some (.table to_)) (hf : from_ ∉ declared.tables) (ht : to_ ∈ declared.tables)
    (hnew : ∀ u : Uid, ids₀.tables[u]? ≠ some to_) (hi : .renameTable from_ to_ ∈ intents) :
    Sound src declared intents ids₀ (renameTableInIds ids uid from_ to_) := by
  have hreg := registry_renameTable hs hu to_
  have hk : uid.kind = .table := hs.kinds.tables uid (mem_of_getElem?_eq hu)
  refine ⟨⟨fun u h => ?_, fun u h => ?_, hs.kinds.roles, hs.kinds.types, hs.kinds.extensions⟩,
    ?_, ?_, hs.tombstones, hs.requires, ?_, hs.version, hs.rebuilds, hs.conversions⟩
  · rcases mem_insert.1 h with h | h
    · rw [← Std.LawfulEqOrd.eq_of_compare h]; exact hk
    · exact hs.kinds.tables u h
  · exact hs.kinds.columns u (mem_map.1 h)
  · rw [hreg]
    exact hs.wf.relabel (moveTable_injOn hs hto) fun o _ => parent_moveTable from_ to_ o
  · rw [hreg]
    refine hs.accounts.relabel fun o o' h _ => ?_
    cases h with
    | extension n => exact .extension n
    | type a b h => exact .type a b h
    | role a b h => exact .role a b h
    | table t t' h =>
      by_cases he : t' = from_
      · subst he
        simp only [Obj.moveTable, if_true]
        exact .table t to_ (tableReach_trans hf ht hnew hi h).1
      · simp only [Obj.moveTable, he, if_false]
        exact .table t t' h
    | column c c' hct hcc =>
      by_cases he : c'.table = from_
      · rw [he] at hct hcc
        obtain ⟨h1, h2⟩ := tableReach_trans hf ht hnew hi hct
        have hn : c'.name = c.name := by
          rcases hcc with h | ⟨-, ⟨table, h, -⟩, -⟩
          · exact h
          · exact absurd (mem_of_getElem?_eq h) hf
        simp only [Obj.moveTable, he, if_true]
        exact .column c _ h1 (Or.inl hn)
      · simp only [Obj.moveTable, he, if_false]
        exact .column c c' hct hcc
  · intro u hm
    obtain ⟨t, h⟩ := hs.moves u hm
    have : live (renameTableInIds ids uid from_ to_) u = (live ids u).map (Obj.moveTable from_ to_) :=
      congrFun (congrArg Registry.State.live hreg) u
    rw [h] at this
    exact ⟨_, this⟩

theorem dropped_columns_contains {ctx : Context} {reason : Reason} : (((ids.columns.filter fun _ c => c.table = t).toList.map
      fun e => (e.1, ctx.tombstone e.2.raw reason)).map Prod.fst).contains u = true ↔
      ∃ c, ids.columns[u]? = some c ∧ c.table = t := by
  rw [List.contains_iff_mem, List.map_map, List.mem_map]
  constructor
  · rintro ⟨⟨v, c⟩, h, rfl⟩
    rw [mem_toList_iff_getElem?_eq_some, getElem?_filter_eq_some] at h
    exact ⟨c, h.1, by simpa using h.2⟩
  · rintro ⟨c, h, ht⟩
    refine ⟨(u, c), ?_, rfl⟩
    rw [mem_toList_iff_getElem?_eq_some, getElem?_filter_eq_some]
    exact ⟨h, by simpa using ht⟩

theorem registry_dropTable (hs : Sound src declared intents ids₀ ids) (hu : ids.tables[uid]? = some t) (ctx : Context)
    (reason : Reason) : registry (dropTableInIds ctx ids uid t reason) = (registry ids).retire (Obj.within t · = true) := by
  have hk : uid.kind = .table := hs.kinds.tables uid (mem_of_getElem?_eq hu)
  have hl := (live_table hs.kinds).2 hu
  unfold registry Registry.State.retire
  simp only [dropTableInIds, Registry.State.mk.injEq]
  constructor
  · funext u
    unfold live
    cases hku : u.kind with
    | table =>
      simp only
      by_cases h : u = uid
      · subst h; simp [hu, Obj.within, Option.filter]
      · rw [getElem?_erase_of_ne h]
        cases ht : ids.tables[u]? with
        | none => rfl
        | some t' =>
          have : t' ≠ t := by
            rintro rfl
            exact h (hs.wf.unique u uid _ ((live_table hs.kinds).2 ht) hl)
          simp [Obj.within, this, Option.filter]
    | column =>
      simp only [getElem?_filter']
      cases ids.columns[u]? with
      | none => rfl
      | some c => by_cases h : c.table = t <;> simp [Obj.within, Option.filter, h]
    | extension => cases ids.extensions[u]? <;> simp [Obj.within, Option.filter]
    | type => cases ids.types[u]? <;> simp [Obj.within, Option.filter]
    | role => cases ids.roles[u]? <;> simp [Obj.within, Option.filter]
  · funext u
    rw [contains_insertMany_list, Bool.or_eq_true, dropped_columns_contains, contains_insert,
      Bool.or_eq_true, beq_iff_eq, propext Std.LawfulEqOrd.compare_eq_iff_eq, or_assoc, or_left_comm]
    refine propext (or_congr Iff.rfl ⟨?_, ?_⟩)
    · rintro (rfl | ⟨c, h, ht⟩)
      · exact ⟨_, hl, by simp [Obj.within]⟩
      · exact ⟨_, (live_column hs.kinds).2 h, by simp [Obj.within, ht]⟩
    · rintro ⟨o, ho, hw⟩
      cases o <;> simp only [Obj.within, decide_eq_true_eq, Bool.false_eq_true] at hw
      · subst hw; exact Or.inl (hs.wf.unique uid u _ hl ho)
      · exact Or.inr ⟨_, (live_column hs.kinds).1 ho, hw⟩

theorem within_down (t : TableName) (o p : Obj) (hp : o.parent = some p) (h : p.within t = true) :
    o.within t = true := by
  cases o <;> simp only [Obj.parent, reduceCtorEq, Option.some.injEq] at hp
  subst hp; exact h

/-- A drop retires a stranded table with its columns, and the file stays sound. -/
theorem Sound.dropTable (hs : Sound src declared intents ids₀ ids) {reason : Reason} (hu : ids.tables[uid]? = some t)
    (hf : t ∉ declared.tables) (hstr : Stranded declared intents ids₀ t) (hi : .dropTable t reason ∈ intents) (ctx : Context) :
    Sound src declared intents ids₀ (dropTableInIds ctx ids uid t reason) := by
  have hreg := registry_dropTable hs hu ctx reason
  have hl := (live_table hs.kinds).2 hu
  have hreach : ∀ {t₀}, TableReach declared intents ids₀ t₀ t → t₀ = t := by
    rintro t₀ (h | ⟨-, h, -⟩)
    · exact h.symm
    · exact absurd h hf
  refine ⟨⟨fun u h => hs.kinds.tables u (mem_erase.1 h).2, fun u h => ?_, hs.kinds.roles, hs.kinds.types,
    hs.kinds.extensions⟩, ?_, ?_, fun u t' h => ?_, fun u t' h => ?_, ?_, hs.version, hs.rebuilds, hs.conversions⟩
  · obtain ⟨c, hc⟩ := mem_iff_exists.1 h
    exact hs.kinds.columns u (mem_of_getElem?_eq (getElem?_filter_eq_some.1 hc).1)
  · rw [hreg]; exact hs.wf.retire (within_down t)
  · rw [hreg]
    refine hs.accounts.retire fun o o' h hw => ?_
    cases h <;> simp only [Obj.within, decide_eq_true_eq, Bool.false_eq_true] at hw
    · rename_i t₀ t' h
      subst hw
      exact hreach h ▸ ⟨reason, hi⟩
    · rename_i c c' hct hcc
      rw [hw] at hct
      rw [← hreach hct] at hf hstr hi
      exact Or.inl ⟨hf, hstr, reason, hi⟩
  · -- a uid that was retired before is not one of the dropped columns
    have h' := tombstones_insert hs hl (ctx.tombstone t.raw reason) (hs.tombstones u t' h)
    simp only [dropTableInIds]
    rw [getElem?_insertMany_list_of_contains_eq_false, h']
    rw [Bool.eq_false_iff, ne_eq, dropped_columns_contains]
    rintro ⟨c, hc, -⟩
    have hd : (registry ids).dead u :=
      contains_iff_exists.2 ⟨t', hs.tombstones u t' h⟩
    have := hs.wf.apart u hd
    rw [show (registry ids).live u = live ids u from rfl, (live_column hs.kinds).2 hc] at this
    cases this
  · simp only [dropTableInIds] at h
    by_cases hc : (((ids.columns.filter fun _ c => c.table = t).toList.map
        fun e => (e.1, ctx.tombstone e.2.raw reason)).map Prod.fst).contains u = true
    · obtain ⟨c, hc1, hc2⟩ := dropped_columns_contains.1 hc
      refine Or.inr ?_
      have hmem : (u, ctx.tombstone c.raw reason) ∈ (ids.columns.filter fun _ c => c.table = t).toList.map
          fun e => (e.1, ctx.tombstone e.2.raw reason) := by
        refine List.mem_map.2 ⟨(u, c), ?_, rfl⟩
        rw [mem_toList_iff_getElem?_eq_some, getElem?_filter_eq_some]
        exact ⟨hc1, by simpa using hc2⟩
      have hdistinct : ((ids.columns.filter fun _ c => c.table = t).toList.map
          fun e => (e.1, ctx.tombstone e.2.raw reason)).Pairwise fun a b => ¬ compare a.1 b.1 = .eq :=
        List.pairwise_map.2 distinct_keys_toList
      rw [getElem?_insertMany_list_of_mem Std.ReflOrd.compare_self hdistinct hmem] at h
      cases h; rfl
    · rw [getElem?_insertMany_list_of_contains_eq_false (by simpa using hc)] at h
      exact requires_insert hs rfl h
  · intro u hm
    obtain ⟨hne, hm⟩ := mem_erase.1 hm
    obtain ⟨t', h⟩ := hs.moves u hm
    have hlive : live (dropTableInIds ctx ids uid t reason) u = (live ids u).filter fun o => ¬ Obj.within t o = true :=
      congrFun (congrArg Registry.State.live hreg) u
    have : t' ≠ t := by
      rintro rfl
      exact hne (Std.LawfulEqOrd.compare_eq_iff_eq.2 (hs.wf.unique uid u _ hl h))
    refine ⟨t', ?_⟩
    rw [hlive, h]; simp [Option.filter, Obj.within, this]

end Pbps.Identity
