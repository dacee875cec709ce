/-
The order in which a merge lists its records. Sections listed by uid are sorted whatever the sides held first; the columns
come back in the YAML's order around the tombstones, which stay where they were gathered.
-/
import Pbps.Tree.MergeReads
import Pbps.Tree.NextOrder

namespace Pbps.Tree

open Std (ExtTreeMap ExtTreeSet)
open ThreeWay (pick choose never keys mem_keys nodup_keys keys_comm)
open List

/-! ## Sections by uid -/

section Sorted

variable {V : Type} {l l' : List (Uid × V)}

def InUidOrder (l : List (Uid × V)) : Prop := l.Pairwise fun a b => compare a.1 b.1 = .lt

theorem InUidOrder.nodup (h : InUidOrder l) : (l.map (·.1)).Nodup := by
  refine pairwise_map.2 (h.imp fun {a b} hlt heq => ?_)
  rw [heq, Std.ReflOrd.compare_self] at hlt
  cases hlt

def NotAfter (a b : Uid × V) : Prop := compare a.1 b.1 ≠ .gt

instance : Std.Total (NotAfter (V := V)) := ⟨fun a b => by
  rw [NotAfter, NotAfter, Std.OrientedOrd.eq_swap (a := b.1) (b := a.1)]
  cases compare a.1 b.1 <;> simp⟩

instance : IsTrans (Uid × V) NotAfter := ⟨fun a b c hab hbc => by
  simp only [NotAfter, ← Ordering.isLE_iff_ne_gt] at hab hbc ⊢
  exact Std.TransOrd.isLE_trans hab hbc⟩

instance : DecidableRel (NotAfter (V := V)) := fun a b => inferInstanceAs (Decidable (compare a.1 b.1 ≠ .gt))

theorem sorted_inUidOrder (h : (l.map (·.1)).Nodup) : InUidOrder (sorted l) := by
  have hpairwise : (sorted l).Pairwise NotAfter := pairwise_insertionSort NotAfter l
  have hnodup : ((sorted l).map (·.1)).Nodup := ((sorted_perm l).map _).nodup_iff.2 h
  refine (hpairwise.and (pairwise_map.1 hnodup)).imp fun {a b} hab => ?_
  have hne : compare a.1 b.1 ≠ .eq := fun heq => hab.2 (Std.LawfulEqOrd.eq_of_compare heq)
  have hgt : compare a.1 b.1 ≠ .gt := hab.1
  revert hne hgt
  cases compare a.1 b.1 <;> simp

theorem InUidOrder.eq_of_perm (h : InUidOrder l) (h' : InUidOrder l') (hperm : l.Perm l') : l = l' := by
  refine hperm.eq_of_pairwise (fun a b _ _ hab hba => ?_) h h'
  have hswap : compare a.1 b.1 = (compare b.1 a.1).swap := Std.OrientedOrd.eq_swap
  rw [hab, hba] at hswap
  cases hswap

end Sorted

/-! ## Columns -/

section Columns

variable {columns columns' : List (Uid × Rec)} {yaml : YamlView} {u v : Uid} {n : String}

def tombstones (columns : List (Uid × Rec)) : List (Option Uid) := columns.map fun
  | (u, .dead _) => some u
  | (_, .live _) => none

/-- The YAML declares every live column, under a name of its own and once. -/
structure YamlView.Declares (yaml : YamlView) (columns : List (Uid × Rec)) : Prop where
  nodup : yaml.columns.Nodup
  declared : ∀ u n, (u, .live n) ∈ columns → n ∈ yaml.columns
  own : ∀ u v n, (u, .live n) ∈ columns → (v, .live n) ∈ columns → u = v

theorem YamlView.Declares.perm (h : yaml.Declares columns) (hperm : columns.Perm columns') : yaml.Declares columns' where
  nodup := h.nodup
  declared u n hu := h.declared u n (hperm.mem_iff.2 hu)
  own u v n hu hv := h.own u v n (hperm.mem_iff.2 hu) (hperm.mem_iff.2 hv)

def retiredOf (columns : List (Uid × Rec)) : ExtTreeSet Uid := .ofList (columns.filterMap fun
  | (u, .dead _) => some u
  | (_, .live _) => none)

def liveOf (columns : List (Uid × Rec)) : ExtTreeMap String Uid := .ofList (columns.filterMap fun
  | (u, .live n) => some (n, u)
  | (_, .dead _) => none)

def declaredOf (yaml : YamlView) (columns : List (Uid × Rec)) : List Uid := yaml.columns.filterMap fun n => (liveOf columns)[n]?

def orderOf (yaml : YamlView) (columns : List (Uid × Rec)) : List Uid :=
  nextOrder (columns.map (·.1)) (declaredOf yaml columns) (retiredOf columns)

theorem restoreOrder_eq : restoreOrder columns yaml =
    columns.insertionSort fun a b => rankIn (orderOf yaml columns) a.1 ≤ rankIn (orderOf yaml columns) b.1 := rfl

theorem mem_retiredOf : u ∈ retiredOf columns ↔ ∃ t, (u, Rec.dead t) ∈ columns := by
  rw [retiredOf, ExtTreeSet.mem_ofList, contains_iff_mem, mem_filterMap]
  constructor
  · rintro ⟨⟨v, _ | t⟩, hmem, heq⟩ <;> cases heq
    exact ⟨t, hmem⟩
  · rintro ⟨t, hmem⟩
    exact ⟨(u, .dead t), hmem, rfl⟩

theorem mem_live_entries : (n, u) ∈ columns.filterMap (fun
    | (u, .live n) => some (n, u)
    | (_, .dead _) => none) ↔ (u, Rec.live n) ∈ columns := by
  rw [mem_filterMap]
  constructor
  · rintro ⟨⟨v, m | t⟩, hmem, heq⟩ <;> cases heq
    exact hmem
  · exact fun hmem => ⟨(u, .live n), hmem, rfl⟩

theorem liveOf_eq_some (h : yaml.Declares columns) : (liveOf columns)[n]? = some u ↔ (u, Rec.live n) ∈ columns := by
  constructor
  · exact fun hu => mem_live_entries.1 (ExtTreeMap.mem_of_getElem?_ofList hu)
  · intro hmem
    obtain ⟨v, hv⟩ := Option.ne_none_iff_exists'.1 (ExtTreeMap.getElem?_ofList_ne_none (mem_live_entries.2 hmem))
    have hvmem := mem_live_entries.1 (ExtTreeMap.mem_of_getElem?_ofList hv)
    rw [h.own u v n hmem hvmem]
    exact hv

theorem mem_declaredOf (h : yaml.Declares columns) : u ∈ declaredOf yaml columns ↔ ∃ n, (u, Rec.live n) ∈ columns := by
  rw [declaredOf, mem_filterMap]
  simp only [liveOf_eq_some h]
  exact ⟨fun ⟨n, _, hn⟩ => ⟨n, hn⟩, fun ⟨n, hn⟩ => ⟨n, h.declared u n hn, hn⟩⟩

theorem rec_unique {r r' : Rec} (hkeys : (columns.map (·.1)).Nodup) (h : (u, r) ∈ columns) (h' : (u, r') ∈ columns) : r = r' :=
  (Prod.ext_iff.1 (inj_on_of_nodup_map hkeys h h' rfl)).2

theorem nodup_declaredOf (h : yaml.Declares columns) (hkeys : (columns.map (·.1)).Nodup) : (declaredOf yaml columns).Nodup := by
  refine h.nodup.filterMap fun n m u hn hm => ?_
  have hlive := rec_unique hkeys ((liveOf_eq_some h).1 (Option.mem_def.1 hn)) ((liveOf_eq_some h).1 (Option.mem_def.1 hm))
  cases hlive; rfl

theorem orderOf_eq (h : yaml.Declares columns) : orderOf yaml columns =
    Slots.fill (Slots.positions (declaredOf yaml columns).contains (columns.map (·.1))) (declaredOf yaml columns) (columns.map (·.1)) := by
  refine nextOrder_of_listed (fun u hu => ?_) fun u hu => ?_
  · obtain ⟨⟨u, r⟩, hr, rfl⟩ := mem_map.1 hu
    cases r with
    | live n => exact .inl ((mem_declaredOf h).2 ⟨n, hr⟩)
    | dead t => exact .inr (mem_retiredOf.2 ⟨t, hr⟩)
  · obtain ⟨n, hn⟩ := (mem_declaredOf h).1 hu
    exact mem_map.2 ⟨_, hn, rfl⟩

theorem orderOf_perm (h : yaml.Declares columns) (hkeys : (columns.map (·.1)).Nodup) :
    (orderOf yaml columns).Perm (columns.map (·.1)) := by
  rw [orderOf_eq h]
  refine Slots.fill_perm hkeys ((perm_ext_iff_of_nodup (nodup_declaredOf h hkeys) (hkeys.filter _)).2 fun u => ?_)
  rw [mem_filter, contains_iff_mem]
  refine ⟨fun hu => ⟨?_, hu⟩, fun hu => hu.2⟩
  obtain ⟨n, hn⟩ := (mem_declaredOf h).1 hu
  exact mem_map.2 ⟨_, hn, rfl⟩

theorem rankIn_getElem {order : List Uid} (h : order.Nodup) {i : Nat} (hi : i < order.length) : rankIn order order[i] = i := by
  have hfind : order.reverse.findIdx? (· = order[i]) = some (order.length - 1 - i) := by
    rw [findIdx?_eq_some_iff_getElem]
    have hlast : order.length - 1 - (order.length - 1 - i) = i := by omega
    refine ⟨by rw [length_reverse]; omega, ?_, fun j hj => ?_⟩
    · simp only [getElem_reverse, hlast, decide_true]
    · rw [getElem_reverse, decide_eq_true_eq, h.getElem_inj_iff]
      omega
  rw [rankIn, hfind]
  show order.length - 1 - (order.length - 1 - i) = i
  omega

section

variable (h : yaml.Declares columns)
include h

theorem keys_restoreOrder (hkeys : (columns.map (·.1)).Nodup) :
    (restoreOrder columns yaml).map (·.1) = orderOf yaml columns := by
  have hperm := orderOf_perm h hkeys
  have hnodup := hperm.nodup_iff.2 hkeys
  have hrank : ∀ {u v : Uid}, u ∈ orderOf yaml columns → v ∈ orderOf yaml columns →
      rankIn (orderOf yaml columns) u = rankIn (orderOf yaml columns) v → u = v := by
    intro u v hu hv heq
    obtain ⟨i, hi, rfl⟩ := mem_iff_getElem.1 hu
    obtain ⟨j, hj, rfl⟩ := mem_iff_getElem.1 hv
    rw [rankIn_getElem hnodup hi, rankIn_getElem hnodup hj] at heq
    subst heq
    rfl
  have hsorted : ((restoreOrder columns yaml).map (·.1)).Pairwise fun u v =>
      rankIn (orderOf yaml columns) u ≤ rankIn (orderOf yaml columns) v := by
    rw [restoreOrder_eq, pairwise_map]
    exact pairwise_insertionSort (fun a b : Uid × Rec => rankIn (orderOf yaml columns) a.1 ≤ rankIn (orderOf yaml columns) b.1)
      columns
  have horder : (orderOf yaml columns).Pairwise fun u v =>
      rankIn (orderOf yaml columns) u ≤ rankIn (orderOf yaml columns) v := by
    refine pairwise_iff_getElem.2 fun i j hi hj hij => ?_
    rw [rankIn_getElem hnodup hi, rankIn_getElem hnodup hj]
    exact Nat.le_of_lt hij
  have hsame : ((restoreOrder columns yaml).map (·.1)).Perm (orderOf yaml columns) :=
    ((restoreOrder_perm columns yaml).map _).trans hperm.symm
  exact hsame.eq_of_pairwise (fun u v hu hv huv hvu => hrank (hsame.mem_iff.1 hu) hv (Nat.le_antisymm huv hvu)) hsorted horder

theorem liveOf_perm (hperm : columns.Perm columns') : liveOf columns = liveOf columns' := by
  refine ExtTreeMap.ext_getElem? fun n => Option.ext fun u => ?_
  rw [liveOf_eq_some h, liveOf_eq_some (h.perm hperm), hperm.mem_iff]

theorem declaredOf_perm (hperm : columns.Perm columns') :
    declaredOf yaml columns = declaredOf yaml columns' := by rw [declaredOf, declaredOf, liveOf_perm h hperm]

theorem tombstones_eq (hkeys : (columns.map (·.1)).Nodup) :
    tombstones columns = Slots.masked (declaredOf yaml columns).contains (columns.map (·.1)) := by
  rw [tombstones, Slots.masked, map_map]
  refine map_congr_left fun e hr => ?_
  obtain ⟨u, r⟩ := e
  cases r with
  | live n => exact (if_pos (contains_iff_mem.2 ((mem_declaredOf h).2 ⟨n, hr⟩))).symm
  | dead t =>
    refine (if_neg fun hu => ?_).symm
    obtain ⟨n, hn⟩ := (mem_declaredOf h).1 (contains_iff_mem.1 hu)
    cases rec_unique hkeys hr hn

end

theorem eq_of_perm_of_keys {l l' : List (Uid × Rec)} (hkeys : (l.map (·.1)).Nodup) (hperm : l.Perm l')
    (h : l.map (·.1) = l'.map (·.1)) : l = l' := by
  refine ext_getElem? fun i => ?_
  have hi : (l[i]?).map (·.1) = (l'[i]?).map (·.1) := by rw [← getElem?_map, ← getElem?_map, h]
  cases ha : l[i]? with
  | none =>
    rw [ha] at hi
    exact (Option.map_eq_none_iff.1 hi.symm).symm
  | some a =>
    rw [ha] at hi
    obtain ⟨b, hb, hab⟩ := Option.map_eq_some_iff.1 hi.symm
    rw [hb, inj_on_of_nodup_map hkeys (mem_of_getElem? ha) (hperm.mem_iff.2 (mem_of_getElem? hb)) hab.symm]

variable (h : yaml.Declares columns) (hkeys : (columns.map (·.1)).Nodup)
include h hkeys

theorem restoreOrder_eq_iff (hperm : columns.Perm columns') :
    restoreOrder columns yaml = restoreOrder columns' yaml ↔ tombstones columns = tombstones columns' := by
  have h' := h.perm hperm
  have hkeys' : (columns'.map (·.1)).Nodup := (hperm.map _).nodup_iff.1 hkeys
  have hrestored : (restoreOrder columns yaml).Perm (restoreOrder columns' yaml) :=
    ((restoreOrder_perm columns yaml).trans hperm).trans (restoreOrder_perm columns' yaml).symm
  have hnodup : ((restoreOrder columns yaml).map (·.1)).Nodup := ((restoreOrder_perm columns yaml).map _).nodup_iff.2 hkeys
  have hlength : (Slots.positions (declaredOf yaml columns).contains (columns.map (·.1))).length ≤ (declaredOf yaml columns).length := by
    rw [Slots.length_positions]
    refine (subperm_of_subset (hkeys.filter _) fun u hu => ?_).length_le
    exact contains_iff_mem.1 (mem_filter.1 hu).2
  have horder : restoreOrder columns yaml = restoreOrder columns' yaml ↔ orderOf yaml columns = orderOf yaml columns' := by
    rw [← keys_restoreOrder h hkeys, ← keys_restoreOrder h' hkeys']
    exact ⟨fun heq => by rw [heq], eq_of_perm_of_keys hnodup hrestored⟩
  rw [horder, orderOf_eq h, orderOf_eq h', ← declaredOf_perm h hperm, tombstones_eq h hkeys, tombstones_eq h' hkeys',
    ← declaredOf_perm h hperm]
  exact Slots.fill_eq_fill_iff (fun u hu => contains_iff_mem.2 hu) hlength

theorem restoreOrder_of_isEmpty (hempty : yaml.columns = []) : restoreOrder columns yaml = columns := by
  have hdeclared : declaredOf yaml columns = [] := by rw [declaredOf, hempty, filterMap_nil]
  refine eq_of_perm_of_keys (((restoreOrder_perm columns yaml).map _).nodup_iff.2 hkeys) (restoreOrder_perm columns yaml) ?_
  rw [keys_restoreOrder h hkeys, orderOf_eq h, hdeclared, Slots.fill, zip_nil_right, foldl_nil]

end Columns

/-! ## Whole files -/

section Files

variable {serde : Serde} {yaml : YamlView} {ours theirs : TreeFile} {base : Option TreeFile} {f g : TreeFile}

/-- A body as it is written: what is listed by uid is in uid order, and a column is listed once. -/
def Body.InOrder : Body → Prop
  | .table t => (t.columns.map (·.1)).Nodup ∧ InUidOrder t.partitions ∧ InUidOrder t.moves ∧ InUidOrder t.conversions ∧
    InUidOrder t.rebuilds
  | _ => True

/-- The sections a file lists by identity are in their order. -/
def Body.Sorted : Body → Prop
  | .table t => InUidOrder t.moves ∧ InUidOrder t.conversions ∧ InUidOrder t.rebuilds
  | _ => True

def Body.columns (b : Body) : List (Uid × Rec) := (tableBody (some b)).columns

def Body.partitions (b : Body) : List (Uid × Rec) := (tableBody (some b)).partitions

def Body.withPartitions (b : Body) (partitions : List (Uid × Rec)) : Body :=
  match b with
  | .table t => .table { t with partitions }
  | b => b

def gathered (yaml : YamlView) (base : Option TreeFile) : Option TreeFile → Option TreeFile → List (Uid × Rec)
  | some ours, some theirs =>
    recordsOf (byYaml yaml) (tableBody ((baseOf base ours.uid).map (·.body))).columns ours.body.columns theirs.body.columns
  | _, _ => []

variable {b x y : Body} {name : String}

theorem Body.InOrder.distinct (h : b.InOrder) : b.Distinct := by
  cases b with
  | table t => exact ⟨h.1, h.2.1.nodup, h.2.2.1.nodup, h.2.2.2.1.nodup, h.2.2.2.2.nodup⟩
  | _ => trivial

theorem Body.InOrder.sorted (h : b.InOrder) : b.Sorted := by
  cases b with
  | table t => exact h.2.2
  | _ => trivial

theorem Body.InOrder.nodup_columns (h : b.InOrder) : (b.columns.map (·.1)).Nodup := by
  cases b with
  | table t => exact h.1
  | _ => exact .nil

theorem mergedBody_sorted {b : Option Body} (hx : x.Distinct) (hy : y.Distinct) : (mergedBody yaml b name x y).Sorted := by
  cases x <;> cases y <;> try trivial
  exact ⟨sorted_inUidOrder (nodup_recordsOf hx.2.2.1 hy.2.2.1), sorted_inUidOrder (nodup_recordsOf hx.2.2.2.1 hy.2.2.2.1),
    sorted_inUidOrder (nodup_recordsOf hx.2.2.2.2 hy.2.2.2.2)⟩

theorem Body.Same.withPartitions_eq_iff {a : Body} (h : a.Same b) (ha : a.Sorted) (hb : b.Sorted) :
    a.withPartitions b.partitions = b ↔ a.columns = b.columns := by
  cases a <;> cases b <;> first | cases h; done | skip
  · next t t' =>
    obtain ⟨htable, -, -, hmoves, hconversions, hrebuilds⟩ := h
    have h1 := ha.1.eq_of_perm hb.1 hmoves
    have h2 := ha.2.1.eq_of_perm hb.2.1 hconversions
    have h3 := ha.2.2.eq_of_perm hb.2.2 hrebuilds
    constructor
    · intro heq
      have hcolumns := congrArg Body.columns heq
      exact hcolumns
    · intro hcolumns
      obtain ⟨name, columns, partitions, moves, conversions, rebuilds⟩ := t
      obtain ⟨name', columns', partitions', moves', conversions', rebuilds'⟩ := t'
      cases htable; cases h1; cases h2; cases h3; cases hcolumns
      rfl
  all_goals
    cases h
    exact iff_of_true rfl rfl

theorem nodup_gathered (ho : ours.body.InOrder) (ht : theirs.body.InOrder) :
    ((gathered yaml base (some ours) (some theirs)).map (·.1)).Nodup := nodup_recordsOf ho.nodup_columns ht.nodup_columns

theorem gathered_comm (h : OneIdentity ours theirs) (ho : ours.body.InOrder) (ht : theirs.body.InOrder) :
    (gathered yaml base (some theirs) (some ours)).Perm (gathered yaml base (some ours) (some theirs)) := by
  rw [gathered, gathered, ← h.uid]
  exact recordsOf_comm (byYaml_comm yaml) ho.nodup_columns ht.nodup_columns

theorem mergedBody_columns {b : Option Body} (h : x.kind = y.kind) : (mergedBody yaml b name x y).columns =
      if yaml.columns.isEmpty then recordsOf (byYaml yaml) (tableBody b).columns x.columns y.columns
      else restoreOrder (recordsOf (byYaml yaml) (tableBody b).columns x.columns y.columns) yaml := by
  cases x <;> cases y <;> first | cases h; done | rfl | exact (ite_self ([] : List (Uid × Rec))).symm

theorem mergedFile_columns_perm (h : OneIdentity ours theirs) :
    (mergedFile yaml base ours theirs).body.columns.Perm (gathered yaml base (some ours) (some theirs)) := by
  simp only [gathered, mergedFile]
  rw [mergedBody_columns h.kind]
  split
  · exact .refl _
  · exact restoreOrder_perm _ yaml

theorem mergedFile_columns (h : OneIdentity ours theirs) (ho : ours.body.InOrder) (ht : theirs.body.InOrder)
    (hyaml : yaml.Declares (gathered yaml base (some ours) (some theirs))) :
    (mergedFile yaml base ours theirs).body.columns = restoreOrder (gathered yaml base (some ours) (some theirs)) yaml := by
  have hkeys := @nodup_gathered yaml ours theirs base ho ht
  simp only [gathered, mergedFile] at hyaml hkeys ⊢
  rw [mergedBody_columns h.kind]
  split
  · next hempty => exact (restoreOrder_of_isEmpty hyaml hkeys (List.isEmpty_iff.1 hempty)).symm
  · rfl

theorem mergeBoth_in_order (ho : ours.body.InOrder) (ht : theirs.body.InOrder)
    (hf : mergeBoth serde base ours theirs yaml = .ok (some f)) :
    f.body.Sorted ∧ ∃ g, mergeBoth serde base theirs ours yaml = .ok (some g) ∧ g.Same f ∧ g.body.Sorted ∧
      (yaml.Declares f.body.columns → (g.body.columns = f.body.columns ↔
        tombstones (gathered yaml base (some ours) (some theirs)) =
          tombstones (gathered yaml base (some theirs) (some ours)))) := by
  obtain ⟨hsame, hnone, rfl⟩ := mergeBoth_eq_ok hf
  have hnone' : conflictsBoth serde yaml base theirs ours = [] := by
    have hswap := @conflictsBoth_comm serde yaml ours theirs base hsame ho.distinct ht.distinct
    rw [hnone] at hswap
    exact hswap.eq_nil
  refine ⟨mergedBody_sorted ho.distinct ht.distinct, mergedFile yaml base theirs ours, ?_,
    mergedFile_comm hsame ho.distinct ht.distinct hnone, mergedBody_sorted ht.distinct ho.distinct, fun hyaml => ?_⟩
  · rw [mergeBoth_eq serde yaml hsame.symm.uid hsame.symm.key, hnone']
    rfl
  · have hgathered := hyaml.perm (mergedFile_columns_perm hsame)
    have hperm := (@gathered_comm yaml ours theirs base hsame ho ht).symm
    rw [mergedFile_columns hsame ho ht hgathered, mergedFile_columns hsame.symm ht ho (hgathered.perm hperm), eq_comm]
    exact restoreOrder_eq_iff hgathered (nodup_gathered ho ht) hperm

theorem TreeFile.Same.withPartitions_eq_iff (h : g.Same f) (hg : g.body.Sorted) (hf : f.body.Sorted) :
    { g with body := g.body.withPartitions f.body.partitions } = f ↔ g.body.columns = f.body.columns := by
  rw [← h.body.withPartitions_eq_iff hg hf]
  constructor
  · exact fun heq => congrArg TreeFile.body heq
  · intro hbody
    rw [hbody, h.uid, h.dropped]

theorem Body.withPartitions_self (b : Body) : b.withPartitions b.partitions = b := by cases b <;> rfl

end Files

/-- A merge that succeeds lists moves, conversions and rebuilds in uid order, and succeeds with the sides exchanged. Where
the YAML declares every live column, the two files are one but for the order of their partitions exactly when the columns'
tombstones are gathered at the same places from either side. -/
theorem merge_in_writer_order (serde : Serde) (yaml : YamlView) {base ours theirs : Option TreeFile} {f : TreeFile}
    (ho : ∀ o, ours = some o → o.body.InOrder) (ht : ∀ t, theirs = some t → t.body.InOrder)
    (hf : merge serde base ours theirs yaml = .ok (some f)) :
    f.body.Sorted ∧ ∃ g, merge serde base theirs ours yaml = .ok (some g) ∧
      (yaml.Declares f.body.columns →
        ({ g with body := g.body.withPartitions f.body.partitions } = f ↔
          tombstones (gathered yaml base ours theirs) = tombstones (gathered yaml base theirs ours)) ∧
        (tombstones (gathered yaml base ours theirs) = tombstones (gathered yaml base theirs ours) →
          g.body.partitions = f.body.partitions → render serde g = render serde f)) := by
  have hself : { f with body := f.body.withPartitions f.body.partitions } = f := by rw [Body.withPartitions_self]
  unfold merge at hf
  split at hf
  · cases hf
  · next only =>
    obtain ⟨rfl, hexchanged⟩ := mergeOne_eq_ok hf
    exact ⟨(ho f rfl).sorted, f, hexchanged true, fun _ => ⟨iff_of_true hself rfl, fun _ _ => rfl⟩⟩
  · next only =>
    obtain ⟨rfl, hexchanged⟩ := mergeOne_eq_ok hf
    exact ⟨(ht f rfl).sorted, f, hexchanged false, fun _ => ⟨iff_of_true hself rfl, fun _ _ => rfl⟩⟩
  · next o t =>
    obtain ⟨hsorted, g, hg, hsame, hgsorted, hcolumns⟩ := mergeBoth_in_order (ho o rfl) (ht t rfl) hf
    refine ⟨hsorted, g, hg, fun hyaml => ?_⟩
    have hiff := (hsame.withPartitions_eq_iff hgsorted hsorted).trans (hcolumns hyaml)
    refine ⟨hiff, fun htombstones hpartitions => ?_⟩
    have heq := hiff.2 htombstones
    rw [← hpartitions, Body.withPartitions_self] at heq
    exact congrArg (render serde) heq

namespace Gathered

def serde : Serde := ⟨Dropped.line, fun _ => .error "not read"⟩

def table (columns : List (Uid × Rec)) : TreeFile :=
  ⟨⟨"t_aaaaaa"⟩, .table { table := "app.a", columns := (⟨"c_aaaaa1"⟩, .live "id") :: columns }, none⟩

def phone : Uid × Rec := (⟨"c_aaaaa2"⟩, .live "phone")

def email : Uid × Rec := (⟨"c_aaaaa3"⟩, .live "email")

/-- Each side adds a column, and the YAML lists them the other way round. -/
theorem merge_added : ∃ g, merge serde (some (table [])) (some (table [email])) (some (table [phone]))
      { columns := ["id", "email", "phone"] } = .ok (some g) ∧
    { g with body := g.body.withPartitions [] } = table [email, phone] := by
  have hin : ∀ e, (table [e]).body.InOrder ↔ e.1 ≠ ⟨"c_aaaaa1"⟩ := by
    intro e
    simp [table, Body.InOrder, InUidOrder, eq_comm]
  have hyaml : YamlView.Declares { columns := ["id", "email", "phone"] } (table [email, phone]).body.columns := by
    refine ⟨by decide, fun u n hmem => ?_, fun u v n hu hv => ?_⟩
    · simp [table, Body.columns, tableBody, email, phone] at hmem
      simp only [mem_cons]
      tauto
    · simp [table, Body.columns, tableBody, email, phone] at hu hv
      rcases hu with ⟨rfl, rfl⟩ | ⟨rfl, rfl⟩ | ⟨rfl, rfl⟩ <;> exact Eq.symm (by simpa using hv)
  obtain ⟨-, g, hg, h⟩ := @merge_in_writer_order serde { columns := ["id", "email", "phone"] } (some (table []))
    (some (table [phone])) (some (table [email])) (table [email, phone]) (fun o h => by cases h; exact (hin phone).2 (by decide))
    (fun t h => by cases h; exact (hin email).2 (by decide)) (by decide)
  exact ⟨g, hg, (h hyaml).1.2 (by decide)⟩

def note : Uid × Rec := (⟨"c_aaaaa2"⟩, .dead { was := "app.a.note", droppedAt := "2026-01-01", reason := "unused", operator := "dba" })

def memo : Uid × Rec := (⟨"c_aaaaa3"⟩, .dead { was := "app.a.memo", droppedAt := "2026-01-01", reason := "unused", operator := "dba" })

theorem render_ne : render serde (table [memo, note]) ≠ render serde (table [note, memo]) := by
  intro h
  have huids : Dropped.line (.text "c_aaaaa2") = "\"c_aaaaa2\"" ∧ Dropped.line (.text "c_aaaaa3") = "\"c_aaaaa3\"" := by decide
  have hlist := congrArg String.toList h
  -- The texts agree up to the first uid of a tombstone.
  simp only [render, topTexts, table, sectionText, optionalSection, Body.key, note, memo, serde, String.intercalate_cons_cons,
    String.intercalate_singleton, String.toList_append, huids.1, huids.2, cons_append, nil_append, append_nil,
    append_assoc, isEmpty_nil, if_true, map_cons, map_nil, String.join_cons, String.join_nil,
    append_right_inj, -String.reduceToList] at hlist
  have huid := (append_inj hlist (by decide)).1
  exact absurd huid (by decide)

/-- A column that either side adds and drops leaves a tombstone, and the tombstones stand as they are gathered. -/
theorem merge_not_in_writer_order : ¬ ∀ (serde : Serde) (yaml : YamlView) (base ours theirs f : TreeFile), base.body.InOrder →
    ours.body.InOrder → theirs.body.InOrder → merge serde (some base) (some ours) (some theirs) yaml = .ok (some f) →
      f.body.InOrder ∧ (yaml.Declares f.body.columns →
        ∃ g, merge serde (some base) (some theirs) (some ours) yaml = .ok (some g) ∧ render serde g = render serde f) := by
  intro h
  have hin : ∀ l : List (Uid × Rec), ((⟨"c_aaaaa1"⟩ : Uid) :: l.map (·.1)).Nodup → (table l).body.InOrder :=
    fun l hl => ⟨hl, .nil, .nil, .nil, .nil⟩
  have hmerge : merge serde (some (table [])) (some (table [note])) (some (table [memo])) { columns := ["id"] } =
      .ok (some (table [note, memo])) := by decide
  have hswapped : merge serde (some (table [])) (some (table [memo])) (some (table [note])) { columns := ["id"] } =
      .ok (some (table [memo, note])) := by decide
  have hyaml : YamlView.Declares { columns := ["id"] } (table [note, memo]).body.columns := by
    refine ⟨by decide, fun u n hmem => ?_, fun u v n hu hv => ?_⟩
    · simp [table, Body.columns, tableBody, note, memo] at hmem
      exact mem_singleton.2 hmem.2
    · simp [table, Body.columns, tableBody, note, memo] at hu hv
      exact hu.1.trans hv.1.symm
  obtain ⟨-, hbytes⟩ := h serde { columns := ["id"] } (table []) (table [note]) (table [memo]) (table [note, memo])
    (hin _ (by decide)) (hin _ (by decide)) (hin _ (by decide)) hmerge
  obtain ⟨g, hg, heq⟩ := hbytes hyaml
  rw [hswapped] at hg
  cases hg
  exact render_ne heq

end Gathered

end Pbps.Tree
