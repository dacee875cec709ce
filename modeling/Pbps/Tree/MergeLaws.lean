/-
The three-way merge loses no update and prefers no side.
-/
import Pbps.Tree.Merged

namespace Pbps.Tree

open Std (ExtTreeMap)
open ThreeWay (pick choose never keys mem_keys nodup_keys keys_comm)
open List Option

/-! ## Sections -/

section Section

variable {V : Type} [DecidableEq V] {judge : V → V → Option V} {base ours theirs side : List (Uid × V)}

omit [DecidableEq V] in
theorem index_perm {l l' : List (Uid × V)} (hperm : l.Perm l') (h : (l'.map (·.1)).Nodup) : index l = index l' := by
  have h' : (l.map (·.1)).Nodup := (hperm.map _).nodup_iff.2 h
  apply ExtTreeMap.ext_getElem?
  intro u
  apply Option.ext
  intro v
  rw [index_eq_some h', index_eq_some h, hperm.mem_iff]

theorem chosen_comm (hjudge : ∀ x y, judge x y = judge y x) (u : Uid) :
    chosen judge base theirs ours u = chosen judge base ours theirs u := ThreeWay.choose_comm hjudge

theorem recordsOf_comm (hjudge : ∀ x y, judge x y = judge y x) (ho : (ours.map (·.1)).Nodup) (ht : (theirs.map (·.1)).Nodup) :
    (recordsOf judge base theirs ours).Perm (recordsOf judge base ours theirs) := by
  rw [recordsOf, recordsOf]
  simp only [chosen_comm hjudge]
  exact (keys_comm ho ht).filterMap _

theorem recordsOf_perm_of_chosen (ho : (ours.map (·.1)).Nodup) (ht : (theirs.map (·.1)).Nodup) (hs : (side.map (·.1)).Nodup)
    (h : ∀ u, chosen judge base ours theirs u = some (index side)[u]?) : (recordsOf judge base ours theirs).Perm side := by
  rw [perm_ext_iff_of_nodup (Nodup.of_map _ (nodup_recordsOf ho ht)) (Nodup.of_map _ hs)]
  rintro ⟨u, v⟩
  rw [mem_recordsOf, h, some.injEq, index_eq_some hs]

theorem conflictsOf_eq_nil_of_chosen {serde : Serde} {sectionName : String} {doc : V → Doc}
    (h : ∀ u, chosen judge base ours theirs u = some (index side)[u]?) :
    conflictsOf judge base ours theirs serde sectionName doc = [] := by
  rw [conflictsOf_eq_nil]
  intro u
  rw [h]
  simp

end Section

/-! ## Conflicts seen from the other side -/

/-- A conflict as the other side sees it. -/
def Conflict.swap (c : Conflict) : Conflict := { c with ours := c.theirs, theirs := c.ours }

variable {V : Type}

variable {judge : V → V → Option V} {base ours theirs : List (Uid × V)} {yaml : YamlView}

theorem conflictsOf_comm [DecidableEq V] (hjudge : ∀ x y, judge x y = judge y x) (ho : (ours.map (·.1)).Nodup)
    (ht : (theirs.map (·.1)).Nodup) (serde : Serde) (sectionName : String) (doc : V → Doc) :
    (conflictsOf judge base theirs ours serde sectionName doc).Perm
      ((conflictsOf judge base ours theirs serde sectionName doc).map Conflict.swap) := by
  rw [conflictsOf, conflictsOf, List.map_map]
  simp only [chosen_comm hjudge]
  exact ((keys_comm ho ht).filter _).map _

theorem settledName_comm (base : Option String) (ours theirs : String) (yaml : Option String) :
    settledName base theirs ours yaml = settledName base ours theirs yaml := by
  unfold settledName
  rw [ThreeWay.pick_comm]
  cases hpick : pick base (some ours) (some theirs) with
  | ok v =>
    rcases ThreeWay.pick_eq_ok hpick with ⟨rfl, -⟩ | ⟨rfl, -⟩ <;> rfl
  | error e => simp only [or_comm]

theorem settledDrop_comm (base ours theirs : Option Tombstone) : settledDrop base theirs ours = settledDrop base ours theirs := by
  unfold settledDrop
  rw [ThreeWay.pick_comm]

theorem byYaml_comm (yaml : YamlView) (x y : Rec) : byYaml yaml x y = byYaml yaml y x := by
  cases x with
  | dead t => cases y <;> rfl
  | live a =>
    cases y with
    | dead t => rfl
    | live b =>
      simp only [byYaml]
      cases yaml.columns.contains a <;> cases yaml.columns.contains b <;> rfl

theorem never_comm (x y : V) : never x y = never y x := rfl

/-! ## Files up to the order of their records -/

/-- The sections of a file have distinct keys, as in every file that is read. -/
def Body.Distinct : Body → Prop
  | .table t => (t.columns.map (·.1)).Nodup ∧ (t.partitions.map (·.1)).Nodup ∧ (t.moves.map (·.1)).Nodup ∧
    (t.conversions.map (·.1)).Nodup ∧ (t.rebuilds.map (·.1)).Nodup
  | _ => True

instance : (b : Body) → Decidable b.Distinct
  | .table t => inferInstanceAs (Decidable ((t.columns.map (·.1)).Nodup ∧ (t.partitions.map (·.1)).Nodup ∧
      (t.moves.map (·.1)).Nodup ∧ (t.conversions.map (·.1)).Nodup ∧ (t.rebuilds.map (·.1)).Nodup))
  | .role _ => .isTrue trivial
  | .type _ => .isTrue trivial
  | .extension _ => .isTrue trivial

def Body.Same : Body → Body → Prop
  | .table a, .table b => a.table = b.table ∧ a.columns.Perm b.columns ∧ a.partitions.Perm b.partitions ∧
    a.moves.Perm b.moves ∧ a.conversions.Perm b.conversions ∧ a.rebuilds.Perm b.rebuilds
  | .role a, .role b => a = b
  | .type a, .type b => a = b
  | .extension a, .extension b => a = b
  | _, _ => False

/-- Files that differ in the order of their records at most. -/
structure TreeFile.Same (a b : TreeFile) : Prop where
  uid : a.uid = b.uid
  dropped : a.dropped = b.dropped
  body : a.body.Same b.body

theorem restoreOrder_perm (columns : List (Uid × Rec)) (yaml : YamlView) : (restoreOrder columns yaml).Perm columns :=
  perm_insertionSort _ _

theorem sorted_perm (records : List (Uid × V)) : (sorted records).Perm records := perm_insertionSort _ _

theorem mergedTable_columns_perm (yaml : YamlView) (name : String) (base ours theirs : TableBody) :
    (mergedTable yaml name base ours theirs).columns.Perm
      (recordsOf (byYaml yaml) base.columns ours.columns theirs.columns) := by
  simp only [mergedTable]
  split
  · exact .refl _
  · exact restoreOrder_perm _ yaml

theorem mergedTable_same {name : String} {base ours theirs t : TableBody} (hname : name = t.table)
    (hcolumns : (recordsOf (byYaml yaml) base.columns ours.columns theirs.columns).Perm t.columns)
    (hpartitions : (recordsOf never base.partitions ours.partitions theirs.partitions).Perm t.partitions)
    (hmoves : (recordsOf never base.moves ours.moves theirs.moves).Perm t.moves)
    (hconversions : (recordsOf never base.conversions ours.conversions theirs.conversions).Perm t.conversions)
    (hrebuilds : (recordsOf never base.rebuilds ours.rebuilds theirs.rebuilds).Perm t.rebuilds) :
    (Body.table (mergedTable yaml name base ours theirs)).Same (.table t) :=
  ⟨hname, (mergedTable_columns_perm yaml name base ours theirs).trans hcolumns, hpartitions, (sorted_perm _).trans hmoves,
    (sorted_perm _).trans hconversions, (sorted_perm _).trans hrebuilds⟩

/-! ## No update is lost -/

/-- One record of a merge: a side yields where it did not change it, and two different changes are decided or not at
all. -/
structure Follows {V : Type} (decided : Option V → Prop) (base ours theirs result : Option V) : Prop where
  oursChanged : theirs = base → result = ours
  theirsChanged : ours = base → result = theirs
  common : ours = theirs → result = ours
  otherwise : ours ≠ theirs → theirs ≠ base → ours ≠ base → decided result

def ByYaml (yaml : YamlView) (ours theirs result : Option Rec) : Prop :=
  ∃ x y, ours = some (.live x) ∧ theirs = some (.live y) ∧
    ((x ∈ yaml.columns ∧ y ∉ yaml.columns ∧ result = ours) ∨ (y ∈ yaml.columns ∧ x ∉ yaml.columns ∧ result = theirs))

def Body.Follows (yaml : YamlView) : Body → Body → Body → Body → Prop
  | .table b, .table o, .table t, .table r =>
    (∀ u : Uid, Tree.Follows (ByYaml yaml (index o.columns)[u]? (index t.columns)[u]?) (index b.columns)[u]? (index o.columns)[u]?
      (index t.columns)[u]? (index r.columns)[u]?) ∧
    (∀ u : Uid, Tree.Follows (fun _ => False) (index b.partitions)[u]? (index o.partitions)[u]? (index t.partitions)[u]?
      (index r.partitions)[u]?) ∧
    (∀ u : Uid, Tree.Follows (fun _ => False) (index b.moves)[u]? (index o.moves)[u]? (index t.moves)[u]? (index r.moves)[u]?) ∧
    (∀ u : Uid, Tree.Follows (fun _ => False) (index b.conversions)[u]? (index o.conversions)[u]? (index t.conversions)[u]?
      (index r.conversions)[u]?) ∧
    ∀ u : Uid, Tree.Follows (fun _ => False) (index b.rebuilds)[u]? (index o.rebuilds)[u]? (index t.rebuilds)[u]?
      (index r.rebuilds)[u]?
  | .role _, .role _, .role _, .role _ => True
  | .type _, .type _, .type _, .type _ => True
  | .extension _, .extension _, .extension _, .extension _ => True
  | _, _, _, _ => False

theorem follows_of_choose [DecidableEq V] {base ours theirs : Option V} {decided : Option V → Prop}
    (hjudge : ∀ x y z, ours = some x → theirs = some y → judge x y = some z → decided (some z))
    (h : choose judge base ours theirs ≠ none) : Follows decided base ours theirs (choose judge base ours theirs).join where
  oursChanged hb := by rw [hb, ThreeWay.choose_base_right, join_some]
  theirsChanged hb := by rw [hb, ThreeWay.choose_base_left, join_some]
  common hb := by rw [hb, ThreeWay.choose_self, join_some]
  otherwise h1 h2 h3 := by
    obtain ⟨v, hv⟩ := ne_none_iff_exists'.1 h
    rcases ThreeWay.choose_cases hv with ⟨-, h | h⟩ | ⟨-, h⟩ | ⟨x, y, z, hx, hy, hz, rfl, -⟩
    · exact absurd h h1
    · exact absurd h h2
    · exact absurd h h3
    · rw [hv]
      exact hjudge x y z hx hy hz

theorem byYaml_eq_some {x y z : Rec} (h : byYaml yaml x y = some z) : ByYaml yaml (some x) (some y) (some z) := by
  cases x with
  | dead t => cases h
  | live a =>
    cases y with
    | dead t => cases h
    | live b =>
      refine ⟨a, b, rfl, rfl, ?_⟩
      simp only [byYaml] at h
      cases ha : yaml.columns.contains a <;> cases hb : yaml.columns.contains b <;> rw [ha, hb] at h <;> cases h
      · exact .inr ⟨contains_iff_mem.1 hb, fun hmem => by simp [hmem] at ha, rfl⟩
      · exact .inl ⟨contains_iff_mem.1 ha, fun hmem => by simp [hmem] at hb, rfl⟩

theorem follows_never [DecidableEq V] {out : List (Uid × V)} (ho : (ours.map (·.1)).Nodup) (ht : (theirs.map (·.1)).Nodup)
    (hout : out.Perm (recordsOf never base ours theirs)) (h : ∀ u, chosen never base ours theirs u ≠ none) (u : Uid) :
    Follows (fun _ => False) (index base)[u]? (index ours)[u]? (index theirs)[u]? (index out)[u]? := by
  rw [index_perm hout (nodup_recordsOf ho ht), index_recordsOf ho ht]
  exact follows_of_choose (fun x y z _ _ hz => nomatch hz) (h u)

section Tables

variable {yaml : YamlView} {serde : Serde} {base ours theirs : TableBody}

variable {name : String}

variable (ho : (Body.table ours).Distinct) (ht : (Body.table theirs).Distinct)
include ho ht

theorem mergedTable_follows (h : tableConflicts serde yaml base ours theirs = []) :
    Body.Follows yaml (.table base) (.table ours) (.table theirs) (.table (mergedTable yaml name base ours theirs)) := by
  simp only [tableConflicts, append_eq_nil_iff, conflictsOf_eq_nil] at h
  obtain ⟨⟨⟨⟨hcolumns, hpartitions⟩, hmoves⟩, hconversions⟩, hrebuilds⟩ := h
  obtain ⟨ho1, ho2, ho3, ho4, ho5⟩ := ho
  obtain ⟨ht1, ht2, ht3, ht4, ht5⟩ := ht
  refine ⟨fun u => ?_, follows_never ho2 ht2 (.refl _) hpartitions, follows_never ho3 ht3 (sorted_perm _) hmoves,
    follows_never ho4 ht4 (sorted_perm _) hconversions, follows_never ho5 ht5 (sorted_perm _) hrebuilds⟩
  rw [index_perm (mergedTable_columns_perm yaml name base ours theirs) (nodup_recordsOf ho1 ht1), index_recordsOf ho1 ht1]
  refine follows_of_choose (fun x y z hx hy hz => ?_) (hcolumns u)
  rw [hx, hy]
  exact byYaml_eq_some hz

theorem tableConflicts_comm :
    (tableConflicts serde yaml base theirs ours).Perm ((tableConflicts serde yaml base ours theirs).map Conflict.swap) := by
  obtain ⟨ho1, ho2, ho3, ho4, ho5⟩ := ho
  obtain ⟨ht1, ht2, ht3, ht4, ht5⟩ := ht
  simp only [tableConflicts, map_append]
  exact ((((conflictsOf_comm (byYaml_comm yaml) ho1 ht1 _ _ _).append (conflictsOf_comm never_comm ho2 ht2 _ _ _)).append
    (conflictsOf_comm never_comm ho3 ht3 _ _ _)).append (conflictsOf_comm never_comm ho4 ht4 _ _ _)).append
    (conflictsOf_comm never_comm ho5 ht5 _ _ _)

theorem mergedTable_comm :
    (Body.table (mergedTable yaml name base theirs ours)).Same (.table (mergedTable yaml name base ours theirs)) := by
  obtain ⟨ho1, ho2, ho3, ho4, ho5⟩ := ho
  obtain ⟨ht1, ht2, ht3, ht4, ht5⟩ := ht
  exact mergedTable_same rfl
    ((recordsOf_comm (byYaml_comm yaml) ho1 ht1).trans (mergedTable_columns_perm yaml name base ours theirs).symm)
    (recordsOf_comm never_comm ho2 ht2) ((recordsOf_comm never_comm ho3 ht3).trans (sorted_perm _).symm)
    ((recordsOf_comm never_comm ho4 ht4).trans (sorted_perm _).symm)
    ((recordsOf_comm never_comm ho5 ht5).trans (sorted_perm _).symm)

end Tables

/-! ## Whole files -/

section Files

variable {serde : Serde} {yaml : YamlView} {base ours theirs : TreeFile}

/-- Files of one identity: one uid, one kind, and sections that list a uid once. -/
structure OneIdentity (a b : TreeFile) : Prop where
  uid : a.uid = b.uid
  kind : a.body.kind = b.body.kind

variable {a b f : TreeFile}

theorem OneIdentity.key (h : OneIdentity a b) : a.body.key.1 = b.body.key.1 := by
  have hkind := h.kind
  cases hab : a.body <;> cases hbb : b.body <;> rw [hab, hbb] at hkind <;> first | rfl | cases hkind

theorem OneIdentity.symm (h : OneIdentity a b) : OneIdentity b a := ⟨h.uid.symm, h.kind.symm⟩

theorem OneIdentity.trans {c : TreeFile} (h : OneIdentity a b) (h' : OneIdentity b c) : OneIdentity a c :=
  ⟨h.uid.trans h'.uid, h.kind.trans h'.kind⟩

theorem baseOf_eq (h : ours.uid = base.uid) : baseOf (some base) ours.uid = some base := by
  rw [baseOf, filter_some, if_pos (by simp [h])]

theorem merge_eq (h : OneIdentity ours theirs) : merge serde (some base) (some ours) (some theirs) yaml =
    if (conflictsBoth serde yaml (some base) ours theirs).isEmpty then .ok (some (mergedFile yaml (some base) ours theirs))
    else .error (conflictsBoth serde yaml (some base) ours theirs) := mergeBoth_eq serde yaml h.uid h.key

theorem mergeOne_eq_ok {base : Option TreeFile} {only : TreeFile} {oursDeleted : Bool}
    (h : mergeOne base only oursDeleted = .ok (some f)) : f = only ∧ ∀ deleted, mergeOne base only deleted = .ok (some f) := by
  unfold mergeOne at h ⊢
  split at h
  · cases h
  · next hne =>
    split at h
    · next hnone =>
      refine ⟨(some.inj (Except.ok.inj h)).symm, fun _ => ?_⟩
      rw [if_neg hne, if_pos hnone]
      exact h
    · cases h

theorem mergeBoth_eq_ok {base : Option TreeFile} (h : mergeBoth serde base ours theirs yaml = .ok (some f)) :
    OneIdentity ours theirs ∧ conflictsBoth serde yaml base ours theirs = [] ∧ f = mergedFile yaml base ours theirs := by
  have hsame : OneIdentity ours theirs := by
    unfold mergeBoth at h
    split at h
    · cases h
    · next hsame =>
      rw [not_or, not_not, not_not] at hsame
      refine ⟨hsame.1, ?_⟩
      have hkey := hsame.2
      cases hob : ours.body <;> cases htb : theirs.body <;> rw [hob, htb] at hkey <;> first | rfl | simp [Body.key] at hkey
  rw [mergeBoth_eq serde yaml hsame.uid hsame.key] at h
  split at h
  · next hempty => exact ⟨hsame, List.isEmpty_iff.1 hempty, (some.inj (Except.ok.inj h)).symm⟩
  · cases h

theorem merge_eq_ok (hf : merge serde (some base) (some ours) (some theirs) yaml = .ok (some f)) :
    conflictsBoth serde yaml (some base) ours theirs = [] ∧ f = mergedFile yaml (some base) ours theirs :=
  (mergeBoth_eq_ok hf).2

theorem merge_follows (ho : OneIdentity ours base) (ht : OneIdentity theirs base) (hod : ours.body.Distinct)
    (htd : theirs.body.Distinct) (hf : merge serde (some base) (some ours) (some theirs) yaml = .ok (some f)) :
    base.body.Follows yaml ours.body theirs.body f.body := by
  obtain ⟨hnone, rfl⟩ := merge_eq_ok hf
  simp only [conflictsBoth, mergedFile, baseOf_eq ho.uid, map_some, append_eq_nil_iff] at hnone ⊢
  have hok := ho.kind
  have htk := ht.kind
  cases hb : base.body <;> cases hob : ours.body <;> cases htb : theirs.body <;> rw [hb] at hok htk <;> rw [hob] at hok hod <;>
    rw [htb] at htk htd <;> try trivial
  rw [hb, hob, htb] at hnone
  exact mergedTable_follows hod htd hnone.2

theorem conflictsBoth_comm {base : Option TreeFile} (h : OneIdentity ours theirs) (hod : ours.body.Distinct)
    (htd : theirs.body.Distinct) : (conflictsBoth serde yaml base theirs ours).Perm
      ((conflictsBoth serde yaml base ours theirs).map Conflict.swap) := by
  simp only [conflictsBoth, ← h.uid, settledName_comm _ ours.body.key.2, settledDrop_comm _ ours.dropped, map_append]
  refine (List.Perm.append (.of_eq ?_) (.of_eq ?_)).append ?_
  · split <;> rfl
  · split <;> rfl
  · cases hob : ours.body <;> cases htb : theirs.body <;> try exact .refl _
    rw [hob] at hod
    rw [htb] at htd
    exact tableConflicts_comm hod htd

theorem mergedFile_comm {base : Option TreeFile} (h : OneIdentity ours theirs) (hod : ours.body.Distinct)
    (htd : theirs.body.Distinct) (hnone : conflictsBoth serde yaml base ours theirs = []) :
    (mergedFile yaml base theirs ours).Same (mergedFile yaml base ours theirs) := by
  simp only [conflictsBoth, append_eq_nil_iff] at hnone
  have hname : ∃ n, settledName ((baseOf base ours.uid).map (·.body.key.2)) ours.body.key.2 theirs.body.key.2 yaml.name =
      some n := by
    cases hs : settledName ((baseOf base ours.uid).map (·.body.key.2)) ours.body.key.2 theirs.body.key.2 yaml.name with
    | some n => exact ⟨n, rfl⟩
    | none =>
      rw [hs] at hnone
      simp at hnone
  obtain ⟨n, hn⟩ := hname
  have hkind := h.kind
  refine ⟨h.uid.symm, ?_, ?_⟩
  · simp only [mergedFile, ← h.uid, settledDrop_comm _ ours.dropped]
  · simp only [mergedFile, ← h.uid, settledName_comm _ ours.body.key.2, hn, getD_some]
    cases hob : ours.body <;> cases htb : theirs.body <;> rw [hob, htb] at hkind <;> first | rfl | cases hkind
    rw [hob] at hod
    rw [htb] at htd
    exact mergedTable_comm hod htd

/-- A merge gives a side wherever choosing value by value does. -/
theorem merge_gives {side : TreeFile} (ho : OneIdentity ours base) (ht : OneIdentity theirs base) (hs : OneIdentity side base)
    (hod : ours.body.Distinct) (htd : theirs.body.Distinct) (hsd : side.body.Distinct)
    (h : ∀ {V : Type} [DecidableEq V] (judge : V → V → Option V) (v : TreeFile → Option V),
      choose judge (v base) (v ours) (v theirs) = some (v side)) :
    ∃ f, merge serde (some base) (some ours) (some theirs) yaml = .ok (some f) ∧ f.Same side := by
  have hname : settledName (some base.body.key.2) ours.body.key.2 theirs.body.key.2 yaml.name = some side.body.key.2 := by
    unfold settledName
    rw [ThreeWay.pick_of_choose_never (h never fun f => some f.body.key.2)]
    rfl
  have hdropped : settledDrop base.dropped ours.dropped theirs.dropped = some side.dropped := by
    unfold settledDrop
    rw [ThreeWay.pick_of_choose_never (h never fun f => f.dropped)]
  have hsection : ∀ {V : Type} [DecidableEq V] (judge : V → V → Option V) (sec : TableBody → List (Uid × V)) (u : Uid),
      chosen judge (sec (tableBody (some base.body))) (sec (tableBody (some ours.body))) (sec (tableBody (some theirs.body))) u =
        some (index (sec (tableBody (some side.body))))[u]? :=
    fun judge sec u => h judge fun f => (index (sec (tableBody (some f.body))))[u]?
  have hbody : bodyConflicts serde yaml (some base.body) ours.body theirs.body = [] ∧
      (mergedBody yaml (some base.body) side.body.key.2 ours.body theirs.body).Same side.body := by
    have hok := ho.kind
    have htk := ht.kind
    have hsk := hs.kind
    cases hb : base.body <;> cases hob : ours.body <;> cases htb : theirs.body <;> cases hsb : side.body <;>
      rw [hb] at hok htk hsk <;> rw [hob] at hok hod <;> rw [htb] at htk htd <;> rw [hsb] at hsk hsd <;>
      first | exact ⟨rfl, rfl⟩ | cases hok; done | cases htk; done | cases hsk; done | skip
    rw [hb, hob, htb, hsb] at hsection
    obtain ⟨ho1, ho2, ho3, ho4, ho5⟩ := hod
    obtain ⟨ht1, ht2, ht3, ht4, ht5⟩ := htd
    obtain ⟨hs1, hs2, hs3, hs4, hs5⟩ := hsd
    constructor
    · simp only [bodyConflicts, tableConflicts, append_eq_nil_iff]
      exact ⟨⟨⟨⟨conflictsOf_eq_nil_of_chosen (hsection _ TableBody.columns),
        conflictsOf_eq_nil_of_chosen (hsection _ TableBody.partitions)⟩,
        conflictsOf_eq_nil_of_chosen (hsection _ TableBody.moves)⟩,
        conflictsOf_eq_nil_of_chosen (hsection _ TableBody.conversions)⟩,
        conflictsOf_eq_nil_of_chosen (hsection _ TableBody.rebuilds)⟩
    · exact mergedTable_same rfl (recordsOf_perm_of_chosen ho1 ht1 hs1 (hsection _ TableBody.columns))
        (recordsOf_perm_of_chosen ho2 ht2 hs2 (hsection _ TableBody.partitions))
        (recordsOf_perm_of_chosen ho3 ht3 hs3 (hsection _ TableBody.moves))
        (recordsOf_perm_of_chosen ho4 ht4 hs4 (hsection _ TableBody.conversions))
        (recordsOf_perm_of_chosen ho5 ht5 hs5 (hsection _ TableBody.rebuilds))
  refine ⟨mergedFile yaml (some base) ours theirs, ?_, ?_, ?_, ?_⟩
  · rw [merge_eq (ho.trans ht.symm), if_pos]
    simp only [conflictsBoth, baseOf_eq ho.uid, map_some, bind_some, hname, hdropped, hbody.1]
    rfl
  · exact ho.uid.trans hs.uid.symm
  · simp only [mergedFile, baseOf_eq ho.uid, bind_some, hdropped, join_some]
  · simp only [mergedFile, baseOf_eq ho.uid, map_some, hname, getD_some]
    exact hbody.2

end Files

/-- The three-way merge of files of one identity: what is at every uid of a merge that succeeds, what the other order of
the sides gives, and what a merge with an unchanged side gives. -/
theorem merge_even_handed (serde : Serde) (yaml : YamlView) {base ours theirs : TreeFile} (ho : OneIdentity ours base)
    (ht : OneIdentity theirs base) (hbd : base.body.Distinct) (hod : ours.body.Distinct) (htd : theirs.body.Distinct) :
    (∀ f, merge serde (some base) (some ours) (some theirs) yaml = .ok (some f) →
      base.body.Follows yaml ours.body theirs.body f.body) ∧
    ((∃ f g, merge serde (some base) (some ours) (some theirs) yaml = .ok (some f) ∧
        merge serde (some base) (some theirs) (some ours) yaml = .ok (some g) ∧ g.Same f) ∨
      ∃ cs cs', merge serde (some base) (some ours) (some theirs) yaml = .error cs ∧
        merge serde (some base) (some theirs) (some ours) yaml = .error cs' ∧ cs'.Perm (cs.map Conflict.swap)) ∧
    (∃ f, merge serde (some base) (some ours) (some ours) yaml = .ok (some f) ∧ f.Same ours) ∧
    (∃ f, merge serde (some base) (some base) (some ours) yaml = .ok (some f) ∧ f.Same ours) ∧
    ∃ f, merge serde (some base) (some ours) (some base) yaml = .ok (some f) ∧ f.Same ours := by
  have hbase : OneIdentity base base := ⟨rfl, rfl⟩
  refine ⟨fun f hf => merge_follows ho ht hod htd hf, ?_, ?_, ?_, ?_⟩
  · have hswap := @conflictsBoth_comm serde yaml ours theirs (some base) (ho.trans ht.symm) hod htd
    rw [merge_eq (ho.trans ht.symm), merge_eq (ht.trans ho.symm)]
    by_cases hnone : conflictsBoth serde yaml (some base) ours theirs = []
    · have hnone' : conflictsBoth serde yaml (some base) theirs ours = [] := by
        rw [hnone] at hswap
        exact hswap.eq_nil
      rw [hnone, hnone']
      exact .inl ⟨_, _, rfl, rfl, mergedFile_comm (ho.trans ht.symm) hod htd hnone⟩
    · have hnone' : conflictsBoth serde yaml (some base) theirs ours ≠ [] := by
        intro hnil
        rw [hnil] at hswap
        exact hnone (map_eq_nil_iff.1 hswap.symm.eq_nil)
      refine .inr ⟨_, _, if_neg ?_, if_neg ?_, hswap⟩
      · rwa [List.isEmpty_iff]
      · rwa [List.isEmpty_iff]
  · exact merge_gives ho ho ho hod hod hod fun _ _ => ThreeWay.choose_self
  · exact merge_gives hbase ho ho hbd hod hod fun _ _ => ThreeWay.choose_base_left
  · exact merge_gives ho hbase ho hod hbd hod fun _ _ => ThreeWay.choose_base_right

namespace Rename

def serde : Serde := ⟨fun _ => "", fun _ => .error "not read"⟩

def before : TreeFile :=
  ⟨⟨"t_aaaaaa"⟩, .table { table := "dbo.t", columns := [(⟨"c_aaaaa1"⟩, .live "id"), (⟨"c_aaaaa2"⟩, .live "name")] }, none⟩

def after : TreeFile :=
  ⟨⟨"t_aaaaaa"⟩, .table { table := "dbo.t", columns := [(⟨"c_aaaaa1"⟩, .live "id"), (⟨"c_aaaaa2"⟩, .live "title")] }, none⟩

/-- A rename on one side follows over the side that left the column alone. -/
theorem merge_keeps_rename :
    ∃ f, merge serde (some before) (some before) (some after) { columns := ["id", "title"] } = .ok (some f) ∧ f.Same after :=
  (@merge_even_handed serde { columns := ["id", "title"] } before after before ⟨rfl, rfl⟩ ⟨rfl, rfl⟩ (by decide)
    (by decide) (by decide)).2.2.2.1

end Rename

end Pbps.Tree
