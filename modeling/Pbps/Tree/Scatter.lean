/-
Where `split` puts the entries of a mapping. The files are the objects that have a path; each record goes to exactly one of
them.
-/
import Mathlib.Data.Multiset.Filter
import Pbps.Tree.Split

namespace Pbps.Tree

open Std (ExtTreeMap)
open List Except Std.ExtTreeMap

/-! ## Records grouped by their owner -/

section Groups

variable {V : Type}

variable {records : List (Owned V)} {owners : List Uid}

section

variable (hnodup : owners.Nodup) (h : ∀ r ∈ records, r.owner ∈ owners)
include hnodup h

theorem flatMap_filter_owner_perm : (owners.flatMap fun o => records.filter (·.owner = o)).Perm records := by
  induction owners generalizing records with
  | nil =>
    have : records = [] := eq_nil_iff_forall_not_mem.2 fun r hr => by simpa using h r hr
    rw [this]
    exact .refl _
  | cons o owners ih =>
    rw [nodup_cons] at hnodup
    have hrest : (owners.flatMap fun x => records.filter (·.owner = x)) =
        owners.flatMap fun x => (records.filter fun r => !decide (r.owner = o)).filter (·.owner = x) := by
      apply flatMap_congr
      intro x hx
      rw [List.filter_filter]
      apply filter_congr
      intro r _
      have hne : x ≠ o := fun he => hnodup.1 (he ▸ hx)
      by_cases hr : r.owner = x
      · simp [hr, hne]
      · simp [hr]
    rw [flatMap_cons, hrest]
    have htail := @ih (records.filter fun r => !decide (r.owner = o)) hnodup.2 (by
      intro r hr
      rw [List.mem_filter] at hr
      rcases mem_cons.1 (h r hr.1) with he | he
      · simp [he] at hr
      · exact he)
    exact (htail.append_left _).trans (filter_append_perm _ _)

theorem flatMap_ownedBy_perm (g : Uid → Uid × V → List Entry) :
    (owners.flatMap fun o => (ownedBy records o).flatMap (g o)).Perm (records.flatMap fun r => g r.owner (r.uid, r.value)) := by
  have hgroups : (owners.flatMap fun o => (ownedBy records o).flatMap (g o)) =
      (owners.flatMap fun o => records.filter (·.owner = o)).flatMap fun r => g r.owner (r.uid, r.value) := by
    rw [flatMap_assoc]
    apply flatMap_congr
    intro o _
    rw [ownedBy, flatMap_map]
    apply flatMap_congr
    intro r hr
    rw [List.mem_filter, decide_eq_true_eq] at hr
    rw [hr.2]
  rw [hgroups]
  exact (flatMap_filter_owner_perm hnodup h).flatMap_right _

end

theorem ordered_perm (records : List (Uid × V)) (order : Option (List Uid)) : (ordered records order).Perm records :=
  perm_insertionSort _ _

end Groups

/-! ## The files -/

/-- What a split that succeeds went through. -/
structure Splits (ids : IdsFile) (p : Placement) (files : ExtTreeMap Uid TreeFile) (r : Records)
    (written : List (String × TreeFile)) : Prop where
  valid : Valid ids
  placed : (objects ids).foldlM (placeObjects p) ∅ = .ok files
  known : ∀ u, p.primary u = true → u ∈ files
  collected : collectRecords ids p files = .ok r
  written : writeFiles p r ∅ files.toList = .ok written

variable {p : Placement} {files : ExtTreeMap Uid TreeFile} {r : Records} {u : Uid} {f : TreeFile}

variable {ids : IdsFile}

theorem splits_of_splitFiles {written : List (String × TreeFile)} (h : splitFiles ids p = .ok written) :
    ∃ files r, Splits ids p files r written := by
  rw [splitFiles, bind_eq_ok] at h
  obtain ⟨hvalid, h⟩ := h
  obtain ⟨files, hplaced, h⟩ := bind_eq_ok_iff.1 h
  have hvalid : ids.validate = .ok () := by
    cases hv : ids.validate with
    | error e => rw [hv] at hvalid; cases hvalid
    | ok u => rfl
  split at h
  · cases h
  · next hknown =>
    obtain ⟨r, hr, h⟩ := bind_eq_ok_iff.1 h
    refine ⟨files, r, validate_eq_ok.1 hvalid, hplaced, fun u hu => ?_, hr, h⟩
    rw [List.find?_eq_none] at hknown
    have := hknown u (ExtTreeMap.mem_keys.2 (ExtTreeMap.contains_iff_mem.1 hu))
    simpa using this

theorem filterMap_sublist_map {α β : Type} {f : α → Option β} {g : α → β} (h : ∀ a b, f a = some b → b = g a) (l : List α) :
    (l.filterMap f).Sublist (l.map g) := by
  induction l with
  | nil => exact .slnil
  | cons a l ih =>
    cases ha : f a with
    | none => rw [filterMap_cons_none ha, map_cons]; exact ih.cons _
    | some b => rw [filterMap_cons_some ha, map_cons, h a b ha]; exact ih.cons_cons _

theorem nodup_objects (h : Valid ids) : ((objects ids).map (·.uid)).Nodup := by
  have hsub : List.Sublist ((objects ids).map fun f => (Space.identity, f.uid)) ((entries ids).map Entry.key) := by
    simp only [objects, entries, map_append, List.map_map, Function.comp_def, Entry.key, map_filterMap]
    have htomb := filterMap_sublist_map (f := fun e : Uid × Tombstone => ((tombstoneBody e.1 e.2).map fun body =>
      (⟨e.1, body, some e.2⟩ : TreeFile)).map fun f => (Space.identity, f.uid)) (g := fun e => (Space.identity, e.1)) (by
        rintro ⟨u, t⟩ b hb
        simp only [Option.map_map, Option.map_eq_some_iff] at hb
        obtain ⟨body, -, rfl⟩ := hb
        rfl) ids.tombstones.toList
    apply sublist_append_of_sublist_left
    apply sublist_append_of_sublist_left
    apply sublist_append_of_sublist_left
    exact ((((sublist_append_left _ _).append (.refl _)).append (.refl _)).append (.refl _)).append htomb
  have := (nodup_keys_entries h).sublist hsub
  exact Nodup.of_map (fun u => (Space.identity, u)) (by rwa [List.map_map])

/-- The objects that have a path are the files; another is a table's partition. -/
theorem foldlM_placeObjects {objs : List TreeFile} {files' : ExtTreeMap Uid TreeFile}
    (h : objs.foldlM (placeObjects p) files = .ok files') (hnodup : (objs.map (·.uid)).Nodup) (hnew : ∀ f ∈ objs, f.uid ∉ files) :
    (∀ f ∈ objs, p.primary f.uid = true ∨ (f.body.isTable = true ∧ p.children.contains f.uid = true)) ∧
      ∀ (u : Uid) f, files'[u]? = some f ↔ files[u]? = some f ∨ (f ∈ objs ∧ f.uid = u ∧ p.primary u = true) := by
  induction objs generalizing files with
  | nil =>
    cases h
    simp
  | cons o objs ih =>
    rw [map_cons, nodup_cons] at hnodup
    rw [forall_mem_cons] at hnew
    rw [foldlM_cons, placeObjects] at h
    split at h
    · next hprimary =>
      have hrest := @ih (files.insert o.uid o) h hnodup.2 (by
        intro f hf hmem
        rw [mem_insert, Std.LawfulEqOrd.compare_eq_iff_eq] at hmem
        rcases hmem with heq | hmem
        · exact hnodup.1 (List.mem_map.2 ⟨f, hf, heq.symm⟩)
        · exact hnew.2 f hf hmem)
      refine ⟨forall_mem_cons.2 ⟨.inl hprimary, hrest.1⟩, fun u f => ?_⟩
      rw [hrest.2 u f, getElem?_insert_eq_some, mem_cons]
      constructor
      · rintro ((⟨rfl, rfl⟩ | ⟨-, hf⟩) | ⟨hf, rfl, hp⟩)
        · exact .inr ⟨.inl rfl, rfl, hprimary⟩
        · exact .inl hf
        · exact .inr ⟨.inr hf, rfl, hp⟩
      · rintro (hf | ⟨rfl | hf, rfl, hp⟩)
        · refine .inl (.inr ⟨?_, hf⟩)
          rintro rfl
          exact hnew.1 (mem_of_getElem?_eq hf)
        · exact .inl (.inl ⟨rfl, rfl⟩)
        · exact .inr ⟨hf, rfl, hp⟩
    · next hprimary =>
      split at h
      · next hchild =>
        have hrest := ih h hnodup.2 hnew.2
        rw [Bool.and_eq_true] at hchild
        refine ⟨forall_mem_cons.2 ⟨.inr hchild, hrest.1⟩, fun u f => ?_⟩
        rw [hrest.2 u f, mem_cons]
        constructor
        · rintro (hf | ⟨hf, rfl, hp⟩)
          · exact .inl hf
          · exact .inr ⟨.inr hf, rfl, hp⟩
        · rintro (hf | ⟨rfl | hf, rfl, hp⟩)
          · exact .inl hf
          · exact absurd hp hprimary
          · exact .inr ⟨hf, rfl, hp⟩
      · cases h

theorem writeFiles_eq_ok : ∀ {l : List (Uid × TreeFile)} {taken : ExtTreeMap String Uid}
    {written : List (String × TreeFile)}, writeFiles p r taken l = .ok written →
    Forall₂ (fun e w => w.2 = fill p r e.2 ∧ w.2.Rules) l written ∧ (written.map (·.1)).Nodup ∧ ∀ w ∈ written, w.1 ∉ taken
  | [], _, _, h => by
    cases h
    exact ⟨.nil, .nil, by simp⟩
  | (uid, file) :: l, taken, written, h => by
    rw [writeFiles] at h
    split at h
    · cases h
    · next path _ =>
      split at h
      · cases h
      · next hfree =>
        obtain ⟨hcheck, h⟩ := bind_eq_ok.1 h
        obtain ⟨rest, hrest, h⟩ := bind_eq_ok_iff.1 h
        cases h
        obtain ⟨hall, hnodup, htaken⟩ := writeFiles_eq_ok hrest
        have hfree : path ∉ taken := by
          rw [mem_iff_exists]
          simp [hfree]
        have hother : ∀ w ∈ rest, w.1 ≠ path ∧ w.1 ∉ taken := by
          intro w hw
          have := htaken w hw
          rw [mem_insert, Std.LawfulEqOrd.compare_eq_iff_eq, not_or] at this
          exact ⟨Ne.symm this.1, this.2⟩
        refine ⟨.cons ⟨rfl, check_eq_ok.1 hcheck⟩ hall, ?_, ?_⟩
        · rw [map_cons, nodup_cons]
          refine ⟨fun hmem => ?_, hnodup⟩
          obtain ⟨w, hw, heq⟩ := List.mem_map.1 hmem
          exact (hother w hw).1 heq
        · exact forall_mem_cons.2 ⟨hfree, fun w hw => (hother w hw).2⟩

def own (f : TreeFile) : List Entry := f.liveEntry.toList ++ (f.dropped.map (.tombstone f.uid)).toList

def nameAt (files : ExtTreeMap Uid TreeFile) (u : Uid) : TableName :=
  match files[u]? with
  | some f =>
    match f.body with
    | .table t => f.tableName t
    | _ => ⟨"", ""⟩
  | none => ⟨"", ""⟩

def ownedBody (r : Records) (u : Uid) (table : String) : TableBody where
  table := table
  columns := ownedBy r.columns u
  partitions := ownedBy r.partitions u
  moves := ownedBy r.moves u
  conversions := ownedBy r.conversions u
  rebuilds := ownedBy r.rebuilds u

def Houses (files : ExtTreeMap Uid TreeFile) (u : Uid) : Prop := ∃ f t, files[u]? = some f ∧ TreeFile.body f = .table t

theorem houses_of_tableFile (h : tableFile files u = .ok ()) : Houses files u := by
  rw [tableFile, require_eq_ok, Option.any_eq_true] at h
  obtain ⟨f, hf, htable⟩ := h
  cases hbody : f.body with
  | table t => exact ⟨f, t, hf, hbody⟩
  | role n => rw [hbody] at htable; cases htable
  | type n => rw [hbody] at htable; cases htable
  | extension n => rw [hbody] at htable; cases htable

/-- Every record is owned by a table's file. -/
structure Records.Housed (files : ExtTreeMap Uid TreeFile) (r : Records) : Prop where
  columns : ∀ o ∈ r.columns, Houses files o.owner
  partitions : ∀ o ∈ r.partitions, Houses files o.owner
  moves : ∀ o ∈ r.moves, Houses files o.owner
  conversions : ∀ o ∈ r.conversions, Houses files o.owner
  rebuilds : ∀ o ∈ r.rebuilds, Houses files o.owner

theorem ownedBy_eq_nil {V : Type} {records : List (Owned V)} (h : ∀ o ∈ records, Houses files o.owner) (hf : files[u]? = some f)
    (hbody : ∀ t, f.body ≠ .table t) : ownedBy records u = [] := by
  rw [ownedBy, map_eq_nil_iff, filter_eq_nil_iff]
  intro o ho heq
  rw [decide_eq_true_eq] at heq
  obtain ⟨f', t, hf', ht⟩ := h o ho
  rw [heq, hf] at hf'
  cases hf'
  exact hbody t ht

theorem Records.Housed.entries_ownedBody (hr : r.Housed files) (hf : files[u]? = some f) (hbody : ∀ t, f.body ≠ .table t)
    (name : TableName) : (ownedBody r u "").entries name = [] := by
  simp only [TableBody.entries, ownedBody, ownedBy_eq_nil hr.columns hf hbody, ownedBy_eq_nil hr.partitions hf hbody,
    ownedBy_eq_nil hr.moves hf hbody, ownedBy_eq_nil hr.conversions hf hbody, ownedBy_eq_nil hr.rebuilds hf hbody]
  rfl

theorem TableBody.entries_perm {t t' : TableBody} (name : TableName) (hcolumns : t.columns.Perm t'.columns)
    (hpartitions : t.partitions.Perm t'.partitions) (hmoves : t.moves.Perm t'.moves)
    (hconversions : t.conversions.Perm t'.conversions) (hrebuilds : t.rebuilds.Perm t'.rebuilds) :
    (t.entries name).Perm (t'.entries name) := by
  rw [TableBody.entries, TableBody.entries]
  exact ((((hcolumns.map _).append (hpartitions.filterMap _)).append (hmoves.map _)).append (hconversions.map _)).append
    (hrebuilds.map _)

theorem entries_fill (hr : r.Housed files) (hf : files[f.uid]? = some f) :
    (fill p r f).entries.Perm (own f ++ (ownedBody r f.uid "").entries (nameAt files f.uid)) := by
  cases hbody : f.body with
  | table t =>
    have hname : nameAt files f.uid = f.tableName t := by
      rw [nameAt, hf]
      simp only [hbody]
    have hsections : ((⟨t.table, ordered (ownedBy r.columns f.uid) p.order[f.uid]?, ordered (ownedBy r.partitions f.uid) none,
        ordered (ownedBy r.moves f.uid) none, ordered (ownedBy r.conversions f.uid) none,
        ordered (ownedBy r.rebuilds f.uid) none⟩ : TableBody).entries (f.tableName t)).Perm
        ((ownedBody r f.uid "").entries (f.tableName t)) := by
      apply TableBody.entries_perm
      · exact ordered_perm (ownedBy r.columns f.uid) _
      · exact ordered_perm (ownedBy r.partitions f.uid) none
      · exact ordered_perm (ownedBy r.moves f.uid) none
      · exact ordered_perm (ownedBy r.conversions f.uid) none
      · exact ordered_perm (ownedBy r.rebuilds f.uid) none
    have hswap : ∀ a b c : List Entry, (a ++ b ++ c).Perm (a ++ c ++ b) := by
      intro a b c
      rw [append_assoc, append_assoc]
      exact perm_append_comm.append_left a
    rw [hname]
    refine Perm.trans ?_ (hsections.append_left _)
    obtain ⟨uid, body, dropped⟩ := f
    dsimp only at hbody
    subst hbody
    -- The live entry reads the name alone, which filling keeps.
    cases dropped with
    | none => exact hswap (TreeFile.liveEntry ⟨uid, .table t, none⟩).toList _ []
    | some tomb => exact hswap [] _ [.tombstone uid tomb]
  | role n =>
    rw [hr.entries_ownedBody hf (by simp [hbody]), append_nil, fill, hbody, TreeFile.entries, hbody, own, append_nil]
  | type n =>
    rw [hr.entries_ownedBody hf (by simp [hbody]), append_nil, fill, hbody, TreeFile.entries, hbody, own, append_nil]
  | extension n =>
    rw [hr.entries_ownedBody hf (by simp [hbody]), append_nil, fill, hbody, TreeFile.entries, hbody, own, append_nil]

end Pbps.Tree
