/-
What a merge computes, part by part: the records of each section, and the conflicts in the order they are pushed. A merge
that succeeds chose one value for every uid of every section.
-/
import Pbps.Lib.Map
import Pbps.Tree.Merge

namespace Pbps.Tree

open Std (ExtTreeMap)
open ThreeWay (pick choose never keys mem_keys nodup_keys keys_comm)

/-! ## One section -/

section Section

variable {V : Type} [DecidableEq V] (judge : V → V → Option V) (base ours theirs : List (Uid × V))

def chosen (u : Uid) : Option (Option V) := choose judge (index base)[u]? (index ours)[u]? (index theirs)[u]?

def recordsOf : List (Uid × V) :=
  (keys (ours.map (·.1)) (theirs.map (·.1))).filterMap fun u => (chosen judge base ours theirs u).join.map (u, ·)

def conflictsOf (serde : Serde) (sectionName : String) (doc : V → Doc) : List Conflict :=
  ((keys (ours.map (·.1)) (theirs.map (·.1))).filter fun u => (chosen judge base ours theirs u).isNone).map fun u =>
    conflict serde u sectionName doc (index ours)[u]? (index theirs)[u]?

variable {judge base ours theirs}

variable {side : List (Uid × V)} {u : Uid} {v : V}

omit [DecidableEq V] in
theorem mem_index : u ∈ index side ↔ u ∈ side.map (·.1) := by
  rw [index, ExtTreeMap.mem_ofList]
  simp

variable (serde : Serde) (sectionName : String) (doc : V → Doc)

theorem foldl_pushRecord (judge : V → V → Option V) (base ours theirs : List (Uid × V)) (uids : List Uid)
    (out : List (Uid × V) × List Conflict) :
    uids.foldl (fun out u => pushRecord serde sectionName doc u (index ours)[u]? (index theirs)[u]? out
      (chosen judge base ours theirs u)) out =
      (out.1 ++ uids.filterMap (fun u => (chosen judge base ours theirs u).join.map (u, ·)),
        out.2 ++ (uids.filter fun u => (chosen judge base ours theirs u).isNone).map fun u =>
          conflict serde u sectionName doc (index ours)[u]? (index theirs)[u]?) := by
  induction uids generalizing out with
  | nil => simp
  | cons u uids ih =>
    rw [List.foldl_cons, ih]
    cases hchosen : chosen judge base ours theirs u with
    | none => simp [hchosen, pushRecord]
    | some v => cases v <;> simp [hchosen, pushRecord]

theorem records_eq (conflicts : List Conflict) : records serde sectionName doc base ours theirs judge conflicts =
      (recordsOf judge base ours theirs, conflicts ++ conflictsOf judge base ours theirs serde sectionName doc) := by
  have hkeys : ours.map (·.1) ++ (theirs.map (·.1)).filter (fun u => !(index ours).contains u) =
      keys (ours.map (·.1)) (theirs.map (·.1)) := by
    rw [keys]
    congr 1
    apply List.filter_congr
    intro u _
    congr 1
    rw [Bool.eq_iff_iff, ExtTreeMap.contains_iff_mem, mem_index, List.contains_iff_mem]
  have hfold := foldl_pushRecord serde sectionName doc judge base ours theirs (keys (ours.map (·.1)) (theirs.map (·.1)))
    ([], conflicts)
  rw [List.nil_append] at hfold
  rw [records]
  simp only [hkeys]
  exact hfold

omit [DecidableEq V] in
theorem index_eq_some (h : (side.map (·.1)).Nodup) : (index side)[u]? = some v ↔ (u, v) ∈ side := by
  rw [index, ExtTreeMap.getElem?_ofList_eq_some h]

omit [DecidableEq V] in
theorem mem_of_index (h : (index side)[u]? = some v) : (u, v) ∈ side :=
  ExtTreeMap.mem_of_getElem?_ofList h

theorem chosen_of_not_mem (ho : u ∉ ours.map (·.1)) (ht : u ∉ theirs.map (·.1)) :
    chosen judge base ours theirs u = some none := by
  have hnone : ∀ {side : List (Uid × V)}, u ∉ side.map (·.1) → (index side)[u]? = none := by
    intro side h
    rw [← Option.not_isSome_iff_eq_none, ← ExtTreeMap.mem_iff_isSome_getElem?, mem_index]
    exact h
  rw [chosen, hnone ho, hnone ht, ThreeWay.choose_self]

theorem mem_recordsOf : (u, v) ∈ recordsOf judge base ours theirs ↔ chosen judge base ours theirs u = some (some v) := by
  simp only [recordsOf, List.mem_filterMap, Option.map_eq_some_iff, Prod.mk.injEq, Option.join_eq_some_iff]
  constructor
  · rintro ⟨u', -, v', hv', rfl, rfl⟩
    exact hv'
  · intro h
    refine ⟨u, ?_, v, h, rfl, rfl⟩
    rw [mem_keys]
    by_contra hne
    rw [not_or] at hne
    rw [chosen_of_not_mem hne.1 hne.2] at h
    cases h

theorem recordsOf_keys_sublist : ((recordsOf judge base ours theirs).map (·.1)).Sublist
    (keys (ours.map (·.1)) (theirs.map (·.1))) := by
  rw [recordsOf, List.map_filterMap]
  generalize keys (ours.map (·.1)) (theirs.map (·.1)) = uids
  induction uids with
  | nil => exact .slnil
  | cons u uids ih =>
    cases h : (chosen judge base ours theirs u).join with
    | none => rw [List.filterMap_cons_none (by simp [h])]; exact ih.cons _
    | some v => rw [List.filterMap_cons_some (b := u) (by simp [h])]; exact ih.cons_cons _

section

variable (ho : (ours.map (·.1)).Nodup) (ht : (theirs.map (·.1)).Nodup)
include ho ht

theorem nodup_recordsOf :
    ((recordsOf judge base ours theirs).map (·.1)).Nodup := (nodup_keys ho ht).sublist recordsOf_keys_sublist

/-- A record of the result is a record of a side, or one that the judge made of both. -/
theorem index_recordsOf (u : Uid) :
    (index (recordsOf judge base ours theirs))[u]? = (chosen judge base ours theirs u).join := by
  apply Option.ext
  intro v
  rw [index_eq_some (nodup_recordsOf ho ht), mem_recordsOf, Option.join_eq_some_iff]

end

theorem conflictsOf_eq_nil {serde : Serde} {sectionName : String} {doc : V → Doc} :
    conflictsOf judge base ours theirs serde sectionName doc = [] ↔ ∀ u, chosen judge base ours theirs u ≠ none := by
  rw [conflictsOf, List.map_eq_nil_iff, List.filter_eq_nil_iff]
  constructor
  · intro h u hu
    by_cases hmem : u ∈ keys (ours.map (·.1)) (theirs.map (·.1))
    · exact h u hmem (by rw [hu]; rfl)
    · rw [mem_keys, not_or] at hmem
      rw [chosen_of_not_mem hmem.1 hmem.2] at hu
      cases hu
  · intro h u _ hnone
    exact h u (Option.isNone_iff_eq_none.1 hnone)

end Section

/-! ## The parts of a file -/

def settledName (base : Option String) (ours theirs : String) (yaml : Option String) : Option String :=
  match pick base (some ours) (some theirs) with
  | .ok v => some (v.getD ours)
  | .error () => if yaml = some ours ∨ yaml = some theirs then yaml else none

variable (serde : Serde) (uid : Uid)

theorem settle_eq (sectionName : String) (base : Option String) (ours theirs : String) (yaml : Option String)
    (conflicts : List Conflict) : settle serde uid sectionName base ours theirs yaml conflicts =
      ((settledName base ours theirs yaml).getD ours, conflicts ++ if (settledName base ours theirs yaml).isNone then
        [conflict serde uid sectionName .text (some ours) (some theirs)] else []) := by
  unfold settle settledName
  cases pick base (some ours) (some theirs) with
  | ok v => simp
  | error e =>
    by_cases hyaml : yaml = some ours ∨ yaml = some theirs
    · rcases hyaml with rfl | rfl <;> simp
    · simp [hyaml]

def settledDrop (base ours theirs : Option Tombstone) : Option (Option Tombstone) :=
  match pick base ours theirs with
  | .ok v => some v
  | .error () => none

theorem settleDrop_eq (base ours theirs : Option Tombstone) (conflicts : List Conflict) :
    settleDrop serde uid base ours theirs conflicts =
      ((settledDrop base ours theirs).join, conflicts ++ if (settledDrop base ours theirs).isNone then
        [conflict serde uid "dropped" .tombstone ours theirs] else []) := by
  unfold settleDrop settledDrop
  cases pick base ours theirs <;> simp

section Bodies

variable (serde : Serde) (yaml : YamlView)

def mergedTable (name : String) (base ours theirs : TableBody) : TableBody where
  table := name
  columns :=
    let columns := recordsOf (byYaml yaml) base.columns ours.columns theirs.columns
    if yaml.columns.isEmpty then columns else restoreOrder columns yaml
  partitions := recordsOf never base.partitions ours.partitions theirs.partitions
  moves := sorted (recordsOf never base.moves ours.moves theirs.moves)
  conversions := sorted (recordsOf never base.conversions ours.conversions theirs.conversions)
  rebuilds := sorted (recordsOf never base.rebuilds ours.rebuilds theirs.rebuilds)

def tableConflicts (base ours theirs : TableBody) : List Conflict :=
  conflictsOf (byYaml yaml) base.columns ours.columns theirs.columns serde "columns" Rec.doc ++
  conflictsOf never base.partitions ours.partitions theirs.partitions serde "partitions" Rec.doc ++
  conflictsOf never base.moves ours.moves theirs.moves serde "moves" .move ++
  conflictsOf never base.conversions ours.conversions theirs.conversions serde "conversions" .conversion ++
  conflictsOf never base.rebuilds ours.rebuilds theirs.rebuilds serde "rebuilds" .rebuild

theorem mergeTable_eq (name : String) (base ours theirs : TableBody) (conflicts : List Conflict) :
    mergeTable serde name base ours theirs yaml conflicts =
      (mergedTable yaml name base ours theirs, conflicts ++ tableConflicts serde yaml base ours theirs) := by
  simp only [mergeTable, records_eq, mergedTable, tableConflicts, List.append_assoc]

def baseOf (base : Option TreeFile) (uid : Uid) : Option TreeFile := base.filter (·.uid = uid)

def mergedBody (base : Option Body) (name : String) : Body → Body → Body
  | .table o, .table t => .table (mergedTable yaml name (tableBody base) o t)
  | .role _, _ => .role name
  | .type _, _ => .type name
  | _, _ => .extension name

def bodyConflicts (base : Option Body) : Body → Body → List Conflict
  | .table o, .table t => tableConflicts serde yaml (tableBody base) o t
  | _, _ => []

theorem mergeBody_eq (name : String) (base : Option Body) (ours theirs : Body) (conflicts : List Conflict) :
    mergeBody serde name base ours theirs yaml conflicts =
      (mergedBody yaml base name ours theirs, conflicts ++ bodyConflicts serde yaml base ours theirs) := by
  cases ours <;> cases theirs <;> simp [mergeBody, mergeTable_eq, mergedBody, bodyConflicts]

def conflictsBoth (base : Option TreeFile) (ours theirs : TreeFile) : List Conflict :=
  let base := baseOf base ours.uid
  (if (settledName (base.map (·.body.key.2)) ours.body.key.2 theirs.body.key.2 yaml.name).isNone then
    [conflict serde ours.uid "name" .text (some ours.body.key.2) (some theirs.body.key.2)] else []) ++
  (if (settledDrop (base.bind (·.dropped)) ours.dropped theirs.dropped).isNone then
    [conflict serde ours.uid "dropped" .tombstone ours.dropped theirs.dropped] else []) ++
  bodyConflicts serde yaml (base.map (·.body)) ours.body theirs.body

def mergedFile (base : Option TreeFile) (ours theirs : TreeFile) : TreeFile :=
  let base := baseOf base ours.uid
  { uid := ours.uid
    body := mergedBody yaml (base.map (·.body))
      ((settledName (base.map (·.body.key.2)) ours.body.key.2 theirs.body.key.2 yaml.name).getD ours.body.key.2)
      ours.body theirs.body
    dropped := (settledDrop (base.bind (·.dropped)) ours.dropped theirs.dropped).join }

theorem mergeBoth_eq {base : Option TreeFile} {ours theirs : TreeFile} (huid : ours.uid = theirs.uid)
    (hkind : ours.body.key.1 = theirs.body.key.1) : mergeBoth serde base ours theirs yaml =
      if (conflictsBoth serde yaml base ours theirs).isEmpty then .ok (some (mergedFile yaml base ours theirs))
      else .error (conflictsBoth serde yaml base ours theirs) := by
  have hsame : ¬ (ours.uid ≠ theirs.uid ∨ ours.body.key.1 ≠ theirs.body.key.1) := by
    rw [not_or, not_not, not_not]
    exact ⟨huid, hkind⟩
  rw [mergeBoth, if_neg hsame]
  simp only [settle_eq, settleDrop_eq, mergeBody_eq, List.nil_append]
  rfl

end Bodies

end Pbps.Tree
