/-
Labels carried through the label renames of a plan (`carried_label` of `enum_labels.rs`): every label of an enum that the
plan renames labels of is carried to a label of its own, and back to itself.
-/
import Pbps.Diff.Relabel
import Pbps.Diff.Rows
import Pbps.Lib.Renaming

namespace Pbps.Diff

open Std (ExtTreeMap ExtTreeSet)
open List Option Std.ExtTreeMap

/-- Which way a label is carried through a plan's renames. -/
inductive Carry where
  /-- A label the database has now to the label it has when the plan is done. -/
  | forward
  /-- A label the plan leaves to the label the database has now. -/
  | backward
  deriving DecidableEq

/-- `carried_label`. -/
def carried (pairs : List (Nat × String × String)) (label : String) : Carry → String
  | .forward => carriedLabel pairs label
  | .backward => pairs.reverse.foldl (fun now (_, from_, to_) => if now = to_ then from_ else now) label

variable {pairs : List (Nat × String × String)} {u : Uid} {base desired : Side} {hints : Hints}

theorem carried_forward {label : String} : carried pairs label .forward = Renaming.forward (pairs.map Prod.snd) label := by
  rw [Renaming.forward, foldl_map]
  rfl

theorem carried_backward {label : String} : carried pairs label .backward = Renaming.backward (pairs.map Prod.snd) label := by
  rw [Renaming.backward, ← map_reverse, foldl_map]
  rfl

/-! ## The renames of one enum -/

def renameOf (uid : Uid) : Change → Option (Nat × String × String)
  | .renameEnumValue u _ from_ to_ ordinal _ _ => if u = uid then some (ordinal, from_, to_) else none
  | _ => none

def enumRenamesOf (uid : Uid) (changes : List Change) : List (Nat × String × String) := changes.filterMap (renameOf uid)

theorem foldl_labelRenames {uid : Uid} : ∀ (changes : List Change) (out : LabelRenames),
    (changes.foldl (fun (out : LabelRenames) change =>
      match change with
      | .renameEnumValue uid _ from_ to_ ordinal _ _ => out.insert uid (out.getD uid [] ++ [(ordinal, from_, to_)])
      | _ => out) out).getD uid [] = out.getD uid [] ++ enumRenamesOf uid changes
  | [], out => by rw [foldl_nil, enumRenamesOf, filterMap_nil, append_nil]
  | change :: changes, out => by
    rw [foldl_cons, foldl_labelRenames changes, enumRenamesOf, enumRenamesOf, filterMap_cons]
    cases change with
    | renameEnumValue u name from_ to_ ordinal retained definition =>
      by_cases hu : u = uid
      · subst hu
        simp [renameOf]
      · simp [renameOf, getD_insert, hu]
    | _ => rfl

theorem getD_labelRenames {uid : Uid} {changes : List Change} :
    (labelRenames changes).getD uid [] = (enumRenamesOf uid changes).mergeSort LabelRenames.le := by
  have hfold := @foldl_labelRenames uid changes ∅
  rw [getD_empty, nil_append] at hfold
  have hsorted : ∀ m : LabelRenames, (m.map fun _ pairs => pairs.mergeSort LabelRenames.le).getD uid [] =
      (m.getD uid []).mergeSort LabelRenames.le := by
    intro m
    rw [getD_eq_getD_getElem?, getD_eq_getD_getElem?, ExtTreeMap.getElem?_map]
    cases m[uid]? with
    | none => exact mergeSort_nil.symm
    | some pairs => rfl
  rw [labelRenames, hsorted]
  exact congrArg (·.mergeSort LabelRenames.le) hfold

theorem mergeSort_of_ordinals (h : (pairs.map Prod.fst).Pairwise (· < ·)) : pairs.mergeSort LabelRenames.le = pairs := by
  refine mergeSort_of_pairwise ((pairwise_map.1 h).imp fun {a b} hlt => ?_)
  rw [LabelRenames.le, decide_eq_true hlt, Bool.true_or]

/-! ## What a type's changes rename -/

variable {uid : Uid} {name : TypeRef}

theorem mem_replace_of_ne {from_ to_ x : String} : ∀ {l : List String}, x ∈ l → x ≠ from_ → x ∈ l.replace from_ to_
  | a :: l, hx, hne => by
    rw [replace_cons]
    rcases mem_cons.1 hx with rfl | hx
    · have hfalse : (from_ == x) = false := by simpa using Ne.symm hne
      rw [hfalse]
      exact mem_cons_self
    · split
      · exact mem_cons_of_mem _ hx
      · exact mem_cons_of_mem _ (mem_replace_of_ne hx hne)

theorem mem_replace_self {from_ to_ : String} : ∀ {l : List String}, from_ ∈ l → to_ ∈ l.replace from_ to_
  | a :: l, h => by
    rw [replace_cons]
    split
    · exact mem_cons_self
    · next hne =>
      rcases mem_cons.1 h with rfl | h
      · simp at hne
      · exact mem_cons_of_mem _ (mem_replace_self h)

theorem renameLabels_free : ∀ (fuel : Nat) {pending : ExtTreeMap String String} {run : LabelRun},
    (∀ x ∈ pending, x ∈ run.current) → ∃ pairs : List (Nat × String × String),
      enumRenamesOf uid (renameLabels uid name fuel pending run).changes = enumRenamesOf uid run.changes ++ pairs ∧
      (pairs.map Prod.fst).Pairwise (· < ·) ∧ (∀ p ∈ pairs, run.ordinal ≤ p.1) ∧
      Renaming.Free {x | x ∈ run.current} (pairs.map Prod.snd)
  | 0, _, run, _ => ⟨[], by simp [renameLabels], .nil, by simp, .done _⟩
  | fuel + 1, pending, run, hsub => by
    unfold renameLabels
    split_ifs with hempty
    · exact ⟨[], by simp, .nil, by simp, .done _⟩
    split
    next => exact ⟨[], by simp, .nil, by simp, .done _⟩
    next from_ to_ hfind =>
      have hto : to_ ∉ run.current := by
        have hp := List.find?_some hfind
        simpa using hp
      have hfrom : from_ ∈ run.current := by
        apply hsub
        exact mem_of_getElem?_eq (getElem?_of_mem_toList (mem_of_find?_eq_some hfind))
      let next : LabelRun := { run with
        changes := run.changes ++ [.renameEnumValue uid name from_ to_ run.ordinal [] (.enum (run.current.replace from_ to_))]
        current := run.current.replace from_ to_
        ordinal := run.ordinal + 1 }
      have hsub' : ∀ x ∈ pending.erase from_, x ∈ next.current := by
        intro x hx
        obtain ⟨hne, hx⟩ := mem_erase.1 hx
        exact mem_replace_of_ne (hsub x hx) (by rintro rfl; simp at hne)
      obtain ⟨pairs, hpairs, hordinals, hfrom', hfree⟩ := renameLabels_free fuel hsub'
      refine ⟨(run.ordinal, from_, to_) :: pairs, ?_, ?_, ?_, ?_⟩
      · rw [hpairs]
        simp [next, enumRenamesOf, renameOf]
      · rw [map_cons, pairwise_cons]
        refine ⟨fun n hn => ?_, hordinals⟩
        obtain ⟨p, hp, rfl⟩ := List.mem_map.1 hn
        exact hfrom' p hp
      · intro p hp
        rcases mem_cons.1 hp with rfl | hp
        · exact le_rfl
        · exact Nat.le_of_succ_le (hfrom' p hp)
      · refine .step hto (fun x hx => ?_) hfree
        by_cases h : x = from_
        · rw [Renaming.rename, if_pos h]
          exact mem_replace_self hfrom
        · rw [Renaming.rename, if_neg h]
          exact mem_replace_of_ne hx h

theorem renamesOf_eq_nil {changes : List Change} (h : ∀ c ∈ changes, renameOf u c = none) : enumRenamesOf u changes = [] :=
  filterMap_eq_nil_iff.2 h

theorem renameLabels_other (hu : uid ≠ u) : ∀ (fuel : Nat) (pending : ExtTreeMap String String) (run : LabelRun),
    enumRenamesOf u (renameLabels uid name fuel pending run).changes = enumRenamesOf u run.changes
  | 0, _, _ => rfl
  | fuel + 1, pending, run => by
    unfold renameLabels
    split_ifs with hempty
    · rfl
    split
    · rfl
    · rw [renameLabels_other hu fuel]
      simp [enumRenamesOf, renameOf, hu]

theorem renamesOf_addLabels (wanted : List String) (run : LabelRun) :
    enumRenamesOf u (addLabels uid name wanted run).changes = enumRenamesOf u run.changes := by
  unfold addLabels
  generalize wanted.zipIdx = entries
  induction entries generalizing run with
  | nil => rfl
  | cons e entries ih =>
    rw [foldl_cons, ih]
    dsimp only
    by_cases hstands : run.current.contains e.1 = true
    · rw [if_pos hstands]
    · rw [if_neg hstands]
      simp [enumRenamesOf, renameOf]

theorem renamesOf_labelChanges {old wanted : List String} :
    enumRenamesOf u (labelChanges uid name base desired hints old wanted).1 = [] ∨
      enumRenamesOf u (labelChanges uid name base desired hints old wanted).1 =
        enumRenamesOf u (renamedRun uid name hints old wanted).changes := by
  rcases labelChanges_cases uid name base desired hints old wanted with
    ⟨-, h⟩ | ⟨steps, h, -, hsteps⟩ | ⟨problem, h⟩ | ⟨-, h⟩
  · rw [h]
    exact .inl rfl
  · right
    have hnone : enumRenamesOf u steps = [] := by
      refine renamesOf_eq_nil fun c hc => ?_
      have hstep := hsteps c hc
      cases c with
      | renameEnumValue => cases hstep
      | _ => rfl
    rw [h]
    show enumRenamesOf u (_ ++ steps) = _
    rw [enumRenamesOf, filterMap_append]
    exact (congrArg _ hnone).trans (append_nil _)
  · rw [h]
    exact .inr rfl
  · rw [h]
    exact .inr (renamesOf_addLabels wanted _)

theorem labelChanges_free (uid : Uid) (name : TypeRef) (base desired : Side) (hints : Hints) (old wanted : List String) :
    ((enumRenamesOf uid (labelChanges uid name base desired hints old wanted).1).map Prod.fst).Pairwise (· < ·) ∧
      Renaming.Free {x | x ∈ old} ((enumRenamesOf uid (labelChanges uid name base desired hints old wanted).1).map Prod.snd) := by
  have hcases : enumRenamesOf uid (labelChanges uid name base desired hints old wanted).1 = [] ∨ _ := renamesOf_labelChanges
  rcases hcases with h | h
  · rw [h]
    exact ⟨.nil, .done _⟩
  · let start : LabelRun := { current := old, errors := (pendingRenames old wanted (hints.enumValueRenames.getD name ∅)).2 }
    have hold : ∀ x ∈ (pendingRenames old wanted (hints.enumValueRenames.getD name ∅)).1, x ∈ start.current :=
      fun x hx => mem_of_pendingRenames hx
    obtain ⟨pairs, hpairs, hordinals, -, hfree⟩ := renameLabels_free
      ((pendingRenames old wanted (hints.enumValueRenames.getD name ∅)).1.size + 1) hold
    have hrun : enumRenamesOf uid (renamedRun uid name hints old wanted).changes = pairs := by
      rw [renamedRun, hpairs]
      rfl
    rw [h, hrun]
    exact ⟨hordinals, hfree⟩

/-! ## Every enum -/

theorem renamesOf_labelsOf {e : Uid × TypeRef} (hne : e.1 ≠ uid) :
    enumRenamesOf uid (labelsOf base desired hints e).changes = [] := by
  unfold labelsOf
  split
  next wanted old _ _ =>
    have hcases : enumRenamesOf uid (labelChanges e.1 e.2 base desired hints old wanted).1 = [] ∨ _ := renamesOf_labelChanges
    rcases hcases with h | h
    · exact h
    · refine h.trans ?_
      rw [renamedRun, renameLabels_other hne]
      rfl
  next => rfl

theorem enumRenamesOf_enumLabels : enumRenamesOf uid (enumLabels base desired hints).changes =
      (desired.ids.types[uid]?).elim [] fun name => enumRenamesOf uid (labelsOf base desired hints (uid, name)).changes := by
  show enumRenamesOf uid (desired.ids.types.toList.flatMap fun e => (labelsOf base desired hints e).changes) = _
  rw [enumRenamesOf, filterMap_flatMap]
  cases huid : desired.ids.types[uid]? with
  | none =>
    rw [elim_none, flatMap_eq_nil_iff]
    intro e he
    refine renamesOf_labelsOf ?_
    rintro rfl
    rw [getElem?_of_mem_toList he] at huid
    cases huid
  | some name =>
    refine flatMap_eq_of_mem (a := (uid, name)) nodup_toList (mem_toList_iff_getElem?_eq_some.2 huid) ?_
    intro e he hne
    refine renamesOf_labelsOf ?_
    rintro rfl
    rw [getElem?_of_mem_toList he, some.injEq] at huid
    exact hne (Prod.ext rfl huid)

theorem enumLabels_free {old : List String} (hold : enumOf base uid = some old) :
    ((enumRenamesOf uid (enumLabels base desired hints).changes).map Prod.fst).Pairwise (· < ·) ∧
      Renaming.Free {x | x ∈ old} ((enumRenamesOf uid (enumLabels base desired hints).changes).map Prod.snd) := by
  rw [enumRenamesOf_enumLabels]
  cases huid : desired.ids.types[uid]? with
  | none => exact ⟨.nil, .done _⟩
  | some name =>
    rw [elim_some, labelsOf_eq base desired hints huid, hold]
    cases declaredEnum desired uid with
    | none => exact ⟨.nil, .done _⟩
    | some e =>
      have hname : ∀ wanted, _ := fun wanted => labelChanges_free uid name base desired hints old wanted
      exact hname e.2

/-- The labels an enum has are carried through a plan's renames to labels apart, and each back to itself. -/
theorem carried_there_and_back (base desired : Side) (hints : Hints) (uid : Uid) (old : List String)
    (hold : enumOf base uid = some old) :
    let pairs := (labelRenames (enumLabels base desired hints).changes).getD uid []
    (∀ a ∈ old, ∀ b ∈ old, carried pairs a .forward = carried pairs b .forward → a = b) ∧
      ∀ a ∈ old, carried pairs (carried pairs a .forward) .backward = a := by
  intro pairs
  obtain ⟨hordinals, hfree⟩ := @enumLabels_free base desired hints uid old hold
  have hpairs : pairs = enumRenamesOf uid (enumLabels base desired hints).changes := by
    rw [← mergeSort_of_ordinals hordinals]
    exact getD_labelRenames
  have hback : ∀ a ∈ old, carried pairs (carried pairs a .forward) .backward = a := by
    intro a ha
    rw [carried_forward, carried_backward, hpairs]
    exact Renaming.leftInvOn hfree ha
  refine ⟨fun a ha b hb hab => ?_, hback⟩
  rw [← hback a ha, hab, hback b hb]

/-- A label that takes the name another has just left. -/
theorem carried_there_and_back_mood :
    let pairs := (labelRenames (enumLabels (Mood.side ["sad", "meh", "ok"]) (Mood.side ["sad", "ok", "fine"]) Mood.hints).changes).getD
      ⟨"y_mood"⟩ []
    carried pairs "meh" .forward = "ok" ∧ carried pairs (carried pairs "meh" .forward) .backward = "meh" := by
  have h := carried_there_and_back (Mood.side ["sad", "meh", "ok"]) (Mood.side ["sad", "ok", "fine"]) Mood.hints ⟨"y_mood"⟩
    ["sad", "meh", "ok"] (by decide)
  refine ⟨?_, h.2 "meh" (by decide)⟩
  rw [getD_labelRenames, mergeSort_of_ordinals (by decide)]
  decide

end Pbps.Diff
