/-
What PostgreSQL makes of the label steps of `enum_labels.rs`. A label is renamed in place and added beside
a neighbour or at the end, and the engine refuses a step whose label or neighbour is not there or whose
new label is.
-/
import Mathlib.Data.List.Sort
import Pbps.Lib.Check
import Pbps.Lib.Map
import Pbps.Diff.Labels

namespace Pbps.Diff

open Std (ExtTreeMap ExtTreeSet)
open List Std.ExtTreeMap

/-! ## The engine's rules -/

def stepLabels (labels : List String) : Change → Option (List String)
  | .renameEnumValue _ _ from_ to_ _ _ _ =>
    if from_ ∈ labels ∧ to_ ∉ labels then some (labels.map fun l => if l = from_ then to_ else l) else none
  | .addEnumValue _ _ value placement _ _ =>
    if value ∈ labels then none
    else
      match placement with
      | none => some (labels ++ [value])
      | some (.before n) => if n ∈ labels then some (labels.insertIdx (labels.idxOf n) value) else none
      | some (.after n) => if n ∈ labels then some (labels.insertIdx (labels.idxOf n + 1) value) else none
  | _ => none

/-- The type a label step is of, its place among the type's steps and the definition it records. -/
def labelStep? : Change → Option (Uid × Nat × ManagedType)
  | .renameEnumValue uid _ _ _ ordinal _ definition => some (uid, ordinal, definition)
  | .addEnumValue uid _ _ _ ordinal definition => some (uid, ordinal, definition)
  | _ => none

def isLabelStep (uid : Uid) (c : Change) : Bool := (labelStep? c).any fun s => s.1 = uid

def labelOrdinal (c : Change) : Nat := (labelStep? c).elim 0 fun s => s.2.1

def isRebuildOf (uid : Uid) : Change → Bool
  | .enumRebuild u _ _ _ => u = uid
  | _ => false

def labelSteps (uid : Uid) (changes : List Change) : List Change :=
  (changes.filter (isLabelStep uid)).insertionSort fun a b => labelOrdinal a ≤ labelOrdinal b

/-- Steps the engine takes one after the other, each of which records the labels it leaves. -/
inductive Replays : List String → List Change → List String → Prop
  | done (labels : List String) : Replays labels [] labels
  | step {labels labels' final : List String} {c : Change} {steps : List Change} (taken : stepLabels labels c = some labels')
      (recorded : (labelStep? c).map (fun s => s.2.2) = some (.enum labels')) (rest : Replays labels' steps final) :
      Replays labels (c :: steps) final

theorem Replays.append {a b c : List String} {s t : List Change} (h : Replays a s b) (h' : Replays b t c) :
    Replays a (s ++ t) c := by
  induction h with
  | done => exact h'
  | step taken recorded _ ih => exact .step taken recorded (ih h')

/-! ## Runs -/

/-- What a run has emitted since another: steps of the type, numbered on, that lead from its labels to the
labels now. -/
structure LabelRun.Emits (uid : Uid) (a b : LabelRun) (steps : List Change) : Prop where
  changes : b.changes = a.changes ++ steps
  replays : Replays a.current steps b.current
  own : ∀ c ∈ steps, isLabelStep uid c = true
  ordinals : steps.map labelOrdinal = List.range' a.ordinal steps.length
  ordinal : b.ordinal = a.ordinal + steps.length

namespace LabelRun.Emits

variable {uid : Uid} {a b c : LabelRun} {s t : List Change}

theorem refl (changes : a.changes = b.changes) (current : a.current = b.current) (ordinal : a.ordinal = b.ordinal) :
    LabelRun.Emits uid a b [] where
  changes := by rw [changes, append_nil]
  replays := by
    rw [current]
    exact .done _
  own := by simp
  ordinals := rfl
  ordinal := ordinal.symm

theorem trans (h : LabelRun.Emits uid a b s) (h' : LabelRun.Emits uid b c t) : LabelRun.Emits uid a c (s ++ t) where
  changes := by rw [h'.changes, h.changes, append_assoc]
  replays := h.replays.append h'.replays
  own := by
    intro x hx
    rcases mem_append.1 hx with hx | hx
    · exact h.own x hx
    · exact h'.own x hx
  ordinals := by
    rw [map_append, h.ordinals, h'.ordinals, h.ordinal, length_append, range'_append_1]
  ordinal := by
    rw [h'.ordinal, h.ordinal, length_append]
    omega

theorem sorted (h : LabelRun.Emits uid a b s) : s.insertionSort (fun a b => labelOrdinal a ≤ labelOrdinal b) = s := by
  apply List.Pairwise.insertionSort_eq
  have hp : (s.map labelOrdinal).Pairwise (· < ·) := by
    rw [h.ordinals]
    exact pairwise_lt_range'
  exact (pairwise_map.1 hp).imp fun hlt => Nat.le_of_lt hlt

end LabelRun.Emits

variable {uid : Uid} {name : TypeRef}

/-! ## Renames -/

section

variable {from_ to_ : String} {old wanted : List String} {run : LabelRun} {i : Nat} {base desired : Side} {hints : Hints}

theorem map_eq_replace : ∀ {l : List String}, l.Nodup →
    (l.map fun x => if x = from_ then to_ else x) = l.replace from_ to_
  | [], _ => rfl
  | a :: l, h => by
    obtain ⟨ha, hl⟩ := nodup_cons.1 h
    by_cases hf : a = from_
    · subst hf
      have hsame : (l.map fun x => if x = a then to_ else x) = l := by
        conv_rhs => rw [← List.map_id l]
        apply map_congr_left
        intro x hx
        rw [if_neg (by rintro rfl; exact ha hx), id]
      rw [map_cons, if_pos rfl, hsame, replace_cons_self]
    · have hne : (from_ == a) = false := by simpa using Ne.symm hf
      rw [map_cons, if_neg hf, map_eq_replace hl, replace_cons, hne]

variable {l rest current : List String} {α : Type}

theorem nodup_rename (h : l.Nodup) (hto : to_ ∉ l) : (l.map fun x => if x = from_ then to_ else x).Nodup := by
  refine Nodup.map_on ?_ h
  intro x hx y hy hxy
  by_cases hxf : x = from_ <;> by_cases hyf : y = from_
  · rw [hxf, hyf]
  · rw [if_pos hxf, if_neg hyf] at hxy
    exact absurd (hxy ▸ hy) hto
  · rw [if_neg hxf, if_pos hyf] at hxy
    exact absurd (hxy ▸ hx) hto
  · rwa [if_neg hxf, if_neg hyf] at hxy

theorem mem_rename {x : String} (hx : x ∈ l) (hne : x ≠ from_) : x ∈ l.map fun x => if x = from_ then to_ else x :=
  List.mem_map.2 ⟨x, hx, if_neg hne⟩

theorem mem_of_pendingRenames {renames : ExtTreeMap String String} (h : from_ ∈ (pendingRenames old wanted renames).1) :
    from_ ∈ old := by
  unfold pendingRenames at h
  change from_ ∈ (List.foldl _ _ _ : ExtTreeMap String String × List TypeProblem × List String).1 at h
  refine foldlRecOn (motive := fun acc : ExtTreeMap String String × _ × _ => ∀ x ∈ acc.1, x ∈ old) _ _
    (fun x hx => absurd hx not_mem_empty) (fun acc hacc e _ => ?_) from_ h
  dsimp only
  split_ifs with h1 h2 h3 h4 h5 h6
  all_goals try exact hacc
  intro x hx
  rcases mem_insert.1 hx with hx | hx
  · rw [← Std.LawfulEqOrd.eq_of_compare hx]
    exact List.contains_iff_mem.1 h5
  · exact hacc x hx

theorem renameLabels_emits : ∀ (fuel : Nat) {pending : ExtTreeMap String String} {run : LabelRun},
    run.current.Nodup → (∀ x ∈ pending, x ∈ run.current) →
      ∃ steps, run.Emits uid (renameLabels uid name fuel pending run) steps ∧
        (renameLabels uid name fuel pending run).current.length = run.current.length
  | 0, _, run, _, _ => ⟨[], .refl rfl rfl rfl, rfl⟩
  | fuel + 1, pending, run, hn, hsub => by
    unfold renameLabels
    split_ifs with hempty
    · exact ⟨[], .refl rfl rfl rfl, rfl⟩
    · split
      next => exact ⟨[], .refl rfl rfl rfl, rfl⟩
      next from_ to_ hfind =>
        have hto : to_ ∉ run.current := by
          have hp := find?_some hfind
          simpa using hp
        have hfrom : from_ ∈ run.current := by
          apply hsub
          exact mem_of_getElem?_eq (getElem?_of_mem_toList (mem_of_find?_eq_some hfind))
        rw [← map_eq_replace hn]
        have hsub' : ∀ x ∈ pending.erase from_, x ∈ run.current.map fun l => if l = from_ then to_ else l := by
          intro x hx
          obtain ⟨hne, hx⟩ := mem_erase.1 hx
          exact mem_rename (hsub x hx) (by rintro rfl; simp at hne)
        let next : LabelRun := { run with
          changes := run.changes ++ [.renameEnumValue uid name from_ to_ run.ordinal []
            (.enum (run.current.map fun l => if l = from_ then to_ else l))]
          current := run.current.map fun l => if l = from_ then to_ else l
          ordinal := run.ordinal + 1 }
        have hnext : next.current.Nodup := nodup_rename hn hto
        obtain ⟨steps, hsteps, hlen⟩ := renameLabels_emits fuel hnext hsub'
        refine ⟨_ :: steps, LabelRun.Emits.trans (s := [_]) ⟨rfl, ?_, ?_, rfl, rfl⟩ hsteps, ?_⟩
        · exact .step (by rw [stepLabels, if_pos ⟨hfrom, hto⟩]) rfl (.done _)
        · simp [isLabelStep, labelStep?]
        · rw [hlen, length_map]

/-! ## Additions -/

def addLabel (uid : Uid) (name : TypeRef) (wanted : List String) (run : LabelRun) (e : String × Nat) : LabelRun :=
  if run.current.contains e.1 then run
  else
    let placement :=
      if e.2 > 0 then (wanted[e.2 - 1]?).map EnumPlacement.after else run.current.head?.map EnumPlacement.before
    let current := run.current.insertIdx e.2 e.1
    { run with
      changes := run.changes ++ [.addEnumValue uid name e.1 placement run.ordinal (.enum current)]
      current := current
      ordinal := run.ordinal + 1 }

/-- The run when the loop comes to position `i` of the declaration. -/
def addedBefore (uid : Uid) (name : TypeRef) (wanted : List String) (run : LabelRun) (i : Nat) : LabelRun :=
  (wanted.zipIdx.take i).foldl (addLabel uid name wanted) run

theorem addLabels_eq (wanted : List String) (run : LabelRun) :
    addLabels uid name wanted run = addedBefore uid name wanted run wanted.length := by
  rw [addedBefore, take_of_length_le (by simp)]
  rfl

theorem addedBefore_succ (hi : i < wanted.length) :
    addedBefore uid name wanted run (i + 1) = addLabel uid name wanted (addedBefore uid name wanted run i) (wanted[i], i) := by
  rw [addedBefore, take_add_one, foldl_append]
  simp [addedBefore, hi]

theorem insertIdx_append_of_length (v : α) : ∀ {l m : List α} {n : Nat}, l.length = n →
    (l ++ m).insertIdx n v = l ++ v :: m
  | [], _, _, rfl => by simp
  | a :: l, m, _, rfl => by simp [insertIdx_append_of_length v rfl]

theorem idxOf_take_append (hn : wanted.Nodup) (hi : i < wanted.length) : (wanted.take (i + 1) ++ rest).idxOf wanted[i] = i := by
  have hmem : wanted[i] ∈ wanted.take (i + 1) := mem_take_iff_getElem.2 ⟨i, by omega, rfl⟩
  rw [idxOf_append_of_mem hmem]
  have hi' : i < (wanted.take (i + 1)).length := by
    rw [length_take]
    omega
  have h := List.Nodup.idxOf_getElem (hn.sublist (take_sublist (i + 1) wanted)) i hi'
  rwa [getElem_take] at h

theorem stepLabels_add (hn : wanted.Nodup) {ordinal : Nat} (hi : i < wanted.length) (hnew : wanted[i] ∉ wanted.take i ++ rest)
    {definition : ManagedType} : stepLabels (wanted.take i ++ rest) (.addEnumValue uid name wanted[i]
      (if i > 0 then (wanted[i - 1]?).map EnumPlacement.after else (wanted.take i ++ rest).head?.map EnumPlacement.before)
      ordinal definition) = some (wanted.take i ++ wanted[i] :: rest) := by
  simp only [stepLabels, hnew, if_false]
  cases i with
  | zero =>
    cases rest with
    | nil => simp
    | cons r rest => simp
  | succ i =>
    have hi' : i < wanted.length := by omega
    rw [if_pos (by omega), Nat.add_sub_cancel, getElem?_eq_getElem hi', Option.map_some]
    have hmem : wanted[i] ∈ wanted.take (i + 1) ++ rest :=
      mem_append_left _ (mem_take_iff_getElem.2 ⟨i, by omega, rfl⟩)
    have hlen : (wanted.take (i + 1)).length = i + 1 := by
      rw [length_take]
      omega
    dsimp only
    rw [if_pos hmem, idxOf_take_append hn hi', insertIdx_append_of_length _ hlen]

/-- When the loop comes to position `i` the labels are the first `i` declared, then those of the others
that stood before it began. -/
theorem addedBefore_emits (uid : Uid) (name : TypeRef) (hn : wanted.Nodup)
    (hkept : run.current = wanted.filter run.current.contains) :
    ∀ i ≤ wanted.length, ∃ steps, run.Emits uid (addedBefore uid name wanted run i) steps ∧
      (addedBefore uid name wanted run i).current = wanted.take i ++ (wanted.drop i).filter run.current.contains := by
  intro i
  induction i with
  | zero =>
    intro _
    exact ⟨[], .refl rfl rfl rfl, by simpa [addedBefore] using hkept⟩
  | succ i ih =>
    intro hi
    obtain ⟨steps, hsteps, hcur⟩ := ih (by omega)
    rw [addedBefore_succ (by omega)]
    generalize addedBefore uid name wanted run i = before at hsteps hcur ⊢
    have hlt : i < wanted.length := by omega
    have hdrop : wanted.drop i = wanted[i] :: wanted.drop (i + 1) := drop_eq_getElem_cons hlt
    have htake : wanted.take (i + 1) = wanted.take i ++ [wanted[i]] := by rw [take_succ_eq_append_getElem hlt]
    have hfresh : wanted[i] ∉ wanted.take i := by
      intro hmem
      obtain ⟨j, hj, hji⟩ := mem_take_iff_getElem.1 hmem
      have := (List.Nodup.getElem_inj_iff hn).1 hji
      omega
    unfold addLabel
    by_cases hold : run.current.contains wanted[i] = true
    · have hmem : before.current.contains wanted[i] = true := by
        rw [hcur, hdrop, filter_cons_of_pos hold]
        simp
      rw [if_pos hmem]
      refine ⟨steps, hsteps, ?_⟩
      rw [hcur, hdrop, filter_cons_of_pos hold, htake, append_assoc, singleton_append]
    · rw [hdrop, filter_cons_of_neg hold] at hcur
      have hnew : wanted[i] ∉ wanted.take i ++ (wanted.drop (i + 1)).filter run.current.contains := by
        rw [mem_append, List.mem_filter]
        rintro (h | h)
        · exact hfresh h
        · exact hold h.2
      have hnot : ¬ before.current.contains wanted[i] = true := by
        rw [List.contains_iff_mem, hcur]
        exact hnew
      rw [if_neg hnot]
      have hlen : (wanted.take i).length = i := by
        rw [length_take]
        omega
      have hins : before.current.insertIdx i wanted[i] =
          wanted.take i ++ wanted[i] :: (wanted.drop (i + 1)).filter run.current.contains := by
        rw [hcur, insertIdx_append_of_length _ hlen]
      refine ⟨steps ++ [_], hsteps.trans ⟨rfl, ?_, ?_, rfl, rfl⟩, ?_⟩
      · refine .step ?_ (by rw [labelStep?]; rfl) (.done _)
        rw [hins]
        conv_lhs => rw [hcur]
        exact stepLabels_add hn hlt hnew
      · simp [isLabelStep, labelStep?]
      · rw [hins, htake, append_assoc, singleton_append]

/-! ## One type -/

def renamedRun (uid : Uid) (name : TypeRef) (hints : Hints) (old wanted : List String) : LabelRun :=
  let pending := pendingRenames old wanted (hints.enumValueRenames.getD name ∅)
  renameLabels uid name (pending.1.size + 1) pending.1 { current := old, errors := pending.2 }

theorem renamedRun_emits (uid : Uid) (name : TypeRef) (hints : Hints) (wanted : List String) (hn : old.Nodup) :
    ∃ steps, LabelRun.Emits uid { current := old, errors := (pendingRenames old wanted (hints.enumValueRenames.getD name ∅)).2 }
      (renamedRun uid name hints old wanted) steps ∧ (renamedRun uid name hints old wanted).current.length = old.length :=
  renameLabels_emits _ hn fun _ hx => mem_of_pendingRenames hx

theorem removedLabels_eq_nil (hlen : current.length = old.length) (h : removedLabels old current wanted = []) :
    current.filter wanted.contains = current := by
  rw [filter_eq_self]
  intro l hl
  by_contra hno
  obtain ⟨i, hi, rfl⟩ := getElem_of_mem hl
  have hmem : (current[i], old[i]) ∈ (current.zip old).filter fun e => !wanted.contains e.1 := by
    rw [List.mem_filter]
    refine ⟨?_, by simpa using hno⟩
    rw [← getElem_zip (h := by simpa [hlen] using hi)]
    exact getElem_mem _
  rw [removedLabels, map_eq_nil_iff] at h
  rw [h] at hmem
  exact absurd hmem not_mem_nil

/-- Whether the labels are added in place: none is taken away, and those kept are in the declared order. -/
def InPlace (old wanted current : List String) : Prop :=
  removedLabels old current wanted = [] ∧ current.filter wanted.contains = wanted.filter current.contains

theorem InPlace.eq_filter (h : InPlace old wanted current) (hlen : current.length = old.length) :
    current = wanted.filter current.contains :=
  (removedLabels_eq_nil hlen h.1).symm.trans h.2

theorem rebuildType_steps {r : Replacement} {steps : List Change} (h : rebuildType base desired hints uid name r = .ok steps) :
    (∃ c ∈ steps, isRebuildOf uid c = true) ∧ ∀ c ∈ steps, labelStep? c = none := by
  unfold rebuildType at h
  split_ifs at h with hname
  · exact nomatch h
  obtain ⟨columns, -, h⟩ := Except.bind_eq_ok_iff.1 h
  split at h
  · exact nomatch h
  cases h
  refine ⟨⟨_, mem_append_right _ (mem_singleton_self _), by simp [isRebuildOf]⟩, ?_⟩
  intro c hc
  rw [mem_append, mem_append, mem_singleton, List.mem_map, mem_singleton] at hc
  rcases hc with (rfl | ⟨column, -, rfl⟩) | rfl
  · rfl
  · rfl
  · rfl

/-- What one type's labels come to: nothing to do, a rebuild, or the renames and then the additions. -/
theorem labelChanges_cases (uid : Uid) (name : TypeRef) (base desired : Side) (hints : Hints) (old wanted : List String) :
    (old = wanted ∧ labelChanges uid name base desired hints old wanted = ([], [])) ∨
    (∃ steps, labelChanges uid name base desired hints old wanted =
        ((renamedRun uid name hints old wanted).changes ++ steps, (renamedRun uid name hints old wanted).errors) ∧
      (∃ c ∈ steps, isRebuildOf uid c = true) ∧ ∀ c ∈ steps, labelStep? c = none) ∨
    (∃ problem, labelChanges uid name base desired hints old wanted =
        ((renamedRun uid name hints old wanted).changes, (renamedRun uid name hints old wanted).errors ++ [problem])) ∨
    (InPlace old wanted (renamedRun uid name hints old wanted).current ∧ labelChanges uid name base desired hints old wanted =
        ((addLabels uid name wanted (renamedRun uid name hints old wanted)).changes,
          (addLabels uid name wanted (renamedRun uid name hints old wanted)).errors)) := by
  unfold labelChanges
  dsimp only
  split_ifs with hsame hbuilt
  · exact .inl ⟨hsame.1, rfl⟩
  · cases hr : rebuildType base desired hints uid name
        { definition := .enum wanted
          removed := removedLabels old (renamedRun uid name hints old wanted).current wanted
          overType := none
          why := none
          values := .relabel (removedLabels old (renamedRun uid name hints old wanted).current wanted)
          ordinal := (renamedRun uid name hints old wanted).ordinal
          depth := 0 } with
    | error problem => exact .inr (.inr (.inl ⟨problem, by simp only [renamedRun] at hr ⊢; rw [hr]⟩))
    | ok steps =>
      refine .inr (.inl ⟨steps, by simp only [renamedRun] at hr ⊢; rw [hr], ?_⟩)
      exact rebuildType_steps hr
  · rw [Bool.or_eq_true, not_or] at hbuilt
    refine .inr (.inr (.inr ⟨⟨?_, ?_⟩, rfl⟩))
    · simpa [renamedRun] using hbuilt.1
    · simpa [renamedRun] using hbuilt.2

theorem addLabels_reaches (uid : Uid) (name : TypeRef) (hw : wanted.Nodup) (hin : InPlace old wanted run.current)
    (hlen : run.current.length = old.length) :
    (∃ steps, run.Emits uid (addLabels uid name wanted run) steps ∧ (addLabels uid name wanted run).current = wanted) ∧
      ∀ i ≤ wanted.length, i ≤ (addedBefore uid name wanted run i).current.length := by
  have hbefore := addedBefore_emits uid name hw (hin.eq_filter hlen)
  constructor
  · obtain ⟨steps, hsteps, hcur⟩ := hbefore wanted.length le_rfl
    rw [← addLabels_eq] at hsteps hcur
    exact ⟨steps, hsteps, by simpa using hcur⟩
  · intro i hi
    obtain ⟨-, -, hcur⟩ := hbefore i hi
    rw [hcur, length_append, length_take, min_eq_left hi]
    omega

theorem labelChanges_own (hn : old.Nodup) (hw : wanted.Nodup) {c : Change}
    (hc : c ∈ (labelChanges uid name base desired hints old wanted).1) : labelStep? c = none ∨ isLabelStep uid c = true := by
  obtain ⟨renames, hrenames, hlen⟩ := renamedRun_emits uid name hints wanted hn
  have hown : ∀ c ∈ (renamedRun uid name hints old wanted).changes, isLabelStep uid c = true := by
    rw [hrenames.changes]
    exact hrenames.own
  rcases labelChanges_cases uid name base desired hints old wanted with
    ⟨-, h⟩ | ⟨steps, h, -, hsteps⟩ | ⟨problem, h⟩ | ⟨hin, h⟩
  · rw [h] at hc
    exact absurd hc not_mem_nil
  · rw [h, mem_append] at hc
    exact hc.elim (fun hc => .inr (hown c hc)) fun hc => .inl (hsteps c hc)
  · rw [h] at hc
    exact .inr (hown c hc)
  · obtain ⟨⟨steps, hsteps, -⟩, -⟩ := addLabels_reaches uid name hw hin hlen
    rw [h, hsteps.changes, mem_append] at hc
    exact .inr (hc.elim (hown c) (hsteps.own c))

theorem labelChanges_reaches (hn : old.Nodup) (hw : wanted.Nodup)
    (herr : (labelChanges uid name base desired hints old wanted).2 = [])
    (hbuilt : ∀ c ∈ (labelChanges uid name base desired hints old wanted).1, isRebuildOf uid c = false) :
    ∃ a b : LabelRun, a.current = old ∧ b.current = wanted ∧
      a.Emits uid b (labelChanges uid name base desired hints old wanted).1 := by
  obtain ⟨renames, hrenames, hlen⟩ := renamedRun_emits uid name hints wanted hn
  rcases labelChanges_cases uid name base desired hints old wanted with
    ⟨hsame, h⟩ | ⟨steps, h, ⟨c, hc, hre⟩, -⟩ | ⟨problem, h⟩ | ⟨hin, h⟩
  · rw [h]
    exact ⟨{ current := old }, { current := wanted }, rfl, rfl, .refl rfl hsame rfl⟩
  · rw [h] at hbuilt
    exact absurd hre (by rw [hbuilt c (mem_append_right _ hc)]; exact Bool.false_ne_true)
  · rw [h] at herr
    exact absurd herr (by simp)
  · obtain ⟨⟨steps, hsteps, hcur⟩, -⟩ := addLabels_reaches uid name hw hin hlen
    have hall := hrenames.trans hsteps
    have hchanges : (labelChanges uid name base desired hints old wanted).1 = renames ++ steps := by
      rw [h, hall.changes, nil_append]
    rw [hchanges]
    exact ⟨_, _, rfl, hcur, hall⟩

/-! ## Every type -/

theorem flatMap_eq_of_mem {β : Type} {g : α → List β} {a : α} : ∀ {l : List α}, l.Nodup → a ∈ l →
    (∀ b ∈ l, b ≠ a → g b = []) → l.flatMap g = g a
  | b :: l, hn, ha, hother => by
    obtain ⟨hb, hl⟩ := nodup_cons.1 hn
    rw [flatMap_cons]
    rcases mem_cons.1 ha with rfl | ha
    · have hrest : l.flatMap g = [] := by
        rw [flatMap_eq_nil_iff]
        intro c hc
        exact hother c (mem_cons_of_mem _ hc) (by rintro rfl; exact hb hc)
      rw [hrest, append_nil]
    · rw [hother b mem_cons_self (by rintro rfl; exact hb ha), nil_append]
      exact flatMap_eq_of_mem hl ha fun c hc => hother c (mem_cons_of_mem _ hc)

/-- No enum names a label twice. -/
def DistinctLabels (schema : Schema) : Prop :=
  ∀ (name : TypeRef) (labels : List String), schema.types[name]? = some (.enum labels) → labels.Nodup

def labelsOf (base desired : Side) (hints : Hints) (e : Uid × TypeRef) : Out :=
  match desired.schema.types[e.2]?, (base.ids.types[e.1]?).bind (base.schema.types[·]?) with
  | some (.enum wanted), some (.enum old) =>
    let (changes, problems) := labelChanges e.1 e.2 base desired hints old wanted
    { changes, errs := problems.map (.typeLifecycleUnsupported e.2) }
  | _, _ => {}

section

variable (hb : DistinctLabels base.schema) (hd : DistinctLabels desired.schema)
include hb hd

theorem filter_labelsOf {e : Uid × TypeRef} (hne : e.1 ≠ uid) :
    (labelsOf base desired hints e).changes.filter (isLabelStep uid) = [] := by
  rw [filter_eq_nil_iff]
  intro c hc hstep
  unfold labelsOf at hc
  split at hc
  next wanted old hw ho =>
    obtain ⟨n, -, ho⟩ := Option.bind_eq_some_iff.1 ho
    rcases labelChanges_own (hb n old ho) (hd e.2 wanted hw) hc with h | h
    · rw [isLabelStep, h] at hstep
      exact absurd hstep (by simp)
    · rw [isLabelStep, Option.any_eq_true] at h hstep
      obtain ⟨x, hx, hxe⟩ := h
      obtain ⟨y, hy, hyu⟩ := hstep
      rw [hx, Option.some.injEq] at hy
      subst hy
      exact hne ((of_decide_eq_true hxe).symm.trans (of_decide_eq_true hyu))
  next => exact absurd hc not_mem_nil

theorem filter_enumLabels (huid : desired.ids.types[uid]? = some name) :
    (enumLabels base desired hints).changes.filter (isLabelStep uid) =
      (labelsOf base desired hints (uid, name)).changes.filter (isLabelStep uid) := by
  show (desired.ids.types.toList.flatMap fun e => (labelsOf base desired hints e).changes).filter _ = _
  rw [filter_flatMap]
  refine flatMap_eq_of_mem (a := (uid, name)) nodup_toList (mem_toList_iff_getElem?_eq_some.2 huid) ?_
  intro e he hne
  refine filter_labelsOf hb hd ?_
  rintro rfl
  rw [getElem?_of_mem_toList he, Option.some.injEq] at huid
  exact hne (Prod.ext rfl huid)

end

/-- Enum label plans reach the declared labels. -/
theorem enumLabels_reaches (base desired : Side) (hints : Hints) (hb : DistinctLabels base.schema)
    (hd : DistinctLabels desired.schema) (uid : Uid) (name : TypeRef) (old wanted : List String)
    (huid : desired.ids.types[uid]? = some name) (hwanted : desired.schema.types[name]? = some (.enum wanted))
    (hold : (base.ids.types[uid]?).bind (base.schema.types[·]?) = some (.enum old)) :
    ((∀ problem, DiffError.typeLifecycleUnsupported name problem ∉ (enumLabels base desired hints).errs) →
      (∀ c ∈ (enumLabels base desired hints).changes, isRebuildOf uid c = false) →
      Replays old (labelSteps uid (enumLabels base desired hints).changes) wanted) ∧
    -- each rename finds its label, and each insertion is at a place the list has
    (∃ labels, Replays old (renamedRun uid name hints old wanted).changes labels) ∧
    (InPlace old wanted (renamedRun uid name hints old wanted).current →
      ∀ i ≤ wanted.length, i ≤ (addedBefore uid name wanted (renamedRun uid name hints old wanted) i).current.length) := by
  have hw : wanted.Nodup := hd name wanted hwanted
  have hn : old.Nodup := by
    obtain ⟨n, -, h⟩ := Option.bind_eq_some_iff.1 hold
    exact hb n old h
  have hof : labelsOf base desired hints (uid, name) =
      { changes := (labelChanges uid name base desired hints old wanted).1
        errs := (labelChanges uid name base desired hints old wanted).2.map (.typeLifecycleUnsupported name) } := by
    simp only [labelsOf, hwanted, hold]
  have hmem : (uid, name) ∈ desired.ids.types.toList := mem_toList_iff_getElem?_eq_some.2 huid
  obtain ⟨renames, hrenames, hlen⟩ := renamedRun_emits uid name hints wanted hn
  have hfound : Replays old (renamedRun uid name hints old wanted).changes (renamedRun uid name hints old wanted).current := by
    rw [hrenames.changes]
    exact hrenames.replays
  refine ⟨?_, ⟨_, hfound⟩, fun hin => (addLabels_reaches uid name hw hin hlen).2⟩
  · intro herr hbuilt
    have herr' : (labelChanges uid name base desired hints old wanted).2 = [] := by
      rw [eq_nil_iff_forall_not_mem]
      intro problem hp
      refine herr problem (mem_flatMap.2 ⟨(uid, name), hmem, ?_⟩)
      show _ ∈ (labelsOf base desired hints (uid, name)).errs
      rw [hof]
      exact mem_map_of_mem hp
    have hbuilt' : ∀ c ∈ (labelChanges uid name base desired hints old wanted).1, isRebuildOf uid c = false := by
      intro c hc
      refine hbuilt c (Out.mem_forEach.2 ⟨(uid, name), hmem, ?_⟩)
      show c ∈ (labelsOf base desired hints (uid, name)).changes
      rw [hof]
      exact hc
    obtain ⟨a, b, rfl, rfl, hsteps⟩ := labelChanges_reaches hn hw herr' hbuilt'
    have hall : (labelChanges uid name base desired hints a.current b.current).1.filter (isLabelStep uid) =
        (labelChanges uid name base desired hints a.current b.current).1 := filter_eq_self.2 hsteps.own
    rw [labelSteps, filter_enumLabels hb hd huid, hof, hall, hsteps.sorted]
    exact hsteps.replays

end

namespace Mood

def side (labels : List String) : Side where
  schema := { tables := ∅, types := .ofList [(TypeRef.mk "app" "mood", ManagedType.enum labels)] }
  ids := { types := .ofList [(Uid.mk "y_mood", TypeRef.mk "app" "mood")] }

def hints : Hints :=
  { enumValueRenames := .ofList [(TypeRef.mk "app" "mood", ExtTreeMap.ofList [("fine", "ok"), ("ok", "meh")])] }

theorem distinct {labels : List String} (h : labels.Nodup) : DistinctLabels (side labels).schema := by
  intro name l hl
  have hmem := mem_of_getElem?_ofList hl
  rw [mem_singleton, Prod.mk.injEq, ManagedType.enum.injEq] at hmem
  exact hmem.2 ▸ h

theorem enumLabels_reaches_mood : Replays ["sad", "meh", "ok"] (labelSteps ⟨"y_mood"⟩
      (enumLabels (side ["sad", "meh", "ok"]) (side ["glad", "sad", "ok", "so so", "fine"]) hints).changes)
      ["glad", "sad", "ok", "so so", "fine"] := by
  refine (enumLabels_reaches _ _ hints (distinct (by decide)) (distinct (by decide)) ⟨"y_mood"⟩ ⟨"app", "mood"⟩ _ _
    (by decide) (by decide) (by decide)).1 ?_ (by decide)
  have herrs : (enumLabels (side ["sad", "meh", "ok"]) (side ["glad", "sad", "ok", "so so", "fine"]) hints).errs = [] := by
    decide
  rw [herrs]
  exact fun _ => not_mem_nil

end Mood

end Pbps.Diff
