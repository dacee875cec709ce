/-
Whether enum label plans converge (`enum_labels.rs`): run again over the labels it was asked for, with the rename
annotations still in the declarations, the pass finds nothing to do exactly when every renamed label whose old name is
declared again is on a chain of renames whose first name is not.
-/
import Pbps.Diff.LabelSteps
import Pbps.Lib.Chain

namespace Pbps.Diff

open Std (ExtTreeMap ExtTreeSet)
open Relation (ReflTransGen)
open List (append_nil foldl_cons forall_mem_cons mem_cons mem_cons_self mem_map not_mem_nil)
open Option Std.ExtTreeMap

/-! ## Chains of renames -/

def Renamed (renames : ExtTreeMap String String) (from_ to_ : String) : Prop := renames[to_]? = some from_

def OneClaimant (renames : ExtTreeMap String String) : Prop :=
  ∀ from_ to_ to', Renamed renames from_ to_ → Renamed renames from_ to' → to_ = to'

/-- An old name that a chain of renames reaches whose first name is not declared. -/
def FromVacated (wanted : List String) (renames : ExtTreeMap String String) (from_ : String) : Prop :=
  ∃ head, head ∉ wanted ∧ head ∉ renames ∧ ReflTransGen (Renamed renames) head from_

variable {renames graph : ExtTreeMap String String} {from_ to_ : String} {old wanted : List String} {uid : Uid}
variable {name : TypeRef} {desired base : Side} {hints : Hints}

theorem renamed_iff_mem : Renamed renames from_ to_ ↔ (to_, from_) ∈ renames.toList :=
  mem_toList_iff_getElem?_eq_some.symm

def renameGraph (renames : ExtTreeMap String String) : ExtTreeMap String String :=
  .ofList (renames.toList.map fun (to_, from_) => (from_, to_))

theorem nodup_sources (h : OneClaimant renames) :
    ((renames.toList.map fun (to_, from_) => (from_, to_)).map Prod.fst).Nodup := by
  rw [List.map_map]
  refine List.Nodup.map_on ?_ nodup_toList
  rintro ⟨to_, from_⟩ he ⟨to', from'⟩ he' heq
  obtain rfl : from_ = from' := heq
  rw [h from_ to_ to' (renamed_iff_mem.2 he) (renamed_iff_mem.2 he')]

theorem renameGraph_eq_some (h : OneClaimant renames) :
    (renameGraph renames)[from_]? = some to_ ↔ Renamed renames from_ to_ := by
  rw [renameGraph, getElem?_ofList_eq_some (nodup_sources h), renamed_iff_mem]
  simp [List.mem_map]

variable {x : String}

theorem reaches_of_mem_renameChain :
    ∀ {fuel : Nat} {at_ : String}, x ∈ (renameChain old graph fuel at_).1 →
      graph[x]? ≠ none ∧ ReflTransGen (fun a b => graph[a]? = some b) at_ x
  | 0, _, h => absurd h not_mem_nil
  | fuel + 1, at_, h => by
    unfold renameChain at h
    split at h
    next => exact absurd h not_mem_nil
    next to_ hto =>
      rcases mem_cons.1 h with rfl | h
      · exact ⟨by simp [hto], .refl⟩
      · obtain ⟨hx, hreach⟩ := reaches_of_mem_renameChain h
        exact ⟨hx, .head hto hreach⟩

theorem mem_renameChain (hx : graph[x]? ≠ none) :
    ∀ {n fuel : Nat} {at_ : String}, Trail.Steps (fun a b => graph[a]? = some b) at_ n x → n < fuel →
      x ∈ (renameChain old graph fuel at_).1
  | 0, fuel + 1, _, .here, _ => by
    unfold renameChain
    split
    next hnone => exact absurd hnone hx
    next => exact mem_cons_self
  | n + 1, fuel + 1, at_, h, hlt => by
    obtain ⟨b, hb, h⟩ := h.cases_head
    unfold renameChain
    rw [hb]
    exact List.mem_cons_of_mem _ (mem_renameChain hx h (by omega))

theorem renameChain_stands (h : ∀ x y : String, graph[x]? = some y → y ∈ old) :
    ∀ (fuel : Nat) (at_ : String), (renameChain old graph fuel at_).2 = true
  | 0, _ => rfl
  | fuel + 1, at_ => by
    unfold renameChain
    split
    next => rfl
    next to_ hto =>
      rw [Bool.and_eq_true]
      exact ⟨List.contains_iff_mem.2 (h _ _ hto), renameChain_stands h fuel to_⟩

theorem mem_appliedSources (hone : OneClaimant renames) (hstands : ∀ from_ to_, Renamed renames from_ to_ → to_ ∈ wanted)
    (hfrom : Renamed renames from_ to_) : from_ ∈ appliedSources wanted renames ↔ FromVacated wanted renames from_ := by
  have hgraph : ∀ {x y : String}, (renameGraph renames)[x]? = some y ↔ Renamed renames x y := renameGraph_eq_some hone
  have hrel : (fun a b : String => (renameGraph renames)[a]? = some b) = Renamed renames :=
    funext₂ fun _ _ => propext hgraph
  have hstands' : ∀ x y : String, (renameGraph renames)[x]? = some y → y ∈ wanted := fun x y h => hstands x y (hgraph.1 h)
  unfold appliedSources
  show from_ ∈ ((renameGraph renames).keys.filter _).flatMap _ ↔ _
  rw [List.mem_flatMap]
  constructor
  · rintro ⟨head, hhead, hmem⟩
    dsimp only at hmem
    split_ifs at hmem with happlied
    · rw [Bool.and_eq_true, Bool.not_eq_true', ← Bool.not_eq_true, List.contains_iff_mem] at happlied
      refine ⟨head, happlied.1, ?_, ?_⟩
      · have hnot := (List.mem_filter.1 hhead).2
        rwa [Bool.not_eq_true', ← Bool.not_eq_true, contains_iff_mem] at hnot
      · exact hrel ▸ (reaches_of_mem_renameChain hmem).2
    · exact absurd hmem not_mem_nil
  · rintro ⟨head, hwanted, hfirst, hreach⟩
    have hkey : ∀ x y, Renamed renames x y → x ∈ (renameGraph renames).keys := by
      intro x y h
      rw [mem_keys]
      exact mem_of_getElem?_eq (hgraph.2 h)
    have hhead : head ∈ (renameGraph renames).keys := by
      rcases hreach.cases_head with rfl | ⟨x, hx, -⟩
      · exact hkey _ _ hfrom
      · exact hkey _ _ hx
    have hfirst' : (!renames.contains head) = true := by
      rwa [Bool.not_eq_true', ← Bool.not_eq_true, contains_iff_mem]
    refine ⟨head, List.mem_filter.2 ⟨hhead, hfirst'⟩, ?_⟩
    dsimp only
    rw [if_pos (by rw [Bool.and_eq_true]; exact ⟨by simpa using hwanted, renameChain_stands hstands' _ _⟩)]
    obtain ⟨n, hn⟩ := Trail.exists_steps hreach
    have hlt : n < (renameGraph renames).keys.length := by
      refine hn.lt_length ?_ ?_ (fun x y h => hkey x y h) (hkey _ _ hfrom)
      · intro a a' b h h'
        exact some.inj (h.symm.trans h')
      · intro b h
        exact hfirst (mem_of_getElem?_eq h)
    have hsome : (renameGraph renames)[from_]? ≠ none := by
      rw [hgraph.2 hfrom]
      exact some_ne_none _
    refine mem_renameChain hsome (hrel.symm ▸ hn) ?_
    rw [length_keys] at hlt
    show n < (renameGraph renames).size + 1
    omega

/-! ## Renames still to make -/

abbrev RenameAcc := ExtTreeMap String String × List TypeProblem × List String

def readRename (old wanted applied : List String) (acc : RenameAcc) (e : String × String) : RenameAcc :=
  if acc.2.2.contains e.2 then (acc.1, acc.2.1 ++ [.twoLabelsClaim e.2], acc.2.2)
  else if !wanted.contains e.1 then (acc.1, acc.2.1 ++ [.renamedLabelNotDeclared e.1], e.2 :: acc.2.2)
  else if e.2 = e.1 then (acc.1, acc.2.1 ++ [.labelRenamesItself e.2], e.2 :: acc.2.2)
  else if applied.contains e.2 then (acc.1, acc.2.1, e.2 :: acc.2.2)
  else if old.contains e.2 then (acc.1.insert e.2 e.1, acc.2.1, e.2 :: acc.2.2)
  else if !old.contains e.1 then (acc.1, acc.2.1 ++ [.renamedLabelMissing e.2], e.2 :: acc.2.2)
  else (acc.1, acc.2.1, e.2 :: acc.2.2)

theorem pendingRenames_eq (old wanted : List String) (renames : ExtTreeMap String String) : pendingRenames old wanted renames =
      ((renames.toList.foldl (readRename old wanted (appliedSources old renames)) (∅, [], [])).1,
        (renames.toList.foldl (readRename old wanted (appliedSources old renames)) (∅, [], [])).2.1) := rfl

section Read

variable {old wanted applied : List String}

def RightRename (old wanted applied : List String) (e : String × String) : Prop :=
  e.1 ∈ wanted ∧ e.2 ≠ e.1 ∧ (e.2 ∈ applied ∨ e.2 ∈ old ∨ e.1 ∈ old)

variable {acc : RenameAcc} {e : String × String}

theorem readRename_problems : (readRename old wanted applied acc e).2.1 = [] ↔
      acc.2.1 = [] ∧ e.2 ∉ acc.2.2 ∧ RightRename old wanted applied e := by
  unfold readRename RightRename
  split_ifs with h1 h2 h3 h4 h5 h6
  all_goals simp_all

theorem readRename_sources (h : e.2 ∉ acc.2.2) : (readRename old wanted applied acc e).2.2 = e.2 :: acc.2.2 := by
  unfold readRename
  rw [if_neg (by simpa using h)]
  split_ifs <;> rfl

theorem readRenames_problems : ∀ {l : List (String × String)} {acc : RenameAcc},
    (l.foldl (readRename old wanted applied) acc).2.1 = [] ↔
      acc.2.1 = [] ∧ (∀ e ∈ l, e.2 ∉ acc.2.2) ∧ (l.map Prod.snd).Nodup ∧ ∀ e ∈ l, RightRename old wanted applied e
  | [], acc => by simp
  | e :: l, acc => by
    rw [foldl_cons, readRenames_problems, readRename_problems, List.map_cons, List.nodup_cons, forall_mem_cons,
      forall_mem_cons]
    by_cases hnew : e.2 ∈ acc.2.2
    · simp [hnew]
    · rw [readRename_sources hnew]
      have hfresh : (∀ x ∈ l, x.2 ∉ e.2 :: acc.2.2) ↔ e.2 ∉ l.map Prod.snd ∧ ∀ x ∈ l, x.2 ∉ acc.2.2 := by
        constructor
        · intro h
          refine ⟨fun hmem => ?_, fun x hx hin => h x hx (List.mem_cons_of_mem _ hin)⟩
          obtain ⟨x, hx, heq⟩ := List.mem_map.1 hmem
          exact h x hx (heq ▸ mem_cons_self)
        · rintro ⟨hne, hold⟩ x hx hin
          rcases mem_cons.1 hin with heq | hin
          · exact hne (heq ▸ List.mem_map_of_mem hx)
          · exact hold x hx hin
      rw [hfresh]
      tauto

theorem readRename_pending (hnew : e.2 ∉ acc.2.2) (h : RightRename old wanted applied e) :
    (readRename old wanted applied acc e).1 = if e.2 ∉ applied ∧ e.2 ∈ old then acc.1.insert e.2 e.1 else acc.1 := by
  obtain ⟨hto, hne, hfound⟩ := h
  unfold readRename
  rw [if_neg (by simpa using hnew), if_neg (by simpa using hto), if_neg hne]
  split_ifs with h4 h5 h6 h7
  all_goals simp_all

theorem readRenames_isEmpty : ∀ {l : List (String × String)} {acc : RenameAcc},
    (l.foldl (readRename old wanted applied) acc).2.1 = [] →
      ((l.foldl (readRename old wanted applied) acc).1.isEmpty = true ↔
        acc.1.isEmpty = true ∧ ∀ e ∈ l, e.2 ∈ old → e.2 ∈ applied)
  | [], acc => by simp
  | e :: l, acc => by
    intro hnone
    have hproblems := readRenames_problems.1 hnone
    rw [foldl_cons] at hnone ⊢
    rw [readRenames_isEmpty hnone,
      readRename_pending (hproblems.2.1 e mem_cons_self) (hproblems.2.2.2 e mem_cons_self), forall_mem_cons]
    split_ifs with hpending
    · have hnot : ¬ (e.2 ∈ old → e.2 ∈ applied) := fun h => hpending.1 (h hpending.2)
      simp [hnot]
    · have hdone : e.2 ∈ old → e.2 ∈ applied := fun h => not_not.1 fun hn => hpending ⟨hn, h⟩
      rw [and_iff_right hdone]

theorem readRenames_wanted : ∀ {l : List (String × String)} {acc : RenameAcc},
    (∀ x y : String, acc.1[x]? = some y → y ∈ wanted) →
      ∀ x y : String, (l.foldl (readRename old wanted applied) acc).1[x]? = some y → y ∈ wanted
  | [], _, h => h
  | e :: l, acc, h => by
    rw [foldl_cons]
    apply readRenames_wanted
    unfold readRename
    split_ifs with h1 h2 h3 h4 h5 h6
    all_goals try exact h
    intro x y hxy
    rw [getElem?_insert_eq_some] at hxy
    rcases hxy with ⟨-, rfl⟩ | ⟨-, hxy⟩
    · simpa using h2
    · exact h x y hxy

end Read

/-! ## One enum -/

section Rerun

variable {uid : Uid} {name : TypeRef}

theorem renameLabels_errors (uid : Uid) (name : TypeRef) : ∀ (fuel : Nat) (pending : ExtTreeMap String String) (run : LabelRun),
    ∃ more, (renameLabels uid name fuel pending run).errors = run.errors ++ more
  | 0, _, run => ⟨[], (append_nil _).symm⟩
  | fuel + 1, pending, run => by
    unfold renameLabels
    split_ifs with hempty
    · exact ⟨[], (append_nil _).symm⟩
    · split
      next => exact ⟨_, rfl⟩
      next from_ to_ _ =>
        obtain ⟨more, hmore⟩ := renameLabels_errors uid name fuel (pending.erase from_) _
        exact ⟨more, hmore⟩

variable {pending : ExtTreeMap String String}

theorem renameLabels_stuck (uid : Uid) (name : TypeRef) (fuel : Nat) {run : LabelRun} (hpending : pending.isEmpty = false)
    (hstand : ∀ e ∈ pending.toList, e.2 ∈ run.current) : (renameLabels uid name (fuel + 1) pending run).errors ≠ [] := by
  have hnone : (pending.toList.find? fun e => !run.current.contains e.2) = none := by
    rw [List.find?_eq_none]
    intro e he
    simpa using hstand e he
  unfold renameLabels
  rw [hpending, if_neg Bool.false_ne_true, hnone]
  simp

theorem addLabels_errors (wanted : List String) (run : LabelRun) : (addLabels uid name wanted run).errors = run.errors := by
  unfold addLabels
  induction wanted.zipIdx generalizing run with
  | nil => rfl
  | cons e l ih =>
    rw [foldl_cons, ih]
    dsimp only
    split_ifs <;> rfl

variable {hints : Hints} {wanted : List String}

theorem labelChanges_errors (uid : Uid) (base desired : Side) {old : List String}
    (hchange : ¬ (old = wanted ∧ (hints.enumValueRenames.getD name ∅).isEmpty = true)) {problems : List TypeProblem}
    (hpending : pendingRenames old wanted (hints.enumValueRenames.getD name ∅) = (pending, problems)) :
    ∃ more, (labelChanges uid name base desired hints old wanted).2 =
      (renameLabels uid name (pending.size + 1) pending { current := old, errors := problems }).errors ++ more := by
  unfold labelChanges
  dsimp only
  rw [if_neg hchange, hpending]
  dsimp only
  split_ifs
  · split
    next => exact ⟨[], (append_nil _).symm⟩
    next problem _ => exact ⟨[problem], rfl⟩
  · exact ⟨[], by rw [addLabels_errors, append_nil]⟩

theorem addLabels_self (wanted : List String) (run : LabelRun) (h : ∀ v ∈ wanted, v ∈ run.current) :
    addLabels uid name wanted run = run := by
  unfold addLabels
  have hall : ∀ e ∈ wanted.zipIdx, e.1 ∈ run.current := fun e he => h e.1 (List.fst_mem_of_mem_zipIdx he)
  revert hall
  generalize wanted.zipIdx = l
  intro hall
  induction l with
  | nil => rfl
  | cons e l ih =>
    obtain ⟨he, hl⟩ := forall_mem_cons.1 hall
    rw [foldl_cons]
    dsimp only
    rw [if_pos (List.contains_iff_mem.2 he)]
    exact ih hl

theorem rightRenames_of_labelChanges {base desired : Side} {old : List String}
    (h : (labelChanges uid name base desired hints old wanted).2 = []) :
    ((hints.enumValueRenames.getD name ∅).toList.map Prod.snd).Nodup ∧
      ∀ e ∈ (hints.enumValueRenames.getD name ∅).toList, e.1 ∈ wanted ∧ e.2 ≠ e.1 := by
  by_cases hsame : old = wanted ∧ (hints.enumValueRenames.getD name ∅).isEmpty = true
  · have hnil : (hints.enumValueRenames.getD name ∅).toList = [] := by
      rw [← List.isEmpty_iff, isEmpty_toList]
      exact hsame.2
    rw [hnil]
    simp
  · obtain ⟨more, hmore⟩ := labelChanges_errors uid base desired hsame
      (pendingRenames_eq old wanted _)
    obtain ⟨more', hmore'⟩ := renameLabels_errors uid name _ _
      { current := old, errors := _ }
    rw [hmore, hmore', List.append_eq_nil_iff, List.append_eq_nil_iff] at h
    obtain ⟨-, -, hnodup, hright⟩ := readRenames_problems.1 h.1.1
    exact ⟨hnodup, fun e he => ⟨(hright e he).1, (hright e he).2.1⟩⟩

/-- An enum as it is asks for nothing, where every rename from a label it has was applied. -/
theorem labelChanges_self (uid : Uid) (base desired : Side)
    (hnodup : ((hints.enumValueRenames.getD name ∅).toList.map Prod.snd).Nodup)
    (hright : ∀ e ∈ (hints.enumValueRenames.getD name ∅).toList, e.1 ∈ wanted ∧ e.2 ≠ e.1) :
    labelChanges uid name base desired hints wanted wanted = ([], []) ↔
      ∀ e ∈ (hints.enumValueRenames.getD name ∅).toList, e.2 ∈ wanted →
        e.2 ∈ appliedSources wanted (hints.enumValueRenames.getD name ∅) := by
  generalize hrenames : hints.enumValueRenames.getD name ∅ = renames at hnodup hright ⊢
  by_cases hempty : renames.isEmpty = true
  · have hnil : renames.toList = [] := by rw [← List.isEmpty_iff, isEmpty_toList, hempty]
    unfold labelChanges
    dsimp only
    rw [hrenames, if_pos ⟨rfl, hempty⟩, hnil]
    simp
  · have hproblems : (renames.toList.foldl (readRename wanted wanted (appliedSources wanted renames)) (∅, [], [])).2.1 = [] := by
      rw [readRenames_problems]
      exact ⟨rfl, by simp, hnodup, fun e he => ⟨(hright e he).1, (hright e he).2, .inr (.inr (hright e he).1)⟩⟩
    have hdone := readRenames_isEmpty hproblems
    rw [and_iff_right isEmpty_empty] at hdone
    have hpending := pendingRenames_eq wanted wanted renames
    rw [hproblems] at hpending
    rw [← hdone]
    generalize hacc : (renames.toList.foldl (readRename wanted wanted (appliedSources wanted renames)) (∅, [], [])).1 = pending
      at hpending
    constructor
    · intro hnothing
      by_contra hleft
      rw [Bool.not_eq_true] at hleft
      rw [← hrenames] at hpending hempty
      obtain ⟨more, hmore⟩ := labelChanges_errors uid base desired (fun h => hempty h.2) hpending
      rw [hnothing] at hmore
      have hrun := (List.append_eq_nil_iff.1 hmore.symm).1
      refine renameLabels_stuck uid name pending.size hleft ?_ hrun
      intro e he
      exact readRenames_wanted (by simp) e.1 e.2 (hacc ▸ getElem?_of_mem_toList he)
    · intro hnone
      have hrun : renameLabels uid name (pending.size + 1) pending { current := wanted, errors := [] } =
          { current := wanted, errors := [] } := by
        unfold renameLabels
        rw [if_pos hnone]
      have hremoved : removedLabels wanted wanted wanted = [] := by
        rw [removedLabels, List.map_eq_nil_iff, List.filter_eq_nil_iff]
        intro e he
        simpa using (List.of_mem_zip he).1
      unfold labelChanges
      dsimp only
      rw [hrenames, if_neg (fun h => hempty h.2), hpending]
      dsimp only
      rw [hrun, hremoved, if_neg (by simp), addLabels_self wanted { current := wanted } fun _ h => h]

end Rerun

/-! ## All enums -/

/-- The labels a side's type has under its identity, when it is an enum. -/
def enumOf (side : Side) (uid : Uid) : Option (List String) :=
  match (side.ids.types[uid]?).bind (side.schema.types[·]?) with
  | some (.enum labels) => some labels
  | _ => none

def declaredEnum (desired : Side) (uid : Uid) : Option (TypeRef × List String) :=
  (desired.ids.types[uid]?).bind fun name =>
    match desired.schema.types[name]? with
    | some (.enum labels) => some (name, labels)
    | _ => none

/-- A base that has the declared labels where both sides have an enum, and is no enum where it was none. -/
def Relabelled (base desired base' : Side) : Prop :=
  ∀ uid name wanted, declaredEnum desired uid = some (name, wanted) →
    enumOf base' uid = (enumOf base uid).map fun _ => wanted

/-- Every renamed label whose old name is declared again is on a chain of renames from a name that is not. -/
def Converges (base desired : Side) (hints : Hints) : Prop :=
  ∀ uid name wanted, declaredEnum desired uid = some (name, wanted) → (enumOf base uid).isSome = true →
    ∀ from_ to_, Renamed (hints.enumValueRenames.getD name ∅) from_ to_ → from_ ∈ wanted →
      FromVacated wanted (hints.enumValueRenames.getD name ∅) from_

theorem labelsOf_eq (base desired : Side) (hints : Hints) (huid : desired.ids.types[uid]? = some name) :
    labelsOf base desired hints (uid, name) =
      match declaredEnum desired uid, enumOf base uid with
      | some (_, wanted), some old =>
        { changes := (labelChanges uid name base desired hints old wanted).1
          errs := (labelChanges uid name base desired hints old wanted).2.map (.typeLifecycleUnsupported name) }
      | _, _ => {} := by
  unfold labelsOf declaredEnum enumOf
  rw [huid]
  dsimp only [bind_some]
  cases desired.schema.types[name]? with
  | none => rfl
  | some declared =>
    cases declared with
    | domain => rfl
    | enum wanted =>
      cases (base.ids.types[uid]?).bind (base.schema.types[·]?) with
      | none => rfl
      | some held =>
        cases held with
        | domain => rfl
        | enum old => rfl

theorem declaredEnum_name {name' : TypeRef} (huid : desired.ids.types[uid]? = some name)
    (h : declaredEnum desired uid = some (name', wanted)) : name' = name := by
  unfold declaredEnum at h
  rw [huid, bind_some] at h
  split at h
  · obtain ⟨rfl, -⟩ := Prod.mk.inj (some.inj h)
    rfl
  · cases h

theorem declaredEnum_uid (h : declaredEnum desired uid = some (name, wanted)) : desired.ids.types[uid]? = some name := by
  obtain ⟨name', huid, -⟩ := bind_eq_some_iff.1 (show (desired.ids.types[uid]?).bind _ = _ from h)
  rw [huid, declaredEnum_name huid h]

theorem labelsOf_again {base' : Side} (hbase : Relabelled base desired base') (huid : desired.ids.types[uid]? = some name)
    (hfirst : (labelsOf base desired hints (uid, name)).errs = []) :
    ((labelsOf base' desired hints (uid, name)).errs = [] ∧ (labelsOf base' desired hints (uid, name)).changes = []) ↔
      ∀ wanted, declaredEnum desired uid = some (name, wanted) → (enumOf base uid).isSome = true →
        ∀ from_ to_, Renamed (hints.enumValueRenames.getD name ∅) from_ to_ → from_ ∈ wanted →
          FromVacated wanted (hints.enumValueRenames.getD name ∅) from_ := by
  rw [labelsOf_eq base desired hints huid] at hfirst
  rw [labelsOf_eq base' desired hints huid]
  cases hdeclared : declaredEnum desired uid with
  | none => simp
  | some declared =>
    obtain ⟨name', wanted⟩ := declared
    obtain rfl := declaredEnum_name huid hdeclared
    rw [hbase uid name' wanted hdeclared]
    rw [hdeclared] at hfirst
    cases hold : enumOf base uid with
    | none => simp
    | some old =>
      rw [hold] at hfirst
      dsimp only at hfirst
      dsimp only [map_some]
      obtain ⟨hnodup, hright⟩ := rightRenames_of_labelChanges (List.map_eq_nil_iff.1 hfirst)
      have hone : OneClaimant (hints.enumValueRenames.getD name' ∅) := by
        intro from_ to_ to' h h'
        have heq := List.inj_on_of_nodup_map hnodup (renamed_iff_mem.1 h) (renamed_iff_mem.1 h') rfl
        exact congrArg Prod.fst heq
      have hself := labelChanges_self uid base' desired hnodup hright
      have hnothing : ((labelChanges uid name' base' desired hints wanted wanted).2.map
          (DiffError.typeLifecycleUnsupported name') = [] ∧ (labelChanges uid name' base' desired hints wanted wanted).1 = []) ↔
          labelChanges uid name' base' desired hints wanted wanted = ([], []) := by
        rw [List.map_eq_nil_iff, and_comm, Prod.ext_iff]
      rw [hnothing, hself]
      have hstands : ∀ from_ to_, Renamed (hints.enumValueRenames.getD name' ∅) from_ to_ → to_ ∈ wanted :=
        fun from_ to_ h => (hright _ (renamed_iff_mem.1 h)).1
      constructor
      · intro happlied wanted' heq _ from_ to_ hrenamed hwanted
        obtain rfl : wanted = wanted' := congrArg Prod.snd (some.inj heq)
        exact (mem_appliedSources hone hstands hrenamed).1 (happlied _ (renamed_iff_mem.1 hrenamed) hwanted)
      · intro hvacated e he hwanted
        have hrenamed := renamed_iff_mem.2 he
        exact (mem_appliedSources hone hstands hrenamed).2 (hvacated wanted rfl rfl _ _ hrenamed hwanted)

theorem enumLabels_errs_eq_nil : (enumLabels base desired hints).errs = [] ↔
      ∀ uid name, desired.ids.types[uid]? = some name → (labelsOf base desired hints (uid, name)).errs = [] := by
  show desired.ids.types.toList.flatMap (fun e => (labelsOf base desired hints e).errs) = [] ↔ _
  rw [List.flatMap_eq_nil_iff]
  constructor
  · exact fun h uid name huid => h (uid, name) (mem_toList_iff_getElem?_eq_some.2 huid)
  · exact fun h e he => h e.1 e.2 (getElem?_of_mem_toList he)

theorem enumLabels_changes_eq_nil : (enumLabels base desired hints).changes = [] ↔
      ∀ uid name, desired.ids.types[uid]? = some name → (labelsOf base desired hints (uid, name)).changes = [] := by
  show desired.ids.types.toList.flatMap (fun e => (labelsOf base desired hints e).changes) = [] ↔ _
  rw [List.flatMap_eq_nil_iff]
  constructor
  · exact fun h uid name huid => h (uid, name) (mem_toList_iff_getElem?_eq_some.2 huid)
  · exact fun h e he => h e.1 e.2 (getElem?_of_mem_toList he)

/-- Run again over the declared labels, with the same declarations and hints, the pass reports nothing exactly when
every renamed label whose old name is declared again is on a chain of renames from a name that is not. -/
theorem enumLabels_again_iff {base desired base' : Side} {hints : Hints} (hfirst : (enumLabels base desired hints).errs = [])
    (hbase : Relabelled base desired base') :
    ((enumLabels base' desired hints).errs = [] ∧ (enumLabels base' desired hints).changes = []) ↔
      Converges base desired hints := by
  rw [enumLabels_errs_eq_nil] at hfirst
  rw [enumLabels_errs_eq_nil, enumLabels_changes_eq_nil]
  constructor
  · rintro ⟨herrs, hchanges⟩ uid name wanted hdeclared hheld
    have huid := declaredEnum_uid hdeclared
    exact (labelsOf_again hbase huid (hfirst uid name huid)).1 ⟨herrs uid name huid, hchanges uid name huid⟩ wanted hdeclared
      hheld
  · intro h
    have hboth : ∀ uid name, desired.ids.types[uid]? = some name →
        (labelsOf base' desired hints (uid, name)).errs = [] ∧ (labelsOf base' desired hints (uid, name)).changes = [] :=
      fun uid name huid => (labelsOf_again hbase huid (hfirst uid name huid)).2 fun wanted hdeclared =>
        h uid name wanted hdeclared
    exact ⟨fun uid name huid => (hboth uid name huid).1, fun uid name huid => (hboth uid name huid).2⟩

namespace Mood

def reused : Hints :=
  { enumValueRenames := .ofList [(TypeRef.mk "app" "mood", ExtTreeMap.ofList [("b", "a")])] }

theorem relabelled (old wanted : List String) : Relabelled (side old) (side wanted) (side wanted) := by
  intro uid name labels h
  have hmem := mem_of_getElem?_ofList (declaredEnum_uid h)
  obtain ⟨rfl, rfl⟩ := Prod.mk.inj (List.mem_singleton.1 hmem)
  have hheld : ∀ l, enumOf (side l) ⟨"y_mood"⟩ = some l := fun l => rfl
  have hdeclared : declaredEnum (side wanted) ⟨"y_mood"⟩ = some (⟨"app", "mood"⟩, wanted) := rfl
  rw [hdeclared, some.injEq, Prod.mk.injEq] at h
  rw [hheld, hheld, map_some, h.2]

/-- The first run renames `a` and adds it again, and the second is refused. -/
theorem enumLabels_again_refused : ¬ ∀ (base desired base' : Side) (hints : Hints),
    (enumLabels base desired hints).errs = [] → Relabelled base desired base' →
      (enumLabels base' desired hints).errs = [] ∧ (enumLabels base' desired hints).changes = [] := by
  intro h
  have hnone : (enumLabels (side ["a"]) (side ["b", "a"]) reused).errs = [] := by decide
  have herr : (enumLabels (side ["b", "a"]) (side ["b", "a"]) reused).errs ≠ [] := by decide
  refine herr (h (side ["a"]) (side ["b", "a"]) (side ["b", "a"]) reused hnone (relabelled _ _)).1

def chain : ExtTreeMap String String := .ofList [("b", "a"), ("c", "b")]

def chained : Hints :=
  { enumValueRenames := .ofList [(TypeRef.mk "app" "mood", chain)] }

/-- The chain's middle name is declared, and its first is not. -/
theorem enumLabels_again_chained : (enumLabels (side ["b", "c", "d"]) (side ["b", "c", "d"]) chained).errs = [] ∧
      (enumLabels (side ["b", "c", "d"]) (side ["b", "c", "d"]) chained).changes = [] := by
  have hfirst : (enumLabels (side ["a", "b"]) (side ["b", "c", "d"]) chained).errs = [] := by decide
  refine (enumLabels_again_iff hfirst (relabelled _ _)).2 ?_
  intro uid name wanted hdeclared _ from_ to_ hrenamed hwanted
  have hmem := mem_of_getElem?_ofList (declaredEnum_uid hdeclared)
  obtain ⟨rfl, rfl⟩ := Prod.mk.inj (List.mem_singleton.1 hmem)
  obtain rfl : ["b", "c", "d"] = wanted := congrArg Prod.snd (some.inj hdeclared)
  have hrename : (to_, from_) ∈ [("b", "a"), ("c", "b")] := mem_of_getElem?_ofList hrenamed
  simp only [mem_cons, Prod.mk.injEq, not_mem_nil, or_false] at hrename
  rcases hrename with ⟨rfl, rfl⟩ | ⟨rfl, rfl⟩
  · exact absurd hwanted (by decide)
  · have hstep : chain["b"]? = some "a" := by decide
    have hfirst : ¬ chain.contains "a" = true := by decide
    exact ⟨"a", by decide, hfirst, .single hstep⟩

end Mood

end Pbps.Diff
