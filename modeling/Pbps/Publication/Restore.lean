/-
What `restore` takes back: each of its calls finds the place of its effect or fails, so what it does is to take that effect off
the ledger, and where it names no failure the tree is the one before.
-/
import Pbps.Publication.Ledger

namespace Pbps.Publication

open FileTree
open Std (ExtTreeMap)
open List Bool Except Std.ExtTreeMap

variable {sys : System} {dir : Path} {present : List Path} {t₀ t₁ : Files} {L M : List Effect} {σ : State}

variable {A : Type} {inv : List Effect → Files → Prop} {i : Effect} {path p s : Path} {x y : Location} {e : Entry File}
variable {σ' : State}

variable {undo : A → Run IoError Unit} {failure : A → IoError → Option Failure}

theorem takeBack_cons {a : A} {l : List A} :
    takeBack undo failure (a :: l) σ = ((match (undo a σ).1 with
      | .ok _ => []
      | .error e => (failure a e).toList) ++ (takeBack undo failure l (undo a σ).2).1, (takeBack undo failure l (undo a σ).2).2) := by
  rw [takeBack]
  rcases undo a σ with ⟨e | _, σ'⟩ <;> rfl

/-- What one call of a loop does: it takes its effect off the ledger, or fails. -/
def TakesOff (inv : List Effect → Files → Prop) (ignored : IoError → Prop) (i : Effect) (M : List Effect)
    (out : Except IoError Unit × State) : Prop :=
  ∃ M', M' ⊆ M ∧ inv M' out.2.tree ∧ ((∀ e, out.1 = .error e → ignored e) → i ∉ M')

theorem TakesOff.stay {ignored : IoError → Prop} {out : Except IoError Unit × State} (hinv : inv M σ.tree)
    (htree : out.2.tree = σ.tree) (h : (∃ e, out.1 = .error e ∧ ¬ ignored e) ∨ i ∉ M) : TakesOff inv ignored i M out := by
  refine ⟨M, fun _ h => h, by rw [htree]; exact hinv, fun hlost => ?_⟩
  rcases h with ⟨e, he, hnot⟩ | hiM
  · exact absurd (hlost e he) hnot
  · exact hiM

theorem takeBack_spec {log : Effect → Option A} {l : List Effect}
    (step : ∀ i ∈ l, ∀ a, log i = some a → ∀ M σ, inv M σ.tree → TakesOff inv (fun e => failure a e = none) i M (undo a σ))
    (h : inv M σ.tree) : ∃ M', M' ⊆ M ∧ inv M' (takeBack undo failure (l.filterMap log) σ).2.tree ∧
      ((takeBack undo failure (l.filterMap log) σ).1 = [] → ∀ i ∈ l, log i ≠ none → i ∉ M') := by
  induction l generalizing M σ with
  | nil => exact ⟨M, fun _ h => h, h, by simp⟩
  | cons i l ih =>
    have ih' := fun M σ => ih (M := M) (σ := σ) fun j hj => step j (mem_cons_of_mem i hj)
    cases ha : log i with
    | none =>
      obtain ⟨M', hsub, hinv, hgone⟩ := ih' M σ h
      rw [filterMap_cons_none ha]
      refine ⟨M', hsub, hinv, fun hnil j hj hlog => ?_⟩
      rcases mem_cons.1 hj with rfl | hj
      · exact absurd ha hlog
      · exact hgone hnil j hj hlog
    | some a =>
      obtain ⟨M₁, hsub₁, hinv₁, hgone₁⟩ := step i mem_cons_self a ha M σ h
      obtain ⟨M₂, hsub₂, hinv₂, hgone₂⟩ := ih' M₁ _ hinv₁
      rw [filterMap_cons_some ha, takeBack_cons]
      refine ⟨M₂, fun j hj => hsub₁ (hsub₂ hj), hinv₂, fun hnil j hj hlog => ?_⟩
      obtain ⟨hfirst, hrest⟩ := append_eq_nil_iff.1 hnil
      have hlost : ∀ e, (undo a σ).1 = .error e → failure a e = none := by
        intro e he
        rw [he] at hfirst
        exact Option.toList_eq_nil_iff.1 hfirst
      rcases mem_cons.1 hj with rfl | hj
      · exact fun hmem => hgone₁ hlost (hsub₂ hmem)
      · exact hgone₂ hrest j hj hlog

/-! ## The outputs -/

/-- While outputs are removed, only they are missing. -/
structure OutputsUndone (t₀ : Files) (L M : List Effect) (t : Files) : Prop extends Undone t₀ L M t where
  written : ∀ i ∈ L, i ∉ M → i.IsWritten ∧ t[i.place]? = none

theorem OutputsUndone.drop (h : OutputsUndone t₀ L (M) σ.tree) (hi : i ∈ M) (hw : i.IsWritten) :
    ∃ M', M' ⊆ M ∧ OutputsUndone t₀ L M' (σ.tree.erase i.place) ∧ i ∉ M' := by
  obtain ⟨M', hM', hsub, hnot, hother⟩ := h.holds.split hi
  have hleft : i.left = none := by
    cases i with
    | written path place => rfl
    | made path place => rfl
    | backup place => rfl
    | moved path saved source place entry => exact absurd hw id
  have hgone : ∀ j ∈ L, j ∉ M' → j.IsWritten ∧ (σ.tree.erase i.place)[j.place]? = none := by
    intro j hj hjM'
    by_cases hji : j = i
    · subst hji
      exact ⟨hw, getElem?_erase_self⟩
    · obtain ⟨hwj, hnone⟩ := h.written j hj fun hjM => hjM' (hother j hjM hji)
      exact ⟨hwj, by rw [getElem?_erase, hnone, ite_self]⟩
  exact ⟨M', hsub, ⟨⟨hM'.drop hleft, fun j hj => h.sub (hsub hj), fun j hj hjM' => .inl (hgone j hj hjM').1⟩, hgone⟩, hnot⟩

theorem removePath_step (h : Holds t₀ L t₁) (hi : .written path x ∈ L) (hland : locate sys.limit t₁ path = .ok x)
    (hinv : OutputsUndone t₀ L M σ.tree) :
    TakesOff (OutputsUndone t₀ L) (· = .tree .notFound) (.written path x) M (removePath sys path σ) := by
  have hx : locate sys.limit σ.tree path = .ok x :=
    locate_keeps (hinv.toUndone.keeps h fun i hi hiM => (hinv.written i hi hiM).1) hland
  unfold removePath
  rcases call_cases sys (fun t => (removeFile sys.limit t path).map ((), ·)) σ with ⟨f, heq⟩ | ⟨_, t', hop, heq⟩ | ⟨e, hop, heq⟩
  · rw [heq]
    exact .stay hinv rfl (.inl ⟨_, rfl, by simp⟩)
  · obtain ⟨t'', hremove, hpair⟩ := map_eq_ok.1 hop
    cases hpair
    rw [heq]
    by_cases hiM : Effect.written path x ∈ M
    · obtain ⟨e, he, f, rfl⟩ := hinv.holds.shows _ hiM
      obtain rfl := ok.inj ((removeFile_at hx he (by simp)).symm.trans hremove)
      obtain ⟨M', hsub, hM', hnot⟩ := hinv.drop hiM trivial
      exact ⟨M', hsub, hM', fun _ => hnot⟩
    · have hnone : σ.tree[x]? = none := (hinv.written _ hi hiM).2
      simp only [removeFile, bind_eq_ok_iff] at hremove
      obtain ⟨x', hx', hremove⟩ := hremove
      obtain rfl := ok.inj (hx.symm.trans hx')
      rw [hnone] at hremove
      cases hremove
  · rw [heq]
    refine .stay hinv rfl (.inr fun hiM => ?_)
    obtain ⟨e', he, f, rfl⟩ := hinv.holds.shows _ hiM
    rw [removeFile_at hx he (by simp)] at hop
    cases hop

/-! ## The moved files -/

/-- While moved files go back, only they and outputs are missing. -/
structure MovesUndone (t₀ : Files) (L M : List Effect) (t : Files) : Prop extends Undone t₀ L M t where
  moved : ∀ i ∈ L, i ∉ M → i.IsWritten ∨ (i.left ≠ none ∧ t[i.place]? = none)

theorem undoMove_eq (moved : Path × Path) : undoMove sys moved σ = match symlinkMetadata sys moved.1 σ with
    | (.error (.tree .notFound), σ') => renamePath sys moved.2 moved.1 σ'
    | (.error e, σ') => (.error e, σ')
    | (.ok _, σ') => (.error (.tree .alreadyExists), σ') := by
  unfold undoMove Run.outcome
  dsimp only [Bind.bind]
  rcases symlinkMetadata sys moved.1 σ with ⟨(_ | _) | _, σ'⟩
  · next e =>
    cases e <;> rfl
  · rfl
  · rfl

theorem MovesUndone.unmove (h : MovesUndone t₀ L M σ.tree) (hfree : ∀ i ∈ L, i.left ≠ none → t₀[i.place]? = none)
    (hi : .moved p s x y e ∈ M) (hx : σ.tree[x]? = none) : ∃ M', M' ⊆ M ∧ MovesUndone t₀ L M' ((σ.tree.erase y).insert x e) ∧
      .moved p s x y e ∉ M' := by
  obtain ⟨M', hM', hsub, hnot, hother⟩ := h.holds.split hi
  have hx₀ : t₀[x]? = some e := (h.holds.taken p s x y e hi).1
  have hmoved : ∀ j ∈ L, j ∉ M' → j.IsWritten ∨ (j.left ≠ none ∧ ((σ.tree.erase y).insert x e)[j.place]? = none) := by
    intro j hj hjM'
    have hne : j.left ≠ none → j.place ≠ x := by
      rintro hleft rfl
      rw [hfree j hj hleft] at hx₀
      cases hx₀
    by_cases hji : j = .moved p s x y e
    · subst hji
      refine .inr ⟨by simp [Effect.left], ?_⟩
      rw [getElem?_insert_of_ne (hne (by simp [Effect.left]))]
      exact getElem?_erase_self
    · refine (h.moved j hj fun hjM => hjM' (hother j hjM hji)).imp_right ?_
      rintro ⟨hleft, hnone⟩
      refine ⟨hleft, ?_⟩
      rw [getElem?_insert_of_ne (hne hleft), getElem?_erase, hnone, ite_self]
  refine ⟨M', hsub, ⟨⟨hM'.unmove hx, fun j hj => h.sub (hsub hj), ?_⟩, hmoved⟩, hnot⟩
  exact fun j hj hjM' => (hmoved j hj hjM').imp_right And.right

/-- Undoing a move puts back what it moved, or says that it could not. -/
theorem undoMove_step (h : Holds t₀ L t₁) (hfree : ∀ i ∈ L, i.left ≠ none → t₀[i.place]? = none) (hi : .moved p s x y e ∈ L)
    (hland : (Effect.moved p s x y e).Lands sys.limit dir t₁) (hinv : MovesUndone t₀ L M σ.tree) :
    TakesOff (MovesUndone t₀ L) (fun _ => False) (.moved p s x y e) M (undoMove sys (p, s) σ) := by
  obtain ⟨hx, d, index, hd, hb, rfl, rfl⟩ := hland
  have hf : Fades t₁ σ.tree := hinv.toUndone.fades h
  rw [undoMove_eq]
  unfold symlinkMetadata
  rcases call_cases sys (fun t => (lookup sys.limit t p).map (·, t)) σ with ⟨f, heq⟩ | ⟨e', t', hop, heq⟩ | ⟨err, hop, heq⟩
  · rw [heq]
    exact .stay hinv rfl (.inl ⟨_, rfl, id⟩)
  · obtain ⟨e'', _, hpair⟩ := map_eq_ok.1 hop
    cases hpair
    rw [heq]
    exact .stay hinv rfl (.inl ⟨_, rfl, id⟩)
  · rw [heq]
    by_cases herr : err = .notFound
    · subst herr
      unfold renamePath
      rcases call_cases sys (fun t => (rename sys.limit t (savedAs dir index) p).map ((), ·)) { σ with calls := σ.calls + 1 } with
        ⟨f, heq'⟩ | ⟨_, t', hop', heq'⟩ | ⟨err', hop', heq'⟩
      · dsimp only
        rw [heq']
        exact .stay hinv rfl (.inl ⟨_, rfl, id⟩)
      · dsimp only
        rw [heq']
        obtain ⟨t'', hrename, hpair⟩ := map_eq_ok.1 hop'
        cases hpair
        obtain ⟨y', x', e', hy', hx', he', ht'⟩ := rename_eq_ok hrename
        obtain rfl := saved_place hf hd hb hy'
        have hsame : locate sys.limit σ.tree p = .ok x := by
          rcases locate_fades hf hx with hsame | ⟨hgone, _⟩
          · exact hsame
          · rw [hgone] at hx'
            cases hx'
        obtain rfl := ok.inj (hsame.symm.trans hx')
        have hnone : σ.tree[x]? = none := by
          have hlookup : lookup sys.limit σ.tree p = .error .notFound := by
            rcases hl : lookup sys.limit σ.tree p with e'' | e'' <;> rw [hl] at hop <;> cases hop
            rfl
          rcases lookup_eq_notFound.1 hlookup with hgone | ⟨x'', hx'', hnone⟩
          · rw [hsame] at hgone
            cases hgone
          · obtain rfl := ok.inj (hsame.symm.trans hx'')
            exact hnone
        by_cases hiM : Effect.moved p (savedAs dir index) x (d ++ [BACKUP] ++ [savedName index]) e ∈ M
        · obtain ⟨e'', he'', rfl⟩ := hinv.holds.shows _ hiM
          obtain rfl := Option.some.inj (he'.symm.trans he'')
          obtain rfl := ht' (hinv.holds.taken _ _ _ _ _ hiM).2
          obtain ⟨M', hsub, hM', hnot⟩ := hinv.unmove hfree hiM hnone
          exact ⟨M', hsub, hM', fun _ => hnot⟩
        · have hgone := ((hinv.moved _ hi hiM).resolve_left id).2
          rw [show σ.tree[d ++ [BACKUP] ++ [savedName index]]? = none from hgone] at he'
          cases he'
      · dsimp only
        rw [heq']
        exact .stay hinv rfl (.inl ⟨_, rfl, id⟩)
    · refine .stay hinv ?_ (.inl ⟨.tree err, ?_, id⟩) <;> cases err <;> first | exact absurd rfl herr | rfl

/-! ## The directories -/

theorem Undone.drop (h : Undone t₀ L M σ.tree) (hi : i ∈ M) (hleft : i.left = none) :
    ∃ M', M' ⊆ M ∧ Undone t₀ L M' (σ.tree.erase i.place) ∧ i ∉ M' := by
  obtain ⟨M', hM', hsub, hnot, hother⟩ := h.holds.split hi
  refine ⟨M', hsub, ⟨hM'.drop hleft, fun j hj => h.sub (hsub hj), fun j hj hjM' => ?_⟩, hnot⟩
  by_cases hji : j = i
  · subst hji
    exact .inr getElem?_erase_self
  · refine (h.gone j hj fun hjM => hjM' (hother j hjM hji)).imp_right fun hnone => ?_
    rw [getElem?_erase, hnone, ite_self]

theorem removeDirectory_step (h : Holds t₀ L t₁) (hi : .made path x ∈ L) (hland : locate sys.limit t₁ path = .ok x)
    (hinv : Undone t₀ L M σ.tree) : TakesOff (Undone t₀ L) (fun _ => False) (.made path x) M (removeDirectory sys path σ) := by
  unfold removeDirectory
  rcases call_cases sys (fun t => (removeDir sys.limit t path).map ((), ·)) σ with ⟨f, heq⟩ | ⟨_, t', hop, heq⟩ | ⟨e, hop, heq⟩
  · rw [heq]
    exact .stay hinv rfl (.inl ⟨_, rfl, id⟩)
  · obtain ⟨t'', hremove, hpair⟩ := map_eq_ok.1 hop
    cases hpair
    rw [heq]
    obtain ⟨x', hx', hdir, rfl⟩ := removeDir_eq_ok hremove
    obtain rfl : x' = x := by
      rcases locate_fades (hinv.fades h) hland with hsame | ⟨hgone, _⟩
      · exact ok.inj (hx'.symm.trans hsame)
      · rw [hgone] at hx'
        cases hx'
    obtain ⟨M', hsub, hM', hnot⟩ := hinv.drop (hinv.mem_of_directory hi id hdir) rfl
    exact ⟨M', hsub, hM', fun _ => hnot⟩
  · rw [heq]
    exact .stay hinv rfl (.inl ⟨_, rfl, id⟩)

/-! ## The backup, and all -/

theorem Undone.without {t : Files} {b : Location} (hc : Closed t₀) (h : Undone t₀ L M t) (hv : vacated M = [])
    (hb : t₀[b]? = none) : Undone t₀ L (M.filter fun i => !Under i.place b) (FileTree.without t b) := by
  have hsub : ∀ i ∈ M.filter fun i => !Under i.place b, i ∈ M ∧ Under i.place b = false := by simp
  have hv' : vacated (M.filter fun i => !Under i.place b) = [] := by
    refine eq_nil_iff_forall_not_mem.2 fun z hz => ?_
    have hmem : z ∈ vacated M := filterMap_subset _ (fun i hi => (hsub i hi).1) hz
    rw [hv] at hmem
    cases hmem
  refine ⟨⟨?_, ?_, ?_, ?_, ?_, by rw [hv']; exact nodup_nil⟩, fun i hi => h.sub (hsub i hi).1, ?_⟩
  · intro i hi
    obtain ⟨hiM, hunder⟩ := hsub i hi
    rw [getElem?_without, hunder]
    exact h.holds.shows i hiM
  · intro z hz
    rw [hv', getElem?_without]
    split
    · next hunder => simp [hc.under hb hunder]
    · next hunder =>
      have hzM : z ∉ places M := by
        intro hmem
        obtain ⟨i, hi, rfl⟩ := List.mem_map.1 hmem
        exact hz (mem_map_of_mem (List.mem_filter.2 ⟨hi, by simpa using hunder⟩))
      rw [h.holds.rest z hzM, hv]
  · exact fun i hi => hv' ▸ hv ▸ h.holds.vacant i (hsub i hi).1
  · exact (filter_sublist.map _).nodup h.holds.nodup
  · exact fun p s x y e hi => h.holds.taken p s x y e (hsub _ hi).1
  · intro i hi hiM'
    rw [getElem?_without]
    split
    · exact .inr rfl
    · next hunder => exact h.gone i hi fun hiM => hiM' (List.mem_filter.2 ⟨hiM, by simpa using hunder⟩)

theorem vacated_eq_nil (h : ∀ i ∈ M, i.left = none) : vacated M = [] := by
  refine eq_nil_iff_forall_not_mem.2 fun z hz => ?_
  obtain ⟨p, s, y, e, hi⟩ := mem_vacated.1 hz
  cases h _ hi

/-- Dropping the backup undoes what is left of it, or says that it could not. -/
theorem dropBackup_spec (hc : Closed t₀) (h : Holds t₀ L t₁) (hland : ∀ i ∈ L, i.Lands sys.limit dir t₁)
    (hinv : MovesUndone t₀ L M σ.tree) {failures : List Failure} (hnil : failures = [] → ∀ i ∈ M, ¬ i.IsWritten ∧ i.left = none) :
    ∃ M', M' ⊆ M ∧ Undone t₀ L M' (dropBackup sys (backupOf dir) (L.any Effect.isBackup) failures σ).2.tree ∧
      (failures = [] → (dropBackup sys (backupOf dir) (L.any Effect.isBackup) failures σ).1 = [] →
        ∀ i ∈ M', i.isBackup = false) := by
  unfold dropBackup
  split
  · next howns =>
    obtain ⟨hany, hempty⟩ := and_eq_true_iff.1 howns
    obtain ⟨i, hi, hbackup⟩ := any_eq_true.1 hany
    cases i with
    | made path place => cases hbackup
    | written path place => cases hbackup
    | moved path saved source place entry => cases hbackup
    | backup b =>
    unfold removeBackup
    rcases call_cases sys (fun t => (removeDirAll sys.limit t (backupOf dir)).map ((), ·)) σ with
      ⟨f, heq⟩ | ⟨_, t', hop, heq⟩ | ⟨e, hop, heq⟩
    · rw [heq]
      exact ⟨M, fun _ h => h, hinv.toUndone, fun _ hfail => by cases hfail⟩
    · rw [heq]
      obtain ⟨t'', hremove, hpair⟩ := map_eq_ok.1 hop
      cases hpair
      obtain ⟨x, hx, rfl⟩ := removeDirAll_eq_ok hremove
      obtain ⟨d, hd, rfl⟩ := hland _ hi
      obtain rfl : x = d ++ [BACKUP] := by
        have hb : locate sys.limit t₁ (backupOf dir) = .ok (d ++ [BACKUP]) := by rw [backupOf, locate_concat, hd]; rfl
        rcases locate_fades (hinv.toUndone.fades h) hb with hsame | ⟨hgone, _⟩
        · exact ok.inj (hx.symm.trans hsame)
        · rw [hgone] at hx
          cases hx
      have hleft := fun i hi => (hnil (List.isEmpty_iff.1 hempty) i hi).2
      have hv := vacated_eq_nil hleft
      have hiM : Effect.backup (d ++ [BACKUP]) ∈ M := by
        by_contra hiM
        rcases hinv.moved _ hi hiM with hw | ⟨hne, _⟩
        · exact hw
        · exact hne rfl
      have hb₀ : t₀[d ++ [BACKUP]]? = none :=
        (hinv.holds.vacant _ hiM).resolve_left fun hmem => not_mem_nil (hv ▸ hmem)
      refine ⟨_, filter_subset_self _, hinv.toUndone.without hc hv hb₀, fun _ _ i hiM' => ?_⟩
      obtain ⟨hiM₁, hunder⟩ := List.mem_filter.1 hiM'
      cases i with
      | made path place => rfl
      | written path place => rfl
      | moved path saved source place entry => rfl
      | backup b' =>
        obtain ⟨d', hd', rfl⟩ := hland _ (hinv.sub hiM₁)
        obtain rfl := ok.inj (hd.symm.trans hd')
        simp [Effect.place] at hunder
    · rw [heq]
      exact ⟨M, fun _ h => h, hinv.toUndone, fun _ hfail => by cases hfail⟩
  · next howns =>
    refine ⟨M, fun _ h => h, hinv.toUndone, fun hempty _ i hi => ?_⟩
    subst hempty
    simp only [isEmpty_nil, Bool.and_true, not_eq_true, any_eq_false] at howns
    simpa using howns i (hinv.sub hi)

theorem restore_eq {backup : Path} : restore sys backup σ =
    let r₁ := removeOutputs sys σ.outputs.reverse σ
    let r₂ := restoreMoved sys σ.moved.reverse r₁.2
    let r₃ := dropBackup sys backup σ.ownsBackup (r₁.1 ++ r₂.1) r₂.2
    let r₄ := removeDirectories sys σ.directories.reverse r₃.2
    (r₁.1 ++ r₂.1 ++ r₃.1 ++ r₄.1, r₄.2) := rfl

section

variable (h : Accounts sys.limit dir present t₀ L σ)
include h

theorem removeOutputs_spec : ∃ M, OutputsUndone t₀ L M (removeOutputs sys σ.outputs.reverse σ).2.tree ∧
      ((removeOutputs sys σ.outputs.reverse σ).1 = [] → ∀ i ∈ M, ¬ i.IsWritten) := by
  rw [h.outputs, ← filterMap_reverse, removeOutputs]
  have hstep : ∀ i ∈ L.reverse, ∀ path, i.writtenPath = some path → ∀ M σ', OutputsUndone t₀ L M σ'.tree →
      TakesOff (OutputsUndone t₀ L) (fun e => (if e = .tree .notFound then none else some (Failure.removeOutput path e)) = none) i M
        (removePath sys path σ') := by
    intro i hi path hlog M σ' hinv
    cases i <;> cases hlog
    have hi := mem_reverse.1 hi
    obtain ⟨M', hsub, hinv', hgone⟩ := removePath_step h.holds hi (h.lands _ hi) hinv
    exact ⟨M', hsub, hinv', fun hlost => hgone fun e he => by simpa using hlost e he⟩
  obtain ⟨M, hsub, hinv, hgone⟩ := takeBack_spec hstep ⟨.start h.holds, fun i hi hiL => absurd hi hiL⟩
  refine ⟨M, hinv, fun hnil i hi hw => hgone hnil i (mem_reverse.2 (hinv.sub hi)) ?_ hi⟩
  cases i with
  | written path place => simp [Effect.writtenPath]
  | made path place => exact absurd hw id
  | backup place => exact absurd hw id
  | moved path saved source place entry => exact absurd hw id

theorem restoreMoved_spec (hinv : OutputsUndone t₀ L M σ'.tree) :
    ∃ M', M' ⊆ M ∧ MovesUndone t₀ L M' (restoreMoved sys σ.moved.reverse σ').2.tree ∧
      ((restoreMoved sys σ.moved.reverse σ').1 = [] → ∀ i ∈ M', i.left = none) := by
  rw [h.moved, ← filterMap_reverse, restoreMoved]
  have hstep : ∀ i ∈ L.reverse, ∀ paths, i.movedPaths = some paths → ∀ M σ', MovesUndone t₀ L M σ'.tree →
      TakesOff (MovesUndone t₀ L) (fun e => some (Failure.restore paths.1 paths.2 e) = none) i M (undoMove sys paths σ') := by
    intro i hi paths hlog M σ'' hinv
    cases i <;> cases hlog
    have hi := mem_reverse.1 hi
    obtain ⟨M', hsub, hinv', hgone⟩ := undoMove_step h.holds h.free hi (h.lands _ hi) hinv
    exact ⟨M', hsub, hinv', fun hlost => hgone fun e he => by simpa using hlost e he⟩
  obtain ⟨M', hsub, hinv', hgone⟩ := takeBack_spec hstep ⟨hinv.toUndone, fun i hi hiM => .inl (hinv.written i hi hiM).1⟩
  refine ⟨M', hsub, hinv', fun hnil i hi => ?_⟩
  have hnot := hgone hnil i (mem_reverse.2 (hinv'.sub hi))
  cases i with
  | written path place => rfl
  | made path place => rfl
  | backup place => rfl
  | moved path saved source place entry => exact absurd hi (hnot (by simp [Effect.movedPaths]))

theorem removeDirectories_spec (hinv : Undone t₀ L M σ'.tree) :
    ∃ M', M' ⊆ M ∧ Undone t₀ L M' (removeDirectories sys σ.directories.reverse σ').2.tree ∧
      ((removeDirectories sys σ.directories.reverse σ').1 = [] → ∀ i ∈ M', i.madePath = none) := by
  rw [h.directories, ← filterMap_reverse, removeDirectories]
  have hstep : ∀ i ∈ L.reverse, ∀ path, i.madePath = some path → ∀ M σ', Undone t₀ L M σ'.tree →
      TakesOff (Undone t₀ L) (fun e => some (Failure.removeDirectory path e) = none) i M (removeDirectory sys path σ') := by
    intro i hi path hlog M σ'' hinv
    cases i <;> cases hlog
    have hi := mem_reverse.1 hi
    obtain ⟨M', hsub, hinv', hgone⟩ := removeDirectory_step h.holds hi (h.lands _ hi) hinv
    exact ⟨M', hsub, hinv', fun hlost => hgone fun e he => by simpa using hlost e he⟩
  obtain ⟨M', hsub, hinv', hgone⟩ := takeBack_spec hstep hinv
  refine ⟨M', hsub, hinv', fun hnil i hi => ?_⟩
  by_contra hlog
  exact hgone hnil i (mem_reverse.2 (hinv'.sub hi)) hlog hi

end

/-- What is not taken back stays on the ledger, and where no failure is named nothing does. -/
theorem restore_spec (hc : Closed t₀) (h : Accounts sys.limit dir present t₀ L σ) :
    ∃ M, Undone t₀ L M (restore sys (backupOf dir) σ).2.tree ∧ ((restore sys (backupOf dir) σ).1 = [] → M = []) := by
  rw [restore_eq]
  obtain ⟨M₁, hinv₁, hgone₁⟩ := removeOutputs_spec h
  obtain ⟨M₂, hsub₂, hinv₂, hgone₂⟩ := restoreMoved_spec h hinv₁
  have hnil₂ : (removeOutputs sys σ.outputs.reverse σ).1 ++
      (restoreMoved sys σ.moved.reverse (removeOutputs sys σ.outputs.reverse σ).2).1 = [] →
      ∀ i ∈ M₂, ¬ i.IsWritten ∧ i.left = none := by
    intro hnil i hi
    obtain ⟨h₁, h₂⟩ := append_eq_nil_iff.1 hnil
    exact ⟨hgone₁ h₁ i (hsub₂ hi), hgone₂ h₂ i hi⟩
  obtain ⟨M₃, hsub₃, hinv₃, hgone₃⟩ := dropBackup_spec hc h.holds h.lands hinv₂ hnil₂
  rw [← h.ownsBackup] at hinv₃ hgone₃
  obtain ⟨M₄, hsub₄, hinv₄, hgone₄⟩ := removeDirectories_spec h hinv₃
  refine ⟨M₄, hinv₄, fun hnil => eq_nil_iff_forall_not_mem.2 fun i hi => ?_⟩
  obtain ⟨h₁₂₃, h₄⟩ := append_eq_nil_iff.1 hnil
  obtain ⟨h₁₂, h₃⟩ := append_eq_nil_iff.1 h₁₂₃
  obtain ⟨hw, hleft⟩ := hnil₂ h₁₂ i (hsub₃ (hsub₄ hi))
  have hbackup := hgone₃ h₁₂ h₃ i (hsub₄ hi)
  have hmade := hgone₄ h₄ i hi
  cases i with
  | made path place => cases hmade
  | backup place => cases hbackup
  | moved path saved source place entry => cases hleft
  | written path place => exact hw trivial

end Pbps.Publication
