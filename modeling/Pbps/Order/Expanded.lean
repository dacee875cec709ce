/-
The rule driver is sound for every rule.
-/
import Pbps.Lib.Check
import Pbps.Order.Expand

namespace Pbps.Expand

open Std (ExtTreeMap ExtTreeSet)
open Pbps.Order
open List
open Option (map_eq_some_iff map_some)

/-! ## Steps taken by position -/

section Taken

variable {β γ : Type}

theorem forall₂_takeAll : ∀ {sequence : List Nat} {taken : List (Option β)} {out : List β}, takeAll taken sequence = some out →
    Forall₂ (fun i b => taken[i]? = some (some b)) sequence out
  | [], _, out, h => by
    cases h
    exact .nil
  | i :: sequence, taken, out, h => by
    rw [takeAll] at h
    split at h
    · next b hb =>
      obtain ⟨rest, hrest, rfl⟩ := map_eq_some_iff.1 h
      refine .cons hb ((forall₂_takeAll hrest).imp fun j c hc => ?_)
      -- A position taken before holds nothing, so this one is another.
      by_cases hij : i = j
      · rw [← hij, getElem?_set_self (by
          have := List.getElem?_eq_some_iff.1 hb
          exact this.1)] at hc
        cases hc
      · rwa [getElem?_set_ne hij] at hc
    · cases h

variable {l out : List β} {sequence : List Nat}

theorem forall₂_takeAll_map (h : takeAll (l.map some) sequence = some out) :
    Forall₂ (fun i b => l[i]? = some b) sequence out := by
  refine (forall₂_takeAll h).imp fun i b hb => ?_
  rw [getElem?_map, map_eq_some_iff] at hb
  obtain ⟨c, hc, hcb⟩ := hb
  rwa [Option.some.inj hcb] at hc

theorem perm_of_forall₂ (h : Forall₂ (fun i b => l[i]? = some b) sequence out) (hperm : sequence.Perm (List.range l.length)) :
    out.Perm l := by
  have hmap : sequence.map (l[·]?) = out.map some := h.map_eq fun _ _ hi => hi
  have hall : (List.range l.length).map (l[·]?) = l.map some := by
    apply ext_getElem?
    intro i
    by_cases hi : i < l.length
    · simp [hi]
    · simp [hi]
  have hsome := hperm.map (l[·]?)
  rw [hmap, hall] at hsome
  exact (map_perm_map_iff (Option.some_injective _)).1 hsome

theorem exists_takeAll_of_perm (hperm : sequence.Perm (List.range l.length)) :
    ∃ out, takeAll (l.map some) sequence = some out ∧ out.Perm l := by
  have hall : ∀ i ∈ sequence, ∃ b, (l.map some)[i]? = some (some b) := by
    intro i hi
    have hlt : i < l.length := mem_range.1 (hperm.mem_iff.1 hi)
    exact ⟨l[i], by simp [getElem?_eq_getElem hlt]⟩
  obtain ⟨out, hout, -⟩ := exists_takeAll (hperm.nodup_iff.2 nodup_range) hall
  exact ⟨out, hout, perm_of_forall₂ (forall₂_takeAll_map hout) hperm⟩

variable {m : List γ}

theorem forall₂_zip {out' : List γ} (h : Forall₂ (fun i b => l[i]? = some b) sequence out)
    (h' : Forall₂ (fun i b => m[i]? = some b) sequence out') :
    Forall₂ (fun i b => (l.zip m)[i]? = some b) sequence (out.zip out') := by
  induction h generalizing out' with
  | nil => exact .nil
  | @cons i b sequence out hb _ ih =>
    cases h' with
    | cons hc h' =>
      refine .cons ?_ (ih h')
      rw [getElem?_zip_eq_some]
      exact ⟨hb, hc⟩

theorem forall₂_zip_left {R : β → β → Prop} {l' : List β} (h : Forall₂ R l l') (m : List γ) :
    Forall₂ (fun e e' => e'.2 = e.2 ∧ R e.1 e'.1) (l.zip m) (l'.zip m) := by
  induction h generalizing m with
  | nil => exact .nil
  | cons hb _ ih =>
    cases m with
    | nil => exact .nil
    | cons c m => exact .cons ⟨rfl, hb⟩ (ih m)

theorem zip_eq_append_cons {i : Nat} (hl : i < l.length) (hm : i < m.length) :
    l.zip m = (l.take i).zip (m.take i) ++ (l[i], m[i]) :: (l.drop (i + 1)).zip (m.drop (i + 1)) := by
  have hzip : i < (l.zip m).length := by
    rw [length_zip]
    omega
  calc l.zip m = (l.zip m).take i ++ (l.zip m).drop i := (take_append_drop i _).symm
    _ = (l.zip m).take i ++ (l.zip m)[i] :: (l.zip m).drop (i + 1) := by rw [drop_eq_getElem_cons hzip]
    _ = _ := by simp only [zip_eq_zipWith, take_zipWith, drop_zipWith, getElem_zipWith]

end Taken

theorem settleScratch_eq_ok {β : Type} {checksum : List β → String} {s : Schedule} {changes : List β} {settled : DraftSettled β}
    (h : s.settleScratch checksum changes = .ok settled) : changes.length = s.steps ∧
      settled.sequence.Perm (List.range s.steps) ∧ takeAll (changes.map some) settled.sequence = some settled.changes := by
  unfold Schedule.settleScratch at h
  split at h
  · cases h
  · next hlen =>
    split at h
    · cases h
    · next sequence kept hok =>
      obtain ⟨hrange, -, -, -, hall, -, rfl, rfl⟩ := Schedule.settledTrace_eq_ok.1 (Prod.ext rfl hok)
      obtain ⟨E, ho⟩ := Schedule.settledRound_isOrder hrange
      split at h
      · cases h
      · next ordered htake =>
        dsimp only at h
        split at h
        · cases h
        · cases h
          exact ⟨not_not.1 hlen, ho.perm_range hall, htake⟩

/-! ## Where added steps go -/

section Placing

variable {α : Type} {n : Nat} {added : List (Added α)}

def home (n : Nat) (added : List (Added α)) (x : Nat) : Option Nat :=
  if x < n then some x
  else added[x - n]?.map fun a => match a.addition.anchor with | .before j | .after j => j

variable {anchor : Anchor} {j x : Nat}

theorem mem_anchored {k : Nat} : k ∈ anchored added anchor ↔ added[k]?.map (·.addition.anchor) = some anchor := by
  rw [anchored, mem_filter, mem_range, beq_iff_eq]
  constructor
  · exact fun h => h.2
  · intro h
    refine ⟨?_, h⟩
    rw [map_eq_some_iff] at h
    obtain ⟨a, ha, -⟩ := h
    exact (List.getElem?_eq_some_iff.1 ha).1

theorem nodup_anchored (anchor : Anchor) : ((anchored added anchor).map (n + ·)).Nodup :=
  (nodup_range.filter _).map fun _ _ h => Nat.add_left_cancel h

theorem home_of_mem (hanchor : anchor = .before j ∨ anchor = .after j) (hx : x ∈ (anchored added anchor).map (n + ·)) :
    n ≤ x ∧ home n added x = some j := by
  obtain ⟨k, hk, rfl⟩ := mem_map.1 hx
  rw [mem_anchored, map_eq_some_iff] at hk
  obtain ⟨a, ha, hk⟩ := hk
  refine ⟨Nat.le_add_right n k, ?_⟩
  rw [home, if_neg (by omega), Nat.add_sub_cancel_left, ha, map_some, hk]
  obtain rfl | rfl := hanchor
  · rfl
  · rfl

theorem home_of_mem_block (hj : j < n)
    (hx : x ∈ (anchored added (.before j)).map (n + ·) ++ [j] ++ (anchored added (.after j)).map (n + ·)) :
    home n added x = some j := by
  simp only [mem_append, mem_singleton] at hx
  obtain (hx | rfl) | hx := hx
  · exact (home_of_mem (.inl rfl) hx).2
  · exact if_pos hj
  · exact (home_of_mem (.inr rfl) hx).2

theorem nodup_placing : (placing n added).Nodup := by
  rw [placing, nodup_flatMap]
  refine ⟨fun j hj => ?_, ?_⟩
  · rw [mem_range] at hj
    rw [nodup_append', nodup_append']
    refine ⟨⟨nodup_anchored _, nodup_singleton j, ?_⟩, nodup_anchored _, ?_⟩
    · intro x hx hxj
      have := (home_of_mem (.inl rfl) hx).1
      rw [mem_singleton] at hxj
      omega
    · intro x hx hafter
      rw [mem_append, mem_singleton] at hx
      obtain hbefore | rfl := hx
      · obtain ⟨k, hk, rfl⟩ := mem_map.1 hbefore
        obtain ⟨k', hk', heq⟩ := mem_map.1 hafter
        rw [Nat.add_left_cancel heq, mem_anchored] at hk'
        rw [mem_anchored, hk'] at hk
        cases hk
      · have := (home_of_mem (.inr rfl) hafter).1
        omega
  · -- Steps of two blocks have two homes.
    refine nodup_range.imp_of_mem fun {i j} hi hj hij => ?_
    intro x hxi hxj
    rw [mem_range] at hi hj
    have := (home_of_mem_block hi hxi).symm.trans (home_of_mem_block hj hxj)
    exact hij (Option.some.inj this)

theorem placing_perm (hanchors : ∀ a ∈ added, ∃ j < n, a.addition.anchor = .before j ∨ a.addition.anchor = .after j) :
    (placing n added).Perm (List.range (n + added.length)) := by
  rw [perm_ext_iff_of_nodup nodup_placing nodup_range]
  intro x
  simp only [placing, mem_flatMap, mem_append, mem_singleton, mem_range]
  constructor
  · rintro ⟨j, hj, (hx | rfl) | hx⟩
    · obtain ⟨k, hk, rfl⟩ := mem_map.1 hx
      have := mem_range.1 (List.mem_of_mem_filter hk)
      omega
    · omega
    · obtain ⟨k, hk, rfl⟩ := mem_map.1 hx
      have := mem_range.1 (List.mem_of_mem_filter hk)
      omega
  · intro hx
    by_cases hn : x < n
    · exact ⟨x, hn, .inl (.inr rfl)⟩
    · obtain ⟨k, rfl⟩ := Nat.exists_eq_add_of_le (not_lt.1 hn)
      have hk : added[k]? = some added[k] := getElem?_eq_getElem (by omega)
      obtain ⟨j, hj, ha | ha⟩ := hanchors _ (mem_of_getElem? hk)
      · exact ⟨j, hj, .inl (.inl (mem_map.2 ⟨k, mem_anchored.2 (by rw [hk, map_some, ha]), rfl⟩))⟩
      · exact ⟨j, hj, .inr (mem_map.2 ⟨k, mem_anchored.2 (by rw [hk, map_some, ha]), rfl⟩)⟩

end Placing
/-! ## The invariant -/

section Invariant

variable {τ α : Type} [DecidableEq τ]

/-- A step of the input among the origins: once and whole, or as two or more parts. -/
def Kept (origins : List (Origin τ)) (i : Nat) : Prop :=
  (origins.count (.whole i) = 1 ∧ origins.count (.splitPart i) = 0) ∨
    (origins.count (.whole i) = 0 ∧ 2 ≤ origins.count (.splitPart i))

/-- An origin that is one of the input's steps, a part of one, or serves one. -/
def Serves (n : Nat) (o : Origin τ) : Prop :=
  ∃ i < n, o = .whole i ∨ o = .splitPart i ∨ o = .teardown (.change i) ∨ o = .restoration (.change i)

/-- What the steps of a plan are to the input throughout a run. -/
structure Sound (reading : Reading α) (input : List (PlannedChange α)) (steps : List (PlannedChange α × Origin τ)) : Prop where
  kept : ∀ i < input.length, Kept (steps.map (·.2)) i
  serves : ∀ e ∈ steps, Serves input.length e.2
  kinds : ∀ e ∈ steps, ∀ i, e.2 = .whole i → ∃ q, input[i]? = some q ∧
    reading.discriminant e.1.change = reading.discriminant q.change

variable {reading : Reading α} {input : List (PlannedChange α)} {steps steps' : List (PlannedChange α × Origin τ)}

variable {i : Nat}

theorem Kept.congr {origins origins' : List (Origin τ)} (h : Kept origins i)
    (hwhole : origins'.count (.whole i) = origins.count (.whole i))
    (hparts : origins'.count (.splitPart i) = origins.count (.splitPart i)) : Kept origins' i := by
  rw [Kept, hwhole, hparts]
  exact h

section

variable (h : Sound reading input steps)
include h

theorem Sound.perm (hperm : steps'.Perm steps) : Sound reading input steps' where
  kept i hi := (h.kept i hi).congr ((hperm.map _).count_eq _) ((hperm.map _).count_eq _)
  serves e he := h.serves e (hperm.mem_iff.1 he)
  kinds e he := h.kinds e (hperm.mem_iff.1 he)

theorem Sound.respelled (hsame : Forall₂ (fun e e' =>
    e'.2 = e.2 ∧ reading.discriminant e'.1.change = reading.discriminant e.1.change) steps steps') :
    Sound reading input steps' := by
  have horigins : steps'.map (·.2) = steps.map (·.2) := (hsame.map_eq fun _ _ he => he.1.symm).symm
  refine ⟨fun i hi => ?_, fun e' he' => ?_, fun e' he' i hi => ?_⟩
  · rw [horigins]
    exact h.kept i hi
  · obtain ⟨e, he, hsame⟩ := hsame.exists_of_mem_right he'
    rw [hsame.1]
    exact h.serves e he
  · obtain ⟨e, he, hsame⟩ := hsame.exists_of_mem_right he'
    rw [hsame.2]
    exact h.kinds e he i (hsame.1.symm.trans hi)

theorem Sound.append {added : List (PlannedChange α × Origin τ)}
    (hadded : ∀ e ∈ added, ∃ i < input.length, e.2 = .teardown (.change i) ∨ e.2 = .restoration (.change i)) :
    Sound reading input (steps ++ added) := by
  have hnone : ∀ o : Origin τ, (∀ s, o ≠ .teardown s) → (∀ s, o ≠ .restoration s) → (added.map (·.2)).count o = 0 := by
    intro o ht hr
    rw [count_eq_zero]
    intro hmem
    obtain ⟨e, he, rfl⟩ := mem_map.1 hmem
    obtain ⟨i, -, heq | heq⟩ := hadded e he
    · exact ht _ heq
    · exact hr _ heq
  refine ⟨fun i hi => (h.kept i hi).congr ?_ ?_, fun e he => ?_, fun e he i hi => ?_⟩
  · rw [map_append, count_append, hnone _ (by simp) (by simp), Nat.add_zero]
  · rw [map_append, count_append, hnone _ (by simp) (by simp), Nat.add_zero]
  · rcases mem_append.1 he with he | he
    · exact h.serves e he
    · obtain ⟨i, hi, heq⟩ := hadded e he
      exact ⟨i, hi, .inr (.inr heq)⟩
  · rcases mem_append.1 he with he | he
    · exact h.kinds e he i hi
    · obtain ⟨j, -, heq | heq⟩ := hadded e he
      · rw [heq] at hi; cases hi
      · rw [heq] at hi; cases hi

end

theorem Sound.split {before after parts : List (PlannedChange α × Origin τ)} {p : PlannedChange α}
    (h : Sound reading input (before ++ (p, .whole i) :: after)) (hparts : ∀ e ∈ parts, e.2 = .splitPart i)
    (htwo : 2 ≤ parts.length) : Sound reading input (before ++ parts ++ after) := by
  have hi : i < input.length := by
    obtain ⟨j, hj, heq | heq | heq | heq⟩ := h.serves (p, .whole i) (by simp)
    · cases heq; exact hj
    · cases heq
    · cases heq
    · cases heq
  have hcount : parts.map (·.2) = List.replicate parts.length (.splitPart i) := by
    rw [eq_replicate_iff, length_map]
    exact ⟨rfl, fun o ho => by
      obtain ⟨e, he, rfl⟩ := mem_map.1 ho
      exact hparts e he⟩
  refine ⟨fun j hj => ?_, fun e he => ?_, fun e he j hj => ?_⟩
  · have hold := h.kept j hj
    simp only [Kept, map_append, map_cons, count_append, count_cons, hcount, count_replicate,
      beq_iff_eq, Origin.whole.injEq, Origin.splitPart.injEq, reduceCtorEq, if_false] at hold ⊢
    by_cases hij : i = j
    · -- The one whole step of this index is the one replaced, and it had no parts.
      rw [if_pos hij] at hold ⊢
      omega
    · rw [if_neg hij] at hold ⊢
      omega
  · simp only [mem_append] at he
    rcases he with (he | he) | he
    · exact h.serves e (by simp [he])
    · exact ⟨i, hi, .inr (.inl (hparts e he))⟩
    · exact h.serves e (by simp [he])
  · simp only [mem_append] at he
    rcases he with (he | he) | he
    · exact h.kinds e (by simp [he]) j hj
    · rw [hparts e he] at hj; cases hj
    · exact h.kinds e (by simp [he]) j hj

end Invariant

/-! ## Settling -/

def Good (e : Stop) : Prop := e ≠ .panicked ∧ e ≠ .running

theorem good_refused (message : String) : Good (.refused message) := ⟨by simp, by simp⟩

section Run

variable {τ α : Type} [DecidableEq τ] {reading : Reading α} {input : List (PlannedChange α)} {st : State τ α}

/-- A state whose two lists are beside each other and sound. -/
structure State.Inv (reading : Reading α) (input : List (PlannedChange α)) (st : State τ α) : Prop where
  aligned : st.origins.length = st.changes.length
  sound : Sound reading input (st.changes.zip st.origins)

theorem State.Inv.serves (h : st.Inv reading input) : ∀ o ∈ st.origins, Serves input.length o := by
  intro o ho
  rw [← @map_snd_zip _ _ st.changes st.origins h.aligned.le] at ho
  obtain ⟨e, he, rfl⟩ := mem_map.1 ho
  exact h.sound.serves e he

theorem settle_meets (h : st.Inv reading input) (edges : List Order) :
    (State.settle reading st edges).Meets Good (State.Inv reading input) := by
  unfold State.settle
  have hconstraints : (edges.mapM Order.constraint).Meets Good fun m => Forall₂ (fun _ _ => True) edges m := by
    apply Except.Meets.mapM
    intro e _
    unfold Order.constraint
    split
    · trivial
    · exact good_refused _
  refine hconstraints.bind fun constraints _ => ?_
  dsimp only
  split
  · exact good_refused _
  · next e hne herr =>
    obtain ⟨r, rfl⟩ := settleScratch_refused reading.checksum _ st.changes herr
    exact absurd rfl (hne r)
  · next settled hok =>
    obtain ⟨-, hperm, hchanges⟩ := settleScratch_eq_ok hok
    dsimp only at hperm
    -- The same sequence takes the steps and their origins.
    obtain ⟨origins, horigins, hkept⟩ := exists_takeAll_of_perm (h.aligned ▸ hperm)
    rw [horigins]
    have hzip := forall₂_zip (forall₂_takeAll_map hchanges) (forall₂_takeAll_map horigins)
    have hsame : settled.changes.length = settled.sequence.length := (forall₂_takeAll_map hchanges).length_eq.symm
    have hlength : origins.length = settled.sequence.length := (forall₂_takeAll_map horigins).length_eq.symm
    refine ⟨hlength.trans hsame.symm, h.sound.perm (perm_of_forall₂ hzip ?_)⟩
    rwa [length_zip, h.aligned, min_self]

/-! ## Added steps -/

section Adding

variable {rule : String} {logical : List String}

variable {n : Nat}

theorem respell_meets {changes changes' : List (PlannedChange α)} (hsame : Forall₂
      (fun p p' => reading.discriminant p'.change = reading.discriminant p.change) changes changes') (e : Nat × PlannedChange α) :
    (respell reading rule n changes' e).Meets Good fun changes' =>
      Forall₂ (fun p p' => reading.discriminant p'.change = reading.discriminant p.change) changes changes' := by
  unfold respell
  dsimp only
  split
  · exact good_refused _
  · next old hold =>
    split
    · exact good_refused _
    · next hkind =>
      show Forall₂ _ changes (changes'.set e.1 e.2)
      rw [forall₂_iff_get] at hsame ⊢
      refine ⟨by rw [length_set]; exact hsame.1, fun i h1 h2 => ?_⟩
      have hi : i < changes'.length := by rwa [length_set] at h2
      have hat := hsame.2 i h1 hi
      simp only [get_eq_getElem] at hat ⊢
      rw [getElem_set]
      split
      · next heq =>
        subst heq
        rw [List.getElem?_eq_some_iff] at hold
        obtain ⟨_, hold⟩ := hold
        rw [hold, not_not.1 hkind] at hat
        exact hat
      · exact hat

omit [DecidableEq τ] in
theorem admitted_meets {origins : List (Origin τ)} (hlogical : logical.length = input.length)
    (hserves : ∀ o ∈ origins, Serves input.length o) (added : Added α) :
    (admitted rule logical n origins added).Meets Good fun e =>
      (∃ i < input.length, e.2 = .teardown (.change i) ∨ e.2 = .restoration (.change i)) ∧
        ∃ j < n, added.addition.anchor = .before j ∨ added.addition.anchor = .after j := by
  unfold admitted
  dsimp only
  split
  · exact good_refused _
  · next o ho =>
    split
    · exact good_refused _
    · next i hi =>
      have hlt : i < input.length := by
        obtain ⟨j, hj, heq⟩ := hserves o (mem_of_getElem? ho)
        rcases heq with rfl | rfl | rfl | rfl <;> (cases hi; exact hj)
      have hsubject : logical[i]? = some (logical.get ⟨i, by rw [hlogical]; exact hlt⟩) := getElem?_eq_getElem _
      rw [hsubject]
      cases ha : added.addition.anchor with
      | before j =>
        by_cases hj : n ≤ j
        · simp only [hj, if_true]
          exact good_refused _
        · simp only [hj, if_false]
          refine ⟨⟨i, hlt, ?_⟩, j, not_le.1 hj, .inl rfl⟩
          split
          · exact .inl rfl
          · exact .inr rfl
      | after j =>
        by_cases hj : n ≤ j
        · simp only [hj, if_true]
          exact good_refused _
        · simp only [hj, if_false]
          refine ⟨⟨i, hlt, ?_⟩, j, not_le.1 hj, .inr rfl⟩
          split
          · exact .inl rfl
          · exact .inr rfl

variable (h : st.Inv reading input) (hlogical : logical.length = input.length)
include h hlogical

theorem add_meets (added : List (Added α)) (respelled : List (Nat × PlannedChange α)) (edges : List Order) :
    (st.add reading rule logical added respelled edges).Meets Good (State.Inv reading input) := by
  unfold State.add
  dsimp only
  have hrespelled : (respelled.foldlM (respell reading rule st.changes.length) st.changes).Meets Good fun changes =>
      Forall₂ (fun p p' => reading.discriminant p'.change = reading.discriminant p.change) st.changes changes :=
    Except.Meets.foldlM (forall₂_same.2 fun _ _ => rfl) fun _ e _ hsame => respell_meets hsame e
  refine hrespelled.bind fun changes hsame => ?_
  have hall : (added.mapM (admitted rule logical st.changes.length st.origins)).Meets Good fun additions =>
      Forall₂ (fun a e => (∃ i < input.length, e.2 = .teardown (.change i) ∨ e.2 = .restoration (.change i)) ∧
        ∃ j < st.changes.length, a.addition.anchor = .before j ∨ a.addition.anchor = .after j) added additions :=
    Except.Meets.mapM fun a _ => admitted_meets hlogical h.serves a
  refine hall.bind fun additions hadditions => ?_
  rw [if_neg (by rw [h.aligned]; exact lt_irrefl _)]
  have hanchors : ∀ a ∈ added, ∃ j < st.changes.length, a.addition.anchor = .before j ∨ a.addition.anchor = .after j := by
    intro a ha
    obtain ⟨e, -, he⟩ := hadditions.exists_of_mem_left ha
    exact he.2
  have hlength : (changes.zip st.origins ++ additions).length = st.changes.length + added.length := by
    rw [length_append, length_zip, ← hsame.length_eq, h.aligned, min_self, hadditions.length_eq]
  obtain ⟨placed, hplaced, hperm⟩ := exists_takeAll_of_perm (hlength ▸ placing_perm hanchors)
  rw [hplaced]
  have hmoved : (edges.mapM (moved rule st.changes.length added)).Meets Good fun out =>
      Forall₂ (fun _ _ => True) edges out := by
    refine Except.Meets.mapM fun e _ => ?_
    unfold moved
    split
    · trivial
    · exact good_refused _
  refine hmoved.bind fun edges' _ => ?_
  have hsound : Sound reading input (placed.map (·.1) |>.zip (placed.map (·.2))) := by
    rw [zip_map', map_id']
    refine Sound.perm (Sound.append (h.sound.respelled (forall₂_zip_left hsame st.origins)) fun e he => ?_) hperm
    obtain ⟨a, -, ha⟩ := hadditions.exists_of_mem_right he
    exact ha.1
  exact settle_meets ⟨by simp, hsound⟩ edges'

theorem split_meets (i : Nat) {parts : List (PlannedChange α)} (htwo : 2 ≤ parts.length) (reason : String) :
    (st.split rule logical i parts reason).Meets Good (State.Inv reading input) := by
  unfold State.split
  split
  · next source hsource =>
    obtain ⟨hi, hat⟩ := List.getElem?_eq_some_iff.1 hsource
    have hlt : source < logical.length := by
      obtain ⟨j, hj, heq | heq | heq | heq⟩ := h.serves _ (mem_of_getElem? hsource)
      · cases heq
        rwa [hlogical]
      · cases heq
      · cases heq
      · cases heq
    rw [getElem?_eq_getElem hlt]
    dsimp only
    have hi' : i < st.changes.length := h.aligned ▸ hi
    rw [if_pos hi']
    constructor
    · have := h.aligned
      simp only [length_append, length_take, length_drop, length_map, length_replicate]
      omega
    · have hsteps : st.changes.zip st.origins = (st.changes.take i).zip (st.origins.take i) ++
          (st.changes[i], .whole source) :: (st.changes.drop (i + 1)).zip (st.origins.drop (i + 1)) := by
        rw [zip_eq_append_cons hi' hi, hat]
      have hsound := h.sound
      rw [hsteps] at hsound
      dsimp only
      rw [zip_append, zip_append]
      · refine hsound.split (fun e he => ?_) ?_
        · exact eq_of_mem_replicate (of_mem_zip he).2
        · rwa [length_zip, length_map, length_replicate, min_self]
      · rw [length_take, length_take, h.aligned]
      · simp only [length_append, length_take, length_replicate, h.aligned]
  · exact good_refused _

theorem apply_meets (rewrite : Rewrite α) : (st.apply reading rule logical rewrite).Meets Good (State.Inv reading input) := by
  -- The contract is checked of whatever the rewrite gave, and refuses at most.
  have hchecked : ∀ st' : State τ α, st'.Inv reading input → (do
      st'.contract rule logical.length
      return st' : Except Stop (State τ α)).Meets Good (State.Inv reading input) := by
    intro st' hinv
    have hcontract : (st'.contract rule logical.length).Meets Good fun _ => True := by
      unfold State.contract
      split
      · exact good_refused _
      · trivial
    exact hcontract.bind fun _ _ => hinv
  unfold State.apply
  cases rewrite with
  | split i first second tail reason => exact (split_meets h hlogical i (by simp) reason).bind hchecked
  | add added respelled edges => exact (add_meets h hlogical added respelled edges).bind hchecked

end Adding

end Run

end Pbps.Expand
