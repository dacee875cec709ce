/-
Whole runs of the rule driver: the loop ends within its budget, and a plan that is returned meets every obligation in the
order it is returned in, with every step of the input there.
-/
import Pbps.Order.Expanded

namespace Pbps.Expand

open Pbps.Order
open List

section Runs

variable {σ τ α O : Type} {reading : Reading α} {show_ : O → String} {expansion : Expansion σ τ α O}

/-! ## What a rule is asked -/

/-- One question put to a rule, and the state that it leaves. -/
inductive Expansion.Asked (expansion : Expansion σ τ α O) (s s' : σ) : Prop where
  | unmet {plan : List (PlannedChange α)} {answer} (h : expansion.unmet s plan = (answer, s'))
  | expand {plan : List (PlannedChange α)} {first : O} {answer} (h : expansion.expand s plan first = (answer, s'))
  | order {plan : List (PlannedChange α)} {answer} (h : expansion.order s plan = (answer, s'))

def Expansion.Reaches (expansion : Expansion σ τ α O) : σ → σ → Prop := Relation.ReflTransGen expansion.Asked

/-- The operations that a plan asks for: its own, and one per obligation before any rewrite. -/
def asked (expansion : Expansion σ τ α O) (s : σ) (plan : PlanningPlan τ α) : Nat :=
  match (expansion.unmet s plan.payload).1 with
  | .ok asks => plan.payload.length + asks.length
  | .error _ => plan.payload.length

/-! ## The loop -/

variable [DecidableEq τ] [BEq O] {input : List (PlannedChange α)} {logical : List String}

variable {factor n : Nat} {plan : PlanningPlan τ α} {st : State τ α} {origins : List (Origin τ)} {o : Origin τ}

theorem loop_meets {operations : Nat} (hlogical : logical.length = input.length) :
    ∀ {fuel rewrites : Nat} {s : σ} {st : State τ α}, st.Inv reading input → rewrites ≤ factor * max operations 1 →
      factor * max operations 1 < rewrites + fuel →
      (loop reading logical show_ expansion factor operations fuel rewrites s st).1 ≤ factor * max operations 1 ∧
        (loop reading logical show_ expansion factor operations fuel rewrites s st).2.Meets Good fun out =>
          out.1.Inv reading input ∧ expansion.Reaches s out.2 := by
  intro fuel
  induction fuel with
  | zero =>
    intro rewrites s st _ hle hfuel
    omega
  | succ fuel ih =>
    intro rewrites s st hinv hle hfuel
    unfold loop
    dsimp only
    split
    · exact ⟨hle, good_refused _⟩
    · next s₁ hs₁ => exact ⟨hle, hinv, .single (.unmet hs₁)⟩
    · next first rest s₁ hs₁ =>
      split
      · exact ⟨hle, good_refused _⟩
      · next hbudget =>
        split
        · exact ⟨hle, good_refused _⟩
        · next rewrite s₂ hs₂ =>
          split
          · exact ⟨hle, good_refused _⟩
          · have happly : (st.apply reading expansion.rule logical rewrite).Meets Good (State.Inv reading input) :=
              apply_meets hinv hlogical rewrite
            split
            · next e herr =>
              rw [herr] at happly
              exact ⟨hle, happly⟩
            · next st' hok =>
              rw [hok] at happly
              split
              · exact ⟨by omega, good_refused _⟩
              · next unmet s₃ hs₃ =>
                split
                · exact ⟨by omega, good_refused _⟩
                · obtain ⟨hbound, hmeets⟩ := @ih (rewrites + 1) s₃ st' happly (by omega) (by omega)
                  have hreach : expansion.Reaches s s₃ := .tail (.tail (.single (.unmet hs₁)) (.expand hs₂)) (.unmet hs₃)
                  exact ⟨hbound, hmeets.mono fun out hout => ⟨hout.1, hreach.trans hout.2⟩⟩

/-! ## Identities -/

omit [BEq O]

theorem checkedAdd_meets (n : Nat) : (checkedAdd n).Meets Good fun _ => True := by
  unfold checkedAdd
  split
  · trivial
  · exact ⟨by simp, by simp⟩

theorem reserve_meets (a : IdAllocator τ) (op : Operation τ α) : (a.reserve op).Meets Good fun _ => True := by
  unfold IdAllocator.reserve
  refine (checkedAdd_meets _).bind fun _ _ => (checkedAdd_meets _).bind fun _ _ => ?_
  dsimp only
  split
  · exact ⟨by simp, by simp⟩
  · trivial

theorem allocate_meets (modules : ModuleEdits) (fresh : List (Origin τ × PlannedChange α)) :
    ∀ out : IdAllocator τ × List (Operation τ α), (fresh.foldlM (IdAllocator.allocate modules) out).Meets Good fun out' =>
      out'.2.length = out.2.length + fresh.length := by
  induction fresh with
  | nil => exact fun out => rfl
  | cons e fresh ih =>
    intro out
    have hstep : (IdAllocator.allocate modules out e).Meets Good fun out' => out'.2.length = out.2.length + 1 := by
      unfold IdAllocator.allocate
      dsimp only
      split
      · refine (checkedAdd_meets _).bind fun _ _ => ?_
        exact length_append
      · refine (checkedAdd_meets _).bind fun _ _ => ?_
        rw [pure_bind]
        refine (checkedAdd_meets _).bind fun _ _ => ?_
        exact length_append
    rw [foldlM_cons]
    refine hstep.bind fun out' hout' => (ih out').mono fun out'' hout'' => ?_
    rw [hout'', hout', length_cons]
    omega

omit [DecidableEq τ] in
theorem merged_meets (identities : List (Operation τ α)) : ∀ (retained : List (Option Nat)) (added : List (Operation τ α)),
    retained.countP (·.isNone) ≤ added.length →
    (merged identities retained added).Meets Good fun operations => operations.length = retained.length
  | [], _, _ => rfl
  | none :: retained, [], h => by simp at h
  | none :: retained, op :: added, h => by
    have hle : retained.countP (·.isNone) ≤ added.length := by simpa using h
    refine Except.Meets.map ((merged_meets identities retained added hle).mono fun operations hlength => ?_)
    rw [length_cons, hlength, length_cons]
  | some i :: retained, added, h => by
    have hle : retained.countP (·.isNone) ≤ added.length := by simpa using h
    unfold merged
    split
    · exact ⟨by simp, by simp⟩
    · refine Except.Meets.map ((merged_meets identities retained added hle).mono fun operations hlength => ?_)
      rw [length_cons, hlength, length_cons]

theorem length_fresh {β : Type} : ∀ {retained : List (Option Nat)} {steps : List β}, steps.length = retained.length →
    ((retained.zip steps).filterMap fun e => if e.1.isNone then some e.2 else none).length = retained.countP (·.isNone)
  | [], _, _ => rfl
  | none :: retained, [], h => by cases h
  | some _ :: retained, [], h => by cases h
  | none :: retained, b :: steps, h => by
    have ih := length_fresh (Nat.succ.inj h)
    simpa using ih
  | some _ :: retained, b :: steps, h => by
    have ih := length_fresh (Nat.succ.inj h)
    simpa using ih

theorem identify_meets (s : σ) (haligned : st.origins.length = st.changes.length) (horigins : origins.length = st.changes.length) :
    (identify expansion s plan st origins).Meets Good fun _ => True := by
  unfold identify
  split
  · trivial
  · next identities hidentities =>
    have hreserved : (identities.foldlM IdAllocator.reserve plan.allocator).Meets Good fun _ => True :=
      Except.Meets.foldlM trivial fun a op _ _ => reserve_meets a op
    refine hreserved.bind fun allocator _ => ?_
    dsimp only
    refine (allocate_meets _ _ _).bind fun out hout => ?_
    rw [length_fresh (by rw [length_zip, length_map]; omega), length_nil, Nat.zero_add] at hout
    refine (merged_meets identities _ out.2 hout.ge).bind fun operations hoperations => ?_
    have hsteps : (withSteps operations st.changes).Meets Good fun _ => True := by
      unfold withSteps
      rw [if_neg (by rw [hoperations, length_map, haligned]; exact not_not.2 rfl)]
      trivial
    refine hsteps.bind fun bound _ => ?_
    split
    · exact good_refused _
    · trivial

/-! ## Whole runs -/

/-- What a returned plan is: every obligation met, in the order it is returned in, and every step of the input there. -/
structure Completed (reading : Reading α) (expansion : Expansion σ τ α O) (s : σ) (plan : PlanningPlan τ α)
    (done : PlanningPlan τ α) : Prop where
  /-- The rule, asked of the returned plan, reports nothing. -/
  met : ∃ s' s'', expansion.Reaches s s' ∧ expansion.unmet s' done.payload = (.ok [], s'')
  /-- What each step is to the steps of the input, and what its origin says of it. -/
  present : ∃ origins : List (Origin τ), origins.length = done.payload.length ∧
    Sound reading plan.payload (done.payload.zip origins) ∧ origins.mapM (carried plan.origins) = some done.origins
  /-- When the input's steps are its logical changes, the returned origins say so themselves. -/
  logical : plan.origins = (List.range plan.payload.length).map .whole → Sound reading plan.payload (done.payload.zip done.origins)

omit [DecidableEq τ] in
theorem exists_carried (h : Serves origins.length o) : ∃ o', carried origins o = some o' := by
  obtain ⟨i, hi, rfl | rfl | rfl | rfl⟩ := h
  · exact ⟨_, getElem?_eq_getElem hi⟩
  · exact ⟨_, by rw [carried, getElem?_eq_getElem hi, Option.map_some]⟩
  · exact ⟨_, by rw [carried, getElem?_eq_getElem hi, Option.map_some]⟩
  · exact ⟨_, by rw [carried, getElem?_eq_getElem hi, Option.map_some]⟩

omit [DecidableEq τ] in
theorem exists_mapM_carried : ∀ {steps : List (Origin τ)}, (∀ o ∈ steps, Serves origins.length o) →
    ∃ out, steps.mapM (carried origins) = some out ∧ out.length = steps.length
  | [], _ => ⟨[], rfl, rfl⟩
  | o :: steps, h => by
    obtain ⟨o', ho'⟩ := exists_carried (h o mem_cons_self)
    obtain ⟨out, hout, hlength⟩ := exists_mapM_carried fun p hp => h p (mem_cons_of_mem o hp)
    refine ⟨o' :: out, ?_, by rw [length_cons, hlength, length_cons]⟩
    rw [mapM_cons, ho', hout]
    rfl

omit [DecidableEq τ] in
theorem carried_whole (h : Serves n o) : carried ((List.range n).map .whole) o = some o := by
  obtain ⟨i, hi, rfl | rfl | rfl | rfl⟩ := h
  · simp [carried, hi]
  · simp [carried, hi, Origin.source]
  · simp [carried, hi, Origin.source]
  · simp [carried, hi, Origin.source]

omit [DecidableEq τ] in
theorem mapM_carried_whole : ∀ {steps : List (Origin τ)}, (∀ o ∈ steps, Serves n o) →
    steps.mapM (carried ((List.range n).map .whole)) = some steps
  | [], _ => rfl
  | o :: steps, h => by
    rw [mapM_cons, carried_whole (h o mem_cons_self),
      mapM_carried_whole fun p hp => h p (mem_cons_of_mem o hp)]
    rfl

theorem finish_meets {s s' : σ} (hinv : st.Inv reading plan.payload) (hreach : expansion.Reaches s s') (rewrites : Nat) :
    (finish reading show_ expansion s' plan st rewrites).Meets Good fun done =>
      done.rewrites = rewrites ∧ Completed reading expansion s plan done.changes := by
  unfold finish
  dsimp only
  split
  · exact good_refused _
  · next order s₁ hs₁ =>
    refine (settle_meets hinv order).bind fun st' hinv' => ?_
    split
    · exact good_refused _
    · exact good_refused _
    · next s₂ hs₂ =>
      obtain ⟨origins, horigins, hlength⟩ : ∃ out, st'.origins.mapM (carried plan.origins) = some out ∧
          out.length = st'.origins.length := exists_mapM_carried (plan.aligned ▸ hinv'.serves)
      rw [horigins]
      dsimp only
      rw [dif_pos (hinv'.aligned.symm.trans hlength.symm)]
      refine (identify_meets s₂ hinv'.aligned (hlength.trans hinv'.aligned)).bind fun out _ => ?_
      refine ⟨rfl, ⟨s₁, s₂, hreach.tail (.order hs₁), hs₂⟩, ⟨st'.origins, hinv'.aligned, hinv'.sound, horigins⟩, fun hwhole => ?_⟩
      rw [hwhole, mapM_carried_whole hinv'.serves] at horigins
      have hsame : st'.origins = origins := Option.some.inj horigins
      show Sound reading plan.payload (st'.changes.zip origins)
      rw [← hsame]
      exact hinv'.sound

theorem start_inv (plan : PlanningPlan τ α) : (State.start plan).Inv reading plan.payload := by
  have hlength : ((List.range plan.payload.length).map Origin.whole : List (Origin τ)).length = plan.payload.length := by simp
  have horigins : ((State.start plan).changes.zip (State.start plan).origins).map (·.2) =
      (List.range plan.payload.length).map .whole := map_snd_zip hlength.le
  refine ⟨hlength, fun i hi => .inl ?_, fun e he => ?_, fun e he i hwhole => ?_⟩
  · rw [horigins]
    constructor
    · rw [count_map_of_injective _ _ fun _ _ h => Origin.whole.inj h]
      exact count_eq_one_of_mem nodup_range (mem_range.2 hi)
    · rw [count_eq_zero]
      simp
  · obtain ⟨i, hi, hwhole⟩ := mem_map.1 (of_mem_zip he).2
    exact ⟨i, mem_range.1 hi, .inl hwhole.symm⟩
  · -- The step at a position has that position for its origin.
    obtain ⟨j, hj⟩ := mem_iff_getElem?.1 he
    obtain ⟨hchange, horigin⟩ := getElem?_zip_eq_some.1 hj
    change plan.payload[j]? = some e.1 at hchange
    change ((List.range plan.payload.length).map Origin.whole)[j]? = some e.2 at horigin
    have hj' : j < plan.payload.length := (List.getElem?_eq_some_iff.1 hchange).1
    rw [hwhole, getElem?_map, getElem?_range hj', Option.map_some] at horigin
    cases horigin
    exact ⟨e.1, hchange, rfl⟩

variable [BEq O]

theorem expand_meets (reading : Reading α) (show_ : O → String) (expansion : Expansion σ τ α O) (s : σ) (plan : PlanningPlan τ α)
    {fuel : Nat} (hfuel : factor * max (asked expansion s plan) 1 < fuel) :
    (expand reading show_ expansion s plan factor fuel).1 ≤ factor * max (asked expansion s plan) 1 ∧
      (expand reading show_ expansion s plan factor fuel).2.Meets Good fun done =>
        done.rewrites = (expand reading show_ expansion s plan factor fuel).1 ∧
          Completed reading expansion s plan done.changes := by
  unfold expand
  split
  · exact ⟨Nat.zero_le _, good_refused _⟩
  · next asks s₁ hs₁ =>
    have hasked : asked expansion s plan = plan.payload.length + asks.length := by rw [asked, hs₁]
    dsimp only
    rw [hasked] at hfuel ⊢
    have hlogical : (plan.payload.map fun p => reading.subject p.change).length = plan.payload.length := length_map _
    obtain ⟨hbound, hmeets⟩ := @loop_meets _ _ _ _ reading show_ expansion _ _ _ _ factor (plan.payload.length + asks.length)
      hlogical fuel 0 s₁ _ (start_inv plan) (Nat.zero_le _) (by rwa [Nat.zero_add])
    split
    · next applied e hloop =>
      rw [hloop] at hbound hmeets
      exact ⟨hbound, hmeets⟩
    · next applied st s₂ hloop =>
      rw [hloop] at hbound hmeets
      refine ⟨hbound, finish_meets hmeets.1 ?_ applied⟩
      exact (Relation.ReflTransGen.single (.unmet hs₁)).trans hmeets.2

/-- Any rule at all: the driver ends within its budget, without a panic, and a plan that it returns is complete. -/
theorem expand_sound (reading : Reading α) (show_ : O → String) (expansion : Expansion σ τ α O) (s : σ) (plan : PlanningPlan τ α)
    {factor fuel : Nat} (hfuel : factor * max (asked expansion s plan) 1 < fuel) :
    (expand reading show_ expansion s plan factor fuel).1 ≤ factor * max (asked expansion s plan) 1 ∧
      (expand reading show_ expansion s plan factor fuel).2 ≠ .error .panicked ∧
      (expand reading show_ expansion s plan factor fuel).2 ≠ .error .running ∧
      ∀ done, (expand reading show_ expansion s plan factor fuel).2 = .ok done →
        done.rewrites = (expand reading show_ expansion s plan factor fuel).1 ∧
          Completed reading expansion s plan done.changes := by
  obtain ⟨hbound, hmeets⟩ := expand_meets reading show_ expansion s plan hfuel
  refine ⟨hbound, ?_, ?_, ?_⟩
  · intro hpanicked
    rw [hpanicked] at hmeets
    exact hmeets.1 rfl
  · intro hrunning
    rw [hrunning] at hmeets
    exact hmeets.2 rfl
  · intro done hdone
    rw [hdone] at hmeets
    exact hmeets

end Runs

/-! ## A rule that tears down -/

namespace Torn

def reading : Reading Nat where
  subject n := toString n
  discriminant _ := 0
  created _ := none
  escaped := id
  checksum _ := ""

/-- A rule that wants the step `7` in the plan, and adds it before the first one. -/
def tearsDown : Expansion Unit Unit Nat Nat where
  rule := "teardown"
  unmet _ plan := (.ok (if plan.any (·.change = 7) then [] else [7]), ())
  expand _ _ _ :=
    (.ok (.add [.teardown ⟨0, ⟨7, none⟩, .before 0, "needed"⟩] [] [⟨.added 0, .plan 0, .effect, .structural⟩]), ())
  bindInputs _ operations := (.ok operations, ())
  order _ _ := (.ok [], ())

def plan : PlanningPlan Unit Nat where
  payload := [⟨1, none⟩]
  origins := [.whole 0]
  aligned := rfl
  logical := 1
  proof := ⟨1, "", []⟩

theorem expand_tearsDown : ∃ done, (expand reading toString tearsDown () plan FACTOR 5).2 = .ok done ∧
    done.changes.payload.map (·.change) = [7, 1] ∧ Completed reading tearsDown () plan done.changes := by
  have hplanned : ((expand reading toString tearsDown () plan FACTOR 5).2.toOption.map fun done =>
      done.changes.payload.map (·.change)) = some [7, 1] := by decide
  have hsound := (expand_sound reading toString tearsDown () plan (by decide : FACTOR * max (asked tearsDown () plan) 1 < 5)).2.2.2
  cases hdone : (expand reading toString tearsDown () plan FACTOR 5).2 with
  | error e =>
    rw [hdone] at hplanned
    cases hplanned
  | ok done =>
    rw [hdone] at hplanned
    exact ⟨done, rfl, Option.some.inj hplanned, (hsound done hdone).2⟩

end Torn

end Pbps.Expand
