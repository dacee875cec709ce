/-
What a schedule refuses as a cycle: exactly a component, once the guesses inside the components of its edges
are removed, with an edge that is no annotation. The refusal names one such component whole.
-/
import Pbps.Order.Settled

namespace Pbps.Order

open Relation (ReflTransGen TransGen)
open List

variable {n : Nat} {tie : Tie}

/-! ## What is left over -/

section Left

variable {C : List Constraint} {r : Round}

theorem not_mem_chained (hv : r.Valid n tie C) (hC : InRange n (listed C)) {x y : Nat}
    (hnot : ¬ Annotated (listed r.kept) x) (hsame : Same (listed r.kept) x y) : y ∉ (r.chained n tie).emitted := by
  have hR := hv.inRange hC
  obtain ⟨c, hc, hb, ha, -⟩ := exists_of_not_annotated hnot
  have hnoty : ¬ Annotated (listed r.kept) y := fun hann => hnot (hann.of_same hsame.symm)
  -- a step of the component other than `y`
  obtain ⟨z, hyz, hsz⟩ : ∃ z, y ≠ z ∧ Same (listed r.kept) y z := by
    by_cases hyb : y = c.before
    · refine ⟨c.after, ?_, hsame.symm.trans ha⟩
      rw [hyb]
      exact (hR c hc).2.2
    · exact ⟨c.before, hyb, hsame.symm.trans hb⟩
  unfold Round.chained
  dsimp only
  split
  · refine (kahn_isOrder (ordering_inRange hR) tie).not_cycle y (Component.Same.cycle ?_ hyz)
    exact same_of_inside (fun c' hc' hb' ha' => mem_ordering_of_not_annotated hR hnoty hc' hb' ha') hsz
  · rw [hv.emitted]
    exact (kahn_isOrder hR tie).not_cycle y (hsz.cycle hyz)

def leftEdges (r : Round) : List Constraint :=
  r.kept.filter fun c => !r.emitted.contains c.before && !r.emitted.contains c.after

theorem mem_leftEdges {r : Round} {c : Constraint} :
    c ∈ leftEdges r ↔ c ∈ r.kept ∧ c.before ∉ r.emitted ∧ c.after ∉ r.emitted := by
  simp [leftEdges]

variable (hv : r.Valid n tie C) (hC : InRange n (listed C))
include hv hC

theorem leftEdges_subset : listed (leftEdges (r.chained n tie)) ⊆ listed r.kept :=
  fun _ hc => ((mem_chained_kept hv hC).1 (mem_leftEdges.1 hc).1).1

theorem same_leftEdges {x y : Nat} (hnot : ¬ Annotated (listed r.kept) x) :
    Same (listed (leftEdges (r.chained n tie))) x y ↔ Same (listed r.kept) x y := by
  constructor
  · exact Same.mono (leftEdges_subset hv hC)
  · refine same_of_inside ?_
    intro c hc hb ha
    refine mem_leftEdges.2 ⟨(mem_chained_kept hv hC).2 ⟨hc, ?_⟩, not_mem_chained hv hC hnot hb, not_mem_chained hv hC hnot ha⟩
    rintro ⟨-, hann⟩
    exact hnot (hann.of_same hb.symm)

theorem not_annotated_of_left {x y : Nat} (hne : x ≠ y) (hsame : Same (listed (leftEdges (r.chained n tie))) x y) :
    ¬ Annotated (listed r.kept) x := by
  obtain ⟨w, ⟨c, hc, rfl, rfl⟩, hwx⟩ := Relation.TransGen.head'_iff.1 (hsame.cycle hne)
  have hin : Same (listed (leftEdges (r.chained n tie))) c.before c.after := ⟨.single (edge_of_mem hc), hwx⟩
  have hkept := (mem_chained_kept hv hC).1 (mem_leftEdges.1 hc).1
  exact fun hann => hkept.2 ⟨hin.mono (leftEdges_subset hv hC), hann⟩

theorem isComponent_of_left {members : List Nat} (hm : members ∈ components n (leftEdges (r.chained n tie)))
    (hlen : 1 < members.length) : IsComponent n (listed r.kept) members ∧ ∀ x ∈ members, x ∉ (r.chained n tie).emitted := by
  have hleft := (hv.inRange hC).mono (leftEdges_subset hv hC)
  have hcomp := isComponent_of_mem hleft hm
  -- each member has another beside it
  have hother : ∀ x ∈ members, ∃ y ∈ members, x ≠ y := by
    intro x hx
    obtain ⟨a, ha, b, hb, hab⟩ := hcomp.one_lt_length.1 hlen
    by_cases hxa : x = a
    · exact ⟨b, hb, by rw [hxa]; exact hab⟩
    · exact ⟨a, ha, hxa⟩
  have hnot : ∀ x ∈ members, ¬ Annotated (listed r.kept) x := by
    intro x hx
    obtain ⟨y, hy, hne⟩ := hother x hx
    exact not_annotated_of_left hv hC hne ((hcomp.mem_iff x hx y).1 hy)
  refine ⟨⟨hcomp.ne_nil, hcomp.ascending, hcomp.lt, ?_⟩, ?_⟩
  · intro x hx y
    rw [hcomp.mem_iff x hx y, same_leftEdges hv hC (hnot x hx)]
  · intro x hx
    exact not_mem_chained hv hC (hnot x hx) (Component.Same.refl _ _)

theorem exists_left (hbad : Bad (listed r.kept)) :
    ∃ members ∈ components n (leftEdges (r.chained n tie)), 1 < members.length := by
  have hR := hv.inRange hC
  obtain ⟨c, hc, hsame, hsource⟩ := hbad
  have hnot : ¬ Annotated (listed r.kept) c.before := fun hann => hsource (hann c hc (Component.Same.refl _ _) hsame)
  have hleft := hR.mono (leftEdges_subset hv hC)
  obtain ⟨members, hm, hbm⟩ := exists_mem_components hleft (hR c hc).1
  have hcomp := isComponent_of_mem hleft hm
  refine ⟨members, hm, hcomp.one_lt_length.2 ⟨c.before, hbm, c.after, ?_, (hR c hc).2.2⟩⟩
  exact (hcomp.mem_iff _ hbm _).2 ((same_leftEdges hv hC hnot).2 hsame)

end Left

theorem least_spec (groups : List (List Nat)) (h : groups ≠ []) : ∃ members ∈ groups, least groups = some members := by
  cases groups with
  | nil => exact absurd rfl h
  | cons a l =>
    rw [least, foldl_cons]
    refine foldlRecOn (motive := fun o => ∃ members ∈ a :: l, o = some members) l _ ⟨a, mem_cons_self, rfl⟩ fun o ho b hb => ?_
    obtain ⟨m, hm, rfl⟩ := ho
    dsimp only
    split
    · exact ⟨b, mem_cons_of_mem _ hb, rfl⟩
    · exact ⟨m, hm, rfl⟩

/-! ## Without the guesses inside components -/

section Guesses

variable {C : List Constraint}

/-- The edges without the guesses between two members of one component. -/
def withoutGuesses (E : Set Constraint) : Set Constraint :=
  {c | c ∈ E ∧ ¬ (c.source = .guess ∧ Same E c.before c.after)}

theorem withoutGuesses_subset (tie : Tie) (hC : InRange n (listed C)) :
    withoutGuesses (listed C) ⊆ listed (rounds n tie C).kept := by
  rintro c ⟨hc, hno⟩
  by_contra hout
  obtain ⟨g, hg, rfl⟩ := (rounds_valid tie hC).given c hc hout
  obtain ⟨-, -, h3, h4⟩ := (rounds_valid tie hC).dropped g hg
  exact hno ⟨h3, h4⟩

theorem mem_withoutGuesses_of_inside (hC : InRange n (listed C)) {c : Constraint} (hc : c ∈ (rounds n tie C).kept)
    (hsame : Same (listed (rounds n tie C).kept) c.before c.after) : c ∈ withoutGuesses (listed C) := by
  have hv := rounds_valid tie hC
  have hR := hv.inRange hC
  have horder := kahn_isOrder hR tie
  rw [← hv.emitted] at horder
  refine ⟨hv.sub.subset hc, ?_⟩
  rintro ⟨hguess, -⟩
  have hlen := (horder.length_lt_iff hR).2 (same_ne_of_mem hR hc hsame)
  exact rounds_no_guess hC hlen hc hguess hsame

/-- The rounds leave the components that the edges without those guesses have. -/
theorem same_rounds_iff (hC : InRange n (listed C)) {x y : Nat} :
    Same (listed (rounds n tie C).kept) x y ↔ Same (withoutGuesses (listed C)) x y := by
  constructor
  · refine Component.Same.of_inside ?_
    rintro a b ⟨c, hc, rfl, rfl⟩ ha hb
    exact edge_of_mem (mem_withoutGuesses_of_inside hC hc (ha.symm.trans hb))
  · exact Same.mono (withoutGuesses_subset tie hC)

theorem bad_rounds_iff (tie : Tie) (hC : InRange n (listed C)) :
    Bad (listed (rounds n tie C).kept) ↔ Bad (withoutGuesses (listed C)) := by
  constructor
  · rintro ⟨c, hc, hsame, hsource⟩
    exact ⟨c, mem_withoutGuesses_of_inside hC hc hsame, (same_rounds_iff hC).1 hsame, hsource⟩
  · rintro ⟨c, hc, hsame, hsource⟩
    exact ⟨c, withoutGuesses_subset tie hC hc, (same_rounds_iff hC).2 hsame, hsource⟩

theorem bad_iff {E : Set Constraint} (hE : InRange n E) (hfin : ∃ l, E = listed l) :
    Bad E ↔ ∃ members, IsComponent n E members ∧ 2 ≤ members.length ∧
      ∃ c ∈ E, c.before ∈ members ∧ c.after ∈ members ∧ c.source ≠ .declared := by
  obtain ⟨l, rfl⟩ := hfin
  constructor
  · rintro ⟨c, hc, hsame, hsource⟩
    obtain ⟨hb, -, hne⟩ := hE c hc
    obtain ⟨members, hm, hbm⟩ := exists_mem_components hE hb
    have hcomp := isComponent_of_mem hE hm
    have ham := (hcomp.mem_iff _ hbm _).2 hsame
    exact ⟨members, hcomp, hcomp.one_lt_length.2 ⟨_, hbm, _, ham, hne⟩, c, hc, hbm, ham, hsource⟩
  · rintro ⟨members, hcomp, -, c, hc, hb, ha, hsource⟩
    exact ⟨c, hc, (hcomp.mem_iff _ hb _).1 ha, hsource⟩

end Guesses

/-! ## The refusal -/

namespace Schedule

variable {s : Schedule}

theorem sequence_eq_error {refusal : Refusal} (hrange : InRange s.steps s.edges) (hobligations : s.obligations = [])
    (hkeeps : s.keeps = []) :
    s.sequence = .error refusal ↔ s.settledRound.emitted.length < s.steps ∧ refusal = s.cycleRefusal s.settledRound := by
  have hedge := outsideEdge_eq_none.2 hrange
  have hkeep : s.outsideKeep = none := by simp [outsideKeep, hkeeps]
  have hreversed : firstReversed s.settledRound.emitted s.keeps = none := by simp [firstReversed, hkeeps]
  unfold sequence settledTrace
  rw [hedge, hkeep]
  dsimp only
  rw [hreversed]
  simp only [hobligations, ne_eq, not_true_eq_false, if_false]
  split
  · rename_i hlen
    simp [Except.map, hlen, eq_comm]
  · rename_i hlen
    simp [Except.map, hlen]

theorem bad_settledRound_iff (hrange : InRange s.steps s.edges) :
    s.settledRound.emitted.length < s.steps ↔ Bad (withoutGuesses s.edges) := by
  have hC : InRange s.steps (listed s.constraints.toList) := by
    rw [listed_constraints]
    exact hrange
  rw [← listed_constraints, ← bad_rounds_iff s.tie hC]
  exact chained_length_lt_iff (settledRound_valid hrange) hC

/-- A schedule whose edges name its steps, without obligations and kept orders, is refused for a cycle
exactly if a component of two or more steps, once the guesses inside components are removed, holds an edge
that is no annotation. The refusal names one component of the edges left, and all of it waits. -/
theorem sequence_cycle_iff (hrange : InRange s.steps s.edges) (hobligations : s.obligations = []) (hkeeps : s.keeps = []) :
    ((∃ members edges waiting remedy, s.sequence = .error (.cycle members edges waiting remedy)) ↔
      ∃ members, IsComponent s.steps (withoutGuesses s.edges) members ∧ 2 ≤ members.length ∧
        ∃ c ∈ withoutGuesses s.edges, c.before ∈ members ∧ c.after ∈ members ∧ c.source ≠ .declared) ∧
      ∀ members edges waiting remedy, s.sequence = .error (.cycle members edges waiting remedy) →
        members ≠ [] ∧ IsComponent s.steps (withoutGuesses s.edges) members ∧ ∀ x ∈ members, x ∈ waiting := by
  have hC : InRange s.steps (listed s.constraints.toList) := by
    rw [listed_constraints]
    exact hrange
  have hv := settledRound_valid hrange
  have hfinite : ∃ l, withoutGuesses s.edges = listed l := by
    classical
    refine ⟨s.constraints.toList.filter fun c => ¬ (c.source = .guess ∧ Same s.edges c.before c.after), ?_⟩
    ext c
    simp only [withoutGuesses, listed, Set.mem_ofPred_eq, mem_filter, decide_eq_true_eq, Std.ExtTreeSet.mem_toList]
    rfl
  have hbad := bad_iff (hrange.mono fun c (hc : c ∈ withoutGuesses s.edges) => hc.1) hfinite
  constructor
  · rw [← hbad, ← bad_settledRound_iff hrange]
    constructor
    · rintro ⟨members, edges, waiting, remedy, h⟩
      exact ((sequence_eq_error hrange hobligations hkeeps).1 h).1
    · intro hlen
      exact ⟨_, _, _, _, (sequence_eq_error hrange hobligations hkeeps).2 ⟨hlen, rfl⟩⟩
  · intro members edges waiting remedy h
    obtain ⟨hlen, heq⟩ := (sequence_eq_error hrange hobligations hkeeps).1 h
    obtain ⟨found, hfound, hlong⟩ := exists_left hv hC ((chained_length_lt_iff hv hC).1 hlen)
    have hmem : found ∈ (components s.steps (leftEdges s.settledRound)).filter fun members => 1 < members.length :=
      mem_filter.2 ⟨hfound, by simpa using hlong⟩
    obtain ⟨named, hnamed, hleast⟩ := least_spec _ (ne_nil_of_mem hmem)
    unfold cycleRefusal at heq
    dsimp only at heq
    rw [show (s.settledRound.kept.filter fun c =>
      !s.settledRound.emitted.contains c.before && !s.settledRound.emitted.contains c.after) = leftEdges s.settledRound
        from rfl, hleast] at heq
    dsimp only [Option.getD_some] at heq
    injection heq with h1 h2 h3 h4
    subst h1 h3
    obtain ⟨hmem, hone⟩ := mem_filter.1 hnamed
    obtain ⟨hcomp, hout⟩ := isComponent_of_left hv hC hmem (by simpa using hone)
    refine ⟨hcomp.ne_nil, ⟨hcomp.ne_nil, hcomp.ascending, hcomp.lt, ?_⟩, ?_⟩
    · intro x hx y
      rw [hcomp.mem_iff x hx y, same_rounds_iff hC, listed_constraints]
    · intro x hx
      rw [mem_filter, mem_range]
      refine ⟨hcomp.lt x hx, ?_⟩
      rw [Bool.not_eq_true', ← Bool.not_eq_true, contains_iff_mem]
      exact hout x hx

/-- An annotation against an effect, and a step that waits for both. -/
def mixedPair : Schedule where
  steps := 3
  constraints := .ofList ([⟨0, 1, .declared, .structural⟩, ⟨1, 0, .effect, .structural⟩, ⟨1, 2, .effect, .structural⟩] :
    List Constraint)

theorem mixedPair_inRange : InRange mixedPair.steps mixedPair.edges := outsideEdge_eq_none.1 (by decide)

/-- The component of the two is named. -/
theorem mixedPair_refused : ∃ edges, mixedPair.sequence = .error (.cycle [0, 1] edges [0, 1, 2] none) ∧
    IsComponent 3 (withoutGuesses mixedPair.edges) [0, 1] := by
  have h : mixedPair.sequence = .error (.cycle [0, 1]
      [⟨0, 1, .declared, .structural⟩, ⟨1, 0, .effect, .structural⟩] [0, 1, 2] none) := by decide
  exact ⟨_, h, ((sequence_cycle_iff mixedPair_inRange rfl rfl).2 _ _ _ _ h).2.1⟩

end Schedule

end Pbps.Order
