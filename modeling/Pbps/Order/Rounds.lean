/-
The rounds of settling: which guesses they give up, and the components of annotations chained after them.
-/
import Pbps.Order.Graph

namespace Pbps.Order

open Relation (ReflTransGen TransGen)
open List

variable {n : Nat} {tie : Tie}

/-! ## Guesses -/

section Guesses

variable {l : List Constraint}

theorem findIdx?_congr {α : Type} {p q : α → Bool} : ∀ {l : List α}, (∀ a ∈ l, p a = q a) → l.findIdx? p = l.findIdx? q
  | [], _ => rfl
  | a :: l, h => by
    rw [findIdx?_cons, findIdx?_cons, h a mem_cons_self,
      findIdx?_congr fun b hb => h b (mem_cons_of_mem _ hb)]

section

variable (h : InRange n (listed l))
include h

theorem componentOf_eq {u v : Nat} (hu : u < n) (hne : u ≠ v) :
    (componentOf (components n l) u ≠ none ∧ componentOf (components n l) u = componentOf (components n l) v) ↔
      Same (listed l) u v := by
  have hmem : ∀ members ∈ components n l, IsComponent n (listed l) members := fun m hm => isComponent_of_mem h hm
  constructor
  · rintro ⟨hsome, heq⟩
    obtain ⟨i, hi⟩ := Option.ne_none_iff_exists'.1 hsome
    rw [hi] at heq
    unfold componentOf at hi heq
    obtain ⟨hlt, h1, -⟩ := findIdx?_eq_some_iff_getElem.1 hi
    obtain ⟨_, h2, -⟩ := findIdx?_eq_some_iff_getElem.1 heq.symm
    simp only [Bool.and_eq_true, contains_iff_mem] at h1 h2
    exact ((hmem _ (getElem_mem hlt)).mem_iff u h1.2 v).1 h2.2
  · intro hsame
    obtain ⟨members, hm, hum⟩ := exists_mem_components h hu
    have hc := hmem members hm
    have hvm : v ∈ members := (hc.mem_iff u hum v).2 hsame
    constructor
    · unfold componentOf
      rw [ne_eq, findIdx?_eq_none_iff]
      push Not
      refine ⟨members, hm, ?_⟩
      simp only [ne_eq, Bool.not_eq_false, Bool.and_eq_true, decide_eq_true_eq, contains_iff_mem]
      exact ⟨hc.one_lt_length.2 ⟨u, hum, v, hvm, hne⟩, hum⟩
    · -- every component holds both or neither
      unfold componentOf
      refine findIdx?_congr ?_
      intro group hg
      have hiff : u ∈ group ↔ v ∈ group := by
        constructor
        · intro hug
          exact ((hmem group hg).mem_iff u hug v).2 hsame
        · intro hvg
          exact ((hmem group hg).mem_iff v hvg u).2 hsame.symm
      simp only [contains_eq_mem, hiff]

theorem keepsGuess_iff {c : Constraint} (hc : c ∈ l) (backwardOnly : Bool) : keepsGuess (components n l) backwardOnly c = true ↔
      ¬ (c.source = .guess ∧ Same (listed l) c.before c.after ∧ ¬ (backwardOnly = true ∧ c.before < c.after)) := by
  have hrange := h c hc
  have hsame := componentOf_eq h hrange.1 hrange.2.2
  unfold keepsGuess
  rw [← hsame]
  simp only [Bool.or_eq_true, decide_eq_true_eq, Bool.and_eq_true]
  tauto

theorem mem_dropGuesses (backwardOnly : Bool) (c : Constraint) : c ∈ (dropGuesses n l backwardOnly).1 ↔
      c ∈ l ∧ ¬ (c.source = .guess ∧ Same (listed l) c.before c.after ∧ ¬ (backwardOnly = true ∧ c.before < c.after)) := by
  unfold dropGuesses
  rw [mem_filter]
  constructor
  · rintro ⟨hc, hk⟩
    exact ⟨hc, (keepsGuess_iff h hc backwardOnly).1 hk⟩
  · rintro ⟨hc, hk⟩
    exact ⟨hc, (keepsGuess_iff h hc backwardOnly).2 hk⟩

theorem mem_droppedGuesses {backwardOnly : Bool} {g : DroppedGuess} (hg : g ∈ (dropGuesses n l backwardOnly).2) :
    g.edge ∈ l ∧ g.edge ∉ (dropGuesses n l backwardOnly).1 ∧ g.edge.source = .guess ∧
      Same (listed l) g.edge.before g.edge.after := by
  unfold dropGuesses at hg
  obtain ⟨c, hc, rfl⟩ := mem_map.1 hg
  rw [mem_filter, Bool.not_eq_true'] at hc
  have hk := (keepsGuess_iff h hc.1 backwardOnly).not
  rw [hc.2] at hk
  have hk := not_not.1 (hk.1 (by simp))
  refine ⟨hc.1, ?_, hk.1, hk.2.1⟩
  rw [mem_dropGuesses h]
  exact fun hm => hm.2 hk

end

theorem exists_droppedGuess {backwardOnly : Bool} {c : Constraint} (hc : c ∈ l)
    (hnot : c ∉ (dropGuesses n l backwardOnly).1) : ∃ g ∈ (dropGuesses n l backwardOnly).2, g.edge = c := by
  unfold dropGuesses at hnot ⊢
  refine ⟨_, mem_map_of_mem (mem_filter.2 ⟨hc, ?_⟩), rfl⟩
  rw [mem_filter, not_and] at hnot
  simpa using hnot hc

end Guesses

/-! ## The rounds -/

/-- What holds of every round over the edges `C`. -/
structure Round.Valid (n : Nat) (tie : Tie) (C : List Constraint) (r : Round) : Prop where
  sub : r.kept.Sublist C
  emitted : r.emitted = kahn n r.kept tie
  given : ∀ c ∈ C, c ∉ r.kept → ∃ g ∈ r.dropped, g.edge = c
  dropped : ∀ g ∈ r.dropped, g.edge ∈ C ∧ g.edge ∉ r.kept ∧ g.edge.source = .guess ∧
    Same (listed C) g.edge.before g.edge.after

namespace Round.Valid

variable {C : List Constraint} {r : Round}

theorem subset (h : r.Valid n tie C) : listed r.kept ⊆ listed C := fun _ hc => h.sub.subset hc

theorem inRange (h : r.Valid n tie C) (hC : InRange n (listed C)) : InRange n (listed r.kept) := hC.mono h.subset

theorem giveUp (h : r.Valid n tie C) (hC : InRange n (listed C)) (backwardOnly : Bool) :
    (r.giveUp n tie backwardOnly).Valid n tie C := by
  have hkept := h.inRange hC
  have hsub : (dropGuesses n r.kept backwardOnly).1.Sublist r.kept := filter_sublist
  unfold Round.giveUp
  split
  · constructor
    case sub => exact hsub.trans h.sub
    case emitted =>
      dsimp only
      split
      · rfl
      · rename_i hlen
        rw [hsub.eq_of_length (by omega)]
        exact h.emitted
    case given =>
      intro c hc hnot
      dsimp only at hnot ⊢
      by_cases hck : c ∈ r.kept
      · obtain ⟨g, hg, rfl⟩ := exists_droppedGuess hck hnot
        exact ⟨g, mem_append_right _ hg, rfl⟩
      · obtain ⟨g, hg, rfl⟩ := h.given c hc hck
        exact ⟨g, mem_append_left _ hg, rfl⟩
    case dropped =>
      intro g hg
      dsimp only at hg ⊢
      rcases mem_append.1 hg with hg | hg
      · obtain ⟨h1, h2, h3⟩ := h.dropped g hg
        exact ⟨h1, fun hm => h2 (hsub.subset hm), h3⟩
      · obtain ⟨h1, h2, h3, h4⟩ := mem_droppedGuesses hkept hg
        exact ⟨h.sub.subset h1, h2, h3, h4.mono h.subset⟩
  · exact h

end Round.Valid

theorem rounds_valid (tie : Tie) {C : List Constraint} (hC : InRange n (listed C)) : (rounds n tie C).Valid n tie C := by
  have hstart : Round.Valid n tie C ⟨C, kahn n C tie, []⟩ := ⟨List.Sublist.refl C, rfl, fun c hc hnot => absurd hc hnot, by simp⟩
  exact (hstart.giveUp hC true).giveUp hC false

/-- Where steps still wait on one another no guess is left inside a component. -/
theorem rounds_no_guess {C : List Constraint} (hC : InRange n (listed C)) (hlen : (rounds n tie C).emitted.length < n)
    {c : Constraint} (hc : c ∈ (rounds n tie C).kept) (hguess : c.source = .guess) :
    ¬ Same (listed (rounds n tie C).kept) c.before c.after := by
  have hstart : Round.Valid n tie C ⟨C, kahn n C tie, []⟩ := ⟨List.Sublist.refl C, rfl, fun c hc hnot => absurd hc hnot, by simp⟩
  have hfirst := hstart.giveUp hC true
  unfold rounds at hc hlen ⊢
  generalize Round.giveUp n tie true ⟨C, kahn n C tie, []⟩ = r at hc hlen hfirst ⊢
  have hkept := hfirst.inRange hC
  unfold Round.giveUp at hc hlen ⊢
  split at hc
  · rename_i hwait
    rw [if_pos hwait]
    dsimp only at hc ⊢
    intro hsame
    have hc' := (mem_dropGuesses hkept false c).1 hc
    refine hc'.2 ⟨hguess, hsame.mono ?_, by simp⟩
    exact fun x hx => ((mem_dropGuesses hkept false x).1 hx).1
  · rename_i hdone
    rw [if_neg hdone] at hlen
    exact absurd hlen hdone

end Pbps.Order
