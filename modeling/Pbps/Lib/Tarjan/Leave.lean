/-
The search for components leaves a vertex. With its own index for `low` the vertex is the first of its
component, which is the stack down to it: an edge from there to the stack below would have been seen, and
would have lowered `low`.
-/
import Pbps.Lib.Tarjan.Invariant

namespace Tarjan

open List

namespace Search

variable {n : Nat} {out : Nat → List Nat} {known known' : Nat → Nat → Prop} {s : Search}

/-! ## The component of a first vertex -/

theorem popTo_eq {v : Nat} : ∀ {stack : List Nat}, v ∈ stack →
    ∃ pre, stack = pre ++ v :: (popTo v stack).2 ∧ (popTo v stack).1 = pre ++ [v]
  | w :: stack, hv => by
    by_cases hw : w = v
    · subst hw
      exact ⟨[], by simp [popTo]⟩
    · have hm : v ∈ stack := (mem_cons.1 hv).resolve_left (Ne.symm hw)
      obtain ⟨pre, h1, h2⟩ := popTo_eq hm
      refine ⟨w :: pre, ?_⟩
      simp only [popTo, if_neg hw, cons_append, h2, and_true]
      rw [← h1]

section Leave

variable {v : Nat} {rest : List Nat}

theorem Placed.mem_popTo (h : s.Placed n out) (hv : v ∈ s.stack) :
    (∀ x, x ∈ (popTo v s.stack).1 ↔ x ∈ s.stack ∧ s.rank v ≤ s.rank x) ∧
      (∀ x, x ∈ (popTo v s.stack).2 ↔ x ∈ s.stack ∧ s.rank x < s.rank v) ∧
        (popTo v s.stack).1.Nodup ∧ (popTo v s.stack).2.Sublist s.stack := by
  obtain ⟨pre, h1, h2⟩ := popTo_eq hv
  have hp := h.stacked
  rw [h1, pairwise_append, pairwise_cons] at hp
  obtain ⟨hpre, ⟨hbelow, -⟩, hcross⟩ := hp
  have habove : ∀ x ∈ pre, s.rank v < s.rank x := fun x hx => hcross x hx v mem_cons_self
  have hmem : ∀ x, x ∈ s.stack ↔ x ∈ pre ∨ x = v ∨ x ∈ (popTo v s.stack).2 := by
    intro x
    nth_rewrite 1 [h1]
    simp
  refine ⟨?_, ?_, ?_, ?_⟩
  · intro x
    rw [hmem, h2, mem_append, mem_singleton]
    constructor
    · rintro (hx | rfl)
      · exact ⟨.inl hx, (habove x hx).le⟩
      · exact ⟨.inr (.inl rfl), le_rfl⟩
    · rintro ⟨hx | rfl | hx, hle⟩
      · exact .inl hx
      · exact .inr rfl
      · have := hbelow x hx
        omega
  · intro x
    rw [hmem]
    constructor
    · intro hx
      exact ⟨.inr (.inr hx), hbelow x hx⟩
    · rintro ⟨hx | rfl | hx, hlt⟩
      · have := habove x hx
        omega
      · omega
      · exact hx
  · rw [h2, nodup_append]
    refine ⟨hpre.imp ?_, nodup_singleton v, ?_⟩
    · rintro a b hab rfl
      exact lt_irrefl _ hab
    · intro a ha b hb
      rw [mem_singleton] at hb
      subst hb
      rintro rfl
      exact lt_irrefl _ (habove a ha)
  · nth_rewrite 2 [h1]
    exact (sublist_cons_self _ _).trans (sublist_append_right _ _)

theorem Placed.not_mem_stack_of_reach (h : s.Placed n out) {y z : Nat} (hy : s.index y ≠ none) (hs : y ∉ s.stack)
    (hr : Reach out y z) : s.index z ≠ none ∧ z ∉ s.stack := by
  induction hr with
  | refl => exact ⟨hy, hs⟩
  | tail _ hedge ih => exact h.closed _ _ ih.1 ih.2 hedge

variable (hopen : s.opened = v :: rest) (hlow : s.low v = s.rank v)
  (hknown : ∀ u ∈ s.stack, s.rank v ≤ s.rank u → ∀ w ∈ out u, known u w)

include hopen hlow hknown

variable (h : s.Inv n out known)
include h

theorem Inv.root_edge {u w : Nat} (hu : u ∈ s.stack) (hle : s.rank v ≤ s.rank u) (hw : w ∈ out u) :
    s.index w ≠ none ∧ (w ∈ s.stack → s.rank v ≤ s.rank w) := by
  have hv : v ∈ s.opened := by simp [hopen]
  have hk := hknown u hu hle w hw
  refine ⟨h.leads u w (h.entered u hu) hk, ?_⟩
  intro hws
  obtain ⟨o, ho, h1, -, h3⟩ := h.lowLeast v hv u hu hle w hws hk
  rw [h.eq_top hopen ho h1] at h3
  omega

theorem Inv.root_reach {u y : Nat} (hu : u ∈ s.stack) (hle : s.rank v ≤ s.rank u) (hr : Reach out u y) :
    s.index y ≠ none ∧ (y ∈ s.stack → s.rank v ≤ s.rank y) := by
  induction hr with
  | refl => exact ⟨h.entered u hu, fun _ => hle⟩
  | @tail y z _ hedge ih =>
    by_cases hy : y ∈ s.stack
    · exact h.root_edge hopen hlow hknown hy (ih.2 hy) hedge
    · obtain ⟨h1, h2⟩ := h.closed y z ih.1 hy hedge
      exact ⟨h1, fun hz => absurd hz h2⟩

theorem Inv.root_component {x : Nat} (hx : x ∈ s.stack) (hle : s.rank v ≤ s.rank x) (y : Nat) :
    (y ∈ s.stack ∧ s.rank v ≤ s.rank y) ↔ Reach out x y ∧ Reach out y x := by
  have hv : v ∈ s.opened := by simp [hopen]
  have hto : ∀ z ∈ s.stack, s.rank v ≤ s.rank z → Reach out v z := fun z hz hle => h.above v hv z hz hle
  have hfrom : ∀ z ∈ s.stack, s.rank v ≤ s.rank z → Reach out z v := by
    intro z hz hle
    obtain ⟨g, hg, -, hr⟩ := h.below z hz
    have hgv := (h.root_reach hopen hlow hknown hz hle hr).2 (h.onStack g hg)
    rw [h.eq_top hopen hg hgv] at hr
    exact hr
  constructor
  · rintro ⟨hy, hley⟩
    exact ⟨(hfrom x hx hle).trans (hto y hy hley), (hfrom y hy hley).trans (hto x hx hle)⟩
  · rintro ⟨hxy, hyx⟩
    obtain ⟨h1, h2⟩ := h.root_reach hopen hlow hknown hx hle hxy
    by_cases hy : y ∈ s.stack
    · exact ⟨hy, h2 hy⟩
    · exact absurd hx (h.not_mem_stack_of_reach h1 hy hyx).2

end Leave

section Left

variable {v c : Nat} {rest : List (Nat × Nat)} (hwork : s.work = (v, c) :: rest)
  (hless : ∀ u w, known' u w → known u w)

include hwork

theorem opened_of_work : s.opened = v :: rest.map Prod.fst := by simp [opened, hwork]

theorem Placed.rank_lt_of_rest (h : s.Placed n out) {g : Nat} (hg : g ∈ rest.map Prod.fst) : s.rank g < s.rank v := by
  have hp := h.nested
  rw [opened_of_work hwork] at hp
  exact rel_of_pairwise_cons hp hg

theorem mem_rest {g : Nat} (hg : g ∈ s.opened) (hlt : s.rank g < s.rank v) : g ∈ rest.map Prod.fst := by
  rw [opened_of_work hwork] at hg
  refine (mem_cons.1 hg).resolve_left ?_
  rintro rfl
  exact lt_irrefl _ hlt

theorem mem_opened_of_rest {g : Nat} (hg : g ∈ rest.map Prod.fst) : g ∈ s.opened := by
  rw [opened_of_work hwork]
  exact mem_cons_of_mem _ hg

include hless

/-- Leaving the root of a component takes exactly that component off the stack. -/
theorem Inv.leavePop (h : s.Inv n out known) (hlow : s.low v = s.rank v)
    (hknown : ∀ u ∈ s.stack, s.rank v ≤ s.rank u → ∀ w ∈ out u, known u w) :
    ({ s with work := rest, stack := (popTo v s.stack).2,
              found := s.found ++ [(popTo v s.stack).1.insertionSort (· ≤ ·)] } : Search).Inv n out known' := by
  have hopen := opened_of_work hwork
  have hv : v ∈ s.stack := h.onStack v (by simp [hopen])
  obtain ⟨htaken, hleft, hnodup, hsub⟩ := h.mem_popTo hv
  have hin : ∀ x ∈ (popTo v s.stack).2, x ∈ s.stack := fun x hx => ((hleft x).1 hx).1
  have hrest : ∀ g ∈ rest.map Prod.fst, g ∈ s.opened := fun g hg => mem_opened_of_rest hwork hg
  have hnested := h.nested
  have hpath := h.path
  rw [hopen] at hnested hpath
  refine ⟨?_, ?_, ?_, ?_, ?_⟩
  · constructor
    case bound => exact h.bound
    case inj => exact h.inj
    case entered =>
      intro x hx
      exact h.entered x (hin x hx)
    case stacked => exact h.stacked.sublist hsub
    case nested => exact hnested.of_cons
    case onStack =>
      intro g hg
      exact (hleft g).2 ⟨h.onStack g (hrest g hg), h.rank_lt_of_rest hwork hg⟩
    case path => exact hpath.of_cons
    case closed =>
      intro u w hu hs hw
      by_cases hus : u ∈ s.stack
      · have hle : s.rank v ≤ s.rank u := by
          by_contra hlt
          exact hs ((hleft u).2 ⟨hus, by omega⟩)
        obtain ⟨h1, h2⟩ := h.root_edge hopen hlow hknown hus hle hw
        refine ⟨h1, ?_⟩
        intro hws
        obtain ⟨h3, h4⟩ := (hleft w).1 hws
        have := h2 h3
        change s.rank w < s.rank v at h4
        omega
      · obtain ⟨h1, h2⟩ := h.closed u w hu hus hw
        exact ⟨h1, fun hws => h2 (hin w hws)⟩
    case above =>
      intro g hg x hx
      exact h.above g (hrest g hg) x (hin x hx)
    case below =>
      intro x hx
      obtain ⟨g, hg, hle, hr⟩ := h.below x (hin x hx)
      have hlt := ((hleft x).1 hx).2
      exact ⟨g, mem_rest hwork hg (by omega), hle, hr⟩
    case done =>
      intro x
      simp only [mem_append, mem_singleton, or_and_right, exists_or, exists_eq_left, mem_insertionSort,
        htaken, h.done x, hleft]
      constructor
      · rintro (⟨h1, h2⟩ | ⟨h1, h2⟩)
        · exact ⟨h1, fun hx => h2 hx.1⟩
        · exact ⟨h.entered x h1, fun hx => by omega⟩
      · rintro ⟨h1, h2⟩
        by_cases hx : x ∈ s.stack
        · refine .inr ⟨hx, ?_⟩
          by_contra hlt
          exact h2 ⟨hx, by omega⟩
        · exact .inl ⟨h1, hx⟩
    case sorted =>
      intro members hm
      rcases mem_append.1 hm with hm | hm
      · exact h.sorted members hm
      · rw [mem_singleton] at hm
        subst hm
        have hle := pairwise_insertionSort (· ≤ ·) (popTo v s.stack).1
        have hne : ((popTo v s.stack).1.insertionSort (· ≤ ·)).Nodup :=
          (perm_insertionSort (· ≤ ·) _).nodup_iff.2 hnodup
        exact (hle.and hne).imp fun hab => lt_of_le_of_ne hab.1 hab.2
    case component =>
      intro members hm
      rcases mem_append.1 hm with hm | hm
      · exact h.component members hm
      · rw [mem_singleton] at hm
        subst hm
        constructor
        · intro hnil
          have hmem : v ∈ (popTo v s.stack).1.insertionSort (· ≤ ·) := by
            rw [mem_insertionSort, htaken]
            exact ⟨hv, le_rfl⟩
          rw [hnil] at hmem
          cases hmem
        · intro x hx y
          rw [mem_insertionSort, htaken] at hx ⊢
          exact h.root_component hopen hlow hknown hx.1 hx.2 y
    case apart =>
      rw [flatten_append, flatten_singleton, nodup_append]
      refine ⟨h.apart, (perm_insertionSort (· ≤ ·) _).nodup_iff.2 hnodup, ?_⟩
      rintro x hx y hy rfl
      rw [mem_insertionSort, htaken] at hy
      exact ((h.done x).1 (mem_flatten.1 hx)).2 hy.1
  · intro u w hu hk
    exact h.leads u w hu (hless u w hk)
  · intro g hg
    exact h.lowLe g (hrest g hg)
  · intro g hg
    obtain ⟨w, hw, hr, hreach⟩ := h.lowReached g (hrest g hg)
    refine ⟨w, (hleft w).2 ⟨hw, ?_⟩, hr, hreach⟩
    have h1 := h.lowLe g (hrest g hg)
    have h2 := h.rank_lt_of_rest hwork hg
    omega
  · intro g hg u hu hle w hw hk
    obtain ⟨o, ho, h1, h2, h3⟩ := h.lowLeast g (hrest g hg) u (hin u hu) hle w (hin w hw) (hless u w hk)
    have hlt := ((hleft u).1 hu).2
    exact ⟨o, mem_rest hwork ho (by omega), h1, h2, h3⟩

/-- The vertex that is left stays on the stack, and what it has seen is its parent's. -/
theorem Inv.leaveStay (h : s.Inv n out known) (hlow : s.low v < s.rank v) :
    ({ s with work := rest, low := s.lowerParent v rest } : Search).Inv n out known' := by
  have hopen := opened_of_work hwork
  have hv : v ∈ s.opened := by simp [hopen]
  have hrest : ∀ g ∈ rest.map Prod.fst, g ∈ s.opened := fun g hg => mem_opened_of_rest hwork hg
  obtain ⟨w, hw, hwlow, hvw⟩ := h.lowReached v hv
  -- the stack reaches `v` only to reach further down
  have hbelow : ∀ x ∈ s.stack, ∃ g ∈ rest.map Prod.fst, s.rank g ≤ s.rank x ∧ Reach out x g := by
    intro x hx
    obtain ⟨g, hg, hle, hr⟩ := h.below x hx
    by_cases hgv : s.rank g < s.rank v
    · exact ⟨g, mem_rest hwork hg hgv, hle, hr⟩
    · have hgv := h.eq_top hopen hg (by omega)
      subst hgv
      obtain ⟨g', hg', hle', hr'⟩ := h.below w hw
      exact ⟨g', mem_rest hwork hg' (by omega), by omega, hr.trans (hvw.trans hr')⟩
  obtain ⟨p, cp, rest', rfl⟩ : ∃ p cp rest', rest = (p, cp) :: rest' := by
    obtain ⟨g, hg, -⟩ := hbelow w hw
    cases rest with
    | nil => simp at hg
    | cons e rest' => exact ⟨e.1, e.2, rest', rfl⟩
  have hnested := h.nested
  have hpath := h.path
  rw [hopen] at hnested hpath
  have hpv : s.rank p < s.rank v := h.rank_lt_of_rest hwork (by simp)
  have hedge : v ∈ out p := (isChain_cons_cons.1 hpath).1
  have hself : s.lowerParent v ((p, cp) :: rest') p = min (s.low p) (s.low v) := by simp [lowerParent]
  have hother : ∀ g, g ≠ p → s.lowerParent v ((p, cp) :: rest') g = s.low g := by
    intro g hg
    simp [lowerParent, hg]
  have hle : ∀ g, s.lowerParent v ((p, cp) :: rest') g ≤ s.low g := by
    intro g
    by_cases hg : g = p
    · subst hg
      omega
    · exact (hother g hg).le
  refine ⟨?_, ?_, ?_, ?_, ?_⟩
  · refine ⟨h.bound, h.inj, h.entered, h.stacked, hnested.of_cons, ?_, hpath.of_cons, h.closed, ?_, hbelow, h.done,
      h.sorted, h.component, h.apart⟩
    · intro g hg
      exact h.onStack g (hrest g hg)
    · intro g hg
      exact h.above g (hrest g hg)
  · intro u x hu hk
    exact h.leads u x hu (hless u x hk)
  · intro g hg
    exact (hle g).trans (h.lowLe g (hrest g hg))
  · intro g hg
    show ∃ x ∈ s.stack, s.rank x = s.lowerParent v ((p, cp) :: rest') g ∧ Reach out g x
    by_cases hgp : g = p
    · subst hgp
      rcases le_total (s.low g) (s.low v) with hmin | hmin
      · rw [hself, Nat.min_eq_left hmin]
        exact h.lowReached g (hrest g hg)
      · rw [hself, Nat.min_eq_right hmin]
        exact ⟨w, hw, hwlow, hvw.head hedge⟩
    · rw [hother g hgp]
      exact h.lowReached g (hrest g hg)
  · intro g hg u hu hgu x hx hk
    show ∃ o ∈ ((p, cp) :: rest').map Prod.fst, s.rank g ≤ s.rank o ∧ s.rank o ≤ s.rank u ∧
      s.lowerParent v ((p, cp) :: rest') o ≤ s.rank x
    obtain ⟨o, ho, h1, h2, h3⟩ := h.lowLeast g (hrest g hg) u hu hgu x hx (hless u x hk)
    by_cases hov : s.rank o < s.rank v
    · exact ⟨o, mem_rest hwork ho hov, h1, h2, (hle o).trans h3⟩
    · -- what counted for `v` counts for its parent
      have hov := h.eq_top hopen ho (by omega)
      subst hov
      have hgp : s.rank g ≤ s.rank p := by
        rcases mem_cons.1 hg with rfl | hg'
        · exact le_rfl
        · exact (rel_of_pairwise_cons hnested.of_cons hg').le
      refine ⟨p, by simp, hgp, by omega, ?_⟩
      omega

end Left

end Search

end Tarjan
