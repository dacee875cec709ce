/-
A settled order settled again. With its edges carried to the positions of the order, a schedule gives the order back exactly
if no guess that was given up comes back to hold a component of annotations apart.
-/
import Pbps.Order.Refused

namespace Pbps.Order

open Relation (ReflTransGen TransGen)
open List
open Std.ExtTreeSet (mem_toList)

variable {n : Nat} {tie : Tie}

/-! ## Components apart -/

/-- The component of an edge's first step stands before that of its second. -/
def Apart (E : Set Constraint) (c : Constraint) : Prop := ∀ x y, Same E c.before x → Same E c.after y → x < y

section Apart

variable {R : List Constraint}

variable {c : Constraint}

variable (hR : InRange n (listed R)) (hbad : ¬ Bad (listed R))
include hR hbad

theorem redirect_before_ge (hc : c.before < n) {x : Nat} (hx : Same (listed R) c.before x) :
    x ≤ (redirect (declaredOnly n R) c).before := by
  unfold redirect
  cases hends : ends (declaredOnly n R) c.before with
  | some span =>
    obtain ⟨members, hm, hbm, rfl⟩ := ends_eq_some hends
    obtain ⟨hcomp, -⟩ := mem_declaredOnly hR hm
    exact le_getLast hcomp.ascending ((hcomp.mem_iff _ hbm _).2 hx)
  | none =>
    -- a step in no chained component is alone in its own
    by_contra hlt
    have hne : c.before ≠ x := by
      rintro rfl
      exact hlt le_rfl
    obtain ⟨members, hm, hbm⟩ := exists_mem_declaredOnly hR hc hne hx (annotated_of_not_bad hbad _)
    rw [ends, List.findSome?_eq_none_iff] at hends
    have := hends members hm
    rw [if_pos (contains_iff_mem.2 hbm)] at this
    cases this

theorem redirect_after_le (hc : c.after < n) {y : Nat} (hy : Same (listed R) c.after y) :
    (redirect (declaredOnly n R) c).after ≤ y := by
  unfold redirect
  cases hends : ends (declaredOnly n R) c.after with
  | some span =>
    obtain ⟨members, hm, ham, rfl⟩ := ends_eq_some hends
    obtain ⟨hcomp, -⟩ := mem_declaredOnly hR hm
    exact head_le hcomp.ascending ((hcomp.mem_iff _ ham _).2 hy)
  | none =>
    by_contra hlt
    have hne : c.after ≠ y := by
      rintro rfl
      exact hlt le_rfl
    obtain ⟨members, hm, ham⟩ := exists_mem_declaredOnly hR hc hne hy (annotated_of_not_bad hbad _)
    rw [ends, List.findSome?_eq_none_iff] at hends
    have := hends members hm
    rw [if_pos (contains_iff_mem.2 ham)] at this
    cases this

theorem redirect_lt_iff (hc : c ∈ R) :
    (redirect (declaredOnly n R) c).before < (redirect (declaredOnly n R) c).after ↔ Apart (listed R) c := by
  obtain ⟨hb, ha, -⟩ := hR c hc
  constructor
  · intro hlt x y hx hy
    have h1 := redirect_before_ge hR hbad hb hx
    have h2 := redirect_after_le hR hbad ha hy
    omega
  · intro hapart
    exact hapart _ _ (same_redirect_before hR c) (same_redirect_after hR c)

end Apart

section Chained

variable {C : List Constraint} {r : Round}

variable (hv : r.Valid n tie C) (hC : InRange n (listed C))
include hv hC

theorem chained_eq_range_iff (hbad : ¬ Bad (listed r.kept)) : (r.chained n tie).emitted = List.range n ↔
      ∀ c ∈ r.kept, ¬ Same (listed r.kept) c.before c.after → Apart (listed r.kept) c := by
  have hR := hv.inRange hC
  have horder := kahn_isOrder hR tie
  rw [← hv.emitted] at horder
  have hall : ¬ (r.chained n tie).emitted.length < n := fun hlt => hbad ((chained_length_lt_iff hv hC).1 hlt)
  unfold Round.chained at hall ⊢
  dsimp only at hall ⊢
  split
  · rw [kahn_eq_range (ordering_inRange hR)]
    constructor
    · intro hforward c hc hnot
      rw [← redirect_lt_iff hR hbad hc]
      exact hforward _ (mem_ordering.2 (.inl ⟨c, (mem_setAside hR).2 ⟨hc, fun h => hnot h.1⟩, rfl⟩))
    · intro hapart c hc
      rcases mem_ordering.1 hc with ⟨c', hc', rfl⟩ | ⟨members, hm, hc⟩
      · obtain ⟨hcR, hnot⟩ := (mem_setAside hR).1 hc'
        rw [redirect_lt_iff hR hbad hcR]
        exact hapart c' hcR fun hsame => hnot ⟨hsame, annotated_of_not_bad hbad _⟩
      · obtain ⟨hcomp, -⟩ := mem_declaredOnly hR hm
        exact (mem_chain hcomp.ascending hc).2.2
  · rename_i hno
    rw [if_neg hno] at hall
    -- without a cycle every step is alone in its component
    have halone : ∀ x y, Same (listed r.kept) x y → x = y := by
      intro x y hsame
      by_contra hne
      exact hall ((horder.length_lt_iff hR).2 ⟨x, hsame.cycle hne⟩)
    rw [hv.emitted, kahn_eq_range hR]
    constructor
    · intro hforward c hc _ x y hx hy
      rw [← halone _ _ hx, ← halone _ _ hy]
      exact hforward c hc
    · intro hapart c hc
      refine hapart c hc ?_ _ _ (Component.Same.refl _ _) (Component.Same.refl _ _)
      exact fun hsame => (hR c hc).2.2 (halone _ _ hsame)

theorem chained_apart (hall : ¬ (r.chained n tie).emitted.length < n) {c : Constraint} (hc : c ∈ (r.chained n tie).kept)
    {x y : Nat} (hx : Same (listed r.kept) c.before x) (hy : Same (listed r.kept) c.after y) :
    Before (r.chained n tie).emitted x y := by
  have hR := hv.inRange hC
  have hbad : ¬ Bad (listed r.kept) := fun hb => hall ((chained_length_lt_iff hv hC).2 hb)
  obtain ⟨hup, hforward⟩ := chained_forward hv hC hall
  obtain ⟨hcR, hnot⟩ := (mem_chained_kept hv hC).1 hc
  obtain ⟨hb, ha, -⟩ := hR c hcR
  have hle := redirect_before_ge hR hbad hb hx
  have hge := redirect_after_le hR hbad ha hy
  have hxb := hx.symm.trans (same_redirect_before hR c)
  have hay := (same_redirect_after hR c).symm.trans hy
  have hlt : ∀ u v, u < n → Same (listed r.kept) u v → v < n := by
    intro u v hu hsame
    obtain ⟨members, hm, hum⟩ := exists_mem_components hR hu
    have hcomp := isComponent_of_mem hR hm
    exact hcomp.lt v ((hcomp.mem_iff u hum v).2 hsame)
  have hmid : Before (r.chained n tie).emitted (redirect (declaredOnly n r.kept) c).before
      (redirect (declaredOnly n r.kept) c).after := by
    have horder := kahn_isOrder hR tie
    rw [← hv.emitted] at horder
    unfold Round.chained at hall hforward ⊢
    dsimp only at hall hforward ⊢
    split at hall
    · rename_i hchained
      rw [if_pos hchained]
      have ho := kahn_isOrder (ordering_inRange hR) tie
      have hmem := mem_ordering.2 (.inl ⟨c, (mem_setAside hR).2 ⟨hcR, hnot⟩, rfl⟩)
      obtain ⟨hrb, hra, -⟩ := ordering_inRange hR _ hmem
      exact ho.forward _ _ (edge_of_mem hmem) (ho.mem_of_length hall hrb) (ho.mem_of_length hall hra)
    · rename_i hchained
      rw [if_neg hchained] at hforward ⊢
      have halone : ∀ u v, Same (listed r.kept) u v → u = v := by
        intro u v hsame
        by_contra hne
        exact hall ((horder.length_lt_iff hR).2 ⟨u, hsame.cycle hne⟩)
      rw [← halone _ _ (same_redirect_before hR c), ← halone _ _ (same_redirect_after hR c)]
      exact hforward c hcR
  have hstart : Before (r.chained n tie).emitted x (redirect (declaredOnly n r.kept) c).after := by
    rcases hle.lt_or_eq with hless | heq
    · exact (hup _ _ (hlt _ _ hb hx) hless hxb).trans hmid
    · rw [heq]
      exact hmid
  rcases hge.lt_or_eq with hless | heq
  · exact hstart.trans (hup _ _ (hlt _ _ ha (same_redirect_after hR c)) hless hay)
  · rw [← heq]
    exact hstart

end Chained

/-! ## Guesses that come back -/

section Guesses

variable {C : List Constraint}

/-- The edges without the guesses inside a component that run backward. -/
def withoutBackward (E : Set Constraint) : Set Constraint :=
  {c | c ∈ E ∧ ¬ (c.source = .guess ∧ Same E c.before c.after ∧ ¬ c.before < c.after)}

theorem listed_dropBackward {l : List Constraint} (h : InRange n (listed l)) :
    listed (dropGuesses n l true).1 = withoutBackward (listed l) := by
  ext c
  show c ∈ (dropGuesses n l true).1 ↔ _
  rw [mem_dropGuesses h]
  simp only [true_and]
  rfl

/-- A guess inside a component survives the rounds exactly if it runs forward, and is in no component once
those that run backward are dropped. -/
theorem mem_rounds_of_guess (hC : InRange n (listed C)) {c : Constraint} (hc : c ∈ C) (hguess : c.source = .guess)
    (hsame : Same (listed C) c.before c.after) : c ∈ (rounds n tie C).kept ↔
      c.before < c.after ∧ ¬ Same (withoutBackward (listed C)) c.before c.after := by
  have hwait : (kahn n C tie).length < n := ((kahn_isOrder hC tie).length_lt_iff hC).2 (same_ne_of_mem hC hc hsame)
  have hstart : Round.Valid n tie C ⟨C, kahn n C tie, []⟩ := ⟨List.Sublist.refl C, rfl, fun c hc hnot => absurd hc hnot, by simp⟩
  have hfirst := hstart.giveUp hC true
  have hkept : (Round.giveUp n tie true ⟨C, kahn n C tie, []⟩).kept = (dropGuesses n C true).1 := by
    unfold Round.giveUp
    rw [if_pos hwait]
  have hback : listed (Round.giveUp n tie true ⟨C, kahn n C tie, []⟩).kept = withoutBackward (listed C) := by
    rw [hkept]
    exact listed_dropBackward hC
  have hmem : c ∈ (Round.giveUp n tie true ⟨C, kahn n C tie, []⟩).kept ↔ c.before < c.after := by
    rw [hkept, mem_dropGuesses hC]
    simp [hc, hguess, hsame]
  rw [← hback, ← hmem]
  unfold rounds
  generalize Round.giveUp n tie true ⟨C, kahn n C tie, []⟩ = r at hfirst
  have hR := hfirst.inRange hC
  have horder := kahn_isOrder hR tie
  rw [← hfirst.emitted] at horder
  unfold Round.giveUp
  split
  · rw [mem_dropGuesses hR]
    simp [hguess]
  · rename_i hdone
    constructor
    · intro hck
      exact ⟨hck, fun hs => hdone ((horder.length_lt_iff hR).2 (same_ne_of_mem hR hck hs))⟩
    · exact fun h => h.1

end Guesses

/-! ## Edges carried to the positions of an order -/

section Carried

def Constraint.carried (sequence : List Nat) (c : Constraint) : Constraint :=
  { c with before := sequence.idxOf c.before, after := sequence.idxOf c.after }

def carried (sequence : List Nat) (E : Set Constraint) : Set Constraint := {c | ∃ c' ∈ E, c'.carried sequence = c}

variable {E : Set Constraint} {sequence : List Nat} (hE : InRange n E) (hperm : sequence.Perm (List.range n))

include hperm

variable {v x w y : Nat}

theorem mem_sequence : v ∈ sequence ↔ v < n := by rw [hperm.mem_iff, mem_range]

theorem idxOf_lt (hv : v < n) : sequence.idxOf v < n := by
  have h := idxOf_lt_length_of_mem ((mem_sequence hperm).2 hv)
  rwa [hperm.length_eq, length_range] at h

theorem idxOf_eq_iff {u : Nat} (hu : u < n) : sequence.idxOf u = sequence.idxOf v ↔ u = v :=
  idxOf_inj ((mem_sequence hperm).2 hu)

include hE

theorem carried_inRange : InRange n (carried sequence E) := by
  rintro c ⟨c', hc', rfl⟩
  obtain ⟨hb, ha, hne⟩ := hE c' hc'
  refine ⟨idxOf_lt hperm hb, idxOf_lt hperm ha, ?_⟩
  exact fun heq => hne ((idxOf_eq_iff hperm hb).1 heq)

theorem leads_carried (hx : x < n) (h : ReflTransGen (Edge (carried sequence E)) (sequence.idxOf x) w) :
    ∃ y < n, w = sequence.idxOf y ∧ ReflTransGen (Edge E) x y := by
  induction h with
  | refl => exact ⟨x, hx, rfl, .refl⟩
  | tail _ hstep ih =>
    obtain ⟨y, hy, rfl, hxy⟩ := ih
    obtain ⟨c, ⟨c', hc', rfl⟩, hb, rfl⟩ := hstep
    obtain ⟨hcb, hca, -⟩ := hE c' hc'
    have hyb := (idxOf_eq_iff hperm hcb).1 hb
    refine ⟨c'.after, hca, rfl, hxy.tail ?_⟩
    rw [← hyb]
    exact edge_of_mem hc'

omit hE hperm in
theorem carried_leads (h : ReflTransGen (Edge E) x y) :
    ReflTransGen (Edge (carried sequence E)) (sequence.idxOf x) (sequence.idxOf y) := by
  refine h.lift (fun v => sequence.idxOf v) ?_
  rintro u v ⟨c, hc, rfl, rfl⟩
  exact ⟨c.carried sequence, ⟨c, hc, rfl⟩, rfl, rfl⟩

theorem same_carried (hx : x < n) (hy : y < n) :
    Same (carried sequence E) (sequence.idxOf x) (sequence.idxOf y) ↔ Same E x y := by
  constructor
  · rintro ⟨h1, h2⟩
    obtain ⟨y', hy', heq, hxy⟩ := leads_carried hE hperm hx h1
    obtain ⟨x', hx', heq', hyx⟩ := leads_carried hE hperm hy h2
    rw [idxOf_eq_iff hperm hy] at heq
    rw [idxOf_eq_iff hperm hx] at heq'
    subst heq heq'
    exact ⟨hxy, hyx⟩
  · rintro ⟨h1, h2⟩
    exact ⟨carried_leads h1, carried_leads h2⟩

theorem exists_of_same_carried (hx : x < n) (h : Same (carried sequence E) (sequence.idxOf x) w) :
    ∃ y < n, w = sequence.idxOf y ∧ Same E x y := by
  obtain ⟨y, hy, rfl, -⟩ := leads_carried hE hperm hx h.1
  exact ⟨y, hy, rfl, (same_carried hE hperm hx hy).1 h⟩

theorem withoutGuesses_carried : withoutGuesses (carried sequence E) = carried sequence (withoutGuesses E) := by
  ext c
  constructor
  · rintro ⟨⟨c', hc', rfl⟩, hnot⟩
    obtain ⟨hb, ha, -⟩ := hE c' hc'
    exact ⟨c', ⟨hc', fun h => hnot ⟨h.1, (same_carried hE hperm hb ha).2 h.2⟩⟩, rfl⟩
  · rintro ⟨c', ⟨hc', hnot⟩, rfl⟩
    obtain ⟨hb, ha, -⟩ := hE c' hc'
    exact ⟨⟨c', hc', rfl⟩, fun h => hnot ⟨h.1, (same_carried hE hperm hb ha).1 h.2⟩⟩

end Carried

/-- The annotations among the edges. -/
def annotations (E : Set Constraint) : Set Constraint := {c | c ∈ E ∧ c.source = .declared}

/-- Where every component is of annotations alone, they lead to and fro in it. -/
theorem same_annotations {E : Set Constraint} {u x : Nat} (hbad : ¬ Bad E) (h : Same E u x) : Same (annotations E) u x := by
  have hleads : ∀ {u x}, ReflTransGen (Edge E) u x → ReflTransGen (Edge E) x u → ReflTransGen (Edge (annotations E)) u x := by
    intro u x hto hback
    induction hto with
    | refl => exact .refl
    | tail hto hstep ih =>
      obtain ⟨c, hc, rfl, rfl⟩ := hstep
      have hcycle : Same E c.before c.after := ⟨.single (edge_of_mem hc), hback.trans hto⟩
      have hdeclared : c.source = .declared := by
        by_contra hsource
        exact hbad ⟨c, hc, hcycle, hsource⟩
      exact (ih (hcycle.1.trans hback)).tail (edge_of_mem (show c ∈ annotations E from ⟨hc, hdeclared⟩))
  exact ⟨hleads h.1 h.2, hleads h.2 h.1⟩

/-! ## Settling again -/

namespace Schedule

variable {s : Schedule} {sequence : List Nat}

/-- A schedule with its edges and kept orders carried to the positions of an order. -/
def relabel (s : Schedule) (sequence : List Nat) : Schedule :=
  { s with
    constraints := .ofList (s.constraints.toList.map (Constraint.carried sequence))
    keeps := s.keeps.map fun k => { k with before := sequence.idxOf k.before, after := sequence.idxOf k.after }
    symbolicConstraints := .ofList (s.symbolicConstraints.toList.map (Constraint.carried sequence))
    creationContexts := .ofList (s.creationContexts.toList.map fun e => (sequence.idxOf e.1, e.2)) }

theorem edges_relabel (s : Schedule) (sequence : List Nat) : (s.relabel sequence).edges = carried sequence s.edges := by
  ext c
  show c ∈ (s.relabel sequence).constraints ↔ _
  simp only [relabel, Std.ExtTreeSet.mem_ofList, contains_iff_mem, mem_map, mem_toList]
  rfl

/-- No guess that survives in the schedule joins two components that do not stand apart. -/
def GuessesApart (t : Schedule) : Prop :=
  ∀ c ∈ t.edges, c.source = .guess → c.before < c.after → ¬ Same (withoutBackward t.edges) c.before c.after →
    Apart (withoutGuesses t.edges) c

theorem sequence_eq_ok : s.sequence = .ok sequence ↔
    InRange s.steps s.edges ∧ (∀ k ∈ s.keeps, k.before < s.steps ∧ k.after < s.steps) ∧ s.obligations = [] ∧
      firstReversed s.settledRound.emitted s.keeps = none ∧ ¬ s.settledRound.emitted.length < s.steps ∧
        sequence = s.settledRound.emitted := by
  constructor
  · intro h
    unfold Schedule.sequence at h
    cases htrace : s.settledTrace with
    | mk dropped result =>
      rw [htrace] at h
      cases result with
      | error e => cases h
      | ok pair =>
        obtain ⟨order, kept⟩ := pair
        cases h
        obtain ⟨h1, h2, h3, h4, h5, -, h7, -⟩ := settledTrace_eq_ok.1 htrace
        exact ⟨h1, h2, h3, h4, h5, h7⟩
  · rintro ⟨h1, h2, h3, h4, h5, rfl⟩
    unfold Schedule.sequence
    rw [settledTrace_eq_ok.2 ⟨h1, h2, h3, h4, h5, rfl, rfl, rfl⟩]
    rfl

theorem settledRound_range_iff (hrange : InRange s.steps s.edges) (hbad : ¬ Bad (withoutGuesses s.edges)) :
    s.settledRound.emitted = List.range s.steps ↔ ∀ c ∈ (rounds s.steps s.tie s.constraints.toList).kept,
        ¬ Same (withoutGuesses s.edges) c.before c.after → Apart (withoutGuesses s.edges) c := by
  have hC : InRange s.steps (listed s.constraints.toList) := by
    rw [listed_constraints]
    exact hrange
  have hbad' : ¬ Bad (listed (rounds s.steps s.tie s.constraints.toList).kept) := by
    rw [bad_rounds_iff s.tie hC, listed_constraints]
    exact hbad
  rw [show s.settledRound = (rounds s.steps s.tie s.constraints.toList).chained s.steps s.tie from rfl,
    chained_eq_range_iff (settledRound_valid hrange) hC hbad']
  simp only [Apart, same_rounds_iff hC, listed_constraints]

section Again

variable (hrange : InRange s.steps s.edges) (hall : ¬ s.settledRound.emitted.length < s.steps)

include hrange hall

theorem settledRound_perm : s.settledRound.emitted.Perm (List.range s.steps) := by
  obtain ⟨E, ho⟩ := settledRound_isOrder hrange
  exact ho.perm_range hall

theorem carried_apart {c : Constraint} (hc : c ∈ withoutGuesses (carried s.settledRound.emitted s.edges))
    (hnot : ¬ Same (withoutGuesses (carried s.settledRound.emitted s.edges)) c.before c.after) :
    Apart (withoutGuesses (carried s.settledRound.emitted s.edges)) c := by
  have hperm := settledRound_perm hrange hall
  have hC : InRange s.steps (listed s.constraints.toList) := by
    rw [listed_constraints]
    exact hrange
  have hW : InRange s.steps (withoutGuesses s.edges) := hrange.mono fun c hc => hc.1
  have hv := settledRound_valid hrange
  rw [withoutGuesses_carried hrange hperm] at hc hnot ⊢
  obtain ⟨c', hc', rfl⟩ := hc
  obtain ⟨hb, ha, -⟩ := hW c' hc'
  have hnot' : ¬ Same (withoutGuesses s.edges) c'.before c'.after := fun h => hnot ((same_carried hW hperm hb ha).2 h)
  have hsame : ∀ x y, Same (listed (rounds s.steps s.tie s.constraints.toList).kept) x y ↔
      Same (withoutGuesses s.edges) x y := by
    intro x y
    rw [same_rounds_iff hC, listed_constraints]
  have hkept : c' ∈ (rounds s.steps s.tie s.constraints.toList).kept := by
    refine withoutGuesses_subset s.tie hC ?_
    rw [listed_constraints]
    exact hc'
  have hlast : c' ∈ s.settledRound.kept := by
    refine (mem_chained_kept hv hC).2 ⟨hkept, ?_⟩
    rintro ⟨h, -⟩
    exact hnot' ((hsame _ _).1 h)
  intro x' y' hx' hy'
  obtain ⟨x, -, rfl, hx⟩ := exists_of_same_carried hW hperm hb hx'
  obtain ⟨y, -, rfl, hy⟩ := exists_of_same_carried hW hperm ha hy'
  exact (chained_apart hv hC hall hlast ((hsame _ _).2 hx) ((hsame _ _).2 hy)).2.2

theorem not_bad_carried : ¬ Bad (withoutGuesses (carried s.settledRound.emitted s.edges)) := by
  have hperm := settledRound_perm hrange hall
  have hW : InRange s.steps (withoutGuesses s.edges) := hrange.mono fun c hc => hc.1
  rw [withoutGuesses_carried hrange hperm]
  rintro ⟨c, ⟨c', hc', rfl⟩, hsame, hsource⟩
  obtain ⟨hb, ha, -⟩ := hW c' hc'
  exact hall ((bad_settledRound_iff hrange).2 ⟨c', hc', (same_carried hW hperm hb ha).1 hsame, hsource⟩)

/-- Settled again, the order comes back exactly if no guess that survives joins components that do not
stand apart. -/
theorem settledRound_again_iff : (s.relabel s.settledRound.emitted).settledRound.emitted = List.range s.steps ↔
      (s.relabel s.settledRound.emitted).GuessesApart := by
  have hperm := settledRound_perm hrange hall
  have hedges := edges_relabel s s.settledRound.emitted
  have hrange' : InRange s.steps (s.relabel s.settledRound.emitted).edges := by
    rw [hedges]
    exact carried_inRange hrange hperm
  have hC : InRange s.steps (listed (s.relabel s.settledRound.emitted).constraints.toList) := by
    rw [listed_constraints]
    exact hrange'
  have hbad := not_bad_carried hrange hall
  have hapart := fun c => carried_apart hrange hall (c := c)
  rw [← hedges] at hbad hapart
  have hiff := settledRound_range_iff (s := s.relabel s.settledRound.emitted) hrange' hbad
  refine hiff.trans ?_
  have hsub : ∀ c ∈ withoutGuesses (s.relabel s.settledRound.emitted).edges,
      c ∈ (rounds s.steps s.tie (s.relabel s.settledRound.emitted).constraints.toList).kept := by
    intro c hc
    refine withoutGuesses_subset s.tie hC ?_
    rw [listed_constraints]
    exact hc
  -- a guess of a component that survives is in none
  have hsurvives : ∀ c ∈ (rounds s.steps s.tie (s.relabel s.settledRound.emitted).constraints.toList).kept,
      Same (withoutGuesses (s.relabel s.settledRound.emitted).edges) c.before c.after →
        c ∈ withoutGuesses (s.relabel s.settledRound.emitted).edges := by
    intro c hc hsame
    rw [← listed_constraints] at hsame ⊢
    exact mem_withoutGuesses_of_inside hC hc ((same_rounds_iff hC).2 hsame)
  have hguess : ∀ c ∈ (s.relabel s.settledRound.emitted).edges, c.source = .guess →
      Same (s.relabel s.settledRound.emitted).edges c.before c.after →
        (c ∈ (rounds s.steps s.tie (s.relabel s.settledRound.emitted).constraints.toList).kept ↔
          c.before < c.after ∧ ¬ Same (withoutBackward (s.relabel s.settledRound.emitted).edges) c.before c.after) := by
    intro c hc hg hsame
    rw [← listed_constraints] at hsame ⊢
    exact mem_rounds_of_guess hC (mem_toList.2 hc) hg hsame
  constructor
  · intro hall' c hc hg hlt hnot
    by_cases hsame : Same (s.relabel s.settledRound.emitted).edges c.before c.after
    · have hkept := (hguess c hc hg hsame).2 ⟨hlt, hnot⟩
      refine hall' c hkept fun hin => ?_
      exact (hsurvives c hkept hin).2 ⟨hg, hsame⟩
    · have hW : c ∈ withoutGuesses (s.relabel s.settledRound.emitted).edges := ⟨hc, fun h => hsame h.2⟩
      refine hall' c (hsub c hW) fun hin => ?_
      exact hsame (hin.mono fun c hc => hc.1)
  · intro hcond c hkept hnot
    have hc : c ∈ (s.relabel s.settledRound.emitted).edges :=
      mem_toList.1 ((rounds_valid s.tie hC).sub.subset hkept)
    by_cases hW : c ∈ withoutGuesses (s.relabel s.settledRound.emitted).edges
    · exact hapart c hW hnot
    · have hin : c.source = .guess ∧ Same (s.relabel s.settledRound.emitted).edges c.before c.after := by
        by_contra hno
        exact hW ⟨hc, hno⟩
      obtain ⟨hlt, hback⟩ := (hguess c hc hin.1 hin.2).1 hkept
      exact hcond c hc hin.1 hlt hback

/-- A guess between steps that are in no cycle of annotations stands between components of one step. -/
theorem guessesApart_of_alone (halone : ∀ c ∈ s.edges, c.source = .guess → ∀ x,
    (Same (annotations s.edges) c.before x → x = c.before) ∧ (Same (annotations s.edges) c.after x → x = c.after)) :
    (s.relabel s.settledRound.emitted).GuessesApart := by
  have hperm := settledRound_perm hrange hall
  have hW : InRange s.steps (withoutGuesses s.edges) := hrange.mono fun c hc => hc.1
  have hsame : ∀ {u x}, Same (withoutGuesses s.edges) u x → Same (annotations s.edges) u x := fun h =>
    (same_annotations (fun hbad => hall ((bad_settledRound_iff hrange).2 hbad)) h).mono fun c hc => ⟨hc.1.1, hc.2⟩
  intro c hc hguess hlt _ x y hx hy
  rw [edges_relabel] at hc hx hy
  rw [withoutGuesses_carried hrange hperm] at hx hy
  obtain ⟨c', hc', rfl⟩ := hc
  obtain ⟨hb, ha, -⟩ := hrange c' hc'
  obtain ⟨x', -, rfl, hfirst⟩ := exists_of_same_carried hW hperm hb hx
  obtain ⟨y', -, rfl, hsecond⟩ := exists_of_same_carried hW hperm ha hy
  obtain rfl := (halone c' hc' hguess x').1 (hsame hfirst)
  obtain rfl := (halone c' hc' hguess y').2 (hsame hsecond)
  exact hlt

end Again

/-- An order returned, settled again over its own positions, comes back exactly if no guess that survives
there joins two components that do not stand apart, as where no guess touches a cycle of annotations; and a
schedule whose edges all run forward returns the order given. -/
theorem sequence_again (h : s.sequence = .ok sequence) :
    ((s.relabel sequence).sequence = .ok (List.range s.steps) ↔ (s.relabel sequence).GuessesApart) ∧
      ((∀ c ∈ s.edges, c.source = .guess → ∀ x,
          (Same (annotations s.edges) c.before x → x = c.before) ∧ (Same (annotations s.edges) c.after x → x = c.after)) →
        (s.relabel sequence).sequence = .ok (List.range s.steps)) ∧
      ((∀ c ∈ s.constraints, c.before < c.after) → sequence = List.range s.steps) := by
  obtain ⟨hrange, hkeeps, hobligations, hreversed, hall, rfl⟩ := sequence_eq_ok.1 h
  have hperm := settledRound_perm hrange hall
  have hiff : (s.relabel s.settledRound.emitted).sequence = .ok (List.range s.steps) ↔
      (s.relabel s.settledRound.emitted).GuessesApart := by
    rw [← settledRound_again_iff hrange hall, sequence_eq_ok]
    constructor
    · rintro ⟨-, -, -, -, -, heq⟩
      exact heq.symm
    · intro heq
      have hsteps : (s.relabel s.settledRound.emitted).steps = s.steps := rfl
      refine ⟨?_, ?_, hobligations, ?_, ?_, heq.symm⟩
      · rw [edges_relabel]
        exact carried_inRange hrange hperm
      · intro k hk
        obtain ⟨k', hk', rfl⟩ := mem_map.1 hk
        exact ⟨idxOf_lt hperm (hkeeps k' hk').1, idxOf_lt hperm (hkeeps k' hk').2⟩
      · rw [heq, firstReversed_eq_none]
        intro k hk
        obtain ⟨k', hk', rfl⟩ := mem_map.1 hk
        obtain ⟨hb, ha⟩ := hkeeps k' hk'
        have hnot := firstReversed_eq_none.1 hreversed k' hk'
        rw [← Bool.not_eq_true, reverses_iff ((mem_sequence hperm).2 hb) ((mem_sequence hperm).2 ha)] at hnot
        have hb' := idxOf_lt hperm hb
        have ha' := idxOf_lt hperm ha
        rw [← Bool.not_eq_true, reverses_iff (mem_range.2 hb') (mem_range.2 ha'), idxOf_range hb', idxOf_range ha']
        exact hnot
      · rw [heq, length_range, hsteps]
        exact lt_irrefl _
  refine ⟨hiff, fun halone => hiff.2 (guessesApart_of_alone hrange hall halone), fun hforward => ?_⟩
  have hC : InRange s.steps (listed s.constraints.toList) := by
    rw [listed_constraints]
    exact hrange
  have heq : kahn s.steps s.constraints.toList s.tie = List.range s.steps :=
    (kahn_eq_range hC s.tie).2 fun c hc => hforward c (mem_toList.1 hc)
  simp [settledRound, rounds, Round.giveUp, Round.chained, heq]

/-- A component of two annotations, and two guesses that close a cycle with it. -/
def guessedPair : Schedule where
  steps := 5
  constraints := .ofList ([⟨0, 4, .declared, .structural⟩, ⟨4, 0, .declared, .structural⟩, ⟨0, 1, .guess, .structural⟩,
    ⟨1, 2, .guess, .structural⟩, ⟨2, 0, .effect, .structural⟩, ⟨2, 3, .effect, .structural⟩, ⟨3, 1, .effect, .structural⟩] :
    List Constraint)

/-- Both guesses are given up at first. Settled again, only the one that runs backward is given up before the
other is in no cycle, and the other moves the step it holds past the whole component. -/
theorem guessedPair_moves_again : guessedPair.sequence = .ok [2, 0, 3, 1, 4] ∧
    (guessedPair.relabel [2, 0, 3, 1, 4]).sequence = .ok [0, 1, 2, 4, 3] := by decide

def guessBeforePair : Schedule where
  steps := 3
  constraints := .ofList ([⟨0, 2, .guess, .structural⟩, ⟨1, 2, .declared, .structural⟩, ⟨2, 1, .declared, .structural⟩] :
    List Constraint)

theorem guessBeforePair_again : guessBeforePair.sequence = .ok [0, 1, 2] ∧ (guessBeforePair.relabel [0, 1, 2]).GuessesApart := by
  have h : guessBeforePair.sequence = .ok [0, 1, 2] := by decide
  exact ⟨h, (sequence_again h).1.1 (by decide)⟩

end Schedule

end Pbps.Order
