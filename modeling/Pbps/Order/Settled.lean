/-
What settling a schedule means: an order it returns runs every edge it keeps forward, keeps the order given
inside the components it sets aside, and is all the proof of the plan asks.
-/
import Pbps.Order.Contract

namespace Pbps.Order

open Relation (ReflTransGen TransGen)
open List
open Std.ExtTreeSet (mem_toList)

variable {n : Nat} {tie : Tie}

/-! ## The last round -/

section Chained

variable {C : List Constraint} {r : Round}

theorem same_ne_of_mem (h : InRange n (listed C)) {c : Constraint} (hc : c ∈ C) (hsame : Same (listed C) c.before c.after) :
    ∃ v, TransGen (Edge (listed C)) v v :=
  ⟨c.before, hsame.cycle (h c hc).2.2⟩

theorem exists_inside_of_cycle {E : Set Constraint} {v : Nat} (h : TransGen (Edge E) v v) :
    ∃ c ∈ E, Same E c.before c.after := by
  obtain ⟨w, hvw, hwv⟩ := Relation.TransGen.head'_iff.1 h
  obtain ⟨c, hc, rfl, rfl⟩ := hvw
  exact ⟨c, hc, .single (edge_of_mem hc), hwv⟩

/-- Steps are left over once components are chained exactly if a component has an edge that is no
annotation. -/
theorem chained_length_lt_iff (hv : r.Valid n tie C) (hC : InRange n (listed C)) :
    (r.chained n tie).emitted.length < n ↔ Bad (listed r.kept) := by
  have hR := hv.inRange hC
  have horder := kahn_isOrder hR tie
  rw [← hv.emitted] at horder
  have hcycle := horder.length_lt_iff hR
  unfold Round.chained
  dsimp only
  split
  · have ho := kahn_isOrder (ordering_inRange hR) tie
    rw [ho.length_lt_iff (ordering_inRange hR), ordering_cycle_iff hR]
  · rename_i hno
    constructor
    · intro hlen
      -- there is a cycle, and no component of annotations to chain
      have hpairs : annotatedPairs (declaredOnly n r.kept) r.kept = [] := by
        by_contra hne
        exact hno ⟨hlen, hne⟩
      by_contra hbad
      obtain ⟨v, hv⟩ := hcycle.1 hlen
      obtain ⟨c, hc, hsame⟩ := exists_inside_of_cycle hv
      have hmem := (mem_annotatedPairs hR hc).2 ⟨hsame, annotated_of_not_bad hbad _⟩
      rw [hpairs] at hmem
      cases hmem
    · rintro ⟨c, hc, hsame, -⟩
      exact hcycle.2 (same_ne_of_mem hR hc hsame)

theorem mem_chained_kept (hv : r.Valid n tie C) (hC : InRange n (listed C)) {c : Constraint} : c ∈ (r.chained n tie).kept ↔
      c ∈ r.kept ∧ ¬ (Same (listed r.kept) c.before c.after ∧ Annotated (listed r.kept) c.before) := by
  have hR := hv.inRange hC
  have horder := kahn_isOrder hR tie
  rw [← hv.emitted] at horder
  unfold Round.chained
  dsimp only
  split
  · exact mem_setAside hR
  · rename_i hno
    constructor
    · intro hc
      refine ⟨hc, ?_⟩
      rintro ⟨hsame, hann⟩
      refine hno ⟨(horder.length_lt_iff hR).2 (same_ne_of_mem hR hc hsame), ?_⟩
      intro hnil
      have hmem := (mem_annotatedPairs hR hc).2 ⟨hsame, hann⟩
      rw [hnil] at hmem
      cases hmem
    · exact fun hc => hc.1

theorem chained_dropped (r : Round) : (r.chained n tie).dropped = r.dropped := by
  unfold Round.chained
  dsimp only
  split <;> rfl

theorem chained_isOrder (hv : r.Valid n tie C) (hC : InRange n (listed C)) :
    ∃ E, InRange n E ∧ IsOrder n E (r.chained n tie).emitted := by
  have hR := hv.inRange hC
  unfold Round.chained
  dsimp only
  split
  · exact ⟨_, ordering_inRange hR, kahn_isOrder (ordering_inRange hR) tie⟩
  · refine ⟨_, hR, ?_⟩
    rw [hv.emitted]
    exact kahn_isOrder hR tie

/-! ## The order of a chain -/

theorem Before.trans {l : List Nat} {u v w : Nat} (h : Before l u v) (h' : Before l v w) : Before l u w :=
  ⟨h.1, h'.2.1, h.2.2.trans h'.2.2⟩

variable {emitted : List Nat}

theorem pairwise_before_of_chain : ∀ {members : List Nat},
    (∀ c ∈ chain members, Before emitted c.before c.after) → members.Pairwise (Before emitted)
  | [], _ => .nil
  | [a], _ => pairwise_singleton _ a
  | a :: b :: rest, h => by
    have hsplit : chain (a :: b :: rest) = ⟨a, b, .declared, .structural⟩ :: chain (b :: rest) := rfl
    rw [hsplit] at h
    have hrest := pairwise_before_of_chain fun c hc => h c (mem_cons_of_mem _ hc)
    have hab : Before emitted a b := h ⟨a, b, .declared, .structural⟩ mem_cons_self
    refine pairwise_cons.2 ⟨?_, hrest⟩
    intro x hx
    rcases mem_cons.1 hx with rfl | hx
    · exact hab
    · exact hab.trans (rel_of_pairwise_cons hrest hx)

theorem before_of_pairwise {x y : Nat} : ∀ {members : List Nat}, members.Pairwise (· < ·) →
    members.Pairwise (Before emitted) → x ∈ members → y ∈ members → x < y → Before emitted x y
  | a :: rest, hup, hbefore, hx, hy, hlt => by
    rcases mem_cons.1 hx with rfl | hx' <;> rcases mem_cons.1 hy with rfl | hy'
    · omega
    · exact rel_of_pairwise_cons hbefore hy'
    · have := rel_of_pairwise_cons hup hx'
      omega
    · exact before_of_pairwise hup.of_cons hbefore.of_cons hx' hy' hlt

theorem ordering_forward {R : List Constraint} (hR : InRange n (listed R))
    (ho : IsOrder n (listed (ordering (declaredOnly n R) R)) emitted) (hall : ¬ emitted.length < n) :
    (∀ members ∈ declaredOnly n R, members.Pairwise (Before emitted)) ∧
      ∀ c ∈ setAside (declaredOnly n R) R, Before emitted c.before c.after := by
  have hedge : ∀ c ∈ ordering (declaredOnly n R) R, Before emitted c.before c.after := by
    intro c hc
    obtain ⟨hb, ha, -⟩ := ordering_inRange hR c hc
    exact ho.forward _ _ (edge_of_mem hc) (ho.mem_of_length hall hb) (ho.mem_of_length hall ha)
  have hchain : ∀ members ∈ declaredOnly n R, members.Pairwise (Before emitted) := by
    intro members hm
    refine pairwise_before_of_chain fun c hc => ?_
    exact hedge c (mem_ordering.2 (.inr ⟨members, hm, hc⟩))
  refine ⟨hchain, ?_⟩
  intro c hc
  have hmid := hedge _ (mem_ordering.2 (.inl ⟨c, hc, rfl⟩))
  -- from the step to the last member of its component
  have hstart : Before emitted c.before (redirect (declaredOnly n R) c).after := by
    revert hmid
    unfold redirect
    dsimp only
    cases hends : ends (declaredOnly n R) c.before with
    | none => exact id
    | some span =>
      obtain ⟨members, hm, hbm, rfl⟩ := ends_eq_some hends
      obtain ⟨hcomp, -⟩ := mem_declaredOnly hR hm
      intro hmid
      rcases (le_getLast hcomp.ascending hbm).lt_or_eq with hlt | heq
      · have hlast := before_of_pairwise hcomp.ascending (hchain members hm) hbm (getLast_mem hcomp.ne_nil) hlt
        exact hlast.trans hmid
      · rw [heq]
        exact hmid
  -- and from the first member of its component to the step
  revert hstart
  unfold redirect
  dsimp only
  cases hends : ends (declaredOnly n R) c.after with
  | none => exact id
  | some span =>
    obtain ⟨members, hm, ham, rfl⟩ := ends_eq_some hends
    obtain ⟨hcomp, -⟩ := mem_declaredOnly hR hm
    intro hstart
    rcases (head_le hcomp.ascending ham).lt_or_eq with hlt | heq
    · have hfirst := before_of_pairwise hcomp.ascending (hchain members hm) (head_mem hcomp.ne_nil) ham hlt
      exact hstart.trans hfirst
    · rw [← heq]
      exact hstart

theorem chained_forward (hv : r.Valid n tie C) (hC : InRange n (listed C)) (hall : ¬ (r.chained n tie).emitted.length < n) :
    (∀ x y, x < n → x < y → Same (listed r.kept) x y → Before (r.chained n tie).emitted x y) ∧
      ∀ c ∈ (r.chained n tie).kept, Before (r.chained n tie).emitted c.before c.after := by
  have hR := hv.inRange hC
  have hbad : ¬ Bad (listed r.kept) := fun hb => hall ((chained_length_lt_iff hv hC).2 hb)
  have horder := kahn_isOrder hR tie
  rw [← hv.emitted] at horder
  unfold Round.chained at hall ⊢
  dsimp only at hall ⊢
  split at hall
  · rename_i hchained
    rw [if_pos hchained]
    have ho := kahn_isOrder (ordering_inRange hR) tie
    obtain ⟨hchain, hforward⟩ := ordering_forward hR ho hall
    refine ⟨?_, hforward⟩
    intro x y hx hlt hsame
    obtain ⟨members, hm, hxm⟩ := exists_mem_declaredOnly hR hx hlt.ne hsame (annotated_of_not_bad hbad x)
    obtain ⟨hcomp, -⟩ := mem_declaredOnly hR hm
    exact before_of_pairwise hcomp.ascending (hchain members hm) hxm ((hcomp.mem_iff x hxm y).2 hsame) hlt
  · rename_i hchained
    rw [if_neg hchained]
    constructor
    · intro x y _ hlt hsame
      exact absurd ((horder.length_lt_iff hR).2 ⟨x, hsame.cycle hlt.ne⟩) hall
    · intro c hc
      obtain ⟨hb, ha, -⟩ := hR c hc
      exact horder.forward _ _ (edge_of_mem hc) (horder.mem_of_length hall hb) (horder.mem_of_length hall ha)

end Chained

/-! ## An order returned -/

variable {emitted : List Nat}

theorem position_eq {v : Nat} (hv : v ∈ emitted) : position emitted v = some (emitted.idxOf v) := by
  exact findIdx?_eq_some_of_exists ⟨v, hv, by simp⟩

theorem reverses_iff {k : Keep} (hb : k.before ∈ emitted) (ha : k.after ∈ emitted) :
    reverses emitted k = true ↔ emitted.idxOf k.after < emitted.idxOf k.before := by
  simp [reverses, position_eq hb, position_eq ha]

theorem firstReversed_eq_none {keeps : List Keep} :
    firstReversed emitted keeps = none ↔ ∀ k ∈ keeps, reverses emitted k = false := by
  unfold firstReversed
  cases hl : keeps.filter (reverses emitted) with
  | nil =>
    rw [filter_eq_nil_iff] at hl
    simpa using hl
  | cons k rest =>
    rw [foldl_cons]
    constructor
    · intro hnone
      refine absurd hnone (foldlRecOn (motive := (· ≠ none)) _ _ (Option.some_ne_none k) fun first hfirst a _ => ?_)
      cases first with
      | none => exact absurd rfl hfirst
      | some f =>
        dsimp only
        split <;> exact Option.some_ne_none _
    · intro hall
      have hk := mem_filter.1 (hl ▸ mem_cons_self : k ∈ keeps.filter (reverses emitted))
      rw [hall k hk.1] at hk
      cases hk.2

namespace Schedule

variable {s : Schedule}

def edges (s : Schedule) : Set Constraint := {c | c ∈ s.constraints}

theorem listed_constraints (s : Schedule) : listed s.constraints.toList = s.edges := by
  ext c
  exact mem_toList

theorem outsideEdge_eq_none : s.outsideEdge = none ↔ InRange s.steps s.edges := by
  unfold outsideEdge
  rw [find?_eq_none]
  constructor
  · intro h c hc
    have := h c (mem_toList.2 hc)
    simp only [Bool.or_eq_true, decide_eq_true_eq, not_or, not_le] at this
    exact ⟨this.1.1, this.1.2, this.2⟩
  · intro h c hc
    have := h c (mem_toList.1 hc)
    simp only [Bool.or_eq_true, decide_eq_true_eq, not_or, not_le]
    exact ⟨⟨this.1, this.2.1⟩, this.2.2⟩

theorem outsideKeep_eq_none : s.outsideKeep = none ↔ ∀ k ∈ s.keeps, k.before < s.steps ∧ k.after < s.steps := by
  unfold outsideKeep
  rw [find?_eq_none]
  simp

theorem settledTrace_eq_ok {dropped : List DroppedGuess} {sequence : List Nat} {kept : List Constraint} :
    s.settledTrace = (dropped, .ok (sequence, kept)) ↔
      InRange s.steps s.edges ∧ (∀ k ∈ s.keeps, k.before < s.steps ∧ k.after < s.steps) ∧ s.obligations = [] ∧
        firstReversed s.settledRound.emitted s.keeps = none ∧ ¬ s.settledRound.emitted.length < s.steps ∧
          dropped = s.settledRound.dropped ∧ sequence = s.settledRound.emitted ∧ kept = s.settledRound.kept := by
  rw [← outsideEdge_eq_none, ← outsideKeep_eq_none]
  unfold settledTrace
  constructor
  · intro h
    split at h
    · cases h
    split at h
    · cases h
    split at h
    · cases h
    dsimp only at h
    split at h
    · cases h
    split at h
    · cases h
    rename_i h1 _ h2 h3 _ h4 h5
    cases h
    exact ⟨h1, h2, not_not.1 h3, h4, h5, rfl, rfl, rfl⟩
  · rintro ⟨h1, h2, h3, h4, h5, rfl, rfl, rfl⟩
    simp [h1, h2, h3, h4, h5]

theorem settledRound_valid (h : InRange s.steps s.edges) :
    (rounds s.steps s.tie s.constraints.toList).Valid s.steps s.tie s.constraints.toList := by
  rw [← listed_constraints] at h
  exact rounds_valid s.tie h

def remaining (s : Schedule) (dropped : List DroppedGuess) : Set Constraint :=
  {c | c ∈ s.constraints ∧ ∀ g ∈ dropped, g.edge ≠ c}

variable (h : InRange s.steps s.edges)
include h

theorem listed_kept : listed (rounds s.steps s.tie s.constraints.toList).kept = s.remaining s.settledRound.dropped := by
  have hv := settledRound_valid h
  have hdropped : s.settledRound.dropped = (rounds s.steps s.tie s.constraints.toList).dropped := chained_dropped _
  ext c
  rw [hdropped]
  constructor
  · intro hc
    refine ⟨mem_toList.1 (hv.sub.subset hc), ?_⟩
    rintro g hg rfl
    exact (hv.dropped g hg).2.1 hc
  · rintro ⟨hc, hnot⟩
    by_contra hout
    obtain ⟨g, hg, heq⟩ := hv.given c (mem_toList.2 hc) hout
    exact hnot g hg heq

theorem settledRound_isOrder : ∃ E, IsOrder s.steps E s.settledRound.emitted := by
  obtain ⟨E, -, ho⟩ := chained_isOrder (settledRound_valid h) (by rw [listed_constraints]; exact h)
  exact ⟨E, ho⟩

theorem settledRound_forward (hall : ¬ s.settledRound.emitted.length < s.steps) :
    ∀ c ∈ s.settledRound.kept, Before s.settledRound.emitted c.before c.after :=
  (chained_forward (settledRound_valid h) (by rw [listed_constraints]; exact h) hall).2

end Schedule

/-! ## The plan in its order -/

section Scratch

variable {α : Type}

theorem exists_takeAll : ∀ {sequence : List Nat} {taken : List (Option α)}, sequence.Nodup →
    (∀ i ∈ sequence, ∃ a, taken[i]? = some (some a)) → ∃ ordered, takeAll taken sequence = some ordered ∧
      ordered.length = sequence.length
  | [], _, _, _ => ⟨[], rfl, rfl⟩
  | i :: sequence, taken, hnodup, hall => by
    obtain ⟨hi, hnodup⟩ := nodup_cons.1 hnodup
    obtain ⟨a, ha⟩ := hall i mem_cons_self
    have hrest : ∀ j ∈ sequence, ∃ b, (taken.set i none)[j]? = some (some b) := by
      intro j hj
      have hne : i ≠ j := by
        rintro rfl
        exact hi hj
      rw [getElem?_set_ne hne]
      exact hall j (mem_cons_of_mem _ hj)
    obtain ⟨ordered, htake, hlen⟩ := exists_takeAll hnodup hrest
    refine ⟨a :: ordered, ?_, by simp [hlen]⟩
    rw [takeAll, ha]
    simp [htake]

theorem orderingProof_new_ok (checksum : List α → String) {changes : List α} {edges : List OrderEdge}
    (h : ∀ e ∈ edges, e.before < e.after ∧ e.after < changes.length) :
    ∃ p, OrderingProof.new checksum changes edges = .ok p := by
  have hnone : (edges.any fun e => decide (e.after ≤ e.before) || decide (changes.length ≤ e.after)) = false := by
    rw [any_eq_false]
    intro e he
    have := h e he
    simp only [Bool.or_eq_true, decide_eq_true_eq, not_or]
    omega
  refine ⟨⟨1, checksum changes, edges⟩, ?_⟩
  simp [OrderingProof.new, OrderingProof.validate, hnone, bind, Except.bind]

theorem settleScratch_refused (checksum : List α → String) (s : Schedule) (changes : List α) {e : Failure}
    (h : s.settleScratch checksum changes = .error e) : ∃ refusal, e = .refused refusal := by
  unfold Schedule.settleScratch at h
  split at h
  · cases h
    exact ⟨_, rfl⟩
  rename_i hlen
  split at h
  · cases h
    exact ⟨_, rfl⟩
  rename_i sequence kept hok
  obtain ⟨hrange, -, -, -, hall, -, rfl, rfl⟩ := Schedule.settledTrace_eq_ok.1 (Prod.ext rfl hok)
  obtain ⟨E, ho⟩ := Schedule.settledRound_isOrder hrange
  have hsteps : changes.length = s.steps := not_not.1 hlen
  have htaken : ∀ i ∈ s.settledRound.emitted, ∃ a, (changes.map some)[i]? = some (some a) := by
    intro i hi
    have hlt : i < changes.length := by
      rw [hsteps]
      exact ho.lt i hi
    exact ⟨changes[i], by simp [getElem?_eq_getElem hlt]⟩
  obtain ⟨ordered, htake, hordered⟩ := exists_takeAll ho.nodup htaken
  rw [htake] at h
  dsimp only at h
  have hforward := Schedule.settledRound_forward hrange hall
  -- every kept edge runs forward and names a step, which is all the proof asks
  have hedges : ∀ e ∈ s.settledRound.kept.map fun c => (⟨(position s.settledRound.emitted c.before).getD 0,
      (position s.settledRound.emitted c.after).getD 0, c.reason⟩ : OrderEdge), e.before < e.after ∧ e.after < ordered.length := by
    intro e he
    obtain ⟨c, hc, rfl⟩ := mem_map.1 he
    obtain ⟨hb, ha, hlt⟩ := hforward c hc
    rw [position_eq hb, position_eq ha]
    refine ⟨hlt, ?_⟩
    rw [hordered]
    exact idxOf_lt_length_of_mem ha
  obtain ⟨p, hp⟩ := orderingProof_new_ok checksum hedges
  rw [hp] at h
  cases h

end Scratch

namespace Schedule

variable {s : Schedule}

/-- What is settled is sound: the sequence is a permutation of the steps; the guesses dropped lay inside a
component; what remains inside a component are annotations, and its steps keep the order given; the edges
kept are the others, and all of them run forward; no kept order is reversed; and a plan settled under the
schedule ends in its order or in a refusal. -/
theorem settledTrace_sound {dropped : List DroppedGuess} {sequence : List Nat} {kept : List Constraint}
    (h : s.settledTrace = (dropped, .ok (sequence, kept))) : sequence.Perm (List.range s.steps) ∧
      (∀ g ∈ dropped, g.edge ∈ s.constraints ∧ g.edge.source = .guess ∧ Same s.edges g.edge.before g.edge.after) ∧
        (∀ c ∈ s.remaining dropped, Same (s.remaining dropped) c.before c.after → c.source = .declared) ∧
          (∀ x y, x < y → y < s.steps → Same (s.remaining dropped) x y → Before sequence x y) ∧
            (∀ c, c ∈ kept ↔ c ∈ s.remaining dropped ∧ ¬ Same (s.remaining dropped) c.before c.after) ∧
              (∀ c ∈ kept, Before sequence c.before c.after) ∧
                (∀ k ∈ s.keeps, k.before ≠ k.after → Before sequence k.before k.after) ∧
                  ∀ (α : Type) (checksum : List α → String) (a : Annotations) (changes : List α) (e : Failure),
                    s.settle checksum a changes = .error e ∨ s.settleScratch checksum changes = .error e →
                      ∃ refusal, e = .refused refusal := by
  obtain ⟨hrange, hkeeps, -, hreversed, hall, rfl, rfl, rfl⟩ := settledTrace_eq_ok.1 h
  have hC : InRange s.steps (listed s.constraints.toList) := by
    rw [listed_constraints]
    exact hrange
  have hv := settledRound_valid hrange
  have hbad : ¬ Bad (listed (rounds s.steps s.tie s.constraints.toList).kept) :=
    fun hb => hall ((chained_length_lt_iff hv hC).2 hb)
  have hforward := chained_forward hv hC hall
  obtain ⟨E, ho⟩ := settledRound_isOrder hrange
  have hdropped : s.settledRound.dropped = (rounds s.steps s.tie s.constraints.toList).dropped := chained_dropped _
  rw [← listed_kept hrange]
  refine ⟨ho.perm_range hall, ?_, ?_, ?_, ?_, hforward.2, ?_, ?_⟩
  · intro g hg
    rw [hdropped] at hg
    obtain ⟨h1, -, h3, h4⟩ := hv.dropped g hg
    rw [listed_constraints] at h4
    exact ⟨mem_toList.1 h1, h3, h4⟩
  · intro c hc hsame
    exact annotated_of_not_bad hbad c.before c hc (Component.Same.refl _ _) hsame
  · intro x y hlt hy hsame
    exact hforward.1 x y (by omega) hlt hsame
  · intro c
    rw [show s.settledRound = (rounds s.steps s.tie s.constraints.toList).chained s.steps s.tie from rfl,
      mem_chained_kept hv hC]
    constructor
    · rintro ⟨hc, hnot⟩
      exact ⟨hc, fun hsame => hnot ⟨hsame, annotated_of_not_bad hbad _⟩⟩
    · rintro ⟨hc, hnot⟩
      exact ⟨hc, fun hsame => hnot hsame.1⟩
  · intro k hk hne
    obtain ⟨hb, ha⟩ := hkeeps k hk
    have hbm := ho.mem_of_length hall hb
    have ham := ho.mem_of_length hall ha
    refine ⟨hbm, ham, lt_of_le_of_ne ?_ ?_⟩
    · have hnot := firstReversed_eq_none.1 hreversed k hk
      rw [← Bool.not_eq_true, reverses_iff hbm ham] at hnot
      omega
    · intro heq
      exact hne ((idxOf_inj hbm).1 heq)
  · rintro α checksum a changes e (herr | herr)
    · unfold settle at herr
      split at herr
      · cases herr
        exact ⟨_, rfl⟩
      · exact settleScratch_refused checksum _ changes herr
    · exact settleScratch_refused checksum s changes herr

def annotationPair : Schedule where
  steps := 2
  constraints := .ofList ([⟨0, 1, .declared, .structural⟩, ⟨1, 0, .declared, .structural⟩] : List Constraint)

/-- The annotation that the order given meets runs forward, and is set aside with the other. -/
theorem annotationPair_keeps_none : annotationPair.settledTrace = ([], .ok ([0, 1], [])) ∧
    ∃ c ∈ annotationPair.constraints, Before [0, 1] c.before c.after ∧ c ∉ ([] : List Constraint) := by
  refine ⟨by decide, ⟨0, 1, .declared, .structural⟩, by decide, ?_, by simp⟩
  exact ⟨by simp, by simp, by decide⟩

theorem annotationPair_sound : annotationPair.settledTrace = ([], .ok ([0, 1], [])) ∧
    [0, 1].Perm (List.range annotationPair.steps) := by
  have h : annotationPair.settledTrace = ([], .ok ([0, 1], [])) := by decide
  exact ⟨h, (settledTrace_sound h).1⟩

end Schedule

end Pbps.Order
