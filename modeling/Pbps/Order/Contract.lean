/-
Components made only of annotations, chained in the order given.
-/
import Pbps.Order.Rounds

namespace Pbps.Order

open Relation (ReflTransGen TransGen)
open List

variable {n : Nat} {tie : Tie} {R : List Constraint}

def Annotated (E : Set Constraint) (x : Nat) : Prop :=
  ∀ c ∈ E, Same E x c.before → Same E x c.after → c.source = .declared

def Bad (E : Set Constraint) : Prop := ∃ c ∈ E, Same E c.before c.after ∧ c.source ≠ .declared

variable {E : Set Constraint} {x y v : Nat} {members : List Nat} {c : Constraint} {groups : List (List Nat)}

theorem Annotated.of_same (h : Annotated E x) (hxy : Same E x y) : Annotated E y :=
  fun c hc hb ha => h c hc (hxy.trans hb) (hxy.trans ha)

theorem annotated_of_not_bad (h : ¬ Bad E) (x : Nat) : Annotated E x := by
  intro c hc hb ha
  by_contra hsource
  exact h ⟨c, hc, hb.symm.trans ha, hsource⟩

theorem exists_of_not_annotated (h : ¬ Annotated E x) :
    ∃ c ∈ E, Same E x c.before ∧ Same E x c.after ∧ c.source ≠ .declared := by
  unfold Annotated at h
  push Not at h
  exact h

/-! ## The components chained -/

theorem mem_edgesInside : c ∈ edgesInside R members ↔ c ∈ R ∧ c.before ∈ members ∧ c.after ∈ members := by
  simp [edgesInside]

section

variable (h : InRange n (listed R))
include h

theorem mem_declaredOnly (hm : members ∈ declaredOnly n R) :
    IsComponent n (listed R) members ∧ ∀ x ∈ members, Annotated (listed R) x := by
  obtain ⟨hm, hall⟩ := mem_filter.1 hm
  simp only [Bool.and_eq_true, all_eq_true, decide_eq_true_eq] at hall
  have hc := isComponent_of_mem h hm
  refine ⟨hc, ?_⟩
  intro x hx c hcR hb ha
  exact hall.2 c (mem_edgesInside.2 ⟨hcR, (hc.mem_iff x hx _).2 hb, (hc.mem_iff x hx _).2 ha⟩)

theorem exists_mem_declaredOnly (hx : x < n) (hne : x ≠ y) (hsame : Same (listed R) x y) (hann : Annotated (listed R) x) :
    ∃ members ∈ declaredOnly n R, x ∈ members := by
  obtain ⟨members, hm, hxm⟩ := exists_mem_components h hx
  have hc := isComponent_of_mem h hm
  have hym := (hc.mem_iff x hxm y).2 hsame
  refine ⟨members, mem_filter.2 ⟨hm, ?_⟩, hxm⟩
  simp only [Bool.and_eq_true, all_eq_true, decide_eq_true_eq]
  refine ⟨hc.one_lt_length.2 ⟨x, hxm, y, hym, hne⟩, ?_⟩
  intro c hcm
  obtain ⟨hcR, hb, ha⟩ := mem_edgesInside.1 hcm
  exact hann c hcR ((hc.mem_iff x hxm _).1 hb) ((hc.mem_iff x hxm _).1 ha)

theorem mem_annotatedPairs (hc : c ∈ R) : (c.before, c.after) ∈ annotatedPairs (declaredOnly n R) R ↔
      Same (listed R) c.before c.after ∧ Annotated (listed R) c.before := by
  unfold annotatedPairs
  rw [mem_flatMap]
  constructor
  · rintro ⟨members, hm, hpair⟩
    obtain ⟨hcomp, hann⟩ := mem_declaredOnly h hm
    obtain ⟨c', hc', heq⟩ := mem_map.1 hpair
    obtain ⟨-, hb, ha⟩ := mem_edgesInside.1 hc'
    rw [Prod.mk.injEq] at heq
    rw [heq.1] at hb
    rw [heq.2] at ha
    exact ⟨(hcomp.mem_iff _ hb _).1 ha, hann _ hb⟩
  · rintro ⟨hsame, hann⟩
    obtain ⟨hb, -, hne⟩ := h c hc
    obtain ⟨members, hm, hbm⟩ := exists_mem_declaredOnly h hb hne hsame hann
    obtain ⟨hcomp, -⟩ := mem_declaredOnly h hm
    exact ⟨members, hm, mem_map.2 ⟨c, mem_edgesInside.2 ⟨hc, hbm, (hcomp.mem_iff _ hbm _).2 hsame⟩, rfl⟩⟩

theorem mem_setAside :
    c ∈ setAside (declaredOnly n R) R ↔ c ∈ R ∧ ¬ (Same (listed R) c.before c.after ∧ Annotated (listed R) c.before) := by
  unfold setAside
  rw [mem_filter, Bool.not_eq_true', ← Bool.not_eq_true, contains_iff_mem]
  constructor
  · rintro ⟨hc, hnot⟩
    exact ⟨hc, fun hsame => hnot ((mem_annotatedPairs h hc).2 hsame)⟩
  · rintro ⟨hc, hnot⟩
    exact ⟨hc, fun hpair => hnot ((mem_annotatedPairs h hc).1 hpair)⟩

end

/-! ## Ends -/

theorem head_mem (h : members ≠ []) : members.headD 0 ∈ members := by
  cases members with
  | nil => exact absurd rfl h
  | cons a l => exact mem_cons_self

theorem getLast_mem (h : members ≠ []) : members.getLastD 0 ∈ members := by
  rw [getLastD_eq_getLast?, getLast?_eq_some_getLast h]
  exact List.getLast_mem h

theorem head_le (h : members.Pairwise (· < ·)) (hx : x ∈ members) : members.headD 0 ≤ x := by
  cases members with
  | nil => cases hx
  | cons a l =>
    rcases mem_cons.1 hx with rfl | hx
    · exact le_rfl
    · exact (rel_of_pairwise_cons h hx).le

theorem le_getLast (h : members.Pairwise (· < ·)) (hx : x ∈ members) : x ≤ members.getLastD 0 := by
  rcases eq_nil_or_concat members with rfl | ⟨l, a, rfl⟩
  · cases hx
  · rw [concat_eq_append] at h hx ⊢
    rw [getLastD_eq_getLast?, getLast?_concat, Option.getD_some]
    rcases mem_append.1 hx with hx | hx
    · exact ((pairwise_append.1 h).2.2 x hx a (by simp)).le
    · rw [mem_singleton] at hx
      exact hx.le

theorem ends_eq_some {span : Nat × Nat} (h : ends groups v = some span) :
    ∃ members ∈ groups, v ∈ members ∧ span = (members.headD 0, members.getLastD 0) := by
  obtain ⟨members, hm, heq⟩ := exists_of_findSome?_eq_some h
  split at heq
  · rename_i hv
    rw [Option.some.injEq] at heq
    exact ⟨members, hm, contains_iff_mem.1 hv, heq.symm⟩
  · cases heq

theorem ends_eq_none (h : ∀ members ∈ groups, v ∉ members) : ends groups v = none := by
  rw [ends, findSome?_eq_none_iff]
  intro members hm
  rw [if_neg]
  rw [contains_iff_mem]
  exact h members hm

section

variable (h : InRange n (listed R))
include h

theorem ends_of_not_annotated (hv : ¬ Annotated (listed R) v) : ends (declaredOnly n R) v = none :=
  ends_eq_none fun _ hm hvm => hv ((mem_declaredOnly h hm).2 v hvm)

theorem same_redirect_before (c : Constraint) : Same (listed R) c.before (redirect (declaredOnly n R) c).before := by
  unfold redirect
  cases hends : ends (declaredOnly n R) c.before with
  | none => exact Component.Same.refl _ _
  | some span =>
    obtain ⟨members, hm, hv, rfl⟩ := ends_eq_some hends
    obtain ⟨hc, -⟩ := mem_declaredOnly h hm
    exact (hc.mem_iff _ hv _).1 (getLast_mem hc.ne_nil)

theorem same_redirect_after (c : Constraint) : Same (listed R) c.after (redirect (declaredOnly n R) c).after := by
  unfold redirect
  cases hends : ends (declaredOnly n R) c.after with
  | none => exact Component.Same.refl _ _
  | some span =>
    obtain ⟨members, hm, hv, rfl⟩ := ends_eq_some hends
    obtain ⟨hc, -⟩ := mem_declaredOnly h hm
    exact (hc.mem_iff _ hv _).1 (head_mem hc.ne_nil)

theorem redirect_of_not_annotated (hsame : Same (listed R) c.before c.after) (hnot : ¬ Annotated (listed R) c.before) :
    redirect (declaredOnly n R) c = c := by
  have hafter : ¬ Annotated (listed R) c.after := fun ha => hnot (ha.of_same hsame.symm)
  unfold redirect
  rw [ends_of_not_annotated h hnot, ends_of_not_annotated h hafter]
  rfl

end

/-! ## The edges that order -/

theorem mem_chain : ∀ {members : List Nat}, members.Pairwise (· < ·) → c ∈ chain members →
    c.before ∈ members ∧ c.after ∈ members ∧ c.before < c.after
  | [], _, hc => by simp [chain] at hc
  | [_], _, hc => by simp [chain] at hc
  | a :: b :: rest, hup, hc => by
    have hsplit : chain (a :: b :: rest) = ⟨a, b, .declared, .structural⟩ :: chain (b :: rest) := rfl
    rw [hsplit] at hc
    rcases mem_cons.1 hc with rfl | hc
    · exact ⟨mem_cons_self, by simp, rel_of_pairwise_cons hup mem_cons_self⟩
    · obtain ⟨h1, h2, h3⟩ := mem_chain hup.of_cons hc
      exact ⟨mem_cons_of_mem _ h1, mem_cons_of_mem _ h2, h3⟩

theorem mem_ordering :
    c ∈ ordering groups R ↔ (∃ c' ∈ setAside groups R, redirect groups c' = c) ∨ ∃ members ∈ groups, c ∈ chain members := by
  simp [ordering]

section

variable (h : InRange n (listed R))
include h

theorem redirect_of_mem_setAside (hc : c ∈ setAside (declaredOnly n R) R) (hsame : Same (listed R) c.before c.after) :
    redirect (declaredOnly n R) c = c := by
  have hnot := ((mem_setAside h).1 hc).2
  exact redirect_of_not_annotated h hsame fun hann => hnot ⟨hsame, hann⟩

theorem ordering_inRange : InRange n (listed (ordering (declaredOnly n R) R)) := by
  have hlt : ∀ x y, Same (listed R) x y → x < n → y < n := by
    intro x y hsame hx
    obtain ⟨members, hm, hxm⟩ := exists_mem_components h hx
    have hc := isComponent_of_mem h hm
    exact hc.lt y ((hc.mem_iff x hxm y).2 hsame)
  intro c hc
  rcases mem_ordering.1 hc with ⟨c', hc', rfl⟩ | ⟨members, hm, hc⟩
  · have hR := ((mem_setAside h).1 hc').1
    obtain ⟨hb, ha, hne⟩ := h c' hR
    have hsb := same_redirect_before h c'
    have hsa := same_redirect_after h c'
    refine ⟨hlt _ _ hsb hb, hlt _ _ hsa ha, ?_⟩
    intro heq
    -- an edge whose ends meet would be inside a component, and those stay as they are
    have hsame : Same (listed R) c'.before c'.after := hsb.trans (heq ▸ hsa.symm)
    rw [redirect_of_mem_setAside h hc' hsame] at heq
    exact hne heq
  · obtain ⟨hcomp, -⟩ := mem_declaredOnly h hm
    obtain ⟨hb, ha, hup⟩ := mem_chain hcomp.ascending hc
    exact ⟨hcomp.lt _ hb, hcomp.lt _ ha, hup.ne⟩

theorem leads_of_ordering {u : Nat} (huv : Edge (listed (ordering (declaredOnly n R) R)) u v) :
    ReflTransGen (Edge (listed R)) u v := by
  obtain ⟨c, hc, rfl, rfl⟩ := huv
  rcases mem_ordering.1 hc with ⟨c', hc', rfl⟩ | ⟨members, hm, hc⟩
  · have hedge : Edge (listed R) c'.before c'.after := edge_of_mem ((mem_setAside h).1 hc').1
    exact (same_redirect_before h c').2.trans (.head hedge (same_redirect_after h c').1)
  · obtain ⟨hcomp, -⟩ := mem_declaredOnly h hm
    obtain ⟨hb, ha, -⟩ := mem_chain hcomp.ascending hc
    exact ((hcomp.mem_iff _ hb _).1 ha).1

theorem lt_of_ordering (hbad : ¬ Bad (listed R)) {u : Nat} (huv : Edge (listed (ordering (declaredOnly n R) R)) u v)
    (hsame : Same (listed R) u v) : u < v := by
  obtain ⟨c, hc, rfl, rfl⟩ := huv
  rcases mem_ordering.1 hc with ⟨c', hc', rfl⟩ | ⟨members, hm, hc⟩
  · have hin : Same (listed R) c'.before c'.after :=
      (same_redirect_before h c').trans (hsame.trans (same_redirect_after h c').symm)
    exact absurd ⟨hin, annotated_of_not_bad hbad _⟩ ((mem_setAside h).1 hc').2
  · obtain ⟨hcomp, -⟩ := mem_declaredOnly h hm
    exact (mem_chain hcomp.ascending hc).2.2

end

theorem same_of_inside {S : List Constraint} (hS : ∀ c ∈ R, Same (listed R) x c.before → Same (listed R) x c.after → c ∈ S)
    (hsame : Same (listed R) x y) : Same (listed S) x y := by
  refine Component.Same.of_inside ?_ hsame
  rintro a b ⟨c, hc, rfl, rfl⟩ ha hb
  exact edge_of_mem (hS c hc ha hb)

theorem mem_ordering_of_not_annotated (h : InRange n (listed R)) (hnot : ¬ Annotated (listed R) x) (hc : c ∈ R)
    (hb : Same (listed R) x c.before) (ha : Same (listed R) x c.after) : c ∈ ordering (declaredOnly n R) R := by
  have hsame := hb.symm.trans ha
  have hnot' : ¬ Annotated (listed R) c.before := fun hann => hnot (hann.of_same hb.symm)
  refine mem_ordering.2 (.inl ⟨c, (mem_setAside h).2 ⟨hc, fun hh => hnot' hh.2⟩, ?_⟩)
  exact redirect_of_not_annotated h hsame hnot'

/-- What still waits once the components of annotations are chained is a component with another edge. -/
theorem ordering_cycle_iff (h : InRange n (listed R)) :
    (∃ v, TransGen (Edge (listed (ordering (declaredOnly n R) R))) v v) ↔ Bad (listed R) := by
  constructor
  · rintro ⟨v, hcycle⟩
    by_contra hbad
    refine Component.acyclic_of_ascends (r := Edge (listed R)) ?_ ?_ v hcycle
    · exact fun u v huv => leads_of_ordering h huv
    · exact fun u v huv hsame => lt_of_ordering h hbad huv hsame
  · rintro ⟨c, hc, hsame, hsource⟩
    have hnot : ¬ Annotated (listed R) c.before :=
      fun hann => hsource (hann c hc (Component.Same.refl _ _) hsame)
    refine ⟨c.before, Component.Same.cycle ?_ (h c hc).2.2⟩
    exact same_of_inside (fun c' hc' hb ha => mem_ordering_of_not_annotated h hnot hc' hb ha) hsame

end Pbps.Order
