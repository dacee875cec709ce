/-
What the two graph searches of a schedule say of its edges: the components are those of the relation the
edges state, and an order places everything exactly if the edges have no cycle, each edge running forward.
-/
import Pbps.Order.Schedule

namespace Pbps.Order

open Std (ExtTreeSet)
open Relation (ReflTransGen TransGen)
open List Std.ExtTreeSet

/-! ## Edges as a relation -/

def listed (l : List Constraint) : Set Constraint := {c | c ∈ l}

def Edge (E : Set Constraint) (u v : Nat) : Prop := ∃ c ∈ E, c.before = u ∧ c.after = v

abbrev Same (E : Set Constraint) : Nat → Nat → Prop := Component.Same (Edge E)

/-- Every edge is between two different steps of `n`. -/
def InRange (n : Nat) (E : Set Constraint) : Prop := ∀ c ∈ E, c.before < n ∧ c.after < n ∧ c.before ≠ c.after

variable {n : Nat} {l : List Constraint}

variable {E E' : Set Constraint} {u v i : Nat}

theorem InRange.mono (h : InRange n E) (hsub : E' ⊆ E) : InRange n E' :=
  fun c hc => h c (hsub hc)

theorem Edge.mono (hsub : E' ⊆ E) (h : Edge E' u v) : Edge E u v := by
  obtain ⟨c, hc, hb, ha⟩ := h
  exact ⟨c, hsub hc, hb, ha⟩

theorem Same.mono (hsub : E' ⊆ E) (h : Same E' u v) : Same E u v :=
  Component.Same.mono (fun _ _ => Edge.mono hsub) h

theorem edge_listed : Edge (listed l) u v ↔ (u, v) ∈ l.map fun c => (c.before, c.after) := by
  simp [Edge, listed]

theorem edge_of_mem {c : Constraint} (hc : c ∈ E) : Edge E c.before c.after := ⟨c, hc, rfl, rfl⟩

/-! ## Components -/

theorem mem_outgoing {w : Nat} : w ∈ outgoing l u ↔ Edge (listed l) u w := by
  simp only [outgoing, mem_dedup, mem_insertionSort, mem_map, List.mem_filter, decide_eq_true_eq, Edge,
    listed, Set.mem_ofPred_eq, and_assoc]

theorem outgoing_eq (l : List Constraint) : (fun u w => w ∈ outgoing l u) = Edge (listed l) := by
  funext u w
  exact propext mem_outgoing

theorem outgoing_lt (hlt : ∀ c ∈ l, c.after < n) (u w : Nat) (hw : w ∈ outgoing l u) : w < n := by
  obtain ⟨c, hc, -, rfl⟩ := mem_outgoing.1 hw
  exact hlt c hc

/-- A component found, as the steps it joins. -/
structure IsComponent (n : Nat) (E : Set Constraint) (members : List Nat) : Prop where
  ne_nil : members ≠ []
  ascending : members.Pairwise (· < ·)
  lt : ∀ x ∈ members, x < n
  mem_iff : ∀ x ∈ members, ∀ y, y ∈ members ↔ Same E x y

variable {members placed : List Nat} {ready : ExtTreeSet Nat}

theorem components_partition (hlt : ∀ c ∈ l, c.after < n) : Component.Partition (Edge (listed l)) (· < n) (components n l) :=
  outgoing_eq l ▸ Tarjan.components_partition (outgoing_lt hlt)

theorem isComponent_of_mem (h : InRange n (listed l)) (hm : members ∈ components n l) : IsComponent n (listed l) members := by
  have hparts := components_partition fun c hc => (h c hc).2.1
  exact ⟨hparts.ne_nil _ hm, Tarjan.ascending_of_mem (outgoing_lt fun c hc => (h c hc).2.1) hm, fun x hx => (hparts.mem_iff x).1 ⟨_, hm, hx⟩,
    hparts.same _ hm⟩

theorem exists_mem_components (h : InRange n (listed l)) {x : Nat} (hx : x < n) : ∃ members ∈ components n l, x ∈ members :=
  ((components_partition fun c hc => (h c hc).2.1).mem_iff x).2 hx

theorem IsComponent.one_lt_length (h : IsComponent n E members) : 1 < members.length ↔ ∃ x ∈ members, ∃ y ∈ members, x ≠ y := by
  constructor
  · intro hlen
    match members, hlen, h with
    | a :: b :: _, _, h =>
      refine ⟨a, mem_cons_self, b, by simp, ?_⟩
      exact (rel_of_pairwise_cons h.ascending mem_cons_self).ne
  · rintro ⟨x, hx, y, hy, hne⟩
    match members, hx, hy with
    | [a], hx, hy =>
      rw [mem_singleton] at hx hy
      exact absurd (hx.trans hy.symm) hne
    | _ :: _ :: _, _, _ => simp

/-! ## Orders -/

/-- Both are emitted, one before the other. -/
def Before (emitted : List Nat) (u v : Nat) : Prop := u ∈ emitted ∧ v ∈ emitted ∧ emitted.idxOf u < emitted.idxOf v

/-- What an order of `n` steps under some edges says of them. -/
structure IsOrder (n : Nat) (E : Set Constraint) (emitted : List Nat) : Prop where
  lt : ∀ v ∈ emitted, v < n
  nodup : emitted.Nodup
  forward : ∀ u v, Edge E u v → u ∈ emitted → v ∈ emitted → Before emitted u v
  not_cycle : ∀ v, TransGen (Edge E) v v → v ∉ emitted
  exists_cycle : ∀ v < n, v ∉ emitted → ∃ w < n, TransGen (Edge E) w w

theorem popFirst_picks : Kahn.Picks popFirst where
  mem ready i h := mem_toList.1 (mem_of_mem_head? h)
  none ready h i hi := by
    rw [popFirst, head?_eq_none_iff] at h
    rw [← mem_toList, h] at hi
    cases hi

theorem popLast_picks : Kahn.Picks popLast where
  mem ready i h := mem_toList.1 (mem_of_mem_getLast? h)
  none ready h i hi := by
    rw [popLast, getLast?_eq_none_iff] at h
    rw [← mem_toList, h] at hi
    cases hi

theorem idxOf_reverse {l : List Nat} (hnodup : l.Nodup) (hv : v ∈ l) : l.reverse.idxOf v + l.idxOf v + 1 = l.length := by
  obtain ⟨pre, post, rfl⟩ := append_of_mem hv
  rw [nodup_append, nodup_cons] at hnodup
  obtain ⟨-, ⟨hpost, -⟩, hapart⟩ := hnodup
  have hpre : v ∉ pre := fun hm => hapart v hm v mem_cons_self rfl
  have hrev : (pre ++ v :: post).reverse = post.reverse ++ v :: pre.reverse := by simp
  rw [hrev, idxOf_append_of_notMem (by simpa using hpost), idxOf_append_of_notMem hpre]
  simp
  omega

theorem isOrder_of_sink (ho : Kahn.Order n (l.map fun c => (c.before, c.after)) placed) : IsOrder n (listed l) placed := by
  have hrel : (fun u v => (u, v) ∈ l.map fun c => (c.before, c.after)) = Edge (listed l) := by
    funext u v
    exact propext edge_listed.symm
  constructor
  case lt => exact ho.lt
  case nodup => exact ho.nodup
  case forward =>
    intro u v huv hu hv
    exact ⟨hu, hv, (ho.mem_of_edge hv (edge_listed.1 huv)).2⟩
  case not_cycle =>
    intro v hv
    exact ho.not_mem_of_cycle (hrel ▸ hv)
  case exists_cycle =>
    intro v hv hnot
    obtain ⟨w, hw, -, hcycle⟩ := ho.exists_cycle hv hnot
    exact ⟨w, hw, hrel ▸ hcycle⟩

theorem isOrder_of_hoist (ho : Kahn.Order n (l.map fun c => (c.after, c.before)) placed) :
    IsOrder n (listed l) placed.reverse := by
  have hrel : (fun u v => (u, v) ∈ l.map fun c => (c.after, c.before)) = Function.swap (Edge (listed l)) := by
    funext u v
    simp only [Function.swap, eq_iff_iff]
    simp [Edge, listed, and_comm]
  have hback : ∀ u v, Edge (listed l) u v → (v, u) ∈ l.map fun c => (c.after, c.before) := by
    intro u v huv
    have := congrFun (congrFun hrel v) u
    exact this.mpr huv
  constructor
  case lt =>
    intro v hv
    exact ho.lt v (mem_reverse.1 hv)
  case nodup => exact nodup_reverse.2 ho.nodup
  case forward =>
    intro u v huv hu hv
    rw [mem_reverse] at hu hv
    have hlt := (ho.mem_of_edge hu (hback u v huv)).2
    have h1 := idxOf_reverse ho.nodup hu
    have h2 := idxOf_reverse ho.nodup hv
    refine ⟨mem_reverse.2 hu, mem_reverse.2 hv, ?_⟩
    omega
  case not_cycle =>
    intro v hv
    rw [mem_reverse]
    refine ho.not_mem_of_cycle ?_
    rw [hrel]
    exact Relation.transGen_swap.2 hv
  case exists_cycle =>
    intro v hv hnot
    rw [mem_reverse] at hnot
    obtain ⟨w, hw, -, hcycle⟩ := ho.exists_cycle hv hnot
    rw [hrel] at hcycle
    exact ⟨w, hw, Relation.transGen_swap.1 hcycle⟩

theorem kahn_isOrder (h : InRange n (listed l)) (tie : Tie) : IsOrder n (listed l) (kahn n l tie) := by
  cases tie with
  | sink =>
    refine isOrder_of_sink (Kahn.run_order popFirst_picks ?_)
    intro e he
    obtain ⟨c, hc, rfl⟩ := mem_map.1 he
    exact ⟨(h c hc).1, (h c hc).2.1⟩
  | hoist =>
    refine isOrder_of_hoist (Kahn.run_order popLast_picks ?_)
    intro e he
    obtain ⟨c, hc, rfl⟩ := mem_map.1 he
    exact ⟨(h c hc).2.1, (h c hc).1⟩

namespace IsOrder

variable {E : Set Constraint} {emitted : List Nat}

variable (h : IsOrder n E emitted)
include h

theorem length_le : emitted.length ≤ n := Kahn.length_le_of_nodup h.nodup h.lt

theorem mem_of_length (hlen : ¬ emitted.length < n) {v : Nat} (hv : v < n) : v ∈ emitted :=
  Kahn.mem_of_length_eq h.nodup h.lt (le_antisymm h.length_le (by omega)) hv

theorem perm_range (hlen : ¬ emitted.length < n) : emitted.Perm (List.range n) := by
  rw [perm_ext_iff_of_nodup h.nodup nodup_range]
  intro v
  rw [mem_range]
  exact ⟨h.lt v, h.mem_of_length hlen⟩

theorem length_lt_iff (hrange : InRange n E) : emitted.length < n ↔ ∃ v, TransGen (Edge E) v v := by
  constructor
  · intro hlen
    obtain ⟨v, hv, hnot⟩ : ∃ v < n, v ∉ emitted := by
      by_contra hall
      push Not at hall
      have hsub : Finset.range n ⊆ emitted.toFinset := by
        intro v hv
        exact mem_toFinset.2 (hall v (Finset.mem_range.1 hv))
      have hcard := Finset.card_le_card hsub
      rw [toFinset_card_of_nodup h.nodup, Finset.card_range] at hcard
      omega
    obtain ⟨w, -, hcycle⟩ := h.exists_cycle v hv hnot
    exact ⟨w, hcycle⟩
  · rintro ⟨v, hcycle⟩
    by_contra hlen
    have hv : v < n := by
      obtain ⟨w, ⟨c, hc, rfl, -⟩, -⟩ := Relation.TransGen.head'_iff.1 hcycle
      exact (hrange c hc).1
    exact h.not_cycle v hcycle (h.mem_of_length hlen hv)

end IsOrder

/-! ## The order given -/

theorem popFirst_eq_some (hi : i ∈ ready) (hmin : ∀ v ∈ ready, i ≤ v) : popFirst ready = some i := by
  have hmem := mem_toList.2 hi
  have hordered : ready.toList.Pairwise fun a b => compare a b = .lt := ordered_toList
  unfold popFirst
  cases hl : ready.toList with
  | nil => simp [hl] at hmem
  | cons a rest =>
    rw [hl] at hmem hordered
    have ha := hmin a (mem_toList.1 (by rw [hl]; exact mem_cons_self))
    rcases mem_cons.1 hmem with rfl | hm
    · rfl
    · have := Nat.compare_eq_lt.1 (rel_of_pairwise_cons hordered hm)
      omega

theorem popLast_eq_some (hi : i ∈ ready) (hmax : ∀ v ∈ ready, v ≤ i) : popLast ready = some i := by
  have hmem := mem_toList.2 hi
  have hordered : ready.toList.Pairwise fun a b => compare a b = .lt := ordered_toList
  unfold popLast
  rcases eq_nil_or_concat ready.toList with hl | ⟨rest, a, hl⟩
  · simp [hl] at hmem
  · rw [concat_eq_append] at hl
    rw [hl] at hmem hordered
    have ha := hmax a (mem_toList.1 (by simp [hl]))
    rw [hl, getLast?_concat]
    rcases mem_append.1 hmem with hm | hm
    · have := Nat.compare_eq_lt.1 ((pairwise_append.1 hordered).2.2 i hm a (by simp))
      omega
    · rw [mem_singleton] at hm
      rw [hm]

theorem range_split {pre post : List Nat} (h : List.range n = pre ++ i :: post) :
    (∀ u, u ∈ pre ↔ u < i) ∧ ∀ v ∈ post, i < v := by
  have hup : (List.range n).Pairwise (· < ·) := pairwise_lt_range
  have hmem : ∀ u, u ∈ List.range n ↔ u < n := fun u => mem_range
  rw [h] at hup hmem
  obtain ⟨-, hpost, hcross⟩ := pairwise_append.1 hup
  have hin : i < n := (hmem i).1 (by simp)
  have hafter : ∀ v ∈ post, i < v := fun v hv => rel_of_pairwise_cons hpost hv
  refine ⟨fun u => ⟨fun hu => hcross u hu i mem_cons_self, fun hu => ?_⟩, hafter⟩
  have hum := (hmem u).2 (by omega)
  rw [mem_append, mem_cons] at hum
  rcases hum with hum | rfl | hum
  · exact hum
  · omega
  · have := hafter u hum
    omega

theorem idxOf_range (hi : i < n) : (List.range n).idxOf i = i := by
  have h := (nodup_range (n := n)).idxOf_getElem i (by simpa using hi)
  rwa [getElem_range] at h

/-- The given order is kept exactly where it meets the edges. -/
theorem kahn_eq_range (h : InRange n (listed l)) (tie : Tie) : kahn n l tie = List.range n ↔ ∀ c ∈ l, c.before < c.after := by
  constructor
  · intro heq c hc
    have ho := kahn_isOrder h tie
    rw [heq] at ho
    obtain ⟨hb, ha, -⟩ := h c hc
    have hbefore := (ho.forward _ _ (edge_of_mem hc) (mem_range.2 hb) (mem_range.2 ha)).2.2
    rwa [idxOf_range hb, idxOf_range ha] at hbefore
  · intro hforward
    cases tie with
    | sink =>
      refine Kahn.run_eq popFirst_picks ?_ (fun v => mem_range) nodup_range ?_ ?_
      · intro e he
        obtain ⟨c, hc, rfl⟩ := mem_map.1 he
        exact ⟨(h c hc).1, (h c hc).2.1⟩
      · intro pre i post hsplit u hu
        obtain ⟨c, hc, heq⟩ := mem_map.1 hu
        cases heq
        exact ((range_split hsplit).1 _).2 (hforward c hc)
      · intro pre i post hsplit ready hi hall
        refine popFirst_eq_some hi ?_
        intro v hv
        rcases hall v hv with rfl | hpost
        · exact le_rfl
        · exact ((range_split hsplit).2 v hpost).le
    | hoist =>
      show (Kahn.run popLast n _).reverse = _
      rw [reverse_eq_iff]
      refine Kahn.run_eq popLast_picks ?_ (fun v => by simp) (nodup_reverse.2 nodup_range) ?_ ?_
      · intro e he
        obtain ⟨c, hc, rfl⟩ := mem_map.1 he
        exact ⟨(h c hc).2.1, (h c hc).1⟩
      · intro pre i post hsplit u hu
        obtain ⟨c, hc, heq⟩ := mem_map.1 hu
        cases heq
        have hsplit' : List.range n = post.reverse ++ c.before :: pre.reverse := by
          rw [← reverse_reverse (List.range n), hsplit]
          simp
        -- what stands after a step of the order given stands before it from the end
        have hnot := mt ((range_split hsplit').1 c.after).1 (by have := hforward c hc; omega)
        have hne : c.after ≠ c.before := by have := hforward c hc; omega
        have hin : c.after ∈ List.range n := mem_range.2 (h c hc).2.1
        rw [hsplit', mem_append, mem_cons] at hin
        rcases hin with hin | hin | hin
        · exact absurd hin hnot
        · exact absurd hin hne
        · exact mem_reverse.1 hin
      · intro pre i post hsplit ready hi hall
        have hsplit' : List.range n = post.reverse ++ i :: pre.reverse := by
          rw [← reverse_reverse (List.range n), hsplit]
          simp
        refine popLast_eq_some hi ?_
        intro v hv
        rcases hall v hv with rfl | hpost
        · exact le_rfl
        · exact (((range_split hsplit').1 v).1 (mem_reverse.2 hpost)).le

end Pbps.Order
