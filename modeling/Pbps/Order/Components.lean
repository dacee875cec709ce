/-
The three `components` of `order/schedule.rs`, `order/rename_order.rs` and `object_ref/registry.rs` over one list of edges,
and the order `kahn` gives it. The first two walk alike, and only the first sorts what it finds; the third searches twice.
-/
import Pbps.Lib.Kosaraju
import Pbps.Order.Graph

/-! ## The walk of the rename order -/

namespace Pbps.RenameOrder

open Std (ExtTreeSet)
open Tarjan (Search)
open Tarjan.Search (popTo)
open Std.ExtTreeSet

def leave (s : Search) (v : Nat) (rest : List (Nat × Nat)) : Search :=
  let s := { s with work := rest, low := s.lowerParent v rest }
  if some (s.low v) = s.index v then
    { s with stack := (popTo v s.stack).2, found := s.found ++ [(popTo v s.stack).1] }
  else s

def step (successors : Nat → List Nat) (s : Search) : Search :=
  match s.work with
  | [] => s
  | (v, child) :: rest =>
    match (successors v)[child]? with
    | some w => s.look v child w rest
    | none => leave s v rest

def searchFrom (n : Nat) (successors : Nat → List Nat) (s : Search) (root : Nat) : Search :=
  if s.index root = none then (step successors)^[Tarjan.turns n successors] (s.enter root) else s

def successors (edges : List (ExtTreeSet Nat)) (v : Nat) : List Nat := (edges.getD v ∅).toList

def components (edges : List (ExtTreeSet Nat)) : List (List Nat) :=
  ((List.range edges.length).foldl (searchFrom edges.length (successors edges)) {}).found

def sorted (s : Search) : Search := { s with found := s.found.map (·.insertionSort (· ≤ ·)) }

variable {out : Nat → List Nat} {s : Search}

theorem sorted_enter (w : Nat) : (sorted s).enter w = sorted (s.enter w) := rfl

theorem sorted_look (v child w : Nat) (rest : List (Nat × Nat)) : (sorted s).look v child w rest = sorted (s.look v child w rest) := by
  unfold Search.look
  dsimp only [sorted]
  split
  · rfl
  · split <;> rfl

theorem sorted_leave (v : Nat) (rest : List (Nat × Nat)) : (sorted s).leave v rest = sorted (leave s v rest) := by
  have hlow : (sorted s).lowerParent v rest = s.lowerParent v rest := by cases rest <;> rfl
  unfold Search.leave leave
  simp only [hlow]
  by_cases h : some (s.lowerParent v rest v) = s.index v <;> simp [sorted, h]

theorem sorted_step : Function.Semiconj sorted (step out) (Search.step out) := by
  intro s
  have hwork : (sorted s).work = s.work := rfl
  unfold step Search.step
  rw [hwork]
  cases s.work with
  | nil => rfl
  | cons e rest =>
    obtain ⟨v, child⟩ := e
    dsimp only
    cases (out v)[child]? with
    | none => exact (sorted_leave _ _).symm
    | some w => exact (sorted_look _ _ _ _).symm

theorem sorted_searchFrom (n root : Nat) : Tarjan.searchFrom n out (sorted s) root = sorted (searchFrom n out s root) := by
  by_cases h : s.index root = none
  · have h' : (sorted s).index root = none := h
    rw [searchFrom, Tarjan.searchFrom, if_pos h, if_pos h', sorted_enter, (sorted_step.iterate_right _).eq]
  · have h' : (sorted s).index root ≠ none := h
    rw [searchFrom, Tarjan.searchFrom, if_neg h, if_neg h']

theorem sorted_foldl (n : Nat) (roots : List Nat) :
    roots.foldl (Tarjan.searchFrom n out) {} = sorted (roots.foldl (searchFrom n out) {}) := by
  show roots.foldl (Tarjan.searchFrom n out) (sorted {}) = _
  exact List.foldl_hom sorted fun _ _ => sorted_searchFrom _ _

end Pbps.RenameOrder

namespace Pbps.Order

open Std (ExtTreeMap ExtTreeSet)
open Relation (TransGen)
open Component (Partition)
open List

/-! ## One list of edges -/

def waits (n : Nat) (l : List Constraint) : List (ExtTreeSet Nat) := (List.range n).map fun v => ExtTreeSet.ofList (outgoing l v)

def labels (n : Nat) (l : List Constraint) : ExtTreeMap Nat (ExtTreeSet Nat) :=
  .ofList ((List.range n).map fun v => (v, ExtTreeSet.ofList (outgoing l v)))

/-- A walk has nothing open when its turns are up, whatever number of its roots it has taken. -/
def Ends (n : Nat) (searchFrom : Tarjan.Search → Nat → Tarjan.Search) : Prop :=
  ∀ k ≤ n, ((List.range k).foldl searchFrom {}).work = []

/-- An order of all the steps in which every edge runs forward. -/
structure Topological (n : Nat) (l : List Constraint) (order : List Nat) : Prop where
  perm : order.Perm (List.range n)
  forward : ∀ c ∈ l, order.idxOf c.before < order.idxOf c.after

instance (n : Nat) (l : List Constraint) (order : List Nat) : Decidable (Topological n l order) :=
  decidable_of_iff (order.Perm (List.range n) ∧ ∀ c ∈ l, order.idxOf c.before < order.idxOf c.after)
    ⟨fun h => ⟨h.1, h.2⟩, fun h => ⟨h.1, h.2⟩⟩

variable {n : Nat} {l : List Constraint} {order : List Nat} (hin : ∀ c ∈ l, c.before < n ∧ c.after < n)

include hin

omit hin in
theorem ends_searchFrom {out : Nat → List Nat} (hout : ∀ u w, w ∈ out u → w < n) : Ends n (Tarjan.searchFrom n out) :=
  fun _ hk => (Tarjan.foldl_searchFrom_idle hout (fun _ hr => (mem_range.1 hr).trans_le hk)
    ⟨Tarjan.Search.inv_init, rfl⟩).work

theorem schedule_components : Ends n (Tarjan.searchFrom n (outgoing l)) ∧
    Partition (Edge (listed l)) (· < n) (components n l) :=
  ⟨ends_searchFrom (outgoing_lt fun c hc => (hin c hc).2), components_partition fun c hc => (hin c hc).2⟩

theorem mem_successors {u w : Nat} : w ∈ RenameOrder.successors (waits n l) u ↔ Edge (listed l) u w := by
  rw [← mem_outgoing, RenameOrder.successors, waits, ExtTreeSet.mem_toList]
  by_cases hu : u < n
  · simp [hu]
  · have hnot : w ∉ outgoing l u := fun hw => by
      obtain ⟨c, hc, rfl, -⟩ := mem_outgoing.1 hw
      exact hu (hin c hc).1
    simp [hu, hnot]

theorem rename_components : Ends n (RenameOrder.searchFrom n (RenameOrder.successors (waits n l))) ∧
    Partition (Edge (listed l)) (· < n) (RenameOrder.components (waits n l)) := by
  have hedge : (fun u w => w ∈ RenameOrder.successors (waits n l) u) = Edge (listed l) := by
    funext u w
    exact propext (mem_successors hin)
  have hout : ∀ u w, w ∈ RenameOrder.successors (waits n l) u → w < n :=
    fun u w hw => outgoing_lt (fun c hc => (hin c hc).2) u w (mem_outgoing.2 ((mem_successors hin).1 hw))
  have hfound := Tarjan.found_partition hout
  have hends := ends_searchFrom hout
  rw [hedge, RenameOrder.sorted_foldl] at hfound
  refine ⟨fun k hk => ?_, ?_⟩
  · have hwork := hends k hk
    rw [RenameOrder.sorted_foldl] at hwork
    exact hwork
  · have hlen : (waits n l).length = n := by simp [waits]
    rw [RenameOrder.components, hlen]
    exact .of_map (fun _ => perm_insertionSort _ _) hfound

theorem registry_components : ∃ found, Kosaraju.components (labels n l) = .ok found ∧
    Partition (Edge (listed l)) (· < n) found := by
  obtain ⟨found, hrun, hfound⟩ := Kosaraju.components_spec (labels n l)
  have hnodup : (((List.range n).map fun v => (v, ExtTreeSet.ofList (outgoing l v))).map Prod.fst).Nodup := by
    rw [map_map]
    exact (map_id _).symm ▸ nodup_range
  have hget : ∀ u on, (labels n l)[u]? = some on ↔ u < n ∧ ExtTreeSet.ofList (outgoing l u) = on := by
    intro u on
    rw [labels, ExtTreeMap.getElem?_ofList_eq_some hnodup, mem_map]
    simp only [mem_range, Prod.mk.injEq]
    exact ⟨fun ⟨v, hv, he, hon⟩ => he ▸ ⟨hv, hon⟩, fun ⟨hu, hon⟩ => ⟨u, hu, rfl, hon⟩⟩
  have hedge : Kosaraju.Leads (labels n l) = Edge (listed l) := by
    funext u w
    rw [← propext mem_outgoing, Kosaraju.Leads, ExtTreeMap.getD_eq_getD_getElem?]
    by_cases hu : u < n
    · rw [(hget u _).2 ⟨hu, rfl⟩]
      simp
    · have hnone : (labels n l)[u]? = none := Option.eq_none_iff_forall_ne_some.2 fun on hon => hu ((hget u on).1 hon).1
      have hnot : w ∉ outgoing l u := fun hw => by
        obtain ⟨c, hc, rfl, -⟩ := mem_outgoing.1 hw
        exact hu (hin c hc).1
      rw [hnone]
      simp [hnot]
  rw [hedge] at hfound
  have hvertex : (fun v => v ∈ labels n l ∨ ∃ u, Edge (listed l) u v) = (· < n) := by
    funext v
    refine propext ⟨?_, fun hv => .inl (ExtTreeMap.mem_iff_exists.2 ⟨_, (hget v _).2 ⟨hv, rfl⟩⟩)⟩
    rintro (hv | ⟨u, c, hc, -, rfl⟩)
    · obtain ⟨on, hon⟩ := ExtTreeMap.mem_iff_exists.1 hv
      exact ((hget v on).1 hon).1
    · exact (hin c hc).2
  exact ⟨found, hrun, hvertex ▸ hfound⟩

/-! ## The order of an acyclic list -/

section Order

variable (hacyclic : ∀ v, ¬ TransGen (Edge (listed l)) v v)

include hacyclic

theorem kahn_topological (tie : Tie) : Topological n l (kahn n l tie) := by
  have hrange : InRange n (listed l) :=
    fun c hc => ⟨(hin c hc).1, (hin c hc).2, fun heq => hacyclic c.before (.single ⟨c, hc, rfl, heq.symm⟩)⟩
  have horder := kahn_isOrder hrange tie
  have hlen : ¬ (kahn n l tie).length < n := by
    rw [horder.length_lt_iff hrange]
    exact not_exists.2 hacyclic
  refine ⟨horder.perm_range hlen, fun c hc => ?_⟩
  exact (horder.forward _ _ (edge_of_mem hc) (horder.mem_of_length hlen (hin c hc).1) (horder.mem_of_length hlen (hin c hc).2)).2.2

omit hin hacyclic in
theorem mem_of_idxOf_lt {pre post : List Nat} {u v : Nat} (hnodup : (pre ++ v :: post).Nodup)
    (h : (pre ++ v :: post).idxOf u < (pre ++ v :: post).idxOf v) : u ∈ pre := by
  rw [nodup_middle, nodup_cons, mem_append, not_or] at hnodup
  by_contra hu
  rw [idxOf_append_of_notMem hnodup.1.1, idxOf_append_of_notMem hu, idxOf_cons_self] at h
  omega

/-- Of all orders that meet the edges, the sinking tie gives the least. -/
theorem kahn_sink_least (h : Topological n l order) : order = kahn n l .sink ∨ List.Lex (· < ·) (kahn n l .sink) order := by
  have hnodup : order.Nodup := h.perm.nodup_iff.2 nodup_range
  have hpick : ∀ ready i, popFirst ready = some i → ∀ j ∈ ready, j = i ∨ i < j := by
    intro ready i hi j hj
    obtain ⟨rest, hrest⟩ := List.head?_eq_some_iff.1 hi
    rw [← ExtTreeSet.mem_toList, hrest] at hj
    rcases mem_cons.1 hj with rfl | hj
    · exact .inl rfl
    · have hsorted := ExtTreeSet.ordered_toList (t := ready)
      rw [hrest] at hsorted
      exact .inr (compare_lt_iff_lt.1 (rel_of_pairwise_cons hsorted hj))
  refine (Kahn.run_least popFirst_picks ?_ hpick).eq_or_lex (fun v hv => mem_range.1 (h.perm.mem_iff.1 hv)) hnodup ?_ []
    (kahn n l .sink) order rfl rfl ((kahn_topological hin hacyclic .sink).perm.trans h.perm.symm).length_eq
  · intro e he
    obtain ⟨c, hc, rfl⟩ := mem_map.1 he
    exact hin c hc
  · rintro pre v post rfl u hu
    obtain ⟨c, hc, he⟩ := mem_map.1 hu
    cases he
    exact mem_of_idxOf_lt hnodup (h.forward c hc)

theorem kahn_hoist_least (h : Topological n l order) :
    order = kahn n l .hoist ∨ List.Lex (· > ·) (kahn n l .hoist).reverse order.reverse := by
  have hnodup : order.Nodup := h.perm.nodup_iff.2 nodup_range
  have hmem : ∀ {v}, v ∈ order ↔ v < n := h.perm.mem_iff.trans mem_range
  have hpick : ∀ ready i, popLast ready = some i → ∀ j ∈ ready, j = i ∨ i > j := by
    intro ready i hi j hj
    obtain ⟨rest, hrest⟩ := List.getLast?_eq_some_iff.1 hi
    rw [← ExtTreeSet.mem_toList, hrest, mem_append, mem_singleton] at hj
    rcases hj with hj | rfl
    · have hsorted := ExtTreeSet.ordered_toList (t := ready)
      rw [hrest, pairwise_append] at hsorted
      exact .inr (compare_lt_iff_lt.1 (hsorted.2.2 j hj i (by simp)))
    · exact .inl rfl
  have hedges : ∀ e ∈ l.map fun c => (c.after, c.before), e.1 < n ∧ e.2 < n := by
    intro e he
    obtain ⟨c, hc, rfl⟩ := mem_map.1 he
    exact (hin c hc).symm
  have hperm := (kahn_topological hin hacyclic .hoist).perm.trans h.perm.symm
  rw [kahn, ← reverse_eq_iff, reverse_reverse]
  refine (Kahn.run_least popLast_picks hedges hpick).eq_or_lex (fun v hv => hmem.1 (mem_reverse.1 hv))
    (nodup_reverse.2 hnodup) ?_ [] _ order.reverse rfl rfl ?_
  · intro pre v post heq u hu
    obtain ⟨c, hc, he⟩ := mem_map.1 hu
    cases he
    refine mem_of_idxOf_lt (heq ▸ nodup_reverse.2 hnodup) ?_
    rw [← heq]
    have h1 := idxOf_reverse hnodup (hmem.2 (hin c hc).1)
    have h2 := idxOf_reverse hnodup (hmem.2 (hin c hc).2)
    have := h.forward c hc
    omega
  · simpa [kahn] using hperm.length_eq

end Order

/-- The three routines end with the strongly connected components, the same ones, and `kahn` orders an acyclic list: the
least order, or, from the end, the one whose last is the greatest. -/
theorem components_exact : (Ends n (Tarjan.searchFrom n (outgoing l)) ∧ Partition (Edge (listed l)) (· < n) (components n l)) ∧
    (Ends n (RenameOrder.searchFrom n (RenameOrder.successors (waits n l))) ∧
      Partition (Edge (listed l)) (· < n) (RenameOrder.components (waits n l))) ∧
    (∃ found, Kosaraju.components (labels n l) = .ok found ∧ Partition (Edge (listed l)) (· < n) found ∧
      (∀ c ∈ components n l, ∃ d ∈ RenameOrder.components (waits n l), c.Perm d) ∧
      (∀ c ∈ RenameOrder.components (waits n l), ∃ d ∈ found, c.Perm d) ∧ ∀ c ∈ found, ∃ d ∈ components n l, c.Perm d) ∧
    ((∀ v, ¬ TransGen (Edge (listed l)) v v) → (∀ tie, Topological n l (kahn n l tie)) ∧ ∀ order, Topological n l order →
      (order = kahn n l .sink ∨ List.Lex (· < ·) (kahn n l .sink) order) ∧
        (order = kahn n l .hoist ∨ List.Lex (· > ·) (kahn n l .hoist).reverse order.reverse)) := by
  have hs := schedule_components hin
  have hr := rename_components hin
  obtain ⟨found, hrun, hfound⟩ := registry_components hin
  refine ⟨hs, hr, ⟨found, hrun, hfound, ?_, ?_, ?_⟩, fun hacyclic => ⟨kahn_topological hin hacyclic, fun order h => ?_⟩⟩
  · exact fun c hc => hs.2.exists_perm hr.2 hc
  · exact fun c hc => hr.2.exists_perm hfound hc
  · exact fun c hc => hfound.exists_perm hs.2 hc
  · exact ⟨kahn_sink_least hin hacyclic h, kahn_hoist_least hin hacyclic h⟩

/-- The order and the components go by the edges alone, in whatever order and however often a list states them. -/
theorem order_of_edges {l' : List Constraint} (h : ∀ u v, Edge (listed l) u v ↔ Edge (listed l') u v) :
    (∀ c ∈ components n l, ∃ d ∈ components n l', c.Perm d) ∧
      ((∀ v, ¬ TransGen (Edge (listed l)) v v) → ∀ tie, kahn n l tie = kahn n l' tie) := by
  have hedge : Edge (listed l) = Edge (listed l') := funext fun u => funext fun v => propext (h u v)
  have hin' : ∀ c ∈ l', c.before < n ∧ c.after < n := by
    intro c hc
    obtain ⟨c', hc', hbefore, hafter⟩ := (h _ _).2 (edge_of_mem hc)
    exact hbefore ▸ hafter ▸ hin c' hc'
  refine ⟨fun c hc => (schedule_components hin).2.exists_perm (hedge ▸ (schedule_components hin').2) hc, fun hacyclic tie => ?_⟩
  have hacyclic' : ∀ v, ¬ TransGen (Edge (listed l')) v v := hedge ▸ hacyclic
  have htop : ∀ {l₁ l₂ order}, Edge (listed l₁) = Edge (listed l₂) → Topological n l₁ order → Topological n l₂ order := by
    intro l₁ l₂ order heq ho
    refine ⟨ho.perm, fun c hc => ?_⟩
    have hc : Edge (listed l₁) c.before c.after := heq.symm ▸ edge_of_mem hc
    obtain ⟨c', hc', hbefore, hafter⟩ := hc
    exact hbefore ▸ hafter ▸ ho.forward c' hc'
  have hk := htop hedge (kahn_topological hin hacyclic tie)
  have hk' := htop hedge.symm (kahn_topological hin' hacyclic' tie)
  -- each of the two is least among the orders, so neither is before the other
  cases tie with
  | sink =>
    rcases kahn_sink_least hin hacyclic hk' with heq | hlt
    · exact heq.symm
    · exact (kahn_sink_least hin' hacyclic' hk).resolve_right (asymm hlt)
  | hoist =>
    rcases kahn_hoist_least hin hacyclic hk' with heq | hlt
    · exact heq.symm
    · exact (kahn_hoist_least hin' hacyclic' hk).resolve_right (asymm hlt)

omit hin

def lateEdge : Constraint := ⟨2, 0, .declared, .structural⟩

theorem acyclic_of_backward {l : List Constraint} (h : ∀ c ∈ l, c.after < c.before) (v : Nat) :
    ¬ TransGen (Edge (listed l)) v v := by
  have hdown : ∀ u v, TransGen (Edge (listed l)) u v → v < u := by
    intro u v hlead
    have hedge : ∀ a b, Edge (listed l) a b → b < a := by
      rintro a b ⟨c, hc, rfl, rfl⟩
      exact h c hc
    induction hlead with
    | single hstep => exact hedge _ _ hstep
    | tail _ hstep ih => exact (hedge _ _ hstep).trans ih
  exact fun hcycle => lt_irrefl v (hdown v v hcycle)

theorem lateEdge_acyclic (v : Nat) : ¬ TransGen (Edge (listed [lateEdge])) v v := acyclic_of_backward (by decide) v

/-- A cycle of three steps, and a step that waits for it. -/
def waitingCycle : List Constraint :=
  [⟨0, 2, .effect, .structural⟩, ⟨3, 0, .declared, .structural⟩, ⟨2, 3, .effect, .structural⟩, ⟨2, 1, .effect, .structural⟩]

theorem components_exact_late :
    (Partition (Edge (listed waitingCycle)) (· < 4) (components 4 waitingCycle) ∧ [0, 2, 3] ∈ components 4 waitingCycle ∧
      ∃ found, Kosaraju.components (labels 4 waitingCycle) = .ok found ∧ ∃ c ∈ found, [0, 2, 3].Perm c) ∧
    Topological 3 [lateEdge] (kahn 3 [lateEdge] .sink) := by
  obtain ⟨⟨-, hpartition⟩, -, ⟨found, hrun, -, hrename, hregistry, -⟩, -⟩ :=
    components_exact (n := 4) (l := waitingCycle) (by decide)
  have hmem : [0, 2, 3] ∈ components 4 waitingCycle := by decide
  obtain ⟨c, hc, hfirst⟩ := hrename _ hmem
  obtain ⟨d, hd, hsecond⟩ := hregistry c hc
  refine ⟨⟨hpartition, hmem, found, hrun, d, hd, hfirst.trans hsecond⟩, ?_⟩
  exact ((components_exact (n := 3) (l := [lateEdge]) (by decide)).2.2.2 lateEdge_acyclic).1 .sink

def lateEdges : List Constraint := [lateEdge, ⟨2, 1, .guess, .structural⟩]

theorem order_of_edges_late : kahn 3 lateEdges .hoist = kahn 3 (lateEdges.reverse ++ [lateEdge]) .hoist := by
  refine (order_of_edges (n := 3) (l := lateEdges) (by decide) fun u v => ?_).2 (acyclic_of_backward (by decide)) .hoist
  simp [Edge, listed, lateEdges]
  tauto

/-- Walked from the end, the order of an acyclic list need not be the least. -/
theorem kahn_hoist_not_least : (∀ v, ¬ TransGen (Edge (listed [lateEdge])) v v) ∧ Topological 3 [lateEdge] [1, 2, 0] ∧
    List.Lex (· < ·) [1, 2, 0] (kahn 3 [lateEdge] .hoist) := by
  have hoist : kahn 3 [lateEdge] .hoist = [2, 0, 1] := by decide
  exact ⟨lateEdge_acyclic, by decide, hoist ▸ .rel (by decide)⟩

end Pbps.Order
