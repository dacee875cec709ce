/-
Kahn's algorithm over the vertices below `n`: a vertex is placed once nothing that is not placed leads to
it, and which of the vertices that are ready goes first is the caller's choice. What it leaves out waits on
one another.
-/
import Pbps.Lib.Map
import Mathlib.Data.Fintype.Order

namespace Kahn

open Std (ExtTreeSet)
open List Std.ExtTreeSet

/-! ## The algorithm -/

/-- How many edges come in, and where those that go out lead, by vertex. -/
structure Links where
  incoming : Nat → Nat := fun _ => 0
  outgoing : Nat → ExtTreeSet Nat := fun _ => ∅

def Links.add (l : Links) (e : Nat × Nat) : Links :=
  if (l.outgoing e.1).contains e.2 then l
  else
    { incoming := Function.update l.incoming e.2 (l.incoming e.2 + 1)
      outgoing := Function.update l.outgoing e.1 ((l.outgoing e.1).insert e.2) }

def links (edges : List (Nat × Nat)) : Links := edges.foldl Links.add {}

structure State where
  incoming : Nat → Nat
  ready : ExtTreeSet Nat
  placed : List Nat

namespace State

def release (s : State) (after : Nat) : State :=
  let left := s.incoming after - 1
  { s with
    incoming := Function.update s.incoming after left
    ready := if left = 0 then s.ready.insert after else s.ready }

def place (outgoing : Nat → ExtTreeSet Nat) (s : State) (i : Nat) : State :=
  (outgoing i).toList.foldl release { s with ready := s.ready.erase i, placed := s.placed ++ [i] }

def step (pick : ExtTreeSet Nat → Option Nat) (outgoing : Nat → ExtTreeSet Nat) (s : State) : State :=
  match pick s.ready with
  | none => s
  | some i => s.place outgoing i

end State

def start (n : Nat) (edges : List (Nat × Nat)) : State where
  incoming := (links edges).incoming
  ready := .ofList ((List.range n).filter fun i => (links edges).incoming i = 0)
  placed := []

def run (pick : ExtTreeSet Nat → Option Nat) (n : Nat) (edges : List (Nat × Nat)) : List Nat :=
  ((State.step pick (links edges).outgoing)^[n] (start n edges)).placed

/-! ## Counting -/

variable {n : Nat} {edges : List (Nat × Nat)}

theorem mem_outgoing_add (l : Links) (e : Nat × Nat) (u v : Nat) :
    v ∈ (l.add e).outgoing u ↔ v ∈ l.outgoing u ∨ (u, v) = e := by
  unfold Links.add
  split
  · rename_i hc
    constructor
    · exact .inl
    · rintro (h | rfl)
      · exact h
      · exact ExtTreeSet.contains_iff_mem.1 hc
  · dsimp only
    by_cases hu : u = e.1
    · subst hu
      rw [Function.update_self, mem_insert, Std.compare_eq_iff_eq]
      constructor
      · rintro (rfl | h)
        · exact .inr rfl
        · exact .inl h
      · rintro (h | h)
        · exact .inr h
        · exact .inl (by rw [← h])
    · rw [Function.update_of_ne hu]
      constructor
      · exact .inl
      · rintro (h | rfl)
        · exact h
        · exact absurd rfl hu

/-- The vertices below `n` that lead to `v`. -/
def sources (n : Nat) (l : Links) (v : Nat) : Finset Nat := (Finset.range n).filter fun u => v ∈ l.outgoing u

theorem incoming_add {l : Links} {e : Nat × Nat} (hn : e.1 < n) (h : ∀ v, l.incoming v = (sources n l v).card) (v : Nat) :
    (l.add e).incoming v = (sources n (l.add e) v).card := by
  by_cases hc : (l.outgoing e.1).contains e.2
  · have hsame : l.add e = l := by simp [Links.add, hc]
    rw [hsame]
    exact h v
  have hincoming : (l.add e).incoming = Function.update l.incoming e.2 (l.incoming e.2 + 1) := by simp [Links.add, hc]
  rw [hincoming]
  by_cases hv : v = e.2
  · subst hv
    have hsources : sources n (l.add e) e.2 = insert e.1 (sources n l e.2) := by
      ext u
      simp only [sources, Finset.mem_filter, Finset.mem_range, Finset.mem_insert, mem_outgoing_add]
      constructor
      · rintro ⟨hu, h | h⟩
        · exact .inr ⟨hu, h⟩
        · exact .inl (by rw [← h])
      · rintro (rfl | ⟨hu, h⟩)
        · exact ⟨hn, .inr rfl⟩
        · exact ⟨hu, .inl h⟩
    have hnew : e.1 ∉ sources n l e.2 := by
      intro hm
      exact hc (ExtTreeSet.contains_iff_mem.2 (Finset.mem_filter.1 hm).2)
    rw [Function.update_self, hsources, Finset.card_insert_of_notMem hnew, h]
  · have hsources : sources n (l.add e) v = sources n l v := by
      ext u
      simp only [sources, Finset.mem_filter, mem_outgoing_add]
      constructor
      · rintro ⟨hu, h | h⟩
        · exact ⟨hu, h⟩
        · exact absurd (by rw [← h]) hv
      · rintro ⟨hu, h⟩
        exact ⟨hu, .inl h⟩
    rw [Function.update_of_ne hv, hsources, h]

theorem foldl_add_spec : ∀ (edges : List (Nat × Nat)) {l : Links}, (∀ e ∈ edges, e.1 < n) →
    (∀ v, l.incoming v = (sources n l v).card) →
      (∀ u v, v ∈ (edges.foldl Links.add l).outgoing u ↔ v ∈ l.outgoing u ∨ (u, v) ∈ edges) ∧
        ∀ v, (edges.foldl Links.add l).incoming v = (sources n (edges.foldl Links.add l) v).card
  | [], l, _, h => ⟨by simp, h⟩
  | e :: edges, l, hn, h => by
    have hrest := foldl_add_spec edges (l := l.add e) (fun e' he => hn e' (mem_cons_of_mem _ he))
      (incoming_add (hn e mem_cons_self) h)
    rw [foldl_cons]
    refine ⟨?_, hrest.2⟩
    intro u v
    rw [hrest.1, mem_outgoing_add, mem_cons, or_assoc]

theorem mem_outgoing_links (hn : ∀ e ∈ edges, e.1 < n) (u v : Nat) : v ∈ (links edges).outgoing u ↔ (u, v) ∈ edges := by
  have h := (foldl_add_spec edges (n := n) (l := {}) hn (by simp [sources])).1 u v
  rw [links, h]
  simp

theorem incoming_links (hn : ∀ e ∈ edges, e.1 < n) (v : Nat) :
    (links edges).incoming v = ((Finset.range n).filter fun u => (u, v) ∈ edges).card := by
  have h := (foldl_add_spec edges (n := n) (l := {}) hn (by simp [sources])).2 v
  rw [links, h]
  congr 1
  ext u
  simp only [sources, Finset.mem_filter]
  rw [← links, mem_outgoing_links hn]

/-! ## One vertex is placed -/

namespace State

theorem foldl_release : ∀ (targets : List Nat) {s : State}, targets.Nodup →
    (∀ v, (targets.foldl release s).incoming v = if v ∈ targets then s.incoming v - 1 else s.incoming v) ∧
      (∀ v, v ∈ (targets.foldl release s).ready ↔ v ∈ s.ready ∨ (v ∈ targets ∧ s.incoming v - 1 = 0)) ∧
        (targets.foldl release s).placed = s.placed
  | [], s, _ => by simp
  | t :: targets, s, hnodup => by
    obtain ⟨ht, hnodup⟩ := nodup_cons.1 hnodup
    obtain ⟨hin, hready, hplaced⟩ := foldl_release targets (s := s.release t) hnodup
    rw [foldl_cons]
    have hother : ∀ v, v ≠ t → (s.release t).incoming v = s.incoming v := fun v hv => by simp [release, hv]
    have hself : (s.release t).incoming t = s.incoming t - 1 := by simp [release]
    refine ⟨?_, ?_, hplaced⟩
    · intro v
      rw [hin]
      by_cases hv : v = t
      · subst hv
        rw [if_neg ht, if_pos mem_cons_self, hself]
      · rw [hother v hv]
        simp [hv]
    · intro v
      rw [hready]
      have hmem : v ∈ (s.release t).ready ↔ v ∈ s.ready ∨ (v = t ∧ s.incoming t - 1 = 0) := by
        unfold release
        dsimp only
        split
        · rename_i hz
          rw [mem_insert, Std.compare_eq_iff_eq]
          constructor
          · rintro (rfl | h)
            · exact .inr ⟨rfl, hz⟩
            · exact .inl h
          · rintro (h | ⟨rfl, -⟩)
            · exact .inr h
            · exact .inl rfl
        · rename_i hz
          constructor
          · exact .inl
          · rintro (h | ⟨-, h⟩)
            · exact h
            · exact absurd h hz
      rw [hmem, mem_cons]
      by_cases hv : v = t
      · subst hv
        simp [ht]
      · rw [hother v hv]
        simp [hv]

/-- What holds after every step. -/
structure Inv (n : Nat) (edges : List (Nat × Nat)) (s : State) : Prop where
  lt : ∀ v ∈ s.placed, v < n
  nodup : s.placed.Nodup
  incoming : ∀ v, s.incoming v = ((Finset.range n).filter fun u => u ∉ s.placed ∧ (u, v) ∈ edges).card
  ready : ∀ v, v ∈ s.ready ↔ v < n ∧ v ∉ s.placed ∧ s.incoming v = 0
  before : ∀ pre v post, s.placed = pre ++ v :: post → ∀ u, (u, v) ∈ edges → u ∈ pre

variable {s : State} (hn : ∀ e ∈ edges, e.1 < n ∧ e.2 < n)

include hn

theorem inv_start : (start n edges).Inv n edges where
  lt v hv := by cases hv
  nodup := nodup_nil
  incoming v := by
    rw [show (start n edges).incoming = (links edges).incoming from rfl, incoming_links (fun e he => (hn e he).1)]
    simp [start]
  ready v := by simp [start]
  before pre v post h := by simp [start] at h

theorem Inv.incoming_eq_zero (h : s.Inv n edges) {v : Nat} : s.incoming v = 0 ↔ ∀ u, (u, v) ∈ edges → u ∈ s.placed := by
  rw [h.incoming, Finset.card_eq_zero, Finset.filter_eq_empty_iff]
  constructor
  · intro hall u hu
    by_contra hnot
    exact hall (Finset.mem_range.2 (hn _ hu).1) ⟨hnot, hu⟩
  · rintro hall u - ⟨hnot, hu⟩
    exact hnot (hall u hu)

/-- Placing what is ready keeps the invariant. -/
theorem inv_place (h : s.Inv n edges) {i : Nat} (hi : i ∈ s.ready) :
    (s.place (links edges).outgoing i).Inv n edges ∧ (s.place (links edges).outgoing i).placed = s.placed ++ [i] := by
  obtain ⟨hin, hnew, hzero⟩ := (h.ready i).1 hi
  have hpreds := (h.incoming_eq_zero hn).1 hzero
  have hmem : ∀ v, v ∈ ((links edges).outgoing i).toList ↔ (i, v) ∈ edges := by
    intro v
    rw [mem_toList, mem_outgoing_links fun e he => (hn e he).1]
  have hnodup : ((links edges).outgoing i).toList.Nodup := by
    refine (distinct_toList (t := (links edges).outgoing i)).imp ?_
    rintro a b hab rfl
    exact hab Std.ReflCmp.compare_self
  obtain ⟨hincoming, hready, hplaced⟩ :=
    foldl_release _ (s := { s with ready := s.ready.erase i, placed := s.placed ++ [i] }) hnodup
  have hnoself : (i, i) ∉ edges := fun hself => hnew (hpreds i hself)
  refine ⟨?_, hplaced⟩
  constructor
  case lt =>
    intro v hv
    rw [place, hplaced, mem_append, mem_singleton] at hv
    rcases hv with hv | rfl
    · exact h.lt v hv
    · exact hin
  case nodup =>
    rw [place, hplaced, nodup_append]
    refine ⟨h.nodup, nodup_singleton i, ?_⟩
    intro a ha b hb
    rw [mem_singleton] at hb
    subst hb
    rintro rfl
    exact hnew ha
  case incoming =>
    intro v
    rw [place, hincoming, hplaced]
    dsimp only
    rw [h.incoming]
    by_cases hv : (i, v) ∈ edges
    · rw [if_pos ((hmem v).2 hv)]
      have hcut : ((Finset.range n).filter fun u => u ∉ s.placed ++ [i] ∧ (u, v) ∈ edges) =
          ((Finset.range n).filter fun u => u ∉ s.placed ∧ (u, v) ∈ edges).erase i := by
        ext u
        simp only [Finset.mem_filter, Finset.mem_erase, mem_append, mem_singleton, not_or]
        tauto
      rw [hcut, Finset.card_erase_of_mem]
      exact Finset.mem_filter.2 ⟨Finset.mem_range.2 hin, hnew, hv⟩
    · rw [if_neg fun hm => hv ((hmem v).1 hm)]
      congr 1
      ext u
      simp only [Finset.mem_filter, mem_append, mem_singleton, not_or]
      constructor
      · rintro ⟨h1, h2, h3⟩
        refine ⟨h1, ⟨h2, ?_⟩, h3⟩
        rintro rfl
        exact hv h3
      · rintro ⟨h1, ⟨h2, -⟩, h3⟩
        exact ⟨h1, h2, h3⟩
  case ready =>
    intro v
    rw [place, hready, hincoming, hplaced]
    dsimp only
    have hcompare : compare i v ≠ .eq ↔ v ≠ i := by
      rw [ne_eq, Std.compare_eq_iff_eq, eq_comm]
    simp only [hmem]
    rw [mem_erase, mem_append, mem_singleton, not_or, h.ready, hcompare]
    constructor
    · rintro (⟨hvi, hv, hp, hz⟩ | ⟨hedge, hz⟩)
      · refine ⟨hv, ⟨hp, hvi⟩, ?_⟩
        split <;> omega
      · refine ⟨(hn _ hedge).2, ⟨?_, ?_⟩, ?_⟩
        · -- what leads to a placed vertex is placed
          intro hp
          obtain ⟨pre, post, heq⟩ := append_of_mem hp
          exact hnew (heq ▸ mem_append_left _ (h.before pre v post heq i hedge))
        · rintro rfl
          exact hnoself hedge
        · rw [if_pos hedge]
          exact hz
    · rintro ⟨hv, ⟨hp, hvi⟩, hz⟩
      by_cases hedge : (i, v) ∈ edges
      · rw [if_pos hedge] at hz
        exact .inr ⟨hedge, hz⟩
      · rw [if_neg hedge] at hz
        exact .inl ⟨hvi, hv, hp, hz⟩
  case before =>
    intro pre v post heq u hu
    rw [place, hplaced] at heq
    dsimp only at heq
    rcases eq_nil_or_concat post with rfl | ⟨post', w, rfl⟩
    · obtain ⟨rfl, hvi⟩ := append_inj' heq rfl
      cases hvi
      exact hpreds u hu
    · have hcut : s.placed ++ [i] = (pre ++ v :: post') ++ [w] := by simp [heq]
      obtain ⟨hcut, -⟩ := append_inj' hcut rfl
      exact h.before pre v post' hcut u hu

end State

/-! ## A whole run -/

/-- A choice of what goes first among what is ready. -/
structure Picks (pick : ExtTreeSet Nat → Option Nat) : Prop where
  mem : ∀ ready i, pick ready = some i → i ∈ ready
  none : ∀ ready, pick ready = none → ∀ i, i ∉ ready

/-- What a run places, and what it leaves out. -/
structure Order (n : Nat) (edges : List (Nat × Nat)) (placed : List Nat) : Prop where
  lt : ∀ v ∈ placed, v < n
  nodup : placed.Nodup
  before : ∀ pre v post, placed = pre ++ v :: post → ∀ u, (u, v) ∈ edges → u ∈ pre
  waits : ∀ v < n, v ∉ placed → ∃ u < n, u ∉ placed ∧ (u, v) ∈ edges

section Run

variable {pick : ExtTreeSet Nat → Option Nat} (hpick : Picks pick) (hn : ∀ e ∈ edges, e.1 < n ∧ e.2 < n)

include hpick hn

theorem iterate_step : ∀ (k : Nat) {s : State}, s.Inv n edges →
    ((State.step pick (links edges).outgoing)^[k] s).Inv n edges ∧
      ((∀ i, i ∉ ((State.step pick (links edges).outgoing)^[k] s).ready) ∨
        ((State.step pick (links edges).outgoing)^[k] s).placed.length = s.placed.length + k)
  | 0, s, h => ⟨h, .inr rfl⟩
  | k + 1, s, h => by
    rw [Function.iterate_succ_apply]
    cases hnext : pick s.ready with
    | none =>
      -- nothing is ready, and nothing will be
      have hidle : s.step pick (links edges).outgoing = s := by simp [State.step, hnext]
      rw [hidle, Function.iterate_fixed hidle]
      exact ⟨h, .inl (hpick.none _ hnext)⟩
    | some i =>
      obtain ⟨hinv, hplaced⟩ := State.inv_place hn h (hpick.mem _ _ hnext)
      have hstep : s.step pick (links edges).outgoing = s.place (links edges).outgoing i := by simp [State.step, hnext]
      rw [hstep]
      obtain ⟨hinv', hdone⟩ := iterate_step k hinv
      refine ⟨hinv', hdone.imp_right ?_⟩
      intro hlen
      rw [hlen, hplaced, length_append, length_singleton]
      omega

omit hpick hn in
theorem length_le_of_nodup {l : List Nat} (hnodup : l.Nodup) (hlt : ∀ v ∈ l, v < n) : l.length ≤ n := by
  have hsub : l.toFinset ⊆ Finset.range n := by
    intro v hv
    exact Finset.mem_range.2 (hlt v (mem_toFinset.1 hv))
  have := Finset.card_le_card hsub
  rwa [toFinset_card_of_nodup hnodup, Finset.card_range] at this

omit hpick hn in
theorem mem_of_length_eq {l : List Nat} (hnodup : l.Nodup) (hlt : ∀ v ∈ l, v < n) (hlen : l.length = n) {v : Nat}
    (hv : v < n) : v ∈ l := by
  have hsub : l.toFinset ⊆ Finset.range n := by
    intro v hv
    exact Finset.mem_range.2 (hlt v (mem_toFinset.1 hv))
  have heq := Finset.eq_of_subset_of_card_le hsub (by rw [toFinset_card_of_nodup hnodup, Finset.card_range, hlen])
  rw [← mem_toFinset, heq]
  exact Finset.mem_range.2 hv

theorem run_order : Order n edges (run pick n edges) := by
  obtain ⟨hinv, hdone⟩ := iterate_step hpick hn n (State.inv_start hn)
  refine ⟨hinv.lt, hinv.nodup, hinv.before, ?_⟩
  intro v hv hnot
  have hidle : ∀ i, i ∉ ((State.step pick (links edges).outgoing)^[n] (start n edges)).ready := by
    rcases hdone with hdone | hlen
    · exact hdone
    · -- after `n` steps that each placed one, all are placed
      have hzero : (start n edges).placed.length = 0 := rfl
      exact absurd (mem_of_length_eq hinv.nodup hinv.lt (by omega) hv) hnot
  by_contra hno
  push Not at hno
  refine hidle v ((hinv.ready v).2 ⟨hv, hnot, (hinv.incoming_eq_zero hn).2 fun u hu => ?_⟩)
  by_contra hout
  exact hno u (hn _ hu).1 hout hu

/-- An order in which every edge runs forward, and whose next is always the choice, is the one made. -/
theorem run_eq {order : List Nat} (hmem : ∀ v, v ∈ order ↔ v < n) (hnodup : order.Nodup)
    (hforward : ∀ pre i post, order = pre ++ i :: post → ∀ u, (u, i) ∈ edges → u ∈ pre)
    (hchoice : ∀ pre i post, order = pre ++ i :: post → ∀ ready, i ∈ ready →
      (∀ v ∈ ready, v = i ∨ v ∈ post) → pick ready = some i) : run pick n edges = order := by
  have hlen : order.length = n := by
    have heq : order.toFinset = Finset.range n := by
      ext v
      rw [mem_toFinset, hmem, Finset.mem_range]
    rw [← toFinset_card_of_nodup hnodup, heq, Finset.card_range]
  have htake : ∀ k ≤ n, ((State.step pick (links edges).outgoing)^[k] (start n edges)).placed = order.take k := by
    intro k
    induction k with
    | zero => intro _; rfl
    | succ k ih =>
      intro hk
      have hinv := (iterate_step hpick hn k (State.inv_start hn)).1
      have hplaced := ih (by omega)
      rw [Function.iterate_succ_apply']
      generalize ((State.step pick (links edges).outgoing)^[k] (start n edges)) = s at hinv hplaced
      have hklt : k < order.length := by omega
      have hsplit : order = order.take k ++ order[k] :: order.drop (k + 1) := by
        rw [cons_getElem_drop_succ, take_append_drop]
      have hdisjoint := hnodup
      rw [hsplit, nodup_append] at hdisjoint
      obtain ⟨-, -, hapart⟩ := hdisjoint
      have hnext : pick s.ready = some order[k] := by
        refine hchoice _ _ _ hsplit s.ready ?_ ?_
        · refine (hinv.ready _).2 ⟨(hmem _).1 (getElem_mem hklt), ?_, (hinv.incoming_eq_zero hn).2 ?_⟩
          · rw [hplaced]
            intro hm
            exact hapart _ hm _ mem_cons_self rfl
          · rw [hplaced]
            exact hforward _ _ _ hsplit
        · intro v hv
          obtain ⟨hlt, hnot, -⟩ := (hinv.ready v).1 hv
          have hm := (hmem v).2 hlt
          rw [hsplit, mem_append, mem_cons] at hm
          rw [hplaced] at hnot
          exact hm.resolve_left hnot
      have hstep : s.step pick (links edges).outgoing = s.place (links edges).outgoing order[k] := by
        simp [State.step, hnext]
      rw [hstep, (State.inv_place hn hinv (hpick.mem _ _ hnext)).2, hplaced, take_add_one,
        List.getElem?_eq_getElem hklt, Option.toList_some]
  have hall := htake n le_rfl
  rw [take_of_length_le (by omega)] at hall
  exact hall

/-! ### The least order -/

def Least (n : Nat) (edges : List (Nat × Nat)) (R : Nat → Nat → Prop) (placed : List Nat) : Prop :=
  ∀ pre i post, placed = pre ++ i :: post → ∀ j < n, j ∉ pre → (∀ u, (u, j) ∈ edges → u ∈ pre) → j = i ∨ R i j

variable {R : Nat → Nat → Prop} (hfirst : ∀ ready i, pick ready = some i → ∀ j ∈ ready, j = i ∨ R i j)

include hfirst

theorem least_step {s : State} (h : s.Inv n edges) (hl : Least n edges R s.placed) :
    (s.step pick (links edges).outgoing).Inv n edges ∧ Least n edges R (s.step pick (links edges).outgoing).placed := by
  cases hnext : pick s.ready with
  | none =>
    have hidle : s.step pick (links edges).outgoing = s := by simp [State.step, hnext]
    rw [hidle]
    exact ⟨h, hl⟩
  | some i =>
    obtain ⟨hinv, hplaced⟩ := State.inv_place hn h (hpick.mem _ _ hnext)
    have hstep : s.step pick (links edges).outgoing = s.place (links edges).outgoing i := by simp [State.step, hnext]
    rw [hstep]
    refine ⟨hinv, fun pre k post heq j hj hnot hpreds => ?_⟩
    rw [hplaced] at heq
    rcases eq_nil_or_concat post with rfl | ⟨post, w, rfl⟩
    · obtain ⟨rfl, hk⟩ := append_inj' heq rfl
      cases hk
      exact hfirst _ _ hnext j ((h.ready j).2 ⟨hj, hnot, (h.incoming_eq_zero hn).2 hpreds⟩)
    · obtain ⟨hcut, -⟩ := append_inj' (heq.trans (by simp : _ = (pre ++ k :: post) ++ [w])) rfl
      exact hl pre k post hcut j hj hnot hpreds

theorem run_least : Least n edges R (run pick n edges) := by
  have hstart : Least n edges R (start n edges).placed := fun pre i post heq => by simp [start] at heq
  exact (Function.Iterate.rec (fun s : State => s.Inv n edges ∧ Least n edges R s.placed) ⟨State.inv_start hn, hstart⟩
    (fun s h => least_step hpick hn hfirst h.1 h.2) n).2

omit hpick hn hfirst in
/-- Where the choice was always the least, any other order is greater at the first place where they differ. -/
theorem Least.eq_or_lex {placed order : List Nat} (h : Least n edges R placed) (hlt : ∀ v ∈ order, v < n)
    (hnodup : order.Nodup) (hbefore : ∀ pre v post, order = pre ++ v :: post → ∀ u, (u, v) ∈ edges → u ∈ pre) :
    ∀ (pre p m : List Nat), placed = pre ++ p → order = pre ++ m → p.length = m.length → m = p ∨ List.Lex R p m
  | _, [], [], _, _, _ => .inl rfl
  | pre, i :: p, j :: m, hp, hm, hlen => by
    have hapart : j ∉ pre := by
      rw [hm, nodup_middle, nodup_cons, mem_append, not_or] at hnodup
      exact hnodup.1.1
    rcases h pre i p hp j (hlt j (by simp [hm])) hapart (hbefore pre j m hm) with rfl | hR
    · have hrest := Least.eq_or_lex h hlt hnodup hbefore (pre ++ [j]) p m (by simp [hp]) (by simp [hm]) (by simpa using hlen)
      exact hrest.imp (congrArg _) .cons
    · exact .inr (.rel hR)

end Run

/-! ## What an order says of the edges -/

namespace Order

variable {placed : List Nat} (h : Order n edges placed)

include h

theorem mem_of_edge {u v : Nat} (hv : v ∈ placed) (huv : (u, v) ∈ edges) : u ∈ placed ∧ placed.idxOf u < placed.idxOf v := by
  obtain ⟨pre, post, heq⟩ := append_of_mem hv
  have hu := h.before pre v post heq u huv
  have hvpre : v ∉ pre := by
    have hnodup := h.nodup
    rw [heq, nodup_append] at hnodup
    intro hm
    exact hnodup.2.2 v hm v mem_cons_self rfl
  refine ⟨by rw [heq]; exact mem_append_left _ hu, ?_⟩
  rw [heq, idxOf_append_of_mem hu, idxOf_append_of_notMem hvpre, idxOf_cons_self, Nat.add_zero]
  exact idxOf_lt_length_of_mem hu

theorem mem_of_transGen {u v : Nat} (hv : v ∈ placed) (huv : Relation.TransGen (fun u v => (u, v) ∈ edges) u v) :
    u ∈ placed ∧ placed.idxOf u < placed.idxOf v := by
  induction huv using Relation.TransGen.head_induction_on with
  | single hedge => exact h.mem_of_edge hv hedge
  | head hedge _ ih =>
    obtain ⟨hmem, hlt⟩ := h.mem_of_edge ih.1 hedge
    exact ⟨hmem, hlt.trans ih.2⟩

theorem not_mem_of_cycle {v : Nat} (hv : Relation.TransGen (fun u v => (u, v) ∈ edges) v v) : v ∉ placed :=
  fun hm => lt_irrefl _ (h.mem_of_transGen hm hv).2

theorem exists_cycle {v : Nat} (hv : v < n) (hnot : v ∉ placed) :
    ∃ w < n, w ∉ placed ∧ Relation.TransGen (fun u v => (u, v) ∈ edges) w w := by
  by_contra hno
  push Not at hno
  -- without a cycle a least vertex is left out, and what it waits on is less
  let r : {w // w < n ∧ w ∉ placed} → {w // w < n ∧ w ∉ placed} → Prop :=
    fun a b => Relation.TransGen (fun u v => (u, v) ∈ edges) a.1 b.1
  have hfinite : Finite {w // w < n ∧ w ∉ placed} :=
    Finite.of_injective (fun w => (⟨w.1, w.2.1⟩ : Fin n)) fun a b hab => Subtype.ext (Fin.mk.inj hab)
  have htrans : IsTrans _ r := ⟨fun a b c hab hbc => hab.trans hbc⟩
  have hirrefl : Std.Irrefl r := ⟨fun a ha => hno a.1 a.2.1 a.2.2 ha⟩
  have hwf : WellFounded r := Finite.wellFounded_of_trans_of_irrefl r
  obtain ⟨m, -, hmin⟩ := hwf.has_min Set.univ ⟨⟨v, hv, hnot⟩, trivial⟩
  obtain ⟨u, hu, hout, hedge⟩ := h.waits m.1 m.2.1 m.2.2
  exact hmin ⟨u, hu, hout⟩ trivial (.single hedge)

end Order

end Kahn
