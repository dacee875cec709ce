/-
The search for components, turn by turn and to its end: every turn keeps the invariant and has less left to
do, so the turns granted are enough, and what is found is the strongly connected components.
-/
import Pbps.Lib.Chain
import Pbps.Lib.Tarjan.Leave
import Mathlib.Algebra.Order.BigOperators.Group.Finset

namespace Tarjan

open List

namespace Search

variable {n : Nat} {out : Nat → List Nat} {s : Search}

/-! ## One turn -/

section Step

variable {v c : Nat} {rest : List (Nat × Nat)}

theorem Placed.child_of_top (h : s.Placed n out) (hwork : s.work = (v, c) :: rest) {c' : Nat} (hc : (v, c') ∈ s.work) :
    c' = c := by
  rw [hwork] at hc
  rcases mem_cons.1 hc with he | hm
  · exact (Prod.mk.inj he).2
  · have hlt := h.rank_lt_of_rest hwork (mem_map_of_mem hm)
    exact absurd hlt (lt_irrefl _)

variable {w : Nat}

theorem seen_next (h : s.Placed n out) (hwork : s.work = (v, c) :: rest) (hw : (out v)[c]? = some w) {u x : Nat}
    (hx : ({ s with work := (v, c + 1) :: rest } : Search).Seen out u x) :
    s.Seen out u x ∨ (u = v ∧ x = w) := by
  obtain ⟨hedge, hx⟩ := hx
  by_cases huv : u = v
  · subst huv
    have hmem := hx (c + 1) mem_cons_self
    rw [take_add_one, hw, mem_append, Option.toList_some, mem_singleton] at hmem
    rcases hmem with hmem | rfl
    · refine .inl ⟨hedge, fun c' hc => ?_⟩
      rw [h.child_of_top hwork hc]
      exact hmem
    · exact .inr ⟨rfl, rfl⟩
  · refine .inl ⟨hedge, fun c' hc => hx c' ?_⟩
    rw [hwork] at hc
    rcases mem_cons.1 hc with he | hm
    · exact absurd (Prod.mk.inj he).1 huv
    · exact mem_cons_of_mem _ hm

theorem seen_top (h : s.Placed n out) (hwork : s.work = (v, c) :: rest) (hc : (out v)[c]? = none) (hw : w ∈ out v) :
    s.Seen out v w := by
  refine ⟨hw, fun c' hc' => ?_⟩
  rw [h.child_of_top hwork hc', take_of_length_le (List.getElem?_eq_none_iff.1 hc)]
  exact hw

theorem Inv.look (h : s.Inv n out (s.Seen out)) (hout : ∀ u w, w ∈ out u → w < n) (hwork : s.work = (v, c) :: rest)
    (hw : (out v)[c]? = some w) : (s.look v c w rest).Inv n out ((s.look v c w rest).Seen out) := by
  have hopened : ((v, c + 1) :: rest).map Prod.fst = s.opened := by simp [opened, hwork]
  have hadvanced := h.withWork hopened
  have hopen : s.opened = v :: rest.map Prod.fst := opened_of_work hwork
  have hedge : w ∈ out v := mem_of_getElem? hw
  have hseen : ∀ u x, ({ s with work := (v, c + 1) :: rest } : Search).Seen out u x → s.Seen out u x ∨ (u = v ∧ x = w) :=
    fun u x hx => seen_next h.toPlaced hwork hw hx
  unfold Search.look
  dsimp only
  split
  · rename_i hindex
    refine hadvanced.enter hindex (hout v w hedge) ?_ ?_
    · intro g hg
      rw [show ({ s with work := (v, c + 1) :: rest } : Search).opened = v :: rest.map Prod.fst from rfl] at hg
      cases hg
      exact hedge
    · rintro u x ⟨hx, hall⟩
      have huw : u ≠ w := by
        rintro rfl
        have := hall 0 mem_cons_self
        simp at this
      refine ⟨huw, ?_⟩
      rcases hseen u x ⟨hx, fun c' hc => hall c' (mem_cons_of_mem _ hc)⟩ with hs | ⟨rfl, rfl⟩
      · exact .inl hs
      · exact .inr ⟨rfl, mem_cons_self⟩
  · rename_i i hindex
    split
    · rename_i hon
      rw [← rank_of_index hindex]
      exact hadvanced.lookOn (hopened.trans hopen) hon hedge hseen
    · rename_i hoff
      exact hadvanced.lookOff (by rw [hindex]; exact Option.some_ne_none i) hoff hseen

theorem Inv.leave (h : s.Inv n out (s.Seen out)) (hwork : s.work = (v, c) :: rest) (hc : (out v)[c]? = none) :
    (s.leave v rest).Inv n out ((s.leave v rest).Seen out) := by
  have hopen : s.opened = v :: rest.map Prod.fst := opened_of_work hwork
  have hv : v ∈ s.stack := h.onStack v (by simp [hopen])
  have hless : ∀ u x, x ∈ out u → (∀ c', (u, c') ∈ rest → x ∈ (out u).take c') → s.Seen out u x := by
    intro u x hx hall
    by_cases huv : u = v
    · subst huv
      exact seen_top h.toPlaced hwork hc hx
    · refine ⟨hx, fun c' hc' => hall c' ?_⟩
      rw [hwork] at hc'
      rcases mem_cons.1 hc' with he | hm
      · exact absurd (Prod.mk.inj he).1 huv
      · exact hm
  have hvrest : v ∉ rest.map Prod.fst := fun hm => lt_irrefl _ (h.rank_lt_of_rest hwork hm)
  -- a vertex is not its own parent
  have hself : s.lowerParent v rest v = s.low v := by
    cases rest with
    | nil => rfl
    | cons e rest' =>
      have hne : v ≠ e.1 := by
        rintro rfl
        exact hvrest (by simp)
      simp [lowerParent, hne]
  obtain ⟨i, hi⟩ := Option.ne_none_iff_exists'.1 (h.entered v hv)
  have hrank : s.rank v = i := rank_of_index hi
  have hle := h.lowLe v (by simp [hopen])
  unfold Search.leave
  dsimp only
  split
  · rename_i heq
    rw [hself, hi] at heq
    have hroot : s.low v = s.rank v := by
      rw [hrank]
      exact Option.some.inj heq
    have hsame : s.lowerParent v rest = s.low := by
      cases rest with
      | nil => rfl
      | cons e rest' =>
        have h1 := h.lowLe e.1 (mem_opened_of_rest hwork (by simp))
        have h2 := h.rank_lt_of_rest hwork (g := e.1) (by simp)
        rw [lowerParent, Nat.min_eq_left (by omega), Function.update_eq_self]
    rw [hsame]
    refine h.leavePop hwork (fun u x hx => hless u x hx.1 hx.2) hroot ?_
    intro u hu hge w hw
    refine hless u w hw fun c' hc' => ?_
    have hm : u ∈ rest.map Prod.fst := mem_map_of_mem hc'
    have := h.rank_lt_of_rest hwork hm
    omega
  · rename_i hne
    rw [hself, hi, ← hrank] at hne
    refine h.leaveStay hwork (fun u x hx => hless u x hx.1 hx.2) (lt_of_le_of_ne hle ?_)
    intro heq
    exact hne (by rw [heq])

theorem Inv.step (h : s.Inv n out (s.Seen out)) (hout : ∀ u w, w ∈ out u → w < n) :
    (s.step out).Inv n out ((s.step out).Seen out) := by
  unfold Search.step
  split
  · exact h
  · rename_i v c rest hwork
    split
    · rename_i w hw
      exact h.look hout hwork hw
    · rename_i hc
      exact h.leave hwork hc

end Step

/-! ## A whole search -/

/-- What a search has still to do: a turn for each edge and each vertex that has not been entered, and for
each child not yet visited and each vertex not yet left. -/
def remaining (n : Nat) (out : Nat → List Nat) (s : Search) : Nat :=
  ∑ v ∈ Finset.range n, (if s.index v = none then (out v).length + 1 else 0) +
    (s.work.map fun e => (out e.1).length - e.2 + 1).sum

theorem remaining_enter {w : Nat} (hw : s.index w = none) (hn : w < n) : (s.enter w).remaining n out = s.remaining n out := by
  have hmem : w ∈ Finset.range n := Finset.mem_range.2 hn
  have hsame : ∀ v ∈ (Finset.range n).erase w, (if (s.enter w).index v = none then (out v).length + 1 else 0) =
      if s.index v = none then (out v).length + 1 else 0 := by
    intro v hv
    rw [index_enter, if_neg (Finset.ne_of_mem_erase hv)]
  have hwork : (s.enter w).work = (w, 0) :: s.work := rfl
  have hself : (s.enter w).index w = some s.counter := by simp [index_enter]
  unfold remaining
  rw [← Finset.add_sum_erase _ _ hmem, ← Finset.add_sum_erase _ _ hmem, Finset.sum_congr rfl hsame, hwork, hw, hself]
  simp
  omega

theorem remaining_step (hout : ∀ u w, w ∈ out u → w < n) (hwork : s.work ≠ []) :
    (s.step out).remaining n out < s.remaining n out := by
  unfold Search.step
  split
  · rename_i hnil
    exact absurd hnil hwork
  · rename_i v c rest hcons
    split
    · rename_i w hw
      have hlt : c < (out v).length := (List.getElem?_eq_some_iff.1 hw).1
      have hadvance : ({ s with work := (v, c + 1) :: rest } : Search).remaining n out < s.remaining n out := by
        unfold remaining
        simp only [hcons, map_cons, sum_cons]
        omega
      unfold Search.look
      dsimp only
      split
      · rename_i hindex
        have hsame := @remaining_enter n out { s with work := (v, c + 1) :: rest } w hindex
          (hout v w (mem_of_getElem? hw))
        omega
      · split
        · exact hadvance
        · exact hadvance
    · unfold Search.leave
      dsimp only
      split
      all_goals
        unfold remaining
        simp only [hcons, map_cons, sum_cons]
        omega

theorem Inv.iterate (hout : ∀ u w, w ∈ out u → w < n) : ∀ (k : Nat) {s : Search}, s.Inv n out (s.Seen out) →
    ((Search.step out)^[k] s).Inv n out (((Search.step out)^[k] s).Seen out) ∧
      (((Search.step out)^[k] s).work = [] ∨ ((Search.step out)^[k] s).remaining n out + k ≤ s.remaining n out)
  | 0, s, h => ⟨h, .inr le_rfl⟩
  | k + 1, s, h => by
    obtain ⟨hinv, hleft⟩ := Inv.iterate hout k (h.step hout)
    rw [Function.iterate_succ_apply]
    refine ⟨hinv, ?_⟩
    by_cases hwork : s.work = []
    · -- a search with nothing open stays as it is
      have hidle : s.step out = s := by simp [Search.step, hwork]
      rw [hidle, Function.iterate_fixed hidle]
      exact .inl hwork
    · have hlt := remaining_step hout hwork
      rcases hleft with hnil | hle
      · exact .inl hnil
      · exact .inr (by omega)

end Search

section Components

variable {n : Nat} {out : Nat → List Nat} (hout : ∀ u w, w ∈ out u → w < n)

theorem turns_eq (n : Nat) (out : Nat → List Nat) : turns n out = ∑ v ∈ Finset.range n, ((out v).length + 1) := rfl

/-- A search with nothing open, and the invariant. -/
structure Search.Idle (n : Nat) (out : Nat → List Nat) (s : Search) : Prop where
  inv : s.Inv n out (s.Seen out)
  work : s.work = []

variable {s : Search} {root v : Nat}

theorem Search.Idle.stack (h : s.Idle n out) : s.stack = [] := by
  rw [eq_nil_iff_forall_not_mem]
  intro x hx
  obtain ⟨g, hg, -⟩ := h.inv.below x hx
  simp [opened, h.work] at hg

include hout

theorem searchFrom_idle (h : s.Idle n out) (hroot : root < n) : (searchFrom n out s root).Idle n out := by
  unfold searchFrom
  split
  · rename_i hindex
    have hopened : s.opened = [] := by simp [Search.opened, h.work]
    have hentered : (s.enter root).Inv n out ((s.enter root).Seen out) := by
      refine h.inv.enter hindex hroot ?_ ?_
      · intro v hv
        simp [hopened] at hv
      · rintro u x ⟨hx, hall⟩
        constructor
        · rintro rfl
          have := hall 0 mem_cons_self
          simp at this
        · refine .inl ⟨hx, fun c hc => ?_⟩
          rw [h.work] at hc
          cases hc
    obtain ⟨hinv, hleft⟩ := Search.Inv.iterate hout (turns n out) hentered
    refine ⟨hinv, ?_⟩
    rcases hleft with hnil | hle
    · exact hnil
    · have hbound : (s.enter root).remaining n out ≤ turns n out := by
        rw [Search.remaining_enter hindex hroot, turns_eq]
        unfold Search.remaining
        rw [h.work, map_nil, sum_nil, Nat.add_zero]
        refine Finset.sum_le_sum fun v _ => ?_
        split <;> omega
      -- whatever is open has a turn to take
      by_contra hne
      obtain ⟨e, rest, hcons⟩ := exists_cons_of_ne_nil hne
      have hpos : 0 < ((Search.step out)^[turns n out] (s.enter root)).remaining n out := by
        unfold Search.remaining
        rw [hcons, map_cons, sum_cons]
        omega
      omega
  · exact h

theorem foldl_searchFrom_idle : ∀ {roots : List Nat} {s : Search}, (∀ r ∈ roots, r < n) → s.Idle n out →
    (roots.foldl (searchFrom n out) s).Idle n out
  | [], _, _, h => h
  | r :: roots, s, hr, h => by
    rw [foldl_cons]
    refine foldl_searchFrom_idle (fun r' hr' => hr r' (mem_cons_of_mem _ hr')) ?_
    exact searchFrom_idle hout h (hr r mem_cons_self)

omit hout in
theorem index_step_ne_none (hv : s.index v ≠ none) : (s.step out).index v ≠ none := by
  unfold Search.step
  split
  · exact hv
  · split
    · unfold Search.look
      dsimp only
      split
      · rename_i hindex
        exact Search.index_enter_ne_none hindex hv
      · split <;> exact hv
    · unfold Search.leave
      dsimp only
      split <;> exact hv

omit hout in
theorem index_searchFrom_ne_none (hv : s.index v ≠ none ∨ v = root) : (searchFrom n out s root).index v ≠ none := by
  unfold searchFrom
  split
  · rename_i hindex
    have hentered : (s.enter root).index v ≠ none := by
      rcases hv with hv | rfl
      · exact Search.index_enter_ne_none hindex hv
      · simp [Search.index_enter]
    exact Function.Iterate.rec (fun s : Search => s.index v ≠ none) hentered (fun _ => index_step_ne_none) _
  · rename_i hindex
    rcases hv with hv | rfl
    · exact hv
    · exact hindex

omit hout in
theorem index_foldl_ne_none : ∀ {roots : List Nat} {s : Search}, s.index v ≠ none ∨ v ∈ roots →
    (roots.foldl (searchFrom n out) s).index v ≠ none
  | [], _, h => h.resolve_right (by simp)
  | r :: roots, s, h => by
    rw [foldl_cons]
    refine index_foldl_ne_none ?_
    rw [mem_cons, ← or_assoc] at h
    exact h.imp_left index_searchFrom_ne_none

theorem search_idle : ((List.range n).foldl (searchFrom n out) {}).Idle n out :=
  foldl_searchFrom_idle hout (fun _ hr => mem_range.1 hr) ⟨Search.inv_init, rfl⟩

theorem found_partition : Component.Partition (fun u w => w ∈ out u) (· < n)
    ((List.range n).foldl (searchFrom n out) {}).found := by
  have hidle := search_idle hout
  refine ⟨fun c hc => (hidle.inv.component c hc).1, hidle.inv.apart, fun v => ?_, fun c hc => (hidle.inv.component c hc).2⟩
  rw [hidle.inv.done, and_iff_left (by simp [hidle.stack])]
  constructor
  · intro hv
    obtain ⟨i, hi⟩ := Option.ne_none_iff_exists'.1 hv
    exact (hidle.inv.bound v i hi).1
  · exact fun hv => index_foldl_ne_none (.inr (mem_range.2 hv))

theorem components_partition : Component.Partition (fun u w => w ∈ out u) (· < n) (components n out) :=
  (found_partition hout).of_perm (perm_insertionSort _ _)

theorem ascending_of_mem {members : List Nat} (h : members ∈ components n out) : members.Pairwise (· < ·) :=
  (search_idle hout).inv.sorted members ((mem_insertionSort _).1 h)

end Components

end Tarjan
