/-
Strongly connected components by one depth-first search with an explicit work list. A vertex is entered with the next index,
stays on the stack until the component it is in is complete, and keeps in `low` the least index of a vertex on the stack
that its part of the search has seen an edge to.
-/
import Mathlib.Data.List.Sort
import Mathlib.Data.List.Chain
import Mathlib.Algebra.GroupWithZero.Nat

namespace Tarjan

/-! ## The search -/

/-- The state of a search. A vertex with no index has not been entered. -/
structure Search where
  index : Nat → Option Nat := fun _ => none
  low : Nat → Nat := fun _ => 0
  stack : List Nat := []
  found : List (List Nat) := []
  counter : Nat := 0
  /-- The open vertices, the one entered last first, each with the child to visit next. -/
  work : List (Nat × Nat) := []

namespace Search

def enter (s : Search) (w : Nat) : Search :=
  { s with
    index := Function.update s.index w (some s.counter)
    low := Function.update s.low w s.counter
    stack := w :: s.stack
    counter := s.counter + 1
    work := (w, 0) :: s.work }

/-- What is taken from a stack down to and with `v`, and what is left. -/
def popTo (v : Nat) : List Nat → List Nat × List Nat
  | [] => ([], [])
  | w :: stack => if w = v then ([w], stack) else (w :: (popTo v stack).1, (popTo v stack).2)

def lowerParent (s : Search) (v : Nat) : List (Nat × Nat) → Nat → Nat
  | [] => s.low
  | (parent, _) :: _ => Function.update s.low parent (min (s.low parent) (s.low v))

def leave (s : Search) (v : Nat) (rest : List (Nat × Nat)) : Search :=
  let s := { s with work := rest, low := s.lowerParent v rest }
  if some (s.low v) = s.index v then
    { s with stack := (popTo v s.stack).2, found := s.found ++ [(popTo v s.stack).1.insertionSort (· ≤ ·)] }
  else s

def look (s : Search) (v child w : Nat) (rest : List (Nat × Nat)) : Search :=
  let s := { s with work := (v, child + 1) :: rest }
  match s.index w with
  | none => s.enter w
  | some i => if w ∈ s.stack then { s with low := Function.update s.low v (min (s.low v) i) } else s

def step (out : Nat → List Nat) (s : Search) : Search :=
  match s.work with
  | [] => s
  | (v, child) :: rest =>
    match (out v)[child]? with
    | some w => s.look v child w rest
    | none => s.leave v rest

end Search

/-- The turns a search of `n` vertices can take: one for each edge and one for each vertex. -/
def turns (n : Nat) (out : Nat → List Nat) : Nat := ((List.range n).map fun v => (out v).length + 1).sum

def searchFrom (n : Nat) (out : Nat → List Nat) (s : Search) (root : Nat) : Search :=
  if s.index root = none then (Search.step out)^[turns n out] (s.enter root) else s

/-- The strongly connected components of the vertices below `n`, each ascending, in ascending order. -/
def components (n : Nat) (out : Nat → List Nat) : List (List Nat) :=
  ((List.range n).foldl (searchFrom n out) {}).found.insertionSort (· ≤ ·)

/-! ## The invariant

The vertices on the work list are open, and each reaches what lies above it on the stack; everything on the stack reaches an
open vertex below it; what has left the stack leads nowhere outside. Entering a vertex and looking along an edge keep it. -/

open Relation (ReflTransGen)
open List

abbrev Reach (out : Nat → List Nat) : Nat → Nat → Prop := ReflTransGen fun u w => w ∈ out u

namespace Search

variable {n : Nat} {out : Nat → List Nat} {known known' : Nat → Nat → Prop} {s : Search}

def rank (s : Search) (v : Nat) : Nat := (s.index v).getD 0

def opened (s : Search) : List Nat := s.work.map Prod.fst

/-- An edge the search has looked along: that of a vertex it has left, or one of an open vertex before
the child to visit next. -/
def Seen (out : Nat → List Nat) (s : Search) (u w : Nat) : Prop :=
  w ∈ out u ∧ ∀ c, (u, c) ∈ s.work → w ∈ (out u).take c

/-- How the vertices stand: which have been entered, which are on the stack, and which components are
complete. -/
structure Placed (n : Nat) (out : Nat → List Nat) (s : Search) : Prop where
  bound : ∀ v i, s.index v = some i → v < n ∧ i < s.counter
  inj : ∀ u v i, s.index u = some i → s.index v = some i → u = v
  entered : ∀ v ∈ s.stack, s.index v ≠ none
  stacked : s.stack.Pairwise fun a b => s.rank b < s.rank a
  nested : s.opened.Pairwise fun a b => s.rank b < s.rank a
  onStack : ∀ v ∈ s.opened, v ∈ s.stack
  path : s.opened.IsChain fun a b => a ∈ out b
  closed : ∀ u w, s.index u ≠ none → u ∉ s.stack → w ∈ out u → s.index w ≠ none ∧ w ∉ s.stack
  /-- An open vertex reaches what lies above it. -/
  above : ∀ g ∈ s.opened, ∀ x ∈ s.stack, s.rank g ≤ s.rank x → Reach out g x
  /-- What is on the stack reaches an open vertex below it. -/
  below : ∀ x ∈ s.stack, ∃ g ∈ s.opened, s.rank g ≤ s.rank x ∧ Reach out x g
  done : ∀ x, (∃ members ∈ s.found, x ∈ members) ↔ s.index x ≠ none ∧ x ∉ s.stack
  sorted : ∀ members ∈ s.found, members.Pairwise (· < ·)
  component : ∀ members ∈ s.found, members ≠ [] ∧
    ∀ x ∈ members, ∀ y, y ∈ members ↔ Reach out x y ∧ Reach out y x
  apart : s.found.flatten.Nodup

/-- The invariant, for a set of edges the search knows of. -/
structure Inv (n : Nat) (out : Nat → List Nat) (known : Nat → Nat → Prop) (s : Search) : Prop extends Placed n out s where
  leads : ∀ u w, s.index u ≠ none → known u w → s.index w ≠ none
  lowLe : ∀ g ∈ s.opened, s.low g ≤ s.rank g
  lowReached : ∀ g ∈ s.opened, ∃ w ∈ s.stack, s.rank w = s.low g ∧ Reach out g w
  /-- An edge known between two vertices of the stack counts for an open vertex at or below its source. -/
  lowLeast : ∀ g ∈ s.opened, ∀ u ∈ s.stack, s.rank g ≤ s.rank u → ∀ w ∈ s.stack, known u w →
    ∃ o ∈ s.opened, s.rank g ≤ s.rank o ∧ s.rank o ≤ s.rank u ∧ s.low o ≤ s.rank w

variable {v w : Nat} {rest : List Nat}

theorem rank_of_index {i : Nat} (h : s.index v = some i) : s.rank v = i := by
  simp [rank, h]

theorem Placed.rank_lt (h : s.Placed n out) (hv : s.index v ≠ none) : s.rank v < s.counter := by
  obtain ⟨i, hi⟩ := Option.ne_none_iff_exists'.1 hv
  rw [rank_of_index hi]
  exact (h.bound v i hi).2

theorem Placed.rank_inj (h : s.Placed n out) {u : Nat} (hu : s.index u ≠ none) (hv : s.index v ≠ none) (heq : s.rank u = s.rank v) :
    u = v := by
  obtain ⟨i, hi⟩ := Option.ne_none_iff_exists'.1 hu
  obtain ⟨j, hj⟩ := Option.ne_none_iff_exists'.1 hv
  rw [rank_of_index hi, rank_of_index hj] at heq
  subst heq
  exact h.inj u v i hi hj

theorem inv_init : Inv n out known {} := by
  refine ⟨⟨?_, ?_, ?_, .nil, .nil, ?_, .nil, ?_, ?_, ?_, ?_, ?_, ?_, .nil⟩, ?_, ?_, ?_, ?_⟩
  all_goals simp [opened]

variable {g : Nat} {work : List (Nat × Nat)}

section

variable (h : s.Placed n out) (hopen : s.opened = v :: rest) (hg : g ∈ s.opened)
include h hopen hg

theorem Placed.rank_le_top : s.rank g ≤ s.rank v := by
  have hp := h.nested
  rw [hopen] at hp hg
  rcases mem_cons.1 hg with rfl | hg
  · exact le_rfl
  · exact (rel_of_pairwise_cons hp hg).le

theorem Placed.eq_top (hle : s.rank v ≤ s.rank g) : g = v := by
  have hv : v ∈ s.opened := by simp [hopen]
  refine h.rank_inj (h.entered g (h.onStack g hg)) (h.entered v (h.onStack v hv)) ?_
  exact le_antisymm (h.rank_le_top hopen hg) hle

end

/-! ### A vertex is entered -/

theorem index_enter (s : Search) (w v : Nat) : (s.enter w).index v = if v = w then some s.counter else s.index v := by
  simp [enter, Function.update_apply]

theorem rank_enter_self (s : Search) (w : Nat) : (s.enter w).rank w = s.counter := by
  simp [rank, index_enter]

theorem rank_enter_of_ne (s : Search) (h : v ≠ w) : (s.enter w).rank v = s.rank v := by
  simp [rank, index_enter, h]

theorem low_enter (s : Search) (w v : Nat) : (s.enter w).low v = if v = w then s.counter else s.low v := by
  simp [enter, Function.update_apply]

section Enter

variable {w : Nat} (hw : s.index w = none)

include hw

variable {v : Nat}

theorem ne_of_entered (hv : s.index v ≠ none) : v ≠ w := by
  rintro rfl
  exact hv hw

theorem index_enter_ne_none (hv : s.index v ≠ none) : (s.enter w).index v ≠ none := by
  rw [index_enter, if_neg (ne_of_entered hw hv)]
  exact hv

theorem Placed.rank_enter (h : s.Placed n out) (hv : v ∈ s.stack) : (s.enter w).rank v = s.rank v :=
  rank_enter_of_ne s (ne_of_entered hw (h.entered v hv))

theorem Placed.rank_lt_enter (h : s.Placed n out) (hv : v ∈ s.stack) : (s.enter w).rank v < (s.enter w).rank w := by
  rw [rank_enter_self, h.rank_enter hw hv]
  exact h.rank_lt (h.entered v hv)

theorem Placed.enter (h : s.Placed n out) (hn : w < n) (htop : ∀ v ∈ s.opened.head?, w ∈ out v) : (s.enter w).Placed n out := by
  have hstack : (s.enter w).stack = w :: s.stack := rfl
  have hopened : (s.enter w).opened = w :: s.opened := rfl
  have hcounter : (s.enter w).counter = s.counter + 1 := rfl
  have hreach : ∀ g ∈ s.opened, Reach out g w := by
    intro g hg
    cases hopen : s.opened with
    | nil => simp [hopen] at hg
    | cons v rest =>
      have hv : v ∈ s.opened := by simp [hopen]
      have hgv := h.above g hg v (h.onStack v hv) (h.rank_le_top hopen hg)
      exact hgv.tail (htop v (by simp [hopen]))
  constructor
  case bound =>
    intro v i hv
    rw [index_enter] at hv
    rw [hcounter]
    split at hv
    · cases hv
      subst v
      omega
    · have := h.bound v i hv
      omega
  case inj =>
    intro u v i hu hv
    rw [index_enter] at hu hv
    split at hu <;> split at hv
    · simp_all
    · cases hu
      have := (h.bound v _ hv).2
      omega
    · cases hv
      have := (h.bound u _ hu).2
      omega
    · exact h.inj u v i hu hv
  case entered =>
    rw [hstack]
    intro v hv
    rcases mem_cons.1 hv with rfl | hv'
    · simp [index_enter]
    · exact index_enter_ne_none hw (h.entered v hv')
  case stacked =>
    rw [hstack, pairwise_cons]
    constructor
    · intro b hb
      exact h.rank_lt_enter hw hb
    · refine h.stacked.imp_of_mem ?_
      intro a b ha hb hab
      rwa [h.rank_enter hw ha, h.rank_enter hw hb]
  case nested =>
    rw [hopened, pairwise_cons]
    constructor
    · intro b hb
      exact h.rank_lt_enter hw (h.onStack b hb)
    · refine h.nested.imp_of_mem ?_
      intro a b ha hb hab
      rwa [h.rank_enter hw (h.onStack a ha), h.rank_enter hw (h.onStack b hb)]
  case onStack =>
    rw [hopened, hstack]
    intro v hv
    rcases mem_cons.1 hv with rfl | hv'
    · exact mem_cons_self
    · exact mem_cons_of_mem _ (h.onStack v hv')
  case path =>
    rw [hopened]
    have hpath := h.path
    cases hopen : s.opened with
    | nil => exact .singleton w
    | cons v rest =>
      rw [hopen] at hpath htop
      exact isChain_cons_cons.2 ⟨htop v rfl, hpath⟩
  case closed =>
    intro u x hu hs hx
    rw [hstack, mem_cons, not_or] at hs
    rw [index_enter, if_neg hs.1] at hu
    obtain ⟨h1, h2⟩ := h.closed u x hu hs.2 hx
    refine ⟨index_enter_ne_none hw h1, ?_⟩
    rw [hstack, mem_cons, not_or]
    exact ⟨ne_of_entered hw h1, h2⟩
  case above =>
    rw [hopened, hstack]
    intro g hg x hx hle
    rcases mem_cons.1 hg with rfl | hg' <;> rcases mem_cons.1 hx with rfl | hx'
    · exact .refl
    · -- nothing that was on the stack is above the new vertex
      have := h.rank_lt_enter hw hx'
      omega
    · exact hreach g hg'
    · rw [h.rank_enter hw (h.onStack g hg'), h.rank_enter hw hx'] at hle
      exact h.above g hg' x hx' hle
  case below =>
    rw [hopened, hstack]
    intro x hx
    rcases mem_cons.1 hx with rfl | hx'
    · exact ⟨x, mem_cons_self, le_rfl, .refl⟩
    · obtain ⟨g, hg, hle, hr⟩ := h.below x hx'
      refine ⟨g, mem_cons_of_mem _ hg, ?_, hr⟩
      rwa [h.rank_enter hw (h.onStack g hg), h.rank_enter hw hx']
  case done =>
    intro x
    have hfound : (s.enter w).found = s.found := rfl
    rw [hfound, h.done x, hstack, mem_cons, not_or, index_enter]
    by_cases hxw : x = w
    · subst hxw
      simp [hw]
    · simp [hxw]
  case sorted => exact h.sorted
  case component => exact h.component
  case apart => exact h.apart

theorem Inv.enter (h : s.Inv n out known) (hn : w < n) (htop : ∀ v ∈ s.opened.head?, w ∈ out v)
    (hknown : ∀ u x, known' u x → u ≠ w ∧ (known u x ∨ (x = w ∧ u ∈ s.opened))) : (s.enter w).Inv n out known' := by
  have hstack : (s.enter w).stack = w :: s.stack := rfl
  have hopened : (s.enter w).opened = w :: s.opened := rfl
  have hrank : ∀ v ∈ s.opened, (s.enter w).rank v = s.rank v := fun v hv => h.rank_enter hw (h.onStack v hv)
  have hlow : ∀ v ∈ s.opened, (s.enter w).low v = s.low v := by
    intro v hv
    rw [low_enter, if_neg (ne_of_entered hw (h.entered v (h.onStack v hv)))]
  refine ⟨h.toPlaced.enter hw hn htop, ?_, ?_, ?_, ?_⟩
  · intro u x hu hk
    obtain ⟨hne, hk | ⟨rfl, -⟩⟩ := hknown u x hk
    · rw [index_enter, if_neg hne] at hu
      exact index_enter_ne_none hw (h.leads u x hu hk)
    · simp [index_enter]
  · rw [hopened]
    intro g hg
    rcases mem_cons.1 hg with rfl | hg'
    · rw [low_enter, if_pos rfl, rank_enter_self]
    · rw [hlow g hg', hrank g hg']
      exact h.lowLe g hg'
  · rw [hopened, hstack]
    intro g hg
    rcases mem_cons.1 hg with rfl | hg'
    · refine ⟨g, mem_cons_self, ?_, .refl⟩
      rw [low_enter, if_pos rfl, rank_enter_self]
    · obtain ⟨x, hx, hr, hreach⟩ := h.lowReached g hg'
      refine ⟨x, mem_cons_of_mem _ hx, ?_, hreach⟩
      rw [h.rank_enter hw hx, hlow g hg', hr]
  · rw [hopened, hstack]
    intro g hg u hu hle x hx hk
    obtain ⟨huw, hk⟩ := hknown u x hk
    have hu' : u ∈ s.stack := (mem_cons.1 hu).resolve_left huw
    have hg' : g ∈ s.opened := by
      refine (mem_cons.1 hg).resolve_left ?_
      rintro rfl
      have := h.rank_lt_enter hw hu'
      omega
    rw [hrank g hg', h.rank_enter hw hu'] at hle ⊢
    rcases hk with hk | ⟨rfl, hopen⟩
    · -- a known edge leads to a vertex that had been entered
      have hx' : x ∈ s.stack := by
        refine (mem_cons.1 hx).resolve_left ?_
        rintro rfl
        exact h.leads u x (h.entered u hu') hk hw
      obtain ⟨o, ho, h1, h2, h3⟩ := h.lowLeast g hg' u hu' hle x hx' hk
      refine ⟨o, mem_cons_of_mem _ ho, ?_⟩
      rw [hrank o ho, hlow o ho, h.rank_enter hw hx']
      exact ⟨h1, h2, h3⟩
    · refine ⟨u, mem_cons_of_mem _ hopen, ?_⟩
      rw [hrank u hopen, hlow u hopen, rank_enter_self]
      have := h.lowLe u hopen
      have := h.rank_lt (h.entered u hu')
      omega

end Enter

/-! ### An edge is looked along -/

theorem Placed.withWork (h : s.Placed n out) {low : Nat → Nat} (hwork : work.map Prod.fst = s.opened) :
    ({ s with work := work, low := low } : Search).Placed n out := by
  have hopened : ({ s with work := work, low := low } : Search).opened = s.opened := hwork
  refine ⟨h.bound, h.inj, h.entered, h.stacked, ?_, ?_, ?_, h.closed, ?_, ?_, h.done, h.sorted, h.component,
    h.apart⟩
  · rw [hopened]
    exact h.nested
  · rw [hopened]
    exact h.onStack
  · rw [hopened]
    exact h.path
  · rw [hopened]
    exact h.above
  · rw [hopened]
    exact h.below

theorem Inv.withWork (h : s.Inv n out known) (hwork : work.map Prod.fst = s.opened) :
    ({ s with work := work } : Search).Inv n out known := by
  have hopened : ({ s with work := work } : Search).opened = s.opened := hwork
  refine ⟨h.toPlaced.withWork hwork, h.leads, ?_, ?_, ?_⟩
  · rw [hopened]
    exact h.lowLe
  · rw [hopened]
    exact h.lowReached
  · rw [hopened]
    exact h.lowLeast

theorem Inv.lookOff (h : s.Inv n out known) (hw : s.index w ≠ none) (hoff : w ∉ s.stack)
    (hknown : ∀ u x, known' u x → known u x ∨ (u = v ∧ x = w)) : s.Inv n out known' := by
  refine ⟨h.toPlaced, ?_, h.lowLe, h.lowReached, ?_⟩
  · intro u x hu hk
    rcases hknown u x hk with hk | ⟨-, rfl⟩
    · exact h.leads u x hu hk
    · exact hw
  · intro g hg u hu hle x hx hk
    rcases hknown u x hk with hk | ⟨-, rfl⟩
    · exact h.lowLeast g hg u hu hle x hx hk
    · exact absurd hx hoff

theorem Inv.lookOn (h : s.Inv n out known) (hopen : s.opened = v :: rest) (hw : w ∈ s.stack) (hedge : w ∈ out v)
    (hknown : ∀ u x, known' u x → known u x ∨ (u = v ∧ x = w)) :
    ({ s with low := Function.update s.low v (min (s.low v) (s.rank w)) } : Search).Inv n out known' := by
  set low := Function.update s.low v (min (s.low v) (s.rank w)) with hlow
  have hself : low v = min (s.low v) (s.rank w) := by simp [hlow]
  have hle : ∀ g, low g ≤ s.low g := by
    intro g
    by_cases hg : g = v
    · subst hg
      omega
    · simp [hlow, hg]
  refine ⟨h.toPlaced.withWork rfl, ?_, ?_, ?_, ?_⟩
  · intro u x hu hk
    rcases hknown u x hk with hk | ⟨-, rfl⟩
    · exact h.leads u x hu hk
    · exact h.entered x hw
  · intro g hg
    exact (hle g).trans (h.lowLe g hg)
  · intro g hg
    show ∃ x ∈ s.stack, s.rank x = low g ∧ Reach out g x
    by_cases hg' : g = v
    · subst hg'
      rcases le_total (s.low g) (s.rank w) with hmin | hmin
      · rw [hself, Nat.min_eq_left hmin]
        exact h.lowReached g hg
      · rw [hself, Nat.min_eq_right hmin]
        exact ⟨w, hw, rfl, .single hedge⟩
    · have : low g = s.low g := by simp [hlow, hg']
      rw [this]
      exact h.lowReached g hg
  · intro g hg u hu hgu x hx hk
    show ∃ o ∈ s.opened, s.rank g ≤ s.rank o ∧ s.rank o ≤ s.rank u ∧ low o ≤ s.rank x
    rcases hknown u x hk with hk | ⟨rfl, rfl⟩
    · obtain ⟨o, ho, h1, h2, h3⟩ := h.lowLeast g hg u hu hgu x hx hk
      exact ⟨o, ho, h1, h2, (hle o).trans h3⟩
    · refine ⟨u, by simp [hopen], hgu, le_rfl, ?_⟩
      omega

end Search

end Tarjan
