/-
A search with a stack: what has been seen is not taken up again, and the vertex it began at counts as seen only once an edge
leads back to it. With room for every vertex it sees exactly what a path leads to.
-/
import Pbps.Lib.Map
import Mathlib.Data.Finset.Card

namespace Search

open Std (ExtTreeSet)
open Relation (TransGen ReflTransGen)
open List

variable {α : Type} [Ord α] [Std.TransOrd α] [Std.LawfulEqOrd α]

/-! ## The search -/

structure State (α : Type) [Ord α] where
  seen : ExtTreeSet α := ∅
  stack : List α

namespace State

def meet (s : State α) (v : α) : State α :=
  if v ∈ s.seen then s else { seen := s.seen.insert v, stack := v :: s.stack }

def step (next : α → List α) (s : State α) : State α :=
  match s.stack with
  | [] => s
  | u :: stack => (next u).foldl meet { s with stack }

end State

/-- What has been seen after `fuel` vertices were taken off. -/
def search (next : α → List α) (start : α) (fuel : Nat) : ExtTreeSet α :=
  ((State.step next)^[fuel] { stack := [start] }).seen

/-! ## What it keeps -/

namespace State

def Leads (next : α → List α) (u v : α) : Prop := v ∈ next u

/-- A vertex that was seen, or where the search began, is waiting or has been taken up. -/
structure Inv (next : α → List α) (start : α) (s : State α) : Prop where
  sound : ∀ v ∈ s.seen, TransGen (Leads next) start v
  stack : ∀ v ∈ s.stack, v = start ∨ v ∈ s.seen
  taken : ∀ u, u = start ∨ u ∈ s.seen → u ∈ s.stack ∨ ∀ v ∈ next u, v ∈ s.seen

variable {v : α} {s : State α}

theorem mem_insert {w : α} {seen : ExtTreeSet α} : w ∈ seen.insert v ↔ w = v ∨ w ∈ seen := by
  rw [ExtTreeSet.mem_insert, Std.LawfulEqOrd.compare_eq_iff_eq, eq_comm]

theorem meet_seen {w : α} : w ∈ (s.meet v).seen ↔ w = v ∨ w ∈ s.seen := by
  rw [meet]
  split
  case isTrue hv => exact ⟨.inr, fun h => h.elim (fun hw => hw ▸ hv) id⟩
  case isFalse => exact mem_insert

theorem foldl_meet (vs : List α) : ∀ s : State α, (∀ w, w ∈ (vs.foldl meet s).seen ↔ w ∈ vs ∨ w ∈ s.seen) ∧
    ∀ w, w ∈ (vs.foldl meet s).stack ↔ w ∈ s.stack ∨ w ∈ vs ∧ w ∉ s.seen := by
  induction vs with
  | nil =>
    intro s
    exact ⟨fun w => by simp, fun w => by simp⟩
  | cons v vs ih =>
    intro s
    obtain ⟨hseen, hstack⟩ := ih (s.meet v)
    constructor
    · intro w
      rw [foldl_cons, hseen, meet_seen, mem_cons]
      exact ⟨fun h => by tauto, fun h => by tauto⟩
    · intro w
      rw [foldl_cons, hstack, meet_seen, mem_cons]
      by_cases hv : v ∈ s.seen
      · have hmeet : s.meet v = s := if_pos hv
        rw [hmeet]
        constructor
        · rintro (hw | ⟨hw, hnot⟩)
          · exact .inl hw
          · exact .inr ⟨.inr hw, fun h => hnot (.inr h)⟩
        · rintro (hw | ⟨rfl | hw, hnot⟩)
          · exact .inl hw
          · exact absurd hv hnot
          · exact .inr ⟨hw, fun h => h.elim (fun heq => hnot (heq ▸ hv)) hnot⟩
      · have hmeet : (s.meet v).stack = v :: s.stack := by rw [meet, if_neg hv]
        rw [hmeet, mem_cons]
        constructor
        · rintro ((rfl | hw) | ⟨hw, hnot⟩)
          · exact .inr ⟨.inl rfl, hv⟩
          · exact .inl hw
          · exact .inr ⟨.inr hw, fun h => hnot (.inr h)⟩
        · rintro (hw | ⟨rfl | hw, hnot⟩)
          · exact .inl (.inr hw)
          · exact .inl (.inl rfl)
          · by_cases heq : w = v
            · exact .inl (.inl heq)
            · exact .inr ⟨hw, fun h => h.elim heq hnot⟩

variable {next : α → List α} {start : α}

omit [Std.LawfulEqOrd α] in
theorem inv_start (next : α → List α) (start : α) : Inv next start { stack := [start] } where
  sound _ hv := absurd hv ExtTreeSet.not_mem_empty
  stack _ hv := .inl (mem_singleton.1 hv)
  taken _ hu := .inl (mem_singleton.2 (hu.resolve_right ExtTreeSet.not_mem_empty))

theorem inv_step (h : s.Inv next start) : (s.step next).Inv next start := by
  rw [step]
  cases hs : s.stack with
  | nil => exact h
  | cons u stack =>
    obtain ⟨hseen, hstack⟩ := foldl_meet (next u) { s with stack }
    have hu : u = start ∨ u ∈ s.seen := h.stack u (by rw [hs]; exact mem_cons_self)
    have hreach : ReflTransGen (Leads next) start u := hu.elim (fun heq => heq ▸ .refl) fun hu => (h.sound u hu).to_reflTransGen
    constructor
    · intro v hv
      rcases (hseen v).1 hv with hv | hv
      · exact .tail' hreach hv
      · exact h.sound v hv
    · intro v hv
      rw [hseen]
      rcases (hstack v).1 hv with hv | ⟨hv, _⟩
      · exact (h.stack v (by rw [hs]; exact mem_cons_of_mem _ hv)).imp id .inr
      · exact .inr (.inl hv)
    · intro w hw
      rw [hstack]
      by_cases hwu : w = u
      · subst hwu
        exact .inr fun v hv => (hseen v).2 (.inl hv)
      · have hold : w = start ∨ w ∈ s.seen ∨ w ∈ next u ∧ w ∉ s.seen := by
          rcases hw with hw | hw
          · exact .inl hw
          · rcases (hseen w).1 hw with hw | hw
            · by_cases hnot : w ∈ s.seen
              · exact .inr (.inl hnot)
              · exact .inr (.inr ⟨hw, hnot⟩)
            · exact .inr (.inl hw)
        rcases or_assoc.2 hold with hw | hw
        · rcases h.taken w hw with hmem | hnext
          · rw [hs] at hmem
            exact .inl (.inl ((mem_cons.1 hmem).resolve_left hwu))
          · exact .inr fun v hv => (hseen v).2 (.inr (hnext v hv))
        · exact .inl (.inr hw)

theorem inv_iterate (next : α → List α) (start : α) (fuel : Nat) :
    ((State.step next)^[fuel] { stack := [start] }).Inv next start := by
  induction fuel with
  | zero => exact inv_start next start
  | succ fuel ih =>
    rw [Function.iterate_succ_apply']
    exact inv_step ih

omit [Std.LawfulEqOrd α] in
theorem Inv.complete (h : s.Inv next start) (hs : s.stack = []) : v ∈ s.seen ↔ TransGen (Leads next) start v := by
  refine ⟨h.sound v, fun hv => ?_⟩
  have hclosed : ∀ u, u = start ∨ u ∈ s.seen → ∀ w ∈ next u, w ∈ s.seen :=
    fun u hu => (h.taken u hu).resolve_left (by rw [hs]; exact not_mem_nil)
  induction hv with
  | single hv => exact hclosed _ (.inl rfl) _ hv
  | tail _ hv ih => exact hclosed _ (.inr ih) _ hv

/-! ## It ends -/

variable [DecidableEq α] {vertices : Finset α}

def left (vertices : Finset α) (s : State α) : Nat := (vertices.filter (· ∉ s.seen)).card + s.stack.length

theorem left_meet (hv : v ∈ vertices) : (s.meet v).left vertices = s.left vertices := by
  rw [meet]
  split
  case isTrue => rfl
  case isFalse hnot =>
    have hmem : v ∈ vertices.filter (· ∉ s.seen) := Finset.mem_filter.2 ⟨hv, hnot⟩
    have herase : vertices.filter (· ∉ s.seen.insert v) = (vertices.filter (· ∉ s.seen)).erase v := by
      ext w
      rw [Finset.mem_filter, Finset.mem_erase, Finset.mem_filter, mem_insert, not_or]
      tauto
    have hcard := Finset.card_erase_add_one hmem
    rw [left, left, herase, length_cons]
    omega

theorem left_step (hnext : ∀ u, ∀ v ∈ next u, v ∈ vertices) (hs : s.stack ≠ []) :
    (s.step next).left vertices + 1 = s.left vertices := by
  have hfold : ∀ (vs : List α) (s : State α), (∀ v ∈ vs, v ∈ vertices) → (vs.foldl meet s).left vertices = s.left vertices := by
    intro vs
    induction vs with
    | nil => exact fun _ _ => rfl
    | cons v vs ih =>
      intro s hvs
      rw [foldl_cons, ih _ fun w hw => hvs w (mem_cons_of_mem _ hw), left_meet (hvs v mem_cons_self)]
  rw [step]
  cases hstack : s.stack with
  | nil => exact absurd hstack hs
  | cons u stack =>
    show (((next u).foldl meet { s with stack }).left vertices) + 1 = _
    rw [hfold _ _ (hnext u), left, left, hstack, length_cons, Nat.add_assoc]

theorem stack_iterate (hnext : ∀ u, ∀ v ∈ next u, v ∈ vertices) : ∀ (fuel : Nat) (s : State α), s.left vertices ≤ fuel →
    ((State.step next)^[fuel] s).stack = []
  | 0, s, hfuel => by
    rw [left, Nat.le_zero, Nat.add_eq_zero_iff] at hfuel
    exact eq_nil_of_length_eq_zero hfuel.2
  | fuel + 1, s, hfuel => by
    rw [Function.iterate_succ_apply]
    by_cases hs : s.stack = []
    · have hstep : s.step next = s := by rw [step, hs]
      rw [hstep]
      clear hfuel
      induction fuel with
      | zero => exact hs
      | succ fuel ih => rw [Function.iterate_succ_apply, hstep]; exact ih
    · have hleft := left_step hnext hs
      exact stack_iterate hnext fuel _ (by omega)

end State

open State

/-- A search with room for every vertex sees what a path from its start leads to. -/
theorem mem_search [DecidableEq α] {next : α → List α} {start : α} {vertices : Finset α} {fuel : Nat}
    (hnext : ∀ u, ∀ v ∈ next u, v ∈ vertices) (hfuel : vertices.card < fuel) {v : α} :
    v ∈ search next start fuel ↔ TransGen (fun u v => v ∈ next u) start v := by
  refine (inv_iterate next start fuel).complete (stack_iterate hnext fuel _ ?_)
  have hle := Finset.card_filter_le vertices (· ∉ (∅ : ExtTreeSet α))
  rw [left, length_singleton]
  exact Nat.le_trans (Nat.add_le_add_right hle 1) hfuel

end Search
