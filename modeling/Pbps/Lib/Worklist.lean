/-
A worklist that may fail. A vertex is taken off the top: one already seen is passed over, any other is visited, which marks
it as seen and puts what it leads to on top. With enough room the list runs empty or a visit fails: in the first case what
was seen is what the paths from the start lead to, in the second the vertex that failed is on such a path.
-/
import Mathlib.Algebra.BigOperators.Group.Finset.Basic
import Mathlib.Algebra.GroupWithZero.Nat

namespace Worklist

open Relation (ReflTransGen)
open List

variable {α σ ε : Type}

/-- What a search has seen, and what a visit does: the state after it and what it puts on top, the first on top of all. -/
structure Search (α σ ε : Type) where
  seen : σ → α → Bool
  visit : σ → α → Except ε (σ × List α)

/-- The search with room for `fuel` vertices to be taken off. -/
def run (w : Search α σ ε) (exhausted : ε) : Nat → σ → List α → Except ε σ
  | _, s, [] => .ok s
  | 0, _, _ :: _ => .error exhausted
  | fuel + 1, s, v :: todo =>
    if w.seen s v then run w exhausted fuel s todo
    else
      match w.visit s v with
      | .error e => .error e
      | .ok (s', pushed) => run w exhausted fuel s' (pushed ++ todo)

def Reach (next : α → α → Prop) (start : List α) (v : α) : Prop := ∃ u ∈ start, ReflTransGen next u v

/-- A visit that succeeds marks the vertex and no other, and puts on top what the vertex leads to. A search meets finitely many
vertices. -/
structure Lawful (w : Search α σ ε) (next : α → α → Prop) (start : List α) (vertices : Finset α) (weight : α → Nat) :
    Prop where
  seen : ∀ {s v s' pushed}, w.visit s v = .ok (s', pushed) → ∀ u, w.seen s' u = true ↔ u = v ∨ w.seen s u = true
  pushed : ∀ {s v s' pushed}, w.visit s v = .ok (s', pushed) → ∀ u, u ∈ pushed ↔ next v u
  vertex : ∀ {s v s' pushed}, Reach next start v → w.visit s v = .ok (s', pushed) → v ∈ vertices
  length : ∀ {s v s' pushed}, w.visit s v = .ok (s', pushed) → pushed.length ≤ weight v

variable {w : Search α σ ε} {next : α → α → Prop} {vertices : Finset α} {weight : α → Nat} {start : List α}

variable {v : α} {s s' : σ} {todo pushed : List α}

theorem Reach.step {u : α} (h : Reach next start u) (huv : next u v) : Reach next start v := by
  obtain ⟨r, hr, hpath⟩ := h
  exact ⟨r, hr, hpath.tail huv⟩

/-! ## What it keeps -/

/-- What is seen or waits lies on a path, and what a seen vertex leads to is seen or waits. -/
structure Inv (w : Search α σ ε) (next : α → α → Prop) (start : List α) (s : σ) (todo : List α) : Prop where
  sound : ∀ v, w.seen s v = true → Reach next start v
  waiting : ∀ v ∈ todo, Reach next start v
  started : ∀ u ∈ start, w.seen s u = true ∨ u ∈ todo
  closed : ∀ u v, w.seen s u = true → next u v → w.seen s v = true ∨ v ∈ todo

theorem inv_start (hs : ∀ v, w.seen s v = false) : Inv w next start s start where
  sound v hv := by rw [hs v] at hv; cases hv
  waiting v hv := ⟨v, hv, .refl⟩
  started u hu := .inr hu
  closed u v hu := by rw [hs u] at hu; cases hu

theorem Inv.skip (h : Inv w next start s (v :: todo)) (hv : w.seen s v = true) : Inv w next start s todo where
  sound := h.sound
  waiting u hu := h.waiting u (mem_cons_of_mem _ hu)
  started u hu := by
    rcases h.started u hu with hseen | hmem
    · exact .inl hseen
    · rcases mem_cons.1 hmem with rfl | hmem
      · exact .inl hv
      · exact .inr hmem
  closed a b ha hab := by
    rcases h.closed a b ha hab with hseen | hmem
    · exact .inl hseen
    · rcases mem_cons.1 hmem with rfl | hmem
      · exact .inl hv
      · exact .inr hmem

theorem Inv.visit (hw : Lawful w next start vertices weight) (h : Inv w next start s (v :: todo))
    (hvisit : w.visit s v = .ok (s', pushed)) : Inv w next start s' (pushed ++ todo) := by
  have hv : Reach next start v := h.waiting v mem_cons_self
  have hwait : ∀ u, w.seen s u = true ∨ u ∈ v :: todo → w.seen s' u = true ∨ u ∈ pushed ++ todo := by
    rintro u (hseen | hmem)
    · exact .inl ((hw.seen hvisit u).2 (.inr hseen))
    · rcases mem_cons.1 hmem with rfl | hmem
      · exact .inl ((hw.seen hvisit u).2 (.inl rfl))
      · exact .inr (mem_append_right _ hmem)
  constructor
  case sound =>
    intro u hu
    rcases (hw.seen hvisit u).1 hu with rfl | hu
    · exact hv
    · exact h.sound u hu
  case waiting =>
    intro u hu
    rcases mem_append.1 hu with hu | hu
    · exact hv.step ((hw.pushed hvisit u).1 hu)
    · exact h.waiting u (mem_cons_of_mem _ hu)
  case started => exact fun u hu => hwait u (h.started u hu)
  case closed =>
    intro a b ha hab
    rcases (hw.seen hvisit a).1 ha with rfl | ha
    · exact .inr (mem_append_left _ ((hw.pushed hvisit b).2 hab))
    · exact hwait b (h.closed a b ha hab)

theorem Inv.complete (h : Inv w next start s []) (v : α) : w.seen s v = true ↔ Reach next start v := by
  refine ⟨h.sound v, ?_⟩
  rintro ⟨u, hu, hpath⟩
  induction hpath with
  | refl => exact (h.started u hu).resolve_right not_mem_nil
  | tail _ hbc ih => exact (h.closed _ _ ih hbc).resolve_right not_mem_nil

/-! ## It ends -/

def left (w : Search α σ ε) (vertices : Finset α) (weight : α → Nat) (s : σ) (todo : List α) : Nat :=
  todo.length + ∑ v ∈ vertices.filter (w.seen s · = false), (weight v)

theorem left_visit (hw : Lawful w next start vertices weight) (hreach : Reach next start v) (hv : w.seen s v = false)
    (hvisit : w.visit s v = .ok (s', pushed)) :
    left w vertices weight s' (pushed ++ todo) < left w vertices weight s (v :: todo) := by
  classical
  have hmem : v ∈ vertices.filter (w.seen s · = false) := Finset.mem_filter.2 ⟨hw.vertex hreach hvisit, hv⟩
  have herase : vertices.filter (w.seen s' · = false) = (vertices.filter (w.seen s · = false)).erase v := by
    ext u
    rw [Finset.mem_filter, Finset.mem_erase, Finset.mem_filter, ← Bool.not_eq_true, ← Bool.not_eq_true, hw.seen hvisit u]
    tauto
  have hsum := Finset.add_sum_erase _ weight hmem
  have hlength := hw.length hvisit
  rw [left, left, herase, length_append, length_cons]
  omega

/-- The rule of a search: what its visits keep holds where it ends, and it ends with what the paths lead to or at one of
these that fails. -/
theorem run_spec (hw : Lawful w next start vertices weight) (exhausted : ε) (P : σ → Prop)
    (hP : ∀ s v s' pushed, P s → Reach next start v → w.seen s v = false → w.visit s v = .ok (s', pushed) → P s') :
    ∀ (fuel : Nat) (s : σ) (todo : List α), P s → Inv w next start s todo → left w vertices weight s todo ≤ fuel →
      (∃ s', run w exhausted fuel s todo = .ok s' ∧ P s' ∧ ∀ v, w.seen s' v = true ↔ Reach next start v) ∨
      ∃ s' v e, run w exhausted fuel s todo = .error e ∧ P s' ∧ Reach next start v ∧ w.visit s' v = .error e
  | fuel, s, [], hs, hinv, _ => by
    have hrun : run w exhausted fuel s [] = .ok s := by cases fuel <;> rfl
    exact .inl ⟨s, hrun, hs, hinv.complete⟩
  | 0, s, v :: todo, _, _, hfuel => by
    rw [left, length_cons] at hfuel
    omega
  | fuel + 1, s, v :: todo, hs, hinv, hfuel => by
    by_cases hv : w.seen s v = true
    · have hleft : left w vertices weight s todo ≤ fuel := by
        rw [left, length_cons] at hfuel
        rw [left]
        omega
      rw [run, if_pos hv]
      exact run_spec hw exhausted P hP fuel s todo hs (hinv.skip hv) hleft
    · have hreach : Reach next start v := hinv.waiting v mem_cons_self
      rw [run, if_neg hv]
      cases hvisit : w.visit s v with
      | error e => exact .inr ⟨s, v, e, rfl, hs, hreach, hvisit⟩
      | ok r =>
        obtain ⟨s', pushed⟩ := r
        have hlt : left w vertices weight s' (pushed ++ todo) < left w vertices weight s (v :: todo) :=
          left_visit hw hreach (Bool.eq_false_iff.2 hv) hvisit
        exact run_spec hw exhausted P hP fuel s' (pushed ++ todo) (hP s v s' pushed hs hreach (Bool.eq_false_iff.2 hv) hvisit)
          (hinv.visit hw hvisit) (by omega)

end Worklist
