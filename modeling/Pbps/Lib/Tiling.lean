/-
Half-open pieces that lie end to end: which of them tile a span, that a tiling leaves nothing out and holds nothing
twice, and the pieces that a repeated step makes.
-/
import Mathlib.Tactic

namespace Tiling

open List

variable {α : Type*}

/-! ## Tilings -/

/-- Pieces that begin at `a` and end at `b`, none of them empty, each beginning where the one before ends. -/
def Tiles [LT α] : α → List (α × α) → α → Prop
  | a, [], b => a = b
  | a, p :: ps, b => p.1 = a ∧ p.1 < p.2 ∧ Tiles p.2 ps b

theorem tiles_append [LT α] {c : α} {qs : List (α × α)} :
    ∀ {a : α} {ps : List (α × α)}, Tiles a (ps ++ qs) c ↔ ∃ b, Tiles a ps b ∧ Tiles b qs c
  | a, [] => ⟨fun h => ⟨a, rfl, h⟩, by rintro ⟨b, rfl, h⟩; exact h⟩
  | a, p :: ps => by
    show p.1 = a ∧ p.1 < p.2 ∧ Tiles p.2 (ps ++ qs) c ↔ _
    rw [tiles_append]
    constructor
    · rintro ⟨ha, hp, b, hb, hc⟩
      exact ⟨b, ⟨ha, hp, hb⟩, hc⟩
    · rintro ⟨b, ⟨ha, hp, hb⟩, hc⟩
      exact ⟨ha, hp, b, hb, hc⟩

theorem Tiles.le [Preorder α] {b : α} : ∀ {a : α} {ps : List (α × α)}, Tiles a ps b → a ≤ b
  | _, [], h => le_of_eq h
  | _, _ :: _, ⟨ha, hp, h⟩ => ha ▸ hp.le.trans h.le

theorem Tiles.snd_le [Preorder α] {b : α} : ∀ {a : α} {ps : List (α × α)}, Tiles a ps b → ∀ p ∈ ps, p.2 ≤ b
  | _, [], _, _, hp => by cases hp
  | _, q :: ps, ⟨_, _, h⟩, p, hp => by
    rcases mem_cons.1 hp with rfl | hp
    · exact h.le
    · exact h.snd_le p hp

theorem Tiles.climb [LT α] {height : α → Int} {n : Int} {b : α} :
    ∀ {a : α} {ps : List (α × α)}, Tiles a ps b → (∀ p ∈ ps, height p.2 = height p.1 + n) →
      height b = height a + ps.length * n
  | a, [], h, _ => by
    rw [show a = b from h]
    simp
  | a, q :: ps, ⟨ha, _, h⟩, hps => by
    obtain ⟨hq, hps⟩ := forall_mem_cons.1 hps
    rw [h.climb hps, hq, ha, length_cons]
    push_cast
    ring

/-! ## The pieces of a repeated step -/

section Pieces

variable {next : α → α}

/-- The first `n` pieces from `a`, one step each. -/
def pieces (next : α → α) : α → ℕ → List (α × α)
  | _, 0 => []
  | a, n + 1 => (a, next a) :: pieces next (next a) n

theorem pieces_eq_map (a : α) (n : ℕ) : pieces next a n = (List.range n).map fun i => (next^[i] a, next^[i + 1] a) := by
  induction n generalizing a with
  | zero => rfl
  | succ n ih =>
    rw [range_succ_eq_map, map_cons, map_map]
    show (a, next a) :: pieces next (next a) n = _
    rw [ih]
    rfl

theorem mem_pieces {a : α} {n : ℕ} {p : α × α} : p ∈ pieces next a n ↔ ∃ i < n, p = (next^[i] a, next^[i + 1] a) := by
  simp only [pieces_eq_map, mem_map, mem_range, eq_comm]

theorem pieces_add (m n : ℕ) (a : α) : pieces next a (m + n) = pieces next a m ++ pieces next (next^[m] a) n := by
  induction m generalizing a with
  | zero =>
    rw [Nat.zero_add]
    rfl
  | succ m ih =>
    rw [Nat.add_right_comm, Function.iterate_succ_apply]
    show (a, next a) :: pieces next (next a) (m + n) = _
    rw [ih]
    rfl

theorem tiles_pieces [LT α] (hnext : ∀ a, a < next a) : ∀ (a : α) (n : ℕ), Tiles a (pieces next a n) (next^[n] a)
  | _, 0 => rfl
  | a, n + 1 => ⟨rfl, hnext a, tiles_pieces hnext (next a) n⟩

theorem iterate_strictMono [Preorder α] (hnext : ∀ a, a < next a) (a : α) : StrictMono fun n => next^[n] a := by
  refine strictMono_nat_of_lt_succ fun n => ?_
  rw [Function.iterate_succ_apply']
  exact hnext _

end Pieces

end Tiling
