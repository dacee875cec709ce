/-
Append-only timelines: what holds from which boundary on, written in the order of the boundaries, and
what the latest of a list of dated events says.
-/
import Mathlib.Tactic.Common
import Mathlib.Data.List.TakeWhile

/-- Entries in the order they were written, each with the boundary from which it holds. -/
abbrev Timeline (A : Type) := List (Nat × Option A)

namespace Timeline

open List

variable {A : Type} {h : Timeline A} {b c : Nat} {v : Option A}

def valueAt (h : Timeline A) (b : Nat) : Option A := ((h.takeWhile fun e => e.1 ≤ b).getLast?).bind (·.2)

def final (h : Timeline A) : Option A := h.getLast?.bind (·.2)

/-- No entry is later than `b`. -/
def UpTo (h : Timeline A) (b : Nat) : Prop := ∀ e ∈ h, e.1 ≤ b

theorem UpTo.mono (hb : UpTo h b) (hbc : b ≤ c) : UpTo h c := fun e he => Nat.le_trans (hb e he) hbc

theorem UpTo.push (hb : UpTo h b) : UpTo (h ++ [(b, v)]) b := by
  intro e he
  rw [mem_append, mem_singleton] at he
  rcases he with he | rfl
  · exact hb e he
  · exact le_rfl

theorem valueAt_of_upTo (hb : UpTo h b) : valueAt h b = final h := by
  have hall : h.takeWhile (fun e => e.1 ≤ b) = h :=
    takeWhile_eq_self_iff.2 fun e he => decide_eq_true (hb e he)
  rw [valueAt, hall, final]

theorem valueAt_eq_of_le (hb : UpTo h b) (hbc : b ≤ c) : valueAt h c = valueAt h b := by
  rw [valueAt_of_upTo (hb.mono hbc), valueAt_of_upTo hb]

theorem valueAt_push_of_lt (hcb : c < b) : valueAt (h ++ [(b, v)]) c = valueAt h c := by
  have hno : ([(b, v)].takeWhile fun e : Nat × Option A => e.1 ≤ c) = [] := by
    rw [takeWhile_cons, if_neg]
    simp only [decide_eq_true_eq]
    omega
  rw [valueAt, valueAt, List.takeWhile_append, hno, append_nil]
  split
  · next hl =>
    rw [List.IsPrefix.eq_of_length ( takeWhile_prefix _) hl]
  · rfl

theorem valueAt_push_of_le (hb : UpTo h b) (hbc : b ≤ c) : valueAt (h ++ [(b, v)]) c = v := by
  rw [valueAt_eq_of_le hb.push hbc, valueAt_of_upTo hb.push, final, List.getLast?_concat, Option.bind_some]

end Timeline

namespace List

variable {E V : Type} (f : E → V)

def lastSays (before : V) (l : List E) : V := l.getLast?.elim before f

variable (v : V) (l : List E)

@[simp] theorem lastSays_nil : lastSays f v [] = v := rfl

@[simp] theorem lastSays_concat (e : E) : lastSays f v (l ++ [e]) = f e := by
  rw [lastSays, getLast?_concat, Option.elim_some]

theorem lastSays_append (m : List E) : lastSays f v (l ++ m) = lastSays f (lastSays f v l) m := by
  rcases eq_nil_or_concat m with rfl | ⟨m, e, rfl⟩
  · rw [append_nil, lastSays_nil]
  · rw [concat_eq_append, ← append_assoc, lastSays_concat, lastSays_concat]

theorem lastSays_mem : lastSays f v l = v ∨ ∃ e ∈ l, lastSays f v l = f e := by
  rcases eq_nil_or_concat l with rfl | ⟨l, e, rfl⟩
  · exact Or.inl rfl
  · rw [concat_eq_append, lastSays_concat]
    exact Or.inr ⟨e, by simp, rfl⟩

end List
