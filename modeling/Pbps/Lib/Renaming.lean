/-
Names carried through renames made one after the other. Where every new name is free when it is taken, a name carried
through and then back is the name it was.
-/
import Mathlib.Data.Set.Function
import Mathlib.Tactic.Common

namespace Renaming

variable {α : Type} [DecidableEq α]

def rename (from_ to_ now : α) : α := if now = from_ then to_ else now

def forward (pairs : List (α × α)) (a : α) : α := pairs.foldl (fun now p => rename p.1 p.2 now) a

/-- A name carried through them in the other order and the other way. -/
def backward (pairs : List (α × α)) (a : α) : α := pairs.reverse.foldl (fun now p => rename p.2 p.1 now) a

/-- Every new name is free among the names there are when it is taken. -/
inductive Free : Set α → List (α × α) → Prop
  | done (s : Set α) : Free s []
  | step {s s' : Set α} {from_ to_ : α} {rest : List (α × α)} (free : to_ ∉ s) (carries : Set.MapsTo (rename from_ to_) s s')
      (later : Free s' rest) : Free s ((from_, to_) :: rest)

variable {s : Set α} {pairs : List (α × α)}

theorem rename_rename {from_ to_ a : α} (hfree : to_ ∉ s) (ha : a ∈ s) : rename to_ from_ (rename from_ to_ a) = a := by
  by_cases h : a = from_
  · have hto : rename from_ to_ a = to_ := if_pos h
    rw [hto, h]
    exact if_pos rfl
  · have hsame : rename from_ to_ a = a := if_neg h
    have hne : a ≠ to_ := fun heq => hfree (heq ▸ ha)
    rw [hsame]
    exact if_neg hne

theorem backward_cons {p : α × α} {a : α} : backward (p :: pairs) a = rename p.2 p.1 (backward pairs a) := by
  rw [backward, List.reverse_cons, List.foldl_append]
  rfl

theorem leftInvOn (h : Free s pairs) : Set.LeftInvOn (backward pairs) (forward pairs) s := by
  induction h with
  | done s => exact fun a _ => rfl
  | @step s s' from_ to_ rest hfree hcarries _ ih =>
    intro a ha
    have hrest : backward rest (forward rest (rename from_ to_ a)) = rename from_ to_ a := ih (hcarries ha)
    have hforward : forward ((from_, to_) :: rest) a = forward rest (rename from_ to_ a) := rfl
    rw [backward_cons, hforward, hrest]
    exact rename_rename hfree ha

end Renaming
