/-
Occurrences of one list in another: where they are, the first and the last of them, and those a search counts that goes on
after the end of each.
-/
import Mathlib.Data.List.Infix
import Mathlib.Data.Nat.Find

namespace Occurs

open List

variable {α : Type*} {needle hay : List α} {p q : Nat}

/-- `needle` stands in `hay` after `p` elements. -/
def At (needle hay : List α) (p : Nat) : Prop := needle <+: hay.drop p

theorem At.le_length (h : At needle hay p) (hne : needle ≠ []) : p + needle.length ≤ hay.length := by
  have hpos := length_pos_of_ne_nil hne
  have hlen := h.length_le
  rw [length_drop] at hlen
  omega

theorem at_drop {k : Nat} : At needle (hay.drop k) p ↔ At needle hay (k + p) := by
  rw [At, At, drop_drop]

section Find

variable [DecidableEq α]

/-- `str::find`: the first occurrence. -/
def find (needle : List α) : List α → Option Nat
  | [] => if needle = [] then some 0 else none
  | c :: cs => if needle.isPrefixOf (c :: cs) then some 0 else (find needle cs).map (· + 1)

theorem find_eq_none (hne : needle ≠ []) : ∀ {hay : List α}, find needle hay = none ↔ ∀ p, ¬ At needle hay p
  | [] => by
    rw [find, if_neg hne]
    refine ⟨fun _ p hp => ?_, fun _ => rfl⟩
    rw [At, drop_nil, prefix_nil] at hp
    exact hne hp
  | c :: cs => by
    rw [find]
    split
    · next hp =>
      rw [ isPrefixOf_iff_prefix] at hp
      exact ⟨(nomatch ·), fun h => absurd hp (h 0)⟩
    · next hp =>
      rw [ isPrefixOf_iff_prefix] at hp
      rw [Option.map_eq_none_iff, find_eq_none hne]
      refine ⟨fun h p => ?_, fun h p => h (p + 1)⟩
      cases p with
      | zero => exact hp
      | succ p => exact h p

theorem find_eq_some (hne : needle ≠ []) : ∀ {hay : List α} {p : Nat},
    find needle hay = some p ↔ At needle hay p ∧ ∀ q < p, ¬ At needle hay q
  | [], p => by
    rw [find, if_neg hne]
    refine ⟨(nomatch ·), fun ⟨h, _⟩ => ?_⟩
    rw [At, drop_nil, prefix_nil] at h
    exact absurd h hne
  | c :: cs, p => by
    rw [find]
    split
    · next hp =>
      rw [ isPrefixOf_iff_prefix] at hp
      rw [Option.some.injEq]
      constructor
      · rintro rfl
        exact ⟨hp, fun q hq => absurd hq (Nat.not_lt_zero q)⟩
      · rintro ⟨-, hfirst⟩
        by_contra hpos
        exact hfirst 0 (by omega) hp
    · next hp =>
      rw [ isPrefixOf_iff_prefix] at hp
      rw [Option.map_eq_some_iff]
      constructor
      · rintro ⟨r, hr, rfl⟩
        obtain ⟨hat, hfirst⟩ := (find_eq_some hne).1 hr
        refine ⟨hat, fun q hq => ?_⟩
        cases q with
        | zero => exact hp
        | succ q => exact hfirst q (by omega)
      · rintro ⟨hat, hfirst⟩
        cases p with
        | zero => exact absurd hat hp
        | succ p => exact ⟨p, (find_eq_some hne).2 ⟨hat, fun q hq => hfirst (q + 1) (by omega)⟩, rfl⟩

/-- `str::rfind`: the last occurrence. -/
def rfind (needle : List α) : List α → Option Nat
  | [] => if needle = [] then some 0 else none
  | c :: cs =>
    match rfind needle cs with
    | some p => some (p + 1)
    | none => if needle.isPrefixOf (c :: cs) then some 0 else none

theorem rfind_eq_none (hne : needle ≠ []) : ∀ {hay : List α}, rfind needle hay = none ↔ ∀ p, ¬ At needle hay p
  | [] => by
    rw [rfind, if_neg hne]
    refine ⟨fun _ p hp => ?_, fun _ => rfl⟩
    rw [At, drop_nil, prefix_nil] at hp
    exact hne hp
  | c :: cs => by
    have ih : rfind needle cs = none ↔ ∀ p, ¬ At needle cs p := rfind_eq_none hne
    rw [rfind]
    cases hrest : rfind needle cs with
    | some p =>
      refine ⟨(nomatch ·), fun h => ?_⟩
      rw [ih.2 fun p hp => h (p + 1) hp] at hrest
      cases hrest
    | none =>
      have hnone := ih.1 hrest
      dsimp only
      split
      · next hp =>
        rw [ isPrefixOf_iff_prefix] at hp
        exact ⟨(nomatch ·), fun h => absurd hp (h 0)⟩
      · next hp =>
        rw [ isPrefixOf_iff_prefix] at hp
        refine ⟨fun _ p => ?_, fun _ => rfl⟩
        cases p with
        | zero => exact hp
        | succ p => exact hnone p

theorem rfind_eq_some (hne : needle ≠ []) : ∀ {hay : List α} {p : Nat},
    rfind needle hay = some p ↔ At needle hay p ∧ ∀ q, p < q → ¬ At needle hay q
  | [], p => by
    rw [rfind, if_neg hne]
    refine ⟨(nomatch ·), fun ⟨h, _⟩ => ?_⟩
    rw [At, drop_nil, prefix_nil] at h
    exact absurd h hne
  | c :: cs, p => by
    rw [rfind]
    cases hrest : rfind needle cs with
    | some r =>
      obtain ⟨hat, hlast⟩ := (rfind_eq_some hne).1 hrest
      rw [Option.some.injEq]
      constructor
      · rintro rfl
        refine ⟨hat, fun q hq hatq => ?_⟩
        cases q with
        | zero => exact absurd hq (Nat.not_lt_zero _)
        | succ q => exact hlast q (by omega) hatq
      · rintro ⟨hatp, hlastp⟩
        cases p with
        | zero => exact absurd hat (hlastp (r + 1) (by omega))
        | succ p =>
          have hsome : rfind needle cs = some p := (rfind_eq_some hne).2 ⟨hatp, fun q hq => hlastp (q + 1) (by omega)⟩
          rw [hrest, Option.some.injEq] at hsome
          omega
    | none =>
      have hnone := (rfind_eq_none hne).1 hrest
      dsimp only
      split
      · next hp =>
        rw [ isPrefixOf_iff_prefix] at hp
        rw [Option.some.injEq]
        constructor
        · rintro rfl
          refine ⟨hp, fun q hq hatq => ?_⟩
          cases q with
          | zero => exact absurd hq (Nat.not_lt_zero _)
          | succ q => exact hnone q hatq
        · rintro ⟨hatp, -⟩
          cases p with
          | zero => rfl
          | succ p => exact absurd hatp (hnone p)
      · next hp =>
        rw [ isPrefixOf_iff_prefix] at hp
        refine ⟨(nomatch ·), fun ⟨hatp, _⟩ => ?_⟩
        cases p with
        | zero => exact absurd hatp hp
        | succ p => exact absurd hatp (hnone p)

end Find

/-! ## Counted from the left -/

def FirstFrom (needle hay : List α) (start p : Nat) : Prop :=
  start ≤ p ∧ At needle hay p ∧ ∀ q, start ≤ q → q < p → ¬ At needle hay q

/-- An occurrence that is counted when each is looked for after the end of the one before, from a place on. -/
inductive CountedFrom (needle hay : List α) : Nat → Nat → Prop where
  | first {start p : Nat} (h : FirstFrom needle hay start p) : CountedFrom needle hay start p
  | next {start p q : Nat} (h : FirstFrom needle hay start p) (hq : CountedFrom needle hay (p + needle.length) q) :
    CountedFrom needle hay start q

/-- `str::match_indices`: the occurrences counted from the left, none of which overlaps another. -/
def Counted (needle hay : List α) (p : Nat) : Prop := CountedFrom needle hay 0 p

variable {start : Nat}

theorem CountedFrom.at (h : CountedFrom needle hay start p) : At needle hay p := by
  induction h with
  | first h => exact h.2.1
  | next _ _ ih => exact ih

theorem FirstFrom.unique (hp : FirstFrom needle hay start p) (hq : FirstFrom needle hay start q) : p = q := by
  rcases Nat.lt_trichotomy p q with hlt | heq | hlt
  · exact absurd hp.2.1 (hq.2.2 p hp.1 hlt)
  · exact heq
  · exact absurd hq.2.1 (hp.2.2 q hq.1 hlt)

theorem CountedFrom.le (h : CountedFrom needle hay start p) : start ≤ p := by
  induction h with
  | first h => exact h.1
  | next h _ ih => exact le_trans (le_trans h.1 (Nat.le_add_right ..)) ih

/-- An occurrence that is not counted begins within one that is. -/
theorem counted_or_overlapped (hne : needle ≠ []) (hp : At needle hay p) (hstart : start ≤ p) :
    CountedFrom needle hay start p ∨ ∃ q, At needle hay q ∧ q < p ∧ p < q + needle.length := by
  have hpos := length_pos_of_ne_nil hne
  induction hleft : p - start using Nat.strongRecOn generalizing start with
  | ind left ih =>
    obtain ⟨q, ⟨hq, hat⟩, hfirst⟩ : ∃ q, (start ≤ q ∧ At needle hay q) ∧ ∀ r < q, ¬ (start ≤ r ∧ At needle hay r) := by
      classical
      have hex : ∃ q, start ≤ q ∧ At needle hay q := ⟨p, hstart, hp⟩
      exact ⟨Nat.find hex, Nat.find_spec hex, fun r hr => Nat.find_min hex hr⟩
    have hfrom : FirstFrom needle hay start q := ⟨hq, hat, fun r hr hlt h => hfirst r hlt ⟨hr, h⟩⟩
    rcases Nat.lt_trichotomy q p with hlt | rfl | hlt
    · by_cases hover : p < q + needle.length
      · exact .inr ⟨q, hat, hlt, hover⟩
      · exact (ih (p - (q + needle.length)) (by omega) (by omega) rfl).imp_left (.next hfrom)
    · exact .inl (.first hfrom)
    · exact absurd ⟨hstart, hp⟩ (hfirst p hlt)

theorem drop_prefix_of_overlap {q : Nat} (hq : At needle hay q) (hp : At needle hay p) (hlt : q < p) (hover : p < q + needle.length) :
    needle.drop (p - q) <+: needle := by
  obtain ⟨rest, hrest⟩ := hq
  have hdrop : hay.drop p = needle.drop (p - q) ++ rest := by
    rw [← Nat.add_sub_cancel' (Nat.le_of_lt hlt), ← drop_drop, ← hrest, drop_append_of_le_length (by omega)]
    congr 2
    omega
  have hp' : needle <+: needle.drop (p - q) ++ rest := hdrop ▸ hp
  exact prefix_of_prefix_length_le (prefix_append _ rest) hp' (by rw [length_drop]; omega)

end Occurs
