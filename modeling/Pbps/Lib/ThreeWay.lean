/-
A three-way merge by key. A value is decided by what each side did to it: a side that left it alone yields to the side
that changed it, and two different changes go to a judge that may settle them or not. Absence is a value, so deletions
are changes like any other. With a judge that does not look at the sides' order, neither does the merge.
-/
import Mathlib.Data.List.Nodup
import Mathlib.Data.List.Perm.Basic

namespace ThreeWay

open List

variable {V : Type} [DecidableEq V]

/-- The side that changed, or an error when both changed it differently. -/
def pick (base ours theirs : Option V) : Except Unit (Option V) :=
  if ours = theirs ∨ theirs = base then .ok ours
  else if ours = base then .ok theirs
  else .error ()

/-- The value that follows, where the judge may settle two that are there; none is a conflict. -/
def choose (judge : V → V → Option V) (base ours theirs : Option V) : Option (Option V) :=
  match pick base ours theirs with
  | .ok v => some v
  | .error () =>
    match ours, theirs with
    | some x, some y => (judge x y).map some
    | _, _ => none

def never (_ _ : V) : Option V := none

/-! ## Values -/

section Values

variable {judge : V → V → Option V} {base ours theirs : Option V}

theorem pick_self : pick base ours ours = .ok ours := by
  rw [pick, if_pos (.inl rfl)]

theorem pick_base_right : pick base ours base = .ok ours := by
  rw [pick, if_pos (.inr rfl)]

theorem pick_base_left : pick base base theirs = .ok theirs := by
  rw [pick]
  split
  · next h => rcases h with h | h <;> rw [h]
  · rw [if_pos rfl]

theorem pick_error_iff : pick base ours theirs = .error () ↔ ours ≠ theirs ∧ theirs ≠ base ∧ ours ≠ base := by
  rw [pick]
  split
  · next h => simp only [reduceCtorEq, false_iff]; tauto
  · next h =>
    split
    · next h' => simp only [reduceCtorEq, false_iff]; tauto
    · next h' => simp only [true_iff]; tauto

theorem pick_comm : pick base theirs ours = pick base ours theirs := by
  by_cases h1 : ours = theirs
  · rw [h1]
  · by_cases h2 : theirs = base
    · rw [h2, pick_base_left, pick_base_right]
    · by_cases h3 : ours = base
      · rw [h3, pick_base_left, pick_base_right]
      · rw [pick_error_iff.2 ⟨h1, h2, h3⟩, pick_error_iff.2 ⟨Ne.symm h1, h3, h2⟩]

variable {v : Option V}

theorem pick_eq_ok (h : pick base ours theirs = .ok v) :
    (v = ours ∧ (ours = theirs ∨ theirs = base)) ∨ (v = theirs ∧ ours = base) := by
  rw [pick] at h
  split at h
  · next hc => exact .inl ⟨(Except.ok.inj h).symm, hc⟩
  · split at h
    · next hc => exact .inr ⟨(Except.ok.inj h).symm, hc⟩
    · cases h

theorem choose_of_pick (h : pick base ours theirs = .ok v) : choose judge base ours theirs = some v := by
  unfold choose
  rw [h]

theorem choose_self : choose judge base ours ours = some ours := choose_of_pick pick_self

theorem choose_base_right : choose judge base ours base = some ours := choose_of_pick pick_base_right

theorem choose_base_left : choose judge base base theirs = some theirs := choose_of_pick pick_base_left

theorem pick_of_choose_never (h : choose never base ours theirs = some v) : pick base ours theirs = .ok v := by
  unfold choose at h
  split at h
  · next w hw =>
    cases h
    exact hw
  · split at h <;> cases h

theorem choose_comm (hjudge : ∀ x y, judge x y = judge y x) : choose judge base theirs ours = choose judge base ours theirs := by
  unfold choose
  rw [pick_comm]
  cases pick base ours theirs with
  | ok v => rfl
  | error u =>
    cases ours with
    | none => cases theirs <;> rfl
    | some x =>
      cases theirs with
      | none => rfl
      | some y => simp only [hjudge x y]

/-- A value that follows is a side's, the other having left it alone, or the judge's. -/
theorem choose_cases (h : choose judge base ours theirs = some v) :
    (v = ours ∧ (ours = theirs ∨ theirs = base)) ∨ (v = theirs ∧ ours = base) ∨
      ∃ x y z, ours = some x ∧ theirs = some y ∧ judge x y = some z ∧ v = some z ∧ ours ≠ theirs ∧ theirs ≠ base ∧ ours ≠ base := by
  unfold choose at h
  split at h
  · next w hw =>
    cases h
    exact (pick_eq_ok hw).imp_right .inl
  · next hw =>
    split at h
    · next x y =>
      obtain ⟨z, hz, rfl⟩ := Option.map_eq_some_iff.1 h
      obtain ⟨h1, h2, h3⟩ := pick_error_iff.1 hw
      exact .inr (.inr ⟨x, y, z, rfl, rfl, hz, rfl, h1, h2, h3⟩)
    · cases h

end Values

/-! ## Keys -/

section Keys

variable {K : Type} [DecidableEq K]

/-- The first side's keys in its order, then what only the second holds. -/
def keys (ours theirs : List K) : List K := ours ++ theirs.filter fun k => !ours.contains k

variable {ours theirs : List K}

theorem mem_keys {k : K} : k ∈ keys ours theirs ↔ k ∈ ours ∨ k ∈ theirs := by
  simp only [keys, mem_append, mem_filter, Bool.not_eq_true', contains_eq_mem, decide_eq_false_iff_not]
  tauto

theorem nodup_keys (ho : ours.Nodup) (ht : theirs.Nodup) : (keys ours theirs).Nodup := by
  rw [keys, nodup_append']
  refine ⟨ho, ht.filter _, ?_⟩
  rw [disjoint_left]
  intro k hk hk'
  simp [hk] at hk'

theorem keys_comm (ho : ours.Nodup) (ht : theirs.Nodup) : (keys theirs ours).Perm (keys ours theirs) := by
  rw [perm_ext_iff_of_nodup (nodup_keys ht ho) (nodup_keys ho ht)]
  intro k
  rw [mem_keys, mem_keys]
  exact Or.comm

end Keys

end ThreeWay
