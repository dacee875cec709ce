/-
Registries: anchors that name objects, some of them retired. Objects may stand under a parent
object. Four edits change a registry: every name is relabelled, a set of objects is retired, a set
of objects is forgotten, or one new anchor is minted. Each keeps a registry well formed, and keeps
the account of what became of the anchors of an earlier registry.
-/
import Mathlib.Data.Set.Function

namespace Registry

open Option

variable {U O : Type*}

/-- What each anchor names now, and which anchors are retired. -/
structure State (U O : Type*) where
  live : U → Option O
  dead : U → Prop

namespace State

variable (s : State U O)

def objects : Set O := {o | ∃ u, s.live u = some o}

def relabel (g : O → O) : State U O where
  live u := (s.live u).map g
  dead := s.dead

def retire (P : O → Prop) [DecidablePred P] : State U O where
  live u := (s.live u).filter fun o => ¬ P o
  dead u := s.dead u ∨ ∃ o, s.live u = some o ∧ P o

/-- The anchors of some objects leave the registry without a record. -/
def forget (P : O → Prop) [DecidablePred P] : State U O where
  live u := (s.live u).filter fun o => ¬ P o
  dead := s.dead

def mint [DecidableEq U] (u : U) (o : O) : State U O where
  live v := if v = u then some o else s.live v
  dead := s.dead

end State

/-- Every object has one anchor and a live parent, and no retired anchor names anything. -/
structure Wf (parent : O → Option O) (s : State U O) : Prop where
  unique : ∀ u v o, s.live u = some o → s.live v = some o → u = v
  parent : ∀ u o p, s.live u = some o → parent o = some p → p ∈ s.objects
  apart : ∀ u, s.dead u → s.live u = none

/-- What became of the anchors of `s₀`: each names an object reached from the one it named, or was
retired as an object that may be dropped, or named one that may be forgotten and is gone, unless it
was drawn again; and what was retired stays so. -/
structure Accounts (Reach : O → O → Prop) (Dropped Forgotten : O → Prop) (Drawn : U → Prop) (s₀ s : State U O) :
    Prop where
  anchors : ∀ u o, s₀.live u = some o →
    (∃ o', s.live u = some o' ∧ Reach o o') ∨ (s.dead u ∧ Dropped o) ∨
      (Forgotten o ∧ (Drawn u ∨ (s.live u = none ∧ ¬ s.dead u)))
  dead : ∀ u, s₀.dead u → s.dead u

theorem filter_eq_some {P : O → Prop} [DecidablePred P] {x : Option O} {o : O} :
    (x.filter fun o => ¬ P o) = some o ↔ x = some o ∧ ¬ P o := by
  cases x with
  | none => simp
  | some a =>
    simp only [filter_some, some.injEq]
    constructor
    · intro h
      by_cases ha : P a
      · simp [ha] at h
      · simp only [ha, not_false_eq_true, decide_true, if_true, some.injEq] at h
        subst h; exact ⟨rfl, ha⟩
    · rintro ⟨rfl, ha⟩
      simp [ha]

section Wf

variable {parent : O → Option O} {s : State U O}

theorem Wf.relabel (h : Wf parent s) {g : O → O} (inj : Set.InjOn g s.objects)
    (hp : ∀ o ∈ s.objects, parent (g o) = (parent o).map g) : Wf parent (s.relabel g) := by
  refine ⟨fun u v o hu hv => ?_, fun u o p hu hpar => ?_, fun u hd => ?_⟩
  · obtain ⟨a, ha, rfl⟩ := map_eq_some_iff.1 hu
    obtain ⟨b, hb, hab⟩ := map_eq_some_iff.1 hv
    have : b = a := inj ⟨v, hb⟩ ⟨u, ha⟩ hab
    subst this
    exact h.unique u v b ha hb
  · obtain ⟨a, ha, rfl⟩ := map_eq_some_iff.1 hu
    rw [hp a ⟨u, ha⟩] at hpar
    obtain ⟨q, hq, rfl⟩ := map_eq_some_iff.1 hpar
    obtain ⟨v, hv⟩ := h.parent u a q ha hq
    exact ⟨v, by simp [State.relabel, hv]⟩
  · have := h.apart u hd
    simp [State.relabel, this]

theorem Wf.retire (h : Wf parent s) {P : O → Prop} [DecidablePred P]
    (down : ∀ o p, parent o = some p → P p → P o) : Wf parent (s.retire P) := by
  refine ⟨fun u v o hu hv => ?_, fun u o p hu hpar => ?_, fun u hd => ?_⟩
  · exact h.unique u v o (filter_eq_some.1 hu).1 (filter_eq_some.1 hv).1
  · obtain ⟨hu, hP⟩ := filter_eq_some.1 hu
    obtain ⟨v, hv⟩ := h.parent u o p hu hpar
    exact ⟨v, filter_eq_some.2 ⟨hv, fun hp => hP (down o p hpar hp)⟩⟩
  · show (s.live u).filter _ = none
    rcases hd with hd | ⟨o, ho, hP⟩
    · rw [h.apart u hd]; rfl
    · rw [ho]; simp [Option.filter, hP]

theorem Wf.forget (h : Wf parent s) {P : O → Prop} [DecidablePred P]
    (down : ∀ o p, parent o = some p → P p → P o) : Wf parent (s.forget P) := by
  have := h.retire (P := P) down
  refine ⟨this.unique, this.parent, fun u hd => ?_⟩
  exact this.apart u (Or.inl hd)

theorem Wf.mint [DecidableEq U] (h : Wf parent s) {u : U} {o : O} (hd : ¬ s.dead u) (hl : s.live u = none)
    (ho : o ∉ s.objects) (hp : ∀ p, parent o = some p → p ∈ s.objects) : Wf parent (s.mint u o) := by
  have keep : ∀ v a, s.live v = some a → (s.mint u o).live v = some a := by
    intro v a hv
    have : v ≠ u := by rintro rfl; rw [hl] at hv; cases hv
    simp [State.mint, this, hv]
  have back : ∀ v a, (s.mint u o).live v = some a → (v = u ∧ a = o) ∨ s.live v = some a := by
    intro v a hv
    by_cases hvu : v = u
    · left; simp [State.mint, hvu] at hv; exact ⟨hvu, hv.symm⟩
    · right; simpa [State.mint, hvu] using hv
  refine ⟨fun v w a hv hw => ?_, fun v a p hv hpar => ?_, fun v hv => ?_⟩
  · rcases back v a hv with ⟨rfl, rfl⟩ | hv <;> rcases back w _ hw with ⟨hw1, hw2⟩ | hw
    · exact hw1.symm
    · exact absurd ⟨w, hw⟩ ho
    · rw [hw2] at hv; exact absurd ⟨v, hv⟩ ho
    · exact h.unique v w a hv hw
  · have : p ∈ s.objects := by
      rcases back v a hv with ⟨-, rfl⟩ | hv
      · exact hp p hpar
      · exact h.parent v a p hv hpar
    obtain ⟨w, hw⟩ := this
    exact ⟨w, keep w p hw⟩
  · have hvu : v ≠ u := by rintro rfl; exact hd hv
    simp [State.mint, hvu, h.apart v hv]

end Wf

section Accounts

variable {Reach : O → O → Prop} {Dropped Forgotten : O → Prop} {Drawn : U → Prop} {s₀ s : State U O}

theorem Accounts.refl (hr : ∀ o, Reach o o) : Accounts Reach Dropped Forgotten Drawn s₀ s₀ :=
  ⟨fun _ o h => Or.inl ⟨o, h, hr o⟩, fun _ h => h⟩

theorem Accounts.relabel (h : Accounts Reach Dropped Forgotten Drawn s₀ s) {g : O → O}
    (hg : ∀ o o', Reach o o' → o' ∈ s.objects → Reach o (g o')) : Accounts Reach Dropped Forgotten Drawn s₀ (s.relabel g) := by
  refine ⟨fun u o ho => ?_, h.dead⟩
  rcases h.anchors u o ho with ⟨o', h1, h2⟩ | h | ⟨hf, hd | ⟨hl, hd⟩⟩
  · exact Or.inl ⟨g o', by simp [State.relabel, h1], hg o o' h2 ⟨u, h1⟩⟩
  · exact Or.inr (Or.inl h)
  · exact Or.inr (Or.inr ⟨hf, Or.inl hd⟩)
  · exact Or.inr (Or.inr ⟨hf, Or.inr ⟨by simp [State.relabel, hl], hd⟩⟩)

theorem Accounts.retire (h : Accounts Reach Dropped Forgotten Drawn s₀ s) {P : O → Prop} [DecidablePred P]
    (hP : ∀ o o', Reach o o' → P o' → Dropped o) : Accounts Reach Dropped Forgotten Drawn s₀ (s.retire P) := by
  refine ⟨fun u o ho => ?_, fun u hu => Or.inl (h.dead u hu)⟩
  rcases h.anchors u o ho with ⟨o', h1, h2⟩ | ⟨h1, h2⟩ | ⟨hf, hd | ⟨hl, hd⟩⟩
  · by_cases hp : P o'
    · exact Or.inr (Or.inl ⟨Or.inr ⟨o', h1, hp⟩, hP o o' h2 hp⟩)
    · exact Or.inl ⟨o', filter_eq_some.2 ⟨h1, hp⟩, h2⟩
  · exact Or.inr (Or.inl ⟨Or.inl h1, h2⟩)
  · exact Or.inr (Or.inr ⟨hf, Or.inl hd⟩)
  · refine Or.inr (Or.inr ⟨hf, Or.inr ⟨by simp [State.retire, hl], ?_⟩⟩)
    rintro (h | ⟨o', ho', -⟩)
    · exact hd h
    · rw [hl] at ho'; cases ho'

theorem Accounts.forget {parent : O → Option O} (hw : Wf parent s)
    (h : Accounts Reach Dropped Forgotten Drawn s₀ s) {P : O → Prop} [DecidablePred P]
    (hP : ∀ o o', Reach o o' → P o' → Forgotten o) : Accounts Reach Dropped Forgotten Drawn s₀ (s.forget P) := by
  refine ⟨fun u o ho => ?_, h.dead⟩
  rcases h.anchors u o ho with ⟨o', h1, h2⟩ | h | ⟨hf, hd | ⟨hl, hd⟩⟩
  · by_cases hp : P o'
    · refine Or.inr (Or.inr ⟨hP o o' h2 hp, Or.inr ⟨by simp [State.forget, h1, Option.filter, hp], fun hd => ?_⟩⟩)
      rw [hw.apart u hd] at h1; cases h1
    · exact Or.inl ⟨o', filter_eq_some.2 ⟨h1, hp⟩, h2⟩
  · exact Or.inr (Or.inl h)
  · exact Or.inr (Or.inr ⟨hf, Or.inl hd⟩)
  · exact Or.inr (Or.inr ⟨hf, Or.inr ⟨by simp [State.forget, hl], hd⟩⟩)

theorem Accounts.mint [DecidableEq U] (h : Accounts Reach Dropped Forgotten Drawn s₀ s) {u : U} {o : O}
    (hl : s.live u = none) (hu : Drawn u) : Accounts Reach Dropped Forgotten Drawn s₀ (s.mint u o) := by
  refine ⟨fun v a ha => ?_, h.dead⟩
  rcases h.anchors v a ha with ⟨a', h1, h2⟩ | h | ⟨hf, hd | ⟨hl', hd⟩⟩
  · have : v ≠ u := by rintro rfl; rw [hl] at h1; cases h1
    exact Or.inl ⟨a', by simp [State.mint, this, h1], h2⟩
  · exact Or.inr (Or.inl h)
  · exact Or.inr (Or.inr ⟨hf, Or.inl hd⟩)
  · by_cases hv : v = u
    · exact Or.inr (Or.inr ⟨hf, Or.inl (hv ▸ hu)⟩)
    · exact Or.inr (Or.inr ⟨hf, Or.inr ⟨by simp [State.mint, hv, hl'], hd⟩⟩)

end Accounts

end Registry
