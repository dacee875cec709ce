/-
Draining a graph of who waits for whom: a vertex that waits for nothing is taken off, and those that wait for it wait for
one less. What is left at the end is empty exactly if nothing waits for itself, and no vertex is looked for in vain.
-/
import Pbps.Lib.Rounds
import Pbps.Lib.Map

namespace Drain

open Std (ExtTreeMap ExtTreeSet TransOrd LawfulEqOrd)
open Relation (TransGen ReflTransGen)
open List Std.ExtTreeMap

variable {α ε : Type} [Ord α] [TransOrd α]

structure State (α : Type) [Ord α] where
  waits : ExtTreeMap α (ExtTreeSet α)
  ready : List α

/-- One that waits for the vertex taken off: it waits for it no longer, and is ready if that was the last. `missing` is for
one that is not there. -/
def release (missing : ε) (id : α) (s : State α) (next : α) : Except ε (State α) :=
  match s.waits[next]? with
  | none => .error missing
  | some deps =>
    let left := deps.erase id
    .ok { waits := s.waits.insert next left
          ready := if deps.contains id && left.isEmpty then next :: s.ready else s.ready }

/-- The loop with room for `fuel` vertices. -/
def drain (missing exhausted : ε) (users : ExtTreeMap α (ExtTreeSet α)) :
    Nat → State α → Except ε (ExtTreeMap α (ExtTreeSet α))
  | _, ⟨waits, []⟩ => .ok waits
  | 0, ⟨_, _ :: _⟩ => .error exhausted
  | fuel + 1, ⟨waits, id :: ready⟩ => do
    let next := ((users[id]?).getD ∅).toList
    let s ← next.foldlM (release missing id) ⟨waits.erase id, ready⟩
    drain missing exhausted users fuel s

/-! ## Those released -/

variable [LawfulEqOrd α] {missing exhausted : ε} {users : ExtTreeMap α (ExtTreeSet α)}

variable {id : α} {ready : List α} {waits : ExtTreeMap α (ExtTreeSet α)}

theorem foldlM_release : ∀ (next : List α) {s : State α}, next.Nodup →
    (∀ b ∈ next, ∃ d, s.waits[b]? = some d ∧ id ∈ d) → (∀ b ∈ next, b ∉ s.ready) → s.ready.Nodup →
    ∃ s', next.foldlM (release missing id) s = .ok s' ∧
      (∀ v, v ∉ next → s'.waits[v]? = s.waits[v]?) ∧ (∀ v ∈ next, s'.waits[v]? = (s.waits[v]?).map (·.erase id)) ∧
      (∀ v, v ∈ s'.ready ↔ v ∈ s.ready ∨ v ∈ next ∧ ∃ d, s'.waits[v]? = some d ∧ d.isEmpty = true) ∧ s'.ready.Nodup
  | [], s, _, _, _, hready => ⟨s, rfl, fun _ _ => rfl, fun _ h => absurd h not_mem_nil, fun v => by simp, hready⟩
  | b :: next, s, hnodup, hwaits, hnew, hready => by
    obtain ⟨hb, hnodup⟩ := nodup_cons.1 hnodup
    obtain ⟨d, hd, hid⟩ := hwaits b mem_cons_self
    let s1 : State α :=
      { waits := s.waits.insert b (d.erase id), ready := if (d.erase id).isEmpty then b :: s.ready else s.ready }
    have hstep : release missing id s b = .ok s1 := by
      rw [release, hd]
      simp [s1, ExtTreeSet.contains_iff_mem.2 hid]
    have hother : ∀ v, v ≠ b → s1.waits[v]? = s.waits[v]? := fun v hv => getElem?_insert_of_ne hv
    have hne : ∀ v ∈ next, v ≠ b := fun v hv heq => hb (heq ▸ hv)
    have hready1 : s1.ready.Nodup := by
      show (if (d.erase id).isEmpty then b :: s.ready else s.ready).Nodup
      split
      · exact nodup_cons.2 ⟨hnew b mem_cons_self, hready⟩
      · exact hready
    have hmem1 : ∀ v, v ∈ s1.ready ↔ v ∈ s.ready ∨ v = b ∧ (d.erase id).isEmpty = true := by
      intro v
      show v ∈ (if (d.erase id).isEmpty then b :: s.ready else s.ready) ↔ _
      by_cases he : (d.erase id).isEmpty = true
      · simp [he, or_comm]
      · simp [he]
    obtain ⟨s', hs', hout, hin, hrdy, hnd⟩ := foldlM_release next (s := s1) hnodup
      (fun v hv => by rw [hother v (hne v hv)]; exact hwaits v (mem_cons_of_mem _ hv))
      (fun v hv => by
        rw [hmem1]
        rintro (h | ⟨rfl, -⟩)
        · exact hnew v (mem_cons_of_mem _ hv) h
        · exact hb hv) hready1
    have hself : s'.waits[b]? = some (d.erase id) := by
      rw [hout b hb]
      exact getElem?_insert_self
    refine ⟨s', by rw [foldlM_cons, hstep]; exact hs', ?_, ?_, ?_, hnd⟩
    · intro v hv
      rw [mem_cons, not_or] at hv
      rw [hout v hv.2, hother v hv.1]
    · intro v hv
      rcases mem_cons.1 hv with rfl | hv
      · rw [hself, hd]
        rfl
      · rw [hin v hv, hother v (hne v hv)]
    · intro v
      rw [hrdy, hmem1, mem_cons]
      constructor
      · rintro ((h | ⟨rfl, h⟩) | ⟨hv, h⟩)
        · exact .inl h
        · exact .inr ⟨.inl rfl, _, hself, h⟩
        · exact .inr ⟨.inr hv, h⟩
      · rintro (h | ⟨rfl | hv, h⟩)
        · exact .inl (.inl h)
        · obtain ⟨d', hd', he⟩ := h
          rw [hself] at hd'; cases hd'
          exact .inl (.inr ⟨rfl, he⟩)
        · exact .inr ⟨hv, h⟩

/-! ## What a step keeps -/

/-- Those taken off are none that waits, even for itself, for one that is left; those left wait for those left. -/
structure Inv (w : α → α → Prop) (keys : List α) (off : List α) (s : State α) : Prop where
  kept : ∀ v, v ∈ s.waits ↔ v ∈ keys ∧ v ∉ off
  deps : ∀ v d, s.waits[v]? = some d → ∀ a, a ∈ d ↔ w a v ∧ a ∉ off
  ready : ∀ v, v ∈ s.ready ↔ ∃ d, s.waits[v]? = some d ∧ d.isEmpty = true
  nodup : s.ready.Nodup
  offKeys : ∀ v ∈ off, v ∈ keys
  offNodup : off.Nodup
  closed : ∀ v ∈ off, ∀ a, w a v → a ∈ off
  acyclic : ∀ v ∈ off, ¬ TransGen w v v

variable {w : α → α → Prop} {keys off : List α}

theorem isEmpty_iff {d : ExtTreeSet α} : d.isEmpty = true ↔ ∀ a, a ∉ d := by
  constructor
  · intro h a
    rw [ExtTreeSet.isEmpty_iff.1 h]
    exact ExtTreeSet.not_mem_empty
  · exact ExtTreeSet.isEmpty_of_forall

theorem inv_step (husers : ∀ a b, b ∈ (users[a]?).getD ∅ ↔ w a b) (hends : ∀ a b, w a b → b ∈ keys)
    (h : Inv w keys off ⟨waits, id :: ready⟩) :
    ∃ s', (((users[id]?).getD ∅).toList.foldlM (release missing id) ⟨waits.erase id, ready⟩ : Except ε (State α)) = .ok s' ∧
      Inv w keys (id :: off) s' := by
  classical
  obtain ⟨did, hdid, hempty⟩ := (h.ready id).1 mem_cons_self
  have hid : id ∈ keys ∧ id ∉ off := (h.kept id).1 (mem_of_getElem?_eq hdid)
  have hfree : ∀ a, w a id → a ∈ off := by
    intro a ha
    by_contra hoff
    exact isEmpty_iff.1 hempty a ((h.deps id did hdid a).2 ⟨ha, hoff⟩)
  have hnext : ∀ b, b ∈ ((users[id]?).getD ∅).toList ↔ w id b := fun b => by rw [ExtTreeSet.mem_toList, husers]
  obtain ⟨hidReady, hreadyNodup⟩ := nodup_cons.1 h.nodup
  have hwaiting : ∀ b, w id b → b ≠ id ∧ ∃ d, waits[b]? = some d ∧ id ∈ d := by
    intro b hb
    refine ⟨fun heq => hid.2 (hfree id (heq ▸ hb)), ?_⟩
    have hoff : b ∉ off := fun hoff => hid.2 (h.closed b hoff id hb)
    obtain ⟨d, hd⟩ := mem_iff_exists.1 ((h.kept b).2 ⟨hends id b hb, hoff⟩)
    exact ⟨d, hd, (h.deps b d hd id).2 ⟨hb, hid.2⟩⟩
  obtain ⟨s', hs', hout, hin, hrdy, hnd⟩ := @foldlM_release α ε _ _ _ missing id ((users[id]?).getD ∅).toList
    (s := ⟨waits.erase id, ready⟩) ExtTreeSet.nodup_toList
    (fun b hb => by
      obtain ⟨hne, hd⟩ := hwaiting b ((hnext b).1 hb)
      rwa [show (waits.erase id)[b]? = waits[b]? from getElem?_erase_of_ne hne])
    (fun b hb hready => by
      obtain ⟨hne, d, hd, hmem⟩ := hwaiting b ((hnext b).1 hb)
      obtain ⟨d', hd', he⟩ := (h.ready b).1 (mem_cons_of_mem _ hready)
      rw [show waits[b]? = some d from hd] at hd'; cases hd'
      exact isEmpty_iff.1 he id hmem) hreadyNodup
  -- the entry of a vertex after the step, from its entry before it
  have hentry : ∀ v d, s'.waits[v]? = some d ↔ v ≠ id ∧ ∃ d0, waits[v]? = some d0 ∧ d = if w id v then d0.erase id else d0 := by
    intro v d
    by_cases hv : w id v
    · obtain ⟨hne, d0, hd0, -⟩ := hwaiting v hv
      rw [hin v ((hnext v).2 hv), show (waits.erase id)[v]? = waits[v]? from getElem?_erase_of_ne hne, hd0]
      simp [hne, hv, eq_comm]
    · rw [hout v fun hmem => hv ((hnext v).1 hmem)]
      simp only [if_neg hv]
      rw [show (waits.erase id)[v]? = some d ↔ _ from getElem?_erase_eq_some]
      simp
  refine ⟨s', hs', ?_⟩
  constructor
  case kept =>
    intro v
    rw [mem_iff_exists]
    simp only [hentry]
    have hv := h.kept v
    rw [mem_iff_exists] at hv
    rw [mem_cons, not_or]
    constructor
    · rintro ⟨d, hne, d0, hd0, -⟩
      obtain ⟨hk, hoff⟩ := hv.1 ⟨d0, hd0⟩
      exact ⟨hk, hne, hoff⟩
    · rintro ⟨hk, hne, hoff⟩
      obtain ⟨d0, hd0⟩ := hv.2 ⟨hk, hoff⟩
      exact ⟨_, hne, d0, hd0, rfl⟩
  case deps =>
    intro v d hd a
    obtain ⟨hne, d0, hd0, rfl⟩ := (hentry v d).1 hd
    rw [mem_cons, not_or]
    by_cases hv : w id v
    · rw [if_pos hv, ExtTreeSet.mem_erase, h.deps v d0 hd0 a, ne_eq, Std.compare_eq_iff_eq]
      tauto
    · rw [if_neg hv, h.deps v d0 hd0 a]
      constructor
      · rintro ⟨ha, hoff⟩
        exact ⟨ha, fun heq => hv (heq ▸ ha), hoff⟩
      · rintro ⟨ha, -, hoff⟩
        exact ⟨ha, hoff⟩
  case ready =>
    intro v
    rw [hrdy, hnext]
    constructor
    · rintro (hready | ⟨-, hd⟩)
      · have hne : v ≠ id := fun heq => hidReady (heq ▸ hready)
        obtain ⟨d, hd, he⟩ := (h.ready v).1 (mem_cons_of_mem _ hready)
        have hnot : ¬ w id v := fun hv => by
          obtain ⟨-, d', hd', hmem⟩ := hwaiting v hv
          rw [show waits[v]? = some d from hd] at hd'; cases hd'
          exact isEmpty_iff.1 he id hmem
        exact ⟨d, (hentry v d).2 ⟨hne, d, hd, (if_neg hnot).symm⟩, he⟩
      · exact hd
    · rintro ⟨d, hd, he⟩
      by_cases hv : w id v
      · exact .inr ⟨hv, d, hd, he⟩
      · obtain ⟨hne, d0, hd0, rfl⟩ := (hentry v d).1 hd
        rw [if_neg hv] at he
        exact .inl ((mem_cons.1 ((h.ready v).2 ⟨d0, hd0, he⟩)).resolve_left hne)
  case nodup => exact hnd
  case offKeys =>
    intro v hv
    rcases mem_cons.1 hv with rfl | hv
    · exact hid.1
    · exact h.offKeys v hv
  case offNodup => exact nodup_cons.2 ⟨hid.2, h.offNodup⟩
  case closed =>
    intro v hv a ha
    rcases mem_cons.1 hv with rfl | hv
    · exact mem_cons_of_mem _ (hfree a ha)
    · exact mem_cons_of_mem _ (h.closed v hv a ha)
  case acyclic =>
    intro v hv hcycle
    rcases mem_cons.1 hv with rfl | hv
    · -- the last step of the cycle comes from one taken off before
      obtain ⟨a, hva, hav⟩ := TransGen.tail'_iff.1 hcycle
      exact h.acyclic a (hfree a hav) (TransGen.head' hav hva)
    · exact h.acyclic v hv hcycle

/-! ## The run -/

theorem drain_inv (husers : ∀ a b, b ∈ (users[a]?).getD ∅ ↔ w a b) (hends : ∀ a b, w a b → b ∈ keys) :
    ∀ (fuel : Nat) {off : List α} {s : State α}, Inv w keys off s → keys.length ≤ fuel + off.length →
      ∃ left off', drain missing exhausted users fuel s = .ok left ∧ Inv w keys off' ⟨left, []⟩
  | fuel, off, ⟨waits, []⟩, h, _ => ⟨waits, off, by cases fuel <;> rfl, h⟩
  | 0, off, ⟨waits, id :: ready⟩, h, hfuel => by
    obtain ⟨d, hd, -⟩ := (h.ready id).1 mem_cons_self
    obtain ⟨hk, hoff⟩ := (h.kept id).1 (mem_of_getElem?_eq hd)
    have hsub : (id :: off).Subperm keys := by
      refine subperm_of_subset (nodup_cons.2 ⟨hoff, h.offNodup⟩) fun v hv => ?_
      rcases mem_cons.1 hv with rfl | hv
      · exact hk
      · exact h.offKeys v hv
    have hlength := hsub.length_le
    rw [length_cons] at hlength
    omega
  | fuel + 1, off, ⟨waits, id :: ready⟩, h, hfuel => by
    obtain ⟨s', hs', hinv⟩ := @inv_step α ε _ _ _ missing users _ _ _ w keys off husers hends h
    obtain ⟨left, off', hleft, hinv'⟩ := drain_inv husers hends fuel hinv (by rw [length_cons]; omega)
    refine ⟨left, off', ?_, hinv'⟩
    rw [drain, hs']
    exact hleft

/-- Draining leaves nothing exactly where nothing waits for itself. -/
theorem drain_spec {fuel : Nat} (hwaits : ∀ v d, waits[v]? = some d → ∀ a, a ∈ d ↔ w a v)
    (husers : ∀ a b, b ∈ (users[a]?).getD ∅ ↔ w a b) (hends : ∀ a b, w a b → a ∈ waits ∧ b ∈ waits) (hnodup : ready.Nodup)
    (hready : ∀ v, v ∈ ready ↔ ∃ d : ExtTreeSet α, waits[v]? = some d ∧ d.isEmpty = true) (hfuel : waits.keys.length ≤ fuel) :
    ∃ left, drain missing exhausted users fuel ⟨waits, ready⟩ = .ok left ∧ (∀ v, v ∈ left → v ∈ waits) ∧
      (left.isEmpty = true ↔ ∀ v, ¬ TransGen w v v) := by
  have hstart : Inv w waits.keys [] ⟨waits, ready⟩ := by
    refine ⟨fun v => by simp [ExtTreeMap.mem_keys], fun v d hd a => by simp [hwaits v d hd a], hready, hnodup, ?_, .nil, ?_, ?_⟩ <;>
      exact fun v hv => absurd hv not_mem_nil
  obtain ⟨left, off, hleft, h⟩ := @drain_inv α ε _ _ _ missing exhausted users w waits.keys husers
    (fun a b hab => ExtTreeMap.mem_keys.2 (hends a b hab).2) fuel _ _ hstart (by simpa using hfuel)
  have hkeys : ∀ v, v ∈ left ↔ v ∈ waits ∧ v ∉ off := fun v => by rw [← ExtTreeMap.mem_keys (t := waits)]; exact h.kept v
  refine ⟨left, hleft, fun v hv => ((hkeys v).1 hv).1, fun hempty v hcycle => ?_, fun hacyclic => ?_⟩
  · obtain ⟨a, -, hav⟩ := TransGen.tail'_iff.1 hcycle
    have hoff : v ∈ off := by
      by_contra hoff
      have hmem := (hkeys v).2 ⟨(hends a v hav).2, hoff⟩
      rw [ExtTreeMap.isEmpty_iff.1 hempty] at hmem
      exact not_mem_empty hmem
    exact h.acyclic v hoff hcycle
  · refine isEmpty_of_forall fun v => ?_
    by_contra hv
    replace hv : v ∈ left := mem_iff_exists.2 (Option.ne_none_iff_exists'.1 hv)
    -- each one left waits for one left
    have hnext : ∀ v ∈ {v | v ∈ left.keys}, ∃ a ∈ {v | v ∈ left.keys}, w a v := by
      intro v hv
      obtain ⟨d, hd⟩ := mem_iff_exists.1 (ExtTreeMap.mem_keys.1 hv)
      have hne : ¬ ∃ d, left[v]? = some d ∧ d.isEmpty = true := fun he => not_mem_nil ((h.ready v).2 he)
      have hsome : ∃ a, a ∈ d := by
        by_contra hnone
        push Not at hnone
        exact hne ⟨d, hd, isEmpty_iff.2 hnone⟩
      obtain ⟨a, ha⟩ := hsome
      obtain ⟨hav, hoff⟩ := (h.deps v d hd a).1 ha
      exact ⟨a, ExtTreeMap.mem_keys.2 ((hkeys a).2 ⟨(hends a v hav).1, hoff⟩), hav⟩
    obtain ⟨c, -, -, hcycle⟩ := Rounds.exists_cycle (r := fun v a => w a v) left.keys.finite_toSet hnext
      (ExtTreeMap.mem_keys.2 hv)
    exact hacyclic c (TransGen.swap c c hcycle)

end Drain
