/-
Whole histories: from the names at the start through every event to the final names. A history that
comes back says of each uid and boundary what the latest event before it says, and its two timelines
agree everywhere.
-/
import Pbps.Names.History

namespace Pbps.Names.History

open Std (ExtTreeMap ExtTreeSet)
open List Except Std.ExtTreeMap

variable {A : Type} [Ord A] [Std.TransOrd A] [Std.LawfulEqOrd A] [DecidableEq A] {ns : Namespace A} {h h' : History A}
  {u uid : Uid} {b N t : Nat}

/-! ## The start -/

omit [Std.LawfulEqOrd A] [DecidableEq A] in
theorem reserved_eq {l : List A} : ∀ {m : ExtTreeMap A (Timeline Uid)}, (∀ (a : A) t, m[a]? = some t → t = [(0, none)]) →
    ∀ (a : A) t, (l.foldl (fun m a => m.insertIfNew a [(0, none)]) m)[a]? = some t → t = [(0, none)] := by
  induction l with
  | nil => intro m hm; exact hm
  | cons x l ih =>
    intro m hm
    rw [foldl_cons]
    apply ih
    intro a t ht
    rw [getElem?_insertIfNew] at ht
    split at ht
    · exact (Option.some.inj ht).symm
    · exact hm a t ht

omit [Std.LawfulEqOrd A] [DecidableEq A] in
theorem reserved_inStep (events : List (Transition A)) : (⟨∅, reserved events⟩ : History A).InStep 0 := by
  have hall : ∀ (a : A) t, (reserved events)[a]? = some t → t = [(0, none)] :=
    reserved_eq fun a t ht => by rw [getElem?_empty] at ht; cases ht
  refine ⟨fun u t ht => ?_, fun a t ht => ?_, fun b u a => ?_⟩
  · rw [getElem?_empty] at ht; cases ht
  · rw [hall a t ht]
    intro e he
    rw [mem_singleton] at he
    subst he
    exact le_rfl
  · rw [holder_eq_tracked]
    refine iff_of_false ?_ ?_
    · show (reserved events)[a]?.bind (·.valueAt b) ≠ some u
      cases ht : (reserved events)[a]? with
      | none => simp
      | some t => rw [hall a t ht]; simp [Timeline.valueAt]
    · simp [name]

theorem begin_inStep {address : Option A} (hw : h.InStep 0) (hu : h.names[uid]? = none)
    (hb : begin_ ns h uid address = .ok h') : h'.InStep 0 ∧ (∀ u b, h'.name u b = if u = uid then address else h.name u b) ∧
      ∀ u : Uid, u ≠ uid → h'.names[u]? = h.names[u]? := by
  have hname : ∀ u b, reads (h.names.insert uid [(0, none)]) u b = h.name u b := by
    intro u b
    by_cases h1 : u = uid
    · subst h1
      simp [reads, name, hu, Timeline.valueAt]
    · rw [reads, getElem?_insert_of_ne h1]
      rfl
  have hw0 : ({ h with names := h.names.insert uid [(0, none)] } : History A).InStep 0 := by
    refine ⟨fun u t ht => ?_, hw.holders, fun b u a => ?_⟩
    · rw [getElem?_insert_eq_some] at ht
      rcases ht with ⟨-, rfl⟩ | ⟨-, ht⟩
      · intro e he
        rw [mem_singleton] at he
        subst he
        exact le_rfl
      · exact hw.names u t ht
    · show h.holder a b = .tracked u ↔ reads (h.names.insert uid [(0, none)]) u b = some a
      rw [hname]
      exact hw.inverse b u a
  obtain ⟨h1, h2⟩ := set_inStep hw0 hb
  refine ⟨h1, fun u b => ?_, fun u hne => ?_⟩
  · rw [h2]
    simp only [Nat.zero_le, true_and]
    split
    · rfl
    · exact hname u b
  · obtain ⟨-, rfl⟩ := set_eq_ok.1 hb
    show (push (h.names.insert uid [(0, none)]) uid (0, address))[u]? = h.names[u]?
    rw [getElem?_push, if_neg hne, getElem?_insert_of_ne hne]

theorem beginAll_inStep : ∀ {l : List (Uid × Option A)} {h : History A}, (l.map Prod.fst).Nodup → h.InStep 0 →
    (∀ e ∈ l, h.names[e.1]? = none) → beginAll ns h l = .ok h' →
    h'.InStep 0 ∧ (∀ e ∈ l, ∀ b, h'.name e.1 b = e.2) ∧ ∀ u, u ∉ l.map Prod.fst → ∀ b, h'.name u b = h.name u b
  | [], h, _, hw, _, hb => by
    cases hb
    exact ⟨hw, by simp, fun _ _ _ => rfl⟩
  | (uid, address) :: l, h, hnd, hw, hnew, hb => by
    obtain ⟨hnotin, hnd⟩ := nodup_cons.1 hnd
    obtain ⟨h1, hb1, hb2⟩ := bind_eq_ok_iff.1 hb
    obtain ⟨w1, n1, k1⟩ := begin_inStep hw (hnew _ mem_cons_self) hb1
    have hnew1 : ∀ e ∈ l, h1.names[e.1]? = none := by
      intro e he
      rw [k1]
      · exact hnew e (mem_cons_of_mem _ he)
      · intro hu
        exact hnotin (hu ▸ mem_map_of_mem he)
    obtain ⟨w2, n2, o2⟩ := beginAll_inStep hnd w1 hnew1 hb2
    refine ⟨w2, fun e he b => ?_, fun u hu b => ?_⟩
    · rcases mem_cons.1 he with rfl | he
      · rw [o2 uid hnotin, n1, if_pos rfl]
      · exact n2 e he b
    · rw [map_cons, mem_cons, not_or] at hu
      rw [o2 u hu.2, n1, if_neg hu.1]

/-! ## The events -/

/-- Playing transitions in order leaves each at the step it is of. -/
theorem playAll_inStep {initial : Uid → Option A} : ∀ {events done : List (Transition A)} {h : History A} {t : Nat},
    (done ++ events).Pairwise (fun x y => x.step ≤ y.step) → (done ++ events).Pairwise Apart →
    h.InStep t → t ≤ N → (∀ e ∈ events, t ≤ e.step + 1) → (∀ e ∈ events, e.step < N) →
    (∀ u b, h.name u b = latest initial done u b) → playAll ns h events = .ok h' →
    h'.InStep N ∧ (∀ u b, h'.name u b = latest initial (done ++ events) u b) ∧
      ∀ e ∈ events, h'.name e.uid e.step = e.before
  | [], done, h, t, _, _, hw, htN, _, _, hname, hp => by
    cases hp
    rw [append_nil]
    exact ⟨hw.mono htN, hname, by simp⟩
  | e :: rest, done, h, t, hs, ha, hw, htN, hte, heN, hname, hp => by
    obtain ⟨h1, hp1, hp2⟩ := bind_eq_ok_iff.1 hp
    obtain ⟨hbefore, w1, n1⟩ := play_inStep (hw.mono (hte e mem_cons_self)) hp1
    have hdone : ∀ x ∈ done, x.step ≤ e.step :=
      fun x hx => (pairwise_append.1 hs).2.2 x hx e mem_cons_self
    have hrest : ∀ x ∈ rest, e.step ≤ x.step :=
      fun x hx => rel_of_pairwise_cons (pairwise_append.1 hs).2.1 hx
    -- The uid of the event keeps the name it had before the step until the event is played.
    have hkeep : ∀ c, e.step + 1 ≤ c → latest initial done e.uid c = e.before := by
      intro c hc
      rw [latest_eq_of_le (fun x hx => Nat.lt_succ_of_le (hdone x hx)) hc, latest_succ, ← hname, hbefore]
      intro x hx hu
      exact (pairwise_append.1 ha).2.2 x hx e mem_cons_self hu
    have hname1 : ∀ u c, h1.name u c = latest initial (done ++ [e]) u c := by
      intro u c
      rw [n1, hname]
      by_cases hx : e.step + 1 ≤ c ∧ u = e.uid
      · obtain ⟨hc, rfl⟩ := hx
        rw [latest_concat rfl (by omega)]
        split
        · rfl
        · next hne =>
          have heq : e.before = e.after := not_not.1 fun hd => hne ⟨hd, hc, rfl⟩
          rw [hkeep c hc, heq]
      · rw [if_neg fun hy => hx hy.2, latest_append_of_le]
        intro y hy hu
        rw [mem_singleton] at hy
        subst hy
        have : ¬ y.step + 1 ≤ c := fun hc => hx ⟨hc, hu.symm⟩
        omega
    have heq : done ++ e :: rest = (done ++ [e]) ++ rest := by rw [append_assoc, singleton_append]
    have heN1 : e.step + 1 ≤ N := heN e mem_cons_self
    obtain ⟨w2, n2, b2⟩ := playAll_inStep (heq ▸ hs) (heq ▸ ha) w1 heN1
      (fun x hx => Nat.succ_le_succ (hrest x hx)) (fun x hx => heN x (mem_cons_of_mem _ hx)) hname1 hp2
    refine ⟨w2, by rw [heq]; exact n2, fun x hx => ?_⟩
    rcases mem_cons.1 hx with rfl | hx
    · rw [n2, latest_append_of_le fun y hy _ => hrest y hy, latest_append_of_le, ← hname, hbefore]
      intro y hy _
      rw [mem_singleton] at hy
      subst hy
      exact le_rfl
    · exact b2 x hx

theorem playAll_inverse : ∀ {events : List (Transition A)} {h : History A} {t : Nat},
    events.Pairwise (fun x y => x.step ≤ y.step) → h.InStep t → (∀ e ∈ events, t ≤ e.step + 1) →
    playAll ns h events = .ok h' → ∀ b, h'.Inverse b
  | [], h, _, _, hw, _, hp => by
    cases hp
    exact hw.inverse
  | e :: rest, h, t, hs, hw, hte, hp => by
    obtain ⟨h1, hp1, hp2⟩ := bind_eq_ok_iff.1 hp
    obtain ⟨hrest, hs⟩ := pairwise_cons.1 hs
    obtain ⟨-, hw1, -⟩ := play_inStep (hw.mono (hte e mem_cons_self)) hp1
    exact playAll_inverse hs hw1 (fun x hx => Nat.succ_le_succ (hrest x hx)) hp2

/-! ## Whole histories -/

/-- What a history says, given the names at the start, the events of `N` steps and the final names. -/
structure Replays (h : History A) (initial : Uid → Option A) (events : List (Transition A)) (after : ExtTreeMap Uid A)
    (N : Nat) : Prop where
  inverse : ∀ b, h.Inverse b
  name : ∀ u b, h.name u b = latest initial events u b
  before : ∀ e ∈ events, h.name e.uid e.step = e.before
  final : ∀ u : Uid, h.name u N = after[u]?

variable {initial : ExtTreeMap Uid (Option A)} {events : List (Transition A)} {after : ExtTreeMap Uid A}

variable (hs : events.Pairwise fun x y => x.step ≤ y.step)
include hs

theorem fromInitial_replays (ha : events.Pairwise Apart) (hN : ∀ e ∈ events, e.step < N)
    (hf : fromInitial ns events after initial = .ok h) : h.Replays (fun u => initial[u]?.join) events after N := by
  obtain ⟨h0, hb, hf⟩ := bind_eq_ok_iff.1 hf
  obtain ⟨h1, hp, hf⟩ := bind_eq_ok_iff.1 hf
  have hkeys : (initial.toList.map Prod.fst).Nodup := by
    rw [map_fst_toList_eq_keys]
    exact distinct_keys.imp fun hc he => hc (by rw [he]; exact Std.ReflOrd.compare_self)
  obtain ⟨w0, n0, o0⟩ := beginAll_inStep hkeys (reserved_inStep events) (fun _ _ => getElem?_empty) hb
  have hstart : ∀ u b, h0.name u b = latest (fun u => initial[u]?.join) [] u b := by
    intro u b
    show h0.name u b = initial[u]?.join
    cases hu : initial[u]? with
    | some x => exact n0 (u, x) (mem_toList_iff_getElem?_eq_some.2 hu) b
    | none =>
      rw [o0 u]
      · simp [name]
      · rw [map_fst_toList_eq_keys, ExtTreeMap.mem_keys, mem_iff_exists]
        rintro ⟨x, hx⟩
        rw [hu] at hx
        cases hx
  obtain ⟨w1, n1, b1⟩ := playAll_inStep hs ha w0 (Nat.zero_le N) (fun _ _ => Nat.zero_le _) hN hstart hp
  have hend : h1.ends = after ∧ h1 = h := by
    split at hf
    · cases hf
    · next he => exact ⟨not_not.1 he, by cases hf; rfl⟩
  obtain ⟨hend, rfl⟩ := hend
  refine ⟨w1.inverse, n1, b1, fun u => ?_⟩
  rw [← hend, ends, getElem?_filterMap']
  show h1.names[u]?.bind (·.valueAt N) = _
  cases hu : h1.names[u]? with
  | none => rfl
  | some t => exact Timeline.valueAt_of_upTo (w1.names u t hu)

/-- A history that comes back has its names and holders in step, whatever names it began with. -/
theorem fromInitial_inverse (hf : fromInitial ns events after initial = .ok h) : ∀ b, h.Inverse b := by
  obtain ⟨h0, hb, hf⟩ := bind_eq_ok_iff.1 hf
  obtain ⟨h1, hp, hf⟩ := bind_eq_ok_iff.1 hf
  have hkeys : (initial.toList.map Prod.fst).Nodup := by
    rw [map_fst_toList_eq_keys]
    exact nodup_keys
  obtain ⟨hw0, -⟩ := beginAll_inStep hkeys (reserved_inStep events) (fun _ _ => getElem?_empty) hb
  have hsame : h1 = h := by
    split at hf
    · cases hf
    · cases hf; rfl
  rw [← hsame]
  exact playAll_inverse hs hw0 (fun _ _ => Nat.zero_le _) hp

end Pbps.Names.History
