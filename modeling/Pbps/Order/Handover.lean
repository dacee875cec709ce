/-
The edges of name handovers and the replay agree: an order that keeps the edges passes the replay, and one in which a claim comes
before another holder's release of the name does not.
-/
import Pbps.Order.Slots

namespace Pbps.NameSlots

open List

variable {slots : Slots} {facts : Option CatalogFacts} {p : Bool} {entries : List Entry} {s : SlotKey} {k h : ObjectKey} {i r c : Nat}

/-! ## Edges from entries -/

variable {holder : Holder} {e : SlotEdge} {fx : SlotEffects} {n q : Nat} {op : Operation}

theorem mem_claimsOf : i ∈ claimsOf entries s holder ↔ (⟨s, holder, i, false⟩ : Entry) ∈ entries := by
  rw [claimsOf, mem_map]
  constructor
  · rintro ⟨⟨s', holder', i', gives⟩, he, rfl⟩
    obtain ⟨hmem, hfield⟩ := mem_filter.1 he
    obtain ⟨rfl, rfl, rfl⟩ := of_decide_eq_true hfield
    exact hmem
  · exact fun he => ⟨_, mem_filter.2 ⟨he, by simp⟩, rfl⟩

theorem mem_releasesOf : i ∈ releasesOf entries s holder ↔ (⟨s, holder, i, true⟩ : Entry) ∈ entries := by
  rw [releasesOf, mem_map]
  constructor
  · rintro ⟨⟨s', holder', i', gives⟩, he, rfl⟩
    obtain ⟨hmem, hfield⟩ := mem_filter.1 he
    obtain ⟨rfl, rfl, rfl⟩ := of_decide_eq_true hfield
    exact hmem
  · exact fun he => ⟨_, mem_filter.2 ⟨he, by simp⟩, rfl⟩

theorem mem_holdersOf : holder ∈ holdersOf entries s ↔ ∃ i gives, (⟨s, holder, i, gives⟩ : Entry) ∈ entries := by
  rw [holdersOf, mem_eraseDups, mem_map]
  constructor
  · rintro ⟨⟨s', holder', i, gives⟩, he, rfl⟩
    obtain ⟨hmem, hslot⟩ := mem_filter.1 he
    obtain rfl := of_decide_eq_true hslot
    exact ⟨i, gives, hmem⟩
  · rintro ⟨i, gives, he⟩
    exact ⟨_, mem_filter.2 ⟨he, by simp⟩, rfl⟩

theorem mem_between {catalog : Bool} {befores afters : List Nat} : e ∈ between s catalog befores afters ↔
    (e.slot = s ∧ e.catalog = catalog) ∧ e.before ∈ befores ∧ e.after ∈ afters ∧ e.before ≠ e.after := by
  rw [between, mem_flatMap]
  simp only [mem_filterMap]
  constructor
  · rintro ⟨r, hr, c, hc, he⟩
    split at he
    case isTrue hne =>
      cases he
      exact ⟨⟨rfl, rfl⟩, hr, hc, hne⟩
    case isFalse => cases he
  · rintro ⟨⟨rfl, rfl⟩, hr, hc, hne⟩
    exact ⟨e.before, hr, e.after, hc, if_pos hne⟩

theorem of_mem_holderEdges (he : e ∈ holderEdges entries s holder) : e.slot = s ∧ e.before ≠ e.after ∧
      ∃ from_ to_, from_ ≠ to_ ∧ e.before ∈ releasesOf entries s from_ ∧ e.after ∈ claimsOf entries s to_ := by
  rw [holderEdges] at he
  split at he
  · obtain ⟨other, hother, he⟩ := mem_flatMap.1 he
    obtain ⟨⟨hslot, -⟩, hbefore, hafter, hstep⟩ := mem_between.1 he
    have hne : other ≠ holder := of_decide_eq_true (mem_filter.1 hother).2
    exact ⟨hslot, hstep, holder, other, hne.symm, hbefore, hafter⟩
  · split at he
    · obtain ⟨other, hother, he⟩ := mem_flatMap.1 he
      obtain ⟨⟨hslot, -⟩, hbefore, hafter, hstep⟩ := mem_between.1 he
      have hne : other ≠ holder := of_decide_eq_true (mem_filter.1 hother).2
      exact ⟨hslot, hstep, other, holder, hne, hbefore, hafter⟩
    · exact absurd he not_mem_nil

theorem mem_holderEdges_first {from_ to_ : Holder} (hfirst : ∀ i, i ∉ claimsOf entries s from_) (hne : from_ ≠ to_)
    (hr : r ∈ releasesOf entries s from_) (hc : c ∈ claimsOf entries s to_) (hrc : r ≠ c) :
    ⟨r, c, s, from_.isCatalog || to_.isCatalog⟩ ∈ holderEdges entries s from_ := by
  have hempty : (claimsOf entries s from_).isEmpty = true := List.isEmpty_iff.2 (eq_nil_iff_forall_not_mem.2 hfirst)
  rw [holderEdges, if_pos hempty]
  refine mem_flatMap.2 ⟨to_, mem_filter.2 ⟨?_, by simpa using hne.symm⟩, mem_between.2 ⟨⟨rfl, rfl⟩, hr, hc, hrc⟩⟩
  exact mem_holdersOf.2 ⟨c, false, mem_claimsOf.1 hc⟩

/-! ## Steps without the catalog -/

/-- Steps that read nothing, with no names of the catalog, where each holder of a name only gives it up or only takes it. -/
structure Plain (slots : Slots) : Prop where
  reads : ∀ fx ∈ slots.effects, fx.reads = []
  catalogOwned : slots.catalogOwned = []
  oneWay : ∀ fx ∈ slots.effects, ∀ fx' ∈ slots.effects, ∀ claimed ∈ fx.claims, claimed ∉ fx'.releases

def Releases (slots : Slots) (r : Nat) (s : SlotKey) (k : ObjectKey) : Prop := ∃ fx, slots.effects[r]? = some fx ∧ (s, k) ∈ fx.releases

def Claims (slots : Slots) (c : Nat) (s : SlotKey) (h : ObjectKey) : Prop := ∃ fx, slots.effects[c]? = some fx ∧ (s, h) ∈ fx.claims

def Passes (slots : Slots) (i : Nat) (s : SlotKey) : Prop := ∃ fx, slots.effects[i]? = some fx ∧ s ∈ fx.intermediate

theorem mem_bySlot {e : Entry} : e ∈ bySlot slots none [] p ↔
    (∃ i fx, slots.effects[i]? = some fx ∧ e ∈ stepEntries slots id i fx) ∨
      p = true ∧ ∃ i fx, slots.effects[i]? = some fx ∧ e ∈ passingEntries id i fx := by
  have hzip : ∀ f : Nat → SlotEffects → List Entry, (e ∈ slots.effects.zipIdx.flatMap fun x => f x.2 x.1) ↔
      ∃ i fx, slots.effects[i]? = some fx ∧ e ∈ f i fx := by
    intro f
    rw [mem_flatMap]
    constructor
    · rintro ⟨⟨fx, i⟩, hmem, he⟩
      exact ⟨i, fx, mk_mem_zipIdx_iff_getElem?.1 hmem, he⟩
    · rintro ⟨i, fx, hfx, he⟩
      exact ⟨(fx, i), mk_mem_zipIdx_iff_getElem?.2 hfx, he⟩
  rw [bySlot, groups]
  dsimp only
  rw [flatMap_nil, append_nil, mem_append]
  refine or_congr (hzip (stepEntries slots id)) ?_
  cases p with
  | false => simp
  | true =>
    rw [if_pos rfl]
    exact (hzip (passingEntries id)).trans (by simp)

theorem mem_stepEntries (hplain : Plain slots) (hfx : fx ∈ slots.effects) {e : Entry} :
    e ∈ stepEntries slots id i fx ↔ (∃ claimed ∈ fx.claims, e = ⟨claimed.1, .managed claimed.2, i, false⟩) ∨
      ∃ released ∈ fx.releases, e = ⟨released.1, .managed released.2, i, true⟩ := by
  rw [stepEntries, mem_append, mem_filterMap, mem_map]
  refine or_congr ⟨?_, ?_⟩ (exists_congr fun released => and_congr_right fun _ => eq_comm)
  · rintro ⟨claimed, hclaimed, he⟩
    split at he
    case isTrue => cases he
    case isFalse => exact ⟨claimed, hclaimed, (Option.some.inj he).symm⟩
  · rintro ⟨claimed, hclaimed, rfl⟩
    refine ⟨claimed, hclaimed, if_neg fun hskip => ?_⟩
    obtain ⟨fx', hfx', hreleased⟩ := mem_flatMap.1 hskip.2
    exact hplain.oneWay fx hfx fx' hfx' claimed hclaimed hreleased

theorem mem_passingEntries {e : Entry} :
    e ∈ passingEntries id i fx ↔ ∃ s ∈ fx.intermediate, ∃ gives, e = ⟨s, .passing i, i, gives⟩ := by
  rw [passingEntries, mem_flatMap]
  refine exists_congr fun s => and_congr_right fun _ => ?_
  simp [or_comm]

theorem mem_claimsOf_managed (hplain : Plain slots) :
    c ∈ claimsOf (bySlot slots none [] p) s (.managed h) ↔ Claims slots c s h := by
  rw [mem_claimsOf, mem_bySlot]
  constructor
  · rintro (⟨i, fx, hfx, he⟩ | ⟨-, i, fx, -, he⟩)
    · rcases (mem_stepEntries hplain (mem_of_getElem? hfx)).1 he with ⟨claimed, hclaimed, heq⟩ | ⟨_, _, heq⟩
      · cases heq
        exact ⟨fx, hfx, hclaimed⟩
      · cases heq
    · obtain ⟨_, -, _, heq⟩ := mem_passingEntries.1 he
      cases heq
  · rintro ⟨fx, hfx, hclaimed⟩
    exact .inl ⟨c, fx, hfx, (mem_stepEntries hplain (mem_of_getElem? hfx)).2 (.inl ⟨_, hclaimed, rfl⟩)⟩

theorem mem_releasesOf_managed (hplain : Plain slots) :
    r ∈ releasesOf (bySlot slots none [] p) s (.managed k) ↔ Releases slots r s k := by
  rw [mem_releasesOf, mem_bySlot]
  constructor
  · rintro (⟨i, fx, hfx, he⟩ | ⟨-, i, fx, -, he⟩)
    · rcases (mem_stepEntries hplain (mem_of_getElem? hfx)).1 he with ⟨_, _, heq⟩ | ⟨released, hreleased, heq⟩
      · cases heq
      · cases heq
        exact ⟨fx, hfx, hreleased⟩
    · obtain ⟨_, -, _, heq⟩ := mem_passingEntries.1 he
      cases heq
  · rintro ⟨fx, hfx, hreleased⟩
    exact .inl ⟨r, fx, hfx, (mem_stepEntries hplain (mem_of_getElem? hfx)).2 (.inr ⟨_, hreleased, rfl⟩)⟩

theorem mem_claimsOf_passing (h : Passes slots i s) : i ∈ claimsOf (bySlot slots none [] true) s (.passing i) := by
  obtain ⟨fx, hfx, hs⟩ := h
  exact mem_claimsOf.2 (mem_bySlot.2 (.inr ⟨rfl, i, fx, hfx, mem_passingEntries.2 ⟨s, hs, false, rfl⟩⟩))

section

variable (hplain : Plain slots)

include hplain

theorem managed_of_mem {e : Entry} (he : e ∈ bySlot slots none [] false) : ∃ key, e.holder = .managed key := by
  rcases mem_bySlot.1 he with ⟨i, fx, hfx, he⟩ | ⟨hfalse, -⟩
  · rcases (mem_stepEntries hplain (mem_of_getElem? hfx)).1 he with ⟨claimed, -, rfl⟩ | ⟨released, -, rfl⟩
    · exact ⟨_, rfl⟩
    · exact ⟨_, rfl⟩
  · cases hfalse

theorem mem_handoversOf : e ∈ handoversOf slots none [] p ↔
    ∃ s, ∃ holder ∈ holdersOf (bySlot slots none [] p) s, e ∈ holderEdges (bySlot slots none [] p) s holder := by
  have hreads : (slots.effects.zipIdx.flatMap fun x => x.1.reads.flatMap fun read =>
      readEdges (bySlot slots none [] p) (groups slots none [] read.1) read.2 x.2) = [] := by
    rw [flatMap_eq_nil_iff]
    rintro ⟨fx, i⟩ hfx
    have hmem := mem_of_getElem? (mk_mem_zipIdx_iff_getElem?.1 hfx)
    rw [hplain.reads fx hmem, flatMap_nil]
  rw [handoversOf]
  dsimp only
  rw [mem_mergeSort, mem_eraseDups, hreads, nil_append, mem_flatMap]
  simp only [mem_flatMap, mem_eraseDups, mem_map]
  constructor
  · rintro ⟨s, -, holder, hholder, he⟩
    exact ⟨s, holder, hholder, he⟩
  · rintro ⟨s, holder, hholder, he⟩
    obtain ⟨i, gives, hentry⟩ := mem_holdersOf.1 hholder
    exact ⟨s, ⟨_, hentry, rfl⟩, holder, hholder, he⟩

theorem not_mem_claimsOf (hr : Releases slots r s k) : ∀ i, i ∉ claimsOf (bySlot slots none [] p) s (.managed k) := by
  intro i hi
  obtain ⟨fx, hfx, hclaimed⟩ := (mem_claimsOf_managed hplain).1 hi
  obtain ⟨fx', hfx', hreleased⟩ := hr
  exact hplain.oneWay fx (mem_of_getElem? hfx) fx' (mem_of_getElem? hfx') _ hclaimed hreleased

theorem edge_of_claim (hr : Releases slots r s k) (hc : Claims slots c s h) (hne : k ≠ h) (hrc : r ≠ c) :
    ⟨r, c, s, false⟩ ∈ handoversOf slots none [] p := by
  have hrelease := (mem_releasesOf_managed (p := p) hplain).2 hr
  have hedge := mem_holderEdges_first (not_mem_claimsOf (p := p) hplain hr)
    (show Holder.managed k ≠ .managed h from fun heq => hne (Holder.managed.inj heq)) hrelease
    ((mem_claimsOf_managed hplain).2 hc) hrc
  exact (mem_handoversOf hplain).2 ⟨s, _, mem_holdersOf.2 ⟨r, true, mem_releasesOf.1 hrelease⟩, hedge⟩

theorem edge_of_passing (hr : Releases slots r s k) (hi : Passes slots i s) (hri : r ≠ i) :
    ⟨r, i, s, false⟩ ∈ edges slots none [] := by
  have hrelease := (mem_releasesOf_managed (p := true) hplain).2 hr
  have hedge := mem_holderEdges_first (not_mem_claimsOf (p := true) hplain hr)
    (show Holder.managed k ≠ .passing i by simp) hrelease (mem_claimsOf_passing hi) hri
  exact (mem_handoversOf hplain).2 ⟨s, _, mem_holdersOf.2 ⟨r, true, mem_releasesOf.1 hrelease⟩, hedge⟩

theorem of_mem_handoversOf (he : e ∈ handoversOf slots none [] false) :
    e.before ≠ e.after ∧ ∃ k h, k ≠ h ∧ Releases slots e.before e.slot k ∧ Claims slots e.after e.slot h := by
  obtain ⟨s, holder, -, he⟩ := (mem_handoversOf hplain).1 he
  obtain ⟨rfl, hstep, from_, to_, hne, hbefore, hafter⟩ := of_mem_holderEdges he
  obtain ⟨k, rfl⟩ := managed_of_mem hplain (mem_releasesOf.1 hbefore)
  obtain ⟨h, rfl⟩ := managed_of_mem hplain (mem_claimsOf.1 hafter)
  exact ⟨hstep, k, h, fun heq => hne (heq ▸ rfl), (mem_releasesOf_managed hplain).1 hbefore, (mem_claimsOf_managed hplain).1 hafter⟩

end

/-! ## The replay without facts -/

variable {base : Baseline} {operations : List Operation} {held : List (SlotKey × Occupier)}

theorem same_eq_yes {exact : Bool} {a b : SlotKey} : same exact none a b = .yes ↔ a = b := by
  rw [same]
  split
  case isTrue heq => exact ⟨fun _ => heq, fun _ => rfl⟩
  case isFalse hne =>
    refine ⟨fun h => ?_, fun h => absurd h hne⟩
    split_ifs at h

/-- What the replay holds before a step is objects of the plan, whose names no step before gave up. -/
def Unreleased (slots : Slots) (n : Nat) (held : List (SlotKey × Occupier)) : Prop :=
  ∀ x ∈ held, ∃ k, x.2 = .managed k ∧ ∀ q < n, ¬ Releases slots q x.1 k

theorem mem_foldl_release {x : SlotKey × Occupier} : ∀ {releases : List (SlotKey × ObjectKey)} {held : List (SlotKey × Occupier)},
    x ∈ releases.foldl (release base none) held ↔ x ∈ held ∧ ∀ released ∈ releases, x ≠ (released.1, .managed released.2)
  | [], held => by simp
  | released :: releases, held => by
    have hfirst : x ∈ release base none held released ↔ x ∈ held ∧ x ≠ (released.1, .managed released.2) := by
      rw [release, mem_filter]
      refine and_congr_right fun _ => ?_
      simp [same_eq_yes, Prod.ext_iff, imp_iff_not_or]
    rw [foldl_cons, mem_foldl_release, hfirst, forall_mem_cons, and_assoc]

theorem of_claim {operation : Nat} {holder : Option ObjectKey} {found : Occupier × Bool} : ∀ {held : List (SlotKey × Occupier)},
    (claim operations slots base none operation s holder held).1 = some found →
      (s, found.1) ∈ held ∧ holder.map Occupier.managed ≠ some found.1 ∧ found.2 = givesUp operations slots none s found.1
  | [], h => by cases h
  | (name, who) :: held, h => by
    rw [claim] at h
    split at h
    case isTrue =>
      obtain ⟨hmem, hrest⟩ := of_claim h
      exact ⟨mem_cons_of_mem _ hmem, hrest⟩
    case isFalse hother =>
      split at h
      case h_1 hyes =>
        obtain rfl := same_eq_yes.1 hyes
        cases h
        exact ⟨mem_cons_self, hother, rfl⟩
      case h_2 =>
        obtain ⟨hmem, hrest⟩ := of_claim h
        exact ⟨mem_cons_of_mem _ hmem, hrest⟩
      case h_3 =>
        obtain ⟨hmem, hrest⟩ := of_claim h
        exact ⟨mem_cons_of_mem _ hmem, hrest⟩

def Allowed (slots : Slots) : SlotViolation → Prop
  | .held .. => False
  | .edge .. => False
  | .intermediateHeld _ s who => ∃ k, who = .managed k ∧ ∀ r, ¬ Releases slots r s k
  | .missingInput .. => True
  | .contested .. => True

/-- The steps release before other holders claim and before steps pass through. -/
structure Kept (slots : Slots) : Prop where
  claims : ∀ {r c s k h}, Releases slots r s k → Claims slots c s h → k ≠ h → r ≤ c
  passes : ∀ {r i s k}, Releases slots r s k → Passes slots i s → r ≤ i

/-- The replay before a step. -/
structure Sound (slots : Slots) (n : Nat) (r : Replay) : Prop where
  held : Unreleased slots n r.held
  allowed : ∀ v ∈ r.violations, Allowed slots v

theorem Sound.ask {r : Replay} {holder : Option ObjectKey} {report : Occupier × Bool → SlotViolation} (h : Sound slots n r)
    (hreport : ∀ found, (claim operations slots base none op.id s holder r.held).1 = some found →
      Allowed slots (report found)) : Sound slots n (ask operations slots base none op s holder report r) := by
  refine ⟨h.held, fun v hv => ?_⟩
  rcases mem_append.1 hv with hv | hv
  · exact h.allowed v hv
  · rw [Option.mem_toList] at hv
    obtain ⟨found, hfound, rfl⟩ := Option.map_eq_some_iff.1 hv
    exact hreport found hfound

theorem Sound.pass (hkept : Kept slots) {r : Replay} (h : Sound slots (n + 1) r) (hs : Passes slots n s) :
    Sound slots (n + 1) (passStep operations slots base none op r s) := by
  refine h.ask fun found hfound => ?_
  obtain ⟨hmem, -, -⟩ := of_claim hfound
  obtain ⟨k, hk, hnot⟩ := h.held _ hmem
  refine ⟨k, hk, fun q hq => ?_⟩
  have hle : q ≤ n := hkept.passes hq hs
  exact hnot q (Nat.lt_succ_of_le hle) hq

/-- Taking a free slot keeps the replay sound. -/
theorem Sound.take (hplain : Plain slots) (hkept : Kept slots) {r : Replay} (h : Sound slots (n + 1) r) {taker : ObjectKey}
    (hc : Claims slots n s taker) :
    Sound slots (n + 1) (takeStep operations slots base none op (some taker) r (s, .managed taker)) := by
  have hask : Sound slots (n + 1) (NameSlots.ask operations slots base none op s (some taker) (refused op.id s) r) := by
    refine h.ask fun found hfound => ?_
    obtain ⟨hmem, hother, hgives⟩ := of_claim hfound
    obtain ⟨k, (hk : found.1 = .managed k), hnot⟩ := h.held _ hmem
    have hne : k ≠ taker := by
      rintro rfl
      exact hother (hk ▸ rfl)
    have hnone : found.2 = false := by
      rw [hgives, hk, givesUp, Bool.eq_false_iff, ne_eq, any_eq_true]
      rintro ⟨fx, hfx, hcontains⟩
      obtain ⟨q, hq⟩ := getElem?_of_mem hfx
      have hreleases : Releases slots q s k := ⟨fx, hq, contains_iff_mem.1 hcontains⟩
      exact hnot q (Nat.lt_succ_of_le (hkept.claims hreleases hc hne)) hreleases
    rw [refused, hnone]
    trivial
  refine ⟨fun x hx => ?_, hask.allowed⟩
  rcases mem_append.1 hx with hx | hx
  · exact hask.held x hx
  · obtain rfl := mem_singleton.1 hx
    refine ⟨taker, rfl, fun q _ hreleases => ?_⟩
    obtain ⟨fx, hfx, hclaimed⟩ := hc
    obtain ⟨fx', hfx', hreleased⟩ := hreleases
    exact hplain.oneWay fx (mem_of_getElem? hfx) fx' (mem_of_getElem? hfx') _ hclaimed hreleased

theorem moved_eq (h : Unreleased slots n held) : moved op held = ([], held) := by
  have hstays : ∀ x ∈ held, moves op x.2 = false := by
    intro x hx
    obtain ⟨k, hk, -⟩ := h x hx
    rw [hk]
    rfl
  rw [moved]
  cases movesTo op with
  | none => rfl
  | some schema =>
    have hmoving : held.filter (fun x => moves op x.2) = [] :=
      filter_eq_nil_iff.2 fun x hx => by rw [hstays x hx]; exact Bool.false_ne_true
    have hstaying : held.filter (fun x => !moves op x.2) = held :=
      filter_eq_self.2 fun x hx => by rw [hstays x hx]; rfl
    rw [hmoving, hstaying]
    rfl

theorem Sound.step (hplain : Plain slots) (hkept : Kept slots) {r : Replay} (hfx : slots.effects[n]? = some fx)
    (h : Sound slots n r) : Sound slots (n + 1) (replayStep operations slots base none r (op, fx)) := by
  have hreleased : Unreleased slots (n + 1) ((fx.releases.foldl (release base none) r.held).filter fun x => !leaving none op x) := by
    intro x hx
    obtain ⟨hmem, hnew⟩ := mem_foldl_release.1 (List.mem_of_mem_filter hx)
    obtain ⟨k, hk, hnot⟩ := h.held x hmem
    refine ⟨k, hk, fun q hq hreleases => ?_⟩
    rcases Nat.lt_succ_iff_lt_or_eq.1 hq with hlt | rfl
    · exact hnot q hlt hreleases
    · obtain ⟨fx', hfx', hmem'⟩ := hreleases
      obtain rfl : fx = fx' := Option.some.inj (hfx.symm.trans hfx')
      exact hnew _ hmem' (Prod.ext rfl hk)
  rw [replayStep]
  dsimp only
  rw [hplain.reads fx (mem_of_getElem? hfx), foldl_nil, moved_eq hreleased]
  dsimp only
  rw [foldl_nil]
  refine foldlRecOn (motive := Sound slots (n + 1)) _ _ ?_ fun r' hr' claimed hclaimed => ?_
  · refine foldlRecOn (motive := Sound slots (n + 1)) _ _ ⟨hreleased, h.allowed⟩ fun r' hr' s hs => ?_
    exact hr'.pass hkept ⟨fx, hfx, hs⟩
  · exact hr'.take hplain hkept ⟨fx, hfx, hclaimed⟩

theorem Sound.foldl (hplain : Plain slots) (hkept : Kept slots) : ∀ (steps : List (Operation × SlotEffects)) (n : Nat) (r : Replay),
    (∀ i step, steps[i]? = some step → slots.effects[n + i]? = some step.2) → Sound slots n r →
      Sound slots (n + steps.length) (steps.foldl (replayStep operations slots base none) r)
  | [], n, r, _, h => h
  | (op, fx) :: steps, n, r, hsteps, h => by
    have hstep : Sound slots (n + 1) (replayStep operations slots base none r (op, fx)) := h.step hplain hkept (hsteps 0 _ rfl)
    have hrest := Sound.foldl hplain hkept steps (n + 1) _ (fun i step hi => ?_) hstep
    · rw [length_cons, Nat.add_comm steps.length, ← Nat.add_assoc]
      exact hrest
    · rw [Nat.add_assoc, Nat.add_comm 1]
      exact hsteps (i + 1) step hi

def Managed (held : List (SlotKey × Occupier)) : Prop := ∀ x ∈ held, ∃ k, x.2 = .managed k

theorem Managed.snoc (h : Managed held) : Managed (held ++ [(s, .managed k)]) := by
  intro x hx
  rcases mem_append.1 hx with hx | hx
  · exact h x hx
  · exact ⟨k, mem_singleton.1 hx ▸ rfl⟩

theorem seeded_managed : Managed (seeded slots base none) := by
  have hreleased : Managed (slots.effects.foldl (seedStep slots base none) ([], [])).1 := by
    refine foldlRecOn (motive := fun y => Managed (Prod.fst y)) _ _ (fun x hx => absurd hx not_mem_nil) fun y hy fx _ => ?_
    refine foldlRecOn (motive := fun y => Managed (Prod.fst y)) _ _ hy fun y hy released _ => ?_
    rw [seedReleases]
    split
    · exact hy
    · dsimp only
      split
      · exact hy
      · exact hy.snoc
  have hbaseline : Managed ((baselineHeld slots base).foldl (seedBaseline slots base none)
      (slots.effects.foldl (seedStep slots base none) ([], [])).1) := by
    refine foldlRecOn (motive := Managed) _ _ hreleased fun held hheld b _ => ?_
    rw [seedBaseline]
    split
    · exact hheld.snoc
    · exact hheld
  rw [seeded, Option.map_none, Option.getD_none, filter_nil, map_nil, append_nil]
  exact hbaseline

theorem replay_allowed (hplain : Plain slots) (hkept : Kept slots) :
    ∀ v ∈ (replay operations slots base none).violations, Allowed slots v := by
  have hseed : Unreleased slots 0 (seeded slots base none) := by
    intro x hx
    obtain ⟨k, hk⟩ := seeded_managed x hx
    exact ⟨k, hk, fun q hq => absurd hq (Nat.not_lt_zero q)⟩
  have hsteps : ∀ i step, (operations.zip slots.effects)[i]? = some step → slots.effects[0 + i]? = some step.2 := by
    intro i step hi
    rw [Nat.zero_add]
    exact (getElem?_zip_eq_some.1 hi).2
  exact (Sound.foldl hplain hkept _ 0 _ hsteps ⟨hseed, fun _ hv => absurd hv not_mem_nil⟩).allowed

/-! ## Orders of the steps -/

def inOrder {α : Type} (order : List Nat) (l : List α) : List α := order.filterMap (l[·]?)

theorem getElem?_inOrder {α : Type} {l : List α} : ∀ {order : List Nat}, (∀ i ∈ order, i < l.length) →
    ∀ q : Nat, (inOrder order l)[q]? = order[q]?.bind (l[·]?)
  | [], _, q => rfl
  | i :: order, hlt, q => by
    have hget : l[i]? = some _ := getElem?_eq_getElem (hlt i mem_cons_self)
    have hrest : ∀ j ∈ order, j < l.length := fun j hj => hlt j (mem_cons_of_mem _ hj)
    have hcons : inOrder (i :: order) l = l.get ⟨i, hlt i mem_cons_self⟩ :: inOrder order l := filterMap_cons_some hget
    rw [hcons]
    cases q with
    | zero => exact hget.symm
    | succ q => exact getElem?_inOrder hrest q

def Slots.inOrder (order : List Nat) (slots : Slots) : Slots := { slots with effects := NameSlots.inOrder order slots.effects }

variable {order : List Nat}

theorem mem_inOrder {α : Type} {l : List α} {x : α} (h : x ∈ inOrder order l) : x ∈ l := by
  obtain ⟨i, -, hi⟩ := mem_filterMap.1 h
  exact mem_of_getElem? hi

theorem Plain.inOrder (h : Plain slots) : Plain (slots.inOrder order) where
  reads fx hfx := h.reads fx (mem_inOrder hfx)
  catalogOwned := h.catalogOwned
  oneWay fx hfx fx' hfx' := h.oneWay fx (mem_inOrder hfx) fx' (mem_inOrder hfx')

section

variable (horder : ∀ i ∈ order, i < slots.effects.length)
include horder

theorem releases_inOrder : Releases (slots.inOrder order) q s k ↔ ∃ i, order[q]? = some i ∧ Releases slots i s k := by
  rw [Releases, Slots.inOrder, getElem?_inOrder horder]
  simp only [Option.bind_eq_some_iff, Releases]
  tauto

theorem claims_inOrder : Claims (slots.inOrder order) q s h ↔ ∃ i, order[q]? = some i ∧ Claims slots i s h := by
  rw [Claims, Slots.inOrder, getElem?_inOrder horder]
  simp only [Option.bind_eq_some_iff, Claims]
  tauto

theorem passes_inOrder : Passes (slots.inOrder order) q s ↔ ∃ i, order[q]? = some i ∧ Passes slots i s := by
  rw [Passes, Slots.inOrder, getElem?_inOrder horder]
  simp only [Option.bind_eq_some_iff, Passes]
  tauto

end

def Keeps (order : List Nat) (edges : List SlotEdge) : Prop := ∀ e ∈ edges, order.idxOf e.before < order.idxOf e.after

theorem Keeps.kept (hplain : Plain slots) (horder : ∀ i ∈ order, i < slots.effects.length) (hnodup : order.Nodup)
    (h : Keeps order (edges slots none [])) : Kept (slots.inOrder order) := by
  have hidx : ∀ {q i : Nat}, order[q]? = some i → order.idxOf i = q := by
    intro q i hq
    obtain ⟨hlt, rfl⟩ := List.getElem?_eq_some_iff.1 hq
    exact hnodup.idxOf_getElem q hlt
  constructor
  case claims =>
    intro r c s k h' hr hc hne
    obtain ⟨i, hi, hr⟩ := (releases_inOrder horder).1 hr
    obtain ⟨j, hj, hc⟩ := (claims_inOrder horder).1 hc
    rw [← hidx hi, ← hidx hj]
    by_cases hij : i = j
    · rw [hij]
    · exact Nat.le_of_lt (h _ (edge_of_claim hplain hr hc hne hij))
  case passes =>
    intro r p s k hr hp
    obtain ⟨i, hi, hr⟩ := (releases_inOrder horder).1 hr
    obtain ⟨j, hj, hp⟩ := (passes_inOrder horder).1 hp
    rw [← hidx hi, ← hidx hj]
    by_cases hij : i = j
    · rw [hij]
    · exact Nat.le_of_lt (h _ (edge_of_passing hplain hr hp hij))

/-- An order of plain steps that keeps the edges passes the replay: no claim finds a name another step gives up, no edge runs the
other way, and a name passed through is held only by what no step takes away. An order in which a claim comes before another
holder's release is reported. -/
theorem replay_follows_edges (operations : List Operation) (slots : Slots) (base : Baseline) (order : List Nat)
    (hlength : operations.length = slots.effects.length) (horder : order.Perm (List.range operations.length)) (hplain : Plain slots) :
    (Keeps order (edges slots none []) →
      let violations := (verify (inOrder order operations) (slots.inOrder order) base none).1
      (∀ operation s who, .held operation s who ∉ violations) ∧ (∀ before after s, .edge before after s ∉ violations) ∧
        ∀ operation s who, .intermediateHeld operation s who ∈ violations → ∃ k, who = .managed k ∧ ∀ r, ¬ Releases slots r s k) ∧
    ∀ r c s k h, Releases slots r s k → Claims slots c s h → k ≠ h → order.idxOf c < order.idxOf r →
      ∃ before after, operations[r]? = some before ∧ operations[c]? = some after ∧
        .edge before.id after.id s ∈ (verify (inOrder order operations) (slots.inOrder order) base none).1 := by
  have hmem : ∀ i, i ∈ order ↔ i < operations.length := fun i => horder.mem_iff.trans mem_range
  have hoperations : ∀ i ∈ order, i < operations.length := fun i => (hmem i).1
  have heffects : ∀ i ∈ order, i < slots.effects.length := fun i hi => hlength ▸ hoperations i hi
  have hat : ∀ {i : Nat} {fx : SlotEffects}, slots.effects[i]? = some fx → order[order.idxOf i]? = some i := by
    intro i fx hfx
    have hin : i ∈ order := (hmem i).2 (hlength ▸ (List.getElem?_eq_some_iff.1 hfx).1)
    exact getElem?_idxOf hin
  constructor
  case left =>
    intro hkeeps violations
    have hkept := hkeeps.kept hplain heffects (horder.nodup_iff.2 nodup_range)
    have hallowed : ∀ v ∈ violations, Allowed (slots.inOrder order) v := by
      intro v hv
      rcases mem_append.1 hv with hv | hv
      · exact replay_allowed hplain.inOrder hkept v hv
      · obtain ⟨e, he, hviolation⟩ := mem_filterMap.1 hv
        obtain ⟨hstep, k, h, hne, hr, hc⟩ := of_mem_handoversOf hplain.inOrder he
        have hlt : ¬ e.after ≤ e.before := fun hle => hstep (Nat.le_antisymm (hkept.claims hr hc hne) hle)
        rw [edgeViolation, guard, if_neg hlt] at hviolation
        cases hviolation
    refine ⟨fun operation s who hv => hallowed _ hv, fun before after s hv => hallowed _ hv, fun operation s who hv => ?_⟩
    obtain ⟨k, hk, hnot⟩ := hallowed _ hv
    refine ⟨k, hk, fun r hr => ?_⟩
    obtain ⟨fx, hfx, -⟩ := id hr
    exact hnot _ ((releases_inOrder heffects).2 ⟨r, hat hfx, hr⟩)
  case right =>
    intro r c s k h hr hc hne hlt
    obtain ⟨fr, hfr, -⟩ := id hr
    obtain ⟨fc, hfc, -⟩ := id hc
    have hedge : ⟨order.idxOf r, order.idxOf c, s, false⟩ ∈ handoversOf (slots.inOrder order) none [] false :=
      edge_of_claim hplain.inOrder ((releases_inOrder heffects).2 ⟨r, hat hfr, hr⟩)
        ((claims_inOrder heffects).2 ⟨c, hat hfc, hc⟩) hne (Nat.ne_of_gt hlt)
    have hbefore : operations[r]? = some _ := getElem?_eq_getElem (hlength ▸ (List.getElem?_eq_some_iff.1 hfr).1)
    have hafter : operations[c]? = some _ := getElem?_eq_getElem (hlength ▸ (List.getElem?_eq_some_iff.1 hfc).1)
    refine ⟨_, _, hbefore, hafter, mem_append_right _ (mem_filterMap.2 ⟨_, hedge, ?_⟩)⟩
    rw [edgeViolation, guard, if_pos (Nat.le_of_lt hlt), getElem?_inOrder hoperations, getElem?_inOrder hoperations, hat hfr,
      hat hfc, Option.bind_some, Option.bind_some, hbefore, hafter]
    rfl

/-- `a -> b` beside `b -> c`: with the second first the replay refuses no claim, the other way round it reports the edge. -/
theorem replay_follows_edges_chain :
    let slot (name : String) : SlotKey := ⟨.relations "dbo", name⟩
    let operations : List Operation := [
      ⟨0, .renameTable ⟨"t1"⟩ ⟨"dbo", "a"⟩ ⟨"dbo", "b"⟩ [], some (.table ⟨"t1"⟩)⟩,
      ⟨1, .renameTable ⟨"t2"⟩ ⟨"dbo", "b"⟩ ⟨"dbo", "c"⟩ [], some (.table ⟨"t2"⟩)⟩]
    let slots : Slots := ⟨[], [
      ⟨[], [(slot "b", .table ⟨"t1"⟩)], [(slot "a", .table ⟨"t1"⟩)], [], []⟩,
      ⟨[], [(slot "c", .table ⟨"t2"⟩)], [(slot "b", .table ⟨"t2"⟩)], [], []⟩]⟩
    let base : Baseline := ⟨true, [], fun _ => none, fun _ _ => none⟩
    (∀ operation s who, .held operation s who ∉ (verify (inOrder [1, 0] operations) (slots.inOrder [1, 0]) base none).1) ∧
      .edge 1 0 (slot "b") ∈ (verify (inOrder [0, 1] operations) (slots.inOrder [0, 1]) base none).1 := by
  intro slot operations slots base
  have hplain : Plain slots := ⟨by decide, rfl, by decide⟩
  have hkeeps : Keeps [1, 0] (edges slots none []) := by
    rw [Keeps]
    decide +kernel
  constructor
  · exact ((replay_follows_edges operations slots base [1, 0] rfl (by decide) hplain).1 hkeeps).1
  · obtain ⟨before, after, hbefore, hafter, hedge⟩ := (replay_follows_edges operations slots base [0, 1] rfl (by decide) hplain).2
      1 0 (slot "b") (.table ⟨"t2"⟩) (.table ⟨"t1"⟩) ⟨_, rfl, by decide⟩ ⟨_, rfl, by decide⟩ (by decide) (by decide)
    cases hbefore
    cases hafter
    exact hedge

end Pbps.NameSlots
