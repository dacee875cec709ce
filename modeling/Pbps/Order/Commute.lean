/-
Two orders the effects allow: `order/commute.rs`. The steps between a pair that nothing joins are split by whether they lead
to the later one, which then goes first.
-/
import Pbps.Lib.Lists
import Pbps.Lib.Search
import Mathlib.Data.List.Range

namespace Pbps.Order.Commute

open Std (ExtTreeSet)
open Relation (TransGen)
open List (mem_append mem_filter mem_map mem_range mem_range'_1)
open Std.ExtTreeSet

/-! ## The swap -/

/-- One edge: `before` runs before `after`. Where an edge came from is not read here. -/
structure Edge where
  before : Nat
  after : Nat
  deriving DecidableEq, Repr

structure Graph where
  edges : List Edge
  deriving Repr

inductive Direction where
  | forward
  | backward
  deriving DecidableEq, Repr

def Graph.next (g : Graph) (direction : Direction) (i : Nat) : List Nat :=
  match direction with
  | .forward => (g.edges.filter (·.before = i)).map (·.after)
  | .backward => (g.edges.filter (·.after = i)).map (·.before)

/-- Every position a path of edges reaches, the start excluded, along the edges or against them. Each step is put on the stack
once, so one more than there are is enough to empty it. -/
def reaches (g : Graph) (n start : Nat) (direction : Direction) : ExtTreeSet Nat :=
  (Search.search (g.next direction) start (n + 1)).erase start

def joined (g : Graph) (n a b : Nat) : Bool :=
  (reaches g n a .forward).contains b || (reaches g n b .forward).contains a

/-- The order `0..n` with `later`, and what is between the two and leads to it, before `earlier`. -/
def reordered (leads : ExtTreeSet Nat) (n earlier later : Nat) : List Nat :=
  let between := List.range' (earlier + 1) (later - (earlier + 1))
  List.range earlier ++ between.filter (leads.contains ·) ++ [later, earlier] ++ between.filter (! leads.contains ·) ++
    List.range' (later + 1) (n - (later + 1))

/-- `none` when the effects order the two. The source asserts that `earlier` is before `later`, and both below `n`. -/
def swapped (g : Graph) (n earlier later : Nat) : Option (List Nat) :=
  if joined g n earlier later then none
  else some (reordered (reaches g n later .backward) n earlier later)

/-! ## What is reached -/

def Graph.Leads (g : Graph) : Nat → Nat → Prop := TransGen fun u v => ⟨u, v⟩ ∈ g.edges

/-- Every edge runs forward, among `n` steps. -/
def Graph.Runs (g : Graph) (n : Nat) : Prop := ∀ e ∈ g.edges, e.before < e.after ∧ e.after < n

variable {g : Graph} {n : Nat}

variable {u v : Nat}

theorem mem_next_forward : v ∈ g.next .forward u ↔ ⟨u, v⟩ ∈ g.edges := by
  simp only [Graph.next, mem_map, mem_filter, decide_eq_true_eq]
  constructor
  · rintro ⟨e, ⟨he, rfl⟩, rfl⟩
    exact he
  · exact fun he => ⟨_, ⟨he, rfl⟩, rfl⟩

theorem mem_next_backward : v ∈ g.next .backward u ↔ ⟨v, u⟩ ∈ g.edges := by
  simp only [Graph.next, mem_map, mem_filter, decide_eq_true_eq]
  constructor
  · rintro ⟨e, ⟨he, rfl⟩, rfl⟩
    exact he
  · exact fun he => ⟨_, ⟨he, rfl⟩, rfl⟩

theorem Graph.Runs.lt (h : g.Runs n) (huv : g.Leads u v) : u < v := by
  induction huv with
  | single hv => exact (h _ hv).1
  | tail _ hv ih => exact Nat.lt_trans ih (h _ hv).1

theorem mem_reaches_forward (h : g.Runs n) : v ∈ reaches g n u .forward ↔ g.Leads u v := by
  have hnext : ∀ u, ∀ v ∈ g.next .forward u, v ∈ Finset.range n :=
    fun u v hv => Finset.mem_range.2 (h _ (mem_next_forward.1 hv)).2
  have hmem : v ∈ Search.search (g.next .forward) u (n + 1) ↔ g.Leads u v := by
    rw [Search.mem_search hnext (by rw [Finset.card_range]; exact Nat.lt_succ_self n), Graph.Leads]
    simp only [mem_next_forward]
  rw [reaches, mem_erase, hmem, Ne, Std.LawfulEqOrd.compare_eq_iff_eq]
  exact ⟨And.right, fun huv => ⟨Nat.ne_of_lt (h.lt huv), huv⟩⟩

theorem mem_reaches_backward (h : g.Runs n) : v ∈ reaches g n u .backward ↔ g.Leads v u := by
  have hnext : ∀ u, ∀ v ∈ g.next .backward u, v ∈ Finset.range n := by
    intro u v hv
    have hrun := h _ (mem_next_backward.1 hv)
    exact Finset.mem_range.2 (Nat.lt_trans hrun.1 hrun.2)
  have hmem : v ∈ Search.search (g.next .backward) u (n + 1) ↔ g.Leads v u := by
    rw [Search.mem_search hnext (by rw [Finset.card_range]; exact Nat.lt_succ_self n), Graph.Leads]
    simp only [mem_next_backward]
    exact Relation.transGen_swap
  rw [reaches, mem_erase, hmem, Ne, Std.LawfulEqOrd.compare_eq_iff_eq]
  exact ⟨And.right, fun hvu => ⟨Nat.ne_of_gt (h.lt hvu), hvu⟩⟩

theorem joined_iff (h : g.Runs n) {a b : Nat} : joined g n a b = true ↔ g.Leads a b ∨ g.Leads b a := by
  rw [joined, Bool.or_eq_true, contains_iff_mem, contains_iff_mem, mem_reaches_forward h,
    mem_reaches_forward h]

/-! ## The order of a swap -/

section Swap

variable {leads : ExtTreeSet Nat} {earlier later : Nat}

def stretch (leads : ExtTreeSet Nat) (earlier later i : Nat) : Nat :=
  if i < earlier then 0
  else if later < i then 5
  else if i = later then 2
  else if i = earlier then 3
  else if i ∈ leads then 1
  else 4

/-- What comes first: an earlier stretch, and within one the order there was. -/
def First (leads : ExtTreeSet Nat) (earlier later i j : Nat) : Prop :=
  stretch leads earlier later i < stretch leads earlier later j ∨
    stretch leads earlier later i = stretch leads earlier later j ∧ i < j

variable {i j : Nat}

theorem First.asymm (h : First leads earlier later i j) : ¬ First leads earlier later j i := by
  intro h'
  rw [First] at h h'
  omega

theorem First.of_ne (hne : i ≠ j) : First leads earlier later i j ∨ First leads earlier later j i := by
  rw [First, First]
  omega

theorem first_of_stretch {l : List Nat} {k : Nat} (hk : ∀ i ∈ l, stretch leads earlier later i = k)
    (h : l.Pairwise (· < ·)) : l.Pairwise (First leads earlier later) :=
  h.imp_of_mem fun hi hj hij => .inr ⟨by rw [hk _ hi, hk _ hj], hij⟩

theorem first_append {l l' : List Nat} {k : Nat} (hl : l.Pairwise (First leads earlier later))
    (hl' : l'.Pairwise (First leads earlier later)) (hk : ∀ i ∈ l, stretch leads earlier later i ≤ k)
    (hk' : ∀ i ∈ l', k < stretch leads earlier later i) : (l ++ l').Pairwise (First leads earlier later) :=
  List.pairwise_append.2 ⟨hl, hl', fun i hi j hj => .inl (Nat.lt_of_le_of_lt (hk i hi) (hk' j hj))⟩

theorem mem_between : i ∈ List.range' (earlier + 1) (later - (earlier + 1)) ↔ earlier < i ∧ i < later := by
  rw [mem_range'_1]
  omega

section

variable (hlt : earlier < later)
include hlt

theorem mem_reordered (hn : later < n) : i ∈ reordered leads n earlier later ↔ i < n := by
  simp only [reordered, mem_append, mem_range, mem_filter, List.mem_cons, List.not_mem_nil, or_false,
    mem_range'_1]
  cases hi : leads.contains i
  · simp only [Bool.not_false, and_true, Bool.false_eq_true, and_false, or_false]
    omega
  · simp only [Bool.not_true, and_true, Bool.false_eq_true, and_false, or_false]
    omega

/-- In the new order each stands where the two that swapped leave it. -/
theorem reordered_pairwise : (reordered leads n earlier later).Pairwise (First leads earlier later) := by
  have hbefore : ∀ i ∈ List.range earlier, stretch leads earlier later i = 0 := by
    intro i hi
    rw [stretch, if_pos (mem_range.1 hi)]
  have hbetween : ∀ i, earlier < i → i < later → stretch leads earlier later i = if i ∈ leads then 1 else 4 := by
    intro i hi hi'
    rw [stretch, if_neg (by omega), if_neg (by omega), if_neg (by omega), if_neg (by omega)]
  have hleads : ∀ i ∈ (List.range' (earlier + 1) (later - (earlier + 1))).filter (leads.contains ·),
      stretch leads earlier later i = 1 := by
    intro i hi
    obtain ⟨hi, hmem⟩ := mem_filter.1 hi
    rw [hbetween i (mem_between.1 hi).1 (mem_between.1 hi).2, if_pos (contains_iff_mem.1 hmem)]
  have hrest : ∀ i ∈ (List.range' (earlier + 1) (later - (earlier + 1))).filter (! leads.contains ·),
      stretch leads earlier later i = 4 := by
    intro i hi
    obtain ⟨hi, hmem⟩ := mem_filter.1 hi
    have hnot : i ∉ leads := by
      intro hi
      rw [contains_iff_mem.2 hi] at hmem
      cases hmem
    rw [hbetween i (mem_between.1 hi).1 (mem_between.1 hi).2, if_neg hnot]
  have hafter : ∀ i ∈ List.range' (later + 1) (n - (later + 1)), stretch leads earlier later i = 5 := by
    intro i hi
    have hi := (mem_range'_1.1 hi).1
    rw [stretch, if_neg (by omega), if_pos (by omega)]
  have hlater : stretch leads earlier later later = 2 := by
    rw [stretch, if_neg (by omega), if_neg (by omega), if_pos rfl]
  have hearlier : stretch leads earlier later earlier = 3 := by
    rw [stretch, if_neg (by omega), if_neg (by omega), if_neg (by omega), if_pos rfl]
  have hpair : [later, earlier].Pairwise (First leads earlier later) :=
    List.pairwise_pair.2 (.inl (by rw [hlater, hearlier]; decide))
  have hsorted : ∀ start len, (List.range' start len).Pairwise (· < ·) := fun _ _ => List.pairwise_lt_range'
  have hpair_mem : ∀ i ∈ [later, earlier], 1 < stretch leads earlier later i ∧ stretch leads earlier later i ≤ 3 := by
    intro i hi
    rcases List.mem_pair.1 hi with rfl | rfl
    · rw [hlater]; decide
    · rw [hearlier]; decide
  -- stretch by stretch, each above what stands before it
  have h01 := first_append (first_of_stretch hbefore List.pairwise_lt_range)
    (first_of_stretch hleads ((hsorted _ _).filter _)) (fun i hi => Nat.le_of_eq (hbefore i hi))
    (fun i hi => by rw [hleads i hi]; decide)
  have hle01 : ∀ i ∈ List.range earlier ++ (List.range' (earlier + 1) (later - (earlier + 1))).filter (leads.contains ·),
      stretch leads earlier later i ≤ 1 := by
    intro i hi
    rcases mem_append.1 hi with hi | hi
    · rw [hbefore i hi]; decide
    · rw [hleads i hi]
  have h03 := first_append h01 hpair hle01 fun i hi => (hpair_mem i hi).1
  have hle03 : ∀ i ∈ List.range earlier ++ (List.range' (earlier + 1) (later - (earlier + 1))).filter (leads.contains ·) ++
      [later, earlier], stretch leads earlier later i ≤ 3 := by
    intro i hi
    rcases mem_append.1 hi with hi | hi
    · exact Nat.le_trans (hle01 i hi) (by decide)
    · exact (hpair_mem i hi).2
  have h04 := first_append h03 (first_of_stretch hrest ((hsorted _ _).filter _)) hle03
    (fun i hi => by rw [hrest i hi]; decide)
  refine first_append h04 (first_of_stretch hafter (hsorted _ _)) (k := 4) ?_ (fun i hi => by rw [hafter i hi]; decide)
  intro i hi
  rcases mem_append.1 hi with hi | hi
  · exact Nat.le_trans (hle03 i hi) (by decide)
  · rw [hrest i hi]

theorem idxOf_reordered_lt (hn : later < n) (hi : i < n) (hj : j < n) :
    (reordered leads n earlier later).idxOf i < (reordered leads n earlier later).idxOf j ↔ First leads earlier later i j := by
  have hpairwise : (reordered leads n earlier later).Pairwise (First leads earlier later) := reordered_pairwise hlt
  have hasymm : ∀ a b, First leads earlier later a b → ¬ First leads earlier later b a := fun _ _ => First.asymm
  have himem : i ∈ reordered leads n earlier later := (mem_reordered hlt hn).2 hi
  have hjmem : j ∈ reordered leads n earlier later := (mem_reordered hlt hn).2 hj
  refine ⟨fun h => ?_, fun h => Position.idxOf_lt_of_pairwise hpairwise hasymm h himem hjmem⟩
  by_cases hij : i = j
  · subst hij
    exact absurd h (Nat.lt_irrefl _)
  · refine (First.of_ne hij).resolve_right fun h' => ?_
    exact Nat.lt_asymm h (Position.idxOf_lt_of_pairwise hpairwise hasymm h' hjmem himem)

theorem reordered_nodup : (reordered leads n earlier later).Nodup :=
  (reordered_pairwise hlt).imp fun h heq => h.asymm (by rw [heq] at h ⊢; exact h)

theorem reordered_perm (hn : later < n) : (reordered leads n earlier later).Perm (List.range n) := by
  refine (List.perm_ext_iff_of_nodup (reordered_nodup hlt) List.nodup_range).2 fun i => ?_
  rw [mem_reordered hlt hn, mem_range]

end

theorem stretch_cases (leads : ExtTreeSet Nat) (hlt : earlier < later) (i : Nat) :
    i < earlier ∧ stretch leads earlier later i = 0 ∨
    (earlier < i ∧ i < later) ∧ (i ∈ leads ∧ stretch leads earlier later i = 1 ∨
      i ∉ leads ∧ stretch leads earlier later i = 4) ∨ i = later ∧ stretch leads earlier later i = 2 ∨
    i = earlier ∧ stretch leads earlier later i = 3 ∨ later < i ∧ stretch leads earlier later i = 5 := by
  rw [stretch]
  by_cases hi : i ∈ leads <;> simp only [hi, not_true_eq_false, not_false_eq_true, true_and, false_and, if_true, if_false] <;>
    split_ifs <;> omega

end Swap

/-! ## What it keeps -/

/-- The steps a swap moves: the later one, and what stands between the two and leads to it. -/
def Moved (g : Graph) (earlier later i : Nat) : Prop := i = later ∨ earlier < i ∧ i < later ∧ g.Leads i later

section Moved

variable {earlier later : Nat}

section

variable (hg : g.Runs n) (hlt : earlier < later)
include hg hlt

theorem moved_iff (i : Nat) : Moved g earlier later i ↔
    stretch (reaches g n later .backward) earlier later i = 1 ∨ stretch (reaches g n later .backward) earlier later i = 2 := by
  have hleads := mem_reaches_backward hg (u := later) (v := i)
  rw [Moved, ← hleads]
  rcases stretch_cases (reaches g n later .backward) hlt i with
    ⟨hi, hk⟩ | ⟨hi, ⟨hmem, hk⟩ | ⟨hmem, hk⟩⟩ | ⟨hi, hk⟩ | ⟨hi, hk⟩ | ⟨hi, hk⟩
  · rw [hk]
    omega
  · rw [hk]
    exact iff_of_true (.inr ⟨hi.1, hi.2, hmem⟩) (.inl rfl)
  · rw [hk]
    refine iff_of_false ?_ (by decide)
    rintro (heq | ⟨_, _, h⟩)
    · omega
    · exact hmem h
  · rw [hk]
    exact iff_of_true (.inl hi) (.inr rfl)
  all_goals
    rw [hk]
    omega

theorem turned_iff (hn : later < n) {i j : Nat} (hij : i < j) (hj : j < n) :
    (reordered (reaches g n later .backward) n earlier later).idxOf j <
        (reordered (reaches g n later .backward) n earlier later).idxOf i ↔
      earlier ≤ i ∧ ¬ Moved g earlier later i ∧ Moved g earlier later j := by
  rw [idxOf_reordered_lt hlt hn hj (Nat.lt_trans hij hj), moved_iff hg hlt, moved_iff hg hlt, First]
  have hi := stretch_cases (reaches g n later .backward) hlt i
  have hj := stretch_cases (reaches g n later .backward) hlt j
  omega

theorem idxOf_lt_of_not_turned (hn : later < n) {i j : Nat} (hij : i < j) (hj : j < n)
    (hnot : ¬ (earlier ≤ i ∧ ¬ Moved g earlier later i ∧ Moved g earlier later j)) :
    (reordered (reaches g n later .backward) n earlier later).idxOf i <
      (reordered (reaches g n later .backward) n earlier later).idxOf j := by
  rw [← turned_iff hg hlt hn hij hj, Nat.not_lt] at hnot
  refine Nat.lt_of_le_of_ne hnot fun heq => Nat.ne_of_lt hij ?_
  exact (List.idxOf_inj ((mem_reordered hlt hn).2 (Nat.lt_trans hij hj))).1 heq

end

theorem moved_of_edge (hg : g.Runs n) (hjoined : ¬ g.Leads earlier later) {e : Edge} (he : e ∈ g.edges)
    (hle : earlier ≤ e.before) (hmoved : Moved g earlier later e.after) : Moved g earlier later e.before := by
  have hlt := (hg e he).1
  have hleads : g.Leads e.before later ∧ e.before < later := by
    rcases hmoved with heq | ⟨_, hafter, hleads⟩
    · rw [← heq]
      exact ⟨.single he, hlt⟩
    · exact ⟨.head he hleads, Nat.lt_trans hlt hafter⟩
  rcases Nat.lt_or_eq_of_le hle with hbefore | heq
  · exact .inr ⟨hbefore, hleads.2, hleads.1⟩
  · exact absurd (heq ▸ hleads.1) hjoined

/-- A pair a path joins is not swapped. Otherwise the later step runs before the earlier one, every edge still runs forward,
and of two steps the order changes only where one that moves passes one that does not. -/
theorem swapped_keeps (hg : g.Runs n) (hlt : earlier < later) (hn : later < n) :
    (swapped g n earlier later = none ↔ g.Leads earlier later ∨ g.Leads later earlier) ∧
    ∀ order, swapped g n earlier later = some order → order.Perm (List.range n) ∧ order.idxOf later < order.idxOf earlier ∧
      (∀ e ∈ g.edges, order.idxOf e.before < order.idxOf e.after) ∧
      (∀ i j, i < j → j < n → ¬ Moved g earlier later i → ¬ Moved g earlier later j → order.idxOf i < order.idxOf j) ∧
      ∀ i j, i < j → j < n →
        (order.idxOf j < order.idxOf i ↔ earlier ≤ i ∧ ¬ Moved g earlier later i ∧ Moved g earlier later j) := by
  constructor
  · rw [swapped, ← joined_iff hg]
    split
    case isTrue h => exact iff_of_true rfl h
    case isFalse h => exact iff_of_false (Option.some_ne_none _) h
  · intro order horder
    rw [swapped] at horder
    split at horder
    case isTrue => cases horder
    case isFalse hjoined =>
      rw [joined_iff hg, not_or] at hjoined
      obtain rfl := Option.some.inj horder
      refine ⟨reordered_perm hlt hn, ?_, ?_, ?_, fun i j hij hj => turned_iff hg hlt hn hij hj⟩
      · have hstays : ¬ Moved g earlier later earlier := by
          rintro (heq | ⟨hirrefl, _⟩) <;> omega
        exact (turned_iff hg hlt hn hlt hn).2 ⟨Nat.le_refl _, hstays, .inl rfl⟩
      · intro e he
        refine idxOf_lt_of_not_turned hg hlt hn (hg e he).1 (hg e he).2 ?_
        rintro ⟨hle, hstays, hmoved⟩
        exact hstays (moved_of_edge hg hjoined.1 he hle hmoved)
      · intro i j hij hj _ hstays
        exact idxOf_lt_of_not_turned hg hlt hn hij hj fun h => hstays h.2.2

/-- Of five steps one leads to the fourth, which then passes the first with it. -/
theorem swapped_keeps_five : swapped ⟨[⟨2, 3⟩, ⟨0, 1⟩]⟩ 5 0 3 = some [2, 3, 0, 1, 4] ∧
    ∀ e ∈ [Edge.mk 2 3, ⟨0, 1⟩], [2, 3, 0, 1, 4].idxOf e.before < [2, 3, 0, 1, 4].idxOf e.after :=
  have hswapped : swapped ⟨[⟨2, 3⟩, ⟨0, 1⟩]⟩ 5 0 3 = some [2, 3, 0, 1, 4] := by decide
  have hruns : Graph.Runs ⟨[⟨2, 3⟩, ⟨0, 1⟩]⟩ 5 := by
    rw [Graph.Runs]
    decide
  ⟨hswapped, ((swapped_keeps hruns (by decide) (by decide)).2 _ hswapped).2.2.1⟩

end Moved

end Pbps.Order.Commute
