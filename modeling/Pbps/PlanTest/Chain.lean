/-
Fixture pins as one ancestry chain that ends at the base: `order` of `pbps-cli`'s `plan_test/chain.rs`. Git is asked of each
pair of commits, and may fail to answer; the order comes from how many of the others each commit was found ahead of.
-/
import Pbps.Lib.Map
import Pbps.Lib.Lists
import Pbps.Model.Name
import Mathlib.Data.String.Basic

namespace Pbps.PlanTest

open Std (ExtTreeSet)
open List

/-! ## Commits and answers -/

/-- A full object id, in the order of its text. -/
structure CommitId where
  text : String
  deriving DecidableEq, Repr, Inhabited

namespace CommitId

instance : Ord CommitId := ⟨compareOn CommitId.text⟩

instance : Std.TransOrd CommitId := inferInstanceAs (Std.TransCmp (compareOn CommitId.text))

instance : Std.LawfulEqOrd CommitId where
  compare_self {a} := Std.ReflOrd.compare_self (a := a.text)
  eq_of_compare {a b} h := by
    cases a; cases b
    exact congrArg CommitId.mk (Std.LawfulEqOrd.eq_of_compare h)

end CommitId

/-- Why git does not answer. -/
inductive GitProblem where
  | noCheckout
  | gitUnavailable
  | missing (shallow : Bool)
  | ambiguous (warning : String)
  | incomplete
  | unreadable (reason : String)
  deriving DecidableEq, Repr

inductive ChainProblem where
  | incomparable (a b : CommitId)
  | afterBase (pin base : CommitId)
  | baseNotBehindCandidate (base tip : CommitId)
  | unknown (ancestor descendant : CommitId) (problem : GitProblem)
  deriving DecidableEq, Repr

/-- The fixtures pinned at one commit, as indices into the manifest's list. -/
structure PinGroup where
  commit : CommitId
  fixtures : List Nat
  deriving DecidableEq, Repr

/-- One replay jump between neighbouring pins, with its revision distance. -/
structure Hop where
  from_ : CommitId
  to_ : CommitId
  distance : Nat
  deriving DecidableEq, Repr

/-- Oldest pin first; the last group is the base. -/
structure ReplayChain where
  groups : List PinGroup
  hops : List Hop
  deriving DecidableEq, Repr

/-! ## Asking git -/

/-- What is known once some pairs were asked of: how many of the others each commit was found ahead of, and the problems. -/
structure Asked where
  behind : CommitId → Nat
  comparable : Bool
  problems : List ChainProblem
  reported : List (CommitId × CommitId)

namespace Asked

/-- A failed answer is reported once, however many times its pair comes up. -/
def unknown (s : Asked) (a b : CommitId) : Except GitProblem Bool → Asked
  | .ok _ => s
  | .error problem =>
    if (a, b) ∈ s.reported then s
    else { s with problems := s.problems ++ [.unknown a b problem], reported := (a, b) :: s.reported }

def ahead (s : Asked) (c : CommitId) : Asked := { s with behind := fun x => if x = c then s.behind x + 1 else s.behind x }

end Asked

section

variable (ancestor : CommitId → CommitId → Except GitProblem Bool)

def askTip (base tip : CommitId) : Asked :=
  let s : Asked := ⟨fun _ => 0, true, [], []⟩
  match ancestor base tip with
  | .ok false => { s with problems := [.baseNotBehindCandidate base tip] }
  | .ok true => s
  | .error problem => s.unknown base tip (.error problem)

/-- One pair: one direction that proves ancestry settles it, so a failure of the first does not hide the second. -/
def askPair (s : Asked) (pair : CommitId × CommitId) : Asked :=
  let (a, b) := pair
  let forward := ancestor a b
  if forward = .ok true then s.ahead b
  else
    let reverse := ancestor b a
    if reverse = .ok true then s.ahead a
    else
      let s := { s with comparable := false }
      if forward = .ok false ∧ reverse = .ok false then { s with problems := s.problems ++ [.incomparable a b] }
      else (s.unknown a b forward).unknown b a reverse

def pairs : List CommitId → List (CommitId × CommitId)
  | [] => []
  | a :: rest => rest.map (a, ·) ++ pairs rest

def distinctCommits (base : CommitId) (pins : List CommitId) : List CommitId := (ExtTreeSet.ofList (pins ++ [base])).toList

def askAll (base : CommitId) (pins : List CommitId) (tip : CommitId) : Asked :=
  (pairs (distinctCommits base pins)).foldl (askPair ancestor) (askTip ancestor base tip)

end

/-! ## The chain -/

def fixturesAt (pins : List CommitId) (commit : CommitId) : List Nat :=
  (pins.zipIdx.filter fun e => e.1 = commit).map (·.2)

/-- The jump between two neighbouring groups, or why its distance is not known. -/
def hop (distance : CommitId → CommitId → Except GitProblem Nat) (pair : PinGroup × PinGroup) : Except ChainProblem Hop :=
  match distance pair.1.commit pair.2.commit with
  | .ok d => .ok ⟨pair.1.commit, pair.2.commit, d⟩
  | .error problem => .error (.unknown pair.1.commit pair.2.commit problem)

def failure : Except ChainProblem Hop → Option ChainProblem
  | .ok _ => none
  | .error problem => some problem

def ordered (asked : Asked) (base : CommitId) (pins : List CommitId) : List CommitId :=
  (distinctCommits base pins).sortOn asked.behind

def lateOf (asked : Asked) (base : CommitId) (commits : List CommitId) : List ChainProblem :=
  (commits.filter fun c => c ≠ base ∧ asked.behind base < asked.behind c).map fun c => .afterBase c base

def groupsOf (pins commits : List CommitId) : List PinGroup := commits.map fun c => ⟨c, fixturesAt pins c⟩

def hopsOf (distance : CommitId → CommitId → Except GitProblem Nat) (groups : List PinGroup) : List (Except ChainProblem Hop) :=
  (groups.zip groups.tail).map (hop distance)

/-- Orders the pins into a chain that ends at the base, and checks that the base is behind the tip. -/
def order (base : CommitId) (pins : List CommitId) (tip : CommitId) (ancestor : CommitId → CommitId → Except GitProblem Bool)
    (distance : CommitId → CommitId → Except GitProblem Nat) : Except (List ChainProblem) ReplayChain :=
  let asked := askAll ancestor base pins tip
  if !asked.comparable then .error asked.problems
  else
    let commits := ordered asked base pins
    let groups := groupsOf pins commits
    let hops := hopsOf distance groups
    let problems := asked.problems ++ lateOf asked base commits ++ hops.filterMap failure
    if problems.isEmpty then .ok ⟨groups, hops.filterMap Except.toOption⟩ else .error problems

/-! ## What the answers settle -/

section Settled

variable {ancestor : CommitId → CommitId → Except GitProblem Bool} {base tip c : CommitId} {pins : List CommitId}

/-- The later commit of a pair, where an answer says which one it is. -/
def winner (ancestor : CommitId → CommitId → Except GitProblem Bool) (pair : CommitId × CommitId) : Option CommitId :=
  if ancestor pair.1 pair.2 = .ok true then some pair.2 else if ancestor pair.2 pair.1 = .ok true then some pair.1 else none

theorem askPair_spec (s : Asked) (pair : CommitId × CommitId) :
    (∀ c, (askPair ancestor s pair).behind c = s.behind c + if winner ancestor pair = some c then 1 else 0) ∧
      ((askPair ancestor s pair).comparable = true ↔ s.comparable = true ∧ winner ancestor pair ≠ none) ∧
      (winner ancestor pair ≠ none → (askPair ancestor s pair).problems = s.problems) := by
  have hahead : ∀ c d, (s.ahead c).behind d = s.behind d + if some c = some d then 1 else 0 := by
    intro c d
    rw [Asked.ahead]
    by_cases hcd : d = c
    · simp [hcd]
    · simp [hcd, Ne.symm hcd]
  have hunknown : ∀ (s : Asked) (a b : CommitId) (answer : Except GitProblem Bool),
      (s.unknown a b answer).behind = s.behind ∧ (s.unknown a b answer).comparable = s.comparable := by
    intro s a b answer
    cases answer with
    | ok _ => exact ⟨rfl, rfl⟩
    | error problem =>
      rw [Asked.unknown]
      split <;> exact ⟨rfl, rfl⟩
  obtain ⟨a, b⟩ := pair
  rw [askPair, winner]
  dsimp only
  by_cases hforward : ancestor a b = .ok true
  · rw [if_pos hforward, if_pos hforward]
    exact ⟨hahead b, by simp [Asked.ahead], fun _ => rfl⟩
  rw [if_neg hforward, if_neg hforward]
  by_cases hreverse : ancestor b a = .ok true
  · rw [if_pos hreverse, if_pos hreverse]
    exact ⟨hahead a, by simp [Asked.ahead], fun _ => rfl⟩
  rw [if_neg hreverse, if_neg hreverse]
  refine ⟨fun c => ?_, ?_, fun h => absurd rfl h⟩
  · split
    · simp
    · simp [(hunknown _ _ _ _).1]
  · split
    · simp
    · simp [(hunknown _ _ _ _).2]

theorem askPairs_spec : ∀ (l : List (CommitId × CommitId)) (s : Asked),
    (∀ c, (l.foldl (askPair ancestor) s).behind c = s.behind c + l.countP fun p => winner ancestor p = some c) ∧
      ((l.foldl (askPair ancestor) s).comparable = true ↔ s.comparable = true ∧ ∀ p ∈ l, winner ancestor p ≠ none) ∧
      ((∀ p ∈ l, winner ancestor p ≠ none) → (l.foldl (askPair ancestor) s).problems = s.problems)
  | [], s => by simp
  | p :: l, s => by
    obtain ⟨hbehind, hcomparable, hproblems⟩ : (∀ c, (askPair ancestor s p).behind c = _) ∧ _ ∧ _ := askPair_spec s p
    obtain ⟨ihbehind, ihcomparable, ihproblems⟩ := askPairs_spec l (askPair ancestor s p)
    rw [foldl_cons, forall_mem_cons]
    refine ⟨fun c => ?_, ?_, fun ⟨hp, hl⟩ => (ihproblems hl).trans (hproblems hp)⟩
    · rw [ihbehind, hbehind, countP_cons]
      simp only [decide_eq_true_eq]
      omega
    · rw [ihcomparable, hcomparable, and_assoc]

theorem askTip_spec : (∀ c, (askTip ancestor base tip).behind c = 0) ∧ (askTip ancestor base tip).comparable = true ∧
    ((askTip ancestor base tip).problems = [] ↔ ancestor base tip = .ok true) := by
  rw [askTip]
  cases h : ancestor base tip with
  | ok answer => cases answer <;> simp
  | error problem => simp [Asked.unknown]

/-! ## The counts are the places -/

/-- Where git answers, it answers the order of the commits. -/
def Truthful [PartialOrder CommitId] (ancestor : CommitId → CommitId → Except GitProblem Bool) : Prop :=
  ∀ a b answer, ancestor a b = .ok answer → (answer = true ↔ a ≤ b)

section Truthful

variable [PartialOrder CommitId] (htrue : Truthful ancestor)
include htrue

variable {a b : CommitId}

variable (hne : a ≠ b) (h : winner ancestor (a, b) ≠ none)
include hne h

theorem winner_eq_right : winner ancestor (a, b) = some b ↔ a < b := by
  rw [winner] at h ⊢
  dsimp only at h ⊢
  split at h
  · next hforward =>
    rw [if_pos hforward]
    exact ⟨fun _ => lt_of_le_of_ne ((htrue _ _ _ hforward).1 rfl) hne, fun _ => rfl⟩
  · next hforward =>
    rw [if_neg hforward]
    split at h
    · next hreverse =>
      rw [if_pos hreverse, Option.some.injEq]
      exact ⟨fun heq => absurd heq hne, fun hlt => absurd ((htrue _ _ _ hreverse).1 rfl) (not_le_of_gt hlt)⟩
    · exact absurd rfl h

theorem winner_eq_left : winner ancestor (a, b) = some a ↔ b < a := by
  rw [winner] at h ⊢
  dsimp only at h ⊢
  split at h
  · next hforward =>
    rw [if_pos hforward, Option.some.injEq]
    exact ⟨fun heq => absurd heq.symm hne, fun hlt => absurd ((htrue _ _ _ hforward).1 rfl) (not_le_of_gt hlt)⟩
  · next hforward =>
    rw [if_neg hforward]
    split at h
    · next hreverse =>
      rw [if_pos hreverse]
      exact ⟨fun _ => lt_of_le_of_ne ((htrue _ _ _ hreverse).1 rfl) hne.symm, fun _ => rfl⟩
    · exact absurd rfl h

end Truthful

variable {a b : CommitId}

theorem mem_of_winner (h : winner ancestor (a, b) = some c) : c = a ∨ c = b := by
  rw [winner] at h
  split_ifs at h
  · exact .inr (Option.some.inj h).symm
  · exact .inl (Option.some.inj h).symm

theorem winner_ne_none : winner ancestor (a, b) ≠ none ↔ ancestor a b = .ok true ∨ ancestor b a = .ok true := by
  rw [winner]
  split_ifs with hforward hreverse <;> simp [*]

theorem mem_pairs : ∀ {l : List CommitId} {a b : CommitId}, (a, b) ∈ pairs l → a ∈ l ∧ b ∈ l
  | x :: l, a, b, h => by
    rw [pairs, mem_append, mem_map] at h
    rcases h with ⟨y, hy, heq⟩ | h
    · obtain ⟨rfl, rfl⟩ := Prod.mk.inj heq
      exact ⟨mem_cons_self, mem_cons_of_mem _ hy⟩
    · exact ⟨mem_cons_of_mem _ (mem_pairs h).1, mem_cons_of_mem _ (mem_pairs h).2⟩

theorem pairs_total : ∀ {l : List CommitId} {a b : CommitId}, a ∈ l → b ∈ l → a ≠ b → (a, b) ∈ pairs l ∨ (b, a) ∈ pairs l
  | x :: l, a, b, ha, hb, hne => by
    simp only [pairs, mem_append, mem_map, Prod.mk.injEq]
    rcases mem_cons.1 ha with rfl | hal <;> rcases mem_cons.1 hb with rfl | hbl
    · exact absurd rfl hne
    · exact .inl (.inl ⟨b, hbl, rfl, rfl⟩)
    · exact .inr (.inl ⟨a, hal, rfl, rfl⟩)
    · exact (pairs_total hal hbl hne).imp .inr .inr

theorem pairs_settled {l : List CommitId} (hnodup : l.Nodup) : (∀ p ∈ pairs l, winner ancestor p ≠ none) ↔
    ∀ a ∈ l, ∀ b ∈ l, a ≠ b → ancestor a b = .ok true ∨ ancestor b a = .ok true := by
  constructor
  · intro h a ha b hb hne
    rcases pairs_total ha hb hne with hp | hp
    · exact winner_ne_none.1 (h _ hp)
    · exact (winner_ne_none.1 (h _ hp)).symm
  · intro h
    induction l with
    | nil => exact nofun
    | cons x l ih =>
      obtain ⟨hx, hl⟩ := nodup_cons.1 hnodup
      rintro ⟨a, b⟩ hp
      rw [pairs, mem_append, mem_map] at hp
      rcases hp with ⟨y, hy, heq⟩ | hp
      · obtain ⟨rfl, rfl⟩ := Prod.mk.inj heq
        exact winner_ne_none.2 (h x mem_cons_self y (mem_cons_of_mem _ hy) fun heq => hx (heq ▸ hy))
      · exact ih hl (fun a ha b hb => h a (mem_cons_of_mem _ ha) b (mem_cons_of_mem _ hb)) _ hp

theorem countP_winner [PartialOrder CommitId] [DecidableLT CommitId] (htrue : Truthful ancestor) :
    ∀ {l : List CommitId}, l.Nodup → (∀ p ∈ pairs l, winner ancestor p ≠ none) → ∀ c ∈ l,
      ((pairs l).countP fun p => winner ancestor p = some c) = l.countP (· < c)
  | x :: l, hnodup, hsettled, c, hc => by
    obtain ⟨hx, hl⟩ := nodup_cons.1 hnodup
    rw [pairs, forall_mem_append, forall_mem_map] at hsettled
    obtain ⟨hhead, hrest⟩ := hsettled
    have hne : ∀ y ∈ l, x ≠ y := fun y hy heq => hx (heq ▸ hy)
    rw [pairs, countP_append, countP_map, countP_cons]
    rcases mem_cons.1 hc with rfl | hcl
    · -- the commit itself against each later one; no later pair has it
      have hthose : l.countP ((fun p => decide (winner ancestor p = some c)) ∘ (c, ·)) = l.countP (· < c) := by
        refine countP_congr fun y hy => ?_
        simpa using winner_eq_left htrue (hne y hy) (hhead y hy)
      have hnone : ((pairs l).countP fun p => winner ancestor p = some c) = 0 := by
        rw [countP_eq_zero]
        rintro ⟨a, b⟩ hp hwin
        rcases mem_of_winner (of_decide_eq_true hwin) with rfl | rfl
        · exact hx (mem_pairs hp).1
        · exact hx (mem_pairs hp).2
      rw [hthose, hnone, if_neg (by simp), Nat.add_zero]
    · have ih := countP_winner htrue hl hrest c hcl
      have hone : l.countP ((fun p => decide (winner ancestor p = some c)) ∘ (x, ·)) = if x < c then 1 else 0 := by
        have hcount : l.countP ((fun p => decide (winner ancestor p = some c)) ∘ (x, ·)) =
            l.countP fun y => decide (x < c) && y == c := by
          refine countP_congr fun y hy => ?_
          simp only [Function.comp_apply, decide_eq_true_eq, Bool.and_eq_true, beq_iff_eq]
          constructor
          · intro hwin
            rcases mem_of_winner hwin with rfl | rfl
            · exact absurd hcl hx
            · exact ⟨(winner_eq_right htrue (hne _ hy) (hhead _ hy)).1 hwin, rfl⟩
          · rintro ⟨hlt, rfl⟩
            exact (winner_eq_right htrue (hne _ hy) (hhead _ hy)).2 hlt
        rw [hcount]
        by_cases hlt : x < c
        · simp only [hlt, decide_true, Bool.true_and, if_true]
          exact count_eq_one_of_mem hl hcl
        · simp [hlt]
      rw [hone, ih, Nat.add_comm]
      simp

end Settled

/-! ## The order -/

section Order

variable {base tip : CommitId} {pins : List CommitId} {ancestor : CommitId → CommitId → Except GitProblem Bool}
variable {distance : CommitId → CommitId → Except GitProblem Nat}

variable {c a b : CommitId} {l : List CommitId}

theorem mem_distinctCommits : c ∈ distinctCommits base pins ↔ c ∈ base :: pins := by
  rw [distinctCommits, ExtTreeSet.mem_toList, ExtTreeSet.mem_ofList, contains_iff_mem, mem_append,
    mem_singleton, mem_cons, or_comm]

theorem nodup_distinctCommits : (distinctCommits base pins).Nodup := ExtTreeSet.nodup_toList

theorem mem_fixturesAt {i : Nat} : i ∈ fixturesAt pins c ↔ pins[i]? = some c := by
  rw [fixturesAt, mem_map]
  constructor
  · rintro ⟨⟨pin, j⟩, hmem, rfl⟩
    rw [mem_filter, decide_eq_true_eq] at hmem
    rw [← hmem.2]
    exact mk_mem_zipIdx_iff_getElem?.1 hmem.1
  · intro h
    exact ⟨(c, i), mem_filter.2 ⟨mk_mem_zipIdx_iff_getElem?.2 h, decide_eq_true rfl⟩, rfl⟩

theorem nodup_fixturesAt : (fixturesAt pins c).Nodup := by
  have hindices : (pins.zipIdx.map (·.2)).Nodup := by
    rw [zipIdx_map_snd]
    exact nodup_range'
  exact hindices.sublist (filter_sublist.map _)

/-- Every two of the commits are answered comparable, in one direction at least. -/
def Comparable (ancestor : CommitId → CommitId → Except GitProblem Bool) (base : CommitId) (pins : List CommitId) : Prop :=
  ∀ a ∈ base :: pins, ∀ b ∈ base :: pins, a ≠ b → ancestor a b = .ok true ∨ ancestor b a = .ok true

theorem askAll_comparable : (askAll ancestor base pins tip).comparable = true ↔ Comparable ancestor base pins := by
  rw [askAll, (askPairs_spec _ _).2.1, pairs_settled nodup_distinctCommits]
  simp only [askTip_spec.2.1, true_and, Comparable, ← mem_distinctCommits]

theorem askAll_problems (h : Comparable ancestor base pins) :
    (askAll ancestor base pins tip).problems = [] ↔ ancestor base tip = .ok true := by
  have hsettled : (askAll ancestor base pins tip).comparable = true := askAll_comparable.2 h
  rw [askAll, (askPairs_spec _ _).2.1] at hsettled
  rw [askAll, (askPairs_spec _ _).2.2 hsettled.2, askTip_spec.2.2]

variable [PartialOrder CommitId]

section

variable (htrue : Truthful ancestor) (h : Comparable ancestor base pins)
include htrue h

theorem Comparable.total (ha : a ∈ base :: pins) (hb : b ∈ base :: pins) (hne : a ≠ b) : a < b ∨ b < a := by
  rcases h a ha b hb hne with hab | hba
  · exact .inl (lt_of_le_of_ne ((htrue _ _ _ hab).1 rfl) hne)
  · exact .inr (lt_of_le_of_ne ((htrue _ _ _ hba).1 rfl) hne.symm)

theorem behind_lt_iff (ha : a ∈ base :: pins) (hb : b ∈ base :: pins) :
    (askAll ancestor base pins tip).behind a < (askAll ancestor base pins tip).behind b ↔ a < b := by
  classical
  have hsettled : (askAll ancestor base pins tip).comparable = true := askAll_comparable.2 h
  rw [askAll, (askPairs_spec _ _).2.1] at hsettled
  have hcount : ∀ c ∈ base :: pins, (askAll ancestor base pins tip).behind c = (distinctCommits base pins).countP (· < c) := by
    intro c hc
    rw [askAll, (askPairs_spec _ _).1, askTip_spec.1, Nat.zero_add]
    exact countP_winner htrue nodup_distinctCommits hsettled.2 c (mem_distinctCommits.2 hc)
  have hlt : ∀ {a b}, a ∈ base :: pins → a < b →
      (distinctCommits base pins).countP (· < a) < (distinctCommits base pins).countP (· < b) := fun ha hab =>
    countP_lt_countP nodup_distinctCommits (mem_distinctCommits.2 ha) hab
  rw [hcount a ha, hcount b hb]
  refine ⟨fun hcounts => ?_, hlt ha⟩
  by_contra hnot
  by_cases hne : a = b
  · rw [hne] at hcounts
    exact Nat.lt_irrefl _ hcounts
  · have hba := ((h.total htrue ha hb hne).resolve_left hnot)
    exact Nat.lt_asymm hcounts (hlt hb hba)

theorem ascending_ordered : (ordered (askAll ancestor base pins tip) base pins).Pairwise (· < ·) := by
  have hnodup : (ordered (askAll ancestor base pins tip) base pins).Nodup :=
    (sortOn_perm _ _).nodup_iff.2 nodup_distinctCommits
  refine ((pairwise_sortOn _ _).and hnodup).imp_of_mem fun {a b} ha hb hab => ?_
  have ha' := mem_distinctCommits.1 (mem_sortOn.1 ha)
  have hb' := mem_distinctCommits.1 (mem_sortOn.1 hb)
  refine (h.total htrue ha' hb' hab.2).resolve_right fun hba => ?_
  exact absurd ((behind_lt_iff htrue h hb' ha').2 hba) (Nat.not_lt.2 hab.1)

end

omit [PartialOrder CommitId] in
theorem mem_ordered {asked : Asked} : c ∈ ordered asked base pins ↔ c ∈ base :: pins := by
  rw [ordered, mem_sortOn, mem_distinctCommits]

theorem lateOf_eq_nil (htrue : Truthful ancestor) (h : Comparable ancestor base pins) :
    lateOf (askAll ancestor base pins tip) base (ordered (askAll ancestor base pins tip) base pins) = [] ↔
      ∀ pin ∈ pins, pin ≤ base := by
  have hbase : base ∈ base :: pins := mem_cons_self
  simp only [lateOf, map_eq_nil_iff, filter_eq_nil_iff, mem_ordered, decide_eq_true_eq, not_and]
  constructor
  · intro hnone pin hpin
    have hmem := mem_cons_of_mem base hpin
    by_cases hne : pin = base
    · exact hne.le
    · have hnot := hnone pin hmem hne
      rw [behind_lt_iff htrue h hbase hmem] at hnot
      exact ((h.total htrue hmem hbase hne).resolve_right hnot).le
  · intro hnewest c hc hne
    rw [behind_lt_iff htrue h hbase hc]
    exact not_lt_of_ge (hnewest c ((mem_cons.1 hc).resolve_left hne))

omit [PartialOrder CommitId] in
theorem failure_hop {pair : PinGroup × PinGroup} :
    failure (hop distance pair) = none ↔ ∃ d, distance pair.1.commit pair.2.commit = .ok d := by
  rw [hop]
  cases distance pair.1.commit pair.2.commit <;> simp [failure]

theorem hopsOf_eq_nil (hascending : l.Pairwise (· < ·)) : (hopsOf distance (groupsOf pins l)).filterMap failure = [] ↔
      ∀ a ∈ l, ∀ b ∈ l, a < b → (∀ c ∈ l, ¬ (a < c ∧ c < b)) → ∃ d, distance a b = .ok d := by
  rw [hopsOf, groupsOf, ← map_tail, zip_map, map_map, filterMap_eq_nil_iff]
  simp only [forall_mem_map, Function.comp_apply, failure_hop, Prod.forall, Prod.map_fst, Prod.map_snd,
    mem_zip_tail hascending]
  constructor
  · exact fun h a ha b hb hab hnone => h a b ⟨ha, hb, hab, hnone⟩
  · exact fun h a b ⟨ha, hb, hab, hnone⟩ => h a ha b hb hab hnone

/-- What the order needs: the base behind the tip and the newest of the commits, and these answered as a chain. -/
structure Needs (base : CommitId) (pins : List CommitId) (tip : CommitId)
    (ancestor : CommitId → CommitId → Except GitProblem Bool) (distance : CommitId → CommitId → Except GitProblem Nat) :
    Prop where
  behindTip : ancestor base tip = .ok true
  comparable : Comparable ancestor base pins
  newest : ∀ pin ∈ pins, pin ≤ base
  distances : ∀ a ∈ base :: pins, ∀ b ∈ base :: pins, a < b → (∀ c ∈ base :: pins, ¬ (a < c ∧ c < b)) →
    ∃ d, distance a b = .ok d

theorem order_eq_ok (htrue : Truthful ancestor) {chain : ReplayChain} :
    order base pins tip ancestor distance = .ok chain ↔ Needs base pins tip ancestor distance ∧
      chain = ⟨groupsOf pins (ordered (askAll ancestor base pins tip) base pins),
        (hopsOf distance (groupsOf pins (ordered (askAll ancestor base pins tip) base pins))).filterMap Except.toOption⟩ := by
  rw [order]
  dsimp only
  by_cases hcomparable : Comparable ancestor base pins
  · have hascending : (ordered (askAll ancestor base pins tip) base pins).Pairwise (· < ·) := ascending_ordered htrue hcomparable
    rw [askAll_comparable.2 hcomparable, Bool.not_true, if_neg Bool.false_ne_true]
    split
    · next hempty =>
      rw [List.isEmpty_iff, append_eq_nil_iff, append_eq_nil_iff, askAll_problems hcomparable,
        lateOf_eq_nil htrue hcomparable, hopsOf_eq_nil hascending] at hempty
      simp only [mem_ordered] at hempty
      obtain ⟨⟨htip, hnewest⟩, hdistances⟩ := hempty
      rw [Except.ok.injEq, eq_comm]
      exact ⟨fun heq => ⟨⟨htip, hcomparable, hnewest, hdistances⟩, heq⟩, And.right⟩
    · next hempty =>
      rw [List.isEmpty_iff, append_eq_nil_iff, append_eq_nil_iff, askAll_problems hcomparable,
        lateOf_eq_nil htrue hcomparable, hopsOf_eq_nil hascending] at hempty
      simp only [mem_ordered] at hempty
      exact ⟨nofun, fun h => absurd ⟨⟨h.1.behindTip, h.1.newest⟩, h.1.distances⟩ hempty⟩
  · have hfalse : (askAll ancestor base pins tip).comparable = false :=
      Bool.eq_false_iff.2 fun h => hcomparable (askAll_comparable.1 h)
    rw [hfalse, Bool.not_false, if_pos rfl]
    exact ⟨nofun, fun h => absurd h.1.comparable hcomparable⟩

theorem getLast?_of_newest (hascending : l.Pairwise (· < ·)) (hmem : base ∈ l) (hnewest : ∀ c ∈ l, c ≤ base) :
    l.getLast? = some base := by
  obtain ⟨front, back, rfl⟩ := append_of_mem hmem
  cases back with
  | nil => exact List.getLast?_concat
  | cons c back =>
    have hlt : base < c := rel_of_pairwise_cons (pairwise_append.1 hascending).2.1 mem_cons_self
    exact absurd (hnewest c (by simp)) (not_le_of_gt hlt)

/-- `order` gives a chain exactly when what the order needs was answered, and the chain is then the commits oldest first. -/
theorem order_spec (base : CommitId) (pins : List CommitId) (tip : CommitId)
    (ancestor : CommitId → CommitId → Except GitProblem Bool) (distance : CommitId → CommitId → Except GitProblem Nat)
    (htrue : Truthful ancestor) : ((∃ chain, order base pins tip ancestor distance = .ok chain) ↔ ancestor base tip = .ok true ∧
        (∀ a ∈ base :: pins, ∀ b ∈ base :: pins, a ≠ b → ancestor a b = .ok true ∨ ancestor b a = .ok true) ∧
        (∀ pin ∈ pins, pin ≤ base) ∧
        ∀ a ∈ base :: pins, ∀ b ∈ base :: pins, a < b → (∀ c ∈ base :: pins, ¬ (a < c ∧ c < b)) → ∃ d, distance a b = .ok d) ∧
    ∀ chain, order base pins tip ancestor distance = .ok chain →
      (∀ c, c ∈ chain.groups.map PinGroup.commit ↔ c ∈ base :: pins) ∧
      (chain.groups.map PinGroup.commit).Pairwise (· < ·) ∧ (chain.groups.map PinGroup.commit).getLast? = some base ∧
      (∀ i pin, pins[i]? = some pin → ∃! group, group ∈ chain.groups ∧ i ∈ group.fixtures) ∧
      ∀ group ∈ chain.groups, group.fixtures.Nodup ∧ ∀ i ∈ group.fixtures, pins[i]? = some group.commit := by
  constructor
  · constructor
    · rintro ⟨chain, hchain⟩
      obtain ⟨hneeds, -⟩ := (order_eq_ok htrue).1 hchain
      exact ⟨hneeds.behindTip, hneeds.comparable, hneeds.newest, hneeds.distances⟩
    · rintro ⟨htip, hcomparable, hnewest, hdistances⟩
      exact ⟨_, (order_eq_ok htrue).2 ⟨⟨htip, hcomparable, hnewest, hdistances⟩, rfl⟩⟩
  · rintro chain hchain
    obtain ⟨hneeds, rfl⟩ := (order_eq_ok htrue).1 hchain
    have hascending : (ordered (askAll ancestor base pins tip) base pins).Pairwise (· < ·) :=
      ascending_ordered htrue hneeds.comparable
    have hcommits : (groupsOf pins (ordered (askAll ancestor base pins tip) base pins)).map PinGroup.commit =
        ordered (askAll ancestor base pins tip) base pins := by
      rw [groupsOf, map_map]
      exact map_id _
    dsimp only
    rw [hcommits]
    refine ⟨fun c => mem_ordered, hascending, ?_, fun i pin hpin => ?_, ?_⟩
    · refine getLast?_of_newest hascending (mem_ordered.2 mem_cons_self) fun c hc => ?_
      rcases mem_cons.1 (mem_ordered.1 hc) with rfl | hpin
      · exact le_rfl
      · exact hneeds.newest c hpin
    · refine ⟨⟨pin, fixturesAt pins pin⟩, ⟨mem_map.2 ⟨pin, ?_, rfl⟩, mem_fixturesAt.2 hpin⟩, ?_⟩
      · exact mem_ordered.2 (mem_cons_of_mem _ (mem_of_getElem? hpin))
      · rintro group ⟨hgroup, hi⟩
        obtain ⟨c, -, rfl⟩ := mem_map.1 hgroup
        have hc := mem_fixturesAt.1 hi
        rw [hpin, Option.some.injEq] at hc
        rw [hc]
    · intro group hgroup
      obtain ⟨c, -, rfl⟩ := mem_map.1 hgroup
      exact ⟨nodup_fixturesAt, fun i hi => mem_fixturesAt.1 hi⟩

end Order

abbrev textHistory : PartialOrder CommitId := PartialOrder.lift CommitId.text fun a b h => by
  cases a; cases b; exact congrArg CommitId.mk h

/-- Git proves ancestry in a shallow clone, where it cannot tell that a commit is no ancestor. -/
def shallowAnswer (a b : CommitId) : Except GitProblem Bool := if a.text ≤ b.text then .ok true else .error .incomplete

theorem order_spec_shallow : ∃ chain, order ⟨"c"⟩ [⟨"b"⟩, ⟨"a"⟩, ⟨"b"⟩] ⟨"d"⟩ shallowAnswer (fun _ _ => .ok 1) = .ok chain ∧
    (chain.groups.map PinGroup.commit).getLast? = some ⟨"c"⟩ := by
  have htrue : @Truthful textHistory shallowAnswer := by
    intro a b answer h
    rw [shallowAnswer] at h
    split at h
    · next hle =>
      cases h
      exact ⟨fun _ => hle, fun _ => rfl⟩
    · cases h
  have hnewest : ∀ pin ∈ [CommitId.mk "b", ⟨"a"⟩, ⟨"b"⟩], pin.text ≤ "c" := by decide
  obtain ⟨hok, hchain⟩ := @order_spec textHistory ⟨"c"⟩ [⟨"b"⟩, ⟨"a"⟩, ⟨"b"⟩] ⟨"d"⟩ shallowAnswer (fun _ _ => .ok 1) htrue
  obtain ⟨chain, h⟩ := hok.2 ⟨by decide, by decide, hnewest, fun _ _ _ _ _ _ => ⟨1, rfl⟩⟩
  exact ⟨chain, h, (hchain chain h).2.2.1⟩

end Pbps.PlanTest
