/-
Kahn's algorithm in rounds: each round puts out, in the order given, everything that no longer waits. What it leaves is what
a cycle keeps waiting.
-/
import Pbps.Lib.Lists
import Mathlib.Data.Fintype.Order
import Mathlib.Data.Set.Finite.List

namespace Rounds

open Relation (ReflTransGen TransGen)
open List

/-- Where each point of a finite set leads to another, every point leads to a cycle. -/
theorem exists_cycle {α : Type*} {r : α → α → Prop} {s : Set α} (hfinite : s.Finite) (hnext : ∀ a ∈ s, ∃ b ∈ s, r a b) {a : α}
    (ha : a ∈ s) : ∃ c ∈ s, ReflTransGen r a c ∧ TransGen r c c := by
  by_contra hno
  push Not at hno
  -- without a cycle one of the points led to is least, and it leads on
  let ahead : {c // c ∈ s ∧ ReflTransGen r a c} → {c // c ∈ s ∧ ReflTransGen r a c} → Prop := fun b c => TransGen r c.1 b.1
  have hsub : Finite {c // c ∈ s ∧ ReflTransGen r a c} := (hfinite.subset fun _ hc => hc.1).to_subtype
  have htrans : IsTrans _ ahead := ⟨fun b c d hbc hcd => hcd.trans hbc⟩
  have hirrefl : Std.Irrefl ahead := ⟨fun c hc => hno c.1 c.2.1 c.2.2 hc⟩
  have hwf : WellFounded ahead := Finite.wellFounded_of_trans_of_irrefl ahead
  obtain ⟨c, -, hmin⟩ := hwf.has_min Set.univ ⟨⟨a, ha, .refl⟩, trivial⟩
  obtain ⟨b, hb, hcb⟩ := hnext c.1 c.2.1
  exact hmin ⟨b, hb, c.2.2.tail hcb⟩ trivial (.single hcb)

variable {α : Type} [DecidableEq α]

/-! ## The algorithm -/

def ready (names : List α) (free : List α → α → Bool) (done : List α) : List α :=
  names.filter fun n => ! done.contains n && free done n

/-- Rounds until nothing is ready, `fuel` at most. -/
def rounds (names : List α) (free : List α → α → Bool) : Nat → List α → List α
  | 0, done => done
  | fuel + 1, done =>
    if (ready names free done).isEmpty then done else rounds names free fuel (done ++ ready names free done)

def run (names : List α) (free : List α → α → Bool) : List α := rounds names free (names.length + 1) []

/-! ## What is put out -/

def Within (names : List α) (waits : α → α → Prop) (u v : α) : Prop := u ∈ names ∧ v ∈ names ∧ waits u v

def Stuck (names : List α) (waits : α → α → Prop) (m : α) : Prop :=
  m ∈ names ∧ ∃ c, ReflTransGen (Within names waits) m c ∧ TransGen (Within names waits) c c

def Frees (names : List α) (waits : α → α → Prop) (free : List α → α → Bool) : Prop :=
  ∀ done n, free done n = true ↔ ∀ d ∈ names, waits n d → d ∈ done

/-- What has been put out comes after all it waits for. -/
structure Inv (names : List α) (waits : α → α → Prop) (done : List α) : Prop where
  nodup : done.Nodup
  mem : ∀ m ∈ done, m ∈ names
  after : ∀ m ∈ done, ∀ d ∈ names, waits m d → d ∈ done ∧ done.idxOf d < done.idxOf m

variable {names : List α} {waits : α → α → Prop} {free : List α → α → Bool} {done : List α}

theorem mem_ready (hfree : Frees names waits free) {n : α} :
    n ∈ ready names free done ↔ n ∈ names ∧ n ∉ done ∧ ∀ d ∈ names, waits n d → d ∈ done := by
  rw [ready, mem_filter, Bool.and_eq_true, hfree, Bool.not_eq_true', contains_eq_mem, decide_eq_false_iff_not]

theorem inv_nil : Inv names waits [] where
  nodup := nodup_nil
  mem _ hm := absurd hm not_mem_nil
  after _ hm := absurd hm not_mem_nil

theorem inv_ready (hnames : names.Nodup) (hfree : Frees names waits free) (h : Inv names waits done) :
    Inv names waits (done ++ ready names free done) where
  nodup := by
    refine nodup_append.2 ⟨h.nodup, hnames.filter _, ?_⟩
    rintro m hm n hn rfl
    exact ((mem_ready hfree).1 hn).2.1 hm
  mem m hm := by
    rcases mem_append.1 hm with hm | hm
    · exact h.mem m hm
    · exact ((mem_ready hfree).1 hm).1
  after m hm d hd hwaits := by
    by_cases hdone : m ∈ done
    · obtain ⟨hmem, hlt⟩ := h.after m hdone d hd hwaits
      exact ⟨mem_append_left _ hmem, (Position.idxOf_append_lt_left hmem hdone).2 hlt⟩
    · have hready := (mem_ready hfree).1 ((mem_append.1 hm).resolve_left hdone)
      have hmem := hready.2.2 d hd hwaits
      exact ⟨mem_append_left _ hmem, Position.idxOf_append_lt hmem hdone⟩

theorem rounds_inv (hnames : names.Nodup) (hfree : Frees names waits free) : ∀ (fuel : Nat) (done : List α),
    Inv names waits done → names.length < done.length + fuel →
      Inv names waits (rounds names free fuel done) ∧ ready names free (rounds names free fuel done) = []
  | 0, done, h, hfuel => by
    have hle := (subperm_of_subset h.nodup h.mem).length_le
    omega
  | fuel + 1, done, h, hfuel => by
    rw [rounds]
    split
    case isTrue hempty => exact ⟨h, List.isEmpty_iff.1 hempty⟩
    case isFalse hsome =>
      have hpos := length_pos_of_ne_nil fun hnil => hsome (List.isEmpty_iff.2 hnil)
      refine rounds_inv hnames hfree fuel _ (inv_ready hnames hfree h) ?_
      rw [length_append]
      omega

theorem run_inv (hnames : names.Nodup) (hfree : Frees names waits free) : Inv names waits (run names free) :=
  (rounds_inv hnames hfree _ _ inv_nil (by rw [length_nil]; omega)).1

theorem exists_waits (hnames : names.Nodup) (hfree : Frees names waits free) {m : α} (hm : m ∈ names)
    (hnot : m ∉ run names free) : ∃ d ∈ names, waits m d ∧ d ∉ run names free := by
  have hempty := (rounds_inv hnames hfree (names.length + 1) [] inv_nil (by rw [length_nil]; omega)).2
  by_contra hno
  push Not at hno
  have hready := (mem_ready hfree).2 ⟨hm, hnot, hno⟩
  rw [run, hempty] at hready
  cases hready

theorem Inv.of_path (h : Inv names waits done) {m d : α} (hm : m ∈ done) (hpath : TransGen (Within names waits) m d) :
    d ∈ done ∧ done.idxOf d < done.idxOf m := by
  induction hpath with
  | single hd => exact h.after m hm _ hd.2.1 hd.2.2
  | tail _ hd ih =>
    obtain ⟨hmem, hlt⟩ := h.after _ ih.1 _ hd.2.1 hd.2.2
    exact ⟨hmem, Nat.lt_trans hlt ih.2⟩

variable (hnames : names.Nodup) (hfree : Frees names waits free)
include hnames hfree

theorem mem_run {m : α} : m ∈ run names free ↔ m ∈ names ∧ ¬ Stuck names waits m := by
  have hinv := run_inv hnames hfree
  constructor
  · intro hm
    refine ⟨hinv.mem m hm, ?_⟩
    rintro ⟨-, c, hreach, hcycle⟩
    have hc : c ∈ run names free := by
      rcases Relation.reflTransGen_iff_eq_or_transGen.1 hreach with heq | hpath
      · exact heq ▸ hm
      · exact (hinv.of_path hm hpath).1
    exact Nat.lt_irrefl _ (hinv.of_path hc hcycle).2
  · rintro ⟨hm, hstuck⟩
    by_contra hnot
    have hfinite : {n | n ∈ names ∧ n ∉ run names free}.Finite := (finite_toSet names).subset fun _ hn => hn.1
    have hnext : ∀ u ∈ {n | n ∈ names ∧ n ∉ run names free}, ∃ v ∈ {n | n ∈ names ∧ n ∉ run names free},
        Within names waits u v := by
      rintro u ⟨hu, hout⟩
      obtain ⟨d, hd, hwaits, hleft⟩ := exists_waits hnames hfree hu hout
      exact ⟨d, ⟨hd, hleft⟩, hu, hd, hwaits⟩
    obtain ⟨c, -, hreach, hcycle⟩ := exists_cycle hfinite hnext (show m ∈ {n | n ∈ names ∧ n ∉ run names free} from ⟨hm, hnot⟩)
    exact hstuck ⟨hm, c, hreach, hcycle⟩

/-- A name that waits for another stands after it, unless both are kept waiting. -/
theorem idxOf_run_lt {m d : α} (hm : m ∈ run names free) (hd : d ∈ names) (hwaits : waits m d) :
    d ∈ run names free ∧ (run names free).idxOf d < (run names free).idxOf m :=
  (run_inv hnames hfree).after m hm d hd hwaits

end Rounds
