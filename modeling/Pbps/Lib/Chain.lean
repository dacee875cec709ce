/-
Ways through a relation: chains, where each vertex leads on to one other at most, trails, where one edge at most leads in, and the
components of points that lead to one another.
-/
import Mathlib.Data.List.Perm.Subperm
import Pbps.Lib.Map
import Mathlib.Order.Basic

/-! Chains: each vertex leads on to one other at most. A chain that ends passes no vertex twice, and one that is followed with
the vertices passed in hand either ends or comes to one of them again. -/

namespace Chain

open Std (ExtTreeSet TransOrd LawfulEqOrd)
open Relation (TransGen ReflTransGen)
open Std.ExtTreeSet

variable {α : Type} {r : α → α → Prop} {v w c e e' : α}

def Ends (r : α → α → Prop) (v e : α) : Prop := ReflTransGen r v e ∧ ∀ b, ¬ r e b

theorem Ends.head (hvw : r v w) (h : Ends r w e) : Ends r v e := ⟨.head hvw h.1, h.2⟩

theorem eq_of_no_next (hlast : ∀ b, ¬ r e b) (h : ReflTransGen r e c) : c = e := by
  rcases ReflTransGen.cases_head h with heq | ⟨b, hb, -⟩
  · exact heq.symm
  · exact absurd hb (hlast b)

section

variable (hr : Relator.RightUnique r) (h : Ends r v e)
include hr h

theorem Ends.of_mid (hc : ReflTransGen r v c) : Ends r c e := by
  refine ⟨?_, h.2⟩
  rcases ReflTransGen.total_of_right_unique hr h.1 hc with hec | hce
  · exact eq_of_no_next h.2 hec ▸ .refl
  · exact hce

theorem Ends.unique (h' : Ends r v e') : e = e' :=
  eq_of_no_next h'.2 (h.of_mid hr h'.1).1

theorem Ends.acyclic (hc : ReflTransGen r v c) : ¬ TransGen r c c := by
  intro hcycle
  -- the end leads to itself as what is passed does, step by step
  have hturn : ∀ {a}, ReflTransGen r c a → TransGen r a a := by
    intro a ha
    induction ha with
    | refl => exact hcycle
    | @tail a b _ hab ih =>
      obtain ⟨b', hab', hb'⟩ := TransGen.head'_iff.1 ih
      obtain rfl := hr hab hab'
      exact TransGen.tail' hb' hab
  obtain ⟨b, hb, -⟩ := TransGen.head'_iff.1 (hturn (h.of_mid hr hc).1)
  exact h.2 b hb

end

/-! ## The vertices passed -/

variable [Ord α] [TransOrd α] {seen : ExtTreeSet α} {vertices : List α}

/-- Each vertex passed leads to the one at hand. -/
structure Passed (r : α → α → Prop) (vertices : List α) (seen : ExtTreeSet α) (v : α) : Prop where
  leads : ∀ s ∈ seen, TransGen r s v
  vertex : ∀ s ∈ seen, s ∈ vertices

theorem passed_start : Passed r vertices ∅ v :=
  ⟨fun _ hs => absurd hs not_mem_empty, fun _ hs => absurd hs not_mem_empty⟩

theorem Passed.cycle (h : Passed r vertices seen v) (hv : seen.contains v = true) : TransGen r v v :=
  h.leads v (ExtTreeSet.contains_iff_mem.1 hv)

theorem size_insert_of_new (h : ¬ seen.contains v = true) : (seen.insert v).size = seen.size + 1 := by
  rw [size_insert, if_neg h]

variable [LawfulEqOrd α]

theorem Passed.next (h : Passed r vertices seen v) (hv : v ∈ vertices) (hvw : r v w) : Passed r vertices (seen.insert v) w := by
  refine ⟨fun s hs => ?_, fun s hs => ?_⟩ <;> rcases mem_insert.1 hs with heq | hs
  · exact Std.LawfulEqOrd.eq_of_compare heq ▸ .single hvw
  · exact (h.leads s hs).tail hvw
  · exact Std.LawfulEqOrd.eq_of_compare heq ▸ hv
  · exact h.vertex s hs

theorem Passed.size_le (h : Passed r vertices seen v) : seen.size ≤ vertices.length := by
  rw [← length_toList]
  exact (List.subperm_of_subset nodup_toList fun s hs => h.vertex s (mem_toList.1 hs)).length_le

end Chain

/-! Trails: where a vertex has at most one edge in and the first has none, a trail passes no vertex twice, and so is no
longer than the vertices that edges leave. -/

namespace Trail

open Relation (ReflTransGen)
open List

variable {V : Type} {r : V → V → Prop}

/-- A vertex is so many edges from another. -/
inductive Steps (r : V → V → Prop) (a : V) : ℕ → V → Prop
  | here : Steps r a 0 a
  | next {b c n} (h : Steps r a n b) (hbc : r b c) : Steps r a (n + 1) c

theorem exists_steps {a b : V} (h : ReflTransGen r a b) : ∃ n, Steps r a n b := by
  induction h with
  | refl => exact ⟨0, .here⟩
  | tail _ hbc ih =>
    obtain ⟨n, hn⟩ := ih
    exact ⟨n + 1, hn.next hbc⟩

theorem Steps.cases_head {a c : V} {n : ℕ} (h : Steps r a (n + 1) c) : ∃ b, r a b ∧ Steps r b n c := by
  induction n generalizing c with
  | zero =>
    cases h with
    | next h hbc =>
      cases h
      exact ⟨c, hbc, .here⟩
  | succ n ih =>
    cases h with
    | next h hbc =>
      obtain ⟨b, hab, hb⟩ := ih h
      exact ⟨b, hab, hb.next hbc⟩

section Unique

variable {a : V} (hpred : ∀ b b' c, r b c → r b' c → b = b') (hfirst : ∀ b, ¬ r b a)
include hpred hfirst

theorem Steps.unique {b : V} {n m : ℕ} (h : Steps r a n b) (h' : Steps r a m b) : n = m := by
  induction h generalizing m with
  | here =>
    cases h' with
    | here => rfl
    | next _ hbc => exact absurd hbc (hfirst _)
  | next _ hbc ih =>
    cases h' with
    | here => exact absurd hbc (hfirst _)
    | next h' hbc' =>
      obtain rfl := hpred _ _ _ hbc hbc'
      rw [ih h']

theorem Steps.lt_length {b : V} {n : ℕ} (h : Steps r a n b) {keys : List V} (hkeys : ∀ b c, r b c → b ∈ keys)
    (hb : b ∈ keys) : n < keys.length := by
  have hpassed : ∃ passed : List V, passed.length = n + 1 ∧ passed.Nodup ∧ passed ⊆ keys ∧
      ∀ x ∈ passed, ∃ i ≤ n, Steps r a i x := by
    induction h with
    | here => exact ⟨[_], rfl, nodup_singleton _, by simpa using hb, by simpa using .here⟩
    | @next b c n h hbc ih =>
      obtain ⟨passed, hlen, hnodup, hsub, hsteps⟩ := ih (hkeys _ _ hbc)
      refine ⟨c :: passed, by rw [length_cons, hlen], nodup_cons.2 ⟨fun hc => ?_, hnodup⟩,
        cons_subset.2 ⟨hb, hsub⟩, ?_⟩
      · obtain ⟨i, hi, hci⟩ := hsteps c hc
        have := hci.unique hpred hfirst (h.next hbc)
        omega
      · intro x hx
        rcases mem_cons.1 hx with rfl | hx
        · exact ⟨n + 1, Nat.le_refl _, h.next hbc⟩
        · obtain ⟨i, hi, hxi⟩ := hsteps x hx
          exact ⟨i, by omega, hxi⟩
  obtain ⟨passed, hlen, hnodup, hsub, -⟩ := hpassed
  have := (subperm_of_subset hnodup hsub).length_le
  omega

end Unique

end Trail

/-! Strongly connected components of a relation: the points that lead to one another. A component is connected
by what is related inside it, and a relation that follows another and ascends inside its components has no
cycle. -/

namespace Component

open Relation (ReflTransGen TransGen)
open List

variable {α : Type*} {r s : α → α → Prop} {x y z : α}

def Same (r : α → α → Prop) (x y : α) : Prop := ReflTransGen r x y ∧ ReflTransGen r y x

namespace Same

theorem refl (r : α → α → Prop) (x : α) : Same r x x := ⟨.refl, .refl⟩

theorem symm (h : Same r x y) : Same r y x := ⟨h.2, h.1⟩

theorem trans (h : Same r x y) (h' : Same r y z) : Same r x z := ⟨h.1.trans h'.1, h'.2.trans h.2⟩

theorem mono (hrs : ∀ a b, r a b → s a b) (h : Same r x y) : Same s x y := ⟨ReflTransGen.mono hrs _ _ h.1, ReflTransGen.mono hrs _ _ h.2⟩

theorem of_between (h : Same r x y) (hxz : ReflTransGen r x z) (hzy : ReflTransGen r z y) : Same r x z :=
  ⟨hxz, hzy.trans h.2⟩

section

variable (hrs : ∀ a b, r a b → Same r x a → Same r x b → s a b)
include hrs

theorem leads_inside (hxy : ReflTransGen r x y) (hyx : Same r x y) : ReflTransGen s x y := by
  induction hxy with
  | refl => exact .refl
  | @tail b c hxb hbc ih =>
    have hb : Same r x b := hyx.of_between hxb (.single hbc)
    exact (ih hb).tail (hrs b c hbc hb hyx)

theorem of_inside (h : Same r x y) : Same s x y := by
  refine ⟨leads_inside hrs h.1 h, leads_inside (fun a b hab ha hb => ?_) h.2 h.symm⟩
  exact hrs a b hab (h.trans ha) (h.trans hb)

end

theorem cycle (h : Same r x y) (hne : x ≠ y) : TransGen r x x := by
  rcases Relation.reflTransGen_iff_eq_or_transGen.1 h.1 with heq | hxy
  · exact absurd heq.symm hne
  · exact Relation.TransGen.trans_left hxy h.2

end Same

/-- A relation that follows another, and ascends inside its components, has no cycle. -/
theorem acyclic_of_ascends [Preorder α] {o : α → α → Prop} (hleads : ∀ a b, o a b → ReflTransGen r a b)
    (hup : ∀ a b, o a b → Same r a b → a < b) (v : α) : ¬ TransGen o v v := by
  have hto : ∀ a b, ReflTransGen o a b → ReflTransGen r a b := by
    intro a b hab
    induction hab with
    | refl => exact .refl
    | tail _ hbc ih => exact ih.trans (hleads _ _ hbc)
  -- along a way inside a component every step goes up
  have hlt : ∀ a b, TransGen o a b → ReflTransGen r b a → a < b := by
    intro a b hab
    induction hab with
    | single hab => exact fun hba => hup _ _ hab ⟨hleads _ _ hab, hba⟩
    | @tail b c hab hbc ih =>
      intro hca
      have hbc' : ReflTransGen r b c := hleads _ _ hbc
      have hlast : b < c := hup _ _ hbc ⟨hbc', hca.trans (hto _ _ hab.to_reflTransGen)⟩
      exact (ih (hbc'.trans hca)).trans hlast
  intro hcycle
  exact lt_irrefl v (hlt v v hcycle .refl)

/-- Lists that are the components of the vertices, each once. -/
structure Partition (r : α → α → Prop) (vertex : α → Prop) (found : List (List α)) : Prop where
  ne_nil : ∀ c ∈ found, c ≠ []
  nodup : found.flatten.Nodup
  mem_iff : ∀ v, (∃ c ∈ found, v ∈ c) ↔ vertex v
  same : ∀ c ∈ found, ∀ x ∈ c, ∀ y, y ∈ c ↔ Same r x y

namespace Partition

variable {vertex : α → Prop} {found found' : List (List α)}

theorem of_perm (h : Partition r vertex found) (hperm : found'.Perm found) : Partition r vertex found' where
  ne_nil c hc := h.ne_nil c (hperm.mem_iff.1 hc)
  nodup := hperm.flatten.nodup_iff.2 h.nodup
  mem_iff v := by
    rw [← h.mem_iff]
    simp only [hperm.mem_iff]
  same c hc := h.same c (hperm.mem_iff.1 hc)

theorem of_map {f : List α → List α} (hf : ∀ c, (f c).Perm c) (h : Partition r vertex (found.map f)) :
    Partition r vertex found where
  ne_nil c hc hnil := h.ne_nil (f c) (mem_map_of_mem hc) (by rw [← perm_nil, ← hnil]; exact hf c)
  nodup := by
    have hflat : (found.map f).flatten.Perm found.flatten := by
      rw [← flatMap_def, ← flatMap_id]
      exact List.Perm.flatMap_left _ fun c _ => hf c
    exact hflat.nodup_iff.1 h.nodup
  mem_iff v := by
    rw [← h.mem_iff]
    simp only [mem_map, exists_exists_and_eq_and, (hf _).mem_iff]
  same c hc x hx y := by
    have := h.same (f c) (mem_map_of_mem hc) x ((hf c).mem_iff.2 hx) y
    rwa [(hf c).mem_iff] at this

theorem exists_perm (h : Partition r vertex found) (h' : Partition r vertex found') {c : List α} (hc : c ∈ found) :
    ∃ d ∈ found', c.Perm d := by
  obtain ⟨x, hx⟩ := exists_mem_of_ne_nil c (h.ne_nil c hc)
  obtain ⟨d, hd, hxd⟩ := (h'.mem_iff x).2 ((h.mem_iff x).1 ⟨c, hc, hx⟩)
  refine ⟨d, hd, (perm_ext_iff_of_nodup ?_ ?_).2 fun y => (h.same c hc x hx y).trans (h'.same d hd x hxd y).symm⟩
  · exact (nodup_flatten.1 h.nodup).1 c hc
  · exact (nodup_flatten.1 h'.nodup).1 d hd

end Partition

end Component
