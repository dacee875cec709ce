/-
`dependency_cycles` of `module.rs`: every set of declared modules whose `depends_on:` lists close a cycle. They are the
strongly connected components of the declared modules that hold a cycle, each once.
-/
import Mathlib.Algebra.Order.BigOperators.Group.Finset
import Pbps.Lib.Cycles
import Pbps.Lib.Worklist
import Pbps.Modules.Creation

namespace Pbps.Modules

open Std (ExtTreeMap ExtTreeSet)
open Relation (TransGen ReflTransGen)
open Worklist (Search)
open List

/-- A search that had no room left. -/
structure Exhausted where

section

variable (schema : Schema) (deps : ModuleDeps)

def after (id : ModuleId) : List ModuleId := ((deps[id]?).getD ∅).toList.filter fun t => schema.modules.contains t

/-- A module taken up is marked, and what it lists is put on top, its last on top of all. -/
def waiting : Search ModuleId (ExtTreeSet ModuleId) Exhausted where
  seen seen next := seen.contains next
  visit seen next := .ok (seen.insert next, (after schema deps next).reverse)

def room (start : ModuleId) : Nat :=
  (after schema deps start).length + (schema.modules.keys.map fun id => (after schema deps id).length).sum

def waitsFor (start : ModuleId) : Except Exhausted (ExtTreeSet ModuleId) :=
  Worklist.run (waiting schema deps) {} (room schema deps start) ∅ (after schema deps start).reverse

def reach : Except Exhausted (ExtTreeMap ModuleId (ExtTreeSet ModuleId)) := do
  let starts := deps.keys.filter fun id => schema.modules.contains id
  let entries ← starts.mapM fun start => (waitsFor schema deps start).map (start, ·)
  pure (.ofList entries)

def dependencyCycles : Except Exhausted (List (List ModuleId)) := (reach schema deps).map Cycles.collected

end

/-! ## What a module waits for -/

variable {schema : Schema} {deps : ModuleDeps} {u v : ModuleId}

/-- One declared module names another as a dependency. -/
def Lists (schema : Schema) (deps : ModuleDeps) (u v : ModuleId) : Prop :=
  u ∈ schema.modules ∧ v ∈ schema.modules ∧ ∃ on, deps[u]? = some on ∧ v ∈ on

theorem mem_after : v ∈ after schema deps u ↔ v ∈ schema.modules ∧ ∃ on, deps[u]? = some on ∧ v ∈ on := by
  rw [after, mem_filter, ExtTreeSet.mem_toList, ExtTreeMap.contains_iff_mem, and_comm]
  refine and_congr_right fun _ => ?_
  cases deps[u]? with
  | none => simp
  | some on => simp

theorem lists_iff : Lists schema deps u v ↔ u ∈ schema.modules ∧ v ∈ after schema deps u := by
  rw [Lists, mem_after]

theorem transGen_after (hu : u ∈ schema.modules) :
    TransGen (fun a b => b ∈ after schema deps a) u v ↔ TransGen (Lists schema deps) u v := by
  constructor
  · intro h
    induction h with
    | single h => exact .single (lists_iff.2 ⟨hu, h⟩)
    | @tail b c _ hbc ih =>
      have hb : b ∈ schema.modules := by
        obtain ⟨a, -, hab⟩ := TransGen.tail'_iff.1 ih
        exact hab.2.1
      exact ih.tail (lists_iff.2 ⟨hb, hbc⟩)
  · exact TransGen.mono (fun a b h => (lists_iff.1 h).2) u v

theorem reach_after : Worklist.Reach (fun a b => b ∈ after schema deps a) (after schema deps u).reverse v ↔
    TransGen (fun a b => b ∈ after schema deps a) u v := by
  rw [TransGen.head'_iff]
  simp only [Worklist.Reach, mem_reverse]

theorem waiting_lawful (start : ModuleId) : Worklist.Lawful (waiting schema deps) (fun a b => b ∈ after schema deps a)
    (after schema deps start).reverse schema.modules.keys.toFinset fun id => (after schema deps id).length := by
  constructor
  case seen =>
    intro s v s' pushed h u
    cases h
    show (s.insert v).contains u = true ↔ u = v ∨ s.contains u = true
    rw [ExtTreeSet.contains_iff_mem, ExtTreeSet.contains_iff_mem, ExtTreeSet.mem_insert,
      Std.LawfulEqOrd.compare_eq_iff_eq, eq_comm]
  case pushed =>
    intro s v s' pushed h u
    cases h
    exact mem_reverse
  case vertex =>
    intro s v s' pushed hreach _
    rw [mem_toFinset, ExtTreeMap.mem_keys]
    rw [reach_after] at hreach
    obtain ⟨b, -, hb⟩ := TransGen.tail'_iff.1 hreach
    exact (mem_after.1 hb).1
  case length =>
    intro s v s' pushed h
    cases h
    exact (length_reverse).le

theorem waitsFor_eq (hu : u ∈ schema.modules) : ∃ seen, waitsFor schema deps u = .ok seen ∧
    ∀ v, v ∈ seen ↔ TransGen (Lists schema deps) u v := by
  have hstart : Worklist.Inv (waiting schema deps) (fun a b => b ∈ after schema deps a) (after schema deps u).reverse ∅
      (after schema deps u).reverse := Worklist.inv_start fun v => by simp [waiting]
  have hroom : Worklist.left (waiting schema deps) schema.modules.keys.toFinset (fun id => (after schema deps id).length) ∅
      (after schema deps u).reverse ≤ room schema deps u := by
    rw [Worklist.left, room, length_reverse]
    refine Nat.add_le_add_left ?_ _
    rw [← sum_toFinset _ ExtTreeMap.nodup_keys]
    exact Finset.sum_le_sum_of_subset_of_nonneg (Finset.filter_subset _ _) fun _ _ _ => Nat.zero_le _
  rcases Worklist.run_spec (waiting_lawful u) {} (fun _ => True) (fun _ _ _ _ _ _ _ _ => trivial)
    (room schema deps u) ∅ _ trivial hstart hroom with ⟨seen, hrun, -, hseen⟩ | ⟨s, v, e, -, -, -, hvisit⟩
  · refine ⟨seen, hrun, fun v => ?_⟩
    rw [← transGen_after hu, ← reach_after, ← hseen]
    exact ExtTreeSet.contains_iff_mem.symm
  · cases hvisit

def seenFrom (schema : Schema) (deps : ModuleDeps) (start : ModuleId) : ExtTreeSet ModuleId :=
  (waitsFor schema deps start).toOption.getD ∅

theorem waitsFor_eq_seenFrom (hu : u ∈ schema.modules) : waitsFor schema deps u = .ok (seenFrom schema deps u) ∧
    ∀ v, v ∈ seenFrom schema deps u ↔ TransGen (Lists schema deps) u v := by
  obtain ⟨seen, hseen, hmem⟩ := @waitsFor_eq schema deps u hu
  have hfrom : seenFrom schema deps u = seen := by rw [seenFrom, hseen]; rfl
  rw [hfrom]
  exact ⟨hseen, hmem⟩

theorem reach_eq : ∃ m, reach schema deps = .ok m ∧ Cycles.Reaches (Lists schema deps) m := by
  have hstart : ∀ {start}, start ∈ (deps.keys.filter fun id => schema.modules.contains id) ↔
      start ∈ deps ∧ start ∈ schema.modules := by
    intro start
    rw [mem_filter, ExtTreeMap.mem_keys, ExtTreeMap.contains_iff_mem]
  have hentries : (deps.keys.filter fun id => schema.modules.contains id).mapM
      (fun start => (waitsFor schema deps start).map (start, ·)) =
      .ok ((deps.keys.filter fun id => schema.modules.contains id).map fun start => (start, seenFrom schema deps start)) := by
    refine (Except.mapM_eq_ok_map (P := fun _ => True) fun start hmem e => ?_).2 ⟨fun _ _ => trivial, rfl⟩
    rw [(waitsFor_eq_seenFrom (hstart.1 hmem).2).1, true_and, Except.map, Except.ok.injEq, eq_comm]
  refine ⟨_, by rw [reach, hentries]; rfl, fun u v => ?_⟩
  have hnodup : (((deps.keys.filter fun id => schema.modules.contains id).map fun start =>
      (start, seenFrom schema deps start)).map Prod.fst).Nodup := by
    rw [map_map]
    exact (map_id _).symm ▸ ExtTreeMap.nodup_keys.filter _
  simp only [ExtTreeMap.getElem?_ofList_eq_some hnodup, mem_map, Prod.mk.injEq]
  constructor
  · rintro ⟨s, ⟨start, hmem, rfl, rfl⟩, hv⟩
    exact ((waitsFor_eq_seenFrom (hstart.1 hmem).2).2 v).1 hv
  · intro hpath
    obtain ⟨w, hlists, -⟩ := TransGen.head'_iff.1 hpath
    obtain ⟨on, hon, -⟩ := hlists.2.2
    have hmem := hstart.2 ⟨ExtTreeMap.mem_of_getElem?_eq hon, hlists.1⟩
    exact ⟨_, ⟨u, hmem, rfl, rfl⟩, ((waitsFor_eq_seenFrom hlists.1).2 v).2 hpath⟩

/-- The cycles reported are the strongly connected components of the declared modules that hold a cycle, each once and in
the order of the identities. -/
theorem dependencyCycles_exact (schema : Schema) (deps : ModuleDeps) : ∃ cycles, dependencyCycles schema deps = .ok cycles ∧
    cycles.Nodup ∧ ∀ cycle, cycle ∈ cycles ↔ Cycles.IsCycle (Lists schema deps) cycle := by
  obtain ⟨m, hm, hreaches⟩ := @reach_eq schema deps
  refine ⟨Cycles.collected m, ?_, Cycles.mem_collected hreaches⟩
  rw [dependencyCycles, hm]
  rfl

end Pbps.Modules
