/-
The components of a relation that hold a cycle, collected from what each point reaches: a point that reaches itself and was
not placed before brings the points it reaches that reach it.
-/
import Pbps.Lib.Chain
import Mathlib.Data.List.Sort

namespace Cycles

open Std (ExtTreeMap ExtTreeSet TransOrd LawfulEqOrd)
open Relation (TransGen ReflTransGen)
open Component (Same)
open List (mem_append mem_singleton)
open Std.ExtTreeSet

variable {α : Type} [Ord α] [TransOrd α]

structure Collected (α : Type) [Ord α] where
  placed : ExtTreeSet α := ∅
  cycles : List (List α) := []

def together (reach : ExtTreeMap α (ExtTreeSet α)) (id : α) (waits : ExtTreeSet α) : ExtTreeSet α :=
  waits.filter fun other => (reach[other]?).any (·.contains id)

def collect (reach : ExtTreeMap α (ExtTreeSet α)) (c : Collected α) (e : α × ExtTreeSet α) : Collected α :=
  if c.placed.contains e.1 || !e.2.contains e.1 then c
  else
    let cycle := together reach e.1 e.2
    { placed := c.placed.insertMany cycle.toList, cycles := c.cycles ++ [cycle.toList] }

def collected (reach : ExtTreeMap α (ExtTreeSet α)) : List (List α) := (reach.toList.foldl (collect reach) {}).cycles

def Ordered (l : List α) : Prop := l.Pairwise fun a b => compare a b = .lt

variable {c d : List α} {u id : α} {waits : ExtTreeSet α}

theorem Ordered.ext (hc : Ordered c) (hd : Ordered d) (h : ∀ v, v ∈ c ↔ v ∈ d) : c = d := by
  have : Std.Irrefl fun a b : α => compare a b = .lt := ⟨fun a h => by rw [Std.ReflOrd.compare_self] at h; cases h⟩
  have : Std.Antisymm fun a b : α => compare a b = .lt :=
    ⟨fun a b hab hba => by rw [Std.OrientedOrd.eq_swap, hba] at hab; cases hab⟩
  exact List.Pairwise.eq_of_mem_iff hc hd h

/-- A component with a cycle, its points in order. -/
structure IsCycle (r : α → α → Prop) (c : List α) : Prop where
  ordered : Ordered c
  component : ∃ u, TransGen r u u ∧ ∀ v, v ∈ c ↔ Same r u v

omit [TransOrd α] in
theorem IsCycle.same {r : α → α → Prop} (h : IsCycle r c) (hu : u ∈ c) (v : α) : v ∈ c ↔ Same r u v := by
  obtain ⟨w, -, hw⟩ := h.component
  rw [hw]
  exact ⟨((hw u).1 hu).symm.trans, ((hw u).1 hu).trans⟩

variable [LawfulEqOrd α] {r : α → α → Prop} {reach : ExtTreeMap α (ExtTreeSet α)}

omit [LawfulEqOrd α] in
theorem IsCycle.eq_of_mem (hc : IsCycle r c) (hd : IsCycle r d) (huc : u ∈ c) (hud : u ∈ d) : c = d :=
  hc.ordered.ext hd.ordered fun v => (hc.same huc v).trans (hd.same hud v).symm

def Reaches (r : α → α → Prop) (reach : ExtTreeMap α (ExtTreeSet α)) : Prop :=
  ∀ u v, (∃ s, reach[u]? = some s ∧ v ∈ s) ↔ TransGen r u v

theorem mem_together (h : Reaches r reach) (hwaits : reach[id]? = some waits) {v : α} :
    v ∈ (together reach id waits).toList ↔ TransGen r id v ∧ TransGen r v id := by
  rw [mem_toList, together, mem_filter]
  simp only [get_eq, Option.any_eq_true, contains_iff_mem, exists_prop]
  refine and_congr ?_ (h v id)
  rw [← h id v, hwaits]
  simp

theorem isCycle_together (h : Reaches r reach) (hwaits : reach[id]? = some waits) (hid : id ∈ waits) :
    IsCycle r (together reach id waits).toList := by
  have hself : TransGen r id id := (h id id).1 ⟨waits, hwaits, hid⟩
  refine ⟨ordered_toList, id, hself, fun v => ?_⟩
  rw [mem_together h hwaits]
  constructor
  · rintro ⟨h1, h2⟩
    exact ⟨h1.to_reflTransGen, h2.to_reflTransGen⟩
  · rintro ⟨h1, h2⟩
    exact ⟨hself.trans_left h1, TransGen.trans_right h2 hself⟩

/-! ## The loop -/

/-- What was collected is components with a cycle, each once, and every point gone through that is on a cycle is in one. -/
structure Inv (r : α → α → Prop) (done : List α) (c : Collected α) : Prop where
  placed : ∀ v, v ∈ c.placed ↔ ∃ cycle ∈ c.cycles, v ∈ cycle
  cycles : ∀ cycle ∈ c.cycles, IsCycle r cycle
  nodup : c.cycles.Nodup
  covered : ∀ u ∈ done, TransGen r u u → u ∈ c.placed

theorem inv_collect (h : Reaches r reach) {done : List α} {c : Collected α} (hc : Inv r done c) {e : α × ExtTreeSet α}
    (he : reach[e.1]? = some e.2) : Inv r (done ++ [e.1]) (collect reach c e) := by
  have hself : e.1 ∈ e.2 ↔ TransGen r e.1 e.1 := by
    rw [← h e.1 e.1, he]
    simp
  rw [collect]
  split
  case isTrue hskip =>
    refine ⟨hc.placed, hc.cycles, hc.nodup, fun u hu hcycle => ?_⟩
    rcases mem_append.1 hu with hu | hu
    · exact hc.covered u hu hcycle
    · obtain rfl := mem_singleton.1 hu
      rw [Bool.or_eq_true, contains_iff_mem, Bool.not_eq_true', ← Bool.not_eq_true,
        contains_iff_mem] at hskip
      exact hskip.resolve_right fun hnot => hnot (hself.2 hcycle)
  case isFalse hkeep =>
    rw [Bool.or_eq_true, contains_iff_mem, Bool.not_eq_true', ← Bool.not_eq_true, contains_iff_mem,
      not_or, not_not] at hkeep
    obtain ⟨hnew, hmem⟩ := hkeep
    have hcycle := isCycle_together h he hmem
    have hin : e.1 ∈ (together reach e.1 e.2).toList := (mem_together h he).2 ⟨hself.1 hmem, hself.1 hmem⟩
    have hplaced : ∀ v, v ∈ c.placed.insertMany (together reach e.1 e.2).toList ↔
        v ∈ (together reach e.1 e.2).toList ∨ v ∈ c.placed := by
      classical
      intro v
      rw [mem_insertMany_list, List.contains_iff_mem, or_comm]
    constructor
    case placed =>
      intro v
      rw [hplaced, hc.placed]
      constructor
      · rintro (hv | ⟨cycle, hcyc, hv⟩)
        · exact ⟨_, List.mem_append_right _ List.mem_cons_self, hv⟩
        · exact ⟨cycle, List.mem_append_left _ hcyc, hv⟩
      · rintro ⟨cycle, hcyc, hv⟩
        rcases mem_append.1 hcyc with hcyc | hcyc
        · exact .inr ⟨cycle, hcyc, hv⟩
        · rw [mem_singleton.1 hcyc] at hv
          exact .inl hv
    case cycles =>
      intro cycle hcyc
      rcases mem_append.1 hcyc with hcyc | hcyc
      · exact hc.cycles cycle hcyc
      · rw [mem_singleton.1 hcyc]
        exact hcycle
    case nodup =>
      refine List.nodup_append.2 ⟨hc.nodup, List.nodup_singleton _, ?_⟩
      rintro cycle hcyc _ hlast rfl
      rw [mem_singleton.1 hlast] at hcyc
      exact hnew ((hc.placed e.1).2 ⟨_, hcyc, hin⟩)
    case covered =>
      intro u hu hcyc
      rw [hplaced]
      rcases mem_append.1 hu with hu | hu
      · exact .inr (hc.covered u hu hcyc)
      · obtain rfl := mem_singleton.1 hu
        exact .inl hin

theorem inv_foldl (h : Reaches r reach) : ∀ (entries : List (α × ExtTreeSet α)) (done : List α) (c : Collected α),
    (∀ e ∈ entries, reach[e.1]? = some e.2) → Inv r done c →
      Inv r (done ++ entries.map Prod.fst) (entries.foldl (collect reach) c)
  | [], done, c, _, hc => by rwa [List.map_nil, List.append_nil]
  | e :: entries, done, c, hall, hc => by
    have hstep := inv_collect h hc (hall e List.mem_cons_self)
    have hrest := inv_foldl h entries _ _ (fun e he => hall e (List.mem_cons_of_mem _ he)) hstep
    rwa [List.append_assoc] at hrest

theorem mem_collected (h : Reaches r reach) : (collected reach).Nodup ∧ ∀ c, c ∈ collected reach ↔ IsCycle r c := by
  have hempty : Inv r [] ({} : Collected α) :=
    ⟨fun v => by simp, fun _ hc => absurd hc List.not_mem_nil, List.nodup_nil, fun _ hu => absurd hu List.not_mem_nil⟩
  have hinv := inv_foldl h reach.toList [] {} (fun e he => ExtTreeMap.getElem?_of_mem_toList he) hempty
  refine ⟨hinv.nodup, fun c => ⟨hinv.cycles c, fun hc => ?_⟩⟩
  obtain ⟨u, hcycle, hu⟩ := hc.component
  have hmem : u ∈ c := (hu u).2 (Same.refl r u)
  obtain ⟨s, hs, -⟩ := (h u u).2 hcycle
  have hdone : u ∈ [] ++ reach.toList.map Prod.fst := by
    rw [List.nil_append]
    exact List.mem_map.2 ⟨(u, s), ExtTreeMap.mem_toList_iff_getElem?_eq_some.2 hs, rfl⟩
  obtain ⟨d, hd, hud⟩ := (hinv.placed u).1 (hinv.covered u hdone hcycle)
  rwa [hc.eq_of_mem (hinv.cycles d hd) hmem hud]

end Cycles
