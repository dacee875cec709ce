/-
The keys of an ordered map gathered under their values, each list in the order of the keys: what such lists are is told by
the map alone, and pushing the entries one by one builds them.
-/
import Mathlib.Data.List.Sort
import Pbps.Lib.Map

namespace Gather

open Std (ExtTreeMap TransOrd LawfulEqOrd)
open List Std.ExtTreeMap

/-! ## Pushing -/

section Push

variable {K V : Type} {entries : List (K × V)} {k : K} {v : V} [DecidableEq V]

theorem nodup_filter (hnodup : (entries.map (·.1)).Nodup) (v : V) : ((entries.filter (·.2 = v)).map (·.1)).Nodup :=
  hnodup.sublist (filter_sublist.map _)

theorem mem_filter_fst : k ∈ (entries.filter (·.2 = v)).map (·.1) ↔ (k, v) ∈ entries := by
  simp [List.mem_map, List.mem_filter]

variable [Ord V] [TransOrd V]

def push (held : ExtTreeMap V (List K)) (e : K × V) : ExtTreeMap V (List K) := held.insert e.2 (held.getD e.2 [] ++ [e.1])

variable [LawfulEqOrd V]

/-- Pushed one by one, the keys of the entries come under their values in the order of the entries. -/
theorem foldl_push : ∀ (entries : List (K × V)) (held : ExtTreeMap V (List K)) (v : V),
    (entries.foldl push held)[v]? =
      if (entries.filter (·.2 = v)) = [] then held[v]? else some (held.getD v [] ++ (entries.filter (·.2 = v)).map (·.1))
  | [], held, v => rfl
  | e :: entries, held, v => by
    rw [foldl_cons, foldl_push entries, filter_cons]
    by_cases hv : e.2 = v
    · subst hv
      have hself : (push held e)[e.2]? = some (held.getD e.2 [] ++ [e.1]) := getElem?_insert_self
      rw [getD_eq_getD_getElem?, hself]
      simp only [decide_true, if_true, cons_ne_nil, if_false, Option.getD_some, map_cons, append_assoc,
        singleton_append]
      split
      · next hnil => rw [hnil, map_nil]
      · rfl
    · have hother : (push held e)[v]? = held[v]? := getElem?_insert_of_ne (Ne.symm hv)
      rw [getD_eq_getD_getElem?, hother, ← getD_eq_getD_getElem?, decide_eq_false hv]
      rfl

end Push

/-! ## The keys of a value -/

variable {K V : Type} [Ord K] [TransOrd K] {m : ExtTreeMap K V} {k : K} {v : V}

def le (a b : K) : Bool := (compare a b).isLE

theorem nodup_of_sorted {l : List K} (h : l.Pairwise fun a b => compare a b = .lt) : l.Nodup := by
  refine h.imp fun {a b} hlt heq => ?_
  rw [heq, Std.ReflOrd.compare_self] at hlt
  cases hlt

variable [DecidableEq V]

def under (m : ExtTreeMap K V) (v : V) : List K := m.keys.filter fun k => m[k]? = some v

theorem under_sorted : (under m v).Pairwise fun a b => compare a b = .lt := ordered_keys.filter _

variable [LawfulEqOrd K]

theorem mem_under : k ∈ under m v ↔ m[k]? = some v := by
  rw [under, List.mem_filter, ExtTreeMap.mem_keys, decide_eq_true_iff, and_iff_right_iff_imp]
  exact mem_of_getElem?_eq

/-- A list of the keys that have the value, each once and in order, is the one there is. -/
theorem eq_under {l : List K} (hsorted : l.Pairwise fun a b => le a b = true) (hnodup : l.Nodup)
    (hmem : ∀ k, k ∈ l ↔ m[k]? = some v) : l = under m v := by
  have hperm : l.Perm (under m v) := (perm_ext_iff_of_nodup hnodup (nodup_of_sorted under_sorted)).2 fun k => by
    rw [hmem, mem_under]
  refine hperm.eq_of_pairwise (fun a b _ _ hab hba => ?_) hsorted (under_sorted.imp fun h => by rw [le, h]; rfl)
  refine LawfulEqOrd.eq_of_compare ?_
  have hswap : compare a b = (compare b a).swap := Std.OrientedOrd.eq_swap
  rw [le] at hab hba
  revert hab hba hswap
  cases compare a b <;> cases compare b a <;> simp

/-! ## Every value's keys -/

variable [Ord V] [TransOrd V] {held held' : ExtTreeMap V (List K)} {entries : List (K × V)}

def Lists (m : ExtTreeMap K V) (held : ExtTreeMap V (List K)) : Prop :=
  ∀ v : V, held[v]? = if under m v = [] then none else some (under m v)

variable [LawfulEqOrd V]

omit [LawfulEqOrd K] in
theorem Lists.unique (h : Lists m held) (h' : Lists m held') : held = held' := by
  refine ExtTreeMap.ext_getElem? fun v => ?_
  rw [h v, h' v]

theorem lists_of_sort (hnodup : (entries.map (·.1)).Nodup) (hmem : ∀ k v, (k, v) ∈ entries ↔ m[k]? = some v) :
    Lists m ((entries.foldl push ∅).map fun _ l => l.mergeSort le) := by
  intro v
  have heq : ((entries.filter (·.2 = v)).map (·.1)).mergeSort le = under m v := by
    refine eq_under (pairwise_mergeSort (fun a b c => ?_) (fun a b => ?_) _) ?_ fun k => ?_
    · exact Std.TransOrd.isLE_trans
    · rw [le, le, Std.OrientedOrd.eq_swap (a := b) (b := a)]
      cases compare a b <;> rfl
    · exact (mergeSort_perm _ _).nodup_iff.2 (nodup_filter hnodup v)
    · rw [mem_mergeSort, mem_filter_fst, hmem]
  have hnil : under m v = [] ↔ entries.filter (·.2 = v) = [] := by
    rw [← heq, eq_nil_iff_length_eq_zero, length_mergeSort, length_map, ← eq_nil_iff_length_eq_zero]
  rw [ExtTreeMap.getElem?_map, foldl_push, getD_empty, getElem?_empty, nil_append]
  by_cases h : entries.filter (·.2 = v) = []
  · rw [if_pos h, if_pos (hnil.2 h)]
    rfl
  · rw [if_neg h, if_neg (mt hnil.1 h), ← heq]
    rfl

end Gather
