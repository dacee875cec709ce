/-
An index over entries by their value: one that keeps the first key of each value, one that keeps the last, and one that
groups the entries. A lookup in each is a scan of the entries.
-/
import Pbps.Lib.Map

namespace Reverse

open Std (ExtTreeMap TransOrd LawfulEqOrd)
open List Option Std.ExtTreeMap

variable {K N G : Type}

def scan [DecidableEq N] (l : List (K × N)) (name : N) : Option K := (l.find? fun e => e.2 = name).map (·.1)

theorem scan_cons [DecidableEq N] {l : List (K × N)} {e : K × N} {name : N} :
    scan (e :: l) name = if e.2 = name then some e.1 else scan l name := by
  unfold scan
  rw [find?_cons]
  by_cases h : e.2 = name
  · rw [if_pos h, decide_eq_true h]; rfl
  · rw [if_neg h, decide_eq_false h]

section Names

variable [Ord N] [TransOrd N] [LawfulEqOrd N] [DecidableEq N]

def firsts (l : List (K × N)) (m : ExtTreeMap N K) : ExtTreeMap N K := l.foldl (fun m e => m.insertIfNew e.2 e.1) m

def lasts (l : List (K × N)) (m : ExtTreeMap N K) : ExtTreeMap N K := l.foldl (fun m e => m.insert e.2 e.1) m

theorem getElem?_firsts {name : N} : ∀ {l : List (K × N)} {m : ExtTreeMap N K},
    (firsts l m)[name]? = (m[name]?).or (scan l name)
  | [], m => by rw [firsts, foldl_nil, scan, find?_nil, map_none, or_none]
  | e :: l, m => by
    have hstep : firsts (e :: l) m = firsts l (m.insertIfNew e.2 e.1) := rfl
    rw [hstep, getElem?_firsts, scan_cons, getElem?_insertIfNew]
    by_cases h : e.2 = name
    · subst h
      rw [if_pos rfl]
      cases hm : m[e.2]? with
      | none =>
        have hnot : e.2 ∉ m := (getElem?_eq_none_iff _ _).1 hm
        rw [if_pos ⟨Std.ReflOrd.compare_self, hnot⟩]
        rfl
      | some k =>
        rw [if_neg fun hc => hc.2 (mem_of_getElem?_eq hm)]
        rfl
    · rw [if_neg h, if_neg fun hc => h (LawfulEqOrd.eq_of_compare hc.1)]

theorem getElem?_lasts_reverse {name : N} : ∀ {l : List (K × N)} {m : ExtTreeMap N K},
    (lasts l.reverse m)[name]? = (scan l name).or m[name]?
  | [], m => by rw [lasts, reverse_nil, foldl_nil, scan, find?_nil, map_none, none_or]
  | e :: l, m => by
    have hlast : lasts (e :: l).reverse m = (lasts l.reverse m).insert e.2 e.1 := by
      rw [lasts, reverse_cons, foldl_append]
      rfl
    rw [hlast, scan_cons]
    by_cases h : e.2 = name
    · subst h
      rw [getElem?_insert_self, if_pos rfl, some_or]
    · rw [getElem?_insert_of_ne (Ne.symm h), if_neg h, getElem?_lasts_reverse]

end Names

section Groups

variable [Ord K] [TransOrd K] [Ord G] [TransOrd G] [LawfulEqOrd G] [DecidableEq G]

def groups (group : N → G) (l : List (K × N)) (m : ExtTreeMap G (ExtTreeMap K N)) : ExtTreeMap G (ExtTreeMap K N) :=
  l.foldl (fun m e => m.insert (group e.2) (((m[group e.2]?).getD ∅).insert e.1 e.2)) m

theorem getElem?_groups {group : N → G} {g : G} : ∀ {l : List (K × N)} {m : ExtTreeMap G (ExtTreeMap K N)},
    ((groups group l m)[g]?).getD ∅ = ExtTreeMap.insertMany ((m[g]?).getD ∅) (l.filter fun e => group e.2 = g)
  | [], m => by rw [groups, foldl_nil, filter_nil, insertMany_nil]
  | e :: l, m => by
    have hstep : groups group (e :: l) m = groups group l (m.insert (group e.2) (((m[group e.2]?).getD ∅).insert e.1 e.2)) :=
      rfl
    rw [hstep, getElem?_groups]
    by_cases h : group e.2 = g
    · subst h
      rw [getElem?_insert_self, filter_cons_of_pos (by simp), insertMany_cons]
      rfl
    · rw [getElem?_insert_of_ne (Ne.symm h), filter_cons_of_neg (by simpa using h)]

theorem toList_groups [LawfulEqOrd K] [DecidableEq K] {group : N → G} {g : G} {m : ExtTreeMap K N} :
    (((groups group m.toList ∅)[g]?).getD ∅).toList = m.toList.filter fun e => group e.2 = g := by
  have hfilter : (m.filter fun _ n => group n = g).toList = m.toList.filter fun e => group e.2 = g :=
    ExtTreeMap.toList_filter
  rw [getElem?_groups, getElem?_empty, getD_none, ← hfilter, ← ofList_eq_insertMany_empty]
  congr 1
  refine ExtTreeMap.ext_getElem? fun k => Option.ext fun n => ?_
  rw [getElem?_ofList_eq_some]
  · exact mem_toList_iff_getElem?_eq_some
  · rw [map_fst_toList_eq_keys]
    exact nodup_keys

end Groups

end Reverse
