/-
The order of a table's column records after its declaration changed: `next_order` of `ids_tree.rs`. New columns are put in,
each one after the column declared before it, and the declared ones then take the declared order in the slots they hold.
-/
import Pbps.Lib.Slots
import Pbps.Tree.Merge

namespace Pbps.Tree

open Std (ExtTreeSet)
open List

variable {existing declared order : List Uid} {retired : ExtTreeSet Uid} {u : Uid}

/-! ## New columns -/

def placeOf (declared order : List Uid) (i : Nat) : Nat :=
  ((if i = 0 then none else declared[i - 1]?).bind fun u => order.findIdx? (· = u)).elim 0 (· + 1)

def insertNew (declared order : List Uid) (e : Uid × Nat) : List Uid :=
  if order.contains e.1 then order else order.insertIdx (placeOf declared order e.2) e.1

def keptOf (existing declared : List Uid) (retired : ExtTreeSet Uid) : List Uid :=
  existing.filter fun u => declared.contains u || retired.contains u

def inserted (existing declared : List Uid) (retired : ExtTreeSet Uid) : List Uid :=
  declared.zipIdx.foldl (insertNew declared) (keptOf existing declared retired)

theorem nextOrder_eq : nextOrder existing declared retired = Slots.fill
    (Slots.positions declared.contains (inserted existing declared retired)) declared (inserted existing declared retired) := rfl

theorem placeOf_le (i : Nat) : placeOf declared order i ≤ order.length := by
  unfold placeOf
  cases hat : (if i = 0 then none else declared[i - 1]?).bind fun u => order.findIdx? (· = u) with
  | none => exact Nat.zero_le _
  | some k =>
    obtain ⟨u, -, hk⟩ := Option.bind_eq_some_iff.1 hat
    exact (findIdx?_eq_some_iff_getElem.1 hk).1

variable {e : Uid × Nat}

theorem insertNew_perm (h : e.1 ∉ order) : (insertNew declared order e).Perm (e.1 :: order) := by
  rw [insertNew, if_neg (mt contains_iff_mem.1 h)]
  exact perm_insertIdx e.1 order (placeOf_le _)

theorem mem_insertNew : u ∈ insertNew declared order e ↔ u = e.1 ∨ u ∈ order := by
  by_cases h : e.1 ∈ order
  · rw [insertNew, if_pos (contains_iff_mem.2 h)]
    exact ⟨.inr, fun hu => hu.elim (fun heq => heq ▸ h) id⟩
  · rw [(insertNew_perm h).mem_iff, mem_cons]

theorem nodup_insertNew (h : order.Nodup) : (insertNew declared order e).Nodup := by
  by_cases hmem : e.1 ∈ order
  · rwa [insertNew, if_pos (contains_iff_mem.2 hmem)]
  · exact (insertNew_perm hmem).nodup_iff.2 (nodup_cons.2 ⟨hmem, h⟩)

theorem filter_insertIdx {α : Type} {q : α → Bool} {a : α} (ha : q a = false) : ∀ (l : List α) (i : Nat),
    (l.insertIdx i a).filter q = l.filter q
  | [], 0 => by simp [ha]
  | [], _ + 1 => rfl
  | b :: l, 0 => by simp [ha]
  | b :: l, i + 1 => by rw [insertIdx_succ_cons, filter_cons, filter_cons, filter_insertIdx ha l i]

theorem filter_insertNew {q : Uid → Bool} (he : q e.1 = false) : (insertNew declared order e).filter q = order.filter q := by
  unfold insertNew
  split
  · rfl
  · exact filter_insertIdx he _ _

section Fold

variable (l : List (Uid × Nat))

theorem mem_foldl_insertNew : u ∈ l.foldl (insertNew declared) order ↔ u ∈ l.map (·.1) ∨ u ∈ order := by
  induction l generalizing order with
  | nil => simp
  | cons e l ih => rw [foldl_cons, ih, mem_insertNew, map_cons, mem_cons, or_left_comm, or_assoc]

theorem nodup_foldl_insertNew (h : order.Nodup) : (l.foldl (insertNew declared) order).Nodup := by
  induction l generalizing order with
  | nil => exact h
  | cons e l ih => exact ih (nodup_insertNew h)

theorem filter_foldl_insertNew {q : Uid → Bool} (hl : ∀ e ∈ l, q e.1 = false) :
    (l.foldl (insertNew declared) order).filter q = order.filter q := by
  induction l generalizing order with
  | nil => rfl
  | cons e l ih =>
    rw [forall_mem_cons] at hl
    rw [foldl_cons, ih hl.2, filter_insertNew hl.1]

theorem foldl_insertNew_of_listed (hl : ∀ e ∈ l, e.1 ∈ order) : l.foldl (insertNew declared) order = order := by
  induction l with
  | nil => rfl
  | cons e l ih =>
    rw [forall_mem_cons] at hl
    rw [foldl_cons, insertNew, if_pos (contains_iff_mem.2 hl.1), ih hl.2]

end Fold

theorem mem_keptOf : u ∈ keptOf existing declared retired ↔ u ∈ existing ∧ (u ∈ declared ∨ u ∈ retired) := by
  rw [keptOf, mem_filter, Bool.or_eq_true, contains_iff_mem, ExtTreeSet.contains_iff_mem]

theorem mem_inserted : u ∈ inserted existing declared retired ↔ u ∈ declared ∨ u ∈ existing ∧ u ∈ retired := by
  rw [inserted, mem_foldl_insertNew, zipIdx_map_fst, mem_keptOf]
  tauto

theorem nodup_inserted (h : existing.Nodup) : (inserted existing declared retired).Nodup := nodup_foldl_insertNew _ (h.filter _)

/-! ## The declared ones in their slots -/

section

variable (hkept : ∀ u ∈ existing, u ∈ declared ∨ u ∈ retired)
include hkept

theorem nextOrder_of_listed (hlisted : ∀ u ∈ declared, u ∈ existing) :
    nextOrder existing declared retired = Slots.fill (Slots.positions declared.contains existing) declared existing := by
  have hall : keptOf existing declared retired = existing := by
    refine filter_eq_self.2 fun u hu => ?_
    rw [Bool.or_eq_true, contains_iff_mem, ExtTreeSet.contains_iff_mem]
    exact hkept u hu
  have hnone : inserted existing declared retired = existing := by
    rw [inserted, hall]
    exact foldl_insertNew_of_listed _ fun e he => hlisted _ (fst_mem_of_mem_zipIdx he)
  rw [nextOrder_eq, hnone]

theorem nextOrder_of_ordered (hordered : existing.filter declared.contains = declared) :
    nextOrder existing declared retired = existing := by
  have hlisted : ∀ u ∈ declared, u ∈ existing := by
    intro u hu
    rw [← hordered] at hu
    exact (mem_filter.1 hu).1
  rw [nextOrder_of_listed hkept hlisted]
  calc _ = Slots.fill (Slots.positions declared.contains existing) (existing.filter declared.contains) existing := by rw [hordered]
    _ = existing := Slots.fill_self existing

end

theorem filter_rest_nextOrder : (nextOrder existing declared retired).filter (fun u => !declared.contains u) =
    (keptOf existing declared retired).filter fun u => !declared.contains u := by
  rw [Slots.filter_not_eq, nextOrder_eq, Slots.masked_fill _ _ _ (fun _ hi => hi) fun u hu => contains_iff_mem.2 hu,
    ← Slots.filter_not_eq, inserted]
  refine filter_foldl_insertNew _ fun e hmem => ?_
  rw [contains_iff_mem.2 (fst_mem_of_mem_zipIdx hmem), Bool.not_true]

section Distinct

variable (he : existing.Nodup) (hd : declared.Nodup)
include he hd

theorem declared_perm_inserted : declared.Perm ((inserted existing declared retired).filter declared.contains) := by
  refine (perm_ext_iff_of_nodup hd ((nodup_inserted he).filter _)).2 fun u => ?_
  rw [mem_filter, contains_iff_mem, mem_inserted]
  exact ⟨fun hu => ⟨.inl hu, hu⟩, fun hu => hu.2⟩

theorem nextOrder_perm : (nextOrder existing declared retired).Perm (inserted existing declared retired) :=
  Slots.fill_perm (nodup_inserted he) (declared_perm_inserted he hd)

theorem filter_declared_nextOrder : (nextOrder existing declared retired).filter declared.contains = declared := by
  refine Slots.filter_fill (fun u hu => contains_iff_mem.2 hu) ?_
  rw [Slots.length_positions]
  exact (declared_perm_inserted he hd).length_eq.symm

/-- The order has each declared column and each tombstone it had once, the declared ones as declared and the tombstones as they
were; an order that is that already stays, and so does the order made. -/
theorem nextOrder_spec (hdisjoint : ∀ u ∈ declared, u ∉ retired) : (nextOrder existing declared retired).Nodup ∧
    (∀ u, u ∈ nextOrder existing declared retired ↔ u ∈ declared ∨ u ∈ existing ∧ u ∈ retired) ∧
    (nextOrder existing declared retired).filter declared.contains = declared ∧
    (nextOrder existing declared retired).filter retired.contains = existing.filter retired.contains ∧
    ((∀ u ∈ existing, u ∈ declared ∨ u ∈ retired) → existing.filter declared.contains = declared →
      nextOrder existing declared retired = existing) ∧
    nextOrder (nextOrder existing declared retired) declared retired = nextOrder existing declared retired := by
  have hperm : (nextOrder existing declared retired).Perm (inserted existing declared retired) := nextOrder_perm he hd
  have hmem : ∀ u, u ∈ nextOrder existing declared retired ↔ u ∈ declared ∨ u ∈ existing ∧ u ∈ retired :=
    fun u => hperm.mem_iff.trans mem_inserted
  have hordered : (nextOrder existing declared retired).filter declared.contains = declared := filter_declared_nextOrder he hd
  have hretired : ∀ l : List Uid, (l.filter fun u => !declared.contains u).filter retired.contains = l.filter retired.contains := by
    intro l
    rw [List.filter_filter]
    refine filter_congr fun u _ => ?_
    cases hr : retired.contains u with
    | false => rfl
    | true =>
      have hnot : u ∉ declared := fun hu => hdisjoint u hu (ExtTreeSet.contains_iff_mem.1 hr)
      simp [hnot]
  refine ⟨hperm.nodup_iff.2 (nodup_inserted he), hmem, hordered, ?_, nextOrder_of_ordered,
    nextOrder_of_ordered (fun u hu => ((hmem u).1 hu).imp id And.right) hordered⟩
  rw [← hretired, filter_rest_nextOrder, hretired, keptOf, List.filter_filter]
  refine filter_congr fun u _ => ?_
  cases retired.contains u <;> simp

end Distinct

theorem nextOrder_spec_moved :
    nextOrder [⟨"c_b"⟩, ⟨"c_x"⟩, ⟨"c_a"⟩] [⟨"c_a"⟩, ⟨"c_n"⟩, ⟨"c_b"⟩] ((∅ : ExtTreeSet Uid).insert ⟨"c_x"⟩) =
      [⟨"c_a"⟩, ⟨"c_x"⟩, ⟨"c_n"⟩, ⟨"c_b"⟩] ∧
    (nextOrder [⟨"c_b"⟩, ⟨"c_x"⟩, ⟨"c_a"⟩] [⟨"c_a"⟩, ⟨"c_n"⟩, ⟨"c_b"⟩] ((∅ : ExtTreeSet Uid).insert ⟨"c_x"⟩)).Nodup :=
  ⟨by decide, (nextOrder_spec (by decide) (by decide) (by decide)).1⟩

end Pbps.Tree
