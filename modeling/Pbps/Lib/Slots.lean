/-
Some of the positions of a list filled anew, one value for each in turn: what stands elsewhere stays, and what stood at the
positions has no say.
-/
import Mathlib.Data.List.Induction
import Mathlib.Data.List.Nodup
import Mathlib.Data.List.Perm.Subperm

namespace Slots

open List Option

variable {α : Type} {p : α → Bool} {slots : List Nat} {values l l' : List α} {i k : Nat} {v : α}

/-- The positions of what `p` holds of. -/
def positions (p : α → Bool) (l : List α) : List Nat := (List.range l.length).filter fun i => l[i]?.any p

def fill (slots : List Nat) (values l : List α) : List α := (slots.zip values).foldl (fun l e => l.set e.1 e.2) l

theorem mem_positions : i ∈ positions p l ↔ ∃ a, l[i]? = some a ∧ p a = true := by
  rw [positions, mem_filter, mem_range]
  constructor
  · rintro ⟨hi, ha⟩
    rw [getElem?_eq_getElem hi] at ha ⊢
    exact ⟨_, rfl, ha⟩
  · rintro ⟨a, ha, hp⟩
    exact ⟨(List.getElem?_eq_some_iff.1 ha).1, by rw [ha]; exact hp⟩

theorem nodup_positions : (positions p l).Nodup := nodup_range.filter _

theorem positions_concat (l : List α) (a : α) : positions p (l ++ [a]) = positions p l ++ if p a then [l.length] else [] := by
  have hinit : (List.range l.length).filter (fun i => (l ++ [a])[i]?.any p) = positions p l :=
    filter_congr fun i hi => by rw [getElem?_append_left (mem_range.1 hi)]
  rw [positions, length_append, length_singleton, range_succ, filter_append, hinit, filter_singleton,
    getElem?_concat_length, any_some]
  cases p a <;> rfl

theorem filterMap_positions (l : List α) : (positions p l).filterMap (fun i => l[i]?) = l.filter p := by
  induction l using reverseRecOn with
  | nil => rfl
  | append_singleton l a ih =>
    have hinit : (positions p l).filterMap (fun i => (l ++ [a])[i]?) = l.filter p := by
      rw [← ih]
      refine filterMap_congr fun i hi => ?_
      obtain ⟨b, hb, -⟩ := mem_positions.1 hi
      rw [getElem?_append_left (List.getElem?_eq_some_iff.1 hb).1]
    rw [positions_concat, filterMap_append, hinit, filter_append, filter_singleton]
    cases p a <;> simp

theorem length_positions (l : List α) : (positions p l).length = (l.filter p).length := by
  induction l using reverseRecOn with
  | nil => rfl
  | append_singleton l a ih =>
    rw [positions_concat, length_append, filter_append, length_append, ih, filter_singleton]
    cases p a <;> rfl

theorem length_fill : ∀ (slots : List Nat) (values l : List α), (fill slots values l).length = l.length
  | [], _, _ => rfl
  | _ :: _, [], _ => rfl
  | i :: slots, v :: values, l => (length_fill slots values (l.set i v)).trans length_set

theorem getElem?_fill_of_not_mem : ∀ (slots : List Nat) (values l : List α), i ∉ slots → (fill slots values l)[i]? = l[i]?
  | [], _, _, _ => rfl
  | _ :: _, [], _, _ => rfl
  | j :: slots, v :: values, l, hi => by
    rw [mem_cons, not_or] at hi
    exact (getElem?_fill_of_not_mem slots values (l.set j v) hi.2).trans (getElem?_set_ne (Ne.symm hi.1))

theorem getElem?_fill : ∀ (slots : List Nat) (values l : List α) {k : Nat}, slots.Nodup → slots[k]? = some i → values[k]? = some v →
    i < l.length → (fill slots values l)[i]? = some v
  | [], _, _, _, _, hk, _, _ => by cases hk
  | _ :: _, [], _, _, _, _, hv, _ => by cases hv
  | j :: slots, w :: values, l, 0, hnodup, hk, hv, hi => by
    cases hk; cases hv
    exact (getElem?_fill_of_not_mem slots values _ (nodup_cons.1 hnodup).1).trans (getElem?_set_self hi)
  | j :: slots, w :: values, l, k + 1, hnodup, hk, hv, hi =>
    getElem?_fill slots values (l.set j w) (nodup_cons.1 hnodup).2 hk hv (by rwa [length_set])

theorem fill_congr (hnodup : slots.Nodup) (hvalues : slots.length ≤ values.length) (hlength : l.length = l'.length)
    (hsame : ∀ i, i ∉ slots → l[i]? = l'[i]?) : fill slots values l = fill slots values l' := by
  refine ext_getElem? fun i => ?_
  by_cases hi : i ∈ slots
  · by_cases hlt : i < l.length
    · obtain ⟨k, hk⟩ := mem_iff_getElem?.1 hi
      have hkv : k < values.length := Nat.lt_of_lt_of_le (List.getElem?_eq_some_iff.1 hk).1 hvalues
      have hv : values[k]? = some values[k] := getElem?_eq_getElem hkv
      rw [getElem?_fill slots values l hnodup hk hv hlt, getElem?_fill slots values l' hnodup hk hv (hlength ▸ hlt)]
    · rw [getElem?_eq_none (by rw [length_fill]; omega), getElem?_eq_none (by rw [length_fill]; omega)]
  · rw [getElem?_fill_of_not_mem _ _ _ hi, getElem?_fill_of_not_mem _ _ _ hi, hsame i hi]

/-- A list with what `p` holds of left out of view. -/
def masked (p : α → Bool) (l : List α) : List (Option α) := l.map fun a => if p a then none else some a

theorem getElem?_masked_of_mem (hi : i ∈ positions p l) : (masked p l)[i]? = some none := by
  obtain ⟨a, ha, hp⟩ := mem_positions.1 hi
  rw [masked, getElem?_map, ha, map_some, if_pos hp]

theorem getElem?_masked_of_not_mem (hi : i ∉ positions p l) : (masked p l)[i]? = l[i]?.map some := by
  rw [masked, getElem?_map]
  cases ha : l[i]? with
  | none => rfl
  | some a =>
    have hp : ¬ p a = true := fun hp => hi (mem_positions.2 ⟨a, ha, hp⟩)
    rw [map_some, map_some, if_neg hp]

theorem mem_positions_of_masked (h : (masked p l)[i]? = some none) : i ∈ positions p l := by
  by_contra hi
  rw [getElem?_masked_of_not_mem hi] at h
  cases ha : l[i]? <;> rw [ha] at h <;> cases h

theorem length_eq_of_masked (h : masked p l = masked p l') : l.length = l'.length := by
  have hlength := congrArg List.length h
  rwa [masked, masked, length_map, length_map] at hlength

theorem positions_congr (h : masked p l = masked p l') : positions p l = positions p l' := by
  rw [positions, positions, length_eq_of_masked h]
  refine filter_congr fun i _ => ?_
  have hmem : i ∈ positions p l ↔ i ∈ positions p l' :=
    ⟨fun hi => mem_positions_of_masked (h ▸ getElem?_masked_of_mem hi),
      fun hi => mem_positions_of_masked (h.symm ▸ getElem?_masked_of_mem hi)⟩
  simp only [mem_positions] at hmem
  rw [Bool.eq_iff_iff, Option.any_eq_true, Option.any_eq_true]
  exact hmem

theorem masked_fill : ∀ (slots : List Nat) (values l : List α), (∀ i ∈ slots, i ∈ positions p l) → (∀ v ∈ values, p v = true) →
    masked p (fill slots values l) = masked p l
  | [], _, _, _, _ => rfl
  | _ :: _, [], _, _, _ => rfl
  | i :: slots, v :: values, l, hslots, hvalues => by
    have hv : p v = true := hvalues v mem_cons_self
    have hset : masked p (l.set i v) = masked p l := by
      rw [masked, map_set, if_pos hv]
      refine ext_getElem? fun j => ?_
      by_cases hj : i = j
      · subst hj
        have hnone := getElem?_masked_of_mem (hslots i mem_cons_self)
        exact (getElem?_set_self (List.getElem?_eq_some_iff.1 hnone).1).trans hnone.symm
      · exact getElem?_set_ne hj
    rw [← hset, ← masked_fill slots values (l.set i v) (fun j hj => ?_) fun w hw => hvalues w (mem_cons_of_mem _ hw)]
    · rfl
    · rw [positions_congr hset]
      exact hslots j (mem_cons_of_mem _ hj)

theorem filter_not_eq (l : List α) : l.filter (fun a => !p a) = (masked p l).filterMap id := by
  induction l with
  | nil => rfl
  | cons a l ih =>
    rw [masked, map_cons]
    cases hp : p a <;> simp [hp, ih, masked]

theorem ext_masked : ∀ {l l' : List α}, masked p l = masked p l' → l.filter p = l'.filter p → l = l'
  | [], [], _, _ => rfl
  | [], _ :: _, h, _ => by cases h
  | _ :: _, [], h, _ => by cases h
  | a :: l, b :: l', h, hfilter => by
    simp only [masked, map_cons, cons.injEq] at h
    obtain ⟨hhead, hrest⟩ := h
    cases ha : p a <;> cases hb : p b <;> simp only [ha, hb, filter_cons, if_true, Bool.false_eq_true, if_false, reduceCtorEq,
      some.injEq, cons.injEq] at hhead hfilter
    · rw [hhead, ext_masked hrest hfilter]
    · rw [hfilter.1, ext_masked hrest hfilter.2]

theorem filter_fill (hvalues : ∀ v ∈ values, p v = true) (hlength : (positions p l).length = values.length) :
    (fill (positions p l) values l).filter p = values := by
  rw [← filterMap_positions, positions_congr (masked_fill (positions p l) values l (fun _ hi => hi) hvalues)]
  have hmap : (positions p l).map (fun i => (fill (positions p l) values l)[i]?) = values.map some := by
    refine ext_getElem (by rw [length_map, length_map, hlength]) fun k hk hk' => ?_
    rw [length_map] at hk hk'
    obtain ⟨a, ha, -⟩ := mem_positions.1 (getElem_mem hk)
    rw [getElem_map, getElem_map]
    exact getElem?_fill _ _ _ nodup_positions (getElem?_eq_getElem hk) (getElem?_eq_getElem hk')
      (List.getElem?_eq_some_iff.1 ha).1
  calc _ = ((positions p l).map fun i => (fill (positions p l) values l)[i]?).filterMap id := filterMap_map.symm
    _ = values := by rw [hmap]; simp

theorem fill_self (l : List α) : fill (positions p l) (l.filter p) l = l := by
  have hvalues : ∀ v ∈ l.filter p, p v = true := fun v hv => (mem_filter.1 hv).2
  exact ext_masked (masked_fill _ _ _ (fun _ hi => hi) hvalues) (filter_fill hvalues (length_positions l))

theorem fill_eq_fill_iff (hvalues : ∀ v ∈ values, p v = true) (hl : (positions p l).length ≤ values.length) :
    fill (positions p l) values l = fill (positions p l') values l' ↔ masked p l = masked p l' := by
  constructor
  · intro h
    rw [← masked_fill (positions p l) values l (fun _ hi => hi) hvalues, h,
      masked_fill (positions p l') values l' (fun _ hi => hi) hvalues]
  · intro h
    rw [← positions_congr h]
    refine fill_congr nodup_positions hl (length_eq_of_masked h) fun i hi => ?_
    have hsome : (masked p l)[i]? = (masked p l')[i]? := by rw [h]
    rw [getElem?_masked_of_not_mem hi, getElem?_masked_of_not_mem (positions_congr h ▸ hi)] at hsome
    exact map_injective (fun _ _ heq => some.inj heq) hsome

theorem fill_perm (hl : l.Nodup) (hvalues : values.Perm (l.filter p)) : (fill (positions p l) values l).Perm l := by
  have hlength : (positions p l).length = values.length := (length_positions l).trans hvalues.length_eq.symm
  have hsubset : l ⊆ fill (positions p l) values l := by
    intro a ha
    obtain ⟨i, hi⟩ := mem_iff_getElem?.1 ha
    cases hp : p a with
    | true =>
      obtain ⟨k, hk⟩ := mem_iff_getElem?.1 (hvalues.mem_iff.2 (mem_filter.2 ⟨ha, hp⟩))
      have hkp : k < (positions p l).length := hlength ▸ (List.getElem?_eq_some_iff.1 hk).1
      have hslot : (positions p l)[k]? = some (positions p l)[k] := getElem?_eq_getElem hkp
      obtain ⟨b, hb, -⟩ := mem_positions.1 (getElem_mem hkp)
      exact mem_of_getElem? (getElem?_fill _ _ _ nodup_positions hslot hk (List.getElem?_eq_some_iff.1 hb).1)
    | false =>
      have hout : i ∉ positions p l := by
        rw [mem_positions]
        rintro ⟨b, hb, hpb⟩
        rw [hi] at hb
        cases hb
        rw [hp] at hpb
        cases hpb
      exact mem_of_getElem? ((getElem?_fill_of_not_mem _ _ _ hout).trans hi)
  exact ((subperm_of_subset hl hsubset).perm_of_length_le (Nat.le_of_eq (length_fill _ _ _))).symm

end Slots
