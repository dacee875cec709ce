/-
Ordered maps over keys whose comparison decides equality: lookups after an update stated with
equality of keys, and membership stated with the entry that is there.
-/
import Std.Data.ExtTreeMap
import Std.Data.ExtTreeSet
import Mathlib.Data.List.AList

namespace Std.ExtTreeMap

open Option (map_none map_some)

variable {K V : Type} [Ord K] [TransOrd K] {m : ExtTreeMap K V} {k a : K} {v : V}

theorem mem_iff_exists : k ∈ m ↔ ∃ v, m[k]? = some v := by
  rw [mem_iff_isSome_getElem?, Option.isSome_iff_exists]

theorem contains_iff_exists : m.contains k = true ↔ ∃ v, m[k]? = some v := by
  rw [contains_iff_mem, mem_iff_exists]

theorem mem_of_getElem?_eq (h : m[k]? = some v) : k ∈ m := mem_iff_exists.2 ⟨v, h⟩

theorem getElem?_of_mem_toList [LawfulEqOrd K] (h : (k, v) ∈ m.toList) : m[k]? = some v :=
  mem_toList_iff_getElem?_eq_some.1 h

theorem contains_of_mem_toList [LawfulEqOrd K] (h : (k, v) ∈ m.toList) : m.contains k = true :=
  contains_iff_exists.2 ⟨v, getElem?_of_mem_toList h⟩

variable [LawfulEqOrd K]

theorem getElem?_insert_of_ne (h : a ≠ k) : (m.insert k v)[a]? = m[a]? := by
  rw [getElem?_insert, if_neg fun hc => h (LawfulEqOrd.eq_of_compare hc).symm]

theorem getElem?_erase_of_ne (h : a ≠ k) : (m.erase k)[a]? = m[a]? := by
  rw [getElem?_erase, if_neg fun hc => h (LawfulEqOrd.eq_of_compare hc).symm]

theorem getElem?_insert_eq_some {w : V} : (m.insert k v)[a]? = some w ↔ (a = k ∧ w = v) ∨ (a ≠ k ∧ m[a]? = some w) := by
  by_cases h : a = k
  · subst h; simp [eq_comm]
  · simp [getElem?_insert_of_ne h, h]

theorem getElem?_erase_eq_some {w : V} : (m.erase k)[a]? = some w ↔ a ≠ k ∧ m[a]? = some w := by
  by_cases h : a = k
  · subst h; simp
  · simp [getElem?_erase_of_ne h, h]

theorem getElem?_filter_eq_some {f : K → V → Bool} : (m.filter f)[a]? = some v ↔ m[a]? = some v ∧ f a v = true := by
  rw [getElem?_filter']
  cases m[a]? with
  | none => simp
  | some w =>
    simp only [Option.filter_some, Option.some.injEq]
    constructor
    · intro h; split at h
      · cases h; exact ⟨rfl, by assumption⟩
      · cases h
    · rintro ⟨rfl, h⟩; simp [h]

theorem isEmpty_of_forall (h : ∀ k : K, m[k]? = none) : m.isEmpty = true := by
  rw [isEmpty_iff]
  exact ext_getElem? fun k => (h k).trans getElem?_empty.symm

theorem mem_map_snd_toList : v ∈ m.toList.map Prod.snd ↔ ∃ k : K, m[k]? = some v := by
  rw [List.mem_map]
  constructor
  · rintro ⟨⟨k, w⟩, h, rfl⟩; exact ⟨k, mem_toList_iff_getElem?_eq_some.1 h⟩
  · rintro ⟨k, h⟩; exact ⟨(k, v), mem_toList_iff_getElem?_eq_some.2 h, rfl⟩

theorem mem_of_getElem?_insertMany :
    ∀ {l : List (K × V)} {m : ExtTreeMap K V}, (m.insertMany l)[k]? = some v → (k, v) ∈ l ∨ m[k]? = some v
  | [], m, h => Or.inr (by simpa using h)
  | (a, w) :: l, m, h => by
    rw [insertMany_cons] at h
    rcases mem_of_getElem?_insertMany h with h | h
    · exact Or.inl (List.mem_cons_of_mem _ h)
    · rw [getElem?_insert_eq_some] at h
      rcases h with ⟨rfl, rfl⟩ | ⟨-, h⟩
      · exact Or.inl List.mem_cons_self
      · exact Or.inr h

variable {l : List (K × V)} {W : Type}

theorem mem_of_getElem?_ofList (h : (ofList l)[k]? = some v) : (k, v) ∈ l := by
  rw [ofList_eq_insertMany_empty] at h
  rcases mem_of_getElem?_insertMany h with h | h
  · exact h
  · rw [getElem?_empty] at h; cases h

theorem getElem?_ofList_ne_none [DecidableEq K] (h : (k, v) ∈ l) : (ofList l)[k]? ≠ none := by
  rw [ne_eq, getElem?_eq_none_iff, not_not, mem_ofList]
  exact List.elem_iff.2 (List.mem_map_of_mem h)

theorem getElem?_ofList_eq_some [DecidableEq K] (hl : (l.map Prod.fst).Nodup) : (ofList l)[k]? = some v ↔ (k, v) ∈ l := by
  have hd : l.Pairwise fun a b => ¬ compare a.1 b.1 = .eq := by
    have := List.pairwise_map.1 hl
    exact this.imp fun h hc => h (LawfulEqOrd.eq_of_compare hc)
  constructor
  · intro h
    by_cases hm : (l.map Prod.fst).contains k = true
    · obtain ⟨⟨k', w⟩, hw, rfl⟩ := List.mem_map.1 (List.contains_iff_mem.1 hm)
      have : (ofList l)[k']? = some w := getElem?_ofList_of_mem ReflOrd.compare_self hd hw
      rw [this] at h; cases h; exact hw
    · rw [getElem?_ofList_of_contains_eq_false (by simpa using hm)] at h; cases h
  · intro h
    exact getElem?_ofList_of_mem ReflOrd.compare_self hd h

theorem getElem?_foldl_insert [DecidableEq K] {A : Type} {k : A → K} {v : A → V} {a : K} {x : V} : ∀ (l : List A) (m : ExtTreeMap K V),
    (l.map k).Nodup → ((l.foldl (fun m p => m.insert (k p) (v p)) m)[a]? = some x ↔
      (∃ p ∈ l, k p = a ∧ v p = x) ∨ (a ∉ l.map k ∧ m[a]? = some x))
  | [], m, _ => by simp
  | p :: l, m, h => by
    rw [List.map_cons, List.nodup_cons] at h
    rw [List.foldl_cons, getElem?_foldl_insert l _ h.2, getElem?_insert_eq_some]
    by_cases ha : a = k p
    · subst ha
      have hnot : ¬ ∃ q ∈ l, k q = k p ∧ v q = x := by
        rintro ⟨q, hq, hk, -⟩
        exact h.1 (hk ▸ List.mem_map_of_mem hq)
      constructor
      · rintro (hq | ⟨-, ⟨-, rfl⟩ | ⟨hne, -⟩⟩)
        · exact absurd hq hnot
        · exact .inl ⟨p, List.mem_cons_self, rfl, rfl⟩
        · exact absurd rfl hne
      · rintro (⟨q, hq, hk, hv⟩ | ⟨hmem, -⟩)
        · rcases List.mem_cons.1 hq with rfl | hq
          · exact .inr ⟨h.1, .inl ⟨rfl, hv.symm⟩⟩
          · exact absurd ⟨q, hq, hk, hv⟩ hnot
        · exact absurd List.mem_cons_self hmem
    · simp [ha, Ne.symm ha]

theorem nodup_toList : m.toList.Nodup :=
  distinct_keys_toList.imp fun h he => h (by rw [he]; exact ReflOrd.compare_self)

theorem getElem?_ofList_filterMap [DecidableEq K] (hl : (l.map Prod.fst).Nodup) {f : K × V → Option (K × W)}
    (hf : ∀ e w, f e = some w → w.1 = e.1) (h : (k, v) ∈ l) : (ofList (l.filterMap f))[k]? = (f (k, v)).map Prod.snd := by
  have hsub : ∀ l : List (K × V), ((l.filterMap f).map Prod.fst).Sublist (l.map Prod.fst) := by
    intro l
    induction l with
    | nil => exact .slnil
    | cons e l ih =>
      cases he : f e with
      | none => rw [List.filterMap_cons_none he]; exact ih.cons _
      | some w =>
        rw [List.filterMap_cons_some he, List.map_cons, List.map_cons, hf e w he]
        exact ih.cons_cons _
  have hnd := (hsub l).nodup hl
  cases he : f (k, v) with
  | some w =>
    have hk : w.1 = k := hf _ _ he
    refine (getElem?_ofList_eq_some hnd).2 (List.mem_filterMap.2 ⟨(k, v), h, ?_⟩)
    rw [he, ← hk]
  | none =>
    rw [map_none, Option.eq_none_iff_forall_ne_some]
    intro w hw
    obtain ⟨⟨k', v'⟩, hm, he'⟩ := List.mem_filterMap.1 ((getElem?_ofList_eq_some hnd).1 hw)
    obtain rfl : k = k' := hf _ _ he'
    have : v = v' := congrArg Prod.snd (List.inj_on_of_nodup_map hl h hm rfl)
    subst this
    rw [he] at he'; cases he'

/-- Two maps that look alike under `e`, and a repair of each value of one to the other's: the repaired map is
the other. -/
theorem map_eq_of_map_eq {U : Type} {m n : ExtTreeMap K V} {e : V → U} {g : K → V → V}
    (h : m.map (fun _ => e) = n.map fun _ => e) (hg : ∀ (k : K) v w, n[k]? = some w → e v = e w → g k v = w) : m.map g = n := by
  refine ext_getElem? fun k => ?_
  have hk : m[k]?.map e = n[k]?.map e := by
    have := congrArg (·[k]?) h
    simpa only [getElem?_map] using this
  rw [getElem?_map]
  cases hm : m[k]? with
  | none =>
    rw [hm, map_none, eq_comm, Option.map_eq_none_iff] at hk
    rw [hk, map_none]
  | some v =>
    rw [hm, map_some, eq_comm, Option.map_eq_some_iff] at hk
    obtain ⟨w, hw, hvw⟩ := hk
    rw [hw, map_some, hg k v w hw hvw.symm]

theorem map_congr {m : ExtTreeMap K V} {f g : K → V → W} (h : ∀ (k : K) v, m[k]? = some v → f k v = g k v) :
    m.map f = m.map g := by
  refine ext_getElem? fun k => ?_
  rw [getElem?_map, getElem?_map]
  cases hm : m[k]? with
  | none => rfl
  | some v => rw [map_some, map_some, h k v hm]

theorem map_map_eq {X : Type} {m : ExtTreeMap K V} {f : K → V → W} {g : K → W → X} :
    (m.map f).map g = m.map fun k v => g k (f k v) := by
  refine ext_getElem? fun k => ?_
  rw [getElem?_map, getElem?_map, getElem?_map, Option.map_map]
  rfl

theorem map_insert_eq [DecidableEq K] {m : ExtTreeMap K V} {f : K → V → W} {k : K} {v : V} :
    (m.insert k v).map f = (m.map f).insert k (f k v) := by
  refine ext_getElem? fun j => ?_
  by_cases hj : j = k
  · subst hj; simp
  · rw [getElem?_map, getElem?_insert_of_ne hj, getElem?_insert_of_ne hj, getElem?_map]

theorem map_insertMany_eq [DecidableEq K] {f : K → V → W} : ∀ {l : List (K × V)} {m : ExtTreeMap K V},
    (m.insertMany l).map f = (m.map f).insertMany (l.map fun e => (e.1, f e.1 e.2))
  | [], m => by simp
  | (k, v) :: l, m => by rw [insertMany_cons, map_insertMany_eq, map_insert_eq, List.map_cons, insertMany_cons]

theorem map_ofList [DecidableEq K] {f : K → V → W} : (ofList l).map f = ofList (l.map fun e => (e.1, f e.1 e.2)) := by
  rw [ofList_eq_insertMany_empty, ofList_eq_insertMany_empty, map_insertMany_eq]
  exact congrArg (ExtTreeMap.insertMany · _) (ext_getElem? fun k => by simp)

theorem map_erase_eq [DecidableEq K] {m : ExtTreeMap K V} {f : K → V → W} {k : K} : (m.erase k).map f = (m.map f).erase k := by
  refine ext_getElem? fun j => ?_
  by_cases hj : j = k
  · subst hj; simp
  · rw [getElem?_map, getElem?_erase_of_ne hj, getElem?_erase_of_ne hj, getElem?_map]

theorem filterMap_erase_eq [DecidableEq K] {m : ExtTreeMap K V} {f : K → V → Option W} {k : K} :
    (m.erase k).filterMap f = (m.filterMap f).erase k := by
  refine ext_getElem? fun j => ?_
  by_cases hj : j = k
  · subst hj; simp
  · rw [getElem?_filterMap', getElem?_erase_of_ne hj, getElem?_erase_of_ne hj, getElem?_filterMap']

theorem getElem?_filterMap_insert [DecidableEq K] {m : ExtTreeMap K V} {f : K → V → Option W} {k j : K} {v : V} :
    ((m.insert k v).filterMap f)[j]? = if j = k then f k v else (m.filterMap f)[j]? := by
  rw [getElem?_filterMap', getElem?_filterMap']
  by_cases hj : j = k
  · subst hj; simp
  · rw [getElem?_insert_of_ne hj, if_neg hj]

theorem ofList_map_toList [DecidableEq K] {m : ExtTreeMap K V} {f : K → K} (h : ∀ (k : K) v, m[k]? = some v → f k = k) :
    ofList (m.toList.map fun e => (f e.1, e.2)) = m := by
  have hsame : (m.toList.map fun e => (f e.1, e.2)) = m.toList := by
    conv_rhs => rw [← List.map_id m.toList]
    refine List.map_congr_left fun e he => ?_
    rw [h e.1 e.2 (getElem?_of_mem_toList he)]
    rfl
  have hnodup : (m.toList.map Prod.fst).Nodup := by
    rw [map_fst_toList_eq_keys]
    exact nodup_keys
  rw [hsame]
  refine ext_getElem? fun k => Option.ext fun v => ?_
  rw [getElem?_ofList_eq_some hnodup]
  exact mem_toList_iff_getElem?_eq_some

end Std.ExtTreeMap

namespace AList

variable {K V W X : Type}

/-- Each value of an association list replaced, its key in its place. -/
def mapValues (m : AList fun _ : K => V) (f : K → V → W) : AList fun _ : K => W where
  entries := m.entries.map fun e => ⟨e.1, f e.1 e.2⟩
  nodupKeys := by
    have hkeys : (m.entries.map fun e => (⟨e.1, f e.1 e.2⟩ : (_ : K) × W)).keys = m.entries.keys := by
      simp [List.keys, Function.comp_def]
    rw [List.NodupKeys, hkeys]
    exact m.nodupKeys

theorem mapValues_mapValues {m : AList fun _ : K => V} {f : K → V → W} {g : K → W → X} :
    (m.mapValues f).mapValues g = m.mapValues fun k v => g k (f k v) := by
  refine AList.ext ?_
  simp [mapValues, Function.comp_def]

theorem mapValues_eq_of_mapValues_eq [DecidableEq K] {U : Type} {m n : AList fun _ : K => V} {e : V → U} {g : K → V → V}
    (h : m.mapValues (fun _ => e) = n.mapValues fun _ => e)
    (hg : ∀ k v w, n.lookup k = some w → e v = e w → g k v = w) : m.mapValues g = n := by
  have hall : List.Forall₂ (fun y x : (_ : K) × V => y.1 = x.1 ∧ e y.2 = e x.2) n.entries m.entries := by
    have hent : (n.entries.map fun x => (⟨x.1, e x.2⟩ : (_ : K) × U)) = m.entries.map fun x => ⟨x.1, e x.2⟩ :=
      congrArg AList.entries h.symm
    rw [← List.forall₂_eq_eq_eq, List.forall₂_map_left_iff, List.forall₂_map_right_iff] at hent
    refine hent.imp fun y x hxy => ?_
    rw [Sigma.mk.injEq] at hxy
    exact ⟨hxy.1, eq_of_heq hxy.2⟩
  have hin : ∀ y ∈ n.entries, n.lookup y.1 = some y.2 := fun y hy => AList.mem_lookup_iff.2 hy
  have hboth := (List.forall₂_and_left _ _).2 ⟨hin, hall⟩
  refine AList.ext ?_
  show (m.entries.map fun x => (⟨x.1, g x.1 x.2⟩ : (_ : K) × V)) = n.entries
  have heq : List.Forall₂ Eq n.entries (m.entries.map fun x => (⟨x.1, g x.1 x.2⟩ : (_ : K) × V)) := by
    refine List.forall₂_map_right_iff.2 (hboth.imp fun y x hyx => ?_)
    obtain ⟨hl, h1, h2⟩ := hyx
    rw [← h1, hg y.1 x.2 y.2 hl h2.symm]
  rw [List.forall₂_eq_eq_eq] at heq
  exact heq.symm

theorem lookup_mapValues [DecidableEq K] {m : AList fun _ : K => V} {f : K → V → W} {k : K} :
    (m.mapValues f).lookup k = (m.lookup k).map (f k) := by
  refine Option.ext fun w => ?_
  rw [← Option.mem_def, AList.mem_lookup_iff, Option.map_eq_some_iff]
  constructor
  · intro h
    obtain ⟨e, he, heq⟩ := List.mem_map.1 h
    obtain ⟨k', v⟩ := e
    rw [Sigma.mk.injEq] at heq
    obtain ⟨rfl, hv⟩ := heq
    exact ⟨v, AList.mem_lookup_iff.2 he, eq_of_heq hv⟩
  · rintro ⟨v, hv, rfl⟩
    exact List.mem_map.2 ⟨⟨k, v⟩, AList.mem_lookup_iff.1 hv, rfl⟩

variable [DecidableEq K]

def push (m : AList fun _ : K => V) (k : K) (v : V) : AList fun _ : K => V where
  entries := (m.erase k).entries ++ [⟨k, v⟩]
  nodupKeys := by
    have hk : k ∉ (m.erase k).keys := fun h => (AList.mem_erase.1 (AList.mem_keys.2 h)).1 rfl
    rw [List.NodupKeys, List.keys, List.map_append, List.nodup_append]
    refine ⟨(m.erase k).nodupKeys, by simp, ?_⟩
    intro a ha b hb hab
    rw [List.map_cons, List.map_nil, List.mem_singleton] at hb
    subst hb hab
    exact hk ha

theorem lookup_push {m : AList fun _ : K => V} {k j : K} {v : V} :
    (m.push k v).lookup j = if j = k then some v else m.lookup j := by
  refine Option.ext fun w => ?_
  rw [← Option.mem_def, AList.mem_lookup_iff]
  show (⟨j, w⟩ : (_ : K) × V) ∈ (m.erase k).entries ++ [⟨k, v⟩] ↔ _
  rw [List.mem_append, List.mem_singleton, ← AList.mem_lookup_iff, Sigma.mk.injEq]
  by_cases hj : j = k
  · subst hj
    simp [AList.lookup_erase, eq_comm]
  · simp [hj, AList.lookup_erase_ne hj]

/-- An entry's key replaced where it stands, in place of another under the new key. -/
def renameKey (m : AList fun _ : K => V) (from_ to_ : K) : AList fun _ : K => V where
  entries := (m.erase to_).entries.map fun e => ⟨if e.1 = from_ then to_ else e.1, e.2⟩
  nodupKeys := by
    have hkeys : ((m.erase to_).entries.map fun e => (⟨if e.1 = from_ then to_ else e.1, e.2⟩ : (_ : K) × V)).keys =
        (m.erase to_).keys.map fun k => if k = from_ then to_ else k := by
      simp [List.keys, AList.keys, Function.comp_def]
    have hto : ∀ k ∈ (m.erase to_).keys, k ≠ to_ := fun k hk => (AList.mem_erase.1 (AList.mem_keys.2 hk)).1
    rw [List.NodupKeys, hkeys]
    refine (m.erase to_).keys_nodup.map_on fun a ha b hb hab => ?_
    have ha := hto a ha
    have hb := hto b hb
    split at hab <;> split at hab <;> simp_all

/-- Under a new name that was free, the entry is what it was under the old one, which is free now. -/
theorem lookup_renameKey {m : AList fun _ : K => V} {from_ to_ j : K} (hto : m.lookup to_ = none) (hne : from_ ≠ to_) :
    (m.renameKey from_ to_).lookup j = if j = to_ then m.lookup from_ else if j = from_ then none else m.lookup j := by
  have hmem : ∀ k w, (⟨k, w⟩ : (_ : K) × V) ∈ (m.erase to_).entries ↔ m.lookup k = some w := by
    intro k w
    rw [← AList.mem_lookup_iff, Option.mem_def]
    by_cases hk : k = to_
    · subst hk; rw [AList.lookup_erase, hto]
    · rw [AList.lookup_erase_ne hk]
  refine Option.ext fun w => ?_
  rw [← Option.mem_def, AList.mem_lookup_iff]
  show (⟨j, w⟩ : (_ : K) × V) ∈ (m.erase to_).entries.map _ ↔ _
  rw [List.mem_map]
  constructor
  · rintro ⟨⟨k, v⟩, hk, heq⟩
    rw [Sigma.mk.injEq] at heq
    obtain ⟨hj, hv⟩ := heq
    obtain rfl := eq_of_heq hv
    rw [hmem] at hk
    have hkto : k ≠ to_ := by rintro rfl; rw [hto] at hk; cases hk
    by_cases hkf : k = from_
    · subst hkf; simp_all
    · rw [if_neg hkf] at hj
      subst hj
      rw [if_neg hkto, if_neg hkf]
      exact hk
  · intro h
    by_cases hj : j = to_
    · rw [if_pos hj] at h
      exact ⟨⟨from_, w⟩, (hmem _ _).2 h, by simp [hj]⟩
    · rw [if_neg hj] at h
      by_cases hjf : j = from_
      · rw [if_pos hjf] at h; cases h
      · rw [if_neg hjf] at h
        exact ⟨⟨j, w⟩, (hmem _ _).2 h, by simp [hjf]⟩

end AList

namespace Std.ExtTreeSet

variable {K : Type} [Ord K] [TransOrd K] [LawfulEqOrd K] {s : ExtTreeSet K}

theorem isEmpty_of_forall (h : ∀ k : K, k ∉ s) : s.isEmpty = true := by
  rw [isEmpty_iff]
  exact ext_mem fun k => iff_of_false (h k) not_mem_empty

theorem nodup_toList : s.toList.Nodup :=
  distinct_toList.imp fun h he => h (by rw [he]; exact ReflOrd.compare_self)

theorem filter_not_contains_eq_empty {t : ExtTreeSet K} (h : ∀ k : K, k ∈ s → k ∈ t) :
    (s.filter fun k => !t.contains k) = ∅ := by
  rw [filter_eq_empty_iff]
  intro k hk
  rw [get_eq, contains_iff_mem.2 (h k hk)]
  rfl

end Std.ExtTreeSet
