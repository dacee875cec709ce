/-
Maps of maps in which no inner map is empty: a pair of keys has at most one value, and a map is what its
pairs say. The operations keep the form: an inner map that loses its last entry goes with it.
-/
import Pbps.Lib.Map

namespace Nested

open Std (ExtTreeMap)
open List Option Bool Std.ExtTreeMap

section Definitions

variable {A K V : Type} [Ord A] [Ord K] [Std.TransOrd A]

variable (m : ExtTreeMap A (ExtTreeMap K V))

def inner (a : A) : ExtTreeMap K V := m[a]?.getD ∅

def NoEmpty : Prop := ∀ (a : A) i, m[a]? = some i → i.isEmpty = false

/-- The inner maps that each entry's value has, where they are not empty. -/
def ofMap {W : Type} (m : ExtTreeMap A W) (f : W → ExtTreeMap K V) : ExtTreeMap A (ExtTreeMap K V) :=
  m.filterMap fun _ w => if (f w).isEmpty then none else some (f w)

def rekey {W : Type} (m : ExtTreeMap A W) (from_ to_ : A) : ExtTreeMap A W :=
  match m[from_]? with
  | none => m
  | some w => (m.erase from_).insert to_ w

variable [Std.TransOrd K]

def value (a : A) (k : K) : Option V := (inner m a)[k]?

/-- `entry(a).or_default().insert(k, v)`. -/
def insert (m : ExtTreeMap A (ExtTreeMap K V)) (a : A) (k : K) (v : V) : ExtTreeMap A (ExtTreeMap K V) :=
  m.insert a ((inner m a).insert k v)

def remove (a : A) (k : K) : ExtTreeMap A (ExtTreeMap K V) :=
  match m[a]? with
  | none => m
  | some i => if (i.erase k).isEmpty then m.erase a else m.insert a (i.erase k)

def set (a : A) (k : K) (v : Option V) : ExtTreeMap A (ExtTreeMap K V) :=
  match v with
  | some v => insert m a k v
  | none => m

/-- `rekey` within one inner map. -/
def rekeyInner (a : A) (from_ to_ : K) : ExtTreeMap A (ExtTreeMap K V) :=
  match m[a]? with
  | none => m
  | some i => m.insert a (rekey i from_ to_)

end Definitions

/-! ## Nothing recorded -/

section Empty

variable {A K V : Type} [Ord A] [Ord K] [Std.TransOrd A] [Std.TransOrd K]

omit [Ord K] [Std.TransOrd K] in
@[simp] theorem rekey_empty (from_ to_ : A) : rekey (∅ : ExtTreeMap A V) from_ to_ = ∅ := by
  simp [rekey]

@[simp] theorem remove_empty (a : A) (k : K) : remove (∅ : ExtTreeMap A (ExtTreeMap K V)) a k = ∅ := by
  simp [remove]

@[simp] theorem rekeyInner_empty (a : A) (from_ to_ : K) : rekeyInner (∅ : ExtTreeMap A (ExtTreeMap K V)) a from_ to_ = ∅ := by
  simp [rekeyInner]

end Empty

/-! ## Single maps -/

section Single

variable {K V : Type} [Ord K] [Std.TransOrd K] [Std.LawfulEqOrd K] {i : ExtTreeMap K V} {from_ to_ k : K}

theorem isEmpty_eq_false_iff : i.isEmpty = false ↔ ∃ (k : K) (v : V), i[k]? = some v := by
  rw [eq_false_iff]
  constructor
  · intro h
    by_contra hno
    refine h (isEmpty_of_forall fun k => ?_)
    cases hk : i[k]? with
    | none => rfl
    | some v => exact absurd ⟨k, v, hk⟩ hno
  · rintro ⟨k, v, h⟩ he
    rw [ExtTreeMap.isEmpty_iff] at he
    rw [he, getElem?_empty] at h
    cases h

theorem getElem?_rekey [DecidableEq K] : (rekey i from_ to_)[k]? =
    match i[from_]? with
    | none => i[k]?
    | some v => if k = to_ then some v else if k = from_ then none else i[k]? := by
  unfold rekey
  cases i[from_]? with
  | none => rfl
  | some v =>
    by_cases h1 : k = to_
    · subst h1; simp
    · dsimp only
      rw [if_neg h1, getElem?_insert_of_ne h1]
      by_cases h2 : k = from_
      · subst h2; simp
      · rw [if_neg h2, getElem?_erase_of_ne h2]

end Single

/-! ## The form -/

section Form

variable {A K V : Type} [Ord A] [Ord K] [Std.TransOrd A] {m n : ExtTreeMap A (ExtTreeMap K V)} {a b : A}
  {i : ExtTreeMap K V} {j k : K}

theorem NoEmpty.union (hm : NoEmpty m) (hn : NoEmpty n) : NoEmpty (m ∪ n) := by
  intro b j hj
  rw [getElem?_union, or_eq_some_iff] at hj
  rcases hj with hj | ⟨-, hj⟩
  · exact hn b j hj
  · exact hm b j hj

variable [Std.LawfulEqOrd A]

theorem NoEmpty.insert_map (hm : NoEmpty m) (hi : i.isEmpty = false) : NoEmpty (m.insert a i) := by
  intro b j hj
  rw [getElem?_insert_eq_some] at hj
  rcases hj with ⟨-, rfl⟩ | ⟨-, hj⟩
  · exact hi
  · exact hm b j hj

theorem NoEmpty.erase (hm : NoEmpty m) : NoEmpty (m.erase a) := by
  intro b j hj
  rw [getElem?_erase_eq_some] at hj
  exact hm b j hj.2

theorem NoEmpty.rekey {from_ to_ : A} (hm : NoEmpty m) : NoEmpty (rekey m from_ to_) := by
  unfold Nested.rekey
  split
  · exact hm
  · next i hi => exact hm.erase.insert_map (hm from_ i hi)

theorem getElem?_ofMap {W : Type} {t : ExtTreeMap A W} {f : W → ExtTreeMap K V} : (ofMap t f)[a]? = t[a]?.bind fun w => if (f w).isEmpty then none else some (f w) := by
  rw [ofMap, getElem?_filterMap']

theorem noEmpty_ofMap {W : Type} {t : ExtTreeMap A W} {f : W → ExtTreeMap K V} : NoEmpty (ofMap t f) := by
  intro a i h
  rw [getElem?_ofMap, bind_eq_some_iff] at h
  obtain ⟨w, -, h⟩ := h
  split at h
  · cases h
  · next he => cases h; exact eq_false_iff.2 he

variable [DecidableEq A]

theorem inner_insert_map : inner (m.insert a i) b = if b = a then i else inner m b := by
  unfold inner
  split
  · next h => subst h; simp
  · next h => rw [getElem?_insert_of_ne h]

variable [Std.TransOrd K]

theorem value_erase : value (m.erase a) b j = if b = a then none else value m b j := by
  unfold value inner
  split
  · next h => subst h; simp
  · next h => rw [getElem?_erase_of_ne h]

theorem value_insert_map : value (m.insert a i) b j = if b = a then i[j]? else value m b j := by
  rw [value, inner_insert_map]
  split <;> rfl

theorem value_rekey {from_ to_ : A} (hto : m[to_]? = none) : value (rekey m from_ to_) b j =
    if b = to_ then value m from_ j else if b = from_ then none else value m b j := by
  unfold rekey
  cases hf : m[from_]? with
  | none =>
    have h1 : value m from_ j = none := by simp [value, inner, hf]
    have h2 : value m to_ j = none := by simp [value, inner, hto]
    dsimp only
    split
    · next h => subst h; rw [h1]; exact h2
    · split
      · next h => subst h; exact h1
      · rfl
  | some i =>
    have h1 : value m from_ j = i[j]? := by simp [value, inner, hf]
    dsimp only
    rw [value_insert_map, value_erase, h1]

omit [DecidableEq A] in
theorem NoEmpty.remove (hm : NoEmpty m) : NoEmpty (remove m a k) := by
  unfold Nested.remove
  split
  · exact hm
  · split
    · exact hm.erase
    · next he => exact hm.insert_map (eq_false_iff.2 he)

end Form

/-! ## What the operations leave -/

section Laws

variable {A K V : Type} [Ord A] [Ord K] [Std.TransOrd A] [Std.TransOrd K] [Std.LawfulEqOrd A] [Std.LawfulEqOrd K]
  {m n : ExtTreeMap A (ExtTreeMap K V)} {a b : A} {k j : K} {v : V} {i : ExtTreeMap K V}

theorem ext (hm : NoEmpty m) (hn : NoEmpty n) (h : ∀ a k, value m a k = value n a k) : m = n := by
  have hin : ∀ a : A, inner m a = inner n a := fun a => ExtTreeMap.ext_getElem? fun k => h a k
  have hsome : ∀ {m : ExtTreeMap A (ExtTreeMap K V)}, NoEmpty m → ∀ a : A,
      m[a]? = if (inner m a).isEmpty then none else some (inner m a) := by
    intro m hm a
    unfold inner
    cases ha : m[a]? with
    | none => simp
    | some i => simp [hm a i ha]
  refine ExtTreeMap.ext_getElem? fun a => ?_
  rw [hsome hm a, hsome hn a, hin a]

theorem NoEmpty.insert (hm : NoEmpty m) : NoEmpty (insert m a k v) :=
  hm.insert_map (isEmpty_eq_false_iff.2 ⟨k, v, getElem?_insert_self⟩)

theorem NoEmpty.rekeyInner [DecidableEq K] {from_ to_ : K} (hm : NoEmpty m) : NoEmpty (rekeyInner m a from_ to_) := by
  unfold Nested.rekeyInner
  split
  · exact hm
  · next i hi =>
    refine hm.insert_map (isEmpty_eq_false_iff.2 ?_)
    obtain ⟨k, v, hk⟩ := isEmpty_eq_false_iff.1 (hm a i hi)
    cases hf : i[from_]? with
    | none => exact ⟨k, v, by rw [getElem?_rekey, hf]; exact hk⟩
    | some w => exact ⟨to_, w, by rw [getElem?_rekey, hf]; simp⟩

section Values

variable [DecidableEq A] [DecidableEq K]

theorem value_insert : value (insert m a k v) b j = if b = a ∧ j = k then some v else value m b j := by
  rw [insert, value_insert_map]
  by_cases hb : b = a
  · subst hb
    by_cases hj : j = k
    · subst hj; simp
    · simp [hj, getElem?_insert_of_ne hj, value]
  · simp [hb]

theorem value_remove : value (remove m a k) b j = if b = a ∧ j = k then none else value m b j := by
  unfold remove
  cases ha : m[a]? with
  | none =>
    dsimp only
    split
    · next h => obtain ⟨rfl, rfl⟩ := h; simp [value, inner, ha]
    · rfl
  | some i =>
    have hval : ∀ j, value m a j = i[j]? := fun j => by simp [value, inner, ha]
    have herase : (i.erase k)[j]? = if j = k then none else i[j]? := by
      split
      · next h => subst h; simp
      · next h => exact getElem?_erase_of_ne h
    have hset : value (if (i.erase k).isEmpty then m.erase a else m.insert a (i.erase k)) b j =
        if b = a then (i.erase k)[j]? else value m b j := by
      split
      · next he =>
        rw [value_erase, ExtTreeMap.isEmpty_iff.1 he, getElem?_empty]
      · rw [value_insert_map]
    dsimp only
    rw [hset]
    by_cases hb : b = a
    · subst hb
      rw [if_pos rfl, herase, ← hval]
      simp
    · simp [hb]

theorem value_rekeyInner {from_ to_ : K} : value (rekeyInner m a from_ to_) b j =
    if b = a then
      match value m a from_ with
      | none => value m a j
      | some v => if j = to_ then some v else if j = from_ then none else value m a j
    else value m b j := by
  unfold rekeyInner
  cases ha : m[a]? with
  | none =>
    dsimp only
    split
    · next h => subst h; simp [value, inner, ha]
    · rfl
  | some i =>
    have hval : ∀ j, value m a j = i[j]? := fun j => by simp [value, inner, ha]
    dsimp only
    rw [value_insert_map, getElem?_rekey, hval, hval]

end Values

/-! ## Maps made from a map -/

section OfMap

variable {W : Type} {t t' : ExtTreeMap A W} {f : W → ExtTreeMap K V} {w w' : W}

omit [Std.LawfulEqOrd K] in
theorem value_ofMap : value (ofMap t f) a k = t[a]?.bind fun w => (f w)[k]? := by
  rw [value, inner, getElem?_ofMap]
  cases t[a]? with
  | none => simp
  | some w =>
    simp only [bind_some]
    split
    · next he =>
      rw [ExtTreeMap.isEmpty_iff.1 he]
      simp
    · rfl

theorem ofMap_congr (h : ∀ a : A, t[a]?.map f = t'[a]?.map f) : ofMap t f = ofMap t' f := by
  refine ext noEmpty_ofMap noEmpty_ofMap fun a k => ?_
  have := congrArg (Option.bind · (·[k]?)) (h a)
  simp only [bind_map, Function.comp_def] at this
  rw [value_ofMap, value_ofMap, this]

variable [DecidableEq A]

theorem ofMap_insert_same (ha : t[a]? = some w) (hf : f w' = f w) : ofMap (t.insert a w') f = ofMap t f := by
  refine ofMap_congr fun b => ?_
  by_cases hb : b = a
  · subst hb; rw [ha, getElem?_insert_self, map_some, map_some, hf]
  · rw [getElem?_insert_of_ne hb]

variable [DecidableEq K]

theorem ofMap_insert_insert (ha : t[a]? = some w) (hf : f w' = (f w).insert k v) :
    ofMap (t.insert a w') f = insert (ofMap t f) a k v := by
  refine ext noEmpty_ofMap noEmpty_ofMap.insert fun b j => ?_
  rw [value_insert, value_ofMap, value_ofMap]
  by_cases hb : b = a
  · subst hb
    rw [ha, getElem?_insert_self, bind_some, bind_some, hf]
    by_cases hj : j = k
    · subst hj; simp
    · simp [hj, getElem?_insert_of_ne hj]
  · rw [getElem?_insert_of_ne hb]
    simp [hb]

theorem ofMap_insert_remove (ha : t[a]? = some w) (hf : f w' = (f w).erase k) :
    ofMap (t.insert a w') f = remove (ofMap t f) a k := by
  refine ext noEmpty_ofMap noEmpty_ofMap.remove fun b j => ?_
  rw [value_remove, value_ofMap, value_ofMap]
  by_cases hb : b = a
  · subst hb
    rw [ha, getElem?_insert_self, bind_some, bind_some, hf]
    by_cases hj : j = k
    · subst hj; simp
    · simp [hj, getElem?_erase_of_ne hj]
  · rw [getElem?_insert_of_ne hb]
    simp [hb]

theorem ofMap_insert_set {x : Option V} (ha : t[a]? = some w) (hf : ∀ j : K, (f w')[j]? = if j = k then x else (f w)[j]?) :
    ofMap (t.insert a w') f = set (remove (ofMap t f) a k) a k x := by
  cases x with
  | some v =>
    refine ext noEmpty_ofMap noEmpty_ofMap.remove.insert fun b j => ?_
    rw [set, value_insert, value_remove, value_ofMap, value_ofMap]
    by_cases hb : b = a
    · subst hb
      rw [ha, getElem?_insert_self, bind_some, bind_some, hf]
      by_cases hj : j = k <;> simp [hj]
    · rw [getElem?_insert_of_ne hb]
      simp [hb]
  | none =>
    refine ext noEmpty_ofMap noEmpty_ofMap.remove fun b j => ?_
    rw [set, value_remove, value_ofMap, value_ofMap]
    by_cases hb : b = a
    · subst hb
      rw [ha, getElem?_insert_self, bind_some, bind_some, hf]
      by_cases hj : j = k <;> simp [hj]
    · rw [getElem?_insert_of_ne hb]
      simp [hb]

omit [DecidableEq K] in
theorem ofMap_erase : ofMap (t.erase a) f = (ofMap t f).erase a := by
  refine ext noEmpty_ofMap noEmpty_ofMap.erase fun b j => ?_
  rw [value_erase, value_ofMap, value_ofMap]
  by_cases hb : b = a
  · subst hb; simp
  · rw [if_neg hb, getElem?_erase_of_ne hb]

omit [DecidableEq K] in
theorem ofMap_insert_fresh : ofMap (t.insert a w) f = (ofMap t f).erase a ∪ ofMap ((∅ : ExtTreeMap A W).insert a w) f := by
  refine ext noEmpty_ofMap (noEmpty_ofMap.erase.union noEmpty_ofMap) fun b j => ?_
  rw [value_ofMap, value, inner, getElem?_union, getElem?_ofMap]
  by_cases hb : b = a
  · subst hb
    rw [getElem?_insert_self, getElem?_insert_self, getElem?_erase_self, bind_some,
      bind_some, or_none]
    split
    · next he => rw [ExtTreeMap.isEmpty_iff.1 he]; simp
    · rfl
  · rw [getElem?_insert_of_ne hb, getElem?_insert_of_ne hb, getElem?_erase_of_ne hb,
      getElem?_empty, bind_none, none_or]
    exact (value_ofMap (a := b) (k := j)).symm

omit [DecidableEq K] in
theorem ofMap_rekey_map {from_ to_ : A} {g : A → W → W} (hto : t[to_]? = none) (hg : ∀ a w, f (g a w) = f w) :
    ofMap ((rekey t from_ to_).map g) f = rekey (ofMap t f) from_ to_ := by
  have hto' : (ofMap t f)[to_]? = none := by rw [getElem?_ofMap, hto, bind_none]
  refine ext noEmpty_ofMap noEmpty_ofMap.rekey fun b j => ?_
  rw [value_rekey hto', value_ofMap, value_ofMap, value_ofMap, ExtTreeMap.getElem?_map, getElem?_rekey]
  by_cases hb : b = to_
  · subst hb
    cases hf : t[from_]? <;> simp [hto, hg]
  · by_cases hbf : b = from_
    · subst hbf
      cases hf : t[b]? <;> simp [hb]
    · cases hf : t[from_]? <;> cases t[b]? <;> simp [hb, hbf, hg]

end OfMap

/-! ## One pair of several inner maps -/

section Several

variable [DecidableEq A] [DecidableEq K]

omit [Std.LawfulEqOrd K] [DecidableEq A] [DecidableEq K] in
theorem NoEmpty.foldl_remove (l : List A) (k : K) : ∀ {m : ExtTreeMap A (ExtTreeMap K V)}, NoEmpty m →
    NoEmpty (l.foldl (Nested.remove · · k) m) := by
  induction l with
  | nil => exact fun hm => hm
  | cons a l ih => exact fun hm => ih hm.remove

theorem value_foldl_remove (l : List A) (k : K) : ∀ (m : ExtTreeMap A (ExtTreeMap K V)) (b : A) (j : K),
    value (l.foldl (remove · · k) m) b j = if b ∈ l ∧ j = k then none else value m b j := by
  induction l with
  | nil => intro m b j; simp
  | cons a l ih =>
    intro m b j
    rw [foldl_cons, ih, value_remove]
    by_cases hj : j = k <;> by_cases hb : b = a <;> simp [hj, hb]

omit [DecidableEq A] in
theorem NoEmpty.foldl_rekeyInner (l : List A) (from_ to_ : K) : ∀ {m : ExtTreeMap A (ExtTreeMap K V)}, NoEmpty m →
    NoEmpty (l.foldl (Nested.rekeyInner · · from_ to_) m) := by
  induction l with
  | nil => exact fun hm => hm
  | cons a l ih => exact fun hm => ih hm.rekeyInner

theorem value_foldl_rekeyInner {l : List A} (from_ to_ : K) (hl : l.Nodup) : ∀ (m : ExtTreeMap A (ExtTreeMap K V)) (b : A) (j : K),
    value (l.foldl (rekeyInner · · from_ to_) m) b j = if b ∈ l then value (rekeyInner m b from_ to_) b j else value m b j := by
  induction l with
  | nil => intro m b j; simp
  | cons a l ih =>
    intro m b j
    rw [nodup_cons] at hl
    have hother : ∀ {b : A} (j : K), b ≠ a → value (rekeyInner m a from_ to_) b j = value m b j := by
      intro b j hb
      rw [value_rekeyInner, if_neg hb]
    rw [foldl_cons, ih hl.2]
    by_cases hb : b = a
    · subst hb
      rw [if_neg hl.1, if_pos (mem_cons_self ..)]
    · have hmem : b ∈ a :: l ↔ b ∈ l := by rw [mem_cons]; exact or_iff_right hb
      simp only [hmem, value_rekeyInner, if_true, hother _ hb]

end Several

end Laws

end Nested
