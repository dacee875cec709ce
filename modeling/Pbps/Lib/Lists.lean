/-
Lists: where things stand in one without repeats, lists sorted by a key, values gathered by key, and left folds.
-/
import Mathlib.Data.List.Perm.Subperm
import Mathlib.Data.List.Sort
import Mathlib.Data.List.Dedup

/-! Where things stand in a list without repeats. -/

namespace Position

open List

variable {α : Type} [DecidableEq α] {l : List α} {a b : α}

theorem idxOf_lt_of_pairwise {r : α → α → Prop} (h : l.Pairwise r) (hasymm : ∀ a b, r a b → ¬ r b a) (hab : r a b)
    (ha : a ∈ l) (hb : b ∈ l) : l.idxOf a < l.idxOf b := by
  induction l with
  | nil => cases ha
  | cons c l ih =>
    obtain ⟨hc, hl⟩ := pairwise_cons.1 h
    have hne : a ≠ b := fun heq => hasymm a b hab (heq ▸ hab)
    by_cases hca : c = a
    · subst hca
      rw [idxOf_cons_eq _ rfl, idxOf_cons_ne _ hne]
      exact Nat.succ_pos _
    · have ha := (mem_cons.1 ha).resolve_left (Ne.symm hca)
      have hcb : c ≠ b := by
        rintro rfl
        exact hasymm a c hab (hc a ha)
      rw [idxOf_cons_ne _ hca, idxOf_cons_ne _ hcb]
      exact Nat.succ_lt_succ (ih hl ha ((mem_cons.1 hb).resolve_left (Ne.symm hcb)))

variable {l' : List α}

theorem idxOf_append_lt (ha : a ∈ l) (hb : b ∉ l) : (l ++ l').idxOf a < (l ++ l').idxOf b := by
  rw [idxOf_append_of_mem ha, idxOf_append_of_notMem hb]
  exact Nat.lt_add_right _ (idxOf_lt_length_of_mem ha)

theorem idxOf_append_lt_left (ha : a ∈ l) (hb : b ∈ l) : (l ++ l').idxOf a < (l ++ l').idxOf b ↔ l.idxOf a < l.idxOf b := by
  rw [idxOf_append_of_mem ha, idxOf_append_of_mem hb]

theorem idxOf_append_lt_right (ha : a ∉ l) (hb : b ∉ l) : (l ++ l').idxOf a < (l ++ l').idxOf b ↔ l'.idxOf a < l'.idxOf b := by
  rw [idxOf_append_of_notMem ha, idxOf_append_of_notMem hb]
  exact Nat.add_lt_add_iff_left

theorem idxOf_filter_lt {p : α → Bool} (ha : p a = true) (hb : p b = true) :
    (l.filter p).idxOf a < (l.filter p).idxOf b ↔ l.idxOf a < l.idxOf b := by
  induction l with
  | nil => exact Iff.rfl
  | cons c l ih =>
    by_cases hc : p c = true
    · rw [filter_cons_of_pos hc, idxOf_cons, idxOf_cons, idxOf_cons, idxOf_cons]
      cases c == a <;> cases c == b <;> simp only [cond_true, cond_false, Nat.add_lt_add_iff_right, Nat.zero_lt_succ,
        Nat.not_lt_zero, Nat.lt_irrefl, ih]
    · have hca : c ≠ a := fun heq => hc (heq ▸ ha)
      have hcb : c ≠ b := fun heq => hc (heq ▸ hb)
      rw [filter_cons_of_neg hc, ih, idxOf_cons_ne _ hca, idxOf_cons_ne _ hcb]
      exact Nat.succ_lt_succ_iff.symm

end Position

/-! A list sorted by a key. Where the key tells what is listed, the sorted list is one for all orders of the list. In a chain,
how many others are below is such a key, and what stands side by side has nothing between. -/

namespace List

variable {α κ : Type} [LinearOrder κ] {key : α → κ} {l l' : List α}

/-- The list in the order of a key, what has one key in the order it had. -/
def sortOn (key : α → κ) (l : List α) : List α := l.insertionSort fun a b => key a ≤ key b

theorem sortOn_perm (key : α → κ) (l : List α) : (l.sortOn key).Perm l := perm_insertionSort _ l

theorem mem_sortOn {a : α} : a ∈ l.sortOn key ↔ a ∈ l := (sortOn_perm key l).mem_iff

theorem pairwise_sortOn (key : α → κ) (l : List α) : (l.sortOn key).Pairwise fun a b => key a ≤ key b := by
  have : Std.Total fun a b : α => key a ≤ key b := ⟨fun a b => le_total (key a) (key b)⟩
  have : IsTrans α fun a b => key a ≤ key b := ⟨fun _ _ _ => le_trans⟩
  exact pairwise_insertionSort _ l

theorem sortOn_sortOn (key : α → κ) (l : List α) : (l.sortOn key).sortOn key = l.sortOn key :=
  (pairwise_sortOn key l).insertionSort_eq

theorem sortOn_congr (hkey : ∀ a ∈ l, ∀ b ∈ l, key a = key b → a = b) (h : l.Perm l') : l.sortOn key = l'.sortOn key := by
  have hperm : (l.sortOn key).Perm (l'.sortOn key) := ((sortOn_perm key l).trans h).trans (sortOn_perm key l').symm
  refine hperm.eq_of_pairwise (fun a b ha hb hab hba => ?_) (pairwise_sortOn key l) (pairwise_sortOn key l')
  exact hkey a (mem_sortOn.1 ha) b (h.mem_iff.2 (mem_sortOn.1 hb)) (le_antisymm hab hba)

/-! ## Chains -/

section Chain

variable [PartialOrder α] {a b : α}

theorem countP_lt_countP [DecidableLT α] (hnodup : l.Nodup) (ha : a ∈ l) (hab : a < b) :
    l.countP (· < a) < l.countP (· < b) := by
  have hmem : ∀ {x c : α}, x ∈ l.filter (fun y => y < c) ↔ x ∈ l ∧ x < c := fun {x c} => by simp
  have hbelow : (a :: l.filter fun x => x < a).Nodup :=
    nodup_cons.2 ⟨fun h => lt_irrefl a (hmem.1 h).2, hnodup.filter _⟩
  have hsubset : a :: l.filter (fun x => x < a) ⊆ l.filter fun x => x < b := by
    intro x hx
    rcases mem_cons.1 hx with rfl | hx
    · exact hmem.2 ⟨ha, hab⟩
    · exact hmem.2 ⟨(hmem.1 hx).1, (hmem.1 hx).2.trans hab⟩
  have hlength := (subperm_of_subset hbelow hsubset).length_le
  rw [countP_eq_length_filter, countP_eq_length_filter]
  exact hlength

theorem mem_zip_tail : ∀ {l : List α}, l.Pairwise (· < ·) →
    ((a, b) ∈ l.zip l.tail ↔ a ∈ l ∧ b ∈ l ∧ a < b ∧ ∀ c ∈ l, ¬ (a < c ∧ c < b))
  | [], _ => by simp
  | [x], _ => by
    simp only [tail_cons, zip_nil_right, not_mem_nil, mem_singleton, false_iff, not_and]
    rintro rfl rfl h
    exact absurd h (lt_irrefl _)
  | x :: y :: l, h => by
    obtain ⟨hx, hrest⟩ := pairwise_cons.1 h
    have ih : (a, b) ∈ (y :: l).zip l ↔ _ := mem_zip_tail hrest
    rw [tail_cons, zip_cons_cons, mem_cons, Prod.mk.injEq, ih]
    constructor
    · rintro (⟨rfl, rfl⟩ | ⟨ha, hb, hab, hnone⟩)
      · refine ⟨mem_cons_self, mem_cons_of_mem _ mem_cons_self, hx _ mem_cons_self, fun c hc hbetween => ?_⟩
        rcases mem_cons.1 hc with rfl | hc
        · exact lt_irrefl _ hbetween.1
        rcases mem_cons.1 hc with rfl | hc
        · exact lt_irrefl _ hbetween.2
        · exact lt_asymm hbetween.2 (rel_of_pairwise_cons hrest hc)
      · refine ⟨mem_cons_of_mem _ ha, mem_cons_of_mem _ hb, hab, fun c hc hbetween => ?_⟩
        rcases mem_cons.1 hc with rfl | hc
        · exact lt_asymm hbetween.1 (hx a ha)
        · exact hnone c hc hbetween
    · rintro ⟨ha, hb, hab, hnone⟩
      have hbrest : b ∈ y :: l := by
        rcases mem_cons.1 hb with rfl | hb
        · rcases mem_cons.1 ha with rfl | ha
          · exact absurd hab (lt_irrefl _)
          · exact absurd hab (lt_asymm (hx a ha))
        · exact hb
      rcases mem_cons.1 ha with rfl | ha
      · refine .inl ⟨rfl, ?_⟩
        rcases mem_cons.1 hbrest with rfl | hlater
        · rfl
        · have hy : y < b := rel_of_pairwise_cons hrest hlater
          exact absurd ⟨hx y mem_cons_self, hy⟩ (hnone y (mem_cons_of_mem _ mem_cons_self))
      · exact .inr ⟨ha, hbrest, hab, fun c hc => hnone c (mem_cons_of_mem _ hc)⟩

end Chain

end List

/-! Values gathered by key, as an ordered map of lists gathers them: every key once and in the keys' order, with its values
in the order they came. The keys of the list are distinct exactly if no key gathers two values. -/

namespace Group

open List

variable {K V : Type} [DecidableEq K]

def under (l : List (K × V)) (k : K) : List V := l.filterMap fun e => if e.1 = k then some e.2 else none

def grouped (le : K → K → Bool) (l : List (K × V)) : List (K × List V) :=
  ((l.map (·.1)).dedup.insertionSort fun a b => le a b).map fun k => (k, under l k)

def firsts (le : K → K → Bool) (l : List (K × V)) : List (K × V) :=
  (grouped le l).filterMap fun g => g.2.head?.map (g.1, ·)

variable {le : K → K → Bool} {l : List (K × V)} {k : K}

theorem mem_under {v : V} : v ∈ under l k ↔ (k, v) ∈ l := by
  simp only [under, mem_filterMap]
  constructor
  · rintro ⟨⟨k', v'⟩, he, h⟩
    split at h
    · next hk =>
      cases h
      exact hk ▸ he
    · cases h
  · intro h
    exact ⟨(k, v), h, if_pos rfl⟩

theorem length_under : (under l k).length = (l.map (·.1)).count k := by
  induction l with
  | nil => rfl
  | cons e l ih =>
    rw [under, filterMap_cons, map_cons, count_cons]
    by_cases hk : e.1 = k
    · rw [if_pos hk, if_pos (by simpa using hk)]
      exact congrArg (· + 1) ih
    · rw [if_neg hk, if_neg (by simpa using hk)]
      exact ih

theorem mem_grouped {g : K × List V} : g ∈ grouped le l ↔ g.1 ∈ l.map (·.1) ∧ g.2 = under l g.1 := by
  simp only [grouped, mem_map, mem_insertionSort, mem_dedup]
  constructor
  · rintro ⟨k, hk, rfl⟩
    exact ⟨hk, rfl⟩
  · rintro ⟨hk, hv⟩
    exact ⟨g.1, hk, by rw [← hv]⟩

theorem nodup_iff : (l.map (·.1)).Nodup ↔ ∀ g ∈ grouped le l, ¬ 1 < g.2.length := by
  rw [nodup_iff_count_le_one]
  constructor
  · intro h g hg
    rw [(mem_grouped.1 hg).2, length_under, not_lt]
    exact h g.1
  · intro h k
    by_cases hk : k ∈ l.map (·.1)
    · have hlen := h (k, under l k) (mem_grouped.2 ⟨hk, rfl⟩)
      rwa [length_under, not_lt] at hlen
    · rw [count_eq_zero_of_not_mem hk]
      exact Nat.zero_le 1

variable {e : K × V}

theorem mem_of_mem_firsts (h : e ∈ firsts le l) : e ∈ l := by
  simp only [firsts, mem_filterMap, Option.map_eq_some_iff] at h
  obtain ⟨g, hg, w, hw, rfl⟩ := h
  rw [(mem_grouped.1 hg).2] at hw
  exact mem_under.1 (mem_of_mem_head? hw)

theorem exists_firsts (h : ∃ v, (k, v) ∈ l) : ∃ v, (k, v) ∈ firsts le l := by
  obtain ⟨v, hv⟩ := h
  have hmem : v ∈ under l k := mem_under.2 hv
  obtain ⟨w, hw⟩ : ∃ w, (under l k).head? = some w := by
    cases hu : under l k with
    | nil => rw [hu] at hmem; cases hmem
    | cons w ws => exact ⟨w, rfl⟩
  have hg : (k, under l k) ∈ grouped le l := mem_grouped.2 ⟨mem_map.2 ⟨_, hv, rfl⟩, rfl⟩
  refine ⟨w, mem_filterMap.2 ⟨_, hg, ?_⟩⟩
  rw [hw]
  rfl

theorem mem_firsts (hnodup : (l.map (·.1)).Nodup) : e ∈ firsts le l ↔ e ∈ l := by
  refine ⟨mem_of_mem_firsts, fun h => ?_⟩
  obtain ⟨v, hv⟩ := @exists_firsts K V _ le l e.1 ⟨e.2, h⟩
  have heq : (e.1, v) = e := inj_on_of_nodup_map hnodup (mem_of_mem_firsts hv) h rfl
  rwa [heq] at hv

end Group

/-! Left folds: runs whose steps only ever lose a property, so that a run that still has it had it at every
step, and runs in which one piece alone matters. -/

namespace List

variable {α β : Type*} {f : β → α → β} {P : β → Prop}

theorem foldl_back (back : ∀ b a, P (f b a) → P b) : ∀ (l : List α) (b : β), P (l.foldl f b) → P b
  | [], _, h => h
  | a :: l, b, h => back b a (foldl_back back l (f b a) h)

theorem foldl_idle {Q : α → Prop} (step : ∀ b a, P (f b a) → f b a = b ∧ Q a) :
    ∀ (l : List α) (b : β), P (l.foldl f b) → l.foldl f b = b ∧ ∀ a ∈ l, Q a
  | [], b, _ => ⟨rfl, by simp⟩
  | a :: l, b, h => by
    obtain ⟨h1, h2⟩ := foldl_idle step l (f b a) h
    rw [foldl_cons] at h ⊢
    rw [h1] at h
    obtain ⟨h3, h4⟩ := step b a h
    refine ⟨h1.trans h3, ?_⟩
    rw [forall_mem_cons]
    exact ⟨h4, h2⟩

theorem foldl_of_idle : ∀ {l : List α} {b : β}, (∀ a ∈ l, ∀ b, f b a = b) → l.foldl f b = b
  | [], _, _ => rfl
  | a :: l, b, h => by
    rw [foldl_cons, h a mem_cons_self]
    exact foldl_of_idle fun c hc => h c (mem_cons_of_mem _ hc)

section View

variable {γ δ : Type*} (view : β → δ) {g : γ → List α}

theorem foldl_flatMap_same :
    ∀ {l : List γ} {b : β}, (∀ c ∈ l, ∀ b, view ((g c).foldl f b) = view b) → view ((l.flatMap g).foldl f b) = view b
  | [], _, _ => rfl
  | c :: l, b, h => by
    rw [flatMap_cons, foldl_append, foldl_flatMap_same fun d hd => h d (mem_cons_of_mem _ hd)]
    exact h c mem_cons_self b

/-- A run over the pieces of `l`, where only the piece of `a` can change what `view` shows: it shows
what that piece alone leads to, from a state that shows what the run began with. -/
theorem foldl_flatMap_of_mem {a : γ} :
    ∀ {l : List γ} {b : β}, l.Nodup → a ∈ l → (∀ c ∈ l, c ≠ a → ∀ b, view ((g c).foldl f b) = view b) →
      ∃ b', view b' = view b ∧ view ((l.flatMap g).foldl f b) = view ((g a).foldl f b')
  | c :: l, b, hn, ha, other => by
    obtain ⟨hc, hl⟩ := nodup_cons.1 hn
    rw [flatMap_cons, foldl_append]
    by_cases h : c = a
    · subst h
      refine ⟨b, rfl, foldl_flatMap_same view fun d hd => other d (mem_cons_of_mem _ hd) ?_⟩
      rintro rfl
      exact hc hd
    · have hm : a ∈ l := (mem_cons.1 ha).resolve_left (Ne.symm h)
      have hother : ∀ d ∈ l, d ≠ a → ∀ b, view ((g d).foldl f b) = view b :=
        fun d hd => other d (mem_cons_of_mem _ hd)
      obtain ⟨b', h1, h2⟩ := foldl_flatMap_of_mem hl hm hother (b := (g c).foldl f b)
      exact ⟨b', h1.trans (other c mem_cons_self h b), h2⟩

end View

theorem foldl_flatMap_eq_of_mem {γ : Type*} {g : γ → List α} {a : γ} {l : List γ} {b : β} (hn : l.Nodup) (ha : a ∈ l)
    (other : ∀ c ∈ l, c ≠ a → ∀ b, (g c).foldl f b = b) : (l.flatMap g).foldl f b = (g a).foldl f b := by
  obtain ⟨_, rfl, h⟩ := foldl_flatMap_of_mem id (b := b) hn ha other
  exact h

end List
