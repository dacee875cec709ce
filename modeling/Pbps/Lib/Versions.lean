/-
Versioned properties: a store that keeps each value a property had under the version its writer gave it, and for each
property the chain of its versions. What a reader took down of the versions at one time is what the properties were then,
whatever is written later, and a version is before another in its chain if it was written before.
-/
import Pbps.Lib.Map
import Pbps.Lib.Lists

namespace Versions

open Std (ExtTreeMap TransOrd LawfulEqOrd)
open Option Std.ExtTreeMap

/-! ## Versions -/

/-- A version of a property: what it was at first, or what one writer made it. -/
inductive Version (W : Type) where
  | base
  | after (w : W)
  deriving DecidableEq, Repr

namespace Version

variable {W : Type}

def writer : Version W → Option W
  | .base => none
  | .after w => some w

theorem writer_injective {v v' : Version W} (h : v.writer = v'.writer) : v = v' := by
  cases v <;> cases v' <;> simp_all [writer]

variable [Ord W]

instance : Ord (Version W) := ⟨compareOn writer⟩

instance [TransOrd W] : TransOrd (Version W) := inferInstanceAs (Std.TransCmp (compareOn _))

instance [LawfulEqOrd W] : LawfulEqOrd (Version W) where
  compare_self {v} := by
    show compare v.writer v.writer = .eq
    exact Std.ReflOrd.compare_self
  eq_of_compare h := writer_injective (LawfulEqOrd.eq_of_compare h)

end Version

/-- A property at one of its versions. -/
structure Cell (K W : Type) where
  key : K
  version : Version W
  deriving DecidableEq

namespace Cell

variable {K W : Type} [Ord K] [Ord W]

instance : Ord (Cell K W) := ⟨compareLex (compareOn Cell.key) (compareOn Cell.version)⟩

instance [TransOrd K] [TransOrd W] : TransOrd (Cell K W) := inferInstanceAs (Std.TransCmp (compareLex (compareOn _) (compareOn _)))

instance [LawfulEqOrd K] [LawfulEqOrd W] : LawfulEqOrd (Cell K W) where
  compare_self {c} := by
    show ((compare c.key c.key).then (compare c.version c.version)) = .eq
    rw [Std.ReflOrd.compare_self, Std.ReflOrd.compare_self]
    rfl
  eq_of_compare {a b} h := by
    replace h : ((compare a.key b.key).then (compare a.version b.version)) = .eq := h
    rw [Ordering.then_eq_eq] at h
    have hkey := LawfulEqOrd.eq_of_compare h.1
    have hversion := LawfulEqOrd.eq_of_compare h.2
    cases a; cases b; simp_all

end Cell

/-! ## Logs -/

section Log

variable {K W : Type} [DecidableEq K] {log : List (K × W)} {k : K} {w : W} {v : Version W}

def versions (log : List (K × W)) (k : K) : List (Version W) :=
  .base :: (log.filter (·.1 = k)).map fun e => .after e.2

theorem versions_append (l : List (K × W)) :
    versions (log ++ l) k = versions log k ++ (l.filter (·.1 = k)).map fun e => .after e.2 := by
  simp [versions]

theorem mem_versions : (.after w : Version W) ∈ versions log k ↔ (k, w) ∈ log := by
  simp only [versions, List.mem_cons, reduceCtorEq, false_or, List.mem_map, List.mem_filter, decide_eq_true_eq,
    Version.after.injEq]
  constructor
  · rintro ⟨⟨_, _⟩, ⟨h, rfl⟩, rfl⟩
    exact h
  · exact fun h => ⟨(k, w), ⟨h, rfl⟩, rfl⟩

theorem nodup_versions (h : log.Nodup) : (versions log k).Nodup := by
  refine List.nodup_cons.2 ⟨by simp, ?_⟩
  refine (List.nodup_map_iff_inj_on (h.filter _)).2 fun a ha b hb hab => ?_
  have hak : a.1 = k := by simpa using (List.mem_filter.1 ha).2
  have hbk : b.1 = k := by simpa using (List.mem_filter.1 hb).2
  exact Prod.ext (hak.trans hbk.symm) (Version.after.inj hab)

/-- A version that was the latest before some writes stands before the version of a writer, in the chain there is at last,
just where that writer wrote later. -/
theorem idxOf_latest_lt [DecidableEq W] {later : List (K × W)} (hnodup : (log ++ later).Nodup)
    (hlast : (versions log k).getLast? = some v) :
    (versions (log ++ later) k).idxOf v < (versions (log ++ later) k).idxOf (.after w) ↔ (k, w) ∉ log := by
  have hchain : (versions (log ++ later) k).Nodup := nodup_versions hnodup
  have hv : v ∈ versions log k := List.mem_of_getLast? hlast
  rw [versions_append] at hchain ⊢
  constructor
  · intro hlt hmem
    rw [Position.idxOf_append_lt_left hv (mem_versions.2 hmem)] at hlt
    -- nothing stands after the last
    obtain ⟨l, hl⟩ := List.getLast?_eq_some_iff.1 hlast
    have hnodup' : (l ++ [v]).Nodup := hl ▸ (List.nodup_append.1 hchain).1
    have hbound : (l ++ [v]).idxOf (.after w : Version W) < (l ++ [v]).length :=
      List.idxOf_lt_length_of_mem (hl ▸ mem_versions.2 hmem)
    have hnot : v ∉ l := fun hx => (List.nodup_append.1 hnodup').2.2 v hx v (List.mem_singleton_self _) rfl
    rw [hl, List.idxOf_append_of_notMem hnot, List.idxOf_cons_self] at hlt
    rw [List.length_append, List.length_singleton] at hbound
    omega
  · intro hnot
    exact Position.idxOf_append_lt hv fun hmem => hnot (mem_versions.1 hmem)

end Log

/-! ## The store -/

/-- Every value there was, the versions of each property in their order, and the latest of each. -/
structure Store (K W N : Type) [Ord K] [Ord W] where
  cells : ExtTreeMap (Cell K W) N := ∅
  chains : ExtTreeMap K (List (Version W)) := ∅
  latest : ExtTreeMap K (Version W) := ∅

variable {K W N : Type} [Ord K] [Ord W] [TransOrd K] [TransOrd W]

namespace Store

def start (values : ExtTreeMap K N) : Store K W N where
  cells := values.toList.foldl (fun m e => m.insert ⟨e.1, .base⟩ e.2) ∅
  chains := values.map fun _ _ => [.base]
  latest := values.map fun _ _ => .base

/-- A property that was not there so far was absent at its base version. -/
def ensure (absent : N) (s : Store K W N) (k : K) : Store K W N :=
  if s.latest.contains k then s
  else { s with cells := s.cells.insert ⟨k, .base⟩ absent, chains := s.chains.insert k [.base] }

def put (w : W) (s : Store K W N) (e : K × N) : Store K W N where
  cells := s.cells.insert ⟨e.1, .after w⟩ e.2
  chains := s.chains.insert e.1 (s.chains.getD e.1 [] ++ [.after w])
  latest := s.latest.insert e.1 (.after w)

def write (absent : N) (w : W) (s : Store K W N) (e : K × N) : Store K W N := (s.ensure absent e.1).put w e

end Store

/-! ## What is known -/

/-- What a reader that took down some versions finds in the cells: a property without a version is absent. -/
def Reads (absent : N) (cells : ExtTreeMap (Cell K W) N) (read : ExtTreeMap K (Version W)) (m : K → N) : Prop :=
  ∀ k, match read[k]? with
    | some v => cells[(⟨k, v⟩ : Cell K W)]? = some (m k)
    | none => m k = absent

/-- A store after the writes of a log: its latest versions say what the properties are, each chain is what the log makes it,
and no cell is of a version that is not in its chain. -/
structure Sound [DecidableEq K] (absent : N) (s : Store K W N) (log : List (K × W)) (m : K → N) : Prop where
  reads : Reads absent s.cells s.latest m
  latest : ∀ k : K, s.latest[k]? = s.chains[k]?.bind (·.getLast?)
  chain : ∀ (k : K) c, s.chains[k]? = some c → c = versions log k
  logged : ∀ e ∈ log, ∃ c, s.chains[e.1]? = some c
  cell : ∀ (k : K) (v : Version W) n, s.cells[(⟨k, v⟩ : Cell K W)]? = some n → ∃ c, s.chains[k]? = some c ∧ v ∈ c

def Extends (s t : Store K W N) : Prop :=
  ∀ (c : Cell K W) (n : N), s.cells[c]? = some n → t.cells[c]? = some n

theorem Extends.rfl {s : Store K W N} : Extends s s := fun _ _ h => h

theorem Extends.trans {s t u : Store K W N} (hst : Extends s t) (htu : Extends t u) : Extends s u :=
  fun c n h => htu c n (hst c n h)

section Facts

variable {absent : N} {s t : Store K W N} {log : List (K × W)} {m m' : K → N} {read : ExtTreeMap K (Version W)} {k : K}
  {w : W} {n : N} {v : Version W}

variable {cells : ExtTreeMap (Cell K W) N}

theorem Reads.of_some (h : Reads absent cells read m) (hk : read[k]? = some v) : cells[(⟨k, v⟩ : Cell K W)]? = some (m k) := by
  have := h k
  rwa [hk] at this

theorem Reads.of_none (h : Reads absent cells read m) (hk : read[k]? = none) : m k = absent := by
  have := h k
  rwa [hk] at this

theorem Reads.extends (h : Reads absent s.cells read m) (hst : Extends s t) : Reads absent t.cells read m := by
  intro k
  cases hk : read[k]? with
  | none => exact h.of_none hk
  | some v => exact hst _ _ (h.of_some hk)

theorem Reads.unique (h : Reads absent cells read m) (h' : Reads absent cells read m') : m = m' := by
  funext k
  cases hk : read[k]? with
  | none => rw [h.of_none hk, h'.of_none hk]
  | some v => exact some.inj ((h.of_some hk).symm.trans (h'.of_some hk))

theorem Reads.mem_iff [LawfulEqOrd K] [DecidableEq N] (h : Reads absent cells read m) (hn : n ≠ absent) :
    (∃ v, (k, v) ∈ read.toList ∧ cells[(⟨k, v⟩ : Cell K W)]? = some n) ↔ m k = n := by
  simp only [mem_toList_iff_getElem?_eq_some]
  constructor
  · rintro ⟨v, hv, hc⟩
    exact some.inj ((h.of_some hv).symm.trans hc)
  · intro hm
    cases hk : read[k]? with
    | none => exact absurd (hm.symm.trans (h.of_none hk)) hn
    | some v => exact ⟨v, rfl, hm ▸ h.of_some hk⟩

variable [DecidableEq K]

theorem Sound.latest_eq (h : Sound absent s log m) {c : List (Version W)} (hc : s.chains[k]? = some c) :
    s.latest[k]? = (versions log k).getLast? := by
  rw [h.latest, hc, bind_some, h.chain k c hc]

theorem Sound.no_chain (h : Sound absent s log m) (hk : s.latest[k]? = none) : s.chains[k]? = none := by
  cases hc : s.chains[k]? with
  | none => rfl
  | some c =>
    rw [h.latest_eq hc, List.getLast?_eq_none_iff] at hk
    cases hk

/-! ## One write -/

variable [LawfulEqOrd K] [LawfulEqOrd W]

theorem start_sound (values : ExtTreeMap K N) :
    Sound absent (Store.start (W := W) values) [] fun k => values[k]?.getD absent := by
  classical
  have hcells : ∀ (c : Cell K W) n, (Store.start (W := W) values).cells[c]? = some n ↔ c.version = .base ∧ values[c.key]? = some n := by
    intro c n
    have hkeys : (values.toList.map fun e => (⟨e.1, .base⟩ : Cell K W)).Nodup := by
      have hnodup : (values.toList.map Prod.fst).Nodup := by
        rw [map_fst_toList_eq_keys]
        exact nodup_keys
      have hmap : (values.toList.map fun e => (⟨e.1, .base⟩ : Cell K W)) = (values.toList.map Prod.fst).map (⟨·, .base⟩) := by
        rw [List.map_map]; rfl
      rw [hmap]
      exact hnodup.map fun a b hab => (Cell.mk.inj hab).1
    refine (getElem?_foldl_insert _ _ hkeys).trans ?_
    obtain ⟨k, v⟩ := c
    simp [mem_toList_iff_getElem?_eq_some, and_comm, eq_comm]
  have hchains : ∀ k : K, (Store.start (W := W) values).chains[k]? = values[k]?.map fun _ => [.base] := fun k => by
    rw [Store.start, getElem?_map]
  have hlatest : ∀ k : K, (Store.start (W := W) values).latest[k]? = values[k]?.map fun _ => .base := fun k => by
    rw [Store.start, getElem?_map]
  refine ⟨fun k => ?_, fun k => ?_, fun k c hc => ?_, fun e he => (List.not_mem_nil he).elim, fun k v n hn => ?_⟩
  · rw [hlatest]
    cases hk : values[k]? with
    | none => rfl
    | some n => exact (hcells _ _).2 ⟨rfl, hk⟩
  · rw [hlatest, hchains]
    cases values[k]? <;> rfl
  · rw [hchains] at hc
    obtain ⟨_, -, rfl⟩ := map_eq_some_iff.1 hc
    rfl
  · obtain ⟨hv, hn⟩ := (hcells _ _).1 hn
    obtain rfl : v = .base := hv
    have hn : values[k]? = some n := hn
    exact ⟨[.base], by rw [hchains, hn]; rfl, List.mem_singleton_self _⟩

omit [LawfulEqOrd W] in
theorem Sound.getD_chain (h : Sound absent s log m) (k : K) : (s.ensure absent k).chains.getD k [] = versions log k := by
  rw [getD_eq_getD_getElem?, Store.ensure]
  cases hk : s.latest[k]? with
  | some v =>
    rw [if_pos (contains_iff_exists.2 ⟨v, hk⟩)]
    rw [h.latest] at hk
    obtain ⟨c, hc, -⟩ := bind_eq_some_iff.1 hk
    rw [hc, getD_some, h.chain k c hc]
  | none =>
    rw [if_neg fun hc => by obtain ⟨v, hv⟩ := contains_iff_exists.1 hc; rw [hk] at hv; cases hv]
    have hno : log.filter (·.1 = k) = [] := by
      refine List.filter_eq_nil_iff.2 fun e he hek => ?_
      obtain ⟨c, hc⟩ := h.logged e he
      rw [of_decide_eq_true hek, h.no_chain hk] at hc
      cases hc
    rw [versions, hno]
    simp

omit [LawfulEqOrd W] in
theorem Sound.getElem?_write_chains (h : Sound absent s log m) (a : K) : (s.write absent w (k, n)).chains[a]? =
    if a = k then some (versions log k ++ [.after w]) else s.chains[a]? := by
  rw [Store.write, Store.put]
  dsimp only
  rw [h.getD_chain]
  split
  · next heq => rw [heq, getElem?_insert_self]
  · next hne =>
    rw [getElem?_insert_of_ne hne, Store.ensure]
    split
    · rfl
    · exact getElem?_insert_of_ne hne

omit [LawfulEqOrd W] in
theorem getElem?_write_latest (a : K) : (s.write absent w (k, n)).latest[a]? = if a = k then some (.after w) else s.latest[a]? := by
  have hlatest : (s.ensure absent k).latest = s.latest := by
    rw [Store.ensure]; split <;> rfl
  rw [Store.write, Store.put]
  dsimp only
  rw [hlatest]
  split
  · next heq => rw [heq, getElem?_insert_self]
  · next hne => exact getElem?_insert_of_ne hne

omit [DecidableEq K] in
theorem getElem?_write_cells {c : Cell K W} {x : N} : (s.write absent w (k, n)).cells[c]? = some x ↔
    (c = ⟨k, .after w⟩ ∧ x = n) ∨ (c ≠ ⟨k, .after w⟩ ∧
      ((s.latest[k]? = none ∧ c = ⟨k, .base⟩ ∧ x = absent) ∨ (¬ (s.latest[k]? = none ∧ c = ⟨k, .base⟩) ∧ s.cells[c]? = some x))) := by
  rw [Store.write, Store.put]
  dsimp only
  rw [getElem?_insert_eq_some]
  refine or_congr_right (and_congr_right fun _ => ?_)
  rw [Store.ensure]
  cases hk : s.latest[k]? with
  | some v =>
    rw [if_pos (contains_iff_exists.2 ⟨v, hk⟩)]
    simp
  | none =>
    rw [if_neg fun hc => by obtain ⟨v, hv⟩ := contains_iff_exists.1 hc; rw [hk] at hv; cases hv]
    dsimp only
    rw [getElem?_insert_eq_some]
    simp

/-- A write of a new version keeps the store sound and every earlier read answered. -/
theorem Sound.write (h : Sound absent s log m) (hnew : (k, w) ∉ log) (n : N) :
    Sound absent (s.write absent w (k, n)) (log ++ [(k, w)]) (Function.update m k n) ∧ Extends s (s.write absent w (k, n)) := by
  have hfresh : ∀ x, s.cells[(⟨k, .after w⟩ : Cell K W)]? ≠ some x := by
    intro x hx
    obtain ⟨c, hc, hw⟩ := h.cell k _ x hx
    rw [h.chain k c hc] at hw
    exact hnew (mem_versions.1 hw)
  have hext : Extends s (s.write absent w (k, n)) := by
    intro c x hx
    refine getElem?_write_cells.2 (.inr ⟨fun heq => hfresh x (heq ▸ hx), .inr ⟨?_, hx⟩⟩)
    rintro ⟨hk, rfl⟩
    obtain ⟨c, hc, -⟩ := h.cell k _ x hx
    rw [h.no_chain hk] at hc
    cases hc
  have hself : versions (log ++ [(k, w)]) k = versions log k ++ [.after w] := by simp [versions_append]
  have hother : ∀ a, a ≠ k → versions (log ++ [(k, w)]) a = versions log a := fun a ha => by
    simp [versions_append, Ne.symm ha]
  refine ⟨⟨fun a => ?_, fun a => ?_, fun a c hc => ?_, fun e he => ?_, fun a v x hx => ?_⟩, hext⟩
  · rw [getElem?_write_latest]
    by_cases ha : a = k
    · subst ha
      rw [if_pos rfl, Function.update_self]
      exact getElem?_write_cells.2 (.inl ⟨rfl, rfl⟩)
    · rw [if_neg ha, Function.update_of_ne ha]
      exact (h.reads.extends hext) a
  · rw [getElem?_write_latest, h.getElem?_write_chains]
    split
    · rw [bind_some, List.getLast?_concat]
    · exact h.latest a
  · rw [h.getElem?_write_chains] at hc
    split at hc
    · next ha => rw [ha, hself]; exact (some.inj hc).symm
    · next ha => rw [hother a ha]; exact h.chain a c hc
  · rw [h.getElem?_write_chains]
    rcases List.mem_append.1 he with he | he
    · split
      · exact ⟨_, rfl⟩
      · exact h.logged e he
    · obtain rfl := List.mem_singleton.1 he
      exact ⟨_, if_pos rfl⟩
  · rw [h.getElem?_write_chains]
    rcases getElem?_write_cells.1 hx with ⟨heq, -⟩ | ⟨-, ⟨-, heq, -⟩ | ⟨-, hx⟩⟩
    · obtain ⟨rfl, rfl⟩ := Cell.mk.inj heq
      exact ⟨_, if_pos rfl, by simp⟩
    · obtain ⟨rfl, rfl⟩ := Cell.mk.inj heq
      exact ⟨_, if_pos rfl, by simp [versions]⟩
    · obtain ⟨c, hc, hv⟩ := h.cell a v x hx
      by_cases ha : a = k
      · rw [if_pos ha]
        rw [h.chain a c hc, ha] at hv
        exact ⟨_, rfl, List.mem_append_left _ hv⟩
      · rw [if_neg ha]
        exact ⟨c, hc, hv⟩

/-! ## All the writes of one writer -/

def updated (m : K → N) (news : List (K × N)) : K → N := news.foldl (fun m e => Function.update m e.1 e.2) m

omit [Ord K] [TransOrd K] [LawfulEqOrd K] in
theorem updated_eq : ∀ {news : List (K × N)} {m : K → N}, (news.map (·.1)).Nodup → (∀ e ∈ news, updated m news e.1 = e.2) ∧
    ∀ k ∉ news.map (·.1), updated m news k = m k
  | [], m, _ => ⟨fun e he => (List.not_mem_nil he).elim, fun k _ => rfl⟩
  | e :: news, m, hnodup => by
    obtain ⟨he, hnodup⟩ := List.nodup_cons.1 hnodup
    obtain ⟨hin, hout⟩ := updated_eq (m := Function.update m e.1 e.2) hnodup
    refine ⟨fun x hx => ?_, fun k hk => ?_⟩
    · rcases List.mem_cons.1 hx with rfl | hx
      · exact (hout _ he).trans (Function.update_self ..)
      · exact hin x hx
    · rw [List.map_cons, List.mem_cons, not_or] at hk
      exact (hout k hk.2).trans (Function.update_of_ne hk.1 ..)

theorem Sound.writeAll : ∀ {news : List (K × N)} {s : Store K W N} {log : List (K × W)} {m : K → N}, (news.map (·.1)).Nodup →
    (∀ k ∈ news.map (·.1), (k, w) ∉ log) → Sound absent s log m →
    Sound absent (news.foldl (Store.write absent w) s) (log ++ news.map fun e => (e.1, w)) (updated m news) ∧
      Extends s (news.foldl (Store.write absent w) s)
  | [], _, _, _, _, _, h => ⟨by simpa [updated] using h, Extends.rfl⟩
  | e :: news, s, log, m, hnodup, hnew, h => by
    obtain ⟨he, hnodup⟩ := List.nodup_cons.1 hnodup
    obtain ⟨hwritten, hext⟩ := h.write (hnew e.1 List.mem_cons_self) e.2
    have hrest : ∀ k ∈ news.map (·.1), (k, w) ∉ log ++ [(e.1, w)] := by
      intro k hk hmem
      rcases List.mem_append.1 hmem with hmem | hmem
      · exact hnew k (List.mem_cons_of_mem _ hk) hmem
      · obtain ⟨rfl, -⟩ := Prod.mk.inj (List.mem_singleton.1 hmem)
        exact he hk
    obtain ⟨hsound, hmore⟩ := Sound.writeAll hnodup hrest hwritten
    rw [List.append_assoc] at hsound
    exact ⟨hsound, hext.trans hmore⟩

end Facts

end Versions
