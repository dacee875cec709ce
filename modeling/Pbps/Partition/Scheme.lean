/-
What a series is: the values that a repeated step lands on from a start, each two in a row the bound of one partition.
The abstract series is over any ordered values that are read, spelled and named; the two generators make it at theirs.
-/
import Pbps.Partition.Printed
import Pbps.Partition.Series

namespace Pbps.Partition

open List Except

/-- What a series needs to know of a key and a step: how bounds are read and spelled, what one step later is, where a
series may stand, and how its partitions are named. -/
structure Scheme (α : Type) [LinearOrder α] where
  read : String → Except Unread α
  spell : α → String
  next : α → α
  OnGrid : α → Prop
  suffix : α → String
  /-- Whether a lower bound has a name at all. -/
  Nameable : α → Prop
  lt_next : ∀ a, a < next a
  onGrid_next : ∀ {a}, OnGrid a → OnGrid (next a)
  /-- What lies between two bounds is spelled as a bound. -/
  read_spell : ∀ {s t a b c}, read s = .ok a → read t = .ok b → OnGrid c → a ≤ c → c ≤ b → read (spell c) = .ok c
  /-- A bound has one spelling. -/
  spell_read : ∀ {t a}, read t = .ok a → OnGrid a → t = spell a
  /-- Partitions of one series are named apart. -/
  suffix_inj : ∀ {s t a b i j}, read s = .ok a → read t = .ok b → OnGrid a → next^[i] a ≤ b → next^[j] a ≤ b →
    suffix (next^[i] a) = suffix (next^[j] a) → i = j

def partName (req : RangeSeriesRequest) (suffix : String) : TableName :=
  ⟨req.parent.schema, req.parent.name ++ "_" ++ suffix⟩

def NameFree (req : RangeSeriesRequest) (suffix : String) : Prop :=
  (partName req suffix).name.utf8ByteSize ≤ Pg.MAX_IDENT_BYTES ∧ req.schema.tables.contains (partName req suffix) = false

theorem named_eq_ok {req : RangeSeriesRequest} {suffix : String} {name : TableName} :
    named req suffix = .ok name ↔ name = partName req suffix ∧ NameFree req suffix := by
  show (if (partName req suffix).name.utf8ByteSize > Pg.MAX_IDENT_BYTES then _
    else if req.schema.tables.contains (partName req suffix) = true then _ else Except.ok (partName req suffix)) = _ ↔ _
  unfold NameFree
  split_ifs with hlong htaken
  · simp only [false_iff, not_and]
    omega
  · simp [htaken]
  · simp [eq_comm, Nat.not_lt.1 hlong, htaken]

namespace Scheme

variable {α : Type} [LinearOrder α] (sch : Scheme α) (req : RangeSeriesRequest)

/-- A value is what a series starts at: the highest declared end, or `--from` where no end is declared. -/
def Start (ends : List (TableName × String)) (a : α) : Prop :=
  (ends = [] ∧ ∃ t, req.from_ = some t ∧ sch.read t = .ok a) ∨
    (req.from_ = none ∧ (∃ e ∈ ends, sch.read e.2 = .ok a) ∧ ∀ e ∈ ends, ∃ b, sch.read e.2 = .ok b ∧ b ≤ a)

def part (p : α × α) : SeriesPartition := ⟨partName req (sch.suffix p.1), sch.spell p.1, sch.spell p.2⟩

/-- `n` steps lead from the start `a` to the end `b`. -/
structure Leads (ends : List (TableName × String)) (a b : α) (n : ℕ) : Prop where
  onGrid : sch.OnGrid a
  /-- The steps end where they should, or that is reached without one. -/
  reaches : a < b ∧ sch.next^[n] a = b ∨ b ≤ a ∧ ends ≠ [] ∧ n = 0
  few : (n : Int) ≤ MAX_PER_RUN
  named : ∀ i < n, sch.Nameable (sch.next^[i] a) ∧ NameFree req (sch.suffix (sch.next^[i] a))

/-- `n` steps from `a` are the series that is asked for. -/
def Run (ends : List (TableName × String)) (a : α) (n : ℕ) : Prop :=
  sch.Start req ends a ∧ ∃ b, sch.read req.until_ = .ok b ∧ sch.Leads req ends a b n

def result (a : α) (n : ℕ) : RangeSeries := ⟨sch.spell a, (Tiling.pieces sch.next a n).map (sch.part req)⟩

variable {sch req}

/-! ## Where a series starts -/

theorem of_foldlM_higher : ∀ {ends : List (TableName × String)} {f g : Option (α × TableName × String)},
    ends.foldlM (higher sch.read) f = .ok g →
      (∀ e ∈ ends, ∃ b, sch.read e.2 = .ok b ∧ ∃ v was, g = some (v, was) ∧ b ≤ v) ∧
        (g = f ∨ ∃ v, ∃ e ∈ ends, g = some (v, e) ∧ sch.read e.2 = .ok v) ∧
          ∀ w was, f = some (w, was) → ∃ v was', g = some (v, was') ∧ w ≤ v
  | [], f, g, h => by
    obtain rfl := ok.inj h
    exact ⟨by simp, .inl rfl, fun w was hw => ⟨w, was, hw, le_refl w⟩⟩
  | e :: ends, f, g, h => by
    rw [foldlM_cons] at h
    obtain ⟨f', hstep, h⟩ := bind_eq_ok_iff.1 h
    obtain ⟨hall, hg, hup⟩ := of_foldlM_higher h
    unfold higher at hstep
    split at hstep
    · cases hstep
    next b hread =>
      -- The step's frontier is this end or the one before, and no lower than either.
      obtain ⟨v', was', rfl, hb, hf, hsome⟩ : ∃ v' was', f' = some (v', was') ∧ b ≤ v' ∧
          (f' = f ∨ v' = b ∧ was' = e) ∧ ∀ w was, f = some (w, was) → w ≤ v' := by
        cases f with
        | none =>
          obtain rfl := ok.inj hstep
          exact ⟨b, e, rfl, le_refl b, .inr ⟨rfl, rfl⟩, nofun⟩
        | some p =>
          obtain ⟨best, was⟩ := p
          obtain rfl := ok.inj hstep
          by_cases hlt : best < b
          · exact ⟨b, e, if_pos hlt, le_refl b, .inr ⟨rfl, rfl⟩, fun w was hw => by cases hw; exact hlt.le⟩
          · exact ⟨best, was, if_neg hlt, not_lt.1 hlt, .inl (if_neg hlt), fun w was hw => by cases hw; exact le_refl _⟩
      obtain ⟨v, was, hv, hle⟩ := hup v' was' rfl
      refine ⟨?_, ?_, ?_⟩
      · rw [forall_mem_cons]
        exact ⟨⟨b, hread, v, was, hv, hb.trans hle⟩, hall⟩
      · rcases hg with rfl | ⟨w, e', he', hg⟩
        · rcases hf with hf | ⟨rfl, rfl⟩
          · exact .inl hf
          · exact .inr ⟨_, _, mem_cons_self, rfl, hread⟩
        · exact .inr ⟨w, e', mem_cons_of_mem _ he', hg⟩
      · intro w was'' hw
        exact ⟨v, was, hv, (hsome w was'' hw).trans hle⟩

theorem exists_foldlM_higher : ∀ {ends : List (TableName × String)} (f : Option (α × TableName × String)),
    (∀ e ∈ ends, ∃ b, sch.read e.2 = .ok b) → ∃ g, ends.foldlM (higher sch.read) f = .ok g
  | [], f, _ => ⟨f, rfl⟩
  | e :: ends, f, h => by
    obtain ⟨⟨b, hb⟩, h⟩ := forall_mem_cons.1 h
    obtain ⟨f', hf'⟩ : ∃ f', higher sch.read f e = .ok f' := by
      unfold higher
      rw [hb]
      cases f with
      | none => exact ⟨_, rfl⟩
      | some p => exact ⟨_, rfl⟩
    obtain ⟨g, hg⟩ := exists_foldlM_higher f' h
    exact ⟨g, by rw [foldlM_cons]; exact bind_eq_ok_iff.2 ⟨f', hf', hg⟩⟩

variable {ends : List (TableName × String)} {a : α}

theorem start_of_startOf {f : Option (α × TableName × String)} {key : Key} {text : String} {origin : Origin}
    (hf : ends.foldlM (higher sch.read) none = .ok f) (h : startOf req key sch.read f = .ok (a, text, origin)) :
    sch.Start req ends a ∧ sch.read text = .ok a := by
  obtain ⟨hall, hmem, -⟩ := of_foldlM_higher hf
  unfold startOf at h
  split at h
  next v name t =>
    split at h
    next => cases h
    next hfrom =>
      obtain ⟨rfl, rfl, -⟩ : v = a ∧ t = text ∧ _ := by simpa using ok.inj h
      obtain ⟨w, e, he, hw, hread⟩ : ∃ w, ∃ e ∈ ends, some (v, name, t) = some (w, e) ∧ sch.read e.2 = .ok w := by
        rcases hmem with hnone | hmem
        · cases hnone
        · exact hmem
      obtain ⟨rfl, rfl⟩ := Prod.mk.inj (Option.some.inj hw)
      refine ⟨.inr ⟨hfrom, ⟨_, he, hread⟩, ?_⟩, hread⟩
      intro e' he'
      obtain ⟨b, hb, w, was, hw, hle⟩ := hall e' he'
      obtain ⟨rfl, -⟩ := Prod.mk.inj (Option.some.inj hw)
      exact ⟨b, hb, hle⟩
  next =>
    have hnil : ends = [] := by
      rw [eq_nil_iff_forall_not_mem]
      intro e he
      obtain ⟨b, -, v, was, hnone, -⟩ := hall e he
      cases hnone
    split at h
    next from_ hfrom =>
      split at h
      next => cases h
      next v hread =>
        obtain ⟨rfl, rfl, -⟩ : v = a ∧ from_ = text ∧ _ := by simpa using ok.inj h
        exact ⟨.inl ⟨hnil, _, hfrom, hread⟩, hread⟩
    next => cases h

theorem exists_startOf (key : Key) (h : sch.Start req ends a) :
    ∃ f text origin, ends.foldlM (higher sch.read) none = .ok f ∧ startOf req key sch.read f = .ok (a, text, origin) := by
  rcases h with ⟨rfl, t, hfrom, hread⟩ | ⟨hfrom, ⟨e, he, hread⟩, hall⟩
  · refine ⟨none, t, .from_ t, rfl, ?_⟩
    unfold startOf
    rw [hfrom]
    dsimp only
    rw [hread]
  · obtain ⟨f, hf⟩ : ∃ f, ends.foldlM (higher sch.read) none = .ok f :=
      exists_foldlM_higher none fun e he => (hall e he).imp fun b hb => hb.1
    obtain ⟨hup, hmem, -⟩ := of_foldlM_higher hf
    obtain ⟨b, hb, v, was, rfl, hle⟩ := hup e he
    obtain ⟨w, e', he', hw, hread'⟩ : ∃ w, ∃ e' ∈ ends, some (v, was) = some (w, e') ∧ sch.read e'.2 = .ok w := by
      rcases hmem with hnone | hmem
      · cases hnone
      · exact hmem
    obtain ⟨rfl, rfl⟩ := Prod.mk.inj (Option.some.inj hw)
    obtain rfl : b = a := ok.inj (hb.symm.trans hread)
    -- The highest end is no lower than the start, and no end is higher.
    obtain ⟨b', hb', hle'⟩ := hall _ he'
    obtain rfl : v = b' := ok.inj (hread'.symm.trans hb')
    obtain rfl : b = v := le_antisymm hle hle'
    refine ⟨_, was.2, .partition was.1 was.2, hf, ?_⟩
    unfold startOf
    rw [hfrom]

theorem Start.unique {a' : α} (h : sch.Start req ends a) (h' : sch.Start req ends a') : a = a' := by
  rcases h with ⟨rfl, t, hfrom, hread⟩ | ⟨hfrom, ⟨e, he, hread⟩, hall⟩
  · rcases h' with ⟨-, t', hfrom', hread'⟩ | ⟨-, ⟨e', he', -⟩, -⟩
    · obtain rfl : t = t' := Option.some.inj (hfrom.symm.trans hfrom')
      exact ok.inj (hread.symm.trans hread')
    · cases he'
  · rcases h' with ⟨rfl, -⟩ | ⟨-, ⟨e', he', hread'⟩, hall'⟩
    · cases he
    · obtain ⟨b, hb, hle⟩ := hall e' he'
      obtain ⟨b', hb', hle'⟩ := hall' e he
      obtain rfl : a' = b := ok.inj (hread'.symm.trans hb)
      obtain rfl : a = b' := ok.inj (hread.symm.trans hb')
      exact le_antisymm hle' hle

/-- A generator that goes from a start to an end as the steps lead makes the series that is asked for. -/
theorem exists_run_iff (sch : Scheme α) {key : Key} {r : RangeSeries} {generates : α × String × Origin → α → Prop}
    (h : ∀ s b, sch.read s.2.1 = .ok s.1 → sch.read req.until_ = .ok b →
      (generates s b ↔ ∃ n, sch.Leads req ends s.1 b n ∧ r = sch.result req s.1 n)) :
    (∃ f, ends.foldlM (higher sch.read) none = .ok f ∧ ∃ b, sch.read req.until_ = .ok b ∧
      ∃ s, startOf req key sch.read f = .ok s ∧ generates s b) ↔ ∃ a n, sch.Run req ends a n ∧ r = sch.result req a n := by
  constructor
  · rintro ⟨f, hf, b, hb, ⟨a, text, origin⟩, hs, hgen⟩
    obtain ⟨hstart, hread⟩ := start_of_startOf hf hs
    obtain ⟨n, hleads, hr⟩ := (h _ b hread hb).1 hgen
    exact ⟨a, n, ⟨hstart, b, hb, hleads⟩, hr⟩
  · rintro ⟨a, n, ⟨hstart, b, hb, hleads⟩, hr⟩
    obtain ⟨f, text, origin, hf, hs⟩ := exists_startOf key hstart
    have hread := (start_of_startOf hf hs).2
    exact ⟨f, hf, b, hb, _, hs, (h _ b hread hb).2 ⟨n, hleads, hr⟩⟩

theorem mapM_part_eq_ok (sch : Scheme α) {n : ℕ} {f : ℕ → Except Refusal SeriesPartition} {parts : List SeriesPartition}
    (h : ∀ i < n, ∀ p, f i = .ok p ↔ (sch.Nameable (sch.next^[i] a) ∧ NameFree req (sch.suffix (sch.next^[i] a))) ∧
      p = sch.part req (sch.next^[i] a, sch.next^[i + 1] a)) : (List.range n).mapM f = .ok parts ↔
      (∀ i < n, sch.Nameable (sch.next^[i] a) ∧ NameFree req (sch.suffix (sch.next^[i] a))) ∧
        parts = (Tiling.pieces sch.next a n).map (sch.part req) := by
  rw [mapM_eq_ok_map fun i hi => h i (mem_range.1 hi), Tiling.pieces_eq_map, map_map]
  simp only [mem_range]
  rfl

end Scheme

end Pbps.Partition
