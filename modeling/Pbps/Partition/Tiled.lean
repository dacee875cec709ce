/-
A generated series tiles the key space: its partitions lead from the highest declared end to the end that is asked for, a
step each, and a series is refused only where no such partitions are.
-/
import Pbps.Partition.Generate

namespace Pbps.Partition

open Except (bind_eq_ok_iff)
open Std (ExtTreeMap)
open List

namespace Scheme

variable {α : Type} [LinearOrder α]

/-- The partitions of a series tile the values between its start and its end. -/
structure Tiled (sch : Scheme α) (req : RangeSeriesRequest) (ends : List (TableName × String)) (r : RangeSeries)
    (a b : α) (spans : List (α × α)) : Prop where
  /-- The start is the highest declared end, or `--from` where none is declared. -/
  start : sch.Start req ends a
  until_ : sch.read req.until_ = .ok b
  /-- Each bound reads back as the value it is made from. -/
  reads : Forall₂ (fun p v => sch.read p.from_ = .ok v.1 ∧ sch.read p.to_ = .ok v.2) r.partitions spans
  /-- The values lie end to end from the start to the end, each lower bound below its upper bound. -/
  tiles : Tiling.Tiles a spans b
  oneStep : ∀ v ∈ spans, v.2 = sch.next v.1
  /-- So do the bounds as they are written. -/
  contiguous : r.partitions.IsChain fun p q => p.to_ = q.from_
  first : ∀ p ∈ r.partitions.head?, p.from_ = r.start ∧ ∀ t, sch.read t = .ok a → p.from_ = t
  last : ∀ p ∈ r.partitions.getLast?, p.to_ = req.until_
  names_nodup : (r.partitions.map (·.name)).Nodup
  names_free : ∀ p ∈ r.partitions, req.schema.tables.contains p.name = false ∧ p.name.name.utf8ByteSize ≤ 63
  few : (r.partitions.length : Int) ≤ 2000

variable {sch : Scheme α} {req : RangeSeriesRequest} {ends : List (TableName × String)} {a b : α} {n : ℕ}

theorem Start.exists_read (h : sch.Start req ends a) : ∃ t, sch.read t = .ok a := by
  rcases h with ⟨-, t, -, ht⟩ | ⟨-, ⟨e, -, he⟩, -⟩
  · exact ⟨t, ht⟩
  · exact ⟨e.2, he⟩

theorem onGrid_iterate (h : sch.OnGrid a) (i : ℕ) : sch.OnGrid (sch.next^[i] a) := by
  induction i with
  | zero => exact h
  | succ i ih =>
    rw [Function.iterate_succ_apply']
    exact sch.onGrid_next ih

variable {s t : String}

theorem read_iterate (hs : sch.read s = .ok a) (ht : sch.read t = .ok b) (h : sch.OnGrid a) (hn : sch.next^[n] a = b) {i : ℕ}
    (hi : i ≤ n) : sch.read (sch.spell (sch.next^[i] a)) = .ok (sch.next^[i] a) := by
  have hmono := (Tiling.iterate_strictMono sch.lt_next a).monotone
  exact sch.read_spell hs ht (onGrid_iterate h i) (hmono (Nat.zero_le i)) (hn ▸ hmono hi)

theorem partName_inj (h : partName req s = partName req t) : s = t := by
  have hname := congrArg (fun name : TableName => name.name.toList) h
  simp only [partName, String.toList_append, append_cancel_left_eq] at hname
  exact String.toList_inj.1 hname

/-- The partitions of a run tile what lies between its ends. -/
theorem Run.tiled (h : sch.Run req ends a n) (hne : (sch.result req a n).partitions ≠ []) :
    ∃ b, sch.Tiled req ends (sch.result req a n) a b (Tiling.pieces sch.next a n) := by
  obtain ⟨hstart, b, hb, hgrid, hreaches, hfew, hnamed⟩ := h
  obtain ⟨s, hs⟩ := hstart.exists_read
  have hn : sch.next^[n] a = b := by
    rcases hreaches with ⟨-, hn⟩ | ⟨-, -, rfl⟩
    · exact hn
    · exact absurd rfl hne
  have hread : ∀ i ≤ n, sch.read (sch.spell (sch.next^[i] a)) = .ok (sch.next^[i] a) := fun i hi =>
    read_iterate hs hb hgrid hn hi
  have hmono := (Tiling.iterate_strictMono sch.lt_next a).monotone
  have hparts : (sch.result req a n).partitions =
      (List.range n).map fun i => sch.part req (sch.next^[i] a, sch.next^[i + 1] a) := by
    rw [result, Tiling.pieces_eq_map, map_map]
    rfl
  refine ⟨b, ⟨hstart, hb, ?_, hn ▸ Tiling.tiles_pieces sch.lt_next a n, ?_, ?_, ?_, ?_, ?_, ?_, ?_⟩⟩
  · rw [hparts, Tiling.pieces_eq_map, forall₂_map_left_iff, forall₂_map_right_iff, forall₂_same]
    intro i hi
    have hlt := mem_range.1 hi
    exact ⟨hread i hlt.le, hread (i + 1) hlt⟩
  · intro v hv
    obtain ⟨i, -, rfl⟩ := Tiling.mem_pieces.1 hv
    exact Function.iterate_succ_apply' _ _ _
  · rw [hparts, isChain_iff_getElem]
    intro i hi
    rw [getElem_map, getElem_map, getElem_range, getElem_range]
    rfl
  · intro p hp
    obtain ⟨m, rfl⟩ : ∃ m, n = m + 1 := Nat.exists_eq_succ_of_ne_zero (by rintro rfl; exact hne rfl)
    rw [hparts, range_succ_eq_map, map_cons, List.head?_cons, Option.mem_some_iff] at hp
    rw [← hp]
    exact ⟨rfl, fun t ht => (sch.spell_read ht hgrid).symm⟩
  · intro p hp
    obtain ⟨m, rfl⟩ : ∃ m, n = m + 1 := Nat.exists_eq_succ_of_ne_zero (by rintro rfl; exact hne rfl)
    rw [hparts, range_succ, map_append, map_singleton, List.getLast?_concat, Option.mem_some_iff] at hp
    rw [← hp, sch.spell_read hb (hn ▸ onGrid_iterate hgrid (m + 1)), ← hn]
    rfl
  · rw [hparts, map_map]
    refine Nodup.map_on ?_ nodup_range
    intro i hi j hj hname
    have hle : ∀ k ∈ List.range n, sch.next^[k] a ≤ b := by
      intro k hk
      rw [← hn]
      exact hmono (mem_range.1 hk).le
    exact sch.suffix_inj hs hb hgrid (hle i hi) (hle j hj) (partName_inj hname)
  · intro p hp
    rw [hparts, mem_map] at hp
    obtain ⟨i, hi, rfl⟩ := hp
    obtain ⟨-, hbytes, hfree⟩ := hnamed i (mem_range.1 hi)
    exact ⟨hfree, hbytes⟩
  · rw [hparts, length_map, length_range]
    exact hfew

/-- Why no steps lead from a start to an end: none lands on it, too many do, or a partition on the way has no name. -/
def Refused (sch : Scheme α) (req : RangeSeriesRequest) (a b : α) : Prop :=
  (∀ n, sch.next^[n] a ≠ b) ∨ ∃ n : ℕ, sch.next^[n] a = b ∧
    (2000 < n ∨ ∃ i < n, ¬ sch.Nameable (sch.next^[i] a) ∨ ¬ NameFree req (sch.suffix (sch.next^[i] a)))

theorem exists_leads_iff (hgrid : sch.OnGrid a) (hlt : a < b) : (∃ n, sch.Leads req ends a b n) ↔ ¬ sch.Refused req a b := by
  constructor
  · rintro ⟨n, hleads⟩ (hnone | ⟨m, hm, hbad⟩)
    · rcases hleads.reaches with ⟨-, hn⟩ | ⟨hle, -⟩
      · exact hnone n hn
      · exact absurd hlt (not_lt.2 hle)
    · have hn : sch.next^[n] a = b := by
        rcases hleads.reaches with ⟨-, hn⟩ | ⟨hle, -⟩
        · exact hn
        · exact absurd hlt (not_lt.2 hle)
      obtain rfl : m = n := (Tiling.iterate_strictMono sch.lt_next a).injective (hm.trans hn.symm)
      have hfew : (m : Int) ≤ 2000 := hleads.few
      rcases hbad with hmany | ⟨i, hi, hbad⟩
      · omega
      · rw [← not_and_or] at hbad
        exact hbad (hleads.named i hi)
  · intro hnot
    rw [Refused, not_or, not_forall] at hnot
    obtain ⟨⟨n, hn⟩, hok⟩ := hnot
    rw [not_not] at hn
    refine ⟨n, hgrid, .inl ⟨hlt, hn⟩, ?_, ?_⟩
    · show (n : Int) ≤ 2000
      by_contra hmany
      exact hok ⟨n, hn, .inl (by omega)⟩
    · intro i hi
      by_contra hbad
      exact hok ⟨n, hn, .inr ⟨i, hi, not_and_or.1 hbad⟩⟩

end Scheme

/-! ## The generator -/

/-- The scheme of a key and a step as `--every` writes it. -/
inductive StepsBy (key : Key) (every : String) : {α : Type} → [LinearOrder α] → Scheme α → Prop
  | temporal {step : Step} (hkey : ∀ int, key ≠ .integer int) (hstep : parseStep every = .ok step) :
    StepsBy key every (temporalScheme key step)
  | integer {int : IntType} {step : Int} (hkey : key = .integer int) (hstep : parseIntegerStep int every = .ok step)
    (hpos : 0 < step) : StepsBy key every (integerScheme int step hpos)

variable {req : RangeSeriesRequest} {r : RangeSeries}

theorem series_eq_ok {declared : Declared} (hinspect : inspect req = .ok declared) {α : Type} [LinearOrder α] {sch : Scheme α}
    (hsch : StepsBy declared.key req.every sch) :
    series req = .ok r ↔ ∃ a n, sch.Run req declared.ends a n ∧ r = sch.result req a n := by
  rw [series, hinspect]
  dsimp only [Bind.bind, Except.bind]
  cases hsch with
  | @temporal step hkey hstep =>
    have htemporal : temporal req declared = .ok r ↔ ∃ a n,
        (temporalScheme declared.key step).Run req declared.ends a n ∧ r = (temporalScheme declared.key step).result req a n := by
      rw [temporal_eq_ok]
      constructor
      · rintro ⟨step', hstep', hrun⟩
        obtain rfl : step = step' := Except.ok.inj (hstep.symm.trans hstep')
        exact hrun
      · exact fun hrun => ⟨step, hstep, hrun⟩
    split
    next int hint => exact absurd hint (hkey int)
    all_goals exact htemporal
  | @integer int step hkey hstep hpos =>
    rw [hkey, integers_eq_ok]
    constructor
    · rintro ⟨step', hstep', hpos', hrun⟩
      obtain rfl : step = step' := Except.ok.inj (hstep.symm.trans hstep')
      exact hrun
    · exact fun hrun => ⟨step, hstep, hpos, hrun⟩

theorem exists_stepsBy (h : series req = .ok r) :
    ∃ declared, inspect req = .ok declared ∧ ∃ (α : Type) (_ : LinearOrder α) (sch : Scheme α),
      StepsBy declared.key req.every sch := by
  obtain ⟨declared, hinspect, h⟩ := bind_eq_ok_iff.1 h
  refine ⟨declared, hinspect, ?_⟩
  split at h
  next int hkey =>
    obtain ⟨step, hstep, hpos, -⟩ := integers_eq_ok.1 h
    exact ⟨Int, _, _, .integer hkey hstep hpos⟩
  all_goals
    next hkey =>
      obtain ⟨step, hstep, -⟩ := temporal_eq_ok.1 h
      refine ⟨Civil, _, _, .temporal ?_ hstep⟩
      rw [hkey]
      nofun

/-- A generated series tiles from its start to its end; and where the start and the end are read, the start is on the grid
and before the end, it is refused exactly where no steps lead from the one to the other. -/
theorem series_tiles (req : RangeSeriesRequest) :
    (∀ r, series req = .ok r → r.partitions ≠ [] → ∃ declared, inspect req = .ok declared ∧
      ∃ (α : Type) (_ : LinearOrder α) (sch : Scheme α), StepsBy declared.key req.every sch ∧
        ∃ a b spans, sch.Tiled req declared.ends r a b spans) ∧
    ∀ declared, inspect req = .ok declared → ∀ (α : Type) (_ : LinearOrder α) (sch : Scheme α),
      StepsBy declared.key req.every sch → ∀ a b, sch.Start req declared.ends a → sch.read req.until_ = .ok b →
        sch.OnGrid a → a < b → ((∃ e, series req = .error e) ↔ sch.Refused req a b) := by
  constructor
  · intro r hr hne
    obtain ⟨declared, hinspect, α, _, sch, hsch⟩ := exists_stepsBy hr
    obtain ⟨a, n, hrun, rfl⟩ := (series_eq_ok hinspect hsch).1 hr
    obtain ⟨b, htiled⟩ := hrun.tiled hne
    exact ⟨declared, hinspect, α, _, sch, hsch, a, b, _, htiled⟩
  · intro declared hinspect α _ sch hsch a b hstart hb hgrid hlt
    have hok : (∃ r, series req = .ok r) ↔ ∃ n, sch.Leads req declared.ends a b n := by
      constructor
      · rintro ⟨r, hr⟩
        obtain ⟨a', n, ⟨hstart', b', hb', hleads⟩, -⟩ := (series_eq_ok hinspect hsch).1 hr
        obtain rfl := hstart.unique hstart'
        obtain rfl : b = b' := Except.ok.inj (hb.symm.trans hb')
        exact ⟨n, hleads⟩
      · rintro ⟨n, hleads⟩
        exact ⟨_, (series_eq_ok hinspect hsch).2 ⟨a, n, ⟨hstart, b, hb, hleads⟩, rfl⟩⟩
    rw [Scheme.exists_leads_iff hgrid hlt] at hok
    cases hseries : series req with
    | ok r =>
      have := hok.1 ⟨r, hseries⟩
      simp [this]
    | error e =>
      have : sch.Refused req a b := by
        by_contra hnot
        obtain ⟨r, hr⟩ := hok.2 hnot
        rw [hseries] at hr
        cases hr
      simp [this]

namespace Ev

def name (table : String) : TableName := ⟨"app", table⟩

def parent : Table :=
  { columns := (∅ : IndexMap ColumnName Column).insert "at" { ty := { base := "date" } }
    partitionBy := some { columns := ["at"] } }

def january : Table :=
  { partitionOf := some { parent := name "ev", bound := .range [.value "2027-01-01"] [.value "2027-02-01"] } }

def months : RangeSeriesRequest :=
  { schema := { tables := (ExtTreeMap.ofList [(name "ev", parent), (name "ev_2027_01", january)] : ExtTreeMap TableName Table) }
    parent := name "ev"
    every := "1month"
    until_ := "2027-04-01" }

def monthStep : Step := StepUnit.month.step 1 (by decide)

def added : RangeSeries :=
  ⟨"2027-02-01", [⟨name "ev_2027_02", "2027-02-01", "2027-03-01"⟩, ⟨name "ev_2027_03", "2027-03-01", "2027-04-01"⟩]⟩

/-- February and March. -/
theorem series_tiles_months : (∃ declared, inspect months = .ok declared ∧ ∃ (α : Type) (_ : LinearOrder α) (sch : Scheme α),
      StepsBy declared.key months.every sch ∧ ∃ a b spans, sch.Tiled months declared.ends added a b spans) ∧
      ((∃ e, series months = .error e) ↔
        (temporalScheme .date monthStep).Refused months ⟨2027, 2, 1, 0, 0⟩ ⟨2027, 4, 1, 0, 0⟩) := by
  have hinspect : inspect months = .ok ⟨.date, [(name "ev_2027_01", "2027-02-01")]⟩ := rfl
  have hseries : series months = .ok added := by decide
  have hstart : readCivil .date "2027-02-01" = .ok ⟨2027, 2, 1, 0, 0⟩ := by decide
  have hend : readCivil .date "2027-04-01" = .ok ⟨2027, 4, 1, 0, 0⟩ := by decide
  have hstep : parseStep "1month" = .ok monthStep := rfl
  have hgrid : Mode.OnGrid .months ⟨2027, 2, 1, 0, 0⟩ := by decide
  refine ⟨(series_tiles months).1 added hseries (by decide), ?_⟩
  refine (series_tiles months).2 _ hinspect Civil _ _ (.temporal nofun hstep) _ _ ?_ hend hgrid (by decide)
  refine .inr ⟨rfl, ⟨_, mem_cons_self, hstart⟩, ?_⟩
  intro e he
  rw [mem_singleton.1 he]
  exact ⟨_, hstart, le_refl _⟩

end Ev

end Pbps.Partition
