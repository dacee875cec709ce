/-
The two generators make the abstract series: of a date or time key on the calendar, and of an integer key.
-/
import Pbps.Partition.Scheme

namespace Pbps.Partition

open Except

/-! ## Dates and times -/

variable {width : Nat} {m : Int} {r : RangeSeries} {parts : List SeriesPartition} {declared : Declared} {int : IntType}

theorem padded_inj (hwidth : 0 < width) {n : Int} (hm : 0 ≤ m ∧ m < 10 ^ width) (hn : 0 ≤ n ∧ n < 10 ^ width)
    (h : padded width m = padded width n) : m = n := by
  rw [← (padded_spec hwidth hm).2.2, h, (padded_spec hwidth hn).2.2]

theorem Step.iterate_after (step : Step) (c : Civil) (n : ℕ) : step.after^[n] c = step.mode.next^[step.len.toNat * n] c := by
  rw [Step.after, ← Function.iterate_mul]

theorem Step.lt_after (step : Step) (c : Civil) : c < step.after c := by
  have hpos := step.pos
  have hlt := Tiling.iterate_strictMono step.mode.lt_next c (show 0 < step.len.toNat by omega)
  exact hlt

variable {step : Step} {c a b : Civil} {mode : Mode} {key : Key} {req : RangeSeriesRequest}

theorem Step.onGrid_iterate (h : step.mode.OnGrid c) (n : ℕ) : step.mode.OnGrid (step.after^[n] c) ∧
    (position step.mode (step.after^[n] c)).floor = (position step.mode c).floor + n * step.len := by
  rw [step.iterate_after]
  obtain ⟨hgrid, hfloor⟩ := h.iterate (step.len.toNat * n)
  refine ⟨hgrid, ?_⟩
  have hpos := step.pos
  rw [hfloor, Nat.cast_mul, Int.toNat_of_nonneg hpos.le, Int.mul_comm]

theorem Mode.OnGrid.printed (h : mode.OnGrid c) (ha : a.Printed key) (hb : b.Printed key) (hac : a ≤ c) (hcb : c ≤ b) :
    c.Printed key := by
  have h1 := Civil.year_le hac
  have h2 := Civil.year_le hcb
  have hlo := ha.1.1.1
  have hhi := hb.1.1.2
  obtain ⟨hdate, ⟨hsecs, hmicros⟩, -⟩ := h
  refine ⟨⟨⟨hlo.trans h1, h2.trans hhi⟩, hdate⟩, ?_⟩
  cases key with
  | date => exact ⟨hsecs, hmicros⟩
  | timestamp | timestampTz =>
    show (0 ≤ c.secs ∧ c.secs < 86400) ∧ 0 ≤ c.micros ∧ c.micros < 1000000
    omega
  | integer => exact ha.2

theorem Mode.OnGrid.suffix_floor (h : mode.OnGrid c) (unit : StepUnit) :
    suffix unit mode (position mode c).floor =
      match unit with
      | .year => padded 4 c.y
      | .month => padded 4 c.y ++ '_' :: padded 2 c.m
      | .day | .week => padded 4 c.y ++ '_' :: (padded 2 c.m ++ '_' :: padded 2 c.d) := by
  rewrite [suffix, h.ymd_floor]
  cases unit <;> rfl

theorem padded_append_inj (hwidth : 0 < width) {n : Int} (hm : 0 ≤ m ∧ m < 10 ^ width) (hn : 0 ≤ n ∧ n < 10 ^ width) {c : Char}
    {l r : List Char} (h : padded width m ++ c :: l = padded width n ++ c :: r) : m = n ∧ l = r := by
  have hlen : (padded width m).length = (padded width n).length := by
    rw [(padded_spec hwidth hm).1, (padded_spec hwidth hn).1]
  obtain ⟨h1, h2⟩ := List.append_inj h hlen
  exact ⟨padded_inj hwidth hm hn h1, (List.cons.inj h2).2⟩

theorem suffix_inj {p q : Civil} {i j : ℕ} (ha : step.mode.OnGrid a) (hp : step.after^[i] a = p) (hq : step.after^[j] a = q)
    (hpy : 1 ≤ p.y ∧ p.y ≤ 9999) (hqy : 1 ≤ q.y ∧ q.y ≤ 9999)
    (h : suffix step.unit step.mode (position step.mode p).floor = suffix step.unit step.mode (position step.mode q).floor) :
    i = j := by
  obtain ⟨hpgrid, hpfloor⟩ := step.onGrid_iterate ha i
  obtain ⟨hqgrid, hqfloor⟩ := step.onGrid_iterate ha j
  rw [hp] at hpgrid hpfloor
  rw [hq] at hqgrid hqfloor
  obtain ⟨mode, len, unit, hpos, hcounts⟩ := step
  dsimp only at *
  have hsame : (position mode p).floor = (position mode q).floor → i = j := by
    intro hfloor
    rw [hpfloor, hqfloor] at hfloor
    have := Int.eq_of_mul_eq_mul_right hpos.ne' (Int.add_left_cancel hfloor)
    exact_mod_cast this
  have hpm := hpgrid.1.1
  have hqm := hqgrid.1.1
  have hpd := hpgrid.1.2
  have hqd := hqgrid.1.2
  have hplong := daysInMonth_le p.y p.m
  have hqlong := daysInMonth_le q.y q.m
  rw [hpgrid.suffix_floor, hqgrid.suffix_floor] at h
  cases unit with
  | year =>
    -- The months of one year are fewer than a step's.
    obtain ⟨rfl, k, rfl⟩ := hcounts
    have hy := padded_inj (by decide) (by omega) (by omega) h
    refine hsame ?_
    have hwhole : (position .months p).floor - (position .months q).floor = 12 * (((i : Int) - j) * k) := by
      rw [hpfloor, hqfloor]
      ring
    generalize ((i : Int) - j) * k = t at hwhole
    have hpf : (position .months p).floor = p.y * 12 + (p.m - 1) := rfl
    have hqf : (position .months q).floor = q.y * 12 + (q.m - 1) := rfl
    omega
  | month =>
    obtain rfl : mode = .months := hcounts
    obtain ⟨hy, hm⟩ := padded_append_inj (by decide) (by omega) (by omega) h
    have hm := padded_inj (by decide) (by omega) (by omega) hm
    refine hsame ?_
    show p.y * 12 + (p.m - 1) = q.y * 12 + (q.m - 1)
    omega
  | day | week =>
    obtain rfl : mode = .days := by first | exact hcounts | exact hcounts.1
    obtain ⟨hy, hrest⟩ := padded_append_inj (by decide) (by omega) (by omega) h
    obtain ⟨hm, hd⟩ := padded_append_inj (by decide) (by omega) (by omega) hrest
    have hd := padded_inj (by decide) (by omega) (by omega) hd
    refine hsame ?_
    show daysFromCivil p.y p.m p.d = daysFromCivil q.y q.m q.d
    rw [hy, hm, hd]

def temporalScheme (key : Key) (step : Step) : Scheme Civil where
  read := readCivil key
  spell c := String.ofList (fmtCivil key c)
  next := step.after
  OnGrid := step.mode.OnGrid
  suffix c := String.ofList (suffix step.unit step.mode (position step.mode c).floor)
  Nameable _ := True
  lt_next := step.lt_after
  onGrid_next h := (step.onGrid_iterate h 1).1
  read_spell ha hb hc hac hcb :=
    readCivil_eq_ok.2 ⟨rfl, hc.printed (readCivil_eq_ok.1 ha).2 (readCivil_eq_ok.1 hb).2 hac hcb⟩
  spell_read ha _ := (readCivil_eq_ok.1 ha).1
  suffix_inj {s t a b i j} ha hb hgrid hi hj h := by
    have hmono := Tiling.iterate_strictMono step.lt_after a
    have hlo := (readCivil_eq_ok.1 ha).2.1.1.1
    have hhi := (readCivil_eq_ok.1 hb).2.1.1.2
    have hyear : ∀ k : ℕ, step.after^[k] a ≤ b → 1 ≤ (step.after^[k] a).y ∧ (step.after^[k] a).y ≤ 9999 := fun k hk =>
      ⟨hlo.trans (Civil.year_le (hmono.monotone (Nat.zero_le k))), (Civil.year_le hk).trans hhi⟩
    exact suffix_inj hgrid rfl rfl (hyear i hi) (hyear j hj) (String.ofList_injective h)

theorem Mode.OnGrid.spell_floor (h : mode.OnGrid c) (key : Key) : spell key mode (position mode c).floor = fmtCivil key c := by
  have hclock : clockText 0 ++ fractionText 0 = "00:00:00".toList := by decide
  rw [spell, h.ymd_floor]
  cases key with
  | date | integer => rfl
  | timestamp =>
    show dateText c.y c.m c.d ++ _ = dateText c.y c.m c.d ++ ' ' :: (clockText c.secs ++ fractionText c.micros)
    rw [h.2.1.1, h.2.1.2, hclock]
    rfl
  | timestampTz =>
    show dateText c.y c.m c.d ++ _ = dateText c.y c.m c.d ++ ' ' :: (clockText c.secs ++ fractionText c.micros ++ _)
    rw [h.2.1.1, h.2.1.2, hclock]
    rfl

theorem position_above (mode : Mode) (h : c.Printed key) : (position mode c).above = false ↔ mode.OnGrid c := by
  obtain ⟨⟨-, hdate⟩, htime⟩ := h
  have hrange : 0 ≤ c.secs ∧ 0 ≤ c.micros := by
    cases key with
    | date => exact ⟨htime.1.ge, htime.2.ge⟩
    | timestamp | timestampTz => exact ⟨htime.1.1, htime.2.1⟩
    | integer => exact htime.elim
  have hday := hdate.2.1
  cases mode with
  | days =>
    simp [position, Mode.OnGrid, hdate]
    omega
  | months =>
    simp [position, Mode.OnGrid, hdate]
    omega

theorem iterate_after_eq_iff (ha : step.mode.OnGrid a) {n : ℕ} : step.after^[n] a = b ↔ step.mode.OnGrid b ∧
      (position step.mode b).floor - (position step.mode a).floor = n * step.len := by
  obtain ⟨hgrid, hfloor⟩ := step.onGrid_iterate ha n
  constructor
  · rintro rfl
    refine ⟨hgrid, ?_⟩
    rw [hfloor]
    ring
  · rintro ⟨hb, hdiff⟩
    exact hgrid.eq_of_floor hb (by rw [hfloor]; omega)

theorem floor_le (ha : mode.OnGrid a) (hb : mode.OnGrid b) (hle : a ≤ b) :
    (position mode a).floor ≤ (position mode b).floor := by
  obtain ⟨n, rfl⟩ := ha.exists_iterate hb hle
  rw [(ha.iterate n).2]
  omega

theorem temporal_parts (ha : step.mode.OnGrid a) {n : ℕ} :
    ((List.range n).mapM fun (i : Nat) => do
      let name ← named req (String.ofList (suffix step.unit step.mode ((position step.mode a).floor + i * step.len)))
      return (⟨name, String.ofList (spell key step.mode ((position step.mode a).floor + i * step.len)),
        String.ofList (spell key step.mode ((position step.mode a).floor + i * step.len + step.len))⟩ : SeriesPartition)) =
      .ok parts ↔
    (∀ i < n, (temporalScheme key step).Nameable (step.after^[i] a) ∧
      NameFree req ((temporalScheme key step).suffix (step.after^[i] a))) ∧
        parts = (Tiling.pieces step.after a n).map ((temporalScheme key step).part req) := by
  refine Scheme.mapM_part_eq_ok (temporalScheme key step) ?_
  intro i _ p
  obtain ⟨hlo, hlofloor⟩ := step.onGrid_iterate ha i
  obtain ⟨hhi, hhifloor⟩ := step.onGrid_iterate ha (i + 1)
  have hnext : (position step.mode a).floor + i * step.len + step.len = (position step.mode (step.after^[i + 1] a)).floor := by
    rw [hhifloor]
    push_cast
    ring
  rw [hnext, ← hlofloor, hlo.spell_floor, hhi.spell_floor, bind_eq_ok_iff]
  constructor
  · rintro ⟨name, hname, h⟩
    obtain ⟨rfl, hfree⟩ := named_eq_ok.1 hname
    exact ⟨⟨trivial, hfree⟩, (ok.inj h).symm⟩
  · rintro ⟨⟨-, hfree⟩, rfl⟩
    exact ⟨_, named_eq_ok.2 ⟨rfl, hfree⟩, rfl⟩

/-- A temporal series is a run of its scheme. -/
theorem temporal_eq_ok : temporal req declared = .ok r ↔ ∃ step, parseStep req.every = .ok step ∧ ∃ a n,
      (temporalScheme declared.key step).Run req declared.ends a n ∧ r = (temporalScheme declared.key step).result req a n := by
  unfold temporal
  simp only [bind_eq_ok_iff, mapError_eq_ok]
  refine exists_congr fun step => and_congr_right fun hstep => ?_
  refine Scheme.exists_run_iff (temporalScheme declared.key step) ?_
  rintro ⟨a, text, origin⟩ b hread hb
  dsimp only at hread ⊢
  have hgrid := position_above step.mode (readCivil_eq_ok.1 hread).2
  have hgrid' := position_above step.mode (readCivil_eq_ok.1 hb).2
  have hpos := step.pos
  rw [guard_bind_eq_ok, guard_bind_eq_ok, Bool.not_eq_true, hgrid]
  by_cases hle : b ≤ a
  · rw [if_pos hle]
    constructor
    · rintro ⟨hafter, ha, h⟩
      obtain rfl := ok.inj h
      refine ⟨0, ⟨ha, .inr ⟨hle, fun hnil => hafter ⟨hle, hnil⟩, rfl⟩, by decide, nofun⟩, ?_⟩
      rw [(temporalScheme declared.key step).spell_read hread ha]
      rfl
    · rintro ⟨n, ⟨ha, hreaches, -, -⟩, rfl⟩
      rcases hreaches with ⟨hlt, -⟩ | ⟨-, hne, rfl⟩
      · exact absurd hle (not_le.2 hlt)
      · refine ⟨fun h => hne h.2, ha, ?_⟩
        rw [(temporalScheme declared.key step).spell_read hread ha]
        rfl
  · rw [if_neg hle, guard_bind_eq_ok, guard_bind_eq_ok, and_iff_right fun h => hle h.1, not_or, Bool.not_eq_true, hgrid',
      not_not, not_lt]
    have hlt : a < b := not_le.1 hle
    constructor
    · rintro ⟨ha, ⟨hbgrid, hwhole⟩, hcount, h⟩
      have hfloor := floor_le ha hbgrid hlt.le
      obtain ⟨parts, hparts, h⟩ := bind_eq_ok_iff.1 h
      obtain ⟨hnamed, rfl⟩ := (temporal_parts ha).1 hparts
      obtain rfl := ok.inj h
      generalize hn : ((position step.mode b).floor - (position step.mode a).floor) / step.len = count at hwhole hcount
      have hnonneg : 0 ≤ count := by
        rw [← hn]
        exact Int.ediv_nonneg (by omega) hpos.le
      refine ⟨count.toNat, ⟨ha, .inl ⟨hlt, ?_⟩, ?_, ?_⟩, ?_⟩
      · exact (iterate_after_eq_iff ha).2 ⟨hbgrid, by rw [Int.toNat_of_nonneg hnonneg]; omega⟩
      · rwa [Int.toNat_of_nonneg hnonneg]
      · rw [← hn]
        exact hnamed
      · rw [← hn, (temporalScheme declared.key step).spell_read hread ha]
        rfl
    · rintro ⟨n, ⟨ha, hreaches, hfew, hnamed⟩, rfl⟩
      obtain ⟨-, hnext⟩ : a < b ∧ step.after^[n] a = b := by
        rcases hreaches with h | ⟨h, -⟩
        · exact h
        · exact absurd h hle
      obtain ⟨hbgrid, hdiff⟩ := (iterate_after_eq_iff ha).1 hnext
      have hcount : ((position step.mode b).floor - (position step.mode a).floor) / step.len = n := by
        rw [hdiff, Int.mul_ediv_cancel _ hpos.ne']
      rw [hcount]
      refine ⟨ha, ⟨hbgrid, by omega⟩, hfew, bind_eq_ok_iff.2 ⟨_, (temporal_parts ha).2 ⟨hnamed, rfl⟩, ?_⟩⟩
      rw [(temporalScheme declared.key step).spell_read hread ha]
      rfl

/-! ## Integers -/

theorem toString_int_injective {v w : Int} (h : toString v = toString w) : v = w := by
  rw [← integerValue_toString v, h, integerValue_toString]

theorem iterate_add (step v : Int) (n : ℕ) : (· + step)^[n] v = v + n * step := by
  induction n with
  | zero => simp
  | succ n ih =>
    rw [Function.iterate_succ_apply', ih]
    push_cast
    ring

def integerScheme (int : IntType) (step : Int) (hstep : 0 < step) : Scheme Int where
  read := readInteger int
  spell := toString
  next := (· + step)
  OnGrid _ := True
  suffix := toString
  Nameable v := 0 ≤ v
  lt_next _ := Int.lt_add_of_pos_right _ hstep
  onGrid_next h := h
  read_spell ha hb _ hac hcb := by
    obtain ⟨-, hamin, halen⟩ := readInteger_eq_ok.1 ha
    obtain ⟨-, hbmax, hblen⟩ := readInteger_eq_ok.1 hb
    exact readInteger_eq_ok.2 ⟨rfl, by omega, by omega⟩
  spell_read ha _ := (readInteger_eq_ok.1 ha).1
  suffix_inj {s t a b i j} _ _ _ _ _ h := by
    have h := toString_int_injective h
    rw [iterate_add, iterate_add] at h
    exact_mod_cast Int.eq_of_mul_eq_mul_right hstep.ne' (Int.add_left_cancel h)

theorem parseIntegerStep_pos {every : String} {step : Int} (h : parseIntegerStep int every = .ok step) : 0 < step := by
  unfold parseIntegerStep at h
  dsimp only at h
  split_ifs at h with hpos
  obtain rfl := ok.inj h
  exact_mod_cast hpos.1

theorem integers_parts (int : IntType) {step : Int} (hstep : 0 < step) {a : Int} {n : ℕ} :
    ((List.range n).mapM fun (i : Nat) => do
      if a + i * step < 0 then throw (Refusal.negativeName req.parent.name (a + i * step))
      let name ← named req (toString (a + i * step))
      return (⟨name, toString (a + i * step), toString (a + i * step + step)⟩ : SeriesPartition)) = .ok parts ↔
    (∀ i < n, (integerScheme int step hstep).Nameable ((· + step)^[i] a) ∧
      NameFree req ((integerScheme int step hstep).suffix ((· + step)^[i] a))) ∧
        parts = (Tiling.pieces (· + step) a n).map ((integerScheme int step hstep).part req) := by
  refine Scheme.mapM_part_eq_ok (integerScheme int step hstep) ?_
  intro i _ p
  have hlo : (integerScheme int step hstep).next^[i] a = a + i * step := iterate_add step a i
  have hhi : (integerScheme int step hstep).next^[i + 1] a = a + i * step + step := by
    rw [Function.iterate_succ_apply', hlo]
    rfl
  rw [hlo, hhi, guard_bind_eq_ok, not_lt, bind_eq_ok_iff, and_assoc]
  refine and_congr_right fun _ => ?_
  constructor
  · rintro ⟨name, hname, h⟩
    obtain ⟨rfl, hfree⟩ := named_eq_ok.1 hname
    exact ⟨hfree, (ok.inj h).symm⟩
  · rintro ⟨hfree, rfl⟩
    exact ⟨_, named_eq_ok.2 ⟨rfl, hfree⟩, rfl⟩

theorem integers_eq_ok :
    integers req declared int = .ok r ↔ ∃ step, parseIntegerStep int req.every = .ok step ∧ ∃ (hstep : 0 < step), ∃ a n,
      (integerScheme int step hstep).Run req declared.ends a n ∧ r = (integerScheme int step hstep).result req a n := by
  unfold integers
  simp only [bind_eq_ok_iff, mapError_eq_ok]
  refine exists_congr fun step => and_congr_right fun hevery => ?_
  have hstep := parseIntegerStep_pos hevery
  rw [exists_prop_of_true hstep]
  refine Scheme.exists_run_iff (integerScheme int step hstep) ?_
  rintro ⟨a, text, origin⟩ b hread hb
  dsimp only at hread ⊢
  by_cases hle : b ≤ a
  · rw [if_pos hle, guard_bind_eq_ok]
    constructor
    · rintro ⟨hne, h⟩
      obtain rfl := ok.inj h
      exact ⟨0, ⟨trivial, .inr ⟨hle, hne, rfl⟩, by decide, nofun⟩, rfl⟩
    · rintro ⟨n, ⟨-, hreaches, -, -⟩, rfl⟩
      rcases hreaches with ⟨hlt, -⟩ | ⟨-, hne, rfl⟩
      · exact absurd hle (not_le.2 hlt)
      · exact ⟨hne, rfl⟩
  · rw [if_neg hle, guard_bind_eq_ok, guard_bind_eq_ok, not_not, not_lt]
    have hlt : a < b := not_le.1 hle
    constructor
    · rintro ⟨hwhole, hcount, h⟩
      obtain ⟨parts, hparts, h⟩ := bind_eq_ok_iff.1 h
      obtain ⟨hnamed, rfl⟩ := (integers_parts int hstep).1 hparts
      obtain rfl := ok.inj h
      have hdiff := Int.ediv_mul_cancel (Int.dvd_of_emod_eq_zero hwhole)
      have hnonneg : 0 ≤ (b - a) / step := Int.ediv_nonneg (by omega) hstep.le
      refine ⟨((b - a) / step).toNat, ⟨trivial, .inl ⟨hlt, ?_⟩, ?_, hnamed⟩, rfl⟩
      · show (· + step)^[_] a = b
        rw [iterate_add, Int.toNat_of_nonneg hnonneg, hdiff]
        omega
      · rwa [Int.toNat_of_nonneg hnonneg]
    · rintro ⟨n, ⟨-, hreaches, hfew, hnamed⟩, rfl⟩
      have hnext : (· + step)^[n] a = b := by
        rcases hreaches with h | ⟨h, -⟩
        · exact h.2
        · exact absurd h hle
      have hdiff : b - a = n * step := by
        rw [← hnext, iterate_add]
        ring
      rw [hdiff, Int.mul_ediv_cancel _ hstep.ne', Int.mul_emod_left]
      exact ⟨rfl, hfew, bind_eq_ok_iff.2 ⟨_, (integers_parts int hstep).2 ⟨hnamed, rfl⟩, rfl⟩⟩

end Pbps.Partition
