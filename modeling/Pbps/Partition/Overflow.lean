/-
The machine arithmetic of a step: every number that the source works out from a step and its bounds, in the order it works
them out, and that each of them fits the type it is of. Quotients and remainders are by positive numbers, and fit where what
is divided does.
-/
import Pbps.Partition.Target

namespace Pbps.Partition

open List

/-- A number that an `i64` holds. -/
def I64 (x : Int) : Prop := -2 ^ 63 ≤ x ∧ x < 2 ^ 63

/-- A number that an `i128` holds. -/
def I128 (x : Int) : Prop := -2 ^ 127 ≤ x ∧ x < 2 ^ 127

/-! ## What is worked out -/

/-- In `daysFromCivil`. -/
def daysFromCivilSteps (y m d : Int) : List Int :=
  let y' := if m ≤ 2 then y - 1 else y
  let era := y' / 400
  let yoe := y' - era * 400
  let mp := (m + 9) % 12
  let doy := (153 * mp + 2) / 5 + d - 1
  let doe := yoe * 365 + yoe / 4 - yoe / 100 + doy
  [y', era * 400, yoe, m + 9, 153 * mp, 153 * mp + 2, (153 * mp + 2) / 5 + d, doy, yoe * 365, yoe * 365 + yoe / 4,
    yoe * 365 + yoe / 4 - yoe / 100, doe, era * 146097, era * 146097 + doe, era * 146097 + doe - 719468]

/-- In `civilFromDays`. -/
def civilFromDaysSteps (z : Int) : List Int :=
  let z' := z + 719468
  let era := z' / 146097
  let doe := z' - era * 146097
  let yoe := (doe - doe / 1460 + doe / 36524 - doe / 146096) / 365
  let y := yoe + era * 400
  let doy := doe - (365 * yoe + yoe / 4 - yoe / 100)
  let mp := (5 * doy + 2) / 153
  let d := doy - (153 * mp + 2) / 5 + 1
  [z', era * 146097, doe, doe - doe / 1460, doe - doe / 1460 + doe / 36524, doe - doe / 1460 + doe / 36524 - doe / 146096,
    era * 400, y, 365 * yoe, 365 * yoe + yoe / 4, 365 * yoe + yoe / 4 - yoe / 100, doy, 5 * doy, 5 * doy + 2, 153 * mp,
    153 * mp + 2, doy - (153 * mp + 2) / 5, d, if mp < 10 then mp + 3 else mp - 9, y + 1]

/-- In `widthOf`. -/
def widthOfSteps (step : Step) : List Int :=
  match step.mode with
  | .days => [step.len * 86400]
  | .months => []

/-- In `add`. -/
def addSteps (c : Civil) (width : Width) (times : Int) : List Int :=
  match width with
  | .months n =>
    [c.y * 12, c.m - 1, c.y * 12 + (c.m - 1), n * times, c.y * 12 + (c.m - 1) + n * times,
      (c.y * 12 + (c.m - 1) + n * times) % 12 + 1]
  | .seconds s =>
    let days := daysFromCivil c.y c.m c.d
    let total := days * 86400 + c.secs + s * times
    daysFromCivilSteps c.y c.m c.d ++ [days * 86400, days * 86400 + c.secs, s * times, total] ++
      civilFromDaysSteps (total / 86400)

/-- In `widthBetween`. -/
def widthBetweenSteps (a b : Civil) : List Int :=
  [b.y * 12, b.y * 12 + b.m, a.y * 12, a.y * 12 + a.m, b.y * 12 + b.m - (a.y * 12 + a.m)] ++
    daysFromCivilSteps a.y a.m a.d ++ daysFromCivilSteps b.y b.m b.d ++
      [daysFromCivil b.y b.m b.d * 86400, b.seconds, daysFromCivil a.y a.m a.d * 86400, a.seconds, b.seconds - a.seconds]

/-- In `ymd`. -/
def ymdSteps (mode : Mode) (floor : Int) : List Int :=
  match mode with
  | .days => civilFromDaysSteps floor
  | .months => [floor % 12 + 1]

/-- In `position`. -/
def positionSteps (mode : Mode) (c : Civil) : List Int :=
  match mode with
  | .days => daysFromCivilSteps c.y c.m c.d
  | .months => [c.y * 12, c.m - 1, c.y * 12 + (c.m - 1)]

/-- In `temporal`, of a start and an end, before its loop; and in what it refuses. -/
def temporalSteps (step : Step) (start until_ : Civil) : List Int :=
  let from_ := (position step.mode start).floor
  let diff := (position step.mode until_).floor - from_
  let lower := from_ + diff / step.len * step.len
  positionSteps step.mode start ++ positionSteps step.mode until_ ++
    [from_ + 1, diff, diff / step.len * step.len, lower, lower + step.len] ++
      (ymdSteps step.mode from_ ++ ymdSteps step.mode (from_ + 1) ++ ymdSteps step.mode lower ++
        ymdSteps step.mode (lower + step.len))

/-- In the `i`-th turn of `temporal`'s loop. -/
def temporalTurnSteps (step : Step) (start : Civil) (i : Int) : List Int :=
  let lo := (position step.mode start).floor + i * step.len
  [i * step.len, lo, lo + step.len] ++ (ymdSteps step.mode lo ++ ymdSteps step.mode (lo + step.len))

/-- In `integers`, of a start and an end, before its loop; and in what it refuses. -/
def integersSteps (step start until_ : Int) : List Int :=
  let diff := until_ - start
  [step, diff, diff / step * step, start + diff / step * step, start + diff / step * step + step]

/-- In the `i`-th turn of `integers`' loop. -/
def integersTurnSteps (step start i : Int) : List Int := [i * step, start + i * step, start + i * step + step]

/-- In `need`, of an integer key. -/
def needSteps (r a b : Int) : List Int := [b - a, 2 * (b - a), r + 2 * (b - a)]

/-! ## What fits -/

theorem forall_mem_nil_iff {P : Int → Prop} : (∀ x ∈ [], P x) ↔ True := by simp

theorem daysFromCivilSteps_fit {c : Civil} (hc : c.IsDate) (hy : YEARS c.y) : ∀ x ∈ daysFromCivilSteps c.y c.m c.d, I64 x := by
  obtain ⟨hm, hd⟩ := hc
  obtain ⟨hlo, hhi⟩ := hy
  have hlong := daysInMonth_le c.y c.m
  unfold daysFromCivilSteps I64
  dsimp only
  simp only [forall_mem_cons, forall_mem_nil_iff, and_true]
  split_ifs <;> and_intros <;> omega

theorem civilFromDaysSteps_fit {z : Int} (hz : -2 ^ 40 ≤ z ∧ z ≤ 2 ^ 40) : ∀ x ∈ civilFromDaysSteps z, I64 x := by
  unfold civilFromDaysSteps I64
  dsimp only
  simp only [forall_mem_cons, forall_mem_nil_iff, and_true]
  and_intros <;> omega

theorem ymdSteps_fit (mode : Mode) {floor : Int} (h : -2 ^ 40 ≤ floor ∧ floor ≤ 2 ^ 40) : ∀ x ∈ ymdSteps mode floor, I64 x := by
  cases mode with
  | days => exact civilFromDaysSteps_fit h
  | months =>
    unfold ymdSteps I64
    simp only [forall_mem_cons, forall_mem_nil_iff, and_true]
    omega

section Bounds

variable {key : Key} {c start until_ : Civil} {step : Step}

theorem positionSteps_fit (mode : Mode) (hc : c.Printed key) : ∀ x ∈ positionSteps mode c, I64 x := by
  cases mode with
  | days => exact daysFromCivilSteps_fit hc.1.2 hc.1.1
  | months =>
    have hm := hc.1.2.1
    have hy := hc.1.1
    unfold positionSteps I64
    simp only [forall_mem_cons, forall_mem_nil_iff, and_true]
    omega

theorem position_range (mode : Mode) (hc : c.Printed key) :
    -800000 < (position mode c).floor ∧ (position mode c).floor < 3000000 := by
  cases mode with
  | days => exact daysFromCivil_range hc.1.2 hc.1.1
  | months =>
    have hm := hc.1.2.1
    have hy := hc.1.1
    show -800000 < c.y * 12 + (c.m - 1) ∧ c.y * 12 + (c.m - 1) < 3000000
    omega

theorem parseStepAs_len {what every : String} (h : parseStepAs what every = .ok step) : step.len ≤ 12 * MAX_STEP := by
  unfold parseStepAs at h
  dsimp only at h
  split_ifs at h with hpos hmax
  split at h
  next unit hunit =>
    obtain rfl := Except.ok.inj h
    unfold MAX_STEP at *
    cases unit <;> simp only [StepUnit.step] <;> omega
  next => cases h

theorem widthOfSteps_fit (hlen : step.len ≤ 12 * MAX_STEP) : ∀ x ∈ widthOfSteps step, I64 x := by
  have hpos := step.pos
  unfold MAX_STEP at hlen
  unfold widthOfSteps
  split
  · unfold I64
    simp only [forall_mem_cons, forall_mem_nil_iff, and_true]
    omega
  · nofun

theorem addSteps_fit {w : Width} {times : Int} (hc : c.Printed key)
    (hw : ∀ n, w = .months n ∨ w = .seconds n → 0 ≤ n * times ∧ n * times ≤ 2 ^ 42) : ∀ x ∈ addSteps c w times, I64 x := by
  have hm := hc.1.2.1
  have hy := hc.1.1
  cases w with
  | months n =>
    obtain ⟨hlo, hhi⟩ := hw n (.inl rfl)
    unfold addSteps I64
    simp only [forall_mem_cons, forall_mem_nil_iff, and_true]
    and_intros <;> omega
  | seconds s =>
    obtain ⟨hlo, hhi⟩ := hw s (.inr rfl)
    have hdays := daysFromCivil_range hc.1.2 hc.1.1
    have hsecs := hc.timed.2.1
    unfold addSteps
    dsimp only
    simp only [forall_mem_append]
    refine ⟨⟨daysFromCivilSteps_fit hc.1.2 hc.1.1, ?_⟩, civilFromDaysSteps_fit (by omega)⟩
    unfold I64
    simp only [forall_mem_cons, forall_mem_nil_iff, and_true]
    and_intros <;> omega

theorem widthBetweenSteps_fit {a b : Civil} (ha : a.Printed key) (hb : b.Printed key) : ∀ x ∈ widthBetweenSteps a b, I64 x := by
  have ham := ha.1.2.1
  have hay := ha.1.1
  have hbm := hb.1.2.1
  have hby := hb.1.1
  have hadays := daysFromCivil_range ha.1.2 ha.1.1
  have hbdays := daysFromCivil_range hb.1.2 hb.1.1
  have hasecs := ha.timed.2.1
  have hbsecs := hb.timed.2.1
  unfold widthBetweenSteps Civil.seconds
  simp only [forall_mem_append]
  refine ⟨⟨⟨?_, daysFromCivilSteps_fit ha.1.2 ha.1.1⟩, daysFromCivilSteps_fit hb.1.2 hb.1.1⟩, ?_⟩
  all_goals
    unfold I64
    simp only [forall_mem_cons, forall_mem_nil_iff, and_true]
    and_intros <;> omega

theorem div_mul_range (diff : Int) {len : Int} (hlen : 0 < len) : diff - len < diff / len * len ∧ diff / len * len ≤ diff := by
  have h1 := Int.ediv_mul_le diff hlen.ne'
  have h2 := Int.lt_ediv_add_one_mul_self diff hlen
  rw [Int.add_mul, Int.one_mul] at h2
  exact ⟨by omega, h1⟩

theorem mul_range {diff len i : Int} (hlen : 0 < len) (hi : 0 ≤ i ∧ i < diff / len) : 0 ≤ i * len ∧ i * len + len ≤ diff := by
  have h1 := (div_mul_range diff hlen).2
  have h2 := Int.mul_le_mul_of_nonneg_right (show i + 1 ≤ diff / len by omega) hlen.le
  rw [Int.add_mul, Int.one_mul] at h2
  exact ⟨Int.mul_nonneg hi.1 hlen.le, h2.trans h1⟩

theorem temporalSteps_fit (hlen : step.len ≤ 12 * MAX_STEP) (hs : start.Printed key) (hu : until_.Printed key) :
    (∀ x ∈ temporalSteps step start until_, I64 x) ∧
      ∀ i, 0 ≤ i → i < ((position step.mode until_).floor - (position step.mode start).floor) / step.len →
        ∀ x ∈ temporalTurnSteps step start i, I64 x := by
  have hpos := step.pos
  have hfrom := position_range step.mode hs
  have hto := position_range step.mode hu
  unfold MAX_STEP at hlen
  constructor
  · have hlower := div_mul_range ((position step.mode until_).floor - (position step.mode start).floor) hpos
    unfold temporalSteps
    dsimp only
    simp only [forall_mem_append]
    refine ⟨⟨⟨positionSteps_fit _ hs, positionSteps_fit _ hu⟩, ?_⟩, ⟨⟨ymdSteps_fit _ (by omega), ymdSteps_fit _ (by omega)⟩,
      ymdSteps_fit _ (by omega)⟩, ymdSteps_fit _ (by omega)⟩
    unfold I64
    simp only [forall_mem_cons, forall_mem_nil_iff, and_true]
    and_intros <;> omega
  · intro i hi hlt
    have hmul := mul_range hpos ⟨hi, hlt⟩
    unfold temporalTurnSteps
    dsimp only
    simp only [forall_mem_append]
    refine ⟨?_, ymdSteps_fit _ (by omega), ymdSteps_fit _ (by omega)⟩
    unfold I64
    simp only [forall_mem_cons, forall_mem_nil_iff, and_true]
    and_intros <;> omega

end Bounds

theorem parseIntegerStep_lt {int : IntType} {every : String} {step : Int} (h : parseIntegerStep int every = .ok step) :
    0 < step ∧ step < 10 ^ 20 := by
  unfold parseIntegerStep at h
  dsimp only at h
  split_ifs at h with hstep
  obtain ⟨hpos, hlen, hdigits⟩ := hstep
  obtain rfl := Except.ok.inj h
  have hlt := (digitsValue_lt hdigits).trans_le (Nat.pow_le_pow_right (by decide) hlen)
  exact ⟨by exact_mod_cast hpos, by exact_mod_cast hlt⟩

theorem integersSteps_fit {step start until_ : Int} (hstep : 0 < step ∧ step < 10 ^ 20)
    (hs : -2 ^ 63 ≤ start ∧ start < 2 ^ 63) (hu : -2 ^ 63 ≤ until_ ∧ until_ < 2 ^ 63) :
    (∀ x ∈ integersSteps step start until_, I128 x) ∧
      ∀ i, 0 ≤ i → i < (until_ - start) / step → ∀ x ∈ integersTurnSteps step start i, I128 x := by
  obtain ⟨hpos, hlt⟩ := hstep
  constructor
  · have hlower := div_mul_range (until_ - start) hpos
    unfold integersSteps I128
    simp only [forall_mem_cons, forall_mem_nil_iff, and_true]
    and_intros <;> omega
  · intro i hi hi'
    have hmul := mul_range hpos ⟨hi, hi'⟩
    unfold integersTurnSteps I128
    simp only [forall_mem_cons, forall_mem_nil_iff, and_true]
    and_intros <;> omega

theorem needSteps_fit {r a b : Int} (hr : -2 ^ 63 ≤ r ∧ r < 2 ^ 63) (ha : -2 ^ 63 ≤ a ∧ a < 2 ^ 63)
    (hb : -2 ^ 63 ≤ b ∧ b < 2 ^ 63) : ∀ x ∈ needSteps r a b, I128 x := by
  unfold needSteps I128
  simp only [forall_mem_cons, forall_mem_nil_iff, and_true]
  and_intros <;> omega

/-- No number that is worked out of a step that is read, or of bounds that are, leaves the type it is of. -/
structure NoOverflow : Prop where
  step : ∀ what every step, parseStepAs what every = .ok step → I64 step.len ∧ (∀ x ∈ widthOfSteps step, I64 x) ∧
    ∀ (key : Key) (c : Civil), c.Printed key → ∀ x ∈ addSteps c (widthOf step) 1, I64 x
  width : ∀ (key : Key) (a b c : Civil), a.Printed key → b.Printed key → c.Printed key →
    (∀ x ∈ widthBetweenSteps a b, I64 x) ∧ ∀ w, widthBetween a b = some w → ∀ x ∈ addSteps c w 2, I64 x
  need : ∀ (ty : ColumnType) (int : IntType), Key.of ty = some (.integer int) → ∀ r a b : Int,
    (int.min ≤ r ∧ r ≤ int.max) → (int.min ≤ a ∧ a ≤ int.max) → (int.min ≤ b ∧ b ≤ int.max) → ∀ x ∈ needSteps r a b, I128 x
  temporal : ∀ every step, parseStep every = .ok step → ∀ (key : Key) (start until_ : Civil), start.Printed key →
    until_.Printed key → (∀ x ∈ temporalSteps step start until_, I64 x) ∧
      ∀ i, 0 ≤ i → i < ((position step.mode until_).floor - (position step.mode start).floor) / step.len →
        ∀ x ∈ temporalTurnSteps step start i, I64 x
  integers : ∀ (ty : ColumnType) (int : IntType), Key.of ty = some (.integer int) → ∀ every step,
    parseIntegerStep int every = .ok step → ∀ start until_ : Int, (int.min ≤ start ∧ start ≤ int.max) →
      (int.min ≤ until_ ∧ until_ ≤ int.max) → (∀ x ∈ integersSteps step start until_, I128 x) ∧
        ∀ i, 0 ≤ i → i < (until_ - start) / step → ∀ x ∈ integersTurnSteps step start i, I128 x

theorem noOverflow : NoOverflow where
  step what every step h := by
    have hlen := parseStepAs_len h
    have hpos := step.pos
    unfold MAX_STEP at hlen
    refine ⟨?_, widthOfSteps_fit (parseStepAs_len h), fun key c hc => addSteps_fit hc fun n hn => ?_⟩
    · unfold I64
      omega
    · unfold widthOf at hn
      split at hn
      · obtain rfl : step.len * 86400 = n := by simpa using hn
        omega
      · obtain rfl : step.len = n := by simpa using hn
        omega
  width key a b c ha hb hc := by
    refine ⟨widthBetweenSteps_fit ha hb, fun w hw => addSteps_fit hc fun n hn => ?_⟩
    have hrange := (widthBetween_range ha hb hw hn).1
    omega
  need ty int hkey r a b hr ha hb := by
    obtain ⟨hmin, hmax⟩ := Key.bounds_of hkey
    exact needSteps_fit (by omega) (by omega) (by omega)
  temporal every step h key start until_ hs hu := temporalSteps_fit (parseStepAs_len h) hs hu
  integers ty int hkey every step h start until_ hs hu := by
    obtain ⟨hmin, hmax⟩ := Key.bounds_of hkey
    exact integersSteps_fit (parseIntegerStep_lt h) (by omega) (by omega)

end Pbps.Partition
