/-
The step of a series (`pbps-pg`'s `partition_series.rs`): how it is written, what it counts, and where a value falls on
what it counts.
-/
import Pbps.Lib.Tiling
import Pbps.Partition.Bound

namespace Pbps.Partition

open TypeRef (trim)

def MAX_STEP : Int := 100000

/-- What a step counts: days since 1970-01-01, or months since year 0. -/
inductive Mode where
  | days
  | months
  deriving DecidableEq, Repr

inductive StepUnit where
  | day
  | week
  | month
  | year
  deriving DecidableEq, Repr

def StepUnit.Counts : StepUnit → Mode → Int → Prop
  | .day, mode, _ => mode = .days
  | .week, mode, len => mode = .days ∧ 7 ∣ len
  | .month, mode, _ => mode = .months
  | .year, mode, len => mode = .months ∧ 12 ∣ len

/-- A step: `len` of what `mode` counts, and the unit that names its partitions. -/
structure Step where
  mode : Mode
  len : Int
  unit : StepUnit
  pos : 0 < len
  counts : unit.Counts mode len

def StepUnit.step (unit : StepUnit) (n : Int) (h : 0 < n) : Step :=
  match unit with
  | .day => ⟨.days, n, .day, h, rfl⟩
  | .week => ⟨.days, 7 * n, .week, by omega, rfl, Int.dvd_mul_right 7 n⟩
  | .month => ⟨.months, n, .month, h, rfl⟩
  | .year => ⟨.months, 12 * n, .year, by omega, rfl, Int.dvd_mul_right 12 n⟩

/-- Why a text is not a step. -/
inductive StepReason where
  | noPositiveNumber
  | tooLarge
  | aboveMax
  | noUnit
  | unknownUnit (other : String)
  deriving DecidableEq, Repr

/-- A refused step: the setting that writes it, as it is written, and why. -/
structure StepRefusal where
  what : String
  every : String
  reason : StepReason
  deriving DecidableEq, Repr

def parseUnit (unit : List Char) : Except StepReason StepUnit :=
  match String.ofList (toAsciiLowercase (trim unit)) with
  | "day" | "days" => .ok .day
  | "week" | "weeks" => .ok .week
  | "month" | "months" => .ok .month
  | "year" | "years" => .ok .year
  | "" => .error .noUnit
  | other => .error (.unknownUnit other)

def parseStepAs (what every : String) : Except StepRefusal Step :=
  let text := trim every.toList
  let count := text.takeWhile isAsciiDigit
  let n := (parseI64 count).getD 0
  if h : 0 < n then
    if n > MAX_STEP then .error ⟨what, every, .aboveMax⟩
    else
      match parseUnit (text.dropWhile isAsciiDigit) with
      | .ok unit => .ok (unit.step n h)
      | .error reason => .error ⟨what, every, reason⟩
  else if count.isEmpty || count.all (· = '0') then .error ⟨what, every, .noPositiveNumber⟩
  else .error ⟨what, every, .tooLarge⟩

/-- A step as `--every` writes it. -/
def parseStep (every : String) : Except StepRefusal Step := parseStepAs "--every" every

/-! ## Where a value falls -/

/-- The unit a value is in, and whether it is past the start of that unit. -/
structure Position where
  floor : Int
  above : Bool
  deriving DecidableEq, Repr

def position (mode : Mode) (c : Civil) : Position :=
  let timed := c.secs > 0 || c.micros > 0
  match mode with
  | .days => ⟨daysFromCivil c.y c.m c.d, timed⟩
  | .months => ⟨c.y * 12 + (c.m - 1), c.d > 1 || timed⟩

def ymd (mode : Mode) (floor : Int) : Int × Int × Int :=
  match mode with
  | .days => civilFromDays floor
  | .months => (floor / 12, floor % 12 + 1, 1)

def spell (key : Key) (mode : Mode) (floor : Int) : List Char :=
  let (y, m, d) := ymd mode floor
  let date := dateText y m d
  match key with
  | .date | .integer _ => date
  | .timestamp => date ++ " 00:00:00".toList
  | .timestampTz => date ++ " 00:00:00+00".toList

def LAST_YEAR : Int := 9999

/-- The two values nearest a request that would tile, the upper one where the calendar has it. -/
def nearestValues (key : Key) (mode : Mode) (lower upper : Int) : List Char × Option (List Char) :=
  (spell key mode lower, if (ymd mode upper).1 ≤ LAST_YEAR then some (spell key mode upper) else none)

/-- A partition's name from its lower bound: the year for a yearly step, the month for a monthly one, the day for a daily
or weekly one. -/
def suffix (unit : StepUnit) (mode : Mode) (floor : Int) : List Char :=
  let (y, m, d) := ymd mode floor
  match unit with
  | .year => padded 4 y
  | .month => padded 4 y ++ '_' :: padded 2 m
  | .day | .week => padded 4 y ++ '_' :: (padded 2 m ++ '_' :: padded 2 d)

/-! ## The values a step lands on -/

def Mode.next : Mode → Civil → Civil
  | .days => Civil.tomorrow
  | .months => Civil.nextMonth

/-- At the start of one of what a mode counts: at midnight, and for months on the first. -/
def Mode.OnGrid (mode : Mode) (c : Civil) : Prop := c.IsDate ∧ (c.secs = 0 ∧ c.micros = 0) ∧ (mode = .months → c.d = 1)

instance (mode : Mode) (c : Civil) : Decidable (mode.OnGrid c) := inferInstanceAs (Decidable (_ ∧ _))

def Step.after (step : Step) : Civil → Civil := step.mode.next^[step.len.toNat]

namespace Mode

variable {mode : Mode} {c : Civil}

theorem lt_next (mode : Mode) (c : Civil) : c < mode.next c := by
  cases mode with
  | days => exact c.lt_tomorrow
  | months => exact c.lt_nextMonth

theorem OnGrid.next (h : mode.OnGrid c) : mode.OnGrid (mode.next c) := by
  obtain ⟨hdate, hmidnight, hfirst⟩ := h
  cases mode with
  | days =>
    refine ⟨hdate.tomorrow, ?_, nofun⟩
    show c.tomorrow.secs = 0 ∧ c.tomorrow.micros = 0
    unfold Civil.tomorrow
    split_ifs <;> exact hmidnight
  | months =>
    obtain ⟨hm, -⟩ := hdate
    show OnGrid .months c.nextMonth
    unfold Civil.nextMonth
    split_ifs with hyear
    · exact ⟨⟨⟨by show 1 ≤ c.m + 1; omega, by show c.m + 1 ≤ 12; omega⟩, le_refl _, one_le_daysInMonth _ _⟩, ⟨rfl, rfl⟩,
        fun _ => rfl⟩
    · exact ⟨⟨⟨le_refl _, by show (1 : Int) ≤ 12; decide⟩, le_refl _, one_le_daysInMonth _ _⟩, ⟨rfl, rfl⟩, fun _ => rfl⟩

variable (h : mode.OnGrid c)
include h

theorem OnGrid.floor_next : (position mode (mode.next c)).floor = (position mode c).floor + 1 := by
  cases mode with
  | days => exact Civil.daysFromCivil_tomorrow h.1
  | months =>
    show c.nextMonth.y * 12 + (c.nextMonth.m - 1) = c.y * 12 + (c.m - 1) + 1
    have hm := h.1.1
    unfold Civil.nextMonth
    split_ifs <;> dsimp only <;> omega

theorem OnGrid.ymd_floor : ymd mode (position mode c).floor = (c.y, c.m, c.d) := by
  cases mode with
  | days => exact Civil.civilFromDays_daysFromCivil h.1
  | months =>
    have hm := h.1.1
    have hd := h.2.2 rfl
    show ((c.y * 12 + (c.m - 1)) / 12, (c.y * 12 + (c.m - 1)) % 12 + 1, (1 : Int)) = _
    rw [hd]
    congr 2 <;> omega

theorem OnGrid.iterate (n : ℕ) :
    mode.OnGrid (mode.next^[n] c) ∧ (position mode (mode.next^[n] c)).floor = (position mode c).floor + n := by
  induction n with
  | zero => exact ⟨h, (Int.add_zero _).symm⟩
  | succ n ih =>
    rw [Function.iterate_succ_apply']
    refine ⟨ih.1.next, ?_⟩
    rw [ih.1.floor_next, ih.2]
    push_cast
    ring

theorem OnGrid.eq_of_floor {c' : Civil} (h' : mode.OnGrid c') (hfloor : (position mode c).floor = (position mode c').floor) :
    c = c' := by
  have hfields := h.ymd_floor
  rw [hfloor, h'.ymd_floor, Prod.mk.injEq, Prod.mk.injEq] at hfields
  exact Civil.ext hfields.1.symm hfields.2.1.symm hfields.2.2.symm (h.2.1.1.trans h'.2.1.1.symm) (h.2.1.2.trans h'.2.1.2.symm)

theorem OnGrid.exists_iterate {c' : Civil} (h' : mode.OnGrid c') (hle : c ≤ c') : ∃ n : ℕ, c' = mode.next^[n] c := by
  rcases le_total (position mode c).floor (position mode c').floor with hfloor | hfloor
  · obtain ⟨n, hn⟩ := Int.eq_ofNat_of_zero_le (Int.sub_nonneg.2 hfloor)
    have hiter := h.iterate n
    exact ⟨n, h'.eq_of_floor hiter.1 (by rw [hiter.2]; omega)⟩
  · obtain ⟨n, hn⟩ := Int.eq_ofNat_of_zero_le (Int.sub_nonneg.2 hfloor)
    have hiter := h'.iterate n
    have hback : c = mode.next^[n] c' := h.eq_of_floor hiter.1 (by rw [hiter.2]; omega)
    have hmono := (Tiling.iterate_strictMono mode.lt_next c').monotone (Nat.zero_le n)
    exact ⟨0, le_antisymm (hback ▸ hmono) hle⟩

end Mode

end Pbps.Partition
