/-
The calendar of the series generator (`pbps-pg`'s `partition_series.rs`): dates of the proleptic Gregorian calendar, the
two conversions between a date and its day number, and the next day and the next month, which the numbers count.
-/
import Mathlib.Tactic

namespace Pbps.Partition

/-! ## The conversions -/

/-- Days from 1970-01-01. No operand of a `/` or a `%` is negative on a date, but the year's, which rounds down. -/
def daysFromCivil (y m d : Int) : Int :=
  let y := if m ≤ 2 then y - 1 else y
  let era := y / 400
  let yoe := y - era * 400
  let mp := (m + 9) % 12
  let doy := (153 * mp + 2) / 5 + d - 1
  let doe := yoe * 365 + yoe / 4 - yoe / 100 + doy
  era * 146097 + doe - 719468

/-- The inverse of `daysFromCivil`. -/
def civilFromDays (z : Int) : Int × Int × Int :=
  let z := z + 719468
  let era := z / 146097
  let doe := z - era * 146097
  let yoe := (doe - doe / 1460 + doe / 36524 - doe / 146096) / 365
  let y := yoe + era * 400
  let doy := doe - (365 * yoe + yoe / 4 - yoe / 100)
  let mp := (5 * doy + 2) / 153
  let d := doy - (153 * mp + 2) / 5 + 1
  let m := if mp < 10 then mp + 3 else mp - 9
  (if m ≤ 2 then y + 1 else y, m, d)

def isLeap (y : Int) : Bool := (y % 4 = 0 && y % 100 ≠ 0) || y % 400 = 0

def daysInMonth (y m : Int) : Int :=
  if m = 1 ∨ m = 3 ∨ m = 5 ∨ m = 7 ∨ m = 8 ∨ m = 10 ∨ m = 12 then 31
  else if m = 4 ∨ m = 6 ∨ m = 9 ∨ m = 11 then 30
  else if isLeap y then 29
  else 28

/-- A date and a time of day, as far as the engine prints a bound: whole seconds into the day, and microseconds. -/
@[ext]
structure Civil where
  y : Int
  m : Int
  d : Int
  secs : Int
  micros : Int
  deriving Repr

namespace Civil

def fields (c : Civil) : Int ×ₗ Int ×ₗ Int ×ₗ Int ×ₗ Int := toLex (c.y, toLex (c.m, toLex (c.d, toLex (c.secs, c.micros))))

theorem fields_injective : Function.Injective fields := by
  rintro ⟨y, m, d, s, u⟩ ⟨y', m', d', s', u'⟩ h
  simpa [fields] using h

instance : LinearOrder Civil := LinearOrder.lift' fields fields_injective

variable {c c' : Civil}

theorem lt_iff : c < c' ↔ c.y < c'.y ∨ c.y = c'.y ∧ (c.m < c'.m ∨ c.m = c'.m ∧ (c.d < c'.d ∨ c.d = c'.d ∧
    (c.secs < c'.secs ∨ c.secs = c'.secs ∧ c.micros < c'.micros))) := by
  show c.fields < c'.fields ↔ _
  simp only [fields, Prod.Lex.toLex_lt_toLex]

theorem year_le (h : c ≤ c') : c.y ≤ c'.y := by
  by_contra hlt
  exact absurd (lt_iff.2 (.inl (not_le.1 hlt))) (not_lt.2 h)

/-- A day the calendar has. -/
def IsDate (c : Civil) : Prop := (1 ≤ c.m ∧ c.m ≤ 12) ∧ 1 ≤ c.d ∧ c.d ≤ daysInMonth c.y c.m

instance (c : Civil) : Decidable c.IsDate := inferInstanceAs (Decidable (_ ∧ _))

def tomorrow (c : Civil) : Civil :=
  if c.d < daysInMonth c.y c.m then { c with d := c.d + 1 }
  else if c.m < 12 then { c with m := c.m + 1, d := 1 }
  else { c with y := c.y + 1, m := 1, d := 1 }

def nextMonth (c : Civil) : Civil := if c.m < 12 then ⟨c.y, c.m + 1, 1, 0, 0⟩ else ⟨c.y + 1, 1, 1, 0, 0⟩

theorem lt_tomorrow (c : Civil) : c < c.tomorrow := by
  unfold tomorrow
  split_ifs <;> rw [lt_iff] <;> dsimp only <;> omega

theorem lt_nextMonth (c : Civil) : c < c.nextMonth := by
  unfold nextMonth
  split_ifs <;> rw [lt_iff] <;> dsimp only <;> omega

end Civil

theorem one_le_daysInMonth (y m : Int) : 1 ≤ daysInMonth y m := by
  unfold daysInMonth
  split_ifs <;> omega

variable {y yoe mp d m : Int}

theorem isLeap_iff : isLeap y = true ↔ y % 4 = 0 ∧ y % 100 ≠ 0 ∨ y % 400 = 0 := by simp [isLeap]

/-! ## A date's number, and the date of a number -/

theorem exists_century (h : 0 ≤ yoe ∧ yoe ≤ 399) : ∃ c q r : Int, (0 ≤ c ∧ c ≤ 3) ∧ (0 ≤ q ∧ q ≤ 24) ∧
    (0 ≤ r ∧ r ≤ 3) ∧ yoe = 100 * c + 4 * q + r ∧ yoe / 4 = 25 * c + q ∧ yoe / 100 = c := by
  have hfour : yoe % 100 / 4 ≤ 24 := by omega
  refine ⟨yoe / 100, yoe % 100 / 4, yoe % 100 % 4, ?_, ?_, ?_, ?_, ?_, rfl⟩ <;> omega

/-- The year of a day in an era of 400: 4 centuries, 25 times 4 years in each, and a leap day at the end of the fourth
year but for that of the first three centuries. -/
theorem year_of_day {c q r doy doe : Int} (hc : 0 ≤ c ∧ c ≤ 3) (hq : 0 ≤ q ∧ q ≤ 24) (hr : 0 ≤ r ∧ r ≤ 3)
    (hdoy : 0 ≤ doy ∧ doy ≤ 365) (hleap : doy = 365 → r = 3 ∧ (q ≠ 24 ∨ c = 3))
    (hdoe : doe = 36524 * c + 1461 * q + 365 * r + doy) :
    (doe - doe / 1460 + doe / 36524 - doe / 146096) / 365 = 100 * c + 4 * q + r := by
  have hcentury : doe / 36524 - doe / 146096 = c := by
    -- Only the era's last day is past its fourth century, and that day is past both divisors.
    have hlast : 1461 * q + 365 * r + doy < 36524 ∨ doy = 365 ∧ r = 3 ∧ q = 24 ∧ c = 3 := by omega
    rcases hlast with hlt | ⟨rfl, rfl, rfl, rfl⟩
    · have h1 : doe / 36524 = c := by omega
      have h2 : doe / 146096 = 0 := by omega
      omega
    · rw [hdoe]
      decide
  -- Days lost to leap days: one for each four years, or one more late in a century.
  have hfour : doe / 1460 = 25 * c + q ∧ doy ≤ 364 ∨ doe / 1460 = 25 * c + q + 1 ∧ 1 ≤ doy := by
    by_cases hlate : 24 * c + q + 365 * r + doy < 1460
    · have h1 : doe / 1460 = 25 * c + q := by omega
      omega
    · have h1 : doe / 1460 = 25 * c + q + 1 := by omega
      omega
  have hsum : doe - doe / 1460 + doe / 36524 - doe / 146096 = doe - doe / 1460 + c := by omega
  rw [hsum]
  rcases hfour with ⟨hfour, h⟩ | ⟨hfour, h⟩
  · rw [hfour]
    omega
  · rw [hfour]
    omega

/-- A day of a month from March on: each month begins a fifth of 153 days after the one before, and February is last. -/
def MarchDay (mp d : Int) : Prop :=
  (0 ≤ mp ∧ 1 ≤ d) ∧ (mp ≤ 10 ∧ d ≤ (153 * (mp + 1) + 2) / 5 - (153 * mp + 2) / 5 ∨ mp = 11 ∧ d ≤ 29)

theorem MarchDay.bounds (h : MarchDay mp d) : 0 ≤ (153 * mp + 2) / 5 + d - 1 ∧
    (153 * mp + 2) / 5 + d - 1 ≤ 365 ∧ ((153 * mp + 2) / 5 + d - 1 = 365 → mp = 11 ∧ d = 29) := by
  obtain ⟨⟨hmp, hd⟩, ⟨hlt, hlast⟩ | ⟨rfl, hlast⟩⟩ := h
  · omega
  · omega

theorem MarchDay.month (h : MarchDay mp d) : (5 * ((153 * mp + 2) / 5 + d - 1) + 2) / 153 = mp := by
  obtain ⟨⟨hmp, hd⟩, ⟨hlt, hlast⟩ | ⟨rfl, hlast⟩⟩ := h
  · omega
  · omega

theorem civilFromDays_eq {era : Int} (hyoe : 0 ≤ yoe ∧ yoe ≤ 399) (hd : MarchDay mp d)
    (hleap : mp = 11 → d = 29 → isLeap (yoe + 1) = true) :
    civilFromDays (era * 146097 + (yoe * 365 + yoe / 4 - yoe / 100 + ((153 * mp + 2) / 5 + d - 1)) - 719468) =
      (if mp < 10 then yoe + era * 400 else yoe + era * 400 + 1, if mp < 10 then mp + 3 else mp - 9, d) := by
  have hmonth := hd.month
  obtain ⟨hdoy0, hdoy, hfeb⟩ := hd.bounds
  have hmp : mp ≤ 11 := by
    rcases hd.2 with h | h <;> omega
  obtain ⟨c, q, r, hc, hq, hr, hsplit, h4, h100⟩ := exists_century hyoe
  have hfull : (153 * mp + 2) / 5 + d - 1 = 365 → r = 3 ∧ (q ≠ 24 ∨ c = 3) := by
    intro h
    have hleap := isLeap_iff.1 (hleap (hfeb h).1 (hfeb h).2)
    clear h hmonth hfeb
    omega
  have hback : d = (153 * mp + 2) / 5 + d - 1 - (153 * mp + 2) / 5 + 1 := by ring
  generalize (153 * mp + 2) / 5 + d - 1 = doy at hmonth hdoy0 hdoy hfull hback ⊢
  have hyear := year_of_day hc hq hr ⟨hdoy0, hdoy⟩ hfull rfl
  have hdoe : yoe * 365 + yoe / 4 - yoe / 100 + doy = 36524 * c + 1461 * q + 365 * r + doy := by
    rw [h4, h100, hsplit]
    ring
  have hdays : 365 * yoe + yoe / 4 - yoe / 100 = 36524 * c + 1461 * q + 365 * r := by
    rw [h4, h100, hsplit]
    ring
  have hbound : 0 ≤ 36524 * c + 1461 * q + 365 * r + doy ∧ 36524 * c + 1461 * q + 365 * r + doy < 146097 := by
    clear hyear hmonth hback
    omega
  rw [hdoe]
  rw [← hsplit] at hyear
  generalize 36524 * c + 1461 * q + 365 * r = whole at hyear hbound hdays ⊢
  have hera : (era * 146097 + (whole + doy) - 719468 + 719468) / 146097 = era := by
    clear hyear hmonth hback hdays
    omega
  have hrest : era * 146097 + (whole + doy) - 719468 + 719468 - era * 146097 = whole + doy := by ring
  have hday : whole + doy - (365 * yoe + yoe / 4 - yoe / 100) = doy := by
    rw [hdays]
    ring
  unfold civilFromDays
  simp only [hera, hrest, hyear, hday, hmonth, ← hback]
  rw [Prod.mk.injEq]
  refine ⟨?_, rfl⟩
  split_ifs <;> omega

/-! ## Dates in order -/

theorem isLeap_era (y k : Int) : isLeap (y - k * 400) = isLeap y := by
  rw [Bool.eq_iff_iff, isLeap_iff, isLeap_iff]
  omega

theorem daysInMonth_march (hm : 1 ≤ m ∧ m ≤ 12) (hfeb : m ≠ 2) :
    daysInMonth y m = (153 * ((m + 9) % 12 + 1) + 2) / 5 - (153 * ((m + 9) % 12) + 2) / 5 := by
  obtain ⟨h1, h12⟩ := hm
  interval_cases m <;> first | rfl | exact absurd rfl hfeb

theorem daysInMonth_feb (y : Int) : daysInMonth y 2 = if isLeap y then 29 else 28 := rfl

namespace Civil

variable {c : Civil}

theorem IsDate.marchDay (h : c.IsDate) : MarchDay ((c.m + 9) % 12) c.d := by
  obtain ⟨hm, hd, hlast⟩ := h
  refine ⟨⟨by omega, hd⟩, ?_⟩
  by_cases hfeb : c.m = 2
  · right
    rw [hfeb, daysInMonth_feb] at hlast
    rw [hfeb]
    split_ifs at hlast <;> omega
  · left
    rw [daysInMonth_march hm hfeb] at hlast
    exact ⟨by omega, hlast⟩

theorem civilFromDays_daysFromCivil (h : c.IsDate) : civilFromDays (daysFromCivil c.y c.m c.d) = (c.y, c.m, c.d) := by
  have hmarch := h.marchDay
  obtain ⟨hm, hd, hlast⟩ := h
  unfold daysFromCivil
  dsimp only
  generalize hy : (if c.m ≤ 2 then c.y - 1 else c.y) = y
  have hyoe : 0 ≤ y - y / 400 * 400 ∧ y - y / 400 * 400 ≤ 399 := by omega
  rw [civilFromDays_eq hyoe hmarch]
  · rw [Prod.mk.injEq, Prod.mk.injEq]
    refine ⟨?_, ?_, rfl⟩
    · split_ifs at hy ⊢ <;> omega
    · split_ifs <;> omega
  · intro hmp h29
    have hfeb : c.m = 2 := by omega
    rw [hfeb, daysInMonth_feb, h29] at hlast
    rw [hfeb, if_pos (by decide)] at hy
    have hyear : y - y / 400 * 400 + 1 = c.y - y / 400 * 400 := by omega
    rw [hyear, isLeap_era]
    by_contra hnot
    rw [if_neg hnot] at hlast
    omega

end Civil

def daysBefore (y : Int) : Int := 365 * y + y / 4 - y / 100 + y / 400

theorem daysBefore_succ (y : Int) : daysBefore y = daysBefore (y - 1) + (if isLeap y then 366 else 365) := by
  have hleap := isLeap_iff (y := y)
  unfold daysBefore
  split_ifs with h
  · have := hleap.1 h
    omega
  · have := mt hleap.2 h
    omega

theorem daysFromCivil_eq (y m d : Int) : daysFromCivil y m d =
    daysBefore (if m ≤ 2 then y - 1 else y) + ((153 * ((m + 9) % 12) + 2) / 5 + d - 1) - 719468 := by
  unfold daysFromCivil daysBefore
  dsimp only
  generalize (if m ≤ 2 then y - 1 else y) = y'
  have hfour : (y' - y' / 400 * 400) / 4 = y' / 4 - 100 * (y' / 400) := by omega
  have hcentury : (y' - y' / 400 * 400) / 100 = y' / 100 - 4 * (y' / 400) := by omega
  rw [hfour, hcentury]
  ring

theorem daysFromCivil_day (y m d : Int) : daysFromCivil y m (d + 1) = daysFromCivil y m d + 1 := by
  rw [daysFromCivil_eq, daysFromCivil_eq]
  ring

theorem daysFromCivil_month (hm : 1 ≤ m ∧ m < 12) : daysFromCivil y (m + 1) 1 = daysFromCivil y m (daysInMonth y m) + 1 := by
  rw [daysFromCivil_eq, daysFromCivil_eq]
  by_cases hfeb : m = 2
  · rw [hfeb, daysInMonth_feb, if_neg (by decide), if_pos (by decide), daysBefore_succ y]
    split_ifs <;> norm_num <;> omega
  · rw [daysInMonth_march ⟨hm.1, hm.2.le⟩ hfeb]
    have hnext : (m + 1 + 9) % 12 = (m + 9) % 12 + 1 := by omega
    have hyear : (if m + 1 ≤ 2 then y - 1 else y) = if m ≤ 2 then y - 1 else y := by
      split_ifs <;> omega
    rw [hnext, hyear]
    omega

theorem daysFromCivil_year (y : Int) : daysFromCivil (y + 1) 1 1 = daysFromCivil y 12 (daysInMonth y 12) + 1 := by
  have hlong : daysInMonth y 12 = 31 := rfl
  rw [daysFromCivil_eq, daysFromCivil_eq, hlong, if_pos (by decide), if_neg (by decide), Int.add_sub_cancel]
  norm_num
  omega

namespace Civil

variable {c : Civil}

theorem daysFromCivil_tomorrow (h : c.IsDate) :
    daysFromCivil c.tomorrow.y c.tomorrow.m c.tomorrow.d = daysFromCivil c.y c.m c.d + 1 := by
  obtain ⟨hm, hd, hlast⟩ := h
  unfold tomorrow
  split_ifs with hday hmonth
  · exact daysFromCivil_day _ _ _
  · have hend : c.d = daysInMonth c.y c.m := by omega
    rw [hend]
    exact daysFromCivil_month ⟨hm.1, hmonth⟩
  · have h12 : c.m = 12 := by omega
    have hend : c.d = daysInMonth c.y c.m := by omega
    rw [hend, h12]
    exact daysFromCivil_year _

theorem IsDate.tomorrow (h : c.IsDate) : c.tomorrow.IsDate := by
  obtain ⟨hm, hd, hlast⟩ := h
  have hfirst := one_le_daysInMonth c.y (c.m + 1)
  unfold Civil.tomorrow
  split_ifs with hday hmonth
  · refine ⟨hm, ?_, ?_⟩
    · show 1 ≤ c.d + 1
      omega
    · show c.d + 1 ≤ daysInMonth c.y c.m
      omega
  · refine ⟨⟨?_, ?_⟩, le_refl _, hfirst⟩
    · show 1 ≤ c.m + 1
      omega
    · show c.m + 1 ≤ 12
      omega
  · refine ⟨⟨le_refl _, ?_⟩, le_refl _, one_le_daysInMonth _ _⟩
    show (1 : Int) ≤ 12
    decide

/-! ## Every day number is a date's -/

def dateAt (y m d : Int) : Civil := ⟨y, m, d, 0, 0⟩

theorem daysFromCivil_era (y m d k : Int) : daysFromCivil (y + 400 * k) m d = daysFromCivil y m d + 146097 * k := by
  rw [daysFromCivil_eq, daysFromCivil_eq]
  unfold daysBefore
  split_ifs <;> omega

variable {y m d : Int}

theorem IsDate.era (h : (dateAt y m d).IsDate) (k : Int) : (dateAt (y + 400 * k) m d).IsDate := by
  have hleap : isLeap (y + 400 * k) = isLeap y := by
    rw [← isLeap_era (y + 400 * k) k]
    congr 1
    ring
  obtain ⟨hm, hd, hlast⟩ := h
  refine ⟨hm, hd, hlast.trans_eq ?_⟩
  show daysInMonth y m = daysInMonth (y + 400 * k) m
  rw [daysInMonth, daysInMonth, hleap]

theorem exists_tomorrow (h : (dateAt y m d).IsDate) : ∃ y' m' d', (dateAt y' m' d').IsDate ∧
    dateAt y m d < dateAt y' m' d' ∧ daysFromCivil y' m' d' = daysFromCivil y m d + 1 := by
  have hnext : (dateAt y m d).tomorrow = dateAt (dateAt y m d).tomorrow.y (dateAt y m d).tomorrow.m
      (dateAt y m d).tomorrow.d := by
    unfold tomorrow
    split_ifs <;> rfl
  have hdate := h.tomorrow
  have hlt := lt_tomorrow (dateAt y m d)
  have hdays := daysFromCivil_tomorrow h
  rw [hnext] at hdate hlt
  exact ⟨_, _, _, hdate, hlt, hdays⟩

theorem exists_date_nat (n : Nat) : ∃ y m d, (dateAt y m d).IsDate ∧ daysFromCivil y m d = n := by
  induction n with
  | zero => exact ⟨1970, 1, 1, by decide, by decide⟩
  | succ n ih =>
    obtain ⟨y, m, d, hdate, hn⟩ := ih
    obtain ⟨y', m', d', hdate', -, hnext⟩ := exists_tomorrow hdate
    exact ⟨y', m', d', hdate', by rw [hnext, hn, Nat.cast_succ]⟩

/-- The calendar repeats after 400 years, so the days before 1970 are dates as those after it are. -/
theorem exists_date (z : Int) : ∃ y m d, (dateAt y m d).IsDate ∧ daysFromCivil y m d = z := by
  obtain ⟨y, m, d, hdate, hdays⟩ := exists_date_nat (z + 146097 * |z|).toNat
  refine ⟨y + 400 * -|z|, m, d, hdate.era _, ?_⟩
  have hnonneg : 0 ≤ z + 146097 * |z| := by
    have := neg_abs_le z
    have := abs_nonneg z
    omega
  rw [daysFromCivil_era, hdays, Int.toNat_of_nonneg hnonneg]
  ring

theorem civilFromDays_valid {z : Int} (h : civilFromDays z = (y, m, d)) : (dateAt y m d).IsDate ∧ daysFromCivil y m d = z := by
  obtain ⟨y', m', d', hdate, rfl⟩ := exists_date z
  have hback : civilFromDays (daysFromCivil y' m' d') = (y', m', d') := civilFromDays_daysFromCivil (c := dateAt y' m' d') hdate
  rw [h] at hback
  cases hback
  exact ⟨hdate, rfl⟩

def ofDays (z : Int) : Civil := dateAt (civilFromDays z).1 (civilFromDays z).2.1 (civilFromDays z).2.2

theorem ofDays_daysFromCivil (h : (dateAt y m d).IsDate) : ofDays (daysFromCivil y m d) = dateAt y m d := by
  have hback : civilFromDays (daysFromCivil y m d) = (y, m, d) := civilFromDays_daysFromCivil (c := dateAt y m d) h
  rw [ofDays, hback]

theorem strictMono_ofDays : StrictMono ofDays := by
  refine strictMono_int_of_lt_succ fun z => ?_
  obtain ⟨y, m, d, hdate, rfl⟩ := exists_date z
  obtain ⟨y', m', d', hdate', hlt, hnext⟩ := exists_tomorrow hdate
  have hz := ofDays_daysFromCivil hdate
  have hz' := ofDays_daysFromCivil hdate'
  rw [hnext] at hz'
  rw [hz, hz']
  exact hlt

theorem daysFromCivil_lt_iff {y' m' d' : Int} (h : (dateAt y m d).IsDate) (h' : (dateAt y' m' d').IsDate) :
    daysFromCivil y m d < daysFromCivil y' m' d' ↔ dateAt y m d < dateAt y' m' d' := by
  rw [← ofDays_daysFromCivil h, ← ofDays_daysFromCivil h', strictMono_ofDays.lt_iff_lt]

/-- The two conversions are inverse to one another, the day numbers are in the order of the dates, and two dates with none
between them are one apart. -/
theorem conversions_inverse_and_ordered :
    (∀ z y m d, civilFromDays z = (y, m, d) → (dateAt y m d).IsDate ∧ daysFromCivil y m d = z) ∧
    (∀ y m d, (dateAt y m d).IsDate → civilFromDays (daysFromCivil y m d) = (y, m, d)) ∧
    ∀ y m d y' m' d', (dateAt y m d).IsDate → (dateAt y' m' d').IsDate → dateAt y m d < dateAt y' m' d' →
      daysFromCivil y m d < daysFromCivil y' m' d' ∧
        ((∀ a b c, (dateAt a b c).IsDate → dateAt y m d < dateAt a b c → ¬ dateAt a b c < dateAt y' m' d') →
          daysFromCivil y' m' d' = daysFromCivil y m d + 1) := by
  refine ⟨fun z y m d h => civilFromDays_valid h, fun y m d h => civilFromDays_daysFromCivil (c := dateAt y m d) h,
    fun y m d y' m' d' h h' hbefore => ?_⟩
  have hlt := (daysFromCivil_lt_iff h h').2 hbefore
  refine ⟨hlt, fun hnone => le_antisymm (not_lt.1 fun hbetween => ?_) hlt⟩
  -- the date of the next number would stand between the two
  obtain ⟨a, b, c, hdate, hdays⟩ := exists_date (daysFromCivil y m d + 1)
  rw [← hdays] at hbetween
  have hafter : daysFromCivil y m d < daysFromCivil a b c := by omega
  exact hnone a b c hdate ((daysFromCivil_lt_iff h hdate).1 hafter) ((daysFromCivil_lt_iff hdate h').1 hbetween)

end Civil

end Pbps.Partition
