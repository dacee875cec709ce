/-
Times on one axis: a value's instant and its month, which order values as their fields do, and where moving a value forward
leads on each.
-/
import Pbps.Partition.Printed
import Pbps.Partition.Runway

namespace Pbps.Partition

namespace Civil

variable {c c' : Civil}

def Timed (c : Civil) : Prop := c.IsDate ∧ (0 ≤ c.secs ∧ c.secs < 86400) ∧ 0 ≤ c.micros ∧ c.micros < 1000000

def seconds (c : Civil) : Int := daysFromCivil c.y c.m c.d * 86400 + c.secs

def instant (c : Civil) : Int := c.seconds * 1000000 + c.micros

def month (c : Civil) : Int := c.y * 12 + (c.m - 1)

def midnight (c : Civil) : Civil := { c with secs := 0, micros := 0 }

theorem IsDate.onGrid (h : c.IsDate) : Mode.OnGrid .days c.midnight := ⟨h, ⟨rfl, rfl⟩, nofun⟩

theorem daysFromCivil_lt (hc : c.IsDate) (hc' : c'.IsDate) (h : c.midnight < c'.midnight) :
    daysFromCivil c.y c.m c.d < daysFromCivil c'.y c'.m c'.d := by
  have hdate : (dateAt c.y c.m c.d).IsDate := hc
  have hdate' : (dateAt c'.y c'.m c'.d).IsDate := hc'
  exact (daysFromCivil_lt_iff hdate hdate').2 h

section

variable (hc : c.Timed)
include hc

theorem instant_lt (hc' : c'.Timed) (h : c < c') : c.instant < c'.instant := by
  obtain ⟨hdate, hsecs, hmicros⟩ := hc
  obtain ⟨hdate', hsecs', hmicros'⟩ := hc'
  unfold instant seconds
  rcases lt_trichotomy c.midnight c'.midnight with hlt | heq | hgt
  · have := daysFromCivil_lt hdate hdate' hlt
    omega
  · -- On one day the time of it decides.
    have hy := congrArg Civil.y heq
    have hm := congrArg Civil.m heq
    have hd := congrArg Civil.d heq
    dsimp only [midnight] at hy hm hd
    rw [lt_iff] at h
    rw [hy, hm, hd]
    omega
  · rw [lt_iff] at h hgt
    dsimp only [midnight] at hgt
    omega

theorem instant_lt_iff (hc' : c'.Timed) : c.instant < c'.instant ↔ c < c' := by
  refine ⟨fun h => ?_, instant_lt hc hc'⟩
  by_contra hnot
  rcases (not_lt.1 hnot).lt_or_eq with hgt | rfl
  · exact absurd h (not_lt.2 (instant_lt hc' hc hgt).le)
  · exact absurd h (lt_irrefl _)

theorem instant_le_iff (hc' : c'.Timed) : c.instant ≤ c'.instant ↔ c ≤ c' := by
  rw [← not_lt, instant_lt_iff hc' hc, not_lt]

theorem le_aligned_iff (hc' : c'.IsDate) (h : c'.Aligned) : c ≤ c' ↔ c.month < c'.month ∨ c.month = c'.month ∧ c.Aligned := by
  obtain ⟨⟨hm, hd, -⟩, hsecs, hmicros⟩ := hc
  obtain ⟨hm', -⟩ := hc'
  obtain ⟨hd', hsecs', hmicros'⟩ := h
  rw [← not_lt, lt_iff, hd', hsecs', hmicros']
  unfold month Aligned
  omega

theorem month_lt (hc' : c'.IsDate) (h' : c'.Aligned) (hlt : c < c') : c.month < c'.month := by
  rcases (le_aligned_iff hc hc' h').1 hlt.le with hlt' | ⟨heq, h⟩
  · exact hlt'
  · obtain ⟨⟨hm, -⟩, -⟩ := hc
    obtain ⟨hm', -⟩ := hc'
    obtain ⟨hd, hsecs, hmicros⟩ := h
    obtain ⟨hd', hsecs', hmicros'⟩ := h'
    rw [lt_iff] at hlt
    unfold month at heq ⊢
    omega

end

def monthStart (i : Int) : Civil := ⟨i / 12, i % 12 + 1, 1, 0, 0⟩

theorem monthStart_spec (i : Int) : (monthStart i).IsDate ∧ (monthStart i).Aligned ∧ (monthStart i).month = i := by
  refine ⟨⟨?_, le_refl _, one_le_daysInMonth _ _⟩, ⟨rfl, rfl, rfl⟩, ?_⟩
  · show 1 ≤ i % 12 + 1 ∧ i % 12 + 1 ≤ 12
    omega
  · show i / 12 * 12 + (i % 12 + 1 - 1) = i
    omega

end Civil

theorem Civil.Printed.timed {key : Key} {c : Civil} (h : c.Printed key) : c.Timed := by
  obtain ⟨⟨-, hdate⟩, htime⟩ := h
  refine ⟨hdate, ?_⟩
  cases key with
  | date =>
    obtain ⟨hsecs, hmicros⟩ := htime
    omega
  | timestamp | timestampTz => exact htime
  | integer int => exact htime.elim

/-! ## Widths -/

/-- A width is of months where both values begin one, and otherwise of seconds, which there are where neither value has a
fraction of one. -/
theorem widthBetween_eq_some {a b : Civil} {w : Width} : widthBetween a b = some w ↔ a < b ∧
    ((a.Aligned ∧ b.Aligned) ∧ w = .months (b.month - a.month) ∨
      ¬ (a.Aligned ∧ b.Aligned) ∧ (a.micros = 0 ∧ b.micros = 0) ∧ w = .seconds (b.seconds - a.seconds)) := by
  unfold widthBetween
  split_ifs with hle haligned hmicros
  · simp [not_lt.2 hle]
  · have hmonths : b.y * 12 + b.m - (a.y * 12 + a.m) = b.month - a.month := by
      unfold Civil.month
      omega
    simp [not_le.1 hle, haligned, hmonths, eq_comm]
  · rw [← not_and_or] at hmicros
    simp [hmicros, haligned]
  · rw [not_or, not_not, not_not] at hmicros
    simp [not_le.1 hle, haligned, hmicros, Civil.seconds, eq_comm]

theorem daysFromCivil_range {c : Civil} (h : c.IsDate) (hy : YEARS c.y) :
    -800000 < daysFromCivil c.y c.m c.d ∧ daysFromCivil c.y c.m c.d < 3000000 := by
  obtain ⟨hm, hd⟩ := h
  obtain ⟨hlo, hhi⟩ := hy
  have hlong := daysInMonth_le c.y c.m
  unfold daysFromCivil
  split_ifs <;> dsimp only <;> omega

/-! ## Moving forward -/

section Add

variable {c : Civil}

/-- Months forward, a value is in the month they count to, and on its first if it was on one. -/
theorem exists_add_months (hc : c.Timed) (n times : Int) : ∃ t : Civil, t.Timed ∧ t.month = c.month + n * times ∧
    (t.Aligned ↔ c.Aligned) ∧ (t.secs = c.secs ∧ t.micros = c.micros) ∧
      add c (.months n) times = if YEARS t.y then some t else none := by
  obtain ⟨⟨hm, hd, hlast⟩, htime⟩ := hc
  have hdays : ∀ y m, 28 ≤ daysInMonth y m := by
    intro y m
    unfold daysInMonth
    split_ifs <;> omega
  have hfew := hdays ((c.month + n * times) / 12) ((c.month + n * times) % 12 + 1)
  refine ⟨{ c with
    y := (c.month + n * times) / 12
    m := (c.month + n * times) % 12 + 1
    d := min c.d (daysInMonth ((c.month + n * times) / 12) ((c.month + n * times) % 12 + 1)) },
    ⟨⟨?_, ?_, min_le_right _ _⟩, htime⟩, ?_, ?_, ⟨rfl, rfl⟩, rfl⟩
  · dsimp only
    omega
  · exact le_min hd (one_le_daysInMonth _ _)
  · show (c.month + n * times) / 12 * 12 + ((c.month + n * times) % 12 + 1 - 1) = _
    omega
  · unfold Civil.Aligned
    dsimp only
    refine and_congr_left fun _ => ?_
    omega

theorem exists_add_seconds (hc : c.Timed) {s times : Int} (hpos : 0 ≤ s * times) : ∃ t : Civil, t.Timed ∧
    t.instant = c.instant + s * times * 1000000 ∧ (t.secs = (c.secs + s * times) % 86400 ∧ t.micros = c.micros) ∧
      add c (.seconds s) times = if YEARS t.y then some t else none := by
  obtain ⟨hdate, hsecs, hmicros⟩ := hc
  have hgrid := hdate.onGrid
  -- The day is as many days after as fill the seconds.
  obtain ⟨k, hk⟩ := Int.eq_ofNat_of_zero_le (show
    0 ≤ (daysFromCivil c.y c.m c.d * 86400 + c.secs + s * times) / 86400 - daysFromCivil c.y c.m c.d by omega)
  obtain ⟨hgrid', hfloor⟩ := hgrid.iterate k
  have hday : civilFromDays ((daysFromCivil c.y c.m c.d * 86400 + c.secs + s * times) / 86400) =
      ((Mode.days.next^[k] c.midnight).y, (Mode.days.next^[k] c.midnight).m, (Mode.days.next^[k] c.midnight).d) := by
    have hymd := hgrid'.ymd_floor
    rw [hfloor] at hymd
    rw [← hymd]
    show _ = civilFromDays (daysFromCivil c.y c.m c.d + k)
    congr 1
    omega
  have hnumber : daysFromCivil (Mode.days.next^[k] c.midnight).y (Mode.days.next^[k] c.midnight).m
      (Mode.days.next^[k] c.midnight).d = daysFromCivil c.y c.m c.d + k := hfloor
  refine ⟨⟨(Mode.days.next^[k] c.midnight).y, (Mode.days.next^[k] c.midnight).m, (Mode.days.next^[k] c.midnight).d,
    (daysFromCivil c.y c.m c.d * 86400 + c.secs + s * times) % 86400, c.micros⟩, ⟨hgrid'.1, ?_, hmicros⟩, ?_, ⟨?_, rfl⟩, ?_⟩
  · dsimp only
    omega
  · unfold Civil.instant Civil.seconds
    dsimp only
    rw [hnumber]
    omega
  · dsimp only
    omega
  · unfold add
    dsimp only
    rw [hday]

end Add

end Pbps.Partition
