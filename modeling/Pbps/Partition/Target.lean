/-
What a short series is told: the target it names reads back as the value it is, and the step it gives is of the newest
partition's width, where a step may take so many units.
-/
import Pbps.Partition.Instant
import Pbps.Partition.Series
import Pbps.Types.Words

namespace Pbps.Partition

open TypeRef (trim)
open List

variable {key : Key}

/-! ## Ends -/

theorem End.exists_time (hkey : ∀ int, key ≠ .integer int) (e : End key) : ∃ c, e.val = .time c ∧ c.Printed key := by
  obtain ⟨c, hc, hv⟩ := (readVal_time hkey).1 e.read
  exact ⟨c, hv.symm, (readCivil_eq_ok.1 hc).2⟩

theorem End.exists_int {int : IntType} (e : End (.integer int)) : ∃ i, e.val = .int i ∧ int.min ≤ i ∧ i ≤ int.max := by
  obtain ⟨i, hi, hv⟩ := readVal_int.1 e.read
  exact ⟨i, hv.symm, (readInteger_eq_ok.1 hi).2.1⟩

variable {ty : ColumnType} {w : Width} {newest : Range key} {every : String}

theorem Key.bounds_of {int : IntType} (h : Key.of ty = some (.integer int)) : -2 ^ 63 ≤ int.min ∧ int.max < 2 ^ 63 := by
  unfold Key.of at h
  split at h
  · cases h
  · split_ifs at h
    split at h
    case h_4 | h_5 | h_6 =>
      obtain rfl := Key.integer.inj (Option.some.inj h)
      decide
    all_goals cases h

/-! ## The target -/

theorem add_printed {c t : Civil} {times : Int} (hc : c.Printed key) (h : add c w times = some t)
    (hw : ∀ s, w = .seconds s → 0 ≤ s * times ∧ (key = .date → 86400 ∣ s * times)) : t.Printed key := by
  have hfields : t.Timed ∧ YEARS t.y ∧ t.micros = c.micros ∧ (key = .date → t.secs = c.secs) := by
    cases w with
    | months n =>
      obtain ⟨t', ht, -, -, ⟨hsecs, hmicros⟩, hadd⟩ := exists_add_months hc.timed n times
      rw [hadd, Option.ite_none_right_eq_some] at h
      obtain ⟨hy, rfl⟩ := h.imp_right Option.some.inj
      exact ⟨ht, hy, hmicros, fun _ => hsecs⟩
    | seconds s =>
      obtain ⟨hpos, hdays⟩ := hw s rfl
      obtain ⟨t', ht, -, ⟨hsecs, hmicros⟩, hadd⟩ := exists_add_seconds hc.timed hpos
      rw [hadd, Option.ite_none_right_eq_some] at h
      obtain ⟨hy, rfl⟩ := h.imp_right Option.some.inj
      refine ⟨ht, hy, hmicros, fun hdate => ?_⟩
      have hrange := hc.timed.2.1
      have := hdays hdate
      omega
  obtain ⟨ht, hy, hmicros, hsecs⟩ := hfields
  refine ⟨⟨hy, ht.1⟩, ?_⟩
  cases key with
  | date => exact ⟨(hsecs rfl).trans hc.2.1, hmicros.trans hc.2.2⟩
  | timestamp | timestampTz => exact ht.2
  | integer int => exact hc.2.elim

theorem widthBetween_range {a b : Civil} (ha : a.Printed key) (hb : b.Printed key) {n : Int} (h : widthBetween a b = some w)
    (hw : w = .months n ∨ w = .seconds n) : (0 < n ∧ n < 2 ^ 40) ∧ (key = .date → w = .seconds n → 86400 ∣ n) := by
  have hta := ha.timed
  have htb := hb.timed
  obtain ⟨hlt, ⟨⟨-, haligned⟩, rfl⟩ | ⟨-, ⟨hamicros, hbmicros⟩, rfl⟩⟩ := widthBetween_eq_some.1 h
  · obtain rfl : b.month - a.month = n := by simpa using hw
    have hmonth := Civil.month_lt hta htb.1 haligned hlt
    obtain ⟨⟨⟨hay, hay'⟩, ⟨ham, -⟩⟩, -⟩ := ha
    obtain ⟨⟨⟨hby, hby'⟩, ⟨hbm, -⟩⟩, -⟩ := hb
    refine ⟨?_, fun _ => nofun⟩
    unfold Civil.month at *
    omega
  · obtain rfl : b.seconds - a.seconds = n := by simpa using hw
    have hinstant := (Civil.instant_lt_iff hta htb).2 hlt
    have hadays := daysFromCivil_range hta.1 ha.1.1
    have hbdays := daysFromCivil_range htb.1 hb.1.1
    have hasecs := hta.2.1
    have hbsecs := htb.2.1
    unfold Civil.instant Civil.seconds at *
    refine ⟨by omega, ?_⟩
    rintro rfl -
    have := ha.2.1
    have := hb.2.1
    omega

section Twice

variable {reference : End key} {newest : Range key} {lo hi : End key}

theorem needTwice_time {a b c : Civil} (hlo : newest.lo = some lo) (hhi : newest.hi = some hi) (hc : reference.val = .time c)
    (ha : lo.val = .time a) (hb : hi.val = .time b) : needTwice key reference newest =
      match widthBetween a b with
      | some w =>
        match add c w 2 with
        | some until_ => .until_ (.time until_)
        | none => .beyond (pastTheCalendar s!"the default horizon, {TWICE}" reference.text
            "set partition_runway to a count of partitions, as `3`")
      | none => .partitions 2 := by
  unfold needTwice
  rw [hlo, hhi]
  dsimp only
  rewrite [hc, ha, hb]
  rfl

theorem needTwice_int {int : IntType} {reference : End (.integer int)} {newest : Range (.integer int)}
    {lo hi : End (.integer int)} {r a b : Int} (hlo : newest.lo = some lo) (hhi : newest.hi = some hi)
    (hr : reference.val = .int r) (ha : lo.val = .int a) (hb : hi.val = .int b) : needTwice (.integer int) reference newest =
      if r + 2 * (b - a) > int.max then .beyond (pastTheLargest s!"the default horizon, {TWICE}" reference.text int
          "set partition_runway to a count of partitions, as `3`") else .until_ (.int (r + 2 * (b - a))) := by
  unfold needTwice
  rw [hlo, hhi]
  dsimp only
  rw [hr, ha, hb]

theorem needTwice_none (h : newest.lo = none) : needTwice key reference newest = .partitions 2 := by
  unfold needTwice
  rw [h]

theorem exists_ends_of_needTwice {v : Val} (h : needTwice key reference newest = .until_ v) :
    ∃ lo hi, newest.lo = some lo ∧ newest.hi = some hi := by
  unfold needTwice at h
  split at h
  next lo hi hlo hhi => exact ⟨lo, hi, hlo, hhi⟩
  next => cases h

end Twice

/-- The text of a target reads as the target. -/
theorem read_reach (hkey : Key.of ty = some key) {horizon : Horizon} {reference : End key}
    (hnonempty : ∀ lo hi, newest.lo = some lo → newest.hi = some hi → lo.val < hi.val) {v : Val} {words : String}
    (h : need key horizon reference newest = .ok (.until_ v, words)) :
    ∃ text, (Need.until_ v).reach key = .until_ text ∧ readVal key text = .ok v := by
  have htime : ∀ {c t : Civil} {w : Width} {times : Int}, (∀ int, key ≠ .integer int) → c.Printed key → add c w times = some t →
      (∀ s, w = .seconds s → 0 ≤ s * times ∧ (key = .date → 86400 ∣ s * times)) → v = .time t →
        ∃ text, (Need.until_ v).reach key = .until_ text ∧ readVal key text = .ok v := by
    rintro c t w times hk hc hadd hw rfl
    exact ⟨_, rfl, (readVal_time hk).2 ⟨t, readCivil_eq_ok.2 ⟨rfl, add_printed hc hadd hw⟩, rfl⟩⟩
  by_cases hk : ∀ int, key ≠ .integer int
  · obtain ⟨c, hc, hprinted⟩ := reference.exists_time hk
    cases horizon with
    | partitions k => cases h
    | width step text =>
      unfold need at h
      rw [hc] at h
      dsimp only at h
      split at h
      next t hadd =>
        obtain ⟨rfl, -⟩ : Val.time t = v ∧ text = words := by simpa using Except.ok.inj h
        refine htime hk hprinted hadd ?_ rfl
        intro s hs
        have hpos := step.pos
        unfold widthOf at hs
        split at hs
        · obtain rfl := Width.seconds.inj hs
          omega
        · cases hs
      next => cases h
    | default =>
      obtain ⟨h, -⟩ : needTwice key reference newest = .until_ v ∧ TWICE = words := by simpa [need] using h
      obtain ⟨lo, hi, hlo, hhi⟩ := exists_ends_of_needTwice h
      obtain ⟨a, ha, hap⟩ := lo.exists_time hk
      obtain ⟨b, hb, hbp⟩ := hi.exists_time hk
      rw [needTwice_time hlo hhi hc ha hb] at h
      split at h
      next w hw =>
        split at h
        next t hadd =>
          refine htime hk hprinted hadd ?_ (Need.until_.inj h).symm
          rintro s rfl
          obtain ⟨hpos, hdays⟩ := widthBetween_range hap hbp hw (.inr rfl)
          exact ⟨by omega, fun hdate => (hdays hdate rfl).mul_right 2⟩
        next => cases h
      next => cases h
  · rw [not_forall] at hk
    obtain ⟨int, hint⟩ := hk
    rw [not_not] at hint
    subst hint
    obtain ⟨r, hr, hrange⟩ := reference.exists_int
    obtain ⟨hmin, hmax⟩ := Key.bounds_of hkey
    cases horizon with
    | partitions k => cases h
    | width step text =>
      unfold need at h
      rw [hr] at h
      cases h
    | default =>
      obtain ⟨h, -⟩ : needTwice (.integer int) reference newest = .until_ v ∧ TWICE = words := by simpa [need] using h
      obtain ⟨lo, hi, hlo, hhi⟩ := exists_ends_of_needTwice h
      obtain ⟨a, ha, harange⟩ := lo.exists_int
      obtain ⟨b, hb, hbrange⟩ := hi.exists_int
      have hlt := hnonempty lo hi hlo hhi
      rw [ha, hb, Val.int_lt] at hlt
      rw [needTwice_int hlo hhi hr ha hb] at h
      split_ifs at h with hbeyond
      obtain rfl := Need.until_.inj h
      exact ⟨_, rfl, readVal_int.2 ⟨_, readInteger_eq_ok.2 ⟨rfl, by omega, by omega⟩, rfl⟩⟩

/-! ## The step -/

def StepUnit.text : StepUnit → String
  | .day => "day"
  | .week => "week"
  | .month => "month"
  | .year => "year"

theorem StepUnit.text_spec (unit : StepUnit) : (∀ c ∈ unit.text.toList, isWhitespace c = false) ∧
    unit.text.toList.takeWhile isAsciiDigit = [] ∧ unit.text.toList.dropWhile isAsciiDigit = unit.text.toList ∧
      parseUnit unit.text.toList = .ok unit := by
  refine ⟨all_iff_forall_prop.1 ?_, ?_, ?_, ?_⟩ <;> cases unit <;> decide

theorem parseStepAs_spelled (what : String) (unit : StepUnit) {n : Int} (hn : 0 < n) (hlt : n < 2 ^ 63) :
    parseStepAs what (toString n ++ unit.text) =
      if n > MAX_STEP then .error ⟨what, toString n ++ unit.text, .aboveMax⟩ else .ok (unit.step n hn) := by
  obtain ⟨hspace, htake, hdrop, hunit⟩ := unit.text_spec
  have hdigits : ∀ c ∈ (toString n).toList, isAsciiDigit c = true := by
    obtain ⟨k, rfl⟩ := Int.eq_ofNat_of_zero_le hn.le
    intro c hc
    exact isAsciiDigit_of_mem_toDigits (toList_toString_ofNat k ▸ hc)
  have htrim : trim (toString n ++ unit.text).toList = (toString n).toList ++ unit.text.toList := by
    rw [String.toList_append]
    refine Words.trim_of_no_space fun c hc => ?_
    rcases mem_append.1 hc with hc | hc
    · have hd := isAsciiDigit_iff.1 (hdigits c hc)
      simp [isWhitespace]
      omega
    · exact hspace c hc
  unfold parseStepAs
  dsimp only
  rw [htrim, takeWhile_append_of_pos hdigits, dropWhile_append_of_pos hdigits, htake, hdrop, append_nil,
    parseI64_toString (by omega) hlt, hunit]
  exact dif_pos hn

/-- How many units `--every` writes a width in. -/
def Width.count : Width → Int
  | .months n => if n % 12 = 0 then n / 12 else n
  | .seconds s => if s / 86400 % 7 = 0 then s / 86400 / 7 else s / 86400

theorem everyOf_steps (hw : ∀ n, w = .months n ∨ w = .seconds n → 0 < n ∧ n < 2 ^ 63) (h : everyOf w = some every) :
    (∃ step, parseStep every = .ok step ∧ widthOf step = w) ↔ w.count ≤ MAX_STEP := by
  have hunit : ∀ (unit : StepUnit) (n : Int), every = toString n ++ unit.text → (hn : 0 < n) → n < 2 ^ 63 →
      w.count = n → widthOf (unit.step n hn) = w →
        ((∃ step, parseStep every = .ok step ∧ widthOf step = w) ↔ w.count ≤ MAX_STEP) := by
    rintro unit n rfl hn hlt hcount hwidth
    rw [parseStep, parseStepAs_spelled _ unit hn hlt, hcount]
    by_cases hmax : n > MAX_STEP
    · rw [if_pos hmax]
      simp [not_le.2 hmax]
    · rw [if_neg hmax]
      simp [not_lt.1 hmax, hwidth]
  cases w with
  | months n =>
    obtain ⟨hpos, hlt⟩ := hw n (.inl rfl)
    unfold everyOf at h
    dsimp only at h
    split_ifs at h with hyear
    · refine hunit .year (n / 12) (Option.some.inj h).symm (by omega) (by omega) (if_pos hyear) ?_
      show Width.months (12 * (n / 12)) = _
      rw [Int.mul_ediv_cancel' (Int.dvd_of_emod_eq_zero hyear)]
    · exact hunit .month n (Option.some.inj h).symm hpos hlt (if_neg hyear) rfl
  | seconds s =>
    obtain ⟨hpos, hlt⟩ := hw s (.inr rfl)
    unfold everyOf at h
    dsimp only at h
    split_ifs at h with hday hweek
    · refine hunit .week (s / 86400 / 7) (Option.some.inj h).symm (by omega) (by omega) (if_pos hweek) ?_
      show Width.seconds (7 * (s / 86400 / 7) * 86400) = _
      congr 1
      omega
    · refine hunit .day (s / 86400) (Option.some.inj h).symm (by omega) (by omega) (if_neg hweek) ?_
      show Width.seconds (s / 86400 * 86400) = _
      congr 1
      omega

/-- The step a remedy names leads from one bound to the other. -/
def StepsOver (key : Key) (every : String) (a b : Val) : Prop :=
  match key, a, b with
  | .integer int, .int a, .int b => parseIntegerStep int every = .ok (b - a)
  | _, .time a, .time b => ∃ step, parseStep every = .ok step ∧ widthBetween a b = some (widthOf step)
  | _, _, _ => False

/-- The bounds are no further apart than the longest step there is. -/
def StepMay (a b : Val) : Prop :=
  match a, b with
  | .time a, .time b => ∀ w, widthBetween a b = some w → w.count ≤ MAX_STEP
  | _, _ => True

theorem exists_ends_of_everyFor (h : everyFor newest = some every) : ∃ lo hi, newest.lo = some lo ∧ newest.hi = some hi := by
  unfold everyFor at h
  split at h
  next lo hi hlo hhi => exact ⟨lo, hi, hlo, hhi⟩
  next => cases h

theorem everyFor_steps (hkey : Key.of ty = some key) {lo hi : End key} (hlo : newest.lo = some lo) (hhi : newest.hi = some hi)
    (hlt : lo.val < hi.val) (h : everyFor newest = some every) : StepsOver key every lo.val hi.val ↔ StepMay lo.val hi.val := by
  unfold everyFor at h
  rw [hlo, hhi] at h
  dsimp only at h
  by_cases hk : ∀ int, key ≠ .integer int
  · obtain ⟨a, ha, hap⟩ := lo.exists_time hk
    obtain ⟨b, hb, hbp⟩ := hi.exists_time hk
    rw [ha, hb] at h ⊢
    obtain ⟨w, hw, hevery⟩ := Option.bind_eq_some_iff.1 h
    have hsteps : StepsOver key every (.time a) (.time b) ↔ ∃ step, parseStep every = .ok step ∧ widthOf step = w := by
      have hwidth : StepsOver key every (.time a) (.time b) ↔
          ∃ step, parseStep every = .ok step ∧ widthBetween a b = some (widthOf step) := by
        cases key with
        | integer int => exact absurd rfl (hk int)
        | date | timestamp | timestampTz => exact Iff.rfl
      rw [hwidth, hw]
      simp [eq_comm]
    have hmay : StepMay (.time a) (.time b) ↔ w.count ≤ MAX_STEP := by
      show (∀ w, widthBetween a b = some w → w.count ≤ MAX_STEP) ↔ _
      rw [hw]
      simp
    rw [hsteps, hmay]
    refine everyOf_steps (fun n hn => ?_) hevery
    have hrange := (widthBetween_range hap hbp hw hn).1
    omega
  · rw [not_forall] at hk
    obtain ⟨int, hint⟩ := hk
    rw [not_not] at hint
    subst hint
    obtain ⟨a, ha, harange⟩ := lo.exists_int
    obtain ⟨b, hb, hbrange⟩ := hi.exists_int
    obtain ⟨hmin, hmax⟩ := Key.bounds_of hkey
    rw [ha, hb] at h hlt ⊢
    rw [Val.int_lt] at hlt
    refine iff_of_true ?_ trivial
    show parseIntegerStep int every = .ok (b - a)
    obtain ⟨k, hk⟩ := Int.eq_ofNat_of_zero_le (Int.sub_nonneg.2 hlt.le)
    obtain rfl := Option.some.inj h
    have htext : (toString (b - a)).toList = Nat.toDigits 10 k := by rw [hk, toList_toString_ofNat]
    have htrim : trim (toString (b - a)).toList = Nat.toDigits 10 k := by
      rw [htext]
      refine Words.trim_of_no_space fun c hc => ?_
      have hd := isAsciiDigit_iff.1 (isAsciiDigit_of_mem_toDigits hc)
      simp [isWhitespace]
      omega
    unfold parseIntegerStep
    dsimp only
    rw [htrim, digitsValue_toDigits, hk]
    refine if_pos ⟨by omega, ?_, all_toDigits k⟩
    exact (Nat.length_toDigits_le_iff (by decide) (by decide)).2 (by omega)

end Pbps.Partition
