/-
What the runway's finding asks for, done: the target it names and the step it gives read back as what they are, and the series
extended by them is covered, unless the last partition added is read as another width than the newest is.
-/
import Pbps.Partition.Covered
import Pbps.Partition.Overflow

namespace Pbps.Partition

open List

/-- The remedy of a short series. -/
theorem runway_remedy {ty : ColumnType} {key : Key} (hkey : Key.of ty = some key) {catalog declared : List (Range key)}
    {occupied newest : Range key} {horizon : Horizon} {s : Short} (hcatalog : Catalog catalog) (hoccupied : occupied ∈ catalog)
    (hnewest : IsNewest catalog newest) (h : assess key catalog declared occupied horizon = .ok (.short s)) :
    -- The target reads back.
    (∀ text, s.reach = .until_ text → ∃ reference v words, occupied.lo.or occupied.hi = some reference ∧
      need key horizon reference newest = .ok (.until_ v, words) ∧ readVal key text = .ok v) ∧
    -- The step is of the newest partition's width where a step may be so long.
    (∀ every, s.every = some every → ∃ lo hi, newest.lo = some lo ∧ newest.hi = some hi ∧
      (StepsOver key every lo.val hi.val ↔ StepMay lo.val hi.val)) ∧
    -- The extended series is covered where its last partition is not read as months too long.
    (∀ reference measure added last extended declared', occupied.lo.or occupied.hi = some reference →
      Extension newest measure added → extended.Perm (catalog ++ added.map ranged) →
        s.reach.Met key extended reference.val → last ∈ added.getLast? →
          (assess key extended declared' occupied horizon = .ok .covered ↔
            Keeps horizon reference.val (last.1.val, last.2.val))) ∧
    NoOverflow := by
  obtain ⟨newest', reference, needed, words, hnewest', hreference, hneed, -, hreach, hevery⟩ :=
    exists_of_short hcatalog.finite h
  obtain rfl := hcatalog.newest_unique hnewest hnewest'
  refine ⟨?_, ?_, ?_, noOverflow⟩
  · intro text htext
    rw [hreach] at htext
    cases needed with
    | partitions k => cases htext
    | beyond b => cases htext
    | until_ v =>
      obtain ⟨text', htext', hread⟩ := read_reach hkey (hcatalog.nonempty newest hnewest.1) hneed
      obtain rfl := Reach.until_.inj (htext.symm.trans htext')
      exact ⟨reference, v, words, hreference, hneed, hread⟩
  · intro every hs
    rw [hevery] at hs
    obtain ⟨lo, hi, hlo, hhi⟩ := exists_ends_of_everyFor hs
    exact ⟨lo, hi, hlo, hhi, everyFor_steps hkey hlo hhi (hcatalog.nonempty newest hnewest.1 lo hi hlo hhi) hs⟩
  · intro reference' measure added last extended declared' hreference' hext hperm hmet hlast
    exact assess_extended hkey hcatalog hoccupied hnewest h hreference' hext hperm hmet hlast

namespace Runway

def date (y m d : Int) (h : readVal .date (String.ofList (dateText y m d)) = .ok (.time ⟨y, m, d, 0, 0⟩)) : End .date :=
  ⟨_, _, h⟩

def december : End .date × End .date := (date 2026 12 1 rfl, date 2027 1 1 rfl)
def january : End .date × End .date := (date 2027 1 1 rfl, date 2027 2 1 rfl)
def february : End .date × End .date := (date 2027 2 1 rfl, date 2027 3 1 rfl)
def weeks : End .date × End .date := (date 2027 1 4 rfl, date 2027 2 1 rfl)
def ages : End .date × End .date := (date 1 1 1 rfl, date 9999 2 1 rfl)

theorem catalog_ranged {p : End .date × End .date} (h : p.1.val < p.2.val) : Catalog [ranged p] where
  finite r hr := ⟨p.2, by rw [mem_singleton.1 hr]; rfl⟩
  nonempty r hr lo hi hlo hhi := by
    obtain rfl := mem_singleton.1 hr
    obtain rfl := Option.some.inj hlo
    obtain rfl := Option.some.inj hhi
    exact h
  apart := pairwise_singleton _ _

theorem isNewest_ranged (p : End .date × End .date) : IsNewest [ranged p] (ranged p) :=
  ⟨mem_cons_self, fun r hr => by rw [mem_singleton.1 hr]⟩

/-- December's rows want January, which is added. -/
theorem runway_remedy_months : assess .date [ranged december, ranged january] [] (ranged december) .default = .ok .covered := by
  have hshort : assess .date [ranged december] [] (ranged december) .default =
      .ok (.short ⟨"2027-01-01", "2026-12-01", .until_ "2027-02-01", TWICE, some "1month", false⟩) := by decide
  have hkey : Key.of { base := "date" } = some .date := rfl
  have hremedy := (runway_remedy hkey (catalog_ranged (by decide)) mem_cons_self (isNewest_ranged december) hshort).2.2.1
  refine (hremedy december.1 (.months 1) [january] january _ [] rfl ?_ (Perm.refl _) ?_ rfl).2 ?_
  · refine ⟨?_, ⟨december.2, january.2.val, rfl, rfl, by decide, rfl⟩, ?_⟩
    · intro lo hi hlo hhi
      obtain rfl := Option.some.inj hlo
      obtain rfl := Option.some.inj hhi
      rfl
    · exact forall_mem_singleton.2 ⟨by decide, by decide, rfl⟩
  · exact ⟨_, rfl, january.2, mem_cons_of_mem _ mem_cons_self, le_refl _⟩
  · intro c x y _ hc hxy _ _
    obtain rfl := Val.time.inj hc
    obtain ⟨hx, hy⟩ := Prod.mk.inj hxy
    obtain rfl := Val.time.inj hx
    obtain rfl := Val.time.inj hy
    decide

/-- Four weeks to the end of January are short of March, and four more, which are February, reach it; but those are read as a
month, and the series is short again. And no step is so long as a partition of all but the last of the calendar. -/
theorem runway_remedy_february :
    (Catalog [ranged weeks] ∧ IsNewest [ranged weeks] (ranged weeks) ∧
      assess .date [ranged weeks] [] (ranged weeks) .default =
        .ok (.short ⟨"2027-02-01", "2027-01-04", .until_ "2027-03-01", TWICE, some "4week", false⟩) ∧
      Extension (ranged weeks) (.of weeks.1.val weeks.2.val) [february] ∧
      (Reach.until_ "2027-03-01").Met .date [ranged weeks, ranged february] weeks.1.val ∧
      assess .date [ranged weeks, ranged february] [] (ranged weeks) .default =
        .ok (.short ⟨"2027-03-01", "2027-01-04", .until_ "2027-03-04", TWICE, some "1month", false⟩)) ∧
    Catalog [ranged ages] ∧
      assess .date [ranged ages] [] (ranged ages) (.partitions 2) =
        .ok (.short ⟨"9999-02-01", "0001-01-01", .partitions 2, "2 partitions", some "119977month", false⟩) ∧
      parseStep "119977month" = .error ⟨"--every", "119977month", .aboveMax⟩ := by
  refine ⟨⟨catalog_ranged (by decide), isNewest_ranged weeks, by decide, ?_, ?_, by decide⟩, catalog_ranged (by decide),
    by decide, rfl⟩
  · refine ⟨?_, ⟨weeks.2, february.2.val, rfl, rfl, by decide, rfl⟩, ?_⟩
    · intro lo hi hlo hhi
      obtain rfl := Option.some.inj hlo
      obtain rfl := Option.some.inj hhi
      rfl
    · exact forall_mem_singleton.2 rfl
  · exact ⟨_, rfl, february.2, mem_cons_of_mem _ mem_cons_self, le_refl _⟩

end Runway

end Pbps.Partition
