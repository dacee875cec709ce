/-
The remedy of a short series: what a catalog of ranges is, what extends it by partitions of one width, and when the series
so extended is covered.
-/
import Pbps.Partition.Target

namespace Pbps.Partition

open Except (bind_eq_ok_iff)
open List

variable {key : Key}

/-! ## Catalogs -/

def Range.Below (r r' : Range key) : Prop := ∃ hi lo, r.hi = some hi ∧ r'.lo = some lo ∧ hi.val ≤ lo.val

/-- The range partitions of one parent: each ends, none is empty, and no two overlap. -/
structure Catalog (ranges : List (Range key)) : Prop where
  finite : ∀ r ∈ ranges, ∃ hi, r.hi = some hi
  nonempty : ∀ r ∈ ranges, ∀ lo hi, r.lo = some lo → r.hi = some hi → lo.val < hi.val
  apart : ranges.Pairwise fun r r' => r.Below r' ∨ r'.Below r

/-- No partition ends later. -/
def IsNewest (ranges : List (Range key)) (r : Range key) : Prop := r ∈ ranges ∧ ∀ r' ∈ ranges, r'.endVal ≤ r.endVal

variable {r : Range key} {ranges : List (Range key)} {x y c t : Civil}

theorem Range.endVal_eq {hi : End key} (h : r.hi = some hi) : r.endVal = (hi.val : WithBot Val) := by
  rw [Range.endVal, h]
  rfl

theorem of_newestFirst {rest : List (Range key)} (h : newestFirst ranges = r :: rest) : IsNewest ranges r := by
  have hmem : ∀ r', r' ∈ r :: rest ↔ r' ∈ ranges := by
    intro r'
    rw [← h, newestFirst, mem_insertionSort]
  have hsorted : (newestFirst ranges).Pairwise fun a b => b.endVal ≤ a.endVal := by
    have : Std.Total fun a b : Range key => b.endVal ≤ a.endVal := ⟨fun a b => le_total _ _⟩
    have : IsTrans (Range key) fun a b => b.endVal ≤ a.endVal := ⟨fun a b c hab hbc => hbc.trans hab⟩
    exact pairwise_insertionSort _ ranges
  rw [h, pairwise_cons] at hsorted
  refine ⟨(hmem r).1 mem_cons_self, fun r' hr' => ?_⟩
  rcases mem_cons.1 ((hmem r').2 hr') with rfl | hr'
  · exact le_refl _
  · exact hsorted.1 r' hr'

theorem exists_newestFirst (h : r ∈ ranges) : ∃ newest rest, newestFirst ranges = newest :: rest := by
  cases hsort : newestFirst ranges with
  | nil =>
    have := (mem_insertionSort fun a b : Range key => b.endVal ≤ a.endVal).2 h
    rw [← newestFirst, hsort] at this
    cases this
  | cons newest rest => exact ⟨newest, rest, rfl⟩

namespace Catalog

variable {catalog : List (Range key)} {r r' : Range key}

theorem eq_or_below (h : Catalog catalog) (hr : r ∈ catalog) (hr' : r' ∈ catalog) : r = r' ∨ r.Below r' ∨ r'.Below r := by
  by_cases heq : r = r'
  · exact .inl heq
  · have : Std.Symm fun r r' : Range key => r.Below r' ∨ r'.Below r := ⟨fun _ _ hab => hab.symm⟩
    exact .inr (h.apart.forall hr hr' heq)

variable (h : Catalog catalog) (hr : IsNewest catalog r)
include h hr

theorem newest_unique (hr' : IsNewest catalog r') : r = r' := by
  have hbelow : ∀ {r r' : Range key}, IsNewest catalog r → IsNewest catalog r' → ¬ r.Below r' := by
    rintro r r' hr hr' ⟨hi, lo, hhi, hlo, hle⟩
    obtain ⟨hi', hhi'⟩ := h.finite r' hr'.1
    have hends := hr.2 r' hr'.1
    rw [Range.endVal_eq hhi, Range.endVal_eq hhi', WithBot.coe_le_coe] at hends
    exact absurd (hle.trans_lt (h.nonempty r' hr'.1 lo hi' hlo hhi')) (not_lt.2 hends)
  rcases h.eq_or_below hr.1 hr'.1 with heq | hlt | hlt
  · exact heq
  · exact absurd hlt (hbelow hr hr')
  · exact absurd hlt (hbelow hr' hr)

theorem eq_newest (hlo : r.lo = none) (hr' : r' ∈ catalog) : r' = r := by
  rcases h.eq_or_below hr' hr.1 with heq | ⟨hi, lo, -, hlo', -⟩ | ⟨hi, lo, hhi, hlo', hle⟩
  · exact heq
  · rw [hlo] at hlo'
    cases hlo'
  · obtain ⟨hi', hhi'⟩ := h.finite r' hr'
    have hends := hr.2 r' hr'
    rw [Range.endVal_eq hhi, Range.endVal_eq hhi', WithBot.coe_le_coe] at hends
    exact absurd (hle.trans_lt (h.nonempty r' hr' lo hi' hlo' hhi')) (not_lt.2 hends)

end Catalog

/-! ## The verdict -/

section Verdict

variable {catalog declared rest : List (Range key)} {occupied newest : Range key} {reference : End key} {horizon : Horizon}

section

variable (hfin : ∀ r ∈ catalog, ∃ hi, r.hi = some hi)

include hfin

theorem isOpenEnded_eq_false : isOpenEnded catalog = false := by
  rw [isOpenEnded, any_eq_false]
  intro r hr
  obtain ⟨hi, hhi⟩ := hfin r hr
  simp [hhi]

theorem covers_until (v w : Val) : covers catalog w (.until_ v) = true ↔ ∃ hi ∈ catalog.filterMap (·.hi), v ≤ hi.val := by
  rw [covers, isOpenEnded_eq_false hfin, Bool.false_or, any_eq_true]
  simp only [decide_eq_true_eq]

theorem covers_partitions (k : Nat) (w : Val) :
    covers catalog w (.partitions k) = true ↔ k ≤ (catalog.filterMap (·.hi)).countP fun hi => w < hi.val := by
  rw [covers, isOpenEnded_eq_false hfin]
  simp

theorem covers_beyond (b : Beyond) (w : Val) : covers catalog w (.beyond b) = false := by
  rw [covers, isOpenEnded_eq_false hfin]
  rfl

theorem assess_eq_covered (hnewest : newestFirst catalog = newest :: rest)
    (hreference : occupied.lo.or occupied.hi = some reference) : assess key catalog declared occupied horizon = .ok .covered ↔
      ∃ needed words, need key horizon reference newest = .ok (needed, words) ∧ covers catalog reference.val needed = true := by
  obtain ⟨frontier, hfrontier⟩ := hfin newest (of_newestFirst hnewest).1
  unfold assess
  rw [isOpenEnded_eq_false hfin, hnewest]
  dsimp only
  rw [hfrontier, hreference, if_neg (by decide)]
  dsimp only
  rw [bind_eq_ok_iff]
  constructor
  · rintro ⟨⟨needed, words⟩, hneed, h⟩
    refine ⟨needed, words, hneed, ?_⟩
    by_contra hnot
    dsimp only at h
    rw [if_neg hnot] at h
    split at h <;> cases h
  · rintro ⟨needed, words, hneed, hcovers⟩
    refine ⟨(needed, words), hneed, ?_⟩
    dsimp only
    rw [if_pos hcovers]
    rfl

theorem exists_of_short {s : Short} (h : assess key catalog declared occupied horizon = .ok (.short s)) :
    ∃ newest reference needed words, IsNewest catalog newest ∧ occupied.lo.or occupied.hi = some reference ∧
      need key horizon reference newest = .ok (needed, words) ∧ covers catalog reference.val needed = false ∧
        s.reach = needed.reach key ∧ s.every = everyFor newest := by
  unfold assess at h
  rw [isOpenEnded_eq_false hfin, if_neg (by decide)] at h
  split at h
  next => cases h
  next newest rest hnewest =>
    split at h
    next => cases h
    next frontier hfrontier =>
      split at h
      next => cases h
      next reference hreference =>
        obtain ⟨⟨needed, words⟩, hneed, h⟩ := bind_eq_ok_iff.1 h
        dsimp only at h
        split_ifs at h with hcovers
        · cases h
        · refine ⟨newest, reference, needed, words, of_newestFirst hnewest, hreference, hneed, by simpa using hcovers, ?_⟩
          split at h
          next => cases h
          next =>
            obtain rfl := Verdict.short.inj (Except.ok.inj h)
            exact ⟨rfl, rfl⟩

end

end Verdict

/-! ## Extensions -/

/-- Where a value lies on its key's axis: microseconds, or the integers. -/
def Val.axis : Val → Int
  | .time c => c.instant
  | .int i => i

/-- How wide a partition is: so many months, or so much of the axis. -/
inductive Measure where
  | months (n : Int)
  | axis (n : Int)

/-- The width of a partition between two bounds: months where it is laid out by months. -/
def Measure.of : Val → Val → Measure
  | .time a, .time b => if a.Aligned ∧ b.Aligned then .months (b.month - a.month) else .axis (b.instant - a.instant)
  | a, b => .axis (b.axis - a.axis)

def Measure.Leads : Measure → Val → Val → Prop
  | .months n, .time a, .time b => a.Aligned ∧ b.Aligned ∧ b.month = a.month + n
  | .months _, _, _ => False
  | .axis n, a, b => b.axis = a.axis + n

def ranged (p : End key × End key) : Range key := ⟨some p.1, some p.2⟩

/-- Partitions of one width that go on from where the newest ends: of the newest's width, if it has one. -/
structure Extension (newest : Range key) (measure : Measure) (added : List (End key × End key)) : Prop where
  width : ∀ lo hi, newest.lo = some lo → newest.hi = some hi → measure = Measure.of lo.val hi.val
  tiles : ∃ hi last, newest.hi = some hi ∧ Tiling.Tiles hi.val (added.map fun p => (p.1.val, p.2.val)) last
  leads : ∀ p ∈ added, measure.Leads p.1.val p.2.val

section Extended

variable {catalog extended : List (Range key)} {newest : Range key} {measure : Measure} {added : List (End key × End key)}
  {first : End key} {last : End key × End key}

theorem Extension.last_spec (h : Extension newest measure added) (hfirst : newest.hi = some first)
    (hlast : last ∈ added.getLast?) : first.val ≤ last.1.val ∧ last.1.val < last.2.val ∧
      measure.Leads last.1.val last.2.val ∧ (∀ p ∈ added, p ≠ last → p.2.val ≤ last.1.val) ∧
        ∀ height : Val → Int, ∀ n, (∀ p ∈ added, height p.2.val = height p.1.val + n) →
          height last.2.val = height first.val + added.length * n := by
  obtain ⟨init, rfl⟩ := List.getLast?_eq_some_iff.1 hlast
  obtain ⟨first', end_, hfirst', htiles⟩ := h.tiles
  obtain rfl : first = first' := Option.some.inj (hfirst.symm.trans hfirst')
  obtain ⟨b, hinit, hb, hlt, hend⟩ :
      ∃ b, Tiling.Tiles first.val (init.map fun p => (p.1.val, p.2.val)) b ∧ last.1.val = b ∧
        last.1.val < last.2.val ∧ last.2.val = end_ := by
    rw [map_append] at htiles
    exact Tiling.tiles_append.1 htiles
  refine ⟨hb ▸ hinit.le, hlt, h.leads _ (mem_append_right _ mem_cons_self), ?_, ?_⟩
  · intro p hp hne
    rcases mem_append.1 hp with hp | hp
    · rw [hb]
      exact hinit.snd_le _ (mem_map_of_mem hp)
    · exact absurd (mem_singleton.1 hp) hne
  · intro height n hclimb
    have hclimbs : ∀ p ∈ (init ++ [last]).map fun p => (p.1.val, p.2.val), height p.2 = height p.1 + n := by
      intro p hp
      obtain ⟨q, hq, rfl⟩ := mem_map.1 hp
      exact hclimb q hq
    have := htiles.climb hclimbs
    rwa [length_map, ← hend] at this

theorem Extension.newestFirst_eq (h : Extension newest measure added) (hcat : Catalog catalog) (hnew : IsNewest catalog newest)
    (hperm : extended.Perm (catalog ++ added.map ranged)) (hlast : last ∈ added.getLast?) :
    (∀ r ∈ extended, ∃ hi, r.hi = some hi ∧ hi.val ≤ last.2.val) ∧ ranged last ∈ extended ∧
      ∃ rest, newestFirst extended = ranged last :: rest := by
  obtain ⟨first, hfirst⟩ := hcat.finite newest hnew.1
  obtain ⟨hle, hlt, -, hbefore, -⟩ := h.last_spec hfirst hlast
  -- What is not the last partition ends before it does.
  have hends : ∀ r ∈ extended, r = ranged last ∨ ∃ hi, r.hi = some hi ∧ hi.val < last.2.val := by
    intro r hr
    rcases mem_append.1 (hperm.mem_iff.1 hr) with hr | hr
    · obtain ⟨hi, hhi⟩ := hcat.finite r hr
      have hup := hnew.2 r hr
      rw [Range.endVal_eq hhi, Range.endVal_eq hfirst, WithBot.coe_le_coe] at hup
      exact .inr ⟨hi, hhi, (hup.trans hle).trans_lt hlt⟩
    · obtain ⟨p, hp, rfl⟩ := mem_map.1 hr
      by_cases hne : p = last
      · exact .inl (by rw [hne])
      · exact .inr ⟨p.2, rfl, (hbefore p hp hne).trans_lt hlt⟩
  have hmem : ranged last ∈ extended :=
    hperm.mem_iff.2 (mem_append_right _ (mem_map_of_mem (mem_of_getLast? hlast)))
  refine ⟨?_, hmem, ?_⟩
  · intro r hr
    rcases hends r hr with rfl | ⟨hi, hhi, hlt⟩
    · exact ⟨last.2, rfl, le_refl _⟩
    · exact ⟨hi, hhi, hlt.le⟩
  · obtain ⟨r, rest, hrest⟩ := exists_newestFirst hmem
    obtain ⟨hr, hup⟩ := of_newestFirst hrest
    rcases hends r hr with rfl | ⟨hi, hhi, hlt⟩
    · exact ⟨rest, hrest⟩
    · have hle := hup _ hmem
      rw [Range.endVal_eq hhi, Range.endVal_eq (show (ranged last).hi = some last.2 from rfl), WithBot.coe_le_coe] at hle
      exact absurd hlt (not_lt.2 hle)

variable (hcat : Catalog catalog) (hnew : IsNewest catalog newest) (hlo : newest.lo = none) (hfirst : newest.hi = some first)
include hcat hnew hlo hfirst

theorem reference_of_none {occupied : Range key} (hoccupied : occupied ∈ catalog) {reference : End key}
    (hreference : occupied.lo.or occupied.hi = some reference) : reference = first := by
  rw [hcat.eq_newest hnew hlo hoccupied, hlo, hfirst] at hreference
  exact (Option.some.inj hreference).symm

theorem length_of_none (hperm : extended.Perm (catalog ++ added.map ranged)) {k : Nat}
    (h : k ≤ (extended.filterMap (·.hi)).countP fun hi => first.val < hi.val) : k ≤ added.length := by
  rw [(hperm.filterMap _).countP_eq, filterMap_append, countP_append] at h
  have hold : (catalog.filterMap (·.hi)).countP (fun hi => first.val < hi.val) = 0 := by
    rw [countP_eq_zero]
    intro hi hhi
    obtain ⟨r, hr, hhi⟩ := mem_filterMap.1 hhi
    rw [hcat.eq_newest hnew hlo hr, hfirst] at hhi
    obtain rfl := Option.some.inj hhi
    simp
  have hadded : ((added.map ranged).filterMap (·.hi)).length = added.length := by
    rw [filterMap_map]
    show (added.filterMap fun p => some p.2).length = _
    rw [filterMap_eq_map', length_map]
  have hle := countP_le_length (p := fun hi : End key => first.val < hi.val) (l := (added.map ranged).filterMap (·.hi))
  omega

end Extended

/-! ## The default horizon -/

theorem widthBetween_congr {a b : Civil} (ha : a.Timed) (hb : b.Timed) (hx : x.Timed) (hy : y.Timed) {n k : Int}
    (hab : b.instant = a.instant + n) (hxy : y.instant = x.instant + n) (hby : y.instant = b.instant + k * n) (hpos : 0 < n)
    (hnot : ¬ (a.Aligned ∧ b.Aligned)) (hnot' : ¬ (x.Aligned ∧ y.Aligned)) : widthBetween a b = widthBetween x y := by
  have hlt : a < b := (Civil.instant_lt_iff ha hb).1 (by omega)
  have hlt' : x < y := (Civil.instant_lt_iff hx hy).1 (by omega)
  have hmicros : ∀ {c : Civil}, c.Timed → (c.micros = 0 ↔ (1000000 : Int) ∣ c.instant) := by
    intro c hc
    have hrange := hc.2.2
    unfold Civil.instant
    omega
  -- All four are whole seconds where two a width apart are.
  have hwhole : (a.micros = 0 ∧ b.micros = 0) ↔ x.micros = 0 ∧ y.micros = 0 := by
    rw [hmicros ha, hmicros hb, hmicros hx, hmicros hy]
    constructor
    · rintro ⟨hda, hdb⟩
      have hn : (1000000 : Int) ∣ n := by omega
      have hkn := hn.mul_left k
      omega
    · rintro ⟨hdx, hdy⟩
      have hn : (1000000 : Int) ∣ n := by omega
      have hkn := hn.mul_left k
      omega
  ext w
  rw [widthBetween_eq_some, widthBetween_eq_some]
  simp only [hlt, hlt', hnot, hnot', hwhole, true_and, false_and, false_or, not_false_eq_true]
  refine and_congr_right fun hzero => ?_
  obtain ⟨hazero, hbzero⟩ := hwhole.2 hzero
  obtain ⟨hxzero, hyzero⟩ := hzero
  have hseconds : b.seconds - a.seconds = y.seconds - x.seconds := by
    unfold Civil.instant at hab hxy
    omega
  rw [hseconds]

/-- Where the last partition added is laid out by months, rows held from so many months before it. -/
def Keeps (horizon : Horizon) (reference : Val) (last : Val × Val) : Prop :=
  ∀ c x y, horizon = .default → reference = .time c → last = (.time x, .time y) → x.Aligned → y.Aligned →
    c ≤ Civil.monthStart (2 * x.month - y.month)

theorem years_of_le {key' : Key} (hc : c.Printed key) (hy : y.Printed key') (hct : c ≤ t) (hty : t ≤ y) :
    YEARS t.y := ⟨hc.1.1.1.trans (Civil.year_le hct), (Civil.year_le hty).trans hy.1.1.2⟩

/-- Twice the months between two values past another is no later than the second of them where that other is as many months
before the first. -/
theorem le_aligned_iff_monthStart (hc : c.Timed) (ht : t.Timed) (hy : y.IsDate) (hy' : y.Aligned)
    (hmonth : t.month = c.month + (y.month - x.month) * 2) (haligned : t.Aligned ↔ c.Aligned) :
    t ≤ y ↔ c ≤ Civil.monthStart (2 * x.month - y.month) := by
  obtain ⟨hdate, hstart, hnumber⟩ := Civil.monthStart_spec (2 * x.month - y.month)
  rw [Civil.le_aligned_iff ht hy hy', Civil.le_aligned_iff hc hdate hstart, hnumber, haligned]
  exact or_congr (by omega) (and_congr_left fun _ => by omega)

section Default

variable {catalog extended : List (Range key)} {newest occupied : Range key} {measure : Measure}
  {added : List (End key × End key)} {last : End key × End key} {reference : End key}

theorem covers_until_last (hmax : ∀ r ∈ extended, ∃ hi, r.hi = some hi ∧ hi.val ≤ last.2.val)
    (hmem : ranged last ∈ extended) (v w : Val) : covers extended w (.until_ v) = true ↔ v ≤ last.2.val := by
  rw [covers_until fun r hr => (hmax r hr).imp fun hi h => h.1]
  constructor
  · rintro ⟨hi, hhi, hle⟩
    obtain ⟨r, hr, hhi⟩ := mem_filterMap.1 hhi
    obtain ⟨hi', hhi', hup⟩ := hmax r hr
    obtain rfl := Option.some.inj (hhi.symm.trans hhi')
    exact hle.trans hup
  · exact fun hle => ⟨last.2, mem_filterMap.2 ⟨_, hmem, rfl⟩, hle⟩

/-- A series of a date or time key that is extended to its target is covered by the default horizon, unless its last
partition is read as months too long. -/
theorem covers_twice_time (hk : ∀ int, key ≠ .integer int) (hcat : Catalog catalog) (hnew : IsNewest catalog newest)
    (hoccupied : occupied ∈ catalog) (hreference : occupied.lo.or occupied.hi = some reference)
    (hext : Extension newest measure added) (hperm : extended.Perm (catalog ++ added.map ranged))
    (hlast : last ∈ added.getLast?) (hcovers : covers extended reference.val (needTwice key reference newest) = true) :
    covers extended reference.val (needTwice key reference (ranged last)) = true ↔
      Keeps .default reference.val (last.1.val, last.2.val) := by
  obtain ⟨hmax, hmem, -⟩ := hext.newestFirst_eq hcat hnew hperm hlast
  obtain ⟨first, hfirst⟩ := hcat.finite newest hnew.1
  obtain ⟨-, hlt, hleads, -, hclimb⟩ := hext.last_spec hfirst hlast
  have huntil := covers_until_last hmax hmem
  obtain ⟨c, hc, hcp⟩ := reference.exists_time hk
  obtain ⟨f, hf, hfp⟩ := first.exists_time hk
  obtain ⟨x, hx, hxp⟩ := last.1.exists_time hk
  obtain ⟨y, hy, hyp⟩ := last.2.exists_time hk
  have hneed := needTwice_time (show (ranged last).lo = some last.1 from rfl) rfl hc hx hy
  rw [hx, hy] at hlt hleads ⊢
  rw [Val.time_lt] at hlt
  by_cases haligned : x.Aligned ∧ y.Aligned
  · -- The last partition is read as months, whatever the others are.
    have hwidth : widthBetween x y = some (.months (y.month - x.month)) :=
      widthBetween_eq_some.2 ⟨hlt, .inl ⟨haligned, rfl⟩⟩
    obtain ⟨t, ht, hmonth, hal, -, hadd⟩ := exists_add_months hcp.timed (y.month - x.month) 2
    have hle := le_aligned_iff_monthStart hcp.timed ht hyp.timed.1 haligned.2 hmonth hal
    have hkeeps : Keeps .default reference.val (.time x, .time y) ↔ c ≤ Civil.monthStart (2 * x.month - y.month) := by
      constructor
      · exact fun h => h c x y rfl hc rfl haligned.1 haligned.2
      · rintro h c' x' y' - hc' hxy - -
        obtain rfl : c = c' := Val.time.inj (hc.symm.trans hc')
        obtain ⟨hx', hy'⟩ := Prod.mk.inj hxy
        rw [← Val.time.inj hx', ← Val.time.inj hy']
        exact h
    rw [hkeeps, hneed, hwidth, ← hle]
    dsimp only
    rw [hadd]
    by_cases hyear : YEARS t.y
    · rw [if_pos hyear]
      dsimp only
      rw [huntil, hy, Val.time_le]
    · rw [if_neg hyear]
      dsimp only
      rw [covers_beyond fun r hr => (hmax r hr).imp fun hi h => h.1]
      refine iff_of_false (by decide) fun hty => hyear ⟨?_, (Civil.year_le hty).trans hyp.1.1.2⟩
      have hmonths := Civil.month_lt hxp.timed hyp.timed.1 haligned.2 hlt
      have hcy := hcp.1.1.1
      have hcm := hcp.timed.1.1
      have htm := ht.1.1
      unfold Civil.month at hmonth hmonths
      omega
  · -- It is read as the newest is.
    refine iff_of_true ?_ ?_
    · obtain ⟨n, rfl⟩ : ∃ n, measure = .axis n := by
        cases measure with
        | months n => exact absurd ⟨hleads.1, hleads.2.1⟩ haligned
        | axis n => exact ⟨n, rfl⟩
      have hyx : y.instant = x.instant + n := hleads
      have hyf : y.instant = f.instant + added.length * n := by
        have := hclimb Val.axis n hext.leads
        rwa [hy, hf] at this
      have hpos : 0 < n := by
        have := (Civil.instant_lt_iff hxp.timed hyp.timed).2 hlt
        omega
      cases hlo : newest.lo with
      | some lo =>
        obtain ⟨a, ha, hap⟩ := lo.exists_time hk
        have hwidth := hext.width lo first hlo hfirst
        rw [ha, hf] at hwidth
        unfold Measure.of at hwidth
        dsimp only at hwidth
        split_ifs at hwidth with hmonths
        have hn : n = f.instant - a.instant := Measure.axis.inj hwidth
        have hsame := widthBetween_congr hap.timed hfp.timed hxp.timed hyp.timed (by omega) hyx hyf hpos hmonths haligned
        rwa [hneed, ← hsame, ← needTwice_time hlo hfirst hc ha hf]
      | none =>
        rw [needTwice_none hlo] at hcovers
        obtain rfl := reference_of_none hcat hnew hlo hfirst hoccupied hreference
        obtain rfl : c = f := Val.time.inj (hc.symm.trans hf)
        have hmany := length_of_none hcat hnew hlo hfirst hperm
          ((covers_partitions (fun r hr => (hmax r hr).imp fun hi h => h.1) 2 _).1 hcovers)
        cases hwidth : widthBetween x y with
        | none =>
          rw [hneed, hwidth]
          exact hcovers
        | some w =>
          rcases widthBetween_eq_some.1 hwidth with ⟨-, ⟨h, -⟩ | ⟨-, ⟨hxzero, hyzero⟩, rfl⟩⟩
          · exact absurd h haligned
          · have hn : n = (y.seconds - x.seconds) * 1000000 := by
              unfold Civil.instant at hyx
              omega
            obtain ⟨t, ht, hinstant, -, hadd⟩ :=
              exists_add_seconds hcp.timed (show 0 ≤ (y.seconds - x.seconds) * 2 by omega)
            have hty : t ≤ y := by
              rw [← Civil.instant_le_iff ht hyp.timed]
              have := Int.mul_le_mul_of_nonneg_right (show (2 : Int) ≤ added.length by exact_mod_cast hmany) hpos.le
              omega
            have hct : c ≤ t := by
              rw [← Civil.instant_le_iff hcp.timed ht]
              omega
            rw [hneed, hwidth]
            dsimp only
            rw [hadd, if_pos (years_of_le hcp hyp hct hty)]
            dsimp only
            rw [huntil, hy, Val.time_le]
            exact hty
    · rintro c' x' y' - - hxy hx' hy'
      obtain ⟨hxx, hyy⟩ := Prod.mk.inj hxy
      rw [← Val.time.inj hxx] at hx'
      rw [← Val.time.inj hyy] at hy'
      exact absurd ⟨hx', hy'⟩ haligned

theorem covers_twice_int {int : IntType} {catalog extended : List (Range (.integer int))} {newest occupied : Range (.integer int)}
    {added : List (End (.integer int) × End (.integer int))} {last : End (.integer int) × End (.integer int)}
    {reference : End (.integer int)} (hcat : Catalog catalog) (hnew : IsNewest catalog newest)
    (hoccupied : occupied ∈ catalog) (hreference : occupied.lo.or occupied.hi = some reference)
    (hext : Extension newest measure added) (hperm : extended.Perm (catalog ++ added.map ranged))
    (hlast : last ∈ added.getLast?)
    (hcovers : covers extended reference.val (needTwice (.integer int) reference newest) = true) :
    covers extended reference.val (needTwice (.integer int) reference (ranged last)) = true := by
  obtain ⟨hmax, hmem, -⟩ := hext.newestFirst_eq hcat hnew hperm hlast
  obtain ⟨first, hfirst⟩ := hcat.finite newest hnew.1
  obtain ⟨-, hlt, hleads, -, hclimb⟩ := hext.last_spec hfirst hlast
  obtain ⟨r, hr, -⟩ := reference.exists_int
  obtain ⟨f, hf, -⟩ := first.exists_int
  obtain ⟨x, hx, -⟩ := last.1.exists_int
  obtain ⟨y, hy, hyrange⟩ := last.2.exists_int
  rw [hx, hy] at hlt hleads
  rw [Val.int_lt] at hlt
  obtain ⟨n, rfl⟩ : ∃ n, measure = .axis n := by
    cases measure with
    | months n => exact hleads.elim
    | axis n => exact ⟨n, rfl⟩
  have hyx : y = x + n := hleads
  have hyf : y = f + added.length * n := by
    have := hclimb Val.axis n hext.leads
    rwa [hy, hf] at this
  have hneed := needTwice_int (show (ranged last).lo = some last.1 from rfl) rfl hr hx hy
  cases hlo : newest.lo with
  | some lo =>
    obtain ⟨a, ha, -⟩ := lo.exists_int
    have hwidth := hext.width lo first hlo hfirst
    rw [ha, hf] at hwidth
    have hn : n = f - a := Measure.axis.inj hwidth
    have hsame : y - x = f - a := by omega
    rwa [hneed, hsame, ← needTwice_int hlo hfirst hr ha hf]
  | none =>
    rw [needTwice_none hlo] at hcovers
    obtain rfl := reference_of_none hcat hnew hlo hfirst hoccupied hreference
    obtain rfl : r = f := Val.int.inj (hr.symm.trans hf)
    have hmany := length_of_none hcat hnew hlo hfirst hperm
      ((covers_partitions (fun r hr => (hmax r hr).imp fun hi h => h.1) 2 _).1 hcovers)
    have hreach := Int.mul_le_mul_of_nonneg_right (show (2 : Int) ≤ added.length by exact_mod_cast hmany)
      (show 0 ≤ n by omega)
    rw [hneed, if_neg (by omega), covers_until_last hmax hmem, hy, Val.int_le]
    omega

/-- What a remedy asks for is there: so many later partitions, or one that reaches the target. -/
def Reach.Met (key : Key) (ranges : List (Range key)) (reference : Val) : Reach → Prop
  | .partitions k => k ≤ (ranges.filterMap (·.hi)).countP fun hi => reference < hi.val
  | .until_ text => ∃ target, readVal key text = .ok target ∧ ∃ hi ∈ ranges.filterMap (·.hi), target ≤ hi.val
  | .beyond _ => False

variable {ty : ColumnType} {horizon : Horizon}

theorem covers_of_met (hkey : Key.of ty = some key) {needed : Need} {words : String}
    (hnonempty : ∀ lo hi, newest.lo = some lo → newest.hi = some hi → lo.val < hi.val)
    (hneed : need key horizon reference newest = .ok (needed, words)) (hfin : ∀ r ∈ extended, ∃ hi, r.hi = some hi) {w : Val}
    (h : (needed.reach key).Met key extended w) : covers extended w needed = true := by
  cases needed with
  | partitions k => exact (covers_partitions hfin k w).2 h
  | until_ v =>
    obtain ⟨text, htext, hread⟩ := read_reach hkey hnonempty hneed
    rw [htext] at h
    obtain ⟨target, htarget, hreached⟩ := h
    obtain rfl : v = target := Except.ok.inj (hread.symm.trans htarget)
    exact (covers_until hfin v w).2 hreached
  | beyond b => exact h.elim

theorem need_congr (h : horizon ≠ .default) (reference : End key) (newest newest' : Range key) :
    need key horizon reference newest = need key horizon reference newest' := by
  cases horizon with
  | default => exact absurd rfl h
  | partitions k => rfl
  | width step text => rfl

/-- A short series that is extended to what is asked is covered, unless its last partition is read as months too long. -/
theorem assess_extended (hkey : Key.of ty = some key) {declared declared' : List (Range key)} {s : Short} (hcat : Catalog catalog)
    (hoccupied : occupied ∈ catalog) (hnew : IsNewest catalog newest)
    (h : assess key catalog declared occupied horizon = .ok (.short s)) (hreference : occupied.lo.or occupied.hi = some reference)
    (hext : Extension newest measure added) (hperm : extended.Perm (catalog ++ added.map ranged))
    (hmet : s.reach.Met key extended reference.val) (hlast : last ∈ added.getLast?) :
    assess key extended declared' occupied horizon = .ok .covered ↔ Keeps horizon reference.val (last.1.val, last.2.val) := by
  obtain ⟨newest', reference', needed, words, hnew', hreference', hneed, -, hreach, -⟩ := exists_of_short hcat.finite h
  obtain rfl := hcat.newest_unique hnew hnew'
  obtain rfl := Option.some.inj (hreference.symm.trans hreference')
  obtain ⟨hmax, -, rest, hrest⟩ := hext.newestFirst_eq hcat hnew hperm hlast
  have hfin : ∀ r ∈ extended, ∃ hi, r.hi = some hi := fun r hr => (hmax r hr).imp fun hi h => h.1
  rw [hreach] at hmet
  have hcovers := covers_of_met hkey (hcat.nonempty newest hnew.1) hneed hfin hmet
  rw [assess_eq_covered hfin hrest hreference]
  by_cases hdefault : horizon = .default
  · subst hdefault
    obtain ⟨rfl, -⟩ := Prod.mk.inj (Except.ok.inj hneed)
    have htwice : (∃ needed words, need key .default reference (ranged last) = .ok (needed, words) ∧
        covers extended reference.val needed = true) ↔
          covers extended reference.val (needTwice key reference (ranged last)) = true := by
      constructor
      · rintro ⟨needed, words, hneed, h⟩
        obtain ⟨rfl, -⟩ := Prod.mk.inj (Except.ok.inj hneed)
        exact h
      · exact fun h => ⟨_, _, rfl, h⟩
    rw [htwice]
    by_cases hk : ∀ int, key ≠ .integer int
    · exact covers_twice_time hk hcat hnew hoccupied hreference hext hperm hlast hcovers
    · rw [not_forall] at hk
      obtain ⟨int, hint⟩ := hk
      rw [not_not] at hint
      subst hint
      refine iff_of_true (covers_twice_int hcat hnew hoccupied hreference hext hperm hlast hcovers) ?_
      intro c x y _ hc _ _ _
      obtain ⟨r, hr, -⟩ := reference.exists_int
      rw [hc] at hr
      cases hr
  · rw [need_congr hdefault reference (ranged last) newest]
    refine iff_of_true ⟨needed, words, hneed, hcovers⟩ ?_
    intro c x y hset
    exact absurd hset hdefault

end Default

end Pbps.Partition
