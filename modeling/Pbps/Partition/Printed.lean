/-
What the engine prints of a bound is what the readers of bounds take: each value has one spelling, which reads back as
that value.
-/
import Pbps.Partition.Bound

namespace Pbps.Partition

open List Except

/-! ## Digits -/

variable {text l : List Char} {c : Civil} {secs micros : Int} {key : Key} {int : IntType}

variable {n v : Int} {i : Nat} {after rest ds : List Char}

theorem digitsOr_eq_ok (width : Nat) (hwidth : 0 < width ∧ width ≤ 18) :
    digitsOr text width = .ok n ↔ text = padded width n ∧ 0 ≤ n ∧ n < 10 ^ width := by
  have hread : ∀ {ds : List Char}, ds.length = width → ds.all isAsciiDigit = true →
      digits ds width = some (digitsValue ds : Int) := by
    intro ds hlen hds
    have hlt : (digitsValue ds : Int) < 2 ^ 63 := by
      have h := digitsValue_lt hds
      have hpow : 10 ^ ds.length ≤ 10 ^ 18 := Nat.pow_le_pow_right (by decide) (hlen ▸ hwidth.2)
      have : (10 : Nat) ^ 18 < 2 ^ 63 := by decide
      omega
    have hne : ds ≠ [] := by
      rintro rfl
      exact absurd hlen hwidth.1.ne
    rw [digits, if_pos ⟨hlen, hds⟩, (parseI64_digits hne (all_eq_true.1 hds)).1, if_neg (by omega)]
  constructor
  · intro h
    unfold digitsOr at h
    split at h
    next n' hn =>
      have hshape : text.length = width ∧ text.all isAsciiDigit = true := by
        by_contra hnot
        rw [digits, if_neg hnot] at hn
        cases hn
      rw [hread hshape.1 hshape.2] at hn
      cases h
      obtain rfl := Option.some.inj hn
      refine ⟨(padded_digitsValue hwidth.1 hshape.2 hshape.1).symm, Int.natCast_nonneg _, ?_⟩
      rw [← hshape.1]
      exact_mod_cast digitsValue_lt hshape.2
    next => cases h
  · rintro ⟨rfl, hn⟩
    obtain ⟨hlen, hds, hval⟩ := padded_spec hwidth.1 hn
    rw [digitsOr, hread hlen hds, hval]

theorem isAscii_of_isAsciiDigit {c : Char} (h : isAsciiDigit c = true) : isAscii c = true := by
  have := isAsciiDigit_iff.1 h
  rw [isAscii, decide_eq_true_eq]
  omega

theorem all_isAscii_padded {width : Nat} (hwidth : 0 < width) (hn : 0 ≤ n ∧ n < 10 ^ width) :
    (padded width n).all isAscii = true := by
  have h := (padded_spec hwidth hn).2.1
  rw [all_eq_true] at h ⊢
  exact fun c hc => isAscii_of_isAsciiDigit (h c hc)

/-! ## Three numbers with a mark between each two -/

theorem exists_append_of_getElem? {c : Char} (h : l[i]? = some c) : ∃ a r, l = a ++ c :: r ∧ a.length = i := by
  obtain ⟨hlt, hc⟩ := List.getElem?_eq_some_iff.1 h
  refine ⟨l.take i, l.drop (i + 1), ?_, length_take_of_le hlt.le⟩
  rw [← hc, ← drop_eq_getElem_cons hlt, take_append_drop]

theorem exists_pieces {j : Nat} {c : Char} (hi : l[i]? = some c) (hj : l[i + 1 + j]? = some c) :
    ∃ a b d, l = a ++ c :: (b ++ c :: d) ∧ a.length = i ∧ b.length = j := by
  obtain ⟨a, r, rfl, ha⟩ := exists_append_of_getElem? hi
  have hr : r[j]? = some c := by
    rw [← hj, getElem?_append_right (by omega), show i + 1 + j - a.length = j + 1 by omega, getElem?_cons_succ]
  obtain ⟨b, d, rfl, hb⟩ := exists_append_of_getElem? hr
  exact ⟨a, b, d, rfl, ha, hb⟩

theorem pieces_between (a b d : List Char) (c : Char) (hl : l = a ++ c :: (b ++ c :: d)) :
    l[a.length]? = some c ∧ l[a.length + 1 + b.length]? = some c ∧ l.take a.length = a ∧
      (l.drop (a.length + 1)).take b.length = b ∧ l.drop (a.length + 1 + b.length + 1) = d := by
  have hfirst : l = (a ++ [c]) ++ (b ++ c :: d) := by rw [hl, append_assoc]; rfl
  have hsecond : l = (a ++ c :: (b ++ [c])) ++ d := by rw [hl]; simp
  refine ⟨by simp [hl], ?_, ?_, ?_, ?_⟩
  · rw [hl, getElem?_append_right (by omega), show a.length + 1 + b.length - a.length = b.length + 1 by omega,
      getElem?_cons_succ]
    simp
  · rw [hl, take_left]
  · rw [hfirst, drop_left' (by simp), take_left]
  · rw [hsecond, drop_left' (by simp; omega)]

/-! ## Dates and times of day -/

theorem daysInMonth_le (y m : Int) : daysInMonth y m ≤ 31 := by
  unfold daysInMonth
  split_ifs <;> omega

theorem dateText_spec {y m d : Int} (hy : 1 ≤ y ∧ y ≤ 9999) (hm : 1 ≤ m ∧ m ≤ 12) (hd : 1 ≤ d ∧ d ≤ 31) :
    ((padded 4 y).length = 4 ∧ (padded 2 m).length = 2 ∧ (padded 2 d).length = 2) ∧
      (dateText y m d).length = 10 ∧ (dateText y m d).all isAscii = true := by
  have hy' : 0 ≤ y ∧ y < 10 ^ 4 := by omega
  have hm' : 0 ≤ m ∧ m < 10 ^ 2 := by omega
  have hd' : 0 ≤ d ∧ d < 10 ^ 2 := by omega
  have h4 := (padded_spec (by decide) hy').1
  have h2 := (padded_spec (by decide) hm').1
  have h2' := (padded_spec (by decide) hd').1
  refine ⟨⟨h4, h2, h2'⟩, ?_, ?_⟩
  · simp [dateText, h4, h2, h2']
  · simp only [dateText, all_append, all_cons, all_isAscii_padded (by decide) hy',
      all_isAscii_padded (by decide) hm', all_isAscii_padded (by decide) hd']
    decide

theorem parseDate_eq_ok : parseDate text = .ok c ↔
    text.take 10 = dateText c.y c.m c.d ∧ (1 ≤ c.y ∧ c.y ≤ 9999) ∧ c.IsDate ∧ c.secs = 0 ∧ c.micros = 0 := by
  unfold parseDate
  generalize text.take 10 = date
  rw [guard_bind_eq_ok, guard_bind_eq_ok]
  simp only [bind_eq_ok_iff, digitsOr_eq_ok 4 (by decide), digitsOr_eq_ok 2 (by decide),
    guard_bind_eq_ok]
  constructor
  · rintro ⟨hten, hmarks, y, ⟨hy, -⟩, m, ⟨hm, -⟩, d, ⟨hd, -⟩, hrange, hc⟩
    simp only [not_or, not_not] at hten hmarks hrange
    obtain ⟨a, b, e, hdate, ha, hb⟩ := exists_pieces (j := 2) hmarks.1 hmarks.2
    have hpieces := pieces_between a b e '-' hdate
    rw [ha, hb] at hpieces
    rw [hpieces.2.2.1] at hy
    rw [hpieces.2.2.2.1] at hm
    rw [hpieces.2.2.2.2] at hd
    obtain rfl : Civil.mk y m d 0 0 = c := ok.inj hc
    refine ⟨?_, hrange.1, ⟨hrange.2.1, hrange.2.2⟩, rfl, rfl⟩
    rw [hdate, hy, hm, hd]
    rfl
  · rintro ⟨rfl, hy, ⟨hm, hd⟩, hsecs, hmicros⟩
    have hle := daysInMonth_le c.y c.m
    obtain ⟨⟨h4, h2, -⟩, hlen, hascii⟩ := dateText_spec hy hm ⟨hd.1, hd.2.trans hle⟩
    have hpieces := pieces_between (padded 4 c.y) (padded 2 c.m) (padded 2 c.d) '-' rfl
    rw [h4, h2] at hpieces
    refine ⟨?_, ?_, c.y, ⟨hpieces.2.2.1, by omega⟩, c.m, ⟨hpieces.2.2.2.1, by omega⟩, c.d, ⟨hpieces.2.2.2.2, by omega⟩, ?_, ?_⟩
    · simp [hlen, hascii]
    · rw [not_or, not_not, not_not]
      exact ⟨hpieces.1, hpieces.2.1⟩
    · simp only [not_or, not_not]
      exact ⟨hy, hm, hd⟩
    · exact congrArg Except.ok (Civil.ext rfl rfl rfl hsecs.symm hmicros.symm)

theorem clockText_spec (hsecs : 0 ≤ secs ∧ secs < 86400) :
    ((padded 2 (secs / 3600)).length = 2 ∧ (padded 2 (secs % 3600 / 60)).length = 2) ∧
      (clockText secs).length = 8 ∧ (clockText secs).all isAscii = true := by
  have hh : 0 ≤ secs / 3600 ∧ secs / 3600 < 10 ^ 2 := by omega
  have hm : 0 ≤ secs % 3600 / 60 ∧ secs % 3600 / 60 < 10 ^ 2 := by omega
  have hs : 0 ≤ secs % 60 ∧ secs % 60 < 10 ^ 2 := by omega
  have h1 := (padded_spec (by decide) hh).1
  have h2 := (padded_spec (by decide) hm).1
  have h3 := (padded_spec (by decide) hs).1
  refine ⟨⟨h1, h2⟩, ?_, ?_⟩
  · simp [clockText, h1, h2, h3]
  · simp only [clockText, all_append, all_cons, all_isAscii_padded (by decide) hh,
      all_isAscii_padded (by decide) hm, all_isAscii_padded (by decide) hs]
    decide

theorem parseClock_eq_ok {time : List Char} : parseClock time = .ok secs ↔
    time.take 8 = clockText secs ∧ 0 ≤ secs ∧ secs < 86400 := by
  unfold parseClock
  generalize time.take 8 = clock
  rw [guard_bind_eq_ok, guard_bind_eq_ok]
  simp only [bind_eq_ok_iff, digitsOr_eq_ok 2 (by decide), guard_bind_eq_ok]
  constructor
  · rintro ⟨height, hmarks, h, ⟨hh, hh0, -⟩, m, ⟨hm, hm0, -⟩, s, ⟨hs, hs0, -⟩, hrange, hsecs⟩
    simp only [not_or, not_not, not_lt] at height hmarks hrange
    obtain ⟨a, b, e, hclock, ha, hb⟩ := exists_pieces (j := 2) hmarks.1 hmarks.2
    have hpieces := pieces_between a b e ':' hclock
    rw [ha, hb] at hpieces
    rw [hpieces.2.2.1] at hh
    rw [hpieces.2.2.2.1] at hm
    rw [hpieces.2.2.2.2] at hs
    obtain rfl : h * 3600 + m * 60 + s = secs := ok.inj hsecs
    have h1 : (h * 3600 + m * 60 + s) / 3600 = h := by omega
    have h2 : (h * 3600 + m * 60 + s) % 3600 / 60 = m := by omega
    have h3 : (h * 3600 + m * 60 + s) % 60 = s := by omega
    refine ⟨?_, by omega, by omega⟩
    rw [hclock, hh, hm, hs, clockText, h1, h2, h3]
  · rintro ⟨rfl, hsecs⟩
    obtain ⟨⟨h1, h2⟩, hlen, hascii⟩ := clockText_spec hsecs
    have hpieces := pieces_between (padded 2 (secs / 3600)) (padded 2 (secs % 3600 / 60)) (padded 2 (secs % 60)) ':' rfl
    rw [h1, h2] at hpieces
    refine ⟨?_, ?_, secs / 3600, ⟨hpieces.2.2.1, by omega⟩, secs % 3600 / 60, ⟨hpieces.2.2.2.1, by omega⟩, secs % 60,
      ⟨hpieces.2.2.2.2, by omega⟩, ?_, ?_⟩
    · simp [hlen, hascii]
    · rw [not_or, not_not, not_not]
      exact ⟨hpieces.1, hpieces.2.1⟩
    · omega
    · refine congrArg Except.ok ?_
      omega

/-! ## Fractions of a second -/

/-- The digits of a fraction as the engine shows them: some, at most six, and the last of them no zero. -/
def Shown (ds : List Char) : Prop :=
  ds.all isAsciiDigit = true ∧ (0 < ds.length ∧ ds.length ≤ 6) ∧ ds.getLast? ≠ some '0'

theorem digitsValue_zeros (ds : List Char) (k : Nat) : digitsValue (ds ++ List.replicate k '0') = digitsValue ds * 10 ^ k := by
  show Nat.ofDigitChars 10 (ds ++ List.replicate k '0') 0 = _
  rw [Nat.ofDigitChars_append, Nat.ofDigitChars_replicate_zero, Nat.mul_comm]
  rfl

theorem rdropWhile_zeros (ds : List Char) (k : Nat) :
    (ds ++ List.replicate k '0').rdropWhile (· = '0') = ds.rdropWhile (· = '0') := by
  induction k with
  | zero => rw [replicate_zero, append_nil]
  | succ k ih => rw [replicate_succ', ← append_assoc, rdropWhile_concat_pos _ _ _ (by decide), ih]

namespace Shown

variable {ds : List Char}

variable (h : Shown ds)
include h

theorem value_pos : 0 < digitsValue ds := by
  obtain ⟨hds, hlen, hlast⟩ := h
  have hne : ds ≠ [] := length_pos_iff.1 hlen.1
  rw [← dropLast_append_getLast hne] at hds ⊢
  rw [all_append, Bool.and_eq_true, all_cons, Bool.and_eq_true] at hds
  have hd := isAsciiDigit_iff.1 hds.2.1
  have hzero : (ds.getLast hne).toNat ≠ 48 := by
    intro h
    apply hlast
    rw [getLast?_eq_some_getLast hne, Option.some.injEq]
    exact Char.toNat_inj.1 h
  rw [digitsValue, foldl_append, foldl_cons, foldl_nil]
  omega

theorem value_lt : digitsValue ds * 10 ^ (6 - ds.length) < 10 ^ 6 := by
  have hlt := digitsValue_lt h.1
  have hsix : 10 ^ ds.length * 10 ^ (6 - ds.length) = 10 ^ 6 := by
    rw [← Nat.pow_add, Nat.add_sub_cancel' h.2.1.2]
  rw [← hsix]
  exact Nat.mul_lt_mul_of_pos_right hlt (Nat.pow_pos (by decide))

theorem padded_eq : padded 6 (digitsValue ds * 10 ^ (6 - ds.length) : Nat) = ds ++ List.replicate (6 - ds.length) '0' := by
  rw [← digitsValue_zeros]
  refine padded_digitsValue (by decide) ?_ ?_
  · rw [all_append, h.1]
    simp [isAsciiDigit]
  · rw [length_append, length_replicate, Nat.add_sub_cancel' h.2.1.2]

theorem fractionText_eq : fractionText (digitsValue ds * 10 ^ (6 - ds.length) : Nat) = '.' :: ds := by
  have hpos : 0 < digitsValue ds * 10 ^ (6 - ds.length) := Nat.mul_pos h.value_pos (Nat.pow_pos (by decide))
  rw [fractionText, if_neg (by omega), h.padded_eq, rdropWhile_zeros, rdropWhile_eq_self_iff.2]
  intro hne
  rw [decide_eq_true_eq]
  intro hlast
  exact h.2.2 (by rw [getLast?_eq_some_getLast hne, hlast])

end Shown

theorem exists_shown (h : 0 < micros ∧ micros < 1000000) :
    ∃ ds, Shown ds ∧ micros = (digitsValue ds * 10 ^ (6 - ds.length) : Nat) := by
  obtain ⟨hlen, hds, hval⟩ := padded_spec (by decide : 0 < 6) ⟨h.1.le, h.2⟩
  have hsplit := rdropWhile_append_rtakeWhile (p := (· = '0')) (l := padded 6 micros)
  generalize hshown : (padded 6 micros).rdropWhile (· = '0') = ds at hsplit
  have hzeros : (padded 6 micros).rtakeWhile (· = '0') = List.replicate ((padded 6 micros).rtakeWhile (· = '0')).length '0' := by
    rw [eq_replicate_iff]
    exact ⟨rfl, fun c hc => by simpa using mem_rtakeWhile_imp hc⟩
  generalize ((padded 6 micros).rtakeWhile (· = '0')).length = k at hzeros
  rw [hzeros] at hsplit
  have hk : ds.length + k = 6 := by
    rw [← hlen, ← hsplit, length_append, length_replicate]
  have hvalue : micros = (digitsValue ds * 10 ^ k : Nat) := by
    rw [← digitsValue_zeros, hsplit, hval]
  refine ⟨ds, ⟨?_, ⟨?_, by omega⟩, ?_⟩, ?_⟩
  · rw [← hsplit, all_append, Bool.and_eq_true] at hds
    exact hds.1
  · rw [length_pos_iff]
    rintro rfl
    rw [hvalue] at h
    simp [digitsValue] at h
  · intro hlast
    have hne : (padded 6 micros).rdropWhile (· = '0') ≠ [] := by
      rintro hnil
      rw [← hshown, hnil] at hlast
      cases hlast
    have := rdropWhile_last_not (· = '0') (padded 6 micros) hne
    rw [← hshown, getLast?_eq_some_getLast hne, Option.some.injEq] at hlast
    exact this (by simpa using hlast)
  · rw [hvalue, show 6 - ds.length = k by omega]

theorem take_digits (fraction : List Char) :
    (fraction.take (min (fraction.takeWhile isAsciiDigit).length 6)).all isAsciiDigit = true ∧
      (fraction.take (min (fraction.takeWhile isAsciiDigit).length 6)).length =
        min (fraction.takeWhile isAsciiDigit).length 6 := by
  generalize hrun : fraction.takeWhile isAsciiDigit = run
  have hsplit : fraction = run ++ fraction.dropWhile isAsciiDigit := by rw [← hrun, takeWhile_append_dropWhile]
  have htake : fraction.take (min run.length 6) = run.take (min run.length 6) := by
    rw [hsplit, take_append_of_le_length (by omega)]
  refine ⟨?_, ?_⟩
  · rw [htake, all_eq_true]
    intro c hc
    have hc := mem_of_mem_take hc
    rw [← hrun] at hc
    exact mem_takeWhile_imp hc
  · rw [htake, length_take]
    omega

theorem of_parseFraction (h : parseFraction after = .ok (micros, rest)) :
    after = fractionText micros ++ rest ∧ 0 ≤ micros ∧ micros < 1000000 := by
  unfold parseFraction at h
  split at h
  next fraction =>
    obtain ⟨hall, hlen⟩ := take_digits fraction
    dsimp only at h
    have hsix : min (fraction.takeWhile isAsciiDigit).length 6 ≤ 6 := min_le_right _ _
    generalize min (fraction.takeWhile isAsciiDigit).length 6 = n at h hall hlen hsix
    by_cases hbad : n = 0 ∨ (fraction.take n).getLast? = some '0'
    · rw [if_pos hbad] at h
      cases h
    · rw [if_neg hbad] at h
      rw [not_or] at hbad
      obtain ⟨count, hcount, h⟩ := bind_eq_ok_iff.1 h
      obtain ⟨hmicros, rfl⟩ := Prod.mk.inj (ok.inj h)
      have hpos : 0 < n := Nat.pos_of_ne_zero hbad.1
      obtain ⟨hpadded, hrange⟩ := (digitsOr_eq_ok _ ⟨hpos, by omega⟩).1 hcount
      have hshown : Shown (fraction.take n) := ⟨hall, by omega, hbad.2⟩
      have hvalue : micros = (digitsValue (fraction.take n) * 10 ^ (6 - (fraction.take n).length) : Nat) := by
        have hcount := (padded_spec hpos hrange).2.2
        rw [← hpadded] at hcount
        rw [← hmicros, hlen, ← hcount]
        push_cast
        rfl
      have hlt := hshown.value_lt
      rw [hvalue, hshown.fractionText_eq]
      refine ⟨?_, Int.natCast_nonneg _, by exact_mod_cast hlt⟩
      rw [cons_append, take_append_drop]
  next =>
    obtain ⟨rfl, rfl⟩ := Prod.mk.inj (ok.inj h)
    exact ⟨rfl, le_refl _, by decide⟩

theorem parseFraction_fractionText (h : 0 ≤ micros ∧ micros < 1000000)
    (hrest : ∀ c ∈ rest.head?, c ≠ '.' ∧ isAsciiDigit c = false) :
    parseFraction (fractionText micros ++ rest) = .ok (micros, rest) := by
  rcases h.1.eq_or_lt with rfl | hpos
  · rw [fractionText, if_pos rfl, nil_append]
    unfold parseFraction
    split
    next fraction => exact absurd rfl (hrest '.' rfl).1
    next => rfl
  · obtain ⟨ds, hds, hmicros⟩ := exists_shown ⟨hpos, h.2⟩
    have hrun : (ds ++ rest).takeWhile isAsciiDigit = ds := by
      rw [takeWhile_append_of_pos (all_eq_true.1 hds.1)]
      cases rest with
      | nil => simp
      | cons c rest => rw [takeWhile_cons_of_neg (by simp [(hrest c rfl).2]), append_nil]
    have hlen : min ds.length 6 = ds.length := min_eq_left hds.2.1.2
    have hbad : ¬ (ds.length = 0 ∨ ds.getLast? = some '0') := not_or.2 ⟨hds.2.1.1.ne', hds.2.2⟩
    have hlt : digitsValue ds < 10 ^ ds.length := digitsValue_lt hds.1
    have hcount : digitsOr ds ds.length = .ok (digitsValue ds : Int) := by
      refine (digitsOr_eq_ok _ ⟨hds.2.1.1, by omega⟩).2 ⟨?_, Int.natCast_nonneg _, by exact_mod_cast hlt⟩
      exact (padded_digitsValue hds.2.1.1 hds.1 rfl).symm
    rw [hmicros, hds.fractionText_eq, cons_append]
    simp only [parseFraction, hrun, hlen, take_left, drop_left, if_neg hbad, hcount]
    push_cast
    rfl

/-! ## Bounds -/

def Civil.Printed (key : Key) (c : Civil) : Prop :=
  ((1 ≤ c.y ∧ c.y ≤ 9999) ∧ c.IsDate) ∧
    match key with
    | .date => c.secs = 0 ∧ c.micros = 0
    | .timestamp | .timestampTz => (0 ≤ c.secs ∧ c.secs < 86400) ∧ 0 ≤ c.micros ∧ c.micros < 1000000
    | .integer _ => False

instance (key : Key) (c : Civil) : Decidable (c.Printed key) := by
  unfold Civil.Printed
  cases key <;> infer_instance

theorem take_dateText (h : (1 ≤ c.y ∧ c.y ≤ 9999) ∧ c.IsDate) (rest : List Char) :
    (dateText c.y c.m c.d ++ rest).take 10 = dateText c.y c.m c.d ∧ (dateText c.y c.m c.d ++ rest).drop 10 = rest := by
  have hle := daysInMonth_le c.y c.m
  have hlen := (dateText_spec h.1 h.2.1 ⟨h.2.2.1, h.2.2.2.trans hle⟩).2.1
  exact ⟨take_left' hlen, drop_left' hlen⟩

theorem take_clockText (h : 0 ≤ secs ∧ secs < 86400) (rest : List Char) :
    (clockText secs ++ rest).take 8 = clockText secs ∧ (clockText secs ++ rest).drop 8 = rest := by
  have hlen := (clockText_spec h).2.1
  exact ⟨take_left' hlen, drop_left' hlen⟩

def zoneText : Key → List Char
  | .timestampTz => "+00".toList
  | _ => []

theorem parseZone_eq_ok : parseZone key after = .ok () ↔ (key = .timestamp ∨ key = .timestampTz) ∧ after = zoneText key := by
  cases key with
  | date | integer => simp [parseZone]
  | timestamp => cases after <;> simp [parseZone, zoneText]
  | timestampTz =>
    by_cases hutc : after = ['+', '0', '0']
    · rw [hutc]
      simp [parseZone, zoneText]
    · have hnot : after ≠ zoneText .timestampTz := hutc
      unfold parseZone
      split
      next h => cases h
      next => exact absurd rfl hutc
      next => split_ifs <;> simp [hnot]
      next => simp [hnot]

/-- A bound is read exactly from how it is printed. -/
theorem parseCivil_eq_ok : parseCivil key text = .ok c ↔ text = fmtCivil key c ∧ c.Printed key := by
  have hfmt : key = .timestamp ∨ key = .timestampTz → fmtCivil key c =
      dateText c.y c.m c.d ++ ' ' :: (clockText c.secs ++ (fractionText c.micros ++ zoneText key)) := by
    rintro (rfl | rfl)
    · simp [fmtCivil, zoneText]
    · simp [fmtCivil, zoneText]
  unfold parseCivil
  rw [bind_eq_ok_iff]
  constructor
  · rintro ⟨day, hday, h⟩
    obtain ⟨htake, hyear, hdate, hsecs, hmicros⟩ := parseDate_eq_ok.1 hday
    have htext : text = dateText day.y day.m day.d ++ text.drop 10 := by rw [← htake, take_append_drop]
    generalize text.drop 10 = rest at h htext
    dsimp only at h
    split_ifs at h with hkey hrest
    · obtain rfl : day = c := ok.inj h
      rw [hrest, append_nil] at htext
      rw [hkey]
      exact ⟨htext, ⟨hyear, hdate⟩, hsecs, hmicros⟩
    · split at h
      next time =>
        obtain ⟨secs, hclock, h⟩ := bind_eq_ok_iff.1 h
        obtain ⟨⟨micros, after⟩, hfraction, h⟩ := bind_eq_ok_iff.1 h
        obtain ⟨_, hutc, hc⟩ := bind_eq_ok_iff.1 h
        obtain ⟨htime, hsecs⟩ := parseClock_eq_ok.1 hclock
        obtain ⟨hafter, hmicros⟩ := of_parseFraction hfraction
        obtain ⟨hkind, hzone⟩ := parseZone_eq_ok.1 hutc
        obtain rfl := ok.inj hc
        refine ⟨?_, ⟨hyear, hdate⟩, ?_⟩
        · rw [hfmt hkind, htext, ← hzone, ← hafter, ← htime, take_append_drop]
        · rcases hkind with rfl | rfl <;> exact ⟨hsecs, hmicros⟩
      next => cases h
  · rintro ⟨rfl, hday, htime⟩
    have hdate : ∀ rest, parseDate (dateText c.y c.m c.d ++ rest) = .ok ⟨c.y, c.m, c.d, 0, 0⟩ := fun rest =>
      parseDate_eq_ok.2 ⟨(take_dateText hday rest).1, hday.1, hday.2, rfl, rfl⟩
    by_cases hkey : key = .date
    · subst hkey
      refine ⟨_, append_nil (dateText c.y c.m c.d) ▸ hdate [], ?_⟩
      have hdrop : (fmtCivil .date c).drop 10 = [] := by
        have := (take_dateText hday []).2
        rwa [append_nil] at this
      rw [if_pos rfl, if_pos hdrop]
      exact congrArg Except.ok (Civil.ext rfl rfl rfl htime.1.symm htime.2.symm)
    · have hkind : key = .timestamp ∨ key = .timestampTz := by
        cases key with
        | date => exact absurd rfl hkey
        | timestamp => exact .inl rfl
        | timestampTz => exact .inr rfl
        | integer => exact htime.elim
      have htime : (0 ≤ c.secs ∧ c.secs < 86400) ∧ 0 ≤ c.micros ∧ c.micros < 1000000 := by
        rcases hkind with rfl | rfl <;> exact htime
      have hzone : ∀ d ∈ (zoneText key).head?, d ≠ '.' ∧ isAsciiDigit d = false := by
        rcases hkind with rfl | rfl
        · intro d hd
          cases hd
        · intro d hd
          obtain rfl : '+' = d := Option.some.inj hd
          decide
      rw [hfmt hkind]
      refine ⟨_, hdate _, ?_⟩
      rw [if_neg hkey, (take_dateText hday _).2]
      refine bind_eq_ok_iff.2 ⟨c.secs, parseClock_eq_ok.2 ⟨(take_clockText htime.1 _).1, htime.1⟩, ?_⟩
      rw [(take_clockText htime.1 _).2]
      refine bind_eq_ok_iff.2 ⟨_, parseFraction_fractionText htime.2 hzone, ?_⟩
      exact bind_eq_ok_iff.2 ⟨(), parseZone_eq_ok.2 ⟨hkind, rfl⟩, rfl⟩

/-! ## Integers -/

theorem head_toDigits (n : Nat) : Nat.toDigits 10 n = ['0'] ∨ (Nat.toDigits 10 n).head? ≠ some '0' := by
  by_contra hnot
  rw [not_or, not_not] at hnot
  obtain ⟨ds, hds⟩ : ∃ ds, Nat.toDigits 10 n = '0' :: ds := by
    cases h : Nat.toDigits 10 n with
    | nil => exact absurd h Nat.toDigits_ne_nil
    | cons d ds =>
      rw [h] at hnot
      exact ⟨ds, by rw [Option.some.inj hnot.2]⟩
  have hne : ds ≠ [] := by
    rintro rfl
    exact hnot.1 hds
  have hvalue : digitsValue ds = n := by
    have h := digitsValue_toDigits n
    rw [hds, digitsValue_cons] at h
    simpa using h
  have hall := all_toDigits n
  rw [hds, all_cons, Bool.and_eq_true] at hall
  have hlt := digitsValue_lt hall.2
  rw [hvalue] at hlt
  have hshort := (Nat.length_toDigits_le_iff (b := 10) (by decide) (length_pos_iff.2 hne)).2 hlt
  rw [hds, length_cons] at hshort
  omega

theorem unsigned_eq_self (h : text.head? ≠ some '-') : unsigned text = text := by
  unfold unsigned
  split
  next => exact absurd rfl h
  next => rfl

theorem head_of_digits (h : ds.all isAsciiDigit = true) : ds.head? ≠ some '-' := by
  intro hhead
  have := all_eq_true.1 h '-' (mem_of_mem_head? hhead)
  exact absurd this (by decide)

theorem canonical_digits : (ds ≠ [] ∧ ds.length ≤ 20 ∧ ds.all isAsciiDigit = true ∧
    (ds = ['0'] ∨ ds.head? ≠ some '0')) ↔ ds = Nat.toDigits 10 (digitsValue ds) ∧ digitsValue ds < 10 ^ 20 := by
  constructor
  · rintro ⟨hne, hlen, hall, hhead⟩
    have hlt : 10 ^ ds.length ≤ 10 ^ 20 := Nat.pow_le_pow_right (by decide) hlen
    exact ⟨(toDigits_digitsValue hne hall hhead).symm, (digitsValue_lt hall).trans_le hlt⟩
  · rintro ⟨hds, hlt⟩
    generalize digitsValue ds = n at hds hlt
    subst hds
    exact ⟨Nat.toDigits_ne_nil, (Nat.length_toDigits_le_iff (by decide) (by decide)).2 hlt, all_toDigits n, head_toDigits n⟩

theorem isCanonical_iff : isCanonical text = true ↔
    (unsigned text = Nat.toDigits 10 (digitsValue (unsigned text)) ∧ digitsValue (unsigned text) < 10 ^ 20) ∧
      text ≠ ['-', '0'] := by
  rw [← canonical_digits, isCanonical]
  simp only [Bool.and_eq_true, Bool.not_eq_true', isEmpty_eq_false_iff, decide_eq_true_eq, Bool.or_eq_true, and_assoc]

theorem isCanonical_iff_toString : isCanonical text = true ↔
    text = (toString (integerValue text)).toList ∧ (integerValue text).natAbs < 10 ^ 20 := by
  rw [isCanonical_iff]
  by_cases hsign : text.head? = some '-'
  · obtain ⟨ds, rfl⟩ : ∃ ds, text = '-' :: ds := by
      cases text with
      | nil => cases hsign
      | cons c ds => exact ⟨ds, by rw [Option.some.inj hsign]⟩
    rw [integerValue, if_pos hsign]
    show (ds = Nat.toDigits 10 (digitsValue ds) ∧ digitsValue ds < 10 ^ 20) ∧ '-' :: ds ≠ ['-', '0'] ↔
      '-' :: ds = (toString (-(digitsValue ds : Int))).toList ∧ (-(digitsValue ds : Int)).natAbs < 10 ^ 20
    generalize hn : digitsValue ds = n
    cases n with
    | zero =>
      refine iff_of_false ?_ ?_
      · rintro ⟨⟨hds, -⟩, hne⟩
        exact hne (by rw [hds]; rfl)
      · rintro ⟨htext, -⟩
        cases htext
    | succ k =>
      have htext : (toString (-((k + 1 : Nat) : Int))).toList = '-' :: Nat.toDigits 10 (k + 1) := toList_toString_negSucc k
      have hne : '-' :: ds ≠ ['-', '0'] := by
        intro h
        obtain rfl := (cons.inj h).2
        exact absurd hn (by simp [digitsValue])
      rw [htext, and_iff_left hne, Int.natAbs_neg, Int.natAbs_natCast, cons.injEq, and_iff_right rfl]
  · have hne : text ≠ ['-', '0'] := by
      rintro rfl
      exact hsign rfl
    rw [integerValue, if_neg hsign, unsigned_eq_self hsign, and_iff_left hne, toList_toString_ofNat, Int.natAbs_natCast]

theorem integerValue_toString (v : Int) : integerValue (toString v).toList = v := by
  cases v with
  | ofNat n =>
    have hhead := head_of_digits (all_toDigits n)
    show integerValue (toString (n : Int)).toList = (n : Int)
    rw [toList_toString_ofNat, integerValue, if_neg hhead, unsigned_eq_self hhead, digitsValue_toDigits]
  | negSucc n =>
    rw [toList_toString_negSucc]
    show -(digitsValue (Nat.toDigits 10 (n + 1)) : Int) = _
    rw [digitsValue_toDigits]
    rfl

theorem parseInteger_eq_ok : parseInteger int text = .ok v ↔
    text = (toString v).toList ∧ (int.min ≤ v ∧ v ≤ int.max) ∧ v.natAbs < 10 ^ 20 := by
  unfold parseInteger
  constructor
  · intro h
    split_ifs at h with hcanonical hrange
    obtain rfl := ok.inj h
    obtain ⟨htext, hlen⟩ := isCanonical_iff_toString.1 (by simpa using hcanonical)
    exact ⟨htext, hrange, hlen⟩
  · rintro ⟨rfl, hrange, hlen⟩
    have hvalue := integerValue_toString v
    have hcanonical : isCanonical (toString v).toList = true := by
      rw [isCanonical_iff_toString, hvalue]
      exact ⟨rfl, hlen⟩
    rw [hvalue, hcanonical, if_neg (by decide), if_neg (not_not.2 hrange)]

/-! ## The readers -/

/-- A bound is read from the spelling of its value, where that is one the engine prints. -/
theorem readCivil_eq_ok {text : String} :
    readCivil key text = .ok c ↔ text = String.ofList (fmtCivil key c) ∧ c.Printed key := by
  rw [readCivil, mapError_eq_ok, parseCivil_eq_ok]
  refine and_congr_left fun _ => ?_
  constructor
  · intro h
    rw [← h, String.ofList_toList]
  · rintro rfl
    rw [String.toList_ofList]

theorem readInteger_eq_ok {text : String} :
    readInteger int text = .ok v ↔ text = toString v ∧ (int.min ≤ v ∧ v ≤ int.max) ∧ v.natAbs < 10 ^ 20 := by
  rw [readInteger, mapError_eq_ok, parseInteger_eq_ok, String.toList_inj]

theorem readVal_time (hkey : ∀ int, key ≠ .integer int) {text : String} {v : Val} :
    readVal key text = .ok v ↔ ∃ c, readCivil key text = .ok c ∧ .time c = v := by
  cases key with
  | integer int => exact absurd rfl (hkey int)
  | date | timestamp | timestampTz => exact map_eq_ok

theorem readVal_int {text : String} {v : Val} :
    readVal (.integer int) text = .ok v ↔ ∃ i, readInteger int text = .ok i ∧ .int i = v := map_eq_ok

end Pbps.Partition
