/-
T-SQL's exact arithmetic on constants, as far as a default can hold it: the exact types with their scales and
ranges, how a conversion rounds, and what the reader's rescaled coefficients are of it.
-/
import Pbps.Rows.Constant
import Pbps.Types.Digits

namespace Pbps.Rows

/-! ## Rounding -/

def truncate (q : ℚ) : ℤ := if 0 ≤ q then ⌊q⌋ else -⌊-q⌋

def roundHalfAway (q : ℚ) : ℤ := if 0 ≤ q then ⌊q + 1 / 2⌋ else -⌊-q + 1 / 2⌋

def rounded (round : Bool) (q : ℚ) : ℤ := if round then roundHalfAway q else truncate q

theorem truncate_neg (q : ℚ) : truncate (-q) = -truncate q := by
  rcases lt_trichotomy q 0 with h | rfl | h
  · rw [truncate, truncate, if_pos (by linarith), if_neg (by linarith), neg_neg]
  · simp [truncate]
  · rw [truncate, truncate, if_neg (by linarith), if_pos (by linarith), neg_neg]

theorem roundHalfAway_neg (q : ℚ) : roundHalfAway (-q) = -roundHalfAway q := by
  rcases lt_trichotomy q 0 with h | rfl | h
  · rw [roundHalfAway, roundHalfAway, if_pos (by linarith), if_neg (by linarith), neg_neg]
  · norm_num [roundHalfAway]
  · rw [roundHalfAway, roundHalfAway, if_neg (by linarith), if_pos (by linarith), neg_neg]

theorem truncate_intCast (z : ℤ) : truncate z = z := by
  unfold truncate
  split_ifs
  · exact Int.floor_intCast z
  · rw [← Int.cast_neg, Int.floor_intCast, neg_neg]

theorem roundHalfAway_intCast (z : ℤ) : roundHalfAway z = z := by
  unfold roundHalfAway
  split_ifs
  · rw [Int.floor_intCast_add]
    norm_num
  · rw [← Int.cast_neg, Int.floor_intCast_add]
    norm_num

theorem rounded_intCast (round : Bool) (z : ℤ) : rounded round z = z := by
  cases round with
  | true => exact roundHalfAway_intCast z
  | false => exact truncate_intCast z

theorem truncate_div (c : ℤ) (d : ℕ) : truncate (c / d) = c.tdiv d := by
  have hpos : ∀ a : ℤ, 0 ≤ a → truncate (a / d) = a.tdiv d := by
    intro a ha
    have ha' : (0 : ℚ) ≤ a := by exact_mod_cast ha
    rw [truncate, if_pos (div_nonneg ha' (Nat.cast_nonneg d)), Rat.floor_intCast_div_natCast, Int.tdiv_eq_ediv_of_nonneg ha]
  rcases le_total 0 c with hc | hc
  · exact hpos c hc
  · have hneg := hpos (-c) (by omega)
    rw [Int.cast_neg, neg_div, truncate_neg, Int.neg_tdiv] at hneg
    omega

theorem roundHalfAway_div (c : ℤ) {h : ℕ} (hh : 0 < h) : roundHalfAway (c / (2 * h : ℕ)) =
      if (h : ℤ) ≤ (c.tmod (2 * h : ℕ)).natAbs then c.tdiv (2 * h : ℕ) + c.sign else c.tdiv (2 * h : ℕ) := by
  have hpos : ∀ a : ℤ, 0 ≤ a → roundHalfAway (a / (2 * h : ℕ)) =
      if (h : ℤ) ≤ (a.tmod (2 * h : ℕ)).natAbs then a.tdiv (2 * h : ℕ) + a.sign else a.tdiv (2 * h : ℕ) := by
    intro a ha
    have ha' : (0 : ℚ) ≤ a := by exact_mod_cast ha
    have hhalf : (a : ℚ) / (2 * h : ℕ) + 1 / 2 = ((a + h : ℤ) : ℚ) / (2 * h : ℕ) := by
      push_cast
      field_simp
    rw [roundHalfAway, if_pos (div_nonneg ha' (Nat.cast_nonneg _)), hhalf, Rat.floor_intCast_div_natCast,
      Int.tdiv_eq_ediv_of_nonneg ha, Int.tmod_eq_emod_of_nonneg ha]
    have hsum := Int.mul_ediv_add_emod a (2 * h : ℕ)
    have hlow := Int.emod_nonneg a (show ((2 * h : ℕ) : ℤ) ≠ 0 by omega)
    have hhigh := Int.emod_lt_of_pos a (show (0 : ℤ) < ((2 * h : ℕ) : ℤ) by omega)
    have hd : ((2 * h : ℕ) : ℤ) = 2 * h := by push_cast; rfl
    rw [Int.natAbs_of_nonneg hlow]
    split_ifs with hr
    · have hsign : a.sign = 1 := Int.sign_eq_one_of_pos (by
        rcases ha.eq_or_lt with h0 | h0
        · subst h0
          simp only [Int.zero_emod] at hr
          omega
        · exact h0)
      rw [hsign, Int.ediv_eq_iff_of_pos (by omega)]
      constructor
      · nlinarith [hd]
      · nlinarith [hd]
    · rw [Int.ediv_eq_iff_of_pos (by omega)]
      constructor
      · nlinarith [hd]
      · nlinarith [hd]
  rcases le_total 0 c with hc | hc
  · exact hpos c hc
  · have hneg := hpos (-c) (by omega)
    rw [Int.cast_neg, neg_div, roundHalfAway_neg, Int.neg_tdiv, Int.neg_tmod, Int.natAbs_neg, Int.sign_neg] at hneg
    split_ifs at hneg ⊢ <;> omega

/-! ## The engine's exact types and their values -/

inductive ExactType where
  | tinyint
  | smallint
  | int
  | bigint
  | money
  | smallmoney
  | decimal (precision scale : ℕ)
  deriving DecidableEq, Repr

namespace ExactType

def scale : ExactType → ℕ
  | .money | .smallmoney => 4
  | .decimal _ scale => scale
  | .tinyint | .smallint | .int | .bigint => 0

def range : ExactType → ℤ × ℤ
  | .tinyint => (0, 255)
  | .smallint => (-2 ^ 15, 2 ^ 15 - 1)
  | .int | .smallmoney => (-2 ^ 31, 2 ^ 31 - 1)
  | .bigint | .money => (-2 ^ 63, 2 ^ 63 - 1)
  | .decimal precision _ => (-(10 ^ precision - 1), 10 ^ precision - 1)

def isInteger : ExactType → Bool
  | .tinyint | .smallint | .int | .bigint => true
  | .money | .smallmoney | .decimal .. => false

def isMoney : ExactType → Bool
  | .money | .smallmoney => true
  | .tinyint | .smallint | .int | .bigint | .decimal .. => false

def Holds (t : ExactType) (q : ℚ) : Prop := t.range.1 ≤ q * 10 ^ t.scale ∧ q * 10 ^ t.scale ≤ t.range.2

instance (t : ExactType) (q : ℚ) : Decidable (t.Holds q) := inferInstanceAs (Decidable (_ ∧ _))

/-- What unary minus makes of a type: tinyint has no negative values. -/
def negated : ExactType → ExactType
  | .tinyint => .smallint
  | t => t

theorem negated_of_ne {t : ExactType} (h : t ≠ .tinyint) : t.negated = t := by
  cases t with
  | tinyint => exact absurd rfl h
  | _ => rfl

theorem scale_negated (t : ExactType) : t.negated.scale = t.scale := by
  cases t <;> rfl

def ofColumnType (ty : ColumnType) : Option ExactType :=
  match ty.base, ty.args with
  | "tinyint", _ => some .tinyint
  | "smallint", _ => some .smallint
  | "int", _ => some .int
  | "bigint", _ => some .bigint
  | "money", _ => some .money
  | "smallmoney", _ => some .smallmoney
  | "decimal", [.int precision, .int scale] => some (.decimal precision.toNat scale.toNat)
  | _, _ => none

end ExactType

/-- A constant's value. -/
inductive Value where
  | null
  | text (s : List Char)
  | binary (digits : List Char)
  | exact (t : ExactType) (q : ℚ)
  deriving DecidableEq, Repr

def Value.inRange (t : ExactType) (q : ℚ) : Option Value := if t.Holds q then some (.exact t q) else none

/-- Digits, a point and digits, as a number; none of more than 38 digits, zeros in front not counted. -/
def decimalValue (integer fraction : List Char) : Option ℚ :=
  if fraction.length ≤ 38 ∧ ((integer ++ fraction).dropWhile (· = '0')).length ≤ 38 then
    some ((digitsValue (integer ++ fraction) : ℚ) / 10 ^ fraction.length)
  else none

/-- The digits of a number without sign or exponent, before and after its point. -/
def numberParts (s : List Char) : Option (List Char × List Char) :=
  let integer := (splitDot s).1
  let fraction := (splitDot s).2
  if (integer.isEmpty && fraction.isEmpty) || !(integer ++ fraction).all isAsciiDigit then none else some (integer, fraction)

/-- The number a text is converted to: spaces around it, a sign, spaces, and a number. -/
def textValue (s : List Char) : Option ℚ :=
  let s := trimSpaces s
  (numberParts ((stripSign s).dropWhile (· = ' '))).bind fun parts =>
    (decimalValue parts.1 parts.2).map fun q => if s.head? = some '-' then -q else q

/-- A number at a type's scale: whole numbers drop what is after the point, but for money, which is rounded as it is
for the other types. -/
def Value.atScale (t : ExactType) (money : Bool) (q : ℚ) : Option Value :=
  Value.inRange t (rounded (!t.isInteger || money) (q * 10 ^ t.scale) / 10 ^ t.scale)

/-- A value converted to an exact type; none where the engine fails. -/
def Value.castTo (v : Value) (t : ExactType) : Option Value :=
  match v with
  | .null => some .null
  | .exact source q => Value.atScale t source.isMoney q
  | .text s => if t.isInteger && s.contains '.' then none else (textValue s).bind (Value.atScale t false)
  | .binary _ => none

def Value.convert (v : Value) (ty : ColumnType) : Option Value :=
  match v with
  | .null => some .null
  | v => (ExactType.ofColumnType ty).bind v.castTo

def Value.neg : Value → Option Value
  | .null => some .null
  | .exact t q => Value.inRange t.negated (-q)
  | .text _ | .binary _ => none

def Value.pos : Value → Option Value
  | .null => some .null
  | .exact t q => some (.exact t q)
  | .text _ | .binary _ => none

/-! ## Coefficients -/

theorem checked_meets (x : ℤ) : (checked x).Meets (· = .refused) fun y => y = x ∧ fitsI128 y := by
  unfold checked
  split_ifs with h
  · exact ⟨rfl, h⟩
  · rfl

theorem unchecked_meets {x : ℤ} (h : fitsI128 x) : (unchecked x).Meets (· = .refused) fun y => y = x ∧ fitsI128 y := by
  rw [unchecked, if_pos h]
  exact ⟨rfl, h⟩

theorem fitsI128_iff {x : ℤ} : fitsI128 x ↔ -2 ^ 127 ≤ x ∧ x < 2 ^ 127 := by simp [fitsI128]

theorem checkedPow_meets (n : ℕ) : (checkedPow n).Meets (· = .refused) fun y => y = 10 ^ n ∧ fitsI128 y := by
  unfold checkedPow
  exact checked_meets _

theorem fitsI128_tdiv {c : ℤ} (hc : fitsI128 c) (d : ℕ) : fitsI128 (c.tdiv d) := by
  rw [fitsI128_iff] at hc ⊢
  rcases le_total 0 c with h | h
  · have hlow := Int.tdiv_nonneg h (Int.natCast_nonneg d)
    have hhigh := Int.tdiv_le_self d h
    omega
  · have hlow := Int.tdiv_nonneg (show 0 ≤ -c by omega) (Int.natCast_nonneg d)
    have hhigh := Int.tdiv_le_self d (show 0 ≤ -c by omega)
    rw [Int.neg_tdiv] at hlow hhigh
    omega

theorem rescale_meets {c : ℤ} (hc : fitsI128 c) (from_ to_ : ℕ) (round : Bool) :
    (rescale c from_ to_ round).Meets (· = .refused) fun r =>
      fitsI128 r ∧ r = rounded round ((c : ℚ) / 10 ^ from_ * 10 ^ to_) := by
  unfold rescale
  split_ifs with hto
  · refine (checkedPow_meets _).bind ?_
    rintro _ ⟨rfl, -⟩
    refine (checked_meets _).mono ?_
    rintro _ ⟨rfl, hfits⟩
    refine ⟨hfits, ?_⟩
    have hpow : (10 : ℚ) ^ to_ = 10 ^ (to_ - from_) * 10 ^ from_ := by rw [← pow_add, Nat.sub_add_cancel hto]
    have hscale : (c : ℚ) / 10 ^ from_ * 10 ^ to_ = ((c * 10 ^ (to_ - from_) : ℤ) : ℚ) := by
      rw [hpow]
      push_cast
      field_simp
    rw [hscale, rounded_intCast]
  · obtain ⟨k, hk⟩ : ∃ k, from_ - to_ = k + 1 := ⟨from_ - to_ - 1, by omega⟩
    have hscale : (c : ℚ) / 10 ^ from_ * 10 ^ to_ = c / (2 * (5 * 10 ^ k) : ℕ) := by
      have hpow : (10 : ℚ) ^ from_ = 10 ^ (k + 1) * 10 ^ to_ := by rw [← pow_add, ← hk, Nat.sub_add_cancel (by omega)]
      rw [hpow]
      push_cast
      field_simp
      ring
    have hd : ((10 : ℤ) ^ (from_ - to_)) = ((2 * (5 * 10 ^ k) : ℕ) : ℤ) := by
      rw [hk]
      push_cast
      ring
    have hhalf : ((2 * (5 * 10 ^ k) : ℕ) : ℤ) / 2 = ((5 * 10 ^ k : ℕ) : ℤ) := by omega
    rw [hscale]
    refine (checkedPow_meets _).bind ?_
    rintro _ ⟨rfl, hdivisor⟩
    rw [hd, hhalf]
    refine (unchecked_meets (fitsI128_tdiv hc _)).bind ?_
    rintro _ ⟨rfl, hquotient⟩
    have hremainder : fitsI128 (c.tmod ((2 * (5 * 10 ^ k) : ℕ) : ℤ)).natAbs := by
      have hle : (c.tmod ((2 * (5 * 10 ^ k) : ℕ) : ℤ)).natAbs < 2 * (5 * 10 ^ k) := by
        rw [Int.natAbs_tmod, Int.natAbs_natCast]
        exact Nat.mod_lt _ (by positivity)
      rw [hd, fitsI128_iff] at hdivisor
      rw [fitsI128_iff]
      omega
    refine (unchecked_meets hremainder).bind ?_
    rintro _ ⟨rfl, -⟩
    cases round with
    | false => exact ⟨hquotient, (truncate_div c _).symm⟩
    | true =>
      have hround := roundHalfAway_div c (show 0 < 5 * 10 ^ k by positivity)
      by_cases hr : ((5 * 10 ^ k : ℕ) : ℤ) ≤ (c.tmod ((2 * (5 * 10 ^ k) : ℕ) : ℤ)).natAbs
      · rw [if_pos hr] at hround
        rw [if_pos (by simpa using hr)]
        refine (checked_meets _).mono ?_
        rintro _ ⟨rfl, hfits⟩
        exact ⟨hfits, hround.symm⟩
      · rw [if_neg hr] at hround
        rw [if_neg (by simpa using hr)]
        exact ⟨hquotient, hround.symm⟩

/-! ## The reader's values -/

variable {F : Floats}

def Numeric.Fits : Numeric F → Prop
  | .exact n => fitsI128 n.coefficient
  | .approximate _ | .text _ | .null => True

/-- The reader's value is the engine's. -/
inductive Follows : Numeric F → Value → Prop
  | null : Follows .null .null
  | text (s : List Char) : Follows (.text s) (.text s)
  | exact {n : ExactNumeric} {t : ExactType} {q : ℚ} (value : q = n.coefficient / 10 ^ n.scale) (scale : n.scale = t.scale)
      (bounds : n.bounds = t.range) (tiny : n.tiny = decide (t = .tinyint)) (money : n.money = t.isMoney) :
      Follows (.exact n) (.exact t q)

/-- A number the reader accepts is the one the engine reads, of at most 38 digits. -/
theorem decimalNumber_meets (s : List Char) :
    (decimalNumber s).Meets (· = .refused) fun n => fitsI128 n.coefficient ∧ ∃ integer fraction q,
      numberParts ((stripSign (trimSpaces s)).dropWhile (· = ' ')) = some (integer, fraction) ∧
        decimalValue integer fraction = some q ∧ Follows (F := F) (.exact n)
          (.exact (.decimal 38 fraction.length) (if (trimSpaces s).head? = some '-' then -q else q)) := by
  unfold decimalNumber numberParts
  dsimp only
  generalize trimSpaces s = t
  generalize (splitDot ((stripSign t).dropWhile (· = ' '))).1 = integer
  generalize (splitDot ((stripSign t).dropWhile (· = ' '))).2 = fraction
  by_cases hbad : ((integer.isEmpty && fraction.isEmpty || !(integer ++ fraction).all isAsciiDigit ||
      decide (fraction.length > 38)) = true)
  · rw [if_pos hbad]
    rfl
  by_cases hlong : ((integer ++ fraction).dropWhile (· = '0')).length > 38
  · rw [if_neg hbad, if_pos hlong]
    rfl
  rw [if_neg hbad, if_neg hlong, digitsValue_dropWhile]
  rw [Bool.not_eq_true, Bool.or_eq_false_iff, decide_eq_false_iff_not] at hbad
  have hdigits : (integer ++ fraction).all isAsciiDigit = true := by
    have := (Bool.or_eq_false_iff.1 hbad.1).2
    simpa using this
  have hlt : digitsValue (integer ++ fraction) < 10 ^ 38 := by
    rw [← digitsValue_dropWhile]
    have hall : ((integer ++ fraction).dropWhile (· = '0')).all isAsciiDigit := by
      rw [List.all_eq_true] at hdigits ⊢
      exact fun c hc => hdigits c ((List.dropWhile_sublist _).mem hc)
    exact (digitsValue_lt hall).trans_le (Nat.pow_le_pow_right (by norm_num) (by omega))
  have hparts : (if (integer.isEmpty && fraction.isEmpty || !(integer ++ fraction).all isAsciiDigit) = true then none
      else some (integer, fraction)) = some (integer, fraction) := if_neg (by rw [hbad.1]; decide)
  have hvalue : decimalValue integer fraction = some ((digitsValue (integer ++ fraction) : ℚ) / 10 ^ fraction.length) :=
    if_pos ⟨by omega, by omega⟩
  refine (checked_meets _).bind ?_
  rintro _ ⟨rfl, hfits⟩
  refine (unchecked_meets (fitsI128_iff.2 (by norm_num))).bind ?_
  rintro _ ⟨rfl, hlimit⟩
  have hrange : ((-(10 ^ 38 - 1), 10 ^ 38 - 1) : ℤ × ℤ) = (ExactType.decimal 38 fraction.length).range := rfl
  rw [fitsI128_iff] at hlimit
  rw [hparts]
  by_cases hneg : t.head? = some '-'
  · rw [if_pos hneg]
    refine (unchecked_meets (fitsI128_iff.2 (by omega))).bind ?_
    rintro _ ⟨rfl, hfits'⟩
    refine (unchecked_meets (fitsI128_iff.2 (by omega))).bind ?_
    rintro _ ⟨rfl, -⟩
    refine ⟨hfits', integer, fraction, _, rfl, hvalue, ?_⟩
    rw [if_pos hneg]
    refine .exact ?_ rfl hrange rfl rfl
    push_cast
    ring
  · rw [if_neg hneg]
    refine (unchecked_meets (fitsI128_iff.2 (by omega))).bind ?_
    rintro _ ⟨rfl, -⟩
    refine ⟨hfits, integer, fraction, _, rfl, hvalue, ?_⟩
    rw [if_neg hneg]
    exact .exact (by push_cast; rfl) rfl hrange rfl rfl

theorem toU32_meets (n : ℤ) : (toU32 n).Meets (· = .refused) fun m => m = n.toNat := by
  unfold toU32
  split_ifs
  · rfl
  · rfl

theorem targetRange_meets (ty : ColumnType) :
    (targetRange ty).Meets (· = .refused) fun r =>
      ∃ t, ExactType.ofColumnType ty = some t ∧ r = (t.scale, t.range) ∧ isInteger ty.base = t.isInteger ∧
        isMoney ty.base = t.isMoney ∧ decide (ty.base = "tinyint") = decide (t = .tinyint) := by
  obtain ⟨base, args, array, user, words⟩ := ty
  unfold targetRange
  dsimp only
  split
  · exact ⟨.tinyint, rfl, rfl, rfl, rfl, rfl⟩
  · exact ⟨.smallint, rfl, rfl, rfl, rfl, rfl⟩
  · exact ⟨.int, rfl, rfl, rfl, rfl, rfl⟩
  · exact ⟨.bigint, rfl, rfl, rfl, rfl, rfl⟩
  · exact ⟨.money, rfl, rfl, rfl, rfl, rfl⟩
  · exact ⟨.smallmoney, rfl, rfl, rfl, rfl, rfl⟩
  · rename_i precision scale
    refine (toU32_meets precision).bind ?_
    rintro _ rfl
    refine (checkedPow_meets _).bind ?_
    rintro _ ⟨rfl, hfits⟩
    rw [fitsI128_iff] at hfits
    have hpos : (0 : ℤ) < 10 ^ precision.toNat := by positivity
    refine (unchecked_meets (fitsI128_iff.2 (by omega))).bind ?_
    rintro _ ⟨rfl, -⟩
    refine (toU32_meets scale).bind ?_
    rintro _ rfl
    refine (unchecked_meets (fitsI128_iff.2 (by omega))).bind ?_
    rintro _ ⟨rfl, -⟩
    exact ⟨.decimal precision.toNat scale.toNat, rfl, rfl, rfl, rfl, rfl⟩
  · rfl

theorem ExactType.holds_of_mem {t : ExactType} {c : ℤ} (h : t.range.1 ≤ c ∧ c ≤ t.range.2) :
    t.Holds ((c : ℚ) / 10 ^ t.scale) := by
  unfold ExactType.Holds
  rw [div_mul_cancel₀ _ (by positivity)]
  exact ⟨by exact_mod_cast h.1, by exact_mod_cast h.2⟩

variable {v : Numeric F}

theorem negate_meets (htext : ∀ s, v ≠ .text s) :
    (negate v).Meets (· = .refused) fun r => r.Fits ∧ ∀ w, Follows v w → ∃ w', w.neg = some w' ∧ Follows r w' := by
  cases v with
  | null => exact ⟨trivial, fun w hw => by cases hw; exact ⟨_, rfl, .null⟩⟩
  | text s => exact absurd rfl (htext s)
  | approximate x => exact ⟨trivial, fun w hw => by cases hw⟩
  | exact n =>
    unfold negate
    dsimp only
    generalize hn : (if n.tiny = true then { n with bounds := (-2 ^ 15, 2 ^ 15 - 1), tiny := false } else n) = m
    refine (checked_meets _).bind ?_
    rintro _ ⟨rfl, hfits⟩
    split_ifs with hout
    · rfl
    · refine ⟨hfits, ?_⟩
      rintro _ (_ | _ | @⟨_, t, q, hvalue, hscale, hbounds, htiny, hmoney⟩)
      have hm : m.coefficient = n.coefficient ∧ m.scale = t.negated.scale ∧ m.bounds = t.negated.range ∧
          m.tiny = decide (t.negated = .tinyint) ∧ m.money = t.negated.isMoney := by
        subst hn
        split_ifs with htiny'
        · obtain rfl : t = .tinyint := of_decide_eq_true (htiny.symm.trans htiny')
          exact ⟨rfl, hscale, rfl, rfl, hmoney⟩
        · have ht : t ≠ .tinyint := fun ht => htiny' (htiny.trans (decide_eq_true ht))
          rw [ExactType.negated_of_ne ht]
          exact ⟨rfl, hscale, hbounds, htiny, hmoney⟩
      obtain ⟨hcoefficient, hscale', hbounds', htiny', hmoney'⟩ := hm
      have hneg : -q = ((-m.coefficient : ℤ) : ℚ) / 10 ^ t.negated.scale := by
        rw [hvalue, hcoefficient, hscale, t.scale_negated]
        push_cast
        ring
      have hin : t.negated.range.1 ≤ -m.coefficient ∧ -m.coefficient ≤ t.negated.range.2 := by
        rw [← hbounds']
        simpa using hout
      refine ⟨.exact t.negated (-q), ?_, .exact (by rw [hscale', hneg]) hscale' hbounds' htiny' hmoney'⟩
      show Value.inRange _ _ = _
      rw [Value.inRange, if_pos]
      rw [hneg]
      exact ExactType.holds_of_mem hin

theorem Follows.pos {w : Value} (h : Follows v w) (htext : ∀ s, v ≠ .text s) : w.pos = some w := by
  cases h with
  | null => rfl
  | text s => exact absurd rfl (htext s)
  | exact => rfl

theorem exactOperand_meets (hfits : v.Fits) (integer : Bool) :
    (exactOperand integer v).Meets (· = .refused) fun n => fitsI128 n.coefficient ∧ ∀ w t, Follows v w → integer = t.isInteger →
        w.castTo t = Value.atScale t n.money (n.coefficient / 10 ^ n.scale) := by
  cases v with
  | null => rfl
  | approximate x => rfl
  | exact n =>
    refine ⟨hfits, ?_⟩
    rintro _ t (_ | _ | ⟨hvalue, -, -, -, hmoney⟩) -
    rw [hmoney, ← hvalue]
    rfl
  | text s =>
    unfold exactOperand
    dsimp only
    split_ifs with hdot
    · rfl
    · refine (decimalNumber_meets (F := F) s).mono ?_
      rintro n ⟨hn, integer, fraction, q, hparts, hq, _ | _ | ⟨hvalue, -, -, -, hmoney⟩⟩
      refine ⟨hn, ?_⟩
      rintro _ t (_ | _ | _) rfl
      rw [Value.castTo, if_neg hdot, textValue, hparts, Option.bind_some, hq, hmoney, ← hvalue]
      rfl

theorem approximateOperand_meets (v : Numeric F) : (approximateOperand F v).Meets (· = .refused) fun _ => True := by
  cases v with
  | text s =>
    unfold approximateOperand
    dsimp only
    split_ifs
    · trivial
    · rfl
  | null => rfl
  | exact n => trivial
  | approximate x => trivial

theorem numericConversion_meets (hfits : v.Fits) (ty : ColumnType) :
    (numericConversion v ty).Meets (· = .refused) fun r => r.Fits ∧
      (isApproximate ty.base = false → ∀ w, Follows v w → ∃ w', w.convert ty = some w' ∧ Follows r w') := by
  unfold numericConversion
  dsimp only
  by_cases hbase : (!(isInteger ty.base || ty.base = "decimal" || isMoney ty.base || isApproximate ty.base)) = true
  · rw [if_pos hbase]
    rfl
  rw [if_neg hbase]
  by_cases hv : v = .null
  · subst hv
    exact ⟨trivial, fun _ w hw => by cases hw; exact ⟨_, rfl, .null⟩⟩
  rw [if_neg (by cases v <;> simp_all)]
  cases happrox : isApproximate ty.base with
  | true =>
    rw [if_pos rfl]
    refine (approximateOperand_meets v).bind fun x _ => ?_
    split_ifs
    · exact ⟨trivial, fun h => by simp at h⟩
    · rfl
    · exact ⟨trivial, fun h => by simp at h⟩
    · rfl
  | false =>
    rw [if_neg (by simp)]
    refine (exactOperand_meets hfits _).bind ?_
    rintro n ⟨hn, hcast⟩
    refine (targetRange_meets ty).bind ?_
    rintro _ ⟨t, ht, rfl, hinteger, hmoney, htiny⟩
    refine (rescale_meets hn _ _ _).bind ?_
    rintro c ⟨hc, hround⟩
    split_ifs with hout
    · rfl
    · have hin : t.range.1 ≤ c ∧ c ≤ t.range.2 := by simpa using hout
      refine ⟨hc, fun _ w hw => ⟨.exact t ((c : ℚ) / 10 ^ t.scale), ?_, .exact rfl rfl rfl htiny hmoney⟩⟩
      have hconvert : w.convert ty = w.castTo t := by
        cases hw with
        | null => exact absurd rfl hv
        | text s =>
          show (ExactType.ofColumnType ty).bind _ = _
          rw [ht, Option.bind_some]
        | exact =>
          show (ExactType.ofColumnType ty).bind _ = _
          rw [ht, Option.bind_some]
      rw [hconvert, hcast w t hw hinteger, Value.atScale, ← hinteger, ← hround, Value.inRange,
        if_pos (ExactType.holds_of_mem hin)]

end Pbps.Rows
