/-
How safe changing one PostgreSQL type into another is (`pbps-pg`'s `types.rs`), as the families of types decide it.
Of the numeric types, a change is safe exactly when every value of the old type is a value of the new one.
-/
import Pbps.Lib.Grid
import Pbps.Types.Canonical

namespace Pbps.Pg

/-! ## Families -/

/-- An exact numeric type, as the two shapes PostgreSQL actually has. -/
inductive Exact where
  | integer (max : Int)
  /-- The exponent its integer part reaches and the digits after the point; `none` is the unbounded declaration. -/
  | numeric (intDigits scale : Option Int)
  deriving DecidableEq, Repr

inductive Family where
  | exact (exact : Exact)
  | approx (maxExactInt : Int)
  | bool
  | text (len : Len) (fixed : Bool)
  | bytea
  | temporal (hasDate hasTime hasOffset : Bool) (lastYear : Option Int) (precision : Int)
  | interval (precision : Int)
  | uuid
  | inet (cidr : Bool)
  | macAddr
  | tsVector
  | xml
  | json (binary : Bool)
  | unknown
  deriving DecidableEq, Repr

/-- `10^n` as a magnitude, or `none` when an `i128` does not hold it. -/
def pow10 (n : Int) : Option Int :=
  if n ≤ 0 then some 1 else if n < 2 ^ 32 then checkedI128 (10 ^ n.toNat) else none

/-- `5^n` as a magnitude, or `none` when an `i128` does not hold it. -/
def pow5 (n : Int) : Option Int := if 0 ≤ n ∧ n < 2 ^ 32 then checkedI128 (5 ^ n.toNat) else none

/-- The loop of `digits10`. -/
def countDigits (digits rest : Int) : Int :=
  if rest = 0 then digits else countDigits (digits + 1) (rest.tdiv 10)
termination_by rest.natAbs
decreasing_by
  rw [Int.natAbs_tdiv]
  exact Nat.div_lt_self (Int.natAbs_pos.2 ‹_›) (by decide)

/-- How many decimal digits `max` is written with. -/
def digits10 (max : Int) : Int := countDigits 1 (max.tdiv 10)

/-- Whether a bound holds another, where `none` is unbounded. -/
def fits : Option Int → Option Int → Bool
  | _, none => true
  | none, some _ => false
  | some x, some y => x ≤ y

def exactHolds : Exact → Exact → Bool
  | .integer a, .integer b => a ≤ b
  | .integer max, .numeric intDigits scale => fits (some (digits10 max)) intDigits && fits (some 0) scale
  -- Every `numeric` holds `NaN`, and no integer type does.
  | .numeric .., .integer _ => false
  | .numeric ad asc, .numeric bd bsc => fits ad bd && fits asc bsc

/-- Whether a binary float that holds integers up to `maxExactInt` holds every value of an exact type. -/
def exactInFloat (from_ : Exact) (maxExactInt : Int) : Bool :=
  match from_ with
  | .integer max => max ≤ maxExactInt
  | .numeric (some digits) (some s) =>
    if s ≤ 0 then
      let precision := digits + s
      let e := -s
      ((pow10 precision).bind fun mMax => (pow5 e).bind fun p5 => checkedI128 ((mMax - 1) * p5)).any fun demand =>
        demand ≤ maxExactInt
    else false
  | .numeric .. => false

def DATE_LAST_YEAR : Option Int := some 5874897

def STAMP_LAST_YEAR : Option Int := some 294276

def family (t : ColumnType) : Family :=
  let intArg (i : Nat) : Option Int :=
    match t.args[i]? with
    | some (.int n) => some n
    | _ => none
  let len : Len :=
    match t.args.head? with
    | some (.int n) => .bounded n
    | _ => .unbounded
  let precision := (intArg 0).getD 6
  match t.base with
  | "smallint" => .exact (.integer (2 ^ 15 - 1))
  | "integer" => .exact (.integer (2 ^ 31 - 1))
  | "bigint" => .exact (.integer (2 ^ 63 - 1))
  | "numeric" => .exact (.numeric ((intArg 0).map fun p => p - (intArg 1).getD 0) (intArg 1))
  | "real" => .approx (2 ^ 24)
  | "double precision" => .approx (2 ^ 53)
  | "boolean" => .bool
  | "character" => .text len true
  | "character varying" => .text len false
  | "text" => .text .unbounded false
  | "bytea" => .bytea
  | "date" => .temporal true false false DATE_LAST_YEAR precision
  | "time without time zone" => .temporal false true false none precision
  | "time with time zone" => .temporal false true true none precision
  | "timestamp without time zone" => .temporal true true false STAMP_LAST_YEAR precision
  | "timestamp with time zone" => .temporal true true true STAMP_LAST_YEAR precision
  | "interval" => .interval ((intArg 0).getD MAX_INTERVAL_PRECISION)
  | "uuid" => .uuid
  | "inet" => .inet false
  | "cidr" => .inet true
  | "macaddr" => .macAddr
  | "tsvector" => .tsVector
  | "xml" => .xml
  | "json" => .json false
  | "jsonb" => .json true
  | _ => .unknown

/-- Whether the engine will convert one date-or-time type into another at all: a table rather than a rule. -/
def temporalCastExists : Bool × Bool × Bool → Bool × Bool × Bool → Bool
  | (true, false, false), to_ => [(true, false, false), (true, true, false), (true, true, true)].contains to_
  | (false, true, false), to_ => [(false, true, false), (false, true, true)].contains to_
  | (false, true, true), to_ => [(false, true, false), (false, true, true)].contains to_
  | (true, true, false), to_ =>
    [(true, false, false), (false, true, false), (true, true, false), (true, true, true)].contains to_
  | (true, true, true), to_ =>
    [(true, false, false), (false, true, false), (false, true, true), (true, true, false), (true, true, true)].contains to_
  | _, _ => false

/-- Whether one calendar reaches as far as another: where there is no date there is none to lose. -/
def reaches : Option Int → Option Int → Bool
  | none, _ => true
  | some _, none => false
  | some a, some b => a ≤ b

def familyRisk : Family → Family → TypeChangeRisk
  | .exact a, .exact b => safeIf (exactHolds a b)
  | .exact a, .approx maxExactInt => safeIf (exactInFloat a maxExactInt)
  | .approx a, .approx b => safeIf (a ≤ b)
  | .approx _, .exact _ => .narrowing
  -- Variable into fixed pads every existing value.
  | .text al af, .text bl bf => if !af && bf then .narrowing else safeIf (al.fitsIn bl)
  | .unknown, .text .. => .incompatible
  | _, .text .. => .narrowing
  | .temporal ad at_ ao ay ap, .temporal bd bt bo by_ bp =>
    if !temporalCastExists (ad, at_, ao) (bd, bt, bo) then .incompatible
    else safeIf ((!ad || bd) && (!at_ || bt) && ao = bo && reaches ay by_ && (!at_ || ap ≤ bp))
  | .interval _, .temporal false true false _ _ => .narrowing
  | .temporal false true false _ sourcePrecision, .interval precision => safeIf (sourcePrecision ≤ precision)
  | .interval a, .interval b => safeIf (a ≤ b)
  | .json false, .json true => .narrowing
  | .json true, .json false => .safe
  | .inet true, .inet false => .safe
  | .inet false, .inet true => .narrowing
  | _, _ => .incompatible

/-- How safe changing `from_` into `to_` is. -/
def changeRisk (from_ to_ : ColumnType) : TypeChangeRisk :=
  if from_ = to_ then .safe
  else if from_.array || to_.array then
    -- An array keeps its element's risk.
    if from_.array ≠ to_.array then .incompatible
    else if from_.element = to_.element then .safe
    else familyRisk (family from_.element) (family to_.element)
  else familyRisk (family from_) (family to_)

/-! ## Digits and powers -/

theorem countDigits_spec (digits rest : Int) (hrest : 0 ≤ rest) :
    ∃ n : ℕ, countDigits digits rest = digits + n ∧ rest < 10 ^ n ∧ (n ≠ 0 → 10 ^ (n - 1) ≤ rest) := by
  induction digits, rest using countDigits.induct with
  | case1 digits => exact ⟨0, by rw [countDigits, if_pos rfl]; simp, by simp, by simp⟩
  | case2 digits rest hne ih =>
    obtain ⟨n, hcount, hlt, hle⟩ := ih (by rw [Int.tdiv_eq_ediv_of_nonneg hrest]; omega)
    rw [Int.tdiv_eq_ediv_of_nonneg hrest] at hcount hlt hle
    refine ⟨n + 1, ?_, ?_, fun _ => ?_⟩
    · rw [countDigits, if_neg hne, Int.tdiv_eq_ediv_of_nonneg hrest, hcount]
      push_cast
      ring
    · rw [pow_succ]
      omega
    · cases n with
      | zero =>
        simp at hlt ⊢
        omega
      | succ n =>
        have := hle (Nat.succ_ne_zero n)
        simp only [Nat.add_sub_cancel] at this ⊢
        rw [pow_succ]
        omega

theorem digits10_spec {max : Int} (hmax : 0 < max) : ∃ n : ℕ, digits10 max = n + 1 ∧ 10 ^ n ≤ max ∧ max < 10 ^ (n + 1) := by
  have hdiv : max.tdiv 10 = max / 10 := Int.tdiv_eq_ediv_of_nonneg hmax.le
  obtain ⟨n, hcount, hlt, hle⟩ := countDigits_spec 1 (max.tdiv 10) (by rw [hdiv]; omega)
  rw [hdiv] at hlt hle
  refine ⟨n, by rw [digits10, hcount]; ring, ?_, ?_⟩
  · cases n with
    | zero => exact hmax
    | succ n =>
      have := hle (Nat.succ_ne_zero n)
      simp only [Nat.add_sub_cancel] at this
      rw [pow_succ]
      omega
  · rw [pow_succ]
    omega

variable {bound s : Int} {a : IntegerWidth}

theorem checkedI128_any_le {x : Int} (hx : 0 ≤ x) (hbound : bound < 2 ^ 127) :
    (checkedI128 x).any (fun demand => demand ≤ bound) = true ↔ x ≤ bound := by
  unfold checkedI128
  split_ifs with h
  · simp
  · simp
    omega

theorem exactInFloat_numeric {p : ℕ} (hp : 1 ≤ p ∧ p ≤ 1000) (hs : -1000 ≤ s) (hbound : bound ≤ 2 ^ 53) :
    exactInFloat (.numeric (some (p - s)) (some s)) bound = true ↔ s ≤ 0 ∧ (10 ^ p - 1) * 5 ^ (-s).toNat ≤ bound := by
  unfold exactInFloat
  dsimp only
  split_ifs with hscale
  · rw [and_iff_right hscale]
    have hten : (1 : Int) ≤ 10 ^ p - 1 := by
      have : (10 : Int) ^ 1 ≤ 10 ^ p := pow_le_pow_right₀ (by norm_num) hp.1
      omega
    have hfive : (1 : Int) ≤ 5 ^ (-s).toNat := one_le_pow₀ (by norm_num)
    have hpow10 : pow10 (p - s + s) = checkedI128 (10 ^ p) := by
      rw [pow10, if_neg (by omega), if_pos (by omega)]
      congr 2
      omega
    have hpow5 : pow5 (-s) = checkedI128 (5 ^ (-s).toNat) := by rw [pow5, if_pos (by omega)]
    rw [hpow10, hpow5]
    generalize (5 : Int) ^ (-s).toNat = p5 at hfive
    generalize (10 : Int) ^ p = mMax at hten
    have hfirst : mMax - 1 ≤ (mMax - 1) * p5 := le_mul_of_one_le_right (by omega) hfive
    have hsecond : p5 ≤ (mMax - 1) * p5 := le_mul_of_one_le_left (by omega) hten
    by_cases h10 : mMax < 2 ^ 127
    · by_cases h5 : p5 < 2 ^ 127
      · rw [checkedI128, if_pos ⟨by omega, h10⟩, Option.bind_some, checkedI128, if_pos ⟨by omega, h5⟩, Option.bind_some,
          checkedI128_any_le (by positivity) (by omega)]
      · rw [checkedI128, if_pos ⟨by omega, h10⟩, Option.bind_some, checkedI128, if_neg (by omega)]
        simp
        omega
    · rw [checkedI128, if_neg (by omega)]
      simp
      omega
  · simp [hscale]

/-! ## Numeric types and their values -/

inductive IntegerWidth where
  | smallint
  | integer
  | bigint
  deriving DecidableEq, Repr

namespace IntegerWidth

def name : IntegerWidth → String
  | .smallint => "smallint"
  | .integer => "integer"
  | .bigint => "bigint"

def max : IntegerWidth → Int
  | .smallint => 2 ^ 15 - 1
  | .integer => 2 ^ 31 - 1
  | .bigint => 2 ^ 63 - 1

end IntegerWidth

inductive FloatWidth where
  | real
  | double
  deriving DecidableEq, Repr

namespace FloatWidth

def name : FloatWidth → String
  | .real => "real"
  | .double => "double precision"

def mantissa : FloatWidth → Int
  | .real => 2 ^ 24
  | .double => 2 ^ 53

end FloatWidth

/-- A normalized numeric type. -/
inductive NumericType where
  | integer (width : IntegerWidth)
  | numeric
  | decimal (p : ℕ) (s : Int) (hp : 1 ≤ p ∧ p ≤ 1000) (hs : -1000 ≤ s ∧ s ≤ 1000)
  | float (width : FloatWidth)

/-- A value of a numeric type. -/
inductive Value where
  | nan
  | number (q : ℚ)

namespace NumericType

def type : NumericType → ColumnType
  | .integer width => { base := width.name }
  | .numeric => { base := "numeric" }
  | .decimal p s _ _ => { base := "numeric", args := [.int p, .int s] }
  | .float width => { base := width.name }

def IsExact : NumericType → Prop
  | .float _ => False
  | _ => True

def numbers : NumericType → Set ℚ
  | .integer width => Grid.Decimals (-width.max - 1) width.max 0
  | .numeric => {q | ∃ c s : ℤ, q = c * 10 ^ (-s)}
  | .decimal p s _ _ => Grid.Decimals (-(10 ^ p - 1)) (10 ^ p - 1) s
  | .float width => Grid.Binary width.mantissa

/-- The values of a type: every one but an integer's has `NaN`. -/
def values (t : NumericType) : Set Value := fun v =>
  match v with
  | .nan => ∀ width, t ≠ .integer width
  | .number q => q ∈ t.numbers

theorem values_subset_iff {a b : NumericType} :
    a.values ⊆ b.values ↔ a.numbers ⊆ b.numbers ∧ ((∃ width, b = .integer width) → ∃ width, a = .integer width) := by
  constructor
  · refine fun h => ⟨fun q hq => h (a := .number q) hq, ?_⟩
    rintro ⟨width, rfl⟩
    by_contra hnone
    exact h (a := .nan) (fun w heq => hnone ⟨w, heq⟩) width rfl
  · rintro ⟨hnumbers, hnan⟩ v hv
    cases v with
    | nan =>
      intro width hb
      obtain ⟨w, ha⟩ := hnan ⟨width, hb⟩
      exact hv w ha
    | number q => exact hnumbers hv

theorem family_integer (width : IntegerWidth) : family (type (.integer width)) = .exact (.integer width.max) := by
  cases width <;> rfl

theorem family_numeric : family (type .numeric) = .exact (.numeric none none) := rfl

theorem family_decimal (p : ℕ) (s : Int) (hp : 1 ≤ p ∧ p ≤ 1000) (hs : -1000 ≤ s ∧ s ≤ 1000) :
    family (type (.decimal p s hp hs)) = .exact (.numeric (some (p - s)) (some s)) := rfl

theorem family_float (width : FloatWidth) : family (type (.float width)) = .approx width.mantissa := by
  cases width <;> rfl

end NumericType

/-! ## When one holds the other -/

open Grid (Decimals Binary decimals_subset_iff of_decimals_subset_binary decimals_subset_binary)

theorem IntegerWidth.max_pos (width : IntegerWidth) : 0 < width.max := by cases width <;> decide

theorem IntegerWidth.odd_max (width : IntegerWidth) : Odd width.max := by cases width <;> decide

theorem IntegerWidth.max_add_one_lt {width : IntegerWidth} {n : ℕ} (h : width.max < 10 ^ (n + 1)) :
    width.max + 1 < 10 ^ (n + 1) := by
  refine lt_of_le_of_ne h fun heq => ?_
  have hdvd : (5 : Int) ∣ width.max + 1 := by
    rw [heq, pow_succ]
    exact Dvd.dvd.mul_left (by decide) _
  revert hdvd
  cases width <;> decide

theorem one_le_pow_sub_one {p : ℕ} (hp : 1 ≤ p) : (1 : Int) ≤ 10 ^ p - 1 := by
  have : (10 : Int) ^ 1 ≤ 10 ^ p := pow_le_pow_right₀ (by norm_num) hp
  omega

theorem odd_pow_sub_one {p : ℕ} (hp : 1 ≤ p) : Odd ((10 : Int) ^ p - 1) := by
  have heven : Even ((10 : Int) ^ p) := (by decide : Even (10 : Int)).pow_of_ne_zero (by omega)
  exact heven.sub_odd odd_one

theorem pow_le_pow_sub_one_iff {n p : ℕ} : (10 : Int) ^ n ≤ 10 ^ p - 1 ↔ n < p := by
  rw [Int.le_sub_one_iff]
  exact pow_lt_pow_iff_right₀ (by norm_num)

theorem integer_subset_integer {b : IntegerWidth} :
    Decimals (-a.max - 1) a.max 0 ⊆ Decimals (-b.max - 1) b.max 0 ↔ a.max ≤ b.max := by
  rw [decimals_subset_iff (by have := a.max_pos; omega) a.max_pos]
  constructor
  · rintro ⟨d, hd, -, h⟩
    obtain rfl : d = 0 := by omega
    simpa using h
  · intro h
    exact ⟨0, rfl, by simpa using h, by simpa using h⟩

theorem integer_subset_decimal {p : ℕ} : Decimals (-a.max - 1) a.max 0 ⊆ Decimals (-(10 ^ p - 1)) (10 ^ p - 1) s ↔
      exactHolds (.integer a.max) (.numeric (some (p - s)) (some s)) = true := by
  obtain ⟨n, hdigits, hlow, hhigh⟩ := digits10_spec a.max_pos
  rw [decimals_subset_iff (by have := a.max_pos; omega) a.max_pos, exactHolds, fits, fits, Bool.and_eq_true,
    decide_eq_true_eq, decide_eq_true_eq, hdigits]
  constructor
  · rintro ⟨d, hd, -, h⟩
    have hle : (10 : Int) ^ (n + d) ≤ 10 ^ p - 1 := by
      rw [pow_add]
      exact (mul_le_mul_of_nonneg_right hlow (by positivity)).trans h
    rw [pow_le_pow_sub_one_iff] at hle
    omega
  · rintro ⟨hle, hs⟩
    obtain ⟨d, rfl⟩ : ∃ d : ℕ, s = d := ⟨s.toNat, by omega⟩
    have hpow : (10 : Int) ^ (n + 1) * 10 ^ d ≤ 10 ^ p := by
      rw [← pow_add]
      exact pow_le_pow_right₀ (by norm_num) (by omega)
    have hpos : (1 : Int) ≤ 10 ^ d := one_le_pow₀ (by norm_num)
    have hmul : (a.max + 1) * 10 ^ d < 10 ^ (n + 1) * 10 ^ d :=
      mul_lt_mul_of_pos_right (IntegerWidth.max_add_one_lt hhigh) (by omega)
    refine ⟨d, by omega, ?_, ?_⟩
    · linarith
    · linarith

theorem decimal_subset_decimal {p p' : ℕ} {s' : Int} (hp : 1 ≤ p) :
    Decimals (-(10 ^ p - 1)) (10 ^ p - 1) s ⊆ Decimals (-(10 ^ p' - 1)) (10 ^ p' - 1) s' ↔ p - s ≤ p' - s' ∧ s ≤ s' := by
  have hone := one_le_pow_sub_one hp
  rw [decimals_subset_iff (by omega) hone]
  constructor
  · rintro ⟨d, rfl, -, h⟩
    have hle : (10 : Int) ^ (p - 1 + d) ≤ 10 ^ p' - 1 := by
      rw [pow_add]
      refine (mul_le_mul_of_nonneg_right ?_ (by positivity)).trans h
      rw [pow_le_pow_sub_one_iff]
      omega
    rw [pow_le_pow_sub_one_iff] at hle
    omega
  · rintro ⟨hle, hs⟩
    obtain ⟨d, rfl⟩ : ∃ d : ℕ, s' = s + d := ⟨(s' - s).toNat, by omega⟩
    have hpow : (10 : Int) ^ p * 10 ^ d ≤ 10 ^ p' := by
      rw [← pow_add]
      exact pow_le_pow_right₀ (by norm_num) (by omega)
    have hpos : (1 : Int) ≤ 10 ^ d := one_le_pow₀ (by norm_num)
    refine ⟨d, rfl, ?_, ?_⟩
    · linarith
    · linarith

theorem integer_subset_float {b : FloatWidth} : Decimals (-a.max - 1) a.max 0 ⊆ Binary b.mantissa ↔ a.max ≤ b.mantissa := by
  constructor
  · intro h
    simpa using (of_decimals_subset_binary (by have := a.max_pos; omega) a.max_pos a.odd_max h).2
  · intro h
    have hlow : -b.mantissa ≤ -a.max - 1 := by
      revert h
      cases a <;> cases b <;> decide
    exact decimals_subset_binary (n := 0) (by simpa using hlow) (by simpa using h)

theorem decimal_subset_float {p : ℕ} (hp : 1 ≤ p) :
    Decimals (-(10 ^ p - 1)) (10 ^ p - 1) s ⊆ Binary bound ↔ s ≤ 0 ∧ (10 ^ p - 1) * 5 ^ (-s).toNat ≤ bound := by
  have hone := one_le_pow_sub_one hp
  constructor
  · exact of_decimals_subset_binary (by omega) hone (odd_pow_sub_one hp)
  · rintro ⟨hs, h⟩
    obtain ⟨n, rfl⟩ : ∃ n : ℕ, s = -n := ⟨(-s).toNat, by omega⟩
    rw [neg_neg, Int.toNat_natCast] at h
    exact decimals_subset_binary (by linarith) h

theorem not_numeric_subset_decimal {p : ℕ} :
    ¬ {q : ℚ | ∃ c s : ℤ, q = c * 10 ^ (-s)} ⊆ Decimals (-(10 ^ p - 1)) (10 ^ p - 1) s := by
  intro h
  obtain ⟨c, hc, heq⟩ := h ⟨10 ^ p, s, rfl⟩
  have := (Grid.coefficient_eq_iff (d := 0) (by simp)).1 heq
  rw [pow_zero, mul_one] at this
  omega

theorem not_numeric_subset_float : ¬ {q : ℚ | ∃ c s : ℤ, q = c * 10 ^ (-s)} ⊆ Binary bound := by
  intro h
  have htenth : Decimals 1 1 1 ⊆ Binary bound := by
    rintro q ⟨c, -, rfl⟩
    exact h ⟨c, 1, rfl⟩
  have := (of_decimals_subset_binary le_rfl le_rfl odd_one htenth).1
  omega

theorem decimals_subset_numeric (lo hi s : Int) : Decimals lo hi s ⊆ {q : ℚ | ∃ c s : ℤ, q = c * 10 ^ (-s)} := by
  rintro q ⟨c, -, rfl⟩
  exact ⟨c, s, rfl⟩

namespace NumericType

theorem familyRisk_safe_iff {a : NumericType} (b : NumericType) (ha : a.IsExact) :
    familyRisk (family a.type) (family b.type) = .safe ↔ a.values ⊆ b.values := by
  rw [values_subset_iff]
  cases a with
  | float width => exact ha.elim
  | integer w =>
    rw [family_integer]
    cases b with
    | integer w' =>
      rw [family_integer, familyRisk, safeIf_eq_safe, exactHolds, decide_eq_true_eq]
      simp [numbers, integer_subset_integer]
    | numeric =>
      rw [family_numeric, familyRisk, safeIf_eq_safe]
      exact iff_of_true rfl ⟨decimals_subset_numeric _ _ _, by simp⟩
    | decimal p s hp hs =>
      rw [family_decimal, familyRisk, safeIf_eq_safe, ← integer_subset_decimal]
      simp [numbers]
    | float w' =>
      rw [family_float, familyRisk, safeIf_eq_safe, exactInFloat, decide_eq_true_eq]
      simp [numbers, integer_subset_float]
  | numeric =>
    rw [family_numeric]
    cases b with
    | integer w' =>
      rw [family_integer, familyRisk, safeIf_eq_safe]
      simp [exactHolds]
    | numeric =>
      rw [family_numeric]
      exact iff_of_true rfl ⟨subset_rfl, id⟩
    | decimal p s hp hs =>
      rw [family_decimal, familyRisk, safeIf_eq_safe]
      exact iff_of_false (by simp [exactHolds, fits]) fun h => not_numeric_subset_decimal h.1
    | float w' =>
      rw [family_float, familyRisk, safeIf_eq_safe]
      exact iff_of_false (by simp [exactInFloat]) fun h => not_numeric_subset_float h.1
  | decimal p s hp hs =>
    rw [family_decimal]
    cases b with
    | integer w' =>
      rw [family_integer, familyRisk, safeIf_eq_safe]
      simp [exactHolds]
    | numeric =>
      rw [family_numeric, familyRisk, safeIf_eq_safe]
      exact iff_of_true rfl ⟨decimals_subset_numeric _ _ _, by simp⟩
    | decimal p' s' hp' hs' =>
      rw [family_decimal, familyRisk, safeIf_eq_safe, exactHolds, fits, fits, Bool.and_eq_true, decide_eq_true_eq,
        decide_eq_true_eq, ← decimal_subset_decimal hp.1]
      simp [numbers]
    | float w' =>
      have hbound : w'.mantissa ≤ 2 ^ 53 := by cases w' <;> decide
      rw [family_float, familyRisk, safeIf_eq_safe, exactInFloat_numeric hp hs.1 hbound, ← decimal_subset_float hp.1]
      simp [numbers]

/-- A change from an exact numeric type is safe exactly when every value of it is a value of the other. -/
theorem changeRisk_safe_iff {a : NumericType} (b : NumericType) (ha : a.IsExact) :
    changeRisk a.type b.type = .safe ↔ a.values ⊆ b.values := by
  have hscalar : ∀ t : NumericType, t.type.array = false := by
    intro t
    cases t <;> rfl
  unfold changeRisk
  split_ifs with heq harray
  · have hself := (familyRisk_safe_iff a ha).2 subset_rfl
    nth_rewrite 2 [heq] at hself
    exact iff_of_true rfl ((familyRisk_safe_iff b ha).1 hself)
  · simp [hscalar] at harray
  · simp [hscalar] at harray
  · simp [hscalar] at harray
  · exact familyRisk_safe_iff b ha

/-- Every number that `numeric(1,-7)` holds is one that `real` holds. -/
theorem changeRisk_safe_iff_real : values (.decimal 1 (-7) (by decide) (by decide)) ⊆ values (.float .real) :=
  (changeRisk_safe_iff (a := .decimal 1 (-7) (by decide) (by decide)) (.float .real) trivial).1 (by decide)

/-! ## Normalized numeric types -/

theorem eq_of_shape_none {t : ColumnType} (h : Normal t) (hshape : shapeOf t.base = some .none) : t = { base := t.base } := by
  obtain ⟨base, args, position, array, user⟩ := t
  obtain ⟨rfl, rfl, ⟨shape, hshape', hstored⟩, hposition⟩ := h
  dsimp only at hshape hshape' hstored hposition
  rw [hshape, Option.some.injEq] at hshape'
  subst hshape'
  cases hstored
  rw [hposition]
  simp

theorem exists_of_base {t : ColumnType} (h : Normal t)
    (hbase : t.base ∈ ["smallint", "integer", "bigint", "numeric", "real", "double precision"]) :
    ∃ n : NumericType, n.type = t := by
  have hnone : ∀ name, t.base = name → shapeOf name = some .none → { base := name } = t := by
    intro name hname hshape
    rw [eq_of_shape_none h (by rw [hname]; exact hshape), hname]
  simp only [List.mem_cons, List.not_mem_nil, or_false] at hbase
  rcases hbase with hb | hb | hb | hb | hb | hb
  · exact ⟨.integer .smallint, hnone _ hb rfl⟩
  · exact ⟨.integer .integer, hnone _ hb rfl⟩
  · exact ⟨.integer .bigint, hnone _ hb rfl⟩
  · obtain ⟨base, args, position, array, user⟩ := t
    obtain ⟨rfl, rfl, ⟨shape, hshape, hstored⟩, hposition⟩ := h
    dsimp only at hb hshape hstored hposition ⊢
    subst hb
    obtain rfl : position = none := hposition
    obtain rfl := Option.some.inj hshape
    cases hstored with
    | decimal => exact ⟨.numeric, rfl⟩
    | @numeric p s hp hs =>
      rw [MAX_NUMERIC_PRECISION] at hp
      obtain ⟨p, rfl⟩ : ∃ n : ℕ, p = n := ⟨p.toNat, by omega⟩
      exact ⟨.decimal p s ⟨by omega, by omega⟩ hs, rfl⟩
  · exact ⟨.float .real, hnone _ hb rfl⟩
  · exact ⟨.float .double, hnone _ hb rfl⟩

end NumericType

end Pbps.Pg
