/-
How safe changing one SQL Server type into another is (`pbps-mssql`'s `types.rs`), as the families of types decide it. An
operation that an `i128` does not hold, or a division by zero, is no answer.
-/
import Pbps.Lib.Grid
import Pbps.Types.Canonical

namespace Pbps.Mssql

open Option (bind_some)

/-! ## Families -/

inductive Family where
  /-- Exact numeric bounds, in units of `10^-scale`. -/
  | exact (min max : Int) (scale : Nat)
  | approx (maxExactInt : Int)
  | text (len : Len) (unicode fixed : Bool)
  | binary (len : Len) (fixed : Bool)
  | temporal (hasDate hasTime hasOffset : Bool) (precision range : Int)
  /-- Everything with no ordering at all: only a change to itself is safe. -/
  | opaqueKind
  deriving DecidableEq, Repr

/-- The cast `as u32`. -/
def asU32 (n : Int) : Nat := (n % 2 ^ 32).toNat

/-- `10_i128.pow`. -/
def pow10 (n : Nat) : Option Int := checkedI128 (10 ^ n)

/-- The division of two `i128`. -/
def divI128 (x y : Int) : Option Int := if y = 0 then none else checkedI128 (x.tdiv y)

/-- The capacity of a type that is declared without arguments and stored with one. -/
def fixedAliasCapacity (base : String) : Option Int := if base = "sysname" then some 128 else none

def family (t : ColumnType) : Option Family :=
  let intArg (i : Nat) : Int :=
    match t.args[i]? with
    | some (.int n) => n
    | _ => 0
  let len : Len :=
    match t.args.head? with
    | some .max => .unbounded
    | some (.int n) => .bounded n
    | _ => .bounded 1
  match t.base with
  | "bit" => some (.exact 0 1 0)
  | "tinyint" => some (.exact 0 (2 ^ 8 - 1) 0)
  | "smallint" => some (.exact (-2 ^ 15) (2 ^ 15 - 1) 0)
  | "int" => some (.exact (-2 ^ 31) (2 ^ 31 - 1) 0)
  | "bigint" => some (.exact (-2 ^ 63) (2 ^ 63 - 1) 0)
  | "decimal" => do
    let power ← pow10 (asU32 (intArg 0))
    let max ← checkedI128 (power - 1)
    let min ← checkedI128 (-max)
    pure (.exact min max (asU32 (intArg 1)))
  | "smallmoney" => some (.exact (-2 ^ 31) (2 ^ 31 - 1) 4)
  | "money" => some (.exact (-2 ^ 63) (2 ^ 63 - 1) 4)
  | "real" => some (.approx (2 ^ 24))
  | "float" => some (.approx (2 ^ 53))
  | "char" => some (.text len false true)
  | "varchar" => some (.text len false false)
  | "nchar" => some (.text len true true)
  | "nvarchar" => some (.text len true false)
  | "sysname" => (fixedAliasCapacity "sysname").map fun n => .text (.bounded n) true false
  | "text" => some (.text .unbounded false false)
  | "ntext" => some (.text .unbounded true false)
  | "binary" => some (.binary len true)
  | "varbinary" => some (.binary len false)
  -- The engine alters a column neither from nor to `timestamp`.
  | "timestamp" => some .opaqueKind
  | "image" => some (.binary .unbounded false)
  | "date" => some (.temporal true false false 0 2)
  | "time" => some (.temporal false true false (intArg 0) 2)
  | "smalldatetime" => some (.temporal true true false 0 0)
  | "datetime" => some (.temporal true true false 3 1)
  | "datetime2" => some (.temporal true true false (intArg 0) 2)
  | "datetimeoffset" => some (.temporal true true true (intArg 0) 2)
  | _ => some .opaqueKind

def familyRisk : Family → Family → Option TypeChangeRisk
  | .exact amin amax asc, .exact bmin bmax bsc =>
    if bsc < asc then some .narrowing
    else do
      -- The target's bounds are divided, as the source's times `10^38` could overflow.
      let factor ← pow10 (bsc - asc)
      let low ← divI128 bmin factor
      let high ← divI128 bmax factor
      pure (safeIf (low ≤ amin && amax ≤ high))
  | .exact min max scale, .approx maxExactInt => do
    let low ← checkedI128 (-maxExactInt)
    pure (safeIf (scale = 0 && low ≤ min && max ≤ maxExactInt))
  | .approx a, .approx b => some (safeIf (a ≤ b))
  | .approx _, .exact .. => some .narrowing
  | .text al au af, .text bl bu bf =>
    if au && !bu then some .narrowing
    -- Variable into fixed pads every existing value.
    else if !af && bf then some .narrowing
    else some (safeIf (al.fitsIn bl))
  | .binary al af, .binary bl bf =>
    if bf && (!af || al ≠ bl) then some .narrowing else some (safeIf (al.fitsIn bl))
  | .temporal ad at_ ao ap ar, .temporal bd bt bo bp br =>
    let keepsComponents := (!ad || bd) && (!at_ || bt) && (!ao || bo)
    some (safeIf (keepsComponents && ap ≤ bp && ar ≤ br))
  | .exact .., .text .. | .approx _, .text .. | .temporal .., .text .. => some .narrowing
  | _, _ => some .incompatible

/-- How safe changing `from_` into `to_` is. -/
def changeRisk (from_ to_ : ColumnType) : Option TypeChangeRisk :=
  if from_ = to_ then some .safe
  else do
    let a ← family from_
    let b ← family to_
    familyRisk a b

/-! ## Numeric types and their values -/

/-- A normalized exact numeric type. -/
inductive ExactType where
  | bit
  | tinyint
  | smallint
  | int
  | bigint
  | decimal (p s : ℕ) (hp : 1 ≤ p ∧ p ≤ 38) (hs : s ≤ p)
  | smallmoney
  | money

namespace ExactType

def type : ExactType → ColumnType
  | .bit => { base := "bit" }
  | .tinyint => { base := "tinyint" }
  | .smallint => { base := "smallint" }
  | .int => { base := "int" }
  | .bigint => { base := "bigint" }
  | .decimal p s _ _ => { base := "decimal", args := [.int p, .int s] }
  | .smallmoney => { base := "smallmoney" }
  | .money => { base := "money" }

def min : ExactType → Int
  | .bit | .tinyint => 0
  | .smallint => -2 ^ 15
  | .int | .smallmoney => -2 ^ 31
  | .bigint | .money => -2 ^ 63
  | .decimal p _ _ _ => -(10 ^ p - 1)

def max : ExactType → Int
  | .bit => 1
  | .tinyint => 2 ^ 8 - 1
  | .smallint => 2 ^ 15 - 1
  | .int | .smallmoney => 2 ^ 31 - 1
  | .bigint | .money => 2 ^ 63 - 1
  | .decimal p _ _ _ => 10 ^ p - 1

def scale : ExactType → ℕ
  | .smallmoney | .money => 4
  | .decimal _ s _ _ => s
  | _ => 0

end ExactType

inductive FloatType where
  | real
  | float

namespace FloatType

def type : FloatType → ColumnType
  | .real => { base := "real" }
  | .float => { base := "float", args := [.int 53] }

def mantissa : FloatType → Int
  | .real => 2 ^ 24
  | .float => 2 ^ 53

end FloatType

/-- A normalized numeric type. -/
inductive NumericType where
  | exact (t : ExactType)
  | approx (t : FloatType)

namespace NumericType

def type : NumericType → ColumnType
  | .exact t => t.type
  | .approx t => t.type

def values : NumericType → Set ℚ
  | .exact t => Grid.Decimals t.min t.max t.scale
  | .approx t => Grid.Binary t.mantissa

end NumericType

/-! ## Bounds -/

variable {x bound factor c : Int}

theorem checkedI128_of_le (hlo : -10 ^ 38 ≤ x) (hhi : x ≤ 10 ^ 38) : checkedI128 x = some x :=
  if_pos ⟨by omega, by omega⟩

theorem pow10_of_le {n : ℕ} (hn : n ≤ 38) : pow10 n = some (10 ^ n) := by
  have hpow : (10 : Int) ^ n ≤ 10 ^ 38 := pow_le_pow_right₀ (by norm_num) hn
  have hpos : (0 : Int) < 10 ^ n := by positivity
  exact checkedI128_of_le (by omega) hpow

theorem asU32_natCast {n : ℕ} (hn : n ≤ 38) : asU32 n = n := by
  unfold asU32
  omega

namespace ExactType

theorem scale_le (t : ExactType) : t.scale ≤ 38 := by
  cases t with
  | decimal p s hp hs => exact hs.trans hp.2
  | _ => decide

theorem bounds (t : ExactType) :
    (-10 ^ 38 ≤ t.min ∧ t.min ≤ 0) ∧ (1 ≤ t.max ∧ t.max ≤ 10 ^ 38) ∧ -t.max - 1 ≤ t.min ∧ Odd t.max := by
  cases t with
  | decimal p s hp hs =>
    have hle : (10 : Int) ^ p ≤ 10 ^ 38 := pow_le_pow_right₀ (by norm_num) hp.2
    have hge : (10 : Int) ^ 1 ≤ 10 ^ p := pow_le_pow_right₀ (by norm_num) hp.1
    have heven : Even ((10 : Int) ^ p) := (by decide : Even (10 : Int)).pow_of_ne_zero (by omega)
    show (-10 ^ 38 ≤ -((10 : Int) ^ p - 1) ∧ -((10 : Int) ^ p - 1) ≤ 0) ∧
      (1 ≤ (10 : Int) ^ p - 1 ∧ (10 : Int) ^ p - 1 ≤ 10 ^ 38) ∧ -((10 : Int) ^ p - 1) - 1 ≤ -((10 : Int) ^ p - 1) ∧
      Odd ((10 : Int) ^ p - 1)
    exact ⟨⟨by omega, by omega⟩, ⟨by omega, by omega⟩, by omega, heven.sub_odd odd_one⟩
  | _ => decide

theorem family_type (t : ExactType) : family t.type = some (.exact t.min t.max t.scale) := by
  cases t with
  | decimal p s hp hs =>
    have hle : (10 : Int) ^ p ≤ 10 ^ 38 := pow_le_pow_right₀ (by norm_num) hp.2
    have hpos : (0 : Int) < 10 ^ p := by positivity
    show ((pow10 (asU32 p)).bind fun power => (checkedI128 (power - 1)).bind fun max => (checkedI128 (-max)).bind fun min =>
      some (Family.exact min max (asU32 s))) = _
    rw [asU32_natCast hp.2, asU32_natCast (hs.trans hp.2), pow10_of_le hp.2, bind_some,
      checkedI128_of_le (by omega) (by omega), bind_some, checkedI128_of_le (by omega) (by omega), bind_some]
    rfl
  | _ => rfl

end ExactType

theorem FloatType.family_type (t : FloatType) : family t.type = some (.approx t.mantissa) := by
  cases t <;> rfl

theorem divI128_of_pos {y : Int} (hlo : -10 ^ 38 ≤ x) (hhi : x ≤ 10 ^ 38) (hy : 0 < y) : divI128 x y = some (x.tdiv y) := by
  have habs : (x.tdiv y).natAbs ≤ x.natAbs := by
    rw [Int.natAbs_tdiv]
    exact Nat.div_le_self _ _
  rw [divI128, if_neg hy.ne']
  exact checkedI128_of_le (by omega) (by omega)

theorem tdiv_le_iff (hbound : bound ≤ 0) (hfactor : 0 < factor) : bound.tdiv factor ≤ c ↔ bound ≤ c * factor := by
  have hneg : bound.tdiv factor = -((-bound) / factor) := by
    rw [← Int.tdiv_eq_ediv_of_nonneg (by omega), Int.neg_tdiv, neg_neg]
  rw [hneg, neg_le, Int.le_ediv_iff_mul_le hfactor, neg_mul, neg_le_neg_iff]

theorem le_tdiv_iff (hbound : 0 ≤ bound) (hfactor : 0 < factor) : c ≤ bound.tdiv factor ↔ c * factor ≤ bound := by
  rw [Int.tdiv_eq_ediv_of_nonneg hbound, Int.le_ediv_iff_mul_le hfactor]

/-! ## When one holds the other -/

open Grid (Decimals Binary decimals_subset_iff of_decimals_subset_binary decimals_subset_binary)

theorem familyRisk_exact (a b : ExactType) :
    ∃ r, familyRisk (.exact a.min a.max a.scale) (.exact b.min b.max b.scale) = some r ∧
      (r = .safe ↔ Decimals a.min a.max a.scale ⊆ Decimals b.min b.max b.scale) := by
  obtain ⟨ha, ha', -⟩ := a.bounds
  obtain ⟨hb, hb', -⟩ := b.bounds
  rw [decimals_subset_iff (by omega) ha'.1, familyRisk]
  split_ifs with hscale
  · refine ⟨_, rfl, iff_of_false (by decide) ?_⟩
    rintro ⟨d, hd, -⟩
    omega
  · have hfactor : (0 : Int) < 10 ^ (b.scale - a.scale) := by positivity
    have hpow := pow10_of_le ((Nat.sub_le b.scale a.scale).trans b.scale_le)
    refine ⟨safeIf (b.min.tdiv (10 ^ (b.scale - a.scale)) ≤ a.min && a.max ≤ b.max.tdiv (10 ^ (b.scale - a.scale))), ?_, ?_⟩
    · rw [hpow]
      show ((divI128 b.min _).bind fun low => (divI128 b.max _).bind fun high => some _) = _
      rw [divI128_of_pos hb.1 (by omega) hfactor, bind_some, divI128_of_pos (by omega) hb'.2 hfactor,
        bind_some]
    · rw [safeIf_eq_safe, Bool.and_eq_true, decide_eq_true_eq, decide_eq_true_eq, tdiv_le_iff hb.2 hfactor,
        le_tdiv_iff (by omega) hfactor]
      constructor
      · exact fun h => ⟨b.scale - a.scale, by omega, h⟩
      · rintro ⟨d, hd, h⟩
        obtain rfl : d = b.scale - a.scale := by omega
        exact h

theorem familyRisk_approx (a : ExactType) (b : FloatType) :
    ∃ r, familyRisk (.exact a.min a.max a.scale) (.approx b.mantissa) = some r ∧
      (r = .safe ↔ Decimals a.min a.max a.scale ⊆ Binary b.mantissa) := by
  obtain ⟨ha, ha', hboth, hodd⟩ := a.bounds
  have hmantissa : 0 < b.mantissa ∧ b.mantissa ≤ 10 ^ 38 := by cases b <;> decide
  refine ⟨safeIf (a.scale = 0 && -b.mantissa ≤ a.min && a.max ≤ b.mantissa), ?_, ?_⟩
  · rw [familyRisk, checkedI128_of_le (by omega) (by omega)]
    rfl
  · rw [safeIf_eq_safe, Bool.and_eq_true, Bool.and_eq_true, decide_eq_true_eq, decide_eq_true_eq, decide_eq_true_eq]
    constructor
    · rintro ⟨⟨hscale, hlow⟩, hhigh⟩
      rw [hscale]
      exact decimals_subset_binary (n := 0) (by simpa using hlow) (by simpa using hhigh)
    · intro h
      obtain ⟨hscale, hhigh⟩ := of_decimals_subset_binary (by omega) ha'.1 hodd h
      have hzero : a.scale = 0 := by omega
      rw [hzero] at hhigh
      have hmax : a.max ≤ b.mantissa := by simpa using hhigh
      -- The greatest coefficient is odd and the bound even, so that the least, at most one further, is within it too.
      have hlow : -b.mantissa ≤ a.min := by
        obtain ⟨k, hk⟩ := hodd
        have heven : b.mantissa % 2 = 0 := by cases b <;> decide
        omega
      exact ⟨⟨hzero, hlow⟩, hmax⟩

theorem bounds_of_type_eq {a b : ExactType} (h : a.type = b.type) : a.min = b.min ∧ a.max = b.max ∧ a.scale = b.scale := by
  have hfamily := congrArg family h
  rw [a.family_type, b.family_type, Option.some.injEq, Family.exact.injEq] at hfamily
  exact hfamily

namespace NumericType

/-- A change from an exact numeric type has a risk, and is safe exactly when every value of it is a value of the
other. -/
theorem changeRisk_total_iff (a : ExactType) (b : NumericType) :
    ∃ r, changeRisk a.type b.type = some r ∧ (r = .safe ↔ values (.exact a) ⊆ b.values) := by
  unfold changeRisk
  split_ifs with heq
  · refine ⟨_, rfl, iff_of_true rfl ?_⟩
    cases b with
    | exact b =>
      obtain ⟨hmin, hmax, hscale⟩ := bounds_of_type_eq heq
      rw [values, values, hmin, hmax, hscale]
    | approx b =>
      have hfamily := congrArg family heq
      rw [a.family_type, type, b.family_type] at hfamily
      cases hfamily
  · rw [a.family_type, Option.bind_eq_bind, bind_some]
    cases b with
    | exact b =>
      rw [type, b.family_type]
      exact familyRisk_exact a b
    | approx b =>
      rw [type, b.family_type]
      exact familyRisk_approx a b

/-! ## Normalized numeric types -/

theorem exists_of_base {t : ColumnType} (h : Normal t)
    (hbase : t.base ∈ ["bit", "tinyint", "smallint", "int", "bigint", "decimal", "smallmoney", "money", "real", "float"]) :
    ∃ n : NumericType, n.type = t := by
  obtain ⟨⟨shape, hshape, hstored⟩, hbare⟩ := h
  have hnone : ∀ name, t.base = name → shapeOf name = some .none → { base := name } = t := by
    intro name hname hnone
    rw [hname, hnone] at hshape
    obtain rfl := Option.some.inj hshape
    have hargs : t.args = [] := by
      generalize t.args = args at hstored
      cases hstored
      rfl
    rw [hbare, hname, hargs]
  simp only [List.mem_cons, List.not_mem_nil, or_false] at hbase
  rcases hbase with hb | hb | hb | hb | hb | hb | hb | hb | hb | hb
  · exact ⟨.exact .bit, hnone _ hb rfl⟩
  · exact ⟨.exact .tinyint, hnone _ hb rfl⟩
  · exact ⟨.exact .smallint, hnone _ hb rfl⟩
  · exact ⟨.exact .int, hnone _ hb rfl⟩
  · exact ⟨.exact .bigint, hnone _ hb rfl⟩
  · rw [hb] at hshape
    obtain rfl := Option.some.inj hshape
    generalize hargs : t.args = args at hstored
    cases hstored with
    | @decimal p s hcheck =>
      simp only [checkDecimal, Bool.and_eq_true, decide_eq_true_eq] at hcheck
      obtain ⟨p, rfl⟩ : ∃ n : ℕ, p = n := ⟨p.toNat, by omega⟩
      obtain ⟨s, rfl⟩ : ∃ n : ℕ, s = n := ⟨s.toNat, by omega⟩
      refine ⟨.exact (.decimal p s ⟨by omega, by omega⟩ (by omega)), ?_⟩
      rw [hbare, hb, hargs]
      rfl
  · exact ⟨.exact .smallmoney, hnone _ hb rfl⟩
  · exact ⟨.exact .money, hnone _ hb rfl⟩
  · exact ⟨.approx .real, hnone _ hb rfl⟩
  · rw [hb] at hshape
    obtain rfl := Option.some.inj hshape
    generalize hargs : t.args = args at hstored
    cases hstored with
    | float =>
      refine ⟨.approx .float, ?_⟩
      rw [hbare, hb, hargs]
      rfl

end NumericType

end Pbps.Mssql
