/-
The bounds of a range partition as the engine prints them (`pbps-pg`'s `partition_series.rs`): the key a column's type
makes, and how a bound of each key is read and spelled.
-/
import Mathlib.Data.List.DropRight
import Pbps.Partition.Calendar
import Pbps.Types.Digits
import Pbps.Types.Postgres

namespace Pbps.Partition

/-! ## Keys -/

/-- An integer type: its name and its range. -/
structure IntType where
  name : String
  min : Int
  max : Int
  deriving DecidableEq, Repr

inductive Key where
  | date
  | timestamp
  | timestampTz
  | integer (int : IntType)
  deriving DecidableEq, Repr

def Key.of (ty : ColumnType) : Option Key :=
  match Pg.normalize ty with
  | .error _ => none
  | .ok ty =>
    if ty.array then none
    else
      match ty.base with
      | "date" => some .date
      | "timestamp without time zone" => some .timestamp
      | "timestamp with time zone" => some .timestampTz
      | "smallint" => some (.integer ⟨"smallint", -2 ^ 15, 2 ^ 15 - 1⟩)
      | "integer" => some (.integer ⟨"integer", -2 ^ 31, 2 ^ 31 - 1⟩)
      | "bigint" => some (.integer ⟨"bigint", -2 ^ 63, 2 ^ 63 - 1⟩)
      | _ => none

/-! ## Dates and times -/

/-- Why a text is not a bound of the key's type. -/
inductive Reject where
  /-- Not the spelling the engine prints. -/
  | spelling
  /-- A `timestamptz` in another zone than UTC. -/
  | offset
  deriving DecidableEq, Repr

variable (key : Key) (text : List Char)

def digits (width : Nat) : Option Int :=
  if text.length = width ∧ text.all isAsciiDigit = true then parseI64 text else none

/-- What `digits` gives, or a rejected spelling. -/
def digitsOr (width : Nat) : Except Reject Int :=
  match digits text width with
  | some n => .ok n
  | none => .error .spelling

def parseDate : Except Reject Civil := do
  let date := text.take 10
  if date.length ≠ 10 ∨ date.all isAscii = false then throw .spelling
  if date[4]? ≠ some '-' ∨ date[7]? ≠ some '-' then throw .spelling
  let y ← digitsOr (date.take 4) 4
  let m ← digitsOr ((date.drop 5).take 2) 2
  let d ← digitsOr (date.drop 8) 2
  if ¬ (1 ≤ y ∧ y ≤ 9999) ∨ ¬ (1 ≤ m ∧ m ≤ 12) ∨ ¬ (1 ≤ d ∧ d ≤ daysInMonth y m) then throw .spelling
  return ⟨y, m, d, 0, 0⟩

def parseClock (time : List Char) : Except Reject Int := do
  let clock := time.take 8
  if clock.length ≠ 8 ∨ clock.all isAscii = false then throw .spelling
  if clock[2]? ≠ some ':' ∨ clock[5]? ≠ some ':' then throw .spelling
  let h ← digitsOr (clock.take 2) 2
  let mi ← digitsOr ((clock.drop 3).take 2) 2
  let s ← digitsOr (clock.drop 6) 2
  if h > 23 ∨ mi > 59 ∨ s > 59 then throw .spelling
  return h * 3600 + mi * 60 + s

/-- The microseconds of a fraction, and what follows it. The engine prints at most six digits and no zero at the end. -/
def parseFraction : List Char → Except Reject (Int × List Char)
  | '.' :: fraction =>
    let n := min (fraction.takeWhile isAsciiDigit).length 6
    let shown := fraction.take n
    if n = 0 ∨ shown.getLast? = some '0' then .error .spelling
    else do
      let count ← digitsOr shown n
      return (count * 10 ^ (6 - n), fraction.drop n)
  | after => .ok (0, after)

/-- What follows the time of a bound: nothing, or for a `timestamptz` the offset of UTC. -/
def parseZone (after : List Char) : Except Reject Unit :=
  match key, after with
  | .timestamp, [] => .ok ()
  | .timestampTz, ['+', '0', '0'] => .ok ()
  | .timestampTz, other =>
    if other.length ≥ 3 ∧ (other.head? = some '+' ∨ other.head? = some '-') ∧
        other.tail.all (fun c => isAsciiDigit c || c == ':') = true then
      .error .offset
    else .error .spelling
  | _, _ => .error .spelling

/-- A bound as the engine prints it, and no other way: years 1 to 9999, two digits for what is smaller, and for a
`timestamptz` the offset of UTC. -/
def parseCivil : Except Reject Civil := do
  let civil ← parseDate text
  let rest := text.drop 10
  if key = .date then
    if rest = [] then .ok civil else .error .spelling
  else
    match rest with
    | ' ' :: time => do
      let secs ← parseClock time
      let (micros, after) ← parseFraction (time.drop 8)
      parseZone key after
      return { civil with secs, micros }
    | _ => .error .spelling

def dateText (y m d : Int) : List Char := padded 4 y ++ '-' :: (padded 2 m ++ '-' :: padded 2 d)

def clockText (secs : Int) : List Char :=
  padded 2 (secs / 3600) ++ ':' :: (padded 2 (secs % 3600 / 60) ++ ':' :: padded 2 (secs % 60))

/-- A fraction of a second as the engine prints it: with no zero at the end, and no point where there is none. -/
def fractionText (micros : Int) : List Char :=
  if micros = 0 then [] else '.' :: (padded 6 micros).rdropWhile (· = '0')

def fmtCivil (c : Civil) : List Char :=
  match key with
  | .date | .integer _ => dateText c.y c.m c.d
  | .timestamp => dateText c.y c.m c.d ++ ' ' :: (clockText c.secs ++ fractionText c.micros)
  | .timestampTz => dateText c.y c.m c.d ++ ' ' :: (clockText c.secs ++ fractionText c.micros ++ "+00".toList)

/-! ## Integers -/

/-- Why a text is not a bound of an integer key. -/
inductive IntReject where
  | spelling
  | outside
  deriving DecidableEq, Repr

def unsigned : List Char → List Char
  | '-' :: digits => digits
  | text => text

/-- No sign but `-`, no leading zero and no more than twenty digits. -/
def isCanonical : Bool :=
  !(unsigned text).isEmpty && (unsigned text).length ≤ 20 && (unsigned text).all isAsciiDigit &&
    (unsigned text = ['0'] || (unsigned text).head? ≠ some '0') && text ≠ ['-', '0']

/-- `str::parse::<i128>`, of a canonical text. -/
def integerValue : Int :=
  if text.head? = some '-' then -digitsValue (unsigned text) else digitsValue (unsigned text)

def parseInteger (int : IntType) (text : List Char) : Except IntReject Int :=
  if isCanonical text = false then .error .spelling
  else if ¬ (int.min ≤ integerValue text ∧ integerValue text ≤ int.max) then .error .outside
  else .ok (integerValue text)

/-! ## Bounds of any key -/

/-- Why a text is not a bound of the key. -/
inductive Unread where
  | civil (key : Key) (reject : Reject)
  | integer (int : IntType) (reject : IntReject)
  deriving DecidableEq, Repr

def readCivil (text : String) : Except Unread Civil := (parseCivil key text.toList).mapError (.civil key)

def readInteger (int : IntType) (text : String) : Except Unread Int := (parseInteger int text.toList).mapError (.integer int)

/-- A bound's value. A key is of one kind, so that two values compared are of one variant. -/
inductive Val where
  | time (c : Civil)
  | int (i : Int)

namespace Val

def toSum : Val → Civil ⊕ₗ Int
  | time c => toLex (.inl c)
  | int i => toLex (.inr i)

theorem toSum_injective : Function.Injective toSum := by
  rintro (c | i) (c' | i') h
  · exact congrArg time (Sum.inl.inj (toLex_inj.1 h))
  · cases toLex_inj.1 h
  · cases toLex_inj.1 h
  · exact congrArg int (Sum.inr.inj (toLex_inj.1 h))

instance : LinearOrder Val := LinearOrder.lift' toSum toSum_injective

@[simp] theorem time_lt {c c' : Civil} : time c < time c' ↔ c < c' := Sum.Lex.inl_lt_inl_iff

@[simp] theorem int_lt {i i' : Int} : int i < int i' ↔ i < i' := Sum.Lex.inr_lt_inr_iff

@[simp] theorem time_le {c c' : Civil} : time c ≤ time c' ↔ c ≤ c' := Sum.Lex.inl_le_inl_iff

@[simp] theorem int_le {i i' : Int} : int i ≤ int i' ↔ i ≤ i' := Sum.Lex.inr_le_inr_iff

end Val

def readVal (text : String) : Except Unread Val :=
  match key with
  | .integer int => (readInteger int text).map .int
  | .date | .timestamp | .timestampTz => (readCivil key text).map .time

end Pbps.Partition
