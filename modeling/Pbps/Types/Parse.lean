/-
Column types read from text: `FromStr` of `ColumnType` (`types.rs`), with its arguments, its array marker and the
user-defined types it names by reference.
-/
import Mathlib.Algebra.Ring.Int.Defs
import Pbps.Tree.Names

namespace Pbps

open TypeRef (trim lowerAscii qualifiedParts)

/-- `str::split_whitespace`. -/
def splitWhitespace (s : List Char) : List (List Char) := (s.splitOnP isWhitespace).filter fun w => !w.isEmpty

/-- `str::to_ascii_lowercase`. -/
def toAsciiLowercase (s : List Char) : List Char := s.map lowerAscii

def digitsValue (ds : List Char) : Nat := ds.foldl (fun n d => 10 * n + (d.toNat - 0x30)) 0

/-- `str::parse::<i64>`. -/
def parseI64 (s : List Char) : Option Int :=
  let (negative, digits) :=
    match s with
    | '-' :: ds => (true, ds)
    | '+' :: ds => (false, ds)
    | ds => (false, ds)
  let value : Int := if negative then -digitsValue digits else digitsValue digits
  if digits.isEmpty || !digits.all isAsciiDigit || value < -2 ^ 63 || 2 ^ 63 ≤ value then none else some value

namespace ColumnType

def new (base : List Char) (args : List TypeArg) : ColumnType := { base := String.ofList (toAsciiLowercase base), args }

/-- Whether the text can only be a user-defined type reference: it starts with a quote, or its name holds a `.`
or a quote. -/
def namesATypeReference (s : List Char) : Bool :=
  s.head? = some '"' || (s.takeWhile fun c => c ≠ '(' && c ≠ '[').any fun c => c = '.' || c = '"'

def parseReference (whole : List Char) : Option ColumnType :=
  match qualifiedParts whole with
  | .ok (user, array) =>
    if user.problem.isSome then none else some { base := user.raw, array, user := some user }
  | .error _ => none

def finishBase (base : List Char) (args : List TypeArg) : Option ColumnType :=
  let base := trim base
  if !base.isEmpty && base.all (fun c => isAsciiAlphanumeric c || c = '_' || c = ' ') then some (new base args) else none

def withArgsAfterWord (ty : ColumnType) (words : Nat) : Option ColumnType :=
  let base := splitWhitespace ty.base.toList
  if ty.args.isEmpty || words = 0 || words ≥ base.length then none
  else some { ty with base := String.ofList ([' '].intercalate base), argsAfterWord := some words }

def parseArg (raw : List Char) : Option TypeArg :=
  let a := trim raw
  if a.isEmpty || a.any (fun c => c = '(' || c = ')') then none
  else
    match parseI64 a with
    | some n => some (.int n)
    | none =>
      if toAsciiLowercase a = "max".toList then some .max else some (.ident (String.ofList (toAsciiLowercase a)))

/-- A type with neither brackets nor a reference: its base name and what stands in its parentheses. -/
def parsePlain (s : List Char) : Option ColumnType :=
  if s.isEmpty || s.any (fun c => c = '[' || c = ']') ||
      (splitWhitespace s).any (fun w => toAsciiLowercase w = "array".toList) then none
  else if '(' ∉ s then finishBase s []
  else
    let opened := s.idxOf '('
    if ')' ∉ s then none
    else
      let close := s.length - 1 - s.reverse.idxOf ')'
      if close < opened then none
      else
        let after := s.drop (close + 1)
        let suffix := trim after
        if !suffix.isEmpty && (!(after.head?.any isWhitespace) ||
            !(suffix.all fun c => isAsciiAlphanumeric c || c = '_' || c = ' ')) then none
        else do
          let args ← (((s.take close).drop (opened + 1)).splitOn ',').mapM parseArg
          if suffix.isEmpty then finishBase (s.take opened) args
          else
            let front ← finishBase (s.take opened) []
            let whole ← finishBase (front.base.toList ++ ' ' :: suffix) args
            whole.withArgsAfterWord (splitWhitespace front.base.toList).length

def parse (text : List Char) : Option ColumnType :=
  let s := trim text
  if s.isEmpty then none
  else if namesATypeReference s then parseReference s
  -- One trailing `[]` and nothing else of an array's other spellings.
  else if ['[', ']'] <:+ s then (parsePlain (trim (s.take (s.length - 2)))).map fun ty => { ty with array := true }
  else parsePlain s

end ColumnType

/-! ## How safe a change of type is

`TypeChangeRisk` of `pbps-dialect`, and what the rules of both dialects are written with. -/

inductive TypeChangeRisk where
  | safe
  | narrowing
  | incompatible
  deriving DecidableEq, Repr

def safeIf (condition : Bool) : TypeChangeRisk := if condition then .safe else .narrowing

theorem safeIf_eq_safe {condition : Bool} : safeIf condition = .safe ↔ condition = true := by
  cases condition <;> decide

theorem not_or_eq_true {a b : Bool} : (!a || b) = true ↔ (a = true → b = true) := by
  cases a <;> simp

/-- A string's length: a bound or none, which PostgreSQL calls unbounded and SQL Server `max`. -/
inductive Len where
  | bounded (n : Int)
  | unbounded
  deriving DecidableEq, Repr

/-- Whether a value of one length always fits in a column of the other. -/
def Len.fitsIn : Len → Len → Bool
  | _, .unbounded => true
  | .unbounded, .bounded _ => false
  | .bounded a, .bounded b => a ≤ b

theorem Len.fitsIn_trans {a b c : Len} (hab : a.fitsIn b = true) (hbc : b.fitsIn c = true) : a.fitsIn c = true := by
  cases a <;> cases b <;> cases c <;> simp_all only [fitsIn, decide_eq_true_eq, Bool.false_eq_true]
  omega

/-- A number that an `i128` holds. -/
def checkedI128 (x : Int) : Option Int := if -2 ^ 127 ≤ x ∧ x < 2 ^ 127 then some x else none

end Pbps
