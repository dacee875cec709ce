/-
Whether a SQL Server default is a constant (`pbps-mssql`'s `rows.rs`): comments become spaces, parentheses, signs and casts
are peeled, and what is left is a literal. Under a sign or a cast the value is followed exactly, in the engine's own ranges.
-/
import Pbps.Load.Scalar
import Pbps.Types.Mssql

namespace Pbps.Rows

open TypeRef (trim lowerAscii)
open Load (readsAsFloat)

/-! ## Comments -/

/-- The rest of a quoted region from after its opening character, up to a closing one that is not doubled, and what
follows it. -/
def takeRegion (close : Char) : List Char → Option (List Char × List Char)
  | [] => none
  | c :: cs =>
    if c = close then
      match cs with
      | d :: ds => if d = close then (takeRegion close ds).map fun r => (c :: d :: r.1, r.2) else some ([c], d :: ds)
      | [] => some ([c], [])
    else (takeRegion close cs).map fun r => (c :: r.1, r.2)

def skipLine : List Char → List Char
  | [] => []
  | c :: cs => if c = '\r' || c = '\n' then cs else skipLine cs

def skipBlock : Nat → List Char → Option (List Char)
  | 0, cs => some cs
  | _ + 1, [] => none
  | depth + 1, '/' :: '*' :: cs => skipBlock (depth + 2) cs
  | depth + 1, '*' :: '/' :: cs => skipBlock depth cs
  | depth + 1, _ :: cs => skipBlock (depth + 1) cs

/-- The text with each comment as a space; none where a region or a comment is not closed. -/
def constantTrivia : Nat → List Char → Option (List Char)
  | _, [] => some []
  | 0, _ => none
  | fuel + 1, c :: cs =>
    if c = '\'' || c = '[' then
      (takeRegion (if c = '[' then ']' else '\'') cs).bind fun r =>
        (constantTrivia fuel r.2).map fun out => c :: r.1 ++ out
    else if c = '-' && cs.head? = some '-' then (constantTrivia fuel (skipLine cs.tail)).map fun out => ' ' :: out
    else if c = '/' && cs.head? = some '*' then
      (skipBlock 1 cs.tail).bind fun rest => (constantTrivia fuel rest).map fun out => ' ' :: out
    else (constantTrivia fuel cs).map fun out => c :: out

/-! ## Reading a cast -/

variable (s : List Char)

def unparen : Option (List Char) :=
  match s with
  | '(' :: cs => if cs.getLast? = some ')' then some cs.dropLast else none
  | _ => none

/-- `CAST`'s operand and target: around the last word `as`. -/
def splitAs (body : List Char) : Option (List Char × List Char) :=
  ((List.range body.length).reverse.find? fun i =>
    toAsciiLowercase ((body.drop i).take 2) = "as".toList && (body.take i).getLast?.any isWhitespace &&
      (body.drop (i + 2)).head?.any isWhitespace).map fun i => (body.take i, trim (body.drop (i + 2)))

/-- `CONVERT`'s target and operand: around the first comma outside parentheses. -/
def splitComma : Nat → List Char → Option (List Char × List Char)
  | _, [] => none
  | parens, c :: cs =>
    if c = '(' then (splitComma (parens + 1) cs).map fun r => (c :: r.1, r.2)
    else if c = ')' then (splitComma (parens - 1) cs).map fun r => (c :: r.1, r.2)
    else if c = ',' && parens = 0 then some ([], cs)
    else (splitComma parens cs).map fun r => (c :: r.1, r.2)

def readTarget (ty : List Char) : Option ColumnType :=
  (ColumnType.parse (ty.filter fun c => c ≠ '[' && c ≠ ']')).bind Mssql.normalize

def numericCast : Option (List Char × ColumnType) :=
  let cast :=
    if toAsciiLowercase (s.take 4) = "cast".toList then (unparen (trim (s.drop 4))).bind splitAs else none
  let convert :=
    if toAsciiLowercase (s.take 7) = "convert".toList then
      ((unparen (trim (s.drop 7))).bind (splitComma 0)).map fun r => (r.2, trim r.1)
    else none
  (cast.or convert).bind fun r => (readTarget r.2).map fun ty => (r.1, ty)

/-! ## Values -/

/-- Why a run stops: the reader refuses the text, or an `i128` operation that nothing checks leaves its range. -/
inductive Stop where
  | refused
  | overflow
  deriving DecidableEq, Repr

abbrev Run (α : Type) := Except Stop α

@[irreducible] def fitsI128 (x : Int) : Bool := -2 ^ 127 ≤ x && x < 2 ^ 127

def checked (x : Int) : Run Int := if fitsI128 x then .ok x else .error .refused

def unchecked (x : Int) : Run Int := if fitsI128 x then .ok x else .error .overflow

def required {α : Type} : Option α → Run α
  | some a => .ok a
  | none => .error .refused

structure ExactNumeric where
  coefficient : Int
  scale : Nat
  bounds : Int × Int
  tiny : Bool
  money : Bool
  deriving DecidableEq, Repr

/-- `f64` and its operations, as far as the reader uses them. -/
structure Floats where
  Float : Type
  parse : List Char → Float
  ofExact : Int → Nat → Float
  toReal : Float → Float
  neg : Float → Float
  isFinite : Float → Bool

inductive Numeric (F : Floats) where
  | exact (n : ExactNumeric)
  | approximate (x : F.Float)
  | text (s : List Char)
  | null

/-- `str::trim_matches(' ')`. -/
def trimSpaces : List Char := ((s.dropWhile (· = ' ')).reverse.dropWhile (· = ' ')).reverse

/-- `str::split_once('.')`, the second part empty where there is no dot. -/
def splitDot : List Char × List Char := (s.takeWhile (· ≠ '.'), (s.dropWhile (· ≠ '.')).tail)

def stripSign : List Char :=
  match s with
  | '-' :: cs => cs
  | '+' :: cs => cs
  | cs => cs

def decimalNumber (text : List Char) : Run ExactNumeric := do
  let text := trimSpaces text
  let negative := text.head? = some '-'
  let text := (stripSign text).dropWhile (· = ' ')
  let integer := (splitDot text).1
  let fraction := (splitDot text).2
  if (integer.isEmpty && fraction.isEmpty) || !(integer ++ fraction).all isAsciiDigit || fraction.length > 38 then
    throw .refused
  let digits := (integer ++ fraction).dropWhile (· = '0')
  if digits.length > 38 then throw .refused
  let coefficient ← checked (digitsValue digits)
  let limit ← unchecked (10 ^ 38 - 1)
  let coefficient ← if negative then unchecked (-coefficient) else pure coefficient
  let low ← unchecked (-limit)
  pure { coefficient, scale := fraction.length, bounds := (low, limit), tiny := false, money := false }

/-- `i128::checked_pow` of ten. -/
def checkedPow (n : Nat) : Run Int := checked (10 ^ n)

def rescale (coefficient : Int) (from_ to_ : Nat) (round : Bool) : Run Int := do
  if to_ ≥ from_ then
    let factor ← checkedPow (to_ - from_)
    checked (coefficient * factor)
  else
    let divisor ← checkedPow (from_ - to_)
    let truncated ← unchecked (coefficient.tdiv divisor)
    let remainder ← unchecked (coefficient.tmod divisor).natAbs
    if round && remainder ≥ divisor / 2 then checked (truncated + coefficient.sign) else pure truncated

def isInteger (base : String) : Bool := ["tinyint", "smallint", "int", "bigint"].contains base

def isMoney (base : String) : Bool := ["money", "smallmoney"].contains base

def isApproximate (base : String) : Bool := ["real", "float"].contains base

/-- An argument as a `u32`. -/
def toU32 (n : Int) : Run Nat := if 0 ≤ n ∧ n < 2 ^ 32 then .ok n.toNat else .error .refused

def targetRange (ty : ColumnType) : Run (Nat × (Int × Int)) :=
  match ty.base, ty.args with
  | "tinyint", _ => pure (0, (0, 255))
  | "smallint", _ => pure (0, (-2 ^ 15, 2 ^ 15 - 1))
  | "int", _ => pure (0, (-2 ^ 31, 2 ^ 31 - 1))
  | "bigint", _ => pure (0, (-2 ^ 63, 2 ^ 63 - 1))
  | "money", _ => pure (4, (-2 ^ 63, 2 ^ 63 - 1))
  | "smallmoney", _ => pure (4, (-2 ^ 31, 2 ^ 31 - 1))
  | "decimal", [.int precision, .int scale] => do
    let power ← checkedPow (← toU32 precision)
    let limit ← unchecked (power - 1)
    let scale ← toU32 scale
    let low ← unchecked (-limit)
    pure (scale, (low, limit))
  | _, _ => throw .refused

variable {F : Floats}

def exactOperand (integerTarget : Bool) : Numeric F → Run ExactNumeric
  | .exact n => pure n
  | .text s => if integerTarget && s.contains '.' then throw .refused else decimalNumber s
  | .approximate _ | .null => throw .refused

def approximateOperand (F : Floats) : Numeric F → Run F.Float
  | .exact n => pure (F.ofExact n.coefficient n.scale)
  | .approximate x => pure x
  | .text s => if readsAsFloat (trimSpaces s) then pure (F.parse (trimSpaces s)) else throw .refused
  | .null => throw .refused

def numericConversion (value : Numeric F) (ty : ColumnType) : Run (Numeric F) := do
  if !(isInteger ty.base || ty.base = "decimal" || isMoney ty.base || isApproximate ty.base) then throw .refused
  if value matches .null then return .null
  if isApproximate ty.base then
    let x ← approximateOperand F value
    let x := if ty.base = "real" then F.toReal x else x
    if F.isFinite x then return .approximate x else throw .refused
  let n ← exactOperand (isInteger ty.base) value
  let target ← targetRange ty
  let coefficient ← rescale n.coefficient n.scale target.1 (!isInteger ty.base || n.money)
  if !(target.2.1 ≤ coefficient && coefficient ≤ target.2.2) then throw .refused
  return .exact { coefficient, scale := target.1, bounds := target.2, tiny := ty.base = "tinyint", money := isMoney ty.base }

/-! ## The reader -/

/-- One pair of enclosing parentheses after the other, whether or not they belong together. -/
def peel : Nat → List Char → List Char
  | 0, s => s
  | fuel + 1, s =>
    match unparen s with
    | some inner => peel fuel (trim inner)
    | none => s

def peeled (text : List Char) : List Char := peel text.length (trim text)

/-- A string literal without the `N` before its quote. -/
def unmarked : List Char :=
  match s with
  | c :: '\'' :: cs => if c = 'N' || c = 'n' then '\'' :: cs else s
  | _ => s

def stringBody : Option (List Char) :=
  match unmarked s with
  | '\'' :: cs => if cs.getLast? = some '\'' then some cs.dropLast else none
  | _ => none

def isExponent (c : Char) : Bool := c = 'e' || c = 'E'

def negate : Numeric F → Run (Numeric F)
  | .exact n => do
    -- Unary minus promotes tinyint to smallint; the other bounded types keep their own bounds.
    let n := if n.tiny then { n with bounds := (-2 ^ 15, 2 ^ 15 - 1), tiny := false } else n
    let coefficient ← checked (-n.coefficient)
    if !(n.bounds.1 ≤ coefficient && coefficient ≤ n.bounds.2) then throw .refused
    pure (.exact { n with coefficient })
  | .approximate x => pure (.approximate (F.neg x))
  | v => pure v

def signed (minus : Bool) (value : Numeric F) : Run (Numeric F) :=
  if value matches .text _ then .error .refused else if minus then negate value else .ok value

def numericLiteral (F : Floats) (s : List Char) : Run (Numeric F) :=
  if toAsciiLowercase s = "null".toList then .ok .null
  else
    match stringBody s with
    | some value => if value.contains '\'' then .error .refused else .ok (.text value)
    | none =>
      if s.any isExponent then
        if readsAsFloat s && F.isFinite (F.parse s) then .ok (.approximate (F.parse s)) else .error .refused
      else .exact <$> decimalNumber s

/-- The value of a numeric constant, to a depth of so many signs and casts. -/
def numericValue (F : Floats) : Nat → List Char → Run (Numeric F)
  | 0, _ => .error .refused
  | fuel + 1, text =>
    let s := peeled text
    if s.head? = some '-' || s.head? = some '+' then
      numericValue F fuel s.tail >>= signed (s.head? = some '-')
    else
      match numericCast s with
      | some (operand, ty) => numericValue F fuel operand >>= fun value => numericConversion value ty
      | none => numericLiteral F s

def digits (part : List Char) : Bool := !part.isEmpty && part.all isAsciiDigit

def isMantissa (mantissa : List Char) : Bool :=
  if mantissa.contains '.' then
    let int := (splitDot mantissa).1
    let frac := (splitDot mantissa).2
    (int.isEmpty || digits int) && (frac.isEmpty || digits frac) && !(int.isEmpty && frac.isEmpty)
  else digits mantissa

def isNumber (number : List Char) : Bool :=
  isMantissa (number.takeWhile fun c => !isExponent c) &&
    (!number.any isExponent || digits (stripSign (number.dropWhile fun c => !isExponent c).tail))

/-- `'It''s'` is one literal; `'a' + 'b'` is not: quotes but for pairs. -/
def quotesPaired : List Char → Bool
  | '\'' :: '\'' :: cs => quotesPaired cs
  | '\'' :: _ => false
  | _ :: cs => quotesPaired cs
  | [] => true

/-- Whether an operand is a literal, or one under signs and casts whose value can be followed. -/
def constantOperand (F : Floats) (text : List Char) : Run Bool :=
  let s := peeled text
  if s.isEmpty then .ok false
  else if s.head? = some '-' || s.head? = some '+' || (numericCast s).isSome then
    match numericValue F 65 s with
    | .ok _ => .ok true
    | .error .refused => .ok false
    | .error .overflow => .error .overflow
  else if toAsciiLowercase s = "null".toList then .ok true
  else
    match stringBody s with
    | some inner => .ok (quotesPaired inner)
    | none =>
      if s.take 2 = "0x".toList || s.take 2 = "0X".toList then .ok ((s.drop 2).all isAsciiHexdigit)
      else .ok (isNumber (stripSign s))

/-- Whether a default is a constant the engine can evaluate without running anything. -/
def isConstant (F : Floats) (default : List Char) : Run Bool :=
  match constantTrivia default.length default with
  | some clean => constantOperand F clean
  | none => .ok false

end Pbps.Rows
