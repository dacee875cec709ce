/-
The PostgreSQL type catalogue (`pbps-pg`'s `types.rs`): which types there are, what arguments each takes, and the one
spelling `normalize` gives a type the engine reads back.
-/
import Pbps.Diff.Labels
import Pbps.Types.Parse

namespace Pbps.Pg

def MAX_IDENT_BYTES : Nat := 63

def MAX_STRING_LEN : Int := 10485760

def MAX_NUMERIC_PRECISION : Int := 1000

def MAX_NUMERIC_SCALE : Int := 1000

/-- `float(n)` counts bits of mantissa. -/
def MAX_FLOAT_BITS : Int := 53

def MAX_INTERVAL_PRECISION : Int := 6

/-- What kind of argument list a type takes. -/
inductive ArgShape where
  | none
  | length (fillsIn : Option Int)
  | numeric
  | precision (max : Int)
  deriving DecidableEq, Repr

/-- Every type name the dialect admits, as the engine spells it back, with the shape of its argument list. -/
def CATALOGUE : List (String × ArgShape) :=
  [("smallint", .none), ("integer", .none), ("bigint", .none), ("numeric", .numeric), ("real", .none),
    ("double precision", .none), ("boolean", .none), ("character", .length (some 1)), ("character varying", .length .none),
    ("text", .none), ("bytea", .none), ("date", .none), ("time without time zone", .precision 6),
    ("time with time zone", .precision 6), ("timestamp without time zone", .precision 6),
    ("timestamp with time zone", .precision 6), ("interval", .precision 6), ("uuid", .none), ("json", .none),
    ("jsonb", .none), ("inet", .none), ("cidr", .none), ("macaddr", .none), ("tsvector", .none), ("xml", .none)]

/-- Alias to canonical name: what `format_type` returns. -/
def ALIASES : List (String × String) :=
  [("int", "integer"), ("int4", "integer"), ("int2", "smallint"), ("int8", "bigint"), ("decimal", "numeric"),
    ("dec", "numeric"), ("float4", "real"), ("float8", "double precision"), ("bool", "boolean"), ("char", "character"),
    ("varchar", "character varying"), ("time", "time without time zone"), ("timetz", "time with time zone"),
    ("timestamp", "timestamp without time zone"), ("timestamptz", "timestamp with time zone")]

def shapeOf (base : String) : Option ArgShape := CATALOGUE.lookup base

def canonicalBase (base : String) : String := (ALIASES.lookup base).getD base

/-- Why a type is none of the dialect's. -/
inductive TypeError where
  | unknownType (ty : ColumnType)
  | badTypeArity (ty : ColumnType) (detail : String)
  | serial (ty : ColumnType) (readsBack : String)
  | overlongReference (ty : ColumnType) (which : String) (bytes : Nat)
  /-- A check that is written as one that cannot fail. -/
  | expected (ty : ColumnType)
  deriving DecidableEq, Repr

variable (ty : ColumnType)

/-- The `serial` family: what the engine reads each back as. -/
def refuseSerial : Option String :=
  match String.ofList (toAsciiLowercase ty.base.toList) with
  | "smallserial" | "serial2" => some "smallint"
  | "bigserial" | "serial8" => some "bigint"
  | "serial" | "serial4" => some "integer"
  | _ => none

/-- A reference with a part that the engine would truncate is refused. -/
def refuseOverlongReference (user : TypeRef) : Except TypeError Unit := do
  if user.schema.utf8ByteSize > MAX_IDENT_BYTES then throw (.overlongReference ty "schema" user.schema.utf8ByteSize)
  if user.name.utf8ByteSize > MAX_IDENT_BYTES then throw (.overlongReference ty "name" user.name.utf8ByteSize)

def temporalNames : List String :=
  ["time without time zone", "time with time zone", "timestamp without time zone", "timestamp with time zone"]

def checkNumeric (p s : Int) : Except TypeError Unit := do
  if ¬ (1 ≤ p ∧ p ≤ MAX_NUMERIC_PRECISION) then
    throw (.badTypeArity ty ("the precision of `numeric` must be between 1 and " ++ toString MAX_NUMERIC_PRECISION ++
      ", got " ++ toString p))
  if ¬ (-MAX_NUMERIC_SCALE ≤ s ∧ s ≤ MAX_NUMERIC_SCALE) then
    throw (.badTypeArity ty ("the scale of `numeric` must be between -" ++ toString MAX_NUMERIC_SCALE ++ " and " ++
      toString MAX_NUMERIC_SCALE ++ ", got " ++ toString s))

def normalizeArgs (base : String) : ArgShape → List TypeArg → Except TypeError (List TypeArg)
  | .none, [] => .ok []
  | .none, _ => .error (.badTypeArity ty ("`" ++ base ++ "` takes no arguments"))
  | .length fillsIn, [] => .ok (fillsIn.map TypeArg.int).toList
  | .length _, [.int n] =>
    if 1 ≤ n ∧ n ≤ MAX_STRING_LEN then .ok [.int n]
    else .error (.badTypeArity ty ("the length must be between 1 and " ++ toString MAX_STRING_LEN ++ ", got " ++ toString n))
  | .length _, _ => .error (.badTypeArity ty ("`" ++ base ++ "` takes one length, or none for the unbounded form"))
  | .numeric, [] => .ok []
  | .numeric, [.int p] => do
    checkNumeric ty p 0
    pure [.int p, .int 0]
  | .numeric, [.int p, .int s] => do
    checkNumeric ty p s
    pure [.int p, .int s]
  | .numeric, _ => .error (.badTypeArity ty "`numeric` takes a precision and an optional scale, or nothing at all")
  | .precision _, [] => .ok []
  | .precision max, [.int n] =>
    if 0 ≤ n ∧ n ≤ max then .ok [.int n]
    else .error (.badTypeArity ty ("the precision of `" ++ base ++ "` must be between 0 and " ++ toString max ++ ", got " ++
      toString n ++ ". The engine does not refuse a larger one -- it stores precision " ++ toString max ++
      " and says nothing, so a declaration that kept it would read back as something else"))
  | .precision _, _ => .error (.badTypeArity ty ("`" ++ base ++ "` takes one precision"))

/-- `float(n)` is stored as `real` or as `double precision`, never as written. -/
def resolveFloat : Except TypeError ColumnType :=
  match ty.args with
  | [] => .ok (ColumnType.new "double precision".toList [])
  | [.int n] =>
    if 1 ≤ n ∧ n ≤ 24 then .ok (ColumnType.new "real".toList [])
    else if 25 ≤ n ∧ n ≤ MAX_FLOAT_BITS then .ok (ColumnType.new "double precision".toList [])
    else .error (.badTypeArity ty ("the precision of `float` must be between 1 and " ++ toString MAX_FLOAT_BITS ++
      ", got " ++ toString n))
  | _ => .error (.badTypeArity ty "`float` takes one precision")

def checkPosition (words : List (List Char)) (temporal : Bool) : Except TypeError Unit :=
  match ty.argsAfterWord with
  | some position =>
    if !temporal || position ≠ 1 || !(words.head? = some "time".toList || words.head? = some "timestamp".toList) then
      .error (.badTypeArity ty "the modifier is not at a valid position in the type name")
    else .ok ()
  | none =>
    if temporal && !ty.args.isEmpty && words.length > 1 then
      .error (.badTypeArity ty "time and timestamp precision must follow the first word of the type name")
    else .ok ()

/-- `normalize`, of a type that is no reference and no array. -/
def normalizeScalar : Except TypeError ColumnType :=
  match refuseSerial ty with
  | some readsBack => .error (.serial ty readsBack)
  | none => do
    let words := splitWhitespace ty.base.toList
    let base := canonicalBase (String.ofList ([' '].intercalate words))
    let temporal := temporalNames.contains base
    checkPosition ty words temporal
    if base = "float" then resolveFloat ty
    else
      match shapeOf base with
      | none => .error (.unknownType ty)
      | some shape => do
        let args ← normalizeArgs ty base shape ty.args
        let normalized := ColumnType.new base.toList args
        if temporal && !args.isEmpty then
          match normalized.withArgsAfterWord 1 with
          | some positioned => pure positioned
          | none => throw (.expected normalized)
        else pure normalized

/-- Expands aliases, fills in the arguments PostgreSQL fills in itself, and resolves the spellings the engine
resolves. -/
def normalize : Except TypeError ColumnType :=
  match ty.user with
  | some user => do
    refuseOverlongReference ty user
    pure ty
  | none => if ty.array then (normalizeScalar ty.element).map fun n => { n with array := true } else normalizeScalar ty

end Pbps.Pg
