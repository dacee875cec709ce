/-
The SQL Server type catalogue (`pbps-mssql`'s `types.rs`): which types there are, what arguments each takes, and
the one spelling `normalize` gives a type the engine stores.
-/
import Pbps.Types.Parse

namespace Pbps.Mssql

/-- What kind of argument list a type takes. -/
inductive ArgShape where
  | none
  | length (maxLen : Int) (allowsMax : Bool)
  | precision (max default : Int)
  | precisionScale
  | floatPrecision
  deriving DecidableEq, Repr

/-- Every type name SQL Server accepts in a column definition, with the shape of its argument list. -/
def CATALOGUE : List (String × ArgShape) :=
  [("bit", .none), ("tinyint", .none), ("smallint", .none), ("int", .none), ("bigint", .none), ("decimal", .precisionScale),
    ("smallmoney", .none), ("money", .none), ("real", .none), ("float", .floatPrecision), ("date", .none),
    ("time", .precision 7 7), ("smalldatetime", .none), ("datetime", .none), ("datetime2", .precision 7 7),
    ("datetimeoffset", .precision 7 7), ("char", .length 8000 false), ("varchar", .length 8000 true),
    ("nchar", .length 4000 false), ("nvarchar", .length 4000 true), ("binary", .length 8000 false),
    ("varbinary", .length 8000 true), ("uniqueidentifier", .none), ("xml", .none), ("sql_variant", .none),
    ("hierarchyid", .none), ("geography", .none), ("geometry", .none), ("timestamp", .none), ("sysname", .none),
    ("text", .none), ("ntext", .none), ("image", .none)]

/-- Alias to canonical name: what `sys.types` reports. -/
def ALIASES : List (String × String) :=
  [("integer", "int"), ("dec", "decimal"), ("numeric", "decimal"), ("character", "char"), ("char varying", "varchar"),
    ("character varying", "varchar"), ("national char", "nchar"), ("national character", "nchar"),
    ("national char varying", "nvarchar"), ("national character varying", "nvarchar"), ("national text", "ntext"),
    ("binary varying", "varbinary"), ("double precision", "float"), ("rowversion", "timestamp")]

def shapeOf (base : String) : Option ArgShape := CATALOGUE.lookup base

def canonicalBase (base : String) : String := (ALIASES.lookup base).getD base

def checkDecimal (p s : Int) : Bool := 1 ≤ p && p ≤ 38 && 0 ≤ s && s ≤ p

def normalizeArgs (base : String) : ArgShape → List TypeArg → Option (String × List TypeArg)
  | .none, [] => some (base, [])
  | .length .., [] => some (base, [.int 1])
  | .length _ true, [.max] => some (base, [.max])
  | .length maxLen _, [.int n] => if 1 ≤ n ∧ n ≤ maxLen then some (base, [.int n]) else none
  | .precision _ default, [] => some (base, [.int default])
  | .precision max _, [.int n] => if 0 ≤ n ∧ n ≤ max then some (base, [.int n]) else none
  | .precisionScale, [] => some (base, [.int 18, .int 0])
  | .precisionScale, [.int p] => if checkDecimal p 0 then some (base, [.int p, .int 0]) else none
  | .precisionScale, [.int p, .int s] => if checkDecimal p s then some (base, [.int p, .int s]) else none
  | .floatPrecision, [] => some ("float", [.int 53])
  -- `float(n)` is stored as `real` or as `float(53)`, never as written.
  | .floatPrecision, [.int n] =>
    if 1 ≤ n ∧ n ≤ 24 then some ("real", [])
    else if 25 ≤ n ∧ n ≤ 53 then some (base, [.int 53])
    else none
  | _, _ => none

/-- Expands aliases, fills in the arguments SQL Server fills in itself, and collapses the spellings the engine
collapses. -/
def normalize (ty : ColumnType) : Option ColumnType :=
  if ty.user.isSome || ty.array || ty.argsAfterWord.isSome then none
  else
    let base := canonicalBase (String.ofList ([' '].intercalate (splitWhitespace ty.base.toList)))
    (shapeOf base).bind fun shape =>
      (normalizeArgs base shape ty.args).map fun e => ColumnType.new e.1.toList e.2

end Pbps.Mssql
