/-
The scalars a formatted file spells (`fmt.rs`): double-quoted with YAML's escapes, or bare where the
loader reads the bare text back. The loader's YAML reader is a parameter with the laws the spelling relies on.
-/
import Pbps.Tree.Names

namespace Pbps.Load

open TypeRef (trim lowerAscii)

/-! ## Writing -/

/-- `char::is_control`: Unicode's general category `Cc`. -/
def isControl (c : Char) : Bool := c.toNat < 0x20 || (0x7F ≤ c.toNat && c.toNat ≤ 0x9F)

def needsEscape (c : Char) : Bool :=
  isControl c || ['\\', '"', '\u2028', '\u2029', '\ufeff', '\ufffe', '\uffff'].contains c

def hexDigit (n : Nat) : Char := Char.ofNat (if n < 10 then 0x30 + n else 0x37 + n)

def hexValue (c : Char) : Option Nat :=
  if '0' ≤ c && c ≤ '9' then some (c.toNat - 0x30)
  else if 'A' ≤ c && c ≤ 'F' then some (c.toNat - 0x37)
  else if 'a' ≤ c && c ≤ 'f' then some (c.toNat - 0x57)
  else none

/-- `{:02X}`, of a number below 256. -/
def hexByte (n : Nat) : List Char := [hexDigit (n / 16), hexDigit (n % 16)]

def escapes : List (Char × List Char) :=
  [('\\', "\\\\".toList), ('"', "\\\"".toList), ('\x00', "\\0".toList), ('\x07', "\\a".toList), ('\x08', "\\b".toList),
    ('\n', "\\n".toList), ('\r', "\\r".toList), ('\t', "\\t".toList), ('\x0b', "\\v".toList), ('\x0c', "\\f".toList),
    ('\x1b', "\\e".toList), ('\u0085', "\\N".toList), ('\u2028', "\\L".toList), ('\u2029', "\\P".toList),
    ('\ufeff', "\\uFEFF".toList), ('\ufffe', "\\uFFFE".toList), ('\uffff', "\\uFFFF".toList)]

def spelled (c : Char) : List Char :=
  match escapes.lookup c with
  | some text => text
  | none => if isControl c then '\\' :: 'x' :: hexByte c.toNat else [c]

/-- A scalar on one physical line, which works in block values, flow mappings and keys. -/
def quoted (s : List Char) : List Char := '"' :: s.flatMap spelled ++ ['"']

/-! ## Bare scalars -/

def BOOLISH : List String := ["y", "n", "yes", "no", "true", "false", "on", "off"]

def NULLISH : List String := ["null", "~"]

/-- Whether nothing is left of a number but an exponent, or nothing at all. -/
def readsExponent : List Char → Bool
  | [] => true
  | e :: cs =>
    let digits := if cs.head?.any ['+', '-'].contains then cs.tail else cs
    (e = 'e' || e = 'E') && !digits.isEmpty && digits.all isAsciiDigit

/-- `str::parse::<f64>` succeeds, as it does wherever `str::parse::<i64>` does. -/
def readsAsFloat (s : List Char) : Bool :=
  let s := if s.head?.any ['+', '-'].contains then s.tail else s
  let whole := s.takeWhile isAsciiDigit
  ["inf", "infinity", "nan"].contains (String.ofList (s.map lowerAscii)) ||
    match s.dropWhile isAsciiDigit with
    | '.' :: rest =>
      (!whole.isEmpty || !(rest.takeWhile isAsciiDigit).isEmpty) && readsExponent (rest.dropWhile isAsciiDigit)
    | rest => !whole.isEmpty && readsExponent rest

/-- What the loader's YAML reader makes of a scalar. -/
inductive Plain where
  | text (s : List Char)
  | int (i : Int)
  | other
  deriving DecidableEq, Repr

/-- How a text is written as an item of a flow sequence: quoted, or as a bare word where that is read as the text. -/
inductive Item (flow : List Char → Option Plain) : List Char → List Char → Prop
  | quoted (s : List Char) : Item flow (quoted s) s
  | word {s : List Char} (hread : flow s = some (.text s)) (hne : s ≠ []) (hword : ∀ c ∈ s, isAsciiAlphanumeric c = true) :
      Item flow s s

/-- The loader's YAML reader, of the scalars and the flow sequences of them that a declaration holds. -/
structure Yaml where
  /-- A bare scalar, as the one item of a flow sequence. -/
  flow : List Char → Option Plain
  /-- A bare scalar, as the value of a block mapping, where a text is asked for. -/
  block : List Char → Option (List Char)
  /-- A double-quoted scalar after its opening quote, and what follows its closing one. -/
  inQuotes : List Char → Option (List Char × List Char)
  /-- A flow sequence of scalars after its opening bracket, and what follows its closing one. -/
  items : List Char → Option (List Plain × List Char)
  /-- A flow sequence is the stricter of the two. -/
  block_of_flow : ∀ s, flow s = some (.text s) → block s = some s
  /-- A text is read back from its escapes. -/
  inQuotes_spelled : ∀ s rest, inQuotes (s.flatMap spelled ++ '"' :: rest) = some (s, rest)
  /-- Texts written as items are read back. -/
  items_written : ∀ {words texts} (_ : List.Forall₂ (Item flow) words texts) (rest : List Char),
    items ([',', ' '].intercalate words ++ ']' :: rest) = some (texts.map .text, rest)

namespace Yaml

variable (yaml : Yaml)

def readsBackBare (s : List Char) : Bool := yaml.flow s = some (.text s)

def needsQuotes (s : List Char) : Bool :=
  let lower := String.ofList (s.map lowerAscii)
  s.isEmpty || s ≠ trim s || s.any needsEscape || BOOLISH.contains lower || NULLISH.contains lower || readsAsFloat s ||
    s.any [':', '#', '\n', '\r', '\t', '"', '\'', ',', '[', ']', '\x7b', '\x7d'].contains ||
    s.head?.any ['-', '?', '&', '*', '!', '|', '>', '%', '@', '\x60'].contains || !yaml.readsBackBare s

def scalar (s : List Char) : List Char := if yaml.needsQuotes s then quoted s else s

def readScalar : List Char → Option (List Char)
  | '"' :: cs =>
    match yaml.inQuotes cs with
    | some (s, []) => some s
    | _ => none
  | s => yaml.block s

theorem readScalar_scalar (s : List Char) : yaml.readScalar (yaml.scalar s) = some s := by
  unfold scalar
  split_ifs with h
  · show (match yaml.inQuotes (s.flatMap spelled ++ ['"']) with
      | some (s, []) => some s
      | _ => none) = some s
    rw [yaml.inQuotes_spelled]
  · simp only [needsQuotes, Bool.or_eq_true, not_or, Bool.not_eq_true] at h
    obtain ⟨⟨⟨⟨⟨⟨⟨⟨-, -⟩, hescape⟩, -⟩, -⟩, -⟩, -⟩, -⟩, hbare⟩ := h
    have hblock : yaml.block s = some s := by
      apply yaml.block_of_flow
      simpa [readsBackBare] using hbare
    cases s with
    | nil => exact hblock
    | cons c s =>
      have hc : c ≠ '"' := by
        rintro rfl
        simp [needsEscape] at hescape
      rw [readScalar.eq_def]
      split
      next h => exact absurd (List.cons.inj h).1 hc
      next => exact hblock

end Yaml

end Pbps.Load
