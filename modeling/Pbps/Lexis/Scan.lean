/-
The comparison form of a module definition: `Lexicon::normalize_definition` of `pbps-dialect`. One
pass over the characters with a mode; what was read stands behind as a reversed list, and a step may
ask for characters after its own to be skipped, which is the source's `consumed_to`.
-/
import Pbps.Model.Text

namespace Pbps.Lexis

/-! ## Lexica -/

/-- What a dialect's scanner has to know of its engine's lexis. -/
structure Lexicon where
  whitespaceIsAscii : Bool
  /-- What opens a quoted identifier, and what closes it. -/
  quotedIdentifiers : List (Char × Char)
  /-- Whether `E'…'` is an escape string. -/
  escapeStrings : Bool
  /-- Whether `$tag$…$tag$` is a string literal. -/
  dollarQuotedStrings : Bool
  /-- The prefixes a string literal may carry, longest first. -/
  stringPrefixes : List String

namespace Lexicon

/-- The SQL Server lexis: `pbps-mssql`'s `lexicon`. -/
def mssql : Lexicon where
  whitespaceIsAscii := false
  quotedIdentifiers := [('[', ']'), ('"', '"')]
  escapeStrings := false
  dollarQuotedStrings := false
  stringPrefixes := ["n"]

/-- The PostgreSQL lexis: `pbps-pg`'s `LEXICON`. -/
def pg : Lexicon where
  whitespaceIsAscii := true
  quotedIdentifiers := [('"', '"')]
  escapeStrings := true
  dollarQuotedStrings := true
  stringPrefixes := ["u&", "e", "n", "b", "x"]

def isDefinitionWhitespace (lex : Lexicon) (ch : Char) : Bool :=
  isWhitespace ch && (!lex.whitespaceIsAscii || isAscii ch)

def closer (lex : Lexicon) (ch : Char) : Option Char := (lex.quotedIdentifiers.find? fun q => q.1 = ch).map Prod.snd

end Lexicon

/-! ## Looking around -/

/-- A character of an unquoted PostgreSQL identifier that has started. -/
def continuesIdent (c : Char) : Bool := isAsciiAlphanumeric c || c == '_' || c == '$' || !isAscii c

def continuesIdentifier (before : List Char) : Bool := before.head?.any continuesIdent

/-- Whether a quote here is the one in an `E'…'`: the `E` has to be a token of its own. -/
def opensEscapeString : List Char → Bool
  | [] => false
  | c :: before => (c == 'e' || c == 'E') && !continuesIdentifier before

/-- The rest of a dollar tag after its first `$`. -/
def tagBody (first : Bool) : List Char → Option (List Char)
  | [] => none
  | c :: cs =>
    if c = '$' then some ['$']
    else if !continuesIdent c || (first && c.isDigit) then none
    else (tagBody false cs).map (c :: ·)

/-- The `$tag$` that a text opens with after a `$`, if it opens with one. -/
def dollarTag (rest : List Char) : Option (List Char) := (tagBody true rest).map ('$' :: ·)

def isBreak (ch : Char) : Bool := ch == '\r' || ch == '\n'

/-! ## The scanner -/

/-- What the scanner is in the middle of. -/
inductive At where
  | code
  | quoted (close : Char)
  | escape (afterBackslash : Bool)
  /-- The opening tag, and how many characters were written since it. -/
  | dollar (tag : List Char) (pushed : Nat)
  | line
  | block (depth seen : Nat)
  deriving DecidableEq

structure Scan where
  /-- What was written, last character first. -/
  out : List Char := []
  inSpace : Bool := false
  at_ : At := .code
  escapeContinues : Bool := false
  gapBreaks : Bool := false

def endsWith (out text : List Char) : Bool := text.reverse.isPrefixOf out

/-- The space that stands for the layout before a character of code. -/
def openGap (s : Scan) : List Char :=
  if s.inSpace && !s.out.isEmpty && s.out.head? != some '\n' then ' ' :: s.out else s.out

/-- The space that stands for the layout before a character of a comment. -/
def openCommentGap (s : Scan) : List Char := if s.inSpace then ' ' :: s.out else s.out

variable (lex : Lexicon)

def codeMode (before : List Char) (ch : Char) (rest : List Char) (continues : Bool) : At :=
  if ch = '-' ∧ rest.head? = some '-' then .line
  else if ch = '/' ∧ rest.head? = some '*' then .block 1 0
  else if ch = '\'' then
    if lex.escapeStrings && (continues || opensEscapeString before) then .escape false else .quoted '\''
  else
    match lex.closer ch with
    | some close => .quoted close
    | none => .code

def stepCode (before : List Char) (ch : Char) (rest : List Char) (s : Scan) : Scan × Nat :=
  let out := openGap s
  let armed := s.escapeContinues
  let tag := if lex.dollarQuotedStrings && ch == '$' && !continuesIdentifier before then dollarTag rest else none
  match tag with
  | some tag =>
    ({ s with out := tag.reverse ++ out, inSpace := false, escapeContinues := false, at_ := .dollar tag 0 },
      tag.length - 1)
  | none =>
    let mode := codeMode lex before ch rest (armed && s.gapBreaks)
    -- a line comment ends at a line break, so it is one
    ({ out := ch :: out, inSpace := false, at_ := mode, escapeContinues := mode = .line && armed,
       gapBreaks := mode = .line || s.gapBreaks }, 0)

def blockMode (out : List Char) (ch : Char) (rest : List Char) (depth seen : Nat) : At :=
  if ch = '/' ∧ 2 ≤ seen ∧ endsWith out ['*', '/'] then
    if depth = 1 then .code else .block (depth - 1) 2
  else if ch = '/' ∧ rest.head? = some '*' then .block (depth + 1) 0
  else .block depth (seen + 1)

/-- One turn of the loop, with how many characters to skip after it. -/
def step (before : List Char) (ch : Char) (rest : List Char) (s : Scan) : Scan × Nat :=
  match s.at_ with
  | .quoted close => ({ s with out := ch :: s.out, at_ := if ch = close then .code else .quoted close }, 0)
  | .escape afterBackslash =>
    let s := { s with out := ch :: s.out }
    if afterBackslash then ({ s with at_ := .escape false }, 0)
    else if ch = '\\' then ({ s with at_ := .escape true }, 0)
    else if ch = '\'' then
      if rest.head? = some '\'' then ({ s with out := '\'' :: s.out, at_ := .escape false }, 1)
      else ({ s with at_ := .code, escapeContinues := true, gapBreaks := false }, 0)
    else ({ s with at_ := .escape false }, 0)
  | .dollar tag pushed =>
    let out := ch :: s.out
    ({ s with
       out
       at_ := if tag.length ≤ pushed + 1 && endsWith out tag then .code else .dollar tag (pushed + 1) }, 0)
  | .line =>
    if isBreak ch then
      ({ s with out := '\n' :: s.out.dropWhile (· == ' '), at_ := .code, inSpace := false }, 0)
    else if isWhitespace ch then ({ s with inSpace := true }, 0)
    else ({ s with out := ch :: openCommentGap s, inSpace := false }, 0)
  | .block depth seen =>
    if isWhitespace ch then ({ s with inSpace := true }, 0)
    else
      let out := ch :: openCommentGap s
      ({ s with out, inSpace := false, at_ := blockMode out ch rest depth seen }, 0)
  | .code =>
    if lex.isDefinitionWhitespace ch then ({ s with inSpace := true, gapBreaks := s.gapBreaks || isBreak ch }, 0)
    else stepCode lex before ch rest s

def run (lex : Lexicon) : List Char → List Char → Nat → Scan → Scan
  | _, [], _, s => s
  | before, ch :: rest, skip + 1, s => run lex (ch :: before) rest skip s
  | before, ch :: rest, 0, s =>
    let (s, skip) := step lex before ch rest s
    run lex (ch :: before) rest skip s

/-- `str::trim_matches` of the engine's whitespace. -/
def trim (text : List Char) : List Char :=
  (text.dropWhile lex.isDefinitionWhitespace).reverse.dropWhile lex.isDefinitionWhitespace |>.reverse

/-- `normalize_definition`, of a text as its characters. -/
def normalize (text : List Char) : List Char := (run lex [] (trim lex text) 0 {}).out.reverse

def Lexicon.normalizeDefinition (definition : String) : String :=
  String.ofList (normalize lex definition.toList)

end Pbps.Lexis
