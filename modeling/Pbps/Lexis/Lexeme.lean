/-
What a text is made of, read off an engine's lexis and not off the scanner: layout, characters of
code, quoted regions, comments. A region is read whole, so a doubled closer belongs to it; a text
whose regions are not all closed has no lexemes. `tokens` is what of it an engine reads.
-/
import Pbps.Lexis.Scan

namespace Pbps.Lexis

/-! ## Regions -/

/-- The rest of a quoted region after its opener, where the closer doubled stands for itself. -/
def readQuoted (close : Char) : List Char → Option (List Char × List Char)
  | [] => none
  | [c] => if c = close then some ([c], []) else none
  | c :: d :: cs =>
    if c = close then
      if d = close then (readQuoted close cs).map fun p => (c :: d :: p.1, p.2) else some ([c], d :: cs)
    else (readQuoted close (d :: cs)).map fun p => (c :: p.1, p.2)

/-- The rest of an escape string after its opener: a backslash takes the next character with it. -/
def readEscape : List Char → Option (List Char × List Char)
  | [] => none
  | [c] => if c = '\'' then some ([c], []) else none
  | c :: d :: cs =>
    if c = '\\' ∨ (c = '\'' ∧ d = '\'') then (readEscape cs).map fun p => (c :: d :: p.1, p.2)
    else if c = '\'' then some ([c], d :: cs)
    else (readEscape (d :: cs)).map fun p => (c :: p.1, p.2)

/-- The rest of a dollar-quoted string after its opening tag: up to the tag again. -/
def readDollar (tag : List Char) : List Char → Option (List Char × List Char)
  | [] => none
  | c :: cs =>
    if tag.isPrefixOf (c :: cs) then some (tag, (c :: cs).drop tag.length)
    else (readDollar tag cs).map fun p => (c :: p.1, p.2)

/-- The rest of a block comment after its opener, inside `depth` more of them. -/
def readBlock : Nat → List Char → Option (List Char × List Char)
  | _, [] => none
  | _, [_] => none
  | depth, c :: d :: cs =>
    if c = '*' ∧ d = '/' then
      match depth with
      | 0 => some (['*', '/'], cs)
      | depth + 1 => (readBlock depth cs).map fun p => (c :: d :: p.1, p.2)
    else if c = '/' ∧ d = '*' then (readBlock (depth + 1) cs).map fun p => (c :: d :: p.1, p.2)
    else (readBlock depth (d :: cs)).map fun p => (c :: p.1, p.2)

/-- A comment up to whitespace: every run of it as one space, and none at the end. -/
def foldSpace (pending : Bool) : List Char → List Char
  | [] => []
  | c :: cs =>
    if isWhitespace c then foldSpace true cs
    else if pending then ' ' :: c :: foldSpace false cs
    else c :: foldSpace false cs

/-! ## Lexemes -/

inductive Lexeme where
  | layout (breaks : Bool)
  | code (c : Char)
  /-- A plain string or a quoted identifier, with what closes it. -/
  | quoted (close : Char) (text : List Char)
  | escape (text : List Char)
  | dollar (text : List Char)
  | line (text : List Char)
  | block (text : List Char)
  deriving DecidableEq

/-- What of the text before decides how a text is read. -/
structure Context where
  /-- The last character continues an identifier. -/
  ident : Bool := false
  /-- The last character is an `E` that is a token of its own. -/
  e : Bool := false
  /-- Only layout and line comments stand between here and an escape string. -/
  armed : Bool := false
  /-- And a line break among them. -/
  broken : Bool := false

def next (lex : Lexicon) (ctx : Context) : List Char → Option (Lexeme × Context × List Char)
  | [] => none
  | ch :: rest =>
    if lex.isDefinitionWhitespace ch then
      let breaks := isBreak ch || (rest.takeWhile lex.isDefinitionWhitespace).any isBreak
      some (.layout breaks, { ctx with ident := false, e := false, broken := ctx.broken || breaks },
        rest.dropWhile lex.isDefinitionWhitespace)
    else
      match if lex.dollarQuotedStrings && ch == '$' && !ctx.ident then dollarTag rest else none with
      | some tag =>
        (readDollar tag (rest.drop (tag.length - 1))).map fun p => (.dollar (tag ++ p.1), { ident := true }, p.2)
      | none =>
        if ch = '-' ∧ rest.head? = some '-' then
          some (.line (foldSpace false (ch :: rest.takeWhile (!isBreak ·))), { armed := ctx.armed, broken := true },
            (rest.dropWhile (!isBreak ·)).drop 1)
        else if ch = '/' ∧ rest.head? = some '*' then
          (readBlock 0 (rest.drop 1)).map fun p => (.block (foldSpace false (ch :: '*' :: p.1)), {}, p.2)
        else if ch = '\'' then
          -- an escape string, or the continuation of one on another line
          if lex.escapeStrings && ((ctx.armed && ctx.broken) || ctx.e) then
            (readEscape rest).map fun p => (.escape (ch :: p.1), { armed := true }, p.2)
          else (readQuoted '\'' rest).map fun p => (.quoted '\'' (ch :: p.1), {}, p.2)
        else
          match lex.closer ch with
          | some close => (readQuoted close rest).map fun p => (.quoted close (ch :: p.1), {}, p.2)
          | none => some (.code ch, { ident := continuesIdent ch, e := (ch == 'e' || ch == 'E') && !ctx.ident }, rest)

/-- The lexemes of a text, each of which takes at least one character. -/
def lexAll (lex : Lexicon) : Nat → Context → List Char → Option (List Lexeme)
  | _, _, [] => some []
  | 0, _, _ :: _ => none
  | n + 1, ctx, c :: cs =>
    (next lex ctx (c :: cs)).bind fun p => (lexAll lex n p.2.1 p.2.2).map (p.1 :: ·)

/-- The lexemes of a text without the layout around it; none where a region is not closed. -/
def lexemes (lex : Lexicon) (text : List Char) : Option (List Lexeme) :=
  lexAll lex (trim lex text).length {} (trim lex text)

/-! ## What layout leaves -/

/-- A lexeme without what only layout decides. -/
inductive Piece where
  | gap
  | code (c : Char)
  | quoted (text : List Char)
  | line (text : List Char)
  | block (text : List Char)
  deriving DecidableEq

/-- The pieces of a text: layout is layout however much there is of it, and after a line comment
there is nothing it could separate. -/
def pieces : Bool → List Lexeme → List Piece
  | _, [] => []
  | afterLine, .layout _ :: ls => if afterLine then pieces false ls else .gap :: pieces false ls
  | _, .code c :: ls => .code c :: pieces false ls
  | _, .quoted _ text :: ls => .quoted text :: pieces false ls
  | _, .escape text :: ls => .quoted text :: pieces false ls
  | _, .dollar text :: ls => .quoted text :: pieces false ls
  | _, .line text :: ls => .line text :: pieces true ls
  | _, .block text :: ls => .block text :: pieces false ls

def render : List Piece → List Char
  | [] => []
  | .gap :: ps => ' ' :: render ps
  | .code c :: ps => c :: render ps
  | .quoted text :: ps => text ++ render ps
  | [.line text] => text
  | .line text :: ps => text ++ '\n' :: render ps
  | .block text :: ps => text ++ render ps

/-! ## Tokens -/

inductive Token where
  | word (text : List Char)
  | operator (text : List Char)
  | quoted (text : List Char)
  | comment (text : List Char)
  deriving DecidableEq

section Tokens

variable (lex : Lexicon) (isWord : Char → Bool)

/-- Unbroken code as words, with the numbers among them, and operators. -/
def codeTokens (code : List Char) : List Token :=
  (code.splitBy fun a b => isWord a == isWord b).map fun run =>
    if run.head?.any isWord then .word run else .operator run

/-- The prefix of a string literal that stands at the end of some code: one that the lexis has, where
nothing continues a word before it. -/
def literalPrefix (code : List Char) : Nat :=
  let fits (p : String) :=
    p.toList.isSuffixOf (code.map Char.toLower) &&
      !((code.take (code.length - p.toList.length)).getLast?.any isWord)
  ((lex.stringPrefixes.find? fits).map (·.toList.length)).getD 0

/-- The tokens of pieces, where `code` is the unbroken code before them. -/
def pieceTokens : List Char → List Piece → List Token
  | code, [] => codeTokens isWord code
  | code, .gap :: ps => codeTokens isWord code ++ pieceTokens [] ps
  | code, .code c :: ps => pieceTokens (code ++ [c]) ps
  | code, .quoted text :: ps =>
    let n := if text.head? = some '\'' then code.length - literalPrefix lex isWord code else code.length
    codeTokens isWord (code.take n) ++ .quoted (code.drop n ++ text) :: pieceTokens [] ps
  | code, .line text :: ps => codeTokens isWord code ++ .comment text :: pieceTokens [] ps
  | code, .block text :: ps => codeTokens isWord code ++ .comment text :: pieceTokens [] ps

/-- The tokens of a text and its comments up to whitespace; none where a region is not closed. -/
def tokens (text : List Char) : Option (List Token) :=
  (lexemes lex text).map fun ls => pieceTokens lex isWord [] (pieces false ls)

end Tokens

/-! ## Where the scanner reads a region short -/

def hasEscapedQuote : List Char → Bool
  | [] => false
  | [_] => false
  | c :: d :: cs => if c = '\\' then d == '\'' || hasEscapedQuote cs else hasEscapedQuote (d :: cs)

/-- Whether a quoted region is one the scanner reads to its end: a doubled closer that does not open
a region as well is not followed by more of it. -/
def closesOnce (close : Char) (text : List Char) : Bool :=
  text.head? == some close || !(text.tail.dropLast.contains close)

/-- Whether every region of a text is read to its end, in the text and in its normal form. The state
is, after an escape string, whether it is a continuation whose line break its normal form has lost,
and whether a line comment has kept the break since. -/
def steady : Option (Bool × Bool) → List Lexeme → Bool
  | _, [] => true
  | st, .layout _ :: ls => steady st ls
  | st, .line _ :: ls => steady (st.map fun p => (p.1, true)) ls
  | none, .escape _ :: ls => steady (some (false, false)) ls
  | some (lost, kept), .escape text :: ls =>
    (!(lost || !kept) || !hasEscapedQuote text.tail) && steady (some (lost || !kept, false)) ls
  | _, .quoted close text :: ls => closesOnce close text && steady none ls
  | _, .code _ :: ls => steady none ls
  | _, .dollar _ :: ls => steady none ls
  | _, .block _ :: ls => steady none ls

def closed (lex : Lexicon) (text : List Char) : Bool := (lexemes lex text).isSome

def readsWhole (lex : Lexicon) (text : List Char) : Bool := (lexemes lex text).any (steady none)

end Pbps.Lexis
