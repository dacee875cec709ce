/-
A definition with what is not code blanked out (`lexical_code` of `module.rs`). The scanner looks one character ahead and one
back; what it blanks is told by a grammar of regions that divides a text in one way.
-/
import Pbps.Model.Text
import Mathlib.Data.List.Forall2

namespace Pbps.Modules

open List

/-! ## The scanner -/

/-- The characters SQL Server's lexer takes as the end of a `--` comment. -/
def isLineEnding (ch : Char) : Bool := ch = '\n' || ch = '\r'

def blank (ch : Char) : List Char := if isLineEnding ch then [ch] else List.replicate ch.utf8Size ' '

/-- Where the scanner is. -/
inductive At where
  | code
  | literal
  /-- Inside a name, by what closes it; the flag marks the second closer of a doubled one. -/
  | ident (closing : Char) (escapedCloser : Bool)
  | line
  /-- `seen` keeps an opener's `*` from closing the comment too. -/
  | block (depth seen : Nat)
  deriving DecidableEq, Repr

/-- Where the scanner is after a character. A byte is one of the marks only where a character is, so the bytes the source
looks at are the characters before and after. -/
def At.next (at_ : At) (prev : Option Char) (ch : Char) (next : Option Char) : At :=
  match at_ with
  | .literal => if ch = '\'' then .code else .literal
  | .ident closing escapedCloser =>
    if escapedCloser then .ident closing false
    else if ch = closing then if next = some closing then .ident closing true else .code
    else .ident closing false
  | .line => if isLineEnding ch then .code else .line
  | .block depth seen =>
    if ch = '/' ∧ seen ≥ 2 ∧ prev = some '*' then if depth = 1 then .code else .block (depth - 1) 2
    else if ch = '/' ∧ next = some '*' then .block (depth + 1) 0
    else .block depth (seen + 1)
  | .code =>
    if ch = '-' ∧ next = some '-' then .line
    else if ch = '/' ∧ next = some '*' then .block 1 0
    else if ch = '\'' then .literal
    else if ch = '[' ∨ ch = '"' then .ident (if ch = '[' then ']' else ch) false
    else .code

def At.keeps (keepQuotedIdentifiers : Bool) (at_ : At) (ch : Char) (next : Option Char) : Bool :=
  match at_ with
  | .literal | .line | .block _ _ => false
  | .ident _ _ => keepQuotedIdentifiers
  | .code =>
    if ch = '-' ∧ next = some '-' then false
    else if ch = '/' ∧ next = some '*' then false
    else if ch = '\'' then false
    else if ch = '[' ∨ ch = '"' then keepQuotedIdentifiers
    else true

def lexicalFrom (keepQuotedIdentifiers : Bool) : At → Option Char → List Char → List Char
  | _, _, [] => []
  | at_, prev, ch :: rest =>
    (if at_.keeps keepQuotedIdentifiers ch rest.head? then [ch] else blank ch) ++
      lexicalFrom keepQuotedIdentifiers (at_.next prev ch rest.head?) (some ch) rest

def lexicalCode (definition : List Char) (keepQuotedIdentifiers : Bool) : List Char :=
  lexicalFrom keepQuotedIdentifiers .code none definition

def codeOnly (definition : List Char) : List Char := lexicalCode definition true

def codeWithoutQuotedIdentifiers (definition : List Char) : List Char := lexicalCode definition false

/-! ## The grammar -/

inductive Kind where
  | code
  | literal
  | identifier
  | line
  | block
  deriving DecidableEq, Repr

/-- What follows the opener of a quoted region, in which the closer doubled stands for itself, and what is left. A region
that is not closed goes to the end of the text. -/
inductive Quoted (close : Char) : List Char → List Char → Prop where
  | closed {rest : List Char} (h : rest.head? ≠ some close) : Quoted close [close] rest
  | doubled {text rest : List Char} (h : Quoted close text rest) : Quoted close (close :: close :: text) rest
  | char {c : Char} {text rest : List Char} (hc : c ≠ close) (h : Quoted close text rest) : Quoted close (c :: text) rest
  | unterminated : Quoted close [] []

/-- The characters of a line comment, up to a line ending or the end of the text. -/
inductive Line : List Char → List Char → Prop where
  | ended {rest : List Char} (h : ∀ c ∈ rest.head?, isLineEnding c = true) : Line [] rest
  | char {c : Char} {text rest : List Char} (hc : isLineEnding c = false) (h : Line text rest) : Line (c :: text) rest

/-- What follows the opener of a block comment that stands in `depth` more, up to the end of the outermost. -/
inductive Block : Nat → List Char → List Char → Prop where
  | closed {rest : List Char} : Block 0 ['*', '/'] rest
  | inner {depth : Nat} {text rest : List Char} (h : Block depth text rest) : Block (depth + 1) ('*' :: '/' :: text) rest
  | opener {depth : Nat} {text rest : List Char} (h : Block (depth + 1) text rest) : Block depth ('/' :: '*' :: text) rest
  | char {depth : Nat} {c : Char} {text rest : List Char} (hclose : ¬ (c = '*' ∧ (text ++ rest).head? = some '/'))
    (hopen : ¬ (c = '/' ∧ (text ++ rest).head? = some '*')) (h : Block depth text rest) : Block depth (c :: text) rest
  | unterminated {depth : Nat} : Block depth [] []

/-- The first region of a text, and what is left. -/
inductive Region : Kind → List Char → List Char → Prop where
  | literal {text rest : List Char} (h : Quoted '\'' text rest) : Region .literal ('\'' :: text) rest
  | bracketed {text rest : List Char} (h : Quoted ']' text rest) : Region .identifier ('[' :: text) rest
  | quoted {text rest : List Char} (h : Quoted '"' text rest) : Region .identifier ('"' :: text) rest
  | line {text rest : List Char} (h : Line text rest) : Region .line ('-' :: '-' :: text) rest
  | block {text rest : List Char} (h : Block 0 text rest) : Region .block ('/' :: '*' :: text) rest
  | code {c : Char} {rest : List Char} (hmark : c ≠ '\'' ∧ c ≠ '[' ∧ c ≠ '"')
    (hline : ¬ (c = '-' ∧ rest.head? = some '-')) (hblock : ¬ (c = '/' ∧ rest.head? = some '*')) : Region .code [c] rest

/-- The regions a text is divided into. -/
inductive Regions : List (Kind × List Char) → List Char → Prop where
  | nil : Regions [] []
  | cons {kind : Kind} {text rest : List Char} {regions : List (Kind × List Char)} (h : Region kind text rest)
    (hrest : Regions regions rest) : Regions ((kind, text) :: regions) (text ++ rest)

/-! ## A text is divided in one way -/

theorem exists_quoted (close : Char) : ∀ cs : List Char, ∃ text rest, cs = text ++ rest ∧ Quoted close text rest
  | [] => ⟨[], [], rfl, .unterminated⟩
  | [c] => by
    by_cases hc : c = close
    · subst hc
      exact ⟨[c], [], rfl, .closed (by simp)⟩
    · exact ⟨[c], [], rfl, .char hc .unterminated⟩
  | c :: d :: cs => by
    by_cases hc : c = close
    · subst hc
      by_cases hd : d = c
      · subst hd
        obtain ⟨text, rest, rfl, h⟩ := exists_quoted d cs
        exact ⟨d :: d :: text, rest, rfl, .doubled h⟩
      · exact ⟨[c], d :: cs, rfl, .closed (by simpa using hd)⟩
    · obtain ⟨text, rest, heq, h⟩ := exists_quoted close (d :: cs)
      exact ⟨c :: text, rest, by rw [heq]; rfl, .char hc h⟩

theorem exists_line : ∀ cs : List Char, ∃ text rest, cs = text ++ rest ∧ Line text rest
  | [] => ⟨[], [], rfl, .ended (by simp)⟩
  | c :: cs => by
    by_cases hc : isLineEnding c = true
    · exact ⟨[], c :: cs, rfl, .ended (by simpa using hc)⟩
    · obtain ⟨text, rest, heq, h⟩ := exists_line cs
      exact ⟨c :: text, rest, by rw [heq]; rfl, .char (by simpa using hc) h⟩

theorem exists_block : ∀ (cs : List Char) (depth : Nat), ∃ text rest, cs = text ++ rest ∧ Block depth text rest
  | [], depth => ⟨[], [], rfl, .unterminated⟩
  | [c], depth => ⟨[c], [], rfl, .char (by simp) (by simp) .unterminated⟩
  | c :: d :: cs, depth => by
    by_cases hclose : c = '*' ∧ d = '/'
    · obtain ⟨rfl, rfl⟩ := hclose
      cases depth with
      | zero => exact ⟨['*', '/'], cs, rfl, .closed⟩
      | succ depth =>
        obtain ⟨text, rest, rfl, h⟩ := exists_block cs depth
        exact ⟨'*' :: '/' :: text, rest, rfl, .inner h⟩
    · by_cases hopen : c = '/' ∧ d = '*'
      · obtain ⟨rfl, rfl⟩ := hopen
        obtain ⟨text, rest, rfl, h⟩ := exists_block cs (depth + 1)
        exact ⟨'/' :: '*' :: text, rest, rfl, .opener h⟩
      · obtain ⟨text, rest, heq, h⟩ := exists_block (d :: cs) depth
        refine ⟨c :: text, rest, by rw [heq]; rfl, .char ?_ ?_ h⟩
        · rw [← heq, head?_cons, Option.some.injEq]
          exact hclose
        · rw [← heq, head?_cons, Option.some.injEq]
          exact hopen

variable {text rest : List Char} {b : UInt8}

theorem Quoted.unique {close : Char} (h : Quoted close text rest) :
    ∀ {text' rest' : List Char}, Quoted close text' rest' → text ++ rest = text' ++ rest' → text = text' ∧ rest = rest' := by
  induction h with
  | @closed rest h =>
    intro text' rest' h' heq
    cases h' with
    | closed h' => exact ⟨rfl, append_cancel_left heq⟩
    | _ => grind
  | @doubled text rest h ih =>
    intro text' rest' h' heq
    cases h' with
    | doubled h' =>
      obtain ⟨rfl, rfl⟩ := ih h' (cons.inj (cons.inj heq).2).2
      exact ⟨rfl, rfl⟩
    | _ => grind
  | @char c text rest hc h ih =>
    intro text' rest' h' heq
    cases h' with
    | char hc' h' =>
      obtain ⟨rfl, htail⟩ := cons.inj heq
      obtain ⟨rfl, rfl⟩ := ih h' htail
      exact ⟨rfl, rfl⟩
    | _ => grind
  | unterminated =>
    intro text' rest' h' heq
    cases h' with
    | unterminated => exact ⟨rfl, rfl⟩
    | _ => cases heq

theorem Line.unique (h : Line text rest) :
    ∀ {text' rest' : List Char}, Line text' rest' → text ++ rest = text' ++ rest' → text = text' ∧ rest = rest' := by
  induction h with
  | ended h =>
    intro text' rest' h' heq
    cases h' with
    | ended _ => exact ⟨rfl, heq⟩
    | char hc h' => grind
  | @char c text rest hc h ih =>
    intro text' rest' h' heq
    cases h' with
    | ended h' => grind
    | char _ h' =>
      obtain ⟨rfl, htail⟩ := cons.inj heq
      obtain ⟨rfl, rfl⟩ := ih h' htail
      exact ⟨rfl, rfl⟩

theorem Block.unique {depth : Nat} (h : Block depth text rest) :
    ∀ {text' rest' : List Char}, Block depth text' rest' → text ++ rest = text' ++ rest' → text = text' ∧ rest = rest' := by
  induction h with
  | @closed rest =>
    intro text' rest' h' heq
    cases h' with
    | closed => exact ⟨rfl, append_cancel_left heq⟩
    | _ => grind
  | @inner depth text rest h ih =>
    intro text' rest' h' heq
    cases h' with
    | inner h' =>
      obtain ⟨rfl, rfl⟩ := ih h' (cons.inj (cons.inj heq).2).2
      exact ⟨rfl, rfl⟩
    | _ => grind
  | @opener depth text rest h ih =>
    intro text' rest' h' heq
    cases h' with
    | opener h' =>
      obtain ⟨rfl, rfl⟩ := ih h' (cons.inj (cons.inj heq).2).2
      exact ⟨rfl, rfl⟩
    | _ => grind
  | @char depth c text rest hclose hopen h ih =>
    intro text' rest' h' heq
    cases h' with
    | char _ _ h' =>
      obtain ⟨rfl, htail⟩ := cons.inj heq
      obtain ⟨rfl, rfl⟩ := ih h' htail
      exact ⟨rfl, rfl⟩
    | _ => grind
  | unterminated =>
    intro text' rest' h' heq
    cases h' with
    | unterminated => exact ⟨rfl, rfl⟩
    | _ => cases heq

theorem Region.unique {kind kind' : Kind} {text' rest' : List Char} (h : Region kind text rest) (h' : Region kind' text' rest')
    (heq : text ++ rest = text' ++ rest') : kind = kind' ∧ text = text' ∧ rest = rest' := by
  cases h with
  | literal h =>
    cases h' with
    | literal h' =>
      obtain ⟨rfl, rfl⟩ := h.unique h' (cons.inj heq).2
      exact ⟨rfl, rfl, rfl⟩
    | _ => grind
  | bracketed h =>
    cases h' with
    | bracketed h' =>
      obtain ⟨rfl, rfl⟩ := h.unique h' (cons.inj heq).2
      exact ⟨rfl, rfl, rfl⟩
    | _ => grind
  | quoted h =>
    cases h' with
    | quoted h' =>
      obtain ⟨rfl, rfl⟩ := h.unique h' (cons.inj heq).2
      exact ⟨rfl, rfl, rfl⟩
    | _ => grind
  | line h =>
    cases h' with
    | line h' =>
      obtain ⟨rfl, rfl⟩ := h.unique h' (cons.inj (cons.inj heq).2).2
      exact ⟨rfl, rfl, rfl⟩
    | _ => grind
  | block h =>
    cases h' with
    | block h' =>
      obtain ⟨rfl, rfl⟩ := h.unique h' (cons.inj (cons.inj heq).2).2
      exact ⟨rfl, rfl, rfl⟩
    | _ => grind
  | code hmark hline hblock =>
    cases h' with
    | code _ _ _ =>
      obtain ⟨rfl, rfl⟩ := cons.inj heq
      exact ⟨rfl, rfl, rfl⟩
    | _ => grind

variable (keep : Bool) (kind : Kind) (c : Char) (cs : List Char)

theorem exists_region : ∃ kind text rest, c :: cs = text ++ rest ∧ Region kind text rest ∧ text ≠ [] := by
  by_cases hliteral : c = '\''
  · obtain ⟨text, rest, rfl, h⟩ := exists_quoted '\'' cs
    exact ⟨.literal, '\'' :: text, rest, by rw [hliteral]; rfl, .literal h, cons_ne_nil _ _⟩
  by_cases hbracket : c = '['
  · obtain ⟨text, rest, rfl, h⟩ := exists_quoted ']' cs
    exact ⟨.identifier, '[' :: text, rest, by rw [hbracket]; rfl, .bracketed h, cons_ne_nil _ _⟩
  by_cases hquote : c = '"'
  · obtain ⟨text, rest, rfl, h⟩ := exists_quoted '"' cs
    exact ⟨.identifier, '"' :: text, rest, by rw [hquote]; rfl, .quoted h, cons_ne_nil _ _⟩
  by_cases hline : c = '-' ∧ cs.head? = some '-'
  · obtain ⟨rfl, hhead⟩ := hline
    obtain ⟨cs, rfl⟩ : ∃ ds, cs = '-' :: ds := head?_eq_some_iff.1 hhead
    obtain ⟨text, rest, rfl, h⟩ := exists_line cs
    exact ⟨.line, '-' :: '-' :: text, rest, rfl, .line h, cons_ne_nil _ _⟩
  by_cases hblock : c = '/' ∧ cs.head? = some '*'
  · obtain ⟨rfl, hhead⟩ := hblock
    obtain ⟨cs, rfl⟩ : ∃ ds, cs = '*' :: ds := head?_eq_some_iff.1 hhead
    obtain ⟨text, rest, rfl, h⟩ := exists_block cs 0
    exact ⟨.block, '/' :: '*' :: text, rest, rfl, .block h, cons_ne_nil _ _⟩
  exact ⟨.code, [c], cs, rfl, .code ⟨hliteral, hbracket, hquote⟩ hline hblock, cons_ne_nil _ _⟩

theorem Region.ne_nil {kind : Kind} (h : Region kind text rest) : text ≠ [] := by
  cases h <;> exact cons_ne_nil _ _

theorem exists_regions : ∃ regions, Regions regions cs := by
  induction hlen : cs.length using Nat.strongRecOn generalizing cs with
  | ind n ih =>
    cases cs with
    | nil => exact ⟨[], .nil⟩
    | cons c cs =>
      obtain ⟨kind, text, rest, heq, hregion, hne⟩ := exists_region c cs
      have hpos := length_pos_of_ne_nil hne
      have hsum := congrArg List.length heq
      rw [length_append] at hsum
      obtain ⟨regions, hregions⟩ := ih rest.length (by omega) rest rfl
      exact ⟨(kind, text) :: regions, heq ▸ .cons hregion hregions⟩

variable {regions : List (Kind × List Char)}

theorem Regions.unique {cs : List Char} (h : Regions regions cs) :
    ∀ {regions' : List (Kind × List Char)}, Regions regions' cs → regions = regions' := by
  induction h with
  | nil =>
    intro regions' h'
    generalize hcs : ([] : List Char) = cs at h'
    cases h' with
    | nil => rfl
    | cons h' _ => exact absurd (append_eq_nil_iff.1 hcs.symm).1 h'.ne_nil
  | @cons kind text rest regions h hrest ih =>
    intro regions' h'
    generalize hcs : text ++ rest = cs at h'
    cases h' with
    | nil => exact absurd (append_eq_nil_iff.1 hcs).1 h.ne_nil
    | cons h' hrest' =>
      obtain ⟨rfl, rfl, rfl⟩ := h.unique h' hcs
      rw [ih hrest']

/-! ## The scanner follows the grammar -/

def Kind.show (keepQuotedIdentifiers : Bool) (kind : Kind) (c : Char) : List Char :=
  match kind with
  | .code => [c]
  | .identifier => if keepQuotedIdentifiers then [c] else blank c
  | .literal | .line | .block => blank c

section Scan

variable {keep : Bool} {prev : Option Char} {text rest : List Char}

theorem lexicalFrom_code (prev : Option Char) (cs : List Char) : lexicalFrom keep .code prev cs = lexicalFrom keep .code none cs := by
  cases cs with
  | nil => rfl
  | cons c cs => rfl

theorem lexicalFrom_literal (h : Quoted '\'' text rest) : ∀ prev, lexicalFrom keep .literal prev (text ++ rest) =
    text.flatMap blank ++ lexicalFrom keep .code none rest := by
  induction h with
  | closed h =>
    intro prev
    rw [singleton_append, lexicalFrom, ← lexicalFrom_code (some '\'')]
    rfl
  | @doubled text rest h ih =>
    intro prev
    have hstep : lexicalFrom keep .literal prev ('\'' :: '\'' :: (text ++ rest)) =
        blank '\'' ++ (blank '\'' ++ lexicalFrom keep .literal (some '\'') (text ++ rest)) := rfl
    rw [cons_append, cons_append, hstep, ih, flatMap_cons, flatMap_cons, append_assoc,
      append_assoc]
  | @char c text rest hc h ih =>
    intro prev
    have hstep : lexicalFrom keep .literal prev (c :: (text ++ rest)) =
        blank c ++ lexicalFrom keep .literal (some c) (text ++ rest) := by
      rw [lexicalFrom, At.next, if_neg hc]
      rfl
    rw [cons_append, hstep, ih, flatMap_cons, append_assoc]
  | unterminated => exact fun _ => rfl

theorem lexicalFrom_ident {close : Char} (h : Quoted close text rest) : ∀ prev,
    lexicalFrom keep (.ident close false) prev (text ++ rest) =
      text.flatMap (Kind.identifier.show keep) ++ lexicalFrom keep .code none rest := by
  have hshow : ∀ c, (if keep then [c] else blank c) = Kind.identifier.show keep c := fun _ => rfl
  induction h with
  | @closed rest h =>
    intro prev
    rw [singleton_append, lexicalFrom, At.next, if_neg Bool.false_ne_true, if_pos rfl, if_neg h, lexicalFrom_code,
      At.keeps, hshow, flatMap_singleton]
  | @doubled text rest h ih =>
    intro prev
    rw [cons_append, cons_append, lexicalFrom, At.next, if_neg Bool.false_ne_true, if_pos rfl, head?_cons,
      if_pos rfl, lexicalFrom, At.next, if_pos rfl, ih, At.keeps, At.keeps, hshow, flatMap_cons, flatMap_cons,
      append_assoc, append_assoc]
  | @char c text rest hc h ih =>
    intro prev
    rw [cons_append, lexicalFrom, At.next, if_neg Bool.false_ne_true, if_neg hc, ih, At.keeps, hshow, flatMap_cons,
      append_assoc]
  | unterminated => exact fun _ => rfl

theorem lexicalFrom_line (h : Line text rest) : ∀ prev, lexicalFrom keep .line prev (text ++ rest) =
    text.flatMap blank ++ lexicalFrom keep .code none rest := by
  induction h with
  | @ended rest h =>
    intro prev
    cases rest with
    | nil => rfl
    | cons c rest =>
      have hending := h c rfl
      -- a line ending is code, and is blanked to itself
      have hblank : blank c = [c] := by rw [blank, if_pos hending]
      have hcode : At.next .code none c rest.head? = .code ∧ At.keeps keep .code c rest.head? = true := by
        have hc : c = '\n' ∨ c = '\r' := by simpa [isLineEnding] using hending
        rcases hc with rfl | rfl <;> exact ⟨rfl, rfl⟩
      have hnext : At.next .line prev c rest.head? = .code := by rw [At.next, if_pos hending]
      have hkeeps : At.keeps keep .line c rest.head? = false := rfl
      rw [nil_append, flatMap_nil, nil_append, lexicalFrom, lexicalFrom, hcode.1, hcode.2, hnext, hkeeps,
        hblank, if_neg Bool.false_ne_true, if_pos rfl]
  | @char c text rest hc h ih =>
    intro prev
    have hnext : At.next .line prev c (text ++ rest).head? = .line := by
      rw [At.next, if_neg (by rw [hc]; exact Bool.false_ne_true)]
    have hkeeps : At.keeps keep .line c (text ++ rest).head? = false := rfl
    rw [cons_append, lexicalFrom, hnext, hkeeps, ih, if_neg Bool.false_ne_true, flatMap_cons, append_assoc]

variable {depth seen : Nat}

theorem lexicalFrom_block_cons {at_ : At} {c : Char} {cs : List Char} (h : At.next (.block depth seen) prev c cs.head? = at_) :
    lexicalFrom keep (.block depth seen) prev (c :: cs) = blank c ++ lexicalFrom keep at_ (some c) cs := by
  have hkeeps : At.keeps keep (.block depth seen) c cs.head? = false := rfl
  rw [lexicalFrom, hkeeps, h, if_neg Bool.false_ne_true]

variable {next : Option Char}

theorem At.next_block_of_ne {c : Char} (h : c ≠ '/') : At.next (.block depth seen) prev c next = .block depth (seen + 1) := by
  rw [At.next, if_neg (fun hc => h hc.1), if_neg (fun hc => h hc.1)]

theorem At.next_block_closer (hseen : 2 ≤ seen) :
    At.next (.block depth seen) (some '*') '/' next = if depth = 1 then .code else .block (depth - 1) 2 := by
  rw [At.next, if_pos ⟨rfl, hseen, rfl⟩]

/-- Where a comment's next piece begins, no closing mark is half read: a star before it is its opener's, or a slash does not
follow. -/
theorem lexicalFrom_block (h : Block depth text rest) : ∀ {prev : Option Char} {seen : Nat}, 1 ≤ seen →
    (prev = some '*' → 2 ≤ seen → (text ++ rest).head? ≠ some '/') →
      lexicalFrom keep (.block (depth + 1) seen) prev (text ++ rest) =
        text.flatMap blank ++ lexicalFrom keep .code none rest := by
  induction h with
  | @closed rest =>
    intro prev seen hseen hprev
    have hstar : At.next (.block 1 seen) prev '*' (some '/') = .block 1 (seen + 1) := At.next_block_of_ne (by decide)
    have hslash : At.next (.block 1 (seen + 1)) (some '*') '/' rest.head? = .code := At.next_block_closer (by omega)
    show lexicalFrom keep (.block 1 seen) prev ('*' :: '/' :: rest) = _
    rw [lexicalFrom_block_cons hstar, lexicalFrom_block_cons hslash, lexicalFrom_code]
    rfl
  | @inner depth text rest h ih =>
    intro prev seen hseen hprev
    have hstar : At.next (.block (depth + 1 + 1) seen) prev '*' (some '/') = .block (depth + 1 + 1) (seen + 1) :=
      At.next_block_of_ne (by decide)
    have hslash : At.next (.block (depth + 1 + 1) (seen + 1)) (some '*') '/' (text ++ rest).head? = .block (depth + 1) 2 := by
      rw [At.next_block_closer (by omega), if_neg (by omega), Nat.add_sub_cancel]
    show lexicalFrom keep (.block (depth + 1 + 1) seen) prev ('*' :: '/' :: (text ++ rest)) = _
    rw [lexicalFrom_block_cons hstar, lexicalFrom_block_cons hslash, ih (by decide) (fun hslash => absurd hslash (by decide)),
      flatMap_cons, flatMap_cons, append_assoc, append_assoc]
  | @opener depth text rest h ih =>
    intro prev seen hseen hprev
    have hslash : At.next (.block (depth + 1) seen) prev '/' (some '*') = .block (depth + 1 + 1) 0 := by
      rw [At.next, if_neg (fun hc => hprev hc.2.2 hc.2.1 rfl), if_pos ⟨rfl, rfl⟩]
    have hstar : At.next (.block (depth + 1 + 1) 0) (some '/') '*' (text ++ rest).head? = .block (depth + 1 + 1) 1 :=
      At.next_block_of_ne (by decide)
    -- the star just read belongs to the opener: one character seen is too few to close
    have hone : some '*' = some '*' → 2 ≤ 1 → (text ++ rest).head? ≠ some '/' := fun _ hlt => absurd hlt (by decide)
    show lexicalFrom keep (.block (depth + 1) seen) prev ('/' :: '*' :: (text ++ rest)) = _
    rw [lexicalFrom_block_cons hslash, lexicalFrom_block_cons hstar, ih (Nat.le_refl 1) hone, flatMap_cons,
      flatMap_cons, append_assoc, append_assoc]
  | @char depth c text rest hclose hopen h ih =>
    intro prev seen hseen hprev
    have hstep : At.next (.block (depth + 1) seen) prev c (text ++ rest).head? = .block (depth + 1) (seen + 1) := by
      have hnot : ¬ (c = '/' ∧ seen ≥ 2 ∧ prev = some '*') := by
        rintro ⟨rfl, hseen, hstar⟩
        exact hprev hstar hseen rfl
      rw [At.next, if_neg hnot, if_neg hopen]
    have hnext : some c = some '*' → 2 ≤ seen + 1 → (text ++ rest).head? ≠ some '/' := by
      intro hc _ hslash
      exact hclose ⟨Option.some.inj hc, hslash⟩
    rw [cons_append, lexicalFrom_block_cons hstep, ih (by omega) hnext, flatMap_cons, append_assoc]
  | unterminated => exact fun _ _ => rfl

theorem lexicalFrom_region {kind : Kind} (h : Region kind text rest) : lexicalFrom keep .code none (text ++ rest) =
    text.flatMap (kind.show keep) ++ lexicalFrom keep .code none rest := by
  cases h with
  | literal h =>
    rw [cons_append, flatMap_cons, append_assoc]
    exact congrArg (blank '\'' ++ ·) (lexicalFrom_literal h _)
  | bracketed h =>
    rw [cons_append, flatMap_cons, append_assoc]
    exact congrArg (Kind.identifier.show keep '[' ++ ·) (lexicalFrom_ident h _)
  | quoted h =>
    rw [cons_append, flatMap_cons, append_assoc]
    exact congrArg (Kind.identifier.show keep '"' ++ ·) (lexicalFrom_ident h _)
  | line h =>
    rw [cons_append, cons_append, flatMap_cons, flatMap_cons, append_assoc, append_assoc]
    exact congrArg (fun out => blank '-' ++ (blank '-' ++ out)) (lexicalFrom_line h _)
  | block h =>
    rw [cons_append, cons_append, flatMap_cons, flatMap_cons, append_assoc, append_assoc]
    exact congrArg (fun out => blank '/' ++ (blank '*' ++ out))
      (lexicalFrom_block h (Nat.le_refl 1) fun _ (hlt : 2 ≤ 1) => absurd hlt (by decide))
  | @code c rest hmark hline hblock =>
    have hcode : At.next .code none c rest.head? = .code ∧ At.keeps keep .code c rest.head? = true := by
      have hident : ¬ (c = '[' ∨ c = '"') := not_or.2 hmark.2
      constructor
      · rw [At.next, if_neg hline, if_neg hblock, if_neg hmark.1, if_neg hident]
      · rw [At.keeps, if_neg hline, if_neg hblock, if_neg hmark.1, if_neg hident]
    rw [singleton_append, lexicalFrom, hcode.1, hcode.2, lexicalFrom_code]
    rfl

theorem lexicalCode_regions (keep : Bool) {regions : List (Kind × List Char)} {definition : List Char}
    (h : Regions regions definition) : lexicalCode definition keep = regions.flatMap fun r => r.2.flatMap (r.1.show keep) := by
  rw [lexicalCode]
  induction h with
  | nil => rfl
  | cons h _ ih => rw [lexicalFrom_region h, ih, flatMap_cons]

end Scan

/-! ## The bytes -/

def bytes (text : List Char) : List UInt8 := text.flatMap String.utf8EncodeChar

/-- A byte is kept, or is a space now and was no line break. -/
def Blanked (before after : UInt8) : Prop := after = before ∨ after = 0x20 ∧ before ≠ 0x0A ∧ before ≠ 0x0D

theorem toNat_of_mem_utf8EncodeChar {c : Char} (hb : b ∈ String.utf8EncodeChar c) : b.toNat = c.toNat ∨ 128 ≤ b.toNat := by
  revert hb
  fun_cases String.utf8EncodeChar c <;> simp only [mem_cons, not_mem_nil, or_false] <;> intro hb
  case case1 hle =>
    subst hb
    exact .inl (by rw [UInt8.toNat_ofNat']; exact Nat.mod_eq_of_lt (by omega))
  case case2 =>
    rcases hb with rfl | rfl <;> exact .inr (by rw [UInt8.toNat_ofNat']; omega)
  case case3 =>
    rcases hb with rfl | rfl | rfl <;> exact .inr (by rw [UInt8.toNat_ofNat']; omega)
  case case4 =>
    rcases hb with rfl | rfl | rfl | rfl <;> exact .inr (by rw [UInt8.toNat_ofNat']; omega)

theorem toNat_ne_of_mem_utf8EncodeChar {c d : Char} (hb : b ∈ String.utf8EncodeChar c) (hd : d.toNat < 128) (hne : c ≠ d) :
    b.toNat ≠ d.toNat := by
  rcases toNat_of_mem_utf8EncodeChar hb with heq | hle
  · rw [heq]
    exact fun h => hne (Char.toNat_inj.1 h)
  · omega

theorem bytes_replicate (n : Nat) : bytes (List.replicate n ' ') = List.replicate n 0x20 := by
  induction n with
  | zero => rfl
  | succ n ih => exact congrArg (0x20 :: ·) ih

theorem forall₂_replicate {l : List UInt8} (h : ∀ a ∈ l, Blanked a b) : Forall₂ Blanked l (List.replicate l.length b) := by
  induction l with
  | nil => exact .nil
  | cons a l ih => exact .cons (h a mem_cons_self) (ih fun c hc => h c (mem_cons_of_mem _ hc))

theorem forall₂_self (l : List UInt8) : Forall₂ Blanked l l := forall₂_same.2 fun _ _ => .inl rfl

theorem forall₂_blank : Forall₂ Blanked (String.utf8EncodeChar c) (bytes (blank c)) := by
  by_cases hc : isLineEnding c = true
  · rw [blank, if_pos hc, bytes, flatMap_singleton]
    exact forall₂_self _
  · have hnot : c ≠ '\n' ∧ c ≠ '\r' := by simpa [isLineEnding] using hc
    rw [blank, if_neg hc, bytes_replicate, ← String.length_utf8EncodeChar]
    refine forall₂_replicate fun b hb => .inr ⟨rfl, ?_, ?_⟩
    · rintro rfl
      exact toNat_ne_of_mem_utf8EncodeChar hb (by decide) hnot.1 rfl
    · rintro rfl
      exact toNat_ne_of_mem_utf8EncodeChar hb (by decide) hnot.2 rfl

theorem forall₂_show : Forall₂ Blanked (String.utf8EncodeChar c) (bytes (kind.show keep c)) := by
  have hself : Forall₂ Blanked (String.utf8EncodeChar c) (bytes [c]) := by
    rw [bytes, flatMap_singleton]
    exact forall₂_self _
  cases kind with
  | code => exact hself
  | identifier =>
    cases keep with
    | true => exact hself
    | false => exact forall₂_blank c
  | _ => exact forall₂_blank c

theorem forall₂_region (text : List Char) : Forall₂ Blanked (bytes text) (bytes (text.flatMap (kind.show keep))) := by
  induction text with
  | nil => exact .nil
  | cons c text ih =>
    rw [flatMap_cons, bytes, bytes, flatMap_cons, flatMap_append]
    exact rel_append (forall₂_show keep kind c) ih

theorem forall₂_regions {definition : List Char} (h : Regions regions definition) :
    Forall₂ Blanked (bytes definition) (bytes (regions.flatMap fun r => r.2.flatMap (r.1.show keep))) := by
  induction h with
  | nil => exact .nil
  | cons _ _ ih =>
    rw [flatMap_cons, bytes, bytes, flatMap_append, flatMap_append]
    exact rel_append (forall₂_region keep _ _) ih

/-- A text is divided into regions in one way. The scan that keeps quoted identifiers blanks its literals and comments, the
other one the quoted identifiers too, and either keeps every offset and every line ending. -/
theorem codeOnly_blanks_regions (definition : List Char) : ∃ regions, Regions regions definition ∧
    (∀ regions', Regions regions' definition → regions' = regions) ∧
    (codeOnly definition = regions.flatMap fun r => r.2.flatMap fun c =>
      if r.1 = .code ∨ r.1 = .identifier then [c] else blank c) ∧
    (codeWithoutQuotedIdentifiers definition = regions.flatMap fun r => r.2.flatMap fun c =>
      if r.1 = .code then [c] else blank c) ∧
    (bytes (codeOnly definition)).length = (bytes definition).length ∧
    Forall₂ Blanked (bytes definition) (bytes (codeOnly definition)) ∧
    (bytes (codeWithoutQuotedIdentifiers definition)).length = (bytes definition).length ∧
    Forall₂ Blanked (bytes definition) (bytes (codeWithoutQuotedIdentifiers definition)) := by
  obtain ⟨regions, hregions⟩ := exists_regions definition
  have hcode := lexicalCode_regions true hregions
  have hquoted := lexicalCode_regions false hregions
  have hbytes : Forall₂ Blanked (bytes definition) (bytes (codeOnly definition)) := by
    rw [codeOnly, hcode]
    exact forall₂_regions true hregions
  have hbytes' : Forall₂ Blanked (bytes definition) (bytes (codeWithoutQuotedIdentifiers definition)) := by
    rw [codeWithoutQuotedIdentifiers, hquoted]
    exact forall₂_regions false hregions
  refine ⟨regions, hregions, fun regions' h => h.unique hregions, ?_, ?_, hbytes.length_eq.symm, hbytes,
    hbytes'.length_eq.symm, hbytes'⟩
  · rw [codeOnly, hcode]
    congr 1
    funext ⟨kind, text⟩
    cases kind <;> rfl
  · rw [codeWithoutQuotedIdentifiers, hquoted]
    congr 1
    funext ⟨kind, text⟩
    cases kind <;> rfl

end Pbps.Modules
