/-
The argument types of a routine's identity (`RoutineArg` of `module.rs`): text as the engine spells it, with escaped names
spelled plain, and case and layout folded outside double quotes.
-/
import Pbps.Types.Qualified

namespace Pbps

open TypeRef (lowerAscii takeQuoted doubled starts)
open Load (hexValue)
open List Option

/-- `char::is_ascii_whitespace`. -/
def isAsciiWhitespace (c : Char) : Bool := [' ', '\t', '\n', '\x0c', '\r'].contains c

/-- `str::trim_matches`, of ASCII whitespace. -/
def trimAscii (s : List Char) : List Char :=
  (((s.dropWhile isAsciiWhitespace).reverse).dropWhile isAsciiWhitespace).reverse

inductive RoutineArgError where
  | empty
  | shape (text : String)
  deriving DecidableEq, Repr

namespace RoutineArg

/-! ## Unicode escapes -/

/-- `char::to_digit(16)`, of so many characters, as one number. -/
def takeHex : Nat → Nat → List Char → Option (Nat × List Char)
  | 0, code, cs => some (code, cs)
  | n + 1, code, c :: cs => (hexValue c).bind fun d => takeHex n (code * 16 + d) cs
  | _ + 1, _, [] => none

/-- `char::from_u32`. -/
def fromU32 (code : Nat) : Option Char := if code.isValidChar then some (Char.ofNat code) else none

/-- What the escapes of a `U&"…"` name, with the high half of a pair that waits for its low half. -/
def decodeUnicodeEscapes (escape : Char) : Nat → Option Nat → List Char → Option (List Char)
  | 0, _, _ => none
  | _ + 1, high, [] => if high.isSome then none else some []
  | fuel + 1, high, c :: cs =>
    if c ≠ escape then
      if high.isSome then none else (decodeUnicodeEscapes escape fuel none cs).map (c :: ·)
    else if cs.head? = some escape then
      if high.isSome then none else (decodeUnicodeEscapes escape fuel none cs.tail).map (escape :: ·)
    else
      let digits := if cs.head? = some '+' then takeHex 6 0 cs.tail else takeHex 4 0 cs
      digits.bind fun e =>
        match high with
        | none =>
          if 0xD800 ≤ e.1 && e.1 ≤ 0xDBFF then decodeUnicodeEscapes escape fuel (some e.1) e.2
          else (fromU32 e.1).bind fun d => (decodeUnicodeEscapes escape fuel none e.2).map (d :: ·)
        | some h =>
          if 0xDC00 ≤ e.1 && e.1 ≤ 0xDFFF then
            (fromU32 (0x10000 + (h - 0xD800) * 1024 + (e.1 - 0xDC00))).bind fun d =>
              (decodeUnicodeEscapes escape fuel none e.2).map (d :: ·)
          else none

/-- The escape character of a `UESCAPE` clause, if there is one, and what follows it. -/
def takeUescape (rest : List Char) : Option (Char × List Char) :=
  let after := rest.dropWhile isAsciiWhitespace
  if after.length > 7 && (after.take 7).map lowerAscii = "uescape".toList then
    match (after.drop 7).dropWhile isAsciiWhitespace with
    | '\'' :: e :: '\'' :: rest =>
      if e ≠ '\'' && e ≠ '+' && !isAsciiHexdigit e && !isWhitespace e then some (e, rest) else none
    | _ => none
  else some ('\\', rest)

def quotedName (name : List Char) : List Char := '"' :: (doubled name ++ ['"'])

/-- The text with each escaped name as the plain quoted one it spells; `last` is the character before it. -/
def plainNames (alphanumeric : Char → Bool) : Nat → Option Char → List Char → Option (List Char)
  | _, _, [] => some []
  | 0, _, _ :: _ => none
  | fuel + 1, last, c :: cs =>
    if c = '"' then
      (takeQuoted cs).bind fun e =>
        (plainNames alphanumeric fuel (some '"') e.2).map fun out => quotedName e.1 ++ out
    else if lowerAscii c = 'u' && cs.take 2 = ['&', '"'] && !(last.any fun l => alphanumeric l || l = '_') then
      (takeQuoted (cs.drop 2)).bind fun e =>
        (takeUescape e.2).bind fun u =>
          (decodeUnicodeEscapes u.1 (e.1.length + 1) none e.1).bind fun name =>
            (plainNames alphanumeric fuel (some '"') u.2).map fun out => quotedName name ++ out
    else (plainNames alphanumeric fuel (some c) cs).map (c :: ·)

/-- `str::contains("&\"")`. -/
def holdsAmpQuote : List Char → Bool
  | [] => false
  | c :: cs => (c = '&' && cs.head? = some '"') || holdsAmpQuote cs

def withoutUnicodeEscapes (alphanumeric : Char → Bool) (t : List Char) : Option (List Char) :=
  if !holdsAmpQuote t then some t else plainNames alphanumeric t.length none t

/-! ## Folding -/

/-- Which token the reader is in, which decides whether a `$` is a byte of a name. -/
inductive Token where
  | closed
  | identifier
  | numeric
  deriving DecidableEq, Repr

def isWordChar (c : Char) : Bool := isAsciiAlphanumeric c || !isAscii c

def Token.next (t : Token) (c : Char) : Token :=
  if c = '$' then .identifier
  else if isWordChar c || c = '_' then
    match t with
    | .closed => if starts c then .identifier else .numeric
    | .numeric => .numeric
    | .identifier => .identifier
  else if c = '.' && t = .numeric then .numeric
  else .closed

/-- The reader: what is open, whether a space waits, the token it is in and the last character it wrote. -/
structure Reader where
  parens : Nat := 0
  brackets : Nat := 0
  pending : Bool := false
  token : Token := .closed
  last : Option Char := none

/-- What is open after a character, where the character can stand there. -/
def Reader.nest (s : Reader) (c : Char) : Option (Nat × Nat) :=
  if c = '(' then some (s.parens + 1, s.brackets)
  else if c = ')' then if s.parens = 0 then none else some (s.parens - 1, s.brackets)
  else if c = '[' then some (s.parens, s.brackets + 1)
  else if c = ']' then if s.brackets = 0 then none else some (s.parens, s.brackets - 1)
  else if c = ',' then if s.parens = 0 ∧ s.brackets = 0 then none else some (s.parens, s.brackets)
  else if c = '"' ∨ c = '.' ∨ c = '_' then some (s.parens, s.brackets)
  else if c = '$' then if s.token = .identifier then some (s.parens, s.brackets) else none
  else if isWordChar c then some (s.parens, s.brackets)
  else none

/-- A space between two words is part of the name, and beside punctuation it is layout. -/
def spaced (pending : Bool) (last : Option Char) (c : Char) : Bool :=
  pending && !(['(', ')', '[', ']', ',', '.'].contains c) && !(last.any ['(', '[', ',', '.'].contains)

def fold : Bool → Reader → List Char → Option (List Char)
  | true, _, [] => none
  | false, s, [] => if s.parens = 0 ∧ s.brackets = 0 then some [] else none
  | true, s, c :: cs =>
    if c = '"' then
      match cs with
      | '"' :: cs => (fold true s cs).map fun out => '"' :: '"' :: out
      | cs => (fold false { s with last := some '"' } cs).map ('"' :: ·)
    else (fold true s cs).map (c :: ·)
  | false, s, c :: cs =>
    if isAsciiWhitespace c then fold false { s with pending := s.last.isSome, token := .closed } cs
    else
      (s.nest c).bind fun opened =>
        (fold (c = '"') ⟨opened.1, opened.2, false, s.token.next c, some (lowerAscii c)⟩ cs).map fun out =>
          (if spaced s.pending s.last c then [' '] else []) ++ lowerAscii c :: out

variable {s r : Reader} {c : Char} {cs out text : List Char} {pending q : Bool} {last : Option Char} {t : Token}
variable {alphanumeric : Char → Bool}

theorem fold_outside : fold false s (c :: cs) =
    if isAsciiWhitespace c then fold false { s with pending := s.last.isSome, token := .closed } cs
    else
      (s.nest c).bind fun opened =>
        (fold (c = '"') ⟨opened.1, opened.2, false, s.token.next c, some (lowerAscii c)⟩ cs).map fun out =>
          (if spaced s.pending s.last c then [' '] else []) ++ lowerAscii c :: out := by
  rw [fold]

theorem fold_inside : fold true r (c :: cs) =
    if c = '"' then
      if cs.head? = some '"' then (fold true r cs.tail).map fun out => '"' :: '"' :: out
      else (fold false { r with last := some '"' } cs).map ('"' :: ·)
    else (fold true r cs).map (c :: ·) := by
  rw [fold.eq_def]
  dsimp only
  split
  · split
    · rfl
    · next hne =>
      rw [if_neg]
      intro heq
      obtain ⟨cs', rfl⟩ := head?_eq_some_iff.1 heq
      exact hne cs' rfl
  · rfl

/-- `RoutineArg::from_str`, the raw form of what it gives. -/
def parse (alphanumeric : Char → Bool) (s : List Char) : Except RoutineArgError (List Char) :=
  let t := trimAscii s
  if t.isEmpty then .error .empty
  else
    match withoutUnicodeEscapes alphanumeric t with
    | none => .error (.shape (String.ofList t))
    | some t =>
      match fold false {} t with
      | none => .error (.shape (String.ofList t))
      | some out => .ok out

/-! ## A letter and its lower case -/

theorem forall_upper {P : Char → Prop} (h : ∀ n < 26, P (Char.ofNat (0x41 + n))) (hA : 'A' ≤ c) (hZ : c ≤ 'Z') : P c := by
  have hlow : 0x41 ≤ c.toNat := hA
  have hhigh : c.toNat ≤ 0x5A := hZ
  have := h (c.toNat - 0x41) (by omega)
  rwa [show 0x41 + (c.toNat - 0x41) = c.toNat by omega, Char.ofNat_toNat] at this

def marks : List Char := ['(', ')', '[', ']', ',', '"', '.', '_', '$']

/-- A letter in lower case is to the reader what it is in upper case. -/
structure SameClass (c d : Char) : Prop where
  space : isAsciiWhitespace d = isAsciiWhitespace c
  word : isWordChar d = isWordChar c
  starts : TypeRef.starts d = TypeRef.starts c
  marks : ∀ m ∈ marks, d = m ↔ c = m
  lower : lowerAscii d = d

theorem sameClass_lowerAscii (c : Char) : SameClass c (lowerAscii c) := by
  by_cases hc : ('A' ≤ c && c ≤ 'Z') = true
  · have hc' := hc
    rw [Bool.and_eq_true, decide_eq_true_eq, decide_eq_true_eq] at hc'
    refine forall_upper (P := fun c => SameClass c (lowerAscii c)) (fun n hn => ?_) hc'.1 hc'.2
    have hmarks : ∀ n < 26, (marks.all fun m => lowerAscii (Char.ofNat (0x41 + n)) = m ↔ Char.ofNat (0x41 + n) = m) = true := by
      decide
    refine ⟨?_, ?_, ?_, all_iff_forall_prop.1 (hmarks n hn), ?_⟩ <;> revert n <;> decide
  · have hsame : lowerAscii c = c := by rw [lowerAscii, if_neg hc]
    rw [hsame]
    exact ⟨rfl, rfl, rfl, fun _ _ => Iff.rfl, hsame⟩

theorem next_lowerAscii (t : Token) (c : Char) : t.next (lowerAscii c) = t.next c := by
  have h := sameClass_lowerAscii c
  have hm := h.marks
  unfold Token.next
  simp only [h.word, h.starts, hm '$' (by decide), hm '_' (by decide), hm '.' (by decide)]

theorem nest_lowerAscii (s : Reader) (c : Char) : s.nest (lowerAscii c) = s.nest c := by
  have h := sameClass_lowerAscii c
  have hm := h.marks
  unfold Reader.nest
  simp only [h.word, hm '(' (by decide), hm ')' (by decide), hm '[' (by decide), hm ']' (by decide), hm ',' (by decide),
    hm '"' (by decide), hm '.' (by decide), hm '_' (by decide), hm '$' (by decide)]

theorem spaced_lowerAscii (pending : Bool) (last : Option Char) (c : Char) :
    spaced pending last (lowerAscii c) = spaced pending last c := by
  have hm := (sameClass_lowerAscii c).marks
  unfold spaced
  simp only [contains_cons, contains_nil, Bool.or_false, Bool.beq_eq_decide_eq, hm '(' (by decide),
    hm ')' (by decide), hm '[' (by decide), hm ']' (by decide), hm ',' (by decide), hm '.' (by decide)]


theorem nest_of_token {opened : Nat × Nat} (h : s.nest c = some opened) (hp : r.parens = s.parens) (hb : r.brackets = s.brackets) :
    r.nest c = if c ≠ '$' ∨ r.token = .identifier then some opened else none := by
  unfold Reader.nest at h ⊢
  rw [hp, hb]
  by_cases hc : c = '$'
  · subst hc
    simp at h ⊢
    rw [h.2]
  · have hnamed : c ≠ '$' ∨ r.token = .identifier := .inl hc
    rw [if_pos hnamed]
    simp only [hc, if_false] at h ⊢
    exact h

/-! ## What is folded, read again -/

/-- Whether each `$` outside quotes stands in an identifier when the layout beside punctuation is left out, so that only a
space between two words ends a token. -/
def dollarsNamed : Bool → Bool → Option Char → Token → List Char → Bool
  | _, _, _, _, [] => true
  | true, pending, last, t, c :: cs =>
    if c = '"' then
      match cs with
      | '"' :: cs => dollarsNamed true pending last t cs
      | cs => dollarsNamed false pending (some '"') t cs
    else dollarsNamed true pending last t cs
  | false, pending, last, t, c :: cs =>
    if isAsciiWhitespace c then dollarsNamed false last.isSome last t cs
    else
      let t := if spaced pending last c then .closed else t
      (c ≠ '$' || t = .identifier) && dollarsNamed (c = '"') false (some (lowerAscii c)) (t.next c) cs

theorem dollarsNamed_inside : dollarsNamed true pending last t (c :: cs) = if c = '"' then
        if cs.head? = some '"' then dollarsNamed true pending last t cs.tail else dollarsNamed false pending (some '"') t cs
      else dollarsNamed true pending last t cs := by
  rw [dollarsNamed.eq_def]
  dsimp only
  split
  · split
    · rfl
    · next hne =>
      rw [if_neg]
      intro heq
      obtain ⟨cs', rfl⟩ := head?_eq_some_iff.1 heq
      exact hne cs' rfl
  · rfl

theorem spaced_quote : spaced true (some '"') '"' = true := by decide

theorem head_fold_ne : ∀ {cs : List Char} {s : Reader} {out : List Char}, fold false s cs = some out → s.last = some '"' →
    s.pending = true ∨ cs.head? ≠ some '"' → out.head? ≠ some '"'
  | [], s, out, h, _, _ => by
    rw [fold] at h
    split at h
    · cases h
      exact nofun
    · cases h
  | c :: cs, s, out, h, hlast, hnext => by
    rw [fold_outside] at h
    split at h
    · exact head_fold_ne h hlast (.inl (by rw [hlast]; rfl))
    · obtain ⟨opened, -, h⟩ := bind_eq_some_iff.1 h
      obtain ⟨out', -, rfl⟩ := map_eq_some_iff.1 h
      cases hspaced : spaced s.pending s.last c with
      | true => exact fun heq => absurd (some.inj heq) (by decide)
      | false =>
        rw [if_neg Bool.false_ne_true, nil_append, head?_cons]
        intro heq
        have hquote := ((sameClass_lowerAscii c).marks '"' (by decide)).1 (some.inj heq)
        subst hquote
        rcases hnext with hpending | hhead
        · rw [hpending, hlast, spaced_quote] at hspaced
          cases hspaced
        · exact hhead rfl

theorem not_isAsciiWhitespace_lower (h : ¬ isAsciiWhitespace c = true) : ¬ isAsciiWhitespace (lowerAscii c) = true := by
  rwa [(sameClass_lowerAscii c).space]

theorem fold_lower_cons {opened : Nat × Nat} (hc : ¬ isAsciiWhitespace c = true) (hnest : s.nest c = some opened)
    (hp : r.parens = s.parens) (hb : r.brackets = s.brackets) :
    fold false r (lowerAscii c :: out) = if c ≠ '$' ∨ r.token = .identifier then
      (fold (c = '"') ⟨opened.1, opened.2, false, r.token.next c, some (lowerAscii c)⟩ out).map fun out =>
        (if spaced r.pending r.last c then [' '] else []) ++ lowerAscii c :: out else none := by
  have hlower := (sameClass_lowerAscii c).lower
  have hquote : (lowerAscii c = '"') = (c = '"') := propext ((sameClass_lowerAscii c).marks '"' (by decide))
  rw [fold_outside, if_neg (not_isAsciiWhitespace_lower hc), nest_lowerAscii, nest_of_token hnest hp hb]
  split
  · rw [bind_some, next_lowerAscii, spaced_lowerAscii, hlower]
    simp only [hquote]
  · rfl

theorem fold_quoted (hc : c ≠ '"') : fold true r (c :: cs) = (fold true r cs).map (c :: ·) := by
  rw [fold_inside, if_neg hc]

theorem fold_doubled : fold true r ('"' :: '"' :: cs) = (fold true r cs).map fun out => '"' :: '"' :: out := by
  rw [fold_inside, if_pos rfl]
  exact if_pos rfl

theorem fold_close (h : cs.head? ≠ some '"') :
    fold true r ('"' :: cs) = (fold false { r with last := some '"' } cs).map ('"' :: ·) := by
  rw [fold_inside, if_pos rfl, if_neg h]

theorem dollarsNamed_quoted (hc : c ≠ '"') :
    dollarsNamed true pending last t (c :: cs) = dollarsNamed true pending last t cs := by
  rw [dollarsNamed_inside, if_neg hc]

theorem dollarsNamed_doubled : dollarsNamed true pending last t ('"' :: '"' :: cs) = dollarsNamed true pending last t cs := by
  rw [dollarsNamed_inside, if_pos rfl]
  exact if_pos rfl

theorem dollarsNamed_close (h : cs.head? ≠ some '"') :
    dollarsNamed true pending last t ('"' :: cs) = dollarsNamed false pending (some '"') t cs := by
  rw [dollarsNamed_inside, if_pos rfl, if_neg h]

/-- Folding again gives the same, where every dollar is within a name, and nothing elsewhere. -/
theorem fold_fold (h : fold q s cs = some out) (hquoted : q = true → s.pending = false)
    (hpending : s.pending = true → s.last.isSome = true) (hp : r.parens = s.parens) (hb : r.brackets = s.brackets)
    (hlast : r.last = s.last) (hclear : r.pending = false) :
    fold q r out = if dollarsNamed q s.pending s.last r.token cs then some out else none := by
  fun_induction fold q s cs generalizing r out with
  | case1 => cases h
  | case2 s hclosed =>
    cases h
    rw [fold, hp, hb, if_pos hclosed, dollarsNamed, if_pos rfl]
  | case3 => cases h
  | case4 s cs ih =>
    obtain ⟨out, hout, rfl⟩ := map_eq_some_iff.1 h
    rw [fold_doubled, ih hout hquoted hpending hp hb hlast hclear, dollarsNamed_doubled]
    split <;> rfl
  | case5 s cs hcs ih =>
    obtain ⟨out, hout, rfl⟩ := map_eq_some_iff.1 h
    have hhead : cs.head? ≠ some '"' := by
      intro heq
      obtain ⟨cs', rfl⟩ := head?_eq_some_iff.1 heq
      exact hcs cs' rfl
    have hout' := head_fold_ne hout rfl (.inr hhead)
    have hagain := ih (r := { r with last := some '"' }) hout (fun hq => absurd hq Bool.false_ne_true) (fun _ => rfl) hp hb rfl hclear
    rw [fold_close hout', hagain, dollarsNamed_close hhead]
    split <;> rfl
  | case6 s c cs hc ih =>
    obtain ⟨out, hout, rfl⟩ := map_eq_some_iff.1 h
    rw [fold_quoted hc, ih hout hquoted hpending hp hb hlast hclear, dollarsNamed_quoted hc]
    split <;> rfl
  | case7 s c cs hc ih =>
    rw [ih h (fun hq => absurd hq Bool.false_ne_true) id hp hb hlast hclear, dollarsNamed, if_pos hc]
  | case8 s c cs hc ih =>
    obtain ⟨opened, hnest, h⟩ := bind_eq_some_iff.1 h
    obtain ⟨out, hout, rfl⟩ := map_eq_some_iff.1 h
    have hagain : ∀ t : Token, fold (c = '"') ⟨opened.1, opened.2, false, t, some (lowerAscii c)⟩ out =
        if dollarsNamed (c = '"') false (some (lowerAscii c)) t cs then some out else none :=
      fun t => ih opened hout (fun _ => rfl) (fun hp => absurd hp Bool.false_ne_true) rfl rfl rfl rfl
    -- what the reader makes of the character, with or without a space before it
    have hcons : ∀ r : Reader, r.parens = s.parens → r.brackets = s.brackets →
        fold false r (lowerAscii c :: out) = if (decide (c ≠ '$') || decide (r.token = .identifier)) &&
            dollarsNamed (c = '"') false (some (lowerAscii c)) (r.token.next c) cs then
          some ((if spaced r.pending r.last c then [' '] else []) ++ lowerAscii c :: out) else none := by
      intro r hp hb
      rw [fold_lower_cons hc hnest hp hb, hagain]
      by_cases hdollar : c ≠ '$' ∨ r.token = .identifier
      · have hdollar' : (decide (c ≠ '$') || decide (r.token = .identifier)) = true := by simpa using hdollar
        rw [if_pos hdollar, hdollar', Bool.true_and]
        cases dollarsNamed (c = '"') false (some (lowerAscii c)) (r.token.next c) cs <;> rfl
      · have hdollar' : (decide (c ≠ '$') || decide (r.token = .identifier)) = false := by simpa using hdollar
        rw [if_neg hdollar, hdollar', Bool.false_and, if_neg Bool.false_ne_true]
    rw [dollarsNamed, if_neg hc]
    cases hspaced : spaced s.pending s.last c with
    | false =>
      have hnone : spaced r.pending r.last c = false := by rw [hclear]; rfl
      rw [if_neg Bool.false_ne_true, nil_append, hcons r hp hb, hnone]
      rfl
    | true =>
      have hs : s.pending = true := by
        rw [spaced, Bool.and_eq_true, Bool.and_eq_true] at hspaced
        exact hspaced.1.1
      have hblank : isAsciiWhitespace ' ' = true := by decide
      have hwaits : r.last.isSome = true := by rw [hlast]; exact hpending hs
      have hspaced' : spaced true r.last c = true := by
        rw [hs] at hspaced
        rwa [hlast]
      have hagain' := hcons { r with pending := r.last.isSome, token := .closed } hp hb
      dsimp only at hagain'
      rw [hwaits, hspaced'] at hagain'
      rw [if_pos rfl, singleton_append, fold_outside, if_pos hblank, hwaits, hagain']
      rfl

/-! ## The folded text is one to read -/

theorem trimAscii_eq_self {s : List Char} (hfirst : ∀ c ∈ s.head?, isAsciiWhitespace c = false)
    (hlast : ∀ c ∈ s.getLast?, isAsciiWhitespace c = false) : trimAscii s = s := by
  have hfront : s.dropWhile isAsciiWhitespace = s := by
    cases s with
    | nil => rfl
    | cons c s => rw [dropWhile_cons_of_neg (by simp [hfirst c rfl])]
  rw [trimAscii, hfront]
  rcases eq_nil_or_concat s with rfl | ⟨t, c, rfl⟩
  · rfl
  · have hc := hlast c (by rw [concat_eq_append, getLast?_concat]; rfl)
    rw [concat_eq_append, reverse_append, reverse_singleton, singleton_append,
      dropWhile_cons_of_neg (by simp [hc]), reverse_cons, reverse_reverse]

theorem fold_last (h : fold q s cs = some out) : (∀ c ∈ out.getLast?, isAsciiWhitespace c = false) ∧ (q = true → out ≠ []) := by
  have hcons : ∀ {c : Char} {out : List Char}, isAsciiWhitespace c = false →
      (∀ d ∈ out.getLast?, isAsciiWhitespace d = false) → ∀ d ∈ (c :: out).getLast?, isAsciiWhitespace d = false := by
    intro c out hc hout d hd
    cases out with
    | nil =>
      obtain rfl := some.inj hd
      exact hc
    | cons e out => exact hout d (by rwa [getLast?_cons_cons] at hd)
  have hquote : isAsciiWhitespace '"' = false := by decide
  fun_induction fold q s cs generalizing out with
  | case1 => cases h
  | case2 =>
    cases h
    exact ⟨nofun, fun hq => absurd hq Bool.false_ne_true⟩
  | case3 => cases h
  | case4 s cs ih =>
    obtain ⟨out, hout, rfl⟩ := map_eq_some_iff.1 h
    exact ⟨hcons hquote (hcons hquote (ih hout).1), fun _ => cons_ne_nil _ _⟩
  | case5 s cs hcs ih =>
    obtain ⟨out, hout, rfl⟩ := map_eq_some_iff.1 h
    exact ⟨hcons hquote (ih hout).1, fun _ => cons_ne_nil _ _⟩
  | case6 s c cs hc ih =>
    obtain ⟨out, hout, rfl⟩ := map_eq_some_iff.1 h
    refine ⟨fun d hd => ?_, fun _ => cons_ne_nil _ _⟩
    obtain ⟨e, out, rfl⟩ := exists_cons_of_ne_nil ((ih hout).2 rfl)
    rw [getLast?_cons_cons] at hd
    exact (ih hout).1 d hd
  | case7 s c cs hc ih => exact ⟨(ih h).1, fun hq => absurd hq Bool.false_ne_true⟩
  | case8 s c cs hc ih =>
    obtain ⟨opened, -, h⟩ := bind_eq_some_iff.1 h
    obtain ⟨out, hout, rfl⟩ := map_eq_some_iff.1 h
    have hlower : isAsciiWhitespace (lowerAscii c) = false := by simpa using not_isAsciiWhitespace_lower hc
    have htail := hcons hlower (ih opened hout).1
    refine ⟨fun d hd => htail d ?_, fun hq => absurd hq Bool.false_ne_true⟩
    split at hd
    · rwa [singleton_append, getLast?_cons_cons] at hd
    · exact hd

theorem fold_first (h : fold false s (c :: cs) = some out) (hc : isAsciiWhitespace c = false) (hpending : s.pending = false) :
    ∃ rest, out = lowerAscii c :: rest := by
  rw [fold_outside, if_neg (by rw [hc]; exact Bool.false_ne_true)] at h
  obtain ⟨opened, -, h⟩ := bind_eq_some_iff.1 h
  obtain ⟨out, -, rfl⟩ := map_eq_some_iff.1 h
  have hspaced : spaced s.pending s.last c = false := by rw [hpending]; rfl
  exact ⟨out, by rw [hspaced]; rfl⟩

/-- A text whose quoted names are closed and that has no `&` outside them: one without escaped names. -/
inductive Unescaped : List Char → Prop where
  | nil : Unescaped []
  | char {c : Char} {rest : List Char} (hquote : c ≠ '"') (hamp : c ≠ '&') (h : Unescaped rest) : Unescaped (c :: rest)
  | name (part : List Char) {rest : List Char} (hrest : rest.head? ≠ some '"') (h : Unescaped rest) :
      Unescaped ('"' :: (doubled part ++ '"' :: rest))

theorem Unescaped.head_ne (h : Unescaped text) : text.head? ≠ some '&' := by
  cases h with
  | nil => exact nofun
  | char _ hamp _ => exact fun heq => hamp (some.inj heq)
  | name _ _ _ => exact fun heq => absurd (some.inj heq) (by decide)

theorem Unescaped.plainNames_eq (h : Unescaped text) :
    ∀ (fuel : Nat) (last : Option Char), text.length ≤ fuel → plainNames alphanumeric fuel last text = some text := by
  induction h with
  | nil => exact fun fuel _ _ => by cases fuel <;> rfl
  | @char c rest hquote hamp h ih =>
    intro fuel last hfuel
    cases fuel with
    | zero => exact absurd hfuel (by simp)
    | succ fuel =>
      have hplain : ¬ (lowerAscii c = 'u' && rest.take 2 = ['&', '"'] && !(last.any fun l => alphanumeric l || l = '_')) = true := by
        intro hopens
        simp only [Bool.and_eq_true, decide_eq_true_eq] at hopens
        refine h.head_ne ?_
        cases rest with
        | nil => exact absurd hopens.1.2 (by simp)
        | cons d rest =>
          have hd := (cons.inj hopens.1.2).1
          rw [hd]
          rfl
      rw [plainNames, if_neg hquote, if_neg hplain, ih fuel (some c) (Nat.le_of_succ_le_succ hfuel)]
      rfl
  | @name part rest hrest h ih =>
    intro fuel last hfuel
    rw [length_cons, length_append, length_cons] at hfuel
    cases fuel with
    | zero => omega
    | succ fuel =>
      rw [plainNames, if_pos rfl, TypeRef.takeQuoted_written hrest, bind_some, ih fuel (some '"') (by omega),
        map_some, quotedName, cons_append, append_assoc, singleton_append]

theorem fold_unescaped (h : fold q s cs = some out) : (q = false → Unescaped out) ∧
      (q = true → ∃ part rest, out = doubled part ++ '"' :: rest ∧ rest.head? ≠ some '"' ∧ Unescaped rest) := by
  fun_induction fold q s cs generalizing out with
  | case1 => cases h
  | case2 =>
    cases h
    exact ⟨fun _ => .nil, nofun⟩
  | case3 => cases h
  | case4 s cs ih =>
    obtain ⟨out, hout, rfl⟩ := map_eq_some_iff.1 h
    obtain ⟨part, rest, rfl, hhead, hrest⟩ := (ih hout).2 rfl
    exact ⟨nofun, fun _ => ⟨'"' :: part, rest, by rw [doubled, if_pos rfl]; rfl, hhead, hrest⟩⟩
  | case5 s cs hcs ih =>
    obtain ⟨out, hout, rfl⟩ := map_eq_some_iff.1 h
    have hhead : cs.head? ≠ some '"' := by
      intro heq
      obtain ⟨cs', rfl⟩ := head?_eq_some_iff.1 heq
      exact hcs cs' rfl
    exact ⟨nofun, fun _ => ⟨[], out, rfl, head_fold_ne hout rfl (.inr hhead), (ih hout).1 rfl⟩⟩
  | case6 s c cs hc ih =>
    obtain ⟨out, hout, rfl⟩ := map_eq_some_iff.1 h
    obtain ⟨part, rest, rfl, hhead, hrest⟩ := (ih hout).2 rfl
    exact ⟨nofun, fun _ => ⟨c :: part, rest, by rw [doubled, if_neg hc]; rfl, hhead, hrest⟩⟩
  | case7 s c cs hc ih => exact ⟨fun _ => (ih h).1 rfl, nofun⟩
  | case8 s c cs hc ih =>
    obtain ⟨opened, hnest, h⟩ := bind_eq_some_iff.1 h
    obtain ⟨out, hout, rfl⟩ := map_eq_some_iff.1 h
    refine ⟨fun _ => ?_, nofun⟩
    have hlower : Unescaped (lowerAscii c :: out) := by
      by_cases hquote : c = '"'
      · subst hquote
        obtain ⟨part, rest, rfl, hhead, hrest⟩ := (ih opened hout).2 rfl
        exact .name part hhead hrest
      · have hunescaped := (ih opened hout).1 (decide_eq_false hquote)
        refine .char (fun heq => hquote (((sameClass_lowerAscii c).marks '"' (by decide)).1 heq)) ?_ hunescaped
        intro hamp
        have hlower := nest_lowerAscii s c
        rw [hamp, hnest] at hlower
        cases hlower
    split
    · exact .char (by decide) (by decide) hlower
    · exact hlower

/-! ## Reading again -/

theorem head_trimAscii {s : List Char} (h : c ∈ (trimAscii s).head?) : isAsciiWhitespace c = false := by
  have hprefix : trimAscii s <+: s.dropWhile isAsciiWhitespace := rdropWhile_prefix _ _
  obtain ⟨rest, hrest⟩ := hprefix
  obtain ⟨tail, htail⟩ := head?_eq_some_iff.1 h
  have hhead := head?_dropWhile_not isAsciiWhitespace s
  rw [← hrest, htail] at hhead
  simpa using hhead

theorem head_withoutUnicodeEscapes {plain : List Char} (hc : isAsciiWhitespace c = false)
    (h : withoutUnicodeEscapes alphanumeric (c :: cs) = some plain) :
    ∃ d rest, plain = d :: rest ∧ isAsciiWhitespace d = false := by
  rw [withoutUnicodeEscapes] at h
  split at h
  · exact ⟨c, cs, (some.inj h).symm, hc⟩
  · rw [length_cons, plainNames] at h
    split at h
    · obtain ⟨e, -, h⟩ := bind_eq_some_iff.1 h
      obtain ⟨out, -, rfl⟩ := map_eq_some_iff.1 h
      exact ⟨'"', _, rfl, by decide⟩
    · split at h
      · obtain ⟨e, -, h⟩ := bind_eq_some_iff.1 h
        obtain ⟨u, -, h⟩ := bind_eq_some_iff.1 h
        obtain ⟨name, -, h⟩ := bind_eq_some_iff.1 h
        obtain ⟨out, -, rfl⟩ := map_eq_some_iff.1 h
        exact ⟨'"', _, rfl, by decide⟩
      · obtain ⟨out, -, rfl⟩ := map_eq_some_iff.1 h
        exact ⟨c, out, rfl, hc⟩

theorem withoutUnicodeEscapes_eq (h : Unescaped text) :
    withoutUnicodeEscapes alphanumeric text = some text := by
  rw [withoutUnicodeEscapes]
  split
  · rfl
  · exact h.plainNames_eq _ _ (Nat.le_refl _)

theorem parse_eq_ok (h : parse alphanumeric text = .ok out) :
    ∃ plain, trimAscii text ≠ [] ∧ withoutUnicodeEscapes alphanumeric (trimAscii text) = some plain ∧
      fold false {} plain = some out := by
  rw [parse] at h
  split at h
  · cases h
  · next hne =>
    split at h
    · cases h
    · next plain hplain =>
      split at h
      · cases h
      · next out' hfold =>
        obtain rfl := Except.ok.inj h
        exact ⟨plain, fun hnil => hne (List.isEmpty_iff.2 hnil), hplain, hfold⟩

theorem raw_of_parse (h : parse alphanumeric text = .ok out) : trimAscii out = out ∧ out ≠ [] ∧ Unescaped out := by
  obtain ⟨plain, hne, hplain, hfold⟩ := parse_eq_ok h
  obtain ⟨c, cs, hcs⟩ := exists_cons_of_ne_nil hne
  have hc := head_trimAscii (s := text) (c := c) (by rw [hcs]; rfl)
  rw [hcs] at hplain
  obtain ⟨d, rest, rfl, hd⟩ := head_withoutUnicodeEscapes hc hplain
  obtain ⟨rest, rfl⟩ := fold_first hfold hd rfl
  refine ⟨trimAscii_eq_self ?_ (fold_last hfold).1, cons_ne_nil _ _, (fold_unescaped hfold).1 rfl⟩
  intro e he
  obtain rfl := some.inj he
  rwa [(sameClass_lowerAscii d).space]

/-- Whether an argument's text, with its escaped names spelled plain, has each `$` outside quotes in an identifier also when
the layout beside punctuation is left out. -/
def Kept (alphanumeric : Char → Bool) (text : List Char) : Prop :=
  ∀ plain, withoutUnicodeEscapes alphanumeric (trimAscii text) = some plain → dollarsNamed false false none .closed plain = true

instance (alphanumeric : Char → Bool) (text : List Char) : Decidable (Kept alphanumeric text) :=
  decidable_of_iff ((withoutUnicodeEscapes alphanumeric (trimAscii text)).all (dollarsNamed false false none .closed) = true)
    (Option.all_eq_true _ _)

/-- An argument is read from its raw form as itself, or else refused there, by where the `$`s of its text stand. -/
theorem parse_parsed_iff (h : parse alphanumeric text = .ok out) :
    parse alphanumeric out = .ok out ↔ Kept alphanumeric text := by
  obtain ⟨plain, -, hplain, hfold⟩ := parse_eq_ok h
  obtain ⟨htrim, hne, hunescaped⟩ := raw_of_parse h
  have hagain := fold_fold (r := {}) hfold (fun hq => absurd hq Bool.false_ne_true) (fun hp => absurd hp Bool.false_ne_true)
    rfl rfl rfl rfl
  have hparse : parse alphanumeric out =
      if dollarsNamed false false none .closed plain then .ok out else .error (.shape (String.ofList out)) := by
    rw [parse]
    rw [htrim, if_neg fun hempty => hne (List.isEmpty_iff.1 hempty), withoutUnicodeEscapes_eq hunescaped]
    dsimp only
    rw [hagain]
    cases dollarsNamed false false none .closed plain <;> rfl
  rw [hparse]
  constructor
  · intro hok plain' hplain'
    obtain rfl := some.inj (hplain.symm.trans hplain')
    by_contra hnot
    rw [if_neg hnot] at hok
    cases hok
  · intro hkept
    rw [if_pos (hkept plain hplain)]

end RoutineArg

end Pbps
