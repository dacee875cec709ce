/-
Names read from text: `FromStr` of `TableName`, `ColumnRef` and `Uid` (`name.rs`, `uid.rs`), and of `TypeRef`
(`types.rs`), with its quoted and folded parts. A name that its own spelling reads as some name is that name.
-/
import Pbps.Lib.Check
import Pbps.Model.Ids

namespace Pbps

open List

/-! ## Parts separated by dots -/

/-- `str::split('.')`. -/
def splitDots : List Char → List (List Char)
  | [] => [[]]
  | c :: cs =>
    if c = '.' then [] :: splitDots cs
    else
      match splitDots cs with
      | p :: ps => (c :: p) :: ps
      | [] => [[c]]

theorem splitDots_ne_nil (cs : List Char) : splitDots cs ≠ [] := by
  cases cs with
  | nil => simp [splitDots]
  | cons c cs =>
    rw [splitDots]
    split
    · simp
    · split <;> simp

theorem length_splitDots (cs : List Char) : (splitDots cs).length = cs.count '.' + 1 := by
  induction cs with
  | nil => rfl
  | cons c cs ih =>
    rw [splitDots]
    by_cases hc : c = '.'
    · subst hc
      rw [if_pos rfl, length_cons, ih, count_cons_self]
    · rw [if_neg hc, count_cons_of_ne (Ne.symm hc).symm, ← ih]
      cases hs : splitDots cs with
      | nil => exact absurd hs (splitDots_ne_nil cs)
      | cons p ps => rfl

theorem splitDots_append {a : List Char} (ha : '.' ∉ a) (b : List Char) : splitDots (a ++ '.' :: b) = a :: splitDots b := by
  induction a with
  | nil => rfl
  | cons c a ih =>
    rw [mem_cons, not_or] at ha
    rw [cons_append, splitDots, if_neg (Ne.symm ha.1), ih ha.2]

theorem splitDots_of_not_mem {a : List Char} (ha : '.' ∉ a) : splitDots a = [a] := by
  induction a with
  | nil => rfl
  | cons c a ih =>
    rw [mem_cons, not_or] at ha
    rw [splitDots, if_neg (Ne.symm ha.1), ih ha.2]

/-- What a name got wrong. -/
inductive NameError where
  | tableShape (text : String)
  | columnShape (text : String)
  | emptySegment (text : String)
  | containsSeparator (text : String)
  deriving DecidableEq, Repr

def TableName.parse (s : String) : Except NameError TableName :=
  match splitDots s.toList with
  | [schema, name] =>
    if schema.isEmpty || name.isEmpty then .error (.emptySegment s) else .ok ⟨String.ofList schema, String.ofList name⟩
  | _ => .error (.tableShape s)

def ColumnRef.parse (s : String) : Except NameError ColumnRef :=
  match splitDots s.toList with
  | [schema, table, column] =>
    if schema.isEmpty || table.isEmpty || column.isEmpty then .error (.emptySegment s)
    else .ok ⟨⟨String.ofList schema, String.ofList table⟩, String.ofList column⟩
  | _ => .error (.columnShape s)

theorem TableName.eq_of_parse_raw {t r : TableName} (h : TableName.parse t.raw = .ok r) : r = t := by
  have hchars : t.raw.toList = t.schema.toList ++ '.' :: t.name.toList := by
    simp [TableName.raw, String.toList_append]
  rw [TableName.parse, hchars] at h
  split at h
  · next schema name hsplit =>
    -- Two parts are one dot, which is the one between the two.
    have hcount := length_splitDots (t.schema.toList ++ '.' :: t.name.toList)
    rw [hsplit, count_append, count_cons_self] at hcount
    simp only [length_cons, length_nil] at hcount
    have hs : '.' ∉ t.schema.toList := count_eq_zero.1 (by omega)
    have hn : '.' ∉ t.name.toList := count_eq_zero.1 (by omega)
    rw [splitDots_append hs, splitDots_of_not_mem hn, cons.injEq, cons.injEq] at hsplit
    obtain ⟨rfl, rfl, -⟩ := hsplit
    split at h
    · cases h
    · cases h
      cases t
      simp
  · cases h

/-! ## Identity anchors -/

def Uid.LEN : Nat := 6

/-- The characters of the random part: the easily misread `i`, `l`, `o` and `u` are left out. -/
def Uid.ALPHABET : List Char := "0123456789abcdefghjkmnpqrstvwxyz".toList

inductive UidError where
  | badPrefix (text : String)
  | badLength (text : String)
  | badChar (text : String)
  deriving DecidableEq, Repr

def Uid.afterPrefix : List Char → Option (List Char)
  | 'e' :: '_' :: rest | 't' :: '_' :: rest | 'c' :: '_' :: rest | 'r' :: '_' :: rest | 'y' :: '_' :: rest => some rest
  | _ => none

def Uid.parse (s : String) : Except UidError Uid :=
  match Uid.afterPrefix s.toList with
  | none => .error (.badPrefix s)
  | some rest =>
    if (String.ofList rest).utf8ByteSize ≠ Uid.LEN then .error (.badLength s)
    else if !rest.all fun c => Uid.ALPHABET.contains c then .error (.badChar s)
    else .ok ⟨s⟩

/-- An anchor the source can hold: every `Uid` is one that was parsed or allocated in this form. -/
def Uid.WellFormed (u : Uid) : Prop := Uid.parse u.text = .ok u

instance (u : Uid) : Decidable u.WellFormed :=
  match h : Uid.parse u.text with
  | .ok v => if hv : v = u then .isTrue (by rw [Uid.WellFormed, h, hv]) else .isFalse (by rw [Uid.WellFormed, h]; simpa using hv)
  | .error _ => .isFalse (by rw [Uid.WellFormed, h]; simp)

/-! ## Type references -/

inductive TypeParseError where
  | badArray (text : String)
  | badTypeReference (whole reason : String)
  deriving DecidableEq, Repr

namespace TypeRef

def isAsciiAlphabetic (c : Char) : Bool := ('a' ≤ c && c ≤ 'z') || ('A' ≤ c && c ≤ 'Z')

/-- `ident_start` of the engine. -/
def starts (c : Char) : Bool := isAsciiAlphabetic c || c == '_' || !isAscii c

/-- `ident_cont` of the engine. -/
def continues (c : Char) : Bool := starts c || ('0' ≤ c && c ≤ '9') || c == '$'

/-- `char::to_ascii_lowercase`. -/
def lowerAscii (c : Char) : Char := if 'A' ≤ c && c ≤ 'Z' then c.toLower else c

/-- The characters of a quoted part and what follows its closing quote. -/
def takeQuoted : List Char → Option (List Char × List Char)
  | [] => none
  | '"' :: '"' :: cs => (takeQuoted cs).map fun e => ('"' :: e.1, e.2)
  | '"' :: cs => some ([], cs)
  | c :: cs => (takeQuoted cs).map fun e => (c :: e.1, e.2)

def takePart (whole : String) (text : List Char) : Except TypeParseError (List Char × List Char) :=
  match text with
  | 'u' :: '&' :: _ | 'U' :: '&' :: _ =>
    .error (.badTypeReference whole "a `U&\"…\"` escaped name is not supported; write the name itself in double quotes")
  | '"' :: quoted =>
    match takeQuoted quoted with
    | none => .error (.badTypeReference whole "a quoted name is not closed")
    | some (part, rest) =>
      if part.isEmpty then .error (.badTypeReference whole "a quoted name is empty (`\"\"`)") else .ok (part, rest)
  | _ =>
    if !(text.head?.any starts) then
      .error (.badTypeReference whole
        (if text.head?.any fun c => '0' ≤ c && c ≤ '9' then "a name starting with a digit must be in double quotes"
          else "a name part is empty or does not start like an identifier"))
    else .ok ((text.takeWhile continues).map lowerAscii, text.dropWhile continues)

/-- `str::trim`, of the characters. -/
def trim (text : List Char) : List Char := (((text.dropWhile isWhitespace).reverse).dropWhile isWhitespace).reverse

/-- The two parts of a reference, and whether an array's brackets follow. -/
def qualifiedParts (whole : List Char) : Except TypeParseError (TypeRef × Bool) :=
  let fail {α : Type} (reason : String) : Except TypeParseError α := .error (.badTypeReference (String.ofList whole) reason)
  do
  let (schema, rest) ← takePart (String.ofList whole) whole
  match rest with
  | '.' :: rest =>
    let (name, rest) ← takePart (String.ofList whole) rest
    match rest.dropWhile isWhitespace with
    | [] => pure (⟨String.ofList schema, String.ofList name⟩, false)
    | ['[', ']'] => pure (⟨String.ofList schema, String.ofList name⟩, true)
    | '.' :: _ => fail "a name of three parts is not a type reference"
    | '(' :: _ => fail "a user-defined type takes no arguments"
    | '[' :: _ => .error (.badArray (String.ofList whole))
    | _ => fail "unexpected text after the name"
  | [] => fail "the name is not qualified, and a type is always named with its schema"
  | '(' :: _ => fail "a user-defined type takes no arguments"
  | _ => fail "expected `.` between the schema and the name, with no space around it"

def numbered (beginning part : String) : Bool :=
  beginning.toList.isPrefixOf part.toList && (part.toList.drop beginning.length).all fun c => '0' ≤ c && c ≤ '9'

def checkPart (part : String) (isSchema : Bool) : Option String :=
  if part.isEmpty then some "a name part is empty"
  else if part.toList.contains '\x00' then some "a name part holds a NUL byte"
  else if isSchema then
    if part = "pg_temp" || numbered "pg_temp_" part || numbered "pg_toast_temp_" part then
      some ("`" ++ part ++ "` is a temporary schema, and its types belong to one session")
    else none
  else
    match part.toList with
    | '_' :: element =>
      some ("`" ++ part ++ "` starts with `_`, which is how PostgreSQL spells the array type of `" ++ String.ofList element ++
        "`, so it could not be told from `" ++ String.ofList element ++ "[]`")
    | _ => none

def problem (t : TypeRef) : Option String := (checkPart t.schema true).or (checkPart t.name false)

def parse (text : String) : Except TypeParseError TypeRef := do
  let (user, array) ← qualifiedParts (trim text.toList)
  match user.problem with
  | some reason => .error (.badTypeReference (String.ofList (trim text.toList)) reason)
  | none =>
    if array then .error (.badTypeReference text "an object name cannot have an array suffix") else pure user

/-! ### The canonical spelling reads back -/

section ReadBack

variable {part rest : List Char} {whole : String}

def Ends (rest : List Char) : Prop := rest = [] ∨ ∃ cs, rest = '.' :: cs

/-- What ends a part: nothing, or a character that neither goes on with it nor opens an escape. -/
def Stops (rest : List Char) : Prop := ∀ c ∈ rest.head?, continues c = false ∧ c ≠ '"' ∧ c ≠ '&'

theorem Ends.stops (h : Ends rest) : Stops rest := by
  obtain rfl | ⟨cs, rfl⟩ := h
  · simp [Stops]
  · rintro c ⟨⟩
    decide

theorem Stops.takeWhile_append (h : Stops rest) (hp : part.all continues = true) :
    (part ++ rest).takeWhile continues = part ∧ (part ++ rest).dropWhile continues = rest := by
  have hall : ∀ c ∈ part, continues c = true := all_eq_true.1 hp
  rw [takeWhile_append_of_pos hall, dropWhile_append_of_pos hall]
  cases rest with
  | nil => simp
  | cons c cs =>
    have hc := (h c rfl).1
    rw [takeWhile_cons_of_neg (by simp [hc]), dropWhile_cons_of_neg (by simp [hc]), append_nil]
    exact ⟨rfl, rfl⟩

theorem continues_of_bareChar {c : Char} (h : bareChar c = true) : continues c = true := by
  simp only [bareChar, continues, starts, isAsciiAlphabetic, Bool.or_eq_true, Bool.and_eq_true, decide_eq_true_eq, beq_iff_eq,
    Bool.not_eq_true'] at h ⊢
  tauto

theorem lowerAscii_of_bareChar {c : Char} (h : bareChar c = true) : lowerAscii c = c := by
  rw [lowerAscii, if_neg]
  simp only [bareChar, Bool.or_eq_true, Bool.and_eq_true, decide_eq_true_eq, beq_iff_eq] at h ⊢
  rintro ⟨h1, h2⟩
  obtain ((⟨h3, -⟩ | ⟨-, h3⟩) | rfl) | rfl := h
  · exact absurd (Char.le_trans h3 h2) (by decide)
  · exact absurd (Char.le_trans h1 h3) (by decide)
  · exact absurd h2 (by decide)
  · exact absurd h1 (by decide)

theorem takeQuoted_written (h : rest.head? ≠ some '"') : takeQuoted (doubled part ++ '"' :: rest) = some (part, rest) := by
  induction part with
  | nil =>
    cases rest with
    | nil => rfl
    | cons c cs =>
      rw [doubled, nil_append, takeQuoted]
      rintro cs' ⟨⟩
      exact h rfl
  | cons c cs ih =>
    by_cases hc : c = '"'
    · subst hc
      rw [doubled, if_pos rfl, cons_append, cons_append, takeQuoted, ih]
      rfl
    · rw [doubled, if_neg hc, cons_append, takeQuoted, ih]
      · rfl
      · intro cs' hcc
        exact absurd hcc hc
      · exact hc

theorem takeQuoted_doubled (h : Stops rest) : takeQuoted (doubled part ++ '"' :: rest) = some (part, rest) :=
  takeQuoted_written fun hquote => (h '"' hquote).2.1 rfl

theorem takePart_writePart_ok (h : Stops rest) (hne : part ≠ []) : takePart whole (writePart part ++ rest) = .ok (part, rest) := by
  by_cases hb : isBare part = true
  · cases part with
    | nil => cases hb
    | cons c cs =>
      obtain ⟨hall, hquote⟩ := isBare_all hb
      have hstart : bareStart c = true := by
        rw [isBare, Bool.and_eq_true] at hb
        exact hb.1
      have hcont : (c :: cs).all continues = true := by
        rw [all_eq_true] at hall ⊢
        exact fun x hx => continues_of_bareChar (hall x hx)
      -- The character after a bare part, or within it, is no `&`.
      have hamp : ∀ l, cs ++ rest ≠ '&' :: l := by
        intro l hl
        cases cs with
        | nil =>
          rw [nil_append] at hl
          exact (h '&' (by rw [hl]; rfl)).2.2 rfl
        | cons d ds =>
          rw [cons_append, cons.injEq] at hl
          rw [all_cons, all_cons, hl.1] at hall
          exact absurd hall (by simp [bareChar])
      have hhead : ((c :: cs) ++ rest).head?.any starts = true := by
        simp only [bareStart, Bool.or_eq_true, Bool.and_eq_true, decide_eq_true_eq] at hstart
        simp only [cons_append, head?_cons, Option.any_some, starts, isAsciiAlphabetic, Bool.or_eq_true,
          Bool.and_eq_true, decide_eq_true_eq]
        tauto
      rw [writePart, if_pos hb, takePart.eq_def]
      split
      · next hl => rw [cons_append, cons.injEq] at hl; exact absurd hl.2 (hamp _)
      · next hl => rw [cons_append, cons.injEq] at hl; exact absurd hl.2 (hamp _)
      · next hl => rw [cons_append, cons.injEq] at hl; exact absurd (by rw [hl.1]; rfl) hquote
      · obtain ⟨htake, hdrop⟩ := h.takeWhile_append hcont
        have hlower : (c :: cs).map lowerAscii = c :: cs := by
          conv_rhs => rw [← map_id (c :: cs)]
          exact map_congr_left fun x hx => lowerAscii_of_bareChar (all_eq_true.1 hall x hx)
        rw [hhead, htake, hdrop, hlower, Bool.not_true, if_neg Bool.false_ne_true]
  · rw [writePart, if_neg hb, cons_append, append_assoc, cons_append, nil_append, takePart,
      takeQuoted_doubled h]
    dsimp only
    rw [if_neg (by simpa using hne)]

/-- Two parts that can be written, with a dot between, and an array's brackets or nothing after them, are taken as themselves. -/
theorem qualifiedParts_written {t : TypeRef} (hschema : t.schema.toList ≠ []) (hname : t.name.toList ≠ []) (array : Bool) :
    qualifiedParts (writePart t.schema.toList ++ '.' :: (writePart t.name.toList ++ if array then ['[', ']'] else [])) =
      .ok (t, array) := by
  have hdot : Stops ('.' :: (writePart t.name.toList ++ if array then ['[', ']'] else [])) := by
    rintro c ⟨⟩
    decide
  have hend : Stops (if array then ['[', ']'] else []) := by
    cases array with
    | true =>
      rintro c ⟨⟩
      decide
    | false => simp [Stops]
  rw [qualifiedParts, takePart_writePart_ok hdot hschema]
  show (takePart _ (writePart t.name.toList ++ _) >>= _) = _
  rw [takePart_writePart_ok hend hname]
  cases array with
  | true =>
    show Except.ok (_, true) = _
    rw [String.ofList_toList, String.ofList_toList]
  | false =>
    show Except.ok (_, false) = _
    rw [String.ofList_toList, String.ofList_toList]

theorem takePart_writePart (h : Ends rest) {e : List Char × List Char} (ht : takePart whole (writePart part ++ rest) = .ok e) :
    e = (part, rest) := by
  by_cases hne : part = []
  · -- An empty part is written as two quotes, which no reader takes.
    subst hne
    have hempty : takePart whole ('"' :: ('"' :: rest)) = .ok e := ht
    rw [takePart, ← nil_append ('"' :: rest), show ([] : List Char) = doubled [] from rfl, takeQuoted_doubled h.stops] at hempty
    cases hempty
  · rw [takePart_writePart_ok h.stops hne] at ht
    exact (Except.ok.inj ht).symm

theorem writePart_ends (part : List Char) : (∃ c cs, writePart part = c :: cs ∧ isWhitespace c = false) ∧
    ∃ cs c, writePart part = cs ++ [c] ∧ isWhitespace c = false := by
  have hspace : ∀ c, bareChar c = true → isWhitespace c = false := by
    intro c hc
    simp only [bareChar, Bool.or_eq_true, Bool.and_eq_true, decide_eq_true_eq, beq_iff_eq] at hc
    obtain ((⟨h1, h2⟩ | ⟨h1, h2⟩) | rfl) | rfl := hc
    · have hlow : 97 ≤ c.toNat := h1
      have hhigh : c.toNat ≤ 122 := h2
      simp only [isWhitespace, Bool.or_eq_false_iff, Bool.and_eq_false_iff, decide_eq_false_iff_not, beq_eq_false_iff_ne]
      omega
    · have hlow : 48 ≤ c.toNat := h1
      have hhigh : c.toNat ≤ 57 := h2
      simp only [isWhitespace, Bool.or_eq_false_iff, Bool.and_eq_false_iff, decide_eq_false_iff_not, beq_eq_false_iff_ne]
      omega
    · decide
    · decide
  by_cases hb : isBare part = true
  · rw [writePart, if_pos hb]
    cases part with
    | nil => cases hb
    | cons c cs =>
      have hall := all_eq_true.1 (isBare_all hb).1
      refine ⟨⟨c, cs, rfl, hspace c (hall c (mem_cons_self ..))⟩, (c :: cs).dropLast, (c :: cs).getLast (by simp),
        (dropLast_append_getLast _).symm, hspace _ (hall _ (getLast_mem _))⟩
  · rw [writePart, if_neg hb]
    exact ⟨⟨_, _, rfl, by decide⟩, '"' :: doubled part, '"', rfl, by decide⟩

theorem trim_raw (t : TypeRef) : trim t.raw.toList = writePart t.schema.toList ++ '.' :: writePart t.name.toList := by
  obtain ⟨⟨c, cs, hc, hcs⟩, -⟩ := writePart_ends t.schema.toList
  obtain ⟨-, ds, d, hd, hds⟩ := writePart_ends t.name.toList
  rw [raw, String.toList_ofList, trim]
  have hfirst : (writePart t.schema.toList ++ '.' :: writePart t.name.toList).dropWhile isWhitespace =
      writePart t.schema.toList ++ '.' :: writePart t.name.toList := by
    rw [hc, cons_append, dropWhile_cons_of_neg (by simp [hcs])]
  rw [hfirst, hd, ← cons_append, ← append_assoc, reverse_append, reverse_singleton, singleton_append,
    dropWhile_cons_of_neg (by simp [hds]), reverse_cons, reverse_reverse]

theorem eq_of_parse_raw {t r : TypeRef} (h : parse t.raw = .ok r) : r = t := by
  rw [parse, trim_raw, Except.bind_eq_ok_iff] at h
  obtain ⟨⟨user, array⟩, hparts, h⟩ := h
  have huser : user = t := by
    rw [qualifiedParts, Except.bind_eq_ok_iff] at hparts
    obtain ⟨⟨schema, rest⟩, hschema, hparts⟩ := hparts
    cases takePart_writePart (.inr ⟨_, rfl⟩) hschema
    obtain ⟨⟨name, rest⟩, hname, hparts⟩ := Except.bind_eq_ok_iff.1 hparts
    rw [← append_nil (writePart t.name.toList)] at hname
    cases takePart_writePart (.inl rfl) hname
    cases hparts
    simp
  dsimp only at h
  split at h
  · cases h
  · split at h
    · cases h
    · cases h
      exact huser

end ReadBack

end TypeRef

end Pbps
