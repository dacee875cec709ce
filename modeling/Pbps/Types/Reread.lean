/-
Column types survive their text form: what `from_str` makes of a text, it makes of the spelling that `raw` gives it.
The one exception is an argument after the first that begins with the word `array` and goes on.
-/
import Pbps.Types.Spelling

namespace Pbps.ColumnType

open TypeRef (trim lowerAscii qualifiedParts takePart takeQuoted writePart isBare doubled bareChar)
open Load (trim_trim trim_sublist not_mem_of_mem_splitOn)
open Words
open List Option
open String (toList_ofList)

/-! ## What the reader leaves -/

variable {s text : List Char} {t : ColumnType} {user : TypeRef}

theorem exists_parens (hopen : '(' ∈ s) (hclose : ')' ∈ s) (hlt : ¬ s.length - 1 - s.reverse.idxOf ')' < s.idxOf '(') :
    ∃ x y z, s = x ++ '(' :: (y ++ ')' :: z) ∧ '(' ∉ x ∧ ')' ∉ z := by
  obtain ⟨x, rest, rfl, hx⟩ := eq_append_cons_of_mem hopen
  by_cases hmem : ')' ∈ rest
  · obtain ⟨z, y, hrev, hz⟩ := eq_append_cons_of_mem (mem_reverse.2 hmem)
    refine ⟨x, y.reverse, z.reverse, ?_, hx, by simpa using hz⟩
    rw [← reverse_reverse rest, hrev]
    simp
  · -- The last closing one stands before the first opening one.
    exfalso
    apply hlt
    have hxmem : ')' ∈ x := by
      rcases mem_append.1 hclose with h | h
      · exact h
      · rcases mem_cons.1 h with h | h
        · exact absurd h (by decide)
        · exact absurd h hmem
    have hopenAt : (x ++ '(' :: rest).idxOf '(' = x.length := by
      rw [idxOf_append_of_notMem hx, idxOf_cons_self, Nat.add_zero]
    have hcloseAt : rest.length + 1 ≤ (x ++ '(' :: rest).reverse.idxOf ')' := by
      have hnot : ')' ∉ (rest.reverse ++ ['(']) := by simpa using hmem
      rw [reverse_append, reverse_cons, idxOf_append_of_notMem hnot]
      simp
    have hpos := length_pos_of_mem hxmem
    rw [hopenAt, length_append, length_cons]
    omega

theorem parsePlain_cases (h : parsePlain s = some t) :
    '(' ∉ s ∨ ∃ x y z, s = x ++ '(' :: (y ++ ')' :: z) ∧ '(' ∉ x ∧ ')' ∉ z := by
  by_cases hopen : '(' ∈ s
  · right
    have hne : s ≠ [] := ne_nil_of_mem hopen
    have hscalar := scalar_of_parsePlain hne h
    unfold parsePlain at h
    rw [if_neg ((scalar_iff hne).1 hscalar), if_neg (by simpa using hopen)] at h
    dsimp only at h
    split_ifs at h with hclose hlt
    · exact exists_parens hopen (by simpa using hclose) hlt
    · exact exists_parens hopen (by simpa using hclose) hlt
  · exact .inl hopen

theorem hasArray_of_mem_splitOn {p : List Char} : ∀ {l : List (List Char)}, p ∈ l → HasArray ('(' :: (p ++ ['('])) →
    HasArray ('(' :: ([','].intercalate l ++ ['(']))
  | [q], hp, h => by
    rw [mem_singleton] at hp
    rwa [intercalate_singleton, ← hp]
  | q :: r :: l, hp, h => by
    have hsplit : '(' :: ([','].intercalate (q :: r :: l) ++ ['(']) =
        ('(' :: q) ++ ',' :: ([','].intercalate (r :: l) ++ ['(']) := by
      simp [intercalate_cons_cons]
    rw [hsplit, hasArray_append_mark (by decide)]
    rcases mem_cons.1 hp with rfl | hp
    · exact .inl h
    · exact .inr (hasArray_of_mem_splitOn hp h)

theorem hasArray_trim (x : List Char) : HasArray (trim x) ↔ HasArray x := by
  rw [HasArray, HasArray, splitWhitespace_trim]

theorem splitWhitespace_join (x : List Char) : splitWhitespace ([' '].intercalate (splitWhitespace x)) = splitWhitespace x :=
  splitWhitespace_intercalate fun _ hw => ⟨(of_mem_splitWhitespace hw).1, fun c hc => ((of_mem_splitWhitespace hw).2 c hc).2⟩

/-- A type the reader makes, and the texts its arguments were read from. -/
structure ReadFrom (texts : List (List Char)) (t : ColumnType) : Prop where
  plain : Plain t
  args : Forall₂ (fun p a => parseArg p = some a) texts t.args

theorem readFrom_bare (hs : '(' ∉ s) {t : ColumnType} (h : parsePlain s = some t) : ReadFrom [] t := by
  obtain ⟨⟨-, harray⟩, hbase⟩ := (parsePlain_bare hs).1 h
  obtain ⟨⟨hne, hchars⟩, rfl⟩ := finishBase_eq_some.1 hbase
  have hname : Named (String.ofList (toAsciiLowercase (trim s))).toList := by
    rw [toList_ofList]
    exact named_lower hne hchars
  refine ⟨⟨rfl, hname, by simp, by simp, fun _ => ?_, by simp, (by decide : ¬ HasArray [])⟩, .nil⟩
  show ¬ HasArray (String.ofList (toAsciiLowercase (trim s))).toList
  rwa [toList_ofList, hasArray_toAsciiLowercase, hasArray_trim]

section Parens

variable {x y z : List Char} {args : List TypeArg} (hscalar : Scalar (x ++ '(' :: (y ++ ')' :: z)))
  (hargs : Forall₂ (fun p a => parseArg p = some a) (y.splitOn ',') args)
include hscalar

theorem not_hasArray_parts : ¬ HasArray (x ++ ['(']) ∧ ¬ HasArray ('(' :: (y ++ ['('])) ∧ ¬ HasArray ('(' :: z) := by
  have h := hscalar.2
  rw [hasArray_append_mark (by decide), ← cons_append, hasArray_append_mark (by decide) ('(' :: y), not_or, not_or] at h
  exact h

theorem not_hasArray_front : ¬ HasArray (toAsciiLowercase (trim x) ++ ['(']) := by
  have hlower : toAsciiLowercase (trim x) ++ ['('] = toAsciiLowercase (trim x ++ ['(']) := by
    rw [toAsciiLowercase, toAsciiLowercase, map_append]
    rfl
  rw [hlower, hasArray_toAsciiLowercase]
  exact fun harray => (not_hasArray_parts hscalar).1 (hasArray_of_trim_append_mark harray)

include hargs

theorem listed_of_parens : args ≠ [] ∧ ∀ a ∈ args, Listed a ∧ ¬ HasArray ('(' :: (a.raw.toList ++ ['('])) := by
  constructor
  · rintro rfl
    exact splitOn_ne_nil ',' y (forall₂_nil_right_iff.1 hargs)
  · intro a ha
    obtain ⟨p, hp, hread⟩ := hargs.exists_of_mem_right ha
    have hpy : ∀ c ∈ p, c ∈ y := by
      intro c hc
      rw [← show [','].intercalate (y.splitOn ',') = y from intercalate_splitOn ',']
      exact mem_intercalate_of_mem hc hp
    refine ⟨listed_of_parseArg hread fun c hc => ⟨?_, ?_, ?_⟩, fun harray => ?_⟩
    · rintro rfl
      exact not_mem_of_mem_splitOn hp hc
    · rintro rfl
      exact hscalar.1.1 (by simp [hpy _ hc])
    · rintro rfl
      exact hscalar.1.2 (by simp [hpy _ hc])
    · have hy := hasArray_of_mem_splitOn hp (hasArray_marks_raw hread harray)
      rw [intercalate_splitOn] at hy
      exact (not_hasArray_parts hscalar).2.1 hy

variable {t : ColumnType}

theorem plain_after (h : finishBase x args = some t) : Plain t ∧ t.args = args := by
  obtain ⟨hne, hlisted⟩ := listed_of_parens hscalar hargs
  obtain ⟨⟨hbase, hchars⟩, rfl⟩ := finishBase_eq_some.1 h
  have hname : Named (String.ofList (toAsciiLowercase (trim x))).toList := by
    rw [toList_ofList]
    exact named_lower hbase hchars
  refine ⟨⟨rfl, hname, hlisted, by simp, fun hnil => absurd hnil hne, fun _ => ?_, (by decide : ¬ HasArray [])⟩, rfl⟩
  have hparts : (nameParts { base := String.ofList (toAsciiLowercase (trim x)), args }).1 = toAsciiLowercase (trim x) :=
    toList_ofList
  rw [hparts]
  exact not_hasArray_front hscalar

theorem plain_between (hsuffix : SuffixOk z) (hz : trim z ≠ []) (h : finishParens x z args = some t) :
    Plain t ∧ t.args = args := by
  obtain ⟨hne, hlisted⟩ := listed_of_parens hscalar hargs
  obtain ⟨hspace, -⟩ := hsuffix.resolve_left hz
  rw [finishParens, if_neg (by simpa using hz)] at h
  obtain ⟨front, hfront, h⟩ := bind_eq_some_iff.1 h
  obtain ⟨whole, hwhole, h⟩ := bind_eq_some_iff.1 h
  obtain ⟨⟨hxne, hxchars⟩, rfl⟩ := finishBase_eq_some.1 hfront
  obtain ⟨⟨hwne, hwchars⟩, rfl⟩ := finishBase_eq_some.1 hwhole
  have hF := named_lower hxne hxchars
  have hW := named_lower hwne hwchars
  rw [toList_ofList] at h hwne hwchars hW
  generalize hf : splitWhitespace (toAsciiLowercase (trim x)) = f at h
  generalize hr : splitWhitespace (toAsciiLowercase (trim z)) = r
  have hws : splitWhitespace (toAsciiLowercase (trim (toAsciiLowercase (trim x) ++ ' ' :: trim z))) = f ++ r := by
    rw [splitWhitespace_toAsciiLowercase, splitWhitespace_trim, splitWhitespace_append_space (by decide), map_append,
      ← splitWhitespace_toAsciiLowercase, ← splitWhitespace_toAsciiLowercase, toAsciiLowercase_idem, hf, hr]
  have hwords : ∀ w ∈ f ++ r, NameWord w := fun w hw => nameWord_of_mem hW.chars (hws ▸ hw)
  unfold withArgsAfterWord at h
  dsimp only at h
  rw [toList_ofList, hws] at h
  obtain ⟨hpos, h⟩ := ite_none_left_eq_some.1 h
  simp only [Bool.or_eq_true, decide_eq_true_eq, not_or, length_append] at hpos
  obtain ⟨⟨-, hfpos⟩, hlt⟩ := hpos
  obtain rfl := some.inj h
  have hfne : f ≠ [] := fun hnil => hfpos (by rw [hnil]; rfl)
  have hrne : r ≠ [] := by
    rintro rfl
    simp at hlt
  have hjoin : splitWhitespace ([' '].intercalate (f ++ r)) = f ++ r :=
    splitWhitespace_intercalate fun w hw => ⟨(hwords w hw).nonempty, (hwords w hw).spaceless⟩
  have hfjoin : splitWhitespace ([' '].intercalate f) = f := splitWhitespace_intercalate fun w hw =>
    ⟨(hwords w (mem_append_left _ hw)).nonempty, (hwords w (mem_append_left _ hw)).spaceless⟩
  have hparts : splitAtWord f.length ([' '].intercalate (f ++ r)) = ([' '].intercalate f, ' ' :: [' '].intercalate r) := by
    rw [splitAtWord_intercalate hfpos (by rw [length_append]; omega) fun w hw => (hwords w hw).spaceless,
      take_left, drop_left]
  refine ⟨⟨rfl, ?_, hlisted, ?_, fun hnil => absurd hnil hne, fun _ => ?_, ?_⟩, rfl⟩
  · rw [toList_ofList]
    exact named_intercalate (by simp [hfne]) hwords
  · intro n hn
    obtain rfl := some.inj hn
    rw [toList_ofList, hjoin, length_append]
    exact ⟨hne, hfpos, by omega, rfl⟩
  · show ¬ HasArray ((splitAtWord f.length (String.ofList ([' '].intercalate (f ++ r))).toList).1 ++ ['('])
    have hnamed := named_intercalate hfne fun w hw => hwords w (mem_append_left _ hw)
    rw [toList_ofList, hparts, hasArray_append_mark_words (ends_of_trim hnamed.trimmed).2, hfjoin, ← hf,
      ← hasArray_append_mark_words (ends_of_trim hF.trimmed).2]
    exact not_hasArray_front hscalar
  · show ¬ HasArray (splitAtWord f.length (String.ofList ([' '].intercalate (f ++ r))).toList).2
    rw [toList_ofList, hparts, hasArray_cons_space (by decide), HasArray, ← hr, splitWhitespace_join]
    show ¬ HasArray (toAsciiLowercase (trim z))
    rw [hasArray_toAsciiLowercase, hasArray_trim]
    -- What follows the parenthesis begins with a space.
    cases z with
    | nil => cases hspace
    | cons c z =>
      have hc : isWhitespace c = true := hspace
      have hmark := hasArray_append_space hc ['('] z
      have hafter := (not_hasArray_parts hscalar).2.2
      rw [singleton_append] at hmark
      rw [hmark, not_or] at hafter
      rw [hasArray_cons_space hc]
      exact hafter.2

theorem readFrom_parens (hsuffix : SuffixOk z) (h : finishParens x z args = some t) : ReadFrom (y.splitOn ',') t := by
  by_cases hz : trim z = []
  · rw [finishParens, if_pos (by simp [hz])] at h
    obtain ⟨hplain, rfl⟩ := plain_after hscalar hargs h
    exact ⟨hplain, hargs⟩
  · obtain ⟨hplain, rfl⟩ := plain_between hscalar hargs hsuffix hz h
    exact ⟨hplain, hargs⟩

end Parens

/-- The texts between the parentheses of a spelling, which its commas part; a reference has none. -/
def argTexts (text : List Char) : List (List Char) :=
  let s := trim text
  if namesATypeReference s || '(' ∉ s then []
  else ((s.take (s.length - 1 - s.reverse.idxOf ')')).drop (s.idxOf '(' + 1)).splitOn ','

theorem argTexts_bare (hs : '(' ∉ trim text) : argTexts text = [] := by
  rw [argTexts, if_pos (by simp [hs])]

theorem argTexts_parens {text x y z : List Char} (hplain : namesATypeReference (trim text) = false)
    (hs : trim text = x ++ '(' :: (y ++ ')' :: z)) (hx : '(' ∉ x) (hz : ')' ∉ z) : argTexts text = y.splitOn ',' := by
  obtain ⟨⟨hopen, hclose⟩, hbetween, -⟩ := cut_parens hx hz hs
  unfold argTexts
  dsimp only
  rw [hplain, if_neg (by rw [hs]; simp), hopen, hclose, hbetween]

theorem readFrom_argTexts {text rest : List Char} {t : ColumnType} (hplain : namesATypeReference (trim text) = false)
    {s : List Char} (hs : trim text = s ++ rest) (hrest : '(' ∉ rest ∧ ')' ∉ rest) (h : parsePlain s = some t) :
    ReadFrom (argTexts text) t := by
  rcases parsePlain_cases h with hopen | ⟨x, y, z, rfl, hx, hz⟩
  · rw [argTexts_bare]
    · exact readFrom_bare hopen h
    · rw [hs, mem_append, not_or]
      exact ⟨hopen, hrest.1⟩
  · rw [argTexts_parens hplain (y := y) (z := z ++ rest) (by rw [hs]; simp) hx]
    · obtain ⟨hscalar, hsuffix, args, hargs, hfinish⟩ := (parsePlain_parens hx hz).1 h
      exact readFrom_parens hscalar hargs hsuffix hfinish
    · rw [mem_append, not_or]
      exact ⟨hz, hrest.2⟩

theorem ReadFrom.withArray {texts : List (List Char)} (h : ReadFrom texts t) :
    ReadFrom texts { t with array := true } :=
  ⟨⟨h.plain.user, h.plain.name, h.plain.args, h.plain.position, h.plain.bare, h.plain.before, h.plain.after⟩, h.args⟩

theorem readFrom_parse (hplain : namesATypeReference (trim text) = false) (h : parse text = some t) :
    ReadFrom (argTexts text) t := by
  simp only [parse, hplain, Bool.false_eq_true, if_false] at h
  split_ifs at h with hempty harray
  · obtain ⟨u, hu, rfl⟩ := map_eq_some_iff.1 h
    apply ReadFrom.withArray
    obtain ⟨front, hfront⟩ := harray
    have htake : (trim text).take ((trim text).length - 2) = front := by
      rw [← hfront]
      simp
    rw [htake] at hu
    -- The text has no space before it, so the element's begins where the text does.
    obtain ⟨l, r, hsplit, hl, hr⟩ := exists_trim front
    have hhead := (ends_of_trim (trim_trim text)).1
    have hnil : l = [] := by
      cases l with
      | nil => rfl
      | cons c l =>
        have hc := hhead c (by rw [← hfront, hsplit]; rfl)
        rw [hl c mem_cons_self] at hc
        cases hc
    have hspace : ∀ c, isWhitespace c = false → c ∉ r := by
      intro c hc hmem
      rw [hr c hmem] at hc
      cases hc
    have hwhole : trim text = trim front ++ (r ++ ['[', ']']) := by
      rw [← hfront]
      conv_lhs => rw [hsplit, hnil, nil_append, append_assoc]
    refine readFrom_argTexts hplain hwhole ⟨?_, ?_⟩ hu
    · simpa using hspace '(' (by decide)
    · simpa using hspace ')' (by decide)
  · exact readFrom_argTexts hplain (append_nil _).symm ⟨by simp, by simp⟩ h

theorem ReadFrom.apart_iff {texts : List (List Char)} (h : ReadFrom texts t) :
    Apart t ↔ ∀ p ∈ texts.tail, ∀ w ∈ (splitWhitespace p).dropLast, toAsciiLowercase w ≠ "array".toList := by
  have htail : Forall₂ (fun p a => parseArg p = some a) texts.tail t.args.tail := by
    have hargs := h.args
    generalize t.args = args at hargs
    cases hargs with
    | nil => exact .nil
    | cons _ hrest => exact hrest
  constructor
  · intro hapart p hp w hw heq
    obtain ⟨a, ha, hread⟩ := htail.exists_of_mem_left hp
    exact hapart a ha ((hasArray_raw_append hread).2 ⟨w, hw, heq⟩)
  · intro htexts a ha harray
    obtain ⟨p, hp, hread⟩ := htail.exists_of_mem_right ha
    obtain ⟨w, hw, heq⟩ := (hasArray_raw_append hread).1 harray
    exact htexts p hp w hw heq

/-! ## References -/

def ofReference (user : TypeRef) (array : Bool) : ColumnType := { base := user.raw, array, user := some user }

theorem nonempty_of_problem (h : user.problem = none) : user.schema.toList ≠ [] ∧ user.name.toList ≠ [] := by
  rw [TypeRef.problem, or_eq_none_iff] at h
  have hpart : ∀ (part : String) (isSchema : Bool), TypeRef.checkPart part isSchema = none → part.toList ≠ [] := by
    intro part isSchema hcheck hnil
    have hempty : part.isEmpty = true := by rw [String.isEmpty_iff]; exact String.toList_eq_nil_iff.1 hnil
    rw [TypeRef.checkPart, if_pos hempty] at hcheck
    cases hcheck
  exact ⟨hpart _ _ h.1, hpart _ _ h.2⟩

theorem raw_ofReference (user : TypeRef) (array : Bool) : (ofReference user array).raw.toList =
    writePart user.schema.toList ++ '.' :: (writePart user.name.toList ++ if array then ['[', ']'] else []) := by
  rw [raw_toList, body]
  show user.raw.toList ++ [] ++ [] ++ (if array then ['[', ']'] else []) = _
  rw [append_nil, append_nil, TypeRef.raw, toList_ofList, append_assoc, cons_append]

theorem trim_raw_ofReference (user : TypeRef) (array : Bool) :
    trim (ofReference user array).raw.toList = (ofReference user array).raw.toList := by
  obtain ⟨⟨c, cs, hc, hcs⟩, -⟩ := TypeRef.writePart_ends user.schema.toList
  obtain ⟨-, ds, d, hd, hds⟩ := TypeRef.writePart_ends user.name.toList
  rw [raw_ofReference]
  apply trim_eq_self
  · intro e he
    rw [hc, cons_append, head?_cons, mem_some] at he
    rwa [← he]
  · intro e he
    rw [getLast?_append_of_ne_nil _ (cons_ne_nil _ _), ← cons_append] at he
    split_ifs at he
    · rw [getLast?_append_of_ne_nil _ (cons_ne_nil _ _)] at he
      obtain rfl : ']' = e := by simpa using he
      decide
    · rw [append_nil, hd, ← cons_append, getLast?_concat, mem_some] at he
      rwa [← he]

theorem namesATypeReference_ofReference (user : TypeRef) (array : Bool) :
    namesATypeReference (ofReference user array).raw.toList = true := by
  rw [raw_ofReference, namesATypeReference, Bool.or_eq_true]
  by_cases hb : isBare user.schema.toList = true
  · right
    have hchars := List.all_eq_true.1 (TypeRef.isBare_all hb).1
    have hpos : ∀ c ∈ user.schema.toList, (decide (c ≠ '(') && decide (c ≠ '[')) = true := by
      intro c hc
      have hne : c ≠ '(' ∧ c ≠ '[' := by
        constructor
        · rintro rfl
          exact absurd (hchars _ hc) (by decide)
        · rintro rfl
          exact absurd (hchars _ hc) (by decide)
      simp [hne]
    rw [writePart, if_pos hb, takeWhile_append_of_pos hpos, any_append, Bool.or_eq_true]
    right
    rw [takeWhile_cons_of_pos (by decide)]
    rfl
  · left
    rw [writePart, if_neg hb]
    rfl

theorem qualifiedParts_ofReference (h : user.problem = none) (array : Bool) :
    qualifiedParts (ofReference user array).raw.toList = .ok (user, array) := by
  obtain ⟨hschema, hname⟩ := nonempty_of_problem h
  rw [raw_ofReference, TypeRef.qualifiedParts_written hschema hname]

theorem parse_raw_ofReference (h : user.problem = none) (array : Bool) :
    parse (ofReference user array).raw.toList = some (ofReference user array) := by
  have hne : (ofReference user array).raw.toList.isEmpty = false := by
    rw [raw_ofReference]
    simp
  unfold parse
  dsimp only
  rw [trim_raw_ofReference, hne, if_neg Bool.false_ne_true, if_pos (namesATypeReference_ofReference user array),
    parseReference, qualifiedParts_ofReference h]
  dsimp only
  rw [h, if_neg (by simp)]
  rfl

theorem parse_reference (href : namesATypeReference (trim text) = true) (h : parse text = some t) :
    ∃ user array, t = ofReference user array ∧ user.problem = none := by
  unfold parse at h
  dsimp only at h
  rw [if_pos href] at h
  split_ifs at h
  unfold parseReference at h
  split at h
  next user array hparts =>
    split_ifs at h with hproblem
    exact ⟨user, array, (some.inj h).symm, by simpa using hproblem⟩
  next => cases h

/-! ## The round trip -/

/-- What the reader makes of a text it makes of its own spelling, unless an argument after the first has the word
`array` before another of its words. -/
theorem parse_raw_iff {text : List Char} {t : ColumnType} (h : parse text = some t) : parse t.raw.toList = some t ↔
      ∀ p ∈ (argTexts text).tail, ∀ w ∈ (splitWhitespace p).dropLast, toAsciiLowercase w ≠ "array".toList := by
  cases href : namesATypeReference (trim text) with
  | true =>
    obtain ⟨user, array, rfl, hproblem⟩ := parse_reference href h
    have hnone : argTexts text = [] := by rw [argTexts, if_pos (by simp [href])]
    rw [hnone]
    exact iff_of_true (parse_raw_ofReference hproblem array) (by simp)
  | false =>
    have hread := readFrom_parse href h
    rw [← hread.apart_iff, hread.plain.parse_raw]

/-- Such an argument is refused once it is written with a space before it. -/
theorem parse_raw_array : ¬ ∀ (text : List Char) (t : ColumnType), parse text = some t → parse t.raw.toList = some t := by
  intro h
  have hread : parse "foo(a,array b)".toList = some { base := "foo", args := [.ident "a", .ident "array b"] } := by decide
  have hraw : parse "foo(a, array b)".toList = none := by decide
  have := h _ _ hread
  rw [show (ColumnType.raw _).toList = "foo(a, array b)".toList by decide, hraw] at this
  cases this

/-- Arguments in the middle of a name. -/
theorem parse_raw_timestamp : parse (ColumnType.raw ⟨"timestamp with time zone", [.int 3], some 1, true, none⟩).toList =
    some ⟨"timestamp with time zone", [.int 3], some 1, true, none⟩ := by
  have hread : parse " TIMESTAMP( 3 )  With time zone []".toList =
      some ⟨"timestamp with time zone", [.int 3], some 1, true, none⟩ := by decide
  exact (parse_raw_iff hread).2 (by decide)

end Pbps.ColumnType
