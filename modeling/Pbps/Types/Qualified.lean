/-
Qualified names as text: what `TypeRef::new`, `CollationName` and `OpClassRef` of `types.rs` accept, and which of it is read
back from its spelling. An operator class of the engine's own is written as it is held, without the quotes a name may need.
-/
import Pbps.Model.Escape
import Pbps.Types.Words

namespace Pbps

open TypeRef (trim takePart takeQuoted qualifiedParts writePart doubled starts continues lowerAscii Stops)
open Load (trim_trim)

/-! ## The references -/

def TypeRef.new (schema name : String) : Except TypeParseError TypeRef :=
  match problem ⟨schema, name⟩ with
  | some reason => .error (.badTypeReference (Escape.escaped (raw ⟨schema, name⟩)) reason)
  | none => .ok ⟨schema, name⟩

def holdsNul (s : String) : Bool := s.toList.contains '\x00'

def CollationName.fromStr (text : String) : Except TypeParseError CollationName := do
  let (name, array) ← qualifiedParts (trim text.toList)
  if array || name.schema.isEmpty || name.name.isEmpty || holdsNul name.schema || holdsNul name.name then
    .error (.badTypeReference text "expected a qualified collation name")
  else pure ⟨name⟩

namespace OpClassRef

/-- A class by schema and name: the engine's `pg_catalog` is the bare form. -/
def inSchema (schema name : String) : OpClassRef :=
  if schema = "pg_catalog" then .bare name else .qualified ⟨schema, name⟩

def raw : OpClassRef → String
  | .bare name => name
  | .qualified ref => ref.raw

/-- A text with no `.` and no quote is a bare class, verbatim. -/
def fromStr (text : String) : Except TypeParseError OpClassRef :=
  let text := trim text.toList
  if !(text.contains '.' || text.contains '"') then .ok (.bare (String.ofList text))
  else do
    let (name, array) ← qualifiedParts text
    if array || name.name.isEmpty || holdsNul name.schema || holdsNul name.name then
      .error (.badTypeReference (String.ofList text) "expected a qualified operator class name")
    else pure (inSchema name.schema name.name)

end OpClassRef

/-! ## A part, as it may be spelled -/

/-- A spelling of a part: in quotes with a quote doubled, or bare, an ASCII letter of either case for the lower one. -/
def SpellsPart (spelling part : List Char) : Prop :=
  part ≠ [] ∧ spelling = '"' :: (doubled part ++ ['"']) ∨
    (∃ c cs, spelling = c :: cs ∧ starts c = true) ∧ spelling.all continues = true ∧ part = spelling.map lowerAscii

theorem takeQuoted_eq_some : ∀ {quoted part rest : List Char}, takeQuoted quoted = some (part, rest) →
    quoted = doubled part ++ '"' :: rest := by
  intro quoted
  fun_induction takeQuoted quoted with
  | case1 =>
    intro part rest h
    cases h
  | case2 cs ih =>
    intro part rest h
    obtain ⟨e, he, heq⟩ := Option.map_eq_some_iff.1 h
    obtain ⟨rfl, rfl⟩ := Prod.mk.inj heq
    rw [ih he, doubled, if_pos rfl]
    rfl
  | case3 cs =>
    intro part rest h
    obtain ⟨rfl, rfl⟩ := Prod.mk.inj (Option.some.inj h)
    rfl
  | case4 c cs _ hc ih =>
    intro part rest h
    obtain ⟨e, he, heq⟩ := Option.map_eq_some_iff.1 h
    obtain ⟨rfl, rfl⟩ := Prod.mk.inj heq
    have hne : c ≠ '"' := fun heq => hc heq
    rw [ih he, doubled, if_neg hne]
    rfl

variable {text part spelling : List Char} {t : TypeRef}

variable {whole : String} {rest : List Char}

theorem spellsPart_of_takePart (h : takePart whole text = .ok (part, rest)) :
    ∃ spelling, text = spelling ++ rest ∧ SpellsPart spelling part := by
  rw [TypeRef.takePart.eq_def] at h
  split at h
  · cases h
  · cases h
  · next quoted =>
    split at h
    · cases h
    · next part' rest' hquoted =>
      split at h
      · cases h
      · next hne =>
        obtain ⟨rfl, rfl⟩ := Prod.mk.inj (Except.ok.inj h)
        refine ⟨'"' :: (doubled part' ++ ['"']), ?_, .inl ⟨by simpa using hne, rfl⟩⟩
        rw [takeQuoted_eq_some hquoted, List.cons_append, List.append_assoc]
        rfl
  · split at h
    · cases h
    · next hstarts =>
      obtain ⟨rfl, rfl⟩ := Prod.mk.inj (Except.ok.inj h)
      refine ⟨text.takeWhile continues, List.takeWhile_append_dropWhile.symm, .inr ⟨?_, List.all_takeWhile, rfl⟩⟩
      cases text with
      | nil => simp at hstarts
      | cons c cs =>
        have hc : starts c = true := by simpa using hstarts
        have hcontinues : continues c = true := by rw [continues, hc]; rfl
        exact ⟨c, cs.takeWhile continues, by rw [List.takeWhile_cons_of_pos hcontinues], hc⟩

theorem takePart_of_spellsPart (h : SpellsPart spelling part) (hrest : Stops rest) :
    takePart whole (spelling ++ rest) = .ok (part, rest) := by
  rcases h with ⟨hne, rfl⟩ | ⟨⟨c, cs, rfl, hstarts⟩, hall, rfl⟩
  · rw [List.cons_append, List.append_assoc, List.singleton_append, takePart, TypeRef.takeQuoted_doubled hrest]
    dsimp only
    rw [if_neg (by simpa using hne)]
  · obtain ⟨htake, hdrop⟩ := hrest.takeWhile_append hall
    -- neither a quote nor the mark of an escape starts a bare part
    have hamp : ∀ l, cs ++ rest ≠ '&' :: l := by
      intro l hl
      cases cs with
      | nil => exact (hrest '&' (by rw [List.nil_append] at hl; rw [hl]; rfl)).2.2 rfl
      | cons d ds =>
        rw [List.all_cons, List.all_cons, (List.cons.inj hl).1] at hall
        exact absurd hall (by simp [continues, starts, TypeRef.isAsciiAlphabetic, isAscii])
    rw [TypeRef.takePart.eq_def]
    split
    · next hl => exact absurd (List.cons.inj hl).2 (hamp _)
    · next hl => exact absurd (List.cons.inj hl).2 (hamp _)
    · next hl =>
      rw [(List.cons.inj hl).1] at hstarts
      exact absurd hstarts (by decide)
    · have hhead : ((c :: cs) ++ rest).head?.any starts = true := hstarts
      rw [hhead, htake, hdrop, Bool.not_true, if_neg Bool.false_ne_true]

theorem SpellsPart.ne_nil (h : SpellsPart spelling part) : part ≠ [] := by
  rcases h with ⟨hne, -⟩ | ⟨⟨c, cs, rfl, -⟩, -, rfl⟩
  · exact hne
  · exact List.cons_ne_nil _ _

theorem length_le_doubled (part : List Char) : part.length ≤ (doubled part).length := by
  induction part with
  | nil => exact Nat.le_refl 0
  | cons c cs ih =>
    rw [doubled]
    split
    · exact Nat.le_trans (Nat.succ_le_succ ih) (Nat.le_succ _)
    · exact Nat.succ_le_succ ih

theorem SpellsPart.length_le (h : SpellsPart spelling part) : part.length ≤ spelling.length := by
  rcases h with ⟨-, rfl⟩ | ⟨-, -, rfl⟩
  · have hle := length_le_doubled part
    rw [List.length_cons, List.length_append]
    omega
  · rw [List.length_map]

theorem spelled_of_qualifiedParts {array : Bool} (h : qualifiedParts text = .ok (t, array)) :
    ∃ a b rest, text = a ++ '.' :: (b ++ rest) ∧ SpellsPart a t.schema.toList ∧ SpellsPart b t.name.toList ∧
      rest.dropWhile isWhitespace = if array then ['[', ']'] else [] := by
  rw [qualifiedParts, Except.bind_eq_ok_iff] at h
  obtain ⟨⟨schema, rest⟩, hschema, h⟩ := h
  obtain ⟨a, rfl, ha⟩ := spellsPart_of_takePart hschema
  dsimp only at h
  split at h
  case h_1 rest =>
    obtain ⟨⟨name, tail⟩, hname, h⟩ := Except.bind_eq_ok_iff.1 h
    obtain ⟨b, rfl, hb⟩ := spellsPart_of_takePart hname
    dsimp only at h
    split at h
    case h_1 htail =>
      obtain ⟨rfl, rfl⟩ := Prod.mk.inj (Except.ok.inj h)
      exact ⟨a, b, tail, rfl, by rwa [String.toList_ofList], by rwa [String.toList_ofList], htail⟩
    case h_2 htail =>
      obtain ⟨rfl, rfl⟩ := Prod.mk.inj (Except.ok.inj h)
      exact ⟨a, b, tail, rfl, by rwa [String.toList_ofList], by rwa [String.toList_ofList], htail⟩
    all_goals cases h
  all_goals cases h

theorem spelled_of_trimmed (htrim : trim text = text) (h : qualifiedParts text = .ok (t, false)) :
    ∃ a b, text = a ++ '.' :: b ∧ SpellsPart a t.schema.toList ∧ SpellsPart b t.name.toList := by
  obtain ⟨a, b, rest, rfl, ha, hb, hrest⟩ := spelled_of_qualifiedParts h
  have hspaces : ∀ c ∈ rest, isWhitespace c = true := List.dropWhile_eq_nil_iff.1 hrest
  cases hlast : rest.getLast? with
  | none =>
    rw [List.getLast?_eq_none_iff] at hlast
    exact ⟨a, b, by rw [hlast, List.append_nil], ha, hb⟩
  | some c =>
    have hc := (Words.ends_of_trim htrim).2 c (by
      rw [← List.cons_append, ← List.append_assoc, List.getLast?_append, hlast]
      rfl)
    rw [hspaces c (List.mem_of_getLast? hlast)] at hc
    cases hc

theorem qualifiedParts_of_spelled {a b schema name : List Char} (ha : SpellsPart a schema) (hb : SpellsPart b name) :
    qualifiedParts (a ++ '.' :: b) = .ok (⟨String.ofList schema, String.ofList name⟩, false) := by
  have hdot : Stops ('.' :: b) := by
    rintro c ⟨⟩
    decide
  have hend : Stops [] := by simp [Stops]
  rw [qualifiedParts, takePart_of_spellsPart ha hdot]
  show (takePart _ b >>= _) = _
  rw [← List.append_nil b, takePart_of_spellsPart hb hend]
  rfl

/-! ## Two parts survive their spelling -/

theorem toList_ne_nil {s : String} (h : s ≠ "") : s.toList ≠ [] := fun hnil => h (String.toList_eq_nil_iff.1 hnil)

theorem qualifiedParts_raw (hschema : t.schema ≠ "") (hname : t.name ≠ "") :
    qualifiedParts (trim t.raw.toList) = .ok (t, false) := by
  have h := TypeRef.qualifiedParts_written (toList_ne_nil hschema) (toList_ne_nil hname) false
  rw [TypeRef.trim_raw]
  rwa [if_neg Bool.false_ne_true, List.append_nil] at h

theorem TypeRef.parse_raw (h : t.problem = none) : parse t.raw = .ok t := by
  have hne : t.schema ≠ "" ∧ t.name ≠ "" := by
    rw [problem, Option.or_eq_none_iff] at h
    have hpart : ∀ (part : String) (isSchema : Bool), checkPart part isSchema = none → part ≠ "" := by
      rintro part isSchema hcheck rfl
      cases hcheck
    exact ⟨hpart _ _ h.1, hpart _ _ h.2⟩
  rw [parse, qualifiedParts_raw hne.1 hne.2]
  show (match t.problem with | some reason => _ | none => _) = _
  rw [h]
  rfl

theorem CollationName.fromStr_raw (hschema : t.schema ≠ "") (hname : t.name ≠ "")
    (hnul : holdsNul t.schema = false ∧ holdsNul t.name = false) : fromStr t.raw = .ok ⟨t⟩ := by
  have hs : t.schema.isEmpty = false := by rw [← Bool.not_eq_true, String.isEmpty_iff]; exact hschema
  have hn : t.name.isEmpty = false := by rw [← Bool.not_eq_true, String.isEmpty_iff]; exact hname
  rw [fromStr, qualifiedParts_raw hschema hname]
  show (if false || t.schema.isEmpty || t.name.isEmpty || holdsNul t.schema || holdsNul t.name then _ else _) = _
  rw [hs, hn, hnul.1, hnul.2]
  rfl

theorem CollationName.parts_of_fromStr {text : String} {c : CollationName} (h : fromStr text = .ok c) :
    c.ref.schema ≠ "" ∧ c.ref.name ≠ "" ∧ holdsNul c.ref.schema = false ∧ holdsNul c.ref.name = false := by
  rw [fromStr, Except.bind_eq_ok_iff] at h
  obtain ⟨⟨name, array⟩, -, h⟩ := h
  dsimp only at h
  split at h
  · cases h
  · next hguard =>
    cases h
    simp only [Bool.or_eq_true, not_or, Bool.not_eq_true, String.isEmpty_eq_false_iff] at hguard
    exact ⟨hguard.1.1.1.2, hguard.1.1.2, hguard.1.2, hguard.2⟩

/-- Two parts a reference accepts are read back from its spelling, and so are those a collation's name accepts; and no two
references have one spelling. -/
theorem raw_reads_back :
    (∀ (schema name : String) (t : TypeRef), TypeRef.new schema name = .ok t → t = ⟨schema, name⟩ ∧ TypeRef.parse t.raw = .ok t) ∧
    (∀ t : TypeRef, t.schema ≠ "" → t.name ≠ "" → holdsNul t.schema = false → holdsNul t.name = false →
      CollationName.fromStr t.raw = .ok ⟨t⟩) ∧
    (∀ (text : String) (c : CollationName), CollationName.fromStr text = .ok c → CollationName.fromStr c.ref.raw = .ok c) ∧
    ∀ t t' : TypeRef, t ≠ t' → t.raw ≠ t'.raw := by
  refine ⟨?_, fun t hs hn hs' hn' => CollationName.fromStr_raw hs hn ⟨hs', hn'⟩, ?_, fun t t' hne heq => hne (TypeRef.raw_injective heq)⟩
  · intro schema name t h
    rw [TypeRef.new] at h
    split at h
    · cases h
    · next hproblem =>
      cases h
      exact ⟨rfl, TypeRef.parse_raw hproblem⟩
  · intro text c h
    obtain ⟨hs, hn, hnul⟩ := CollationName.parts_of_fromStr h
    exact CollationName.fromStr_raw hs hn hnul

theorem raw_reads_back_quoted : TypeRef.parse (TypeRef.raw ⟨"App", "a.\"b"⟩) = .ok ⟨"App", "a.\"b"⟩ :=
  (raw_reads_back.1 "App" "a.\"b" ⟨"App", "a.\"b"⟩ rfl).2

/-! ## The engine's own operator classes -/

namespace OpClassRef

/-- A name that is read as a bare class: nothing in it is a mark of the qualified form, and nothing of it is trimmed. -/
def Plain (name : List Char) : Prop := '.' ∉ name ∧ '"' ∉ name ∧ trim name = name

theorem marked_iff {text : List Char} : (!(text.contains '.' || text.contains '"')) = true ↔ '.' ∉ text ∧ '"' ∉ text := by
  rw [Bool.not_eq_true', Bool.or_eq_false_iff, List.contains_eq_mem, List.contains_eq_mem, decide_eq_false_iff_not,
    decide_eq_false_iff_not]

theorem fromStr_bare_iff (name : String) : fromStr name = .ok (.bare name) ↔ Plain name.toList := by
  rw [fromStr]
  constructor
  · intro h
    dsimp only at h
    split at h
    · next hmarks =>
      have htrim : trim name.toList = name.toList := by
        have hname := OpClassRef.bare.inj (Except.ok.inj h)
        rw [← String.toList_inj, String.toList_ofList] at hname
        exact hname
      rw [marked_iff, htrim] at hmarks
      exact ⟨hmarks.1, hmarks.2, htrim⟩
    · obtain ⟨⟨t, array⟩, hparts, h⟩ := Except.bind_eq_ok_iff.1 h
      dsimp only at h
      split at h
      · cases h
      · have hx := Except.ok.inj h
        rw [inSchema] at hx
        split at hx
        · -- a name is shorter than any text that spells it with its schema
          have hname := OpClassRef.bare.inj hx
          obtain ⟨a, b, rest, heq, -, hb, -⟩ := spelled_of_qualifiedParts hparts
          have hle := hb.length_le
          have hsub := (Load.trim_sublist name.toList).length_le
          rw [heq, List.length_append, List.length_cons, List.length_append, ← hname] at hsub
          omega
        · cases hx
  · rintro ⟨hdot, hquote, htrim⟩
    dsimp only
    rw [htrim, if_pos (marked_iff.2 ⟨hdot, hquote⟩), String.ofList_toList]

theorem fromStr_qualified {t : TypeRef} (hschema : t.schema ≠ "") (hname : t.name ≠ "")
    (hnul : holdsNul t.schema = false ∧ holdsNul t.name = false) (hcatalog : t.schema ≠ "pg_catalog") :
    fromStr t.raw = .ok (.qualified t) := by
  have hmarks : ¬ (!((trim t.raw.toList).contains '.' || (trim t.raw.toList).contains '"')) = true := by
    rw [marked_iff, TypeRef.trim_raw]
    exact fun h => h.1 (List.mem_append_right _ List.mem_cons_self)
  have hn : t.name.isEmpty = false := by rw [← Bool.not_eq_true, String.isEmpty_iff]; exact hname
  rw [fromStr]
  dsimp only
  rw [if_neg hmarks, qualifiedParts_raw hschema hname]
  show (if false || t.name.isEmpty || holdsNul t.schema || holdsNul t.name then _ else _) = _
  rw [hn, hnul.1, hnul.2]
  show Except.ok (inSchema t.schema t.name) = _
  rw [inSchema, if_neg hcatalog]

/-- A class accepted from a text is read back from its spelling, exactly if the text does not spell, in `pg_catalog`, a name
that holds a dot or a quote or begins or ends with a space. -/
theorem fromStr_raw_iff {text : String} {x : OpClassRef} (h : fromStr text = .ok x) :
    fromStr x.raw = .ok x ↔ ∀ a b name, trim text.toList = a ++ '.' :: b → SpellsPart a "pg_catalog".toList →
      SpellsPart b name → '.' ∉ name ∧ '"' ∉ name ∧ trim name = name := by
  rw [fromStr] at h
  dsimp only at h
  split at h
  · next hmarks =>
    obtain ⟨hdot, hquote⟩ := marked_iff.1 hmarks
    obtain rfl := Except.ok.inj h
    refine iff_of_true ?_ ?_
    · rw [raw, fromStr_bare_iff, String.toList_ofList]
      exact ⟨hdot, hquote, trim_trim _⟩
    · intro a b name heq
      rw [heq] at hdot
      exact absurd (List.mem_append_right _ List.mem_cons_self) hdot
  · obtain ⟨⟨t, array⟩, hparts, h⟩ := Except.bind_eq_ok_iff.1 h
    dsimp only at h
    split at h
    · cases h
    · next hguard =>
      obtain rfl := Except.ok.inj h
      simp only [Bool.or_eq_true, not_or, Bool.not_eq_true, String.isEmpty_eq_false_iff] at hguard
      obtain ⟨⟨⟨rfl, hname⟩, hschemaNul⟩, hnameNul⟩ := hguard
      obtain ⟨a, b, heq, ha, hb⟩ := spelled_of_trimmed (trim_trim _) hparts
      -- the two parts are those of every way to spell the text
      have hunique : ∀ a b schema name, trim text.toList = a ++ '.' :: b → SpellsPart a schema → SpellsPart b name →
          t.schema.toList = schema ∧ t.name.toList = name := by
        intro a b schema name heq ha hb
        rw [heq, qualifiedParts_of_spelled ha hb] at hparts
        obtain rfl := (Prod.mk.inj (Except.ok.inj hparts)).1
        exact ⟨String.toList_ofList, String.toList_ofList⟩
      rw [inSchema]
      split
      · next hcatalog =>
        rw [raw, fromStr_bare_iff]
        constructor
        · intro hplain a' b' name heq' ha' hb'
          rw [← (hunique a' b' _ name heq' ha' hb').2]
          exact hplain
        · intro hall
          exact hall a b _ heq (hcatalog ▸ ha) hb
      · next hcatalog =>
        have hschema : t.schema ≠ "" := fun hempty => ha.ne_nil (by rw [hempty]; rfl)
        refine iff_of_true (fromStr_qualified hschema hname ⟨hschemaNul, hnameNul⟩ hcatalog) ?_
        intro a' b' name heq' ha' hb'
        exact absurd (String.toList_inj.1 (hunique a' b' _ name heq' ha' hb').1) hcatalog

theorem fromStr_raw_iff_gist : fromStr (raw (.qualified ⟨"ext", "gist.ops"⟩)) = .ok (.qualified ⟨"ext", "gist.ops"⟩) ↔
    ∀ a b name, trim "ext.\"gist.ops\"".toList = a ++ '.' :: b → SpellsPart a "pg_catalog".toList →
      SpellsPart b name → '.' ∉ name ∧ '"' ∉ name ∧ trim name = name :=
  @fromStr_raw_iff "ext.\"gist.ops\"" _ (by decide)

/-- The dot of a quoted name of the engine's own is read as the one between a schema and a name. -/
theorem fromStr_raw_dotted : ¬ ∀ (text : String) (x : OpClassRef), fromStr text = .ok x → fromStr x.raw = .ok x := by
  intro h
  have hread : fromStr "pg_catalog.\"a.b\"" = .ok (.bare "a.b") := by decide
  have hagain : fromStr "a.b" = .ok (.qualified ⟨"a", "b"⟩) := by decide
  have heq := hagain.symm.trans (h _ _ hread)
  exact absurd heq (by decide)

end OpClassRef

end Pbps
