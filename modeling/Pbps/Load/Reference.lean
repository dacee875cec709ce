/-
Foreign key targets and range bounds: what `fmt.rs` writes for them and what `parse_reference` and
`BoundDatum::declared` read. Each is read back exactly where its condition says.
-/
import Mathlib.Data.List.DropRight
import Pbps.Load.BareWords

namespace Pbps

open TypeRef (trim lowerAscii)
open List Except

/-! ## Declared bounds -/

/-- `str::eq_ignore_ascii_case`. -/
def eqIgnoreAsciiCase (s t : String) : Bool := s.toList.map lowerAscii = t.toList.map lowerAscii

/-- As a declaration writes one: `MINVALUE`, `MAXVALUE`, or the value. -/
def BoundDatum.display : BoundDatum → String
  | .minValue => "MINVALUE"
  | .maxValue => "MAXVALUE"
  | .value v => v

/-- A declared datum: `MINVALUE` and `MAXVALUE` in any case are the unbounded ends, anything else a value as
written. -/
def BoundDatum.declared (text : String) : BoundDatum :=
  if eqIgnoreAsciiCase text "minvalue" then .minValue
  else if eqIgnoreAsciiCase text "maxvalue" then .maxValue
  else .value text

/-- A value whose text is the word of an unbounded end, in some case. -/
def BoundDatum.spellsEnd : BoundDatum → Bool
  | .value text => eqIgnoreAsciiCase text "minvalue" || eqIgnoreAsciiCase text "maxvalue"
  | _ => false

theorem BoundDatum.declared_display (d : BoundDatum) : BoundDatum.declared d.display = d ↔ d.spellsEnd = false := by
  cases d with
  | minValue => decide
  | maxValue => decide
  | value text =>
    simp only [declared, display, spellsEnd, Bool.or_eq_false_iff]
    by_cases hmin : eqIgnoreAsciiCase text "minvalue" = true
    · simp [hmin]
    · by_cases hmax : eqIgnoreAsciiCase text "maxvalue" = true
      · simp [hmin, hmax]
      · simp [hmin, hmax]

namespace Load

/-! ## Trimmed text -/

theorem trim_eq (s : List Char) : trim s = (s.dropWhile isWhitespace).rdropWhile isWhitespace := rfl

theorem trim_front (s : List Char) : trim s <+: s.dropWhile isWhitespace := rdropWhile_prefix _ _

theorem trim_sublist (s : List Char) : (trim s).Sublist s :=
  (trim_front s).sublist.trans (dropWhile_suffix _).sublist

theorem trim_trim (s : List Char) : trim (trim s) = trim s := by
  have hfirst : (trim s).dropWhile isWhitespace = trim s := by
    rw [dropWhile_eq_self_iff]
    intro hl hws
    -- The first character left is the first of what the front was trimmed to.
    obtain ⟨rest, hrest⟩ := trim_front s
    have hlen : 0 < (s.dropWhile isWhitespace).length := by
      rw [← hrest, length_append]
      omega
    have hget : (s.dropWhile isWhitespace)[0] = (trim s)[0] := by simp only [← hrest, getElem_append_left hl]
    exact dropWhile_get_zero_not isWhitespace s hlen (by rwa [get_eq_getElem, hget])
  rw [trim_eq (trim s), hfirst, trim_eq s, rdropWhile_idempotent]

variable {s : List Char} {c : Char} {t : TableName}

theorem dropWhile_append_cons {rest : List Char} (hc : isWhitespace c = false) :
    (s ++ c :: rest).dropWhile isWhitespace = s.dropWhile isWhitespace ++ c :: rest := by
  rw [dropWhile_append]
  split_ifs with h
  · rw [List.isEmpty_iff.1 h, nil_append, dropWhile_cons_of_neg (by simp [hc])]
  · rfl

theorem trim_append_singleton (hc : isWhitespace c = false) : trim (s ++ [c]) = s.dropWhile isWhitespace ++ [c] := by
  rw [trim_eq, dropWhile_append_cons hc, rdropWhile_concat_neg]
  simp [hc]

theorem trim_cons_space (s : List Char) : trim (' ' :: s) = trim s := by
  rw [trim_eq, trim_eq, dropWhile_cons_of_pos (by decide)]

/-! ## Foreign key targets -/

/-- What is wrong with a foreign key target. -/
inductive ReferenceError where
  | missingOpen
  | missingClose
  | misplaced
  | table (e : NameError)
  | emptyEntry
  deriving DecidableEq, Repr

/-- The text of a foreign key's target, `schema.table(a, b)`. -/
def referenceText (t : TableName) (columns : List ColumnName) : List Char :=
  t.raw.toList ++ '(' :: ([',', ' '].intercalate (columns.map String.toList) ++ [')'])

/-- `str::find`, as the position of the character. -/
def find (c : Char) (s : List Char) : Option Nat := if c ∈ s then some (s.idxOf c) else none

/-- `str::rfind`, as the position of the character. -/
def rfind (c : Char) (s : List Char) : Option Nat := (find c s.reverse).map fun i => s.length - 1 - i

def readColumn (raw : List Char) : Except ReferenceError ColumnName :=
  let c := trim raw
  if c.isEmpty then .error .emptyEntry else .ok (String.ofList c)

def readTable (s : List Char) : Except ReferenceError TableName :=
  match TableName.parse (String.ofList (trim s)) with
  | .ok t => .ok t
  | .error e => .error (.table e)

/-- `dbo.region(region_id)` or `dbo.region(a, b)` into a table name and a column list. -/
def parseReference (v : List Char) : Except ReferenceError (TableName × List ColumnName) :=
  let s := trim v
  match find '(' s, rfind ')' s with
  | none, _ => .error .missingOpen
  | some _, none => .error .missingClose
  | some opened, some close =>
    if close < opened || !(trim (s.drop (close + 1))).isEmpty then .error .misplaced
    else do
      let table ← readTable (s.take opened)
      let columns ← (((s.take close).drop (opened + 1)).splitOn ',').mapM readColumn
      pure (table, columns)

/-- What the loader reads of a spelled target: what stands before its first parenthesis, and what between that
and the writer's last. -/
theorem parseReference_referenceText (t : TableName) (columns : List ColumnName) (front : List Char)
    (hfront : front = t.raw.toList.dropWhile isWhitespace ++ '(' :: [',', ' '].intercalate (columns.map String.toList)) :
    parseReference (referenceText t columns) =
      (readTable (front.take (front.idxOf '(')) >>= fun table =>
        ((front.drop (front.idxOf '(' + 1)).splitOn ',').mapM readColumn >>= fun read => pure (table, read)) := by
  have htrim : trim (referenceText t columns) = front ++ [')'] := by
    rw [referenceText, ← cons_append, ← append_assoc, trim_append_singleton (by decide),
      dropWhile_append_cons (by decide), hfront]
  have hopen : '(' ∈ front := by
    rw [hfront]
    simp
  have hlt : front.idxOf '(' < front.length := idxOf_lt_length_iff.2 hopen
  have hidx : find '(' (front ++ [')']) = some (front.idxOf '(') := by
    rw [find, if_pos (mem_append_left _ hopen), idxOf_append_of_mem hopen]
  have hrfind : rfind ')' (front ++ [')']) = some front.length := by
    simp [rfind, find]
  unfold parseReference
  dsimp only
  rw [htrim, hidx, hrfind]
  dsimp only
  rw [if_neg]
  · rw [take_append_of_le_length (by omega), take_append_of_le_length (by omega), take_length]
  · simp [trim]
    omega

theorem raw_toList (t : TableName) : t.raw.toList = t.schema.toList ++ '.' :: t.name.toList := by
  simp [TableName.raw, String.toList_append]

theorem intercalate_splitDots (cs : List Char) : ['.'].intercalate (splitDots cs) = cs := by
  induction cs with
  | nil => rfl
  | cons c cs ih =>
    rw [splitDots]
    split_ifs with hc
    · subst hc
      cases hs : splitDots cs with
      | nil => exact absurd hs (splitDots_ne_nil cs)
      | cons p ps =>
        rw [hs] at ih
        rw [intercalate_cons_cons, ih]
        rfl
    · cases hs : splitDots cs with
      | nil => exact absurd hs (splitDots_ne_nil cs)
      | cons p ps =>
        rw [hs] at ih
        cases ps with
        | nil => simpa using ih
        | cons q ps =>
          rw [intercalate_cons_cons] at ih
          dsimp only
          rw [intercalate_cons_cons, cons_append, cons_append, ih]

theorem raw_of_parse (h : TableName.parse (String.ofList s) = .ok t) : t.raw.toList = s := by
  rw [TableName.parse, String.toList_ofList] at h
  split at h
  · next schema name hsplit =>
    split_ifs at h
    cases h
    have hs := intercalate_splitDots s
    rw [hsplit] at hs
    rw [raw_toList, String.toList_ofList, String.toList_ofList, ← hs]
    simp [intercalate_cons_cons]
  · cases h

/-- A qualified name of two parts that hold no dot. -/
structure Qualified (t : TableName) : Prop where
  schema : t.schema ≠ ""
  name : t.name ≠ ""
  schema_dot : '.' ∉ t.schema.toList
  name_dot : '.' ∉ t.name.toList

theorem Qualified.parse (h : Qualified t) : TableName.parse t.raw = .ok t := by
  rw [TableName.parse, raw_toList, splitDots_append h.schema_dot, splitDots_of_not_mem h.name_dot]
  dsimp only
  rw [if_neg]
  · simp
  · simp [h.schema, h.name]

theorem readTable_eq_ok (ht : Qualified t) : readTable s = .ok t ↔ trim s = t.raw.toList := by
  constructor
  · intro h
    rw [readTable] at h
    split at h
    next t' hparse =>
      cases h
      exact (raw_of_parse hparse).symm
    next => exact nomatch h
  · intro h
    rw [readTable, h, String.ofList_toList, ht.parse]

/-- A column name a target's list reads back. -/
structure Listable (c : ColumnName) : Prop where
  nonempty : c ≠ ""
  comma : ',' ∉ c.toList
  trimmed : trim c.toList = c.toList

theorem readColumn_eq_ok {c : ColumnName} : readColumn s = .ok c ↔ trim s = c.toList ∧ c ≠ "" := by
  unfold readColumn
  dsimp only
  split_ifs with h
  · rw [List.isEmpty_iff] at h
    constructor
    · exact fun hc => nomatch hc
    · rintro ⟨hc, hne⟩
      exact absurd (String.toList_eq_nil_iff.1 (hc.symm.trans h)) hne
  · rw [ok.injEq, ← String.toList_inj, String.toList_ofList]
    constructor
    · intro hc
      refine ⟨hc, ?_⟩
      rintro rfl
      exact h (by simp [hc])
    · exact fun hc => hc.1

theorem not_mem_of_mem_splitOn : ∀ {s p : List Char}, p ∈ s.splitOn c → c ∉ p
  | [], p, h => by
    rw [splitOn_nil, mem_singleton] at h
    simp [h]
  | d :: s, p, h => by
    rw [splitOn_cons_eq_if_modifyHead] at h
    split_ifs at h with hd
    · rcases mem_cons.1 h with rfl | h
      · simp
      · exact not_mem_of_mem_splitOn h
    · cases hs : s.splitOn c with
      | nil => exact absurd hs (splitOn_ne_nil c s)
      | cons q qs =>
        rw [hs, modifyHead_cons] at h
        rcases mem_cons.1 h with rfl | h
        · rw [mem_cons, not_or]
          refine ⟨fun hcd => hd (by rw [hcd]; exact beq_self_eq_true d), ?_⟩
          exact not_mem_of_mem_splitOn (hs ▸ mem_cons_self)
        · exact not_mem_of_mem_splitOn (hs ▸ mem_cons_of_mem _ h)

theorem splitOn_intercalate (c : List Char) : ∀ (cs : List (List Char)), (∀ x ∈ c :: cs, ',' ∉ x) →
    ([',', ' '].intercalate (c :: cs)).splitOn ',' = c :: cs.map (' ' :: ·)
  | [], h => by
    rw [intercalate_singleton, splitOn_eq_singleton (h c mem_cons_self), map_nil]
  | d :: cs, h => by
    obtain ⟨hc, h⟩ := forall_mem_cons.1 h
    have hsplit : ([',', ' '].intercalate (c :: d :: cs)) = c ++ ',' :: ' ' :: [',', ' '].intercalate (d :: cs) := by
      rw [intercalate_cons_cons, append_assoc]
      rfl
    rw [hsplit, splitOn_append_cons_self_of_not_mem hc, splitOn_cons_eq_if_modifyHead, if_neg (by decide),
      splitOn_intercalate d cs h, modifyHead_cons, map_cons]

theorem readColumns_intercalate {columns : List ColumnName} (hne : columns ≠ []) :
    (([',', ' '].intercalate (columns.map String.toList)).splitOn ',').mapM readColumn = .ok columns ↔
      ∀ c ∈ columns, Listable c := by
  rw [mapM_eq_ok]
  constructor
  · intro h c hc
    obtain ⟨s, hs, hread⟩ := h.exists_of_mem_right hc
    obtain ⟨htrim, hc⟩ := readColumn_eq_ok.1 hread
    refine ⟨hc, ?_, ?_⟩
    · rw [← htrim]
      exact fun hmem => not_mem_of_mem_splitOn hs ((trim_sublist s).mem hmem)
    · rw [← htrim, trim_trim]
  · intro h
    obtain ⟨c, cs, rfl⟩ := exists_cons_of_ne_nil hne
    have hcomma : ∀ x ∈ c.toList :: cs.map String.toList, ',' ∉ x := by
      intro x hx
      rw [← map_cons] at hx
      obtain ⟨d, hd, rfl⟩ := mem_map.1 hx
      exact (h d hd).comma
    obtain ⟨hc, hcs⟩ := forall_mem_cons.1 h
    rw [map_cons, splitOn_intercalate _ _ hcomma]
    refine .cons (readColumn_eq_ok.2 ⟨hc.trimmed, hc.nonempty⟩) ?_
    rw [map_map, forall₂_map_left_iff, forall₂_same]
    intro d hd
    exact readColumn_eq_ok.2 ⟨(trim_cons_space _).trans (hcs d hd).trimmed, (hcs d hd).nonempty⟩

/-- A foreign key target the loader reads back. -/
structure Referable (t : TableName) (columns : List ColumnName) : Prop where
  parenthesis : '(' ∉ t.raw.toList
  trimmed : trim t.raw.toList = t.raw.toList
  columns : ∀ c ∈ columns, Listable c

theorem parseReference_eq_ok {columns : List ColumnName} (ht : Qualified t) (hne : columns ≠ []) :
    parseReference (referenceText t columns) = .ok (t, columns) ↔ Referable t columns := by
  obtain ⟨front, hfront⟩ : ∃ front, front =
      t.raw.toList.dropWhile isWhitespace ++ '(' :: [',', ' '].intercalate (columns.map String.toList) := ⟨_, rfl⟩
  have hdrop : (t.raw.toList.dropWhile isWhitespace).length ≤ t.raw.toList.length :=
    (dropWhile_suffix _).length_le
  rw [parseReference_referenceText t columns front hfront]
  by_cases hopen : '(' ∈ t.raw.toList.dropWhile isWhitespace
  · -- What stands before the first parenthesis is shorter than the name.
    have hidx : front.idxOf '(' < t.raw.toList.length := by
      rw [hfront, idxOf_append_of_mem hopen]
      have := idxOf_lt_length_iff.2 hopen
      omega
    constructor
    · intro h
      obtain ⟨table, htable, h⟩ := bind_eq_ok_iff.1 h
      obtain ⟨read, -, h⟩ := bind_eq_ok_iff.1 h
      cases h
      have hlen := (trim_sublist (front.take (front.idxOf '('))).length_le
      rw [(readTable_eq_ok ht).1 htable, length_take] at hlen
      omega
    · intro h
      exact absurd ((dropWhile_suffix _).mem hopen) h.parenthesis
  · have hidx : front.idxOf '(' = (t.raw.toList.dropWhile isWhitespace).length := by
      rw [hfront, idxOf_append_of_notMem hopen, idxOf_cons_self, Nat.add_zero]
    have htake : front.take (front.idxOf '(') = t.raw.toList.dropWhile isWhitespace := by
      rw [hidx, hfront, take_left]
    have hrest : front.drop (front.idxOf '(' + 1) = [',', ' '].intercalate (columns.map String.toList) := by
      rw [hidx, hfront, ← drop_drop, drop_left, drop_one, tail_cons]
    have htrim : trim (t.raw.toList.dropWhile isWhitespace) = trim t.raw.toList := by
      rw [trim_eq, trim_eq, dropWhile_idempotent]
    rw [htake, hrest]
    constructor
    · intro h
      obtain ⟨table, htable, h⟩ := bind_eq_ok_iff.1 h
      obtain ⟨read, hread, h⟩ := bind_eq_ok_iff.1 h
      cases h
      have htable := (readTable_eq_ok ht).1 htable
      rw [htrim] at htable
      refine ⟨?_, htable, (readColumns_intercalate hne).1 hread⟩
      rw [← htable]
      exact fun hmem => hopen ((trim_front _).mem hmem)
    · intro h
      rw [(readTable_eq_ok ht).2 (htrim.trans h.trimmed), (readColumns_intercalate hne).2 h.columns]
      rfl


/-- What a range bound's entry is read as before it is converted. -/
inductive BoundValueDto where
  | text (t : String)
  | int (i : Int)
  deriving DecidableEq, Repr

def BoundValueDto.datum : BoundValueDto → BoundDatum
  | .text t => BoundDatum.declared t
  | .int i => .value (toString i)

def boundSpelling : BoundDatum → List Char
  | .value text => quoted text.toList
  | end_ => end_.display.toList

/-- One end of a range, `[a, b]`. -/
def boundsText (data : List BoundDatum) : List Char := '[' :: ([',', ' '].intercalate (data.map boundSpelling) ++ [']'])

/-- A text, or an integer. -/
def BoundValueDto.ofPlain : Plain → Option BoundValueDto
  | .text s => some (.text (String.ofList s))
  | .int i => some (.int i)
  | .other => none

namespace Yaml

variable (yaml : Yaml)

def readBounds : List Char → Option (List BoundDatum × List Char)
  | '[' :: cs => (yaml.items cs).bind fun r =>
    (r.1.mapM BoundValueDto.ofPlain).map fun values => (values.map BoundValueDto.datum, r.2)
  | _ => none

/-- The two words of unbounded ends are no other scalar of YAML's. -/
structure ReadsEnds : Prop where
  min : yaml.flow "MINVALUE".toList = some (.text "MINVALUE".toList)
  max : yaml.flow "MAXVALUE".toList = some (.text "MAXVALUE".toList)

variable {yaml}

theorem ReadsEnds.item (h : yaml.ReadsEnds) (d : BoundDatum) : Item yaml.flow (boundSpelling d) d.display.toList := by
  cases d with
  | minValue => exact .word h.min (by decide) (List.all_eq_true.1 (by decide))
  | maxValue => exact .word h.max (by decide) (List.all_eq_true.1 (by decide))
  | value text => exact .quoted text.toList

variable (h : yaml.ReadsEnds) (data : List BoundDatum) (rest : List Char)
include h data rest

theorem readBounds_boundsText :
    yaml.readBounds (boundsText data ++ rest) = some (data.map fun d => BoundDatum.declared d.display, rest) := by
  have hshape : boundsText data ++ rest =
      '[' :: ([',', ' '].intercalate (data.map boundSpelling) ++ ']' :: rest) := by
    simp [boundsText]
  have hitems : Forall₂ (Item yaml.flow) (data.map boundSpelling) (data.map fun d => d.display.toList) := by
    rw [forall₂_map_left_iff, forall₂_map_right_iff, forall₂_same]
    exact fun d _ => h.item d
  have hvalues : ∀ texts : List (List Char), (texts.map Plain.text).mapM BoundValueDto.ofPlain =
      some (texts.map fun s => .text (String.ofList s)) := by
    intro texts
    induction texts with
    | nil => rfl
    | cons s texts ih => rw [map_cons, mapM_cons, ih]; rfl
  rw [hshape, readBounds, yaml.items_written hitems, Option.bind_some, hvalues, Option.map_some, map_map, map_map]
  simp [BoundValueDto.datum, Function.comp_def]

theorem readBounds_eq : yaml.readBounds (boundsText data ++ rest) = some (data, rest) ↔ ∀ d ∈ data, d.spellsEnd = false := by
  have hmap : (data.map fun d => BoundDatum.declared d.display) = data ↔ ∀ d ∈ data, d.spellsEnd = false := by
    conv_lhs => rhs; rw [← List.map_id data]
    rw [map_inj_left]
    exact forall₂_congr fun d _ => d.declared_display
  rw [readBounds_boundsText h, Option.some.injEq, Prod.mk.injEq, hmap]
  exact and_iff_left rfl

end Yaml

/-! ## What pull writes loads back -/

/-- A foreign key's target and a range's end are read back as they were, exactly where no name or value is one the
spelling cannot hold. -/
theorem written_loads_back (yaml : Yaml) (hends : yaml.ReadsEnds) (t : TableName) (ht : Qualified t)
    (columns : List ColumnName) (hne : columns ≠ []) (data : List BoundDatum) (rest : List Char) :
    ((yaml.readScalar (yaml.scalar (referenceText t columns))).map parseReference = some (.ok (t, columns)) ↔
      Referable t columns) ∧
    (yaml.readBounds (boundsText data ++ rest) = some (data, rest) ↔ ∀ d ∈ data, d.spellsEnd = false) := by
  refine ⟨?_, Yaml.readBounds_eq hends data rest⟩
  rw [yaml.readScalar_scalar, Option.map_some, Option.some.injEq]
  exact parseReference_eq_ok ht hne

theorem bareWords_readsEnds : bareWords.ReadsEnds := ⟨by decide, by decide⟩

theorem written_loads_back_region :
    (bareWords.readScalar (bareWords.scalar (referenceText ⟨"dbo", "region"⟩ ["country", "region id"]))).map parseReference =
      some (.ok (⟨"dbo", "region"⟩, ["country", "region id"])) ∧
    bareWords.readBounds (boundsText [.minValue, .value "O\"Hara", .value "\\ 2027"] ++ "\n".toList) =
      some ([.minValue, .value "O\"Hara", .value "\\ 2027"], "\n".toList) := by
  obtain ⟨href, hbound⟩ := written_loads_back bareWords bareWords_readsEnds ⟨"dbo", "region"⟩
    ⟨by decide, by decide, by decide, by decide⟩ ["country", "region id"] (by decide)
    [.minValue, .value "O\"Hara", .value "\\ 2027"] "\n".toList
  refine ⟨href.2 ⟨by decide, by decide, ?_⟩, hbound.2 (by decide)⟩
  simp only [forall_mem_cons]
  exact ⟨⟨by decide, by decide, by decide⟩, ⟨by decide, by decide, by decide⟩, by simp⟩

/-- A column named with a comma is read as two, and a value spelled as an unbounded end as that end. -/
theorem written_loads_otherwise : (¬ ∀ (t : TableName) (columns : List ColumnName), Qualified t → columns ≠ [] →
      (∀ c ∈ columns, checkSegment c = true) → parseReference (referenceText t columns) = .ok (t, columns)) ∧
    ¬ ∀ (yaml : Yaml) (data : List BoundDatum), yaml.ReadsEnds → yaml.readBounds (boundsText data) = some (data, []) := by
  constructor
  · intro h
    have hread := h ⟨"dbo", "region"⟩ ["a,b"] ⟨by decide, by decide, by decide, by decide⟩ (by decide) (by decide)
    exact absurd hread (by decide)
  · intro h
    have hread := (Yaml.readBounds_eq bareWords_readsEnds [.value "minvalue"] []).1
    rw [append_nil] at hread
    exact absurd (hread (h bareWords _ bareWords_readsEnds)) (by decide)

end Load

end Pbps
