/-
Grant targets as text (`GrantTarget` of `role.rs`). Four kinds of securable share one syntax: a prefix in either case, then a
parenthesis, decides the kind. A name may hold what decides it, and is then read as another securable.
-/
import Pbps.Modules.Identity

namespace Pbps

open TypeRef (lowerAscii)
open Load (Qualified raw_toList)
open RoutineArg (Kept)

namespace GrantTarget

/-- Whether a text begins with a word, its letters in either case: `get(..n)` with `eq_ignore_ascii_case`. -/
def startsAs (word : List Char) (text : List Char) : Bool := (text.take word.length).map lowerAscii = word

def sequencePrefix : List Char := ['s', 'e', 'q', 'u', 'e', 'n', 'c', 'e', ':', ':']
def schemaPrefix : List Char := ['s', 'c', 'h', 'e', 'm', 'a', ':', ':']

def raw : GrantTarget → String
  | .object o => o.raw
  | .routine r => r.raw
  | .schema s => String.ofList (schemaPrefix ++ s.toList)
  | .sequence c => String.ofList (sequencePrefix ++ c.raw.toList)

/-- `GrantTarget::from_str`. -/
def fromStr (alphanumeric : Char → Bool) (s : String) : Except NameError GrantTarget :=
  let text := s.toList
  if startsAs sequencePrefix text then (ColumnRef.parse (String.ofList (text.drop sequencePrefix.length))).map .sequence
  else if startsAs schemaPrefix text then
    let rest := String.ofList (text.drop schemaPrefix.length)
    if isBlank rest then .error (.emptySegment s) else .ok (.schema rest)
  else if text.contains '(' then
    match ModuleId.fromStr alphanumeric s with
    | .ok (.routine r) => .ok (.routine r)
    | _ => .error (.tableShape s)
  else (TableName.parse s).map .object

/-! ## What a target may hold -/

variable (alphanumeric : Char → Bool)

/-- A target whose parts are names, whose routine is one a text names, and whose schema is not blank. -/
def Legal : GrantTarget → Prop
  | .object o => Qualified o
  | .sequence c => Qualified c.table ∧ c.name ≠ "" ∧ '.' ∉ c.name.toList
  | .routine r => ∃ s, ModuleId.fromStr alphanumeric s = .ok (.routine r)
  | .schema s => isBlank s = false

def Unprefixed (text : String) : Prop :=
  startsAs sequencePrefix text.toList = false ∧ startsAs schemaPrefix text.toList = false

/-- A target whose names hold nothing that decides a kind: no prefix, and no parenthesis outside an argument list. The
arguments of a routine read as themselves. -/
def Plain : GrantTarget → Prop
  | .object o => Unprefixed o.raw ∧ '(' ∉ o.raw.toList
  | .routine r => Unprefixed r.raw ∧ ∃ s, ModuleId.fromStr alphanumeric s = .ok (.routine r) ∧
      ∀ text ∈ argTexts s, Kept alphanumeric text
  | .schema _ | .sequence _ => True

/-! ## Reading a spelling -/

variable {alphanumeric}

variable {text : List Char} {s : String} {t : GrantTarget}

theorem startsAs_append {word : List Char} (h : word.map lowerAscii = word) : startsAs word (word ++ text) = true := by
  rw [startsAs, List.take_left, h, decide_eq_true_eq]

theorem startsAs_sequence_schema : startsAs sequencePrefix (schemaPrefix ++ text) = false := by
  rw [startsAs, decide_eq_false_iff_not]
  intro h
  have hsecond := congrArg (·[1]?) h
  simp [sequencePrefix, schemaPrefix] at hsecond
  exact absurd hsecond (by decide)

theorem parse_column {c : ColumnRef} (ht : Qualified c.table) (hne : c.name ≠ "") (hdot : '.' ∉ c.name.toList) :
    ColumnRef.parse c.raw = .ok c := by
  have hraw : c.raw.toList = c.table.schema.toList ++ '.' :: (c.table.name.toList ++ '.' :: c.name.toList) := by
    simp [ColumnRef.raw, TableName.raw, String.toList_append]
  rw [ColumnRef.parse, hraw, splitDots_append ht.schema_dot, splitDots_append ht.name_dot, splitDots_of_not_mem hdot]
  dsimp only
  rw [if_neg]
  · simp
  · simp [ht.schema, ht.name, hne]

theorem fromStr_sequence : fromStr alphanumeric (String.ofList (sequencePrefix ++ text)) =
    (ColumnRef.parse (String.ofList text)).map .sequence := by
  rw [fromStr, String.toList_ofList, if_pos (startsAs_append (by decide)), List.drop_left]

theorem fromStr_schema (h : isBlank s = false) :
    fromStr alphanumeric (String.ofList (schemaPrefix ++ s.toList)) = .ok (.schema s) := by
  rw [fromStr, String.toList_ofList, if_neg (by rw [startsAs_sequence_schema]; exact Bool.false_ne_true),
    if_pos (startsAs_append (by decide)), List.drop_left, String.ofList_toList]
  dsimp only
  rw [if_neg (by rw [h]; exact Bool.false_ne_true)]

theorem unprefixed_of_fromStr (h : fromStr alphanumeric s = .ok t) (hsequence : ∀ c, t ≠ .sequence c)
    (hschema : ∀ n, t ≠ .schema n) : Unprefixed s := by
  unfold fromStr at h
  dsimp only at h
  split at h
  · obtain ⟨c, -, rfl⟩ := Except.map_eq_ok.1 h
    exact absurd rfl (hsequence c)
  split at h
  · split at h
    · cases h
    · cases h
      exact absurd rfl (hschema _)
  · next h1 h2 => exact ⟨Bool.eq_false_iff.2 h1, Bool.eq_false_iff.2 h2⟩

theorem fromStr_of_unprefixed (h : Unprefixed s) : fromStr alphanumeric s =
    if s.toList.contains '(' then
      match ModuleId.fromStr alphanumeric s with
      | .ok (.routine r) => .ok (.routine r)
      | _ => .error (.tableShape s)
    else (TableName.parse s).map .object := by
  rw [fromStr, if_neg (by rw [h.1]; exact Bool.false_ne_true), if_neg (by rw [h.2]; exact Bool.false_ne_true)]

theorem fromStr_object_iff {o : ObjectName} (h : Qualified o) :
    fromStr alphanumeric o.raw = .ok (.object o) ↔ Unprefixed o.raw ∧ '(' ∉ o.raw.toList := by
  constructor
  · intro hread
    have hplain := unprefixed_of_fromStr hread nofun nofun
    rw [fromStr_of_unprefixed hplain] at hread
    refine ⟨hplain, fun hparen => ?_⟩
    rw [if_pos (by simpa using hparen)] at hread
    split at hread <;> cases hread
  · rintro ⟨hplain, hparen⟩
    rw [fromStr_of_unprefixed hplain, if_neg (by simpa using hparen), h.parse]
    rfl

theorem fromStr_routine_iff {r : RoutineId} (h : ∃ s, ModuleId.fromStr alphanumeric s = .ok (.routine r)) :
    fromStr alphanumeric r.raw = .ok (.routine r) ↔ Unprefixed r.raw ∧
      ∃ s, ModuleId.fromStr alphanumeric s = .ok (.routine r) ∧ ∀ text ∈ argTexts s, Kept alphanumeric text := by
  have hparen : r.raw.toList.contains '(' = true := by
    rw [RoutineId.raw, String.toList_ofList]
    simp
  constructor
  · intro hread
    have hplain := unprefixed_of_fromStr hread (by simp) (by simp)
    rw [fromStr_of_unprefixed hplain, if_pos hparen] at hread
    obtain ⟨s, hs⟩ := h
    refine ⟨hplain, s, hs, (ModuleId.reads_back_iff hs).1 ?_⟩
    split at hread
    · next q hq =>
      cases hread
      exact hq
    · cases hread
  · rintro ⟨hplain, s, hs, hkept⟩
    have hback := (ModuleId.reads_back_iff hs).2 hkept
    rw [ModuleId.raw] at hback
    rw [fromStr_of_unprefixed hplain, if_pos hparen, hback]

theorem fromStr_raw_eq_iff (h : Legal alphanumeric t) : fromStr alphanumeric t.raw = .ok t ↔ Plain alphanumeric t := by
  cases t with
  | object o => exact fromStr_object_iff h
  | routine r => exact fromStr_routine_iff h
  | schema s => exact iff_of_true (fromStr_schema h) trivial
  | sequence c =>
    refine iff_of_true ?_ trivial
    obtain ⟨ht, hne, hdot⟩ := h
    rw [raw, fromStr_sequence, String.ofList_toList, parse_column ht hne hdot]
    rfl

/-- Two targets are both read from their spellings as themselves, and have one spelling only where they are one target, just
where both are plain. -/
theorem raw_names_itself_iff (alphanumeric : Char → Bool) {t t' : GrantTarget} (h : Legal alphanumeric t)
    (h' : Legal alphanumeric t') :
    (fromStr alphanumeric t.raw = .ok t ∧ fromStr alphanumeric t'.raw = .ok t' ∧ (t ≠ t' → t.raw ≠ t'.raw)) ↔
      Plain alphanumeric t ∧ Plain alphanumeric t' := by
  rw [fromStr_raw_eq_iff h, fromStr_raw_eq_iff h', ← and_assoc, and_iff_left_iff_imp]
  rintro ⟨hplain, hplain'⟩ hne hraw
  have hread := (fromStr_raw_eq_iff h).2 hplain
  rw [hraw, (fromStr_raw_eq_iff h').2 hplain'] at hread
  exact hne (Except.ok.inj hread).symm

/-- A table and the sequence of one of its columns. -/
theorem raw_names_itself_serial :
    let t : GrantTarget := .object ⟨"app", "order"⟩
    let t' : GrantTarget := .sequence ⟨⟨"app", "order"⟩, "no (old)"⟩
    (fromStr isAsciiAlphanumeric t.raw = .ok t ∧ fromStr isAsciiAlphanumeric t'.raw = .ok t' ∧ (t ≠ t' → t.raw ≠ t'.raw)) ↔
      Plain isAsciiAlphanumeric t ∧ Plain isAsciiAlphanumeric t' :=
  @raw_names_itself_iff isAsciiAlphanumeric (.object ⟨"app", "order"⟩) (.sequence ⟨⟨"app", "order"⟩, "no (old)"⟩)
    ⟨by decide, by decide, by decide, by decide⟩ ⟨⟨by decide, by decide, by decide, by decide⟩, by decide, by decide⟩

/-- The table `b` of a schema named `schema::a` is spelled as the schema `a.b` is, and read as it. -/
theorem fromStr_raw_prefixed : ¬ (∀ t, Legal isAsciiAlphanumeric t → fromStr isAsciiAlphanumeric t.raw = .ok t) ∧
      ¬ (∀ t t', Legal isAsciiAlphanumeric t → Legal isAsciiAlphanumeric t' → t ≠ t' → t.raw ≠ t'.raw) := by
  have hlegal : Legal isAsciiAlphanumeric (.object ⟨"schema::a", "b"⟩) := ⟨by decide, by decide, by decide, by decide⟩
  constructor
  · intro h
    exact absurd (h _ hlegal) (by decide +kernel)
  · intro h
    exact h _ (.schema "a.b") hlegal (show isBlank "a.b" = false by decide) (by decide) (by decide)

end GrantTarget

end Pbps
