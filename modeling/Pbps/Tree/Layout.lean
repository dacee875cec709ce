/-
The bytes of one file of the identity tree: `render`, the only writer of the layout, and `parse`, which reads one strictly
(`ids_tree.rs`). How plain data is spelled in JSON, and how a JSON text is read, is the library's.
-/
import Pbps.Tree.File

namespace Pbps.Tree

open Std (ExtTreeMap ExtTreeSet)
open List

/-! ## Documents -/

def FORMAT : Nat := 1

def GENERATED : String :=
  "This file is written by pbps and records the identity of one declaration file. Do not edit it by hand: change the YAML declaration and run `pbps plan`. After a git merge conflict, resolve the YAML first, then run `pbps ids resolve`; `pbps ids fmt` restores the canonical form. This line is a wire constant and never changes: its length keeps git's rename detection working for small files in a merge."

/-- A JSON document as it is read: objects in their order, and plain data as it was. -/
inductive Doc where
  | text (s : String)
  | number (n : Nat)
  | flag (b : Bool)
  | tombstone (t : Tombstone)
  | move (m : Move)
  | conversion (c : Conversion)
  | rebuild (r : Rebuild)
  | object (entries : List (String × Doc))

/-- `serde_json`: the one-line spelling of plain data, and the reader of a text. -/
structure Serde where
  line : Doc → String
  fromStr : String → Except String Doc

def Rec.doc : Rec → Doc
  | .live name => .text name
  | .dead tomb => .tombstone tomb

/-! ## The writer -/

section Writer

variable (serde : Serde)

/-- `section`: a record per line, a blank line after the opener and after every record, and a sentinel. -/
def sectionText {V : Type} (name : String) (doc : V → Doc) (records : List (Uid × V)) : String :=
  "  \"" ++ name ++ "\": \x7b\n\n" ++
    String.join (records.map fun e => "    " ++ serde.line (.text e.1.text) ++ ": " ++ serde.line (doc e.2) ++ ",\n\n") ++
    "    \"_end\": true\n\n  \x7d"

def optionalSection {V : Type} (name : String) (doc : V → Doc) (records : List (Uid × V)) : List String :=
  if records.isEmpty then [] else [sectionText serde name doc records]

def Body.key : Body → String × String
  | .table t => ("table", t.table)
  | .role n => ("role", n)
  | .type n => ("type", n)
  | .extension n => ("extension", n)

def topTexts (file : TreeFile) : List String :=
  ["  \"_generated\": " ++ serde.line (.text GENERATED), "  \"format\": " ++ toString FORMAT,
    "  \"uid\": " ++ serde.line (.text file.uid.text),
    "  \"" ++ file.body.key.1 ++ "\": " ++ serde.line (.text file.body.key.2)] ++
  (match file.dropped with
    | some tomb => ["  \"dropped\": " ++ serde.line (.tombstone tomb)]
    | none => []) ++
  match file.body with
  | .table t =>
    sectionText serde "columns" Rec.doc t.columns :: (optionalSection serde "partitions" Rec.doc t.partitions ++
      optionalSection serde "moves" .move t.moves ++ optionalSection serde "conversions" .conversion t.conversions ++
      optionalSection serde "rebuilds" .rebuild t.rebuilds)
  | _ => []

/-- `render`: the canonical bytes of one file. -/
def render (file : TreeFile) : String := "\x7b\n" ++ ",\n".intercalate (topTexts serde file) ++ "\n\x7d\n"

end Writer

/-! ## What is written -/

def sectionDoc {V : Type} (doc : V → Doc) (records : List (Uid × V)) : Doc :=
  .object (records.map (fun e => (e.1.text, doc e.2)) ++ [("_end", .flag true)])

def optionalDoc {V : Type} (name : String) (doc : V → Doc) (records : List (Uid × V)) : List (String × Doc) :=
  if records.isEmpty then [] else [(name, sectionDoc doc records)]

def document (file : TreeFile) : Doc :=
  .object ([("_generated", .text GENERATED), ("format", .number FORMAT), ("uid", .text file.uid.text),
    (file.body.key.1, .text file.body.key.2)] ++
    (match file.dropped with
      | some tomb => [("dropped", .tombstone tomb)]
      | none => []) ++
    match file.body with
    | .table t =>
      ("columns", sectionDoc Rec.doc t.columns) :: (optionalDoc "partitions" Rec.doc t.partitions ++
        optionalDoc "moves" .move t.moves ++ optionalDoc "conversions" .conversion t.conversions ++
        optionalDoc "rebuilds" .rebuild t.rebuilds)
    | _ => [])

/-- What the library does with one file: its spelling of plain data breaks no line (control characters are
escaped), and the text that the layout makes of it is read as the document it is. -/
structure Serde.Reads (serde : Serde) (file : TreeFile) : Prop where
  unbroken : ∀ v, '\n' ∉ (serde.line v).toList
  document : serde.fromStr (render serde file) = .ok (document file)

/-! ## The reader -/

/-- What the library's typed reader refuses: a field named twice, or anything else. -/
inductive ReadError where
  | duplicateField (key : String)
  | other (message : String)

/-- Where the sentinel of a section stands. -/
inductive End where
  | missing
  | last
  | notLast
  deriving DecidableEq

/-- A JSON object read as an ordered list; a duplicate key and the sentinel are recorded. -/
structure Section (V : Type) where
  records : List (String × V) := []
  end_ : End := .missing
  duplicate : Option String := none

def Section.visit {V : Type} (value : Doc → Option V) (s : Section V) : String × Doc → Except ReadError (Section V)
  | ("_end", .flag true) =>
    .ok { s with end_ := .last, duplicate := if s.end_ = .missing then s.duplicate else s.duplicate.or (some "_end") }
  | ("_end", _) => .error (.other "`_end` must be true")
  | (key, doc) =>
    match value doc with
    | none => .error (.other "invalid type")
    | some v => .ok
      { records := s.records ++ [(key, v)]
        end_ := if s.end_ = .last then .notLast else s.end_
        duplicate := if s.records.any (·.1 = key) then s.duplicate.or (some key) else s.duplicate }

def Section.read {V : Type} (value : Doc → Option V) : Doc → Except ReadError (Section V)
  | .object entries => entries.foldlM (Section.visit value) {}
  | _ => .error (.other "invalid type: expected an object")

def Doc.text? : Doc → Option String
  | .text s => some s
  | _ => none

def Doc.number? : Doc → Option Nat
  | .number n => some n
  | _ => none

def Doc.uid? : Doc → Option Uid
  | .text s => (Uid.parse s).toOption
  | _ => none

def Doc.tombstone? : Doc → Option Tombstone
  | .tombstone t => some t
  | _ => none

/-- A record is live when it is a text, and retired when it is a tombstone. -/
def Doc.rec? : Doc → Option Rec
  | .text s => some (.live s)
  | .tombstone t => some (.dead t)
  | _ => none

def Doc.move? : Doc → Option Move
  | .move m => some m
  | _ => none

def Doc.conversion? : Doc → Option Conversion
  | .conversion c => some c
  | _ => none

def Doc.rebuild? : Doc → Option Rebuild
  | .rebuild r => some r
  | _ => none

/-- The fields of a file as they are read. -/
structure Raw where
  generated : Option String := none
  format : Option Nat := none
  uid : Option Uid := none
  table : Option String := none
  role : Option String := none
  ty : Option String := none
  extension : Option String := none
  dropped : Option Tombstone := none
  columns : Option (Section Rec) := none
  partitions : Option (Section Rec) := none
  moves : Option (Section Move) := none
  conversions : Option (Section Conversion) := none
  rebuilds : Option (Section Rebuild) := none

def once {α : Type} (key : String) (held : Option α) (read : Doc → Except ReadError α) (value : Doc) :
    Except ReadError (Option α) :=
  if held.isSome then .error (.duplicateField key) else (read value).map some

def plain {α : Type} (read : Doc → Option α) (value : Doc) : Except ReadError α :=
  match read value with
  | some a => .ok a
  | none => .error (.other "invalid type")

def Raw.visit (raw : Raw) (entry : String × Doc) : Except ReadError Raw := do
  match entry.1 with
  | "_generated" => return { raw with generated := ← once entry.1 raw.generated (plain Doc.text?) entry.2 }
  | "format" => return { raw with format := ← once entry.1 raw.format (plain Doc.number?) entry.2 }
  | "uid" => return { raw with uid := ← once entry.1 raw.uid (plain Doc.uid?) entry.2 }
  | "table" => return { raw with table := ← once entry.1 raw.table (plain Doc.text?) entry.2 }
  | "role" => return { raw with role := ← once entry.1 raw.role (plain Doc.text?) entry.2 }
  | "type" => return { raw with ty := ← once entry.1 raw.ty (plain Doc.text?) entry.2 }
  | "extension" => return { raw with extension := ← once entry.1 raw.extension (plain Doc.text?) entry.2 }
  | "dropped" => return { raw with dropped := ← once entry.1 raw.dropped (plain Doc.tombstone?) entry.2 }
  | "columns" => return { raw with columns := ← once entry.1 raw.columns (Section.read Doc.rec?) entry.2 }
  | "partitions" => return { raw with partitions := ← once entry.1 raw.partitions (Section.read Doc.rec?) entry.2 }
  | "moves" => return { raw with moves := ← once entry.1 raw.moves (Section.read Doc.move?) entry.2 }
  | "conversions" => return { raw with conversions := ← once entry.1 raw.conversions (Section.read Doc.conversion?) entry.2 }
  | "rebuilds" => return { raw with rebuilds := ← once entry.1 raw.rebuilds (Section.read Doc.rebuild?) entry.2 }
  | key => .error (.other ("unknown field `" ++ key ++ "`"))

def Raw.complete (raw : Raw) : Except ReadError Raw :=
  if raw.generated.isNone then .error (.other "missing field `_generated`")
  else if raw.format.isNone then .error (.other "missing field `format`")
  else if raw.uid.isNone then .error (.other "missing field `uid`")
  else .ok raw

def Raw.read : Doc → Except ReadError Raw
  | .object entries => entries.foldlM Raw.visit {} >>= Raw.complete
  | _ => .error (.other "invalid type: expected struct Raw")

/-- `read_error`: a field named twice is kept apart. -/
def readError (path : String) : ReadError → TreeError
  | .duplicateField key => .duplicateKey path key
  | .other message => .malformed path message

/-- Unwraps a section into uid-keyed records, checking the sentinel, the duplicates and the uid prefix. -/
def keyed {V : Type} (path name : String) (sec : Option (Section V)) (kind : UidKind) (required : Bool) :
    Except TreeError (List (Uid × V)) :=
  match sec with
  | none => if required then .error (.sentinelMissing path name) else .ok []
  | some sec =>
    match sec.end_ with
    | .missing => .error (.sentinelMissing path name)
    | .notLast => .error (.sentinelNotLast path name)
    | .last =>
      match sec.duplicate with
      | some key => .error (.duplicateKey path key)
      | none => sec.records.mapM fun e =>
        match Uid.parse e.1 with
        | .error _ => .error (.malformed path ("`" ++ e.1 ++ "`"))
        | .ok uid => if uid.kind ≠ kind then .error (.kindMismatch path uid) else .ok (uid, e.2)

/-- `str::lines`, up to a carriage return at a line's end. -/
def lines : List Char → List (List Char)
  | [] => [[]]
  | c :: cs =>
    if c = '\n' then [] :: lines cs
    else
      match lines cs with
      | l :: ls => (c :: l) :: ls
      | [] => [[c]]

def isMarker (l : List Char) : Bool :=
  "<<<<<<<".toList.isPrefixOf l || ">>>>>>>".toList.isPrefixOf l ||
    (l.reverse.dropWhile isWhitespace).reverse == "=======".toList

def Raw.body (path : String) (raw : Raw) : Except TreeError Body :=
  match raw.table with
  | some table => do
    let columns ← keyed path "columns" raw.columns .column true
    let partitions ← keyed path "partitions" raw.partitions .table false
    let moves ← keyed path "moves" raw.moves .table false
    let conversions ← keyed path "conversions" raw.conversions .column false
    let rebuilds ← keyed path "rebuilds" raw.rebuilds .table false
    return .table { table, columns, partitions, moves, conversions, rebuilds }
  | none =>
    if raw.columns.isSome || raw.partitions.isSome || raw.moves.isSome || raw.conversions.isSome || raw.rebuilds.isSome then
      .error (.malformed path "only a table file has sections")
    else
      match raw.role, raw.ty, raw.extension with
      | some n, _, _ => .ok (.role n)
      | _, some n, _ => .ok (.type n)
      | _, _, some n => .ok (.extension n)
      | none, none, none => .error (.malformed path "exactly one of `table`, `role`, `type` and `extension` is required")

def Raw.named (raw : Raw) : Bool := [raw.table, raw.role, raw.ty, raw.extension].countP (·.isSome) == 1

/-- `parse`: reads one file strictly. -/
def parse (serde : Serde) (path text : String) : Except TreeError TreeFile := do
  if (lines text.toList).any isMarker then throw (.conflictMarkers path)
  let doc ← (serde.fromStr text).mapError fun message => .malformed path message
  let raw ← (Raw.read doc).mapError (readError path)
  match raw.uid, raw.format with
  | some uid, some format =>
    if format ≠ FORMAT then throw (.format path format)
    if !raw.named then throw (.malformed path "exactly one of `table`, `role`, `type` and `extension` is required")
    let body ← raw.body path
    let file : TreeFile := { uid, body, dropped := raw.dropped }
    check path file
    return file
  | _, _ => throw (.malformed path "missing field")

/-! ## What is written is read -/

section Sections

variable {V : Type} {value : Doc → Option V} {doc : V → Doc} {records : List (Uid × V)}

/-- The keys of a section are anchors, of its kind and each once. -/
structure Keyed (kind : UidKind) (records : List (Uid × V)) : Prop where
  wellFormed : ∀ e ∈ records, e.1.WellFormed
  kind : ∀ e ∈ records, e.1.kind = kind
  nodup : (records.map (·.1)).Nodup

variable {u : Uid} {kind : UidKind}

theorem text_ne_end (h : u.WellFormed) : u.text ≠ "_end" := by
  intro he
  rw [Uid.WellFormed, he] at h
  revert h
  simp [Uid.parse, Uid.afterPrefix]

theorem text_injective {v : Uid} (h : u.text = v.text) : u = v := by
  cases u; cases v; simp_all

theorem visit_record {s : Section V} {key : String} {v : V} (hkey : key ≠ "_end") (hv : value (doc v) = some v)
    (hend : s.end_ = .missing) (hnew : (s.records.any (·.1 = key)) = false) :
    Section.visit value s (key, doc v) = .ok { s with records := s.records ++ [(key, v)] } := by
  rw [Section.visit.eq_def]
  split
  · next h => exact absurd (congrArg Prod.fst h) hkey
  · next h => exact absurd (congrArg Prod.fst h) hkey
  · next h =>
    cases h
    rw [hv]
    simp [hend, hnew]

theorem foldlM_visit {done : List (String × V)} (hdoc : ∀ v, value (doc v) = some v)
    (hkeys : ∀ e ∈ records, e.1.text ≠ "_end") (hnodup : (done.map (·.1) ++ records.map (·.1.text)).Nodup) :
    (records.map fun e => (e.1.text, doc e.2)).foldlM (Section.visit value) { records := done } =
      .ok { records := done ++ records.map fun e => (e.1.text, e.2) } := by
  induction records generalizing done with
  | nil => simp [pure, Except.pure]
  | cons e records ih =>
    have hnew : (done.any (·.1 = e.1.text)) = false := by
      rw [any_eq_false]
      intro x hx hxe
      rw [nodup_append] at hnodup
      exact hnodup.2.2 x.1 (mem_map_of_mem hx) e.1.text (by simp) (by simpa using hxe)
    rw [map_cons, foldlM_cons, visit_record (hkeys e (mem_cons_self ..)) (hdoc e.2) rfl hnew]
    show List.foldlM _ _ _ = _
    rw [ih (fun x hx => hkeys x (mem_cons_of_mem _ hx))]
    · simp
    · simpa using hnodup

theorem read_sectionDoc (hdoc : ∀ v, value (doc v) = some v) (h : Keyed kind records) :
    Section.read value (sectionDoc doc records) = .ok { records := records.map fun e => (e.1.text, e.2), end_ := .last } := by
  have hnodup : (records.map (·.1.text)).Nodup := by
    have := h.nodup.map (f := Uid.text) fun a b hab => text_injective hab
    rwa [map_map] at this
  rw [sectionDoc, Section.read, foldlM_append, foldlM_visit hdoc (fun e he => text_ne_end (h.wellFormed e he))
    (by simpa using hnodup)]
  rfl

theorem keyed_section {path name : String} {required : Bool} (h : Keyed kind records) :
    keyed path name (some { records := records.map fun e => (e.1.text, e.2), end_ := .last }) kind required = .ok records := by
  rw [keyed, Except.mapM_eq_ok, forall₂_map_left_iff]
  refine forall₂_same.2 fun e he => ?_
  have hparse : Uid.parse e.1.text = .ok e.1 := h.wellFormed e he
  simp [hparse, h.kind e he]

end Sections

/-! ### No conflict markers -/

section Markers

/-- Whether no line begins as a marker does; `start` says whether the text begins a line. -/
def calm : Bool → List Char → Bool
  | _, [] => true
  | start, c :: cs => !(start && (c == '<' || c == '>' || c == '=')) && calm (c == '\n') cs

theorem head_of_isMarker {l : List Char} (h : isMarker l = true) : ∃ c cs, l = c :: cs ∧ (c = '<' ∨ c = '>' ∨ c = '=') := by
  cases l with
  | nil => exact absurd h (by decide)
  | cons c cs =>
    refine ⟨c, cs, rfl, ?_⟩
    rw [isMarker, Bool.or_eq_true, Bool.or_eq_true] at h
    obtain (h | h) | h := h
    · exact .inl (cons_prefix_cons.1 ( isPrefixOf_iff_prefix.1 h)).1.symm
    · exact .inr (.inl (cons_prefix_cons.1 ( isPrefixOf_iff_prefix.1 h)).1.symm)
    · -- What is left of a line is its beginning.
      have hpre : ((c :: cs).reverse.dropWhile isWhitespace).reverse <+: c :: cs := by
        rw [← reverse_suffix, reverse_reverse]
        exact dropWhile_suffix _
      rw [beq_iff_eq.1 h] at hpre
      exact .inr (.inr (cons_prefix_cons.1 hpre).1.symm)

variable {l : List String} {text : List Char} {a name : String} {V : Type}

theorem isMarker_of_calm {start : Bool} (h : calm start text = true) :
    ∃ l ls, lines text = l :: ls ∧ (start = true → isMarker l = false) ∧ ls.any isMarker = false := by
  induction text generalizing start with
  | nil => exact ⟨[], [], rfl, fun _ => rfl, rfl⟩
  | cons c cs ih =>
    rw [calm, Bool.and_eq_true] at h
    obtain ⟨l, ls, hl, hfirst, hrest⟩ := ih h.2
    by_cases hc : c = '\n'
    · subst hc
      refine ⟨[], l :: ls, by rw [lines, if_pos rfl, hl], fun _ => rfl, ?_⟩
      rw [any_cons, hfirst rfl, hrest]
      rfl
    · refine ⟨c :: l, ls, by rw [lines, if_neg hc, hl], fun hstart => ?_, hrest⟩
      rw [Bool.eq_false_iff]
      intro hm
      obtain ⟨c', cs', heq, hmark⟩ := head_of_isMarker hm
      cases heq
      rw [hstart] at h
      obtain rfl | rfl | rfl := hmark
      · exact absurd h.1 (by decide)
      · exact absurd h.1 (by decide)
      · exact absurd h.1 (by decide)

theorem any_isMarker_of_calm (h : calm true text = true) : (lines text).any isMarker = false := by
  obtain ⟨l, ls, hl, hfirst, hrest⟩ := isMarker_of_calm h
  rw [hl, any_cons, hfirst rfl, hrest]
  rfl

/-- Text that is calm from a line's start, or not, and ends at one, or not. -/
def CalmTo (s t : Bool) (text : String) : Prop := ∀ b, calm t b = true → calm s (text.toList ++ b) = true

theorem CalmTo.append {s t u : Bool} {b : String} (ha : CalmTo s t a) (hb : CalmTo t u b) : CalmTo s u (a ++ b) := by
  intro c hc
  rw [String.toList_append, append_assoc]
  exact ha _ (hb c hc)

theorem CalmTo.unbroken (h : '\n' ∉ a.toList) : CalmTo false false a := by
  intro b hb
  revert h
  induction a.toList with
  | nil => exact fun _ => hb
  | cons c cs ih =>
    intro h
    rw [mem_cons, not_or] at h
    rw [cons_append, calm, beq_eq_false_iff_ne.2 (Ne.symm h.1), ih h.2]
    rfl

theorem CalmTo.join (h : ∀ a ∈ l, CalmTo true true a) : CalmTo true true (String.join l) := by
  induction l with
  | nil => exact fun b hb => hb
  | cons a l ih =>
    rw [String.join_cons]
    exact (h a (mem_cons_self ..)).append (ih fun x hx => h x (mem_cons_of_mem _ hx))

variable {serde : Serde}

section

variable (hline : ∀ v, '\n' ∉ (serde.line v).toList)
include hline

variable {doc : V → Doc} {records : List (Uid × V)}

theorem calmTo_sectionText (hname : '\n' ∉ name.toList) : CalmTo true false (sectionText serde name doc records) := by
  have hopen : CalmTo true true ("  \"" ++ name ++ "\": \x7b\n\n") :=
    (CalmTo.append (t := false) (fun b hb => hb) (.unbroken hname)).append fun b hb => hb
  refine (hopen.append (.join ?_)).append fun b hb => hb
  intro a ha
  obtain ⟨e, -, rfl⟩ := mem_map.1 ha
  have hkey : CalmTo true false ("    " ++ serde.line (.text e.1.text)) := CalmTo.append (t := false) (fun b hb => hb) (.unbroken (hline _))
  exact ((hkey.append (t := false) fun b hb => hb).append (.unbroken (hline _))).append fun b hb => hb

theorem calmTo_optionalSection (hname : '\n' ∉ name.toList) :
    ∀ a ∈ optionalSection serde name doc records, CalmTo true false a := by
  intro a ha
  rw [optionalSection] at ha
  split at ha
  · cases ha
  · rw [mem_singleton] at ha
    rw [ha]
    exact calmTo_sectionText hline hname

theorem calmTo_topTexts (file : TreeFile) : ∀ a ∈ topTexts serde file, CalmTo true false a := by
  have hfield : ∀ (key : String) (v : Doc), '\n' ∉ key.toList →
      CalmTo true false ("  \"" ++ key ++ "\": " ++ serde.line v) := by
    intro key v hkey
    have hopen : CalmTo true false ("  \"" ++ key) := CalmTo.append (t := false) (fun b hb => hb) (.unbroken hkey)
    exact (hopen.append (t := false) fun b hb => hb).append (.unbroken (hline v))
  intro a ha
  rw [topTexts, mem_append, mem_append] at ha
  obtain (ha | ha) | ha := ha
  · simp only [mem_cons, not_mem_nil, or_false] at ha
    obtain rfl | rfl | rfl | rfl := ha
    · exact hfield "_generated" _ (by decide)
    · exact fun b hb => hb
    · exact hfield "uid" _ (by decide)
    · refine hfield _ _ ?_
      cases file.body with
      | table t => exact (by decide : '\n' ∉ "table".toList)
      | role n => exact (by decide : '\n' ∉ "role".toList)
      | type n => exact (by decide : '\n' ∉ "type".toList)
      | extension n => exact (by decide : '\n' ∉ "extension".toList)
  · cases hd : file.dropped with
    | none => rw [hd] at ha; cases ha
    | some tomb =>
      rw [hd, mem_singleton] at ha
      rw [ha]
      exact hfield "dropped" _ (by decide)
  · cases hb : file.body with
    | table t =>
      rw [hb, mem_cons, mem_append, mem_append, mem_append] at ha
      obtain rfl | ((ha | ha) | ha) | ha := ha
      · exact calmTo_sectionText hline (by decide)
      · exact calmTo_optionalSection hline (by decide) a ha
      · exact calmTo_optionalSection hline (by decide) a ha
      · exact calmTo_optionalSection hline (by decide) a ha
      · exact calmTo_optionalSection hline (by decide) a ha
    | role n => rw [hb] at ha; cases ha
    | type n => rw [hb] at ha; cases ha
    | extension n => rw [hb] at ha; cases ha

end

theorem calmTo_intercalate (hl : l ≠ []) (h : ∀ a ∈ l, CalmTo true false a) : CalmTo true false (",\n".intercalate l) := by
  induction l with
  | nil => exact absurd rfl hl
  | cons a l ih =>
    cases l with
    | nil =>
      rw [String.intercalate_singleton]
      exact h a (mem_cons_self ..)
    | cons b l =>
      rw [String.intercalate_cons_cons]
      have hsep : CalmTo true true (a ++ ",\n") := (h a (mem_cons_self ..)).append fun c hc => hc
      exact hsep.append (ih (by simp) fun x hx => h x (mem_cons_of_mem _ hx))

theorem any_isMarker_render (hline : ∀ v, '\n' ∉ (serde.line v).toList) (file : TreeFile) :
    (lines (render serde file).toList).any isMarker = false := by
  have hopen : CalmTo true true "\x7b\n" := fun b hb => hb
  have htop := calmTo_intercalate (by simp [topTexts]) (calmTo_topTexts hline file)
  have hcalm : CalmTo true true (render serde file) := (hopen.append htop).append fun b hb => hb
  refine any_isMarker_of_calm ?_
  have := hcalm [] rfl
  rwa [append_nil] at this

end Markers

/-! ### The fields -/

section Fields

def readSection {V : Type} (records : List (Uid × V)) : Option (Section V) :=
  if records.isEmpty then none else some { records := records.map fun e => (e.1.text, e.2), end_ := .last }

variable {path : String} {file : TreeFile}

variable {V : Type} {kind : UidKind} {name : String}

variable {records : List (Uid × V)}

theorem keyed_readSection (h : Keyed kind records) : keyed path name (readSection records) kind false = .ok records := by
  rw [readSection]
  split
  · next he => rw [List.isEmpty_iff.1 he]; rfl
  · exact keyed_section h

theorem foldlM_optional {value : Doc → Option V} {doc : V → Doc} {raw : Raw} {f : Option (Section V) → Raw}
    (hdoc : ∀ v, value (doc v) = some v) (h : Keyed kind records) (hnone : f none = raw)
    (hvisit : ∀ d, Raw.visit raw (name, d) = (Section.read value d).map fun s => f (some s)) :
    (optionalDoc name doc records).foldlM Raw.visit raw = .ok (f (readSection records)) := by
  rw [optionalDoc, readSection]
  split
  · rw [hnone]; rfl
  · rw [foldlM_cons, hvisit, read_sectionDoc hdoc h]
    rfl

/-- The sections of a file are of anchors of their kinds, each once. -/
def TreeFile.KeyedSections (file : TreeFile) : Prop :=
  match file.body with
  | .table t => Keyed .column t.columns ∧ Keyed .table t.partitions ∧ Keyed .table t.moves ∧ Keyed .column t.conversions ∧
    Keyed .table t.rebuilds
  | _ => True

def rawOf (file : TreeFile) : Raw :=
  { generated := some GENERATED, format := some FORMAT, uid := some file.uid, dropped := file.dropped
    table := match file.body with | .table t => some t.table | _ => none
    role := match file.body with | .role n => some n | _ => none
    ty := match file.body with | .type n => some n | _ => none
    extension := match file.body with | .extension n => some n | _ => none
    columns := match file.body with
      | .table t => some { records := t.columns.map fun e => (e.1.text, e.2), end_ := .last }
      | _ => none
    partitions := match file.body with | .table t => readSection t.partitions | _ => none
    moves := match file.body with | .table t => readSection t.moves | _ => none
    conversions := match file.body with | .table t => readSection t.conversions | _ => none
    rebuilds := match file.body with | .table t => readSection t.rebuilds | _ => none }

theorem rec_doc (r : Rec) : Doc.rec? r.doc = some r := by
  cases r <;> rfl

def rawHead (file : TreeFile) : Raw :=
  { rawOf file with columns := none, partitions := none, moves := none, conversions := none, rebuilds := none }

theorem foldlM_head (huid : file.uid.WellFormed) :
    ([("_generated", .text GENERATED), ("format", .number FORMAT), ("uid", .text file.uid.text),
      (file.body.key.1, .text file.body.key.2)] ++
      (match file.dropped with
        | some tomb => [("dropped", .tombstone tomb)]
        | none => [])).foldlM Raw.visit {} = .ok (rawHead file) := by
  have hparse : Uid.parse file.uid.text = .ok file.uid := huid
  obtain ⟨uid, body, dropped⟩ := file
  cases body <;> cases dropped <;>
    simp [Raw.visit, once, plain, Doc.text?, Doc.number?, Doc.uid?, Doc.tombstone?, Body.key, hparse, rawHead, rawOf,
      Except.toOption, Except.map, pure, Except.pure, bind, Except.bind]

/-- A written document is read as it was. -/
theorem read_document (huid : file.uid.WellFormed) (h : file.KeyedSections) : Raw.read (document file) = .ok (rawOf file) := by
  rw [document, Raw.read, foldlM_append, foldlM_head huid]
  obtain ⟨uid, body, dropped⟩ := file
  cases body with
  | table t =>
    obtain ⟨hcolumns, hpartitions, hmoves, hconversions, hrebuilds⟩ := h
    -- The raw fields after each section.
    let raw0 := rawHead ⟨uid, .table t, dropped⟩
    let raw1 : Raw := { raw0 with columns := some { records := t.columns.map fun e => (e.1.text, e.2), end_ := .last } }
    let raw2 : Raw := { raw1 with partitions := readSection t.partitions }
    let raw3 : Raw := { raw2 with moves := readSection t.moves }
    let raw4 : Raw := { raw3 with conversions := readSection t.conversions }
    have h1 : Raw.visit raw0 ("columns", sectionDoc Rec.doc t.columns) = .ok raw1 := by
      show (do return { raw0 with columns := ← once "columns" none (Section.read Doc.rec?) (sectionDoc Rec.doc t.columns) }) = _
      rw [once, read_sectionDoc rec_doc hcolumns]
      rfl
    have h2 : (optionalDoc "partitions" Rec.doc t.partitions).foldlM Raw.visit raw1 = .ok raw2 :=
      foldlM_optional (f := fun s => { raw1 with partitions := s }) rec_doc hpartitions rfl fun d => by
        show ((Section.read Doc.rec? d).map some >>= fun s => pure { raw1 with partitions := s }) = _
        cases Section.read Doc.rec? d <;> rfl
    have h3 : (optionalDoc "moves" .move t.moves).foldlM Raw.visit raw2 = .ok raw3 :=
      foldlM_optional (f := fun s => { raw2 with moves := s }) (fun m => (rfl : Doc.move? (.move m) = some m)) hmoves rfl
        fun d => by
        show ((Section.read Doc.move? d).map some >>= fun s => pure { raw2 with moves := s }) = _
        cases Section.read Doc.move? d <;> rfl
    have h4 : (optionalDoc "conversions" .conversion t.conversions).foldlM Raw.visit raw3 = .ok raw4 :=
      foldlM_optional (f := fun s => { raw3 with conversions := s })
        (fun c => (rfl : Doc.conversion? (.conversion c) = some c)) hconversions rfl fun d => by
        show ((Section.read Doc.conversion? d).map some >>= fun s => pure { raw3 with conversions := s }) = _
        cases Section.read Doc.conversion? d <;> rfl
    have h5 : (optionalDoc "rebuilds" .rebuild t.rebuilds).foldlM Raw.visit raw4 = .ok (rawOf ⟨uid, .table t, dropped⟩) :=
      foldlM_optional (f := fun s => { raw4 with rebuilds := s }) (fun r => (rfl : Doc.rebuild? (.rebuild r) = some r))
        hrebuilds rfl fun d => by
        show ((Section.read Doc.rebuild? d).map some >>= fun s => pure { raw4 with rebuilds := s }) = _
        cases Section.read Doc.rebuild? d <;> rfl
    show List.foldlM Raw.visit raw0 _ >>= Raw.complete = _
    rw [foldlM_cons, h1]
    show List.foldlM Raw.visit raw1 _ >>= Raw.complete = _
    rw [foldlM_append, foldlM_append, foldlM_append, h2]
    show ((List.foldlM Raw.visit raw2 _ >>= _) >>= _) >>= Raw.complete = _
    rw [h3]
    show (List.foldlM Raw.visit raw3 _ >>= _) >>= Raw.complete = _
    rw [h4]
    show List.foldlM Raw.visit raw4 _ >>= Raw.complete = _
    rw [h5]
    rfl
  | role n => rfl
  | type n => rfl
  | extension n => rfl

theorem body_rawOf (h : file.KeyedSections) : (rawOf file).body path = .ok file.body := by
  obtain ⟨uid, body, dropped⟩ := file
  cases body with
  | table t =>
    obtain ⟨hcolumns, hpartitions, hmoves, hconversions, hrebuilds⟩ := h
    show (do
      let columns ← keyed path "columns" (some _) .column true
      let partitions ← keyed path "partitions" (readSection t.partitions) .table false
      let moves ← keyed path "moves" (readSection t.moves) .table false
      let conversions ← keyed path "conversions" (readSection t.conversions) .column false
      let rebuilds ← keyed path "rebuilds" (readSection t.rebuilds) .table false
      return Body.table { table := t.table, columns, partitions, moves, conversions, rebuilds }) = _
    rw [keyed_section hcolumns, keyed_readSection hpartitions, keyed_readSection hmoves, keyed_readSection hconversions,
      keyed_readSection hrebuilds]
    rfl
  | role n => rfl
  | type n => rfl
  | extension n => rfl

theorem parse_render {serde : Serde} (hserde : serde.Reads file) (huid : file.uid.WellFormed) (h : file.KeyedSections)
    (hcheck : check path file = .ok ()) : parse serde path (render serde file) = .ok file := by
  have hnamed : (rawOf file).named = true := by
    obtain ⟨uid, body, dropped⟩ := file
    cases body <;> rfl
  have hdoc : (serde.fromStr (render serde file)).mapError (fun message => TreeError.malformed path message) =
      .ok (document file) := by
    rw [hserde.document]
    rfl
  have hraw : (Raw.read (document file)).mapError (readError path) = .ok (rawOf file) := by
    rw [read_document huid h]
    rfl
  have huid' : (rawOf file).uid = some file.uid := rfl
  have hformat : (rawOf file).format = some FORMAT := rfl
  have hdropped : (rawOf file).dropped = file.dropped := rfl
  simp [parse, any_isMarker_render hserde.unbroken, hdoc, hraw, huid', hformat, hdropped, hnamed, body_rawOf h, hcheck,
    bind, Except.bind, pure, Except.pure]

end Fields

end Pbps.Tree
