/-
Identity files format to a fixed point (`pbps ids fmt`): the text that `render` lays out is a JSON spelling of the file's
document, so a file that `parse` returned is read back from it, and no other file has it.
-/
import Pbps.Lib.JsonText
import Pbps.Tree.RoundTrip

namespace Pbps.Tree

open Json (Blank Member Object)
open List

/-! ## How a document is spelled -/

def isPlainKey (k : String) : Bool := k.toList.all fun c => c.isAlpha || c == '_'

section Spelled

variable (line : Doc → String)

def KeyText (k : String) (t : List Char) : Prop :=
  t = (line (.text k)).toList ∨ isPlainKey k = true ∧ t = '"' :: (k.toList ++ ['"'])

/-- A value that is no object: a number, a flag, or plain data as the library spells it. -/
inductive ValueText : Doc → List Char → Prop
  | number (n : Nat) : ValueText (.number n) (toString n).toList
  | flag (b : Bool) : ValueText (.flag b) (toString b).toList
  | text (s : String) : ValueText (.text s) (line (.text s)).toList
  | tombstone (t : Tombstone) : ValueText (.tombstone t) (line (.tombstone t)).toList
  | move (m : Move) : ValueText (.move m) (line (.move m)).toList
  | conversion (c : Conversion) : ValueText (.conversion c) (line (.conversion c)).toList
  | rebuild (r : Rebuild) : ValueText (.rebuild r) (line (.rebuild r)).toList

/-- A field of a file: a value, or a section of values. -/
inductive FieldText : Doc → List Char → Prop
  | value {d : Doc} {t : List Char} (h : ValueText line d t) : FieldText d t
  | section_ {entries : List (String × Doc)} {t : List Char} (h : Object (KeyText line) (ValueText line) entries t) :
      FieldText (.object entries) t

/-- A file's document. -/
inductive FileText : Doc → List Char → Prop
  | mk {entries : List (String × Doc)} {t : List Char} (h : Object (KeyText line) (FieldText line) entries t) :
      FileText (.object entries) t

end Spelled

/-- What the library does with one file: its spelling of plain data breaks no line, and a text that spells the file's
document, white space aside, is read as this document. -/
structure Serde.ReadsSpelled (serde : Serde) (file : TreeFile) : Prop where
  unbroken : ∀ v, '\n' ∉ (serde.line v).toList
  reads : ∀ t after, FileText serde.line (document file) t → Blank after →
    serde.fromStr (String.ofList (t ++ after)) = .ok (document file)

/-! ## The layout -/

section Layout

variable {serde : Serde}

variable {V : Type} {k name : String} {d : Doc}

variable {doc : V → Doc}

theorem object_sectionText (hdoc : ∀ v, ValueText serde.line (doc v) (serde.line (doc v)).toList) (records : List (Uid × V)) :
    ∃ t, FieldText serde.line (sectionDoc doc records) t ∧
      ∀ name, (sectionText serde name doc records).toList = ("  \"" ++ name ++ "\": ").toList ++ t := by
  let line : Uid × V → List Char := fun e =>
    "    ".toList ++ (serde.line (.text e.1.text)).toList ++ ':' :: ' ' :: (serde.line (doc e.2)).toList
  let last : List Char := "    ".toList ++ ('"' :: ("_end".toList ++ ['"'])) ++ ':' :: ' ' :: (toString true).toList
  refine ⟨_, .section_ (@Json.Object.mk _ _ _ _ _ (records.map (fun e => ['\n', '\n'] ++ line e) ++ [['\n', '\n'] ++ last])
    "\n\n  ".toList ?_ (Json.blank_of_all (by decide))), fun name => ?_⟩
  · refine rel_append ?_ (.cons ?_ .nil)
    · rw [forall₂_map_left_iff, forall₂_map_right_iff]
      refine forall₂_same.2 fun e _ => ?_
      have hm : Member (KeyText serde.line) (ValueText serde.line) (e.1.text, doc e.2)
          ("\n\n    ".toList ++ (serde.line (.text e.1.text)).toList ++ ':' :: ' ' :: (serde.line (doc e.2)).toList) :=
        .spaced (Json.blank_of_all (by decide)) (.inl rfl) (hdoc e.2)
      exact hm
    · have hm : Member (KeyText serde.line) (ValueText serde.line) ("_end", .flag true)
          ("\n\n    ".toList ++ ('"' :: ("_end".toList ++ ['"'])) ++ ':' :: ' ' :: (toString true).toList) :=
        .spaced (Json.blank_of_all (by decide)) (.inr ⟨by decide, rfl⟩) (.flag true)
      exact hm
  · rw [← Json.intercalate_lines]
    simp [sectionText, line, last, flatMap_map, append_assoc]
    rfl

def FieldLine (serde : Serde) (e : String × Doc) (a : String) : Prop :=
  Member (KeyText serde.line) (FieldText serde.line) e ('\n' :: a.toList)

theorem fieldLine_of_text {a : String} {t : List Char} (hk : isPlainKey k = true) (h : FieldText serde.line d t)
    (ha : a.toList = ("  \"" ++ k ++ "\": ").toList ++ t) : FieldLine serde (k, d) a := by
  have hm : Member (KeyText serde.line) (FieldText serde.line) (k, d)
      ("\n  ".toList ++ ('"' :: (k.toList ++ ['"'])) ++ ':' :: ' ' :: t) :=
    .spaced (Json.blank_of_all (by decide)) (.inr ⟨hk, rfl⟩) h
  rw [FieldLine, ha]
  simpa using hm

theorem fieldLine_line (hk : isPlainKey k = true) (h : ValueText serde.line d (serde.line d).toList) :
    FieldLine serde (k, d) ("  \"" ++ k ++ "\": " ++ serde.line d) :=
  fieldLine_of_text hk (.value h) String.toList_append

section

variable (hdoc : ∀ v, ValueText serde.line (doc v) (serde.line (doc v)).toList) (hname : isPlainKey name = true)
variable (records : List (Uid × V))
include hdoc hname records

theorem fieldLine_section : FieldLine serde (name, sectionDoc doc records) (sectionText serde name doc records) := by
  obtain ⟨t, ht, htext⟩ := object_sectionText hdoc records
  exact fieldLine_of_text hname ht (htext name)

theorem fieldLines_optional :
    Forall₂ (FieldLine serde) (optionalDoc name doc records) (optionalSection serde name doc records) := by
  rw [optionalDoc, optionalSection]
  split
  · exact .nil
  · exact .cons (fieldLine_section hdoc hname records) .nil

end

theorem valueText_rec (r : Rec) : ValueText serde.line r.doc (serde.line r.doc).toList := by
  cases r with
  | live name => exact .text name
  | dead tomb => exact .tombstone tomb

theorem fieldLines_topTexts (serde : Serde) (file : TreeFile) :
    ∃ entries, document file = .object entries ∧ Forall₂ (FieldLine serde) entries (topTexts serde file) := by
  refine ⟨_, rfl, rel_append (rel_append ?_ ?_) ?_⟩
  · refine .cons (fieldLine_line (by decide) (.text _)) (.cons ?_ (.cons (fieldLine_line (by decide) (.text _)) (.cons ?_ .nil)))
    · exact fieldLine_of_text (by decide) (.value (.number FORMAT)) String.toList_append
    · refine fieldLine_line ?_ (.text _)
      cases file.body with
      | table t => exact (by decide : isPlainKey "table" = true)
      | role n => exact (by decide : isPlainKey "role" = true)
      | type n => exact (by decide : isPlainKey "type" = true)
      | extension n => exact (by decide : isPlainKey "extension" = true)
  · cases file.dropped with
    | none => exact .nil
    | some tomb => exact .cons (fieldLine_line (by decide) (.tombstone tomb)) .nil
  · cases file.body with
    | table t =>
      refine .cons (fieldLine_section valueText_rec (by decide) t.columns) (rel_append (rel_append (rel_append ?_ ?_) ?_) ?_)
      · exact fieldLines_optional valueText_rec (by decide) t.partitions
      · exact fieldLines_optional (fun m => .move m) (by decide) t.moves
      · exact fieldLines_optional (fun c => .conversion c) (by decide) t.conversions
      · exact fieldLines_optional (fun r => .rebuild r) (by decide) t.rebuilds
    | role n => exact .nil
    | type n => exact .nil
    | extension n => exact .nil

theorem render_spells (serde : Serde) (file : TreeFile) :
    ∃ t, FileText serde.line (document file) t ∧ (render serde file).toList = t ++ ['\n'] := by
  obtain ⟨entries, hdoc, hlines⟩ := fieldLines_topTexts serde file
  have hne : (topTexts serde file).map String.toList ≠ [] := by simp [topTexts]
  rw [hdoc]
  refine ⟨_, .mk (@Json.Object.mk _ _ _ _ _ (((topTexts serde file).map String.toList).map (['\n'] ++ ·)) ['\n'] ?_
    (Json.blank_of_all (by decide))), ?_⟩
  · rw [map_map, forall₂_map_right_iff]
    exact hlines
  · rw [← Json.intercalate_indented ['\n'] hne, render]
    simp [String.toList_intercalate, append_assoc]

end Layout

/-! ## Formatting -/

theorem Serde.ReadsSpelled.reads_render {serde : Serde} {file : TreeFile} (h : serde.ReadsSpelled file) : serde.Reads file := by
  obtain ⟨t, ht, hrender⟩ := render_spells serde file
  refine ⟨h.unbroken, ?_⟩
  rw [← h.reads t ['\n'] ht (Json.blank_of_all (by decide)), ← hrender, String.ofList_toList]

/-- `pbps ids fmt` on one file: the canonical bytes, where the file does not have them. -/
def fmt (serde : Serde) (path text : String) : Except TreeError (Option String) :=
  (parse serde path text).map fun file => if render serde file = text then none else some (render serde file)

/-- A file that was read formats to a text it is read from, that formatting leaves alone, and that no other file formats to. -/
theorem format_fixed (serde : Serde) (path text : String) (file : TreeFile) (h : parse serde path text = .ok file)
    (hserde : serde.ReadsSpelled file) : parse serde path (render serde file) = .ok file ∧
      fmt serde path (render serde file) = .ok none ∧
      ∀ path' text' other, parse serde path' text' = .ok other → serde.ReadsSpelled other →
        render serde other = render serde file → other = file := by
  have hback : parse serde path (render serde file) = .ok file :=
    (accepted_of_parse h).parse_render hserde.reads_render path
  refine ⟨hback, ?_, fun path' text' other hother hreads hsame => ?_⟩
  · rw [fmt, hback]
    exact congrArg Except.ok (if_pos rfl)
  · have hback' : parse serde path (render serde other) = .ok other :=
      (accepted_of_parse hother).parse_render hreads.reads_render path
    rw [hsame, hback] at hback'
    exact (Except.ok.inj hback').symm

/-- What `split` writes is formatted already: every file of it is read, and formatting leaves it alone. -/
theorem split_formatted (serde : Serde) (ids : IdsFile) (p : Placement) (out : Std.ExtTreeMap String String)
    (hwf : ∀ u : Uid, ids.containsUid u = true → u.WellFormed)
    (hserde : ∀ files, splitFiles ids p = .ok files → ∀ w ∈ files, serde.Reads w.2) (h : split serde ids p = .ok out)
    (path text : String) (ht : out[path]? = some text) : fmt serde path text = .ok none := by
  obtain ⟨written, hwritten, hout⟩ := Except.bind_eq_ok_iff.1 h
  cases hout
  obtain ⟨files, r, hsplits⟩ := splits_of_splitFiles hwritten
  obtain ⟨w, hw, heq⟩ := mem_map.1 (Std.ExtTreeMap.mem_of_getElem?_ofList ht)
  cases heq
  rw [fmt, (hsplits.accepted hwf hw).parse_render (hserde written hwritten w hw) w.1]
  exact congrArg Except.ok (if_pos rfl)

namespace Family

def reader (file : TreeFile) : Serde where
  line := line
  fromStr text := if text.toList.head? = some '\x7b' then .ok (document file) else .error "expected value"

theorem reader_readsSpelled (file : TreeFile) : (reader file).ReadsSpelled file := by
  refine ⟨line_unbroken, fun t after ht _ => ?_⟩
  cases ht with
  | mk h =>
    cases h with
    | mk members close =>
      simp only [reader, String.toList_ofList, cons_append, List.head?_cons, if_true]

theorem parentFile_accepted : parentFile.Accepted := by
  refine ⟨by decide, ⟨⟨by simp, by simp, .nil⟩, ⟨by decide, by decide, by decide⟩, ⟨by simp, by simp, .nil⟩,
    ⟨by simp, by simp, .nil⟩, ⟨by simp, by simp, .nil⟩⟩, ?_⟩
  exact (@check_eq_ok "a.json" _).1 (by decide)

/-- A parent's file, with its partition in it. -/
theorem format_fixed_family : fmt (reader parentFile) "a.json" (render (reader parentFile) parentFile) = .ok none := by
  have hreads := reader_readsSpelled parentFile
  have hparse := parentFile_accepted.parse_render hreads.reads_render "a.json"
  exact (format_fixed (reader parentFile) "a.json" _ parentFile hparse hreads).2.1

theorem split_formatted_family : fmt (reader parentFile) "a.json" (render (reader parentFile) parentFile) = .ok none := by
  refine split_formatted _ ids placement (.ofList [("a.json", render (reader parentFile) parentFile)]) wellFormed ?_ ?_ _ _ (by simp)
  · rw [splitFiles_placement]
    rintro files ⟨⟩ w hw
    exact mem_singleton.1 hw ▸ (reader_readsSpelled parentFile).reads_render
  · rw [split, splitFiles_placement]
    rfl

end Family

end Pbps.Tree
