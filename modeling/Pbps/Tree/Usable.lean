/-
A clean check means a usable tree. The validator counts claims and compares names on its own, so that it can report every
finding; where it reports none, the tree assembles, every file is in canonical form, and the live files and the
declarations correspond one to one at their mirrored paths.
-/
import Pbps.Tree.Check
import Pbps.Tree.RoundTrip

namespace Pbps.Tree.IdsCheck

open Std (ExtTreeMap)
open Group (grouped firsts)
open List

/-! ## The files -/

section Files

variable {serde : Serde} {texts : Texts} {input : Input}

def fileFindings (serde : Serde) (texts : Texts) (layout : Layout) (e : String × String) : List Finding :=
  match parse serde (layout.shown e.1) e.2 with
  | .ok file => if render serde file = e.2 then [] else [notCanonical (layout.shown e.1)]
  | .error err => [refused texts (layout.shown e.1) err]

def parsedFiles (serde : Serde) (layout : Layout) (files : List (String × String)) : List (String × TreeFile) :=
  files.filterMap fun e => (parse serde (layout.shown e.1) e.2).toOption.map (e.1, ·)

theorem foldl_readOne (layout : Layout) (files : List (String × String)) (out : List (String × TreeFile) × List Finding) :
    files.foldl (readOne serde texts layout) out =
      (out.1 ++ parsedFiles serde layout files, out.2 ++ files.flatMap (fileFindings serde texts layout)) := by
  induction files generalizing out with
  | nil => simp [parsedFiles]
  | cons e files ih =>
    rw [foldl_cons, ih]
    unfold readOne parsedFiles fileFindings
    cases hparse : parse serde (layout.shown e.1) e.2 with
    | error err => simp [hparse, Except.toOption]
    | ok file =>
      by_cases hcanonical : render serde file = e.2
      · simp [hparse, Except.toOption, hcanonical]
      · simp [hparse, Except.toOption, hcanonical]

theorem read_eq : read serde texts input = (parsedFiles serde input.layout input.ids.toList,
    input.ids.toList.flatMap (fileFindings serde texts input.layout)) := by
  rw [read, foldl_readOne]
  simp

variable {layout : Layout} {files : List (String × String)}

theorem fileFindings_eq_nil {e : String × String} : fileFindings serde texts layout e = [] ↔
    ∃ f, parse serde (layout.shown e.1) e.2 = .ok f ∧ render serde f = e.2 := by
  unfold fileFindings
  cases hparse : parse serde (layout.shown e.1) e.2 with
  | error err => simp
  | ok file =>
    by_cases hcanonical : render serde file = e.2
    · simp [hcanonical]
    · simp [hcanonical]

theorem mem_parsedFiles {rel : String} {file : TreeFile} :
    (rel, file) ∈ parsedFiles serde layout files ↔ ∃ text, (rel, text) ∈ files ∧ parse serde rel text = .ok file := by
  simp only [parsedFiles, mem_filterMap, Option.map_eq_some_iff, Prod.mk.injEq]
  constructor
  · rintro ⟨⟨r, text⟩, he, f, hf, rfl, rfl⟩
    cases hparse : parse serde (layout.shown r) text with
    | error err => simp [hparse, Except.toOption] at hf
    | ok g =>
      simp only [hparse, Except.toOption, Option.some.injEq] at hf
      rw [← hf]
      exact ⟨text, he, parse_path hparse r⟩
  · rintro ⟨text, he, hparse⟩
    exact ⟨(rel, text), he, file, by simp [parse_path hparse (layout.shown rel), Except.toOption], rfl, rfl⟩

theorem map_snd_parsedFiles : (parsedFiles serde layout files).map (·.2) = readFiles serde files := by
  rw [parsedFiles, readFiles, map_filterMap]
  apply filterMap_congr
  intro e _
  have hshown : (parse serde (layout.shown e.1) e.2).toOption = (parse serde e.1 e.2).toOption := by
    cases hparse : parse serde e.1 e.2 with
    | ok f => rw [parse_path hparse (layout.shown e.1)]
    | error err =>
      cases hother : parse serde (layout.shown e.1) e.2 with
      | error err' => rfl
      | ok f =>
        rw [parse_path hother e.1] at hparse
        cases hparse
  rw [hshown, Option.map_map]
  exact Option.map_id'

end Files

/-! ## Claims -/

theorem claimed_eq (file : TreeFile) : claimed file = file.claims := by
  obtain ⟨uid, body, dropped⟩ := file
  cases body <;> simp [claimed, TreeFile.claims, TableBody.claims]

variable {layout : Layout}

theorem doubled_ne_none {g : (Space × Uid) × List String} (h : 1 < g.2.length) : doubled layout g ≠ none := by
  obtain ⟨k, paths⟩ := g
  unfold doubled
  dsimp only
  split
  · split <;> simp
  · simp
  · next hnil =>
    simp only [map_eq_nil_iff] at hnil
    rw [hnil] at h
    simp at h

theorem uids_eq {parsed : List (String × TreeFile)} :
    ((uids layout parsed).2 = [] ↔ ((parsed.map (·.2)).flatMap TreeFile.claims).Nodup) ∧
      ((uids layout parsed).1 = true ↔ ((parsed.map (·.2)).flatMap TreeFile.claims).Nodup) := by
  have hkeys : (parsed.flatMap fun e => (claimed e.2).map (·, e.1)).map (·.1) = (parsed.map (·.2)).flatMap TreeFile.claims := by
    simp [map_flatMap, flatMap_map, Function.comp_def, claimed_eq]
  have hnodup : ((parsed.map (·.2)).flatMap TreeFile.claims).Nodup ↔ ((seen parsed).filter fun g => 1 < g.2.length) = [] := by
    rw [← hkeys, Group.nodup_iff, filter_eq_nil_iff]
    simp only [decide_eq_true_eq]
    exact .rfl
  refine ⟨?_, ?_⟩
  · rw [hnodup, uids, filterMap_eq_nil_iff, eq_nil_iff_forall_not_mem]
    refine forall_congr' fun g => ⟨fun h hg => ?_, fun h hg => absurd hg h⟩
    exact doubled_ne_none (by simpa using (mem_filter.1 hg).2) (h hg)
  · rw [hnodup, uids, List.isEmpty_iff]

/-! ## The mapping -/

section Whole

variable {serde : Serde} {texts : Texts} {input : Input} {parsed : List (String × TreeFile)}

theorem assembles_of_mapping (hread : ∀ e ∈ input.ids.toList, ∃ f, parse serde e.1 e.2 = .ok f)
    (hnodup : ((readFiles serde input.ids.toList).flatMap TreeFile.claims).Nodup) (h : mapping serde texts input parsed = []) :
    ∃ ids, assemble serde input.ids = .ok ids := by
  have hassemble := assemble_of_nodup hread hnodup
  unfold mapping at h
  cases hvalidate : IdsFile.validate (((readFiles serde input.ids.toList).flatMap TreeFile.entries).foldl Entry.add {}) with
  | ok u =>
    rw [hvalidate] at hassemble
    exact ⟨_, hassemble⟩
  | error e =>
    -- The only refusal left is the mapping's own, and it is always said.
    rw [hvalidate] at hassemble
    rw [hassemble] at h
    cases e <;> cases h

/-! ## The declarations -/

theorem mem_placed {e : String × Declaration} : e ∈ placed input ↔ e.2 ∈ input.declared ∧ mirrored input.layout e.2.yaml = some e.1 := by
  obtain ⟨rel, d⟩ := e
  simp only [placed, mem_filterMap, Option.map_eq_some_iff, Prod.mk.injEq]
  constructor
  · rintro ⟨d', hd', r, hr, rfl, rfl⟩
    exact ⟨hd', hr⟩
  · rintro ⟨hd, hr⟩
    exact ⟨d, hd, rel, hr, rfl, rfl⟩

theorem nodup_placed (h : collisions texts input = []) : ((placed input).map (·.1)).Nodup := by
  have hbyIds := map_eq_nil_iff.1 (append_eq_nil_iff.1 h).1
  have hkeys : ((placed input).map fun e => (e.1, e.2.yaml)).map (·.1) = (placed input).map (·.1) := by
    rw [map_map]
    rfl
  rw [← hkeys, Group.nodup_iff]
  intro g hg hlen
  exact (filter_eq_nil_iff.1 hbyIds) g hg (by simpa using hlen)

variable {d : Declaration} {rel : String}

variable (h : declarations texts input parsed = [])
include h

theorem mirrored_of_declarations (hd : d ∈ input.declared) : ∃ rel, (rel, d) ∈ placed input := by
  simp only [declarations, append_eq_nil_iff, filterMap_eq_nil_iff] at h
  have hnone := h.1.1 d hd
  unfold misplaced at hnone
  cases hrel : mirrored input.layout d.yaml with
  | none =>
    rw [hrel] at hnone
    cases hnone
  | some rel => exact ⟨rel, mem_placed.2 ⟨hd, hrel⟩⟩

theorem declared_of_live {file : TreeFile} (hfile : (rel, file) ∈ parsed) (hlive : file.dropped = none) :
    ∃ d, (rel, d) ∈ placed input := by
  simp only [declarations, append_eq_nil_iff, map_eq_nil_iff] at h
  have hpaired := filter_eq_nil_iff.1 h.1.2 (rel, file) hfile
  simp only [hlive, Option.isNone_none, Bool.true_and, Bool.not_eq_true', Bool.not_eq_false] at hpaired
  obtain ⟨⟨rel', d⟩, hd, hrel⟩ := any_eq_true.1 hpaired
  obtain rfl : rel' = rel := by simpa using hrel
  exact ⟨d, Group.mem_of_mem_firsts hd⟩

theorem file_of_declared (hnodup : ((placed input).map (·.1)).Nodup)
    (hread : ∀ rel, input.ids.contains rel = true → ∃ file, (rel, file) ∈ parsed) (hd : (rel, d) ∈ placed input) :
    ∃ file, (rel, file) ∈ parsed ∧ file.dropped = none ∧ file.body.kind = d.kind ∧ agrees d file.body.key.2 = true := by
  simp only [declarations, append_eq_nil_iff, filterMap_eq_nil_iff, map_eq_nil_iff] at h
  have hnone := h.2 (rel, d) ((Group.mem_firsts hnodup).2 hd)
  unfold atPath at hnone
  dsimp only at hnone
  split at hnone
  · next hfind =>
    rw [Option.map_eq_none_iff, find?_eq_none] at hfind
    -- A path without a file is a finding, unless an orphan could be moved there; and that one is a finding.
    have hrelocatable : relocatable d (unpaired input parsed) = false := by
      rw [h.1.2]
      rfl
    split at hnone
    · cases hnone
    · next hguard =>
      rw [hrelocatable, Bool.not_false, Bool.and_true, Bool.not_eq_true', Bool.not_eq_false] at hguard
      obtain ⟨file, hfile⟩ := hread rel hguard
      exact absurd (by simp) (hfind (rel, file) hfile)
  · next file hfind =>
    obtain ⟨⟨rel', f⟩, hf, rfl⟩ := Option.map_eq_some_iff.1 hfind
    obtain rfl : rel' = rel := by simpa using find?_some hf
    split at hnone
    · cases hnone
    · next hlive =>
      split at hnone
      · cases hnone
      · next hnamed =>
        simp only [Bool.or_eq_true, decide_eq_true_eq, Bool.not_eq_true', not_or, not_not, Bool.not_eq_false] at hnamed
        exact ⟨f, mem_of_find?_eq_some hf, by simpa using hlive, hnamed.1, hnamed.2⟩

end Whole

/-! ## A clean check -/

/-- A tree that the other commands can use: it assembles, every file is what the writer would write, and the live files
are those of the declarations. -/
structure Usable (serde : Serde) (input : Input) : Prop where
  assembles : ∃ ids, assemble serde input.ids = .ok ids
  canonical : ∀ rel text, input.ids[rel]? = some text → ∃ file, parse serde rel text = .ok file ∧ render serde file = text
  mirrored : ∀ d ∈ input.declared, ∃ rel, mirrored input.layout d.yaml = some rel
  distinct : (input.declared.map fun d => IdsCheck.mirrored input.layout d.yaml).Nodup
  declared : ∀ d ∈ input.declared, ∀ rel, IdsCheck.mirrored input.layout d.yaml = some rel → ∃ text file,
    input.ids[rel]? = some text ∧ parse serde rel text = .ok file ∧ file.dropped = none ∧ file.body.kind = d.kind ∧
      (d.name = file.body.key.2 ∨ d.renamedFrom = some file.body.key.2)
  live : ∀ rel text file, input.ids[rel]? = some text → parse serde rel text = .ok file → file.dropped = none →
    ∃ d ∈ input.declared, IdsCheck.mirrored input.layout d.yaml = some rel

theorem parts_of_check {serde : Serde} {texts : Texts} {input : Input} (h : check serde texts input = []) :
    input.ids.toList.flatMap (fileFindings serde texts input.layout) = [] ∧
    (uids input.layout (parsedFiles serde input.layout input.ids.toList)).2 = [] ∧
    ((parsedFiles serde input.layout input.ids.toList).length = input.ids.size →
      (uids input.layout (parsedFiles serde input.layout input.ids.toList)).1 = true →
      mapping serde texts input (parsedFiles serde input.layout input.ids.toList) = []) ∧
    declarations texts input (parsedFiles serde input.layout input.ids.toList) = [] ∧ collisions texts input = [] := by
  unfold check at h
  have hout := ((perm_insertionSort _ _).symm.trans (.of_eq h)).eq_nil
  simp only [read_eq, append_eq_nil_iff] at hout
  obtain ⟨⟨⟨⟨⟨-, hfiles⟩, huids⟩, hmapping⟩, hdeclarations⟩, hcollisions⟩ := hout
  exact ⟨hfiles, huids, fun h1 h2 => by rwa [if_pos ⟨h1, h2⟩] at hmapping, hdeclarations, hcollisions⟩

/-- A check without findings means a usable tree, and a tree that does not assemble has a finding. -/
theorem check_usable (serde : Serde) (texts : Texts) (input : Input) : (check serde texts input = [] → Usable serde input) ∧
    ∀ e, assemble serde input.ids = .error e → check serde texts input ≠ [] := by
  have husable : check serde texts input = [] → Usable serde input := by
    intro h
    obtain ⟨hfiles, huids, hmapping, hdeclarations, hcollisions⟩ := parts_of_check h
    have hcanonical : ∀ e ∈ input.ids.toList, ∃ f, parse serde e.1 e.2 = .ok f ∧ render serde f = e.2 := by
      intro e he
      obtain ⟨f, hparse, hrender⟩ := fileFindings_eq_nil.1 (flatMap_eq_nil_iff.1 hfiles e he)
      exact ⟨f, parse_path hparse e.1, hrender⟩
    have hread : ∀ e ∈ input.ids.toList, ∃ f, parse serde e.1 e.2 = .ok f := fun e he => (hcanonical e he).imp fun _ => And.left
    have hclean : (parsedFiles serde input.layout input.ids.toList).length = input.ids.size := by
      have hlength := (forall₂_readFiles hread).length_eq
      rw [← @map_snd_parsedFiles serde input.layout, length_map, ExtTreeMap.length_toList] at hlength
      exact hlength.symm
    have hunique : ((readFiles serde input.ids.toList).flatMap TreeFile.claims).Nodup := by
      rw [← @map_snd_parsedFiles serde input.layout]
      exact uids_eq.1.1 huids
    have hplaced := nodup_placed hcollisions
    have hmem : ∀ {rel text : String}, input.ids[rel]? = some text ↔ (rel, text) ∈ input.ids.toList := by
      intro rel text
      rw [ExtTreeMap.mem_toList_iff_getElem?_eq_some]
    have hparsed : ∀ rel, input.ids.contains rel = true →
        ∃ file, (rel, file) ∈ parsedFiles serde input.layout input.ids.toList := by
      intro rel hrel
      obtain ⟨text, htext⟩ := ExtTreeMap.contains_iff_exists.1 hrel
      obtain ⟨file, hfile⟩ := hread _ (hmem.1 htext)
      exact ⟨file, mem_parsedFiles.2 ⟨text, hmem.1 htext, hfile⟩⟩
    refine ⟨?_, fun rel text htext => hcanonical (rel, text) (hmem.1 htext), fun d hd => ?_, ?_, fun d hd rel hrel => ?_,
      fun rel text file htext hparse hlive => ?_⟩
    · refine assembles_of_mapping hread hunique (hmapping hclean ?_)
      rw [uids_eq.2, map_snd_parsedFiles]
      exact hunique
    · obtain ⟨rel, hrel⟩ := mirrored_of_declarations hdeclarations hd
      exact ⟨rel, (mem_placed.1 hrel).2⟩
    · rw [placed, map_filterMap, List.Nodup, pairwise_filterMap] at hplaced
      rw [List.Nodup, pairwise_map]
      refine hplaced.imp_of_mem fun hd _ hne heq => ?_
      obtain ⟨rel, hrel⟩ := mirrored_of_declarations hdeclarations hd
      have hrel' := (mem_placed.1 hrel).2
      exact hne rel (by simp [hrel']) rel (by simp [← heq, hrel']) rfl
    · obtain ⟨file, hfile, hlive, hkind, hagrees⟩ := file_of_declared hdeclarations hplaced hparsed (mem_placed.2 ⟨hd, hrel⟩)
      obtain ⟨text, htext, hparse⟩ := mem_parsedFiles.1 hfile
      refine ⟨text, file, hmem.2 htext, hparse, hlive, hkind, ?_⟩
      simpa [agrees] using hagrees
    · obtain ⟨d, hd⟩ := declared_of_live hdeclarations (mem_parsedFiles.2 ⟨text, hmem.1 htext, hparse⟩) hlive
      exact ⟨d, mem_placed.1 hd⟩
  refine ⟨husable, fun e he hnil => ?_⟩
  obtain ⟨ids, hids⟩ := (husable hnil).assembles
  rw [he] at hids
  cases hids

namespace Mirrored

def file : TreeFile := ⟨⟨"t_aaaaaa"⟩, .table { table := "app.a", columns := [(⟨"c_aaaaa1"⟩, .live "id")] }, none⟩

def serde : Serde := Family.serde [file]

def texts : Texts where
  lower s := String.ofList (s.toList.map Char.toLower)
  escaped s := s
  tree _ := "the file is refused"
  ids _ := "the mapping is refused"

def inputOf (text : String) : Input where
  layout := ⟨"schema", ".pbps/ids"⟩
  declared := [{ yaml := "schema/a.yml", kind := .table, name := "app.a" }]
  ids := (∅ : ExtTreeMap String String).insert "a.json" text

def input : Input := inputOf (render serde file)

theorem parse_file (path : String) : parse serde path (render serde file) = .ok file := by
  have haccepted : file.Accepted := by
    refine ⟨by decide, ⟨⟨by decide, by decide, by decide⟩, ⟨by simp, by simp, by simp⟩, ⟨by simp, by simp, by simp⟩,
      ⟨by simp, by simp, by simp⟩, ⟨by simp, by simp, by simp⟩⟩, ?_⟩
    exact (@check_eq_ok "a.json" _).1 (by decide)
  exact haccepted.parse_render (reading_reads Family.line_unbroken (by simp) mem_cons_self) path

/-- A file in the writer's own form has nothing to refuse. -/
theorem inputOf_clean {serde : Serde} {text : String} (hparse : ∀ path, parse serde path text = .ok file)
    (hrender : render serde file = text) : check serde texts (inputOf text) = [] := by
  have htoList : (inputOf text).ids.toList = [("a.json", text)] := rfl
  have hparsed : parsedFiles serde (inputOf text).layout (inputOf text).ids.toList = [("a.json", file)] := by
    simp [htoList, parsedFiles, hparse, Except.toOption]
  have hfindings : (inputOf text).ids.toList.flatMap (fileFindings serde texts (inputOf text).layout) = [] := by
    simp [htoList, fileFindings, hparse, hrender]
  have hread : readFiles serde (inputOf text).ids.toList = [file] := by
    simp [htoList, readFiles, hparse, Except.toOption]
  have hmapping : mapping serde texts (inputOf text) [("a.json", file)] = [] := by
    have hassemble := @assemble_of_nodup (inputOf text).ids serde (by simp [htoList, hparse]) (by rw [hread]; decide)
    have hvalid : IdsFile.validate (([file].flatMap TreeFile.entries).foldl Entry.add {}) = .ok () := by decide
    rw [hread, hvalid] at hassemble
    unfold mapping
    rw [hassemble]
    rfl
  have huids : uids (inputOf text).layout [("a.json", file)] = (true, []) := by
    show uids ⟨"schema", ".pbps/ids"⟩ _ = _
    decide
  have hmirrored : mirrored ⟨"schema", ".pbps/ids"⟩ "schema/a.yml" = some "a.json" := by decide
  have hplaced : placed (inputOf text) = [("a.json", { yaml := "schema/a.yml", kind := .table, name := "app.a" })] := by
    simp [placed, inputOf, hmirrored]
  have hdeclaredAt : declaredAt (inputOf text) = [("a.json", { yaml := "schema/a.yml", kind := .table, name := "app.a" })] := by
    simp [declaredAt, firsts, grouped, Group.under, hplaced]
  have hdeclarations : declarations texts (inputOf text) [("a.json", file)] = [] := by
    have hmisplaced : (inputOf text).declared.filterMap (misplaced texts (inputOf text).layout) = [] := by
      simp [inputOf, misplaced, hmirrored]
    have hunpaired : unpaired (inputOf text) [("a.json", file)] = [] := by
      simp [unpaired, hdeclaredAt]
    have hat : atPath texts (inputOf text) [("a.json", file)]
        ("a.json", { yaml := "schema/a.yml", kind := .table, name := "app.a" }) = none := by
      simp [atPath, file, agrees, Body.kind, Body.key]
    simp [declarations, hmisplaced, hunpaired, hdeclaredAt, hat]
  have hcollisions : collisions texts (inputOf text) = [] := by
    simp [collisions, hplaced, htoList, grouped, Group.under, caseCollision]
  have hlegacy : legacy (inputOf text) = [] := rfl
  unfold check
  simp only [read_eq, hparsed, hfindings, hmapping, huids, hlegacy, hdeclarations, hcollisions, ite_self]
  rfl

/-- The tree is usable. -/
theorem check_usable_mirrored : Usable serde input := (check_usable serde texts input).1 (inputOf_clean parse_file rfl)

end Mirrored

end Pbps.Tree.IdsCheck
