/-
The identity-tree validator: `check` of `ids_check.rs`. It takes the tree's texts and the declarations they mirror, and
gives every finding and not the first. `assemble` and `parse` stay the readers; the validator maps their refusals onto
codes, counts claims on its own, and compares the live files with the declarations at their mirrored paths.
-/
import Pbps.Lib.Lists
import Pbps.Tree.Assemble

namespace Pbps.Tree.IdsCheck

open Std (ExtTreeMap)
open Group (grouped firsts)

/-- A stable code. -/
inductive Code where
  | yamlWithoutIds
  | orphan
  | nameMismatch
  | duplicateUid
  | droppedButDeclared
  | liveColumnInDropped
  | duplicateName
  | pathCollision
  | caseCollision
  | conflictMarkers
  | malformed
  | sentinelMissing
  | format
  | legacyLayout
  | legacyBesideTree
  | notCanonical
  | invalidMapping
  deriving DecidableEq, Repr, Ord

/-- One thing wrong, with the file it is about and what to do next. -/
structure Finding where
  code : Code
  path : String
  message : String
  remedy : String
  deriving DecidableEq, Repr

/-- A declaration file that carries an identity. -/
structure Declaration where
  yaml : String
  kind : UidKind
  name : String
  renamedFrom : Option String := none

/-- Both project-relative, with no trailing slash. -/
structure Layout where
  schemaDir : String
  idsDir : String

structure Input where
  layout : Layout
  declared : List Declaration
  /-- Path relative to the ids directory, to the file's text. -/
  ids : ExtTreeMap String String
  legacyFile : Bool := false

/-- How texts are said: the standard library's lowercase, a value from a file shown in a sentence, and the sentences of
the two error types. -/
structure Texts where
  lower : String → String
  escaped : String → String
  tree : TreeError → String
  ids : IdsError → String

variable (texts : Texts) (input : Input) (layout : Layout) (parsed : List (String × TreeFile))

def Layout.shown (rel : String) : String := layout.idsDir ++ "/" ++ rel

/-- `mirrored`: `<schema_dir>/<rel>/<name>.yml` is `<rel>/<name>.json`. -/
def mirrored (yaml : String) : Option String := do
  let below ← yaml.toList.dropPrefix? layout.schemaDir.toList
  let rel ← below.dropPrefix? ['/']
  let stem ← (rel.dropSuffix? ".yml".toList).or (rel.dropSuffix? ".yaml".toList)
  if stem.isEmpty then none else some (String.ofList stem ++ ".json")

/-! ## The files -/

def legacy : List Finding :=
  let dir := input.layout.idsDir
  if !input.legacyFile then []
  else if input.ids.isEmpty then
    [{ code := .legacyLayout, path := "schema.ids.json"
       message := s!"schema.ids.json is the old layout; this pbps reads {dir}/", remedy := "pbps ids migrate" }]
  else
    [{ code := .legacyBesideTree, path := "schema.ids.json", message := s!"both schema.ids.json and {dir}/ exist"
       remedy := "delete the old file after checking `git diff`" }]

def refusal : TreeError → Code × String
  | .conflictMarkers _ => (.conflictMarkers, "resolve the YAML, then `pbps ids resolve`")
  | .sentinelMissing _ _ | .sentinelNotLast _ _ => (.sentinelMissing, "`pbps ids resolve`, or restore the file from git")
  | .format _ _ => (.format, "`pbps ids resolve`, or restore the file from git")
  | .droppedWithLive _ => (.liveColumnInDropped, "`pbps ids resolve`")
  | .duplicateKey _ key =>
    -- A key repeated inside one file is a uid listed twice.
    match Uid.parse key with
    | .ok _ => (.duplicateUid, "keep one entry, delete the other, run `pbps ids fmt`")
    | .error _ => (.malformed, "`pbps ids resolve`, or restore the file from git")
  | _ => (.malformed, "`pbps ids resolve`, or restore the file from git")

def refused (shown : String) (e : TreeError) : Finding :=
  { code := (refusal e).1, path := shown, message := texts.tree e, remedy := (refusal e).2 }

def notCanonical (shown : String) : Finding :=
  { code := .notCanonical, path := shown, message := s!"{shown} is not in canonical form", remedy := "pbps ids fmt" }

def readOne (serde : Serde) (texts : Texts) (layout : Layout) (out : List (String × TreeFile) × List Finding) (e : String × String) :
    List (String × TreeFile) × List Finding :=
  let shown := layout.shown e.1
  match parse serde shown e.2 with
  | .ok file => (out.1 ++ [(e.1, file)], if render serde file = e.2 then out.2 else out.2 ++ [notCanonical shown])
  | .error err => (out.1, out.2 ++ [refused texts shown err])

/-- `read`: every file, and what each refusal means. -/
def read (serde : Serde) (texts : Texts) (input : Input) : List (String × TreeFile) × List Finding :=
  input.ids.toList.foldl (readOne serde texts input.layout) ([], [])

/-! ## One uid in two places -/

def Space.name : Space → String
  | .identity => "identity"
  | .moves => "moves"
  | .conversions => "conversions"
  | .rebuilds => "rebuilds"

def claimed (file : TreeFile) : List (Space × Uid) :=
  (.identity, file.uid) :: match file.body with
    | .table t =>
      (t.columns ++ t.partitions).map (fun e => (.identity, e.1)) ++ t.moves.map (fun e => (.moves, e.1)) ++
        t.conversions.map (fun e => (.conversions, e.1)) ++ t.rebuilds.map fun e => (.rebuilds, e.1)
    | _ => []

def seen : List ((Space × Uid) × List String) :=
  grouped (fun a b => (compare (Space.name a.1) (Space.name b.1)).then (compare a.2 b.2) ≠ .gt)
    (parsed.flatMap fun e => (claimed e.2).map (·, e.1))

def doubled (g : (Space × Uid) × List String) : Option Finding :=
  let uid := g.1.2.text
  let said (shown message : String) : Finding :=
    { code := .duplicateUid, path := shown, message, remedy := "keep one entry, delete the other, run `pbps ids fmt`" }
  match g.2.map layout.shown with
  | [a, b] => if a ≠ b then some (said a s!"{uid} appears in {a} and {b}") else some (said a s!"{uid} appears twice in {a}")
  | a :: _ => some (said a s!"{uid} appears twice in {a}")
  | [] => none

/-- `uids`: whether the tree is free of double claims, and those it has. -/
def uids : Bool × List Finding :=
  let twice := (seen parsed).filter fun g => 1 < g.2.length
  (twice.isEmpty, twice.filterMap (doubled layout))

/-! ## The mapping -/

def holds (file : TreeFile) (uid : Uid) : Bool :=
  file.uid == uid || match file.body with
    | .table t => (t.columns ++ t.partitions).any (·.1 == uid) || t.rebuilds.any (·.1 == uid)
    | _ => false

def invalidUid : IdsError → Option Uid
  | .liveAndTombstoned uid | .kindMismatch uid | .orphanColumn uid _ | .orphanMove uid | .invalidRebuild uid
  | .orphanConversion uid | .invalidConversion uid | .invalidDropRequirement uid | .notHeld uid _ => some uid
  | .unsupportedVersion _ _ | .duplicateName _ _ _ => none

def owner (uid : Uid) : String :=
  ((parsed.find? fun e => holds e.2 uid).map fun e => layout.shown e.1).getD "the identity tree"

/-- `mapping`: the checks that the mapping owns. -/
def mapping (serde : Serde) (texts : Texts) (input : Input) (parsed : List (String × TreeFile)) : List Finding :=
  match assemble serde input.ids with
  | .ok _ => []
  | .error (.ids inner) =>
    match inner with
    | .duplicateName a b _ =>
      let pa := owner input.layout parsed a
      let pb := owner input.layout parsed b
      [{ code := .duplicateName, path := pa, message := texts.ids inner ++ s!" (in {pa} and {pb})"
         remedy := "delete one of the two entries" }]
    | _ =>
      [{ code := .invalidMapping, path := ((invalidUid inner).map (owner input.layout parsed)).getD "the identity tree"
         message := texts.ids inner, remedy := "`pbps ids resolve`, or restore the file from git" }]
  -- Every per-file refusal was reported above.
  | .error _ => []

/-! ## The declarations -/

def agrees (d : Declaration) (recorded : String) : Bool := d.name == recorded || d.renamedFrom == some recorded

/-- Exactly one unpaired live file of the declaration's kind carries its name. -/
def relocatable (d : Declaration) (unpaired : List (String × TreeFile)) : Bool :=
  unpaired.countP (fun e => e.2.body.kind == d.kind && agrees d e.2.body.key.2) == 1

def placed : List (String × Declaration) :=
  input.declared.filterMap fun d => (mirrored input.layout d.yaml).map (·, d)

def declaredAt : List (String × Declaration) := firsts (fun a b => compare a b ≠ .gt) (placed input)

def misplaced (d : Declaration) : Option Finding :=
  let dir := layout.schemaDir
  match mirrored layout d.yaml with
  | some _ => none
  | none => some
    { code := .malformed, path := d.yaml, message := texts.escaped d.yaml ++ s!" is not a .yml or .yaml file under {dir}"
      remedy := "move the declaration under the schema directory" }

def unpaired : List (String × TreeFile) :=
  parsed.filter fun e => e.2.dropped.isNone && !(declaredAt input).any (·.1 == e.1)

def orphan (texts : Texts) (layout : Layout) (e : String × TreeFile) : Finding :=
  let shown := layout.shown e.1
  { code := .orphan, path := shown
    message := s!"{shown} names " ++ texts.escaped e.2.body.key.2 ++ " but no declaration is at its mirrored path"
    remedy := "moved the file: `pbps plan`; removed it: `pbps drop <name> --reason ...`" }

def atPath (e : String × Declaration) : Option Finding :=
  let shown := input.layout.shown e.1
  let d := e.2
  match (parsed.find? (·.1 == e.1)).map (·.2) with
  | none =>
    if !input.ids.contains e.1 && !relocatable d (unpaired input parsed) then
      some { code := .yamlWithoutIds, path := d.yaml
             message := texts.escaped d.name ++ " (" ++ d.yaml ++ s!") has no identity file at {shown}"
             remedy := "pbps plan" }
    else none
  | some file =>
    if file.dropped.isSome then
      some { code := .droppedButDeclared, path := shown
             message := s!"{shown} is marked dropped but " ++ d.yaml ++ " exists"
             remedy := "restore the table with a new uid (`pbps plan` after moving the old file aside), or remove the declaration" }
    else if file.body.kind ≠ d.kind || !agrees d file.body.key.2 then
      some { code := .nameMismatch, path := shown
             message := s!"{shown} says " ++ texts.escaped file.body.key.2 ++ " but the declaration " ++ d.yaml ++ " says " ++
               texts.escaped d.name
             remedy := "`pbps rename <old> <new>`, or add `renamed_from`" }
    else none

/-- `declarations`: the checks that compare the tree with the declarations. -/
def declarations : List Finding :=
  input.declared.filterMap (misplaced texts input.layout) ++ (unpaired input parsed).map (orphan texts input.layout) ++
    (declaredAt input).filterMap (atPath texts input parsed)

/-! ## Collisions -/

def pathCollision (layout : Layout) (g : String × List String) : Finding :=
  { code := .pathCollision, path := g.2.headD ""
    message := " and ".intercalate g.2 ++ " both map to " ++ layout.shown g.1, remedy := "rename one" }

def caseCollision (g : String × List String) : Option Finding :=
  let list := g.2.dedup.insertionSort fun a b => compare a b ≠ .gt
  if 1 < list.length then
    some { code := .caseCollision, path := list.headD "", message := " and ".intercalate list ++ " differ only in case"
           remedy := "rename one" }
  else none

/-- `collisions`: the ids paths are folded, not the YAML paths, so two extensions of one name are covered too. -/
def collisions : List Finding :=
  let byIds := grouped (fun a b => compare a b ≠ .gt) ((placed input).map fun e => (e.1, e.2.yaml))
  let rels := (placed input).map (·.1) ++ input.ids.toList.map (·.1)
  let folded := grouped (fun a b => compare a b ≠ .gt)
    (rels.map fun rel => (texts.lower (input.layout.shown rel), input.layout.shown rel))
  (byIds.filter fun g => 1 < g.2.length).map (pathCollision input.layout) ++ folded.filterMap caseCollision

/-- `check`: every finding, by path and code. -/
def check (serde : Serde) (texts : Texts) (input : Input) : List Finding :=
  let files := read serde texts input
  let clean := files.1.length = input.ids.size
  let claims := uids input.layout files.1
  let out := legacy input ++ files.2 ++ claims.2 ++
    (if clean ∧ claims.1 = true then mapping serde texts input files.1 else []) ++
    declarations texts input files.1 ++ collisions texts input
  out.insertionSort fun a b => (compare a.path b.path).then (compare a.code b.code) ≠ .gt

end Pbps.Tree.IdsCheck
