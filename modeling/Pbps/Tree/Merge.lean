/-
A three-way merge of one identity file: `merge` of `ids_merge.rs`. Name, tombstone and every section are merged on
their own, record by record; two different changes of one record are decided by what the resolved YAML declares where it
can say, and otherwise refused with both sides shown.
-/
import Pbps.Lib.ThreeWay
import Pbps.Tree.Layout
import Mathlib.Data.List.Sort

namespace Pbps.Tree

open Std (ExtTreeMap ExtTreeSet)
open ThreeWay (pick choose never)

/-- What the resolved YAML says about the file's declaration. -/
structure YamlView where
  name : Option String := none
  columns : List String := []

/-- A record the two sides changed differently, with both sides shown. -/
structure Conflict where
  uid : Uid
  sectionName : String
  ours : String
  theirs : String
  remedy : String
  deriving DecidableEq, Repr

def REMEDY : String :=
  "state the intent (`renamed_from` in the YAML, `pbps rename`, `pbps drop`), then run `pbps ids resolve` again"

section Merge

variable (serde : Serde)

def shown {V : Type} (doc : V → Doc) : Option V → String
  | none => "(absent)"
  | some v => serde.line (doc v)

def conflict {V : Type} (uid : Uid) (sectionName : String) (doc : V → Doc) (ours theirs : Option V) : Conflict :=
  { uid, sectionName, ours := shown serde doc ours, theirs := shown serde doc theirs, remedy := REMEDY }

def index {V : Type} (side : List (Uid × V)) : ExtTreeMap Uid V := .ofList side

def pushRecord {V : Type} (sectionName : String) (doc : V → Doc) (uid : Uid) (ours theirs : Option V)
    (out : List (Uid × V) × List Conflict) : Option (Option V) → List (Uid × V) × List Conflict
  | some (some v) => (out.1 ++ [(uid, v)], out.2)
  -- A record only one side deleted and the other left alone is gone.
  | some none => out
  | none => (out.1, out.2 ++ [conflict serde uid sectionName doc ours theirs])

/-- `records`: one section by uid, ours first and then what only theirs holds. -/
def records {V : Type} [DecidableEq V] (sectionName : String) (doc : V → Doc) (base ours theirs : List (Uid × V))
    (judge : V → V → Option V) (conflicts : List Conflict) : List (Uid × V) × List Conflict :=
  let b := index base
  let o := index ours
  let t := index theirs
  let uids := ours.map (·.1) ++ (theirs.map (·.1)).filter fun u => !o.contains u
  uids.foldl (fun out uid => pushRecord serde sectionName doc uid o[uid]? t[uid]? out (choose judge b[uid]? o[uid]? t[uid]?))
    ([], conflicts)

/-- `settle`: a text that both sides have. -/
def settle (uid : Uid) (sectionName : String) (base : Option String) (ours theirs : String) (yaml : Option String)
    (conflicts : List Conflict) : String × List Conflict :=
  match pick base (some ours) (some theirs) with
  | .ok v => (v.getD ours, conflicts)
  | .error () =>
    if yaml = some ours ∨ yaml = some theirs then (yaml.getD ours, conflicts)
    else (ours, conflicts ++ [conflict serde uid sectionName .text (some ours) (some theirs)])

/-- Two live local names for one column: the YAML keeps the one it declares. -/
def byYaml (yaml : YamlView) : Rec → Rec → Option Rec
  | .live x, .live y =>
    match yaml.columns.contains x, yaml.columns.contains y with
    | true, false => some (.live x)
    | false, true => some (.live y)
    | true, true | false, false => none
  | _, _ => none

def sorted {V : Type} (records : List (Uid × V)) : List (Uid × V) :=
  records.insertionSort fun a b => compare a.1 b.1 ≠ .gt

/-- `next_order`: a new column goes right after its YAML predecessor, or first, and the live ones then take the YAML
order in the slots they hold. -/
def nextOrder (existing declared : List Uid) (retired : ExtTreeSet Uid) : List Uid :=
  let kept := existing.filter fun u => declared.contains u || retired.contains u
  let order := declared.zipIdx.foldl (fun order e =>
    if order.contains e.1 then order
    else
      let before := (if e.2 = 0 then none else declared[e.2 - 1]?).bind fun u => order.findIdx? (· = u)
      order.insertIdx (before.elim 0 (· + 1)) e.1) kept
  let slots := (List.range order.length).filter fun i => order[i]?.any declared.contains
  (slots.zip declared).foldl (fun order e => order.set e.1 e.2) order

def rankIn (order : List Uid) (u : Uid) : Nat :=
  match order.reverse.findIdx? (· = u) with
  | some i => order.length - 1 - i
  | none => order.length

/-- `restore_order`: back to the YAML's order. -/
def restoreOrder (columns : List (Uid × Rec)) (yaml : YamlView) : List (Uid × Rec) :=
  let retired : ExtTreeSet Uid := .ofList (columns.filterMap fun
    | (u, .dead _) => some u
    | (_, .live _) => none)
  let live : ExtTreeMap String Uid := .ofList (columns.filterMap fun
    | (u, .live n) => some (n, u)
    | (_, .dead _) => none)
  let order := nextOrder (columns.map (·.1)) (yaml.columns.filterMap fun n => live[n]?) retired
  columns.insertionSort fun a b => rankIn order a.1 ≤ rankIn order b.1

/-- `merge_table`: the sections of a table's file. -/
def mergeTable (name : String) (base ours theirs : TableBody) (yaml : YamlView) (conflicts : List Conflict) :
    TableBody × List Conflict :=
  let columns := records serde "columns" Rec.doc base.columns ours.columns theirs.columns (byYaml yaml) conflicts
  let partitions := records serde "partitions" Rec.doc base.partitions ours.partitions theirs.partitions never columns.2
  let moves := records serde "moves" .move base.moves ours.moves theirs.moves never partitions.2
  let conversions := records serde "conversions" .conversion base.conversions ours.conversions theirs.conversions never moves.2
  let rebuilds := records serde "rebuilds" .rebuild base.rebuilds ours.rebuilds theirs.rebuilds never conversions.2
  -- With no YAML view there is no order to restore, and the order the sides agree on stands.
  ({ table := name
     columns := if yaml.columns.isEmpty then columns.1 else restoreOrder columns.1 yaml
     partitions := partitions.1
     moves := sorted moves.1
     conversions := sorted conversions.1
     rebuilds := sorted rebuilds.1 }, rebuilds.2)

def showFile (file : TreeFile) : String := file.uid.text ++ " " ++ file.body.key.2

def tableBody : Option Body → TableBody
  | some (.table t) => t
  | _ => { table := "" }

def mergeOne (base : Option TreeFile) (only : TreeFile) (oursDeleted : Bool) : Except (List Conflict) (Option TreeFile) :=
  if some only = base then .ok none
  else if base.isNone then .ok (some only)
  else
    let kept := showFile only
    .error [{ uid := only.uid, sectionName := "file", ours := if oursDeleted then "(deleted)" else kept
              theirs := if oursDeleted then kept else "(deleted)", remedy := REMEDY }]

def settleDrop (uid : Uid) (base ours theirs : Option Tombstone) (conflicts : List Conflict) :
    Option Tombstone × List Conflict :=
  match pick base ours theirs with
  | .ok v => (v, conflicts)
  | .error () => (none, conflicts ++ [conflict serde uid "dropped" .tombstone ours theirs])

/-- The body of a file that both sides have, under the name that is settled. -/
def mergeBody (name : String) (base : Option Body) (ours theirs : Body) (yaml : YamlView) (conflicts : List Conflict) :
    Body × List Conflict :=
  match ours, theirs with
  | .table o, .table t =>
    let merged := mergeTable serde name (tableBody base) o t yaml conflicts
    (.table merged.1, merged.2)
  | .role _, _ => (.role name, conflicts)
  | .type _, _ => (.type name, conflicts)
  | _, _ => (.extension name, conflicts)

def mergeBoth (base : Option TreeFile) (ours theirs : TreeFile) (yaml : YamlView) : Except (List Conflict) (Option TreeFile) :=
  if ours.uid ≠ theirs.uid ∨ ours.body.key.1 ≠ theirs.body.key.1 then
    .error [{ uid := ours.uid, sectionName := "uid", ours := showFile ours, theirs := showFile theirs, remedy := REMEDY }]
  else
    let base := base.filter (·.uid = ours.uid)
    let name := settle serde ours.uid "name" (base.map (·.body.key.2)) ours.body.key.2 theirs.body.key.2 yaml.name []
    let dropped := settleDrop serde ours.uid (base.bind (·.dropped)) ours.dropped theirs.dropped name.2
    let body := mergeBody serde name.1 (base.map (·.body)) ours.body theirs.body yaml dropped.2
    if body.2.isEmpty then .ok (some { uid := ours.uid, body := body.1, dropped := dropped.1 }) else .error body.2

/-- `merge`: the file that follows, none when it is deleted, or every conflict. -/
def merge (base ours theirs : Option TreeFile) (yaml : YamlView) : Except (List Conflict) (Option TreeFile) :=
  match ours, theirs with
  | none, none => .ok none
  | some only, none => mergeOne base only false
  | none, some only => mergeOne base only true
  | some ours, some theirs => mergeBoth serde base ours theirs yaml

end Merge

end Pbps.Tree
