/-
`IdsIndex`: the reverse lookups over one identity file that `ids.rs` builds in one pass, and the scans of the file they
replace.
-/
import Pbps.Lib.Reverse
import Pbps.Model.Ids

namespace Pbps

open Std (ExtTreeMap)

/-- Name-to-uid lookups over one file. -/
structure IdsIndex where
  types : ExtTreeMap TypeRef Uid
  tables : ExtTreeMap TableName Uid
  columns : ExtTreeMap ColumnRef Uid
  roles : ExtTreeMap String Uid
  columnsByTable : ExtTreeMap TableName (ExtTreeMap Uid ColumnRef)

/-- `IdsIndex::of`: in uid order, keeping the first; types in the other order, keeping the last. -/
def IdsIndex.of (ids : IdsFile) : IdsIndex where
  types := Reverse.lasts ids.types.toList.reverse ∅
  tables := Reverse.firsts ids.tables.toList ∅
  columns := Reverse.firsts ids.columns.toList ∅
  roles := Reverse.firsts ids.roles.toList ∅
  columnsByTable := Reverse.groups ColumnRef.table ids.columns.toList ∅

namespace IdsFile

variable (ids : IdsFile)

def index : IdsIndex := .of ids

/-- The name `recorded` has for the object this file calls `wanted`. -/
def resolvedIn (wanted : TableName) (recorded : IdsFile) : TableName :=
  ((ids.tableUid wanted).bind fun uid => recorded.tables[uid]?).getD wanted

end IdsFile

namespace IdsIndex

variable (index : IdsIndex)

def tableUid (name : TableName) : Option Uid := index.tables[name]?
def typeUid (name : TypeRef) : Option Uid := index.types[name]?
def columnUid (r : ColumnRef) : Option Uid := index.columns[r]?
def roleUid (name : RoleName) : Option Uid := index.roles[name]?

def resolvedIn (wanted : TableName) (recorded : IdsFile) : TableName :=
  ((index.tableUid wanted).bind fun uid => recorded.tables[uid]?).getD wanted

def columnsOf (table : TableName) : List (Uid × ColumnRef) := ((index.columnsByTable[table]?).getD ∅).toList

end IdsIndex

/-! ## The index and the scans -/

variable {ids : IdsFile}

theorem getElem?_firsts_eq_uidOf {N : Type} [Ord N] [Std.TransOrd N] [Std.LawfulEqOrd N] [DecidableEq N]
    {section_ : ExtTreeMap Uid N} {name : N} : (Reverse.firsts section_.toList ∅)[name]? = uidOf section_ name := by
  rw [Reverse.getElem?_firsts, ExtTreeMap.getElem?_empty, Option.none_or]
  rfl

theorem getElem?_lasts_eq_uidOf {N : Type} [Ord N] [Std.TransOrd N] [Std.LawfulEqOrd N] [DecidableEq N]
    {section_ : ExtTreeMap Uid N} {name : N} : (Reverse.lasts section_.toList.reverse ∅)[name]? = uidOf section_ name := by
  rw [Reverse.getElem?_lasts_reverse, ExtTreeMap.getElem?_empty, Option.or_none]
  rfl

theorem IdsIndex.tableUid_index {name : TableName} : ids.index.tableUid name = ids.tableUid name :=
  getElem?_firsts_eq_uidOf

theorem IdsIndex.columnUid_index {r : ColumnRef} : ids.index.columnUid r = ids.columnUid r := getElem?_firsts_eq_uidOf

theorem IdsIndex.roleUid_index {name : RoleName} : ids.index.roleUid name = ids.roleUid name := getElem?_firsts_eq_uidOf

theorem IdsIndex.typeUid_index {name : TypeRef} : ids.index.typeUid name = ids.typeUid name := getElem?_lasts_eq_uidOf

/-- Every lookup of the index gives what the scan of the file gives, whatever the file holds. -/
theorem IdsIndex.answers_as_scans (ids recorded : IdsFile) (table : TableName) (column : ColumnRef) (role : RoleName)
    (type : TypeRef) : ids.index.tableUid table = ids.tableUid table ∧ ids.index.columnUid column = ids.columnUid column ∧
      ids.index.roleUid role = ids.roleUid role ∧ ids.index.typeUid type = ids.typeUid type ∧
      ids.index.columnsOf table = (ids.columns.toList.filter fun e => e.2.table = table) ∧
      ids.index.resolvedIn table recorded = ids.resolvedIn table recorded := by
  refine ⟨tableUid_index, columnUid_index, roleUid_index, typeUid_index, Reverse.toList_groups, ?_⟩
  rw [IdsIndex.resolvedIn, IdsFile.resolvedIn, tableUid_index]

end Pbps
