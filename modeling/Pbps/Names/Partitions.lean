/-
Which table is whose partition, and how the relation is spelled at another boundary of a plan: `Partitions` of
`pbps-model`'s `partitions.rs`, with the boundaries and the table lookups of `plan_names.rs` it goes by.
-/
import Pbps.Lib.Gather
import Pbps.Names.PlanNames

namespace Pbps.Names

open Std (ExtTreeMap)

/-! ## Boundaries -/

/-- A boundary of a plan: one of its ends, or one side of a change. -/
inductive At where
  | start
  | before (i : Nat)
  | after (i : Nat)
  | end_
  deriving DecidableEq, Repr

namespace PlanNames

variable (n : PlanNames)

/-- The place of a boundary; the assertion fails for a change that the plan does not have. -/
def boundary : At → Option Nat
  | .start => some 0
  | .end_ => some n.changes.length
  | .before i => if i < n.changes.length then some i else none
  | .after i => if i < n.changes.length then some (i + 1) else none

def tableAt (table : Uid) (at_ : At) : Option (Option TableName) := (n.boundary at_).map (n.tables.name table)

def holder (name : TableName) (at_ : At) : Option Holder := (n.boundary at_).map (n.tables.holder name)

/-- What a table's name at one boundary is at another: the name of whoever holds it there. -/
def address (from_ to_ : At) (table : TableName) : Option (Option TableName) := do
  match ← n.holder table from_ with
  | .tracked uid => n.tableAt uid to_
  | .unmanaged => some (some table)
  | .vacant => some none

end PlanNames

/-! ## The relation -/

/-- The direct partition links by child and by parent, and the user-defined type of each key column of a parent. -/
structure Partitions where
  parents : ExtTreeMap TableName TableName := ∅
  held : ExtTreeMap TableName (List TableName) := ∅
  keys : ExtTreeMap TableName (List (Option TypeRef)) := ∅

namespace Partitions

def keyType (table : Table) (column : ColumnName) : Option TypeRef :=
  ((table.columns.lookup column).filter fun c => !c.ty.array).bind (·.ty.user)

def enter (this : Partitions) (e : TableName × Table) : Partitions :=
  let this := match e.2.partitionBy with
    | some by_ => { this with keys := this.keys.insert e.1 (by_.columns.map (keyType e.2)) }
    | none => this
  match e.2.partitionOf with
  | some of => { this with parents := this.parents.insert e.1 of.parent, held := Gather.push this.held (e.1, of.parent) }
  | none => this

def of (schema : Schema) : Partitions := schema.tables.toList.foldl enter {}

variable (p : Partitions)

def parent (table : TableName) : Option TableName := p.parents[table]?

def ofParent (parent : TableName) : List TableName := (p.held[parent]?).getD []

def release (this : Partitions) (table : TableName) : Partitions :=
  match this.parents[table]? with
  | none => this
  | some parent =>
    { this with
      parents := this.parents.erase table
      held := match this.held[parent]? with
        | some held => this.held.insert parent (held.filter (· ≠ table))
        | none => this.held }

def without (tables : List TableName) : Partitions := tables.foldl release p

/-- A link under the names of the other boundary, if both its ends have one there. -/
def place (n : PlanNames) (from_ to_ : At) (r : Partitions) (e : TableName × TableName) : Option Partitions := do
  match ← n.address from_ to_ e.1, ← n.address from_ to_ e.2 with
  | some child, some parent =>
    some { r with parents := r.parents.insert child parent, held := Gather.push r.held (child, parent) }
  | _, _ => some r

def placeKeys (n : PlanNames) (from_ to_ : At) (r : Partitions) (e : TableName × List (Option TypeRef)) : Option Partitions := do
  match ← n.address from_ to_ e.1 with
  | some parent => some { r with keys := r.keys.insert parent e.2 }
  | none => some r

def at_ (n : PlanNames) (from_ to_ : At) : Option Partitions := do
  let r ← p.parents.toList.foldlM (place n from_ to_) {}
  let r := { r with held := r.held.map fun _ children => children.mergeSort Gather.le }
  p.keys.toList.foldlM (placeKeys n from_ to_) r

end Partitions

end Pbps.Names
