/-
The immutable input bindings of a plan's operations (`operation/address.rs`): for every operation that reads names, the
versions of the tables' and columns' names that are in force before it.
-/
import Pbps.Lib.Versions
import Pbps.Model.Escape
import Pbps.Names.Replay
import Pbps.Names.Partitions
import Mathlib.Algebra.Group.Nat.Defs

namespace Pbps.Names

open Std (ExtTreeMap ExtTreeSet)
open Pbps.Diff (Change)
open Except Std.ExtTreeMap

namespace PlanNames

/-- The columns that have an address at a boundary, under the names of their tables. -/
def columnsAt (n : PlanNames) (boundary : Nat) : List (Uid × ColumnRef) :=
  n.columns.names.keys.filterMap fun uid => do
    let address ← n.columnAt uid boundary
    let table ← n.tables.name address.owner boundary
    pure (uid, table.column address.name)

def columnHolderAt (n : PlanNames) (column : ColumnRef) (at_ : At) : Option Holder :=
  (n.boundary at_).map (n.columnHolder column)

section Build

variable {changes : List Change} {after : IdsFile} {pending : ExtTreeSet Uid} {n : PlanNames}

theorem build_inverse (h : build changes after pending = .ok n) :
    n.changes = changes ∧ (∀ b, n.tables.Inverse b) ∧ ∀ b, n.columns.Inverse b := by
  obtain ⟨-, h⟩ := bind_eq_ok.1 h
  obtain ⟨tables, ht, h⟩ := bind_eq_ok_iff.1 h
  obtain ⟨roles, -, h⟩ := bind_eq_ok_iff.1 h
  obtain ⟨columns, hc, h⟩ := bind_eq_ok_iff.1 h
  cases h
  refine ⟨rfl, (of_follows (fun i x e hx he => ?_) ht).1, ?_⟩
  · cases x with
    | table e' life =>
      simp only [tableEvent, Option.ite_none_left_eq_some, Option.some.injEq] at he
      obtain ⟨-, rfl⟩ := he
      exact hx
    | _ => cases he
  · obtain ⟨final, -, hc⟩ := bind_eq_ok_iff.1 hc
    obtain ⟨events, -, hc⟩ := bind_eq_ok_iff.1 hc
    obtain ⟨owners, -, hc⟩ := bind_eq_ok_iff.1 hc
    obtain ⟨-, hc⟩ := bind_eq_ok.1 hc
    exact History.fromInitial_inverse (List.pairwise_insertionSort NoLater _) hc

end Build

end PlanNames

end Pbps.Names

namespace Pbps.Operations

open Std (ExtTreeMap ExtTreeSet)
open Pbps.Diff (Change)
open Pbps.Escape (escaped)
open Pbps.Names (At PlanNames Holder PlanNamesError History OwnedColumn Transition)
open Versions (Version Store Reads Sound Extends)
open List (mem_append mem_cons_self mem_filterMap mem_map pairwise_filterMap pairwise_map)
open Std.ExtTreeMap (getD_eq_fallback getElem?_empty mem_iff_exists)
open Std.ExtTreeSet (contains_iff_mem mem_ofList mem_toList)
open Option (bind_eq_some_iff ite_none_right_eq_some map_some)

/-! ## Operations -/

/-- An operation's identity: the number of its logical change, and its place among those of the change. -/
structure OperationId where
  source : Nat
  part : Nat
  deriving DecidableEq, Repr

namespace OperationId

instance : Ord OperationId := ⟨compareFields OperationId.source OperationId.part⟩

instance : Std.TransOrd OperationId := inferInstanceAs (Std.TransCmp (compareFields OperationId.source OperationId.part))

instance : Std.LawfulEqOrd OperationId where
  compare_self := compareFields_self _
  eq_of_compare {a b} h := by
    obtain ⟨h1, h2⟩ := compareFields_eq h
    cases a; cases b; simp_all

end OperationId

/-- The logical change an operation came from. No name depends on which surface is bound again. -/
inductive Source where
  | change (i : Nat)
  | rebinding
  deriving DecidableEq, Repr

/-- The names a step spells by. -/
inductive Spelling where
  | at_ (boundary : At)
  | input (reader : OperationId)
  | base
  | final
  deriving DecidableEq, Repr

/-- Where an expansion says a step came from. -/
inductive Origin where
  | whole (i : Nat)
  | splitPart (i : Nat)
  | teardown (source : Source)
  | restoration (source : Source)
  deriving DecidableEq, Repr

namespace Origin

def source : Origin → Source
  | .whole i => .change i
  | .splitPart i => .change i
  | .teardown source => source
  | .restoration source => source

def spelling : Origin → Spelling
  | .whole i => .at_ (.before i)
  | .splitPart i => .at_ (.after i)
  | .teardown _ => .base
  | .restoration _ => .final

end Origin

/-- An operation, as far as its names go. -/
structure Operation where
  id : OperationId
  origin : Origin
  deriving DecidableEq, Repr

/-- Why the owner of a name is not known. -/
inductive OwnerError where
  | unmanaged (name : String) (spelling : Spelling)
  | vacant (name : String) (spelling : Spelling)
  | outside (spelling : Spelling)
  | rebuild (name why : String)
  deriving DecidableEq, Repr

def TableName.shown (t : TableName) : String := escaped t.schema ++ "." ++ escaped t.name

def ColumnRef.shown (c : ColumnRef) : String := TableName.shown c.table ++ "." ++ escaped c.name

/-! ## Keys -/

inductive Attribute where
  | presence
  | name
  | type
  | collation
  | default
  | numbering
  | notNull
  deriving DecidableEq, Repr

/-- What of a table has an address: a column of its own, and the table itself. Its parts, its rows and the columns it
inherits have none. -/
inductive Property where
  | column (uid : Uid) (attribute_ : Attribute)
  | address
  deriving DecidableEq, Repr

namespace Property

/-- The columns come before the table, each by its uid and attribute. -/
def orderKey : Property → Option (Uid × Nat)
  | .column uid attribute_ => some (uid, attribute_.ctorIdx)
  | .address => none

def place : Property → Nat
  | .column .. => 0
  | .address => 1

def compareKeys : Property → Property → Ordering :=
  compareLex (compareOn place) (compareFields (fun p => p.orderKey.map (·.1)) fun p => p.orderKey.map (·.2))

instance : Ord Property := ⟨compareKeys⟩

instance : Std.TransOrd Property := inferInstanceAs (Std.TransCmp (compareLex _ (compareFields _ _)))

instance : Std.LawfulEqOrd Property where
  compare_self {p} := by
    show (compare p.place p.place).then (compareFields _ _ p p) = .eq
    rw [Std.ReflOrd.compare_self, compareFields_self]
    rfl
  eq_of_compare {p q} h := by
    replace h : (compare p.place q.place).then
      (compareFields (fun p => p.orderKey.map (·.1)) (fun p => p.orderKey.map (·.2)) p q) = .eq := h
    rw [Ordering.then_eq_eq] at h
    obtain ⟨h1, h2⟩ := compareFields_eq h.2
    cases p with
    | address => cases q with
      | address => rfl
      | column => cases h1
    | column u a => cases q with
      | address => cases h1
      | column v b =>
        obtain rfl : u = v := Option.some.inj h1
        obtain rfl : a = b := by
          cases a <;> cases b <;> first | rfl | cases h2
        rfl

end Property

/-- A property of a recorded table. -/
structure Key where
  parent : Uid
  property : Property
  deriving DecidableEq, Repr

namespace Key

instance : Ord Key := ⟨compareFields Key.parent Key.property⟩

instance : Std.TransOrd Key := inferInstanceAs (Std.TransCmp (compareFields Key.parent Key.property))

instance : Std.LawfulEqOrd Key where
  compare_self := compareFields_self _
  eq_of_compare {a b} h := by
    obtain ⟨h1, h2⟩ := compareFields_eq h
    cases a; cases b; simp_all

end Key

/-- The name a property has. -/
inductive Name where
  | table (name : TableName)
  | column (name : ColumnName)
  | absent
  deriving DecidableEq, Repr

abbrev Read := ExtTreeMap Key (Version OperationId)

/-! ## The chain -/

/-- One shared address history; readers consume versions, never spelling flags. -/
structure AddressChain where
  cells : ExtTreeMap (Versions.Cell Key OperationId) Name := ∅
  base : Read := ∅
  goal : Read := ∅
  readers : ExtTreeMap OperationId Read := ∅
  origins : ExtTreeMap OperationId Origin := ∅
  writes : ExtTreeMap OperationId (List Key) := ∅
  chains : ExtTreeMap Key (List (Version OperationId)) := ∅
  logical : List (Nat × Key × Version OperationId) := []

namespace AddressChain

def boundTables (before after : IdsFile) (excluded : ExtTreeSet Uid) : ExtTreeSet Uid :=
  .ofList ((before.tables.keys ++ after.tables.keys).filter fun u => !excluded.contains u)

def tableCell (n : PlanNames) (boundary : Nat) (uid : Uid) : Key × Name :=
  (⟨uid, .address⟩, match n.tables.name uid boundary with
    | some name => .table name
    | none => .absent)

def columnCell (n : PlanNames) (tables : ExtTreeSet Uid) (boundary : Nat) (e : Uid × ColumnRef) : Option (Key × Name) :=
  match n.tables.holder e.2.table boundary with
  | .tracked owner => if tables.contains owner then some (⟨owner, .column e.1 .name⟩, .column e.2.name) else none
  | .unmanaged => none
  | .vacant => none

def state (n : PlanNames) (tables : ExtTreeSet Uid) (boundary : Nat) : ExtTreeMap Key Name :=
  (tables.toList.map (tableCell n boundary) ++ (n.columnsAt boundary).filterMap (columnCell n tables boundary)).foldl
    (fun values e => values.insert e.1 e.2) ∅

def changed (values next : ExtTreeMap Key Name) : List (Key × Name) :=
  (ExtTreeSet.ofList (values.keys ++ next.keys)).toList.filterMap fun key =>
    if values.getD key .absent = next.getD key .absent then none else some (key, next.getD key .absent)

/-- What is bound so far: the store of versions, the names in force, and what the operations read and wrote. -/
structure Binding where
  store : Store Key OperationId Name
  values : ExtTreeMap Key Name
  readers : ExtTreeMap OperationId Read := ∅
  origins : ExtTreeMap OperationId Origin := ∅
  writes : ExtTreeMap OperationId (List Key) := ∅
  logical : List (Nat × Key × Version OperationId) := []

def Binding.reader (readers : ExtTreeSet OperationId) (this : Binding) (op : Operation) : Binding :=
  if readers.contains op.id then
    { this with readers := this.readers.insert op.id this.store.latest, origins := this.origins.insert op.id op.origin }
  else this

def Binding.record (op : Operation) (this : Binding) (e : Key × Name) : Binding :=
  { this with
    store := this.store.write .absent op.id e
    writes := Gather.push this.writes (e.1, op.id)
    logical := match op.origin.source with
      | .change i => this.logical ++ [(i, e.1, .after op.id)]
      | .rebinding => this.logical }

def Binding.step (n : PlanNames) (tables : ExtTreeSet Uid) (readers : ExtTreeSet OperationId) (this : Binding)
    (op : Operation × Nat) : Binding :=
  let next := state n tables (op.2 + 1)
  { (changed this.values next).foldl (Binding.record op.1) (this.reader readers op.1) with values := next }

/-- Where the binding starts: every property there is, at its base version. -/
def Binding.start (n : PlanNames) (tables : ExtTreeSet Uid) : Binding where
  store := .start (state n tables 0)
  values := state n tables 0

/-- Binds the readers of a plan's operations; the assertion fails for operations that are not the plan's. -/
def bind (n : PlanNames) (operations : List Operation) (before after : IdsFile) (excluded : ExtTreeSet Uid)
    (readers : ExtTreeSet OperationId) : Option AddressChain :=
  if readers.isEmpty then some {}
  else if n.changes.length ≠ operations.length then none
  else
    let tables := boundTables before after excluded
    let start := Binding.start n tables
    let bound := operations.zipIdx.foldl (Binding.step n tables readers) start
    some { cells := bound.store.cells, base := start.store.latest, goal := bound.store.latest, readers := bound.readers
           origins := bound.origins, writes := bound.writes, chains := bound.store.chains, logical := bound.logical }

/-! ## Queries -/

variable (this : AddressChain)

/-- The versions the logical plan's own writes before a boundary leave. -/
def expected (boundary : Nat) : Read :=
  ((this.logical.filter fun e => e.1 < boundary).mergeSort fun a b => a.1 ≤ b.1).foldl
    (fun read e => read.insert e.2.1 e.2.2) this.base

/-- The place of a boundary among the logical changes; the end is after them all. -/
def logicalBoundary : At → Nat
  | .start => 0
  | .end_ => 2 ^ 64 - 1
  | .before i => i
  | .after i => i + 1

/-- How a reader spells its names: as its origin says where that holds of its versions, by an end of the plan that has
them, and by the chain where neither does. -/
def spelling (id : OperationId) (intrinsic : Spelling) : Spelling :=
  match this.readers[id]? with
  | none => intrinsic
  | some read =>
    let otherwise := if read = this.base then .base else if read = this.goal then .final else .input id
    match intrinsic with
    | .base => if read = this.base then intrinsic else otherwise
    | .final => if read = this.goal then intrinsic else otherwise
    | .at_ boundary => if read = this.expected (logicalBoundary boundary) then intrinsic else otherwise
    | .input _ => intrinsic

/-- Whether a reader's version of the first property a writer wrote is before the writer's. -/
def before (reader writer : OperationId) : Option Bool := do
  let read ← this.readers[reader]?
  let key ← (← this.writes[writer]?).head?
  let version ← read[key]?
  let chain ← this.chains[key]?
  let readerAt ← chain.idxOf? version
  let writerAt ← chain.idxOf? (.after writer)
  pure (decide (readerAt < writerAt))

def mentions (p : Key → Bool) (name : Name) : Bool := this.cells.toList.any fun e => p e.1.key && e.2 = name

def single (found : List Uid) (mentioned : Bool) (name : String) (id : OperationId) (why : String) : Except OwnerError Uid :=
  match found with
  | [] => throw (if mentioned then .vacant name (.input id) else .unmanaged name (.input id))
  | [uid] => pure uid
  | _ :: _ :: _ => throw (.rebuild name why)

def found (read : Read) (name : Name) (f : Key → Option Uid) : List Uid :=
  read.toList.filterMap fun e => if this.cells[(⟨e.1, e.2⟩ : Versions.Cell Key OperationId)]? = some name then f e.1 else none

def ownTable (key : Key) : Option Uid := if key.property = .address then some key.parent else none

def ownColumn (owner : Uid) (key : Key) : Option Uid :=
  if key.parent = owner then
    match key.property with
    | .column uid .name => some uid
    | _ => none
  else none

def table (id : OperationId) (name : TableName) : Except OwnerError Uid :=
  match this.readers[id]? with
  | none => throw (.outside (.input id))
  | some read =>
    single (this.found read (.table name) ownTable) (this.mentions (fun _ => true) (.table name)) (TableName.shown name) id
      "input address has multiple recorded owners"

def column (id : OperationId) (name : ColumnRef) : Except OwnerError Uid := do
  let owner ← this.table id name.table
  match this.readers[id]? with
  | none => throw (.outside (.input id))
  | some read =>
    single (this.found read (.column name.name) (ownColumn owner))
      (this.mentions (fun key => key.parent = owner) (.column name.name)) (ColumnRef.shown name) id
      "input column has multiple recorded owners"

/-! ## The names at a boundary -/

section State

variable {n : PlanNames} {tables : ExtTreeSet Uid} {b : Nat} {k : Key} {v : Name} {o u : Uid} {t : TableName} {c : ColumnName}

def nameAt (n : PlanNames) (tables : ExtTreeSet Uid) (boundary : Nat) (key : Key) : Name :=
  (state n tables boundary)[key]?.getD .absent

theorem mem_columnsAt {e : Uid × ColumnRef} : e ∈ n.columnsAt b ↔ ∃ a t, n.columns.name e.1 b = some a ∧
    n.tables.name a.owner b = some t ∧ e.2 = t.column a.name := by
  simp only [PlanNames.columnsAt, mem_filterMap, PlanNames.columnAt, Bind.bind, bind_eq_some_iff, pure, Option.some.injEq]
  constructor
  · rintro ⟨uid, -, a, ⟨a', ha, t', ht', rfl⟩, t, ht, rfl⟩
    exact ⟨a', t, ha, ht, rfl⟩
  · rintro ⟨a, t, ha, ht, he⟩
    obtain ⟨timeline, hn, -⟩ := bind_eq_some_iff.1 ha
    exact ⟨e.1, ExtTreeMap.mem_keys.2 (ExtTreeMap.mem_of_getElem?_eq hn), a, ⟨a, ha, t, ht, rfl⟩, t, ht, Prod.ext rfl he.symm⟩

theorem columnCell_eq_some {e : Uid × ColumnRef} {x : Key × Name} : columnCell n tables b e = some x ↔
    ∃ owner, n.tables.holder e.2.table b = .tracked owner ∧ tables.contains owner = true ∧
      x = (⟨owner, .column e.1 .name⟩, .column e.2.name) := by
  unfold columnCell
  cases n.tables.holder e.2.table b with
  | tracked owner =>
    simp only [ite_none_right_eq_some, Option.some.injEq, Holder.tracked.injEq]
    constructor
    · rintro ⟨hc, rfl⟩
      exact ⟨owner, rfl, hc, rfl⟩
    · rintro ⟨_, rfl, hc, rfl⟩
      exact ⟨hc, rfl⟩
  | unmanaged => simp
  | vacant => simp

theorem getElem?_state : (state n tables b)[k]? = some v ↔
    (∃ u ∈ tables.toList, tableCell n b u = (k, v)) ∨ ∃ e ∈ n.columnsAt b, columnCell n tables b e = some (k, v) := by
  have htables : ((tables.toList.map (tableCell n b)).map (·.1)).Nodup := by
    rw [List.map_map]
    exact ExtTreeSet.nodup_toList.map fun u w huw => (Key.mk.inj huw).1
  have hcolumns : (((n.columnsAt b).filterMap (columnCell n tables b)).map (·.1)).Nodup := by
    have hkeys : (n.columnsAt b).Pairwise fun x y => x.1 ≠ y.1 := by
      rw [PlanNames.columnsAt, pairwise_filterMap]
      refine (ExtTreeMap.nodup_keys (t := n.columns.names)).imp fun {x y} hxy p hp q hq => ?_
      simp only [Bind.bind, bind_eq_some_iff, pure, Option.some.injEq] at hp hq
      obtain ⟨_, -, _, -, rfl⟩ := hp
      obtain ⟨_, -, _, -, rfl⟩ := hq
      exact hxy
    rw [List.Nodup, pairwise_map, pairwise_filterMap]
    refine hkeys.imp fun {x y} hxy p hp q hq => ?_
    obtain ⟨_, -, -, rfl⟩ := columnCell_eq_some.1 hp
    obtain ⟨_, -, -, rfl⟩ := columnCell_eq_some.1 hq
    exact fun heq => hxy (Property.column.inj (Key.mk.inj heq).2).1
  have hnodup : ((tables.toList.map (tableCell n b) ++ (n.columnsAt b).filterMap (columnCell n tables b)).map (·.1)).Nodup := by
    rw [List.map_append, List.nodup_append]
    refine ⟨htables, hcolumns, fun x hx y hy heq => ?_⟩
    obtain ⟨p, hp, rfl⟩ := mem_map.1 hx
    obtain ⟨q, hq, rfl⟩ := mem_map.1 hy
    obtain ⟨w, -, rfl⟩ := mem_map.1 hp
    obtain ⟨e, -, he⟩ := mem_filterMap.1 hq
    obtain ⟨_, -, -, rfl⟩ := columnCell_eq_some.1 he
    cases (Key.mk.inj heq).2
  refine (ExtTreeMap.getElem?_foldl_insert _ _ hnodup).trans ?_
  simp only [mem_append, mem_map, mem_filterMap, getElem?_empty, reduceCtorEq, and_false, or_false]
  constructor
  · rintro ⟨p, ⟨w, hw, rfl⟩ | ⟨e, he, hp⟩, rfl, rfl⟩
    · exact .inl ⟨w, hw, rfl⟩
    · exact .inr ⟨e, he, hp⟩
  · rintro (⟨w, hw, hp⟩ | ⟨e, he, hp⟩)
    · exact ⟨_, .inl ⟨w, hw, rfl⟩, congrArg Prod.fst hp, congrArg Prod.snd hp⟩
    · exact ⟨_, .inr ⟨e, he, hp⟩, rfl, rfl⟩

theorem nameAt_eq {v : Name} (hv : v ≠ .absent) : nameAt n tables b k = v ↔ (state n tables b)[k]? = some v := by
  unfold nameAt
  cases (state n tables b)[k]? with
  | none => simp [hv.symm]
  | some w => simp

theorem nameAt_table (h : ∀ b, n.tables.Inverse b) :
    nameAt n tables b ⟨o, .address⟩ = .table t ↔ n.tables.holder t b = .tracked o ∧ tables.contains o = true := by
  rw [nameAt_eq (by simp), getElem?_state, h b o t]
  constructor
  · rintro (⟨w, hw, hp⟩ | ⟨e, -, he⟩)
    · obtain ⟨hkey, hname⟩ := Prod.mk.inj hp
      obtain rfl := (Key.mk.inj hkey).1
      refine ⟨?_, contains_iff_mem.2 (mem_toList.1 hw)⟩
      split at hname
      · next x hx => cases hname; exact hx
      · cases hname
    · obtain ⟨_, -, -, hp⟩ := columnCell_eq_some.1 he
      cases hp
  · rintro ⟨hname, ho⟩
    refine .inl ⟨o, mem_toList.2 (contains_iff_mem.1 ho), ?_⟩
    rw [tableCell, hname]

theorem nameAt_column (h : ∀ b, n.tables.Inverse b) (hc : ∀ b, n.columns.Inverse b) {r : ColumnRef}
    (ho : n.tables.holder r.table b = .tracked o ∧ tables.contains o = true) :
    nameAt n tables b ⟨o, .column u .name⟩ = .column r.name ↔ n.columnHolder r b = .tracked u := by
  have hholder : n.columnHolder r b = .tracked u ↔ n.columns.name u b = some ⟨o, r.name⟩ := by
    rw [PlanNames.columnHolder, ho.1]
    exact hc b u _
  rw [nameAt_eq (by simp), getElem?_state, hholder]
  constructor
  · rintro (⟨w, -, hp⟩ | ⟨e, he, hcell⟩)
    · cases (Key.mk.inj (Prod.mk.inj hp).1).2
    · obtain ⟨a, t, ha, ht, he⟩ := mem_columnsAt.1 he
      obtain ⟨owner, howner, -, hp⟩ := columnCell_eq_some.1 hcell
      simp only [Prod.mk.injEq, Key.mk.injEq, Property.column.injEq, and_true, Name.column.injEq] at hp
      obtain ⟨⟨rfl, rfl⟩, hname⟩ := hp
      rw [he] at howner hname
      -- the table with the name is the column's owner
      have hsame : n.tables.holder t b = .tracked a.owner := (h b _ _).2 ht
      cases hsame.symm.trans howner
      rw [ha, hname]
      rfl
  · intro hu
    have ht : n.tables.name o b = some r.table := (h b o _).1 ho.1
    exact .inr ⟨(u, r.table.column r.name), mem_columnsAt.2 ⟨⟨o, r.name⟩, r.table, hu, ht, rfl⟩,
      columnCell_eq_some.2 ⟨o, ho.1, ho.2, rfl⟩⟩

end State

/-! ## What changes -/

section Changed

variable {values next : ExtTreeMap Key Name} {k : Key} {v : Name}

theorem mem_changed : (k, v) ∈ changed values next ↔ values.getD k .absent ≠ next.getD k .absent ∧ v = next.getD k .absent := by
  simp only [changed, mem_filterMap, mem_toList, mem_ofList, List.contains_iff_mem,
    mem_append, ExtTreeMap.mem_keys, Option.ite_none_left_eq_some, Option.some.injEq, Prod.mk.injEq]
  constructor
  · rintro ⟨k', -, hne, rfl, rfl⟩
    exact ⟨hne, rfl⟩
  · rintro ⟨hne, rfl⟩
    refine ⟨k, ?_, hne, rfl, rfl⟩
    by_contra hno
    rw [not_or] at hno
    exact hne (by rw [getD_eq_fallback hno.1, getD_eq_fallback hno.2])

theorem nodup_changed : ((changed values next).map (·.1)).Nodup := by
  rw [List.Nodup, pairwise_map, changed, pairwise_filterMap]
  refine ExtTreeSet.nodup_toList.imp fun {x y} hxy p hp q hq => ?_
  simp only [Option.ite_none_left_eq_some, Option.some.injEq] at hp hq
  rw [← hp.2, ← hq.2]
  exact hxy

theorem updated_changed : Versions.updated (fun k => values[k]?.getD .absent) (changed values next) =
    fun k => next[k]?.getD .absent := by
  have hnodup : ((changed values next).map (·.1)).Nodup := nodup_changed
  obtain ⟨hin, hout⟩ := Versions.updated_eq (m := fun k => values[k]?.getD .absent) hnodup
  funext k
  rw [← ExtTreeMap.getD_eq_getD_getElem?]
  by_cases hne : values.getD k .absent = next.getD k .absent
  · rw [hout k fun hmem => ?_]
    · rw [← ExtTreeMap.getD_eq_getD_getElem?, hne]
    · obtain ⟨e, he, rfl⟩ := mem_map.1 hmem
      exact (mem_changed.1 he).1 hne
  · exact hin _ (mem_changed.2 ⟨hne, rfl⟩)

end Changed

/-! ## The binding after some operations -/

theorem foldl_record (op : Operation) (l : List (Key × Name)) (this : Binding) :
    (l.foldl (Binding.record op) this).store = l.foldl (Store.write .absent op.id) this.store ∧
    (l.foldl (Binding.record op) this).readers = this.readers ∧
    (l.foldl (Binding.record op) this).writes = (l.map fun e => (e.1, op.id)).foldl Gather.push this.writes := by
  induction l generalizing this with
  | nil => exact ⟨rfl, rfl, rfl⟩
  | cons e l ih => exact ih (this.record op e)

section Bound

variable {n : PlanNames} {tables : ExtTreeSet Uid} {readers : ExtTreeSet OperationId} {operations : List Operation} {i j : Nat}
  {op w : Operation} {k : Key} {id : OperationId}

def boundAt (n : PlanNames) (tables : ExtTreeSet Uid) (readers : ExtTreeSet OperationId) (operations : List Operation) (i : Nat) : Binding :=
  (operations.zipIdx.take i).foldl (Binding.step n tables readers) (.start n tables)

def written (n : PlanNames) (tables : ExtTreeSet Uid) (p : Operation × Nat) : List (Key × OperationId) :=
  (changed (state n tables p.2) (state n tables (p.2 + 1))).map fun e => (e.1, p.1.id)

def logAt (n : PlanNames) (tables : ExtTreeSet Uid) (operations : List Operation) (i : Nat) : List (Key × OperationId) :=
  (operations.zipIdx.take i).flatMap (written n tables)

section

variable (hi : operations[i]? = some op)
include hi

theorem take_zipIdx_succ : operations.zipIdx.take (i + 1) = operations.zipIdx.take i ++ [(op, i)] := by
  have hzip : operations.zipIdx[i]? = some (op, i) := by simp [List.getElem?_zipIdx, hi]
  rw [List.take_add_one, hzip]
  rfl

theorem boundAt_succ : boundAt n tables readers operations (i + 1) =
    (boundAt n tables readers operations i).step n tables readers (op, i) := by
  rw [boundAt, take_zipIdx_succ hi, List.foldl_concat, boundAt]

theorem logAt_succ : logAt n tables operations (i + 1) = logAt n tables operations i ++ written n tables (op, i) := by
  rw [logAt, take_zipIdx_succ hi, List.flatMap_append, List.flatMap_singleton, logAt]

end

theorem mem_take_zipIdx : (op, j) ∈ operations.zipIdx.take i ↔ j < i ∧ operations[j]? = some op := by
  rw [List.mem_take_iff_getElem]
  constructor
  · rintro ⟨m, hm, heq⟩
    have hlen : m < operations.length := by simpa using lt_of_lt_of_le hm (min_le_right _ _)
    have hget : operations.zipIdx[m]? = some (op, j) := by rw [← heq]; exact List.getElem?_eq_getElem _
    simp only [List.getElem?_zipIdx, Option.map_eq_some_iff, Prod.mk.injEq, Nat.zero_add] at hget
    obtain ⟨x, hx, rfl, rfl⟩ := hget
    exact ⟨lt_of_lt_of_le hm (min_le_left _ _), hx⟩
  · rintro ⟨hlt, hget⟩
    have hlen : j < operations.length := (List.getElem?_eq_some_iff.1 hget).1
    have hx : operations[j] = op := (List.getElem?_eq_some_iff.1 hget).2
    exact ⟨j, by simp [hlt, hlen], by simp [hx]⟩

theorem mem_logAt : (k, id) ∈ logAt n tables operations i ↔ ∃ j op, j < i ∧ operations[j]? = some op ∧ op.id = id ∧
    k ∈ (changed (state n tables j) (state n tables (j + 1))).map (·.1) := by
  simp only [logAt, List.mem_flatMap, written, Prod.exists, mem_take_zipIdx]
  constructor
  · rintro ⟨op, j, ⟨hj, hop⟩, hmem⟩
    obtain ⟨e, he, heq⟩ := mem_map.1 hmem
    obtain ⟨rfl, rfl⟩ := Prod.mk.inj heq
    exact ⟨j, op, hj, hop, rfl, List.mem_map_of_mem he⟩
  · rintro ⟨j, op, hj, hop, rfl, hk⟩
    obtain ⟨e, he, rfl⟩ := mem_map.1 hk
    exact ⟨op, j, ⟨hj, hop⟩, List.mem_map_of_mem he⟩

section

variable (hids : (operations.map (·.id)).Nodup)
include hids

theorem place_unique (hi : operations[i]? = some op) (hj : operations[j]? = some w) (heq : op.id = w.id) : i = j := by
  have hi' : (operations.map (·.id))[i]? = some op.id := by rw [List.getElem?_map, hi]; rfl
  have hj' : (operations.map (·.id))[j]? = some op.id := by rw [List.getElem?_map, hj, heq]; rfl
  have hlt : i < (operations.map (·.id)).length := (List.getElem?_eq_some_iff.1 hi').1
  exact (List.getElem?_inj hlt hids).1 (hi'.trans hj'.symm)

theorem mem_logAt_of (hj : operations[j]? = some w) (hmem : (k, w.id) ∈ logAt n tables operations i) (m : Nat) :
    (k, w.id) ∈ logAt n tables operations m ↔ j < m := by
  obtain ⟨j', op, -, hop, heq, hk⟩ := mem_logAt.1 hmem
  obtain rfl := place_unique hids hop hj heq
  constructor
  · intro hmem'
    obtain ⟨j'', op', hlt, hop', heq', -⟩ := mem_logAt.1 hmem'
    obtain rfl := place_unique hids hop' hj heq'
    exact hlt
  · exact fun hlt => mem_logAt.2 ⟨j', op, hlt, hop, heq, hk⟩

theorem nodup_logAt : (logAt n tables operations i).Nodup := by
  rw [logAt, List.Nodup, List.pairwise_flatMap]
  constructor
  · intro p _
    have hkeys : ((written n tables p).map (·.1)).Nodup := by
      rw [written, List.map_map]
      exact nodup_changed
    exact hkeys.of_map
  · have hpairs : (operations.zipIdx).Pairwise fun p q => p.1.id ≠ q.1.id := by
      have hfst : operations.zipIdx.map (fun p => p.1.id) = operations.map (·.id) := by
        rw [show (fun p : Operation × Nat => p.1.id) = (·.id) ∘ Prod.fst from rfl, ← List.map_map, List.zipIdx_map_fst]
      rw [← hfst] at hids
      exact pairwise_map.1 hids
    refine (hpairs.sublist (List.take_sublist _ _)).imp fun {p q} hne x hx y hy heq => ?_
    obtain ⟨_, -, rfl⟩ := mem_map.1 hx
    obtain ⟨_, -, rfl⟩ := mem_map.1 hy
    exact hne (Prod.mk.inj heq).2

end

variable (n tables readers) in
/-- After so many operations, what is bound is what the log of their writes says. -/
theorem boundAt_sound (hids : (operations.map (·.id)).Nodup) : ∀ i ≤ operations.length,
    (boundAt n tables readers operations i).values = state n tables i ∧
    Sound .absent (boundAt n tables readers operations i).store (logAt n tables operations i) (nameAt n tables i) ∧
    (boundAt n tables readers operations i).writes = (logAt n tables operations i).foldl Gather.push ∅ ∧
    ∀ j ≤ i, Extends (boundAt n tables readers operations j).store (boundAt n tables readers operations i).store
  | 0, _ => by
    refine ⟨by rfl, ?_, rfl, fun j hj => ?_⟩
    · exact Versions.start_sound _
    · obtain rfl := Nat.le_zero.1 hj
      exact Extends.rfl
  | i + 1, hi => by
    obtain ⟨hvalues, hsound, hwrites, hext⟩ := boundAt_sound hids i (Nat.le_of_succ_le hi)
    obtain ⟨op, hop⟩ : ∃ op, operations[i]? = some op := ⟨_, List.getElem?_eq_getElem hi⟩
    rw [boundAt_succ hop, logAt_succ hop]
    have hfold := foldl_record op (changed (state n tables i) (state n tables (i + 1)))
      ((boundAt n tables readers operations i).reader readers op)
    have hreader : ((boundAt n tables readers operations i).reader readers op).store = (boundAt n tables readers operations i).store ∧
        ((boundAt n tables readers operations i).reader readers op).writes = (boundAt n tables readers operations i).writes := by
      unfold Binding.reader
      split <;> exact ⟨rfl, rfl⟩
    rw [hreader.1, hreader.2] at hfold
    have hnew : ∀ k ∈ (changed (state n tables i) (state n tables (i + 1))).map (·.1), (k, op.id) ∉ logAt n tables operations i := by
      intro k _ hmem
      obtain ⟨j, w, hj, hw, heq, -⟩ := mem_logAt.1 hmem
      exact absurd (place_unique hids hw hop heq) (by omega)
    obtain ⟨hsound', hext'⟩ := Sound.writeAll nodup_changed hnew hsound
    refine ⟨rfl, ?_, ?_, fun j hj => ?_⟩
    · rw [show nameAt n tables (i + 1) = Versions.updated (nameAt n tables i) _ from updated_changed.symm]
      simpa only [Binding.step, hvalues, hfold.1, written] using hsound'
    · simp only [Binding.step, hvalues, hfold.2.2, hwrites, written, List.foldl_append]
    · have hstep : Extends (boundAt n tables readers operations i).store
          ((boundAt n tables readers operations i).step n tables readers (op, i)).store := by
        simpa only [Binding.step, hvalues, hfold.1] using hext'
      rcases Nat.lt_or_ge j (i + 1) with hlt | hge
      · exact (hext j (Nat.lt_succ_iff.1 hlt)).trans hstep
      · obtain rfl : j = i + 1 := by omega
        rw [boundAt_succ hop]
        exact Extends.rfl

theorem readers_boundAt (hids : (operations.map (·.id)).Nodup) {r : Read} : ∀ i ≤ operations.length,
    ((boundAt n tables readers operations i).readers[id]? = some r ↔ ∃ j op, j < i ∧ operations[j]? = some op ∧ op.id = id ∧
      readers.contains id = true ∧ r = (boundAt n tables readers operations j).store.latest)
  | 0, _ => by
    refine iff_of_false ?_ fun ⟨j, _, hj, _⟩ => absurd hj (Nat.not_lt_zero j)
    show (∅ : ExtTreeMap OperationId Read)[id]? ≠ some r
    rw [getElem?_empty]
    exact Option.some_ne_none r ∘ Eq.symm
  | i + 1, hi => by
    obtain ⟨op, hop⟩ : ∃ op, operations[i]? = some op := ⟨_, List.getElem?_eq_getElem hi⟩
    have ih := readers_boundAt hids (r := r) i (Nat.le_of_succ_le hi)
    have hstep : (boundAt n tables readers operations (i + 1)).readers =
        ((boundAt n tables readers operations i).reader readers op).readers := by
      rw [boundAt_succ hop]
      exact (foldl_record _ _ _).2.1
    rw [hstep, Binding.reader]
    split
    · next hreads =>
      dsimp only
      rw [ExtTreeMap.getElem?_insert_eq_some, ih]
      constructor
      · rintro (⟨rfl, rfl⟩ | ⟨-, j, w, hj, hw, hid, hin, hr⟩)
        · exact ⟨i, op, Nat.lt_succ_self i, hop, rfl, hreads, rfl⟩
        · exact ⟨j, w, Nat.lt_succ_of_lt hj, hw, hid, hin, hr⟩
      · rintro ⟨j, w, hj, hw, hid, hin, hr⟩
        by_cases hji : j = i
        · subst hji
          obtain rfl : op = w := Option.some.inj (hop.symm.trans hw)
          exact .inl ⟨hid.symm, hr⟩
        · refine .inr ⟨fun heq => hji (place_unique hids hw hop (hid.trans heq)), j, w, by omega, hw, hid, hin, hr⟩
    · next hreads =>
      rw [ih]
      constructor
      · rintro ⟨j, w, hj, hw, hid, hin, hr⟩
        exact ⟨j, w, Nat.lt_succ_of_lt hj, hw, hid, hin, hr⟩
      · rintro ⟨j, w, hj, hw, hid, hin, hr⟩
        refine ⟨j, w, ?_, hw, hid, hin, hr⟩
        by_contra hge
        obtain rfl : j = i := by omega
        obtain rfl : op = w := Option.some.inj (hop.symm.trans hw)
        exact hreads (hid ▸ hin)

end Bound

/-! ## What is found -/

section Found

variable {this : AddressChain} {read : Read} {m : Key → Name} {name : Name} {f : Key → Option Uid} {u owner : Uid} {l : List Uid}

theorem mem_found (h : Reads .absent this.cells read m) (hname : name ≠ .absent) :
    u ∈ this.found read name f ↔ ∃ k, m k = name ∧ f k = some u := by
  simp only [found, mem_filterMap, ite_none_right_eq_some]
  constructor
  · rintro ⟨⟨k, v⟩, he, hcell, hf⟩
    exact ⟨k, (h.mem_iff hname).1 ⟨v, he, hcell⟩, hf⟩
  · rintro ⟨k, hk, hf⟩
    obtain ⟨v, he, hcell⟩ := (h.mem_iff hname).2 hk
    exact ⟨(k, v), he, hcell, hf⟩

theorem nodup_found (hf : ∀ k k' u, f k = some u → f k' = some u → k = k') : (this.found read name f).Nodup := by
  rw [List.Nodup, found, pairwise_filterMap]
  refine ExtTreeMap.distinct_keys_toList.imp fun {x y} hxy p hp q hq heq => hxy ?_
  simp only [ite_none_right_eq_some] at hp hq
  rw [hf x.1 y.1 p hp.2 (heq ▸ hq.2)]
  exact Std.ReflOrd.compare_self

theorem ownTable_eq_some {k : Key} : ownTable k = some u ↔ k = ⟨u, .address⟩ := by
  obtain ⟨parent, property⟩ := k
  simp only [ownTable, ite_none_right_eq_some, Option.some.injEq, Key.mk.injEq]
  exact and_comm

theorem ownColumn_eq_some {k : Key} : ownColumn owner k = some u ↔ k = ⟨owner, .column u .name⟩ := by
  obtain ⟨parent, property⟩ := k
  simp only [ownColumn, ite_none_right_eq_some, Key.mk.injEq]
  refine and_congr_right fun _ => ?_
  split
  · simp [eq_comm]
  · next hne =>
    refine iff_of_false (by simp) fun heq => hne u heq

variable {mentioned : Bool} {shown why : String} {id : OperationId}

theorem single_spec (hnodup : l.Nodup) (hone : ∀ a ∈ l, ∀ b ∈ l, a = b) : (single l mentioned shown id why = .ok u ↔ u ∈ l) ∧
    ∀ shown' why', single l mentioned shown id why ≠ .error (.rebuild shown' why') := by
  match l, hnodup, hone with
  | [], _, _ => cases mentioned <;> simp [single, throw, throwThe, MonadExceptOf.throw]
  | [a], _, _ => simp [single, pure, Except.pure, eq_comm]
  | a :: b :: l, hnodup, hone =>
    have hab : a = b := hone a mem_cons_self b (List.mem_cons_of_mem _ mem_cons_self)
    exact absurd (hab ▸ mem_cons_self) (List.nodup_cons.1 hnodup).1

end Found

/-! ## The binding of a plan -/

section Bind

variable {n : PlanNames} {operations : List Operation} {before after : IdsFile} {excluded : ExtTreeSet Uid}
  {readers : ExtTreeSet OperationId} {chain : AddressChain} {i j : Nat} {op w : Operation} {uid : Uid} {reader writer : OperationId}

def Bound (before after : IdsFile) (excluded : ExtTreeSet Uid) (uid : Uid) : Prop :=
  ((∃ t, before.tables[uid]? = some t) ∨ ∃ t, after.tables[uid]? = some t) ∧ excluded.contains uid = false

theorem contains_boundTables : (boundTables before after excluded).contains uid = true ↔ Bound before after excluded uid := by
  rw [boundTables, contains_iff_mem, mem_ofList, List.contains_iff_mem, List.mem_filter, mem_append,
    ExtTreeMap.mem_keys, ExtTreeMap.mem_keys, mem_iff_exists, mem_iff_exists, Bound, Bool.not_eq_true']

theorem bind_eq_some (h : bind n operations before after excluded readers = some chain) : (readers.isEmpty = true ∧ chain = {}) ∨
    (n.changes.length = operations.length ∧ ∃ start bound : Binding,
      start = boundAt n (boundTables before after excluded) readers operations 0 ∧
      bound = boundAt n (boundTables before after excluded) readers operations operations.length ∧
      chain = { cells := bound.store.cells, base := start.store.latest, goal := bound.store.latest, readers := bound.readers
                origins := bound.origins, writes := bound.writes, chains := bound.store.chains, logical := bound.logical }) := by
  unfold bind at h
  split at h
  · next hempty => exact .inl ⟨hempty, (Option.some.inj h).symm⟩
  · split at h
    · cases h
    · next hlength =>
      have hall : operations.zipIdx.take operations.length = operations.zipIdx := List.take_of_length_le (by simp)
      refine .inr ⟨not_not.1 hlength, _, _, rfl, rfl, ?_⟩
      rw [boundAt, boundAt, hall]
      exact (Option.some.inj h).symm

theorem reader_reads (hids : (operations.map (·.id)).Nodup) (h : bind n operations before after excluded readers = some chain)
    (hop : operations[i]? = some op) (hread : readers.contains op.id = true) :
    n.changes.length = operations.length ∧ ∃ read, chain.readers[op.id]? = some read ∧
      Reads .absent chain.cells read (nameAt n (boundTables before after excluded) i) ∧
      Reads .absent chain.cells chain.base (nameAt n (boundTables before after excluded) 0) ∧
      Reads .absent chain.cells chain.goal (nameAt n (boundTables before after excluded) operations.length) := by
  rcases bind_eq_some h with ⟨hempty, -⟩ | ⟨hlength, start, bound, rfl, rfl, rfl⟩
  · rw [ExtTreeSet.isEmpty_iff.1 hempty, ExtTreeSet.contains_empty] at hread
    cases hread
  · have hi : i < operations.length := (List.getElem?_eq_some_iff.1 hop).1
    obtain ⟨-, hfinal, -, hext⟩ := boundAt_sound n (boundTables before after excluded) readers hids
      operations.length (Nat.le_refl _)
    obtain ⟨-, hsound, -⟩ := boundAt_sound n (boundTables before after excluded) readers hids i hi.le
    obtain ⟨-, hstart, -⟩ := boundAt_sound n (boundTables before after excluded) readers hids 0
      (Nat.zero_le _)
    exact ⟨hlength, _, (readers_boundAt hids _ (Nat.le_refl _)).2 ⟨i, op, hi, hop, rfl, hread, rfl⟩,
      hsound.reads.extends (hext i hi.le), hstart.reads.extends (hext 0 (Nat.zero_le _)), hfinal.reads⟩

/-- The bound table that a name is of, at an address. -/
def Owns (n : PlanNames) (bound : Uid → Prop) (at_ : At) (name : TableName) (uid : Uid) : Prop :=
  n.holder name at_ = some (.tracked uid) ∧ bound uid

def OwnsColumn (n : PlanNames) (bound : Uid → Prop) (at_ : At) (name : ColumnRef) (uid : Uid) : Prop :=
  n.columnHolderAt name at_ = some (.tracked uid) ∧ ∃ owner, Owns n bound at_ name.table owner

/-- Between two addresses no bound name has changed hands. -/
def SameOwners (n : PlanNames) (bound : Uid → Prop) (a b : At) : Prop :=
  (∀ name uid, Owns n bound a name uid ↔ Owns n bound b name uid) ∧
    ∀ name uid, OwnsColumn n bound a name uid ↔ OwnsColumn n bound b name uid

section Owners

variable {a b : At} {x y : Nat} {name : TableName} {column : ColumnRef}

variable (h : ∀ b, n.tables.Inverse b)
include h

theorem owns_iff (ha : n.boundary a = some x) : Owns n (Bound before after excluded) a name uid ↔
      nameAt n (boundTables before after excluded) x ⟨uid, .address⟩ = .table name := by
  rw [nameAt_table h, contains_boundTables, Owns, PlanNames.holder, ha, map_some, Option.some.injEq]

variable (hc : ∀ b, n.columns.Inverse b) (ha : n.boundary a = some x)
include hc ha

theorem ownsColumn_iff : OwnsColumn n (Bound before after excluded) a column uid ↔ ∃ owner,
      nameAt n (boundTables before after excluded) x ⟨owner, .address⟩ = .table column.table ∧
      nameAt n (boundTables before after excluded) x ⟨owner, .column uid .name⟩ = .column column.name := by
  simp only [OwnsColumn, owns_iff h ha, PlanNames.columnHolderAt, ha, map_some, Option.some.injEq]
  constructor
  · rintro ⟨hholder, owner, howner⟩
    exact ⟨owner, howner, (nameAt_column h hc ((nameAt_table h).1 howner)).2 hholder⟩
  · rintro ⟨owner, howner, hcolumn⟩
    exact ⟨(nameAt_column h hc ((nameAt_table h).1 howner)).1 hcolumn, owner, howner⟩

theorem sameOwners_of_nameAt (hb : n.boundary b = some y)
    (heq : nameAt n (boundTables before after excluded) x = nameAt n (boundTables before after excluded) y) :
    SameOwners n (Bound before after excluded) a b := by
  refine ⟨fun name uid => ?_, fun name uid => ?_⟩
  · rw [owns_iff h ha, owns_iff h hb, heq]
  · rw [ownsColumn_iff h hc ha, ownsColumn_iff h hc hb, heq]

end Owners

variable {tables : ExtTreeSet Uid} {b : Nat} {read : Read}

section

variable (h : ∀ b, n.tables.Inverse b)
include h

theorem nameAt_table_unique {o o' : Uid} {name : TableName} (ho : nameAt n tables b ⟨o, .address⟩ = .table name)
    (ho' : nameAt n tables b ⟨o', .address⟩ = .table name) : o = o' := by
  have h1 := ((nameAt_table h).1 ho).1
  have h2 := ((nameAt_table h).1 ho').1
  exact Holder.tracked.inj (h1.symm.trans h2)

theorem table_eq_ok (hreader : chain.readers[reader]? = some read) (hread : Reads .absent chain.cells read (nameAt n tables b))
    (name : TableName) : (∀ uid, chain.table reader name = .ok uid ↔ nameAt n tables b ⟨uid, .address⟩ = .table name) ∧
      ∀ shown why, chain.table reader name ≠ .error (.rebuild shown why) := by
  have hmem : ∀ uid, uid ∈ chain.found read (.table name) ownTable ↔ nameAt n tables b ⟨uid, .address⟩ = .table name := by
    intro uid
    rw [mem_found hread (by simp)]
    simp only [ownTable_eq_some]
    exact ⟨fun ⟨k, hk, heq⟩ => heq ▸ hk, fun hk => ⟨_, hk, rfl⟩⟩
  have hnodup : (chain.found read (.table name) ownTable).Nodup := nodup_found fun k k' u hk hk' => by
    rw [ownTable_eq_some.1 hk, ownTable_eq_some.1 hk']
  have hone : ∀ a ∈ chain.found read (.table name) ownTable, ∀ b ∈ chain.found read (.table name) ownTable, a = b :=
    fun a ha b hb => nameAt_table_unique h ((hmem a).1 ha) ((hmem b).1 hb)
  rw [table, hreader]
  refine ⟨fun uid => ?_, (single_spec (u := ⟨""⟩) hnodup hone).2⟩
  rw [← hmem uid]
  exact (single_spec hnodup hone).1

theorem column_eq_ok (hc : ∀ b, n.columns.Inverse b) (hreader : chain.readers[reader]? = some read)
    (hread : Reads .absent chain.cells read (nameAt n tables b)) (name : ColumnRef) :
    (∀ uid, chain.column reader name = .ok uid ↔ ∃ owner, nameAt n tables b ⟨owner, .address⟩ = .table name.table ∧
      nameAt n tables b ⟨owner, .column uid .name⟩ = .column name.name) ∧
      ∀ shown why, chain.column reader name ≠ .error (.rebuild shown why) := by
  obtain ⟨htable, hnever⟩ := table_eq_ok h hreader hread name.table
  rw [column]
  cases ho : chain.table reader name.table with
  | error e =>
    refine ⟨fun uid => iff_of_false (by simp [Bind.bind, Except.bind]) ?_, fun shown why heq => ?_⟩
    · rintro ⟨owner, howner, -⟩
      rw [(htable owner).2 howner] at ho
      cases ho
    · cases heq
      exact hnever shown why ho
  | ok owner =>
    have howner := (htable owner).1 ho
    have hmem : ∀ uid, uid ∈ chain.found read (.column name.name) (ownColumn owner) ↔
        nameAt n tables b ⟨owner, .column uid .name⟩ = .column name.name := by
      intro uid
      rw [mem_found hread (by simp)]
      simp only [ownColumn_eq_some]
      exact ⟨fun ⟨k, hk, heq⟩ => heq ▸ hk, fun hk => ⟨_, hk, rfl⟩⟩
    have hnodup : (chain.found read (.column name.name) (ownColumn owner)).Nodup := nodup_found fun k k' u hk hk' => by
      rw [ownColumn_eq_some.1 hk, ownColumn_eq_some.1 hk']
    have hone : ∀ a ∈ chain.found read (.column name.name) (ownColumn owner),
        ∀ b ∈ chain.found read (.column name.name) (ownColumn owner), a = b := by
      intro a ha b hb
      have h1 := (nameAt_column h hc ((nameAt_table h).1 howner)).1 ((hmem a).1 ha)
      have h2 := (nameAt_column h hc ((nameAt_table h).1 howner)).1 ((hmem b).1 hb)
      exact Holder.tracked.inj (h1.symm.trans h2)
    simp only [Bind.bind, Except.bind, hreader]
    refine ⟨fun uid => ?_, (single_spec (u := ⟨""⟩) hnodup hone).2⟩
    refine (single_spec hnodup hone).1.trans ((hmem uid).trans ⟨fun hk => ⟨owner, howner, hk⟩, ?_⟩)
    rintro ⟨owner', howner', hk⟩
    rwa [nameAt_table_unique h howner howner']

end

theorem spelling_end (hreader : chain.readers[reader]? = some read) (intrinsic : Spelling) :
    (chain.spelling reader intrinsic = .base → read = chain.base) ∧ (chain.spelling reader intrinsic = .final → read = chain.goal) := by
  have hotherwise : ((if read = chain.base then Spelling.base else if read = chain.goal then .final else .input reader) = .base →
        read = chain.base) ∧
      ((if read = chain.base then Spelling.base else if read = chain.goal then .final else .input reader) = .final →
        read = chain.goal) := by
    split_ifs with hbase hgoal
    · exact ⟨fun _ => hbase, nofun⟩
    · exact ⟨nofun, fun _ => hgoal⟩
    · exact ⟨nofun, nofun⟩
  rw [spelling, hreader]
  cases intrinsic with
  | base =>
    by_cases hread : read = chain.base
    · exact ⟨fun _ => hread, fun heq => by simp [hread] at heq⟩
    · simpa only [hread, if_false] using hotherwise
  | final =>
    by_cases hread : read = chain.goal
    · exact ⟨fun heq => by simp [hread] at heq, fun _ => hread⟩
    · simpa only [hread, if_false] using hotherwise
  | at_ boundary =>
    dsimp only
    split
    · exact ⟨nofun, nofun⟩
    · exact hotherwise
  | input => exact ⟨nofun, nofun⟩

/-- `before` compares the places of two operations. -/
theorem before_eq_some (hids : (operations.map (·.id)).Nodup) (h : bind n operations before after excluded readers = some chain)
    {b : Bool} (hbefore : chain.before reader writer = some b) : ∃ (i j : Nat) (r w : Operation), operations[i]? = some r ∧ r.id = reader ∧
      operations[j]? = some w ∧ w.id = writer ∧ (b = true ↔ i ≤ j) := by
  simp only [AddressChain.before, Bind.bind, bind_eq_some_iff, pure, Option.some.injEq] at hbefore
  obtain ⟨read, hreader, keys, hkeys, key, hhead, version, hversion, c, hc, readerAt, hreaderAt, writerAt, hwriterAt, rfl⟩ := hbefore
  rcases bind_eq_some h with ⟨-, rfl⟩ | ⟨-, start, bound, rfl, rfl, rfl⟩
  · rw [getElem?_empty] at hreader
    cases hreader
  · obtain ⟨-, hfinal, hwrites, -⟩ := boundAt_sound n (boundTables before after excluded) readers hids
      operations.length (Nat.le_refl _)
    obtain ⟨i, r, hi, hr, hid, -, rfl⟩ := (readers_boundAt hids _ (Nat.le_refl _)).1 hreader
    obtain ⟨-, hsound, -⟩ := boundAt_sound n (boundTables before after excluded) readers hids i hi.le
    -- the property asked is one the writer wrote
    have hlogged : (key, writer) ∈ logAt n (boundTables before after excluded) operations operations.length := by
      have hkeys : (boundAt n (boundTables before after excluded) readers operations operations.length).writes[writer]? = some keys := hkeys
      rw [hwrites, Gather.foldl_push] at hkeys
      split at hkeys
      · rw [getElem?_empty] at hkeys
        cases hkeys
      · rw [ExtTreeMap.getD_empty, List.nil_append] at hkeys
        obtain rfl := Option.some.inj hkeys
        exact Gather.mem_filter_fst.1 (List.mem_of_mem_head? hhead)
    obtain ⟨j, w, -, hw, rfl, -⟩ := mem_logAt.1 hlogged
    refine ⟨i, j, r, w, hr, hid, hw, rfl, ?_⟩
    obtain ⟨later, hlater⟩ : ∃ later, logAt n (boundTables before after excluded) operations operations.length =
        logAt n (boundTables before after excluded) operations i ++ later := by
      refine ⟨(operations.zipIdx.drop i).flatMap (written n (boundTables before after excluded)), ?_⟩
      rw [logAt, logAt, ← List.flatMap_append, List.take_append_drop, List.take_of_length_le (by simp)]
    obtain ⟨c', hc', -⟩ := bind_eq_some_iff.1 ((hsound.latest key).symm.trans hversion)
    have hlast := (hsound.latest_eq hc').symm.trans hversion
    have hlt := Versions.idxOf_latest_lt (w := w.id) (hlater ▸ nodup_logAt hids) hlast
    rw [← hlater, ← hfinal.chain key c hc, mem_logAt_of hids hw hlogged, Nat.not_lt] at hlt
    rw [decide_eq_true_eq, ← hlt, List.idxOf_eq_getD_idxOf?, List.idxOf_eq_getD_idxOf?, hreaderAt, hwriterAt]
    rfl

/-- The input bindings of a plan. A reader's table or column is the one that has the name before the reader's change, if the
table is of either file and not excluded, and no answer is ambiguous. A reader spelled by an end of the plan has the owners
of that end. And whether a reader is before a writer is answered by where the two stand. -/
theorem bind_spec {changes : List Change} {final : IdsFile} {pending : ExtTreeSet Uid}
    (hn : PlanNames.build changes final pending = .ok n) (hids : (operations.map (·.id)).Nodup)
    (h : bind n operations before after excluded readers = some chain) :
    (∀ i op, operations[i]? = some op → readers.contains op.id = true →
      (∀ name uid, chain.table op.id name = .ok uid ↔ Owns n (Bound before after excluded) (.before i) name uid) ∧
      (∀ name uid, chain.column op.id name = .ok uid ↔ OwnsColumn n (Bound before after excluded) (.before i) name uid) ∧
      (∀ name shown why, chain.table op.id name ≠ .error (.rebuild shown why)) ∧
      (∀ name shown why, chain.column op.id name ≠ .error (.rebuild shown why)) ∧ ∀ intrinsic,
        (chain.spelling op.id intrinsic = .base → SameOwners n (Bound before after excluded) .start (.before i)) ∧
        (chain.spelling op.id intrinsic = .final → SameOwners n (Bound before after excluded) .end_ (.before i))) ∧
    ∀ reader writer b, chain.before reader writer = some b → ∃ (i j : Nat) (r w : Operation), operations[i]? = some r ∧ r.id = reader ∧
      operations[j]? = some w ∧ w.id = writer ∧ (b = true ↔ i ≤ j) := by
  obtain ⟨-, htables, hcolumns⟩ := PlanNames.build_inverse hn
  refine ⟨fun i op hop hreads => ?_, fun reader writer b hb => before_eq_some hids h hb⟩
  obtain ⟨hlength, read, hreader, hread, hbase, hgoal⟩ := reader_reads hids h hop hreads
  have hi : n.boundary (.before i) = some i := if_pos (hlength ▸ (List.getElem?_eq_some_iff.1 hop).1)
  have hend : n.boundary .end_ = some operations.length := congrArg some hlength
  refine ⟨fun name uid => ?_, fun name uid => ?_, fun name => (table_eq_ok htables hreader hread name).2,
    fun name => (column_eq_ok htables hcolumns hreader hread name).2, fun intrinsic => ⟨fun heq => ?_, fun heq => ?_⟩⟩
  · rw [owns_iff htables hi]
    exact (table_eq_ok htables hreader hread name).1 uid
  · rw [ownsColumn_iff htables hcolumns hi]
    exact (column_eq_ok htables hcolumns hreader hread name).1 uid
  · rw [(spelling_end hreader intrinsic).1 heq] at hread
    exact sameOwners_of_nameAt htables hcolumns rfl hi (hbase.unique hread)
  · rw [(spelling_end hreader intrinsic).2 heq] at hread
    exact sameOwners_of_nameAt htables hcolumns hend hi (hgoal.unique hread)

/-- The operations of a plan whose last change reads a name that another table had at the start. -/
def handedOver : List Operation := [⟨⟨0, 0⟩, .whole 0⟩, ⟨⟨1, 0⟩, .whole 1⟩, ⟨⟨2, 0⟩, .whole 2⟩]

def handedOverBefore : IdsFile where
  tables := (∅ : ExtTreeMap Uid TableName).insert ⟨"t_a"⟩ ⟨"dbo", "a"⟩
  columns := (∅ : ExtTreeMap Uid ColumnRef).insert ⟨"c_a"⟩ ⟨⟨"dbo", "a"⟩, "x"⟩

def lastReader : ExtTreeSet OperationId := .ofList [(⟨2, 0⟩ : OperationId)]

theorem bind_spec_handedOver : ∃ n chain, PlanNames.build PlanNames.handedOver PlanNames.handedOverIds ∅ = .ok n ∧
    AddressChain.bind n handedOver handedOverBefore PlanNames.handedOverIds ∅ lastReader = some chain ∧
    (∀ name uid, chain.table ⟨2, 0⟩ name = .ok uid ↔
      Owns n (Bound handedOverBefore PlanNames.handedOverIds ∅) (.before 2) name uid) ∧
    ∀ reader writer b, chain.before reader writer = some b → ∃ (i j : Nat) (r w : Operation), handedOver[i]? = some r ∧ r.id = reader ∧
      handedOver[j]? = some w ∧ w.id = writer ∧ (b = true ↔ i ≤ j) := by
  have hok : (match PlanNames.build PlanNames.handedOver PlanNames.handedOverIds ∅ with
      | .ok n => (AddressChain.bind n handedOver handedOverBefore PlanNames.handedOverIds ∅ lastReader).isSome
      | .error _ => false) = true := by decide +kernel
  cases hn : PlanNames.build PlanNames.handedOver PlanNames.handedOverIds ∅ with
  | error e => rw [hn] at hok; cases hok
  | ok n =>
    rw [hn] at hok
    obtain ⟨chain, hchain⟩ := Option.isSome_iff_exists.1 hok
    obtain ⟨hread, hbefore⟩ := bind_spec hn (by decide) hchain
    exact ⟨n, chain, rfl, hchain, (hread 2 ⟨⟨2, 0⟩, .whole 2⟩ rfl (by decide +kernel)).1, hbefore⟩

end Bind

end AddressChain

end Pbps.Operations
