/-
The dependency evidence read from an engine's catalog, and its closure from a root (`order/catalog.rs`,
`order/catalog/graph.rs`): what depends on the root or owns what does, with every link kept, the owners of referenced keys
as evidence, and for each object the one whose action takes it. The closure is refused where a fact is missing or the
ultimate owners wait for one another in a circle.
-/
import Pbps.Lib.Chain
import Pbps.Lib.Drain
import Pbps.Lib.Worklist
import Pbps.Model.Escape
import Pbps.Model.Schema

namespace Pbps.Catalog

open Std (ExtTreeMap ExtTreeSet)
open Pbps.Escape (escaped)

/-! ## The evidence -/

/-- Where a closure starts. -/
inductive Root where
  | module (id : ModuleId)
  | table (uid : Uid)
  deriving DecidableEq

namespace Root

def orderKey : Root → Nat × ModuleId × Uid
  | .module id => (0, id, ⟨""⟩)
  | .table uid => (1, .named ⟨"", ""⟩, uid)

def compareKeys : Root → Root → Ordering :=
  compareLex (compareOn fun r => r.orderKey.1) (compareFields (fun r => r.orderKey.2.1) (fun r => r.orderKey.2.2))

instance : Ord Root := ⟨compareKeys⟩

instance : Std.TransOrd Root := inferInstanceAs (Std.TransCmp (compareLex _ (compareFields _ _)))

end Root

/-- What a read said: one that found nothing is not one that was not made or failed. -/
inductive Fact (T : Type) where
  | absent
  | present (value : T)
  | unreadable (why : String)

/-- An object of the catalog, an attribute of it included. -/
structure Object where
  catalog : String
  id : Nat
  attribute_ : Int
  deriving DecidableEq

namespace Object

def compareKeys : Object → Object → Ordering := compareLex (compareOn Object.catalog) (compareFields Object.id Object.attribute_)

instance : Ord Object := ⟨compareKeys⟩

instance : Std.TransOrd Object := inferInstanceAs (Std.TransCmp (compareLex _ (compareFields _ _)))

instance : Std.LawfulEqOrd Object where
  compare_self {a} := by
    show compareKeys a a = .eq
    simp [compareKeys, compareFields, compareLex, compareOn]
  eq_of_compare {a b} h := by
    replace h : ((compare a.catalog b.catalog).then (compareFields Object.id Object.attribute_ a b)) = .eq := h
    rw [Ordering.then_eq_eq] at h
    obtain ⟨hid, hattribute⟩ := compareFields_eq h.2
    have hcatalog := Std.LawfulEqOrd.eq_of_compare h.1
    cases a; cases b; simp_all

end Object

inductive Ownership where
  | composite
  | array
  | returnRule
  | keyIndex
  | partitionClone
  | constraintTrigger
  | attribute_
  | storage
  deriving DecidableEq

def Ownership.place : Ownership → Nat
  | .composite => 0
  | .array => 1
  | .returnRule => 2
  | .keyIndex => 3
  | .partitionClone => 4
  | .constraintTrigger => 5
  | .attribute_ => 6
  | .storage => 7

theorem Ownership.place_injective {k k' : Ownership} (h : k.place = k'.place) : k = k' := by
  cases k <;> cases k' <;> first | rfl | cases h

/-- Which part of a table a dependent is. -/
inductive Part where
  | primaryKey (key : PrimaryKey)
  | unique (name : ObjectLocalName)
  | foreignKey (name : ObjectLocalName)
  | check (name : ObjectLocalName)
  | default (column : ColumnName)
  | index (name : ObjectLocalName)
  | generated (column : ColumnName)
  | policy (name : String)
  deriving DecidableEq

/-- What a dependent is, in terms that a plan can act on. -/
inductive Holds where
  | module (id : ModuleId)
  | tablePart (table : TableName) (part : Part)
  | unrepresentable (why : String)
  deriving DecidableEq

structure Dependent where
  described : String
  holds : Holds

inductive Held where
  | root (root : Root)
  | dependent (holds : Holds)
  | owned (by_ : Object) (kind : Ownership)
  deriving DecidableEq

def Held.owner : Held → Option Object
  | .owned by_ _ => some by_
  | .root _ | .dependent _ => none

inductive Binding where
  | ownership (kind : Ownership)
  | object
  | column
  | argument (position : Nat) (array : Bool)
  | result (array : Bool)
  | foreignKey (key : Object)
  deriving DecidableEq

namespace Binding

def orderKey : Binding → Nat × Nat × Bool × Object
  | .ownership kind => (0, kind.place, false, ⟨"", 0, 0⟩)
  | .object => (1, 0, false, ⟨"", 0, 0⟩)
  | .column => (2, 0, false, ⟨"", 0, 0⟩)
  | .argument position array => (3, position, array, ⟨"", 0, 0⟩)
  | .result array => (4, 0, array, ⟨"", 0, 0⟩)
  | .foreignKey key => (5, 0, false, key)

def compareKeys : Binding → Binding → Ordering :=
  compareLex (compareFields (fun b => b.orderKey.1) (fun b => b.orderKey.2.1))
    (compareFields (fun b => b.orderKey.2.2.1) (fun b => b.orderKey.2.2.2))

instance : Ord Binding := ⟨compareKeys⟩

instance : Std.TransOrd Binding := inferInstanceAs (Std.TransCmp (compareLex (compareFields _ _) (compareFields _ _)))

instance : Std.LawfulEqOrd Binding where
  compare_self {a} := by
    show compareKeys a a = .eq
    simp [compareKeys, compareFields, compareLex, compareOn]
  eq_of_compare {a b} h := by
    replace h : (compareFields (fun b : Binding => b.orderKey.1) (fun b => b.orderKey.2.1) a b).then
      (compareFields (fun b : Binding => b.orderKey.2.2.1) (fun b => b.orderKey.2.2.2) a b) = .eq := h
    rw [Ordering.then_eq_eq] at h
    obtain ⟨h1, h2⟩ := compareFields_eq h.1
    obtain ⟨h3, h4⟩ := compareFields_eq h.2
    clear h
    cases a <;> cases b <;> simp_all [orderKey]
    exact Ownership.place_injective h2

def isOwnership : Binding → Bool
  | .ownership _ => true
  | _ => false

end Binding

structure Link where
  dependent : Object
  kind : String
  binding : Binding
  deriving DecidableEq

namespace Link

def compareKeys : Link → Link → Ordering := compareLex (compareOn Link.dependent) (compareFields Link.kind Link.binding)

instance : Ord Link := ⟨compareKeys⟩

instance : Std.TransOrd Link := inferInstanceAs (Std.TransCmp (compareLex _ (compareFields _ _)))

instance : Std.LawfulEqOrd Link where
  compare_self {a} := by
    show compareKeys a a = .eq
    simp [compareKeys, compareFields, compareLex, compareOn]
  eq_of_compare {a b} h := by
    replace h : ((compare a.dependent b.dependent).then (compareFields Link.kind Link.binding a b)) = .eq := h
    rw [Ordering.then_eq_eq] at h
    obtain ⟨hkind, hbinding⟩ := compareFields_eq h.2
    have hdependent := Std.LawfulEqOrd.eq_of_compare h.1
    cases a; cases b; simp_all

end Link

structure Node where
  described : String
  held : Held
  dependents : Fact (ExtTreeSet Link)

structure Graph where
  roots : ExtTreeMap Root (Fact Object)
  nodes : ExtTreeMap Object (Fact Node)

/-- A link with the object it leaves. -/
structure Edge where
  from_ : Object
  link : Link

namespace Edge

instance : Ord Edge := ⟨compareFields Edge.from_ Edge.link⟩

instance : Std.TransOrd Edge := inferInstanceAs (Std.TransCmp (compareFields Edge.from_ Edge.link))

instance : Std.LawfulEqOrd Edge where
  compare_self := compareFields_self _
  eq_of_compare {a b} h := by
    obtain ⟨h1, h2⟩ := compareFields_eq h
    cases a; cases b; simp_all

end Edge

structure Closure where
  owners : ExtTreeMap Object Object := ∅
  nodes : ExtTreeMap Object Node := ∅
  edges : ExtTreeSet Edge := ∅
  surfaces : ExtTreeMap Object Dependent := ∅
  bindings : ExtTreeMap Object Node := ∅

/-! ## Reading it -/

/-- How a closure fails: with a refusal, by a lookup that finds nothing where the code expects something, or for want of
room. -/
inductive Failure where
  | refused (why : String)
  | panic
  | exhausted
  deriving DecidableEq

/-- What `{:?}` writes of an identity. -/
structure Debug where
  object : Object → String
  root : Root → String

def Fact.require {T : Type} (name : String) : Fact T → Except Failure T
  | .present value => .ok value
  | .absent => .error (.refused (escaped name ++ ": catalog fact is absent"))
  | .unreadable why => .error (.refused (escaped name ++ ": catalog fact is unreadable: " ++ escaped why))

namespace Graph

variable (debug : Debug) (g : Graph)

def node (id : Object) : Except Failure Node := ((g.nodes[id]?).getD .absent).require (debug.object id)

def boundTo (root : Root) : Except Failure Object := do
  let start ← ((g.roots[root]?).getD .absent).require (debug.root root)
  let node ← g.node debug start
  if node.held ≠ .root root then .error (.refused (escaped node.described ++ ": catalog root binding disagrees"))
  else .ok start

def start : Root → Except Failure Object
  | .table uid =>
    if uid.kind ≠ .table then .error (.refused "dependency root requires a table UID") else g.boundTo debug (.table uid)
  | .module id => g.boundTo debug (.module id)

def bindKey : Nat → ExtTreeMap Object Node → ExtTreeSet Object → Object → Except Failure (ExtTreeMap Object Node)
  | 0, _, _, _ => .error .exhausted
  | fuel + 1, bindings, seen, key => do
    let bound ← g.node debug key
    if seen.contains key then .error (.refused (escaped bound.described ++ ": binding ownership cycle"))
    else
      match bound.held with
      | .owned by_ _ => bindKey fuel (bindings.insert key bound) (seen.insert key) by_
      | .root _ | .dependent _ => .ok (bindings.insert key bound)

def visitLink (id : Object) (out : Closure) (link : Link) : Except Failure Closure :=
  match link.binding with
  | .foreignKey key => do
    let bindings ← g.bindKey debug (g.nodes.size + 1) out.bindings ∅ key
    pure { out with edges := out.edges.insert ⟨id, link⟩, bindings }
  | _ => .ok { out with edges := out.edges.insert ⟨id, link⟩ }

/-- A node taken up: the closure with it, and what goes on the stack, its owner on top of its dependents. -/
def visit (out : Closure) (id : Object) : Except Failure (Closure × List Object) := do
  let node ← g.node debug id
  let links ← node.dependents.require node.described
  let out ← links.toList.foldlM (g.visitLink debug id) out
  let surfaces := match node.held with
    | .dependent holds => out.surfaces.insert id ⟨node.described, holds⟩
    | .root _ | .owned _ _ => out.surfaces
  pure ({ out with surfaces, nodes := out.nodes.insert id node },
    (links.toList.map Link.dependent ++ node.held.owner.toList).reverse)

def search : Worklist.Search Object Closure Failure where
  seen out id := out.nodes.contains id
  visit out id := g.visit debug out id

def weight (id : Object) : Nat :=
  match g.nodes[id]? with
  | some (.present ⟨_, _, .present links⟩) => links.size + 1
  | _ => 0

end Graph

/-! ## Ultimate owners -/

def ownerFrom (nodes : ExtTreeMap Object Node) : Nat → ExtTreeSet Object → Object → Except Failure Object
  | 0, _, _ => .error .exhausted
  | fuel + 1, seen, owner =>
    match nodes[owner]? with
    | none => .error .panic
    | some node =>
      match node.held with
      | .owned by_ _ =>
        if seen.contains owner then .error (.refused (escaped node.described ++ ": ownership cycle"))
        else ownerFrom nodes fuel (seen.insert owner) by_
      | .root _ | .dependent _ => .ok owner

def owners (nodes : ExtTreeMap Object Node) : Except Failure (ExtTreeMap Object Object) := do
  let entries ← nodes.keys.mapM fun id => (ownerFrom nodes (nodes.size + 1) ∅ id).map (id, ·)
  pure (.ofList entries)

/-- Who waits for whom, and whom whose leaving serves. -/
structure Waiting where
  waits : ExtTreeMap Object (ExtTreeSet Object)
  users : ExtTreeMap Object (ExtTreeSet Object)

/-- A link between two ultimate owners; an object's own ownership links are none. -/
def addEdge (owners : ExtTreeMap Object Object) (q : Waiting) (edge : Edge) : Except Failure Waiting :=
  match owners[edge.from_]?, owners[edge.link.dependent]? with
  | some a, some b =>
    if a ≠ b ∨ edge.link.binding.isOwnership = false then
      match q.waits[b]? with
      | some deps =>
        .ok { waits := q.waits.insert b (deps.insert a), users := q.users.insert a (((q.users[a]?).getD ∅).insert b) }
      | none => .error .panic
    else .ok q
  | _, _ => .error .panic

def waiting (owners : ExtTreeMap Object Object) (edges : ExtTreeSet Edge) : Except Failure Waiting :=
  edges.toList.foldlM (addEdge owners) { waits := .ofList (owners.toList.map fun e => (e.2, ∅)), users := ∅ }

/-- What is left of the quotient when all that wait for nothing are gone, the greatest first. -/
def Waiting.drained (q : Waiting) : Except Failure (ExtTreeMap Object (ExtTreeSet Object)) :=
  Drain.drain .panic .exhausted q.users q.waits.size
    ⟨q.waits, ((q.waits.toList.filter (·.2.isEmpty)).map (·.1)).reverse⟩

def shown (nodes : ExtTreeMap Object Node) (id : Object) : Except Failure String :=
  match nodes[id]? with
  | some node => .ok (escaped node.described)
  | none => .error .panic

def blocked (nodes : ExtTreeMap Object Node) (left : ExtTreeMap Object (ExtTreeSet Object)) : Except Failure Closure := do
  let described ← left.keys.mapM (shown nodes)
  .error (.refused ("dependency cycle blocks " ++ ", ".intercalate described))

def Graph.closure (debug : Debug) (g : Graph) (root : Root) : Except Failure Closure := do
  let start ← g.start debug root
  let room := 1 + (g.nodes.keys.map g.weight).sum
  let out ← Worklist.run (g.search debug) .exhausted room {} [start]
  let owners ← owners out.nodes
  let q ← waiting owners out.edges
  let left ← q.drained
  if left.isEmpty then .ok { out with owners } else blocked out.nodes left

end Pbps.Catalog
