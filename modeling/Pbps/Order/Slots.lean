/-
Name slots beside a plan's steps: `order/slots.rs` of `pbps-diff` over `slots.rs` of `pbps-dialect`. From the names each step
takes and gives up come the edges a schedule settles and a replay of an order, which refuses a claim on a name still held.
-/
import Mathlib.Logic.Function.Iterate
import Pbps.Diff.Change

namespace Pbps.NameSlots

open Pbps.Diff (Change)

/-! ## Objects and names -/

/-- The column a default or a NOT NULL belongs to. -/
inductive ColumnKey where
  | recorded (uid : Uid)
  | partition (table : Uid) (column : ColumnName)
  deriving DecidableEq, Ord

/-- A named part of a table. -/
inductive PartKey where
  | primaryKey
  | unique (name : ObjectLocalName)
  | foreignKey (name : ObjectLocalName)
  | check (name : ObjectLocalName)
  | exclusion (name : ObjectLocalName)
  | policy (name : String)
  | rowSecurity
  | index (name : ObjectLocalName)
  | computed (name : ColumnName)
  deriving DecidableEq, Ord

inductive Grantee where
  | role (name : RoleName)
  | public_
  deriving DecidableEq, Ord

inductive RowSide where
  | written
  | held
  | released (part : PartKey)
  deriving DecidableEq, Ord

/-- The identity of what an operation acts on. -/
inductive ObjectKey where
  | type (uid : Uid)
  | table (uid : Uid)
  | column (key : ColumnKey)
  | role (uid : Uid)
  | extension (uid : Uid)
  | default (key : ColumnKey)
  | module (id : ModuleId)
  | notNull (key : ColumnKey)
  | part (table : Uid) (part : PartKey)
  | row (table : Uid) (key : RowKey)
  | rows (table : Uid) (side : RowSide)
  | columnOrder (table : Uid)
  | grant (grantee : Grantee) (target : GrantTarget)
  deriving DecidableEq, Ord

/-- Which of a table's own namespaces a name is in. -/
inductive TableSpace where
  | columns
  | indexes
  | constraints
  | triggers
  | policies
  deriving DecidableEq, Ord

/-- The namespace a name is unique in. -/
inductive Namespace where
  | relations (schema : String)
  | types (schema : String)
  | routines (schema : String)
  | table (table : ObjectKey) (space : TableSpace)
  | roles
  | extensions
  deriving DecidableEq, Ord

/-- One name in one namespace. -/
structure SlotKey where
  namespace_ : Namespace
  name : String
  deriving DecidableEq, Ord

/-- Whether two slots are one name. -/
inductive Same where
  | yes
  | no
  /-- The engine compares the spellings under a rule this plan has no fact for. -/
  | unknown
  deriving DecidableEq

/-- A name the catalog holds for an object the declarations do not name. -/
structure Occupant where
  slot : SlotKey
  kind : String
  owner : Option TableName
  column : Option ColumnName
  deriving DecidableEq

/-- What a connected plan's catalog reads say about names. -/
structure CatalogFacts where
  occupants : List Occupant
  detachReleases : List (SlotKey × Uid)
  compared : List SlotKey
  alike : List (SlotKey × SlotKey)

/-- Whether two slots are one name: equal slots are; otherwise by the engine's rule, or the catalog's answer. -/
def same (comparesNamesExactly : Bool) (facts : Option CatalogFacts) (a b : SlotKey) : Same :=
  if a = b then .yes
  else if (match a.namespace_, b.namespace_ with
    | .table x p, .table y q => decide ((x, p) ≠ (y, q))
    | m, n => m.ctorIdx ≠ n.ctorIdx) then .no
  else if comparesNamesExactly then .no
  else
    match facts with
    | none => .unknown
    | some facts =>
      if a ∈ facts.compared ∧ b ∈ facts.compared then
        if (a, b) ∈ facts.alike ∨ (b, a) ∈ facts.alike then .yes else .no
      else .unknown

/-! ## Steps -/

/-- One step's slots: what it claims and releases, each with its holder. -/
structure SlotEffects where
  reads : List (SlotKey × ObjectKey) := []
  claims : List (SlotKey × ObjectKey) := []
  releases : List (SlotKey × ObjectKey) := []
  inherited : List (SlotKey × ObjectKey) := []
  /-- The names its statements pass through, which no other operation sees. -/
  intermediate : List SlotKey := []
  deriving DecidableEq

/-- Every step's slots, and the catalog's names promoted to their owners. -/
structure Slots where
  catalogOwned : List (SlotKey × ObjectKey) := []
  effects : List SlotEffects

/-- An edge a name's handover implies: `before` gives the name up, `after` takes it. -/
structure SlotEdge where
  before : Nat
  after : Nat
  slot : SlotKey
  catalog : Bool
  deriving DecidableEq, Ord

/-- What one catalog occupant does in the plan. -/
structure Carried where
  occupant : Nat
  slot : SlotKey
  step : Nat
  lands : Option SlotKey
  deriving DecidableEq

/-- Who holds a name, for the edges: an object of the plan, a catalog occupant by its position, or a step that passes through. -/
inductive Holder where
  | managed (key : ObjectKey)
  | catalog (occupant : Nat)
  | passing (step : Nat)
  deriving DecidableEq, Ord

def Holder.isCatalog : Holder → Bool
  | .catalog _ => true
  | _ => false

/-! ## Edges -/

variable (op : Operation) (slots : Slots) (facts : Option CatalogFacts) (carried : List Carried)

def allSlots : List SlotKey :=
  (slots.effects.flatMap fun fx => (fx.reads ++ fx.claims ++ fx.releases).map Prod.fst) ++
    (carried.flatMap fun c => c.slot :: c.lands.toList) ++ slots.effects.flatMap SlotEffects.intermediate

/-- Two slots that are alike take the lesser of their representatives, with all that had either. -/
def unite (all : List SlotKey) (rep : SlotKey → SlotKey) (pair : SlotKey × SlotKey) : SlotKey → SlotKey :=
  if pair.1 ∈ all ∧ pair.2 ∈ all ∧ rep pair.1 ≠ rep pair.2 then
    let least := if (compare (rep pair.1) (rep pair.2)).isLE then rep pair.1 else rep pair.2
    fun s => if rep s = rep pair.1 ∨ rep s = rep pair.2 then least else rep s
  else rep

/-- Each slot's representative: itself, or the least slot that the catalog reports alike with it. A pass over the pairs that
changes something leaves one representative less, so no more of them change anything than there are slots. -/
def groups : SlotKey → SlotKey :=
  match facts with
  | none => id
  | some facts => (fun rep => facts.alike.foldl (unite (allSlots slots carried)) rep)^[(allSlots slots carried).length] id

/-- A holder takes a name at a step, or gives it up. -/
structure Entry where
  slot : SlotKey
  holder : Holder
  step : Nat
  gives : Bool
  deriving DecidableEq

/-- What one step does to names. A clone of a standing trigger is the trigger's: where that is released, the claim is not one. -/
def stepEntries (rep : SlotKey → SlotKey) (i : Nat) (fx : SlotEffects) : List Entry :=
  (fx.claims.filterMap fun claimed =>
    if claimed ∈ fx.inherited ∧ claimed ∈ slots.effects.flatMap SlotEffects.releases then none
    else some ⟨rep claimed.1, .managed claimed.2, i, false⟩) ++
  fx.releases.map fun released => ⟨rep released.1, .managed released.2, i, true⟩

/-- A step that passes through a name takes it and gives it up again. -/
def passingEntries (rep : SlotKey → SlotKey) (i : Nat) (fx : SlotEffects) : List Entry :=
  fx.intermediate.flatMap fun s => [⟨rep s, .passing i, i, false⟩, ⟨rep s, .passing i, i, true⟩]

/-- An occupant holds its name from the start and gives it up at its step; carried to another schema, it takes a name there. -/
def carriedEntries (rep : SlotKey → SlotKey) (c : Carried) : List Entry :=
  if c.slot ∈ slots.catalogOwned.map Prod.fst then []
  else ⟨rep c.slot, .catalog c.occupant, c.step, true⟩ ::
    c.lands.toList.map fun lands => ⟨rep lands, .catalog c.occupant, c.step, false⟩

def bySlot (passing : Bool) : List Entry :=
  let rep := groups slots facts carried
  (slots.effects.zipIdx.flatMap fun (fx, i) => stepEntries slots rep i fx) ++
    (if passing then slots.effects.zipIdx.flatMap fun (fx, i) => passingEntries rep i fx else []) ++
    carried.flatMap (carriedEntries slots rep)

section Entries

variable (entries : List Entry)

variable (s : SlotKey)

def claimsOf (holder : Holder) : List Nat :=
  (entries.filter fun e => e.slot = s ∧ e.holder = holder ∧ e.gives = false).map Entry.step

def releasesOf (holder : Holder) : List Nat :=
  (entries.filter fun e => e.slot = s ∧ e.holder = holder ∧ e.gives = true).map Entry.step

def holdersOf : List Holder := ((entries.filter fun e => e.slot = s).map Entry.holder).eraseDups

def between (catalog : Bool) (befores afters : List Nat) : List SlotEdge :=
  befores.flatMap fun r => afters.filterMap fun c => if r ≠ c then some ⟨r, c, s, catalog⟩ else none

/-- The edges of one holder of a name: every other claim waits for the first, which only gives it up, and the last, which only
takes it, waits for every other release. -/
def holderEdges (holder : Holder) : List SlotEdge :=
  let others := (holdersOf entries s).filter (· ≠ holder)
  if (claimsOf entries s holder).isEmpty then
    others.flatMap fun other =>
      between s (holder.isCatalog || other.isCatalog) (releasesOf entries s holder) (claimsOf entries s other)
  else if (releasesOf entries s holder).isEmpty then
    others.flatMap fun other =>
      between s (holder.isCatalog || other.isCatalog) (releasesOf entries s other) (claimsOf entries s holder)
  else []

/-- A reader comes after its holder takes the name and before it gives it up. -/
def readEdges (holder : ObjectKey) (reader : Nat) : List SlotEdge :=
  between s false (claimsOf entries s (.managed holder)) [reader] ++ between s false [reader] (releasesOf entries s (.managed holder))

end Entries

/-- The edges, with the names that steps pass through as holders where `passing`. -/
def handoversOf (passing : Bool) : List SlotEdge :=
  let rep := groups slots facts carried
  let entries := bySlot slots facts carried passing
  let reads := slots.effects.zipIdx.flatMap fun (fx, reader) => fx.reads.flatMap fun (s, holder) => readEdges entries (rep s) holder reader
  let names := (entries.map Entry.slot).eraseDups
  let hands := names.flatMap fun s => (holdersOf entries s).flatMap (holderEdges entries s)
  (reads ++ hands).eraseDups.mergeSort fun a b => (compare a b).isLE

/-- Release before claim, where the evidence names whom a claim replaces. -/
def edges : List SlotEdge :=
  handoversOf slots facts carried true

/-! ## The replay -/

/-- One step of the plan, with the key of what it acts on where that can be told. -/
structure Operation where
  id : Nat
  change : Change
  key : Option ObjectKey

/-- Who holds a slot during the replay. -/
inductive Occupier where
  | managed (key : ObjectKey)
  /-- A catalog occupant, by its kind and the table and column it belongs to. -/
  | catalog (kind : String) (owner : Option ObjectKey) (column : Option (ObjectKey × ColumnName))
  deriving DecidableEq

/-- Why the replay refused a claim. The report describes the holder. -/
inductive SlotViolation where
  /-- An input address does not hold its required identity at this position. -/
  | missingInput (operation : Nat) (slot : SlotKey) (holder : ObjectKey)
  /-- A name another object still holds, which gives it up later in the plan. -/
  | held (operation : Nat) (slot : SlotKey) (holder : Occupier)
  /-- A name another object holds and the plan never gives up. -/
  | contested (operation : Nat) (slot : SlotKey) (holder : Occupier)
  /-- A statement of a step passes through a name another object holds. -/
  | intermediateHeld (operation : Nat) (slot : SlotKey) (holder : Occupier)
  /-- An edge the handovers imply runs the other way. -/
  | edge (before after : Nat) (slot : SlotKey)
  deriving DecidableEq

/-- A comparison the replay could not make. -/
structure Skipped where
  operation : Nat
  claimed : SlotKey
  held : SlotKey
  deriving DecidableEq

/-- What the replay asks of the dialect and of the baseline: the slots of its names, the table by a name, and a table's column. -/
structure Baseline where
  comparesNamesExactly : Bool
  names : List (SlotKey × ObjectKey)
  table : TableName → Option Uid
  column : Uid → ColumnName → Option ObjectKey

/-- The column a key is about: a column's own key, or its default's. -/
def columnOf : ObjectKey → Option ColumnKey
  | .column c => some c
  | .default c => some c
  | _ => none

def acts (column : ObjectKey) : Bool :=
  match op.key.bind columnOf with
  | some k => some k = columnOf column
  | none => false

def leaves : Occupier → Bool
  | .managed _ => false
  | .catalog _ owner column =>
    let owned := owner.isSome && owner = op.key
    match op.change, column with
    | .dropTable .., _ => owned
    | _, none => false
    | .renameTable _ _ _ defaults, some (_, name) => owned && defaults.contains name
    | .dropColumn .., some (column, _) => acts op column
    | .renameColumn .., some (column, _) => acts op column
    | .alterColumnType .., some (column, _) => acts op column
    | .alterColumnDefault .., some (column, _) => acts op column
    | .alterColumnNumbering .., some (column, _) => acts op column
    | _, some _ => false

/-- The schema a step moves its table to, where that is another one. -/
def movesTo : Option String :=
  match op.change with
  | .renameTable _ from_ to_ _ => if from_.schema ≠ to_.schema then some to_.schema else none
  | _ => none

/-- Whether a step moves a catalog occupant's table to another schema. -/
def moves : Occupier → Bool
  | .managed _ => false
  | .catalog _ owner _ => (movesTo op).isSome && owner.isSome && owner = op.key

/-- A detach only releases the clone names the catalog proved it renames. -/
def detachedRelease (slot : SlotKey) (facts : Option CatalogFacts) : Bool :=
  match op.change, op.key with
  | .detachPartition .., some (.table owner) => facts.bind (fun f => f.detachReleases.lookup slot) = some owner
  | _, _ => false

section Verify

variable (operations : List Operation) (slots : Slots) (base : Baseline) (facts : Option CatalogFacts)

def isRead (s : SlotKey) (h : ObjectKey) : Bool :=
  slots.effects.any fun fx => fx.reads.any fun r => r.2 = h && same base.comparesNamesExactly facts r.1 s ≠ .no

/-- A step that gives a name up before it takes it held the name at the start. -/
def seedReleases (x : List (SlotKey × Occupier) × List (SlotKey × ObjectKey)) (r : SlotKey × ObjectKey) :
    List (SlotKey × Occupier) × List (SlotKey × ObjectKey) :=
  if r ∈ x.2 then x
  else (if isRead slots base facts r.1 r.2 then x.1 else x.1 ++ [(r.1, .managed r.2)], r :: x.2)

def seedStep (x : List (SlotKey × Occupier) × List (SlotKey × ObjectKey)) (fx : SlotEffects) :
    List (SlotKey × Occupier) × List (SlotKey × ObjectKey) :=
  let x := fx.releases.foldl (seedReleases slots base facts) x
  (x.1, fx.claims ++ x.2)

def wanted : List SlotKey := slots.effects.flatMap fun fx => (fx.claims ++ fx.reads).map Prod.fst ++ fx.intermediate

def baselineHeld (base : Baseline) : List (SlotKey × ObjectKey) := base.names ++ slots.catalogOwned

def seedBaseline (held : List (SlotKey × Occupier)) (b : SlotKey × ObjectKey) : List (SlotKey × Occupier) :=
  if (wanted slots).any (fun w => same base.comparesNamesExactly facts w b.1 ≠ .no) && !(held.contains (b.1, .managed b.2)) then
    held ++ [(b.1, .managed b.2)]
  else held

/-- A catalog occupant as a holder, with the keys of its table and column in the baseline. -/
def occupier (base : Baseline) (o : Occupant) : SlotKey × Occupier :=
  let table := o.owner.bind base.table
  (o.slot, .catalog o.kind (table.map .table) (table.bind fun t => o.column.bind fun c => (base.column t c).map (·, c)))

/-- The names held at the start: those a step gives up before taking them, those of the baseline at a name that is asked for,
and the catalog's where the baseline holds nothing. -/
def seeded : List (SlotKey × Occupier) :=
  let released := (slots.effects.foldl (seedStep slots base facts) ([], [])).1
  let held := (baselineHeld slots base).foldl (seedBaseline slots base facts) released
  let occupants := (facts.map CatalogFacts.occupants).getD []
  held ++ (occupants.filter fun o => o.slot ∉ (baselineHeld slots base).map Prod.fst).map (occupier base)

def givesUp (s : SlotKey) : Occupier → Bool
  | .managed k => slots.effects.any fun fx => fx.releases.contains (s, k)
  | who => operations.any fun op => leaves op who || moves op who || detachedRelease op s facts

/-- The first other holder of a name, and the comparisons that could not be made before it. -/
def claim (operation : Nat) (s : SlotKey) (holder : Option ObjectKey) :
    List (SlotKey × Occupier) → Option (Occupier × Bool) × List Skipped
  | [] => (none, [])
  | (h, who) :: held =>
    if holder.map Occupier.managed = some who then claim operation s holder held
    else
      match same base.comparesNamesExactly facts s h with
      | .yes => (some (who, givesUp operations slots facts h who), [])
      | .unknown =>
        let (found, skipped) := claim operation s holder held
        (found, ⟨operation, s, h⟩ :: skipped)
      | .no => claim operation s holder held

/-- The replay so far. -/
structure Replay where
  held : List (SlotKey × Occupier)
  violations : List SlotViolation := []
  skipped : List Skipped := []

def refused (operation : Nat) (slot : SlotKey) (found : Occupier × Bool) : SlotViolation :=
  if found.2 then .held operation slot found.1 else .contested operation slot found.1

variable (op : Operation)

/-- A name is asked for, and refused as told where another holds it. -/
def ask (s : SlotKey) (holder : Option ObjectKey) (report : Occupier × Bool → SlotViolation) (r : Replay) : Replay :=
  let (found, skipped) := claim operations slots base facts op.id s holder r.held
  { r with violations := r.violations ++ (found.map report).toList, skipped := r.skipped ++ skipped }

def readStep (r : Replay) (read : SlotKey × ObjectKey) : Replay :=
  if r.held.any fun h => same base.comparesNamesExactly facts h.1 read.1 = .yes && h.2 = .managed read.2 then r
  else { r with violations := r.violations ++ [.missingInput op.id read.1 read.2] }

def release (held : List (SlotKey × Occupier)) (released : SlotKey × ObjectKey) : List (SlotKey × Occupier) :=
  held.filter fun h => !(same base.comparesNamesExactly facts h.1 released.1 = .yes && h.2 = .managed released.2)

def carry (schema : String) (s : SlotKey) : SlotKey :=
  match s.namespace_ with
  | .relations _ => { s with namespace_ := .relations schema }
  | _ => s

def moved (held : List (SlotKey × Occupier)) : List (SlotKey × Occupier) × List (SlotKey × Occupier) :=
  match movesTo op with
  | some schema => ((held.filter fun h => moves op h.2).map fun h => (carry schema h.1, h.2), held.filter fun h => !moves op h.2)
  | none => ([], held)

/-- Whether a holder goes with its table or its column at a step, or is a clone that the step renames. -/
def leaving (h : SlotKey × Occupier) : Bool :=
  leaves op h.2 ||
    match h.2 with
    | .catalog .. => detachedRelease op h.1 facts
    | .managed _ => false

def passStep (r : Replay) (s : SlotKey) : Replay :=
  ask operations slots base facts op s none (fun found => .intermediateHeld op.id s found.1) r

/-- A name taken, by what was carried to it or by an object that claims it. -/
def takeStep (holder : Option ObjectKey) (r : Replay) (taken : SlotKey × Occupier) : Replay :=
  let r := ask operations slots base facts op taken.1 holder (refused op.id taken.1) r
  { r with held := r.held ++ [taken] }

/-- One step: what it gives up, what leaves with it, the names it passes through, and what it takes. -/
def replayStep (r : Replay) (step : Operation × SlotEffects) : Replay :=
  let op := step.1
  let fx := step.2
  let r := fx.reads.foldl (readStep base facts op) r
  let held := (fx.releases.foldl (release base facts) r.held).filter fun h => !leaving facts op h
  let (landed, held) := moved op held
  let r := fx.intermediate.foldl (passStep operations slots base facts op) { r with held }
  let r := landed.foldl (takeStep operations slots base facts op none) r
  fx.claims.foldl (fun r (c : SlotKey × ObjectKey) =>
    takeStep operations slots base facts op (some c.2) r (c.1, .managed c.2)) r

def replay : Replay := (operations.zip slots.effects).foldl (replayStep operations slots base facts) { held := seeded slots base facts }

/-- An edge the order does not keep. The steps the edges name are there. -/
def edgeViolation (e : SlotEdge) : Option SlotViolation := do
  guard (e.after ≤ e.before)
  let before ← operations[e.before]?
  let after ← operations[e.after]?
  some (.edge before.id after.id e.slot)

/-- Replays the order given and refuses a claim on a name still held. -/
def verify : List SlotViolation × List Skipped :=
  let r := replay operations slots base facts
  (r.violations ++ (handoversOf slots facts [] false).filterMap (edgeViolation operations), r.skipped)

end Verify

end Pbps.NameSlots
