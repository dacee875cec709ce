/-
The rule driver: `order/expand.rs`. A rule names the obligations a plan leaves unmet and answers each with a rewrite; the
driver applies one rewrite at a time and settles the plan after each. The rule is whatever it is: it answers from a state
of its own that every question may change, and nothing is taken for granted of its answers. Where the source would panic,
the model stops with `panicked`.
-/
import Pbps.Order.Settled
import Pbps.Model.Ids

namespace Pbps.Expand

open Std (ExtTreeMap ExtTreeSet)
open Pbps.Order

def FACTOR : Nat := 2

/-! ## Plans -/

/-- The logical change an operation came from. -/
inductive LogicalSource (τ : Type) where
  | change (i : Nat)
  | rebinding (surface : τ)
  deriving DecidableEq

/-- Where a step came from. -/
inductive Origin (τ : Type) where
  | whole (i : Nat)
  | splitPart (i : Nat)
  | teardown (source : LogicalSource τ)
  | restoration (source : LogicalSource τ)
  deriving DecidableEq

def Origin.source {τ : Type} : Origin τ → LogicalSource τ
  | .whole i | .splitPart i => .change i
  | .teardown source | .restoration source => source

inductive AddedRole where
  | splitPart
  | teardown
  | restoration
  deriving DecidableEq, Repr

/-- Why a planning rule added a step. -/
structure Provenance where
  rule : String
  role : AddedRole
  source : String
  reason : String
  deriving DecidableEq, Repr

/-- A change with what travels with it, and why it was added if a rule did. -/
structure PlannedChange (α : Type) where
  change : α
  provenance : Option Provenance := none

/-- What the driver reads of a change: its subject, what kind of step it is, the table it creates, and how a text from a
plan is shown. -/
structure Reading (α : Type) where
  subject : α → String
  discriminant : α → Nat
  created : α → Option Uid
  escaped : String → String
  checksum : List (PlannedChange α) → String

inductive ModuleEdits where
  | inPlace
  | rebuilt
  deriving DecidableEq, Repr

/-- A step with its identity: a source, and a part of it. -/
structure Operation (τ α : Type) where
  source : Nat
  part : Nat
  origin : Origin τ
  step : PlannedChange α
  modules : ModuleEdits

/-- A plan's reservation ledger. -/
structure IdAllocator (τ : Type) where
  sources : List (LogicalSource τ × Nat × Nat) := []
  next : Nat := 0
  modules : Option ModuleEdits := none

/-- A plan that is being ordered, each step with its origin. -/
structure PlanningPlan (τ α : Type) where
  payload : List (PlannedChange α)
  origins : List (Origin τ)
  aligned : payload.length = origins.length
  logical : Nat
  proof : OrderingProof
  identities : Option (List (Operation τ α)) := none
  allocator : IdAllocator τ := {}
  /-- How its pending boundaries edit modules; none when it has none. -/
  boundaries : Option ModuleEdits := none
  /-- What the annotations say of the tables created inline. -/
  inline : ExtTreeMap Uid String := ∅

/-! ## Rules -/

/-- A step a rewrite names: one the plan has, or one the same rewrite adds. -/
inductive Step where
  | plan (j : Nat)
  | added (k : Nat)
  deriving DecidableEq, Repr

/-- Where an added step enters the plan before it is settled. -/
inductive Anchor where
  | before (j : Nat)
  | after (j : Nat)
  deriving DecidableEq, Repr

structure Addition (α : Type) where
  of : Nat
  change : PlannedChange α
  anchor : Anchor
  reason : String

/-- A step that an expansion adds. There is no whole one. -/
inductive Added (α : Type) where
  | teardown (a : Addition α)
  | restoration (a : Addition α)

def Added.role {α : Type} : Added α → AddedRole
  | .teardown _ => .teardown
  | .restoration _ => .restoration

def Added.addition {α : Type} : Added α → Addition α
  | .teardown a | .restoration a => a

/-- One edge of a rewrite. -/
structure Order where
  before : Step
  after : Step
  source : Source
  reason : OrderReason
  deriving DecidableEq, Repr

/-- What an expansion answers one obligation with. -/
inductive Rewrite (α : Type) where
  | split (i : Nat) (first second : PlannedChange α) (tail : List (PlannedChange α)) (reason : String)
  | add (added : List (Added α)) (respelled : List (Nat × PlannedChange α)) (edges : List Order)

def Rewrite.isEmpty {α : Type} : Rewrite α → Bool
  | .split _ _ _ _ _ => false
  | .add added respelled edges => added.isEmpty && respelled.isEmpty && edges.isEmpty

/-- A rule. Every answer may depend on a state that every question may change. -/
structure Expansion (σ τ α O : Type) where
  rule : String
  unmet : σ → List (PlannedChange α) → Except String (List O) × σ
  expand : σ → List (PlannedChange α) → O → Except String (Rewrite α) × σ
  bindInputs : σ → List (Operation τ α) → Except String (List (Operation τ α)) × σ
  order : σ → List (PlannedChange α) → Except String (List Order) × σ

/-! ## The state -/

/-- How a run ends beside a plan: a refusal, a panic on an index or a step placed twice, identities that ran out or do not
fit the plan that was given, or not at all. -/
inductive Stop where
  | refused (message : String)
  | panicked
  | identities
  | running
  deriving DecidableEq, Repr

structure State (τ α : Type) where
  changes : List (PlannedChange α)
  /-- Beside each step, what it is to the plan's logical changes. -/
  origins : List (Origin τ)
  proof : OrderingProof
  creationContexts : ExtTreeMap Uid String

def reasonWord : OrderReason → String
  | .structural => "structural"
  | .binding => "binding"
  | .identity => "identity"
  | .data => "data"
  | .authorization => "authorization"
  | .restoration => "restoration"

def sourceWord : Source → String
  | .effect => "Effect"
  | .declared => "Declared"
  | Source.annotation => "Annotation"
  | .inferred => "Inferred"
  | .lexical => "Lexical"
  | .catalog => "Catalog"
  | .binding => "Binding"
  | .execution => "Execution"
  | .search => "Search"
  | .guess => "Guess"

section Driver

variable {σ τ α O : Type} (reading : Reading α)

/-- `describe`: a refusal with its steps named by their subjects. -/
def describe (changes : List (PlannedChange α)) : Refusal → String
  | .outside before after steps => s!"an ordering edge {before} -> {after} names a step outside the {steps} the plan has"
  | .mismatch steps count => s!"the schedule orders {steps} steps and the plan has {count}"
  | .unmet obligations => "\n".intercalate (obligations.map (·.refusal))
  | .kept keep => keep.refusal
  | .cycle members edges _ remedy =>
    let name (i : Nat) : String := match changes[i]? with
      | none => s!"#{i}"
      | some p => "`" ++ reading.escaped (reading.subject p.change) ++ "`"
    "these steps wait on one another: " ++ ", ".intercalate (members.map name) ++ "; because " ++
      ", ".intercalate (edges.map fun e =>
        name e.before ++ " before " ++ name e.after ++ " (" ++ reasonWord e.reason ++ ", " ++ sourceWord e.source ++ ")") ++
      (remedy.map ("; " ++ ·)).getD ""

/-- The constraint that an edge states, if it names steps of the plan. -/
def Order.constraint (e : Order) : Except Stop Constraint :=
  match e.before, e.after with
  | .plan before, .plan after => .ok ⟨before, after, e.source, e.reason⟩
  | _, _ => .error (.refused "an edge to settle names an added step")

/-- `inline_contexts`: what the tables created inline say of themselves, by position. -/
def inlineContexts (changes : List (PlannedChange α)) (context : ExtTreeMap Uid String) : ExtTreeMap Nat String :=
  .ofList (changes.zipIdx.filterMap fun e =>
    match reading.created e.1.change with
    | some uid => context[uid]?.map (e.2, ·)
    | none => none)

/-- `settle`: the steps in the order that the edges give, and the origins with them. -/
def State.settle (st : State τ α) (edges : List Order) : Except Stop (State τ α) := do
  let constraints ← edges.mapM Order.constraint
  let schedule : Schedule := { steps := st.changes.length, constraints := .ofList constraints
                               creationContexts := inlineContexts reading st.changes st.creationContexts }
  match schedule.settleScratch reading.checksum st.changes with
  | .error (.refused r) => .error (.refused (describe reading st.changes r))
  | .error _ => .error .panicked
  | .ok settled =>
    match takeAll (st.origins.map some) settled.sequence with
    | none => .error .panicked
    | some origins => .ok { st with changes := settled.changes, origins, proof := settled.proof }

/-- `contract`: every logical change is still there, whole or as its parts. -/
def State.contract (st : State τ α) (rule : String) (logical : Nat) : Except Stop Unit :=
  match (List.range logical).find? fun i => !st.origins.any fun
      | .whole j | .splitPart j => j == i
      | _ => false with
  | some i => .error (.refused s!"{rule}: the plan's change {i} is no longer in it")
  | none => .ok ()

variable (rule : String) (logical : List String)

/-- The whole step at `i`, replaced in place by its parts. -/
def State.split (st : State τ α) (i : Nat) (parts : List (PlannedChange α)) (reason : String) : Except Stop (State τ α) :=
  match st.origins[i]? with
  | some (.whole source) =>
    match logical[source]? with
    | none => .error .panicked
    | some subject =>
      if i < st.changes.length then
        let parts := parts.map fun p => { p with provenance := some ⟨rule, .splitPart, subject, reason⟩ }
        .ok { st with changes := st.changes.take i ++ parts ++ st.changes.drop (i + 1)
                      origins := st.origins.take i ++ List.replicate parts.length (.splitPart source) ++ st.origins.drop (i + 1) }
      else .error .panicked
  | _ => .error (.refused s!"{rule}: only a whole step splits, not step {i}")

def respell (n : Nat) (changes : List (PlannedChange α)) (e : Nat × PlannedChange α) : Except Stop (List (PlannedChange α)) :=
  let i := e.1
  match changes[i]? with
  | none => .error (.refused s!"{rule}: respells step {i} of {n}")
  | some old =>
    if reading.discriminant old.change ≠ reading.discriminant e.2.change then
      .error (.refused (rule ++ ": respelling `" ++ reading.escaped (reading.subject old.change) ++
        "` changed what kind of step it is"))
    else .ok (changes.set i e.2)

def admitted (n : Nat) (origins : List (Origin τ)) (added : Added α) : Except Stop (PlannedChange α × Origin τ) :=
  let a := added.addition
  let of := a.of
  match origins[of]? with
  | none => .error (.refused s!"{rule}: an added step serves step {of} of {n}")
  | some o =>
    match o.source with
    | .rebinding _ => .error (.refused s!"{rule}: an added step serves no logical change")
    | .change i =>
      let j := match a.anchor with | .before j | .after j => j
      if n ≤ j then .error (.refused s!"{rule}: an anchor at step {j} of {n}")
      else
        match logical[i]? with
        | none => .error .panicked
        | some subject => .ok
          ({ a.change with provenance := some ⟨rule, added.role, subject, a.reason⟩ },
            if added.role = .teardown then .teardown (.change i) else .restoration (.change i))

/-- The added steps at one anchor, by index, in the order they were added. -/
def anchored (added : List (Added α)) (anchor : Anchor) : List Nat :=
  (List.range added.length).filter fun k => (added[k]?.map (·.addition.anchor)) == some anchor

/-- Where each step goes: the plan's in order, an added one beside its anchor. Step `k` that is added is number `n + k`. -/
def placing (n : Nat) (added : List (Added α)) : List Nat :=
  (List.range n).flatMap fun j =>
    (anchored added (.before j)).map (n + ·) ++ [j] ++ (anchored added (.after j)).map (n + ·)

def placedAt (n : Nat) (added : List (Added α)) : Step → Option Nat
  | .plan j => if j < n then some ((placing n added).idxOf j) else none
  | .added k => if k < added.length then some ((placing n added).idxOf (n + k)) else none

def moved (n : Nat) (added : List (Added α)) (e : Order) : Except Stop Order :=
  match placedAt n added e.before, placedAt n added e.after with
  | some before, some after => .ok { e with before := .plan before, after := .plan after }
  | _, _ => .error (.refused s!"{rule}: an edge names a step the rewrite does not have")

/-- Steps added beside their anchors, steps respelled, and the plan settled over the edges. -/
def State.add (st : State τ α) (added : List (Added α)) (respelled : List (Nat × PlannedChange α)) (edges : List Order) :
    Except Stop (State τ α) := do
  let n := st.changes.length
  let changes ← respelled.foldlM (respell reading rule n) st.changes
  let additions ← added.mapM (admitted rule logical n st.origins)
  -- The plan's steps are taken one by one from the two lists zipped.
  if st.origins.length < n then throw .panicked
  match takeAll ((changes.zip st.origins ++ additions).map some) (placing n added) with
  | none => .error .panicked
  | some placed =>
    let edges ← edges.mapM (moved rule n added)
    State.settle reading { st with changes := placed.map (·.1), origins := placed.map (·.2) } edges

/-- `apply`: one rewrite, and then the contract. -/
def State.apply (st : State τ α) (rewrite : Rewrite α) : Except Stop (State τ α) := do
  let st ← match rewrite with
    | .split i first second tail reason => st.split rule logical i (first :: second :: tail) reason
    | .add added respelled edges => st.add reading rule logical added respelled edges
  st.contract rule logical.length
  return st

/-! ## The driver -/

def list (show_ : O → String) (items : List O) : String := "; ".intercalate (items.map show_)

variable {reading rule logical}

variable (reading) (logical) in
/-- The loop of `expand`, with the rewrites applied so far. It ends by itself; the fuel is how long it is followed. -/
def loop [BEq O] (show_ : O → String) (expansion : Expansion σ τ α O) (factor asked : Nat) :
    Nat → Nat → σ → State τ α → Nat × Except Stop (State τ α × σ)
  | 0, rewrites, _, _ => (rewrites, .error .running)
  | fuel + 1, rewrites, s, st =>
    let name := expansion.rule
    let budget := factor * max asked 1
    match expansion.unmet s st.changes with
    | (.error e, _) => (rewrites, .error (.refused e))
    | (.ok [], s) => (rewrites, .ok (st, s))
    | (.ok (first :: rest), s) =>
      let left := (first :: rest).length
      if rewrites = budget then
        (rewrites, .error (.refused (s!"{name}: the rewrite budget of {budget} ({factor} per operation, {asked} asked for) " ++
          s!"is spent and {left} remain unmet: " ++ list show_ (first :: rest))))
      else
        match expansion.expand s st.changes first with
        | (.error e, _) => (rewrites, .error (.refused e))
        | (.ok rewrite, s) =>
          if rewrite.isEmpty then
            (rewrites, .error (.refused (name ++ ": nothing meets " ++ list show_ (first :: rest))))
          else
            match st.apply reading name logical rewrite with
            | .error e => (rewrites, .error e)
            | .ok st =>
              match expansion.unmet s st.changes with
              | (.error e, _) => (rewrites + 1, .error (.refused e))
              | (.ok unmet, s) =>
                if unmet.contains first then
                  (rewrites + 1, .error (.refused (name ++ ": a rewrite for " ++ show_ first ++ " left it unmet")))
                else loop show_ expansion factor asked fuel (rewrites + 1) s st

/-- The origin of a finished step, over the logical changes that the input's own steps came from. -/
def carried (origins : List (Origin τ)) : Origin τ → Option (Origin τ)
  | .whole i => origins[i]?
  | .splitPart i => origins[i]?.map fun o =>
    match o.source with
    | .change j => .splitPart j
    | .rebinding _ => o
  | .teardown (.change i) => origins[i]?.map fun o => .teardown o.source
  | .restoration (.change i) => origins[i]?.map fun o => .restoration o.source
  | o => some o

/-! ## Identities -/

def checkedAdd (n : Nat) : Except Stop Nat := if n + 1 < 2 ^ 32 then .ok (n + 1) else .error .identities

section Ids

variable [DecidableEq τ]

def IdAllocator.slot (a : IdAllocator τ) (source : LogicalSource τ) : Option (Nat × Nat) :=
  (a.sources.find? (·.1 = source)).map (·.2)

def IdAllocator.setSlot (a : IdAllocator τ) (source : LogicalSource τ) (slot : Nat × Nat) : IdAllocator τ :=
  { a with sources := (source, slot) :: a.sources.filter (·.1 ≠ source) }

/-- `reserve`, for one operation. -/
def IdAllocator.reserve (a : IdAllocator τ) (op : Operation τ α) : Except Stop (IdAllocator τ) := do
  let next ← checkedAdd op.source
  let part ← checkedAdd op.part
  let slot := (a.slot op.origin.source).getD (op.source, 0)
  -- One logical source retains its allocated identity.
  if slot.1 ≠ op.source then throw .identities
  let a := { a with modules := a.modules.or (some op.modules), next := max a.next next }
  return a.setSlot op.origin.source (slot.1, max slot.2 part)

/-- `allocate`, for one step. -/
def IdAllocator.allocate (modules : ModuleEdits) (out : IdAllocator τ × List (Operation τ α)) (e : Origin τ × PlannedChange α) :
    Except Stop (IdAllocator τ × List (Operation τ α)) := do
  let (a, ops) := out
  let (a, slot) ← match a.slot e.1.source with
    | some slot => pure (a, slot)
    | none => do
      let next ← checkedAdd a.next
      pure ({ a with next }, (a.next, 0))
  let part ← checkedAdd slot.2
  return (a.setSlot e.1.source (slot.1, part), ops ++ [⟨slot.1, slot.2, e.1, e.2, modules⟩])

/-- The operations of the finished plan: the input's own where a step is whole, and the added ones in between. -/
def merged (identities : List (Operation τ α)) : List (Option Nat) → List (Operation τ α) → Except Stop (List (Operation τ α))
  | [], _ => .ok []
  | none :: retained, op :: added => (op :: ·) <$> merged identities retained added
  | none :: _, [] => .error .panicked
  | some i :: retained, added =>
    match identities[i]? with
    | none => .error .identities
    | some op => (op :: ·) <$> merged identities retained added

/-- `with_steps`: the same identities over these steps. -/
def withSteps (operations : List (Operation τ α)) (steps : List (PlannedChange α)) : Except Stop (List (Operation τ α)) :=
  if operations.length ≠ steps.length then .error .panicked
  else .ok ((operations.zip steps).map fun e => { e.1 with step := e.2 })

def identify (expansion : Expansion σ τ α O) (s : σ) (input : PlanningPlan τ α) (st : State τ α) (origins : List (Origin τ)) :
    Except Stop (Option (List (Operation τ α)) × IdAllocator τ) :=
  match input.identities with
  | none => .ok (none, input.allocator)
  | some identities => do
    let allocator ← identities.foldlM IdAllocator.reserve input.allocator
    let retained := st.origins.map fun
      | .whole i => some i
      | _ => none
    let fresh := (retained.zip (origins.zip st.changes)).filterMap fun e => if e.1.isNone then some e.2 else none
    let modules := allocator.modules.getD (input.boundaries.getD .inPlace)
    let (allocator, added) ← fresh.foldlM (IdAllocator.allocate modules) ({ allocator with modules := some modules }, [])
    let operations ← merged identities retained added
    let operations ← withSteps operations st.changes
    match expansion.bindInputs s operations with
    | (.error e, _) => .error (.refused e)
    | (.ok bound, _) => .ok (some bound, allocator)

end Ids

/-- A plan an expansion has finished. -/
structure Expanded (τ α : Type) where
  changes : PlanningPlan τ α
  rewrites : Nat

/-- What follows the loop: the final order, nothing unmet in it, and the plan put together. -/
def finish [DecidableEq τ] (reading : Reading α) (show_ : O → String) (expansion : Expansion σ τ α O) (s : σ)
    (input : PlanningPlan τ α) (st : State τ α) (rewrites : Nat) : Except Stop (Expanded τ α) :=
  let name := expansion.rule
  match expansion.order s st.changes with
  | (.error e, _) => .error (.refused e)
  | (.ok order, s) => do
    let st ← State.settle reading st order
    match expansion.unmet s st.changes with
    | (.error e, _) => .error (.refused e)
    | (.ok (first :: rest), _) =>
      let left := (first :: rest).length
      .error (.refused (s!"{name}: the final order leaves {left} unmet: " ++ list show_ (first :: rest)))
    | (.ok [], s) =>
      match st.origins.mapM (carried input.origins) with
      | none => .error .panicked
      | some origins =>
        if aligned : st.changes.length = origins.length then do
          let (identities, allocator) ← identify expansion s input st origins
          return ⟨{ input with payload := st.changes, origins, aligned, proof := st.proof, identities, allocator }, rewrites⟩
        else .error .panicked

def State.start (plan : PlanningPlan τ α) : State τ α where
  changes := plan.payload
  origins := (List.range plan.payload.length).map .whole
  proof := plan.proof
  creationContexts := plan.inline

/-- `expand`: the rule run until nothing is unmet, with `factor` rewrites per operation the plan asks for; and how many
rewrites were applied. -/
def expand [DecidableEq τ] [BEq O] (reading : Reading α) (show_ : O → String) (expansion : Expansion σ τ α O) (s : σ)
    (plan : PlanningPlan τ α) (factor fuel : Nat) : Nat × Except Stop (Expanded τ α) :=
  match expansion.unmet s plan.payload with
  | (.error e, _) => (0, .error (.refused e))
  | (.ok asks, s) =>
    let logical := plan.payload.map fun p => reading.subject p.change
    match loop reading logical show_ expansion factor (plan.payload.length + asks.length) fuel 0 s (State.start plan) with
    | (applied, .error e) => (applied, .error e)
    | (applied, .ok (st, s)) => (applied, finish reading show_ expansion s plan st applied)

end Driver

end Pbps.Expand
