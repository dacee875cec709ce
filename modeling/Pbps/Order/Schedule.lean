/-
Settling a plan's order from its constraints: `order/schedule.rs`, with the ordering proof of
`resolver/ordering.rs` that a settled plan carries. Steps are positions in the order the schedule was built
over. A guess gives way where it closes a cycle, and a component made only of annotations keeps the order
given.
-/
import Pbps.Lib.Kahn
import Pbps.Lib.Tarjan.Components
import Pbps.Model.Name

namespace Pbps.Order

open Std (ExtTreeMap ExtTreeSet)

/-- Where an edge came from. -/
inductive Source where
  | effect
  | declared
  | annotation
  | inferred
  | lexical
  | catalog
  | binding
  | execution
  | search
  | guess
  deriving DecidableEq, Repr

/-- Why, in the sealed vocabulary. -/
inductive OrderReason where
  | structural
  | binding
  | identity
  | data
  | authorization
  | restoration
  deriving DecidableEq, Repr

/-- One edge of a schedule: `before` runs before `after`. -/
structure Constraint where
  before : Nat
  after : Nat
  source : Source
  reason : OrderReason
  deriving DecidableEq, Repr

namespace Constraint

def orderKey (c : Constraint) : List Nat := [c.before, c.after, c.source.ctorIdx, c.reason.ctorIdx]

instance : Ord Constraint := ⟨compareFields (fun c => c.before) orderKey⟩

instance : Std.TransOrd Constraint :=
  inferInstanceAs (Std.TransCmp (compareFields _ _))

instance : Std.LawfulEqOrd Constraint where
  compare_self := compareFields_self _
  eq_of_compare {a b} h := by
    obtain ⟨-, h2⟩ := compareFields_eq h
    obtain ⟨b1, a1, s1, r1⟩ := a
    obtain ⟨b2, a2, s2, r2⟩ := b
    simp only [orderKey, List.cons.injEq, and_true] at h2
    obtain ⟨rfl, rfl, hs, hr⟩ := h2
    have hs : s1 = s2 := by
      revert hs
      cases s1 <;> cases s2 <;> simp [Source.ctorIdx]
    have hr : r1 = r2 := by
      revert hr
      cases r1 <;> cases r2 <;> simp [OrderReason.ctorIdx]
    rw [hs, hr]

end Constraint

/-- An order a caller keeps: one that would reverse it is refused. -/
structure Keep where
  before : Nat
  after : Nat
  refusal : String
  deriving DecidableEq, Repr

/-- A requirement no step of the plan meets. -/
structure Obligation where
  operation : Nat
  refusal : String
  deriving DecidableEq, Repr

/-- Why a schedule has no order. -/
inductive Refusal where
  | outside (before after steps : Nat)
  | mismatch (steps changes : Nat)
  | unmet (obligations : List Obligation)
  | kept (keep : Keep)
  | cycle (members : List Nat) (edges : List Constraint) (waiting : List Nat) (remedy : Option String)
  deriving DecidableEq, Repr

/-- A guess given up, with the component it lay in. -/
structure DroppedGuess where
  edge : Constraint
  members : List Nat
  backwardOnly : Bool
  deriving DecidableEq, Repr

/-- Which of two ready steps goes first: the lowest position first, or, from the end, the highest last. -/
inductive Tie where
  | sink
  | hoist
  deriving DecidableEq, Repr

structure Schedule where
  steps : Nat
  tie : Tie := .sink
  constraints : ExtTreeSet Constraint := ∅
  keeps : List Keep := []
  obligations : List Obligation := []
  symbolicConstraints : ExtTreeSet Constraint := ∅
  creationContexts : ExtTreeMap Nat String := ∅

/-! ## The two graph searches -/

def popFirst (ready : ExtTreeSet Nat) : Option Nat := ready.toList.head?

def popLast (ready : ExtTreeSet Nat) : Option Nat := ready.toList.getLast?

variable (n : Nat) (groups : List (List Nat)) (kept : List Constraint)

/-- `kahn`: the steps that can be placed, in order. -/
def kahn (constraints : List Constraint) : Tie → List Nat
  | .sink => Kahn.run popFirst n (constraints.map fun c => (c.before, c.after))
  | .hoist => (Kahn.run popLast n (constraints.map fun c => (c.after, c.before))).reverse

def outgoing (constraints : List Constraint) (v : Nat) : List Nat :=
  (((constraints.filter fun c => c.before = v).map Constraint.after).insertionSort (· ≤ ·)).dedup

/-- `components`: the strongly connected components of the edges. -/
def components (n : Nat) (constraints : List Constraint) : List (List Nat) :=
  Tarjan.components n (outgoing constraints)

/-! ## Guesses -/

/-- The place of the component of two or more steps that a step is in. -/
def componentOf (v : Nat) : Option Nat :=
  groups.findIdx? fun members => 1 < members.length && members.contains v

/-- Whether an edge is kept when the guesses inside a component are dropped. -/
def keepsGuess (backwardOnly : Bool) (c : Constraint) : Bool :=
  c.source ≠ .guess || componentOf groups c.before = none || componentOf groups c.before ≠ componentOf groups c.after ||
    (backwardOnly && c.before < c.after)

/-- `drop_guesses`: the edges kept, and the guesses dropped. -/
def dropGuesses (backwardOnly : Bool) : List Constraint × List DroppedGuess :=
  let groups := components n kept
  (kept.filter (keepsGuess groups backwardOnly),
    (kept.filter fun c => !keepsGuess groups backwardOnly c).map fun c =>
      ⟨c, ((componentOf groups c.before).bind (groups[·]?)).getD [], backwardOnly⟩)

/-- A round of settling: the edges kept so far, what can be placed under them and the guesses dropped. -/
structure Round where
  kept : List Constraint
  emitted : List Nat
  dropped : List DroppedGuess

def Round.giveUp (tie : Tie) (backwardOnly : Bool) (r : Round) : Round :=
  if r.emitted.length < n then
    let (kept, dropped) := dropGuesses n r.kept backwardOnly
    { kept := kept
      emitted := if kept.length ≠ r.kept.length then kahn n kept tie else r.emitted
      dropped := r.dropped ++ dropped }
  else r

/-- The guesses that run against the order given go first, and the others only if that is not enough. -/
def rounds (tie : Tie) (constraints : List Constraint) : Round :=
  (Round.giveUp n tie true ⟨constraints, kahn n constraints tie, []⟩).giveUp n tie false

/-! ## Components of annotations -/

def edgesInside (members : List Nat) : List Constraint :=
  kept.filter fun c => members.contains c.before && members.contains c.after

def declaredOnly : List (List Nat) :=
  (components n kept).filter fun members =>
    2 ≤ members.length && (edgesInside kept members).all fun c => c.source = .declared

def chain (members : List Nat) : List Constraint :=
  (members.zip members.tail).map fun (a, b) => ⟨a, b, .declared, .structural⟩

def ends (v : Nat) : Option (Nat × Nat) :=
  groups.findSome? fun members => if members.contains v then some (members.headD 0, members.getLastD 0) else none

/-- An edge that reaches a component holds its first member, and one that leaves it leaves from its last. -/
def redirect (c : Constraint) : Constraint :=
  { c with
    before := (ends groups c.before).elim c.before Prod.snd
    after := (ends groups c.after).elim c.after Prod.fst }

/-- The pairs of steps the annotations of such components are between. -/
def annotatedPairs : List (Nat × Nat) :=
  groups.flatMap fun members => (edgesInside kept members).map fun c => (c.before, c.after)

def setAside : List Constraint :=
  kept.filter fun c => !(annotatedPairs groups kept).contains (c.before, c.after)

def ordering : List Constraint :=
  (setAside groups kept).map (redirect groups) ++ groups.flatMap chain

def Round.chained (tie : Tie) (r : Round) : Round :=
  let groups := declaredOnly n r.kept
  if r.emitted.length < n ∧ annotatedPairs groups r.kept ≠ [] then
    { r with kept := setAside groups r.kept, emitted := kahn n (ordering groups r.kept) tie }
  else r

/-! ## Settling -/

def position (emitted : List Nat) (v : Nat) : Option Nat := emitted.idxOf? v

/-- Whether both steps of a kept order were placed, the later one first. -/
def reverses (emitted : List Nat) (k : Keep) : Bool :=
  match position emitted k.before, position emitted k.after with
  | some b, some a => a < b
  | _, _ => false

/-- The kept order reversed first: by where its earlier step landed, then by the order stated. -/
def firstReversed (emitted : List Nat) (keeps : List Keep) : Option Keep :=
  (keeps.filter (reverses emitted)).foldl (fun first k =>
    match first with
    | none => some k
    | some f => if (position emitted k.before).getD 0 < (position emitted f.before).getD 0 then some k else some f) none

def least (groups : List (List Nat)) : Option (List Nat) :=
  groups.foldl (fun least members =>
    match least with
    | none => some members
    | some l => if members < l then some members else some l) none

/-- What a plan that changes columns and partitions at once is told. -/
def membershipRemedy : String := "change the columns and the partitions in separate plans"

namespace Schedule

variable (s : Schedule)

def remedy (members : List Nat) (edges : List Constraint) : Option String :=
  let context := ExtTreeSet.ofList ((if edges.any s.symbolicConstraints.contains then [membershipRemedy] else []) ++
    members.filterMap (s.creationContexts[·]?))
  if context.isEmpty then none else some ("; ".intercalate context.toList)

/-- The refusal of a cycle, which names one component of what is left. -/
def cycleRefusal (r : Round) : Refusal :=
  let waiting := (List.range s.steps).filter fun i => !r.emitted.contains i
  let left := r.kept.filter fun c => !r.emitted.contains c.before && !r.emitted.contains c.after
  let members := (least ((components s.steps left).filter fun members => 1 < members.length)).getD []
  let edges := edgesInside left members
  .cycle members edges waiting (s.remedy members edges)

def outsideEdge : Option Constraint :=
  s.constraints.toList.find? fun c => s.steps ≤ c.before || s.steps ≤ c.after || c.before = c.after

def outsideKeep : Option Keep := s.keeps.find? fun k => s.steps ≤ k.before || s.steps ≤ k.after

def settledRound : Round := (rounds s.steps s.tie s.constraints.toList).chained s.steps s.tie

/-- `settled_trace`: the guesses dropped, and the order with the edges it kept. -/
def settledTrace : List DroppedGuess × Except Refusal (List Nat × List Constraint) :=
  match s.outsideEdge with
  | some c => ([], .error (.outside c.before c.after s.steps))
  | none =>
    match s.outsideKeep with
    | some k => ([], .error (.outside k.before k.after s.steps))
    | none =>
      if s.obligations ≠ [] then ([], .error (.unmet s.obligations))
      else
        let r := s.settledRound
        match firstReversed r.emitted s.keeps with
        | some keep => (r.dropped, .error (.kept keep))
        | none =>
          if r.emitted.length < s.steps then (r.dropped, .error (s.cycleRefusal r))
          else (r.dropped, .ok (r.emitted, r.kept))

/-- `sequence`: the order of the steps, as the positions they came from. -/
def sequence : Except Refusal (List Nat) := s.settledTrace.2.map Prod.fst

end Schedule

/-! ## The ordering proof -/

structure OrderEdge where
  before : Nat
  after : Nat
  reason : OrderReason
  deriving DecidableEq, Repr

inductive OrderError where
  | version
  | changed
  | edge
  deriving DecidableEq, Repr

/-- The edges a plan's order satisfies, over its own positions, and the checksum of what it orders. -/
structure OrderingProof where
  version : Nat
  changes : String
  edges : List OrderEdge

section Proof

variable {α : Type} (checksum : List α → String)

/-- `OrderingProof::validate`. -/
def OrderingProof.validate (p : OrderingProof) (changes : List α) : Except OrderError Unit :=
  if p.version ≠ 1 then .error .version
  else if p.changes ≠ checksum changes then .error .changed
  else if p.edges.any fun e => e.after ≤ e.before || changes.length ≤ e.after then .error .edge
  else .ok ()

/-- `OrderingProof::new`. -/
def OrderingProof.new (changes : List α) (edges : List OrderEdge) : Except OrderError OrderingProof := do
  let p : OrderingProof := ⟨1, checksum changes, edges⟩
  p.validate checksum changes
  .ok p

/-- What settling a plan can end in beside a plan: a refusal, or an expectation that does not hold. -/
inductive Failure where
  | refused (refusal : Refusal)
  | notAPermutation
  | badProof (error : OrderError)

structure DraftSettled (α : Type) where
  changes : List α
  proof : OrderingProof
  sequence : List Nat

def takeAll : List (Option α) → List Nat → Option (List α)
  | _, [] => some []
  | taken, i :: sequence =>
    match taken[i]? with
    | some (some change) => (change :: ·) <$> takeAll (taken.set i none) sequence
    | _ => none

/-- `settle_scratch`: the changes in their order, with its proof. -/
def Schedule.settleScratch (s : Schedule) (changes : List α) : Except Failure (DraftSettled α) :=
  if changes.length ≠ s.steps then .error (.refused (.mismatch s.steps changes.length))
  else
    match s.settledTrace.2 with
    | .error refusal => .error (.refused refusal)
    | .ok (sequence, kept) =>
      match takeAll (changes.map some) sequence with
      | none => .error .notAPermutation
      | some ordered =>
        let edges := kept.map fun c =>
          ⟨(position sequence c.before).getD 0, (position sequence c.after).getD 0, c.reason⟩
        match OrderingProof.new checksum ordered edges with
        | .error e => .error (.badProof e)
        | .ok proof => .ok ⟨ordered, proof, sequence⟩

/-- What a plan's annotations add to its schedule. -/
structure Annotations where
  edges : Except String (List Constraint) := .ok []
  contexts : ExtTreeMap Nat String := ∅
  /-- Whether inferred edges are guesses. -/
  extended : Bool := false

def qualified (extended : Bool) (c : Constraint) : Constraint :=
  if extended && c.source = .inferred then { c with source := .guess } else c

def Schedule.annotated (s : Schedule) (a : Annotations) (edges : List Constraint) : Schedule :=
  { s with
    constraints := .ofList ((s.constraints.insertMany edges).toList.map (qualified a.extended))
    creationContexts := s.creationContexts.insertMany a.contexts.toList }

/-- `settle`. -/
def Schedule.settle (s : Schedule) (a : Annotations) (changes : List α) : Except Failure (DraftSettled α) :=
  match a.edges with
  | .error refusal => .error (.refused (.unmet [⟨0, refusal⟩]))
  | .ok edges => (s.annotated a edges).settleScratch checksum changes

end Proof

end Pbps.Order
