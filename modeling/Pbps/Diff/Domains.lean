/-
Declared types of a plan: domains rebuilt under their uid (`domain_rebuild.rs`), domains changed in
place (`DomainDelta` of `managed_type.rs`), and types created, dropped and renamed
(`diff_partial_rebuilding` of `schema_diff.rs`).
-/
import Mathlib.Logic.Function.Iterate
import Pbps.Diff.Labels

namespace Pbps.Diff

open Std (ExtTreeMap ExtTreeSet)

/-! ## A domain changed in place -/

/-- What changes between two domains without a rebuild. -/
structure DomainDelta where
  dropChecks : List ObjectLocalName
  addChecks : List (ObjectLocalName × String)
  dropNotNull : Bool
  setNotNull : Bool
  default : Option (Option String)

namespace DomainDelta

/-- `DomainDelta::of`: nothing unless both are domains. -/
def of : ManagedType → ManagedType → Option DomainDelta
  | .domain _ wasNotNull wasDefault wasChecks _, .domain _ notNull default checks _ => some
    { dropChecks := (wasChecks.toList.filter fun e => checks[e.1]? ≠ some e.2).map Prod.fst
      addChecks := checks.toList.filter fun e => wasChecks[e.1]? ≠ some e.2
      dropNotNull := wasNotNull && !notNull
      setNotNull := !wasNotNull && notNull
      default := if wasDefault ≠ default then some default else none }
  | _, _ => none

def loosens (d : DomainDelta) : Bool := !d.dropChecks.isEmpty || d.dropNotNull || d.default.isSome

def tightens (d : DomainDelta) : Bool := !d.addChecks.isEmpty || d.setNotNull

def applyTo (d : DomainDelta) (current : ManagedType) (half : DomainHalf) : Option ManagedType :=
  match current with
  | .domain base notNull default checks collation =>
    match half with
    | .loosen => some (.domain base (if d.dropNotNull then false else notNull) (d.default.getD default)
        (d.dropChecks.foldl .erase checks) collation)
    | .tighten => some (.domain base (if d.setNotNull then true else notNull) default
        (d.addChecks.foldl (fun m e => m.insert e.1 e.2) checks) collation)
  | .enum _ => none

end DomainDelta

def domainBase : ManagedType → Option ColumnType
  | .domain base _ _ _ _ => some base
  | .enum _ => none

def withDomainBase (f : ColumnType → ColumnType) : ManagedType → ManagedType
  | .domain base notNull default checks collation => .domain (f base) notNull default checks collation
  | .enum values => .enum values

/-! ## Domains rebuilt -/

/-- Why a domain is rebuilt. -/
inductive Why where
  | base
  | collation
  | derived (on : TypeRef)
  | array
  deriving DecidableEq

def Why.shown : Why → String
  | .base => "its base type changed"
  | .collation => "its collation changed"
  | .derived on => "it is built on " ++ on.raw ++ ", which is rebuilt"
  | .array => "a check or NOT NULL is added while an array of it is a column"

/-- A rebuilt type: its replacement, and what its columns undergo. -/
structure Replaced where
  tmp : TypeRef
  removed : List String
  ordinal : Nat
  depth : Nat
  values : ValueChange

/-- A domain both sides hold, the old one over the types as the plan leaves them named. -/
structure RetainedDomain where
  uid : Uid
  name : TypeRef
  old : ManagedType
  new : ManagedType

section Domains

variable (dialect : Dialect) (base desired : Side)

def rebuiltEnums (steps : List Change) : ExtTreeMap Uid Replaced :=
  steps.foldl (fun out change =>
    match change with
    | .enumRebuild uid _ tmp (.create _ removed ordinal _ _) => out.insert uid ⟨tmp, removed, ordinal, 0, .relabel removed⟩
    | _ => out) ∅

def labelOperations (steps : List Change) : ExtTreeMap Uid Nat :=
  steps.foldl (fun out change =>
    match change with
    | .addEnumValue uid _ _ _ ordinal _ | .renameEnumValue uid _ _ _ ordinal _ _ =>
      out.insert uid (max (out.getD uid 0) (ordinal + 1))
    | _ => out) ∅

/-- A domain of the declarations, where the base holds a domain of its uid. -/
def retainedDomain (uid : Uid) (name : TypeRef) : Option RetainedDomain :=
  match desired.schema.types[name]?, (base.ids.types[uid]?).bind (base.schema.types[·]?) with
  | some (.domain ty notNull default checks collation), some (.domain wasTy wasNotNull wasDefault wasChecks wasCollation) =>
    some ⟨uid, name, .domain (TypeResolver.remap ⟨base.ids, desired.ids⟩ wasTy .base .desired) wasNotNull wasDefault wasChecks
      wasCollation, .domain ty notNull default checks collation⟩
  | _, _ => none

def retainedDomains : List RetainedDomain :=
  desired.ids.types.toList.filterMap fun (uid, name) => retainedDomain base desired uid name

/-- The label operations a domain is created after: those of the enum it is built on. -/
def labelsBefore (operations : ExtTreeMap Uid Nat) : Nat → ManagedType → Nat
  | 0, _ => 0
  | fuel + 1, at_ =>
    match ((domainBase at_).bind ColumnType.user).bind desired.ids.typeUid with
    | none => 0
    | some uid =>
      match operations[uid]? with
      | some n => n
      | none =>
        match (desired.ids.types[uid]?).bind (desired.schema.types[·]?) with
        | none => 0
        | some next => labelsBefore operations fuel next

/-- Whether the engine converts one base into the other by its own assignment cast. -/
def basesConvertible (from_ to_ : ColumnType) : Bool :=
  from_.user.isNone && to_.user.isNone && from_.array == to_.array &&
    dialect.valueChangeConverts (.cast from_.element to_.element (if to_.array then 1 else 0) none)

def ownReason (hints : Hints) (d : RetainedDomain) : Option Why × Option TypeProblem :=
  match d.old, d.new with
  | .domain oldBase _ _ _ oldCollation, .domain newBase _ _ _ newCollation =>
    let from_ := dialect.norm oldBase
    let to_ := dialect.norm newBase
    let (why, problem) : Option Why × Option TypeProblem :=
      if from_ ≠ to_ then
        if basesConvertible dialect from_ to_ then (some .base, none) else (none, some (.baseNotConvertible from_ to_))
      else if oldCollation ≠ newCollation then (some .collation, none)
      else (none, none)
    let array := hints.domainArrayHolders.contains d.uid && (DomainDelta.of d.old d.new).any DomainDelta.tightens
    (why.or (if array then some .array else none), problem)
  | _, _ => (none, none)

def builtOn (d : RetainedDomain) : Option (TypeRef × Uid) :=
  ((domainBase d.new).bind ColumnType.user).bind fun reference =>
    (desired.ids.typeUid reference).map fun uid => (reference, uid)

/-- One pass over the domains: those built on a rebuilt type are rebuilt. -/
def derivedPass (rebuilt : ExtTreeMap Uid Replaced) (domains : List RetainedDomain) (why : ExtTreeMap Uid Why) :
    ExtTreeMap Uid Why :=
  domains.foldl (fun (why : ExtTreeMap Uid Why) d =>
    match (why[d.uid]? : Option Why) with
    | some .base | some .collation | some (.derived _) => why
    | _ =>
      match builtOn desired d with
      | none => why
      | some (reference, on) =>
        if rebuilt.contains on || why.contains on then why.insert d.uid (.derived reference) else why) why

/-- The domains rebuilt, with why. A growing pass gives one more domain its reason, so there are at
most as many as domains. -/
def rebuildReasons (hints : Hints) (rebuilt : ExtTreeMap Uid Replaced) (domains : List RetainedDomain) :
    ExtTreeMap Uid Why :=
  let own : ExtTreeMap Uid Why := .ofList (domains.filterMap fun d => (ownReason dialect hints d).1.map fun w => (d.uid, w))
  Nat.iterate (derivedPass desired rebuilt domains) (domains.length + 1) own

def castType (ty : ColumnType) : ColumnType :=
  match (valuesShape ⟨base.ids, desired.ids⟩ .desired ty desired.schema).leaf with
  | .builtin b => dialect.norm b
  | .enum uid => ((desired.ids.types[uid]?).map ColumnType.reference).getD ty
  | .other => (dialect.norm ty).element

/-- What the columns of a domain undergo whose base is not rebuilt itself. -/
def ownValues (d : RetainedDomain) : ValueChange :=
  match domainBase d.old, domainBase d.new with
  | some from_, some to_ =>
    .cast (castType dialect base desired from_) (castType dialect base desired to_)
      (valuesShape ⟨base.ids, desired.ids⟩ .desired to_ desired.schema).arrays none
  | _, _ => .relabel []

/-- Where the ordering of the rebuilds stands. -/
structure DomainRun where
  changes : List Change := []
  errors : List DiffError := []
  rebuilt : ExtTreeMap Uid Replaced
  failed : List Uid := []
  waiting : List RetainedDomain := []

/-- One domain: rebuilt once the type it is built on is, or left for the next pass. -/
def rebuildDomain (hints : Hints) (operations : ExtTreeMap Uid Nat) (why : ExtTreeMap Uid Why) (run : DomainRun)
    (d : RetainedDomain) : DomainRun :=
  let on := (builtOn desired d).map Prod.snd
  let under := on.bind (run.rebuilt[·]?)
  if under.isNone && on.any run.failed.contains then { run with failed := d.uid :: run.failed }
  else if under.isNone && on.any why.contains then { run with waiting := run.waiting ++ [d] }
  else
    let r : Replacement :=
      { definition := d.new
        removed := (under.map Replaced.removed).getD []
        overType := under.map Replaced.tmp
        why := (why[d.uid]?).map Why.shown
        values := (under.map Replaced.values).getD (ownValues dialect base desired d)
        ordinal := (under.map fun u => u.ordinal + 1).getD (labelsBefore desired operations (desired.ids.types.size + 1) d.new)
        depth := (under.map fun u => u.depth + 1).getD 1 }
    match rebuildType base desired hints d.uid d.name r with
    | .ok steps =>
      { run with
        changes := run.changes ++ steps
        rebuilt := run.rebuilt.insert d.uid
          ⟨replacementName base desired d.uid d.name, r.removed, r.ordinal, r.depth, r.values⟩ }
    | .error problem =>
      { run with
        failed := d.uid :: run.failed
        errors := run.errors ++ [.typeLifecycleUnsupported d.name problem] }

/-- The passes over the domains still to rebuild, the deeper ones after those they are built on. -/
def rebuildDomains (hints : Hints) (operations : ExtTreeMap Uid Nat) (why : ExtTreeMap Uid Why) :
    Nat → List RetainedDomain → DomainRun → DomainRun
  | 0, pending, run => { run with waiting := pending }
  | fuel + 1, pending, run =>
    let run := pending.foldl (rebuildDomain dialect base desired hints operations why) { run with waiting := [] }
    rebuildDomains hints operations why fuel run.waiting run

def createdOverRebuilt (rebuilt : ExtTreeMap Uid Replaced) (why : ExtTreeMap Uid Why) (uid : Uid) (name : TypeRef) :
    Option DiffError :=
  if (retainedDomain base desired uid name).isSome then none
  else
    (((desired.schema.types[name]?).bind domainBase).bind ColumnType.user).bind fun reference =>
      (desired.ids.typeUid reference).bind fun on =>
        if rebuilt.contains on || why.contains on then
          some (.typeLifecycleUnsupported name (.createdOverRebuilt reference))
        else none

/-- `domain_rebuild::plan`: the steps, and the domains rebuilt with why. -/
def rebuiltDomains (hints : Hints) (steps : List Change) : Out × ExtTreeMap Uid Why :=
  let rebuilt := rebuiltEnums steps
  let domains := retainedDomains base desired
  let why := rebuildReasons dialect desired hints rebuilt domains
  let pending := domains.filter fun d => why.contains d.uid
  let run := rebuildDomains dialect base desired hints (labelOperations steps) why (why.size + 1) pending { rebuilt }
  ({ changes := run.changes
     errs :=
      (domains.filterMap fun d =>
        (ownReason dialect hints d).2.map fun p => DiffError.typeLifecycleUnsupported d.name p) ++
      (desired.ids.types.toList.filterMap fun (uid, name) => createdOverRebuilt base desired rebuilt why uid name) ++
      run.errors ++ run.waiting.map fun d => .typeLifecycleUnsupported d.name .baseNotOrdered }, why)

/-! ## Types created, dropped and renamed -/

def alterDomain (uid : Uid) (name : TypeRef) (from_ to_ : ManagedType) : Out :=
  match DomainDelta.of from_ to_ with
  | none => {}
  | some delta =>
    .changeIf delta.loosens (.alterDomain uid name from_ to_ .loosen) ++
      .changeIf delta.tightens (.alterDomain uid name from_ to_ .tighten)

def renamedDefinition (old comparable new : ManagedType) (alters : Bool) : ManagedType :=
  match old with
  | .enum values => .enum values
  | .domain _ _ _ _ _ => if alters then comparable else new

def diffType (rebuilt : ExtTreeMap Uid Why) (uid : Uid) (oldName : TypeRef) (old : ManagedType) : Out :=
  match (desired.ids.types[uid]?).bind fun name => (desired.schema.types[name]?).map fun ty => (name, ty) with
  | none => .change (.dropType uid oldName old)
  | some (name, new) =>
    let comparable := withDomainBase (fun ty => TypeResolver.remap ⟨base.ids, desired.ids⟩ ty .base .desired) old
    let alters := !rebuilt.contains uid && (domainBase comparable).isSome && (domainBase new).isSome
    (if (domainBase comparable).isSome ≠ (domainBase new).isSome then .err (.typeLifecycleUnsupported name .kindChanged)
      else {}) ++
    (if alters then alterDomain uid name comparable new else {}) ++
      .changeIf (oldName ≠ name) (.renameType uid oldName name (renamedDefinition old comparable new alters))

def diffTypes (rebuilt : ExtTreeMap Uid Why) : Out :=
  .forEach base.ids.types.toList (fun (uid, oldName) =>
    ((base.schema.types[oldName]?).map (diffType base desired rebuilt uid oldName)).getD {}) ++
  .forEach desired.ids.types.toList fun (uid, name) =>
    if ((base.ids.types[uid]?).bind (base.schema.types[·]?)).isSome then {}
    else ((desired.schema.types[name]?).map fun definition => Out.change (.createType uid name definition)).getD {}

end Domains

end Pbps.Diff
