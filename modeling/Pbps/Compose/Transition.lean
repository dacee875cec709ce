/-
The transitions of a compose operation's resources, as programs. A step that only looks, flushes or copies is a `check`;
what is left are the effects on the operation's record, refs and snapshot. A step that fails ends the transition, as
stopping it there does.
-/
import Pbps.Compose.Resource

namespace Pbps.Compose

/-- What a ref is seen to be. -/
inductive RefEvidence where
  | absent
  | direct (value : String)
  | symbolic
  | unreadable
  deriving DecidableEq, Repr

inductive Effect where
  /-- A step that changes nothing of the operation's own. -/
  | check
  /-- Whether the records' directory has acknowledged names only. -/
  | names
  | read
  | clock
  /-- A record's new text, beside the record until it is renamed. -/
  | create
  | rename (r : Resource)
  /-- A record that is not written, since a reader would not accept it. -/
  | refuse (r : Resource)
  /-- The snapshot directory, where there is none yet. -/
  | createSnapshot
  | openSnapshot
  /-- What the acquisition writes in the snapshot directory. -/
  | write
  /-- What is in the snapshot directory. -/
  | capture
  /-- What is under a name in it. -/
  | inspect (name : String)
  | manifest
  /-- The name of the tag that is to be a pin's value. -/
  | hash (kind : PinKind) (target : String)
  | observe (kind : PinKind)
  | createRef (kind : PinKind) (value : String)
  | deleteRef (kind : PinKind) (value : String)
  /-- `unlinkat` of a name in the snapshot directory, with `REMOVEDIR` or without. -/
  | unlink (name : String) (directory : Bool)
  /-- The snapshot directory, where it is empty. -/
  | removeSnapshot
  | removeRecord

abbrev Answer : Effect → Type
  | .names => Bool
  | .read => Option Resource
  | .clock => Nat
  | .createSnapshot | .openSnapshot => Option Identity
  | .capture => Contents
  | .inspect _ => Option File
  | .manifest => List UInt8
  | .hash .. => Oid
  | .observe _ => RefEvidence
  | .createRef .. | .deleteRef .. | .unlink .. | .removeSnapshot => Bool
  | .check | .create | .rename _ | .refuse _ | .write | .removeRecord => Unit

abbrev Transition := Prog Effect Answer

def perform (e : Effect) : Transition (Answer e) := .eff e

def check : Transition Unit := perform .check

def required (step : Transition Bool) : Transition Unit := do
  if ← step then return else .fail

def limit : Nat := 64 * 1024 * 1024

/-- The store of one repository, and SHA-256 as it is written. -/
structure Resources where
  repository : RepositoryIdentity
  /-- The source's path is canonical. -/
  absolute : isAbsolute repository.source = true
  digest : List UInt8 → String
  digest_identity : ∀ bytes, identity (digest bytes) = true

/-- A snapshot as it was before a candidate was checked. -/
structure Checkpoint where
  operation : String
  inventory : Inventory

namespace Resources

variable (store : Resources)

def locked {α : Type} (operation : Transition α) : Transition α := do
  check
  let result ← operation
  check
  return result

def read (id : String) : Transition Resource := do
  check
  if !(← perform .names) then .fail
  else if !identity id then .fail
  else
    match ← perform .read with
    | none => .fail
    | some r => if r.validate store.repository id then return r else .fail

variable (r : Resource) (id : String) (keepCommit : Bool)

def load : Transition Resource := do
  let r ← store.read id
  if r.repository.sourceScope store.repository = some true then return r else .fail

def save : Transition Unit := do
  check
  if !r.validate store.repository r.operation then
    perform (.refuse r)
    .fail
  else if r.repository.sourceScope store.repository ≠ some true then .fail
  else
    -- The text has its own limit, and is flushed before it takes the record's name.
    check
    perform .create
    check
    perform (.rename r)
    check

/-- A private ref that keeps a commit, recorded before it is made and acknowledged after. -/
def pin (kind : PinKind) (target : String) : Transition Unit := do
  let value ← perform (.hash kind target)
  let r := r.setPin kind { target, value, owned := false, retired := false }
  store.save r
  check
  required (perform (.createRef kind value))
  check
  store.save (r.setPin kind { target, value, owned := true, retired := false })

def begin (base : String) : Transition Unit := locked do
  -- Every record there is can be read, and every private ref has one.
  check
  if !(← perform .names) then .fail
  else if !identity id || !oid base then .fail
  else
    match ← perform .read with
    | some _ => .fail
    | none =>
      let r : Resource := {
        version := 1, operation := id, created := ← perform .clock, repository := store.repository, state := .capturing
        snapshot := none, snapshotRetired := false, binding := none, inventory := none, pins := fun _ => none
        keepCommit := false, rejected := false }
      store.save r
      match ← perform .createSnapshot with
      | none => .fail
      | some directory =>
        let r := { r with snapshot := some directory }
        store.save r
        store.pin r .base base

def verifyPin (kind : PinKind) : Transition Unit :=
  match r.pins kind with
  | none => .ret ()
  | some pin =>
    if pin.retired then .ret ()
    else if !pin.owned then .fail
    else do
      if (← perform (.observe kind)) ≠ .direct pin.value then .fail
      else check

def verifyPins : Transition Unit := do
  verifyPin r .base
  verifyPin r .commit

def ownSnapshot : Transition Identity := do
  match ← perform .openSnapshot with
  | none => .fail
  | some snapshot => if r.snapshot = some snapshot then return snapshot else .fail

/-- `Inventory::capture`. -/
def capture (root : Identity) : Transition Inventory := do
  match Inventory.of root (← perform .capture) with
  | none => .fail
  | some inventory => return inventory

/-- `seal`, which is a word of Lean. -/
def sealRecord (binding : List UInt8) : Transition Unit := locked do
  let r ← store.load id
  if r.state ≠ .capturing then .fail
  else
    verifyPins r
    let snapshot ← ownSnapshot r
    -- The ref of the candidate's tree.
    perform .write
    if binding.length > limit then .fail
    else
      -- The manifest.
      perform .write
      let inventory ← capture snapshot
      store.save { r with binding := some (store.digest binding), inventory := some inventory, state := .sealed }

def beforeCheck (known : List String) : Transition Checkpoint := locked do
  let r ← store.load id
  if r.state ≠ .capturing then .fail
  else
    verifyPins r
    let snapshot ← ownSnapshot r
    let inventory ← capture snapshot
    if inventory.entries.keys.any (fun name => !known.contains name) then .fail
    else return { operation := id, inventory }

/-- An acquisition's writes in its snapshot, which it makes before it is sealed. -/
def acquire : Transition Unit := do
  let r ← store.load id
  if r.state = .capturing then perform .write else .fail

/-- Retirement begins where it has not begun, and goes on only as it was begun. -/
def enterRetiring : Transition Resource :=
  if r.state ≠ .retiring then
    if r.state ≠ .sealed && r.state ≠ .confirmed && r.state ≠ .retained then .fail
    else do
      verifyPins r
      let r := { r with state := .retiring, keepCommit }
      store.save r
      return r
  else if r.keepCommit ≠ keepCommit then .fail
  else .ret r

/-- One entry, in the directory it is in; one that is gone was removed before. -/
def removeEntry (name : String) (expected : Entry) : Transition Unit := do
  match ← perform (.inspect name) with
  | none => check
  | some file =>
    if !expected.isOf file then .fail
    else
      required (perform (.unlink name expected.directory))
      check

/-- A turn of the loop of `Inventory::retire`: the directory the entry is in has to be the one that was acknowledged. -/
def retireEntry (inventory : Inventory) (name : String) (expected : Entry) : Transition Unit :=
  if !relative name then .fail
  else do
    check
    if parentName name = "" then removeEntry name expected
    else
      match ← perform (.inspect (parentName name)) with
      | none => return
      | some directory =>
        match inventory.entries[parentName name]? with
        | none => .fail
        | some parent =>
          if !parent.directory || !parent.isOf directory then .fail else removeEntry name expected

def retireEntries (inventory : Inventory) : List (String × Entry) → Transition Unit
  | [] => .ret ()
  | (name, expected) :: entries => do
    retireEntry inventory name expected
    retireEntries inventory entries

/-- `Inventory::retire`. -/
def retireInventory (inventory : Inventory) : Transition Unit := do
  match ← perform .openSnapshot with
  | none => check
  | some root =>
    if root ≠ inventory.root then .fail
    else
      retireEntries inventory inventory.deepestFirst
      check
      required (perform .removeSnapshot)
      check

def retireSnapshot : Transition Resource :=
  if r.snapshotRetired then .ret r
  else
    match r.inventory with
    | none => .fail
    | some inventory => do
      retireInventory inventory
      let r := { r with snapshotRetired := true, snapshot := none, inventory := none }
      store.save r
      return r

def retirePin (kind : PinKind) (keepCommit : Bool) : Transition Resource :=
  match r.pins kind with
  | none => .ret r
  | some pin =>
    if pin.retired || (kind = .commit && keepCommit) then .ret r
    else if !pin.owned then .fail
    else do
      check
      match ← perform (.observe kind) with
      | .absent => check
      | .direct value => if value = pin.value then required (perform (.deleteRef kind value)) else .fail
      | .symbolic | .unreadable => .fail
      check
      let r := r.setPin kind { pin with retired := true }
      store.save r
      return r

def finishRetirement : Transition Unit :=
  -- No handle of a rejected candidate was given out, so there is none to revoke.
  if r.rejected then perform .removeRecord
  else if keepCommit then store.save { r with state := .retained }
  else
    store.save { r with state := .spent, snapshot := none, inventory := none, pins := fun _ => none, binding := none }

def retireLocked : Transition Unit := do
  let r ← store.load id
  if r.state = .spent || (keepCommit && r.state = .retained) then return
  let r ← store.enterRetiring r keepCommit
  let r ← store.retireSnapshot r
  let r ← store.retirePin r .base keepCommit
  let r ← store.retirePin r .commit keepCommit
  store.finishRetirement r keepCommit

def retire : Transition Unit := locked (store.retireLocked id keepCommit)

def reject (checkpoint : Checkpoint) : Transition Unit := locked do
  let r ← store.load checkpoint.operation
  if r.state ≠ .capturing || r.snapshot ≠ some checkpoint.inventory.root then .fail
  else
    verifyPins r
    store.save { r with inventory := some checkpoint.inventory, rejected := true, state := .retiring }
    store.retireLocked r.operation false

def confirm : Transition Unit := locked do
  let r ← store.load id
  if r.state = .retained then verifyPins r
  else if r.state ≠ .sealed && r.state ≠ .confirmed then .fail
  else
    verifyPins r
    store.save { r with state := .confirmed }

def knownCommit (commit : String) : Transition Unit := locked do
  let r ← store.load id
  if r.state ≠ .confirmed || (r.pins .commit).isSome then .fail
  -- The object's durability is established by its name.
  else if !oid commit then .fail
  else
    check
    store.pin r .commit commit

/-- The source's check before a publication: it returns where the resources authorize it. -/
def admitPublication (binding base : String) (commit : Option String) : Transition Unit := locked do
  let r ← store.load id
  if r.state ≠ .confirmed && r.state ≠ .retained then .fail
  else
    verifyPins r
    if r.binding ≠ some binding || !(r.pins .base).any (fun pin => pin.target = base) then .fail
    else
      if !r.snapshotRetired then
        let _ ← ownSnapshot r
        let bytes ← perform .manifest
        if store.digest bytes ≠ binding then .fail
      if commit.all fun commit =>
          (r.pins .commit).any fun pin => pin.target = commit && pin.owned && !pin.retired then return
      else .fail

def discardPreview : Transition Unit := locked do
  if (← store.load id).state ≠ .sealed then .fail
  else store.retireLocked id false

/-- `u64::checked_add`. -/
def checkedAdd (a b : Nat) : Option Nat := if a + b < 2 ^ 64 then some (a + b) else none

def expire (now : Nat) : Transition Unit := locked do
  let r ← store.load id
  if r.state = .sealed && (checkedAdd r.created (24 * 60 * 60)).any (fun expiry => expiry ≤ now) then
    store.retireLocked id false

def reportResource : Transition ResourceState := do
  if r.state = .retained then verifyPins r
  return r.state

def report : Transition ResourceState := do
  reportResource (← store.load id)

def resumeRetirement : Transition ResourceState := do
  let r ← store.load id
  if r.state = .retiring then
    store.retire id r.keepCommit
    if r.rejected then return .spent
  store.report id

end Resources

end Pbps.Compose
