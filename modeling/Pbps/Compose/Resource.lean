/-
The durable resources of a compose operation (`compose/resources.rs`): the record of what the operation owns, which
records a reader accepts, and the transitions on them as programs of the effects they make on the record, the private
refs and the snapshot directory.
-/
import Pbps.Compose.Inventory
import Pbps.Lib.Interrupt
import Pbps.Model.Text

namespace Pbps.Compose

/-! ## The record -/

inductive ResourceState where
  | capturing
  | sealed
  | confirmed
  | retiring
  | retained
  | spent
  deriving DecidableEq, Repr

structure Pin where
  target : String
  value : String
  owned : Bool
  retired : Bool
  deriving DecidableEq, Repr

/-- The two names a record's pins go by. -/
inductive PinKind where
  | base
  | commit
  deriving DecidableEq, Repr

structure RepositoryIdentity where
  source : String
  common : String
  sourceDevice : Nat
  sourceInode : Nat
  commonDevice : Nat
  commonInode : Nat
  deriving DecidableEq, Repr

/-- `Path::is_absolute`. -/
def isAbsolute (path : String) : Bool := path.toList.head? = some '/'

/-- Whether evidence is of this source; none where it is of another common directory, or of a source that changed. -/
def RepositoryIdentity.sourceScope (self current : RepositoryIdentity) : Option Bool :=
  if self.common ≠ current.common || self.commonDevice ≠ current.commonDevice || self.commonInode ≠ current.commonInode ||
      !isAbsolute self.source then none
  else
    match decide (self.source = current.source),
        self.sourceDevice = current.sourceDevice && self.sourceInode = current.sourceInode with
    | true, true => some true
    | false, false => some false
    | _, _ => none

structure Resource where
  version : Nat
  operation : String
  created : Nat
  repository : RepositoryIdentity
  state : ResourceState
  snapshot : Option Identity
  snapshotRetired : Bool
  binding : Option String
  inventory : Option Inventory
  pins : PinKind → Option Pin
  keepCommit : Bool
  rejected : Bool

def isLowerHex (c : Char) : Bool := isAsciiDigit c || ('a' ≤ c && c ≤ 'f')

def identity (value : String) : Bool := value.length = 64 && value.toList.all isLowerHex

def oid (value : String) : Bool := (value.length = 40 || value.length = 64) && value.toList.all isLowerHex

abbrev Oid := { value : String // oid value = true }

namespace Resource

variable (r : Resource)

def isSealed : Bool :=
  match r.snapshot, r.inventory with
  | some identity, some inventory => identity = inventory.root
  | _, _ => false

def completeBase : Bool := (r.pins .base).any fun pin => pin.owned && !pin.retired

def shape : Bool :=
  let base := r.pins .base
  let commit := r.pins .commit
  match r.state with
  | .capturing =>
    !r.keepCommit && !r.snapshotRetired && r.inventory.isNone && commit.isNone && base.all (fun pin => !pin.retired) &&
      (base.isNone || r.snapshot.isSome)
  | .sealed => !r.keepCommit && !r.snapshotRetired && r.isSealed && r.completeBase && commit.isNone
  | .confirmed =>
    !r.keepCommit && !r.snapshotRetired && r.isSealed && r.completeBase && commit.all fun pin => !pin.retired
  | .retiring =>
    ((r.isSealed && !r.snapshotRetired) || (r.snapshotRetired && r.snapshot.isNone && r.inventory.isNone)) &&
      base.any (fun pin => pin.owned) && commit.all (fun pin => pin.owned) &&
      (!r.keepCommit || commit.any fun pin => !pin.retired) &&
      (r.snapshotRetired || (base.all (fun pin => !pin.retired) && commit.all fun pin => !pin.retired)) &&
      (commit.all (fun pin => !pin.retired) || base.any fun pin => pin.retired)
  | .retained =>
    r.snapshotRetired && r.snapshot.isNone && r.inventory.isNone && r.keepCommit &&
      base.any (fun pin => pin.owned && pin.retired) && commit.any fun pin => pin.owned && !pin.retired
  | .spent =>
    !r.keepCommit && r.snapshotRetired && r.snapshot.isNone && r.inventory.isNone && base.isNone && commit.isNone

def bindingFits : Bool :=
  match r.state with
  | .capturing | .spent => r.binding.isNone
  | .sealed | .confirmed | .retiring | .retained =>
    if r.rejected then r.state = .retiring && r.binding.isNone else r.binding.any identity

def pinsNamed : Bool :=
  [PinKind.base, .commit].all fun kind => (r.pins kind).all fun p => oid p.target && oid p.value

/-- The records a reader in this repository accepts for an operation. -/
def validate (here : RepositoryIdentity) (id : String) : Bool :=
  (r.repository.sourceScope here).isSome && identity id && r.version = 1 && r.operation = id && r.pinsNamed && r.shape &&
    r.bindingFits && !(r.rejected && (r.state ≠ .retiring || r.keepCommit || (r.pins .commit).isSome))

def setPin (kind : PinKind) (pin : Pin) : Resource :=
  { r with pins := fun k => if k = kind then some pin else r.pins k }

end Resource

end Pbps.Compose
