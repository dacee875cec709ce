/-
What identity resolution is given and what it answers: the intents a human states, the situations
only a human can decide, and the identity-level facts of one run. From `pbps-model`'s `intent.rs`
and the head of `pbps-diff`'s `identity.rs`.
-/
import Pbps.Model.Ids

namespace Pbps.Identity

open Std (ExtTreeMap ExtTreeSet)

/-- What the declarations cannot say about an identity. -/
inductive Intent where
  | renameType (from_ to_ : TypeRef)
  | dropType (name : TypeRef) (reason : Reason)
  | renameTable (from_ to_ : TableName)
  | renameColumn (table : TableName) (from_ to_ : ColumnName)
  | dropTable (table : TableName) (reason : Reason)
  | dropColumn (column : ColumnRef) (reason : Reason)
  | renameRole (from_ to_ : RoleName)
  | dropRole (role : RoleName) (reason : Reason)
  | dropExtension (name : ObjectLocalName) (reason : Reason)
  | moveRows (table : TableName) (maxRows : Nat) (reason : Reason)
  deriving DecidableEq, Repr

def Intent.isRename : Intent → Bool
  | .renameType .. | .renameTable .. | .renameColumn .. | .renameRole .. => true
  | _ => false

/-- The half of a rename that two intents fought over. -/
inductive RenameSide where
  | source
  | target
  deriving DecidableEq, Repr

/-- A situation that cannot be decided automatically and needs a human. -/
inductive Blocker where
  | ambiguousTypes (disappeared appeared : List TypeRef)
  | dropTypeNeedsReason (name : TypeRef)
  | dropExtensionNeedsReason (name : ObjectLocalName)
  | provisionalTableIdentity (from_ to_ : TableName) (blocker : Blocker)
  | ambiguousColumns (table : TableName) (disappeared appeared : List ColumnName)
  | ambiguousTables (disappeared appeared : List TableName)
  | dropColumnNeedsReason (column : ColumnRef)
  | dropTableNeedsReason (table : TableName)
  | ambiguousRoles (disappeared appeared : List RoleName)
  | dropRoleNeedsReason (role : RoleName)
  | unusedIntent (intent : Intent)
  | conflictingRenameIntents (side : RenameSide) (name : String) (intents : List Intent)
  | renameTargetExists (target : String)
  | unrepresentableName (what part : String) (table : Option TableName)
  | moveNotBesideDefault (table : TableName)
  | missingType (name : TypeRef) (unrepresentable : Option String)
  deriving DecidableEq, Repr

/-- What a tombstone needs that no file holds. -/
structure Context where
  operator : String
  today : String
  deriving DecidableEq, Repr

/-- A tombstone written now, for an object last called `was`. -/
def Context.tombstone (ctx : Context) (was : String) (reason : Reason) : Tombstone :=
  { was, droppedAt := ctx.today, reason, operator := ctx.operator }

/-- The identity-level facts of one run: the file with its changes applied, and what changed. -/
structure Resolution where
  ids : IdsFile := {}
  createdTables : List (Uid × TableName) := []
  droppedTables : List (Uid × TableName) := []
  renamedTables : List (Uid × TableName × TableName) := []
  addedColumns : List (Uid × ColumnRef) := []
  droppedColumns : List (Uid × ColumnRef) := []
  renamedColumns : List (Uid × ColumnRef × ColumnRef) := []
  createdTypes : List (Uid × TypeRef) := []
  droppedTypes : List (Uid × TypeRef) := []
  renamedTypes : List (Uid × TypeRef × TypeRef) := []
  createdRoles : List (Uid × RoleName) := []
  droppedRoles : List (Uid × RoleName) := []
  droppedExtensions : List (Uid × ObjectLocalName) := []
  renamedRoles : List (Uid × RoleName × RoleName) := []
  deriving DecidableEq

/-- `fresh_uid`: a generator of uids. The source draws at random and draws again while the current
mapping holds the uid, so all that is known of one is its kind and that the mapping lacks it. -/
structure UidSource where
  fresh : IdsFile → UidKind → Uid
  kind_fresh : ∀ (ids : IdsFile) (kind : UidKind), (fresh ids kind).kind = kind
  fresh_not_contained : ∀ (ids : IdsFile) (kind : UidKind), ids.containsUid (fresh ids kind) = false

/-- An identity the source of fresh ones can hand out. -/
def UidSource.Draws (src : UidSource) (u : Uid) : Prop := ∃ ids kind, src.fresh ids kind = u

end Pbps.Identity
