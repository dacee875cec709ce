/-
One file of the identity tree (`ids_tree.rs`): the object it identifies, the sections of a table's file, and
the rules a file keeps whoever built it (`check`, `check_names`).
-/
import Pbps.Tree.Names

namespace Pbps.Tree

open Std (ExtTreeMap ExtTreeSet)
open Except

/-- Why a name cannot be read back. -/
inductive Why where
  | empty
  | name (e : NameError)
  | type (e : TypeParseError)
  deriving DecidableEq, Repr

/-- What the tree got wrong. -/
inductive TreeError where
  | conflictMarkers (path : String)
  | malformed (path message : String)
  | duplicateKey (path key : String)
  | format (path : String) (found : Nat)
  | kindMismatch (path : String) (uid : Uid)
  | sentinelMissing (path sectionName : String)
  | sentinelNotLast (path sectionName : String)
  | droppedWithLive (path : String)
  | duplicateUid (uid : Uid) (a b : String)
  | misplaced (path sectionName : String) (uid : Uid)
  | badName (path name : String) (why : Why)
  | ids (e : IdsError)
  | noPath (uid : Uid)
  | unknownPath (uid : Uid)
  | pathCollision (path : String) (a b : Uid)
  | unownedTombstone (uid : Uid)
  deriving DecidableEq, Repr

/-- A record that is live, carrying its local name, or retired in place. -/
inductive Rec where
  | live (name : String)
  | dead (tomb : Tombstone)
  deriving DecidableEq, Repr

/-- The sections of a table file, each in file order. -/
structure TableBody where
  table : String
  columns : List (Uid × Rec) := []
  partitions : List (Uid × Rec) := []
  moves : List (Uid × Move) := []
  conversions : List (Uid × Conversion) := []
  rebuilds : List (Uid × Rebuild) := []
  deriving DecidableEq

/-- What a file is about. -/
inductive Body where
  | table (t : TableBody)
  | role (name : String)
  | type (name : String)
  | extension (name : String)
  deriving DecidableEq

def Body.kind : Body → UidKind
  | .table _ => .table
  | .role _ => .role
  | .type _ => .type
  | .extension _ => .extension

/-- One file: the object it identifies, what it holds, and a dropped object's tombstone. -/
structure TreeFile where
  uid : Uid
  body : Body
  dropped : Option Tombstone
  deriving DecidableEq

/-! ## The rules of a file -/

def nonempty (path name : String) : Except TreeError Unit :=
  if name.isEmpty then throw (.badName path name .empty) else pure ()

def readable {ε α : Type} (path name : String) (read : String → Except ε α) (why : ε → Why) : Except TreeError Unit :=
  match read name with
  | .ok _ => pure ()
  | .error e => throw (.badName path name (why e))

/-- A live column's local name: not empty, and without the separator. -/
def checkColumn (path name : String) : Except TreeError Unit := do
  nonempty path name
  if checkSegment name then pure () else throw (.badName path name (.name (.containsSeparator name)))

/-- A record's name, if it is live, or what its tombstone says it was. -/
def checkRec (path : String) (live : String → Except TreeError Unit) : Uid × Rec → Except TreeError Unit
  | (_, .live name) => live name
  | (_, .dead tomb) => nonempty path tomb.was

/-- Every name the file stores reads back through the identity file's own readers. -/
def checkNames (path : String) (file : TreeFile) : Except TreeError Unit := do
  match file.dropped with
  | some tomb => nonempty path tomb.was
  | none => pure ()
  match file.body, file.dropped with
  | .role n, _ | .extension n, _ => nonempty path n
  | .type n, none => readable path n TypeRef.parse .type
  | .type n, some _ => nonempty path n
  | .table t, dropped => do
    match dropped with
    | none => readable path t.table TableName.parse .name
    | some _ => nonempty path t.table
    t.columns.forM (checkRec path (checkColumn path))
    t.partitions.forM (checkRec path fun name => readable path name TableName.parse .name)

def liveUids (records : List (Uid × Rec)) : List Uid :=
  records.filterMap fun
    | (uid, .live _) => some uid
    | (_, .dead _) => none

def refuseFirst {V : Type} (path sectionName : String) (records : List (Uid × V)) (bad : Uid × V → Bool) :
    Except TreeError Unit :=
  match records.find? bad with
  | some e => throw (.misplaced path sectionName e.1)
  | none => pure ()

/-- `check`: what the reader checks of what it read, and the writer of what it is about to write. -/
def check (path : String) (file : TreeFile) : Except TreeError Unit := do
  if file.uid.kind ≠ file.body.kind then throw (.kindMismatch path file.uid)
  checkNames path file
  match file.body with
  | .table t => do
    let columns := liveUids t.columns
    let partitions := liveUids t.partitions
    if file.dropped.isSome && !(columns.isEmpty && partitions.isEmpty && t.moves.isEmpty && t.conversions.isEmpty) then
      throw (.droppedWithLive path)
    refuseFirst path "conversions" t.conversions fun e => !columns.contains e.1
    refuseFirst path "moves" t.moves fun e => e.1 != file.uid && !partitions.contains e.1
    refuseFirst path "rebuilds" t.rebuilds fun e => e.2.replacementRoot != file.uid
  | _ => pure ()

/-! ## The rules as a reader states them -/

def Rec.Named (live : String → Prop) : Rec → Prop
  | .live name => live name
  | .dead tomb => tomb.was ≠ ""

def ColumnNamed (name : String) : Prop := name ≠ "" ∧ checkSegment name = true

def TableNamed (name : String) : Prop := ∃ table, TableName.parse name = .ok table

def TypeNamed (name : String) : Prop := ∃ type, TypeRef.parse name = .ok type

/-- The name that a file is under: what a live object's reader takes, and not empty for a dropped one. -/
def Body.Named (dropped : Bool) : Body → Prop
  | .role n => n ≠ ""
  | .extension n => n ≠ ""
  | .type n => if dropped then n ≠ "" else TypeNamed n
  | .table t => if dropped then t.table ≠ "" else TableNamed t.table

/-- The sections of a table's file between themselves. -/
structure TableBody.Rules (uid : Uid) (dropped : Bool) (t : TableBody) : Prop where
  columns : ∀ e ∈ t.columns, e.2.Named ColumnNamed
  partitions : ∀ e ∈ t.partitions, e.2.Named TableNamed
  dropped : dropped = true → liveUids t.columns = [] ∧ liveUids t.partitions = [] ∧ t.moves = [] ∧ t.conversions = []
  conversions : ∀ e ∈ t.conversions, e.1 ∈ liveUids t.columns
  moves : ∀ e ∈ t.moves, e.1 = uid ∨ e.1 ∈ liveUids t.partitions
  rebuilds : ∀ e ∈ t.rebuilds, e.2.replacementRoot = uid

/-- Everything `check` asks. -/
structure TreeFile.Rules (file : TreeFile) : Prop where
  kind : file.uid.kind = file.body.kind
  tomb : ∀ tomb, file.dropped = some tomb → tomb.was ≠ ""
  name : file.body.Named file.dropped.isSome
  sections : ∀ t, file.body = .table t → t.Rules file.uid file.dropped.isSome

variable {path name : String}

theorem nonempty_eq_ok : nonempty path name = .ok () ↔ name ≠ "" := by
  rw [nonempty, guard_eq_ok, String.isEmpty_iff]

theorem readable_eq_ok {ε α : Type} {read : String → Except ε α} {why : ε → Why} :
    readable path name read why = .ok () ↔ ∃ a, read name = .ok a := by
  rw [readable]
  split
  · next a h => simp [h, pure, Except.pure]
  · next e h => simp [h, throw, throwThe, MonadExceptOf.throw]

theorem checkColumn_eq_ok : checkColumn path name = .ok () ↔ ColumnNamed name := by
  rw [checkColumn, bind_eq_ok, nonempty_eq_ok, require_eq_ok, ColumnNamed]

theorem checkRec_eq_ok {live : String → Except TreeError Unit} {rule : String → Prop} (h : ∀ name, live name = .ok () ↔ rule name)
    (e : Uid × Rec) : checkRec path live e = .ok () ↔ e.2.Named rule := by
  obtain ⟨uid, r⟩ := e
  cases r with
  | live name => exact h name
  | dead tomb => exact nonempty_eq_ok

theorem refuseFirst_eq_ok {V : Type} {sectionName : String} {records : List (Uid × V)} {bad : Uid × V → Bool} :
    refuseFirst path sectionName records bad = .ok () ↔ ∀ e ∈ records, bad e = false := by
  rw [refuseFirst]
  split
  · next e h =>
    have := List.find?_some h
    have hmem := List.mem_of_find?_eq_some h
    simp only [throw, throwThe, MonadExceptOf.throw, reduceCtorEq, false_iff]
    intro hall
    rw [hall e hmem] at this
    cases this
  · next h => simpa [pure, Except.pure, List.find?_eq_none] using h

theorem checkNames_eq_ok {file : TreeFile} : checkNames path file = .ok () ↔
    (∀ tomb, file.dropped = some tomb → tomb.was ≠ "") ∧ file.body.Named file.dropped.isSome ∧
      ∀ t, file.body = .table t → (∀ e ∈ t.columns, e.2.Named ColumnNamed) ∧ ∀ e ∈ t.partitions, e.2.Named TableNamed := by
  obtain ⟨uid, body, dropped⟩ := file
  have hsections : ∀ t : TableBody, (t.columns.forM (checkRec path (checkColumn path)) = .ok () ∧
      t.partitions.forM (checkRec path fun name => readable path name TableName.parse .name) = .ok ()) ↔
      (∀ e ∈ t.columns, e.2.Named ColumnNamed) ∧ ∀ e ∈ t.partitions, e.2.Named TableNamed := by
    intro t
    rw [forM_eq_ok, forM_eq_ok]
    exact and_congr (forall₂_congr fun e _ => checkRec_eq_ok (fun _ => checkColumn_eq_ok) e)
      (forall₂_congr fun e _ => checkRec_eq_ok (fun _ => readable_eq_ok) e)
  cases body with
  | role n => cases dropped <;> simp [checkNames, bind_eq_ok, Body.Named, nonempty_eq_ok]
  | extension n => cases dropped <;> simp [checkNames, bind_eq_ok, Body.Named, nonempty_eq_ok]
  | type n =>
    cases dropped with
    | none => simp [checkNames, Body.Named, readable_eq_ok, TypeNamed]
    | some tomb => simp [checkNames, bind_eq_ok, Body.Named, nonempty_eq_ok]
  | table t =>
    have hbody : ∀ {P : TableBody → Prop}, (∀ t', Body.table t = .table t' → P t') ↔ P t :=
      ⟨fun h => h t rfl, fun h t' ht' => by cases ht'; exact h⟩
    dsimp only
    rw [hbody, ← hsections]
    cases dropped with
    | none =>
      show (readable path t.table TableName.parse .name >>= fun _ => _) = .ok () ↔ _
      rw [bind_eq_ok, readable_eq_ok, bind_eq_ok]
      simp only [reduceCtorEq, false_implies, implies_true, true_and]
      exact .rfl
    | some tomb =>
      show (nonempty path tomb.was >>= fun _ => nonempty path t.table >>= fun _ => _) = .ok () ↔ _
      rw [bind_eq_ok, bind_eq_ok, bind_eq_ok, nonempty_eq_ok, nonempty_eq_ok]
      simp only [Option.some.injEq, forall_eq']
      exact .rfl

/-- The check passes exactly for the files that keep the rules, whatever path it would report. -/
theorem check_eq_ok {file : TreeFile} : check path file = .ok () ↔ file.Rules := by
  obtain ⟨uid, body, dropped⟩ := file
  have hrules : ∀ {t : TableBody}, TreeFile.Rules ⟨uid, .table t, dropped⟩ ↔ uid.kind = .table ∧
      ((∀ tomb, dropped = some tomb → tomb.was ≠ "") ∧ (Body.table t).Named dropped.isSome ∧
        (∀ e ∈ t.columns, e.2.Named ColumnNamed) ∧ ∀ e ∈ t.partitions, e.2.Named TableNamed) ∧
      (dropped.isSome = true → liveUids t.columns = [] ∧ liveUids t.partitions = [] ∧ t.moves = [] ∧ t.conversions = []) ∧
      (∀ e ∈ t.conversions, e.1 ∈ liveUids t.columns) ∧ (∀ e ∈ t.moves, e.1 = uid ∨ e.1 ∈ liveUids t.partitions) ∧
      ∀ e ∈ t.rebuilds, e.2.replacementRoot = uid := by
    intro t
    constructor
    · rintro ⟨h1, h2, h3, h4⟩
      obtain ⟨h5, h6, h7, h8, h9, h10⟩ := h4 t rfl
      exact ⟨h1, ⟨h2, h3, h5, h6⟩, h7, h8, h9, h10⟩
    · rintro ⟨h1, ⟨h2, h3, h5, h6⟩, h7, h8, h9, h10⟩
      refine ⟨h1, h2, h3, fun t' ht' => ?_⟩
      cases ht'
      exact ⟨h5, h6, h7, h8, h9, h10⟩
  have hplain : ∀ {body : Body}, (∀ t, body ≠ .table t) → (TreeFile.Rules ⟨uid, body, dropped⟩ ↔ uid.kind = body.kind ∧
      (∀ tomb, dropped = some tomb → tomb.was ≠ "") ∧ body.Named dropped.isSome ∧
        ∀ t, body = .table t → (∀ e ∈ t.columns, e.2.Named ColumnNamed) ∧ ∀ e ∈ t.partitions, e.2.Named TableNamed) :=
    fun hbody => ⟨fun h => ⟨h.kind, h.tomb, h.name, fun t ht => absurd ht (hbody t)⟩,
      fun h => ⟨h.1, h.2.1, h.2.2.1, fun t ht => absurd ht (hbody t)⟩⟩
  cases body with
  | table t =>
    rw [hrules, check, guard_bind_eq_ok, bind_eq_ok, checkNames_eq_ok, guard_bind_eq_ok,
      bind_eq_ok, bind_eq_ok, refuseFirst_eq_ok, refuseFirst_eq_ok, refuseFirst_eq_ok]
    simp [Body.kind, and_assoc, or_iff_not_imp_left]
  | role n =>
    rw [check, guard_bind_eq_ok, bind_eq_ok, checkNames_eq_ok, hplain (by simp)]
    simp [pure, Except.pure]
  | type n =>
    rw [check, guard_bind_eq_ok, bind_eq_ok, checkNames_eq_ok, hplain (by simp)]
    simp [pure, Except.pure]
  | extension n =>
    rw [check, guard_bind_eq_ok, bind_eq_ok, checkNames_eq_ok, hplain (by simp)]
    simp [pure, Except.pure]

end Pbps.Tree
