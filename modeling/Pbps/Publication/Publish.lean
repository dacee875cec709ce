/-
Publication of declarations: `publish` of `publication.rs` and what it undoes, as it is compiled for a Unix system. The old files
are moved into a backup directory, the staged ones are copied to their destinations, and a failure takes back each effect that
was completed. Every call of the file system may fail without effect.
-/
import Pbps.Lib.FileTree
import Pbps.Model.Escape

namespace Pbps.Publication

open FileTree

/-! ## The system -/

/-- What `set_access` keeps of a file. -/
structure Access where
  mode : Nat
  group : Nat
  deriving DecidableEq, Repr

structure File where
  content : List UInt8
  access : Access
  deriving DecidableEq, Repr

abbrev Files := FileTree.Tree File

/-- What a call fails with that the tree would let through. It says nothing of the tree: a call that answers `NotFound` or
`AlreadyExists` is taken at its word. -/
inductive Fault where
  | permissionDenied
  | storageFull
  | interrupted
  | other
  deriving DecidableEq, Repr

/-- The file system: how long a path it walks, what a new file gets, and which of its calls fail. -/
structure System where
  limit : Nat
  fresh : Access
  faults : Nat → Option Fault

inductive IoError where
  | tree (error : FileTree.Error)
  | fault (fault : Fault)
  deriving DecidableEq, Repr

/-- The tree, how many calls were made, and what `publish` keeps of its completed effects. -/
structure State where
  tree : Files
  calls : Nat := 0
  moved : List (Path × Path) := []
  outputs : List Path := []
  directories : List Path := []
  ownsBackup : Bool := false

def Run (ε α : Type) : Type := State → Except ε α × State

namespace Run

variable {ε ε' α β : Type}

instance : Monad (Run ε) where
  pure a := fun σ => (.ok a, σ)
  bind m f := fun σ =>
    match m σ with
    | (.ok a, σ') => f a σ'
    | (.error e, σ') => (.error e, σ')

def fail (e : ε) : Run ε α := fun σ => (.error e, σ)

def modify (f : State → State) : Run ε Unit := fun σ => (.ok (), f σ)

def outcome (m : Run ε α) : Run ε' (Except ε α) := fun σ => (.ok (m σ).1, (m σ).2)

def mapError (f : ε → ε') (m : Run ε α) : Run ε' α := fun σ => ((m σ).1.mapError f, (m σ).2)

end Run

section Calls

variable (sys : System)

def call {α : Type} (op : Files → Except FileTree.Error (α × Files)) : Run IoError α := fun σ =>
  match sys.faults σ.calls with
  | some fault => (.error (.fault fault), { σ with calls := σ.calls + 1 })
  | none =>
    match op σ.tree with
    | .ok (a, t) => (.ok a, { σ with calls := σ.calls + 1, tree := t })
    | .error e => (.error (.tree e), { σ with calls := σ.calls + 1 })

variable (path : Path)

/-- `fs::symlink_metadata`. -/
def symlinkMetadata : Run IoError (Entry File) := call sys fun t => (lookup sys.limit t path).map (·, t)

/-- `fs::metadata`. -/
def metadata : Run IoError (Entry File) := call sys fun t => (stat sys.limit t path).map fun r => (r.2, t)

/-- `fs::create_dir`. -/
def createDir : Run IoError Unit := call sys fun t => (create sys.limit t path .directory).map fun r => ((), r.2)

/-- `File::open`: the place of what is opened. -/
def openFile : Run IoError Location := call sys fun t => (stat sys.limit t path).map fun r => (r.1, t)

/-- `File::create_new`. -/
def createNew : Run IoError Location := call sys fun t => create sys.limit t path (.file ⟨[], sys.fresh⟩)

/-- `fs::rename`. -/
def renamePath (path' : Path) : Run IoError Unit := call sys fun t => (rename sys.limit t path path').map ((), ·)

/-- `fs::remove_file`. -/
def removePath : Run IoError Unit := call sys fun t => (removeFile sys.limit t path).map ((), ·)

/-- `fs::remove_dir`. -/
def removeDirectory : Run IoError Unit := call sys fun t => (removeDir sys.limit t path).map ((), ·)

def changeFile (t : Files) (place : Location) (change : File → File) : Files :=
  match t[place]? with
  | some (.file f) => t.insert place (.file (change f))
  | _ => t

def withoutSetId (mode : Nat) : Nat := mode &&& 0o1777

/-- `fchown`, of the group. -/
def changeGroup (place : Location) (group : Nat) : Run IoError Unit := call sys fun t =>
  .ok ((), changeFile t place fun f => { f with access := ⟨withoutSetId f.access.mode, group⟩ })

/-- `File::set_permissions`. -/
def setPermissions (place : Location) (mode : Nat) : Run IoError Unit := call sys fun t =>
  .ok ((), changeFile t place fun f => { f with access := { f.access with mode } })

def accessOf : Entry File → Access
  | .file f => f.access
  | _ => sys.fresh

/-- `File::metadata`. -/
def openMetadata (place : Location) : Run IoError Access := call sys fun t =>
  .ok (((t[place]?).map (accessOf sys)).getD sys.fresh, t)

/-- `io::copy`. -/
def copyContent (input output : Location) : Run IoError Unit := call sys fun t =>
  match t[input]? with
  | some (.file f) =>
    .ok ((), changeFile t output fun o => ⟨f.content, { o.access with mode := withoutSetId o.access.mode }⟩)
  | some _ => .error .isADirectory
  | none => .error .notFound

end Calls

/-! ## Messages -/

def shownPath (path : Path) : String :=
  Escape.escaped ("/" ++ String.intercalate "/" (path.map fun | .name s => s | .up => ".."))

/-- What was being done. -/
inductive Context where
  | inspectBackup (backup : Path)
  | backupExists (backup : Path)
  | inspect (path : Path)
  | declarationDirectory (dir : Path)
  | createBackup (backup : Path)
  | save (path : Path)
  | outputParent (parent : Path)
  | read (source : Path)
  | create (path : Path)
  | access (path : Path)
  | write (path : Path)
  deriving DecidableEq, Repr

def Context.text : Context → String
  | .inspectBackup backup => s!"cannot inspect publication backup `{shownPath backup}`"
  | .backupExists backup =>
    s!"publication backup `{shownPath backup}` already exists; inspect and restore or archive it before retrying"
  | .inspect path => s!"cannot inspect `{shownPath path}`"
  | .declarationDirectory dir =>
    s!"cannot create declaration directory `{shownPath dir}`; repair its parent path before retrying"
  | .createBackup backup => s!"cannot create publication backup `{shownPath backup}`"
  | .save path => s!"cannot save old declaration `{shownPath path}`"
  | .outputParent parent => s!"cannot create output parent `{shownPath parent}`; repair the directory or link before retrying"
  | .read source => s!"cannot read staged declaration `{shownPath source}`"
  | .create path =>
    s!"cannot create declaration `{shownPath path}`; move any existing file, directory or link before retrying"
  | .access path => s!"cannot keep the mode or group of `{shownPath path}`; restore access to its group and permissions, " ++
    "or deliberately adjust the original file before retrying"
  | .write path => s!"cannot write declaration `{shownPath path}`"

/-- Why a publication failed. -/
structure Problem where
  context : Option Context
  error : Option IoError
  deriving DecidableEq, Repr

/-- What could not be taken back. -/
inductive Failure where
  | removeOutput (path : Path) (error : IoError)
  | restore (path saved : Path) (error : IoError)
  | removeBackup (backup : Path) (error : IoError)
  | removeDirectory (path : Path) (error : IoError)
  deriving DecidableEq, Repr

def Failure.text (said : IoError → String) : Failure → String
  | .removeOutput path e => s!"cannot remove new declaration `{shownPath path}`: {said e}"
  | .restore path saved e => s!"cannot restore `{shownPath path}` from `{shownPath saved}`: {said e}"
  | .removeBackup backup e => s!"cannot remove backup `{shownPath backup}`: {said e}"
  | .removeDirectory path e => s!"cannot remove new directory `{shownPath path}`: {said e}"

/-- How `publish` ends: done, with what kept the backup from going, or failed. -/
inductive Outcome where
  | published (note : Option IoError)
  | unchanged (problem : Problem)
  | incomplete (problem : Problem) (failures : List Failure)
  deriving DecidableEq, Repr

def Outcome.text (said : IoError → String) (backup : Path) : Outcome → Option String
  | .published none => none
  | .published (some e) => some (s!"declarations were published, but backup `{shownPath backup}` could not be deleted: {said e}; " ++
    "inspect and remove the leftover before retrying")
  | .unchanged _ => some "the project is unchanged"
  | .incomplete _ failures => some ("restoration incomplete:\n" ++ String.intercalate "\n" (failures.map (·.text said)) ++
    s!"\nInspect remaining backups at `{shownPath backup}` before retrying")

/-! ## Publishing -/

section Publish

variable (sys : System)

def BACKUP : String := ".pbps-publication-backup"

def backupOf (dir : Path) : Path := dir ++ [.name BACKUP]

def savedName (index : Nat) : String := toString index ++ ".bak"

def savedAs (dir : Path) (index : Nat) : Path := backupOf dir ++ [.name (savedName index)]

/-- `with_context`. -/
def Run.context {α : Type} (c : Context) (m : Run IoError α) : Run Problem α := m.mapError fun e => ⟨some c, some e⟩

/-- `create_directories` of a path, and what it does first where the parent is missing. -/
def createDirectory (path : Path) (above : Run IoError Unit) : Run IoError Unit := do
  match ← (createDir sys path).outcome with
  | .ok () => Run.modify fun σ => { σ with directories := σ.directories ++ [path] }
  | .error (.tree .notFound) => do
    above
    createDir sys path
    Run.modify fun σ => { σ with directories := σ.directories ++ [path] }
  | .error (.tree .alreadyExists) => do
    match ← metadata sys path with
    | .directory => pure ()
    | _ => Run.fail (.tree .notADirectory)
  | .error e => Run.fail e

/-- `create_directories`, of a path read from its end. -/
def createDirectoriesUp : Path → Run IoError Unit
  | [] => createDirectory sys [] (pure ())
  | step :: above => createDirectory sys (step :: above).reverse (createDirectoriesUp above)

def createDirectories (path : Path) : Run IoError Unit := createDirectoriesUp sys path.reverse

def inspectBackup (backup : Path) : Run Problem Unit := do
  match ← (symlinkMetadata sys backup).outcome with
  | .error (.tree .notFound) => pure ()
  | .error e => Run.fail ⟨some (.inspectBackup backup), some e⟩
  | .ok _ => Run.fail ⟨some (.backupExists backup), none⟩

/-- What a destination tells of access to it, before anything moves. -/
def inspectDestination (path : Path) : Run Problem (Option Access) := do
  match ← (metadata sys path).outcome with
  | .ok e => pure (some (accessOf sys e))
  | .error (.tree .notFound) => pure none
  | .error e => Run.fail ⟨some (.inspect path), some e⟩

def saveOld (dir : Path) (e : Path × Nat) : Run Problem Unit := do
  let (path, index) := e
  (renamePath sys path (savedAs dir index)).context (.save path)
  Run.modify fun σ => { σ with moved := σ.moved ++ [(path, savedAs dir index)] }

def setAccess (output : Location) (access : Access) (preserveGroup : Bool) : Run IoError Unit := do
  if preserveGroup then changeGroup sys output access.group
  setPermissions sys output access.mode

def createParent (path : Path) : Run Problem Unit :=
  if path = [] then pure ()
  else (createDirectories sys path.dropLast).context (.outputParent path.dropLast)

/-- What the access of an output comes from: the old file, or the staged one. -/
def accessFor (metadata : Option Access) (input : Location) : Run Problem Access :=
  match metadata with
  | some access => pure access
  | none => (openMetadata sys input).mapError fun e => ⟨none, some e⟩

def copyOne (e : (Path × Path) × Option Access) : Run Problem Unit := do
  let ((source, path), metadata) := e
  createParent sys path
  let input ← (openFile sys source).context (.read source)
  let output ← (createNew sys path).context (.create path)
  Run.modify fun σ => { σ with outputs := σ.outputs ++ [path] }
  let access ← accessFor sys metadata input
  (setAccess sys output access metadata.isSome).context (.access path)
  (copyContent sys input output).context (.write path)
  (setAccess sys output access false).context (.access path)

def createBackup (dir : Path) : Run Problem Unit := do
  (createDirectories sys dir).context (.declarationDirectory dir)
  (createDir sys (backupOf dir)).context (.createBackup (backupOf dir))
  Run.modify fun σ => { σ with ownsBackup := true }

/-- What `publish` does up to the commit point. -/
def publishing (dir : Path) (present : List Path) (copies : List (Path × Path)) : Run Problem Unit := do
  inspectBackup sys (backupOf dir)
  let metadata ← copies.mapM fun c => inspectDestination sys c.2
  createBackup sys dir
  present.zipIdx.forM (saveOld sys dir)
  (copies.zip metadata).forM (copyOne sys)

/-! ## Taking back -/

def removeBackup (backup : Path) : Run IoError Unit := call sys fun t => (removeDirAll sys.limit t backup).map ((), ·)

/-- A loop over what is to be taken back. It goes on past a failure. -/
def takeBack {A : Type} (undo : A → Run IoError Unit) (failure : A → IoError → Option Failure) :
    List A → State → List Failure × State
  | [], σ => ([], σ)
  | a :: rest, σ =>
    let (result, σ) := undo a σ
    let (failures, σ) := takeBack undo failure rest σ
    match result with
    | .ok () => (failures, σ)
    | .error e => ((failure a e).toList ++ failures, σ)

/-- The outputs that were created are removed. One that is not there is no failure. -/
def removeOutputs : List Path → State → List Failure × State :=
  takeBack (removePath sys) fun path e => if e = .tree .notFound then none else some (.removeOutput path e)

def undoMove (moved : Path × Path) : Run IoError Unit := do
  match ← (symlinkMetadata sys moved.1).outcome with
  | .error (.tree .notFound) => renamePath sys moved.2 moved.1
  | .error e => Run.fail e
  | .ok _ => Run.fail (.tree .alreadyExists)

def restoreMoved : List (Path × Path) → State → List Failure × State :=
  takeBack (undoMove sys) fun moved e => some (.restore moved.1 moved.2 e)

def removeDirectories : List Path → State → List Failure × State :=
  takeBack (removeDirectory sys) fun path e => some (.removeDirectory path e)

def dropBackup (backup : Path) (owns : Bool) (failures : List Failure) (σ : State) : List Failure × State :=
  if owns && failures.isEmpty then
    match removeBackup sys backup σ with
    | (.ok (), σ) => ([], σ)
    | (.error e, σ) => ([.removeBackup backup e], σ)
  else ([], σ)

def restore (backup : Path) (σ : State) : List Failure × State :=
  let (outputs, directories, moved, owns) := (σ.outputs, σ.directories, σ.moved, σ.ownsBackup)
  let (failures, σ) := removeOutputs sys outputs.reverse σ
  let (failures', σ) := restoreMoved sys moved.reverse σ
  let (failures'', σ) := dropBackup sys backup owns (failures ++ failures') σ
  let (failures₄, σ) := removeDirectories sys directories.reverse σ
  (failures ++ failures' ++ failures'' ++ failures₄, σ)

def publish (dir : Path) (present : List Path) (copies : List (Path × Path)) (tree : Files) : Outcome × Files :=
  match publishing sys dir present copies { tree } with
  | (.error problem, σ) =>
    let (failures, σ) := restore sys (backupOf dir) σ
    (if failures.isEmpty then .unchanged problem else .incomplete problem failures, σ.tree)
  | (.ok (), σ) =>
    match removeBackup sys (backupOf dir) σ with
    | (.ok (), σ) => (.published none, σ.tree)
    | (.error e, σ) => (.published (some e), σ.tree)

end Publish

/-! ## How the parts of a publication end -/

namespace Run

variable {ε ε' α β : Type} {σ : State}

/-- Where a part is done its condition holds, and where it fails the other. -/
def Ends (m : Run ε α) (σ : State) (post : α → State → Prop) (failed : State → Prop) : Prop :=
  match m σ with
  | (.ok a, σ') => post a σ'
  | (.error _, σ') => failed σ'

variable {post post' : α → State → Prop} {failed failed' : State → Prop}

variable {m : Run ε α} {f : α → Run ε β}

theorem Ends.mono (h : m.Ends σ post failed) (hpost : ∀ a σ', post a σ' → post' a σ') (hfailed : ∀ σ', failed σ' → failed' σ') :
    m.Ends σ post' failed' := by
  unfold Ends at h ⊢
  split
  · next heq =>
    rw [heq] at h
    exact hpost _ _ h
  · next heq =>
    rw [heq] at h
    exact hfailed _ h

theorem Ends.bind {post : β → State → Prop} (h : m.Ends σ (fun a σ' => (f a).Ends σ' post failed) failed) :
    (m >>= f).Ends σ post failed := by
  unfold Ends at h
  show match (match m σ with
    | (.ok a, σ') => f a σ'
    | (.error e, σ') => (.error e, σ')) with
    | (.ok a, σ') => post a σ'
    | (.error _, σ') => failed σ'
  rcases heq : m σ with ⟨e | a, σ'⟩ <;> rw [heq] at h
  · exact h
  · exact h

theorem Ends.seq {post' : β → State → Prop} (h : m.Ends σ post failed) (hf : ∀ a σ', post a σ' → (f a).Ends σ' post' failed) :
    (m >>= f).Ends σ post' failed :=
  .bind (h.mono hf fun _ h => h)

theorem Ends.outcome {post : Except ε α → State → Prop} (h : post (m σ).1 (m σ).2) :
    (m.outcome : Run ε' (Except ε α)).Ends σ post failed := h

theorem Ends.mapError {f : ε → ε'} (h : m.Ends σ post failed) : (m.mapError f).Ends σ post failed := by
  unfold Ends at h ⊢
  unfold Run.mapError
  rcases heq : m σ with ⟨e | a, σ'⟩ <;> rw [heq] at h
  · exact h
  · exact h

theorem Ends.context {m : Run IoError α} {c : Context} (h : m.Ends σ post failed) : (m.context c).Ends σ post failed := h.mapError

theorem id_map (m : Run ε α) : id <$> m = m := by
  funext σ
  show (match m σ with
    | (.ok a, σ') => (.ok a, σ')
    | (.error e, σ') => (.error e, σ')) = m σ
  rcases m σ with ⟨e | a, σ'⟩ <;> rfl

theorem bind_assoc {γ : Type} (m : Run ε α) (f : α → Run ε β) (g : β → Run ε γ) : m >>= f >>= g = m >>= fun a => f a >>= g := by
  funext σ
  show (match (match m σ with
      | (.ok a, σ') => f a σ'
      | (.error e, σ') => (.error e, σ')) with
    | (.ok b, σ') => g b σ'
    | (.error e, σ') => (.error e, σ')) = match m σ with
    | (.ok a, σ') => (f a >>= g) σ'
    | (.error e, σ') => (.error e, σ')
  rcases m σ with ⟨e | a, σ'⟩ <;> rfl

instance : LawfulMonad (Run ε) := .mk' (Run ε) id_map (fun _ _ => rfl) bind_assoc

end Run

/-! ## Calls -/

section Calls

variable {sys : System} {α : Type} {σ : State}

/-- A call fails by itself, does what the tree lets it do, or fails as the tree has it. -/
theorem call_cases (sys : System) (op : Files → Except FileTree.Error (α × Files)) (σ : State) :
    (∃ f, call sys op σ = (.error (.fault f), { σ with calls := σ.calls + 1 })) ∨
    (∃ a t, op σ.tree = .ok (a, t) ∧ call sys op σ = (.ok a, { σ with calls := σ.calls + 1, tree := t })) ∨
    ∃ e, op σ.tree = .error e ∧ call sys op σ = (.error (.tree e), { σ with calls := σ.calls + 1 }) := by
  unfold call
  split
  · next f _ => exact .inl ⟨f, rfl⟩
  · rcases hop : op σ.tree with e | ⟨a, t⟩
    · exact .inr (.inr ⟨e, rfl, rfl⟩)
    · exact .inr (.inl ⟨a, t, rfl, rfl⟩)

theorem call_ends {op : Files → Except FileTree.Error (α × Files)} {post : α → State → Prop} {failed : State → Prop}
    (hpost : ∀ a t, op σ.tree = .ok (a, t) → post a { σ with calls := σ.calls + 1, tree := t })
    (hfailed : failed { σ with calls := σ.calls + 1 }) : (call sys op).Ends σ post failed := by
  unfold Run.Ends
  rcases call_cases sys op σ with ⟨f, h⟩ | ⟨a, t, hop, h⟩ | ⟨e, _, h⟩ <;> rw [h]
  · exact hfailed
  · exact hpost a t hop
  · exact hfailed

end Calls

end Pbps.Publication
