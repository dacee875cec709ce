/-
Loading a project's declaration files (`pbps-load`'s `lib.rs`): each file's text is read by itself, a table's
file with the partitions it declares under it (`convert.rs`), and all of them are collected into one schema
with what was asked of it. How one file's YAML becomes a declaration is the reader the loop is given.
-/
import Pbps.Identity.Intent
import Pbps.Tree.Names

namespace Pbps.Load

open Std (ExtTreeMap ExtTreeSet)
open Identity (Intent)

/-- A declaration file's path, which only names it in diagnostics and orders it. -/
abbrev Path := String

/-! ## Names -/

/-- An object of another database, `database.schema.object`. -/
structure DependencyName where
  database : String
  object : TableName
  deriving DecidableEq, Repr

namespace DependencyName

instance : Ord DependencyName := ⟨compareFields DependencyName.database DependencyName.object⟩

instance : Std.TransOrd DependencyName :=
  inferInstanceAs (Std.TransCmp (compareFields DependencyName.database DependencyName.object))

instance : Std.LawfulEqOrd DependencyName where
  compare_self := compareFields_self _
  eq_of_compare {a b} h := by
    obtain ⟨h1, h2⟩ := compareFields_eq h
    cases a; cases b; simp_all

end DependencyName

/-- What a file declares, by its namespace and its name there. -/
inductive Name where
  | extension (name : ObjectLocalName)
  | dependency (name : DependencyName)
  | type (name : TypeRef)
  | table (name : TableName)
  | module (id : ModuleId)
  | role (name : RoleName)
  deriving DecidableEq

/-! ## One file -/

/-- A partition as its parent's file has it: its bound, what it declares as a table of its own and what on its
parent's columns. -/
structure PartitionDto where
  bound : PartitionBound
  own : Table := {}
  columns : ExtTreeMap ColumnName PartitionColumn := ∅

/-- A table's file, its partitions still under the labels it gives them. -/
structure TableDto (Strategy : Type) where
  name : TableName
  table : Table
  intents : List Intent := []
  strategy : Option Strategy := none
  partitions : List (String × PartitionDto) := []

structure LoadedTable (Strategy : Type) where
  name : TableName
  table : Table
  intents : List Intent
  strategy : Option Strategy
  partitions : List (TableName × Table)

structure LoadedModule where
  id : ModuleId
  module : Module
  dependsOn : ExtTreeSet ModuleId := ∅
  publicExecute : Bool := false

structure LoadedType where
  name : TypeRef
  definition : ManagedType
  renamedFrom : Option TypeRef := none
  valueRenames : ExtTreeMap String String := ∅

structure LoadedRole where
  name : RoleName
  role : Role
  intents : List Intent := []

/-- What one declaration file turned out to hold, its table as `T` has it. -/
inductive FileOf (T Dependency : Type) where
  | extension (name : ObjectLocalName) (definition : Extension)
  | dependency (name : DependencyName) (declaration : Dependency)
  | type (t : LoadedType)
  | table (t : T)
  | module (m : LoadedModule)
  | role (r : LoadedRole)

abbrev FileDto (Strategy Dependency : Type) := FileOf (TableDto Strategy) Dependency

abbrev LoadedFile (Strategy Dependency : Type) := FileOf (LoadedTable Strategy) Dependency

/-- What loading complains of; `E` is all that reading one file's text found wrong. -/
inductive LoadError (E : Type) where
  | file (path : Path) (e : E)
  | partitionName (path : Path) (child : String) (why : NameError)
  | already (path : Path) (name : Name) (first : Path)

/-- The table a partition's label names: a bare one is in its parent's schema. -/
def childName (parent : TableName) (child : String) : Except NameError TableName :=
  if child.toList.contains '.' then TableName.parse child else .ok ⟨parent.schema, child⟩

def PartitionDto.toTable (p : PartitionDto) (parent : TableName) : Table :=
  { p.own with partitionOf := some { parent, bound := p.bound, columns := p.columns } }

variable {Text E Strategy Dependency : Type}

def labelErrors (path : Path) (dto : TableDto Strategy) : List (LoadError E) :=
  dto.partitions.filterMap fun p =>
    match childName dto.name p.1 with
    | .ok _ => none
    | .error why => some (.partitionName path p.1 why)

def namedPartitions (dto : TableDto Strategy) : List (TableName × Table) :=
  dto.partitions.filterMap fun p =>
    match childName dto.name p.1 with
    | .ok name => some (name, p.2.toTable dto.name)
    | .error _ => none

def convert (path : Path) (dto : TableDto Strategy) : Except (List (LoadError E)) (LoadedTable Strategy) :=
  let errs := labelErrors path dto
  if errs.isEmpty then
    .ok { name := dto.name, table := dto.table, intents := dto.intents, strategy := dto.strategy,
          partitions := namedPartitions dto }
  else .error errs

def loadFileStr (read : Text → Except E (FileDto Strategy Dependency)) (path : Path) (text : Text) :
    Except (List (LoadError E)) (LoadedFile Strategy Dependency) :=
  match read text with
  | .error e => .error [.file path e]
  | .ok (.table dto) => (convert path dto).map .table
  | .ok (.extension name definition) => .ok (.extension name definition)
  | .ok (.dependency name declaration) => .ok (.dependency name declaration)
  | .ok (.type t) => .ok (.type t)
  | .ok (.module m) => .ok (.module m)
  | .ok (.role r) => .ok (.role r)

/-! ## All files -/

/-- What the declarations ask beside the schema. -/
structure LoadedHints (Strategy : Type) where
  strategies : ExtTreeMap TableName Strategy := ∅
  moduleDeps : ExtTreeMap ModuleId (ExtTreeSet ModuleId) := ∅
  publicExecute : ExtTreeSet ModuleId := ∅
  enumValueRenames : ExtTreeMap TypeRef (ExtTreeMap String String) := ∅

/-- What was loaded. Of the sources kept for diagnostics the loop reads only an extension's back. -/
structure Loaded (Strategy Dependency : Type) where
  extensionSources : ExtTreeMap ObjectLocalName Path := ∅
  dependencies : ExtTreeMap DependencyName Dependency := ∅
  schema : Schema := {}
  intents : List Intent := []
  hints : LoadedHints Strategy := {}

/-- Where each name was first declared, by namespace: a table and a module may share one, which is the engine's
question and not the loader's. -/
structure Seen where
  tables : ExtTreeMap TableName Path := ∅
  modules : ExtTreeMap ModuleId Path := ∅
  roles : ExtTreeMap RoleName Path := ∅
  types : ExtTreeMap TypeRef Path := ∅
  dependencies : ExtTreeMap DependencyName Path := ∅

/-- The collecting loop's state. -/
structure Collecting (E Strategy Dependency : Type) where
  loaded : Loaded Strategy Dependency := {}
  errs : List (LoadError E) := []
  seen : Seen := {}

namespace Collecting

variable (s : Collecting E Strategy Dependency) (path : Path)

def addDependency (name : DependencyName) (declaration : Dependency) : Collecting E Strategy Dependency :=
  match s.seen.dependencies[name]? with
  | some first => { s with errs := s.errs ++ [.already path (.dependency name) first] }
  | none =>
    { s with
      seen := { s.seen with dependencies := s.seen.dependencies.insert name path }
      loaded := { s.loaded with dependencies := s.loaded.dependencies.insert name declaration } }

def addExtension (name : ObjectLocalName) (definition : Extension) : Collecting E Strategy Dependency :=
  match s.loaded.extensionSources[name]? with
  | some first => { s with errs := s.errs ++ [.already path (.extension name) first] }
  | none =>
    { s with
      loaded := { s.loaded with
        extensionSources := s.loaded.extensionSources.insert name path
        schema := { s.loaded.schema with extensions := s.loaded.schema.extensions.insert name definition } } }

def addType (t : LoadedType) : Collecting E Strategy Dependency :=
  match s.seen.types[t.name]? with
  | some first => { s with errs := s.errs ++ [.already path (.type t.name) first] }
  | none =>
    { s with
      seen := { s.seen with types := s.seen.types.insert t.name path }
      loaded := { s.loaded with
        intents := s.loaded.intents ++ (t.renamedFrom.map fun from_ => Intent.renameType from_ t.name).toList
        hints := { s.loaded.hints with
          enumValueRenames :=
            if t.valueRenames.isEmpty then s.loaded.hints.enumValueRenames
            else s.loaded.hints.enumValueRenames.insert t.name t.valueRenames }
        schema := { s.loaded.schema with types := s.loaded.schema.types.insert t.name t.definition } } }

def takenPartitions (t : LoadedTable Strategy) : List (LoadError E) :=
  t.partitions.filterMap fun p => (s.seen.tables[p.1]?).map fun first => .already path (.table p.1) first

/-- A table and the partitions of its file: their names are looked up before any of them is taken. -/
def addTable (t : LoadedTable Strategy) : Collecting E Strategy Dependency :=
  match s.seen.tables[t.name]? with
  | some first => { s with errs := s.errs ++ [.already path (.table t.name) first] }
  | none =>
    let taken := s.takenPartitions path t
    if !taken.isEmpty then { s with errs := s.errs ++ taken }
    else
      { s with
        seen := { s.seen with
          tables := (t.partitions.foldl (fun m p => m.insert p.1 path) s.seen.tables).insert t.name path }
        loaded := { s.loaded with
          intents := s.loaded.intents ++ t.intents
          hints := { s.loaded.hints with
            strategies :=
              match t.strategy with
              | some strategy => s.loaded.hints.strategies.insert t.name strategy
              | none => s.loaded.hints.strategies }
          schema := { s.loaded.schema with
            tables := t.partitions.foldl (fun m p => m.insert p.1 p.2) (s.loaded.schema.tables.insert t.name t.table) } } }

def addModule (m : LoadedModule) : Collecting E Strategy Dependency :=
  match s.seen.modules[m.id]? with
  | some first => { s with errs := s.errs ++ [.already path (.module m.id) first] }
  | none =>
    { s with
      seen := { s.seen with modules := s.seen.modules.insert m.id path }
      loaded := { s.loaded with
        hints := { s.loaded.hints with
          moduleDeps :=
            if m.dependsOn.isEmpty then s.loaded.hints.moduleDeps else s.loaded.hints.moduleDeps.insert m.id m.dependsOn
          publicExecute :=
            if m.publicExecute then s.loaded.hints.publicExecute.insert m.id else s.loaded.hints.publicExecute }
        schema := { s.loaded.schema with modules := s.loaded.schema.modules.insert m.id m.module } } }

def addRole (r : LoadedRole) : Collecting E Strategy Dependency :=
  match s.seen.roles[r.name]? with
  | some first => { s with errs := s.errs ++ [.already path (.role r.name) first] }
  | none =>
    { s with
      seen := { s.seen with roles := s.seen.roles.insert r.name path }
      loaded := { s.loaded with
        intents := s.loaded.intents ++ r.intents
        schema := { s.loaded.schema with roles := s.loaded.schema.roles.insert r.name r.role } } }

def add : LoadedFile Strategy Dependency → Collecting E Strategy Dependency
  | .dependency name declaration => s.addDependency path name declaration
  | .extension name definition => s.addExtension path name definition
  | .type t => s.addType path t
  | .table t => s.addTable path t
  | .module m => s.addModule path m
  | .role r => s.addRole path r

def step (read : Text → Except E (FileDto Strategy Dependency)) (file : Path × Text) :
    Collecting E Strategy Dependency :=
  match loadFileStr read file.1 file.2 with
  | .ok f => s.add file.1 f
  | .error e => { s with errs := s.errs ++ e }

end Collecting

def collectFiles (read : Text → Except E (FileDto Strategy Dependency)) (files : List (Path × Text)) :
    Except (List (LoadError E)) (Loaded Strategy Dependency) :=
  let s : Collecting E Strategy Dependency := files.foldl (fun s file => s.step read file) {}
  if s.errs.isEmpty then .ok s.loaded else .error s.errs

/-- The declarations of files in memory, in the order of their paths; a path given twice is its last file. -/
def loadSchemaFiles (read : Text → Except E (FileDto Strategy Dependency)) (files : List (Path × Text)) :
    Except (List (LoadError E)) (Loaded Strategy Dependency) :=
  collectFiles read (ExtTreeMap.ofList files).toList

end Pbps.Load
