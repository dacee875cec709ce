/-
What loading keeps: every declaration of every file, under its own name, whatever the files' paths and order. Names are
checked between files and never inside one, where a partition can take its parent's name or its sibling's.
-/
import Mathlib.Data.List.Perm.Subperm
import Pbps.Lib.Map
import Pbps.Load.Collect

namespace Pbps.Load

open Std (ExtTreeMap ExtTreeSet)
open List
open Std.ExtTreeMap (ext_getElem?)
open Option (eq_none_iff_forall_ne_some)

variable {Text E Strategy Dependency : Type}

/-! ## What a file declares and asks -/

/-- A declaration with its name. -/
inductive Declaration (Dependency : Type) where
  | extension (name : ObjectLocalName) (definition : Extension)
  | dependency (name : DependencyName) (declaration : Dependency)
  | type (name : TypeRef) (definition : ManagedType)
  | table (name : TableName) (table : Table)
  | module (id : ModuleId) (module : Module)
  | role (name : RoleName) (role : Role)

def Declaration.name : Declaration Dependency → Name
  | .extension name _ => .extension name
  | .dependency name _ => .dependency name
  | .type name _ => .type name
  | .table name _ => .table name
  | .module id _ => .module id
  | .role name _ => .role name

/-- What a file asks beside its declarations. -/
inductive Hint (Strategy : Type) where
  | strategy (table : TableName) (strategy : Strategy)
  | moduleDeps (id : ModuleId) (dependsOn : ExtTreeSet ModuleId)
  | publicExecute (id : ModuleId)
  | valueRenames (type : TypeRef) (renames : ExtTreeMap String String)

def Hint.name : Hint Strategy → Name
  | .strategy table _ => .table table
  | .moduleDeps id _ => .module id
  | .publicExecute id => .module id
  | .valueRenames type _ => .type type

namespace FileOf

def declarations : LoadedFile Strategy Dependency → List (Declaration Dependency)
  | .extension name definition => [.extension name definition]
  | .dependency name declaration => [.dependency name declaration]
  | .type t => [.type t.name t.definition]
  | .table t => .table t.name t.table :: t.partitions.map fun p => .table p.1 p.2
  | .module m => [.module m.id m.module]
  | .role r => [.role r.name r.role]

def hints : LoadedFile Strategy Dependency → List (Hint Strategy)
  | .table t => (t.strategy.map fun s => Hint.strategy t.name s).toList
  | .module m =>
    (if m.dependsOn.isEmpty then [] else [.moduleDeps m.id m.dependsOn]) ++
      if m.publicExecute then [.publicExecute m.id] else []
  | .type t => if t.valueRenames.isEmpty then [] else [.valueRenames t.name t.valueRenames]
  | _ => []

def names (f : LoadedFile Strategy Dependency) : List Name := f.declarations.map Declaration.name

theorem name_mem_of_mem_hints {f : LoadedFile Strategy Dependency} {h : Hint Strategy} (hh : h ∈ f.hints) :
    h.name ∈ f.names := by
  cases f with
  | table t =>
    rw [hints, Option.mem_toList, Option.map_eq_some_iff] at hh
    obtain ⟨s, -, rfl⟩ := hh
    exact mem_cons_self
  | module m =>
    rw [hints, mem_append] at hh
    have hname : h.name = .module m.id := by
      rcases hh with hh | hh
      · split_ifs at hh
        · exact absurd hh not_mem_nil
        · rw [mem_singleton.1 hh, Hint.name]
      · split_ifs at hh
        · rw [mem_singleton.1 hh, Hint.name]
        · exact absurd hh not_mem_nil
    rw [hname]
    exact mem_cons_self
  | type t =>
    rw [hints] at hh
    split_ifs at hh
    · exact absurd hh not_mem_nil
    · rw [mem_singleton.1 hh]
      exact mem_cons_self
  | extension name definition => exact absurd hh not_mem_nil
  | dependency name declaration => exact absurd hh not_mem_nil
  | role r => exact absurd hh not_mem_nil

theorem declarations_ne_nil (f : LoadedFile Strategy Dependency) : f.declarations ≠ [] := by
  cases f <;> exact cons_ne_nil _ _

end FileOf

namespace Loaded

def Holds (l : Loaded Strategy Dependency) : Declaration Dependency → Prop
  | .extension name definition => l.schema.extensions[name]? = some definition
  | .dependency name declaration => l.dependencies[name]? = some declaration
  | .type name definition => l.schema.types[name]? = some definition
  | .table name table => l.schema.tables[name]? = some table
  | .module id module => l.schema.modules[id]? = some module
  | .role name role => l.schema.roles[name]? = some role

def Asks (l : Loaded Strategy Dependency) : Hint Strategy → Prop
  | .strategy table strategy => l.hints.strategies[table]? = some strategy
  | .moduleDeps id dependsOn => l.hints.moduleDeps[id]? = some dependsOn
  | .publicExecute id => id ∈ l.hints.publicExecute
  | .valueRenames type renames => l.hints.enumValueRenames[type]? = some renames

theorem ext_of_iff {a b : Loaded Strategy Dependency} (hholds : ∀ d, a.Holds d ↔ b.Holds d) (hasks : ∀ h, a.Asks h ↔ b.Asks h) :
    a.schema = b.schema ∧ a.dependencies = b.dependencies ∧ a.hints = b.hints := by
  refine ⟨?_, ?_, ?_⟩
  · have htables : a.schema.tables = b.schema.tables :=
      ext_getElem? fun n => Option.ext fun t => hholds (.table n t)
    have htypes : a.schema.types = b.schema.types :=
      ext_getElem? fun n => Option.ext fun t => hholds (.type n t)
    have hextensions : a.schema.extensions = b.schema.extensions :=
      ext_getElem? fun n => Option.ext fun t => hholds (.extension n t)
    have hmodules : a.schema.modules = b.schema.modules :=
      ext_getElem? fun n => Option.ext fun t => hholds (.module n t)
    have hroles : a.schema.roles = b.schema.roles :=
      ext_getElem? fun n => Option.ext fun t => hholds (.role n t)
    cases ha : a.schema
    cases hb : b.schema
    simp_all
  · exact ext_getElem? fun n => Option.ext fun d => hholds (.dependency n d)
  · have hstrategies : a.hints.strategies = b.hints.strategies :=
      ext_getElem? fun n => Option.ext fun s => hasks (.strategy n s)
    have hdeps : a.hints.moduleDeps = b.hints.moduleDeps :=
      ext_getElem? fun n => Option.ext fun s => hasks (.moduleDeps n s)
    have hexecute : a.hints.publicExecute = b.hints.publicExecute :=
      ExtTreeSet.ext_mem fun n => hasks (.publicExecute n)
    have hrenames : a.hints.enumValueRenames = b.hints.enumValueRenames :=
      ext_getElem? fun n => Option.ext fun s => hasks (.valueRenames n s)
    cases ha : a.hints
    cases hb : b.hints
    simp_all

end Loaded

/-! ## One file of the loop -/

section Insertions

variable {K V A : Type} [Ord K] [Std.TransOrd K] [Std.LawfulEqOrd K] [DecidableEq K]

variable {a : K}

variable {m : ExtTreeMap K V} {k : K} {v : V}

theorem getElem?_insert_ne_none : (m.insert k v)[a]? ≠ none ↔ a = k ∨ m[a]? ≠ none := by
  rw [ExtTreeMap.getElem?_insert]
  by_cases ha : a = k
  · simp [ha]
  · simp [ha, Ne.symm ha]

theorem getElem?_foldl_insert_ne_none {k : A → K} {v : A → V} : ∀ (l : List A) (m : ExtTreeMap K V),
    (l.foldl (fun m p => m.insert (k p) (v p)) m)[a]? ≠ none ↔ a ∈ l.map k ∨ m[a]? ≠ none
  | [], m => by simp
  | p :: l, m => by
    rw [foldl_cons, getElem?_foldl_insert_ne_none l, map_cons, mem_cons, getElem?_insert_ne_none,
      or_left_comm, or_assoc]

theorem getElem?_insert_of_none {x : V} (h : m[k]? = none) :
    (m.insert k v)[a]? = some x ↔ (a = k ∧ x = v) ∨ m[a]? = some x := by
  rw [ExtTreeMap.getElem?_insert_eq_some]
  by_cases ha : a = k
  · subst ha
    simp [h]
  · simp [ha]

end Insertions

namespace Collecting

def first (s : Collecting E Strategy Dependency) : Name → Option Path
  | .extension name => s.loaded.extensionSources[name]?
  | .dependency name => s.seen.dependencies[name]?
  | .type name => s.seen.types[name]?
  | .table name => s.seen.tables[name]?
  | .module id => s.seen.modules[id]?
  | .role name => s.seen.roles[name]?

def Fresh (s : Collecting E Strategy Dependency) (f : LoadedFile Strategy Dependency) : Prop :=
  ∀ n ∈ f.names, s.first n = none

variable {s : Collecting E Strategy Dependency} {path : Path} {f : LoadedFile Strategy Dependency}

theorem fresh_iff : s.Fresh f ↔ ∀ d ∈ f.declarations, s.first d.name = none := by
  simp [Fresh, FileOf.names]

variable {t : LoadedTable Strategy}

theorem fresh_table : s.Fresh (.table t) ↔ s.seen.tables[t.name]? = none ∧ ∀ p ∈ t.partitions, s.seen.tables[p.1]? = none := by
  rw [fresh_iff, FileOf.declarations, forall_mem_cons, forall_mem_map]
  rfl

theorem errs_add (s : Collecting E Strategy Dependency) (path : Path) (f : LoadedFile Strategy Dependency) :
    ∃ new, (s.add path f).errs = s.errs ++ new ∧ (new = [] ↔ s.Fresh f) := by
  cases f with
  | table t =>
    rw [fresh_table, add, addTable]
    cases h : s.seen.tables[t.name]? with
    | none =>
      refine ⟨s.takenPartitions path t, ?_, by simp [takenPartitions]⟩
      dsimp only
      split_ifs with hnone
      · rfl
      · rw [show s.takenPartitions path t = [] by simpa using hnone, append_nil]
    | some p => exact ⟨[_], rfl, by simp⟩
  | extension | dependency | type | module | role =>
    rw [fresh_iff, FileOf.declarations, forall_mem_singleton, Declaration.name, first]
    simp only [add, addExtension, addDependency, addType, addModule, addRole]
    split
    next h => exact ⟨[_], rfl, by simp [h]⟩
    next h => exact ⟨[], (append_nil _).symm, by simp [h]⟩

theorem nodup_tableNames : (FileOf.names (.table t : LoadedFile Strategy Dependency)).Nodup ↔
      t.name ∉ t.partitions.map Prod.fst ∧ (t.partitions.map Prod.fst).Nodup := by
  have hnames : FileOf.names (.table t : LoadedFile Strategy Dependency) =
      (t.name :: t.partitions.map Prod.fst).map Name.table := by
    simp [FileOf.names, FileOf.declarations, Declaration.name]
  have hinj : Function.Injective Name.table := fun a b h => Name.table.inj h
  rw [hnames, nodup_map_iff hinj, nodup_cons]

theorem addTable_of_fresh (hf : s.Fresh (.table t)) :
    s.addTable path t =
      { s with
        seen := { s.seen with
          tables := (t.partitions.foldl (fun m p => m.insert p.1 path) s.seen.tables).insert t.name path }
        loaded := { s.loaded with
          intents := s.loaded.intents ++ t.intents
          hints := { s.loaded.hints with
            strategies :=
              match t.strategy with
              | some strategy => s.loaded.hints.strategies.insert t.name strategy
              | none => s.loaded.hints.strategies }
          schema := { s.loaded.schema with
            tables := t.partitions.foldl (fun m p => m.insert p.1 p.2) (s.loaded.schema.tables.insert t.name t.table) } } } := by
  obtain ⟨hname, hparts⟩ := fresh_table.1 hf
  have htaken : s.takenPartitions path t = [] := by simpa [takenPartitions] using hparts
  rw [addTable, hname]
  dsimp only
  rw [htaken]
  rfl

theorem first_add (hf : s.Fresh f) (n : Name) : (s.add path f).first n ≠ none ↔ n ∈ f.names ∨ s.first n ≠ none := by
  cases f with
  | table t =>
    rw [add, addTable_of_fresh hf]
    cases n with
    | table n =>
      show ((t.partitions.foldl (fun m p => m.insert p.1 path) s.seen.tables).insert t.name path)[n]? ≠ none ↔ _
      rw [getElem?_insert_ne_none, getElem?_foldl_insert_ne_none, ← or_assoc]
      simp [FileOf.names, FileOf.declarations, Declaration.name, first]
    | _ => simp [first, FileOf.names, FileOf.declarations, Declaration.name]
  | extension | dependency | type | module | role =>
    have hnone := hf _ mem_cons_self
    simp only [Declaration.name, first] at hnone
    simp only [add, addExtension, addDependency, addType, addModule, addRole, hnone]
    cases n <;> simp only [first, getElem?_insert_ne_none, FileOf.names, FileOf.declarations, Declaration.name,
      map_cons, map_nil, mem_singleton, Name.extension.injEq, Name.dependency.injEq, Name.type.injEq,
      Name.module.injEq, Name.role.injEq, reduceCtorEq, false_or]

/-- Nothing of the declaration's kind is there under a name the loop has not seen. -/
theorem holds_add (hf : s.Fresh f) (hn : f.names.Nodup) (hseen : ∀ d, s.loaded.Holds d → s.first d.name ≠ none)
    (d : Declaration Dependency) : (s.add path f).loaded.Holds d ↔ d ∈ f.declarations ∨ s.loaded.Holds d := by
  cases f with
  | extension name definition =>
    have hnone : s.loaded.extensionSources[name]? = none := hf _ mem_cons_self
    have hnew : s.loaded.schema.extensions[name]? = none :=
      eq_none_iff_forall_ne_some.2 fun y hy => hseen (.extension _ y) hy hnone
    rw [add, addExtension, hnone]
    cases d <;> simp [FileOf.declarations, Loaded.Holds, getElem?_insert_of_none hnew]
  | dependency name declaration =>
    have hnone : s.seen.dependencies[name]? = none := hf _ mem_cons_self
    have hnew : s.loaded.dependencies[name]? = none :=
      eq_none_iff_forall_ne_some.2 fun y hy => hseen (.dependency _ y) hy hnone
    rw [add, addDependency, hnone]
    cases d <;> simp [FileOf.declarations, Loaded.Holds, getElem?_insert_of_none hnew]
  | type t =>
    have hnone : s.seen.types[t.name]? = none := hf _ mem_cons_self
    have hnew : s.loaded.schema.types[t.name]? = none :=
      eq_none_iff_forall_ne_some.2 fun y hy => hseen (.type _ y) hy hnone
    rw [add, addType, hnone]
    cases d <;> simp [FileOf.declarations, Loaded.Holds, getElem?_insert_of_none hnew]
  | table t =>
    rw [add, addTable_of_fresh hf]
    cases d with
    | table n x =>
      obtain ⟨hname, hparts⟩ := fresh_table.1 hf
      obtain ⟨hown, hdistinct⟩ := nodup_tableNames.1 hn
      have hnew : ∀ k, s.seen.tables[k]? = none → s.loaded.schema.tables[k]? = none := fun k hk =>
        eq_none_iff_forall_ne_some.2 fun y hy => hseen (.table _ y) hy hk
      show (t.partitions.foldl (fun m p => m.insert p.1 p.2) (s.loaded.schema.tables.insert t.name t.table))[n]? = some x ↔ _
      rw [ExtTreeMap.getElem?_foldl_insert _ _ hdistinct, getElem?_insert_of_none (hnew _ hname)]
      show _ ↔ Declaration.table n x ∈ Declaration.table t.name t.table :: t.partitions.map (fun p => .table p.1 p.2) ∨
        s.loaded.schema.tables[n]? = some x
      rw [mem_cons, Declaration.table.injEq]
      constructor
      · rintro (⟨p, hp, rfl, rfl⟩ | ⟨-, h | h⟩)
        · exact .inl (.inr (mem_map_of_mem hp))
        · exact .inl (.inl h)
        · exact .inr h
      · rintro ((⟨rfl, rfl⟩ | hmem) | h)
        · exact .inr ⟨hown, .inl ⟨rfl, rfl⟩⟩
        · obtain ⟨p, hp, h⟩ := mem_map.1 hmem
          obtain ⟨rfl, rfl⟩ := Declaration.table.inj h
          exact .inl ⟨p, hp, rfl, rfl⟩
        · refine .inr ⟨?_, .inr h⟩
          intro hmem
          obtain ⟨p, hp, rfl⟩ := mem_map.1 hmem
          rw [hnew _ (hparts p hp)] at h
          exact nomatch h
    | _ => simp [Loaded.Holds, FileOf.declarations]
  | module m =>
    have hnone : s.seen.modules[m.id]? = none := hf _ mem_cons_self
    have hnew : s.loaded.schema.modules[m.id]? = none :=
      eq_none_iff_forall_ne_some.2 fun y hy => hseen (.module _ y) hy hnone
    rw [add, addModule, hnone]
    cases d <;> simp [FileOf.declarations, Loaded.Holds, getElem?_insert_of_none hnew]
  | role r =>
    have hnone : s.seen.roles[r.name]? = none := hf _ mem_cons_self
    have hnew : s.loaded.schema.roles[r.name]? = none :=
      eq_none_iff_forall_ne_some.2 fun y hy => hseen (.role _ y) hy hnone
    rw [add, addRole, hnone]
    cases d <;> simp [FileOf.declarations, Loaded.Holds, getElem?_insert_of_none hnew]

theorem asks_add (hf : s.Fresh f) (hseen : ∀ h, s.loaded.Asks h → s.first h.name ≠ none) (h : Hint Strategy) :
    (s.add path f).loaded.Asks h ↔ h ∈ f.hints ∨ s.loaded.Asks h := by
  cases f with
  | extension | dependency | role =>
    have hnone := hf _ mem_cons_self
    simp only [Declaration.name, first] at hnone
    simp only [add, addExtension, addDependency, addRole, hnone]
    cases h <;> simp [FileOf.hints, Loaded.Asks]
  | type t =>
    have hnone : s.seen.types[t.name]? = none := hf _ mem_cons_self
    rw [add, addType, hnone]
    have hnew : s.loaded.hints.enumValueRenames[t.name]? = none :=
      eq_none_iff_forall_ne_some.2 fun y hy => hseen (.valueRenames _ y) hy hnone
    by_cases hempty : t.valueRenames.isEmpty = true
    · cases h <;> simp [FileOf.hints, Loaded.Asks, hempty]
    · cases h with
      | valueRenames n x => simp [FileOf.hints, Loaded.Asks, hempty, getElem?_insert_of_none hnew]
      | _ => simp [FileOf.hints, Loaded.Asks, hempty]
  | module m =>
    have hnone : s.seen.modules[m.id]? = none := hf _ mem_cons_self
    rw [add, addModule, hnone]
    have hnew : s.loaded.hints.moduleDeps[m.id]? = none :=
      eq_none_iff_forall_ne_some.2 fun y hy => hseen (.moduleDeps _ y) hy hnone
    cases h with
    | moduleDeps n x =>
      by_cases hempty : m.dependsOn.isEmpty = true <;> by_cases hpublic : m.publicExecute = true <;>
        simp [FileOf.hints, Loaded.Asks, hempty, hpublic, getElem?_insert_of_none hnew]
    | publicExecute n =>
      by_cases hpublic : m.publicExecute = true
      · simp [FileOf.hints, Loaded.Asks, hpublic, eq_comm (a := n)]
      · simp [FileOf.hints, Loaded.Asks, hpublic]
    | _ => simp [FileOf.hints, Loaded.Asks]
  | table t =>
    obtain ⟨hname, -⟩ := fresh_table.1 hf
    rw [add, addTable_of_fresh hf]
    cases h with
    | strategy n x =>
      have hnew : s.loaded.hints.strategies[t.name]? = none :=
        eq_none_iff_forall_ne_some.2 fun y hy => hseen (.strategy _ y) hy hname
      cases hs : t.strategy with
      | none => simp [FileOf.hints, Loaded.Asks, hs]
      | some strategy => simp [FileOf.hints, Loaded.Asks, hs, getElem?_insert_of_none hnew]
    | _ => simp [FileOf.hints, Loaded.Asks]

end Collecting

/-! ## All files -/

def fileOf (read : Text → Except E (FileDto Strategy Dependency)) (text : Text) : Option (LoadedFile Strategy Dependency) :=
  (loadFileStr read "" text).toOption

variable {read : Text → Except E (FileDto Strategy Dependency)}

variable {path : Path} {files : List (Path × Text)}

theorem labelErrors_eq_nil {dto : TableDto Strategy} :
    (labelErrors path dto : List (LoadError E)) = [] ↔ ∀ p ∈ dto.partitions, ∃ n, childName dto.name p.1 = .ok n := by
  rw [labelErrors, filterMap_eq_nil_iff]
  refine forall₂_congr fun p _ => ?_
  cases childName dto.name p.1 with
  | ok n => simp
  | error e => simp

variable {f : LoadedFile Strategy Dependency} {loaded : Loaded Strategy Dependency}
variable {files' : List (Path × Text)}

theorem loadFileStr_eq_ok {text : Text} : loadFileStr read path text = .ok f ↔ fileOf read text = some f := by
  unfold fileOf loadFileStr
  cases read text with
  | error e => simp [Except.toOption]
  | ok dto =>
    cases dto with
    | table dto =>
      have hlabels : (labelErrors path dto : List (LoadError E)) = [] ↔ (labelErrors "" dto : List (LoadError E)) = [] := by
        rw [labelErrors_eq_nil, labelErrors_eq_nil]
      by_cases hnone : (labelErrors "" dto : List (LoadError E)) = []
      · simp [convert, hnone, hlabels.2 hnone, Except.map, Except.toOption]
      · simp [convert, hnone, mt hlabels.1 hnone, Except.map, Except.toOption]
    | _ => simp [Except.toOption]

theorem loadFileStr_error {text : Text} {e : List (LoadError E)} (h : loadFileStr read path text = .error e) : e ≠ [] := by
  rintro rfl
  unfold loadFileStr at h
  split at h
  next => exact nomatch h
  next dto _ =>
    rw [convert] at h
    split_ifs at h with hempty
    · exact nomatch h
    · exact hempty (by rw [Except.error.inj h]; rfl)
  all_goals exact nomatch h

def Apart (f g : LoadedFile Strategy Dependency) : Prop := f.names.Disjoint g.names

/-- The loop's state after some files, none of which it complained of. -/
structure Collected (s : Collecting E Strategy Dependency) (fs : List (LoadedFile Strategy Dependency)) : Prop where
  errs : s.errs = []
  first : ∀ n, s.first n ≠ none ↔ n ∈ fs.flatMap FileOf.names
  holds : (∀ f ∈ fs, f.names.Nodup) → ∀ d, s.loaded.Holds d ↔ d ∈ fs.flatMap FileOf.declarations
  asks : ∀ h, s.loaded.Asks h ↔ h ∈ fs.flatMap FileOf.hints

namespace Collected

variable {s : Collecting E Strategy Dependency} {fs : List (LoadedFile Strategy Dependency)}
  {f : LoadedFile Strategy Dependency}

theorem start : Collected ({} : Collecting E Strategy Dependency) [] where
  errs := rfl
  first n := by cases n <;> simp [Collecting.first]
  holds _ d := by cases d <;> simp [Loaded.Holds]
  asks h := by cases h <;> simp [Loaded.Asks]

theorem fresh_iff (h : Collected s fs) : s.Fresh f ↔ ∀ g ∈ fs, Apart g f := by
  constructor
  · intro hf g hg n hng hn
    exact (h.first n).2 (mem_flatMap.2 ⟨g, hg, hng⟩) (hf n hn)
  · intro hapart n hn
    by_contra hfirst
    obtain ⟨g, hg, hng⟩ := mem_flatMap.1 ((h.first n).1 hfirst)
    exact hapart g hg hng hn

theorem not_errs_add (path : Path) (hf : ¬ s.Fresh f) : (s.add path f).errs ≠ [] := by
  obtain ⟨new, herrs, hnew⟩ := Collecting.errs_add s path f
  rw [herrs]
  exact fun h => hf (hnew.1 (append_eq_nil_iff.1 h).2)

theorem add (h : Collected s fs) (path : Path) (hf : s.Fresh f) : Collected (s.add path f) (fs ++ [f]) where
  errs := by
    obtain ⟨new, herrs, hnew⟩ := Collecting.errs_add s path f
    rw [herrs, h.errs, hnew.2 hf, append_nil]
  first n := by
    rw [Collecting.first_add hf, h.first, flatMap_append, mem_append, flatMap_singleton, or_comm]
  holds hn d := by
    rw [forall_mem_append, forall_mem_singleton] at hn
    have hseen : ∀ d, s.loaded.Holds d → s.first d.name ≠ none := by
      intro d hd
      obtain ⟨g, hg, hd⟩ := mem_flatMap.1 ((h.holds hn.1 d).1 hd)
      exact (h.first _).2 (mem_flatMap.2 ⟨g, hg, mem_map_of_mem hd⟩)
    rw [Collecting.holds_add hf hn.2 hseen, h.holds hn.1, flatMap_append, mem_append, flatMap_singleton,
      or_comm]
  asks x := by
    have hseen : ∀ x, s.loaded.Asks x → s.first x.name ≠ none := by
      intro x hx
      obtain ⟨g, hg, hx⟩ := mem_flatMap.1 ((h.asks x).1 hx)
      exact (h.first _).2 (mem_flatMap.2 ⟨g, hg, FileOf.name_mem_of_mem_hints hx⟩)
    rw [Collecting.asks_add hf hseen, h.asks, flatMap_append, mem_append, flatMap_singleton, or_comm]

end Collected

namespace Collecting

variable {s : Collecting E Strategy Dependency} {file : Path × Text}

theorem step_of_some {f : LoadedFile Strategy Dependency} (h : fileOf read file.2 = some f) :
    s.step read file = s.add file.1 f := by
  rw [step, loadFileStr_eq_ok.2 h]

theorem errs_step_of_none (h : fileOf read file.2 = none) : (s.step read file).errs ≠ [] := by
  rw [step]
  cases hload : loadFileStr read file.1 file.2 with
  | ok f =>
    rw [loadFileStr_eq_ok.1 hload] at h
    exact nomatch h
  | error e => exact fun hnil => loadFileStr_error hload (append_eq_nil_iff.1 hnil).2

theorem errs_step (s : Collecting E Strategy Dependency) (file : Path × Text) :
    ∃ new, (s.step read file).errs = s.errs ++ new := by
  rw [step]
  cases loadFileStr read file.1 file.2 with
  | ok f =>
    obtain ⟨new, herrs, -⟩ := errs_add s file.1 f
    exact ⟨new, herrs⟩
  | error e => exact ⟨e, rfl⟩

variable (read) in
theorem errs_foldl_step : ∀ (files : List (Path × Text)) {s : Collecting E Strategy Dependency}, s.errs ≠ [] →
    (files.foldl (fun s file => s.step read file) s).errs ≠ []
  | [], _, h => h
  | file :: files, s, h => by
    refine errs_foldl_step files ?_
    obtain ⟨new, herrs⟩ := errs_step s file
    rw [herrs]
    exact fun hnil => h (append_eq_nil_iff.1 hnil).1

end Collecting

def readable (read : Text → Except E (FileDto Strategy Dependency)) (files : List (Path × Text)) :
    List (LoadedFile Strategy Dependency) :=
  files.filterMap fun file => fileOf read file.2

variable (read) in
/-- The loop complains of nothing exactly where every file can be read and no two share a name, and what it has
then is what the files hold. -/
theorem foldl_step : ∀ (files : List (Path × Text)) {s : Collecting E Strategy Dependency}
    {fs : List (LoadedFile Strategy Dependency)}, Collected s fs → fs.Pairwise Apart →
      ((files.foldl (fun s file => s.step read file) s).errs = [] ↔
        (∀ file ∈ files, (fileOf read file.2).isSome = true) ∧ (fs ++ readable read files).Pairwise Apart) ∧
      ((files.foldl (fun s file => s.step read file) s).errs = [] →
        Collected (files.foldl (fun s file => s.step read file) s) (fs ++ readable read files))
  | [], s, fs, h, hfs => by
    simp [readable, h, h.errs, hfs]
  | file :: files, s, fs, h, hfs => by
    rw [foldl_cons, forall_mem_cons]
    cases hfile : fileOf read file.2 with
    | none =>
      have herrs := Collecting.errs_foldl_step read files (Collecting.errs_step_of_none (s := s) hfile)
      simp [herrs]
    | some f =>
      have hreadable : readable read (file :: files) = f :: readable read files := by
        simp [readable, hfile]
      have happend : fs ++ readable read (file :: files) = fs ++ [f] ++ readable read files := by
        rw [hreadable, append_assoc, singleton_append]
      rw [Collecting.step_of_some hfile, happend]
      by_cases hf : s.Fresh f
      · have hpair : (fs ++ [f]).Pairwise Apart := by
          rw [pairwise_append]
          refine ⟨hfs, pairwise_singleton _ _, ?_⟩
          intro g hg f' hf'
          rw [mem_singleton] at hf'
          rw [hf']
          exact h.fresh_iff.1 hf g hg
        obtain ⟨hiff, hcollected⟩ := foldl_step files (h.add file.1 hf) hpair
        refine ⟨?_, hcollected⟩
        rw [hiff]
        simp
      · have herrs := Collecting.errs_foldl_step read files (Collected.not_errs_add file.1 hf)
        refine ⟨⟨fun hnil => absurd hnil herrs, ?_⟩, fun hnil => absurd hnil herrs⟩
        rintro ⟨-, hpair⟩
        refine absurd (h.fresh_iff.2 ?_) hf
        intro g hg
        rw [append_assoc, pairwise_append] at hpair
        exact hpair.2.2 g hg f (by simp)

theorem collectFiles_ok_iff : (∃ loaded, collectFiles read files = .ok loaded) ↔
      (∀ file ∈ files, (fileOf read file.2).isSome = true) ∧ (readable read files).Pairwise Apart := by
  obtain ⟨hiff, -⟩ := foldl_step read files Collected.start List.Pairwise.nil
  rw [nil_append] at hiff
  rw [← hiff, collectFiles, ← List.isEmpty_iff]
  constructor
  · rintro ⟨loaded, h⟩
    by_contra hempty
    rw [if_neg hempty] at h
    exact nomatch h
  · intro hempty
    exact ⟨_, if_pos hempty⟩

theorem collected_of_ok (h : collectFiles read files = .ok loaded) :
    ∃ s : Collecting E Strategy Dependency, s.loaded = loaded ∧ Collected s (readable read files) := by
  obtain ⟨-, hcollected⟩ := foldl_step read files Collected.start List.Pairwise.nil
  rw [collectFiles] at h
  split_ifs at h with hempty
  cases h
  exact ⟨_, rfl, hcollected (List.isEmpty_iff.1 hempty)⟩

/-! ## What is lost -/

def declaredIn (read : Text → Except E (FileDto Strategy Dependency)) (files : List (Path × Text)) :
    List (Declaration Dependency) :=
  (readable read files).flatMap FileOf.declarations

/-- Loading lost nothing: no two declarations have one name, each is held as its file has it, and the same texts
in any order under any paths of their own load as the same. -/
structure LosesNothing (read : Text → Except E (FileDto Strategy Dependency)) (files : List (Path × Text))
    (loaded : Loaded Strategy Dependency) : Prop where
  distinct : ((declaredIn read files).map Declaration.name).Nodup
  holds : ∀ d ∈ declaredIn read files, loaded.Holds d
  independent : ∀ files' : List (Path × Text), (files'.map Prod.fst).Nodup →
    (files'.map Prod.snd).Perm (files.map Prod.snd) →
      ∃ loaded', loadSchemaFiles read files' = .ok loaded' ∧ loaded'.schema = loaded.schema ∧
        loaded'.dependencies = loaded.dependencies ∧ loaded'.hints = loaded.hints

theorem perm_toList_ofList (h : (files.map Prod.fst).Nodup) : (ExtTreeMap.ofList files).toList.Perm files := by
  rw [perm_ext_iff_of_nodup ExtTreeMap.nodup_toList (Nodup.of_map _ h)]
  rintro ⟨path, text⟩
  rw [ExtTreeMap.mem_toList_iff_getElem?_eq_some, ExtTreeMap.getElem?_ofList_eq_some h]

theorem exists_perm_append_ofList (files : List (Path × Text)) :
    ∃ rest, files.Perm ((ExtTreeMap.ofList files).toList ++ rest) := by
  have hsub : (ExtTreeMap.ofList files).toList ⊆ files := by
    rintro ⟨path, text⟩ hmem
    exact ExtTreeMap.mem_of_getElem?_ofList (ExtTreeMap.getElem?_of_mem_toList hmem)
  obtain ⟨l, hl, hsublist⟩ := ExtTreeMap.nodup_toList.subperm hsub
  obtain ⟨rest, hrest⟩ := hsublist.exists_perm_append
  exact ⟨rest, hrest.trans (hl.append_right rest)⟩

variable (read) in
theorem readable_perm (h : (files'.map Prod.snd).Perm (files.map Prod.snd)) :
    (readable read files').Perm (readable read files) := by
  have hmap : ∀ files : List (Path × Text), readable read files = (files.map Prod.snd).filterMap (fileOf read) := by
    intro files
    rw [readable, filterMap_map]
    rfl
  rw [hmap, hmap]
  exact h.filterMap _

theorem Apart.symm {g : LoadedFile Strategy Dependency} (h : Apart f g) : Apart g f := fun _ hg hf => h hf hg

theorem collectFiles_perm (h : collectFiles read files = .ok loaded) (hown : ∀ f ∈ readable read files, f.names.Nodup)
    (hperm : (files'.map Prod.snd).Perm (files.map Prod.snd)) :
    ∃ loaded', collectFiles read files' = .ok loaded' ∧ loaded'.schema = loaded.schema ∧
      loaded'.dependencies = loaded.dependencies ∧ loaded'.hints = loaded.hints := by
  have hreadable := readable_perm read hperm
  obtain ⟨hall, hpair⟩ := collectFiles_ok_iff.1 ⟨_, h⟩
  have hall' : ∀ file ∈ files', (fileOf read file.2).isSome = true := by
    intro file hfile
    obtain ⟨file₀, hfile₀, heq⟩ := mem_map.1 (hperm.mem_iff.1 (mem_map_of_mem hfile))
    rw [← heq]
    exact hall file₀ hfile₀
  have hpair' : (readable read files').Pairwise Apart := hreadable.symm.pairwise hpair Apart.symm
  obtain ⟨loaded', h'⟩ := collectFiles_ok_iff.2 ⟨hall', hpair'⟩
  obtain ⟨s, rfl, hs⟩ := collected_of_ok h
  obtain ⟨s', rfl, hs'⟩ := collected_of_ok h'
  refine ⟨_, h', Loaded.ext_of_iff ?_ ?_⟩
  · intro d
    rw [hs.holds hown, hs'.holds fun f hf => hown f (hreadable.mem_iff.1 hf)]
    exact (hreadable.flatMap_right _).mem_iff
  · intro x
    rw [hs.asks, hs'.asks]
    exact (hreadable.flatMap_right _).mem_iff

variable (read) in
theorem map_name_declaredIn (files : List (Path × Text)) :
    (declaredIn read files).map Declaration.name = (readable read files).flatMap FileOf.names := by
  rw [declaredIn, map_flatMap]
  rfl

theorem exists_paths (texts : List Text) :
    ∃ files : List (Path × Text), (files.map Prod.fst).Nodup ∧ files.map Prod.snd = texts := by
  refine ⟨texts.zipIdx.map fun e => (String.ofList (List.replicate e.2 'x'), e.1), ?_, ?_⟩
  · have hpaths : (texts.zipIdx.map fun e => (String.ofList (List.replicate e.2 'x'), e.1)).map Prod.fst =
        (List.range' 0 texts.length).map fun i => String.ofList (List.replicate i 'x') := by
      rw [← zipIdx_map_snd 0 texts, map_map, map_map]
      rfl
    rw [hpaths]
    refine Nodup.map ?_ nodup_range'
    intro i j hij
    have hlen := congrArg (fun s => s.toList.length) hij
    simpa using hlen
  · rw [map_map]
    exact zipIdx_map_fst 0 texts

/-- Loading loses no declaration exactly where each file has a path of its own and gives no name twice. -/
theorem loadSchemaFiles_loses_nothing (read : Text → Except E (FileDto Strategy Dependency)) (files : List (Path × Text))
    (loaded : Loaded Strategy Dependency) (h : loadSchemaFiles read files = .ok loaded) : LosesNothing read files loaded ↔
      (files.map Prod.fst).Nodup ∧ ∀ f ∈ readable read files, f.names.Nodup := by
  constructor
  · intro hlost
    obtain ⟨hown, -⟩ := nodup_flatMap.1 (map_name_declaredIn read files ▸ hlost.distinct)
    refine ⟨?_, hown⟩
    -- Every text can be read: all of them load under paths of their own.
    have hall : ∀ file ∈ files, (fileOf read file.2).isSome = true := by
      obtain ⟨files', hpaths', htexts⟩ := exists_paths (files.map Prod.snd)
      obtain ⟨loaded', h', -⟩ := hlost.independent files' hpaths' (htexts ▸ Perm.refl _)
      obtain ⟨hall', -⟩ := collectFiles_ok_iff.1 ⟨_, h'⟩
      intro file hfile
      have htext : file.2 ∈ files'.map Prod.snd := htexts ▸ mem_map_of_mem hfile
      obtain ⟨file', hfile', htext⟩ := mem_map.1 htext
      rw [← htext]
      exact hall' file' ((perm_toList_ofList hpaths').mem_iff.2 hfile')
    obtain ⟨rest, hrest⟩ := exists_perm_append_ofList files
    have hreadable : (readable read files).Perm (readable read (ExtTreeMap.ofList files).toList ++ readable read rest) := by
      rw [readable, readable, readable, ← filterMap_append]
      exact hrest.filterMap _
    -- What the shadowed files declare is held, so a loaded file declares it too.
    have hdeclared := hreadable.flatMap_right FileOf.declarations
    rw [flatMap_append] at hdeclared
    have hnone : readable read rest = [] := by
      rw [eq_nil_iff_forall_not_mem]
      intro f hf
      obtain ⟨d, hd⟩ := exists_mem_of_ne_nil _ f.declarations_ne_nil
      have hrest : d ∈ (readable read rest).flatMap FileOf.declarations := mem_flatMap.2 ⟨f, hf, hd⟩
      have hkept : d ∈ (readable read (ExtTreeMap.ofList files).toList).flatMap FileOf.declarations := by
        obtain ⟨s, rfl, hs⟩ := collected_of_ok h
        refine (hs.holds ?_ d).1 (hlost.holds d (hdeclared.mem_iff.2 (mem_append_right _ hrest)))
        exact fun g hg => hown g (hreadable.mem_iff.2 (mem_append_left _ hg))
      have hnodup := hdeclared.nodup_iff.1 (Nodup.of_map _ hlost.distinct)
      exact disjoint_of_nodup_append hnodup hkept hrest
    have hempty : rest = [] := by
      rw [eq_nil_iff_forall_not_mem]
      intro file hfile
      have hsome := hall file (hrest.mem_iff.2 (mem_append_right _ hfile))
      rw [filterMap_eq_nil_iff.1 hnone file hfile] at hsome
      exact nomatch hsome
    rw [hempty, append_nil] at hrest
    rw [(hrest.map Prod.fst).nodup_iff, ExtTreeMap.map_fst_toList_eq_keys]
    exact ExtTreeMap.nodup_keys
  · rintro ⟨hpaths, hown⟩
    have hperm := perm_toList_ofList hpaths
    have hreadable := readable_perm read (hperm.map Prod.snd)
    have hown' : ∀ f ∈ readable read (ExtTreeMap.ofList files).toList, f.names.Nodup := fun f hf =>
      hown f (hreadable.mem_iff.1 hf)
    obtain ⟨-, hpair⟩ := collectFiles_ok_iff.1 ⟨_, h⟩
    refine ⟨?_, ?_, ?_⟩
    · rw [map_name_declaredIn, nodup_flatMap]
      exact ⟨hown, hreadable.pairwise hpair Apart.symm⟩
    · intro d hd
      obtain ⟨s, rfl, hs⟩ := collected_of_ok h
      exact (hs.holds hown' d).2 ((hreadable.flatMap_right _).mem_iff.2 hd)
    · intro files' hpaths' htexts
      refine collectFiles_perm h hown' ?_
      exact ((perm_toList_ofList hpaths').map Prod.snd).trans (htexts.trans (hperm.map Prod.snd).symm)

namespace Orders

/-- A partitioned table whose partitions are labelled as given, the first of them its default. -/
def dto (labels : List String) : FileDto Unit Unit :=
  .table
    { name := ⟨"app", "orders"⟩
      table := { partitionBy := some { columns := ["id"] } }
      partitions := labels.map fun label =>
        (label, { bound := if label = "rest" then .default else .range [.value "1"] [.value "2"] }) }

def text (labels : List String) : String :=
  "table: app.orders\ncolumns:\n  id: int\npartition_by: [id]\npartitions:\n" ++
    String.join (labels.map fun label =>
      "  " ++ label ++ (if label = "rest" then ": default\n" else ": \x7bfrom: [\"1\"], to: [\"2\"]\x7d\n"))

def view : FileDto Unit Unit :=
  .module { id := .named ⟨"app", "open_orders"⟩, module := { kind := .view, definition := "SELECT id FROM app.orders" } }

def viewText : String := "view: app.open_orders\n\ndefinition: |-\n  SELECT id FROM app.orders\n"

def readText (t : String) : Except Unit (FileDto Unit Unit) :=
  if t = text ["rest", "app.first"] then .ok (dto ["rest", "app.first"])
  else if t = text ["rest", "app.rest"] then .ok (dto ["rest", "app.rest"])
  else if t = viewText then .ok view
  else .error ()

theorem exists_of_isOk {r : Except E Strategy} (h : r.isOk = true) : ∃ a, r = .ok a := by
  cases r with
  | ok a => exact ⟨a, rfl⟩
  | error e => exact nomatch h

theorem loadSchemaFiles_loses_nothing_orders : ∃ loaded,
    loadSchemaFiles readText [("orders.yml", text ["rest", "app.first"]), ("open_orders.yml", viewText)] = .ok loaded ∧
      LosesNothing readText [("orders.yml", text ["rest", "app.first"]), ("open_orders.yml", viewText)] loaded := by
  obtain ⟨loaded, h⟩ := exists_of_isOk
    (r := loadSchemaFiles readText [("orders.yml", text ["rest", "app.first"]), ("open_orders.yml", viewText)]) (by decide)
  exact ⟨loaded, h, (loadSchemaFiles_loses_nothing readText _ loaded h).2 ⟨by decide, by decide⟩⟩

/-- Two labels of one table: the partition loaded first is written over by the other. -/
theorem loadSchemaFiles_loses_rest :
    ¬ ∀ (read : String → Except Unit (FileDto Unit Unit)) (files : List (Path × String)) (loaded : Loaded Unit Unit),
      loadSchemaFiles read files = .ok loaded → LosesNothing read files loaded := by
  intro h
  obtain ⟨loaded, hload⟩ := exists_of_isOk
    (r := loadSchemaFiles readText [("orders.yml", text ["rest", "app.rest"])]) (by decide)
  exact absurd (h readText _ loaded hload).distinct (by decide)

end Orders

end Pbps.Load
