/-
The identity file as a registry: each uid names one object, a column stands under its table, and a
tombstone retires a uid. `Sound` is what every pass of a resolution keeps: the file's own rules that
no name decides, and the account of what became of each uid the input held.
-/
import Pbps.Identity.Resolve
import Pbps.Lib.Registry
import Pbps.Lib.Map

namespace Pbps.Identity

open Std (ExtTreeMap ExtTreeSet)
open Option Std.ExtTreeMap

/-! ## Objects -/

/-- What a uid can name. -/
inductive Obj where
  | extension (name : ObjectLocalName)
  | type (name : TypeRef)
  | table (name : TableName)
  | column (ref : ColumnRef)
  | role (name : RoleName)
  deriving DecidableEq

namespace Obj

def kind : Obj → UidKind
  | .extension _ => .extension
  | .type _ => .type
  | .table _ => .table
  | .column _ => .column
  | .role _ => .role

def parent : Obj → Option Obj
  | .column c => some (.table c.table)
  | _ => none

def within (t : TableName) : Obj → Bool
  | .table n => n = t
  | .column c => c.table = t
  | _ => false

def columnOf (t : TableName) : Obj → Bool
  | .column c => c.table = t
  | _ => false

def moveTable (from_ to_ : TableName) : Obj → Obj
  | .table n => .table (if n = from_ then to_ else n)
  | .column c => .column (if c.table = from_ then to_.column c.name else c)
  | o => o

end Obj

/-- The object a live uid names, read in the section its prefix says. -/
def live (ids : IdsFile) (u : Uid) : Option Obj :=
  match u.kind with
  | .extension => ids.extensions[u]?.map .extension
  | .type => ids.types[u]?.map .type
  | .table => ids.tables[u]?.map .table
  | .column => ids.columns[u]?.map .column
  | .role => ids.roles[u]?.map .role

def registry (ids : IdsFile) : Registry.State Uid Obj where
  live := live ids
  dead u := ids.tombstones.contains u = true

/-! ## Sections -/

/-- One section of the file, with the objects its uids name. -/
structure Section (N : Type) where
  kind : UidKind
  get : IdsFile → ExtTreeMap Uid N
  set : IdsFile → ExtTreeMap Uid N → IdsFile
  obj : N → Obj

/-- Every uid of every section has the section's kind. -/
structure Kinds (ids : IdsFile) : Prop where
  tables : ∀ u, u ∈ ids.tables → u.kind = .table
  columns : ∀ u, u ∈ ids.columns → u.kind = .column
  roles : ∀ u, u ∈ ids.roles → u.kind = .role
  types : ∀ u, u ∈ ids.types → u.kind = .type
  extensions : ∀ u, u ∈ ids.extensions → u.kind = .extension

/-- A section is read and written alone; most of it is so by what a section is. -/
structure Section.Lawful {N : Type} (sec : Section N) : Prop where
  obj_injective : Function.Injective sec.obj := by intro _ _ h; cases h; rfl
  get_set : ∀ ids m, sec.get (sec.set ids m) = m := by intros; rfl
  live_get : ∀ ids (u : Uid), u.kind = sec.kind → live ids u = (sec.get ids)[u]?.map sec.obj := by
    intro ids u h; unfold live; rw [h]; rfl
  live_set : ∀ ids m (u : Uid), u.kind ≠ sec.kind → live (sec.set ids m) u = live ids u := by
    intro ids m u h; unfold live; cases hk : u.kind <;> first | rfl | exact absurd hk h
  kind_obj : ∀ n, (sec.obj n).kind = sec.kind := by intros; rfl
  kind_of_mem : ∀ ids u, Kinds ids → u ∈ sec.get ids → u.kind = sec.kind
  kinds_set : ∀ ids m, Kinds ids → (∀ u, u ∈ m → u.kind = sec.kind) → Kinds (sec.set ids m)
  version_set : ∀ ids m, (sec.set ids m).version = ids.version := by intros; rfl
  tombstones_set : ∀ ids m, (sec.set ids m).tombstones = ids.tombstones := by intros; rfl
  moves_set : ∀ ids m, (sec.set ids m).moves = ids.moves := by intros; rfl
  rebuilds_set : ∀ ids m, (sec.set ids m).rebuilds = ids.rebuilds := by intros; rfl
  conversions_set : ∀ ids m, (sec.set ids m).conversions = ids.conversions := by intros; rfl

def typeSection : Section TypeRef := ⟨.type, (·.types), fun ids m => { ids with types := m }, .type⟩
def roleSection : Section RoleName := ⟨.role, (·.roles), fun ids m => { ids with roles := m }, .role⟩
def tableSection : Section TableName := ⟨.table, (·.tables), fun ids m => { ids with tables := m }, .table⟩
def columnSection : Section ColumnRef := ⟨.column, (·.columns), fun ids m => { ids with columns := m }, .column⟩
def extensionSection : Section ObjectLocalName :=
  ⟨.extension, (·.extensions), fun ids m => { ids with extensions := m }, .extension⟩

theorem live_kind {ids : IdsFile} {u : Uid} {o : Obj} (h : live ids u = some o) : u.kind = o.kind := by
  unfold live at h
  split at h <;> (obtain ⟨n, -, rfl⟩ := map_eq_some_iff.1 h; assumption)

theorem typeSection_lawful : typeSection.Lawful where
  kind_of_mem ids u hk h := hk.types u h
  kinds_set ids m hk h := ⟨hk.tables, hk.columns, hk.roles, h, hk.extensions⟩

theorem roleSection_lawful : roleSection.Lawful where
  kind_of_mem ids u hk h := hk.roles u h
  kinds_set ids m hk h := ⟨hk.tables, hk.columns, h, hk.types, hk.extensions⟩

theorem tableSection_lawful : tableSection.Lawful where
  kind_of_mem ids u hk h := hk.tables u h
  kinds_set ids m hk h := ⟨h, hk.columns, hk.roles, hk.types, hk.extensions⟩

theorem columnSection_lawful : columnSection.Lawful where
  kind_of_mem ids u hk h := hk.columns u h
  kinds_set ids m hk h := ⟨hk.tables, h, hk.roles, hk.types, hk.extensions⟩

theorem extensionSection_lawful : extensionSection.Lawful where
  kind_of_mem ids u hk h := hk.extensions u h
  kinds_set ids m hk h := ⟨hk.tables, hk.columns, hk.roles, hk.types, h⟩

/-! ## Section edits in the registry -/

section Edits

variable {N : Type} {sec : Section N} (law : sec.Lawful) {ids : IdsFile}

include law

variable {n : N} {uid : Uid}

theorem Section.Lawful.live_eq_some {u : Uid} (hk : Kinds ids) :
    live ids u = some (sec.obj n) ↔ (sec.get ids)[u]? = some n := by
  constructor
  · intro h
    rw [law.live_get ids u ((live_kind h).trans (law.kind_obj n))] at h
    obtain ⟨m, hm, he⟩ := map_eq_some_iff.1 h
    rwa [law.obj_injective he] at hm
  · intro h
    have : u ∈ sec.get ids := by rw [mem_iff_isSome_getElem?, h]; rfl
    rw [law.live_get ids u (law.kind_of_mem ids u hk this), h]; rfl

theorem Section.Lawful.live_write {m : ExtTreeMap Uid N} {x : Option N} (hu : uid.kind = sec.kind)
    (hm : ∀ u, m[u]? = if u = uid then x else (sec.get ids)[u]?) (u : Uid) :
    live (sec.set ids m) u = if u = uid then x.map sec.obj else live ids u := by
  by_cases hk : u.kind = sec.kind
  · rw [law.live_get _ u hk, law.get_set, hm, law.live_get ids u hk]
    split <;> rfl
  · rw [law.live_set _ _ u hk, if_neg (by rintro rfl; exact hk hu)]

theorem Section.Lawful.live_insert (hu : uid.kind = sec.kind) (u : Uid) :
    live (sec.set ids ((sec.get ids).insert uid n)) u = if u = uid then some (sec.obj n) else live ids u := by
  refine law.live_write (x := some n) hu (fun u => ?_) u
  simp only [getElem?_insert, Std.LawfulEqOrd.compare_eq_iff_eq, eq_comm (a := uid)]

theorem Section.Lawful.live_erase (hu : uid.kind = sec.kind) (u : Uid) :
    live (sec.set ids ((sec.get ids).erase uid)) u = if u = uid then none else live ids u := by
  refine law.live_write (x := none) hu (fun u => ?_) u
  simp only [getElem?_erase, Std.LawfulEqOrd.compare_eq_iff_eq, eq_comm (a := uid)]

theorem Section.Lawful.kinds_insert (hk : Kinds ids) (n : N) (hu : uid.kind = sec.kind) :
    Kinds (sec.set ids ((sec.get ids).insert uid n)) := by
  refine law.kinds_set ids _ hk fun u h => ?_
  rcases mem_insert.1 h with h | h
  · rw [← Std.LawfulEqOrd.eq_of_compare h]; exact hu
  · exact law.kind_of_mem ids u hk h

theorem Section.Lawful.kinds_erase (hk : Kinds ids) (uid : Uid) : Kinds (sec.set ids ((sec.get ids).erase uid)) :=
  law.kinds_set ids _ hk fun u h => law.kind_of_mem ids u hk (mem_erase.1 h).2

end Edits

/-! ## The account of a resolution -/

section Account

variable (src : UidSource) (declared : Schema) (intents : List Intent) (ids₀ : IdsFile)

def DeclaresColumn (t : TableName) (n : ColumnName) : Prop := ∃ table, declared.tables[t]? = some table ∧ n ∈ table.columns

/-- A table's name is kept, or left for a new declared one through a rename intent. -/
def TableReach (t t' : TableName) : Prop :=
  t' = t ∨ (t ∉ declared.tables ∧ t' ∈ declared.tables ∧ (∀ u : Uid, ids₀.tables[u]? ≠ some t') ∧
    .renameTable t t' ∈ intents)

/-- A column's name within its table is kept, or left for a declared one through a rename intent. -/
def ColumnReach (t' : TableName) (n n' : ColumnName) : Prop :=
  n' = n ∨ (¬ DeclaresColumn declared t' n ∧ DeclaresColumn declared t' n' ∧ .renameColumn t' n n' ∈ intents)

/-- The names an object can be reached under: its own, or one that rename intents lead to. -/
inductive Reach : Obj → Obj → Prop
  | extension (n : ObjectLocalName) : Reach (.extension n) (.extension n)
  | type (a b : TypeRef) (h : b = a ∨ (a ∉ declared.types ∧ b ∈ declared.types ∧ .renameType a b ∈ intents)) :
      Reach (.type a) (.type b)
  | role (a b : RoleName) (h : b = a ∨ (a ∉ declared.roles ∧ b ∈ declared.roles ∧ .renameRole a b ∈ intents)) :
      Reach (.role a) (.role b)
  | table (t t' : TableName) (h : TableReach declared intents ids₀ t t') : Reach (.table t) (.table t')
  | column (c c' : ColumnRef) (ht : TableReach declared intents ids₀ c.table c'.table)
      (hc : ColumnReach declared intents c'.table c.name c'.name) : Reach (.column c) (.column c')

def Stranded (t : TableName) : Prop :=
  ∀ t' ∈ declared.tables, (∀ u : Uid, ids₀.tables[u]? ≠ some t') → .renameTable t t' ∉ intents

/-- The table is declared with columns of its own: it is not a partition. -/
def OwnsColumns (t : TableName) : Prop := ∃ table, declared.tables[t]? = some table ∧ table.partitionOf = none

def Dropped : Obj → Prop
  | .extension n => ∃ reason, .dropExtension n reason ∈ intents
  | .type n => ∃ reason, .dropType n reason ∈ intents
  | .role n => ∃ reason, .dropRole n reason ∈ intents
  | .table t => ∃ reason, .dropTable t reason ∈ intents
  | .column c =>
    (c.table ∉ declared.tables ∧ Stranded declared intents ids₀ c.table ∧ ∃ reason, .dropTable c.table reason ∈ intents) ∨
      ∃ t' reason, TableReach declared intents ids₀ c.table t' ∧ OwnsColumns declared t' ∧
        .dropColumn (t'.column c.name) reason ∈ intents

/-- The table is declared as a partition, under the name it keeps or is renamed to. -/
def BecomesPartition (t : TableName) : Prop :=
  ∃ t' table, TableReach declared intents ids₀ t t' ∧ declared.tables[t']? = some table ∧ table.partitionOf.isSome

/-- What may leave without a record: a column of a table declared as a partition, and an undeclared
extension that no drop intent names. -/
def Forgotten : Obj → Prop
  | .extension n => n ∉ declared.extensions ∧ ∀ reason, .dropExtension n reason ∉ intents
  | .column c => BecomesPartition declared intents ids₀ c.table
  | _ => False

theorem Reach.refl (o : Obj) : Reach declared intents ids₀ o o := by
  cases o with
  | extension n => exact .extension n
  | type n => exact .type n n (Or.inl rfl)
  | role n => exact .role n n (Or.inl rfl)
  | table t => exact .table t t (Or.inl rfl)
  | column c => exact .column c c (Or.inl rfl) (Or.inl rfl)

/-- What every pass keeps of a resolution that began with `ids₀`. -/
structure Sound (ids : IdsFile) : Prop where
  kinds : Kinds ids
  wf : Registry.Wf Obj.parent (registry ids)
  accounts : Registry.Accounts (Reach declared intents ids₀) (Dropped declared intents ids₀)
    (Forgotten declared intents ids₀) src.Draws (registry ids₀) (registry ids)
  tombstones : ∀ (u : Uid) t, ids₀.tombstones[u]? = some t → ids.tombstones[u]? = some t
  requires : ∀ (u : Uid) t, ids.tombstones[u]? = some t → ids₀.tombstones[u]? = some t ∨ t.require = none
  moves : ∀ u, u ∈ ids.moves → ∃ t, live ids u = some (.table t)
  version : ids.version = ids₀.version
  rebuilds : ids.rebuilds = ids₀.rebuilds
  conversions : ids.conversions = ids₀.conversions

end Account

end Pbps.Identity
