/-
The identity tree written: `split` of `ids_tree.rs`. Every record of the mapping goes to the file of one
object: an object that has a path to its own, a partition child to its parent's, a column to its table's, a
retired column to the table its tombstone names or the placement says, a rebuild to its replacement's.
-/
import Pbps.Identity.Valid
import Pbps.Tree.Assemble

namespace Pbps.Tree

open Std (ExtTreeMap ExtTreeSet)
open List Std.ExtTreeMap

/-! ## A mapping as its entries

The entries of a valid mapping have distinct keys, and adding entries of distinct keys to the empty mapping gives the mapping that
holds exactly these, in whatever order they came. -/

def Entry.In (ids : IdsFile) : Entry → Prop
  | table uid name => ids.tables[uid]? = some name
  | column uid name => ids.columns[uid]? = some name
  | role uid name => ids.roles[uid]? = some name
  | type uid name => ids.types[uid]? = some name
  | extension uid name => ids.extensions[uid]? = some name
  | tombstone uid tomb => ids.tombstones[uid]? = some tomb
  | move uid m => ids.moves[uid]? = some m
  | conversion uid c => ids.conversions[uid]? = some c
  | rebuild uid r => ids.rebuilds[uid]? = some r

def entries (ids : IdsFile) : List Entry :=
  ids.tables.toList.map (fun e => .table e.1 e.2) ++ ids.columns.toList.map (fun e => .column e.1 e.2) ++
  ids.roles.toList.map (fun e => .role e.1 e.2) ++ ids.types.toList.map (fun e => .type e.1 e.2) ++
  ids.extensions.toList.map (fun e => .extension e.1 e.2) ++ ids.tombstones.toList.map (fun e => .tombstone e.1 e.2) ++
  ids.moves.toList.map (fun e => .move e.1 e.2) ++ ids.conversions.toList.map (fun e => .conversion e.1 e.2) ++
  ids.rebuilds.toList.map fun e => .rebuild e.1 e.2

variable {ids : IdsFile} {e x : Entry}

theorem mem_entries : e ∈ entries ids ↔ e.In ids := by
  cases e <;> simp [entries, Entry.In, mem_toList_iff_getElem?_eq_some]

theorem eq_of_in {a b : IdsFile} (hversion : a.version = b.version) (h : ∀ e : Entry, e.In a ↔ e.In b) : a = b := by
  have hext : ∀ {N : Type} {m n : ExtTreeMap Uid N}, (∀ (u : Uid) (x : N), m[u]? = some x ↔ n[u]? = some x) → m = n :=
    fun hmn => ExtTreeMap.ext_getElem? fun u => Option.ext fun x => hmn u x
  obtain ⟨va, a1, a2, a3, a4, a5, a6, a7, a8, a9⟩ := a
  obtain ⟨vb, b1, b2, b3, b4, b5, b6, b7, b8, b9⟩ := b
  rw [IdsFile.mk.injEq]
  exact ⟨hversion, hext fun u x => h (.table u x), hext fun u x => h (.column u x), hext fun u x => h (.role u x),
    hext fun u x => h (.type u x), hext fun u x => h (.extension u x), hext fun u x => h (.tombstone u x),
    hext fun u x => h (.move u x), hext fun u x => h (.rebuild u x), hext fun u x => h (.conversion u x)⟩

theorem in_add_self (ids : IdsFile) (e : Entry) : e.In (Entry.add ids e) := by
  cases e <;> exact getElem?_insert_self

theorem in_of_in_add (h : x.In (Entry.add ids e)) : x = e ∨ x.In ids := by
  cases e <;> cases x <;>
    first
      | exact .inr h
      | (simp only [Entry.In, Entry.add, getElem?_insert_eq_some] at h ⊢
         rcases h with ⟨rfl, rfl⟩ | ⟨-, h⟩
         · exact .inl rfl
         · exact .inr h)

theorem in_add_of_ne (hkey : x.key ≠ e.key) (h : x.In ids) : x.In (Entry.add ids e) := by
  cases e <;> cases x <;>
    first
      | exact h
      | (simp only [Entry.key, ne_eq, Prod.mk.injEq, true_and] at hkey
         simp only [Entry.In, Entry.add] at h ⊢
         rwa [getElem?_insert_of_ne hkey])

theorem version_foldl_add (l : List Entry) (ids : IdsFile) : (l.foldl Entry.add ids).version = ids.version := by
  induction l generalizing ids with
  | nil => rfl
  | cons e l ih =>
    rw [foldl_cons, ih]
    cases e <;> rfl

theorem in_foldl_add {l : List Entry} (hl : (l.map Entry.key).Nodup) (x : Entry) : x.In (l.foldl Entry.add {}) ↔ x ∈ l := by
  induction l using reverseRecOn with
  | nil => cases x <;> simp [Entry.In]
  | append_singleton l e ih =>
    rw [map_append, map_cons, map_nil, nodup_append', disjoint_singleton] at hl
    obtain ⟨hnodup, -, hnew⟩ := hl
    rw [foldl_append, foldl_cons, foldl_nil, mem_append, mem_singleton]
    constructor
    · intro h
      rcases in_of_in_add h with rfl | h
      · exact .inr rfl
      · exact .inl ((ih hnodup).1 h)
    · rintro (h | rfl)
      · exact in_add_of_ne (fun hkey => hnew (List.mem_map.2 ⟨x, h, hkey⟩)) ((ih hnodup).2 h)
      · exact in_add_self _ _

theorem foldl_add_entries {l : List Entry} (hversion : ids.version = CURRENT_VERSION) (hperm : l.Perm (entries ids))
    (hl : (l.map Entry.key).Nodup) : l.foldl Entry.add {} = ids := by
  apply eq_of_in
  · rw [version_foldl_add, hversion]
  · intro e
    rw [in_foldl_add hl, hperm.mem_iff, mem_entries]

/-! ## The entries of a valid mapping -/

theorem nodup_map_toList {N : Type} {m : ExtTreeMap Uid N} {f : Uid × N → Entry} (hf : Function.Injective f) :
    (m.toList.map f).Nodup := (nodup_toList).map hf

theorem nodup_entries (ids : IdsFile) : (entries ids).Nodup := by
  have hinj : ∀ {N : Type} {f : Uid → N → Entry}, (∀ u x v y, f u x = f v y → u = v ∧ x = y) →
      Function.Injective fun e : Uid × N => f e.1 e.2 :=
    fun hf a b hab => Prod.ext (hf _ _ _ _ hab).1 (hf _ _ _ _ hab).2
  rw [entries]
  repeat' rw [nodup_append']
  refine ⟨⟨⟨⟨⟨⟨⟨⟨?_, ?_, ?_⟩, ?_, ?_⟩, ?_, ?_⟩, ?_, ?_⟩, ?_, ?_⟩, ?_, ?_⟩, ?_, ?_⟩, ?_, ?_⟩
  -- A section's entries are distinct as its keys are, and two sections' as their constructors are.
  all_goals first
    | (apply nodup_map_toList
       apply hinj
       intro u x v y h
       injection h with h1 h2
       exact ⟨h1, h2⟩)
    | (rw [disjoint_left]
       intro e he hx
       cases e <;> simp at he hx)

def Entry.liveKind : Entry → Option UidKind
  | table _ _ => some .table
  | column _ _ => some .column
  | role _ _ => some .role
  | type _ _ => some .type
  | extension _ _ => some .extension
  | _ => none

theorem liveKind_eq (h : Valid ids) (he : e.In ids) (hkey : e.key.1 = .identity) :
    e.liveKind = if e.key.2 ∈ ids.tombstones then none else some e.key.2.kind := by
  have hlive : ∀ {u : Uid}, ids.isLive u = true → u ∉ ids.tombstones := by
    intro u hu ht
    rw [h.apart u ht] at hu
    cases hu
  have hmem : ∀ {N : Type} {m : ExtTreeMap Uid N} {u : Uid} {x : N}, m[u]? = some x → u ∈ m := mem_of_getElem?_eq
  cases e with
  | table u n =>
    rw [if_neg (hlive (by simp [IdsFile.isLive, Entry.key, hmem he])), Entry.liveKind, Entry.key, h.kinds.tables u (hmem he)]
  | column u n =>
    rw [if_neg (hlive (by simp [IdsFile.isLive, Entry.key, hmem he])), Entry.liveKind, Entry.key, h.kinds.columns u (hmem he)]
  | role u n =>
    rw [if_neg (hlive (by simp [IdsFile.isLive, Entry.key, hmem he])), Entry.liveKind, Entry.key, h.kinds.roles u (hmem he)]
  | type u n =>
    rw [if_neg (hlive (by simp [IdsFile.isLive, Entry.key, hmem he])), Entry.liveKind, Entry.key, h.kinds.types u (hmem he)]
  | extension u n =>
    rw [if_neg (hlive (by simp [IdsFile.isLive, Entry.key, hmem he])), Entry.liveKind, Entry.key, h.kinds.extensions u (hmem he)]
  | tombstone u t => exact (if_pos (hmem he)).symm
  | move u m => cases hkey
  | conversion u c => cases hkey
  | rebuild u r => cases hkey

theorem in_unique (h : Valid ids) (he : e.In ids) (hx : x.In ids) (hkey : e.key = x.key) : e = x := by
  have hkind : e.key.1 = .identity → e.liveKind = x.liveKind := by
    intro hidentity
    rw [liveKind_eq h he hidentity, liveKind_eq h hx (hkey ▸ hidentity), hkey]
  cases e <;> cases x <;> simp only [Entry.key, Prod.mk.injEq, reduceCtorEq, false_and, true_and] at hkey <;>
    simp only [Entry.key, Entry.liveKind, reduceCtorEq, Option.some.injEq, imp_false, not_true_eq_false] at hkind
  all_goals
    subst hkey
    have heq := Option.some.inj (Eq.trans (Eq.symm he) hx)
    rw [heq]

theorem nodup_keys_entries (h : Valid ids) : ((entries ids).map Entry.key).Nodup :=
  Nodup.map_on (fun _ he _ hx hkey => in_unique h (mem_entries.1 he) (mem_entries.1 hx) hkey) (nodup_entries ids)

/-! ## The files of a mapping -/

/-- Where each object lives, decided by the caller from the declaration paths. -/
structure Placement where
  paths : ExtTreeMap Uid String := ∅
  children : ExtTreeMap Uid Uid := ∅
  order : ExtTreeMap Uid (List Uid) := ∅
  owners : ExtTreeMap Uid Uid := ∅

def Placement.primary (p : Placement) (uid : Uid) : Bool := p.paths.contains uid

/-- A record and the object whose file it goes to. -/
structure Owned (V : Type) where
  owner : Uid
  uid : Uid
  value : V

/-! ## Objects -/

def tombstoneBody (uid : Uid) (tomb : Tombstone) : Option Body :=
  match uid.kind with
  | .table => some (.table { table := tomb.was })
  | .role => some (.role tomb.was)
  | .type => some (.type tomb.was)
  | .extension => some (.extension tomb.was)
  | .column => none

/-- Every object of the mapping, live and dropped, as a file of its own would begin. -/
def objects (ids : IdsFile) : List TreeFile :=
  (ids.tables.toList.map fun e => ⟨e.1, .table { table := e.2.raw }, none⟩) ++
  (ids.roles.toList.map fun e => ⟨e.1, .role e.2, none⟩) ++
  (ids.types.toList.map fun e => ⟨e.1, .type e.2.raw, none⟩) ++
  (ids.extensions.toList.map fun e => ⟨e.1, .extension e.2, none⟩) ++
  ids.tombstones.toList.filterMap fun e => (tombstoneBody e.1 e.2).map fun body => ⟨e.1, body, some e.2⟩

def Body.isTable : Body → Bool
  | .table _ => true
  | _ => false

/-- A file for each object that has a path; another has to be a table's partition. -/
def placeObjects (p : Placement) (files : ExtTreeMap Uid TreeFile) (file : TreeFile) :
    Except TreeError (ExtTreeMap Uid TreeFile) :=
  if p.primary file.uid then .ok (files.insert file.uid file)
  else if file.body.isTable && p.children.contains file.uid then .ok files
  else .error (.noPath file.uid)

/-! ## Records -/

section Records

variable (ids : IdsFile) (p : Placement) (files : ExtTreeMap Uid TreeFile)

def tableFile (uid : Uid) : Except TreeError Unit :=
  if (files[uid]?).any (·.body.isTable) then pure () else throw (.noPath uid)

def liveByName : ExtTreeMap TableName Uid := .ofList (ids.tables.toList.map fun e => (e.2, e.1))

def tablesNamed (name : TableName) : List Uid :=
  (ids.tables.toList.filter fun e => e.2 = name).map (·.1) ++
  (ids.tombstones.toList.filter fun e => e.1.kind = .table && (TableName.parse e.2.was).toOption == some name).map (·.1)

def placeColumn (e : Uid × ColumnRef) : Except TreeError (Owned Rec) :=
  match (liveByName ids)[e.2.table]? with
  | none => throw (.noPath e.1)
  | some owner => do
    tableFile files owner
    return ⟨owner, e.1, .live e.2.name⟩

/-- A tombstone's record: in a table's columns, in its partitions, or in a file of its own. -/
inductive Kept where
  | column (record : Owned Rec)
  | partition (record : Owned Rec)
  | elsewhere

/-- The table that a retired column belonged to: the one placed for it, or the only one under its name. -/
def retiredOwner (uid : Uid) (tomb : Tombstone) : Except TreeError Uid :=
  match p.owners[uid]? with
  | some owner => pure owner
  | none =>
    match (ColumnRef.parse tomb.was).toOption.map fun c => tablesNamed ids c.table with
    | some [only] => pure only
    | _ => throw (.unownedTombstone uid)

def keepTombstone (e : Uid × Tombstone) : Except TreeError Kept :=
  match e.1.kind with
  | .column => do
    let owner ← retiredOwner ids p e.1 e.2
    tableFile files owner
    return .column ⟨owner, e.1, .dead e.2⟩
  | .table =>
    if p.primary e.1 then pure .elsewhere
    else
      match p.children[e.1]? with
      | none => throw (.noPath e.1)
      | some parent => do
        tableFile files parent
        return .partition ⟨parent, e.1, .dead e.2⟩
  | _ => pure .elsewhere

def Kept.column? : Kept → Option (Owned Rec)
  | .column r => some r
  | _ => none

def Kept.partition? : Kept → Option (Owned Rec)
  | .partition r => some r
  | _ => none

def placeChild (e : Uid × Uid) : Except TreeError (Option (Owned Rec)) :=
  match ids.tables[e.1]? with
  | none => pure none
  | some name => do
    tableFile files e.2
    return some ⟨e.2, e.1, .live name.raw⟩

def home (uid : Uid) : Option Uid :=
  if p.primary uid then some uid else (p.children[uid]?).filter p.primary

def placeMove (e : Uid × Move) : Except TreeError (Owned Move) :=
  match home p e.1 with
  | none => throw (.noPath e.1)
  | some owner => pure ⟨owner, e.1, e.2⟩

/-- A conversion goes to its column's table; a validated mapping holds both. -/
def placeConversion (e : Uid × Conversion) : Except TreeError (Owned Conversion) :=
  match (ids.columns[e.1]?).bind fun c => (liveByName ids)[c.table]? with
  | none => throw (.noPath e.1)
  | some owner => pure ⟨owner, e.1, e.2⟩

def placeRebuild (e : Uid × Rebuild) : Except TreeError (Owned Rebuild) := do
  tableFile files e.2.replacementRoot
  return ⟨e.2.replacementRoot, e.1, e.2⟩

end Records

/-! ## Files -/

def ordered {V : Type} (records : List (Uid × V)) (order : Option (List Uid)) : List (Uid × V) :=
  let rank (u : Uid) : Nat := match (order.getD []).reverse.findIdx? (· = u) with
    | some i => (order.getD []).length - 1 - i
    | none => (order.getD []).length
  records.insertionSort fun a b => rank a.1 < rank b.1 ∨ (rank a.1 = rank b.1 ∧ compare a.1 b.1 ≠ .gt)

def ownedBy {V : Type} (records : List (Owned V)) (owner : Uid) : List (Uid × V) :=
  (records.filter (·.owner = owner)).map fun r => (r.uid, r.value)

/-- The records of every file. -/
structure Records where
  columns : List (Owned Rec)
  partitions : List (Owned Rec)
  moves : List (Owned Move)
  conversions : List (Owned Conversion)
  rebuilds : List (Owned Rebuild)

def fill (p : Placement) (r : Records) (file : TreeFile) : TreeFile :=
  match file.body with
  | .table t => { file with body := .table { t with
      columns := ordered (ownedBy r.columns file.uid) p.order[file.uid]?
      partitions := ordered (ownedBy r.partitions file.uid) none
      moves := ordered (ownedBy r.moves file.uid) none
      conversions := ordered (ownedBy r.conversions file.uid) none
      rebuilds := ordered (ownedBy r.rebuilds file.uid) none } }
  | _ => file

/-- The files with their paths, no two at one path and each checked. -/
def writeFiles (p : Placement) (r : Records) (taken : ExtTreeMap String Uid) :
    List (Uid × TreeFile) → Except TreeError (List (String × TreeFile))
  | [] => pure []
  | (uid, file) :: rest =>
    match p.paths[uid]? with
    | none => throw (.noPath uid)
    | some path =>
      match taken[path]? with
      | some other => throw (.pathCollision path other uid)
      | none => do
        check path (fill p r file)
        let written ← writeFiles p r (taken.insert path uid) rest
        return (path, fill p r file) :: written

def collectRecords (ids : IdsFile) (p : Placement) (files : ExtTreeMap Uid TreeFile) : Except TreeError Records := do
  let live ← ids.columns.toList.mapM (placeColumn ids files)
  let kept ← ids.tombstones.toList.mapM (keepTombstone ids p files)
  let children ← p.children.toList.mapM (placeChild ids files)
  let moves ← ids.moves.toList.mapM (placeMove p)
  let conversions ← ids.conversions.toList.mapM (placeConversion ids)
  let rebuilds ← ids.rebuilds.toList.mapM (placeRebuild files)
  return {
    columns := live ++ kept.filterMap Kept.column?
    partitions := kept.filterMap Kept.partition? ++ children.filterMap id
    moves, conversions, rebuilds }

def splitFiles (ids : IdsFile) (p : Placement) : Except TreeError (List (String × TreeFile)) := do
  ids.validate.mapError .ids
  let files ← (objects ids).foldlM (placeObjects p) ∅
  match p.paths.keys.find? fun uid => !files.contains uid with
  | some uid => throw (.unknownPath uid)
  | none => pure ()
  let records ← collectRecords ids p files
  writeFiles p records ∅ files.toList

/-- `split`: relative path to canonical file text. -/
def split (serde : Serde) (ids : IdsFile) (p : Placement) : Except TreeError (ExtTreeMap String String) := do
  let files ← splitFiles ids p
  return .ofList (files.map fun e => (e.1, render serde e.2))

end Pbps.Tree
