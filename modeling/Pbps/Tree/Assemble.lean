/-
The identity tree read: `assemble` of `ids_tree.rs`. Each file claims the uids it lists, in the space of their section, and
adds its records to the one mapping; a uid claimed twice in one space is refused.
-/
import Pbps.Tree.Accept

namespace Pbps.Tree

open Std (ExtTreeMap)
open List

/-- The spaces of claims: one for identities, and one each for the records keyed by an identity's uid. -/
inductive Space where
  | identity
  | moves
  | conversions
  | rebuilds
  deriving DecidableEq, Repr

/-- The mapping so far, and the first path of each claim. -/
structure Gathered where
  ids : IdsFile := {}
  seen : List ((Space × Uid) × String) := []

def claim (path : String) (space : Space) (uid : Uid) (g : Gathered) : Except TreeError Gathered :=
  match g.seen.find? fun e => e.1 = (space, uid) with
  | some first => .error (.duplicateUid uid first.2 path)
  | none => .ok { g with seen := ((space, uid), path) :: g.seen }

def gatherSection {V : Type} (path : String) (space : Space) (add : IdsFile → Uid → V → Except TreeError IdsFile)
    (g : Gathered) (records : List (Uid × V)) : Except TreeError Gathered :=
  records.foldlM (fun g e => do
    let g ← claim path space e.1 g
    let ids ← add g.ids e.1 e.2
    return { g with ids }) g

/-- A name that a file spells. The text of a refusal says the name; the reader's own words are not kept. -/
def spelledName {ε α : Type} (path name : String) (read : String → Except ε α) : Except TreeError α :=
  match read name with
  | .ok a => .ok a
  | .error _ => .error (.malformed path s!"name: {name}")

def addColumn (table : TableName) (ids : IdsFile) (uid : Uid) : Rec → Except TreeError IdsFile
  | .live name => pure { ids with columns := ids.columns.insert uid ⟨table, name⟩ }
  | .dead tomb => pure { ids with tombstones := ids.tombstones.insert uid tomb }

def addPartition (path : String) (ids : IdsFile) (uid : Uid) : Rec → Except TreeError IdsFile
  | .live name => do
    let table ← spelledName path name TableName.parse
    return { ids with tables := ids.tables.insert uid table }
  | .dead tomb => pure { ids with tombstones := ids.tombstones.insert uid tomb }

def gatherSections (path : String) (table : TableName) (t : TableBody) (g : Gathered) : Except TreeError Gathered := do
  let g ← gatherSection path .identity (addColumn table) g t.columns
  let g ← gatherSection path .identity (addPartition path) g t.partitions
  let g ← gatherSection path .moves (fun ids uid m => pure { ids with moves := ids.moves.insert uid m }) g t.moves
  let g ← gatherSection path .conversions (fun ids uid c => pure { ids with conversions := ids.conversions.insert uid c }) g
    t.conversions
  gatherSection path .rebuilds (fun ids uid r => pure { ids with rebuilds := ids.rebuilds.insert uid r }) g t.rebuilds

def gatherTable (path : String) (uid : Uid) (t : TableBody) (dropped : Option Tombstone) (g : Gathered) :
    Except TreeError Gathered := do
  -- A dropped file has no live column to name a table for.
  let table ← if dropped.isNone then spelledName path t.table TableName.parse else pure ⟨"", ""⟩
  gatherSections path table t
    (if dropped.isNone then { g with ids := { g.ids with tables := g.ids.tables.insert uid table } } else g)

def gather (g : Gathered) (path : String) (file : TreeFile) : Except TreeError Gathered := do
  let g ← claim path .identity file.uid g
  let g ← match file.body, file.dropped with
    | .role n, none => pure { g with ids := { g.ids with roles := g.ids.roles.insert file.uid n } }
    | .type n, none => do
      let name ← spelledName path n TypeRef.parse
      pure { g with ids := { g.ids with types := g.ids.types.insert file.uid name } }
    | .extension n, none => pure { g with ids := { g.ids with extensions := g.ids.extensions.insert file.uid n } }
    | .table t, dropped => gatherTable path file.uid t dropped g
    | _, some _ => pure g
  match file.dropped with
  | some tomb => return { g with ids := { g.ids with tombstones := g.ids.tombstones.insert file.uid tomb } }
  | none => return g

/-- `assemble`: the whole tree as one mapping, validated. -/
def assemble (serde : Serde) (files : ExtTreeMap String String) : Except TreeError IdsFile := do
  let g ← files.toList.foldlM (fun (g : Gathered) e => do
    let file ← parse serde e.1 e.2
    gather g e.1 file) {}
  g.ids.validate.mapError .ids
  return g.ids

/-! ## What a file claims and adds -/

/-- One record of the mapping. -/
inductive Entry where
  | table (uid : Uid) (name : TableName)
  | column (uid : Uid) (name : ColumnRef)
  | role (uid : Uid) (name : RoleName)
  | type (uid : Uid) (name : TypeRef)
  | extension (uid : Uid) (name : ObjectLocalName)
  | tombstone (uid : Uid) (tomb : Tombstone)
  | move (uid : Uid) (move : Move)
  | conversion (uid : Uid) (conversion : Conversion)
  | rebuild (uid : Uid) (rebuild : Rebuild)

namespace Entry

def key : Entry → Space × Uid
  | table uid _ | column uid _ | role uid _ | type uid _ | extension uid _ | tombstone uid _ => (.identity, uid)
  | move uid _ => (.moves, uid)
  | conversion uid _ => (.conversions, uid)
  | rebuild uid _ => (.rebuilds, uid)

def add (ids : IdsFile) : Entry → IdsFile
  | table uid name => { ids with tables := ids.tables.insert uid name }
  | column uid name => { ids with columns := ids.columns.insert uid name }
  | role uid name => { ids with roles := ids.roles.insert uid name }
  | type uid name => { ids with types := ids.types.insert uid name }
  | extension uid name => { ids with extensions := ids.extensions.insert uid name }
  | tombstone uid tomb => { ids with tombstones := ids.tombstones.insert uid tomb }
  | move uid m => { ids with moves := ids.moves.insert uid m }
  | conversion uid c => { ids with conversions := ids.conversions.insert uid c }
  | rebuild uid r => { ids with rebuilds := ids.rebuilds.insert uid r }

end Entry

def columnEntry (table : TableName) : Uid × Rec → Entry
  | (uid, .live name) => .column uid ⟨table, name⟩
  | (uid, .dead tomb) => .tombstone uid tomb

def partitionEntry : Uid × Rec → Option Entry
  | (uid, .live name) => (TableName.parse name).toOption.map (.table uid)
  | (uid, .dead tomb) => some (.tombstone uid tomb)

/-- A table's name as its file says it; a dropped one's stands for none. -/
def TreeFile.tableName (file : TreeFile) (t : TableBody) : TableName :=
  match file.dropped with
  | none => (TableName.parse t.table).toOption.getD ⟨"", ""⟩
  | some _ => ⟨"", ""⟩

def TableBody.entries (table : TableName) (t : TableBody) : List Entry :=
  t.columns.map (columnEntry table) ++ t.partitions.filterMap partitionEntry ++ t.moves.map (fun e => .move e.1 e.2) ++
    t.conversions.map (fun e => .conversion e.1 e.2) ++ t.rebuilds.map fun e => .rebuild e.1 e.2

def TreeFile.liveEntry (file : TreeFile) : Option Entry :=
  match file.dropped, file.body with
  | some _, _ => none
  | none, .table t => (TableName.parse t.table).toOption.map (.table file.uid)
  | none, .role n => some (.role file.uid n)
  | none, .type n => (TypeRef.parse n).toOption.map (.type file.uid)
  | none, .extension n => some (.extension file.uid n)

def TreeFile.entries (file : TreeFile) : List Entry :=
  file.liveEntry.toList ++
    (match file.body with
      | .table t => t.entries (file.tableName t)
      | _ => []) ++
    (file.dropped.map (.tombstone file.uid)).toList

def TableBody.claims (t : TableBody) : List (Space × Uid) :=
  t.columns.map (fun e => (.identity, e.1)) ++ t.partitions.map (fun e => (.identity, e.1)) ++
    t.moves.map (fun e => (.moves, e.1)) ++ t.conversions.map (fun e => (.conversions, e.1)) ++
    t.rebuilds.map fun e => (.rebuilds, e.1)

def TreeFile.claims (file : TreeFile) : List (Space × Uid) :=
  (.identity, file.uid) :: match file.body with
    | .table t => t.claims
    | _ => []

/-! ## Steps that claim and add -/

def Gathered.keys (g : Gathered) : List (Space × Uid) := g.seen.map (·.1)

def Fresh (ks seen : List (Space × Uid)) : Prop := ks.Nodup ∧ ks.Disjoint seen

variable {ks : List (Space × Uid)} {records : List (Uid × Rec)} {files : ExtTreeMap String String}

theorem fresh_append {ks' seen : List (Space × Uid)} : Fresh (ks ++ ks') seen ↔ Fresh ks seen ∧ Fresh ks' (ks ++ seen) := by
  simp only [Fresh, nodup_append', disjoint_append_left, disjoint_append_right]
  have := @List.disjoint_comm _ ks ks'
  tauto

/-- A step that makes exactly these claims and adds exactly these entries: it passes if the claims are fresh, and
only then. -/
def Absorbs (step : Gathered → Except TreeError Gathered) (ks : List (Space × Uid)) (es : List Entry) : Prop :=
  ∀ g, (Fresh ks g.keys → ∃ g', step g = .ok g') ∧
    ∀ g', step g = .ok g' → Fresh ks g.keys ∧ g'.ids = es.foldl Entry.add g.ids ∧ g'.keys.Perm (ks ++ g.keys)

namespace Absorbs

variable {step step' : Gathered → Except TreeError Gathered} {ks ks' : List (Space × Uid)} {es es' : List Entry}

theorem pure : Absorbs .ok [] [] := by
  intro g
  refine ⟨fun _ => ⟨g, rfl⟩, fun g' h => ?_⟩
  cases h
  exact ⟨⟨.nil, by simp⟩, rfl, .refl _⟩

theorem bind (h : Absorbs step ks es) (h' : Absorbs step' ks' es') :
    Absorbs (fun g => step g >>= step') (ks ++ ks') (es ++ es') := by
  intro g
  constructor
  · intro hfresh
    obtain ⟨hks, hks'⟩ := fresh_append.1 hfresh
    obtain ⟨g1, h1⟩ := (h g).1 hks
    have hperm := ((h g).2 g1 h1).2.2
    obtain ⟨g2, h2⟩ := (h' g1).1 ⟨hks'.1, fun k hk hk1 => hks'.2 hk (hperm.mem_iff.1 hk1)⟩
    exact ⟨g2, Except.bind_eq_ok_iff.2 ⟨g1, h1, h2⟩⟩
  · intro g2 h2
    obtain ⟨g1, h1, h2⟩ := Except.bind_eq_ok_iff.1 h2
    obtain ⟨hks, hids, hperm⟩ := (h g).2 g1 h1
    obtain ⟨hks', hids', hperm'⟩ := (h' g1).2 g2 h2
    refine ⟨fresh_append.2 ⟨hks, hks'.1, fun k hk hk1 => hks'.2 hk (hperm.mem_iff.2 hk1)⟩, ?_, ?_⟩
    · rw [hids', hids, foldl_append]
    · calc g2.keys.Perm (ks' ++ g1.keys) := hperm'
        _ |>.Perm (ks' ++ (ks ++ g.keys)) := hperm.append_left ks'
        _ |>.Perm (ks ++ ks' ++ g.keys) := by
          rw [← append_assoc]
          exact perm_append_comm.append_right _

theorem foldlM {α : Type} {step : Gathered → α → Except TreeError Gathered} {ks : α → List (Space × Uid)} {es : α → List Entry}
    {l : List α} (h : ∀ a ∈ l, Absorbs (step · a) (ks a) (es a)) :
    Absorbs (fun g => l.foldlM step g) (l.flatMap ks) (l.flatMap es) := by
  induction l with
  | nil => exact pure
  | cons a l ih =>
    rw [forall_mem_cons] at h
    exact bind h.1 (ih h.2)

end Absorbs

variable (path : String) (table : TableName)

theorem absorbs_claim (space : Space) (uid : Uid) : Absorbs (claim path space uid) [(space, uid)] [] := by
  intro g
  have hfound : (g.seen.find? fun e => e.1 = (space, uid)) = none ↔ (space, uid) ∉ g.keys := by
    rw [List.find?_eq_none, Gathered.keys, mem_map]
    simp only [decide_eq_true_eq, not_exists, not_and]
  rw [claim]
  constructor
  · rintro ⟨-, hfresh⟩
    rw [hfound.2 (by simpa using hfresh)]
    exact ⟨_, rfl⟩
  · intro g' h
    split at h
    · cases h
    · next hnone =>
      cases h
      exact ⟨⟨by simp, by simpa using hfound.1 hnone⟩, rfl, .refl _⟩

theorem absorbs_adds {f : Gathered → Gathered} {es : List Entry} (hkeys : ∀ g, (f g).keys = g.keys)
    (hids : ∀ g, (f g).ids = es.foldl Entry.add g.ids) : Absorbs (fun g => .ok (f g)) [] es := by
  intro g
  refine ⟨fun _ => ⟨_, rfl⟩, fun g' h => ?_⟩
  cases h
  exact ⟨⟨.nil, by simp⟩, hids g, by rw [hkeys]; exact .refl _⟩

section Sections

variable {V : Type} {path : String} {space : Space} {add : IdsFile → Uid → V → Except TreeError IdsFile}

theorem absorbs_record {e : Uid × V} {es : List Entry} (hadd : ∀ ids, add ids e.1 e.2 = .ok (es.foldl Entry.add ids)) :
    Absorbs (fun g => do
      let g ← claim path space e.1 g
      let ids ← add g.ids e.1 e.2
      return { g with ids }) [(space, e.1)] es := by
  have hput : Absorbs (fun g => do
      let ids ← add g.ids e.1 e.2
      return { g with ids }) [] es := by
    have hok : (fun g : Gathered => (do
        let ids ← add g.ids e.1 e.2
        return { g with ids } : Except TreeError Gathered)) = fun g => .ok { g with ids := es.foldl Entry.add g.ids } := by
      funext g
      rw [hadd]
      rfl
    rw [hok]
    exact absorbs_adds (fun _ => rfl) fun _ => rfl
  exact (absorbs_claim path space e.1).bind hput

theorem absorbs_section {records : List (Uid × V)} {es : Uid × V → List Entry}
    (hadd : ∀ e ∈ records, ∀ ids, add ids e.1 e.2 = .ok ((es e).foldl Entry.add ids)) :
    Absorbs (fun g => gatherSection path space add g records) (records.map fun e => (space, e.1)) (records.flatMap es) := by
  rw [map_eq_flatMap]
  exact Absorbs.foldlM fun e he => absorbs_record (hadd e he)

theorem absorbs_section_one (path : String) (space : Space) (add : IdsFile → Uid → V → Except TreeError IdsFile)
    (entry : Uid × V → Entry) (records : List (Uid × V)) (hadd : ∀ e ids, add ids e.1 e.2 = .ok (Entry.add ids (entry e))) :
    Absorbs (fun g => gatherSection path space add g records) (records.map fun e => (space, e.1)) (records.map entry) := by
  rw [map_eq_flatMap (f := entry)]
  exact absorbs_section fun e _ ids => hadd e ids

end Sections

theorem spelledName_eq {ε α : Type} {path name : String} {read : String → Except ε α} {a : α} (h : read name = .ok a) :
    spelledName path name read = .ok a := by
  rw [spelledName, h]

/-- The names that a file's reading needs. -/
structure TreeFile.Readable (file : TreeFile) : Prop where
  table : ∀ t, file.body = .table t → file.dropped = none → ∃ name, TableName.parse t.table = .ok name
  type : ∀ n, file.body = .type n → file.dropped = none → ∃ name, TypeRef.parse n = .ok name
  partitions : ∀ t, file.body = .table t → ∀ e ∈ t.partitions, ∀ n, e.2 = .live n → ∃ name, TableName.parse n = .ok name

theorem absorbs_partitions (h : ∀ e ∈ records, ∀ n, e.2 = .live n → ∃ name, TableName.parse n = .ok name) :
    Absorbs (fun g => gatherSection path .identity (addPartition path) g records) (records.map fun e => (.identity, e.1))
      (records.filterMap partitionEntry) := by
  rw [filterMap_eq_flatMap_toList]
  apply absorbs_section
  rintro ⟨uid, r⟩ he ids
  cases r with
  | dead tomb => rfl
  | live name =>
    obtain ⟨table, htable⟩ := h _ he name rfl
    simp only [addPartition, spelledName_eq htable, partitionEntry, htable]
    rfl

variable {t : TableBody} {file : TreeFile} {serde : Serde}

theorem absorbs_sections (h : ∀ e ∈ t.partitions, ∀ n, e.2 = .live n → ∃ name, TableName.parse n = .ok name) :
    Absorbs (gatherSections path table t) t.claims (t.entries table) := by
  have hcolumns : Absorbs (fun g => gatherSection path .identity (addColumn table) g t.columns)
      (t.columns.map fun e => (.identity, e.1)) (t.columns.map (columnEntry table)) := by
    apply absorbs_section_one
    rintro ⟨uid, r⟩ ids
    cases r <;> rfl
  have hmoves := absorbs_section_one path .moves (fun ids uid m => pure { ids with moves := ids.moves.insert uid m })
    (fun e => .move e.1 e.2) t.moves fun _ _ => rfl
  have hconversions := absorbs_section_one path .conversions
    (fun ids uid c => pure { ids with conversions := ids.conversions.insert uid c }) (fun e => .conversion e.1 e.2)
    t.conversions fun _ _ => rfl
  have hrebuilds := absorbs_section_one path .rebuilds (fun ids uid r => pure { ids with rebuilds := ids.rebuilds.insert uid r })
    (fun e => .rebuild e.1 e.2) t.rebuilds fun _ _ => rfl
  have hpartitions := absorbs_partitions path h
  have hall := hcolumns.bind (hpartitions.bind (hmoves.bind (hconversions.bind hrebuilds)))
  rw [TableBody.claims, TableBody.entries]
  simp only [append_assoc]
  exact hall

theorem absorbs_gatherTable {uid : Uid} {dropped : Option Tombstone} (h : (TreeFile.mk uid (.table t) dropped).Readable) :
    Absorbs (gatherTable path uid t dropped) t.claims
      ((TreeFile.mk uid (.table t) dropped).liveEntry.toList ++ t.entries ((TreeFile.mk uid (.table t) dropped).tableName t)) := by
  cases dropped with
  | some tomb => exact absorbs_sections path ⟨"", ""⟩ (h.partitions t rfl)
  | none =>
    obtain ⟨name, hname⟩ := h.table t rfl rfl
    have hlive : Absorbs (fun g => .ok { g with ids := { g.ids with tables := g.ids.tables.insert uid name } }) []
        [.table uid name] := absorbs_adds (fun _ => rfl) fun _ => rfl
    have hsections := hlive.bind (absorbs_sections path name (h.partitions t rfl))
    have hstep : gatherTable path uid t none = fun g => gatherSections path name t
        { g with ids := { g.ids with tables := g.ids.tables.insert uid name } } := by
      funext g
      simp only [gatherTable, Option.isNone_none, if_true, spelledName_eq hname]
      rfl
    rw [hstep]
    simp only [TreeFile.liveEntry, TreeFile.tableName, hname]
    exact hsections

theorem absorbs_gather (h : file.Readable) : Absorbs (fun g => gather g path file) file.claims file.entries := by
  obtain ⟨uid, body, dropped⟩ := file
  have hclaim := absorbs_claim path .identity uid
  have hdropped : ∀ tomb, Absorbs (fun g => .ok { g with ids := { g.ids with tombstones := g.ids.tombstones.insert uid tomb } })
      [] [.tombstone uid tomb] := fun tomb => absorbs_adds (fun _ => rfl) fun _ => rfl
  cases body with
  | table t =>
    cases dropped with
    | none =>
      have htable := hclaim.bind ((absorbs_gatherTable path h).bind Absorbs.pure)
      simp only [TreeFile.claims, TreeFile.entries, Option.map_none, Option.toList_none, append_nil]
      rw [append_nil, append_nil] at htable
      exact htable
    | some tomb =>
      have htable := hclaim.bind ((absorbs_gatherTable path h).bind (hdropped tomb))
      rw [append_nil] at htable
      exact htable
  | role n =>
    cases dropped with
    | some tomb => exact hclaim.bind (hdropped tomb)
    | none =>
      have hlive : Absorbs (fun g => .ok { g with ids := { g.ids with roles := g.ids.roles.insert uid n } }) []
          [.role uid n] := absorbs_adds (fun _ => rfl) fun _ => rfl
      exact hclaim.bind hlive
  | extension n =>
    cases dropped with
    | some tomb => exact hclaim.bind (hdropped tomb)
    | none =>
      have hlive : Absorbs (fun g => .ok { g with ids := { g.ids with extensions := g.ids.extensions.insert uid n } }) []
          [.extension uid n] := absorbs_adds (fun _ => rfl) fun _ => rfl
      exact hclaim.bind hlive
  | type n =>
    cases dropped with
    | some tomb => exact hclaim.bind (hdropped tomb)
    | none =>
      obtain ⟨name, hname⟩ := h.type n rfl rfl
      have hlive : Absorbs (fun g => .ok { g with ids := { g.ids with types := g.ids.types.insert uid name } }) []
          [.type uid name] := absorbs_adds (fun _ => rfl) fun _ => rfl
      have htype := hclaim.bind hlive
      simp only [TreeFile.claims, TreeFile.entries, TreeFile.liveEntry, hname, gather, spelledName_eq hname]
      exact htype

/-! ## A tree of files -/

theorem TreeFile.Rules.readable (h : file.Rules) : file.Readable where
  table t ht hd := by
    have := h.name
    rw [ht, hd] at this
    exact this
  type n hn hd := by
    have := h.name
    rw [hn, hd] at this
    exact this
  partitions t ht e he n hn := by
    have := (h.sections t ht).partitions e he
    rw [hn] at this
    exact this

theorem columnEntry_key (e : Uid × Rec) : (columnEntry table e).key = (.identity, e.1) := by
  obtain ⟨uid, r⟩ := e
  cases r <;> rfl

theorem partitionEntry_eq {e : Uid × Rec} (h : ∀ n, e.2 = .live n → ∃ name, TableName.parse n = .ok name) :
    ∃ entry, partitionEntry e = some entry ∧ entry.key = (.identity, e.1) := by
  obtain ⟨uid, r⟩ := e
  cases r with
  | dead tomb => exact ⟨_, rfl, rfl⟩
  | live n =>
    obtain ⟨name, hname⟩ := h n rfl
    exact ⟨.table uid name, by simp [partitionEntry, hname, Except.toOption], rfl⟩

theorem map_key_partitions (h : ∀ e ∈ records, ∀ n, e.2 = .live n → ∃ name, TableName.parse n = .ok name) :
    (records.filterMap partitionEntry).map Entry.key = records.map fun e => (.identity, e.1) := by
  induction records with
  | nil => rfl
  | cons e records ih =>
    rw [forall_mem_cons] at h
    obtain ⟨entry, hentry, hkey⟩ := partitionEntry_eq h.1
    rw [filterMap_cons_some hentry, map_cons, map_cons, hkey, ih h.2]

theorem TableBody.map_key_entries {table : TableName}
    (h : ∀ e ∈ t.partitions, ∀ n, e.2 = .live n → ∃ name, TableName.parse n = .ok name) :
    (t.entries table).map Entry.key = t.claims := by
  simp only [TableBody.entries, TableBody.claims, map_append, map_key_partitions h, map_map]
  simp only [Function.comp_def, columnEntry_key]
  rfl

theorem TreeFile.Readable.claims_perm (h : file.Readable) : file.claims.Perm (file.entries.map Entry.key) := by
  obtain ⟨uid, body, dropped⟩ := file
  have hsections : (match body with
      | .table t => t.claims
      | _ => []) = (match body with
      | .table t => t.entries (TreeFile.tableName ⟨uid, body, dropped⟩ t)
      | _ => []).map Entry.key := by
    cases body with
    | table t => exact (TableBody.map_key_entries (h.partitions t rfl)).symm
    | role n => rfl
    | type n => rfl
    | extension n => rfl
  simp only [TreeFile.claims, TreeFile.entries, map_append, hsections]
  cases dropped with
  | some tomb => exact (@perm_append_comm _ _ [(Space.identity, uid)]).symm
  | none =>
    have hlive : ∃ entry, TreeFile.liveEntry ⟨uid, body, none⟩ = some entry ∧ entry.key = (.identity, uid) := by
      cases body with
      | role n => exact ⟨_, rfl, rfl⟩
      | extension n => exact ⟨_, rfl, rfl⟩
      | table t =>
        obtain ⟨name, hname⟩ := h.table t rfl rfl
        exact ⟨.table uid name, by simp [TreeFile.liveEntry, hname, Except.toOption], rfl⟩
      | type n =>
        obtain ⟨name, hname⟩ := h.type n rfl rfl
        exact ⟨.type uid name, by simp [TreeFile.liveEntry, hname, Except.toOption], rfl⟩
    obtain ⟨entry, hentry, hkey⟩ := hlive
    simp [hentry, hkey]

def readFiles (serde : Serde) (files : List (String × String)) : List TreeFile :=
  files.filterMap fun e => (parse serde e.1 e.2).toOption

theorem forall₂_readFiles {files : List (String × String)} (h : ∀ e ∈ files, ∃ f, parse serde e.1 e.2 = .ok f) :
    Forall₂ (fun e f => parse serde e.1 e.2 = .ok f) files (readFiles serde files) := by
  induction files with
  | nil => exact .nil
  | cons e files ih =>
    rw [forall_mem_cons] at h
    obtain ⟨f, hf⟩ := h.1
    rw [readFiles, filterMap_cons_some (b := f) (by rw [hf]; rfl)]
    exact .cons hf (ih h.2)

theorem absorbs_files {l : List (String × String)} {fs : List TreeFile}
    (h : Forall₂ (fun e f => parse serde e.1 e.2 = .ok f) l fs) :
    Absorbs (fun g => l.foldlM (fun (g : Gathered) e => do
      let file ← parse serde e.1 e.2
      gather g e.1 file) g) (fs.flatMap TreeFile.claims) (fs.flatMap TreeFile.entries) := by
  induction h with
  | nil => exact Absorbs.pure
  | @cons e f l fs hparse _ ih =>
    have hone := absorbs_gather e.1 (accepted_of_parse hparse).rules.readable
    simp only [foldlM_cons, hparse]
    exact hone.bind ih

theorem fresh_start : Fresh ks (Gathered.keys {}) ↔ ks.Nodup := by
  simp [Fresh, Gathered.keys]

variable (hread : ∀ e ∈ files.toList, ∃ f, parse serde e.1 e.2 = .ok f)
include hread

/-- Files that are read and claim nothing twice are refused for the mapping they make only. -/
theorem assemble_of_nodup (hnodup : ((readFiles serde files.toList).flatMap TreeFile.claims).Nodup) :
    assemble serde files = (IdsFile.validate (((readFiles serde files.toList).flatMap TreeFile.entries).foldl Entry.add {})
      |>.mapError TreeError.ids).map fun _ => ((readFiles serde files.toList).flatMap TreeFile.entries).foldl Entry.add {} := by
  have hall := absorbs_files (forall₂_readFiles hread) {}
  obtain ⟨g, hg⟩ := hall.1 (fresh_start.2 hnodup)
  have hids := (hall.2 g hg).2.1
  dsimp only at hg hids
  rw [assemble, hg, ← hids]
  cases hvalidate : g.ids.validate <;> simp only [bind, Except.bind, hvalidate] <;> rfl

/-- Files that are read assemble exactly if no two claims are one and what they add is valid. -/
theorem assemble_eq_ok {ids : IdsFile} :
    assemble serde files = .ok ids ↔ ((readFiles serde files.toList).flatMap TreeFile.claims).Nodup ∧
      ids = ((readFiles serde files.toList).flatMap TreeFile.entries).foldl Entry.add {} ∧ ids.validate = .ok () := by
  constructor
  · intro h
    have hnodup : ((readFiles serde files.toList).flatMap TreeFile.claims).Nodup := by
      rw [assemble, Except.bind_eq_ok_iff] at h
      obtain ⟨g, hg, -⟩ := h
      exact fresh_start.1 ((absorbs_files (forall₂_readFiles hread) {}).2 g hg).1
    rw [assemble_of_nodup hread hnodup] at h
    cases hvalidate : IdsFile.validate (((readFiles serde files.toList).flatMap TreeFile.entries).foldl Entry.add {}) with
    | error e =>
      rw [hvalidate] at h
      cases h
    | ok u =>
      rw [hvalidate] at h
      cases h
      exact ⟨hnodup, rfl, hvalidate⟩
  · rintro ⟨hnodup, rfl, hvalidate⟩
    rw [assemble_of_nodup hread hnodup, hvalidate]
    rfl

end Pbps.Tree
