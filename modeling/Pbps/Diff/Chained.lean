/-
Chained renames of `schema_diff.rs`: a column renamed onto the name another rename of its table gives up runs after it, and so
does an owned sequence renamed onto the name of another. Columns that trade names, and sequences that do, have no order.
-/
import Pbps.Diff.Change
import Pbps.Lib.Cycles
import Pbps.Lib.Follow
import Pbps.Lib.Waits

namespace Pbps.Diff

open Std (ExtTreeMap ExtTreeSet)
open Relation (TransGen ReflTransGen)
open Component (Same)
open List (length_singleton map_map mem_cons mem_filterMap mem_map mem_singleton)
open Std.ExtTreeSet (mem_ofList mem_toList not_mem_empty ordered_toList)
open Option Std.ExtTreeMap

/-! ## Columns -/

abbrev Rename := ColumnRef

def vacatedNames (planned : List Change) : List (Rename × ColumnName) :=
  planned.filterMap fun
    | .renameColumn _ table from_ to_ _ => some (table.column from_, to_)
    | _ => none

def vacates (planned : List Change) : ExtTreeMap Rename ColumnName := .ofList (vacatedNames planned)

/-- The columns of one table that trade names, in order. -/
structure ColumnRenameCycle where
  table : TableName
  columns : List ColumnName
  deriving DecidableEq

namespace ColumnRenameCycle

instance : Ord ColumnRenameCycle := ⟨compareFields table columns⟩

instance : Std.TransOrd ColumnRenameCycle := inferInstanceAs (Std.TransCmp (compareFields table columns))

instance : Std.LawfulEqOrd ColumnRenameCycle where
  compare_self := compareFields_self _
  eq_of_compare {a b} h := by
    obtain ⟨h1, h2⟩ := compareFields_eq h
    cases a; cases b; simp_all

end ColumnRenameCycle

section Columns

variable (vacates : ExtTreeMap Rename ColumnName)

/-- The links from a rename on: only those that close the loop, as a chain can lead into one. -/
def closing (table : TableName) : Nat → List ColumnName → ColumnName → Option (List ColumnName)
  | 0, _, _ => none
  | fuel + 1, path, next =>
    match vacates[table.column next]? with
    | none => none
    | some after =>
      match path.idxOf? next with
      | some start => some (path.drop start)
      | none => closing table fuel (path ++ [next]) after

def cycles : ExtTreeSet ColumnRenameCycle :=
  .ofList (vacates.toList.filterMap fun (rename, to_) =>
    (closing vacates rename.table (vacates.size + 1) [rename.name] to_).map fun columns =>
      (⟨rename.table, (ExtTreeSet.ofList columns).toList⟩ : ColumnRenameCycle))

/-- `case_folded`: each character in lower case, where that is one character. -/
def caseFolded (toLowercase : Char → List Char) (s : String) : String :=
  s.map fun c =>
    match toLowercase c with
    | [one] => one
    | _ => c

def exactWaits : Waits.Graph Rename :=
  vacates.map fun rename to_ => if vacates.contains (rename.table.column to_) then {rename.table.column to_} else ∅

/-- Waits on a rename that gives up the name in another case, where that closes no cycle. -/
def waitFolded (toLowercase : Char → List Char) (rename : Rename) (to_ : ColumnName) (waits : Waits.Graph Rename)
    (vacating : Rename) : Waits.Graph Rename :=
  if vacating ≠ rename ∧ vacating.table = rename.table ∧ vacating.name ≠ to_ ∧
      caseFolded toLowercase vacating.name = caseFolded toLowercase to_ then
    waits.linkUnless rename vacating
  else waits

def waits (toLowercase : Char → List Char) : Waits.Graph Rename :=
  vacates.toList.foldl (fun waits (rename, to_) =>
    vacates.keys.foldl (waitFolded toLowercase rename to_) waits) (exactWaits vacates)

def chainDepth (toLowercase : Char → List Char) : ExtTreeMap Rename Nat := (waits vacates toLowercase).depths vacates.keys

end Columns

/-! ## Owned sequences -/

/-- A rename of an owned sequence. -/
structure SequenceRename where
  from_ : TableName
  to_ : TableName
  deriving DecidableEq

namespace SequenceRename

instance : Ord SequenceRename := ⟨compareFields from_ to_⟩

instance : Std.TransOrd SequenceRename := inferInstanceAs (Std.TransCmp (compareFields from_ to_))

instance : Std.LawfulEqOrd SequenceRename where
  compare_self := compareFields_self _
  eq_of_compare {a b} h := by
    obtain ⟨h1, h2⟩ := compareFields_eq h
    cases a; cases b; simp_all

end SequenceRename

abbrev RenameCycle := List SequenceRename

/-- A sequence that is given up, renamed or turned into an identity: its column, the name it frees and the name it takes. -/
structure SequenceRelease where
  column : ColumnRef
  frees : Option TableName
  claim : Option TableName
  deriving DecidableEq

/-- What a change does to an owned sequence, unless it is held back. -/
def sequenceRelease (heldBack : ExtTreeSet ColumnRef) : Change → Option SequenceRelease
  | .alterColumnNumbering _ column _ (.sequence was) to_ =>
    let at_ (name : String) : TableName := ⟨column.table.schema, name⟩
    let release (claim : Option TableName) : SequenceRelease := ⟨column, was.name.map at_, claim⟩
    match to_ with
    | .none => some (release none)
    | .sequence now =>
      if was.name.isSome ∧ now.name.isSome ∧ was.name ≠ now.name then some (release (now.name.map at_)) else none
    | .identity _ => if heldBack.contains column then none else some (release none)
    | .default _ | .generated _ => none
  | _ => none

/-- The names the sequences free, what each takes, and the renames. -/
structure Releases where
  released : ExtTreeMap TableName ColumnRef
  claims : ExtTreeMap ColumnRef (Option TableName)
  renamed : ExtTreeMap ColumnRef SequenceRename

namespace Releases

def of (releases : List SequenceRelease) : Releases where
  released := .ofList (releases.filterMap fun s => s.frees.map (·, s.column))
  claims := .ofList (releases.map fun s => (s.column, s.claim))
  renamed := .ofList (releases.filterMap fun s => s.frees.bind fun name => s.claim.map fun to_ => (s.column, (⟨name, to_⟩ : SequenceRename)))

def next (r : Releases) (at_ : ColumnRef) : Option ColumnRef :=
  match r.claims[at_]? with
  | some (some name) => r.released[name]?
  | _ => none

/-- The renames of a cycle, in order, so that it is one entry whichever member it was found from. -/
def cycleOf (r : Releases) (columns : List ColumnRef) : RenameCycle :=
  (columns.filterMap fun c => r.renamed[c]?).mergeSort fun a b => (compare a b).isLE

/-- The place of one sequence in the chain of names it waits on, and the cycle that the chain leads into. -/
def walk (r : Releases) : Nat → Nat → List ColumnRef → ColumnRef → Nat × Option RenameCycle
  | 0, depth, _, _ => (depth, none)
  | fuel + 1, depth, path, at_ =>
    match r.next at_ with
    | none => (depth, none)
    | some next =>
      match path.idxOf? next with
      | some from_ => (depth, some (r.cycleOf (path.drop from_)))
      | none => r.walk fuel (depth + 1) (path ++ [next]) next

def walked (r : Releases) (start : ColumnRef) : Nat × Option RenameCycle := r.walk (r.claims.size + 1) 0 [start] start

end Releases

/-- `sequence_release_depths`. -/
def sequenceReleaseDepths (changes : List Change) (heldBack : ExtTreeSet ColumnRef) :
    ExtTreeMap ColumnRef Nat × ExtTreeSet RenameCycle :=
  let r := Releases.of (changes.filterMap (sequenceRelease heldBack))
  (.ofList (r.claims.keys.map fun start => (start, (r.walked start).1)), .ofList (r.claims.keys.filterMap fun start => (r.walked start).2))

/-! ## Cycles of columns -/

section Columns

variable {vacates : ExtTreeMap Rename ColumnName} {table : TableName}

/-- The name that a rename of a table takes, where another gives it up. -/
def nameTaken (vacates : ExtTreeMap Rename ColumnName) (table : TableName) (name : ColumnName) : Option ColumnName :=
  (vacates[table.column name]?).filter fun to_ => vacates.contains (table.column to_)

variable {a name : ColumnName} {c : ColumnRenameCycle} {u v : Rename}

theorem nameTaken_eq_some {b : ColumnName} : nameTaken vacates table a = some b ↔
    vacates[table.column a]? = some b ∧ table.column b ∈ vacates := by
  rw [nameTaken, filter_eq_some_iff, contains_iff_mem]

theorem closing_eq : ∀ (fuel : Nat) {path : List ColumnName} {name to_ : ColumnName}, vacates[table.column name]? = some to_ →
    closing vacates table fuel path to_ =
      (Follow.follow (nameTaken vacates table) fuel path name).2.map
        ((Follow.follow (nameTaken vacates table) fuel path name).1.drop ·)
  | 0, path, name, to_, _ => rfl
  | fuel + 1, path, name, to_, hname => by
    cases hafter : vacates[table.column to_]? with
    | none =>
      have hnext : nameTaken vacates table name = none := by
        rw [nameTaken, hname, filter_some, if_neg]
        rw [contains_iff_exists, hafter]
        rintro ⟨after, heq⟩
        cases heq
      rw [closing, hafter, Follow.follow, hnext]
      rfl
    | some after =>
      have hnext : nameTaken vacates table name = some to_ :=
        nameTaken_eq_some.2 ⟨hname, mem_of_getElem?_eq hafter⟩
      rw [closing, hafter, Follow.follow, hnext]
      dsimp only
      cases hidx : path.idxOf? to_ with
      | none => exact closing_eq fuel hafter
      | some start => rfl

theorem closing_ended {to_ : ColumnName} (hname : vacates[table.column name]? = some to_) :
    Follow.Ended (nameTaken vacates table) name (Follow.follow (nameTaken vacates table) (vacates.size + 1) [name] name) := by
  have hmem : ∀ {a}, table.column a ∈ vacates → a ∈ vacates.keys.map ColumnRef.name :=
    fun {a} ha => List.mem_map.2 ⟨_, mem_keys.2 ha, rfl⟩
  have hnext : ∀ u v, nameTaken vacates table u = some v → v ∈ vacates.keys.map ColumnRef.name :=
    fun u v huv => hmem (nameTaken_eq_some.1 huv).2
  refine Follow.follow_ended hnext _ Follow.path_singleton ?_ ?_
  · intro u hu
    obtain rfl := mem_singleton.1 hu
    exact hmem (mem_of_getElem?_eq hname)
  · rw [List.length_map, length_keys, length_singleton]
    omega

theorem mem_columns {columns : List ColumnName} : a ∈ (ExtTreeSet.ofList columns).toList ↔ a ∈ columns := by
  rw [ExtTreeSet.mem_toList, ExtTreeSet.mem_ofList, List.contains_iff_mem]

theorem mem_cycles_iff : c ∈ cycles vacates ↔ ∃ name to_ columns,
    vacates[c.table.column name]? = some to_ ∧ closing vacates c.table (vacates.size + 1) [name] to_ = some columns ∧
      c.columns = (ExtTreeSet.ofList columns).toList := by
  rw [cycles, ExtTreeSet.mem_ofList, List.contains_iff_mem, List.mem_filterMap]
  constructor
  · rintro ⟨⟨rename, to_⟩, he, hc⟩
    obtain ⟨columns, hclosing, rfl⟩ := map_eq_some_iff.1 hc
    exact ⟨rename.name, to_, columns, getElem?_of_mem_toList he, hclosing, rfl⟩
  · rintro ⟨name, to_, columns, hname, hclosing, hcolumns⟩
    refine ⟨(c.table.column name, to_), mem_toList_iff_getElem?_eq_some.2 hname, ?_⟩
    exact map_eq_some_iff.2 ⟨columns, hclosing, hcolumns ▸ rfl⟩

theorem exists_cycle (hcycle : TransGen (Follow.Leads (nameTaken vacates table)) name name) :
    ∃ columns, ⟨table, columns⟩ ∈ cycles vacates ∧ name ∈ columns ∧
      Cycles.IsCycle (Follow.Leads (nameTaken vacates table)) columns := by
  obtain ⟨to_, hto, -⟩ := TransGen.head'_iff.1 hcycle
  obtain ⟨hname, -⟩ := nameTaken_eq_some.1 hto
  obtain ⟨i, hi, hsame⟩ := (closing_ended hname).of_cycle hcycle
  have hclosing : closing vacates table (vacates.size + 1) [name] to_ = _ := closing_eq (vacates.size + 1) hname
  rw [hi, map_some] at hclosing
  generalize (Follow.follow (nameTaken vacates table) (vacates.size + 1) [name] name).1.drop i = columns at hsame hclosing
  refine ⟨(ExtTreeSet.ofList columns).toList, mem_cycles_iff.2 ⟨name, to_, columns, hname, hclosing, rfl⟩, ?_, ?_⟩
  · exact mem_columns.2 ((hsame name).2 (Same.refl _ name))
  · exact ⟨ordered_toList, name, hcycle, fun v => mem_columns.trans (hsame v)⟩

theorem mem_cycles : c ∈ cycles vacates ↔ Cycles.IsCycle (Follow.Leads (nameTaken vacates c.table)) c.columns := by
  constructor
  · intro h
    obtain ⟨name, to_, columns, hname, hclosing, hcolumns⟩ := mem_cycles_iff.1 h
    rw [closing_eq _ hname] at hclosing
    obtain ⟨i, hi, rfl⟩ := map_eq_some_iff.1 hclosing
    obtain ⟨w, -, hcycle, hsame⟩ := (closing_ended hname).cycle hi
    refine ⟨hcolumns ▸ ordered_toList, w, hcycle, fun v => ?_⟩
    rw [hcolumns, mem_columns]
    exact hsame v
  · intro h
    obtain ⟨u, hcycle, hu⟩ := h.component
    obtain ⟨columns, hmem, hin, hfound⟩ := exists_cycle hcycle
    have heq : c.columns = columns := h.eq_of_mem hfound ((hu u).2 (Same.refl _ u)) hin
    rw [← heq] at hmem
    exact hmem

/-! ## The wait graph -/

def Takes (vacates : ExtTreeMap Rename ColumnName) (u v : Rename) : Prop :=
  ∃ to_, vacates[u]? = some to_ ∧ v = u.table.column to_ ∧ v ∈ vacates

theorem leads_exactWaits : (exactWaits vacates).Leads u v ↔ Takes vacates u v := by
  rw [Waits.Graph.Leads, exactWaits, getElem?_map, Takes]
  cases vacates[u]? with
  | none => simp
  | some to_ =>
    simp only [map_some, some.injEq, exists_eq_left']
    split
    case isTrue h =>
      rw [ExtTreeSet.singleton_eq_insert, ExtTreeSet.mem_insert, Std.LawfulEqOrd.compare_eq_iff_eq]
      constructor
      · rintro (rfl | hv)
        · exact ⟨rfl, contains_iff_mem.1 h⟩
        · exact absurd hv ExtTreeSet.not_mem_empty
      · exact fun hv => .inl hv.1.symm
    case isFalse h =>
      refine ⟨fun hv => absurd hv ExtTreeSet.not_mem_empty, ?_⟩
      rintro ⟨rfl, hv⟩
      exact absurd (contains_iff_mem.2 hv) h

theorem transGen_takes (h : TransGen (Takes vacates) u v) :
    v.table = u.table ∧ TransGen (Follow.Leads (nameTaken vacates u.table)) u.name v.name := by
  have hstep : ∀ {u v}, Takes vacates u v → v.table = u.table ∧ nameTaken vacates u.table u.name = some v.name := by
    rintro u v ⟨to_, hto, rfl, hv⟩
    exact ⟨rfl, nameTaken_eq_some.2 ⟨hto, hv⟩⟩
  induction h with
  | single h => exact ⟨(hstep h).1, .single (hstep h).2⟩
  | tail _ hvw ih =>
    obtain ⟨htable, hname⟩ := hstep hvw
    rw [ih.1] at htable hname
    exact ⟨htable, ih.2.tail hname⟩

theorem acyclic_takes (h : cycles vacates = ∅) : Waits.Acyclic (Takes vacates) := by
  intro u hu
  obtain ⟨columns, hmem, -⟩ := exists_cycle (transGen_takes hu).2
  rw [h] at hmem
  exact ExtTreeSet.not_mem_empty hmem

theorem exactWaits_sound (h : cycles vacates = ∅) : (exactWaits vacates).Sound vacates.keys (Takes vacates) := by
  refine ⟨⟨fun u => ?_, fun u v huv => ?_⟩, fun u hu => ?_, fun u v huv => leads_exactWaits.2 huv⟩
  · rw [exactWaits, ExtTreeMap.mem_map, mem_keys]
  · obtain ⟨_, -, -, hv⟩ := leads_exactWaits.1 huv
    exact mem_keys.2 hv
  · exact acyclic_takes h u (TransGen.mono (fun _ _ => leads_exactWaits.1) u u hu)

theorem waits_sound (toLowercase : Char → List Char) (h : cycles vacates = ∅) :
    (waits vacates toLowercase).Sound vacates.keys (Takes vacates) := by
  refine List.foldlRecOn (motive := fun g => Waits.Graph.Sound g vacates.keys (Takes vacates)) _ _ (exactWaits_sound h) fun g hg e he => ?_
  have hrename : e.1 ∈ vacates.keys := mem_keys.2 (contains_iff_mem.1 (contains_of_mem_toList he))
  refine List.foldlRecOn (motive := fun g => Waits.Graph.Sound g vacates.keys (Takes vacates)) _ _ hg fun g hg vacating hvacating => ?_
  rw [waitFolded]
  split
  case isTrue => exact hg.linkUnless hrename hvacating
  case isFalse => exact hg

end Columns

/-! ## Chains of sequences -/

namespace Releases

variable {rel : List SequenceRelease} {r : Releases}

theorem walk_eq : ∀ (fuel depth : Nat) (path : List ColumnRef) (at_ : ColumnRef),
    (r.walk fuel depth path at_).1 + path.length = depth + (Follow.follow r.next fuel path at_).1.length ∧
      (r.walk fuel depth path at_).2 =
        (Follow.follow r.next fuel path at_).2.map fun i => r.cycleOf ((Follow.follow r.next fuel path at_).1.drop i)
  | 0, depth, path, at_ => ⟨rfl, rfl⟩
  | fuel + 1, depth, path, at_ => by
    cases hnext : r.next at_ with
    | none =>
      rw [walk, Follow.follow, hnext]
      exact ⟨rfl, rfl⟩
    | some next =>
      cases hidx : path.idxOf? next with
      | some i =>
        rw [walk, Follow.follow, hnext]
        dsimp only
        rw [hidx]
        exact ⟨rfl, rfl⟩
      | none =>
        obtain ⟨hdepth, hcycle⟩ := walk_eq fuel (depth + 1) (path ++ [next]) next
        rw [List.length_append, length_singleton] at hdepth
        rw [walk, Follow.follow, hnext]
        simp only [hidx]
        exact ⟨by omega, hcycle⟩

variable {start c : ColumnRef}

theorem walked_ended (hnext : ∀ u v, r.next u = some v → v ∈ r.claims) (hstart : start ∈ r.claims) :
    Follow.Ended r.next start (Follow.follow r.next (r.claims.size + 1) [start] start) := by
  have hkeys : ∀ u v, r.next u = some v → v ∈ r.claims.keys := fun u v huv => mem_keys.2 (hnext u v huv)
  refine Follow.follow_ended hkeys _ Follow.path_singleton (fun u hu => ?_) ?_
  · exact mem_singleton.1 hu ▸ mem_keys.2 hstart
  · rw [length_keys, length_singleton]
    omega

/-- The sequence of one column claims the name that another's frees. -/
def TakesName (rel : List SequenceRelease) (a b : ColumnRef) : Prop :=
  ∃ x ∈ rel, ∃ y ∈ rel, x.column = a ∧ y.column = b ∧ ∃ name, x.claim = some name ∧ y.frees = some name

/-- A column's sequence changes once, and no two sequences have one name. -/
structure Distinct (rel : List SequenceRelease) : Prop where
  columns : (rel.map SequenceRelease.column).Nodup
  names : (rel.filterMap SequenceRelease.frees).Nodup

theorem released_eq (h : Distinct rel) {name : TableName} :
    (of rel).released[name]? = some c ↔ ∃ s ∈ rel, s.frees = some name ∧ s.column = c := by
  have hkeys : (rel.filterMap fun s => s.frees.map (·, s.column)).map Prod.fst = rel.filterMap SequenceRelease.frees := by
    rw [List.map_filterMap]
    exact List.filterMap_congr fun s _ => by cases s.frees <;> rfl
  rw [of, getElem?_ofList_eq_some (hkeys ▸ h.names), List.mem_filterMap]
  simp [map_eq_some_iff]

theorem claims_eq (h : Distinct rel) {claim : Option TableName} :
    (of rel).claims[c]? = some claim ↔ ∃ s ∈ rel, s.column = c ∧ s.claim = claim := by
  rw [of, getElem?_ofList_eq_some (by rw [List.map_map]; exact h.columns), List.mem_map]
  simp

variable {n : SequenceRename} {a b : ColumnRef} {columns : List ColumnRef}

theorem renamed_eq (h : Distinct rel) :
    (of rel).renamed[c]? = some n ↔ ∃ s ∈ rel, s.column = c ∧ s.frees = some n.from_ ∧ s.claim = some n.to_ := by
  have hkeys : ∀ l : List SequenceRelease, ((l.filterMap fun s => s.frees.bind fun name => s.claim.map fun to_ =>
      (s.column, (⟨name, to_⟩ : SequenceRename))).map Prod.fst).Sublist (l.map SequenceRelease.column) := by
    intro l
    induction l with
    | nil => exact .slnil
    | cons s l ih =>
      rw [List.map_cons, List.filterMap_cons]
      split
      case h_1 => exact ih.cons _
      case h_2 e he =>
        obtain ⟨name, -, he⟩ := bind_eq_some_iff.1 he
        obtain ⟨to_, -, rfl⟩ := map_eq_some_iff.1 he
        exact ih.cons_cons _
  rw [of, getElem?_ofList_eq_some (h.columns.sublist (hkeys rel)), List.mem_filterMap]
  simp only [bind_eq_some_iff, map_eq_some_iff, Prod.mk.injEq]
  constructor
  · rintro ⟨s, hs, name, hname, to_, hto, rfl, rfl⟩
    exact ⟨s, hs, rfl, hname, hto⟩
  · rintro ⟨s, hs, rfl, hname, hto⟩
    exact ⟨s, hs, _, hname, _, hto, rfl, rfl⟩

theorem next_eq (h : Distinct rel) : (of rel).next a = some b ↔ TakesName rel a b := by
  have hnext : (of rel).next a = some b ↔ ∃ name, (of rel).claims[a]? = some (some name) ∧ (of rel).released[name]? = some b := by
    rw [next]
    split
    case h_1 name heq => simp [heq]
    case h_2 hnone => simpa using fun name heq => absurd heq (hnone name)
  rw [hnext]
  simp only [claims_eq h, released_eq h]
  constructor
  · rintro ⟨name, ⟨x, hx, hcolumn, hclaim⟩, y, hy, hfrees, hfreed⟩
    exact ⟨x, hx, y, hy, hcolumn, hfreed, name, hclaim, hfrees⟩
  · rintro ⟨x, hx, y, hy, hcolumn, hfreed, name, hclaim, hfrees⟩
    exact ⟨name, ⟨x, hx, hcolumn, hclaim⟩, y, hy, hfrees, hfreed⟩

theorem mem_claims : c ∈ (of rel).claims ↔ ∃ s ∈ rel, s.column = c := by
  rw [of, ExtTreeMap.mem_ofList, List.contains_iff_mem, List.map_map, List.mem_map]
  rfl

theorem leads_next (h : Distinct rel) : Follow.Leads (of rel).next = TakesName rel := by
  funext a b
  exact propext (next_eq h)

theorem walked_spec (h : Distinct rel) (hstart : ∃ s ∈ rel, s.column = start) :
    Follow.Ended (of rel).next start (Follow.follow (of rel).next ((of rel).claims.size + 1) [start] start) := by
  refine walked_ended (fun u v huv => ?_) (mem_claims.2 hstart)
  obtain ⟨_, _, y, hy, -, hv, _⟩ := (next_eq h).1 huv
  exact mem_claims.2 ⟨y, hy, hv⟩

/-! ## Cycles of sequences -/

/-- The renames of a cycle, each once and in order. -/
structure IsRenameCycle (rel : List SequenceRelease) (c : RenameCycle) : Prop where
  ordered : Cycles.Ordered c
  component : ∃ u, TransGen (TakesName rel) u u ∧ ∀ n, n ∈ c ↔
    ∃ s ∈ rel, Same (TakesName rel) u s.column ∧ s.frees = some n.from_ ∧ s.claim = some n.to_

variable (h : Distinct rel)
include h

theorem mem_cycleOf : n ∈ (of rel).cycleOf columns ↔
    ∃ s ∈ rel, s.column ∈ columns ∧ s.frees = some n.from_ ∧ s.claim = some n.to_ := by
  rw [cycleOf, List.mem_mergeSort, List.mem_filterMap]
  simp only [renamed_eq h]
  constructor
  · rintro ⟨_, hc, s, hs, rfl, hn⟩
    exact ⟨s, hs, hc, hn⟩
  · rintro ⟨s, hs, hc, hn⟩
    exact ⟨s.column, hc, s, hs, rfl, hn⟩

theorem ordered_cycleOf (hcolumns : columns.Nodup) : Cycles.Ordered ((of rel).cycleOf columns) := by
  have hinj : ∀ (a a' : ColumnRef) (n : SequenceRename), n ∈ (of rel).renamed[a]? → n ∈ (of rel).renamed[a']? → a = a' := by
    intro a a' n ha ha'
    obtain ⟨s, hs, rfl, hfrees, -⟩ := (renamed_eq h).1 ha
    obtain ⟨s', hs', rfl, hfrees', -⟩ := (renamed_eq h).1 ha'
    have hfirst := (released_eq h).2 ⟨s, hs, hfrees, rfl⟩
    have hsecond := (released_eq h).2 ⟨s', hs', hfrees', rfl⟩
    exact some.inj (hfirst.symm.trans hsecond)
  have hnodup : ((of rel).cycleOf columns).Nodup := by
    rw [cycleOf, (List.mergeSort_perm _ _).nodup_iff]
    exact hcolumns.filterMap hinj
  have hsorted : ((of rel).cycleOf columns).Pairwise fun a b => (compare a b).isLE = true := by
    refine List.pairwise_mergeSort (fun a b c hab hbc => Std.TransOrd.isLE_trans (a := a) hab hbc) (fun a b => ?_) _
    rw [Std.OrientedOrd.eq_swap (a := b)]
    cases compare a b <;> rfl
  refine (hsorted.and hnodup).imp fun {a b} hab => ?_
  rcases hcompare : compare a b with _ | _ | _
  · rfl
  · exact absurd (Std.LawfulEqOrd.eq_of_compare hcompare) hab.2
  · rw [hcompare] at hab
    exact absurd hab.1 (by decide)

theorem walked_cycle (hstart : ∃ s ∈ rel, s.column = start) (hcycle : TransGen (TakesName rel) start start) :
    ∃ c, ((of rel).walked start).2 = some c ∧ Cycles.Ordered c ∧
      ∀ n, n ∈ c ↔ ∃ s ∈ rel, Same (TakesName rel) start s.column ∧ s.frees = some n.from_ ∧ s.claim = some n.to_ := by
  have hend := walked_spec h hstart
  obtain ⟨i, hi, hsame⟩ := hend.of_cycle (leads_next h ▸ hcycle)
  rw [leads_next h] at hsame
  obtain ⟨-, hwalk⟩ := (of rel).walk_eq ((of rel).claims.size + 1) 0 [start] start
  rw [hi] at hwalk
  refine ⟨_, hwalk, ordered_cycleOf h (hend.passed.1.sublist (List.drop_sublist _ _)), fun n => ?_⟩
  rw [mem_cycleOf h]
  exact ⟨fun ⟨s, hs, hc, hn⟩ => ⟨s, hs, (hsame _).1 hc, hn⟩, fun ⟨s, hs, hc, hn⟩ => ⟨s, hs, (hsame _).2 hc, hn⟩⟩

theorem isRenameCycle_walked (hstart : ∃ s ∈ rel, s.column = start) {c : RenameCycle} (hc : ((of rel).walked start).2 = some c) :
    IsRenameCycle rel c := by
  have hend := walked_spec h hstart
  obtain ⟨-, hwalk⟩ := (of rel).walk_eq ((of rel).claims.size + 1) 0 [start] start
  rw [walked, hwalk] at hc
  obtain ⟨i, hi, rfl⟩ := map_eq_some_iff.1 hc
  obtain ⟨w, -, hcycle, hsame⟩ := hend.cycle hi
  rw [leads_next h] at hcycle hsame
  refine ⟨ordered_cycleOf h (hend.passed.1.sublist (List.drop_sublist _ _)), w, hcycle, fun n => ?_⟩
  rw [mem_cycleOf h]
  exact ⟨fun ⟨s, hs, hc, hn⟩ => ⟨s, hs, (hsame _).1 hc, hn⟩, fun ⟨s, hs, hc, hn⟩ => ⟨s, hs, (hsame _).2 hc, hn⟩⟩

theorem walked_depth (hab : TakesName rel a b) (hcycle : ¬ TransGen (TakesName rel) a a) :
    ((of rel).walked a).1 = ((of rel).walked b).1 + 1 := by
  obtain ⟨x, hx, y, hy, hxa, hyb, -⟩ := id hab
  have hlength := (walked_spec h ⟨x, hx, hxa⟩).length_succ (walked_spec h ⟨y, hy, hyb⟩) ((next_eq h).2 hab) (leads_next h ▸ hcycle)
  obtain ⟨hdeptha, -⟩ := (of rel).walk_eq ((of rel).claims.size + 1) 0 [a] a
  obtain ⟨hdepthb, -⟩ := (of rel).walk_eq ((of rel).claims.size + 1) 0 [b] b
  rw [length_singleton] at hdeptha hdepthb
  rw [walked, walked]
  omega

end Releases

open Releases (TakesName Distinct IsRenameCycle)

variable {changes : List Change} {heldBack : ExtTreeSet ColumnRef}

theorem mem_sequenceCycles (h : Distinct (changes.filterMap (sequenceRelease heldBack))) {c : RenameCycle} :
    c ∈ (sequenceReleaseDepths changes heldBack).2 ↔ IsRenameCycle (changes.filterMap (sequenceRelease heldBack)) c := by
  generalize hrel : changes.filterMap (sequenceRelease heldBack) = rel at h
  have hmem : c ∈ (sequenceReleaseDepths changes heldBack).2 ↔
      ∃ start, (∃ s ∈ rel, s.column = start) ∧ ((Releases.of rel).walked start).2 = some c := by
    rw [sequenceReleaseDepths, hrel, ExtTreeSet.mem_ofList, List.contains_iff_mem, List.mem_filterMap]
    simp only [mem_keys, Releases.mem_claims]
  rw [hmem]
  constructor
  · rintro ⟨start, hstart, hc⟩
    exact Releases.isRenameCycle_walked h hstart hc
  · intro hc
    obtain ⟨u, hcycle, hu⟩ := hc.component
    have hstart : ∃ s ∈ rel, s.column = u := by
      obtain ⟨_, ⟨x, hx, _, _, hxu, _⟩, -⟩ := TransGen.head'_iff.1 hcycle
      exact ⟨x, hx, hxu⟩
    obtain ⟨d, hd, hordered, hmemd⟩ := Releases.walked_cycle h hstart hcycle
    have heq : c = d := Cycles.Ordered.ext hc.ordered hordered fun n => (hu n).trans (hmemd n).symm
    exact ⟨u, hstart, heq ▸ hd⟩

theorem sequenceDepth_eq {a : ColumnRef} (ha : ∃ s ∈ changes.filterMap (sequenceRelease heldBack), s.column = a) :
    (sequenceReleaseDepths changes heldBack).1[a]? =
      some ((Releases.of (changes.filterMap (sequenceRelease heldBack))).walked a).1 := by
  rw [sequenceReleaseDepths, getElem?_ofList_eq_some, List.mem_map]
  · exact ⟨a, mem_keys.2 (Releases.mem_claims.2 ha), rfl⟩
  · rw [List.map_map]
    exact (List.map_id'' (fun _ => rfl) _).symm ▸ nodup_keys

/-! ## Far end first -/

/-- One rename of the plan takes the name that another of its table gives up. -/
def TakesColumn (planned : List Change) (u v : Rename) : Prop :=
  v.table = u.table ∧ (u, v.name) ∈ vacatedNames planned ∧ ∃ after, (v, after) ∈ vacatedNames planned

variable {planned : List Change}

variable {u : Rename}

section

variable (h : ((vacatedNames planned).map Prod.fst).Nodup)
include h

theorem getElem?_vacates {to_ : ColumnName} :
    (vacates planned)[u]? = some to_ ↔ (u, to_) ∈ vacatedNames planned := getElem?_ofList_eq_some h

theorem takes_vacates {v : Rename} : Takes (vacates planned) u v ↔ TakesColumn planned u v := by
  rw [Takes, TakesColumn, mem_iff_exists]
  simp only [getElem?_vacates h]
  constructor
  · rintro ⟨to_, hto, rfl, hv⟩
    exact ⟨rfl, hto, hv⟩
  · rintro ⟨htable, hto, hv⟩
    exact ⟨v.name, hto, htable ▸ rfl, hv⟩

theorem leads_nameTaken {table : TableName} :
    Follow.Leads (nameTaken (vacates planned) table) = fun a b => TakesColumn planned (table.column a) (table.column b) := by
  funext a b
  refine propext ?_
  rw [Follow.Leads, nameTaken_eq_some, mem_iff_exists]
  simp only [getElem?_vacates h]
  exact ⟨fun hab => ⟨rfl, hab⟩, fun hab => hab.2⟩

end

/-- Chained renames run far end first: the cycles of exact names are refused, each with its columns; with none the waits have
no cycle and go up in depth. Of sequences likewise, also for those whose chain leads into a cycle. -/
theorem chained_renames (toLowercase : Char → List Char) (planned changes : List Change) (heldBack : ExtTreeSet ColumnRef)
    (hcolumns : ((vacatedNames planned).map Prod.fst).Nodup)
    (hsequences : Distinct (changes.filterMap (sequenceRelease heldBack))) :
    -- the cycles of columns that are refused
    ((cycles (vacates planned)).toList.Nodup ∧ ∀ c, c ∈ (cycles (vacates planned)).toList ↔
      Cycles.IsCycle (fun a b => TakesColumn planned (c.table.column a) (c.table.column b)) c.columns) ∧
    -- the wait graph and the depths, when there is none
    (cycles (vacates planned) = ∅ →
      Waits.Acyclic (waits (vacates planned) toLowercase).Leads ∧
      (∀ u v, TakesColumn planned u v → (waits (vacates planned) toLowercase).Leads u v) ∧
      (∀ e ∈ vacatedNames planned, ∃ d : Nat, (chainDepth (vacates planned) toLowercase)[e.1]? = some d) ∧
      ∀ u v, (waits (vacates planned) toLowercase).Leads u v → ∃ d e : Nat,
        (chainDepth (vacates planned) toLowercase)[u]? = some d ∧ (chainDepth (vacates planned) toLowercase)[v]? = some e ∧ e < d) ∧
    -- owned sequences
    ((sequenceReleaseDepths changes heldBack).2.toList.Nodup ∧ ∀ c, c ∈ (sequenceReleaseDepths changes heldBack).2.toList ↔
      IsRenameCycle (changes.filterMap (sequenceRelease heldBack)) c) ∧
    ∀ a b, TakesName (changes.filterMap (sequenceRelease heldBack)) a b →
      ¬ TransGen (TakesName (changes.filterMap (sequenceRelease heldBack))) a a → ∃ d e : Nat,
        (sequenceReleaseDepths changes heldBack).1[a]? = some d ∧ (sequenceReleaseDepths changes heldBack).1[b]? = some e ∧ e < d := by
  refine ⟨⟨ExtTreeSet.nodup_toList, fun c => ?_⟩, fun hcycles => ?_, ⟨ExtTreeSet.nodup_toList, fun c => ?_⟩, fun a b hab hcycle => ?_⟩
  · rw [ExtTreeSet.mem_toList, mem_cycles, leads_nameTaken hcolumns]
  · have hsound : (waits (vacates planned) toLowercase).Sound _ _ := waits_sound toLowercase hcycles
    obtain ⟨hall, habove⟩ := Waits.Graph.depths_above hsound.inside hsound.acyclic
    refine ⟨hsound.acyclic, fun u v huv => hsound.links u v ((takes_vacates hcolumns).2 huv), fun e he => ?_, habove⟩
    exact hall e.1 (mem_keys.2 (mem_of_getElem?_eq ((getElem?_vacates hcolumns).2 he)))
  · rw [ExtTreeSet.mem_toList, mem_sequenceCycles hsequences]
  · obtain ⟨x, hx, y, hy, hxa, hyb, -⟩ := id hab
    refine ⟨_, _, sequenceDepth_eq ⟨x, hx, hxa⟩, sequenceDepth_eq ⟨y, hy, hyb⟩, ?_⟩
    rw [Releases.walked_depth hsequences hab hcycle]
    exact Nat.lt_succ_self _

/-- `a -> b` waits on `b -> c`, and the sequence that takes `s2` on the one that frees it. -/
theorem chained_renames_pair :
    let planned : List Change := [.renameColumn ⟨"c1"⟩ ⟨"dbo", "t"⟩ "a" "b" none, .renameColumn ⟨"c2"⟩ ⟨"dbo", "t"⟩ "b" "c" none]
    let changes : List Change := [
      .alterColumnNumbering ⟨"c3"⟩ ⟨⟨"dbo", "t"⟩, "x"⟩ ⟨"integer", [], none, false, none⟩ (.sequence ⟨1, 1, some "s1", {}⟩) (.sequence ⟨1, 1, some "s2", {}⟩),
      .alterColumnNumbering ⟨"c4"⟩ ⟨⟨"dbo", "t"⟩, "y"⟩ ⟨"integer", [], none, false, none⟩ (.sequence ⟨1, 1, some "s2", {}⟩) .none]
    (∃ d e : Nat, (chainDepth (vacates planned) fun c => [c.toLower])[ColumnRef.mk ⟨"dbo", "t"⟩ "a"]? = some d ∧
      (chainDepth (vacates planned) fun c => [c.toLower])[ColumnRef.mk ⟨"dbo", "t"⟩ "b"]? = some e ∧ e < d) ∧
    ∃ d e : Nat, (sequenceReleaseDepths changes ∅).1[ColumnRef.mk ⟨"dbo", "t"⟩ "x"]? = some d ∧
      (sequenceReleaseDepths changes ∅).1[ColumnRef.mk ⟨"dbo", "t"⟩ "y"]? = some e ∧ e < d := by
  intro planned changes
  have hcolumns : ((vacatedNames planned).map Prod.fst).Nodup := by decide
  have hsequences : Distinct (changes.filterMap (sequenceRelease ∅)) := ⟨by decide, by decide⟩
  obtain ⟨-, hwaits, -, hdepth⟩ := chained_renames (fun c => [c.toLower]) planned changes ∅ hcolumns hsequences
  -- the sequence whose name is taken takes none
  have hfree : ∀ c, ¬ TakesName (changes.filterMap (sequenceRelease ∅)) ⟨⟨"dbo", "t"⟩, "y"⟩ c := by
    rintro c ⟨x, hx, y, hy, hxcolumn, -, name, hclaim, -⟩
    rcases mem_cons.1 hx with rfl | hx
    · exact absurd hxcolumn (by decide)
    · obtain rfl := mem_singleton.1 hx
      cases hclaim
  have hnext : ∀ c, TakesName (changes.filterMap (sequenceRelease ∅)) ⟨⟨"dbo", "t"⟩, "x"⟩ c → c = ⟨⟨"dbo", "t"⟩, "y"⟩ := by
    rintro c ⟨x, hx, y, hy, hxcolumn, hycolumn, name, hclaim, hfrees⟩
    rcases mem_cons.1 hx with rfl | hx
    · rcases mem_cons.1 hy with rfl | hy
      · obtain rfl : (⟨"dbo", "s2"⟩ : TableName) = name := some.inj hclaim
        exact absurd hfrees (by decide)
      · obtain rfl := mem_singleton.1 hy
        exact hycolumn.symm
    · obtain rfl := mem_singleton.1 hx
      cases hclaim
  constructor
  · obtain ⟨-, hexact, -, habove⟩ := hwaits rfl
    exact habove _ _ (hexact ⟨⟨"dbo", "t"⟩, "a"⟩ ⟨⟨"dbo", "t"⟩, "b"⟩ ⟨rfl, by decide, "c", by decide⟩)
  · refine hdepth _ _ ⟨_, List.mem_cons_self, _, List.mem_cons_of_mem _ List.mem_cons_self, rfl, rfl, ⟨"dbo", "s2"⟩, rfl, rfl⟩ ?_
    intro hcycle
    obtain ⟨c, hc, hback⟩ := TransGen.head'_iff.1 hcycle
    obtain rfl := hnext c hc
    rcases ReflTransGen.cases_head hback with heq | ⟨d, hd, -⟩
    · exact absurd heq (by decide)
    · exact hfree d hd

end Pbps.Diff
