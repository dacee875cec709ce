/-
Where an environment stands along the approvals that lead to a live parent: `chain`, `holding` and `stand` of `pbps-diff`'s
`rebuild.rs`.
-/
import Pbps.Model.Ids

namespace Pbps

namespace IdsFile

/-- `IdsFile::rebuild_into`: the record that produced a table, under the source parent it is keyed by. -/
def rebuildInto (ids : IdsFile) (replacementRoot : Uid) : Option (Uid × Rebuild) :=
  ids.rebuilds.toList.find? fun e => e.2.replacementRoot = replacementRoot

/-- The loop of `chain`: while a record produced the first link's source parent, it is put before the links. -/
def chainFrom (ids : IdsFile) : Nat → Uid × Rebuild → List (Uid × Rebuild) → Option (List (Uid × Rebuild))
  | 0, _, _ => none
  | turns + 1, link, later =>
    match ids.rebuildInto link.1 with
    | none => some (link :: later)
    | some previous => ids.chainFrom turns previous (link :: later)

/-- `chain`, in so many turns of its loop. -/
def chain (ids : IdsFile) (turns : Nat) (key : Uid) (record : Rebuild) : Option (List (Uid × Rebuild)) :=
  ids.chainFrom turns (key, record) []

end IdsFile

/-- What an environment's baseline holds of one record; `inPart` is the source's `Partial`, parts of both or of one. -/
inductive Holding where
  | source
  | replacement
  | neither
  | inPart
  deriving DecidableEq

/-- How many of a tree's identities a baseline has. -/
def RebuildIdentities.heldBy (r : RebuildIdentities) (base : IdsFile) : Nat :=
  r.tables.keys.countP base.tables.contains + r.columns.keys.countP base.columns.contains

def RebuildIdentities.size (r : RebuildIdentities) : Nat := r.tables.size + r.columns.size

def holding (base : IdsFile) (key : Uid) (record : Rebuild) : Holding :=
  let source := record.source.heldBy base
  let replacement := record.replacement.heldBy base
  match base.tables.contains key, base.tables.contains record.replacementRoot with
  | true, false => if source = record.source.size ∧ replacement = 0 then .source else .inPart
  | false, true => if source = 0 then .replacement else .inPart
  | false, false => if source + replacement = 0 then .neither else .inPart
  | true, true => .inPart

/-- Where an environment stands along a chain of records: at the source of one, at the end, before it, or nowhere. -/
inductive Stand where
  | source (link : Nat)
  | done
  | fresh
  | inPart

/-- To hold a replacement parent is to hold the next link's source parent. -/
def stand (base : IdsFile) (links : List (Uid × Rebuild)) : Stand :=
  let held := links.map fun l => holding base l.1 l.2
  match held.count .inPart, held.count .source, held.count .replacement with
  | 0, 0, 0 => .fresh
  | 0, 1, 0 => .source (held.idxOf .source)
  | 0, 1, 1 => if held.idxOf .replacement + 1 = held.idxOf .source then .source (held.idxOf .source) else .inPart
  | 0, 0, 1 => if held.idxOf .replacement + 1 = links.length then .done else .inPart
  | _, _, _ => .inPart

/-! ## Records that stop a plan -/

/-- Why an approved rewrite's record stops a plan. -/
inductive LineageReason where
  | unreadable (error : IdsError)
  | engine
  | inPart
  | unqualified
  | unrecorded

/-- `DiffError::RebuildTable`. -/
structure LineageError where
  table : TableName
  why : LineageReason

section

-- `postgres`: the dialect's name. `qualifies`: whether `qualify` accepts the rewrite that leads to a table.
variable (postgres : Bool) (qualifies : TableName → Bool) (base declared : IdsFile)

/-- A record whose replacement is live, by what the baseline holds of its chain; only the latest link has a live parent. -/
def linkError (key : Uid) (record : Rebuild) : Option LineageError :=
  declared.tables[record.replacementRoot]?.bind fun table =>
    if !postgres then some ⟨table, .engine⟩
    else
      match stand base ((declared.chain declared.rebuilds.size key record).getD []) with
      | .done | .fresh => none
      | .inPart => some ⟨table, .inPart⟩
      | .source _ => if qualifies table then none else some ⟨table, .unqualified⟩

/-- A rewrite the environment has applied and the declared files no longer record. -/
def unrecordedError (record : Rebuild) : Option LineageError :=
  base.tables[record.replacementRoot]?.bind fun table =>
    if declared.tables.contains record.replacementRoot || declared.tombstones.contains record.replacementRoot then none
    else some ⟨table, .unrecorded⟩

/-- The table an unreadable record is named by. -/
def unreadableTable (error : IdsError) : TableName :=
  match error with
  | .invalidRebuild uid => ((declared.rebuilds[uid]?).bind (·.source.tables[uid]?)).getD ⟨"?", "?"⟩
  | _ => ⟨"?", "?"⟩

/-- `lineage_errors`: the refusals the records impose on a plan. -/
def lineageErrors : List LineageError :=
  match if declared.rebuilds.isEmpty then .ok () else declared.validate with
  | .error error => [⟨unreadableTable declared error, .unreadable error⟩]
  | .ok () =>
    (declared.rebuilds.toList.filterMap fun e => linkError postgres qualifies base declared e.1 e.2) ++
      base.rebuilds.toList.filterMap fun e => unrecordedError base declared e.2

variable {postgres qualifies base declared}

theorem lineageErrors_eq_nil : lineageErrors postgres qualifies base declared = [] ↔
    (declared.rebuilds.isEmpty = true ∨ declared.validate = .ok ()) ∧
      (∀ e ∈ declared.rebuilds.toList, linkError postgres qualifies base declared e.1 e.2 = none) ∧
      ∀ e ∈ base.rebuilds.toList, unrecordedError base declared e.2 = none := by
  unfold lineageErrors
  cases declared.rebuilds.isEmpty with
  | true => simp
  | false => cases declared.validate <;> simp

/-- Two readings of the records differ only where a rewrite qualifies under the one and not under the other. -/
theorem exists_qualifies {qualifies' : TableName → Bool} (h : lineageErrors postgres qualifies base declared = [])
    (h' : lineageErrors postgres qualifies' base declared ≠ []) :
    ∃ e ∈ declared.rebuilds.toList, ∃ table, declared.tables[e.2.replacementRoot]? = some table ∧ qualifies table = true ∧
      qualifies' table = false := by
  obtain ⟨hread, hlinks, hgone⟩ := lineageErrors_eq_nil.1 h
  obtain ⟨e, he, hlink⟩ : ∃ e ∈ declared.rebuilds.toList, linkError postgres qualifies' base declared e.1 e.2 ≠ none := by
    by_contra hall
    push Not at hall
    exact h' (lineageErrors_eq_nil.2 ⟨hread, hall, hgone⟩)
  refine ⟨e, he, ?_⟩
  have hnone := hlinks e he
  unfold linkError at hnone hlink
  cases htable : declared.tables[e.2.replacementRoot]? with
  | none => simp [htable] at hlink
  | some table =>
    refine ⟨table, rfl, ?_⟩
    rw [htable, Option.bind_some] at hnone hlink
    cases postgres with
    | false => simp at hnone
    | true =>
      generalize stand base ((declared.chain declared.rebuilds.size e.1 e.2).getD []) = stands at hnone hlink
      cases stands with
      | source link => simpa using And.intro hnone hlink
      | done => simp at hlink
      | fresh => simp at hlink
      | inPart => simp at hnone

end

end Pbps
