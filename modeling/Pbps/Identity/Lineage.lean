/-
The walk of `chain` ends, and what it gathers: records pairwise distinct, each with the source parent the one before it built.
-/
import Pbps.Identity.Guarantees
import Pbps.Identity.Standing
import Pbps.Lib.Chain

namespace Pbps

open Std (ExtTreeMap)
open Trail (Steps)
open List Bool Std.ExtTreeMap

namespace IdsFile

variable {ids : IdsFile} {root u v : Uid} {r record : Rebuild} {link previous : Uid × Rebuild} {links later : List (Uid × Rebuild)}

theorem rebuildInto_eq_some (h : ids.rebuildInto root = some link) :
    ids.rebuilds[link.1]? = some link.2 ∧ link.2.replacementRoot = root :=
  ⟨getElem?_of_mem_toList (mem_of_find?_eq_some h), by simpa using List.find?_some h⟩

def BuiltFrom (ids : IdsFile) (u v : Uid) : Prop := ∃ r, ids.rebuilds[v]? = some r ∧ r.replacementRoot = u

theorem BuiltFrom.unique {u' : Uid} (h : ids.BuiltFrom u v) (h' : ids.BuiltFrom u' v) : u = u' := by
  obtain ⟨r, hr, rfl⟩ := h
  obtain ⟨r', hr', rfl⟩ := h'
  rw [hr] at hr'
  cases hr'
  rfl

/-- Links that lead from records to a table, each recorded and at a distance from it of its own. -/
structure Leads (ids : IdsFile) (root : Uid) (links : List (Uid × Rebuild)) : Prop where
  recorded : ∀ l ∈ links, ids.rebuilds[l.1]? = some l.2
  linked : links.IsChain fun a b => a.2.replacementRoot = b.1
  nodup : (links.map (·.1)).Nodup
  passed : ∀ l ∈ links, ∃ n ≤ links.length, Steps ids.BuiltFrom root n l.1
  first : ∀ l, links.head? = some l → Steps ids.BuiltFrom root links.length l.1

theorem Leads.length_le (h : ids.Leads root links) : links.length ≤ ids.rebuilds.size := by
  rw [← length_keys, ← length_map (·.1)]
  refine (subperm_of_subset h.nodup fun u hu => ?_).length_le
  obtain ⟨l, hl, rfl⟩ := List.mem_map.1 hu
  exact ExtTreeMap.mem_keys.2 (mem_of_getElem?_eq (h.recorded l hl))

theorem leads_singleton (hr : ids.rebuilds[u]? = some record) : ids.Leads record.replacementRoot [(u, record)] := by
  have hstep : Steps ids.BuiltFrom record.replacementRoot 1 u := .next .here ⟨record, hr, rfl⟩
  exact ⟨by simpa using hr, List.IsChain.singleton _, nodup_singleton _, by simpa using ⟨1, le_rfl, hstep⟩,
    by simpa using hstep⟩

variable (hfirst : ∀ v, ¬ ids.BuiltFrom v root) (h : ids.Leads root (link :: later))
include hfirst h

/-- The record that built the first link's source parent is a link that was not passed. -/
theorem Leads.cons (hprevious : ids.rebuildInto link.1 = some previous) : ids.Leads root (previous :: link :: later) := by
  obtain ⟨hrecorded, hroot⟩ := rebuildInto_eq_some hprevious
  have hstep : Steps ids.BuiltFrom root (previous :: link :: later).length previous.1 :=
    .next (h.first link rfl) ⟨previous.2, hrecorded, hroot⟩
  refine ⟨forall_mem_cons.2 ⟨hrecorded, h.recorded⟩, isChain_cons_cons.2 ⟨hroot, h.linked⟩, ?_, ?_, ?_⟩
  · rw [map_cons, nodup_cons]
    refine ⟨fun hmem => ?_, h.nodup⟩
    obtain ⟨l, hl, heq⟩ := List.mem_map.1 hmem
    obtain ⟨n, hn, hsteps⟩ := h.passed l hl
    rw [heq] at hsteps
    have hsame := Steps.unique (r := ids.BuiltFrom) (fun _ _ _ => BuiltFrom.unique) hfirst hsteps hstep
    rw [hsame, length_cons] at hn
    omega
  · refine forall_mem_cons.2 ⟨⟨_, le_rfl, hstep⟩, fun l hl => ?_⟩
    obtain ⟨n, hn, hsteps⟩ := h.passed l hl
    exact ⟨n, by rw [length_cons]; omega, hsteps⟩
  · rintro l hl
    cases hl
    exact hstep

theorem chainFrom_leads {turns : Nat} (hturns : ids.rebuilds.size < (link :: later).length + turns) :
    ∃ links, (∀ turns' ≥ turns, ids.chainFrom turns' link later = some links) ∧ ids.Leads root links ∧
      links.getLast? = (link :: later).getLast? ∧ ∀ oldest, links.head? = some oldest → ids.rebuildInto oldest.1 = none := by
  induction turns generalizing link later with
  | zero =>
    have := h.length_le
    omega
  | succ turns ih =>
    cases hprevious : ids.rebuildInto link.1 with
    | none =>
      refine ⟨link :: later, fun turns' hle => ?_, h, rfl, by simpa using hprevious⟩
      obtain ⟨n, rfl⟩ := Nat.exists_eq_add_of_lt (Nat.lt_of_lt_of_le (Nat.succ_pos _) hle)
      rw [Nat.zero_add, chainFrom, hprevious]
    | some previous =>
      obtain ⟨links, hchain, hleads, hlast, holdest⟩ := ih (h.cons hfirst hprevious) (by
        rw [length_cons]; omega)
      refine ⟨links, fun turns' hle => ?_, hleads, hlast.trans List.getLast?_cons_cons, holdest⟩
      obtain ⟨n, rfl⟩ := Nat.exists_eq_add_of_le hle
      rw [show turns + 1 + n = (turns + n) + 1 by omega, chainFrom, hprevious]
      exact hchain _ (Nat.le_add_right _ _)

end IdsFile

theorem Valid.source_retired {ids : IdsFile} {u : Uid} {r : Rebuild} (h : Valid ids) (hr : ids.rebuilds[u]? = some r) :
    u ∈ ids.tombstones := by
  have hvalid := h.rebuilds u r hr
  simp only [IdsFile.rebuildInvalid, or_eq_false_iff, bne_eq_false_iff_eq, not_eq_eq_eq_not, Bool.not_false,
    any_eq_false, not_eq_true] at hvalid
  obtain ⟨⟨⟨⟨⟨-, hroot⟩, hwhole⟩, -⟩, hsources⟩, -⟩ := hvalid
  rw [Rebuild.continuesAreWhole, and_eq_true, all_eq_true] at hwhole
  have hpair := hwhole.1 (r.replacementRoot, u) (mem_toList_iff_getElem?_eq_some.2 hroot)
  rw [or_eq_true, and_eq_true, and_eq_true] at hpair
  have hsource : u ∈ r.sources := by
    rw [Rebuild.sources, mem_append, ExtTreeMap.mem_keys, ExtTreeMap.mem_keys]
    exact hpair.imp (fun h => ExtTreeMap.contains_iff_mem.1 h.2) fun h => ExtTreeMap.contains_iff_mem.1 h.2
  exact ExtTreeMap.contains_iff_mem.1 (by simpa using hsources u hsource)

theorem Valid.not_builtFrom_live {ids : IdsFile} {root v : Uid} (h : Valid ids) (hlive : root ∈ ids.tables) :
    ¬ ids.BuiltFrom v root := by
  rintro ⟨r, hr, -⟩
  have hdead := h.apart root (h.source_retired hr)
  rw [IdsFile.isLive, ExtTreeMap.contains_iff_mem.2 hlive] at hdead
  simp at hdead

/-- Walked back from a record whose replacement is a live table, the loop ends, whatever turns more it is given: the records are
pairwise distinct, the oldest first and the one asked for last, and each replaces the next one's source parent. -/
theorem IdsFile.chain_spec (ids : IdsFile) (key : Uid) (record : Rebuild) (hvalid : ids.validate = .ok ())
    (hrecord : ids.rebuilds[key]? = some record) (hlive : record.replacementRoot ∈ ids.tables) :
    ∃ links, (∀ turns ≥ ids.rebuilds.size, ids.chain turns key record = some links) ∧
      (∀ l ∈ links, ids.rebuilds[l.1]? = some l.2) ∧ (links.map (·.1)).Nodup ∧
      links.IsChain (fun earlier later => earlier.2.replacementRoot = later.1) ∧ links.getLast? = some (key, record) ∧
      ∀ oldest, links.head? = some oldest → ids.rebuildInto oldest.1 = none := by
  have hfirst : ∀ v, ¬ ids.BuiltFrom v record.replacementRoot := fun v => (validate_eq_ok.1 hvalid).not_builtFrom_live hlive
  have hturns : ids.rebuilds.size < [(key, record)].length + ids.rebuilds.size := by
    rw [length_singleton]; omega
  obtain ⟨links, hchain, hleads, hlast, holdest⟩ := chainFrom_leads hfirst (leads_singleton hrecord) hturns
  exact ⟨links, hchain, hleads.recorded, hleads.nodup, hleads.linked, hlast, holdest⟩

namespace Identity

/-- The record before `rebuildRecord`: its replacement is what that one rebuilt. -/
def firstRebuild : Rebuild :=
  { rebuildRecord with
    source :=
      { tables := (∅ : ExtTreeMap Uid TableName).insert ⟨"t_first"⟩ rebuiltTable
        columns := (∅ : ExtTreeMap Uid ColumnRef).insert ⟨"c_first"⟩ (rebuiltTable.column "id") }
    replacement := rebuildRecord.source
    replacementRoot := ⟨"t_old"⟩
    continues := (∅ : ExtTreeMap Uid Uid).insert ⟨"t_old"⟩ ⟨"t_first"⟩ |>.insert ⟨"c_old"⟩ ⟨"c_first"⟩ }

def rebuiltTwice : IdsFile :=
  { rebuiltIds with
    tombstones := rebuiltIds.tombstones.insert ⟨"t_first"⟩ (rebuiltTombstone "app.orders_2024")
      |>.insert ⟨"c_first"⟩ (rebuiltTombstone "app.orders_2024.id")
    rebuilds := rebuiltIds.rebuilds.insert ⟨"t_first"⟩ firstRebuild }

theorem chain_spec_twice : rebuiltTwice.chain 2 ⟨"t_old"⟩ rebuildRecord =
      some [(⟨"t_first"⟩, firstRebuild), (⟨"t_old"⟩, rebuildRecord)] ∧
    ∃ links, (∀ turns ≥ rebuiltTwice.rebuilds.size, rebuiltTwice.chain turns ⟨"t_old"⟩ rebuildRecord = some links) ∧
      (∀ l ∈ links, rebuiltTwice.rebuilds[l.1]? = some l.2) ∧ (links.map (·.1)).Nodup ∧
      links.IsChain (fun earlier later => earlier.2.replacementRoot = later.1) ∧
      links.getLast? = some (⟨"t_old"⟩, rebuildRecord) ∧
      ∀ oldest, links.head? = some oldest → rebuiltTwice.rebuildInto oldest.1 = none :=
  ⟨by decide, rebuiltTwice.chain_spec ⟨"t_old"⟩ rebuildRecord (by decide) (by decide) (by decide)⟩

end Identity

end Pbps
