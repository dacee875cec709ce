/-
What `IdsFile::validate` accepts, as a proposition about the file, and what resolution does to it.
-/
import Pbps.Identity.Whole
import Pbps.Lib.Check

namespace Pbps

open Std (ExtTreeMap ExtTreeSet)
open List Except Std.ExtTreeMap

section Sections

variable {N : Type}

variable {section_ : ExtTreeMap Uid N}

theorem checkKind_eq_ok {kind : UidKind} : checkKind kind section_ = .ok () ↔ ∀ u : Uid, u ∈ section_ → u.kind = kind := by
  simp only [checkKind, forM_eq_ok, guard_eq_ok, ExtTreeMap.mem_keys, ne_eq, not_not]

theorem checkUnique_eq_ok : ∀ {l : List (Uid × String)} {seen : ExtTreeMap String Uid},
    checkUnique l seen = .ok () ↔ (l.map Prod.snd).Nodup ∧ ∀ e ∈ l, e.2 ∉ seen
  | [], _ => by simp [checkUnique, pure, Except.pure]
  | (uid, name) :: l, seen => by
    unfold checkUnique
    cases h : seen[name]? with
    | some prev =>
      have : name ∈ seen := mem_of_getElem?_eq h
      simp [throw, throwThe, MonadExceptOf.throw, this]
    | none =>
      have hn : name ∉ seen := by rw [mem_iff_exists, h]; simp
      rw [checkUnique_eq_ok, map_cons, nodup_cons, forall_mem_cons]
      simp only [mem_insert, Std.LawfulEqOrd.compare_eq_iff_eq, not_or, List.mem_map]
      constructor
      · rintro ⟨h1, h2⟩
        exact ⟨⟨fun ⟨e, he, heq⟩ => (h2 e he).1 heq.symm, h1⟩, hn, fun e he => (h2 e he).2⟩
      · rintro ⟨⟨h1, h2⟩, -, h3⟩
        exact ⟨h2, fun e he => ⟨fun heq => h1 ⟨e, he, heq.symm⟩, h3 e he⟩⟩

def SpelledOnce (raw : N → String) (section_ : ExtTreeMap Uid N) : Prop :=
  ∀ (u v : Uid) a b, section_[u]? = some a → section_[v]? = some b → raw a = raw b → u = v

theorem checkUnique_spelled {raw : N → String} : checkUnique (spelled raw section_) ∅ = .ok () ↔ SpelledOnce raw section_ := by
  have hnd : section_.toList.Pairwise fun a b => a.1 ≠ b.1 :=
    distinct_keys_toList.imp fun h he => h (by rw [he]; exact Std.ReflOrd.compare_self)
  rw [checkUnique_eq_ok, spelled, List.map_map]
  constructor
  · rintro ⟨h, -⟩ u v a b hu hv hab
    have hu' := mem_toList_iff_getElem?_eq_some.2 hu
    have hv' := mem_toList_iff_getElem?_eq_some.2 hv
    exact congrArg Prod.fst (inj_on_of_nodup_map h hu' hv' hab)
  · intro h
    refine ⟨Nodup.map_on ?_ (hnd.imp fun h he => h (by rw [he])), fun e _ => by simp⟩
    rintro ⟨u, a⟩ hu ⟨v, b⟩ hv hab
    rw [mem_toList_iff_getElem?_eq_some] at hu hv
    have := h u v a b hu hv hab
    subst this
    rw [hu] at hv; cases hv; rfl

end Sections

/-! ## Valid files -/

/-- What `IdsFile::validate` accepts. -/
structure Valid (ids : IdsFile) : Prop where
  version : ids.version = CURRENT_VERSION
  kinds : Identity.Kinds ids
  requires : ∀ (u : Uid) t, ids.tombstones[u]? = some t → ¬ t.require.any (·.invalidFor u) = true
  apart : ∀ u : Uid, u ∈ ids.tombstones → ids.isLive u = false
  tables : SpelledOnce TableName.raw ids.tables
  columns : SpelledOnce ColumnRef.raw ids.columns
  roles : SpelledOnce id ids.roles
  types : SpelledOnce TypeRef.raw ids.types
  extensions : SpelledOnce id ids.extensions
  parents : ∀ (u : Uid) c, ids.columns[u]? = some c → ∃ v : Uid, ids.tables[v]? = some c.table
  moves : ∀ u : Uid, u ∈ ids.moves → u ∈ ids.tables
  conversions : ∀ (u : Uid) c, ids.conversions[u]? = some c → u ∈ ids.columns ∧ c.invalid = false
  rebuilds : ∀ (u : Uid) r, ids.rebuilds[u]? = some r → ids.rebuildInvalid u r = false
  reserved : (ids.rebuilds.toList.flatMap fun e => e.2.targets).Nodup

variable {ids : IdsFile}

theorem validateSections_eq_ok : ids.validateSections = .ok () ↔ ids.version = CURRENT_VERSION ∧ Identity.Kinds ids ∧
      (∀ (u : Uid) t, ids.tombstones[u]? = some t → ¬ t.require.any (·.invalidFor u) = true ∧ ids.isLive u = false) ∧
      (SpelledOnce TableName.raw ids.tables ∧ SpelledOnce ColumnRef.raw ids.columns ∧ SpelledOnce id ids.roles ∧
        SpelledOnce TypeRef.raw ids.types ∧ SpelledOnce id ids.extensions) ∧
      (∀ (u : Uid) c, ids.columns[u]? = some c → ∃ v : Uid, ids.tables[v]? = some c.table) ∧
      (∀ u : Uid, u ∈ ids.moves → u ∈ ids.tables) ∧
      ∀ (u : Uid) c, ids.conversions[u]? = some c → u ∈ ids.columns ∧ c.invalid = false := by
  unfold IdsFile.validateSections
  simp only [guard_bind_eq_ok, bind_eq_ok, checkKind_eq_ok, forM_eq_ok, guard_eq_ok,
    require_eq_ok, checkUnique_spelled, Prod.forall, mem_toList_iff_getElem?_eq_some,
    mem_map_snd_toList, ExtTreeMap.mem_keys, ExtTreeMap.contains_iff_mem, ne_eq, not_not,
    Bool.not_eq_true, Bool.not_eq_eq_eq_not, Bool.not_true]
  constructor
  · rintro ⟨h1, h2, h3, h4, h5, h6, h7, h8, h9, h10, h11, h12, h13, h14, h15⟩
    exact ⟨h1, ⟨h2, h3, h4, h6, h5⟩, h7, ⟨h8, h9, h10, h11, h12⟩, h13, h14, fun u c h => by simpa using h15 u c h⟩
  · rintro ⟨h1, ⟨h2, h3, h4, h6, h5⟩, h7, ⟨h8, h9, h10, h11, h12⟩, h13, h14, h15⟩
    exact ⟨h1, h2, h3, h4, h5, h6, h7, h8, h9, h10, h11, h12, h13, h14, fun u c h => by simpa using h15 u c h⟩

theorem validateRebuilds_eq_ok : ∀ {l : List (Uid × Rebuild)} {reserved : ExtTreeSet Uid},
    ids.validateRebuilds l reserved = .ok () ↔ (∀ e ∈ l, ids.rebuildInvalid e.1 e.2 = false) ∧
      (l.flatMap fun e => e.2.targets).Nodup ∧ ∀ u ∈ l.flatMap fun e => e.2.targets, u ∉ reserved
  | [], _ => by simp [IdsFile.validateRebuilds, pure, Except.pure]
  | (uid, r) :: l, reserved => by
    unfold IdsFile.validateRebuilds
    split
    · rename_i h
      simp only [Bool.or_eq_true, any_eq_true, Bool.not_eq_true', decide_eq_false_iff_not] at h
      simp only [throw, throwThe, MonadExceptOf.throw, reduceCtorEq, false_iff]
      rintro ⟨h1, h2, h3⟩
      rw [flatMap_cons, nodup_append] at h2
      rcases h with (h | ⟨u, hu, h⟩) | h
      · have h1 := h1 (uid, r) (by simp); rw [h] at h1; cases h1
      · exact h3 u (by simp [hu]) (ExtTreeSet.contains_iff_mem.1 h)
      · exact h h2.1
    · rename_i h
      simp only [Bool.or_eq_true, any_eq_true, Bool.not_eq_true', decide_eq_false_iff_not, not_or, not_exists,
        not_and, Bool.not_eq_true, not_not] at h
      obtain ⟨⟨h1, h2⟩, h3⟩ := h
      rw [validateRebuilds_eq_ok, forall_mem_cons, flatMap_cons, nodup_append]
      simp only [ExtTreeSet.mem_insertMany_list, not_or, mem_append]
      constructor
      · rintro ⟨h4, h5, h6⟩
        refine ⟨⟨h1, h4⟩, ⟨h3, h5, ?_⟩, ?_⟩
        · rintro a ha b hb rfl
          exact (h6 a hb).2 (by simpa using ha)
        · rintro u (hu | hu)
          · intro hm
            have hf := h2 u hu
            rw [ExtTreeSet.contains_iff_mem.2 hm] at hf; cases hf
          · exact (h6 u hu).1
      · rintro ⟨⟨-, h4⟩, ⟨-, h5, h6⟩, h7⟩
        refine ⟨h4, h5, fun u hu => ⟨h7 u (Or.inr hu), fun hm => ?_⟩⟩
        exact h6 u (by simpa using hm) u hu rfl

theorem validate_eq_ok : ids.validate = .ok () ↔ Valid ids := by
  unfold IdsFile.validate
  rw [bind_eq_ok, validateSections_eq_ok, validateRebuilds_eq_ok]
  constructor
  · rintro ⟨⟨h1, h2, h3, ⟨h4, h5, h6, h7, h8⟩, h9, h10, h11⟩, h12, h13, -⟩
    refine ⟨h1, h2, fun u t h => (h3 u t h).1, fun u hu => ?_, h4, h5, h6, h7, h8, h9, h10, h11, fun u r h => ?_, h13⟩
    · obtain ⟨t, ht⟩ := mem_iff_exists.1 hu
      exact (h3 u t ht).2
    · exact h12 (u, r) (mem_toList_iff_getElem?_eq_some.2 h)
  · intro h
    refine ⟨⟨h.version, h.kinds, fun u t ht => ⟨h.requires u t ht, h.apart u (mem_of_getElem?_eq ht)⟩,
      ⟨h.tables, h.columns, h.roles, h.types, h.extensions⟩, h.parents, h.moves, h.conversions⟩, ?_, h.reserved, by simp⟩
    rintro ⟨u, r⟩ hr
    exact h.rebuilds u r (mem_toList_iff_getElem?_eq_some.1 hr)

end Pbps
