/-
When a merge of readable files is readable. The rules of a file relate its sections to each other, and a merge settles each
section alone; so two edits that are each fine can make a file that no reader takes.
-/
import Pbps.Tree.MergeLaws
import Pbps.Tree.RoundTrip

namespace Pbps.Tree

open Std (ExtTreeMap)
open ThreeWay (pick choose never)
open Option

/-! ## Rules by uid -/

def Rec.IsLive (r : Option Rec) : Prop := ∃ n, r = some (.live n)

section Lookups

variable {V : Type} {l : List (Uid × V)}

variable {records : List (Uid × Rec)}

theorem mem_liveUids (h : (records.map (·.1)).Nodup) {u : Uid} : u ∈ liveUids records ↔ Rec.IsLive (index records)[u]? := by
  simp only [liveUids, List.mem_filterMap, Rec.IsLive, index_eq_some h]
  constructor
  · rintro ⟨⟨v, r⟩, he, hv⟩
    cases r with
    | dead t => cases hv
    | live n =>
      cases hv
      exact ⟨n, he⟩
  · rintro ⟨n, he⟩
    exact ⟨(u, .live n), he, rfl⟩

theorem liveUids_eq_nil (h : (records.map (·.1)).Nodup) :
    liveUids records = [] ↔ ∀ u : Uid, ¬ Rec.IsLive (index records)[u]? := by
  rw [List.eq_nil_iff_forall_not_mem]
  exact forall_congr' fun u => by rw [mem_liveUids h]

theorem eq_nil_iff_index (h : (l.map (·.1)).Nodup) : l = [] ↔ ∀ u : Uid, (index l)[u]? = none := by
  rw [List.eq_nil_iff_forall_not_mem]
  constructor
  · intro hnone u
    rw [eq_none_iff_forall_ne_some]
    intro v hv
    exact hnone (u, v) ((index_eq_some h).1 hv)
  · rintro hnone ⟨u, v⟩ hmem
    rw [← index_eq_some h, hnone] at hmem
    cases hmem

theorem forall_mem_iff_index (h : (l.map (·.1)).Nodup) {P : Uid → V → Prop} :
    (∀ e ∈ l, P e.1 e.2) ↔ ∀ (u : Uid) v, (index l)[u]? = some v → P u v := by
  constructor
  · intro hall u v hv
    exact hall (u, v) ((index_eq_some h).1 hv)
  · rintro hall ⟨u, v⟩ hmem
    exact hall u v ((index_eq_some h).2 hmem)

end Lookups

/-- The rules between the sections of a table's file, by uid. -/
structure TableBody.RulesAt (uid : Uid) (dropped : Bool) (t : TableBody) : Prop where
  columns : dropped = true → ∀ u : Uid, ¬ Rec.IsLive (index t.columns)[u]?
  partitions : dropped = true → ∀ u : Uid, ¬ Rec.IsLive (index t.partitions)[u]?
  noMoves : dropped = true → ∀ u : Uid, (index t.moves)[u]? = none
  noConversions : dropped = true → ∀ u : Uid, (index t.conversions)[u]? = none
  conversions : ∀ (u : Uid) c, (index t.conversions)[u]? = some c → Rec.IsLive (index t.columns)[u]?
  moves : ∀ (u : Uid) m, (index t.moves)[u]? = some m → u = uid ∨ Rec.IsLive (index t.partitions)[u]?

theorem TableBody.rules_iff {uid : Uid} {dropped : Bool} {t : TableBody} (h : (Body.table t).Distinct) :
    t.Rules uid dropped ↔ ((∀ e ∈ t.columns, e.2.Named ColumnNamed) ∧ (∀ e ∈ t.partitions, e.2.Named TableNamed) ∧
      ∀ e ∈ t.rebuilds, e.2.replacementRoot = uid) ∧ t.RulesAt uid dropped := by
  obtain ⟨h1, h2, h3, h4, -⟩ := h
  have hconversions : (∀ e ∈ t.conversions, e.1 ∈ liveUids t.columns) ↔
      ∀ (u : Uid) c, (index t.conversions)[u]? = some c → Rec.IsLive (index t.columns)[u]? := by
    rw [← forall_mem_iff_index h4 (P := fun u _ => Rec.IsLive (index t.columns)[u]?)]
    exact forall₂_congr fun e _ => mem_liveUids h1
  have hmoves : (∀ e ∈ t.moves, e.1 = uid ∨ e.1 ∈ liveUids t.partitions) ↔
      ∀ (u : Uid) m, (index t.moves)[u]? = some m → u = uid ∨ Rec.IsLive (index t.partitions)[u]? := by
    rw [← forall_mem_iff_index h3 (P := fun u _ => u = uid ∨ Rec.IsLive (index t.partitions)[u]?)]
    exact forall₂_congr fun e _ => or_congr_right (mem_liveUids h2)
  constructor
  · rintro ⟨a, b, c, d, e, f⟩
    exact ⟨⟨a, b, f⟩, fun hd => (liveUids_eq_nil h1).1 (c hd).1, fun hd => (liveUids_eq_nil h2).1 (c hd).2.1,
      fun hd => (eq_nil_iff_index h3).1 (c hd).2.2.1, fun hd => (eq_nil_iff_index h4).1 (c hd).2.2.2, hconversions.1 d,
      hmoves.1 e⟩
  · rintro ⟨⟨a, b, f⟩, c1, c2, c3, c4, d, e⟩
    exact ⟨a, b, fun hd => ⟨(liveUids_eq_nil h1).2 (c1 hd), (liveUids_eq_nil h2).2 (c2 hd), (eq_nil_iff_index h3).2 (c3 hd),
      (eq_nil_iff_index h4).2 (c4 hd)⟩, hconversions.2 d, hmoves.2 e, f⟩

/-! ## What the sides may not do together -/

/-- What one side drops or retires, the other does not build on. -/
structure TableBody.Compatible (uid : Uid) (dropping : Prop) (base x y : TableBody) : Prop where
  columns : dropping → ∀ u : Uid, Rec.IsLive (index y.columns)[u]? → (index x.columns)[u]? ≠ (index base.columns)[u]?
  partitions : dropping → ∀ u : Uid, Rec.IsLive (index y.partitions)[u]? → (index x.partitions)[u]? ≠ (index base.partitions)[u]?
  noMoves : dropping → ∀ u : Uid, (index y.moves)[u]? ≠ none → (index base.moves)[u]? ≠ none
  noConversions : dropping → ∀ u : Uid, (index y.conversions)[u]? ≠ none → (index base.conversions)[u]? ≠ none
  conversions : ∀ u : Uid, (index y.conversions)[u]? ≠ none → (index base.conversions)[u]? = none →
    (index y.columns)[u]? = (index base.columns)[u]? → Rec.IsLive (index x.columns)[u]?
  moves : ∀ u : Uid, u ≠ uid → (index y.moves)[u]? ≠ none → (index base.moves)[u]? = none →
    (index y.partitions)[u]? = (index base.partitions)[u]? → Rec.IsLive (index x.partitions)[u]?

section Values

variable {V : Type} {decided : Option V → Prop} {b x y r : Option V}

theorem Follows.symm (h : Follows decided b x y r) : Follows decided b y x r where
  oursChanged hb := h.theirsChanged hb
  theirsChanged hb := h.oursChanged hb
  common hb := (h.common hb.symm).trans hb.symm
  otherwise h1 h2 h3 := h.otherwise (Ne.symm h1) h3 h2

variable {yaml : YamlView}

theorem ByYaml.symm {x y r : Option Rec} (h : ByYaml yaml x y r) : ByYaml yaml y x r := by
  obtain ⟨a, c, ha, hc, hd⟩ := h
  exact ⟨c, a, hc, ha, hd.symm.imp (fun ⟨h1, h2, h3⟩ => ⟨h1, h2, h3⟩) fun ⟨h1, h2, h3⟩ => ⟨h1, h2, h3⟩⟩

theorem Follows.symmYaml {b x y r : Option Rec} (h : Follows (ByYaml yaml x y) b x y r) :
    Follows (ByYaml yaml y x) b y x r where
  oursChanged hb := h.theirsChanged hb
  theirsChanged hb := h.oursChanged hb
  common hb := (h.common hb.symm).trans hb.symm
  otherwise h1 h2 h3 := (h.otherwise (Ne.symm h1) h3 h2).symm

/-- What decides two live records picks one of them, and settles nothing else. -/
def OfLive (decided : Option Rec → Prop) (x y : Option Rec) : Prop :=
  ∀ r, decided r → Rec.IsLive x ∧ Rec.IsLive y ∧ (r = x ∨ r = y)

theorem ofLive_byYaml (yaml : YamlView) (x y : Option Rec) : OfLive (ByYaml yaml x y) x y := by
  rintro r ⟨a, c, rfl, rfl, ⟨-, -, rfl⟩ | ⟨-, -, rfl⟩⟩
  · exact ⟨⟨a, rfl⟩, ⟨c, rfl⟩, .inl rfl⟩
  · exact ⟨⟨a, rfl⟩, ⟨c, rfl⟩, .inr rfl⟩

theorem ofLive_false (x y : Option Rec) : OfLive (fun _ => False) x y := fun _ h => h.elim

theorem Follows.of_live {decided : Option Rec → Prop} {b x y r : Option Rec} (h : Follows decided b x y r)
    (hd : OfLive decided x y) (hx : ¬ Rec.IsLive x) (hr : Rec.IsLive r) : r = y ∧ x = b := by
  have hne : r ≠ x := fun he => hx (he ▸ hr)
  have hyb : y ≠ b := fun hb => hne (h.oursChanged hb)
  have hxy : x ≠ y := fun he => hne (h.common he)
  by_cases hxb : x = b
  · exact ⟨h.theirsChanged hxb, hxb⟩
  · exact absurd (hd r (h.otherwise hxy hyb hxb)).1 hx

theorem Follows.of_not_live {decided : Option Rec → Prop} {b x y r : Option Rec} (h : Follows decided b x y r)
    (hd : OfLive decided x y) (hy : Rec.IsLive y) (hr : ¬ Rec.IsLive r) : r = x ∧ y = b := by
  have hne : r ≠ y := fun he => hr (he ▸ hy)
  have hxb : x ≠ b := fun hb => hne (h.theirsChanged hb)
  have hxy : x ≠ y := fun he => hne ((h.common he).trans he)
  by_cases hyb : y = b
  · exact ⟨h.oursChanged hyb, hyb⟩
  · obtain ⟨hlx, -, hrr⟩ := hd r (h.otherwise hxy hyb hxb)
    rcases hrr with rfl | rfl
    · exact absurd hlx hr
    · exact absurd rfl hne

theorem Follows.of_absent (h : Follows (fun _ => False) b x y r) (hx : x = none) (hr : r ≠ none) : r = y ∧ b = none := by
  have hne : r ≠ x := fun he => hr (he.trans hx)
  have hyb : y ≠ b := fun hb => hne (h.oursChanged hb)
  have hxy : x ≠ y := fun he => hne (h.common he)
  by_cases hxb : x = b
  · exact ⟨h.theirsChanged hxb, hxb ▸ hx⟩
  · exact absurd (h.otherwise hxy hyb hxb) (fun h => h)

theorem Follows.eq_or_eq (h : Follows (fun _ => False) b x y r) : r = x ∨ r = y := by
  by_cases hxy : x = y
  · exact .inl (h.common hxy)
  · by_cases hyb : y = b
    · exact .inl (h.oursChanged hyb)
    · by_cases hxb : x = b
      · exact .inr (h.theirsChanged hxb)
      · exact absurd (h.otherwise hxy hyb hxb) (fun h => h)

end Values

/-! ## The rules of a merged table -/

/-- One side drops a file that the base and the other side have live. -/
def Drops (base x y : Option Tombstone) : Prop := x ≠ none ∧ y = none ∧ base = none

variable {b x y : Option Tombstone}

variable {r : Option Tombstone} {yaml : YamlView} {base : Option Body} {name n : String}

theorem drops_of_follows (h : Follows (fun _ => False) b x y r) (hr : r ≠ none) :
    (x ≠ none ∧ y ≠ none) ∨ Drops b x y ∨ Drops b y x := by
  by_cases hx : x = none
  · obtain ⟨hry, hb⟩ := h.of_absent hx hr
    exact .inr (.inr ⟨hry ▸ hr, hx, hb⟩)
  · by_cases hy : y = none
    · exact .inr (.inl ⟨hx, hy, (h.symm.of_absent hy hr).2⟩)
    · exact .inl ⟨hx, hy⟩

theorem Drops.follows (h : Drops b x y) (hf : Follows (fun _ => False) b x y r) : r ≠ none := by
  rw [hf.oursChanged (h.2.1.trans h.2.2.symm)]
  exact h.1

theorem isSome_of_ne_none {V : Type} {o : Option V} (h : o ≠ none) : o.isSome = true := isSome_iff_ne_none.2 h

section Tables

variable {yaml : YamlView} {uid : Uid} {bd xd yd rd : Option Tombstone} {b x y r : TableBody}

variable {decided : Option Rec → Prop} {V : Type}

theorem not_live_of_drop {bv xv yv rv : Option Rec} (hf : Follows decided bv xv yv rv) (hl : OfLive decided xv yv)
    (hx : ¬ Rec.IsLive xv) (hcompat : Rec.IsLive yv → xv ≠ bv) : ¬ Rec.IsLive rv := by
  intro hr
  obtain ⟨heq, hxb⟩ := hf.of_live hl hx hr
  exact hcompat (heq ▸ hr) hxb

theorem eq_none_of_drop {bv xv yv rv : Option V} (hf : Follows (fun _ => False) bv xv yv rv) (hx : xv = none)
    (hcompat : yv ≠ none → bv ≠ none) : rv = none := by
  by_contra hr
  obtain ⟨heq, hb⟩ := hf.of_absent hx hr
  exact hcompat (heq ▸ hr) hb

theorem live_of_attached {bv xv yv rv : Option V} {bc xc yc rc : Option Rec} (hf : Follows (fun _ => False) bv xv yv rv)
    (hc : Follows decided bc xc yc rc) (hl : OfLive decided xc yc) (hx : xv ≠ none → Rec.IsLive xc)
    (hy : yv ≠ none → Rec.IsLive yc) (hxy : yv ≠ none → bv = none → yc = bc → Rec.IsLive xc) (hrv : rv = yv) (hr : rv ≠ none) :
    Rec.IsLive rc := by
  by_contra hdead
  have hyv : yv ≠ none := hrv ▸ hr
  obtain ⟨hrx, hyb⟩ := hc.of_not_live hl (hy hyv) hdead
  have hxc : ¬ Rec.IsLive xc := fun h => hdead (hrx ▸ h)
  have hxv : xv = none := by
    by_contra hxv
    exact hxc (hx hxv)
  exact hxc (hxy hyv (hf.of_absent hxv hr).2 hyb)

/-- Compatible bodies merge into one that keeps the rules of a body. -/
theorem rulesAt_of_compatible (hx : x.RulesAt uid xd.isSome) (hy : y.RulesAt uid yd.isSome)
    (hf : Body.Follows yaml (.table b) (.table x) (.table y) (.table r)) (hd : Follows (fun _ => False) bd xd yd rd)
    (hxy : TableBody.Compatible uid (Drops bd xd yd) b x y) (hyx : TableBody.Compatible uid (Drops bd yd xd) b y x) :
    r.RulesAt uid rd.isSome := by
  obtain ⟨hcolumns, hpartitions, hmoves, hconversions, -⟩ := hf
  have hsome : ∀ {o : Option Tombstone}, o.isSome = true → o ≠ none := fun h => isSome_iff_ne_none.1 h
  refine ⟨fun hrd u => ?_, fun hrd u => ?_, fun hrd u => ?_, fun hrd u => ?_, fun u c hc => ?_, fun u m hm => ?_⟩
  · rcases drops_of_follows hd (hsome hrd) with ⟨h1, h2⟩ | h | h
    · exact not_live_of_drop (hcolumns u) (ofLive_byYaml _ _ _) (hx.columns (isSome_of_ne_none h1) u)
        fun hl => absurd hl (hy.columns (isSome_of_ne_none h2) u)
    · exact not_live_of_drop (hcolumns u) (ofLive_byYaml _ _ _) (hx.columns (isSome_of_ne_none h.1) u) (hxy.columns h u)
    · exact not_live_of_drop (hcolumns u).symmYaml (ofLive_byYaml _ _ _) (hy.columns (isSome_of_ne_none h.1) u) (hyx.columns h u)
  · rcases drops_of_follows hd (hsome hrd) with ⟨h1, h2⟩ | h | h
    · exact not_live_of_drop (hpartitions u) (ofLive_false _ _) (hx.partitions (isSome_of_ne_none h1) u)
        fun hl => absurd hl (hy.partitions (isSome_of_ne_none h2) u)
    · exact not_live_of_drop (hpartitions u) (ofLive_false _ _) (hx.partitions (isSome_of_ne_none h.1) u) (hxy.partitions h u)
    · exact not_live_of_drop (hpartitions u).symm (ofLive_false _ _) (hy.partitions (isSome_of_ne_none h.1) u) (hyx.partitions h u)
  · rcases drops_of_follows hd (hsome hrd) with ⟨h1, h2⟩ | h | h
    · exact eq_none_of_drop (hmoves u) (hx.noMoves (isSome_of_ne_none h1) u)
        fun hne => absurd (hy.noMoves (isSome_of_ne_none h2) u) hne
    · exact eq_none_of_drop (hmoves u) (hx.noMoves (isSome_of_ne_none h.1) u) (hxy.noMoves h u)
    · exact eq_none_of_drop (hmoves u).symm (hy.noMoves (isSome_of_ne_none h.1) u) (hyx.noMoves h u)
  · rcases drops_of_follows hd (hsome hrd) with ⟨h1, h2⟩ | h | h
    · exact eq_none_of_drop (hconversions u) (hx.noConversions (isSome_of_ne_none h1) u)
        fun hne => absurd (hy.noConversions (isSome_of_ne_none h2) u) hne
    · exact eq_none_of_drop (hconversions u) (hx.noConversions (isSome_of_ne_none h.1) u) (hxy.noConversions h u)
    · exact eq_none_of_drop (hconversions u).symm (hy.noConversions (isSome_of_ne_none h.1) u) (hyx.noConversions h u)
  · have hxc := fun h => ne_none_iff_exists'.1 h |>.elim (hx.conversions u)
    have hyc := fun h => ne_none_iff_exists'.1 h |>.elim (hy.conversions u)
    have hne : (index r.conversions)[u]? ≠ none := by simp [hc]
    rcases (hconversions u).eq_or_eq with heq | heq
    · exact live_of_attached (hconversions u).symm (hcolumns u).symmYaml (ofLive_byYaml _ _ _) hyc hxc (hyx.conversions u) heq hne
    · exact live_of_attached (hconversions u) (hcolumns u) (ofLive_byYaml _ _ _) hxc hyc (hxy.conversions u) heq hne
  · by_cases hu : u = uid
    · exact .inl hu
    · have hxm := fun h => (ne_none_iff_exists'.1 h |>.elim (hx.moves u)).resolve_left hu
      have hym := fun h => (ne_none_iff_exists'.1 h |>.elim (hy.moves u)).resolve_left hu
      have hne : (index r.moves)[u]? ≠ none := by simp [hm]
      refine .inr ?_
      rcases (hmoves u).eq_or_eq with heq | heq
      · exact live_of_attached (hmoves u).symm (hpartitions u).symm (ofLive_false _ _) hym hxm (hyx.moves u hu) heq hne
      · exact live_of_attached (hmoves u) (hpartitions u) (ofLive_false _ _) hxm hym (hxy.moves u hu) heq hne

theorem compatible_of_rulesAt (hx : x.RulesAt uid xd.isSome)
    (hf : Body.Follows yaml (.table b) (.table x) (.table y) (.table r)) (hd : Follows (fun _ => False) bd xd yd rd)
    (hr : r.RulesAt uid rd.isSome) : TableBody.Compatible uid (Drops bd xd yd) b x y := by
  obtain ⟨hcolumns, hpartitions, hmoves, hconversions, -⟩ := hf
  refine ⟨fun h u hl heq => ?_, fun h u hl heq => ?_, fun h u hne hb => ?_, fun h u hne hb => ?_, fun u hne hb heq => ?_,
    fun u hu hne hb heq => ?_⟩
  · have hrd := isSome_of_ne_none (h.follows hd)
    rw [← (hcolumns u).theirsChanged heq] at hl
    exact hr.columns hrd u hl
  · have hrd := isSome_of_ne_none (h.follows hd)
    rw [← (hpartitions u).theirsChanged heq] at hl
    exact hr.partitions hrd u hl
  · have hxm := hx.noMoves (isSome_of_ne_none h.1) u
    rw [← (hmoves u).theirsChanged (hxm.trans hb.symm)] at hne
    exact hne (hr.noMoves (isSome_of_ne_none (h.follows hd)) u)
  · have hxm := hx.noConversions (isSome_of_ne_none h.1) u
    rw [← (hconversions u).theirsChanged (hxm.trans hb.symm)] at hne
    exact hne (hr.noConversions (isSome_of_ne_none (h.follows hd)) u)
  · by_cases hxc : (index x.conversions)[u]? = none
    · rw [← (hconversions u).theirsChanged (hxc.trans hb.symm)] at hne
      obtain ⟨c, hc⟩ := ne_none_iff_exists'.1 hne
      have hlive := hr.conversions u c hc
      rwa [(hcolumns u).oursChanged heq] at hlive
    · obtain ⟨c, hc⟩ := ne_none_iff_exists'.1 hxc
      exact hx.conversions u c hc
  · by_cases hxm : (index x.moves)[u]? = none
    · rw [← (hmoves u).theirsChanged (hxm.trans hb.symm)] at hne
      obtain ⟨m, hm⟩ := ne_none_iff_exists'.1 hne
      have hlive := (hr.moves u m hm).resolve_left hu
      rwa [(hpartitions u).oursChanged heq] at hlive
    · obtain ⟨m, hm⟩ := ne_none_iff_exists'.1 hxm
      exact (hx.moves u m hm).resolve_left hu

end Tables

/-! ## Names -/

theorem Body.Named.of_live {b : Body} (h : b.Named false) : b.Named true := by
  cases b with
  | role n => exact h
  | extension n => exact h
  | type n =>
    rintro rfl
    obtain ⟨t, ht⟩ := h
    cases ht
  | table t =>
    obtain ⟨r, hr⟩ := h
    intro hempty
    rw [hempty] at hr
    cases hr

theorem Body.named_congr {a b : Body} (hkind : a.kind = b.kind) (hname : a.key.2 = b.key.2) (dropped : Bool) :
    a.Named dropped ↔ b.Named dropped := by
  cases a <;> cases b <;> first | cases hkind; done | skip
  all_goals
    simp only [Body.key] at hname
    simp only [Body.Named, hname]

theorem mergedBody_kind {x y : Body} (h : x.kind = y.kind) : (mergedBody yaml base name x y).kind = x.kind := by
  cases x <;> cases y <;> first | rfl | cases h

theorem mergedBody_key {x y : Body} : (mergedBody yaml base name x y).key.2 = name := by
  cases x <;> cases y <;> rfl

theorem settledName_cases {b : Option String} {x y : String} {yaml : Option String} (h : settledName b x y yaml = some n) :
    n = x ∨ n = y := by
  unfold settledName at h
  split at h
  · next v hv =>
    cases h
    rcases ThreeWay.pick_eq_ok hv with ⟨rfl, -⟩ | ⟨rfl, -⟩
    · exact .inl rfl
    · exact .inr rfl
  · split at h
    · next hyaml =>
      rw [h] at hyaml
      exact hyaml.imp some.inj some.inj
    · cases h

theorem settledName_right {b : Option String} {x y : String} {yaml : Option String} (h : settledName b x y yaml = some n) :
    n = y ↔ x = y ∨ b = some x ∨ (b ≠ some y ∧ yaml = some y) := by
  by_cases hxy : x = y
  · rw [hxy] at h
    exact ⟨fun _ => .inl hxy, fun _ => (settledName_cases h).elim id id⟩
  · unfold settledName at h
    by_cases hy : b = some y
    · rw [hy, ThreeWay.pick_base_right] at h
      cases h
      simp [hxy, hy, Ne.symm hxy]
    · by_cases hx : b = some x
      · rw [hx, ThreeWay.pick_base_left] at h
        cases h
        simp [hx]
      · have hpick := ThreeWay.pick_error_iff.2 ⟨fun he => hxy (some.inj he), Ne.symm hy, Ne.symm hx⟩
        rw [hpick] at h
        dsimp only at h
        split at h
        · rw [h]
          simp [hxy, hx, hy]
        · cases h

theorem follows_settledDrop (h : settledDrop b x y ≠ none) : Follows (fun _ => False) b x y (settledDrop b x y).join := by
  have hchoose : settledDrop b x y = choose never b x y := by
    unfold settledDrop choose
    cases pick b x y with
    | ok v => rfl
    | error e => cases x <;> cases y <;> rfl
  rw [hchoose] at h ⊢
  exact follows_of_choose (fun _ _ _ _ _ hz => nomatch hz) h

/-! ## Files -/

/-- What one side of a merge does that the other does not undo: a file that the second restores is not left under a
name of the first that only a dropped file may have, and what the first drops or retires the second does not build on. -/
structure Compatible (yaml : YamlView) (base : Option TreeFile) (x y : TreeFile) : Prop where
  name : x.dropped ≠ none → (base.bind (·.dropped)) = x.dropped → y.dropped = none → x.body.Named false ∨
    x.body.key.2 = y.body.key.2 ∨ base.map (·.body.key.2) = some x.body.key.2 ∨
      (base.map (·.body.key.2) ≠ some y.body.key.2 ∧ yaml.name = some y.body.key.2)
  sections : ∀ tx ty, x.body = .table tx → y.body = .table ty →
    TableBody.Compatible x.uid (Drops (base.bind (·.dropped)) x.dropped y.dropped) (tableBody (base.map (·.body))) tx ty

section Files

variable {serde : Serde} {yaml : YamlView} {base : Option TreeFile} {ours theirs : TreeFile}

variable {b x y : TableBody} {bd xd yd rd : Option Tombstone} {V : Type} {uid : Uid}

variable {r : Body} {n name : String} {judge : V → V → Option V}

theorem named_of_restored {b : Option String} {x y : Body} {yaml : Option String}
    (hn : settledName b x.key.2 y.key.2 yaml = some n) (hkx : r.kind = x.kind) (hky : r.kind = y.kind) (hr : r.key.2 = n)
    (hy : y.Named yd.isSome) (hd : Follows (fun _ => False) bd xd yd rd) (hxd : xd ≠ none) (hrd : rd = none) :
    r.Named rd.isSome ↔ (bd = xd → yd = none → x.Named false ∨ x.key.2 = y.key.2 ∨ b = some x.key.2 ∨
      (b ≠ some y.key.2 ∧ yaml = some y.key.2)) := by
  have hyd : yd = none := by
    rcases hd.eq_or_eq with h | h
    · exact absurd (h.symm.trans hrd) hxd
    · exact h.symm.trans hrd
  have hbd : bd = xd := by
    by_contra hne
    have hxy : xd ≠ yd := fun he => hxd (he.trans hyd)
    by_cases hyb : yd = bd
    · exact hxd ((hd.oursChanged hyb).symm.trans hrd)
    · exact hd.otherwise hxy hyb (Ne.symm hne)
  rw [hrd, ← settledName_right hn]
  rw [hyd] at hy
  constructor
  · intro hnamed _ _
    rcases settledName_cases hn with h | h
    · exact .inl ((Body.named_congr hkx (hr.trans h) false).1 hnamed)
    · exact .inr h
  · intro h
    rcases h hbd hyd with h | h
    · rcases settledName_cases hn with h' | h'
      · exact (Body.named_congr hkx (hr.trans h') false).2 h
      · exact (Body.named_congr hky (hr.trans h') false).2 hy
    · exact (Body.named_congr hky (hr.trans h) false).2 hy

theorem named_iff {b : Option String} {x y : Body} {yaml : Option String} (hn : settledName b x.key.2 y.key.2 yaml = some n)
    (hkx : r.kind = x.kind) (hky : r.kind = y.kind) (hr : r.key.2 = n) (hx : x.Named xd.isSome) (hy : y.Named yd.isSome)
    (hd : Follows (fun _ => False) bd xd yd rd) : r.Named rd.isSome ↔
      (xd ≠ none → bd = xd → yd = none → x.Named false ∨ x.key.2 = y.key.2 ∨ b = some x.key.2 ∨
        (b ≠ some y.key.2 ∧ yaml = some y.key.2)) ∧
      (yd ≠ none → bd = yd → xd = none → y.Named false ∨ y.key.2 = x.key.2 ∨ b = some y.key.2 ∨
        (b ≠ some x.key.2 ∧ yaml = some x.key.2)) := by
  have hn' : settledName b y.key.2 x.key.2 yaml = some n := (settledName_comm b x.key.2 y.key.2 yaml).trans hn
  by_cases hrd : rd = none
  · by_cases hxd : xd = none
    · by_cases hyd : yd = none
      · have hnamed : r.Named rd.isSome := by
          rw [hrd]
          rw [hxd] at hx
          rw [hyd] at hy
          rcases settledName_cases hn with h | h
          · exact (Body.named_congr hkx (hr.trans h) false).2 hx
          · exact (Body.named_congr hky (hr.trans h) false).2 hy
        simp only [hnamed, hxd, hyd, ne_eq, not_true_eq_false, false_implies, and_self]
      · rw [named_of_restored hn' hky hkx hr hx hd.symm hyd hrd]
        simp only [hyd, hxd, ne_eq, not_true_eq_false, not_false_eq_true, false_implies, true_and, true_implies]
    · have hyd : yd = none := by
        rcases hd.eq_or_eq with h | h
        · exact absurd (h.symm.trans hrd) hxd
        · exact h.symm.trans hrd
      rw [named_of_restored hn hkx hky hr hy hd hxd hrd]
      simp only [hyd, hxd, ne_eq, not_true_eq_false, not_false_eq_true, false_implies, and_true, true_implies]
  · -- A dropped file's name need not be one that a reader takes.
    have hnamed : r.Named rd.isSome := by
      have hdropped : ∀ {b : Body} {d : Option Tombstone}, b.Named d.isSome → b.Named true := by
        intro b d h
        cases d with
        | none => exact h.of_live
        | some tomb => exact h
      rw [isSome_of_ne_none hrd]
      rcases settledName_cases hn with h | h
      · exact (Body.named_congr hkx (hr.trans h) true).2 (hdropped hx)
      · exact (Body.named_congr hky (hr.trans h) true).2 (hdropped hy)
    refine iff_of_true hnamed ⟨fun _ hb hyd => ?_, fun _ hb hxd => ?_⟩
    · exact absurd ((hd.theirsChanged hb.symm).trans hyd) hrd
    · exact absurd ((hd.oursChanged hb.symm).trans hxd) hrd

theorem mem_of_mem_recordsOf [DecidableEq V] {base ours theirs : List (Uid × V)}
    (hjudge : ∀ {x y z}, judge x y = some z → z = x ∨ z = y) {e : Uid × V} (h : e ∈ recordsOf judge base ours theirs) :
    e ∈ ours ∨ e ∈ theirs := by
  obtain ⟨u, v⟩ := e
  rw [mem_recordsOf] at h
  rcases ThreeWay.choose_cases h with ⟨ho, -⟩ | ⟨ht, -⟩ | ⟨x, y, z, hx, hy, hz, heq, -⟩
  · exact .inl (mem_of_index ho.symm)
  · exact .inr (mem_of_index ht.symm)
  · cases heq
    rcases hjudge hz with rfl | rfl
    · exact .inl (mem_of_index hx)
    · exact .inr (mem_of_index hy)

theorem byYaml_cases {yaml : YamlView} {x y z : Rec} (h : byYaml yaml x y = some z) : z = x ∨ z = y := by
  obtain ⟨a, b, -, -, ⟨-, -, hz⟩ | ⟨-, -, hz⟩⟩ := byYaml_eq_some h
  · exact .inl (some.inj hz)
  · exact .inr (some.inj hz)

theorem never_cases {x y z : V} (h : never x y = some z) : z = x ∨ z = y := nomatch h

theorem keyed_recordsOf [DecidableEq V] {kind : UidKind} {base ours theirs out : List (Uid × V)}
    (hjudge : ∀ {x y z}, judge x y = some z → z = x ∨ z = y) (ho : Keyed kind ours) (ht : Keyed kind theirs)
    (hout : out.Perm (recordsOf judge base ours theirs)) : Keyed kind out where
  wellFormed e he := (mem_of_mem_recordsOf hjudge (hout.mem_iff.1 he)).elim (ho.wellFormed e) (ht.wellFormed e)
  kind e he := (mem_of_mem_recordsOf hjudge (hout.mem_iff.1 he)).elim (ho.kind e) (ht.kind e)
  nodup := (hout.map _).nodup_iff.2 (nodup_recordsOf ho.nodup ht.nodup)

theorem distinct_of_keyed {t : TableBody} {dropped : Option Tombstone} (h : TreeFile.KeyedSections ⟨uid, .table t, dropped⟩) :
    (Body.table t).Distinct :=
  ⟨h.1.nodup, h.2.1.nodup, h.2.2.1.nodup, h.2.2.2.1.nodup, h.2.2.2.2.nodup⟩

theorem keyed_mergedTable (hx : TreeFile.KeyedSections ⟨uid, .table x, xd⟩) (hy : TreeFile.KeyedSections ⟨uid, .table y, yd⟩) :
    TreeFile.KeyedSections ⟨uid, .table (mergedTable yaml name b x y), rd⟩ := by
  obtain ⟨hx1, hx2, hx3, hx4, hx5⟩ := hx
  obtain ⟨hy1, hy2, hy3, hy4, hy5⟩ := hy
  exact ⟨keyed_recordsOf byYaml_cases hx1 hy1 (mergedTable_columns_perm yaml name b x y),
    keyed_recordsOf never_cases hx2 hy2 (.refl _), keyed_recordsOf never_cases hx3 hy3 (sorted_perm _),
    keyed_recordsOf never_cases hx4 hy4 (sorted_perm _), keyed_recordsOf never_cases hx5 hy5 (sorted_perm _)⟩

theorem Body.Follows.symm {r : TableBody} (h : Body.Follows yaml (.table b) (.table x) (.table y) (.table r)) :
    Body.Follows yaml (.table b) (.table y) (.table x) (.table r) :=
  ⟨fun u => (h.1 u).symmYaml, fun u => (h.2.1 u).symm, fun u => (h.2.2.1 u).symm, fun u => (h.2.2.2.1 u).symm,
    fun u => (h.2.2.2.2 u).symm⟩

theorem mergedTable_rules_iff (hxk : TreeFile.KeyedSections ⟨uid, .table x, xd⟩)
    (hyk : TreeFile.KeyedSections ⟨uid, .table y, yd⟩) (hx : x.Rules uid xd.isSome) (hy : y.Rules uid yd.isSome)
    (hnone : tableConflicts serde yaml b x y = []) (hd : Tree.Follows (fun _ => False) bd xd yd rd) :
    (mergedTable yaml name b x y).Rules uid rd.isSome ↔
      TableBody.Compatible uid (Drops bd xd yd) b x y ∧ TableBody.Compatible uid (Drops bd yd xd) b y x := by
  have hf := @mergedTable_follows yaml serde b x y name (distinct_of_keyed hxk) (distinct_of_keyed hyk) hnone
  have hxr := ((TableBody.rules_iff (distinct_of_keyed hxk)).1 hx)
  have hyr := ((TableBody.rules_iff (distinct_of_keyed hyk)).1 hy)
  -- The rules of single records are kept by both sides, and every record is of one of them.
  have hcolumns : ∀ e ∈ (mergedTable yaml name b x y).columns, e.2.Named ColumnNamed := fun e he =>
    (mem_of_mem_recordsOf byYaml_cases ((mergedTable_columns_perm yaml name b x y).mem_iff.1 he)).elim (hx.columns e) (hy.columns e)
  have hpartitions : ∀ e ∈ (mergedTable yaml name b x y).partitions, e.2.Named TableNamed := fun e he =>
    (mem_of_mem_recordsOf never_cases he).elim (hx.partitions e) (hy.partitions e)
  have hrebuilds : ∀ e ∈ (mergedTable yaml name b x y).rebuilds, e.2.replacementRoot = uid := fun e he =>
    (mem_of_mem_recordsOf never_cases ((sorted_perm _).mem_iff.1 he)).elim (hx.rebuilds e) (hy.rebuilds e)
  rw [TableBody.rules_iff (distinct_of_keyed (@keyed_mergedTable yaml b x y xd yd rd uid name hxk hyk))]
  constructor
  · rintro ⟨-, hr⟩
    exact ⟨compatible_of_rulesAt hxr.2 hf hd hr, compatible_of_rulesAt hyr.2 hf.symm hd.symm hr⟩
  · rintro ⟨hxy, hyx⟩
    exact ⟨⟨hcolumns, hpartitions, hrebuilds⟩, rulesAt_of_compatible hxr.2 hyr.2 hf hd hxy hyx⟩

/-- A merge without conflicts is accepted where each side bears what the other did. -/
theorem mergedFile_accepted_iff (ho : ours.Accepted) (ht : theirs.Accepted) (hsame : OneIdentity ours theirs)
    (hnone : conflictsBoth serde yaml base ours theirs = []) : (mergedFile yaml base ours theirs).Accepted ↔
      Compatible yaml (baseOf base ours.uid) ours theirs ∧ Compatible yaml (baseOf base theirs.uid) theirs ours := by
  obtain ⟨uid, ob, od⟩ := ours
  obtain ⟨uid', tb, td⟩ := theirs
  obtain rfl : uid = uid' := hsame.uid
  have hkind : ob.kind = tb.kind := hsame.kind
  simp only [conflictsBoth, List.append_eq_nil_iff] at hnone
  generalize hbase : baseOf base uid = b at hnone
  obtain ⟨⟨hname, hdrop⟩, hbody⟩ := hnone
  obtain ⟨n, hn⟩ : ∃ n, settledName (b.map (·.body.key.2)) ob.key.2 tb.key.2 yaml.name = some n := by
    rw [← ne_none_iff_exists']
    intro h
    rw [h] at hname
    cases hname
  have hd : Follows (fun _ => False) (b.bind (·.dropped)) od td (settledDrop (b.bind (·.dropped)) od td).join := by
    apply follows_settledDrop
    intro h
    rw [h] at hdrop
    cases hdrop
  have hmerged : mergedFile yaml base ⟨uid, ob, od⟩ ⟨uid, tb, td⟩ = ⟨uid, mergedBody yaml (b.map (·.body)) n ob tb,
      (settledDrop (b.bind (·.dropped)) od td).join⟩ := by
    simp only [mergedFile, hbase, hn, getD_some]
  rw [hmerged]
  generalize (settledDrop (b.bind (·.dropped)) od td).join = rd at hd
  have hmk : (mergedBody yaml (b.map (·.body)) n ob tb).kind = ob.kind := mergedBody_kind hkind
  have hnamed := named_iff hn hmk (hmk.trans hkind) mergedBody_key ho.rules.name ht.rules.name hd
  have htomb : ∀ tomb, rd = some tomb → tomb.was ≠ "" := by
    intro tomb hrd
    rcases hd.eq_or_eq with h | h
    · exact ho.rules.tomb tomb (h.symm.trans hrd)
    · exact ht.rules.tomb tomb (h.symm.trans hrd)
  have hkeyed : TreeFile.KeyedSections ⟨uid, mergedBody yaml (b.map (·.body)) n ob tb, rd⟩ := by
    have hok := ho.keyed
    have htk := ht.keyed
    cases ob <;> cases tb <;> first | trivial | cases hkind; done | skip
    exact keyed_mergedTable hok htk
  have hsections : (∀ t, mergedBody yaml (b.map (·.body)) n ob tb = .table t → t.Rules uid rd.isSome) ↔
      (∀ tx ty, ob = .table tx → tb = .table ty →
        TableBody.Compatible uid (Drops (b.bind (·.dropped)) od td) (tableBody (b.map (·.body))) tx ty) ∧
      ∀ tx ty, tb = .table tx → ob = .table ty →
        TableBody.Compatible uid (Drops (b.bind (·.dropped)) td od) (tableBody (b.map (·.body))) tx ty := by
    cases ob with
    | table x =>
      cases tb with
      | table y =>
        have hiff := @mergedTable_rules_iff serde yaml _ x y _ od td rd uid n ho.keyed ht.keyed (ho.rules.sections x rfl)
          (ht.rules.sections y rfl) hbody hd
        simp only [mergedBody, Body.table.injEq, forall_eq'] at hiff ⊢
        rw [hiff]
        constructor
        · rintro ⟨h1, h2⟩
          exact ⟨fun _ _ hx hy => hx ▸ hy ▸ h1, fun _ _ hy hx => hx ▸ hy ▸ h2⟩
        · rintro ⟨h1, h2⟩
          exact ⟨h1 x y rfl rfl, h2 y x rfl rfl⟩
      | _ => cases hkind
    | _ => cases tb <;> first | cases hkind; done | simp [mergedBody]
  constructor
  · rintro ⟨-, -, hrules⟩
    obtain ⟨h1, h2⟩ := hnamed.1 hrules.name
    obtain ⟨h3, h4⟩ := hsections.1 hrules.sections
    exact ⟨⟨h1, h3⟩, h2, h4⟩
  · rintro ⟨⟨h1, h3⟩, h2, h4⟩
    exact ⟨ho.wellFormed, hkeyed, ho.rules.kind.trans hmk.symm, htomb, hnamed.2 ⟨h1, h2⟩, hsections.2 ⟨h3, h4⟩⟩

end Files

/-- A merge of files that were read can be read back exactly if each side is compatible with the other. A file that only
one side has is merged as it is. -/
theorem merge_readable_iff (serde : Serde) (yaml : YamlView) {base ours theirs : Option TreeFile} {f : TreeFile}
    (ho : ∀ o, ours = some o → ∃ path text, parse serde path text = .ok o)
    (ht : ∀ t, theirs = some t → ∃ path text, parse serde path text = .ok t)
    (hf : merge serde base ours theirs yaml = .ok (some f)) (hserde : serde.Reads f) (path : String) :
    parse serde path (render serde f) = .ok f ↔ ∀ o t, ours = some o → theirs = some t →
      Compatible yaml (baseOf base o.uid) o t ∧ Compatible yaml (baseOf base t.uid) t o := by
  have haccepted : parse serde path (render serde f) = .ok f ↔ f.Accepted :=
    ⟨accepted_of_parse, fun h => h.parse_render hserde path⟩
  rw [haccepted]
  unfold merge at hf
  split at hf
  · cases hf
  · next only =>
    obtain ⟨p, text, hparse⟩ := ho only rfl
    rw [(mergeOne_eq_ok hf).1]
    exact iff_of_true (accepted_of_parse hparse) (by simp)
  · next only =>
    obtain ⟨p, text, hparse⟩ := ht only rfl
    rw [(mergeOne_eq_ok hf).1]
    exact iff_of_true (accepted_of_parse hparse) (by simp)
  · next o t =>
    obtain ⟨p, text, hparse⟩ := ho o rfl
    obtain ⟨p', text', hparse'⟩ := ht t rfl
    obtain ⟨hsame, hnone, rfl⟩ := mergeBoth_eq_ok hf
    rw [mergedFile_accepted_iff (accepted_of_parse hparse) (accepted_of_parse hparse') hsame hnone]
    simp

namespace Dropped

/-- JSON of texts and of tombstones that require nothing, which are all that these files hold. -/
def line : Doc → String
  | .tombstone t => "\x7b\"was\":" ++ Family.line (.text t.was) ++ ",\"dropped_at\":" ++ Family.line (.text t.droppedAt) ++
      ",\"reason\":" ++ Family.line (.text t.reason) ++ ",\"operator\":" ++ Family.line (.text t.operator) ++ "\x7d"
  | doc => Family.line doc

def serde (files : List TreeFile) : Serde := reading line files

theorem line_unbroken (v : Doc) : '\n' ∉ (line v).toList := by
  cases v with
  | tombstone t => simp [line, String.toList_append, Family.line_unbroken]
  | _ => exact Family.line_unbroken _

def uid : Uid := ⟨"t_aaaaaa"⟩

def was : Tombstone := { was := "app.a", droppedAt := "2026-01-01", reason := "unused", operator := "dba" }

def wasColumn : Tombstone := { was := "app.a.id", droppedAt := "2026-01-01", reason := "unused", operator := "dba" }

def before : TreeFile := ⟨uid, .table { table := "app.a", columns := [(⟨"c_aaaaa1"⟩, .live "id")] }, none⟩

def added : TreeFile :=
  ⟨uid, .table { table := "app.a", columns := [(⟨"c_aaaaa1"⟩, .live "id"), (⟨"c_aaaaa2"⟩, .live "note")] }, none⟩

def dropped : TreeFile := ⟨uid, .table { table := "app.a", columns := [(⟨"c_aaaaa1"⟩, .dead wasColumn)] }, some was⟩

def both : TreeFile :=
  ⟨uid, .table { table := "app.a", columns := [(⟨"c_aaaaa1"⟩, .dead wasColumn), (⟨"c_aaaaa2"⟩, .live "note")] }, some was⟩

theorem length_texts : (line (.text uid.text)).length = 10 ∧ (line (.text "app.a")).length = 7 ∧
    (line (.text "c_aaaaa1")).length = 10 ∧ (line (.text "c_aaaaa2")).length = 10 ∧ (line (.text "id")).length = 4 ∧
    (line (.text "note")).length = 6 ∧ (line (.tombstone was)).length = 76 ∧ (line (.tombstone wasColumn)).length = 79 := by
  decide

def files : List TreeFile := [before, dropped, added, both]

theorem texts_ne : files.Pairwise fun f g => render (writing line) f ≠ render (writing line) g := by
  obtain ⟨h1, h2, h3, h4, h5, h6, h7, h8⟩ := length_texts
  simp only [files, List.pairwise_cons, List.mem_cons, List.not_mem_nil, or_false, forall_eq_or_imp, forall_eq, false_implies,
    implies_true, List.Pairwise.nil, and_true]
  refine ⟨⟨fun h => ?_, fun h => ?_, fun h => ?_⟩, ⟨fun h => ?_, fun h => ?_⟩, fun h => ?_⟩
  all_goals
    have hlength := congrArg String.length h
    simp [render, writing, topTexts, before, dropped, added, both, sectionText, optionalSection, Body.key, Rec.doc,
      String.intercalate_cons_cons, String.intercalate_singleton, String.length_append, h1, h2, h3, h4, h5, h6, h7, h8] at hlength
  all_goals
    revert hlength
    decide

theorem merge_both : merge (serde files) (some before) (some dropped) (some added) {} = .ok (some both) := by
  decide

theorem keyed_columns {l : List (Uid × Rec)} (h : (∀ e ∈ l, e.1.WellFormed) ∧ (∀ e ∈ l, e.1.kind = .column) ∧ (l.map (·.1)).Nodup) :
    Keyed .column l := ⟨h.1, h.2.1, h.2.2⟩

theorem keyed_nil {V : Type} {kind : UidKind} : Keyed kind ([] : List (Uid × V)) := ⟨by simp, by simp, by simp⟩

theorem parsed (hf : f ∈ [before, dropped, added]) (path : String) :
    parse (serde files) path (render (serde files) f) = .ok f := by
  have haccepted : f.Accepted := by
    simp only [List.mem_cons, List.not_mem_nil, or_false] at hf
    rcases hf with rfl | rfl | rfl
    all_goals
      refine ⟨by decide, ⟨keyed_columns (by decide), keyed_nil, keyed_nil, keyed_nil, keyed_nil⟩, ?_⟩
      exact (@check_eq_ok "a.json" _).1 (by decide)
  have hmem : f ∈ files := by
    simp only [files, List.mem_cons, List.not_mem_nil, or_false] at hf ⊢
    tauto
  exact haccepted.parse_render (reading_reads line_unbroken texts_ne hmem) path

/-- The three files are read, the sides merge, and what the merge writes is refused. -/
theorem merge_drops_live : (∀ f ∈ [before, dropped, added], parse (serde files) "a.json" (render (serde files) f) = .ok f) ∧
    merge (serde files) (some before) (some dropped) (some added) {} = .ok (some both) ∧ (serde files).Reads both ∧
    parse (serde files) "a.json" (render (serde files) both) ≠ .ok both := by
  refine ⟨fun f hf => parsed hf "a.json", merge_both, reading_reads line_unbroken texts_ne (by simp [files]), fun h => ?_⟩
  have hrules := (@check_eq_ok "a.json" _).2 (accepted_of_parse h).rules
  revert hrules
  decide

theorem merge_dropped : merge (serde files) (some before) (some dropped) (some before) {} = .ok (some dropped) := by
  decide

/-- A side that drops the table merges with one that left it alone. -/
theorem merge_readable_dropped : parse (serde files) "a.json" (render (serde files) dropped) = .ok dropped := by
  have hread : ∀ {f g : TreeFile}, g ∈ [before, dropped, added] → some g = some f →
      ∃ path text, parse (serde files) path text = .ok f := by
    intro f g hg h
    cases h
    exact ⟨"a.json", _, parsed hg "a.json"⟩
  refine (merge_readable_iff (serde files) {} (fun o => hread (by simp)) (fun t => hread (by simp)) merge_dropped
    (reading_reads line_unbroken texts_ne (by simp [files])) "a.json").2 ?_
  rintro o t ⟨⟩ ⟨⟩
  have hnone : ∀ {V : Type} (u : Uid), (index ([] : List (Uid × V)))[u]? = none := fun u => by simp [index]
  refine ⟨⟨fun _ h => ?_, ?_⟩, ⟨fun h => absurd rfl h, ?_⟩⟩
  · exact absurd h (by decide)
  · rintro tx ty ⟨⟩ ⟨⟩
    refine ⟨fun _ u hlive => ?_, fun _ u hlive => ?_, fun _ u h => absurd (hnone u) h, fun _ u h => absurd (hnone u) h,
      fun u h => absurd (hnone u) h, fun u _ h => absurd (hnone u) h⟩
    · obtain ⟨n, hn⟩ := hlive
      have hmem := mem_of_index hn
      simp only [List.mem_singleton, Prod.mk.injEq] at hmem
      rw [hmem.1]
      decide
    · obtain ⟨n, hn⟩ := hlive
      rw [hnone] at hn
      cases hn
  · rintro tx ty ⟨⟩ ⟨⟩
    exact ⟨fun h => absurd rfl h.1, fun h => absurd rfl h.1, fun h => absurd rfl h.1, fun h => absurd rfl h.1,
      fun u h => absurd (hnone u) h, fun u _ h => absurd (hnone u) h⟩

end Dropped

end Pbps.Tree
