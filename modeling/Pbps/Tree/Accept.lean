/-
What the reader accepts: a file that `parse` returns has a well-formed uid, sections whose keys are distinct uids of the
section's kind, and keeps the rules of `check`.
-/
import Pbps.Tree.Layout

namespace Pbps.Tree

open List Except

/-- A file that the reader can have returned. -/
structure TreeFile.Accepted (file : TreeFile) : Prop where
  wellFormed : file.uid.WellFormed
  keyed : file.KeyedSections
  rules : file.Rules

variable {s text : String} {u : Uid} {V : Type}

theorem Uid.text_of_parse (h : Uid.parse s = .ok u) : u.text = s := by
  rw [Uid.parse] at h
  split at h
  · cases h
  · split at h
    · cases h
    · split at h
      · cases h
      · rw [← ok.inj h]

theorem Uid.wellFormed_of_parse (h : Uid.parse s = .ok u) : u.WellFormed := by
  rw [Uid.WellFormed, Uid.text_of_parse h]
  exact h

/-! ## Sections -/

section Sections

variable {V : Type} {value : Doc → Option V}

/-- The keys of a section are distinct unless it has recorded one that is not. -/
def Section.Distinct (s : Section V) : Prop := s.duplicate = none → (s.records.map (·.1)).Nodup

variable {s : Section V}

theorem Section.visit_distinct {s' : Section V} {entry : String × Doc} (hs : s.Distinct) (h : s.visit value entry = .ok s') :
    s'.Distinct := by
  intro hnone
  unfold Section.visit at h
  split at h
  · cases h
    apply hs
    dsimp only at hnone
    split at hnone
    · exact hnone
    · exact (Option.or_eq_none_iff.1 hnone).1
  · cases h
  · split at h
    · cases h
    · cases h
      dsimp only at hnone ⊢
      split at hnone
      · exact absurd (Option.or_eq_none_iff.1 hnone).2 (by simp)
      · next key _ _ v _ hfresh =>
        rw [map_append, map_cons, map_nil, nodup_append']
        refine ⟨hs hnone, by simp, ?_⟩
        rw [disjoint_singleton]
        intro hmem
        obtain ⟨e, he, rfl⟩ := mem_map.1 hmem
        exact hfresh (any_eq_true.2 ⟨e, he, by simp⟩)

theorem Section.read_distinct {doc : Doc} (h : Section.read value doc = .ok s) : s.Distinct := by
  have hfold : ∀ (entries : List (String × Doc)) (s s' : Section V), s.Distinct →
      entries.foldlM (Section.visit value) s = .ok s' → s'.Distinct := by
    intro entries
    induction entries with
    | nil =>
      intro s s' hs h
      cases h
      exact hs
    | cons e entries ih =>
      intro s s' hs h
      rw [foldlM_cons] at h
      obtain ⟨s1, h1, h⟩ := bind_eq_ok_iff.1 h
      exact ih s1 s' (Section.visit_distinct hs h1) h
  unfold Section.read at h
  split at h
  · next entries => exact hfold entries {} s (fun _ => .nil) h
  · cases h

theorem keyed_of_section {path name : String} {sec : Option (Section V)} {kind : UidKind} {required : Bool}
    {records : List (Uid × V)} (hsec : ∀ s, sec = some s → s.Distinct) (h : keyed path name sec kind required = .ok records) :
    Keyed kind records := by
  unfold Tree.keyed at h
  split at h
  · split at h
    · cases h
    · cases h
      exact ⟨by simp, by simp, .nil⟩
  · next s =>
    split at h
    · cases h
    · cases h
    · split at h
      · cases h
      · next hnone =>
        have hall : Forall₂ (fun a b => b.1.WellFormed ∧ b.1.kind = kind ∧ b.1.text = a.1) s.records records := by
          refine (mapM_eq_ok.1 h).imp fun a b hab => ?_
          split at hab
          · cases hab
          · next uid huid =>
            split at hab
            · cases hab
            · next hkind =>
              cases hab
              exact ⟨Uid.wellFormed_of_parse huid, not_not.1 hkind, Uid.text_of_parse huid⟩
        have htexts : records.map (fun e => e.1.text) = s.records.map (·.1) :=
          (hall.map_eq fun a b hab => hab.2.2.symm).symm
        refine ⟨fun e he => ?_, fun e he => ?_, ?_⟩
        · obtain ⟨a, -, ha⟩ := hall.exists_of_mem_right he
          exact ha.1
        · obtain ⟨a, -, ha⟩ := hall.exists_of_mem_right he
          exact ha.2.1
        · have hnodup := hsec s rfl hnone
          rw [← htexts] at hnodup
          exact Nodup.of_map Uid.text (by rwa [map_map])

end Sections

/-! ## Fields -/

/-- What holds of the fields read so far. -/
structure Raw.Sound (raw : Raw) : Prop where
  uid : ∀ u, raw.uid = some u → u.WellFormed
  columns : ∀ s, raw.columns = some s → s.Distinct
  partitions : ∀ s, raw.partitions = some s → s.Distinct
  moves : ∀ s, raw.moves = some s → s.Distinct
  conversions : ∀ s, raw.conversions = some s → s.Distinct
  rebuilds : ∀ s, raw.rebuilds = some s → s.Distinct

variable {key path : String} {doc : Doc} {raw : Raw} {file : TreeFile} {serde : Serde}

theorem once_eq_ok {α : Type} {held a : Option α} {read : Doc → Except ReadError α} {value : Doc}
    (h : once key held read value = .ok a) : ∃ b, read value = .ok b ∧ a = some b := by
  rw [once] at h
  split at h
  · cases h
  · cases hread : read value with
    | error e => rw [hread] at h; cases h
    | ok b => rw [hread] at h; cases h; exact ⟨b, rfl, rfl⟩

theorem once_distinct {value : Doc → Option V} {held a : Option (Section V)} (h : once key held (Section.read value) doc = .ok a) :
    ∀ s, a = some s → s.Distinct := by
  obtain ⟨b, hb, rfl⟩ := once_eq_ok h
  rintro s ⟨⟩
  exact Section.read_distinct hb

theorem once_wellFormed {held a : Option Uid} (h : once key held (plain Doc.uid?) doc = .ok a) :
    ∀ u, a = some u → u.WellFormed := by
  obtain ⟨b, hb, rfl⟩ := once_eq_ok h
  rintro u ⟨⟩
  rw [plain] at hb
  split at hb
  · next v hv =>
    cases hb
    cases doc with
    | text s =>
      cases hparse : Uid.parse s with
      | error e => simp [Doc.uid?, hparse, Except.toOption] at hv
      | ok v =>
        simp only [Doc.uid?, hparse, Except.toOption, Option.some.injEq] at hv
        rw [← hv]
        exact Uid.wellFormed_of_parse hparse
    | _ => cases hv
  · cases hb

theorem Raw.visit_sound {raw' : Raw} {entry : String × Doc} (hraw : raw.Sound) (h : raw.visit entry = .ok raw') :
    raw'.Sound := by
  unfold Raw.visit at h
  split at h
  case h_3 =>
    obtain ⟨a, ha, h⟩ := bind_eq_ok_iff.1 h
    cases h
    exact { hraw with uid := once_wellFormed ha }
  case h_9 =>
    obtain ⟨a, ha, h⟩ := bind_eq_ok_iff.1 h
    cases h
    exact { hraw with columns := once_distinct ha }
  case h_10 =>
    obtain ⟨a, ha, h⟩ := bind_eq_ok_iff.1 h
    cases h
    exact { hraw with partitions := once_distinct ha }
  case h_11 =>
    obtain ⟨a, ha, h⟩ := bind_eq_ok_iff.1 h
    cases h
    exact { hraw with moves := once_distinct ha }
  case h_12 =>
    obtain ⟨a, ha, h⟩ := bind_eq_ok_iff.1 h
    cases h
    exact { hraw with conversions := once_distinct ha }
  case h_13 =>
    obtain ⟨a, ha, h⟩ := bind_eq_ok_iff.1 h
    cases h
    exact { hraw with rebuilds := once_distinct ha }
  case h_14 => cases h
  -- The other fields are not those the invariant speaks of.
  all_goals
    obtain ⟨a, -, h⟩ := bind_eq_ok_iff.1 h
    cases h
    exact { hraw with }

theorem Raw.read_sound (h : Raw.read doc = .ok raw) : raw.Sound := by
  have hfold : ∀ (entries : List (String × Doc)) (r r' : Raw), r.Sound → entries.foldlM Raw.visit r = .ok r' → r'.Sound := by
    intro entries
    induction entries with
    | nil =>
      intro r r' hr h
      cases h
      exact hr
    | cons e entries ih =>
      intro r r' hr h
      rw [foldlM_cons] at h
      obtain ⟨r1, h1, h⟩ := bind_eq_ok_iff.1 h
      exact ih r1 r' (Raw.visit_sound hr h1) h
  unfold Raw.read at h
  split at h
  · next entries =>
    obtain ⟨r, hr, h⟩ := bind_eq_ok_iff.1 h
    have hsound := hfold entries {} r ⟨by simp, by simp, by simp, by simp, by simp, by simp⟩ hr
    unfold Raw.complete at h
    split at h
    · cases h
    · split at h
      · cases h
      · split at h
        · cases h
        · cases h
          exact hsound
  · cases h

theorem Raw.Sound.keyed (hraw : raw.Sound) (h : raw.body path = .ok file.body) : file.KeyedSections := by
  unfold Raw.body at h
  split at h
  · next table _ =>
    obtain ⟨columns, hcolumns, h⟩ := bind_eq_ok_iff.1 h
    obtain ⟨partitions, hpartitions, h⟩ := bind_eq_ok_iff.1 h
    obtain ⟨moves, hmoves, h⟩ := bind_eq_ok_iff.1 h
    obtain ⟨conversions, hconversions, h⟩ := bind_eq_ok_iff.1 h
    obtain ⟨rebuilds, hrebuilds, h⟩ := bind_eq_ok_iff.1 h
    rw [TreeFile.KeyedSections, ← ok.inj h]
    exact ⟨keyed_of_section hraw.columns hcolumns, keyed_of_section hraw.partitions hpartitions,
      keyed_of_section hraw.moves hmoves, keyed_of_section hraw.conversions hconversions,
      keyed_of_section hraw.rebuilds hrebuilds⟩
  · split at h
    · cases h
    · split at h
      · rw [TreeFile.KeyedSections, ← ok.inj h]; trivial
      · rw [TreeFile.KeyedSections, ← ok.inj h]; trivial
      · rw [TreeFile.KeyedSections, ← ok.inj h]; trivial
      · cases h

theorem accepted_of_parse (h : parse serde path text = .ok file) : file.Accepted := by
  rw [parse, guard_bind_eq_ok] at h
  obtain ⟨doc, -, h⟩ := bind_eq_ok_iff.1 h.2
  obtain ⟨raw, hraw, h⟩ := bind_eq_ok_iff.1 h
  have hsound : raw.Sound := by
    cases hread : Raw.read doc with
    | error e => rw [hread] at hraw; cases hraw
    | ok r => rw [hread] at hraw; cases hraw; exact Raw.read_sound hread
  split at h
  · next uid format huid _ =>
    obtain ⟨-, h⟩ := guard_bind_eq_ok.1 h
    obtain ⟨-, h⟩ := guard_bind_eq_ok.1 h
    obtain ⟨body, hbody, h⟩ := bind_eq_ok_iff.1 h
    obtain ⟨hcheck, h⟩ := bind_eq_ok.1 h
    cases h
    exact ⟨hsound.uid uid huid, hsound.keyed hbody, check_eq_ok.1 hcheck⟩
  · cases h

theorem TreeFile.Accepted.parse_render (h : file.Accepted) (hserde : serde.Reads file) (path : String) :
    parse serde path (render serde file) = .ok file :=
  Tree.parse_render hserde h.wellFormed h.keyed (check_eq_ok.2 h.rules)

/-! ## What a path is for -/

theorem keyed_path {name : String} {sec : Option (Section V)} {kind : UidKind} {required : Bool} {records : List (Uid × V)}
    (h : keyed path name sec kind required = .ok records) (path' : String) :
    keyed path' name sec kind required = .ok records := by
  unfold keyed at h ⊢
  cases sec with
  | none => cases required <;> first | exact h | cases h
  | some s =>
    obtain ⟨entries, end_, duplicate⟩ := s
    cases end_ with
    | missing => cases h
    | notLast => cases h
    | last =>
      cases duplicate with
      | some key => cases h
      | none =>
        dsimp only at h ⊢
        rw [mapM_eq_ok] at h ⊢
        refine h.imp fun e r he => ?_
        cases hparse : Uid.parse e.1 with
        | error err =>
          rw [hparse] at he
          cases he
        | ok uid =>
          rw [hparse] at he
          dsimp only at he ⊢
          split at he
          · cases he
          · next hkind =>
            rw [if_neg hkind]
            exact he

theorem Raw.body_path {body : Body} (h : raw.body path = .ok body) (path' : String) : raw.body path' = .ok body := by
  unfold Raw.body at h ⊢
  split at h
  · next table htable =>
    obtain ⟨columns, hcolumns, h⟩ := bind_eq_ok_iff.1 h
    obtain ⟨partitions, hpartitions, h⟩ := bind_eq_ok_iff.1 h
    obtain ⟨moves, hmoves, h⟩ := bind_eq_ok_iff.1 h
    obtain ⟨conversions, hconversions, h⟩ := bind_eq_ok_iff.1 h
    obtain ⟨rebuilds, hrebuilds, h⟩ := bind_eq_ok_iff.1 h
    simp only [keyed_path hcolumns path', keyed_path hpartitions path', keyed_path hmoves path', keyed_path hconversions path',
      keyed_path hrebuilds path']
    exact h
  · split at h
    · cases h
    · next hsections =>
      simp only [if_neg hsections]
      split at h <;> first | exact h | cases h

theorem parse_path (h : parse serde path text = .ok file) (path' : String) : parse serde path' text = .ok file := by
  unfold parse at h ⊢
  rw [guard_bind_eq_ok] at h ⊢
  refine ⟨h.1, ?_⟩
  obtain ⟨doc, hdoc, h⟩ := bind_eq_ok_iff.1 h.2
  obtain ⟨raw, hraw, h⟩ := bind_eq_ok_iff.1 h
  refine bind_eq_ok_iff.2 ⟨doc, ?_, bind_eq_ok_iff.2 ⟨raw, ?_, ?_⟩⟩
  · cases hread : serde.fromStr text with
    | error e => rw [hread] at hdoc; cases hdoc
    | ok d => rw [hread] at hdoc; exact hdoc
  · cases hread : Raw.read doc with
    | error e => rw [hread] at hraw; cases hraw
    | ok r => rw [hread] at hraw; exact hraw
  · split at h
    · next uid format huid hformat =>
      obtain ⟨hversion, h⟩ := guard_bind_eq_ok.1 h
      obtain ⟨hnamed, h⟩ := guard_bind_eq_ok.1 h
      obtain ⟨body, hbody, h⟩ := bind_eq_ok_iff.1 h
      obtain ⟨hcheck, h⟩ := bind_eq_ok.1 h
      refine guard_bind_eq_ok.2 ⟨hversion, guard_bind_eq_ok.2 ⟨hnamed, ?_⟩⟩
      refine bind_eq_ok_iff.2 ⟨body, Raw.body_path hbody path', bind_eq_ok.2 ⟨?_, h⟩⟩
      exact check_eq_ok.2 (check_eq_ok.1 hcheck)
    · cases h

end Pbps.Tree
