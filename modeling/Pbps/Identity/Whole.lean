/-
The passes around the matching ones, and the whole resolution: extensions before them, modules and
moves after, and the conversions that leave with their columns.
-/
import Pbps.Identity.Passes

namespace Pbps.Identity

open Std (ExtTreeMap ExtTreeSet)
open List Std.ExtTreeMap

variable {src : UidSource} {declared : Schema} {intents : List Intent} {ids₀ ids₁ ids : IdsFile}

/-! ## Extensions -/

variable {name : ObjectLocalName} {s : Progress} {ctx : Context}

theorem dropExtensionIntent_some {i : Nat} {reason : Reason} (h : dropExtensionIntent intents name = some (i, reason)) :
    .dropExtension name reason ∈ intents := by
  obtain ⟨⟨intent, j⟩, hm, he⟩ := exists_of_findSome?_eq_some h
  have hin : intent ∈ intents := (mem_zipIdx' hm).2 ▸ getElem_mem _
  split at he
  · split at he
    · rename_i hn; cases he; simp_all
    · cases he
  · cases he

theorem dropExtensionIntent_none (h : dropExtensionIntent intents name = none) (reason : Reason) :
    .dropExtension name reason ∉ intents := by
  intro hin
  obtain ⟨k, hk, he⟩ := getElem_of_mem hin
  have hmem : (Intent.dropExtension name reason, k) ∈ intents.zipIdx := by
    rw [mem_zipIdx_iff_getElem?]; simp [hk, he]
  have := List.findSome?_eq_none_iff.1 h _ hmem
  simp at this

theorem live_extension (hk : Kinds ids) {u : Uid} {n : ObjectLocalName} :
    live ids u = some (.extension n) ↔ ids.extensions[u]? = some n := extensionSection_lawful.live_eq_some hk

theorem reach_extension {o : Obj} {n : ObjectLocalName} (h : Reach declared intents ids₀ o (.extension n)) :
    o = .extension n := by
  cases h; rfl

/-- The state around the extension loops: other objects stand as they did, and nothing is blocked. -/
structure ExtensionLoop (src : UidSource) (declared : Schema) (intents : List Intent) (ids₀ ids₁ : IdsFile)
    (names : Uid → ObjectLocalName → Prop) (s : Progress) : Prop where
  sound : Sound src declared intents ids₀ s.r.ids
  frame : Frame Obj.asExtension ids₁ s.r.ids
  names : ∀ u n, live s.r.ids u = some (.extension n) ↔ names u n

theorem retireExtension_loop (ctx : Context) :
    ∀ (l : List (Uid × ObjectLocalName)) (s : Progress), (l.map Prod.fst).Nodup →
      (∀ e ∈ l, live s.r.ids e.1 = some (.extension e.2) ∧ e.2 ∉ declared.extensions) →
      Sound src declared intents ids₀ s.r.ids →
      ExtensionLoop src declared intents ids₀ s.r.ids
        (fun u n => live s.r.ids u = some (.extension n) ∧ (u, n) ∉ l) (l.foldl (retireExtension ctx intents) s) ∧
        (l.foldl (retireExtension ctx intents) s).blockers = s.blockers
  | [], s, _, _, hs => ⟨⟨hs, fun _ _ _ => Iff.rfl, fun _ _ => by simp⟩, rfl⟩
  | (uid, name) :: l, s, hnd, hl, hs => by
    obtain ⟨hu, hd⟩ := hl (uid, name) (by simp)
    rw [map_cons, nodup_cons] at hnd
    have hget := (live_extension hs.kinds).1 hu
    have hk : uid.kind = .extension := live_kind hu
    have step : Sound src declared intents ids₀ (retireExtension ctx intents s (uid, name)).r.ids ∧
        (∀ u, live (retireExtension ctx intents s (uid, name)).r.ids u = if u = uid then none else live s.r.ids u) ∧
        (retireExtension ctx intents s (uid, name)).blockers = s.blockers := by
      unfold retireExtension
      dsimp only
      split
      · rename_i hnone
        refine ⟨hs.forget extensionSection_lawful hget (by simp [extensionSection]) fun o ho => ?_,
          extensionSection_lawful.live_erase hk, rfl⟩
        rw [reach_extension ho]
        exact ⟨hd, dropExtensionIntent_none hnone⟩
      · rename_i i reason hsome
        refine ⟨hs.retire extensionSection_lawful hget (by simp [extensionSection]) rfl fun o ho => ?_,
          extensionSection_lawful.live_erase hk, rfl⟩
        rw [reach_extension ho]
        exact ⟨reason, dropExtensionIntent_some hsome⟩
    obtain ⟨hs', hlive, hblock⟩ := step
    have hl' : ∀ e ∈ l, live (retireExtension ctx intents s (uid, name)).r.ids e.1 = some (.extension e.2) ∧
        e.2 ∉ declared.extensions := by
      intro e he
      obtain ⟨h1, h2⟩ := hl e (by simp [he])
      have hne : e.1 ≠ uid := by rintro rfl; exact hnd.1 (List.mem_map.2 ⟨e, he, rfl⟩)
      rw [hlive, if_neg hne]
      exact ⟨h1, h2⟩
    obtain ⟨rest, hb⟩ := retireExtension_loop ctx l _ hnd.2 hl' hs'
    refine ⟨⟨rest.sound, fun u o ho => (rest.frame u o ho).trans ?_, fun u n => (rest.names u n).trans ?_⟩, hb.trans hblock⟩
    · rw [hlive]
      split
      · rename_i he; subst he
        rw [hu]
        constructor
        · rintro ⟨⟩
        · rintro ⟨⟩; cases ho
      · exact Iff.rfl
    · rw [hlive, mem_cons, not_or, Prod.mk.injEq]
      by_cases he : u = uid
      · subst he
        rw [if_pos rfl, hu]
        constructor
        · rintro ⟨⟨⟩, -⟩
        · rintro ⟨h1, h2, -⟩; cases h1; exact absurd ⟨rfl, rfl⟩ h2
      · rw [if_neg he]
        simp [he]

theorem mintExtension_loop :
    ∀ (l : List ObjectLocalName) (s : Progress), Sound src declared intents ids₀ s.r.ids →
      Sound src declared intents ids₀ (l.foldl (mintExtension src) s).r.ids ∧
        Frame Obj.asExtension s.r.ids (l.foldl (mintExtension src) s).r.ids ∧
        (∀ n, (∃ u, live (l.foldl (mintExtension src) s).r.ids u = some (.extension n)) ↔
          (∃ u, live s.r.ids u = some (.extension n)) ∨ n ∈ l) ∧
        (l.foldl (mintExtension src) s).blockers = s.blockers
  | [], s, hs => ⟨hs, fun _ _ _ => Iff.rfl, fun _ => by simp, rfl⟩
  | name :: l, s, hs => by
    have step : Sound src declared intents ids₀ (mintExtension src s name).r.ids ∧
        Frame Obj.asExtension s.r.ids (mintExtension src s name).r.ids ∧
        (∀ n, (∃ u, live (mintExtension src s name).r.ids u = some (.extension n)) ↔
          (∃ u, live s.r.ids u = some (.extension n)) ∨ n = name) ∧
        (mintExtension src s name).blockers = s.blockers := by
      unfold mintExtension
      split
      · rename_i u hu
        refine ⟨hs, fun _ _ _ => Iff.rfl, fun n => ?_, rfl⟩
        have : ∃ u, live s.r.ids u = some (.extension name) := ⟨u, (live_extension hs.kinds).2 (uidOf_eq_some hu)⟩
        constructor
        · exact Or.inl
        · rintro (h | rfl)
          · exact h
          · exact this
      · rename_i hnone
        have hk := src.kind_fresh s.r.ids .extension
        obtain ⟨hs', hl⟩ := hs.mint extensionSection_lawful hk (src.fresh_not_contained s.r.ids .extension) ⟨_, _, rfl⟩
          (fun u hu => uidOf_eq_none hnone u ((live_extension hs.kinds).1 hu)) (fun p hp => by cases hp)
        have hlive : ∀ u, live { s.r.ids with extensions := s.r.ids.extensions.insert (src.fresh s.r.ids .extension) name } u =
            if u = src.fresh s.r.ids .extension then some (.extension name) else live s.r.ids u :=
          extensionSection_lawful.live_insert hk
        refine ⟨hs', fun u o ho => ?_, fun n => ?_, rfl⟩
        · dsimp only
          rw [hlive]
          split
          · rename_i he; subst he
            rw [hl]
            constructor
            · rintro ⟨⟩; cases ho
            · rintro ⟨⟩
          · exact Iff.rfl
        · dsimp only
          simp only [hlive]
          constructor
          · rintro ⟨u, h⟩
            split at h
            · cases h; exact Or.inr rfl
            · exact Or.inl ⟨u, h⟩
          · rintro (⟨u, h⟩ | rfl)
            · have : u ≠ src.fresh s.r.ids .extension := by rintro rfl; rw [hl] at h; cases h
              exact ⟨u, by rw [if_neg this]; exact h⟩
            · exact ⟨_, if_pos rfl⟩
    obtain ⟨hs', hf, hn, hb⟩ := step
    obtain ⟨hs'', hf', hn', hb'⟩ := mintExtension_loop l _ hs'
    refine ⟨hs'', fun u o ho => (hf' u o ho).trans (hf u o ho), fun n => (hn' n).trans ?_, hb'.trans hb⟩
    rw [hn, mem_cons, or_assoc]

section

variable (ctx : Context) (hs : Sound src declared intents ids₀ s.r.ids)
include hs

/-- The extensions no longer declared are gone, and the others stand. -/
theorem retireExtensions_loop :
    let s' := (s.r.ids.extensions.toList.filter fun e => !declared.extensions.contains e.2).foldl (retireExtension ctx intents) s
    ExtensionLoop src declared intents ids₀ s.r.ids
      (fun u n => live s.r.ids u = some (.extension n) ∧ n ∈ declared.extensions) s' ∧ s'.blockers = s.blockers := by
  have hgone : ∀ u n, (u, n) ∈ s.r.ids.extensions.toList.filter (fun e => !declared.extensions.contains e.2) ↔
      live s.r.ids u = some (.extension n) ∧ n ∉ declared.extensions := by
    intro u n
    rw [List.mem_filter, mem_toList_iff_getElem?_eq_some, live_extension hs.kinds]
    simp [← ExtTreeMap.contains_iff_mem]
  have hnd : ((s.r.ids.extensions.toList.filter fun e => !declared.extensions.contains e.2).map Prod.fst).Nodup := by
    refine List.Nodup.sublist (List.Sublist.map _ filter_sublist) ?_
    rw [map_fst_toList_eq_keys]; exact nodup_keys
  obtain ⟨gone, hb⟩ := retireExtension_loop ctx _ s hnd (fun e he => (hgone e.1 e.2).1 he) hs
  refine ⟨⟨gone.sound, gone.frame, fun u n => (gone.names u n).trans ?_⟩, hb⟩
  rw [hgone, not_and, not_not]
  exact and_congr_right fun h => ⟨fun hin => hin h, fun hin _ => hin⟩

theorem resolveExtensions_sound :
    let s' := resolveExtensions src declared intents ctx s
    Sound src declared intents ids₀ s'.r.ids ∧ Frame Obj.asExtension s.r.ids s'.r.ids ∧
      (∀ n, (∃ u, live s'.r.ids u = some (.extension n)) ↔ n ∈ declared.extensions) ∧ s'.blockers = s.blockers := by
  obtain ⟨kept, hb⟩ := retireExtensions_loop ctx hs
  obtain ⟨hs', hf, hn, hb'⟩ := mintExtension_loop declared.extensions.keys _ kept.sound
  refine ⟨hs', fun u o ho => (hf u o ho).trans (kept.frame u o ho), fun n => (hn n).trans ?_, hb'.trans hb⟩
  simp only [kept.names, ExtTreeMap.mem_keys]
  exact ⟨fun h => h.elim (fun ⟨_, _, h⟩ => h) id, Or.inr⟩

end

/-! ## Moves -/

theorem moveStep_sound (ctx : Context) (entry : Intent × Nat) (hs : Sound src declared intents ids₀ s.r.ids) :
    Sound src declared intents ids₀ (moveStep declared ctx s entry).r.ids ∧
      ∀ u, live (moveStep declared ctx s entry).r.ids u = live s.r.ids u := by
  unfold moveStep
  split
  · dsimp only
    split
    · exact ⟨hs, fun _ => rfl⟩
    · rename_i uid huid
      split
      · exact ⟨hs, fun _ => rfl⟩
      · refine ⟨⟨⟨hs.kinds.tables, hs.kinds.columns, hs.kinds.roles, hs.kinds.types, hs.kinds.extensions⟩, hs.wf, hs.accounts,
          hs.tombstones, hs.requires, fun u hu => ?_, hs.version, hs.rebuilds, hs.conversions⟩, fun _ => rfl⟩
        rcases mem_insert.1 hu with h | h
        · rw [← Std.LawfulEqOrd.eq_of_compare h]
          exact ⟨_, (live_table hs.kinds).2 (uidOf_eq_some (Option.filter_eq_some_iff.1 huid).1)⟩
        · exact hs.moves u h
  · exact ⟨hs, fun _ => rfl⟩

theorem resolveMoves_sound (ctx : Context) (hs : Sound src declared intents ids₀ s.r.ids) :
    Sound src declared intents ids₀ (resolveMoves declared intents ctx s).r.ids ∧
      ∀ u, live (resolveMoves declared intents ctx s).r.ids u = live s.r.ids u := by
  refine foldlRecOn (motive := fun s' : Progress => Sound src declared intents ids₀ s'.r.ids ∧
    ∀ u, live s'.r.ids u = live s.r.ids u) _ _ ⟨hs, fun _ => rfl⟩ fun s' h entry _ => ?_
  obtain ⟨h1, h2⟩ := moveStep_sound ctx entry h.1
  exact ⟨h1, fun u => (h2 u).trans (h.2 u)⟩

theorem resolveMoves_back (h : (resolveMoves declared intents ctx s).blockers = []) : s.blockers = [] := by
  refine List.foldl_back (P := fun s : Progress => s.blockers = []) (fun s entry h => ?_) _ s h
  unfold moveStep at h
  split at h
  · dsimp only at h
    split at h
    · simp [Progress.block] at h
    · split at h <;> exact h
  · exact h

/-! ## The whole run -/

/-- A file at the end of a resolution without a blocker: its names are the declared ones. -/
structure Settled (src : UidSource) (declared : Schema) (intents : List Intent) (ids₀ ids : IdsFile) : Prop where
  sound : Sound src declared intents ids₀ ids
  extensions : ∀ n, (∃ u, live ids u = some (.extension n)) ↔ n ∈ declared.extensions
  types : ∀ n, (∃ u, live ids u = some (.type n)) ↔ n ∈ declared.types
  roles : ∀ n, (∃ u, live ids u = some (.role n)) ↔ n ∈ declared.roles
  tables : ∀ t, (∃ u, live ids u = some (.table t)) ↔ t ∈ declared.tables
  columns : ∀ c, (∃ u, live ids u = some (.column c)) ↔ OwnsColumn declared c.table c.name
  /-- No table could have been led to two declared names. -/
  arrives : ∀ (u : Uid) t t₁ t₂, ids₀.tables[u]? = some t → t ∉ declared.tables → TableReach declared intents ids₀ t t₁ →
    TableReach declared intents ids₀ t t₂ → t₁ ∈ declared.tables → t₂ ∈ declared.tables → t₁ = t₂

variable (hs₀ : Sound src declared intents ids₀ ids₀)
include hs₀

/-- Where nothing blocks, the passes settle on what is declared. -/
theorem resolvePasses_settled {k : Nat} (h : (resolvePasses src declared ids₀ intents k ctx).1.blockers = []) :
    ∃ ids, Settled src declared intents ids₀ ids ∧ (resolvePasses src declared ids₀ intents k ctx).1.r.ids =
      { ids with conversions := ids.conversions.filter fun uid _ => ids.columns.contains uid } := by
  unfold resolvePasses at h ⊢
  dsimp only at h ⊢
  set e := resolveExtensions src declared intents ctx { r := { ids := ids₀ } } with he
  set ty := resolveTypes src declared intents k ctx e with hty
  set ta := resolveTables src declared intents k ctx ty with hta
  set co := resolveColumns src declared intents k ctx ta with hco
  set mo := resolveModules declared co with hmo
  set ro := resolveRoles src declared intents k ctx mo with hro
  set mv := resolveMoves declared intents ctx ro with hmv
  -- nothing is blocked at the end, so nothing was at the end of any pass
  have hbro : ro.blockers = [] := resolveMoves_back h
  have hbco : co.blockers = [] := (append_eq_nil_iff.1 (resolveScope_back hbro)).1
  have hsound : Sound src declared intents ids₀ ({ ids := ids₀ } : Resolution).ids := hs₀
  obtain ⟨hse, hfe, hne, -⟩ := resolveExtensions_sound ctx (s := { r := { ids := ids₀ } }) hsound
  have hbta : ta.blockers = [] := by
    refine List.foldl_back (P := fun s : Progress => s.blockers = []) (fun s entry h => ?_) _ _ hbco
    exact resolveColumnsOf_back h
  have rty := resolveTypes_clear hse (resolveScope_back hbta)
  have htables : ∀ (u : Uid) t, live ty.r.ids u = some (.table t) ↔ ids₀.tables[u]? = some t := fun u t =>
    (rty.frame u _ rfl).trans ((hfe u _ rfl).trans (live_table hs₀.kinds))
  obtain ⟨-, hsta, hfta, hnta, harr⟩ := resolveTables_clear rty.sound htables hbta
  obtain ⟨-, hsco, hfco, hnco⟩ := resolveColumns_clear hsta hnta hbco
  have rro := resolveRoles_clear (s := mo) hsco hbro
  obtain ⟨hsmv, hlmv⟩ := resolveMoves_sound ctx rro.sound
  have hlive : ∀ u o, Obj.asRole o = none → (live mv.r.ids u = some o ↔ live co.r.ids u = some o) := fun u o ho =>
    (Eq.congr_left (hlmv u)).trans (rro.frame u o ho)
  refine ⟨mv.r.ids, ⟨hsmv, fun n => ?_, fun n => ?_, fun n => ?_, fun t => ?_, fun c => ?_, harr⟩, rfl⟩
  · refine Iff.trans (exists_congr fun u => ?_) (hne n)
    exact (hlive u _ rfl).trans ((hfco u _ (by simp)).trans ((hfta u _ rfl).trans (rty.frame u _ rfl)))
  · refine Iff.trans (exists_congr fun u => ?_) (rty.names n)
    exact (hlive u _ rfl).trans ((hfco u _ (by simp)).trans ((hfta u _ rfl).trans (typeScope_names src ctx).viewOf_eq.symm))
  · refine Iff.trans (exists_congr fun u => ?_) (rro.names n)
    exact (Eq.congr_left (hlmv u)).trans (roleScope_names src ctx).viewOf_eq.symm
  · refine Iff.trans (exists_congr fun u => ?_) (hnta t)
    exact (hlive u _ rfl).trans (hfco u _ (by simp))
  · refine Iff.trans (exists_congr fun u => ?_) (hnco c)
    exact hlive u _ rfl

theorem resolve_settled {k : Nat} {r : Resolution} (h : resolveWithAnnotations src declared ids₀ intents k ctx = .ok r) :
    ∃ ids, Settled src declared intents ids₀ ids ∧
      r.ids = { ids with conversions := ids.conversions.filter fun uid _ => ids.columns.contains uid } := by
  unfold resolveWithAnnotations at h
  dsimp only at h
  split at h
  · rename_i hb
    cases h
    exact resolvePasses_settled hs₀ (append_eq_nil_iff.1 hb).1
  · cases h

end Pbps.Identity
