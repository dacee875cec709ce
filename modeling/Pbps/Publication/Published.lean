/-
What a publication leaves: the tree as it was where it says so, no file lost where it says that not all was taken back, and the
staged files at their destinations where it succeeds.
-/
import Pbps.Publication.Restore
import Pbps.Publication.Moves
import Pbps.Publication.Copies

namespace Pbps.Publication

open FileTree
open Std (ExtTreeMap)
open List

variable {sys : System} {dir : Path} {present : List Path} {copies : List (Path × Path)} {t₀ : Files} {L : List Effect} {σ : State}

/-! ## Up to the commit point -/

theorem Accounts.start (t₀ : Files) : Accounts sys.limit dir present t₀ [] { tree := t₀ } where
  holds := .start t₀
  lands := by simp
  free := by simp
  declared := by simp
  directories := rfl
  moved := rfl
  outputs := rfl
  ownsBackup := rfl

/-- The tree at the commit point. -/
structure Published (limit : Nat) (dir : Path) (present : List Path) (copies : List (Path × Path)) (t₀ t : Files)
    (backup : Location) : Prop where
  located : locate limit t (backupOf dir) = .ok backup
  vacant : t₀[backup]? = none
  copied : ∀ c ∈ copies, Copied limit t c
  gone : ∀ p ∈ present, ∀ x, locate limit t₀ p = .ok x →
    (∀ c ∈ copies, ∀ y, locate limit t c.2 = .ok y → Under y x = false) → t[x]? = none
  kept : ∀ z e, t₀[z]? = some e → (∀ p ∈ present, locate limit t₀ p ≠ .ok z) → t[z]? = some e

/-- The old files are in the backup, and nothing else is new but what it took to make it. -/
structure Saved (limit : Nat) (dir : Path) (present : List Path) (t₀ : Files) (L : List Effect) (σ : State) : Prop
    extends Accounts limit dir present t₀ L σ where
  backup : ∃ d, .backup (d ++ [BACKUP]) ∈ L
  vacant : ∀ i ∈ L, t₀[i.place]? = none
  gone : ∀ p ∈ present, ∀ x, locate limit t₀ p = .ok x → x ∈ vacated L

section

variable (hc : Closed t₀) (hp : ∀ p ∈ present, Declared sys.limit t₀ dir p)

include hc hp

section

variable (h : Accounts sys.limit dir present t₀ [] σ)
include h

theorem createDirectories_ends_dir : (createDirectories sys dir).Ends σ
    (fun _ σ' => ∃ N, Accounts sys.limit dir present t₀ N σ' ∧ (∀ i ∈ N, i.left = none) ∧ (present ≠ [] → N = []))
    fun σ' => ∃ L', Accounts sys.limit dir present t₀ L' σ' := by
  cases hpresent : present with
  | nil =>
    subst hpresent
    refine (createDirectories_ends h dir).mono ?_ ?_
    · rintro _ σ' ⟨N, hN, _, hmade⟩
      refine ⟨N, hN, fun i hi => ?_, fun h => absurd rfl h⟩
      have := (hmade i hi).1
      cases i <;> first | rfl | exact absurd rfl this
    · rintro σ' ⟨N, hN, _⟩
      exact ⟨_, hN⟩
  | cons p rest =>
    rw [← hpresent]
    have htree : σ.tree = t₀ := h.holds.eq_of_nil
    obtain ⟨d, hd⟩ := (hp p (hpresent ▸ mem_cons_self)).directory hc
    rw [← htree] at hd hc
    exact (createDirectories_present hc hd).mono (fun _ σ' hσ' => ⟨[], hσ'.accounts h, by simp, fun _ => rfl⟩)
      fun σ' hσ' => ⟨[], hσ'.accounts h⟩

theorem createBackup_ends : (createBackup sys dir).Ends σ
    (fun _ σ' => ∃ N d, Accounts sys.limit dir present t₀ (N ++ [.backup (d ++ [BACKUP])]) σ' ∧ (∀ i ∈ N, i.left = none) ∧
      (present ≠ [] → N = [] ∧ directoryOf sys.limit t₀ dir = .ok d ∧ t₀[d ++ [BACKUP]]? = none))
    fun σ' => ∃ L', Accounts sys.limit dir present t₀ L' σ' := by
  refine .seq (.context (createDirectories_ends_dir hc hp h)) ?_
  rintro _ σ₁ ⟨N, hN, hleft, hnil⟩
  refine .bind (.context (call_ends (fun _ t hop => ?_) ⟨_, hN.tick _⟩))
  obtain ⟨⟨x, t'⟩, hcreate, hpair⟩ := Except.map_eq_ok.1 hop
  cases hpair
  obtain ⟨hx, hnone, rfl⟩ := create_eq_ok.1 hcreate
  rw [backupOf, locate_concat] at hx
  obtain ⟨d, hd, rfl⟩ := Except.map_eq_ok.1 hx
  have hext : Extends σ₁.tree (σ₁.tree.insert (d ++ [BACKUP]) .directory) := .insert _ hnone
  refine ⟨N, d, hN.put rfl hnone rfl ⟨d, directoryOf_keeps hext.keeps hd, rfl⟩ rfl (append_nil _).symm rfl
    (append_nil _).symm (Bool.or_true _).symm, hleft, fun hne => ?_⟩
  obtain rfl := hnil hne
  rw [hN.holds.eq_of_nil] at hd hnone
  exact ⟨rfl, hd, hnone⟩

theorem saving_ends : (do createBackup sys dir; present.zipIdx.forM (saveOld sys dir) : Run Problem Unit).Ends σ
      (fun _ σ' => ∃ L, Saved sys.limit dir present t₀ L σ') fun σ' => ∃ L', Accounts sys.limit dir present t₀ L' σ' := by
  refine .seq (createBackup_ends hc hp h) ?_
  rintro _ σ₁ ⟨N, d, hN, hleft, hnil⟩
  by_cases hne : present = []
  · subst hne
    have hv : vacated (N ++ [.backup (d ++ [BACKUP])]) = [] := vacated_eq_nil fun i hi => by
      rcases mem_append.1 hi with hi | hi
      · exact hleft i hi
      · rw [mem_singleton.1 hi]
        rfl
    refine ⟨_, hN, ⟨d, mem_append_right _ (mem_singleton_self _)⟩, fun i hi => ?_, by simp⟩
    exact (hN.holds.vacant i hi).resolve_left fun hmem => not_mem_nil (hv ▸ hmem)
  · obtain ⟨rfl, hd, hnone⟩ := hnil hne
    have hmoving : Moving sys.limit dir present t₀ d 0 [.backup (d ++ [BACKUP])] σ₁ :=
      ⟨hN, mem_singleton_self _, hnone, fun i hi => .inl (mem_singleton.1 hi)⟩
    refine (saveAll_ends hc hp hd hmoving fun p hp => hp).mono ?_ fun _ h => h
    rintro _ σ₂ ⟨L, _, hL, hgone⟩
    exact ⟨L, hL.toAccounts, ⟨d, hL.backup⟩, fun i hi => hc.under hL.vacant (hL.under (mem_map_of_mem hi)), hgone⟩

end

theorem publishing_ends : (publishing sys dir present copies).Ends { tree := t₀ }
    (fun _ σ => ∃ L b, Accounts sys.limit dir present t₀ L σ ∧ Published sys.limit dir present copies t₀ σ.tree b)
    fun σ => ∃ L, Accounts sys.limit dir present t₀ L σ := by
  have hstart : Accounts sys.limit dir present t₀ [] { tree := t₀ } := .start t₀
  unfold publishing
  refine .seq ((inspectBackup_ends _).mono (fun _ _ h => h) fun σ h => ⟨_, h.accounts hstart⟩) fun _ σ₁ h₁ => ?_
  refine .seq ((inspectDestinations_ends copies).mono (fun _ _ h => h) fun σ h => ⟨_, (h₁.trans h).accounts hstart⟩) ?_
  rintro metadata σ₂ ⟨hlength, h₂⟩
  rw [← Run.bind_assoc]
  refine .seq (saving_ends hc hp ((h₁.trans h₂).accounts hstart)) ?_
  rintro _ σ₃ ⟨L, hL⟩
  have hcopying : Copying sys.limit dir present t₀ L σ₃.tree [] L σ₃ :=
    ⟨hL.toAccounts, fun _ h => h, .refl _, by simp, fun i hi hiL => absurd hi hiL⟩
  refine (copyAll_ends hcopying).mono ?_ fun _ h => h
  rintro _ σ₄ ⟨L', hL'⟩
  rw [nil_append, map_fst_zip (Nat.le_of_eq hlength.symm)] at hL'
  obtain ⟨d, hbackup⟩ := hL.backup
  obtain ⟨d', hd, hplace⟩ := hL'.accounts.lands _ (hL'.sub hbackup)
  refine ⟨L', d ++ [BACKUP], hL'.accounts, ⟨?_, hL.vacant _ hbackup, hL'.copied, fun p hpresent x hx hnot => ?_, fun z e hz hnot => ?_⟩⟩
  · rw [backupOf, locate_concat, hd, hplace]
    rfl
  · have hgone : x ∈ vacated L' := filterMap_subset _ hL'.sub (hL.gone p hpresent x hx)
    rw [hL'.accounts.holds.rest x ?_, if_pos hgone]
    intro hmem
    obtain ⟨i, hi, rfl⟩ := mem_map.1 hmem
    by_cases hiL : i ∈ L
    · obtain ⟨d, s, e, hx', he, _⟩ := (hp p hpresent).locate
      rw [← Except.ok.inj (hx.symm.trans hx'), hL.vacant i hiL] at he
      cases he
    · obtain ⟨_, c, hmemc, y, hy, hprefix⟩ := hL'.above i hi hiL
      have hfalse := hnot c hmemc y hy
      rw [under_iff.2 hprefix] at hfalse
      cases hfalse
  · refine (hL'.accounts.holds.kept hz).resolve_right fun hv => ?_
    obtain ⟨p, s, y, e', hi⟩ := mem_vacated.1 hv
    obtain ⟨hpresent, hlocate⟩ := hL'.accounts.declared p s z y e' hi
    exact hnot p hpresent hlocate

end

/-! ## What is left -/

/-- No file is lost: all that was there is at its place, or a declaration is in the backup. -/
structure Recoverable (limit : Nat) (dir : Path) (present : List Path) (t₀ t : Files) : Prop where
  place : ∀ z e, t₀[z]? = some e → t[z]? = some e ∨ ∃ p ∈ present, locate limit t₀ p = .ok z ∧
    ∃ d index, directoryOf limit t₀ dir = .ok d ∧ t[d ++ [BACKUP] ++ [savedName index]]? = some e
  path : ∀ p ∈ present, ∀ e, lookup limit t₀ p = .ok e → lookup limit t p = .ok e ∨
    ∃ d index, directoryOf limit t₀ dir = .ok d ∧ t[d ++ [BACKUP] ++ [savedName index]]? = some e

/-- The staged files are published, given the tree at the commit point and the place of the backup. -/
structure Delivered (limit : Nat) (present : List Path) (copies : List (Path × Path)) (t₀ t' : Files) (backup : Location)
    (t : Files) : Prop where
  copied : ∀ c ∈ copies, Clear limit t' backup c.2 → ∃ source f f', stat limit t' c.1 = .ok (source, .file f) ∧
    lookup limit t c.2 = .ok (.file f') ∧ f'.content = f.content
  gone : ∀ p ∈ present, ∀ x, locate limit t₀ p = .ok x →
    (∀ c ∈ copies, ∀ y, locate limit t' c.2 = .ok y → Under y x = false) → t[x]? = none
  kept : ∀ z e, t₀[z]? = some e → (∀ p ∈ present, locate limit t₀ p ≠ .ok z) → t[z]? = some e

variable {limit : Nat} {t' : Files} {b : Location}

theorem Published.delivered (h : Published limit dir present copies t₀ t' b) : Delivered limit present copies t₀ t' b t' where
  copied c hc _ := by
    obtain ⟨source, place, f, f', hstat, hplace, hf', hcontent⟩ := h.copied c hc
    exact ⟨source, f, f', hstat, lookup_eq_ok.2 ⟨place, hplace, hf'⟩, hcontent⟩
  gone := h.gone
  kept := h.kept

theorem Published.delivered_without (hc : Closed t₀) (h : Published limit dir present copies t₀ t' b) :
    Delivered limit present copies t₀ t' b (without t' b) where
  copied c hc hclear := by
    obtain ⟨source, place, f, f', hstat, hplace, hf', hcontent⟩ := h.copied c hc
    refine ⟨source, f, f', hstat, lookup_eq_ok.2 ⟨place, hclear.locate_without hplace (by rw [hf']; simp), ?_⟩, hcontent⟩
    rw [getElem?_without, hclear.2 place hplace]
    exact hf'
  gone p hp x hx hnot := by rw [getElem?_without, h.gone p hp x hx hnot, ite_self]
  kept z e hz hnot := by
    rw [getElem?_without, h.kept z e hz hnot, if_neg fun hunder => ?_]
    rw [hc.under h.vacant hunder] at hz
    cases hz

theorem Undone.recoverable (hc : Closed t₀) (hp : ∀ p ∈ present, Declared sys.limit t₀ dir p)
    (h : Accounts sys.limit dir present t₀ L σ) {M : List Effect} {t : Files} (hM : Undone t₀ L M t) :
    Recoverable sys.limit dir present t₀ t := by
  have hdeclared : ∀ p s x y e, Effect.moved p s x y e ∈ M → p ∈ present ∧ locate sys.limit t₀ p = .ok x :=
    fun p s x y e hi => h.declared p s x y e (hM.sub hi)
  have hplace : ∀ z e, t₀[z]? = some e → t[z]? = some e ∨ ∃ p ∈ present, locate sys.limit t₀ p = .ok z ∧
      ∃ d index, directoryOf sys.limit t₀ dir = .ok d ∧ t[d ++ [BACKUP] ++ [savedName index]]? = some e := by
    intro z e hz
    refine (hM.holds.kept hz).imp_right fun hv => ?_
    obtain ⟨p, s, y, e', hi⟩ := mem_vacated.1 hv
    obtain ⟨hpresent, hlocate⟩ := hdeclared p s z y e' hi
    obtain ⟨_, d, index, hd, _, _, rfl⟩ := h.lands _ (hM.sub hi)
    obtain ⟨d₀, hd₀⟩ := (hp p hpresent).directory hc
    obtain rfl := Except.ok.inj ((directoryOf_floor hc hp h.declared h.holds hd₀).symm.trans hd)
    obtain ⟨e'', he'', rfl⟩ := hM.holds.shows _ hi
    rw [(hM.holds.taken _ _ _ _ _ hi).1] at hz
    exact ⟨p, hpresent, hlocate, d₀, index, hd₀, Option.some.inj hz ▸ he''⟩
  refine ⟨hplace, fun p hpresent e he => ?_⟩
  obtain ⟨x, hx, hxe⟩ := lookup_eq_ok.1 he
  rcases hplace x e hxe with hsame | ⟨_, _, _, hsaved⟩
  · exact .inl (lookup_eq_ok.2 ⟨x, locate_floor hc hp hdeclared hM.holds hpresent hx, hsame⟩)
  · exact .inr hsaved

/-- A publication that fails and says so leaves the tree as it was, one that could not be taken back loses no file, and one that
succeeds leaves the staged files at their destinations. -/
theorem publish_spec (sys : System) (dir : Path) (present : List Path) (copies : List (Path × Path)) (t₀ : Files)
    (hc : Closed t₀) (hp : ∀ p ∈ present, Declared sys.limit t₀ dir p) :
    match publish sys dir present copies t₀ with
    | (.unchanged _, t) => t = t₀
    | (.incomplete _ _, t) => Recoverable sys.limit dir present t₀ t
    | (.published note, t) => ∃ t' b, Published sys.limit dir present copies t₀ t' b ∧
      t = (if note.isSome then t' else without t' b) ∧ Delivered sys.limit present copies t₀ t' b t := by
  have hends := @publishing_ends sys dir present copies t₀ hc hp
  unfold Run.Ends at hends
  unfold publish
  rcases heq : publishing sys dir present copies { tree := t₀ } with ⟨problem | _, σ⟩ <;> rw [heq] at hends
  · obtain ⟨L, hL⟩ := hends
    obtain ⟨M, hM, hnil⟩ := restore_spec hc hL
    rcases hr : restore sys (backupOf dir) σ with ⟨failures, σ'⟩
    rw [hr] at hM hnil
    dsimp only
    rw [hr]
    cases failures with
    | nil =>
      rw [hnil rfl] at hM
      exact hM.holds.eq_of_nil
    | cons failure rest => exact hM.recoverable hc hp hL
  · obtain ⟨L, b, _, hpublished⟩ := hends
    unfold removeBackup
    rcases call_cases sys (fun t => (removeDirAll sys.limit t (backupOf dir)).map ((), ·)) σ with
      ⟨f, hcall⟩ | ⟨_, t', hop, hcall⟩ | ⟨e, _, hcall⟩
    · dsimp only
      rw [hcall]
      exact ⟨σ.tree, b, hpublished, rfl, hpublished.delivered⟩
    · dsimp only
      rw [hcall]
      obtain ⟨t'', hremove, hpair⟩ := Except.map_eq_ok.1 hop
      cases hpair
      obtain ⟨x, hx, rfl⟩ := removeDirAll_eq_ok hremove
      obtain rfl := Except.ok.inj (hpublished.located.symm.trans hx)
      exact ⟨σ.tree, b, hpublished, rfl, hpublished.delivered_without hc⟩
    · dsimp only
      rw [hcall]
      exact ⟨σ.tree, b, hpublished, rfl, hpublished.delivered⟩

/-! A project with one declaration, `s/o`, and a staged file `n`. -/

def plain : Access := ⟨0o644, 0⟩

def project : Files :=
  ((((∅ : Files).insert [] .directory).insert ["s"] .directory).insert ["s", "o"] (.file ⟨[1], plain⟩)).insert ["n"]
    (.file ⟨[2], plain⟩)

def failingAt (call : Option Nat) : System := ⟨40, plain, fun n => if call = some n then some .storageFull else none⟩

theorem closed_project : Closed project := by
  have hroot : Closed ((∅ : Files).insert [] .directory) := .empty
  have hdir := hroot.insert (d := []) (s := "s") .directory (by decide) (by decide)
  have hold := hdir.insert (d := ["s"]) (s := "o") (.file ⟨[1], plain⟩) (by decide) (by decide)
  exact hold.insert (d := []) (s := "n") (.file ⟨[2], plain⟩) (by decide) (by decide)

theorem declared_project : ∀ p ∈ [[Step.name "s", .name "o"]], Declared 40 project [.name "s"] p := by
  intro p hp
  rw [mem_singleton.1 hp]
  exact ⟨[], "o", ["s"], .file ⟨[1], plain⟩, rfl, by decide, by decide, not_leads_file (f := ⟨[1], plain⟩) (by decide)⟩

/-- The write of the staged file fails: the old one is back. -/
theorem publish_spec_storageFull :
    (publish (failingAt (some 12)) [.name "s"] [[.name "s", .name "o"]] [([.name "n"], [.name "s", .name "o"])] project).2 = project := by
  have hspec := publish_spec (failingAt (some 12)) [.name "s"] [[.name "s", .name "o"]] [([.name "n"], [.name "s", .name "o"])] project
    closed_project declared_project
  have hfailed : (publish (failingAt (some 12)) [.name "s"] [[.name "s", .name "o"]] [([.name "n"], [.name "s", .name "o"])] project).1 =
      .unchanged ⟨some (.write [.name "s", .name "o"]), some (.fault .storageFull)⟩ := by decide
  generalize publish (failingAt (some 12)) [.name "s"] [[.name "s", .name "o"]] [([.name "n"], [.name "s", .name "o"])] project = r
    at hspec hfailed
  obtain ⟨outcome, t⟩ := r
  obtain rfl : outcome = _ := hfailed
  exact hspec

/-- A destination in the backup goes with it. -/
theorem publish_into_backup : Closed project ∧
    (publish (failingAt none) [.name "s"] [] [([.name "n"], [.name "s", .name BACKUP, .name "o"])] project).1 = .published none ∧
    lookup 40 (publish (failingAt none) [.name "s"] [] [([.name "n"], [.name "s", .name BACKUP, .name "o"])] project).2
      [.name "s", .name BACKUP, .name "o"] = .error .notFound :=
  ⟨closed_project, by decide, by decide +kernel⟩

end Pbps.Publication
