/-
The moves of the old files into the backup. A declaration is passed by no path that leads to a directory, so every such path leads
to the same one while declarations are moved.
-/
import Pbps.Publication.Progress

namespace Pbps.Publication

open FileTree
open Std (ExtTreeMap)
open List

/-- A declaration in a directory: a file, or a link that leads to no directory. -/
def Declared (limit : Nat) (t : Files) (dir p : Path) : Prop :=
  ∃ rest s d e, p = dir ++ rest ++ [.name s] ∧ directoryOf limit t (dir ++ rest) = .ok d ∧ t[d ++ [s]]? = some e ∧ ¬ Leads t d s

variable {limit : Nat} {sys : System} {dir : Path} {present : List Path} {t₀ t : Files} {L : List Effect} {σ : State}

theorem Declared.locate {p : Path} (h : Declared limit t dir p) :
    ∃ d s e, locate limit t p = .ok (d ++ [s]) ∧ t[d ++ [s]]? = some e ∧ e ≠ .directory ∧ ¬ Leads t d s := by
  obtain ⟨rest, s, d, e, rfl, hd, he, hleads⟩ := h
  refine ⟨d, s, e, by rw [locate_concat, hd]; rfl, he, ?_, hleads⟩
  rintro rfl
  exact hleads ⟨1, d ++ [s], by rw [resolve, he]; rfl, he⟩

theorem Declared.directory (hc : Closed t) {p : Path} (h : Declared limit t dir p) : ∃ d, directoryOf limit t dir = .ok d := by
  obtain ⟨rest, s, d, e, rfl, hd, he, _⟩ := h
  obtain ⟨hr, hdir⟩ := directoryOf_eq_ok.1 hd
  obtain ⟨d', hr', hdir'⟩ := resolve_directory hc hdir hc.root hr
  exact ⟨d', directoryOf_eq_ok.2 ⟨hr', hdir'⟩⟩

section Floor

variable (hc : Closed t₀) (hp : ∀ p ∈ present, Declared limit t₀ dir p) (hL : ∀ p s x y e, Effect.moved p s x y e ∈ L →
  p ∈ present ∧ locate limit t₀ p = .ok x) (h : Holds t₀ L t)

include hc hp hL h

/-- Where a path led to a directory before, it leads to it while declarations are moved. -/
theorem directoryOf_floor {path : Path} {d : Location} (hd : directoryOf limit t₀ path = .ok d) :
    directoryOf limit t path = .ok d := by
  have hmoved : ∀ z ∈ vacated L, ∃ d s, z = d ++ [s] ∧ ¬ Leads t₀ d s := by
    intro z hz
    obtain ⟨p, saved, y, e, hi⟩ := mem_vacated.1 hz
    obtain ⟨hpresent, hz'⟩ := hL p saved z y e hi
    obtain ⟨d, s, e', hx, _, _, hleads⟩ := (hp p hpresent).locate
    exact ⟨d, s, Except.ok.inj (hz'.symm.trans hx), hleads⟩
  refine directoryOf_leads hc (fun x s e he hleads => (h.kept he).resolve_right fun hv => ?_)
    ((h.kept hc.root).resolve_right fun hv => ?_) hd
  · obtain ⟨d', s', heq, hnot⟩ := hmoved _ hv
    obtain ⟨rfl, hs⟩ := append_inj' heq rfl
    obtain rfl := singleton_inj.1 hs
    exact hnot hleads
  · obtain ⟨d', s', heq, _⟩ := hmoved _ hv
    simp at heq

theorem locate_floor {p : Path} (hpresent : p ∈ present) {x : Location} (hx : locate limit t₀ p = .ok x) :
    locate limit t p = .ok x := by
  obtain ⟨rest, s, d, e, rfl, hd, _⟩ := hp p hpresent
  rw [locate_concat, hd] at hx
  rw [locate_concat, directoryOf_floor hc hp hL h hd]
  exact hx

end Floor

theorem savedName_injective {j k : Nat} (h : savedName j = savedName k) : j = k := by
  have hlist : Nat.toDigits 10 j = Nat.toDigits 10 k := by
    have := congrArg String.toList h
    simpa [savedName, Nat.toString_eq_ofList_toDigits] using this
  calc
    j = Nat.ofDigitChars 10 (Nat.toDigits 10 j) 0 := Nat.ofDigitChars_ten_toDigits.symm
    _ = Nat.ofDigitChars 10 (Nat.toDigits 10 k) 0 := by rw [hlist]
    _ = k := Nat.ofDigitChars_ten_toDigits

/-- While declarations are moved: the backup is on the ledger and what was moved to it, under the names up to a number. -/
structure Moving (limit : Nat) (dir : Path) (present : List Path) (t₀ : Files) (d : Location) (k : Nat) (L : List Effect)
    (σ : State) : Prop extends Accounts limit dir present t₀ L σ where
  backup : .backup (d ++ [BACKUP]) ∈ L
  vacant : t₀[d ++ [BACKUP]]? = none
  shape : ∀ i ∈ L, i = .backup (d ++ [BACKUP]) ∨
    ∃ p j x e, j < k ∧ i = .moved p (savedAs dir j) x (d ++ [BACKUP] ++ [savedName j]) e

variable {d : Location} {k : Nat}

theorem Moving.mono (h : Moving limit dir present t₀ d k L σ) {k' : Nat} (hk : k ≤ k') : Moving limit dir present t₀ d k' L σ := by
  refine ⟨h.toAccounts, h.backup, h.vacant, fun i hi => (h.shape i hi).imp_right ?_⟩
  rintro ⟨p, j, x, e, hj, hi⟩
  exact ⟨p, j, x, e, by omega, hi⟩

theorem Moving.under (h : Moving limit dir present t₀ d k L σ) {z : Location} (hz : z ∈ places L) :
    Under z (d ++ [BACKUP]) = true := by
  obtain ⟨i, hi, rfl⟩ := mem_map.1 hz
  rcases h.shape i hi with rfl | ⟨p, j, x, e, _, rfl⟩
  · exact under_self _
  · exact under_iff.2 (prefix_append _ _)

section

variable (hc : Closed t₀) (h : Moving limit dir present t₀ d k L σ)
include hc h

theorem Moving.next : σ.tree[d ++ [BACKUP] ++ [savedName k]]? = none := by
  have hnone₀ : t₀[d ++ [BACKUP] ++ [savedName k]]? = none := hc.under h.vacant (under_iff.2 (prefix_append _ _))
  rw [h.holds.rest, hnone₀, ite_self]
  intro hmem
  obtain ⟨i, hi, heq⟩ := mem_map.1 hmem
  rcases h.shape i hi with rfl | ⟨p, j, x, e, hj, rfl⟩
  · simp [Effect.place] at heq
  · have hname : savedName j = savedName k := singleton_inj.1 (append_cancel_left heq)
    exact absurd (savedName_injective hname) (Nat.ne_of_lt hj)

theorem Moving.stands {x : Location} {e e' : Entry File} (hx₀ : t₀[x]? = some e) (hx : σ.tree[x]? = some e') :
    x ∉ places L ∧ e = e' := by
  have hplace : x ∉ places L := fun hmem => by
    rw [hc.under h.vacant (h.under hmem)] at hx₀
    cases hx₀
  refine ⟨hplace, ?_⟩
  rw [h.holds.rest x hplace, hx₀] at hx
  split at hx <;> cases hx
  rfl

end

section Moves

variable (hc : Closed t₀) (hp : ∀ p ∈ present, Declared sys.limit t₀ dir p) (hd : directoryOf sys.limit t₀ dir = .ok d)

include hc hp hd

variable (h : Moving sys.limit dir present t₀ d k L σ)
include h

theorem Moving.save {p : Path} (hpresent : p ∈ present) {t : Files} {n : Nat}
    (hrename : rename sys.limit σ.tree p (savedAs dir k) = .ok t) :
    ∃ x e, locate sys.limit t₀ p = .ok x ∧ Moving sys.limit dir present t₀ d (k + 1)
      (L ++ [.moved p (savedAs dir k) x (d ++ [BACKUP] ++ [savedName k]) e])
      { σ with calls := n, tree := t, moved := σ.moved ++ [(p, savedAs dir k)] } := by
  obtain ⟨x', y, e', hx', hy, he', ht⟩ := rename_eq_ok hrename
  obtain ⟨d', s, e, hx₀, he₀, hdir, _⟩ := (hp p hpresent).locate
  obtain rfl := Except.ok.inj (hx'.symm.trans (locate_floor hc hp h.declared h.holds hpresent hx₀))
  obtain ⟨hplace, rfl⟩ := h.stands hc he₀ he'
  obtain rfl := ht hdir
  obtain ⟨eb, hb, rfl⟩ := h.holds.shows _ h.backup
  have hd' := directoryOf_floor hc hp h.declared h.holds hd
  obtain rfl := saved_place (Keeps.refl _).fades hd' hb hy
  have hmove := (h.holds.move (p := p) (s := savedAs dir k) hplace he' hdir (h.next hc)).perm (perm_append_singleton _ L).symm
  have hnew : ∀ {i}, i ∈ L ++ [.moved p (savedAs dir k) (d' ++ [s]) (d ++ [BACKUP] ++ [savedName k]) e] →
      i ∈ L ∨ i = .moved p (savedAs dir k) (d' ++ [s]) (d ++ [BACKUP] ++ [savedName k]) e := by simp
  have hdeclared : ∀ p' s' x' y' e', Effect.moved p' s' x' y' e' ∈
      L ++ [.moved p (savedAs dir k) (d' ++ [s]) (d ++ [BACKUP] ++ [savedName k]) e] →
      p' ∈ present ∧ locate sys.limit t₀ p' = .ok x' := by
    intro p' s' x' y' e' hi
    rcases hnew hi with hi | heq
    · exact h.declared p' s' x' y' e' hi
    · cases heq
      exact ⟨hpresent, hx₀⟩
  have hshape : ∀ i ∈ L ++ [.moved p (savedAs dir k) (d' ++ [s]) (d ++ [BACKUP] ++ [savedName k]) e],
      i = .backup (d ++ [BACKUP]) ∨
      ∃ p' j x' e', j < k + 1 ∧ i = .moved p' (savedAs dir j) x' (d ++ [BACKUP] ++ [savedName j]) e' := by
    intro i hi
    rcases hnew hi with hi | rfl
    · exact (h.mono (Nat.le_succ k)).shape i hi
    · exact .inr ⟨p, k, _, e, Nat.lt_succ_self k, rfl⟩
  have hdir' := directoryOf_floor hc hp hdeclared hmove hd
  obtain ⟨_, hbackup, rfl⟩ := hmove.shows _ (mem_append_left _ h.backup)
  have hlands : ∀ i ∈ L ++ [.moved p (savedAs dir k) (d' ++ [s]) (d ++ [BACKUP] ++ [savedName k]) e],
      i.Lands sys.limit dir ((σ.tree.erase (d' ++ [s])).insert (d ++ [BACKUP] ++ [savedName k]) e) := by
    intro i hi
    rcases hshape i hi with rfl | ⟨p', j, x', e', _, rfl⟩
    · exact ⟨d, hdir', rfl⟩
    · obtain ⟨hp', hx'⟩ := hdeclared _ _ _ _ _ hi
      exact ⟨locate_floor hc hp hdeclared hmove hp' hx', d, j, hdir', hbackup, rfl, rfl⟩
  refine ⟨_, e, hx₀, ⟨⟨hmove, hlands, ?_, hdeclared, ?_, ?_, ?_, ?_⟩, mem_append_left _ h.backup, h.vacant, hshape⟩⟩
  · intro i hi hleft
    rcases hnew hi with hi | rfl
    · exact h.free i hi hleft
    · exact hc.under h.vacant (under_iff.2 (prefix_append _ _))
  · rw [filterMap_snoc, ← h.directories]
    exact (append_nil _).symm
  · rw [filterMap_snoc, ← h.moved]
    rfl
  · rw [filterMap_snoc, ← h.outputs]
    exact (append_nil _).symm
  · rw [any_append, ← h.ownsBackup]
    exact (Bool.or_false _).symm

theorem saveOld_ends {p : Path} (hpresent : p ∈ present) :
    (saveOld sys dir (p, k)).Ends σ (fun _ σ' => ∃ i, (∃ x, locate sys.limit t₀ p = .ok x ∧ i.left = some x) ∧
      Moving sys.limit dir present t₀ d (k + 1) (L ++ [i]) σ') (Accounts sys.limit dir present t₀ L) := by
  unfold saveOld
  refine .bind (.context (call_ends (fun _ t hop => ?_) (h.toAccounts.tick _)))
  obtain ⟨t', hrename, hpair⟩ := Except.map_eq_ok.1 hop
  cases hpair
  obtain ⟨x, e, hx, hmoving⟩ := h.save hc hp hd (n := σ.calls + 1) hpresent hrename
  exact ⟨_, ⟨x, hx, rfl⟩, hmoving⟩

theorem saveAll_ends {l : List Path} (hl : ∀ p ∈ l, p ∈ present) :
    ((l.zipIdx k).forM (saveOld sys dir)).Ends σ (fun _ σ' => ∃ L', L ⊆ L' ∧ Moving sys.limit dir present t₀ d (k + l.length) L' σ' ∧
      ∀ p ∈ l, ∀ x, locate sys.limit t₀ p = .ok x → x ∈ vacated L') (fun σ' => ∃ L', Accounts sys.limit dir present t₀ L' σ') := by
  induction l generalizing k L σ with
  | nil => exact ⟨L, fun _ h => h, h, by simp⟩
  | cons p l ih =>
    refine Run.Ends.seq ((saveOld_ends hc hp hd h (hl p mem_cons_self)).mono (fun _ _ h => h) fun _ h => ⟨L, h⟩) ?_
    rintro _ σ' ⟨i, ⟨x, hx, hleft⟩, hmoving⟩
    refine (ih hmoving fun q hq => hl q (mem_cons_of_mem p hq)).mono ?_ fun _ h => h
    rintro _ σ'' ⟨L', hsub, hmoving', hgone⟩
    refine ⟨L', fun j hj => hsub (mem_append_left _ hj), ?_, fun q hq y hy => ?_⟩
    · rwa [Nat.add_right_comm] at hmoving'
    · rcases mem_cons.1 hq with rfl | hq
      · obtain rfl := Except.ok.inj (hx.symm.trans hy)
        exact mem_filterMap.2 ⟨i, hsub (mem_append_right _ (mem_singleton_self i)), hleft⟩
      · exact hgone q hq y hy

end Moves

end Pbps.Publication
