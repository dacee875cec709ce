/-
The effects of a publication as a ledger: what each put into the tree, and what it took from where. A tree that holds a ledger
differs from the one before by the effects on it, in whatever order they are taken back.
-/
import Pbps.Publication.Publish

namespace Pbps.Publication

open FileTree
open Std (ExtTreeMap)
open List Std.ExtTreeMap

/-- A completed effect. The place is where it put an entry. -/
inductive Effect where
  | made (path : Path) (place : Location)
  | backup (place : Location)
  | moved (path saved : Path) (source place : Location) (entry : Entry File)
  | written (path : Path) (place : Location)

namespace Effect

def place : Effect → Location
  | .made _ place | .backup place | .moved _ _ _ place _ | .written _ place => place

def left : Effect → Option Location
  | .moved _ _ source _ _ => some source
  | _ => none

def Shows : Effect → Entry File → Prop
  | .made _ _, e | .backup _, e => e = .directory
  | .moved _ _ _ _ entry, e => e = entry
  | .written _ _, e => ∃ f, e = .file f

def IsWritten : Effect → Prop
  | .written _ _ => True
  | _ => False

/-! What `publish` keeps of it. -/

def madePath : Effect → Option Path
  | .made path _ => some path
  | _ => none

def movedPaths : Effect → Option (Path × Path)
  | .moved path saved _ _ _ => some (path, saved)
  | _ => none

def writtenPath : Effect → Option Path
  | .written path _ => some path
  | _ => none

def isBackup : Effect → Bool
  | .backup _ => true
  | _ => false

end Effect

def places (L : List Effect) : List Location := L.map Effect.place

def vacated (L : List Effect) : List Location := L.filterMap Effect.left

theorem mem_vacated {L : List Effect} {z : Location} : z ∈ vacated L ↔ ∃ p s y e, Effect.moved p s z y e ∈ L := by
  simp only [vacated, List.mem_filterMap]
  constructor
  · rintro ⟨i, hi, h⟩
    cases i <;> cases h
    exact ⟨_, _, _, _, hi⟩
  · rintro ⟨p, s, y, e, hi⟩
    exact ⟨_, hi, rfl⟩

/-- A tree that differs from another by the effects on a ledger. -/
structure Holds (t₀ : Files) (L : List Effect) (t : Files) : Prop where
  shows : ∀ i ∈ L, ∃ e, t[i.place]? = some e ∧ i.Shows e
  rest : ∀ z, z ∉ places L → t[z]? = if z ∈ vacated L then none else t₀[z]?
  vacant : ∀ i ∈ L, i.place ∈ vacated L ∨ t₀[i.place]? = none
  nodup : (places L).Nodup
  taken : ∀ p s x y e, Effect.moved p s x y e ∈ L → t₀[x]? = some e ∧ e ≠ .directory
  once : (vacated L).Nodup

namespace Holds

variable {t₀ t t' : Files} {L M : List Effect} {i : Effect} {z : Location}

theorem start (t₀ : Files) : Holds t₀ [] t₀ where
  shows := by simp
  rest z _ := by simp [vacated]
  vacant := by simp
  nodup := nodup_nil
  taken := by simp
  once := nodup_nil

theorem eq_of_nil (h : Holds t₀ [] t) : t = t₀ := by
  refine ExtTreeMap.ext_getElem? fun z => ?_
  rw [h.rest z (by simp [places])]
  simp [vacated]

section

variable (h : Holds t₀ L t)
include h

theorem perm (hp : L.Perm M) : Holds t₀ M t where
  shows i hi := h.shows i (hp.mem_iff.2 hi)
  rest z hz := by
    have hv : z ∈ vacated L ↔ z ∈ vacated M := (hp.filterMap Effect.left).mem_iff
    rw [h.rest z fun hz' => hz ((hp.map _).mem_iff.1 hz')]
    simp only [hv]
  vacant i hi := (h.vacant i (hp.mem_iff.2 hi)).imp_left (hp.filterMap Effect.left).mem_iff.1
  nodup := (hp.map _).nodup_iff.1 h.nodup
  taken p s x y e hi := h.taken p s x y e (hp.mem_iff.2 hi)
  once := (hp.filterMap _).nodup_iff.1 h.once

theorem unique {j : Effect} (hi : i ∈ L) (hj : j ∈ L) (heq : i.place = j.place) : i = j :=
  inj_on_of_nodup_map h.nodup hi hj heq

theorem not_mem_places (hz : t[z]? = none) : z ∉ places L := by
  intro hmem
  obtain ⟨i, hi, rfl⟩ := List.mem_map.1 hmem
  obtain ⟨e, he, _⟩ := h.shows i hi
  rw [he] at hz
  cases hz

theorem vacant_of_none (hz : t[z]? = none) : z ∈ vacated L ∨ t₀[z]? = none := by
  by_cases hv : z ∈ vacated L
  · exact .inl hv
  · have := h.rest z (h.not_mem_places hz)
    rw [if_neg hv, hz] at this
    exact .inr this.symm

end

variable {e : Entry File} {p : Path} {x : Location}

theorem kept (h : Holds t₀ L t) (hz : t₀[z]? = some e) : t[z]? = some e ∨ z ∈ vacated L := by
  by_cases hv : z ∈ vacated L
  · exact .inr hv
  · left
    rw [h.rest z ?_, if_neg hv, hz]
    intro hmem
    obtain ⟨i, hi, rfl⟩ := List.mem_map.1 hmem
    rcases h.vacant i hi with hleft | hnone
    · exact hv hleft
    · rw [hz] at hnone
      cases hnone

theorem put (h : Holds t₀ L t) (hleft : i.left = none) (hz : t[i.place]? = none) (hs : i.Shows e) :
    Holds t₀ (i :: L) (t.insert i.place e) := by
  have hv : vacated (i :: L) = vacated L := filterMap_cons_none hleft
  have hne : ∀ j ∈ L, j.place ≠ i.place := fun j hj heq => h.not_mem_places hz (heq ▸ mem_map_of_mem hj)
  refine ⟨?_, ?_, ?_, ?_, ?_, hv ▸ h.once⟩
  · intro j hj
    rcases mem_cons.1 hj with rfl | hj
    · exact ⟨e, getElem?_insert_self, hs⟩
    · rw [getElem?_insert_of_ne (hne j hj)]
      exact h.shows j hj
  · intro z hz'
    obtain ⟨hzi, hzL⟩ := not_or.1 (mt mem_cons.2 hz')
    rw [getElem?_insert_of_ne hzi, h.rest z hzL, hv]
  · intro j hj
    rw [hv]
    rcases mem_cons.1 hj with rfl | hj
    · exact h.vacant_of_none hz
    · exact h.vacant j hj
  · exact nodup_cons.2 ⟨h.not_mem_places hz, h.nodup⟩
  · intro p s x y e' hj
    rcases mem_cons.1 hj with rfl | hj
    · cases hleft
    · exact h.taken p s x y e' hj

variable {s : Path} {y : Location}

theorem move (h : Holds t₀ L t) (hx : x ∉ places L) (he : t[x]? = some e) (hdir : e ≠ .directory) (hy : t[y]? = none) :
    Holds t₀ (.moved p s x y e :: L) ((t.erase x).insert y e) := by
  have hv : vacated (.moved p s x y e :: L) = x :: vacated L := rfl
  have hxL : x ∉ vacated L := by
    intro hxL
    have := h.rest x hx
    rw [if_pos hxL, he] at this
    cases this
  have hx₀ : t₀[x]? = some e := by
    have := h.rest x hx
    rw [if_neg hxL, he] at this
    exact this.symm
  have hyL := h.not_mem_places hy
  refine ⟨?_, ?_, ?_, ?_, ?_, ?_⟩
  · intro j hj
    rcases mem_cons.1 hj with rfl | hj
    · exact ⟨e, getElem?_insert_self, rfl⟩
    · have hjy : j.place ≠ y := fun heq => hyL (heq ▸ mem_map_of_mem hj)
      have hjx : j.place ≠ x := fun heq => hx (heq ▸ mem_map_of_mem hj)
      rw [getElem?_insert_of_ne hjy, getElem?_erase_of_ne hjx]
      exact h.shows j hj
  · intro z hz
    have hzy : z ≠ y := fun heq => hz (mem_cons.2 (.inl heq))
    have hzL : z ∉ places L := fun hmem => hz (mem_cons.2 (.inr hmem))
    rw [getElem?_insert_of_ne hzy, hv]
    by_cases hzx : z = x
    · subst hzx
      rw [getElem?_erase_self, if_pos mem_cons_self]
    · rw [getElem?_erase_of_ne hzx, h.rest z hzL]
      simp [hzx]
  · intro j hj
    rw [hv]
    rcases mem_cons.1 hj with rfl | hj
    · exact (h.vacant_of_none hy).imp_left (mem_cons_of_mem x)
    · exact (h.vacant j hj).imp_left (mem_cons_of_mem x)
  · exact nodup_cons.2 ⟨hyL, h.nodup⟩
  · intro p' s' x' y' e' hj
    rcases mem_cons.1 hj with heq | hj
    · cases heq
      exact ⟨hx₀, hdir⟩
    · exact h.taken p' s' x' y' e' hj
  · exact nodup_cons.2 ⟨hxL, h.once⟩

theorem place_ne (h : Holds t₀ (i :: L) t) {j : Effect} (hj : j ∈ L) : j.place ≠ i.place := fun heq =>
  (nodup_cons.1 h.nodup).1 (heq ▸ mem_map_of_mem hj)

theorem drop (h : Holds t₀ (i :: L) t) (hleft : i.left = none) : Holds t₀ L (t.erase i.place) := by
  have hv : vacated (i :: L) = vacated L := filterMap_cons_none hleft
  refine ⟨?_, ?_, ?_, (nodup_cons.1 h.nodup).2, ?_, hv ▸ h.once⟩
  · intro j hj
    rw [getElem?_erase_of_ne (h.place_ne hj)]
    exact h.shows j (mem_cons_of_mem i hj)
  · intro z hz
    by_cases hzi : z = i.place
    · subst hzi
      rw [getElem?_erase_self]
      rcases h.vacant i mem_cons_self with hmem | hnone
      · rw [if_pos (hv ▸ hmem)]
      · rw [hnone, ite_self]
    · rw [getElem?_erase_of_ne hzi, h.rest z fun hmem => (mem_cons.1 hmem).elim hzi hz, hv]
  · intro j hj
    exact hv ▸ h.vacant j (mem_cons_of_mem i hj)
  · exact fun p s x y e hj => h.taken p s x y e (mem_cons_of_mem i hj)

theorem unmove (h : Holds t₀ (.moved p s x y e :: L) t) (hx : t[x]? = none) : Holds t₀ L ((t.erase y).insert x e) := by
  have hv : vacated (.moved p s x y e :: L) = x :: vacated L := rfl
  obtain ⟨hxL, honce⟩ : x ∉ vacated L ∧ (vacated L).Nodup := nodup_cons.1 (hv ▸ h.once)
  have hxp := h.not_mem_places hx
  have hjy : ∀ j ∈ L, j.place ≠ y := fun j hj => h.place_ne hj
  have hy : y ∈ x :: vacated L ∨ t₀[y]? = none := hv ▸ h.vacant _ mem_cons_self
  have hjx : ∀ j ∈ L, j.place ≠ x := fun j hj heq => hxp (heq ▸ mem_map_of_mem (mem_cons_of_mem _ hj))
  refine ⟨?_, ?_, ?_, (nodup_cons.1 h.nodup).2, ?_, honce⟩
  · intro j hj
    rw [getElem?_insert_of_ne (hjx j hj), getElem?_erase_of_ne (hjy j hj)]
    exact h.shows j (mem_cons_of_mem _ hj)
  · intro z hz
    by_cases hzx : z = x
    · subst hzx
      rw [getElem?_insert_self, if_neg hxL]
      exact (h.taken p s z y e mem_cons_self).1.symm
    · rw [getElem?_insert_of_ne hzx]
      by_cases hzy : z = y
      · subst hzy
        rw [getElem?_erase_self]
        rcases hy with hmem | hnone
        · rw [if_pos ((mem_cons.1 hmem).resolve_left hzx)]
        · rw [hnone, ite_self]
      · rw [getElem?_erase_of_ne hzy, h.rest z fun hmem => (mem_cons.1 hmem).elim hzy hz, hv]
        simp [hzx]
  · intro j hj
    exact (h.vacant j (mem_cons_of_mem _ hj)).imp_left fun hmem => (mem_cons.1 hmem).resolve_left (hjx j hj)
  · exact fun p s x y e hj => h.taken p s x y e (mem_cons_of_mem _ hj)

theorem change (h : Holds t₀ L t) (hi : .written p x ∈ L) {f : File} (hx : t'[x]? = some (.file f))
    (hother : ∀ z, z ≠ x → t'[z]? = t[z]?) : Holds t₀ L t' := by
  refine ⟨?_, ?_, h.vacant, h.nodup, h.taken, h.once⟩
  · intro j hj
    by_cases hjx : j.place = x
    · obtain rfl := h.unique hj hi hjx
      exact ⟨_, hx, f, rfl⟩
    · rw [hother _ hjx]
      exact h.shows j hj
  · intro z hz
    have hzx : z ≠ x := fun heq => hz (List.mem_map.2 ⟨_, hi, heq.symm⟩)
    rw [hother z hzx, h.rest z hz]

end Holds

/-! ## Where the paths of effects lead -/

section Lands

variable {limit : Nat} {dir : Path} {t₀ t t' : Files} {L M : List Effect}

def Effect.Lands (limit : Nat) (dir : Path) (t : Files) : Effect → Prop
  | .made path place | .written path place => locate limit t path = .ok place
  | .backup place => ∃ d, directoryOf limit t dir = .ok d ∧ place = d ++ [BACKUP]
  | .moved path saved source place _ => locate limit t path = .ok source ∧
    ∃ d index, directoryOf limit t dir = .ok d ∧ t[d ++ [BACKUP]]? = some .directory ∧ saved = savedAs dir index ∧
      place = d ++ [BACKUP] ++ [savedName index]

variable {i : Effect}

theorem Effect.Lands.keeps (h : i.Lands limit dir t) (hk : Keeps t t') : i.Lands limit dir t' := by
  cases i with
  | made path place => exact locate_keeps hk h
  | written path place => exact locate_keeps hk h
  | backup place =>
    obtain ⟨d, hd, hplace⟩ := h
    exact ⟨d, directoryOf_keeps hk hd, hplace⟩
  | moved path saved source place entry =>
    obtain ⟨hsource, d, index, hd, hb, hsaved, hplace⟩ := h
    exact ⟨locate_keeps hk hsource, d, index, directoryOf_keeps hk hd, hk _ _ Entry.passed_directory hb, hsaved, hplace⟩

theorem saved_place (hf : Fades t t') {d y : Location} {index : Nat} (hd : directoryOf limit t dir = .ok d)
    (hb : t[d ++ [BACKUP]]? = some .directory) (hy : locate limit t' (savedAs dir index) = .ok y) :
    y = d ++ [BACKUP] ++ [savedName index] := by
  rw [savedAs, locate_concat] at hy
  obtain ⟨z, hz, rfl⟩ := Except.map_eq_ok.1 hy
  obtain ⟨hr, _⟩ := directoryOf_eq_ok.1 hz
  obtain ⟨d', hd', hs⟩ := resolve_append (cons_ne_nil _ _) hr
  obtain ⟨hrd, hdir⟩ := directoryOf_eq_ok.1 hd
  have hsame : d' = d := by
    rcases resolve_fades hf hdir hrd with hsame | ⟨hgone, _⟩
    · exact Except.ok.inj (hd'.symm.trans hsame)
    · rw [hgone] at hd'
      cases hd'
  subst hsame
  have hlink : ∀ target, t'[d' ++ [BACKUP]]? ≠ some (.link target) := by
    intro target hlink
    rcases hf _ _ Entry.passed_directory hb with h | h <;> rw [hlink] at h <;> cases h
  rw [resolve_name hs hlink]

variable {e : Entry File}

theorem Holds.passed (h : Holds t₀ L t) (h' : Holds t₀ M t') (hsub : M ⊆ L) {z : Location} (he : e.Passed) (hz : t[z]? = some e) :
    t'[z]? = some e ∨ ∃ i ∈ L, i ∉ M ∧ i.place = z ∧ ¬ i.IsWritten := by
  by_cases hmem : z ∈ places L
  · obtain ⟨i, hi, rfl⟩ := List.mem_map.1 hmem
    obtain ⟨e', he', hs⟩ := h.shows i hi
    obtain rfl : e = e' := Option.some.inj (hz.symm.trans he')
    have hw : ¬ i.IsWritten := by
      intro hw
      cases i with
      | written path place =>
        obtain ⟨f, rfl⟩ := hs
        exact he f rfl
      | made path place => exact hw
      | backup place => exact hw
      | moved path saved source place entry => exact hw
    by_cases hiM : i ∈ M
    · obtain ⟨e', he', hs'⟩ := h'.shows i hiM
      rw [he']
      refine .inl (congrArg some ?_)
      cases i with
      | written path place => exact absurd trivial hw
      | made path place => exact hs'.trans hs.symm
      | backup place => exact hs'.trans hs.symm
      | moved path saved source place entry => exact hs'.trans hs.symm
    · exact .inr ⟨i, hi, hiM, rfl, hw⟩
  · have hmem' : z ∉ places M := fun hz' => hmem (map_subset _ hsub hz')
    left
    rw [h.rest z hmem] at hz
    split at hz
    · cases hz
    · next hv =>
      have hvM : z ∉ vacated M := fun hv' => hv (filterMap_subset _ hsub hv')
      rw [h'.rest z hmem', if_neg hvM, hz]

/-- A ledger of which some effects were taken back. What was put at a place is gone from it, but for a file, where another may be
back. -/
structure Undone (t₀ : Files) (L M : List Effect) (t : Files) : Prop where
  holds : Holds t₀ M t
  sub : M ⊆ L
  gone : ∀ i ∈ L, i ∉ M → i.IsWritten ∨ t[i.place]? = none

theorem Undone.start (h : Holds t₀ L t) : Undone t₀ L L t := ⟨h, fun _ h => h, fun _ hi hiL => absurd hi hiL⟩

theorem Undone.fades (h : Holds t₀ L t) (h' : Undone t₀ L M t') : Fades t t' := by
  intro z e he hz
  rcases h.passed h'.holds h'.sub he hz with hsame | ⟨i, hi, hiM, rfl, hw⟩
  · exact .inl hsame
  · exact .inr ((h'.gone i hi hiM).resolve_left hw)

theorem Undone.keeps (h : Holds t₀ L t) (h' : Undone t₀ L M t') (hw : ∀ i ∈ L, i ∉ M → i.IsWritten) : Keeps t t' := by
  intro z e he hz
  rcases h.passed h'.holds h'.sub he hz with hsame | ⟨i, hi, hiM, rfl, hne⟩
  · exact hsame
  · exact absurd (hw i hi hiM) hne

/-- The place of an effect that was taken back: a call that finds a directory there found another. -/
theorem Undone.mem_of_directory (h : Undone t₀ L M t) (hi : i ∈ L) (hw : ¬ i.IsWritten) (hplace : t[i.place]? = some e) :
    i ∈ M := by
  by_contra hiM
  rw [(h.gone i hi hiM).resolve_left hw] at hplace
  cases hplace

/-- What `publish` keeps of its effects, and where their paths lead. -/
structure Accounts (limit : Nat) (dir : Path) (present : List Path) (t₀ : Files) (L : List Effect) (σ : State) : Prop where
  holds : Holds t₀ L σ.tree
  lands : ∀ i ∈ L, i.Lands limit dir σ.tree
  free : ∀ i ∈ L, i.left ≠ none → t₀[i.place]? = none
  declared : ∀ p s x y e, Effect.moved p s x y e ∈ L → p ∈ present ∧ locate limit t₀ p = .ok x
  directories : σ.directories = L.filterMap Effect.madePath
  moved : σ.moved = L.filterMap Effect.movedPaths
  outputs : σ.outputs = L.filterMap Effect.writtenPath
  ownsBackup : σ.ownsBackup = L.any Effect.isBackup

theorem Holds.split (h : Holds t₀ M t) (hi : i ∈ M) :
    ∃ M', Holds t₀ (i :: M') t ∧ M' ⊆ M ∧ i ∉ M' ∧ ∀ j ∈ M, j ≠ i → j ∈ M' := by
  obtain ⟨s, r, rfl⟩ := append_of_mem hi
  have h' : Holds t₀ (i :: (s ++ r)) t := h.perm perm_middle
  refine ⟨s ++ r, h', fun j hj => perm_middle.mem_iff.2 (mem_cons_of_mem i hj), ?_, ?_⟩
  · exact fun hmem => h'.place_ne hmem rfl
  · exact fun j hj hne => (mem_cons.1 (perm_middle.mem_iff.1 hj)).resolve_left hne

end Lands

end Pbps.Publication
