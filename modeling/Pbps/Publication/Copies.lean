/-
The copies of the staged files. All that was there when a copy begins is there when it is done, and its destination holds what its
source does.
-/
import Pbps.Publication.Progress

namespace Pbps.Publication

open FileTree
open Std (ExtTreeMap)
open List Std.ExtTreeMap

variable {limit : Nat} {sys : System} {dir : Path} {present : List Path} {t₀ t : Files} {L : List Effect} {σ : State}

def Copied (limit : Nat) (t : Files) (c : Path × Path) : Prop :=
  ∃ source place f f', stat limit t c.1 = .ok (source, .file f) ∧ locate limit t c.2 = .ok place ∧ t[place]? = some (.file f') ∧
    f'.content = f.content

theorem Copied.extends {c : Path × Path} {t' : Files} (h : Copied limit t c) (ht : Extends t t') : Copied limit t' c := by
  obtain ⟨source, place, f, f', hstat, hplace, hf', hcontent⟩ := h
  obtain ⟨hsource, hf⟩ := stat_eq_ok.1 hstat
  exact ⟨source, place, f, f', stat_eq_ok.2 ⟨resolve_le ht hsource, ht _ _ hf⟩, locate_keeps ht.keeps hplace, ht _ _ hf', hcontent⟩

theorem changeFile_at {x : Location} {f : File} {g : File → File} (hx : t[x]? = some (.file f)) :
    changeFile t x g = t.insert x (.file (g f)) := by
  unfold changeFile
  rw [hx]

/-- While an output is written: it is on the ledger, and all else is as it was. -/
structure Writing (limit : Nat) (dir : Path) (present : List Path) (t₀ : Files) (L : List Effect) (t : Files) (path : Path)
    (x : Location) (P : File → Prop) (σ : State) : Prop extends Accounts limit dir present t₀ L σ where
  mem : .written path x ∈ L
  others : ∀ z, z ≠ x → σ.tree[z]? = t[z]?
  file : ∃ f, σ.tree[x]? = some (.file f) ∧ P f

variable {path : Path} {x : Location} {P Q : File → Prop}

section

variable (h : Writing sys.limit dir present t₀ L t path x P σ)

include h

theorem Writing.tick (n : Nat) :
    Writing sys.limit dir present t₀ L t path x P { σ with calls := n } :=
  ⟨h.toAccounts.tick n, h.mem, h.others, h.file⟩

theorem Writing.change {change : File → File} (hP : ∀ f, P f → Q (change f)) (n : Nat) :
    Writing sys.limit dir present t₀ L t path x Q { σ with calls := n, tree := changeFile σ.tree x change } := by
  obtain ⟨f, hx, hf⟩ := h.file
  have heq := changeFile_at (g := change) hx
  have hself : (changeFile σ.tree x change)[x]? = some (.file (change f)) := by rw [heq, getElem?_insert_self]
  have hother : ∀ z, z ≠ x → (changeFile σ.tree x change)[z]? = σ.tree[z]? := by
    intro z hz
    rw [heq, getElem?_insert_of_ne hz]
  have hk : Keeps σ.tree (changeFile σ.tree x change) := by
    intro z e he hz
    rw [hother z, hz]
    rintro rfl
    exact he f (Option.some.inj (hz.symm.trans hx))
  exact ⟨⟨h.holds.change h.mem hself hother, fun i hi => (h.lands i hi).keeps hk, h.free, h.declared, h.directories, h.moved,
    h.outputs, h.ownsBackup⟩, h.mem, fun z hz => (hother z hz).trans (h.others z hz), change f, hself, hP f hf⟩

theorem changeFile_ends {change : File → File} (hP : ∀ f, P f → Q (change f)) :
    (call sys fun t => .ok ((), changeFile t x change)).Ends σ
      (fun _ => Writing sys.limit dir present t₀ L t path x Q) (Accounts sys.limit dir present t₀ L) := by
  refine call_ends (fun _ t' hop => ?_) (h.toAccounts.tick _)
  cases hop
  exact h.change hP _

end

theorem setAccess_ends {c : List UInt8 → Prop} (h : Writing sys.limit dir present t₀ L t path x (fun f => c f.content) σ)
    (access : Access) (preserveGroup : Bool) : (setAccess sys x access preserveGroup).Ends σ
      (fun _ => Writing sys.limit dir present t₀ L t path x fun f => c f.content) (Accounts sys.limit dir present t₀ L) := by
  unfold setAccess
  cases preserveGroup with
  | true => exact .seq (changeFile_ends h fun _ hf => hf) fun _ σ' h' => changeFile_ends h' fun _ hf => hf
  | false => exact changeFile_ends h fun _ hf => hf

theorem copyContent_ends (h : Writing sys.limit dir present t₀ L t path x P σ) {input : Location} (hne : input ≠ x) :
    (copyContent sys input x).Ends σ (fun _ σ' => ∃ f, t[input]? = some (.file f) ∧
      Writing sys.limit dir present t₀ L t path x (fun f' => f'.content = f.content) σ') (Accounts sys.limit dir present t₀ L) := by
  refine call_ends (fun _ t' hop => ?_) (h.toAccounts.tick _)
  rw [h.others input hne] at hop
  split at hop
  · next f hf =>
    cases hop
    refine ⟨f, hf, h.change ?_ _⟩
    exact fun _ _ => rfl
  · cases hop
  · cases hop

theorem accessFor_ends (metadata : Option Access) (input : Location) :
    (accessFor sys metadata input).Ends σ (fun _ => Ticked σ) (Ticked σ) := by
  unfold accessFor
  cases metadata with
  | some access => exact ⟨_, rfl⟩
  | none =>
    refine .mapError (call_ends (fun a t hop => ?_) ⟨_, rfl⟩)
    cases hop
    exact ⟨_, rfl⟩

theorem createParent_ends (h : Accounts sys.limit dir present t₀ L σ) (path : Path) : (createParent sys path).Ends σ
    (fun _ => MadeFor sys.limit dir present t₀ L σ.tree path.dropLast) fun σ' => ∃ L', Accounts sys.limit dir present t₀ L' σ' := by
  unfold createParent
  split
  · exact .start h _
  · refine .context ((createDirectories_ends h _).mono (fun _ _ h => h) ?_)
    rintro σ' ⟨N, hN, _⟩
    exact ⟨_, hN⟩

/-- What a copy that is done has put into the tree. -/
structure CopyDone (limit : Nat) (dir : Path) (present : List Path) (t₀ : Files) (L : List Effect) (t : Files) (c : Path × Path)
    (N : List Effect) (σ : State) : Prop where
  accounts : Accounts limit dir present t₀ (L ++ N) σ
  extends_ : Extends t σ.tree
  copied : Copied limit σ.tree c
  above : ∀ i ∈ N, i.left = none ∧ ∃ x, locate limit σ.tree c.2 = .ok x ∧ i.place <+: x

/-- A copy that stops, at any call, stops with every effect on record. -/
theorem copyOne_ends (h : Accounts sys.limit dir present t₀ L σ) (c : Path × Path) (metadata : Option Access) :
    (copyOne sys (c, metadata)).Ends σ (fun _ σ' => ∃ N, CopyDone sys.limit dir present t₀ L σ.tree c N σ')
      fun σ' => ∃ L', Accounts sys.limit dir present t₀ L' σ' := by
  obtain ⟨source, path⟩ := c
  unfold copyOne
  refine .seq (createParent_ends h path) ?_
  rintro _ σ₁ ⟨N, hN, hext, hplaces⟩
  refine .bind (.context (call_ends (fun _ t hop => ?_) ⟨_, hN.tick _⟩))
  obtain ⟨⟨input, e⟩, hstat, hpair⟩ := Except.map_eq_ok.1 hop
  cases hpair
  obtain ⟨hresolve, hinput⟩ := stat_eq_ok.1 hstat
  have h₂ := hN.tick (σ₁.calls + 1)
  refine .bind (.context (call_ends (fun x t hop => ?_) ⟨_, h₂.tick _⟩))
  obtain ⟨hx, hnone, rfl⟩ := create_eq_ok.1 hop
  have hcreated : Extends σ₁.tree (σ₁.tree.insert x (.file ⟨[], sys.fresh⟩)) := .insert _ hnone
  have hwriting : Writing sys.limit dir present t₀ (L ++ N ++ [.written path x]) σ₁.tree path x (fun _ => True)
      { σ₁ with
        tree := σ₁.tree.insert x (.file ⟨[], sys.fresh⟩), calls := σ₁.calls + 1 + 1, outputs := σ₁.outputs ++ [path] } := by
    refine ⟨h₂.put rfl hnone ⟨_, rfl⟩ (locate_keeps hcreated.keeps hx) rfl (append_nil _).symm rfl rfl (Bool.or_false _).symm,
      mem_append_right _ (mem_singleton_self _), fun z hz => getElem?_insert_of_ne hz, _,
      getElem?_insert_self, trivial⟩
  refine .bind ?_
  refine .seq ((accessFor_ends metadata input).mono (fun _ _ h => h) fun σ' h => ⟨_, h.accounts hwriting.toAccounts⟩) ?_
  rintro access _ ⟨n, rfl⟩
  have hne : input ≠ x := by
    rintro rfl
    rw [hinput] at hnone
    cases hnone
  have hfailed : ∀ σ', Accounts sys.limit dir present t₀ (L ++ N ++ [.written path x]) σ' →
      ∃ L', Accounts sys.limit dir present t₀ L' σ' := fun _ h => ⟨_, h⟩
  refine .seq (.context ((setAccess_ends (c := fun _ => True) (hwriting.tick n) access metadata.isSome).mono
    (fun _ _ h => h) hfailed)) fun _ σ₂ hσ₂ => ?_
  refine .seq (.context ((copyContent_ends hσ₂ hne).mono (fun _ _ h => h) hfailed)) ?_
  rintro _ σ₃ ⟨f, hf, hσ₃⟩
  refine .context ((setAccess_ends (c := (· = f.content)) hσ₃ access false).mono (fun _ σ₄ hσ₄ => ?_) hfailed)
  have hext₄ : Extends σ₁.tree σ₄.tree := by
    intro z e' hz
    rw [hσ₄.others z, hz]
    rintro rfl
    rw [hz] at hnone
    cases hnone
  have hplace : locate sys.limit σ₄.tree path = .ok x := hσ₄.lands _ hσ₄.mem
  obtain ⟨f', hf', hcontent⟩ := hσ₄.file
  refine ⟨N ++ [.written path x], append_assoc L N _ ▸ hσ₄.toAccounts, hext.trans hext₄,
    ⟨input, x, f, f', stat_eq_ok.2 ⟨resolve_le hext₄ hresolve, hext₄ _ _ hf⟩, hplace, hf', hcontent⟩, fun i hi => ?_⟩
  rcases mem_append.1 hi with hi | hi
  · obtain ⟨hmade, habove⟩ := hplaces i hi
    refine ⟨by cases i <;> first | rfl | exact absurd rfl hmade, x, hplace, ?_⟩
    obtain ⟨q, s, d, rfl, hq, rfl⟩ := locate_name hx (by rw [hnone]; simp)
    refine (habove σ₄.tree hext₄.keeps d ?_).trans (prefix_append d [s])
    rw [dropLast_concat]
    exact directoryOf_keeps hext₄.keeps hq
  · rw [mem_singleton.1 hi]
    exact ⟨rfl, x, hplace, prefix_refl x⟩

/-! ## All copies -/

/-- While files are copied: what was there stays, and what is new belongs to a copy that is done. -/
structure Copying (limit : Nat) (dir : Path) (present : List Path) (t₀ : Files) (L : List Effect) (t : Files)
    (done : List (Path × Path)) (L' : List Effect) (σ : State) : Prop where
  accounts : Accounts limit dir present t₀ L' σ
  sub : L ⊆ L'
  extends_ : Extends t σ.tree
  copied : ∀ c ∈ done, Copied limit σ.tree c
  above : ∀ i ∈ L', i ∉ L → i.left = none ∧ ∃ c ∈ done, ∃ x, locate limit σ.tree c.2 = .ok x ∧ i.place <+: x

theorem copyAll_ends {cs : List ((Path × Path) × Option Access)} {done : List (Path × Path)} {L' : List Effect}
    (h : Copying sys.limit dir present t₀ L t done L' σ) : (cs.forM (copyOne sys)).Ends σ
      (fun _ σ' => ∃ L'', Copying sys.limit dir present t₀ L t (done ++ cs.map Prod.fst) L'' σ')
      fun σ' => ∃ L'', Accounts sys.limit dir present t₀ L'' σ' := by
  induction cs generalizing done L' σ with
  | nil =>
    refine ⟨L', ?_⟩
    rwa [map_nil, append_nil]
  | cons c cs ih =>
    obtain ⟨c, metadata⟩ := c
    refine Run.Ends.seq (copyOne_ends h.accounts c metadata) ?_
    rintro _ σ' ⟨N, hN⟩
    have hnext : Copying sys.limit dir present t₀ L t (done ++ [c]) (L' ++ N) σ' := by
      refine ⟨hN.accounts, fun i hi => mem_append_left _ (h.sub hi), h.extends_.trans hN.extends_, ?_, ?_⟩
      · intro c' hc'
        rcases mem_append.1 hc' with hc' | hc'
        · exact (h.copied c' hc').extends hN.extends_
        · rw [mem_singleton.1 hc']
          exact hN.copied
      · intro i hi hiL
        rcases mem_append.1 hi with hi | hi
        · obtain ⟨hleft, c', hc', x, hx, hpre⟩ := h.above i hi hiL
          exact ⟨hleft, c', mem_append_left _ hc', x, locate_keeps hN.extends_.keeps hx, hpre⟩
        · obtain ⟨hleft, x, hx, hpre⟩ := hN.above i hi
          exact ⟨hleft, c, mem_append_right _ (mem_singleton_self c), x, hx, hpre⟩
    have := ih hnext
    rwa [append_assoc] at this

end Pbps.Publication
