/-
What `publish` has done wherever it ends: each completed effect is on the ledger and its paths lead to it, so that it can be
taken back.
-/
import Pbps.Publication.Ledger

namespace Pbps.Publication

open FileTree
open Std (ExtTreeMap)
open List Except

variable {sys : System} {dir : Path} {present : List Path} {t₀ : Files} {L : List Effect} {σ : State}

theorem Accounts.tick (h : Accounts sys.limit dir present t₀ L σ) (n : Nat) :
    Accounts sys.limit dir present t₀ L { σ with calls := n } :=
  ⟨h.holds, h.lands, h.free, h.declared, h.directories, h.moved, h.outputs, h.ownsBackup⟩

theorem filterMap_snoc {A : Type} (log : Effect → Option A) (L : List Effect) (i : Effect) :
    (L ++ [i]).filterMap log = L.filterMap log ++ (log i).toList := by
  rw [filterMap_append]
  cases h : log i with
  | none => rw [filterMap_cons_none h]; rfl
  | some a => rw [filterMap_cons_some h]; rfl

variable {σ' : State} {α : Type}

theorem Accounts.put (h : Accounts sys.limit dir present t₀ L σ) {i : Effect} {e : Entry File} (hleft : i.left = none)
    (hnone : σ.tree[i.place]? = none) (hs : i.Shows e) (hland : i.Lands sys.limit dir (σ.tree.insert i.place e))
    (htree : σ'.tree = σ.tree.insert i.place e) (hdirectories : σ'.directories = σ.directories ++ i.madePath.toList)
    (hmoved : σ'.moved = σ.moved) (houtputs : σ'.outputs = σ.outputs ++ i.writtenPath.toList)
    (howns : σ'.ownsBackup = (σ.ownsBackup || i.isBackup)) : Accounts sys.limit dir present t₀ (L ++ [i]) σ' where
  holds := htree ▸ (h.holds.put hleft hnone hs).perm (perm_append_singleton i L).symm
  lands j hj := by
    rw [htree]
    rcases mem_append.1 hj with hj | hj
    · exact (h.lands j hj).keeps (Extends.insert e hnone).keeps
    · rw [mem_singleton.1 hj]
      exact hland
  free j hj hne := by
    rcases mem_append.1 hj with hj | hj
    · exact h.free j hj hne
    · rw [mem_singleton.1 hj] at hne
      exact absurd hleft hne
  declared p s x y e' hj := by
    rcases mem_append.1 hj with hj | hj
    · exact h.declared p s x y e' hj
    · rw [← mem_singleton.1 hj] at hleft
      cases hleft
  directories := by rw [hdirectories, h.directories, filterMap_snoc]
  moved := by
    rw [hmoved, h.moved, filterMap_snoc]
    cases i <;> first | cases hleft; done | simp [Effect.movedPaths]
  outputs := by rw [houtputs, h.outputs, filterMap_snoc]
  ownsBackup := by rw [howns, h.ownsBackup]; simp

/-! ## Directories -/

def Grown (limit : Nat) (dir : Path) (present : List Path) (t₀ : Files) (L : List Effect) (σ : State) : Prop :=
  ∃ N, Accounts limit dir present t₀ (L ++ N) σ ∧ ∀ i ∈ N, i.madePath ≠ none

def MadeFor (limit : Nat) (dir : Path) (present : List Path) (t₀ : Files) (L : List Effect) (t : Files) (path : Path)
    (σ : State) : Prop :=
  ∃ N, Accounts limit dir present t₀ (L ++ N) σ ∧ Extends t σ.tree ∧ ∀ i ∈ N, i.madePath ≠ none ∧
    ∀ t', Keeps σ.tree t' → ∀ d, directoryOf limit t' path = .ok d → i.place <+: d

section

variable (h : Accounts sys.limit dir present t₀ L σ)

include h

theorem Grown.start : Grown sys.limit dir present t₀ L σ :=
  ⟨[], by rwa [append_nil], by simp⟩

theorem MadeFor.start (path : Path) : MadeFor sys.limit dir present t₀ L σ.tree path σ :=
  ⟨[], by rwa [append_nil], .refl _, by simp⟩

variable {path : Path}

/-- A directory that is made is accounted for. -/
theorem Accounts.made {x : Location} {t : Files} {n : Nat} (hcreate : create sys.limit σ.tree path .directory = .ok (x, t)) :
    Accounts sys.limit dir present t₀ (L ++ [.made path x])
        { σ with calls := n, tree := t, directories := σ.directories ++ [path] } ∧
      Extends σ.tree t ∧ ∀ t', Keeps t t' → (∀ d, directoryOf sys.limit t' path = .ok d → d = x) ∧
        ∀ d, directoryOf sys.limit t' path.dropLast = .ok d → d <+: x := by
  obtain ⟨hx, hnone, rfl⟩ := create_eq_ok.1 hcreate
  have hext : Extends σ.tree (σ.tree.insert x .directory) := .insert _ hnone
  refine ⟨h.put rfl hnone rfl (locate_keeps hext.keeps hx) rfl rfl rfl (by simp [Effect.writtenPath])
    (by simp [Effect.isBackup]), hext, fun t' hk => ⟨fun d hd => ?_, fun d hd => ?_⟩⟩
  · have hdir : t'[x]? = some .directory := hk _ _ Entry.passed_directory ExtTreeMap.getElem?_insert_self
    exact directoryOf_of_locate (locate_keeps hk (locate_keeps hext.keeps hx)) hdir hd
  · obtain ⟨q, s, d', rfl, hq, rfl⟩ := locate_name hx (by rw [hnone]; simp)
    rw [dropLast_concat] at hd
    obtain rfl := ok.inj (hd.symm.trans (directoryOf_keeps hk (directoryOf_keeps hext.keeps hq)))
    exact prefix_append _ _

theorem createDirectory_ends {above : Run IoError Unit} (habove : ∀ σ', Accounts sys.limit dir present t₀ L σ' → above.Ends σ'
      (fun _ => MadeFor sys.limit dir present t₀ L σ'.tree path.dropLast) (Grown sys.limit dir present t₀ L)) :
    (createDirectory sys path above).Ends σ (fun _ => MadeFor sys.limit dir present t₀ L σ.tree path)
      (Grown sys.limit dir present t₀ L) := by
  unfold createDirectory
  refine .bind (.outcome ?_)
  unfold createDir
  rcases call_cases sys (fun t => (create sys.limit t path .directory).map fun r => ((), r.2)) σ with
    ⟨f, heq⟩ | ⟨_, t, hop, heq⟩ | ⟨e, hop, heq⟩
  · rw [heq]
    exact .start (h.tick _)
  · rw [heq]
    obtain ⟨⟨x, t'⟩, hcreate, hpair⟩ := map_eq_ok.1 hop
    cases hpair
    obtain ⟨hmade, hext, hkeeps⟩ := h.made (n := σ.calls + 1) hcreate
    refine ⟨[.made path x], hmade, hext, fun i hi => ?_⟩
    rw [mem_singleton.1 hi]
    refine ⟨by simp [Effect.madePath], fun t' hk d hd => ?_⟩
    rw [(hkeeps t' hk).1 d hd]
    exact prefix_refl _
  · rw [heq]
    have htick := h.tick (σ.calls + 1)
    cases e with
    | notFound =>
      refine .seq (habove _ htick) fun _ σ' hσ' => ?_
      obtain ⟨N, hN, hext, hplaces⟩ := hσ'
      refine .bind (call_ends ?_ ⟨N, hN.tick _, fun i hi => (hplaces i hi).1⟩)
      intro _ t hop
      obtain ⟨⟨x, t'⟩, hcreate, hpair⟩ := map_eq_ok.1 hop
      cases hpair
      obtain ⟨hmade, hext', hkeeps⟩ := hN.made (n := σ'.calls + 1) hcreate
      refine ⟨N ++ [.made path x], append_assoc L N _ ▸ hmade, hext.trans hext', fun i hi => ?_⟩
      rcases mem_append.1 hi with hiN | hiN
      · refine ⟨(hplaces i hiN).1, fun t'' hk d hd => ?_⟩
        obtain ⟨q, s, d', rfl, hq, _⟩ := locate_name (create_eq_ok.1 hcreate).1 (by rw [(create_eq_ok.1 hcreate).2.1]; simp)
        have hq' : directoryOf sys.limit t'' (q ++ [Step.name s]).dropLast = .ok d' := by
          rw [dropLast_concat]
          exact directoryOf_keeps (hext'.keeps.trans hk) hq
        rw [(hkeeps t'' hk).1 d hd]
        exact ((hplaces i hiN).2 t'' (hext'.keeps.trans hk) d' hq').trans ((hkeeps t'' hk).2 d' hq')
      · rw [mem_singleton.1 hiN]
        refine ⟨by simp [Effect.madePath], fun t' hk d hd => ?_⟩
        rw [(hkeeps t' hk).1 d hd]
        exact prefix_refl _
    | alreadyExists =>
      refine .bind (call_ends (fun e t hop => ?_) (.start (htick.tick _)))
      obtain ⟨r, _, hpair⟩ := map_eq_ok.1 hop
      cases hpair
      split
      · exact .start (htick.tick _) path
      · exact .start (htick.tick _)
    | _ => exact .start htick

end

theorem createDirectoriesUp_ends : ∀ (up : Path) (σ : State), Accounts sys.limit dir present t₀ L σ →
    (createDirectoriesUp sys up).Ends σ (fun _ => MadeFor sys.limit dir present t₀ L σ.tree up.reverse)
      (Grown sys.limit dir present t₀ L)
  | [], σ, h => createDirectory_ends h fun σ' h' => .start h' _
  | step :: above, σ, h => by
    rw [createDirectoriesUp]
    refine createDirectory_ends h fun σ' h' => ?_
    rw [reverse_cons, dropLast_concat]
    exact createDirectoriesUp_ends above σ' h'

theorem createDirectories_ends (h : Accounts sys.limit dir present t₀ L σ) (path : Path) :
    (createDirectories sys path).Ends σ (fun _ => MadeFor sys.limit dir present t₀ L σ.tree path)
      (Grown sys.limit dir present t₀ L) := by
  have := createDirectoriesUp_ends path.reverse σ h
  rwa [reverse_reverse] at this

/-! ## Calls that only read -/

def Ticked (σ σ' : State) : Prop := ∃ n, σ' = { σ with calls := n }

theorem Ticked.accounts (h : Ticked σ σ') (ha : Accounts sys.limit dir present t₀ L σ) :
    Accounts sys.limit dir present t₀ L σ' := by
  obtain ⟨n, rfl⟩ := h
  exact ha.tick n

theorem Ticked.trans {σ'' : State} (h : Ticked σ σ') (h' : Ticked σ' σ'') : Ticked σ σ'' := by
  obtain ⟨n, rfl⟩ := h
  obtain ⟨n', rfl⟩ := h'
  exact ⟨n', rfl⟩

theorem call_read {op : Files → Except FileTree.Error (α × Files)} (hread : ∀ a t, op σ.tree = .ok (a, t) → t = σ.tree) :
    Ticked σ (call sys op σ).2 := by
  rcases call_cases sys op σ with ⟨f, heq⟩ | ⟨a, t, hop, heq⟩ | ⟨e, hop, heq⟩ <;> rw [heq]
  · exact ⟨_, rfl⟩
  · rw [hread a t hop]
    exact ⟨_, rfl⟩
  · exact ⟨_, rfl⟩

theorem map_read {β : Type} {x : Except FileTree.Error α} {f : α → β} {t : Files} :
    ∀ b t', (x.map fun a => (f a, t)) = .ok (b, t') → t' = t := by
  intro b t' h
  obtain ⟨a, _, hpair⟩ := map_eq_ok.1 h
  cases hpair
  rfl

theorem inspectBackup_ends (backup : Path) : (inspectBackup sys backup).Ends σ (fun _ => Ticked σ) (Ticked σ) := by
  unfold inspectBackup
  refine .bind (.outcome ?_)
  have h : Ticked σ (symlinkMetadata sys backup σ).2 := call_read map_read
  split
  · exact h
  · exact h
  · exact h

theorem inspectDestination_ends (path : Path) : (inspectDestination sys path).Ends σ (fun _ => Ticked σ) (Ticked σ) := by
  unfold inspectDestination
  refine .bind (.outcome ?_)
  have h : Ticked σ (metadata sys path σ).2 := call_read map_read
  split
  · exact h
  · exact h
  · exact h

theorem inspectDestinations_ends (copies : List (Path × Path)) : (copies.mapM fun c => inspectDestination sys c.2).Ends σ
    (fun metadata σ' => metadata.length = copies.length ∧ Ticked σ σ') (Ticked σ) := by
  induction copies generalizing σ with
  | nil => exact ⟨rfl, _, rfl⟩
  | cons c copies ih =>
    rw [mapM_cons]
    refine .seq (inspectDestination_ends c.2) fun a σ' h => ?_
    refine .bind (ih.mono (fun rest σ'' h' => ?_) fun _ h' => h.trans h')
    exact ⟨congrArg (· + 1) h'.1, h.trans h'.2⟩

theorem createDirectories_present (hc : Closed σ.tree) {path : Path} {d : Location} (hd : directoryOf sys.limit σ.tree path = .ok d) :
    (createDirectories sys path).Ends σ (fun _ => Ticked σ) (Ticked σ) := by
  have hexists : create sys.limit σ.tree path .directory = .error .alreadyExists := by
    obtain ⟨x, e, hx, he⟩ := hc.locate_directory hd
    exact create_occupied hx he
  have hone : ∀ above, (createDirectory sys path above).Ends σ (fun _ => Ticked σ) (Ticked σ) := by
    intro above
    unfold createDirectory
    refine .bind (.outcome ?_)
    unfold createDir
    rcases call_cases sys (fun t => (create sys.limit t path .directory).map fun r => ((), r.2)) σ with
      ⟨f, heq⟩ | ⟨_, t, hop, heq⟩ | ⟨e, hop, heq⟩
    · rw [heq]
      exact ⟨_, rfl⟩
    · rw [hexists] at hop
      cases hop
    · rw [hexists] at hop
      cases hop
      rw [heq]
      refine .bind (call_ends (fun e t hop => ?_) ⟨_, rfl⟩)
      obtain ⟨r, _, hpair⟩ := map_eq_ok.1 hop
      cases hpair
      split
      · exact ⟨_, rfl⟩
      · exact ⟨_, rfl⟩
  have hpath := reverse_reverse path
  unfold createDirectories
  rcases hup : path.reverse with _ | ⟨step, above⟩ <;> rw [hup] at hpath
  · have := hone (pure ())
    rwa [← hpath] at this
  · have := hone (createDirectoriesUp sys above)
    rwa [← hpath] at this

end Pbps.Publication
