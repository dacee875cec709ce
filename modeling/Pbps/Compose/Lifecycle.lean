/-
Resources over whole lives: any sequence of transitions, each stopped before any of its effects.
-/
import Pbps.Compose.Valid

namespace Pbps.Compose

open Std (ExtTreeMap)
open Option Std.ExtTreeMap

/-- A snapshot directory, with what is in it. -/
structure Snapshot where
  identity : Identity
  contents : Contents

/-- What an operation owns: its record with what a stopped save left beside it, its private refs and its snapshot. -/
structure World where
  record : Option Resource
  pending : Bool
  refs : PinKind → Option String
  snapshot : Option Snapshot

/-- What an effect answers and does, where it is not what the transition is stopped at. -/
def may : (e : Effect) → World → Answer e → World → Prop
  | .check, w, _, w' => w' = w
  | .names, w, known, w' => known = !w.pending ∧ w' = w
  | .read, w, r, w' => r = w.record ∧ w' = w
  | .clock, w, _, w' => w' = w
  | .create, w, _, w' => w' = { w with pending := true }
  | .rename r, w, _, w' => w' = { w with record := some r, pending := false }
  | .refuse _, w, _, w' => w' = w
  | .createSnapshot, w, answer, w' =>
    match w.snapshot, answer with
    | none, some i => w' = { w with snapshot := some ⟨i, .empty⟩ }
    | some _, none => w' = w
    | _, _ => False
  | .openSnapshot, w, answer, w' => answer = w.snapshot.map (·.identity) ∧ w' = w
  | .write, w, _, w' =>
    ∃ contents, w' = { w with snapshot := w.snapshot.map fun s => { s with contents } }
  | .capture, w, found, w' => found = (w.snapshot.elim .empty (·.contents)) ∧ w' = w
  | .inspect name, w, file, w' => file = (w.snapshot.bind fun s => s.contents.files[name]?) ∧ w' = w
  | .manifest, w, _, w' => w' = w
  | .hash .., w, _, w' => w' = w
  | .observe k, w, seen, w' => seen = ((w.refs k).elim .absent .direct) ∧ w' = w
  | .createRef k v, w, done, w' =>
    done = decide (w.refs k = none) ∧ w' = if done then { w with refs := fun l => if l = k then some v else w.refs l } else w
  | .deleteRef k v, w, done, w' =>
    done = decide (w.refs k = some v) ∧ w' = if done then { w with refs := fun l => if l = k then none else w.refs l } else w
  | .unlink name directory, w, done, w' =>
    done = w.snapshot.any (fun s => s.contents.removable name directory) ∧
      if done then ∃ s after, w.snapshot = some s ∧ s.contents.Without name after ∧ w' = { w with snapshot := some { s with contents := after } }
      else w' = w
  | .removeSnapshot, w, done, w' =>
    done = w.snapshot.any (fun s => s.contents.files.isEmpty) ∧ w' = if done then { w with snapshot := none } else w
  | .removeRecord, w, _, w' => w' = { w with record := none }

variable {w' : World}

theorem may_createSnapshot {w : World} {made : Option Identity} (h : may .createSnapshot w made w') :
    (made = none ∧ w' = w) ∨ ∃ i, made = some i ∧ w' = { w with snapshot := some ⟨i, .empty⟩ } := by
  cases hs : w.snapshot with
  | none =>
    cases made with
    | none => simp [may, hs] at h
    | some i => exact .inr ⟨i, rfl, by simpa [may, hs] using h⟩
  | some s =>
    cases made with
    | none => exact .inl ⟨rfl, by simpa [may, hs] using h⟩
    | some i => simp [may, hs] at h

theorem may_unlink {name : String} {directory done : Bool} {w : World} (h : may (.unlink name directory) w done w') :
    w' = w ∨ ∃ s after, w.snapshot = some s ∧ s.contents.Without name after ∧
      w' = { w with snapshot := some { s with contents := after } } := by
  obtain ⟨-, hafter⟩ := h
  split_ifs at hafter
  · exact .inr hafter
  · exact .inl hafter

/-- The refs of a record's pins are there from their acknowledgment to their retirement, but for those that a retirement
has deleted and not yet acknowledged. -/
def RefsHeld (r : Resource) (refs : PinKind → Option String) : Prop :=
  ∀ k p, r.pins k = some p → p.owned → p.retired = false → refs k = some p.value ∨
    (r.state = .retiring ∧ refs k = none ∧ ¬(k = .commit ∧ r.keepCommit))

/-- What is in the snapshot directory is what the record's inventory has, as it was. -/
def Covered (r : Resource) (snapshot : Option Snapshot) : Prop :=
  ∀ inventory s, r.inventory = some inventory → snapshot = some s → inventory.Covers s.contents

/-- What a record says there is, is there; of a rejected candidate, the inventory is its caller's. -/
structure Held (r : Resource) (there : PinKind → Option String) (d : Option Snapshot) : Prop where
  refs : RefsHeld r there
  snapshot : ∀ i, r.snapshot = some i → (∃ s, d = some s ∧ s.identity = i) ∨ (r.state = .retiring ∧ d = none)
  entries : r.rejected = false → Covered r d

variable (store : Resources) (id : String)

/-- The record is one a reader of this repository accepts, and what it says there is, is there. -/
def Inv (w : World) : Prop := ∀ r, w.record = some r → Valid store id r ∧ Held r w.refs w.snapshot

/-- What a write makes of a record that is there: pins keep what they name, a spent record has no successor, and a
retirement goes on as it was begun or ends so. -/
structure Advances (old new : Resource) : Prop where
  live : old.state ≠ .spent
  pins : ∀ k p, old.pins k = some p →
    (∃ p', new.pins k = some p' ∧ p'.target = p.target ∧ p'.value = p.value) ∨ new.state = .spent
  intent : old.state = .retiring →
    (new.state = .retiring ∧ new.keepCommit = old.keepCommit ∧ new.rejected = old.rejected) ∨
      (old.rejected = false ∧ new.state = if old.keepCommit then .retained else .spent)

/-- A ref a record gives the right to delete. -/
structure Deletable (r : Resource) (k : PinKind) (v : String) : Prop where
  retiring : r.state = .retiring
  owned : ∃ p, r.pins k = some p ∧ p.owned ∧ p.retired = false ∧ p.value = v
  last : k = .commit → r.keepCommit = false ∧ ∃ p, r.pins .base = some p ∧ p.retired

/-- A write that a record's reader would not accept: a capture's whose base has no pin, or one that keeps a commit where
there is no pin of one. -/
def Unwritable (r new : Resource) : Prop :=
  (r.state = .capturing ∧ r.pins .base = none) ∨
    ((r.state = .sealed ∨ r.state = .confirmed) ∧ new.keepCommit ∧ r.pins .commit = none)

def Guarantee (w : World) : Effect → Prop
  | .rename new => ∀ r, w.record = some r → Advances r new
  | .deleteRef k v => ∃ r, w.record = some r ∧ Deletable r k v
  | .removeRecord => ∃ r, w.record = some r ∧ r.state = .retiring ∧ r.rejected
  | .refuse new => ∃ r, w.record = some r ∧ Unwritable r new
  | _ => True

def Allowed (w : World) (e : Effect) (w' : World) : Prop := Inv store id w' ∧ Guarantee w e

/-! ## What each step keeps -/

variable {new : Resource} {post : Unit → World → Prop} {α : Type} {k : PinKind} {p : Pin}

theorem Held.change {r : Resource} {refs refs' : PinKind → Option String} {d : Option Snapshot} (h : Held r refs d)
    (hrefs : RefsHeld new refs') (hsnapshot : new.snapshot = r.snapshot) (hinventory : new.inventory = r.inventory)
    (hrejected : new.rejected = r.rejected) (hstate : r.state = .retiring → r.snapshot = none ∨ new.state = .retiring) :
    Held new refs' d := by
  refine ⟨hrefs, fun i hi => ?_, fun hr inventory s hinv hs => ?_⟩
  · rw [hsnapshot] at hi
    rcases h.snapshot i hi with hs | ⟨hretiring, hs⟩
    · exact .inl hs
    · rcases hstate hretiring with hnone | hnew
      · rw [hnone] at hi
        cases hi
      · exact .inr ⟨hnew, hs⟩
  · exact h.entries (hrejected ▸ hr) inventory s (hinventory ▸ hinv) hs

variable {store id} {fails : World → Prop} {w : World}

/-- A step of the lifecycle, by what it keeps whatever it is answered. -/
abbrev Steps (store : Resources) (id : String) (fails : World → Prop) {α : Type} (p : Transition α)
    (post : α → World → Prop) (w : World) : Prop := Prog.Wp may (Allowed store id) fails p post w

theorem steps_check (hinv : Inv store id w) (hpost : post () w) : Steps store id fails check post w := by
  rintro ⟨⟩ w' rfl
  exact ⟨⟨hinv, trivial⟩, hpost⟩

theorem steps_then {e : Effect} {f : Answer e → Transition α} {post : α → World → Prop}
    (h : ∀ b w', may e w b w' → Allowed store id w e w' ∧ Steps store id fails (f b) post w') :
    Steps store id fails (perform e >>= f) post w := h

section

variable (hinv : Inv store id w)

include hinv

theorem steps_check_then {f : Unit → Transition α} {post : α → World → Prop} (h : Steps store id fails (f ()) post w) :
    Steps store id fails (check >>= f) post w := by
  refine steps_then ?_
  rintro ⟨⟩ w rfl
  exact ⟨⟨hinv, trivial⟩, h⟩

theorem steps_locked {p : Transition α} {post : α → World → Prop}
    (h : Steps store id fails p (fun a w => Inv store id w ∧ post a w) w) :
    Steps store id fails (Resources.locked p) post w := by
  refine steps_check_then hinv (Prog.Wp.bind (h.mono fun a w' ha => ?_))
  exact steps_check_then ha.1 ha.2

theorem steps_load {post : Resource → World → Prop} (hfails : w.pending = true ∨ w.record = none → fails w)
    (hpost : ∀ r, w.record = some r → w.pending = false → post r w) : Steps store id fails (store.load id) post w := by
  refine Prog.Wp.bind (Prog.Wp.bind (steps_check hinv ?_))
  rintro known w ⟨rfl, rfl⟩
  refine ⟨⟨hinv, trivial⟩, ?_⟩
  show Steps store id fails (if !(!w.pending) then .fail else _) _ w
  cases hpending : w.pending with
  | true => exact hfails (.inl hpending)
  | false =>
    rw [if_neg (by decide)]
    cases hrecord : w.record with
    | none =>
      split_ifs
      · exact hfails (.inr hrecord)
      · rintro r w ⟨rfl, rfl⟩
        rw [hrecord]
        exact ⟨⟨hinv, trivial⟩, hfails (.inr hrecord)⟩
    | some r =>
      obtain ⟨hvalid, hrefs⟩ := hinv r hrecord
      rw [if_neg (by simp [hvalid.identity])]
      rintro r' w ⟨rfl, rfl⟩
      rw [hrecord]
      refine ⟨⟨hinv, trivial⟩, ?_⟩
      show Steps store id fails (if r.validate store.repository id then .ret r else .fail) _ w
      rw [if_pos hvalid.validate]
      show Steps store id fails (if r.repository.sourceScope store.repository = some true then .ret r else .fail) _ w
      rw [if_pos (by rw [hvalid.here]; exact store.sourceScope_self)]
      exact hpost r hrecord hpending

theorem steps_save (hvalid : Valid store id new) (hheld : Held new w.refs w.snapshot)
    (hadvances : ∀ r, w.record = some r → Advances r new)
    (hpost : ∀ w', Inv store id w' → w'.record = some new → w'.pending = false → w'.refs = w.refs → post () w') :
    Steps store id fails (store.save new) post w := by
  refine steps_check_then hinv ?_
  rw [if_neg (by rw [hvalid.operation, hvalid.validate]; decide),
    if_neg (by rw [hvalid.here, store.sourceScope_self]; decide)]
  have hbeside : Inv store id { w with pending := true } := hinv
  have hafter : Inv store id { w with record := some new, pending := false } := by
    rintro r ⟨⟩
    exact ⟨hvalid, hheld⟩
  refine steps_check_then hinv (steps_then ?_)
  rintro ⟨⟩ _ rfl
  refine ⟨⟨hbeside, trivial⟩, steps_check_then hbeside (steps_then ?_)⟩
  rintro ⟨⟩ _ rfl
  exact ⟨⟨hafter, hadvances⟩, steps_check hafter (hpost _ hafter rfl rfl rfl)⟩

theorem steps_save_or_refuse (hoperation : new.operation = id) (hfails : ∀ w, fails w)
    (hrefuse : ¬Valid store id new → ∃ r, w.record = some r ∧ Unwritable r new) (hhere : new.repository = store.repository)
    (hheld : Held new w.refs w.snapshot) (hadvances : ∀ r, w.record = some r → Advances r new)
    (hpost : ∀ w', Inv store id w' → w'.record = some new → w'.pending = false → w'.refs = w.refs → Valid store id new →
      post () w') : Steps store id fails (store.save new) post w := by
  by_cases hvalid : Valid store id new
  · exact steps_save hinv hvalid hheld hadvances fun w' h₁ h₂ h₃ h₄ => hpost w' h₁ h₂ h₃ h₄ hvalid
  · refine steps_check_then hinv ?_
    have hbad : new.validate store.repository new.operation = false := by
      rw [hoperation, ← Bool.not_eq_true]
      exact fun h => hvalid ((valid_iff store id).2 ⟨h, hhere⟩)
    rw [if_pos (by rw [hbad]; rfl)]
    refine steps_then ?_
    rintro ⟨⟩ w rfl
    exact ⟨⟨hinv, hrefuse hvalid⟩, hfails _⟩

theorem steps_verifyPin {r : Resource}
    (hfails : (∃ p, r.pins k = some p ∧ p.retired = false ∧ ¬(p.owned ∧ w.refs k = some p.value)) → fails w)
    (hpost : (∀ p, r.pins k = some p → p.retired = false → p.owned = true ∧ w.refs k = some p.value) → post () w) :
    Steps store id fails (Resources.verifyPin r k) post w := by
  unfold Resources.verifyPin
  split
  · rename_i hnone
    exact hpost fun p hp => by rw [hnone] at hp; cases hp
  · rename_i p hp
    split_ifs with hretired howned
    · refine hpost fun q hq hlive => ?_
      rw [hp] at hq
      cases hq
      rw [hretired] at hlive
      cases hlive
    · exact hfails ⟨p, hp, by simpa using hretired, fun h => by simp [h.1] at howned⟩
    · refine steps_then ?_
      rintro seen w ⟨rfl, rfl⟩
      refine ⟨⟨hinv, trivial⟩, ?_⟩
      split_ifs with hseen
      · refine hfails ⟨p, hp, by simpa using hretired, fun h => hseen ?_⟩
        rw [h.2]
        rfl
      · refine steps_check hinv (hpost fun q hq _ => ?_)
        rw [hp] at hq
        cases hq
        refine ⟨by simpa using howned, ?_⟩
        cases href : w.refs k with
        | none =>
          rw [href] at hseen
          simp at hseen
        | some v =>
          rw [href] at hseen
          simp only [ne_eq, Decidable.not_not] at hseen
          cases hseen
          rfl

end

/-- The pins of a record that are acknowledged, with their refs there. -/
def PinsHeld (r : Resource) (w : World) : Prop :=
  ∀ k p, r.pins k = some p → p.retired = false → p.owned = true ∧ w.refs k = some p.value

theorem steps_verifyPins {r : Resource} (hinv : Inv store id w) (hfails : ¬PinsHeld r w → fails w)
    (hpost : PinsHeld r w → post () w) : Steps store id fails (Resources.verifyPins r) post w := by
  have hnot : ∀ k, (∃ p, r.pins k = some p ∧ p.retired = false ∧ ¬(p.owned ∧ w.refs k = some p.value)) → fails w := by
    rintro k ⟨p, hp, hlive, hbad⟩
    exact hfails fun h => hbad (h k p hp hlive)
  refine Prog.Wp.bind (steps_verifyPin hinv (hnot .base) fun hbase => ?_)
  refine steps_verifyPin hinv (hnot .commit) fun hcommit => hpost fun k => ?_
  cases k with
  | base => exact hbase
  | commit => exact hcommit

/-! ## Retirement -/

/-- A retirement under way, with nothing left beside its record. -/
structure Retiring (store : Resources) (id : String) (keep rejected : Bool) (r : Resource) (w : World) : Prop where
  inv : Inv store id w
  record : w.record = some r
  pending : w.pending = false
  state : r.state = .retiring
  keepCommit : r.keepCommit = keep
  rejected : r.rejected = rejected

variable {keep rejected : Bool} {r : Resource}

section

variable (h : Retiring store id keep rejected r w)

include h

theorem Retiring.valid : Valid store id r := (h.inv r h.record).1

theorem Retiring.base : ∃ b, r.pins .base = some b ∧ b.owned = true := by
  have := h.valid.shape
  simp only [Resource.shape, h.state, Bool.and_eq_true] at this
  obtain ⟨⟨⟨⟨⟨-, hbase⟩, -⟩, -⟩, -⟩, -⟩ := this
  exact (any_eq_true _ _).1 hbase

theorem Retiring.advances (hstate : new.state = .retiring) (hkeep : new.keepCommit = r.keepCommit)
    (hrejected : new.rejected = r.rejected)
    (hpins : ∀ k p, r.pins k = some p → ∃ p', new.pins k = some p' ∧ p'.target = p.target ∧ p'.value = p.value) :
    ∀ old, w.record = some old → Advances old new := by
  intro old hold
  rw [h.record] at hold
  cases hold
  refine ⟨by simp [h.state], fun k p hp => .inl (hpins k p hp), fun _ => .inl ⟨hstate, hkeep, hrejected⟩⟩

theorem Retiring.withSnapshot {d : Option Snapshot} (hless : ∀ s', d = some s' → ∃ s name, w.snapshot = some s ∧
      s'.identity = s.identity ∧ s.contents.Without name s'.contents) :
    Retiring store id keep rejected r { w with snapshot := d } := by
  refine ⟨fun r' hr' => ?_, h.record, h.pending, h.state, h.keepCommit, h.rejected⟩
  obtain rfl : r = r' := by simpa [h.record] using hr'
  obtain ⟨hvalid, hheld⟩ := h.inv r h.record
  refine ⟨hvalid, hheld.refs, fun i hi => ?_, fun hr inventory s' hinventory hs' => ?_⟩
  · cases hsnapshot : d with
    | none => exact .inr ⟨h.state, rfl⟩
    | some s' =>
      obtain ⟨s, name, hs, hsame, -⟩ := hless s' hsnapshot
      rcases hheld.snapshot i hi with ⟨t, ht, hidentity⟩ | ⟨-, hnone⟩
      · rw [hs] at ht
        cases ht
        exact .inl ⟨s', rfl, hsame.trans hidentity⟩
      · rw [hs] at hnone
        cases hnone
  · obtain ⟨s, name, hs, -, hwithout⟩ := hless s' hs'
    have hlisted := Contents.listed_deepestFirst.2 (hheld.entries hr inventory s hinventory hs)
    exact Contents.listed_deepestFirst.1 (hlisted.without hwithout)

variable {s : Snapshot} {name : String} {expected : Entry} {inventory : Inventory} {entries : List (String × Entry)}

theorem steps_removeEntry (hs : w.snapshot = some s) (hfound : (∀ file, s.contents.files[name]? = some file →
      expected.isOf file = true ∧ s.contents.removable name expected.directory = true) ∨ ∀ w, fails w)
    (hpost : ∀ w' s', Retiring store id keep rejected r w' → w'.snapshot = some s' → name ∉ s'.contents.files →
      (∀ entries, s.contents.Listed entries → s'.contents.Listed entries) → post () w') :
    Steps store id fails (Resources.removeEntry name expected) post w := by
  refine steps_then ?_
  rintro _ w ⟨rfl, rfl⟩
  refine ⟨⟨h.inv, trivial⟩, ?_⟩
  rw [hs, bind_some]
  cases hfile : s.contents.files[name]? with
  | none =>
    have hgone : name ∉ s.contents.files := fun hmem => by
      obtain ⟨file, hsome⟩ := mem_iff_exists.1 hmem
      rw [hfile] at hsome
      cases hsome
    exact steps_check h.inv (hpost w s h hs hgone fun _ hlisted => hlisted)
  | some file =>
    show Steps store id fails (if !expected.isOf file then .fail else _) _ w
    split_ifs with hchanged
    · rcases hfound with hfound | hfails
      · rw [(hfound file hfile).1] at hchanged
        cases hchanged
      · exact hfails w
    refine steps_then ?_
    rintro done w' ⟨hdone, hafter⟩
    cases done with
    | false =>
      rw [if_neg Bool.false_ne_true] at hafter
      subst hafter
      refine ⟨⟨h.inv, trivial⟩, ?_⟩
      rcases hfound with hfound | hfails
      · rw [hs, any_some, (hfound file hfile).2] at hdone
        cases hdone
      · exact hfails _
    | true =>
      rw [if_pos rfl] at hafter
      obtain ⟨t, after, ht, hwithout, rfl⟩ := hafter
      rw [hs] at ht
      cases ht
      have h' := h.withSnapshot (d := some { s with contents := after }) (by
        rintro s' ⟨⟩
        exact ⟨s, name, hs, rfl, hwithout⟩)
      exact ⟨⟨h'.inv, trivial⟩, steps_check h'.inv (hpost _ _ h' rfl hwithout.gone fun _ hlisted => hlisted.without hwithout)⟩

/-- An entry that is listed is removed, where all there is, is: what is not there any more was below what is not there either. -/
theorem steps_retireEntry (hs : w.snapshot = some s)
    (hsub : ∀ e ∈ (name, expected) :: entries, inventory.entries[e.1]? = some e.2)
    (hsorted : ((name, expected) :: entries).Pairwise fun a b => depth b.1 ≤ depth a.1)
    (hlisted : s.contents.Listed ((name, expected) :: entries) ∨ ∀ w, fails w)
    (hpost : ∀ w' s', Retiring store id keep rejected r w' → w'.snapshot = some s' →
      (s'.contents.Listed entries ∨ ∀ w, fails w) → post () w') :
    Steps store id fails (Resources.retireEntry inventory name expected) post w := by
  have hmem : inventory.entries[name]? = some expected := hsub _ List.mem_cons_self
  obtain ⟨hrelative, hparent⟩ := inventory.nested name expected hmem
  have hremove : Steps store id fails (Resources.removeEntry name expected) post w := by
    refine steps_removeEntry h hs (hlisted.imp_left fun hlisted file hfile => ?_) fun w' s' h' hs' hgone hless => ?_
    · obtain ⟨e, he, hisOf⟩ := hlisted.covered hsub name file hfile
      rw [hmem] at he
      cases he
      exact ⟨hisOf, hlisted.removable hsorted hfile hisOf⟩
    · exact hpost w' s' h' hs' (hlisted.imp_left fun hlisted => (hless _ hlisted).of_cons hgone)
  unfold Resources.retireEntry
  rw [if_neg (by rw [hrelative]; decide)]
  refine steps_check_then h.inv ?_
  split_ifs with hroot
  · exact hremove
  obtain ⟨parent, hparent, hdirectory⟩ := hparent.resolve_left hroot
  refine steps_then ?_
  rintro _ w ⟨rfl, rfl⟩
  refine ⟨⟨h.inv, trivial⟩, ?_⟩
  rw [hs, bind_some]
  cases hfile : s.contents.files[parentName name]? with
  | none =>
    refine hpost w s h hs (hlisted.imp_left fun hlisted => hlisted.of_cons fun hthere => ?_)
    obtain ⟨file, hfile'⟩ := mem_iff_exists.1 hthere
    obtain ⟨-, hparents⟩ := s.contents.nested name file.entry (by rw [getElem?_map, hfile']; rfl)
    obtain ⟨e, he, -⟩ := hparents.resolve_left hroot
    rw [getElem?_map, hfile] at he
    cases he
  | some file =>
    rw [hparent]
    dsimp only
    rw [hdirectory, Bool.not_true, Bool.false_or]
    split_ifs with hchanged
    · rcases hlisted with hlisted | hfails
      · obtain ⟨e, he, hisOf⟩ := hlisted.covered hsub (parentName name) file hfile
        rw [hparent] at he
        cases he
        rw [hisOf] at hchanged
        cases hchanged
      · exact hfails w
    · exact hremove

theorem steps_retireEntries (hs : w.snapshot = some s) (hsub : ∀ e ∈ entries, inventory.entries[e.1]? = some e.2)
    (hsorted : entries.Pairwise fun a b => depth b.1 ≤ depth a.1) (hlisted : s.contents.Listed entries ∨ ∀ w, fails w)
    (hpost : ∀ w' s', Retiring store id keep rejected r w' → w'.snapshot = some s' →
      s'.contents.files.isEmpty = true ∨ (∀ w, fails w) → post () w') :
    Steps store id fails (Resources.retireEntries inventory entries) post w := by
  induction entries generalizing w s with
  | nil =>
    refine hpost w s h hs (hlisted.imp_left fun hlisted => isEmpty_of_forall fun name => ?_)
    cases hfile : s.contents.files[name]? with
    | none => rfl
    | some file =>
      obtain ⟨e, he, -⟩ := hlisted name file hfile
      cases he
  | cons e entries ih =>
    obtain ⟨name, expected⟩ := e
    refine Prog.Wp.bind (steps_retireEntry h hs hsub hsorted hlisted fun w' s' h' hs' hlisted' => ?_)
    exact ih h' hs' (fun e he => hsub e (List.mem_cons_of_mem _ he)) hsorted.of_cons hlisted'

theorem steps_retireInventory (hinventory : r.inventory = some inventory) (hlive : r.snapshotRetired = false)
    (hcovered : Covered r w.snapshot ∨ ∀ w, fails w) (hpost : ∀ w', Retiring store id keep rejected r w' → post () w') :
    Steps store id fails (Resources.retireInventory inventory) post w := by
  refine steps_then ?_
  rintro _ w ⟨rfl, rfl⟩
  refine ⟨⟨h.inv, trivial⟩, ?_⟩
  cases hs : w.snapshot with
  | none => exact steps_check h.inv (hpost w h)
  | some s =>
    have hroot : s.identity = inventory.root := by
      have hshape := h.valid.shape
      have hsealed : r.snapshot = some inventory.root := by
        cases hsnapshot : r.snapshot <;> simp_all [Resource.shape, Resource.isSealed, h.state]
      rcases (h.inv r h.record).2.snapshot _ hsealed with ⟨t, ht, hidentity⟩ | ⟨-, hnone⟩
      · rw [hs] at ht
        cases ht
        exact hidentity
      · rw [hs] at hnone
        cases hnone
    show Steps store id fails (if s.identity ≠ inventory.root then .fail else _) _ w
    rw [if_neg (not_not_intro hroot)]
    refine Prog.Wp.bind (steps_retireEntries h hs (fun e => inventory.mem_deepestFirst.1) inventory.pairwise_deepestFirst ?_
      fun w₁ s₁ h₁ hs₁ hempty => ?_)
    · exact hcovered.imp_left fun hall => Contents.listed_deepestFirst.2 (hall inventory s hinventory hs)
    refine steps_check_then h₁.inv (steps_then ?_)
    rintro done w₂ ⟨hdone, rfl⟩
    cases done with
    | false =>
      refine ⟨⟨h₁.inv, trivial⟩, ?_⟩
      rcases hempty with hempty | hfails
      · rw [hs₁, any_some, hempty] at hdone
        cases hdone
      · exact hfails _
    | true =>
      have h₂ := h₁.withSnapshot (d := none) (by intros; contradiction)
      exact ⟨⟨h₂.inv, trivial⟩, steps_check h₂.inv (hpost _ h₂)⟩

theorem steps_retireSnapshot {post : Resource → World → Prop} (hcovered : Covered r w.snapshot ∨ ∀ w, fails w)
    (hpost : ∀ r' w', Retiring store id keep rejected r' w' → r'.snapshotRetired = true → post r' w') :
    Steps store id fails (store.retireSnapshot r) post w := by
  unfold Resources.retireSnapshot
  split_ifs with hretired
  · exact hpost r w h hretired
  split
  · rename_i hnone
    -- A retirement that has its snapshot has its inventory.
    have := h.valid.shape
    simp [Resource.shape, h.state, Resource.isSealed, hnone, hretired] at this
  · rename_i inventory hinventory
    refine Prog.Wp.bind (steps_retireInventory h hinventory (by simpa using hretired) hcovered fun w₁ h₁ => Prog.Wp.bind ?_)
    refine steps_save h₁.inv (h₁.valid.withoutSnapshot h₁.state) ⟨(h₁.inv r h₁.record).2.refs, fun _ h => (by cases h), fun _ _ _ h => (by cases h)⟩
      (h₁.advances h₁.state rfl rfl fun k p hp => ⟨p, hp, rfl, rfl⟩) fun w' hinv' hrecord hpending _ => ?_
    exact hpost _ w' ⟨hinv', hrecord, hpending, h.state, h.keepCommit, h.rejected⟩ rfl

theorem Retiring.refs (hp : r.pins k = some p) (howned : p.owned = true) (hlive : p.retired = false) :
    w.refs k = some p.value ∨ (w.refs k = none ∧ ¬(k = .commit ∧ keep = true)) := by
  rcases (h.inv r h.record).2.refs k p hp howned hlive with href | ⟨-, href, hkept⟩
  · exact .inl href
  · rw [h.keepCommit] at hkept
    exact .inr ⟨href, hkept⟩

theorem Retiring.owned (hp : r.pins k = some p) : p.owned = true := by
  have := h.valid.shape
  simp only [Resource.shape, h.state, Bool.and_eq_true] at this
  obtain ⟨⟨⟨⟨⟨-, hbase⟩, hcommit⟩, -⟩, -⟩, -⟩ := this
  cases k with
  | base =>
    rw [hp] at hbase
    exact hbase
  | commit =>
    rw [hp] at hcommit
    exact hcommit

theorem steps_retired {post : Resource → World → Prop} (hsnapshot : r.snapshotRetired = true) (hp : r.pins k = some p)
    (hlast : k = .commit → keep = false ∧ ∃ b, r.pins .base = some b ∧ b.retired = true)
    (hpost : ∀ r' w', Retiring store id keep rejected r' w' → r'.snapshotRetired = true →
      (∀ l, l ≠ k → r'.pins l = r.pins l) → (∀ q, r'.pins k = some q → q.retired = true) → post r' w') :
    Steps store id fails (do
      check
      let r := r.setPin k { p with retired := true }
      store.save r
      return r) post w := by
  have hset : ∀ l, (r.setPin k { p with retired := true }).pins l = if l = k then some { p with retired := true } else r.pins l :=
    fun _ => rfl
  have hvalid := h.valid.retirePin h.state hsnapshot hp (h.owned hp) (by rw [h.keepCommit]; exact hlast)
  have hrefs : RefsHeld (r.setPin k { p with retired := true }) w.refs := by
    intro l q hq howned hlive
    rw [hset] at hq
    split_ifs at hq with hl
    · cases hq
      cases hlive
    · exact (h.inv r h.record).2.refs l q hq howned hlive
  have hheld : Held (r.setPin k { p with retired := true }) w.refs w.snapshot :=
    (h.inv r h.record).2.change hrefs rfl rfl rfl fun _ => .inr h.state
  refine steps_check_then h.inv (Prog.Wp.bind ?_)
  refine steps_save h.inv hvalid hheld (h.advances h.state rfl rfl fun l q hq => ?_) fun w' hinv hrecord hpending _ => ?_
  · rw [hset]
    split_ifs with hl
    · rw [hl, hp] at hq
      cases hq
      exact ⟨_, rfl, rfl, rfl⟩
    · exact ⟨q, hq, rfl, rfl⟩
  · refine hpost _ w' ⟨hinv, hrecord, hpending, h.state, h.keepCommit, h.rejected⟩ hsnapshot (fun l hl => ?_) fun q hq => ?_
    · rw [hset, if_neg hl]
    · rw [hset, if_pos rfl] at hq
      cases hq
      rfl

theorem steps_retirePin {post : Resource → World → Prop} (hsnapshot : r.snapshotRetired = true)
    (hlast : k = .commit → ∃ b, r.pins .base = some b ∧ b.retired = true)
    (hpost : ∀ r' w', Retiring store id keep rejected r' w' → r'.snapshotRetired = true →
      (∀ l, l ≠ k → r'.pins l = r.pins l) → (∀ q, r'.pins k = some q → q.retired = true ∨ (k = .commit ∧ keep = true)) →
      post r' w') : Steps store id fails (store.retirePin r k keep) post w := by
  unfold Resources.retirePin
  split
  · rename_i hnone
    exact hpost r w h hsnapshot (fun _ _ => rfl) fun q hq => by rw [hnone] at hq; cases hq
  rename_i p hp
  split_ifs with hdone howned
  · refine hpost r w h hsnapshot (fun _ _ => rfl) fun q hq => ?_
    rw [hp] at hq
    cases hq
    simpa using hdone
  · rw [h.owned hp] at howned
    cases howned
  have hlive : p.retired = false := by
    by_contra hr
    simp [hr] at hdone
  have hlast' : k = .commit → keep = false ∧ ∃ b, r.pins .base = some b ∧ b.retired = true := by
    intro hk
    refine ⟨?_, hlast hk⟩
    by_contra hkeep
    simp [hk, hkeep] at hdone
  have hafter := fun r' w' (h' : Retiring store id keep rejected r' w') h₁ h₂ (h₃ : ∀ q, r'.pins k = some q → q.retired = true) =>
    hpost r' w' h' h₁ h₂ fun q hq => .inl (h₃ q hq)
  refine steps_check_then h.inv (steps_then ?_)
  rintro seen w ⟨rfl, rfl⟩
  refine ⟨⟨h.inv, trivial⟩, ?_⟩
  rcases h.refs hp (h.owned hp) hlive with href | ⟨href, -⟩
  · rw [href]
    dsimp only [elim_some]
    rw [if_pos rfl]
    refine steps_then ?_
    rintro done _ ⟨hdone, rfl⟩
    rw [href, decide_eq_true rfl] at hdone
    subst hdone
    have hinv : Inv store id { w with refs := fun l => if l = k then none else w.refs l } := by
      rintro r' hr'
      obtain rfl : r = r' := by simpa [h.record] using hr'
      refine ⟨h.valid, (h.inv r h.record).2.change (fun l q hq ho hl => ?_) rfl rfl rfl fun _ => .inr h.state⟩
      dsimp only
      split_ifs with hlk
      · refine .inr ⟨h.state, rfl, fun hkept => ?_⟩
        rw [h.keepCommit, (hlast' (hlk ▸ hkept.1)).1] at hkept
        cases hkept.2
      · exact (h.inv r h.record).2.refs l q hq ho hl
    have hdeletable : Deletable r k p.value :=
      ⟨h.state, ⟨p, hp, h.owned hp, hlive, rfl⟩, by rw [h.keepCommit]; exact hlast'⟩
    refine ⟨⟨hinv, r, h.record, hdeletable⟩, ?_⟩
    exact steps_retired ⟨hinv, h.record, h.pending, h.state, h.keepCommit, h.rejected⟩ hsnapshot hp hlast' hafter
  · rw [href]
    exact steps_check_then h.inv (steps_retired h hsnapshot hp hlast' hafter)

end

def Finished (keep rejected : Bool) (w : World) : Prop :=
  if rejected then w.record = none
  else ∃ r, w.record = some r ∧ r.state = if keep then .retained else .spent

section

variable (h : Retiring store id keep rejected r w)
include h

theorem steps_finishRetirement (hsnapshot : r.snapshotRetired = true) (hbase : ∃ b, r.pins .base = some b ∧ b.retired = true)
    (hpost : ∀ w', Inv store id w' → w'.pending = false → Finished keep rejected w' → post () w') :
    Steps store id fails (store.finishRetirement r keep) post w := by
  unfold Resources.finishRetirement
  cases hrej : rejected with
  | true =>
    rw [if_pos (h.rejected.trans hrej)]
    rintro ⟨⟩ _ rfl
    have hinv : Inv store id { w with record := none } := by intro _ h; cases h
    refine ⟨⟨hinv, r, h.record, h.state, h.rejected.trans hrej⟩, hpost _ hinv h.pending ?_⟩
    rw [hrej]
    exact rfl
  | false =>
    rw [if_neg (by rw [h.rejected, hrej]; decide)]
    have hadvances : ∀ {new : Resource}, new.state = (if keep then .retained else .spent) →
        (∀ k p, r.pins k = some p →
          (∃ p', new.pins k = some p' ∧ p'.target = p.target ∧ p'.value = p.value) ∨ new.state = .spent) →
        ∀ old, w.record = some old → Advances old new := by
      intro new hnew hpins old hold
      rw [h.record] at hold
      cases hold
      exact ⟨by simp [h.state], hpins, fun _ => .inr ⟨h.rejected.trans hrej, by rw [h.keepCommit]; exact hnew⟩⟩
    cases hkeep : keep with
    | true =>
      rw [if_pos rfl]
      have hvalid := h.valid.retained h.state hsnapshot (h.keepCommit.trans hkeep) hbase
      have hgone : r.snapshot = none := by
        have := h.valid.shape
        simp_all [Resource.shape, h.state]
      refine steps_save h.inv hvalid ((h.inv r h.record).2.change ?_ rfl rfl rfl fun _ => .inl hgone)
        (hadvances (by rw [hkeep]; rfl) fun k p hp => .inl ⟨p, hp, rfl, rfl⟩)
        fun w' hinv hrecord hpending _ => hpost w' hinv hpending ?_
      · intro k p hp howned hlive
        rcases h.refs hp howned hlive with href | ⟨-, hkept⟩
        · exact .inl href
        · -- Only the base's ref can be deleted here, and its pin is retired.
          cases k with
          | base =>
            obtain ⟨b, hb, hretired⟩ := hbase
            rw [show r.pins .base = some p from hp] at hb
            cases hb
            rw [hlive] at hretired
            cases hretired
          | commit => exact absurd ⟨rfl, hkeep⟩ hkept
      · rw [hrej, hkeep]
        exact ⟨_, hrecord, rfl⟩
    | false =>
      rw [if_neg (by decide)]
      have hvalid := h.valid.spent hsnapshot (h.keepCommit.trans hkeep) (h.rejected.trans hrej)
      refine steps_save h.inv hvalid ⟨fun _ _ h => (by cases h), fun _ h => (by cases h), fun _ _ _ h => (by cases h)⟩ (hadvances (by rw [hkeep]; rfl) fun k p hp => .inr rfl)
        fun w' hinv hrecord hpending _ => hpost w' hinv hpending ?_
      rw [hrej, hkeep]
      exact ⟨_, hrecord, rfl⟩

theorem steps_retirement (hcovered : Covered r w.snapshot ∨ ∀ w, fails w)
    (hpost : ∀ w', Inv store id w' → w'.pending = false → Finished keep rejected w' → post () w') :
    Steps store id fails (do
      let r ← store.retireSnapshot r
      let r ← store.retirePin r .base keep
      let r ← store.retirePin r .commit keep
      store.finishRetirement r keep) post w := by
  refine Prog.Wp.bind (steps_retireSnapshot h hcovered fun r₁ w₁ h₁ hs₁ => ?_)
  refine Prog.Wp.bind (steps_retirePin h₁ hs₁ nofun fun r₂ w₂ h₂ hs₂ _ hbase => ?_)
  have hretired : ∃ b, r₂.pins .base = some b ∧ b.retired = true := by
    obtain ⟨b, hb, -⟩ := h₂.base
    rcases hbase b hb with hr | ⟨hk, -⟩
    · exact ⟨b, hb, hr⟩
    · cases hk
  refine Prog.Wp.bind (steps_retirePin h₂ hs₂ (fun _ => hretired) fun r₃ w₃ h₃ hs₃ hsame _ => ?_)
  refine steps_finishRetirement h₃ hs₃ ?_ hpost
  rw [hsame .base (by decide)]
  exact hretired

theorem steps_retireLocked_retiring (hcovered : Covered r w.snapshot)
    (hpost : ∀ w', Inv store id w' → w'.pending = false → Finished keep rejected w' → post () w') :
    Steps store id fails (store.retireLocked id keep) post w := by
  refine Prog.Wp.bind (steps_load h.inv ?_ fun r' hrecord _ => ?_)
  · rw [h.pending, h.record]
    simp
  rw [h.record] at hrecord
  cases hrecord
  rw [if_neg (by simp [h.state])]
  refine Prog.Wp.bind ?_
  unfold Resources.enterRetiring
  rw [if_neg (by simp [h.state]), if_neg (by simp [h.keepCommit])]
  exact steps_retirement h (.inl hcovered) hpost

end

theorem steps_retireLocked (hinv : Inv store id w) (hfails : ∀ w, fails w) (keep : Bool)
    (hpost : ∀ w', Inv store id w' → post () w') : Steps store id fails (store.retireLocked id keep) post w := by
  refine Prog.Wp.bind (steps_load hinv (fun _ => hfails w) fun r hrecord hpending => ?_)
  split_ifs with hdone
  · exact hpost w hinv
  have hvalid := (hinv r hrecord).1
  refine Prog.Wp.bind ?_
  unfold Resources.enterRetiring
  split_ifs with hstate hother hkeep
  · exact hfails w
  · refine Prog.Wp.bind (steps_verifyPins hinv (fun _ => hfails w) fun hpins => Prog.Wp.bind ?_)
    have hstates : r.state = .sealed ∨ r.state = .confirmed ∨ r.state = .retained := by
      simpa [or_iff_not_imp_left] using hother
    have howned : ∀ k p, r.pins k = some p → p.retired = false → p.owned = true := fun k p hp hl => (hpins k p hp hl).1
    have hrejected := hvalid.not_rejected hstate
    refine steps_save_or_refuse hinv hvalid.operation hfails (fun hbad => ?_) hvalid.here ?_ ?_
      fun w' hinv' hrecord' hpending' _ _ => ?_
    · rw [hvalid.retiring_iff hstates howned keep, Classical.not_imp] at hbad
      refine ⟨r, hrecord, .inr ⟨?_, hbad.1, by simpa using hbad.2⟩⟩
      rcases hstates with hs | hs | hs
      · exact .inl hs
      · exact .inr hs
      · simp [hs, hbad.1] at hdone
    · refine (hinv r hrecord).2.change (fun k p hp _ hlive => .inl (hpins k p hp hlive).2) rfl rfl rfl ?_
      exact fun h => absurd h hstate
    · intro old hold
      rw [hrecord] at hold
      cases hold
      refine ⟨?_, fun k p hp => .inl ⟨p, hp, rfl, rfl⟩, fun h => absurd h hstate⟩
      intro hspent
      simp [hspent] at hdone
    · exact steps_retirement ⟨hinv', hrecord', hpending', rfl, rfl, hrejected⟩ (.inr hfails) fun w'' hinv'' _ _ => hpost w'' hinv''
  · exact hfails w
  · have hretiring : r.state = .retiring := by simpa using hstate
    exact steps_retirement ⟨hinv, hrecord, hpending, hretiring, by simpa using hkeep, rfl⟩ (.inr hfails)
      fun w' hinv' _ _ => hpost w' hinv'

/-! ## The transitions -/

section

variable (hinv : Inv store id w) (hfails : ∀ w, fails w)
include hinv hfails

theorem steps_pin {target : String} (hrecord : w.record = some r) (hnone : r.pins k = none) (hlive : r.state ≠ .spent)
    (hretiring : r.state ≠ .retiring) (htarget : oid target = true)
    (hvalid : ∀ p : Pin, oid p.target = true ∧ oid p.value = true → p.retired = false → Valid store id (r.setPin k p))
    (hpost : ∀ w', Inv store id w' → post () w') : Steps store id fails (store.pin r k target) post w := by
  have hset : ∀ (p : Pin) l, (r.setPin k p).pins l = if l = k then some p else r.pins l := fun _ _ => rfl
  refine steps_then ?_
  rintro ⟨value, hvalue⟩ w rfl
  refine ⟨⟨hinv, trivial⟩, Prog.Wp.bind ?_⟩
  have hheld := (hinv r hrecord).2
  refine steps_save hinv (hvalid _ ⟨htarget, hvalue⟩ rfl) (hheld.change ?_ rfl rfl rfl fun h => absurd h hretiring) ?_
    fun w₁ hinv₁ hrecord₁ _ hrefs₁ => ?_
  · intro l q hq howned hlive'
    rw [hset] at hq
    split_ifs at hq with hl
    · cases hq
      cases howned
    · exact hheld.refs l q hq howned hlive'
  · intro old hold
    rw [hrecord] at hold
    cases hold
    refine ⟨hlive, fun l q hq => .inl ?_, fun h => absurd h hretiring⟩
    rw [hset]
    split_ifs with hl
    · rw [hl, hnone] at hq
      cases hq
    · exact ⟨q, hq, rfl, rfl⟩
  refine steps_check_then hinv₁ (steps_then ?_)
  rintro (_ | _) w₂ ⟨-, hw₂⟩
  · obtain rfl : w₂ = w₁ := hw₂
    exact ⟨⟨hinv₁, trivial⟩, hfails _⟩
  obtain rfl : w₂ = { w₁ with refs := fun l => if l = k then some value else w₁.refs l } := hw₂
  have hinv₂ : Inv store id { w₁ with refs := fun l => if l = k then some value else w₁.refs l } := by
    intro r' hr'
    obtain ⟨hv, hr⟩ := hinv₁ r' hr'
    refine ⟨hv, hr.change (fun l q hq howned hlive' => ?_) rfl rfl rfl .inr⟩
    rw [show w₁.record = some r' from hr'] at hrecord₁
    cases hrecord₁
    have hlk : l ≠ k := by
      rintro rfl
      rw [hset, if_pos rfl] at hq
      cases hq
      cases howned
    have := hr.refs l q hq howned hlive'
    simpa [hlk] using this
  refine ⟨⟨hinv₂, trivial⟩, steps_check_then hinv₂ ?_⟩
  rw [setPin_setPin]
  have hheld₁ := (hinv₁ _ hrecord₁).2
  refine steps_save hinv₂ (hvalid _ ⟨htarget, hvalue⟩ rfl) (hheld₁.change ?_ rfl rfl rfl fun h => absurd h hretiring) ?_
    fun w₃ hinv₃ _ _ _ => hpost w₃ hinv₃
  · intro l q hq howned hlive'
    rw [hset] at hq
    dsimp only
    split_ifs at hq ⊢ with hl
    · cases hq
      exact .inl rfl
    · rw [hrefs₁]
      exact hheld.refs l q hq howned hlive'
  · intro old hold
    rw [show w₁.record = some old from hold] at hrecord₁
    cases hrecord₁
    refine ⟨hlive, fun l q hq => .inl ?_, fun h => absurd h hretiring⟩
    rw [hset] at hq ⊢
    split_ifs at hq ⊢ with hl
    · cases hq
      exact ⟨_, rfl, rfl, rfl⟩
    · exact ⟨q, hq, rfl, rfl⟩

theorem steps_ownSnapshot {post : Identity → World → Prop} (hpost : ∀ i, r.snapshot = some i → post i w) :
    Steps store id fails (Resources.ownSnapshot r) post w := by
  refine steps_then ?_
  rintro (_ | i) w ⟨-, rfl⟩
  · exact ⟨⟨hinv, trivial⟩, hfails w⟩
  refine ⟨⟨hinv, trivial⟩, ?_⟩
  dsimp only
  split_ifs with hown
  · exact hpost i hown
  · exact hfails w

theorem steps_capture {post : Inventory → World → Prop} (i : Identity)
    (hpost : ∀ inventory, inventory.root = i → (∀ s, w.snapshot = some s → inventory.Covers s.contents) → post inventory w) :
    Steps store id fails (Resources.capture i) post w := by
  refine steps_then ?_
  rintro _ w ⟨rfl, rfl⟩
  refine ⟨⟨hinv, trivial⟩, ?_⟩
  split
  · exact hfails w
  · next inventory hinventory =>
    refine hpost inventory (Inventory.root_of hinventory) fun s hs => ?_
    rw [hs] at hinventory
    exact Inventory.covers_of hinventory

end

theorem advances_of_pins (hrecord : w.record = some r) (hlive : r.state ≠ .spent) (hretiring : r.state ≠ .retiring)
    (hpins : new.pins = r.pins) : ∀ old, w.record = some old → Advances old new := by
  intro old hold
  rw [hrecord] at hold
  cases hold
  refine ⟨hlive, fun k p hp => .inl ⟨p, ?_, rfl, rfl⟩, fun h => absurd h hretiring⟩
  rw [hpins, hp]

theorem steps_write (hinv : Inv store id w) (hrecord : w.record = some r) (hstate : r.state = .capturing)
    (hpost : ∀ w', Inv store id w' → w'.record = w.record → w'.refs = w.refs → post () w') :
    Steps store id fails (perform .write) post w := by
  rintro ⟨⟩ _ ⟨contents, rfl⟩
  have hinv' : Inv store id { w with snapshot := w.snapshot.map fun s => { s with contents } } := by
    intro r' hr'
    obtain rfl : r = r' := by simpa [hrecord] using hr'
    obtain ⟨hvalid, hheld⟩ := hinv r hrecord
    refine ⟨hvalid, hheld.refs, fun i hi => ?_, fun _ inventory s hinventory => ?_⟩
    · rcases hheld.snapshot i hi with ⟨s, hs, hidentity⟩ | ⟨hretiring, -⟩
      · exact .inl ⟨{ s with contents }, by rw [hs]; rfl, hidentity⟩
      · rw [hstate] at hretiring
        cases hretiring
    · have hshape := hvalid.shape
      simp [Resource.shape, hstate, hinventory] at hshape
  exact ⟨⟨hinv', trivial⟩, hpost _ hinv' rfl rfl⟩

/-- An operation, whatever it is answered, keeps the invariant at every step and where it ends. -/
abbrev Keeps (store : Resources) (id : String) (p : Transition α) (w : World) : Prop :=
  Steps store id (fun _ => True) p (fun _ w' => Inv store id w') w

section

variable (hinv : Inv store id w)
include hinv

theorem steps_recorded {rest : Resource → Transition α} {post : α → World → Prop}
    (h : ∀ r, w.record = some r → Steps store id (fun _ => True) (rest r) (fun a w' => Inv store id w' ∧ post a w') w) :
    Steps store id (fun _ => True) (Resources.locked (store.load id >>= rest)) post w :=
  steps_locked hinv (Prog.Wp.bind (steps_load hinv (fun _ => trivial) fun r hrecord _ => h r hrecord))

theorem steps_begin (base : String) : Keeps store id (store.begin id base) w := by
  refine steps_locked hinv (steps_check_then hinv (steps_then ?_))
  rintro known w ⟨rfl, rfl⟩
  refine ⟨⟨hinv, trivial⟩, ?_⟩
  split_ifs with hpending hbad
  · trivial
  · trivial
  simp only [Bool.or_eq_true, Bool.not_eq_true', not_or, Bool.not_eq_false] at hbad
  refine steps_then ?_
  rintro record w ⟨rfl, rfl⟩
  refine ⟨⟨hinv, trivial⟩, ?_⟩
  cases hrecord : w.record with
  | some r => trivial
  | none =>
    refine steps_then ?_
    rintro created w rfl
    refine ⟨⟨hinv, trivial⟩, Prog.Wp.bind ?_⟩
    have hvalid : Valid store id _ := valid_begin hbad.1 created
    refine steps_save hinv hvalid ⟨nofun, nofun, nofun⟩ (by rw [hrecord]; nofun) fun w₁ hinv₁ hrecord₁ _ _ => ?_
    refine steps_then fun made w₂ hmade => ?_
    obtain ⟨rfl, rfl⟩ | ⟨i, rfl, rfl⟩ := may_createSnapshot hmade
    · exact ⟨⟨hinv₁, trivial⟩, trivial⟩
    have hinv₂ : Inv store id { w₁ with snapshot := some ⟨i, .empty⟩ } := by
      intro r hr
      rw [show w₁.record = some r from hr] at hrecord₁
      cases hrecord₁
      exact ⟨hvalid, nofun, nofun, nofun⟩
    refine ⟨⟨hinv₂, trivial⟩, Prog.Wp.bind ?_⟩
    have hvalid' := hvalid.withSnapshot rfl i
    refine steps_save hinv₂ hvalid' ⟨nofun, ?_, nofun⟩ ?_ fun w₃ hinv₃ hrecord₃ _ _ => ?_
    · rintro _ ⟨⟩
      exact .inl ⟨_, rfl, rfl⟩
    · exact advances_of_pins (w := { w₁ with snapshot := some ⟨i, .empty⟩ }) hrecord₁ nofun nofun rfl
    · exact steps_pin hinv₃ (fun _ => trivial) hrecord₃ rfl nofun nofun hbad.2
        (fun p hp hlive => hvalid'.withBase rfl rfl hp hlive) fun w₄ hinv₄ => ⟨hinv₄, hinv₄⟩

theorem steps_sealRecord (binding : List UInt8) : Keeps store id (store.sealRecord id binding) w := by
  refine steps_recorded hinv fun r hrecord => ?_
  by_cases hstate : r.state = .capturing
  swap
  · rw [if_pos hstate]
    trivial
  rw [if_neg (not_not_intro hstate)]
  have hvalid := (hinv r hrecord).1
  refine Prog.Wp.bind (steps_verifyPins hinv (fun _ => trivial) fun hpins => ?_)
  refine Prog.Wp.bind (steps_ownSnapshot hinv (fun _ => trivial) fun i hi => Prog.Wp.bind ?_)
  refine steps_write hinv hrecord hstate fun w₁ hinv₁ hrecord₁ hrefs₁ => ?_
  split_ifs with hlong
  · trivial
  rw [hrecord] at hrecord₁
  refine Prog.Wp.bind (steps_write hinv₁ hrecord₁ hstate fun w₂ hinv₂ hrecord₂ hrefs₂ => Prog.Wp.bind ?_)
  rw [hrecord₁] at hrecord₂
  refine steps_capture hinv₂ (fun _ => trivial) i fun inventory hroot hcovers => ?_
  subst hroot
  have hheld := (hinv₂ r hrecord₂).2
  have howned : ∀ k p, r.pins k = some p → p.retired = false → p.owned = true := fun k p hp hl => (hpins k p hp hl).1
  refine steps_save_or_refuse hinv₂ hvalid.operation (fun _ => trivial) (fun hbad => ?_) hvalid.here ⟨?_, ?_, ?_⟩ ?_
    fun w' hinv' _ _ _ _ => ⟨hinv', hinv'⟩
  · rw [hvalid.seal_iff hstate hi howned] at hbad
    exact ⟨r, hrecord₂, .inl ⟨hstate, by simpa using hbad⟩⟩
  · intro k p hp _ hlive
    rw [hrefs₂, hrefs₁]
    exact .inl (hpins k p hp hlive).2
  · intro j hj
    refine (hheld.snapshot j hj).imp_right fun h => ?_
    rw [hstate] at h
    cases h.1
  · rintro - _ s ⟨⟩ hs
    exact hcovers s hs
  · exact advances_of_pins hrecord₂ (by simp [hstate]) (by simp [hstate]) rfl

theorem steps_reject (inventory : Inventory) : Keeps store id (store.reject ⟨id, inventory⟩) w := by
  refine steps_recorded hinv fun r hrecord => ?_
  split_ifs with hother
  · trivial
  simp only [ne_eq, Bool.or_eq_true, decide_eq_true_eq, not_or, Decidable.not_not] at hother
  obtain ⟨hstate, hi⟩ := hother
  have hvalid := (hinv r hrecord).1
  refine Prog.Wp.bind (steps_verifyPins hinv (fun _ => trivial) fun hpins => Prog.Wp.bind ?_)
  have howned : ∀ k p, r.pins k = some p → p.retired = false → p.owned = true := fun k p hp hl => (hpins k p hp hl).1
  refine steps_save_or_refuse hinv hvalid.operation (fun _ => trivial) (fun hbad => ?_) hvalid.here ⟨?_, ?_, nofun⟩ ?_
    fun _ hinv' _ _ _ _ => ?_
  · rw [hvalid.reject_iff hstate hi howned] at hbad
    exact ⟨r, hrecord, .inl ⟨hstate, by simpa using hbad⟩⟩
  · exact fun k p hp _ hlive => .inl (hpins k p hp hlive).2
  · exact fun i hi => ((hinv r hrecord).2.snapshot i hi).imp_right fun h => ⟨rfl, h.2⟩
  · exact advances_of_pins hrecord (by simp [hstate]) (by simp [hstate]) rfl
  · rw [hvalid.operation]
    exact steps_retireLocked hinv' (fun _ => trivial) false fun w'' hinv'' => ⟨hinv'', hinv''⟩

theorem steps_confirm : Keeps store id (store.confirm id) w := by
  refine steps_recorded hinv fun r hrecord => ?_
  split_ifs with hretained hother
  · exact steps_verifyPins hinv (fun _ => trivial) fun _ => ⟨hinv, hinv⟩
  · trivial
  have hstate : r.state = .sealed ∨ r.state = .confirmed := by simpa [or_iff_not_imp_left] using hother
  have hvalid := (hinv r hrecord).1
  refine Prog.Wp.bind (steps_verifyPins hinv (fun _ => trivial) fun hpins => ?_)
  have hheld : Held { r with state := .confirmed } w.refs w.snapshot := by
    refine (hinv r hrecord).2.change (fun k p hp _ hlive => .inl (hpins k p hp hlive).2) rfl rfl rfl fun h => ?_
    rcases hstate with hs | hs <;> simp [hs] at h
  refine steps_save hinv (hvalid.confirm hstate) hheld ?_ fun w' hinv' _ _ _ => ⟨hinv', hinv'⟩
  rcases hstate with hs | hs <;> exact advances_of_pins hrecord (by simp [hs]) (by simp [hs]) rfl

theorem steps_knownCommit (commit : String) : Keeps store id (store.knownCommit id commit) w := by
  refine steps_recorded hinv fun r hrecord => ?_
  split_ifs with hother hbad
  · trivial
  · trivial
  simp only [ne_eq, Bool.or_eq_true, decide_eq_true_eq, not_or, Decidable.not_not] at hother
  obtain ⟨hstate, hnone⟩ := hother
  have hvalid := (hinv r hrecord).1
  refine steps_check_then hinv (steps_pin hinv (fun _ => trivial) hrecord (by simpa using hnone) (by simp [hstate]) (by simp [hstate])
    (by simpa using hbad) (fun p hp hlive => hvalid.withCommit hstate hp hlive) fun _ hinv' => ⟨hinv', hinv'⟩)

theorem steps_retire (keep : Bool) : Keeps store id (store.retire id keep) w :=
  steps_locked hinv (steps_retireLocked hinv (fun _ => trivial) keep fun _ hinv' => ⟨hinv', hinv'⟩)

theorem steps_discardPreview : Keeps store id (store.discardPreview id) w := by
  refine steps_recorded hinv fun r hrecord => ?_
  split_ifs with hstate
  · trivial
  · exact steps_retireLocked hinv (fun _ => trivial) false fun w' hinv' => ⟨hinv', hinv'⟩

theorem steps_expire (now : ℕ) : Keeps store id (store.expire id now) w := by
  refine steps_recorded hinv fun r hrecord => ?_
  split_ifs with hstate
  · exact steps_retireLocked hinv (fun _ => trivial) false fun w' hinv' => ⟨hinv', hinv'⟩
  · exact ⟨hinv, hinv⟩

theorem steps_beforeCheck (known : List String) : Keeps store id (store.beforeCheck id known) w := by
  refine steps_recorded hinv fun r hrecord => ?_
  by_cases hstate : r.state = .capturing
  swap
  · rw [if_pos hstate]
    trivial
  rw [if_neg (not_not_intro hstate)]
  refine Prog.Wp.bind (steps_verifyPins hinv (fun _ => trivial) fun _ => ?_)
  refine Prog.Wp.bind (steps_ownSnapshot hinv (fun _ => trivial) fun i _ => Prog.Wp.bind ?_)
  refine steps_capture hinv (fun _ => trivial) i fun inventory _ _ => ?_
  split_ifs
  · trivial
  · exact ⟨hinv, hinv⟩

theorem steps_acquire : Keeps store id (store.acquire id) w := by
  refine Prog.Wp.bind (steps_load hinv (fun _ => trivial) fun r hrecord _ => ?_)
  split_ifs with hstate
  · exact steps_write hinv hrecord hstate fun _ hinv' _ _ => hinv'
  · trivial

/-- A publication is authorized only by a record that is confirmed or retained. -/
theorem steps_admitPublication (binding base : String) (commit : Option String) :
    Steps store id (fun _ => True) (store.admitPublication id binding base commit)
      (fun _ w' => Inv store id w' ∧ ∃ r, w.record = some r ∧ (r.state = .confirmed ∨ r.state = .retained)) w := by
  refine steps_recorded hinv fun r hrecord => ?_
  by_cases hstate : r.state = .confirmed ∨ r.state = .retained
  swap
  · rw [if_pos (by simpa [not_or] using hstate)]
    trivial
  rw [if_neg (by simpa [not_or, or_iff_not_imp_left] using hstate)]
  refine Prog.Wp.bind (steps_verifyPins hinv (fun _ => trivial) fun _ => ?_)
  have hend : Steps store id (fun _ => True)
      (if commit.all fun commit => (r.pins .commit).any fun pin => pin.target = commit && pin.owned && !pin.retired then .ret ()
        else .fail)
      (fun _ w' => Inv store id w' ∧ Inv store id w' ∧ ∃ r, w.record = some r ∧ (r.state = .confirmed ∨ r.state = .retained)) w := by
    split_ifs
    · exact ⟨hinv, hinv, r, hrecord, hstate⟩
    · trivial
  by_cases hbinding : (r.binding ≠ some binding || !(r.pins .base).any fun pin => pin.target = base) = true
  · rw [if_pos hbinding]
    trivial
  rw [if_neg hbinding]
  by_cases hsnapshot : r.snapshotRetired = true
  · rw [if_neg (by simp [hsnapshot])]
    exact hend
  · rw [if_pos (by simpa using hsnapshot)]
    refine Prog.Wp.bind (steps_ownSnapshot hinv (fun _ => trivial) fun i _ => steps_then ?_)
    rintro bytes w rfl
    refine ⟨⟨hinv, trivial⟩, ?_⟩
    by_cases hdigest : store.digest bytes ≠ binding
    · rw [if_pos hdigest]
      trivial
    · rw [if_neg hdigest]
      exact hend

theorem steps_report : Keeps store id (store.report id) w := by
  refine Prog.Wp.bind (steps_load hinv (fun _ => trivial) fun r hrecord _ => ?_)
  unfold Resources.reportResource
  by_cases hstate : r.state = .retained
  · rw [if_pos hstate]
    exact Prog.Wp.bind (steps_verifyPins hinv (fun _ => trivial) fun _ => hinv)
  · rw [if_neg hstate]
    exact hinv

theorem steps_resumeRetirement : Keeps store id (store.resumeRetirement id) w := by
  refine Prog.Wp.bind (steps_load hinv (fun _ => trivial) fun r hrecord _ => ?_)
  by_cases hstate : r.state = .retiring
  · rw [if_pos hstate]
    refine Prog.Wp.bind ((steps_retire hinv r.keepCommit).mono fun _ w' hinv' => ?_)
    by_cases hrejected : r.rejected = true
    · rw [if_pos hrejected]
      exact hinv'
    · rw [if_neg hrejected]
      exact steps_report hinv'
  · rw [if_neg hstate]
    exact steps_report hinv

end

theorem pinsHeld_of_retained (hinv : Inv store id w) (hrecord : w.record = some r) (hstate : r.state = .retained) :
    PinsHeld r w := by
  intro k p hp hlive
  have hshape := (hinv r hrecord).1.shape
  have howned : p.owned = true := by
    cases k <;> simp_all [Resource.shape]
  rcases (hinv r hrecord).2.refs k p hp howned hlive with href | ⟨hretiring, -⟩
  · exact ⟨howned, href⟩
  · rw [hstate] at hretiring
    cases hretiring

/-- A retirement that is resumed ends as it was begun unless it is stopped again. -/
theorem steps_resume (h : Retiring store id keep rejected r w) (hcovered : Covered r w.snapshot) :
    Steps store id (fun _ => False) (store.resumeRetirement id) (fun _ w' => Finished keep rejected w') w := by
  refine Prog.Wp.bind (steps_load h.inv ?_ fun r' hrecord _ => ?_)
  · rw [h.pending, h.record]
    simp
  rw [h.record] at hrecord
  cases hrecord
  rw [if_pos h.state, h.keepCommit]
  refine Prog.Wp.bind (steps_locked h.inv (steps_retireLocked_retiring h hcovered fun w' hinv hpending hfinished => ⟨hinv, ?_⟩))
  cases hrej : rejected with
  | true =>
    rw [if_pos (h.rejected.trans hrej)]
    rw [← hrej]
    exact hfinished
  | false =>
    rw [if_neg (by rw [h.rejected, hrej]; decide)]
    rw [hrej] at hfinished
    obtain ⟨r', hrecord', hstate'⟩ := hfinished
    refine Prog.Wp.bind (steps_load hinv ?_ fun r'' hrecord'' _ => ?_)
    · rw [hpending, hrecord']
      simp
    rw [hrecord'] at hrecord''
    cases hrecord''
    unfold Resources.reportResource
    by_cases hretained : r'.state = .retained
    · rw [if_pos hretained]
      refine Prog.Wp.bind (steps_verifyPins hinv (fun hbad => ?_) fun _ => ⟨r', hrecord', hstate'⟩)
      exact hbad (pinsHeld_of_retained hinv hrecord' hretained)
    · rw [if_neg hretained]
      exact ⟨r', hrecord', hstate'⟩

end Pbps.Compose
