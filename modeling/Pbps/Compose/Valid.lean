/-
The records a reader accepts, and that what a transition makes of an accepted record is accepted: one lemma for each
write the transitions make.
-/
import Pbps.Compose.Transition

namespace Pbps.Compose

open Option Bool

variable (store : Resources) (id : String)

theorem Resources.sourceScope_self (store : Resources) : store.repository.sourceScope store.repository = some true := by
  simp [RepositoryIdentity.sourceScope, store.absolute]

/-- The checks a reader makes of a record, apart. -/
structure Valid (r : Resource) : Prop where
  here : r.repository = store.repository
  identity : identity id = true
  version : r.version = 1
  operation : r.operation = id
  pinsNamed : r.pinsNamed = true
  shape : r.shape = true
  bindingFits : r.bindingFits = true
  rejected : r.rejected = true → r.state = .retiring ∧ r.keepCommit = false ∧ r.pins .commit = none

theorem valid_iff {r : Resource} :
    Valid store id r ↔ r.validate store.repository id = true ∧ r.repository = store.repository := by
  have hrejected : ((!(r.rejected && (r.state ≠ .retiring || r.keepCommit || (r.pins .commit).isSome))) = true) ↔
      (r.rejected = true → r.state = .retiring ∧ r.keepCommit = false ∧ r.pins .commit = none) := by
    cases r.rejected <;> cases r.keepCommit <;> cases r.pins .commit <;> simp
  unfold Resource.validate
  rw [and_eq_true, hrejected]
  simp only [and_eq_true, decide_eq_true_eq]
  constructor
  · intro h
    refine ⟨⟨⟨⟨⟨⟨⟨⟨?_, h.identity⟩, h.version⟩, h.operation⟩, h.pinsNamed⟩, h.shape⟩, h.bindingFits⟩, h.rejected⟩, h.here⟩
    rw [h.here, store.sourceScope_self]
    rfl
  · rintro ⟨⟨⟨⟨⟨⟨⟨⟨-, hidentity⟩, hversion⟩, hoperation⟩, hpins⟩, hshape⟩, hbinding⟩, hrejected⟩, hhere⟩
    exact ⟨hhere, hidentity, hversion, hoperation, hpins, hshape, hbinding, hrejected⟩

theorem Valid.validate {r : Resource} (h : Valid store id r) : r.validate store.repository id = true :=
  ((valid_iff store id).1 h).1

variable {store id} {r : Resource}

/-! ## Capturing -/

theorem valid_begin (hid : identity id = true) (created : ℕ) : Valid store id {
    version := 1, operation := id, created, repository := store.repository, state := .capturing
    snapshot := none, snapshotRetired := false, binding := none, inventory := none, pins := fun _ => none
    keepCommit := false, rejected := false } where
  here := rfl
  identity := hid
  version := rfl
  operation := rfl
  pinsNamed := rfl
  shape := rfl
  bindingFits := rfl
  rejected := nofun

theorem Valid.change {new : Resource} (h : Valid store id r) (hhere : new.repository = r.repository)
    (hversion : new.version = r.version) (hoperation : new.operation = r.operation) (hpins : new.pinsNamed = true)
    (hshape : new.shape = true) (hbinding : new.bindingFits = true)
    (hrejected : new.rejected = true → new.state = .retiring ∧ new.keepCommit = false ∧ new.pins .commit = none) :
    Valid store id new :=
  ⟨hhere.trans h.here, h.identity, hversion.trans h.version, hoperation.trans h.operation, hpins, hshape, hbinding, hrejected⟩

theorem Valid.withSnapshot (h : Valid store id r) (hstate : r.state = .capturing) (i : Identity) :
    Valid store id { r with snapshot := some i } := by
  have hshape := h.shape
  have hbinding := h.bindingFits
  refine h.change rfl rfl rfl h.pinsNamed ?_ hbinding h.rejected
  simp_all [Resource.shape]

theorem setPin_setPin (r : Resource) (k : PinKind) (p q : Pin) : (r.setPin k p).setPin k q = r.setPin k q := by
  unfold Resource.setPin
  congr 1
  funext l
  dsimp only
  split_ifs <;> rfl

theorem pinsNamed_setPin (h : r.pinsNamed = true) {k : PinKind} {p : Pin} (hp : oid p.target = true ∧ oid p.value = true) :
    (r.setPin k p).pinsNamed = true := by
  unfold Resource.pinsNamed Resource.setPin at *
  cases k <;> simp_all

section

variable (h : Valid store id r)

include h

variable {p : Pin} {inventory : Inventory}

theorem Valid.withBase (hstate : r.state = .capturing) (hsnapshot : r.snapshot.isSome)
    (hp : oid p.target = true ∧ oid p.value = true) (hlive : p.retired = false) : Valid store id (r.setPin .base p) := by
  have hshape := h.shape
  refine h.change rfl rfl rfl (pinsNamed_setPin h.pinsNamed hp) ?_ h.bindingFits h.rejected
  simp_all [Resource.shape, Resource.setPin]

/-! ## Sealed and confirmed -/

theorem Valid.not_rejected (hstate : r.state ≠ .retiring) : r.rejected = false := by
  by_contra hr
  exact hstate (h.rejected (by simpa using hr)).1

section

variable (hstate : r.state = .capturing) (hi : r.snapshot = some inventory.root)
variable (hpins : ∀ k p, r.pins k = some p → p.retired = false → p.owned = true)
include hstate hi hpins

theorem Valid.seal_iff (bytes : List UInt8) :
    Valid store id { r with binding := some (store.digest bytes), inventory := some inventory, state := .sealed } ↔
      (r.pins .base).isSome := by
  have hshape := h.shape
  have hrejected := h.not_rejected (by simp [hstate])
  constructor
  · intro hnew
    have := hnew.shape
    simp only [Resource.shape, Resource.completeBase, and_eq_true] at this
    cases hb : r.pins .base with
    | none => simp [hb] at this
    | some p => rfl
  · intro hbase
    obtain ⟨p, hp⟩ := isSome_iff_exists.1 hbase
    refine h.change rfl rfl rfl h.pinsNamed ?_ ?_ (fun hr => by simp [hrejected] at hr)
    · have howned := hpins .base p hp
      simp_all [Resource.shape, Resource.completeBase, Resource.isSealed]
    · simp [Resource.bindingFits, hrejected, store.digest_identity]

theorem Valid.reject_iff :
    Valid store id { r with inventory := some inventory, rejected := true, state := .retiring } ↔
      (r.pins .base).isSome := by
  have hshape := h.shape
  have hbinding := h.bindingFits
  constructor
  · intro hnew
    have := hnew.shape
    simp only [Resource.shape, and_eq_true] at this
    cases hb : r.pins .base with
    | none => simp [hb] at this
    | some p => rfl
  · intro hbase
    obtain ⟨p, hp⟩ := isSome_iff_exists.1 hbase
    have howned := hpins .base p hp
    refine h.change rfl rfl rfl h.pinsNamed ?_ ?_ fun _ => ?_
    · simp_all [Resource.shape, Resource.isSealed]
    · simp_all [Resource.bindingFits]
    · simp_all [Resource.shape]

end

theorem Valid.confirm (hstate : r.state = .sealed ∨ r.state = .confirmed) :
    Valid store id { r with state := .confirmed } := by
  have hshape := h.shape
  have hbinding := h.bindingFits
  have hrejected := h.not_rejected (by rcases hstate with h | h <;> simp [h])
  refine h.change rfl rfl rfl h.pinsNamed ?_ ?_ (fun hr => by simp [hrejected] at hr)
  · rcases hstate with hs | hs <;> simp_all [Resource.shape, Resource.completeBase, Resource.isSealed]
  · rcases hstate with hs | hs <;> simp_all [Resource.bindingFits]

theorem Valid.withCommit (hstate : r.state = .confirmed) (hp : oid p.target = true ∧ oid p.value = true)
    (hlive : p.retired = false) : Valid store id (r.setPin .commit p) := by
  have hshape := h.shape
  have hrejected := h.not_rejected (by simp [hstate])
  refine h.change rfl rfl rfl (pinsNamed_setPin h.pinsNamed hp) ?_ h.bindingFits ?_
  · simp_all [Resource.shape, Resource.setPin, Resource.completeBase, Resource.isSealed]
  · intro hr
    simp [Resource.setPin, hrejected] at hr

/-! ## Retirement -/

theorem Valid.retiring_iff (hstate : r.state = .sealed ∨ r.state = .confirmed ∨ r.state = .retained)
    (hpins : ∀ k p, r.pins k = some p → p.retired = false → p.owned = true) (keepCommit : Bool) :
    Valid store id { r with state := .retiring, keepCommit } ↔ (keepCommit = true → (r.pins .commit).isSome) := by
  have hshape := h.shape
  have hbinding := h.bindingFits
  have hrejected := h.not_rejected (by rcases hstate with h | h | h <;> simp [h])
  constructor
  · rintro hnew rfl
    have := hnew.shape
    cases hc : r.pins .commit with
    | none => simp [Resource.shape, hc] at this
    | some p => rfl
  · intro hcommit
    refine h.change rfl rfl rfl h.pinsNamed ?_ ?_ (fun hr => by simp [hrejected] at hr)
    · have hb := hpins .base
      have hc := hpins .commit
      rcases hstate with hs | hs | hs <;> cases hbase : r.pins .base <;> cases hcom : r.pins .commit <;>
        simp_all [Resource.shape, Resource.isSealed, Resource.completeBase]
    · rcases hstate with hs | hs | hs <;> simp_all [Resource.bindingFits]

theorem Valid.withoutSnapshot (hstate : r.state = .retiring) :
    Valid store id { r with snapshotRetired := true, snapshot := none, inventory := none } := by
  have hshape := h.shape
  have hbinding := h.bindingFits
  refine h.change rfl rfl rfl h.pinsNamed ?_ ?_ h.rejected
  · simp_all [Resource.shape]
  · simp_all [Resource.bindingFits]

/-- A pin can be retired once the snapshot is, the commit's once the base is and where it is not kept. -/
theorem Valid.retirePin (hstate : r.state = .retiring) (hsnapshot : r.snapshotRetired = true) {k : PinKind}
    (hp : r.pins k = some p) (howned : p.owned = true)
    (hlast : k = .commit → r.keepCommit = false ∧ ∃ b, r.pins .base = some b ∧ b.retired = true) :
    Valid store id (r.setPin k { p with retired := true }) := by
  have hshape := h.shape
  have hbinding := h.bindingFits
  have hnamed : oid p.target = true ∧ oid p.value = true := by
    have := h.pinsNamed
    cases k <;> simp_all [Resource.pinsNamed]
  refine h.change rfl rfl rfl (pinsNamed_setPin h.pinsNamed hnamed) ?_ hbinding ?_
  · cases k with
    | base => cases hc : r.pins .commit <;> simp_all [Resource.shape, Resource.setPin]
    | commit =>
      obtain ⟨hkeep, b, hb, hretired⟩ := hlast rfl
      simp_all [Resource.shape, Resource.setPin]
  · intro hr
    obtain ⟨h1, h2, h3⟩ := h.rejected hr
    cases k with
    | base => exact ⟨h1, h2, by simpa [Resource.setPin] using h3⟩
    | commit =>
      rw [hp] at h3
      cases h3

theorem Valid.retained (hstate : r.state = .retiring) (hsnapshot : r.snapshotRetired = true) (hkeep : r.keepCommit = true)
    (hbase : ∃ b, r.pins .base = some b ∧ b.retired = true) :
    Valid store id { r with state := .retained } := by
  have hshape := h.shape
  have hbinding := h.bindingFits
  have hrejected : r.rejected = false := by
    by_contra hr
    have := (h.rejected (by simpa using hr)).2.1
    rw [hkeep] at this
    cases this
  obtain ⟨b, hb, hretired⟩ := hbase
  refine h.change rfl rfl rfl h.pinsNamed ?_ ?_ (fun hr => by simp [hrejected] at hr)
  · cases hc : r.pins .commit <;> simp_all [Resource.shape]
  · simp_all [Resource.bindingFits]

theorem Valid.spent (hsnapshot : r.snapshotRetired = true) (hkeep : r.keepCommit = false) (hrejected : r.rejected = false) :
    Valid store id { r with
      state := .spent, snapshot := none, inventory := none, pins := fun _ => none, binding := none } :=
  h.change rfl rfl rfl rfl (by simp [Resource.shape, hsnapshot, hkeep]) rfl fun hr => by simp [hrejected] at hr

end

end Pbps.Compose
