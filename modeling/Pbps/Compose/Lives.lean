/-
Whole lives of an operation's resources: what holds after any sequence of calls, each of them stopped anywhere.
-/
import Pbps.Compose.Lifecycle

namespace Pbps.Compose

open Std (ExtTreeMap)
open Option Bool Std.ExtTreeMap

/-- The calls on an operation's resources. -/
inductive Call where
  | begin (base : String)
  | acquire
  | sealRecord (binding : List UInt8)
  | beforeCheck (known : List String)
  | reject (inventory : Inventory)
  | confirm
  | knownCommit (commit : String)
  | admitPublication (binding base : String) (commit : Option String)
  | retire (keepCommit : Bool)
  | discardPreview
  | expire (now : ℕ)
  | resumeRetirement

def Call.prog (store : Resources) (id : String) : Call → Transition Unit
  | .begin base => store.begin id base
  | .acquire => store.acquire id
  | .sealRecord binding => store.sealRecord id binding
  | .beforeCheck known => do let _ ← store.beforeCheck id known
  | .reject inventory => store.reject ⟨id, inventory⟩
  | .confirm => store.confirm id
  | .knownCommit commit => store.knownCommit id commit
  | .admitPublication binding base commit => store.admitPublication id binding base commit
  | .retire keepCommit => store.retire id keepCommit
  | .discardPreview => store.discardPreview id
  | .expire now => store.expire id now
  | .resumeRetirement => do let _ ← store.resumeRetirement id

/-- Before an operation there is nothing of it. -/
def World.initial : World where
  record := none
  pending := false
  refs _ := none
  snapshot := none

/-- A life of an operation from one world to another, with every effect that was made. -/
abbrev Lives (store : Resources) (id : String) : World → List (Prog.Event Effect World) → World → Prop :=
  Prog.Runs may (Call.prog store id)

variable {store : Resources} {id : String} {w w' : World} {es : List (Prog.Event Effect World)}

theorem steps_call (hinv : Inv store id w) (c : Call) :
    Steps store id (fun _ => True) (c.prog store id) (fun _ _ => True) w := by
  cases c with
  | begin base => exact (steps_begin hinv base).mono fun _ _ _ => trivial
  | acquire => exact (steps_acquire hinv).mono fun _ _ _ => trivial
  | sealRecord binding => exact (steps_sealRecord hinv binding).mono fun _ _ _ => trivial
  | beforeCheck known => exact Prog.Wp.bind ((steps_beforeCheck hinv known).mono fun _ _ _ => trivial)
  | reject inventory => exact (steps_reject hinv inventory).mono fun _ _ _ => trivial
  | confirm => exact (steps_confirm hinv).mono fun _ _ _ => trivial
  | knownCommit commit => exact (steps_knownCommit hinv commit).mono fun _ _ _ => trivial
  | admitPublication binding base commit => exact (steps_admitPublication hinv binding base commit).mono fun _ _ _ => trivial
  | retire keepCommit => exact (steps_retire hinv keepCommit).mono fun _ _ _ => trivial
  | discardPreview => exact (steps_discardPreview hinv).mono fun _ _ _ => trivial
  | expire now => exact (steps_expire hinv now).mono fun _ _ _ => trivial
  | resumeRetirement => exact Prog.Wp.bind ((steps_resumeRetirement hinv).mono fun _ _ _ => trivial)

theorem Lives.keeps (h : Lives store id w es w') (hinv : Inv store id w) :
    Inv store id w' ∧ ∀ ev ∈ es, Inv store id ev.before ∧ Allowed store id ev.before ev.effect ev.after ∧
      ∃ b, may ev.effect ev.before b ev.after :=
  Prog.Runs.keeps (fun _ _ _ h _ => h.1.1) (fun c _ hinv => (steps_call hinv c).answered) h hinv

theorem inv_initial : Inv store id World.initial := nofun

/-! ## Single effects -/

variable {e : Effect} {α : Type} {r : Resource}

variable {b : Answer e} {k : PinKind} {p : Transition α}

theorem record_of_may (h : may e w b w') :
    (w'.record = w.record) ∨ (∃ new, e = .rename new ∧ w'.record = some new) ∨ (e = .removeRecord ∧ w'.record = none) := by
  cases e with
  | createSnapshot =>
    obtain ⟨-, rfl⟩ | ⟨i, -, rfl⟩ := may_createSnapshot h
    · exact .inl rfl
    · exact .inl rfl
  | write =>
    obtain ⟨contents, rfl⟩ := h
    exact .inl rfl
  | unlink =>
    obtain rfl | ⟨s, after, -, -, rfl⟩ := may_unlink h
    · exact .inl rfl
    · exact .inl rfl
  | createRef | deleteRef | removeSnapshot =>
    obtain ⟨-, rfl⟩ := h
    left
    split_ifs <;> rfl
  | _ => simp_all [may]

theorem refs_of_may (h : may e w b w') {v : String} (hv : w.refs k = some v) (hgone : w'.refs k ≠ some v) :
    e = .deleteRef k v := by
  cases e with
  | createSnapshot =>
    obtain ⟨-, rfl⟩ | ⟨i, -, rfl⟩ := may_createSnapshot h
    · exact absurd hv hgone
    · exact absurd hv hgone
  | write =>
    obtain ⟨contents, rfl⟩ := h
    exact absurd hv hgone
  | unlink =>
    obtain rfl | ⟨s, after, -, -, rfl⟩ := may_unlink h
    · exact absurd hv hgone
    · exact absurd hv hgone
  | removeSnapshot =>
    obtain ⟨-, rfl⟩ := h
    split_ifs at hgone <;> exact absurd hv hgone
  | createRef l u =>
    obtain ⟨hdone, rfl⟩ := h
    split_ifs at hgone with hmade
    · have hl : k ≠ l := by
        rintro rfl
        simp [hdone, hv] at hmade
      simp [hl, hv] at hgone
    · exact absurd hv hgone
  | deleteRef l u =>
    obtain ⟨hdone, rfl⟩ := h
    split_ifs at hgone with hmade
    · by_cases hkl : k = l
      · subst hkl
        rw [hdone, hv] at hmade
        simpa [eq_comm] using hmade
      · simp [hkl, hv] at hgone
    · exact absurd hv hgone
  | _ => simp_all [may]

/-! ## What a stopped save leaves -/

def Refuses {α : Type} (p : Transition α) (w : World) : Prop :=
  ∀ post : α → World → Prop, Prog.Wp may (fun w _ w' => w' = w) (fun _ => True) p post w

theorem Refuses.bind {β : Type} (h : Refuses p w) (f : α → Transition β) : Refuses (p >>= f) w :=
  fun _ => Prog.Wp.bind (h _)

theorem refuses_check {f : Unit → Transition α} (h : Refuses (f ()) w) : Refuses (check >>= f) w := by
  rintro post ⟨⟩ w rfl
  exact ⟨rfl, h post⟩

theorem refuses_names (hpending : w.pending = true) (p : Transition α) :
    Refuses (perform .names >>= fun known => if !known then .fail else p) w := by
  rintro post known w ⟨rfl, rfl⟩
  refine ⟨rfl, ?_⟩
  show Prog.Wp may _ _ (if !(!w.pending) then .fail else p) post w
  rw [hpending]
  trivial

theorem refuses_load (hpending : w.pending = true) : Refuses (store.load id) w :=
  Refuses.bind (refuses_check (refuses_names hpending _)) _

theorem refuses_call (hpending : w.pending = true) (c : Call) : Refuses (c.prog store id) w := by
  cases c with
  | begin base => exact refuses_check ((refuses_check (refuses_names hpending _)).bind _)
  | beforeCheck known => exact (refuses_check (((refuses_load hpending).bind _).bind _)).bind _
  | resumeRetirement => exact ((refuses_load hpending).bind _).bind _
  | acquire => exact (refuses_load hpending).bind _
  | sealRecord | reject | confirm | knownCommit | admitPublication | retire | discardPreview | expire =>
    exact refuses_check (((refuses_load hpending).bind _).bind _)

theorem Refuses.ends {o : Prog.Outcome α} (h : Refuses p w) (hp : Prog.Ends may p w es o w') :
    w' = w ∧ ∀ a, o ≠ .returned a := by
  obtain ⟨hes, hreturned, -⟩ := hp.of_wp (h fun _ _ => False)
  have hsame : ∀ (a : World) (_ : Effect) (b : World), b = a → a = w → b = w := fun _ _ _ hb ha => hb.trans ha
  exact ⟨(hp.keeps hsame hes rfl).1, hreturned⟩

/-! ## Lives -/

theorem record_after (hmay : may e w b w') (hallowed : Allowed store id w e w') (hr : w.record = some r) :
    w'.record = some r ∨ (∃ new, w'.record = some new ∧ Advances r new) ∨
      (w'.record = none ∧ r.state = .retiring ∧ r.rejected = true) := by
  have hguarantee := hallowed.2
  rcases record_of_may hmay with hsame | ⟨new, rfl, hnew⟩ | ⟨rfl, hnone⟩
  · exact .inl (hsame.trans hr)
  · exact .inr (.inl ⟨new, hnew, hguarantee r hr⟩)
  · obtain ⟨r', hr', hstate, hrejected⟩ := hguarantee
    rw [hr] at hr'
    cases hr'
    exact .inr (.inr ⟨hnone, hstate, hrejected⟩)

section

variable (hinv : Inv store id w) (hr : w.record = some r) (hspent : r.state = .spent)
include hinv hr hspent

theorem spent_stays (h : Lives store id w es w') : w'.record = some r := by
  have hkeeps : ∀ a e b, (Allowed store id a e b ∧ ∃ x, may e a x b) → Inv store id a ∧ a.record = some r →
      Inv store id b ∧ b.record = some r := by
    rintro a e b ⟨hallowed, x, hmay⟩ ⟨-, ha⟩
    refine ⟨hallowed.1, ?_⟩
    rcases record_after hmay hallowed ha with hb | ⟨new, -, hadvances⟩ | ⟨-, hstate, -⟩
    · exact hb
    · exact absurd hspent hadvances.live
    · rw [hspent] at hstate
      cases hstate
  exact (Prog.Runs.keeps hkeeps (fun c _ hinv => (steps_call hinv.1 c).answered) h ⟨hinv, hr⟩).1.2

theorem admit_of_spent {binding base : String} {commit : Option String} {o : Prog.Outcome Unit}
    (h : Prog.Ends may (store.admitPublication id binding base commit) w es o w') : o ≠ .returned () := by
  intro hreturned
  obtain ⟨-, r', hr', hstate⟩ := (h.of_wp (steps_admitPublication hinv binding base commit)).2.1 () hreturned
  rw [hr] at hr'
  cases hr'
  rcases hstate with hs | hs <;>
  · rw [hspent] at hs
    cases hs

end

theorem may_total (e : Effect) (w : World) : ∃ b w', may e w b w' := by
  cases e with
  | createSnapshot =>
    cases hs : w.snapshot with
    | none => exact ⟨some ⟨0, 0⟩, { w with snapshot := some ⟨⟨0, 0⟩, .empty⟩ }, by simp [may, hs]⟩
    | some s => exact ⟨none, w, by simp [may, hs]⟩
  | write => exact ⟨(), _, .empty, rfl⟩
  | unlink name directory =>
    cases hs : w.snapshot with
    | none => exact ⟨false, w, by simp [may, hs]⟩
    | some s =>
      cases hremovable : s.contents.removable name directory with
      | false => exact ⟨false, w, by simp [may, hs, hremovable]⟩
      | true =>
        refine ⟨true, { w with snapshot := some { s with contents := s.contents.erase name hremovable } }, ?_, ?_⟩
        · rw [hs, any_some, hremovable]
        · exact ⟨s, _, hs, Contents.without_erase hremovable, rfl⟩
  | hash => exact ⟨⟨String.ofList (List.replicate 40 'a'), by decide +kernel⟩, w, rfl⟩
  | check | create | rename | refuse | removeRecord => exact ⟨(), _, rfl⟩
  | clock => exact ⟨0, _, rfl⟩
  | manifest => exact ⟨[], _, rfl⟩
  | names | read | openSnapshot | capture | inspect | observe | createRef | deleteRef | removeSnapshot => exact ⟨_, _, rfl, rfl⟩

theorem resume_ends (hinv : Inv store id w) (hr : w.record = some r) (hstate : r.state = .retiring) (hpending : w.pending = false)
    (hcovered : r.rejected = true → Covered r w.snapshot) :
    (∃ es o w', Prog.Ends may (store.resumeRetirement id) w es o w' ∧ o ≠ .stopped) ∧
      ∀ es o w', Prog.Ends may (store.resumeRetirement id) w es o w' → o ≠ .stopped →
        (∃ s, o = .returned s) ∧ Finished r.keepCommit r.rejected w' := by
  have hcovered' : Covered r w.snapshot := by
    cases hrejected : r.rejected with
    | true => exact hcovered hrejected
    | false => exact (hinv r hr).2.entries hrejected
  refine ⟨Prog.Ends.exists_of_total may_total _ w, fun es o w' h ho => ?_⟩
  obtain ⟨-, hreturned, hfailed⟩ := h.of_wp (steps_resume ⟨hinv, hr, hpending, hstate, rfl, rfl⟩ hcovered')
  cases o with
  | returned s => exact ⟨⟨s, rfl⟩, hreturned s rfl⟩
  | failed => exact (hfailed rfl).elim
  | stopped => exact absurd rfl ho

/-! ## A retirement that cannot go on -/

/-- The record's inventory does not cover what is in the directory. -/
def Stuck (r : Resource) (w : World) : Prop := w.record = some r ∧ ¬ Covered r w.snapshot

/-- A step after which the record is as it was, and what was not covered is there still. -/
abbrev Stays (r : Resource) {α : Type} (p : Transition α) (post : α → World → Prop) (w : World) : Prop :=
  Prog.Wp may (fun _ _ w' => Stuck r w') (Stuck r) p post w

theorem stays_check {post : Unit → World → Prop} (h : Stuck r w) (hpost : post () w) : Stays r check post w := by
  rintro ⟨⟩ w rfl
  exact ⟨h, hpost⟩

theorem stays_load {post : Resource → World → Prop} (h : Stuck r w) (hvalid : Valid store id r) (hpost : post r w) :
    Stays r (store.load id) post w := by
  refine Prog.Wp.bind (Prog.Wp.bind (stays_check h ?_))
  rintro known w ⟨rfl, rfl⟩
  refine ⟨h, ?_⟩
  show Stays r (if !(!w.pending) then .fail else _) _ w
  split_ifs with hpending hidentity
  · exact h
  · exact h
  rintro r' w ⟨rfl, rfl⟩
  rw [h.1]
  refine ⟨h, ?_⟩
  show Stays r (if r.validate store.repository id then .ret r else .fail) _ w
  rw [if_pos hvalid.validate]
  show Stays r (if r.repository.sourceScope store.repository = some true then .ret r else .fail) _ w
  rw [if_pos (by rw [hvalid.here]; exact store.sourceScope_self)]
  exact hpost

variable {inventory : Inventory} {name : String}

theorem stays_removeEntry (hinventory : r.inventory = some inventory) (h : Stuck r w) {expected : Entry}
    (hmem : inventory.entries[name]? = some expected) : Stays r (Resources.removeEntry name expected) (fun _ => Stuck r) w := by
  rintro _ w ⟨rfl, rfl⟩
  refine ⟨h, ?_⟩
  cases hfile : w.snapshot.bind fun s => s.contents.files[name]? with
  | none => exact stays_check h h
  | some file =>
    show Stays r (if !expected.isOf file then .fail else _) _ w
    split_ifs with hchanged
    · exact h
    rintro done w' hunlink
    obtain rfl | ⟨s, after, hs, hwithout, rfl⟩ := may_unlink hunlink
    · cases done with
      | false => exact ⟨h, h⟩
      | true => exact ⟨h, stays_check h h⟩
    have hafter : Stuck r { w with snapshot := some { s with contents := after } } := by
      refine ⟨h.1, fun hcovered => h.2 fun inventory' s' hinventory' hs' => ?_⟩
      rw [hinventory] at hinventory'
      rw [hs] at hs' hfile
      cases hinventory'
      cases hs'
      exact hwithout.covers hmem hfile (by simpa using hchanged) (hcovered inventory _ hinventory rfl)
    cases done with
    | false => exact ⟨hafter, hafter⟩
    | true => exact ⟨hafter, stays_check hafter hafter⟩

theorem stays_retireEntries (hinventory : r.inventory = some inventory) :
    ∀ {entries : List (String × Entry)} {w : World}, Stuck r w → (∀ e ∈ entries, inventory.entries[e.1]? = some e.2) →
      Stays r (Resources.retireEntries inventory entries) (fun _ => Stuck r) w
  | [], _, h, _ => h
  | (name, expected) :: entries, w, h, hsub => by
    have hmem : inventory.entries[name]? = some expected := hsub _ List.mem_cons_self
    have hentry : Stays r (Resources.retireEntry inventory name expected) (fun _ => Stuck r) w := by
      unfold Resources.retireEntry
      split_ifs with hrelative hroot
      · exact h
      · exact Prog.Wp.bind (stays_check h (stays_removeEntry hinventory h hmem))
      refine Prog.Wp.bind (stays_check h ?_)
      rintro directory w ⟨-, rfl⟩
      refine ⟨h, ?_⟩
      cases directory with
      | none => exact h
      | some directory =>
        cases hparent : inventory.entries[parentName name]? with
        | none => exact h
        | some parent =>
          show Stays r (if !parent.directory || !parent.isOf directory then .fail else _) _ w
          split_ifs
          · exact h
          · exact stays_removeEntry hinventory h hmem
    refine Prog.Wp.bind (hentry.mono fun _ w' h' => ?_)
    exact stays_retireEntries hinventory h' fun e he => hsub e (List.mem_cons_of_mem _ he)

theorem stays_retireInventory (hinventory : r.inventory = some inventory) (h : Stuck r w) :
    Stays r (Resources.retireInventory inventory) (fun _ _ => False) w := by
  rintro _ w ⟨rfl, rfl⟩
  refine ⟨h, ?_⟩
  cases hs : w.snapshot with
  | none => exact absurd (fun _ s _ hs' => by rw [hs] at hs'; cases hs') h.2
  | some s =>
    show Stays r (if s.identity ≠ inventory.root then .fail else _) _ w
    split_ifs
    · exact h
    refine Prog.Wp.bind ((stays_retireEntries hinventory h fun e => inventory.mem_deepestFirst.1).mono fun _ w' h' => ?_)
    refine Prog.Wp.bind (stays_check h' ?_)
    rintro done w' ⟨rfl, rfl⟩
    -- What is not covered is in the directory, which is therefore not removed.
    have hfull : (w'.snapshot.any fun s => s.contents.files.isEmpty) = false := by
      rw [← not_eq_true]
      refine fun hempty => h'.2 fun inventory' s' _ hs' name file hfile => ?_
      rw [hs', any_some, ExtTreeMap.isEmpty_iff] at hempty
      rw [hempty] at hfile
      cases hfile
    rw [hfull, if_neg Bool.false_ne_true]
    exact ⟨h', h'⟩

theorem stays_resumeRetirement (h : Stuck r w) (hvalid : Valid store id r) (hstate : r.state = .retiring) :
    Stays r (store.resumeRetirement id) (fun _ _ => False) w := by
  obtain ⟨inventory, hinventory⟩ : ∃ inventory, r.inventory = some inventory := by
    by_contra hnone
    exact h.2 fun inventory _ hinventory => (hnone ⟨inventory, hinventory⟩).elim
  have hlive : r.snapshotRetired = false := by
    have hshape := hvalid.shape
    by_contra hretired
    simp [Resource.shape, hstate, hinventory, hretired] at hshape
  have hretire : Stays r (store.retireSnapshot r) (fun _ _ => False) w := by
    unfold Resources.retireSnapshot
    rw [hlive, if_neg Bool.false_ne_true, hinventory]
    exact Prog.Wp.bind ((stays_retireInventory hinventory h).mono fun _ _ => False.elim)
  refine Prog.Wp.bind (stays_load h hvalid ?_)
  rw [if_pos hstate]
  refine Prog.Wp.bind (Prog.Wp.bind (stays_check h (Prog.Wp.bind (Prog.Wp.bind (stays_load h hvalid ?_)))))
  rw [if_neg (by simp [hstate])]
  refine Prog.Wp.bind ?_
  unfold Resources.enterRetiring
  rw [if_neg (not_not_intro hstate), if_neg (not_not_intro rfl)]
  exact Prog.Wp.bind (hretire.mono fun _ _ => False.elim)

/-! ## The lifecycle -/

/-- What an effect can make of a recorded pin: it names what it did, unless its record is spent or a rejected candidate's
record is removed. -/
def PinKept (r : Resource) (k : PinKind) (p : Pin) (after : Option Resource) : Prop :=
  (∃ r', after = some r' ∧ ((∃ p', r'.pins k = some p' ∧ p'.target = p.target ∧ p'.value = p.value) ∨ r'.state = .spent)) ∨
    (after = none ∧ r.state = .retiring ∧ r.rejected = true)

/-- A lifecycle that stays readable and owns what it deletes: the effects of a life, and the world it leaves. -/
structure Sound (store : Resources) (id : String) (es : List (Prog.Event Effect World)) (w : World) : Prop where
  /-- A reader accepts every record that is written, and the one that is there. -/
  written : ∀ ev ∈ es, ∀ new, ev.effect = .rename new → new.validate store.repository id = true
  readable : ∀ r, w.record = some r → r.validate store.repository id = true
  /-- A write is refused only where the record has no pin for it, and nothing comes of it. -/
  refused : ∀ ev ∈ es, ∀ new, ev.effect = .refuse new →
    ev.after = ev.before ∧ ∃ r, ev.before.record = some r ∧ Unwritable r new
  /-- What a stopped save left beside the record keeps every call from any effect. -/
  blocked : w.pending = true → ∀ (c : Call) es' o w', Prog.Ends may (c.prog store id) w es' o w' → w' = w ∧ o ≠ .returned ()
  pins : ∀ ev ∈ es, ∀ r, ev.before.record = some r → ∀ k p, r.pins k = some p → PinKept r k p ev.after.record
  refs : ∀ ev ∈ es, ∀ k v, ev.before.refs k = some v → ev.after.refs k ≠ some v →
    ∃ r, ev.before.record = some r ∧ Deletable r k v
  /-- A spent record is there in every later life, and authorizes nothing. -/
  spent : ∀ r, w.record = some r → r.state = .spent →
    (∀ es' w', Lives store id w es' w' → w'.record = some r) ∧
      ∀ binding base commit es' o w', Prog.Ends may (store.admitPublication id binding base commit) w es' o w' → o ≠ .returned ()
  /-- A retirement goes on as it was begun, or ends so. -/
  intent : ∀ ev ∈ es, ∀ r, ev.before.record = some r → r.state = .retiring →
    (∃ r', ev.after.record = some r' ∧ r'.state = .retiring ∧ r'.keepCommit = r.keepCommit ∧ r'.rejected = r.rejected) ∨
      Finished r.keepCommit r.rejected ev.after
  /-- A retirement resumed from where it was stopped has an end, and every end of it is as it was begun. -/
  resumed : ∀ r, w.record = some r → r.state = .retiring → w.pending = false → (r.rejected = true → Covered r w.snapshot) →
    (∃ es' o w', Prog.Ends may (store.resumeRetirement id) w es' o w' ∧ o ≠ .stopped) ∧
      ∀ es' o w', Prog.Ends may (store.resumeRetirement id) w es' o w' → o ≠ .stopped →
        (∃ s, o = .returned s) ∧ Finished r.keepCommit r.rejected w'
  /-- Where its directory holds anything the inventory does not cover, none returns: the record stays, and what is not covered. -/
  uncovered : ∀ r, w.record = some r → r.state = .retiring → ¬ Covered r w.snapshot →
    ∀ es' o w', Prog.Ends may (store.resumeRetirement id) w es' o w' →
      (∀ s, o ≠ .returned s) ∧ w'.record = some r ∧ ¬ Covered r w'.snapshot

section

variable (hmay : may e w b w') (hallowed : Allowed store id w e w') (hr : w.record = some r)
include hmay hallowed hr

theorem pinKept_of_may {p : Pin} (hp : r.pins k = some p) : PinKept r k p w'.record := by
  rcases record_after hmay hallowed hr with hsame | ⟨new, hnew, hadvances⟩ | hremoved
  · exact .inl ⟨r, hsame, .inl ⟨p, hp, rfl, rfl⟩⟩
  · exact .inl ⟨new, hnew, hadvances.pins k p hp⟩
  · exact .inr hremoved

theorem intent_of_may (hretiring : r.state = .retiring) :
    (∃ r', w'.record = some r' ∧ r'.state = .retiring ∧ r'.keepCommit = r.keepCommit ∧ r'.rejected = r.rejected) ∨
      Finished r.keepCommit r.rejected w' := by
  rcases record_after hmay hallowed hr with hsame | ⟨new, hnew, hadvances⟩ | ⟨hnone, -, hrejected⟩
  · exact .inl ⟨r, hsame, hretiring, rfl, rfl⟩
  · rcases hadvances.intent hretiring with hon | ⟨hrejected, hended⟩
    · exact .inl ⟨new, hnew, hon⟩
    · right
      unfold Finished
      rw [if_neg (by simp [hrejected])]
      exact ⟨new, hnew, hended⟩
  · right
    unfold Finished
    rw [if_pos hrejected]
    exact hnone

end

/-- Every life of an operation's resources is sound. -/
theorem Lives.lifecycle_sound (h : Lives store id World.initial es w) : Sound store id es w := by
  obtain ⟨hinv, hes⟩ := h.keeps inv_initial
  constructor
  case written =>
    intro ev hev new he
    obtain ⟨-, hallowed, b, hmay⟩ := hes ev hev
    obtain ⟨before, e, after⟩ := ev
    subst he
    exact (hallowed.1 new (by rw [show after = _ from hmay])).1.validate
  case readable => exact fun r hr => (hinv r hr).1.validate
  case refused =>
    intro ev hev new he
    obtain ⟨-, hallowed, b, hmay⟩ := hes ev hev
    obtain ⟨before, e, after⟩ := ev
    subst he
    exact ⟨hmay, hallowed.2⟩
  case blocked =>
    intro hpending c es' o w' hc
    obtain ⟨hsame, hreturned⟩ := (refuses_call hpending c).ends hc
    exact ⟨hsame, hreturned ()⟩
  case pins =>
    intro ev hev r hr k p hp
    obtain ⟨-, hallowed, b, hmay⟩ := hes ev hev
    exact pinKept_of_may hmay hallowed hr hp
  case refs =>
    intro ev hev k v hv hgone
    obtain ⟨-, hallowed, b, hmay⟩ := hes ev hev
    have hguarantee := hallowed.2
    rw [refs_of_may hmay hv hgone] at hguarantee
    exact hguarantee
  case spent =>
    intro r hr hspent
    exact ⟨fun es' w' h' => spent_stays hinv hr hspent h', fun _ _ _ es' o w' h' => admit_of_spent hinv hr hspent h'⟩
  case intent =>
    intro ev hev r hr hretiring
    obtain ⟨-, hallowed, b, hmay⟩ := hes ev hev
    exact intent_of_may hmay hallowed hr hretiring
  case resumed => exact fun r hr hstate hpending hcovered => resume_ends hinv hr hstate hpending hcovered
  case uncovered =>
    intro r hr hstate hcovered es' o w' h'
    obtain ⟨hes, hreturned, -⟩ := h'.of_wp (stays_resumeRetirement ⟨hr, hcovered⟩ (hinv r hr).1 hstate)
    have hkeeps : ∀ (a : World) (_ : Effect) (b : World), Stuck r b → Stuck r a → Stuck r b := fun _ _ _ hb _ => hb
    exact ⟨hreturned, (h'.keeps hkeeps hes ⟨hr, hcovered⟩).1⟩

/-! ## A life -/

/-- A repository's directory with a file in it. -/
def aRepository : Contents where
  files := ((∅ : ExtTreeMap String File).insert "repository" ⟨⟨⟨0, 1⟩, true, 0, (0, 0), (0, 0)⟩, true⟩).insert "repository/HEAD"
    ⟨⟨⟨0, 2⟩, false, 41, (0, 0), (0, 0)⟩, true⟩
  nested := by
    intro name entry hname
    rw [getElem?_map, map_eq_some_iff] at hname
    obtain ⟨file, hfile, -⟩ := hname
    rcases getElem?_insert_eq_some.1 hfile with ⟨rfl, -⟩ | ⟨-, hfile⟩
    · exact ⟨by decide +kernel, .inr ⟨⟨⟨0, 1⟩, true, 0, (0, 0), (0, 0)⟩, by decide +kernel, rfl⟩⟩
    · rcases getElem?_insert_eq_some.1 hfile with ⟨rfl, -⟩ | ⟨-, hfile⟩
      · exact ⟨by decide +kernel, .inl (by decide +kernel)⟩
      · cases hfile

/-- The answer of a world to each effect, with the first of each thing that is made. -/
def answer : (e : Effect) → World → Option (Answer e × World)
  | .check, w => some ((), w)
  | .names, w => some (!w.pending, w)
  | .read, w => some (w.record, w)
  | .clock, w => some ((0 : ℕ), w)
  | .create, w => some ((), { w with pending := true })
  | .rename r, w => some ((), { w with record := some r, pending := false })
  | .refuse _, w => some ((), w)
  | .createSnapshot, w =>
    match w.snapshot with
    | none => some (some ⟨0, 0⟩, { w with snapshot := some ⟨⟨0, 0⟩, .empty⟩ })
    | some _ => some (none, w)
  | .openSnapshot, w => some (w.snapshot.map (·.identity), w)
  | .write, w => some ((), { w with snapshot := w.snapshot.map fun s => { s with contents := aRepository } })
  | .capture, w => some (w.snapshot.elim .empty (·.contents), w)
  | .inspect name, w => some (w.snapshot.bind fun s => s.contents.files[name]?, w)
  | .manifest, w => some (([] : List UInt8), w)
  | .hash _ target, w => if h : oid target = true then some (⟨target, h⟩, w) else none
  | .observe k, w => some ((w.refs k).elim .absent .direct, w)
  | .createRef k v, w =>
    if w.refs k = none then some (true, { w with refs := fun l => if l = k then some v else w.refs l }) else some (false, w)
  | .deleteRef k v, w =>
    if w.refs k = some v then some (true, { w with refs := fun l => if l = k then none else w.refs l }) else some (false, w)
  | .unlink name directory, w =>
    match w.snapshot with
    | none => some (false, w)
    | some s =>
      if h : s.contents.removable name directory = true then
        some (true, { w with snapshot := some { s with contents := s.contents.erase name h } })
      else some (false, w)
  | .removeSnapshot, w =>
    if w.snapshot.any fun s => s.contents.files.isEmpty then some (true, { w with snapshot := none }) else some (false, w)
  | .removeRecord, w => some ((), { w with record := none })

theorem may_of_answer (e : Effect) (w : World) (b : Answer e) (w' : World) (h : answer e w = some (b, w')) : may e w b w' := by
  cases e with
  | createSnapshot =>
    cases hs : w.snapshot <;>
    · simp only [answer, hs] at h
      cases h
      simp [may, hs]
  | write =>
    cases h
    exact ⟨_, rfl⟩
  | unlink name directory =>
    simp only [answer] at h
    cases hs : w.snapshot with
    | none =>
      rw [hs] at h
      cases h
      simp [may, hs]
    | some s =>
      rw [hs] at h
      dsimp only at h
      split_ifs at h with hremovable <;> cases h
      · exact ⟨by rw [hs, any_some, hremovable], s, _, hs, Contents.without_erase hremovable, rfl⟩
      · simp [may, hs, hremovable]
  | hash k target =>
    simp only [answer] at h
    split_ifs at h
    cases h
    rfl
  | createRef | deleteRef | removeSnapshot =>
    simp only [answer] at h
    split_ifs at h <;> cases h <;> simp_all [may]
  | _ =>
    cases h
    simp [may]

/-- The life that makes these calls, one after the other, each to its end. -/
def live (store : Resources) (id : String) : List Call → World → List (Prog.Event Effect World) × World
  | [], w => ([], w)
  | c :: cs, w =>
    let r := (c.prog store id).exec answer 200 w
    let rest := live store id cs r.2.2
    (r.1 ++ rest.1, rest.2)

theorem lives_live (store : Resources) (id : String) (cs : List Call) (w : World) :
    Lives store id w (live store id cs w).1 (live store id cs w).2 := by
  induction cs generalizing w with
  | nil => exact .nil
  | cons c cs ih => exact .cons (Prog.ends_exec may_of_answer _ 200 w) (ih _)

/-- Sixty-four letters that are an operation's identity and an object's name. -/
def anIdentity : String := String.ofList (List.replicate 64 'a')

theorem anIdentity_identity : identity anIdentity = true := by decide +kernel

theorem anIdentity_oid : oid anIdentity = true := by decide +kernel

def aStore : Resources where
  repository := {
    source := "/work", common := "/work/.git", sourceDevice := 0, sourceInode := 1, commonDevice := 0, commonInode := 2 }
  absolute := by decide +kernel
  digest _ := anIdentity
  digest_identity _ := anIdentity_identity

def Effect.isRefusal : Effect → Bool
  | .refuse _ => true
  | _ => false

/-- A retirement's directory has something that its inventory does not. -/
def World.hasUnknown (w : World) (name : String) : Bool :=
  !w.pending && w.record.any fun r => r.state = .retiring && r.inventory.any fun inventory =>
    !inventory.entries.contains name && w.snapshot.any fun s => s.contents.files.contains name

theorem World.hasUnknown_iff {w : World} : w.hasUnknown name = true ↔ ∃ r inventory s, w.pending = false ∧
    w.record = some r ∧ r.state = .retiring ∧ r.inventory = some inventory ∧ name ∉ inventory.entries ∧ w.snapshot = some s ∧
      name ∈ s.contents.files := by
  simp [hasUnknown, any_eq_true, ← contains_iff_mem]

/-- A candidate that is checked before its repository is written, and then rejected. -/
def anInterruptedLife : List Call := [.begin anIdentity, .beforeCheck [], .acquire, .reject ⟨⟨0, 0⟩, ∅, Contents.empty.nested⟩]

/-- A candidate that is sealed and asked to keep a commit it has no pin of has the retirement's own write refused; and the
retirement of one that is rejected by a checkpoint that does not have its repository never returns. -/
theorem retire_refused : (∃ es w, Lives aStore anIdentity World.initial es w ∧ ∃ ev ∈ es, ∃ new, ev.effect = .refuse new) ∧
    ∃ es w r, Lives aStore anIdentity World.initial es w ∧ w.record = some r ∧ r.state = .retiring ∧ w.pending = false ∧
      ∀ es' o w', Prog.Ends may (aStore.resumeRetirement anIdentity) w es' o w' → ∀ s, o ≠ .returned s := by
  constructor
  · have hrefused : (live aStore anIdentity [.begin anIdentity, .sealRecord [], .retire true] World.initial).1.any
        (fun ev => ev.effect.isRefusal) = true := by decide +kernel
    obtain ⟨ev, hev, hrefusal⟩ := List.any_eq_true.1 hrefused
    refine ⟨_, _, lives_live .., ev, hev, ?_⟩
    cases he : ev.effect with
    | refuse new => exact ⟨new, rfl⟩
    | _ =>
      rw [he] at hrefusal
      cases hrefusal
  · have hlives := lives_live aStore anIdentity anInterruptedLife World.initial
    have hended : (live aStore anIdentity anInterruptedLife World.initial).2.hasUnknown "repository" = true := by decide +kernel
    obtain ⟨r, inventory, s, hpending, hr, hstate, hi, hmissing, hs, hfile⟩ := World.hasUnknown_iff.1 hended
    refine ⟨_, _, r, hlives, hr, hstate, hpending, fun es' o w' h' => ?_⟩
    have hstuck : Stuck r (live aStore anIdentity anInterruptedLife World.initial).2 := by
      refine ⟨hr, fun hcovered => hmissing ?_⟩
      obtain ⟨file, hfile⟩ := mem_iff_exists.1 hfile
      obtain ⟨expected, hexpected, -⟩ := hcovered inventory s hi hs "repository" file hfile
      exact mem_of_getElem?_eq hexpected
    exact (h'.of_wp (stays_resumeRetirement hstuck ((hlives.keeps inv_initial).1 r hr).1 hstate)).2.1

/-- A candidate that is sealed, confirmed and retired is spent, and its repository removed. -/
theorem lifecycle_sound_spent : ∃ es w, Lives aStore anIdentity World.initial es w ∧ Sound aStore anIdentity es w ∧
    w.snapshot.isNone ∧ ∃ r, w.record = some r ∧ r.state = .spent := by
  have hlives := lives_live aStore anIdentity [.begin anIdentity, .sealRecord [], .confirm, .retire false] World.initial
  have hended : ((live aStore anIdentity [.begin anIdentity, .sealRecord [], .confirm, .retire false] World.initial).2.record.any
      (fun r => r.state = .spent) &&
        (live aStore anIdentity [.begin anIdentity, .sealRecord [], .confirm, .retire false] World.initial).2.snapshot.isNone) =
      true := by decide +kernel
  obtain ⟨hspent, hgone⟩ := and_eq_true_iff.1 hended
  exact ⟨_, _, hlives, hlives.lifecycle_sound, hgone, by simpa [any_eq_true] using hspent⟩

end Pbps.Compose
