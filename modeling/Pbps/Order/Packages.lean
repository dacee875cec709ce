/-
The evidence of a plan's packages: `package_pins_match_their_creates`, `…_drops` and `…_updates` of `order/saved.rs`. The
steps of a plan are gathered by uid and compared with the pins.
-/
import Mathlib.Data.List.Induction
import Mathlib.Order.Basic
import Pbps.Diff.Change
import Pbps.Lib.Check
import Pbps.Lib.Map
import Pbps.Model.Escape

namespace Pbps.Saved

open Diff (Change)
open Std (ExtTreeMap ExtTreeSet)
open List Option Except Std.ExtTreeMap
open Bool (and_eq_true not_eq_true')

/-! ## Plans and their pins -/

/-- The definition of a manifest. Its members are compared elsewhere. -/
structure ExtensionProvider where
  definition : Extension
  deriving DecidableEq

structure ExtensionPin where
  uid : Uid
  name : ObjectLocalName
  definition : Extension
  manifest : ExtensionProvider
  deriving DecidableEq

structure ExtensionDropPin where
  uid : Uid
  name : ObjectLocalName
  definition : Extension
  manifest : ExtensionProvider
  deriving DecidableEq

structure ExtensionChangePin where
  uid : Uid
  name : ObjectLocalName
  from_ : Extension
  to_ : Extension
  path : List String
  before : ExtensionProvider
  after : ExtensionProvider
  deriving DecidableEq

structure SavedPlan where
  changes : List Change
  ids : IdsFile
  extensionPins : List ExtensionPin := []
  extensionDrops : List ExtensionDropPin := []
  extensionChanges : List ExtensionChangePin := []

/-- What a package of the plan disagrees in, and the package. -/
inductive PackageProblem where
  | create (name : ObjectLocalName)
  | drop (name : ObjectLocalName)
  | change (name : ObjectLocalName)
  deriving DecidableEq

def PackageProblem.text : PackageProblem → String
  | .create name => "extension evidence disagrees with the plan's create of " ++ "\x60" ++ Escape.escaped name ++ "\x60"
  | .drop name => "extension evidence disagrees with the plan's drop of " ++ "\x60" ++ Escape.escaped name ++ "\x60"
  | .change name => "extension evidence disagrees with the plan's change of " ++ "\x60" ++ Escape.escaped name ++ "\x60"

/-! ## The comparison of pins and gathered steps -/

section Match

variable {P S : Type} (uid : P → Uid) (disagree : P → PackageProblem) (steps : ExtTreeMap Uid S) (fits : P → S → Bool)

/-- The loop over the pins: each one fits the step of its uid, and no other pin has it. -/
def pinAll : List P → ExtTreeSet Uid → Except PackageProblem (ExtTreeSet Uid)
  | [], pinned => .ok pinned
  | pin :: pins, pinned =>
    match steps[uid pin]? with
    | none => .error (disagree pin)
    | some step =>
      if !fits pin step || pinned.contains (uid pin) then .error (disagree pin) else pinAll pins (pinned.insert (uid pin))

/-- Both loops of a check: the pins, and then the steps, each of which is pinned. -/
def pinsMatch (pins : List P) (stepFits : Uid → S → Bool) (disagreeStep : Uid → S → PackageProblem) : Except PackageProblem Unit := do
  let pinned ← pinAll uid disagree steps fits pins ∅
  steps.toList.forM fun e =>
    if !pinned.contains e.1 || !stepFits e.1 e.2 then throw (disagreeStep e.1 e.2) else pure ()

variable {uid disagree steps fits}

theorem pinAll_eq_ok {pinned : ExtTreeSet Uid} : ∀ {pins : List P} {seen : ExtTreeSet Uid},
    pinAll uid disagree steps fits pins seen = .ok pinned →
      (∀ pin ∈ pins, ∃ step, steps[uid pin]? = some step ∧ fits pin step = true) ∧ (pins.map uid).Nodup ∧
        (∀ pin ∈ pins, uid pin ∉ seen) ∧ ∀ u, u ∈ pinned ↔ u ∈ seen ∨ u ∈ pins.map uid
  | [], seen, h => by
    cases h
    simp
  | pin :: pins, seen, h => by
    unfold pinAll at h
    cases hstep : steps[uid pin]? with
    | none => rw [hstep] at h; cases h
    | some step =>
      simp only [hstep, Bool.or_eq_true, not_eq_true', ExtTreeSet.contains_iff_mem] at h
      split at h
      · cases h
      rename_i hfits
      rw [not_or, Bool.not_eq_false] at hfits
      obtain ⟨hall, hnodup, hfresh, hmem⟩ := pinAll_eq_ok h
      have hnew : ∀ other ∈ pins, uid other ≠ uid pin ∧ uid other ∉ seen := fun other ho => by
        have := hfresh other ho
        rw [ExtTreeSet.mem_insert, Std.LawfulEqOrd.compare_eq_iff_eq, not_or] at this
        exact ⟨Ne.symm this.1, this.2⟩
      refine ⟨forall_mem_cons.2 ⟨⟨step, hstep, hfits.1⟩, hall⟩, ?_,
        forall_mem_cons.2 ⟨hfits.2, fun other ho => (hnew other ho).2⟩, fun u => ?_⟩
      · rw [map_cons, nodup_cons]
        refine ⟨fun hm => ?_, hnodup⟩
        obtain ⟨other, ho, heq⟩ := List.mem_map.1 hm
        exact (hnew other ho).1 heq
      · rw [hmem, ExtTreeSet.mem_insert, Std.LawfulEqOrd.compare_eq_iff_eq, map_cons, mem_cons]
        tauto

/-- What a check that passed says: one pin for each gathered step, one step for each pin, and both fit. -/
structure Matched (uid : P → Uid) (steps : ExtTreeMap Uid S) (fits : P → S → Bool) (pins : List P)
    (stepFits : Uid → S → Bool) : Prop where
  nodup : (pins.map uid).Nodup
  fitted : ∀ pin ∈ pins, ∃ step, steps[uid pin]? = some step ∧ fits pin step = true
  pinned : ∀ (u : Uid) step, steps[u]? = some step → u ∈ pins.map uid ∧ stepFits u step = true

theorem matched_of_pinsMatch {pins : List P} {stepFits : Uid → S → Bool} {disagreeStep : Uid → S → PackageProblem}
    (h : pinsMatch uid disagree steps fits pins stepFits disagreeStep = .ok ()) : Matched uid steps fits pins stepFits := by
  obtain ⟨pinned, hpinned, h⟩ := bind_eq_ok_iff.1 h
  obtain ⟨hall, hnodup, -, hmem⟩ := pinAll_eq_ok hpinned
  refine ⟨hnodup, hall, fun u step hu => ?_⟩
  have hstep := guard_eq_ok.1 (forM_eq_ok.1 h (u, step) (mem_toList_iff_getElem?_eq_some.2 hu))
  rw [Bool.or_eq_true, not_eq_true', not_eq_true', not_or, Bool.not_eq_false, Bool.not_eq_false,
    ExtTreeSet.contains_iff_mem, hmem] at hstep
  exact ⟨hstep.1.resolve_left ExtTreeSet.not_mem_empty, hstep.2⟩

end Match

/-! ## Creates and drops -/

/-- A step that creates or drops a package: the uid, the name and the definition, and the packages it names. -/
abbrev PackageStep := Uid × ObjectLocalName × Extension × ExtTreeSet Uid

def createStep : Change → Option PackageStep
  | .createExtension uid name definition requires => some (uid, name, definition, requires)
  | _ => none

def dropStep : Change → Option PackageStep
  | .dropExtension uid name definition requirers _ => some (uid, name, definition, requirers)
  | _ => none

def creates (plan : SavedPlan) : ExtTreeMap Uid (ObjectLocalName × Extension × ExtTreeSet Uid) :=
  .ofList (plan.changes.filterMap createStep)

def drops (plan : SavedPlan) : ExtTreeMap Uid (ObjectLocalName × Extension × ExtTreeSet Uid) :=
  .ofList (plan.changes.filterMap dropStep)

/-- `package_pins_match_their_creates`. -/
def packagePinsMatchTheirCreates (plan : SavedPlan) : Except PackageProblem Unit :=
  pinsMatch ExtensionPin.uid (fun pin => .create pin.name) (creates plan)
    (fun pin step => pin.uid.kind == .extension && plan.ids.extensions[pin.uid]? == some pin.name && step.1 == pin.name &&
      step.2.1 == pin.definition && pin.manifest.definition == pin.definition)
    plan.extensionPins
    (fun uid step => uid.kind == .extension && plan.ids.extensions[uid]? == some step.1 &&
      step.2.2.toList.all fun r => r != uid && (creates plan).contains r)
    fun _ step => .create step.1

/-- `package_pins_match_their_drops`. -/
def packagePinsMatchTheirDrops (plan : SavedPlan) : Except PackageProblem Unit :=
  pinsMatch ExtensionDropPin.uid (fun pin => .drop pin.name) (drops plan)
    (fun pin step => step.1 == pin.name && step.2.1 == pin.definition && pin.manifest.definition == pin.definition)
    plan.extensionDrops
    (fun uid step => uid.kind == .extension &&
      plan.ids.tombstones[uid]?.any (fun t => t.was == step.1 && !isBlank t.reason) &&
      !plan.ids.extensions.contains uid && step.2.2.toList.all fun r => r != uid && (drops plan).contains r)
    fun _ step => .drop step.1

/-! ## Changes -/

/-- The changes of one package. -/
structure Chain where
  name : Option ObjectLocalName := none
  update : Option (Extension × Extension) := none
  movement : Option (Extension × Extension) := none
  requires : Option (ExtTreeSet Uid) := none
  twice : Bool := false

/-- One more change of a package; an update says what it requires, a move does not. -/
def Chain.add (chain : Chain) (name : ObjectLocalName) (step : Extension × Extension) (requires : Option (ExtTreeSet Uid)) : Chain :=
  let slot := if requires.isSome then chain.update else chain.movement
  { name := some name
    update := if requires.isSome then some step else chain.update
    movement := if requires.isSome then chain.movement else some step
    requires := chain.requires.or requires
    twice := chain.twice || slot.isSome || chain.name.any (· != name) }

/-- A change of a package: the uid, the name, both ends, and what an update requires. -/
abbrev ChangeStep := Uid × ObjectLocalName × (Extension × Extension) × Option (ExtTreeSet Uid)

def changeStep : Change → Option ChangeStep
  | .updateExtension uid name from_ to_ requires _ => some (uid, name, (from_, to_), some requires)
  | .setExtensionSchema uid name from_ to_ _ => some (uid, name, (from_, to_), none)
  | _ => none

def gather (chains : ExtTreeMap Uid Chain) (s : ChangeStep) : ExtTreeMap Uid Chain :=
  chains.insert s.1 ((chains.getD s.1 {}).add s.2.1 s.2.2.1 s.2.2.2)

def chains (plan : SavedPlan) : ExtTreeMap Uid Chain := (plan.changes.filterMap changeStep).foldl gather ∅

/-- The path starts at the version an update is from and ends at the one it is to; a move alone has none. -/
def pathFits (chain : Chain) (path : List String) : Bool :=
  match chain.update with
  | some (from_, to_) => path.head? == some from_.version && path.getLast? == some to_.version
  | none => path.isEmpty

/-- An update keeps the schema it starts in, a move keeps the version, and the move starts where the update ends. -/
def stepsFit (chain : Chain) : Bool :=
  (chain.update.all fun s => s.1.schema == s.2.schema && s.1.version != s.2.version) &&
    (chain.movement.all fun s => s.1.version == s.2.version && s.1.schema != s.2.schema) &&
    match chain.update, chain.movement with
    | some (_, left), some (entry, _) => left == entry
    | _, _ => true

/-- `package_pins_match_their_updates`. A chain has a change, so it has a name. -/
def packagePinsMatchTheirUpdates (plan : SavedPlan) : Except PackageProblem Unit :=
  pinsMatch ExtensionChangePin.uid (fun pin => .change pin.name) (chains plan)
    (fun pin chain => chain.name == some pin.name && !chain.twice &&
      (chain.update.or chain.movement).map (·.1) == some pin.from_ &&
      (chain.movement.or chain.update).map (·.2) == some pin.to_ &&
      pin.before.definition == pin.from_ && pin.after.definition == pin.to_ && pathFits chain pin.path)
    plan.extensionChanges
    (fun uid chain => stepsFit chain && uid.kind == .extension && plan.ids.extensions[uid]? == chain.name &&
      chain.requires.all fun requires => requires.toList.all fun r => r != uid && (plan.changes.filterMap createStep).any (·.1 == r))
    fun _ chain => .change (chain.name.getD "")

/-! ## One to one -/

def OneToOne {T : Type} [BEq T] (a b : List T) : Prop := (∀ x ∈ a, b.count x = 1) ∧ ∀ x ∈ b, a.count x = 1

def packageOf (s : PackageStep) : Uid × ObjectLocalName × Extension := (s.1, s.2.1, s.2.2.1)

section OneToOne

variable {P : Type} {uid : P → Uid} {k : P → Uid × ObjectLocalName × Extension} {steps : List PackageStep} {pins : List P}
  {fits : P → ObjectLocalName × Extension × ExtTreeSet Uid → Bool} {stepFits : Uid → ObjectLocalName × Extension × ExtTreeSet Uid → Bool}

/-- A check gathers the steps by uid, so what it says of the gathered ones holds of all exactly if no uid has two. -/
theorem oneToOne_iff (hm : Matched uid (.ofList steps) fits pins stepFits) (hkey : ∀ pin, (k pin).1 = uid pin)
    (hfits : ∀ pin step, fits pin step = true → (step.1, step.2.1) = (k pin).2) :
    OneToOne (steps.map packageOf) (pins.map k) ↔ (steps.map (·.1)).Nodup := by
  have hfst : (steps.map packageOf).map (·.1) = steps.map (·.1) := by rw [List.map_map]; rfl
  have hpins : ((pins.map k).map (·.1)).Nodup := by
    rw [List.map_map]
    exact (map_congr_left fun pin _ => (hkey pin).symm) ▸ hm.nodup
  constructor
  · rintro ⟨hsteps, hback⟩
    have hmem : ∀ x ∈ steps.map packageOf, x ∈ pins.map k := fun x hx => count_pos_iff.1 (by rw [hsteps x hx]; exact Nat.one_pos)
    have hnodup : (steps.map packageOf).Nodup := nodup_iff_count_le_one.2 fun x => by
      by_cases hx : x ∈ steps.map packageOf
      · exact (hback x (hmem x hx)).le
      · rw [count_eq_zero.2 hx]
        exact Nat.zero_le 1
    rw [← hfst]
    exact hnodup.map_on fun x hx y hy hxy => inj_on_of_nodup_map hpins (hmem x hx) (hmem y hy) hxy
  · intro hnodup
    have hsteps : (steps.map packageOf).Nodup := .of_map _ (hfst ▸ hnodup)
    refine ⟨fun x hx => count_eq_one_of_mem (.of_map _ hpins) ?_, fun x hx => count_eq_one_of_mem hsteps ?_⟩
    · obtain ⟨s, hs, rfl⟩ := List.mem_map.1 hx
      obtain ⟨hpin, -⟩ := hm.pinned s.1 s.2 ((getElem?_ofList_eq_some hnodup).2 hs)
      obtain ⟨pin, hpin, hu⟩ := List.mem_map.1 hpin
      obtain ⟨step, hstep, hfit⟩ := hm.fitted pin hpin
      rw [hu, (getElem?_ofList_eq_some hnodup).2 hs, some.injEq] at hstep
      subst hstep
      exact List.mem_map.2 ⟨pin, hpin, Prod.ext ((hkey pin).trans hu) (hfits pin _ hfit).symm⟩
    · obtain ⟨pin, hpin, rfl⟩ := List.mem_map.1 hx
      obtain ⟨step, hstep, hfit⟩ := hm.fitted pin hpin
      refine List.mem_map.2 ⟨(uid pin, step), mem_of_getElem?_ofList hstep, ?_⟩
      exact Prod.ext (hkey pin).symm (hfits pin step hfit)

end OneToOne

/-! ## Chains of changes -/

def updateOf (s : ChangeStep) : Option (Extension × Extension) := if s.2.2.2.isSome then some s.2.2.1 else none

def moveOf (s : ChangeStep) : Option (Extension × Extension) := if s.2.2.2.isSome then none else some s.2.2.1

/-- A chain holds these changes: at most one of either kind, all of one name. -/
structure Chain.Holds (chain : Chain) (steps : List ChangeStep) : Prop where
  update : chain.update.toList = steps.filterMap updateOf
  movement : chain.movement.toList = steps.filterMap moveOf
  name : ∀ s ∈ steps, chain.name = some s.2.1
  named : chain.name.isSome → steps ≠ []

def Chain.addStep (chain : Chain) (s : ChangeStep) : Chain := chain.add s.2.1 s.2.2.1 s.2.2.2

theorem Chain.Holds.add {chain : Chain} {steps : List ChangeStep} {s : ChangeStep} (h : chain.twice = false → chain.Holds steps)
    (hone : (chain.addStep s).twice = false) : (chain.addStep s).Holds (steps ++ [s]) := by
  obtain ⟨uid, name, step, requires⟩ := s
  simp only [addStep, Chain.add, Bool.or_eq_false_iff] at hone
  obtain ⟨⟨htwice, hslot⟩, hname⟩ := hone
  have hh := h htwice
  have hsame : ∀ s ∈ steps ++ [(uid, name, step, requires)], some name = some s.2.1 := by
    intro s hs
    rcases mem_append.1 hs with hs | hs
    · rw [hh.name s hs] at hname
      simpa using (by simpa using hname : s.2.1 = name).symm
    · rw [mem_singleton.1 hs]
  cases requires with
  | none =>
    have hnone : chain.movement = none := by simpa using hslot
    have hempty : steps.filterMap moveOf = [] := by rw [← hh.movement, hnone]; rfl
    exact ⟨by simp [addStep, Chain.add, updateOf, hh.update], by simp [addStep, Chain.add, moveOf, hempty], hsame, by simp⟩
  | some requires =>
    have hnone : chain.update = none := by simpa using hslot
    have hempty : steps.filterMap updateOf = [] := by rw [← hh.update, hnone]; rfl
    exact ⟨by simp [addStep, Chain.add, updateOf, hempty], by simp [addStep, Chain.add, moveOf, hh.movement], hsame, by simp⟩

theorem holds_foldl (steps : List ChangeStep) :
    (steps.foldl Chain.addStep {}).twice = false → (steps.foldl Chain.addStep {}).Holds steps := by
  induction steps using reverseRecOn with
  | nil => exact fun _ => ⟨rfl, rfl, by simp, by simp⟩
  | append_singleton steps s ih =>
    rw [foldl_append]
    exact Chain.Holds.add ih

theorem getD_foldl_gather (u : Uid) : ∀ (l : List ChangeStep) (m : ExtTreeMap Uid Chain),
    (l.foldl gather m).getD u {} = (l.filter (·.1 = u)).foldl Chain.addStep (m.getD u {})
  | [], _ => rfl
  | s :: l, m => by
    rw [foldl_cons, getD_foldl_gather u l (gather m s), gather, getD_insert]
    by_cases hs : s.1 = u
    · rw [if_pos (by rw [hs]; exact Std.ReflOrd.compare_self), filter_cons_of_pos (by simpa using hs), foldl_cons, hs]
      rfl
    · rw [if_neg fun heq => hs (Std.LawfulEqOrd.eq_of_compare heq), filter_cons_of_neg (by simpa using hs)]

theorem mem_foldl_gather (u : Uid) : ∀ (l : List ChangeStep) (m : ExtTreeMap Uid Chain),
    u ∈ l.foldl gather m ↔ u ∈ m ∨ u ∈ l.map (·.1)
  | [], _ => by simp
  | s :: l, m => by
    rw [foldl_cons, mem_foldl_gather u l (gather m s), gather, mem_insert, Std.LawfulEqOrd.compare_eq_iff_eq,
      map_cons, mem_cons]
    tauto

theorem getElem?_chains {plan : SavedPlan} {u : Uid} {chain : Chain} : (chains plan)[u]? = some chain ↔
    u ∈ (plan.changes.filterMap changeStep).map (·.1) ∧
      chain = ((plan.changes.filterMap changeStep).filter (·.1 = u)).foldl Chain.addStep {} := by
  have hgetD := getD_foldl_gather u (plan.changes.filterMap changeStep) ∅
  have hmem := mem_foldl_gather u (plan.changes.filterMap changeStep) ∅
  rw [getD_empty] at hgetD
  rw [← hgetD, ← (show u ∈ chains plan ↔ _ from hmem.trans (or_iff_right not_mem_empty))]
  constructor
  · intro h
    refine ⟨mem_of_getElem?_eq h, ?_⟩
    rw [chains] at h
    rw [getD_eq_getD_getElem?, h]
    rfl
  · rintro ⟨h, rfl⟩
    obtain ⟨chain, hc⟩ := mem_iff_exists.1 h
    rw [hc, getD_eq_getD_getElem?]
    rw [chains] at hc
    rw [hc]
    rfl

/-! ## The evidence -/

/-- Steps that start here, each where the one before ends, and end there. -/
def Leads : Extension → List (Extension × Extension) → Extension → Prop
  | start, [], stop => start = stop
  | start, s :: rest, stop => s.1 = start ∧ Leads s.2 rest stop

def createSteps (plan : SavedPlan) : List PackageStep := plan.changes.filterMap createStep
def dropSteps (plan : SavedPlan) : List PackageStep := plan.changes.filterMap dropStep
def changeSteps (plan : SavedPlan) : List ChangeStep := plan.changes.filterMap changeStep

def stepsOf (plan : SavedPlan) (uid : Uid) : List ChangeStep := (changeSteps plan).filter (·.1 = uid)

/-- Every package step has its own evidence: the pins and the steps correspond, the changes of a package lead from where its one
pin starts to where it ends, and no package is in two of the families. -/
structure OwnEvidence (plan : SavedPlan) : Prop where
  creates : OneToOne ((createSteps plan).map packageOf) (plan.extensionPins.map fun pin => (pin.uid, pin.name, pin.definition))
  drops : OneToOne ((dropSteps plan).map packageOf) (plan.extensionDrops.map fun pin => (pin.uid, pin.name, pin.definition))
  changes : ∀ uid ∈ (changeSteps plan).map (·.1), ∃ pin, plan.extensionChanges.filter (·.uid = uid) = [pin] ∧
    ((stepsOf plan uid).filterMap updateOf).length ≤ 1 ∧ ((stepsOf plan uid).filterMap moveOf).length ≤ 1 ∧
    (∀ s ∈ stepsOf plan uid, s.2.1 = pin.name) ∧
    Leads pin.from_ ((stepsOf plan uid).filterMap updateOf ++ (stepsOf plan uid).filterMap moveOf) pin.to_
  pinned : ∀ pin ∈ plan.extensionChanges, pin.uid ∈ (changeSteps plan).map (·.1)
  createdNotDropped : ∀ uid ∈ (createSteps plan).map (·.1), uid ∉ (dropSteps plan).map (·.1)
  createdNotChanged : ∀ uid ∈ (createSteps plan).map (·.1), uid ∉ (changeSteps plan).map (·.1)
  droppedNotChanged : ∀ uid ∈ (dropSteps plan).map (·.1), uid ∉ (changeSteps plan).map (·.1)

variable {plan : SavedPlan} {uid : Uid}

theorem created_live (hc : packagePinsMatchTheirCreates plan = .ok ()) (hu : uid ∈ (createSteps plan).map (·.1)) :
    uid ∈ plan.ids.extensions := by
  obtain ⟨s, hs, rfl⟩ := List.mem_map.1 hu
  obtain ⟨step, hstep⟩ := ne_none_iff_exists'.1 (getElem?_ofList_ne_none hs)
  have hfit := ((matched_of_pinsMatch hc).pinned s.1 step hstep).2
  simp only [and_eq_true, beq_iff_eq] at hfit
  exact mem_of_getElem?_eq hfit.1.2

theorem dropped_dead (hd : packagePinsMatchTheirDrops plan = .ok ()) (hu : uid ∈ (dropSteps plan).map (·.1)) :
    uid ∉ plan.ids.extensions := by
  obtain ⟨s, hs, rfl⟩ := List.mem_map.1 hu
  obtain ⟨step, hstep⟩ := ne_none_iff_exists'.1 (getElem?_ofList_ne_none hs)
  have hfit := ((matched_of_pinsMatch hd).pinned s.1 step hstep).2
  simp only [and_eq_true, not_eq_true'] at hfit
  rw [← ExtTreeMap.contains_iff_mem, hfit.1.2]
  exact Bool.false_ne_true

theorem leads_of_fits {chain : Chain} {pin : ExtensionChangePin} (hfits : stepsFit chain = true)
    (hfrom : (chain.update.or chain.movement).map (·.1) = some pin.from_)
    (hto : (chain.movement.or chain.update).map (·.2) = some pin.to_) :
    Leads pin.from_ (chain.update.toList ++ chain.movement.toList) pin.to_ := by
  simp only [stepsFit, and_eq_true] at hfits
  cases hupdate : chain.update with
  | none =>
    cases hmovement : chain.movement with
    | none => rw [hupdate, hmovement] at hfrom; cases hfrom
    | some m =>
      rw [hupdate, hmovement] at hfrom hto
      exact ⟨some.inj hfrom, some.inj hto⟩
  | some s =>
    cases hmovement : chain.movement with
    | none =>
      rw [hupdate, hmovement] at hfrom hto
      exact ⟨some.inj hfrom, some.inj hto⟩
    | some m =>
      rw [hupdate, hmovement] at hfrom hto hfits
      exact ⟨some.inj hfrom, (beq_iff_eq.1 hfits.2).symm, some.inj hto⟩

theorem changed_evidence (hu : packagePinsMatchTheirUpdates plan = .ok ()) (huid : uid ∈ (changeSteps plan).map (·.1)) :
    uid ∈ plan.ids.extensions ∧ ∃ pin, plan.extensionChanges.filter (·.uid = uid) = [pin] ∧
      ((stepsOf plan uid).filterMap updateOf).length ≤ 1 ∧ ((stepsOf plan uid).filterMap moveOf).length ≤ 1 ∧
      (∀ s ∈ stepsOf plan uid, s.2.1 = pin.name) ∧
      Leads pin.from_ ((stepsOf plan uid).filterMap updateOf ++ (stepsOf plan uid).filterMap moveOf) pin.to_ := by
  have hm := matched_of_pinsMatch hu
  have hchain : (chains plan)[uid]? = some ((stepsOf plan uid).foldl Chain.addStep {}) := getElem?_chains.2 ⟨huid, rfl⟩
  obtain ⟨hpin, hfit⟩ := hm.pinned uid _ hchain
  obtain ⟨pin, hmem, rfl⟩ := List.mem_map.1 hpin
  obtain ⟨chain, hsame, hpinfit⟩ := hm.fitted pin hmem
  rw [hchain, some.injEq] at hsame
  simp only [hsame, and_eq_true, not_eq_true', beq_iff_eq] at hfit hpinfit
  obtain ⟨⟨⟨⟨⟨⟨hname, htwice⟩, hfrom⟩, hto⟩, -⟩, -⟩, -⟩ := hpinfit
  have hholds : chain.Holds (stepsOf plan pin.uid) := hsame ▸ holds_foldl _ (by rw [hsame]; exact htwice)
  have hlength : ∀ o : Option (Extension × Extension), o.toList.length ≤ 1 := fun o => by cases o <;> simp
  rw [← hholds.update, ← hholds.movement]
  refine ⟨mem_of_getElem?_eq (hfit.1.2.trans hname), pin, ?_, hlength _, hlength _, fun s hs => ?_,
    leads_of_fits hfit.1.1.1 hfrom hto⟩
  · have hnodup : (plan.extensionChanges.filter (·.uid = pin.uid)).Nodup := (Nodup.of_map _ hm.nodup).filter _
    refine perm_singleton.1 ((perm_ext_iff_of_nodup hnodup (nodup_singleton pin)).2 fun other => ?_)
    rw [List.mem_filter, decide_eq_true_eq, mem_singleton]
    constructor
    · exact fun h => inj_on_of_nodup_map hm.nodup h.1 hmem h.2
    · rintro rfl
      exact ⟨hmem, rfl⟩
  · have := hholds.name s hs
    rw [hname, some.injEq] at this
    exact this.symm

/-- A plan that the three checks admit has its own evidence for every package step exactly when no two creates and no two drops are
of one package, and no package that is created is changed. -/
theorem ownEvidence_iff (hc : packagePinsMatchTheirCreates plan = .ok ()) (hd : packagePinsMatchTheirDrops plan = .ok ())
    (hu : packagePinsMatchTheirUpdates plan = .ok ()) : OwnEvidence plan ↔
      ((createSteps plan).map (·.1)).Nodup ∧ ((dropSteps plan).map (·.1)).Nodup ∧
        ∀ uid ∈ (createSteps plan).map (·.1), uid ∉ (changeSteps plan).map (·.1) := by
  have hcreates := oneToOne_iff (k := fun pin : ExtensionPin => (pin.uid, pin.name, pin.definition)) (matched_of_pinsMatch hc)
    (fun _ => rfl) fun pin step hfit => by
      simp only [and_eq_true, beq_iff_eq] at hfit
      exact Prod.ext hfit.1.1.2 hfit.1.2
  have hdrops := oneToOne_iff (k := fun pin : ExtensionDropPin => (pin.uid, pin.name, pin.definition)) (matched_of_pinsMatch hd)
    (fun _ => rfl) fun pin step hfit => by
      simp only [and_eq_true, beq_iff_eq] at hfit
      exact Prod.ext hfit.1.1 hfit.1.2
  constructor
  · exact fun h => ⟨hcreates.1 h.creates, hdrops.1 h.drops, h.createdNotChanged⟩
  · rintro ⟨h1, h2, h3⟩
    refine ⟨hcreates.2 h1, hdrops.2 h2, fun uid huid => (changed_evidence hu huid).2, fun pin hpin => ?_, fun uid hin hout => ?_, h3,
      fun uid hin hout => ?_⟩
    · obtain ⟨chain, hchain, -⟩ := (matched_of_pinsMatch hu).fitted pin hpin
      exact (getElem?_chains.1 hchain).1
    · exact dropped_dead hd hout (created_live hc hin)
    · exact dropped_dead hd hin (changed_evidence hu hout).1

/-- A plan that creates one package, drops another, and updates and moves a third. -/
def packagePlan : SavedPlan where
  changes := [.createExtension ⟨"e_1"⟩ "hstore" ⟨"public", "1.8"⟩ ∅, .dropExtension ⟨"e_2"⟩ "cube" ⟨"ext", "1.0"⟩ ∅ ∅,
    .updateExtension ⟨"e_3"⟩ "citext" ⟨"ext", "1.4"⟩ ⟨"ext", "1.6"⟩ (.ofList [⟨"e_1"⟩] compare) ∅,
    .setExtensionSchema ⟨"e_3"⟩ "citext" ⟨"ext", "1.6"⟩ ⟨"public", "1.6"⟩ ∅]
  ids :=
    { extensions := (∅ : ExtTreeMap Uid ObjectLocalName).insert ⟨"e_1"⟩ "hstore" |>.insert ⟨"e_3"⟩ "citext"
      tombstones := (∅ : ExtTreeMap Uid Tombstone).insert ⟨"e_2"⟩
        { was := "cube", droppedAt := "2026-11-02", reason := "retired", operator := "ops" } }
  extensionPins := [⟨⟨"e_1"⟩, "hstore", ⟨"public", "1.8"⟩, ⟨⟨"public", "1.8"⟩⟩⟩]
  extensionDrops := [⟨⟨"e_2"⟩, "cube", ⟨"ext", "1.0"⟩, ⟨⟨"ext", "1.0"⟩⟩⟩]
  extensionChanges := [⟨⟨"e_3"⟩, "citext", ⟨"ext", "1.4"⟩, ⟨"public", "1.6"⟩, ["1.4", "1.5", "1.6"], ⟨⟨"ext", "1.4"⟩⟩,
    ⟨⟨"public", "1.6"⟩⟩⟩]

theorem ownEvidence_iff_packagePlan : OwnEvidence packagePlan ↔
    ((createSteps packagePlan).map (·.1)).Nodup ∧ ((dropSteps packagePlan).map (·.1)).Nodup ∧
      ∀ uid ∈ (createSteps packagePlan).map (·.1), uid ∉ (changeSteps packagePlan).map (·.1) :=
  ownEvidence_iff (by decide) (by decide) (by decide)

/-- Two creates of one package at two versions, of which the second has a pin. -/
def createdTwice : SavedPlan where
  changes := [.createExtension ⟨"e_1"⟩ "hstore" ⟨"public", "1.4"⟩ ∅, .createExtension ⟨"e_1"⟩ "hstore" ⟨"public", "1.8"⟩ ∅]
  ids := { extensions := (∅ : ExtTreeMap Uid ObjectLocalName).insert ⟨"e_1"⟩ "hstore" }
  extensionPins := [⟨⟨"e_1"⟩, "hstore", ⟨"public", "1.8"⟩, ⟨⟨"public", "1.8"⟩⟩⟩]

theorem createdTwice_admitted : packagePinsMatchTheirCreates createdTwice = .ok () ∧
    packagePinsMatchTheirDrops createdTwice = .ok () ∧ packagePinsMatchTheirUpdates createdTwice = .ok () ∧
      ¬ OwnEvidence createdTwice := by
  refine ⟨by decide, by decide, by decide, fun h => ?_⟩
  have hcount := h.creates.1 (⟨"e_1"⟩, "hstore", ⟨"public", "1.4"⟩) (by decide)
  revert hcount
  decide

end Pbps.Saved
