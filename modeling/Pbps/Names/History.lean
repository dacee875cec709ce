/-
The name histories of one namespace: the `Transition`, `Timeline` and `History` of `pbps-model`'s
`plan_names.rs`. A uid's timeline of names and a name's timeline of holders are written side by side,
and a history that comes back has replayed every event it was given.
-/
import Pbps.Lib.Map
import Pbps.Lib.Check
import Pbps.Lib.Timeline
import Pbps.Model.Ids

namespace Pbps.Names

open Std (ExtTreeMap ExtTreeSet)
open List Option Std.ExtTreeMap

/-! ## Events and errors -/

/-- One identity's name before and after a step. -/
structure Transition (A : Type) where
  step : Nat
  uid : Uid
  before : Option A
  after : Option A
  deriving DecidableEq, Repr

/-- Whether a plan knows the managed holder of an address. -/
inductive Holder where
  | tracked (uid : Uid)
  | unmanaged
  | vacant
  deriving DecidableEq, Repr

/-- An address of one of the namespaces, as an error shows it. -/
inductive Address where
  | table (name : TableName)
  | column (owner : Uid) (name : ColumnName)
  | role (name : RoleName)
  | type (name : TypeRef)
  deriving DecidableEq, Repr

/-- Why a plan's names do not add up. -/
inductive PlanNamesError where
  | ids (why : IdsError)
  | kind (label : String) (uid : Uid)
  | source (label : String) (uid : Uid) (expected : Option Address) (step : Nat)
  | collision (label : String) (address : Address) (a b : Uid) (boundary : Nat)
  | end_ (label : String)
  | owner (column : ColumnRef) (step : Nat)
  | columnOwner (uid : Uid)
  deriving DecidableEq, Repr

/-- What errors call a namespace, and how they show its addresses. -/
structure Namespace (A : Type) where
  label : String
  shown : A → Address

/-! ## The two timelines -/

/-- The names of every uid and the holders of every address. -/
structure History (A : Type) [Ord A] where
  names : ExtTreeMap Uid (Timeline A)
  holders : ExtTreeMap A (Timeline Uid)

/-- `entry(k).or_default().push(e)`. -/
def push {K V : Type} [Ord K] [Std.TransOrd K] (m : ExtTreeMap K (Timeline V)) (k : K) (e : Nat × Option V) :
    ExtTreeMap K (Timeline V) :=
  m.insert k (m[k]?.getD [] ++ [e])

namespace History

variable {A : Type} [Ord A] [Std.TransOrd A] [DecidableEq A]

variable (ns : Namespace A) (h : History A) (uid : Uid)

def name (boundary : Nat) : Option A := h.names[uid]?.bind (·.valueAt boundary)

def holder (address : A) (boundary : Nat) : Holder :=
  match h.holders[address]? with
  | none => .unmanaged
  | some history =>
    match history.valueAt boundary with
    | some uid => .tracked uid
    | none => .vacant

def occupant (address : Option A) (boundary : Nat) : Option (A × Uid) :=
  address.bind fun a =>
    match h.holder a boundary with
    | .tracked other => if other ≠ uid then some (a, other) else none
    | .unmanaged => none
    | .vacant => none

def vacate (boundary : Nat) : ExtTreeMap A (Timeline Uid) :=
  match h.name uid boundary with
  | some old => push h.holders old (boundary, none)
  | none => h.holders

/-- The holders once the uid has left its old address and taken the new one. -/
def rehold (address : Option A) (boundary : Nat) : ExtTreeMap A (Timeline Uid) :=
  match address with
  | some a => push (h.vacate uid boundary) a (boundary, some uid)
  | none => h.vacate uid boundary

def set (address : Option A) (boundary : Nat) :
    Except PlanNamesError (History A) :=
  match h.occupant uid address boundary with
  | some (a, other) => throw (.collision ns.label (ns.shown a) other uid boundary)
  | none => pure ⟨push h.names uid (boundary, address), h.rehold uid address boundary⟩

/-- One event: its uid has the name the event starts from, and takes the one it ends with. -/
def play (e : Transition A) : Except PlanNamesError (History A) :=
  if h.name e.uid e.step ≠ e.before then throw (.source ns.label e.uid (e.before.map ns.shown) e.step)
  else if e.before ≠ e.after then set ns h e.uid e.after (e.step + 1)
  else pure h

def playAll (ns : Namespace A) : History A → List (Transition A) → Except PlanNamesError (History A)
  | h, [] => pure h
  | h, e :: rest => do playAll ns (← play ns h e) rest

def begin_ (address : Option A) :
    Except PlanNamesError (History A) :=
  set ns { h with names := h.names.insert uid [(0, none)] } uid address 0

def beginAll (ns : Namespace A) : History A → List (Uid × Option A) → Except PlanNamesError (History A)
  | h, [] => pure h
  | h, (uid, address) :: rest => do beginAll ns (← begin_ ns h uid address) rest

/-- Every address an event names, so that a vacated name is told from one nothing is known of. -/
def reserved (events : List (Transition A)) : ExtTreeMap A (Timeline Uid) :=
  (events.flatMap fun e => e.before.toList ++ e.after.toList).foldl (fun m a => m.insertIfNew a [(0, none)]) ∅

def ends : ExtTreeMap Uid A := h.names.filterMap fun _ t => t.final

def fromInitial (events : List (Transition A)) (after : ExtTreeMap Uid A) (initial : ExtTreeMap Uid (Option A)) :
    Except PlanNamesError (History A) := do
  let h ← beginAll ns ⟨∅, reserved events⟩ initial.toList
  let h ← playAll ns h events
  if h.ends ≠ after then throw (.end_ ns.label)
  pure h

/-- What the first event of each uid starts from, or the final name of a uid without events. -/
def seeds (events : List (Transition A)) (after : ExtTreeMap Uid A) : ExtTreeMap Uid (Option A) :=
  after.toList.foldl (fun m e => m.insertIfNew e.1 (some e.2))
    (events.foldl (fun m e => m.insertIfNew e.uid e.before) ∅)

def of (kind : UidKind) (events : List (Transition A)) (after : ExtTreeMap Uid A) :
    Except PlanNamesError (History A) := do
  events.forM fun e => if e.uid.kind ≠ kind then throw (.kind ns.label e.uid) else pure ()
  fromInitial ns events after (seeds events after)

end History

/-! ## Maps of timelines -/

section Timelines

variable {K V : Type} [Ord K] [Std.TransOrd K] {m : ExtTreeMap K (Timeline V)} {k a : K} {v : Option V} {b c : Nat}

def reads (m : ExtTreeMap K (Timeline V)) (k : K) (b : Nat) : Option V := m[k]?.bind (·.valueAt b)

/-- No entry of the map is later than `b`. -/
def MapUpTo (m : ExtTreeMap K (Timeline V)) (b : Nat) : Prop :=
  ∀ (k : K) (t : Timeline V), m[k]? = some t → t.UpTo b

theorem MapUpTo.mono (hb : MapUpTo m b) (hbc : b ≤ c) : MapUpTo m c := fun k t ht => (hb k t ht).mono hbc

theorem MapUpTo.getD (hb : MapUpTo m b) (k : K) : Timeline.UpTo (m[k]?.getD []) b := by
  cases hk : m[k]? with
  | none => intro e he; cases he
  | some t => exact hb k t hk

theorem reads_getD (k : K) : Timeline.valueAt (m[k]?.getD []) b = reads m k b := by
  unfold reads
  cases m[k]? <;> rfl

theorem reads_eq_of_le (hb : MapUpTo m b) (hbc : b ≤ c) : reads m k c = reads m k b := by
  rw [← reads_getD, ← reads_getD, Timeline.valueAt_eq_of_le (hb.getD k) hbc]

variable [Std.LawfulEqOrd K] [DecidableEq K]

theorem getElem?_push : (push m k (b, v))[a]? = if a = k then some (m[k]?.getD [] ++ [(b, v)]) else m[a]? := by
  split
  · next h => subst h; exact getElem?_insert_self
  · next h => exact getElem?_insert_of_ne h

theorem MapUpTo.push (hb : MapUpTo m b) : MapUpTo (push m k (b, v)) b := by
  intro a t ht
  rw [getElem?_push] at ht
  split at ht
  · cases ht; exact (hb.getD k).push
  · exact hb a t ht

theorem reads_push_of_lt (hcb : c < b) : reads (push m k (b, v)) a c = reads m a c := by
  rw [reads, getElem?_push]
  split
  · next h =>
    subst h
    rw [bind_some, Timeline.valueAt_push_of_lt hcb, reads_getD]
  · rfl

theorem reads_push_of_le (hb : MapUpTo m b) (hbc : b ≤ c) : reads (push m k (b, v)) a c = if a = k then v else reads m a c := by
  rw [reads, getElem?_push]
  split
  · rw [bind_some, Timeline.valueAt_push_of_le (hb.getD k) hbc]
  · rfl

end Timelines

namespace History

variable {A : Type} [Ord A] [Std.TransOrd A] {ns : Namespace A} {h h' : History A} {u uid : Uid} {a : A}
  {address : Option A} {b c t : Nat}

/-! ## Names and holders in step -/

def holding (h : History A) (a : A) (b : Nat) : Option Uid := reads h.holders a b

theorem holder_eq_tracked : h.holder a b = .tracked u ↔ h.holding a b = some u := by
  unfold holder holding reads
  cases h.holders[a]? with
  | none => simp
  | some t =>
    rw [bind_some]
    rcases hv : t.valueAt b with _ | v <;> simp [hv]

/-- `holder` and `name` are each other's inverse at a boundary. -/
def Inverse (h : History A) (b : Nat) : Prop := ∀ u a, h.holder a b = .tracked u ↔ h.name u b = some a

/-- No entry of either timeline is later than `t`, and the two agree at every boundary. -/
structure InStep (h : History A) (t : Nat) : Prop where
  names : MapUpTo h.names t
  holders : MapUpTo h.holders t
  inverse : ∀ b, h.Inverse b

theorem InStep.mono (hw : h.InStep b) (hbc : b ≤ c) : h.InStep c :=
  ⟨hw.names.mono hbc, hw.holders.mono hbc, hw.inverse⟩

theorem InStep.holding_iff (hw : h.InStep t) : h.holding a b = some u ↔ h.name u b = some a := by
  rw [← holder_eq_tracked]
  exact hw.inverse b u a

theorem occupant_eq_none : h.occupant uid address b = none ↔ ∀ a, address = some a → ∀ o, h.holding a b = some o → o = uid := by
  unfold occupant
  cases address with
  | none => simp
  | some a =>
    rw [bind_some]
    cases hh : h.holder a b with
    | tracked other =>
      have := holder_eq_tracked.1 hh
      simp only [ite_not, ite_eq_left_iff, reduceCtorEq, imp_false, not_not, some.injEq]
      constructor
      · rintro rfl a' rfl o ho; rw [this] at ho; cases ho; rfl
      · intro hf; exact hf a rfl other this
    | unmanaged =>
      refine iff_of_true rfl fun a' ha o ho => ?_
      cases ha; rw [← holder_eq_tracked, hh] at ho; cases ho
    | vacant =>
      refine iff_of_true rfl fun a' ha o ho => ?_
      cases ha; rw [← holder_eq_tracked, hh] at ho; cases ho

theorem set_eq_ok : set ns h uid address b = .ok h' ↔ (∀ a, address = some a → ∀ o, h.holding a b = some o → o = uid) ∧
      h' = ⟨push h.names uid (b, address), h.rehold uid address b⟩ := by
  rw [← occupant_eq_none, set]
  cases h.occupant uid address b with
  | none => simp [pure, Except.pure, eq_comm]
  | some o => simp [throw, throwThe, MonadExceptOf.throw]

section Set

variable [Std.LawfulEqOrd A] [DecidableEq A]

theorem reads_vacate (hw : MapUpTo h.holders b) (uid : Uid) : MapUpTo (h.vacate uid b) b ∧ ∀ a c, reads (h.vacate uid b) a c =
      if c < b then h.holding a c else if h.name uid b = some a then none else h.holding a c := by
  unfold vacate
  cases hn : h.name uid b with
  | none => exact ⟨hw, fun a c => by simp [holding]⟩
  | some y =>
    refine ⟨hw.push, fun a c => ?_⟩
    by_cases hc : c < b
    · rw [if_pos hc]
      exact reads_push_of_lt hc
    · rw [if_neg hc]
      dsimp only
      rw [reads_push_of_le hw (by omega)]
      simp only [holding, some.injEq, eq_comm]

theorem reads_rehold (hw : MapUpTo h.holders b) (uid : Uid) (address : Option A) :
    MapUpTo (h.rehold uid address b) b ∧ ∀ a c, reads (h.rehold uid address b) a c =
      if c < b then h.holding a c else if address = some a then some uid else
        if h.name uid b = some a then none else h.holding a c := by
  obtain ⟨hup, hread⟩ := reads_vacate hw uid
  cases address with
  | none =>
    refine ⟨hup, fun a c => ?_⟩
    show reads (h.vacate uid b) a c = _
    rw [hread]
    simp only [reduceCtorEq, if_false]
  | some x =>
    refine ⟨hup.push, fun a c => ?_⟩
    show reads (push (h.vacate uid b) x (b, some uid)) a c = _
    by_cases hc : c < b
    · rw [reads_push_of_lt hc, hread, if_pos hc, if_pos hc]
    · rw [reads_push_of_le hup (by omega), hread, if_neg hc, if_neg hc]
      simp only [some.injEq, eq_comm]

/-- A uid that takes an address keeps the two timelines in step, and no other uid's name changes. -/
theorem set_inStep (hw : h.InStep b) (hs : set ns h uid address b = .ok h') :
    h'.InStep b ∧ ∀ u c, h'.name u c = if b ≤ c ∧ u = uid then address else h.name u c := by
  obtain ⟨hfree, rfl⟩ := set_eq_ok.1 hs
  obtain ⟨hup, hread⟩ := reads_rehold hw.holders uid address
  have hname : ∀ u c, reads (push h.names uid (b, address)) u c = if b ≤ c ∧ u = uid then address else h.name u c := by
    intro u c
    by_cases hc : b ≤ c
    · rw [reads_push_of_le hw.names hc]
      simp only [hc, true_and]
      rfl
    · rw [reads_push_of_lt (by omega), if_neg fun hx => hc hx.1]
      rfl
  refine ⟨⟨hw.names.push, hup, fun c u a => ?_⟩, hname⟩
  rw [holder_eq_tracked]
  show reads (h.rehold uid address b) a c = some u ↔ reads (push h.names uid (b, address)) u c = some a
  rw [hread, hname]
  by_cases hc : c < b
  · rw [if_pos hc, if_neg fun hx => by omega]
    exact hw.holding_iff
  · rw [if_neg hc]
    have hbc : b ≤ c := by omega
    have hsame : h.name u c = h.name u b := reads_eq_of_le hw.names hbc
    have hold : h.holding a c = h.holding a b := reads_eq_of_le hw.holders hbc
    have hiff : ∀ v, h.holding a b = some v ↔ h.name v b = some a := fun v => hw.holding_iff
    by_cases hu : u = uid
    · subst hu
      have hnew : (if b ≤ c ∧ u = u then address else h.name u c) = address := if_pos ⟨hbc, rfl⟩
      rw [hnew]
      by_cases ha : address = some a
      · simp [ha]
      · rw [if_neg ha]
        refine iff_of_false ?_ ha
        split
        · simp
        · next hn => rw [hold, hiff]; exact hn
    · have hother : (if b ≤ c ∧ u = uid then address else h.name u c) = h.name u b :=
        (if_neg fun hx => hu hx.2).trans hsame
      rw [hother, ← hiff u]
      by_cases ha : address = some a
      · rw [if_pos ha]
        refine iff_of_false (fun hx => hu (some.inj hx).symm) fun hx => hu (hfree a ha u hx)
      · rw [if_neg ha]
        split
        · next hn =>
          refine iff_of_false (by simp) fun hx => hu ?_
          rw [(hiff uid).2 hn] at hx
          exact (some.inj hx).symm
        · rw [hold]

/-- One event played: its uid had the name the event starts from, and has from there on the name it ends with. -/
theorem play_inStep {e : Transition A} (hw : h.InStep (e.step + 1)) (hp : play ns h e = .ok h') :
    h.name e.uid e.step = e.before ∧ h'.InStep (e.step + 1) ∧
      ∀ u c, h'.name u c = if e.before ≠ e.after ∧ e.step + 1 ≤ c ∧ u = e.uid then e.after else h.name u c := by
  unfold play at hp
  split at hp
  · cases hp
  · next hb =>
    refine ⟨not_not.1 hb, ?_⟩
    split at hp
    · next hne =>
      obtain ⟨h1, h2⟩ := set_inStep hw hp
      refine ⟨h1, fun u c => ?_⟩
      rw [h2]
      simp only [hne, ne_eq, not_false_eq_true, true_and]
    · next hne =>
      cases hp
      refine ⟨hw, fun u c => ?_⟩
      rw [if_neg fun hx => hne hx.1]

end Set

/-! ## What the events say -/

def Apart (e x : Transition A) : Prop := e.uid = x.uid → e.step ≠ x.step

def latest (initial : Uid → Option A) (events : List (Transition A)) (u : Uid) (b : Nat) : Option A :=
  (events.filter fun e => e.uid = u ∧ e.step < b).lastSays (·.after) (initial u)

section Latest

variable {initial : Uid → Option A} {l m : List (Transition A)} {e : Transition A}

omit [Ord A] [Std.TransOrd A]

theorem latest_append_of_le (hm : ∀ x ∈ m, x.uid = u → b ≤ x.step) : latest initial (l ++ m) u b = latest initial l u b := by
  have hno : (m.filter fun e => e.uid = u ∧ e.step < b) = [] := by
    refine filter_eq_nil_iff.2 fun x hx hd => ?_
    obtain ⟨h1, h2⟩ := of_decide_eq_true hd
    have := hm x hx h1
    omega
  rw [latest, filter_append, hno, append_nil, latest]

theorem latest_succ (hl : ∀ e ∈ l, e.uid = u → e.step ≠ b) : latest initial l u (b + 1) = latest initial l u b := by
  have hsame : (l.filter fun e => e.uid = u ∧ e.step < b + 1) = l.filter fun e => e.uid = u ∧ e.step < b := by
    refine filter_congr fun e he => decide_eq_decide.2 (and_congr_right fun hu => ?_)
    have := hl e he hu
    omega
  rw [latest, latest, hsame]

theorem latest_concat (he : e.uid = u) (hb : e.step < b) : latest initial (l ++ [e]) u b = e.after := by
  have hin : ([e].filter fun e => e.uid = u ∧ e.step < b) = [e] := by
    rw [filter_cons, if_pos (decide_eq_true ⟨he, hb⟩), filter_nil]
  rw [latest, filter_append, hin, lastSays_concat]

theorem latest_eq_of_le (hl : ∀ e ∈ l, e.step < b) (hbc : b ≤ c) : latest initial l u c = latest initial l u b := by
  have hsame : (l.filter fun e => e.uid = u ∧ e.step < c) = l.filter fun e => e.uid = u ∧ e.step < b := by
    refine filter_congr fun e he => decide_eq_decide.2 (and_congr_right fun _ => ?_)
    have := hl e he
    omega
  rw [latest, latest, hsame]

/-- After the step of one of its events, a uid has the name that event ends with. -/
theorem latest_after (hs : l.Pairwise fun x y => x.step ≤ y.step) (ha : l.Pairwise Apart) (he : e ∈ l) :
    latest initial l e.uid (e.step + 1) = e.after := by
  obtain ⟨pre, post, rfl⟩ := append_of_mem he
  have hafter : ∀ x ∈ post, x.uid = e.uid → e.step + 1 ≤ x.step := by
    intro x hx hu
    have h1 := rel_of_pairwise_cons (pairwise_append.1 hs).2.1 hx
    have h2 := rel_of_pairwise_cons (pairwise_append.1 ha).2.1 hx hu.symm
    omega
  rw [← singleton_append, ← append_assoc, latest_append_of_le hafter, latest_concat rfl (by omega)]

end Latest

end History

end Pbps.Names
