/-
The index of a plan's names is a replay of the plan: at every boundary `name` and `holder` are each
other's inverse, each change moves the identities it carries and no others, and the names at the end are
the final mapping.
-/
import Pbps.Names.Played
import Pbps.Names.Scopes

namespace Pbps.Names

open Std (ExtTreeMap ExtTreeSet)
open Pbps.Diff (Change)
open List Option Except Std.ExtTreeMap

/-! ## What one change does -/

/-- What every identity is called at one boundary. -/
structure Naming where
  tables : Uid → Option TableName
  columns : Uid → Option OwnedColumn
  roles : Uid → Option RoleName

/-- One identity goes from one name to another, and all others keep theirs. -/
def Moves {A : Type} (e : Transition A) (before after : Uid → Option A) : Prop :=
  before e.uid = e.before ∧ ∀ u, after u = if u = e.uid then e.after else before u

/-- What a change to a table does to the columns of the table: those whose scope it begins take names the
change carries, and those whose scope it ends lose theirs. -/
def Rescopes (owner : Uid) (life : ColumnLife) (before after : Uid → Option OwnedColumn) : Prop :=
  match life with
  | .keep => ∀ u, after u = before u
  | .begin_ columns => ∀ u, after u = before u ∨
      before u = none ∧ ∃ c, columns.contains c = true ∧ after u = some ⟨owner, c⟩
  | .end_ => ∀ u, after u = (before u).filter (·.owner ≠ owner)

def Under (tables : Uid → Option TableName) (column : Option ColumnRef) (address : Option OwnedColumn) : Prop :=
  match column with
  | none => address = none
  | some c => ∃ owner, tables owner = some c.table ∧ address = some ⟨owner, c.name⟩

/-- One change of a plan: the identities it carries go from and to the names it carries. -/
def Follows (x : IdentityChange) (s t : Naming) : Prop :=
  match x with
  | .table e life => Moves e s.tables t.tables ∧ Rescopes e.uid life s.columns t.columns ∧ ∀ u, t.roles u = s.roles u
  | .column e => (∀ u, t.tables u = s.tables u) ∧ (∀ u, t.roles u = s.roles u) ∧
      ∃ before after, Under s.tables e.before before ∧ Under s.tables e.after after ∧
        Moves ⟨e.step, e.uid, before, after⟩ s.columns t.columns
  | .role e => (∀ u, t.tables u = s.tables u) ∧ (∀ u, t.columns u = s.columns u) ∧ Moves e s.roles t.roles
  | .type _ => (∀ u, t.tables u = s.tables u) ∧ (∀ u, t.columns u = s.columns u) ∧ ∀ u, t.roles u = s.roles u
  | .other => (∀ u, t.tables u = s.tables u) ∧ (∀ u, t.columns u = s.columns u) ∧ ∀ u, t.roles u = s.roles u

/-- The names at one boundary. -/
def PlanNames.naming (n : PlanNames) (b : Nat) : Naming := ⟨(n.tables.name · b), (n.columns.name · b), (n.roles.name · b)⟩

/-! ## Steps of a history -/

namespace History.Replays

variable {A : Type} [Ord A] [Std.TransOrd A] {h : History A} {initial : Uid → Option A} {events : List (Transition A)}
  {after : ExtTreeMap Uid A} {N : Nat}

theorem stays (hr : h.Replays initial events after N) {u : Uid} {i : Nat} (hu : ∀ e ∈ events, e.uid = u → e.step ≠ i) :
    h.name u (i + 1) = h.name u i := by
  rw [hr.name, hr.name, latest_succ hu]

theorem moves (hr : h.Replays initial events after N) (hs : events.Pairwise fun x y => x.step ≤ y.step)
    (ha : events.Pairwise Apart) {e : Transition A} (he : e ∈ events) :
    h.name e.uid e.step = e.before ∧ h.name e.uid (e.step + 1) = e.after := by
  refine ⟨hr.before e he, ?_⟩
  rw [hr.name, latest_after hs ha he]

end History.Replays

section Single

variable {A : Type} [Ord A] [Std.TransOrd A] [Std.LawfulEqOrd A] [DecidableEq A] {ns : Namespace A} {kind : UidKind}
  {changes : List Change} {after : ExtTreeMap Uid A} {f : IdentityChange → Option (Transition A)} {h : History A}

omit [Ord A] [Std.TransOrd A] [Std.LawfulEqOrd A] [DecidableEq A] in
theorem apart_of_lt {l : List (Transition A)} (hl : l.Pairwise fun x y => x.step < y.step) : l.Pairwise History.Apart :=
  hl.imp fun hxy _ => hxy.ne

/-- A namespace whose events are the changes' own: each change moves the identity it carries. -/
theorem of_follows (hf : ∀ i x e, IdentityChange.At i x → f x = some e → e.step = i)
    (ho : History.of ns kind ((identityChanges changes).filterMap f) after = .ok h) :
    (∀ b, h.Inverse b) ∧ (∀ u : Uid, h.name u changes.length = after[u]?) ∧ ∀ i c, changes[i]? = some c →
        (∀ e, f (identityChange i c) = some e → Moves e (h.name · i) (h.name · (i + 1))) ∧
        (f (identityChange i c) = none → ∀ u, h.name u (i + 1) = h.name u i) := by
  obtain ⟨-, ho⟩ := bind_eq_ok.1 ho
  have hlt : ((identityChanges changes).filterMap f).Pairwise fun x y => x.step < y.step := events_pairwise hf
  have hle := hlt.imp fun hxy => hxy.le
  have hr := History.fromInitial_replays hle (apart_of_lt hlt) (fun e he => step_lt_of_mem hf he) ho
  refine ⟨hr.inverse, hr.final, fun i c hc => ⟨fun e he => ?_, fun hno u => ?_⟩⟩
  · obtain rfl : e.step = i := hf i _ e (identityChange_at i c) he
    have hmem := (mem_events hf).2 ⟨c, hc, he⟩
    obtain ⟨h1, h2⟩ := hr.moves hle (apart_of_lt hlt) hmem
    refine ⟨h1, fun u => ?_⟩
    by_cases hu : u = e.uid
    · rw [if_pos hu, hu]; exact h2
    · rw [if_neg hu]
      refine hr.stays fun x hx hxu hxs => hu ?_
      obtain ⟨c', hc', hx'⟩ := (mem_events hf).1 hx
      rw [hxs, hc] at hc'
      cases hc'
      rw [hxs, he] at hx'
      cases hx'
      exact hxu.symm
  · refine hr.stays fun x hx _ hxs => ?_
    obtain ⟨c', hc', hx'⟩ := (mem_events hf).1 hx
    rw [hxs, hc] at hc'
    cases hc'
    rw [hxs, hno] at hx'
    cases hx'

end Single

/-! ## Columns under their owners -/

section Owned

variable {tables : History TableName} {column : ColumnRef} {a : OwnedColumn} {b : Nat}

theorem owned_eq_ok (ht : tables.Inverse b) :
    owned tables column b = .ok a ↔ tables.name a.owner b = some column.table ∧ a.name = column.name := by
  obtain ⟨o, c⟩ := a
  rw [← ht o column.table, owned]
  cases tables.holder column.table b with
  | tracked uid => simp [pure, Except.pure]; exact fun _ => eq_comm
  | unmanaged => simp [throw, throwThe, MonadExceptOf.throw]
  | vacant => simp [throw, throwThe, MonadExceptOf.throw]

theorem ownedOption_under (ht : tables.Inverse b) {column : Option ColumnRef} {address : Option OwnedColumn}
    (h : ownedOption tables column b = .ok address) : Under (tables.name · b) column address := by
  cases column with
  | none => cases h; rfl
  | some c =>
    obtain ⟨a, ha, h⟩ := bind_eq_ok_iff.1 h
    cases h
    obtain ⟨h1, h2⟩ := (owned_eq_ok ht).1 ha
    exact ⟨a.owner, h1, by rw [← h2]⟩

theorem ownedEvent_under (ht : ∀ b, tables.Inverse b) {e : Transition ColumnRef} {x : Transition OwnedColumn}
    (h : ownedEvent tables e = .ok x) : x.step = e.step ∧ x.uid = e.uid ∧ Under (tables.name · e.step) e.before x.before ∧
      Under (tables.name · e.step) e.after x.after := by
  obtain ⟨before, h1, h⟩ := bind_eq_ok_iff.1 h
  obtain ⟨after, h2, h⟩ := bind_eq_ok_iff.1 h
  cases h
  exact ⟨rfl, rfl, ownedOption_under (ht _) h1, ownedOption_under (ht _) h2⟩

theorem columnsAfter_eq_some {total : Nat} {after : IdsFile} {final : ExtTreeMap Uid OwnedColumn} {u : Uid}
    (ht : tables.Inverse total) (h : columnsAfter tables total after = .ok final) : final[u]? = some a ↔
      ∃ r, after.columns[u]? = some r ∧ tables.name a.owner total = some r.table ∧ a.name = r.name := by
  obtain ⟨entries, he, h⟩ := bind_eq_ok_iff.1 h
  cases h
  have hall := mapM_eq_ok.1 he
  have hkeys : after.columns.toList.map Prod.fst = entries.map Prod.fst := by
    refine hall.map_eq fun e x hab => ?_
    obtain ⟨o, -, h⟩ := bind_eq_ok_iff.1 hab
    cases h
    rfl
  have hnd : (entries.map Prod.fst).Nodup := by
    rw [← hkeys, map_fst_toList_eq_keys]
    exact distinct_keys.imp fun hc he => hc (by rw [he]; exact Std.ReflOrd.compare_self)
  rw [getElem?_ofList_eq_some hnd]
  constructor
  · intro hu
    obtain ⟨⟨v, r⟩, hr, hab⟩ := hall.exists_of_mem_right hu
    obtain ⟨o, ho, h⟩ := bind_eq_ok_iff.1 hab
    cases h
    exact ⟨r, getElem?_of_mem_toList hr, (owned_eq_ok ht).1 ho⟩
  · rintro ⟨r, hr, hn⟩
    obtain ⟨⟨v, o⟩, ho, hab⟩ := hall.exists_of_mem_left (mem_toList_iff_getElem?_eq_some.2 hr)
    obtain ⟨o', ho', h⟩ := bind_eq_ok_iff.1 hab
    cases h
    rw [(owned_eq_ok ht).2 hn] at ho'
    cases ho'
    exact ho

end Owned

/-! ## Merged events -/

section Merged

variable {lives : Uid → Option OwnedColumn → Option OwnedColumn × List (Transition OwnedColumn)}
  {seeds : ExtTreeMap Uid (Option OwnedColumn)}

def sorted (lives : Uid → Option OwnedColumn → Option OwnedColumn × List (Transition OwnedColumn))
    (seeds : ExtTreeMap Uid (Option OwnedColumn)) : List (Transition OwnedColumn) :=
  (seeds.toList.flatMap fun (uid, seed) => (lives uid seed).2).insertionSort NoLater

instance {A : Type} : Std.Total (NoLater (A := A)) := ⟨fun a b => Nat.le_total a.step b.step⟩
instance {A : Type} : IsTrans (Transition A) NoLater := ⟨fun _ _ _ => Nat.le_trans⟩

theorem sorted_pairwise : (sorted lives seeds).Pairwise fun x y => x.step ≤ y.step :=
  pairwise_insertionSort NoLater _

variable (huid : ∀ u x, ∀ e ∈ (lives u x).2, e.uid = u)
include huid

theorem mem_sorted {e : Transition OwnedColumn} :
    e ∈ sorted lives seeds ↔ ∃ x, seeds[e.uid]? = some x ∧ e ∈ (lives e.uid x).2 := by
  rw [sorted, mem_insertionSort, mem_flatMap]
  constructor
  · rintro ⟨⟨u, x⟩, hx, he⟩
    obtain rfl := huid u x e he
    exact ⟨x, getElem?_of_mem_toList hx, he⟩
  · rintro ⟨x, hx, he⟩
    exact ⟨(e.uid, x), mem_toList_iff_getElem?_eq_some.2 hx, he⟩

variable (hlt : ∀ u x, (lives u x).2.Pairwise fun x y => x.step < y.step)
include hlt

theorem sorted_apart : (sorted lives seeds).Pairwise History.Apart := by
  have hmerged : (seeds.toList.flatMap fun (uid, seed) => (lives uid seed).2).Pairwise History.Apart := by
    rw [pairwise_flatMap]
    refine ⟨fun p _ => apart_of_lt (hlt p.1 p.2), ?_⟩
    refine distinct_keys_toList.imp fun {p q} hpq x hx y hy hxy => ?_
    refine absurd ?_ hpq
    rw [← huid _ _ x hx, ← huid _ _ y hy, hxy]
    exact Std.ReflOrd.compare_self
  exact hmerged.perm (perm_insertionSort _ _).symm fun h hu => (h hu.symm).symm

theorem filter_sorted {u : Uid} {x : Option OwnedColumn} (hx : seeds[u]? = some x) (b : Nat) :
    ((sorted lives seeds).filter fun e => e.uid = u ∧ e.step < b) = (lives u x).2.filter fun e => e.step < b := by
  have h1 : ((sorted lives seeds).filter fun e => e.uid = u ∧ e.step < b).Pairwise fun x y => x.step < y.step := by
    have hapart : (sorted lives seeds).Pairwise History.Apart := sorted_apart huid hlt
    have := (sorted_pairwise.and hapart).filter fun e => decide (e.uid = u ∧ e.step < b)
    refine this.imp_of_mem fun {p q} hp hq hpq => ?_
    have hpu : p.uid = u := (of_decide_eq_true (List.mem_filter.1 hp).2).1
    have hqu : q.uid = u := (of_decide_eq_true (List.mem_filter.1 hq).2).1
    exact lt_of_le_of_ne hpq.1 (hpq.2 (hpu.trans hqu.symm))
  have h2 : ((lives u x).2.filter fun e => e.step < b).Pairwise fun x y => x.step < y.step := (hlt u x).filter _
  have hperm : List.Perm ((sorted lives seeds).filter fun e => e.uid = u ∧ e.step < b)
      ((lives u x).2.filter fun e => e.step < b) := by
    refine (perm_ext_iff_of_nodup (h1.imp fun hxy he => ?_) (h2.imp fun hxy he => ?_)).2 fun e => ?_
    · rw [he] at hxy; exact lt_irrefl _ hxy
    · rw [he] at hxy; exact lt_irrefl _ hxy
    · rw [List.mem_filter, List.mem_filter, mem_sorted huid, decide_eq_true_eq, decide_eq_true_eq]
      constructor
      · rintro ⟨⟨y, hy, he⟩, rfl, hb⟩
        rw [hx] at hy
        cases hy
        exact ⟨he, hb⟩
      · rintro ⟨he, hb⟩
        obtain rfl := huid u x e he
        exact ⟨⟨x, hx, he⟩, rfl, hb⟩
  exact hperm.eq_of_pairwise (fun p q _ _ hpq hqp => absurd hpq (by omega)) h1 h2

end Merged

/-! ## The columns' history -/

/-- What is known of the columns: their events, each at the step of the change it comes from, under the
tables' names there; and one owner for each of them. -/
structure Known (changes : List Change) (tables : History TableName) (events : List (Transition OwnedColumn))
    (final : ExtTreeMap Uid OwnedColumn) (owners : ExtTreeMap Uid Uid) : Prop where
  claims : ownersOf events final = .ok owners
  ordered : events.Pairwise fun x y => x.step < y.step
  change : ∀ x ∈ events, ∃ c e, changes[x.step]? = some c ∧ identityChange x.step c = .column e ∧ e.uid = x.uid
  event : ∀ i c e, changes[i]? = some c → identityChange i c = .column e → ∃ x ∈ events, x.step = i ∧ x.uid = e.uid ∧
    Under (tables.name · i) e.before x.before ∧ Under (tables.name · i) e.after x.after

section Columns

variable {changes : List Change} {tables : History TableName} {after : IdsFile} {h : History OwnedColumn}
  {events : List (Transition OwnedColumn)} {final : ExtTreeMap Uid OwnedColumn} {owners : ExtTreeMap Uid Uid}

theorem known_of_ok (ht : ∀ b, tables.Inverse b) (ho : ownersOf events final = .ok owners)
    (he : ((identityChanges changes).filterMap (columnEvent ∅)).mapM (ownedEvent tables) = .ok events) :
    Known changes tables events final owners := by
  have hf : ∀ i x (e : Transition ColumnRef), IdentityChange.At i x → columnEvent ∅ x = some e → e.step = i :=
    fun i x e => columnEvent_at
  have hall := mapM_eq_ok.1 he
  have hsteps := hall.map_eq (f := Transition.step) (g := Transition.step) fun e x hx => (ownedEvent_under ht hx).1.symm
  refine ⟨ho, ?_, fun x hx => ?_, fun i c e hc hi => ?_⟩
  · have hlt : ((identityChanges changes).filterMap (columnEvent ∅)).Pairwise fun x y => x.step < y.step :=
      events_pairwise hf
    have := pairwise_map.2 hlt
    rw [hsteps] at this
    exact pairwise_map.1 this
  · obtain ⟨e, he, hx⟩ := hall.exists_of_mem_right hx
    obtain ⟨h1, h2, -, -⟩ := ownedEvent_under ht hx
    obtain ⟨c, hc, hi⟩ := (mem_events hf).1 he
    rw [h1, h2]
    exact ⟨c, e, hc, columnEvent_empty.1 hi, rfl⟩
  · obtain rfl : e.step = i := hf i _ e (identityChange_at i c) (columnEvent_empty.2 hi)
    have hmem := (mem_events hf).2 ⟨c, hc, columnEvent_empty.2 hi⟩
    obtain ⟨x, hx, hex⟩ := hall.exists_of_mem_left hmem
    obtain ⟨h1, h2, h3, h4⟩ := ownedEvent_under ht hex
    exact ⟨x, hx, h1, h2, h3, h4⟩

def scopesOf (changes : List Change) (owner : Uid) : List (Nat × ColumnLife) :=
  (identityChanges changes).filterMap (ownerEvent owner)

theorem mem_scopesOf {owner : Uid} {s : Nat × ColumnLife} : s ∈ scopesOf changes owner ↔
    ∃ c e, changes[s.1]? = some c ∧ identityChange s.1 c = .table e s.2 ∧ e.uid = owner ∧ s.2 ≠ .keep := by
  have hf : ∀ i x (s : Nat × ColumnLife), IdentityChange.At i x → ownerEvent owner x = some s → s.1 = i :=
    fun i x s => ownerEvent_at
  rw [scopesOf, mem_events hf]
  constructor
  · rintro ⟨c, hc, hs⟩
    obtain ⟨e, h1, -, h2, h3⟩ := ownerEvent_eq.1 hs
    exact ⟨c, e, hc, h1, h2, h3⟩
  · rintro ⟨c, e, hc, h1, h2, h3⟩
    refine ⟨c, hc, ownerEvent_eq.2 ⟨e, h1, ?_, h2, h3⟩⟩
    have := identityChange_at s.1 c
    rw [h1] at this
    exact this

theorem Known.inOrder (hk : Known changes tables events final owners) (u owner : Uid) :
    InOrder u (scopesOf changes owner) (events.filter (·.uid = u)) := by
  refine ⟨fun e he => of_decide_eq_true (List.mem_filter.1 he).2, ?_, hk.ordered.filter _, ?_⟩
  · exact events_pairwise fun i x s => ownerEvent_at
  · intro x hx s hs heq
    obtain ⟨c, e, hc, hi, -⟩ := hk.change x (List.mem_filter.1 hx).1
    obtain ⟨c', e', hc', hi', -⟩ := mem_scopesOf.1 hs
    rw [heq, hc'] at hc
    cases hc
    rw [heq, hi'] at hi
    cases hi

def livesOf (changes : List Change) (tables : History TableName) (events : List (Transition OwnedColumn))
    (final : ExtTreeMap Uid OwnedColumn) (owners : ExtTreeMap Uid Uid) :
    Uid → Option OwnedColumn → Option OwnedColumn × List (Transition OwnedColumn) :=
  columnScopes changes.length tables (scopesOf changes) owners events final

section

variable (hk : Known changes tables events final owners)
include hk

theorem Known.lives_uid (u : Uid) (x : Option OwnedColumn) :
    ∀ e ∈ (livesOf changes tables events final owners u x).2, e.uid = u :=
  fun e he => (mem_mergeScopes (hk.inOrder u owners[u]!).uids e he).1

theorem Known.lives_pairwise (u : Uid) (x : Option OwnedColumn) :
    (livesOf changes tables events final owners u x).2.Pairwise fun x y => x.step < y.step :=
  mergeScopes_pairwise (hk.inOrder u _)

theorem Known.mem_lives {u : Uid} {x : Option OwnedColumn} {e : Transition OwnedColumn}
    (he : e ∈ (livesOf changes tables events final owners u x).2) :
    e ∈ events ∨ ∃ c t life, changes[e.step]? = some c ∧ identityChange e.step c = .table t life ∧
      t.uid = owners[u]! ∧ GivenBy final[u]? (events.filter (·.uid = u)) life e := by
  obtain ⟨-, he | ⟨life, hs, hg⟩⟩ := mem_mergeScopes (hk.inOrder u owners[u]!).uids e he
  · exact Or.inl (List.mem_filter.1 he).1
  · obtain ⟨c, t, hc, hi, ht, -⟩ := mem_scopesOf.1 hs
    exact Or.inr ⟨c, t, life, hc, hi, ht, hg⟩

end

def startsOf (changes : List Change) (tables : History TableName) (events : List (Transition OwnedColumn))
    (final : ExtTreeMap Uid OwnedColumn) (owners : ExtTreeMap Uid Uid) : ExtTreeMap Uid (Option OwnedColumn) :=
  (History.seeds events final).map fun u x => (livesOf changes tables events final owners u x).1

/-- The history of the columns, from its parts. -/
structure ColumnReplay (changes : List Change) (tables : History TableName) (events : List (Transition OwnedColumn))
    (final : ExtTreeMap Uid OwnedColumn) (owners : ExtTreeMap Uid Uid) (h : History OwnedColumn) : Prop
    extends Known changes tables events final owners where
  replays : h.Replays (fun u => (startsOf changes tables events final owners)[u]?.join)
    (sorted (livesOf changes tables events final owners) (History.seeds events final)) final changes.length

theorem columnReplay_of_ok (ht : ∀ b, tables.Inverse b)
    (hc : PlanNames.columnHistory (identityChanges changes) tables after ∅ = .ok h) :
    ∃ events final owners, columnsAfter tables changes.length after = .ok final ∧
      ColumnReplay changes tables events final owners h := by
  have hlen : (identityChanges changes).length = changes.length := by
    rw [identityChanges, length_map, length_zipIdx]
  obtain ⟨final, hfinal, hc⟩ := bind_eq_ok_iff.1 hc
  obtain ⟨events, hevents, hc⟩ := bind_eq_ok_iff.1 hc
  obtain ⟨owners, howners, hc⟩ := bind_eq_ok_iff.1 hc
  obtain ⟨-, hc⟩ := bind_eq_ok.1 hc
  rw [hlen] at hfinal hc
  have hk := known_of_ok ht howners hevents
  refine ⟨events, final, owners, hfinal, hk, ?_⟩
  refine History.fromInitial_replays sorted_pairwise (sorted_apart hk.lives_uid hk.lives_pairwise) (fun e he => ?_) hc
  obtain ⟨x, -, he⟩ := (mem_sorted hk.lives_uid).1 he
  rcases hk.mem_lives he with he | ⟨c, t, life, hc, -⟩
  · obtain ⟨c, t, hc, -⟩ := hk.change e he
    exact (List.getElem?_eq_some_iff.1 hc).1
  · exact (List.getElem?_eq_some_iff.1 hc).1

namespace ColumnReplay

theorem mem_sorted_cases (hr : ColumnReplay changes tables events final owners h) {e : Transition OwnedColumn}
    (he : e ∈ sorted (livesOf changes tables events final owners) (History.seeds events final)) :
    e ∈ events ∨ ∃ c t life, changes[e.step]? = some c ∧ identityChange e.step c = .table t life ∧
      t.uid = owners[e.uid]! ∧ GivenBy final[e.uid]? (events.filter (·.uid = e.uid)) life e := by
  obtain ⟨x, -, he⟩ := (mem_sorted hr.lives_uid).1 he
  exact hr.mem_lives he

variable {u : Uid} {b i : Nat} {a : OwnedColumn} {c : Change}

section

variable (hr : ColumnReplay changes tables events final owners h)

include hr

theorem name_cases (ha : h.name u b = some a) :
    (∃ x, (History.seeds events final)[u]? = some x ∧ (livesOf changes tables events final owners u x).1 = some a) ∨
      ∃ e ∈ sorted (livesOf changes tables events final owners) (History.seeds events final), e.uid = u ∧ e.after = some a := by
  rw [hr.replays.name, History.latest] at ha
  rcases lastSays_mem (·.after) ((startsOf changes tables events final owners)[u]?.join)
    ((sorted (livesOf changes tables events final owners) (History.seeds events final)).filter
      fun e => e.uid = u ∧ e.step < b) with hi | ⟨e, he, hi⟩
  · rw [hi, startsOf, ExtTreeMap.getElem?_map, join_eq_some_iff, map_eq_some_iff] at ha
    exact Or.inl ha
  · rw [hi] at ha
    obtain ⟨hmem, hd⟩ := List.mem_filter.1 he
    exact Or.inr ⟨e, hmem, (of_decide_eq_true hd).1, ha⟩

theorem seed_of_name (ha : h.name u b = some a) : ∃ x, (History.seeds events final)[u]? = some x := by
  rcases hr.name_cases ha with ⟨x, hx, -⟩ | ⟨e, he, rfl, -⟩
  · exact ⟨x, hx⟩
  · obtain ⟨x, hx, -⟩ := (mem_sorted hr.lives_uid).1 he
    exact ⟨x, hx⟩

theorem name_owner (ha : h.name u b = some a) : a.owner = owners[u]! := by
  rcases hr.name_cases ha with ⟨x, hx, hstart⟩ | ⟨e, he, rfl, hafter⟩
  · obtain ⟨rfl, -⟩ := filter_eq_some_iff.1 hstart
    rcases seeds_eq_some hx with ⟨e, he, rfl, hb⟩ | ⟨a', ha', hf⟩
    · exact owner_of_event hr.claims he (Or.inl hb)
    · cases ha'
      exact owner_of_final hr.claims hf
  · rcases hr.mem_sorted_cases he with he | ⟨c, t, life, -, -, -, hg⟩
    · exact owner_of_event hr.claims he (Or.inr hafter)
    · rcases hg with ⟨columns, a', -, -, ha', -, hknown⟩ | ⟨-, hnone⟩
      · rw [hafter] at ha'
        cases ha'
        rcases hknown with hf | ⟨y, hy, hb⟩
        · exact owner_of_final hr.claims hf
        · obtain ⟨hy, hu⟩ := List.mem_filter.1 hy
          have := owner_of_event hr.claims hy (Or.inl hb)
          rwa [of_decide_eq_true hu] at this
      · rw [hnone] at hafter
        cases hafter

theorem name_eq {x : Option OwnedColumn} (hx : (History.seeds events final)[u]? = some x) (b : Nat) :
    h.name u b = ((livesOf changes tables events final owners u x).2.filter (·.step < b)).lastSays (·.after)
      (livesOf changes tables events final owners u x).1 := by
  rw [hr.replays.name, History.latest, filter_sorted hr.lives_uid hr.lives_pairwise hx, startsOf,
    ExtTreeMap.getElem?_map, hx]
  rfl

theorem moves {e : Transition OwnedColumn}
    (he : e ∈ sorted (livesOf changes tables events final owners) (History.seeds events final)) :
    h.name e.uid e.step = e.before ∧ h.name e.uid (e.step + 1) = e.after :=
  hr.replays.moves sorted_pairwise (sorted_apart hr.lives_uid hr.lives_pairwise) he

theorem column_follows {e : Transition ColumnRef} (hc : changes[i]? = some c) (hi : identityChange i c = .column e) :
    ∃ before after, Under (tables.name · i) e.before before ∧ Under (tables.name · i) e.after after ∧
      Moves ⟨e.step, e.uid, before, after⟩ (h.name · i) (h.name · (i + 1)) := by
  obtain ⟨x, hx, rfl, hu, h1, h2⟩ := hr.event i c e hc hi
  have hmem : x ∈ sorted (livesOf changes tables events final owners) (History.seeds events final) := by
    have hseed : x.uid ∈ History.seeds events final := mem_seeds_of_event hx
    obtain ⟨y, hy⟩ := mem_iff_exists.1 hseed
    refine (mem_sorted hr.lives_uid).2 ⟨y, hy, mem_mergeScopes_of_mem x ?_⟩
    exact List.mem_filter.2 ⟨hx, decide_eq_true rfl⟩
  obtain ⟨h3, h4⟩ := hr.moves hmem
  refine ⟨x.before, x.after, h1, h2, by rw [← hu]; exact h3, fun u => ?_⟩
  by_cases hxu : u = x.uid
  · rw [if_pos (hxu.trans hu), hxu]
    exact h4
  · rw [if_neg fun h => hxu (h.trans hu.symm)]
    refine hr.replays.stays fun y hy hyu hys => hxu ?_
    rcases hr.mem_sorted_cases hy with hy | ⟨c', t, life, hc', hi', -⟩
    · obtain ⟨c', e', hc', hi', hu'⟩ := hr.change y hy
      rw [hys, hc] at hc'
      cases hc'
      rw [hys, hi] at hi'
      cases hi'
      rw [← hyu, ← hu', hu]
    · rw [hys, hc] at hc'
      cases hc'
      rw [hys, hi] at hi'
      cases hi'

theorem other_follows (hc : changes[i]? = some c) (hcol : ∀ e, identityChange i c ≠ .column e)
    (htab : ∀ e life, identityChange i c ≠ .table e life) (u : Uid) : h.name u (i + 1) = h.name u i := by
  refine hr.replays.stays fun y hy _ hys => ?_
  rcases hr.mem_sorted_cases hy with hy | ⟨c', t, life, hc', hi', -⟩
  · obtain ⟨c', e', hc', hi', -⟩ := hr.change y hy
    rw [hys, hc] at hc'
    cases hc'
    exact hcol e' (hys ▸ hi')
  · rw [hys, hc] at hc'
    cases hc'
    exact htab t life (hys ▸ hi')

/-- A change of a table rescopes it, and what it does to its columns follows. -/
theorem table_follows {i : Nat} {c : Change} {t : Transition TableName} {life : ColumnLife} (hc : changes[i]? = some c)
    (hi : identityChange i c = .table t life) : Rescopes t.uid life (h.name · i) (h.name · (i + 1)) := by
  -- An event of this step is one its scope gives.
  have hgiven : ∀ y ∈ sorted (livesOf changes tables events final owners) (History.seeds events final), y.step = i →
      t.uid = owners[y.uid]! ∧ GivenBy final[y.uid]? (events.filter (·.uid = y.uid)) life y := by
    intro y hy hys
    rcases hr.mem_sorted_cases hy with hy | ⟨c', t', life', hc', hi', ht, hg⟩
    · obtain ⟨c', e', hc', hi', -⟩ := hr.change y hy
      rw [hys, hc] at hc'
      cases hc'
      rw [hys, hi] at hi'
      cases hi'
    · rw [hys, hc] at hc'
      cases hc'
      rw [hys, hi] at hi'
      cases hi'
      exact ⟨ht, hg⟩
  have hcases : ∀ u, h.name u (i + 1) = h.name u i ∨ ∃ y ∈ sorted (livesOf changes tables events final owners)
      (History.seeds events final), y.uid = u ∧ y.step = i := by
    intro u
    by_cases hex : ∃ y ∈ sorted (livesOf changes tables events final owners) (History.seeds events final),
        y.uid = u ∧ y.step = i
    · exact Or.inr hex
    · exact Or.inl (hr.replays.stays fun y hy hu hs => hex ⟨y, hy, hu, hs⟩)
  cases life with
  | keep =>
    intro u
    rcases hcases u with hsame | ⟨y, hy, rfl, rfl⟩
    · exact hsame
    · obtain ⟨-, ⟨_, _, hl, -⟩ | ⟨hl, -⟩⟩ := hgiven y hy rfl <;> cases hl
  | begin_ columns =>
    intro u
    rcases hcases u with hsame | ⟨y, hy, rfl, rfl⟩
    · exact Or.inl hsame
    · obtain ⟨h1, h2⟩ := hr.moves hy
      obtain ⟨hown, ⟨_, a, hl, hb, ha, hin, -⟩ | ⟨hl, -⟩⟩ := hgiven y hy rfl
      · cases hl
        refine Or.inr ⟨h1.trans hb, a.name, hin, h2.trans (ha.trans ?_)⟩
        rw [hown, ← hr.name_owner (h2.trans ha)]
      · cases hl
  | end_ =>
    intro u
    show h.name u (i + 1) = (h.name u i).filter (·.owner ≠ t.uid)
    cases hn : h.name u i with
    | none =>
      rcases hcases u with hsame | ⟨y, hy, rfl, rfl⟩
      · rw [hsame, hn]; rfl
      · obtain ⟨-, ⟨_, _, hl, -⟩ | ⟨-, ha⟩⟩ := hgiven y hy rfl
        · cases hl
        · rw [(hr.moves hy).2, ha]; rfl
    | some a =>
      have howner := hr.name_owner hn
      by_cases hat : a.owner = t.uid
      · rw [filter_some_neg (by simp [hat])]
        obtain ⟨x, hx⟩ := hr.seed_of_name hn
        have hscope : (i, ColumnLife.end_) ∈ scopesOf changes owners[u]! :=
          mem_scopesOf.2 ⟨c, t, hc, hi, hat.symm.trans howner, by simp⟩
        rcases mergeScopes_end (livesOf changes tables events final owners u x).1 (hr.inOrder u _) i hscope with
          hno | ⟨y, hy, rfl⟩
        · rw [hr.name_eq hx] at hn
          exact absurd (hno.symm.trans hn) (by simp)
        · obtain rfl := hr.lives_uid u x y hy
          have hmem := (mem_sorted hr.lives_uid).2 ⟨x, hx, hy⟩
          obtain ⟨-, ⟨_, _, hl, -⟩ | ⟨-, ha⟩⟩ := hgiven y hmem rfl
          · cases hl
          · rw [(hr.moves hmem).2, ha]
      · rw [filter_some_pos (by simp [hat]), ← hn]
        rcases hcases u with hsame | ⟨y, hy, rfl, rfl⟩
        · exact hsame
        · obtain ⟨hown, -⟩ := hgiven y hy rfl
          exact absurd (howner.trans hown.symm) hat

end

end ColumnReplay

end Columns

/-! ## The whole index -/

namespace PlanNames

variable {changes : List Change} {after : IdsFile} {n : PlanNames}

theorem of_eq_ok (h : of changes after = .ok n) :
    History.of tableNamespace .table ((identityChanges changes).filterMap (tableEvent ∅)) after.tables = .ok n.tables ∧
      History.of roleNamespace .role ((identityChanges changes).filterMap roleEvent) after.roles = .ok n.roles ∧
      columnHistory (identityChanges changes) n.tables after ∅ = .ok n.columns := by
  obtain ⟨-, h⟩ := bind_eq_ok.1 h
  obtain ⟨tables, ht, h⟩ := bind_eq_ok_iff.1 h
  obtain ⟨roles, hr, h⟩ := bind_eq_ok_iff.1 h
  obtain ⟨columns, hc, h⟩ := bind_eq_ok_iff.1 h
  cases h
  exact ⟨ht, hr, hc⟩

/-- A table gives its name to a second one that a later step creates, and a column of the first is renamed. -/
def handedOver : List Change :=
  [.renameTable ⟨"t_a"⟩ ⟨"dbo", "a"⟩ ⟨"dbo", "b"⟩ [],
    .createTable ⟨"t_b"⟩ ⟨"dbo", "a"⟩ { columns := AList.insert "x" { ty := { base := "int" } } ∅ } none none,
    .renameColumn ⟨"c_a"⟩ ⟨"dbo", "b"⟩ "x" "y" none]

def handedOverIds : IdsFile where
  tables := (∅ : ExtTreeMap Uid TableName).insert ⟨"t_a"⟩ ⟨"dbo", "b"⟩ |>.insert ⟨"t_b"⟩ ⟨"dbo", "a"⟩
  columns := (∅ : ExtTreeMap Uid ColumnRef).insert ⟨"c_a"⟩ ⟨⟨"dbo", "b"⟩, "y"⟩ |>.insert ⟨"c_b"⟩ ⟨⟨"dbo", "a"⟩, "x"⟩

end PlanNames

end Pbps.Names
