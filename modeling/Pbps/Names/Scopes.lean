/-
What the changes of a plan say about its identities, and what a plan's index reads from it: the events of a namespace are at the
positions of their changes, each column has one owner, and a column's first evidence is an event's or its final name. `mergeScopes`
sets a column's events among the scopes of its owner.
-/
import Pbps.Names.PlanNames

namespace Pbps.Names

open Std (ExtTreeMap ExtTreeSet)
open Pbps.Diff (Change)
open Option Std.ExtTreeMap

/-! ## Events by position -/

def IdentityChange.At (i : Nat) : IdentityChange → Prop
  | .table e _ => e.step = i
  | .column e => e.step = i
  | .role e => e.step = i
  | .type e => e.step = i
  | .other => True

theorem identityChange_at (i : Nat) (c : Change) : (identityChange i c).At i := by
  unfold identityChange
  split <;> simp [IdentityChange.At, tableKept, columnKept]

section Positions

variable {B : Type} {f : IdentityChange → Option B} {step : B → Nat} {changes : List Change}

variable {e : B}

variable (hf : ∀ i x e, IdentityChange.At i x → f x = some e → step e = i)
include hf

theorem mem_events :
    e ∈ (identityChanges changes).filterMap f ↔ ∃ c, changes[step e]? = some c ∧ f (identityChange (step e) c) = some e := by
  rw [identityChanges, List.mem_filterMap]
  constructor
  · rintro ⟨x, hx, he⟩
    obtain ⟨⟨c, i⟩, hc, rfl⟩ := List.mem_map.1 hx
    have hi : step e = i := hf i _ e (identityChange_at i c) he
    subst hi
    exact ⟨c, List.mem_zipIdx_iff_getElem?.1 hc, he⟩
  · rintro ⟨c, hc, he⟩
    exact ⟨_, List.mem_map.2 ⟨(c, step e), List.mem_zipIdx_iff_getElem?.2 hc, rfl⟩, he⟩

/-- The events of a plan are in the order of their steps, at most one for each. -/
theorem events_pairwise : ((identityChanges changes).filterMap f).Pairwise fun x y => step x < step y := by
  have hidx : changes.zipIdx.Pairwise fun p q => p.2 < q.2 := by
    have := List.pairwise_lt_range' (s := 0) (n := changes.length)
    rw [← List.zipIdx_map_snd 0 changes] at this
    exact List.pairwise_map.1 this
  rw [identityChanges, List.filterMap_map, List.pairwise_filterMap]
  refine hidx.imp fun {p q} hpq x hx y hy => ?_
  rw [hf _ _ x (identityChange_at p.2 p.1) hx, hf _ _ y (identityChange_at q.2 q.1) hy]
  exact hpq

theorem step_lt_of_mem (he : e ∈ (identityChanges changes).filterMap f) : step e < changes.length := by
  obtain ⟨c, hc, -⟩ := (mem_events hf).1 he
  exact (List.getElem?_eq_some_iff.1 hc).1

end Positions

variable {x : IdentityChange} {i : Nat}

variable {e : Transition TableName} {owner : Uid} {s : Nat × ColumnLife}

theorem tableEvent_empty : tableEvent ∅ x = some e ↔ ∃ life, x = .table e life := by
  cases x <;> simp [tableEvent]

theorem columnEvent_empty {e : Transition ColumnRef} : columnEvent ∅ x = some e ↔ x = .column e := by
  cases x <;> simp [columnEvent]

theorem roleEvent_eq {e : Transition RoleName} : roleEvent x = some e ↔ x = .role e := by
  cases x <;> simp [roleEvent]

theorem ownerEvent_eq : ownerEvent owner x = some s ↔ ∃ e, x = .table e s.2 ∧ e.step = s.1 ∧ e.uid = owner ∧ s.2 ≠ .keep := by
  obtain ⟨i, life⟩ := s
  cases x with
  | table e l =>
    simp only [ownerEvent, ite_none_right_eq_some, some.injEq, Prod.mk.injEq, IdentityChange.table.injEq]
    constructor
    · rintro ⟨⟨h1, h2⟩, h3, rfl⟩; exact ⟨e, ⟨rfl, rfl⟩, h3, h1, h2⟩
    · rintro ⟨e', ⟨rfl, rfl⟩, h3, h1, h2⟩; exact ⟨⟨h1, h2⟩, h3, rfl⟩
  | column e => simp [ownerEvent]
  | role e => simp [ownerEvent]
  | type e => simp [ownerEvent]
  | other => simp [ownerEvent]

theorem tableEvent_at (hx : x.At i) (he : tableEvent ∅ x = some e) : e.step = i := by
  obtain ⟨life, rfl⟩ := tableEvent_empty.1 he
  exact hx

theorem columnEvent_at {e : Transition ColumnRef} (hx : x.At i) (he : columnEvent ∅ x = some e) : e.step = i := by
  rw [columnEvent_empty.1 he] at hx
  exact hx

theorem roleEvent_at {e : Transition RoleName} (hx : x.At i) (he : roleEvent x = some e) : e.step = i := by
  rw [roleEvent_eq.1 he] at hx
  exact hx

theorem ownerEvent_at (hx : x.At i) (hs : ownerEvent owner x = some s) : s.1 = i := by
  obtain ⟨e, rfl, h1, -, -⟩ := ownerEvent_eq.1 hs
  exact h1.symm.trans hx

/-! ## Owners -/

theorem claimOwner_eq_ok {owners owners' : ExtTreeMap Uid Uid} {claim : Uid × Uid} (h : claimOwner owners claim = .ok owners') :
    owners' = owners.insert claim.1 claim.2 ∧ ∀ old, owners[claim.1]? = some old → old = claim.2 := by
  unfold claimOwner at h
  split at h
  · next old ho =>
    split at h
    · cases h
    · next hne =>
      cases h
      refine ⟨rfl, fun o h' => ?_⟩
      rw [ho] at h'
      cases h'
      exact not_not.1 hne
  · next ho =>
    cases h
    refine ⟨rfl, fun o h' => ?_⟩
    rw [ho] at h'
    cases h'

theorem foldlM_claimOwner : ∀ {l : List (Uid × Uid)} {owners owners' : ExtTreeMap Uid Uid},
    l.foldlM claimOwner owners = .ok owners' →
    (∀ claim ∈ l, owners'[claim.1]? = some claim.2) ∧ ∀ u o : Uid, owners[u]? = some o → owners'[u]? = some o
  | [], owners, owners', h => by
    cases h
    exact ⟨by simp, fun _ _ h => h⟩
  | claim :: l, owners, owners', h => by
    rw [List.foldlM_cons] at h
    obtain ⟨next, h1, h2⟩ := Except.bind_eq_ok_iff.1 h
    obtain ⟨rfl, hold⟩ := claimOwner_eq_ok h1
    obtain ⟨ih1, ih2⟩ := foldlM_claimOwner h2
    refine ⟨fun c hc => ?_, fun u o ho => ?_⟩
    · rcases List.mem_cons.1 hc with rfl | hc
      · exact ih2 _ _ getElem?_insert_self
      · exact ih1 c hc
    · apply ih2
      rw [getElem?_insert_eq_some]
      by_cases hu : u = claim.1
      · subst hu
        exact Or.inl ⟨rfl, hold o ho⟩
      · exact Or.inr ⟨hu, ho⟩

section Owners

variable {events : List (Transition OwnedColumn)} {final : ExtTreeMap Uid OwnedColumn} {owners : ExtTreeMap Uid Uid}

variable {u : Uid} {a : OwnedColumn}

variable (h : ownersOf events final = .ok owners)
include h

theorem owner_of_claim {o : Uid} (hc : (u, o) ∈ ownerClaims events final) : owners[u]! = o := by
  have := (foldlM_claimOwner h).1 (u, o) hc
  rw [getElem!_eq_get!_getElem?, this]
  rfl

theorem owner_of_event {e : Transition OwnedColumn} (he : e ∈ events) (ha : e.before = some a ∨ e.after = some a) :
    a.owner = owners[e.uid]! := by
  refine (owner_of_claim h ?_).symm
  refine List.mem_append_left _ (List.mem_flatMap.2 ⟨e, he, List.mem_map.2 ⟨a, ?_, rfl⟩⟩)
  rw [List.mem_append, mem_toList, mem_toList]
  exact ha

theorem owner_of_final (ha : final[u]? = some a) : a.owner = owners[u]! := by
  refine (owner_of_claim h ?_).symm
  exact List.mem_append_right _ (List.mem_map.2 ⟨(u, a), mem_toList_iff_getElem?_eq_some.2 ha, rfl⟩)

end Owners

/-! ## Seeds -/

section Seeds

variable {A : Type}

variable {B : Type}

variable {key : B → Uid} {val : B → Option A}

theorem foldl_insertIfNew :
    ∀ {l : List B} {m : ExtTreeMap Uid (Option A)} {u : Uid} {x : Option A},
      (l.foldl (fun m e => m.insertIfNew (key e) (val e)) m)[u]? = some x → m[u]? = some x ∨ ∃ e ∈ l, key e = u ∧ val e = x
  | [], m, u, x, h => Or.inl h
  | b :: l, m, u, x, h => by
    rw [List.foldl_cons] at h
    rcases foldl_insertIfNew h with h | ⟨e, he, h⟩
    · rw [getElem?_insertIfNew] at h
      split at h
      · next hk =>
        exact Or.inr ⟨b, List.mem_cons_self, Std.LawfulEqOrd.eq_of_compare hk.1, some.inj h⟩
      · exact Or.inl h
    · exact Or.inr ⟨e, List.mem_cons_of_mem _ he, h⟩

theorem foldl_insertIfNew_contains :
    ∀ {l : List B} {m : ExtTreeMap Uid (Option A)} {u : Uid}, u ∈ m ∨ (∃ e ∈ l, key e = u) →
      u ∈ l.foldl (fun m e => m.insertIfNew (key e) (val e)) m
  | [], m, u, h => by
    rcases h with h | ⟨e, he, -⟩
    · exact h
    · cases he
  | b :: l, m, u, h => by
    rw [List.foldl_cons]
    apply foldl_insertIfNew_contains
    rw [mem_insertIfNew]
    rcases h with h | ⟨e, he, rfl⟩
    · exact Or.inl (Or.inr h)
    · rcases List.mem_cons.1 he with rfl | he
      · exact Or.inl (Or.inl Std.ReflOrd.compare_self)
      · exact Or.inr ⟨e, he, rfl⟩

variable {events : List (Transition A)} {after : ExtTreeMap Uid A}

theorem seeds_eq_some {u : Uid} {x : Option A} (h : (History.seeds events after)[u]? = some x) :
    (∃ e ∈ events, e.uid = u ∧ e.before = x) ∨ ∃ a, x = some a ∧ after[u]? = some a := by
  rcases foldl_insertIfNew h with h | ⟨⟨v, a⟩, he, rfl, rfl⟩
  · rcases foldl_insertIfNew h with h | h
    · rw [getElem?_empty] at h; cases h
    · exact Or.inl h
  · exact Or.inr ⟨a, rfl, getElem?_of_mem_toList he⟩

theorem mem_seeds_of_event {e : Transition A} (he : e ∈ events) : e.uid ∈ History.seeds events after :=
  foldl_insertIfNew_contains (Or.inl (foldl_insertIfNew_contains (Or.inr ⟨e, he, rfl⟩)))

end Seeds

/-! ## Scopes

`mergeScopes` keeps every event the changes carry, adds one only where a scope begins or ends, keeps them in the order of their
steps, and leaves a column without a name at the end of each scope. -/

open List (dropWhile_sublist filter_append mem_append mem_append_right mem_cons mem_cons_self mem_map pairwise_cons)

variable {total : Nat} {uid : Uid} {final : Option OwnedColumn} {scopes : List (Nat × ColumnLife)}
  {explicit : List (Transition OwnedColumn)} {held : Option OwnedColumn}

variable {step : Nat}

theorem le_step_of_mem_dropWhile : ∀ {l : List (Transition OwnedColumn)},
    l.Pairwise (fun x y => x.step < y.step) → ∀ e ∈ l.dropWhile (·.step < step), step ≤ e.step
  | [], _, e, he => by cases he
  | x :: l, hl, e, he => by
    rw [List.dropWhile_cons] at he
    split at he
    · exact le_step_of_mem_dropWhile (pairwise_cons.1 hl).2 e he
    · next hx =>
      have hx : ¬ x.step < step := by simpa using hx
      rcases mem_cons.1 he with rfl | he
      · omega
      · have := (pairwise_cons.1 hl).1 e he
        omega

theorem step_lt_of_mem_takeWhile {l : List (Transition OwnedColumn)} : ∀ e ∈ l.takeWhile (·.step < step), e.step < step := by
  intro e he
  simpa using List.mem_takeWhile_imp he

/-! ## One scope -/

/-- An event a scope gives a column: one of the names the change that begins it carries, or none where
the change ends it. -/
def GivenBy (final : Option OwnedColumn) (explicit : List (Transition OwnedColumn)) (life : ColumnLife)
    (e : Transition OwnedColumn) : Prop :=
  (∃ columns a, life = .begin_ columns ∧ e.before = none ∧ e.after = some a ∧ columns.contains a.name = true ∧
    (final = some a ∨ ∃ x ∈ explicit, x.before = some a)) ∨
  (life = .end_ ∧ e.after = none)

theorem scopeAddress_known {until_ : Nat} {a : OwnedColumn} (h : scopeAddress total until_ final explicit = some a) :
    final = some a ∨ ∃ x ∈ explicit, x.before = some a := by
  unfold scopeAddress at h
  split at h
  · next e l =>
    split at h
    · exact Or.inr ⟨e, mem_cons_self, h⟩
    · cases h
  · split at h
    · exact Or.inl h
    · cases h

theorem mergeScopes_cons (total : Nat) (uid : Uid) (final : Option OwnedColumn) (step : Nat) (life : ColumnLife) (scopes : List (Nat × ColumnLife))
    (explicit : List (Transition OwnedColumn)) (held : Option OwnedColumn) : ∃ mid : List (Transition OwnedColumn),
      mergeScopes total uid final ((step, life) :: scopes) explicit held =
        explicit.takeWhile (·.step < step) ++ (mid ++ mergeScopes total uid final scopes (explicit.dropWhile (·.step < step))
          (mid.lastSays (·.after) ((explicit.takeWhile (·.step < step)).lastSays (·.after) held))) ∧
      (∀ e ∈ mid, e.step = step ∧ e.uid = uid ∧ GivenBy final (explicit.dropWhile (·.step < step)) life e) ∧ mid.length ≤ 1 ∧
      (life = .end_ → mid = [] → (explicit.takeWhile (·.step < step)).lastSays (·.after) held = none) := by
  cases life with
  | keep => exact ⟨[], rfl, by simp, by simp, by simp⟩
  | begin_ columns =>
    simp only [mergeScopes]
    split
    · next a ha =>
      obtain ⟨ha, hc⟩ := filter_eq_some_iff.1 ha
      refine ⟨[⟨step, uid, none, some a⟩], rfl, fun e he => ?_, by simp, by simp⟩
      rw [List.mem_singleton] at he
      subst he
      exact ⟨rfl, rfl, Or.inl ⟨columns, a, rfl, rfl, rfl, hc, scopeAddress_known ha⟩⟩
    · exact ⟨[], rfl, by simp, by simp, by simp⟩
  | end_ =>
    simp only [mergeScopes]
    split
    · next a ha =>
      refine ⟨[⟨step, uid, some a, none⟩], rfl, fun e he => ?_, by simp, by simp⟩
      rw [List.mem_singleton] at he
      subst he
      exact ⟨rfl, rfl, Or.inr ⟨rfl, rfl⟩⟩
    · next ha =>
      refine ⟨[], ?_, by simp, by simp, fun _ _ => ha⟩
      rw [List.lastSays_nil, ha, List.nil_append]

/-! ## All scopes -/

theorem mem_mergeScopes : ∀ {scopes : List (Nat × ColumnLife)} {explicit : List (Transition OwnedColumn)}
    {held : Option OwnedColumn}, (∀ e ∈ explicit, e.uid = uid) →
    ∀ e ∈ mergeScopes total uid final scopes explicit held,
      e.uid = uid ∧ (e ∈ explicit ∨ ∃ life, (e.step, life) ∈ scopes ∧ GivenBy final explicit life e)
  | [], explicit, held, hu, e, he => ⟨hu e he, Or.inl he⟩
  | (step, life) :: scopes, explicit, held, hu, e, he => by
    obtain ⟨mid, heq, hmid, -, -⟩ := mergeScopes_cons total uid final step life scopes explicit held
    rw [heq, mem_append, mem_append] at he
    have hdrop : ∀ x ∈ explicit.dropWhile (·.step < step), x ∈ explicit :=
      fun x hx => (dropWhile_sublist _).subset hx
    have hgiven : ∀ {life}, GivenBy final (explicit.dropWhile (·.step < step)) life e → GivenBy final explicit life e := by
      rintro life (⟨columns, a, h1, h2, h3, h4, h5⟩ | h)
      · refine Or.inl ⟨columns, a, h1, h2, h3, h4, h5.imp_right ?_⟩
        rintro ⟨x, hx, hb⟩
        exact ⟨x, hdrop x hx, hb⟩
      · exact Or.inr h
    rcases he with he | he | he
    · have := (List.takeWhile_sublist _).subset he
      exact ⟨hu e this, Or.inl this⟩
    · obtain ⟨h1, h2, h3⟩ := hmid e he
      refine ⟨h2, Or.inr ⟨life, ?_, hgiven h3⟩⟩
      rw [h1]
      exact mem_cons_self
    · obtain ⟨h1, h2⟩ := mem_mergeScopes (fun x hx => hu x (hdrop x hx)) e he
      refine ⟨h1, h2.imp (hdrop e) ?_⟩
      rintro ⟨life', h3, h4⟩
      exact ⟨life', List.mem_cons_of_mem _ h3, hgiven h4⟩

theorem mem_mergeScopes_of_mem : ∀ {scopes : List (Nat × ColumnLife)} {explicit : List (Transition OwnedColumn)}
    {held : Option OwnedColumn}, ∀ e ∈ explicit, e ∈ mergeScopes total uid final scopes explicit held
  | [], explicit, held, e, he => he
  | (step, life) :: scopes, explicit, held, e, he => by
    obtain ⟨mid, heq, -⟩ := mergeScopes_cons total uid final step life scopes explicit held
    rw [heq, mem_append, mem_append]
    rw [← List.takeWhile_append_dropWhile (p := fun x : Transition OwnedColumn => x.step < step) (l := explicit),
      mem_append] at he
    rcases he with he | he
    · exact Or.inl he
    · exact Or.inr (Or.inr (mem_mergeScopes_of_mem e he))

/-- The scopes of an owner in order, and a column's events in order, none at a scope's own step. -/
structure InOrder (uid : Uid) (scopes : List (Nat × ColumnLife)) (explicit : List (Transition OwnedColumn)) : Prop where
  uids : ∀ e ∈ explicit, e.uid = uid
  ofScopes : scopes.Pairwise fun x y => x.1 < y.1
  ofEvents : explicit.Pairwise fun x y => x.step < y.step
  apart : ∀ e ∈ explicit, ∀ s ∈ scopes, e.step ≠ s.1

variable {life : ColumnLife}

theorem InOrder.later (h : InOrder uid ((step, life) :: scopes) explicit) :
    InOrder uid scopes (explicit.dropWhile (·.step < step)) := by
  have hdrop : ∀ x ∈ explicit.dropWhile (·.step < step), x ∈ explicit :=
    fun x hx => (dropWhile_sublist _).subset hx
  exact ⟨fun e he => h.uids e (hdrop e he), (pairwise_cons.1 h.ofScopes).2, h.ofEvents.sublist (dropWhile_sublist _),
    fun e he s hs => h.apart e (hdrop e he) s (List.mem_cons_of_mem _ hs)⟩

theorem InOrder.step_lt (h : InOrder uid ((step, life) :: scopes) explicit) {held : Option OwnedColumn} :
    ∀ e ∈ mergeScopes total uid final scopes (explicit.dropWhile (·.step < step)) held, step < e.step := by
  intro e he
  obtain ⟨-, he | ⟨life', hs, -⟩⟩ := mem_mergeScopes h.later.uids e he
  · have h1 := le_step_of_mem_dropWhile h.ofEvents e he
    have h2 : e.step ≠ step := h.apart e ((dropWhile_sublist _).subset he) (step, life) mem_cons_self
    omega
  · exact (pairwise_cons.1 h.ofScopes).1 _ hs

theorem mergeScopes_pairwise : ∀ {scopes : List (Nat × ColumnLife)} {explicit : List (Transition OwnedColumn)}
    {held : Option OwnedColumn}, InOrder uid scopes explicit →
    (mergeScopes total uid final scopes explicit held).Pairwise fun x y => x.step < y.step
  | [], explicit, held, h => h.ofEvents
  | (step, life) :: scopes, explicit, held, h => by
    obtain ⟨mid, heq, hmid, hlen, -⟩ := mergeScopes_cons total uid final step life scopes explicit held
    rw [heq, List.pairwise_append, List.pairwise_append]
    refine ⟨h.ofEvents.sublist (List.takeWhile_sublist _), ⟨?_, mergeScopes_pairwise h.later, ?_⟩, ?_⟩
    · match mid, hlen with
      | [], _ => exact List.Pairwise.nil
      | [x], _ => exact List.pairwise_singleton _ _
    · intro x hx y hy
      rw [(hmid x hx).1]
      exact h.step_lt y hy
    · intro x hx y hy
      have h1 := step_lt_of_mem_takeWhile x hx
      rcases mem_append.1 hy with hy | hy
      · rw [(hmid y hy).1]; exact h1
      · exact h1.trans (h.step_lt y hy)

/-- A column has no name when a scope of its owner has ended: it had none before, or an event of that step
takes it. -/
theorem mergeScopes_end : ∀ {scopes : List (Nat × ColumnLife)} {explicit : List (Transition OwnedColumn)}
    (held : Option OwnedColumn), InOrder uid scopes explicit → ∀ i, (i, ColumnLife.end_) ∈ scopes →
    ((mergeScopes total uid final scopes explicit held).filter (·.step < i)).lastSays (·.after) held = none ∨
      ∃ e ∈ mergeScopes total uid final scopes explicit held, e.step = i
  | [], _, _, _, _, hi => by cases hi
  | (step, life) :: scopes, explicit, held, h, i, hi => by
    obtain ⟨mid, heq, hmid, -, hend⟩ := mergeScopes_cons total uid final step life scopes explicit held
    have hrest : ∀ {held}, ∀ e ∈ mergeScopes total uid final scopes (explicit.dropWhile (·.step < step)) held, step < e.step :=
      h.step_lt
    have hle : step ≤ i := by
      rcases mem_cons.1 hi with hi | hi
      · cases hi; exact le_rfl
      · exact ((pairwise_cons.1 h.ofScopes).1 _ hi).le
    have hearly : (explicit.takeWhile (·.step < step)).filter (·.step < i) = explicit.takeWhile (·.step < step) := by
      refine List.filter_eq_self.2 fun e he => decide_eq_true ?_
      have := step_lt_of_mem_takeWhile e he
      omega
    rw [heq]
    rcases mem_cons.1 hi with hi | hi
    · cases hi
      by_cases hm : mid = []
      · -- Nothing to take: what precedes the scope left the column without a name.
        refine Or.inl ?_
        subst hm
        rw [List.nil_append, filter_append, hearly]
        have hno : ∀ held, (mergeScopes total uid final scopes (explicit.dropWhile (·.step < step)) held).filter
            (·.step < step) = [] := by
          intro held
          refine List.filter_eq_nil_iff.2 fun e he => ?_
          have := hrest e he
          simp only [decide_eq_true_eq]
          omega
        rw [hno, List.append_nil]
        exact hend rfl rfl
      · obtain ⟨e, he⟩ := List.exists_mem_of_ne_nil mid hm
        exact Or.inr ⟨e, mem_append_right _ (List.mem_append_left _ he), (hmid e he).1⟩
    · have hlt : step < i := (pairwise_cons.1 h.ofScopes).1 _ hi
      have hown : mid.filter (·.step < i) = mid := by
        refine List.filter_eq_self.2 fun e he => decide_eq_true ?_
        rw [(hmid e he).1]
        exact hlt
      rcases mergeScopes_end (mid.lastSays (·.after) ((explicit.takeWhile (·.step < step)).lastSays (·.after) held))
        h.later i hi with hx | ⟨e, he, hs⟩
      · left
        rw [filter_append, filter_append, hearly, hown, List.lastSays_append, List.lastSays_append]
        exact hx
      · exact Or.inr ⟨e, mem_append_right _ (mem_append_right _ he), hs⟩

end Pbps.Names
