/-
A function that leads each vertex on to one other at most, followed with the path in hand until it leads nowhere or back to
the path. What was passed is what the vertex leads to, each once, and where the path closes its last part is the cycle.
-/
import Mathlib.Data.List.Chain
import Pbps.Lib.Chain

namespace Follow

open Relation (TransGen ReflTransGen)
open Component (Same)
open List

variable {α : Type} [DecidableEq α]

/-- The path from its last vertex on, and from which of its vertices it closes. -/
def follow (next : α → Option α) : Nat → List α → α → List α × Option Nat
  | 0, path, _ => (path, none)
  | fuel + 1, path, at_ =>
    match next at_ with
    | none => (path, none)
    | some v =>
      match path.idxOf? v with
      | some start => (path, some start)
      | none => follow next fuel (path ++ [v]) v

variable {next : α → Option α} {path : List α} {start v w : α}

def Leads (next : α → Option α) (u v : α) : Prop := next u = some v

omit [DecidableEq α] in
theorem rightUnique : Relator.RightUnique (Leads next) := fun _ _ _ h h' => Option.some.inj (h.symm.trans h')

/-- A path from a vertex to the one at hand that passes none twice. -/
structure Path (next : α → Option α) (start : α) (path : List α) (v : α) : Prop where
  chain : path.IsChain (Leads next)
  nodup : path.Nodup
  head : path.head? = some start
  last : path.getLast? = some v

omit [DecidableEq α] in
theorem path_singleton : Path next v [v] v := ⟨isChain_singleton v, nodup_singleton v, rfl, rfl⟩

omit [DecidableEq α] in
theorem Path.snoc (h : Path next start path v) (hvw : next v = some w) (hw : w ∉ path) : Path next start (path ++ [w]) w where
  chain := by
    refine isChain_append.2 ⟨h.chain, isChain_singleton w, fun x hx y hy => ?_⟩
    rw [h.last, Option.mem_some_iff] at hx
    obtain rfl := hx
    obtain rfl : w = y := by simpa using hy
    exact hvw
  nodup := nodup_append.2 ⟨h.nodup, nodup_singleton w, fun a ha b hb heq => hw (mem_singleton.1 hb ▸ heq ▸ ha)⟩
  head := by
    cases path with
    | nil => exact absurd h.head (by simp)
    | cons _ _ => exact h.head
  last := getLast?_concat

/-- How following a function ends: where it leads nowhere, or back to the path. -/
def Ended (next : α → Option α) (start : α) (r : List α × Option Nat) : Prop :=
  ∃ v, Path next start r.1 v ∧ ((next v = none ∧ r.2 = none) ∨ ∃ i w, next v = some w ∧ r.2 = some i ∧ r.1[i]? = some w)

theorem follow_ended {vertices : List α} (hvertices : ∀ u v, next u = some v → v ∈ vertices) : ∀ (fuel : Nat) {path : List α} {v : α},
    Path next start path v → (∀ u ∈ path, u ∈ vertices) → vertices.length < path.length + fuel →
      Ended next start (follow next fuel path v)
  | 0, path, v, hpath, hmem, hfuel => by
    have hle := (subperm_of_subset hpath.nodup hmem).length_le
    omega
  | fuel + 1, path, v, hpath, hmem, hfuel => by
    cases hnext : next v with
    | none =>
      rw [follow, hnext]
      exact ⟨v, hpath, .inl ⟨hnext, rfl⟩⟩
    | some w =>
      cases hidx : path.idxOf? w with
      | some i =>
        obtain ⟨hlt, hget, -⟩ := idxOf?_eq_some_iff.1 hidx
        rw [follow, hnext]
        simp only [hidx]
        exact ⟨v, hpath, .inr ⟨i, w, hnext, rfl, List.getElem?_eq_some_iff.2 ⟨hlt, hget⟩⟩⟩
      | none =>
        rw [follow, hnext]
        simp only [hidx]
        have hw : w ∉ path := idxOf?_eq_none_iff.1 hidx
        refine follow_ended hvertices fuel (hpath.snoc hnext hw) (fun u hu => ?_) ?_
        · rcases mem_append.1 hu with hu | hu
          · exact hmem u hu
          · exact mem_singleton.1 hu ▸ hvertices v w hnext
        · rw [length_append, length_singleton]
          omega

/-! ## What was passed -/

omit [DecidableEq α] in
theorem leads_of_chain : ∀ {path : List α} {a b : α}, path.IsChain (Leads next) → path.head? = some a →
    path.getLast? = some b → ∀ u ∈ path, ReflTransGen (Leads next) a u ∧ ReflTransGen (Leads next) u b
  | [], _, _, _, hhead, _ => by cases hhead
  | [x], a, b, _, hhead, hlast => by
    obtain rfl : x = a := by simpa using hhead
    obtain rfl : x = b := by simpa using hlast
    intro u hu
    obtain rfl := mem_singleton.1 hu
    exact ⟨.refl, .refl⟩
  | x :: y :: path, a, b, hchain, hhead, hlast => by
    obtain rfl : x = a := by simpa using hhead
    obtain ⟨hxy, hrest⟩ := isChain_cons_cons.1 hchain
    have hrec := leads_of_chain (a := y) (b := b) hrest rfl (by simpa using hlast)
    intro u hu
    rcases mem_cons.1 hu with rfl | hu
    · exact ⟨.refl, .head hxy (hrec y mem_cons_self).2⟩
    · exact ⟨.head hxy (hrec u hu).1, (hrec u hu).2⟩

omit [DecidableEq α] in
theorem leads_inside : ∀ {path : List α} {b : α}, path.IsChain (Leads next) → path.getLast? = some b →
    ∀ u ∈ path, u = b ∨ ∃ w ∈ path, next u = some w
  | [], _, _, _ => fun u hu => absurd hu not_mem_nil
  | [x], b, _, hlast => by
    obtain rfl : x = b := by simpa using hlast
    exact fun u hu => .inl (mem_singleton.1 hu)
  | x :: y :: path, b, hchain, hlast => by
    obtain ⟨hxy, hrest⟩ := isChain_cons_cons.1 hchain
    intro u hu
    rcases mem_cons.1 hu with rfl | hu
    · exact .inr ⟨y, mem_cons_of_mem _ mem_cons_self, hxy⟩
    · rcases leads_inside hrest (by simpa using hlast) u hu with heq | ⟨w, hw, huw⟩
      · exact .inl heq
      · exact .inr ⟨w, mem_cons_of_mem _ hw, huw⟩

omit [DecidableEq α] in
theorem mem_of_leads {a b : α} (hchain : path.IsChain (Leads next)) (hhead : path.head? = some a) (hlast : path.getLast? = some b)
    (hclose : ∀ w, next b = some w → w ∈ path) (u : α) : u ∈ path ↔ ReflTransGen (Leads next) a u := by
  refine ⟨fun hu => (leads_of_chain hchain hhead hlast u hu).1, fun hu => ?_⟩
  induction hu with
  | refl => exact mem_of_head? hhead
  | @tail b' c _ hbc ih =>
    rcases leads_inside hchain hlast b' ih with rfl | ⟨w, hw, hnext⟩
    · exact hclose c hbc
    · obtain rfl : w = c := Option.some.inj (hnext.symm.trans hbc)
      exact hw

variable {r : List α × Option Nat}

omit [DecidableEq α] in
theorem Ended.passed (h : Ended next start r) : r.1.Nodup ∧ ∀ u, u ∈ r.1 ↔ ReflTransGen (Leads next) start u := by
  obtain ⟨v, hpath, hend⟩ := h
  refine ⟨hpath.nodup, mem_of_leads hpath.chain hpath.head hpath.last fun w hw => ?_⟩
  rcases hend with ⟨hnone, -⟩ | ⟨i, w', hnext, -, hget⟩
  · rw [hnone] at hw
    cases hw
  · obtain rfl : w' = w := Option.some.inj (hnext.symm.trans hw)
    exact mem_of_getElem? hget

omit [DecidableEq α] in
/-- Where the path closes, its last part is the vertices of a cycle that the start leads to. -/
theorem Ended.cycle (h : Ended next start r) {i : Nat} (hi : r.2 = some i) : ∃ w, ReflTransGen (Leads next) start w ∧
    TransGen (Leads next) w w ∧ ∀ u, u ∈ r.1.drop i ↔ Same (Leads next) w u := by
  obtain ⟨v, hpath, ⟨-, hnone⟩ | ⟨j, w, hnext, hj, hget⟩⟩ := h
  · rw [hnone] at hi
    cases hi
  · obtain rfl : j = i := Option.some.inj (hj.symm.trans hi)
    obtain ⟨hlt, hat⟩ := List.getElem?_eq_some_iff.1 hget
    have hhead : (r.1.drop j).head? = some w := by rw [head?_drop, hget]
    have hlast : (r.1.drop j).getLast? = some v := by rw [getLast?_drop, if_neg (by omega), hpath.last]
    have hclose : ∀ w', next v = some w' → w' ∈ r.1.drop j := by
      intro w' hw'
      obtain rfl : w = w' := Option.some.inj (hnext.symm.trans hw')
      exact mem_of_head? hhead
    have hmem := mem_of_leads (hpath.chain.drop j) hhead hlast hclose
    have hback : ∀ u ∈ r.1.drop j, ReflTransGen (Leads next) u v :=
      fun u hu => (leads_of_chain (hpath.chain.drop j) hhead hlast u hu).2
    refine ⟨w, ?_, ?_, fun u => ?_⟩
    · exact (leads_of_chain hpath.chain hpath.head hpath.last w (mem_of_getElem? hget)).1
    · exact .tail' (hback w (mem_of_head? hhead)) hnext
    · constructor
      · exact fun hu => ⟨(hmem u).1 hu, (hback u hu).tail hnext⟩
      · exact fun hu => (hmem u).2 hu.1

omit [DecidableEq α] in
theorem same_of_leads (hcycle : TransGen (Leads next) start start) (hv : ReflTransGen (Leads next) start v) :
    Same (Leads next) start v := by
  refine ⟨hv, ?_⟩
  induction hv with
  | refl => exact .refl
  | @tail b c _ hbc ih =>
    rcases ReflTransGen.cases_head ih with heq | ⟨d, hbd, hd⟩
    · obtain ⟨e, hse, hes⟩ := TransGen.head'_iff.1 hcycle
      obtain rfl : e = c := rightUnique (heq ▸ hse) hbc
      exact hes
    · obtain rfl : d = c := rightUnique hbd hbc
      exact hd

omit [DecidableEq α] in
/-- From a vertex on a cycle the path closes, and its last part is that cycle. -/
theorem Ended.of_cycle (h : Ended next start r) (hcycle : TransGen (Leads next) start start) :
    ∃ i, r.2 = some i ∧ ∀ u, u ∈ r.1.drop i ↔ Same (Leads next) start u := by
  obtain ⟨v, hpath, ⟨hnone, -⟩ | ⟨i, w, hnext, hi, hget⟩⟩ := id h
  · have hv : ReflTransGen (Leads next) start v :=
      (leads_of_chain hpath.chain hpath.head hpath.last v (mem_of_getLast? hpath.last)).1
    rcases ReflTransGen.cases_head (same_of_leads hcycle hv).2 with rfl | ⟨d, hvd, -⟩
    · obtain ⟨e, hse, -⟩ := TransGen.head'_iff.1 hcycle
      rw [Leads, hnone] at hse
      cases hse
    · rw [Leads, hnone] at hvd
      cases hvd
  · obtain ⟨w', hreach, -, hmem⟩ := h.cycle hi
    have hsame := same_of_leads hcycle hreach
    exact ⟨i, hi, fun u => (hmem u).trans ⟨hsame.trans, hsame.symm.trans⟩⟩

omit [DecidableEq α] in
theorem Ended.length_succ {r' : List α × Option Nat} (h : Ended next v r) (h' : Ended next w r') (hvw : next v = some w)
    (hcycle : ¬ TransGen (Leads next) v v) : r.1.length = r'.1.length + 1 := by
  obtain ⟨hnodup, hmem⟩ := h.passed
  obtain ⟨hnodup', hmem'⟩ := h'.passed
  have hperm : r.1.Perm (v :: r'.1) := by
    refine (perm_ext_iff_of_nodup hnodup (nodup_cons.2 ⟨fun hv => ?_, hnodup'⟩)).2 fun u => ?_
    · exact hcycle (.head' hvw ((hmem' v).1 hv))
    · rw [hmem, mem_cons, hmem', ReflTransGen.cases_head_iff]
      constructor
      · rintro (rfl | ⟨c, hvc, hcu⟩)
        · exact .inl rfl
        · obtain rfl : c = w := rightUnique hvc hvw
          exact .inr hcu
      · rintro (rfl | hwu)
        · exact .inl rfl
        · exact .inr ⟨w, hvw, hwu⟩
  rw [hperm.length_eq, length_cons]

end Follow
