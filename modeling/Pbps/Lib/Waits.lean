/-
A graph of what waits on what, kept as a map of sets. Links are added one at a time, each only where it closes no cycle, so
an acyclic graph stays one.
-/
import Mathlib.Algebra.Order.BigOperators.Group.Finset
import Pbps.Lib.Chain
import Pbps.Lib.Worklist

namespace Waits

open Std (ExtTreeMap ExtTreeSet TransOrd LawfulEqOrd)
open Relation (TransGen ReflTransGen)
open List Std.ExtTreeMap

def Acyclic {α : Type} (r : α → α → Prop) : Prop := ∀ v, ¬ TransGen r v v

theorem Acyclic.insert {α : Type} {r : α → α → Prop} {a b : α} (h : Acyclic r) (hback : ¬ ReflTransGen r b a) :
    Acyclic fun u v => r u v ∨ u = a ∧ v = b := by
  have hpath : ∀ {u v}, TransGen (fun u v => r u v ∨ u = a ∧ v = b) u v → TransGen r u v ∨ ReflTransGen r u a ∧ ReflTransGen r b v := by
    intro u v huv
    induction huv with
    | single huv =>
      rcases huv with huv | ⟨rfl, rfl⟩
      · exact .inl (.single huv)
      · exact .inr ⟨.refl, .refl⟩
    | @tail v w _ hvw ih =>
      rcases hvw with hvw | ⟨rfl, rfl⟩
      · exact ih.imp (·.tail hvw) fun hthrough => ⟨hthrough.1, hthrough.2.tail hvw⟩
      · rcases ih with huv | ⟨hua, -⟩
        · exact .inr ⟨huv.to_reflTransGen, .refl⟩
        · exact .inr ⟨hua, .refl⟩
  intro v hv
  rcases hpath hv with hcycle | ⟨hva, hbv⟩
  · exact h v hcycle
  · exact hback (hbv.trans hva)

variable {α : Type} [Ord α] [TransOrd α]

abbrev Graph (α : Type) [Ord α] [TransOrd α] := ExtTreeMap α (ExtTreeSet α)

namespace Graph

variable (g : Graph α)

def Leads (u v : α) : Prop := ∃ s, g[u]? = some s ∧ v ∈ s

def next (u : α) : List α := (g[u]?.getD ∅).toList

theorem mem_next [LawfulEqOrd α] {g : Graph α} {u v : α} : v ∈ g.next u ↔ g.Leads u v := by
  rw [next, ExtTreeSet.mem_toList, Leads]
  cases g[u]? with
  | none => simp
  | some s => simp

/-- Every vertex has an entry, and waits on vertices only. -/
structure Over (vertices : List α) : Prop where
  vertex : ∀ u, u ∈ g ↔ u ∈ vertices
  waited : ∀ u v, g.Leads u v → v ∈ vertices

/-! ## What reaches what -/

/-- Why a search stopped before its stack was empty. -/
inductive Stop where
  | found
  | exhausted
  deriving DecidableEq

/-- The search for a vertex: one taken up is marked, and what it waits on is put on top, the last on top of all. -/
def search [DecidableEq α] (to_ : α) : Worklist.Search α (ExtTreeSet α) Stop where
  seen seen at_ := seen.contains at_
  visit seen at_ := if at_ = to_ then .error .found else .ok (seen.insert at_, (g.next at_).reverse)

def room : Nat := 1 + (g.keys.map fun u => (g.next u).length).sum

def reaches [DecidableEq α] (from_ to_ : α) : Bool :=
  match Worklist.run (g.search to_) .exhausted g.room ∅ [from_] with
  | .error .found => true
  | _ => false

variable {g} {vertices : List α} {u v : α}

variable {from_ to_ a b : α} {memo : ExtTreeMap α Nat} {of : α → Prop}

theorem search_lawful [LawfulEqOrd α] [DecidableEq α] (h : g.Over vertices) (hfrom : from_ ∈ vertices) :
    Worklist.Lawful (g.search to_) g.Leads [from_] g.keys.toFinset fun u => (g.next u).length := by
  have hvisit : ∀ {s v s' pushed}, (g.search to_).visit s v = .ok (s', pushed) → s' = s.insert v ∧ pushed = (g.next v).reverse := by
    intro s v s' pushed hvisit
    rw [search] at hvisit
    dsimp only at hvisit
    split at hvisit
    case isTrue => cases hvisit
    case isFalse =>
      cases hvisit
      exact ⟨rfl, rfl⟩
  constructor
  case seen =>
    intro s v s' pushed hs u
    obtain ⟨rfl, -⟩ := hvisit hs
    show (s.insert v).contains u = true ↔ u = v ∨ s.contains u = true
    rw [ExtTreeSet.contains_iff_mem, ExtTreeSet.contains_iff_mem, ExtTreeSet.mem_insert,
      Std.LawfulEqOrd.compare_eq_iff_eq, eq_comm]
  case pushed =>
    intro s v s' pushed hs u
    obtain ⟨-, rfl⟩ := hvisit hs
    rw [mem_reverse, mem_next]
  case vertex =>
    intro s v s' pushed hreach _
    obtain ⟨u, hu, hpath⟩ := hreach
    obtain rfl := mem_singleton.1 hu
    rw [mem_toFinset, ExtTreeMap.mem_keys, h.vertex]
    rcases ReflTransGen.cases_tail hpath with rfl | ⟨w, -, hw⟩
    · exact hfrom
    · exact h.waited w v hw
  case length =>
    intro s v s' pushed hs
    obtain ⟨-, rfl⟩ := hvisit hs
    exact (length_reverse).le

theorem reaches_iff [LawfulEqOrd α] [DecidableEq α] (h : g.Over vertices) (hfrom : from_ ∈ vertices) :
    g.reaches from_ to_ = true ↔ ReflTransGen g.Leads from_ to_ := by
  have hstart : Worklist.Inv (g.search to_) g.Leads [from_] ∅ [from_] := Worklist.inv_start fun v => by simp [search]
  have hroom : Worklist.left (g.search to_) g.keys.toFinset (fun u => (g.next u).length) ∅ [from_] ≤ g.room := by
    rw [Worklist.left, room, length_singleton]
    refine Nat.add_le_add_left ?_ _
    rw [← sum_toFinset _ nodup_keys]
    exact Finset.sum_le_sum_of_subset_of_nonneg (Finset.filter_subset _ _) fun _ _ _ => Nat.zero_le _
  have hkeep : ∀ s v s' pushed, to_ ∉ s → Worklist.Reach g.Leads [from_] v → (g.search to_).seen s v = false →
      (g.search to_).visit s v = .ok (s', pushed) → to_ ∉ s' := by
    intro s v s' pushed hs _ _ hvisit
    rw [search] at hvisit
    dsimp only at hvisit
    split at hvisit
    case isTrue => cases hvisit
    case isFalse hne =>
      cases hvisit
      rw [ExtTreeSet.mem_insert, Std.LawfulEqOrd.compare_eq_iff_eq]
      exact fun hto => hto.elim hne hs
  have hreach : ∀ {v}, Worklist.Reach g.Leads [from_] v ↔ ReflTransGen g.Leads from_ v :=
    fun {v} => by simp [Worklist.Reach]
  rcases Worklist.run_spec (search_lawful h hfrom) .exhausted (to_ ∉ ·) hkeep g.room ∅ [from_] ExtTreeSet.not_mem_empty hstart hroom
    with ⟨s, hrun, hs, hseen⟩ | ⟨s, v, e, hrun, -, hv, hvisit⟩
  · rw [reaches, hrun, ← hreach, ← hseen]
    refine ⟨fun hfalse => Bool.noConfusion hfalse, fun hto => ?_⟩
    exact absurd (ExtTreeSet.contains_iff_mem.1 hto) hs
  · rw [search] at hvisit
    dsimp only at hvisit
    split at hvisit
    case isTrue hto =>
      cases hvisit
      rw [reaches, hrun]
      exact ⟨fun _ => hto ▸ hreach.1 hv, fun _ => rfl⟩
    case isFalse => cases hvisit

/-! ## Links added -/

def link (g : Graph α) (u v : α) : Graph α := g.modify u (·.insert v)

theorem leads_link [LawfulEqOrd α] (ha : a ∈ g) : (g.link a b).Leads u v ↔ g.Leads u v ∨ u = a ∧ v = b := by
  rw [Leads, Leads, link, ExtTreeMap.getElem?_modify]
  by_cases hau : a = u
  · subst hau
    obtain ⟨s, hs⟩ := mem_iff_exists.1 ha
    rw [if_pos Std.ReflOrd.compare_self, hs]
    have hmem : v ∈ s.insert b ↔ v ∈ s ∨ v = b := by
      rw [ExtTreeSet.mem_insert, Std.LawfulEqOrd.compare_eq_iff_eq, eq_comm, or_comm]
    simpa using hmem
  · rw [if_neg fun heq => hau (Std.LawfulEqOrd.eq_of_compare heq)]
    exact ⟨.inl, fun h => h.resolve_right fun heq => hau heq.1.symm⟩

theorem Over.link [LawfulEqOrd α] (h : g.Over vertices) (ha : a ∈ vertices) (hb : b ∈ vertices) :
    (g.link a b).Over vertices where
  vertex u := by rw [Graph.link, mem_modify, h.vertex]
  waited u v huv := by
    rcases (leads_link ((h.vertex a).2 ha)).1 huv with huv | ⟨-, rfl⟩
    · exact h.waited u v huv
    · exact hb

def linkUnless [DecidableEq α] (g : Graph α) (u v : α) : Graph α := if g.reaches v u then g else g.link u v

/-- An acyclic graph over some vertices that holds the links of a relation. -/
structure Sound (g : Graph α) (vertices : List α) (links : α → α → Prop) : Prop where
  inside : g.Over vertices
  acyclic : Acyclic g.Leads
  links : ∀ u v, links u v → g.Leads u v

theorem Sound.linkUnless [LawfulEqOrd α] [DecidableEq α] {links : α → α → Prop} (h : Sound g vertices links) (ha : a ∈ vertices)
    (hb : b ∈ vertices) : Sound (g.linkUnless a b) vertices links := by
  rw [Graph.linkUnless]
  split
  case isTrue => exact h
  case isFalse hnot =>
    have hleads : ∀ u v, (g.link a b).Leads u v ↔ g.Leads u v ∨ u = a ∧ v = b := fun u v => leads_link ((h.inside.vertex a).2 ha)
    have hback : ¬ ReflTransGen g.Leads b a := fun hba => hnot ((reaches_iff h.inside hb).2 hba)
    refine ⟨h.inside.link ha hb, fun v hv => ?_, fun u v huv => ?_⟩
    · exact h.acyclic.insert hback v (TransGen.mono (fun x y hxy => (hleads x y).1 hxy) v v hv)
    · exact (hleads u v).2 (.inl (h.links u v huv))

/-! ## Depths -/

def below (find : α → ExtTreeMap α Nat → Nat × ExtTreeMap α Nat) (x : Nat × ExtTreeMap α Nat) (v : α) :
    Nat × ExtTreeMap α Nat :=
  (max x.1 (1 + (find v x.2).1), (find v x.2).2)

/-- The depth of a vertex, the longest run of vertices it waits on, with the ones found before. A vertex whose own depth is
being found counts for nothing; it is `open_` for as long as that takes. -/
def depth (g : Graph α) : Nat → ExtTreeSet α → α → ExtTreeMap α Nat → Nat × ExtTreeMap α Nat
  | 0, _, _, memo => (0, memo)
  | fuel + 1, open_, at_, memo =>
    match memo[at_]? with
    | some d => (d, memo)
    | none =>
      if open_.contains at_ then (0, memo)
      else
        let (d, memo) := (g.next at_).foldl (below (g.depth fuel (open_.insert at_))) (0, memo)
        (d, memo.insert at_ d)

def place (g : Graph α) (fuel : Nat) (x : ExtTreeMap α Nat × ExtTreeMap α Nat) (u : α) : ExtTreeMap α Nat × ExtTreeMap α Nat :=
  let (d, memo) := g.depth fuel ∅ u x.2
  (x.1.insert u d, memo)

/-- The depths of some vertices, found one after the other with one memo. -/
def depths (g : Graph α) (vertices : List α) : ExtTreeMap α Nat := (vertices.foldl (g.place (vertices.length + 1)) (∅, ∅)).1

/-- Each depth found is above those of what the vertex waits on, which were found too. -/
def Above (g : Graph α) (memo : ExtTreeMap α Nat) : Prop :=
  ∀ (u : α) (d : Nat), memo[u]? = some d → ∀ v, g.Leads u v → ∃ e, memo[v]? = some e ∧ e < d

/-- What finding depths adds to those found before: nothing of these changes, and the rest is of vertices in a set. -/
structure Adds (memo memo' : ExtTreeMap α Nat) (of : α → Prop) : Prop where
  keeps : ∀ (u : α) (d : Nat), memo[u]? = some d → memo'[u]? = some d
  new : ∀ (u : α) (d : Nat), memo'[u]? = some d → memo[u]? = some d ∨ of u

theorem Adds.refl : Adds memo memo of := ⟨fun _ _ h => h, fun _ _ h => .inl h⟩

theorem Adds.trans {memo' memo'' : ExtTreeMap α Nat} (h : Adds memo memo' of) (h' : Adds memo' memo'' of) :
    Adds memo memo'' of where
  keeps u d hu := h'.keeps u d (h.keeps u d hu)
  new u d hu := (h'.new u d hu).elim (h.new u d) .inr

variable [LawfulEqOrd α]

/-- What finding the depth of a vertex comes to. -/
structure Found (g : Graph α) (at_ : α) (memo : ExtTreeMap α Nat) (r : Nat × ExtTreeMap α Nat) : Prop where
  above : g.Above r.2
  adds : Adds memo r.2 (ReflTransGen g.Leads at_)
  found : r.2[at_]? = some r.1

omit [LawfulEqOrd α] in
theorem foldl_below (at_ : α) (find : α → ExtTreeMap α Nat → Nat × ExtTreeMap α Nat)
    (hfind : ∀ v memo, g.Leads at_ v → g.Above memo → g.Found v memo (find v memo)) : ∀ (vs : List α) (d : Nat) (memo : ExtTreeMap α Nat),
    (∀ v ∈ vs, g.Leads at_ v) → g.Above memo →
      let r := vs.foldl (below find) (d, memo)
      g.Above r.2 ∧ Adds memo r.2 (TransGen g.Leads at_) ∧ d ≤ r.1 ∧ ∀ v ∈ vs, ∃ e, r.2[v]? = some e ∧ e < r.1
  | [], d, memo, _, habove => ⟨habove, .refl, Nat.le_refl d, fun _ hv => absurd hv not_mem_nil⟩
  | v :: vs, d, memo, hall, habove => by
    have hv := hfind v memo (hall v mem_cons_self) habove
    obtain ⟨habove', hadds, hle, hbelow⟩ := foldl_below at_ find hfind vs (max d (1 + (find v memo).1)) (find v memo).2
      (fun w hw => hall w (mem_cons_of_mem _ hw)) hv.above
    have hfirst : Adds memo (find v memo).2 (TransGen g.Leads at_) := by
      refine ⟨hv.adds.keeps, fun u e hu => (hv.adds.new u e hu).imp_right fun hvu => ?_⟩
      exact .head' (hall v mem_cons_self) hvu
    refine ⟨habove', hfirst.trans hadds, le_trans (le_max_left _ _) hle, fun w hw => ?_⟩
    rcases mem_cons.1 hw with rfl | hw
    · have hlt : 1 + (find w memo).1 ≤ ((w :: vs).foldl (below find) (d, memo)).1 := le_trans (le_max_right _ _) hle
      exact ⟨_, hadds.keeps _ _ hv.found, by omega⟩
    · exact hbelow w hw

theorem Above.insert {at_ : α} {d : Nat} (h : g.Above memo) (hnew : memo[at_]? = none)
    (hbelow : ∀ v, g.Leads at_ v → ∃ e, memo[v]? = some e ∧ e < d) : g.Above (memo.insert at_ d) := by
  have hkeep : ∀ {v : α} {e : Nat}, memo[v]? = some e → (memo.insert at_ d)[v]? = some e := by
    intro v e hv
    have hne : v ≠ at_ := by
      rintro rfl
      rw [hnew] at hv
      cases hv
    rw [getElem?_insert_of_ne hne, hv]
  intro u e hu v huv
  rcases getElem?_insert_eq_some.1 hu with ⟨rfl, rfl⟩ | ⟨-, hu⟩
  · obtain ⟨f, hf, hlt⟩ := hbelow v huv
    exact ⟨f, hkeep hf, hlt⟩
  · obtain ⟨f, hf, hlt⟩ := h u e hu v huv
    exact ⟨f, hkeep hf, hlt⟩

theorem depth_found (hover : g.Over vertices) (hacyclic : Acyclic g.Leads) : ∀ (fuel : Nat) (open_ : ExtTreeSet α) (at_ : α)
    (memo : ExtTreeMap α Nat), Chain.Passed g.Leads vertices open_ at_ → at_ ∈ vertices → vertices.length < open_.size + fuel →
      g.Above memo → g.Found at_ memo (g.depth fuel open_ at_ memo)
  | 0, open_, at_, memo, hpassed, _, hfuel, _ => by
    have hle := hpassed.size_le
    omega
  | fuel + 1, open_, at_, memo, hpassed, hat, hfuel, habove => by
    rw [depth]
    cases hmemo : memo[at_]? with
    | some d => exact ⟨habove, .refl, hmemo⟩
    | none =>
      have hopen : ¬ open_.contains at_ = true := fun hcontains => hacyclic at_ (hpassed.cycle hcontains)
      have hsize := Chain.size_insert_of_new hopen
      obtain ⟨habove', hadds, -, hbelow⟩ := foldl_below (g := g) at_ (g.depth fuel (open_.insert at_))
        (fun v memo hv hmemo => depth_found hover hacyclic fuel (open_.insert at_) v memo (hpassed.next hat hv)
          (hover.waited at_ v hv) (by omega) hmemo) (g.next at_) 0 memo (fun v hv => mem_next.1 hv) habove
      dsimp only
      rw [if_neg hopen]
      generalize (g.next at_).foldl (below (g.depth fuel (open_.insert at_))) (0, memo) = r at *
      have hnew : r.2[at_]? = none := by
        cases hr : r.2[at_]? with
        | none => rfl
        | some d =>
          rcases hadds.new at_ d hr with hold | hcycle
          · rw [hmemo] at hold
            cases hold
          · exact absurd hcycle (hacyclic at_)
      refine ⟨habove'.insert hnew fun v hv => hbelow v (mem_next.2 hv), ⟨fun u d hu => ?_, fun u d hu => ?_⟩,
        getElem?_insert_self⟩
      · have hne : u ≠ at_ := by
          rintro rfl
          rw [hmemo] at hu
          cases hu
        rw [getElem?_insert_of_ne hne]
        exact hadds.keeps u d hu
      · rcases getElem?_insert_eq_some.1 hu with ⟨rfl, -⟩ | ⟨-, hu⟩
        · exact .inr .refl
        · exact (hadds.new u d hu).imp_right TransGen.to_reflTransGen

/-- The depths found so far are those of the memo. -/
structure Placed (g : Graph α) (done : List α) (x : ExtTreeMap α Nat × ExtTreeMap α Nat) : Prop where
  above : g.Above x.2
  agree : ∀ (u : α) (d : Nat), x.1[u]? = some d → x.2[u]? = some d
  placed : ∀ u ∈ done, ∃ d : Nat, x.1[u]? = some d

theorem Placed.place (hover : g.Over vertices) (hacyclic : Acyclic g.Leads) {done : List α}
    {x : ExtTreeMap α Nat × ExtTreeMap α Nat} (h : g.Placed done x) (hu : u ∈ vertices) :
    g.Placed (done ++ [u]) (g.place (vertices.length + 1) x u) := by
  have hfound := depth_found hover hacyclic (vertices.length + 1) ∅ u x.2 Chain.passed_start hu (by omega) h.above
  refine ⟨hfound.above, fun w d hw => ?_, fun w hw => ?_⟩
  · rcases getElem?_insert_eq_some.1 hw with ⟨rfl, rfl⟩ | ⟨-, hw⟩
    · exact hfound.found
    · exact hfound.adds.keeps w d (h.agree w d hw)
  · by_cases hwu : w = u
    · subst hwu
      exact ⟨_, getElem?_insert_self⟩
    · obtain ⟨d, hd⟩ := h.placed w ((mem_append.1 hw).resolve_right fun hlast => hwu (mem_singleton.1 hlast))
      exact ⟨d, (getElem?_insert_of_ne hwu).trans hd⟩

theorem Placed.foldl (hover : g.Over vertices) (hacyclic : Acyclic g.Leads) : ∀ (us done : List α)
    (x : ExtTreeMap α Nat × ExtTreeMap α Nat), (∀ u ∈ us, u ∈ vertices) → g.Placed done x →
      g.Placed (done ++ us) (us.foldl (g.place (vertices.length + 1)) x)
  | [], done, x, _, h => by rwa [append_nil]
  | u :: us, done, x, hall, h => by
    have hstep := h.place hover hacyclic (hall u mem_cons_self)
    have hrest := Placed.foldl hover hacyclic us _ _ (fun w hw => hall w (mem_cons_of_mem _ hw)) hstep
    rwa [append_assoc] at hrest

/-- In an acyclic graph every vertex has a depth, above those of all it waits on. -/
theorem depths_above (hover : g.Over vertices) (hacyclic : Acyclic g.Leads) :
    (∀ u ∈ vertices, ∃ d : Nat, (g.depths vertices)[u]? = some d) ∧
      ∀ u v, g.Leads u v → ∃ d e : Nat, (g.depths vertices)[u]? = some d ∧ (g.depths vertices)[v]? = some e ∧ e < d := by
  have hstart : g.Placed [] (∅, ∅) := ⟨fun u d hu => by simp at hu, fun u d hu => by simp at hu, fun u hu => absurd hu not_mem_nil⟩
  have hplaced := Placed.foldl hover hacyclic vertices [] (∅, ∅) (fun _ hu => hu) hstart
  rw [nil_append] at hplaced
  refine ⟨hplaced.placed, fun u v huv => ?_⟩
  have hu : u ∈ vertices := by
    obtain ⟨s, hs, -⟩ := id huv
    exact (hover.vertex u).1 (mem_of_getElem?_eq hs)
  obtain ⟨d, hd⟩ := hplaced.placed u hu
  obtain ⟨e, he⟩ := hplaced.placed v (hover.waited u v huv)
  obtain ⟨e', he', hlt⟩ := hplaced.above u d (hplaced.agree u d hd) v huv
  obtain rfl : e' = e := Option.some.inj (he'.symm.trans (hplaced.agree v e he))
  exact ⟨d, e', hd, he, hlt⟩

end Graph

end Waits
