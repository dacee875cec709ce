/-
Strongly connected components by two searches with a work list. The first lists the vertices as they are finished, each
when its mark below what it leads to is taken off; the second takes them from the last on and gathers, against the edges,
what leads to each.
-/
import Pbps.Lib.Chain
import Pbps.Lib.Worklist
import Mathlib.Algebra.Order.BigOperators.Group.Finset

namespace Kosaraju

open Std (ExtTreeMap ExtTreeSet TransOrd LawfulEqOrd)
open Relation (ReflTransGen)
open Worklist (Search run)
open Component (Same Partition)
open List (append_of_mem foldl_cons length_cons mem_append mem_cons mem_cons_of_mem mem_cons_self mem_map
  mem_singleton not_mem_nil pairwise_cons)
open Std.ExtTreeSet (contains_iff_mem mem_toList not_mem_empty)
open Std.ExtTreeMap

variable {α : Type} [Ord α] [TransOrd α]

/-! ## The searches -/

/-- A search that had no room left. -/
structure Exhausted where

section

variable (graph reverse : ExtTreeMap α (ExtTreeSet α))

def link (a : α) (reverse : ExtTreeMap α (ExtTreeSet α)) (b : α) : ExtTreeMap α (ExtTreeSet α) :=
  reverse.insert b ((reverse.getD b ∅).insert a)

def linkAll (reverse : ExtTreeMap α (ExtTreeSet α)) (e : α × ExtTreeSet α) : ExtTreeMap α (ExtTreeSet α) :=
  e.2.toList.foldl (link e.1) (reverse.insertIfNew e.1 ∅)

def reversed : ExtTreeMap α (ExtTreeSet α) := graph.toList.foldl linkAll ∅

def next (node : α) : List α := (graph.getD node ∅).toList

/-- The vertices seen and those finished. An entry that is a mark finishes its vertex. -/
def finishing : Search (α × Bool) (ExtTreeSet α × List α) Exhausted where
  seen s e := !e.2 && s.1.contains e.1
  visit s e :=
    .ok <| if e.2 then ((s.1, s.2 ++ [e.1]), [])
      else ((s.1.insert e.1, s.2), (next graph e.1).map (·, false) ++ [(e.1, true)])

def gathering : Search α (ExtTreeSet α × List α) Exhausted where
  seen s node := s.1.contains node
  visit s node := .ok ((s.1.insert node, s.2 ++ [node]), (next reverse node).reverse)

/-- The turns one search can take: one for where it starts, and for each vertex one and one for each edge. -/
def room : Nat := 1 + ((reversed graph).keys.map fun v => (next graph v).length + 1).sum

def roomBack : Nat := 1 + ((reversed graph).keys.map fun v => (next (reversed graph) v).length).sum

def finishOrder : Except Exhausted (ExtTreeSet α × List α) :=
  (reversed graph).keys.foldlM (fun s start => run (finishing graph) {} (room graph) s [(start, false)]) (∅, [])

/-- The component of a vertex that has not been gathered yet, in order. -/
def gather (s : ExtTreeSet α × List (List α)) (start : α) : Except Exhausted (ExtTreeSet α × List (List α)) :=
  if s.1.contains start then .ok s
  else
    (run (gathering (reversed graph)) {} (roomBack graph) (s.1, []) [start]).map fun g =>
      (g.1, s.2 ++ [g.2.mergeSort fun a b => (compare a b).isLE])

def components : Except Exhausted (List (List α)) := do
  let order ← finishOrder graph
  let s ← order.2.reverse.foldlM (gather graph) (∅, [])
  pure s.2

end

/-! ## The edges the other way -/

abbrev Leads (graph : ExtTreeMap α (ExtTreeSet α)) (u v : α) : Prop := v ∈ graph.getD u ∅

variable {graph reverse : ExtTreeMap α (ExtTreeSet α)} {u v : α}

variable [LawfulEqOrd α]

theorem mem_next : v ∈ next graph u ↔ Leads graph u v := mem_toList

theorem foldl_link {a : α} : ∀ {l : List α} {r : ExtTreeMap α (ExtTreeSet α)},
    (∀ u v, Leads (l.foldl (link a) r) v u ↔ Leads r v u ∨ u = a ∧ v ∈ l) ∧
      ∀ v, v ∈ l.foldl (link a) r ↔ v ∈ r ∨ v ∈ l
  | [], _ => by simp
  | b :: l, reverse => by
    obtain ⟨hleads, hmem⟩ := foldl_link (a := a) (l := l) (r := link a reverse b)
    refine ⟨fun u v => ?_, fun v => ?_⟩
    · have hlink : Leads (link a reverse b) v u ↔ Leads reverse v u ∨ u = a ∧ v = b := by
        by_cases hv : b = v
        · subst hv
          rw [Leads, link, getD_insert_self, ExtTreeSet.mem_insert, Std.LawfulEqOrd.compare_eq_iff_eq,
            eq_comm (a := a), or_comm, and_iff_left rfl]
        · simp [Leads, link, getD_insert, hv, Ne.symm hv]
      rw [foldl_cons, hleads, hlink, mem_cons]
      tauto
    · rw [foldl_cons, hmem, mem_cons, link, mem_insert, Std.LawfulEqOrd.compare_eq_iff_eq]
      tauto

theorem foldl_linkAll : ∀ {l : List (α × ExtTreeSet α)} {r : ExtTreeMap α (ExtTreeSet α)},
    (∀ u v, Leads (l.foldl linkAll r) v u ↔ Leads r v u ∨ ∃ e ∈ l, e.1 = u ∧ v ∈ e.2) ∧
      ∀ v, v ∈ l.foldl linkAll r ↔ v ∈ r ∨ ∃ e ∈ l, e.1 = v ∨ v ∈ e.2
  | [], _ => by simp
  | e :: entries, reverse => by
    obtain ⟨hleads, hmem⟩ := foldl_linkAll (l := entries) (r := linkAll reverse e)
    obtain ⟨hlink, hkeys⟩ := foldl_link (a := e.1) (l := e.2.toList) (r := reverse.insertIfNew e.1 ∅)
    refine ⟨fun u v => ?_, fun v => ?_⟩
    · have hnew : Leads (reverse.insertIfNew e.1 ∅) v u ↔ Leads reverse v u := by
        rw [Leads, getD_insertIfNew]
        split
        · rename_i h
          rw [Leads, getD_eq_fallback (Std.LawfulEqOrd.eq_of_compare h.1 ▸ h.2)]
        · rfl
      rw [foldl_cons, hleads, linkAll, hlink, hnew, mem_toList, List.exists_mem_cons_iff, eq_comm (a := u)]
      tauto
    · rw [foldl_cons, hmem, linkAll, hkeys, mem_insertIfNew, mem_toList,
        Std.LawfulEqOrd.compare_eq_iff_eq, List.exists_mem_cons_iff]
      simp only [or_assoc, or_left_comm]

theorem exists_entry_iff : (∃ e ∈ graph.toList, e.1 = u ∧ v ∈ e.2) ↔ Leads graph u v := by
  rw [Leads, getD_eq_getD_getElem?]
  constructor
  · rintro ⟨⟨u, on⟩, he, rfl, hv⟩
    rw [getElem?_of_mem_toList he]
    exact hv
  · intro hv
    cases hon : graph[u]? with
    | none => rw [hon] at hv; exact absurd hv ExtTreeSet.not_mem_empty
    | some on =>
      rw [hon] at hv
      exact ⟨(u, on), mem_toList_iff_getElem?_eq_some.2 hon, rfl, hv⟩

theorem leads_reversed : Leads (reversed graph) v u ↔ Leads graph u v := by
  rw [reversed, foldl_linkAll.1, exists_entry_iff, or_iff_right]
  rw [Leads, getD_empty]
  exact ExtTreeSet.not_mem_empty

theorem mem_reversed : v ∈ reversed graph ↔ v ∈ graph ∨ ∃ u, Leads graph u v := by
  rw [reversed, foldl_linkAll.2]
  simp only [← exists_entry_iff, ExtTreeMap.not_mem_empty, false_or]
  constructor
  · rintro ⟨e, he, rfl | hv⟩
    · exact .inl (ExtTreeMap.mem_of_getElem?_eq (ExtTreeMap.getElem?_of_mem_toList he))
    · exact .inr ⟨e.1, e, he, rfl, hv⟩
  · rintro (hv | ⟨u, e, he, -, hv⟩)
    · obtain ⟨on, hon⟩ := mem_iff_exists.1 hv
      exact ⟨(v, on), ExtTreeMap.mem_toList_iff_getElem?_eq_some.2 hon, .inl rfl⟩
    · exact ⟨e, he, .inr hv⟩

theorem mem_reversed_of_leads (h : Leads graph u v) : u ∈ reversed graph ∧ v ∈ reversed graph := by
  refine ⟨mem_reversed.2 (.inl ?_), mem_reversed.2 (.inr ⟨u, h⟩)⟩
  obtain ⟨e, he, rfl, -⟩ := exists_entry_iff.2 h
  exact mem_of_getElem?_eq (getElem?_of_mem_toList he)

/-! ## The first search -/

def opened (todo : List (α × Bool)) : List α := (todo.filter (·.2)).map (·.1)

omit [Ord α] [TransOrd α] [LawfulEqOrd α] in
theorem mem_opened {todo : List (α × Bool)} : v ∈ opened todo ↔ (v, true) ∈ todo := by
  simp [opened, List.mem_filter]

def Waits (graph : ExtTreeMap α (ExtTreeSet α)) (seen : ExtTreeSet α) : List α → List (α × Bool) → Prop
  | _, [] => True
  | above, (v, false) :: todo => Waits graph seen (v :: above) todo
  | above, (v, true) :: todo => (∀ w, Leads graph v w → w ∈ seen ∨ w ∈ above) ∧ Waits graph seen above todo

variable {seen seen' : ExtTreeSet α} {order : List α} {todo : List (α × Bool)}

omit [LawfulEqOrd α] in
theorem Waits.mono (hseen : ∀ w ∈ seen, w ∈ seen') : ∀ {above above' : List α} {t : List (α × Bool)},
    (∀ w ∈ above, w ∈ seen' ∨ w ∈ above') → Waits graph seen above t → Waits graph seen' above' t
  | _, _, [], _, _ => trivial
  | above, above', (v, false) :: todo, habove, h => by
    refine Waits.mono (t := todo) hseen (fun w hw => ?_) h
    rcases mem_cons.1 hw with rfl | hw
    · exact .inr mem_cons_self
    · exact (habove w hw).imp_right (mem_cons_of_mem _)
  | _, _, (v, true) :: _, habove, h =>
    ⟨fun w hw => (h.1 w hw).elim (fun hw => .inl (hseen w hw)) (habove w), Waits.mono hseen habove h.2⟩

omit [LawfulEqOrd α] in
theorem waits_map : ∀ {l above : List α}, Waits graph seen above (l.map (·, false) ++ todo) ↔
    Waits graph seen (l.reverse ++ above) todo
  | [], _ => Iff.rfl
  | v :: l, above => by
    rw [List.reverse_cons, List.append_assoc]
    exact waits_map (l := l)

/-- What a search keeps. A vertex that was finished is in one component with a vertex that is not, or that was finished
after it, or else leads to nothing finished after it. -/
structure Finished (graph : ExtTreeMap α (ExtTreeSet α)) (seen : ExtTreeSet α) (order : List α) (todo : List (α × Bool)) :
    Prop where
  seen_iff : ∀ v, v ∈ seen ↔ v ∈ order ++ opened todo
  nodup : (order ++ opened todo).Nodup
  vertex : ∀ v, v ∈ seen ∨ (v, false) ∈ todo → v ∈ reversed graph
  closed : ∀ u ∈ order, ∀ v, Leads graph u v → v ∈ seen
  waits : Waits graph seen [] todo
  reach : todo.Pairwise fun a b => b.2 = true → ReflTransGen (Leads graph) b.1 a.1
  last : ∀ pre v post, order = pre ++ v :: post → (∃ g ∈ post ++ opened todo, Same (Leads graph) g v) ∨
    ∀ w, ReflTransGen (Leads graph) v w → w ∈ pre ∨ w = v

omit [LawfulEqOrd α] in
theorem Finished.skip (h : Finished graph seen order ((v, false) :: todo)) (hv : v ∈ seen) : Finished graph seen order todo where
  seen_iff := h.seen_iff
  nodup := h.nodup
  vertex u hu := h.vertex u (hu.imp_right (mem_cons_of_mem _))
  closed := h.closed
  waits := by
    refine Waits.mono (fun _ hw => hw) (fun w hw => .inl ?_) h.waits
    rw [mem_singleton.1 hw]
    exact hv
  reach := (pairwise_cons.1 h.reach).2
  last := h.last

theorem Finished.enter (h : Finished graph seen order ((v, false) :: todo)) (hv : v ∉ seen) :
    Finished graph (seen.insert v) order ((next graph v).map (·, false) ++ (v, true) :: todo) := by
  have hopened : opened ((next graph v).map (·, false) ++ (v, true) :: todo) = v :: opened todo := by
    simp [opened, List.filter_map]
  have hinsert : ∀ u, u ∈ seen.insert v ↔ v = u ∨ u ∈ seen := fun u => by
    rw [ExtTreeSet.mem_insert, Std.LawfulEqOrd.compare_eq_iff_eq]
  have hseen : ∀ u, u ∈ seen ↔ u ∈ order ++ opened todo := h.seen_iff
  obtain ⟨hfirst, hreach⟩ := pairwise_cons.1 h.reach
  constructor
  case seen_iff =>
    intro u
    rw [hinsert, hseen, hopened, mem_append, mem_append, mem_cons]
    tauto
  case nodup =>
    rw [hopened, List.nodup_middle, List.nodup_cons, ← hseen]
    exact ⟨hv, h.nodup⟩
  case vertex =>
    intro u hu
    rw [hinsert, mem_append, mem_cons] at hu
    rcases hu with (rfl | hu) | hu | hu | hu
    · exact h.vertex _ (.inr mem_cons_self)
    · exact h.vertex u (.inl hu)
    · obtain ⟨w, hw, he⟩ := List.mem_map.1 hu
      cases he
      exact mem_reversed.2 (.inr ⟨v, mem_next.1 hw⟩)
    · cases hu
    · exact h.vertex u (.inr (mem_cons_of_mem _ hu))
  case closed => exact fun u hu w hw => (hinsert w).2 (.inr (h.closed u hu w hw))
  case waits =>
    rw [waits_map]
    refine ⟨fun w hw => .inr (by simpa using mem_next.2 hw), ?_⟩
    refine Waits.mono (fun w hw => (hinsert w).2 (.inr hw)) (fun w hw => .inl ?_) h.waits
    exact (hinsert w).2 (.inl (mem_singleton.1 hw).symm)
  case reach =>
    rw [List.pairwise_append, pairwise_cons]
    refine ⟨?_, ⟨hfirst, hreach⟩, ?_⟩
    · exact List.pairwise_map.2 (List.pairwise_of_forall fun _ _ hf => absurd hf Bool.false_ne_true)
    · intro a ha b hb hmark
      obtain ⟨w, hw, rfl⟩ := List.mem_map.1 ha
      rcases mem_cons.1 hb with rfl | hb
      · exact .single (mem_next.1 hw)
      · exact (hfirst b hb hmark).tail (mem_next.1 hw)
  case last =>
    intro pre u post heq
    refine (h.last pre u post heq).imp_left ?_
    rintro ⟨g, hg, hsame⟩
    refine ⟨g, ?_, hsame⟩
    rw [hopened]
    exact (List.append_sublist_append_left post).2 (List.sublist_cons_self v _) |>.subset hg

omit [LawfulEqOrd α] in
/-- A vertex is finished: either an open vertex leads back to it, or all it leads to is finished. -/
theorem Finished.finish (h : Finished graph seen order ((v, true) :: todo)) : Finished graph seen (order ++ [v]) todo := by
  have hopened : order ++ opened ((v, true) :: todo) = (order ++ [v]) ++ opened todo := by simp [opened]
  obtain ⟨hfirst, hreach⟩ := pairwise_cons.1 h.reach
  have hseen : ∀ u, u ∈ seen ↔ u ∈ (order ++ [v]) ++ opened todo := fun u => by rw [← hopened]; exact h.seen_iff u
  have hclosed : ∀ u ∈ order ++ [v], ∀ w, Leads graph u w → w ∈ seen := by
    intro u hu w hw
    rcases mem_append.1 hu with hu | hu
    · exact h.closed u hu w hw
    · rw [mem_singleton.1 hu] at hw
      exact (h.waits.1 w hw).resolve_right not_mem_nil
  refine ⟨hseen, hopened ▸ h.nodup, fun u hu => h.vertex u (hu.imp_right (mem_cons_of_mem _)), hclosed, h.waits.2, hreach, ?_⟩
  intro pre u post heq
  rcases List.eq_nil_or_concat post with rfl | ⟨post, w, rfl⟩
  · obtain ⟨rfl, he⟩ := List.append_inj' heq rfl
    cases he
    by_cases hback : ∃ g ∈ opened todo, Same (Leads graph) g v
    · exact .inl hback
    · refine .inr fun w hw => ?_
      rw [← mem_singleton, ← mem_append]
      induction hw with
      | refl => simp
      | @tail a b hva hab ih =>
        rcases mem_append.1 ((hseen b).1 (hclosed a ih b hab)) with hb | hb
        · exact hb
        · exact absurd ⟨b, hb, hfirst _ (mem_opened.1 hb) rfl, hva.tail hab⟩ hback
  · obtain ⟨rfl, he⟩ := List.append_inj' (heq.trans (by simp : _ = (pre ++ u :: post) ++ [w])) rfl
    cases he
    simpa [opened] using h.last pre u post rfl

variable [DecidableEq α]

def left (graph : ExtTreeMap α (ExtTreeSet α)) (seen : ExtTreeSet α) (todo : List (α × Bool)) : Nat :=
  todo.length + ∑ v ∈ (reversed graph).keys.toFinset.filter (· ∉ seen), ((next graph v).length + 1)

theorem left_enter (hv : v ∉ seen) (hmem : v ∈ reversed graph) :
    left graph (seen.insert v) ((next graph v).map (·, false) ++ (v, true) :: todo) < left graph seen ((v, false) :: todo) := by
  have hin : v ∈ (reversed graph).keys.toFinset.filter (· ∉ seen) := by simp [hmem, hv]
  have herase : (reversed graph).keys.toFinset.filter (· ∉ seen.insert v) =
      ((reversed graph).keys.toFinset.filter (· ∉ seen)).erase v := by
    ext u
    simp only [Finset.mem_filter, Finset.mem_erase, ExtTreeSet.mem_insert, Std.LawfulEqOrd.compare_eq_iff_eq]
    tauto
  have hsum := Finset.add_sum_erase _ (fun v => (next graph v).length + 1) hin
  rw [left, left, herase, List.length_append, List.length_map, length_cons, length_cons]
  omega

theorem run_finishing : ∀ (fuel : Nat) {seen : ExtTreeSet α} {order : List α} {todo : List (α × Bool)},
    Finished graph seen order todo → left graph seen todo ≤ fuel →
      ∃ seen' order', run (finishing graph) {} fuel (seen, order) todo = .ok (seen', order') ∧
        Finished graph seen' order' [] ∧ ∀ v, v ∈ seen ∨ (v, false) ∈ todo → v ∈ seen'
  | fuel, seen, order, [], h, _ => ⟨seen, order, by cases fuel <;> rfl, h, fun v hv => hv.resolve_right not_mem_nil⟩
  | 0, _, _, _ :: _, _, hfuel => by
    rw [left, length_cons] at hfuel
    omega
  | fuel + 1, seen, order, (v, true) :: todo, h, hfuel => by
    obtain ⟨seen', order', hrun, hinv, hall⟩ := run_finishing fuel h.finish (by
      rw [left, length_cons] at hfuel
      rw [left]
      omega)
    exact ⟨seen', order', hrun, hinv, fun u hu => hall u (hu.imp_right (by simp))⟩
  | fuel + 1, seen, order, (v, false) :: todo, h, hfuel => by
    by_cases hv : v ∈ seen
    · obtain ⟨seen', order', hrun, hinv, hall⟩ := run_finishing fuel (h.skip hv) (by
        rw [left, length_cons] at hfuel
        rw [left]
        omega)
      refine ⟨seen', order', ?_, hinv, fun u hu => hall u ?_⟩
      · rw [run, if_pos (by simpa [finishing] using hv)]
        exact hrun
      · rcases hu with hu | hu
        · exact .inl hu
        · rcases mem_cons.1 hu with he | hu
          · cases he
            exact .inl hv
          · exact .inr hu
    · have hlt := @left_enter α _ _ graph v _ seen todo _ hv (h.vertex v (.inr mem_cons_self))
      obtain ⟨seen', order', hrun, hinv, hall⟩ := run_finishing fuel (h.enter hv) (by omega)
      refine ⟨seen', order', ?_, hinv, fun u hu => hall u ?_⟩
      · rw [run, if_neg (by simpa [finishing] using hv), ← hrun]
        simp [finishing]
      · rw [ExtTreeSet.mem_insert, Std.LawfulEqOrd.compare_eq_iff_eq]
        rcases hu with hu | hu
        · exact .inl (.inr hu)
        · rcases mem_cons.1 hu with he | hu
          · cases he
            exact .inl (.inl rfl)
          · exact .inr (by simp [hu])

theorem foldlM_finishing : ∀ {l : List α} {seen : ExtTreeSet α} {order : List α}, (∀ v ∈ l, v ∈ reversed graph) →
    Finished graph seen order [] → ∃ seen' order',
      l.foldlM (fun s start => run (finishing graph) {} (room graph) s [(start, false)]) (seen, order) = .ok (seen', order') ∧
        Finished graph seen' order' [] ∧ ∀ v, v ∈ seen ∨ v ∈ l → v ∈ seen'
  | [], seen, order, _, h => ⟨seen, order, rfl, h, fun v hv => hv.resolve_right not_mem_nil⟩
  | start :: starts, seen, order, hstarts, h => by
    have hstart : Finished graph seen order [(start, false)] := by
      refine ⟨h.seen_iff, h.nodup, ?_, h.closed, trivial, List.pairwise_singleton _ _, h.last⟩
      rintro v (hv | hv)
      · exact h.vertex v (.inl hv)
      · cases mem_singleton.1 hv
        exact hstarts _ mem_cons_self
    have hroom : left graph seen [(start, false)] ≤ room graph := by
      rw [left, room, ← List.sum_toFinset _ nodup_keys]
      exact Nat.add_le_add_left (Finset.sum_le_sum_of_subset (Finset.filter_subset _ _)) _
    obtain ⟨seen₁, order₁, hrun, hinv, hall⟩ := run_finishing (room graph) hstart hroom
    obtain ⟨seen', order', hrest, hinv', hall'⟩ :=
      foldlM_finishing (l := starts) (fun v hv => hstarts v (mem_cons_of_mem _ hv)) hinv
    refine ⟨seen', order', ?_, hinv', fun v hv => hall' v ?_⟩
    · rw [List.foldlM_cons, hrun]
      exact hrest
    · rw [mem_cons] at hv
      rcases hv with hv | rfl | hv
      · exact .inl (hall v (.inl hv))
      · exact .inl (hall v (.inr mem_cons_self))
      · exact .inr hv

theorem finishOrder_eq : ∃ seen order, finishOrder graph = .ok (seen, order) ∧ Finished graph seen order [] ∧
    ∀ v, v ∈ order ↔ v ∈ reversed graph := by
  obtain ⟨seen, order, hrun, h, hall⟩ := @foldlM_finishing α _ _ graph _ _ (reversed graph).keys ∅ []
    (fun v => mem_keys.1) ⟨by simp [opened], by simp [opened], by simp, by simp, trivial, .nil, by simp⟩
  refine ⟨seen, order, hrun, h, fun v => ?_⟩
  have hseen : v ∈ seen ↔ v ∈ order := by simpa [opened] using h.seen_iff v
  rw [← hseen]
  exact ⟨fun hv => h.vertex v (.inl hv), fun hv => hall v (.inr (mem_keys.2 hv))⟩

/-! ## The second search -/

theorem gathering_lawful {start : List α} (hstart : ∀ v ∈ start, v ∈ reversed graph) :
    Worklist.Lawful (gathering (reversed graph)) (Function.swap (Leads graph)) start (reversed graph).keys.toFinset
      fun v => (next (reversed graph) v).length := by
  constructor
  case seen =>
    intro s v s' pushed h u
    cases h
    show (s.1.insert v).contains u = true ↔ u = v ∨ s.1.contains u = true
    rw [ExtTreeSet.contains_iff_mem, ExtTreeSet.contains_iff_mem, ExtTreeSet.mem_insert,
      Std.LawfulEqOrd.compare_eq_iff_eq, eq_comm]
  case pushed =>
    intro s v s' pushed h u
    cases h
    rw [List.mem_reverse, mem_next]
    exact leads_reversed
  case vertex =>
    rintro s v s' pushed ⟨r, hr, hpath⟩ -
    rw [List.mem_toFinset, mem_keys]
    rcases Relation.ReflTransGen.cases_tail hpath with rfl | ⟨b, -, hb⟩
    · exact hstart _ hr
    · exact (mem_reversed_of_leads hb).1
  case length =>
    intro s v s' pushed h
    cases h
    exact List.length_reverse.le

/-- What a gathering keeps: its members are those seen since it began, each once. -/
def Adds (seen : ExtTreeSet α) (s : ExtTreeSet α × List α) : Prop :=
  s.2.Nodup ∧ (∀ u ∈ s.2, u ∉ seen) ∧ ∀ u, u ∈ s.1 ↔ u ∈ seen ∨ u ∈ s.2

omit [DecidableEq α] in
theorem Adds.visit {s s' : ExtTreeSet α × List α} {pushed : List α} (h : Adds seen s) (hv : (gathering graph).seen s v = false)
    (hvisit : (gathering graph).visit s v = .ok (s', pushed)) : Adds seen s' := by
  cases hvisit
  obtain ⟨hnodup, hnew, hall⟩ := h
  have hv' : v ∉ s.1 := fun hm => Bool.false_ne_true (hv.symm.trans (ExtTreeSet.contains_iff_mem.2 hm))
  rw [hall, not_or] at hv'
  refine ⟨List.nodup_append.2 ⟨hnodup, List.nodup_singleton v, ?_⟩, fun u hu => ?_, fun u => ?_⟩
  · rintro a ha b hb rfl
    exact hv'.2 (mem_singleton.1 hb ▸ ha)
  · rcases mem_append.1 hu with hu | hu
    · exact hnew u hu
    · exact mem_singleton.1 hu ▸ hv'.1
  · rw [ExtTreeSet.mem_insert, Std.LawfulEqOrd.compare_eq_iff_eq, hall, mem_append, mem_singleton, eq_comm]
    tauto

section

variable (hback : ∀ u v, Leads graph u v → v ∈ seen → u ∈ seen)

include hback

omit [LawfulEqOrd α] [DecidableEq α] in
theorem mem_of_reach (h : ReflTransGen (Leads graph) u v) (hv : v ∈ seen) : u ∈ seen := by
  induction h using Relation.ReflTransGen.head_induction_on with
  | refl => exact hv
  | head huw _ ih => exact hback _ _ huw ih

theorem run_gathering (hvertex : ∀ u ∈ seen, u ∈ reversed graph) (hv : v ∈ reversed graph) :
    ∃ seen' members, run (gathering (reversed graph)) {} (roomBack graph) (seen, []) [v] = .ok (seen', members) ∧
      members.Nodup ∧ (∀ u, u ∈ members ↔ ReflTransGen (Leads graph) u v ∧ u ∉ seen) ∧
      ∀ u, u ∈ seen' ↔ u ∈ seen ∨ u ∈ members := by
  have hreach : ∀ u, Worklist.Reach (Function.swap (Leads graph)) (v :: seen.toList) u ↔
      ReflTransGen (Leads graph) u v ∨ u ∈ seen := by
    intro u
    simp only [Worklist.Reach, List.exists_mem_cons_iff, mem_toList]
    rw [Relation.reflTransGen_swap]
    refine or_congr_right ⟨?_, fun hu => ⟨u, hu, .refl⟩⟩
    rintro ⟨r, hr, hpath⟩
    exact mem_of_reach hback (Relation.reflTransGen_swap.1 hpath) hr
  have hstarts : ∀ u ∈ v :: seen.toList, u ∈ reversed graph := by
    intro u hu
    rcases mem_cons.1 hu with rfl | hu
    · exact hv
    · exact hvertex u (mem_toList.1 hu)
  have hstart : Worklist.Inv (gathering (reversed graph)) (Function.swap (Leads graph)) (v :: seen.toList) (seen, []) [v] := by
    have hseen : ∀ u, (gathering (reversed graph)).seen (seen, []) u = true ↔ u ∈ seen := fun u => ExtTreeSet.contains_iff_mem
    constructor
    case sound => exact fun u hu => (hreach u).2 (.inr ((hseen u).1 hu))
    case waiting => exact fun u hu => (hreach u).2 (.inl (mem_singleton.1 hu ▸ .refl))
    case started =>
      intro u hu
      rw [hseen, mem_singleton]
      exact (mem_cons.1 hu).symm.imp_left mem_toList.1
    case closed => exact fun a b ha hab => .inl ((hseen b).2 (hback b a hab ((hseen a).1 ha)))
  have hroom : Worklist.left (gathering (reversed graph)) (reversed graph).keys.toFinset
      (fun v => (next (reversed graph) v).length) (seen, []) [v] ≤ roomBack graph := by
    rw [Worklist.left, roomBack, ← List.sum_toFinset _ nodup_keys]
    exact Nat.add_le_add_left (Finset.sum_le_sum_of_subset (Finset.filter_subset _ _)) _
  rcases Worklist.run_spec (gathering_lawful hstarts) {} (Adds seen) (fun _ _ _ _ h _ => h.visit) (roomBack graph) (seen, []) [v]
    ⟨.nil, by simp, by simp⟩ hstart hroom with
    ⟨⟨seen', members⟩, hrun, ⟨hnodup, hnew, hall⟩, hseen⟩ | ⟨s, v, e, -, -, -, hvisit⟩
  · refine ⟨seen', members, hrun, hnodup, fun u => ?_, hall⟩
    have hu : u ∈ seen' ↔ _ := ExtTreeSet.contains_iff_mem.symm.trans ((hseen u).trans (hreach u))
    rw [hall] at hu
    have := hnew u
    tauto
  · cases hvisit

omit [LawfulEqOrd α] [DecidableEq α] in
/-- Where every vertex finished after `v` has been seen, what leads to `v` and has not is in its component. -/
theorem Finished.same_of_reach {all : ExtTreeSet α} (h : Finished graph all order []) {pre post : List α}
    (heq : order = pre ++ v :: post) (hpost : ∀ u ∈ post, u ∈ seen) : ∀ (pre' : List α) (y : α) (post' : List α),
      order = pre' ++ y :: post' → ReflTransGen (Leads graph) y v → y ∉ seen → Same (Leads graph) v y
  | pre', y, post', heq', hyv, hy => by
    rcases h.last pre' y post' heq' with ⟨g, hg, hsame⟩ | hafter
    · have hg : g ∈ post' := by simpa [opened] using hg
      obtain ⟨p, q, rfl⟩ := append_of_mem hg
      have hsplit : order = (pre' ++ y :: p) ++ g :: q := by simp [heq']
      have hgseen : g ∉ seen := fun hmem => hy (mem_of_reach hback hsame.2 hmem)
      exact (Finished.same_of_reach h heq hpost _ g q hsplit (hsame.1.trans hyv) hgseen).trans hsame
    · rcases hafter v hyv with hv | rfl
      · -- a vertex finished once is not before one it follows
        obtain ⟨p, q, rfl⟩ := append_of_mem hv
        have hnodup : order.Nodup := by simpa [opened] using h.nodup
        have hsplit : order = p ++ v :: (q ++ y :: post') := by simp [heq']
        have hnot : v ∉ p ∧ v ∉ q ++ y :: post' := by
          rw [hsplit, List.nodup_middle, List.nodup_cons, mem_append, not_or] at hnodup
          exact hnodup.1
        obtain ⟨-, -, rfl⟩ := (List.append_cons_inj_of_notMem hnot.1 hnot.2).1 (hsplit.symm.trans heq)
        exact absurd (hpost y (by simp)) hy
      · exact .refl _ _
termination_by _ _ post' => post'.length
decreasing_by
  subst_vars
  rw [List.length_append, length_cons]
  omega

end

/-- What the second search keeps: what was gathered is the components of what was seen, and nothing else leads there. -/
structure Gathered (graph : ExtTreeMap α (ExtTreeSet α)) (done : List α) (seen : ExtTreeSet α) (found : List (List α)) :
    Prop extends Partition (Leads graph) (· ∈ seen) found where
  done : ∀ v ∈ done, v ∈ seen
  vertex : ∀ v ∈ seen, v ∈ reversed graph
  back : ∀ u v, Leads graph u v → v ∈ seen → u ∈ seen

section

variable {all : ExtTreeSet α} (hf : Finished graph all order []) (hall : ∀ v, v ∈ order ↔ v ∈ reversed graph)
  {found : List (List α)}

include hf hall

theorem Gathered.step {pre post : List α} (h : Gathered graph post seen found) (heq : order = pre ++ v :: post) :
    ∃ seen' found', gather graph (seen, found) v = .ok (seen', found') ∧ Gathered graph (v :: post) seen' found' := by
  by_cases hv : v ∈ seen
  · exact ⟨seen, found, if_pos (ExtTreeSet.contains_iff_mem.2 hv), { h with done := List.forall_mem_cons.2 ⟨hv, h.done⟩ }⟩
  have hvertex : v ∈ reversed graph := (hall v).1 (heq ▸ by simp)
  obtain ⟨seen', members, hrun, hnodup, hmem, hseen⟩ := run_gathering h.back h.vertex hvertex
  have hsorted := List.mergeSort_perm members fun a b => (compare a b).isLE
  have hsame : ∀ u, u ∈ members ↔ Same (Leads graph) v u := by
    intro u
    rw [hmem]
    constructor
    · rintro ⟨hpath, hu⟩
      have hvert : u ∈ reversed graph := by
        rcases Relation.ReflTransGen.cases_head hpath with rfl | ⟨w, hw, -⟩
        · exact hvertex
        · exact (mem_reversed_of_leads hw).1
      obtain ⟨pre', post', heq'⟩ := append_of_mem ((hall u).2 hvert)
      exact hf.same_of_reach h.back heq h.done pre' u post' heq' hpath hu
    · exact fun hs => ⟨hs.2, fun hu => hv (mem_of_reach h.back hs.1 hu)⟩
  refine ⟨seen', found ++ [members.mergeSort fun a b => (compare a b).isLE], ?_, ⟨?_, ?_, ?_, ?_⟩, ?_, ?_, ?_⟩
  · rw [gather, if_neg (by simpa using hv), hrun]
    rfl
  · intro c hc
    rcases mem_append.1 hc with hc | hc
    · exact h.ne_nil c hc
    · rw [mem_singleton.1 hc]
      exact List.ne_nil_of_mem (hsorted.mem_iff.2 ((hsame v).2 (.refl _ v)))
  · rw [List.flatten_append, List.flatten_singleton, List.nodup_append]
    refine ⟨h.nodup, hsorted.nodup_iff.2 hnodup, ?_⟩
    rintro a ha b hb rfl
    exact ((hmem a).1 (hsorted.mem_iff.1 hb)).2 ((h.mem_iff a).1 (List.mem_flatten.1 ha))
  · intro u
    rw [hseen, ← h.mem_iff]
    simp [or_and_right, exists_or]
  · intro c hc
    rcases mem_append.1 hc with hc | hc
    · exact h.same c hc
    · rw [mem_singleton.1 hc]
      intro x hx y
      have hvx := (hsame x).1 (hsorted.mem_iff.1 hx)
      rw [hsorted.mem_iff, hsame]
      exact ⟨hvx.symm.trans, hvx.trans⟩
  · refine List.forall_mem_cons.2 ⟨(hseen v).2 (.inr ((hsame v).2 (.refl _ v))), fun u hu => (hseen u).2 (.inl (h.done u hu))⟩
  · intro u hu
    rcases (hseen u).1 hu with hu | hu
    · exact h.vertex u hu
    · rcases Relation.ReflTransGen.cases_head ((hmem u).1 hu).1 with rfl | ⟨w, hw, -⟩
      · exact hvertex
      · exact (mem_reversed_of_leads hw).1
  · intro u w huw hw
    rw [hseen] at hw ⊢
    by_cases hu : u ∈ seen
    · exact .inl hu
    · rcases hw with hw | hw
      · exact .inl (h.back u w huw hw)
      · exact .inr ((hmem u).2 ⟨.head huw ((hmem w).1 hw).1, hu⟩)

theorem Gathered.run : ∀ {l post : List α} {seen : ExtTreeSet α} {found : List (List α)}, order = l.reverse ++ post →
    Gathered graph post seen found →
      ∃ seen' found', l.foldlM (gather graph) (seen, found) = .ok (seen', found') ∧ Gathered graph order seen' found'
  | [], post, seen, found, heq, h => ⟨seen, found, rfl, heq ▸ h⟩
  | v :: l, post, seen, found, heq, h => by
    have hsplit : order = l.reverse ++ v :: post := by simp [heq]
    obtain ⟨seen₁, found₁, hstep, h₁⟩ := h.step hf hall hsplit
    obtain ⟨seen', found', hrun, h'⟩ := Gathered.run hsplit h₁
    refine ⟨seen', found', ?_, h'⟩
    rw [List.foldlM_cons, hstep]
    exact hrun

end

/-- The searches end, and what they find is the strongly connected components. -/
theorem components_spec (graph : ExtTreeMap α (ExtTreeSet α)) : ∃ found, components graph = .ok found ∧
    Partition (Leads graph) (fun v => v ∈ graph ∨ ∃ u, Leads graph u v) found := by
  obtain ⟨all, order, horder, hf, hall⟩ := @finishOrder_eq α _ _ graph _ _
  have hstart : Gathered graph [] ∅ [] := by refine ⟨⟨?_, ?_, ?_, ?_⟩, ?_, ?_, ?_⟩ <;> simp
  obtain ⟨seen, found, hrun, h⟩ := Gathered.run hf hall (by simp : order = order.reverse.reverse ++ []) hstart
  refine ⟨found, ?_, h.ne_nil, h.nodup, fun v => ?_, h.same⟩
  · rw [components, horder]
    show (order.reverse.foldlM (gather graph) (∅, []) >>= fun s => pure s.2) = .ok found
    rw [hrun]
    rfl
  · rw [h.mem_iff, ← mem_reversed, ← hall]
    exact ⟨fun hv => (hall v).2 (h.vertex v hv), h.done v⟩

end Kosaraju
