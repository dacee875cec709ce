/-
The schedule of a plan's name handovers (`schedule` of `order/slots.rs`): whatever else is asked of the order, one that is
settled under it passes the replay.
-/
import Pbps.Order.Again
import Pbps.Order.Handover

namespace Pbps.Order.Schedule

/-- An edge that is no guess and no annotation runs forward in every order returned. -/
theorem sequence_forward {s : Schedule} {order : List Nat} (h : s.sequence = .ok order) {c : Constraint} (hc : c ∈ s.constraints)
    (hguess : c.source ≠ .guess) (hdeclared : c.source ≠ .declared) : Before order c.before c.after := by
  obtain ⟨hrange, -, -, -, hall, rfl⟩ := sequence_eq_ok.1 h
  have hv := settledRound_valid hrange
  have hC : InRange s.steps (listed s.constraints.toList) := by
    rw [listed_constraints]
    exact hrange
  have hkept : c ∈ listed (rounds s.steps s.tie s.constraints.toList).kept := by
    rw [listed_kept hrange]
    refine ⟨hc, fun g hg heq => hguess ?_⟩
    rw [settledRound, chained_dropped] at hg
    exact heq ▸ (hv.dropped g hg).2.2.1
  refine settledRound_forward hrange hall c ((mem_chained_kept hv hC).2 ⟨hkept, ?_⟩)
  rintro ⟨hsame, hannotated⟩
  exact hdeclared (hannotated c hkept (.refl _ _) hsame)

end Pbps.Order.Schedule

namespace Pbps.NameSlots

open Pbps.Order (Constraint Schedule)
open Pbps.Order.Schedule (sequence_eq_ok sequence_forward settledRound_perm)
open List

/-- A name that changes hands, by the plan's names or a catalog occupant's. -/
def SlotEdge.constraint (e : SlotEdge) : Constraint := ⟨e.before, e.after, if e.catalog then .catalog else .effect, .identity⟩

/-- `schedule`: the handover edges as a schedule's. -/
def schedule (s : Schedule) (edges : List SlotEdge) : Schedule :=
  { s with constraints := s.constraints.insertMany (edges.map SlotEdge.constraint) }

/-- An order settled under the handovers of plain steps, whatever else was asked of it, is refused no name that another
step gives up. -/
theorem settled_allowed {operations : List Operation} {slots : Slots} (base : Baseline) {s : Schedule} {order : List Nat}
    (hlength : operations.length = slots.effects.length) (hsteps : s.steps = operations.length) (hplain : Plain slots)
    (h : (schedule s (edges slots none [])).sequence = .ok order) :
    ∀ v ∈ (verify (inOrder order operations) (slots.inOrder order) base none).1, Allowed (slots.inOrder order) v := by
  have hperm : order.Perm (List.range slots.effects.length) := by
    obtain ⟨hrange, -, -, -, hall, rfl⟩ := sequence_eq_ok.1 h
    rw [← hlength, ← hsteps]
    exact settledRound_perm hrange hall
  have hkeeps : Keeps order (edges slots none []) := by
    intro e he
    have hsource : e.constraint.source ≠ .guess ∧ e.constraint.source ≠ .declared := by
      unfold SlotEdge.constraint
      cases e.catalog <;> simp
    refine (sequence_forward h (c := e.constraint) ?_ hsource.1 hsource.2).2.2
    exact Std.ExtTreeSet.mem_insertMany_list.2 (.inr (contains_iff_mem.2 (mem_map_of_mem he)))
  have hkept := hkeeps.kept hplain (fun i hi => mem_range.1 (hperm.mem_iff.1 hi)) (hperm.nodup_iff.2 nodup_range)
  intro v hv
  rcases mem_append.1 hv with hv | hv
  · exact replay_allowed hplain.inOrder hkept v hv
  · obtain ⟨e, he, hviolation⟩ := mem_filterMap.1 hv
    obtain ⟨hstep, k, h', hne, hr, hc⟩ := of_mem_handoversOf hplain.inOrder he
    have hlt : ¬ e.after ≤ e.before := fun hle => hstep (Nat.le_antisymm (hkept.claims hr hc hne) hle)
    rw [edgeViolation, guard, if_neg hlt] at hviolation
    cases hviolation

/-- `a -> b` beside `b -> c`, with nothing but the handover to order them. -/
theorem settled_allowed_chain :
    let slot (name : String) : SlotKey := ⟨.relations "dbo", name⟩
    let operation (id : Nat) (from_ to_ : String) : Operation := ⟨id, .renameTable ⟨"t"⟩ ⟨"dbo", from_⟩ ⟨"dbo", to_⟩ [], none⟩
    let slots : Slots := ⟨[], [
      ⟨[], [(slot "b", .table ⟨"t1"⟩)], [(slot "a", .table ⟨"t1"⟩)], [], []⟩,
      ⟨[], [(slot "c", .table ⟨"t2"⟩)], [(slot "b", .table ⟨"t2"⟩)], [], []⟩]⟩
    ∀ v ∈ (verify (inOrder [1, 0] [operation 0 "a" "b", operation 1 "b" "c"]) (slots.inOrder [1, 0])
      ⟨true, [], fun _ => none, fun _ _ => none⟩ none).1, Allowed (slots.inOrder [1, 0]) v := by
  intro slot operation slots
  exact settled_allowed _ (s := { steps := 2 }) rfl rfl ⟨by decide, rfl, by decide⟩ (by decide +kernel)

end Pbps.NameSlots
