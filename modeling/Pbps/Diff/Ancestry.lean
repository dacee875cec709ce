/-
Which chains `ancestor_chain` of `partitions.rs` returns. A table's chain is its declared parents up to one that is no
partition.
-/
import Pbps.Diff.Roles
import Pbps.Lib.Chain
import Pbps.Lib.Rounds

namespace Pbps

open Std (ExtTreeMap)
open Relation (ReflTransGen TransGen)
open List Option Std.ExtTreeMap

/-- A declared partition, by its name and its parent's. -/
def HasParent (tables : ExtTreeMap TableName Table) (name parent : TableName) : Prop :=
  ∃ t of, tables[name]? = some t ∧ t.partitionOf = some of ∧ of.parent = parent

/-- A table's chain: each table is declared, each one's parent comes next, and the last has none. -/
inductive Ancestry (tables : ExtTreeMap TableName Table) : TableName → List (TableName × Table) → Prop
  | root {name t} (ht : tables[name]? = some t) (hp : t.partitionOf = none) : Ancestry tables name [(name, t)]
  | child {name t of rest} (ht : tables[name]? = some t) (hp : t.partitionOf = some of)
    (h : Ancestry tables of.parent rest) : Ancestry tables name ((name, t) :: rest)

variable {tables : ExtTreeMap TableName Table} {name parent root : TableName} {chain : List (TableName × Table)}

theorem hasParent_unique : Relator.RightUnique (HasParent tables) := by
  rintro name parent parent' ⟨t, of, ht, hp, rfl⟩ ⟨t', of', ht', hp', rfl⟩
  rw [ht] at ht'
  cases ht'
  rw [hp] at hp'
  cases hp'
  rfl

namespace Ancestry

section

variable (h : Ancestry tables name chain)

include h

theorem reaches : ∀ e ∈ chain, ReflTransGen (HasParent tables) name e.1 := by
  induction h with
  | root ht hp => simpa using ReflTransGen.refl
  | child ht hp _ ih =>
    refine forall_mem_cons.2 ⟨.refl, fun e he => ?_⟩
    exact .head ⟨_, _, ht, hp, rfl⟩ (ih e he)

theorem declared : ∀ e ∈ chain, tables[e.1]? = some e.2 := by
  induction h with
  | root ht hp => simpa using ht
  | child ht hp _ ih => exact forall_mem_cons.2 ⟨ht, ih⟩

theorem ends : ∃ root t, Chain.Ends (HasParent tables) name root ∧ tables[root]? = some t ∧ t.partitionOf = none := by
  induction h with
  | @root name t ht hp =>
    refine ⟨name, t, ⟨.refl, ?_⟩, ht, hp⟩
    rintro parent ⟨t', of, ht', hp', -⟩
    rw [ht] at ht'
    cases ht'
    rw [hp] at hp'
    cases hp'
  | child ht hp _ ih =>
    obtain ⟨root, t', hends, hroot⟩ := ih
    exact ⟨root, t', hends.head ⟨_, _, ht, hp, rfl⟩, hroot⟩

theorem nodup : (chain.map (·.1)).Nodup := by
  induction h with
  | root ht hp => exact nodup_singleton _
  | @child name t of rest ht hp h ih =>
    rw [map_cons, nodup_cons]
    refine ⟨fun hmem => ?_, ih⟩
    obtain ⟨e, he, heq⟩ := List.mem_map.1 hmem
    have hstep : HasParent tables name of.parent := ⟨t, of, ht, hp, rfl⟩
    obtain ⟨root, t', hends, -⟩ := h.ends
    have hcycle := TransGen.head' hstep (h.reaches e he)
    rw [heq] at hcycle
    exact (hends.head hstep).acyclic hasParent_unique .refl hcycle

theorem length_le : chain.length ≤ tables.size := by
  rw [← length_keys, ← length_map (·.1)]
  refine (subperm_of_subset h.nodup fun n hn => ?_).length_le
  obtain ⟨e, he, rfl⟩ := List.mem_map.1 hn
  exact ExtTreeMap.mem_keys.2 (mem_of_getElem?_eq (h.declared e he))

theorem ancestorChain_eq : ∀ turns ≥ chain.length, ancestorChain tables turns name = some chain := by
  induction h with
  | root ht hp =>
    intro turns hle
    obtain ⟨k, rfl⟩ := Nat.exists_eq_add_of_lt (Nat.lt_of_lt_of_le Nat.zero_lt_one hle)
    simp [ancestorChain, ht, hp]
  | @child name t of rest ht hp _ ih =>
    intro turns hle
    rw [length_cons] at hle
    obtain ⟨k, rfl⟩ := Nat.exists_eq_add_of_le hle
    rw [show rest.length + 1 + k = (rest.length + k) + 1 by omega, ancestorChain]
    simp [ht, hp, ih (rest.length + k) (Nat.le_add_right _ _)]

end

theorem of_ends {t : Table} (h : ReflTransGen (HasParent tables) name root) (ht : tables[root]? = some t)
    (hp : t.partitionOf = none) : ∃ chain, Ancestry tables name chain := by
  induction h using ReflTransGen.head_induction_on with
  | refl => exact ⟨_, .root ht hp⟩
  | head hstep _ ih =>
    obtain ⟨t', of, ht', hp', rfl⟩ := hstep
    obtain ⟨chain, hchain⟩ := ih
    exact ⟨_, .child ht' hp' hchain⟩

end Ancestry

theorem ancestry_of_ancestorChain : ∀ {turns : Nat} {name : TableName} {chain : List (TableName × Table)},
    ancestorChain tables turns name = some chain → Ancestry tables name chain
  | turns + 1, name, chain, h => by
    unfold ancestorChain at h
    obtain ⟨t, ht, h⟩ := bind_eq_some_iff.1 h
    cases hp : t.partitionOf with
    | none =>
      rw [hp] at h
      cases h
      exact .root ht hp
    | some of =>
      rw [hp] at h
      obtain ⟨rest, hrest, heq⟩ := bind_eq_some_iff.1 h
      cases heq
      exact .child ht hp (ancestry_of_ancestorChain hrest)

theorem ancestorChain_eq_some_iff : ancestorChain tables tables.size name = some chain ↔ Ancestry tables name chain :=
  ⟨ancestry_of_ancestorChain, fun h => h.ancestorChain_eq _ h.length_le⟩

theorem missing_or_cycle (h : ¬ ∃ chain, Ancestry tables name chain) :
    (∃ n, ReflTransGen (HasParent tables) name n ∧ tables[n]? = none) ∨
      ∃ n, ReflTransGen (HasParent tables) name n ∧ TransGen (HasParent tables) n n := by
  by_cases hmissing : ∃ n, ReflTransGen (HasParent tables) name n ∧ tables[n]? = none
  · exact .inl hmissing
  let chainless : Set TableName := {n | ReflTransGen (HasParent tables) name n ∧ ¬ ∃ chain, Ancestry tables n chain}
  have hdeclared : ∀ n ∈ chainless, ∃ t, tables[n]? = some t := fun n hn =>
    ne_none_iff_exists'.1 fun hnone => hmissing ⟨n, hn.1, hnone⟩
  have hfinite : chainless.Finite := tables.keys.finite_toSet.subset fun n hn => by
    obtain ⟨t, ht⟩ := hdeclared n hn
    exact ExtTreeMap.mem_keys.2 (mem_of_getElem?_eq ht)
  have hnext : ∀ n ∈ chainless, ∃ parent ∈ chainless, HasParent tables n parent := by
    intro n hn
    obtain ⟨t, ht⟩ := hdeclared n hn
    cases hp : t.partitionOf with
    | none => exact absurd ⟨_, .root ht hp⟩ hn.2
    | some of =>
      have hstep : HasParent tables n of.parent := ⟨t, of, ht, hp, rfl⟩
      exact ⟨of.parent, ⟨hn.1.tail hstep, fun ⟨rest, hrest⟩ => hn.2 ⟨_, .child ht hp hrest⟩⟩, hstep⟩
  obtain ⟨n, -, hreach, hcycle⟩ := Rounds.exists_cycle hfinite hnext (show name ∈ chainless from ⟨.refl, h⟩)
  exact .inr ⟨n, hreach, hcycle⟩

/-- `ancestor_chain` returns the chain of parents from a table to its root, which passes no table twice, exactly when there is
one, and `None` exactly when a table on the way is missing or leads back to itself; more turns find no other chain. -/
theorem ancestorChain_spec (tables : ExtTreeMap TableName Table) (name : TableName) :
    (∀ chain, ancestorChain tables tables.size name = some chain ↔ Ancestry tables name chain) ∧
    (∀ chain, Ancestry tables name chain → (chain.map (·.1)).Nodup) ∧ ((ancestorChain tables tables.size name).isSome ↔
      ∃ (root : TableName) (t : Table), ReflTransGen (HasParent tables) name root ∧ tables[root]? = some t ∧
        t.partitionOf = none) ∧ (ancestorChain tables tables.size name = none ↔
      (∃ n, ReflTransGen (HasParent tables) name n ∧ tables[n]? = none) ∨
        ∃ n, ReflTransGen (HasParent tables) name n ∧ TransGen (HasParent tables) n n) ∧
    ∀ turns ≥ tables.size, ancestorChain tables turns name = ancestorChain tables tables.size name := by
  have hmore : ∀ turns ≥ tables.size, ancestorChain tables turns name = ancestorChain tables tables.size name := by
    intro turns hle
    refine Option.ext fun chain => ⟨fun h => ?_, fun h => ?_⟩
    · exact ancestorChain_eq_some_iff.2 (ancestry_of_ancestorChain h)
    · have hchain := ancestry_of_ancestorChain h
      exact hchain.ancestorChain_eq turns (hchain.length_le.trans hle)
  refine ⟨fun chain => ancestorChain_eq_some_iff, fun chain h => h.nodup, ⟨fun h => ?_, ?_⟩, ⟨fun h => ?_, fun h => ?_⟩, hmore⟩
  · obtain ⟨chain, hchain⟩ := isSome_iff_exists.1 h
    obtain ⟨root, t, hends, ht, hp⟩ := (ancestorChain_eq_some_iff.1 hchain).ends
    exact ⟨root, t, hends.1, ht, hp⟩
  · rintro ⟨root, t, hreach, ht, hp⟩
    obtain ⟨chain, hchain⟩ := Ancestry.of_ends hreach ht hp
    exact isSome_iff_exists.2 ⟨chain, ancestorChain_eq_some_iff.2 hchain⟩
  · refine missing_or_cycle fun ⟨chain, hchain⟩ => ?_
    rw [ancestorChain_eq_some_iff.2 hchain] at h
    cases h
  · rw [eq_none_iff_forall_not_mem]
    intro chain hchain
    obtain ⟨root, t, hends, ht, hp⟩ := (ancestorChain_eq_some_iff.1 hchain).ends
    rcases h with ⟨n, hn, hmissing⟩ | ⟨n, hn, hcycle⟩
    · rcases ReflTransGen.cases_head (hends.of_mid hasParent_unique hn).1 with rfl | ⟨_, ⟨t', _, ht', -, -⟩, -⟩
      · rw [ht] at hmissing
        cases hmissing
      · rw [ht'] at hmissing
        cases hmissing
    · exact hends.acyclic hasParent_unique hn hcycle

end Pbps
