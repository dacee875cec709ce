/-
The order rows are supplied in (`insertion_order` and `supply_order` of `data.rs`): a table after every listed one its foreign
keys lead to. Tables that lead to one another stop the rounds, and what still waits then goes out in the order listed.
-/
import Pbps.Lib.Rounds
import Pbps.Lib.Search
import Pbps.Model.Schema

namespace Pbps.Rows

open Std (ExtTreeMap ExtTreeSet)
open Relation (TransGen)
open List

/-! ## The order -/

def Table.references (table : Table) : List TableName := table.foreignKeys.toList.map fun fk => fk.2.referencesTable

def references (schema : Schema) (current : TableName) : List TableName :=
  match schema.tables[current]? with
  | none => []
  | some table => Table.references table

variable (schema : Schema)

def referenced : List TableName := schema.tables.toList.flatMap fun t => Table.references t.2

/-- The tables `name` needs, transitively: a table between two others does not break the chain, and one that references
itself does not wait. Each table is queued once. -/
def needs (name : TableName) : ExtTreeSet TableName :=
  Search.search (fun current => (references schema current).filter (· ≠ name)) name ((referenced schema).length + 1)

/-- Whether the tables ordered so far are all a table waits for. Only the tables being ordered constrain the order. -/
def supplied (names : List TableName) (done : List TableName) (name : TableName) : Bool :=
  ((needs schema name).toList.filter (names.contains ·)).all (done.contains ·)

def supplyOrder (names : List TableName) : List TableName :=
  let done := Rounds.run names (supplied schema names)
  done ++ names.filter (! done.contains ·)

/-! ## What a table needs -/

def Reaches : TableName → TableName → Prop := TransGen fun u v => v ∈ references schema u

section Reach

variable {schema : Schema} {names : List TableName}

variable {u v x : TableName}

theorem mem_referenced (h : v ∈ references schema u) : v ∈ referenced schema := by
  rw [references] at h
  cases htable : schema.tables[u]? with
  | none =>
    rw [htable] at h
    cases h
  | some table =>
    rw [htable] at h
    exact mem_flatMap.2 ⟨(u, table), ExtTreeMap.mem_toList_iff_getElem?_eq_some.2 htable, h⟩

theorem mem_needs : v ∈ needs schema u ↔ v ≠ u ∧ Reaches schema u v := by
  have hnext : ∀ w, ∀ v ∈ (references schema w).filter (· ≠ u), v ∈ (referenced schema).toFinset :=
    fun w v hv => mem_toFinset.2 (mem_referenced (mem_filter.1 hv).1)
  rw [needs, Search.mem_search hnext (Nat.lt_succ_of_le (toFinset_card_le _)), Reaches]
  simp only [mem_filter, decide_eq_true_eq]
  constructor
  · intro h
    refine ⟨?_, TransGen.mono (fun _ _ hv => hv.1) _ _ h⟩
    induction h with
    | single hv => exact hv.2
    | tail _ hv _ => exact hv.2
  · rintro ⟨hne, h⟩
    induction h with
    | single hv => exact .single ⟨hv, hne⟩
    | @tail b c _ hc ih =>
      -- a path that comes back to its start can begin there
      by_cases hb : b = u
      · exact .single ⟨hb ▸ hc, hne⟩
      · exact (ih hb).tail ⟨hc, hne⟩

theorem supplied_frees (schema : Schema) (names : List TableName) :
    Rounds.Frees names (fun u v => v ∈ needs schema u) (supplied schema names) := by
  intro done name
  rw [supplied, all_eq_true]
  simp only [mem_filter, ExtTreeSet.mem_toList, contains_iff_mem]
  exact ⟨fun h d hd hneeds => h d ⟨hneeds, hd⟩, fun h d hd => h d hd.2 hd.1⟩

/-- A listed table on a cycle of listed tables, or one that leads to such. -/
def Blocked (schema : Schema) (names : List TableName) (x : TableName) : Prop :=
  ∃ a ∈ names, ∃ b ∈ names, a ≠ b ∧ Reaches schema a b ∧ Reaches schema b a ∧ (x = a ∨ Reaches schema x a)

theorem reaches_of_within (h : TransGen (Rounds.Within names fun u v => v ∈ needs schema u) u v) : Reaches schema u v := by
  induction h with
  | single hv => exact (mem_needs.1 hv.2.2).2
  | tail _ hv ih => exact ih.trans (mem_needs.1 hv.2.2).2

theorem stuck_iff (hx : x ∈ names) : Rounds.Stuck names (fun u v => v ∈ needs schema u) x ↔ Blocked schema names x := by
  constructor
  · rintro ⟨-, c, hreach, hcycle⟩
    obtain ⟨b, hcb, hbc⟩ := Relation.TransGen.head'_iff.1 hcycle
    obtain ⟨hne, hforth⟩ := mem_needs.1 hcb.2.2
    have hback : Reaches schema b c := by
      rcases Relation.reflTransGen_iff_eq_or_transGen.1 hbc with heq | hbc
      · exact absurd heq.symm hne
      · exact reaches_of_within hbc
    refine ⟨c, hcb.1, b, hcb.2.1, hne.symm, hforth, hback, ?_⟩
    rcases Relation.reflTransGen_iff_eq_or_transGen.1 hreach with heq | hreach
    · exact .inl heq.symm
    · exact .inr (reaches_of_within hreach)
  · rintro ⟨a, ha, b, hb, hne, hforth, hback, hxa⟩
    have hcycle : TransGen (Rounds.Within names fun u v => v ∈ needs schema u) a a :=
      .tail (.single ⟨ha, hb, mem_needs.2 ⟨hne.symm, hforth⟩⟩) ⟨hb, ha, mem_needs.2 ⟨hne, hback⟩⟩
    refine ⟨hx, a, ?_, hcycle⟩
    by_cases heq : a = x
    · rw [heq]
    · exact .single ⟨hx, ha, mem_needs.2 ⟨heq, hxa.resolve_left (Ne.symm heq)⟩⟩

/-! ## The tables behind a cycle -/

theorem supplyOrder_perm (hnames : names.Nodup) : (supplyOrder schema names).Perm names := by
  have hinv := Rounds.run_inv hnames (supplied_frees schema names)
  have hnodup : (supplyOrder schema names).Nodup := by
    refine nodup_append.2 ⟨hinv.nodup, hnames.filter _, ?_⟩
    rintro m hm n hn rfl
    have hout := (mem_filter.1 hn).2
    rw [contains_iff_mem.2 hm] at hout
    cases hout
  refine (perm_ext_iff_of_nodup hnodup hnames).2 fun m => ?_
  rw [supplyOrder, mem_append, mem_filter, Bool.not_eq_true', contains_eq_mem, decide_eq_false_iff_not]
  constructor
  · rintro (hm | ⟨hm, _⟩)
    · exact hinv.mem m hm
    · exact hm
  · intro hm
    by_cases hdone : m ∈ Rounds.run names (supplied schema names)
    · exact .inl hdone
    · exact .inr ⟨hm, hdone⟩

theorem idxOf_supplyOrder_lt (hnames : names.Nodup) {y : TableName} (hx : x ∈ names) (hy : y ∈ names)
    (hxb : Blocked schema names x) (hyb : Blocked schema names y) :
    (supplyOrder schema names).idxOf y < (supplyOrder schema names).idxOf x ↔ names.idxOf y < names.idxOf x := by
  have hout : ∀ {m}, m ∈ names → Blocked schema names m → m ∉ Rounds.run names (supplied schema names) :=
    fun hm hb hrun => ((Rounds.mem_run hnames (supplied_frees schema names)).1 hrun).2 ((stuck_iff hm).2 hb)
  have hkept : ∀ {m}, m ∈ names → Blocked schema names m →
      (! (Rounds.run names (supplied schema names)).contains m) = true := by
    intro m hm hb
    rw [Bool.not_eq_true', contains_eq_mem, decide_eq_false_iff_not]
    exact hout hm hb
  rw [supplyOrder, Position.idxOf_append_lt_right (hout hy hyb) (hout hx hxb)]
  exact Position.idxOf_filter_lt (hkept hy hyb) (hkept hx hxb)

/-- The order is one of the tables listed. A table comes after every one it reaches that does not reach it, exactly if that
already stands in the list for those it reaches that lead to a cycle. -/
theorem supplyOrder_after_reached (schema : Schema) (names : List TableName) (hnames : names.Nodup) :
    ((supplyOrder schema names).Perm names ∧ ∀ x ∈ names, ∀ y ∈ names, Reaches schema x y → ¬ Reaches schema y x →
      (supplyOrder schema names).idxOf y < (supplyOrder schema names).idxOf x) ↔
    ∀ x ∈ names, ∀ y ∈ names, Reaches schema x y → ¬ Reaches schema y x → Blocked schema names y →
      names.idxOf y < names.idxOf x := by
  have hblocked : ∀ {x y}, Reaches schema x y → Blocked schema names y → Blocked schema names x := by
    rintro x y hxy ⟨a, ha, b, hb, hne, hforth, hback, heq | hya⟩
    · exact ⟨a, ha, b, hb, hne, hforth, hback, .inr (heq ▸ hxy)⟩
    · exact ⟨a, ha, b, hb, hne, hforth, hback, .inr (hxy.trans hya)⟩
  have hfrees := supplied_frees schema names
  constructor
  · rintro ⟨-, h⟩ x hx y hy hxy hyx hyb
    exact (idxOf_supplyOrder_lt hnames hx hy (hblocked hxy hyb) hyb).1 (h x hx y hy hxy hyx)
  · intro h
    refine ⟨supplyOrder_perm hnames, fun x hx y hy hxy hyx => ?_⟩
    by_cases hxrun : x ∈ Rounds.run names (supplied schema names)
    · have hne : y ≠ x := fun heq => hyx (heq ▸ hxy)
      obtain ⟨hmem, hlt⟩ := Rounds.idxOf_run_lt hnames hfrees hxrun hy (mem_needs.2 ⟨hne, hxy⟩)
      exact (Position.idxOf_append_lt_left hmem hxrun).2 hlt
    · by_cases hyrun : y ∈ Rounds.run names (supplied schema names)
      · exact Position.idxOf_append_lt hyrun hxrun
      · have hyb : Blocked schema names y := by
          rw [← stuck_iff hy]
          by_contra hfree
          exact hyrun ((Rounds.mem_run hnames hfrees).2 ⟨hy, hfree⟩)
        exact (idxOf_supplyOrder_lt hnames hx hy (hblocked hxy hyb) hyb).2 (h x hx y hy hxy hyx hyb)

end Reach

/-! ## A table in front of a cycle -/

namespace Behind

def keyTo (name : String) : ForeignKey :=
  { columns := ["id"], referencesTable := ⟨"s", name⟩, referencesColumns := ["id"] }

def tableTo (name : String) : Table := { foreignKeys := (∅ : ExtTreeMap ObjectLocalName ForeignKey).insert "fk" (keyTo name) }

/-- `a` references `b`, which references `c` and is referenced by it. -/
def behind : Schema where
  tables := (((∅ : ExtTreeMap TableName Table).insert ⟨"s", "a"⟩ (tableTo "b")).insert ⟨"s", "b"⟩ (tableTo "c")).insert
    ⟨"s", "c"⟩ (tableTo "b")

def listed : List TableName := [⟨"s", "a"⟩, ⟨"s", "b"⟩, ⟨"s", "c"⟩]

theorem supplyOrder_behind : supplyOrder behind listed = listed := by decide

theorem supplyOrder_behind_cycle : ¬ ∀ (schema : Schema) (names : List TableName), names.Nodup →
    (supplyOrder schema names).Perm names ∧ ∀ x ∈ names, ∀ y ∈ names, Reaches schema x y → ¬ Reaches schema y x →
      (supplyOrder schema names).idxOf y < (supplyOrder schema names).idxOf x := by
  intro h
  have hforth : Reaches behind ⟨"s", "a"⟩ ⟨"s", "b"⟩ := .single (by decide)
  have hback : ¬ Reaches behind ⟨"s", "b"⟩ ⟨"s", "a"⟩ := by
    have hneeds : (⟨"s", "a"⟩ : TableName) ∉ needs behind ⟨"s", "b"⟩ := by decide
    exact fun hreach => hneeds (mem_needs.2 ⟨by decide, hreach⟩)
  have hlt := (h behind listed (by decide)).2 _ (by decide) _ (by decide) hforth hback
  rw [supplyOrder_behind] at hlt
  exact absurd hlt (by decide)

def cycleFirst : List TableName := [⟨"s", "b"⟩, ⟨"s", "c"⟩, ⟨"s", "a"⟩]

theorem supplyOrder_cycle_first :
    ((supplyOrder behind cycleFirst).Perm cycleFirst ∧ ∀ x ∈ cycleFirst, ∀ y ∈ cycleFirst, Reaches behind x y →
      ¬ Reaches behind y x → (supplyOrder behind cycleFirst).idxOf y < (supplyOrder behind cycleFirst).idxOf x) ↔
    ∀ x ∈ cycleFirst, ∀ y ∈ cycleFirst, Reaches behind x y → ¬ Reaches behind y x → Blocked behind cycleFirst y →
      cycleFirst.idxOf y < cycleFirst.idxOf x :=
  supplyOrder_after_reached behind cycleFirst (by decide)

end Behind

end Pbps.Rows
