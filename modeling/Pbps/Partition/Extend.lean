/-
Extending a series in two runs is extending it in one: the second starts where the first ended, by the bounds that the
first declared, and an end that is already reached asks for nothing.
-/
import Pbps.Lib.Map
import Pbps.Partition.Tiled

namespace Pbps.Partition

open Std (ExtTreeMap)
open List Except Std.ExtTreeMap

def partTable (parent : TableName) (p : SeriesPartition) : Table :=
  { partitionOf := some { parent, bound := .range [.value p.from_] [.value p.to_] } }

def declare (schema : Schema) (parent : TableName) (parts : List SeriesPartition) : Schema :=
  { schema with tables := parts.foldl (fun tables p => tables.insert p.name (partTable parent p)) schema.tables }

/-! ## What is declared -/

def endIn (parent : TableName) (e : TableName × Table) : Option (TableName × String) :=
  match endOf parent e.1 e.2 with
  | .ok (some text) => some (e.1, text)
  | _ => none

variable {parent : TableName} {declared : Declared}

theorem foldlM_endOf : ∀ {tables : List (TableName × Table)} {acc ends : List (TableName × String)},
    (tables.foldlM (fun ends e => do
      match ← endOf parent e.1 e.2 with
      | none => return ends
      | some text => return ends ++ [(e.1, text)]) acc : Except Refusal _) = .ok ends ↔
      (∀ e ∈ tables, ∃ o, endOf parent e.1 e.2 = .ok o) ∧ ends = acc ++ tables.filterMap (endIn parent)
  | [], acc, ends => by simp [pure, Except.pure, eq_comm]
  | e :: tables, acc, ends => by
    rw [foldlM_cons, bind_eq_ok_iff, forall_mem_cons]
    cases hend : endOf parent e.1 e.2 with
    | error err =>
      constructor
      · rintro ⟨acc', h, -⟩
        cases h
      · rintro ⟨⟨⟨o, h⟩, -⟩, -⟩
        cases h
    | ok o =>
      have hin : tables.foldlM (fun ends e => do
          match ← endOf parent e.1 e.2 with
          | none => return ends
          | some text => return ends ++ [(e.1, text)]) (acc ++ (endIn parent e).toList) = .ok ends ↔ _ := foldlM_endOf
      have hstep : ∀ acc', (do
          match ← (Except.ok o : Except Refusal (Option String)) with
          | none => return acc
          | some text => return acc ++ [(e.1, text)]) = Except.ok acc' ↔ acc' = acc ++ (endIn parent e).toList := by
        intro acc'
        rw [endIn, hend]
        cases o <;> simp [pure, Except.pure, bind, Except.bind, eq_comm]
      simp only [hstep, exists_eq_left, hin]
      have hcons : List.filterMap (endIn parent) (e :: tables) = (endIn parent e).toList ++ tables.filterMap (endIn parent) := by
        rw [filterMap_cons]
        cases endIn parent e <;> rfl
      rw [hcons, append_assoc]
      simp

theorem endsOf_eq_ok {tables : List (TableName × Table)} {ends : List (TableName × String)} : endsOf parent tables = .ok ends ↔
      (∀ e ∈ tables, ∃ o, endOf parent e.1 e.2 = .ok o) ∧ ends = tables.filterMap (endIn parent) := foldlM_endOf

theorem inspect_eq_ok {req : RangeSeriesRequest} : inspect req = .ok declared ↔ keyOf req.schema req.parent = .ok declared.key ∧
      (∀ (name : TableName) table, req.schema.tables[name]? = some table → ∃ o, endOf req.parent name table = .ok o) ∧
        declared.ends = req.schema.tables.toList.filterMap (endIn req.parent) := by
  unfold inspect
  simp only [bind_eq_ok_iff, endsOf_eq_ok]
  constructor
  · rintro ⟨key, hkey, ends, ⟨hall, hends⟩, h⟩
    obtain rfl := ok.inj h
    exact ⟨hkey, fun name table ht => hall (name, table) (mem_toList_iff_getElem?_eq_some.2 ht), hends⟩
  · rintro ⟨hkey, hall, hends⟩
    refine ⟨_, hkey, _, ⟨fun e he => hall e.1 e.2 (mem_toList_iff_getElem?_eq_some.1 he), hends⟩, ?_⟩
    rfl

theorem mem_ends {name : TableName} {text : String} {tables : ExtTreeMap TableName Table} :
    (name, text) ∈ tables.toList.filterMap (endIn parent) ↔
      ∃ table, tables[name]? = some table ∧ endOf parent name table = .ok (some text) := by
  rw [List.mem_filterMap]
  constructor
  · rintro ⟨⟨n, table⟩, he, h⟩
    unfold endIn at h
    split at h
    next t ht =>
      obtain ⟨rfl, rfl⟩ := Prod.mk.inj (Option.some.inj h)
      exact ⟨table, mem_toList_iff_getElem?_eq_some.1 he, ht⟩
    next => cases h
  · rintro ⟨table, ht, h⟩
    refine ⟨(name, table), mem_toList_iff_getElem?_eq_some.2 ht, ?_⟩
    rw [endIn, h]

theorem endOf_partTable (parent : TableName) (p : SeriesPartition) :
    endOf parent p.name (partTable parent p) = .ok (some p.to_) := by
  simp [endOf, partTable]

theorem getElem?_declare {name : TableName} {table : Table} :
    ∀ {parts : List SeriesPartition} {schema : Schema}, (parts.map (·.name)).Nodup →
      (∀ p ∈ parts, schema.tables.contains p.name = false) →
      ((declare schema parent parts).tables[name]? = some table ↔
        (∃ p ∈ parts, p.name = name ∧ partTable parent p = table) ∨ schema.tables[name]? = some table)
  | [], schema, _, _ => by simp [declare]
  | p :: parts, schema, hnodup, hfree => by
    rw [map_cons, nodup_cons] at hnodup
    obtain ⟨hp, hfree⟩ := forall_mem_cons.1 hfree
    have hrest : ∀ q ∈ parts, (declare schema parent [p]).tables.contains q.name = false := by
      intro q hq
      have hne : p.name ≠ q.name := fun h => hnodup.1 (h ▸ mem_map_of_mem hq)
      show (schema.tables.insert p.name (partTable parent p)).contains q.name = false
      rw [ExtTreeMap.contains_insert, hfree q hq, Bool.or_false]
      simpa using hne
    have hnone : schema.tables[p.name]? = none := getElem?_eq_none_of_contains_eq_false hp
    have hstep : (declare schema parent (p :: parts)).tables = (declare (declare schema parent [p]) parent parts).tables := rfl
    have hone : (declare schema parent [p]).tables[name]? = some table ↔
        (name = p.name ∧ partTable parent p = table) ∨ schema.tables[name]? = some table := by
      show (schema.tables.insert p.name (partTable parent p))[name]? = some table ↔ _
      rw [getElem?_insert_eq_some]
      by_cases hname : name = p.name
      · rw [hname, hnone]
        simp [eq_comm]
      · simp [hname]
    rw [hstep, getElem?_declare hnodup.2 hrest, hone, exists_mem_cons_iff, eq_comm (a := name), ← or_assoc,
      or_comm (a := ∃ q ∈ parts, _)]

theorem inspect_declare {schema : Schema} {every until_ : String} (until' : String) {parts : List SeriesPartition}
    (h : inspect { schema, parent, every, until_ } = .ok declared) (hnodup : (parts.map (·.name)).Nodup)
    (hfree : ∀ p ∈ parts, schema.tables.contains p.name = false) :
    ∃ ends, inspect { schema := declare schema parent parts, parent, every, until_ := until' } = .ok ⟨declared.key, ends⟩ ∧
      ∀ e, e ∈ ends ↔ e ∈ declared.ends ∨ ∃ p ∈ parts, (p.name, p.to_) = e := by
  obtain ⟨hkey, hall, hends⟩ := inspect_eq_ok.1 h
  dsimp only at hkey hall hends
  have hparent : (declare schema parent parts).tables[parent]? = schema.tables[parent]? := by
    cases htable : schema.tables[parent]? with
    | none =>
      unfold keyOf at hkey
      rw [htable] at hkey
      cases hkey
    | some table => exact (getElem?_declare hnodup hfree).2 (.inr htable)
  refine ⟨_, inspect_eq_ok.2 ⟨?_, ?_, rfl⟩, ?_⟩
  · show keyOf (declare schema parent parts) parent = _
    unfold keyOf at hkey ⊢
    rw [hparent]
    exact hkey
  · intro name table ht
    rcases (getElem?_declare hnodup hfree).1 ht with ⟨p, -, rfl, rfl⟩ | ht
    · exact ⟨_, endOf_partTable parent p⟩
    · exact hall name table ht
  · rintro ⟨name, text⟩
    rw [hends, mem_ends, mem_ends]
    constructor
    · rintro ⟨table, ht, hend⟩
      rcases (getElem?_declare hnodup hfree).1 ht with ⟨p, hp, rfl, rfl⟩ | ht
      · rw [endOf_partTable, ok.injEq, Option.some.injEq] at hend
        exact .inr ⟨p, hp, by rw [hend]⟩
      · exact .inl ⟨table, ht, hend⟩
    · rintro (⟨table, ht, hend⟩ | ⟨p, hp, he⟩)
      · exact ⟨table, (getElem?_declare hnodup hfree).2 (.inr ht), hend⟩
      · obtain ⟨rfl, rfl⟩ := Prod.mk.inj he
        exact ⟨_, (getElem?_declare hnodup hfree).2 (.inl ⟨p, hp, rfl, rfl⟩), endOf_partTable parent p⟩

/-! ## The second run -/

namespace Scheme

variable {α : Type} [LinearOrder α] {sch : Scheme α} {req req' : RangeSeriesRequest} {ends ends' : List (TableName × String)}
  {a b b' : α} {m n : ℕ}

theorem Start.extend (hstart : sch.Start req ends a) (hfrom : req.from_ = none) (hfrom' : req'.from_ = none)
    (hread : ∀ i ≤ n, sch.read (sch.spell (sch.next^[i] a)) = .ok (sch.next^[i] a))
    (hends : ∀ e, e ∈ ends' ↔ e ∈ ends ∨ ∃ p ∈ (sch.result req a n).partitions, (p.name, p.to_) = e) :
    sch.Start req' ends' (sch.next^[n] a) := by
  have hmono := (Tiling.iterate_strictMono sch.lt_next a).monotone
  have hnew : ∀ e, (∃ p ∈ (sch.result req a n).partitions, (p.name, p.to_) = e) ↔
      ∃ i < n, (partName req (sch.suffix (sch.next^[i] a)), sch.spell (sch.next^[i + 1] a)) = e := by
    intro e
    simp only [result, List.mem_map, Tiling.mem_pieces]
    constructor
    · rintro ⟨p, ⟨v, ⟨i, hi, rfl⟩, rfl⟩, rfl⟩
      exact ⟨i, hi, rfl⟩
    · rintro ⟨i, hi, rfl⟩
      exact ⟨_, ⟨_, ⟨i, hi, rfl⟩, rfl⟩, rfl⟩
  obtain ⟨⟨e₀, he₀, hread₀⟩, hall⟩ : (∃ e ∈ ends, sch.read e.2 = .ok a) ∧ ∀ e ∈ ends, ∃ c, sch.read e.2 = .ok c ∧ c ≤ a := by
    rcases hstart with ⟨-, t, hsome, -⟩ | ⟨-, hmax⟩
    · rw [hfrom] at hsome
      cases hsome
    · exact hmax
  refine .inr ⟨hfrom', ?_, ?_⟩
  · cases n with
    | zero => exact ⟨e₀, (hends _).2 (.inl he₀), hread₀⟩
    | succ k => exact ⟨_, (hends _).2 (.inr ((hnew _).2 ⟨k, Nat.lt_succ_self k, rfl⟩)), hread (k + 1) le_rfl⟩
  · intro e he
    rcases (hends e).1 he with hold | hnewe
    · obtain ⟨c, hc, hle⟩ := hall e hold
      exact ⟨c, hc, hle.trans (hmono (Nat.zero_le n))⟩
    · obtain ⟨i, hi, rfl⟩ := (hnew e).1 hnewe
      exact ⟨_, hread (i + 1) hi, hmono hi⟩

theorem Leads.rest (ends' : List (TableName × String)) (h : sch.Leads req ends a b' n) (hm : sch.next^[m] a = b) (hlt : a < b) (hb : b < b')
    (hfree : ∀ i, m ≤ i → i < n → NameFree req' (sch.suffix (sch.next^[i] a))) : m ≤ n ∧ sch.Leads req' ends' b b' (n - m) := by
  have hmono := Tiling.iterate_strictMono sch.lt_next a
  have hn : sch.next^[n] a = b' := by
    rcases h.reaches with ⟨-, hn⟩ | ⟨hle, -⟩
    · exact hn
    · exact absurd (hlt.trans hb) (not_lt.2 hle)
  have hmn : m < n := by
    rw [← hm, ← hn] at hb
    exact hmono.lt_iff_lt.1 hb
  have hstep : ∀ i, sch.next^[i] b = sch.next^[i + m] a := fun i => by rw [Function.iterate_add_apply, hm]
  have hfew := h.few
  refine ⟨hmn.le, ?_, .inl ⟨hb, ?_⟩, by omega, ?_⟩
  · rw [← hm]
    exact onGrid_iterate h.onGrid m
  · rw [hstep, Nat.sub_add_cancel hmn.le, hn]
  · intro i hi
    rw [hstep]
    exact ⟨(h.named (i + m) (by omega)).1, hfree (i + m) (by omega) (by omega)⟩

theorem Run.declarable (h : sch.Run req ends a n) : ((sch.result req a n).partitions.map (·.name)).Nodup ∧
    ∀ p ∈ (sch.result req a n).partitions, req.schema.tables.contains p.name = false := by
  by_cases hne : (sch.result req a n).partitions = []
  · rw [hne]
    exact ⟨nodup_nil, nofun⟩
  · obtain ⟨b, htiled⟩ := h.tiled hne
    exact ⟨htiled.names_nodup, fun p hp => (htiled.names_free p hp).1⟩

theorem Run.read_point (h : sch.Run req ends a n) {i : ℕ} (hi : i ≤ n) :
    sch.read (sch.spell (sch.next^[i] a)) = .ok (sch.next^[i] a) := by
  obtain ⟨hstart, b, hb, hleads⟩ := h
  obtain ⟨s, hs⟩ := hstart.exists_read
  rcases hleads.reaches with ⟨-, hn⟩ | ⟨-, -, rfl⟩
  · exact read_iterate hs hb hleads.onGrid hn hi
  · exact read_iterate hs hs hleads.onGrid rfl hi

theorem Leads.le_iterate (h : sch.Leads req ends a b n) : b ≤ sch.next^[n] a := by
  rcases h.reaches with ⟨-, hn⟩ | ⟨hle, -, rfl⟩
  · exact hn.ge
  · exact hle

theorem Leads.nothing (hgrid : sch.OnGrid a) (hne : ends ≠ []) (hle : b ≤ a) : sch.Leads req ends a b 0 where
  onGrid := hgrid
  reaches := .inr ⟨hle, hne, rfl⟩
  few := by decide
  named := nofun

theorem Leads.nameFree_declare {schema : Schema} {parent : TableName} {every u u' : String}
    (hrun : sch.Run { schema, parent, every, until_ := u } ends a m)
    (h : sch.Leads { schema, parent, every, until_ := u' } ends a b n) (hb : sch.read u' = .ok b) (hn : sch.next^[n] a = b)
    {i : ℕ} (hmi : m ≤ i) (hi : i < n) :
    NameFree {
      schema := declare schema parent (sch.result { schema, parent, every, until_ := u } a m).partitions
      parent, every, until_ := u' } (sch.suffix (sch.next^[i] a)) := by
  have hmono := (Tiling.iterate_strictMono sch.lt_next a).monotone
  obtain ⟨s, hs⟩ := hrun.1.exists_read
  obtain ⟨-, hbytes, hold⟩ := h.named i hi
  obtain ⟨hnodup, hfree⟩ := hrun.declarable
  refine ⟨hbytes, ?_⟩
  by_contra htaken
  rw [Bool.not_eq_false, contains_eq_isSome_getElem?, Option.isSome_iff_exists] at htaken
  obtain ⟨table, htable⟩ := htaken
  rcases (getElem?_declare hnodup hfree).1 htable with ⟨p, hp, hname, -⟩ | htable
  · -- A name of the first run is of an earlier point.
    obtain ⟨v, hv, rfl⟩ := List.mem_map.1 hp
    obtain ⟨j, hj, rfl⟩ := Tiling.mem_pieces.1 hv
    have hle : ∀ k ≤ n, sch.next^[k] a ≤ b := fun k hk => hn ▸ hmono hk
    have hji := sch.suffix_inj hs hb h.onGrid (hle j (by omega)) (hle i hi.le) (partName_inj hname)
    omega
  · exact Option.some_ne_none table (htable.symm.trans (getElem?_eq_none_of_contains_eq_false hold))

end Scheme

def Reaches (schema : Schema) (parent : TableName) (key : Key) (v : Val) : Prop :=
  ∃ (name : TableName) (table : Table) (text : String) (w : Val), schema.tables[name]? = some table ∧
    endOf parent name table = .ok (some text) ∧ readVal key text = .ok w ∧ v ≤ w

theorem reaches_iff {req : RangeSeriesRequest} (h : inspect req = .ok declared) {key : Key} {v : Val} :
    Reaches req.schema req.parent key v ↔ ∃ e ∈ declared.ends, ∃ w, readVal key e.2 = .ok w ∧ v ≤ w := by
  obtain ⟨-, -, hends⟩ := inspect_eq_ok.1 h
  constructor
  · rintro ⟨name, table, text, w, ht, hend, hw, hle⟩
    exact ⟨(name, text), hends ▸ mem_ends.2 ⟨table, ht, hend⟩, w, hw, hle⟩
  · rintro ⟨⟨name, text⟩, he, w, hw, hle⟩
    rw [hends] at he
    obtain ⟨table, ht, hend⟩ := mem_ends.1 he
    exact ⟨name, table, text, w, ht, hend, hw, hle⟩

theorem StepsBy.readVal_eq_ok {key : Key} {every : String} {α : Type} [LinearOrder α] {sch : Scheme α}
    (h : StepsBy key every sch) : ∃ worth : α → Val, (∀ x y, worth x ≤ worth y ↔ x ≤ y) ∧
      ∀ text v, readVal key text = .ok v ↔ ∃ x, sch.read text = .ok x ∧ worth x = v := by
  cases h with
  | temporal hkey hstep => exact ⟨.time, fun x y => Val.time_le, fun text v => readVal_time hkey⟩
  | integer hkey hstep hpos =>
    refine ⟨.int, fun x y => Val.int_le, fun text v => ?_⟩
    rw [hkey]
    exact readVal_int

/-- Two runs are one: once a first run's partitions are declared, a run to a later end adds what a single run adds after
them. And they reach the first run's end, and a run to an end that is reached adds nothing. -/
theorem series_extends {schema : Schema} {parent : TableName} {every u₁ : String} {key : Key} {r₁ : RangeSeries} {v₁ : Val}
    (hkey : keyOf schema parent = .ok key) (hv₁ : readVal key u₁ = .ok v₁)
    (h₁ : series { schema, parent, every, until_ := u₁ } = .ok r₁) :
    (∀ u₂ v₂ r₂, readVal key u₂ = .ok v₂ → v₁ < v₂ → series { schema, parent, every, until_ := u₂ } = .ok r₂ →
      ∃ r₃, series { schema := declare schema parent r₁.partitions, parent, every, until_ := u₂ } = .ok r₃ ∧
        r₁.partitions ++ r₃.partitions = r₂.partitions) ∧
    Reaches (declare schema parent r₁.partitions) parent key v₁ ∧
      ∀ u v, readVal key u = .ok v → Reaches (declare schema parent r₁.partitions) parent key v →
        ∃ r, series { schema := declare schema parent r₁.partitions, parent, every, until_ := u } = .ok r ∧
          r.partitions = [] := by
  obtain ⟨declared, hinspect, α, _, sch, hsch⟩ := exists_stepsBy h₁
  obtain rfl : key = declared.key := ok.inj (hkey.symm.trans (inspect_eq_ok.1 hinspect).1)
  obtain ⟨a, n₁, hrun₁, rfl⟩ := (series_eq_ok hinspect hsch).1 h₁
  obtain ⟨worth, hworth, hval⟩ := hsch.readVal_eq_ok
  obtain ⟨hstart, b₁, hb₁, hleads₁⟩ := id hrun₁
  have hread : ∀ {u x v}, sch.read u = .ok x → readVal declared.key u = .ok v → worth x = v := by
    intro u x v hx hv
    obtain ⟨y, hy, rfl⟩ := (hval u v).1 hv
    rw [ok.inj (hx.symm.trans hy)]
  -- The second run's declarations, whatever its end, and where it starts.
  have hnext : ∀ u, ∃ req' : RangeSeriesRequest, req' = {
        schema := declare schema parent (sch.result { schema, parent, every, until_ := u₁ } a n₁).partitions
        parent, every, until_ := u } ∧
      ∃ ends', inspect req' = .ok ⟨declared.key, ends'⟩ ∧ sch.Start req' ends' (sch.next^[n₁] a) := by
    intro u
    obtain ⟨hnodup, hfree⟩ := hrun₁.declarable
    obtain ⟨ends', hinspect', hends'⟩ := inspect_declare u hinspect hnodup hfree
    exact ⟨_, rfl, ends', hinspect', hstart.extend rfl rfl (fun i hi => hrun₁.read_point hi) hends'⟩
  refine ⟨?_, ?_, ?_⟩
  · intro u₂ v₂ r₂ hv₂ hlt h₂
    obtain ⟨a₂, n₂, ⟨hstart₂, b₂, hb₂, hleads₂⟩, rfl⟩ :=
      (series_eq_ok (show inspect { schema, parent, every, until_ := u₂ } = .ok declared from hinspect) hsch).1 h₂
    obtain rfl : a = a₂ := hstart.unique hstart₂
    have hb : b₁ < b₂ := by
      rw [← hread hb₁ hv₁, ← hread hb₂ hv₂, lt_iff_not_ge, hworth] at hlt
      exact not_le.1 hlt
    rcases hleads₁.reaches with ⟨hab, hn₁⟩ | ⟨hle, -, rfl⟩
    · have hn₂ : sch.next^[n₂] a = b₂ := le_antisymm (by
        rcases hleads₂.reaches with ⟨-, hn⟩ | ⟨hle, -⟩
        · exact hn.le
        · exact absurd (hab.trans hb) (not_lt.2 hle)) hleads₂.le_iterate
      obtain ⟨-, rfl, ends', hinspect', hstart'⟩ := hnext u₂
      obtain ⟨hle, hleads'⟩ := hleads₂.rest ends' hn₁ hab hb fun i hmi hi =>
        hleads₂.nameFree_declare hrun₁ hb₂ hn₂ hmi hi
      refine ⟨_, (series_eq_ok hinspect' hsch).2 ⟨b₁, n₂ - n₁, ⟨hn₁ ▸ hstart', b₂, hb₂, hleads'⟩, rfl⟩, ?_⟩
      -- A partition is named after its parent and made of its bounds, whatever else is asked.
      show (Tiling.pieces sch.next a n₁).map (sch.part { schema, parent, every, until_ := u₁ }) ++
        (Tiling.pieces sch.next b₁ (n₂ - n₁)).map (sch.part { schema, parent, every, until_ := u₁ }) = _
      rw [← hn₁, ← map_append, ← Tiling.pieces_add, Nat.add_sub_cancel' hle]
      rfl
    · exact ⟨_, h₂, rfl⟩
  · obtain ⟨-, rfl, ends', hinspect', hstart'⟩ := hnext u₁
    refine (reaches_iff hinspect').2 ?_
    rcases hstart' with ⟨-, t, hfrom, -⟩ | ⟨-, ⟨e, he, hre⟩, -⟩
    · cases hfrom
    · refine ⟨e, he, worth (sch.next^[n₁] a), (hval _ _).2 ⟨_, hre, rfl⟩, ?_⟩
      rw [← hread hb₁ hv₁, hworth]
      exact hleads₁.le_iterate
  · intro u v hv hreaches
    obtain ⟨-, rfl, ends', hinspect', hstart'⟩ := hnext u
    obtain ⟨e, he, w, hw, hle⟩ := (reaches_iff hinspect').1 hreaches
    obtain ⟨b, hb, rfl⟩ := (hval u v).1 hv
    have hba : b ≤ sch.next^[n₁] a := by
      rcases hstart' with ⟨-, t, hfrom, -⟩ | ⟨-, -, hall⟩
      · cases hfrom
      · obtain ⟨c, hc, hca⟩ := hall e he
        rw [← hread hc hw, hworth] at hle
        exact hle.trans hca
    refine ⟨_, (series_eq_ok hinspect' hsch).2 ⟨_, 0, ⟨hstart', b, hb, ?_⟩, rfl⟩, rfl⟩
    exact .nothing (Scheme.onGrid_iterate hleads₁.onGrid n₁) (ne_nil_of_mem he) hba

namespace Ev

/-- February, and then March; and February again. -/
theorem series_extends_months :
    (∃ r₃, series { months with
        schema := declare months.schema (name "ev") [⟨name "ev_2027_02", "2027-02-01", "2027-03-01"⟩] } = .ok r₃ ∧
      ⟨name "ev_2027_02", "2027-02-01", "2027-03-01"⟩ :: r₃.partitions = added.partitions) ∧
    ∃ r, series { months with
        schema := declare months.schema (name "ev") [⟨name "ev_2027_02", "2027-02-01", "2027-03-01"⟩]
        until_ := "2027-03-01" } = .ok r ∧ r.partitions = [] := by
  have hkey : keyOf months.schema (name "ev") = .ok .date := rfl
  have hv₁ : readVal .date "2027-03-01" = .ok (.time ⟨2027, 3, 1, 0, 0⟩) := by decide
  have hv₂ : readVal .date "2027-04-01" = .ok (.time ⟨2027, 4, 1, 0, 0⟩) := by decide
  have h₁ : series { months with until_ := "2027-03-01" } =
      .ok ⟨"2027-02-01", [⟨name "ev_2027_02", "2027-02-01", "2027-03-01"⟩]⟩ := by decide
  have h₂ : series months = .ok added := by decide
  obtain ⟨hthen, hreaches, hagain⟩ := series_extends hkey hv₁ h₁
  exact ⟨hthen _ _ _ hv₂ (by decide) h₂, hagain _ _ hv₁ hreaches⟩

end Ev

end Pbps.Partition
