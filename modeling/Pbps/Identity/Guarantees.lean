/-
What a resolution that succeeds promises. No identity is guessed or lost: the live names are the declared ones, and every
uid of the input is accounted for.
-/
import Pbps.Identity.Valid

namespace Pbps.Identity

open Std (ExtTreeMap ExtTreeSet)
open Std.ExtTreeMap

variable {src : UidSource} {declared : Schema} {intents : List Intent} {ids₀ ids : IdsFile} {k : Nat} {ctx : Context}
  {r : Resolution}

/-! ## The input -/

variable {u root : Uid} {record : Rebuild}

theorem isLive_iff (hk : Kinds ids) : ids.isLive u = true ↔ ∃ o, live ids u = some o := by
  simp only [IdsFile.isLive, Bool.or_eq_true, contains_iff_exists]
  constructor
  · rintro ((((⟨n, h⟩ | ⟨n, h⟩) | ⟨n, h⟩) | ⟨n, h⟩) | ⟨n, h⟩)
    · exact ⟨_, (live_table hk).2 h⟩
    · exact ⟨_, (live_column hk).2 h⟩
    · exact ⟨_, (roleSection_lawful.live_eq_some hk).2 h⟩
    · exact ⟨_, (typeSection_lawful.live_eq_some hk).2 h⟩
    · exact ⟨_, (live_extension hk).2 h⟩
  · rintro ⟨o, h⟩
    cases o with
    | table n => exact Or.inl (Or.inl (Or.inl (Or.inl ⟨n, (live_table hk).1 h⟩)))
    | column n => exact Or.inl (Or.inl (Or.inl (Or.inr ⟨n, (live_column hk).1 h⟩)))
    | role n => exact Or.inl (Or.inl (Or.inr ⟨n, (roleSection_lawful.live_eq_some hk).1 h⟩))
    | type n => exact Or.inl (Or.inr ⟨n, (typeSection_lawful.live_eq_some hk).1 h⟩)
    | extension n => exact Or.inr ⟨n, (live_extension hk).1 h⟩

theorem Sound.start (hv : Valid ids) : Sound src declared intents ids ids := by
  refine ⟨hv.kinds, ⟨fun u v o hu hw => ?_, fun u o p hu hp => ?_, fun u hd => ?_⟩,
    Registry.Accounts.refl (Reach.refl declared intents ids), fun _ _ h => h, fun _ _ h => Or.inl h, fun u hu => ?_,
    rfl, rfl, rfl⟩
  · change live ids u = some o at hu
    change live ids v = some o at hw
    cases o with
    | table n => exact hv.tables u v n n ((live_table hv.kinds).1 hu) ((live_table hv.kinds).1 hw) rfl
    | column n => exact hv.columns u v n n ((live_column hv.kinds).1 hu) ((live_column hv.kinds).1 hw) rfl
    | role n =>
      exact hv.roles u v n n ((roleSection_lawful.live_eq_some hv.kinds).1 hu)
        ((roleSection_lawful.live_eq_some hv.kinds).1 hw) rfl
    | type n =>
      exact hv.types u v n n ((typeSection_lawful.live_eq_some hv.kinds).1 hu)
        ((typeSection_lawful.live_eq_some hv.kinds).1 hw) rfl
    | extension n => exact hv.extensions u v n n ((live_extension hv.kinds).1 hu) ((live_extension hv.kinds).1 hw) rfl
  · cases o <;> simp only [Obj.parent, reduceCtorEq, Option.some.injEq] at hp
    subst hp
    obtain ⟨v, h⟩ := hv.parents u _ ((live_column hv.kinds).1 hu)
    exact ⟨v, (live_table hv.kinds).2 h⟩
  · have := hv.apart u (contains_iff_mem.1 hd)
    by_contra hne
    obtain ⟨o, ho⟩ := Option.ne_none_iff_exists'.1 hne
    rw [(isLive_iff hv.kinds).2 ⟨o, ho⟩] at this
    cases this
  · obtain ⟨t, ht⟩ := mem_iff_exists.1 (hv.moves u hu)
    exact ⟨t, (live_table hv.kinds).2 ht⟩

/-! ## A file with a rebuild record -/

/-- Every identity a file gives out, with those it has retired. -/
def heldUids (ids : IdsFile) : List Uid :=
  ids.tables.keys ++ ids.columns.keys ++ ids.roles.keys ++ ids.types.keys ++ ids.extensions.keys ++ ids.tombstones.keys

theorem mem_heldUids : u ∈ heldUids ids ↔ ids.containsUid u = true := by
  simp only [heldUids, IdsFile.containsUid, List.mem_append, mem_keys, Bool.or_eq_true,
    contains_iff_mem]

def totalLength : List Uid → Nat
  | [] => 0
  | u :: us => u.text.length + totalLength us

theorem length_le_totalLength : ∀ {us : List Uid}, u ∈ us → u.text.length ≤ totalLength us
  | v :: us, h => by
    simp only [totalLength]
    rcases List.mem_cons.1 h with rfl | h
    · omega
    · have := length_le_totalLength h
      omega

/-- A generator that draws a uid longer than every one the file holds. -/
def longSource : UidSource where
  fresh ids kind := ⟨kind.prefixText ++ String.ofList (List.replicate (totalLength (heldUids ids)) '0')⟩
  kind_fresh ids kind := by
    cases kind <;> simp [Uid.kind, UidKind.prefixText]
  fresh_not_contained ids kind := by
    rw [Bool.eq_false_iff, ne_eq, ← mem_heldUids]
    intro h
    have hle := length_le_totalLength h
    have hprefix : 0 < kind.prefixText.length := by cases kind <;> decide
    simp only [String.length_append, String.length_ofList, List.length_replicate] at hle
    omega

/-- A table that was rebuilt once, beside the one it is to become a partition of. -/
def rebuiltTable : TableName := ⟨"app", "orders_2024"⟩
def partitionedTable : TableName := ⟨"app", "orders"⟩

def rebuildRecord : Rebuild where
  source :=
    { tables := (∅ : ExtTreeMap Uid TableName).insert ⟨"t_old"⟩ rebuiltTable
      columns := (∅ : ExtTreeMap Uid ColumnRef).insert ⟨"c_old"⟩ (rebuiltTable.column "id") }
  replacement :=
    { tables := (∅ : ExtTreeMap Uid TableName).insert ⟨"t_new"⟩ rebuiltTable
      columns := (∅ : ExtTreeMap Uid ColumnRef).insert ⟨"c_new"⟩ (rebuiltTable.column "id") }
  replacementRoot := ⟨"t_new"⟩
  continues := (∅ : ExtTreeMap Uid Uid).insert ⟨"t_new"⟩ ⟨"t_old"⟩ |>.insert ⟨"c_new"⟩ ⟨"c_old"⟩
  targetChecksum := String.ofList (List.replicate 64 'a')
  maxRows := 10
  allowedAt := "2025-01-01"
  reason := "a wider key"
  operator := "ops"

def rebuiltTombstone (was : String) : Tombstone :=
  { was, droppedAt := "2025-01-01", reason := "a wider key", operator := "ops" }

def rebuiltIds : IdsFile where
  tables := (∅ : ExtTreeMap Uid TableName).insert ⟨"t_new"⟩ rebuiltTable |>.insert ⟨"t_all"⟩ partitionedTable
  columns := (∅ : ExtTreeMap Uid ColumnRef).insert ⟨"c_new"⟩ (rebuiltTable.column "id")
    |>.insert ⟨"c_all"⟩ (partitionedTable.column "id")
  tombstones := (∅ : ExtTreeMap Uid Tombstone).insert ⟨"t_old"⟩ (rebuiltTombstone "app.orders_2024")
    |>.insert ⟨"c_old"⟩ (rebuiltTombstone "app.orders_2024.id")
  rebuilds := (∅ : ExtTreeMap Uid Rebuild).insert ⟨"t_old"⟩ rebuildRecord

def idColumn : IndexMap ColumnName Column := AList.singleton "id" { ty := { base := "int" }, nullable := false }

def partitionedSchema (child : Table) : Schema where
  tables := (∅ : ExtTreeMap TableName Table).insert partitionedTable { columns := idColumn } |>.insert rebuiltTable child

def opsContext : Context := { operator := "ops", today := "2026-01-01" }

/-- The rebuilt table declared as a partition, and as the table it was. -/
def attachedSchema : Schema := partitionedSchema { partitionOf := some { parent := partitionedTable, bound := .default } }
def detachedSchema : Schema := partitionedSchema { columns := idColumn }

theorem rebuiltIds_valid : rebuiltIds.validate = .ok () := by decide

theorem exists_of_toOption {ε α β : Type} {x : Except ε α} {f : α → β} {b : β} (h : x.toOption.map f = some b) :
    ∃ a, x = .ok a ∧ f a = b := by
  cases x with
  | error e => cases h
  | ok a => exact ⟨a, rfl, Option.some.inj h⟩

theorem resolve_attached : ∃ r, resolveWithAnnotations longSource attachedSchema rebuiltIds [] 0 opsContext = .ok r ∧
    r.ids.validate = .error (.invalidRebuild ⟨"t_old"⟩) :=
  exists_of_toOption (f := fun r : Resolution => r.ids.validate) (by decide +kernel)

theorem resolve_detached : ∃ r, resolveWithAnnotations longSource detachedSchema rebuiltIds [] 0 opsContext = .ok r ∧
    r.createdTables = [] :=
  exists_of_toOption (f := fun r : Resolution => r.createdTables) (by decide +kernel)

/-! ## No identity is guessed or lost -/

/-- Every uid of a valid input is accounted for in the result, whose live names are the declared
ones; every tombstone stands as it was. A uid that may leave without a record is gone, unless the
generator draws it again for something new. -/
theorem resolve_accounts_for_identities (hv : ids.validate = .ok ())
    (h : resolveWithAnnotations src declared ids intents k ctx = .ok r) :
    ((∀ t, (∃ u : Uid, r.ids.tables[u]? = some t) ↔ t ∈ declared.tables) ∧
      (∀ n, (∃ u : Uid, r.ids.types[u]? = some n) ↔ n ∈ declared.types) ∧
      (∀ n, (∃ u : Uid, r.ids.roles[u]? = some n) ↔ n ∈ declared.roles) ∧
      (∀ n, (∃ u : Uid, r.ids.extensions[u]? = some n) ↔ n ∈ declared.extensions) ∧
      ∀ c, (∃ u : Uid, r.ids.columns[u]? = some c) ↔ OwnsColumn declared c.table c.name) ∧ (∀ u o, live ids u = some o →
      (∃ o', live r.ids u = some o' ∧ Reach declared intents ids o o') ∨
      (u ∈ r.ids.tombstones ∧ Dropped declared intents ids o) ∨
      (Forgotten declared intents ids o ∧ (src.Draws u ∨ (live r.ids u = none ∧ u ∉ r.ids.tombstones)))) ∧
    ∀ (u : Uid) t, ids.tombstones[u]? = some t → r.ids.tombstones[u]? = some t := by
  obtain ⟨ids', hs, hr⟩ := resolve_settled (Sound.start (validate_eq_ok.1 hv)) h
  have hk := hs.sound.kinds
  rw [hr]
  refine ⟨⟨fun t => ?_, fun n => ?_, fun n => ?_, fun n => ?_, fun c => ?_⟩, fun u o ho => ?_, hs.sound.tombstones⟩
  · exact (exists_congr fun u => (live_table hk).symm).trans (hs.tables t)
  · exact (exists_congr fun u => (typeSection_lawful.live_eq_some hk).symm).trans (hs.types n)
  · exact (exists_congr fun u => (roleSection_lawful.live_eq_some hk).symm).trans (hs.roles n)
  · exact (exists_congr fun u => (live_extension hk).symm).trans (hs.extensions n)
  · exact (exists_congr fun u => (live_column hk).symm).trans (hs.columns c)
  · rcases hs.sound.accounts.anchors u o ho with h | ⟨hd, h⟩ | ⟨h, hg | ⟨hl, hd⟩⟩
    · exact Or.inl h
    · exact Or.inr (Or.inl ⟨contains_iff_mem.1 hd, h⟩)
    · exact Or.inr (Or.inr ⟨h, Or.inl hg⟩)
    · exact Or.inr (Or.inr ⟨h, Or.inr ⟨hl, fun hm => hd (contains_iff_mem.2 hm)⟩⟩)

/-- The rebuilt table attached as a partition: its column may leave without a record. -/
theorem attached_accounts_for_identities :
    ∃ r, resolveWithAnnotations longSource attachedSchema rebuiltIds [] 0 opsContext = .ok r ∧
      (∀ t, (∃ u : Uid, r.ids.tables[u]? = some t) ↔ t ∈ attachedSchema.tables) ∧
      ∀ (u : Uid) t, rebuiltIds.tombstones[u]? = some t → r.ids.tombstones[u]? = some t := by
  obtain ⟨r, hr, -⟩ := resolve_attached
  have h := resolve_accounts_for_identities rebuiltIds_valid hr
  exact ⟨r, hr, h.1.1, h.2.2⟩

/-! ## The file it leaves -/

/-- No two declared tables, and no two columns declared for tables of their own, have one spelling. -/
def SpellsApart (declared : Schema) : Prop :=
  (∀ t t', t ∈ declared.tables → t' ∈ declared.tables → t.raw = t'.raw → t = t') ∧
    ∀ c c' : ColumnRef, OwnsColumn declared c.table c.name → OwnsColumn declared c'.table c'.name →
      c.raw = c'.raw → c = c'

/-- No rebuild record holds a live column of a table that is now declared as a partition. -/
def RebuildsStand (declared : Schema) (intents : List Intent) (ids : IdsFile) : Prop :=
  ∀ (root : Uid) record, ids.rebuilds[root]? = some record → ∀ u ∈ record.targets, ∀ c,
    ids.columns[u]? = some c → ¬ BecomesPartition declared intents ids c.table

theorem rebuildInvalid_parts (h : ids.rebuildInvalid root record = false) :
    (∀ u ∈ record.sources, u ∈ ids.tombstones) ∧ ∀ u ∈ record.targets, ids.held u = true := by
  simp only [IdsFile.rebuildInvalid, Bool.or_eq_false_iff, List.any_eq_false] at h
  obtain ⟨⟨-, h1⟩, h2⟩ := h
  refine ⟨fun u hu => ?_, fun u hu => ?_⟩
  · simpa using h1 u hu
  · have := h2 u hu
    simp only [Bool.or_eq_true, not_or, Bool.not_eq_true] at this
    simpa using this.1.1

theorem rebuildInvalid_mono {ids' : IdsFile} (h : ids.rebuildInvalid root record = false)
    (hs : ∀ u ∈ record.sources, u ∈ ids'.tombstones) (ht : ∀ u ∈ record.targets, ids'.held u = true) :
    ids'.rebuildInvalid root record = false := by
  simp only [IdsFile.rebuildInvalid, Bool.or_eq_false_iff, List.any_eq_false] at h ⊢
  obtain ⟨⟨h0, h1⟩, h2⟩ := h
  refine ⟨⟨h0, fun u hu => ?_⟩, fun u hu => ?_⟩
  · simpa using hs u hu
  · have := h2 u hu
    simp only [Bool.or_eq_true, not_or, Bool.not_eq_true] at this ⊢
    exact ⟨⟨by simpa using ht u hu, this.1.2⟩, this.2⟩

theorem held_iff (hk : Kinds ids) : ids.held u = true ↔
    (∃ t, live ids u = some (.table t)) ∨ (∃ c, live ids u = some (.column c)) ∨ u ∈ ids.tombstones := by
  simp only [IdsFile.held, Bool.or_eq_true, or_assoc, live_table hk, live_column hk, ← contains_iff_exists,
    contains_iff_mem]

/-- What a record holds stays held: a table lives on or is retired, and so does a column whose table
keeps columns of its own. -/
theorem Settled.held (hv : Valid ids₀) (hs : Settled src declared intents ids₀ ids)
    (hstand : ∀ c, ids₀.columns[u]? = some c → ¬ BecomesPartition declared intents ids₀ c.table) (h : ids₀.held u = true) :
    ids.held u = true := by
  rw [held_iff hs.sound.kinds]
  rcases (held_iff hv.kinds).1 h with ⟨t, ht⟩ | ⟨c, hc⟩ | hd
  · rcases hs.sound.accounts.anchors u _ ht with ⟨o', h1, h2⟩ | ⟨h1, -⟩ | ⟨h1, -⟩
    · cases h2 with
      | table _ t' _ => exact Or.inl ⟨t', h1⟩
    · exact Or.inr (Or.inr (contains_iff_mem.1 h1))
    · cases h1
  · rcases hs.sound.accounts.anchors u _ hc with ⟨o', h1, h2⟩ | ⟨h1, -⟩ | ⟨h1, -⟩
    · cases h2 with
      | column _ c' _ _ => exact Or.inr (Or.inl ⟨c', h1⟩)
    · exact Or.inr (Or.inr (contains_iff_mem.1 h1))
    · exact absurd h1 (hstand c ((live_column hv.kinds).1 hc))
  · exact Or.inr (Or.inr (contains_iff_mem.1 (hs.sound.accounts.dead u (contains_iff_mem.2 hd))))

theorem Settled.not_held (hv : Valid ids₀) (hs : Settled src declared intents ids₀ ids) {c : ColumnRef}
    (hc : ids₀.columns[u]? = some c) (hp : BecomesPartition declared intents ids₀ c.table) (hdraw : ¬ src.Draws u) :
    ids.held u = false := by
  obtain ⟨t', table, hreach, htable, hpart⟩ := hp
  have ht' : t' ∈ declared.tables := mem_of_getElem?_eq htable
  obtain ⟨v, hparent⟩ := hv.parents u c hc
  -- a table that arrives somewhere with columns of its own would arrive at two names
  have clash : ∀ {t''}, TableReach declared intents ids₀ c.table t'' → ¬ OwnsColumns declared t'' := by
    rintro t'' h ⟨table', h1, h2⟩
    have ht'' : t'' ∈ declared.tables := mem_of_getElem?_eq h1
    have heq : t'' = t' := by
      by_cases hd : c.table ∈ declared.tables
      · rcases h with rfl | ⟨h, -⟩
        · rcases hreach with rfl | ⟨h, -⟩
          · rfl
          · exact absurd hd h
        · exact absurd hd h
      · exact hs.arrives v c.table t'' t' hparent hd h hreach ht'' ht'
    rw [heq, htable] at h1
    cases h1
    rw [h2] at hpart; cases hpart
  have hl := (live_column hv.kinds).2 hc
  rw [Bool.eq_false_iff, ne_eq, held_iff hs.sound.kinds]
  have hgone : live ids u = none ∧ u ∉ ids.tombstones := by
    rcases hs.sound.accounts.anchors u _ hl with ⟨o', h1, h2⟩ | ⟨-, h1⟩ | ⟨-, h1 | ⟨h1, h2⟩⟩
    · cases h2 with
      | column _ c' hct _ =>
        obtain ⟨table', h3, h4, -⟩ := (hs.columns c').1 ⟨u, h1⟩
        exact absurd ⟨table', h3, h4⟩ (clash hct)
    · rcases h1 with ⟨h1, h2, -⟩ | ⟨t'', reason, h1, h2, -⟩
      · rcases hreach with rfl | ⟨-, -, h3, h4⟩
        · exact absurd ht' h1
        · exact absurd h4 (h2 t' ht' h3)
      · exact absurd h2 (clash h1)
    · exact absurd h1 hdraw
    · exact ⟨h1, fun hm => h2 (contains_iff_mem.2 hm)⟩
  rintro (⟨t, h⟩ | ⟨c', h⟩ | h)
  · rw [hgone.1] at h; cases h
  · rw [hgone.1] at h; cases h
  · exact hgone.2 h

def withoutStrayConversions (ids : IdsFile) : IdsFile :=
  { ids with conversions := ids.conversions.filter fun uid _ => ids.columns.contains uid }

theorem Settled.valid (hv : Valid ids₀) (hs : Settled src declared intents ids₀ ids) (hspell : SpellsApart declared)
    (hstand : RebuildsStand declared intents ids₀) : Valid (withoutStrayConversions ids) := by
  have hk := hs.sound.kinds
  have hu := hs.sound.wf.unique
  constructor
  case version => exact hs.sound.version.trans hv.version
  case kinds => exact ⟨hk.tables, hk.columns, hk.roles, hk.types, hk.extensions⟩
  case requires =>
    intro u t ht
    rcases hs.sound.requires u t ht with h | h
    · exact hv.requires u t h
    · rw [h]; simp
  case apart =>
    intro u hm
    have hnone : live ids u = none := hs.sound.wf.apart u (contains_iff_mem.2 hm)
    rw [Bool.eq_false_iff, ne_eq]
    intro hlive
    obtain ⟨o, ho⟩ := (isLive_iff hk).1 hlive
    rw [hnone] at ho; cases ho
  case tables =>
    intro u v a b ha hb hab
    have ha := (live_table hk).2 ha
    have hb := (live_table hk).2 hb
    rw [← hspell.1 a b ((hs.tables a).1 ⟨u, ha⟩) ((hs.tables b).1 ⟨v, hb⟩) hab] at hb
    exact hu u v _ ha hb
  case columns =>
    intro u v a b ha hb hab
    have ha := (live_column hk).2 ha
    have hb := (live_column hk).2 hb
    rw [← hspell.2 a b ((hs.columns a).1 ⟨u, ha⟩) ((hs.columns b).1 ⟨v, hb⟩) hab] at hb
    exact hu u v _ ha hb
  case roles =>
    intro u v a b ha hb hab
    cases hab
    exact hu u v _ ((roleSection_lawful.live_eq_some hk).2 ha) ((roleSection_lawful.live_eq_some hk).2 hb)
  case types =>
    intro u v a b ha hb hab
    cases TypeRef.raw_injective hab
    exact hu u v _ ((typeSection_lawful.live_eq_some hk).2 ha) ((typeSection_lawful.live_eq_some hk).2 hb)
  case extensions =>
    intro u v a b ha hb hab
    cases hab
    exact hu u v _ ((live_extension hk).2 ha) ((live_extension hk).2 hb)
  case parents =>
    intro u c hc
    obtain ⟨v, h⟩ := hs.sound.wf.parent u _ _ ((live_column hk).2 hc) rfl
    exact ⟨v, (live_table hk).1 h⟩
  case moves =>
    intro u hm
    obtain ⟨t, ht⟩ := hs.sound.moves u hm
    exact mem_of_getElem?_eq ((live_table hk).1 ht)
  case conversions =>
    intro u c hc
    obtain ⟨h1, h2⟩ := getElem?_filter_eq_some.1 hc
    rw [hs.sound.conversions] at h1
    exact ⟨contains_iff_mem.1 h2, (hv.conversions u c h1).2⟩
  case rebuilds =>
    intro u record hr
    have hr : ids₀.rebuilds[u]? = some record := by rw [← hs.sound.rebuilds]; exact hr
    have hold := hv.rebuilds u record hr
    obtain ⟨h1, h2⟩ := rebuildInvalid_parts hold
    refine rebuildInvalid_mono hold (fun x hx => ?_) fun x hx => ?_
    · obtain ⟨t, ht⟩ := mem_iff_exists.1 (h1 x hx)
      exact mem_of_getElem?_eq (hs.sound.tombstones x t ht)
    · show ids.held x = true
      exact hs.held hv (fun c hc => hstand u record hr x hx c hc) (h2 x hx)
  case reserved =>
    show (ids.rebuilds.toList.flatMap fun e => e.2.targets).Nodup
    rw [hs.sound.rebuilds]
    exact hv.reserved

/-- A resolution of a valid file leaves a valid one if the declared names are spelled apart and no
rebuild record rests on a column of a table now declared as a partition; and only if, where the
generator draws no uid the input holds. -/
theorem resolve_leaves_valid (hv : ids.validate = .ok ()) (h : resolveWithAnnotations src declared ids intents k ctx = .ok r) :
    (SpellsApart declared ∧ RebuildsStand declared intents ids → r.ids.validate = .ok ()) ∧
      ((∀ u, ids.isLive u = true → ¬ src.Draws u) → r.ids.validate = .ok () →
        SpellsApart declared ∧ RebuildsStand declared intents ids) := by
  have hv := validate_eq_ok.1 hv
  obtain ⟨ids', hs, hr⟩ := resolve_settled (Sound.start hv) h
  have hk := hs.sound.kinds
  rw [hr, validate_eq_ok]
  refine ⟨fun ⟨h1, h2⟩ => hs.valid hv h1 h2, fun hdraw hv' => ⟨⟨fun t t' ht ht' he => ?_, fun c c' hc hc' he => ?_⟩, ?_⟩⟩
  · obtain ⟨u, hu⟩ := (hs.tables t).2 ht
    obtain ⟨v, hw⟩ := (hs.tables t').2 ht'
    have huv := hv'.tables u v t t' ((live_table hk).1 hu) ((live_table hk).1 hw) he
    rw [huv, hw] at hu
    cases hu; rfl
  · obtain ⟨u, hu⟩ := (hs.columns c).2 hc
    obtain ⟨v, hw⟩ := (hs.columns c').2 hc'
    have huv := hv'.columns u v c c' ((live_column hk).1 hu) ((live_column hk).1 hw) he
    rw [huv, hw] at hu
    cases hu; rfl
  · intro root record hrec u hu c hc hp
    have hrec' : ids'.rebuilds[root]? = some record := by rw [hs.sound.rebuilds]; exact hrec
    have hheld : ids'.held u = true := (rebuildInvalid_parts (hv'.rebuilds root record hrec')).2 u hu
    have hlive : ids.isLive u = true := (isLive_iff hv.kinds).2 ⟨_, (live_column hv.kinds).2 hc⟩
    rw [hs.not_held hv hc hp (hdraw u hlive)] at hheld
    cases hheld

theorem getElem?_partitionedSchema {child : Table} {t : TableName} {table : Table}
    (h : (partitionedSchema child).tables[t]? = some table) :
    (t = rebuiltTable ∧ table = child) ∨ (t = partitionedTable ∧ table = { columns := idColumn }) := by
  rw [partitionedSchema, getElem?_insert_eq_some, getElem?_insert_eq_some] at h
  rcases h with h | ⟨-, h | ⟨-, h⟩⟩
  · exact Or.inl h
  · exact Or.inr h
  · simp at h

theorem mem_idColumn {n : ColumnName} (h : n ∈ idColumn) : n = "id" := by
  rw [AList.mem_keys, idColumn, AList.keys_singleton, List.mem_singleton] at h
  exact h

theorem detached_spellsApart : SpellsApart detachedSchema := by
  have hmem : ∀ {t}, t ∈ detachedSchema.tables → t = rebuiltTable ∨ t = partitionedTable := by
    intro t ht
    obtain ⟨table, h⟩ := mem_iff_exists.1 ht
    exact (getElem?_partitionedSchema h).imp And.left And.left
  have hown : ∀ {c : ColumnRef}, OwnsColumn detachedSchema c.table c.name →
      (c.table = rebuiltTable ∨ c.table = partitionedTable) ∧ c.name = "id" := by
    rintro c ⟨table, h, -, hc⟩
    rcases getElem?_partitionedSchema h with ⟨ht, rfl⟩ | ⟨ht, rfl⟩
    · exact ⟨Or.inl ht, mem_idColumn hc⟩
    · exact ⟨Or.inr ht, mem_idColumn hc⟩
  refine ⟨fun t t' ht ht' he => ?_, fun c c' hc hc' he => ?_⟩
  · rcases hmem ht with rfl | rfl <;> rcases hmem ht' with rfl | rfl <;> first | rfl | exact absurd he (by decide)
  · obtain ⟨ht, hn⟩ := hown hc
    obtain ⟨ht', hn'⟩ := hown hc'
    obtain ⟨t, n⟩ := c
    obtain ⟨t', n'⟩ := c'
    dsimp only at ht hn ht' hn'
    subst hn hn'
    rcases ht with rfl | rfl <;> rcases ht' with rfl | rfl <;> first | rfl | exact absurd he (by decide)

theorem detached_rebuildsStand : RebuildsStand detachedSchema [] rebuiltIds := by
  rintro root record - u - c - ⟨t', table, -, ht, hp⟩
  rcases getElem?_partitionedSchema ht with ⟨-, rfl⟩ | ⟨-, rfl⟩ <;> cases hp

theorem detached_leaves_valid : ∃ r, resolveWithAnnotations longSource detachedSchema rebuiltIds [] 0 opsContext = .ok r ∧
    r.ids.validate = .ok () := by
  obtain ⟨r, hr, -⟩ := resolve_detached
  exact ⟨r, hr, (resolve_leaves_valid rebuiltIds_valid hr).1 ⟨detached_spellsApart, detached_rebuildsStand⟩⟩

/-- Attaching a rebuilt table as a partition forgets the column its rebuild record holds, and the
file it leaves does not validate. -/
theorem resolve_breaks_rebuild : ¬ ∀ (src : UidSource) (declared : Schema) (ids : IdsFile) (intents : List Intent)
    (k : Nat) (ctx : Context) (r : Resolution), ids.validate = .ok () →
      resolveWithAnnotations src declared ids intents k ctx = .ok r → r.ids.validate = .ok () := by
  intro h
  obtain ⟨r, hr, hbad⟩ := resolve_attached
  have := h longSource attachedSchema rebuiltIds [] 0 opsContext r rebuiltIds_valid hr
  rw [hbad] at this
  cases this

end Pbps.Identity
