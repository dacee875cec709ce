/-
Identities of what a database was seen to hold: `observed_ids_reserving` of `managed.rs`, with the `Uid::derived` of
`uid.rs`. A live object whose name the record holds keeps its recorded uid. Any other gets a uid derived from its name that
neither the record nor the reserved file holds.
-/
import Pbps.Diff.Renamed
import Pbps.Identity.Guarantees
import Pbps.Lib.Reverse
import Pbps.Model.Escape
import Pbps.Tree.Names
import Mathlib.Algebra.Group.Nat.Defs

namespace Pbps

open Std (ExtTreeMap ExtTreeSet)
open List

/-! ## Derived uids -/

namespace Uid

/-- `salt.to_be_bytes()`. -/
def saltBytes (salt : Nat) : List UInt8 :=
  [.ofNat (salt / 2 ^ 24), .ofNat (salt / 2 ^ 16), .ofNat (salt / 2 ^ 8), .ofNat salt]

def hashed (kind : UidKind) (seed : String) (salt : Nat) : List UInt8 :=
  kind.prefixText.toUTF8.toList ++ seed.toUTF8.toList ++ saltBytes salt

/-- A uid derived from a name, rather than drawn at random: `sha256` is the digest of the bytes. -/
def derived (sha256 : List UInt8 → List UInt8) (kind : UidKind) (seed : String) (salt : Nat) : Uid :=
  ⟨kind.prefixText ++ String.ofList (((sha256 (hashed kind seed salt)).take LEN).map fun byte => ALPHABET[byte.toNat % 32]!)⟩

variable {sha256 : List UInt8 → List UInt8} {kind : UidKind} {seed : String} {salt : Nat}

@[simp] theorem derived_kind : (derived sha256 kind seed salt).kind = kind := by
  cases kind <;> simp [derived, Uid.kind, UidKind.prefixText, String.toList_append]

end Uid

namespace Identity

/-! ## Observing -/

/-- The uids of what was observed so far, and those that are no longer free. -/
structure Observing where
  taken : ExtTreeSet Uid
  observed : IdsFile := {}

section Observe

variable (sha256 : List UInt8 → List UInt8)

def freeUidFrom (kind : UidKind) (seed : String) (taken : ExtTreeSet Uid) : Nat → Nat → Option (Uid × ExtTreeSet Uid)
  | 0, _ => none
  | salts + 1, salt =>
    if taken.contains (.derived sha256 kind seed salt) then freeUidFrom kind seed taken salts (salt + 1)
    else some (.derived sha256 kind seed salt, taken.insert (.derived sha256 kind seed salt))

/-- `free_uid`: a uid derived from a name, past anything already claimed. There is none once the salts run out. -/
def freeUid (kind : UidKind) (seed : String) (taken : ExtTreeSet Uid) : Option (Uid × ExtTreeSet Uid) :=
  freeUidFrom sha256 kind seed taken (2 ^ 32) 0

def uidFor (kind : UidKind) (seed : String) (known : Option Uid) (taken : ExtTreeSet Uid) : Option (Uid × ExtTreeSet Uid) :=
  match known with
  | some uid => some (uid, taken)
  | none => freeUid sha256 kind seed taken

def byName {N : Type} [Ord N] [Std.TransOrd N] (section_ : ExtTreeMap Uid N) : ExtTreeMap N Uid := Reverse.lasts section_.toList ∅

variable (recorded : IdsFile)

def observeColumn (table : TableName) (this : Observing) (column : ColumnName) : Option Observing := do
  let cref := table.column column
  let (uid, taken) ← uidFor sha256 .column cref.raw (byName recorded.columns)[cref]? this.taken
  pure { taken, observed := { this.observed with columns := this.observed.columns.insert uid cref } }

def observeName (this : Observing) (name : TableName) : Option Observing := do
  let (uid, taken) ← uidFor sha256 .table name.raw (byName recorded.tables)[name]? this.taken
  pure { taken, observed := { this.observed with tables := this.observed.tables.insert uid name } }

def observeTable (this : Observing) (e : TableName × Table) : Option Observing := do
  e.2.columns.keys.foldlM (observeColumn sha256 recorded e.1) (← observeName sha256 recorded this e.1)

def observeRole (this : Observing) (name : RoleName) : Option Observing := do
  let (uid, taken) ← uidFor sha256 .role name (byName recorded.roles)[name]? this.taken
  pure { taken, observed := { this.observed with roles := this.observed.roles.insert uid name } }

def observeExtension (this : Observing) (name : ObjectLocalName) : Option Observing := do
  let (uid, taken) ← uidFor sha256 .extension name (recorded.extensionUid name) this.taken
  pure { taken, observed := { this.observed with extensions := this.observed.extensions.insert uid name } }

def observeType (this : Observing) (name : TypeRef) : Option Observing := do
  let (uid, taken) ← uidFor sha256 .type name.raw (recorded.typeUid name) this.taken
  pure { taken, observed := { this.observed with types := this.observed.types.insert uid name } }

def observedIdsReserved (live : Schema) (taken : ExtTreeSet Uid) : Option IdsFile := do
  let taken := taken.insertMany (heldUids recorded)
  let this ← live.tables.toList.foldlM (observeTable sha256 recorded) { taken }
  let this ← live.roles.keys.foldlM (observeRole sha256 recorded) this
  let this ← live.extensions.keys.foldlM (observeExtension sha256 recorded) this
  let this ← live.types.keys.foldlM (observeType sha256 recorded) this
  pure this.observed

/-- The identities of a live schema: recorded ones by name, and derived ones that neither file holds. -/
def observedIdsReserving (live : Schema) (reserved : IdsFile) : Option IdsFile :=
  observedIdsReserved sha256 recorded live (.ofList (heldUids reserved))

end Observe

/-! ## Free uids -/

section Free

variable {sha256 : List UInt8 → List UInt8} {kind : UidKind} {seed : String} {taken taken' : ExtTreeSet Uid} {uid : Uid}
  {known : Option Uid}

theorem freeUidFrom_spec : ∀ {salts salt : Nat}, freeUidFrom sha256 kind seed taken salts salt = some (uid, taken') →
    uid.kind = kind ∧ taken.contains uid = false ∧ taken' = taken.insert uid
  | 0, _, h => nomatch h
  | salts + 1, salt, h => by
    rw [freeUidFrom] at h
    split at h
    · exact freeUidFrom_spec h
    · next hfree =>
      cases h
      exact ⟨Uid.derived_kind, Bool.eq_false_iff.2 hfree, rfl⟩

theorem exists_freeUidFrom : ∀ {salts salt : Nat}, (∃ s, salt ≤ s ∧ s < salt + salts ∧
      taken.contains (.derived sha256 kind seed s) = false) →
    ∃ uid, freeUidFrom sha256 kind seed taken salts salt = some (uid, taken.insert uid)
  | 0, _, ⟨s, h1, h2, _⟩ => absurd h2 (by omega)
  | salts + 1, salt, ⟨s, h1, h2, hs⟩ => by
    rw [freeUidFrom]
    split
    · next htaken =>
      have hne : s ≠ salt := by
        rintro rfl
        rw [hs] at htaken
        cases htaken
      exact exists_freeUidFrom ⟨s, by omega, by omega, hs⟩
    · exact ⟨_, rfl⟩

def Reaches (sha256 : List UInt8 → List UInt8) (bound : Nat) : Prop :=
  ∀ kind seed, ∃ salts : List Nat, bound < salts.length ∧ (∀ s ∈ salts, s < 2 ^ 32) ∧ (salts.map (Uid.derived sha256 kind seed)).Nodup

theorem exists_freeUid {bound : Nat} (h : Reaches sha256 bound) (hsize : taken.size ≤ bound) :
    ∃ uid, freeUid sha256 kind seed taken = some (uid, taken.insert uid) := by
  obtain ⟨salts, hlong, hbelow, hnodup⟩ := h kind seed
  refine exists_freeUidFrom ?_
  by_contra hno
  have hall : ∀ uid ∈ salts.map (Uid.derived sha256 kind seed), uid ∈ taken.toList := by
    intro uid huid
    obtain ⟨s, hs, rfl⟩ := mem_map.1 huid
    rw [ExtTreeSet.mem_toList, ← ExtTreeSet.contains_iff_mem]
    by_contra hfree
    exact hno ⟨s, Nat.zero_le s, by rw [Nat.zero_add]; exact hbelow s hs, Bool.eq_false_iff.2 hfree⟩
  have hle := (hnodup.subperm hall).length_le
  rw [length_map, ExtTreeSet.length_toList] at hle
  omega

theorem uidFor_spec (h : uidFor sha256 kind seed known taken = some (uid, taken')) : (known = some uid ∧ taken' = taken) ∨
      (known = none ∧ uid.kind = kind ∧ taken.contains uid = false ∧ taken' = taken.insert uid) := by
  cases known with
  | some u => cases h; exact .inl ⟨rfl, rfl⟩
  | none => exact .inr ⟨rfl, freeUidFrom_spec h⟩

end Free

/-! ## Looking a name up -/

section Lookup

variable {N : Type} [Ord N] [Std.TransOrd N] [Std.LawfulEqOrd N] [DecidableEq N] {section_ : ExtTreeMap Uid N} {name : N} {u : Uid}

omit [Ord N] [Std.TransOrd N] [Std.LawfulEqOrd N] in
theorem uidOf_eq_some_iff (h : ∀ u v : Uid, ∀ n, section_[u]? = some n → section_[v]? = some n → u = v) :
    uidOf section_ name = some u ↔ section_[u]? = some name :=
  ⟨uidOf_eq_some, fun hu => uidOf_of_unique hu fun v hv => h v u name hv hu⟩

theorem getElem?_byName (h : ∀ u v : Uid, ∀ n, section_[u]? = some n → section_[v]? = some n → u = v) :
    (byName section_)[name]? = some u ↔ section_[u]? = some name := by
  have hnames : (section_.toList.map (·.2)).Nodup := by
    rw [List.Nodup, pairwise_map]
    refine ExtTreeMap.distinct_keys_toList.imp_of_mem fun {x y} hx hy hne heq => hne ?_
    have hx' : section_[x.1]? = some x.2 := ExtTreeMap.getElem?_of_mem_toList hx
    have hy' : section_[y.1]? = some y.2 := ExtTreeMap.getElem?_of_mem_toList hy
    rw [h x.1 y.1 y.2 (heq ▸ hx') hy']
    exact Std.ReflOrd.compare_self
  refine (ExtTreeMap.getElem?_foldl_insert _ _ hnames).trans ?_
  simp only [ExtTreeMap.getElem?_empty, reduceCtorEq, and_false, or_false]
  constructor
  · rintro ⟨⟨v, n⟩, he, rfl, rfl⟩
    exact ExtTreeMap.getElem?_of_mem_toList he
  · exact fun hu => ⟨(u, name), ExtTreeMap.mem_toList_iff_getElem?_eq_some.2 hu, rfl, rfl⟩

end Lookup

/-! ## One object -/

section Step

variable {sha256 : List UInt8 → List UInt8} {recorded : IdsFile} {held : Uid → Prop} {start : Nat} {done : List Obj} {this : Observing}

/-- A file of live objects only. -/
structure Bare (ids : IdsFile) : Prop where
  version : ids.version = CURRENT_VERSION
  tombstones : ids.tombstones = ∅
  moves : ids.moves = ∅
  rebuilds : ids.rebuilds = ∅
  conversions : ids.conversions = ∅

variable {N : Type} {ids : IdsFile} {known : Option Uid}

variable {sec : Section N} {n : N}

theorem Section.Lawful.bare_set (law : sec.Lawful) (h : Bare ids) (m : ExtTreeMap Uid N) : Bare (sec.set ids m) where
  version := (law.version_set ids m).trans h.version
  tombstones := (law.tombstones_set ids m).trans h.tombstones
  moves := (law.moves_set ids m).trans h.moves
  rebuilds := (law.rebuilds_set ids m).trans h.rebuilds
  conversions := (law.conversions_set ids m).trans h.conversions

/-- What was observed of some objects: each has one uid, the recorded one where the record has it and else one that is not
held, and every uid that is held or was given is taken. -/
structure Observed (recorded : IdsFile) (held : Uid → Prop) (start : Nat) (done : List Obj) (this : Observing) : Prop where
  kinds : Kinds this.observed
  named : ∀ o, o ∈ done ↔ ∃ u, live this.observed u = some o
  once : ∀ u v o, live this.observed u = some o → live this.observed v = some o → u = v
  entry : ∀ u o, live this.observed u = some o → live recorded u = some o ∨ ((∀ v, live recorded v ≠ some o) ∧ ¬ held u)
  taken : ∀ u, (held u ∨ ∃ o, live this.observed u = some o) → this.taken.contains u = true
  size : this.taken.size ≤ start + done.length
  bare : Bare this.observed

section

variable (law : sec.Lawful) (h : Observed recorded held start done this) (hheld : ∀ u o, live recorded u = some o → held u)
variable (hnew : sec.obj n ∉ done)
include law h hheld hnew

theorem Observed.step {seed : String} {uid : Uid} {taken : ExtTreeSet Uid}
    (hknown : ∀ u, known = some u ↔ live recorded u = some (sec.obj n))
    (hplaced : uidFor sha256 sec.kind seed known this.taken = some (uid, taken)) :
    Observed recorded held start (done ++ [sec.obj n])
      { taken, observed := sec.set this.observed ((sec.get this.observed).insert uid n) } := by
  have hspec := uidFor_spec hplaced
  clear hplaced
  have hkind : uid.kind = sec.kind := by
    rcases hspec with ⟨hk, -⟩ | ⟨-, hk, -⟩
    · exact (live_kind ((hknown uid).1 hk)).trans (law.kind_obj n)
    · exact hk
  -- the uid names nothing yet
  have hfree : live this.observed uid = none := by
    cases ho : live this.observed uid with
    | none => rfl
    | some o =>
      rcases hspec with ⟨hk, -⟩ | ⟨-, -, hnot, -⟩
      · have hrec := (hknown uid).1 hk
        rcases h.entry uid o ho with hsame | ⟨-, hno⟩
        · rw [hrec] at hsame
          exact absurd ((h.named _).2 ⟨uid, Option.some.inj hsame ▸ ho⟩) hnew
        · exact absurd (hheld uid _ hrec) hno
      · rw [h.taken uid (.inr ⟨o, ho⟩)] at hnot
        cases hnot
  have hlive : ∀ u, live (sec.set this.observed ((sec.get this.observed).insert uid n)) u =
      if u = uid then some (sec.obj n) else live this.observed u := law.live_insert hkind
  have htaken : ∀ u, (this.taken.contains u = true ∨ u = uid) → taken.contains u = true := by
    intro u hu
    rcases hspec with ⟨hk, rfl⟩ | ⟨-, -, -, rfl⟩
    · rcases hu with hu | rfl
      · exact hu
      · exact h.taken u (.inl (hheld u _ ((hknown u).1 hk)))
    · rw [ExtTreeSet.contains_insert, Bool.or_eq_true]
      rcases hu with hu | rfl
      · exact .inr hu
      · exact .inl (by simp)
  refine ⟨law.kinds_insert h.kinds n hkind, fun o => ?_, fun u v o hu hv => ?_, fun u o hu => ?_, fun u hu => ?_, ?_,
    law.bare_set h.bare _⟩
  · rw [mem_append, mem_singleton, h.named]
    constructor
    · rintro (⟨u, hu⟩ | rfl)
      · refine ⟨u, ?_⟩
        rw [hlive, if_neg, hu]
        rintro rfl
        rw [hfree] at hu
        cases hu
      · exact ⟨uid, by rw [hlive, if_pos rfl]⟩
    · rintro ⟨u, hu⟩
      rw [hlive] at hu
      split at hu
      · exact .inr (Option.some.inj hu).symm
      · exact .inl ⟨u, hu⟩
  · have hnone : ∀ w, live this.observed w ≠ some (sec.obj n) := fun w hw => hnew ((h.named _).2 ⟨w, hw⟩)
    rw [hlive] at hu hv
    split at hu <;> split at hv
    · next h1 h2 => rw [h1, h2]
    · exact absurd (hv.trans hu.symm) (hnone v)
    · exact absurd (hu.trans hv.symm) (hnone u)
    · exact h.once u v o hu hv
  · rw [hlive] at hu
    split at hu
    · next heq =>
      obtain rfl := Option.some.inj hu
      subst heq
      rcases hspec with ⟨hk, -⟩ | ⟨hk, -, hnot, -⟩
      · exact .inl ((hknown u).1 hk)
      · refine .inr ⟨fun v hv => ?_, fun hh => ?_⟩
        · rw [(hknown v).2 hv] at hk
          cases hk
        · rw [h.taken u (.inl hh)] at hnot
          cases hnot
    · exact h.entry u o hu
  · refine htaken u ?_
    rcases hu with hu | ⟨o, hu⟩
    · exact .inl (h.taken u (.inl hu))
    · rw [hlive] at hu
      split at hu
      · next heq => exact .inr heq
      · exact .inl (h.taken u (.inr ⟨o, hu⟩))
  · rw [length_append, length_singleton]
    have hsize := h.size
    rcases hspec with ⟨-, rfl⟩ | ⟨-, -, -, rfl⟩
    · show this.taken.size ≤ _
      omega
    · have hinsert : (this.taken.insert uid).size ≤ this.taken.size + 1 := ExtTreeSet.size_insert_le
      show (this.taken.insert uid).size ≤ _
      omega

theorem Observed.exists_step (hknown : ∀ u, known = some u ↔ live recorded u = some (sec.obj n))
    (hroom : (∃ u, live recorded u = some (sec.obj n)) ∨ ∃ bound, Reaches sha256 bound ∧ this.taken.size ≤ bound) (seed : String) :
    ∃ uid taken, uidFor sha256 sec.kind seed known this.taken = some (uid, taken) ∧
      Observed recorded held start (done ++ [sec.obj n])
        { taken, observed := sec.set this.observed ((sec.get this.observed).insert uid n) } := by
  have hplaced : ∃ uid taken, uidFor sha256 sec.kind seed known this.taken = some (uid, taken) := by
    cases hk : known with
    | some u => exact ⟨u, this.taken, rfl⟩
    | none =>
      rcases hroom with ⟨u, hu⟩ | ⟨bound, hreach, hsize⟩
      · rw [(hknown u).2 hu] at hk
        cases hk
      · obtain ⟨uid, huid⟩ := exists_freeUid hreach hsize
        exact ⟨uid, _, huid⟩
  obtain ⟨uid, taken, hplaced⟩ := hplaced
  exact ⟨uid, taken, hplaced, h.step law hheld hnew hknown hplaced⟩

end

/-- Each object of a file has one uid, of its own kind. -/
structure Distinct (ids : IdsFile) : Prop where
  kinds : Kinds ids
  once : ∀ u v o, live ids u = some o → live ids v = some o → u = v

theorem Section.Lawful.unique (law : sec.Lawful) (h : Distinct ids) (u v : Uid) (n : N) (hu : (sec.get ids)[u]? = some n)
    (hv : (sec.get ids)[v]? = some n) : u = v :=
  h.once u v _ ((law.live_eq_some h.kinds).2 hu) ((law.live_eq_some h.kinds).2 hv)

def observe (sha256 : List UInt8 → List UInt8) (recorded : IdsFile) (this : Observing) : Obj → Option Observing
  | .table name => observeName sha256 recorded this name
  | .column c => observeColumn sha256 recorded c.table this c.name
  | .role name => observeRole sha256 recorded this name
  | .extension name => observeExtension sha256 recorded this name
  | .type name => observeType sha256 recorded this name

/-- One object more is observed: under the identity it had, or under one that is drawn for it. -/
theorem Observed.observe (hrec : Distinct recorded) (hheld : ∀ u o, live recorded u = some o → held u)
    (h : Observed recorded held start done this) {o : Obj} (hnew : o ∉ done)
    (hroom : (∃ u, live recorded u = some o) ∨ ∃ bound, Reaches sha256 bound ∧ this.taken.size ≤ bound) :
    ∃ this', observe sha256 recorded this o = some this' ∧ Observed recorded held start (done ++ [o]) this' := by
  cases o with
  | table name =>
    have hknown : ∀ u, (byName recorded.tables)[name]? = some u ↔ live recorded u = some (.table name) := fun u =>
      (getElem?_byName (tableSection_lawful.unique hrec)).trans (tableSection_lawful.live_eq_some hrec.kinds).symm
    obtain ⟨uid, taken, hplaced, hnext⟩ := h.exists_step tableSection_lawful hheld hnew hknown hroom name.raw
    refine ⟨_, ?_, hnext⟩
    exact Option.bind_eq_some_iff.2 ⟨(uid, taken), hplaced, rfl⟩
  | column c =>
    have hknown : ∀ u, (byName recorded.columns)[c]? = some u ↔ live recorded u = some (.column c) := fun u =>
      (getElem?_byName (columnSection_lawful.unique hrec)).trans (columnSection_lawful.live_eq_some hrec.kinds).symm
    obtain ⟨uid, taken, hplaced, hnext⟩ := h.exists_step columnSection_lawful hheld hnew hknown hroom c.raw
    refine ⟨_, ?_, hnext⟩
    exact Option.bind_eq_some_iff.2 ⟨(uid, taken), hplaced, rfl⟩
  | role name =>
    have hknown : ∀ u, (byName recorded.roles)[name]? = some u ↔ live recorded u = some (.role name) := fun u =>
      (getElem?_byName (roleSection_lawful.unique hrec)).trans (roleSection_lawful.live_eq_some hrec.kinds).symm
    obtain ⟨uid, taken, hplaced, hnext⟩ := h.exists_step roleSection_lawful hheld hnew hknown hroom name
    refine ⟨_, ?_, hnext⟩
    exact Option.bind_eq_some_iff.2 ⟨(uid, taken), hplaced, rfl⟩
  | extension name =>
    have hknown : ∀ u, recorded.extensionUid name = some u ↔ live recorded u = some (.extension name) := fun u =>
      (uidOf_eq_some_iff (extensionSection_lawful.unique hrec)).trans (extensionSection_lawful.live_eq_some hrec.kinds).symm
    obtain ⟨uid, taken, hplaced, hnext⟩ := h.exists_step extensionSection_lawful hheld hnew hknown hroom name
    refine ⟨_, ?_, hnext⟩
    exact Option.bind_eq_some_iff.2 ⟨(uid, taken), hplaced, rfl⟩
  | type name =>
    have hknown : ∀ u, recorded.typeUid name = some u ↔ live recorded u = some (.type name) := fun u =>
      (uidOf_eq_some_iff (typeSection_lawful.unique hrec)).trans (typeSection_lawful.live_eq_some hrec.kinds).symm
    obtain ⟨uid, taken, hplaced, hnext⟩ := h.exists_step typeSection_lawful hheld hnew hknown hroom name.raw
    refine ⟨_, ?_, hnext⟩
    exact Option.bind_eq_some_iff.2 ⟨(uid, taken), hplaced, rfl⟩

end Step

/-! ## Every object -/

theorem live_empty (u : Uid) : live {} u = none := by
  cases h : u.kind <;> simp [live, h]

section Objects

def tableObjects (e : TableName × Table) : List Obj := .table e.1 :: e.2.columns.keys.map fun c => .column (e.1.column c)

def objects (live : Schema) : List Obj :=
  live.tables.toList.flatMap tableObjects ++ live.roles.keys.map .role ++ live.extensions.keys.map .extension ++
    live.types.keys.map .type

def Holds (live : Schema) : Obj → Prop
  | .table t => t ∈ live.tables
  | .column c => DeclaresColumn live c.table c.name
  | .role n => n ∈ live.roles
  | .extension n => n ∈ live.extensions
  | .type n => n ∈ live.types

variable {schema : Schema}

variable {o : Obj}

theorem mem_tableObjects {e : TableName × Table} :
    o ∈ tableObjects e ↔ o = .table e.1 ∨ ∃ c ∈ e.2.columns, o = .column (e.1.column c) := by
  simp only [tableObjects, mem_cons, mem_map, eq_comm]
  exact Iff.rfl

theorem mem_objects : o ∈ objects schema ↔ Holds schema o := by
  have htables : o ∈ schema.tables.toList.flatMap tableObjects ↔
      ∃ t table, schema.tables[t]? = some table ∧ (o = .table t ∨ ∃ c ∈ table.columns, o = .column (t.column c)) := by
    simp only [mem_flatMap, Prod.exists, ExtTreeMap.mem_toList_iff_getElem?_eq_some, mem_tableObjects]
  simp only [objects, mem_append, htables, mem_map, ExtTreeMap.mem_keys]
  cases o with
  | table t =>
    simp only [Holds, Obj.table.injEq, reduceCtorEq, and_false, exists_false, or_false, ExtTreeMap.mem_iff_exists]
    exact ⟨fun ⟨_, table, h, heq⟩ => ⟨table, heq ▸ h⟩, fun ⟨table, h⟩ => ⟨t, table, h, rfl⟩⟩
  | column c =>
    simp only [Holds, DeclaresColumn, Obj.column.injEq, reduceCtorEq, false_or, and_false, exists_false, or_false]
    exact ⟨fun ⟨t, table, h, n, hn, heq⟩ => ⟨table, heq ▸ h, heq ▸ hn⟩, fun ⟨table, h, hn⟩ => ⟨c.table, table, h, c.name, hn, rfl⟩⟩
  | role n => simp [Holds]
  | extension n => simp [Holds]
  | type n => simp [Holds]

theorem nodup_tableObjects (e : TableName × Table) : (tableObjects e).Nodup := by
  refine nodup_cons.2 ⟨by simp, e.2.columns.keys_nodup.map ?_⟩
  intro a b h
  exact congrArg ColumnRef.name (Obj.column.inj h)

theorem nodup_objects (schema : Schema) : (objects schema).Nodup := by
  have hdistinct : ∀ {K V : Type} [Ord K] [Std.TransOrd K] [Std.LawfulEqOrd K] (m : ExtTreeMap K V), m.keys.Nodup := by
    intro K V _ _ _ m
    refine ExtTreeMap.distinct_keys.imp fun hne heq => hne ?_
    rw [heq]
    exact Std.ReflOrd.compare_self
  have htables : (schema.tables.toList.flatMap tableObjects).Nodup := by
    refine nodup_flatMap.2 ⟨fun e _ => nodup_tableObjects e, ExtTreeMap.distinct_keys_toList.imp fun {e e'} hne => ?_⟩
    have hne' : e.1 ≠ e'.1 := by
      intro heq
      exact hne (by rw [heq]; exact Std.ReflOrd.compare_self)
    intro o ho ho'
    rcases mem_tableObjects.1 ho with rfl | ⟨c, -, rfl⟩ <;> rcases mem_tableObjects.1 ho' with heq | ⟨c', -, heq⟩
    · exact hne' (Obj.table.inj heq)
    · cases heq
    · cases heq
    · exact hne' (congrArg ColumnRef.table (Obj.column.inj heq))
  refine List.Nodup.append (List.Nodup.append (List.Nodup.append htables ?_ ?_) ?_ ?_) ?_ ?_
  · exact (hdistinct _).map fun _ _ => Obj.role.inj
  · intro o ho ho'
    obtain ⟨n, -, rfl⟩ := mem_map.1 ho'
    simp [tableObjects] at ho
  · exact (hdistinct _).map fun _ _ => Obj.extension.inj
  · intro o ho ho'
    obtain ⟨n, -, rfl⟩ := mem_map.1 ho'
    simp [tableObjects] at ho
  · exact (hdistinct _).map fun _ _ => Obj.type.inj
  · intro o ho ho'
    obtain ⟨n, -, rfl⟩ := mem_map.1 ho'
    simp [tableObjects] at ho

variable {sha256 : List UInt8 → List UInt8} {recorded : IdsFile} {taken : ExtTreeSet Uid}

theorem foldlM_tableObjects (e : TableName × Table) (this : Observing) :
    (tableObjects e).foldlM (observe sha256 recorded) this = observeTable sha256 recorded this e := by
  rw [tableObjects, foldlM_cons]
  exact congrArg (Option.bind _) (funext fun _ => foldlM_map)

theorem observedIdsReserved_eq : observedIdsReserved sha256 recorded schema taken =
    ((objects schema).foldlM (observe sha256 recorded) { taken := taken.insertMany (heldUids recorded) }).map (·.observed) := by
  have htables : ∀ (l : List (TableName × Table)) (this : Observing),
      (l.flatMap tableObjects).foldlM (observe sha256 recorded) this = l.foldlM (observeTable sha256 recorded) this := by
    intro l
    induction l with
    | nil => exact fun _ => rfl
    | cons e l ih =>
      intro this
      rw [flatMap_cons, foldlM_append, foldlM_cons, foldlM_tableObjects]
      exact congrArg (Option.bind _) (funext ih)
  simp only [objects, foldlM_append, htables, foldlM_map, observedIdsReserved, ← Option.map_eq_map,
    map_eq_pure_bind, bind_assoc]
  rfl

/-! ## A whole observation -/

section Whole

variable {held : Uid → Prop} {size : Nat}

variable (sha256) in
theorem Observed.foldlM (hrec : Distinct recorded) (hheld : ∀ u o, live recorded u = some o → held u) :
    ∀ (l : List Obj) {done : List Obj} {this : Observing}, Observed recorded held size done this → (done ++ l).Nodup →
      (∀ o ∈ l, (∃ u, live recorded u = some o) ∨ Reaches sha256 (size + (done ++ l).length)) →
      ∃ this', l.foldlM (Identity.observe sha256 recorded) this = some this' ∧ Observed recorded held size (done ++ l) this'
  | [], done, this, h, _, _ => ⟨this, rfl, by rwa [append_nil]⟩
  | o :: l, done, this, h, hnodup, hroom => by
    have hnew : o ∉ done := fun ho => disjoint_of_nodup_append hnodup ho mem_cons_self
    obtain ⟨this₁, hone, hnext⟩ := h.observe hrec hheld hnew <| (hroom o mem_cons_self).imp_right fun hreach =>
      ⟨_, hreach, by rw [length_append]; exact h.size.trans (by omega)⟩
    rw [append_cons] at hnodup hroom
    obtain ⟨this', hall, hlast⟩ := Observed.foldlM hrec hheld l hnext hnodup fun o' ho' => hroom o' (mem_cons_of_mem o ho')
    refine ⟨this', ?_, by rwa [append_cons]⟩
    rw [foldlM_cons, hone]
    exact hall

theorem Observed.start (recorded : IdsFile) (others : List Uid) :
    Observed recorded (fun u => recorded.containsUid u = true ∨ u ∈ others) ((heldUids recorded).length + others.length) []
      { taken := (ExtTreeSet.ofList others).insertMany (heldUids recorded) } := by
  refine ⟨⟨by simp, by simp, by simp, by simp, by simp⟩, fun o => ?_, fun u v o hu => ?_, fun u o hu => ?_, fun u hu => ?_, ?_, ⟨rfl, rfl, rfl, rfl, rfl⟩⟩
  · simp [live_empty]
  · rw [live_empty] at hu
    cases hu
  · rw [live_empty] at hu
    cases hu
  · simp only [live_empty, reduceCtorEq, exists_false, or_false] at hu
    simpa [mem_heldUids, or_comm] using hu
  · have hothers : (ExtTreeSet.ofList others compare).size ≤ others.length := ExtTreeSet.size_ofList_le
    refine ExtTreeSet.size_insertMany_list_le.trans ?_
    rw [length_nil]
    omega

variable (sha256) in
theorem exists_observed (reserved : IdsFile) (hrec : Distinct recorded)
    (hroom : ∀ o ∈ objects schema, (∃ u, live recorded u = some o) ∨
      Reaches sha256 ((heldUids recorded).length + (heldUids reserved).length + (objects schema).length)) :
    ∃ this, observedIdsReserving sha256 recorded schema reserved = some this.observed ∧
      Observed recorded (fun u => recorded.containsUid u = true ∨ u ∈ heldUids reserved)
        ((heldUids recorded).length + (heldUids reserved).length) (objects schema) this := by
  have hheld : ∀ u o, live recorded u = some o → recorded.containsUid u = true ∨ u ∈ heldUids reserved := by
    intro u o hu
    have hlive := (isLive_iff hrec.kinds).2 ⟨o, hu⟩
    exact .inl (Bool.or_eq_true_iff.2 (.inl hlive))
  obtain ⟨this, hrun, h⟩ := Observed.foldlM sha256 hrec hheld (objects schema)
    (Observed.start recorded (heldUids reserved)) (nodup_objects schema) hroom
  refine ⟨this, ?_, h⟩
  rw [observedIdsReserving, observedIdsReserved_eq, hrun]
  rfl

section Result

variable {this : Observing} {reserved : IdsFile}

theorem eq_of_live {ids ids' : IdsFile} (hk : Kinds ids) (hk' : Kinds ids') (hb : Bare ids) (hb' : Bare ids')
    (h : ∀ u, live ids u = live ids' u) : ids = ids' := by
  have hsection : ∀ {N : Type} {sec : Section N}, sec.Lawful → sec.get ids = sec.get ids' := by
    intro N sec law
    refine ExtTreeMap.ext_getElem? fun u => Option.ext fun n => ?_
    rw [← law.live_eq_some hk, ← law.live_eq_some hk', h]
  have htables := hsection tableSection_lawful
  have hcolumns := hsection columnSection_lawful
  have hroles := hsection roleSection_lawful
  have htypes := hsection typeSection_lawful
  have hextensions := hsection extensionSection_lawful
  obtain ⟨hversion, htombstones, hmoves, hrebuilds, hconversions⟩ := hb
  obtain ⟨hversion', htombstones', hmoves', hrebuilds', hconversions'⟩ := hb'
  cases ids
  cases ids'
  simp_all [tableSection, columnSection, roleSection, typeSection, extensionSection]

theorem Observed.again (h : Observed recorded held size (objects schema) this) :
    observedIdsReserving sha256 this.observed schema reserved = some this.observed := by
  obtain ⟨again, hrun, hagain⟩ := exists_observed sha256 reserved ⟨h.kinds, h.once⟩ fun o ho =>
    .inl ((h.named o).1 ho)
  rw [hrun]
  -- each object has the uid it had
  have hsame : ∀ u o, live again.observed u = some o → live this.observed u = some o := by
    intro u o hu
    rcases hagain.entry u o hu with hold | ⟨hno, -⟩
    · exact hold
    · obtain ⟨v, hv⟩ := (h.named o).1 ((hagain.named o).2 ⟨u, hu⟩)
      exact absurd hv (hno v)
  refine congrArg some (eq_of_live hagain.kinds h.kinds hagain.bare h.bare fun u => Option.ext fun o => ⟨hsame u o, fun hu => ?_⟩)
  obtain ⟨v, hv⟩ := (hagain.named o).1 ((h.named o).2 ⟨u, hu⟩)
  rwa [h.once u v o hu (hsame v o hv)]

/-- No two tables of a database, and no two of its columns, have one spelling. -/
def SpelledApart (schema : Schema) : Prop :=
  (∀ t t', t ∈ schema.tables → t' ∈ schema.tables → t.raw = t'.raw → t = t') ∧
    ∀ c c' : ColumnRef, DeclaresColumn schema c.table c.name → DeclaresColumn schema c'.table c'.name → c.raw = c'.raw → c = c'

theorem Observed.valid_iff (h : Observed recorded held size (objects schema) this) :
    this.observed.validate = .ok () ↔ SpelledApart schema := by
  have hk := h.kinds
  have hholds : ∀ o, Holds schema o ↔ ∃ u, live this.observed u = some o := fun o => mem_objects.symm.trans (h.named o)
  rw [validate_eq_ok]
  constructor
  · intro hv
    refine ⟨fun t t' ht ht' hraw => ?_, fun c c' hc hc' hraw => ?_⟩
    · obtain ⟨u, hu⟩ := (hholds (.table t)).1 ht
      obtain ⟨v, hv'⟩ := (hholds (.table t')).1 ht'
      rw [hv.tables u v t t' ((live_table hk).1 hu) ((live_table hk).1 hv') hraw, hv'] at hu
      exact (Obj.table.inj (Option.some.inj hu)).symm
    · obtain ⟨u, hu⟩ := (hholds (.column c)).1 hc
      obtain ⟨v, hv'⟩ := (hholds (.column c')).1 hc'
      rw [hv.columns u v c c' ((live_column hk).1 hu) ((live_column hk).1 hv') hraw, hv'] at hu
      exact (Obj.column.inj (Option.some.inj hu)).symm
  · intro hspell
    constructor
    case version => exact h.bare.version
    case kinds => exact hk
    case requires => simp [h.bare.tombstones]
    case apart => simp [h.bare.tombstones]
    case tables =>
      intro u v a b ha hb hab
      have ha := (live_table hk).2 ha
      have hb := (live_table hk).2 hb
      rw [← hspell.1 a b ((hholds _).2 ⟨u, ha⟩) ((hholds _).2 ⟨v, hb⟩) hab] at hb
      exact h.once u v _ ha hb
    case columns =>
      intro u v a b ha hb hab
      have ha := (live_column hk).2 ha
      have hb := (live_column hk).2 hb
      rw [← hspell.2 a b ((hholds _).2 ⟨u, ha⟩) ((hholds _).2 ⟨v, hb⟩) hab] at hb
      exact h.once u v _ ha hb
    case roles =>
      intro u v a b ha hb hab
      cases hab
      exact roleSection_lawful.unique ⟨hk, h.once⟩ u v a ha hb
    case types =>
      intro u v a b ha hb hab
      cases TypeRef.raw_injective hab
      exact typeSection_lawful.unique ⟨hk, h.once⟩ u v a ha hb
    case extensions =>
      intro u v a b ha hb hab
      cases hab
      exact extensionSection_lawful.unique ⟨hk, h.once⟩ u v a ha hb
    case parents =>
      intro u c hc
      obtain ⟨table, htable, -⟩ := (hholds (.column c)).2 ⟨u, (live_column hk).2 hc⟩
      obtain ⟨v, hv⟩ := (hholds (.table c.table)).1 (ExtTreeMap.mem_of_getElem?_eq htable)
      exact ⟨v, (live_table hk).1 hv⟩
    case moves => simp [h.bare.moves]
    case conversions => simp [h.bare.conversions]
    case rebuilds => simp [h.bare.rebuilds]
    case reserved => simp [h.bare.rebuilds, ExtTreeMap.toList_eq_nil_iff.2 rfl]

theorem Observed.agrees {others : List Uid}
    (h : Observed recorded (fun u => recorded.containsUid u = true ∨ u ∈ others) size (objects schema) this) (hrec : Distinct recorded) :
    Diff.Agrees recorded this.observed := by
  have hsection : ∀ {N : Type} {sec : Section N}, sec.Lawful → ∀ (u : Uid) a b, (sec.get recorded)[u]? = some a →
      (sec.get this.observed)[u]? = some b → a = b := by
    intro N sec law u a b ha hb
    have ha := (law.live_eq_some hrec.kinds).2 ha
    rcases h.entry u _ ((law.live_eq_some h.kinds).2 hb) with hsame | ⟨-, hno⟩
    · rw [ha] at hsame
      exact law.obj_injective (Option.some.inj hsame)
    · exact absurd (.inl (Bool.or_eq_true_iff.2 (.inl ((isLive_iff hrec.kinds).2 ⟨_, ha⟩)))) hno
  exact ⟨hsection tableSection_lawful, hsection columnSection_lawful, hsection typeSection_lawful, hsection roleSection_lawful⟩

end Result

end Whole

end Objects

/-! ## What observing promises -/

section Spec

variable {sha256 : List UInt8 → List UInt8} {recorded reserved : IdsFile} {schema : Schema}

theorem distinct_of_valid (h : recorded.validate = .ok ()) : Distinct recorded := by
  have hv := validate_eq_ok.1 h
  have hsound : Sound longSource {} [] recorded recorded := Sound.start hv
  exact ⟨hv.kinds, hsound.wf.unique⟩

/-- What was observed names exactly what the database holds, once each. What the record has under a name keeps its uid, and
what it does not have gets a uid that neither file holds. Observing again with the result as the record changes nothing, and
neither comparison of the recorded side with the observed one has a rename. The result is a valid file exactly if no two names
share a spelling. -/
theorem observedIdsReserving_spec (hvalid : recorded.validate = .ok ())
    (hreach : Reaches sha256 ((heldUids recorded).length + (heldUids reserved).length + (objects schema).length)) :
    ∃ observed, observedIdsReserving sha256 recorded schema reserved = some observed ∧
      (observed.validate = .ok () ↔ SpelledApart schema) ∧ Kinds observed ∧
      (∀ o, Holds schema o → ∃! u, live observed u = some o) ∧ (∀ u o, live observed u = some o → Holds schema o) ∧
      (∀ u o, live observed u = some o → live recorded u = some o ∨
        (∀ v, live recorded v ≠ some o) ∧ recorded.containsUid u = false ∧ reserved.containsUid u = false) ∧
      (∀ reserved', observedIdsReserving sha256 observed schema reserved' = some observed) ∧
      ∀ d request was, (∀ c ∈ Diff.diffPartial d request ⟨was, recorded⟩ ⟨schema, observed⟩, c.isRename = false) ∧
        ∀ c ∈ Diff.diffPartial d request ⟨schema, observed⟩ ⟨was, recorded⟩, c.isRename = false := by
  have hrec : Distinct recorded := distinct_of_valid hvalid
  obtain ⟨this, hrun, h⟩ := exists_observed sha256 reserved hrec fun o _ => .inr hreach
  have hholds : ∀ o, Holds schema o ↔ ∃ u, live this.observed u = some o := fun o => mem_objects.symm.trans (h.named o)
  refine ⟨this.observed, hrun, h.valid_iff, h.kinds, fun o ho => ?_, fun u o hu => (hholds o).2 ⟨u, hu⟩, fun u o hu => ?_,
    fun _ => h.again, fun d request was => ⟨(h.agrees hrec).no_rename d request, (h.agrees hrec).symm.no_rename d request⟩⟩
  · obtain ⟨u, hu⟩ := (hholds o).1 ho
    exact ⟨u, hu, fun v hv => h.once v u o hv hu⟩
  · refine (h.entry u o hu).imp_right fun ⟨hno, hfree⟩ => ⟨hno, ?_⟩
    rw [mem_heldUids, not_or, Bool.not_eq_true, Bool.not_eq_true] at hfree
    exact hfree

end Spec

/-! ## Digests of some names -/

def digests : List (List UInt8 × List UInt8) :=
  [(Uid.hashed .table "app.orders" 0, [100, 235, 143, 245, 104, 176]),
    (Uid.hashed .column "app.orders.id" 0, [170, 115, 14, 57, 157, 72]),
    (Uid.hashed .table "app.orders_2024" 0, [163, 62, 71, 111, 62, 100]),
    (Uid.hashed .column "app.orders_2024.id" 0, [253, 118, 111, 125, 120, 192]),
    (Uid.hashed .table "a.b.c" 0, [179, 199, 228, 42, 167, 154]), (Uid.hashed .table "a.b.c" 1, [17, 205, 60, 25, 29, 174])]

def digest (bytes : List UInt8) : List UInt8 := (digests.lookup bytes).getD (bytes.getLast?.toList)

theorem digest_hashed (kind : UidKind) (seed : String) {salt : Nat} (h : 2 ≤ salt) (h' : salt < 256) :
    digest (Uid.hashed kind seed salt) = [.ofNat salt] := by
  have hlast : (Uid.hashed kind seed salt).getLast? = some (.ofNat salt) := by
    simp [Uid.hashed, Uid.saltBytes]
  have hnone : digests.lookup (Uid.hashed kind seed salt) = none := by
    rw [lookup_eq_none_iff]
    intro e he
    rw [bne_iff_ne]
    intro heq
    have hsalt : ∀ e ∈ digests, e.1.getLast? = some 0 ∨ e.1.getLast? = some 1 := by
      simp [digests, Uid.hashed, Uid.saltBytes]
    have hval := hsalt e he
    rw [← heq, hlast] at hval
    rcases hval with hval | hval
    · have hmod : salt % 256 = 0 := by simpa using congrArg UInt8.toNat (Option.some.inj hval)
      omega
    · have hmod : salt % 256 = 1 := by simpa using congrArg UInt8.toNat (Option.some.inj hval)
      omega
  rw [digest, hnone, hlast]
  rfl

theorem digest_reaches {bound : Nat} (h : bound < 30) : Reaches digest bound := by
  intro kind seed
  refine ⟨List.range' 2 30, by simpa using h, fun s hs => ?_, ?_⟩
  · rw [mem_range'_1] at hs
    omega
  · have hchars : ((List.range' 2 30).map fun s => Uid.ALPHABET[(UInt8.ofNat s).toNat % 32]!).Nodup := by decide
    have hderived : (List.range' 2 30).map (Uid.derived digest kind seed) =
        ((List.range' 2 30).map fun s => Uid.ALPHABET[(UInt8.ofNat s).toNat % 32]!).map fun c =>
          ⟨kind.prefixText ++ String.ofList [c]⟩ := by
      rw [map_map]
      refine map_congr_left fun s hs => ?_
      rw [mem_range'_1] at hs
      rw [Uid.derived, digest_hashed kind seed (by omega) (by omega)]
      rfl
    rw [hderived]
    refine hchars.map fun a b hab => ?_
    have htext := congrArg (fun uid => uid.text.toList) hab
    simpa using htext

theorem observedIdsReserving_spec_detached : ∃ observed,
    observedIdsReserving digest {} detachedSchema rebuiltIds = some observed ∧
      (observed.validate = .ok () ↔ SpelledApart detachedSchema) ∧ Kinds observed ∧
      (∀ o, Holds detachedSchema o → ∃! u, live observed u = some o) ∧ (∀ u o, live observed u = some o → Holds detachedSchema o) ∧
      (∀ u o, live observed u = some o → live {} u = some o ∨
        (∀ v, live {} v ≠ some o) ∧ ({} : IdsFile).containsUid u = false ∧ rebuiltIds.containsUid u = false) ∧
      (∀ reserved', observedIdsReserving digest observed detachedSchema reserved' = some observed) ∧
      ∀ d request was, (∀ c ∈ Diff.diffPartial d request ⟨was, {}⟩ ⟨detachedSchema, observed⟩, c.isRename = false) ∧
        ∀ c ∈ Diff.diffPartial d request ⟨detachedSchema, observed⟩ ⟨was, {}⟩, c.isRename = false :=
  observedIdsReserving_spec (by decide) (digest_reaches (by decide))

def dottedSchema : Schema where
  tables := (∅ : ExtTreeMap TableName Table).insert ⟨"a.b", "c"⟩ {} |>.insert ⟨"a", "b.c"⟩ {}

/-- The file that is observed of two tables of one spelling is not valid. -/
theorem observed_not_valid : ∃ observed, observedIdsReserving digest {} dottedSchema {} = some observed ∧
    ({} : IdsFile).validate = .ok () ∧ observed.validate ≠ .ok () := by
  have hvalid : ({} : IdsFile).validate = .ok () := by decide
  have hreach : Reaches digest ((heldUids {}).length + (heldUids {}).length + (objects dottedSchema).length) :=
    digest_reaches (by decide)
  obtain ⟨this, hrun, h⟩ := exists_observed digest {} (distinct_of_valid hvalid) fun o _ => .inr hreach
  refine ⟨this.observed, hrun, hvalid, fun hok => ?_⟩
  have happart := (h.valid_iff.1 hok).1 ⟨"a.b", "c"⟩ ⟨"a", "b.c"⟩ (by decide) (by decide) (by decide)
  exact absurd happart (by decide)

end Identity

end Pbps
