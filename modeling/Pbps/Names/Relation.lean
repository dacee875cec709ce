/-
The partition relation is carried between the boundaries of a plan without loss.
-/
import Pbps.Names.Partitions
import Pbps.Names.Replay

namespace Pbps.Names

open Std (ExtTreeMap)
open Pbps.Diff (Change)
open List Option Std.ExtTreeMap

/-! ## One name at several boundaries -/

namespace History

variable {h : History TableName} {i j k : Nat} {s t r : TableName}

def addressAt (h : History TableName) (i j : Nat) (t : TableName) : Option TableName :=
  match h.holder t i with
  | .tracked uid => h.name uid j
  | .unmanaged => some t
  | .vacant => none

theorem holder_eq_unmanaged : h.holder t i = .unmanaged ↔ h.holders[t]? = none := by
  unfold holder
  cases h.holders[t]? with
  | none => simp
  | some history =>
    simp only [reduceCtorEq, iff_false]
    split <;> simp

theorem addressAt_trans (hj : h.Inverse j) (hts : h.addressAt i j t = some s) : h.addressAt j k s = h.addressAt i k t := by
  cases hheld : h.holder t i with
  | tracked uid =>
    rw [addressAt, hheld] at hts
    rw [addressAt, addressAt, hheld, (hj uid s).2 hts]
  | unmanaged =>
    rw [addressAt, hheld] at hts; cases hts
    rw [addressAt, addressAt, hheld, holder_eq_unmanaged.2 (holder_eq_unmanaged.1 hheld)]
  | vacant => rw [addressAt, hheld] at hts; cases hts

theorem addressAt_self (hi : h.Inverse i) (hts : h.addressAt i j t = some s) : h.addressAt i i t = some t := by
  cases hheld : h.holder t i with
  | tracked uid =>
    rw [addressAt, hheld]
    exact (hi uid t).1 hheld
  | unmanaged => rw [addressAt, hheld]
  | vacant => rw [addressAt, hheld] at hts; cases hts

theorem addressAt_back (hi : h.Inverse i) (hj : h.Inverse j) (hts : h.addressAt i j t = some s) : h.addressAt j i s = some t := by
  rw [addressAt_trans hj hts]
  exact addressAt_self hi hts

theorem addressAt_injective (hi : h.Inverse i) (hj : h.Inverse j) (hs : h.addressAt i j s = some r) (ht : h.addressAt i j t = some r) :
    s = t := some.inj ((addressAt_back hi hj hs).symm.trans (addressAt_back hi hj ht))

end History

theorem PlanNames.address_eq {n : PlanNames} {a b : At} {i j : Nat} (ha : n.boundary a = some i) (hb : n.boundary b = some j)
    (t : TableName) : n.address a b t = some (n.tables.addressAt i j t) := by
  simp only [address, holder, tableAt, ha, hb, map_some, bind, bind_some]
  rw [History.addressAt]
  cases n.tables.holder t i <;> rfl

namespace Partitions

def tables (p : Partitions) : List TableName := p.parents.toList.flatMap (fun e => [e.1, e.2]) ++ p.keys.keys

/-- Each parent is listed with its partitions in the order of their names, and with no others. -/
def Listed (p : Partitions) : Prop := Gather.Lists p.parents p.held

/-! ## The entries under other names -/

section Renamed

variable {V W : Type} (f : TableName → Option TableName) (g : V → Option W)

/-- An entry under another name, with its value as it is told there. -/
def renamed (e : TableName × V) : Option (TableName × W) := (f e.1).bind fun k => (g e.2).map (k, ·)

variable {f g}

variable {m : ExtTreeMap TableName V} {k' : TableName} {w : W}

theorem mem_renamed : (k', w) ∈ m.toList.filterMap (renamed f g) ↔ ∃ k v, m[k]? = some v ∧ f k = some k' ∧ g v = some w := by
  simp only [List.mem_filterMap, renamed, bind_eq_some_iff, map_eq_some_iff, Prod.mk.injEq, Prod.exists,
    mem_toList_iff_getElem?_eq_some]
  constructor
  · rintro ⟨k, v, hm, _, hk, _, hv, rfl, rfl⟩
    exact ⟨k, v, hm, hk, hv⟩
  · rintro ⟨k, v, hm, hk, hv⟩
    exact ⟨k, v, hm, _, hk, _, hv, rfl, rfl⟩

variable (hf : ∀ s t r, f s = some r → f t = some r → s = t)
include hf

theorem nodup_renamed : ((m.toList.filterMap (renamed f g)).map (·.1)).Nodup := by
  have hkeys : (m.toList.map (·.1)).Nodup := by
    rw [map_fst_toList_eq_keys]
    exact nodup_keys
  have hfilter : ∀ l : List (TableName × V), (l.map (·.1)).Nodup → ((l.filterMap (renamed f g)).map (·.1)).Nodup := by
    intro l
    induction l with
    | nil => exact fun _ => .nil
    | cons e l ih =>
      intro hnodup
      obtain ⟨he, hl⟩ := nodup_cons.1 hnodup
      rw [filterMap_cons]
      cases hr : renamed f g e with
      | none => exact ih hl
      | some e' =>
        refine nodup_cons.2 ⟨fun hmem => he ?_, ih hl⟩
        obtain ⟨x', hx', heq⟩ := List.mem_map.1 hmem
        obtain ⟨x, hx, hxr⟩ := List.mem_filterMap.1 hx'
        simp only [renamed, bind_eq_some_iff, map_eq_some_iff] at hr hxr
        obtain ⟨k, hk, _, -, rfl⟩ := hr
        obtain ⟨k', hk', _, -, rfl⟩ := hxr
        obtain rfl : k' = k := heq
        show e.1 ∈ l.map (·.1)
        rw [hf e.1 x.1 k' hk hk']
        exact List.mem_map_of_mem hx
  exact hfilter _ hkeys

theorem getElem?_foldl_renamed :
    ((m.toList.filterMap (renamed f g)).foldl (fun out e => out.insert e.1 e.2) (∅ : ExtTreeMap TableName W))[k']? = some w ↔
      ∃ k v, m[k]? = some v ∧ f k = some k' ∧ g v = some w := by
  rw [getElem?_foldl_insert _ _ (nodup_renamed hf), getElem?_empty, ← mem_renamed]
  simp

end Renamed

/-! ## The relation under other names -/

def spelled (f : TableName → Option TableName) (p : Partitions) : Partitions where
  parents := (p.parents.toList.filterMap (renamed f f)).foldl (fun out e => out.insert e.1 e.2) ∅
  held := ((p.parents.toList.filterMap (renamed f f)).foldl Gather.push ∅).map fun _ children => children.mergeSort Gather.le
  keys := (p.keys.toList.filterMap (renamed f some)).foldl (fun out e => out.insert e.1 e.2) ∅

variable {n : PlanNames} {a b : At} {f g h : TableName → Option TableName} {p q : Partitions}

theorem foldlM_place (hf : ∀ t, n.address a b t = some (f t)) : ∀ (l : List (TableName × TableName)) (r : Partitions),
    l.foldlM (place n a b) r = some { r with
      parents := (l.filterMap (renamed f f)).foldl (fun out e => out.insert e.1 e.2) r.parents
      held := (l.filterMap (renamed f f)).foldl Gather.push r.held }
  | [], r => rfl
  | e :: l, r => by
    rw [foldlM_cons, place, hf, hf, filterMap_cons]
    cases hc : f e.1 with
    | none => simpa [renamed, hc] using foldlM_place hf l r
    | some child =>
      cases hp : f e.2 with
      | none => simpa [renamed, hc, hp] using foldlM_place hf l r
      | some parent =>
        simpa [renamed, hc, hp] using foldlM_place hf l
          { r with parents := r.parents.insert child parent, held := Gather.push r.held (child, parent) }

theorem foldlM_placeKeys (hf : ∀ t, n.address a b t = some (f t)) : ∀ (l : List (TableName × List (Option TypeRef))) (r : Partitions),
    l.foldlM (placeKeys n a b) r = some { r with
      keys := (l.filterMap (renamed f some)).foldl (fun out e => out.insert e.1 e.2) r.keys }
  | [], r => rfl
  | e :: l, r => by
    rw [foldlM_cons, placeKeys, hf, filterMap_cons]
    cases hp : f e.1 with
    | none => simpa [renamed, hp] using foldlM_placeKeys hf l r
    | some parent => simpa [renamed, hp] using foldlM_placeKeys hf l { r with keys := r.keys.insert parent e.2 }

theorem at_eq_spelled (hf : ∀ t, n.address a b t = some (f t)) (p : Partitions) : p.at_ n a b = some (p.spelled f) := by
  rw [at_, foldlM_place hf]
  show (p.keys.toList.foldlM (placeKeys n a b) _) = _
  rw [foldlM_placeKeys hf]
  rfl

theorem spelled_listed (hf : ∀ s t r, f s = some r → f t = some r → s = t) : (p.spelled f).Listed :=
  Gather.lists_of_sort (nodup_renamed hf) fun _ _ => by rw [mem_renamed]; exact (getElem?_foldl_renamed hf).symm

theorem eq_of_listed (hp : p.Listed) (hq : q.Listed) (hparents : p.parents = q.parents) (hkeys : p.keys = q.keys) : p = q := by
  have hheld : p.held = q.held := by
    rw [Listed, hparents] at hp
    exact hp.unique hq
  cases p; cases q; simp_all

variable {t : TableName}

theorem mem_tables_of_parent {c : TableName} (h : p.parents[c]? = some t) : c ∈ p.tables ∧ t ∈ p.tables := by
  have hmem : (c, t) ∈ p.parents.toList := mem_toList_iff_getElem?_eq_some.2 h
  exact ⟨mem_append_left _ (mem_flatMap.2 ⟨_, hmem, mem_cons_self⟩),
    mem_append_left _ (mem_flatMap.2 ⟨_, hmem, mem_cons_of_mem _ mem_cons_self⟩)⟩

theorem mem_tables_of_keys {types : List (Option TypeRef)} (h : p.keys[t]? = some types) : t ∈ p.tables :=
  mem_append_right _ (ExtTreeMap.mem_keys.2 (mem_of_getElem?_eq h))

theorem exists_renamed_trans {V W : Type} {m : ExtTreeMap TableName V} {out : ExtTreeMap TableName W} {φ : V → Option W}
    {ψ : W → Option W} {χ : V → Option W} (hout : ∀ (k' : TableName) w, out[k']? = some w ↔ ∃ (k : TableName) (v : V), m[k]? = some v ∧ f k = some k' ∧ φ v = some w)
    (hkey : ∀ (k : TableName) v, m[k]? = some v → ∃ k', f k = some k' ∧ g k' = h k)
    (hval : ∀ (k : TableName) v, m[k]? = some v → ∃ w, φ v = some w ∧ ψ w = χ v) {k'' : TableName} {w' : W} :
    (∃ (k' : TableName) (w : W), out[k']? = some w ∧ g k' = some k'' ∧ ψ w = some w') ↔ ∃ (k : TableName) (v : V), m[k]? = some v ∧ h k = some k'' ∧ χ v = some w' := by
  constructor
  · rintro ⟨k', w, how, hg, hw⟩
    obtain ⟨k, v, hm, hk, hv⟩ := (hout k' w).1 how
    obtain ⟨k1, hk1, heq⟩ := hkey k v hm
    obtain ⟨w1, hw1, hweq⟩ := hval k v hm
    rw [hk] at hk1; cases hk1
    rw [hv] at hw1; cases hw1
    exact ⟨k, v, hm, heq ▸ hg, hweq ▸ hw⟩
  · rintro ⟨k, v, hm, hh, hv⟩
    obtain ⟨k', hk', heq⟩ := hkey k v hm
    obtain ⟨w, hw, hweq⟩ := hval k v hm
    exact ⟨k', w, (hout k' w).2 ⟨k, v, hm, hk', hw⟩, heq ▸ hh, hweq ▸ hv⟩

theorem spelled_spelled (hf : ∀ s t r, f s = some r → f t = some r → s = t) (hg : ∀ s t r, g s = some r → g t = some r → s = t)
    (hh : ∀ s t r, h s = some r → h t = some r → s = t) (hfg : ∀ t ∈ p.tables, ∃ s, f t = some s ∧ g s = h t) :
    (p.spelled f).spelled g = p.spelled h := by
  refine eq_of_listed (spelled_listed hg) (spelled_listed hh) ?_ ?_
  · refine ExtTreeMap.ext_getElem? fun k'' => Option.ext fun w' => ?_
    refine (getElem?_foldl_renamed hg).trans (Iff.trans ?_ (getElem?_foldl_renamed hh).symm)
    exact exists_renamed_trans (fun _ _ => getElem?_foldl_renamed hf)
      (fun _ _ hm => hfg _ (mem_tables_of_parent hm).1) (fun _ _ hm => hfg _ (mem_tables_of_parent hm).2)
  · refine ExtTreeMap.ext_getElem? fun k'' => Option.ext fun w' => ?_
    refine (getElem?_foldl_renamed hg).trans (Iff.trans ?_ (getElem?_foldl_renamed hh).symm)
    exact exists_renamed_trans (fun _ _ => getElem?_foldl_renamed hf) (fun _ _ hm => hfg _ (mem_tables_of_keys hm))
      (fun _ v _ => ⟨v, rfl, rfl⟩)

theorem spelled_self (hf : ∀ s t r, f s = some r → f t = some r → s = t) (hid : ∀ t ∈ p.tables, f t = some t) :
    (p.spelled f).parents = p.parents ∧ (p.spelled f).keys = p.keys := by
  constructor
  · refine ExtTreeMap.ext_getElem? fun c => Option.ext fun t => (getElem?_foldl_renamed hf).trans ?_
    constructor
    · rintro ⟨c', t', hm, hc, ht⟩
      obtain ⟨hc', ht'⟩ := mem_tables_of_parent hm
      rw [hid c' hc'] at hc; cases hc
      rw [hid t' ht'] at ht; cases ht
      exact hm
    · intro hm
      obtain ⟨hc, ht⟩ := mem_tables_of_parent hm
      exact ⟨c, t, hm, hid c hc, hid t ht⟩
  · refine ExtTreeMap.ext_getElem? fun t => Option.ext fun types => (getElem?_foldl_renamed hf).trans ?_
    constructor
    · rintro ⟨t', types', hm, ht, heq⟩
      rw [hid t' (mem_tables_of_keys hm)] at ht; cases ht
      cases heq; exact hm
    · exact fun hm => ⟨t, types, hm, hid t (mem_tables_of_keys hm), rfl⟩

/-! ## The relations there are -/

/-- Each parent is read as holding its partitions in the order of their names. -/
def Reads (p : Partitions) : Prop := ∀ t, p.ofParent t = Gather.under p.parents t

theorem Listed.reads (h : p.Listed) : p.Reads := by
  intro t
  rw [ofParent, h t]
  split
  · next hnil => rw [hnil]; rfl
  · rfl

/-- The link an entry of a schema makes. -/
def link (e : TableName × Table) : Option (TableName × TableName) := e.2.partitionOf.map fun of => (e.1, of.parent)

theorem links_foldl_enter : ∀ (l : List (TableName × Table)) (p : Partitions),
    (l.foldl enter p).parents = (l.filterMap link).foldl (fun m e => m.insert e.1 e.2) p.parents ∧
      (l.foldl enter p).held = (l.filterMap link).foldl Gather.push p.held
  | [], _ => ⟨rfl, rfl⟩
  | (name, table) :: l, p => by
    obtain ⟨hparents, hheld⟩ := links_foldl_enter l (enter p (name, table))
    rw [foldl_cons, hparents, hheld, filterMap_cons]
    unfold enter link
    cases table.partitionBy <;> cases table.partitionOf <;> exact ⟨rfl, rfl⟩

theorem reads_of (schema : Schema) : (of schema).Reads := by
  obtain ⟨hparents, hheld⟩ := links_foldl_enter schema.tables.toList {}
  have hsorted : (schema.tables.toList.filterMap link).Pairwise fun a b => compare a.1 b.1 = .lt := by
    refine pairwise_filterMap.2 (ordered_keys_toList.imp fun h b hb b' hb' => ?_)
    obtain ⟨_, -, rfl⟩ := map_eq_some_iff.1 hb
    obtain ⟨_, -, rfl⟩ := map_eq_some_iff.1 hb'
    exact h
  have hnodup : ((schema.tables.toList.filterMap link).map (·.1)).Nodup := Gather.nodup_of_sorted (pairwise_map.2 hsorted)
  intro t
  have hread : (of schema).ofParent t = ((schema.tables.toList.filterMap link).filter (·.2 = t)).map (·.1) := by
    rw [ofParent, of, hheld, Gather.foldl_push]
    split
    · next hnil =>
      rw [hnil]
      rfl
    · exact nil_append _
  rw [hread]
  refine Gather.eq_under (pairwise_map.2 ((hsorted.filter _).imp fun h => ?_)) (Gather.nodup_filter hnodup t) fun k => ?_
  · rw [Gather.le, h]
    rfl
  · rw [Gather.mem_filter_fst, of, hparents, getElem?_foldl_insert _ _ hnodup]
    simp

theorem Reads.release {p : Partitions} (h : p.Reads) (table : TableName) : (p.release table).Reads := by
  unfold Partitions.release
  cases hparent : p.parents[table]? with
  | none => exact h
  | some parent =>
    intro t
    have hunder : Gather.under (p.parents.erase table) t = (Gather.under p.parents t).filter (· ≠ table) := by
      refine (Gather.eq_under ?_ ?_ fun k => ?_).symm
      · exact (Gather.under_sorted.filter _).imp fun h => by rw [Gather.le, h]; rfl
      · exact (Gather.nodup_of_sorted Gather.under_sorted).filter _
      · rw [List.mem_filter, Gather.mem_under, getElem?_erase_eq_some, decide_eq_true_iff, and_comm]
    have hmem : table ∈ p.ofParent parent := by
      rw [h parent]
      exact Gather.mem_under.2 hparent
    unfold ofParent at hmem
    cases hheld : p.held[parent]? with
    | none =>
      rw [hheld] at hmem
      cases hmem
    | some held =>
      rw [hunder, ← h t]
      dsimp only [ofParent]
      rw [hheld]
      dsimp only
      by_cases ht : t = parent
      · subst ht
        simp [hheld]
      · rw [getElem?_insert_of_ne ht]
        refine (filter_eq_self.2 fun k hk => decide_eq_true ?_).symm
        rintro rfl
        rw [show (p.held[t]?).getD [] = Gather.under p.parents t from h t, Gather.mem_under, hparent] at hk
        exact ht (some.inj hk).symm

theorem Reads.without {p : Partitions} (h : p.Reads) (tables : List TableName) : (p.without tables).Reads := by
  unfold Partitions.without
  induction tables generalizing p with
  | nil => exact h
  | cons table tables ih => exact ih (h.release table)

end Partitions

/-! ## Between boundaries -/

namespace Partitions

variable {changes : List Change} {after : IdsFile}

theorem tables_inverse (h : PlanNames.of changes after = .ok n) (b : Nat) : n.tables.Inverse b :=
  (of_follows (fun _ _ _ => tableEvent_at) (PlanNames.of_eq_ok h).1).1 b

theorem at_eq (h : PlanNames.of changes after = .ok n) {i j : Nat} (ha : n.boundary a = some i) (hb : n.boundary b = some j)
    (p : Partitions) : p.at_ n a b = some (p.spelled (n.tables.addressAt i j)) ∧ (p.spelled (n.tables.addressAt i j)).Listed :=
  ⟨at_eq_spelled (fun t => PlanNames.address_eq ha hb t) p,
    spelled_listed fun _ _ _ => History.addressAt_injective (tables_inverse h i) (tables_inverse h j)⟩

/-- Where every table of the relation has a name at both boundaries, going on from the second comes to what going there at once
does, and going back gives every link and key as it was. What is read of the relation is the same again, and it is the same relation
exactly if it listed each parent's partitions in the order of their names, and no parent without any. -/
theorem relation_carried (h : PlanNames.of changes after = .ok n) {a b c : At} (ha : (n.boundary a).isSome = true)
    (hb : (n.boundary b).isSome = true) (hc : (n.boundary c).isSome = true) (p : Partitions)
    (halive : ∀ t ∈ p.tables, ∃ s, n.address a b t = some (some s)) : ∃ q, p.at_ n a b = some q ∧ q.at_ n b c = p.at_ n a c ∧
      ∃ r, q.at_ n b a = some r ∧ r.parents = p.parents ∧ r.keys = p.keys ∧ (p.Reads → ∀ t, r.ofParent t = p.ofParent t) ∧
        (r = p ↔ p.Listed) := by
  obtain ⟨i, ha⟩ := isSome_iff_exists.1 ha
  obtain ⟨j, hb⟩ := isSome_iff_exists.1 hb
  obtain ⟨k, hc⟩ := isSome_iff_exists.1 hc
  have hinv := tables_inverse h
  have hinj : ∀ i j s t r, n.tables.addressAt i j s = some r → n.tables.addressAt i j t = some r → s = t := fun i j _ _ _ =>
    History.addressAt_injective (hinv i) (hinv j)
  have hname : ∀ t ∈ p.tables, ∃ s, n.tables.addressAt i j t = some s := by
    intro t ht
    obtain ⟨s, hs⟩ := halive t ht
    rw [PlanNames.address_eq ha hb] at hs
    exact ⟨s, some.inj hs⟩
  have hthrough : ∀ k, (p.spelled (n.tables.addressAt i j)).spelled (n.tables.addressAt j k) = p.spelled (n.tables.addressAt i k) := by
    intro k
    refine spelled_spelled (hinj i j) (hinj j k) (hinj i k) fun t ht => ?_
    obtain ⟨s, hs⟩ := hname t ht
    exact ⟨s, hs, History.addressAt_trans (hinv j) hs⟩
  obtain ⟨hparents, hkeys⟩ := spelled_self (p := p) (hinj i i) fun t ht => by
    obtain ⟨s, hs⟩ := hname t ht
    exact History.addressAt_self (hinv i) hs
  have hlisted : (p.spelled (n.tables.addressAt i i)).Listed := spelled_listed (hinj i i)
  refine ⟨_, (at_eq h ha hb p).1, ?_, _, (at_eq h hb ha _).1, ?_⟩
  · rw [(at_eq h hb hc _).1, (at_eq h ha hc p).1, hthrough k]
  · rw [hthrough i]
    refine ⟨hparents, hkeys, fun hp t => ?_, fun heq => heq ▸ hlisted, fun hp => eq_of_listed hlisted hp hparents hkeys⟩
    rw [hlisted.reads t, hp t, hparents]

def keyed : Schema where
  tables := (∅ : ExtTreeMap TableName Table)
    |>.insert ⟨"app", "p"⟩
      { columns := AList.insert "m" { ty := { base := "mood", user := some ⟨"app", "mood"⟩ } } ∅
        partitionBy := some { columns := ["m"] } }
    |>.insert ⟨"app", "p_a"⟩ { partitionOf := some { parent := ⟨"app", "p"⟩, bound := .default } }

/-- A relation of which a parent's last partition was taken out does not come back the same: the empty list is gone. -/
theorem relation_not_kept : ¬ ∀ (changes : List Change) (after : IdsFile) (n : PlanNames) (a b c : At) (p : Partitions),
    PlanNames.of changes after = .ok n → (n.boundary a).isSome = true → (n.boundary b).isSome = true → (n.boundary c).isSome = true →
    (∀ t ∈ p.tables, (∃ s, n.address a b t = some (some s)) ∧ ∃ s, n.address a c t = some (some s)) →
    (p.at_ n a b).bind (·.at_ n b c) = p.at_ n a c ∧ (p.at_ n a b).bind (·.at_ n b a) = some p := by
  intro hall
  have hok : (match PlanNames.of [] {} with
      | .ok n => ((of keyed).without [⟨"app", "p_a"⟩]).tables.all fun t => n.address .start .end_ t == some (some t)
      | .error _ => false) = true := by decide +kernel
  cases h : PlanNames.of [] {} with
  | error e => rw [h] at hok; cases hok
  | ok n =>
    rw [h] at hok
    have halive : ∀ t ∈ ((of keyed).without [⟨"app", "p_a"⟩]).tables, n.address .start .end_ t = some (some t) := fun t ht =>
      eq_of_beq (List.all_eq_true.1 hok t ht)
    obtain ⟨-, hback⟩ := hall [] {} n .start .end_ .end_ ((of keyed).without [⟨"app", "p_a"⟩]) h rfl rfl rfl
      fun t ht => ⟨⟨t, halive t ht⟩, t, halive t ht⟩
    -- what comes back lists no parent without partitions
    obtain ⟨q, -, hq⟩ := bind_eq_some_iff.1 hback
    obtain ⟨hspelled, hlisted⟩ := at_eq h (a := .end_) (b := .start) rfl rfl q
    rw [hspelled] at hq
    rw [some.inj hq] at hlisted
    have hheld := hlisted ⟨"app", "p"⟩
    have hempty : ((of keyed).without [⟨"app", "p_a"⟩]).held[(⟨"app", "p"⟩ : TableName)]? = some [] := by decide +kernel
    rw [hempty] at hheld
    split at hheld
    · cases hheld
    · next hne => exact hne (some.inj hheld).symm

def family : Partitions where
  parents := (∅ : ExtTreeMap TableName TableName).insert ⟨"dbo", "part"⟩ ⟨"dbo", "a"⟩
  held := (∅ : ExtTreeMap TableName (List TableName)).insert ⟨"dbo", "a"⟩ [⟨"dbo", "part"⟩]
  keys := (∅ : ExtTreeMap TableName (List (Option TypeRef))).insert ⟨"dbo", "a"⟩ [none]

theorem family_carried : ∃ n, PlanNames.of PlanNames.handedOver PlanNames.handedOverIds = .ok n ∧
    ∃ q, family.at_ n .start (.after 1) = some q ∧ q.at_ n (.after 1) .end_ = family.at_ n .start .end_ ∧
      ∃ r, q.at_ n (.after 1) .start = some r ∧ r.parents = family.parents ∧ r.keys = family.keys ∧
        (family.Reads → ∀ t, r.ofParent t = family.ofParent t) ∧ (r = family ↔ family.Listed) := by
  have hok : (match PlanNames.of PlanNames.handedOver PlanNames.handedOverIds with
      | .ok n => (n.boundary (.after 1)).isSome &&
        family.tables.all fun t => ((n.address .start (.after 1) t).getD none).isSome
      | .error _ => false) = true := by decide +kernel
  cases h : PlanNames.of PlanNames.handedOver PlanNames.handedOverIds with
  | error e => rw [h] at hok; cases hok
  | ok n =>
    rw [h] at hok
    obtain ⟨hboundary, hall⟩ := Bool.and_eq_true_iff.1 hok
    refine ⟨n, rfl, relation_carried h rfl hboundary rfl family fun t ht => ?_⟩
    obtain ⟨s, hs⟩ := isSome_iff_exists.1 (List.all_eq_true.1 hall t ht)
    refine ⟨s, ?_⟩
    cases haddress : n.address .start (.after 1) t with
    | none => rw [haddress] at hs; cases hs
    | some x => rw [haddress] at hs; exact congrArg some hs

end Partitions

end Pbps.Names
