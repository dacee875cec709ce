/-
The passes of a resolution one by one: each keeps `Sound`, leaves the objects outside its own scope
as they were, and ends with the names of its scope the declared ones.
-/
import Pbps.Identity.Edit
import Pbps.Identity.Scope

namespace Pbps.Identity

open Std (ExtTreeMap ExtTreeSet)
open List Option Std.ExtTreeMap

variable {src : UidSource} {declared : Schema} {intents : List Intent} {ids₀ ids₁ ids : IdsFile}

/-! ## Names of one section -/

section Names

variable {N M : Type}

def viewOf (pick : Obj → Option N) (ids : IdsFile) (u : Uid) : Option N := (live ids u).bind pick

def Frame (pick : Obj → Option N) (ids₁ ids : IdsFile) : Prop :=
  ∀ u o, pick o = none → (live ids u = some o ↔ live ids₁ u = some o)

/-- A scope whose names are entries of one section, and whose edits write that section alone. -/
structure Scope.Names (src : UidSource) (sc : Scope N) (sec : Section M) (up : N → M) (pick : Obj → Option N) :
    Prop where
  law : sec.Lawful
  pick_iff : ∀ o n, pick o = some n ↔ o = sec.obj (up n)
  not_table : ∀ n t, sec.obj (up n) ≠ .table t
  parent : ∀ a b, (sec.obj (up a)).parent = (sec.obj (up b)).parent
  rename_ids : ∀ r uid a b, (sc.onRename r uid a b).ids = sec.set r.ids ((sec.get r.ids).insert uid (up b))
  drop_ids : ∀ r uid a reason, ∃ t : Tombstone, t.require = none ∧ (sc.onDrop r uid a reason).ids =
    { sec.set r.ids ((sec.get r.ids).erase uid) with tombstones := r.ids.tombstones.insert uid t }
  mint_ids : ∀ r n r', sc.mint r n = .ok r' →
    r'.ids = sec.set r.ids ((sec.get r.ids).insert (src.fresh r.ids sec.kind) (up n))

variable {sc : Scope N} {sec : Section M} {up : N → M} {pick : Obj → Option N}

variable {n : N}

theorem Scope.Names.viewOf_eq (h : sc.Names src sec up pick) {u : Uid} :
    viewOf pick ids u = some n ↔ live ids u = some (sec.obj (up n)) := by
  unfold viewOf
  rw [bind_eq_some_iff]
  constructor
  · rintro ⟨o, ho, hp⟩; rw [ho, (h.pick_iff o n).1 hp]
  · intro hl; exact ⟨_, hl, (h.pick_iff _ n).2 rfl⟩

theorem Scope.Names.pick_obj (h : sc.Names src sec up pick) (n : N) : pick (sec.obj (up n)) = some n :=
  (h.pick_iff _ n).2 rfl

variable [Ord N] [Std.TransOrd N]

theorem Scope.Names.keeps (h : sc.Names src sec up pick) (names : List N) (known : ExtTreeMap N Uid)
    (hpar : ∀ n p, (sec.obj (up n)).parent = some p → pick p = none ∧ ∃ u, live ids₁ u = some p)
    (hreach : ∀ i ∈ intents, ∀ a b, sc.renameOf i = some (a, b) → a ∉ names → b ∈ names →
      ∀ o, Reach declared intents ids₀ o (sec.obj (up a)) → Reach declared intents ids₀ o (sec.obj (up b)))
    (hdrop : ∀ i ∈ intents, ∀ a reason, sc.dropOf i = some (a, reason) → a ∉ names →
      ∀ o, Reach declared intents ids₀ o (sec.obj (up a)) → Dropped declared intents ids₀ o) :
    sc.Keeps names known intents (viewOf pick) fun ids => Sound src declared intents ids₀ ids ∧ Frame pick ids₁ ids := by
  constructor
  · rintro ids u v n ⟨hs, -⟩ hu hv
    exact hs.wf.unique u v _ (h.viewOf_eq.1 hu) (h.viewOf_eq.1 hv)
  · rintro r uid a b i ⟨hs, hf⟩ hu hto ha hb - hi hr
    rw [h.viewOf_eq] at hu
    have hget := (h.law.live_eq_some hs.kinds).1 hu
    have hk : uid.kind = sec.kind := (live_kind hu).trans (h.law.kind_obj _)
    rw [h.rename_ids]
    refine ⟨⟨hs.rename h.law hget (fun u hl => hto u (h.viewOf_eq.2 hl)) (h.parent b a) (h.not_table a)
      (hreach i hi a b hr ha hb), fun u o ho => ?_⟩, fun u => ?_⟩
    · rw [h.law.live_insert hk, ← hf u o ho]
      split
      · rename_i he; subst he
        rw [hu]
        constructor <;> (rintro ⟨⟩; rw [h.pick_obj] at ho; cases ho)
      · exact Iff.rfl
    · unfold viewOf
      rw [h.law.live_insert hk]
      split
      · exact h.pick_obj b
      · rfl
  · rintro r uid a reason i ⟨hs, hf⟩ hu ha - hi hr
    rw [h.viewOf_eq] at hu
    have hget := (h.law.live_eq_some hs.kinds).1 hu
    have hk : uid.kind = sec.kind := (live_kind hu).trans (h.law.kind_obj _)
    obtain ⟨t, ht, hids⟩ := h.drop_ids r uid a reason
    rw [hids]
    have hlive : ∀ u, live { sec.set r.ids ((sec.get r.ids).erase uid) with
        tombstones := r.ids.tombstones.insert uid t } u = if u = uid then none else live r.ids u :=
      h.law.live_erase hk
    refine ⟨⟨hs.retire h.law hget (h.not_table a) ht (hdrop i hi a reason hr ha), fun u o ho => ?_⟩, fun u => ?_⟩
    · rw [hlive, ← hf u o ho]
      split
      · rename_i he; subst he
        rw [hu]
        constructor
        · rintro ⟨⟩
        · rintro ⟨⟩; rw [h.pick_obj] at ho; cases ho
      · exact Iff.rfl
    · unfold viewOf
      rw [hlive]
      split <;> rfl
  · rintro r r' n ⟨hs, hf⟩ hn hd hm
    have hk := src.kind_fresh r.ids sec.kind
    rw [h.mint_ids r n r' hm]
    have hparent : ∀ p, (sec.obj (up n)).parent = some p → ∃ u, live r.ids u = some p := by
      intro p hp
      obtain ⟨hout, u, hu⟩ := hpar n p hp
      exact ⟨u, (hf u p hout).2 hu⟩
    obtain ⟨hs', hnone⟩ := hs.mint h.law hk (src.fresh_not_contained r.ids sec.kind) ⟨_, _, rfl⟩
      (fun u hl => hn u (h.viewOf_eq.2 hl)) hparent
    refine ⟨⟨hs', fun u o ho => ?_⟩, src.fresh r.ids sec.kind, ?_, fun u => ?_⟩
    · rw [h.law.live_insert hk, ← hf u o ho]
      split
      · rename_i he; subst he
        rw [hnone]
        constructor
        · rintro ⟨⟩; rw [h.pick_obj] at ho; cases ho
        · rintro ⟨⟩
      · exact Iff.rfl
    · unfold viewOf; rw [hnone]; rfl
    · unfold viewOf
      rw [h.law.live_insert hk]
      split
      · exact h.pick_obj n
      · rfl

variable [Std.LawfulEqOrd N] [DecidableEq N]

theorem getElem?_knownNames {section_ : ExtTreeMap Uid N}
    (huniq : ∀ (u v : Uid) n, section_[u]? = some n → section_[v]? = some n → u = v) {uid : Uid} :
    (knownNames section_)[n]? = some uid ↔ section_[uid]? = some n := by
  have hnd : ((section_.toList.map fun e => (e.2, e.1)).map Prod.fst).Nodup := by
    rw [List.map_map]
    refine Nodup.map_on ?_ (distinct_keys_toList.imp fun h he => h (by rw [he]; exact Std.ReflOrd.compare_self))
    rintro ⟨u, a⟩ hu ⟨v, b⟩ hv hab
    rw [mem_toList_iff_getElem?_eq_some] at hu hv
    simp only [Function.comp_apply] at hab
    subst hab
    rw [huniq u v a hu hv]
  rw [knownNames, getElem?_ofList_eq_some hnd, List.mem_map]
  constructor
  · rintro ⟨⟨u, a⟩, h, he⟩
    simp only [Prod.mk.injEq] at he
    obtain ⟨rfl, rfl⟩ := he
    exact mem_toList_iff_getElem?_eq_some.1 h
  · intro h
    exact ⟨(uid, n), mem_toList_iff_getElem?_eq_some.2 h, rfl⟩

theorem getElem?_knownNames_live {sec : Section N} (law : sec.Lawful) (hs : Sound src declared intents ids₀ ids) {uid : Uid} :
    (knownNames (sec.get ids))[n]? = some uid ↔ live ids uid = some (sec.obj n) := by
  rw [law.live_eq_some hs.kinds, getElem?_knownNames]
  intro u v n hu hv
  exact hs.wf.unique u v _ ((law.live_eq_some hs.kinds).2 hu) ((law.live_eq_some hs.kinds).2 hv)

/-- A pass that ends without a blocker: none was there before, and the names of its scope are the
ones it was to reach. -/
structure Resolved (src : UidSource) (declared : Schema) (intents : List Intent) (ids₀ : IdsFile)
    (pick : Obj → Option N) (names : N → Prop) (s s' : Progress) : Prop where
  blockers : s.blockers = []
  sound : Sound src declared intents ids₀ s'.r.ids
  frame : Frame pick s.r.ids s'.r.ids
  names : ∀ n, (∃ u, viewOf pick s'.r.ids u = some n) ↔ names n

theorem Scope.Names.resolved (h : sc.Names src sec up pick) {names : List N} {known : ExtTreeMap N Uid} {k : Nat}
    {s : Progress} (keeps : sc.Keeps names known intents (viewOf pick)
      fun ids => Sound src declared intents ids₀ ids ∧ Frame pick s.r.ids ids)
    (hs : Sound src declared intents ids₀ s.r.ids) (hnd : names.Nodup)
    (hknown : ∀ n uid, known[n]? = some uid ↔ live s.r.ids uid = some (sec.obj (up n)))
    (hb : (resolveScope sc names known intents k s).blockers = []) :
    Resolved src declared intents ids₀ pick (· ∈ names) s (resolveScope sc names known intents k s) := by
  obtain ⟨hb', ⟨hs', hf⟩, hn, -⟩ := resolveScope_clear keeps ⟨hs, fun _ _ _ => Iff.rfl⟩ hnd
    (fun n uid => (hknown n uid).trans h.viewOf_eq.symm) hb
  exact ⟨hb', hs', hf, hn⟩

end Names

/-! ## Types and roles -/

namespace Obj

def asType : Obj → Option TypeRef | .type n => some n | _ => none
def asRole : Obj → Option RoleName | .role n => some n | _ => none
def asTable : Obj → Option TableName | .table t => some t | _ => none
def asExtension : Obj → Option ObjectLocalName | .extension n => some n | _ => none
def tableOf : Obj → Option TableName | .table t => some t | .column c => some c.table | _ => none
def asColumnOf (t : TableName) : Obj → Option ColumnName
  | .column c => if c.table = t then some c.name else none
  | _ => none

end Obj

theorem typeScope_names (src : UidSource) (ctx : Context) : (typeScope src ctx).Names src typeSection id Obj.asType where
  law := typeSection_lawful
  pick_iff o n := by cases o <;> simp [Obj.asType, typeSection]
  not_table n t := by simp [typeSection]
  parent a b := rfl
  rename_ids r uid a b := rfl
  drop_ids r uid a reason := ⟨_, rfl, rfl⟩
  mint_ids r n r' h := by cases h; rfl

theorem roleScope_names (src : UidSource) (ctx : Context) : (roleScope src ctx).Names src roleSection id Obj.asRole where
  law := roleSection_lawful
  pick_iff o n := by cases o <;> simp [Obj.asRole, roleSection]
  not_table n t := by simp [roleSection]
  parent a b := rfl
  rename_ids r uid a b := rfl
  drop_ids r uid a reason := ⟨_, rfl, rfl⟩
  mint_ids r n r' h := by cases h; rfl

theorem typeScope_keeps (ctx : Context) (known : ExtTreeMap TypeRef Uid) :
    (typeScope src ctx).Keeps declared.types.keys known intents (viewOf Obj.asType)
      fun ids => Sound src declared intents ids₀ ids ∧ Frame Obj.asType ids₁ ids := by
  refine (typeScope_names src ctx).keeps _ known (fun n p hp => by cases hp) ?_ ?_
  · intro i hi a b hr ha hb o ho
    cases i <;> simp only [typeScope, reduceCtorEq, some.injEq, Prod.mk.injEq] at hr
    obtain ⟨rfl, rfl⟩ := hr
    rw [ExtTreeMap.mem_keys] at ha hb
    cases ho with
    | type c _ h =>
      rcases h with rfl | ⟨-, h, -⟩
      · exact .type _ _ (Or.inr ⟨ha, hb, hi⟩)
      · exact absurd h ha
  · intro i hi a reason hr ha o ho
    cases i <;> simp only [typeScope, reduceCtorEq, some.injEq, Prod.mk.injEq] at hr
    obtain ⟨rfl, rfl⟩ := hr
    rw [ExtTreeMap.mem_keys] at ha
    cases ho with
    | type c _ h =>
      rcases h with rfl | ⟨-, h, -⟩
      · exact ⟨_, hi⟩
      · exact absurd h ha

variable {k : Nat} {ctx : Context} {s : Progress} {t : TableName} {uid : Uid} {n : ColumnName} {table : Table}

theorem resolveTypes_clear (hs : Sound src declared intents ids₀ s.r.ids)
    (h : (resolveTypes src declared intents k ctx s).blockers = []) :
    Resolved src declared intents ids₀ Obj.asType (· ∈ declared.types) s (resolveTypes src declared intents k ctx s) := by
  have := (typeScope_names src ctx).resolved (typeScope_keeps ctx _) hs nodup_keys
    (fun n uid => getElem?_knownNames_live typeSection_lawful hs) h
  simp only [ExtTreeMap.mem_keys] at this
  exact this

theorem roleScope_keeps (ctx : Context) (known : ExtTreeMap RoleName Uid) :
    (roleScope src ctx).Keeps declared.roles.keys known intents (viewOf Obj.asRole)
      fun ids => Sound src declared intents ids₀ ids ∧ Frame Obj.asRole ids₁ ids := by
  refine (roleScope_names src ctx).keeps _ known (fun n p hp => by cases hp) ?_ ?_
  · intro i hi a b hr ha hb o ho
    cases i <;> simp only [roleScope, reduceCtorEq, some.injEq, Prod.mk.injEq] at hr
    obtain ⟨rfl, rfl⟩ := hr
    rw [ExtTreeMap.mem_keys] at ha hb
    cases ho with
    | role c _ h =>
      rcases h with rfl | ⟨-, h, -⟩
      · exact .role _ _ (Or.inr ⟨ha, hb, hi⟩)
      · exact absurd h ha
  · intro i hi a reason hr ha o ho
    cases i <;> simp only [roleScope, reduceCtorEq, some.injEq, Prod.mk.injEq] at hr
    obtain ⟨rfl, rfl⟩ := hr
    rw [ExtTreeMap.mem_keys] at ha
    cases ho with
    | role c _ h =>
      rcases h with rfl | ⟨-, h, -⟩
      · exact ⟨_, hi⟩
      · exact absurd h ha

theorem resolveRoles_clear (hs : Sound src declared intents ids₀ s.r.ids)
    (h : (resolveRoles src declared intents k ctx s).blockers = []) :
    Resolved src declared intents ids₀ Obj.asRole (· ∈ declared.roles) s (resolveRoles src declared intents k ctx s) := by
  have := (roleScope_names src ctx).resolved (roleScope_keeps ctx _) hs nodup_keys
    (fun n uid => getElem?_knownNames_live roleSection_lawful hs) h
  simp only [ExtTreeMap.mem_keys] at this
  exact this

/-! ## Tables -/

theorem viewOf_asTable {u : Uid} : viewOf Obj.asTable ids u = some t ↔ live ids u = some (.table t) := by
  unfold viewOf
  rw [bind_eq_some_iff]
  constructor
  · rintro ⟨o, ho, hp⟩
    cases o <;> simp only [Obj.asTable, reduceCtorEq, some.injEq] at hp
    rw [ho, hp]
  · intro h; exact ⟨_, h, rfl⟩

variable {from_ : TableName} {ids' : IdsFile} {P : TableName → IdsFile → Prop}

theorem viewOf_asTable_relabel (hs : Sound src declared intents ids₀ ids) (hu : ids.tables[uid]? = some from_) (to_ : TableName)
    (u : Uid) : viewOf Obj.asTable (renameTableInIds ids uid from_ to_) u =
      if u = uid then some to_ else viewOf Obj.asTable ids u := by
  have hl := (live_table hs.kinds).2 hu
  have hlive : live (renameTableInIds ids uid from_ to_) u = (live ids u).map (Obj.moveTable from_ to_) :=
    congrFun (congrArg Registry.State.live (registry_renameTable hs hu to_)) u
  unfold viewOf
  rw [hlive]
  split
  · rename_i he; subst he; simp [hl, Obj.moveTable, Obj.asTable]
  · rename_i hne
    cases ho : live ids u with
    | none => rfl
    | some o =>
      cases o <;> simp only [map_some, Obj.moveTable, bind_some, Obj.asTable]
      rename_i t
      have : t ≠ from_ := by rintro rfl; exact hne (hs.wf.unique u uid _ ho hl)
      rw [if_neg this]

theorem viewOf_asTable_retire (hs : Sound src declared intents ids₀ ids) (hu : ids.tables[uid]? = some t) (ctx : Context)
    (reason : Reason) (u : Uid) : viewOf Obj.asTable (dropTableInIds ctx ids uid t reason) u =
      if u = uid then none else viewOf Obj.asTable ids u := by
  have hl := (live_table hs.kinds).2 hu
  have hlive : live (dropTableInIds ctx ids uid t reason) u = (live ids u).filter fun o => ¬ Obj.within t o = true :=
    congrFun (congrArg Registry.State.live (registry_dropTable hs hu ctx reason)) u
  unfold viewOf
  rw [hlive]
  split
  · rename_i he; subst he; simp [hl, Obj.within, Option.filter]
  · rename_i hne
    cases ho : live ids u with
    | none => rfl
    | some o =>
      cases o with
      | table t' =>
        have : t' ≠ t := by rintro rfl; exact hne (hs.wf.unique u uid _ ho hl)
        simp [Option.filter, Obj.within, this]
      | column c => by_cases hc : c.table = t <;> simp [Option.filter, Obj.within, Obj.asTable, hc]
      | extension n => simp [Option.filter, Obj.within]
      | type n => simp [Option.filter, Obj.within]
      | role n => simp [Option.filter, Obj.within]

theorem Frame.relabel {to_ : TableName} (hf : Frame Obj.tableOf ids₁ ids)
    (h : ∀ u, live ids' u = (live ids u).map (Obj.moveTable from_ to_)) : Frame Obj.tableOf ids₁ ids' := by
  intro u o ho
  rw [h, ← hf u o ho]
  cases hl : live ids u with
  | none => simp
  | some p => cases p <;> cases o <;> simp_all [Obj.moveTable, Obj.tableOf]

theorem Frame.retire (hf : Frame Obj.tableOf ids₁ ids)
    (h : ∀ u, live ids' u = (live ids u).filter fun o => ¬ Obj.within t o = true) : Frame Obj.tableOf ids₁ ids' := by
  intro u o ho
  rw [h, ← hf u o ho, Registry.filter_eq_some]
  have : ¬ Obj.within t o = true := by cases o <;> simp_all [Obj.within, Obj.tableOf]
  simp [this]

/-- Whatever the scope of tables does keeps the file sound and the rest of it as it was. -/
theorem tableScope_keeps (ctx : Context) (hs₁ : Sound src declared intents ids₀ ids₁)
    (htables : ∀ (u : Uid) t, live ids₁ u = some (.table t) ↔ ids₀.tables[u]? = some t) :
    (tableScope src ctx).Keeps declared.tables.keys (knownNames ids₁.tables) intents (viewOf Obj.asTable)
      fun ids => Sound src declared intents ids₀ ids ∧ Frame Obj.tableOf ids₁ ids := by
  have hnew : ∀ {t}, t ∉ knownNames ids₁.tables → ∀ u : Uid, ids₀.tables[u]? ≠ some t := by
    intro t ht u hu
    refine ht (mem_of_getElem?_eq (v := u) ?_)
    exact (getElem?_knownNames_live tableSection_lawful hs₁).2 ((htables u t).2 hu)
  have hold : ∀ {t}, (∀ u : Uid, ids₀.tables[u]? ≠ some t) → t ∉ knownNames ids₁.tables := by
    intro t ht hm
    obtain ⟨u, hu⟩ := mem_iff_exists.1 hm
    exact ht u ((htables u t).1 ((getElem?_knownNames_live tableSection_lawful hs₁).1 hu))
  constructor
  · rintro ids u v n ⟨hs, -⟩ hu hv
    exact hs.wf.unique u v _ (viewOf_asTable.1 hu) (viewOf_asTable.1 hv)
  · rintro r uid a b i ⟨hs, hf⟩ hu hto ha hb hbk hi hr
    cases i <;> simp only [tableScope, reduceCtorEq, some.injEq, Prod.mk.injEq] at hr
    obtain ⟨rfl, rfl⟩ := hr
    rw [ExtTreeMap.mem_keys] at ha hb
    have hget := (live_table hs.kinds).1 (viewOf_asTable.1 hu)
    refine ⟨⟨hs.renameTable hget (fun u hl => hto u (viewOf_asTable.2 hl)) ha hb (hnew hbk) hi, ?_⟩, ?_⟩
    · exact hf.relabel fun u => congrFun (congrArg Registry.State.live (registry_renameTable hs hget _)) u
    · exact viewOf_asTable_relabel hs hget _
  · rintro r uid a reason i ⟨hs, hf⟩ hu ha hun hi hr
    cases i <;> simp only [tableScope, reduceCtorEq, some.injEq, Prod.mk.injEq] at hr
    obtain ⟨rfl, rfl⟩ := hr
    rw [ExtTreeMap.mem_keys] at ha
    have hget := (live_table hs.kinds).1 (viewOf_asTable.1 hu)
    have hstr : Stranded declared intents ids₀ _ := fun t' ht' hnew' hi' =>
      hun _ hi' t' (ExtTreeMap.mem_keys.2 ht') (hold hnew') rfl
    refine ⟨⟨hs.dropTable hget ha hstr hi ctx, ?_⟩, ?_⟩
    · exact hf.retire fun u => congrFun (congrArg Registry.State.live (registry_dropTable hs hget ctx _)) u
    · exact viewOf_asTable_retire hs hget ctx _
  · rintro r r' n ⟨hs, hf⟩ hn hd hm
    have hk := src.kind_fresh r.ids .table
    simp only [tableScope] at hm
    split at hm
    · cases hm
    split at hm
    · cases hm
    cases hm
    obtain ⟨hs', hnone⟩ := hs.mint tableSection_lawful hk (src.fresh_not_contained r.ids .table) ⟨_, _, rfl⟩
      (fun u hl => hn u (viewOf_asTable.2 hl)) (fun p hp => by cases hp)
    have hlive : ∀ u, live { r.ids with tables := r.ids.tables.insert (src.fresh r.ids .table) n } u =
        if u = src.fresh r.ids .table then some (.table n) else live r.ids u := tableSection_lawful.live_insert hk
    refine ⟨⟨hs', fun u o ho => ?_⟩, src.fresh r.ids .table, ?_, fun u => ?_⟩
    · rw [← hf u o ho]
      refine (Eq.congr_left (hlive u)).trans ?_
      split
      · rename_i he; subst he
        rw [hnone]
        constructor
        · rintro ⟨⟩; cases ho
        · rintro ⟨⟩
      · exact Iff.rfl
    · unfold viewOf; rw [hnone]; rfl
    · unfold viewOf
      refine (congrArg (Option.bind · Obj.asTable) (hlive u)).trans ?_
      split <;> rfl

theorem resolveTables_clear (hs : Sound src declared intents ids₀ s.r.ids)
    (htables : ∀ (u : Uid) t, live s.r.ids u = some (.table t) ↔ ids₀.tables[u]? = some t)
    (h : (resolveTables src declared intents k ctx s).blockers = []) :
    s.blockers = [] ∧ Sound src declared intents ids₀ (resolveTables src declared intents k ctx s).r.ids ∧
      Frame Obj.tableOf s.r.ids (resolveTables src declared intents k ctx s).r.ids ∧
      (∀ t, (∃ u, live (resolveTables src declared intents k ctx s).r.ids u = some (.table t)) ↔ t ∈ declared.tables) ∧
      ∀ (u : Uid) t t₁ t₂, ids₀.tables[u]? = some t → t ∉ declared.tables → TableReach declared intents ids₀ t t₁ →
        TableReach declared intents ids₀ t t₂ → t₁ ∈ declared.tables → t₂ ∈ declared.tables → t₁ = t₂ := by
  have hknown : ∀ n uid, (knownNames s.r.ids.tables)[n]? = some uid ↔ viewOf Obj.asTable s.r.ids uid = some n :=
    fun n uid => (getElem?_knownNames_live tableSection_lawful hs).trans viewOf_asTable.symm
  obtain ⟨hb, ⟨hs', hf⟩, hn, huniq⟩ := resolveScope_clear (tableScope_keeps ctx hs htables) ⟨hs, fun _ _ _ => Iff.rfl⟩
    nodup_keys hknown h
  refine ⟨hb, hs', hf, fun t => ?_, fun u t t₁ t₂ hu ht h₁ h₂ hd₁ hd₂ => ?_⟩
  · simp only [← viewOf_asTable]
    exact (hn t).trans ExtTreeMap.mem_keys
  · have hmem : ∀ {t}, t ∈ knownNames s.r.ids.tables ↔ ∃ u : Uid, ids₀.tables[u]? = some t := by
      intro t
      simp only [mem_iff_exists, hknown, viewOf_asTable, htables]
    have hfree : ∀ {t}, (∀ u : Uid, ids₀.tables[u]? ≠ some t) → t ∉ knownNames s.r.ids.tables := by
      intro t h hm
      obtain ⟨u, hu⟩ := hmem.1 hm
      exact h u hu
    rcases h₁ with rfl | ⟨-, -, h₁, hi₁⟩
    · exact absurd hd₁ ht
    rcases h₂ with rfl | ⟨-, -, h₂, hi₂⟩
    · exact absurd hd₂ ht
    exact huniq _ hi₁ _ hi₂ t t₁ t₂ (hmem.2 ⟨u, hu⟩) (fun h => ht (ExtTreeMap.mem_keys.1 h)) (ExtTreeMap.mem_keys.2 hd₁)
      (hfree h₁) (ExtTreeMap.mem_keys.2 hd₂) (hfree h₂) rfl rfl

/-! ## Columns -/

theorem asColumnOf_eq {o : Obj} : Obj.asColumnOf t o = some n ↔ o = .column (t.column n) := by
  cases o with
  | column c =>
    cases c with
    | mk t' m =>
      simp only [Obj.asColumnOf, Obj.column.injEq, TableName.column, ColumnRef.mk.injEq]
      split
      · rename_i h; simp [h]
      · rename_i h; simp [h]
  | extension n => simp [Obj.asColumnOf]
  | type n => simp [Obj.asColumnOf]
  | table n => simp [Obj.asColumnOf]
  | role n => simp [Obj.asColumnOf]

theorem columnScope_names (src : UidSource) (ctx : Context) (t : TableName) :
    (columnScope src ctx t).Names src columnSection t.column (Obj.asColumnOf t) where
  law := columnSection_lawful
  pick_iff o n := asColumnOf_eq
  not_table n t := by simp [columnSection]
  parent a b := rfl
  rename_ids r uid a b := rfl
  drop_ids r uid a reason := ⟨_, rfl, rfl⟩
  mint_ids r n r' h := by
    simp only [columnScope] at h
    split at h
    · cases h
    · cases h; rfl

theorem getElem?_knownColumns (hs : Sound src declared intents ids₀ ids) :
    (knownColumns ids t)[n]? = some uid ↔ live ids uid = some (.column (t.column n)) := by
  have hmem : ∀ {e : Uid × ColumnRef}, e ∈ ids.columns.toList.filter (fun e => e.2.table = t) →
      live ids e.1 = some (.column (t.column e.2.name)) := by
    rintro ⟨u, c⟩ h
    obtain ⟨h1, h2⟩ := List.mem_filter.1 h
    rw [mem_toList_iff_getElem?_eq_some] at h1
    have h2 : c.table = t := by simpa using h2
    subst h2
    exact (live_column hs.kinds).2 h1
  have hnd : (((ids.columns.toList.filter fun e => e.2.table = t).map fun e => (e.2.name, e.1)).map Prod.fst).Nodup := by
    rw [List.map_map]
    refine Nodup.map_on (fun e he f hf hef => ?_)
      ((distinct_keys_toList.imp fun h he => h (by rw [he]; exact Std.ReflOrd.compare_self)).filter _)
    simp only [Function.comp_apply] at hef
    have he' := hmem he
    have hf' := hmem hf
    rw [← hef] at hf'
    have huv := hs.wf.unique _ _ _ he' hf'
    have h1 := mem_toList_iff_getElem?_eq_some.1 (List.mem_filter.1 he).1
    have h2 := mem_toList_iff_getElem?_eq_some.1 (List.mem_filter.1 hf).1
    rw [huv, h2] at h1
    exact Prod.ext huv (some.inj h1).symm
  rw [knownColumns, getElem?_ofList_eq_some hnd, List.mem_map]
  constructor
  · rintro ⟨e, he, heq⟩
    simp only [Prod.mk.injEq] at heq
    obtain ⟨rfl, rfl⟩ := heq
    exact hmem he
  · intro h
    refine ⟨(uid, t.column n), List.mem_filter.2 ⟨?_, by simp [TableName.column]⟩, rfl⟩
    rw [mem_toList_iff_getElem?_eq_some]
    exact (live_column hs.kinds).1 h

/-- A declared column: a partition has none of its own. -/
def OwnsColumn (declared : Schema) (t : TableName) (n : ColumnName) : Prop :=
  ∃ table, declared.tables[t]? = some table ∧ table.partitionOf = none ∧ n ∈ table.columns

theorem Sound.forgetColumns (hpart : ∃ table, declared.tables[t]? = some table ∧ table.partitionOf.isSome) :
    ∀ (l : List Uid) (ids : IdsFile), Sound src declared intents ids₀ ids →
      (∀ u ∈ l, u.kind = .column ∧ ∀ c, ids.columns[u]? = some c → c.table = t) →
      Sound src declared intents ids₀ { ids with columns := l.foldl .erase ids.columns } ∧
        ∀ u, live { ids with columns := l.foldl .erase ids.columns } u = if u ∈ l then none else live ids u
  | [], ids, hs, _ => ⟨hs, fun u => by simp⟩
  | uid :: l, ids, hs, hl => by
    obtain ⟨hk, hc⟩ := hl uid (by simp)
    have hlive : ∀ u, live { ids with columns := ids.columns.erase uid } u = if u = uid then none else live ids u :=
      columnSection_lawful.live_erase hk
    have hs' : Sound src declared intents ids₀ { ids with columns := ids.columns.erase uid } := by
      cases hu : ids.columns[uid]? with
      | some c =>
        refine hs.forget columnSection_lawful hu (by simp [columnSection]) fun o ho => ?_
        cases ho with
        | column c₀ _ ht _ =>
          obtain ⟨table, h1, h2⟩ := hpart
          rw [hc c hu] at ht
          exact ⟨t, table, ht, h1, h2⟩
      | none =>
        have : ids.columns.erase uid = ids.columns := by
          ext u c
          rw [getElem?_erase_eq_some]
          constructor
          · exact And.right
          · intro h
            refine ⟨?_, h⟩
            rintro rfl
            rw [hu] at h; cases h
        rw [this]; exact hs
    obtain ⟨h1, h2⟩ := Sound.forgetColumns hpart l _ hs' fun u h => by
      refine ⟨(hl u (by simp [h])).1, fun c hc => (hl u (by simp [h])).2 c ?_⟩
      exact (getElem?_erase_eq_some.1 hc).2
    refine ⟨h1, fun u => (h2 u).trans ?_⟩
    rw [hlive u]
    by_cases hm : u ∈ l <;> by_cases he : u = uid <;> simp [hm, he]

theorem mem_sortedColumns : n ∈ table.columns.keys.mergeSort (fun a b => (compare a b).isLE) ↔ n ∈ table.columns := by
  rw [mem_mergeSort, AList.mem_keys]

theorem declaresColumn_iff (ht : declared.tables[t]? = some table) (n : ColumnName) :
    DeclaresColumn declared t n ↔ n ∈ table.columns := by
  constructor
  · rintro ⟨table', h1, h2⟩
    rw [ht] at h1
    cases h1
    exact h2
  · intro h
    exact ⟨table, ht, h⟩

theorem columnScope_keeps (ctx : Context) (known : ExtTreeMap ColumnName Uid) (ht : declared.tables[t]? = some table)
    (hnone : table.partitionOf = none) (htable : ∃ u, live ids₁ u = some (.table t)) :
    (columnScope src ctx t).Keeps (table.columns.keys.mergeSort fun a b => (compare a b).isLE) known intents
      (viewOf (Obj.asColumnOf t)) fun ids => Sound src declared intents ids₀ ids ∧ Frame (Obj.asColumnOf t) ids₁ ids := by
  -- a column reached under a name that is not declared kept its own
  have hkept : ∀ {o a}, a ∉ table.columns → Reach declared intents ids₀ o (.column (t.column a)) →
      ∃ c, o = .column c ∧ TableReach declared intents ids₀ c.table t ∧ c.name = a := by
    intro o a ha ho
    cases ho with
    | column c _ hct hcc =>
      refine ⟨c, rfl, hct, ?_⟩
      rcases hcc with h | ⟨-, h, -⟩
      · exact h.symm
      · exact absurd ((declaresColumn_iff ht a).1 h) ha
  refine (columnScope_names src ctx t).keeps _ known ?_ ?_ ?_
  · rintro n p ⟨⟩
    exact ⟨rfl, htable⟩
  · intro i hi a b hr ha hb o ho
    rw [mem_sortedColumns] at ha hb
    cases i <;> simp only [columnScope, reduceCtorEq] at hr
    split at hr
    · rename_i hte
      cases hr; subst hte
      obtain ⟨c, rfl, hct, rfl⟩ := hkept ha ho
      exact .column c _ hct (Or.inr ⟨fun h => ha ((declaresColumn_iff ht _).1 h), (declaresColumn_iff ht b).2 hb, hi⟩)
    · cases hr
  · intro i hi a reason hr ha o ho
    rw [mem_sortedColumns] at ha
    cases i <;> simp only [columnScope, reduceCtorEq] at hr
    split at hr
    · rename_i col _ hte
      cases hr; subst hte
      obtain ⟨c, rfl, hct, hn⟩ := hkept ha ho
      refine Or.inr ⟨col.table, reason, hct, ⟨table, ht, hnone⟩, ?_⟩
      rw [hn]; exact hi
    · cases hr

theorem nodup_sortedColumns : (table.columns.keys.mergeSort fun a b => (compare a b).isLE).Nodup :=
  (mergeSort_perm _ _).nodup_iff.2 table.columns.keys_nodup

theorem resolveColumnsOf_clear (hs₁ : Sound src declared intents ids₀ ids₁) (hs : Sound src declared intents ids₀ s.r.ids)
    (hsame : ∀ u n, live s.r.ids u = some (.column (t.column n)) ↔ live ids₁ u = some (.column (t.column n)))
    (ht : declared.tables[t]? = some table) (htable : ∃ u, live s.r.ids u = some (.table t))
    (h : (resolveColumnsOf src ids₁ intents k ctx s (t, table)).blockers = []) :
    Resolved src declared intents ids₀ (Obj.asColumnOf t) (OwnsColumn declared t) s
      (resolveColumnsOf src ids₁ intents k ctx s (t, table)) := by
  unfold resolveColumnsOf at h ⊢
  dsimp only at h ⊢
  have hknown : ∀ n uid, (knownColumns ids₁ t)[n]? = some uid ↔ live s.r.ids uid = some (.column (t.column n)) :=
    fun n uid => (getElem?_knownColumns hs₁).trans (hsame uid n).symm
  split
  · rename_i hp
    have hmem : ∀ u, u ∈ (knownColumns ids₁ t).toList.map Prod.snd ↔ ∃ n, live s.r.ids u = some (.column (t.column n)) := by
      intro u
      rw [mem_map_snd_toList]
      exact exists_congr fun n => hknown n u
    have hl : ∀ u ∈ (knownColumns ids₁ t).toList.map Prod.snd,
        u.kind = .column ∧ ∀ c, s.r.ids.columns[u]? = some c → c.table = t := by
      intro u hu
      obtain ⟨n, hn⟩ := (hmem u).1 hu
      refine ⟨live_kind hn, fun c hc => ?_⟩
      rw [(live_column hs.kinds).2 hc] at hn
      cases hn; rfl
    obtain ⟨h1, h2⟩ := Sound.forgetColumns ⟨table, ht, hp⟩ _ s.r.ids hs hl
    refine ⟨by rw [if_pos hp] at h; exact h, h1, fun u o ho => ?_, fun n => ?_⟩
    · rw [h2 u]
      split
      · rename_i hu
        obtain ⟨n, hn⟩ := (hmem u).1 hu
        rw [hn]
        constructor
        · rintro ⟨⟩
        · rintro ⟨⟩; rw [asColumnOf_eq.2 rfl] at ho; cases ho
      · exact Iff.rfl
    · constructor
      · rintro ⟨u, hu⟩
        rw [(columnScope_names src ctx t).viewOf_eq, h2 u] at hu
        split at hu
        · cases hu
        · rename_i hnm; exact absurd ((hmem u).2 ⟨n, hu⟩) hnm
      · rintro ⟨table', h1, h2, -⟩
        rw [ht] at h1; cases h1
        rw [h2] at hp; cases hp
  · rename_i hp
    rw [if_neg hp] at h
    have hnone : table.partitionOf = none := by simpa using hp
    have hown : ∀ n, OwnsColumn declared t n ↔ n ∈ table.columns := by
      intro n
      constructor
      · rintro ⟨table', h1, -, h2⟩; rw [ht] at h1; cases h1; exact h2
      · intro h; exact ⟨table, ht, hnone, h⟩
    have := (columnScope_names src ctx t).resolved (columnScope_keeps ctx _ ht hnone htable) hs nodup_sortedColumns hknown h
    exact ⟨this.blockers, this.sound, this.frame, fun n => (this.names n).trans (mem_sortedColumns.trans (hown n).symm)⟩

theorem resolveColumnsOf_back {entry : TableName × Table} (h : (resolveColumnsOf src ids₁ intents k ctx s entry).blockers = []) :
    s.blockers = [] := by
  unfold resolveColumnsOf at h
  dsimp only at h
  split at h
  · exact h
  · exact resolveScope_back h

/-- The loop over the declared tables: what is still to come is as the pass found it, and what is
done has what its own turn made of its columns. -/
theorem resolveColumns_loop
    (hP : ∀ t ids ids', (∀ u n, live ids' u = some (.column (t.column n)) ↔ live ids u = some (.column (t.column n))) →
      P t ids → P t ids') (hs₁ : Sound src declared intents ids₀ ids₁)
    (htables : ∀ t, t ∈ declared.tables → ∃ u, live ids₁ u = some (.table t))
    (hstep : ∀ t table s, Sound src declared intents ids₀ s.r.ids →
      (∀ u n, live s.r.ids u = some (.column (t.column n)) ↔ live ids₁ u = some (.column (t.column n))) →
      declared.tables[t]? = some table → (∃ u, live s.r.ids u = some (.table t)) →
      (resolveColumnsOf src ids₁ intents k ctx s (t, table)).blockers = [] →
      P t (resolveColumnsOf src ids₁ intents k ctx s (t, table)).r.ids) :
    ∀ (l : List (TableName × Table)) (s : Progress), (l.map Prod.fst).Nodup →
      (∀ e ∈ l, declared.tables[e.1]? = some e.2) → Sound src declared intents ids₀ s.r.ids →
      (∀ u o, (∀ c, o ≠ .column c) → (live s.r.ids u = some o ↔ live ids₁ u = some o)) →
      (∀ t ∈ l.map Prod.fst, ∀ u n, live s.r.ids u = some (.column (t.column n)) ↔ live ids₁ u = some (.column (t.column n))) →
      (∀ t ∈ declared.tables, t ∉ l.map Prod.fst → P t s.r.ids) →
      (l.foldl (resolveColumnsOf src ids₁ intents k ctx) s).blockers = [] →
      let s' := l.foldl (resolveColumnsOf src ids₁ intents k ctx) s
      s.blockers = [] ∧ Sound src declared intents ids₀ s'.r.ids ∧
        (∀ u o, (∀ c, o ≠ .column c) → (live s'.r.ids u = some o ↔ live ids₁ u = some o)) ∧
        ∀ t ∈ declared.tables, P t s'.r.ids
  | [], s, _, _, hs, hf, _, hdone, hb => ⟨hb, hs, hf, fun t ht => hdone t ht (by simp)⟩
  | (t, table) :: l, s, hnd, hdecl, hs, hf, hsame, hdone, hb => by
    rw [map_cons, nodup_cons] at hnd
    have ht := hdecl (t, table) (by simp)
    obtain ⟨u, hu⟩ := htables t (mem_of_getElem?_eq ht)
    have htable : ∃ u, live s.r.ids u = some (.table t) := ⟨u, (hf u _ (by simp)).2 hu⟩
    have hbt : (resolveColumnsOf src ids₁ intents k ctx s (t, table)).blockers = [] := by
      exact List.foldl_back (P := fun s : Progress => s.blockers = []) (fun s e h => resolveColumnsOf_back h) l _ hb
    have step := resolveColumnsOf_clear hs₁ hs (hsame t (by simp)) ht htable hbt
    have keep : ∀ {t'}, t' ≠ t → ∀ u n, live (resolveColumnsOf src ids₁ intents k ctx s (t, table)).r.ids u =
        some (.column (t'.column n)) ↔ live s.r.ids u = some (.column (t'.column n)) := by
      intro t' hne u n
      exact step.frame u _ (by simp [Obj.asColumnOf, TableName.column, hne])
    have next : ∀ t' ∈ declared.tables, t' ∉ l.map Prod.fst →
        P t' (resolveColumnsOf src ids₁ intents k ctx s (t, table)).r.ids := by
      intro t' ht' hnot
      by_cases he : t' = t
      · subst he
        exact hstep t' table s hs (hsame t' (by simp)) ht htable hbt
      · refine hP t' _ _ (keep he) (hdone t' ht' fun hm => ?_)
        rcases mem_cons.1 hm with h | h
        · exact he h
        · exact hnot h
    obtain ⟨-, h2, h3, h4⟩ := resolveColumns_loop hP hs₁ htables hstep l _ hnd.2 (fun e he => hdecl e (by simp [he])) step.sound
      (fun u o ho => (step.frame u o (by cases o <;> simp_all [Obj.asColumnOf])).trans (hf u o ho))
      (fun t' ht' u n => (keep (by rintro rfl; exact hnd.1 ht') u n).trans (hsame t' (by simp [ht']) u n)) next hb
    exact ⟨step.blockers, h2, h3, h4⟩

/-- The pass over the columns: what the turn of each declared table makes of its columns stays. -/
theorem resolveColumns_each
    (hP : ∀ t ids ids', (∀ u n, live ids' u = some (.column (t.column n)) ↔ live ids u = some (.column (t.column n))) →
      P t ids → P t ids') (hs : Sound src declared intents ids₀ s.r.ids)
    (htables : ∀ t, (∃ u, live s.r.ids u = some (.table t)) ↔ t ∈ declared.tables)
    (h : (resolveColumns src declared intents k ctx s).blockers = [])
    (hstep : ∀ t table s', Sound src declared intents ids₀ s'.r.ids →
      (∀ u n, live s'.r.ids u = some (.column (t.column n)) ↔ live s.r.ids u = some (.column (t.column n))) →
      declared.tables[t]? = some table → (∃ u, live s'.r.ids u = some (.table t)) →
      (resolveColumnsOf src s.r.ids intents k ctx s' (t, table)).blockers = [] →
      P t (resolveColumnsOf src s.r.ids intents k ctx s' (t, table)).r.ids) :
    let s' := resolveColumns src declared intents k ctx s
    s.blockers = [] ∧ Sound src declared intents ids₀ s'.r.ids ∧
      (∀ u o, (∀ c, o ≠ .column c) → (live s'.r.ids u = some o ↔ live s.r.ids u = some o)) ∧
      ∀ t ∈ declared.tables, P t s'.r.ids := by
  have hnd : (declared.tables.toList.map Prod.fst).Nodup := by
    rw [map_fst_toList_eq_keys]; exact nodup_keys
  exact resolveColumns_loop hP hs (fun t ht => (htables t).2 ht) hstep
    declared.tables.toList s hnd (fun e he => mem_toList_iff_getElem?_eq_some.1 he) hs
    (fun _ _ _ => Iff.rfl) (fun _ _ _ _ => Iff.rfl)
    (fun t ht hnot => absurd (by rw [map_fst_toList_eq_keys]; exact ExtTreeMap.mem_keys.2 ht) hnot) h

theorem resolveColumns_clear (hs : Sound src declared intents ids₀ s.r.ids)
    (htables : ∀ t, (∃ u, live s.r.ids u = some (.table t)) ↔ t ∈ declared.tables)
    (h : (resolveColumns src declared intents k ctx s).blockers = []) :
    s.blockers = [] ∧ Sound src declared intents ids₀ (resolveColumns src declared intents k ctx s).r.ids ∧
      (∀ u o, (∀ c, o ≠ .column c) →
        (live (resolveColumns src declared intents k ctx s).r.ids u = some o ↔ live s.r.ids u = some o)) ∧
      ∀ c, (∃ u, live (resolveColumns src declared intents k ctx s).r.ids u = some (.column c)) ↔
        OwnsColumn declared c.table c.name := by
  obtain ⟨h1, h2, h3, h4⟩ := resolveColumns_each
    (P := fun t ids => ∀ n, (∃ u, live ids u = some (.column (t.column n))) ↔ OwnsColumn declared t n)
    (fun t ids ids' hsame hnames n => (exists_congr fun u => hsame u n).trans (hnames n)) hs htables h
    fun t table s' hs' hsame ht htable hb n => (exists_congr fun u => (columnScope_names src ctx t).viewOf_eq.symm).trans
      ((resolveColumnsOf_clear hs hs' hsame ht htable hb).names n)
  refine ⟨h1, h2, h3, fun c => ⟨?_, ?_⟩⟩
  · rintro ⟨u, hu⟩
    -- its table is live, so it is declared, and the loop has been there
    obtain ⟨v, hv⟩ := h2.wf.parent u _ _ hu rfl
    have ht := (htables c.table).1 ⟨v, (h3 v _ (by simp)).1 hv⟩
    exact (h4 c.table ht c.name).1 ⟨u, hu⟩
  · rintro ⟨table, ht, hrest⟩
    exact (h4 c.table (mem_of_getElem?_eq ht) c.name).2 ⟨table, ht, hrest⟩

end Pbps.Identity
