/-
Where each uid of a resolution ends: a pass that is not blocked keeps a declared name, follows the one rename that can match
an undeclared one, and retires the rest. `Sound` says what may become of a uid; here it is said what does.
-/
import Pbps.Identity.Removals

namespace Pbps.Identity

open Std (ExtTreeMap ExtTreeSet)
open List Option Std.ExtTreeMap

/-! ## One scope -/

section Scope

variable {N : Type}

/-- Where a name leads: a declared one stays, any other follows a rename that can match. -/
def Leads (declared known : N → Prop) (renames : List (N × N)) (a n : N) : Prop :=
  (n = a ∧ declared a) ∨ (¬ declared a ∧ declared n ∧ ¬ known n ∧ (a, n) ∈ renames)

variable {a : N}

variable {renames : List (N × N)} {n : N} {u : Uid}

theorem Leads.declared {declared known : N → Prop} (h : Leads declared known renames a n) : declared n := by
  obtain ⟨rfl, h⟩ | ⟨-, h, -⟩ := h
  · exact h
  · exact h

theorem Leads.congr {declared declared' known known' : N → Prop} {renames' : List (N × N)} (hd : ∀ m, declared m ↔ declared' m)
    (hk : ∀ m, known m ↔ known' m) (hr : (a, n) ∈ renames ↔ (a, n) ∈ renames') :
    Leads declared known renames a n ↔ Leads declared' known' renames' a n := by
  rw [Leads, Leads, hd, hd, hk, hr]

variable [Ord N] [Std.TransOrd N]

def Scope.LeadsTo (sc : Scope N) (declared : List N) (known : ExtTreeMap N Uid) (intents : List Intent) : N → N → Prop :=
  Identity.Leads (· ∈ declared) (· ∈ known) (intents.filterMap sc.renameOf)

/-- What the edits of a scope keep of the uids that no new name is given to: where each stands on its way. -/
def Scope.Tracked (sc : Scope N) (declared : List N) (known : ExtTreeMap N Uid) (intents : List Intent) (base : Uid → Option N)
    (safe : Uid → Prop) (view : IdsFile → Uid → Option N) (ids : IdsFile) : Prop :=
  ∀ u, safe u → match base u with
    | none => view ids u = none
    | some a => view ids u = some a ∨ (∃ n, sc.LeadsTo declared known intents a n ∧ view ids u = some n) ∨
      (view ids u = none ∧ ∀ n, ¬ sc.LeadsTo declared known intents a n)

variable {sc : Scope N} {declared : List N} {known : ExtTreeMap N Uid} {intents : List Intent}
  {view : IdsFile → Uid → Option N} {I : IdsFile → Prop} {base : Uid → Option N} {safe : Uid → Prop}

theorem Scope.Tracked.base_eq {ids : IdsFile} (h : sc.Tracked declared known intents base safe view ids) (hu : safe u)
    (hview : view ids u = some a) (ha : a ∉ declared) : base u = some a := by
  have hat := h u hu
  cases hb : base u with
  | none =>
    rw [hb, hview] at hat
    cases hat
  | some b =>
    rw [hb, hview] at hat
    obtain heq | ⟨n, hn, heq⟩ | ⟨heq, -⟩ := hat
    · exact heq.symm
    · cases heq
      exact absurd hn.declared ha
    · cases heq

theorem Scope.Keeps.tracked (hk : sc.Keeps declared known intents view I)
    (hsafe : ∀ {r r' : Resolution} {name u}, I r.ids → safe u → sc.mint r name = .ok r' → view r'.ids u = view r.ids u) :
    sc.Keeps declared known intents view fun ids => I ids ∧ sc.Tracked declared known intents base safe view ids := by
  constructor
  · rintro ids u v n ⟨hI, -⟩
    exact hk.unique hI
  · rintro r uid a b i ⟨hI, htracked⟩ hview hfree ha hb hnew hi hr
    obtain ⟨hI', hview'⟩ := hk.rename hI hview hfree ha hb hnew hi hr
    refine ⟨⟨hI', fun u hu => ?_⟩, hview'⟩
    rw [hview' u]
    by_cases heq : u = uid
    · subst heq
      rw [if_pos rfl, htracked.base_eq hu hview ha]
      exact .inr (.inl ⟨b, .inr ⟨ha, hb, hnew, List.mem_filterMap.2 ⟨i, hi, hr⟩⟩, rfl⟩)
    · rw [if_neg heq]
      exact htracked u hu
  · rintro r uid a reason i ⟨hI, htracked⟩ hview ha hnone hi hr
    obtain ⟨hI', hview'⟩ := hk.drop hI hview ha hnone hi hr
    refine ⟨⟨hI', fun u hu => ?_⟩, hview'⟩
    rw [hview' u]
    by_cases heq : u = uid
    · subst heq
      rw [if_pos rfl, htracked.base_eq hu hview ha]
      refine .inr (.inr ⟨rfl, fun n hn => ?_⟩)
      obtain ⟨-, h⟩ | ⟨-, hd, hnew, hr'⟩ := hn
      · exact ha h
      · obtain ⟨j, hj, hr'⟩ := List.mem_filterMap.1 hr'
        exact hnone j hj n hd hnew hr'
    · rw [if_neg heq]
      exact htracked u hu
  · rintro r r' name ⟨hI, htracked⟩ hfree hd hmint
    obtain ⟨hI', uid, hnone, hview'⟩ := hk.mint hI hfree hd hmint
    refine ⟨⟨hI', fun u hu => ?_⟩, uid, hnone, hview'⟩
    rw [hsafe hI hu hmint]
    exact htracked u hu

variable [Std.LawfulEqOrd N] [DecidableEq N]

theorem resolveScope_leads (hk : sc.Keeps declared known intents view I) {annotationCount : Nat} {s : Progress} (hI : I s.r.ids)
    (hnd : declared.Nodup) (hknown : ∀ n uid, known[n]? = some uid ↔ view s.r.ids uid = some n)
    (hsafe : ∀ {r r' : Resolution} {name u}, I r.ids → safe u → sc.mint r name = .ok r' → view r'.ids u = view r.ids u)
    (h : (resolveScope sc declared known intents annotationCount s).blockers = []) (hu : safe u) (n : N) :
    view (resolveScope sc declared known intents annotationCount s).r.ids u = some n ↔
      ∃ a, view s.r.ids u = some a ∧ sc.LeadsTo declared known intents a n := by
  have htracked : sc.Tracked declared known intents (view s.r.ids) safe view s.r.ids := by
    intro u _
    cases hb : view s.r.ids u with
    | none => rfl
    | some a => exact .inl rfl
  obtain ⟨-, ⟨-, hend⟩, hnames, huniq⟩ := resolveScope_clear (hk.tracked hsafe) ⟨hI, htracked⟩ hnd hknown h
  have hat := hend u hu
  cases hb : view s.r.ids u with
  | none =>
    rw [hb] at hat
    constructor
    · intro hview
      rw [hat] at hview
      cases hview
    · rintro ⟨a, ⟨⟩, -⟩
  | some a =>
    rw [hb] at hat
    have hka : a ∈ known := mem_of_getElem?_eq ((hknown a u).2 hb)
    -- Two names that one leads to are one, as nothing was contested.
    have hone : ∀ {m m'}, sc.LeadsTo declared known intents a m → sc.LeadsTo declared known intents a m' → m = m' := by
      intro m m' hm hm'
      obtain ⟨rfl, had⟩ | ⟨had, hmd, hmk, hr⟩ := hm
      · obtain ⟨rfl, -⟩ | ⟨had', -⟩ := hm'
        · rfl
        · exact absurd had had'
      · obtain ⟨-, had'⟩ | ⟨-, hmd', hmk', hr'⟩ := hm'
        · exact absurd had' had
        · obtain ⟨i, hi, hr⟩ := List.mem_filterMap.1 hr
          obtain ⟨j, hj, hr'⟩ := List.mem_filterMap.1 hr'
          exact huniq i hi j hj a m m' hka had hmd hmk hmd' hmk' hr hr'
    obtain hview | ⟨m, hm, hview⟩ | ⟨hview, hnone⟩ := hat
    · have had : a ∈ declared := (hnames a).1 ⟨u, hview⟩
      rw [hview]
      constructor
      · rintro ⟨⟩
        exact ⟨_, rfl, .inl ⟨rfl, had⟩⟩
      · rintro ⟨_, ⟨⟩, hn⟩
        rw [hone hn (.inl ⟨rfl, had⟩)]
    · rw [hview]
      constructor
      · rintro ⟨⟩
        exact ⟨a, rfl, hm⟩
      · rintro ⟨_, ⟨⟩, hn⟩
        rw [hone hn hm]
    · rw [hview]
      constructor
      · rintro ⟨⟩
      · rintro ⟨_, ⟨⟩, hn⟩
        exact absurd hn (hnone n)

end Scope

/-! ## Types and roles -/

section Passes

variable {src : UidSource} {declared : Schema} {intents : List Intent} {ids₀ ids₁ ids : IdsFile}

variable {u : Uid} {k : Nat} {s : Progress} {ctx : Context} {t : TableName}

variable {N M : Type} {r r' : Resolution} {ids' : IdsFile}

variable {sc : Scope N} {sec : Section M} {up : N → M} {pick : Obj → Option N}

theorem Scope.Names.safe [Ord N] [Std.TransOrd N] [Std.LawfulEqOrd N] [DecidableEq N] (h : sc.Names src sec up pick) {name : N}
    (hu : ¬ src.Draws u) (hm : sc.mint r name = .ok r') : viewOf pick r'.ids u = viewOf pick r.ids u := by
  have hne : u ≠ src.fresh r.ids sec.kind := by
    rintro rfl
    exact hu ⟨_, _, rfl⟩
  rw [h.mint_ids r name r' hm]
  unfold viewOf
  rw [h.law.live_insert (src.kind_fresh _ _), if_neg hne]

theorem Scope.Names.leads [Ord N] [Std.TransOrd N] [Std.LawfulEqOrd N] [DecidableEq N] (h : sc.Names src sec up pick)
    {names : List N} {known : ExtTreeMap N Uid} (keeps : sc.Keeps names known intents (viewOf pick)
      fun ids => Sound src declared intents ids₀ ids ∧ Frame pick s.r.ids ids) (hs : Sound src declared intents ids₀ s.r.ids)
    (hnd : names.Nodup) (hknown : ∀ n uid, known[n]? = some uid ↔ live s.r.ids uid = some (sec.obj (up n)))
    (hb : (resolveScope sc names known intents k s).blockers = []) (hu : ¬ src.Draws u) (n : N) :
    live (resolveScope sc names known intents k s).r.ids u = some (sec.obj (up n)) ↔
      ∃ a, live s.r.ids u = some (sec.obj (up a)) ∧
        Leads (· ∈ names) (fun m => ∃ v, live s.r.ids v = some (sec.obj (up m))) (intents.filterMap sc.renameOf) a n := by
  refine h.viewOf_eq.symm.trans (Iff.trans (resolveScope_leads keeps ⟨hs, fun _ _ _ => Iff.rfl⟩ hnd
    (fun m v => (hknown m v).trans h.viewOf_eq.symm) (fun _ hsafe hm => h.safe hsafe hm) hb hu n) ?_)
  refine exists_congr fun a => and_congr h.viewOf_eq (Leads.congr (fun _ => Iff.rfl) (fun m => ?_) Iff.rfl)
  rw [mem_iff_exists]
  exact exists_congr (hknown m)

theorem resolveTypes_leads (hs : Sound src declared intents ids₀ s.r.ids)
    (h : (resolveTypes src declared intents k ctx s).blockers = []) (hu : ¬ src.Draws u) (n : TypeRef) :
    live (resolveTypes src declared intents k ctx s).r.ids u = some (.type n) ↔ ∃ a, live s.r.ids u = some (.type a) ∧
      Leads (· ∈ declared.types) (fun m => ∃ v, live s.r.ids v = some (.type m)) (renamedTypes intents) a n := by
  refine Iff.trans ((typeScope_names src ctx).leads (typeScope_keeps ctx _) hs nodup_keys
    (fun m v => getElem?_knownNames_live typeSection_lawful hs) h hu n) ?_
  exact exists_congr fun a => and_congr Iff.rfl (Leads.congr (fun m => ExtTreeMap.mem_keys) (fun _ => Iff.rfl) Iff.rfl)

theorem resolveRoles_leads (hs : Sound src declared intents ids₀ s.r.ids)
    (h : (resolveRoles src declared intents k ctx s).blockers = []) (hu : ¬ src.Draws u) (n : RoleName) :
    live (resolveRoles src declared intents k ctx s).r.ids u = some (.role n) ↔ ∃ a, live s.r.ids u = some (.role a) ∧
      Leads (· ∈ declared.roles) (fun m => ∃ v, live s.r.ids v = some (.role m)) (renamedRoles intents) a n := by
  refine Iff.trans ((roleScope_names src ctx).leads (roleScope_keeps ctx _) hs nodup_keys
    (fun m v => getElem?_knownNames_live roleSection_lawful hs) h hu n) ?_
  exact exists_congr fun a => and_congr Iff.rfl (Leads.congr (fun m => ExtTreeMap.mem_keys) (fun _ => Iff.rfl) Iff.rfl)

/-! ## Tables -/

theorem Sound.table_not_fresh (hs₀ : Kinds ids₀) (hs : Sound src declared intents ids₀ ids) (hu : ids₀.tables[u]? = some t)
    (kind : UidKind) : u ≠ src.fresh ids kind := by
  rintro rfl
  have hfresh := src.fresh_not_contained ids kind
  obtain ⟨o', ho', -⟩ | ⟨hdead, -⟩ | ⟨hforgotten, -⟩ := hs.accounts.anchors _ _ ((live_table hs₀).2 hu)
  · have hnone : live ids (src.fresh ids kind) = none := live_eq_none_of_not_contained hfresh
    exact some_ne_none o' (ho'.symm.trans hnone)
  · simp only [IdsFile.containsUid, Bool.or_eq_false_iff] at hfresh
    exact Bool.false_ne_true (hfresh.2.symm.trans hdead)
  · exact hforgotten

def Obj.under (n : ColumnName) : Obj → Option Obj
  | .table t => some (.column (t.column n))
  | _ => none

/-- Columns stand under the names that their tables have now, and no column is new. -/
structure Follows (ids₁ ids : IdsFile) : Prop where
  column : ∀ u v c, live ids₁ u = some (.column c) → live ids₁ v = some (.table c.table) →
    live ids u = (live ids v).bind (Obj.under c.name)
  old : ∀ u c, live ids u = some (.column c) → ∃ c₁, live ids₁ u = some (.column c₁)

theorem Follows.relabel {from_ to_ : TableName} (h : Follows ids₁ ids)
    (hlive : ∀ u, live ids' u = (live ids u).map (Obj.moveTable from_ to_)) : Follows ids₁ ids' := by
  constructor
  · intro u v c hu hv
    rw [hlive, hlive, h.column u v c hu hv]
    cases live ids v with
    | none => rfl
    | some o =>
      cases o with
      | table t =>
        simp only [bind_some, Obj.under, map_some, Obj.moveTable, TableName.column]
        split
        · rfl
        · rfl
      | extension n => rfl
      | type n => rfl
      | column c => rfl
      | role n => rfl
  · intro u c hu
    rw [hlive] at hu
    obtain ⟨o, ho, hmoved⟩ := map_eq_some_iff.1 hu
    cases o with
    | column c' => exact h.old u c' ho
    | extension n => cases hmoved
    | type n => cases hmoved
    | table t => cases hmoved
    | role n => cases hmoved

theorem Follows.retire (h : Follows ids₁ ids) (hlive : ∀ u, live ids' u = (live ids u).filter fun o => ¬ Obj.within t o = true) :
    Follows ids₁ ids' := by
  constructor
  · intro u v c hu hv
    rw [hlive, hlive, h.column u v c hu hv]
    cases live ids v with
    | none => rfl
    | some o =>
      cases o with
      | table t' =>
        by_cases ht : t' = t
        · simp [Obj.under, Obj.within, TableName.column, Option.filter, ht]
        · simp [Obj.under, Obj.within, TableName.column, Option.filter, ht]
      | extension n => simp [Obj.under, Obj.within, Option.filter]
      | type n => simp [Obj.under, Obj.within, Option.filter]
      | column c' => by_cases hc : c'.table = t <;> simp [Obj.under, Obj.within, Option.filter, hc]
      | role n => simp [Obj.under, Obj.within, Option.filter]
  · intro u c hu
    rw [hlive, Registry.filter_eq_some] at hu
    exact h.old u c hu.1

theorem tableScope_mint (h : (tableScope src ctx).mint r t = .ok r') :
    r'.ids = { r.ids with tables := r.ids.tables.insert (src.fresh r.ids .table) t } := by
  simp only [tableScope] at h
  split at h
  · cases h
  split at h
  · cases h
  cases h
  rfl

theorem tableScope_follows (ctx : Context) (hs₀ : Kinds ids₀) (hs₁ : Sound src declared intents ids₀ ids₁)
    (htables : ∀ (u : Uid) t, live ids₁ u = some (.table t) ↔ ids₀.tables[u]? = some t) :
    (tableScope src ctx).Keeps declared.tables.keys (knownNames ids₁.tables) intents (viewOf Obj.asTable)
      fun ids => (Sound src declared intents ids₀ ids ∧ Frame Obj.tableOf ids₁ ids) ∧ Follows ids₁ ids := by
  have hk := tableScope_keeps ctx hs₁ htables
  constructor
  · rintro ids u v n ⟨hI, -⟩
    exact hk.unique hI
  · rintro r uid a b i ⟨hI, hf⟩ hu hto ha hb hbk hi hr
    obtain ⟨hI', hview⟩ := hk.rename hI hu hto ha hb hbk hi hr
    have hget := (live_table hI.1.kinds).1 (viewOf_asTable.1 hu)
    have hlive : ∀ u, live (renameTableInIds r.ids uid a b) u = (live r.ids u).map (Obj.moveTable a b) :=
      congrFun (congrArg Registry.State.live (registry_renameTable hI.1 hget b))
    exact ⟨⟨hI', hf.relabel hlive⟩, hview⟩
  · rintro r uid a reason i ⟨hI, hf⟩ hu ha hun hi hr
    obtain ⟨hI', hview⟩ := hk.drop hI hu ha hun hi hr
    have hget := (live_table hI.1.kinds).1 (viewOf_asTable.1 hu)
    have hlive : ∀ u, live (dropTableInIds ctx r.ids uid a reason) u = (live r.ids u).filter fun o => ¬ Obj.within a o = true :=
      congrFun (congrArg Registry.State.live (registry_dropTable hI.1 hget ctx reason))
    exact ⟨⟨hI', hf.retire hlive⟩, hview⟩
  · rintro r r' n ⟨hI, hf⟩ hn hd hm
    obtain ⟨hI', uid, hnone, hview⟩ := hk.mint hI hn hd hm
    refine ⟨⟨hI', ?_⟩, uid, hnone, hview⟩
    have hlive : ∀ u, live r'.ids u = if u = src.fresh r.ids .table then some (.table n) else live r.ids u := by
      intro u
      rw [tableScope_mint hm]
      exact tableSection_lawful.live_insert (src.kind_fresh _ _) u
    constructor
    · intro u v c hu hv
      have hcolumn : u ≠ src.fresh r.ids .table := by
        rintro rfl
        have := live_kind hu
        rw [src.kind_fresh] at this
        cases this
      rw [hlive, hlive, if_neg hcolumn, if_neg (hI.1.table_not_fresh hs₀ ((htables v _).1 hv) .table)]
      exact hf.column u v c hu hv
    · intro u c hu
      rw [hlive] at hu
      split at hu
      · cases hu
      · exact hf.old u c hu

theorem resolveTables_leads (hs₀ : Kinds ids₀) (hs : Sound src declared intents ids₀ s.r.ids)
    (htables : ∀ (u : Uid) t, live s.r.ids u = some (.table t) ↔ ids₀.tables[u]? = some t)
    (h : (resolveTables src declared intents k ctx s).blockers = []) :
    (∀ (u : Uid), (¬ src.Draws u ∨ ∃ t, ids₀.tables[u]? = some t) → ∀ t',
      live (resolveTables src declared intents k ctx s).r.ids u = some (.table t') ↔ ∃ t, ids₀.tables[u]? = some t ∧
        Leads (· ∈ declared.tables) (fun m => ∃ v : Uid, ids₀.tables[v]? = some m) (renamedTables intents) t t') ∧
      Follows s.r.ids (resolveTables src declared intents k ctx s).r.ids := by
  have hknown : ∀ n uid, (knownNames s.r.ids.tables)[n]? = some uid ↔ viewOf Obj.asTable s.r.ids uid = some n :=
    fun n uid => (getElem?_knownNames_live tableSection_lawful hs).trans viewOf_asTable.symm
  have hstart : Follows s.r.ids s.r.ids := by
    refine ⟨fun u v c hu hv => ?_, fun u c hu => ⟨c, hu⟩⟩
    rw [hu, hv]
    rfl
  have hkeeps := tableScope_follows ctx hs₀ hs htables
  have hsafe : ∀ {r r' : Resolution} {name : TableName} {u : Uid},
      (Sound src declared intents ids₀ r.ids ∧ Frame Obj.tableOf s.r.ids r.ids) ∧ Follows s.r.ids r.ids →
      (¬ src.Draws u ∨ ∃ t, ids₀.tables[u]? = some t) → (tableScope src ctx).mint r name = .ok r' →
      viewOf Obj.asTable r'.ids u = viewOf Obj.asTable r.ids u := by
    intro r r' name u hI hu hm
    have hne : u ≠ src.fresh r.ids .table := by
      obtain hdraws | ⟨t, ht⟩ := hu
      · rintro rfl
        exact hdraws ⟨_, _, rfl⟩
      · exact hI.1.1.table_not_fresh hs₀ ht .table
    unfold viewOf
    rw [tableScope_mint hm]
    exact congrArg (Option.bind · Obj.asTable) ((tableSection_lawful.live_insert (src.kind_fresh _ _) u).trans (if_neg hne))
  constructor
  · intro u hu t'
    refine viewOf_asTable.symm.trans (Iff.trans (resolveScope_leads hkeeps ⟨⟨hs, fun _ _ _ => Iff.rfl⟩, hstart⟩
      nodup_keys hknown hsafe h hu t') ?_)
    refine exists_congr fun t => and_congr (viewOf_asTable.trans (htables u t)) ?_
    refine Leads.congr (fun m => ExtTreeMap.mem_keys) (fun m => ?_) Iff.rfl
    rw [mem_iff_exists]
    exact exists_congr fun v => (hknown m v).trans (viewOf_asTable.trans (htables v m))
  · exact (resolveScope_clear hkeeps ⟨⟨hs, fun _ _ _ => Iff.rfl⟩, hstart⟩ nodup_keys hknown h).2.1.2

/-! ## Columns -/

theorem mem_columnRenames {a b : ColumnName} :
    (a, b) ∈ intents.filterMap (columnScope src ctx t).renameOf ↔ (t.column a, t.column b) ∈ renamedColumns intents := by
  rw [renamedColumns, List.mem_filterMap, List.mem_filterMap]
  refine exists_congr fun i => and_congr Iff.rfl ?_
  cases i with
  | renameColumn t' from_ to_ =>
    simp only [columnScope, ite_none_right_eq_some, some.injEq, Prod.mk.injEq, TableName.column, ColumnRef.mk.injEq]
    constructor
    · rintro ⟨rfl, rfl, rfl⟩
      exact ⟨⟨rfl, rfl⟩, rfl, rfl⟩
    · rintro ⟨⟨rfl, rfl⟩, -, rfl⟩
      exact ⟨rfl, rfl, rfl⟩
  | _ => simp [columnScope]

/-- The columns that lead to one of a table, in the file that the column pass starts from. -/
def ColumnLeads (declared : Schema) (intents : List Intent) (ids₁ : IdsFile) (u : Uid) (c : ColumnRef) : Prop :=
  OwnsColumns declared c.table ∧ ∃ a, live ids₁ u = some (.column (c.table.column a)) ∧
    Leads (fun c => DeclaresColumn declared c.table c.name) (fun c => ∃ v, live ids₁ v = some (.column c)) (renamedColumns intents)
      (c.table.column a) c

theorem resolveColumnsOf_leads {table : Table} (hs₁ : Sound src declared intents ids₀ ids₁)
    (hs : Sound src declared intents ids₀ s.r.ids)
    (hsame : ∀ u n, live s.r.ids u = some (.column (t.column n)) ↔ live ids₁ u = some (.column (t.column n)))
    (ht : declared.tables[t]? = some table) (htable : ∃ u, live s.r.ids u = some (.table t))
    (h : (resolveColumnsOf src ids₁ intents k ctx s (t, table)).blockers = []) (hu : ¬ src.Draws u) (n : ColumnName) :
    live (resolveColumnsOf src ids₁ intents k ctx s (t, table)).r.ids u = some (.column (t.column n)) ↔
      ColumnLeads declared intents ids₁ u (t.column n) := by
  have hknown : ∀ m v, (knownColumns ids₁ t)[m]? = some v ↔ live s.r.ids v = some (.column (t.column m)) :=
    fun m v => (getElem?_knownColumns hs₁).trans (hsame v m).symm
  have hclear := resolveColumnsOf_clear hs₁ hs hsame ht htable h
  by_cases hp : table.partitionOf.isSome = true
  · -- A partition has no columns of its own, before this pass or after it.
    have hnot : ¬ OwnsColumns declared t := by
      rintro ⟨table', ht', hnone⟩
      rw [ht] at ht'
      cases ht'
      rw [hnone] at hp
      cases hp
    constructor
    · intro hlive
      obtain ⟨table', ht', hnone, -⟩ := (hclear.names n).1 ⟨u, (columnScope_names src ctx t).viewOf_eq.2 hlive⟩
      exact absurd ⟨table', ht', hnone⟩ hnot
    · rintro ⟨hown, -⟩
      exact absurd hown hnot
  · have hnone : table.partitionOf = none := by simpa using hp
    unfold resolveColumnsOf at h ⊢
    dsimp only at h ⊢
    rw [if_neg hp] at h ⊢
    refine Iff.trans ((columnScope_names src ctx t).leads (columnScope_keeps ctx _ ht hnone htable) hs nodup_sortedColumns hknown
      h hu n) ?_
    have hown : OwnsColumns declared t := ⟨table, ht, hnone⟩
    refine Iff.trans (exists_congr fun a => and_congr (hsame u a) ?_) (and_iff_right hown).symm
    rw [Leads, Leads]
    have hinj : t.column n = t.column a ↔ n = a := by simp [TableName.column]
    refine or_congr (and_congr hinj.symm ?_) (and_congr (not_congr ?_) (and_congr ?_ (and_congr (not_congr ?_) mem_columnRenames)))
    · exact mem_sortedColumns.trans (declaresColumn_iff ht a).symm
    · exact mem_sortedColumns.trans (declaresColumn_iff ht a).symm
    · exact mem_sortedColumns.trans (declaresColumn_iff ht n).symm
    · exact exists_congr fun v => hsame v n

theorem resolveColumns_leads (hs : Sound src declared intents ids₀ s.r.ids)
    (htables : ∀ t, (∃ u, live s.r.ids u = some (.table t)) ↔ t ∈ declared.tables)
    (h : (resolveColumns src declared intents k ctx s).blockers = []) (hu : ¬ src.Draws u) (c : ColumnRef) :
    live (resolveColumns src declared intents k ctx s).r.ids u = some (.column c) ↔
      ColumnLeads declared intents s.r.ids u c := by
  obtain ⟨-, -, -, hloop⟩ := resolveColumns_each
    (P := fun t ids => ∀ n, live ids u = some (.column (t.column n)) ↔ ColumnLeads declared intents s.r.ids u (t.column n))
    (fun t ids ids' hsame hleads n => (hsame u n).trans (hleads n)) hs htables h
    fun t table s' hs' hsame ht htable hb n => resolveColumnsOf_leads hs hs' hsame ht htable hb hu n
  constructor
  · intro hlive
    obtain ⟨-, -, -, hnames⟩ := resolveColumns_clear hs htables h
    obtain ⟨table, ht, -⟩ := (hnames c).1 ⟨u, hlive⟩
    exact (hloop c.table (mem_of_getElem?_eq ht) c.name).1 hlive
  · intro hleads
    obtain ⟨table, ht, -⟩ := hleads.1
    exact (hloop c.table (mem_of_getElem?_eq ht) c.name).2 hleads

/-! ## Extensions -/

theorem mintExtension_live (hu : ¬ src.Draws u) (l : List ObjectLocalName) (s : Progress) :
    live (l.foldl (mintExtension src) s).r.ids u = live s.r.ids u := by
  refine foldlRecOn (motive := fun s' : Progress => live s'.r.ids u = live s.r.ids u) _ _ rfl fun s' h name _ => ?_
  unfold mintExtension
  split
  · exact h
  · have hne : u ≠ src.fresh s'.r.ids .extension := by
      rintro rfl
      exact hu ⟨_, _, rfl⟩
    exact ((extensionSection_lawful.live_insert (src.kind_fresh _ _) u).trans (if_neg hne)).trans h

theorem resolveExtensions_leads (ctx : Context) (hs : Sound src declared intents ids₀ s.r.ids) (hu : ¬ src.Draws u)
    (n : ObjectLocalName) : live (resolveExtensions src declared intents ctx s).r.ids u = some (.extension n) ↔
      live s.r.ids u = some (.extension n) ∧ n ∈ declared.extensions := by
  rw [resolveExtensions, mintExtension_live hu]
  exact (retireExtensions_loop ctx hs).1.names u n

end Passes

/-! ## The whole run -/

section Whole

variable {src : UidSource} {declared : Schema} {intents : List Intent} {ids₀ ids₁ ids : IdsFile}

def TableLeads (declared : Schema) (intents : List Intent) (ids₀ : IdsFile) : TableName → TableName → Prop :=
  Leads (· ∈ declared.tables) (fun m => ∃ v : Uid, ids₀.tables[v]? = some m) (renamedTables intents)

def CarriedColumn (declared : Schema) (intents : List Intent) (ids₀ : IdsFile) (u : Uid) (c : ColumnRef) : Prop :=
  ∃ c₀, ids₀.columns[u]? = some c₀ ∧ TableLeads declared intents ids₀ c₀.table c.table ∧ c.name = c₀.name

/-- Where every uid ends that is not drawn in the run. -/
structure Led (src : UidSource) (declared : Schema) (intents : List Intent) (ids₀ ids : IdsFile) : Prop where
  tables : ∀ u : Uid, (¬ src.Draws u ∨ ∃ t, ids₀.tables[u]? = some t) → ∀ t',
    ids.tables[u]? = some t' ↔ ∃ t, ids₀.tables[u]? = some t ∧ TableLeads declared intents ids₀ t t'
  types : ∀ u : Uid, ¬ src.Draws u → ∀ n, ids.types[u]? = some n ↔ ∃ a, ids₀.types[u]? = some a ∧
    Leads (· ∈ declared.types) (fun m => ∃ v : Uid, ids₀.types[v]? = some m) (renamedTypes intents) a n
  roles : ∀ u : Uid, ¬ src.Draws u → ∀ n, ids.roles[u]? = some n ↔ ∃ a, ids₀.roles[u]? = some a ∧
    Leads (· ∈ declared.roles) (fun m => ∃ v : Uid, ids₀.roles[v]? = some m) (renamedRoles intents) a n
  extensions : ∀ u : Uid, ¬ src.Draws u → ∀ n, ids.extensions[u]? = some n ↔
    ids₀.extensions[u]? = some n ∧ n ∈ declared.extensions
  columns : ∀ u : Uid, ¬ src.Draws u → ∀ c, ids.columns[u]? = some c ↔ OwnsColumns declared c.table ∧
    ∃ a, CarriedColumn declared intents ids₀ u (c.table.column a) ∧
      Leads (fun c => DeclaresColumn declared c.table c.name) (fun c => ∃ v, CarriedColumn declared intents ids₀ v c)
        (renamedColumns intents) (c.table.column a) c

theorem live_column_carried (hs₁ : Sound src declared intents ids₀ ids₁)
    (htables : ∀ (u : Uid) t, live ids₁ u = some (.table t) ↔ ids₀.tables[u]? = some t)
    (hcolumns : ∀ (u : Uid) c, live ids₁ u = some (.column c) ↔ ids₀.columns[u]? = some c)
    (hleads : ∀ (u : Uid), (¬ src.Draws u ∨ ∃ t, ids₀.tables[u]? = some t) → ∀ t',
      live ids u = some (.table t') ↔ ∃ t, ids₀.tables[u]? = some t ∧ TableLeads declared intents ids₀ t t')
    (hfollows : Follows ids₁ ids) {u : Uid} {c : ColumnRef} :
    live ids u = some (.column c) ↔ CarriedColumn declared intents ids₀ u c := by
  -- A column stands under a table of the start, whose name now is the one it leads to.
  have hat : ∀ c₀, ids₀.columns[u]? = some c₀ →
      (live ids u = some (.column c) ↔ TableLeads declared intents ids₀ c₀.table c.table ∧ c.name = c₀.name) := by
    intro c₀ hc₀
    have hu := (hcolumns u c₀).2 hc₀
    obtain ⟨v, hv⟩ := hs₁.wf.parent u _ _ hu rfl
    have hvt := (htables v _).1 hv
    rw [hfollows.column u v c₀ hu hv, bind_eq_some_iff]
    constructor
    · rintro ⟨o, ho, hunder⟩
      cases o with
      | table t' =>
        cases hunder
        obtain ⟨t, ht, hlead⟩ := (hleads v (.inr ⟨_, hvt⟩) t').1 ho
        rw [hvt] at ht
        cases ht
        exact ⟨hlead, rfl⟩
      | extension n => cases hunder
      | type n => cases hunder
      | column c => cases hunder
      | role n => cases hunder
    · rintro ⟨hlead, hname⟩
      refine ⟨.table c.table, (hleads v (.inr ⟨_, hvt⟩) c.table).2 ⟨_, hvt, hlead⟩, ?_⟩
      rw [Obj.under, ← hname]
      rfl
  constructor
  · intro hlive
    obtain ⟨c₀, hc₀⟩ := hfollows.old u c hlive
    have hc₀' := (hcolumns u c₀).1 hc₀
    exact ⟨c₀, hc₀', (hat c₀ hc₀').1 hlive⟩
  · rintro ⟨c₀, hc₀, hrest⟩
    exact (hat c₀ hc₀).2 hrest

variable {k : Nat} {ctx : Context}

/-- Where nothing blocks, every identity is led to by what was declared and asked. -/
theorem resolvePasses_led (hs₀ : Sound src declared intents ids₀ ids₀)
    (h : (resolvePasses src declared ids₀ intents k ctx).1.blockers = []) :
    Led src declared intents ids₀ (resolvePasses src declared ids₀ intents k ctx).1.r.ids := by
  unfold resolvePasses at h ⊢
  dsimp only at h ⊢
  set e := resolveExtensions src declared intents ctx { r := { ids := ids₀ } } with he
  set ty := resolveTypes src declared intents k ctx e with hty
  set ta := resolveTables src declared intents k ctx ty with hta
  set co := resolveColumns src declared intents k ctx ta with hco
  set mo := resolveModules declared co with hmo
  set ro := resolveRoles src declared intents k ctx mo with hro
  set mv := resolveMoves declared intents ctx ro with hmv
  -- nothing is blocked at the end, so nothing was at the end of any pass
  have hbro : ro.blockers = [] := resolveMoves_back h
  have hbco : co.blockers = [] := (append_eq_nil_iff.1 (resolveScope_back hbro)).1
  have hsound : Sound src declared intents ids₀ ({ ids := ids₀ } : Resolution).ids := hs₀
  obtain ⟨hse, hfe, -, -⟩ := resolveExtensions_sound ctx (s := { r := { ids := ids₀ } }) hsound
  have hbta : ta.blockers = [] := by
    refine List.foldl_back (P := fun s : Progress => s.blockers = []) (fun s entry h => ?_) _ _ hbco
    exact resolveColumnsOf_back h
  have hbty : ty.blockers = [] := resolveScope_back hbta
  have rty := resolveTypes_clear hse hbty
  have hold : ∀ u o, Obj.asType o = none → Obj.asExtension o = none → (live ty.r.ids u = some o ↔ live ids₀ u = some o) :=
    fun u o hty he => (rty.frame u o hty).trans (hfe u o he)
  have htables : ∀ (u : Uid) t, live ty.r.ids u = some (.table t) ↔ ids₀.tables[u]? = some t := fun u t =>
    (hold u _ rfl rfl).trans (live_table hs₀.kinds)
  have hcolumns : ∀ (u : Uid) c, live ty.r.ids u = some (.column c) ↔ ids₀.columns[u]? = some c := fun u c =>
    (hold u _ rfl rfl).trans (live_column hs₀.kinds)
  obtain ⟨-, hsta, hfta, hnta, -⟩ := resolveTables_clear rty.sound htables hbta
  obtain ⟨htleads, hfollows⟩ := resolveTables_leads hs₀.kinds rty.sound htables hbta
  obtain ⟨-, hsco, hfco, -⟩ := resolveColumns_clear hsta hnta hbco
  have rro := resolveRoles_clear (s := mo) hsco hbro
  obtain ⟨hsmv, hlmv⟩ := resolveMoves_sound ctx rro.sound
  have hend : ∀ u o, Obj.asRole o = none → (live mv.r.ids u = some o ↔ live co.r.ids u = some o) := fun u o ho =>
    (Eq.congr_left (hlmv u)).trans (rro.frame u o ho)
  have hcarried : ∀ (u : Uid) c, live ta.r.ids u = some (.column c) ↔ CarriedColumn declared intents ids₀ u c := fun u c =>
    live_column_carried rty.sound htables hcolumns htleads hfollows
  have hk := hsmv.kinds
  refine ⟨fun u hu t' => ?_, fun u hu n => ?_, fun u hu n => ?_, fun u hu n => ?_, fun u hu c => ?_⟩
  · refine (live_table hk).symm.trans (((hend u _ rfl).trans (hfco u (.table t') (by simp))).trans ?_)
    exact htleads u hu t'
  · refine (typeSection_lawful.live_eq_some hk).symm.trans (((hend u _ rfl).trans ((hfco u (.type n) (by simp)).trans
      (hfta u _ rfl))).trans ((resolveTypes_leads hse hbty hu n).trans ?_))
    have hfirst : ∀ (v : Uid) m, live e.r.ids v = some (.type m) ↔ ids₀.types[v]? = some m := fun v m =>
      (hfe v _ rfl).trans (typeSection_lawful.live_eq_some hs₀.kinds)
    exact exists_congr fun a => and_congr (hfirst u a) (Leads.congr (fun _ => Iff.rfl) (fun m => exists_congr fun v => hfirst v m)
      Iff.rfl)
  · refine (roleSection_lawful.live_eq_some hk).symm.trans ((Eq.congr_left (hlmv u)).trans
      ((resolveRoles_leads (s := mo) hsco hbro hu n).trans ?_))
    have hfirst : ∀ (v : Uid) m, live mo.r.ids v = some (.role m) ↔ ids₀.roles[v]? = some m := fun v m =>
      (hfco v (.role m) (by simp)).trans ((hfta v _ rfl).trans ((hold v _ rfl rfl).trans (roleSection_lawful.live_eq_some hs₀.kinds)))
    exact exists_congr fun a => and_congr (hfirst u a) (Leads.congr (fun _ => Iff.rfl) (fun m => exists_congr fun v => hfirst v m)
      Iff.rfl)
  · refine (live_extension hk).symm.trans (((hend u _ rfl).trans ((hfco u (.extension n) (by simp)).trans ((hfta u _ rfl).trans
      (rty.frame u _ rfl)))).trans ((resolveExtensions_leads ctx hsound hu n).trans ?_))
    exact and_congr (live_extension hs₀.kinds) Iff.rfl
  · refine (live_column hk).symm.trans ((hend u _ rfl).trans ((resolveColumns_leads hsta hnta hbco hu c).trans ?_))
    refine and_congr Iff.rfl (exists_congr fun a => and_congr (hcarried u _) ?_)
    exact Leads.congr (fun _ => Iff.rfl) (fun d => exists_congr fun v => hcarried v d) Iff.rfl

theorem resolve_led (hv : ids₀.validate = .ok ()) {r : Resolution}
    (h : resolveWithAnnotations src declared ids₀ intents k ctx = .ok r) : Led src declared intents ids₀ r.ids := by
  unfold resolveWithAnnotations at h
  dsimp only at h
  split at h
  · rename_i hb
    cases h
    exact resolvePasses_led (Sound.start (validate_eq_ok.1 hv)) (append_eq_nil_iff.1 hb).1
  · cases h

end Whole

end Pbps.Identity
