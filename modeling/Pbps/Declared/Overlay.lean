/-
What was declared put over what was read back: `Declared::overlay` of `pbps-model`'s `declared.rs`. A
read-back that differs from a schema in the recorded texts alone becomes that schema again, and a record
put over any read-back changes texts alone, a copied default of a derived domain apart.
-/
import Pbps.Declared.Record

namespace Pbps

open Std (ExtTreeMap ExtTreeSet)
open Option Std.ExtTreeMap

namespace Declared

/-! ## Overlay -/

/-- Whether the record omits a default that the catalog copied from a scalar domain's base. -/
def projectsCopiedDefault (self catalog : ManagedType) : Bool :=
  match self, catalog with
  | .domain a _ none _ _, .domain b _ (some _) _ _ => a.user.isSome && !a.array && b.user.isSome && !b.array
  | _, _ => false

/-- A domain's default and checks as declared, where the catalog has them. -/
def overlayType (definition catalog : ManagedType) : ManagedType :=
  match catalog, definition with
  | .domain base notNull default checks collation, .domain _ _ declaredDefault declaredChecks _ =>
    .domain base notNull
      (if default.isSome && (declaredDefault.isSome || projectsCopiedDefault definition catalog) then declaredDefault
        else default)
      (checks.map fun key value => (declaredChecks[key]?).getD value) collation
  | _, _ => catalog

/-- A default or an expression as declared, where the column has one. -/
def overlaySource (default generated : Option String) : ValueSource → ValueSource
  | .default read => .default (default.getD read)
  | .generated read => .generated { read with expression := generated.getD read.expression }
  | s => s

def overlayText (declared read : Option String) : Option String :=
  match read with
  | some r => some (declared.getD r)
  | none => none

/-- A predicate as declared, where it is there on both sides or on neither. -/
def overlayPredicate (declared read : Option String) : Option String :=
  if read.isSome = declared.isSome then declared else read

def overlayPolicy (declared : Option DeclaredPolicyExpressions) (p : RowPolicy) : RowPolicy :=
  match declared with
  | some d => { p with using_ := overlayPredicate d.using_ p.using_, withCheck := overlayPredicate d.withCheck p.withCheck }
  | none => p

/-- Whether the keys read have an expression exactly where one was declared. -/
def sameShape (declared : List (Option String)) (keys : List IndexKey) : Bool :=
  declared.length == keys.length && (declared.zip keys).all fun e => e.1.isSome == e.2.expression?.isSome

def overlayKey (declared : Option String) (key : IndexKey) : IndexKey :=
  match declared with
  | some text => .expression text
  | none => key

def overlayKeys {C : Type} (key : C → IndexKey) (setKey : C → IndexKey → C) (declared : Option (List (Option String)))
    (keys : List C) : List C :=
  match declared with
  | some d =>
    if sameShape d (keys.map key) then List.zipWith (fun text c => setKey c (overlayKey text (key c))) d keys else keys
  | none => keys

def overlayIndex (filter : Option String) (keys : Option (List (Option String))) (ix : Index) : Index :=
  { ix with
    filter := overlayText filter ix.filter
    columns := overlayKeys (·.key) (fun c k => { c with key := k }) keys ix.columns }

def overlayExclusion (filter : Option String) (keys : Option (List (Option String))) (x : ExclusionConstraint) :
    ExclusionConstraint :=
  { x with
    filter := overlayText filter x.filter
    keys := overlayKeys (·.key.key) (fun c k => { c with key := { c.key with key := k } }) keys x.keys }

def overlayTable (e : DeclaredExpressions) (name : TableName) (t : Table) : Table :=
  { t with
    columns := t.columns.mapValues fun c s => { s with
      valueSource := overlaySource (Nested.value e.defaults name c) (Nested.value e.generated name c) s.valueSource }
    partitionOf := t.partitionOf.map fun p => { p with
      columns := p.columns.map fun c own => { own with
        default := overlayText (Nested.value e.defaults name c) own.default } }
    computed := t.computed.map fun c s => { s with expression := (Nested.value e.computed name c).getD s.expression }
    rowPolicies := t.rowPolicies.map fun c p => overlayPolicy (Nested.value e.policies name c) p
    checks := t.checks.map fun c s => { s with expression := (Nested.value e.checks name c).getD s.expression }
    indexes := t.indexes.map fun c ix => overlayIndex (Nested.value e.filters name c) (Nested.value e.keys name c) ix
    exclude := t.exclude.map fun c x =>
      overlayExclusion (Nested.value e.exclusionFilters name c) (Nested.value e.exclusionKeys name c) x }

/-- The read-back with every recorded text in place of the engine's spelling of it. -/
def overlay (d : Declared) (readBack : Schema) : Schema :=
  { readBack with
    types := readBack.types.map fun name t => ((d.types[name]?).map fun definition => overlayType definition t).getD t
    modules := readBack.modules.map fun id m => { m with definition := (d.modules[id]?).getD m.definition }
    tables := readBack.tables.map fun name t => overlayTable d.expressions name t }

end Declared

/-! ## Schemas without their texts -/

section WithoutTexts

def present (text : Option String) : Option String := text.map fun _ => ""

def ValueSource.withoutText : ValueSource → ValueSource
  | .default _ => .default ""
  | .generated g => .generated { g with expression := "" }
  | s => s

def IndexKey.withoutText : IndexKey → IndexKey
  | .column c => .column c
  | .expression _ => .expression ""

def ManagedType.withoutTexts : ManagedType → ManagedType
  | .domain base notNull default checks collation =>
    .domain base notNull (present default) (checks.map fun _ _ => "") collation
  | t => t

def Column.withoutText (c : Column) : Column := { c with valueSource := c.valueSource.withoutText }

def PartitionColumn.withoutText (own : PartitionColumn) : PartitionColumn := { own with default := present own.default }

def PartitionOf.withoutTexts (p : PartitionOf) : PartitionOf :=
  { p with columns := p.columns.map fun _ own => own.withoutText }

def RowPolicy.withoutTexts (p : RowPolicy) : RowPolicy :=
  { p with using_ := present p.using_, withCheck := present p.withCheck }

def Index.withoutTexts (ix : Index) : Index :=
  { ix with filter := present ix.filter, columns := ix.columns.map fun c => { c with key := c.key.withoutText } }

def ExclusionConstraint.withoutTexts (x : ExclusionConstraint) : ExclusionConstraint :=
  { x with
    filter := present x.filter
    keys := x.keys.map fun c => { c with key := { c.key with key := c.key.key.withoutText } } }

/-- A table with every text that is recorded blanked, and nothing else changed. -/
def Table.withoutTexts (t : Table) : Table :=
  { t with
    columns := t.columns.mapValues fun _ c => c.withoutText
    partitionOf := t.partitionOf.map PartitionOf.withoutTexts
    computed := t.computed.map fun _ s => { s with expression := "" }
    rowPolicies := t.rowPolicies.map fun _ p => p.withoutTexts
    checks := t.checks.map fun _ s => { s with expression := "" }
    indexes := t.indexes.map fun _ ix => ix.withoutTexts
    exclude := t.exclude.map fun _ x => x.withoutTexts }

/-- A schema with every text that is recorded blanked, and nothing else changed. Schemas that differ in such
texts alone, each present in one where it is in the other, are the same without them. -/
def Schema.withoutTexts (s : Schema) : Schema :=
  { s with
    types := s.types.map fun _ t => t.withoutTexts
    modules := s.modules.map fun _ m => { m with definition := "" }
    tables := s.tables.map fun _ t => t.withoutTexts }

end WithoutTexts

/-! ## One text -/

namespace Declared

section Text

variable {declared read : Option String}

theorem overlayText_restores (h : present read = present declared) : overlayText declared read = declared := by
  cases read <;> cases declared <;> simp_all [present, overlayText]

theorem present_overlayText : present (overlayText declared read) = present read := by
  cases read <;> rfl

theorem overlayText_again : overlayText declared (overlayText declared read) = overlayText declared read := by
  cases read <;> cases declared <;> rfl

theorem overlayPredicate_restores (h : present read = present declared) : overlayPredicate declared read = declared := by
  cases read <;> cases declared <;> simp_all [present, overlayPredicate]

theorem present_overlayPredicate : present (overlayPredicate declared read) = present read := by
  cases read <;> cases declared <;> simp [present, overlayPredicate]

theorem overlayPredicate_again :
    overlayPredicate declared (overlayPredicate declared read) = overlayPredicate declared read := by
  cases read <;> cases declared <;> simp [overlayPredicate]

end Text

section Source

variable {default generated : Option String} {read s : ValueSource}

theorem overlaySource_restores (h : read.withoutText = s.withoutText) (hd : ∀ x, s = .default x → default = some x)
    (hg : ∀ g, s = .generated g → generated = some g.expression) : overlaySource default generated read = s := by
  cases s with
  | default x =>
    cases read <;> simp only [ValueSource.withoutText, reduceCtorEq] at h
    rw [overlaySource, hd x rfl, getD_some]
  | generated g =>
    cases read with
    | generated r =>
      simp only [ValueSource.withoutText, ValueSource.generated.injEq, Generated.mk.injEq, true_and] at h
      rw [overlaySource, hg g rfl, getD_some]
      cases g; cases r; simp_all
    | _ => simp only [ValueSource.withoutText, reduceCtorEq] at h
  | none => cases read <;> simp_all [ValueSource.withoutText, overlaySource]
  | identity i => cases read <;> simp_all [ValueSource.withoutText, overlaySource]
  | sequence i => cases read <;> simp_all [ValueSource.withoutText, overlaySource]

theorem withoutText_overlaySource : (overlaySource default generated read).withoutText = read.withoutText := by
  cases read <;> rfl

theorem overlaySource_again :
    overlaySource default generated (overlaySource default generated read) = overlaySource default generated read := by
  cases read with
  | default x => cases default <;> rfl
  | generated g => cases generated <;> rfl
  | none => rfl
  | identity i => rfl
  | sequence i => rfl

end Source

/-! ## Keys -/

section Keys

variable {C : Type} {key : C → IndexKey} {setKey : C → IndexKey → C}

/-- A key that can be read and set, and blanked. -/
structure KeyLaws (key : C → IndexKey) (setKey : C → IndexKey → C) : Prop where
  get : ∀ c k, key (setKey c k) = k
  same : ∀ c, setKey c (key c) = c
  twice : ∀ c k l, setKey (setKey c k) l = setKey c l

def blankKey (key : C → IndexKey) (setKey : C → IndexKey → C) (c : C) : C := setKey c (key c).withoutText

theorem KeyLaws.setKey_of_blank (hl : KeyLaws key setKey) {r s : C} (h : blankKey key setKey r = blankKey key setKey s) :
    setKey r (key s) = s := by
  have := congrArg (setKey · (key s)) h
  simp only [blankKey, hl.twice, hl.same] at this
  exact this

theorem KeyLaws.withoutText_of_blank (hl : KeyLaws key setKey) {r s : C}
    (h : blankKey key setKey r = blankKey key setKey s) : (key r).withoutText = (key s).withoutText := by
  have := congrArg key h
  simpa only [blankKey, hl.get] using this

variable {r s l : List C} {a b : IndexKey}

section

variable (h : a.withoutText = b.withoutText)
include h

theorem isSome_expression_of_withoutText : a.expression?.isSome = b.expression?.isSome := by
  cases a <;> cases b <;> simp_all [IndexKey.withoutText, IndexKey.expression?]

theorem eq_of_withoutText (hb : b.expression? = none) : a = b := by
  cases a <;> cases b <;> simp_all [IndexKey.withoutText, IndexKey.expression?]

theorem overlayKey_expression : overlayKey b.expression? a = b := by
  cases a <;> cases b <;> simp_all [IndexKey.withoutText, IndexKey.expression?, overlayKey]

end

theorem sameShape_iff : ∀ {d : List (Option String)} {keys : List IndexKey},
    sameShape d keys = true ↔ List.Forall₂ (fun t k => t.isSome = k.expression?.isSome) d keys
  | [], [] => by simp [sameShape]
  | [], _ :: _ => by simp [sameShape]
  | _ :: _, [] => by simp [sameShape]
  | t :: d, k :: keys => by
    rw [List.forall₂_cons, ← sameShape_iff]
    simp only [sameShape, List.length_cons, List.zip_cons_cons, List.all_cons, Bool.and_eq_true, beq_iff_eq,
      Nat.add_right_cancel_iff]
    tauto

variable {t : Option String} {k : IndexKey} {d : List (Option String)} {declared : Option (List (Option String))}

theorem withoutText_overlayKey (h : t.isSome = k.expression?.isSome) :
    (overlayKey t k).withoutText = k.withoutText := by
  cases t <;> cases k <;> simp_all [IndexKey.withoutText, IndexKey.expression?, overlayKey]

theorem overlayKey_again : overlayKey t (overlayKey t k) = overlayKey t k := by
  cases t <;> rfl

section

variable (hl : KeyLaws key setKey) (h : List.Forall₂ (fun a b => blankKey key setKey a = blankKey key setKey b) r s)
include hl h

theorem zipWith_overlayKey_restores :
    List.zipWith (fun text c => setKey c (overlayKey text (key c))) ((s.map key).map IndexKey.expression?) r = s := by
  induction h with
  | nil => rfl
  | cons hab _ ih =>
    have hk := overlayKey_expression (hl.withoutText_of_blank hab)
    rw [List.map_cons, List.map_cons, List.zipWith_cons_cons, hk, hl.setKey_of_blank hab, ih]

theorem eq_of_blank_of_columns (hs : ∀ c ∈ s, (key c).expression? = none) : r = s := by
  induction h with
  | nil => rfl
  | @cons a b _ _ hab _ ih =>
    rw [List.forall_mem_cons] at hs
    have hk : key a = key b := eq_of_withoutText (hl.withoutText_of_blank hab) hs.1
    have hself := hl.setKey_of_blank hab
    rw [← hk, hl.same] at hself
    rw [hself, ih hs.2]

end

theorem overlayKeys_restores (hl : KeyLaws key setKey) (h : r.map (blankKey key setKey) = s.map (blankKey key setKey)) :
    overlayKeys key setKey (keysText (s.map key)) r = s := by
  have hall : List.Forall₂ (fun a b => blankKey key setKey a = blankKey key setKey b) r s := by
    rwa [← List.forall₂_map_right_iff, ← List.forall₂_map_left_iff, List.forall₂_eq_eq_eq]
  unfold keysText
  split
  · -- Some key is an expression, so every key is recorded and the shapes agree.
    have hshape : sameShape ((s.map key).map IndexKey.expression?) (r.map key) = true := by
      rw [sameShape_iff, List.forall₂_map_right_iff, List.map_map, List.forall₂_map_left_iff]
      exact hall.flip.imp fun b a hab => (isSome_expression_of_withoutText (hl.withoutText_of_blank hab)).symm
    rw [overlayKeys, if_pos hshape]
    exact zipWith_overlayKey_restores hl hall
  · next hno =>
    refine eq_of_blank_of_columns hl hall fun c hc => ?_
    rw [Bool.not_eq_true, List.any_eq_false] at hno
    simpa using hno (key c) (List.mem_map_of_mem hc)

theorem overlayKeys_some (d : List (Option String)) (l : List C) : overlayKeys key setKey (some d) l =
    if sameShape d (l.map key) then List.zipWith (fun text c => setKey c (overlayKey text (key c))) d l else l := rfl

section

variable (hl : KeyLaws key setKey)
include hl

theorem blank_zipWith_overlayKey (h : List.Forall₂ (fun t c => t.isSome = (key c).expression?.isSome) d l) :
    (List.zipWith (fun text c => setKey c (overlayKey text (key c))) d l).map (blankKey key setKey) =
      l.map (blankKey key setKey) := by
  induction h with
  | nil => rfl
  | cons hab _ ih =>
    rw [List.zipWith_cons_cons, List.map_cons, List.map_cons, ih]
    simp only [blankKey, hl.get, hl.twice, withoutText_overlayKey hab]

theorem blank_overlayKeys : (overlayKeys key setKey declared l).map (blankKey key setKey) = l.map (blankKey key setKey) := by
  cases declared with
  | none => rfl
  | some d =>
    rw [overlayKeys_some]
    split
    · next h =>
      rw [sameShape_iff, List.forall₂_map_right_iff] at h
      exact blank_zipWith_overlayKey hl h
    · rfl

theorem zipWith_overlayKey_again (h : List.Forall₂ (fun t c => t.isSome = (key c).expression?.isSome) d l) :
    List.Forall₂ (fun t c => t.isSome = (key c).expression?.isSome) d
        (List.zipWith (fun text c => setKey c (overlayKey text (key c))) d l) ∧
      List.zipWith (fun text c => setKey c (overlayKey text (key c))) d
        (List.zipWith (fun text c => setKey c (overlayKey text (key c))) d l) =
      List.zipWith (fun text c => setKey c (overlayKey text (key c))) d l := by
  induction h with
  | nil => exact ⟨.nil, rfl⟩
  | cons hab _ ih =>
    obtain ⟨ih1, ih2⟩ := ih
    rw [List.zipWith_cons_cons, List.zipWith_cons_cons, ih2]
    simp only [hl.get, hl.twice, overlayKey_again]
    refine ⟨.cons ?_ ih1, trivial⟩
    rw [hl.get, hab, isSome_expression_of_withoutText (withoutText_overlayKey hab)]

theorem overlayKeys_again :
    overlayKeys key setKey declared (overlayKeys key setKey declared l) = overlayKeys key setKey declared l := by
  cases declared with
  | none => rfl
  | some d =>
    by_cases hs : sameShape d (l.map key) = true
    · have hall := hs
      rw [sameShape_iff, List.forall₂_map_right_iff] at hall
      obtain ⟨h1, h2⟩ := zipWith_overlayKey_again hl hall
      have hagain := sameShape_iff.2 (List.forall₂_map_right_iff.2 h1)
      rw [overlayKeys_some, overlayKeys_some, if_pos hs, if_pos hagain, h2]
    · rw [overlayKeys_some, overlayKeys_some, if_neg hs, if_neg hs]

end

theorem indexColumn_laws : KeyLaws (fun c : IndexColumn => c.key) fun c k => { c with key := k } :=
  ⟨fun _ _ => rfl, fun _ => rfl, fun _ _ _ => rfl⟩

theorem exclusionKey_laws :
    KeyLaws (fun c : ExclusionKey => c.key.key) fun c k => { c with key := { c.key with key := k } } :=
  ⟨fun _ _ => rfl, fun _ => rfl, fun _ _ _ => rfl⟩

end Keys

/-! ## Types -/

section Types

variable {d t s : ManagedType}

theorem overlayType_restores (h : t.withoutTexts = s.withoutTexts) : overlayType s t = s := by
  cases s with
  | enum values =>
    cases t with
    | enum values' => exact h
    | domain => simp [ManagedType.withoutTexts] at h
  | domain base notNull default checks collation =>
    cases t with
    | enum values => simp [ManagedType.withoutTexts] at h
    | domain base' notNull' default' checks' collation' =>
      simp only [ManagedType.withoutTexts, ManagedType.domain.injEq] at h
      obtain ⟨rfl, rfl, hd, hc, rfl⟩ := h
      have hchecks : (checks'.map fun key value => (checks[key]?).getD value) = checks :=
        map_eq_of_map_eq (e := fun _ => "") hc fun k v w hw _ => by rw [hw, getD_some]
      rw [overlayType, hchecks]
      cases default <;> cases default' <;> simp_all [present, projectsCopiedDefault]

def omitCopied (definition : Option ManagedType) (catalog : ManagedType) : ManagedType :=
  match definition, catalog with
  | some d, .domain base notNull default checks collation =>
    .domain base notNull (if projectsCopiedDefault d catalog then none else default) checks collation
  | _, t => t

theorem withoutTexts_overlayType : (overlayType d t).withoutTexts = (omitCopied (some d) t).withoutTexts := by
  cases t with
  | enum values => cases d <;> rfl
  | domain base notNull default checks collation =>
    cases d with
    | enum values => simp [overlayType, omitCopied, projectsCopiedDefault, ManagedType.withoutTexts]
    | domain base' notNull' default' checks' collation' =>
      simp only [overlayType, omitCopied, ManagedType.withoutTexts, ManagedType.domain.injEq, true_and, and_true,
        map_map_eq]
      cases default <;> cases default' <;> simp [present, projectsCopiedDefault]

theorem overlayType_again : overlayType d (overlayType d t) = overlayType d t := by
  cases t with
  | enum values => cases d <;> rfl
  | domain base notNull default checks collation =>
    cases d with
    | enum values => rfl
    | domain base' notNull' default' checks' collation' =>
      simp only [overlayType, ManagedType.domain.injEq, true_and, and_true, map_map_eq]
      refine ⟨?_, ExtTreeMap.map_congr fun k v _ => ?_⟩
      · cases default <;> cases default' <;> simp [projectsCopiedDefault]
        split <;> simp_all
      · cases checks'[k]? <;> rfl

end Types

/-! ## Tables -/

section Tables

theorem getElem?_columnTexts (t : Table) (text : ValueSource → Option String) (c : ColumnName) :
    (columnTexts t text)[c]? = (t.columns.lookup c).bind fun s => text s.valueSource := by
  cases hc : t.columns.lookup c with
  | some s =>
    have hmem : (c, s) ∈ t.columnList := mem_columnList.2 hc
    rw [columnTexts, getElem?_ofList_filterMap (nodup_columnList t) _ hmem, Option.map_map]
    · simp [Function.comp_def]
    · intro e w hw
      obtain ⟨v, -, rfl⟩ := map_eq_some_iff.1 hw
      rfl
  | none =>
    rw [bind_none, eq_none_iff_forall_ne_some]
    intro v hv
    obtain ⟨⟨c', s⟩, hmem, hv⟩ := List.mem_filterMap.1 (mem_of_getElem?_ofList hv)
    obtain ⟨w, -, he⟩ := map_eq_some_iff.1 hv
    cases he
    rw [mem_columnList.1 hmem] at hc
    cases hc

theorem getElem?_ownDefaults (t : Table) (c : ColumnName) : (ownDefaults t)[c]? = ((ownColumns t)[c]?).bind (·.default) := by
  rw [ownDefaults, getElem?_filterMap']

theorem getElem?_defaultsOf (t : Table) (c : ColumnName) : (defaultsOf t)[c]? =
    (((ownColumns t)[c]?).bind (·.default)).or ((t.columns.lookup c).bind fun s => s.valueSource.default?) := by
  rw [defaultsOf, getElem?_union, getElem?_ownDefaults, getElem?_columnTexts]

/-- No column has a default of its own and one that the table has as a partition: a partition has no column. -/
def OwnDefaultsApart (t : Table) : Prop :=
  ∀ c own text, (ownColumns t)[c]? = some own → own.default = some text →
    ((t.columns.lookup c).bind fun s => s.valueSource.default?) = none

variable {tables : ExtTreeMap TableName Table} {name : TableName} {t s : Table}

theorem overlayColumns_restores {columns : IndexMap ColumnName Column} (hapart : OwnDefaultsApart s)
    (h : (columns.mapValues fun _ c => c.withoutText) = s.columns.mapValues fun _ c => c.withoutText) :
    (columns.mapValues fun c x => { x with
      valueSource := overlaySource (defaultsOf s)[c]? (generatedOf s)[c]? x.valueSource }) = s.columns := by
  refine AList.mapValues_eq_of_mapValues_eq h fun c x y hy hxy => ?_
  obtain ⟨ty, nullable, source, collation, description, deprecated⟩ := x
  obtain ⟨ty', nullable', source', collation', description', deprecated'⟩ := y
  simp only [Column.withoutText, Column.mk.injEq] at hxy ⊢
  obtain ⟨rfl, rfl, hsource, rfl, rfl, rfl⟩ := hxy
  refine ⟨rfl, rfl, overlaySource_restores hsource ?_ ?_, rfl, rfl, rfl⟩
  · rintro x rfl
    have hown : ((ownColumns s)[c]?).bind (·.default) = none := by
      rw [bind_eq_none_iff]
      intro own ho
      cases hd : own.default with
      | none => rfl
      | some text =>
        have hnone := hapart c own text ho hd
        rw [hy] at hnone
        cases hnone
    rw [getElem?_defaultsOf, hown, hy]
    rfl
  · rintro g rfl
    rw [generatedOf, getElem?_columnTexts, hy]
    rfl

theorem overlayPartition_restores {p : Option PartitionOf} (hapart : OwnDefaultsApart s)
    (h : p.map PartitionOf.withoutTexts = s.partitionOf.map PartitionOf.withoutTexts) :
    (p.map fun q : PartitionOf => { q with columns := q.columns.map fun c own => { own with
      default := overlayText (defaultsOf s)[c]? own.default } }) = s.partitionOf := by
  cases hs : s.partitionOf with
  | none =>
    rw [hs, map_none, map_eq_none_iff] at h
    rw [h, map_none]
  | some q =>
    rw [hs, map_some, map_eq_some_iff] at h
    obtain ⟨p, rfl, hpq⟩ := h
    obtain ⟨parent, bound, columns⟩ := p
    obtain ⟨parent', bound', columns'⟩ := q
    simp only [PartitionOf.withoutTexts, PartitionOf.mk.injEq] at hpq
    obtain ⟨rfl, rfl, hcolumns⟩ := hpq
    have hown : ownColumns s = columns' := by rw [ownColumns, hs]
    simp only [map_some, some.injEq, PartitionOf.mk.injEq, true_and]
    refine map_eq_of_map_eq (e := PartitionColumn.withoutText) hcolumns fun c x y hy hxy => ?_
    obtain ⟨default, notNull⟩ := x
    obtain ⟨default', notNull'⟩ := y
    simp only [PartitionColumn.withoutText, PartitionColumn.mk.injEq] at hxy ⊢
    obtain ⟨hdefault, rfl⟩ := hxy
    refine ⟨?_, rfl⟩
    rw [getElem?_defaultsOf, hown, hy, bind_some]
    cases hd : default' with
    | none =>
      rw [hd, present, present, map_none, map_eq_none_iff] at hdefault
      rw [hdefault, overlayText]
    | some text =>
      rw [hapart c _ text (by rw [hown]; exact hy) hd, some_or, ← hd]
      exact overlayText_restores hdefault

theorem overlayPolicy_restores {x y : RowPolicy} (h : x.withoutTexts = y.withoutTexts) :
    overlayPolicy (some (DeclaredPolicyExpressions.ofPolicy y)) x = y := by
  obtain ⟨command, restrictive, to_, using_, withCheck⟩ := x
  obtain ⟨command', restrictive', to', using', withCheck'⟩ := y
  simp only [RowPolicy.withoutTexts, RowPolicy.mk.injEq] at h
  obtain ⟨rfl, rfl, rfl, h1, h2⟩ := h
  simp only [overlayPolicy, DeclaredPolicyExpressions.ofPolicy, RowPolicy.mk.injEq, true_and]
  exact ⟨overlayPredicate_restores h1, overlayPredicate_restores h2⟩

theorem overlayIndex_restores {x y : Index} (h : x.withoutTexts = y.withoutTexts) :
    overlayIndex y.filter (keysText (y.columns.map (·.key))) x = y := by
  obtain ⟨columns, include_, unique, filter, method, parameters⟩ := x
  obtain ⟨columns', include', unique', filter', method', parameters'⟩ := y
  simp only [Index.withoutTexts, Index.mk.injEq] at h
  obtain ⟨hcolumns, rfl, rfl, hfilter, rfl, rfl⟩ := h
  simp only [overlayIndex, Index.mk.injEq, true_and, and_true]
  exact ⟨overlayKeys_restores indexColumn_laws hcolumns, overlayText_restores hfilter⟩

variable {x : ExclusionConstraint}

theorem overlayExclusion_restores {y : ExclusionConstraint} (h : x.withoutTexts = y.withoutTexts) :
    overlayExclusion y.filter (keysText (y.keys.map (·.key.key))) x = y := by
  obtain ⟨method, keys, include_, filter, parameters, timing⟩ := x
  obtain ⟨method', keys', include', filter', parameters', timing'⟩ := y
  simp only [ExclusionConstraint.withoutTexts, ExclusionConstraint.mk.injEq] at h
  obtain ⟨rfl, hkeys, rfl, hfilter, rfl, rfl⟩ := h
  simp only [overlayExclusion, ExclusionConstraint.mk.injEq, true_and, and_true]
  exact ⟨overlayKeys_restores exclusionKey_laws hkeys, overlayText_restores hfilter⟩

theorem overlayTable_restores (hs : tables[name]? = some s) (hapart : OwnDefaultsApart s)
    (h : t.withoutTexts = s.withoutTexts) : overlayTable (expressionsOf tables) name t = s := by
  have hval : ∀ {K V : Type} [Ord K] [Std.TransOrd K] (f : Table → ExtTreeMap K V) (k : K),
      Nested.value (Nested.ofMap tables f) name k = (f s)[k]? := by
    intro K V _ _ f k
    rw [Nested.value_ofMap, hs, bind_some]
  cases t with | mk tdesc tcols tcomp tpk tuniq tfk tchecks tidx texcl tclus trep tsto tunl trs tpol tsys tpby tpof tdata
  cases s with | mk sdesc scols scomp spk suniq sfk schecks sidx sexcl sclus srep ssto sunl srs spol ssys spby spof sdata
  simp only [Table.withoutTexts, Table.mk.injEq] at h
  obtain ⟨rfl, hcols, hcomp, rfl, rfl, rfl, hchecks, hidx, hexcl, rfl, rfl, rfl, rfl, rfl, hpol, rfl, rfl, hpof, rfl⟩ := h
  simp only [overlayTable, Table.mk.injEq, true_and, and_true, expressionsOf, hval]
  refine ⟨overlayColumns_restores hapart hcols, ?_, ?_, ?_, ?_, ?_, overlayPartition_restores hapart hpof⟩
  · refine map_eq_of_map_eq (e := fun x : ComputedColumn => { x with expression := "" }) hcomp
      fun c x y hy hxy => ?_
    rw [computedOf, getElem?_map, hy]
    cases x; cases y; simp_all
  · refine map_eq_of_map_eq (e := fun x : CheckConstraint => { x with expression := "" }) hchecks
      fun c x y hy hxy => ?_
    rw [checksOf, getElem?_map, hy]
    rfl
  · refine map_eq_of_map_eq (e := Index.withoutTexts) hidx fun c x y hy hxy => ?_
    rw [filtersOf, keysOf, getElem?_filterMap', getElem?_filterMap', hy]
    exact overlayIndex_restores hxy
  · refine map_eq_of_map_eq (e := ExclusionConstraint.withoutTexts) hexcl fun c x y hy hxy => ?_
    rw [exclusionFiltersOf, exclusionKeysOf, getElem?_filterMap', getElem?_filterMap', hy]
    exact overlayExclusion_restores hxy
  · refine map_eq_of_map_eq (e := RowPolicy.withoutTexts) hpol fun c x y hy hxy => ?_
    rw [policiesOf, getElem?_map, hy]
    exact overlayPolicy_restores hxy

variable {p : RowPolicy} {declared : Option DeclaredPolicyExpressions} {ix : Index}

theorem withoutTexts_overlayPolicy :
    (overlayPolicy declared p).withoutTexts = p.withoutTexts := by
  cases declared with
  | none => rfl
  | some d => simp only [overlayPolicy, RowPolicy.withoutTexts, present_overlayPredicate]

theorem overlayPolicy_again : overlayPolicy declared (overlayPolicy declared p) = overlayPolicy declared p := by
  cases declared with
  | none => rfl
  | some d => simp only [overlayPolicy, overlayPredicate_again]

variable {filter : Option String} {keys : Option (List (Option String))}

theorem withoutTexts_overlayIndex : (overlayIndex filter keys ix).withoutTexts = ix.withoutTexts := by
  simp only [overlayIndex, Index.withoutTexts, present_overlayText, Index.mk.injEq, and_true]
  exact blank_overlayKeys indexColumn_laws

theorem overlayIndex_again : overlayIndex filter keys (overlayIndex filter keys ix) = overlayIndex filter keys ix := by
  simp only [overlayIndex, overlayText_again, overlayKeys_again indexColumn_laws]

theorem withoutTexts_overlayExclusion :
    (overlayExclusion filter keys x).withoutTexts = x.withoutTexts := by
  simp only [overlayExclusion, ExclusionConstraint.withoutTexts, present_overlayText, ExclusionConstraint.mk.injEq,
    true_and, and_true]
  exact blank_overlayKeys exclusionKey_laws

theorem overlayExclusion_again :
    overlayExclusion filter keys (overlayExclusion filter keys x) = overlayExclusion filter keys x := by
  simp only [overlayExclusion, overlayText_again, overlayKeys_again exclusionKey_laws]

variable (e : DeclaredExpressions) (name : TableName) (t : Table)

theorem withoutTexts_overlayTable :
    (overlayTable e name t).withoutTexts = t.withoutTexts := by
  have hpartition : ∀ p : PartitionOf, PartitionOf.withoutTexts { p with columns := p.columns.map fun c own =>
      { own with default := overlayText (Nested.value e.defaults name c) own.default } } = p.withoutTexts := by
    intro p
    simp only [PartitionOf.withoutTexts, PartitionColumn.withoutText, map_map_eq, present_overlayText]
  simp only [overlayTable, Table.withoutTexts, AList.mapValues_mapValues, map_map_eq, Option.map_map,
    withoutTexts_overlayPolicy, withoutTexts_overlayIndex, withoutTexts_overlayExclusion, Column.withoutText,
    withoutText_overlaySource, Function.comp_def, hpartition]

theorem overlayTable_again : overlayTable e name (overlayTable e name t) = overlayTable e name t := by
  have htext : ∀ (d : Option String) x, d.getD (d.getD x) = d.getD x := fun d x => by cases d <;> rfl
  simp only [overlayTable, AList.mapValues_mapValues, map_map_eq, Option.map_map, overlayPolicy_again,
    overlayIndex_again, overlayExclusion_again, overlaySource_again, Function.comp_def, overlayText_again, htext]

end Tables

/-! ## Schemas -/

section Schemas

variable (d : Declared) (s readBack : Schema)

/-- The read-back less the defaults of derived domains that the record omits as copied. -/
def lessCopied : Schema :=
  { readBack with types := readBack.types.map fun name t => omitCopied d.types[name]? t }

def Apart : Prop := ∀ (name : TableName) t, s.tables[name]? = some t → OwnDefaultsApart t

theorem fromSchema_overlay (hapart : Apart s) (h : readBack.withoutTexts = s.withoutTexts) :
    (fromSchema s).overlay readBack = s := by
  obtain ⟨tables, types, extensions, modules, roles⟩ := s
  obtain ⟨tables', types', extensions', modules', roles'⟩ := readBack
  simp only [Schema.withoutTexts, Schema.mk.injEq] at h
  obtain ⟨htables, htypes, rfl, hmodules, rfl⟩ := h
  simp only [overlay, fromSchema, Schema.mk.injEq, true_and, and_true]
  refine ⟨?_, ?_, ?_⟩
  · exact map_eq_of_map_eq (e := Table.withoutTexts) htables fun name t u hu htu =>
      overlayTable_restores hu (hapart name u hu) htu
  · refine map_eq_of_map_eq (e := ManagedType.withoutTexts) htypes fun name t u hu htu => ?_
    rw [hu, map_some, getD_some]
    exact overlayType_restores htu
  · refine map_eq_of_map_eq (e := fun m : Module => { m with definition := "" }) hmodules
      fun id m n hn hmn => ?_
    rw [getElem?_map, hn]
    cases m; cases n; simp_all

theorem withoutTexts_overlay : (d.overlay readBack).withoutTexts = (d.lessCopied readBack).withoutTexts := by
  have htype : ∀ (definition : Option ManagedType) t, ((definition.map fun d => overlayType d t).getD t).withoutTexts =
      (omitCopied definition t).withoutTexts := by
    intro definition t
    cases definition with
    | none => rfl
    | some d => exact withoutTexts_overlayType
  simp only [overlay, lessCopied, Schema.withoutTexts, map_map_eq, withoutTexts_overlayTable, htype]

theorem overlay_again : d.overlay (d.overlay readBack) = d.overlay readBack := by
  have htype : ∀ (definition : Option ManagedType) t,
      (definition.map fun d => overlayType d ((definition.map fun d => overlayType d t).getD t)).getD
          ((definition.map fun d => overlayType d t).getD t) =
        (definition.map fun d => overlayType d t).getD t := by
    intro definition t
    cases definition with
    | none => rfl
    | some d => exact overlayType_again
  have htext : ∀ (text : Option String) x, text.getD (text.getD x) = text.getD x := fun text x => by cases text <;> rfl
  simp only [overlay, map_map_eq, overlayTable_again, htype, htext]

/-- What was declared is put back over its read-back, over any other the record changes texts alone, less a
default it omits as copied, and once is enough. -/
theorem overlay_restores_declared :
    (∀ s readBack : Schema, Apart s → readBack.withoutTexts = s.withoutTexts → (fromSchema s).overlay readBack = s) ∧
    (∀ (d : Declared) (readBack : Schema), (d.overlay readBack).withoutTexts = (d.lessCopied readBack).withoutTexts) ∧
    ∀ (d : Declared) (readBack : Schema), d.overlay (d.overlay readBack) = d.overlay readBack :=
  ⟨fun s readBack hapart h => fromSchema_overlay s readBack hapart h, withoutTexts_overlay, overlay_again⟩

end Schemas

section Respelled

/-- A table of one column, its default as given, and a partition's own default on the same column. -/
def stampedTable (default : String) (own : Option String) : Table :=
  { columns := (∅ : IndexMap ColumnName Column).insert "at_" { ty := { base := "timestamp" }, valueSource := .default default }
    partitionOf := own.map fun text =>
      { parent := ⟨"app", "stamps"⟩, bound := .default
        columns := (∅ : ExtTreeMap ColumnName PartitionColumn).insert "at_" { default := some text } } }

def stampedSchema (default : String) (own : Option String) : Schema :=
  { tables := (∅ : ExtTreeMap TableName Table).insert ⟨"app", "stamps_new"⟩ (stampedTable default own) }

theorem overlay_restores_stamped : (fromSchema (stampedSchema "now()" none)).overlay (stampedSchema "CURRENT_TIMESTAMP" none) =
      stampedSchema "now()" none := by
  refine overlay_restores_declared.1 _ _ ?_ rfl
  intro name t ht c own text hown
  rw [stampedSchema, getElem?_insert_eq_some] at ht
  obtain ⟨-, rfl⟩ := ht.resolve_right (by simp)
  simp [stampedTable, ownColumns] at hown

def derivedSchema (default : Option String) : Schema :=
  { types := (∅ : ExtTreeMap TypeRef ManagedType).insert ⟨"app", "code"⟩
      (.domain { base := "app.text_code", user := some ⟨"app", "text_code"⟩ } false default ∅ none) }

/-- A record without the default that the catalog copied to a derived domain takes it away, and a default
under a name that a column and a partition both have is one of the two for both. -/
theorem overlay_omits_copied :
    (¬ ∀ (d : Declared) (readBack : Schema), (d.overlay readBack).withoutTexts = readBack.withoutTexts) ∧
    ¬ ∀ s readBack : Schema, readBack.withoutTexts = s.withoutTexts → (fromSchema s).overlay readBack = s := by
  refine ⟨fun h => ?_, fun h => ?_⟩
  · have := h (fromSchema (derivedSchema none)) (derivedSchema (some "'none'"))
    revert this
    decide
  · have hsame := h (stampedSchema "now()" (some "'epoch'")) (stampedSchema "now()" (some "'epoch'")) rfl
    -- The column is read back with its own default, and gets the partition's.
    have hcolumn := congrArg (fun s : Schema => s.tables[(⟨"app", "stamps_new"⟩ : TableName)]?.map
      fun t => t.columns.lookup "at_") hsame
    revert hcolumn
    decide +kernel

end Respelled

end Declared

end Pbps
