/-
What the passes of a comparison make. Most of them make changes that rename nothing, name no role and carry no table. The
renames of a plan are of what both identity files hold under one uid and two names.
-/
import Pbps.Diff.Plan
import Pbps.Diff.LabelSteps

namespace Pbps.Diff

open Std (ExtTreeMap ExtTreeSet)
open List Option

/-- Changes that rename nothing, name no role, carry no table and rewrite none. -/
def Quiet : Change → Prop
  | .rebuildPartitionedTable _ | .createTable _ _ _ _ _ | .detachPartition _ _ _ _ _ | .attachPartition _ _ _ _ _ _
  | .createPolicy _ _ _ _ | .dropPolicy _ _ _ | .createRole _ _ | .dropRole _ _ _ | .grant _ _ _ | .revoke _ _ _
  | .renameTable _ _ _ _ | .renameColumn _ _ _ _ _ | .renameType _ _ _ _ | .renameRole _ _ _ => False
  | _ => True

attribute [local simp] Quiet

def Each (p : Change → Prop) (l : List Change) : Prop := ∀ c ∈ l, p c

section Each

variable {p q : Change → Prop}

variable {l : List Change} {A : Type}

theorem Each.imp (hpq : ∀ c, p c → q c) (h : Each p l) : Each q l := fun c hc => hpq c (h c hc)

@[simp] theorem each_nil : Each p [] := forall_mem_nil _

variable {c : Change} {m : List Change} {w : Prop}

@[simp] theorem each_cons : Each p (c :: l) ↔ p c ∧ Each p l := forall_mem_cons

@[simp] theorem each_append : Each p (l ++ m) ↔ Each p l ∧ Each p m := forall_mem_append

@[simp] theorem each_flatMap {l : List A} {g : A → List Change} : Each p (l.flatMap g) ↔ ∀ a ∈ l, Each p (g a) := by
  simp only [Each, mem_flatMap]
  exact ⟨fun h a ha c hc => h c ⟨a, ha, hc⟩, fun h c ⟨a, ha, hc⟩ => h a ha c hc⟩

@[simp] theorem each_map {l : List A} {g : A → Change} : Each p (l.map g) ↔ ∀ a ∈ l, p (g a) := by
  simp [Each]

@[simp] theorem each_filterMap {l : List A} {g : A → Option Change} :
    Each p (l.filterMap g) ↔ ∀ a ∈ l, ∀ c, g a = some c → p c := by
  simp only [Each, mem_filterMap]
  exact ⟨fun h a ha c hc => h c ⟨a, ha, hc⟩, fun h c ⟨a, ha, hc⟩ => h a ha c hc⟩

theorem Each.filter (h : Each p l) (q : Change → Bool) : Each p (l.filter q) :=
  fun c hc => h c (mem_of_mem_filter hc)

@[simp] theorem each_toList {o : Option Change} : Each p o.toList ↔ ∀ c, o = some c → p c := by
  cases o <;> simp

@[simp] theorem each_changeIf {w : Bool} : Each p (Out.changeIf w c).changes ↔ (w = true → p c) := by
  cases w <;> simp [Out.changeIf]

@[simp] theorem each_forEach {l : List A} {g : A → Out} :
    Each p (Out.forEach l g).changes ↔ ∀ a ∈ l, Each p (g a).changes := each_flatMap

@[simp] theorem each_ite [Decidable w] : Each p (if w then l else m) ↔ (w → Each p l) ∧ (¬ w → Each p m) := by
  split
  · next hw => exact ⟨fun h => ⟨fun _ => h, fun hn => absurd hw hn⟩, fun h => h.1 hw⟩
  · next hw => exact ⟨fun h => ⟨fun hc => absurd hc hw, fun _ => h⟩, fun h => h.2 hw⟩

@[simp] theorem each_ite_out [Decidable w] {a b : Out} :
    Each p (if w then a else b).changes ↔ (w → Each p a.changes) ∧ (¬ w → Each p b.changes) := by
  rw [apply_ite Out.changes, each_ite]

theorem each_foldl {step : List Change → A → List Change} (h : ∀ acc a, Each p acc → Each p (step acc a)) :
    ∀ (l : List A) {acc : List Change}, Each p acc → Each p (l.foldl step acc)
  | [], _, hacc => hacc
  | a :: l, acc, hacc => each_foldl h l (h acc a hacc)

end Each

/-- What holds of each quiet change, and of the renames of what two files hold under one uid and two names. -/
structure Admits (base declared : IdsFile) (p : Change → Prop) : Prop where
  quiet : ∀ c, Quiet c → p c
  table : ∀ (uid : Uid) was now columns, base.tables[uid]? = some was → declared.tables[uid]? = some now → was ≠ now →
    p (.renameTable uid was now columns)
  column : ∀ (uid : Uid) was now table prior, base.columns[uid]? = some was → declared.columns[uid]? = some now →
    was.name ≠ now.name → p (.renameColumn uid table was.name now.name prior)
  type : ∀ (uid : Uid) was now definition, base.types[uid]? = some was → declared.types[uid]? = some now → was ≠ now →
    p (.renameType uid was now definition)

/-! ## Columns and parts -/

section Parts

variable (dialect : Dialect) (name : TableName) (base declared : Table)

variable {uid : Uid} {at_ : ColumnRef}

variable {toTy : ColumnType} {types : TypeResolver} {conversions : ExtTreeMap Uid Conversion}

theorem quiet_numbering {from_ to_ : ValueSource} :
    Each Quiet (numbering dialect base declared uid at_ toTy from_ to_).changes := by
  simp [numbering]

theorem quiet_sourceDelta {was now : ValueSource} {fromTy : ColumnType} :
    Each Quiet (sourceDelta dialect base declared uid at_ was now fromTy toTy).out.changes := by
  unfold sourceDelta
  split
  case h_6 =>
    split
    · simp
    · split <;> simp
  all_goals simp [quiet_numbering]

theorem quiet_diffColumn {renamed : Bool} {was col : Column} :
    Each Quiet (diffColumn dialect base declared uid at_ types conversions renamed was col).changes := by
  have hrecorded : ∀ fromTy toTy, Each Quiet (recordedUsing dialect uid at_ conversions renamed fromTy toTy).2.changes := by
    intro fromTy toTy
    unfold recordedUsing
    split
    · simp
    · split
      · split <;> simp
      · simp
  have htype : ∀ fromTy toTy retyped recomputed using_,
      Each Quiet (diffColumnType uid at_ was col fromTy toTy retyped recomputed using_).changes := by
    intro fromTy toTy retyped recomputed using_
    unfold diffColumnType
    split <;> simp
  have hdefault : ∀ old new retyped converting, Each Quiet (diffColumnDefault uid at_ old new retyped converting).changes := by
    intro old new retyped converting
    unfold diffColumnDefault
    split <;> simp
  unfold diffColumn
  simp only [Out.append_changes, each_append, hrecorded, htype, hdefault, quiet_sourceDelta, each_changeIf, true_and]
  exact fun _ => trivial

theorem each_diffColumns {p : Change → Prop} (hquiet : ∀ c, Quiet c → p c) {baseName declaredName : TableName}
    {baseCols declaredCols : ExtTreeMap Uid ColumnRef}
    (hrename : ∀ (uid : Uid) (was now : ColumnRef) prior, baseCols[uid]? = some was → declaredCols[uid]? = some now → was.name ≠ now.name →
      p (.renameColumn uid declaredName was.name now.name prior)) :
    Each p (diffColumns dialect types conversions baseName declaredName base declared baseCols declaredCols).changes := by
  have hcolumn : ∀ uid ref, declaredCols[uid]? = some ref →
      Each p (diffDeclaredColumn dialect types conversions baseName declaredName base declared baseCols uid ref).changes := by
    intro uid ref href
    unfold diffDeclaredColumn
    split
    · refine Each.imp hquiet ?_
      split
      · simp
      · split <;> simp
    · next was hwas =>
      rw [Out.append_changes, each_append, each_changeIf]
      refine ⟨fun hne => hrename uid was ref _ hwas href (of_decide_eq_true hne), Each.imp hquiet ?_⟩
      split
      · exact quiet_diffColumn dialect base declared
      · simp
  unfold diffColumns
  rw [Out.append_changes, each_append, each_forEach]
  refine ⟨fun e he => hcolumn e.1 e.2 (ExtTreeMap.getElem?_of_mem_toList he), Each.imp hquiet ?_⟩
  simp

theorem quiet_byName {T : Type} {was now : ExtTreeMap ObjectLocalName T} {kept : ObjectLocalName → T → T → Option Out}
    {drop : ObjectLocalName → Change} {add : ObjectLocalName → T → Change}
    (hkept : ∀ n b d edit, kept n b d = some edit → Each Quiet edit.changes) (hdrop : ∀ n, Quiet (drop n))
    (hadd : ∀ n part, Quiet (add n part)) : Each Quiet (byName was now kept drop add).changes := by
  unfold byName
  rw [Out.append_changes, each_append, each_forEach, each_forEach]
  refine ⟨fun e _ => ?_, fun n _ => by simp [-Quiet, hdrop]⟩
  dsimp only
  split
  · next edit hedit =>
    obtain ⟨b, -, hkeep⟩ := bind_eq_some_iff.1 hedit
    exact hkept _ _ _ _ hkeep
  · simp [-Quiet, hdrop, hadd]

theorem quiet_diffParameters {policy : IndexMethod → String → ParameterChange} {target : IndexPart} {method : IndexMethod}
    {was now : Parameters} {out : Out} (h : diffParameters policy name declared target method was now = some out) :
    Each Quiet out.changes := by
  unfold diffParameters at h
  repeat' split at h
  all_goals
    cases h
    try simp

theorem quiet_diffConstraints : Each Quiet (diffConstraints name base declared).changes := by
  have hreplace : Each Quiet (replacePrimaryKey name base declared).changes := by simp [replacePrimaryKey]
  have hkey : Each Quiet (diffPrimaryKey IndexMethod.policy name base declared).changes := by
    unfold diffPrimaryKey
    split
    · exact hreplace
    · split
      · cases hout : diffParameters IndexMethod.policy name declared .primaryKey .btree _ _ with
        | none => exact hreplace
        | some out => exact quiet_diffParameters name declared hout
      · simp
  have hforeign : Each Quiet (diffForeignKeys name base declared).changes := by
    refine quiet_byName (fun n b d edit h => ?_) (fun _ => trivial) fun _ _ => trivial
    split at h <;> cases h
    simp
  have hchecks : Each Quiet (diffChecks name base declared).changes := by
    refine quiet_byName (fun n b d edit h => ?_) (fun _ => trivial) fun _ _ => trivial
    split at h <;> cases h
    simp
  have huniques : Each Quiet (diffUniques IndexMethod.policy name base declared).changes := by
    refine quiet_byName (fun n b d edit h => ?_) (fun _ => trivial) fun _ _ => trivial
    unfold keptUnique at h
    split at h
    · exact quiet_diffParameters name declared h
    · cases h
  have hindexes : Each Quiet (diffIndexes IndexMethod.policy name base declared).changes := by
    refine quiet_byName (fun n b d edit h => ?_) (fun _ => trivial) fun _ _ => trivial
    unfold keptIndex at h
    split at h
    · exact quiet_diffParameters name declared h
    · cases h
  unfold diffConstraints diffConstraintsBy
  simp only [Out.append_changes, each_append]
  exact ⟨⟨⟨⟨hkey, hforeign⟩, hchecks⟩, huniques⟩, hindexes⟩

theorem quiet_diffSettings {u : Uid} : Each Quiet (diffExclusions name base declared).changes ∧
    Each Quiet (diffComputed name base declared).changes ∧ Each Quiet (diffStorageParameters name base declared u).changes ∧
    Each Quiet (diffPersistence name base declared u).changes := by
  refine ⟨?_, ?_, ?_, ?_⟩
  · unfold diffExclusions
    rw [Out.append_changes, each_append, each_forEach, each_forEach]
    exact ⟨fun e _ => by simp, fun e _ => by simp⟩
  · simp [diffComputed]
  · simp [diffStorageParameters]
  · simp [diffPersistence]

theorem quiet_partitionDefault {parent : TableName} {column : ColumnName} {now was : Option Column} :
    Each Quiet (partitionDefault dialect parent column now was).2.changes := by
  unfold partitionDefault
  split
  · simp
  · dsimp only
    cases dialect.ownedSequenceDefault parent column _ <;> simp
  · simp

theorem quiet_diffPartitionColumns {was now : Side} :
    Each Quiet (diffPartitionColumns dialect uid name base declared was now).changes := by
  unfold diffPartitionColumns
  split
  · rw [each_forEach]
    intro column _
    unfold diffPartitionColumn
    dsimp only
    rw [Out.append_changes, each_append]
    constructor
    · split
      · simp [quiet_partitionDefault]
      · simp
    · simp
  · simp

theorem quiet_diffData {baseNameOf : ExtTreeMap ColumnName ColumnName} {plan : List Change} :
    Each Quiet (diffData name base declared baseNameOf plan).changes := by
  have hrow : ∀ keyColumn key row, Each Quiet (diffDeclaredRow name base declared baseNameOf keyColumn key row).changes := by
    intro keyColumn key row
    unfold diffDeclaredRow
    split <;> simp
  have hdelete : ∀ keyColumn data, Each Quiet (deleteRows name base declared baseNameOf keyColumn data).changes := by
    intro keyColumn data
    unfold deleteRows
    split <;> simp [deleteUndeclared]
  unfold diffData
  rw [Out.append_changes, each_append]
  refine ⟨by simp [diffDataMode], ?_⟩
  split
  · simp
  · simp
  · split
    · simp
    · simp [diffRows, hrow, hdelete]

end Parts

/-! ## Types and packages -/

section Types

variable (base desired : Side) (hints : Hints)

variable {uid : Uid} {name : TypeRef} {steps : List Change}

theorem quiet_rebuildType {r : Replacement} (h : rebuildType base desired hints uid name r = .ok steps) : Each Quiet steps := by
  unfold rebuildType at h
  split_ifs at h
  · exact nomatch h
  obtain ⟨columns, -, h⟩ := Except.bind_eq_ok_iff.1 h
  split at h
  · exact nomatch h
  cases h
  simp

theorem quiet_renameLabels : ∀ {fuel : Nat} {pending : ExtTreeMap String String} {run : LabelRun},
    Each Quiet run.changes → Each Quiet (renameLabels uid name fuel pending run).changes
  | 0, _, _, h => h
  | fuel + 1, pending, run, h => by
    rw [renameLabels]
    split
    · exact h
    · split
      · exact h
      · exact quiet_renameLabels (by simp [h])

theorem quiet_addLabels {wanted : List String} {run : LabelRun} (h : Each Quiet run.changes) :
    Each Quiet (addLabels uid name wanted run).changes := by
  unfold addLabels
  induction wanted.zipIdx generalizing run with
  | nil => exact h
  | cons e l ih =>
    rw [foldl_cons]
    refine ih ?_
    dsimp only
    split
    · exact h
    · simp [h]

theorem quiet_enumLabels : Each Quiet (enumLabels base desired hints).changes := by
  have hchanges : ∀ uid name old wanted, Each Quiet (labelChanges uid name base desired hints old wanted).1 := by
    intro uid name old wanted
    have hrun : Each Quiet (renameLabels uid name ((pendingRenames old wanted (hints.enumValueRenames.getD name ∅)).1.size + 1)
        (pendingRenames old wanted (hints.enumValueRenames.getD name ∅)).1
        { current := old, errors := (pendingRenames old wanted (hints.enumValueRenames.getD name ∅)).2 }).changes :=
      quiet_renameLabels each_nil
    unfold labelChanges
    dsimp only
    split
    · exact each_nil
    · split
      · split
        · next steps hsteps => exact each_append.2 ⟨hrun, quiet_rebuildType base desired hints hsteps⟩
        · exact hrun
      · exact quiet_addLabels hrun
  unfold enumLabels
  rw [each_forEach]
  rintro ⟨uid, name⟩ -
  dsimp only
  split
  · exact hchanges uid name _ _
  · simp

theorem quiet_anchorAnswer {answer : RetainedExpression} {anchor : RenameAnchor} : ∀ {l m : List Change},
    anchorAnswer answer anchor l = some m → Each Quiet l → Each Quiet m
  | [], _, h, _ => nomatch h
  | change :: rest, m, h, hl => by
    obtain ⟨hchange, hrest⟩ := each_cons.1 hl
    have hskip : ∀ {m}, (anchorAnswer answer anchor rest).map (change :: ·) = some m → Each Quiet m := by
      intro m h
      obtain ⟨rest', hrest', rfl⟩ := map_eq_some_iff.1 h
      exact each_cons.2 ⟨hchange, quiet_anchorAnswer hrest' hrest⟩
    unfold anchorAnswer at h
    split at h
    · cases h
    · next heq =>
      cases heq
      split at h
      · cases h
        exact each_cons.2 ⟨trivial, hrest⟩
      · exact hskip h
    · next heq =>
      cases heq
      exact hskip h

/-- What the retained answers keep: true before them, and kept by each that is applied. -/
theorem retainedComparison_rec {P : Schema → List Change → Prop} (h : P base.schema steps)
    (hstep : ∀ {schema l l' answer anchor}, P schema l → anchorAnswer answer anchor l = some l' →
      P (answer.target.replace schema answer.after) l') :
    P (retainedComparison base desired hints steps).1 (retainedComparison base desired hints steps).2 := by
  unfold retainedComparison
  split
  · exact h
  · dsimp only
    refine foldlRecOn (motive := fun e : Schema × List Change × List ExpressionTarget => P e.1 e.2.1) _ _ h fun e he answer _ => ?_
    split
    · exact he
    · split
      · exact he
      · next l hl =>
        obtain ⟨anchor, -, hanchor⟩ := bind_eq_some_iff.1 hl
        exact hstep he hanchor

theorem quiet_retainedComparison (h : Each Quiet steps) : Each Quiet (retainedComparison base desired hints steps).2 :=
  retainedComparison_rec base desired hints h fun hl hanchor => quiet_anchorAnswer hanchor hl

theorem quiet_rebuiltDomains {dialect : Dialect} : Each Quiet (rebuiltDomains dialect base desired hints steps).1.changes := by
  have hdomain : ∀ operations why (run : DomainRun) d, Each Quiet run.changes →
      Each Quiet (rebuildDomain dialect base desired hints operations why run d).changes := by
    intro operations why run d hrun
    unfold rebuildDomain
    dsimp only
    split
    · exact hrun
    · split
      · exact hrun
      · split
        · next steps hsteps => exact each_append.2 ⟨hrun, quiet_rebuildType base desired hints hsteps⟩
        · exact hrun
  have hpasses : ∀ operations why fuel pending (run : DomainRun), Each Quiet run.changes →
      Each Quiet (rebuildDomains dialect base desired hints operations why fuel pending run).changes := by
    intro operations why fuel
    induction fuel with
    | zero => exact fun _ _ hrun => hrun
    | succ fuel ih =>
      intro pending run hrun
      refine ih _ _ ?_
      have hfold : ∀ (l : List RetainedDomain) (run : DomainRun), Each Quiet run.changes →
          Each Quiet (l.foldl (rebuildDomain dialect base desired hints operations why) run).changes := by
        intro l
        induction l with
        | nil => exact fun _ h => h
        | cons d l ih =>
          intro run h
          exact ih _ (hdomain _ _ _ _ h)
      exact hfold _ _ hrun
  exact hpasses _ _ _ _ _ each_nil

variable {p : Change → Prop}

theorem each_diffTypes {rebuilt : ExtTreeMap Uid Why} (h : Admits base.ids desired.ids p) :
    Each p (diffTypes base desired rebuilt).changes := by
  have halter : ∀ uid name from_ to_, Each Quiet (alterDomain uid name from_ to_).changes := by
    intro uid name from_ to_
    unfold alterDomain
    split <;> simp
  unfold diffTypes
  rw [Out.append_changes, each_append, each_forEach, each_forEach]
  constructor
  · rintro ⟨uid, oldName⟩ hwas
    have hwas := ExtTreeMap.getElem?_of_mem_toList hwas
    dsimp only
    cases base.schema.types[oldName]? with
    | none => simp
    | some old =>
      show Each p (diffType base desired rebuilt uid oldName old).changes
      unfold diffType
      split
      · exact Each.imp h.quiet (by simp)
      · next name new hnow =>
        obtain ⟨_, hname, hnow⟩ := bind_eq_some_iff.1 hnow
        obtain ⟨_, -, heq⟩ := map_eq_some_iff.1 hnow
        cases heq
        simp only [Out.append_changes, each_append, each_changeIf]
        refine ⟨⟨Each.imp h.quiet (by simp), Each.imp h.quiet (by simp [halter])⟩, fun hne => ?_⟩
        exact h.type uid oldName name _ hwas hname (of_decide_eq_true hne)
  · refine fun e _ => Each.imp h.quiet ?_
    rcases e with ⟨uid, name⟩
    dsimp only
    split
    · simp
    · cases desired.schema.types[name]? <;> simp

variable (d : Differ) (request : Request)

theorem quiet_extensionChanges : Each Quiet (extensionChanges d request base desired) := by
  unfold extensionChanges
  split
  · simp only [each_append]
    refine ⟨⟨⟨?_, ?_⟩, ?_⟩, ?_⟩
    · simp [createExtensions]
    · unfold dropExtensions
      rw [each_forEach]
      rintro ⟨name, uid, definition⟩ -
      show Each Quiet (dropExtension d.members base desired request.hints.extensionDrops name uid definition).changes
      unfold dropExtension
      split
      · simp
      · simp
    · unfold updateExtensions
      rw [each_forEach]
      rintro ⟨name, to_⟩ -
      dsimp only
      split
      · simp
      · split
        · simp
        · split <;> simp
    · unfold moveExtensions
      rw [each_forEach]
      rintro ⟨name, to_⟩ -
      dsimp only
      split
      · simp
      · split
        · simp
        · split <;> simp
  · exact each_nil

theorem quiet_comparison : Each Quiet (comparison d request base desired).2 :=
  quiet_retainedComparison base desired _ (quiet_enumLabels base desired _)

theorem each_typeChanges (h : Admits base.ids desired.ids p) {labels : List Change} (hlabels : Each Quiet labels) :
    Each p (typeChanges d request base desired labels) := by
  unfold typeChanges
  dsimp only
  simp only [each_append]
  refine ⟨⟨⟨hlabels.imp h.quiet, ?_⟩, ?_⟩, each_diffTypes base desired h⟩
  · exact (quiet_rebuiltDomains base desired _).imp h.quiet
  · exact (quiet_extensionChanges base desired d request).imp h.quiet

end Types

/-! ## Tables -/

section Tables

variable (dialect : Dialect) (base declared : Side) (uid : Uid) (baseName declaredName : TableName)
  (baseTable declaredTable : Table)

theorem quiet_droppedTables : Each Quiet (droppedTables dialect base declared) := by
  unfold droppedTables
  rw [each_flatMap]
  rintro ⟨uid, name⟩ -
  dsimp only
  split
  · exact each_nil
  · simp [dropTable]

theorem quiet_insertRows : Each Quiet (insertRows declaredName declaredTable).changes := by
  unfold insertRows
  split <;> simp

variable {p : Change → Prop}

theorem each_renameTable (h : Admits base.ids declared.ids p) (hwas : base.ids.tables[uid]? = some baseName)
    (hnow : declared.ids.tables[uid]? = some declaredName) : Each p (renameTable base uid baseName declaredName).changes := by
  unfold renameTable
  rw [each_changeIf]
  exact fun hne => h.table uid baseName declaredName _ hwas hnow (of_decide_eq_true hne)

theorem quiet_diffRowSecurity : Each Quiet (diffRowSecurity uid declaredName baseTable declaredTable).changes := by
  simp [diffRowSecurity]

variable {of : PartitionOf} {renames : Renames}

theorem quiet_attachDefault {column : ColumnName} :
    Each Quiet (attachDefault dialect base declared uid declaredName of column).changes := by
  simp [attachDefault, quiet_partitionDefault]

theorem quiet_releasedBefore {parent : Table} : Each Quiet (releasedBefore declaredName baseTable parent declaredTable) := by
  unfold releasedBefore
  simp only [each_append, each_toList, each_map, map_eq_some_iff]
  refine ⟨⟨?_, fun e _ => trivial⟩, fun e _ => trivial⟩
  rintro c ⟨key, -, rfl⟩
  trivial

theorem quiet_attached {parent : Schema} {readBack : Option Schema} {boundary : Option (TableName × Bool × Table)} {a : Attached}
    (h : attached dialect baseName declaredName baseTable declaredTable of parent readBack boundary = .ok a) :
    Each Quiet a.released := by
  unfold attached at h
  dsimp only at h
  split at h
  · cases h
  · obtain ⟨-, h⟩ | ⟨-, h⟩ := ite_eq_iff.1 h
    · cases h
      exact quiet_releasedBefore _ _ _
    · cases h

theorem each_diffStandingParts (h : Admits base.ids declared.ids p) :
    Each p (diffStandingParts dialect base declared uid baseName declaredName baseTable declaredTable renames).changes := by
  unfold diffStandingParts
  simp only [Out.append_changes, each_append]
  refine ⟨⟨⟨⟨⟨⟨?_, ?_⟩, ?_⟩, ?_⟩, ?_⟩, ?_⟩, ?_⟩
  · refine each_diffColumns dialect baseTable declaredTable h.quiet fun u was now prior hwas hnow hne => ?_
    exact h.column u was now _ prior (getElem?_columnsOf.1 hwas).1 (getElem?_columnsOf.1 hnow).1 hne
  · exact (quiet_diffConstraints _ _ _).imp h.quiet
  · exact (quiet_diffSettings (u := uid) _ _ _).1.imp h.quiet
  · exact (quiet_diffSettings (u := uid) _ _ _).2.1.imp h.quiet
  · exact (quiet_diffSettings _ _ _).2.2.1.imp h.quiet
  · exact (quiet_diffSettings _ _ _).2.2.2.imp h.quiet
  · exact (quiet_diffPartitionColumns _ _ _ _).imp h.quiet

theorem each_diffStandingTable (h : Admits base.ids declared.ids p) {plan : List Change} :
    Each p (diffStandingTable dialect base declared uid baseName declaredName baseTable declaredTable renames plan).changes := by
  unfold diffStandingTable
  exact each_append.2 ⟨each_diffStandingParts _ _ _ _ _ _ _ _ h, (quiet_diffData _ _ _).imp h.quiet⟩

end Tables

/-! ## What comes down and goes back -/

section Passes

variable (dialect : Dialect) (base declared : Side) (renames : Renames) (plan : List Change)

theorem quiet_recreateRetypedDependents : Each Quiet (recreateRetypedDependents base declared renames dialect plan) := by
  have hparts : ∀ {V : Type} (parts : ExtTreeMap ObjectLocalName V) covers (drop : ObjectLocalName → Change)
      (add : ObjectLocalName → V → Change), (∀ n, Quiet (drop n)) → (∀ n part, Quiet (add n part)) →
      Each Quiet (recreateParts parts covers drop add) := by
    intro V parts covers drop add hdrop hadd
    unfold recreateParts
    rw [each_flatMap]
    intro e _
    dsimp only
    split <;> simp [-Quiet, hdrop, hadd]
  have htable : ∀ retyped name before after plan, Each Quiet (recreateTable retyped name before after plan) := by
    intro retyped name before after plan
    unfold recreateTable
    simp only [each_append]
    refine ⟨⟨⟨⟨?_, ?_⟩, ?_⟩, ?_⟩, ?_⟩
    · unfold recreatePrimaryKey
      split
      · split <;> simp
      · exact each_nil
    · exact hparts _ _ _ _ (fun _ => trivial) fun _ _ => trivial
    · exact hparts _ _ _ _ (fun _ => trivial) fun _ _ => trivial
    · exact hparts _ _ _ _ (fun _ => trivial) fun _ _ => trivial
    · exact hparts _ _ _ _ (fun _ => trivial) fun _ _ => trivial
  unfold recreateRetypedDependents
  dsimp only
  split
  · exact each_nil
  · refine each_foldl (fun acc e hacc => ?_) _ each_nil
    split
    · exact each_append.2 ⟨hacc, htable _ _ _ _ _⟩
    · exact hacc

theorem quiet_recreateReferencedForeignKeys : Each Quiet (recreateReferencedForeignKeys base declared renames plan) := by
  have htable : ∀ removed table before after plan, Each Quiet (recreateReferencing removed table before after plan) := by
    intro removed table before after plan
    unfold recreateReferencing
    refine each_foldl (fun acc e hacc => ?_) _ each_nil
    dsimp only
    split
    · exact hacc
    · split
      · simp [hacc]
      · exact hacc
  unfold recreateReferencedForeignKeys
  dsimp only
  split
  · exact each_nil
  · refine each_foldl (fun acc e hacc => ?_) _ each_nil
    split
    · exact hacc
    · exact each_append.2 ⟨hacc, htable _ _ _ _ _⟩

theorem quiet_rebindForeignKeys : Each Quiet (rebindForeignKeysToANewOccupant base declared plan) := by
  have htable : ∀ newName before after, Each Quiet (rebindForeignKeys base declared plan newName before after) := by
    intro newName before after
    unfold rebindForeignKeys
    rw [each_flatMap]
    intro e _
    dsimp only
    split
    · exact each_nil
    · split <;> simp
  unfold rebindForeignKeysToANewOccupant
  rw [each_flatMap]
  rintro ⟨uid, oldName⟩ -
  dsimp only
  split
  · next newName before _ _ =>
    cases declared.schema.tables[newName]? with
    | none => exact each_nil
    | some after => exact htable newName before after
  · exact each_nil

theorem quiet_unlinkCycles (schema : Schema) : Each Quiet (unlinkCycles schema plan) := by
  unfold unlinkCycles
  dsimp only
  split
  · exact each_nil
  · rw [each_flatMap]
    rintro ⟨name, table⟩ -
    dsimp only
    split
    · exact each_nil
    · rw [each_flatMap]
      intro e _
      split <;> simp

end Passes

/-! ## Identities and modules -/

section Modules

variable (dialect : ModuleDialect) (base declared : Side) (plan : List Change)

theorem quiet_diffReplicaIdentity : Each Quiet (diffReplicaIdentity base declared plan) := by
  have htable : ∀ uid baseName declaredName was table, Each Quiet (diffIdentity plan uid baseName declaredName was table) := by
    intro uid baseName declaredName was table
    unfold diffIdentity
    dsimp only
    split
    · exact each_nil
    · rw [each_append]
      constructor
      · split <;> simp
      · simp
  unfold diffReplicaIdentity
  rw [each_flatMap]
  rintro ⟨uid, declaredName⟩ -
  dsimp only
  split
  · exact each_nil
  · split
    · exact htable _ _ _ _ _
    · exact each_nil

theorem quiet_rebuildModule {id : ModuleId} {before module : Module} : Each Quiet (rebuildModule id before module) := by
  simp [rebuildModule]

variable {was : Schema}

variable {now : Schema}

theorem quiet_diffModules {changingHands : ExtTreeSet TableName} : Each Quiet (diffModules dialect was now changingHands) := by
  have hmodule : ∀ id module, Each Quiet (diffModule dialect was changingHands id module) := by
    intro id module
    unfold diffModule
    split
    · simp
    · split
      · exact quiet_rebuildModule
      · split
        · exact each_nil
        · simp
        · exact quiet_rebuildModule
  unfold diffModules
  rw [each_append, each_flatMap, each_map]
  exact ⟨fun e _ => hmodule e.1 e.2, fun _ _ => trivial⟩

theorem quiet_restateModules {rebinding : Rebinding} {also dependents : ExtTreeSet ModuleId} :
    Each Quiet (restateModules dialect was now rebinding also dependents plan) := by
  unfold restateModules
  dsimp only
  rw [each_filterMap]
  intro id _ c hc
  split at hc
  · obtain ⟨module, -, rfl⟩ := map_eq_some_iff.1 hc
    trivial
  · cases hc

theorem quiet_revokePublicExecution {publicExecute : ExtTreeSet ModuleId} :
    Each Quiet (revokePublicExecution dialect was publicExecute plan) := by
  unfold revokePublicExecution
  split
  · exact each_nil
  · exact each_map.2 fun _ _ => trivial

end Modules

end Pbps.Diff
