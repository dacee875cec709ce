/-
The order modules are created in (`creation_order_with` of `module.rs`): after what they declare they need, what they are
attached to and what their definitions name. What a definition names is read from its text, under three comparisons of letters
in turn, each of them over what the one before could not order.
-/
import Pbps.Lib.Rounds
import Pbps.Modules.Blank
import Pbps.Modules.Word
import Pbps.Tree.Names

namespace Pbps

open Std (ExtTreeMap ExtTreeSet)
open Std.ExtTreeMap

/-! ## Identities -/

namespace ModuleId

def schema : ModuleId → String
  | .named n => n.schema
  | .routine r => r.name.schema
  | .trigger on _ => on.schema

def isRoutine : ModuleId → Bool
  | .routine _ => true
  | .named _ | .trigger _ _ => false

end ModuleId

/-- What each module's `depends_on:` lists. -/
abbrev ModuleDeps := ExtTreeMap ModuleId (ExtTreeSet ModuleId)

namespace Modules

open Relation (TransGen)

/-! ## What a definition names -/

/-- What the name scans need of an engine's lexis. -/
structure Lexis where
  codeOnly : List Char → List Char
  continuesIdent : Char → Bool
  /-- Whether a lower-cased word can never stand unquoted as a name. -/
  reserved : List Char → Bool
  /-- Where the second schema is on the path a bare name in the first is looked up along. -/
  bareRank : String → String → Option Nat
  /-- `char::to_lowercase`, of the standard library. -/
  toLowercase : Char → List Char

/-- How the scan compares letters, narrowest last. -/
inductive Case where
  | folded
  | ascii
  | exact
  deriving DecidableEq, Repr

/-- One character in and one character out: a mapping that expands leaves its character as it is. -/
def folded (toLowercase : Char → List Char) (s : List Char) : List Char :=
  s.map fun c =>
    match toLowercase c with
    | [one] => one
    | _ => c

def cased (lexis : Lexis) (case : Case) (text : List Char) : List Char :=
  match case with
  | .folded => folded lexis.toLowercase text
  | .ascii => text.map TypeRef.lowerAscii
  | .exact => text

def qualified (lexis : Lexis) (case : Case) (name : ObjectName) : List Char :=
  cased lexis case name.schema.toList ++ '.' :: cased lexis case name.name.toList

def isAGap (continues : Char → Bool) (ch : Char) : Bool := isWhitespace ch && !continues ch

/-- Quoting characters go, or become `"`; one that is doubled is a character of the name. `skip` marks the second of such a
pair, and `last` is what was put out last. -/
def unquoted (continues : Char → Bool) (keepQuotes : Bool) : Bool → Option Char → List Char → List Char
  | _, _, [] => []
  | true, last, _ :: rest => unquoted continues keepQuotes false last rest
  | false, last, ch :: rest =>
    if (ch = '"' ∨ ch = ']') ∧ rest.head? = some ch then ch :: unquoted continues keepQuotes true (some ch) rest
    else if ['"', '`', '[', ']'].contains ch && keepQuotes then '"' :: unquoted continues keepQuotes false (some '"') rest
    else if ch = '"' ∨ ch = '`' then unquoted continues keepQuotes false last rest
    else if ch = '[' ∨ ch = ']' then
      -- a bracket between two identifier characters leaves a space behind
      if last.any continues && rest.head?.any fun c => continues c || c = '.' then
        ' ' :: unquoted continues keepQuotes false (some ' ') rest
      else unquoted continues keepQuotes false last rest
    else ch :: unquoted continues keepQuotes false (some ch) rest

def withoutGaps (continues : Char → Bool) : Option Char → List Char → List Char
  | _, [] => []
  | before, ch :: rest =>
    if isAGap continues ch && (before = some '.' || rest.find? (!isAGap continues ·) = some '.') then
      withoutGaps continues before rest
    else ch :: withoutGaps continues (some ch) rest

def scannableCode (lexis : Lexis) (case : Case) (keepQuotes : Bool) (code : List Char) : List Char :=
  withoutGaps lexis.continuesIdent none (unquoted lexis.continuesIdent keepQuotes false none (cased lexis case code))

/-- Whether a definition, already lexed to code, mentions a name: qualified, or bare where the engine would look there. -/
def referencesIn (lexis : Lexis) (case : Case) (code : List Char) (name : ObjectName) (bare : Bool) : Bool :=
  let haystack := scannableCode lexis case false code
  if containsWord haystack (qualified lexis case name) lexis.continuesIdent then true
  else if !bare then false
  else
    let word := cased lexis case name.name.toList
    if lexis.reserved (name.name.toList.map TypeRef.lowerAscii) then
      containsWord (scannableCode lexis case true code) ('"' :: (word ++ ['"'])) lexis.continuesIdent
    else containsWord haystack word lexis.continuesIdent

/-! ## The order -/

section Order

variable (modules : ExtTreeMap ModuleId Module) (deps : ModuleDeps) (lexis : Lexis)

/-- The best place on the lookup path of the pending modules that a bare word can mean. -/
def nearest (pending : List ModuleId) (case : Case) (name : ModuleId) (word : List Char) : Option Nat :=
  ((pending.filter (· ≠ name)).filterMap fun other =>
    match other.referencedName, lexis.bareRank name.schema other.schema with
    | some referenced, some rank => if cased lexis case referenced.name.toList = word then some rank else none
    | _, _ => none).min?

def declared (name other : ModuleId) : Bool := (deps[name]?).any (·.contains other)

/-- A trigger's target is not named in its definition: the identity says it. -/
def attached (name other : ModuleId) : Bool := name.attachedTo.any fun t => other.referencedName = some t

/-- Between the overloads of one routine name only declarations order. -/
def referenced (pending : List ModuleId) (case : Case) (name other : ModuleId) : Bool :=
  let code := lexis.codeOnly ((modules[name]?).elim [] (·.definition.toList))
  let sibling := name.isRoutine && other.referencedName = name.referencedName
  !sibling && other.referencedName.any fun n =>
    let bare := (lexis.bareRank name.schema other.schema).any fun rank =>
      nearest lexis pending case name (cased lexis case n.name.toList) = some rank
    referencesIn lexis case code n bare

def needs (pending : List ModuleId) (case : Case) (name other : ModuleId) : Bool :=
  other ≠ name && (declared deps name other || attached name other || referenced modules lexis pending case name other)

def creatable (pending : List ModuleId) (case : Case) (done : List ModuleId) (name : ModuleId) : Bool :=
  (pending.filter (needs modules deps lexis pending case name)).all (done.contains ·)

/-- Rounds over what is left under each comparison in turn, and then what is still left. -/
def createFrom : List Case → List ModuleId → List ModuleId
  | [], pending => pending
  | case :: cases, pending =>
    if pending.isEmpty then []
    else
      let done := Rounds.run pending (creatable modules deps lexis pending case)
      done ++ createFrom cases (pending.filter (! done.contains ·))

def creationOrderWith : List ModuleId := createFrom modules deps lexis [.folded, .ascii, .exact] modules.keys

end Order

/-! ## What is left -/

section Left

variable {modules : ExtTreeMap ModuleId Module} {deps : ModuleDeps} {lexis : Lexis} {pending : List ModuleId} {case : Case}

/-- What a comparison cannot order: the pending modules on a cycle of needs, and those that need one of them. -/
noncomputable def remaining (modules : ExtTreeMap ModuleId Module) (deps : ModuleDeps) (lexis : Lexis) (case : Case)
    (pending : List ModuleId) : List ModuleId :=
  open Classical in
  pending.filter fun m => Rounds.Stuck pending (fun u v => needs modules deps lexis pending case u v = true) m

/-- What no comparison can order, each asked about what the ones before left. -/
noncomputable def left (modules : ExtTreeMap ModuleId Module) (deps : ModuleDeps) (lexis : Lexis) (pending : List ModuleId) :
    List ModuleId :=
  remaining modules deps lexis .exact (remaining modules deps lexis .ascii (remaining modules deps lexis .folded pending))

variable (modules deps lexis pending case) in
theorem creatable_frees : Rounds.Frees pending (fun u v => needs modules deps lexis pending case u v = true)
    (creatable modules deps lexis pending case) := by
  intro done name
  rw [creatable, List.all_eq_true]
  simp only [List.mem_filter, List.contains_iff_mem]
  exact ⟨fun h d hd hneeds => h d ⟨hd, hneeds⟩, fun h d hd => h d hd.1 hd.2⟩

open Classical in
theorem remaining_eq (hnodup : pending.Nodup) : pending.filter
    (! (Rounds.run pending (creatable modules deps lexis pending case)).contains ·) = remaining modules deps lexis case pending := by
  refine List.filter_congr fun m hm => ?_
  have hrun := Rounds.mem_run hnodup (creatable_frees modules deps lexis pending case) (m := m)
  by_cases hmem : m ∈ Rounds.run pending (creatable modules deps lexis pending case)
  · rw [List.contains_iff_mem.2 hmem, decide_eq_false (hrun.1 hmem).2]
    rfl
  · have hstuck : Rounds.Stuck pending (fun u v => needs modules deps lexis pending case u v = true) m := by
      by_contra hnot
      exact hmem (hrun.2 ⟨hm, hnot⟩)
    rw [decide_eq_true hstuck, Bool.not_eq_true', List.contains_eq_mem, decide_eq_false_iff_not]
    exact hmem

theorem nodup_remaining (hnodup : pending.Nodup) : (remaining modules deps lexis case pending).Nodup := hnodup.filter _

theorem mem_of_remaining {m : ModuleId} (h : m ∈ remaining modules deps lexis case pending) : m ∈ pending :=
  (List.mem_filter.1 h).1

noncomputable def leftBy (modules : ExtTreeMap ModuleId Module) (deps : ModuleDeps) (lexis : Lexis) (cases : List Case)
    (pending : List ModuleId) : List ModuleId :=
  cases.foldl (fun pending case => remaining modules deps lexis case pending) pending

theorem mem_of_leftBy {m : ModuleId} : ∀ {cases : List Case} {pending : List ModuleId},
    m ∈ leftBy modules deps lexis cases pending → m ∈ pending
  | [], _, h => h
  | _ :: _, _, h => mem_of_remaining (mem_of_leftBy h)

theorem createFrom_cons {cases : List Case} (hnodup : pending.Nodup) (hne : pending ≠ []) :
    createFrom modules deps lexis (case :: cases) pending = Rounds.run pending (creatable modules deps lexis pending case) ++
        createFrom modules deps lexis cases (remaining modules deps lexis case pending) := by
  rw [createFrom, if_neg fun hempty => hne (List.isEmpty_iff.1 hempty), ← remaining_eq hnodup]

theorem mem_remaining_iff (hnodup : pending.Nodup) {m : ModuleId} : m ∈ remaining modules deps lexis case pending ↔
    m ∈ pending ∧ m ∉ Rounds.run pending (creatable modules deps lexis pending case) := by
  rw [← remaining_eq hnodup, List.mem_filter, Bool.not_eq_true', List.contains_eq_mem, decide_eq_false_iff_not]

theorem createFrom_perm : ∀ (cases : List Case) {pending : List ModuleId}, pending.Nodup →
    (createFrom modules deps lexis cases pending).Perm pending
  | [], pending, _ => List.Perm.refl pending
  | case :: cases, [], _ => List.Perm.refl []
  | case :: cases, m :: pending, hnodup => by
    rw [createFrom_cons hnodup (List.cons_ne_nil _ _)]
    have hinv := Rounds.run_inv hnodup (creatable_frees modules deps lexis (m :: pending) case)
    refine ((createFrom_perm cases (nodup_remaining hnodup)).append_left _).trans ?_
    refine (List.perm_ext_iff_of_nodup ?_ hnodup).2 fun n => ?_
    · refine List.nodup_append.2 ⟨hinv.nodup, nodup_remaining hnodup, ?_⟩
      rintro n hn _ hn' rfl
      exact ((mem_remaining_iff hnodup).1 hn').2 hn
    · rw [List.mem_append, mem_remaining_iff hnodup]
      constructor
      · rintro (hn | hn)
        · exact hinv.mem n hn
        · exact hn.1
      · intro hn
        by_cases hrun : n ∈ Rounds.run (m :: pending) (creatable modules deps lexis (m :: pending) case)
        · exact .inl hrun
        · exact .inr ⟨hn, hrun⟩

theorem idxOf_createFrom_lt {m d : ModuleId}
    (hneeds : ∀ pending case, needs modules deps lexis pending case m d = true) : ∀ (cases : List Case) {pending : List ModuleId},
    pending.Nodup → m ∈ pending → d ∈ pending →
      ((createFrom modules deps lexis cases pending).idxOf d < (createFrom modules deps lexis cases pending).idxOf m ↔
        (m ∈ leftBy modules deps lexis cases pending → d ∈ leftBy modules deps lexis cases pending →
          pending.idxOf d < pending.idxOf m))
  | [], pending, _, hm, hd => ⟨fun h _ _ => h, fun h => h hm hd⟩
  | case :: cases, pending, hnodup, hm, hd => by
    have hfrees := creatable_frees modules deps lexis pending case
    have hleft : ∀ {n}, n ∈ leftBy modules deps lexis (case :: cases) pending →
        n ∉ Rounds.run pending (creatable modules deps lexis pending case) := by
      intro n hn
      have hn' : n ∈ leftBy modules deps lexis cases (remaining modules deps lexis case pending) := hn
      exact ((mem_remaining_iff hnodup).1 (mem_of_leftBy hn')).2
    rw [createFrom_cons hnodup (List.ne_nil_of_mem hm)]
    by_cases hmrun : m ∈ Rounds.run pending (creatable modules deps lexis pending case)
    · obtain ⟨hdrun, hlt⟩ := Rounds.idxOf_run_lt hnodup hfrees hmrun hd (hneeds pending case)
      exact iff_of_true ((Position.idxOf_append_lt_left hdrun hmrun).2 hlt) fun hm' => absurd hmrun (hleft hm')
    · by_cases hdrun : d ∈ Rounds.run pending (creatable modules deps lexis pending case)
      · exact iff_of_true (Position.idxOf_append_lt hdrun hmrun) fun _ hd' => absurd hdrun (hleft hd')
      · -- both are handed on, in the order they stand in
        have hm' : m ∈ remaining modules deps lexis case pending := (mem_remaining_iff hnodup).2 ⟨hm, hmrun⟩
        have hd' : d ∈ remaining modules deps lexis case pending := (mem_remaining_iff hnodup).2 ⟨hd, hdrun⟩
        have hkept : (remaining modules deps lexis case pending).idxOf d < (remaining modules deps lexis case pending).idxOf m ↔
            pending.idxOf d < pending.idxOf m := Position.idxOf_filter_lt (List.mem_filter.1 hd').2 (List.mem_filter.1 hm').2
        rw [Position.idxOf_append_lt_right hdrun hmrun, idxOf_createFrom_lt hneeds cases (nodup_remaining hnodup) hm' hd', hkept]
        exact Iff.rfl

end Left

/-! ## What is asked -/

/-- Whether a module's annotations or its trigger's target ask for another one first. -/
def Asks (deps : ModuleDeps) (name other : ModuleId) : Prop :=
  other ≠ name ∧ (declared deps name other = true ∨ attached name other = true)

/-- A path of declared, attached or scanned references between modules, under any comparison. -/
def DependsOn (modules : ExtTreeMap ModuleId Module) (deps : ModuleDeps) (lexis : Lexis) : ModuleId → ModuleId → Prop :=
  TransGen fun u v => v ∈ modules ∧ ∃ case, needs modules deps lexis modules.keys case u v = true

/-- No declared module waits for itself. -/
def Acyclic (modules : ExtTreeMap ModuleId Module) (deps : ModuleDeps) : Prop :=
  ∀ m, ¬ TransGen (fun u v => u ∈ modules ∧ v ∈ modules ∧ declared deps u v = true) m m

theorem needs_of_asks {modules : ExtTreeMap ModuleId Module} {deps : ModuleDeps} {lexis : Lexis} {m d : ModuleId}
    (h : Asks deps m d) (pending : List ModuleId) (case : Case) : needs modules deps lexis pending case m d = true := by
  rw [needs, Bool.and_eq_true, decide_eq_true_eq, Bool.or_eq_true, Bool.or_eq_true]
  exact ⟨h.1, .inl h.2⟩

theorem nodup_keys (modules : ExtTreeMap ModuleId Module) : modules.keys.Nodup :=
  ExtTreeMap.nodup_keys

/-- Every module is created once. One comes after each it asks for that does not depend on it, exactly if that already stands
before it in the order of names, where no comparison orders either. -/
theorem creationOrderWith_after_asked (modules : ExtTreeMap ModuleId Module) (deps : ModuleDeps) (lexis : Lexis) :
    ((creationOrderWith modules deps lexis).Perm modules.keys ∧ ∀ m ∈ modules, ∀ d ∈ modules, Asks deps m d →
      ¬ DependsOn modules deps lexis d m →
        (creationOrderWith modules deps lexis).idxOf d < (creationOrderWith modules deps lexis).idxOf m) ↔
    ∀ m ∈ modules, ∀ d ∈ modules, Asks deps m d → ¬ DependsOn modules deps lexis d m →
      m ∈ left modules deps lexis modules.keys → d ∈ left modules deps lexis modules.keys →
        modules.keys.idxOf d < modules.keys.idxOf m := by
  have hnodup := nodup_keys modules
  have horder : ∀ {m d}, m ∈ modules → d ∈ modules → Asks deps m d →
      ((creationOrderWith modules deps lexis).idxOf d < (creationOrderWith modules deps lexis).idxOf m ↔
        (m ∈ left modules deps lexis modules.keys → d ∈ left modules deps lexis modules.keys →
          modules.keys.idxOf d < modules.keys.idxOf m)) := by
    intro m d hm hd hasks
    have hneeds : ∀ pending case, needs modules deps lexis pending case m d = true := needs_of_asks hasks
    exact idxOf_createFrom_lt hneeds [.folded, .ascii, .exact] hnodup (mem_keys.2 hm) (mem_keys.2 hd)
  constructor
  · rintro ⟨-, h⟩ m hm d hd hasks hnot
    exact (horder hm hd hasks).1 (h m hm d hd hasks hnot)
  · intro h
    refine ⟨createFrom_perm _ hnodup, fun m hm d hd hasks hnot => ?_⟩
    exact (horder hm hd hasks).2 (h m hm d hd hasks hnot)

/-! ## A module in front of a cycle -/

namespace InFront

def a : ModuleId := .named ⟨"s", "a"⟩
def b : ModuleId := .named ⟨"s", "b"⟩
def c : ModuleId := .named ⟨"s", "c"⟩

def view (definition : String) : Module := { kind := .view, definition }

/-- `b` and `c` name each other. -/
def views : ExtTreeMap ModuleId Module :=
  (((∅ : ExtTreeMap ModuleId Module).insert a (view "1")).insert b (view "s.c")).insert c (view "s.b")

/-- `a` asks for `b`. -/
def asks : ModuleDeps := (∅ : ModuleDeps).insert a ((∅ : ExtTreeSet ModuleId).insert b)

def lexis : Lexis where
  codeOnly := codeOnly
  continuesIdent := isRegularIdentifierContinue Char.isAlphanum
  reserved := fun _ => false
  bareRank := fun _ _ => some 0
  toLowercase := fun ch => [ch.toLower]

theorem creationOrderWith_views : creationOrderWith views asks lexis = [a, b, c] := by decide

theorem mem_views {m : ModuleId} (h : m ∈ views) : m = a ∨ m = b ∨ m = c := by
  have hkeys : views.keys = [a, b, c] := by decide
  rw [← mem_keys, hkeys] at h
  simpa using h

theorem acyclic : Acyclic views asks := by
  have hasks : ∀ {u v}, u ∈ views → v ∈ views → declared asks u v = true → u = a ∧ v = b := by
    intro u v hu hv h
    rcases mem_views hu with rfl | rfl | rfl <;> rcases mem_views hv with rfl | rfl | rfl <;> revert h <;> decide
  intro m h
  obtain ⟨x, hx, -⟩ := Relation.TransGen.head'_iff.1 h
  obtain ⟨y, -, hy⟩ := Relation.TransGen.tail'_iff.1 h
  have hm := (hasks hx.1 hx.2.1 hx.2.2).1
  rw [(hasks hy.1 hy.2.1 hy.2.2).2] at hm
  exact absurd hm (by decide)

theorem not_dependsOn : ¬ DependsOn views asks lexis b a := by
  have hback : ∀ u, u = b ∨ u = c → ∀ case, needs views asks lexis views.keys case u a = false := by
    rintro u (rfl | rfl) case <;> cases case <;> decide
  have hinside : ∀ {v}, DependsOn views asks lexis b v → v = b ∨ v = c := by
    intro v h
    induction h with
    | single hv =>
      obtain ⟨hmem, case, hneeds⟩ := hv
      refine (mem_views hmem).resolve_left ?_
      rintro rfl
      rw [hback b (.inl rfl) case] at hneeds
      cases hneeds
    | tail _ hv ih =>
      obtain ⟨hmem, case, hneeds⟩ := hv
      refine (mem_views hmem).resolve_left ?_
      rintro rfl
      rw [hback _ ih case] at hneeds
      cases hneeds
  intro h
  exact absurd (hinside h) (by decide)

theorem creationOrderWith_cycle : ¬ ∀ (modules : ExtTreeMap ModuleId Module) (deps : ModuleDeps) (lexis : Lexis),
    Acyclic modules deps → (creationOrderWith modules deps lexis).Perm modules.keys ∧
      ∀ m ∈ modules, ∀ d ∈ modules, Asks deps m d → ¬ DependsOn modules deps lexis d m →
        (creationOrderWith modules deps lexis).idxOf d < (creationOrderWith modules deps lexis).idxOf m := by
  intro h
  have hlt := (h views asks lexis acyclic).2 a (by decide) b (by decide) ⟨by decide, .inl (by decide)⟩ not_dependsOn
  rw [creationOrderWith_views] at hlt
  exact absurd hlt (by decide)

end InFront

end Modules

end Pbps
