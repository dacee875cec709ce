/-
The canonical form of a JSON schema that a format fingerprint hashes: `canonical` of `fingerprint.rs`. Keys are sorted,
lists whose order carries no meaning are sorted, annotations are dropped when asked to, the branches that are only a string
literal become one, and a lone branch joins its parent. A canonical form is its own canonical form.
-/
import Pbps.Lib.JsonText
import Pbps.Lib.Lists

namespace Pbps.Fingerprint

open Json (Value Printer)
open List

/-- Whether documentation keywords take part in the hash. -/
inductive Docs where
  | ignore
  | keep
  deriving DecidableEq

/-- `serde_json::Map`: entries in the order they were inserted. -/
abbrev Map := List (String × Value)

def SCHEMA_MAPS : List String := ["properties", "patternProperties", "$defs", "definitions", "dependentSchemas"]

def SCHEMA_VALUES : List String :=
  ["items", "additionalProperties", "unevaluatedItems", "unevaluatedProperties", "contains", "propertyNames", "contentSchema",
    "not", "if", "then", "else"]

def SCHEMA_LISTS : List String := ["oneOf", "anyOf", "allOf", "prefixItems"]

def ANNOTATIONS : List String := ["description", "title", "$comment", "examples", "deprecated", "readOnly", "writeOnly"]

def UNORDERED : List String := ["required", "enum", "type"]

/-- The entries of a map in the order of `sorted_keys`. -/
def sortedEntries (map : Map) : Map := map.sortOn (·.1)

mutual

/-- A data value with its object keys sorted and nothing else touched. -/
def plain : Value → Value
  | .object map => .object (sortedEntries (plainEntries map))
  | .array list => .array (plainItems list)
  | .null => .null
  | .bool b => .bool b
  | .number n => .number n
  | .string s => .string s

def plainEntries : Map → Map
  | [] => []
  | (key, value) :: map => (key, plain value) :: plainEntries map

def plainItems : List Value → List Value
  | [] => []
  | value :: list => plain value :: plainItems list

end

def sortedList [Printer] : Value → Value
  | .array list => .array ((plainItems list).sortOn Printer.text)
  | value => plain value

/-- The literals of a branch that is only a string literal, or several. -/
def literalsOf : Value → Option (List Value)
  | .object map =>
    match map.lookup "type", map.length, map.lookup "const", map.lookup "enum" with
    | some (.string "string"), 2, some literal, none => some [literal]
    | some (.string "string"), 2, none, some (.array list) => some list
    | _, _, _, _ => none
  | _ => none

def pushBranch (out : List Value × List Value) (branch : Value) : List Value × List Value :=
  match literalsOf branch with
  | some list => (out.1 ++ list, out.2)
  | none => (out.1, out.2 ++ [branch])

/-- Merges the branches that are only a string literal into one `enum`. -/
def mergeStringLiterals [Printer] (branches : List Value) : List Value :=
  let (literals, rest) := branches.foldl pushBranch ([], [])
  if literals.isEmpty then rest
  else rest ++ [.object [("type", .string "string"), ("enum", .array (literals.sortOn Printer.text))]]

/-- `{"oneOf": [x]}` says what `x` says. -/
def hoistLoneBranch (schema : Map) : Map :=
  match schema.lookup "oneOf" with
  | some (.array [.object branch]) =>
    if branch.any fun e => (schema.map (·.1)).contains e.1 then schema else schema.filter (·.1 != "oneOf") ++ branch
  | _ => schema

mutual

/-- The canonical form of one schema document. The keys of a map stay what they are, so that they are sorted at the end,
and before a lone branch is looked for. -/
def canonical [Printer] (docs : Docs) : Value → Value
  | .object map => .object (sortedEntries (hoistLoneBranch (sortedEntries (canonicalEntries docs map))))
  -- `true` and `false` are schemas too, and nothing else is one.
  | .null => .null
  | .bool b => .bool b
  | .number n => .number n
  | .string s => .string s
  | .array list => .array list

def canonicalEntries [Printer] (docs : Docs) : Map → Map
  | [] => []
  | (key, value) :: map =>
    if docs = .ignore ∧ key ∈ ANNOTATIONS then canonicalEntries docs map
    else (key,
      if key ∈ SCHEMA_MAPS then canonicalNamed docs value
      else if key ∈ SCHEMA_VALUES then canonical docs value
      else if key ∈ SCHEMA_LISTS then canonicalBranches docs key value
      else if key ∈ UNORDERED then sortedList value
      else plain value) :: canonicalEntries docs map

def canonicalNamed [Printer] (docs : Docs) : Value → Value
  | .object named => .object (sortedEntries (canonicalNames docs named))
  | value => plain value

def canonicalNames [Printer] (docs : Docs) : Map → Map
  | [] => []
  | (name, value) :: named => (name, canonical docs value) :: canonicalNames docs named

def canonicalBranches [Printer] (docs : Docs) (key : String) : Value → Value
  | .array list =>
    let branches := canonicalItems docs list
    .array (if key = "oneOf" then (mergeStringLiterals branches).sortOn Printer.text else branches)
  | value => plain value

def canonicalItems [Printer] (docs : Docs) : List Value → List Value
  | [] => []
  | value :: list => canonical docs value :: canonicalItems docs list

end

/-! ## Data -/

section Data

variable {docs : Docs} {map map' : Map} {l : List Value} {key : String} {v : Value}

theorem plainEntries_eq : ∀ map : Map, plainEntries map = map.map fun e => (e.1, plain e.2)
  | [] => by rw [plainEntries, map_nil]
  | (key, v) :: map => by rw [plainEntries, plainEntries_eq map, map_cons]

theorem plainItems_eq : ∀ l : List Value, plainItems l = l.map plain
  | [] => by rw [plainItems, map_nil]
  | v :: l => by rw [plainItems, plainItems_eq l, map_cons]

theorem sortedEntries_congr (h : (map.map (·.1)).Nodup) (hperm : map.Perm map') : sortedEntries map = sortedEntries map' :=
  sortOn_congr (fun _ ha _ hb hab => inj_on_of_nodup_map h ha hb hab) hperm

theorem sortedEntries_map (f : Value → Value) (map : Map) :
    (sortedEntries map).map (fun e => (e.1, f e.2)) = sortedEntries (map.map fun e => (e.1, f e.2)) :=
  map_insertionSort _ _ _ map fun _ _ _ _ => Iff.rfl

theorem sortedEntries_sortedEntries (map : Map) : sortedEntries (sortedEntries map) = sortedEntries map :=
  sortOn_sortOn _ map

theorem sortedEntries_map_idem {f : Value → Value} (hf : ∀ e ∈ map, f (f e.2) = f e.2) :
    sortedEntries ((sortedEntries (map.map fun e => (e.1, f e.2))).map fun e => (e.1, f e.2)) =
      sortedEntries (map.map fun e => (e.1, f e.2)) := by
  rw [sortedEntries_map, sortedEntries_sortedEntries, map_map]
  exact congrArg sortedEntries (map_congr_left fun e he => Prod.ext rfl (hf e he))

theorem plain_object (map : Map) : plain (.object map) = .object (sortedEntries (map.map fun e => (e.1, plain e.2))) := by
  rw [plain, plainEntries_eq]

theorem plain_array (l : List Value) : plain (.array l) = .array (l.map plain) := by rw [plain, plainItems_eq]

theorem plain_plain (v : Value) : plain (plain v) = plain v := by
  induction v using Value.ind with
  | object map ih => rw [plain_object, plain_object, sortedEntries_map_idem ih]
  | array l ih =>
    rw [plain_array, plain_array, map_map]
    exact congrArg Value.array (map_congr_left ih)
  | _ => rw [plain, plain]

theorem foldl_pushBranch (l : List Value) (out : List Value × List Value) : l.foldl pushBranch out =
      (out.1 ++ l.flatMap fun v => (literalsOf v).getD [], out.2 ++ l.filter fun v => (literalsOf v).isNone) := by
  induction l generalizing out with
  | nil => simp
  | cons v l ih =>
    rw [foldl_cons, ih]
    cases h : literalsOf v <;> simp [h, pushBranch]

theorem exists_of_literalsOf {list : List Value} (h : literalsOf v = some list) : ∃ map, v = .object map := by
  unfold literalsOf at h
  split at h
  · exact ⟨_, rfl⟩
  · cases h

theorem plain_of_mem_literals (h : ∀ v ∈ l, ∀ list, literalsOf v = some list → ∀ literal ∈ list, plain literal = literal) :
    ∀ literal ∈ l.flatMap (fun v => (literalsOf v).getD []), plain literal = literal := by
  intro literal hliteral
  obtain ⟨v, hv, hmem⟩ := mem_flatMap.1 hliteral
  cases hlist : literalsOf v with
  | none => rw [hlist] at hmem; cases hmem
  | some list =>
    rw [hlist] at hmem
    exact h v hv list hlist literal hmem

theorem mem_of_lookup (h : map.lookup key = some v) : (key, v) ∈ map := by
  obtain ⟨l, r, rfl, -⟩ := lookup_eq_some_iff.1 h
  exact mem_append_right _ mem_cons_self

theorem lookup_eq_none (h : key ∉ map.map (·.1)) : map.lookup key = none := by
  refine lookup_eq_none_iff.2 fun e he => ?_
  rw [bne_iff_ne]
  rintro rfl
  exact h (mem_map.2 ⟨e, he, rfl⟩)

theorem hoistLoneBranch_of_not_mem (h : "oneOf" ∉ map.map (·.1)) : hoistLoneBranch map = map := by
  rw [hoistLoneBranch, lookup_eq_none h]

def kept (docs : Docs) (key : String) : Bool := !decide (docs = .ignore ∧ key ∈ ANNOTATIONS)

theorem kept_unordered {key : String} (h : key ∈ UNORDERED) : kept docs key = true := by
  have hkey : key ∉ ANNOTATIONS := by
    revert h key
    decide
  rw [kept, decide_eq_false fun h => hkey h.2, Bool.not_false]

end Data

variable [Printer]

/-! ## What each part computes -/

section Parts

variable {docs : Docs} {map map' : Map} {l l' : List Value} {key : String} {v : Value}

theorem canonicalNames_eq : ∀ named : Map, canonicalNames docs named = named.map fun e => (e.1, canonical docs e.2)
  | [] => by rw [canonicalNames, map_nil]
  | (name, v) :: named => by rw [canonicalNames, canonicalNames_eq named, map_cons]

theorem canonicalItems_eq : ∀ l : List Value, canonicalItems docs l = l.map (canonical docs)
  | [] => by rw [canonicalItems, map_nil]
  | v :: l => by rw [canonicalItems, canonicalItems_eq l, map_cons]

def underKey (docs : Docs) (key : String) (v : Value) : Value :=
  if key ∈ SCHEMA_MAPS then canonicalNamed docs v
  else if key ∈ SCHEMA_VALUES then canonical docs v
  else if key ∈ SCHEMA_LISTS then canonicalBranches docs key v
  else if key ∈ UNORDERED then sortedList v
  else plain v

theorem canonicalEntries_eq : ∀ map : Map, canonicalEntries docs map =
    (map.filter fun e => kept docs e.1).map fun e => (e.1, underKey docs e.1 e.2)
  | [] => by rw [canonicalEntries, filter_nil, map_nil]
  | (key, v) :: map => by
    rw [canonicalEntries, canonicalEntries_eq map]
    by_cases h : docs = .ignore ∧ key ∈ ANNOTATIONS
    · have hkept : kept docs key = false := by rw [kept, decide_eq_true h, Bool.not_true]
      rw [if_pos h, filter_cons_of_neg (by rw [hkept]; exact Bool.false_ne_true)]
    · have hkept : kept docs key = true := by rw [kept, decide_eq_false h, Bool.not_false]
      rw [if_neg h, filter_cons_of_pos (by exact hkept), map_cons]
      rfl

theorem sortOn_text_congr (hperm : l.Perm l') : l.sortOn Printer.text = l'.sortOn Printer.text :=
  sortOn_congr (fun _ _ _ _ hab => Printer.text_injective hab) hperm

theorem sortedList_array (l : List Value) : sortedList (.array l) = .array ((l.map plain).sortOn Printer.text) := by
  rw [sortedList, plainItems_eq]

end Parts

/-! ## Branches -/

section Branches

variable {docs : Docs} {l l' : List Value} {v : Value}

def mergedBranch (literals : List Value) : Value :=
  .object [("type", .string "string"), ("enum", .array (literals.sortOn Printer.text))]

theorem mergeStringLiterals_eq (l : List Value) : mergeStringLiterals l =
    if (l.flatMap fun v => (literalsOf v).getD []).isEmpty then l.filter fun v => (literalsOf v).isNone
    else (l.filter fun v => (literalsOf v).isNone) ++ [mergedBranch (l.flatMap fun v => (literalsOf v).getD [])] := by
  rw [mergeStringLiterals, foldl_pushBranch, nil_append, nil_append]
  rfl

/-- The branches of a `oneOf`, merged and sorted. -/
def sortedBranches (l : List Value) : List Value := (mergeStringLiterals l).sortOn Printer.text

theorem sortedBranches_congr (hperm : l.Perm l') : sortedBranches l = sortedBranches l' := by
  have hliterals := hperm.flatMap_right fun v => (literalsOf v).getD []
  have hrest := hperm.filter fun v => (literalsOf v).isNone
  have hbranch : mergedBranch (l.flatMap fun v => (literalsOf v).getD []) =
      mergedBranch (l'.flatMap fun v => (literalsOf v).getD []) := by
    rw [mergedBranch, sortOn_text_congr hliterals, mergedBranch]
  have hempty : (l.flatMap fun v => (literalsOf v).getD []).isEmpty = (l'.flatMap fun v => (literalsOf v).getD []).isEmpty := by
    rw [Bool.eq_iff_iff, isEmpty_iff_length_eq_zero, isEmpty_iff_length_eq_zero, hliterals.length_eq]
  rw [sortedBranches, sortedBranches, mergeStringLiterals_eq, mergeStringLiterals_eq, hempty, hbranch]
  refine sortOn_text_congr ?_
  split
  · exact hrest
  · exact hrest.append_right _

theorem mem_sortedBranches (h : v ∈ sortedBranches l) : (v ∈ l ∧ literalsOf v = none) ∨
    v = mergedBranch (l.flatMap fun v => (literalsOf v).getD []) := by
  rw [sortedBranches, mem_sortOn, mergeStringLiterals_eq] at h
  have hrest : ∀ w, w ∈ l.filter (fun v => (literalsOf v).isNone) → w ∈ l ∧ literalsOf w = none := fun w hw =>
    ⟨(mem_filter.1 hw).1, Option.isNone_iff_eq_none.1 (mem_filter.1 hw).2⟩
  split at h
  · exact .inl (hrest v h)
  · rcases mem_append.1 h with h | h
    · exact .inl (hrest v h)
    · exact .inr (mem_singleton.1 h)

theorem canonical_object (map : Map) : canonical docs (.object map) = .object (sortedEntries (hoistLoneBranch
    (sortedEntries ((map.filter fun e => kept docs e.1).map fun e => (e.1, underKey docs e.1 e.2))))) := by
  rw [canonical, canonicalEntries_eq]

theorem underKey_unordered {key : String} (h : key ∈ UNORDERED) : underKey docs key v = sortedList v := by
  have hkey : key ∉ SCHEMA_MAPS ∧ key ∉ SCHEMA_VALUES ∧ key ∉ SCHEMA_LISTS := by
    revert h key
    decide
  rw [underKey, if_neg hkey.1, if_neg hkey.2.1, if_neg hkey.2.2, if_pos h]

theorem canonical_mergedBranch {literals : List Value} (hplain : ∀ v ∈ literals, plain v = v) :
    canonical docs (mergedBranch literals) =
      .object [("enum", .array (literals.sortOn Printer.text)), ("type", .string "string")] := by
  have htype : "type" ∈ UNORDERED := by decide
  have henum : "enum" ∈ UNORDERED := by decide
  have hsorted : sortedList (.array (literals.sortOn Printer.text)) = .array (literals.sortOn Printer.text) := by
    rw [sortedList_array, map_congr_left fun v hv => hplain v (mem_sortOn.1 hv), map_id', sortOn_sortOn]
  have hswap : ∀ a b : Value, sortedEntries [("type", a), ("enum", b)] = [("enum", b), ("type", a)] ∧
      sortedEntries [("enum", b), ("type", a)] = [("enum", b), ("type", a)] := by
    have hle : "enum" ≤ "type" := by decide
    have hnot : ¬ "type" ≤ "enum" := by decide
    intro a b
    simp [sortedEntries, List.sortOn, hle, hnot]
  rw [mergedBranch, canonical_object, filter_cons_of_pos (by exact kept_unordered htype),
    filter_cons_of_pos (by exact kept_unordered henum), filter_nil, map_cons, map_cons, map_nil,
    underKey_unordered htype, underKey_unordered henum, hsorted, (hswap _ _).1]
  exact congrArg Value.object (hswap _ _).2

theorem mergeStringLiterals_append {rest list : List Value} {branch : Value} (hrest : ∀ v ∈ rest, literalsOf v = none)
    (hbranch : literalsOf branch = some list) (hlist : list ≠ []) :
    mergeStringLiterals (rest ++ [branch]) = rest ++ [mergedBranch list] := by
  have hnone : rest.flatMap (fun v => (literalsOf v).getD []) = [] :=
    flatMap_eq_nil_iff.2 fun v hv => by rw [hrest v hv, Option.getD_none]
  have hkept : rest.filter (fun v => (literalsOf v).isNone) = rest :=
    filter_eq_self.2 fun v hv => by rw [hrest v hv, Option.isNone_none]
  rw [mergeStringLiterals_eq, flatMap_append, filter_append, hnone, hkept, nil_append, flatMap_singleton,
    filter_singleton, hbranch, Option.getD_some, if_neg (by rwa [List.isEmpty_iff])]
  exact congrArg (· ++ [mergedBranch list]) (append_nil rest)

theorem mergeStringLiterals_self (h : ∀ v ∈ l, literalsOf v = none) : mergeStringLiterals l = l := by
  have hnone : l.flatMap (fun v => (literalsOf v).getD []) = [] :=
    flatMap_eq_nil_iff.2 fun v hv => by rw [h v hv, Option.getD_none]
  rw [mergeStringLiterals_eq, hnone, if_pos isEmpty_nil]
  exact filter_eq_self.2 fun v hv => by rw [h v hv, Option.isNone_none]

theorem sortedBranches_map_canonical (hcanonical : ∀ v ∈ l, canonical docs v = v)
    (hplain : ∀ v ∈ l, ∀ list, literalsOf v = some list → ∀ literal ∈ list, plain literal = literal) :
    sortedBranches ((sortedBranches l).map (canonical docs)) = sortedBranches l := by
  have hliterals := plain_of_mem_literals hplain
  have hsorted : ∀ l' : List Value, sortedBranches ((l'.sortOn Printer.text).map (canonical docs)) =
      sortedBranches (l'.map (canonical docs)) := fun l' => sortedBranches_congr ((sortOn_perm _ l').map _)
  have hrest : ∀ v ∈ l.filter (fun v => (literalsOf v).isNone), literalsOf v = none ∧ canonical docs v = v := fun v hv =>
    ⟨Option.isNone_iff_eq_none.1 (mem_filter.1 hv).2, hcanonical v (mem_filter.1 hv).1⟩
  have hmerged := mergeStringLiterals_eq l
  generalize l.filter (fun v => (literalsOf v).isNone) = rest at hrest hmerged
  generalize l.flatMap (fun v => (literalsOf v).getD []) = literals at hliterals hmerged
  rw [show sortedBranches l = (mergeStringLiterals l).sortOn Printer.text from rfl, hsorted, hmerged]
  split
  · rw [map_congr_left fun v hv => (hrest v hv).2, map_id', sortedBranches,
      mergeStringLiterals_self fun v hv => (hrest v hv).1]
  · next hne =>
    have hlist : literals.sortOn Printer.text ≠ [] := by
      intro hnil
      have hperm := sortOn_perm Printer.text literals
      rw [hnil] at hperm
      exact hne (List.isEmpty_iff.2 hperm.symm.eq_nil)
    have hbranch : mergedBranch (literals.sortOn Printer.text) = mergedBranch literals := by
      rw [mergedBranch, sortOn_sortOn, mergedBranch]
    rw [map_append, map_singleton, map_congr_left fun v hv => (hrest v hv).2, map_id',
      canonical_mergedBranch hliterals, sortedBranches, mergeStringLiterals_append (fun v hv => (hrest v hv).1) rfl hlist, hbranch]

end Branches

/-! ## Canonical forms of canonical forms -/

section Idempotent

variable {docs : Docs} {map : Map} {l list : List Value} {v : Value} {key : String}

/-- Entries that are kept and stay what they are. -/
structure Tidy (docs : Docs) (map : Map) : Prop where
  kept : ∀ e ∈ map, kept docs e.1 = true
  fixed : ∀ e ∈ map, underKey docs e.1 e.2 = e.2

/-- A map that a canonical form leaves as it is. -/
structure Settled (docs : Docs) (map : Map) : Prop extends Tidy docs map where
  sorted : sortedEntries map = map
  lone : hoistLoneBranch map = map

theorem Settled.canonical_eq (h : Settled docs map) : canonical docs (.object map) = .object map := by
  have hfixed : map.map (fun e => (e.1, underKey docs e.1 e.2)) = map :=
    (map_congr_left fun e he => Prod.ext (by rfl) (h.fixed e he)).trans (map_id map)
  rw [canonical_object, filter_eq_self.2 h.kept, hfixed, h.sorted, h.lone, h.sorted]

theorem Tidy.sortedEntries (h : Tidy docs map) : Tidy docs (sortedEntries map) where
  kept e he := h.kept e (mem_sortOn.1 he)
  fixed e he := h.fixed e (mem_sortOn.1 he)

theorem underKey_const (v : Value) : underKey docs "const" v = plain v := by
  rw [underKey, if_neg (by decide), if_neg (by decide), if_neg (by decide), if_neg (by decide)]

theorem Tidy.plain_literals (h : Tidy docs map) (hlist : literalsOf (.object map) = some list) :
    ∀ literal ∈ list, plain literal = literal := by
  intro literal hmem
  rw [literalsOf] at hlist
  split at hlist
  · next w _ hconst _ =>
    cases hlist
    rw [mem_singleton] at hmem
    subst hmem
    have hfixed := h.fixed _ (mem_of_lookup hconst)
    rwa [underKey_const] at hfixed
  · next w _ _ henum =>
    cases hlist
    have hfixed : underKey docs "enum" (.array list) = .array list := h.fixed _ (mem_of_lookup henum)
    rw [underKey_unordered (by decide), sortedList_array, Value.array.injEq] at hfixed
    rw [← hfixed, mem_sortOn] at hmem
    obtain ⟨w, -, rfl⟩ := mem_map.1 hmem
    exact plain_plain w
  · cases hlist

theorem settled_hoisted (h : Tidy docs map) (hsorted : Fingerprint.sortedEntries map = map)
    (hbranch : ∀ branch, ("oneOf", .array [.object branch]) ∈ map → Tidy docs branch) :
    Settled docs (Fingerprint.sortedEntries (hoistLoneBranch map)) := by
  have hcases : hoistLoneBranch map = map ∨ ∃ branch, ("oneOf", .array [.object branch]) ∈ map ∧
      (∀ e ∈ branch, e.1 ∉ map.map (·.1)) ∧ hoistLoneBranch map = map.filter (·.1 != "oneOf") ++ branch := by
    unfold hoistLoneBranch
    split
    · next branch hlone =>
      by_cases hany : (branch.any fun e => (map.map (·.1)).contains e.1) = true
      · exact .inl (if_pos hany)
      · refine .inr ⟨branch, mem_of_lookup hlone, fun e he hmem => ?_, if_neg hany⟩
        exact hany (any_eq_true.2 ⟨e, he, contains_iff_mem.2 hmem⟩)
    · exact .inl rfl
  rcases hcases with hlone | ⟨branch, hmem, hkeys, hoisted⟩
  · rw [hlone, hsorted]
    exact ⟨h, hsorted, hlone⟩
  · have htidy : Tidy docs (map.filter (·.1 != "oneOf") ++ branch) := by
      constructor <;> intro e he <;> rcases mem_append.1 he with he | he
      · exact h.kept e (mem_of_mem_filter he)
      · exact (hbranch branch hmem).kept e he
      · exact h.fixed e (mem_of_mem_filter he)
      · exact (hbranch branch hmem).fixed e he
    -- The hoisted branch brings no `oneOf` of its own, since its parent had one.
    have hnone : "oneOf" ∉ (Fingerprint.sortedEntries (map.filter (·.1 != "oneOf") ++ branch)).map (·.1) := by
      intro hone
      obtain ⟨e, he, hkey⟩ := mem_map.1 hone
      rcases mem_append.1 (mem_sortOn.1 he) with he | he
      · exact absurd hkey (bne_iff_ne.1 (mem_filter.1 he).2)
      · exact hkeys e he (hkey ▸ mem_map.2 ⟨_, hmem, rfl⟩)
    rw [hoisted]
    exact ⟨htidy.sortedEntries, sortedEntries_sortedEntries _, hoistLoneBranch_of_not_mem hnone⟩

theorem mergedBranch_tidy {literals : List Value} (hplain : ∀ v ∈ literals, plain v = v)
    (h : mergedBranch literals = .object map) : Tidy docs map := by
  have hmap : map = [("type", .string "string"), ("enum", .array (literals.sortOn Printer.text))] :=
    (Value.object.inj h).symm
  have hkeys : ∀ e ∈ map, e.1 ∈ UNORDERED := by
    rw [hmap, forall_mem_cons, forall_mem_singleton]
    exact ⟨(by decide : "type" ∈ UNORDERED), (by decide : "enum" ∈ UNORDERED)⟩
  refine ⟨fun e he => kept_unordered (hkeys e he), fun e he => ?_⟩
  rw [underKey_unordered (hkeys e he)]
  rw [hmap, mem_cons, mem_singleton] at he
  rcases he with rfl | rfl
  · rfl
  · rw [sortedList_array, map_congr_left fun v hv => hplain v (mem_sortOn.1 hv), map_id', sortOn_sortOn]

/-- What canonicalising a value gives: settled maps, values that are canonical under every keyword, and tidy branches. -/
structure Stable (docs : Docs) (v : Value) : Prop where
  settled : ∀ map, canonical docs v = .object map → Settled docs map
  under : ∀ key, underKey docs key (underKey docs key v) = underKey docs key v
  branches : ∀ l map, underKey docs "oneOf" v = .array l → .object map ∈ l → Tidy docs map

theorem canonical_array (l : List Value) : canonical docs (.array l) = .array l := by rw [canonical]

theorem canonical_canonical_of_settled (h : ∀ map, canonical docs v = .object map → Settled docs map) :
    canonical docs (canonical docs v) = canonical docs v := by
  cases hv : canonical docs v with
  | object map => exact (h map hv).canonical_eq
  | _ => rw [canonical]

theorem underKey_eq_canonical (h : key ∈ SCHEMA_VALUES) : underKey docs key v = canonical docs v := by
  have hmap : key ∉ SCHEMA_MAPS := by
    revert h key
    decide
  rw [underKey, if_neg hmap, if_pos h]

theorem underKey_object (key : String) (map : Map) : underKey docs key (.object map) =
    if key ∈ SCHEMA_MAPS then .object (sortedEntries (map.map fun e => (e.1, canonical docs e.2)))
    else if key ∈ SCHEMA_VALUES then canonical docs (.object map) else plain (.object map) := by
  rw [underKey, canonicalNamed, canonicalNames_eq, canonicalBranches, sortedList, ite_self, ite_self]
  all_goals exact fun _ h => nomatch h

theorem stable_object (ih : ∀ e ∈ map, Stable docs e.2) : Stable docs (.object map) := by
  have hsettled : ∀ map', canonical docs (.object map) = .object map' → Settled docs map' := by
    intro map' h
    rw [canonical_object, Value.object.injEq] at h
    rw [← h]
    refine settled_hoisted (Tidy.sortedEntries ⟨fun e he => ?_, fun e he => ?_⟩) (sortedEntries_sortedEntries _) fun branch he => ?_
    · obtain ⟨e, hmem, rfl⟩ := mem_map.1 he
      exact (mem_filter.1 hmem).2
    · obtain ⟨e, hmem, rfl⟩ := mem_map.1 he
      exact (ih e (mem_of_mem_filter hmem)).under e.1
    · obtain ⟨e, hmem, heq⟩ := mem_map.1 (mem_sortOn.1 he)
      obtain ⟨key, v⟩ := e
      obtain ⟨rfl, hbranch⟩ := Prod.ext_iff.1 heq
      exact (ih _ (mem_of_mem_filter hmem)).branches _ branch hbranch mem_cons_self
  refine ⟨hsettled, fun key => ?_, fun l map' h => ?_⟩
  · rw [underKey_object]
    by_cases hmaps : key ∈ SCHEMA_MAPS
    · rw [if_pos hmaps, underKey_object, if_pos hmaps, sortedEntries_map_idem fun e he => canonical_canonical_of_settled (ih e he).settled]
    · rw [if_neg hmaps]
      by_cases hvalues : key ∈ SCHEMA_VALUES
      · rw [if_pos hvalues, underKey_eq_canonical hvalues]
        exact canonical_canonical_of_settled hsettled
      · rw [if_neg hvalues, plain_object, underKey_object, if_neg hmaps, if_neg hvalues, ← plain_object, plain_plain]
  · rw [underKey_object, if_neg (by decide), if_neg (by decide), plain_object] at h
    cases h

def underItems (docs : Docs) (key : String) (l : List Value) : List Value :=
  if key ∈ SCHEMA_MAPS then l.map plain
  else if key ∈ SCHEMA_VALUES then l
  else if key ∈ SCHEMA_LISTS then
    if key = "oneOf" then sortedBranches (l.map (canonical docs)) else l.map (canonical docs)
  else if key ∈ UNORDERED then (l.map plain).sortOn Printer.text
  else l.map plain

theorem underKey_array (key : String) (l : List Value) : underKey docs key (.array l) = .array (underItems docs key l) := by
  rw [underKey, underItems]
  split_ifs with h1 h2 h3 h4 h5
  · rw [canonicalNamed, plain_array]
    exact fun _ h => nomatch h
  · exact canonical_array l
  · rw [canonicalBranches, canonicalItems_eq, if_pos h4, sortedBranches]
  · rw [canonicalBranches, canonicalItems_eq, if_neg h4]
  · exact sortedList_array l
  · exact plain_array l

theorem plain_literals (ih : ∀ v ∈ l, Stable docs v) : ∀ v ∈ l.map (canonical docs), ∀ list, literalsOf v = some list →
    ∀ literal ∈ list, plain literal = literal := by
  intro v hv list hlist
  obtain ⟨w, hw, rfl⟩ := mem_map.1 hv
  obtain ⟨map, hc⟩ := exists_of_literalsOf hlist
  rw [hc] at hlist
  exact ((ih w hw).settled map hc).toTidy.plain_literals hlist

theorem stable_array (ih : ∀ v ∈ l, Stable docs v) : Stable docs (.array l) := by
  have hcanonical : ∀ v ∈ l.map (canonical docs), canonical docs v = v := by
    intro v hv
    obtain ⟨w, hw, rfl⟩ := mem_map.1 hv
    exact canonical_canonical_of_settled (ih w hw).settled
  have hplain : (l.map plain).map plain = l.map plain := by
    rw [map_map]
    exact map_congr_left fun v _ => plain_plain v
  refine ⟨fun map h => ?_, fun key => ?_, fun l' map h hmem => ?_⟩
  · rw [canonical_array] at h
    cases h
  · rw [underKey_array, underKey_array, underItems, underItems]
    split_ifs
    · rw [hplain]
    · rfl
    · rw [sortedBranches_map_canonical hcanonical (plain_literals ih)]
    · rw [map_congr_left hcanonical, map_id']
    · have hsorted : ((l.map plain).sortOn Printer.text).map plain = (l.map plain).sortOn Printer.text := by
        refine (map_congr_left fun v hv => ?_).trans (map_id _)
        obtain ⟨w, -, rfl⟩ := mem_map.1 (mem_sortOn.1 hv)
        exact plain_plain w
      rw [hsorted, sortOn_sortOn]
    · rw [hplain]
  · rw [underKey_array, Value.array.injEq] at h
    have hitems : underItems docs "oneOf" l = sortedBranches (l.map (canonical docs)) := by
      rw [underItems, if_neg (by decide), if_neg (by decide), if_pos (by decide), if_pos rfl]
    rw [← h, hitems] at hmem
    rcases mem_sortedBranches hmem with ⟨hbranch, -⟩ | hmerged
    · obtain ⟨w, hw, hc⟩ := mem_map.1 hbranch
      exact ((ih w hw).settled map hc).toTidy
    · exact mergedBranch_tidy (plain_of_mem_literals (plain_literals ih)) hmerged.symm

theorem stable_scalar (hcanonical : canonical docs v = v) (hunder : ∀ key, underKey docs key v = v)
    (hobject : ∀ entries, v ≠ .object entries) (harray : ∀ items, v ≠ .array items) : Stable docs v where
  settled _ h := absurd (hcanonical.symm.trans h) (hobject _)
  under key := congrArg (underKey docs key) (hunder key)
  branches _ _ h _ := absurd ((hunder _).symm.trans h) (harray _)

theorem stable (v : Value) : Stable docs v := by
  induction v using Value.ind with
  | object map ih => exact stable_object ih
  | array l ih => exact stable_array ih
  | _ =>
    refine stable_scalar (by rw [canonical]) (fun key => ?_) (fun _ h => nomatch h) (fun _ h => nomatch h)
    rw [underKey, canonicalNamed, canonical, canonicalBranches, sortedList, plain, ite_self, ite_self, ite_self, ite_self]
    all_goals exact fun _ h => nomatch h

theorem canonical_canonical (docs : Docs) (v : Value) : canonical docs (canonical docs v) = canonical docs v :=
  canonical_canonical_of_settled (stable v).settled

end Idempotent

end Pbps.Fingerprint
