/-
Schemas that a reader cannot tell apart have one canonical form: object keys and lists without an order come in any order,
and annotations come and go.
-/
import Pbps.Fingerprint.Stable

namespace Pbps.Fingerprint

open Json (Value Printer)
open Relation (ReflTransGen)
open List

/-! ## One rearrangement -/

/-- Data, with the keys of one of its objects in another order. -/
inductive DataStep : Value → Value → Prop
  | keys {map map' : Map} (h : map.Perm map') : DataStep (.object map) (.object map')
  | entry {l r : Map} {key : String} {v v' : Value} (h : DataStep v v') :
      DataStep (.object (l ++ (key, v) :: r)) (.object (l ++ (key, v') :: r))
  | item {l r : List Value} {v v' : Value} (h : DataStep v v') : DataStep (.array (l ++ v :: r)) (.array (l ++ v' :: r))

/-- A schema with its keys, or one of its lists without an order, in another order, with an annotation more or less, or with
this done to a schema or to data in it. -/
inductive Step : Value → Value → Prop
  | keys {map map' : Map} (h : map.Perm map') : Step (.object map) (.object map')
  | unordered {l r : Map} {key : String} {list list' : List Value} (hkey : key = "oneOf" ∨ key ∈ UNORDERED) (h : list.Perm list') :
      Step (.object (l ++ (key, .array list) :: r)) (.object (l ++ (key, .array list') :: r))
  | annotate {l r : Map} {key : String} {v : Value} (hkey : key ∈ ANNOTATIONS) (hnew : key ∉ (l ++ r).map (·.1)) (hv : v.Distinct) :
      Step (.object (l ++ r)) (.object (l ++ (key, v) :: r))
  | strip {l r : Map} {key : String} {v : Value} (hkey : key ∈ ANNOTATIONS) :
      Step (.object (l ++ (key, v) :: r)) (.object (l ++ r))
  | names {l r : Map} {key : String} {named named' : Map} (hkey : key ∈ SCHEMA_MAPS) (h : named.Perm named') :
      Step (.object (l ++ (key, .object named) :: r)) (.object (l ++ (key, .object named') :: r))
  | named {l r m n : Map} {key name : String} {v v' : Value} (hkey : key ∈ SCHEMA_MAPS) (h : Step v v') :
      Step (.object (l ++ (key, .object (m ++ (name, v) :: n)) :: r)) (.object (l ++ (key, .object (m ++ (name, v') :: n)) :: r))
  | value {l r : Map} {key : String} {v v' : Value} (hkey : key ∈ SCHEMA_VALUES) (h : Step v v') :
      Step (.object (l ++ (key, v) :: r)) (.object (l ++ (key, v') :: r))
  | branch {l r : Map} {m n : List Value} {key : String} {v v' : Value} (hkey : key ∈ SCHEMA_LISTS) (h : Step v v') :
      Step (.object (l ++ (key, .array (m ++ v :: n)) :: r)) (.object (l ++ (key, .array (m ++ v' :: n)) :: r))
  | data {l r : Map} {key : String} {v v' : Value} (hkey : key ∉ SCHEMA_MAPS ∧ key ∉ SCHEMA_VALUES ∧ key ∉ SCHEMA_LISTS)
      (h : DataStep v v') : Step (.object (l ++ (key, v) :: r)) (.object (l ++ (key, v') :: r))

section Steps

variable {docs : Docs} {map map' l r : Map} {items items' : List Value} {v v' : Value} {key : String}

/-! ## Keys stay distinct -/

theorem distinct_perm (h : map.Perm map') (hd : (Value.object map).Distinct) : (Value.object map').Distinct := by
  rw [Json.distinct_object] at hd ⊢
  exact ⟨(h.map _).nodup_iff.1 hd.1, fun e he => hd.2 e (h.mem_iff.2 he)⟩

theorem distinct_under (h : (Value.object (l ++ (key, v) :: r)).Distinct) : v.Distinct :=
  (Json.distinct_object.1 h).2 (key, v) (mem_append_right _ mem_cons_self)

theorem distinct_replace (h : (Value.object (l ++ (key, v) :: r)).Distinct) (hv : v'.Distinct) :
    (Value.object (l ++ (key, v') :: r)).Distinct := by
  rw [Json.distinct_object] at h ⊢
  refine ⟨?_, fun e he => ?_⟩
  · have hkeys := h.1
    rw [map_append, map_cons] at hkeys ⊢
    exact hkeys
  · rcases mem_append.1 he with he | he
    · exact h.2 e (mem_append_left _ he)
    · rcases mem_cons.1 he with rfl | he
      · exact hv
      · exact h.2 e (mem_append_right _ (mem_cons_of_mem _ he))

theorem distinct_items_replace {l r : List Value} (h : (Value.array (l ++ v :: r)).Distinct) (hv : v'.Distinct) :
    (Value.array (l ++ v' :: r)).Distinct := by
  rw [Json.distinct_array] at h ⊢
  intro w hw
  rcases mem_append.1 hw with hw | hw
  · exact h w (mem_append_left _ hw)
  · rcases mem_cons.1 hw with rfl | hw
    · exact hv
    · exact h w (mem_append_right _ (mem_cons_of_mem _ hw))

theorem distinct_item {l r : List Value} (h : (Value.array (l ++ v :: r)).Distinct) : v.Distinct :=
  Json.distinct_array.1 h v (mem_append_right _ mem_cons_self)

theorem distinct_items_perm (h : items.Perm items') (hd : (Value.array items).Distinct) : (Value.array items').Distinct := by
  rw [Json.distinct_array] at hd ⊢
  exact fun v hv => hd v (h.mem_iff.2 hv)

theorem DataStep.distinct (h : DataStep v v') (hd : v.Distinct) : v'.Distinct := by
  induction h with
  | keys hperm => exact distinct_perm hperm hd
  | entry _ ih => exact distinct_replace hd (ih (distinct_under hd))
  | item _ ih => exact distinct_items_replace hd (ih (distinct_item hd))

theorem distinct_annotate (h : (Value.object (l ++ r)).Distinct) (hnew : key ∉ (l ++ r).map (·.1)) (hv : v.Distinct) :
    (Value.object (l ++ (key, v) :: r)).Distinct := by
  have hcons : (Value.object ((key, v) :: (l ++ r))).Distinct := by
    rw [Json.distinct_object] at h ⊢
    exact ⟨nodup_cons.2 ⟨hnew, h.1⟩, forall_mem_cons.2 ⟨hv, h.2⟩⟩
  exact distinct_perm perm_middle.symm hcons

theorem distinct_strip (h : (Value.object (l ++ (key, v) :: r)).Distinct) : (Value.object (l ++ r)).Distinct := by
  have hcons := distinct_perm perm_middle h
  rw [Json.distinct_object] at hcons ⊢
  exact ⟨(nodup_cons.1 hcons.1).2, fun e he => hcons.2 e (mem_cons_of_mem _ he)⟩

theorem Step.distinct (h : Step v v') (hd : v.Distinct) : v'.Distinct := by
  induction h with
  | keys hperm => exact distinct_perm hperm hd
  | unordered _ hperm => exact distinct_replace hd (distinct_items_perm hperm (distinct_under hd))
  | annotate _ hnew hv => exact distinct_annotate hd hnew hv
  | strip _ => exact distinct_strip hd
  | names _ hperm => exact distinct_replace hd (distinct_perm hperm (distinct_under hd))
  | named _ _ ih => exact distinct_replace hd (distinct_replace (distinct_under hd) (ih (distinct_under (distinct_under hd))))
  | value _ _ ih => exact distinct_replace hd (ih (distinct_under hd))
  | branch _ _ ih => exact distinct_replace hd (distinct_items_replace (distinct_under hd) (ih (distinct_item (distinct_under hd))))
  | data _ h => exact distinct_replace hd (h.distinct (distinct_under hd))

/-! ## Canonical forms stay the same -/

theorem plain_object_perm (h : map.Perm map') (hd : (map.map (·.1)).Nodup) : plain (.object map) = plain (.object map') := by
  rw [plain_object, plain_object, sortedEntries_congr (by rwa [map_map]) (h.map _)]

theorem DataStep.plain_eq (h : DataStep v v') (hd : v.Distinct) : plain v = plain v' := by
  induction h with
  | keys hperm => exact plain_object_perm hperm (Json.distinct_object.1 hd).1
  | entry _ ih => simp only [plain_object, map_append, map_cons, ih (distinct_under hd)]
  | item _ ih => simp only [plain_array, map_append, map_cons, ih (distinct_item hd)]

variable [Printer]

theorem DataStep.sortedList_eq (h : DataStep v v') (hd : v.Distinct) : sortedList v = sortedList v' := by
  cases h with
  | keys hperm => exact plain_object_perm hperm (Json.distinct_object.1 hd).1
  | entry h => exact (DataStep.entry h).plain_eq hd
  | item h => simp only [sortedList_array, map_append, map_cons, h.plain_eq (distinct_item hd)]

theorem canonical_under (h : underKey docs key v = underKey docs key v') :
    canonical docs (.object (l ++ (key, v) :: r)) = canonical docs (.object (l ++ (key, v') :: r)) := by
  simp only [canonical_object, filter_append, map_append, filter_cons]
  split
  · rw [map_cons, map_cons, h]
  · rfl

theorem canonical_annotated (hkey : key ∈ ANNOTATIONS) :
    canonical .ignore (.object (l ++ (key, v) :: r)) = canonical .ignore (.object (l ++ r)) := by
  have hkept : kept .ignore key = false := by rw [kept, decide_eq_true ⟨rfl, hkey⟩, Bool.not_true]
  rw [canonical_object, canonical_object, filter_append, filter_append,
    filter_cons_of_neg (by rw [hkept]; exact Bool.false_ne_true)]

theorem underItems_lists (hkey : key ∈ SCHEMA_LISTS) : underItems docs key items =
    if key = "oneOf" then sortedBranches (items.map (canonical docs)) else items.map (canonical docs) := by
  have hother : key ∉ SCHEMA_MAPS ∧ key ∉ SCHEMA_VALUES := by
    revert hkey key
    decide
  rw [underItems, if_neg hother.1, if_neg hother.2, if_pos hkey]

theorem Step.canonical_eq (h : Step v v') (hd : v.Distinct) : canonical .ignore v = canonical .ignore v' := by
  induction h with
  | keys hperm =>
    rw [canonical_object, canonical_object, sortedEntries_congr ?_ ((hperm.filter _).map _)]
    rw [map_map]
    exact (Json.distinct_object.1 hd).1.sublist (filter_sublist.map _)
  | unordered hkey hperm =>
    refine canonical_under ?_
    rcases hkey with rfl | hkey
    · rw [underKey_array, underKey_array, underItems_lists (by decide), underItems_lists (by decide), if_pos rfl, if_pos rfl,
        sortedBranches_congr (hperm.map _)]
    · rw [underKey_unordered hkey, underKey_unordered hkey, sortedList_array, sortedList_array, sortOn_text_congr (hperm.map _)]
  | annotate hkey _ _ => exact (canonical_annotated hkey).symm
  | strip hkey => exact canonical_annotated hkey
  | names hkey hperm =>
    refine canonical_under ?_
    have hkeys := (Json.distinct_object.1 (distinct_under hd)).1
    rw [underKey_object, underKey_object, if_pos hkey, if_pos hkey,
      sortedEntries_congr (by rwa [map_map]) (hperm.map _)]
  | named hkey _ ih =>
    refine canonical_under ?_
    rw [underKey_object, underKey_object, if_pos hkey, if_pos hkey, map_append, map_append, map_cons, map_cons,
      ih (distinct_under (distinct_under hd))]
  | value hkey _ ih =>
    refine canonical_under ?_
    rw [underKey_eq_canonical hkey, underKey_eq_canonical hkey, ih (distinct_under hd)]
  | branch hkey _ ih =>
    refine canonical_under ?_
    rw [underKey_array, underKey_array, underItems_lists hkey, underItems_lists hkey, map_append, map_append,
      map_cons, map_cons, ih (distinct_item (distinct_under hd))]
  | data hkey h =>
    refine canonical_under ?_
    rw [underKey, underKey, if_neg hkey.1, if_neg hkey.2.1, if_neg hkey.2.2, if_neg hkey.1, if_neg hkey.2.1, if_neg hkey.2.2,
      h.plain_eq (distinct_under hd), h.sortedList_eq (distinct_under hd)]

end Steps

/-- The canonical form ignores what a reader cannot see: schemas that any number of rearrangements make of one another have
one canonical form. And in both modes a canonical form is its own canonical form. -/
theorem canonical_ignores_unseen [Printer] : (∀ s s' : Value, s.Distinct → ReflTransGen Step s s' →
      canonical .ignore s = canonical .ignore s') ∧
    ∀ (docs : Docs) (s : Value), canonical docs (canonical docs s) = canonical docs s := by
  refine ⟨fun s s' hd h => ?_, canonical_canonical⟩
  have hsteps : canonical .ignore s = canonical .ignore s' ∧ s'.Distinct := by
    induction h with
    | refl => exact ⟨rfl, hd⟩
    | tail _ hstep ih => exact ⟨ih.1.trans (hstep.canonical_eq ih.2), hstep.distinct ih.2⟩
  exact hsteps.1

namespace Mode

instance : Printer := Json.compact

/-- A variant of an enum that is documented, and so a branch of its own. -/
def variant (name comment : String) : Value :=
  .object [("description", .string comment), ("type", .string "string"), ("const", .string name)]

def documented : Value := .object [("title", .string "Mode"), ("oneOf", .array [variant "staged" "Later.", variant "direct" "Now."])]

/-- The same enum with its variants the other way round, and without its title. -/
def reordered : Value := .object [("oneOf", .array [variant "direct" "Now.", variant "staged" "Later."])]

def untitled : Value := .object [("oneOf", .array [variant "staged" "Later.", variant "direct" "Now."])]

theorem canonical_documented : canonical .ignore documented = canonical .ignore reordered := by
  have hkeys : ["description", "type", "const"].Nodup := by decide
  have hvariant : ∀ name comment : String, (variant name comment).Distinct := fun _ _ => ⟨hkeys, trivial, trivial, trivial, trivial⟩
  have hdistinct : documented.Distinct :=
    ⟨(by decide : ["title", "oneOf"].Nodup), trivial, ⟨hvariant _ _, hvariant _ _, trivial⟩, trivial⟩
  have hstrip : Step documented untitled := Step.strip (l := []) (by decide)
  have hswap : Step untitled reordered := Step.unordered (l := []) (r := []) (.inl rfl) (.swap _ _ _)
  exact canonical_ignores_unseen.1 documented reordered hdistinct (.tail (.single hstrip) hswap)

end Mode

end Pbps.Fingerprint
