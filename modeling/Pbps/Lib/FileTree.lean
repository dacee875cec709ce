/-
Trees of files, directories and links, and the calls a program makes on them by path. A path is walked from the root, through
links. What a walk finds depends on the directories and links it passes: a tree that has them all gives the same place, and one
that has lost some gives the same place or none.
-/
import Pbps.Lib.Check
import Pbps.Lib.Map
import Mathlib.Data.List.Induction

namespace Pbps.FileTree

open Std (ExtTreeMap)
open List Except Std.ExtTreeMap

/-! ## Trees -/

abbrev Location := List String

/-- A component of a path. -/
inductive Step where
  | name (name : String)
  | up
  deriving DecidableEq, Repr

abbrev Path := List Step

/-- What a link says: a path from the root, or from the directory of the link. -/
structure Target where
  absolute : Bool
  steps : Path
  deriving DecidableEq, Repr

inductive Entry (F : Type) where
  | directory
  | file (file : F)
  | link (target : Target)
  deriving DecidableEq, Repr

abbrev Tree (F : Type) := ExtTreeMap Location (Entry F)

inductive Error where
  | notFound
  | alreadyExists
  | notADirectory
  | isADirectory
  | directoryNotEmpty
  | filesystemLoop
  | resourceBusy
  | invalidInput
  deriving DecidableEq, Repr

variable {F : Type}

/-- Whether an entry is passed on the way to another: a directory or a link. -/
def Entry.Passed (e : Entry F) : Prop := ∀ f, e ≠ .file f

/-- Every entry is in a directory. -/
structure Closed (t : Tree F) : Prop where
  root : t[([] : Location)]? = some .directory
  parent : ∀ (x : Location) s e, t[x ++ [s]]? = some e → t[x]? = some .directory

/-! ## Walking -/

/-- The place a path leads to, links followed. The number bounds the components that are walked, those of links included. -/
def resolve (t : Tree F) : Nat → Location → Path → Except Error Location
  | _, place, [] => .ok place
  | 0, _, _ :: _ => .error .filesystemLoop
  | n + 1, place, .up :: rest => resolve t n place.dropLast rest
  | n + 1, place, .name s :: rest =>
    match t[place ++ [s]]? with
    | none => .error .notFound
    | some .directory => resolve t n (place ++ [s]) rest
    | some (.file _) => if rest = [] then .ok (place ++ [s]) else .error .notADirectory
    | some (.link target) => resolve t n (if target.absolute then [] else place) (target.steps ++ rest)

variable (limit : Nat)

variable (t : Tree F) (path : Path)

def directoryOf : Except Error Location := do
  let place ← resolve t limit [] path
  match t[place]? with
  | some .directory => .ok place
  | some _ => .error .notADirectory
  | none => .error .notFound

def locate : Except Error Location :=
  match path.getLast? with
  | some (.name s) => (directoryOf limit t path.dropLast).map (· ++ [s])
  | _ => directoryOf limit t path

/-! ## Calls -/

/-- `symlink_metadata`. -/
def lookup : Except Error (Entry F) := do
  let place ← locate limit t path
  match t[place]? with
  | some e => .ok e
  | none => .error .notFound

/-- `metadata`: the place of what a path leads to and its entry, which is no link. -/
def stat : Except Error (Location × Entry F) := do
  let place ← resolve t limit [] path
  match t[place]? with
  | some e => .ok (place, e)
  | none => .error .notFound

def create (e : Entry F) : Except Error (Location × Tree F) := do
  let place ← locate limit t path
  match t[place]? with
  | some _ => .error .alreadyExists
  | none => .ok (place, t.insert place e)

/-- `remove_file`. -/
def removeFile : Except Error (Tree F) := do
  let place ← locate limit t path
  match t[place]? with
  | none => .error .notFound
  | some .directory => .error .isADirectory
  | some _ => .ok (t.erase place)

def Under (place dir : Location) : Bool := dir.isPrefixOf place

theorem under_iff {place dir : Location} : Under place dir = true ↔ dir <+: place := isPrefixOf_iff_prefix

@[simp] theorem under_self (dir : Location) : Under dir dir = true := under_iff.2 (prefix_refl dir)

/-- `remove_dir`: only an empty directory goes. -/
def removeDir : Except Error (Tree F) := do
  let place ← locate limit t path
  match t[place]? with
  | none => .error .notFound
  | some .directory =>
    if place = [] then .error .resourceBusy
    else if t.keys.any fun x => Under x place && x != place then .error .directoryNotEmpty
    else .ok (t.erase place)
  | some _ => .error .notADirectory

def without (dir : Location) : Tree F := t.filter fun x _ => !Under x dir

/-- `remove_dir_all`. A link goes, and what it leads to stays. -/
def removeDirAll : Except Error (Tree F) := do
  let place ← locate limit t path
  match t[place]? with
  | none => .error .notFound
  | some (.file _) => .error .notADirectory
  | some _ => if place = [] then .error .resourceBusy else .ok (without t place)

def relocate (place place' : Location) : Tree F :=
  .ofList (t.toList.map fun (x, e) => (if Under x place then place' ++ x.drop place.length else x, e))

/-- `rename`. -/
def rename (path' : Path) : Except Error (Tree F) := do
  let place ← locate limit t path
  let place' ← locate limit t path'
  match t[place]?, t[place']? with
  | none, _ => .error .notFound
  | some .directory, now =>
    if Under place' place then (if place' = place then .ok t else .error .invalidInput)
    else
      match now with
      | none => .ok (relocate t place place')
      | some .directory =>
        if t.keys.any fun x => Under x place' && x != place' then .error .directoryNotEmpty
        else .ok (relocate (t.erase place') place place')
      | some _ => .error .notADirectory
  | some _, some .directory => .error .isADirectory
  | some e, _ => .ok ((t.erase place).insert place' e)

/-! ## Walks in two trees -/

section Walks

variable {t t' : Tree F} {limit}

/-- A tree that has lost some directories and links of another, and has put nothing else in their places. -/
def Fades (t t' : Tree F) : Prop := ∀ (x : Location) (e : Entry F), e.Passed → t[x]? = some e → t'[x]? = some e ∨ t'[x]? = none

def Keeps (t t' : Tree F) : Prop := ∀ (x : Location) (e : Entry F), e.Passed → t[x]? = some e → t'[x]? = some e

theorem Entry.passed_directory : (Entry.directory : Entry F).Passed := fun _ h => nomatch h

theorem Entry.passed_link (target : Target) : (Entry.link target : Entry F).Passed := fun _ h => nomatch h

theorem Keeps.fades (h : Keeps t t') : Fades t t' := fun x e he hx => .inl (h x e he hx)

theorem Keeps.refl (t : Tree F) : Keeps t t := fun _ _ _ h => h

variable {t'' : Tree F} {e : Entry F} {q : Path} {dir : Location}

theorem Keeps.trans (h : Keeps t t') (h' : Keeps t' t'') : Keeps t t'' := fun x e he hx => h' x e he (h x e he hx)

variable {x d : Location} {path : Path} {s : String}

theorem not_keeps (he : e.Passed) (hx : t[x]? = some e) (hgone : t'[x]? = none) : ¬ Keeps t t' := by
  intro h
  rw [h x e he hx] at hgone
  cases hgone

theorem resolve_fades (h : Fades t t') (hd : t[d]? = some .directory) : ∀ {n : Nat} {place : Location} {path : Path},
    resolve t n place path = .ok d →
      resolve t' n place path = .ok d ∨ (resolve t' n place path = .error .notFound ∧ ¬ Keeps t t')
  | 0, place, [], hr => .inl (by rw [resolve] at hr ⊢; exact hr)
  | _ + 1, place, [], hr => .inl (by rw [resolve] at hr ⊢; exact hr)
  | 0, _, _ :: _, hr => by rw [resolve] at hr; cases hr
  | n + 1, place, .up :: rest, hr => by
    rw [resolve] at hr ⊢
    exact resolve_fades h hd hr
  | n + 1, place, .name s :: rest, hr => by
    rw [resolve] at hr
    rw [resolve]
    cases he : t[place ++ [s]]? with
    | none => rw [he] at hr; cases hr
    | some e =>
      rw [he] at hr
      cases e with
      | directory =>
        rcases h _ _ Entry.passed_directory he with hsame | hgone
        · rw [hsame]
          exact resolve_fades h hd hr
        · rw [hgone]
          exact .inr ⟨rfl, not_keeps Entry.passed_directory he hgone⟩
      | file f =>
        dsimp only at hr
        split at hr
        · cases hr
          rw [he] at hd
          cases hd
        · cases hr
      | link target =>
        rcases h _ _ (Entry.passed_link target) he with hsame | hgone
        · rw [hsame]
          exact resolve_fades h hd hr
        · rw [hgone]
          exact .inr ⟨rfl, not_keeps (Entry.passed_link target) he hgone⟩

theorem directoryOf_eq_ok : directoryOf limit t path = .ok d ↔ resolve t limit [] path = .ok d ∧ t[d]? = some .directory := by
  unfold directoryOf
  cases hr : resolve t limit [] path with
  | error e => exact ⟨fun h => (nomatch h), fun h => (nomatch h.1)⟩
  | ok place =>
    show (match t[place]? with
      | some .directory => (.ok place : Except Error Location)
      | some _ => .error .notADirectory
      | none => .error .notFound) = .ok d ↔ _
    constructor
    · intro h
      split at h
      · next hd =>
        cases h
        exact ⟨rfl, hd⟩
      · cases h
      · cases h
    · rintro ⟨heq, hd⟩
      cases heq
      rw [hd]

theorem directoryOf_fades (h : Fades t t') (hd : directoryOf limit t path = .ok d) :
    directoryOf limit t' path = .ok d ∨ (directoryOf limit t' path = .error .notFound ∧ ¬ Keeps t t') := by
  obtain ⟨hr, hdir⟩ := directoryOf_eq_ok.1 hd
  rcases resolve_fades h hdir hr with hsame | ⟨hgone, hlost⟩
  · rcases h _ _ Entry.passed_directory hdir with hdir' | hdir'
    · exact .inl (directoryOf_eq_ok.2 ⟨hsame, hdir'⟩)
    · refine .inr ⟨?_, not_keeps Entry.passed_directory hdir hdir'⟩
      unfold directoryOf
      rw [hsame]
      show (match t'[d]? with
        | some .directory => (.ok d : Except Error Location)
        | some _ => .error .notADirectory
        | none => .error .notFound) = _
      rw [hdir']
  · refine .inr ⟨?_, hlost⟩
    unfold directoryOf
    rw [hgone]
    rfl

/-- Where a path led in a tree, it leads in one that has lost directories and links, or it leads nowhere. -/
theorem locate_fades (h : Fades t t') (hx : locate limit t path = .ok x) :
    locate limit t' path = .ok x ∨ (locate limit t' path = .error .notFound ∧ ¬ Keeps t t') := by
  unfold locate at hx ⊢
  split at hx
  · next s _ =>
    cases hd : directoryOf limit t path.dropLast with
    | error e => rw [hd] at hx; cases hx
    | ok d =>
      rw [hd] at hx
      rcases directoryOf_fades h hd with hsame | ⟨hgone, hlost⟩
      · rw [hsame]
        exact .inl hx
      · rw [hgone]
        exact .inr ⟨rfl, hlost⟩
  · exact directoryOf_fades h hx

theorem directoryOf_keeps (h : Keeps t t') (hd : directoryOf limit t path = .ok d) :
    directoryOf limit t' path = .ok d := (directoryOf_fades h.fades hd).resolve_right fun hlost => hlost.2 h

theorem locate_keeps (h : Keeps t t') (hx : locate limit t path = .ok x) :
    locate limit t' path = .ok x := (locate_fades h.fades hx).resolve_right fun hlost => hlost.2 h

theorem locate_concat : locate limit t (path ++ [.name s]) = (directoryOf limit t path).map (· ++ [s]) := by
  unfold locate
  rw [getLast?_concat, dropLast_concat]

/-- Whether what stands in a directory under a name is a directory, or a link to one. -/
def Leads (t : Tree F) (dir : Location) (s : String) : Prop :=
  ∃ n d, resolve t n dir [.name s] = .ok d ∧ t[d]? = some .directory

theorem Closed.dropLast (h : Closed t) (hx : t[x]? = some e) : t[x.dropLast]? = some .directory := by
  rcases eq_nil_or_concat' x with rfl | ⟨y, s, rfl⟩
  · exact h.root
  · rw [dropLast_concat]
    exact h.parent y s e hx

theorem resolve_mono : ∀ {n m : Nat} {place : Location} {p : Path}, n ≤ m → resolve t n place p = .ok d →
    resolve t m place p = .ok d
  | 0, 0, _, _, _, hr => hr
  | _, 0, _, _, hle, hr => by rw [Nat.le_zero.1 hle] at hr; exact hr
  | 0, _ + 1, _, [], _, hr => by rw [resolve] at hr ⊢; exact hr
  | 0, _ + 1, _, _ :: _, _, hr => by rw [resolve] at hr; cases hr
  | _ + 1, _ + 1, _, [], _, hr => by rw [resolve] at hr ⊢; exact hr
  | n + 1, m + 1, place, .up :: rest, hle, hr => by
    rw [resolve] at hr ⊢
    exact resolve_mono (Nat.le_of_succ_le_succ hle) hr
  | n + 1, m + 1, place, .name s :: rest, hle, hr => by
    rw [resolve] at hr ⊢
    rcases he : t[place ++ [s]]? with _ | ⟨_ | _ | _⟩ <;> rw [he] at hr
    · exact hr
    · exact resolve_mono (Nat.le_of_succ_le_succ hle) hr
    · exact hr
    · exact resolve_mono (Nat.le_of_succ_le_succ hle) hr

theorem resolve_append (hq : q ≠ []) : ∀ {n : Nat} {place : Location} {p : Path},
    resolve t n place (p ++ q) = .ok d → ∃ d', resolve t n place p = .ok d' ∧ resolve t n d' q = .ok d
  | 0, place, [], hr => ⟨place, rfl, hr⟩
  | _ + 1, place, [], hr => ⟨place, rfl, hr⟩
  | 0, _, _ :: _, hr => by rw [cons_append, resolve] at hr; cases hr
  | n + 1, place, .up :: rest, hr => by
    rw [cons_append, resolve] at hr
    rw [resolve]
    obtain ⟨d', hp, hrest⟩ := resolve_append hq hr
    exact ⟨d', hp, resolve_mono (Nat.le_succ n) hrest⟩
  | n + 1, place, .name s :: rest, hr => by
    rw [cons_append, resolve] at hr
    rw [resolve]
    rcases he : t[place ++ [s]]? with _ | ⟨_ | f | target⟩ <;> rw [he] at hr
    · cases hr
    · obtain ⟨d', hp, hrest⟩ := resolve_append hq hr
      exact ⟨d', hp, resolve_mono (Nat.le_succ n) hrest⟩
    · dsimp only at hr
      rw [if_neg fun hnil => hq (append_eq_nil_iff.1 hnil).2] at hr
      cases hr
    · dsimp only at hr ⊢
      rw [← append_assoc] at hr
      obtain ⟨d', hp, hrest⟩ := resolve_append hq hr
      exact ⟨d', hp, resolve_mono (Nat.le_succ n) hrest⟩

theorem resolve_name {n : Nat} {z : Location} (hr : resolve t n d [.name s] = .ok z)
    (hlink : ∀ target, t[d ++ [s]]? ≠ some (.link target)) : z = d ++ [s] := by
  cases n with
  | zero => rw [resolve] at hr; cases hr
  | succ n =>
    rw [resolve] at hr
    rcases he : t[d ++ [s]]? with _ | ⟨_ | f | target⟩ <;> rw [he] at hr
    · cases hr
    · rw [resolve] at hr
      exact (ok.inj hr).symm
    · exact (ok.inj hr).symm
    · exact absurd he (hlink target)

theorem Closed.empty : Closed ((∅ : Tree F).insert [] .directory) where
  root := getElem?_insert_self
  parent x s e h := by
    rw [getElem?_insert_of_ne (by simp)] at h
    simp at h

theorem Closed.insert (h : Closed t) (e : Entry F) (hd : t[d]? = some .directory) (hnone : t[d ++ [s]]? = none) :
    Closed (t.insert (d ++ [s]) e) := by
  have hdirectory : ∀ x : Location, t[x]? = some .directory → (t.insert (d ++ [s]) e)[x]? = some .directory := by
    intro x hx
    rw [getElem?_insert_of_ne, hx]
    rintro rfl
    rw [hnone] at hx
    cases hx
  refine ⟨hdirectory _ h.root, fun x s' e' hx => hdirectory x ?_⟩
  rcases getElem?_insert_eq_some.1 hx with ⟨heq, _⟩ | ⟨_, hx⟩
  · rw [(append_inj' heq rfl).1]
    exact hd
  · exact h.parent x s' e' hx

theorem not_leads_file {f : F} (h : t[dir ++ [s]]? = some (.file f)) : ¬ Leads t dir s := by
  rintro ⟨n, d, hr, hd⟩
  obtain rfl := resolve_name hr fun target hlink => by rw [h] at hlink; cases hlink
  rw [h] at hd
  cases hd

theorem resolve_directory (hc : Closed t) (hd : t[d]? = some .directory) :
    ∀ {n : Nat} {place : Location} {p : Path}, t[place]? = some .directory → resolve t n place (p ++ q) = .ok d →
      ∃ d', resolve t n place p = .ok d' ∧ t[d']? = some .directory
  | 0, place, [], hplace, _ => ⟨place, rfl, hplace⟩
  | _ + 1, place, [], hplace, _ => ⟨place, rfl, hplace⟩
  | 0, _, _ :: _, _, hr => by rw [cons_append, resolve] at hr; cases hr
  | n + 1, place, .up :: rest, hplace, hr => by
    rw [cons_append, resolve] at hr
    rw [resolve]
    exact resolve_directory hc hd (hc.dropLast hplace) hr
  | n + 1, place, .name s :: rest, hplace, hr => by
    rw [cons_append, resolve] at hr
    rw [resolve]
    cases he : t[place ++ [s]]? with
    | none => rw [he] at hr; cases hr
    | some e =>
      rw [he] at hr
      cases e with
      | directory => exact resolve_directory hc hd he hr
      | file f =>
        dsimp only at hr
        split at hr
        · cases hr
          rw [he] at hd
          cases hd
        · cases hr
      | link target =>
        dsimp only at hr ⊢
        rw [← append_assoc] at hr
        refine resolve_directory hc hd ?_ hr
        split
        · exact hc.root
        · exact hplace

theorem resolve_leads (hc : Closed t) (h : ∀ x s e, t[x ++ [s]]? = some e → Leads t x s → t'[x ++ [s]]? = some e)
    (hd : t[d]? = some .directory) : ∀ {n : Nat} {place : Location} {p : Path}, t[place]? = some .directory →
      resolve t n place p = .ok d → resolve t' n place p = .ok d
  | 0, _, [], _, hr => by rw [resolve] at hr ⊢; exact hr
  | _ + 1, _, [], _, hr => by rw [resolve] at hr ⊢; exact hr
  | 0, _, _ :: _, _, hr => by rw [resolve] at hr; cases hr
  | n + 1, place, .up :: rest, hplace, hr => by
    rw [resolve] at hr ⊢
    exact resolve_leads hc h hd (hc.dropLast hplace) hr
  | n + 1, place, .name s :: rest, hplace, hr => by
    rw [resolve] at hr
    rw [resolve]
    cases he : t[place ++ [s]]? with
    | none => rw [he] at hr; cases hr
    | some e =>
      rw [he] at hr
      cases e with
      | directory =>
        have hleads : Leads t place s := ⟨1, place ++ [s], by simp [resolve, he], he⟩
        rw [h _ _ _ he hleads]
        exact resolve_leads hc h hd he hr
      | file f =>
        dsimp only at hr
        split at hr
        · cases hr
          rw [he] at hd
          cases hd
        · cases hr
      | link target =>
        dsimp only at hr
        have hbase : t[if target.absolute then [] else place]? = some .directory := by
          split
          · exact hc.root
          · exact hplace
        obtain ⟨d', hr', hd'⟩ := resolve_directory hc hd hbase hr
        have hleads : Leads t place s := ⟨n + 1, d', by rw [resolve, he]; simpa using hr', hd'⟩
        rw [h _ _ _ he hleads]
        exact resolve_leads hc h hd hbase hr

theorem directoryOf_leads (hc : Closed t) (h : ∀ x s e, t[x ++ [s]]? = some e → Leads t x s → t'[x ++ [s]]? = some e)
    (hroot : t'[([] : Location)]? = some .directory) (hd : directoryOf limit t path = .ok d) :
    directoryOf limit t' path = .ok d := by
  obtain ⟨hr, hdir⟩ := directoryOf_eq_ok.1 hd
  refine directoryOf_eq_ok.2 ⟨resolve_leads hc h hdir hc.root hr, ?_⟩
  rcases eq_nil_or_concat' d with rfl | ⟨x, s, rfl⟩
  · exact hroot
  · exact h x s _ hdir ⟨1, x ++ [s], by simp [resolve, hdir], hdir⟩

def Extends (t t' : Tree F) : Prop := ∀ (x : Location) (e : Entry F), t[x]? = some e → t'[x]? = some e

theorem Extends.refl (t : Tree F) : Extends t t := fun _ _ h => h

theorem Extends.trans (h : Extends t t') (h' : Extends t' t'') : Extends t t'' := fun x e hx => h' x e (h x e hx)

theorem Extends.keeps (h : Extends t t') : Keeps t t' := fun x e _ hx => h x e hx

theorem Extends.insert (e : Entry F) (hx : t[x]? = none) : Extends t (t.insert x e) := by
  intro z e' hz
  rw [getElem?_insert_of_ne, hz]
  rintro rfl
  rw [hx] at hz
  cases hz

theorem resolve_le (h : Extends t t') :
    ∀ {n : Nat} {place : Location} {p : Path}, resolve t n place p = .ok d → resolve t' n place p = .ok d
  | 0, _, [], hr => by rw [resolve] at hr ⊢; exact hr
  | _ + 1, _, [], hr => by rw [resolve] at hr ⊢; exact hr
  | 0, _, _ :: _, hr => by rw [resolve] at hr; cases hr
  | n + 1, place, .up :: rest, hr => by
    rw [resolve] at hr ⊢
    exact resolve_le h hr
  | n + 1, place, .name s :: rest, hr => by
    rw [resolve] at hr ⊢
    rcases he : t[place ++ [s]]? with _ | e <;> rw [he] at hr
    · cases hr
    · rw [h _ _ he]
      rcases e with _ | f | target
      · exact resolve_le h hr
      · exact hr
      · exact resolve_le h hr

def passed (t : Tree F) : Nat → Location → Path → List Location
  | _, _, [] => []
  | 0, _, _ :: _ => []
  | n + 1, place, .up :: rest => passed t n place.dropLast rest
  | n + 1, place, .name s :: rest => (place ++ [s]) ::
    match t[place ++ [s]]? with
    | some .directory => passed t n (place ++ [s]) rest
    | some (.link target) => passed t n (if target.absolute then [] else place) (target.steps ++ rest)
    | _ => []

theorem resolve_congr : ∀ {n : Nat} {place : Location} {p : Path}, (∀ x ∈ passed t n place p, t'[x]? = t[x]?) →
    resolve t' n place p = resolve t n place p
  | 0, _, [], _ => rfl
  | _ + 1, _, [], _ => rfl
  | 0, _, _ :: _, _ => rfl
  | n + 1, place, .up :: rest, h => by
    rw [resolve, resolve]
    exact resolve_congr h
  | n + 1, place, .name s :: rest, h => by
    rw [passed, forall_mem_cons] at h
    rw [resolve, resolve, h.1]
    rcases he : t[place ++ [s]]? with _ | ⟨_ | f | target⟩
    · rfl
    · refine resolve_congr fun x hx => h.2 x ?_
      rw [he]
      exact hx
    · rfl
    · refine resolve_congr fun x hx => h.2 x ?_
      rw [he]
      exact hx

theorem Closed.locate_directory (hc : Closed t) (hd : directoryOf limit t path = .ok d) :
    ∃ x e, locate limit t path = .ok x ∧ t[x]? = some e := by
  obtain ⟨hr, hdir⟩ := directoryOf_eq_ok.1 hd
  unfold locate
  split
  · next s hlast =>
    obtain ⟨q, rfl⟩ := getLast?_eq_some_iff.1 hlast
    rw [dropLast_concat]
    obtain ⟨d', hq, hs⟩ := resolve_append (cons_ne_nil _ _) hr
    cases he : t[d' ++ [s]]? with
    | none =>
      cases limit with
      | zero => rw [resolve] at hs; cases hs
      | succ n => rw [resolve, he] at hs; cases hs
    | some e =>
      have hd' : directoryOf limit t q = .ok d' := directoryOf_eq_ok.2 ⟨hq, hc.parent d' s e he⟩
      exact ⟨d' ++ [s], e, by rw [hd']; rfl, he⟩
  · exact ⟨d, _, hd, hdir⟩

theorem directoryOf_of_locate (hx : locate limit t path = .ok x) (hdir : t[x]? = some .directory)
    (hd : directoryOf limit t path = .ok d) : d = x := by
  unfold locate at hx
  split at hx
  · next s hlast =>
    obtain ⟨q, rfl⟩ := getLast?_eq_some_iff.1 hlast
    rw [dropLast_concat] at hx
    obtain ⟨d', hq, rfl⟩ := map_eq_ok.1 hx
    obtain ⟨d'', hq', hs⟩ := resolve_append (cons_ne_nil _ _) (directoryOf_eq_ok.1 hd).1
    obtain rfl := ok.inj ((directoryOf_eq_ok.1 hq).1.symm.trans hq')
    exact resolve_name hs fun target hlink => by rw [hdir] at hlink; cases hlink
  · exact ok.inj (hd.symm.trans hx)

theorem locate_name (hx : locate limit t path = .ok x) (hne : t[x]? ≠ some .directory) :
    ∃ q s d, path = q ++ [.name s] ∧ directoryOf limit t q = .ok d ∧ x = d ++ [s] := by
  unfold locate at hx
  split at hx
  · next s hlast =>
    obtain ⟨q, rfl⟩ := getLast?_eq_some_iff.1 hlast
    rw [dropLast_concat] at hx
    obtain ⟨d, hq, rfl⟩ := map_eq_ok.1 hx
    exact ⟨q, s, d, rfl, hq, rfl⟩
  · exact absurd (directoryOf_eq_ok.1 hx).2 hne

theorem Closed.under (hc : Closed t) (hnone : t[dir]? = none) : ∀ {x : Location}, Under x dir = true → t[x]? = none := by
  intro x hx
  obtain ⟨rest, rfl⟩ := under_iff.1 hx
  induction rest using reverseRecOn with
  | nil => rwa [append_nil]
  | append_singleton rest s ih =>
    have hparent := ih (under_iff.2 (prefix_append dir rest))
    cases he : t[dir ++ (rest ++ [s])]? with
    | none => rfl
    | some e =>
      rw [← append_assoc] at he
      rw [hc.parent _ s e he] at hparent
      cases hparent

end Walks

/-! ## What the calls do -/

section Calls

variable {t t' : Tree F} {limit} {path path' : Path}

variable {e : Entry F} {x : Location}

theorem create_eq_ok : create limit t path e = .ok (x, t') ↔
    locate limit t path = .ok x ∧ t[x]? = none ∧ t' = t.insert x e := by
  simp only [create, bind_eq_ok_iff]
  constructor
  · rintro ⟨y, hy, h⟩
    split at h
    · cases h
    · next hnone =>
      cases h
      exact ⟨hy, hnone, rfl⟩
  · rintro ⟨hx, hnone, rfl⟩
    exact ⟨x, hx, by rw [hnone]⟩

theorem create_occupied {e' : Entry F} (hx : locate limit t path = .ok x) (he : t[x]? = some e') :
    create limit t path e = .error .alreadyExists := by
  unfold create
  rw [hx]
  simp only [bind, Except.bind, he]

theorem stat_eq_ok : stat limit t path = .ok (x, e) ↔ resolve t limit [] path = .ok x ∧ t[x]? = some e := by
  unfold stat
  cases resolve t limit [] path with
  | error err => simp [bind, Except.bind]
  | ok y =>
    simp only [bind, Except.bind, ok.injEq]
    constructor
    · intro h
      split at h
      · next hy =>
        cases h
        exact ⟨rfl, hy⟩
      · cases h
    · rintro ⟨rfl, hx⟩
      rw [hx]

theorem lookup_eq_ok : lookup limit t path = .ok e ↔ ∃ x, locate limit t path = .ok x ∧ t[x]? = some e := by
  simp only [lookup, bind_eq_ok_iff]
  refine exists_congr fun x => and_congr_right fun _ => ?_
  cases t[x]? <;> simp

theorem lookup_eq_notFound : lookup limit t path = .error .notFound ↔
    locate limit t path = .error .notFound ∨ ∃ x, locate limit t path = .ok x ∧ t[x]? = none := by
  unfold lookup
  cases locate limit t path with
  | error e => simp [bind, Except.bind]
  | ok x =>
    simp only [bind, Except.bind, reduceCtorEq, ok.injEq, exists_eq_left', false_or]
    cases t[x]? <;> simp

theorem removeFile_at (hx : locate limit t path = .ok x) (he : t[x]? = some e) (hne : e ≠ .directory) :
    removeFile limit t path = .ok (t.erase x) := by
  simp only [removeFile, bind_eq_ok_iff]
  refine ⟨x, hx, ?_⟩
  rw [he]
  cases e with
  | directory => exact absurd rfl hne
  | file f => rfl
  | link target => rfl

theorem removeDir_eq_ok (h : removeDir limit t path = .ok t') :
    ∃ x, locate limit t path = .ok x ∧ t[x]? = some .directory ∧ t' = t.erase x := by
  simp only [removeDir, bind_eq_ok_iff] at h
  obtain ⟨x, hx, h⟩ := h
  refine ⟨x, hx, ?_⟩
  split at h
  · cases h
  · next hdir =>
    split_ifs at h
    exact ⟨hdir, (ok.inj h).symm⟩
  · cases h

theorem removeDirAll_eq_ok (h : removeDirAll limit t path = .ok t') :
    ∃ x, locate limit t path = .ok x ∧ t' = without t x := by
  simp only [removeDirAll, bind_eq_ok_iff] at h
  obtain ⟨x, hx, h⟩ := h
  refine ⟨x, hx, ?_⟩
  split at h
  · cases h
  · cases h
  · split_ifs at h
    exact (ok.inj h).symm

theorem rename_eq_ok (h : rename limit t path path' = .ok t') : ∃ x y e, locate limit t path = .ok x ∧
    locate limit t path' = .ok y ∧ t[x]? = some e ∧ (e ≠ .directory → t' = (t.erase x).insert y e) := by
  simp only [rename, bind_eq_ok_iff] at h
  obtain ⟨x, hx, y, hy, h⟩ := h
  cases he : t[x]? with
  | none =>
    rw [he] at h
    cases h
  | some e =>
    refine ⟨x, y, e, hx, hy, he, fun hne => ?_⟩
    rw [he] at h
    rcases hnow : t[y]? with _ | ⟨_ | _ | _⟩ <;> rw [hnow] at h <;> cases e
    all_goals first | exact absurd rfl hne | cases h
    all_goals rfl

variable {dir : Location}

@[simp] theorem getElem?_without : (without t dir)[x]? = if Under x dir then none else t[x]? := by
  refine Option.ext fun e => ?_
  rw [without, getElem?_filter_eq_some]
  split
  · next h => simp [h]
  · next h => simp [h]

/-- Whether a path is walked outside a directory, and names a place outside it. -/
def Clear (limit : Nat) (t : Tree F) (dir : Location) (path : Path) : Prop :=
  (∀ x ∈ passed t limit [] path.dropLast, Under x dir = false) ∧ ∀ x, locate limit t path = .ok x → Under x dir = false

theorem Clear.locate_without (h : Clear limit t dir path) (hx : locate limit t path = .ok x) (hne : t[x]? ≠ some .directory) :
    locate limit (without t dir) path = .ok x := by
  have hunder := h.2 x hx
  obtain ⟨q, s, d, rfl, hq, rfl⟩ := locate_name hx hne
  obtain ⟨hr, hdir⟩ := directoryOf_eq_ok.1 hq
  have hd : Under d dir = false := by
    by_contra hd
    have hpre : dir <+: d := under_iff.1 (by simpa using hd)
    rw [under_iff.2 (hpre.trans (prefix_append d [s]))] at hunder
    cases hunder
  have hpassed : ∀ z ∈ passed t limit [] q, (without t dir)[z]? = t[z]? := by
    intro z hz
    rw [getElem?_without, h.1 z (by rwa [dropLast_concat])]
    rfl
  rw [locate_concat, directoryOf_eq_ok.2 ⟨(resolve_congr hpassed).trans hr, by rw [getElem?_without, hd]; exact hdir⟩]
  rfl

end Calls

end Pbps.FileTree
