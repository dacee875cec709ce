/-
The private tree of an operation and the inventory taken of it (`compose/inventory.rs`): what an entry is known by, and when
what is in the directory is what the inventory acknowledges.
-/
import Mathlib.Data.List.Sort
import Mathlib.Data.String.Basic
import Pbps.Lib.Map

namespace Pbps.Compose

open Std (ExtTreeMap)
open List Std.ExtTreeMap

/-! ## Evidence of an entry -/

/-- A file as the filesystem tells it from others. -/
structure Identity where
  device : Nat
  inode : Nat
  deriving DecidableEq, Repr

/-- What an inventory records of a file or a directory. -/
structure Entry where
  identity : Identity
  directory : Bool
  size : Nat
  /-- Seconds and nanoseconds. -/
  modified : Int × Int
  changed : Int × Int
  deriving DecidableEq, Repr

/-- What is under a name. -/
structure File where
  entry : Entry
  /-- It is a directory, or a regular file of one name, and belongs to who runs this. -/
  owned : Bool

/-- `Entry::of`. -/
def Entry.of (file : File) : Option Entry := if file.owned then some file.entry else none

/-- `Entry::matches`: removing what is in a directory changes the directory's times and size. -/
def Entry.matches_ (expected found : Entry) : Bool :=
  expected.identity = found.identity && expected.directory = found.directory && (expected.directory || expected = found)

/-- Whether a file is still what its entry was taken of. -/
def Entry.isOf (expected : Entry) (file : File) : Bool := (Entry.of file).any expected.matches_

theorem Entry.matches_iff {a b : Entry} :
    a.matches_ b = true ↔ a.identity = b.identity ∧ a.directory = b.directory ∧ (a.directory = true ∨ a = b) := by
  simp [matches_, and_assoc]

variable {expected : Entry} {file : File} {name : String} {root : Identity} {found : Contents} {inventory : Inventory}

theorem Entry.isOf_iff : expected.isOf file = true ↔ file.owned = true ∧ expected.matches_ file.entry = true := by
  unfold isOf Entry.of
  cases file.owned <;> simp

theorem Entry.isOf_congr {was : File} (howned : file.owned = was.owned) (hmatches : was.entry.matches_ file.entry = true) :
    expected.isOf file = true ↔ expected.isOf was = true := by
  rw [isOf_iff, isOf_iff, howned, matches_iff, matches_iff]
  obtain ⟨hidentity, hdirectory, hsame⟩ := matches_iff.1 hmatches
  rw [hidentity, hdirectory] at *
  refine and_congr_right fun _ => and_congr_right fun _ => and_congr_right fun hkind => ?_
  rcases hsame with hsame | hsame
  · rw [hkind, hsame]
    simp
  · rw [hsame]

/-! ## Names -/

/-- A path that goes down by names alone. -/
def relative (path : String) : Bool :=
  let parts := path.toList.splitOn '/'
  path.toList.all (fun c => c ≠ '\x00' && c ≠ '\\') && parts.head?.all (fun p => p ≠ [] && p ≠ ['.']) && !parts.contains ['.', '.']

/-- What `rsplit_once` leaves of a name before its last part; the directory's own name is empty. -/
def parentName (name : String) : String := String.ofList (name.toList.reverse.dropWhile (· ≠ '/')).tail.reverse

def depth (name : String) : Nat := name.toList.count '/'

def isBelow (directory name : String) : Bool := (directory.toList ++ ['/']).isPrefixOf name.toList

theorem depth_lt_of_isBelow {directory : String} (h : isBelow directory name = true) : depth directory < depth name := by
  obtain ⟨rest, hrest⟩ := isPrefixOf_iff_prefix.1 h
  unfold depth
  rw [← hrest, count_append, count_append]
  simp only [count_singleton_self]
  omega

theorem isBelow_parentName (h : parentName name ≠ "") : isBelow (parentName name) name = true := by
  unfold isBelow
  rw [ isPrefixOf_iff_prefix, ← reverse_suffix, reverse_append, parentName, String.toList_ofList, reverse_reverse,
    reverse_singleton]
  cases hrest : name.toList.reverse.dropWhile (· ≠ '/') with
  | nil => exact absurd (by rw [parentName, hrest]; rfl) h
  | cons c rest =>
    have hslash : c = '/' := by
      have hhead := head_dropWhile_not (· ≠ '/') (l := name.toList.reverse) (by rw [hrest]; exact cons_ne_nil _ _)
      simp only [hrest, head_cons, decide_eq_false_iff_not, not_not] at hhead
      exact hhead
    rw [tail_cons, singleton_append, ← hslash, ← hrest]
    exact dropWhile_suffix _

/-! ## Inventories -/

/-- Every name goes down by names alone, through directories that are there. -/
def Nested (entries : ExtTreeMap String Entry) : Prop :=
  ∀ (name : String) (entry : Entry), entries[name]? = some entry → relative name = true ∧
    (parentName name = "" ∨ ∃ parent, entries[parentName name]? = some parent ∧ parent.directory = true)

/-- What is in a directory, at any depth. -/
structure Contents where
  files : ExtTreeMap String File
  nested : Nested (files.map fun _ file => file.entry)

/-- The files and directories an operation acknowledges as its own. -/
structure Inventory where
  root : Identity
  entries : ExtTreeMap String Entry
  nested : Nested entries

/-- What is found in a directory, as its inventory: all of it is owned, and no more or deeper than its bound. -/
def Inventory.of (root : Identity) (found : Contents) : Option Inventory :=
  if found.files.toList.all (fun e => e.2.owned && (!e.2.entry.directory || depth e.1 < 80)) && found.files.size ≤ 32768 then
    some ⟨root, found.files.map fun _ file => file.entry, found.nested⟩
  else none

abbrev Deeper (a b : String × Entry) : Prop := depth b.1 < depth a.1 ∨ (depth b.1 = depth a.1 ∧ b.1 ≤ a.1)

/-- The entries in the order they are removed: those of a directory before it. -/
def Inventory.deepestFirst (inventory : Inventory) : List (String × Entry) := inventory.entries.toList.insertionSort Deeper

instance : Std.Total Deeper where
  total a b := by
    rcases lt_trichotomy (depth a.1) (depth b.1) with h | h | h
    · exact .inr (.inl h)
    · rcases le_total a.1 b.1 with hab | hab
      · exact .inr (.inr ⟨h, hab⟩)
      · exact .inl (.inr ⟨h.symm, hab⟩)
    · exact .inl (.inl h)

instance : IsTrans (String × Entry) Deeper where
  trans a b c := by
    rintro (hab | ⟨hab, hab'⟩) (hbc | ⟨hbc, hbc'⟩)
    · exact .inl (by omega)
    · exact .inl (by omega)
    · exact .inl (by omega)
    · exact .inr ⟨by omega, le_trans hbc' hab'⟩

theorem Inventory.mem_deepestFirst (inventory : Inventory) {e : String × Entry} :
    e ∈ inventory.deepestFirst ↔ inventory.entries[e.1]? = some e.2 :=
  (mem_insertionSort _).trans mem_toList_iff_getElem?_eq_some

theorem Inventory.pairwise_deepestFirst (inventory : Inventory) :
    inventory.deepestFirst.Pairwise fun a b => depth b.1 ≤ depth a.1 := by
  refine (pairwise_insertionSort Deeper inventory.entries.toList).imp ?_
  rintro a b (h | ⟨h, -⟩) <;> omega

/-- What is in the directory is in the inventory, as it was. -/
def Inventory.Covers (inventory : Inventory) (contents : Contents) : Prop :=
  ∀ (name : String) (file : File), contents.files[name]? = some file →
    ∃ expected, inventory.entries[name]? = some expected ∧ expected.isOf file = true

theorem Inventory.covers_of (h : Inventory.of root found = some inventory) : inventory.Covers found := by
  unfold Inventory.of at h
  split_ifs at h with hall
  cases h
  intro name file hfile
  refine ⟨file.entry, by rw [ExtTreeMap.getElem?_map, hfile]; rfl, Entry.isOf_iff.2 ⟨?_, ?_⟩⟩
  · have hown := all_eq_true.1 (Bool.and_eq_true_iff.1 hall).1 _ (mem_toList_iff_getElem?_eq_some.2 hfile)
    exact (Bool.and_eq_true_iff.1 hown).1
  · exact Entry.matches_iff.2 ⟨rfl, rfl, .inr rfl⟩

theorem Inventory.root_of (h : Inventory.of root found = some inventory) : inventory.root = root := by
  unfold Inventory.of at h
  split_ifs at h
  cases h
  rfl

/-! ## Removing a name -/

namespace Contents

def empty : Contents := ⟨∅, fun name entry h => by simp at h⟩

/-- Whether `unlinkat` removes a name, as that of a directory or of a file. -/
def removable (contents : Contents) (name : String) (directory : Bool) : Bool :=
  (contents.files[name]?).any (fun file => file.entry.directory = directory) && !contents.files.keys.any (isBelow name)

/-- The directory with one name less: what else there is, is as it was, but for the times and sizes of directories. -/
structure Without (contents : Contents) (name : String) (after : Contents) : Prop where
  gone : name ∉ after.files
  rest : ∀ n : String, n ≠ name → n ∈ contents.files → n ∈ after.files
  origin : ∀ (n : String) (file : File), after.files[n]? = some file →
    ∃ was, contents.files[n]? = some was ∧ file.owned = was.owned ∧ was.entry.matches_ file.entry = true

variable {contents after : Contents} {name : String}

variable {directory : Bool} {inventory : Inventory} {entries rest : List (String × Entry)} {expected : Entry} {file : File}

theorem exists_below (h : contents.removable name directory = true) {n : String} (hn : n ∈ contents.files) :
    isBelow name n = false := by
  unfold removable at h
  simp only [Bool.and_eq_true, Bool.not_eq_true', any_eq_false, ExtTreeMap.mem_keys] at h
  exact Bool.eq_false_iff.2 (h.2 n hn)

def erase (contents : Contents) (name : String) {directory : Bool} (h : contents.removable name directory = true) : Contents :=
  ⟨contents.files.erase name, by
    intro n entry hn
    rw [map_erase_eq, getElem?_erase_eq_some] at hn
    obtain ⟨hrelative, hparent⟩ := contents.nested n entry hn.2
    refine ⟨hrelative, or_iff_not_imp_left.2 fun hroot => ?_⟩
    obtain ⟨parent, hparent, hdirectory⟩ := hparent.resolve_left hroot
    refine ⟨parent, ?_, hdirectory⟩
    rw [map_erase_eq, getElem?_erase_eq_some]
    refine ⟨fun hname => ?_, hparent⟩
    have hmem : n ∈ contents.files := by
      have := mem_of_getElem?_eq hn.2
      simpa using this
    have hbelow := exists_below h hmem
    rw [← hname, isBelow_parentName hroot] at hbelow
    cases hbelow⟩

theorem without_erase (h : contents.removable name directory = true) :
    contents.Without name (contents.erase name h) where
  gone := by simp [erase]
  rest := fun n hne hn => by simpa [erase] using ⟨Ne.symm hne, hn⟩
  origin := fun n file hfile =>
    ⟨file, (getElem?_erase_eq_some.1 hfile).2, rfl, Entry.matches_iff.2 ⟨rfl, rfl, .inr rfl⟩⟩

/-- What is in the directory is among the entries that are still to be removed. -/
def Listed (contents : Contents) (entries : List (String × Entry)) : Prop :=
  ∀ (name : String) (file : File), contents.files[name]? = some file →
    ∃ expected, (name, expected) ∈ entries ∧ expected.isOf file = true

theorem listed_deepestFirst : contents.Listed inventory.deepestFirst ↔ inventory.Covers contents := by
  simp only [Listed, Inventory.Covers, inventory.mem_deepestFirst]

theorem Listed.without (h : contents.Listed entries) (hwithout : contents.Without name after) : after.Listed entries := by
  intro n file hfile
  obtain ⟨was, hwas, howned, hmatches⟩ := hwithout.origin n file hfile
  obtain ⟨expected, hmem, hisOf⟩ := h n was hwas
  exact ⟨expected, hmem, (Entry.isOf_congr howned hmatches).2 hisOf⟩

theorem Listed.of_cons (h : contents.Listed ((name, expected) :: rest)) (hgone : name ∉ contents.files) :
    contents.Listed rest := by
  intro n file hfile
  obtain ⟨e, hmem, hisOf⟩ := h n file hfile
  refine ⟨e, (mem_cons.1 hmem).resolve_left fun heq => hgone ?_, hisOf⟩
  cases heq
  exact mem_of_getElem?_eq hfile

theorem Listed.covered (h : contents.Listed entries) (hsub : ∀ e ∈ entries, inventory.entries[e.1]? = some e.2) :
    inventory.Covers contents := by
  intro n file hfile
  obtain ⟨expected, hmem, hisOf⟩ := h n file hfile
  exact ⟨expected, hsub _ hmem, hisOf⟩

/-- The first of the entries can be removed: what is further down has gone before it. -/
theorem Listed.removable (h : contents.Listed ((name, expected) :: rest))
    (hsorted : ((name, expected) :: rest).Pairwise fun a b => depth b.1 ≤ depth a.1) (hfile : contents.files[name]? = some file)
    (hisOf : expected.isOf file = true) : contents.removable name expected.directory = true := by
  unfold Contents.removable
  rw [Bool.and_eq_true]
  constructor
  · rw [hfile]
    exact decide_eq_true (Entry.matches_iff.1 (Entry.isOf_iff.1 hisOf).2).2.1.symm
  · rw [Bool.not_eq_true', any_eq_false]
    intro below hbelow hlt
    have hlt := depth_lt_of_isBelow hlt
    obtain ⟨found, hfound⟩ := mem_iff_exists.1 (ExtTreeMap.mem_keys.1 hbelow)
    obtain ⟨e, hmem, -⟩ := h below found hfound
    rcases mem_cons.1 hmem with heq | hmem
    · cases heq
      omega
    · exact absurd (rel_of_pairwise_cons hsorted hmem) (by simpa using hlt)

/-- What was not covered is not covered once something else is removed. -/
theorem Without.covers (h : contents.Without name after) (hexpected : inventory.entries[name]? = some expected)
    (hfile : contents.files[name]? = some file) (hisOf : expected.isOf file = true) (hcovers : inventory.Covers after) :
    inventory.Covers contents := by
  intro n was hwas
  by_cases hn : n = name
  · subst hn
    rw [hfile] at hwas
    cases hwas
    exact ⟨expected, hexpected, hisOf⟩
  · obtain ⟨now, hnow⟩ := mem_iff_exists.1 (h.rest n hn (mem_of_getElem?_eq hwas))
    obtain ⟨was', hwas', howned, hmatches⟩ := h.origin n now hnow
    rw [hwas] at hwas'
    cases hwas'
    obtain ⟨e, he, hisOf⟩ := hcovers n now hnow
    exact ⟨e, he, (Entry.isOf_congr howned hmatches).1 hisOf⟩

end Contents

end Pbps.Compose
