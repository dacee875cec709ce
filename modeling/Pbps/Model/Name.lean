/-
Names and identity anchors: `pbps-model`'s `name.rs`, the `TypeRef` of `types.rs` and `uid.rs`.
Every name keeps its original text; `raw` is the spelling written to SQL, serialized and compared
by `IdsFile::validate`. Orders are the source's derived ones, part by part, so that an ordered map
iterates as a `BTreeMap` does.
-/
import Std.Data.ExtTreeMap
import Std.Data.ExtTreeSet

namespace Pbps

open List

abbrev ColumnName := String
abbrev RoleName := String
abbrev ObjectLocalName := String

/-! ## Orders by components -/

section CompareOn

variable {α β γ : Type} [Ord β] [Ord γ]

def compareFields (f : α → β) (g : α → γ) : α → α → Ordering :=
  compareLex (compareOn f) (compareOn g)

instance compareFields_trans [Std.TransOrd β] [Std.TransOrd γ] (f : α → β) (g : α → γ) :
    Std.TransCmp (compareFields f g) :=
  inferInstanceAs (Std.TransCmp (compareLex (compareOn f) (compareOn g)))

variable {f : α → β} {g : α → γ}

theorem compareFields_self [Std.ReflOrd β] [Std.ReflOrd γ] (a : α) : compareFields f g a a = .eq := by
  simp [compareFields, compareLex, compareOn]

theorem compareFields_eq [Std.LawfulEqOrd β] [Std.LawfulEqOrd γ] {a b : α} (h : compareFields f g a b = .eq) :
    f a = f b ∧ g a = g b := by
  simp only [compareFields, compareLex, compareOn, Ordering.then_eq_eq] at h
  exact ⟨Std.LawfulEqOrd.eq_of_compare h.1, Std.LawfulEqOrd.eq_of_compare h.2⟩

end CompareOn

/-! ## Qualified names -/

/-- A fully qualified table name, such as `dbo.customer`. -/
structure TableName where
  schema : String
  name : String
  deriving DecidableEq, Repr, Inhabited

abbrev ObjectName := TableName

namespace TableName

instance : Ord TableName := ⟨compareFields TableName.schema TableName.name⟩

instance : Std.TransOrd TableName :=
  inferInstanceAs (Std.TransCmp (compareFields TableName.schema TableName.name))

instance : Std.LawfulEqOrd TableName where
  compare_self := compareFields_self _
  eq_of_compare {a b} h := by
    obtain ⟨h1, h2⟩ := compareFields_eq h
    cases a; cases b; simp_all

/-- The canonical spelling, `schema.table`. -/
def raw (t : TableName) : String := t.schema ++ "." ++ t.name

end TableName

/-- A fully qualified column reference, such as `dbo.customer.email`. -/
structure ColumnRef where
  table : TableName
  name : ColumnName
  deriving DecidableEq, Repr, Inhabited

def TableName.column (t : TableName) (c : ColumnName) : ColumnRef := ⟨t, c⟩

namespace ColumnRef

instance : Ord ColumnRef := ⟨compareFields ColumnRef.table ColumnRef.name⟩

instance : Std.TransOrd ColumnRef :=
  inferInstanceAs (Std.TransCmp (compareFields ColumnRef.table ColumnRef.name))

instance : Std.LawfulEqOrd ColumnRef where
  compare_self := compareFields_self _
  eq_of_compare {a b} h := by
    obtain ⟨h1, h2⟩ := compareFields_eq h
    cases a; cases b; simp_all

/-- The canonical spelling, `schema.table.column`. -/
def raw (c : ColumnRef) : String := c.table.raw ++ "." ++ c.name

end ColumnRef

/-- Whether one name part can be stored: `.` separates the parts of a name, so a part that holds
one could not be read back. -/
def checkSegment (part : String) : Bool := !part.toList.contains '.'

/-! ## Type references -/

/-- A user-defined type named by schema and name, as the engine keeps the two parts. -/
structure TypeRef where
  schema : String
  name : String
  deriving DecidableEq, Repr, Inhabited

namespace TypeRef

instance : Ord TypeRef := ⟨compareFields TypeRef.schema TypeRef.name⟩

instance : Std.TransOrd TypeRef :=
  inferInstanceAs (Std.TransCmp (compareFields TypeRef.schema TypeRef.name))

instance : Std.LawfulEqOrd TypeRef where
  compare_self := compareFields_self _
  eq_of_compare {a b} h := by
    obtain ⟨h1, h2⟩ := compareFields_eq h
    cases a; cases b; simp_all

def bareStart (c : Char) : Bool := ('a' ≤ c && c ≤ 'z') || c == '_'

def bareChar (c : Char) : Bool := ('a' ≤ c && c ≤ 'z') || ('0' ≤ c && c ≤ '9') || c == '_' || c == '$'

def isBare : List Char → Bool
  | [] => false
  | c :: cs => bareStart c && (c :: cs).all bareChar

/-- The characters of a quoted part, with `"` doubled. -/
def doubled : List Char → List Char
  | [] => []
  | c :: cs => if c = '"' then '"' :: '"' :: doubled cs else c :: doubled cs

/-- One part of the canonical text: bare where it reads back as itself, quoted otherwise. -/
def writePart (part : List Char) : List Char :=
  if isBare part then part else '"' :: (doubled part ++ ['"'])

def raw (t : TypeRef) : String :=
  String.ofList (writePart t.schema.toList ++ '.' :: writePart t.name.toList)

variable {r r' p : List Char}

theorem doubled_append_inj : ∀ {p p' : List Char},
    doubled p ++ '"' :: '.' :: r = doubled p' ++ '"' :: '.' :: r' → p = p' ∧ r = r'
  | [], [], h => by simpa [doubled] using h
  | [], c :: cs, h => by
    by_cases hc : c = '"'
    · simp [doubled, hc] at h
    · simp [doubled, hc, Ne.symm hc] at h
  | c :: cs, [], h => by
    by_cases hc : c = '"'
    · simp [doubled, hc] at h
    · simp [doubled, hc] at h
  | c :: cs, d :: ds, h => by
    by_cases hc : c = '"' <;> by_cases hd : d = '"'
    · simp only [doubled, hc, hd, if_true, cons_append, cons.injEq, true_and] at h
      obtain ⟨h1, h2⟩ := doubled_append_inj h
      rw [hc, hd, h1, h2]
      exact ⟨rfl, rfl⟩
    · simp only [doubled, hc, hd, if_true, if_false, cons_append, cons.injEq] at h
      exact absurd h.1.symm hd
    · simp only [doubled, hc, hd, if_true, if_false, cons_append, cons.injEq] at h
      exact h.1.elim
    · simp only [doubled, hc, hd, if_false, cons_append, cons.injEq] at h
      obtain ⟨h1, h2⟩ := doubled_append_inj h.2
      rw [h.1, h1, h2]
      exact ⟨rfl, rfl⟩

theorem bare_append_inj : ∀ {p p' : List Char}, p.all bareChar = true → p'.all bareChar = true →
    p ++ '.' :: r = p' ++ '.' :: r' → p = p' ∧ r = r'
  | [], [], _, _, h => by simpa using h
  | [], c :: cs, _, h', h => by
    simp only [nil_append, cons_append, cons.injEq] at h
    rw [← h.1] at h'
    exact absurd h' (by simp [bareChar])
  | c :: cs, [], h', _, h => by
    simp only [nil_append, cons_append, cons.injEq] at h
    rw [h.1] at h'
    exact absurd h' (by simp [bareChar])
  | c :: cs, d :: ds, hc, hd, h => by
    simp only [all_cons, Bool.and_eq_true] at hc hd
    simp only [cons_append, cons.injEq] at h
    obtain ⟨h1, h2⟩ := bare_append_inj hc.2 hd.2 h.2
    rw [h.1, h1, h2]
    exact ⟨rfl, rfl⟩

theorem isBare_all (h : isBare p = true) : p.all bareChar = true ∧ p.head? ≠ some '"' := by
  cases p with
  | nil => cases h
  | cons c cs =>
    simp only [isBare, Bool.and_eq_true] at h
    refine ⟨h.2, ?_⟩
    rintro ⟨⟩
    exact absurd h.1 (by decide)

theorem writePart_append_inj {p' : List Char} (h : writePart p ++ '.' :: r = writePart p' ++ '.' :: r') : p = p' ∧ r = r' := by
  unfold writePart at h
  split at h <;> split at h
  · rename_i hp hp'
    exact bare_append_inj (isBare_all hp).1 (isBare_all hp').1 h
  · rename_i hp hp'
    cases p with
    | nil => cases hp
    | cons c cs =>
      simp only [cons_append, cons.injEq] at h
      exact absurd (by rw [h.1]; rfl) (isBare_all hp).2
  · rename_i hp hp'
    cases p' with
    | nil => cases hp'
    | cons c cs =>
      simp only [cons_append, cons.injEq] at h
      exact absurd (by rw [← h.1]; rfl) (isBare_all hp').2
  · simp only [cons_append, append_assoc, cons.injEq, true_and, nil_append] at h
    exact doubled_append_inj h

theorem raw_injective : Function.Injective raw := by
  intro a b h
  have h : writePart a.schema.toList ++ '.' :: writePart a.name.toList =
      writePart b.schema.toList ++ '.' :: writePart b.name.toList := String.ofList_injective h
  obtain ⟨h1, h2⟩ := writePart_append_inj h
  have h3 : a.name.toList = b.name.toList := by
    have h4 : writePart a.name.toList ++ '.' :: [] = writePart b.name.toList ++ '.' :: [] := by rw [h2]
    exact (writePart_append_inj h4).1
  cases a; cases b
  simp only [TypeRef.mk.injEq]
  exact ⟨String.toList_injective h1, String.toList_injective h3⟩

end TypeRef

/-! ## Identity anchors -/

/-- The kind of object a uid points at. -/
inductive UidKind where
  | extension
  | type
  | table
  | column
  | role
  deriving DecidableEq, Repr

def UidKind.prefixText : UidKind → String
  | .extension => "e_"
  | .type => "y_"
  | .table => "t_"
  | .column => "c_"
  | .role => "r_"

/-- An identity anchor, of the form `c_k7x2mq`. Its order is plain text order. -/
structure Uid where
  text : String
  deriving DecidableEq, Repr, Inhabited

namespace Uid

instance : Ord Uid := ⟨compareOn Uid.text⟩

instance : Std.TransOrd Uid := inferInstanceAs (Std.TransCmp (compareOn Uid.text))

instance : Std.LawfulEqOrd Uid where
  compare_self {a} := Std.ReflOrd.compare_self (a := a.text)
  eq_of_compare {a b} h := by
    have : a.text = b.text := Std.LawfulEqOrd.eq_of_compare h
    cases a; cases b; simp_all

def kind (u : Uid) : UidKind :=
  if "e_".toList.isPrefixOf u.text.toList then .extension
  else if "y_".toList.isPrefixOf u.text.toList then .type
  else if "t_".toList.isPrefixOf u.text.toList then .table
  else if "r_".toList.isPrefixOf u.text.toList then .role
  else .column

end Uid

end Pbps
