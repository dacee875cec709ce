/-
JSON values and the compact text of a value. No two values have one text: each construct tells itself by its first
character, and what follows a value cannot continue it. A string is read back from its text.
-/
import Mathlib.Data.String.Basic
import Mathlib.Data.List.Forall2

namespace Json

open List

/-! ## Values -/

def numberChar (c : Char) : Bool := c.isDigit || ['-', '+', '.', 'e', 'E'].contains c

/-- A number, by its spelling. -/
structure Number where
  text : String
  spelled : text.toList ≠ [] ∧ text.toList.all numberChar = true

/-- A JSON value; an object keeps the order of its entries. -/
inductive Value where
  | null
  | bool (b : Bool)
  | number (n : Number)
  | string (s : String)
  | array (items : List Value)
  | object (entries : List (String × Value))

/-- Induction on a value, through the items of arrays and the entries of objects. -/
theorem Value.ind {P : Value → Prop} (null : P .null) (bool : ∀ b, P (.bool b)) (number : ∀ n, P (.number n))
    (string : ∀ s, P (.string s)) (array : ∀ items, (∀ v ∈ items, P v) → P (.array items))
    (object : ∀ entries, (∀ e ∈ entries, P e.2) → P (.object entries)) : ∀ v, P v
  | .null => null
  | .bool b => bool b
  | .number n => number n
  | .string s => string s
  | .array items => array items fun v _ => Value.ind null bool number string array object v
  | .object entries => object entries fun e _ => Value.ind null bool number string array object e.2
termination_by v => sizeOf v
decreasing_by
  · rename_i h
    have := sizeOf_lt_of_mem h
    simp only [Value.array.sizeOf_spec]
    omega
  · rename_i h
    have := sizeOf_lt_of_mem h
    obtain ⟨k, v⟩ := e
    simp only [Value.object.sizeOf_spec, Prod.mk.sizeOf_spec] at this ⊢
    omega

mutual

def Value.Distinct : Value → Prop
  | .array items => DistinctItems items
  | .object entries => (entries.map (·.1)).Nodup ∧ DistinctEntries entries
  | .null | .bool _ | .number _ | .string _ => True

def DistinctItems : List Value → Prop
  | [] => True
  | v :: items => v.Distinct ∧ DistinctItems items

def DistinctEntries : List (String × Value) → Prop
  | [] => True
  | (_, v) :: entries => v.Distinct ∧ DistinctEntries entries

end

theorem distinct_array {items : List Value} : (Value.array items).Distinct ↔ ∀ v ∈ items, v.Distinct := by
  rw [Value.Distinct]
  induction items with
  | nil => simp [DistinctItems]
  | cons v items ih => rw [DistinctItems, ih, forall_mem_cons]

theorem distinct_object {entries : List (String × Value)} :
    (Value.object entries).Distinct ↔ (entries.map (·.1)).Nodup ∧ ∀ e ∈ entries, e.2.Distinct := by
  have hvalues : ∀ entries : List (String × Value), DistinctEntries entries ↔ ∀ e ∈ entries, e.2.Distinct := by
    intro entries
    induction entries with
    | nil => simp [DistinctEntries]
    | cons e entries ih => rw [DistinctEntries, ih, forall_mem_cons]
  rw [Value.Distinct, hvalues]

/-! ## The compact text -/

def hexDigit (n : Nat) : Char := if n < 10 then Char.ofNat (48 + n) else Char.ofNat (87 + n)

def escapeCode (c : Char) : Option (List Char) :=
  if c = '"' then some ['"']
  else if c = '\\' then some ['\\']
  else if c = '\n' then some ['n']
  else if c = '\r' then some ['r']
  else if c = '\t' then some ['t']
  else if c = Char.ofNat 8 then some ['b']
  else if c = Char.ofNat 12 then some ['f']
  else if c.toNat < 32 then some ['u', '0', '0', hexDigit (c.toNat / 16), hexDigit (c.toNat % 16)]
  else none

def escaped (c : Char) : List Char :=
  match escapeCode c with
  | some code => '\\' :: code
  | none => [c]

def quoted (s : String) : List Char := '"' :: (s.toList.flatMap escaped ++ ['"'])

mutual

def spell : Value → List Char
  | .null => ['n', 'u', 'l', 'l']
  | .bool true => ['t', 'r', 'u', 'e']
  | .bool false => ['f', 'a', 'l', 's', 'e']
  | .number n => n.text.toList
  | .string s => quoted s
  | .array [] => ['[', ']']
  | .array (v :: items) => '[' :: (spell v ++ spellItems items)
  | .object [] => ['{', '}']
  | .object ((k, v) :: entries) => '{' :: (quoted k ++ ':' :: (spell v ++ spellEntries entries))

def spellItems : List Value → List Char
  | [] => [']']
  | v :: items => ',' :: (spell v ++ spellItems items)

def spellEntries : List (String × Value) → List Char
  | [] => ['}']
  | (k, v) :: entries => ',' :: (quoted k ++ ':' :: (spell v ++ spellEntries entries))

end

/-! ## Strings -/

def controls : List Char := '"' :: '\\' :: (List.range 32).map Char.ofNat

variable {c : Char} {code r r' text : List Char} {s : String} {v : Value}

theorem mem_controls (h : escapeCode c = some code) : c ∈ controls := by
  by_cases hquote : c = '"'
  · exact hquote ▸ mem_cons_self
  by_cases hslash : c = '\\'
  · exact hslash ▸ mem_cons_of_mem _ mem_cons_self
  have hlow : c.toNat < 32 := by
    unfold escapeCode at h
    rw [if_neg hquote, if_neg hslash] at h
    split_ifs at h with h1 h2 h3 h4 h5 h6 <;> first | exact h6 | (subst_vars; decide)
  have hmem : Char.ofNat c.toNat ∈ (List.range 32).map Char.ofNat := mem_map.2 ⟨_, mem_range.2 hlow, rfl⟩
  rw [Char.ofNat_toNat] at hmem
  exact mem_cons_of_mem _ (mem_cons_of_mem _ hmem)

theorem codes_prefix_free : (controls.all fun c => controls.all fun c' =>
    match escapeCode c, escapeCode c' with
    | some code, some code' => !code.isPrefixOf code' || c == c'
    | _, _ => true) = true := by decide

variable {c' close : Char} {α : Type}

theorem eq_of_begins {code' : List Char} (h : escapeCode c = some code) (h' : escapeCode c' = some code')
    (hbegins : code <+: code') : c = c' := by
  have hcodes := all_eq_true.1 (all_eq_true.1 codes_prefix_free c (mem_controls h)) c' (mem_controls h')
  rw [h, h'] at hcodes
  simpa [ isPrefixOf_iff_prefix.2 hbegins] using hcodes

theorem escaped_of_some (h : escapeCode c = some code) : escaped c = '\\' :: code := by
  rw [escaped, h]

theorem escaped_of_none (h : escapeCode c = none) : escaped c = [c] := by rw [escaped, h]

theorem ne_of_escapeCode (h : escapeCode c = none) : c ≠ '"' ∧ c ≠ '\\' :=
  ⟨fun hc => (by rw [hc] at h; cases h), fun hc => (by rw [hc] at h; cases h)⟩

theorem escaped_append_inj (h : escaped c ++ r = escaped c' ++ r') : c = c' ∧ r = r' := by
  cases hc : escapeCode c with
  | none =>
    cases hc' : escapeCode c' with
    | none =>
      rw [escaped_of_none hc, escaped_of_none hc'] at h
      exact cons.inj h
    | some code =>
      rw [escaped_of_none hc, escaped_of_some hc'] at h
      exact absurd (cons.inj h).1 (ne_of_escapeCode hc).2
  | some code =>
    cases hc' : escapeCode c' with
    | none =>
      rw [escaped_of_some hc, escaped_of_none hc'] at h
      exact absurd (cons.inj h).1.symm (ne_of_escapeCode hc').2
    | some code' =>
      rw [escaped_of_some hc, escaped_of_some hc'] at h
      have htail : code ++ r = code' ++ r' := (cons.inj h).2
      have hsame : c = c' := by
        rcases prefix_or_prefix_of_prefix (prefix_append code r) (htail ▸ prefix_append code' r') with hp | hp
        · exact eq_of_begins hc hc' hp
        · exact (eq_of_begins hc' hc hp).symm
      subst hsame
      obtain rfl : code = code' := Option.some.inj (hc.symm.trans hc')
      exact ⟨rfl, append_cancel_left htail⟩

theorem escaped_append_ne : escaped c ++ r ≠ '"' :: r' := by
  intro h
  cases hc : escapeCode c with
  | none =>
    rw [escaped_of_none hc] at h
    exact (ne_of_escapeCode hc).1 (cons.inj h).1
  | some code =>
    rw [escaped_of_some hc] at h
    exact absurd (cons.inj h).1 (by decide)

theorem flatMap_escaped_inj : ∀ {l l' r r' : List Char}, l.flatMap escaped ++ '"' :: r = l'.flatMap escaped ++ '"' :: r' →
    l = l' ∧ r = r'
  | [], [], _, _, h => ⟨rfl, (cons.inj h).2⟩
  | [], c :: l', r, r', h => by
    rw [flatMap_cons, append_assoc] at h
    exact absurd h.symm escaped_append_ne
  | c :: l, [], r, r', h => by
    rw [flatMap_cons, append_assoc] at h
    exact absurd h escaped_append_ne
  | c :: l, c' :: l', r, r', h => by
    rw [flatMap_cons, flatMap_cons, append_assoc, append_assoc] at h
    obtain ⟨rfl, htail⟩ := escaped_append_inj h
    obtain ⟨rfl, rfl⟩ := flatMap_escaped_inj htail
    exact ⟨rfl, rfl⟩

theorem quoted_append_inj {s' : String} (h : quoted s ++ r = quoted s' ++ r') : s = s' ∧ r = r' := by
  rw [quoted, quoted, cons_append, cons_append, append_assoc, append_assoc] at h
  obtain ⟨hs, hr⟩ := flatMap_escaped_inj (cons.inj h).2
  exact ⟨String.toList_injective hs, hr⟩

/-! ## Values told by their texts -/

def Ends (r : List Char) : Prop := ∀ c t, r = c :: t → numberChar c = false

theorem numbers_append_inj : ∀ {l l' r r' : List Char}, l.all numberChar = true → l'.all numberChar = true → Ends r → Ends r' →
    l ++ r = l' ++ r' → l = l' ∧ r = r'
  | [], [], _, _, _, _, _, _, h => ⟨rfl, h⟩
  | [], c :: l', r, r', _, hl', hr, _, h => by
    rw [all_cons, Bool.and_eq_true, hr c (l' ++ r') h] at hl'
    cases hl'.1
  | c :: l, [], r, r', hl, _, _, hr', h => by
    rw [all_cons, Bool.and_eq_true, hr' c (l ++ r) h.symm] at hl
    cases hl.1
  | c :: l, c' :: l', r, r', hl, hl', hr, hr', h => by
    obtain ⟨rfl, htail⟩ := cons.inj h
    rw [all_cons, Bool.and_eq_true] at hl hl'
    obtain ⟨rfl, rfl⟩ := numbers_append_inj hl.2 hl'.2 hr hr' htail
    exact ⟨rfl, rfl⟩

def mark (c : Char) : Char := if numberChar c then '0' else c

def Value.mark : Value → Char
  | .null => 'n'
  | .bool true => 't'
  | .bool false => 'f'
  | .number _ => '0'
  | .string _ => '"'
  | .array _ => '['
  | .object _ => '{'

theorem exists_mark (v : Value) : ∃ c t, spell v = c :: t ∧ mark c = v.mark := by
  cases v with
  | null => exact ⟨_, _, spell.eq_1, by decide⟩
  | bool b => cases b <;> exact ⟨_, _, by rw [spell], by decide⟩
  | number n =>
    obtain ⟨c, t, hct⟩ := exists_cons_of_ne_nil n.spelled.1
    have hall := n.spelled.2
    rw [hct, all_cons, Bool.and_eq_true] at hall
    exact ⟨c, t, by rw [spell, hct], by rw [mark, if_pos hall.1]; rfl⟩
  | string s => exact ⟨_, _, by rw [spell, quoted], by rw [Value.mark]; decide⟩
  | array items => cases items <;> exact ⟨_, _, by rw [spell], by rw [Value.mark]; decide⟩
  | object entries => rcases entries with _ | ⟨⟨k, v⟩, entries⟩ <;> exact ⟨_, _, by rw [spell], by rw [Value.mark]; decide⟩

theorem mark_eq {w : Value} (h : spell v ++ r = spell w ++ r') : v.mark = w.mark := by
  obtain ⟨c, t, hv, hc⟩ := exists_mark v
  obtain ⟨c', t', hw, hc'⟩ := exists_mark w
  rw [hv, hw] at h
  rw [← hc, ← hc', (cons.inj h).1]

/-- A spelling that tells what it spells, before anything that ends a value. -/
def Tells {α : Type} (spelled : α → List Char) (a : α) : Prop :=
  ∀ b r r', Ends r → Ends r' → spelled a ++ r = spelled b ++ r' → a = b ∧ r = r'

theorem ends_cons (hc : numberChar c = false) : Ends (c :: r) := by
  rintro _ _ h
  rwa [← (cons.inj h).1]

/-- What is left of a list after an element, up to the closer. -/
def listed {α : Type} (spelled : α → List Char) (close : Char) (l : List α) : List Char :=
  l.flatMap (',' :: spelled ·) ++ [close]

theorem ends_listed {spelled : α → List Char} (hclose : numberChar close = false) (l : List α) :
    Ends (listed spelled close l ++ r) := by
  cases l with
  | nil => exact ends_cons hclose
  | cons a l => exact ends_cons (by decide)

theorem listed_append_inj {spelled : α → List Char} (hclose : numberChar close = false) (hcomma : close ≠ ',') :
    ∀ {l l' : List α} {r r' : List Char}, (∀ a ∈ l, Tells spelled a) →
      listed spelled close l ++ r = listed spelled close l' ++ r' → l = l' ∧ r = r'
  | [], [], _, _, _, h => ⟨rfl, (cons.inj h).2⟩
  | [], _ :: _, _, _, _, h => absurd (cons.inj h).1 hcomma
  | _ :: _, [], _, _, _, h => absurd (cons.inj h).1.symm hcomma
  | a :: l, b :: l', r, r', hl, h => by
    have htail : spelled a ++ (listed spelled close l ++ r) = spelled b ++ (listed spelled close l' ++ r') := by
      simpa [listed] using h
    obtain ⟨rfl, hrest⟩ := hl a mem_cons_self b _ _ (ends_listed hclose l) (ends_listed hclose l') htail
    obtain ⟨rfl, rfl⟩ := listed_append_inj hclose hcomma (fun a ha => hl a (mem_cons_of_mem _ ha)) hrest
    exact ⟨rfl, rfl⟩

/-- A list between its brackets; an element never begins as the closer does. -/
def bracketed {α : Type} (spelled : α → List Char) (close : Char) : List α → List Char
  | [] => [close]
  | a :: l => spelled a ++ listed spelled close l

theorem bracketed_append_inj {spelled : α → List Char} (hclose : numberChar close = false) (hcomma : close ≠ ',')
    (hbegins : ∀ a r r', spelled a ++ r ≠ close :: r') {l l' : List α} (hl : ∀ a ∈ l, Tells spelled a)
    (h : bracketed spelled close l ++ r = bracketed spelled close l' ++ r') : l = l' ∧ r = r' := by
  cases l with
  | nil =>
    cases l' with
    | nil => exact ⟨rfl, (cons.inj h).2⟩
    | cons b l' =>
      rw [bracketed, bracketed, append_assoc] at h
      exact absurd h.symm (hbegins b _ _)
  | cons a l =>
    cases l' with
    | nil =>
      rw [bracketed, bracketed, append_assoc] at h
      exact absurd h (hbegins a _ _)
    | cons b l' =>
      -- with a comma before it, it is what is left of a longer list
      refine listed_append_inj hclose hcomma hl ?_
      simpa [bracketed, listed] using h

theorem spellItems_eq : ∀ items, spellItems items = listed spell ']' items
  | [] => by rw [spellItems]; rfl
  | v :: items => by rw [spellItems, spellItems_eq items]; simp [listed]

theorem spell_array (items : List Value) : spell (.array items) = '[' :: bracketed spell ']' items := by
  cases items <;> rw [spell]
  · rfl
  · rw [spellItems_eq, bracketed]

def spellEntry (e : String × Value) : List Char := quoted e.1 ++ ':' :: spell e.2

theorem spellEntries_eq : ∀ entries, spellEntries entries = listed spellEntry '}' entries
  | [] => by rw [spellEntries]; rfl
  | (k, v) :: entries => by rw [spellEntries, spellEntries_eq entries]; simp [listed, spellEntry]

theorem spell_object (entries : List (String × Value)) : spell (.object entries) = '{' :: bracketed spellEntry '}' entries := by
  rcases entries with _ | ⟨⟨k, v⟩, entries⟩ <;> rw [spell]
  · rfl
  · rw [spellEntries_eq, bracketed]
    simp [spellEntry]

theorem tells_entry {e : String × Value} (he : Tells spell e.2) : Tells spellEntry e := by
  rintro ⟨k, w⟩ r r' hr hr' h
  rw [spellEntry, spellEntry, append_assoc, append_assoc] at h
  obtain ⟨hk, htail⟩ := quoted_append_inj h
  obtain ⟨hv, hrest⟩ := he w r r' hr hr' (cons.inj htail).2
  exact ⟨Prod.ext hk hv, hrest⟩

theorem mark_ne_close (v : Value) : v.mark ≠ ']' := by
  cases v with
  | bool b => cases b <;> decide
  | _ => rw [Value.mark]; decide

theorem spell_append_ne : spell v ++ r ≠ ']' :: r' := by
  intro h
  obtain ⟨c, t, hv, hc⟩ := exists_mark v
  rw [hv] at h
  rw [(cons.inj h).1] at hc
  exact mark_ne_close v hc.symm

theorem spellEntry_append_ne (e : String × Value) (r r' : List Char) : spellEntry e ++ r ≠ '}' :: r' := fun h =>
  absurd (cons.inj h).1 (by decide)

theorem tells (v : Value) : Tells spell v := by
  induction v using Value.ind with
  | null =>
    intro w r r' _ _ h
    have hmark := mark_eq h
    rcases w with _ | (_ | _) | n' | s' | items' | entries' <;> first | (cases hmark; done) | skip
    exact ⟨rfl, append_cancel_left h⟩
  | bool b =>
    intro w r r' _ _ h
    have hmark := mark_eq h
    rcases w with _ | (_ | _) | n' | s' | items' | entries' <;> cases b <;> first | (cases hmark; done) | skip
    · exact ⟨rfl, append_cancel_left h⟩
    · exact ⟨rfl, append_cancel_left h⟩
  | number n =>
    intro w r r' hr hr' h
    have hmark := mark_eq h
    rcases w with _ | (_ | _) | n' | s' | items' | entries' <;> first | (cases hmark; done) | skip
    rw [spell, spell] at h
    obtain ⟨htext, hrest⟩ := numbers_append_inj n.spelled.2 n'.spelled.2 hr hr' h
    obtain ⟨text, spelled⟩ := n
    obtain ⟨text', spelled'⟩ := n'
    obtain rfl : text = text' := String.toList_injective htext
    exact ⟨rfl, hrest⟩
  | string s =>
    intro w r r' _ _ h
    have hmark := mark_eq h
    rcases w with _ | (_ | _) | n' | s' | items' | entries' <;> first | (cases hmark; done) | skip
    rw [spell, spell] at h
    obtain ⟨rfl, hrest⟩ := quoted_append_inj h
    exact ⟨rfl, hrest⟩
  | array items ih =>
    intro w r r' _ _ h
    have hmark := mark_eq h
    rcases w with _ | (_ | _) | n' | s' | items' | entries' <;> first | (cases hmark; done) | skip
    rw [spell_array, spell_array] at h
    obtain ⟨rfl, hrest⟩ := bracketed_append_inj (by decide) (by decide) (fun _ _ _ => spell_append_ne) ih (cons.inj h).2
    exact ⟨rfl, hrest⟩
  | object entries ih =>
    intro w r r' _ _ h
    have hmark := mark_eq h
    rcases w with _ | (_ | _) | n' | s' | items' | entries' <;> first | (cases hmark; done) | skip
    rw [spell_object, spell_object] at h
    obtain ⟨rfl, hrest⟩ := bracketed_append_inj (by decide) (by decide) spellEntry_append_ne (fun e he => tells_entry (ih e he))
      (cons.inj h).2
    exact ⟨rfl, hrest⟩

/-- A writer of values, as `Value::to_string` is: no two values have one text. -/
class Printer where
  text : Value → String
  text_injective : Function.Injective text

/-- The compact text that the JSON of a value has. -/
@[reducible] def compact : Printer where
  text v := String.ofList (spell v)
  text_injective v w h := by
    have hspell : spell v = spell w := by simpa using congrArg String.toList h
    exact (tells v w [] [] (fun _ _ h => by cases h) (fun _ _ h => by cases h) (by rw [hspell])).1

/-! ## Reading a string -/

def blankChar (c : Char) : Bool := [' ', '\n', '\t', '\r'].contains c

/-- A reader of one string with white space around it, as `from_str::<String>` is. -/
class Reader where
  string : List Char → Option String
  /-- A string is read from its text. -/
  string_quoted : ∀ s, string (quoted s) = some s
  /-- What is read stands between two quotes, with white space around them. -/
  string_quote : ∀ {text s}, string text = some s →
    ∃ front body blanks, text = front ++ '"' :: body ++ '"' :: blanks ∧ blanks.all blankChar = true

open Classical in
/-- The reader of the texts that strings are written as, and of no other. -/
@[reducible] noncomputable def ofQuoted : Reader where
  string text := if h : ∃ s, quoted s = text then some h.choose else none
  string_quoted s := by
    have h : ∃ s', quoted s' = quoted s := ⟨s, rfl⟩
    rw [dif_pos h, (quoted_append_inj (congrArg (· ++ []) h.choose_spec)).1]
  string_quote {text s} h := by
    split_ifs at h with hwritten
    obtain ⟨s', rfl⟩ := hwritten
    exact ⟨[], s'.toList.flatMap escaped, [], rfl, rfl⟩

/-! ## What a spelling ends with -/

theorem codes_quote : (controls.all fun c =>
    match escapeCode c with
    | some code => !code.contains '"' || code == ['"']
    | none => true) = true := by decide

theorem escaped_quote {x y : List Char} (h : escaped c = x ++ '"' :: y) : x = ['\\'] := by
  cases hc : escapeCode c with
  | none =>
    rw [escaped_of_none hc, eq_comm, append_eq_singleton_iff] at h
    rcases h with ⟨-, h⟩ | ⟨-, h⟩
    · exact absurd (cons.inj h).1.symm (ne_of_escapeCode hc).1
    · cases h
  | some code =>
    have hcode := all_eq_true.1 codes_quote c (mem_controls hc)
    rw [hc] at hcode
    rw [escaped_of_some hc] at h
    cases x with
    | nil => exact absurd (cons.inj h).1 (by decide)
    | cons d x =>
      obtain ⟨rfl, hx⟩ := cons.inj h
      simp only [Bool.or_eq_true, Bool.not_eq_true', contains_eq_mem, decide_eq_false_iff_not, beq_iff_eq] at hcode
      rcases hcode with hcode | rfl
      · exact absurd (hx ▸ mem_append_right _ mem_cons_self) hcode
      · have hone : x ++ '"' :: y = ['"'] := hx.symm
        rcases append_eq_singleton_iff.1 hone with ⟨rfl, -⟩ | ⟨-, hx⟩
        · rfl
        · cases hx

theorem body_quote : ∀ {cs x y : List Char}, cs.flatMap escaped = x ++ '"' :: y → ∃ x', x = x' ++ ['\\']
  | [], x, y, h => by
    rw [flatMap_nil, eq_comm, append_eq_nil_iff] at h
    cases h.2
  | c :: cs, x, y, h => by
    rw [flatMap_cons, append_eq_append_iff] at h
    rcases h with ⟨a, rfl, hrest⟩ | ⟨a, hcode, hrest⟩
    · obtain ⟨x', rfl⟩ := body_quote hrest
      exact ⟨escaped c ++ x', (append_assoc _ _ _).symm⟩
    · cases a with
      | nil =>
        obtain ⟨x', hx⟩ := body_quote (x := []) hrest.symm
        simp at hx
      | cons d a =>
        obtain ⟨rfl, -⟩ := cons.inj hrest
        exact ⟨[], escaped_quote hcode⟩

theorem flatMap_escaped_of_not_mem : ∀ {cs : List Char}, '\\' ∉ cs.flatMap escaped → cs.flatMap escaped = cs
  | [], _ => rfl
  | c :: cs, h => by
    rw [flatMap_cons, mem_append, not_or] at h
    cases hc : escapeCode c with
    | none => rw [flatMap_cons, escaped_of_none hc, flatMap_escaped_of_not_mem h.2, singleton_append]
    | some code => exact absurd (escaped_of_some hc ▸ mem_cons_self) h.1

theorem suffix_body {w : List Char} (hw : '\\' ∉ w) : ∀ {cs : List Char}, w <:+ cs.flatMap escaped → w <:+ cs ∨
    ∃ c code v t, escapeCode c = some code ∧ v <:+ code ∧ v ≠ [] ∧ w = v ++ t ∧ (c :: t) <:+ cs
  | [], h => .inl h
  | c :: cs, h => by
    rw [flatMap_cons] at h
    have hrest : w <:+ cs.flatMap escaped → w <:+ c :: cs ∨
        ∃ d code v t, escapeCode d = some code ∧ v <:+ code ∧ v ≠ [] ∧ w = v ++ t ∧ (d :: t) <:+ c :: cs := by
      intro hsuffix
      rcases suffix_body hw hsuffix with hleft | ⟨d, code, v, t, hcode, hv, hne, hwt, hsuf⟩
      · exact .inl (hleft.trans (suffix_cons _ _))
      · exact .inr ⟨d, code, v, t, hcode, hv, hne, hwt, hsuf.trans (suffix_cons _ _)⟩
    rcases suffix_or_suffix_of_suffix h (suffix_append _ _) with hsuffix | ⟨v, rfl⟩
    · exact hrest hsuffix
    · by_cases hv : v = []
      · exact hrest (by rw [hv]; exact suffix_refl _)
      -- the rest has no backslash, so the text begins within the code of one character
      have hplain : cs.flatMap escaped = cs := flatMap_escaped_of_not_mem fun hmem => hw (mem_append_right _ hmem)
      have hsuf : v <:+ escaped c := by
        obtain ⟨u, hu⟩ := h
        rw [← append_assoc] at hu
        exact ⟨u, append_cancel_right hu⟩
      cases hc : escapeCode c with
      | none =>
        rw [escaped_of_none hc, suffix_cons_iff, suffix_nil] at hsuf
        obtain rfl := hsuf.resolve_right hv
        exact .inl (by rw [hplain]; exact suffix_refl _)
      | some code =>
        rw [escaped_of_some hc, suffix_cons_iff] at hsuf
        rcases hsuf with rfl | hsuf
        · exact absurd (mem_append_left _ mem_cons_self) hw
        · exact .inr ⟨c, code, v, cs, hc, hsuf, hv, by rw [hplain], suffix_refl _⟩

/-! ## Objects

Members between braces, with commas between them and white space where the grammar allows it. How a key and a value are
spelled is a parameter. -/

def Blank (l : List Char) : Prop := ∀ c ∈ l, c = ' ' ∨ c = '\n' ∨ c = '\t' ∨ c = '\r'

variable {K V : Type} {key : K → List Char → Prop} {value : V → List Char → Prop}

/-- One member: its key, a colon and its value. -/
inductive Member (key : K → List Char → Prop) (value : V → List Char → Prop) : K × V → List Char → Prop
  | mk {k : K} {v : V} {a b c kt vt : List Char} (before : Blank a) (name : key k kt) (colon : Blank b) (after : Blank c)
      (spelled : value v vt) : Member key value (k, v) (a ++ kt ++ b ++ ':' :: (c ++ vt))

theorem blank_nil : Blank [] := fun _ h => absurd h not_mem_nil

theorem blank_of_all {l : List Char} (h : (l.all fun c => c == ' ' || c == '\n') = true) : Blank l := by
  intro c hc
  have := all_eq_true.1 h c hc
  rw [Bool.or_eq_true, beq_iff_eq, beq_iff_eq] at this
  exact this.elim .inl fun h => .inr (.inl h)

theorem Member.spaced {k : K} {v : V} {a kt vt : List Char} (before : Blank a) (name : key k kt) (spelled : value v vt) :
    Member key value (k, v) (a ++ kt ++ ':' :: ' ' :: vt) := by
  have h : Member key value (k, v) (a ++ kt ++ [] ++ ':' :: ([' '] ++ vt)) :=
    .mk before name blank_nil (blank_of_all (by decide)) spelled
  rwa [append_nil] at h

/-- An object with its members in order. -/
inductive Object (key : K → List Char → Prop) (value : V → List Char → Prop) : List (K × V) → List Char → Prop
  | mk {entries : List (K × V)} {texts : List (List Char)} {z : List Char} (members : Forall₂ (Member key value) entries texts)
      (close : Blank z) : Object key value entries ('{' :: ([','].intercalate texts ++ z ++ ['}']))

/-- Lines that each end with a comma and are followed by a last one are members with commas between them. -/
theorem intercalate_lines (w last : List Char) (f : α → List Char) : ∀ l : List α,
    w ++ (l.flatMap (fun x => f x ++ ',' :: w) ++ last) = [','].intercalate (l.map (fun x => w ++ f x) ++ [w ++ last])
  | [] => by rw [flatMap_nil, nil_append, map_nil, nil_append, intercalate_singleton]
  | x :: l => by
    have hne : l.map (fun x => w ++ f x) ++ [w ++ last] ≠ [] := by simp
    rw [map_cons, cons_append, intercalate_cons_of_ne_nil hne, ← intercalate_lines w last f l,
      flatMap_cons]
    simp [append_assoc]

theorem intercalate_indented (w : List Char) : ∀ {l : List (List Char)}, l ≠ [] →
    w ++ (',' :: w).intercalate l = [','].intercalate (l.map (w ++ ·))
  | [x], _ => by rw [intercalate_singleton, map_singleton, intercalate_singleton]
  | x :: y :: l, _ => by
    have ih : w ++ (',' :: w).intercalate (y :: l) = [','].intercalate ((y :: l).map (w ++ ·)) :=
      intercalate_indented w (cons_ne_nil y l)
    rw [intercalate_cons_cons, map_cons, map_cons, intercalate_cons_cons, ← map_cons, ← ih]
    simp [append_assoc]

end Json
