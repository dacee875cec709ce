/-
A YAML reader for the scalars that are written: what YAML documents between double quotes, and bare words. It keeps every law
the loader's reader is taken to have.
-/
import Pbps.Load.Scalar

namespace Pbps.Load

open List Option Bool

/-! ## Between double quotes -/

/-- What stands first between double quotes, and what follows it: one of the named escapes, two hexadecimal digits, or a
character that stands for itself. -/
def readSpelled (cs : List Char) : Option (Char × List Char) :=
  match escapes.find? (·.2.isPrefixOf cs) with
  | some e => some (e.1, cs.drop e.2.length)
  | none =>
    match cs with
    | '\\' :: 'x' :: hi :: lo :: rest =>
      (hexValue hi).bind fun h => (hexValue lo).map fun l => (Char.ofNat (16 * h + l), rest)
    | c :: rest => if c = '\\' then none else some (c, rest)
    | [] => none

/-- The text up to the closing quote, on one line, and what follows the quote. -/
def readInQuotes : Nat → List Char → Option (List Char × List Char)
  | 0, _ => none
  | fuel + 1, cs =>
    if cs.head? = some '"' then some ([], cs.tail)
    else (readSpelled cs).bind fun e => (readInQuotes fuel e.2).map fun r => (e.1 :: r.1, r.2)

theorem hexValue_hexDigit : ∀ n < 16, hexValue (hexDigit n) = some n := by decide

theorem readSpelled_spelled (c : Char) (rest : List Char) : readSpelled (spelled c ++ rest) = some (c, rest) := by
  unfold spelled
  cases hn : escapes.lookup c with
  | some text =>
    obtain ⟨l, r, hsplit, -⟩ := lookup_eq_some_iff.1 hn
    have hall : ∀ e ∈ escapes, readSpelled (e.2 ++ rest) = some (e.1, rest) := by
      simp only [escapes, forall_mem_cons]
      refine ⟨rfl, rfl, rfl, rfl, rfl, rfl, rfl, rfl, rfl, rfl, rfl, rfl, rfl, rfl, rfl, rfl, rfl, ?_⟩
      simp
    exact hall (c, text) (by rw [hsplit]; simp)
  | none =>
    dsimp only
    split_ifs with hcontrol
    · have hc : c.toNat < 256 := by
        simp only [isControl, or_eq_true, and_eq_true, decide_eq_true_eq] at hcontrol
        omega
      have hhi := hexValue_hexDigit (c.toNat / 16) (by omega)
      have hlo := hexValue_hexDigit (c.toNat % 16) (by omega)
      show (hexValue (hexDigit (c.toNat / 16))).bind _ = _
      rewrite [hhi, bind_some, hlo, map_some, Nat.div_add_mod, Char.ofNat_toNat]
      rfl
    · have hb : c ≠ '\\' := by
        rintro rfl
        cases hn
      have hnone : escapes.find? (·.2.isPrefixOf (c :: rest)) = none := by
        simp [escapes, Ne.symm hb]
      simp [readSpelled, hnone, hb]

theorem spelled_eq_cons (c : Char) : ∃ x xs, spelled c = x :: xs ∧ x ≠ '"' := by
  unfold spelled
  cases hn : escapes.lookup c with
  | some text =>
    obtain ⟨l, r, hsplit, -⟩ := lookup_eq_some_iff.1 hn
    have hall : ∀ e ∈ escapes, e.2.head? = some '\\' := by decide
    obtain ⟨xs, hxs⟩ := head?_eq_some_iff.1 (hall (c, text) (by rw [hsplit]; simp))
    exact ⟨'\\', xs, hxs, by decide⟩
  | none =>
    dsimp only
    split_ifs
    · exact ⟨'\\', _, rfl, by decide⟩
    · refine ⟨c, [], rfl, ?_⟩
      rintro rfl
      cases hn

theorem readInQuotes_spelled (fuel : Nat) (c : Char) (rest : List Char) :
    readInQuotes (fuel + 1) (spelled c ++ rest) = (readInQuotes fuel rest).map fun r => (c :: r.1, r.2) := by
  have hread := readSpelled_spelled c rest
  obtain ⟨x, xs, hx, hne⟩ := spelled_eq_cons c
  rw [hx, cons_append] at hread ⊢
  rw [readInQuotes, if_neg (by simpa using hne), hread, bind_some]

theorem readInQuotes_flatMap (rest : List Char) : ∀ (s : List Char) {fuel : Nat}, s.length < fuel →
    readInQuotes fuel (s.flatMap spelled ++ '"' :: rest) = some (s, rest)
  | [], fuel + 1, _ => rfl
  | c :: s, fuel + 1, h => by
    rw [length_cons] at h
    rw [flatMap_cons, append_assoc, readInQuotes_spelled, readInQuotes_flatMap rest s (by omega)]
    rfl

theorem length_le_flatMap_spelled (s : List Char) : s.length ≤ (s.flatMap spelled).length := by
  induction s with
  | nil => simp
  | cons c s ih =>
    obtain ⟨x, xs, hx, -⟩ := spelled_eq_cons c
    rw [flatMap_cons, length_append, length_cons, hx, length_cons]
    omega

theorem readInQuotes_quoted (s rest : List Char) :
    readInQuotes ((s.flatMap spelled ++ '"' :: rest).length + 1) (s.flatMap spelled ++ '"' :: rest) = some (s, rest) := by
  have hlen := length_le_flatMap_spelled s
  refine readInQuotes_flatMap rest s ?_
  rw [length_append]
  omega

/-! ## Flow sequences -/

section Items

variable (flow : List Char → Option Plain)

def readItem : List Char → Option (Plain × List Char)
  | '"' :: cs => (readInQuotes (cs.length + 1) cs).map fun r => (.text r.1, r.2)
  | cs => (flow (cs.takeWhile isAsciiAlphanumeric)).map fun p => (p, cs.dropWhile isAsciiAlphanumeric)

def readItems : Nat → List Char → Option (List Plain × List Char)
  | 0, _ => none
  | fuel + 1, cs =>
    match cs.dropWhile (· = ' ') with
    | ']' :: rest => some ([], rest)
    | cs =>
      (readItem flow cs).bind fun v =>
        match v.2.dropWhile (· = ' ') with
        | ',' :: rest => (readItems fuel rest).map fun r => (v.1 :: r.1, r.2)
        | ']' :: rest => some ([v.1], rest)
        | _ => none

end Items

variable {flow : List Char → Option Plain} {c : Char} {w s : List Char}

theorem Item.head (h : Item flow w s) : ∃ c cs, w = c :: cs ∧ c ≠ ' ' ∧ c ≠ ']' := by
  cases h with
  | quoted s => exact ⟨'"', _, rfl, by decide, by decide⟩
  | word hread hne hword =>
    obtain ⟨c, cs, rfl⟩ := exists_cons_of_ne_nil hne
    refine ⟨c, cs, rfl, ?_, ?_⟩
    · rintro rfl
      exact absurd (hword ' ' mem_cons_self) (by decide)
    · rintro rfl
      exact absurd (hword ']' mem_cons_self) (by decide)

theorem readItem_item (h : Item flow w s) (hc : c = ',' ∨ c = ']') (rest : List Char) :
    readItem flow (w ++ c :: rest) = some (.text s, c :: rest) := by
  cases h with
  | quoted s =>
    have hshape : quoted s ++ c :: rest = '"' :: (s.flatMap spelled ++ '"' :: c :: rest) := by simp [quoted]
    rw [hshape, readItem, readInQuotes_quoted]
    rfl
  | word hread hne hword =>
    have hends : ¬ isAsciiAlphanumeric c = true := by
      rcases hc with rfl | rfl
      · decide
      · decide
    have htake : (w ++ c :: rest).takeWhile isAsciiAlphanumeric = w := by
      rw [takeWhile_append_of_pos hword, takeWhile_cons_of_neg hends, append_nil]
    have hdrop : (w ++ c :: rest).dropWhile isAsciiAlphanumeric = c :: rest := by
      rw [dropWhile_append_of_pos hword, dropWhile_cons_of_neg hends]
    obtain ⟨x, xs, rfl⟩ := exists_cons_of_ne_nil hne
    have hquote : x ≠ '"' := by
      rintro rfl
      exact absurd (hword '"' mem_cons_self) (by decide)
    rw [readItem.eq_def]
    split
    next cs h => exact absurd (cons.inj h).1 hquote
    next => rw [htake, hdrop, hread, map_some]

theorem readItems_cons (h : Item flow w s) (fuel : Nat) (hc : c = ',' ∨ c = ']') (rest : List Char) :
    readItems flow (fuel + 1) (w ++ c :: rest) =
      if c = ',' then (readItems flow fuel rest).map fun r => (.text s :: r.1, r.2) else some ([.text s], rest) := by
  obtain ⟨x, xs, rfl, hspace, hclose⟩ := h.head
  have hitem := readItem_item h hc rest
  rw [cons_append] at hitem ⊢
  rw [readItems, dropWhile_cons_of_neg (by simpa using hspace)]
  split
  next heq => exact absurd (cons.inj heq).1 hclose
  next =>
    rw [hitem, bind_some]
    rcases hc with rfl | rfl
    · rfl
    · rfl

variable {words texts : List (List Char)}

theorem readItems_written (rest : List Char) (h : Forall₂ (Item flow) words texts) : ∀ {fuel : Nat}, words.length < fuel →
      readItems flow fuel ([',', ' '].intercalate words ++ ']' :: rest) = some (texts.map .text, rest) := by
  induction h with
  | nil =>
    intro fuel hfuel
    obtain ⟨fuel, rfl⟩ := Nat.exists_eq_add_one.2 hfuel
    rfl
  | @cons w s words texts hitem hrest ih =>
    intro fuel hfuel
    obtain ⟨fuel, rfl⟩ := Nat.exists_eq_add_one.2 (Nat.zero_lt_of_lt hfuel)
    rw [length_cons] at hfuel
    have ih := ih (Nat.lt_of_succ_lt_succ hfuel)
    cases hrest with
    | nil =>
      rw [intercalate_singleton, readItems_cons hitem fuel (.inr rfl), if_neg (by decide)]
      rfl
    | @cons w' s' words texts hitem' hrest =>
      have hspace : ∀ cs, readItems flow fuel (' ' :: cs) = readItems flow fuel cs := by
        intro cs
        cases fuel with
        | zero => rfl
        | succ fuel => rw [readItems, readItems, dropWhile_cons_of_pos (by decide)]
      have hshape : [',', ' '].intercalate (w :: w' :: words) ++ ']' :: rest =
          w ++ ',' :: ' ' :: ([',', ' '].intercalate (w' :: words) ++ ']' :: rest) := by
        rw [intercalate_cons_cons, append_assoc, append_assoc]
        rfl
      rw [hshape, readItems_cons hitem fuel (.inl rfl), if_pos rfl, hspace, ih]
      rfl

theorem length_le_intercalate (h : Forall₂ (Item flow) words texts) : words.length ≤ ([',', ' '].intercalate words).length := by
  induction h with
  | nil => exact Nat.le_refl 0
  | @cons w s words texts hitem hrest ih =>
    obtain ⟨c, cs, rfl, -, -⟩ := hitem.head
    cases hrest with
    | nil =>
      rw [intercalate_singleton]
      simp
    | cons hitem' hrest =>
      rw [intercalate_cons_cons, length_append, length_append]
      simp only [length_cons] at ih ⊢
      omega

/-! ## The reader -/

def readWord (s : List Char) : Option Plain :=
  if s.all (fun c => isAsciiAlphanumeric c || ['.', '_', '(', ')'].contains c) then some (.text s) else none

/-- A reader that takes bare words, with dots, underscores and parentheses, as text. -/
def bareWords : Yaml where
  flow := readWord
  block s := some s
  inQuotes cs := readInQuotes (cs.length + 1) cs
  items cs := readItems readWord (cs.length + 1) cs
  block_of_flow _ _ := rfl
  inQuotes_spelled := readInQuotes_quoted
  items_written h rest := by
    refine readItems_written rest h ?_
    have hlen := length_le_intercalate h
    rw [length_append]
    omega

end Pbps.Load
