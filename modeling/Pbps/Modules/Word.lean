/-
Whole words in a text (`contains_word` of `module.rs`). The search goes on after the end of an occurrence it turns down, so
what it finds is told by the occurrences counted from the left.
-/
import Pbps.Lib.Occurs

namespace Pbps.Modules

open Occurs
open List

/-- `is_regular_identifier_continue`; `alphanumeric` is the standard library's `char::is_alphanumeric`. -/
def isRegularIdentifierContinue (alphanumeric : Char → Bool) (ch : Char) : Bool :=
  alphanumeric ch || ['_', '@', '#', '$'].contains ch

/-- `is_ident_char`: a dot counts. -/
def isIdentChar (c : Option Char) (continues : Char → Bool) : Bool := c.any fun c => continues c || c == '.'

/-- The search from a place on; each turn goes on after an occurrence, which is not empty. -/
def containsWordFrom (haystack needle : List Char) (continues : Char → Bool) : Nat → Nat → Bool
  | 0, _ => false
  | turns + 1, from_ =>
    match find needle (haystack.drop from_) with
    | none => false
    | some at_ =>
      let start := from_ + at_
      let end_ := start + needle.length
      if !isIdentChar (haystack.take start).getLast? continues && !isIdentChar (haystack.drop end_).head? continues then true
      else containsWordFrom haystack needle continues turns end_

/-- `contains_word`. -/
def containsWord (haystack needle : List Char) (continues : Char → Bool) : Bool :=
  containsWordFrom haystack needle continues (haystack.length + 1) 0

/-! ## What a whole word is -/

section

variable {haystack needle : List Char} {continues : Char → Bool}

def FreeBefore (haystack : List Char) (continues : Char → Bool) (p : Nat) : Prop :=
  ∀ q, p = q + 1 → ∀ c, haystack[q]? = some c → continues c = false ∧ c ≠ '.'

def FreeAt (haystack : List Char) (continues : Char → Bool) (p : Nat) : Prop :=
  ∀ c, haystack[p]? = some c → continues c = false ∧ c ≠ '.'

/-- An occurrence with no identifier character and no dot on either side. -/
structure Whole (haystack needle : List Char) (continues : Char → Bool) (p : Nat) : Prop where
  occurs : Occurs.At needle haystack p
  before : FreeBefore haystack continues p
  after : FreeAt haystack continues (p + needle.length)

theorem isIdentChar_eq_false {c : Option Char} :
    isIdentChar c continues = false ↔ ∀ d, c = some d → continues d = false ∧ d ≠ '.' := by
  cases c with
  | none => simp [isIdentChar]
  | some d => simp [isIdentChar]

theorem freeBefore_iff {p : Nat} (hp : p ≤ haystack.length) :
    FreeBefore haystack continues p ↔ isIdentChar (haystack.take p).getLast? continues = false := by
  rw [isIdentChar_eq_false, getLast?_eq_getElem?, length_take_of_le hp]
  cases p with
  | zero => simp [FreeBefore]
  | succ q =>
    rw [Nat.add_sub_cancel, getElem?_take_of_lt (Nat.lt_succ_self q)]
    refine ⟨fun h => h q rfl, fun h r hr => ?_⟩
    obtain rfl : q = r := by omega
    exact h

theorem freeAt_iff {p : Nat} : FreeAt haystack continues p ↔ isIdentChar (haystack.drop p).head? continues = false := by
  rw [isIdentChar_eq_false, head?_drop]
  rfl

/-! ## What the search finds -/

theorem firstFrom_iff (hne : needle ≠ []) {from_ at_ : Nat} :
    find needle (haystack.drop from_) = some at_ ↔ FirstFrom needle haystack from_ (from_ + at_) := by
  rw [find_eq_some hne, at_drop]
  constructor
  · rintro ⟨hat, hfirst⟩
    refine ⟨Nat.le_add_right .., hat, fun q hq hlt => ?_⟩
    have := hfirst (q - from_) (by omega)
    rwa [at_drop, Nat.add_sub_cancel' hq] at this
  · rintro ⟨-, hat, hfirst⟩
    refine ⟨hat, fun q hq => ?_⟩
    rw [at_drop]
    exact hfirst _ (by omega) (by omega)

theorem containsWordFrom_iff (hne : needle ≠ []) : ∀ {turns from_ : Nat}, haystack.length < from_ + turns →
    (containsWordFrom haystack needle continues turns from_ = true ↔
      ∃ p, CountedFrom needle haystack from_ p ∧ Whole haystack needle continues p)
  | 0, from_, hturns => by
    refine ⟨(nomatch ·), ?_⟩
    rintro ⟨p, hp, -⟩
    -- past the end of the text nothing occurs
    have hle := hp.at.le_length hne
    have hpos := length_pos_of_ne_nil hne
    have hstart := hp.le
    omega
  | turns + 1, from_, hturns => by
    have hpos := length_pos_of_ne_nil hne
    rw [containsWordFrom]
    cases hfind : find needle (haystack.drop from_) with
    | none =>
      refine ⟨(nomatch ·), ?_⟩
      rintro ⟨p, hp, -⟩
      have hnone := (find_eq_none hne).1 hfind
      obtain ⟨q, hq⟩ : ∃ q, FirstFrom needle haystack from_ q := by
        cases hp with
        | first h => exact ⟨_, h⟩
        | next h _ => exact ⟨_, h⟩
      have := hnone (q - from_)
      rw [at_drop, Nat.add_sub_cancel' hq.1] at this
      exact absurd hq.2.1 this
    | some at_ =>
      have hfirst := (firstFrom_iff hne).1 hfind
      have hle := hfirst.2.1.le_length hne
      have hwhole : (!isIdentChar (haystack.take (from_ + at_)).getLast? continues &&
          !isIdentChar (haystack.drop (from_ + at_ + needle.length)).head? continues) = true ↔
          Whole haystack needle continues (from_ + at_) := by
        rw [Bool.and_eq_true, Bool.not_eq_true', Bool.not_eq_true', ← freeBefore_iff (by omega), ← freeAt_iff]
        exact ⟨fun h => ⟨hfirst.2.1, h.1, h.2⟩, fun h => ⟨h.before, h.after⟩⟩
      dsimp only
      split
      · next h => exact ⟨fun _ => ⟨_, .first hfirst, hwhole.1 h⟩, fun _ => rfl⟩
      · next h =>
        rw [containsWordFrom_iff hne (by omega)]
        constructor
        · rintro ⟨p, hp, hw⟩
          exact ⟨p, .next hfirst hp, hw⟩
        · rintro ⟨p, hp, hw⟩
          cases hp with
          | first hp => exact absurd (hwhole.2 (hfirst.unique hp ▸ hw)) h
          | next hp hq => exact ⟨p, hfirst.unique hp ▸ hq, hw⟩

theorem containsWord_iff (hne : needle ≠ []) : containsWord haystack needle continues = true ↔
    ∃ p, Counted needle haystack p ∧ Whole haystack needle continues p :=
  containsWordFrom_iff hne (by omega)

/-! ## What it misses -/

/-- Wherever the name begins again within itself, an identifier character or a dot of it stands before that place. -/
def NoneWithin (needle : List Char) (continues : Char → Bool) : Prop :=
  ∀ d, 0 < d → d < needle.length → needle.drop d <+: needle → ¬ FreeBefore needle continues d

theorem containsWord_of_whole (hne : needle ≠ []) {p : Nat} (hp : Whole haystack needle continues p)
    (hclear : ∀ q, Occurs.At needle haystack q → q < p → q + needle.length ≤ p) : containsWord haystack needle continues = true := by
  refine (containsWord_iff hne).2 ⟨p, (counted_or_overlapped hne hp.occurs (Nat.zero_le p)).resolve_right ?_, hp⟩
  rintro ⟨q, hq, hlt, hover⟩
  have := hclear q hq hlt
  omega

theorem NoneWithin.clear (h : NoneWithin needle continues) {p q : Nat} (hp : Whole haystack needle continues p)
    (hq : Occurs.At needle haystack q) (hlt : q < p) : q + needle.length ≤ p := by
  by_contra hover
  refine h (p - q) (by omega) (by omega) (drop_prefix_of_overlap hq hp.occurs hlt (by omega)) fun r hr c hc => ?_
  refine hp.before (q + r) (by omega) c ?_
  obtain ⟨rest, hrest⟩ := hq
  rw [← getElem?_drop, ← hrest, getElem?_append_left (by omega), hc]

/-- A name that can begin again within itself as a whole word: after a dot, and begun again, it is not found. -/
theorem exists_missed {d : Nat} (hd : 0 < d) (hlt : d < needle.length) (hagain : needle.drop d <+: needle)
    (hfree : FreeBefore needle continues d) :
    ∃ haystack, (∃ p, Whole haystack needle continues p) ∧ containsWord haystack needle continues = false := by
  have hne : needle ≠ [] := ne_nil_of_length_pos (by omega)
  have hsplit : needle.drop d ++ needle.drop (needle.length - d) = needle := by
    rw [prefix_iff_eq_take.1 hagain, length_drop]
    exact take_append_drop ..
  let haystack := '.' :: (needle ++ needle.drop (needle.length - d))
  have hlen : haystack.length = 1 + d + needle.length := by
    simp only [haystack, length_cons, length_append, length_drop]
    omega
  have hchar : ∀ q < needle.length, haystack[q + 1]? = needle[q]? := fun q hq => by
    rw [getElem?_cons_succ, getElem?_append_left hq]
  have hagain : Occurs.At needle haystack (1 + d) := by
    rw [Occurs.At, Nat.add_comm, drop_succ_cons, drop_append_of_le_length (by omega), hsplit]
  -- where the name stood at the very beginning too, it would be all dots
  have hfirst : FirstFrom needle haystack 0 1 := by
    refine ⟨Nat.zero_le 1, prefix_append .., fun q _ hq h0 => ?_⟩
    obtain rfl : q = 0 := by omega
    have hsame : ∀ q < needle.length, needle[q]? = haystack[q]? := fun q hq => by
      obtain ⟨rest, hrest⟩ := h0
      rw [← drop_zero (l := haystack), ← hrest, getElem?_append_left hq]
    have hdots : ∀ q < needle.length, needle[q]? = some '.' := by
      intro q
      induction q with
      | zero => exact hsame 0
      | succ q ih =>
        intro hq
        rw [hsame _ hq, hchar q (by omega), ih (by omega)]
    exact (hfree (d - 1) (by omega) '.' (hdots (d - 1) (by omega))).2 rfl
  refine ⟨haystack, ⟨1 + d, hagain, ?_, fun c hc => ?_⟩, ?_⟩
  · rintro q hq c hc
    obtain ⟨q, rfl⟩ : ∃ r, q = r + 1 := ⟨d - 1, by omega⟩
    rw [hchar q (by omega)] at hc
    exact hfree q (by omega) c hc
  · rw [getElem?_eq_none (by omega)] at hc
    cases hc
  · rw [← Bool.not_eq_true, containsWord_iff hne]
    rintro ⟨p, hcounted, hp⟩
    cases hcounted with
    | first h =>
      obtain rfl := h.unique hfirst
      exact (hp.before 0 rfl '.' rfl).2 rfl
    | next h hnext =>
      obtain rfl := h.unique hfirst
      have hle := hnext.at.le_length hne
      have := hnext.le
      omega

/-- The search answers whether the name occurs as a whole word wherever one of its whole words begins within no other occurrence, and
in every text exactly where the name begins again within itself only after an identifier character or a dot. -/
theorem containsWord_spec (needle : List Char) (continues : Char → Bool) (hne : needle ≠ []) :
    (∀ haystack, ((∃ p, Whole haystack needle continues p) →
        ∃ p, Whole haystack needle continues p ∧ ∀ q, Occurs.At needle haystack q → q < p → q + needle.length ≤ p) →
      (containsWord haystack needle continues = true ↔ ∃ p, Whole haystack needle continues p)) ∧
    ((∀ haystack, containsWord haystack needle continues = true ↔ ∃ p, Whole haystack needle continues p) ↔
      NoneWithin needle continues) := by
  have hsound : ∀ {haystack}, containsWord haystack needle continues = true → ∃ p, Whole haystack needle continues p := by
    intro haystack h
    obtain ⟨p, -, hp⟩ := (containsWord_iff hne).1 h
    exact ⟨p, hp⟩
  refine ⟨fun haystack h => ⟨hsound, fun hwhole => ?_⟩, fun h d hd hlt hagain hfree => ?_, fun h haystack => ⟨hsound, ?_⟩⟩
  · obtain ⟨p, hp, hclear⟩ := h hwhole
    exact containsWord_of_whole hne hp hclear
  · obtain ⟨haystack, hwhole, hmissed⟩ := exists_missed hd hlt hagain hfree
    rw [(h haystack).2 hwhole] at hmissed
    cases hmissed
  · rintro ⟨p, hp⟩
    exact containsWord_of_whole hne hp fun q hq hlt => h.clear hp hq hlt

end

/-! ## A name that runs into itself -/

namespace Overlap

def continues : Char → Bool := isRegularIdentifierContinue Char.isAlphanum

/-- The first occurrence of the name is the end of a longer one, and the whole word begins within it. -/
def haystack : List Char := "xa a a".toList

def needle : List Char := "a a".toList

theorem whole : Whole haystack needle continues 3 where
  occurs := by
    show needle <+: haystack.drop 3
    decide
  before := by
    rintro q hq c hc
    obtain rfl : q = 2 := by omega
    cases hc
    decide
  after := fun c hc => nomatch hc

theorem containsWord_overlap : ¬ (containsWord haystack needle continues = true ↔ ∃ p, Whole haystack needle continues p) := by
  intro h
  exact absurd (h.2 ⟨3, whole⟩) (by decide)

/-- A name that begins again within itself only after a dot. -/
theorem containsWord_spec_dotted : NoneWithin "a.a".toList continues ∧ (containsWord "a.a.a a.a".toList "a.a".toList continues = true ↔
      ∃ p, Whole "a.a.a a.a".toList "a.a".toList continues p) := by
  have hdotted : NoneWithin "a.a".toList continues := by
    intro d hd hlt hagain hfree
    have hlt : d < 3 := hlt
    obtain rfl | rfl : d = 1 ∨ d = 2 := by omega
    · exact absurd hagain (by decide)
    · exact (hfree 1 rfl '.' rfl).2 rfl
  exact ⟨hdotted, (containsWord_spec "a.a".toList continues (by decide)).2.2 hdotted "a.a.a a.a".toList⟩

end Overlap

end Pbps.Modules
