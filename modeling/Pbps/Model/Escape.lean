/-
Text that came from a file, shown in a sentence (`escape.rs`): a character that would end the line, hide text or move it is
spelled out, and the backslash is doubled. Texts that are shown alike are one text.
-/
import Pbps.Model.Text
import Mathlib.Data.Bool.AllAny
import Mathlib.Data.List.Basic

namespace Pbps.Escape

open List

/-! ## Codes of which none begins another -/

section PrefixCode

variable {α β : Type} {code : α → List β}

theorem flatMap_injective (hne : ∀ a, code a ≠ []) (hcode : ∀ a b x y, code a ++ x = code b ++ y → a = b) :
    ∀ {s t : List α}, s.flatMap code = t.flatMap code → s = t
  | [], [], _ => rfl
  | [], b :: t, h => by
    rw [flatMap_nil, flatMap_cons, eq_comm, append_eq_nil_iff] at h
    exact absurd h.1 (hne b)
  | a :: s, [], h => by
    rw [flatMap_nil, flatMap_cons, append_eq_nil_iff] at h
    exact absurd h.1 (hne a)
  | a :: s, b :: t, h => by
    rw [flatMap_cons, flatMap_cons] at h
    obtain rfl := hcode a b _ _ h
    rw [flatMap_injective hne hcode (append_cancel_left h)]

theorem append_cons_inj {mark : β} : ∀ {s t x y : List β}, mark ∉ s → mark ∉ t → s ++ mark :: x = t ++ mark :: y → s = t
  | [], [], _, _, _, _, _ => rfl
  | [], b :: t, _, _, _, ht, h => by
    rw [nil_append, cons_append, cons.injEq] at h
    exact absurd (h.1 ▸ mem_cons_self) ht
  | a :: s, [], _, _, hs, _, h => by
    rw [nil_append, cons_append, cons.injEq] at h
    exact absurd (h.1 ▸ mem_cons_self) hs
  | a :: s, b :: t, _, _, hs, ht, h => by
    rw [cons_append, cons_append, cons.injEq] at h
    rw [mem_cons, not_or] at hs ht
    rw [h.1, append_cons_inj hs.2 ht.2 h.2]

end PrefixCode

/-! ## Hexadecimal numbers -/

def HEX : List Char := "0123456789abcdef".toList

theorem mem_hex : ∀ {n : Nat} {c : Char}, c ∈ Nat.toDigits 16 n → c ∈ HEX := by
  intro n
  induction n using Nat.strongRecOn with
  | ind n ih =>
    intro c hc
    have hdigit : ∀ d < 16, d.digitChar ∈ HEX := by decide
    rw [Nat.toDigits_eq_if (by decide)] at hc
    split at hc
    · next hn =>
      rw [mem_singleton] at hc
      exact hc ▸ hdigit n hn
    · next hn =>
      rw [mem_append, mem_singleton] at hc
      rcases hc with hc | rfl
      · exact ih (n / 16) (by omega) hc
      · exact hdigit (n % 16) (by omega)

theorem toDigits_injective : ∀ {n m : Nat}, Nat.toDigits 16 n = Nat.toDigits 16 m → n = m := by
  have hdigit : ∀ a < 16, ∀ b < 16, a.digitChar = b.digitChar → a = b := by decide
  intro n
  induction n using Nat.strongRecOn with
  | ind n ih =>
    intro m h
    rw [Nat.toDigits_eq_if (by decide), Nat.toDigits_eq_if (n := m) (by decide)] at h
    split at h <;> split at h
    · next hn hm => exact hdigit n hn m hm (singleton_inj.1 h)
    · exact absurd (append_eq_singleton_iff.1 h.symm) (by simp [Nat.toDigits_ne_nil])
    · exact absurd (append_eq_singleton_iff.1 h) (by simp [Nat.toDigits_ne_nil])
    · next hn hm =>
      obtain ⟨hhigh, hlow⟩ := append_inj' h rfl
      have hdiv := ih (n / 16) (by omega) hhigh
      have hmod := hdigit (n % 16) (by omega) (m % 16) (by omega) (singleton_inj.1 hlow)
      omega

/-! ## Characters -/

/-- `char::is_control`: the general category `Cc`. -/
def isControl (c : Char) : Bool := c.toNat < 0x20 || (0x7F ≤ c.toNat && c.toNat ≤ 0x9F)

/-- The characters besides controls that show nothing of their own, or turn what is around them: first and last. -/
def HIDDEN : List (Nat × Nat) :=
  [(0xAD, 0xAD), (0x34F, 0x34F), (0x61C, 0x61C), (0x115F, 0x1160), (0x17B4, 0x17B5), (0x180E, 0x180E), (0x200B, 0x200F),
    (0x2028, 0x202E), (0x2060, 0x206F), (0x3164, 0x3164), (0xFEFF, 0xFEFF), (0xFFA0, 0xFFA0), (0xFFF0, 0xFFF8),
    (0x1BCA0, 0x1BCA3), (0x1D173, 0x1D17A), (0xE0000, 0xE00FF), (0xE01F0, 0xE0FFF)]

def hidesOrMoves (c : Char) : Bool := isControl c || HIDDEN.any fun r => r.1 ≤ c.toNat && c.toNat ≤ r.2

/-- `write_inert`, of one character. -/
def inert (c : Char) : List Char :=
  if c = '\n' then ['\\', 'n']
  else if c = '\r' then ['\\', 'r']
  else if c = '\t' then ['\\', 't']
  else if c = '\\' then ['\\', '\\']
  else if hidesOrMoves c then '\\' :: 'u' :: '{' :: (Nat.toDigits 16 c.toNat ++ ['}'])
  else [c]

/-- `Escaped`. -/
def escaped (text : String) : String := String.ofList (text.toList.flatMap inert)

/-! ## What hides or moves text

The line and paragraph separators, and what Unicode calls default ignorable but for the variation selectors, which follow a
character that is drawn. -/

def SEPARATORS : List (Nat × Nat) := [(0x2028, 0x2029)]

def DEFAULT_IGNORABLE : List (Nat × Nat) :=
  [(0xAD, 0xAD), (0x34F, 0x34F), (0x61C, 0x61C), (0x115F, 0x1160), (0x17B4, 0x17B5), (0x180B, 0x180F), (0x200B, 0x200F),
    (0x202A, 0x202E), (0x2060, 0x206F), (0x3164, 0x3164), (0xFE00, 0xFE0F), (0xFEFF, 0xFEFF), (0xFFA0, 0xFFA0),
    (0xFFF0, 0xFFF8), (0x1BCA0, 0x1BCA3), (0x1D173, 0x1D17A), (0xE0000, 0xE0FFF)]

def VARIATION_SELECTORS : List (Nat × Nat) := [(0x180B, 0x180D), (0x180F, 0x180F), (0xFE00, 0xFE0F), (0xE0100, 0xE01EF)]

def Within (ranges : List (Nat × Nat)) (c : Char) : Prop := ∃ r ∈ ranges, r.1 ≤ c.toNat ∧ c.toNat ≤ r.2

/-- A character that is not seen, or that moves what is. -/
def HidesOrMoves (c : Char) : Prop :=
  Within SEPARATORS c ∨ (Within DEFAULT_IGNORABLE c ∧ ¬ Within VARIATION_SELECTORS c)

theorem hidesOrMoves_iff (c : Char) : hidesOrMoves c = true ↔ isControl c = true ∨ HidesOrMoves c := by
  have hhidden : (HIDDEN.any fun r => r.1 ≤ c.toNat && c.toNat ≤ r.2) = true ↔ HidesOrMoves c := by
    simp only [HidesOrMoves, Within, HIDDEN, SEPARATORS, DEFAULT_IGNORABLE, VARIATION_SELECTORS, any_eq_true,
      Bool.and_eq_true, decide_eq_true_eq, exists_mem_cons_iff, not_mem_nil, false_and, exists_false, or_false]
    omega
  rw [hidesOrMoves, Bool.or_eq_true, hhidden]

/-! ## What is shown -/

def NAMED : List (Char × Char) := [('\n', 'n'), ('\r', 'r'), ('\t', 't'), ('\\', '\\')]

/-- How a character is shown: by a letter, by its number or as it is. -/
inductive Shows (c : Char) : List Char → Prop where
  | named (d : Char) (h : (c, d) ∈ NAMED) : Shows c ['\\', d]
  | numbered : Shows c ('\\' :: 'u' :: '{' :: (Nat.toDigits 16 c.toNat ++ ['}']))
  | plain (hc : c ≠ '\\') (h : hidesOrMoves c = false) : Shows c [c]

theorem shows_inert (c : Char) : Shows c (inert c) := by
  unfold inert
  split_ifs with hn hr ht hb hh
  · exact .named 'n' (by rw [hn]; decide)
  · exact .named 'r' (by rw [hr]; decide)
  · exact .named 't' (by rw [ht]; decide)
  · exact .named '\\' (by rw [hb]; decide)
  · exact .numbered
  · exact .plain hb (by simpa using hh)

theorem Shows.ne_nil {c : Char} {s : List Char} (h : Shows c s) : s ≠ [] := by
  cases h <;> exact cons_ne_nil _ _

theorem Shows.unique {a b : Char} {s t x y : List Char} (ha : Shows a s) (hb : Shows b t) (h : s ++ x = t ++ y) : a = b := by
  have hnames : ∀ p ∈ NAMED, ∀ q ∈ NAMED, p.2 = q.2 → p.1 = q.1 := by decide
  have hletter : ∀ p ∈ NAMED, p.2 ≠ 'u' := by decide
  have hclose : ∀ n, '}' ∉ Nat.toDigits 16 n := fun n hm => absurd (mem_hex hm) (by decide)
  cases ha with
  | named d hd =>
    cases hb with
    | named e he =>
      simp only [cons_append, nil_append, cons.injEq, true_and] at h
      exact hnames _ hd _ he h.1
    | numbered =>
      simp only [cons_append, nil_append, cons.injEq, true_and] at h
      exact absurd h.1 (hletter _ hd)
    | plain hb _ =>
      simp only [cons_append, nil_append, cons.injEq] at h
      exact absurd h.1.symm hb
  | numbered =>
    cases hb with
    | named e he =>
      simp only [cons_append, nil_append, cons.injEq, true_and] at h
      exact absurd h.1.symm (hletter _ he)
    | numbered =>
      simp only [cons_append, append_assoc, nil_append, cons.injEq, true_and] at h
      have hnumber := toDigits_injective (append_cons_inj (hclose _) (hclose _) h)
      rw [← Char.ofNat_toNat a, hnumber, Char.ofNat_toNat]
    | plain hb _ =>
      simp only [cons_append, nil_append, cons.injEq] at h
      exact absurd h.1.symm hb
  | plain ha _ =>
    cases hb with
    | named e he =>
      simp only [cons_append, nil_append, cons.injEq] at h
      exact absurd h.1 ha
    | numbered =>
      simp only [cons_append, nil_append, cons.injEq] at h
      exact absurd h.1 ha
    | plain _ _ =>
      simp only [cons_append, nil_append, cons.injEq] at h
      exact h.1

theorem Shows.drawn {c d : Char} {s : List Char} (h : Shows c s) (hd : d ∈ s) : hidesOrMoves d = false := by
  -- `∀ d ∈ l` would be decided over all the characters there are
  have hletters : ∀ p ∈ NAMED, (['\\', p.2].all fun d => hidesOrMoves d = false) = true := by decide
  have hmarks : ∀ d ∈ ['\\', 'u', '{', '}'] ++ HEX, hidesOrMoves d = false := all_iff_forall_prop.1 (by decide)
  cases h with
  | named e he => exact all_iff_forall_prop.1 (hletters _ he) d hd
  | numbered =>
    refine hmarks d ?_
    simp only [mem_cons, mem_append, not_mem_nil, or_false] at hd ⊢
    rcases hd with rfl | rfl | rfl | hd | rfl
    · exact .inl (.inl rfl)
    · exact .inl (.inr (.inl rfl))
    · exact .inl (.inr (.inr (.inl rfl)))
    · exact .inr (mem_hex hd)
    · exact .inl (.inr (.inr (.inr rfl)))
  | plain _ h =>
    rw [mem_singleton] at hd
    exact hd ▸ h

theorem escaped_injective {a b : String} (h : escaped a = escaped b) : a = b := by
  have hlists : a.toList.flatMap inert = b.toList.flatMap inert := String.ofList_injective h
  refine String.toList_injective (flatMap_injective (fun c => (shows_inert c).ne_nil) ?_ hlists)
  intro c d x y hcd
  exact (shows_inert c).unique (shows_inert d) hcd

theorem escaped_drawn {text : String} {c : Char} (hc : c ∈ (escaped text).toList) : hidesOrMoves c = false := by
  rw [escaped, String.toList_ofList, mem_flatMap] at hc
  obtain ⟨d, -, hc⟩ := hc
  exact (shows_inert d).drawn hc

/-- Escaped text tells what it was, and holds no control and nothing that hides or moves other text. -/
theorem escaped_unambiguous_inert : (∀ a b : String, escaped a = escaped b → a = b) ∧
      ∀ (text : String) (c : Char), c ∈ (escaped text).toList → isControl c = false ∧ ¬ HidesOrMoves c := by
  refine ⟨fun a b => escaped_injective, ?_⟩
  intro text c hc
  have hnot := mt (hidesOrMoves_iff c).2 (by rw [escaped_drawn hc]; exact Bool.false_ne_true)
  rw [not_or, Bool.not_eq_true] at hnot
  exact hnot

end Pbps.Escape
