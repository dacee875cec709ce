/-
Decimal digits: the number that some digits spell, the digits of a number, bare or to a width, and the numbers that
`str::parse` reads.
-/
import Mathlib.Tactic
import Pbps.Types.Parse

namespace Pbps

open List
open Bool (and_eq_true)

/-! ## The number of some digits -/

variable {c : Char} {ds : List Char} {i : Int}

theorem isAsciiDigit_iff : isAsciiDigit c = true ↔ 48 ≤ c.toNat ∧ c.toNat ≤ 57 := by
  rw [isAsciiDigit, and_eq_true, decide_eq_true_eq, decide_eq_true_eq]
  exact Iff.rfl

theorem digitsValue_foldl (ds : List Char) (n : ℕ) :
    ds.foldl (fun n d => 10 * n + (d.toNat - 0x30)) n = n * 10 ^ ds.length + digitsValue ds := by
  unfold digitsValue
  induction ds generalizing n with
  | nil => simp
  | cons d ds ih =>
    rw [foldl_cons, foldl_cons, ih, ih (10 * 0 + _), length_cons, pow_succ]
    ring

theorem digitsValue_cons (d : Char) (ds : List Char) :
    digitsValue (d :: ds) = (d.toNat - 0x30) * 10 ^ ds.length + digitsValue ds := by
  rw [digitsValue, foldl_cons, digitsValue_foldl]
  simp

theorem digitsValue_dropWhile (ds : List Char) : digitsValue (ds.dropWhile (· = '0')) = digitsValue ds := by
  induction ds with
  | nil => rfl
  | cons d ds ih =>
    by_cases h : d = '0'
    · rw [dropWhile_cons_of_pos (by simpa using h), ih, digitsValue_cons, h]
      simp
    · rw [dropWhile_cons_of_neg (by simpa using h)]

theorem digitsValue_lt (h : ds.all isAsciiDigit) : digitsValue ds < 10 ^ ds.length := by
  induction ds with
  | nil => simp [digitsValue]
  | cons d ds ih =>
    rw [all_cons, and_eq_true] at h
    have hd := isAsciiDigit_iff.1 h.1
    have := ih h.2
    have hle : d.toNat - 0x30 ≤ 9 := by omega
    rw [digitsValue_cons, length_cons, pow_succ]
    nlinarith

theorem eq_of_digitsValue : ∀ {ds es : List Char}, ds.all isAsciiDigit → es.all isAsciiDigit → ds.length = es.length →
    digitsValue ds = digitsValue es → ds = es
  | [], [], _, _, _, _ => rfl
  | d :: ds, e :: es, hds, hes, hlen, h => by
    rw [all_cons, and_eq_true] at hds hes
    have hlen : ds.length = es.length := Nat.succ.inj hlen
    have hd := digitsValue_lt hds.2
    have he := digitsValue_lt hes.2
    rw [digitsValue_cons, digitsValue_cons, hlen] at h
    rw [hlen] at hd
    have hhead : d.toNat - 0x30 = e.toNat - 0x30 := by
      have hdiv := congrArg (· / 10 ^ es.length) h
      simpa only [Nat.mul_comm _ (10 ^ es.length), Nat.mul_add_div (Nat.pow_pos (by decide : 0 < 10)), Nat.div_eq_of_lt hd,
        Nat.div_eq_of_lt he, Nat.add_zero] using hdiv
    have hchar : d = e := by
      have h1 := isAsciiDigit_iff.1 hds.1
      have h2 := isAsciiDigit_iff.1 hes.1
      exact Char.toNat_inj.1 (by omega)
    rw [hhead, Nat.add_left_cancel_iff] at h
    rw [hchar, eq_of_digitsValue hds.2 hes.2 hlen h]

/-! ## The digits of a number -/

theorem isAsciiDigit_of_mem_toDigits {n : Nat} (hc : c ∈ Nat.toDigits 10 n) : isAsciiDigit c = true := by
  have h := Nat.isDigit_of_mem_toDigits (by decide) (by decide) hc
  rw [Char.isDigit, and_eq_true, decide_eq_true_eq, decide_eq_true_eq] at h
  rw [isAsciiDigit, and_eq_true, decide_eq_true_eq, decide_eq_true_eq]
  exact h

theorem all_toDigits (n : Nat) : (Nat.toDigits 10 n).all isAsciiDigit :=
  all_eq_true.2 fun _ => isAsciiDigit_of_mem_toDigits

theorem digitsValue_toDigits (n : Nat) : digitsValue (Nat.toDigits 10 n) = n := Nat.ofDigitChars_ten_toDigits

theorem toDigits_digitsValue (hne : ds ≠ []) (hds : ds.all isAsciiDigit) (hhead : ds = ['0'] ∨ ds.head? ≠ some '0') :
    Nat.toDigits 10 (digitsValue ds) = ds := by
  rcases hhead with rfl | hhead
  · decide
  · refine eq_of_digitsValue (all_toDigits _) hds ?_ (digitsValue_toDigits _)
    have hlen : 0 < ds.length := length_pos_iff.2 hne
    refine le_antisymm ((Nat.length_toDigits_le_iff (by decide) hlen).2 (digitsValue_lt hds)) ?_
    obtain ⟨d, ds, rfl⟩ := exists_cons_of_ne_nil hne
    rw [all_cons, and_eq_true] at hds
    have hd := isAsciiDigit_iff.1 hds.1
    have hzero : d.toNat ≠ 48 := by
      intro h
      apply hhead
      rw [List.head?_cons, Option.some.injEq]
      exact Char.toNat_inj.1 h
    rw [length_cons]
    by_contra hshort
    have hshort : (Nat.toDigits 10 (digitsValue (d :: ds))).length ≤ ds.length := by omega
    have hpos : 0 < ds.length := Nat.lt_of_lt_of_le Nat.length_toDigits_pos hshort
    have hlt := (Nat.length_toDigits_le_iff (by decide) hpos).1 hshort
    rw [digitsValue_cons] at hlt
    have hone : 1 * 10 ^ ds.length ≤ (d.toNat - 0x30) * 10 ^ ds.length := Nat.mul_le_mul_right _ (by omega)
    omega

/-- `{:0width$}` of a number. -/
def padded (width : Nat) (n : Int) : List Char :=
  if n < 0 then '-' :: List.leftpad (width - 1) '0' (Nat.toDigits 10 n.natAbs)
  else List.leftpad width '0' (Nat.toDigits 10 n.natAbs)

theorem padded_spec {width : Nat} (hwidth : 0 < width) {n : Int} (hn : 0 ≤ n ∧ n < 10 ^ width) :
    (padded width n).length = width ∧ (padded width n).all isAsciiDigit ∧ (digitsValue (padded width n) : Int) = n := by
  obtain ⟨k, rfl⟩ := Int.eq_ofNat_of_zero_le hn.1
  have hk : k < 10 ^ width := by exact_mod_cast hn.2
  have hlen := (Nat.length_toDigits_le_iff (by decide) hwidth).2 hk
  have hpad : padded width k = List.leftpad width '0' (Nat.toDigits 10 k) := if_neg (by omega)
  rw [hpad]
  refine ⟨?_, ?_, ?_⟩
  · rw [List.leftpad, length_append, length_replicate]
    omega
  · rw [List.leftpad, all_append, all_toDigits, Bool.and_true]
    simp [isAsciiDigit]
  · rw [Nat.cast_inj]
    show Nat.ofDigitChars 10 (List.replicate _ '0' ++ Nat.toDigits 10 k) 0 = k
    rw [Nat.ofDigitChars_append, Nat.ofDigitChars_replicate_zero, Nat.mul_zero, Nat.ofDigitChars_ten_toDigits]

theorem padded_digitsValue {width : Nat} (hwidth : 0 < width) (hds : ds.all isAsciiDigit) (hlen : ds.length = width) :
    padded width (digitsValue ds) = ds := by
  have hlt : (digitsValue ds : Int) < 10 ^ width := by
    rw [← hlen]
    exact_mod_cast digitsValue_lt hds
  obtain ⟨h1, h2, h3⟩ := padded_spec hwidth ⟨Int.natCast_nonneg _, hlt⟩
  exact eq_of_digitsValue h2 hds (h1.trans hlen.symm) (by exact_mod_cast h3)

theorem parseI64_digits (hne : ds ≠ []) (hd : ∀ c ∈ ds, isAsciiDigit c = true) :
    parseI64 ds = (if 2 ^ 63 ≤ (digitsValue ds : Int) then none else some (digitsValue ds : Int)) ∧
      parseI64 ('-' :: ds) = (if (digitsValue ds : Int) ≤ 2 ^ 63 then some (-digitsValue ds : Int) else none) := by
  have hall : ds.all isAsciiDigit = true := all_eq_true.2 hd
  have hempty : ds.isEmpty = false := by simpa using hne
  constructor
  · unfold parseI64
    split
    next sign digits hsign =>
      obtain ⟨rfl, rfl⟩ : false = sign ∧ ds = digits := by
        split at hsign
        next => exact absurd (hd '-' mem_cons_self) (by decide)
        next => exact absurd (hd '+' mem_cons_self) (by decide)
        next => exact Prod.mk.inj hsign
      rw [hall, hempty]
      by_cases hv : (2 : Int) ^ 63 ≤ digitsValue ds
      · rw [if_pos (by simp; omega), if_pos hv]
      · rw [if_neg (by simp; omega), if_neg hv]
        rfl
  · show (if (ds.isEmpty || !ds.all isAsciiDigit || _ || _) = true then none else some _) = _
    rw [hall, hempty]
    by_cases hv : (digitsValue ds : Int) ≤ 2 ^ 63
    · rw [if_neg (by simp; omega), if_pos hv]
      rfl
    · rw [if_pos (by simp; omega), if_neg hv]

theorem toList_toString_ofNat (n : Nat) : (toString (n : Int)).toList = Nat.toDigits 10 n := Nat.toList_repr

theorem toList_toString_negSucc (n : Nat) : (toString (Int.negSucc n)).toList = '-' :: Nat.toDigits 10 (n + 1) := by
  show ("-" ++ (n + 1).repr).toList = _
  rw [String.toList_append, Nat.toList_repr]
  rfl

theorem parseI64_toString (hlo : -2 ^ 63 ≤ i) (hhi : i < 2 ^ 63) : parseI64 (toString i).toList = some i := by
  cases i with
  | ofNat n =>
    have hdigit : ∀ c ∈ Nat.toDigits 10 n, isAsciiDigit c = true := fun c hc => isAsciiDigit_of_mem_toDigits hc
    have h := (parseI64_digits Nat.toDigits_ne_nil hdigit).1
    rw [digitsValue_toDigits, if_neg (by simpa using hhi)] at h
    show parseI64 (toString (n : Int)).toList = some (n : Int)
    rw [toList_toString_ofNat, h]
  | negSucc n =>
    have hdigit : ∀ c ∈ Nat.toDigits 10 (n + 1), isAsciiDigit c = true := fun c hc => isAsciiDigit_of_mem_toDigits hc
    have h := (parseI64_digits Nat.toDigits_ne_nil hdigit).2
    rw [digitsValue_toDigits, if_pos (by omega)] at h
    rw [toList_toString_negSucc, h]
    rfl

theorem mem_toString (hc : c ∈ (toString i).toList) : c = '-' ∨ isAsciiDigit c = true := by
  cases i with
  | ofNat n => exact .inr (isAsciiDigit_of_mem_toDigits (toList_toString_ofNat n ▸ hc))
  | negSucc n =>
    rw [toList_toString_negSucc] at hc
    rcases mem_cons.1 hc with rfl | hc
    · exact .inl rfl
    · exact .inr (isAsciiDigit_of_mem_toDigits hc)

theorem of_parseI64 {s : List Char} (h : parseI64 s = some i) :
    (-2 ^ 63 ≤ i ∧ i < 2 ^ 63) ∧ s ≠ [] ∧ ∀ c ∈ s, c = '-' ∨ c = '+' ∨ isAsciiDigit c = true := by
  unfold parseI64 at h
  split at h
  next negative digits hsd =>
  obtain ⟨hbad, h⟩ := Option.ite_none_left_eq_some.1 h
  obtain rfl := Option.some.inj h
  simp only [Bool.or_eq_true, not_or, Bool.not_eq_true, Bool.not_eq_false', List.isEmpty_eq_false_iff,
    decide_eq_false_iff_not, all_eq_true] at hbad
  obtain ⟨⟨⟨hne, hall⟩, hlo⟩, hhi⟩ := hbad
  refine ⟨⟨Int.not_lt.1 hlo, Int.not_le.1 hhi⟩, ?_⟩
  split at hsd
  next ds =>
    obtain ⟨-, rfl⟩ := Prod.mk.inj hsd
    exact ⟨cons_ne_nil _ _, forall_mem_cons.2 ⟨.inl rfl, fun c hc => .inr (.inr (hall c hc))⟩⟩
  next ds =>
    obtain ⟨-, rfl⟩ := Prod.mk.inj hsd
    exact ⟨cons_ne_nil _ _, forall_mem_cons.2 ⟨.inr (.inl rfl), fun c hc => .inr (.inr (hall c hc))⟩⟩
  next =>
    obtain ⟨-, rfl⟩ := Prod.mk.inj hsd
    exact ⟨hne, fun c hc => .inr (.inr (hall c hc))⟩

end Pbps
