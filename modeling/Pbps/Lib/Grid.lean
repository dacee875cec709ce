/-
Numbers on a grid: the decimals of one scale whose coefficient is in a range, and the numbers whose binary mantissa is
bounded. When every number of one set is in another is a matter of the two ends.
-/
import Mathlib.Tactic

namespace Grid

/-- The numbers of a scale: a coefficient in a range, over a power of ten. -/
def Decimals (lo hi scale : ℤ) : Set ℚ := {q | ∃ c : ℤ, (lo ≤ c ∧ c ≤ hi) ∧ q = c * 10 ^ (-scale)}

/-- The numbers with a mantissa no larger than a bound, times any power of two. -/
def Binary (bound : ℤ) : Set ℚ := {q | ∃ m e : ℤ, |m| ≤ bound ∧ q = m * 2 ^ e}

/-! ## Two scales -/

theorem coefficient_eq_iff {s s' : ℤ} {d : ℕ} (hd : s' = s + d) {c c' : ℤ} :
    (c : ℚ) * 10 ^ (-s) = c' * 10 ^ (-s') ↔ c * 10 ^ d = c' := by
  have hpow : (10 : ℚ) ^ (-s) = 10 ^ d * 10 ^ (-s') := by
    rw [← zpow_natCast, ← zpow_add₀ (by norm_num)]
    congr 1
    omega
  have hne : (10 : ℚ) ^ (-s') ≠ 0 := zpow_ne_zero _ (by norm_num)
  rw [hpow, ← mul_assoc, mul_left_inj' hne]
  norm_cast

/-- The decimals of a scale are among those of another when it is no coarser and reaches past both ends. -/
theorem decimals_subset_iff {lo hi s lo' hi' s' : ℤ} (hlo : lo ≤ 1) (hhi : 1 ≤ hi) :
    Decimals lo hi s ⊆ Decimals lo' hi' s' ↔ ∃ d : ℕ, s' = s + d ∧ lo' ≤ lo * 10 ^ d ∧ hi * 10 ^ d ≤ hi' := by
  constructor
  · intro hsub
    -- The number of coefficient one is on the other grid, so that one is no coarser.
    have hscale : s ≤ s' := by
      obtain ⟨c, -, hc⟩ := hsub ⟨1, ⟨hlo, hhi⟩, rfl⟩
      by_contra hlt
      obtain ⟨d, hd⟩ : ∃ d : ℕ, s = s' + d := ⟨(s - s').toNat, by omega⟩
      have hone := (coefficient_eq_iff hd).1 hc.symm
      have hunit : IsUnit ((10 : ℤ) ^ d) := IsUnit.of_mul_eq_one c (by rw [mul_comm]; exact hone)
      rw [isUnit_pow_iff (by omega), Int.isUnit_iff] at hunit
      omega
    obtain ⟨d, hd⟩ : ∃ d : ℕ, s' = s + d := ⟨(s' - s).toNat, by omega⟩
    refine ⟨d, hd, ?_, ?_⟩
    · obtain ⟨c, hc, heq⟩ := hsub ⟨lo, ⟨le_rfl, by omega⟩, rfl⟩
      rw [(coefficient_eq_iff hd).1 heq]
      exact hc.1
    · obtain ⟨c, hc, heq⟩ := hsub ⟨hi, ⟨by omega, le_rfl⟩, rfl⟩
      rw [(coefficient_eq_iff hd).1 heq]
      exact hc.2
  · rintro ⟨d, hd, hlow, hhigh⟩ q ⟨c, hc, rfl⟩
    have hpos : (0 : ℤ) ≤ 10 ^ d := by positivity
    refine ⟨c * 10 ^ d, ⟨?_, ?_⟩, (coefficient_eq_iff hd).2 rfl⟩
    · exact hlow.trans (mul_le_mul_of_nonneg_right hc.1 hpos)
    · exact (mul_le_mul_of_nonneg_right hc.2 hpos).trans hhigh

/-! ## Decimals and binary mantissas -/

theorem odd_dvd_of_mul_eq {k x m a b : ℤ} (hk : Odd k) (h : ((k * x : ℤ) : ℚ) * 2 ^ a = m * 2 ^ b) : k ∣ m := by
  obtain ⟨i, j, hij⟩ : ∃ i j : ℕ, a - b = i - j := ⟨(a - b).toNat, (b - a).toNat, by omega⟩
  have hpow : (2 : ℚ) ^ b * 2 ^ i = 2 ^ a * 2 ^ j := by
    rw [← zpow_natCast, ← zpow_natCast, ← zpow_add₀ (by norm_num), ← zpow_add₀ (by norm_num)]
    congr 1
    omega
  have hne : (2 : ℚ) ^ b ≠ 0 := zpow_ne_zero _ (by norm_num)
  have hint : k * x * 2 ^ i = m * 2 ^ j := by
    have hq : ((k * x : ℤ) : ℚ) * 2 ^ i = m * 2 ^ j := by
      apply mul_right_cancel₀ hne
      rw [mul_assoc, mul_comm (2 ^ i), hpow, ← mul_assoc, h]
      ring
    exact_mod_cast hq
  have hcop : IsCoprime k (2 ^ j) := by
    obtain ⟨r, rfl⟩ := hk
    exact IsCoprime.pow_right ⟨1, -r, by ring⟩
  exact hcop.dvd_of_dvd_mul_right (Dvd.intro (x * 2 ^ i) (by rw [← hint, mul_assoc]))

theorem coefficient_eq_five (c : ℤ) (n : ℕ) : (c : ℚ) * 10 ^ n = ((c * 5 ^ n : ℤ) : ℚ) * 2 ^ n := by
  push_cast
  rw [mul_assoc, ← mul_pow]
  norm_num

/-- A grid whose upper end is odd is within the mantissas only when it has no fractions, and then that end takes as much
mantissa as its multiple by a power of five. -/
theorem of_decimals_subset_binary {lo hi s b : ℤ} (hlo : lo ≤ 1) (hhi : 1 ≤ hi) (hodd : Odd hi)
    (h : Decimals lo hi s ⊆ Binary b) : s ≤ 0 ∧ hi * 5 ^ (-s).toNat ≤ b := by
  have hfive : ∀ n : ℕ, Odd ((5 : ℤ) ^ n) := fun n => Odd.pow (by decide)
  have hscale : s ≤ 0 := by
    by_contra hpos
    obtain ⟨n, rfl⟩ : ∃ n : ℕ, s = n + 1 := ⟨(s - 1).toNat, by omega⟩
    obtain ⟨m, e, -, hm⟩ := h ⟨1, ⟨hlo, hhi⟩, rfl⟩
    -- Cleared of its denominator, the mantissa times a power of five is one.
    have hten : (10 : ℚ) ^ (-((n : ℤ) + 1)) * 10 ^ (n + 1) = 1 := by
      rw [← zpow_natCast, ← zpow_add₀ (by norm_num)]
      simp
    have hone : ((5 ^ (n + 1) * m : ℤ) : ℚ) * 2 ^ (e + ((n + 1 : ℕ) : ℤ)) = (1 : ℤ) * 2 ^ (0 : ℤ) := by
      have hmul : ((1 : ℤ) : ℚ) * 10 ^ (-((n : ℤ) + 1)) * 10 ^ (n + 1) = m * 2 ^ e * 10 ^ (n + 1) := by rw [hm]
      rw [mul_assoc, hten, mul_right_comm, coefficient_eq_five] at hmul
      rw [zpow_zero, hmul, zpow_add₀ (by norm_num), zpow_natCast]
      push_cast
      ring
    have hdvd := odd_dvd_of_mul_eq (hfive (n + 1)) hone
    have hunit := isUnit_of_dvd_one hdvd
    rw [isUnit_pow_iff (by omega), Int.isUnit_iff] at hunit
    omega
  refine ⟨hscale, ?_⟩
  obtain ⟨n, rfl⟩ : ∃ n : ℕ, s = -(n : ℤ) := ⟨(-s).toNat, by omega⟩
  obtain ⟨m, e, hm, heq⟩ := h ⟨hi, ⟨by omega, le_rfl⟩, rfl⟩
  rw [neg_neg, zpow_natCast, coefficient_eq_five] at heq
  have hne : m ≠ 0 := by
    rintro rfl
    rw [Int.cast_zero, zero_mul, mul_eq_zero, Int.cast_eq_zero] at heq
    rcases heq with heq | heq
    · exact absurd heq (by positivity)
    · exact absurd heq (by positivity)
  rw [← mul_one (hi * 5 ^ n), ← zpow_natCast] at heq
  have hdvd := odd_dvd_of_mul_eq (hodd.mul (hfive n)) heq
  rw [neg_neg, Int.toNat_natCast]
  exact (Int.le_of_dvd (abs_pos.2 hne) ((dvd_abs _ _).2 hdvd)).trans hm

/-- A grid without fractions is within the mantissas when both ends are, as multiples by a power of five. -/
theorem decimals_subset_binary {lo hi b : ℤ} {n : ℕ} (hlo : -b ≤ lo * 5 ^ n) (hhi : hi * 5 ^ n ≤ b) :
    Decimals lo hi (-n) ⊆ Binary b := by
  rintro q ⟨c, hc, rfl⟩
  rw [neg_neg, zpow_natCast, coefficient_eq_five, ← zpow_natCast]
  have hpos : (0 : ℤ) ≤ 5 ^ n := by positivity
  refine ⟨c * 5 ^ n, n, abs_le.2 ⟨?_, ?_⟩, rfl⟩
  · exact hlo.trans (mul_le_mul_of_nonneg_right hc.1 hpos)
  · exact (mul_le_mul_of_nonneg_right hc.2 hpos).trans hhi

/-- The mantissas of one bound are among those of another when it is no smaller. -/
theorem binary_mono {b b' : ℤ} (h : b ≤ b') : Binary b ⊆ Binary b' := by
  rintro q ⟨m, e, hm, rfl⟩
  exact ⟨m, e, hm.trans h, rfl⟩

end Grid
