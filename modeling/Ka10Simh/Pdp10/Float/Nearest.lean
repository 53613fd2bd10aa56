import Ka10Simh.Pdp10.Float.Normalize

/-!
Which results of `fnorm` are the numbers nearest to what they stand for.

* `Carried.value_eq`: the number of a rounded fraction.
* `Slips`: the negative numbers that are rounded the wrong way, as the first 27 bits of their fraction are zero.
* `nearest_iff`: the rounded result is the nearest number, but for these.
-/

namespace Ka10Simh.Pdp10.Fp

/-- A negative number that is less than half a unit nearer to zero than a power of two; it has more than 27 bits. -/
def Slips (x : ℚ) : Prop := ∃ k : ℤ, (2 ^ 27 - 1) * 2 ^ k < -x ∧ -x < (2 ^ 27 - 1 / 2) * 2 ^ k

/-- The number of a fraction that had a carry or not. -/
lemma Carried.value_eq {m₀ s₀ s : ℤ} {n : Number} (h : Carried m₀ s₀ n.m s) (hs : s = n.e) :
    n.value = m₀ * 2 ^ (s₀ - 155) := by
  rw [Number.value, ← hs]
  rcases h.eq with ⟨hm, hs₀⟩ | ⟨hm, hs₀⟩
  · rw [hm, hs₀]
  · rw [← hm, hs₀, show s₀ + 1 - 155 = s₀ - 155 + 1 by ring, zpow_add_one₀ (by norm_num)]
    push_cast
    ring

/-- A fraction of 27 bits, with one and minus one, is that of a number if its exponent is in range. -/
lemma mem_numbers {m k : ℤ} (hm : 2 ^ 26 ≤ m ∧ m ≤ 2 ^ 27 ∨ -2 ^ 27 ≤ m ∧ m ≤ -2 ^ 26) (hk : -155 ≤ k) (hk' : k < 100) :
    (m : ℚ) * 2 ^ k ∈ numbers := by
  rcases em (m = 2 ^ 27 ∨ m = -2 ^ 27) with hone | hone
  · obtain ⟨m', hm'⟩ : ∃ m', 2 * m' = m := ⟨m / 2, by omega⟩
    obtain ⟨hlow, hhigh⟩ := fraction_bounds (m := m') (by omega)
    have hval : (m : ℚ) * 2 ^ k = Number.value ⟨m', (k + 156).toNat, by omega, hlow, hhigh⟩ := by
      rw [Number.value, ← hm']
      dsimp only
      rw [Int.toNat_of_nonneg (by omega), show k + 156 - 155 = k + 1 by ring, zpow_add_one₀ (by norm_num)]
      push_cast
      ring
    rw [hval]
    exact Number.value_mem _
  · obtain ⟨hlow, hhigh⟩ := fraction_bounds (m := m) (by omega)
    have hval : (m : ℚ) * 2 ^ k = Number.value ⟨m, (k + 155).toNat, by omega, hlow, hhigh⟩ := by
      rw [Number.value]
      dsimp only
      rw [Int.toNat_of_nonneg (by omega), show k + 155 - 155 = k by ring]
    rw [hval]
    exact Number.value_mem _

section Nearest

variable {ir t : ℕ} {a b k : ℤ}

/-- The numbers that slip have a fraction less than half a unit from minus one. -/
lemma slips_iff (h : 2 ^ 60 ≤ b ∧ b < 2 ^ 61 ∨ -2 ^ 61 ≤ b ∧ b < -2 ^ 60) :
    Slips (b * 2 ^ (k - 34)) ↔ -2 ^ 61 + 2 ^ 33 < b ∧ b < -2 ^ 61 + 2 ^ 34 := by
  have hunit : (0 : ℚ) < 2 ^ (k - 34) := by positivity
  have hscale (j : ℤ) : (2 : ℚ) ^ (k + j) = 2 ^ (34 + j) * 2 ^ (k - 34) := by
    rw [← zpow_add₀ (by norm_num)]
    congr 1
    ring
  constructor
  · rintro ⟨j, hlow, hhigh⟩
    obtain ⟨d, rfl⟩ : ∃ d, j = k + d := ⟨j - k, by ring⟩
    rw [hscale, ← mul_assoc, ← neg_mul] at hlow hhigh
    have hlow' := lt_of_mul_lt_mul_right hlow hunit.le
    have hhigh' := lt_of_mul_lt_mul_right hhigh hunit.le
    have hbq : (-2 ^ 61 : ℚ) ≤ b := by
      rcases h with h | h
      · have hb : (-2 ^ 61 : ℤ) ≤ b := by omega
        exact_mod_cast hb
      · exact_mod_cast h.1
    have hd : d = 0 := by
      rcases lt_trichotomy d 0 with hneg | hzero | hpos
      · -- the number would be too near to zero
        have hpow : (2 : ℚ) ^ (34 + d) ≤ 2 ^ (33 : ℤ) := zpow_le_zpow_right₀ (by norm_num) (by omega)
        have hpos33 : (0 : ℚ) < 2 ^ (34 + d) := by positivity
        have hb : (-b : ℚ) < 2 ^ 60 := by
          norm_num at hpow
          linarith
        have hneg' : (0 : ℚ) < -b := lt_trans (by positivity) hlow'
        have hbz : -b < 2 ^ 60 ∧ 0 < -b := by exact_mod_cast And.intro hb hneg'
        omega
      · exact hzero
      · -- and here too far
        have hpow : (2 : ℚ) ^ (35 : ℤ) ≤ 2 ^ (34 + d) := zpow_le_zpow_right₀ (by norm_num) (by omega)
        norm_num at hpow
        linarith
    subst hd
    norm_num at hlow' hhigh'
    have hz : (2 ^ 61 - 2 ^ 34 : ℤ) < -b ∧ -b < 2 ^ 61 - 2 ^ 33 := by
      constructor
      · have hq : (2 ^ 61 - 2 ^ 34 : ℚ) < -b := by linarith
        exact_mod_cast hq
      · have hq : (-b : ℚ) < 2 ^ 61 - 2 ^ 33 := by linarith
        exact_mod_cast hq
    omega
  · rintro ⟨hlow, hhigh⟩
    have hlow' : (-2 ^ 61 + 2 ^ 33 : ℚ) < b := by exact_mod_cast hlow
    have hhigh' : (b : ℚ) < -2 ^ 61 + 2 ^ 34 := by exact_mod_cast hhigh
    have hk := hscale 0
    rw [add_zero] at hk
    refine ⟨k, ?_, ?_⟩
    · rw [hk, ← mul_assoc, ← neg_mul]
      refine mul_lt_mul_of_pos_right ?_ hunit
      norm_num
      linarith
    · rw [hk, ← mul_assoc, ← neg_mul]
      refine mul_lt_mul_of_pos_right ?_ hunit
      norm_num
      linarith

/-- **The rounded result is the nearest number**, but for the numbers that slip. -/
theorem nearest_iff (hir : ir &&& 0o4 ≠ 0) (h : 2 ^ 60 ≤ b ∧ b < 2 ^ 61 ∨ -2 ^ 61 ≤ b ∧ b < -2 ^ 60) (hk : -155 ≤ k)
    (hk' : k < 100) : Floating.Nearest numbers (b * 2 ^ (k - 34)) (fraction27 ir b * 2 ^ k) ↔ ¬ Slips (b * 2 ^ (k - 34)) := by
  have hunit : (0 : ℚ) < 2 ^ k := by positivity
  have hsplit := Int.mul_ediv_add_emod b (2 ^ 34)
  have hx : (b : ℚ) * 2 ^ (k - 34) = ((b / 2 ^ 34 : ℤ) + (b % 2 ^ 34 : ℤ) / 2 ^ 34) * 2 ^ k := by
    have hq : (b : ℚ) = 2 ^ 34 * (b / 2 ^ 34 : ℤ) + (b % 2 ^ 34 : ℤ) := by exact_mod_cast hsplit.symm
    have hscale : (2 : ℚ) ^ k = 2 ^ (34 : ℕ) * 2 ^ (k - 34) := by
      rw [← zpow_natCast, ← zpow_add₀ (by norm_num)]
      congr 1
      push_cast
      ring
    rw [hscale, hq]
    push_cast
    field_simp
  have hmod := Int.emod_nonneg b (by norm_num : (2 ^ 34 : ℤ) ≠ 0)
  have hmod' := Int.emod_lt_of_pos b (by norm_num : (0 : ℤ) < 2 ^ 34)
  have hm : 2 ^ 26 ≤ b / 2 ^ 34 ∧ b / 2 ^ 34 < 2 ^ 27 ∨ -2 ^ 27 ≤ b / 2 ^ 34 ∧ b / 2 ^ 34 < -2 ^ 26 := by omega
  have hlo : ((b / 2 ^ 34 : ℤ) : ℚ) * 2 ^ k ∈ numbers := mem_numbers (by omega) hk hk'
  have hhi : ((b / 2 ^ 34 : ℤ) + 1 : ℚ) * 2 ^ k ∈ numbers := by
    have hmem := mem_numbers (m := b / 2 ^ 34 + 1) (by omega) hk hk'
    push_cast at hmem
    exact hmem
  have hr0 : (0 : ℚ) ≤ (b % 2 ^ 34 : ℤ) / 2 ^ 34 := by
    have hcast : (0 : ℚ) ≤ (b % 2 ^ 34 : ℤ) := by exact_mod_cast hmod
    positivity
  have hr1 : ((b % 2 ^ 34 : ℤ) : ℚ) / 2 ^ 34 ≤ 1 := by
    rw [div_le_one (by positivity)]
    exact_mod_cast hmod'.le
  have hle : ((b / 2 ^ 34 : ℤ) : ℚ) * 2 ^ k ≤ ((b / 2 ^ 34 : ℤ) + (b % 2 ^ 34 : ℤ) / 2 ^ 34) * 2 ^ k :=
    mul_le_mul_of_nonneg_right (by linarith) hunit.le
  have hge : ((b / 2 ^ 34 : ℤ) + (b % 2 ^ 34 : ℤ) / 2 ^ 34) * 2 ^ k ≤ ((b / 2 ^ 34 : ℤ) + 1 : ℚ) * 2 ^ k :=
    mul_le_mul_of_nonneg_right (by linarith) hunit.le
  have hlt : ((b / 2 ^ 34 : ℤ) : ℚ) * 2 ^ k < ((b / 2 ^ 34 : ℤ) + 1 : ℚ) * 2 ^ k := mul_lt_mul_of_pos_right (by linarith) hunit
  rw [slips_iff h, hx]
  by_cases hup : RoundsUp ir b
  · -- rounded up, from the middle on
    have hfrac : ((fraction27 ir b : ℤ) : ℚ) = (b / 2 ^ 34 : ℤ) + 1 := by
      rw [fraction27, if_pos hup]
      push_cast
      rfl
    obtain ⟨-, hedge, hbit, -⟩ := hup
    rw [hfrac, Floating.nearest_high_iff (fun s hs ↦ numbers_gap hs hm k) hlo hhi hlt hge]
    refine iff_of_true ?_ (by omega)
    have hhalf : (2 ^ 33 : ℚ) ≤ (b % 2 ^ 34 : ℤ) := by
      have hz : (2 ^ 33 : ℤ) ≤ b % 2 ^ 34 := by omega
      exact_mod_cast hz
    have hq : (1 : ℚ) / 2 ≤ (b % 2 ^ 34 : ℤ) / 2 ^ 34 := by
      rw [le_div_iff₀ (by positivity)]
      exact le_trans (by norm_num) hhalf
    rw [← sub_mul, ← sub_mul]
    exact mul_le_mul_of_nonneg_right (by linarith) hunit.le
  · have hfrac : ((fraction27 ir b : ℤ) : ℚ) = (b / 2 ^ 34 : ℤ) := by rw [fraction27, if_neg hup, add_zero]
    have hmiddle : ((b / 2 ^ 34 : ℤ) + (b % 2 ^ 34 : ℤ) / 2 ^ 34 : ℚ) * 2 ^ k - (b / 2 ^ 34 : ℤ) * 2 ^ k ≤
        ((b / 2 ^ 34 : ℤ) + 1 : ℚ) * 2 ^ k - ((b / 2 ^ 34 : ℤ) + (b % 2 ^ 34 : ℤ) / 2 ^ 34) * 2 ^ k ↔ b % 2 ^ 34 ≤ 2 ^ 33 := by
      rw [← sub_mul, ← sub_mul, mul_le_mul_iff_left₀ hunit]
      have hq : ((b % 2 ^ 34 : ℤ) : ℚ) / 2 ^ 34 ≤ 1 / 2 ↔ b % 2 ^ 34 ≤ 2 ^ 33 := by
        rw [div_le_iff₀ (by positivity)]
        norm_num
        norm_cast
      rw [← hq]
      constructor <;> intro hle' <;> linarith
    rw [hfrac, Floating.nearest_low_iff (fun s hs ↦ numbers_gap hs hm k) hlo hhi hlt hle hge, hmiddle]
    rw [RoundsUp] at hup
    lia

end Nearest

end Ka10Simh.Pdp10.Fp
