import Ka10Simh.Pdp10.Float.Double

/-!
What an instruction of double precision is to deliver for an exact result.

* `Scaled`: a number with a fraction of 62 bits before the point and what is behind it.
* `Delivers`: the result is normalized, exact if it can be and else off by less than a unit, and no flag is set.
* `dpack_spec`: the fraction and the exponent of the two words.
* `Scaled.delivers`: a fraction that is off by less than one is delivered.
* `Scaled.wraps`: a result whose exponent is one too large is not.
-/

namespace Ka10Simh.Pdp10.Fp

/-- `x` as a fraction of 62 bits before the point, and an exponent. -/
structure Scaled (x f : ℚ) (k : ℤ) : Prop where
  eq : x = f * 2 ^ k
  low : 2 ^ 61 ≤ |f|
  high : |f| < 2 ^ 62

/-- The exponent of `x` is in range. -/
def InRange (x : ℚ) : Prop := x = 0 ∨ 2 ^ (-129 : ℤ) ≤ |x| ∧ |x| < 2 ^ (127 : ℤ)

/-- What is promised for the exact result `x`, when `flags` were set before. -/
structure Delivers (x : ℚ) (flags : ℕ) (r : DResult) : Prop where
  normalized : Normalized2 r.words
  zero : value2 r.words = 0 ↔ x = 0
  close : |value2 r.words - x| < 2 ^ (getExpo r.words.hi - 190 : ℤ)
  exact : (∃ d, Normalized2 d ∧ value2 d = x) → value2 r.words = x
  flags : r.flags = flags

/-! ### Fractions with their exponents -/

section Scaled

variable {x f g : ℚ} {k j : ℤ}

lemma Scaled.abs_eq (h : Scaled x f k) : |x| = |f| * 2 ^ k := by
  rw [h.eq, abs_mul, abs_of_pos (zpow_pos (two_pos : (0 : ℚ) < 2) k)]

lemma Scaled.ne_zero (h : Scaled x f k) : x ≠ 0 := by
  have hpos : (0 : ℚ) < |f| * 2 ^ k := mul_pos (lt_of_lt_of_le (by norm_num) h.low) (zpow_pos two_pos k)
  rw [← h.abs_eq] at hpos
  exact abs_pos.mp hpos

/-- The exponent is where the number is between two powers of two. -/
lemma Scaled.lt_of_le (h : Scaled x f k) {j : ℤ} (hj : 2 ^ j ≤ |x|) : j < k + 62 := by
  have hlt : (2 : ℚ) ^ j < 2 ^ (k + 62) := by
    calc (2 : ℚ) ^ j ≤ |f| * 2 ^ k := by rwa [← h.abs_eq]
      _ < 2 ^ 62 * 2 ^ k := mul_lt_mul_of_pos_right h.high (zpow_pos two_pos k)
      _ = 2 ^ (k + 62) := by
        rw [zpow_add₀ two_ne_zero]
        norm_num
        ring
  exact (zpow_lt_zpow_iff_right₀ one_lt_two).mp hlt

lemma Scaled.lt_of_lt (h : Scaled x f k) {j : ℤ} (hj : |x| < 2 ^ j) : k + 61 < j := by
  have hlt : (2 : ℚ) ^ (k + 61) < 2 ^ j := by
    calc (2 : ℚ) ^ (k + 61) = 2 ^ 61 * 2 ^ k := by
          rw [zpow_add₀ two_ne_zero]
          norm_num
          ring
      _ ≤ |f| * 2 ^ k := mul_le_mul_of_nonneg_right h.low (zpow_pos two_pos k).le
      _ < 2 ^ j := by rwa [← h.abs_eq]
  exact (zpow_lt_zpow_iff_right₀ one_lt_two).mp hlt

/-- **There is only one way to scale a number.** -/
theorem Scaled.unique (h : Scaled x f k) (h' : Scaled x g j) : k = j ∧ f = g := by
  have hless {f g : ℚ} {k j : ℤ} (h : Scaled x f k) (h' : Scaled x g j) : k ≤ j := by
    have hle : (2 : ℚ) ^ (k + 61) ≤ |x| := by
      rw [h.abs_eq, zpow_add₀ two_ne_zero, mul_comm]
      exact mul_le_mul_of_nonneg_right (by exact_mod_cast h.low) (zpow_pos two_pos k).le
    have hlt := h'.lt_of_le hle
    omega
  obtain rfl : k = j := le_antisymm (hless h h') (hless h' h)
  exact ⟨rfl, mul_right_cancel₀ (zpow_pos two_pos k).ne' (h.eq.symm.trans h'.eq)⟩

/-- The exponent of a number in range. -/
lemma Scaled.range (h : Scaled x f k) (hx : InRange x) : -190 ≤ k ∧ k ≤ 65 := by
  obtain ⟨hlow, hhigh⟩ := hx.resolve_left h.ne_zero
  have h1 := h.lt_of_le hlow
  have h2 := h.lt_of_lt hhigh
  omega

/-- What normalized words stand for is scaled by their exponent. -/
lemma scaled_value2 {d : Double} (h : 2 ^ 61 ≤ |mantissa2 d| ∧ |mantissa2 d| < 2 ^ 62) :
    Scaled (value2 d) (mantissa2 d) (getExpo d.hi - 190) :=
  ⟨rfl, by exact_mod_cast h.1, by exact_mod_cast h.2⟩

end Scaled

/-! ### The two words -/

section Words

variable {v : BitVec 64} {flag1 : Bool} {sc : ℤ}

/-- The words of a fraction that is not zero. -/
lemma dpack_eq (h' : v.toInt < 2 ^ 62) (hne : v.toInt ≠ 0) (hflag : flag1 = true ↔ v.toInt < 0) :
    ((dpack flag1 v sc).hi : ℤ) = v.toInt / 2 ^ 35 % 2 ^ 27 +
      (if v.toInt < 0 then 2 ^ 36 - (sc % 256 + 1) * 2 ^ 27 else sc % 256 * 2 ^ 27) ∧
    ((dpack flag1 v sc).lo : ℤ) = v.toInt % 2 ^ 35 := by
  have hlt := v.isLt
  have hlo : v.toNat &&& cmask = v.toNat % 2 ^ 35 := and_cmask _
  have hmid : (v >>> 35).toNat &&& mmask = v.toNat / 2 ^ 35 % 2 ^ 27 := by
    rw [BitVec.toNat_ushiftRight, Nat.shiftRight_eq_div_pow]
    exact Nat.and_two_pow_sub_one_eq_mod _ 27
  have hsc := Int.emod_nonneg sc (by norm_num : (256 : ℤ) ≠ 0)
  have hsc' := Int.emod_lt_of_pos sc (by norm_num : (0 : ℤ) < 256)
  -- the sign and the fraction in their places
  have hor : (v.toNat / 2 ^ 35 % 2 ^ 27 ||| if flag1 then smask else 0) =
      (if flag1 then 1 else 0) * 2 ^ 35 + v.toNat / 2 ^ 35 % 2 ^ 27 := by
    cases flag1 with
    | true =>
        rw [if_pos rfl, if_pos rfl, Nat.or_comm]
        exact Word.or_eq_add (i := 35) (Dvd.intro_left 1 rfl) (by omega)
    | false => simp
  have hparts (f : ℕ) (hf : f < 2) : (f * 2 ^ 35 + v.toNat / 2 ^ 35 % 2 ^ 27) &&& (smask ||| mmask) =
      f * 2 ^ 35 + v.toNat / 2 ^ 35 % 2 ^ 27 := by
    rw [and_fraction]
    lia
  rw [BitVec.toInt_eq_toNat_cond] at h' hne hflag ⊢
  rw [dpack]
  dsimp only
  rw [hlo, hmid, hor]
  cases flag1 with
  | true =>
      have hneg := hflag.mp rfl
      rw [if_pos rfl, hparts 1 (by norm_num), if_pos ((and_smask _).mpr (by lia)), if_pos (.inl (by lia)), if_pos hneg,
        or_field 1 (by lia) (by lia)]
      split_ifs at hneg h' hne ⊢ <;> omega
  | false =>
      have hpos := mt hflag.mpr Bool.false_ne_true
      rw [if_neg Bool.false_ne_true, hparts 0 (by norm_num), if_neg (mt (and_smask _).mp (by lia)), if_neg hpos,
        if_pos (by split_ifs at hpos h' hne <;> lia), or_field 0 (by lia) (by lia)]
      split_ifs at hpos h' hne ⊢ <;> lia

/-- **The words of a result**: its fraction, and the low 8 bits of its exponent. -/
theorem dpack_spec (h : -2 ^ 62 ≤ v.toInt) (h' : v.toInt < 2 ^ 62) (hne : v.toInt ≠ 0) (hflag : flag1 = true ↔ v.toInt < 0) :
    (dpack flag1 v sc).hi < 2 ^ 36 ∧ mantissa2 (dpack flag1 v sc) = v.toInt ∧ (getExpo (dpack flag1 v sc).hi : ℤ) = sc % 256 := by
  obtain ⟨hhi, hlo⟩ := @dpack_eq _ _ sc h' hne hflag
  generalize dpack flag1 v sc = d at hhi hlo ⊢
  have hlt : d.hi < 2 ^ 36 := by
    split at hhi <;> lia
  have hexpo := getExpo_eq hlt
  refine ⟨hlt, ?_, ?_⟩
  · rw [mantissa2, mantissa]
    split at hhi <;> split <;> omega
  · split at hhi <;> split at hexpo <;> lia

end Words

/-! ### Results that are delivered -/

section Results

variable {x f : ℚ} {k : ℤ} {flags : ℕ} {r : DResult}

lemma value2_ne_zero {d : Double} (h : 2 ^ 61 ≤ |mantissa2 d| ∧ |mantissa2 d| < 2 ^ 62) : value2 d ≠ 0 :=
  (scaled_value2 h).ne_zero

lemma value2_eq_zero {d : Double} (h : mantissa2 d = 0) : value2 d = 0 := by
  rw [value2, h, Int.cast_zero, zero_mul]

/-- What can be exact has a fraction without anything behind the point. -/
lemma Scaled.eq_intCast (h : Scaled x f k) {d : Double} (hd : Normalized2 d) (hx : value2 d = x) : ∃ i : ℤ, f = i := by
  rcases hd.range with ⟨-, hzero⟩ | hrange
  · exact absurd (hx.symm.trans (value2_eq_zero hzero)) h.ne_zero
  · have hscaled := scaled_value2 hrange
    rw [hx] at hscaled
    exact ⟨mantissa2 d, (h.unique hscaled).2⟩

/-- **A fraction that is off by less than one is delivered**: it is exact when it can be. -/
theorem Scaled.delivers (h : Scaled x f k) (hlt : r.words.hi < 2 ^ 36)
    (hrange : 2 ^ 61 ≤ |mantissa2 r.words| ∧ |mantissa2 r.words| < 2 ^ 62) (d : ℕ)
    (he : (getExpo r.words.hi : ℤ) = k + 190 + d) (hclose : |(mantissa2 r.words * 2 ^ d : ℤ) - f| < 1)
    (hflags : r.flags = flags) : Delivers x flags r := by
  have hunit : (0 : ℚ) < 2 ^ k := zpow_pos two_pos k
  have hvalue : value2 r.words = (mantissa2 r.words * 2 ^ d : ℤ) * 2 ^ k := by
    rw [value2, he, show k + 190 + d - 190 = d + k by ring, zpow_add₀ two_ne_zero, zpow_natCast]
    push_cast
    ring
  refine ⟨⟨hlt, .inr hrange⟩, ?_, ?_, ?_, hflags⟩
  · exact iff_of_false (value2_ne_zero hrange) h.ne_zero
  · calc |value2 r.words - x| = |(mantissa2 r.words * 2 ^ d : ℤ) - f| * 2 ^ k := by
          rw [hvalue, h.eq, ← sub_mul, abs_mul, abs_of_pos hunit]
      _ < 1 * 2 ^ k := mul_lt_mul_of_pos_right hclose hunit
      _ ≤ 2 ^ (getExpo r.words.hi - 190 : ℤ) := by
          rw [one_mul, he]
          exact zpow_le_zpow_right₀ one_le_two (by omega)
  · rintro ⟨d', hd', hx⟩
    obtain ⟨i, rfl⟩ := h.eq_intCast hd' hx
    have hsame : mantissa2 r.words * 2 ^ d = i := by
      have hlt1 : |mantissa2 r.words * 2 ^ d - i| < 1 := by exact_mod_cast hclose
      rw [abs_lt] at hlt1
      lia
    rw [hvalue, hsame, h.eq]

/-- Zero is delivered as zero. -/
lemma delivers_zero (hr : r = ⟨⟨0, 0⟩, flags⟩) : Delivers 0 flags r := by
  have hmantissa : mantissa2 ⟨0, 0⟩ = 0 := by decide
  have hzero := value2_eq_zero hmantissa
  subst hr
  refine ⟨⟨by norm_num, .inl ⟨rfl, hmantissa⟩⟩, iff_of_true hzero rfl, ?_, fun _ ↦ hzero, rfl⟩
  rw [hzero, sub_zero, abs_zero]
  positivity

/-- A result that is not normalized is not delivered, -/
lemma not_delivers_of_range (hx : x ≠ 0) (hrange : ¬ (2 ^ 61 ≤ |mantissa2 r.words| ∧ |mantissa2 r.words| < 2 ^ 62)) :
    ¬ Delivers x flags r := fun h ↦ by
  rcases h.normalized.range with ⟨-, hzero⟩ | hin
  · exact hx (h.zero.mp (value2_eq_zero hzero))
  · exact hrange hin

/-- and neither is one whose exponent has become zero instead of 256. -/
lemma Scaled.wraps (h : Scaled x f 65) (he : getExpo r.words.hi = 0) : ¬ Delivers x flags r := fun hd ↦ by
  have hclose := hd.close
  obtain ⟨hlow, hhigh⟩ := mantissa2_range r.words
  have hm : |(mantissa2 r.words : ℚ)| ≤ 2 ^ 62 := by
    rw [abs_le]
    exact ⟨by exact_mod_cast hlow, by exact_mod_cast hhigh.le⟩
  have hsmall : |value2 r.words| ≤ 2 ^ 62 * 2 ^ (-190 : ℤ) := by
    rw [value2, he, abs_mul, abs_of_pos (zpow_pos (two_pos : (0 : ℚ) < 2) _)]
    exact mul_le_mul_of_nonneg_right hm (by positivity)
  have hlarge : 2 ^ 61 * 2 ^ 65 ≤ |x| := by
    rw [h.abs_eq]
    exact mul_le_mul_of_nonneg_right h.low (by norm_num)
  have habs := abs_sub_abs_le_abs_sub x (value2 r.words)
  rw [abs_sub_comm] at habs
  rw [he] at hclose
  norm_num at hclose hsmall hlarge
  linarith

end Results

end Ka10Simh.Pdp10.Fp
