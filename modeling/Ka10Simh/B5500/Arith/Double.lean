import Ka10Simh.B5500.Arith.Compare

/-!
Numbers of two words: a mantissa of 26 octades in two registers.

* `Double`: the two words, with the value of the number and the unit of its last octade.
* `octadeUps`, `octadeDowns`, `complementPair`: the registers shifted and complemented.
* `wide`: the registers as one number; what the shifts and the complement do to it.
* `lift`, `roundPair_eq`: the shifts that a mantissa needs, and the rounding.
* `Representable`, `Sound`: the numbers of two words, and what the result of an operation is to be.
-/

namespace Ka10Simh.B5500

open Word

/-! ### The source -/

/-- A number in two words. The second one has only digits. -/
structure Double where
  high : ℕ
  low : ℕ
  deriving DecidableEq

/-- The mantissas of the two words, in two registers. -/
def Double.digits (d : Double) : ℕ × ℕ := (mantissa d.high, mantissa d.low)

/-- `A <<= 3; Y <<= 3; A |= (Y >> EXPO_V) & 07; Y &= MANT;` -/
def octadeUps (p : ℕ × ℕ) : ℕ × ℕ := (octadeUp p.1 ||| octadeUp p.2 >>> 39 &&& 7, octadeUp p.2 &&& mant)

/-- `X |= (B & 07) << EXPO_V; ld = X & 07; X >>= 3; B >>= 3;` -/
def octadeDowns (p : ℕ × ℕ) : ℕ × ℕ := (p.1 >>> 3, (p.2 ||| (p.1 &&& 7) <<< 39) >>> 3)
def lastOctade (p : ℕ × ℕ) : ℕ := (p.2 ||| (p.1 &&& 7) <<< 39) &&& 7

/-- The rounding. -/
def roundPair (ld : ℕ) (s : ℕ × ℕ) : ℕ × ℕ :=
  if ld ≥ 4 ∧ s.2 ≠ mant ∧ s.1 ≠ mant then
    if s.2 + 1 &&& expo ≠ 0 then (s.1 + 1, s.2 + 1 &&& mant) else (s.1, s.2 + 1)
  else s

/-! ### Values -/

/-- Two registers as one number, of 78 bits when it is a mantissa. -/
def wide (p : ℕ × ℕ) : ℕ := p.1 * 2 ^ 39 + p.2

namespace Double

/-- The number that two words stand for, and the unit of its last octade. -/
def value (d : Double) : ℚ := (if negative d.high then -1 else 1) * (wide d.digits * 8 ^ (exponent d.high - 13))
def unit (d : Double) : ℚ := 8 ^ (exponent d.high - 13)

end Double

/-- A number can be written in two words. -/
def Representable (q : ℚ) : Prop := ∃ d : Double, d.value = q

variable {p s : ℕ × ℕ} {b x n m d : ℕ} {e : ℤ}

lemma digits_lt (d : Double) : d.digits.1 < 2 ^ 39 ∧ d.digits.2 < 2 ^ 39 := ⟨mantissa_lt _, mantissa_lt _⟩

lemma wide_lt (h : p.1 < 2 ^ 39) (h' : p.2 < 2 ^ 39) : wide p < 2 ^ 78 := by
  rw [wide]
  omega

lemma wide_digits_lt (d : Double) : wide d.digits < 2 ^ 78 := wide_lt (digits_lt d).1 (digits_lt d).2

/-- The registers are those of the number. -/
lemma wide_parts (h : p.2 < 2 ^ 39) : p.1 = wide p / 2 ^ 39 ∧ p.2 = wide p % 2 ^ 39 := by
  rw [wide]
  omega

/-! ### Shifts -/

lemma and_mant_eq (n : ℕ) : n &&& mant = n % 2 ^ 39 := Nat.and_two_pow_sub_one_eq_mod n 39

lemma and_seven (n : ℕ) : n &&& 7 = n % 8 := Nat.and_two_pow_sub_one_eq_mod n 3

/-- A shift to the left. What is beyond the 39 bits of the first register is lost from bit 64 on. -/
lemma octadeUps_mod (h : p.2 < 2 ^ 39) : (octadeUps p).2 < 2 ^ 39 ∧ wide (octadeUps p) % 2 ^ 78 = 8 * wide p % 2 ^ 78 := by
  have hup : octadeUp p.1 ||| 8 * p.2 / 2 ^ 39 % 8 = 8 * p.1 % 2 ^ 64 + 8 * p.2 / 2 ^ 39 % 8 := by
    have hmul : 8 * p.1 % 2 ^ 64 = (p.1 % 2 ^ 61) <<< 3 := by
      rw [Nat.shiftLeft_eq]
      lia
    have hcarry : 8 * p.2 / 2 ^ 39 % 8 < 2 ^ 3 := Nat.mod_lt _ (by norm_num)
    rw [octadeUp, Nat.shiftLeft_eq, show p.1 * 2 ^ 3 = 8 * p.1 by ring, hmul, shiftLeft_or_eq hcarry, Nat.shiftLeft_eq]
  rw [octadeUps, octadeUp_eq (show p.2 < 2 ^ 61 by omega), and_mant_eq, and_seven, Nat.shiftRight_eq_div_pow, hup, wide, wide]
  dsimp only
  lia

lemma octadeUps_eq (h : p.2 < 2 ^ 39) (h' : p.1 < 2 ^ 36) :
    (octadeUps p).1 < 2 ^ 39 ∧ (octadeUps p).2 < 2 ^ 39 ∧ wide (octadeUps p) = 8 * wide p := by
  have hup : octadeUp p.1 ||| 8 * p.2 / 2 ^ 39 % 8 = 8 * p.1 + 8 * p.2 / 2 ^ 39 % 8 := by
    have hcarry : 8 * p.2 / 2 ^ 39 % 8 < 2 ^ 3 := Nat.mod_lt _ (by norm_num)
    have hmul : 8 * p.1 = p.1 <<< 3 := by
      rw [Nat.shiftLeft_eq]
      ring
    rw [octadeUp_eq (show p.1 < 2 ^ 61 by omega), hmul, shiftLeft_or_eq hcarry, Nat.shiftLeft_eq]
  rw [octadeUps, octadeUp_eq (show p.2 < 2 ^ 61 by omega), and_mant_eq, and_seven, Nat.shiftRight_eq_div_pow, hup, wide, wide]
  dsimp only
  lia

/-- A shift to the right. -/
lemma octadeDowns_eq (h : p.2 < 2 ^ 39) :
    (octadeDowns p).1 = p.1 / 8 ∧ (octadeDowns p).2 < 2 ^ 39 ∧ wide (octadeDowns p) = wide p / 8 ∧ lastOctade p = wide p % 8 := by
  rw [octadeDowns, lastOctade, and_seven, and_seven, or_shiftLeft_eq h, wide, wide, Nat.shiftRight_eq_div_pow, Nat.shiftRight_eq_div_pow]
  dsimp only
  lia

/-- The first octade of the registers. -/
lemma wide_norm (h : p.1 < 2 ^ 39) (h' : p.2 < 2 ^ 39) : p.1 &&& norm = 0 ↔ wide p < 2 ^ 75 := by
  rw [and_norm h, wide]
  omega

/-! ### The complement -/

/-- The complement of 86 bits; what is above them stays. -/
lemma complementPair_eq {c : ℕ} (hx : x < 2 ^ 39) (hb : b / 2 ^ 47 = c) (hc : c ≤ 1) :
    (complementPair b x).2 < 2 ^ 39 ∧ wide (complementPair b x) = c * 2 ^ 86 + (2 ^ 86 - wide (b % 2 ^ 47, x)) := by
  have hxor : x ^^^ mant = 2 ^ 39 - 1 - x := by rw [Nat.xor_comm]; exact mask_xor hx
  have hbxor : b ^^^ fword = c * 2 ^ 47 + (2 ^ 47 - 1 - b % 2 ^ 47) := by
    have hdiv : (b ^^^ fword) / 2 ^ 47 = c := by
      rw [Nat.xor_div_two_pow, hb]
      exact Nat.xor_zero c
    have hmod : (b ^^^ fword) % 2 ^ 47 = 2 ^ 47 - 1 - b % 2 ^ 47 := by
      have hmask := @mask_xor (b % 2 ^ 47) 47 (Nat.mod_lt _ (by norm_num))
      rw [Nat.xor_mod_two_pow, Nat.xor_comm]
      exact hmask
    rw [← Nat.div_add_mod (b ^^^ fword) (2 ^ 47), hdiv, hmod, mul_comm]
  have hexpo : 2 ^ 39 - 1 - x + 1 &&& expo ≠ 0 ↔ x = 0 := by
    rw [show expo = (2 ^ 6 - 1) <<< 39 from rfl, and_shiftLeft, Nat.shiftLeft_eq, Nat.shiftRight_eq_div_pow,
      Nat.and_two_pow_sub_one_eq_mod]
    lia
  rw [complementPair, hxor, hbxor]
  by_cases hzero : x = 0
  · rw [if_pos (hexpo.mpr hzero), and_mant_eq, wide, wide]
    dsimp only
    lia
  · rw [if_neg (hexpo.not.mpr hzero), wide, wide]
    dsimp only
    lia

/-! ### Shifts to the first octade, and the rounding -/

/-- The shifts to the left of a mantissa until it has 26 octades, of `d` at most. -/
def lift (m d : ℕ) : ℕ := if m = 0 then d else min d (25 - Nat.log 8 m)

lemma lift_zero (m : ℕ) : lift m 0 = 0 := by
  rw [lift]
  split_ifs
  · rfl
  · exact Nat.zero_min _

lemma lift_normal (h : 2 ^ 75 ≤ m) (h' : m < 2 ^ 78) (d : ℕ) : lift m d = 0 := by
  have hlog : Nat.log 8 m = 25 := Nat.log_eq_of_pow_le_of_lt_pow (by omega) (by omega)
  rw [lift, if_neg (by omega), hlog, Nat.sub_self, Nat.min_zero]

lemma lift_succ (h : m < 2 ^ 75) (d : ℕ) : lift m (d + 1) = lift (8 * m) d + 1 := by
  rw [lift, lift]
  by_cases hzero : m = 0
  · rw [if_pos hzero, if_pos (by omega)]
  · have hlog : Nat.log 8 (8 * m) = Nat.log 8 m + 1 := by
      rw [mul_comm]
      exact Nat.log_mul_base (by norm_num) hzero
    have hlt : Nat.log 8 m < 25 := Nat.log_lt_of_lt_pow hzero (by omega)
    rw [if_neg hzero, if_neg (by omega), hlog]
    lia

lemma lift_spec (h : m < 2 ^ 78) (d : ℕ) :
    lift m d ≤ d ∧ m * 8 ^ lift m d < 2 ^ 78 ∧ (lift m d = d ∨ 2 ^ 75 ≤ m * 8 ^ lift m d) := by
  induction d generalizing m with
  | zero =>
      rw [lift_zero, pow_zero, mul_one]
      exact ⟨le_rfl, h, .inl rfl⟩
  | succ d ih =>
      by_cases hsmall : m < 2 ^ 75
      · obtain ⟨hle, hlt, hend⟩ := @ih (8 * m) (by omega)
        rw [lift_succ hsmall]
        rw [show 8 * m * 8 ^ lift (8 * m) d = m * 8 ^ (lift (8 * m) d + 1) by ring] at hlt hend
        exact ⟨by omega, hlt, hend.imp (by omega) id⟩
      · rw [lift_normal (by omega) h, pow_zero, mul_one]
        exact ⟨by omega, h, .inr (by omega)⟩

lemma carry_test (hs : s.2 < 2 ^ 39) : s.1 &&& expo ≠ 0 ↔ wide s / 2 ^ 78 % 64 ≠ 0 := by
  rw [show expo = (2 ^ 6 - 1) <<< 39 from rfl, and_shiftLeft, Nat.shiftLeft_eq, Nat.shiftRight_eq_div_pow,
    Nat.and_two_pow_sub_one_eq_mod, wide]
  omega

/-- What is rounded up: the last octade that was shifted out is four or more, and no register is full. -/
def RoundsUp (ld : ℕ) (w : ℕ) : Prop := 4 ≤ ld ∧ w % 2 ^ 39 ≠ 2 ^ 39 - 1 ∧ w / 2 ^ 39 ≠ 2 ^ 39 - 1

instance (ld w : ℕ) : Decidable (RoundsUp ld w) := inferInstanceAs (Decidable (_ ∧ _ ∧ _))

lemma roundPair_eq (hs : s.2 < 2 ^ 39) (ld : ℕ) :
    (roundPair ld s).2 < 2 ^ 39 ∧ wide (roundPair ld s) = wide s + if RoundsUp ld (wide s) then 1 else 0 := by
  obtain ⟨hhigh, hlow⟩ := wide_parts hs
  have hup : ld ≥ 4 ∧ s.2 ≠ mant ∧ s.1 ≠ mant ↔ RoundsUp ld (wide s) := by
    rw [RoundsUp, ← hhigh, ← hlow]
    exact Iff.rfl
  rw [roundPair]
  by_cases h : RoundsUp ld (wide s)
  · have hfull : s.2 ≠ 2 ^ 39 - 1 := (hup.mpr h).2.1
    have hexpo : ¬ (s.2 + 1 &&& expo ≠ 0) := by
      rw [show expo = (2 ^ 6 - 1) <<< 39 from rfl, and_shiftLeft, Nat.shiftLeft_eq, Nat.shiftRight_eq_div_pow,
        Nat.and_two_pow_sub_one_eq_mod]
      lia
    rw [if_pos (hup.mpr h), if_pos h, if_neg hexpo, wide, wide]
    dsimp only
    lia
  · rw [if_neg (hup.not.mpr h), if_neg h]
    exact ⟨hs, (Nat.add_zero _).symm⟩

/-! ### Numbers of two words -/

/-- A number that can be written has a mantissa of 26 octades and an exponent of 64. -/
lemma Representable.parts {q : ℚ} (h : Representable q) :
    ∃ (m : ℕ) (e : ℤ), m < 2 ^ 78 ∧ -63 ≤ e ∧ e ≤ 63 ∧ |q| = m * 8 ^ (e - 13) := by
  obtain ⟨d, rfl⟩ := h
  obtain ⟨hlow, hhigh⟩ := exponent_range d.high
  refine ⟨wide d.digits, exponent d.high, wide_digits_lt d, hlow, hhigh, ?_⟩
  have hpos : (0 : ℚ) ≤ wide d.digits * 8 ^ (exponent d.high - 13) := by positivity
  rw [Double.value, abs_mul, abs_of_nonneg hpos]
  split_ifs <;> norm_num

/-- A mantissa of 26 octades can be written at any exponent. -/
lemma representable_of {q : ℚ} (hm : m < 2 ^ 78) (hlow : -63 ≤ e) (hhigh : e ≤ 63) (hq : |q| = m * 8 ^ (e - 13)) : Representable q := by
  obtain ⟨hneg, hexp, hmant⟩ := @pack_parts (decide (q < 0)) e (m / 2 ^ 39) (by omega) hlow hhigh
  refine ⟨⟨pack (decide (q < 0)) e (m / 2 ^ 39), m % 2 ^ 39⟩, ?_⟩
  have hwide : wide (Double.digits ⟨pack (decide (q < 0)) e (m / 2 ^ 39), m % 2 ^ 39⟩) = m := by
    rw [wide, Double.digits]
    dsimp only
    rw [hmant, mantissa_eq]
    lia
  rw [Double.value, hwide]
  dsimp only
  rw [hneg, hexp, ← hq]
  by_cases hsign : q < 0
  · rw [if_pos (decide_eq_true hsign), abs_of_neg hsign]
    ring
  · rw [if_neg (by rw [decide_eq_false hsign]; exact Bool.false_ne_true), abs_of_nonneg (not_lt.mp hsign), one_mul]

/-- **A number with a digit beyond the 26 octades cannot be written**: neither with a larger exponent, nor with a smaller one. -/
theorem not_representable {T q : ℚ} (he : e = -63 ∨ 2 ^ 75 ≤ q) (hint : ∀ n : ℕ, q ≠ n) (hT : |T| = q * 8 ^ (e - 13)) :
    ¬ Representable T := by
  intro hrep
  obtain ⟨m, d, hm, hlow, -, hq⟩ := hrep.parts
  have hunit : (0 : ℚ) < 8 ^ (e - 13) := by positivity
  rw [hT] at hq
  rcases le_or_gt e d with hle | hgt
  · -- the mantissa at the smaller exponent would be whole
    have hscale : (8 : ℚ) ^ (d - 13) = 8 ^ (d - e).toNat * 8 ^ (e - 13) := by
      rw [← zpow_natCast, ← zpow_add₀ (by norm_num), Int.toNat_of_nonneg (by omega)]
      congr 1
      ring
    rw [hscale, ← mul_assoc, mul_left_inj' hunit.ne'] at hq
    exact hint (m * 8 ^ (d - e).toNat) (by rw [hq]; push_cast; ring)
  · -- the mantissa at the smaller exponent would have more octades
    have hscale : (8 : ℚ) ^ (e - 13) = 8 ^ (e - d).toNat * 8 ^ (d - 13) := by
      rw [← zpow_natCast, ← zpow_add₀ (by norm_num), Int.toNat_of_nonneg (by omega)]
      congr 1
      ring
    have hpos : (0 : ℚ) < 8 ^ (d - 13) := by positivity
    rw [hscale, ← mul_assoc, mul_left_inj' hpos.ne'] at hq
    have hnormal : (2 : ℚ) ^ 75 ≤ q := he.resolve_left (by omega)
    have hpow : (8 : ℚ) ≤ 8 ^ (e - d).toNat := le_self_pow₀ (by norm_num) (by omega)
    have hm' : (m : ℚ) < 2 ^ 78 := by exact_mod_cast hm
    nlinarith

/-- What the result of an operation is to be: within a unit of a number, and equal to it when that can be written. -/
def Sound (T : ℚ) (r : Double) : Prop := |r.value - T| < r.unit ∧ (Representable T → r.value = T)

/-- The same in multiples of some scale. -/
lemma sound_iff {r : Double} {v w V : ℚ} {k : ℕ} (hV : 0 < V) (hr : r.value = v * V) (hunit : r.unit * 8 ^ k = V) :
    Sound (w * V) r ↔ |v - w| * 8 ^ k < 1 ∧ (Representable (w * V) → v = w) := by
  have hu : (0 : ℚ) < r.unit := by
    rw [Double.unit]
    positivity
  have hpow : (0 : ℚ) < 8 ^ k := by positivity
  rw [Sound, hr, ← sub_mul, abs_mul, abs_of_pos hV, mul_left_inj' hV.ne']
  refine and_congr_left fun _ ↦ ?_
  rw [← hunit, show |v - w| * (r.unit * 8 ^ k) = |v - w| * 8 ^ k * r.unit by ring, mul_lt_iff_lt_one_left hu]

end Ka10Simh.B5500
