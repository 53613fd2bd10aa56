import Ka10Simh.B5500.Cpu

/-!
Numbers of the B5500: words with a sign, an exponent with its sign, and a mantissa of thirteen octades.

* `negative`, `exponent`, `mantissa`, `value`: the parts of an operand, and the number that it stands for.
* `pack`, `pack_parts`: a word out of its parts.
* `normalize`, `normalize_spec`: the loop that shifts a mantissa to the left until its first octade is not zero.
* `normalize_operand`: an operand with the same value and a normalized mantissa.
-/

namespace Ka10Simh.B5500

open Word

/-! ### The source -/

/-- `MSIGN`, `ESIGN`, `EXPO`, `NORM`, `ROUND`, `FWORD`. -/
abbrev msign : ℕ := 0o2000000000000000
abbrev esign : ℕ := 0o1000000000000000
abbrev expo : ℕ := 0o770000000000000
abbrev norm : ℕ := 0o7000000000000
abbrev round : ℕ := 0o4000000000000
abbrev fword : ℕ := 0o3777777777777777

/-- `EXPO_UNDER`, `EXPO_OVER`, `INT_OVER`, `DIV_ZERO`. -/
abbrev expoUnder : ℕ := 0o120
abbrev expoOver : ℕ := 0o130
abbrev intOver : ℕ := 0o140
abbrev divZero : ℕ := 0o150

/-- The parts of an operand. -/
def negative (x : ℕ) : Bool := x &&& msign ≠ 0
def exponent (x : ℕ) : ℤ := if x &&& esign ≠ 0 then -(((x &&& expo) >>> 39 : ℕ) : ℤ) else (((x &&& expo) >>> 39 : ℕ) : ℤ)
def mantissa (x : ℕ) : ℕ := x &&& mant

/-- `x <<= 3` of 64 bits. -/
def octadeUp (x : ℕ) : ℕ := x <<< 3 % 2 ^ 64

/-- `while ((A & NORM) == 0) { A <<= 3; exp_a--; }`, for `k` tests at most. -/
def normalize : ℕ → ℕ → ℤ → Option (ℕ × ℤ)
  | 0, _, _ => none
  | k + 1, m, e => if m &&& norm = 0 then normalize k (octadeUp m) (e - 1) else some (m, e)

/-- The field of an exponent, with its sign. -/
def exponentField (e : ℤ) : ℕ := if e < 0 then (-e).toNat &&& 0o77 ||| 0o100 else e.toNat &&& 0o77

/-- The pieces are put together. -/
def pack (neg : Bool) (e : ℤ) (m : ℕ) : ℕ :=
  m &&& mant ||| (exponentField e &&& 0o177) <<< 39 ||| if neg then msign else 0

/-- What an operation leaves in `B` and `X`, and what it puts into `Q`. -/
structure Result where
  b : ℕ
  x : ℕ
  raised : List ℕ
  deriving DecidableEq

/-! ### The parts -/

/-- The number that a word stands for. -/
def value (x : ℕ) : ℚ := (if negative x then -1 else 1) * (mantissa x * 8 ^ exponent x)

lemma mantissa_eq (x : ℕ) : mantissa x = x % 2 ^ 39 := Nat.and_two_pow_sub_one_eq_mod x 39

lemma mantissa_lt (x : ℕ) : mantissa x < 2 ^ 39 := by
  rw [mantissa_eq]
  exact Nat.mod_lt _ (by norm_num)

lemma negative_eq (x : ℕ) : negative x = decide (x / 2 ^ 46 % 2 = 1) := decide_eq_decide.mpr (and_pow_ne_zero x 46)

lemma exponent_eq (x : ℕ) : exponent x = if x / 2 ^ 45 % 2 = 1 then -((x / 2 ^ 39 % 64 : ℕ) : ℤ) else ((x / 2 ^ 39 % 64 : ℕ) : ℤ) := by
  have hfield : (x &&& expo) >>> 39 = x / 2 ^ 39 % 64 := by
    rw [show expo = (2 ^ 6 - 1) <<< 39 from rfl, and_shiftLeft, Nat.shiftLeft_eq, Nat.shiftRight_eq_div_pow,
      Nat.mul_div_cancel _ (by norm_num), Nat.and_two_pow_sub_one_eq_mod, Nat.shiftRight_eq_div_pow]
  rw [exponent, hfield]
  exact if_congr (and_pow_ne_zero x 45) rfl rfl

lemma exponent_range (x : ℕ) : -63 ≤ exponent x ∧ exponent x ≤ 63 := by
  rw [exponent_eq]
  split_ifs <;> lia

lemma exponentField_eq {e : ℤ} (hlow : -63 ≤ e) (hhigh : e ≤ 63) :
    exponentField e = if e < 0 then (-e).toNat + 64 else e.toNat := by
  have hmod (n : ℕ) : n &&& 0o77 = n % 2 ^ 6 := Nat.and_two_pow_sub_one_eq_mod n 6
  rw [exponentField, hmod, hmod]
  split_ifs with h
  · have hor := @or_shiftLeft_eq ((-e).toNat % 2 ^ 6) 1 6 (Nat.mod_lt _ (by norm_num))
    rw [Nat.mod_eq_of_lt (by omega)] at hor ⊢
    exact hor
  · exact Nat.mod_eq_of_lt (by omega)

/-- **The parts of a word that is put together.** -/
theorem pack_parts {neg : Bool} {e : ℤ} {m : ℕ} (hm : m < 2 ^ 39) (hlow : -63 ≤ e) (hhigh : e ≤ 63) :
    negative (pack neg e m) = neg ∧ exponent (pack neg e m) = e ∧ mantissa (pack neg e m) = m := by
  have hfield := exponentField_eq hlow hhigh
  have hlt : exponentField e < 128 := by
    rw [hfield]
    split_ifs <;> lia
  have hsum : pack neg e m = m + exponentField e * 2 ^ 39 + if neg then 2 ^ 46 else 0 := by
    have hmant : m &&& mant = m := by
      rw [← mantissa, mantissa_eq, Nat.mod_eq_of_lt hm]
    have hexp : exponentField e &&& 0o177 = exponentField e := by
      rw [show (0o177 : ℕ) = 2 ^ 7 - 1 from rfl, Nat.and_two_pow_sub_one_eq_mod, Nat.mod_eq_of_lt hlt]
    rw [pack, hmant, hexp, or_shiftLeft_eq hm]
    cases neg with
    | false => simp
    | true =>
        rw [if_pos rfl, if_pos rfl, show msign = 1 <<< 46 from rfl, or_shiftLeft_eq (by lia), one_mul]
  rw [negative_eq, exponent_eq, mantissa_eq, hsum]
  cases neg with
  | false =>
      rw [if_neg Bool.false_ne_true, Nat.add_zero]
      refine ⟨decide_eq_false (by lia), ?_, by lia⟩
      rw [hfield]
      split_ifs <;> lia
  | true =>
      rw [if_pos rfl]
      refine ⟨decide_eq_true (by lia), ?_, by lia⟩
      rw [hfield]
      split_ifs <;> lia

lemma value_pack {neg : Bool} {e : ℤ} {m : ℕ} (hm : m < 2 ^ 39) (hlow : -63 ≤ e) (hhigh : e ≤ 63) :
    value (pack neg e m) = (if neg then -1 else 1) * (m * 8 ^ e) := by
  obtain ⟨hneg, hexp, hmant⟩ := @pack_parts neg _ _ hm hlow hhigh
  rw [value, hneg, hexp, hmant]

/-! ### Normalization -/

lemma and_norm {m : ℕ} (hm : m < 2 ^ 39) : m &&& norm = 0 ↔ m < 2 ^ 36 := by
  rw [show norm = (2 ^ 3 - 1) <<< 36 from rfl, and_shiftLeft, Nat.shiftLeft_eq, Nat.and_two_pow_sub_one_eq_mod,
    Nat.shiftRight_eq_div_pow]
  omega

lemma and_norm_ne {m : ℕ} (hm : m < 2 ^ 39) : m &&& norm ≠ 0 ↔ 2 ^ 36 ≤ m := by
  rw [ne_eq, and_norm hm, not_lt]

lemma octadeUp_eq {m : ℕ} (hm : m < 2 ^ 61) : octadeUp m = 8 * m := by
  rw [octadeUp, Nat.shiftLeft_eq]
  omega

/-- **A mantissa that is not zero is normalized.** -/
theorem normalize_spec {k m : ℕ} {e : ℤ} (hm : m < 2 ^ 39) (hk : 2 ^ 36 ≤ m * 8 ^ k) :
    ∃ t : ℕ, normalize (k + 1) m e = some (m * 8 ^ t, e - t) ∧ 2 ^ 36 ≤ m * 8 ^ t ∧ m * 8 ^ t < 2 ^ 39 := by
  induction k generalizing m e with
  | zero =>
      rw [pow_zero, mul_one] at hk
      refine ⟨0, ?_, by omega, by omega⟩
      rw [normalize, if_neg (by rw [and_norm hm]; omega)]
      simp
  | succ k ih =>
      by_cases hsmall : m < 2 ^ 36
      · obtain ⟨t, hrun, hlow, hhigh⟩ := @ih (8 * m) (e - 1) (by omega) (by rw [mul_comm 8, mul_assoc, ← pow_succ']; exact hk)
        have hnext : 8 * m * 8 ^ t = m * 8 ^ (t + 1) := by ring
        rw [hnext] at hrun hlow hhigh
        refine ⟨t + 1, ?_, hlow, hhigh⟩
        rw [normalize, if_pos ((and_norm hm).mpr hsmall), octadeUp_eq (by omega), hrun]
        push_cast
        ring_nf
      · refine ⟨0, ?_, by omega, by omega⟩
        rw [normalize, if_neg (by rwa [and_norm hm])]
        simp

/-- The value of a number with a normalized mantissa. -/
lemma value_normalized {x t : ℕ} : value x = (if negative x then -1 else 1) *
    ((mantissa x * 8 ^ t : ℕ) * 8 ^ (exponent x - t)) := by
  rw [value, zpow_sub₀ (by norm_num), zpow_natCast]
  push_cast
  field_simp

/-- **An operand that is not zero is normalized.** -/
theorem normalize_operand {a : ℕ} (ha : mantissa a ≠ 0) : ∃ (m : ℕ) (e : ℤ), normalize 13 (mantissa a) (exponent a) = some (m, e) ∧
    2 ^ 36 ≤ m ∧ m < 2 ^ 39 ∧ value a = (if negative a then -1 else 1) * (m * 8 ^ e) ∧ e ≤ exponent a := by
  have hlt := mantissa_lt a
  have hpos := Nat.pos_of_ne_zero ha
  obtain ⟨t, hrun, hlow, hhigh⟩ := @normalize_spec 12 (mantissa a) (exponent a) hlt (by omega)
  exact ⟨_, _, hrun, hlow, hhigh, value_normalized, by omega⟩

end Ka10Simh.B5500
