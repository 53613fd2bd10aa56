import Ka10Simh.B5500.Arith.DoubleAdd
import Ka10Simh.B5500.Arith.Multiply

/-!
The multiplication of numbers of two words.

* `doubleMult`: the operator `DLM`.
* `shiftUp_spec`, `crossSum_spec`, `settleProduct_spec`: the pieces, each on the number in two registers.
* `Double.lifted`, `Double.scale`: an operand after its shifts.
* `doubleMult_iff`: where the result is less than 16 units away from the product.
-/

namespace Ka10Simh.B5500

open Word

/-! ### The source -/

/-- `for (n = 0; (A & NORM) == 0 && n < 13; n++)`, with `k` turns left: the registers are shifted up. -/
def shiftUp : ℕ → ℕ × ℕ → ℤ → ℕ → (ℕ × ℕ) × ℤ × ℕ
  | 0, p, e, n => (p, e, n)
  | k + 1, p, e, n =>
      if p.1 &&& norm = 0 then shiftUp k (octadeUp p.1 ||| p.2 >>> 36 &&& 7, octadeUp p.2 &&& mant) (e - 1) (n + 1)
      else (p, e, n)

/-- The products of the halves: the high one with what the other two have above the last register, and the first octade of their rest. -/
def crossSum (p q : ℕ × ℕ) : (ℕ × ℕ) × ℕ :=
  let (y, m6) := multStep q.1 p.2
  let (x, m7) := multStep p.1 q.2
  let ld := (m6 + m7) >>> 36
  let (b, m6) := multStep p.1 q.1
  let m6 := m6 + (x + y)
  ((b + m6 >>> 39, m6 &&& mant), ld)

/-- What is put into `Q` for an exponent. -/
def exponentFlags (ncsf : Bool) (e : ℤ) : List ℕ :=
  if e < -64 ∧ ncsf then [expoUnder] else if e > 64 ∧ ncsf then [expoOver] else []

/-- The end of the multiplication: a shift of the product, its rounding, and the result. -/
def settleProduct (ncsf sign : Bool) (s : ℕ × ℕ) (ld : ℕ) (e : ℤ) : Double × List ℕ :=
  let (s, ld, e) := if s.1 &&& expo ≠ 0 then (octadeDowns s, s.2 &&& 7, e + 1) else (s, ld, e)
  let (s, ld, e) :=
    -- what is added to the last octade may carry out of the register
    if s.1 &&& norm = 0 then ((octadeUp s.1 ||| s.2 >>> 36 &&& 7, octadeUp s.2 + ld &&& mant), 0, e - 1) else (s, ld, e)
  let s := roundPair ld s
  (⟨pack sign e s.1, s.2⟩, exponentFlags ncsf e)

/-- `DLM`, with the operand `a` in `A` and `Y`, and `b` in `B` and `X`. -/
def doubleMult (ncsf : Bool) (a b : Double) : Double × List ℕ :=
  let (q, eb, _) := shiftUp 13 b.digits (exponent b.high) 0
  let (p, ea, _) := shiftUp 13 a.digits (exponent a.high) 0
  if q.2 = 0 ∧ q.1 = 0 ∨ p.2 = 0 ∧ p.1 = 0 then (⟨0, 0⟩, [])
  else
    let (s, ld) := crossSum p q
    settleProduct ncsf (negative a.high != negative b.high) s ld (eb + (ea + 13))

/-! ### The shifts of an operand -/

variable {p q s : ℕ × ℕ} {e : ℤ} {k ld n w : ℕ}

/-- One shift. -/
lemma octadeUp_pair (h : p.2 < 2 ^ 39) (h' : p.1 < 2 ^ 36) :
    wide (octadeUp p.1 ||| p.2 >>> 36 &&& 7, octadeUp p.2 &&& mant) = 8 * wide p ∧
      (octadeUp p.1 ||| p.2 >>> 36 &&& 7) < 2 ^ 39 ∧ octadeUp p.2 &&& mant < 2 ^ 39 := by
  have hcarry : octadeUp p.2 >>> 39 &&& 7 = p.2 >>> 36 &&& 7 := by
    rw [octadeUp_eq (show p.2 < 2 ^ 61 by omega), Nat.shiftRight_eq_div_pow, Nat.shiftRight_eq_div_pow]
    congr 1
    lia
  obtain ⟨hhigh, hlow, hwide⟩ := octadeUps_eq h h'
  rw [octadeUps, hcarry] at hhigh hlow hwide
  exact ⟨hwide, hhigh, hlow⟩

/-- **The loop**: an operand is shifted up until its first octade is not zero. -/
theorem shiftUp_spec (h : p.1 < 2 ^ 39) (h' : p.2 < 2 ^ 39) (k : ℕ) (e : ℤ) (n : ℕ) : ∃ p' : ℕ × ℕ,
    shiftUp k p e n = (p', e - lift (wide p) k, n + lift (wide p) k) ∧ wide p' = wide p * 8 ^ lift (wide p) k ∧
      p'.1 < 2 ^ 39 ∧ p'.2 < 2 ^ 39 := by
  induction k generalizing p e n with
  | zero =>
      rw [lift_zero, pow_zero, mul_one, Nat.cast_zero, sub_zero]
      exact ⟨p, rfl, rfl, h, h'⟩
  | succ k ih =>
      rw [shiftUp]
      by_cases hsmall : p.1 < 2 ^ 36
      · obtain ⟨hwide, hhigh, hlow⟩ := octadeUp_pair h' hsmall
        obtain ⟨p', hrun, hwide', hhigh', hlow'⟩ := @ih (_, _) hhigh hlow (e - 1) (n + 1)
        rw [hwide] at hrun hwide'
        rw [if_pos ((and_norm h).mpr hsmall), hrun, lift_succ (by rw [wide]; omega)]
        refine ⟨p', ?_, by rw [hwide', pow_succ]; ring, hhigh', hlow'⟩
        push_cast
        rw [show e - (lift (8 * wide p) k + 1 : ℤ) = e - 1 - lift (8 * wide p) k by ring,
          show n + (lift (8 * wide p) k + 1) = n + 1 + lift (8 * wide p) k by ring]
      · rw [if_neg ((and_norm h).not.mpr hsmall), lift_normal (by rw [wide]; omega) (wide_lt h h'), pow_zero, mul_one,
          Nat.cast_zero, sub_zero]
        exact ⟨p, rfl, rfl, h, h'⟩

/-! ### The product -/

/-- The two parts of the products of the halves. -/
def crossHigh (m n : ℕ) : ℕ :=
  m / 2 ^ 39 * (n / 2 ^ 39) + (m / 2 ^ 39 * (n % 2 ^ 39) / 2 ^ 39 + n / 2 ^ 39 * (m % 2 ^ 39) / 2 ^ 39)
def crossLow (m n : ℕ) : ℕ := m / 2 ^ 39 * (n % 2 ^ 39) % 2 ^ 39 + n / 2 ^ 39 * (m % 2 ^ 39) % 2 ^ 39

/-- The whole product. -/
lemma cross_product (m n : ℕ) : m * n = crossHigh m n * 2 ^ 78 + crossLow m n * 2 ^ 39 + m % 2 ^ 39 * (n % 2 ^ 39) := by
  have hm := Nat.div_add_mod m (2 ^ 39)
  have hn := Nat.div_add_mod n (2 ^ 39)
  rw [crossHigh, crossLow]
  generalize m / 2 ^ 39 = a at *
  generalize n / 2 ^ 39 = b at *
  generalize m % 2 ^ 39 = y at *
  generalize n % 2 ^ 39 = x at *
  have hprod : m * n = a * b * 2 ^ 78 + (a * x + b * y) * 2 ^ 39 + y * x := by
    rw [← hm, ← hn]
    ring
  rw [hprod]
  generalize a * x = t
  generalize b * y = u
  lia

lemma crossLow_lt (m n : ℕ) : crossLow m n < 2 ^ 40 := by
  rw [crossLow]
  omega

lemma crossHigh_lt {m n : ℕ} (hm : m < 2 ^ 78) (hn : n < 2 ^ 78) : crossHigh m n < 2 ^ 78 := by
  have hprod : m * n ≤ (2 ^ 78 - 1) * (2 ^ 78 - 1) := Nat.mul_le_mul (by omega) (by omega)
  have hsum := cross_product m n
  by_contra hge
  have hle : 2 ^ 78 * 2 ^ 78 ≤ crossHigh m n * 2 ^ 78 := Nat.mul_le_mul_right _ (not_lt.mp hge)
  omega

/-- **The sum of the products of the halves.** -/
theorem crossSum_spec (hp : p.1 < 2 ^ 39) (hp' : p.2 < 2 ^ 39) (hq : q.1 < 2 ^ 39) (hq' : q.2 < 2 ^ 39) : ∃ s : ℕ × ℕ,
    crossSum p q = (s, crossLow (wide p) (wide q) / 2 ^ 36) ∧ wide s = crossHigh (wide p) (wide q) ∧ s.2 < 2 ^ 39 := by
  obtain ⟨hA, hY⟩ := wide_parts hp'
  obtain ⟨hB, hX⟩ := wide_parts hq'
  rw [crossSum, multStep_eq hq hp', multStep_eq hp hq', multStep_eq hp hq]
  dsimp only
  rw [crossHigh, crossLow, ← hA, ← hY, ← hB, ← hX, Nat.shiftRight_eq_div_pow, Nat.shiftRight_eq_div_pow, and_mant_eq,
    Nat.add_comm (q.1 * p.2 % 2 ^ 39)]
  have hlow (n : ℕ) : n % 2 ^ 39 < 2 ^ 39 := Nat.mod_lt _ (by norm_num)
  refine ⟨_, rfl, ?_, hlow _⟩
  rw [wide]
  dsimp only
  generalize p.1 * q.1 = t
  generalize p.1 * q.2 / 2 ^ 39 = u
  generalize q.1 * p.2 / 2 ^ 39 = v
  lia

/-! ### The result -/

/-- What is added to the last octade, where it carries out of 39 bits. -/
lemma carry_lost {t x w ld : ℕ} (hx : x % 2 ^ 36 = w % 2 ^ 36) (h : t * 2 ^ 39 + 8 * x % 2 ^ 39 = 8 * w) (hld : ld < 16) :
    t * 2 ^ 39 + (8 * x + ld) % 2 ^ 39 + (if w % 2 ^ 36 = 2 ^ 36 - 1 ∧ 8 ≤ ld then 2 ^ 39 else 0) = 8 * w + ld := by
  have hrest : 8 * x % 2 ^ 39 = 8 * (w % 2 ^ 36) := by lia
  have hnext : (8 * x + ld) % 2 ^ 39 = (8 * (w % 2 ^ 36) + ld) % 2 ^ 39 := by lia
  rw [hnext]
  rw [hrest] at h
  have hlt : w % 2 ^ 36 < 2 ^ 36 := Nat.mod_lt _ (by norm_num)
  generalize w % 2 ^ 36 = v at *
  clear hx hrest hnext
  by_cases hlost : v = 2 ^ 36 - 1 ∧ 8 ≤ ld
  · have hmod : (8 * v + ld) % 2 ^ 39 + 2 ^ 39 = 8 * v + ld := by lia
    rw [if_pos hlost, Nat.add_assoc, hmod, ← h, Nat.add_assoc]
  · have hmod : (8 * v + ld) % 2 ^ 39 = 8 * v + ld := by lia
    rw [if_neg hlost, Nat.add_zero, hmod, ← h, Nat.add_assoc]

/-- The shift of a product by an octade, with what is added to it. The carry out of the second register is lost. -/
lemma shift_sum (h : s.2 < 2 ^ 39) (h' : s.1 < 2 ^ 36) (hld : ld < 16) :
    (octadeUp s.1 ||| s.2 >>> 36 &&& 7) < 2 ^ 39 ∧ octadeUp s.2 + ld &&& mant < 2 ^ 39 ∧
      wide (octadeUp s.1 ||| s.2 >>> 36 &&& 7, octadeUp s.2 + ld &&& mant) +
        (if wide s % 2 ^ 36 = 2 ^ 36 - 1 ∧ 8 ≤ ld then 2 ^ 39 else 0) = 8 * wide s + ld := by
  obtain ⟨hwide, hhigh, -⟩ := octadeUp_pair h h'
  rw [octadeUp_eq (show s.2 < 2 ^ 61 by omega), and_mant_eq] at hwide ⊢
  refine ⟨hhigh, Nat.mod_lt _ (by norm_num), ?_⟩
  refine carry_lost ?_ hwide hld
  rw [(wide_parts h).2]
  lia

variable {sign ncsf : Bool}

/-- A number that is put together. -/
lemma double_pack (hs : s.1 < 2 ^ 39) (hs' : s.2 < 2 ^ 39) (he : -63 ≤ e) (he' : e ≤ 63) (sign : Bool) :
    (⟨pack sign e s.1, s.2⟩ : Double).value = sgn sign * (wide s * 8 ^ (e - 13)) ∧
      (⟨pack sign e s.1, s.2⟩ : Double).unit = 8 ^ (e - 13) := by
  obtain ⟨hneg, hexp, hmant⟩ := @pack_parts sign e s.1 hs he he'
  have hlow : mantissa s.2 = s.2 := by rw [mantissa_eq, Nat.mod_eq_of_lt hs']
  rw [Double.value, Double.unit, Double.digits, hneg, hexp, hmant, hlow]
  exact ⟨rfl, rfl⟩

/-- **A product of 26 octades** is rounded. -/
lemma settleProduct_normal (hs : s.1 < 2 ^ 39) (hs' : s.2 < 2 ^ 39) (h : 2 ^ 75 ≤ wide s) : ∃ t : ℕ × ℕ,
    settleProduct ncsf sign s ld e = (⟨pack sign e t.1, t.2⟩, exponentFlags ncsf e) ∧ t.1 < 2 ^ 39 ∧ t.2 < 2 ^ 39 ∧
      (wide t = wide s ∨ wide t = wide s + 1) := by
  have hlt := wide_lt hs hs'
  obtain ⟨hlow, hround⟩ := roundPair_eq hs' ld
  have hnone : ¬ s.1 &&& expo ≠ 0 := (carry_test hs').not.mpr (by lia)
  rw [settleProduct, if_neg hnone]
  dsimp only
  rw [if_neg ((wide_norm hs hs').not.mpr (by omega))]
  have hparts := wide_parts hlow
  refine ⟨_, rfl, ?_, hlow, ?_⟩
  · rw [hparts.1, hround]
    split_ifs with hup
    · have hfull := hup.2.1
      lia
    · lia
  · rw [hround]
    split_ifs
    · exact .inr rfl
    · exact .inl (Nat.add_zero _)

/-- **A product of 25 octades** is shifted. -/
lemma settleProduct_small (hs : s.1 < 2 ^ 39) (hs' : s.2 < 2 ^ 39) (h : wide s < 2 ^ 75) (hld : ld < 16) : ∃ t : ℕ × ℕ,
    settleProduct ncsf sign s ld e = (⟨pack sign (e - 1) t.1, t.2⟩, exponentFlags ncsf (e - 1)) ∧ t.1 < 2 ^ 39 ∧ t.2 < 2 ^ 39 ∧
      wide t + (if wide s % 2 ^ 36 = 2 ^ 36 - 1 ∧ 8 ≤ ld then 2 ^ 39 else 0) = 8 * wide s + ld := by
  have hnone : ¬ s.1 &&& expo ≠ 0 := (carry_test hs').not.mpr (by lia)
  obtain ⟨hhigh, hlow, hwide⟩ := shift_sum hs' (show s.1 < 2 ^ 36 by rw [wide] at h; omega) hld
  rw [settleProduct, if_neg hnone]
  dsimp only
  rw [if_pos ((wide_norm hs hs').mpr h)]
  dsimp only
  refine ⟨_, ?_, hhigh, hlow, hwide⟩
  rw [roundPair, if_neg fun hup ↦ absurd hup.1 (by norm_num)]

/-! ### The operands -/

namespace Double

/-- The mantissa of an operand after its shifts, and its exponent then. -/
def lifted (d : Double) : ℕ := wide d.digits * 8 ^ lift (wide d.digits) 13
def scale (d : Double) : ℤ := exponent d.high - lift (wide d.digits) 13

end Double

variable {a b d : Double}

lemma lifted_lt (d : Double) : d.lifted < 2 ^ 78 := (lift_spec (wide_digits_lt d) 13).2.1

lemma lifted_value (d : Double) : d.value = sgn (negative d.high) * (d.lifted * 8 ^ (d.scale - 13)) := by
  have hpow : (8 : ℚ) ^ (exponent d.high - 13) = 8 ^ lift (wide d.digits) 13 * 8 ^ (d.scale - 13) := by
    rw [← zpow_natCast, ← zpow_add₀ (by norm_num), Double.scale]
    congr 1
    ring
  rw [Double.value, hpow, Double.lifted, sgn]
  push_cast
  ring

lemma lifted_pos (hd : wide d.digits ≠ 0) : 0 < d.lifted := Nat.mul_pos (Nat.pos_of_ne_zero hd) (by positivity)

/-- The registers of an operand after its shifts. -/
lemma shiftUp_digits (d : Double) : ∃ p : ℕ × ℕ, shiftUp 13 d.digits (exponent d.high) 0 = (p, d.scale, lift (wide d.digits) 13) ∧
    wide p = d.lifted ∧ p.1 < 2 ^ 39 ∧ p.2 < 2 ^ 39 := by
  obtain ⟨p, hrun, hwide, hhigh, hlow⟩ := shiftUp_spec (digits_lt d).1 (digits_lt d).2 13 (exponent d.high) 0
  rw [Nat.zero_add] at hrun
  exact ⟨p, hrun, hwide, hhigh, hlow⟩

/-- Registers that are zero. -/
lemma wide_zero_iff (p : ℕ × ℕ) : p.2 = 0 ∧ p.1 = 0 ↔ wide p = 0 := by
  rw [wide]
  lia

/-- The multiplication up to the sum. -/
lemma doubleMult_sum (ha : wide a.digits ≠ 0) (hb : wide b.digits ≠ 0) (ncsf : Bool) : ∃ s : ℕ × ℕ, s.1 < 2 ^ 39 ∧ s.2 < 2 ^ 39 ∧
    wide s = crossHigh a.lifted b.lifted ∧ doubleMult ncsf a b =
      settleProduct ncsf (negative a.high != negative b.high) s (crossLow a.lifted b.lifted / 2 ^ 36) (b.scale + (a.scale + 13)) := by
  obtain ⟨p, hp, hpwide, hp1, hp2⟩ := shiftUp_digits a
  obtain ⟨q, hq, hqwide, hq1, hq2⟩ := shiftUp_digits b
  have hpos := lifted_pos ha
  have hpos' := lifted_pos hb
  obtain ⟨s, hsum, hwide, hlow⟩ := crossSum_spec hp1 hp2 hq1 hq2
  rw [hpwide, hqwide] at hsum hwide
  have hlt := crossHigh_lt (lifted_lt a) (lifted_lt b)
  refine ⟨s, ?_, hlow, hwide, ?_⟩
  · rw [(wide_parts hlow).1, hwide]
    lia
  · rw [doubleMult, hq]
    dsimp only
    rw [hp]
    dsimp only
    rw [if_neg (by rw [wide_zero_iff, wide_zero_iff, hpwide, hqwide]; omega), hsum]

/-- The carry out of the second register that is lost. -/
def CarryLost (a b : Double) : Prop :=
  crossHigh a.lifted b.lifted < 2 ^ 75 ∧ crossHigh a.lifted b.lifted % 2 ^ 36 = 2 ^ 36 - 1 ∧ 2 ^ 39 ≤ crossLow a.lifted b.lifted

/-- The exponent of a product. -/
def productExponent (a b : Double) : ℤ := b.scale + (a.scale + 13) - if crossHigh a.lifted b.lifted < 2 ^ 75 then 1 else 0

/-! ### The exact product -/

/-- What the result of an operation is to be: less than 16 units of its last octade away from a number. -/
def CloseTo (T : ℚ) (r : Double) : Prop := |r.value - T| < 16 * r.unit

/-- The same in units of the last octade. -/
lemma closeTo_iff {r : Double} {T v w V : ℚ} (hV : 0 < V) (hr : r.value = sgn sign * (v * V)) (hT : T = sgn sign * (w * V))
    (hunit : r.unit = V) : CloseTo T r ↔ |v - w| < 16 := by
  rw [CloseTo, hr, hT, hunit, ← mul_sub, ← sub_mul, abs_mul, abs_mul, sgn_abs, one_mul, abs_of_pos hV, mul_lt_mul_iff_left₀ hV]

lemma sgn_mul (s t : Bool) : sgn s * sgn t = sgn (s != t) := by
  cases s <;> cases t <;> simp [sgn]

/-- What the product has beyond the sum of the halves. -/
def beyond (m n : ℕ) : ℚ := (crossLow m n * 2 ^ 39 + m % 2 ^ 39 * (n % 2 ^ 39) : ℕ) / 2 ^ 78

/-- The exact product. -/
lemma product_value (a b : Double) : a.value * b.value = sgn (negative a.high != negative b.high) *
    ((crossHigh a.lifted b.lifted + beyond a.lifted b.lifted) * 8 ^ (b.scale + (a.scale + 13) - 13)) := by
  have hsum : ((a.lifted : ℚ) * b.lifted) = (crossHigh a.lifted b.lifted + beyond a.lifted b.lifted) * 8 ^ (26 : ℤ) := by
    rw [beyond]
    have hcast : ((a.lifted * b.lifted : ℕ) : ℚ) = (crossHigh a.lifted b.lifted : ℕ) * 2 ^ 78 +
        (crossLow a.lifted b.lifted * 2 ^ 39 + a.lifted % 2 ^ 39 * (b.lifted % 2 ^ 39) : ℕ) := by
      exact_mod_cast (cross_product a.lifted b.lifted).trans (Nat.add_assoc _ _ _)
    rw [← Nat.cast_mul, hcast, show (8 : ℚ) ^ (26 : ℤ) = 2 ^ 78 by norm_num, add_mul, div_mul_cancel₀ _ (by norm_num)]
  have hpow : (8 : ℚ) ^ (a.scale - 13) * 8 ^ (b.scale - 13) * 8 ^ (26 : ℤ) = 8 ^ (b.scale + (a.scale + 13) - 13) := by
    rw [← zpow_add₀ (by norm_num), ← zpow_add₀ (by norm_num)]
    congr 1
    ring
  rw [lifted_value a, lifted_value b, ← sgn_mul, ← hpow]
  calc _ = sgn (negative a.high) * sgn (negative b.high) * ((a.lifted : ℚ) * b.lifted * (8 ^ (a.scale - 13) * 8 ^ (b.scale - 13))) := by ring
    _ = _ := by
        rw [hsum]
        ring

/-- It is less than three, and the first octade of its rest is what is added to the product. -/
lemma beyond_range (m n : ℕ) : 0 ≤ beyond m n ∧ beyond m n < 3 ∧ (crossLow m n / 2 ^ 36 : ℕ) ≤ 8 * beyond m n ∧
    8 * beyond m n < (crossLow m n / 2 ^ 36 : ℕ) + 9 := by
  have hlow := crossLow_lt m n
  have hprod : m % 2 ^ 39 * (n % 2 ^ 39) < 2 ^ 39 * 2 ^ 39 := Nat.mul_lt_mul'' (Nat.mod_lt _ (by norm_num)) (Nat.mod_lt _ (by norm_num))
  rw [beyond]
  generalize m % 2 ^ 39 * (n % 2 ^ 39) = t at *
  generalize crossLow m n = c at *
  have hfirst : c / 2 ^ 36 * 2 ^ 36 ≤ c := Nat.div_mul_le_self c _
  have hlast : c < (c / 2 ^ 36 + 1) * 2 ^ 36 := by omega
  generalize c / 2 ^ 36 = d at *
  have hrest : c * 2 ^ 39 + t < 3 * 2 ^ 78 ∧ d * 2 ^ 75 ≤ c * 2 ^ 39 + t ∧ c * 2 ^ 39 + t < (d + 9) * 2 ^ 75 := by
    refine ⟨?_, ?_, ?_⟩ <;> linarith
  generalize c * 2 ^ 39 + t = u at *
  have hthree : (u : ℚ) < 3 * 2 ^ 78 := by exact_mod_cast hrest.1
  have hfirst' : (d : ℚ) * 2 ^ 75 ≤ u := by exact_mod_cast hrest.2.1
  have hlast' : (u : ℚ) < (d + 9) * 2 ^ 75 := by exact_mod_cast hrest.2.2
  refine ⟨by positivity, ?_, ?_, ?_⟩ <;> linarith

/-- **The multiplication**: the result is less than 16 units of its last octade away from the product, exactly where no carry is lost. -/
theorem doubleMult_iff (ha : wide a.digits ≠ 0) (hb : wide b.digits ≠ 0) (hlow : -63 ≤ productExponent a b)
    (hhigh : productExponent a b ≤ 63) (ncsf : Bool) :
    CloseTo (a.value * b.value) (doubleMult ncsf a b).1 ↔ ¬ CarryLost a b := by
  obtain ⟨s, hs, hs', hwide, hrun⟩ := doubleMult_sum ha hb ncsf
  obtain ⟨hzero, hthree, hge, hlt⟩ := beyond_range a.lifted b.lifted
  have hcross := crossLow_lt a.lifted b.lifted
  have hvalue := product_value a b
  rw [hrun]
  rw [productExponent] at hlow hhigh
  rw [CarryLost]
  generalize b.scale + (a.scale + 13) = e at *
  generalize crossHigh a.lifted b.lifted = w at *
  generalize beyond a.lifted b.lifted = z at *
  generalize crossLow a.lifted b.lifted = c at *
  by_cases hsmall : w < 2 ^ 75
  · rw [if_pos hsmall] at hlow hhigh
    obtain ⟨t, hfinal, ht, ht', hsum⟩ := @settleProduct_small s e (c / 2 ^ 36) (negative a.high != negative b.high) ncsf hs hs'
      (by rwa [hwide]) (by omega)
    obtain ⟨hpack, hunit⟩ := double_pack ht ht' hlow hhigh (negative a.high != negative b.high)
    have hscale : (w + z) * (8 : ℚ) ^ (e - 13) = 8 * (w + z) * 8 ^ (e - 1 - 13) := by
      rw [show e - 13 = e - 1 - 13 + 1 by ring, zpow_add_one₀ (by norm_num)]
      ring
    rw [hscale] at hvalue
    rw [hfinal]
    dsimp only
    rw [closeTo_iff (by positivity) hpack hvalue hunit, and_iff_right hsmall]
    rw [hwide] at hsum
    rw [show 2 ^ 39 ≤ c ↔ 8 ≤ c / 2 ^ 36 by lia]
    by_cases hlost : w % 2 ^ 36 = 2 ^ 36 - 1 ∧ 8 ≤ c / 2 ^ 36
    · rw [if_pos hlost] at hsum
      have hsum' : (wide t : ℚ) + 2 ^ 39 = 8 * w + (c / 2 ^ 36 : ℕ) := by exact_mod_cast hsum
      refine iff_of_false (fun hclose ↦ ?_) (not_not.mpr hlost)
      have := (abs_lt.mp hclose).1
      linarith
    · rw [if_neg hlost, Nat.add_zero] at hsum
      have hsum' : (wide t : ℚ) = 8 * w + (c / 2 ^ 36 : ℕ) := by exact_mod_cast hsum
      refine iff_of_true ?_ hlost
      rw [hsum', abs_lt]
      constructor <;> linarith
  · rw [if_neg hsmall, sub_zero] at hlow hhigh
    obtain ⟨t, hfinal, ht, ht', hround⟩ := @settleProduct_normal s e (c / 2 ^ 36) (negative a.high != negative b.high) ncsf hs hs'
      (by rw [hwide]; omega)
    obtain ⟨hpack, hunit⟩ := double_pack ht ht' hlow hhigh (negative a.high != negative b.high)
    rw [hfinal]
    dsimp only
    rw [closeTo_iff (by positivity) hpack hvalue hunit]
    refine iff_of_true ?_ fun hlost ↦ hsmall hlost.1
    rw [hwide] at hround
    rw [abs_lt]
    rcases hround with hsame | hup
    · rw [hsame]
      constructor <;> linarith
    · rw [hup]
      push_cast
      constructor <;> linarith

end Ka10Simh.B5500
