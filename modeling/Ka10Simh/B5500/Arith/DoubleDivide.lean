import Ka10Simh.B5500.Arith.DoubleMultiply
import Ka10Simh.B5500.Arith.Divide

/-!
The division of numbers of two words.

* `doubleDivide`: the operator `DLD`.
* `divideTurns_eq`: the quotient of a single precision division, one octade at a time.
* `doubleDivide_eq`: the three divisions of the operator, and what is made of them.
* `doubleDivide_iff`: where the result is less than 16 units away from the quotient.
* `doubleOperators_iff`: the multiplication and the division.
-/

namespace Ka10Simh.B5500

open Word

/-! ### The source -/

/-- The turns of a division: an octade of the quotient, which is counted in an `int`, and the shifts. -/
def divideTurns (a : ℕ) : ℕ → ℕ → ℕ → Option (ℕ × ℕ)
  | 0, b, x => some (b, x)
  | k + 1, b, x => do
      let (q, b) ← quotientDigit a (2 ^ 31) 0 b
      divideTurns a k (octadeUp b) ((octadeUp x + q) % 2 ^ 64)

/-- `DLD`, with the operand `a` in `A` and `Y`, and `b` in `B` and `X`. The multiplication at its end takes the next number from the
stack, `below`. -/
def doubleDivide (ncsf : Bool) (a b below : Double) : Option (Double × List ℕ) :=
  let (p, ea, _) := shiftUp 13 a.digits (exponent a.high) 0
  let (q, eb, n) := shiftUp 13 b.digits (exponent b.high) 0
  if q.1 = 0 ∧ q.2 = 0 then some (⟨0, q.1⟩, [])
  else if p.1 = 0 ∧ p.2 = 0 then some (⟨q.1, q.2⟩, if ncsf then [divZero] else [])
  else do
    -- `do … while (n < 13)`, with the count of the shifts: there is one turn at least
    let turns := 12 - n + 1
    let e := eb - ea + 1 - turns
    let (r, x) ← divideTurns p.1 turns q.1 q.2
    let high := pack (negative a.high != negative b.high) e x
    let (_, low) ← divideTurns p.1 13 r 0
    let (_, rest) ← divideTurns p.1 13 p.2 0
    if rest = 0 then some (⟨high, low⟩, exponentFlags ncsf e)
    else
      let (d, flags) := doubleMult ncsf ⟨0o1157777777777777, high⟩ below
      some (d, exponentFlags ncsf e ++ flags)

/-! ### The turns -/

variable {a b d below : Double} {k m n x y : ℕ} {e : ℤ} {ncsf sign : Bool}

/-- A digit of the quotient that is not less than the count. -/
lemma quotientDigit_none (h : m * k ≤ n) (q : ℕ) : quotientDigit m k q n = none := by
  induction k generalizing q n with
  | zero => rfl
  | succ k ih =>
      rw [Nat.mul_succ] at h
      rw [quotientDigit, if_pos (by omega), ih (by omega)]

/-- **The quotient**, one octade at a time. -/
theorem divideTurns_eq (hm : 0 < m) (hm' : m < 2 ^ 39) (h : n < m * 2 ^ 31) (k x : ℕ) :
    divideTurns m (k + 1) n x = some (8 * (n * 8 ^ k % m), (x * 8 ^ (k + 1) + n * 8 ^ k / m) % 2 ^ 64) := by
  have hturn (k n x : ℕ) (h : n < m * 2 ^ 31) :
      divideTurns m (k + 1) n x = divideTurns m k (8 * (n % m)) ((8 * x + n / m) % 2 ^ 64) := by
    have hrest : n % m < m := Nat.mod_lt _ hm
    rw [divideTurns, quotientDigit_spec hm h, Option.bind_eq_bind, Option.bind_some]
    dsimp only
    rw [@octadeUp_eq (n % m) (by omega), octadeUp, Nat.zero_add, Nat.shiftLeft_eq, Nat.mod_add_mod, mul_comm x]
  induction k generalizing n x with
  | zero =>
      rw [hturn 0 n x h, divideTurns, pow_zero, mul_one, zero_add, pow_one, mul_comm x]
  | succ k ih =>
      have hrest : n % m < m := Nat.mod_lt _ hm
      have hmod : 8 * (n % m) * 8 ^ k % m = n * 8 ^ (k + 1) % m := by
        rw [show 8 * (n % m) * 8 ^ k = n % m * 8 ^ (k + 1) by ring, Nat.mod_mul_mod]
      have hdiv : n * 8 ^ (k + 1) / m = n / m * 8 ^ (k + 1) + 8 * (n % m) * 8 ^ k / m := by
        have hsplit : n * 8 ^ (k + 1) = 8 * (n % m) * 8 ^ k + m * (n / m * 8 ^ (k + 1)) := by
          conv_lhs => rw [← Nat.div_add_mod n m]
          ring
        rw [hsplit, Nat.add_mul_div_left _ _ hm, Nat.add_comm]
      rw [hturn (k + 1) n x h, ih (show 8 * (n % m) < m * 2 ^ 31 by omega), hmod, hdiv, Nat.add_mod, Nat.mod_mul_mod, ← Nat.add_mod]
      congr 3
      ring

/-- A quotient of which the first digit is too large. -/
lemma divideTurns_none (h : m * 2 ^ 31 ≤ n) (k x : ℕ) : divideTurns m (k + 1) n x = none := by
  rw [divideTurns, quotientDigit_none h]
  rfl

/-! ### The three divisions -/

namespace Double

/-- The registers of an operand after its shifts. -/
def upper (d : Double) : ℕ := d.lifted / 2 ^ 39
def lower (d : Double) : ℕ := d.lifted % 2 ^ 39

/-- The turns of the first division after the first one. -/
def spare (d : Double) : ℕ := 12 - lift (wide d.digits) 13

end Double

lemma upper_lower (d : Double) : d.lifted = d.upper * 2 ^ 39 + d.lower := (Nat.div_add_mod' _ _).symm

lemma lower_lt (d : Double) : d.lower < 2 ^ 39 := Nat.mod_lt _ (by norm_num)

lemma upper_lt (d : Double) : d.upper < 2 ^ 39 := by
  have hlt := lifted_lt d
  rw [upper_lower] at hlt
  omega

/-- An operand of which the first octade is zero after the shifts has nothing in the second register. -/
lemma lower_zero (h : d.upper < 2 ^ 36) : d.lower = 0 := by
  have hsmall : d.lifted < 2 ^ 75 := by
    have hlow := lower_lt d
    rw [upper_lower]
    omega
  have hall : lift (wide d.digits) 13 = 13 := (lift_spec (wide_digits_lt d) 13).2.2.resolve_right (not_le.mpr hsmall)
  rw [Double.lower, Double.lifted, hall]
  exact Nat.mul_mod_left _ _

lemma upper_pos (hd : wide d.digits ≠ 0) : 0 < d.upper := by
  have hpos := lifted_pos hd
  by_contra hzero
  have hlow := lower_zero (show d.upper < 2 ^ 36 by omega)
  rw [upper_lower] at hpos
  omega

/-- What is left of the second register of the dividend after the turns is beyond the quotient. -/
lemma lower_turns (d : Double) : d.lower * 8 ^ (d.spare + 1) % 2 ^ 39 = 0 := by
  have hle := (lift_spec (wide_digits_lt d) 13).1
  have hsum : lift (wide d.digits) 13 + (d.spare + 1) = 13 + (lift (wide d.digits) 13 + (d.spare + 1) - 13) := by
    rw [Double.spare]
    omega
  rw [Double.lower, Nat.mod_mul_mod, Double.lifted, mul_assoc, ← pow_add, hsum, pow_add, mul_left_comm]
  exact Nat.mul_mod_right _ _

lemma pack_mod (sign : Bool) (e : ℤ) (m : ℕ) : pack sign e m = pack sign e (m % 2 ^ 39) := by
  rw [pack, pack, and_mant_eq, and_mant_eq, Nat.mod_mod]

/-- The exponent of the quotient, its two words, and the quotient that asks for a correction. -/
def quotientExponent (a b : Double) : ℤ := b.scale - a.scale + 1 - (b.spare + 1 : ℕ)
def highDigits (a b : Double) : ℕ := b.upper * 8 ^ b.spare / a.upper
def lowDigits (a b : Double) : ℕ := b.upper * 8 ^ b.spare % a.upper * 2 ^ 39 / a.upper
def correction (a : Double) : ℕ := a.lower * 8 ^ 12 / a.upper

/-- The first word of the quotient. -/
def quotientWord (a b : Double) : ℕ := pack (negative a.high != negative b.high) (quotientExponent a b) (highDigits a b % 2 ^ 39)

lemma lowDigits_lt (ha : wide a.digits ≠ 0) (b : Double) : lowDigits a b < 2 ^ 39 := by
  have hpos := upper_pos ha
  rw [lowDigits, Nat.div_lt_iff_lt_mul hpos, mul_comm]
  exact Nat.mul_lt_mul_of_pos_left (Nat.mod_lt _ hpos) (by norm_num)

/-- **The division**: an `int` is too small for its first digit, or there is no correction, or the correction multiplies with what is next
on the stack. -/
theorem doubleDivide_eq (ha : wide a.digits ≠ 0) (hb : wide b.digits ≠ 0) (ncsf : Bool) (below : Double) :
    doubleDivide ncsf a b below =
      if b.upper < a.upper * 2 ^ 31 then
        if correction a = 0 then some (⟨quotientWord a b, lowDigits a b⟩, exponentFlags ncsf (quotientExponent a b))
        else some ((doubleMult ncsf ⟨0o1157777777777777, quotientWord a b⟩ below).1,
          exponentFlags ncsf (quotientExponent a b) ++ (doubleMult ncsf ⟨0o1157777777777777, quotientWord a b⟩ below).2)
      else none := by
  obtain ⟨p, hp, hpwide, hp1, hp2⟩ := shiftUp_digits a
  obtain ⟨q, hq, hqwide, hq1, hq2⟩ := shiftUp_digits b
  obtain ⟨hA, hY⟩ := wide_parts hp2
  obtain ⟨hB, hX⟩ := wide_parts hq2
  rw [hpwide] at hA hY
  rw [hqwide] at hB hX
  have hApos : 0 < a.upper := upper_pos ha
  have hBpos : 0 < b.upper := upper_pos hb
  rw [doubleDivide, hp]
  dsimp only
  rw [hq]
  dsimp only
  rw [hA, hY, hB, hX, ← Double.upper, ← Double.lower, ← Double.upper, ← Double.lower, if_neg fun h ↦ hBpos.ne' h.1,
    if_neg fun h ↦ hApos.ne' h.1, ← Double.spare]
  by_cases hfits : b.upper < a.upper * 2 ^ 31
  · have hrest : b.upper * 8 ^ b.spare % a.upper < a.upper := Nat.mod_lt _ hApos
    have hYlt : a.lower < a.upper * 8 := by
      have hlow := lower_lt a
      by_cases hsmall : a.upper < 2 ^ 36
      · rw [lower_zero hsmall]
        lia
      · lia
    have hlow : (0 * 8 ^ (12 + 1) + 8 * (b.upper * 8 ^ b.spare % a.upper) * 8 ^ 12 / a.upper) % 2 ^ 64 = lowDigits a b := by
      have hlt := lowDigits_lt ha b
      rw [Nat.zero_mul, Nat.zero_add, show 8 * (b.upper * 8 ^ b.spare % a.upper) * 8 ^ 12 = b.upper * 8 ^ b.spare % a.upper * 2 ^ 39 by ring,
        ← lowDigits, Nat.mod_eq_of_lt (by omega)]
    have hcorr : (0 * 8 ^ (12 + 1) + a.lower * 8 ^ 12 / a.upper) % 2 ^ 64 = correction a := by
      have hlt : a.lower * 8 ^ 12 / a.upper < 2 ^ 39 := by
        rw [Nat.div_lt_iff_lt_mul hApos]
        lia
      rw [Nat.zero_mul, Nat.zero_add, ← correction, Nat.mod_eq_of_lt (by rw [correction]; omega)]
    have hhigh : pack (negative a.high != negative b.high) (b.scale - a.scale + 1 - (b.spare + 1 : ℕ))
        ((b.lower * 8 ^ (b.spare + 1) + b.upper * 8 ^ b.spare / a.upper) % 2 ^ 64) = quotientWord a b := by
      have hdvd : 2 ^ 39 ∣ 2 ^ 64 := pow_dvd_pow 2 (by norm_num)
      rw [pack_mod, quotientWord, quotientExponent, highDigits, Nat.mod_mod_of_dvd _ hdvd, Nat.add_mod, lower_turns, Nat.zero_add, Nat.mod_mod]
    rw [if_pos hfits, divideTurns_eq hApos (upper_lt a) hfits, Option.bind_eq_bind, Option.bind_some]
    dsimp only
    rw [divideTurns_eq hApos (upper_lt a) (by lia) 12, Option.bind_some]
    dsimp only
    rw [divideTurns_eq hApos (upper_lt a) (by lia) 12, Option.bind_some]
    dsimp only
    rw [hlow, hcorr, hhigh]
    rfl
  · rw [if_neg hfits, divideTurns_none (not_lt.mp hfits)]
    rfl

/-! ### The exact quotient -/

/-- The exact quotient. -/
lemma quotient_value (ha : wide a.digits ≠ 0) (b : Double) : b.value / a.value = sgn (negative a.high != negative b.high) *
    ((b.lifted * 8 ^ (b.spare + 13) : ℕ) / a.lifted * 8 ^ (quotientExponent a b - 13)) := by
  have hpos : (0 : ℚ) < a.lifted := by exact_mod_cast lifted_pos ha
  have hpow : (8 : ℚ) ^ (b.scale - 13) = 8 ^ (b.spare + 13) * 8 ^ (quotientExponent a b - 13) * 8 ^ (a.scale - 13) := by
    rw [← zpow_natCast, ← zpow_add₀ (by norm_num), ← zpow_add₀ (by norm_num), quotientExponent]
    congr 1
    push_cast
    ring
  have hsign : sgn (negative b.high) / sgn (negative a.high) = sgn (negative a.high != negative b.high) := by
    cases negative a.high <;> cases negative b.high <;> simp [sgn]
  have hunit : (0 : ℚ) < 8 ^ (a.scale - 13) := by positivity
  rw [lifted_value a, lifted_value b, mul_div_mul_comm, hsign, hpow, Nat.cast_mul, Nat.cast_pow]
  generalize (8 : ℚ) ^ (a.scale - 13) = w at *
  generalize (8 : ℚ) ^ (quotientExponent a b - 13) = v
  rw [← mul_assoc, mul_div_mul_right _ _ hunit.ne', mul_div_right_comm, Nat.cast_ofNat]
  ring

/-- A quotient that is near. -/
lemma near_quotient {f n d : ℕ} (hd : 0 < d) : |(f : ℚ) - n / d| < 16 ↔ f * d < n + 16 * d ∧ n < (f + 16) * d := by
  have hpos : (0 : ℚ) < d := by exact_mod_cast hd
  rw [abs_lt, neg_lt_sub_iff_lt_add, sub_lt_iff_lt_add, div_lt_iff₀ hpos, and_comm, ← Nat.cast_lt (α := ℚ), ← Nat.cast_lt (α := ℚ)]
  push_cast
  refine and_congr ?_ (by rw [add_comm])
  rw [← sub_lt_iff_lt_add', lt_div_iff₀ hpos, sub_mul, sub_lt_iff_lt_add]

section Near

variable {A Y H X : ℕ}

/-- The quotient of the first words is not far above the whole one, when there is no correction. -/
lemma near_above (hY : Y * 8 ^ 12 < A) (hH : H / A < 2 ^ 78) : H / A * (A * 2 ^ 39 + Y) < H * 2 ^ 39 + X + 16 * (A * 2 ^ 39 + Y) := by
  have hle : H / A * A ≤ H := Nat.div_mul_le_self H A
  have hsmall : H / A * Y ≤ 2 ^ 42 * A := by
    refine Nat.le_of_mul_le_mul_right ?_ (show 0 < 8 ^ 12 by norm_num)
    calc H / A * Y * 8 ^ 12 = H / A * (Y * 8 ^ 12) := mul_assoc _ _ _
      _ ≤ 2 ^ 78 * A := Nat.mul_le_mul hH.le hY.le
      _ = 2 ^ 42 * A * 8 ^ 12 := by ring
  have hpos : 0 < A := Nat.zero_lt_of_lt hY
  calc H / A * (A * 2 ^ 39 + Y) = H / A * A * 2 ^ 39 + H / A * Y := by ring
    _ ≤ H * 2 ^ 39 + 2 ^ 42 * A := Nat.add_le_add (Nat.mul_le_mul_right _ hle) hsmall
    _ < _ := by linarith

/-- It is not far below, when the last word of the dividend and the rest of the division do not weigh more than that of the divisor. -/
lemma near_below (hA : 0 < A) : H * 2 ^ 39 + X < (H / A + 16) * (A * 2 ^ 39 + Y) ↔
    X * A + H % A * (A * 2 ^ 39 + Y) < 16 * A * (A * 2 ^ 39 + Y) + H * Y := by
  have hdiv := Nat.div_add_mod H A
  generalize H / A = f at *
  generalize H % A = r at *
  rw [← hdiv, ← Nat.mul_lt_mul_right hA]
  constructor <;> intro h <;> nlinarith

end Near

/-- The operands as they should be: the first digit fits into an `int` and the first quotient into a register, there is no correction, and
what the other words and the rest add to the quotient is less than 16 units. -/
structure CleanQuotient (a b : Double) : Prop where
  digit : b.upper < a.upper * 2 ^ 31
  fits : b.upper * 8 ^ b.spare < a.upper * 2 ^ 39
  divisor : a.lower * 8 ^ 12 < a.upper
  dividend : b.lower * 8 ^ (b.spare + 13) * a.upper + b.upper * 8 ^ (b.spare + 13) % a.upper * a.lifted <
    16 * a.upper * a.lifted + b.upper * 8 ^ (b.spare + 13) * a.lower

/-- The two words of the quotient. -/
lemma digits_joined (ha : wide a.digits ≠ 0) (b : Double) :
    highDigits a b * 2 ^ 39 + lowDigits a b = b.upper * 8 ^ (b.spare + 13) / a.upper := by
  have hsplit : b.upper * 8 ^ (b.spare + 13) =
      b.upper * 8 ^ b.spare % a.upper * 2 ^ 39 + a.upper * (highDigits a b * 2 ^ 39) := by
    have hdiv := Nat.div_add_mod (b.upper * 8 ^ b.spare) a.upper
    rw [highDigits]
    calc b.upper * 8 ^ (b.spare + 13) = b.upper * 8 ^ b.spare * 2 ^ 39 := by ring
      _ = (a.upper * (b.upper * 8 ^ b.spare / a.upper) + b.upper * 8 ^ b.spare % a.upper) * 2 ^ 39 := by rw [hdiv]
      _ = _ := by ring
  rw [hsplit, Nat.add_mul_div_left _ _ (upper_pos ha), lowDigits, Nat.add_comm]

/-- A quotient with more octades than a register has: the divisor has one word only, and what is kept is far below the quotient. -/
lemma register_lost (ha : wide a.digits ≠ 0) (h : 2 ^ 39 ≤ highDigits a b) :
    (highDigits a b % 2 ^ 39 * 2 ^ 39 + lowDigits a b + 16) * a.lifted ≤ b.lifted * 8 ^ (b.spare + 13) := by
  have hA := upper_pos ha
  have hlt := lowDigits_lt ha b
  have hle : highDigits a b * a.upper ≤ b.upper * 8 ^ b.spare := Nat.div_mul_le_self _ _
  have hB := upper_lt b
  have hspare : (8 : ℕ) ^ b.spare ≤ 8 ^ 12 := Nat.pow_le_pow_right (by norm_num) (Nat.sub_le _ _)
  have hone : a.lower = 0 := by
    refine lower_zero ?_
    by_contra hnormal
    have hbig : 2 ^ 39 * 2 ^ 36 ≤ highDigits a b * a.upper := Nat.mul_le_mul h (not_lt.mp hnormal)
    have hsmall : b.upper * 8 ^ b.spare ≤ (2 ^ 39 - 1) * 8 ^ 12 := Nat.mul_le_mul (Nat.le_sub_one_of_lt hB) hspare
    omega
  calc (highDigits a b % 2 ^ 39 * 2 ^ 39 + lowDigits a b + 16) * a.lifted ≤ highDigits a b * 2 ^ 39 * a.lifted :=
        Nat.mul_le_mul_right _ (by lia)
    _ = highDigits a b * a.upper * 2 ^ 39 * 2 ^ 39 := by
        rw [upper_lower, hone]
        ring
    _ ≤ b.upper * 8 ^ b.spare * 2 ^ 39 * 2 ^ 39 := Nat.mul_le_mul_right _ (Nat.mul_le_mul_right _ hle)
    _ ≤ (b.upper * 2 ^ 39 + b.lower) * (8 ^ b.spare * 2 ^ 39) := by
        rw [show b.upper * 8 ^ b.spare * 2 ^ 39 * 2 ^ 39 = b.upper * 2 ^ 39 * (8 ^ b.spare * 2 ^ 39) by ring]
        exact Nat.mul_le_mul_right _ (Nat.le_add_right _ _)
    _ = b.lifted * 8 ^ (b.spare + 13) := by
        rw [← upper_lower]
        ring

/-- **No correction**: the result against the quotient. -/
lemma plain_iff (ha : wide a.digits ≠ 0) (hlow : -63 ≤ quotientExponent a b) (hhigh : quotientExponent a b ≤ 63)
    (hdigit : b.upper < a.upper * 2 ^ 31) (hcorr : correction a = 0) :
    CloseTo (b.value / a.value) ⟨quotientWord a b, lowDigits a b⟩ ↔ CleanQuotient a b := by
  have hA := upper_pos ha
  have hD := lifted_pos ha
  have hlt := lowDigits_lt ha b
  have hjoined := digits_joined ha b
  have hdivisor : a.lower * 8 ^ 12 < a.upper := by
    rw [correction, Nat.div_eq_zero_iff_lt hA] at hcorr
    exact hcorr
  obtain ⟨hpack, hunit⟩ := @double_pack (highDigits a b % 2 ^ 39, lowDigits a b) _ (Nat.mod_lt _ (by norm_num)) hlt hlow hhigh
    (negative a.high != negative b.high)
  dsimp only at hpack hunit
  rw [quotientWord, closeTo_iff (by positivity) hpack (quotient_value ha b) hunit, near_quotient hD]
  have hN : b.lifted * 8 ^ (b.spare + 13) = b.upper * 8 ^ (b.spare + 13) * 2 ^ 39 + b.lower * 8 ^ (b.spare + 13) := by
    rw [upper_lower]
    ring
  have hfits : highDigits a b < 2 ^ 39 ↔ b.upper * 8 ^ b.spare < a.upper * 2 ^ 39 := by
    rw [highDigits, Nat.div_lt_iff_lt_mul hA, mul_comm a.upper]
  rw [wide]
  dsimp only
  by_cases hregister : highDigits a b < 2 ^ 39
  · have habove := @near_above a.upper a.lower (b.upper * 8 ^ (b.spare + 13)) (b.lower * 8 ^ (b.spare + 13)) hdivisor (by lia)
    have hbelow := @near_below a.upper a.lower (b.upper * 8 ^ (b.spare + 13)) (b.lower * 8 ^ (b.spare + 13)) hA
    rw [← hN, ← upper_lower] at habove hbelow
    rw [Nat.mod_eq_of_lt hregister, hjoined, and_iff_right habove, hbelow]
    exact ⟨fun h ↦ ⟨hdigit, hfits.mp hregister, hdivisor, h⟩, CleanQuotient.dividend⟩
  · -- the first octades of the quotient are lost, and the divisor has one word only
    refine iff_of_false (fun hnear ↦ ?_) fun hclean ↦ hregister (hfits.mpr hclean.fits)
    exact absurd hnear.2 (not_lt.mpr (register_lost ha (not_lt.mp hregister)))

/-! ### The correction -/

/-- The number that makes the correction wrong: it is next on the stack, and its sign is not that of the quotient. -/
def against (sign : Bool) : Double := ⟨pack (!sign) 0 (2 ^ 38), 0⟩

/-- An operand with its first octade in its place. -/
lemma lifted_normal (h : 2 ^ 75 ≤ wide d.digits) : d.lifted = wide d.digits ∧ d.scale = exponent d.high := by
  rw [Double.lifted, Double.scale, lift_normal h (wide_digits_lt d), pow_zero, mul_one, Nat.cast_zero, sub_zero]
  exact ⟨rfl, rfl⟩

/-- **The correction**: its result has the sign of what is next on the stack. -/
lemma correction_sign (sign ncsf : Bool) (w : ℕ) : ∃ m : ℕ, 16 ≤ m ∧
    (doubleMult ncsf ⟨0o1157777777777777, w⟩ (against sign)).1.value =
      sgn (!sign) * (m * (doubleMult ncsf ⟨0o1157777777777777, w⟩ (against sign)).1.unit) := by
  have hfactor : negative 0o1157777777777777 = false ∧ exponent 0o1157777777777777 = -13 ∧ mantissa 0o1157777777777777 = 2 ^ 39 - 1 := by
    decide
  obtain ⟨hneg, hexp, hmant⟩ := @pack_parts (!sign) 0 (2 ^ 38) (by norm_num) (by norm_num) (by norm_num)
  have ha : wide (Double.digits ⟨0o1157777777777777, w⟩) = (2 ^ 39 - 1) * 2 ^ 39 + mantissa w := by
    rw [Double.digits, hfactor.2.2, wide]
  have hb : wide (against sign).digits = 2 ^ 77 := by
    rw [Double.digits, against, hmant, wide, mantissa_eq]
    norm_num
  have hw := mantissa_lt w
  obtain ⟨halift, hascale⟩ := lifted_normal (show 2 ^ 75 ≤ wide (Double.digits ⟨0o1157777777777777, w⟩) by omega)
  obtain ⟨hblift, hbscale⟩ := lifted_normal (show 2 ^ 75 ≤ wide (against sign).digits by rw [hb]; norm_num)
  obtain ⟨s, hs, hs', hwide, hrun⟩ := @doubleMult_sum ⟨0o1157777777777777, w⟩ (against sign) (by lia) (by rw [hb]; norm_num) ncsf
  have hlarge : 2 ^ 75 ≤ wide s := by
    have hupper : wide (Double.digits ⟨0o1157777777777777, w⟩) / 2 ^ 39 = 2 ^ 39 - 1 := by lia
    rw [hwide, crossHigh, halift, hblift, hb, hupper]
    norm_num
    lia
  rw [hascale, hbscale, hfactor.1, against, hneg, hexp, hfactor.2.1] at hrun
  obtain ⟨t, hfinal, ht, ht', hround⟩ := @settleProduct_normal s (0 + (-13 + 13))
    (crossLow (Double.lifted ⟨0o1157777777777777, w⟩) (Double.lifted ⟨pack (!sign) 0 (2 ^ 38), 0⟩) / 2 ^ 36) (false != !sign) ncsf hs hs' hlarge
  obtain ⟨hvalue, hunit⟩ := double_pack ht ht' (show -63 ≤ (0 : ℤ) + (-13 + 13) by norm_num) (by norm_num) (false != !sign)
  refine ⟨wide t, by omega, ?_⟩
  rw [against, hrun, hfinal]
  dsimp only
  rw [hvalue, hunit, Bool.false_bne]

/-- A number with the other sign is not near. -/
lemma not_closeTo {r : Double} {T z : ℚ} (hm : 16 ≤ m) (hr : r.value = sgn (!sign) * (m * r.unit)) (hT : T = sgn sign * z) (hz : 0 ≤ z) :
    ¬ CloseTo T r := by
  have hunit : (0 : ℚ) < r.unit := by
    rw [Double.unit]
    positivity
  have hm' : (16 : ℚ) ≤ m := by exact_mod_cast hm
  have hsign : sgn (!sign) = -sgn sign := by
    cases sign <;> norm_num [sgn]
  rw [CloseTo, hr, hT, hsign, show -sgn sign * (m * r.unit) - sgn sign * z = -(sgn sign * (m * r.unit + z)) by ring, abs_neg, abs_mul,
    sgn_abs, one_mul, abs_of_nonneg (by positivity)]
  nlinarith

/-- **The division**: whatever is next on the stack, the result is less than 16 units of its last octade away from the quotient, exactly
for operands that are clean. -/
theorem doubleDivide_iff (ha : wide a.digits ≠ 0) (hb : wide b.digits ≠ 0) (hlow : -63 ≤ quotientExponent a b)
    (hhigh : quotientExponent a b ≤ 63) (ncsf : Bool) :
    (∀ below, ∃ r flags, doubleDivide ncsf a b below = some (r, flags) ∧ CloseTo (b.value / a.value) r) ↔ CleanQuotient a b := by
  by_cases hdigit : b.upper < a.upper * 2 ^ 31
  · by_cases hcorr : correction a = 0
    · rw [← plain_iff ha hlow hhigh hdigit hcorr]
      have hrun (below : Double) : doubleDivide ncsf a b below =
          some (⟨quotientWord a b, lowDigits a b⟩, exponentFlags ncsf (quotientExponent a b)) := by
        rw [doubleDivide_eq ha hb, if_pos hdigit, if_pos hcorr]
      constructor
      · intro h
        obtain ⟨r, flags, hr, hclose⟩ := h ⟨0, 0⟩
        rw [hrun, Option.some_inj, Prod.mk.injEq] at hr
        rw [hr.1]
        exact hclose
      · intro hclose below
        exact ⟨_, _, hrun below, hclose⟩
    · refine iff_of_false (fun h ↦ ?_) fun hclean ↦ hcorr ?_
      · obtain ⟨r, flags, hr, hclose⟩ := h (against (negative a.high != negative b.high))
        rw [doubleDivide_eq ha hb, if_pos hdigit, if_neg hcorr, Option.some_inj, Prod.mk.injEq] at hr
        obtain ⟨rfl, -⟩ := hr
        obtain ⟨m, hm, hvalue⟩ := correction_sign (negative a.high != negative b.high) ncsf (quotientWord a b)
        have hz : (0 : ℚ) ≤ (b.lifted * 8 ^ (b.spare + 13) : ℕ) / a.lifted * 8 ^ (quotientExponent a b - 13) :=
          mul_nonneg (div_nonneg (Nat.cast_nonneg _) (Nat.cast_nonneg _)) (by positivity)
        exact not_closeTo hm hvalue (quotient_value ha b) hz hclose
      · exact Nat.div_eq_of_lt hclean.divisor
  · refine iff_of_false (fun h ↦ ?_) fun hclean ↦ hdigit hclean.digit
    obtain ⟨r, flags, hr, -⟩ := h ⟨0, 0⟩
    rw [doubleDivide_eq ha hb, if_neg hdigit] at hr
    cases hr

/-! ### The operators -/

/-- **The multiplication and the division**, without an exponent overflow: the product is right exactly where no carry is lost, and the
quotient exactly for operands that are clean. The division ends where its first digit fits into an `int`. -/
theorem doubleOperators_iff (ncsf : Bool) (a b : Double) (ha : wide a.digits ≠ 0) (hb : wide b.digits ≠ 0) :
    (-63 ≤ productExponent a b → productExponent a b ≤ 63 →
      (CloseTo (a.value * b.value) (doubleMult ncsf a b).1 ↔ ¬ CarryLost a b)) ∧
    (-63 ≤ quotientExponent a b → quotientExponent a b ≤ 63 →
      ((∀ below, ∃ r flags, doubleDivide ncsf a b below = some (r, flags) ∧ CloseTo (b.value / a.value) r) ↔ CleanQuotient a b)) ∧
    ∀ below, (doubleDivide ncsf a b below).isSome ↔ b.upper < a.upper * 2 ^ 31 := by
  refine ⟨fun hlow hhigh ↦ doubleMult_iff ha hb hlow hhigh ncsf, fun hlow hhigh ↦ doubleDivide_iff ha hb hlow hhigh ncsf,
    fun below ↦ ?_⟩
  rw [doubleDivide_eq ha hb]
  by_cases hdigit : b.upper < a.upper * 2 ^ 31
  · rw [if_pos hdigit]
    refine iff_of_true ?_ hdigit
    split_ifs
    · rfl
    · rfl
  · rw [if_neg hdigit]
    exact iff_of_false Bool.false_ne_true hdigit

/-- Operands with a first octade of one, and `n` in their second words. -/
def normalOne (n : ℕ) : Double := ⟨2 ^ 36, n⟩

lemma normalOne_parts (h : n < 2 ^ 39) : wide (normalOne n).digits = 2 ^ 75 + n ∧ (normalOne n).lifted = 2 ^ 75 + n ∧
    (normalOne n).scale = 0 ∧ (normalOne n).spare = 12 ∧ (normalOne n).upper = 2 ^ 36 ∧ (normalOne n).lower = n := by
  have hwide : wide (normalOne n).digits = 2 ^ 75 + n := by
    rw [normalOne, Double.digits, mantissa_eq, mantissa_eq, Nat.mod_eq_of_lt h, wide]
    norm_num
  have hnormal : 2 ^ 75 ≤ wide (normalOne n).digits := by omega
  obtain ⟨hlift, hscale⟩ := lifted_normal hnormal
  have hspare : (normalOne n).spare = 12 := by
    rw [Double.spare, lift_normal hnormal (wide_digits_lt _)]
  rw [hwide] at hlift
  refine ⟨hwide, hlift, ?_, hspare, ?_, ?_⟩
  · have hexp : exponent (2 ^ 36) = 0 := by decide
    rw [hscale, normalOne, hexp]
  · rw [Double.upper, hlift]
    lia
  · rw [Double.lower, hlift]
    lia

theorem doubleOperators_iff_one : CloseTo ((normalOne 0).value * (normalOne 0).value) (doubleMult true (normalOne 0) (normalOne 0)).1 ∧
    ∀ below, ∃ r flags, doubleDivide true (normalOne 0) (normalOne 0) below = some (r, flags) ∧
      CloseTo ((normalOne 0).value / (normalOne 0).value) r := by
  obtain ⟨hwide, hlift, hscale, hspare, hupper, hlower⟩ := @normalOne_parts 0 (by norm_num)
  have hnonzero : wide (normalOne 0).digits ≠ 0 := by rw [hwide]; norm_num
  obtain ⟨hmult, hdivide, -⟩ := doubleOperators_iff true (normalOne 0) (normalOne 0) hnonzero hnonzero
  have hproduct : productExponent (normalOne 0) (normalOne 0) = 12 := by
    rw [productExponent, hscale, hlift, if_pos (by decide)]
    norm_num
  have hquotient : quotientExponent (normalOne 0) (normalOne 0) = -12 := by
    rw [quotientExponent, hscale, hspare]
    norm_num
  refine ⟨(hmult (by rw [hproduct]; norm_num) (by rw [hproduct]; norm_num)).mpr fun hlost ↦ ?_,
    (hdivide (by rw [hquotient]; norm_num) (by rw [hquotient]; norm_num)).mpr ?_⟩
  · rw [CarryLost, hlift] at hlost
    exact absurd hlost.2.2 (by decide)
  · constructor
    · rw [hupper]
      norm_num
    · rw [hupper, hspare]
      norm_num
    · rw [hupper, hlower]
      norm_num
    · rw [hupper, hlower, hspare, hlift]
      norm_num

/-- Operands of which the product loses a carry and the quotient is corrected. -/
theorem low_words : wide (normalOne 1).digits ≠ 0 ∧ wide (normalOne mant).digits ≠ 0 ∧
    -63 ≤ productExponent (normalOne 1) (normalOne mant) ∧ productExponent (normalOne 1) (normalOne mant) ≤ 63 ∧
    -63 ≤ quotientExponent (normalOne 1) (normalOne mant) ∧ quotientExponent (normalOne 1) (normalOne mant) ≤ 63 ∧
    ¬ CloseTo ((normalOne 1).value * (normalOne mant).value) (doubleMult true (normalOne 1) (normalOne mant)).1 ∧
    ¬ ∀ below, ∃ r flags, doubleDivide true (normalOne 1) (normalOne mant) below = some (r, flags) ∧
      CloseTo ((normalOne mant).value / (normalOne 1).value) r := by
  obtain ⟨hwide, hlift, hscale, hspare, hupper, hlower⟩ := @normalOne_parts 1 (by norm_num)
  obtain ⟨hwide', hlift', hscale', hspare', hupper', hlower'⟩ := @normalOne_parts mant (by norm_num)
  have hnonzero : wide (normalOne 1).digits ≠ 0 := by rw [hwide]; norm_num
  have hnonzero' : wide (normalOne mant).digits ≠ 0 := by rw [hwide']; norm_num
  have hproduct : productExponent (normalOne 1) (normalOne mant) = 12 := by
    rw [productExponent, hscale, hscale', hlift, hlift', if_pos (by decide)]
    norm_num
  have hquotient : quotientExponent (normalOne 1) (normalOne mant) = -12 := by
    rw [quotientExponent, hscale, hscale', hspare']
    norm_num
  rw [doubleMult_iff hnonzero hnonzero' (by rw [hproduct]; norm_num) (by rw [hproduct]; norm_num),
    doubleDivide_iff hnonzero hnonzero' (by rw [hquotient]; norm_num) (by rw [hquotient]; norm_num), hproduct, hquotient, not_not]
  refine ⟨hnonzero, hnonzero', by norm_num, by norm_num, by norm_num, by norm_num, ?_, fun hclean ↦ ?_⟩
  · rw [CarryLost, hlift, hlift']
    decide
  · have hdivisor := hclean.divisor
    rw [hupper, hlower] at hdivisor
    norm_num at hdivisor

end Ka10Simh.B5500
