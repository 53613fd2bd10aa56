import Ka10Simh.Sel32.Float.Convert

/-!
Results of floating point operations near the exact value.

* `unit`: the unit of the last digit of a mantissa.
* `Near`: a mantissa near a value, such that no other number is nearer than the value can be.
* `Near.exact`, `Near.range`: such a mantissa is exact when it can be, and its exponent is one of a number.
* `InRange`, `Delivered`: values without overflow and underflow, and what is to be delivered for them.
* `Near.delivered`: a number with such a mantissa.
* `normf_number`: normalized numbers stay.
-/

namespace Ka10Simh.Sel32

variable {f m : ℕ} {z x : ℚ} {j k e : ℤ}

/-! ### Units -/

/-- The unit of the last digit of a mantissa of `f` bits, with the exponent `k`. -/
def unit (f : ℕ) (k : ℤ) : ℚ := 16 ^ (k - 64) / 2 ^ f

lemma unit_pos (f : ℕ) (k : ℤ) : 0 < unit f k := by
  rw [unit]
  positivity

lemma unit_add (f : ℕ) (k j : ℤ) : unit f (k + j) = 16 ^ j * unit f k := by
  rw [unit, unit, show k + j - 64 = j + (k - 64) by ring, zpow_add₀ (by norm_num), mul_div_assoc]

lemma unit_mono (f : ℕ) {k k' : ℤ} (h : k ≤ k') : unit f k ≤ unit f k' := by
  rw [unit, unit]
  gcongr
  norm_num

lemma Number.value_eq (n : Number f) : n.value = (if n.neg then -1 else 1) * (n.frac * unit f n.exp) := by
  rw [Number.value, unit]
  ring

/-- The absolute value of a number. -/
lemma Number.abs_value (n : Number f) : |n.value| = n.frac * unit f n.exp := by
  have hpos : 0 ≤ n.frac * unit f n.exp := mul_nonneg (Nat.cast_nonneg _) (unit_pos f n.exp).le
  rw [n.value_eq, abs_mul, abs_of_nonneg hpos]
  cases n.neg <;> simp

lemma pow_top (hf : 4 ≤ f) : (2 : ℚ) ^ f = 16 * 2 ^ (f - 4) := by
  exact_mod_cast pow_digit hf

/-! ### Near mantissas -/

/-- The mantissa `m` of the unit `16 ^ j` is near `z`. When `z` is below all mantissas of this unit, it is above all of
the next smaller unit. -/
structure Near (f : ℕ) (z : ℚ) (j : ℤ) (m : ℕ) : Prop where
  low : 2 ^ (f - 4) ≤ m
  high : m < 2 ^ f
  near : |m * 16 ^ j - z| < 16 ^ j
  below : z < 2 ^ (f - 4) * 16 ^ j → 2 ^ (f - 4) * 16 ^ j - z < 16 ^ (j - 1)

lemma pow_unit (j : ℤ) : (16 : ℚ) ^ j = 16 * 16 ^ (j - 1) := by
  rw [← zpow_one_add₀ (by norm_num)]
  congr 1
  ring

/-- **A value that is a mantissa of some unit is the near one.** -/
theorem Near.exact (h : Near f z j m) (hf : 4 ≤ f) {w : ℕ} {q : ℤ} (hw : w < 2 ^ f) (hz : z = w * 16 ^ q) :
    z = m * 16 ^ j := by
  rcases le_or_gt j q with hle | hlt
  · obtain ⟨d, rfl⟩ := Int.le.dest hle
    have hpos : (0 : ℚ) < 16 ^ j := by positivity
    have hmul : z = (w * 16 ^ d : ℕ) * 16 ^ j := by
      rw [hz, zpow_add₀ (by norm_num)]
      push_cast
      rw [zpow_natCast]
      ring
    have hnear := h.near
    rw [hmul, ← sub_mul, abs_mul, abs_of_pos hpos, mul_lt_iff_lt_one_left hpos] at hnear
    have hint : |(m : ℤ) - (w * 16 ^ d : ℕ)| < 1 := by exact_mod_cast hnear
    rw [Int.abs_lt_one_iff, sub_eq_zero] at hint
    rw [hmul]
    exact_mod_cast congrArg (fun i : ℤ ↦ (i : ℚ) * 16 ^ j) hint.symm
  · -- all mantissas of smaller units are too small
    have hstep : (16 : ℚ) ^ q ≤ 16 ^ (j - 1) := zpow_le_zpow_right₀ (by norm_num) (by omega)
    have hw' : (w : ℚ) + 1 ≤ 2 ^ f := by exact_mod_cast hw
    have hle : z ≤ (2 ^ f - 1) * 16 ^ (j - 1) := by
      rw [hz]
      exact mul_le_mul (by linarith) hstep (by positivity) (by linarith [(Nat.cast_nonneg w : (0 : ℚ) ≤ w)])
    have htop : (2 : ℚ) ^ (f - 4) * 16 ^ j = 2 ^ f * 16 ^ (j - 1) := by
      rw [pow_top hf, pow_unit j]
      ring
    have hpos : (0 : ℚ) < 16 ^ (j - 1) := by positivity
    have hbelow := h.below (by rw [htop]; linarith)
    rw [htop] at hbelow
    linarith

/-- **The exponent of a near mantissa** is one of a number, when the value is between the least and the greatest one. -/
theorem Near.range (h : Near f z j m) (hf : 4 ≤ f) (hlow : 16 ^ (-65 : ℤ) ≤ z * unit f e)
    (hhigh : z * unit f e ≤ (2 ^ f - 1) * unit f 127) : 0 ≤ e + j ∧ e + j < 128 := by
  have he := unit_pos f e
  have hunit := unit_add f e j
  have hnear := abs_lt.mp h.near
  have hm : (m : ℚ) + 1 ≤ 2 ^ f := by exact_mod_cast h.high
  have hone : (1 : ℚ) ≤ 2 ^ f := one_le_pow₀ (by norm_num)
  constructor
  · by_contra hneg
    have hsmall : z < 2 ^ f * 16 ^ j := by
      have hpos : (0 : ℚ) < 16 ^ j := by positivity
      have hmul : ((m : ℚ) + 1) * 16 ^ j ≤ 2 ^ f * 16 ^ j := mul_le_mul_of_nonneg_right hm hpos.le
      linarith
    have hmono : unit f (e + j) ≤ unit f (-1) := unit_mono f (by omega)
    have hleast : 2 ^ f * unit f (-1) = 16 ^ (-65 : ℤ) := by
      rw [unit]
      have hne : (2 : ℚ) ^ f ≠ 0 := by positivity
      rw [mul_div_cancel₀ _ hne]
      norm_num
    have hlt : z * unit f e < 2 ^ f * unit f (-1) := by
      calc z * unit f e < 2 ^ f * 16 ^ j * unit f e := mul_lt_mul_of_pos_right hsmall he
        _ = 2 ^ f * unit f (e + j) := by rw [hunit]; ring
        _ ≤ _ := mul_le_mul_of_nonneg_left hmono (by positivity)
    linarith
  · by_contra hbig
    have hmono : unit f 127 ≤ unit f (e + j - 1) := unit_mono f (by omega)
    have hprev : unit f (e + j - 1) = 16 ^ (j - 1) * unit f e := by
      rw [← unit_add]
      congr 1
      ring
    have htop : (2 : ℚ) ^ (f - 4) * 16 ^ j = 2 ^ f * 16 ^ (j - 1) := by
      rw [pow_top hf, pow_unit j]
      ring
    have hgreat : (2 ^ f - 1) * 16 ^ (j - 1) < z := by
      have hpos : (0 : ℚ) < 16 ^ (j - 1) := by positivity
      rcases lt_or_ge z (2 ^ (f - 4) * 16 ^ j) with hlt | hge
      · have hbelow := h.below hlt
        rw [htop] at hbelow
        linarith
      · rw [htop] at hge
        linarith
    have hlt : (2 ^ f - 1) * unit f 127 < z * unit f e := by
      calc (2 ^ f - 1) * unit f 127 ≤ (2 ^ f - 1) * unit f (e + j - 1) := mul_le_mul_of_nonneg_left hmono (by linarith)
        _ = (2 ^ f - 1) * 16 ^ (j - 1) * unit f e := by rw [hprev]; ring
        _ < _ := mul_lt_mul_of_pos_right hgreat he
    linarith

/-! ### What is to be delivered -/

/-- The value is zero or that of a number. -/
def Representable (f : ℕ) (x : ℚ) : Prop := x = 0 ∨ ∃ n : Number f, n.value = x

/-- The value neither overflows nor underflows: it is between the least number and the greatest one. -/
def InRange (f : ℕ) (x : ℚ) : Prop := x = 0 ∨ 16 ^ (-65 : ℤ) ≤ |x| ∧ |x| ≤ (2 ^ f - 1) * unit f 127

/-- A word and a condition code are right for the value: it is delivered when it is zero or that of a number, and a
number within one unit of its last digit otherwise. -/
def Delivered (f : ℕ) (x : ℚ) (out : BitVec (f + 8) × BitVec 32) : Prop :=
  x = 0 ∧ out = (0, cc4Bit) ∨
    ∃ n : Number f, out = (n.word, n.cc) ∧ |n.value - x| ≤ unit f n.exp ∧ (Representable f x → n.value = x)

/-- **A near mantissa is delivered as a number.** -/
theorem Near.delivered (h : Near f z j m) (hf : 4 ≤ f) (hz : 0 < z) {neg : Bool}
    (hx : x = (if neg then -1 else 1) * (z * unit f e)) (hrange : InRange f x) :
    ∃ n : Number f, n.neg = neg ∧ (n.exp : ℤ) = e + j ∧ n.frac = m ∧ Delivered f x (n.word, n.cc) := by
  have he := unit_pos f e
  have hpos : 0 < z * unit f e := mul_pos hz he
  have habs : |x| = z * unit f e := by
    rw [hx, abs_mul, abs_of_pos hpos]
    cases neg <;> simp
  have hne : x ≠ 0 := fun h0 ↦ by
    rw [h0, abs_zero] at habs
    linarith
  obtain ⟨hlow, hhigh⟩ := hrange.resolve_left hne
  rw [habs] at hlow hhigh
  obtain ⟨hk, hk'⟩ := h.range hf hlow hhigh
  have hcast : (((e + j).toNat : ℕ) : ℤ) = e + j := Int.toNat_of_nonneg hk
  let n : Number f := ⟨neg, (e + j).toNat, m, by omega, h.high, h.low⟩
  have hvalue : n.value = (if neg then -1 else 1) * (m * 16 ^ j * unit f e) := by
    rw [n.value_eq, hcast, unit_add]
    ring
  refine ⟨n, rfl, hcast, rfl, .inr ⟨n, rfl, ?_, ?_⟩⟩
  · have hdiff : |n.value - x| = |m * 16 ^ j - z| * unit f e := by
      rw [hvalue, hx, ← mul_sub, ← sub_mul, abs_mul, abs_mul, abs_of_pos he]
      cases neg <;> simp
    rw [hdiff, show ((n.exp : ℕ) : ℤ) = e + j from hcast, unit_add]
    exact mul_le_mul_of_nonneg_right h.near.le he.le
  · intro hrep
    obtain ⟨p, hp⟩ := hrep.resolve_left hne
    have hzp : z = p.frac * 16 ^ ((p.exp : ℤ) - e) := by
      have hmul : z * unit f e = p.frac * 16 ^ ((p.exp : ℤ) - e) * unit f e := by
        rw [← habs, ← hp, p.abs_value, mul_assoc, ← unit_add]
        congr 2
        ring
      exact mul_right_cancel₀ he.ne' hmul
    rw [hvalue, hx, ← h.exact hf p.frac_lt hzp]

/-! ### Operands -/

/-- An operand that is normalized: zero or a number. -/
abbrev Operand (f : ℕ) : Type := Option (Number f)

namespace Operand

def word : Operand f → BitVec (f + 8)
  | none => 0
  | some n => n.word

def value : Operand f → ℚ
  | none => 0
  | some n => n.value

end Operand

lemma Number.exp_abs (n : Number f) : ((n.abs &&& exMask f) >>> f).toNat = n.exp := by
  rw [toNat_expField, n.abs_fields.1]
  exact Nat.mod_eq_of_lt n.exp_lt

lemma Number.frac_abs (n : Number f) : (n.abs &&& mantMask f).toNat = n.frac := by
  rw [toNat_and_mantMask, n.abs_fields.2]

lemma normf_null (f : ℕ) : normf f 0 = (0, cc4Bit) := by rw [normf, if_pos rfl]

/-- **A normalized number stays.** -/
theorem normf_number (hf : 4 ≤ f) (n : Number f) : normf f n.word = (n.word, n.cc) := by
  obtain ⟨hpow, hpow', hpos⟩ := pow_fields f
  obtain ⟨hexp, hfrac⟩ := n.abs_fields
  have hlt := n.abs_lt
  have hfpos := n.frac_pos
  have hmod : n.word.toNat % 2 ^ f ≠ 0 := by
    rw [Number.word]
    split_ifs
    · rw [n.toNat_neg_abs, hpow, (neg_fields (by omega) (by omega)).2, hfrac]
      have := n.frac_lt
      omega
    · omega
  have hsame : fixMinusOne f n.word = n.word := by
    rw [fixMinusOne, if_neg (mt minusOne_iff.mp fun hand ↦ hmod hand.2)]
  have hne : n.word ≠ signBit f := fun h ↦ hmod (by
    rw [h, toNat_signBit, hpow', Nat.mul_mod_left])
  have hmag : magnitude f n.word = (n.neg, n.exp, n.abs &&& mantMask f) := by
    have hsign := n.word_sign
    rw [and_signBit_eq_zero] at hsign
    cases hneg : n.neg with
    | false =>
        rw [magnitude_of_lt _ (hsign.mpr hneg)]
        simp [Number.word, hneg, hexp]
    | true =>
        have hge : 2 ^ (f + 7) ≤ n.word.toNat := by
          by_contra hno
          rw [hsign.mp (by lia)] at hneg
          cases hneg
        rw [magnitude_of_ge _ hge hmod]
        simp only [Number.word, hneg, if_true, BitVec.neg_neg]
        rw [n.toNat_neg_abs, Nat.sub_sub_self (by omega), hexp]
  obtain ⟨t, r, hnorm, hr, -, -, hnone⟩ := normf_of_magnitude hf hne (.inr hmod) (by rw [hsame, hmag])
    (by rw [n.frac_abs]; exact hfpos) (by rw [n.frac_abs]; exact n.frac_lt)
  obtain rfl := hnone (by rw [n.frac_abs]; exact n.frac_ge)
  rw [n.frac_abs, pow_zero, mul_one] at hr
  rw [hnorm, Nat.cast_zero, sub_zero]
  exact rebuild_number n hr

end Ka10Simh.Sel32
