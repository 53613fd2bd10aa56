import Ka10Simh.Sel32.Word

/-!
Floating point numbers of a SEL 32: `s_normfw`, `s_normfd` and the loops that shift by hexadecimal digits.

A number has a sign, 7 bits of exponent to base 16 and 24 or 56 bits of fraction. The number with the other
sign is its two's complement, exponent and all.

* `shiftWhile`: the loop that shifts to the left by one digit as long as a test holds.
* `shiftWhile_digits`, `normalize_ends`: it has ended when the turns are used up, with a digit at the top.
* `normf`: the normalization, for both widths.
* `Number`: a number that is normalized; `Number.word` is its word.
* `normf_spec`: normalization ends with an exception, with zero or with a `Number`.
* `normalizations_spec`: a number that was normalized is left as it is.
-/

namespace Ka10Simh.Sel32

/-! ### The source -/

/-- `while (go(v)) { v <<= 4; n++; }`, for `k` turns at most. -/
def shiftWhile {w : ℕ} (go : BitVec w → Bool) : ℕ → BitVec w → ℕ → BitVec w × ℕ
  | 0, v, n => (v, n)
  | k + 1, v, n => if go v then shiftWhile go k (v <<< 4) (n + 1) else (v, n)

/-- `v != 0 && (v & mask) == 0`, where the mask has the four bits from `p` up. -/
def noDigit {w : ℕ} (p : ℕ) (v : BitVec w) : Bool := v ≠ 0 ∧ v &&& 0xf#w <<< p = 0

/-- `NORMASK` and `DNORMASK`: the first five bits. -/
def norMask (w : ℕ) : BitVec w := 0x1f#w <<< (w - 5)

/-- `s_nor` and `s_nord`: the first five bits are not all the same then. -/
def normalize {w : ℕ} (reg : BitVec w) : BitVec w × BitVec 32 :=
  if reg = 0 then (reg, 0)
  else
    let r := shiftWhile (fun v ↦ v &&& norMask w = 0 ∨ v &&& norMask w = norMask w) (w / 4) reg 0
    (r.1, 0x40 - BitVec.ofNat 32 r.2)

def nor (reg : BitVec 32) : BitVec 32 × BitVec 32 := normalize reg
def nord (reg : BitVec 64) : BitVec 64 × BitVec 32 := normalize reg

/-- The sign of a number with `f` bits of fraction, and the masks of its exponent and its fraction. -/
def signBit (f : ℕ) : BitVec (f + 8) := 1#(f + 8) <<< (f + 7)
def exMask (f : ℕ) : BitVec (f + 8) := 0x7f#(f + 8) <<< f
def mantMask (f : ℕ) : BitVec (f + 8) := 1#(f + 8) <<< f - 1

/-- The number with fraction minus one, as a number with fraction minus one sixteenth. -/
def fixMinusOne (f : ℕ) (num : BitVec (f + 8)) : BitVec (f + 8) :=
  if num &&& (signBit f ||| mantMask f) = signBit f then
    signBit f ||| ((exMask f &&& num) - 1#(f + 8) <<< f) &&& exMask f ||| 0xf#(f + 8) <<< (f - 4)
  else num

/-- The sign, the exponent and the mantissa of the absolute value. -/
def magnitude (f : ℕ) (num : BitVec (f + 8)) : Bool × ℕ × BitVec (f + 8) :=
  let exp := ((num &&& exMask f) >>> f).toNat
  if num &&& signBit f ≠ 0 then (true, exp ^^^ 0x7f, negate32 num &&& mantMask f)
  else (false, exp, num &&& mantMask f)

/-- The number is rebuilt, unless its exponent is negative. -/
def rebuild (f : ℕ) (sign : Bool) (exp : ℤ) (val : BitVec (f + 8)) : BitVec (f + 8) × BitVec 32 :=
  if exp < 0 then (0, cc1Bit ||| if sign then cc3Bit else cc2Bit)
  else
    let val := val &&& mantMask f ||| BitVec.ofNat (f + 8) (exp.toNat &&& 0x7f) <<< f
    let ret := if sign then negate32 val else val
    (ret, if ret = 0 then cc4Bit else if ret &&& signBit f ≠ 0 then cc3Bit else cc2Bit)

/-- `s_normfw` and `s_normfd`. -/
def normf (f : ℕ) (num : BitVec (f + 8)) : BitVec (f + 8) × BitVec 32 :=
  if num = 0 then (0, cc4Bit)
  else if num = signBit f then (signBit f ||| 1, cc1Bit ||| cc3Bit ||| cc4Bit)
  else if num &&& signBit f = 0 ∧ num &&& (signBit f ||| exMask f) ≠ 0 ∧ num &&& mantMask f = 0 then (0, cc4Bit)
  else
    match magnitude f (fixMinusOne f num) with
    | (sign, exp, val) =>
      match shiftWhile (noDigit (f - 4)) (f / 4) val 0 with
      | (val, n) => rebuild f sign (exp - n) val

def normfw (num : BitVec 32) : BitVec 32 × BitVec 32 := normf 24 num
def normfd (num : BitVec 64) : BitVec 64 × BitVec 32 := normf 56 num

example : signBit 24 = 0x80000000#32 ∧ exMask 24 = 0x7f000000#32 ∧ mantMask 24 = 0x00ffffff#32 := by decide

/-! ### The loops end -/

/-- The top digit of a value below 16 times its place. -/
lemma noDigit_iff {w p : ℕ} {v : BitVec w} (hp : p + 4 ≤ w) (hv : v.toNat < 2 ^ (p + 4)) :
    noDigit p v = true ↔ v ≠ 0 ∧ v.toNat < 2 ^ p := by
  have hdigit : (0xf#w <<< p).toNat = (2 ^ 4 - 1) <<< p := by
    have hlt : (2 ^ 4 - 1) * 2 ^ p < 2 ^ w := by
      have hle : 2 ^ (p + 4) ≤ 2 ^ w := Nat.pow_le_pow_right (by decide) hp
      rw [pow_add] at hle
      have hpos : 0 < 2 ^ p := by positivity
      omega
    have hsmall : 0xf < 2 ^ w := lt_of_lt_of_le (by decide) (Nat.pow_le_pow_right (by decide) (by omega : 4 ≤ w))
    rw [BitVec.toNat_shiftLeft, BitVec.toNat_ofNat, Nat.mod_eq_of_lt hsmall, Nat.shiftLeft_eq, Nat.shiftLeft_eq]
    exact Nat.mod_eq_of_lt hlt
  have hzero : v &&& 0xf#w <<< p = 0 ↔ v.toNat < 2 ^ p := by
    have h0 : (0 : BitVec w).toNat = 0 := rfl
    rw [← BitVec.toNat_inj, BitVec.toNat_and, hdigit, h0, Word.and_shiftLeft, Nat.and_two_pow_sub_one_eq_mod,
      Nat.shiftRight_eq_div_pow, Nat.shiftLeft_eq]
    have hquot : v.toNat / 2 ^ p < 2 ^ 4 := by
      rw [Nat.div_lt_iff_lt_mul (by positivity), mul_comm, ← pow_add]
      exact hv
    rw [Nat.mod_eq_of_lt hquot, Nat.mul_eq_zero, Nat.div_eq_zero_iff]
    have hpos : 2 ^ p ≠ 0 := by positivity
    tauto
  rw [noDigit, decide_eq_true_eq, hzero]

/-- **Shifting until there is a digit at the top**: the loop ends by its test, and the value has got a factor
16 in every turn. -/
theorem shiftWhile_digits {w p k n : ℕ} {v : BitVec w} (hp : p + 4 ≤ w) (hv : v.toNat < 2 ^ (p + 4))
    (hk : 2 ^ p ≤ v.toNat * 16 ^ k) : ∃ t r, shiftWhile (noDigit p) k v n = (r, n + t) ∧ r.toNat = v.toNat * 16 ^ t ∧
      2 ^ p ≤ r.toNat ∧ r.toNat < 2 ^ (p + 4) ∧ (2 ^ p ≤ v.toNat → t = 0) := by
  induction k generalizing v n with
  | zero => exact ⟨0, v, rfl, by simp, by simpa using hk, hv, fun _ ↦ rfl⟩
  | succ k ih =>
      rw [shiftWhile]
      by_cases hgo : noDigit p v = true
      · have hlt := ((noDigit_iff hp hv).mp hgo).2
        have hpow : 2 ^ (p + 4) = 2 ^ p * 16 := by rw [pow_add]; norm_num
        have hle : 2 ^ (p + 4) ≤ 2 ^ w := Nat.pow_le_pow_right (by decide) hp
        have hshift : (v <<< 4).toNat = v.toNat * 16 := by
          rw [BitVec.toNat_shiftLeft, Nat.shiftLeft_eq, Nat.mod_eq_of_lt (by omega)]
        obtain ⟨t, r, hloop, hr, hlow, hhigh, -⟩ := ih (v := v <<< 4) (n := n + 1) (by omega) (by
          rw [hshift, mul_assoc, ← pow_succ']
          exact hk)
        refine ⟨t + 1, r, ?_, ?_, hlow, hhigh, fun h ↦ absurd h (not_le.mpr hlt)⟩
        · rw [if_pos hgo, hloop, Nat.add_assoc, Nat.add_comm 1]
        · rw [hr, hshift, mul_assoc, ← pow_succ']
      · rw [if_neg hgo]
        have hne : v ≠ 0 := by
          rintro rfl
          rw [show (0 : BitVec w).toNat = 0 from rfl, zero_mul] at hk
          exact absurd hk (not_le.mpr (by positivity))
        have hge : 2 ^ p ≤ v.toNat := not_lt.mp fun hlt ↦ hgo ((noDigit_iff hp hv).mpr ⟨hne, hlt⟩)
        exact ⟨0, v, rfl, by simp, hge, hv, fun _ ↦ rfl⟩

/-- The loop of `s_nor` and `s_nord` goes on near zero. -/
lemma norMask_iff {w : ℕ} (hw : 5 ≤ w) (v : BitVec w) :
    (v &&& norMask w = 0 ∨ v &&& norMask w = norMask w) ↔ v.toNat < 2 ^ (w - 5) ∨ 2 ^ w ≤ v.toNat + 2 ^ (w - 5) := by
  have hpow : 2 ^ w = 2 ^ (w - 5) * 32 := by
    rw [← Nat.sub_add_cancel hw, pow_add, Nat.add_sub_cancel]
    norm_num
  have hlt := v.isLt
  have hmask : (norMask w).toNat = (2 ^ 5 - 1) <<< (w - 5) := by
    have hsmall : 0x1f < 2 ^ w := by
      have hpos : 0 < 2 ^ (w - 5) := by positivity
      omega
    rw [norMask, BitVec.toNat_shiftLeft, BitVec.toNat_ofNat, Nat.mod_eq_of_lt hsmall, Nat.shiftLeft_eq, Nat.shiftLeft_eq]
    exact Nat.mod_eq_of_lt (by omega)
  have h0 : (0 : BitVec w).toNat = 0 := rfl
  have hquot : v.toNat / 2 ^ (w - 5) < 2 ^ 5 := by
    rw [Nat.div_lt_iff_lt_mul (by positivity)]
    omega
  have hdiv := Nat.div_add_mod v.toNat (2 ^ (w - 5))
  have hmod := Nat.mod_lt v.toNat (by positivity : 0 < 2 ^ (w - 5))
  rw [← BitVec.toNat_inj, ← BitVec.toNat_inj, BitVec.toNat_and, hmask, h0, Word.and_shiftLeft,
    Nat.and_two_pow_sub_one_eq_mod, Nat.shiftRight_eq_div_pow, Nat.shiftLeft_eq, Nat.shiftLeft_eq, Nat.mod_eq_of_lt hquot,
    Nat.mul_eq_zero, mul_left_inj' (by positivity : 2 ^ (w - 5) ≠ 0)]
  generalize hq : v.toNat / 2 ^ (w - 5) = q at *
  generalize v.toNat % 2 ^ (w - 5) = m at *
  generalize 2 ^ (w - 5) = b at *
  constructor
  · rintro ((rfl | h) | rfl)
    · left
      omega
    · omega
    · right
      omega
  · rintro (h | h)
    · have hzero : q = 0 := by
        by_contra hne
        have hle : b * 1 ≤ b * q := Nat.mul_le_mul_left b (by lia)
        lia
      exact Or.inl (Or.inl hzero)
    · right
      by_contra hne
      have hle : b * q ≤ b * 30 := Nat.mul_le_mul_left b (by lia)
      lia

/-- **Shifting a fraction with its sign**: the loop of `s_nor` and `s_nord` ends by its test, for a value that is
not zero. -/
theorem normalize_ends {w : ℕ} (hw : 5 ≤ w) {v : BitVec w} (hne : v ≠ 0) :
    ¬ ((normalize v).1 &&& norMask w = 0 ∨ (normalize v).1 &&& norMask w = norMask w) := by
  have hpow : 2 ^ w = 2 ^ (w - 5) * 32 := by
    rw [← Nat.sub_add_cancel hw, pow_add, Nat.add_sub_cancel]
    norm_num
  -- the distance from zero gets a factor 16 in every turn
  have hloop (k : ℕ) : ∀ (v : BitVec w) (n : ℕ), 2 ^ (w - 5) < min v.toNat (2 ^ w - v.toNat) * 16 ^ k →
      let r := (shiftWhile (fun v ↦ v &&& norMask w = 0 ∨ v &&& norMask w = norMask w) k v n).1
      ¬ (r &&& norMask w = 0 ∨ r &&& norMask w = norMask w) := by
    induction k with
    | zero =>
        intro v n hk
        rw [pow_zero, mul_one] at hk
        dsimp only [shiftWhile]
        rw [norMask_iff hw]
        have hlt := v.isLt
        omega
    | succ k ih =>
        intro v n hk
        have hlt := v.isLt
        dsimp only [shiftWhile]
        split_ifs with hgo
        · refine ih _ _ ?_
          rw [decide_eq_true_eq, norMask_iff hw] at hgo
          rw [pow_succ', ← mul_assoc] at hk
          have hshift : (v <<< 4).toNat = v.toNat * 16 % 2 ^ w := by
            rw [BitVec.toNat_shiftLeft, Nat.shiftLeft_eq]
          have hdist : min (v <<< 4).toNat (2 ^ w - (v <<< 4).toNat) = min v.toNat (2 ^ w - v.toNat) * 16 := by
            rw [hshift]
            rcases hgo with hpos | hneg
            · rw [Nat.mod_eq_of_lt (by omega)]
              lia
            · have hwrap : v.toNat * 16 = (2 ^ w - (2 ^ w - v.toNat) * 16) + 2 ^ w * 15 := by lia
              rcases Nat.eq_zero_or_pos (2 ^ w - v.toNat) with h0 | hpos
              · lia
              · rw [hwrap, Nat.add_mul_mod_self_left, Nat.mod_eq_of_lt (by omega)]
                lia
          rwa [hdist]
        · rwa [decide_eq_true_eq] at hgo
  have hmin : 1 ≤ min v.toNat (2 ^ w - v.toNat) := by
    have hlt := v.isLt
    have hpos : v.toNat ≠ 0 := fun h ↦ hne (BitVec.eq_of_toNat_eq h)
    lia
  rw [normalize, if_neg hne]
  refine hloop _ v 0 ?_
  have hbig : 2 ^ (w - 5) < 16 ^ (w / 4) := by
    rw [show (16 : ℕ) = 2 ^ 4 from rfl, ← pow_mul]
    exact Nat.pow_lt_pow_right (by decide) (by omega)
  calc 2 ^ (w - 5) < 16 ^ (w / 4) := hbig
    _ ≤ min v.toNat (2 ^ w - v.toNat) * 16 ^ (w / 4) := Nat.le_mul_of_pos_left _ hmin

/-! ### The fields -/

section Fields

variable {f : ℕ} (v : BitVec (f + 8))

lemma toNat_signBit (f : ℕ) : (signBit f).toNat = 2 ^ (f + 7) := by
  rw [signBit, BitVec.toNat_shiftLeft, BitVec.toNat_ofNat, Nat.shiftLeft_eq, Nat.mod_mul_mod, one_mul]
  exact Nat.mod_eq_of_lt (Nat.pow_lt_pow_right (by decide) (by omega))

lemma toNat_one_shift (f : ℕ) : (1#(f + 8) <<< f).toNat = 2 ^ f := by
  rw [BitVec.toNat_shiftLeft, BitVec.toNat_ofNat, Nat.shiftLeft_eq, Nat.mod_mul_mod, one_mul]
  exact Nat.mod_eq_of_lt (Nat.pow_lt_pow_right (by decide) (by omega))

lemma toNat_mantMask (f : ℕ) : (mantMask f).toNat = 2 ^ f - 1 := by
  have hpos : 0 < 2 ^ f := by positivity
  have hone : (1 : BitVec (f + 8)).toNat = 1 := Nat.mod_eq_of_lt (Nat.one_lt_two_pow (by omega))
  rw [mantMask, BitVec.toNat_sub_of_le, toNat_one_shift, hone]
  rw [BitVec.le_def, toNat_one_shift, hone]
  omega

lemma toNat_exMask (f : ℕ) : (exMask f).toNat = (2 ^ 7 - 1) <<< f := by
  have hpow : 2 ^ (f + 8) = 2 ^ f * 256 := by rw [pow_add]; norm_num
  have hpos : 0 < 2 ^ f := by positivity
  rw [exMask, BitVec.toNat_shiftLeft, BitVec.toNat_ofNat, Nat.mod_eq_of_lt (by omega : 0x7f < 2 ^ (f + 8)), Nat.shiftLeft_eq,
    Nat.shiftLeft_eq]
  exact Nat.mod_eq_of_lt (by omega)

lemma toNat_and_mantMask : (v &&& mantMask f).toNat = v.toNat % 2 ^ f := by
  rw [BitVec.toNat_and, toNat_mantMask, Nat.and_two_pow_sub_one_eq_mod]

lemma toNat_and_exMask : (v &&& exMask f).toNat = v.toNat / 2 ^ f % 128 * 2 ^ f := by
  rw [BitVec.toNat_and, toNat_exMask, Word.and_shiftLeft, Nat.and_two_pow_sub_one_eq_mod, Nat.shiftRight_eq_div_pow,
    Nat.shiftLeft_eq]

lemma toNat_expField : ((v &&& exMask f) >>> f).toNat = v.toNat / 2 ^ f % 128 := by
  rw [BitVec.toNat_ushiftRight, toNat_and_exMask, Nat.shiftRight_eq_div_pow, Nat.mul_div_cancel _ (by positivity)]

lemma and_signBit_eq_zero : v &&& signBit f = 0 ↔ v.toNat < 2 ^ (f + 7) := by
  have hpow : 2 ^ (f + 8) = 2 ^ (f + 7) * 2 := pow_succ ..
  have hlt := v.isLt
  have h0 : (0 : BitVec (f + 8)).toNat = 0 := rfl
  rw [← BitVec.toNat_inj, BitVec.toNat_and, toNat_signBit, h0, Nat.and_two_pow, Nat.mul_eq_zero]
  have hpos : 2 ^ (f + 7) ≠ 0 := by positivity
  rw [or_iff_left hpos, Nat.testBit_eq_decide_div_mod_eq]
  have hquot : v.toNat / 2 ^ (f + 7) < 2 := by
    rw [Nat.div_lt_iff_lt_mul (by positivity)]
    omega
  rw [Nat.mod_eq_of_lt hquot]
  rcases Nat.lt_or_ge v.toNat (2 ^ (f + 7)) with hlow | hhigh
  · rw [Nat.div_eq_of_lt hlow]
    simp [hlow]
  · have hone : v.toNat / 2 ^ (f + 7) = 1 := by
      have hge := (Nat.one_le_div_iff (by positivity : 0 < 2 ^ (f + 7))).mpr hhigh
      omega
    simp [hone, not_lt.mpr hhigh]

/-- The fields of a number and of its negative, whose mantissa is not zero. -/
lemma neg_fields {b u : ℕ} (hu : u < 256 * b) (hm : u % b ≠ 0) :
    (256 * b - u) / b = 255 - u / b ∧ (256 * b - u) % b = b - u % b := by
  have hpos : 0 < b := Nat.pos_of_ne_zero fun h ↦ by omega
  have hmod := Nat.mod_lt u hpos
  have hdiv := Nat.div_add_mod u b
  have hquot : u / b ≤ 255 := Nat.lt_succ_iff.mp ((Nat.div_lt_iff_lt_mul hpos).mpr hu)
  have hmul : b * (u / b) + b * (255 - u / b) = b * 255 := by
    rw [← Nat.mul_add]
    congr 1
    omega
  have hsub : 256 * b - u = b - u % b + b * (255 - u / b) := by lia
  rw [hsub, Nat.add_mul_div_left _ _ hpos, Nat.add_mul_mod_self_left, Nat.div_eq_of_lt (by omega),
    Nat.mod_eq_of_lt (by omega), Nat.zero_add]
  exact ⟨rfl, rfl⟩

lemma pow_fields (f : ℕ) : 2 ^ (f + 8) = 256 * 2 ^ f ∧ 2 ^ (f + 7) = 128 * 2 ^ f ∧ 0 < 2 ^ f := by
  refine ⟨?_, ?_, by positivity⟩ <;> rw [pow_add, mul_comm] <;> norm_num

/-- The absolute value of a number that is not negative. -/
lemma magnitude_of_lt (h : v.toNat < 2 ^ (f + 7)) :
    magnitude f v = (false, v.toNat / 2 ^ f, v &&& mantMask f) := by
  obtain ⟨-, hpow, hpos⟩ := pow_fields f
  have hfield : v.toNat / 2 ^ f < 128 := by
    rw [Nat.div_lt_iff_lt_mul hpos]
    omega
  rw [magnitude, if_neg (not_not.mpr ((and_signBit_eq_zero v).mpr h)), toNat_expField, Nat.mod_eq_of_lt hfield]

/-- The absolute value of a negative one. -/
lemma magnitude_of_ge (h : 2 ^ (f + 7) ≤ v.toNat) (hm : v.toNat % 2 ^ f ≠ 0) :
    magnitude f v = (true, (2 ^ (f + 8) - v.toNat) / 2 ^ f, -v &&& mantMask f) := by
  obtain ⟨hpow, hpow', hpos⟩ := pow_fields f
  have hlt := v.isLt
  have hsign : v &&& signBit f ≠ 0 := fun h0 ↦ absurd ((and_signBit_eq_zero v).mp h0) (not_lt.mpr h)
  have hcompl (e : ℕ) (he : e < 128) : e ^^^ 0x7f = 127 - e := by
    rw [Nat.xor_comm]
    exact Word.mask_xor (n := 7) he
  have hquot : v.toNat / 2 ^ f < 256 := by
    rw [Nat.div_lt_iff_lt_mul hpos]
    omega
  have hquot' : 128 ≤ v.toNat / 2 ^ f := by
    rw [Nat.le_div_iff_mul_le hpos]
    omega
  rw [magnitude, if_pos hsign, toNat_expField, hcompl _ (Nat.mod_lt _ (by decide)), negate32_eq, hpow,
    (neg_fields (by omega) hm).1]
  congr 2
  lia

/-- The value of a word: the fraction is a two's complement, and the exponent of a negative number is the
complement of its field. -/
def value : ℚ :=
  if v.toNat < 2 ^ (f + 7) then (v.toNat % 2 ^ f : ℕ) * 16 ^ ((v.toNat / 2 ^ f : ℕ) - 64 : ℤ) / 2 ^ f
  else -(2 ^ f - (v.toNat % 2 ^ f : ℕ)) * 16 ^ (255 - (v.toNat / 2 ^ f : ℕ) - 64 : ℤ) / 2 ^ f

/-- The value from the absolute value. -/
lemma value_of_magnitude (hm : v.toNat < 2 ^ (f + 7) ∨ v.toNat % 2 ^ f ≠ 0) {neg : Bool} {e : ℕ} {m : BitVec (f + 8)}
    (h : magnitude f v = (neg, e, m)) :
    value v = (if neg then -1 else 1) * m.toNat * 16 ^ (e - 64 : ℤ) / 2 ^ f := by
  obtain ⟨hpow, hpow', hpos⟩ := pow_fields f
  have hlt := v.isLt
  rw [value]
  by_cases hsign : v.toNat < 2 ^ (f + 7)
  · rw [magnitude_of_lt v hsign] at h
    cases h
    rw [if_pos hsign, toNat_and_mantMask]
    simp
  · have hne := hm.resolve_left hsign
    have hneg : (-v).toNat = 256 * 2 ^ f - v.toNat := by
      rw [BitVec.toNat_neg, hpow]
      refine Nat.mod_eq_of_lt ?_
      omega
    have hmod := Nat.mod_lt v.toNat hpos
    rw [magnitude_of_ge v (not_lt.mp hsign) hne] at h
    cases h
    have hquot : v.toNat / 2 ^ f ≤ 255 := Nat.lt_succ_iff.mp ((Nat.div_lt_iff_lt_mul hpos).mpr (by omega))
    rw [if_neg hsign, toNat_and_mantMask, hneg, hpow, (neg_fields (by omega) hne).1, (neg_fields (by omega) hne).2,
      Nat.cast_sub hmod.le, Nat.cast_sub hquot]
    push_cast
    simp

/-! ### Numbers -/

/-- A normalized number. -/
structure Number (f : ℕ) where
  neg : Bool
  exp : ℕ
  frac : ℕ
  exp_lt : exp < 128
  frac_lt : frac < 2 ^ f
  frac_ge : 2 ^ (f - 4) ≤ frac

namespace Number

variable (n : Number f)

/-- The absolute value as a word. -/
def abs : BitVec (f + 8) := BitVec.ofNat (f + 8) (n.exp * 2 ^ f + n.frac)

def word : BitVec (f + 8) := if n.neg then -n.abs else n.abs

/-- Its condition code. -/
def cc : BitVec 32 := if n.neg then cc3Bit else cc2Bit

def value : ℚ := (if n.neg then -1 else 1) * n.frac * 16 ^ (n.exp - 64 : ℤ) / 2 ^ f

lemma frac_pos : 0 < n.frac := lt_of_lt_of_le (by positivity) n.frac_ge

lemma toNat_abs : n.abs.toNat = n.exp * 2 ^ f + n.frac := by
  obtain ⟨hpow, -, -⟩ := pow_fields f
  have hlt := n.frac_lt
  have hle := Nat.mul_le_mul_right (2 ^ f) (Nat.le_of_lt_succ n.exp_lt)
  rw [abs, BitVec.toNat_ofNat]
  exact Nat.mod_eq_of_lt (by omega)

lemma abs_lt : n.abs.toNat < 2 ^ (f + 7) := by
  obtain ⟨-, hpow, -⟩ := pow_fields f
  have hlt := n.frac_lt
  have hle := Nat.mul_le_mul_right (2 ^ f) (Nat.le_of_lt_succ n.exp_lt)
  rw [toNat_abs]
  omega

lemma abs_pos : 0 < n.abs.toNat := by
  have hpos := n.frac_pos
  rw [toNat_abs]
  omega

lemma toNat_neg_abs : (-n.abs).toNat = 2 ^ (f + 8) - n.abs.toNat := by
  have hpos := n.abs_pos
  rw [BitVec.toNat_neg]
  exact Nat.mod_eq_of_lt (by omega)

lemma word_ne_zero : n.word ≠ 0 := by
  have hpos := n.abs_pos
  have hlt := n.abs.isLt
  have hneg := n.toNat_neg_abs
  have h0 : (0 : BitVec (f + 8)).toNat = 0 := rfl
  intro h
  have hzero := congrArg BitVec.toNat h
  rw [word, h0] at hzero
  split_ifs at hzero <;> omega

/-- The sign of the word. -/
lemma word_sign : n.word &&& signBit f = 0 ↔ n.neg = false := by
  have hlt := n.abs_lt
  have hpos := n.abs_pos
  have hpow : 2 ^ (f + 8) = 2 ^ (f + 7) * 2 := pow_succ ..
  rw [and_signBit_eq_zero, word]
  cases n.neg with
  | false => simpa using hlt
  | true =>
      rw [if_pos rfl, toNat_neg_abs]
      simp only [Bool.true_eq_false, iff_false, not_lt]
      omega

lemma neg_word (h : n.neg = true) : -n.word = n.abs := by
  rw [word, if_pos h, BitVec.neg_neg]

/-- The fields of the absolute value. -/
lemma abs_fields : n.abs.toNat / 2 ^ f = n.exp ∧ n.abs.toNat % 2 ^ f = n.frac := by
  have hpos : 0 < 2 ^ f := by positivity
  rw [toNat_abs, Nat.mul_comm, Nat.mul_add_div hpos, Nat.mul_add_mod, Nat.div_eq_of_lt n.frac_lt,
    Nat.mod_eq_of_lt n.frac_lt]
  exact ⟨Nat.add_zero _, rfl⟩

/-- The word has the value of the number. -/
lemma value_word : Sel32.value n.word = n.value := by
  obtain ⟨hpow, hpow', hpos⟩ := pow_fields f
  obtain ⟨hexp, hfrac⟩ := n.abs_fields
  have hlt := n.abs_lt
  have hfpos := n.frac_pos
  rw [Sel32.value, value, word]
  cases n.neg with
  | false =>
      simp only [Bool.false_eq_true, if_false]
      rw [if_pos hlt, hexp, hfrac, one_mul]
  | true =>
      have hfields := neg_fields (b := 2 ^ f) (u := n.abs.toNat) (by omega) (by omega)
      have hle : n.exp ≤ 255 := by
        have h128 := n.exp_lt
        omega
      simp only [if_true]
      rw [toNat_neg_abs, if_neg (by omega), hpow, hfields.1, hfields.2, hexp, hfrac, Nat.cast_sub n.frac_lt.le,
        Nat.cast_sub hle]
      push_cast
      simp

end Number

/-! ### Normalization -/

variable {v}

lemma and_signBit_of_ge (h : 2 ^ (f + 7) ≤ v.toNat) : v &&& signBit f = signBit f := by
  have hne : v &&& signBit f ≠ 0 := fun h0 ↦ absurd ((and_signBit_eq_zero v).mp h0) (not_lt.mpr h)
  have hpow : signBit f = BitVec.twoPow (f + 8) (f + 7) := (BitVec.twoPow_eq ..).symm
  rw [hpow] at hne ⊢
  rw [BitVec.and_twoPow] at hne ⊢
  split_ifs at hne ⊢ with hbit
  · rfl
  · exact absurd rfl hne

/-- The test for the fraction minus one. -/
lemma minusOne_iff : v &&& (signBit f ||| mantMask f) = signBit f ↔ 2 ^ (f + 7) ≤ v.toNat ∧ v.toNat % 2 ^ f = 0 := by
  obtain ⟨-, hpow, hpos⟩ := pow_fields f
  have hlow := toNat_and_mantMask v
  have hmod := Nat.mod_lt v.toNat hpos
  have hand : v &&& (signBit f ||| mantMask f) = v &&& signBit f ||| v &&& mantMask f := BitVec.and_or_distrib_left
  rw [hand, ← BitVec.toNat_inj, BitVec.toNat_or, hlow, toNat_signBit]
  rcases Nat.lt_or_ge v.toNat (2 ^ (f + 7)) with hlt | hge
  · have h0 : (v &&& signBit f).toNat = 0 := by
      rw [(and_signBit_eq_zero v).mpr hlt]
      rfl
    rw [h0, Nat.zero_or]
    lia
  · rw [and_signBit_of_ge hge, toNat_signBit, Word.or_eq_add (dvd_refl _) (by omega)]
    lia

lemma pow_digit (hf : 4 ≤ f) : 2 ^ f = 16 * 2 ^ (f - 4) := by
  rw [← Nat.sub_add_cancel hf, pow_add, Nat.add_sub_cancel, mul_comm]
  norm_num

/-- A word with the fraction minus one. -/
lemma minusOne_word (h : 2 ^ (f + 7) < v.toNat) (hm : v.toNat % 2 ^ f = 0) :
    ∃ y < 127, v.toNat = (129 + y) * 2 ^ f := by
  obtain ⟨hpow, hpow', hpos⟩ := pow_fields f
  have hlt := v.isLt
  have hdiv := Nat.div_add_mod v.toNat (2 ^ f)
  rw [hm, Nat.add_zero] at hdiv
  have hlow : 128 < v.toNat / 2 ^ f := by
    rw [← Nat.mul_lt_mul_left hpos, hdiv]
    omega
  have hhigh : v.toNat / 2 ^ f < 256 := (Nat.div_lt_iff_lt_mul hpos).mpr (by omega)
  refine ⟨v.toNat / 2 ^ f - 129, by omega, ?_⟩
  rw [show 129 + (v.toNat / 2 ^ f - 129) = v.toNat / 2 ^ f by omega, mul_comm, hdiv]

/-- The number that takes its place. -/
lemma toNat_fixMinusOne (hf : 4 ≤ f) {y : ℕ} (hy : y < 127) (hv : v.toNat = (129 + y) * 2 ^ f) :
    (fixMinusOne f v).toNat = (128 + y) * 2 ^ f + 15 * 2 ^ (f - 4) := by
  obtain ⟨hpow, hpow', hpos⟩ := pow_fields f
  have hdigits := pow_digit hf
  have hge : 2 ^ (f + 7) ≤ v.toNat := by
    rw [hv, hpow']
    exact Nat.mul_le_mul_right _ (by omega)
  have hm : v.toNat % 2 ^ f = 0 := by rw [hv, Nat.mul_mod_left]
  have hfield : (exMask f &&& v).toNat = (y + 1) * 2 ^ f := by
    rw [BitVec.and_comm, toNat_and_exMask, hv, Nat.mul_div_cancel _ hpos]
    congr 1
    lia
  have hless : ((exMask f &&& v) - 1#(f + 8) <<< f).toNat = y * 2 ^ f := by
    rw [BitVec.toNat_sub_of_le, hfield, toNat_one_shift, Nat.succ_mul, Nat.add_sub_cancel]
    rw [BitVec.le_def, hfield, toNat_one_shift, Nat.succ_mul]
    exact Nat.le_add_left _ _
  have hkeep : (((exMask f &&& v) - 1#(f + 8) <<< f) &&& exMask f).toNat = y * 2 ^ f := by
    rw [toNat_and_exMask, hless, Nat.mul_div_cancel _ hpos, Nat.mod_eq_of_lt (by omega)]
  have hdigit : (0xf#(f + 8) <<< (f - 4)).toNat = 15 * 2 ^ (f - 4) := by
    rw [BitVec.toNat_shiftLeft, BitVec.toNat_ofNat, Nat.mod_eq_of_lt (by omega : 0xf < 2 ^ (f + 8)), Nat.shiftLeft_eq]
    exact Nat.mod_eq_of_lt (by omega)
  have hyle : y * 2 ^ f ≤ 126 * 2 ^ f := Nat.mul_le_mul_right _ (by omega)
  rw [fixMinusOne, if_pos (minusOne_iff.mpr ⟨hge, hm⟩), BitVec.toNat_or, BitVec.toNat_or, toNat_signBit, hkeep, hdigit,
    Word.or_eq_add (dvd_refl _) (by lia), hpow', ← Nat.add_mul,
    Word.or_eq_add (i := f) (Dvd.intro_left _ rfl) (by omega)]

/-- It has a mantissa, and the same value. -/
lemma value_fixMinusOne (hf : 4 ≤ f) (hne : v ≠ signBit f) : value (fixMinusOne f v) = value v ∧
    (2 ^ (f + 7) ≤ v.toNat → 2 ^ (f + 7) ≤ (fixMinusOne f v).toNat ∧ (fixMinusOne f v).toNat % 2 ^ f ≠ 0) := by
  obtain ⟨hpow, hpow', hpos⟩ := pow_fields f
  have hdigits := pow_digit hf
  by_cases hm : 2 ^ (f + 7) ≤ v.toNat ∧ v.toNat % 2 ^ f = 0
  swap
  · have hsame : fixMinusOne f v = v := by rw [fixMinusOne, if_neg (mt minusOne_iff.mp hm)]
    rw [hsame]
    exact ⟨rfl, fun hge ↦ ⟨hge, fun h0 ↦ hm ⟨hge, h0⟩⟩⟩
  obtain ⟨hge, hzero⟩ := hm
  have hgt : 2 ^ (f + 7) < v.toNat := lt_of_le_of_ne hge fun h ↦ hne (BitVec.eq_of_toNat_eq (by rw [toNat_signBit, h]))
  obtain ⟨y, hy, hv⟩ := minusOne_word hgt hzero
  have hfix := toNat_fixMinusOne hf hy hv
  have hsmall : 15 * 2 ^ (f - 4) < 2 ^ f := by omega
  have hquot : (fixMinusOne f v).toNat / 2 ^ f = 128 + y := by
    rw [hfix, mul_comm (128 + y), Nat.mul_add_div hpos, Nat.div_eq_of_lt hsmall, Nat.add_zero]
  have hrest : (fixMinusOne f v).toNat % 2 ^ f = 15 * 2 ^ (f - 4) := by
    rw [hfix, mul_comm (128 + y), Nat.mul_add_mod, Nat.mod_eq_of_lt hsmall]
  have hquot' : v.toNat / 2 ^ f = 129 + y := by rw [hv, Nat.mul_div_cancel _ hpos]
  have hge' : 2 ^ (f + 7) ≤ (fixMinusOne f v).toNat := by
    rw [hfix, hpow', Nat.add_mul]
    lia
  refine ⟨?_, fun _ ↦ ⟨hge', by rw [hrest]; omega⟩⟩
  have hcast : (2 : ℚ) ^ f = 16 * 2 ^ (f - 4) := by exact_mod_cast hdigits
  rw [value, value, if_neg (not_lt.mpr hge'), if_neg (not_lt.mpr hge), hquot, hrest, hquot', hzero]
  have hexp : (255 - ((128 + y : ℕ) : ℤ) - 64) = (255 - ((129 + y : ℕ) : ℤ) - 64) + 1 := by
    push_cast
    ring
  rw [hexp, zpow_add_one₀ (by norm_num), hcast]
  push_cast
  ring

/-- What `rebuild` makes of a normalized number. -/
lemma rebuild_number (n : Number f) {val : BitVec (f + 8)} (hval : val.toNat = n.frac) :
    rebuild f n.neg n.exp val = (n.word, n.cc) := by
  obtain ⟨hpow, -, hpos⟩ := pow_fields f
  have hexp := n.exp_lt
  have habs : val &&& mantMask f ||| BitVec.ofNat (f + 8) (n.exp &&& 0x7f) <<< f = n.abs := by
    have hand : n.exp &&& 0x7f = n.exp := by
      rw [show 0x7f = 2 ^ 7 - 1 from rfl, Nat.and_two_pow_sub_one_eq_mod]
      exact Nat.mod_eq_of_lt hexp
    have hmul := Nat.mul_le_mul_right (2 ^ f) (Nat.le_of_lt_succ hexp)
    have hsmall : n.exp < 2 ^ (f + 8) := by lia
    have hshift : (BitVec.ofNat (f + 8) n.exp <<< f).toNat = n.exp <<< f := by
      rw [BitVec.toNat_shiftLeft, BitVec.toNat_ofNat, Nat.mod_eq_of_lt hsmall, Nat.shiftLeft_eq]
      exact Nat.mod_eq_of_lt (by lia)
    rw [← BitVec.toNat_inj, BitVec.toNat_or, toNat_and_mantMask, hval, Nat.mod_eq_of_lt n.frac_lt, hand, hshift,
      Word.or_shiftLeft_eq n.frac_lt, n.toNat_abs, Nat.add_comm]
  have hret : (if n.neg then negate32 n.abs else n.abs) = n.word := by
    rw [Number.word, negate32_eq]
  rw [rebuild, if_neg (by omega), Int.toNat_natCast]
  simp only [habs, hret, if_neg n.word_ne_zero, Number.cc]
  congr 1
  cases hneg : n.neg with
  | false => rw [if_neg (not_not.mpr (n.word_sign.mpr hneg)), if_neg Bool.false_ne_true]
  | true =>
      have hsign : n.word &&& signBit f ≠ 0 := fun h ↦ by
        rw [n.word_sign, hneg] at h
        cases h
      rw [if_pos hsign, if_pos rfl]

/-- The absolute value has 7 bits of exponent and a mantissa that is not zero. -/
lemma magnitude_bounds (hm : v.toNat % 2 ^ f ≠ 0) :
    ∃ e m, magnitude f v = (decide (2 ^ (f + 7) ≤ v.toNat), e, m) ∧ e < 128 ∧ 0 < m.toNat ∧ m.toNat < 2 ^ f := by
  obtain ⟨hpow, hpow', hpos⟩ := pow_fields f
  have hlt := v.isLt
  have hmod := Nat.mod_lt v.toNat hpos
  rcases Nat.lt_or_ge v.toNat (2 ^ (f + 7)) with hlow | hhigh
  · refine ⟨v.toNat / 2 ^ f, v &&& mantMask f, ?_, (Nat.div_lt_iff_lt_mul hpos).mpr (by omega), ?_, ?_⟩
    · rw [magnitude_of_lt v hlow, decide_eq_false (not_le.mpr hlow)]
    · rw [toNat_and_mantMask]
      omega
    · rw [toNat_and_mantMask]
      exact hmod
  · have hneg : (-v).toNat = 256 * 2 ^ f - v.toNat := by
      rw [BitVec.toNat_neg, hpow]
      exact Nat.mod_eq_of_lt (by omega)
    have hne128 : v.toNat ≠ 128 * 2 ^ f := fun h ↦ hm (by rw [h, Nat.mul_mod_left])
    have hrest := (neg_fields (by omega) hm).2
    refine ⟨(2 ^ (f + 8) - v.toNat) / 2 ^ f, -v &&& mantMask f, ?_, (Nat.div_lt_iff_lt_mul hpos).mpr (by lia), ?_, ?_⟩
    · rw [magnitude_of_ge v hhigh hm, decide_eq_true hhigh]
    · rw [toNat_and_mantMask, hneg, hrest]
      omega
    · rw [toNat_and_mantMask, hneg, hrest]
      omega

/-- Outside the special cases a number is shifted until its first digit is not zero. -/
lemma normf_of_magnitude (hf : 4 ≤ f) (hne : v ≠ signBit f) (hm : 2 ^ (f + 7) ≤ v.toNat ∨ v.toNat % 2 ^ f ≠ 0)
    {neg : Bool} {e : ℕ} {m : BitVec (f + 8)} (h : magnitude f (fixMinusOne f v) = (neg, e, m)) (hpos : 0 < m.toNat)
    (hlt : m.toNat < 2 ^ f) :
    ∃ t r, normf f v = rebuild f neg (e - (t : ℕ)) r ∧ r.toNat = m.toNat * 16 ^ t ∧ 2 ^ (f - 4) ≤ r.toNat ∧
      r.toNat < 2 ^ f ∧ (2 ^ (f - 4) ≤ m.toNat → t = 0) := by
  have hwidth : f - 4 + 4 = f := Nat.sub_add_cancel hf
  have hturns : 2 ^ (f - 4) ≤ m.toNat * 16 ^ (f / 4) := by
    have hpow : 2 ^ (f - 4) ≤ 16 ^ (f / 4) := by
      rw [show (16 : ℕ) = 2 ^ 4 from rfl, ← pow_mul]
      exact Nat.pow_le_pow_right (by decide) (by omega)
    exact hpow.trans (Nat.le_mul_of_pos_left _ hpos)
  obtain ⟨t, r, hloop, hr, hlow, hhigh, hnone⟩ := shiftWhile_digits (w := f + 8) (p := f - 4) (n := 0) (v := m) (by omega)
    (by rwa [hwidth]) hturns
  rw [hwidth] at hhigh
  have hzero : v ≠ 0 := fun h0 ↦ by
    rw [h0] at hm
    have hpos' : 0 < 2 ^ (f + 7) := by positivity
    rcases hm with h | h
    · exact absurd h (not_le.mpr hpos')
    · exact h (Nat.zero_mod _)
  have hspecial : ¬ (v &&& signBit f = 0 ∧ v &&& (signBit f ||| exMask f) ≠ 0 ∧ v &&& mantMask f = 0) := by
    rintro ⟨hs, -, h0⟩
    rw [and_signBit_eq_zero] at hs
    have hmant := congrArg BitVec.toNat h0
    rw [toNat_and_mantMask] at hmant
    exact hm.elim (fun h ↦ absurd hs (not_lt.mpr h)) fun h ↦ h hmant
  refine ⟨t, r, ?_, hr, hlow, hhigh, hnone⟩
  rw [normf, if_neg hzero, if_neg hne, if_neg hspecial, h]
  dsimp only
  rw [hloop, Nat.zero_add]

/-- A fraction that is zero gives zero, when it is not minus one. -/
lemma normf_zero (hlow : v.toNat < 2 ^ (f + 7)) (hm : v.toNat % 2 ^ f = 0) : normf f v = (0, cc4Bit) := by
  by_cases hzero : v = 0
  · rw [normf, if_pos hzero]
  have hne : v ≠ signBit f := fun h ↦ by
    rw [h, toNat_signBit] at hlow
    exact absurd hlow (lt_irrefl _)
  have hmant : v &&& mantMask f = 0 := BitVec.eq_of_toNat_eq (by
    rw [toNat_and_mantMask, hm]
    rfl)
  have hex : v &&& (signBit f ||| exMask f) ≠ 0 := by
    obtain ⟨-, hpow, hpos⟩ := pow_fields f
    have hpos' : v.toNat ≠ 0 := fun h ↦ hzero (BitVec.eq_of_toNat_eq h)
    have hdiv := Nat.div_add_mod v.toNat (2 ^ f)
    have hquot : v.toNat / 2 ^ f < 128 := (Nat.div_lt_iff_lt_mul hpos).mpr (by lia)
    have hor : v &&& (signBit f ||| exMask f) = v &&& exMask f := by
      rw [BitVec.and_or_distrib_left, (and_signBit_eq_zero v).mpr hlow]
      exact BitVec.zero_or
    intro h0
    have hfield := congrArg BitVec.toNat h0
    rw [hor, toNat_and_exMask, Nat.mod_eq_of_lt hquot, mul_comm] at hfield
    exact hpos' (by
      rw [← hdiv, hfield, hm]
      rfl)
  rw [normf, if_neg hzero, if_neg hne, if_pos ⟨(and_signBit_eq_zero v).mpr hlow, hex, hmant⟩]

/-- The negative zero is an overflow. -/
lemma normf_signBit (f : ℕ) : normf f (signBit f) = (signBit f ||| 1, cc1Bit ||| cc3Bit ||| cc4Bit) := by
  have hne : signBit f ≠ 0 := fun h ↦ by
    have hnat := congrArg BitVec.toNat h
    rw [toNat_signBit] at hnat
    exact absurd hnat (by positivity)
  rw [normf, if_neg hne, if_pos rfl]

/-- The fraction minus one is a power of 16. -/
lemma normf_minusOne (hf : 4 ≤ f) {y : ℕ} (hy : y < 127) (hv : v.toNat = (129 + y) * 2 ^ f) :
    ∃ n : Number f, normf f v = (n.word, n.cc) ∧ n.neg = true ∧ n.exp = 127 - y ∧ n.frac = 2 ^ (f - 4) := by
  obtain ⟨hpow, hpow', hpos⟩ := pow_fields f
  have hdigits := pow_digit hf
  have hge : 2 ^ (f + 7) < v.toNat := by
    rw [hv, hpow', Nat.mul_lt_mul_right hpos]
    omega
  have hne : v ≠ signBit f := fun h ↦ by
    rw [h, toNat_signBit] at hge
    exact absurd hge (lt_irrefl _)
  have hfix := toNat_fixMinusOne hf hy hv
  obtain ⟨-, hkept⟩ := value_fixMinusOne hf hne
  obtain ⟨hge', hm'⟩ := hkept hge.le
  have hrest : (fixMinusOne f v).toNat % 2 ^ f = 15 * 2 ^ (f - 4) := by
    rw [hfix, mul_comm (128 + y), Nat.mul_add_mod, Nat.mod_eq_of_lt (by omega)]
  have hquot : (fixMinusOne f v).toNat / 2 ^ f = 128 + y := by
    rw [hfix, mul_comm (128 + y), Nat.mul_add_div hpos, Nat.div_eq_of_lt (by omega), Nat.add_zero]
  have hlt := (fixMinusOne f v).isLt
  have hmag := magnitude_of_ge _ hge' hm'
  have hneg : (-fixMinusOne f v).toNat = 256 * 2 ^ f - (fixMinusOne f v).toNat := by
    rw [BitVec.toNat_neg, hpow]
    exact Nat.mod_eq_of_lt (by omega)
  have hfields := neg_fields (b := 2 ^ f) (by omega) hm'
  have hm : (-fixMinusOne f v &&& mantMask f).toNat = 2 ^ (f - 4) := by
    rw [toNat_and_mantMask, hneg, hfields.2, hrest]
    lia
  have hpow4 : 0 < 2 ^ (f - 4) := by positivity
  obtain ⟨t, r, hnorm, hr, hlow, hhigh, hnone⟩ := normf_of_magnitude hf hne (Or.inl hge.le) hmag (by lia) (by lia)
  have ht : t = 0 := hnone hm.ge
  rw [hm, ht, pow_zero, mul_one] at hr
  rw [ht, hpow, hfields.1, hquot, show 255 - (128 + y) = 127 - y by lia, Nat.cast_zero, sub_zero] at hnorm
  refine ⟨⟨true, 127 - y, 2 ^ (f - 4), by lia, by lia, le_rfl⟩, ?_, rfl, rfl, rfl⟩
  rw [hnorm]
  exact rebuild_number ⟨true, 127 - y, 2 ^ (f - 4), by lia, by lia, le_rfl⟩ hr

/-- **Normalization**: `s_normfw` and `s_normfd` report an exception, or give zero for zero, or a normalized
number that has the same value. -/
theorem normf_spec (hf : 4 ≤ f) (v : BitVec (f + 8)) : (normf f v).2 &&& cc1Bit ≠ 0 ∨
    normf f v = (0, cc4Bit) ∧ value v = 0 ∨ ∃ n : Number f, normf f v = (n.word, n.cc) ∧ n.value = value v := by
  by_cases hne : v = signBit f
  · refine Or.inl ?_
    rw [hne, normf_signBit]
    exact (by decide : (cc1Bit ||| cc3Bit ||| cc4Bit) &&& cc1Bit ≠ 0)
  by_cases hm : 2 ^ (f + 7) ≤ v.toNat ∨ v.toNat % 2 ^ f ≠ 0
  swap
  · rw [not_or, not_le, not_not] at hm
    refine Or.inr (Or.inl ⟨normf_zero hm.1 hm.2, ?_⟩)
    rw [value, if_pos hm.1, hm.2]
    simp
  obtain ⟨hsame, hkept⟩ := value_fixMinusOne hf hne
  have hm' : (fixMinusOne f v).toNat % 2 ^ f ≠ 0 := by
    rcases Nat.lt_or_ge v.toNat (2 ^ (f + 7)) with hlow | hhigh
    · have hnot : ¬ v &&& (signBit f ||| mantMask f) = signBit f := fun h ↦
        absurd (minusOne_iff.mp h).1 (not_le.mpr hlow)
      rw [fixMinusOne, if_neg hnot]
      exact hm.resolve_left (not_le.mpr hlow)
    · exact (hkept hhigh).2
  obtain ⟨e, m, hmag, he, hpos, hlt⟩ := magnitude_bounds hm'
  obtain ⟨t, r, hnorm, hr, hlow, hhigh, -⟩ := normf_of_magnitude hf hne hm hmag hpos hlt
  rw [hnorm]
  generalize decide (2 ^ (f + 7) ≤ (fixMinusOne f v).toNat) = neg at *
  rcases Nat.lt_or_ge e t with hunder | hover
  · refine Or.inl ?_
    have hcode : (cc1Bit ||| if neg then cc3Bit else cc2Bit) &&& cc1Bit ≠ 0 := by cases neg <;> decide
    rw [rebuild, if_pos (by omega)]
    exact hcode
  · right
    right
    have hexp : ((e - t : ℕ) : ℤ) = e - t := Nat.cast_sub hover
    refine ⟨⟨neg, e - t, r.toNat, by omega, hhigh, hlow⟩, ?_, ?_⟩
    · rw [← hexp]
      exact rebuild_number ⟨neg, e - t, r.toNat, by omega, hhigh, hlow⟩ rfl
    · rw [← hsame, value_of_magnitude _ (Or.inr hm') hmag]
      change (if neg then (-1 : ℚ) else 1) * (r.toNat : ℕ) * 16 ^ (((e - t : ℕ) : ℤ) - 64) / 2 ^ f = _
      rw [hr]
      have hpow : (16 : ℚ) ^ (e - 64 : ℤ) = 16 ^ t * 16 ^ (((e - t : ℕ) : ℤ) - 64) := by
        rw [hexp, ← zpow_natCast, ← zpow_add₀ (by norm_num)]
        congr 1
        ring
      rw [hpow]
      push_cast
      ring

/-! ### Normalizing twice -/

/-- The fraction of a negative word. -/
lemma Number.neg_fraction (n : Number f) : (-n.abs).toNat % 2 ^ f = 2 ^ f - n.frac := by
  obtain ⟨hpow, hpow', hpos⟩ := pow_fields f
  obtain ⟨hexp, hfrac⟩ := n.abs_fields
  have hlt := n.abs_lt
  have hfpos := n.frac_pos
  rw [n.toNat_neg_abs, hpow, (neg_fields (by omega) (by omega)).2, hfrac]

/-- A normalized number has a fraction, and is not the negative zero. -/
lemma Number.word_fraction (n : Number f) : n.word.toNat % 2 ^ f ≠ 0 ∧ n.word ≠ signBit f := by
  have hpos := n.frac_pos
  have hfrac : n.word.toNat % 2 ^ f ≠ 0 := by
    rw [word]
    split_ifs
    · rw [n.neg_fraction]
      have hlt := n.frac_lt
      omega
    · rw [n.abs_fields.2]
      omega
  refine ⟨hfrac, fun h ↦ hfrac ?_⟩
  rw [h, toNat_signBit, pow_add, Nat.mul_mod_right]

/-- The absolute value of a normalized number. -/
lemma Number.magnitude_word (n : Number f) : ∃ m, magnitude f n.word = (n.neg, n.exp, m) ∧ m.toNat = n.frac := by
  obtain ⟨hexp, hfrac⟩ := n.abs_fields
  cases hneg : n.neg with
  | false =>
      have hword : n.word = n.abs := by rw [word, hneg, if_neg Bool.false_ne_true]
      rw [hword, magnitude_of_lt _ n.abs_lt, hexp]
      exact ⟨_, rfl, by rw [toNat_and_mantMask, hfrac]⟩
  | true =>
      have hword : n.word = -n.abs := by rw [word, hneg, if_pos rfl]
      have hge : 2 ^ (f + 7) ≤ n.word.toNat := by
        have hsign := mt n.word_sign.mp (by rw [hneg]; exact Bool.noConfusion)
        rw [and_signBit_eq_zero] at hsign
        exact not_lt.mp hsign
      have hlt := n.abs.isLt
      have habs : 2 ^ (f + 8) - n.word.toNat = n.abs.toNat := by
        rw [hword, n.toNat_neg_abs]
        lia
      rw [magnitude_of_ge _ hge n.word_fraction.1, habs, hexp, n.neg_word hneg]
      exact ⟨_, rfl, by rw [toNat_and_mantMask, hfrac]⟩

/-- A normalized number is left as it is. -/
theorem normf_word (hf : 4 ≤ f) (n : Number f) : normf f n.word = (n.word, n.cc) := by
  obtain ⟨hfrac, hne⟩ := n.word_fraction
  have hpos := n.frac_pos
  have hfix : fixMinusOne f n.word = n.word := by
    rw [fixMinusOne, if_neg fun h ↦ hfrac (minusOne_iff.mp h).2]
  obtain ⟨m, hmag, hm⟩ := n.magnitude_word
  rw [← hfix] at hmag
  have hlt := n.frac_lt
  have hge := n.frac_ge
  obtain ⟨t, r, hnorm, hr, -, -, hnone⟩ := normf_of_magnitude hf hne (.inr hfrac) hmag (by omega) (by omega)
  have ht : t = 0 := hnone (by omega)
  rw [ht, pow_zero, mul_one, hm] at hr
  rw [hnorm, ht, Nat.cast_zero, sub_zero]
  exact rebuild_number n hr

/-- A word is normalized: zero, or a number with a first digit. -/
def IsNormal (f : ℕ) (v : BitVec (f + 8)) : Prop := v = 0 ∨ ∃ n : Number f, v = n.word

/-- **Normalization is right**: it reports an exception, or the result is normalized, has the value of the operand, and is left as it is
when it is normalized again. -/
theorem normalizations_spec (i : BitVec (24 + 8)) (v : BitVec (56 + 8)) :
    ((normfw i).2 &&& cc1Bit ≠ 0 ∨
      IsNormal 24 (normfw i).1 ∧ value (normfw i).1 = value i ∧ normfw (normfw i).1 = normfw i) ∧
    ((normfd v).2 &&& cc1Bit ≠ 0 ∨
      IsNormal 56 (normfd v).1 ∧ value (normfd v).1 = value v ∧ normfd (normfd v).1 = normfd v) := by
  have hnormal {f : ℕ} (hf : 4 ≤ f) (v : BitVec (f + 8)) : (normf f v).2 &&& cc1Bit ≠ 0 ∨
      IsNormal f (normf f v).1 ∧ value (normf f v).1 = value v ∧ normf f (normf f v).1 = normf f v := by
    rcases normf_spec hf v with hexcept | ⟨hzero, hvalue⟩ | ⟨n, hword, hvalue⟩
    · exact .inl hexcept
    · refine .inr ?_
      rw [hzero]
      refine ⟨.inl rfl, ?_, by rw [normf, if_pos rfl]⟩
      rw [hvalue, value, if_pos (show (0 : BitVec (f + 8)).toNat < 2 ^ (f + 7) from Nat.two_pow_pos _)]
      simp
    · refine .inr ?_
      rw [hword]
      exact ⟨.inr ⟨n, rfl⟩, n.value_word.trans hvalue, normf_word hf n⟩
  exact ⟨hnormal (by norm_num) i, hnormal (by norm_num) v⟩

end Fields

end Ka10Simh.Sel32
