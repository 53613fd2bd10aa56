import Ka10Simh.Sel32.Float.Divide
import Ka10Simh.Sel32.Float.Near

/-!
The floating point additions of a SEL 32: `s_adfw` and `s_adfd`.

The mantissas get a guard digit. The one with the smaller exponent is shifted to the right by hexadecimal digits.

* `Adder.add`: the additions; `adfw` and `adfd` differ in the parts of an `Adder`.
* `addFinish_spec`: the carry, the normalization and the guard digit at the end.
* `Dropped.near`: what is kept of a sum is near it.
* `Adder.delivered_sum`, `Adder.delivered_difference`, `deliveredTo_difference`: sums of two numbers.
* `Adder.add_symm`, `adds_deliver`: all operands.
* `adfd_wrong`: the last digit is lost in a difference.
-/

namespace Ka10Simh.Sel32

/-! ### The source -/

/-- `CMASK` and `DCMASK`, `XMASK` and `DIBMASK`: the carry out of a mantissa with its guard digit, and the bits below. -/
def cMask (f : ℕ) : BitVec (f + 8) := 1#(f + 8) <<< (f + 4)
def xMask (f : ℕ) : BitVec (f + 8) := 1#(f + 8) <<< (f + 4) - 1

/-- What the two additions do in their own ways. -/
structure Adder (f : ℕ) where
  /-- The shift for a difference of the exponents. -/
  align : ℕ → BitVec (f + 8) → BitVec (f + 8)
  /-- The rounding of a sum of two mantissas of one sign. -/
  round : Bool → ℕ → BitVec (f + 8) → BitVec (f + 8)
  /-- The bits that are kept of a sum. -/
  keep : BitVec (f + 8) → BitVec (f + 8)
  /-- The bits that are kept at the end. -/
  clear : BitVec (f + 8) → BitVec (f + 8)

/-- The parts of `s_adfw`. -/
def adderw : Adder 24 where
  align temp v := if temp > 8 then 0 else (fun v : BitVec (24 + 8) ↦ v >>> 4)^[temp] v
  round neg _ res := if neg then res + 7 else res
  keep res := res
  clear res := res

/-- The rounding of `s_adfd`. -/
def roundSum (neg : Bool) (er : ℕ) (res : Dword) : Dword :=
  if res &&& 0x0fffffffffffff80 ≠ 0x0fffffffffffff80 then
    let res := if neg then res + 7 else res
    let res := if neg ∧ er = 0x7e then res ||| 0x0f00 else res
    if neg then res else res + 0xf
  else res

/-- The parts of `s_adfd`. -/
def adderd : Adder 56 where
  align temp v := if temp > 15 then 0 else v >>> (4 * temp)
  round := roundSum
  keep res := res &&& 0xfffffffffffffff0
  clear res := res &&& mantMask 56

/-- The difference of two mantissas, and whether its sign is that of the second one. -/
def subtract (f : ℕ) (reg mem : BitVec (f + 8)) : BitVec (f + 8) × Bool :=
  let mem := (mem ^^^ xMask f) + 1
  let res := reg + mem
  if res &&& cMask f ≠ 0 then (res &&& xMask f, false) else ((res ^^^ xMask f) + 1, true)

/-- An exponent that is too large. -/
def overflowed (f : ℕ) (neg : Bool) : BitVec (f + 8) × BitVec 32 :=
  (if neg then signBit f ||| 1 else signBit f - 1, cc1Bit ||| cc4Bit ||| if neg then cc3Bit else cc2Bit)

/-- An exponent that is too small. The code of the sign is left in the low bits. -/
def underflowed (f : ℕ) (neg : Bool) : BitVec (f + 8) × BitVec 32 :=
  (0, (if neg then 1 else 2) ||| cc1Bit ||| if neg then cc3Bit else cc2Bit)

/-- The sum is normalized, its guard digit is dropped, and the result is put together. -/
def rebuildSum (f : ℕ) (clear : BitVec (f + 8) → BitVec (f + 8)) (neg : Bool) (er : ℤ) (res : BitVec (f + 8)) :
    BitVec (f + 8) × BitVec 32 :=
  if res = 0 then (0, cc4Bit)
  else
    let r := shiftWhile (noDigit f) (f / 4 + 2) res 0
    let er := er - r.2
    if er < 0 then underflowed f neg
    else
      let res := clear (r.1 >>> 4) ||| BitVec.ofInt (f + 8) er <<< f &&& exMask f
      (if neg then negate32 res else res, if neg then cc3Bit else cc2Bit)

/-- The end of the additions, from the test for a carry on. -/
def addFinish (f : ℕ) (clear : BitVec (f + 8) → BitVec (f + 8)) (neg : Bool) (er : ℤ) (res : BitVec (f + 8)) :
    BitVec (f + 8) × BitVec 32 :=
  if res &&& cMask f ≠ 0 then
    if 128 ≤ er + 1 then overflowed f neg else rebuildSum f clear neg (er + 1) (res >>> 4)
  else rebuildSum f clear neg er res

namespace Adder

variable {f : ℕ} (a : Adder f)

/-- The addition of operands that are normalized and not zero. -/
def addNormal (reg mem : BitVec (f + 8)) : BitVec (f + 8) × BitVec 32 :=
  let er := ((absi reg &&& exMask f) >>> f).toNat
  let em := ((absi mem &&& exMask f) >>> f).toNat
  let r := (absi reg &&& mantMask f) <<< 4
  let m := (absi mem &&& mantMask f) <<< 4
  let m := if em < er then a.align (er - em) m else m
  let r := if er < em then a.align (em - er) r else r
  let er := max er em
  if isNegi reg ≠ isNegi mem then
    let (res, flip) := subtract f r m
    addFinish f a.clear (isNegi reg ^^ flip) er (a.keep res)
  else addFinish f a.clear (isNegi reg) er (a.keep (a.round (isNegi reg) er (r + m)))

/-- `s_adfw` and `s_adfd`. -/
def add (reg mem : BitVec (f + 8)) : BitVec (f + 8) × BitVec 32 :=
  let r := normf f reg
  if r.2 &&& cc1Bit ≠ 0 then r
  else if mem = 0 then r
  else
    let m := normf f mem
    if m.2 &&& cc1Bit ≠ 0 then m
    else if r.1 = 0 then m
    else a.addNormal r.1 m.1

end Adder

def adfw (reg mem : BitVec (24 + 8)) : BitVec (24 + 8) × BitVec 32 := adderw.add reg mem
def adfd (reg mem : Dword) : Dword × BitVec 32 := adderd.add reg mem

/-! ### Masks -/

section Parts

variable {f R : ℕ} {v : BitVec (f + 8)}

lemma pow_guard (hf : 4 ≤ f) : 2 ^ f = 16 * 2 ^ (f - 4) ∧ 2 ^ (f + 4) = 256 * 2 ^ (f - 4) ∧ 2 ^ (f + 5) = 512 * 2 ^ (f - 4) ∧
    2 ^ (f + 8) = 4096 * 2 ^ (f - 4) := by
  obtain ⟨d, rfl⟩ := Nat.exists_eq_add_of_le hf
  rw [Nat.add_sub_cancel_left]
  refine ⟨?_, ?_, ?_, ?_⟩ <;> ring

lemma toNat_cMask (f : ℕ) : (cMask f).toNat = 2 ^ (f + 4) := by
  rw [cMask, BitVec.toNat_shiftLeft, BitVec.toNat_ofNat, Nat.shiftLeft_eq, Nat.mod_mul_mod, one_mul]
  exact Nat.mod_eq_of_lt (Nat.pow_lt_pow_right (by decide) (by omega))

lemma toNat_xMask (f : ℕ) : (xMask f).toNat = 2 ^ (f + 4) - 1 := by
  have hone : (1 : BitVec (f + 8)).toNat = 1 := Nat.mod_eq_of_lt (Nat.one_lt_two_pow (by omega))
  have hc := toNat_cMask f
  rw [cMask] at hc
  have hpos : 0 < 2 ^ (f + 4) := by positivity
  rw [xMask, BitVec.toNat_sub_of_le, hc, hone]
  rw [BitVec.le_def, hc, hone]
  omega

/-- The carry out of a mantissa with its guard digit. -/
lemma and_cMask (h : v.toNat < 2 ^ (f + 5)) : v &&& cMask f ≠ 0 ↔ 2 ^ (f + 4) ≤ v.toNat := by
  have h0 : (0 : BitVec (f + 8)).toNat = 0 := rfl
  have hpow : 2 ^ (f + 5) = 2 ^ (f + 4) * 2 := pow_succ ..
  rw [ne_eq, ← BitVec.toNat_inj, BitVec.toNat_and, toNat_cMask, h0, ← ne_eq, Word.and_pow_ne_zero]
  have hquot : v.toNat / 2 ^ (f + 4) < 2 := by
    rw [Nat.div_lt_iff_lt_mul (by positivity)]
    omega
  rw [← Nat.one_le_div_iff (by positivity : 0 < 2 ^ (f + 4))]
  generalize v.toNat / 2 ^ (f + 4) = q at *
  lia

lemma toNat_and_xMask (v : BitVec (f + 8)) : (v &&& xMask f).toNat = v.toNat % 2 ^ (f + 4) := by
  rw [BitVec.toNat_and, toNat_xMask, Nat.and_two_pow_sub_one_eq_mod]

/-- The complement of a mantissa. -/
lemma toNat_complement (h : v.toNat < 2 ^ (f + 4)) : ((v ^^^ xMask f) + 1).toNat = 2 ^ (f + 4) - v.toNat := by
  have hone : (1 : BitVec (f + 8)).toNat = 1 := Nat.mod_eq_of_lt (Nat.one_lt_two_pow (by omega))
  have hlt : 2 ^ (f + 4) < 2 ^ (f + 8) := Nat.pow_lt_pow_right (by decide) (by omega)
  rw [BitVec.toNat_add, BitVec.toNat_xor, toNat_xMask, Nat.xor_comm, Word.mask_xor h, hone, Nat.mod_eq_of_lt (by omega)]
  lia

/-- **The difference** is the absolute value of that of the mantissas. -/
theorem subtract_spec {r m : BitVec (f + 8)} (hr : r.toNat < 2 ^ (f + 4)) (hm : m.toNat < 2 ^ (f + 4)) :
    (subtract f r m).1.toNat = (if m.toNat ≤ r.toNat then r.toNat - m.toNat else m.toNat - r.toNat) ∧
      (subtract f r m).2 = decide (r.toNat < m.toNat) := by
  have hcomplement := toNat_complement hm
  have hpow : 2 ^ (f + 5) = 2 ^ (f + 4) * 2 := pow_succ ..
  have hlt : 2 ^ (f + 5) < 2 ^ (f + 8) := Nat.pow_lt_pow_right (by decide) (by omega)
  have hsum : (r + ((m ^^^ xMask f) + 1)).toNat = r.toNat + (2 ^ (f + 4) - m.toNat) := by
    rw [BitVec.toNat_add, hcomplement]
    exact Nat.mod_eq_of_lt (by omega)
  rw [subtract]
  by_cases hle : m.toNat ≤ r.toNat
  · rw [if_pos, if_pos hle, decide_eq_false (by omega)]
    · refine ⟨?_, rfl⟩
      rw [toNat_and_xMask, hsum, show r.toNat + (2 ^ (f + 4) - m.toNat) = r.toNat - m.toNat + 2 ^ (f + 4) by lia,
        Nat.add_mod_right]
      exact Nat.mod_eq_of_lt (by omega)
    · rcases Nat.eq_zero_or_pos m.toNat with h0 | hpos
      · rw [and_cMask (by omega)]
        omega
      · rw [and_cMask (by omega)]
        omega
  · rw [if_neg, if_neg hle, decide_eq_true (by omega)]
    · refine ⟨?_, rfl⟩
      rw [toNat_complement (by omega), hsum]
      lia
    · rw [and_cMask (by omega)]
      omega

/-! ### The end -/

/-- The mantissa of a sum with its guard digit: a carry is shifted back, the guard digit is dropped, or it is taken when the
sum is normalized. The unit is `16 ^ j` times that of the guard digit. -/
structure Dropped (f R : ℕ) (j : ℤ) (m : ℕ) : Prop where
  low : 2 ^ (f - 4) ≤ m
  high : m < 2 ^ f
  parts : j = 2 ∧ m = R / 256 ∧ 2 ^ (f + 4) ≤ R ∨ j = 1 ∧ m = R / 16 ∧ 2 ^ f ≤ R ∧ R < 2 ^ (f + 4) ∨
    R < 2 ^ f ∧ ∃ t : ℕ, j = -t ∧ m = R * 16 ^ t

/-- The word of a number, out of its parts. -/
lemma build_number (n : Number f) (h : v.toNat = n.frac) :
    (if n.neg then negate32 (v ||| BitVec.ofInt (f + 8) n.exp <<< f &&& exMask f)
      else v ||| BitVec.ofInt (f + 8) n.exp <<< f &&& exMask f) = n.word := by
  obtain ⟨hpow, hpow', hpos⟩ := pow_fields f
  have hexp := n.exp_lt
  have hfrac := n.frac_lt
  have hmul := Nat.mul_le_mul_right (2 ^ f) (Nat.le_of_lt_succ hexp)
  have hshift : (BitVec.ofInt (f + 8) (n.exp : ℤ) <<< f).toNat = n.exp * 2 ^ f := by
    have hsmall : n.exp < 2 ^ (f + 8) := by omega
    rw [BitVec.ofInt_natCast, BitVec.toNat_shiftLeft, BitVec.toNat_ofNat, Nat.mod_eq_of_lt hsmall, Nat.shiftLeft_eq]
    exact Nat.mod_eq_of_lt (by lia)
  have hfield : (BitVec.ofInt (f + 8) (n.exp : ℤ) <<< f &&& exMask f).toNat = n.exp * 2 ^ f := by
    rw [toNat_and_exMask, hshift, Nat.mul_div_cancel _ hpos, Nat.mod_eq_of_lt hexp]
  have habs : v ||| BitVec.ofInt (f + 8) (n.exp : ℤ) <<< f &&& exMask f = n.abs := by
    rw [← BitVec.toNat_inj, BitVec.toNat_or, h, hfield, n.toNat_abs, Nat.or_comm, ← Nat.shiftLeft_eq,
      Word.shiftLeft_or_eq hfrac, Nat.shiftLeft_eq]
  rw [habs, Number.word, negate32_eq]

variable {clear : BitVec (f + 8) → BitVec (f + 8)}

/-- A sum that is zero. -/
lemma addFinish_zero (clear : BitVec (f + 8) → BitVec (f + 8)) (neg : Bool) (er : ℤ) : addFinish f clear neg er 0 = (0, cc4Bit) := by
  have hand : (0 : BitVec (f + 8)) &&& cMask f = 0 := BitVec.zero_and
  rw [addFinish, if_neg (not_not.mpr hand), rebuildSum, if_pos rfl]

/-- The sum is shifted until it has a first digit. -/
lemma rebuildSum_spec (hclear : ∀ v, v.toNat < 2 ^ f → clear v = v) (hpos : 0 < v.toNat)
    (hlt : v.toNat < 2 ^ (f + 4)) (neg : Bool) (er : ℤ) : ∃ t : ℕ, 2 ^ f ≤ v.toNat * 16 ^ t ∧ v.toNat * 16 ^ t < 2 ^ (f + 4) ∧
      (2 ^ f ≤ v.toNat → t = 0) ∧ ∀ n : Number f, n.neg = neg → (n.exp : ℤ) = er - t → n.frac = v.toNat * 16 ^ t / 16 →
        rebuildSum f clear neg er v = (n.word, n.cc) := by
  have hturns : 2 ^ f ≤ v.toNat * 16 ^ (f / 4 + 2) := by
    have hpow : 2 ^ f ≤ 16 ^ (f / 4 + 2) := by
      rw [show (16 : ℕ) = 2 ^ 4 from rfl, ← pow_mul]
      exact Nat.pow_le_pow_right (by decide) (by omega)
    exact hpow.trans (Nat.le_mul_of_pos_left _ hpos)
  obtain ⟨t, r, hloop, hr, hlow, hhigh, hnone⟩ := shiftWhile_digits (w := f + 8) (n := 0) (by omega) hlt hturns
  rw [hr] at hlow hhigh
  refine ⟨t, hlow, hhigh, hnone, fun n hneg hexp hfrac ↦ ?_⟩
  have hne : v ≠ 0 := fun h0 ↦ by
    rw [h0] at hpos
    exact absurd hpos (lt_irrefl _)
  have hshift : (r >>> 4).toNat = n.frac := by
    rw [BitVec.toNat_ushiftRight, Nat.shiftRight_eq_div_pow, hr, hfrac]
  have hexp' : er - ((0 + t : ℕ) : ℤ) = n.exp := by
    rw [hexp, Nat.zero_add]
  rw [rebuildSum, if_neg hne, hloop]
  dsimp only
  rw [hexp', if_neg (by lia), hclear _ (by rw [hshift]; exact n.frac_lt), ← hneg, build_number n hshift, Number.cc]

/-- **The end of the additions**: the number of the mantissa without its guard digit, if it has an exponent. -/
theorem addFinish_spec (hf : 4 ≤ f) (hclear : ∀ v, v.toNat < 2 ^ f → clear v = v) (hpos : 0 < v.toNat)
    (hlt : v.toNat < 2 ^ (f + 5)) (neg : Bool) (er : ℤ) : ∃ j m, Dropped f v.toNat j m ∧
      ∀ n : Number f, n.neg = neg → (n.exp : ℤ) = er - 1 + j → n.frac = m → addFinish f clear neg er v = (n.word, n.cc) := by
  obtain ⟨htop, hguard, hcarry, hwidth⟩ := pow_guard hf
  have hmask := and_cMask hlt
  by_cases hc : 2 ^ (f + 4) ≤ v.toNat
  · have hback : (v >>> 4).toNat = v.toNat / 16 := by
      rw [BitVec.toNat_ushiftRight, Nat.shiftRight_eq_div_pow]
    obtain ⟨t, hlow, hhigh, hnone, hrebuild⟩ := rebuildSum_spec (v := v >>> 4) hclear (by lia) (by lia) neg (er + 1)
    obtain rfl := hnone (by lia)
    rw [hback, pow_zero, mul_one] at hrebuild
    refine ⟨2, v.toNat / 256, ⟨by lia, by omega, .inl ⟨rfl, rfl, hc⟩⟩, fun n hneg hexp hfrac ↦ ?_⟩
    have hlt := n.exp_lt
    rw [addFinish, if_pos (hmask.mpr hc), if_neg (by lia)]
    exact hrebuild n hneg (by push_cast; lia) (by lia)
  · obtain ⟨t, hlow, hhigh, hnone, hrebuild⟩ := rebuildSum_spec (v := v) hclear hpos (by omega) neg er
    rcases Nat.lt_or_ge v.toNat (2 ^ f) with hsmall | hlarge
    · obtain ⟨t, rfl⟩ : ∃ s, t = s + 1 := by
        refine ⟨t - 1, (Nat.sub_add_cancel (Nat.pos_of_ne_zero fun h0 ↦ ?_)).symm⟩
        rw [h0, pow_zero, mul_one] at hlow
        omega
      rw [pow_succ, ← mul_assoc] at hlow hhigh
      rw [pow_succ, ← mul_assoc, Nat.mul_div_cancel _ (by norm_num)] at hrebuild
      refine ⟨-t, v.toNat * 16 ^ t, ⟨by omega, by omega, .inr (.inr ⟨hsmall, t, rfl, rfl⟩)⟩, fun n hneg hexp hfrac ↦ ?_⟩
      rw [addFinish, if_neg (mt hmask.mp hc)]
      exact hrebuild n hneg (by push_cast; lia) hfrac
    · obtain rfl := hnone hlarge
      rw [pow_zero, mul_one] at hrebuild
      refine ⟨1, v.toNat / 16, ⟨by omega, by lia, .inr (.inl ⟨rfl, rfl, hlarge, by omega⟩)⟩, fun n hneg hexp hfrac ↦ ?_⟩
      rw [addFinish, if_neg (mt hmask.mp hc)]
      exact hrebuild n hneg (by push_cast; lia) hfrac

/-- **The mantissa is near the exact value**, when that is at most a rounding of 15 below the sum and less than one above it:
where no carry shifts the sum back it is less than one below, and where it is shifted up it is exact. -/
theorem Dropped.near {j : ℤ} {m : ℕ} {z : ℚ} (h : Dropped f R j m) (hf : 4 ≤ f) (hlow : (R : ℚ) - 15 ≤ z) (hhigh : z < R + 1)
    (hone : 2 ^ f ≤ z ∨ (R : ℚ) - 1 < z)
    (hexact : R < 2 ^ f → z = R ∨ 2 ^ (f - 4) ≤ R ∧ 2 ^ (f - 4) ≤ z ∧ (R : ℚ) - 1 < z) : Near f z j m := by
  obtain ⟨hm, hm', hparts⟩ := h
  have htop := pow_top hf
  have hguard : (2 : ℚ) ^ (f + 4) = 256 * 2 ^ (f - 4) := by exact_mod_cast (pow_guard hf).2.1
  obtain ⟨rfl, rfl, hge⟩ | ⟨rfl, rfl, hge, hlt⟩ | ⟨hlt, t, rfl, rfl⟩ := hparts
  · have hge' : (2 : ℚ) ^ (f + 4) ≤ R := by exact_mod_cast hge
    have hdiv : (256 * (R / 256 : ℕ) : ℚ) ≤ R ∧ (R : ℚ) ≤ 256 * (R / 256 : ℕ) + 255 := by
      constructor <;> norm_cast <;> lia
    refine ⟨hm, hm', ?_, fun hbelow ↦ ?_⟩
    · rw [abs_lt]
      constructor <;> norm_num <;> linarith
    · norm_num at hbelow ⊢
      linarith
  · have hge' : (2 : ℚ) ^ f ≤ R := by exact_mod_cast hge
    have hdiv : (16 * (R / 16 : ℕ) : ℚ) ≤ R ∧ (R : ℚ) ≤ 16 * (R / 16 : ℕ) + 15 := by
      constructor <;> norm_cast <;> omega
    refine ⟨hm, hm', ?_, fun hbelow ↦ ?_⟩
    · rw [abs_lt]
      constructor <;> norm_num <;> linarith
    · norm_num at hbelow ⊢
      rcases hone with h | h <;> linarith
  · have hmul : (((R * 16 ^ t : ℕ) : ℚ)) * 16 ^ (-(t : ℤ)) = R := by
      push_cast
      rw [zpow_neg, zpow_natCast, mul_assoc, mul_inv_cancel₀ (by positivity), mul_one]
    have hpos : (0 : ℚ) < 16 ^ (-(t : ℤ)) := by positivity
    rcases hexact hlt with rfl | ⟨hR, hz, hz'⟩
    · refine ⟨hm, hm', by rw [hmul, sub_self, abs_zero]; exact hpos, fun hbelow ↦ ?_⟩
      have hcast : (2 : ℚ) ^ (f - 4) ≤ (R * 16 ^ t : ℕ) := by exact_mod_cast hm
      have hle := mul_le_mul_of_nonneg_right hcast hpos.le
      rw [hmul] at hle
      linarith
    · obtain rfl : t = 0 := by
        by_contra ht
        have hsix : 16 ^ 1 ≤ 16 ^ t := Nat.pow_le_pow_right (by norm_num) (by omega)
        have hle : R * 16 ^ 1 ≤ R * 16 ^ t := Nat.mul_le_mul_left _ hsix
        have := pow_digit hf
        omega
      refine ⟨hm, hm', ?_, fun hbelow ↦ ?_⟩
      · rw [abs_lt]
        constructor <;> norm_num <;> linarith
      · norm_num at hbelow
        linarith

/-- The mantissa is near the exact value too when the guard digit of the sum is zero, and the value is less than a unit
above it. -/
lemma Dropped.near_of_dvd {j : ℤ} {m : ℕ} {z : ℚ} (h : Dropped f R j m) (hf : 4 ≤ f) (hdvd : R % 16 = 0) (hge : 2 ^ f ≤ R)
    (hlow : (R : ℚ) - 15 ≤ z) (hhigh : z < R + 16) (hz : 2 ^ f ≤ z) : Near f z j m := by
  obtain ⟨hm, hm', hparts⟩ := h
  have hguard : 2 ^ (f + 4) = 16 * 2 ^ f := by ring
  have hguard' : (2 : ℚ) ^ (f + 4) = 16 * 2 ^ f := by ring
  obtain ⟨rfl, rfl, hcarry⟩ | ⟨rfl, rfl, -, -⟩ | ⟨hlt, -⟩ := hparts
  · have hcarry' : (2 : ℚ) ^ (f + 4) ≤ R := by exact_mod_cast hcarry
    have hdiv : (256 * (R / 256 : ℕ) : ℚ) ≤ R ∧ (R : ℚ) ≤ 256 * (R / 256 : ℕ) + 240 := by
      constructor <;> norm_cast <;> lia
    refine ⟨hm, hm', ?_, fun hbelow ↦ ?_⟩
    · rw [abs_lt]
      constructor <;> norm_num <;> linarith
    · have htop : (2 : ℚ) ^ (f - 4) * 16 ^ (2 : ℤ) ≤ R := by
        have hcast : ((2 ^ (f - 4) * 16 ^ 2 : ℕ) : ℚ) ≤ R := by
          exact_mod_cast (by lia : 2 ^ (f - 4) * 16 ^ 2 ≤ R)
        push_cast at hcast
        exact_mod_cast hcast
      norm_num at hbelow htop ⊢
      linarith
  · have hdiv : (16 * (R / 16 : ℕ) : ℚ) = R := by
      norm_cast
      omega
    refine ⟨hm, hm', ?_, fun hbelow ↦ ?_⟩
    · rw [abs_lt]
      constructor <;> norm_num <;> linarith
    · exfalso
      have htop : (2 : ℚ) ^ (f - 4) * 16 ^ (1 : ℤ) ≤ 2 ^ f := by
        have hpow := pow_top hf
        norm_num
        linarith
      linarith
  · omega

end Parts

/-! ### The operands -/

section Operands

variable {f : ℕ}

/-- A mantissa with its guard digit, shifted by `d` digits. -/
def Number.shifted (n : Number f) (d : ℕ) : ℚ := 16 * n.frac / 16 ^ d

lemma Number.value_shifted (n : Number f) {e : ℕ} (he : n.exp ≤ e) :
    n.value = (if n.neg then -1 else 1) * (n.shifted (e - n.exp) * unit f (e - 1)) := by
  obtain ⟨d, rfl⟩ := Nat.exists_eq_add_of_le he
  rw [n.value_eq, Nat.add_sub_cancel_left, shifted]
  have hunit : unit f ((n.exp + d : ℕ) - 1) = 16 ^ d / 16 * unit f n.exp := by
    rw [show (((n.exp + d : ℕ) : ℤ) - 1) = n.exp + (d - 1 : ℤ) by push_cast; ring, unit_add, zpow_sub₀ (by norm_num),
      zpow_natCast, zpow_one]
  have hne : (16 : ℚ) ^ d ≠ 0 := by positivity
  rw [hunit]
  field_simp

/-- What is left of it, and what is lost. -/
lemma Number.shifted_floor (n : Number f) (d : ℕ) :
    ((16 * n.frac / 16 ^ d : ℕ) : ℚ) ≤ n.shifted d ∧ n.shifted d < (16 * n.frac / 16 ^ d : ℕ) + 1 := by
  have hpos : (0 : ℚ) < 16 ^ d := by positivity
  rw [shifted, le_div_iff₀ hpos, div_lt_iff₀ hpos]
  constructor
  · exact_mod_cast Nat.div_mul_le_self (16 * n.frac) (16 ^ d)
  · exact_mod_cast Nat.lt_mul_of_div_lt (Nat.lt_succ_self (16 * n.frac / 16 ^ d)) (by positivity)

/-- Nothing is lost by a shift of one digit. -/
lemma Number.shifted_exact (n : Number f) {d : ℕ} (hd : d ≤ 1) : n.shifted d = (16 * n.frac / 16 ^ d : ℕ) := by
  rw [shifted]
  interval_cases d <;> simp

lemma Number.shifted_small (hf : 4 ≤ f) (n : Number f) {d : ℕ} (hd : 2 ≤ d) : n.shifted d < 2 ^ (f - 4) := by
  have hfrac : (n.frac : ℚ) < 16 * 2 ^ (f - 4) := by
    rw [← pow_top hf]
    exact_mod_cast n.frac_lt
  have hpow : (16 : ℚ) ^ 2 ≤ 16 ^ d := pow_le_pow_right₀ (by norm_num) hd
  have hpos : (0 : ℚ) < 2 ^ (f - 4) := by positivity
  rw [shifted, div_lt_iff₀ (by positivity)]
  calc (16 : ℚ) * n.frac < 2 ^ (f - 4) * 16 ^ 2 := by linarith
    _ ≤ _ := mul_le_mul_of_nonneg_left hpow hpos.le

/-- Two mantissas and what is left of them: nothing is lost, or the smaller one is below the last digit of the other. -/
structure Aligned (f : ℕ) (z z' : ℚ) (r r' : ℕ) : Prop where
  floor : (r : ℚ) ≤ z ∧ z < r + 1
  floor' : (r' : ℚ) ≤ z' ∧ z' < r' + 1
  top : 2 ^ f ≤ r ∨ 2 ^ f ≤ r'
  exact : z = r ∧ z' = r' ∨ z = r ∧ 2 ^ f ≤ r ∧ z' < 2 ^ (f - 4) ∨ z' = r' ∧ 2 ^ f ≤ r' ∧ z < 2 ^ (f - 4)

/-- The operands with the greater exponent. -/
lemma aligned (hf : 4 ≤ f) (n m : Number f) : Aligned f (n.shifted (max n.exp m.exp - n.exp))
    (m.shifted (max n.exp m.exp - m.exp)) (16 * n.frac / 16 ^ (max n.exp m.exp - n.exp))
    (16 * m.frac / 16 ^ (max n.exp m.exp - m.exp)) := by
  have hpow := pow_digit hf
  have htop (p : Number f) : 2 ^ f ≤ 16 * p.frac / 16 ^ 0 := by
    have := p.frac_ge
    rw [pow_zero, Nat.div_one]
    omega
  refine ⟨n.shifted_floor _, m.shifted_floor _, ?_, ?_⟩
  · rcases le_total n.exp m.exp with h | h
    · right
      rw [max_eq_right h, Nat.sub_self]
      exact htop m
    · left
      rw [max_eq_left h, Nat.sub_self]
      exact htop n
  · rcases le_total n.exp m.exp with h | h
    · rw [max_eq_right h, Nat.sub_self]
      have hexact := m.shifted_exact (d := 0) (by norm_num)
      rcases Nat.lt_or_ge (m.exp - n.exp) 2 with hd | hd
      · exact .inl ⟨n.shifted_exact (by omega), hexact⟩
      · exact .inr (.inr ⟨hexact, htop m, n.shifted_small hf hd⟩)
    · rw [max_eq_left h, Nat.sub_self]
      have hexact := n.shifted_exact (d := 0) (by norm_num)
      rcases Nat.lt_or_ge (n.exp - m.exp) 2 with hd | hd
      · exact .inl ⟨hexact, m.shifted_exact (by omega)⟩
      · exact .inr (.inl ⟨hexact, htop n, m.shifted_small hf hd⟩)

/-- The sum of the mantissas. -/
lemma Aligned.sum {z z' : ℚ} {r r' : ℕ} (h : Aligned f z z' r r') :
    ((r + r' : ℕ) : ℚ) ≤ z + z' ∧ z + z' < (r + r' : ℕ) + 1 ∧ 2 ^ f ≤ r + r' := by
  obtain ⟨⟨hlow, hhigh⟩, ⟨hlow', hhigh'⟩, htop, hexact⟩ := h
  push_cast
  refine ⟨by linarith, ?_, by omega⟩
  rcases hexact with ⟨h, -⟩ | ⟨h, -, -⟩ | ⟨h, -, -⟩ <;> linarith

/-- Their difference, the greater one less the other. -/
lemma Aligned.difference {z z' : ℚ} {r r' : ℕ} (h : Aligned f z z' r r') (hf : 4 ≤ f) (hle : r' ≤ r) :
    ((r - r' : ℕ) : ℚ) - 1 < z - z' ∧ z - z' ≤ (r - r' : ℕ) ∧
      (z - z' = (r - r' : ℕ) ∨ 2 ^ f ≤ r ∧ r' < 2 ^ (f - 4) ∧ 2 ^ f - 2 ^ (f - 4) < z - z') := by
  obtain ⟨⟨hlow, hhigh⟩, ⟨hlow', hhigh'⟩, -, hexact⟩ := h
  have hpow := pow_digit hf
  have hpos : 0 < 2 ^ (f - 4) := by positivity
  rw [Nat.cast_sub hle]
  rcases hexact with ⟨h, h'⟩ | ⟨h, htop, h'⟩ | ⟨h, htop, h'⟩
  · exact ⟨by linarith, by linarith, .inl (by rw [h, h'])⟩
  · have hcast : (2 : ℚ) ^ f ≤ r := by exact_mod_cast htop
    have hsmall : r' < 2 ^ (f - 4) := by
      have hlt : (r' : ℚ) < 2 ^ (f - 4) := by linarith
      exact_mod_cast hlt
    exact ⟨by linarith, by linarith, .inr ⟨htop, hsmall, by linarith⟩⟩
  · -- the smaller mantissa is not the second one then
    exfalso
    have hsmall : r < 2 ^ (f - 4) := by
      have hlt : (r : ℚ) < 2 ^ (f - 4) := by linarith
      exact_mod_cast hlt
    omega

lemma Aligned.symm {z z' : ℚ} {r r' : ℕ} (h : Aligned f z z' r r') : Aligned f z' z r' r :=
  ⟨h.floor', h.floor, h.top.symm, by
    rcases h.exact with ⟨h, h'⟩ | h | h
    · exact .inl ⟨h', h⟩
    · exact .inr (.inr h)
    · exact .inr (.inl h)⟩

/-- What the parts of an adder have in common. -/
structure Adder.Lawful (a : Adder f) : Prop where
  align : ∀ d v, (a.align d v).toNat = v.toNat / 16 ^ d
  keep : a.keep 0 = 0
  clear : ∀ v, v.toNat < 2 ^ f → a.clear v = v

namespace Adder

variable {a : Adder f}

/-- The mantissa of an operand, with the exponent `e`. -/
def aligned (a : Adder f) (n : Number f) (e : ℕ) : BitVec (f + 8) := a.align (e - n.exp) ((n.abs &&& mantMask f) <<< 4)

lemma toNat_aligned (h : a.Lawful) (n : Number f) (e : ℕ) : (a.aligned n e).toNat = 16 * n.frac / 16 ^ (e - n.exp) := by
  obtain ⟨hpow, -, hpos⟩ := pow_fields f
  have hfrac := n.frac_lt
  rw [aligned, h.align, BitVec.toNat_shiftLeft, n.frac_abs, Nat.shiftLeft_eq, Nat.mod_eq_of_lt (by omega), mul_comm]

lemma aligned_lt (h : a.Lawful) (n : Number f) (e : ℕ) : (a.aligned n e).toNat < 2 ^ (f + 4) := by
  have hfrac := n.frac_lt
  have hle := Nat.div_le_self (16 * n.frac) (16 ^ (e - n.exp))
  rw [toNat_aligned h, pow_add]
  omega

/-- The addition of two numbers. -/
lemma addNormal_word (h : a.Lawful) (n m : Number f) {e : ℕ} (he : e = max n.exp m.exp) :
    a.addNormal n.word m.word =
      if n.neg ≠ m.neg then
        addFinish f a.clear (n.neg ^^ (subtract f (a.aligned n e) (a.aligned m e)).2) e
          (a.keep (subtract f (a.aligned n e) (a.aligned m e)).1)
      else addFinish f a.clear n.neg e (a.keep (a.round n.neg e (a.aligned n e + a.aligned m e))) := by
  have hstay (v : BitVec (f + 8)) : a.align 0 v = v := BitVec.eq_of_toNat_eq (by
    rw [h.align, pow_zero, Nat.div_one])
  have hn : (if n.exp < m.exp then a.align (m.exp - n.exp) ((n.abs &&& mantMask f) <<< 4) else (n.abs &&& mantMask f) <<< 4) =
      a.aligned n e := by
    rw [aligned, he]
    split_ifs with hlt
    · rw [max_eq_right hlt.le]
    · rw [max_eq_left (by omega), Nat.sub_self, hstay]
  have hm : (if m.exp < n.exp then a.align (n.exp - m.exp) ((m.abs &&& mantMask f) <<< 4) else (m.abs &&& mantMask f) <<< 4) =
      a.aligned m e := by
    rw [aligned, he]
    split_ifs with hlt
    · rw [max_eq_left hlt.le]
    · rw [max_eq_right (by omega), Nat.sub_self, hstay]
  rw [addNormal]
  simp only [absi_word, isNegi_word, n.exp_abs, m.exp_abs, hn, hm, ← he]

/-- **The addition of two numbers is commutative.** -/
theorem addNormal_comm (h : a.Lawful) (n m : Number f) : a.addNormal n.word m.word = a.addNormal m.word n.word := by
  obtain ⟨e, he⟩ : ∃ e, e = max n.exp m.exp := ⟨_, rfl⟩
  rw [addNormal_word h n m he, addNormal_word h m n (he.trans (max_comm _ _))]
  obtain ⟨hsub, hflip⟩ := subtract_spec (aligned_lt h n e) (aligned_lt h m e)
  obtain ⟨hsub', hflip'⟩ := subtract_spec (aligned_lt h m e) (aligned_lt h n e)
  by_cases hneg : n.neg = m.neg
  · rw [if_neg (not_not.mpr hneg), if_neg (not_not.mpr hneg.symm), BitVec.add_comm, hneg]
  · have hsame : (subtract f (a.aligned m e) (a.aligned n e)).1 = (subtract f (a.aligned n e) (a.aligned m e)).1 := by
      refine BitVec.eq_of_toNat_eq ?_
      rw [hsub, hsub']
      split_ifs <;> lia
    rw [if_pos hneg, if_pos (Ne.symm hneg), hsame, hflip, hflip']
    rcases lt_trichotomy (a.aligned n e).toNat (a.aligned m e).toNat with hlt | heq | hgt
    · rw [decide_eq_true hlt, decide_eq_false (by omega), show (n.neg ^^ true) = (m.neg ^^ false) by
        revert hneg
        cases n.neg <;> cases m.neg <;> simp]
    · -- the sign of a difference that is zero is not used
      have hzero : (subtract f (a.aligned n e) (a.aligned m e)).1 = 0 := by
        refine BitVec.eq_of_toNat_eq ?_
        rw [hsub, if_pos heq.ge, heq, Nat.sub_self]
        rfl
      rw [hzero, h.keep, addFinish_zero, addFinish_zero]
    · rw [decide_eq_false (by omega), decide_eq_true hgt, show (n.neg ^^ false) = (m.neg ^^ true) by
        revert hneg
        cases n.neg <;> cases m.neg <;> simp]

end Adder

/-- The end of an addition delivers the exact value when the mantissa is near it. -/
lemma addFinish_delivered (hf : 4 ≤ f) {clear : BitVec (f + 8) → BitVec (f + 8)} (hclear : ∀ v, v.toNat < 2 ^ f → clear v = v)
    {v : BitVec (f + 8)} (hpos : 0 < v.toNat) (hlt : v.toNat < 2 ^ (f + 5)) {z x : ℚ} (hz : 0 < z)
    (hnear : ∀ j m, Dropped f v.toNat j m → Near f z j m) {neg : Bool} {e : ℕ}
    (hx : x = (if neg then -1 else 1) * (z * unit f (e - 1))) (hrange : InRange f x) :
    Delivered f x (addFinish f clear neg e v) := by
  obtain ⟨j, m, hdropped, hfinish⟩ := addFinish_spec hf hclear hpos hlt neg e
  obtain ⟨n, hneg, hexp, hfrac, hdelivered⟩ := (hnear j m hdropped).delivered hf hz hx hrange
  rwa [hfinish n hneg hexp hfrac]

/-- The sum of two numbers of one sign. -/
lemma value_sum (n m : Number f) (hneg : n.neg = m.neg) {e : ℕ} (he : e = max n.exp m.exp) :
    n.value + m.value = (if n.neg then -1 else 1) * ((n.shifted (e - n.exp) + m.shifted (e - m.exp)) * unit f (e - 1)) := by
  rw [n.value_shifted (he ▸ le_max_left ..), m.value_shifted (he ▸ le_max_right ..), hneg]
  ring

/-- The sum of two numbers of different signs. -/
lemma value_difference (n m : Number f) (hneg : n.neg ≠ m.neg) {e : ℕ} (he : e = max n.exp m.exp) :
    n.value + m.value = (if n.neg then -1 else 1) * ((n.shifted (e - n.exp) - m.shifted (e - m.exp)) * unit f (e - 1)) := by
  rw [n.value_shifted (he ▸ le_max_left ..), m.value_shifted (he ▸ le_max_right ..)]
  revert hneg
  cases n.neg <;> cases m.neg <;> simp <;> ring

namespace Adder

variable {a : Adder f}

/-- The rounding of a sum adds 7 at most to the guard digit, or leaves a guard digit zero. -/
def RoundsAt (a : Adder f) (neg : Bool) (e : ℕ) : Prop := ∀ v : BitVec (f + 8), v.toNat + 32 ≤ 2 ^ (f + 5) →
  let r := (a.keep (a.round neg e v)).toNat
  v.toNat ≤ r ∧ r ≤ v.toNat + 7 ∨ r % 16 = 0 ∧ v.toNat ≤ r + 15 ∧ r ≤ v.toNat + 15

/-- **The sum of two numbers of one sign** is delivered. -/
theorem delivered_sum (h : a.Lawful) (hf : 4 ≤ f) (n m : Number f) (hneg : n.neg = m.neg)
    (hround : a.RoundsAt n.neg (max n.exp m.exp)) (hrange : InRange f (n.value + m.value)) :
    Delivered f (n.value + m.value) (a.addNormal n.word m.word) := by
  obtain ⟨e, he⟩ : ∃ e, e = max n.exp m.exp := ⟨_, rfl⟩
  have haligned := Sel32.aligned hf n m
  rw [← he] at haligned hround
  obtain ⟨hlow, hhigh, hge⟩ := haligned.sum
  have hr := toNat_aligned h n e
  have hr' := toNat_aligned h m e
  have hpow := pow_guard hf
  have hbound (p : Number f) (d : ℕ) : 16 * p.frac / 16 ^ d + 16 ≤ 2 ^ (f + 4) := by
    have hfrac := p.frac_lt
    have hle := Nat.div_le_self (16 * p.frac) (16 ^ d)
    lia
  have hn := hbound n (e - n.exp)
  have hm := hbound m (e - m.exp)
  have hsum : (a.aligned n e + a.aligned m e).toNat = 16 * n.frac / 16 ^ (e - n.exp) + 16 * m.frac / 16 ^ (e - m.exp) := by
    rw [BitVec.toNat_add, hr, hr']
    exact Nat.mod_eq_of_lt (by lia)
  have hbig : 16 * n.frac / 16 ^ (e - n.exp) + 16 * m.frac / 16 ^ (e - m.exp) + 32 ≤ 2 ^ (f + 5) := by lia
  have hgood := hround (a.aligned n e + a.aligned m e) (by lia)
  rw [addNormal_word h n m he, if_neg (not_not.mpr hneg)]
  dsimp only at hgood
  generalize a.keep (a.round n.neg e (a.aligned n e + a.aligned m e)) = v at *
  rw [hsum] at hgood
  generalize 16 * n.frac / 16 ^ (e - n.exp) + 16 * m.frac / 16 ^ (e - m.exp) = total at *
  have hz : (2 : ℚ) ^ f ≤ n.shifted (e - n.exp) + m.shifted (e - m.exp) := by
    have hcast : (2 : ℚ) ^ f ≤ total := by exact_mod_cast hge
    linarith
  have hpos : (0 : ℚ) < 2 ^ f := by positivity
  refine addFinish_delivered hf h.clear (by lia) (by lia) (hpos.trans_le hz) (fun j i hdropped ↦ ?_)
    (value_sum n m hneg he) hrange
  rcases hgood with ⟨hle, hle'⟩ | ⟨hdvd, hle, hle'⟩
  · have hcast : (total : ℚ) ≤ v.toNat := by exact_mod_cast hle
    have hcast' : (v.toNat : ℚ) ≤ total + 7 := by exact_mod_cast hle'
    exact hdropped.near hf (by linarith) (by linarith) (.inl hz) fun hlt ↦ by lia
  · have hcast : (total : ℚ) ≤ v.toNat + 15 := by exact_mod_cast hle
    have hcast' : (v.toNat : ℚ) ≤ total + 15 := by exact_mod_cast hle'
    exact hdropped.near_of_dvd hf hdvd (by lia) (by linarith) (by linarith) hz

/-- The difference, with the greater mantissa first. -/
lemma difference_spec (h : a.Lawful) (hf : 4 ≤ f) (n m : Number f) (hneg : n.neg ≠ m.neg) {e : ℕ} (he : e = max n.exp m.exp) :
    ∃ (neg : Bool) (v : BitVec (f + 8)) (z : ℚ), a.addNormal n.word m.word = addFinish f a.clear neg e (a.keep v) ∧
      n.value + m.value = (if neg then -1 else 1) * (z * unit f (e - 1)) ∧ v.toNat < 2 ^ (f + 4) ∧ (v.toNat : ℚ) - 1 < z ∧
      z ≤ v.toNat ∧ (z = v.toNat ∨ 2 ^ (f - 4) < v.toNat ∧ 2 ^ (f - 4) ≤ z) := by
  have haligned := Sel32.aligned hf n m
  have hn := aligned_lt h n e
  have hm := aligned_lt h m e
  obtain ⟨hsub, hflip⟩ := subtract_spec hn hm
  have hpow := pow_guard hf
  have hpow' := pow_top hf
  have hpos : (0 : ℚ) < 2 ^ (f - 4) := by positivity
  have hpos' : 0 < 2 ^ (f - 4) := by positivity
  rw [← he, ← toNat_aligned h, ← toNat_aligned h] at haligned
  rw [addNormal_word h n m he, if_pos hneg]
  rcases Nat.lt_or_ge (a.aligned n e).toNat (a.aligned m e).toNat with hlt | hle
  · obtain ⟨hlow, hhigh, hexact⟩ := haligned.symm.difference hf hlt.le
    rw [if_neg (by omega)] at hsub
    refine ⟨_, _, m.shifted (e - m.exp) - n.shifted (e - n.exp), rfl, ?_, by omega, by rw [hsub]; exact hlow,
      by rw [hsub]; exact hhigh, ?_⟩
    · rw [value_difference n m hneg he, hflip, decide_eq_true hlt]
      cases n.neg <;> simp <;> ring
    · rw [hsub]
      exact hexact.imp_right fun ⟨htop, hsmall, hz⟩ ↦ ⟨by lia, by linarith⟩
  · obtain ⟨hlow, hhigh, hexact⟩ := haligned.difference hf hle
    rw [if_pos hle] at hsub
    refine ⟨_, _, n.shifted (e - n.exp) - m.shifted (e - m.exp), rfl, ?_, by omega, by rw [hsub]; exact hlow,
      by rw [hsub]; exact hhigh, ?_⟩
    · rw [value_difference n m hneg he, hflip, decide_eq_false (by omega), Bool.xor_false]
    · rw [hsub]
      exact hexact.imp_right fun ⟨htop, hsmall, hz⟩ ↦ ⟨by omega, by linarith⟩

/-- **The sum of two numbers of different signs** is delivered when the guard digit is kept. -/
theorem delivered_difference (h : a.Lawful) (hf : 4 ≤ f) (hkeep : ∀ v, a.keep v = v) (n m : Number f) (hneg : n.neg ≠ m.neg)
    (hrange : InRange f (n.value + m.value)) : Delivered f (n.value + m.value) (a.addNormal n.word m.word) := by
  obtain ⟨neg, v, z, hadd, hx, hlt, hlow, hhigh, hexact⟩ := difference_spec h hf n m hneg rfl
  have hpow := pow_guard hf
  rw [hadd, hkeep]
  rcases Nat.eq_zero_or_pos v.toNat with hzero | hpos
  · have hz : z = 0 := by
      rcases hexact with hz | ⟨hgt, -⟩
      · rw [hz, hzero, Nat.cast_zero]
      · omega
    obtain rfl : v = 0 := BitVec.eq_of_toNat_eq hzero
    rw [hx, hz, zero_mul, mul_zero, addFinish_zero]
    exact .inl ⟨rfl, rfl⟩
  · have hcast : (1 : ℚ) ≤ v.toNat := by exact_mod_cast hpos
    refine addFinish_delivered hf h.clear hpos (by omega) (by linarith) (fun j i hdropped ↦ ?_) hx hrange
    refine hdropped.near hf (by linarith) (by linarith) (.inr hlow) fun _ ↦ ?_
    exact hexact.imp_right fun ⟨hgt, hz⟩ ↦ ⟨hgt.le, hz, hlow⟩

end Adder

end Operands

/-! ### Words and double words -/

lemma shiftDigits (d : ℕ) (v : BitVec (24 + 8)) : ((fun v : BitVec (24 + 8) ↦ v >>> 4)^[d] v).toNat = v.toNat / 16 ^ d := by
  induction d with
  | zero => simp
  | succ d ih =>
      rw [Function.iterate_succ_apply', BitVec.toNat_ushiftRight, ih, Nat.shiftRight_eq_div_pow, Nat.div_div_eq_div_mul,
        pow_succ 16 d]

lemma lawful_adderw : adderw.Lawful where
  align d v := by
    show (if d > 8 then 0 else (fun v : BitVec (24 + 8) ↦ v >>> 4)^[d] v : BitVec (24 + 8)).toNat = _
    split_ifs with h
    · have hlt := v.isLt
      have hpow : 16 ^ 8 ≤ 16 ^ d := Nat.pow_le_pow_right (by norm_num) h.le
      rw [Nat.div_eq_of_lt (by omega)]
      rfl
    · exact shiftDigits d v
  keep := rfl
  clear _ _ := rfl

lemma lawful_adderd : adderd.Lawful where
  align d v := by
    show (if d > 15 then 0 else v >>> (4 * d)).toNat = _
    split_ifs with h
    · have hlt := v.isLt
      have hpow : 16 ^ 16 ≤ 16 ^ d := Nat.pow_le_pow_right (by norm_num) h
      rw [Nat.div_eq_of_lt (by omega)]
      rfl
    · rw [BitVec.toNat_ushiftRight, Nat.shiftRight_eq_div_pow, pow_mul]
      rfl
  keep := rfl
  clear v h := BitVec.eq_of_toNat_eq (by
    show (v &&& mantMask 56).toNat = _
    rw [toNat_and_mantMask, Nat.mod_eq_of_lt h])

/-- Seven is added to a negative sum. -/
lemma rounds_adderw (neg : Bool) (e : ℕ) : adderw.RoundsAt neg e := by
  intro v hv
  have hseven : (7 : BitVec (24 + 8)).toNat = 7 := rfl
  left
  show v.toNat ≤ (if neg then v + 7 else v).toNat ∧ (if neg then v + 7 else v).toNat ≤ v.toNat + 7
  cases neg with
  | false => exact ⟨le_rfl, Nat.le_add_right ..⟩
  | true =>
      have hsum : (v + 7).toNat = v.toNat + 7 := by
        rw [BitVec.toNat_add, hseven]
        exact Nat.mod_eq_of_lt (by omega)
      rw [if_pos rfl, hsum]
      omega

/-- The guard digit is dropped. -/
lemma toNat_keep (v : Dword) : (adderd.keep v).toNat = v.toNat / 16 * 16 := by
  have hmask : (0xfffffffffffffff0 : Dword).toNat = (2 ^ 60 - 1) <<< 4 := rfl
  have hlt := v.isLt
  show (v &&& 0xfffffffffffffff0).toNat = _
  rw [BitVec.toNat_and, hmask, Word.and_shiftLeft, Nat.and_two_pow_sub_one_eq_mod, Nat.shiftRight_eq_div_pow,
    Nat.shiftLeft_eq]
  lia

/-- The guard digit is dropped after the rounding. -/
lemma rounds_adderd {neg : Bool} {e : ℕ} (h : ¬ (neg = true ∧ e = 0x7e)) : adderd.RoundsAt neg e := by
  intro v hv
  have hseven : (7 : Dword).toNat = 7 := rfl
  have hones : (0xf : Dword).toNat = 15 := rfl
  have hadd (n : Dword) (hn : n.toNat ≤ 15) : (v + n).toNat = v.toNat + n.toNat := by
    rw [BitVec.toNat_add]
    exact Nat.mod_eq_of_lt (by omega)
  right
  have hround : adderd.round neg e v =
      if v &&& 0x0fffffffffffff80 ≠ 0x0fffffffffffff80 then (if neg then v + 7 else v + 0xf) else v := by
    show roundSum neg e v = _
    rw [roundSum]
    cases neg with
    | false => rfl
    | true =>
        simp only [true_and] at h
        simp only [h, and_false, if_true, if_false]
  rw [hround, toNat_keep]
  split_ifs
  · rw [hadd 7 (by decide), hseven]
    omega
  · rw [hadd 0xf (by decide), hones]
    omega
  · omega

/-- **The sum of two double words of different signs** is delivered when it has the first digit of the greater exponent. -/
theorem delivered_first (n m : Number 56) (hneg : n.neg ≠ m.neg)
    (hfirst : 2 ^ 52 * unit 56 (max n.exp m.exp : ℕ) ≤ |n.value + m.value|) (hrange : InRange 56 (n.value + m.value)) :
    Delivered 56 (n.value + m.value) (adderd.addNormal n.word m.word) := by
  obtain ⟨e, he⟩ : ∃ e, e = max n.exp m.exp := ⟨_, rfl⟩
  obtain ⟨neg, v, z, hadd, hx, hlt, hlow, hhigh, -⟩ := Adder.difference_spec lawful_adderd (by norm_num) n m hneg he
  have hkeep := toNat_keep v
  have hg := unit_pos 56 ((e : ℤ) - 1)
  have hunit : unit 56 e = 16 * unit 56 ((e : ℤ) - 1) := by
    rw [← zpow_one (16 : ℚ), ← unit_add, sub_add_cancel]
  have hv : (0 : ℚ) ≤ v.toNat := Nat.cast_nonneg _
  have hz : (2 : ℚ) ^ 56 ≤ z := by
    have habs : |n.value + m.value| = |z| * unit 56 ((e : ℤ) - 1) := by
      rw [hx, abs_mul, abs_mul, abs_of_pos hg]
      cases neg <;> simp
    rw [← he, habs, hunit, ← mul_assoc] at hfirst
    have hle := le_of_mul_le_mul_right hfirst hg
    rcases le_abs.mp hle with h | h <;> linarith
  have hbig : 2 ^ 56 ≤ v.toNat := by
    have hcast : (2 : ℚ) ^ 56 ≤ v.toNat := hz.trans hhigh
    exact_mod_cast hcast
  have hR : ((adderd.keep v).toNat : ℚ) ≤ v.toNat ∧ (v.toNat : ℚ) ≤ (adderd.keep v).toNat + 15 := by
    constructor <;> norm_cast <;> lia
  rw [hadd]
  exact addFinish_delivered (by norm_num) lawful_adderd.clear (by lia) (by lia) (by linarith)
    (fun j i hdropped ↦ hdropped.near_of_dvd (by norm_num) (by lia) (by lia) (by linarith) (by linarith) hz) hx hrange

/-- A word and a condition code are right to a unit: a number that is less than the unit away, or zero, and the exact value when that
is a multiple of the unit. -/
def DeliveredTo (f : ℕ) (u x : ℚ) (out : BitVec (f + 8) × BitVec 32) : Prop :=
  ∃ y : ℚ, |y - x| < u ∧ ((∃ i : ℤ, x = i * u) → y = x) ∧
    (y = 0 ∧ out = (0, cc4Bit) ∨ ∃ n : Number f, n.value = y ∧ out = (n.word, n.cc))

/-- A difference that is not below the least number has an exponent when its guard digit is dropped. -/
lemma exponent_pos {e t d : ℕ} (hpos : 0 < d / 16) (hlt : d / 16 * 16 * 16 ^ t < 16 ^ 14) (hleast : 16 ^ 14 ≤ d * 16 ^ e) :
    t < e := by
  by_contra hle
  have hpow : 16 ^ e ≤ 16 ^ t := Nat.pow_le_pow_right (by norm_num) (not_lt.mp hle)
  rcases Nat.lt_or_ge e 14 with he | he
  · obtain ⟨k, hk⟩ := Nat.exists_eq_add_of_lt he
    have hsplit : 16 ^ 14 = 16 ^ k * 16 * 16 ^ e := by
      rw [hk]
      ring
    rw [hsplit] at hlt hleast
    have hd : 16 ^ k * 16 ≤ d := Nat.le_of_mul_le_mul_right hleast (by positivity)
    have hmul : 16 ^ k * 16 * 16 ^ e ≤ d / 16 * 16 * 16 ^ t := Nat.mul_le_mul (by omega) hpow
    omega
  · have hbig : 16 ^ 14 ≤ 16 ^ t := Nat.pow_le_pow_right (by norm_num) (he.trans (not_lt.mp hle))
    have hmul : 1 * 16 ^ t ≤ d / 16 * 16 * 16 ^ t := Nat.mul_le_mul_right _ (by omega)
    omega

/-- **The difference of two double words** is right to the last digit of the operand with the greater exponent, because the
guard digit is dropped before it is normalized. -/
theorem deliveredTo_difference (n m : Number 56) (hneg : n.neg ≠ m.neg) (hrange : InRange 56 (n.value + m.value)) :
    DeliveredTo 56 (unit 56 (max n.exp m.exp : ℕ)) (n.value + m.value) (adderd.addNormal n.word m.word) := by
  obtain ⟨e, he⟩ : ∃ e, e = max n.exp m.exp := ⟨_, rfl⟩
  obtain ⟨neg, v, z, hadd, hx, hlt, hlow, hhigh, hexact⟩ :=
    Adder.difference_spec lawful_adderd (by norm_num) n m hneg he
  have hkeep := toNat_keep v
  have hg := unit_pos 56 ((e : ℤ) - 1)
  have hunit : unit 56 e = 16 * unit 56 ((e : ℤ) - 1) := by
    rw [← zpow_one (16 : ℚ), ← unit_add, sub_add_cancel]
  have hR : ((adderd.keep v).toNat : ℚ) ≤ v.toNat ∧ (v.toNat : ℚ) ≤ (adderd.keep v).toNat + 15 := by
    constructor <;> norm_cast <;> lia
  have habs : |(if neg then (-1 : ℚ) else 1)| = 1 := by cases neg <;> simp
  rw [← he, hadd]
  refine ⟨(if neg then -1 else 1) * ((adderd.keep v).toNat * unit 56 ((e : ℤ) - 1)), ?_, ?_, ?_⟩
  · have hdist : |((adderd.keep v).toNat : ℚ) - z| < 16 := by
      rw [abs_lt]
      constructor <;> linarith
    rw [hx, hunit, ← mul_sub, ← sub_mul, abs_mul, abs_mul, habs, one_mul, abs_of_pos hg]
    exact mul_lt_mul_of_pos_right hdist hg
  · rintro ⟨i, hi⟩
    -- both are multiples of the unit
    have hzi : z = ((if neg then -i else i) * 16 : ℤ) := by
      have hmul : z * unit 56 ((e : ℤ) - 1) = ((if neg then -i else i) * 16 : ℤ) * unit 56 ((e : ℤ) - 1) := by
        rw [hx, hunit] at hi
        push_cast
        cases neg with
        | false =>
            simp only [Bool.false_eq_true, if_false] at hi ⊢
            linear_combination hi
        | true =>
            simp only [if_true] at hi ⊢
            linear_combination -hi
      exact mul_right_cancel₀ hg.ne' hmul
    have hlow' : (v.toNat : ℤ) - 1 < (if neg then -i else i) * 16 := by
      rw [hzi] at hlow
      exact_mod_cast hlow
    have hhigh' : (if neg then -i else i) * 16 ≤ (v.toNat : ℤ) := by
      rw [hzi] at hhigh
      exact_mod_cast hhigh
    have hsame : ((adderd.keep v).toNat : ℤ) = (if neg then -i else i) * 16 := by lia
    rw [hx, hzi, ← hsame, Int.cast_natCast]
  · rcases Nat.eq_zero_or_pos (adderd.keep v).toNat with hzero | hpos
    · have hnull : adderd.keep v = 0 := BitVec.eq_of_toNat_eq hzero
      rw [hnull, addFinish_zero]
      left
      refine ⟨?_, rfl⟩
      rw [show ((0 : BitVec (56 + 8)).toNat : ℚ) = 0 from Nat.cast_zero, zero_mul, mul_zero]
    · right
      obtain ⟨j, i, ⟨hi, hi', hparts⟩, hfinish⟩ := addFinish_spec (by norm_num) lawful_adderd.clear hpos (by lia) neg e
      have hvalue : (i : ℚ) * 16 ^ j = (adderd.keep v).toNat := by
        obtain ⟨rfl, rfl, hcarry⟩ | ⟨rfl, rfl, -, -⟩ | ⟨-, t, rfl, rfl⟩ := hparts
        · lia
        · norm_num
          norm_cast
          lia
        · push_cast
          rw [zpow_neg, zpow_natCast, mul_assoc, mul_inv_cancel₀ (by positivity), mul_one]
      have hrange' : 0 ≤ (e : ℤ) - 1 + j ∧ (e : ℤ) - 1 + j < 128 := by
        have hne : n.value + m.value ≠ 0 := fun h0 ↦ by
          have hz : z = 0 := by
            rw [hx, mul_eq_zero, mul_eq_zero] at h0
            rcases h0 with h0 | h0 | h0
            · rw [h0, abs_zero] at habs
              norm_num at habs
            · exact h0
            · exact absurd h0 hg.ne'
          have hsmall : v.toNat < 1 := by
            rw [hz] at hlow
            have hlt : (v.toNat : ℚ) < 1 := by linarith
            exact_mod_cast hlt
          lia
        have hleast := (hrange.resolve_left hne).1
        have he' : e < 128 := by
          have := n.exp_lt
          have := m.exp_lt
          omega
        obtain ⟨rfl, rfl, hcarry⟩ | ⟨rfl, rfl, -, -⟩ | ⟨-, t, rfl, rfl⟩ := hparts
        · lia
        · omega
        · have hbase : (2 : ℚ) ^ 56 * unit 56 (-1) = 16 ^ (-65 : ℤ) := by
            rw [unit]
            norm_num
          have hmore : (2 : ℚ) ^ 56 * unit 56 (-1) ≤ v.toNat * 16 ^ e * unit 56 (-1) := by
            have hpos' : (0 : ℚ) < v.toNat := by
              have : 0 < v.toNat := by lia
              exact_mod_cast this
            have hz : 0 < z := by
              have hone : (1 : ℚ) ≤ v.toNat := by exact_mod_cast (by lia : 1 ≤ v.toNat)
              linarith
            rw [hx, abs_mul, habs, one_mul, abs_of_pos (mul_pos hz hg), ← hbase] at hleast
            refine hleast.trans ((mul_le_mul_of_nonneg_right hhigh hg.le).trans_eq ?_)
            rw [show (e : ℤ) - 1 = -1 + e by ring, unit_add, zpow_natCast, mul_assoc]
          have hnat : (2 : ℚ) ^ 56 ≤ v.toNat * 16 ^ e := le_of_mul_le_mul_right hmore (unit_pos 56 (-1))
          have hlt' := exponent_pos (e := e) (t := t) (d := v.toNat) (by lia) (by
            rw [← hkeep]
            exact hi') (by exact_mod_cast hnat)
          lia
      have hcast : ((((e : ℤ) - 1 + j).toNat : ℕ) : ℤ) = (e : ℤ) - 1 + j := Int.toNat_of_nonneg hrange'.1
      refine ⟨⟨neg, ((e : ℤ) - 1 + j).toNat, i, by omega, hi', hi⟩, ?_, hfinish _ rfl hcast rfl⟩
      rw [Number.value_eq]
      dsimp only
      rw [hcast, unit_add, ← hvalue]
      ring

/-! ### All operands -/

lemma Number.cc_sound (n : Number f) : n.cc &&& cc1Bit = 0 := by
  rw [Number.cc]
  cases n.neg <;> decide

namespace Adder

variable {f : ℕ} {a : Adder f}

lemma add_none (hf : 4 ≤ f) (a : Adder f) (n : Number f) : a.add n.word 0 = (n.word, n.cc) := by
  rw [add, normf_number hf, if_neg (not_not.mpr n.cc_sound), if_pos rfl]

lemma none_add (hf : 4 ≤ f) (a : Adder f) (n : Number f) : a.add 0 n.word = (n.word, n.cc) := by
  have hcc : cc4Bit &&& cc1Bit = 0 := by decide
  rw [add, normf_null, if_neg (not_not.mpr hcc), if_neg n.word_ne_zero, normf_number hf, if_neg (not_not.mpr n.cc_sound),
    if_pos rfl]

lemma add_number (hf : 4 ≤ f) (a : Adder f) (n m : Number f) : a.add n.word m.word = a.addNormal n.word m.word := by
  rw [add, normf_number hf, if_neg (not_not.mpr n.cc_sound), if_neg m.word_ne_zero, normf_number hf,
    if_neg (not_not.mpr m.cc_sound), if_neg n.word_ne_zero]

/-- **The additions are commutative**, with the condition code. -/
theorem add_symm (h : a.Lawful) (hf : 4 ≤ f) (x y : Operand f) : a.add x.word y.word = a.add y.word x.word := by
  cases x with
  | none =>
      cases y with
      | none => rfl
      | some m => exact (none_add hf a m).trans (add_none hf a m).symm
  | some n =>
      cases y with
      | none => exact (add_none hf a n).trans (none_add hf a n).symm
      | some m =>
          show a.add n.word m.word = a.add m.word n.word
          rw [add_number hf, add_number hf, addNormal_comm h]

/-- A number is delivered as it is. -/
lemma delivered_number (n : Number f) : Delivered f n.value (n.word, n.cc) :=
  .inr ⟨n, rfl, by rw [sub_self, abs_zero]; exact (unit_pos f n.exp).le, fun _ ↦ rfl⟩

/-- **A sum is delivered**, when the sums of two numbers are. -/
theorem add_delivered (hf : 4 ≤ f) (x y : Operand f) (h : ∀ n m, x = some n → y = some m →
    Delivered f (n.value + m.value) (a.addNormal n.word m.word)) : Delivered f (x.value + y.value) (a.add x.word y.word) := by
  cases x with
  | none =>
      cases y with
      | none =>
          refine .inl ⟨add_zero 0, ?_⟩
          have hcc : cc4Bit &&& cc1Bit = 0 := by decide
          show a.add 0 0 = _
          rw [add, normf_null, if_neg (not_not.mpr hcc), if_pos rfl]
      | some m =>
          show Delivered f (0 + m.value) (a.add 0 m.word)
          rw [none_add hf, zero_add]
          exact delivered_number m
  | some n =>
      cases y with
      | none =>
          show Delivered f (n.value + 0) (a.add n.word 0)
          rw [add_none hf, add_zero]
          exact delivered_number n
      | some m =>
          show Delivered f (n.value + m.value) (a.add n.word m.word)
          rw [add_number hf]
          exact h n m rfl rfl

end Adder

/-- Two double words of one sign, but for negative ones whose greater exponent is 0x7e; or of different signs, with a sum that
has the first digit of the greater exponent. -/
def Regular (c d : Operand 56) : Prop := ∀ n m, c = some n → d = some m →
  if n.neg = m.neg then ¬ (n.neg = true ∧ max n.exp m.exp = 0x7e)
  else 2 ^ 52 * unit 56 (max n.exp m.exp : ℕ) ≤ |n.value + m.value|

/-- **The additions**: both are commutative. A sum of words is delivered exactly when it can be, and within one unit of its
last digit otherwise; the same for double words that are regular, and a sum of double words of different signs is always right
to the last digit of the greater exponent. -/
theorem adds_deliver (a b : Operand 24) (c d : Operand 56) (hw : InRange 24 (a.value + b.value))
    (hd : InRange 56 (c.value + d.value)) :
    (adfw a.word b.word = adfw b.word a.word ∧ Delivered 24 (a.value + b.value) (adfw a.word b.word)) ∧
      adfd c.word d.word = adfd d.word c.word ∧ (Regular c d → Delivered 56 (c.value + d.value) (adfd c.word d.word)) ∧
      ∀ n m, c = some n → d = some m → n.neg ≠ m.neg →
        DeliveredTo 56 (unit 56 (max n.exp m.exp : ℕ)) (c.value + d.value) (adfd c.word d.word) := by
  refine ⟨⟨Adder.add_symm lawful_adderw (by norm_num) a b, Adder.add_delivered (by norm_num) a b fun n m ha hb ↦ ?_⟩,
    Adder.add_symm lawful_adderd (by norm_num) c d, fun hregular ↦ Adder.add_delivered (by norm_num) c d fun n m hc hd' ↦ ?_,
    fun n m hc hd' hneg ↦ ?_⟩
  · subst ha hb
    by_cases hneg : n.neg = m.neg
    · exact Adder.delivered_sum lawful_adderw (by norm_num) n m hneg (rounds_adderw _ _) hw
    · exact Adder.delivered_difference lawful_adderw (by norm_num) (fun _ ↦ rfl) n m hneg hw
  · have hcase := hregular n m hc hd'
    subst hc hd'
    by_cases hneg : n.neg = m.neg
    · rw [if_pos hneg] at hcase
      exact Adder.delivered_sum lawful_adderd (by norm_num) n m hneg (rounds_adderd hcase) hd
    · rw [if_neg hneg] at hcase
      exact delivered_first n m hneg hcase hd
  · subst hc hd'
    show DeliveredTo 56 _ (n.value + m.value) (adderd.add n.word m.word)
    rw [Adder.add_number (by norm_num)]
    exact deliveredTo_difference n m hneg hd

/-- One and one, and 16 less one. -/
theorem adds_deliver_one : let one : Number 24 := ⟨false, 65, 2 ^ 20, by decide, by decide, by decide⟩
    let sixteen : Number 56 := ⟨false, 66, 2 ^ 52, by decide, by decide, by decide⟩
    let minus : Number 56 := ⟨true, 65, 2 ^ 52, by decide, by decide, by decide⟩
    Delivered 24 (one.value + one.value) (adfw one.word one.word) ∧
      DeliveredTo 56 (unit 56 (66 : ℕ)) (sixteen.value + minus.value) (adfd sixteen.word minus.word) := by
  intro one sixteen minus
  have hadds := adds_deliver (some one) (some one) (some sixteen) (some minus)
    (.inr (by norm_num [Operand.value, Number.value, unit, one])) (.inr (by
      norm_num [Operand.value, Number.value, unit, sixteen, minus]))
  exact ⟨hadds.1.2, hadds.2.2.2 sixteen minus rfl rfl (by decide)⟩

/-- **16 less the greatest number below 16** is a number, but the sum of the double words is zero. -/
theorem adfd_wrong : ¬ ∀ c d : Operand 56, InRange 56 (c.value + d.value) →
    Delivered 56 (c.value + d.value) (adfd c.word d.word) := by
  intro hall
  let sixteen : Number 56 := ⟨false, 66, 2 ^ 52, by norm_num, by norm_num, by norm_num⟩
  let below : Number 56 := ⟨true, 65, 2 ^ 56 - 1, by norm_num, by norm_num, by norm_num⟩
  have hrun : adfd sixteen.word below.word = (0, cc4Bit) := by decide
  rcases hall (some sixteen) (some below) (.inr (by norm_num [Operand.value, Number.value, unit, sixteen, below])) with
    ⟨hzero, -⟩ | ⟨n, hn, -⟩
  · norm_num [Operand.value, Number.value, sixteen, below] at hzero
  · exact n.word_ne_zero (Prod.ext_iff.mp (hn.symm.trans hrun)).1

end Ka10Simh.Sel32
