import Ka10Simh.Lib.Floating
import Ka10Simh.Sel32.Float.Normal

/-!
The conversions of a SEL 32 between integers and floating point numbers: `s_fltw`, `s_fltd`, `s_fixw` and
`s_fixd`.

An integer is shifted until its first hexadecimal digit is not zero, and 8 bits are dropped with a rounding
that depends on the sign. `s_fltd` tests bits for it that do not say on which side of the middle they are.

* `fltf`, `fixf`: the conversions, for both widths.
* `fltf_spec`: the value of a converted integer.
* `nearest_fltf_iff`: when it is the nearest number.
* `fix_flt`: an integer that fits the fraction comes back.
* `conversions_iff`: the integers for which the conversions are faithful.
-/

namespace Ka10Simh.Sel32

/-! ### The source -/

/-- The absolute value of an integer. -/
def absi {w : ℕ} (v : BitVec (w + 8)) : BitVec (w + 8) := if v &&& signBit w ≠ 0 then negate32 v else v

/-- The condition code of a result. -/
def resultCC {f : ℕ} (ret : BitVec (f + 8)) : BitVec 32 :=
  if ret &&& signBit f ≠ 0 then cc3Bit else if ret = 0 then cc4Bit else cc2Bit

/-- The rounding of `s_fltw`, and that of `s_fltd`. -/
def roundw (neg : Bool) (val : BitVec (24 + 8)) : BitVec (24 + 8) :=
  if val &&& 0x80 ≠ 0 then
    if neg then
      if val &&& 0x7f ≠ 0 then val >>> 8 + 1 else val >>> 8
    else val >>> 8 + 1
  else val >>> 8

def roundd (neg : Bool) (val : BitVec (56 + 8)) : BitVec (56 + 8) :=
  if val &&& 0x91 ≠ 0 then
    if neg then
      if val &&& 0x7f ≠ 0 then val >>> 8 + 1 else val >>> 8
    else
      if val &&& 0x7f ≠ 0 then val >>> 8 else val >>> 8 + 1
  else val >>> 8

/-- The rounded fraction with its exponent, out of which a carry may have to go back. -/
def pack (f : ℕ) (neg : Bool) (val : BitVec (f + 8)) (exp : BitVec 32) : BitVec (f + 8) :=
  let r := if val &&& 1#(f + 8) <<< f ≠ 0 then (val >>> 4, exp + 1) else (val, exp)
  let ret := (r.2.setWidth (f + 8)) <<< f ||| r.1 &&& mantMask f
  if neg then negate32 ret else ret

/-- `s_fltw` and `s_fltd`, with their rounding and their exponent of an integer that fills its word. -/
def fltf (f : ℕ) (round : Bool → BitVec (f + 8) → BitVec (f + 8)) (top : BitVec 32) (intv : BitVec (f + 8)) :
    BitVec (f + 8) × BitVec 32 :=
  let neg : Bool := intv &&& signBit f ≠ 0
  let r := shiftWhile (noDigit (f + 4)) ((f + 8) / 4) (absi intv) 0
  let exp := (if r.1 ≠ 0 then top else 0) - BitVec.ofNat 32 r.2
  let ret := pack f neg (round neg r.1) exp
  (ret, resultCC ret)

def fltw (intv : BitVec (24 + 8)) : BitVec (24 + 8) × BitVec 32 := fltf 24 roundw 0x48 intv

def fltd (intv : BitVec (56 + 8)) : BitVec (56 + 8) × BitVec 32 :=
  if intv = 0 then (0, cc4Bit) else fltf 56 roundd 0x50 intv

/-- At `OVFLO` and at `UNFLO`. -/
def fixFault {f : ℕ} (big neg : Bool) (temp : BitVec (f + 8)) : BitVec (f + 8) × BitVec 32 :=
  (temp, (if big then cc4Bit else 0) ||| cc1Bit ||| if neg then cc3Bit else cc2Bit)

/-- The fraction of `s_fixw` and `s_fixd` to the integer that it has with exponent `temp2`, when `top` is the
exponent of a fraction that fills the word. -/
def fixFraction {f : ℕ} (neg : Bool) (top temp2 : BitVec 32) (fltv : BitVec (f + 8)) : BitVec (f + 8) × BitVec 32 :=
  let temp2 := temp2 - top
  if temp2 = 0 ∧ fltv = signBit f ∧ neg = true then (fltv, resultCC fltv)
  else if (0#32).slt temp2 then fixFault true neg 0
  else
    let val := fltv >>> (negate32 temp2 * 4).toNat
    if val &&& signBit f ≠ 0 then fixFault true neg 0
    else
      let val := if neg then negate32 val else val
      (val, resultCC val)

/-- `s_fixw` and `s_fixd`. -/
def fixf (f : ℕ) (top : BitVec 32) (fltv : BitVec (f + 8)) : BitVec (f + 8) × BitVec 32 :=
  let neg : Bool := fltv &&& signBit f ≠ 0
  if fltv = 0 then (0, cc4Bit)
  else
    let temp2 := (absi fltv >>> f).setWidth 32 - 64
    if temp2 = 0 then (0, cc4Bit)
    else if temp2 &&& fSign ≠ 0 then
      if neg then fixFault true neg (signBit f - 1) else fixFault false neg 0
    else fixFraction neg top temp2 (absi fltv <<< 8)

def fixw (fltv : BitVec (24 + 8)) : BitVec (24 + 8) × BitVec 32 := fixf 24 8 fltv
def fixd (fltv : BitVec (56 + 8)) : BitVec (56 + 8) × BitVec 32 := fixf 56 16 fltv

/-! ### The parts of a conversion -/

section Parts

variable {f : ℕ}

lemma toNat_absi (v : BitVec (f + 8)) :
    (absi v).toNat = if v.toNat < 2 ^ (f + 7) then v.toNat else 2 ^ (f + 8) - v.toNat := by
  have hlt := v.isLt
  have hpow : 2 ^ (f + 8) = 2 ^ (f + 7) * 2 := pow_succ ..
  have hpos : 0 < 2 ^ (f + 7) := by positivity
  rw [absi]
  by_cases hsign : v.toNat < 2 ^ (f + 7)
  · rw [if_neg (not_not.mpr ((and_signBit_eq_zero v).mpr hsign)), if_pos hsign]
  · rw [if_pos (mt (and_signBit_eq_zero v).mp hsign), if_neg hsign, negate32_eq, BitVec.toNat_neg]
    exact Nat.mod_eq_of_lt (by omega)

/-- The sign of an integer. -/
def isNegi (v : BitVec (f + 8)) : Bool := v &&& signBit f ≠ 0

lemma isNegi_iff (v : BitVec (f + 8)) : isNegi v = true ↔ 2 ^ (f + 7) ≤ v.toNat := by
  rw [isNegi, decide_eq_true_eq, ne_eq, and_signBit_eq_zero, not_lt]

/-- An integer is its absolute value with its sign. -/
lemma toInt_eq_absi (v : BitVec (f + 8)) : (v.toInt : ℚ) = (if isNegi v then -1 else 1) * (absi v).toNat := by
  have hlt := v.isLt
  have hpow : 2 ^ (f + 8) = 2 ^ (f + 7) * 2 := pow_succ ..
  rw [toNat_absi, BitVec.toInt_eq_toNat_cond]
  rcases Nat.lt_or_ge v.toNat (2 ^ (f + 7)) with hlow | hhigh
  · have hneg : ¬ isNegi v = true := fun h ↦ absurd ((isNegi_iff v).mp h) (not_le.mpr hlow)
    rw [if_pos (by omega), if_pos hlow, if_neg hneg]
    push_cast
    ring
  · rw [if_neg (by omega), if_neg (not_lt.mpr hhigh), if_pos ((isNegi_iff v).mpr hhigh), Nat.cast_sub hlt.le]
    push_cast
    ring

lemma absi_pos {v : BitVec (f + 8)} (h : v ≠ 0) : 0 < (absi v).toNat := by
  have hlt := v.isLt
  have hpos : v.toNat ≠ 0 := fun h0 ↦ h (BitVec.eq_of_toNat_eq h0)
  rw [toNat_absi]
  split_ifs <;> omega

lemma absi_le (v : BitVec (f + 8)) : (absi v).toNat ≤ 2 ^ (f + 7) := by
  have hpow : 2 ^ (f + 8) = 2 ^ (f + 7) * 2 := pow_succ ..
  rw [toNat_absi]
  split_ifs <;> omega

/-- A fraction that may have a carry is packed. -/
lemma pack_spec (hf : 4 ≤ f) (neg : Bool) {val : BitVec (f + 8)} {exp : BitVec 32} (hlow : 2 ^ (f - 4) ≤ val.toNat)
    (hhigh : val.toNat ≤ 2 ^ f) (hexp : exp.toNat + 1 < 128) :
    ∃ n : Number f, pack f neg val exp = n.word ∧ n.neg = neg ∧
      n.value = (if neg then -1 else 1) * val.toNat * 16 ^ (exp.toNat - 64 : ℤ) / 2 ^ f ∧
      (val.toNat < 2 ^ f → n.exp = exp.toNat ∧ n.frac = val.toNat) := by
  obtain ⟨hpow, hpow', hpos⟩ := pow_fields f
  have hdigits := pow_digit hf
  have hbit : val &&& 1#(f + 8) <<< f ≠ 0 ↔ val.toNat = 2 ^ f := by
    have h0 : (0 : BitVec (f + 8)).toNat = 0 := rfl
    rw [ne_eq, ← BitVec.toNat_inj, BitVec.toNat_and, toNat_one_shift, h0, ← ne_eq, Word.and_pow_ne_zero]
    rcases Nat.lt_or_ge val.toNat (2 ^ f) with hlt | hge
    · rw [Nat.div_eq_of_lt hlt]
      exact iff_of_false (by decide) hlt.ne
    · rw [le_antisymm hhigh hge, Nat.div_self hpos]
      exact iff_of_true rfl rfl
  have hword (n : Number f) (hneg : n.neg = neg) {m : BitVec (f + 8)} (hm : m.toNat = n.frac) {e : BitVec 32}
      (he : e.toNat = n.exp) :
      (if neg then negate32 (e.setWidth (f + 8) <<< f ||| m &&& mantMask f)
        else e.setWidth (f + 8) <<< f ||| m &&& mantMask f) = n.word := by
    have hle := Nat.mul_le_mul_right (2 ^ f) (Nat.le_of_lt_succ n.exp_lt)
    have h128 := n.exp_lt
    have hshift : (e.setWidth (f + 8) <<< f).toNat = n.exp <<< f := by
      rw [BitVec.toNat_shiftLeft, BitVec.toNat_setWidth, he, Nat.mod_eq_of_lt (by lia : n.exp < 2 ^ (f + 8)),
        Nat.shiftLeft_eq]
      exact Nat.mod_eq_of_lt (by lia)
    have habs : e.setWidth (f + 8) <<< f ||| m &&& mantMask f = n.abs := by
      rw [← BitVec.toNat_inj, BitVec.toNat_or, hshift, toNat_and_mantMask, hm, Nat.mod_eq_of_lt n.frac_lt,
        Word.shiftLeft_or_eq n.frac_lt, n.toNat_abs]
    rw [habs, Number.word, hneg, negate32_eq]
  rw [pack]
  by_cases hc : val.toNat = 2 ^ f
  · have hshift : (val >>> 4).toNat = 2 ^ (f - 4) := by
      rw [BitVec.toNat_ushiftRight, hc, Nat.shiftRight_eq_div_pow, hdigits]
      exact Nat.mul_div_cancel_left _ (by decide)
    have hnext : (exp + 1).toNat = exp.toNat + 1 := by
      rw [BitVec.toNat_add]
      exact Nat.mod_eq_of_lt (by
        have h1 : (1 : BitVec 32).toNat = 1 := rfl
        lia)
    refine ⟨⟨neg, exp.toNat + 1, 2 ^ (f - 4), hexp, by omega, le_rfl⟩, ?_, rfl, ?_, fun h ↦ absurd hc h.ne⟩
    · rw [if_pos (hbit.mpr hc)]
      exact hword ⟨neg, exp.toNat + 1, 2 ^ (f - 4), hexp, by omega, le_rfl⟩ rfl hshift hnext
    · have hcast : (2 : ℚ) ^ f = 16 * 2 ^ (f - 4) := by exact_mod_cast hdigits
      have hz : (((exp.toNat + 1 : ℕ) : ℤ) - 64) = (exp.toNat - 64 : ℤ) + 1 := by
        push_cast
        ring
      rw [Number.value, hc]
      dsimp only
      rw [hz, zpow_add_one₀ (by norm_num)]
      push_cast
      rw [hcast]
      ring
  · refine ⟨⟨neg, exp.toNat, val.toNat, by omega, by omega, hlow⟩, ?_, rfl, rfl, fun _ ↦ ⟨rfl, rfl⟩⟩
    rw [if_neg (mt hbit.mp hc)]
    exact hword ⟨neg, exp.toNat, val.toNat, by omega, by omega, hlow⟩ rfl rfl rfl

end Parts

/-! ### Integers to floating point -/

section Float

variable {f d : ℕ} {round : Bool → BitVec (f + 8) → BitVec (f + 8)} {up : Bool → ℕ → ℕ} {top : BitVec 32}
  {i : BitVec (f + 8)} {t v : ℕ}

/-- A rounding drops 8 bits, and adds what `up` makes of them. -/
structure Rounds (round : Bool → BitVec (f + 8) → BitVec (f + 8)) (up : Bool → ℕ → ℕ) : Prop where
  eq : ∀ neg v, (round neg v).toNat = v.toNat / 256 + up neg (v.toNat % 256)
  le : ∀ neg b, up neg b ≤ 1

/-- The absolute value of an integer shifted by `t` digits, until its first digit is not zero. -/
structure Shifted (i : BitVec (f + 8)) (t v : ℕ) : Prop where
  eq : v = (absi i).toNat * 16 ^ t
  low : 2 ^ (f + 4) ≤ v
  high : v < 2 ^ (f + 8)

/-- The loop of `s_fltw` and `s_fltd`, on words of `d + 3` digits. -/
lemma shifted (hd : f = 4 * (d + 1)) (hi : i ≠ 0) : ∃ t r,
    shiftWhile (noDigit (f + 4)) ((f + 8) / 4) (absi i) 0 = (r, t) ∧ Shifted i t r.toNat ∧ t < d + 3 := by
  have hpos := absi_pos hi
  have hle := absi_le i
  have hpow : 2 ^ (f + 8) = 2 ^ (f + 7) * 2 := pow_succ ..
  have hturns : 2 ^ (f + 4) ≤ (absi i).toNat * 16 ^ ((f + 8) / 4) := by
    have hbig : 2 ^ (f + 4) ≤ 16 ^ ((f + 8) / 4) := by
      rw [show (16 : ℕ) = 2 ^ 4 from rfl, ← pow_mul]
      exact Nat.pow_le_pow_right (by decide) (by omega)
    exact hbig.trans (Nat.le_mul_of_pos_left _ hpos)
  obtain ⟨t, r, hloop, hr, hlow, hhigh, -⟩ := shiftWhile_digits (w := f + 8) (p := f + 4) (n := 0) (v := absi i) le_rfl
    (by
      have hpos' : 0 < 2 ^ (f + 7) := by positivity
      show (absi i).toNat < 2 ^ (f + 8)
      omega) hturns
  refine ⟨t, r, by rw [hloop, Nat.zero_add], ⟨hr, hlow, hhigh⟩, ?_⟩
  have hlt : 16 ^ t < 16 ^ (d + 3) := by
    calc 16 ^ t ≤ (absi i).toNat * 16 ^ t := Nat.le_mul_of_pos_left _ hpos
      _ < 2 ^ (f + 8) := by rw [← hr]; exact hhigh
      _ = 16 ^ (d + 3) := by
          rw [show (16 : ℕ) = 2 ^ 4 from rfl, ← pow_mul]
          congr 1
          omega
  exact (Nat.pow_lt_pow_iff_right (by decide)).mp hlt

/-- How many digits an integer is shifted, and what it is then, is not for the loop to choose. -/
lemma Shifted.quotient (h : Shifted i t v) (hf : 4 ≤ f) : 2 ^ (f - 4) ≤ v / 256 ∧ v / 256 + 1 ≤ 2 ^ f := by
  obtain ⟨-, hlow, hhigh⟩ := h
  have hdigits := pow_digit hf
  have hlow' : 2 ^ (f + 4) = 2 ^ f * 16 := by rw [pow_add]; norm_num
  have hhigh' : 2 ^ (f + 8) = 2 ^ f * 256 := by rw [pow_add]; norm_num
  omega

/-- The integer in units of its last bit that fits. -/
lemma Shifted.toInt (h : Shifted i t v) :
    (i.toInt : ℚ) = (if isNegi i then -1 else 1) * ((v / 256 : ℕ) + (v % 256 : ℕ) / 256) * 16 ^ (2 - t : ℤ) := by
  have hsplit : (v : ℚ) = 256 * (v / 256 : ℕ) + (v % 256 : ℕ) := by exact_mod_cast (Nat.div_add_mod v 256).symm
  have hv : (v : ℚ) = (absi i).toNat * 16 ^ t := by exact_mod_cast h.eq
  have hpow : (16 : ℚ) ^ (2 - t : ℤ) * 16 ^ t = 256 := by
    rw [← zpow_natCast, ← zpow_add₀ (by norm_num)]
    norm_num
  have habs : ((absi i).toNat : ℚ) = ((v / 256 : ℕ) + (v % 256 : ℕ) / 256) * 16 ^ (2 - t : ℤ) := by
    have hne : (16 : ℚ) ^ t ≠ 0 := by positivity
    rw [← mul_left_inj' hne, ← hv, mul_assoc, hpow, hsplit]
    ring
  rw [toInt_eq_absi, habs, mul_assoc]

/-- **The value of a converted integer**: its first digits, and what the rounding adds in the last place. -/
theorem fltf_spec (hd : f = 4 * (d + 1)) (hd' : d < 60) (htop : top.toNat = 67 + d) (hround : Rounds round up) (hi : i ≠ 0) :
    ∃ t v, ∃ n : Number f, Shifted i t v ∧ t < d + 3 ∧ (fltf f round top i).1 = n.word ∧ n.neg = isNegi i ∧
      n.value = (if isNegi i then -1 else 1) * ((v / 256 : ℕ) + (up (isNegi i) (v % 256) : ℕ)) * 16 ^ (2 - t : ℤ) ∧
      (up (isNegi i) (v % 256) = 0 → n.exp = 67 + d - t ∧ n.frac = v / 256) := by
  obtain ⟨t, r, hloop, hshift, ht⟩ := shifted hd hi
  have hf : 4 ≤ f := by omega
  obtain ⟨hqlow, hqhigh⟩ := hshift.quotient hf
  have hup := hround.le (isNegi i) (r.toNat % 256)
  have hval := hround.eq (isNegi i) r
  have hne : r ≠ 0 := fun h0 ↦ by
    have hlow := hshift.low
    rw [h0] at hlow
    exact absurd hlow (not_le.mpr (by positivity))
  have hexp : (top - BitVec.ofNat 32 t).toNat = 67 + d - t := by
    have hsmall : (BitVec.ofNat 32 t).toNat = t := by
      rw [BitVec.toNat_ofNat]
      exact Nat.mod_eq_of_lt (by omega)
    rw [BitVec.toNat_sub_of_le, htop, hsmall]
    rw [BitVec.le_def, htop, hsmall]
    lia
  obtain ⟨n, hpack, hneg, hvalue, hsame⟩ := @pack_spec _ hf (isNegi i) (round (isNegi i) r) (top - BitVec.ofNat 32 t)
    (by lia) (by lia) (by lia)
  refine ⟨t, r.toNat, n, hshift, ht, ?_, hneg, ?_, fun h0 ↦ ?_⟩
  · rw [fltf, hloop]
    simp only [if_pos hne]
    exact hpack
  · have hscale : (16 : ℚ) ^ (((top - BitVec.ofNat 32 t).toNat : ℤ) - 64) / 2 ^ f = 16 ^ (2 - t : ℤ) := by
      have h2 : (2 : ℚ) ^ f = 16 ^ (d + 1 : ℤ) := by
        rw [hd, pow_mul]
        norm_num
        rfl
      rw [hexp, h2, ← zpow_sub₀ (by norm_num)]
      congr 1
      lia
    rw [hvalue, hval, mul_div_assoc, hscale]
    push_cast
    ring
  · have hlt : (round (isNegi i) r).toNat < 2 ^ f := by omega
    obtain ⟨he, hfr⟩ := hsame hlt
    exact ⟨he.trans hexp, by rw [hfr, hval, h0, Nat.add_zero]⟩

/-! ### Nearest numbers -/

/-- The numbers that words stand for. -/
def numbers (f : ℕ) : Set ℚ := Set.range (value (f := f))

/-- They have the digits of their fraction. -/
lemma numbers_digits (hd : f = 4 * (d + 1)) {s : ℚ} (hs : s ∈ numbers f) : s ∈ Floating.Digits 16 (d + 1) := by
  obtain ⟨v, rfl⟩ := hs
  have hpos : 0 < 2 ^ f := by positivity
  have hmod := Nat.mod_lt v.toNat hpos
  have h2 : 2 ^ f = 16 ^ (d + 1) := by rw [hd, pow_mul]; norm_num
  have hq : (2 : ℚ) ^ f = 16 ^ (d + 1 : ℤ) := by
    rw [hd, pow_mul]
    norm_num
    rfl
  rw [value]
  split_ifs
  · refine ⟨(v.toNat % 2 ^ f : ℕ), (v.toNat / 2 ^ f : ℕ) - 64 - (d + 1), ?_, ?_⟩
    · rw [Nat.abs_cast]
      rw [h2] at hmod ⊢
      exact_mod_cast hmod.le
    · rw [hq, mul_div_assoc, ← zpow_sub₀ (by norm_num)]
      push_cast
      rfl
  · refine ⟨-(2 ^ f - (v.toNat % 2 ^ f : ℕ)), 255 - (v.toNat / 2 ^ f : ℕ) - 64 - (d + 1), ?_, ?_⟩
    · rw [abs_neg, abs_of_nonneg (by
        rw [sub_nonneg]
        exact_mod_cast hmod.le)]
      have hle : ((2 ^ f : ℕ) : ℤ) - (v.toNat % 2 ^ f : ℕ) ≤ 16 ^ (d + 1) := by
        rw [h2]
        push_cast
        lia
      exact_mod_cast hle
    · rw [hq, mul_div_assoc, ← zpow_sub₀ (by norm_num)]
      simp only [Int.cast_neg, Int.cast_sub, Int.cast_pow, Int.cast_ofNat, Int.cast_natCast, Nat.cast_ofNat, hq]

/-- A number of `d + 1` digits in a unit that is not too large is there. -/
lemma mem_numbers (hd : f = 4 * (d + 1)) (hd' : d < 60) (neg : Bool) {q t : ℕ} (ht : t < d + 3) (hlow : 2 ^ (f - 4) ≤ q)
    (hhigh : q ≤ 2 ^ f) : (if neg then -1 else 1) * (q : ℚ) * 16 ^ (2 - t : ℤ) ∈ numbers f := by
  have hpow : 2 ^ f < 2 ^ (f + 8) := Nat.pow_lt_pow_right (by decide) (by omega)
  have hq : (BitVec.ofNat (f + 8) q).toNat = q := by
    rw [BitVec.toNat_ofNat]
    exact Nat.mod_eq_of_lt (by omega)
  have he : (BitVec.ofNat 32 (67 + d - t)).toNat = 67 + d - t := by
    rw [BitVec.toNat_ofNat]
    exact Nat.mod_eq_of_lt (by omega)
  obtain ⟨n, -, -, hvalue, -⟩ := @pack_spec _ (by omega) neg (BitVec.ofNat (f + 8) q) (BitVec.ofNat 32 (67 + d - t))
    (by omega) (by omega) (by lia)
  refine ⟨n.word, ?_⟩
  have hscale : (16 : ℚ) ^ (((67 + d - t : ℕ) : ℤ) - 64) / 2 ^ f = 16 ^ (2 - t : ℤ) := by
    have h2 : (2 : ℚ) ^ f = 16 ^ (d + 1 : ℤ) := by
      rw [hd, pow_mul]
      norm_num
      rfl
    rw [h2, ← zpow_sub₀ (by norm_num)]
    congr 1
    omega
  rw [n.value_word, hvalue, hq, he, mul_div_assoc, hscale]

lemma Shifted.unique (h : Shifted i t v) {t' v' : ℕ} (h' : Shifted i t' v') : t = t' ∧ v = v' := by
  have hless {t t' v v' : ℕ} (h : Shifted i t v) (h' : Shifted i t' v') : ¬ t < t' := fun hlt ↦ by
    have hpow : 16 ^ (t + 1) ≤ 16 ^ t' := Nat.pow_le_pow_right (by decide) hlt
    have hmul := Nat.mul_le_mul_left (absi i).toNat hpow
    rw [pow_succ, ← mul_assoc, ← h.eq, ← h'.eq] at hmul
    have hhigh : 2 ^ (f + 8) = 2 ^ (f + 4) * 16 := by rw [show f + 8 = f + 4 + 4 from rfl, pow_add _ (f + 4)]; norm_num
    have hlow := h.low
    have hlt' := h'.high
    omega
  have ht : t = t' := le_antisymm (not_lt.mp (hless h' h)) (not_lt.mp (hless h h'))
  exact ⟨ht, by rw [h.eq, h'.eq, ht]⟩

/-- No number is between two that follow each other. -/
lemma numbers_gap (hd : f = 4 * (d + 1)) {q : ℕ} (hq : 2 ^ (f - 4) ≤ q) (k : ℤ) {s : ℚ} (hs : s ∈ numbers f) :
    (s ≤ q * 16 ^ k ∨ (q + 1) * 16 ^ k ≤ s) ∧ (s ≤ -((q + 1) * 16 ^ k) ∨ -(q * 16 ^ k) ≤ s) := by
  have hqd : ((16 : ℕ) : ℤ) ^ d ≤ (q : ℤ) := by
    have hpow : 2 ^ (f - 4) = 16 ^ d := by
      rw [show (16 : ℕ) = 2 ^ 4 from rfl, ← pow_mul]
      congr 1
      omega
    rw [hpow] at hq
    exact_mod_cast hq
  have hdigits := numbers_digits hd hs
  have hpos := Floating.gap (k := k) (by decide) hdigits hqd
  have hneg := Floating.gap (k := k) (by decide) (Floating.Digits.neg hdigits) hqd
  push_cast at hpos hneg
  refine ⟨hpos, ?_⟩
  rcases hneg with h | h
  · right
    linarith
  · left
    linarith

/-- **The nearest number**: the rounding has to go up from the middle on, and down to the middle. -/
theorem nearest_fltf_iff (hd : f = 4 * (d + 1)) (hd' : d < 60) (htop : top.toNat = 67 + d) (hround : Rounds round up)
    (hi : i ≠ 0) (h : Shifted i t v) :
    Floating.Nearest (numbers f) i.toInt (value (fltf f round top i).1) ↔
      if up (isNegi i) (v % 256) = 0 then v % 256 ≤ 128 else 128 ≤ v % 256 := by
  obtain ⟨t', v', n, hshift, ht, hword, -, hvalue, -⟩ := fltf_spec hd hd' htop hround hi
  obtain ⟨rfl, rfl⟩ := hshift.unique h
  have hf : 4 ≤ f := by omega
  obtain ⟨hqlow, hqhigh⟩ := hshift.quotient hf
  have hlo := mem_numbers hd hd' (isNegi i) ht hqlow (by omega)
  have hhi := mem_numbers hd hd' (isNegi i) ht (q := v' / 256 + 1) (by omega) hqhigh
  have hunit : (0 : ℚ) < 16 ^ (2 - t' : ℤ) := by positivity
  have hgap (s : ℚ) (hs : s ∈ numbers f) := numbers_gap hd hqlow (2 - t') hs
  have hup := hround.le (isNegi i) (v' % 256)
  have hmod : ((v' % 256 : ℕ) : ℚ) / 256 ≤ 1 := by
    have hlt : v' % 256 ≤ 256 := by omega
    rw [div_le_one (by norm_num)]
    exact_mod_cast hlt
  have hnonneg : (0 : ℚ) ≤ ((v' % 256 : ℕ) : ℚ) / 256 := by positivity
  have hmiddle : (v' % 256 ≤ 128 ↔ ((v' % 256 : ℕ) : ℚ) / 256 ≤ 1 / 2) ∧
      (128 ≤ v' % 256 ↔ 1 / 2 ≤ ((v' % 256 : ℕ) : ℚ) / 256) := by
    rw [div_le_div_iff₀ (by norm_num) (by norm_num), div_le_div_iff₀ (by norm_num) (by norm_num)]
    constructor
    · rw [show (1 : ℚ) * 256 = 128 * 2 by norm_num, mul_le_mul_iff_left₀ (by norm_num)]
      exact_mod_cast Iff.rfl
    · rw [show (1 : ℚ) * 256 = 128 * 2 by norm_num, mul_le_mul_iff_left₀ (by norm_num)]
      exact_mod_cast Iff.rfl
  rw [hword, n.value_word, hvalue, hshift.toInt, hmiddle.1, hmiddle.2]
  generalize (v' / 256 : ℕ) = q at *
  generalize ((v' % 256 : ℕ) : ℚ) / 256 = b at *
  generalize (16 : ℚ) ^ (2 - t' : ℤ) = U at *
  generalize up (isNegi i) (v' % 256) = u at *
  push_cast at hhi
  cases hneg : isNegi i with
  | false =>
      rw [hneg] at hlo hhi
      simp only [Bool.false_eq_true, if_false, one_mul] at hlo hhi ⊢
      have hlt : (q : ℚ) * U < (q + 1) * U := by nlinarith
      obtain rfl | rfl : u = 0 ∨ u = 1 := by lia
      · rw [if_pos rfl, Nat.cast_zero, add_zero, Floating.nearest_low_iff (fun s hs ↦ (hgap s hs).1) hlo hhi hlt (by nlinarith)
          (by nlinarith)]
        constructor <;> intro hle <;> nlinarith
      · rw [if_neg one_ne_zero, Nat.cast_one, Floating.nearest_high_iff (fun s hs ↦ (hgap s hs).1) hlo hhi hlt (by nlinarith)]
        constructor <;> intro hle <;> nlinarith
  | true =>
      rw [hneg] at hlo hhi
      simp only [if_true, neg_mul, one_mul] at hlo hhi ⊢
      have hlt : -(((q : ℚ) + 1) * U) < -(q * U) := by nlinarith
      obtain rfl | rfl : u = 0 ∨ u = 1 := by lia
      · rw [if_pos rfl, Nat.cast_zero, add_zero, Floating.nearest_high_iff (fun s hs ↦ (hgap s hs).2) hhi hlo hlt (by nlinarith)]
        constructor <;> intro hle <;> nlinarith
      · rw [if_neg one_ne_zero, Nat.cast_one, Floating.nearest_low_iff (fun s hs ↦ (hgap s hs).2) hhi hlo hlt (by nlinarith)
          (by nlinarith)]
        constructor <;> intro hle <;> nlinarith

/-! ### Back to integers -/

lemma absi_word (n : Number f) : absi n.word = n.abs := by
  rw [absi]
  cases hneg : n.neg with
  | false => rw [if_neg (not_not.mpr (n.word_sign.mpr hneg)), Number.word, hneg, if_neg Bool.false_ne_true]
  | true =>
      have hsign : n.word &&& signBit f ≠ 0 := fun h ↦ by
        rw [n.word_sign, hneg] at h
        cases h
      rw [if_pos hsign, negate32_eq, n.neg_word hneg]

lemma isNegi_word (n : Number f) : isNegi n.word = n.neg := by
  rw [isNegi]
  cases hneg : n.neg with
  | false => exact decide_eq_false (not_not.mpr (n.word_sign.mpr hneg))
  | true =>
      refine decide_eq_true fun h ↦ ?_
      rw [n.word_sign, hneg] at h
      cases h

/-- An integer from its absolute value. -/
lemma absi_signed (i : BitVec (f + 8)) : (if isNegi i then -absi i else absi i) = i := by
  rw [absi]
  by_cases hneg : i &&& signBit f ≠ 0
  · have hyes : isNegi i = true := decide_eq_true hneg
    rw [if_pos hyes, if_pos hneg, negate32_eq, BitVec.neg_neg]
  · have hno : isNegi i = false := decide_eq_false hneg
    rw [hno, if_neg Bool.false_ne_true, if_neg hneg]

/-- The integer of a number whose fraction is the integer itself, shifted. -/
lemma fixf_number (n : Number f) {top : BitVec 32} (htop : top.toNat = d + 3) (hd : d < 60) (ht : 2 ≤ t) (ht' : t < d + 3)
    (hexp : n.exp = 67 + d - t) (hi : (absi i).toNat < 2 ^ f) (hneg : n.neg = isNegi i)
    (hfrac : n.frac * 256 = (absi i).toNat * 16 ^ t) : (fixf f top n.word).1 = i := by
  obtain ⟨hpow, hpow', hpos⟩ := pow_fields f
  have hquot : (n.abs >>> f).toNat = n.exp := by
    rw [BitVec.toNat_ushiftRight, Nat.shiftRight_eq_div_pow, n.abs_fields.1]
  have hdeep : ((n.abs >>> f).setWidth 32).toNat = n.exp := by
    rw [BitVec.toNat_setWidth, hquot]
    have h128 := n.exp_lt
    exact Nat.mod_eq_of_lt (by lia)
  have h64 : (64 : BitVec 32).toNat = 64 := rfl
  have htemp : ((n.abs >>> f).setWidth 32 - 64).toNat = d + 3 - t := by
    rw [BitVec.toNat_sub_of_le, hdeep, h64]
    · lia
    · rw [BitVec.le_def, hdeep, h64]
      lia
  have hone : (n.abs >>> f).setWidth 32 - 64 ≠ 0 := fun h ↦ by
    rw [h] at htemp
    have h0 : (0 : BitVec 32).toNat = 0 := rfl
    lia
  have hplus : ((n.abs >>> f).setWidth 32 - 64) &&& fSign = 0 := by
    rw [and_fSign_eq_zero, BitVec.msb_eq_false_iff_two_mul_lt, htemp]
    lia
  have hless : ((n.abs >>> f).setWidth 32 - 64 - top).toNat = 2 ^ 32 - t := by
    rw [BitVec.toNat_sub, htemp, htop]
    lia
  have hminus : ¬ ((n.abs >>> f).setWidth 32 - 64 - top = 0 ∧ n.abs <<< 8 = signBit f ∧ isNegi n.word = true) := by
    rintro ⟨h, -⟩
    rw [h] at hless
    have h0 : (0 : BitVec 32).toNat = 0 := rfl
    lia
  have hsmall : ¬ (0#32).slt ((n.abs >>> f).setWidth 32 - 64 - top) = true := by
    rw [BitVec.slt, decide_eq_true_eq, BitVec.toInt_eq_toNat_cond ((n.abs >>> f).setWidth 32 - 64 - top), hless]
    rw [if_neg (by lia)]
    simp only [BitVec.toInt_zero, not_lt]
    lia
  have hcount : (negate32 ((n.abs >>> f).setWidth 32 - 64 - top) * 4).toNat = 4 * t := by
    have h4 : (4 : BitVec 32).toNat = 4 := rfl
    rw [negate32_eq, BitVec.toNat_mul, BitVec.toNat_neg, hless, h4]
    lia
  have hval : (n.abs <<< 8).toNat = (absi i).toNat * 16 ^ t := by
    have hsum : n.abs.toNat * 2 ^ 8 = n.frac * 256 + n.exp * 2 ^ (f + 8) := by
      rw [n.toNat_abs, hpow]
      ring
    have hlt := n.frac_lt
    rw [BitVec.toNat_shiftLeft, Nat.shiftLeft_eq, hsum, Nat.add_mul_mod_self_right, hfrac]
    exact Nat.mod_eq_of_lt (by lia)
  have hback : (n.abs <<< 8) >>> (4 * t) = absi i := by
    refine BitVec.eq_of_toNat_eq ?_
    rw [BitVec.toNat_ushiftRight, hval, Nat.shiftRight_eq_div_pow, pow_mul]
    exact Nat.mul_div_cancel _ (by positivity)
  have hsign : absi i &&& signBit f = 0 := by
    rw [and_signBit_eq_zero]
    lia
  have hnz : n.word ≠ 0 := n.word_ne_zero
  have hfold : decide (n.word &&& signBit f ≠ 0) = isNegi n.word := rfl
  rw [fixf, if_neg hnz]
  simp only [absi_word, hfold]
  rw [if_neg hone, if_neg (not_not.mpr hplus), fixFraction]
  simp only
  rw [if_neg hminus, if_neg hsmall, hcount, hback, if_neg (not_not.mpr hsign), isNegi_word, hneg, negate32_eq]
  exact absi_signed i

/-- **A conversion that comes back**: an integer that fits the fraction. -/
theorem fix_flt (hd : f = 4 * (d + 1)) (hd' : d < 60) (htop : top.toNat = 67 + d) (hround : Rounds round up)
    (hzero : ∀ neg, up neg 0 = 0) {fixTop : BitVec 32} (hfix : fixTop.toNat = d + 3) (hi : i ≠ 0)
    (hsmall : (absi i).toNat < 2 ^ f) : (fixf f fixTop (fltf f round top i).1).1 = i := by
  obtain ⟨t, v, n, hshift, ht, hword, hneg, -, hsame⟩ := fltf_spec hd hd' htop hround hi
  have ht2 : 2 ≤ t := by
    by_contra hlt
    have hlow := hshift.low
    have hpow : 2 ^ (f + 4) = 2 ^ f * 16 := by rw [pow_add]; norm_num
    have hle : 16 ^ t ≤ 16 ^ 1 := Nat.pow_le_pow_right (by decide) (by omega)
    have hmul := Nat.mul_le_mul_left (absi i).toNat hle
    rw [← hshift.eq] at hmul
    omega
  obtain ⟨k, rfl⟩ : ∃ k, t = k + 2 := ⟨t - 2, by omega⟩
  have hv : v = (absi i).toNat * 16 ^ k * 256 := by
    rw [hshift.eq, pow_add]
    ring
  have hb : v % 256 = 0 := by rw [hv, Nat.mul_mod_left]
  obtain ⟨hexp, hfrac⟩ := hsame (by rw [hb, hzero])
  rw [hword]
  refine fixf_number n hfix hd' ht2 ht hexp hsmall hneg ?_
  rw [hfrac, hv, Nat.mul_div_cancel _ (by decide), pow_add]
  ring

end Float

/-! ### The roundings -/

/-- What the roundings add for the 8 bits that they drop. -/
def upw (neg : Bool) (b : ℕ) : ℕ := if b &&& 0x80 ≠ 0 ∧ (neg = true → b &&& 0x7f ≠ 0) then 1 else 0
def upd (neg : Bool) (b : ℕ) : ℕ := if b &&& 0x91 ≠ 0 ∧ (neg = true ↔ b &&& 0x7f ≠ 0) then 1 else 0

/-- A test of some of the last 8 bits. -/
lemma and_low_eq_zero {w m : ℕ} (hw : 8 ≤ w) (hm : m < 256) (v : BitVec w) :
    v &&& BitVec.ofNat w m = 0 ↔ v.toNat % 256 &&& m = 0 := by
  have h0 : (0 : BitVec w).toNat = 0 := rfl
  have hle : 2 ^ 8 ≤ 2 ^ w := Nat.pow_le_pow_right (by decide) hw
  have hsmall : (BitVec.ofNat w m).toNat = m := by
    rw [BitVec.toNat_ofNat]
    exact Nat.mod_eq_of_lt (by omega)
  have hmask : (2 ^ 8 - 1) &&& m = m := by
    rw [Nat.and_comm, Nat.and_two_pow_sub_one_eq_mod]
    exact Nat.mod_eq_of_lt hm
  rw [← BitVec.toNat_inj, BitVec.toNat_and, hsmall, h0, show 256 = 2 ^ 8 from rfl, ← Nat.and_two_pow_sub_one_eq_mod,
    Nat.and_assoc, hmask]

lemma toNat_drop {f : ℕ} (v : BitVec (f + 8)) :
    (v >>> 8).toNat = v.toNat / 256 ∧ (v >>> 8 + 1).toNat = v.toNat / 256 + 1 := by
  have hlt := v.isLt
  have hpow : 2 ^ (f + 8) = 256 * 2 ^ f := (pow_fields f).1
  have hpos : 0 < 2 ^ f := (pow_fields f).2.2
  have hdrop : (v >>> 8).toNat = v.toNat / 256 := by rw [BitVec.toNat_ushiftRight, Nat.shiftRight_eq_div_pow]
  have hone : (1 : BitVec (f + 8)).toNat = 1 := Nat.mod_eq_of_lt (Nat.one_lt_two_pow (by omega))
  refine ⟨hdrop, ?_⟩
  rw [BitVec.toNat_add, hdrop, hone]
  exact Nat.mod_eq_of_lt (by lia)

lemma rounds_roundw : Rounds roundw upw where
  eq := fun neg v ↦ by
    obtain ⟨h0, h1⟩ := toNat_drop v
    have h80 : v &&& 0x80 = 0 ↔ v.toNat % 256 &&& 0x80 = 0 := and_low_eq_zero (by decide) (by decide) v
    have h7f : v &&& 0x7f = 0 ↔ v.toNat % 256 &&& 0x7f = 0 := and_low_eq_zero (by decide) (by decide) v
    simp only [roundw, upw, ne_eq, h80, h7f]
    generalize v >>> 8 + 1 = more at *
    generalize v >>> 8 = same at *
    by_cases hhalf : v.toNat % 256 &&& 0x80 = 0 <;> by_cases hrest : v.toNat % 256 &&& 0x7f = 0 <;> cases neg <;>
      simp [hhalf, hrest, h0, h1]
  le := fun neg b ↦ by
    rw [upw]
    split_ifs <;> decide

lemma rounds_roundd : Rounds roundd upd where
  eq := fun neg v ↦ by
    obtain ⟨h0, h1⟩ := toNat_drop v
    have h91 : v &&& 0x91 = 0 ↔ v.toNat % 256 &&& 0x91 = 0 := and_low_eq_zero (by decide) (by decide) v
    have h7f : v &&& 0x7f = 0 ↔ v.toNat % 256 &&& 0x7f = 0 := and_low_eq_zero (by decide) (by decide) v
    simp only [roundd, upd, ne_eq, h91, h7f]
    generalize v >>> 8 + 1 = more at *
    generalize v >>> 8 = same at *
    by_cases hsome : v.toNat % 256 &&& 0x91 = 0 <;> by_cases hrest : v.toNat % 256 &&& 0x7f = 0 <;> cases neg <;>
      simp [hsome, hrest, h0, h1]
  le := fun neg b ↦ by
    rw [upd]
    split_ifs <;> decide

/-- `s_fltw` rounds to the nearest number. -/
lemma upw_nearest : ∀ neg, ∀ b < 256, if upw neg b = 0 then b ≤ 128 else 128 ≤ b := by
  intro neg b hb
  have hhalf : b &&& 0x80 ≠ 0 ↔ b / 2 ^ 7 % 2 = 1 := Word.and_pow_ne_zero b 7
  have hrest : b &&& 0x7f = b % 2 ^ 7 := Nat.and_two_pow_sub_one_eq_mod b 7
  simp only [upw, hhalf, hrest]
  by_cases hup : b / 2 ^ 7 % 2 = 1 ∧ (neg = true → b % 2 ^ 7 ≠ 0)
  · rw [if_pos hup, if_neg one_ne_zero]
    lia
  · rw [if_neg hup, if_pos rfl]
    have hzero : b / 2 ^ 7 % 2 = 1 → b % 2 ^ 7 = 0 := fun h ↦ by_contra fun hne ↦ hup ⟨h, fun _ ↦ hne⟩
    lia

/-- The 8 bits for which `s_fltd` does. -/
def RoundsWell (neg : Bool) (b : ℕ) : Prop := if neg then 0x80 ≤ b ∨ b &&& 0x11 = 0 else b ≤ 0x80

instance (neg : Bool) (b : ℕ) : Decidable (RoundsWell neg b) :=
  inferInstanceAs (Decidable (if neg then 0x80 ≤ b ∨ b &&& 0x11 = 0 else b ≤ 0x80))

lemma upd_nearest : ∀ neg, ∀ b < 256, (if upd neg b = 0 then b ≤ 128 else 128 ≤ b) ↔ RoundsWell neg b := by
  decide +kernel

/-! ### Faithful conversions -/

/-- What is asked of a conversion `flt` and its inverse `fix`, for two integers: numbers that are nearest to
them, in their order, and the integer again if it fits the fraction. -/
structure Faithful {f : ℕ} (flt fix : BitVec (f + 8) → BitVec (f + 8) × BitVec 32) (i j : BitVec (f + 8)) : Prop where
  left : Floating.Nearest (numbers f) i.toInt (value (flt i).1)
  right : Floating.Nearest (numbers f) j.toInt (value (flt j).1)
  mono : i.toInt ≤ j.toInt → value (flt i).1 ≤ value (flt j).1
  back : |i.toInt| < 2 ^ f → (fix (flt i).1).1 = i

/-- Nearest numbers are in order. -/
lemma faithful_iff {f : ℕ} {flt fix : BitVec (f + 8) → BitVec (f + 8) × BitVec 32} {i j : BitVec (f + 8)}
    (hback : |i.toInt| < 2 ^ f → (fix (flt i).1).1 = i) : Faithful flt fix i j ↔
      Floating.Nearest (numbers f) i.toInt (value (flt i).1) ∧ Floating.Nearest (numbers f) j.toInt (value (flt j).1) := by
  refine ⟨fun h ↦ ⟨h.left, h.right⟩, fun ⟨hi, hj⟩ ↦ ⟨hi, hj, fun hle ↦ ?_, hback⟩⟩
  rcases hle.lt_or_eq with hlt | heq
  · exact hi.mono hj (by exact_mod_cast hlt)
  · rw [BitVec.toInt_inj.mp heq]

lemma absi_lt {f : ℕ} {i : BitVec (f + 8)} (h : |i.toInt| < 2 ^ f) : (absi i).toNat < 2 ^ f := by
  have habs := toInt_eq_absi i
  have hcast : |(i.toInt : ℚ)| = (absi i).toNat := by
    rw [habs]
    cases isNegi i <;> simp
  have hq : |(i.toInt : ℚ)| < 2 ^ f := by exact_mod_cast h
  rw [hcast] at hq
  exact_mod_cast hq

/-- The integer 0 is a number. -/
lemma nearest_zero {f : ℕ} : Floating.Nearest (numbers f) ((0 : BitVec (f + 8)).toInt : ℚ) (value (0 : BitVec (f + 8))) := by
  have hpos : 0 < 2 ^ (f + 7) := by positivity
  have hvalue : value (0 : BitVec (f + 8)) = 0 := by
    rw [value, if_pos (show (0 : BitVec (f + 8)).toNat < _ from hpos), show (0 : BitVec (f + 8)).toNat = 0 from rfl, Nat.zero_mod]
    simp
  have hzero : ((0 : BitVec (f + 8)).toInt : ℚ) = 0 := by
    have hint : (0 : BitVec (f + 8)).toInt = 0 := BitVec.toInt_zero
    rw [hint, Int.cast_zero]
  rw [hzero, hvalue]
  exact Floating.nearest_self ⟨0, hvalue⟩

/-- Words are always converted to the nearest number. -/
lemma nearest_fltw (i : BitVec (24 + 8)) : Floating.Nearest (numbers 24) i.toInt (value (fltw i).1) := by
  by_cases hi : i = 0
  · have hrun : (fltw 0).1 = 0 := by decide
    rw [hi, hrun]
    exact nearest_zero
  · obtain ⟨t, r, -, hshift, -⟩ := shifted (d := 5) rfl hi
    rw [fltw, nearest_fltf_iff (d := 5) rfl (by decide) rfl rounds_roundw hi hshift]
    exact upw_nearest _ _ (Nat.mod_lt _ (by decide))

lemma back_fltw (i : BitVec (24 + 8)) (h : |i.toInt| < 2 ^ 24) : (fixw (fltw i).1).1 = i := by
  by_cases hi : i = 0
  · rw [hi]
    decide
  · exact fix_flt (d := 5) rfl (by decide) rfl rounds_roundw (by decide) rfl hi (absi_lt h)

lemma fltd_of_ne {i : BitVec (56 + 8)} (hi : i ≠ 0) : fltd i = fltf 56 roundd 0x50 i := by rw [fltd, if_neg hi]

lemma back_fltd (i : BitVec (56 + 8)) (h : |i.toInt| < 2 ^ 56) : (fixd (fltd i).1).1 = i := by
  by_cases hi : i = 0
  · rw [hi]
    decide
  · rw [fltd_of_ne hi]
    exact fix_flt (d := 13) rfl (by decide) rfl rounds_roundd (by decide) rfl hi (absi_lt h)

/-- The 8 bits that are dropped from a double word: the last ones when its absolute value has been shifted until
its first digit is not zero. -/
def dropped (i : BitVec (56 + 8)) : ℕ := (shiftWhile (noDigit 60) 16 (absi i) 0).1.toNat % 256

/-- The double words that are converted to a nearest number. -/
def Rounded (i : BitVec (56 + 8)) : Prop := RoundsWell (isNegi i) (dropped i)

instance (i : BitVec (56 + 8)) : Decidable (Rounded i) := inferInstanceAs (Decidable (RoundsWell _ _))

lemma nearest_fltd_iff (i : BitVec (56 + 8)) :
    Floating.Nearest (numbers 56) i.toInt (value (fltd i).1) ↔ Rounded i := by
  by_cases hi : i = 0
  · have hrun : (fltd 0).1 = 0 := by decide
    rw [hi, hrun]
    exact iff_of_true nearest_zero (by decide)
  · obtain ⟨t, r, hloop, hshift, -⟩ := shifted (d := 13) rfl hi
    have hdrop : dropped i = r.toNat % 256 := by
      rw [dropped]
      exact congrArg (fun p : BitVec (56 + 8) × ℕ ↦ p.1.toNat % 256) hloop
    rw [fltd_of_ne hi, nearest_fltf_iff (d := 13) rfl (by decide) rfl rounds_roundd hi hshift,
      upd_nearest _ _ (Nat.mod_lt _ (by decide)), Rounded, hdrop]

/-- **The conversions are faithful**: those of words always, and those of double words exactly for the integers
whose dropped bits are rounded well. -/
theorem conversions_iff (i j : BitVec (24 + 8)) (a b : BitVec (56 + 8)) :
    Faithful fltw fixw i j ∧ Faithful fltd fixd a b ↔ Rounded a ∧ Rounded b := by
  rw [faithful_iff (back_fltw i), faithful_iff (back_fltd a), nearest_fltd_iff, nearest_fltd_iff]
  exact and_iff_right ⟨nearest_fltw i, nearest_fltw j⟩

/-- The integers are not in order any more. -/
theorem converts_fails : ¬ ∀ (i j : BitVec (24 + 8)) (a b : BitVec (56 + 8)),
    Faithful fltw fixw i j ∧ Faithful fltd fixd a b := fun h ↦ by
  have hmono := (h 0 0 0x1000000000000080 0x1000000000000081).2.mono (by decide)
  exact absurd hmono (by decide +kernel)

end Ka10Simh.Sel32
