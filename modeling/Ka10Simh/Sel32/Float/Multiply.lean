import Ka10Simh.Lib.BitSerial
import Ka10Simh.Sel32.Float.Add

/-!
The floating point multiplications of a SEL 32: `s_mpfw` and `s_mpfd`.

The mantissas are multiplied bit by bit, and the upper half of the product is kept: with a guard digit for words, and
without one for double words.

* `mpfw`, `mpfd`: the multiplications.
* `mulLoop_spec`: the bits of a product.
* `product_delivered_iff`: when a normalized product is right.
* `finishw_spec`, `mpfwNormal_iff`: the guard digit of a word, and the product of two words.
* `finishd_spec`, `GoodProduct`, `mpfdNormal_iff`: the turns of the normalization, and the product of two double words.
* `multiply_symm`, `muls_iff`: all operands.
* `mpfd_wrong`: the last digit is lost in a product with one.
-/

namespace Ka10Simh.Sel32

/-! ### The source -/

/-- A turn of the multiplications: the factor that is shifted, and the product. -/
def mulTurn {w : ℕ} (mem : BitVec w) (s : BitVec w × BitVec w) : BitVec w × BitVec w :=
  (s.1 >>> 1, (if s.1 &&& 1 ≠ 0 then s.2 + mem else s.2) >>> 1)

/-- An exponent that is too large after a carry. -/
def overflowedCarry (f : ℕ) (neg : Bool) : BitVec (f + 8) × BitVec 32 :=
  ((overflowed f neg).1, cc1Bit ||| if neg then cc3Bit else cc2Bit)

/-- The result out of its parts, when the product is normalized. -/
def product (f : ℕ) (sign : Bool) (er : ℤ) (res : BitVec (f + 8)) : BitVec (f + 8) × BitVec 32 :=
  if 128 ≤ er then overflowed f sign
  else if er < 0 then (0, cc1Bit ||| if sign then cc3Bit else cc2Bit)
  else
    let res := res >>> 4 &&& mantMask f ||| BitVec.ofInt (f + 8) er <<< f &&& exMask f
    let res := if sign then negate32 res else res
    (res, if res ≠ 0 then (if sign then cc3Bit else cc2Bit) else cc4Bit)

/-- The boundary rounding of `s_mpfw`. -/
def roundProduct (sign lsb : Bool) (er : ℤ) (res : BitVec (24 + 8)) : BitVec (24 + 8) :=
  let res := if 0x01000000 ≤ res ∧ sign = false then res + 8 else res
  if res = 0x00ffffff ∧ sign ∧ er ≠ 1 ∧ lsb ∧ er ≠ 0x41 ∧ er ≠ 0x81 then res + 1 else res

/-- A product of words is normalized. -/
def alignw (sign : Bool) (er : ℤ) (res : BitVec (24 + 8)) : BitVec (24 + 8) × BitVec 32 :=
  if res = 0 then (0, cc4Bit)
  else
    let r := shiftWhile (noDigit 24) 8 res 0
    product 24 sign (er - r.2) r.1

/-- A carry out of the mantissa goes back into it first. -/
def finishw (sign : Bool) (er : ℤ) (res : BitVec (24 + 8)) : BitVec (24 + 8) × BitVec 32 :=
  if res &&& 0x70000000 ≠ 0 then
    if 128 ≤ er + 1 then overflowedCarry 24 sign else alignw sign (er + 1) (res >>> 4)
  else alignw sign er res

/-- The boundary conditions of `s_mpfd`: the exponent and the product. -/
def boundaryProduct (sign lsb : Bool) (er : ℤ) (res : Dword) : ℤ × Dword :=
  if 0x0010000000000000 ≤ res ∧ sign then (er, res + 1)
  else if res = 0x000fffffffffffff ∧ sign ∧ er ≠ 1 then
    if lsb = false then (if er = 0x41 ∨ er = 0x81 then er + 1 else er, res) else (er, res + 1)
  else (er, res)

/-- A product of double words is normalized, for `k` turns at most. -/
def normalizeProduct (sign lsb : Bool) : ℕ → ℤ → Dword → ℤ × Dword
  | 0, er, res => (er, res)
  | k + 1, er, res =>
      if noDigit 56 res then
        let res := res <<< 4
        let er := er - 1
        if res = 0x00fffffffffffff0 ∧ sign then
          if lsb = false then normalizeProduct sign lsb k (er - 1) res else normalizeProduct sign lsb k er (res + 0x10)
        else normalizeProduct sign lsb k er res
      else (er, res)

/-- A product of double words is normalized. -/
def alignd (sign lsb : Bool) (er : ℤ) (res : Dword) : Dword × BitVec 32 :=
  if res = 0 then (0, cc4Bit)
  else
    let r := normalizeProduct sign lsb 16 er res
    product 56 sign r.1 r.2

/-- A carry out of the mantissa goes back into it first. -/
def finishd (sign lsb : Bool) (er : ℤ) (res : Dword) : Dword × BitVec 32 :=
  if res &&& exMask 56 ≠ 0 then
    if 128 ≤ er + 1 then overflowedCarry 56 sign else alignd sign lsb (er + 1) (res >>> 4)
  else alignd sign lsb er res

/-- One of the operands is odd. -/
def eitherOdd {f : ℕ} (reg mem : BitVec (f + 8)) : Bool := absi reg &&& 1 ≠ 0 ∨ absi mem &&& 1 ≠ 0

/-- The sum of the exponents. -/
def exponentSum {f : ℕ} (reg mem : BitVec (f + 8)) : ℤ :=
  ((absi reg &&& exMask f) >>> f).toNat + ((absi mem &&& exMask f) >>> f).toNat - 0x40

/-- `s_mpfw` of normalized operands that are not zero. -/
def mpfwNormal (reg mem : BitVec (24 + 8)) : BitVec (24 + 8) × BitVec 32 :=
  let sign := isNegi reg != isNegi mem
  let er := exponentSum reg mem
  let res := ((mulTurn ((absi mem &&& mantMask 24) <<< 4))^[28] ((absi reg &&& mantMask 24) <<< 4, 0)).2
  finishw sign er (roundProduct sign (eitherOdd reg mem) er res)

/-- `s_mpfd` of normalized operands that are not zero. -/
def mpfdNormal (reg mem : Dword) : Dword × BitVec 32 :=
  let sign := isNegi reg != isNegi mem
  let er := exponentSum reg mem + 1
  let res := ((mulTurn (absi mem &&& mantMask 56))^[56] (absi reg &&& mantMask 56, 0)).2
  let r := boundaryProduct sign (eitherOdd reg mem) er res
  finishd sign (eitherOdd reg mem) r.1 r.2

/-- What both multiplications begin with. -/
def multiply {f : ℕ} (normal : BitVec (f + 8) → BitVec (f + 8) → BitVec (f + 8) × BitVec 32) (reg mem : BitVec (f + 8)) :
    BitVec (f + 8) × BitVec 32 :=
  let r := normf f reg
  if r.2 &&& cc1Bit ≠ 0 then r
  else
    let m := normf f mem
    if m.2 &&& cc1Bit ≠ 0 then m
    else if r.1 = 0 ∨ m.1 = 0 then (0, cc4Bit)
    else normal r.1 m.1

/-- `s_mpfw` and `s_mpfd`. -/
def mpfw (reg mem : BitVec (24 + 8)) : BitVec (24 + 8) × BitVec 32 := multiply mpfwNormal reg mem
def mpfd (reg mem : Dword) : Dword × BitVec 32 := multiply mpfdNormal reg mem

/-! ### The bits of a product -/

section Parts

variable {w : ℕ} {f : ℕ}

/-- A turn on words is one on numbers. -/
lemma mulTurn_toNat {mem q r : BitVec w} (hw : 1 < w) (hlt : r.toNat + mem.toNat < 2 ^ w) :
    ((mulTurn mem (q, r)).1.toNat, (mulTurn mem (q, r)).2.toNat) = BitSerial.highStep mem.toNat (q.toNat, r.toNat) := by
  have hone : (1 : BitVec w).toNat = 1 := Nat.mod_eq_of_lt (Nat.one_lt_two_pow (by omega))
  have hzero : (0 : BitVec w).toNat = 0 := rfl
  have hodd : q &&& 1 ≠ 0 ↔ q.toNat % 2 = 1 := by
    rw [ne_eq, ← BitVec.toNat_inj, BitVec.toNat_and, hone, hzero, Nat.and_one_is_mod]
    lia
  rw [mulTurn, BitSerial.highStep]
  dsimp only
  rw [BitVec.toNat_ushiftRight, BitVec.toNat_ushiftRight, Nat.shiftRight_eq_div_pow, Nat.shiftRight_eq_div_pow, pow_one]
  refine Prod.ext rfl ?_
  dsimp only
  congr 1
  split_ifs with h
  · rw [hodd] at h
    rw [BitVec.toNat_add, Nat.mod_eq_of_lt hlt, h, one_mul]
  · rw [hodd] at h
    rw [show q.toNat % 2 = 0 by lia, zero_mul, add_zero]

/-- **The upper bits of the product.** -/
theorem mulLoop_spec {n : ℕ} {reg mem : BitVec w} (hw : 1 < w) (hmem : 2 * mem.toNat < 2 ^ w) (hreg : reg.toNat < 2 ^ n) :
    ((mulTurn mem)^[n] (reg, 0)).2.toNat = reg.toNat * mem.toNat / 2 ^ n := by
  have hrun (k : ℕ) : (((mulTurn mem)^[k] (reg, 0)).1.toNat, ((mulTurn mem)^[k] (reg, 0)).2.toNat) =
      (BitSerial.highStep mem.toNat)^[k] (reg.toNat, 0) := by
    induction k with
    | zero => rfl
    | succ k ih =>
        rw [Function.iterate_succ_apply', Function.iterate_succ_apply', ← ih]
        rw [BitSerial.high_run] at ih
        obtain ⟨-, hres⟩ := Prod.mk.inj ih
        have hbelow : ((mulTurn mem)^[k] (reg, 0)).2.toNat ≤ mem.toNat := by
          rw [hres]
          refine Nat.div_le_of_le_mul ?_
          exact Nat.mul_le_mul_right _ (Nat.mod_lt _ (by positivity)).le
        exact mulTurn_toNat hw (by omega)
  have hend := hrun n
  rw [BitSerial.high_run] at hend
  rw [(Prod.mk.inj hend).2, Nat.mod_eq_of_lt hreg]

/-! ### The result -/

/-- The number of a word. -/
lemma Number.word_inj {n m : Number f} (h : n.word = m.word) : n = m := by
  have hneg : n.neg = m.neg := by rw [← isNegi_word, h, isNegi_word]
  have habs : n.abs = m.abs := by rw [← absi_word, h, absi_word]
  have hexp : n.exp = m.exp := by rw [← n.exp_abs, habs, m.exp_abs]
  have hfrac : n.frac = m.frac := by rw [← n.frac_abs, habs, m.frac_abs]
  obtain ⟨neg, exp, frac, _, _, _⟩ := n
  obtain ⟨neg', exp', frac', _, _, _⟩ := m
  dsimp only at hneg hexp hfrac
  subst hneg hexp hfrac
  rfl

/-- The result is the number with the parts. -/
lemma product_number (n : Number f) {res : BitVec (f + 8)} (hres : res.toNat / 16 = n.frac) :
    product f n.neg n.exp res = (n.word, n.cc) := by
  have hexp := n.exp_lt
  have hshift : (res >>> 4 &&& mantMask f).toNat = n.frac := by
    rw [toNat_and_mantMask, BitVec.toNat_ushiftRight, Nat.shiftRight_eq_div_pow, hres, Nat.mod_eq_of_lt n.frac_lt]
  rw [product, if_neg (by omega), if_neg (by omega)]
  dsimp only
  rw [build_number n hshift, if_pos n.word_ne_zero, Number.cc]

/-- An exponent that is not one of a number. -/
lemma product_exception (sign : Bool) {er : ℤ} (h : ¬ (0 ≤ er ∧ er < 128)) (res : BitVec (f + 8)) :
    (product f sign er res).2 &&& cc1Bit ≠ 0 := by
  by_cases hbig : 128 ≤ er
  · have hcode : (cc1Bit ||| cc4Bit ||| if sign then cc3Bit else cc2Bit) &&& cc1Bit ≠ 0 := by cases sign <;> decide
    rwa [product, if_pos hbig]
  · have hcode : (cc1Bit ||| if sign then cc3Bit else cc2Bit) &&& cc1Bit ≠ 0 := by cases sign <;> decide
    rwa [product, if_neg hbig, if_pos (by omega)]

/-- An arithmetic exception is not right for any value. -/
lemma not_delivered_exception {x : ℚ} {out : BitVec (f + 8) × BitVec 32} (h : out.2 &&& cc1Bit ≠ 0) : ¬ Delivered f x out := by
  rintro (⟨-, rfl⟩ | ⟨n, rfl, -⟩)
  · exact h (show cc4Bit &&& cc1Bit = 0 by decide)
  · exact h n.cc_sound

/-- **When the result is right**: its exponent is one of a number, its mantissa is not more than a unit away, and it is exact
when it can be. -/
theorem product_delivered_iff {z x : ℚ} {e j : ℤ} {m : ℕ} {sign : Bool} {res : BitVec (f + 8)} (hz : 0 < z)
    (hx : x = (if sign then -1 else 1) * (z * unit f e)) (hres : res.toNat / 16 = m) (hlow : 2 ^ (f - 4) ≤ m)
    (hhigh : m < 2 ^ f) : Delivered f x (product f sign (e + j) res) ↔
      (0 ≤ e + j ∧ e + j < 128) ∧ |m * 16 ^ j - z| ≤ 16 ^ j ∧ (Representable f x → m * 16 ^ j = z) := by
  have he := unit_pos f e
  have hne : x ≠ 0 := by
    have hpos : z * unit f e ≠ 0 := (mul_pos hz he).ne'
    rw [hx]
    cases sign <;> simpa using hpos
  by_cases hk : 0 ≤ e + j ∧ e + j < 128
  swap
  · exact iff_of_false (not_delivered_exception (product_exception sign hk res)) fun h ↦ hk h.1
  have hcast : (((e + j).toNat : ℕ) : ℤ) = e + j := Int.toNat_of_nonneg hk.1
  let n : Number f := ⟨sign, (e + j).toNat, m, by omega, hhigh, hlow⟩
  have hout : product f sign (e + j) res = (n.word, n.cc) := by
    rw [← hcast]
    exact product_number n hres
  have hvalue : n.value = (if sign then -1 else 1) * (m * 16 ^ j * unit f e) := by
    rw [n.value_eq, hcast, unit_add]
    ring
  have hdiff : |n.value - x| = |m * 16 ^ j - z| * unit f e := by
    rw [hvalue, hx, ← mul_sub, ← sub_mul, abs_mul, abs_mul, abs_of_pos he]
    cases sign <;> simp
  have hunit : unit f n.exp = 16 ^ j * unit f e := by rw [show ((n.exp : ℕ) : ℤ) = e + j from hcast, unit_add]
  have hequal : n.value = x ↔ m * 16 ^ j = z := by
    rw [← sub_eq_zero, ← abs_eq_zero, hdiff, mul_eq_zero, or_iff_left he.ne', abs_eq_zero, sub_eq_zero]
  have hnear : |n.value - x| ≤ unit f n.exp ↔ |m * 16 ^ j - z| ≤ 16 ^ j := by
    rw [hdiff, hunit]
    exact mul_le_mul_iff_of_pos_right he
  rw [hout, Delivered, and_iff_right hk]
  constructor
  · rintro (⟨h0, -⟩ | ⟨n', hn', hle, hexact⟩)
    · exact absurd h0 hne
    · obtain rfl : n = n' := Number.word_inj (Prod.mk.inj hn').1
      exact ⟨hnear.mp hle, fun hrep ↦ hequal.mp (hexact hrep)⟩
  · rintro ⟨hle, hexact⟩
    exact .inr ⟨n, rfl, hnear.mpr hle, fun hrep ↦ hequal.mpr (hexact hrep)⟩

/-- A near mantissa is right. -/
lemma product_near {z x : ℚ} {e j : ℤ} {m : ℕ} {sign : Bool} {res : BitVec (f + 8)} (h : Near f z j m) (hf : 4 ≤ f) (hz : 0 < z)
    (hx : x = (if sign then -1 else 1) * (z * unit f e)) (hrange : InRange f x) (hres : res.toNat / 16 = m) :
    Delivered f x (product f sign (e + j) res) := by
  obtain ⟨n, hneg, hexp, hfrac, hdelivered⟩ := h.delivered hf hz hx hrange
  rwa [← hneg, ← hexp, product_number n (hres.trans hfrac.symm)]

/-- The value of a number is a mantissa of some unit. -/
lemma Representable.mantissa {z x : ℚ} {e : ℤ} {sign : Bool} (h : Representable f x) (hz : 0 < z)
    (hx : x = (if sign then -1 else 1) * (z * unit f e)) : ∃ (k : ℤ) (p : Number f), z = p.frac * 16 ^ k := by
  have he := unit_pos f e
  have hpos : 0 < z * unit f e := mul_pos hz he
  have habs : |x| = z * unit f e := by
    rw [hx, abs_mul, abs_of_pos hpos]
    cases sign <;> simp
  have hne : x ≠ 0 := fun h0 ↦ by
    rw [h0, abs_zero] at habs
    linarith
  obtain ⟨p, hp⟩ := h.resolve_left hne
  refine ⟨(p.exp : ℤ) - e, p, ?_⟩
  have hmul : z * unit f e = p.frac * 16 ^ ((p.exp : ℤ) - e) * unit f e := by
    rw [← habs, ← hp, p.abs_value, mul_assoc, ← unit_add]
    congr 2
    ring
  exact mul_right_cancel₀ he.ne' hmul

/-- A value is that of a number when it is a mantissa of some unit. -/
lemma representable_of_mantissa {z x : ℚ} {e q : ℤ} {w : ℕ} {sign : Bool} (hf : 4 ≤ f) (hlow : 2 ^ (f - 4) ≤ w) (hhigh : w < 2 ^ f)
    (hz : z = w * 16 ^ q) (hx : x = (if sign then -1 else 1) * (z * unit f e)) (hrange : InRange f x) : Representable f x := by
  have hpos : (0 : ℚ) < 16 ^ q := by positivity
  have hw : (2 : ℚ) ^ (f - 4) ≤ w := by exact_mod_cast hlow
  have htop : (0 : ℚ) < 2 ^ (f - 4) := by positivity
  have hnear : Near f z q w := ⟨hlow, hhigh, by rw [hz, sub_self, abs_zero]; exact hpos, fun hbelow ↦ by
    have hle := mul_le_mul_of_nonneg_right hw hpos.le
    linarith⟩
  obtain ⟨n, hneg, hexp, hfrac, -⟩ := hnear.delivered hf (by rw [hz]; exact mul_pos (htop.trans_le hw) hpos) hx hrange
  refine .inr ⟨n, ?_⟩
  rw [n.value_eq, hneg, hexp, hfrac, hx, hz, unit_add]
  ring

/-! ### The parts of the operands -/

lemma Number.odd_iff (hf : 1 ≤ f) (n : Number f) : n.abs &&& 1 ≠ 0 ↔ n.frac % 2 = 1 := by
  have hone : (1 : BitVec (f + 8)).toNat = 1 := Nat.mod_eq_of_lt (Nat.one_lt_two_pow (by omega))
  have hzero : (0 : BitVec (f + 8)).toNat = 0 := rfl
  have heven : n.exp * 2 ^ f % 2 = 0 := by
    obtain ⟨k, rfl⟩ := Nat.exists_eq_add_of_le' hf
    rw [pow_succ, ← mul_assoc, Nat.mul_mod_left]
  rw [ne_eq, ← BitVec.toNat_inj, BitVec.toNat_and, hone, hzero, Nat.and_one_is_mod, n.toNat_abs]
  lia

/-- One of two numbers is odd. -/
def odd (n m : Number f) : Bool := n.frac % 2 = 1 ∨ m.frac % 2 = 1

lemma eitherOdd_word (hf : 1 ≤ f) (n m : Number f) : eitherOdd n.word m.word = odd n m := by
  rw [eitherOdd, odd, absi_word, absi_word]
  simp only [n.odd_iff hf, m.odd_iff hf]

/-- The exponent of a product. -/
def exponent (n m : Number f) : ℤ := n.exp + m.exp - 0x40

lemma exponentSum_word (n m : Number f) : exponentSum n.word m.word = exponent n m := by
  rw [exponentSum, absi_word, absi_word, n.exp_abs, m.exp_abs, exponent]

/-- The product of two numbers. -/
lemma value_mul (n m : Number f) : n.value * m.value =
    (if n.neg != m.neg then -1 else 1) * ((n.frac * m.frac : ℕ) / 2 ^ f * unit f (exponent n m)) := by
  have hunit : unit f n.exp * unit f m.exp = unit f (exponent n m) / 2 ^ f := by
    rw [unit, unit, unit, exponent, div_mul_div_comm, ← zpow_add₀ (by norm_num), div_div]
    congr 2
    ring
  rw [n.value_eq, m.value_eq, mul_mul_mul_comm, mul_mul_mul_comm (n.frac : ℚ), hunit]
  push_cast
  cases n.neg <;> cases m.neg <;> simp <;> ring

end Parts

/-! ### Words -/

/-- A product of words without a carry: the guard digit is dropped, or it is taken. -/
lemma finishw_spec (sign : Bool) (er : ℤ) {v : BitVec (24 + 8)} (hlow : 2 ^ 20 ≤ v.toNat) (hhigh : v.toNat < 2 ^ 28) :
    ∃ r j m, finishw sign er v = product 24 sign (er - 1 + j) r ∧ r.toNat / 16 = m ∧ Dropped 24 v.toNat j m := by
  have hmask : (0x70000000 : BitVec (24 + 8)).toNat = (2 ^ 3 - 1) <<< 28 := rfl
  have hzero : (0 : BitVec (24 + 8)).toNat = 0 := rfl
  have hcarry : v &&& 0x70000000 = 0 := by
    rw [← BitVec.toNat_inj, BitVec.toNat_and, hmask, Word.and_shiftLeft, Nat.shiftRight_eq_div_pow, Nat.div_eq_of_lt hhigh]
    rfl
  have hne : v ≠ 0 := fun h0 ↦ by
    rw [h0, hzero] at hlow
    omega
  obtain ⟨t, r, hloop, hr, hrlow, hrhigh, hnone⟩ := shiftWhile_digits (p := 24) (k := 8) (n := 0) (v := v) (by norm_num) hhigh
    (by omega)
  have hrun : finishw sign er v = product 24 sign (er - t) r := by
    rw [finishw, if_neg (not_not.mpr hcarry), alignw, if_neg hne, hloop, Nat.zero_add]
  rcases Nat.lt_or_ge v.toNat (2 ^ 24) with hsmall | hlarge
  · obtain rfl : t = 1 := by
      rcases Nat.lt_trichotomy t 1 with ht | ht | ht
      · obtain rfl : t = 0 := by omega
        lia
      · exact ht
      · have hpow : 16 ^ 2 ≤ 16 ^ t := Nat.pow_le_pow_right (by norm_num) ht
        have hmul : v.toNat * 16 ^ 2 ≤ v.toNat * 16 ^ t := Nat.mul_le_mul_left _ hpow
        lia
    refine ⟨r, 0, v.toNat, ?_, by omega, ⟨hlow, hsmall, .inr (.inr ⟨hsmall, 0, rfl, by simp⟩)⟩⟩
    rw [hrun]
    congr 1
    push_cast
    ring
  · obtain rfl := hnone hlarge
    refine ⟨r, 1, v.toNat / 16, ?_, by lia, ⟨by lia, by lia, .inr (.inl ⟨rfl, rfl, hlarge, hhigh⟩)⟩⟩
    rw [hrun]
    congr 1
    push_cast
    ring

/-- The product of two words with its guard digit. -/
lemma mulLoop_word (n m : Number 24) :
    ((mulTurn ((m.abs &&& mantMask 24) <<< 4))^[28] ((n.abs &&& mantMask 24) <<< 4, 0)).2.toNat = n.frac * m.frac / 2 ^ 20 := by
  have hguard (p : Number 24) : ((p.abs &&& mantMask 24) <<< 4).toNat = 16 * p.frac := by
    have hlt := p.frac_lt
    rw [BitVec.toNat_shiftLeft, p.frac_abs, Nat.shiftLeft_eq]
    omega
  have hlt := n.frac_lt
  have hlt' := m.frac_lt
  rw [mulLoop_spec (by norm_num) (by rw [hguard]; omega) (by rw [hguard]; omega), hguard, hguard,
    show 16 * n.frac * (16 * m.frac) = 2 ^ 8 * (n.frac * m.frac) by ring, show (2 : ℕ) ^ 28 = 2 ^ 8 * 2 ^ 20 by norm_num,
    Nat.mul_div_mul_left _ _ (by norm_num)]

/-- The product of two numbers. -/
lemma mpfwNormal_word (n m : Number 24) : ∃ v : BitVec (24 + 8), v.toNat = n.frac * m.frac / 2 ^ 20 ∧
    mpfwNormal n.word m.word =
      finishw (n.neg != m.neg) (exponent n m) (roundProduct (n.neg != m.neg) (odd n m) (exponent n m) v) := by
  refine ⟨_, mulLoop_word n m, ?_⟩
  rw [mpfwNormal, isNegi_word, isNegi_word, exponentSum_word, eitherOdd_word (by norm_num), absi_word, absi_word]

/-- The products of words that are rounded up from the greatest mantissa: negative ones with an odd operand, but for some
exponents. -/
def RoundedUp (n m : Number 24) : Prop :=
  (n.neg != m.neg) = true ∧ odd n m = true ∧ exponent n m ≠ 1 ∧ exponent n m ≠ 0x41 ∧ exponent n m ≠ 0x81

instance (n m : Number 24) : Decidable (RoundedUp n m) := inferInstanceAs (Decidable (_ ∧ _))

/-- The rounding of a product. -/
lemma roundProduct_spec (n m : Number 24) {v : BitVec (24 + 8)} (hv : v.toNat < 2 ^ 28) :
    (roundProduct (n.neg != m.neg) (odd n m) (exponent n m) v).toNat =
      if 2 ^ 24 ≤ v.toNat ∧ (n.neg != m.neg) = false then v.toNat + 8
      else if v.toNat = 2 ^ 24 - 1 ∧ RoundedUp n m then 2 ^ 24 else v.toNat := by
  have height : (8 : BitVec (24 + 8)).toNat = 8 := rfl
  have hone : (1 : BitVec (24 + 8)).toNat = 1 := rfl
  have htop : (0x01000000 : BitVec (24 + 8)) ≤ v ↔ 2 ^ 24 ≤ v.toNat := BitVec.le_def
  have hmax (x : BitVec (24 + 8)) : x = 0x00ffffff ↔ x.toNat = 2 ^ 24 - 1 := BitVec.toNat_inj.symm
  have hround : (v + 8).toNat = v.toNat + 8 := by
    rw [BitVec.toNat_add, height]
    omega
  rw [roundProduct]
  simp only [htop, hmax]
  by_cases hup : 2 ^ 24 ≤ v.toNat ∧ (n.neg != m.neg) = false
  · rw [if_pos hup, if_pos hup, if_neg, hround]
    rw [hround]
    omega
  · rw [if_neg hup, if_neg hup]
    have hsame : (v.toNat = 2 ^ 24 - 1 ∧ (n.neg != m.neg) = true ∧ exponent n m ≠ 1 ∧ odd n m = true ∧ exponent n m ≠ 0x41 ∧
        exponent n m ≠ 0x81) ↔ v.toNat = 2 ^ 24 - 1 ∧ RoundedUp n m :=
      ⟨fun ⟨hv, hsign, hone, hodd, hrest⟩ ↦ ⟨hv, hsign, hodd, hone, hrest⟩,
        fun ⟨hv, hsign, hodd, hone, hrest⟩ ↦ ⟨hv, hsign, hone, hodd, hrest⟩⟩
    simp only [hsame]
    split_ifs with h
    · rw [BitVec.toNat_add, hone, h.1]
      norm_num
    · rfl

/-- The bounds of a product of mantissas. -/
lemma product_bounds {f : ℕ} (n m : Number f) : 2 ^ (f - 4) * 2 ^ (f - 4) ≤ n.frac * m.frac ∧
    n.frac * m.frac ≤ (2 ^ f - 1) * (2 ^ f - 1) :=
  ⟨Nat.mul_le_mul n.frac_ge m.frac_ge, Nat.mul_le_mul (Nat.le_pred_of_lt n.frac_lt) (Nat.le_pred_of_lt m.frac_lt)⟩

/-- **The product of two words** is delivered, when it is not rounded up from the greatest mantissa. -/
theorem mpfwNormal_iff (n m : Number 24) (hrange : InRange 24 (n.value * m.value)) :
    Delivered 24 (n.value * m.value) (mpfwNormal n.word m.word) ↔
      ¬ (RoundedUp n m ∧ n.frac * m.frac = (2 ^ 24 - 1) * 2 ^ 20) := by
  obtain ⟨v, hv, hrun⟩ := mpfwNormal_word n m
  obtain ⟨hlow, hhigh⟩ := product_bounds n m
  have hx := value_mul n m
  have hunit : unit 24 (exponent n m) = 16 * unit 24 (exponent n m - 1) := by
    rw [← zpow_one (16 : ℚ), ← unit_add, sub_add_cancel]
  generalize hp : n.frac * m.frac = p at *
  have hround := roundProduct_spec n m (v := v) (by omega)
  have hfloor : v.toNat * 2 ^ 20 ≤ p ∧ p < (v.toNat + 1) * 2 ^ 20 := by omega
  have hz : (v.toNat : ℚ) ≤ p / 2 ^ 20 ∧ (p : ℚ) / 2 ^ 20 < v.toNat + 1 := by
    rw [le_div_iff₀ (by norm_num), div_lt_iff₀ (by norm_num)]
    exact_mod_cast hfloor
  have hleast : (2 : ℚ) ^ 20 ≤ v.toNat := by
    exact_mod_cast (by omega : 2 ^ 20 ≤ v.toNat)
  have hx' : n.value * m.value = (if n.neg != m.neg then -1 else 1) * ((p : ℚ) / 2 ^ 20 * unit 24 (exponent n m - 1)) := by
    rw [hx, hunit]
    ring
  have hpos : (0 : ℚ) < p / 2 ^ 20 := by linarith
  rw [hrun]
  generalize roundProduct (n.neg != m.neg) (odd n m) (exponent n m) v = w at *
  generalize n.value * m.value = x at *
  have hw : 2 ^ 20 ≤ w.toNat ∧ w.toNat < 2 ^ 28 := by
    rw [hround]
    split_ifs <;> lia
  obtain ⟨r, j, i, hfinish, hr, hdropped⟩ := finishw_spec (n.neg != m.neg) (exponent n m) hw.1 hw.2
  have hmax : (p : ℚ) / 2 ^ 20 = (2 ^ 24 - 1 : ℕ) ↔ p = (2 ^ 24 - 1) * 2 ^ 20 := by
    rw [div_eq_iff (by norm_num)]
    norm_cast
  rw [hfinish]
  by_cases hup : v.toNat = 2 ^ 24 - 1 ∧ RoundedUp n m
  · have hw' : w.toNat = 2 ^ 24 := by
      rw [hround, if_neg (fun hand ↦ by omega), if_pos hup]
    rw [hup.1] at hz
    by_cases hexact : p = (2 ^ 24 - 1) * 2 ^ 20
    · -- the greatest mantissa is exact, and it is rounded up
      refine iff_of_false (fun hdelivered ↦ ?_) (not_not.mpr ⟨hup.2, hexact⟩)
      rw [product_delivered_iff hpos hx' hr hdropped.low hdropped.high] at hdelivered
      have hsame := hdelivered.2.2 (representable_of_mantissa (w := 2 ^ 24 - 1) (q := 0) (by norm_num) (by norm_num)
        (by norm_num) (by rw [hmax.mpr hexact, zpow_zero, mul_one]) hx' hrange)
      rw [hmax.mpr hexact] at hsame
      have hparts := hdropped.parts
      rw [hw'] at hparts
      obtain ⟨-, -, hcarry⟩ | ⟨rfl, rfl, -, -⟩ | ⟨hlt, -⟩ := hparts
      · norm_num at hcarry
      · norm_num at hsame
      · exact absurd hlt (lt_irrefl _)
    · refine iff_of_true (product_near (hdropped.near (by norm_num) ?_ ?_ (.inr ?_) fun hlt ↦ ?_) (by norm_num) hpos hx' hrange hr)
        fun hand ↦ hexact hand.2
      · rw [hw']
        push_cast at hz ⊢
        linarith
      · rw [hw']
        push_cast at hz ⊢
        linarith
      · rw [hw']
        have hlt := lt_of_le_of_ne hz.1 fun heq ↦ hexact (hmax.mp heq.symm)
        push_cast at hlt ⊢
        linarith
      · rw [hw'] at hlt
        exact absurd hlt (lt_irrefl _)
  · -- eight is added to the guard digit at most
    have hsame : w.toNat = v.toNat ∨ w.toNat = v.toNat + 8 ∧ 2 ^ 24 ≤ v.toNat := by
      rw [hround, if_neg hup]
      split_ifs with h
      · exact .inr ⟨rfl, h.1⟩
      · exact .inl rfl
    refine iff_of_true (product_near ?_ (by norm_num) hpos hx' hrange hr) fun hand ↦ hup ⟨by omega, hand.1⟩
    rcases hsame with heq | ⟨heq, hlarge⟩
    · have hcast : (w.toNat : ℚ) = v.toNat := by exact_mod_cast heq
      refine hdropped.near (by norm_num) (by linarith) (by linarith) (.inr (by linarith)) fun _ ↦ .inr ⟨hw.1, ?_, by linarith⟩
      exact hleast.trans hz.1
    · have hcast : (w.toNat : ℚ) = v.toNat + 8 := by exact_mod_cast heq
      have hcast' : (2 : ℚ) ^ 24 ≤ v.toNat := by exact_mod_cast hlarge
      exact hdropped.near (by norm_num) (by linarith) (by linarith) (.inl (by linarith)) fun hlt ↦ by lia

/-! ### Double words -/

/-- A turn of the normalization. -/
lemma noDigit_turn {v : Dword} (hpos : 0 < v.toNat) (hlt : v.toNat < 2 ^ 56) : noDigit 56 v = true ∧ (v <<< 4).toNat = 16 * v.toNat := by
  have hzero : (0 : Dword).toNat = 0 := rfl
  refine ⟨(noDigit_iff (by norm_num) (by omega)).mpr ⟨fun h0 ↦ ?_, hlt⟩, ?_⟩
  · rw [h0, hzero] at hpos
    omega
  · rw [BitVec.toNat_shiftLeft, Nat.shiftLeft_eq]
    omega

/-- The normalization has ended. -/
lemma noDigit_end {v : Dword} (hlow : 2 ^ 56 ≤ v.toNat) (hhigh : v.toNat < 2 ^ 60) : noDigit 56 v = false := by
  rw [← Bool.not_eq_true, noDigit_iff (by norm_num) hhigh]
  omega

/-- The greatest product that needs two turns. -/
lemma shifted_max (v : Dword) : v <<< 4 = 0x00fffffffffffff0 ↔ (v <<< 4).toNat = 2 ^ 56 - 16 := BitVec.toNat_inj.symm

section Normalize

variable {sign lsb : Bool} {er : ℤ} {v : Dword}

lemma normalizeProduct_end (hlow : 2 ^ 56 ≤ v.toNat) (hhigh : v.toNat < 2 ^ 60) (k : ℕ) :
    normalizeProduct sign lsb k er v = (er, v) := by
  cases k with
  | zero => rfl
  | succ k => rw [normalizeProduct, noDigit_end hlow hhigh, if_neg Bool.false_ne_true]

lemma normalizeProduct_turn (hpos : 0 < v.toNat) (hlt : v.toNat < 2 ^ 56) (hno : ¬ (v.toNat = 2 ^ 52 - 1 ∧ sign = true)) (k : ℕ) :
    normalizeProduct sign lsb (k + 1) er v = normalizeProduct sign lsb k (er - 1) (v <<< 4) := by
  obtain ⟨hgo, hshift⟩ := noDigit_turn hpos hlt
  have hother : ¬ (v <<< 4 = 0x00fffffffffffff0 ∧ sign = true) := fun ⟨hmax, hsign⟩ ↦ hno ⟨by
    have := (shifted_max v).mp hmax
    omega, hsign⟩
  rw [normalizeProduct, if_pos hgo, if_neg hother]

/-- The exponent is counted down once too often. -/
lemma normalizeProduct_max (hmax : v.toNat = 2 ^ 52 - 1) (hsign : sign = true) (heven : lsb = false) (k : ℕ) :
    normalizeProduct sign lsb (k + 1) er v = normalizeProduct sign lsb k (er - 2) (v <<< 4) := by
  obtain ⟨hgo, hshift⟩ := noDigit_turn (v := v) (by omega) (by omega)
  rw [normalizeProduct, if_pos hgo, if_pos ⟨(shifted_max v).mpr (by omega), hsign⟩, if_pos heven,
    show er - 1 - 1 = er - 2 by ring]

/-- A product of double words without a carry. -/
lemma finishd_align (hpos : 0 < v.toNat) (hlt : v.toNat < 2 ^ 56) {k : ℤ} {r : Dword}
    (h : normalizeProduct sign lsb 16 er v = (k, r)) : finishd sign lsb er v = product 56 sign k r := by
  have hzero : (0 : Dword).toNat = 0 := rfl
  have hne : v ≠ 0 := fun h0 ↦ by
    rw [h0, hzero] at hpos
    omega
  have hcarry : v &&& exMask 56 = 0 := by
    rw [← BitVec.toNat_inj, toNat_and_exMask, Nat.div_eq_of_lt hlt]
    rfl
  rw [finishd, if_neg (not_not.mpr hcarry), alignd, if_neg hne, h]

/-- **The turns of the normalization**: one for a product with a first digit, and two for others. -/
theorem finishd_spec (hlow : 2 ^ 48 ≤ v.toNat) (hhigh : v.toNat < 2 ^ 56) :
    (2 ^ 52 ≤ v.toNat → ∃ r, finishd sign lsb er v = product 56 sign (er - 1) r ∧ r.toNat / 16 = v.toNat) ∧
    (v.toNat < 2 ^ 52 → ¬ (v.toNat = 2 ^ 52 - 1 ∧ sign = true) →
      ∃ r, finishd sign lsb er v = product 56 sign (er - 2) r ∧ r.toNat / 16 = 16 * v.toNat) ∧
    (v.toNat = 2 ^ 52 - 1 → sign = true → lsb = false →
      ∃ r, finishd sign lsb er v = product 56 sign (er - 3) r ∧ r.toNat / 16 = 16 * v.toNat) := by
  obtain ⟨-, hshift⟩ := noDigit_turn (v := v) (by omega) hhigh
  refine ⟨fun hlarge ↦ ⟨v <<< 4, finishd_align (by omega) hhigh ?_, by omega⟩, fun hsmall hno ↦ ?_, fun hmax hsign heven ↦ ?_⟩
  · rw [normalizeProduct_turn (by omega) hhigh (fun hand ↦ by omega), normalizeProduct_end (by lia) (by omega)]
  · obtain ⟨-, hshift'⟩ := noDigit_turn (v := v <<< 4) (by lia) (by omega)
    refine ⟨v <<< 4 <<< 4, finishd_align (by omega) hhigh ?_, by omega⟩
    rw [normalizeProduct_turn (by omega) hhigh hno, normalizeProduct_turn (by lia) (by omega) (fun hand ↦ by omega),
      normalizeProduct_end (by lia) (by lia), show er - 1 - 1 = er - 2 by ring]
  · obtain ⟨-, hshift'⟩ := noDigit_turn (v := v <<< 4) (by omega) (by omega)
    refine ⟨v <<< 4 <<< 4, finishd_align (by omega) hhigh ?_, by lia⟩
    rw [normalizeProduct_max hmax hsign heven, normalizeProduct_turn (by omega) (by omega) (fun hand ↦ by omega),
      normalizeProduct_end (by omega) (by omega), show er - 2 - 1 = er - 3 by ring]

end Normalize

/-- The product of two numbers. -/
lemma mpfdNormal_word (n m : Number 56) : ∃ v : Dword, v.toNat = n.frac * m.frac / 2 ^ 56 ∧
    mpfdNormal n.word m.word =
      let r := boundaryProduct (n.neg != m.neg) (odd n m) (exponent n m + 1) v
      finishd (n.neg != m.neg) (odd n m) r.1 r.2 := by
  refine ⟨((mulTurn (m.abs &&& mantMask 56))^[56] (n.abs &&& mantMask 56, 0)).2, ?_, ?_⟩
  · have hlt := n.frac_lt
    have hlt' := m.frac_lt
    rw [mulLoop_spec (by norm_num) (by rw [m.frac_abs]; omega) (by rw [n.frac_abs]; omega), n.frac_abs, m.frac_abs]
  · rw [mpfdNormal, isNegi_word, isNegi_word, exponentSum_word, eitherOdd_word (by norm_num), absi_word, absi_word]

/-- The products of double words that are delivered: a product with a first digit, unless it is negative and its lower half
is zero; another one when the first digit of its lower half is zero; and the negative one that is all ones but for its lower half. -/
def GoodProduct (n m : Number 56) : Prop :=
  let p := n.frac * m.frac
  let neg := n.neg != m.neg
  if 2 ^ 108 ≤ p then ¬ (neg = true ∧ p % 2 ^ 56 = 0)
  else if neg = true ∧ 2 ^ 108 ≤ p + 2 ^ 56 then
    if odd n m then p % 2 ^ 52 ≠ 0 ∧ exponent n m ≠ 0x80
    else (exponent n m = 0x40 ∨ exponent n m = 0x80) ∧ p % 2 ^ 56 < 2 ^ 52
  else p % 2 ^ 56 < 2 ^ 52

instance (n m : Number 56) : Decidable (GoodProduct n m) := inferInstanceAs (Decidable (ite _ _ _))

section Mantissas

variable {x z : ℚ} {e : ℤ} {v q : ℕ} {sign : Bool} {r : Dword}

/-- A product with a first digit. -/
lemma first_iff (hz : z = v + q / 2 ^ 56) (hq : q < 2 ^ 56) (hx : x = (if sign then -1 else 1) * (z * unit 56 e))
    (hrange : InRange 56 x) (hlow : 2 ^ 52 ≤ v) (hhigh : v + 1 < 2 ^ 56) (hr : r.toNat / 16 = if sign then v + 1 else v) :
    Delivered 56 x (product 56 sign e r) ↔ ¬ (sign = true ∧ q = 0) := by
  have hv : (2 : ℚ) ^ 52 ≤ v := by exact_mod_cast hlow
  have hq0 : (0 : ℚ) ≤ q / 2 ^ 56 := by positivity
  have hq1 : (q : ℚ) / 2 ^ 56 < 1 := by
    rw [div_lt_one (by norm_num)]
    exact_mod_cast hq
  have hpos : 0 < z := by linarith
  have hnear {m : ℕ} (hm : 2 ^ 52 ≤ m) (hm' : m < 2 ^ 56) (h : |(m : ℚ) - z| < 1) (hr : r.toNat / 16 = m) :
      Delivered 56 x (product 56 sign e r) := by
    have hnear : Near 56 z 0 m := ⟨hm, hm', by rwa [zpow_zero, mul_one], fun hbelow ↦ by
      exfalso
      norm_num at hbelow
      linarith⟩
    have hdelivered := product_near hnear (by norm_num) hpos hx hrange hr
    rwa [add_zero] at hdelivered
  cases sign with
  | false =>
      rw [if_neg Bool.false_ne_true] at hr
      refine iff_of_true (hnear hlow (by omega) ?_ hr) fun hand ↦ Bool.false_ne_true hand.1
      rw [abs_lt]
      constructor <;> linarith
  | true =>
      rw [if_pos rfl] at hr
      by_cases hzero : q = 0
      · refine iff_of_false (fun hdelivered ↦ ?_) (not_not.mpr ⟨rfl, hzero⟩)
        have hzv : z = v := by rw [hz, hzero, Nat.cast_zero, zero_div, add_zero]
        rw [← add_zero e, product_delivered_iff hpos hx hr (by omega) hhigh] at hdelivered
        have hsame := hdelivered.2.2 (representable_of_mantissa (w := v) (q := 0) (by norm_num) hlow (by omega)
          (by rw [hzv, zpow_zero, mul_one]) hx hrange)
        rw [hzv, zpow_zero, mul_one] at hsame
        norm_num at hsame
      · refine iff_of_true (hnear (by omega) hhigh ?_ hr) fun hand ↦ hzero hand.2
        have hsome : (0 : ℚ) < q / 2 ^ 56 := by
          have hcast : (0 : ℚ) < q := by exact_mod_cast Nat.pos_of_ne_zero hzero
          positivity
        push_cast
        rw [abs_lt]
        constructor <;> linarith

/-- A product without one: its last digit is zero. -/
lemma second_iff (hz : z = v + q / 2 ^ 56) (hx : x = (if sign then -1 else 1) * (z * unit 56 e))
    (hrange : InRange 56 x) (hlow : 2 ^ 48 ≤ v) (hhigh : v < 2 ^ 52) (hr : r.toNat / 16 = 16 * v) :
    Delivered 56 x (product 56 sign (e - 1) r) ↔ q < 2 ^ 52 := by
  have hv : (2 : ℚ) ^ 48 ≤ v := by exact_mod_cast hlow
  have hq0 : (0 : ℚ) ≤ q / 2 ^ 56 := by positivity
  have hpos : 0 < z := by linarith
  have hunit : ((16 * v : ℕ) : ℚ) * 16 ^ (-1 : ℤ) = v := by
    push_cast
    norm_num
    ring
  rw [sub_eq_add_neg]
  constructor
  · intro hdelivered
    rw [product_delivered_iff hpos hx hr (by omega) (by omega), hunit] at hdelivered
    obtain ⟨-, hle, hexact⟩ := hdelivered
    have hsmall : (q : ℚ) / 2 ^ 56 ≤ 1 / 16 := by
      have := (abs_le.mp hle).1
      norm_num at this ⊢
      linarith
    rw [div_le_iff₀ (by norm_num)] at hsmall
    have hsmall' : q ≤ 2 ^ 52 := by
      have hcast : (q : ℚ) ≤ 2 ^ 52 := by linarith
      exact_mod_cast hcast
    refine lt_of_le_of_ne hsmall' fun heq ↦ ?_
    -- the digit that is lost is one: the product is a number
    have hzw : z = (16 * v + 1 : ℕ) * 16 ^ (-1 : ℤ) := by
      rw [hz, heq]
      push_cast
      norm_num
      ring
    have hsame := hexact (representable_of_mantissa (by norm_num) (by omega) (by omega) hzw hx hrange)
    rw [hz, heq] at hsame
    norm_num at hsame
  · intro hsmall
    have hsmall' : (q : ℚ) / 2 ^ 56 < 1 / 16 := by
      rw [div_lt_iff₀ (by norm_num)]
      have hcast : (q : ℚ) < 2 ^ 52 := by exact_mod_cast hsmall
      linarith
    refine product_near ⟨by omega, by omega, ?_, fun hbelow ↦ ?_⟩ (by norm_num) hpos hx hrange hr
    · rw [hunit, abs_lt]
      constructor <;> norm_num <;> linarith
    · norm_num at hbelow
      linarith

/-- A product without a first digit is a number when its mantissa has no more than one further digit. -/
lemma representable_iff (hz : z = v + q / 2 ^ 56) (hq : q < 2 ^ 56) (hx : x = (if sign then -1 else 1) * (z * unit 56 e))
    (hrange : InRange 56 x) (hlow : 2 ^ 48 ≤ v) (hhigh : v < 2 ^ 52) : Representable 56 x ↔ q % 2 ^ 52 = 0 := by
  have hv : (2 : ℚ) ^ 48 ≤ v := by exact_mod_cast hlow
  have hv' : (v : ℚ) + 1 ≤ 2 ^ 52 := by exact_mod_cast hhigh
  have hq0 : (0 : ℚ) ≤ q / 2 ^ 56 := by positivity
  have hq1 : (q : ℚ) / 2 ^ 56 < 1 := by
    rw [div_lt_one (by norm_num)]
    exact_mod_cast hq
  have hpos : 0 < z := by linarith
  constructor
  · intro hrep
    obtain ⟨k, p, hzp⟩ := hrep.mantissa hpos hx
    have hp : (2 : ℚ) ^ 52 ≤ p.frac := by exact_mod_cast p.frac_ge
    have hp' : (p.frac : ℚ) < 2 ^ 56 := by exact_mod_cast p.frac_lt
    obtain hk | rfl | hk : 0 ≤ k ∨ k = -1 ∨ k ≤ -2 := by omega
    · have hone : (1 : ℚ) ≤ 16 ^ k := one_le_zpow₀ (by norm_num) hk
      have hle : (2 : ℚ) ^ 52 * 1 ≤ p.frac * 16 ^ k := mul_le_mul hp hone (by norm_num) (by linarith)
      linarith
    · have hint : 16 * 2 ^ 52 * v + q = p.frac * 2 ^ 52 := by
        have hcast : (16 * 2 ^ 52 * v + q : ℚ) = p.frac * 2 ^ 52 := by
          rw [hz] at hzp
          norm_num at hzp ⊢
          linarith
        exact_mod_cast hcast
      omega
    · have hsmall : (16 : ℚ) ^ k ≤ 16 ^ (-2 : ℤ) := zpow_le_zpow_right₀ (by norm_num) hk
      have hle : p.frac * (16 : ℚ) ^ k ≤ p.frac * 16 ^ (-2 : ℤ) := mul_le_mul_of_nonneg_left hsmall (by linarith)
      norm_num at hle
      linarith
  · intro hmod
    obtain ⟨d, rfl⟩ := Nat.dvd_of_mod_eq_zero hmod
    refine representable_of_mantissa (w := 16 * v + d) (q := -1) (by norm_num) (by lia) (by omega) ?_ hx hrange
    rw [hz]
    push_cast
    norm_num
    ring

/-- The exponent of a product without a first digit. -/
lemma exponent_range (hz : z = v + q / 2 ^ 56) (hq : q < 2 ^ 56) (hx : x = (if sign then -1 else 1) * (z * unit 56 e))
    (hrange : InRange 56 x) (hlow : 2 ^ 48 < v) (hhigh : v < 2 ^ 52) : 0 < e ∧ e ≤ 128 := by
  have hv : (2 : ℚ) ^ 48 + 1 ≤ v := by exact_mod_cast hlow
  have hv' : (v : ℚ) + 1 ≤ 2 ^ 52 := by exact_mod_cast hhigh
  have hq0 : (0 : ℚ) ≤ q / 2 ^ 56 := by positivity
  have hq1 : (q : ℚ) / 2 ^ 56 < 1 := by
    rw [div_lt_one (by norm_num)]
    exact_mod_cast hq
  have he := unit_pos 56 e
  have hpos : 0 < z * unit 56 e := mul_pos (by linarith) he
  have habs : |x| = z * unit 56 e := by
    rw [hx, abs_mul, abs_of_pos hpos]
    cases sign <;> simp
  have hne : x ≠ 0 := fun h0 ↦ by
    rw [h0, abs_zero] at habs
    linarith
  obtain ⟨hleast, hgreat⟩ := hrange.resolve_left hne
  rw [habs] at hleast hgreat
  constructor
  · by_contra hneg
    have hmono : unit 56 e ≤ unit 56 0 := unit_mono 56 (by omega)
    have hzero : (2 : ℚ) ^ 52 * unit 56 0 = 16 ^ (-65 : ℤ) := by norm_num [unit]
    have hlt : z * unit 56 e < 2 ^ 52 * unit 56 0 := mul_lt_mul_of_lt_of_le_of_nonneg_of_pos (by linarith) hmono (by linarith)
      (unit_pos 56 0)
    linarith
  · by_contra hbig
    have hmono : unit 56 129 ≤ unit 56 e := unit_mono 56 (by omega)
    have htop : unit 56 129 = 256 * unit 56 127 := by
      rw [show (129 : ℤ) = 127 + 2 by norm_num, unit_add]
      norm_num
    have hunit := unit_pos 56 127
    have hle : (2 ^ 48 + 1) * unit 56 129 ≤ z * unit 56 e := mul_le_mul (by linarith) hmono (unit_pos 56 129).le (by linarith)
    rw [htop] at hle
    norm_num at hle hgreat
    linarith

/-- A negative product of ones that is made the next power of two. -/
lemma ones_odd_iff (hz : z = v + q / 2 ^ 56) (hq : q < 2 ^ 56) (hx : x = (if sign then -1 else 1) * (z * unit 56 e))
    (hrange : InRange 56 x) (hv : v = 2 ^ 52 - 1) (hr : r.toNat / 16 = 2 ^ 52) :
    Delivered 56 x (product 56 sign e r) ↔ q % 2 ^ 52 ≠ 0 ∧ e ≠ 0x80 := by
  have hvalue : (v : ℚ) = 2 ^ 52 - 1 := by
    rw [hv]
    norm_num
  have hq0 : (0 : ℚ) ≤ q / 2 ^ 56 := by positivity
  have hq1 : (q : ℚ) / 2 ^ 56 < 1 := by
    rw [div_lt_one (by norm_num)]
    exact_mod_cast hq
  have hpos : 0 < z := by
    rw [hz, hvalue]
    norm_num
    linarith
  obtain ⟨hlow, hhigh⟩ := exponent_range hz hq hx hrange (by omega) (by omega)
  have hrep := representable_iff hz hq hx hrange (by omega) (by omega)
  have hdelivered := product_delivered_iff (j := 0) hpos hx hr (by norm_num) (by norm_num)
  rw [add_zero] at hdelivered
  rw [hdelivered, hrep, zpow_zero, mul_one]
  constructor
  · rintro ⟨hexp, -, hexact⟩
    refine ⟨fun hmod ↦ ?_, by omega⟩
    have hsame := hexact hmod
    rw [hz, hvalue] at hsame
    norm_num at hsame
    linarith
  · rintro ⟨hmod, hexp⟩
    refine ⟨by omega, ?_, fun hand ↦ absurd hand hmod⟩
    rw [hz, hvalue, abs_le]
    constructor <;> norm_num <;> linarith

/-- A negative product of ones whose exponent is counted down too often. -/
lemma ones_even_not (hz : z = v + q / 2 ^ 56) (hx : x = (if sign then -1 else 1) * (z * unit 56 e))
    (hv : v = 2 ^ 52 - 1) (hr : r.toNat / 16 = 16 * v) : ¬ Delivered 56 x (product 56 sign (e - 2) r) := by
  have hvalue : (v : ℚ) = 2 ^ 52 - 1 := by
    rw [hv]
    norm_num
  have hq0 : (0 : ℚ) ≤ q / 2 ^ 56 := by positivity
  have hpos : 0 < z := by
    rw [hz, hvalue]
    norm_num
    linarith
  rw [sub_eq_add_neg, product_delivered_iff hpos hx hr (by omega) (by omega)]
  rintro ⟨-, hle, -⟩
  have hfar := (abs_le.mp hle).1
  rw [hz] at hfar
  push_cast at hfar
  rw [hvalue] at hfar
  norm_num at hfar
  linarith

end Mantissas

/-- The boundary conditions on the product of two numbers. -/
lemma boundaryProduct_spec {sign lsb : Bool} {er : ℤ} {v : Dword} (hv : v.toNat + 1 < 2 ^ 56) :
    (2 ^ 52 ≤ v.toNat → (boundaryProduct sign lsb er v).1 = er ∧
      (boundaryProduct sign lsb er v).2.toNat = if sign then v.toNat + 1 else v.toNat) ∧
    (v.toNat < 2 ^ 52 → ¬ (v.toNat = 2 ^ 52 - 1 ∧ sign = true) → boundaryProduct sign lsb er v = (er, v)) ∧
    (v.toNat = 2 ^ 52 - 1 → sign = true → er ≠ 1 → lsb = true → (boundaryProduct sign lsb er v).1 = er ∧
      (boundaryProduct sign lsb er v).2.toNat = 2 ^ 52) ∧
    (v.toNat = 2 ^ 52 - 1 → sign = true → er ≠ 1 → lsb = false →
      boundaryProduct sign lsb er v = (if er = 0x41 ∨ er = 0x81 then er + 1 else er, v)) := by
  have hone : (1 : Dword).toNat = 1 := rfl
  have htop : (0x0010000000000000 : Dword) ≤ v ↔ 2 ^ 52 ≤ v.toNat := BitVec.le_def
  have hmax : v = 0x000fffffffffffff ↔ v.toNat = 2 ^ 52 - 1 := BitVec.toNat_inj.symm
  have hup : (v + 1).toNat = v.toNat + 1 := by
    rw [BitVec.toNat_add, hone]
    omega
  rw [boundaryProduct]
  simp only [htop, hmax]
  refine ⟨fun hlarge ↦ ?_, fun hsmall hno ↦ ?_, fun hones hsign her hodd ↦ ?_, fun hones hsign her heven ↦ ?_⟩
  · cases sign with
    | false => simp
    | true =>
        rw [if_pos ⟨hlarge, rfl⟩]
        exact ⟨rfl, hup⟩
  · rw [if_neg fun hand ↦ by omega, if_neg fun hand ↦ hno ⟨hand.1, hand.2.1⟩]
  · rw [if_neg fun hand ↦ by omega, if_pos ⟨hones, hsign, her⟩, if_neg (by rw [hodd]; exact Bool.noConfusion)]
    exact ⟨rfl, by rw [hup]; omega⟩
  · rw [if_neg fun hand ↦ by omega, if_pos ⟨hones, hsign, her⟩, if_pos heven]

/-- **The product of two double words** is delivered, when it is a good one. -/
theorem mpfdNormal_iff (n m : Number 56) (hrange : InRange 56 (n.value * m.value)) :
    Delivered 56 (n.value * m.value) (mpfdNormal n.word m.word) ↔ GoodProduct n m := by
  obtain ⟨v, hv, hrun⟩ := mpfdNormal_word n m
  obtain ⟨hlow, hhigh⟩ := product_bounds n m
  have hx := value_mul n m
  rw [hrun, GoodProduct]
  dsimp only
  generalize hp : n.frac * m.frac = p at *
  have hq : p % 2 ^ 56 < 2 ^ 56 := Nat.mod_lt _ (by norm_num)
  have hz : ((p : ℕ) : ℚ) / 2 ^ 56 = v.toNat + (p % 2 ^ 56 : ℕ) / 2 ^ 56 := by
    have hsum : 2 ^ 56 * v.toNat + p % 2 ^ 56 = p := by
      rw [hv]
      exact Nat.div_add_mod p _
    have hcast : (2 ^ 56 * v.toNat + (p % 2 ^ 56 : ℕ) : ℚ) = p := by exact_mod_cast hsum
    rw [← hcast]
    ring
  have hlarge : 2 ^ 108 ≤ p ↔ 2 ^ 52 ≤ v.toNat := by omega
  have hones : 2 ^ 108 ≤ p + 2 ^ 56 ↔ 2 ^ 52 - 1 ≤ v.toNat := by omega
  have hdigit : p % 2 ^ 56 % 2 ^ 52 = p % 2 ^ 52 := by lia
  have hbelow : 2 ^ 48 ≤ v.toNat ∧ v.toNat + 1 < 2 ^ 56 := by omega
  simp only [hlarge, hones]
  generalize (p : ℚ) / 2 ^ 56 = z at *
  generalize hsign : (n.neg != m.neg) = sign at *
  generalize odd n m = lsb at *
  generalize exponent n m = e at *
  generalize n.value * m.value = x at *
  obtain ⟨hfirst, hsecond, hodd, heven⟩ := @boundaryProduct_spec sign lsb (e + 1) _ hbelow.2
  by_cases hl : 2 ^ 52 ≤ v.toNat
  · -- a first digit
    obtain ⟨he, hr⟩ := hfirst hl
    rw [if_pos hl, he]
    generalize (boundaryProduct sign lsb (e + 1) v).2 = w at *
    have hw : 2 ^ 52 ≤ w.toNat ∧ w.toNat < 2 ^ 56 := by
      rw [hr]
      split_ifs <;> lia
    obtain ⟨r, hfinish, hmantissa⟩ := (@finishd_spec sign lsb (e + 1) _ (by lia) hw.2).1 hw.1
    rw [hfinish, add_sub_cancel_right]
    exact first_iff hz hq hx hrange hl hbelow.2 (hmantissa.trans hr)
  rw [if_neg hl]
  by_cases hmax : v.toNat = 2 ^ 52 - 1 ∧ sign = true
  · obtain ⟨hmax, rfl⟩ := hmax
    rw [if_pos ⟨rfl, hmax.ge⟩]
    obtain ⟨he, -⟩ := exponent_range hz hq hx hrange (by omega) (by omega)
    cases lsb with
    | true =>
        obtain ⟨he', hr⟩ := hodd hmax rfl (by omega) rfl
        rw [if_pos rfl, he', ← hdigit]
        generalize (boundaryProduct true true (e + 1) v).2 = w at *
        obtain ⟨r, hfinish, hmantissa⟩ :=
          (@finishd_spec true true (e + 1) w (by omega) (by omega)).1 (by omega)
        rw [hfinish, add_sub_cancel_right]
        exact ones_odd_iff hz hq hx hrange hmax (hmantissa.trans hr)
    | false =>
        rw [heven hmax rfl (by omega) rfl, if_neg Bool.false_ne_true]
        dsimp only
        have hturns (er : ℤ) := (@finishd_spec true false er _ hbelow.1 (by omega)).2.2 hmax rfl rfl
        by_cases hspecial : e + 1 = 0x41 ∨ e + 1 = 0x81
        · obtain ⟨r, hfinish, hmantissa⟩ := hturns (e + 1 + 1)
          rw [if_pos hspecial, hfinish, show e + 1 + 1 - 3 = e - 1 by ring, and_iff_right (by lia)]
          exact second_iff hz hx hrange hbelow.1 (by omega) hmantissa
        · obtain ⟨r, hfinish, hmantissa⟩ := hturns (e + 1)
          rw [if_neg hspecial, hfinish, show e + 1 - 3 = e - 2 by ring]
          refine iff_of_false (ones_even_not hz hx hmax hmantissa) fun hand ↦ hspecial ?_
          lia
  · rw [if_neg fun hand ↦ hmax ⟨by lia, hand.1⟩, hsecond (by lia) hmax]
    dsimp only
    obtain ⟨r, hfinish, hmantissa⟩ := (@finishd_spec sign lsb (e + 1) _ hbelow.1 (by omega)).2.1
      (by lia) hmax
    rw [hfinish, show e + 1 - 2 = e - 1 by ring]
    exact second_iff hz hx hrange hbelow.1 (by lia) hmantissa

/-! ### All operands -/

section Operands

variable {f : ℕ} {normal : BitVec (f + 8) → BitVec (f + 8) → BitVec (f + 8) × BitVec 32}

lemma multiply_number (hf : 4 ≤ f) (n m : Number f) : multiply normal n.word m.word = normal n.word m.word := by
  rw [multiply, normf_number hf, normf_number hf]
  dsimp only
  rw [if_neg (not_not.mpr n.cc_sound), if_neg (not_not.mpr m.cc_sound),
    if_neg (not_or.mpr ⟨n.word_ne_zero, m.word_ne_zero⟩)]

lemma multiply_zero (hf : 4 ≤ f) (x : Operand f) : multiply normal x.word 0 = (0, cc4Bit) := by
  have hcc : cc4Bit &&& cc1Bit = 0 := by decide
  cases x with
  | none =>
      show multiply normal 0 0 = _
      rw [multiply, normf_null]
      dsimp only
      rw [if_neg (not_not.mpr hcc), if_neg (not_not.mpr hcc), if_pos (.inl rfl)]
  | some n =>
      show multiply normal n.word 0 = _
      rw [multiply, normf_number hf, normf_null]
      dsimp only
      rw [if_neg (not_not.mpr n.cc_sound), if_neg (not_not.mpr hcc), if_pos (.inr rfl)]

lemma zero_multiply (hf : 4 ≤ f) (n : Number f) : multiply normal 0 n.word = (0, cc4Bit) := by
  have hcc : cc4Bit &&& cc1Bit = 0 := by decide
  rw [multiply, normf_null, normf_number hf]
  dsimp only
  rw [if_neg (not_not.mpr hcc), if_neg (not_not.mpr n.cc_sound), if_pos (.inl rfl)]

/-- **A multiplication is commutative** when it is for numbers. -/
theorem multiply_symm (hf : 4 ≤ f) (h : ∀ n m : Number f, normal n.word m.word = normal m.word n.word) (x y : Operand f) :
    multiply normal x.word y.word = multiply normal y.word x.word := by
  cases x with
  | none =>
      cases y with
      | none => rfl
      | some m => exact (zero_multiply hf m).trans (multiply_zero hf (some m)).symm
  | some n =>
      cases y with
      | none => exact (multiply_zero hf (some n)).trans (zero_multiply hf n).symm
      | some m =>
          show multiply normal n.word m.word = multiply normal m.word n.word
          rw [multiply_number hf, multiply_number hf, h]

/-- **A product is delivered**, when that of two numbers is. -/
theorem multiply_delivered (hf : 4 ≤ f) {good : Number f → Number f → Prop} (x y : Operand f)
    (h : ∀ n m, x = some n → y = some m → (Delivered f (n.value * m.value) (normal n.word m.word) ↔ good n m)) :
    Delivered f (x.value * y.value) (multiply normal x.word y.word) ↔ ∀ n m, x = some n → y = some m → good n m := by
  cases x with
  | none =>
      refine iff_of_true (.inl ⟨zero_mul _, ?_⟩) fun n m hn ↦ absurd hn (Option.some_ne_none n).symm
      cases y with
      | none => exact multiply_zero hf none
      | some m => exact zero_multiply hf m
  | some n =>
      cases y with
      | none => exact iff_of_true (.inl ⟨mul_zero _, multiply_zero hf (some n)⟩) fun n m _ hm ↦ absurd hm (Option.some_ne_none m).symm
      | some m =>
          show Delivered f (n.value * m.value) (multiply normal n.word m.word) ↔ _
          rw [multiply_number hf, h n m rfl rfl]
          refine ⟨fun hgood n' m' hn hm ↦ ?_, fun hgood ↦ hgood n m rfl rfl⟩
          obtain rfl := Option.some_inj.mp hn
          obtain rfl := Option.some_inj.mp hm
          exact hgood

end Operands

lemma odd_comm {f : ℕ} (n m : Number f) : odd n m = odd m n := by
  rw [odd, odd]
  simp only [or_comm]

lemma exponent_comm {f : ℕ} (n m : Number f) : exponent n m = exponent m n := by
  rw [exponent, exponent, add_comm]

lemma mpfwNormal_comm (n m : Number 24) : mpfwNormal n.word m.word = mpfwNormal m.word n.word := by
  obtain ⟨v, hv, hrun⟩ := mpfwNormal_word n m
  obtain ⟨v', hv', hrun'⟩ := mpfwNormal_word m n
  obtain rfl : v = v' := BitVec.eq_of_toNat_eq (by rw [hv, hv', mul_comm])
  rw [hrun, hrun', odd_comm, exponent_comm, bne_comm]

lemma mpfdNormal_comm (n m : Number 56) : mpfdNormal n.word m.word = mpfdNormal m.word n.word := by
  obtain ⟨v, hv, hrun⟩ := mpfdNormal_word n m
  obtain ⟨v', hv', hrun'⟩ := mpfdNormal_word m n
  obtain rfl : v = v' := BitVec.eq_of_toNat_eq (by rw [hv, hv', mul_comm])
  rw [hrun, hrun', odd_comm, exponent_comm, bne_comm]

/-- **The multiplications**: both are commutative. A product of words is delivered, exactly when it can be and within one unit
of its last digit otherwise, just when the greatest mantissa is not rounded up; one of double words just when it is a good one. -/
theorem muls_iff (a b : Operand 24) (c d : Operand 56) (hw : InRange 24 (a.value * b.value))
    (hd : InRange 56 (c.value * d.value)) :
    (mpfw a.word b.word = mpfw b.word a.word ∧ mpfd c.word d.word = mpfd d.word c.word) ∧
      (Delivered 24 (a.value * b.value) (mpfw a.word b.word) ↔
        ∀ n m, a = some n → b = some m → ¬ (RoundedUp n m ∧ n.frac * m.frac = (2 ^ 24 - 1) * 2 ^ 20)) ∧
      (Delivered 56 (c.value * d.value) (mpfd c.word d.word) ↔ ∀ n m, c = some n → d = some m → GoodProduct n m) := by
  refine ⟨⟨multiply_symm (by norm_num) mpfwNormal_comm a b, multiply_symm (by norm_num) mpfdNormal_comm c d⟩, ?_, ?_⟩
  · refine multiply_delivered (by norm_num) a b fun n m ha hb ↦ ?_
    subst ha hb
    exact mpfwNormal_iff n m hw
  · refine multiply_delivered (by norm_num) c d fun n m hc hd' ↦ ?_
    subst hc hd'
    exact mpfdNormal_iff n m hd

/-- One and one, and 4 and 5. -/
theorem muls_iff_one : let one : Number 24 := ⟨false, 65, 2 ^ 20, by decide, by decide, by decide⟩
    let four : Number 56 := ⟨false, 65, 2 ^ 54, by decide, by decide, by decide⟩
    let five : Number 56 := ⟨false, 65, 5 * 2 ^ 52, by decide, by decide, by decide⟩
    Delivered 24 (one.value * one.value) (mpfw one.word one.word) ∧
      Delivered 56 (four.value * five.value) (mpfd four.word five.word) := by
  intro one four five
  have hmuls := muls_iff (some one) (some one) (some four) (some five)
    (.inr (by norm_num [Operand.value, Number.value, unit, one])) (.inr (by
      norm_num [Operand.value, Number.value, unit, four, five]))
  refine ⟨hmuls.2.1.mpr fun n m hn hm ↦ ?_, hmuls.2.2.mpr fun n m hn hm ↦ ?_⟩ <;>
  · obtain rfl := Option.some_inj.mp hn
    obtain rfl := Option.some_inj.mp hm
    decide

/-- **One times the next double word** after it is not that double word. -/
theorem mpfd_wrong : ¬ ∀ c d : Operand 56, InRange 56 (c.value * d.value) →
    Delivered 56 (c.value * d.value) (mpfd c.word d.word) := by
  intro hall
  let one : Number 56 := ⟨false, 65, 2 ^ 52, by norm_num, by norm_num, by norm_num⟩
  let next : Number 56 := ⟨false, 65, 2 ^ 52 + 1, by norm_num, by norm_num, by norm_num⟩
  have hrun : mpfd one.word next.word = (one.word, one.cc) := by decide
  have hprod : one.value * next.value = next.value := by norm_num [Number.value, one, next]
  rcases hall (some one) (some next) (.inr (by norm_num [Operand.value, Number.value, unit, one, next])) with
    ⟨hzero, -⟩ | ⟨n, hn, -, hexact⟩
  · norm_num [Operand.value, Number.value, one, next] at hzero
  · obtain rfl : one = n := Number.word_inj (Prod.ext_iff.mp (hrun.symm.trans hn)).1
    have hsame := hexact (.inr ⟨next, hprod.symm⟩)
    norm_num [Operand.value, Number.value, one, next] at hsame

end Ka10Simh.Sel32
