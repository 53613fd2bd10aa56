import Ka10Simh.Sel32.Float.Normal

/-!
The floating point divides of a SEL 32: `s_dvfw` and `s_dvfd`.

Words are divided by the host, as soon as the divisor is not the zero word. Double words are divided bit by
bit after they have been normalized, and a divisor that is zero gives zero.

* `dvfw`, `dvfd`: the divides; `dvfw` is none when the host divides by zero.
* `Quotient.step`, `quotient_spec`: the bits of a quotient.
* `dvfd_minusOne`: a divisor with fraction minus one is a power of 16.
* `divides_iff`: where the divides report a fraction that is zero as an arithmetic exception.
-/

namespace Ka10Simh.Sel32

/-! ### The source -/

/-- At `setcc`: the condition code of a result. -/
def setCC (temp : BitVec 32) : BitVec 32 :=
  if temp &&& fSign ≠ 0 then cc3Bit else if temp = 0 then cc4Bit else cc2Bit

/-- At `DOVFLO` and at `DUNFLO`. -/
def exception (big : Bool) (sign : BitVec 32) : BitVec 32 × BitVec 32 :=
  (if big then (if sign &&& fSign ≠ 0 then 0x80000001 else 0x7fffffff) else 0,
    (if big then cc4Bit else 0) ||| cc1Bit ||| if sign &&& fSign ≠ 0 then cc3Bit else cc2Bit)

/-- At `RRND2`: the exponent and the fraction are merged. -/
def merge (sign temp temp2 expr : BitVec 32) : BitVec 32 × BitVec 32 :=
  let expr := expr + temp
  if expr &&& fSign ≠ 0 then exception false sign
  else if (0x7f#32).slt expr then exception true sign
  else
    let expr := if sign &&& fSign ≠ 0 then ~~~expr else expr
    let temp := expr <<< 24 ||| (temp2 <<< 1) >>> 8
    (temp, setCC temp)

/-- At `RROUND`. Both signs round a normalized fraction at bit 25. -/
def rround (sign temp temp2 expr : BitVec 32) : BitVec 32 × BitVec 32 :=
  let r := if temp2 = fSign then (0xf8000000, expr + 1) else (temp2, expr)
  if (0x7fffffc0#32).sle r.1 ∨ r.2 ≠ 0x40 then merge sign temp r.1 r.2
  else merge sign temp (r.1 + 0x40) r.2

/-- `s_dvfw`, from the division of the fractions on. -/
def divideFractions (sign temp reg mem : BitVec 32) : Option (BitVec 32 × BitVec 32) :=
  if mem = 0 then none
  else
    let temp2 := (reg.setWidth 64 <<< 32 / mem.setWidth 64).setWidth 32 >>> 3 <<< 3
    let r := nor (if sign &&& fSign ≠ 0 then negate32 temp2 else temp2)
    some (rround sign (temp + 1) r.1 r.2)

/-- The absolute value of an operand. -/
def absw (v : BitVec 32) : BitVec 32 := if v &&& fSign ≠ 0 then negate32 v else v

/-- `s_dvfw`. -/
def dvfw (reg mem : BitVec 32) : Option (BitVec 32 × BitVec 32) :=
  if mem = 0 then some (exception true 0)
  else if reg = 0 then some (0, cc4Bit)
  else
    divideFractions ((mem &&& fSign) ^^^ (reg &&& fSign)) (absw reg >>> 24 - absw mem >>> 24)
      (absw reg <<< 8 >>> 6) (absw mem <<< 8 >>> 1)

/-- A double word: 8 bits of sign and exponent, and 56 bits of fraction. -/
abbrev Dword : Type := BitVec (56 + 8)

/-- A turn of the loop of `s_dvfd`: the negative of the divisor is added, and stays when that sets bit 60. -/
def divTurn (mem : Dword) (s : Dword × Dword) : Dword × Dword :=
  let reg := s.1 <<< 1
  let tmp := reg + mem
  if tmp &&& 0x1000000000000000 ≠ 0 then (tmp, s.2 <<< 1 ||| 1) else (reg, s.2 <<< 1)

/-- The quotient of two mantissas, with a bit for the rounding. -/
def quotient (reg mem : Dword) : Dword :=
  let r := (divTurn mem)^[56] (reg, 0)
  if (r.1 <<< 1 + mem) &&& signBit 56 ≠ 0 ∧ r.2 ≠ 0x00ffffffffffffff then r.2 + 1 else r.2

/-- The boundary conditions. -/
def boundary (regNeg memNeg lsb : Bool) (res : Dword) : Dword :=
  if res = 0x00fffffffffffff1 then res + 0xf
  else if res = 0x00fffffffffffff8 then res &&& 0x0fffffffffffffc0
  else if res = 0x00ffffffffffffff then
    if lsb = false then res + 1
    else if regNeg != memNeg then
      if memNeg then res &&& 0x00fffffffffffff0 else res + 1
    else if memNeg then res + 1
    else res &&& 0x00fffffffffffff0
  else res

/-- An exponent that is too large. -/
def overflowd (sign : Bool) : Dword × BitVec 32 :=
  (if sign then 0x8000000000000001 else 0x7fffffffffffffff, cc1Bit ||| cc4Bit ||| if sign then cc3Bit else cc2Bit)

/-- The result out of its parts. -/
def build (sign : Bool) (er : ℤ) (res : Dword) : Dword × BitVec 32 :=
  let res := res &&& mantMask 56 ||| BitVec.ofInt (56 + 8) er <<< 56 &&& exMask 56
  let res := if sign then negate32 res else res
  (res, if res ≠ 0 then (if sign then cc3Bit else cc2Bit) else cc4Bit)

/-- The result is aligned. -/
def align (sign : Bool) (er : ℤ) (res : Dword) : Dword × BitVec 32 :=
  if res = 0 then build false 0 res
  else
    let r := shiftWhile (noDigit 52) 16 res 0
    let er := er - r.2
    if 128 ≤ er then overflowd sign
    else if er < 0 then (0, cc1Bit ||| if sign then cc3Bit else cc2Bit)
    else build sign er r.1

/-- A carry out of the mantissa goes back into it first. -/
def finish (sign : Bool) (er : ℤ) (res : Dword) : Dword × BitVec 32 :=
  if res &&& exMask 56 ≠ 0 then
    if 128 ≤ er + 1 then overflowd sign else align sign (er + 1) (res >>> 4)
  else align sign er res

/-- The sign and the absolute value of a double word. -/
def isNeg (v : Dword) : Bool := v &&& signBit 56 ≠ 0
def absd (v : Dword) : Dword := if isNeg v then negate32 v else v

/-- `s_dvfd` of normalized operands that are not zero. -/
def divideNormal (reg mem : Dword) : Dword × BitVec 32 :=
  let er : ℤ := ((absd reg &&& exMask 56) >>> 56).toNat - ((absd mem &&& exMask 56) >>> 56).toNat + 0x40
  let lsb : Bool := absd reg &&& 1 ≠ 0 ∨ absd mem &&& 1 ≠ 0
  let r := (absd reg &&& mantMask 56) <<< 4
  let m := (absd mem &&& mantMask 56) <<< 4
  let neg := (m ^^^ 0x0fffffffffffffff) + 1
  let sign := isNeg reg != isNeg mem
  if m < r then finish sign (er + 1) (boundary (isNeg reg) (isNeg mem) lsb (quotient (r >>> 4) neg))
  else finish sign er (boundary (isNeg reg) (isNeg mem) lsb (quotient r neg))

/-- `s_dvfd`. -/
def dvfd (reg mem : Dword) : Dword × BitVec 32 :=
  let r := normf 56 reg
  let m := normf 56 mem
  if r.2 &&& cc1Bit ≠ 0 then r
  else if m.2 &&& cc1Bit ≠ 0 then m
  else if r.1 = 0 ∨ m.1 = 0 then (0, cc4Bit)
  else divideNormal r.1 m.1

/-! ### The bits of a quotient -/

/-- After some turns: `q` is the quotient so far and `r` what is left of the number `n`. Above 60 bits the
register still has the last bits of the quotient. -/
structure Quotient (m n k : ℕ) (s : Dword × Dword) (q r : ℕ) : Prop where
  eq : q * m + r = n * 2 ^ k
  reg : s.1.toNat = q % 16 * 2 ^ 60 + r
  res : s.2.toNat = q
  rest : r < m ∧ n < m ∨ r = m ∧ n = m

/-- Bit 60 of a double word. -/
lemma and_bit60 (v : Dword) : v &&& 0x1000000000000000 ≠ 0 ↔ v.toNat / 2 ^ 60 % 2 = 1 := by
  have h0 : (0 : Dword).toNat = 0 := rfl
  have hbit : (0x1000000000000000 : Dword).toNat = 2 ^ 60 := rfl
  rw [← Word.and_pow_ne_zero, ne_eq, ← BitVec.toNat_inj, BitVec.toNat_and, h0, hbit]

/-- One more bit. -/
lemma Quotient.step {m n k q r : ℕ} {s : Dword × Dword} {mem : Dword} (h : Quotient m n k s q r) (hm : m < 2 ^ 60)
    (hmem : mem.toNat = 2 ^ 60 - m) (hq : q < 2 ^ 63) :
    ∃ q' r', Quotient m n (k + 1) (divTurn mem s) q' r' ∧ q' ≤ 2 * q + 1 := by
  obtain ⟨heq, hreg, hres, hrest⟩ := h
  have hle : r ≤ m := by lia
  have hshift : (s.1 <<< 1).toNat = q % 8 * 2 ^ 61 + 2 * r := by
    rw [BitVec.toNat_shiftLeft, Nat.shiftLeft_eq, hreg]
    lia
  have htmp : (s.1 <<< 1 + mem).toNat = q % 8 * 2 ^ 61 + (2 * r + 2 ^ 60 - m) := by
    rw [BitVec.toNat_add, hshift, hmem]
    omega
  have hbit : (s.1 <<< 1 + mem) &&& 0x1000000000000000 ≠ 0 ↔ m ≤ 2 * r := by
    rw [and_bit60, htmp]
    omega
  have hzero : (s.2 <<< 1).toNat = 2 * q := by
    rw [BitVec.toNat_shiftLeft, Nat.shiftLeft_eq, hres]
    lia
  have hone : (s.2 <<< 1 ||| 1).toNat = 2 * q + 1 := by
    have h1 : (1 : Dword).toNat = 1 := rfl
    rw [BitVec.toNat_or, hzero, h1]
    exact Word.or_eq_add (i := 1) (dvd_mul_right ..) (by decide)
  by_cases hle' : m ≤ 2 * r
  · refine ⟨2 * q + 1, 2 * r - m, ⟨?_, ?_, ?_, by lia⟩, le_rfl⟩
    · rw [pow_succ, ← mul_assoc, ← heq]
      have hmul : (2 * q + 1) * m = 2 * (q * m) + m := by ring
      lia
    · simp only [divTurn, if_pos (hbit.mpr hle')]
      rw [htmp]
      lia
    · simp only [divTurn, if_pos (hbit.mpr hle')]
      exact hone
  · refine ⟨2 * q, 2 * r, ⟨?_, ?_, ?_, by lia⟩, by omega⟩
    · rw [pow_succ, ← mul_assoc, ← heq]
      ring
    · simp only [divTurn, if_neg (mt hbit.mp hle')]
      rw [hshift]
      lia
    · simp only [divTurn, if_neg (mt hbit.mp hle')]
      exact hzero

/-- All bits. -/
lemma quotient_run {m n : ℕ} {reg mem : Dword} (hm : m < 2 ^ 60) (hmem : mem.toNat = 2 ^ 60 - m) (hreg : reg.toNat = n)
    (hn : n ≤ m) (k : ℕ) (hk : k ≤ 56) :
    ∃ q r, Quotient m n k ((divTurn mem)^[k] (reg, 0)) q r ∧ q < 2 ^ k := by
  induction k with
  | zero =>
      refine ⟨0, n, ⟨by simp, ?_, rfl, by omega⟩, by simp⟩
      simpa using hreg
  | succ k ih =>
      obtain ⟨q, r, hquot, hlt⟩ := ih (by omega)
      have hbound : 2 ^ k ≤ 2 ^ 55 := Nat.pow_le_pow_right (by decide) (by omega)
      obtain ⟨q', r', hnext, hle⟩ := hquot.step hm hmem (by omega)
      refine ⟨q', r', ?_, ?_⟩
      · rwa [Function.iterate_succ_apply']
      · rw [pow_succ]
        omega

/-- **A quotient by a power of 16**: the mantissa itself, which is rounded by one of its bits; or all ones. -/
theorem quotient_spec {reg mem : Dword} (hmem : mem.toNat = 2 ^ 60 - 2 ^ 56) (hreg : reg.toNat ≤ 2 ^ 56) :
    (quotient reg mem).toNat = if reg.toNat = 2 ^ 56 ∨ reg.toNat = 2 ^ 56 - 1 then 2 ^ 56 - 1
      else if reg.toNat / 4 % 2 = 1 then reg.toNat + 1 else reg.toNat := by
  obtain ⟨q, r, ⟨heq, hr1, hr2, hrest⟩, hlt⟩ := quotient_run (by decide) hmem rfl hreg 56 le_rfl
  have hround : (((divTurn mem)^[56] (reg, 0)).1 <<< 1 + mem) &&& signBit 56 ≠ 0 ↔
      2 ^ 63 ≤ ((((divTurn mem)^[56] (reg, 0)).1 <<< 1 + mem)).toNat := by
    rw [ne_eq, and_signBit_eq_zero, not_lt]
  have hsum : (((divTurn mem)^[56] (reg, 0)).1 <<< 1 + mem).toNat = (q % 8 * 2 ^ 61 + 2 * r + 2 ^ 60 - 2 ^ 56) % 2 ^ 64 := by
    rw [BitVec.toNat_add, BitVec.toNat_shiftLeft, Nat.shiftLeft_eq, hr1, hmem]
    lia
  have hones : ((divTurn mem)^[56] (reg, 0)).2 ≠ 0x00ffffffffffffff ↔ q ≠ 2 ^ 56 - 1 := by
    rw [ne_eq, ← BitVec.toNat_inj, hr2]
    rfl
  rw [quotient]
  simp only [hround, hsum, hones]
  have hone : (((divTurn mem)^[56] (reg, 0)).2 + 1).toNat = (q + 1) % 2 ^ 64 := by
    rw [BitVec.toNat_add, hr2]
    rfl
  rw [apply_ite BitVec.toNat, hone, hr2]
  rcases hrest with ⟨hrm, hnm⟩ | ⟨hrm, hnm⟩
  · have hq : q = reg.toNat ∧ r = 0 := by lia
    obtain ⟨rfl, rfl⟩ := hq
    split_ifs <;> lia
  · have hq : q = 2 ^ 56 - 1 := by lia
    subst hq
    rw [if_neg (by simp), if_pos (Or.inl hnm)]

/-! ### Divisors with the fraction minus one -/

lemma toNat_carry : (0x00fffffffffffff1 : Dword).toNat = 2 ^ 56 - 15 ∧ (0x00fffffffffffff8 : Dword).toNat = 2 ^ 56 - 8 ∧
    (0x00ffffffffffffff : Dword).toNat = 2 ^ 56 - 1 := ⟨rfl, rfl, rfl⟩

/-- What the boundary conditions make of a quotient by a negative divisor. -/
lemma boundary_spec (regNeg lsb : Bool) {res : Dword} (hlow : 2 ^ 52 ≤ res.toNat) (hhigh : res.toNat < 2 ^ 56) :
    2 ^ 52 ≤ (boundary regNeg true lsb res).toNat ∧ (boundary regNeg true lsb res).toNat ≤ 2 ^ 56 ∧
      ((boundary regNeg true lsb res).toNat = 2 ^ 56 ↔
        res.toNat = 2 ^ 56 - 15 ∨ res.toNat = 2 ^ 56 - 1 ∧ (lsb = false ∨ regNeg = true)) := by
  obtain ⟨h1, h8, hf⟩ := toNat_carry
  by_cases hres1 : res = 0x00fffffffffffff1
  · subst hres1
    cases regNeg <;> cases lsb <;> decide
  by_cases hres8 : res = 0x00fffffffffffff8
  · subst hres8
    cases regNeg <;> cases lsb <;> decide
  by_cases hresf : res = 0x00ffffffffffffff
  · subst hresf
    cases regNeg <;> cases lsb <;> decide
  · rw [boundary, if_neg hres1, if_neg hres8, if_neg hresf]
    have hne1 : res.toNat ≠ 2 ^ 56 - 15 := fun h ↦ hres1 (BitVec.eq_of_toNat_eq (h.trans h1.symm))
    have hnef : res.toNat ≠ 2 ^ 56 - 1 := fun h ↦ hresf (BitVec.eq_of_toNat_eq (h.trans hf.symm))
    refine ⟨hlow, hhigh.le, ?_⟩
    lia

/-- An arithmetic exception. -/
def Excepts (cc : BitVec 32) : Prop := cc &&& cc1Bit ≠ 0

instance (cc : BitVec 32) : Decidable (Excepts cc) := inferInstanceAs (Decidable (cc &&& cc1Bit ≠ 0))

lemma build_cc (sign : Bool) (er : ℤ) (res : Dword) : ¬ Excepts (build sign er res).2 := by
  rw [build]
  dsimp only
  split_ifs <;> decide

lemma overflowd_cc (sign : Bool) : Excepts (overflowd sign).2 := by cases sign <;> decide

/-- A result that is aligned already is an exception when its exponent is out of range. -/
lemma align_cc (sign : Bool) (er : ℤ) {res : Dword} (hlow : 2 ^ 52 ≤ res.toNat) (hhigh : res.toNat < 2 ^ 56) :
    Excepts (align sign er res).2 ↔ ¬ (0 ≤ er ∧ er < 128) := by
  have hne : res ≠ 0 := fun h ↦ by
    rw [h] at hlow
    exact absurd hlow (by decide)
  obtain ⟨t, r, hloop, -, -, -, hnone⟩ := shiftWhile_digits (w := 56 + 8) (p := 52) (k := 16) (n := 0) (v := res)
    (by decide) hhigh (hlow.trans (Nat.le_mul_of_pos_right _ (by positivity)))
  obtain rfl : t = 0 := hnone hlow
  have hunder : Excepts (cc1Bit ||| if sign then cc3Bit else cc2Bit) := by cases sign <;> decide
  rw [align, if_neg hne, hloop]
  simp only [Nat.add_zero, Nat.cast_zero, sub_zero]
  by_cases hbig : 128 ≤ er
  · rw [if_pos hbig]
    exact iff_of_true (overflowd_cc sign) (by omega)
  rw [if_neg hbig]
  by_cases hsmall : er < 0
  · rw [if_pos hsmall]
    exact iff_of_true hunder (by omega)
  · rw [if_neg hsmall]
    exact iff_of_false (build_cc sign er r) (by omega)

lemma finish_cc (sign : Bool) (er : ℤ) {res : Dword} (hlow : 2 ^ 52 ≤ res.toNat) (hhigh : res.toNat ≤ 2 ^ 56) :
    Excepts (finish sign er res).2 ↔
      ¬ (0 ≤ er + (if res.toNat = 2 ^ 56 then 1 else 0) ∧ er + (if res.toNat = 2 ^ 56 then 1 else 0) < 128) := by
  have hcarry : res &&& exMask 56 ≠ 0 ↔ res.toNat = 2 ^ 56 := by
    have h0 : (0 : Dword).toNat = 0 := rfl
    rw [ne_eq, ← BitVec.toNat_inj, toNat_and_exMask, h0]
    lia
  rw [finish]
  by_cases hc : res.toNat = 2 ^ 56
  · have hshift : (res >>> 4).toNat = 2 ^ 52 := by
      rw [BitVec.toNat_ushiftRight, hc]
      rfl
    rw [if_pos (hcarry.mpr hc), if_pos hc]
    split_ifs with hbig
    · exact iff_of_true (overflowd_cc sign) (by omega)
    · exact align_cc sign (er + 1) hshift.ge (by omega)
  · rw [if_neg (mt hcarry.mp hc), if_neg hc, add_zero]
    exact align_cc sign er hlow (by omega)

/-- The mantissas whose quotient carries. -/
def Carries (neg : Bool) (frac : ℕ) : Prop :=
  frac = 2 ^ 56 - 15 ∨ frac = 2 ^ 56 - 2 ∨ frac = 2 ^ 56 - 1 ∧ neg = true

instance (neg : Bool) (frac : ℕ) : Decidable (Carries neg frac) :=
  inferInstanceAs (Decidable (frac = 2 ^ 56 - 15 ∨ frac = 2 ^ 56 - 2 ∨ frac = 2 ^ 56 - 1 ∧ neg = true))

lemma Number.isNeg_word (n : Number 56) : isNeg n.word = n.neg := by
  rw [isNeg]
  cases hneg : n.neg with
  | false => exact decide_eq_false (not_not.mpr (n.word_sign.mpr hneg))
  | true =>
      refine decide_eq_true fun h ↦ ?_
      rw [n.word_sign, hneg] at h
      cases h

lemma Number.absd_word (n : Number 56) : absd n.word = n.abs := by
  rw [absd, n.isNeg_word]
  cases hneg : n.neg with
  | false => rw [if_neg Bool.false_ne_true, word, hneg, if_neg Bool.false_ne_true]
  | true => rw [if_pos rfl, negate32_eq, n.neg_word hneg]

lemma Number.exp_field (n : Number 56) : ((n.abs &&& exMask 56) >>> 56).toNat = n.exp := by
  rw [toNat_expField, n.abs_fields.1]
  exact Nat.mod_eq_of_lt n.exp_lt

lemma Number.frac_field (n : Number 56) : (n.abs &&& mantMask 56).toNat = n.frac := by
  rw [toNat_and_mantMask, n.abs_fields.2]

lemma Number.odd_abs (n : Number 56) : n.abs &&& 1 ≠ 0 ↔ n.frac % 2 = 1 := by
  have h0 : (0 : Dword).toNat = 0 := rfl
  have h1 : (1 : Dword).toNat = 1 := rfl
  have habs := n.toNat_abs
  rw [ne_eq, ← BitVec.toNat_inj, BitVec.toNat_and, h0, h1, Nat.and_one_is_mod]
  lia

/-- **Division by a power of 16 that stands for a fraction minus one**: the exponents decide. -/
theorem divideNormal_cc (n d : Number 56) (hneg : d.neg = true) (hfrac : d.frac = 2 ^ 52) :
    Excepts (divideNormal n.word d.word).2 ↔
      ¬ (0 ≤ (n.exp : ℤ) - d.exp + 0x41 + (if Carries n.neg n.frac then 1 else 0) ∧
        (n.exp : ℤ) - d.exp + 0x41 + (if Carries n.neg n.frac then 1 else 0) < 128) := by
  have hlow := n.frac_ge
  have hhigh := n.frac_lt
  have hdiv : ((d.abs &&& mantMask 56) <<< 4).toNat = 2 ^ 56 := by
    rw [BitVec.toNat_shiftLeft, d.frac_field, hfrac]
    rfl
  have hreg : ((n.abs &&& mantMask 56) <<< 4).toNat = n.frac * 16 := by
    rw [BitVec.toNat_shiftLeft, n.frac_field, Nat.shiftLeft_eq]
    omega
  have hword : (d.abs &&& mantMask 56) <<< 4 = (0x0100000000000000 : Dword) := BitVec.eq_of_toNat_eq hdiv
  have hminus : ((((0x0100000000000000 : Dword) ^^^ 0x0fffffffffffffff) + 1).toNat) = 2 ^ 60 - 2 ^ 56 := rfl
  have hlsb : decide (n.abs &&& 1 ≠ 0 ∨ d.abs &&& 1 ≠ 0) = decide (n.frac % 2 = 1) := by
    rw [decide_eq_decide, n.odd_abs, d.odd_abs, hfrac]
    lia
  have hless : (d.abs &&& mantMask 56) <<< 4 < (n.abs &&& mantMask 56) <<< 4 ↔ 2 ^ 52 < n.frac := by
    rw [BitVec.lt_def, hdiv, hreg]
    omega
  rw [divideNormal]
  simp only [n.absd_word, d.absd_word, n.exp_field, d.exp_field, hlsb, n.isNeg_word, d.isNeg_word, hneg, hless]
  rw [hword]
  rcases Nat.lt_or_ge (2 ^ 52) n.frac with hbig | hbig
  · rw [if_pos hbig]
    have hback : (((n.abs &&& mantMask 56) <<< 4) >>> 4).toNat = n.frac := by
      rw [BitVec.toNat_ushiftRight, hreg, Nat.shiftRight_eq_div_pow]
      omega
    have hquot := @quotient_spec (((n.abs &&& mantMask 56) <<< 4) >>> 4) _ hminus (by omega)
    rw [hback] at hquot
    generalize quotient (((n.abs &&& mantMask 56) <<< 4) >>> 4) _ = res at *
    have hres : 2 ^ 52 ≤ res.toNat ∧ res.toNat < 2 ^ 56 := by split_ifs at hquot <;> lia
    obtain ⟨hl, hh, hcarry⟩ := boundary_spec n.neg (decide (n.frac % 2 = 1)) hres.1 hres.2
    rw [finish_cc _ _ hl hh]
    have hiff : (boundary n.neg true (decide (n.frac % 2 = 1)) res).toNat = 2 ^ 56 ↔ Carries n.neg n.frac := by
      rw [hcarry, Carries, decide_eq_false_iff_not]
      cases n.neg <;> simp only [Bool.false_eq_true, or_false, and_false, or_true, and_true] <;>
        split_ifs at hquot <;> lia
    simp only [hiff]
    rw [show (n.exp : ℤ) - d.exp + 0x40 + 1 = n.exp - d.exp + 0x41 by ring]
  · rw [if_neg (not_lt.mpr hbig)]
    have heq : n.frac = 2 ^ 52 := by omega
    have hquot := @quotient_spec ((n.abs &&& mantMask 56) <<< 4) _ hminus (by omega)
    rw [hreg, heq] at hquot
    generalize quotient ((n.abs &&& mantMask 56) <<< 4) _ = res at *
    have hres : res.toNat = 2 ^ 56 - 1 := hquot
    obtain ⟨hl, hh, hcarry⟩ := @boundary_spec n.neg (decide (n.frac % 2 = 1)) res (by omega) (by omega)
    have hone : (boundary n.neg true (decide (n.frac % 2 = 1)) res).toNat = 2 ^ 56 :=
      hcarry.mpr (Or.inr ⟨hres, Or.inl (by rw [heq]; rfl)⟩)
    have hno : ¬ Carries n.neg n.frac := by
      rw [Carries, heq]
      omega
    rw [finish_cc _ _ hl hh, if_pos hone, if_neg hno, add_zero]
    rw [show (n.exp : ℤ) - d.exp + 0x40 + 1 = n.exp - d.exp + 0x41 by ring]

/-! ### The claims of a divide -/

/-- The exponent of the quotient of a normalized number `r` by `mem`, whose fraction is minus one. -/
def exponentOf (r mem : Dword) : ℤ :=
  ((absd r &&& exMask 56) >>> 56).toNat + ((mem &&& exMask 56) >>> 56).toNat - 0x3f +
    if Carries (isNeg r) (absd r &&& mantMask 56).toNat then 1 else 0

/-- The double words for which the normalizations, or the exponents, report an exception although the fraction
of `mem` is zero. -/
def Excepted (reg mem : Dword) : Prop :=
  Excepts (normf 56 reg).2 ∨ mem = signBit 56 ∨
    isNeg mem = true ∧ (normf 56 reg).1 ≠ 0 ∧
      ¬ (0 ≤ exponentOf (normf 56 reg).1 mem ∧ exponentOf (normf 56 reg).1 mem < 128)

/-- A fraction that is zero. -/
def ZeroFraction (f : ℕ) (v : BitVec (f + 8)) : Prop := v &&& mantMask f = 0

/-- What is asked of the divides: the host does not divide by zero, and a divisor whose fraction is zero is
reported as an arithmetic exception by both. -/
structure Divides (reg mem : BitVec 32) (reg' mem' : Dword) : Prop where
  host : dvfw reg mem ≠ none
  word : ZeroFraction 24 mem → ∃ r, dvfw reg mem = some r ∧ Excepts r.2
  dword : ZeroFraction 56 mem' → Excepts (dvfd reg' mem').2

lemma zeroFraction_iff {f : ℕ} (v : BitVec (f + 8)) : ZeroFraction f v ↔ v.toNat % 2 ^ f = 0 := by
  have h0 : (0 : BitVec (f + 8)).toNat = 0 := rfl
  rw [ZeroFraction, ← BitVec.toNat_inj, toNat_and_mantMask, h0]

/-- The divisor that the host sees. -/
lemma hostDivisor_eq_zero (mem : BitVec 32) : absw mem <<< 8 >>> 1 = 0 ↔ mem.toNat % 2 ^ 24 = 0 := by
  have h0 : (0 : BitVec 32).toNat = 0 := rfl
  have hlt := mem.isLt
  have habs : (absw mem).toNat % 2 ^ 24 = 0 ↔ mem.toNat % 2 ^ 24 = 0 := by
    rw [absw]
    split_ifs
    · rw [negate32_eq, BitVec.toNat_neg]
      lia
    · rfl
  rw [← habs, ← BitVec.toNat_inj, BitVec.toNat_ushiftRight, BitVec.toNat_shiftLeft, Nat.shiftRight_eq_div_pow,
    Nat.shiftLeft_eq, h0]
  lia

/-- Words. -/
lemma dvfw_iff (reg mem : BitVec 32) :
    (dvfw reg mem ≠ none ∧ (ZeroFraction 24 mem → ∃ r, dvfw reg mem = some r ∧ Excepts r.2)) ↔
      mem = 0 ∨ ¬ ZeroFraction 24 mem := by
  have hzero : ZeroFraction 24 mem ↔ mem.toNat % 2 ^ 24 = 0 := zeroFraction_iff (f := 24) mem
  by_cases hmem : mem = 0
  · have hrun : dvfw reg mem = some (exception true 0) := by rw [dvfw, if_pos hmem]
    rw [hrun]
    exact iff_of_true ⟨Option.some_ne_none _, fun _ ↦ ⟨_, rfl, by decide⟩⟩ (Or.inl hmem)
  rw [hzero, ← hostDivisor_eq_zero]
  by_cases hdiv : absw mem <<< 8 >>> 1 = 0
  · refine iff_of_false ?_ (by tauto)
    rintro ⟨hhost, hexc⟩
    by_cases hreg : reg = 0
    · obtain ⟨r, hr, hcc⟩ := hexc hdiv
      rw [dvfw, if_neg hmem, if_pos hreg] at hr
      cases hr
      exact absurd hcc (by decide)
    · rw [dvfw, if_neg hmem, if_neg hreg, divideFractions, if_pos hdiv] at hhost
      exact hhost rfl
  · refine iff_of_true ⟨?_, fun h ↦ absurd h hdiv⟩ (Or.inr hdiv)
    rw [dvfw, if_neg hmem]
    split_ifs
    · exact Option.some_ne_none _
    · rw [divideFractions, if_neg hdiv]
      exact Option.some_ne_none _

/-- Double words. -/
lemma dvfd_iff (reg mem : Dword) (hzero : ZeroFraction 56 mem) : Excepts (dvfd reg mem).2 ↔ Excepted reg mem := by
  rw [zeroFraction_iff] at hzero
  have hlt := mem.isLt
  by_cases hreg : Excepts (normf 56 reg).2
  · have hrun : dvfd reg mem = normf 56 reg := by
      rw [dvfd]
      exact if_pos hreg
    rw [hrun]
    exact iff_of_true hreg (Or.inl hreg)
  have hrun : dvfd reg mem = if Excepts (normf 56 mem).2 then normf 56 mem
      else if (normf 56 reg).1 = 0 ∨ (normf 56 mem).1 = 0 then (0, cc4Bit)
      else divideNormal (normf 56 reg).1 (normf 56 mem).1 := by
    rw [dvfd]
    exact if_neg hreg
  rcases Nat.lt_or_ge mem.toNat (2 ^ 63) with hlow | hhigh
  · -- the divisor is zero
    have hpos : isNeg mem = false := decide_eq_false (not_not.mpr ((and_signBit_eq_zero mem).mpr hlow))
    have hne : mem ≠ signBit 56 := fun h ↦ by
      rw [h, toNat_signBit] at hlow
      exact absurd hlow (lt_irrefl _)
    have hnorm : normf 56 mem = (0, cc4Bit) := normf_zero hlow hzero
    have hno : ¬ Excepts cc4Bit := by decide
    rw [hrun, hnorm, if_neg hno, if_pos (Or.inr rfl)]
    refine iff_of_false hno ?_
    rintro (h | h | ⟨h, -⟩)
    · exact hreg h
    · exact hne h
    · rw [hpos] at h
      cases h
  by_cases hsign : mem = signBit 56
  · have hyes : Excepts (cc1Bit ||| cc3Bit ||| cc4Bit) := by decide
    rw [hrun, hsign, normf_signBit, if_pos hyes]
    exact iff_of_true hyes (Or.inr (Or.inl rfl))
  -- the fraction is minus one
  have hgt : 2 ^ 63 < mem.toNat := lt_of_le_of_ne hhigh fun h ↦ hsign (BitVec.eq_of_toNat_eq (by rw [toNat_signBit, ← h]))
  have hneg : isNeg mem = true := decide_eq_true fun h ↦ absurd ((and_signBit_eq_zero mem).mp h) (not_lt.mpr hhigh)
  obtain ⟨y, hy, hv⟩ := minusOne_word hgt hzero
  obtain ⟨d, hnorm, hdneg, hdexp, hdfrac⟩ := normf_minusOne (by decide) hy hv
  have hdcc : ¬ Excepts d.cc := by
    rw [Number.cc, hdneg]
    decide
  have hfield : ((mem &&& exMask 56) >>> 56).toNat = y + 1 := by
    rw [toNat_expField, hv, Nat.mul_div_cancel _ (by positivity)]
    omega
  rw [hrun, hnorm, if_neg hdcc]
  have hiff : Excepted reg mem ↔ (normf 56 reg).1 ≠ 0 ∧
      ¬ (0 ≤ exponentOf (normf 56 reg).1 mem ∧ exponentOf (normf 56 reg).1 mem < 128) := by
    rw [Excepted]
    tauto
  rw [hiff]
  rcases normf_spec (by decide) reg with hcc | ⟨hnormr, -⟩ | ⟨n, hnormr, -⟩
  · exact absurd hcc hreg
  · rw [hnormr, if_pos (Or.inl rfl)]
    exact iff_of_false (by decide : ¬ Excepts cc4Bit) fun h ↦ h.1 rfl
  · have hnz : ¬ (n.word = 0 ∨ d.word = 0) := not_or.mpr ⟨n.word_ne_zero, d.word_ne_zero⟩
    have hexp : (n.exp : ℤ) - d.exp + 0x41 + (if Carries n.neg n.frac then 1 else 0) = exponentOf n.word mem := by
      rw [exponentOf, n.absd_word, n.exp_field, n.frac_field, n.isNeg_word, hfield, hdexp]
      lia
    rw [hnormr, if_neg hnz, divideNormal_cc n d hdneg hdfrac, hexp]
    exact (and_iff_right n.word_ne_zero).symm

/-- **Division by a fraction that is zero**: both divides report it, and the host does not divide by zero,
exactly when the word is the zero word or has a fraction, and the double word has a fraction or is a negative
one for which the normalizations or the exponent of the quotient report an exception. -/
theorem divides_iff (reg mem : BitVec 32) (reg' mem' : Dword) : Divides reg mem reg' mem' ↔
    (mem = 0 ∨ ¬ ZeroFraction 24 mem) ∧ (¬ ZeroFraction 56 mem' ∨ Excepted reg' mem') := by
  rw [← dvfw_iff reg mem]
  constructor
  · rintro ⟨hhost, hword, hdword⟩
    refine ⟨⟨hhost, hword⟩, ?_⟩
    by_cases hzero : ZeroFraction 56 mem'
    · exact Or.inr ((dvfd_iff reg' mem' hzero).mp (hdword hzero))
    · exact Or.inl hzero
  · rintro ⟨⟨hhost, hword⟩, hcond⟩
    exact ⟨hhost, hword, fun hzero ↦ (dvfd_iff reg' mem' hzero).mpr (hcond.resolve_left fun h ↦ h hzero)⟩

/-- One divided by a number with the fraction zero, in words. -/
theorem divides_fails : ¬ ∀ (reg mem : BitVec 32) (reg' mem' : Dword), Divides reg mem reg' mem' := fun h ↦
  (h 0x41100000 0x41000000 0x4110000000000000 0x4110000000000000).host (by decide)

end Ka10Simh.Sel32
