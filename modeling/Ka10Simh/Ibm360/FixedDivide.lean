import Ka10Simh.Lib.Bits
import Ka10Simh.Lib.Restoring

/-!
The fixed divisions D and DR.

The dividend is in two registers. Its absolute value is divided by that of the divisor, in 32 steps on words, and the
exception for a quotient that is too large is raised when the quotient is greater than 2 to the 31st.

* `divide`: the instruction, with its divisor.
* `Divided`: what it has to do.
* `Restore.run_small`, `Restore.run_large`: the steps, for a dividend with a quotient of a word, and for a greater one.
* `divide_iff`: when it does.
* `divide_wrong`: a quotient of 2 to the 31st.
-/

namespace Ka10Simh.Ibm360

open Word Restoring

/-- `MSIGN`, `FMASK`. -/
abbrev msign : BitVec 32 := 0x80000000
abbrev fmask : BitVec 32 := 0xffffffff
/-- `IRC_FIXDIV`. -/
abbrev ircFixdiv : ℕ := 9

/-! ### The source -/

/-- The registers, and those that are noted. -/
structure Registers where
  regs : ℕ → BitVec 32
  perMod : ℕ

/-- The variables of the division, under their names in the source. -/
structure Restore where
  src1 : BitVec 32
  src1h : BitVec 32
  dest : BitVec 32

/-- One bit of the quotient. -/
def Restore.step (src2 : BitVec 32) (r : Restore) : Restore :=
  let src1 := r.src1 <<< 1
  let src1 := if r.src1h &&& msign ≠ 0 then src1 ||| 1 else src1
  let src1h := r.src1h <<< 1
  let desth := src1 - src2
  let dest := r.dest <<< 1
  if desth &&& msign = 0 then ⟨desth, src1h, dest ||| 1⟩ else ⟨src1, src1h, dest⟩

/-- The complement of a double word. -/
def complement (src1 src1h : BitVec 32) : BitVec 32 × BitVec 32 :=
  let src1h := src1h ^^^ fmask
  let src1 := src1 ^^^ fmask
  (if src1h = fmask then src1 + 1 else src1, src1h + 1)

/-- `OP_D` and `OP_DR`. The first part of the result is the code of an exception. -/
def divide (s : Registers) (reg1 : ℕ) (src2 : BitVec 32) : Option ℕ × Registers :=
  if reg1 &&& 1 ≠ 0 then (some 6, s)
  else if src2 = 0 then (some ircFixdiv, s)
  else
    let src1 := s.regs reg1
    let src1h := s.regs (reg1 ||| 1)
    let negative := src1 &&& msign ≠ 0
    let number := if negative then complement src1 src1h else (src1, src1h)
    let opposite := src2 &&& msign ≠ 0
    let src2 := if opposite then -src2 else src2
    let r := (Restore.step src2)^[32] ⟨number.1, number.2, 0⟩
    if r.dest &&& msign ≠ 0 ∧ r.dest ≠ msign then (some ircFixdiv, s)
    else
      let dest := if negative ↔ opposite then r.dest else -r.dest
      let src1 := if negative then -r.src1 else r.src1
      (none, { regs := Function.update (Function.update s.regs reg1 src1) (reg1 ||| 1) dest
               perMod := s.perMod ||| 3 <<< reg1 })

/-! ### What it has to do -/

/-- The dividend. -/
def dividend (s : Registers) (reg1 : ℕ) : ℤ := (s.regs reg1 ++ s.regs (reg1 ||| 1)).toInt

/-- A quotient of 32 bits, and a remainder with the sign of the dividend; or the exception, and the registers as they
were, when the divisor is zero or the quotient does not fit. -/
def Divided (s : Registers) (reg1 : ℕ) (src2 : BitVec 32) (out : Option ℕ × Registers) : Prop :=
  let x := dividend s reg1
  let d := src2.toInt
  if d ≠ 0 ∧ -2 ^ 31 ≤ x.tdiv d ∧ x.tdiv d < 2 ^ 31 then
    out.1 = none ∧ (out.2.regs (reg1 ||| 1)).toInt * d + (out.2.regs reg1).toInt = x ∧
      |(out.2.regs reg1).toInt| < |d| ∧ 0 ≤ (out.2.regs reg1).toInt * x ∧
      ∀ i, i ≠ reg1 → i ≠ reg1 ||| 1 → out.2.regs i = s.regs i
  else out = (some ircFixdiv, s)

/-! ### One step -/

lemma and_msign_eq_zero (x : BitVec 32) : x &&& msign = 0 ↔ x.toNat < 2 ^ 31 := by
  rw [← BitVec.toNat_inj, BitVec.toNat_and]
  show x.toNat &&& 2 ^ 31 = 0 ↔ _
  rw [and_two_pow_eq_zero, Nat.testBit_eq_decide_div_mod_eq, decide_eq_false_iff_not]
  have hlt := x.isLt
  omega

lemma shiftLeft_one_or (x : BitVec 32) : (x <<< 1).toNat = 2 * x.toNat % 2 ^ 32 ∧ (x <<< 1 ||| 1).toNat = 2 * x.toNat % 2 ^ 32 + 1 := by
  have hshift : (x <<< 1).toNat = 2 * x.toNat % 2 ^ 32 := by
    rw [BitVec.toNat_shiftLeft, Nat.shiftLeft_eq, mul_comm, pow_one]
  refine ⟨hshift, ?_⟩
  rw [BitVec.toNat_or, hshift]
  exact or_eq_add (i := 1) (by omega) (by decide)

namespace Restore

/-- The partial remainder, and the bits of the dividend that are not used yet. -/
def pair (r : Restore) : ℕ := r.src1.toNat * 2 ^ 32 + r.src1h.toNat

variable {src2 : BitVec 32} {r : Restore}

lemma pair_lt (r : Restore) : r.pair < 2 ^ 64 := by
  have h := r.src1.isLt
  have h' := r.src1h.isLt
  rw [pair]
  omega

/-- **One step on words**: the pair is doubled, and the divisor is taken away when the sign of the difference is
positive. -/
theorem step_spec (src2 : BitVec 32) (r : Restore) {w t : ℕ} (hw : w = 2 * r.pair % 2 ^ 64)
    (ht : t = (w + 2 ^ 64 - 2 ^ 32 * src2.toNat) % 2 ^ 64) :
    (step src2 r).pair = (if t < 2 ^ 63 then t else w) ∧
      (step src2 r).dest.toNat = 2 * r.dest.toNat % 2 ^ 32 + if t < 2 ^ 63 then 1 else 0 := by
  obtain ⟨hhigh, hhigh'⟩ := shiftLeft_one_or r.src1
  obtain ⟨hlow, -⟩ := shiftLeft_one_or r.src1h
  obtain ⟨hdest, hdest'⟩ := shiftLeft_one_or r.dest
  have hs := r.src1.isLt
  have hl := r.src1h.isLt
  have hd := src2.isLt
  rw [pair] at hw
  have hfirst : (if r.src1h &&& msign ≠ 0 then r.src1 <<< 1 ||| 1 else r.src1 <<< 1).toNat = w / 2 ^ 32 := by
    split_ifs with hsign
    · rw [ne_eq, and_msign_eq_zero] at hsign
      rw [hhigh']
      omega
    · rw [not_not, and_msign_eq_zero] at hsign
      rw [hhigh]
      omega
  rw [step]
  have hdesth : ((if r.src1h &&& msign ≠ 0 then r.src1 <<< 1 ||| 1 else r.src1 <<< 1) - src2).toNat = t / 2 ^ 32 := by
    rw [BitVec.toNat_sub, hfirst]
    omega
  by_cases hsign : t < 2 ^ 63
  · rw [if_pos ((and_msign_eq_zero _).mpr (by rw [hdesth]; omega)), if_pos hsign, if_pos hsign, pair, hdesth, hlow, hdest']
    exact ⟨by omega, rfl⟩
  · rw [if_neg (mt (and_msign_eq_zero _).mp (by rw [hdesth]; omega)), if_neg hsign, if_neg hsign, pair, hfirst, hlow, hdest]
    exact ⟨by omega, rfl⟩

/-! ### All the steps -/

/-- A dividend that is small enough is divided without a carry that is lost. -/
lemma step_small (hd : src2.toNat ≤ 2 ^ 31) (hlt : r.pair < 2 ^ 32 * src2.toNat) {q : ℕ} (hq : r.dest.toNat = q % 2 ^ 32) :
    (step src2 r).pair = (Restoring.step (2 ^ 32) src2.toNat (r.pair, q)).1 ∧
      (step src2 r).dest.toNat = (Restoring.step (2 ^ 32) src2.toNat (r.pair, q)).2 % 2 ^ 32 := by
  obtain ⟨hpair, hdest⟩ := step_spec src2 r rfl rfl
  rw [hpair, hdest, hq, Restoring.step]
  dsimp only
  by_cases hle : 2 ^ 32 * src2.toNat ≤ 2 * r.pair
  · rw [if_pos hle, if_pos (by omega), if_pos (by omega)]
    dsimp only
    omega
  · rw [if_neg hle, if_neg (by omega), if_neg (by omega)]
    dsimp only
    omega

/-- **The quotient and the remainder**, when the quotient is a word. -/
theorem run_small (hd : src2.toNat ≤ 2 ^ 31) (hdest : r.dest = 0) (hlt : r.pair < 2 ^ 32 * src2.toNat) :
    ((step src2)^[32] r).src1.toNat = r.pair % src2.toNat ∧ ((step src2)^[32] r).dest.toNat = r.pair / src2.toNat := by
  have hrun (n : ℕ) : ((step src2)^[n] r).pair = ((Restoring.step (2 ^ 32) src2.toNat)^[n] (r.pair, 0)).1 ∧
      ((step src2)^[n] r).dest.toNat = ((Restoring.step (2 ^ 32) src2.toNat)^[n] (r.pair, 0)).2 % 2 ^ 32 := by
    induction n with
    | zero => exact ⟨rfl, by rw [Function.iterate_zero, id, hdest]; rfl⟩
    | succ n ih =>
        have hbelow := (Restoring.run (s := (r.pair, 0)) hlt n).1
        rw [← ih.1] at hbelow
        obtain ⟨hpair, hquotient⟩ := step_small hd hbelow ih.2
        rw [Function.iterate_succ_apply', Function.iterate_succ_apply', hpair, hquotient, ih.1]
        exact ⟨rfl, rfl⟩
  obtain ⟨hpair, hquotient⟩ := hrun 32
  obtain ⟨hleft, hbits⟩ := Restoring.quotient (n := 32) hlt
  rw [hleft, pair] at hpair
  rw [hbits, Nat.mod_eq_of_lt (Nat.div_lt_of_lt_mul (by rwa [mul_comm]))] at hquotient
  have hlow := ((step src2)^[32] r).src1h.isLt
  exact ⟨by omega, hquotient⟩

/-- The bits that some steps put into the quotient. -/
lemma run_dest (src2 : BitVec 32) (r : Restore) (n : ℕ) :
    ∃ q < 2 ^ n, ((step src2)^[n] r).dest.toNat = (2 ^ n * r.dest.toNat + q) % 2 ^ 32 := by
  induction n with
  | zero =>
      refine ⟨0, by norm_num, ?_⟩
      rw [Function.iterate_zero, id, pow_zero, one_mul, add_zero, Nat.mod_eq_of_lt r.dest.isLt]
  | succ n ih =>
      obtain ⟨q, hq, hrun⟩ := ih
      obtain ⟨-, hdest⟩ := step_spec src2 ((step src2)^[n] r) rfl rfl
      rw [Function.iterate_succ_apply', hdest, hrun]
      have hpow : 2 ^ (n + 1) * r.dest.toNat = 2 * (2 ^ n * r.dest.toNat) := by ring
      split_ifs
      · exact ⟨2 * q + 1, by omega, by rw [hpow]; omega⟩
      · exact ⟨2 * q, by omega, by rw [hpow]; omega⟩

/-- When the partial remainder has been carried out of its word, the bits of the quotient are zero as long as the
difference to the word stays small. The difference is `p`. -/
lemma run_carried {p : ℕ} (hd : 0 < src2.toNat) (hpair : (r.pair + p) % 2 ^ 63 = 0) (hp : 0 < p)
    (hfit : 2 * p + 2 ^ 32 * src2.toNat ≤ 2 ^ 64) (n : ℕ) : ∃ q < 2 ^ n,
      ((step src2)^[n] r).dest.toNat = (2 ^ n * r.dest.toNat + q) % 2 ^ 32 ∧
        (q = 0 ↔ n = 0 ∨ 2 ^ n * p + 2 ^ 32 * src2.toNat ≤ 2 ^ 63) := by
  induction n generalizing r p with
  | zero =>
      refine ⟨0, by norm_num, ?_, by simp⟩
      rw [Function.iterate_zero, id, pow_zero, one_mul, add_zero, Nat.mod_eq_of_lt r.dest.isLt]
  | succ n ih =>
      obtain ⟨hnext, hdest⟩ := step_spec src2 r rfl rfl
      have hlt := r.pair_lt
      have hdouble : 2 * r.pair % 2 ^ 64 = 2 ^ 64 - 2 * p := by omega
      rw [Function.iterate_succ_apply]
      rw [hdouble] at hnext hdest
      by_cases hzero : 2 * p + 2 ^ 32 * src2.toNat ≤ 2 ^ 63
      · rw [if_neg (by omega)] at hnext hdest
        obtain ⟨q, hq, hrun, hbits⟩ := ih (r := step src2 r) (p := 2 * p) (by rw [hnext]; omega) (by omega) (by omega)
        refine ⟨q, hq.trans (by rw [pow_succ]; omega), ?_, ?_⟩
        · have hpow : 2 ^ (n + 1) * r.dest.toNat = 2 ^ n * (2 * r.dest.toNat) := by ring
          rw [hrun, hdest, hpow, add_zero, Nat.add_mod, Nat.mul_mod_mod, ← Nat.add_mod]
        · rw [hbits, show 2 ^ (n + 1) * p = 2 ^ n * (2 * p) by ring]
          constructor
          · rintro (rfl | hle)
            · exact .inr (by omega)
            · exact .inr hle
          · rintro (hno | hle)
            · omega
            · exact .inr hle
      · rw [if_pos (by omega)] at hdest
        obtain ⟨q, hq, hrun⟩ := run_dest src2 (step src2 r) n
        have hpow := Nat.two_pow_pos n
        refine ⟨2 ^ n + q, by rw [pow_succ]; omega, ?_, ?_⟩
        · have hbit : (2 * r.dest.toNat % 2 ^ 32 + 1) % 2 ^ 32 = (2 * r.dest.toNat + 1) % 2 ^ 32 := by omega
          rw [hrun, hdest, Nat.add_mod, ← Nat.mul_mod_mod, hbit, Nat.mul_mod_mod, ← Nat.add_mod]
          congr 1
          ring
        · have hle : 2 * p ≤ 2 ^ (n + 1) * p := Nat.mul_le_mul_right p (by rw [pow_succ]; omega)
          omega

/-- **A dividend with a quotient that is not a word**: the exception is missed when the first bit of the quotient is
zero, and when all the others are. -/
theorem run_large (hd : 0 < src2.toNat) (hd' : src2.toNat ≤ 2 ^ 31) (hdest : r.dest = 0) (hle : 2 ^ 32 * src2.toNat ≤ r.pair)
    (hmax : r.pair ≤ 2 ^ 63) :
    2 ^ 31 < ((step src2)^[32] r).dest.toNat ↔ r.pair + 2 ^ 31 < 2 ^ 62 + (2 ^ 31 + 1) * src2.toNat := by
  obtain ⟨hnext, hbit⟩ := step_spec src2 r rfl rfl
  have hzero : r.dest.toNat = 0 := by rw [hdest]; rfl
  rw [show (step src2)^[32] r = (step src2)^[31] (step src2 r) from Function.iterate_succ_apply _ 31 r]
  by_cases hfirst : r.pair < 2 ^ 62 + 2 ^ 31 * src2.toNat
  · rw [if_pos (by omega)] at hnext hbit
    have hpair : (step src2 r).pair = 2 * r.pair - 2 ^ 32 * src2.toNat := by omega
    obtain ⟨q, hq, hrun, hbits⟩ := run_carried (r := step src2 r) (p := 2 ^ 63 + 2 ^ 32 * src2.toNat - 2 * r.pair) hd
      (by rw [hpair]; omega) (by omega) (by omega) 31
    have hvalue : ((step src2)^[31] (step src2 r)).dest.toNat = 2 ^ 31 + q := by
      rw [hrun, hbit, hzero]
      omega
    rw [hvalue]
    omega
  · rw [if_neg (by omega)] at hbit
    obtain ⟨q, hq, hrun⟩ := run_dest src2 (step src2 r) 31
    rw [hrun, hbit, hzero]
    omega

end Restore

/-! ### The signs -/

lemma negative_iff (x : BitVec 32) : x &&& msign ≠ 0 ↔ x.toInt < 0 := by
  rw [ne_eq, and_msign_eq_zero, BitVec.toInt_eq_toNat_cond]
  have hlt := x.isLt
  split_ifs <;> omega

lemma neg_toNat (x : BitVec 32) : (if x &&& msign ≠ 0 then -x else x).toNat = x.toInt.natAbs := by
  have hlt := x.isLt
  rw [BitVec.toInt_eq_toNat_cond]
  split_ifs with hsign hhalf hhalf
  · rw [ne_eq, and_msign_eq_zero] at hsign
    omega
  · rw [ne_eq, and_msign_eq_zero] at hsign
    rw [BitVec.toNat_neg]
    omega
  · omega
  · rw [not_not, and_msign_eq_zero] at hsign
    omega

/-- The complement of the two words is that of the double word. -/
lemma complement_pair {src1 src1h : BitVec 32} (h : src1 &&& msign ≠ 0) :
    (complement src1 src1h).1.toNat * 2 ^ 32 + (complement src1 src1h).2.toNat = 2 ^ 64 - (src1.toNat * 2 ^ 32 + src1h.toNat) := by
  have hs := src1.isLt
  have hl := src1h.isLt
  rw [ne_eq, and_msign_eq_zero] at h
  have hnot (x : BitVec 32) : x ^^^ fmask = ~~~x := by
    rw [show fmask = BitVec.allOnes 32 by decide, BitVec.xor_allOnes]
  have hmask : fmask.toNat = 2 ^ 32 - 1 := by decide
  have hone : (1 : BitVec 32).toNat = 1 := by decide
  rw [complement, hnot, hnot]
  dsimp only
  split_ifs with hcarry <;>
    simp only [← BitVec.toNat_inj, hmask, BitVec.toNat_not, BitVec.toNat_add, hone] at hcarry ⊢ <;> omega

/-- **The absolute value of the dividend**, in the two words. -/
lemma number_pair (src1 src1h : BitVec 32) :
    (if src1 &&& msign ≠ 0 then complement src1 src1h else (src1, src1h)).1.toNat * 2 ^ 32 +
      (if src1 &&& msign ≠ 0 then complement src1 src1h else (src1, src1h)).2.toNat = (src1 ++ src1h).toInt.natAbs ∧
    (src1 &&& msign ≠ 0 ↔ (src1 ++ src1h).toInt < 0) := by
  have hs := src1.isLt
  have hl := src1h.isLt
  have hvalue : (src1 ++ src1h).toNat = src1.toNat * 2 ^ 32 + src1h.toNat := by
    rw [BitVec.toNat_append, shiftLeft_or_eq hl]
  have hpair : (src1 ++ src1h).toInt =
      if 2 * (src1.toNat * 2 ^ 32 + src1h.toNat) < 2 ^ 64 then ((src1.toNat * 2 ^ 32 + src1h.toNat : ℕ) : ℤ)
      else ((src1.toNat * 2 ^ 32 + src1h.toNat : ℕ) : ℤ) - 2 ^ 64 := by
    rw [BitVec.toInt_eq_toNat_cond, hvalue]
    rfl
  rw [hpair]
  by_cases hsign : src1 &&& msign ≠ 0
  · have hcomplement := @complement_pair _ src1h hsign
    rw [if_pos hsign, hcomplement]
    rw [ne_eq, and_msign_eq_zero] at hsign
    rw [if_neg (by omega), ne_eq, and_msign_eq_zero]
    omega
  · rw [if_neg hsign]
    rw [not_not, and_msign_eq_zero] at hsign
    rw [if_pos (by omega), ne_eq, and_msign_eq_zero]
    dsimp only
    omega

/-- A word with its sign changed. -/
lemma toInt_signed {x : BitVec 32} (p : Prop) [Decidable p] (h : x.toNat < 2 ^ 31 ∨ x.toNat = 2 ^ 31 ∧ p) :
    (if p then -x else x).toInt = if p then -(x.toNat : ℤ) else x.toNat := by
  have hlt := x.isLt
  by_cases hp : p
  · have hle : x.toNat ≤ 2 ^ 31 := by omega
    rw [if_pos hp, if_pos hp, BitVec.toInt_eq_toNat_cond, BitVec.toNat_neg]
    split_ifs <;> omega
  · have hlt' : x.toNat < 2 ^ 31 := h.resolve_right fun hand ↦ hp hand.2
    rw [if_neg hp, if_neg hp, BitVec.toInt_eq_toNat_cond, if_pos (by omega)]

/-- The exact quotient. -/
lemma tdiv_signed (x d : ℤ) :
    x.tdiv d = if (x < 0 ↔ d < 0) then ((x.natAbs / d.natAbs : ℕ) : ℤ) else -((x.natAbs / d.natAbs : ℕ) : ℤ) := by
  have hnat (n m : ℕ) : (n : ℤ).tdiv m = ((n / m : ℕ) : ℤ) := (Int.ofNat_tdiv n m).symm
  by_cases hx : x < 0 <;> by_cases hd : d < 0
  · have hx' : x = -(x.natAbs : ℤ) := by omega
    have hd' : d = -(d.natAbs : ℤ) := by omega
    rw [if_pos (by tauto)]
    conv_lhs => rw [hx', hd', Int.neg_tdiv, Int.tdiv_neg, neg_neg, hnat]
  · have hx' : x = -(x.natAbs : ℤ) := by omega
    have hd' : d = (d.natAbs : ℤ) := by omega
    rw [if_neg (by tauto)]
    conv_lhs => rw [hx', hd', Int.neg_tdiv, hnat]
  · have hx' : x = (x.natAbs : ℤ) := by omega
    have hd' : d = -(d.natAbs : ℤ) := by omega
    rw [if_neg (by tauto)]
    conv_lhs => rw [hx', hd', Int.tdiv_neg, hnat]
  · have hx' : x = (x.natAbs : ℤ) := by omega
    have hd' : d = (d.natAbs : ℤ) := by omega
    rw [if_pos (by tauto)]
    conv_lhs => rw [hx', hd', hnat]

/-- The exact remainder. -/
lemma tmod_signed (x d : ℤ) :
    x.tmod d = if x < 0 then -((x.natAbs % d.natAbs : ℕ) : ℤ) else ((x.natAbs % d.natAbs : ℕ) : ℤ) := by
  have hnat (n : ℕ) : (n : ℤ).tmod d = ((n % d.natAbs : ℕ) : ℤ) := by
    rcases Int.natAbs_eq d with hd | hd
    · conv_lhs => rw [hd]
      exact (Int.ofNat_tmod n d.natAbs).symm
    · conv_lhs => rw [hd, Int.tmod_neg]
      exact (Int.ofNat_tmod n d.natAbs).symm
  by_cases hx : x < 0
  · have hx' : x = -(x.natAbs : ℤ) := by omega
    rw [if_pos hx]
    conv_lhs => rw [hx', Int.neg_tmod, hnat]
  · have hx' : x = (x.natAbs : ℤ) := by omega
    rw [if_neg hx]
    conv_lhs => rw [hx', hnat]

/-! ### The instruction -/

/-- The dividends that are divided right: the quotient does not become 2 to the 31st with the sign plus, and a number
with a quotient of more than a word is not so great that its carries are lost. -/
def DividesRight (x d : ℤ) : Prop :=
  d ≠ 0 → if |x| < 2 ^ 32 * |d| then ¬ (2 ^ 31 * |d| ≤ |x| ∧ |x| < (2 ^ 31 + 1) * |d| ∧ (x < 0 ↔ d < 0))
    else |x| + 2 ^ 31 < 2 ^ 62 + (2 ^ 31 + 1) * |d|

variable {s : Registers} {reg1 : ℕ} {src2 : BitVec 32}

/-- The variables before the first step and after the last. -/
def Restore.start (s : Registers) (reg1 : ℕ) : Restore :=
  let number := if s.regs reg1 &&& msign ≠ 0 then complement (s.regs reg1) (s.regs (reg1 ||| 1))
    else (s.regs reg1, s.regs (reg1 ||| 1))
  ⟨number.1, number.2, 0⟩

def Restore.done (s : Registers) (reg1 : ℕ) (src2 : BitVec 32) : Restore :=
  (Restore.step (if src2 &&& msign ≠ 0 then -src2 else src2))^[32] (Restore.start s reg1)

lemma start_pair (s : Registers) (reg1 : ℕ) : (Restore.start s reg1).pair = (dividend s reg1).natAbs :=
  (number_pair (s.regs reg1) (s.regs (reg1 ||| 1))).1

lemma divide_eq (hreg : reg1 &&& 1 = 0) (hzero : src2 ≠ 0) : divide s reg1 src2 =
    if 2 ^ 31 < (Restore.done s reg1 src2).dest.toNat then (some ircFixdiv, s)
    else (none,
      { regs := Function.update (Function.update s.regs reg1
          (if dividend s reg1 < 0 then -(Restore.done s reg1 src2).src1 else (Restore.done s reg1 src2).src1)) (reg1 ||| 1)
          (if dividend s reg1 < 0 ↔ src2.toInt < 0 then (Restore.done s reg1 src2).dest
            else -(Restore.done s reg1 src2).dest)
        perMod := s.perMod ||| 3 <<< reg1 }) := by
  have hoverflow (x : BitVec 32) : (x &&& msign ≠ 0 ∧ x ≠ msign) ↔ 2 ^ 31 < x.toNat := by
    have hvalue : msign.toNat = 2 ^ 31 := by decide
    rw [ne_eq, ne_eq, and_msign_eq_zero, ← BitVec.toNat_inj, hvalue]
    omega
  have hdone : Restore.done s reg1 src2 = (Restore.step (if src2 &&& msign ≠ 0 then -src2 else src2))^[32]
      ⟨(if s.regs reg1 &&& msign ≠ 0 then complement (s.regs reg1) (s.regs (reg1 ||| 1))
        else (s.regs reg1, s.regs (reg1 ||| 1))).1,
      (if s.regs reg1 &&& msign ≠ 0 then complement (s.regs reg1) (s.regs (reg1 ||| 1))
        else (s.regs reg1, s.regs (reg1 ||| 1))).2, 0⟩ := rfl
  rw [divide, if_neg (not_not.mpr hreg), if_neg hzero]
  dsimp only
  rw [← hdone]
  simp only [hoverflow, negative_iff src2, (number_pair (s.regs reg1) (s.regs (reg1 ||| 1))).2]
  rfl

/-- The steps of the division, in the absolute values. -/
lemma done_small (h : (dividend s reg1).natAbs < 2 ^ 32 * src2.toInt.natAbs) :
    (Restore.done s reg1 src2).src1.toNat = (dividend s reg1).natAbs % src2.toInt.natAbs ∧
      (Restore.done s reg1 src2).dest.toNat = (dividend s reg1).natAbs / src2.toInt.natAbs := by
  have hbound := src2.le_toInt
  have hbound' := src2.toInt_lt
  rw [← start_pair, ← neg_toNat] at h ⊢
  refine Restore.run_small ?_ rfl h
  rw [neg_toNat]
  norm_num at hbound hbound'
  omega

lemma done_large (hzero : src2.toInt ≠ 0) (h : 2 ^ 32 * src2.toInt.natAbs ≤ (dividend s reg1).natAbs) :
    2 ^ 31 < (Restore.done s reg1 src2).dest.toNat ↔
      (dividend s reg1).natAbs + 2 ^ 31 < 2 ^ 62 + (2 ^ 31 + 1) * src2.toInt.natAbs := by
  have hbound := src2.le_toInt
  have hbound' := src2.toInt_lt
  have hnumber : -2 ^ 63 ≤ dividend s reg1 ∧ dividend s reg1 < 2 ^ 63 := ⟨BitVec.le_toInt _, BitVec.toInt_lt⟩
  norm_num at hbound hbound'
  rw [← start_pair, ← neg_toNat] at h ⊢
  refine Restore.run_large ?_ ?_ rfl h ?_
  · rw [neg_toNat]
    omega
  · rw [neg_toNat]
    omega
  · rw [start_pair]
    omega

/-- A quotient of 32 bits, by its absolute value. -/
lemma quotient_fits_iff (x d : ℤ) : (-2 ^ 31 ≤ x.tdiv d ∧ x.tdiv d < 2 ^ 31) ↔
    x.natAbs / d.natAbs < 2 ^ 31 ∨ x.natAbs / d.natAbs = 2 ^ 31 ∧ ¬ (x < 0 ↔ d < 0) := by
  rw [tdiv_signed]
  generalize x.natAbs / d.natAbs = q
  by_cases hsign : x < 0 ↔ d < 0
  · rw [if_pos hsign]
    constructor
    · rintro ⟨-, h⟩
      exact .inl (by omega)
    · rintro (h | ⟨-, h⟩)
      · omega
      · exact absurd hsign h
  · rw [if_neg hsign]
    constructor
    · rintro ⟨h, -⟩
      rcases (by omega : q < 2 ^ 31 ∨ q = 2 ^ 31) with hlt | heq
      · exact .inl hlt
      · exact .inr ⟨heq, hsign⟩
    · rintro (h | ⟨h, -⟩) <;> omega

/-- The exact quotient and remainder are what has to be delivered. -/
lemma divided_of_exact {t : Registers} (hreg : reg1 &&& 1 = 0) (hzero : src2.toInt ≠ 0)
    (hfits : -2 ^ 31 ≤ (dividend s reg1).tdiv src2.toInt ∧ (dividend s reg1).tdiv src2.toInt < 2 ^ 31)
    {src1 dest : BitVec 32} (hsrc1 : src1.toInt = (dividend s reg1).tmod src2.toInt)
    (hdest : dest.toInt = (dividend s reg1).tdiv src2.toInt)
    (ht : t.regs = Function.update (Function.update s.regs reg1 src1) (reg1 ||| 1) dest) : Divided s reg1 src2 (none, t) := by
  have hpair : reg1 ≠ reg1 ||| 1 := fun heq ↦ by
    have hodd := congrArg (· &&& 1) heq
    simp only [Nat.and_or_distrib_right, hreg] at hodd
    exact absurd hodd (by decide)
  have hlow : t.regs (reg1 ||| 1) = dest := by rw [ht, Function.update_self]
  have hhigh : t.regs reg1 = src1 := by rw [ht, Function.update_of_ne hpair, Function.update_self]
  rw [Divided]
  dsimp only
  rw [if_pos ⟨hzero, hfits⟩, hlow, hhigh, hsrc1, hdest]
  refine ⟨rfl, Int.tdiv_mul_add_tmod _ _, ?_, ?_, fun i hi hi' ↦ ?_⟩
  · have hlt : (dividend s reg1).natAbs % src2.toInt.natAbs < src2.toInt.natAbs := Nat.mod_lt _ (by omega)
    rw [Int.abs_eq_natAbs, Int.abs_eq_natAbs, tmod_signed]
    split_ifs <;> omega
  · rw [tmod_signed]
    split_ifs with hsign
    · exact mul_nonneg_of_nonpos_of_nonpos (by omega) hsign.le
    · exact mul_nonneg (by omega) (by omega)
  · rw [ht, Function.update_of_ne hi', Function.update_of_ne hi]

/-- Without an exception the quotient has to fit, and with one it must not. -/
lemma divided_none {t : Registers} (h : Divided s reg1 src2 (none, t)) :
    -2 ^ 31 ≤ (dividend s reg1).tdiv src2.toInt ∧ (dividend s reg1).tdiv src2.toInt < 2 ^ 31 := by
  rw [Divided] at h
  dsimp only at h
  split_ifs at h with hfits
  · exact hfits.2
  · cases h

lemma divided_exception (hzero : src2.toInt ≠ 0) : Divided s reg1 src2 (some ircFixdiv, s) ↔
    ¬ (-2 ^ 31 ≤ (dividend s reg1).tdiv src2.toInt ∧ (dividend s reg1).tdiv src2.toInt < 2 ^ 31) := by
  rw [Divided]
  dsimp only
  split_ifs with hfits
  · exact ⟨fun h ↦ absurd h.1 (by simp), fun h ↦ absurd hfits.2 h⟩
  · exact ⟨fun _ h ↦ hfits ⟨hzero, h⟩, fun _ ↦ rfl⟩

/-- The condition in absolute values. -/
lemma dividesRight_iff (x : ℤ) {d : ℤ} (hd : d ≠ 0) : DividesRight x d ↔
    if x.natAbs < 2 ^ 32 * d.natAbs then ¬ (x.natAbs / d.natAbs = 2 ^ 31 ∧ (x < 0 ↔ d < 0))
    else x.natAbs + 2 ^ 31 < 2 ^ 62 + (2 ^ 31 + 1) * d.natAbs := by
  have hpos : 0 < d.natAbs := Int.natAbs_pos.mpr hd
  have hquotient : x.natAbs / d.natAbs = 2 ^ 31 ↔ 2 ^ 31 * d.natAbs ≤ x.natAbs ∧ x.natAbs < (2 ^ 31 + 1) * d.natAbs := by
    rw [Nat.div_eq_iff hpos]
    omega
  rw [DividesRight, Int.abs_eq_natAbs, Int.abs_eq_natAbs, hquotient]
  generalize x.natAbs = n
  generalize d.natAbs = m
  by_cases hsmall : n < 2 ^ 32 * m
  · rw [if_pos hsmall, if_pos (by exact_mod_cast hsmall)]
    rw [and_assoc]
    exact ⟨fun h ↦ by exact_mod_cast h hd, fun h _ ↦ by exact_mod_cast h⟩
  · rw [if_neg hsmall, if_neg (by exact_mod_cast hsmall)]
    exact ⟨fun h ↦ by exact_mod_cast h hd, fun h _ ↦ by exact_mod_cast h⟩

/-- A quotient of a word. -/
lemma divide_small (hreg : reg1 &&& 1 = 0) (hd : src2.toInt ≠ 0)
    (hsmall : (dividend s reg1).natAbs < 2 ^ 32 * src2.toInt.natAbs) : Divided s reg1 src2 (divide s reg1 src2) ↔
      ¬ ((dividend s reg1).natAbs / src2.toInt.natAbs = 2 ^ 31 ∧ (dividend s reg1 < 0 ↔ src2.toInt < 0)) := by
  have hzero : src2 ≠ 0 := fun heq ↦ hd (by rw [heq]; rfl)
  have hpos : 0 < src2.toInt.natAbs := Int.natAbs_pos.mpr hd
  have hbound := src2.le_toInt
  have hbound' := src2.toInt_lt
  norm_num at hbound hbound'
  have hmod : (dividend s reg1).natAbs % src2.toInt.natAbs < src2.toInt.natAbs := Nat.mod_lt _ hpos
  obtain ⟨hsrc1, hdest⟩ := done_small hsmall
  rw [divide_eq hreg hzero]
  by_cases hgreat : 2 ^ 31 < (dividend s reg1).natAbs / src2.toInt.natAbs
  · rw [hdest, if_pos hgreat, divided_exception hd, quotient_fits_iff]
    exact iff_of_true (by omega) (by omega)
  · rw [hdest, if_neg hgreat]
    by_cases hwrong : (dividend s reg1).natAbs / src2.toInt.natAbs = 2 ^ 31 ∧ (dividend s reg1 < 0 ↔ src2.toInt < 0)
    · refine iff_of_false (fun h ↦ ?_) fun h ↦ h hwrong
      rcases (quotient_fits_iff _ _).mp (divided_none h) with hlt | ⟨-, hsign⟩
      · omega
      · exact hsign hwrong.2
    · have hfits : (dividend s reg1).natAbs / src2.toInt.natAbs < 2 ^ 31 ∨
          (dividend s reg1).natAbs / src2.toInt.natAbs = 2 ^ 31 ∧ ¬ (dividend s reg1 < 0 ↔ src2.toInt < 0) := by
        by_cases heq : (dividend s reg1).natAbs / src2.toInt.natAbs = 2 ^ 31
        · exact .inr ⟨heq, fun hsign ↦ hwrong ⟨heq, hsign⟩⟩
        · exact .inl (by omega)
      refine iff_of_true (divided_of_exact hreg hd ((quotient_fits_iff _ _).mpr hfits) ?_ ?_ rfl) hwrong
      · rw [toInt_signed _ (by rw [hsrc1]; omega), hsrc1, tmod_signed]
      · rw [← ite_not, toInt_signed _ (by rw [hdest]; exact hfits), hdest, ite_not, tdiv_signed]

/-- A greater quotient. -/
lemma divide_large (hreg : reg1 &&& 1 = 0) (hd : src2.toInt ≠ 0)
    (hlarge : 2 ^ 32 * src2.toInt.natAbs ≤ (dividend s reg1).natAbs) : Divided s reg1 src2 (divide s reg1 src2) ↔
      (dividend s reg1).natAbs + 2 ^ 31 < 2 ^ 62 + (2 ^ 31 + 1) * src2.toInt.natAbs := by
  have hzero : src2 ≠ 0 := fun heq ↦ hd (by rw [heq]; rfl)
  have hgreat : 2 ^ 32 ≤ (dividend s reg1).natAbs / src2.toInt.natAbs :=
    (Nat.le_div_iff_mul_le (Int.natAbs_pos.mpr hd)).mpr hlarge
  have hnot : ¬ (-2 ^ 31 ≤ (dividend s reg1).tdiv src2.toInt ∧ (dividend s reg1).tdiv src2.toInt < 2 ^ 31) := by
    rw [quotient_fits_iff]
    omega
  rw [divide_eq hreg hzero, ← done_large hd hlarge]
  by_cases hraised : 2 ^ 31 < (Restore.done s reg1 src2).dest.toNat
  · rw [if_pos hraised, divided_exception hd]
    exact iff_of_true hnot hraised
  · rw [if_neg hraised]
    exact iff_of_false (fun h ↦ hnot (divided_none h)) hraised

/-- **D and DR**: the quotient and the remainder, or the exception, exactly when the quotient is not 2 to the 31st
and a dividend that is too large does not lose a carry. -/
theorem divide_iff (s : Registers) (reg1 : ℕ) (src2 : BitVec 32) (hreg : reg1 &&& 1 = 0) :
    Divided s reg1 src2 (divide s reg1 src2) ↔ DividesRight (dividend s reg1) src2.toInt := by
  by_cases hd : src2.toInt = 0
  · have hzero : src2 = 0 := BitVec.toInt_inj.mp hd
    have hdivide : divide s reg1 src2 = (some ircFixdiv, s) := by rw [divide, if_neg (not_not.mpr hreg), if_pos hzero]
    refine iff_of_true ?_ fun hne ↦ absurd hd hne
    rw [hdivide, Divided]
    dsimp only
    rw [if_neg fun hand ↦ hand.1 hd]
  · rw [dividesRight_iff _ hd]
    by_cases hsmall : (dividend s reg1).natAbs < 2 ^ 32 * src2.toInt.natAbs
    · rw [if_pos hsmall, divide_small hreg hd hsmall]
    · rw [if_neg hsmall, divide_large hreg hd (by omega)]

/-- The registers of a division of 2 to the 31st by 1. -/
def halfRange : Registers := ⟨fun i ↦ if i = 1 then msign else 0, 0⟩

/-- A dividend of the greatest quotient. -/
theorem divide_iff_pair : Divided halfRange 0 2 (divide halfRange 0 2) :=
  (divide_iff halfRange 0 2 rfl).mpr fun _ ↦ by decide

/-- **A quotient of 2 to the 31st** is delivered as its negative, without the exception. -/
theorem divide_wrong : dividend halfRange 0 = 2 ^ 31 ∧ (divide halfRange 0 1).1 = none ∧
    ((divide halfRange 0 1).2.regs 1).toInt = -2 ^ 31 ∧ ¬ Divided halfRange 0 1 (divide halfRange 0 1) := by
  have hnone : (divide halfRange 0 1).1 = none := by decide +kernel
  refine ⟨by decide +kernel, hnone, by decide +kernel, fun h ↦ ?_⟩
  rw [Divided] at h
  rw [if_neg (by decide)] at h
  rw [h] at hnone
  cases hnone

end Ka10Simh.Ibm360
