import Ka10Simh.Pdp10.Config
import Ka10Simh.Pdp10.Float.Number

/-!
The end of the floating point instructions: `fnorm`, where a fraction of 61 bits with its sign is shifted until
it is normalized, rounded and put together with its exponent.

The fraction is in bits 60 to 0 of a register of 64 bits, in two's complement. The fraction minus one is
normalized for the loop, but not for a word; it becomes minus one half, and so do the fractions that
differ from minus one only in the bits that are dropped.

* `fnorm`: the source, for all processors.
* `shiftUp_ends`: the loop ends by its test.
* `Norm`: a fraction that is shifted until it is normalized, as numbers.
* `fnormx_spec`: what is shifted and rounded, as numbers.
-/

namespace Ka10Simh.Pdp10.Fp

/-! ### The source -/

abbrev fphbit : BitVec 64 := 0o1000000000000000000000
abbrev fpsbit : BitVec 64 := 0o400000000000000000000
abbrev fpnbit : BitVec 64 := 0o200000000000000000000
abbrev fp1bit : BitVec 64 := 0o100000000000000000000
abbrev fpfmask : BitVec 64 := 0o1777777777777777777777
abbrev fprmask : BitVec 64 := 0o177777777777
abbrev fprbit2 : BitVec 64 := 0o100000000000
abbrev fprbit1 : BitVec 64 := 0o200000000000

/-- `FLAGS`: the processors do not all have all of them. -/
abbrev ovr : ℕ := 0o10000
def fltovr (c : Build) : ℕ := if c = .pdp6 then 0o10000 else 0o1000
def fltund (c : Build) : ℕ := if c = .pdp6 then 0 else 2
def nodiv (c : Build) : ℕ := if c = .pdp6 then 0 else 1
def trp1 (c : Build) : ℕ := if c = .pdp6 ∨ c = .ka then 0 else 4

/-- `#if KL | KS`. -/
def isKl (c : Build) : Bool := c = .kl ∨ c = .ks

/-- `SC & (1 << k)`. -/
def scBit (sc : ℤ) (k : ℕ) : Bool := sc / 2 ^ k % 2 = 1

/-- `AR`, `SC` and `flag3`. -/
@[ext] structure Reg where
  ar : BitVec 64
  sc : ℤ
  flag3 : BitVec 64

/-- `(AR & FPHBIT) | (AR >> 1)`. -/
def halve (ar : BitVec 64) : BitVec 64 := ar &&& fphbit ||| ar >>> 1

/-- `SC++`, and the bit that is shifted out. -/
def Reg.down (r : Reg) : Reg := ⟨halve r.ar, r.sc + 1, r.ar &&& 1⟩

/-- The sign and the first two bits of the fraction are the same. -/
def unnormal (ar : BitVec 64) : Bool :=
  ar ≠ 0 ∧ (ar &&& fpsbit ≠ 0 ↔ ar &&& fpnbit ≠ 0) ∧ (ar &&& fpnbit ≠ 0 ↔ ar &&& fp1bit ≠ 0)

/-- The loop at `fnormx`, for `k` turns at most. A PDP6 puts the bit back that has been shifted out. -/
def shiftUp (c : Build) : ℕ → Reg → Reg
  | 0, r => r
  | k + 1, r =>
      if unnormal r.ar then
        shiftUp c k (if c = .pdp6 then ⟨r.ar <<< 1 ||| r.flag3, r.sc - 1, 0⟩ else ⟨r.ar <<< 1, r.sc - 1, r.flag3⟩)
      else r

/-- The edge case of a minus and overflow bit. -/
def edge (r : Reg) : Reg :=
  if r.ar &&& 0o777777777600000000000 = fpsbit ||| fpnbit then { r with ar := halve r.ar, sc := r.sc + 1 } else r

/-- `AR` rounded. -/
def roundAr (c : Build) (ir : ℕ) (ar : BitVec 64) : BitVec 64 :=
  if c = .pdp6 then ar + fprbit1
  else
    (if ir &&& 0o70 ≠ 0o70 ∧ ar &&& fpsbit ≠ 0 ∧ ar &&& fprmask ≠ fprbit2 ∨ ar &&& fpsbit = 0 ∨ ar &&& fprmask ≠ fprbit2
      then ar + fprbit1 else ar) &&& ~~~fprmask

/-- The rounding, with the carry out of the fraction. -/
def round (c : Build) (ir : ℕ) (r : Reg) : Reg :=
  let ar := roundAr c ir r.ar
  if (ar &&& fp1bit ≠ 0) ≠ (r.ar &&& fp1bit ≠ 0) then Reg.down ⟨ar, r.sc, 0⟩ else ⟨ar, r.sc, 0⟩

/-- `fnormx`, which is gone through once more after the rounding. -/
def fnormx (c : Build) (ir : ℕ) (r : Reg) : Reg :=
  let r := edge (shiftUp c 65 r)
  if ir &&& 0o4 ≠ 0 ∧ r.ar &&& fprbit2 ≠ 0 then edge (shiftUp c 65 (round c ir r)) else r

/-- The flags of an exponent out of range. -/
def expFlags (c : Build) (piCycle hold : Bool) (sc : ℤ) (flags : ℕ) : ℕ :=
  if scBit sc 8 ∧ ¬ piCycle then
    flags ||| ovr ||| fltovr c ||| trp1 c ||| if (if isKl c then scBit sc 17 else !hold) then fltund c else 0
  else flags

/-- The low word of a long result. -/
def lowWord (c : Build) (ir : ℕ) (flag1 : Bool) (mq : ℕ) (sc : ℤ) (flag3 : BitVec 64) : ℕ :=
  if c = .pdp6 then
    if ir &&& 0o3 = 1 then (mq <<< 1 &&& cmask ||| flag3.toNat) ||| if flag1 then smask else 0 else mq
  else if ir &&& 0o7 = 1 then
    let sc := (sc + (0o777 - 26)) % 0o1000
    let mq := (if scBit sc 8 then 0 else mq) >>> 7 &&& mmask
    if mq ≠ 0 then mq ||| (sc % 0o400).toNat <<< 27 else mq
  else mq

/-- The word and the low word of a result, and `FLAGS`. -/
structure Result where
  ar : ℕ
  mq : ℕ
  flags : ℕ
  deriving DecidableEq

/-- The exponent is put to the sign and the fraction, and taken away again if the fraction is 0. -/
def putExp (ar : ℕ) (sc : ℤ) : ℕ :=
  let e := if ar &&& smask ≠ 0 then 0o377 - sc % 0o400 else sc % 0o400
  let ar := ar &&& (smask ||| mmask) ||| e.toNat <<< 27
  if ar &&& mmask = 0 then 0 else ar

/-- The end of `fnorm`, with the sign in `flag1` and `fxu_hold_set` in `hold`. -/
def pack (c : Build) (ir : ℕ) (piCycle flag1 hold : Bool) (flags ar mq : ℕ) (sc : ℤ) (flag3 : BitVec 64) : Result :=
  let mq := if scBit sc 8 ∧ ¬ piCycle ∧ ¬ isKl c ∧ c ≠ .pdp6 ∧ ¬ hold then 0 else mq
  ⟨putExp ar sc, lowWord c ir flag1 mq sc flag3, expFlags c piCycle hold sc flags⟩

/-- The bit out of a sum is taken into the fraction. -/
def first (r : Reg) : Reg := if (r.ar &&& fpsbit ≠ 0) ≠ (r.ar &&& fpnbit ≠ 0) then r.down else r

/-- `fnorm`; `hold` is `fxu_hold_set` before. -/
def fnorm (c : Build) (ir : ℕ) (piCycle flag1 hold : Bool) (flags : ℕ) (r : Reg) : Result :=
  let r := first r
  if r.ar ≠ 0 then
    let hold := hold || (!isKl c && (scBit r.sc 8 ^^ scBit r.sc 7))
    let r := if c = .pdp6 then r else { r with ar := r.ar &&& ~~~0o77 }
    let r := if ir ≠ 0o130 ∧ ir ≠ 0o247 then fnormx c ir r else r
    pack c ir piCycle flag1 hold flags ((r.ar >>> 34).toNat ||| if flag1 then smask else 0) (r.ar &&& fprmask).toNat
      r.sc r.flag3
  else pack c ir piCycle flag1 hold flags 0 0 0 r.flag3

/-- The memory, whose first 16 words are the accumulators, and `FLAGS`. -/
structure Cpu where
  mem : ℕ → ℕ
  flags : ℕ

/-- `set_reg`, and `Mem_write`. -/
def Cpu.setReg (s : Cpu) (ac v : ℕ) : Cpu := { s with mem := Function.update s.mem (ac % 16) v }
def Cpu.write (s : Cpu) (e v : ℕ) : Cpu := { s with mem := Function.update s.mem e v }

lemma mem_setReg (s : Cpu) (ac v : ℕ) : (s.setReg ac v).mem (ac % 16) = v := Function.update_self ..

/-! ### The register as a number -/

section Bits

variable (v : BitVec 64) {k : ℕ}

lemma toInt_range : -2 ^ 63 ≤ v.toInt ∧ v.toInt < 2 ^ 63 := by
  have hlt := v.isLt
  rw [BitVec.toInt_eq_toNat_cond]
  split_ifs <;> omega

/-- The sign of the register is a multiple of what is divided by. -/
lemma toInt_div (hk : k < 64) :
    v.toInt / 2 ^ k = (v.toNat / 2 ^ k : ℕ) - if v.toNat < 2 ^ 63 then 0 else 2 * 2 ^ (63 - k) := by
  have hsplit : (2 : ℤ) ^ 64 = 2 ^ k * (2 * 2 ^ (63 - k)) := by
    rw [← pow_succ', ← pow_add]
    congr 1
    omega
  rw [BitVec.toInt_eq_toNat_cond]
  rcases Nat.lt_or_ge v.toNat (2 ^ 63) with h | h
  · rw [if_pos (by omega), if_pos h, sub_zero]
    push_cast
    rfl
  · rw [if_neg (by omega), if_neg (not_lt.mpr h), Nat.cast_pow, Nat.cast_ofNat, hsplit, sub_eq_add_neg, ← mul_neg,
      Int.add_mul_ediv_left _ _ (by positivity)]
    push_cast
    ring

/-- A bit of the register. -/
lemma bit_iff (hk : k < 64) : v &&& 1#64 <<< k ≠ 0 ↔ v.toInt / 2 ^ k % 2 = 1 := by
  have h0 : (0 : BitVec 64).toNat = 0 := rfl
  have hone : (1#64 <<< k).toNat = 2 ^ k := by
    rw [BitVec.toNat_shiftLeft, BitVec.toNat_ofNat, Nat.shiftLeft_eq, Nat.mod_eq_of_lt (by decide : 1 < 2 ^ 64), one_mul]
    exact Nat.mod_eq_of_lt (Nat.pow_lt_pow_right (by decide) hk)
  have hint : v.toInt / 2 ^ k % 2 = ((v.toNat / 2 ^ k % 2 : ℕ) : ℤ) := by
    rw [toInt_div v hk, Int.natCast_emod, Nat.cast_ofNat]
    split_ifs
    · rw [sub_zero]
    · rw [Int.sub_mul_emod_self_left]
  rw [hint, ne_eq, ← BitVec.toNat_inj, BitVec.toNat_and, hone, h0, ← ne_eq, Word.and_pow_ne_zero]
  norm_cast

lemma fpsbit_iff : v &&& fpsbit ≠ 0 ↔ v.toInt / 2 ^ 62 % 2 = 1 := bit_iff v (by decide : 62 < 64)
lemma fpnbit_iff : v &&& fpnbit ≠ 0 ↔ v.toInt / 2 ^ 61 % 2 = 1 := bit_iff v (by decide : 61 < 64)
lemma fp1bit_iff : v &&& fp1bit ≠ 0 ↔ v.toInt / 2 ^ 60 % 2 = 1 := bit_iff v (by decide : 60 < 64)
lemma fprbit2_iff : v &&& fprbit2 ≠ 0 ↔ v.toInt / 2 ^ 33 % 2 = 1 := bit_iff v (by decide : 33 < 64)

lemma toInt_eq_zero : v = 0 ↔ v.toInt = 0 := by
  rw [← BitVec.toInt_inj]
  rfl

/-- `AR <<= 1` when there is room. -/
lemma toInt_double (h : -2 ^ 62 ≤ v.toInt) (h' : v.toInt < 2 ^ 62) : (v <<< 1).toInt = v.toInt * 2 := by
  have hlt := v.isLt
  have hnat : (v <<< 1).toNat = v.toNat * 2 % 2 ^ 64 := by rw [BitVec.toNat_shiftLeft, Nat.shiftLeft_eq, pow_one]
  rw [BitVec.toInt_eq_toNat_cond, hnat]
  rw [BitVec.toInt_eq_toNat_cond] at h h' ⊢
  split_ifs at h h' ⊢ <;> lia

/-- A shift to the right keeps the sign. -/
lemma toInt_halve : (halve v).toInt = v.toInt / 2 := by
  have hlt := v.isLt
  have hnat : (halve v).toNat = v.toNat / 2 ^ 63 * 2 ^ 63 + v.toNat / 2 := by
    have hsign : v.toNat &&& 2 ^ 63 = v.toNat / 2 ^ 63 * 2 ^ 63 := by
      rw [Nat.and_two_pow, Nat.testBit_eq_decide_div_mod_eq, Nat.mod_eq_of_lt (by omega : v.toNat / 2 ^ 63 < 2)]
      rcases (by omega : v.toNat / 2 ^ 63 = 0 ∨ v.toNat / 2 ^ 63 = 1) with h | h <;> rw [h] <;> rfl
    rw [halve, BitVec.toNat_or, BitVec.toNat_and, BitVec.toNat_ushiftRight, Nat.shiftRight_eq_div_pow, pow_one,
      show fphbit.toNat = 2 ^ 63 from rfl, hsign]
    exact Word.or_eq_add (Dvd.intro_left _ rfl) (by omega)
  rw [BitVec.toInt_eq_toNat_cond, hnat, BitVec.toInt_eq_toNat_cond]
  split_ifs <;> lia

/-- The register with its last bits cleared. -/
lemma toInt_clear (hk : k < 64) : (v &&& ~~~(BitVec.ofNat 64 (2 ^ k - 1))).toInt = v.toInt / 2 ^ k * 2 ^ k := by
  have hpow : 2 ^ k ≤ 2 ^ 63 := Nat.pow_le_pow_right (by decide) (by omega)
  have hmask : (BitVec.ofNat 64 (2 ^ k - 1)).toNat = 2 ^ k - 1 := by
    rw [BitVec.toNat_ofNat]
    exact Nat.mod_eq_of_lt (by omega)
  have hnat : (v &&& ~~~(BitVec.ofNat 64 (2 ^ k - 1))).toNat = v.toNat / 2 ^ k * 2 ^ k := by
    rw [← Word.bic_low]
    refine Nat.eq_of_testBit_eq fun i ↦ ?_
    have hbit : (2 ^ k - 1).testBit i = (BitVec.ofNat 64 (2 ^ k - 1)).getLsbD i := by
      rw [← BitVec.testBit_toNat, hmask]
    rw [Word.testBit_bic, hbit, BitVec.testBit_toNat, BitVec.testBit_toNat, BitVec.getLsbD_and, BitVec.getLsbD_not]
    rcases Nat.lt_or_ge i 64 with hi | hi
    · rw [decide_eq_true hi, Bool.true_and]
    · rw [BitVec.getLsbD_of_ge v i hi, Bool.false_and, Bool.false_and]
  have hlow : v.toNat / 2 ^ k * 2 ^ k < 2 ^ 63 ↔ v.toNat < 2 ^ 63 := by
    have h63 : 2 ^ 63 = 2 ^ (63 - k) * 2 ^ k := by
      rw [← pow_add]
      congr 1
      omega
    rw [h63, Nat.mul_lt_mul_right (by positivity), Nat.div_lt_iff_lt_mul (by positivity)]
  have hsplit : (2 : ℤ) ^ 64 = 2 * 2 ^ (63 - k) * 2 ^ k := by
    rw [← pow_succ', ← pow_add]
    congr 1
    omega
  rw [toInt_div v hk, BitVec.toInt_eq_toNat_cond, hnat]
  rcases Nat.lt_or_ge v.toNat (2 ^ 63) with h | h
  · rw [if_pos (by have := hlow.mpr h; omega), if_pos h, sub_zero]
    push_cast
    rfl
  · rw [if_neg (by have := mt hlow.mp (not_lt.mpr h); omega), if_neg (not_lt.mpr h), Nat.cast_pow, Nat.cast_ofNat, hsplit]
    push_cast
    ring

end Bits

/-! ### The loop -/

section Loop

variable {c : Build} {r : Reg}

lemma unnormal_iff {v : BitVec 64} (h : -2 ^ 61 ≤ v.toInt) (h' : v.toInt < 2 ^ 61) :
    unnormal v = true ↔ v.toInt ≠ 0 ∧ -2 ^ 60 ≤ v.toInt ∧ v.toInt < 2 ^ 60 := by
  rw [unnormal, decide_eq_true_eq, fpsbit_iff, fpnbit_iff, fp1bit_iff, ne_eq, toInt_eq_zero]
  lia

/-- After `k` of 64 turns the last `k` bits are clear. -/
lemma shiftUp_clear (k : ℕ) (hk : k ≤ 64) (hdvd : 2 ^ (64 - k) ∣ r.ar.toNat) (h : c = .pdp6 → r.flag3 = 0) :
    unnormal (shiftUp c k r).ar = false := by
  induction k generalizing r with
  | zero =>
      have hzero : r.ar = 0 := BitVec.eq_of_toNat_eq (Nat.eq_zero_of_dvd_of_lt hdvd r.ar.isLt)
      rw [shiftUp, hzero]
      rfl
  | succ k ih =>
      rw [shiftUp]
      by_cases hgo : unnormal r.ar = true
      · have hshift : 2 ^ (64 - k) ∣ (r.ar <<< 1).toNat := by
          rw [BitVec.toNat_shiftLeft, Nat.shiftLeft_eq, pow_one]
          refine (Nat.dvd_mod_iff (pow_dvd_pow 2 (Nat.sub_le 64 k))).mpr ?_
          rw [show 64 - k = 64 - (k + 1) + 1 by lia, pow_succ]
          exact Nat.mul_dvd_mul_right hdvd 2
        rw [if_pos hgo]
        split
        · rename_i hc
          refine ih (by omega) ?_ fun _ ↦ rfl
          rw [h hc]
          exact (congrArg (2 ^ (64 - k) ∣ BitVec.toNat ·) BitVec.or_zero).mpr hshift
        · rename_i hc
          exact ih (by omega) hshift fun h6 ↦ absurd h6 hc
      · rw [if_neg hgo]
        exact Bool.not_eq_true _ ▸ hgo

/-- **The loop ends by its test.** -/
theorem shiftUp_ends (c : Build) (r : Reg) : unnormal (shiftUp c 65 r).ar = false := by
  rw [shiftUp]
  by_cases hgo : unnormal r.ar = true
  · rw [if_pos hgo]
    split
    · exact shiftUp_clear 64 le_rfl (one_dvd _) fun _ ↦ rfl
    · rename_i hc
      exact shiftUp_clear 64 le_rfl (one_dvd _) fun h6 ↦ absurd h6 hc
  · rw [if_neg hgo]
    exact Bool.not_eq_true _ ▸ hgo

/-- `b` is `a` shifted to the left `t` times, and normalized. -/
structure Norm (a : ℤ) (t : ℕ) (b : ℤ) : Prop where
  eq : b = a * 2 ^ t
  range : 2 ^ 60 ≤ b ∧ b < 2 ^ 61 ∨ -2 ^ 61 ≤ b ∧ b < -2 ^ 60

/-- How far a number is shifted is not for the loop to choose. -/
lemma Norm.unique {a b b' : ℤ} {t t' : ℕ} (h : Norm a t b) (h' : Norm a t' b') : t = t' ∧ b = b' := by
  have hless {t t' : ℕ} {b b' : ℤ} (h : Norm a t b) (h' : Norm a t' b') : ¬ t < t' := fun hlt ↦ by
    obtain ⟨d, rfl⟩ : ∃ d, t' = t + (d + 1) := ⟨t' - t - 1, by omega⟩
    have heq : b' = b * 2 ^ d * 2 := by
      rw [h'.eq, h.eq]
      ring
    have hpos : (1 : ℤ) ≤ 2 ^ d := by exact_mod_cast Nat.one_le_two_pow
    rcases h.range with ⟨hlow, -⟩ | ⟨-, hhigh⟩
    · have hle : b * 1 ≤ b * 2 ^ d := Int.mul_le_mul_of_nonneg_left hpos (by omega)
      have hr := h'.range
      omega
    · have hle : b * 2 ^ d ≤ b * 1 := Int.mul_le_mul_of_nonpos_left (by omega) hpos
      have hr := h'.range
      omega
  have ht : t = t' := le_antisymm (not_lt.mp (hless h' h)) (not_lt.mp (hless h h'))
  exact ⟨ht, by rw [h.eq, h'.eq, ht]⟩

/-- What the loop does to a fraction: it ends with a normalized one. -/
theorem shiftUp_spec (hc : c ≠ .pdp6) (k : ℕ) (h : -2 ^ 61 ≤ r.ar.toInt) (h' : r.ar.toInt < 2 ^ 61)
    (hk : 2 ^ 60 ≤ r.ar.toInt * 2 ^ k ∨ r.ar.toInt * 2 ^ k < -2 ^ 60) : ∃ t : ℕ,
    Norm r.ar.toInt t (shiftUp c k r).ar.toInt ∧ (shiftUp c k r).sc = r.sc - t := by
  induction k generalizing r with
  | zero =>
      rw [pow_zero, mul_one] at hk
      exact ⟨0, ⟨by rw [shiftUp, pow_zero, mul_one], by rw [shiftUp]; omega⟩, by rw [shiftUp]; simp⟩
  | succ k ih =>
      rw [shiftUp]
      by_cases hgo : unnormal r.ar = true
      · obtain ⟨-, hlow, hhigh⟩ := (unnormal_iff h h').mp hgo
        have hdouble := toInt_double r.ar (by omega) (by omega)
        obtain ⟨t, ⟨heq, hrange⟩, hsc⟩ := ih (r := ⟨r.ar <<< 1, r.sc - 1, r.flag3⟩) (by dsimp only; omega) (by dsimp only; omega)
          (by
            dsimp only
            rw [hdouble, mul_assoc, ← pow_succ']
            exact hk)
        rw [if_pos hgo, if_neg hc]
        refine ⟨t + 1, ⟨?_, hrange⟩, ?_⟩
        · rw [heq, hdouble, pow_succ']
          ring
        · rw [hsc]
          push_cast
          ring
      · rw [if_neg hgo]
        have hne : r.ar.toInt ≠ 0 := fun h0 ↦ by
          rw [h0, zero_mul] at hk
          omega
        have hout := mt (unnormal_iff h h').mpr hgo
        exact ⟨0, ⟨by rw [pow_zero, mul_one], by omega⟩, by simp⟩

end Loop

/-! ### The edge case and the rounding -/

section Rounding

variable {c : Build} {ir : ℕ} {r : Reg} {a b : ℤ} {t : ℕ}

lemma edge_iff {v : BitVec 64} (h : -2 ^ 61 ≤ v.toInt) (h' : v.toInt < 2 ^ 61) :
    v &&& 0o777777777600000000000 = fpsbit ||| fpnbit ↔ v.toInt < -2 ^ 61 + 2 ^ 34 := by
  have hlt := v.isLt
  have hmask : (0o777777777600000000000 : BitVec 64).toNat = (2 ^ 29 - 1) <<< 34 := rfl
  have hbits : (fpsbit ||| fpnbit).toNat = 3 * 2 ^ 61 := rfl
  rw [← BitVec.toNat_inj, BitVec.toNat_and, hmask, hbits, Word.and_shiftLeft, Nat.and_two_pow_sub_one_eq_mod,
    Nat.shiftRight_eq_div_pow, Nat.shiftLeft_eq]
  rw [BitVec.toInt_eq_toNat_cond] at h h' ⊢
  split_ifs at h h' ⊢ <;> omega

/-- The edge case: the fraction minus one, but for what is dropped. -/
lemma edge_spec (h : -2 ^ 61 ≤ r.ar.toInt) (h' : r.ar.toInt < 2 ^ 61) :
    (edge r).ar.toInt = (if r.ar.toInt < -2 ^ 61 + 2 ^ 34 then r.ar.toInt / 2 else r.ar.toInt) ∧
    (edge r).sc = if r.ar.toInt < -2 ^ 61 + 2 ^ 34 then r.sc + 1 else r.sc := by
  rw [edge]
  by_cases hedge : r.ar.toInt < -2 ^ 61 + 2 ^ 34
  · rw [if_pos ((edge_iff h h').mpr hedge), if_pos hedge, if_pos hedge]
    exact ⟨toInt_halve _, rfl⟩
  · rw [if_neg (mt (edge_iff h h').mp hedge), if_neg hedge, if_neg hedge]
    exact ⟨rfl, rfl⟩

lemma toInt_clear34 (v : BitVec 64) : (v &&& ~~~fprmask).toInt = v.toInt / 2 ^ 34 * 2 ^ 34 := by
  have hmask : fprmask = BitVec.ofNat 64 (2 ^ 34 - 1) := rfl
  rw [hmask]
  exact toInt_clear v (by decide)

lemma toInt_add34 {v : BitVec 64} (h : -2 ^ 61 ≤ v.toInt) (h' : v.toInt < 2 ^ 61) :
    (v + fprbit1).toInt = v.toInt + 2 ^ 34 := by
  have hlt := v.isLt
  have hnat : (v + fprbit1).toNat = (v.toNat + 2 ^ 34) % 2 ^ 64 := BitVec.toNat_add ..
  rw [BitVec.toInt_eq_toNat_cond, hnat]
  rw [BitVec.toInt_eq_toNat_cond] at h h' ⊢
  split_ifs at h h' ⊢ <;> lia

lemma fprmask_iff (v : BitVec 64) : v &&& fprmask = fprbit2 ↔ v.toInt % 2 ^ 34 = 2 ^ 33 := by
  have hlt := v.isLt
  have hmask : fprmask.toNat = 2 ^ 34 - 1 := rfl
  have hbit : fprbit2.toNat = 2 ^ 33 := rfl
  rw [← BitVec.toNat_inj, BitVec.toNat_and, hmask, hbit, Nat.and_two_pow_sub_one_eq_mod, BitVec.toInt_eq_toNat_cond]
  split_ifs <;> lia

/-- The rounding adds in the last place unless a negative number is in the middle. -/
lemma toInt_roundAr (hc : c ≠ .pdp6) (hir : ir &&& 0o70 ≠ 0o70) {v : BitVec 64} (h : -2 ^ 61 ≤ v.toInt)
    (h' : v.toInt < 2 ^ 61) : (roundAr c ir v).toInt =
      (v.toInt / 2 ^ 34 + if v.toInt < 0 ∧ v.toInt % 2 ^ 34 = 2 ^ 33 then 0 else 1) * 2 ^ 34 := by
  have hsign : v &&& fpsbit ≠ 0 ↔ v.toInt < 0 := by
    rw [fpsbit_iff]
    omega
  have htest : (ir &&& 0o70 ≠ 0o70 ∧ v &&& fpsbit ≠ 0 ∧ v &&& fprmask ≠ fprbit2 ∨ v &&& fpsbit = 0 ∨ v &&& fprmask ≠ fprbit2) ↔
      ¬ (v.toInt < 0 ∧ v.toInt % 2 ^ 34 = 2 ^ 33) := by
    have hmid : v &&& fprmask ≠ fprbit2 ↔ ¬ v.toInt % 2 ^ 34 = 2 ^ 33 := not_congr (fprmask_iff v)
    have hpos : v &&& fpsbit = 0 ↔ ¬ v.toInt < 0 := by rw [← hsign, not_ne_iff]
    have htaut {p q s : Prop} (hs : s) : s ∧ q ∧ ¬ p ∨ ¬ q ∨ ¬ p ↔ ¬ (q ∧ p) := by tauto
    rw [hsign, hmid, hpos]
    exact htaut hir
  have hadd := toInt_add34 h h'
  rw [roundAr, if_neg hc, toInt_clear34]
  by_cases hup : v.toInt < 0 ∧ v.toInt % 2 ^ 34 = 2 ^ 33
  · rw [if_neg (mt htest.mp (not_not.mpr hup)), if_pos hup, add_zero]
  · rw [if_pos (htest.mpr hup), if_neg hup, hadd]
    lia

/-- What is normalized is rounded up: not in the edge case, where the bits that are dropped are not looked at. -/
def RoundsUp (ir : ℕ) (b : ℤ) : Prop :=
  ir &&& 0o4 ≠ 0 ∧ -2 ^ 61 + 2 ^ 34 ≤ b ∧ b / 2 ^ 33 % 2 = 1 ∧ ¬ (b < 0 ∧ b % 2 ^ 34 = 2 ^ 33)

instance (ir : ℕ) (b : ℤ) : Decidable (RoundsUp ir b) := inferInstanceAs (Decidable (_ ∧ _))

/-- The first 27 bits of what is normalized, rounded as `ir` says. -/
def fraction27 (ir : ℕ) (b : ℤ) : ℤ := b / 2 ^ 34 + if RoundsUp ir b then 1 else 0

/-- The fraction `m₀` with the exponent `s₀`, of which plus or minus one becomes one half. -/
structure Carried (m₀ s₀ m s : ℤ) : Prop where
  low : 2 ^ 26 ≤ |m|
  high : |m| < 2 ^ 27
  eq : m = m₀ ∧ s = s₀ ∨ 2 * m = m₀ ∧ s = s₀ + 1

lemma fraction_bounds {m : ℤ} (h : 2 ^ 26 ≤ m ∧ m < 2 ^ 27 ∨ -2 ^ 27 < m ∧ m ≤ -2 ^ 26) : 2 ^ 26 ≤ |m| ∧ |m| < 2 ^ 27 := by
  rw [le_abs', abs_lt]
  omega

/-- What the second turn through `fnormx` does to a fraction that is rounded: nothing, unless it is one half with
a minus sign or with a carry. -/
lemma shiftUp_rounded (hc : c ≠ .pdp6) (hir : ir &&& 0o70 ≠ 0o70) (hrange : 2 ^ 60 ≤ r.ar.toInt ∧ r.ar.toInt < 2 ^ 61 ∨
      -2 ^ 61 + 2 ^ 34 ≤ r.ar.toInt ∧ r.ar.toInt < -2 ^ 60) {m₀ : ℤ}
    (hm : m₀ = r.ar.toInt / 2 ^ 34 + if r.ar.toInt < 0 ∧ r.ar.toInt % 2 ^ 34 = 2 ^ 33 then 0 else 1) :
    ∃ m s, (edge (shiftUp c 65 (round c ir r))).ar.toInt / 2 ^ 34 = m ∧
      (edge (shiftUp c 65 (round c ir r))).sc = s ∧ Carried m₀ r.sc m s := by
  have hround := toInt_roundAr hc hir (v := r.ar) (by omega) (by omega)
  rw [← hm] at hround
  have hstart := fp1bit_iff r.ar
  have hend := fp1bit_iff (roundAr c ir r.ar)
  rw [hround] at hend
  have hm₀ : 2 ^ 26 ≤ m₀ ∧ m₀ ≤ 2 ^ 27 ∨ -2 ^ 27 < m₀ ∧ m₀ ≤ -2 ^ 26 := by
    split at hm <;> omega
  by_cases hchange : m₀ = 2 ^ 27 ∨ m₀ = -2 ^ 26
  · -- the first bit of the fraction has changed
    have hdown : round c ir r = Reg.down ⟨roundAr c ir r.ar, r.sc, 0⟩ := by
      rw [round]
      refine if_pos ?_
      rw [ne_eq, eq_iff_iff, hend, hstart]
      lia
    have har : (round c ir r).ar.toInt = m₀ * 2 ^ 33 := by
      rw [hdown, Reg.down, toInt_halve, hround]
      omega
    have hsc : (round c ir r).sc = r.sc + 1 := by rw [hdown, Reg.down]
    obtain ⟨t, hnorm, hsc'⟩ := shiftUp_spec (r := round c ir r) hc 65 (by omega) (by omega) (by omega)
    rcases hchange with hcarry | hhalf
    · have hnorm' : Norm (round c ir r).ar.toInt 0 (2 ^ 60) := ⟨by rw [har, hcarry]; norm_num, by norm_num⟩
      obtain ⟨rfl, hb⟩ := hnorm.unique hnorm'
      obtain ⟨hedge, hedge'⟩ := edge_spec (r := shiftUp c 65 (round c ir r)) (by omega) (by omega)
      rw [if_neg (by lia)] at hedge hedge'
      refine ⟨2 ^ 26, r.sc + 1, by rw [hedge, hb]; norm_num, by rw [hedge', hsc', hsc]; simp, by norm_num, by norm_num, ?_⟩
      lia
    · have hnorm' : Norm (round c ir r).ar.toInt 2 (-2 ^ 61) := ⟨by rw [har, hhalf]; norm_num, by norm_num⟩
      obtain ⟨rfl, hb⟩ := hnorm.unique hnorm'
      obtain ⟨hedge, hedge'⟩ := edge_spec (r := shiftUp c 65 (round c ir r)) (by omega) (by omega)
      rw [if_pos (by omega)] at hedge hedge'
      refine ⟨-2 ^ 26, r.sc, by rw [hedge, hb]; norm_num, ?_, by norm_num, by norm_num, by lia⟩
      rw [hedge', hsc', hsc]
      push_cast
      ring
  · have hsame : round c ir r = ⟨roundAr c ir r.ar, r.sc, 0⟩ := by
      rw [round]
      refine if_neg ?_
      rw [ne_eq, eq_iff_iff, hend, hstart]
      lia
    have har : (round c ir r).ar.toInt = m₀ * 2 ^ 34 := by rw [hsame, hround]
    have hsc : (round c ir r).sc = r.sc := by rw [hsame]
    obtain ⟨t, hnorm, hsc'⟩ := shiftUp_spec (r := round c ir r) hc 65 (by omega) (by omega) (by omega)
    have hnorm' : Norm (round c ir r).ar.toInt 0 (m₀ * 2 ^ 34) := ⟨by rw [har, pow_zero, mul_one], by omega⟩
    obtain ⟨rfl, hb⟩ := hnorm.unique hnorm'
    obtain ⟨hedge, hedge'⟩ := edge_spec (r := shiftUp c 65 (round c ir r)) (by omega) (by omega)
    rw [if_neg (by lia)] at hedge hedge'
    obtain ⟨hlow, hhigh⟩ := fraction_bounds (m := m₀) (by omega)
    exact ⟨m₀, r.sc, by rw [hedge, hb]; lia, by rw [hedge', hsc', hsc]; simp, hlow, hhigh, .inl ⟨rfl, rfl⟩⟩

/-- **What `fnormx` makes of a fraction**: the first 27 bits of it when it is normalized, rounded, with the
exponent for them. -/
theorem fnormx_spec (hc : c ≠ .pdp6) (hir : ir &&& 0o70 ≠ 0o70) (hne : r.ar.toInt ≠ 0) (h : -2 ^ 61 ≤ r.ar.toInt)
    (h' : r.ar.toInt < 2 ^ 61) : ∃ t b, Norm r.ar.toInt t b ∧ ∃ m s, (fnormx c ir r).ar.toInt / 2 ^ 34 = m ∧
      (fnormx c ir r).sc = s ∧ Carried (fraction27 ir b) (r.sc - t) m s := by
  obtain ⟨t, hnorm, hsc⟩ := shiftUp_spec (r := r) hc 65 h h' (by omega)
  refine ⟨t, _, hnorm, ?_⟩
  have hrange := hnorm.range
  have hbit := fprbit2_iff (edge (shiftUp c 65 r)).ar
  rw [fnormx, fraction27]
  generalize shiftUp c 65 r = u at hnorm hsc hrange hbit ⊢
  by_cases hedge : u.ar.toInt < -2 ^ 61 + 2 ^ 34
  · -- the edge case: the bit that is looked at is clear then
    obtain ⟨har, hsc'⟩ := edge_spec (r := u) (by lia) (by omega)
    rw [if_pos hedge] at har hsc'
    rw [har] at hbit
    rw [if_neg (fun hand ↦ absurd (hbit.mp hand.2) (by lia)), if_neg (fun hup ↦ absurd hup.2.1 (by omega)), har, hsc', hsc]
    exact ⟨_, _, rfl, rfl, by rw [le_abs']; omega, by rw [abs_lt]; omega, by lia⟩
  · have hu : edge u = u := if_neg (mt (edge_iff (by omega) (by lia)).mp hedge)
    rw [hu] at hbit ⊢
    rw [← hsc]
    by_cases hround : ir &&& 0o4 ≠ 0 ∧ u.ar &&& fprbit2 ≠ 0
    · rw [if_pos hround]
      refine shiftUp_rounded hc hir (by omega) ?_
      have hone := hbit.mp hround.2
      congr 1
      rcases em (u.ar.toInt < 0 ∧ u.ar.toInt % 2 ^ 34 = 2 ^ 33) with hmid | hmid
      · rw [if_neg (fun hup ↦ hup.2.2.2 hmid), if_pos hmid]
      · rw [if_pos ⟨hround.1, by omega, hone, hmid⟩, if_neg hmid]
    · rw [if_neg hround, if_neg (fun hup ↦ hround ⟨hup.1, hbit.mpr hup.2.2.1⟩), add_zero]
      obtain ⟨hlow, hhigh⟩ := fraction_bounds (m := u.ar.toInt / 2 ^ 34) (by omega)
      exact ⟨_, _, rfl, rfl, hlow, hhigh, .inl ⟨rfl, rfl⟩⟩

end Rounding

/-! ### The word of the result -/

section Word

variable {c : Build} {ir : ℕ} {r : Reg} {piCycle flag1 hold : Bool} {flags : ℕ}

/-- The bit out of a sum is taken in, and then 6 bits are dropped. -/
lemma first_spec (h : -2 ^ 62 ≤ r.ar.toInt) (h' : r.ar.toInt < 2 ^ 62) :
    (first r).ar.toInt = (if -2 ^ 61 ≤ r.ar.toInt ∧ r.ar.toInt < 2 ^ 61 then r.ar.toInt else r.ar.toInt / 2) ∧
    (first r).sc = if -2 ^ 61 ≤ r.ar.toInt ∧ r.ar.toInt < 2 ^ 61 then r.sc else r.sc + 1 := by
  have hs := fpsbit_iff r.ar
  have hn := fpnbit_iff r.ar
  rw [first]
  by_cases hin : -2 ^ 61 ≤ r.ar.toInt ∧ r.ar.toInt < 2 ^ 61
  · rw [if_neg (by rw [ne_eq, eq_iff_iff, hs, hn]; lia), if_pos hin, if_pos hin]
    exact ⟨rfl, rfl⟩
  · rw [if_pos (by rw [ne_eq, eq_iff_iff, hs, hn]; omega), if_neg hin, if_neg hin]
    exact ⟨toInt_halve _, rfl⟩

lemma toInt_clear6 (v : BitVec 64) : (v &&& ~~~0o77).toInt = v.toInt / 64 * 64 := by
  have hmask : (0o77 : BitVec 64) = BitVec.ofNat 64 (2 ^ 6 - 1) := rfl
  rw [hmask]
  exact toInt_clear v (by decide)

/-- The sign and the fraction of a word. -/
lemma and_fraction (x : ℕ) : x &&& (smask ||| mmask) = x / 2 ^ 35 % 2 * 2 ^ 35 + x % 2 ^ 27 := by
  have hsign : x &&& smask = x / 2 ^ 35 % 2 * 2 ^ 35 := by
    rw [show smask = 2 ^ 35 from rfl, Nat.and_two_pow, Nat.testBit_eq_decide_div_mod_eq]
    rcases Nat.mod_two_eq_zero_or_one (x / 2 ^ 35) with h | h <;> rw [h] <;> rfl
  have hlow : x &&& mmask = x % 2 ^ 27 := Nat.and_two_pow_sub_one_eq_mod x 27
  rw [Nat.and_or_distrib_left, hsign, hlow]
  refine Word.or_eq_add (i := 35) (Dvd.intro_left _ rfl) ?_
  lia

/-- The exponent between the two. -/
lemma or_field (f : ℕ) {m e : ℕ} (hm : m < 2 ^ 27) (he : e < 256) :
    f * 2 ^ 35 + m ||| e <<< 27 = f * 2 ^ 35 + e * 2 ^ 27 + m := by
  have hsum : f * 2 ^ 35 + m = f * 2 ^ 35 ||| m := (Word.or_eq_add (Dvd.intro_left _ rfl) (by omega)).symm
  rw [hsum, Nat.or_assoc, Word.or_shiftLeft_eq hm, Word.or_eq_add (i := 35) (Dvd.intro_left _ rfl) (by omega)]
  ring

lemma or_exponent {f m e : ℕ} (hne : m ≠ 0) (hm : m < 2 ^ 27) (he : e < 256) :
    (if (f * 2 ^ 35 + m ||| e <<< 27) &&& mmask = 0 then 0 else f * 2 ^ 35 + m ||| e <<< 27) =
      f * 2 ^ 35 + e * 2 ^ 27 + m := by
  have hlow : (f * 2 ^ 35 + e * 2 ^ 27 + m) &&& mmask = m := by
    rw [show mmask = 2 ^ 27 - 1 from rfl, Nat.and_two_pow_sub_one_eq_mod]
    omega
  rw [or_field f hm he, hlow, if_neg hne]

/-- The fraction is put together with its exponent. -/
lemma putExp_spec (n : Number) {v : BitVec 64} (hv : v.toInt / 2 ^ 34 = n.m) (hflag : flag1 = true ↔ n.m < 0) {sc : ℤ}
    (he : sc % 256 = n.e) : putExp ((v >>> 34).toNat ||| if flag1 then smask else 0) sc = n.word := by
  have hm := n.m_range
  have hw := n.word_eq
  have hlt := v.isLt
  have hshift : (v >>> 34).toNat = v.toNat / 2 ^ 34 := by rw [BitVec.toNat_ushiftRight, Nat.shiftRight_eq_div_pow]
  rw [BitVec.toInt_eq_toNat_cond] at hv
  rw [putExp, hshift]
  rcases lt_or_ge n.m 0 with hneg | hpos
  · have hor : (v.toNat / 2 ^ 34 ||| smask) / 2 ^ 35 % 2 = 1 ∧ (v.toNat / 2 ^ 34 ||| smask) % 2 ^ 27 = v.toNat / 2 ^ 34 % 2 ^ 27 := by
      have hsum : v.toNat / 2 ^ 34 ||| smask = 2 ^ 35 + v.toNat / 2 ^ 34 := by
        rw [Nat.or_comm]
        exact Word.or_eq_add (i := 35) (Dvd.intro_left 1 rfl) (by lia)
      lia
    rw [if_pos (hflag.mpr hneg), and_fraction]
    rw [if_pos ((and_smask _).mpr hor.1), hor.1, hor.2, he]
    rw [if_pos hneg] at hw
    have hlow := n.e_lt
    have hm0 : (v.toNat / 2 ^ 34 % 2 ^ 27 : ℕ) = n.m + 2 ^ 27 := by
      split at hv <;> omega
    rw [or_exponent (f := 1) (e := ((0o377 : ℤ) - n.e).toNat) (by lia) (by lia) (by lia)]
    lia
  · rw [if_neg (mt hflag.mp (not_lt.mpr hpos)), and_fraction, Nat.or_zero]
    have hm0 : (v.toNat / 2 ^ 34 : ℕ) = n.m := by
      split at hv <;> lia
    have hbit : v.toNat / 2 ^ 34 / 2 ^ 35 % 2 = 0 := by lia
    rw [if_neg (mt (and_smask _).mp (by lia)), hbit, he]
    rw [if_neg (not_lt.mpr hpos)] at hw
    have hlow := n.e_lt
    rw [or_exponent (f := 0) (e := (n.e : ℤ).toNat) (by lia) (by omega) (by lia)]
    lia

/-- Zero stays zero. -/
lemma fnorm_zero (h : r.ar = 0) :
    (fnorm c ir piCycle flag1 hold flags r).ar = 0 ∧ (fnorm c ir piCycle flag1 hold flags r).flags = flags := by
  have hfirst : first r = r := by
    rw [first, h]
    rfl
  have hnorm : fnorm c ir piCycle flag1 hold flags r = pack c ir piCycle flag1 hold flags 0 0 0 r.flag3 := by
    rw [fnorm, hfirst]
    exact if_neg (not_not.mpr h)
  rw [hnorm]
  refine ⟨rfl, ?_⟩
  show expFlags c piCycle hold 0 flags = flags
  exact if_neg (fun h ↦ absurd h.1 (by decide))

/-- The fraction that is normalized: without the bit out of a sum and the last 6 bits. -/
def taken (a : ℤ) : ℤ := (if -2 ^ 61 ≤ a ∧ a < 2 ^ 61 then a else a / 2) / 64 * 64

/-- The exponent for it. -/
def takenSc (a sc : ℤ) : ℤ := if -2 ^ 61 ≤ a ∧ a < 2 ^ 61 then sc else sc + 1

/-- A shift keeps the sign. -/
lemma Norm.neg_iff {a b : ℤ} {t : ℕ} (h : Norm a t b) : b < 0 ↔ a < 0 := by
  rw [h.eq]
  exact ⟨fun hlt ↦ neg_of_mul_neg_left hlt (by positivity), fun hlt ↦ mul_neg_of_neg_of_pos hlt (by positivity)⟩

lemma Carried.neg_iff {b s₀ m s : ℤ} (h : Carried (fraction27 ir b) s₀ m s) (hb : b < 0 → b < -2 ^ 60) : m < 0 ↔ b < 0 := by
  have heq := h.eq
  rw [fraction27] at heq
  split at heq <;> omega

/-- **What `fnorm` makes of a fraction**: a normalized number, whose fraction is the first 27 bits, rounded, with
the low 8 bits of the exponent; the rest of the exponent is told by the flags. -/
theorem fnorm_spec (hc : c ≠ .pdp6) (hir : ir &&& 0o70 ≠ 0o70) (hufa : ir ≠ 0o130) (hwaits : ir ≠ 0o247)
    (h : -2 ^ 62 ≤ r.ar.toInt) (h' : r.ar.toInt < 2 ^ 62) (hne : taken r.ar.toInt ≠ 0)
    (hflag : flag1 = true ↔ r.ar.toInt < 0) : ∃ t b, Norm (taken r.ar.toInt) t b ∧ ∃ n : Number, ∃ s,
      Carried (fraction27 ir b) (takenSc r.ar.toInt r.sc - t) n.m s ∧ s % 256 = n.e ∧
      (fnorm c ir piCycle flag1 hold flags r).ar = n.word ∧
      (fnorm c ir piCycle flag1 hold flags r).flags = expFlags c piCycle
        (hold || (!isKl c && (scBit (takenSc r.ar.toInt r.sc) 8 ^^ scBit (takenSc r.ar.toInt r.sc) 7))) s flags := by
  obtain ⟨har, hsc⟩ := first_spec h h'
  have hclear := toInt_clear6 (first r).ar
  rw [har] at hclear
  change _ = taken r.ar.toInt at hclear
  change _ = takenSc r.ar.toInt r.sc at hsc
  have hrange : -2 ^ 61 ≤ taken r.ar.toInt ∧ taken r.ar.toInt < 2 ^ 61 := by
    rw [taken]
    split <;> lia
  have hfirst : (first r).ar ≠ 0 := fun h0 ↦ hne (by rw [← hclear, h0]; rfl)
  obtain ⟨t, b, hnorm, m, s, hm, hs, hcarried⟩ := @fnormx_spec c ir
    (⟨(first r).ar &&& ~~~0o77, (first r).sc, (first r).flag3⟩) hc hir (by rw [hclear]; exact hne)
    (by rw [hclear]; exact hrange.1) (by rw [hclear]; exact hrange.2)
  rw [hclear] at hnorm
  dsimp only at hcarried
  rw [hsc] at hcarried hs hm
  have hsign : m < 0 ↔ r.ar.toInt < 0 := by
    have hb := hnorm.neg_iff
    have htaken : taken r.ar.toInt < 0 ↔ r.ar.toInt < 0 := by
      rw [taken] at hne ⊢
      by_cases hin : -2 ^ 61 ≤ r.ar.toInt ∧ r.ar.toInt < 2 ^ 61
      · rw [if_pos hin] at hne ⊢
        lia
      · rw [if_neg hin] at hne ⊢
        lia
    rw [hcarried.neg_iff (by have := hnorm.range; lia), hb, htaken]
  refine ⟨t, b, hnorm, ⟨m, (s % 256).toNat, by lia, hcarried.low, hcarried.high⟩, s, hcarried,
    (Int.toNat_of_nonneg (by lia)).symm, ?_⟩
  rw [fnorm]
  simp only [if_pos hfirst, if_neg hc, if_pos (And.intro hufa hwaits), hsc, pack]
  refine ⟨?_, by rw [hs]⟩
  rw [hs]
  exact putExp_spec ⟨m, (s % 256).toNat, by lia, hcarried.low, hcarried.high⟩ hm (hflag.trans hsign.symm)
    (Int.toNat_of_nonneg (by lia)).symm

end Word

end Ka10Simh.Pdp10.Fp
