import Ka10Simh.Lib.Bits

/-!
Words and double words of a SEL 32 as the host's `uint32` and `t_uint64`.

* `and_fSign`, `and_dmSign`: the tests of the sign.
* `toInt_fill`: ones put above a short value make it negative.
* `extend`: a word to 64 bits by its sign, which has the same value.
-/

namespace Ka10Simh.Sel32

/-- `CC1BIT` to `CC4BIT`. -/
abbrev cc1Bit : BitVec 32 := 0x40000000#32
abbrev cc2Bit : BitVec 32 := 0x20000000#32
abbrev cc3Bit : BitVec 32 := 0x10000000#32
abbrev cc4Bit : BitVec 32 := 0x08000000#32

/-- `FSIGN` and `MSIGN`, and `DMSIGN`. -/
abbrev fSign : BitVec 32 := 0x80000000#32
abbrev dmSign : BitVec 64 := 0x8000000000000000#64

/-- `D32LMASK` and `D32RMASK`. -/
abbrev d32lMask : BitVec 64 := 0xffffffff00000000#64
abbrev d32rMask : BitVec 64 := 0x00000000ffffffff#64

/-- `NEGATE32`, of any width. -/
def negate32 {n : ℕ} (v : BitVec n) : BitVec n := ~~~v + 1

/-- A word to 64 bits by its sign. -/
def extend (w : BitVec 32) : BitVec 64 :=
  (if w &&& fSign ≠ 0 then d32lMask else 0) ||| w.setWidth 64

@[simp] lemma negate32_eq {n : ℕ} (v : BitVec n) : negate32 v = -v :=
  (BitVec.neg_eq_not_add v).symm

/-! ### The sign -/

lemma and_fSign (w : BitVec 32) : w &&& fSign = if w.msb then fSign else 0 :=
  BitVec.and_twoPow w 31

lemma and_dmSign (w : BitVec 64) : w &&& dmSign = if w.msb then dmSign else 0 :=
  BitVec.and_twoPow w 63

@[simp] lemma and_fSign_eq_zero (w : BitVec 32) : w &&& fSign = 0 ↔ w.msb = false := by
  rw [and_fSign]
  cases w.msb <;> decide

@[simp] lemma and_dmSign_eq_zero (w : BitVec 64) : w &&& dmSign = 0 ↔ w.msb = false := by
  rw [and_dmSign]
  cases w.msb <;> decide

/-- Ones above the low bits. -/
lemma toInt_fill {k n : ℕ} (hk : k < n) {m v : BitVec n} (hm : m.toNat = 2 ^ n - 2 ^ k)
    (hv : v.toNat < 2 ^ k) : (m ||| v).toInt = v.toNat - 2 ^ k := by
  have hpow : 2 ^ n = 2 ^ k * 2 ^ (n - k) := by
    rw [← Nat.pow_add]
    congr 1
    omega
  have hor : (m ||| v).toNat = 2 ^ n - 2 ^ k + v.toNat := by
    rw [BitVec.toNat_or, hm]
    refine Word.or_eq_add ⟨2 ^ (n - k) - 1, ?_⟩ hv
    rw [Nat.mul_sub, mul_one, hpow]
  have hle : 2 * 2 ^ k ≤ 2 ^ n := by
    rw [← Nat.pow_succ']
    exact Nat.pow_le_pow_right (by omega) (by omega)
  rw [BitVec.toInt_eq_toNat_cond, hor, if_neg (by lia)]
  push_cast [show 2 ^ k ≤ 2 ^ n by lia]
  ring

/-- The extension of a word has its value. -/
lemma toInt_extend (w : BitVec 32) : (extend w).toInt = w.toInt := by
  have hw := w.isLt
  have hnat : (w.setWidth 64).toNat = w.toNat := by
    rw [BitVec.toNat_setWidth]
    omega
  unfold extend
  simp only [ne_eq, and_fSign_eq_zero, Bool.not_eq_false]
  split_ifs with hmsb
  · have hge := BitVec.msb_eq_true_iff_two_mul_ge.mp hmsb
    rw [toInt_fill (by decide : 32 < 64) (by decide) (by omega), hnat, BitVec.toInt_eq_toNat_cond,
      if_neg (by omega)]
    norm_num
  · have hlt := BitVec.msb_eq_false_iff_two_mul_lt.mp (Bool.eq_false_iff.mpr hmsb)
    have hzero : (0 : BitVec 64) ||| w.setWidth 64 = w.setWidth 64 := BitVec.zero_or
    rw [hzero, BitVec.toInt_eq_toNat_cond, BitVec.toInt_eq_toNat_cond, hnat, if_pos (by omega),
      if_pos (by omega)]

/-- The left half of a double word. -/
lemma toNat_and_d32lMask (v : BitVec 64) : (v &&& d32lMask).toNat = v.toNat / 2 ^ 32 * 2 ^ 32 := by
  have hv := v.isLt
  have hmask : d32lMask.toNat = (2 ^ 32 - 1) <<< 32 := rfl
  rw [BitVec.toNat_and, hmask, Word.and_shiftLeft, Nat.and_two_pow_sub_one_eq_mod, Nat.shiftRight_eq_div_pow,
    Nat.shiftLeft_eq, Nat.mod_eq_of_lt (by omega)]

/-- The right half. -/
lemma toNat_and_d32rMask (v : BitVec 64) : (v &&& d32rMask).toNat = v.toNat % 2 ^ 32 := by
  have hmask : d32rMask.toNat = 2 ^ 32 - 1 := rfl
  rw [BitVec.toNat_and, hmask, Nat.and_two_pow_sub_one_eq_mod]

end Ka10Simh.Sel32
