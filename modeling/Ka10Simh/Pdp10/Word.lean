import Ka10Simh.Lib.Bits

/-!
Masks of a 36-bit word, under their names in `kx10_defs.h`. Bit 0 is the highest.
-/

namespace Ka10Simh.Pdp10

/-- `RMASK`, the right half of a word. -/
abbrev rmask : ℕ := 0o777777
/-- `SMASK`. -/
abbrev smask : ℕ := 0o400000000000
abbrev bit1 : ℕ := 0o200000000000
abbrev bit2 : ℕ := 0o100000000000
abbrev bit3 : ℕ := 0o40000000000
abbrev bit4 : ℕ := 0o20000000000
abbrev bit5 : ℕ := 0o10000000000
abbrev bit6 : ℕ := 0o4000000000
abbrev bit7 : ℕ := 0o2000000000
abbrev bit8 : ℕ := 0o1000000000

/-- `FMASK`, a word, `LMASK`, its left half, and `CMASK`, all but the sign. -/
abbrev fmask : ℕ := 0o777777777777
abbrev lmask : ℕ := 0o777777000000
abbrev cmask : ℕ := 0o377777777777
/-- `C1`, the carry out of a word. -/
abbrev c1 : ℕ := 0o1000000000000
/-- `RSIGN`, the sign of the right half. -/
abbrev rsign : ℕ := 0o400000
/-- `SECTM`, the section number in the left half. -/
abbrev sectm : ℕ := 0o7777000000
/-- `PMASK`, a byte pointer without its position. -/
abbrev pmask : ℕ := 0o7777777777
/-- `BIT12`, a byte pointer of two words. -/
abbrev bit12 : ℕ := 0o40000000
/-- `MANT`, the count of a string, and `EXPO`, the bits above it without the sign. -/
abbrev mant : ℕ := 0o777777777
abbrev expo : ℕ := 0o377000000000

/-- `GET_XR` and `TST_IND`, the index register and the indirect bit of an address word. -/
def getXr (w : ℕ) : ℕ := w >>> 18 &&& 0o17
def tstInd (w : ℕ) : Bool := w &&& 1 <<< 22 != 0

/-! ### Masks as remainders -/

lemma and_rmask (v : ℕ) : v &&& rmask = v % 2 ^ 18 := Nat.and_two_pow_sub_one_eq_mod v 18
lemma and_mant (v : ℕ) : v &&& mant = v % 2 ^ 27 := Nat.and_two_pow_sub_one_eq_mod v 27
lemma and_pmask (v : ℕ) : v &&& pmask = v % 2 ^ 30 := Nat.and_two_pow_sub_one_eq_mod v 30
lemma and_long (v : ℕ) : v &&& (sectm ||| rmask) = v % 2 ^ 30 := Nat.and_two_pow_sub_one_eq_mod v 30
lemma and_cmask (v : ℕ) : v &&& cmask = v % 2 ^ 35 := Nat.and_two_pow_sub_one_eq_mod v 35
lemma and_fmask (v : ℕ) : v &&& fmask = v % 2 ^ 36 := Nat.and_two_pow_sub_one_eq_mod v 36

lemma and_lmask (v : ℕ) : v &&& lmask = v / 2 ^ 18 % 2 ^ 18 * 2 ^ 18 := by
  rw [show lmask = (2 ^ 18 - 1) <<< 18 from rfl, Word.and_shiftLeft, Nat.and_two_pow_sub_one_eq_mod,
    Nat.shiftRight_eq_div_pow, Nat.shiftLeft_eq]

lemma and_smask (v : ℕ) : v &&& smask ≠ 0 ↔ v / 2 ^ 35 % 2 = 1 := Word.and_pow_ne_zero v 35

end Ka10Simh.Pdp10
