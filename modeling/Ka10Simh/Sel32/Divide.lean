import Ka10Simh.Sel32.Maps
import Ka10Simh.Sel32.Word

/-!
The fixed point divides of a SEL 32: `DVMx`, `DVR` and `DVI` of `sel32_cpu.c`.

A pair of registers is divided by 32 bits in the host's arithmetic of 64 bits. The quotient goes to the
odd register and the remainder to the even one; a quotient of more than 31 bits is an overflow, and so is
a divisor of zero.

* `Outcome.host`: the division of the host traps. It does for a divisor of zero, and for the least number
  of 64 bits by minus one.
* `Fixed.exec_fair_iff`: the dividends and divisors that are divided, or that overflow.
-/

namespace Ka10Simh.Sel32

/-! ### The source -/

/-- What a divide reads and writes: `GPR`, `PSD1`, `CC`, `MODES`, `TRAPME`, `TRAPSTATUS` and the `HLF`
flag of `i_flags`. -/
structure Cpu where
  gpr : ℕ → BitVec 32
  psd1 : BitVec 32
  cc : BitVec 32
  modes : BitVec 32
  model : Model
  trapme : ℕ
  trapStatus : ℕ
  hlf : Bool

/-- How an instruction ends: by a signal of the host, by `goto newpsd`, or by `break`. -/
inductive Outcome
  | host
  | newpsd (s : Cpu)
  | next (s : Cpu)

/-- `AEXPBIT`. -/
abbrev aexpBit : BitVec 32 := 0x01000000#32

/-- `UNDEFINSTR_TRAP`, `ADDRSPEC_TRAP` and `AEXPCEPT_TRAP`. -/
abbrev undefInstrTrap : ℕ := 0x90
abbrev addrSpecTrap : ℕ := 0xb0
abbrev aexpceptTrap : ℕ := 0xbc

/-- The operand of a memory reference (`RM`) out of the word that was read: a word, a halfword or a
byte. With `FC` 2 it is a double word, which is not a divisor. -/
def operand (fc : BitVec 3) (temp : BitVec 32) : BitVec 64 :=
  let source := temp.setWidth 64
  if fc = 0 then extend temp
  else if fc = 1 ∨ fc = 3 then
    let half := (if fc = 1 then source >>> 16 else source) &&& 0xffff
    if half &&& 0x8000 ≠ 0 then d32lMask ||| (0xffff0000 ||| half) else half
  else source >>> (8 * (7 - fc.toNat)) &&& 0xff

/-- The operators `%` and `/` of the host. -/
def hostDiv (dest source : BitVec 64) : Option (BitVec 64 × BitVec 64) :=
  if source = 0 ∨ dest = BitVec.intMin 64 ∧ source = -1 then none
  else some (dest.srem source, dest.sdiv source)

namespace Cpu

variable (s : Cpu)

/-- A pair of registers as 64 bits. -/
def merge (reg : ℕ) : BitVec 64 :=
  (s.gpr reg).setWidth 64 <<< 32 ||| (s.gpr (reg + 1)).setWidth 64

/-- `set_CCs`. -/
def setCCs (value : BitVec 32) (ovr : Bool) : Cpu :=
  let cc := (if ovr then cc1Bit else 0) |||
    (if value &&& fSign ≠ 0 then cc3Bit else if value = 0 then cc4Bit else cc2Bit)
  { s with cc, psd1 := s.psd1 &&& 0x87fffffe#32 ||| cc &&& 0x78000000#32 }

/-- The conditions of an overflow. -/
def overCC (dest : BitVec 64) : BitVec 32 :=
  cc1Bit ||| (if dest = 0 then cc4Bit else if dest &&& dmSign ≠ 0 then cc3Bit else cc2Bit)

/-- At the labels `doovr`, `doovr2` and `doovr3`. -/
def doovr (reg : ℕ) : Cpu :=
  let cc := overCC (s.merge reg)
  { s with
    cc
    psd1 := s.psd1 &&& 0x87fffffe#32 ||| cc
    trapme := if s.modes &&& aexpBit ≠ 0 then aexpceptTrap else s.trapme }

/-- The remainder and the quotient are stored. -/
def store (reg : ℕ) (td dest : BitVec 64) : Cpu :=
  { s with gpr := Function.update (Function.update s.gpr reg (td.setWidth 32)) (reg + 1) (dest.setWidth 32) }

/-- The divide, up to the test of the left half of the quotient, which is not the same everywhere. -/
def divide (wide : BitVec 64 → Bool) (reg : ℕ) (source : BitVec 64) : Outcome :=
  if source = 0 then .next (s.doovr reg)
  else
    let dest := s.merge reg
    match hostDiv dest source with
    | none => .host
    | some (rem, quo) =>
      let td := if (rem &&& dmSign) ^^^ (dest &&& dmSign) ≠ 0 then negate32 rem else rem
      -- the least number of 64 bits stays negative here, and is caught by `wide`
      let int64a := if quo.slt 0 then -quo else quo
      if (0x7fffffff#64).slt int64a then .next (s.doovr reg)
      else if wide quo then .next (s.doovr reg)
      else .next ((s.store reg td quo).setCCs (quo.setWidth 32) false)

/-- The test of `DVI`. -/
def wideLeft (dest : BitVec 64) : Bool :=
  dest &&& d32lMask ≠ 0 && dest &&& d32lMask ≠ d32lMask

/-- The test of `DVMx` and `DVR`, which looks at the right half as well. -/
def wideBoth (dest : BitVec 64) : Bool :=
  wideLeft dest || dest &&& d32lMask = d32lMask && dest &&& d32rMask = 0

/-- The trap of an odd register. -/
def addrSpec : Outcome := .newpsd { s with trapme := addrSpecTrap }

/-- `DVMx`, with the word that was read. -/
def dvm (reg : ℕ) (fc : BitVec 3) (temp : BitVec 32) : Outcome :=
  if reg % 2 = 1 then s.addrSpec
  else if fc = 2 then s.addrSpec
  else s.divide wideBoth reg (operand fc temp)

/-- `CPU_MODEL <= MODEL_27`. -/
def upTo27 : Bool := s.model == .m55 || s.model == .m75 || s.model == .m27

/-- What a diagnostic of the 32/27 wants of an odd register. -/
def fakeDiag : Cpu :=
  if s.upTo27 then
    if s.psd1 &&& 2 = 0 then { s with hlf := false } else { s with psd1 := s.psd1 &&& ~~~3 }
  else s

/-- `DVR`. -/
def dvr (reg sreg : ℕ) (sub : BitVec 4) : Outcome :=
  if reg % 2 = 1 then s.fakeDiag.addrSpec
  else if sub ≠ 0 then
    .newpsd
      { s with
        trapme := undefInstrTrap
        trapStatus := if s.model = .m97 ∨ s.model = .v9 then s.trapStatus ||| bit0 else s.trapStatus }
  else s.divide wideBoth reg (extend (s.gpr sreg))

/-- `DVI`, with the immediate operand of `IR`. -/
def dvi (reg : ℕ) (imm : BitVec 16) : Outcome :=
  let addr : BitVec 32 := (if imm &&& 0x8000 ≠ 0 then 0xffff0000#32 else 0) ||| imm.setWidth 32
  if reg % 2 = 1 then s.addrSpec
  else s.divide wideLeft reg (extend addr)

/-! ### The arithmetic of the host -/

variable {s}

/-- A pair of registers as a number. -/
def dividend (s : Cpu) (reg : ℕ) : ℤ := (s.gpr reg).toInt * 2 ^ 32 + (s.gpr (reg + 1)).toNat

lemma toNat_merge (reg : ℕ) :
    (s.merge reg).toNat = (s.gpr reg).toNat * 2 ^ 32 + (s.gpr (reg + 1)).toNat := by
  have hhi := (s.gpr reg).isLt
  have hlo := (s.gpr (reg + 1)).isLt
  rw [merge, BitVec.toNat_or, BitVec.toNat_shiftLeft, BitVec.toNat_setWidth, BitVec.toNat_setWidth,
    Nat.mod_eq_of_lt (by omega), Nat.mod_eq_of_lt (by omega), Nat.mod_eq_of_lt (by omega),
    Word.shiftLeft_or_eq hlo]

lemma toInt_merge (reg : ℕ) : (s.merge reg).toInt = s.dividend reg := by
  have hlo := (s.gpr (reg + 1)).isLt
  rw [dividend, BitVec.toInt_eq_toNat_cond, BitVec.toInt_eq_toNat_cond, toNat_merge]
  split_ifs <;> push_cast <;> lia

lemma wideLeft_iff (v : BitVec 64) : wideLeft v = true ↔ 2 ^ 32 ≤ v.toNat ∧ v.toNat < 2 ^ 64 - 2 ^ 32 := by
  have hv := v.isLt
  have hleft := toNat_and_d32lMask v
  have hmask : d32lMask.toNat = 2 ^ 64 - 2 ^ 32 := rfl
  have hzero : (0 : BitVec 64).toNat = 0 := rfl
  simp only [wideLeft, ne_eq, decide_not, Bool.and_eq_true, Bool.not_eq_true', decide_eq_false_iff_not,
    ← BitVec.toNat_inj, hleft, hmask, hzero]
  lia

lemma wideBoth_iff (v : BitVec 64) : wideBoth v = true ↔ 2 ^ 32 ≤ v.toNat ∧ v.toNat ≤ 2 ^ 64 - 2 ^ 32 := by
  have hv := v.isLt
  have hleft := toNat_and_d32lMask v
  have hright := toNat_and_d32rMask v
  have hmask : d32lMask.toNat = 2 ^ 64 - 2 ^ 32 := rfl
  have hzero : (0 : BitVec 64).toNat = 0 := rfl
  rw [wideBoth, Bool.or_eq_true, wideLeft_iff]
  simp only [Bool.and_eq_true, decide_eq_true_eq, ← BitVec.toNat_inj, hleft, hright, hmask, hzero]
  lia

/-- A test of the quotient that passes the numbers of 31 bits, and finds the least one of 64 bits. -/
structure Tests (wide : BitVec 64 → Bool) : Prop where
  short : ∀ v : BitVec 64, v.toInt.natAbs < 2 ^ 31 → wide v = false
  least : wide (BitVec.intMin 64) = true

lemma tests_wideLeft : Tests wideLeft where
  short v hv := by
    rw [Bool.eq_false_iff, ne_eq, wideLeft_iff]
    rw [BitVec.toInt_eq_toNat_cond] at hv
    split_ifs at hv <;> omega
  least := by decide

lemma tests_wideBoth : Tests wideBoth where
  short v hv := by
    rw [Bool.eq_false_iff, ne_eq, wideBoth_iff]
    rw [BitVec.toInt_eq_toNat_cond] at hv
    split_ifs at hv <;> omega
  least := by decide

/-- The sign of the remainder never has to be fixed: it is that of the dividend, or the remainder is
zero. -/
lemma fixed_sign (dest source : BitVec 64) :
    (if (dest.srem source &&& dmSign) ^^^ (dest &&& dmSign) ≠ 0 then negate32 (dest.srem source)
      else dest.srem source) = dest.srem source := by
  split_ifs with hfix
  · by_cases hzero : dest.srem source = 0
    · rw [hzero]
      rfl
    · exfalso
      have hne : (dest.srem source).toInt ≠ 0 := by
        rwa [ne_eq, ← BitVec.toInt_zero, BitVec.toInt_inj]
      have hsign := Int.sign_tmod dest.toInt source.toInt
      rw [← BitVec.toInt_srem] at hsign
      have hsame : (dest.srem source).msb = dest.msb := by
        rw [BitVec.msb_eq_toInt, BitVec.msb_eq_toInt]
        split_ifs at hsign with hdvd
        · exact absurd (Int.sign_eq_zero_iff_zero.mp hsign) hne
        · rw [decide_eq_decide, ← Int.sign_eq_neg_one_iff_neg, hsign, Int.sign_eq_neg_one_iff_neg]
      rw [and_dmSign, and_dmSign, hsame, BitVec.xor_self] at hfix
      exact hfix rfl
  · rfl

/-- The magnitude of the quotient, which is compared. -/
lemma large_iff {quo : BitVec 64} (h : quo ≠ BitVec.intMin 64) :
    (0x7fffffff#64).slt (if quo.slt 0 then -quo else quo) = true ↔ 2 ^ 31 ≤ quo.toInt.natAbs := by
  have hmax : (0x7fffffff#64).toInt = 2 ^ 31 - 1 := by decide
  have hzero : (0 : BitVec 64).toInt = 0 := rfl
  rw [BitVec.slt_iff_toInt_lt, hmax]
  split_ifs with hneg
  · rw [BitVec.slt_iff_toInt_lt, hzero] at hneg
    rw [BitVec.toInt_neg_of_ne_intMin h]
    omega
  · rw [BitVec.slt_iff_toInt_lt, hzero] at hneg
    omega

/-- What a divide does, by its dividend and divisor. -/
lemma divide_eq {wide : BitVec 64 → Bool} (hw : Tests wide) (reg : ℕ) (source : BitVec 64) :
    s.divide wide reg source =
      let rem := (s.merge reg).srem source
      let quo := (s.merge reg).sdiv source
      if source = 0 then .next (s.doovr reg)
      else if s.merge reg = BitVec.intMin 64 ∧ source = -1 then .host
      else if 2 ^ 31 ≤ quo.toInt.natAbs then .next (s.doovr reg)
      else .next ((s.store reg rem quo).setCCs (quo.setWidth 32) false) := by
  unfold divide hostDiv
  by_cases hzero : source = 0
  · rw [if_pos hzero, if_pos hzero]
  rw [if_neg hzero, if_neg hzero]
  by_cases htrap : s.merge reg = BitVec.intMin 64 ∧ source = -1
  · simp only [if_pos (Or.inr htrap : source = 0 ∨ _), if_pos htrap]
  rw [if_neg htrap]
  have hdiv : ¬ (source = 0 ∨ s.merge reg = BitVec.intMin 64 ∧ source = -1) := not_or.mpr ⟨hzero, htrap⟩
  simp only [if_neg hdiv, fixed_sign]
  generalize (s.merge reg).sdiv source = quo
  by_cases hleast : quo = BitVec.intMin 64
  · have hlarge : 2 ^ 31 ≤ quo.toInt.natAbs := by
      rw [hleast]
      decide
    rw [if_pos hlarge, hleast, hw.least, if_pos rfl, ite_self]
  · by_cases hlarge : 2 ^ 31 ≤ quo.toInt.natAbs
    · rw [if_pos hlarge, if_pos ((large_iff hleast).mpr hlarge)]
    · rw [if_neg hlarge, if_neg (mt (large_iff hleast).mp hlarge), hw.short quo (by omega), if_neg (by decide)]

end Cpu

/-! ### What a divide is for -/

/-- The quotient and the remainder are in the registers: the remainder is smaller than the divisor and
has the dividend's sign, and nothing else has changed there. -/
structure Divided (s s' : Cpu) (reg : ℕ) (d : ℤ) : Prop where
  equation : (s'.gpr (reg + 1)).toInt * d + (s'.gpr reg).toInt = s.dividend reg
  small : (s'.gpr reg).toInt.natAbs < d.natAbs
  sign : 0 ≤ (s'.gpr reg).toInt * s.dividend reg
  frame : ∀ r, r ≠ reg → r ≠ reg + 1 → s'.gpr r = s.gpr r
  cc1 : s'.psd1 &&& cc1Bit = 0

/-- The registers are as they were, and `CC1` is set: there is no quotient, or it has more than 31
bits. -/
structure Overflowed (s s' : Cpu) (reg : ℕ) (d : ℤ) : Prop where
  gpr : s'.gpr = s.gpr
  cc1 : s'.psd1 &&& cc1Bit ≠ 0
  cause : d = 0 ∨ 2 ^ 31 ≤ ((s.dividend reg).tdiv d).natAbs

/-- A divide that ends, with one or the other. -/
def Fair (s : Cpu) (reg : ℕ) (d : ℤ) (out : Outcome) : Prop :=
  ∃ s', out = .next s' ∧ (Divided s s' reg d ∨ Overflowed s s' reg d)

namespace Cpu

variable {s : Cpu}

/-- `CC1` after the old conditions are cleared and new ones put in. -/
lemma cc1_of_merge (psd1 cc : BitVec 32) : (psd1 &&& 0x87fffffe#32 ||| cc) &&& cc1Bit = cc &&& cc1Bit := by
  have hclear : psd1 &&& 0x87fffffe#32 &&& cc1Bit = 0#32 := by
    rw [BitVec.and_assoc, show 0x87fffffe#32 &&& cc1Bit = 0#32 from rfl, BitVec.and_zero]
  rw [BitVec.and_or_distrib_right, hclear, BitVec.zero_or]

lemma overCC_cc1 (dest : BitVec 64) : overCC dest &&& cc1Bit ≠ 0 := by
  unfold overCC
  split_ifs <;> decide

/-- Without an overflow. -/
lemma setCCs_cc1 (value : BitVec 32) : (s.setCCs value false).psd1 &&& cc1Bit = 0 := by
  unfold setCCs
  rw [cc1_of_merge]
  split_ifs <;> first | contradiction | decide

lemma overflowed_doovr {reg : ℕ} {d : ℤ} (h : d = 0 ∨ 2 ^ 31 ≤ ((s.dividend reg).tdiv d).natAbs) :
    Overflowed s (s.doovr reg) reg d where
  gpr := rfl
  cc1 := by
    rw [doovr, cc1_of_merge]
    exact overCC_cc1 _
  cause := h

/-- A number of 31 bits in a register. -/
lemma toInt_setWidth_of_short {v : BitVec 64} (h : v.toInt.natAbs < 2 ^ 31) :
    (v.setWidth 32).toInt = v.toInt := by
  have hmod : (v.toNat : ℤ) = v.toInt ∨ (v.toNat : ℤ) = v.toInt + 2 ^ 64 := by
    rw [BitVec.toInt_eq_toNat_cond]
    split_ifs
    · exact Or.inl rfl
    · right
      push_cast
      ring
  rw [BitVec.toInt_setWidth, Int.bmod_def]
  omega

lemma divided_store {reg : ℕ} {source : BitVec 64} (hsource : source.toInt.natAbs ≤ 2 ^ 31)
    (hzero : source ≠ 0) (htrap : ¬ (s.merge reg = BitVec.intMin 64 ∧ source = -1))
    (hquo : ((s.merge reg).sdiv source).toInt.natAbs < 2 ^ 31) :
    Divided s ((s.store reg ((s.merge reg).srem source) ((s.merge reg).sdiv source)).setCCs
      (((s.merge reg).sdiv source).setWidth 32) false) reg source.toInt := by
  have hne : source.toInt ≠ 0 := by rwa [ne_eq, ← BitVec.toInt_zero, BitVec.toInt_inj]
  have hdiv := BitVec.toInt_sdiv_of_ne_or_ne (s.merge reg) source (not_and_or.mp htrap)
  have hrem := BitVec.toInt_srem (s.merge reg) source
  have hlt : ((s.merge reg).srem source).toInt.natAbs < source.toInt.natAbs := by
    rw [hrem, Int.natAbs_tmod]
    exact Nat.mod_lt _ (by omega)
  have heven : (((s.merge reg).srem source).setWidth 32).toInt = (s.merge reg).toInt.tmod source.toInt := by
    rw [toInt_setWidth_of_short (by omega), hrem]
  have hodd : (((s.merge reg).sdiv source).setWidth 32).toInt = (s.merge reg).toInt.tdiv source.toInt := by
    rw [toInt_setWidth_of_short hquo, hdiv]
  refine ⟨?_, ?_, ?_, ?_, setCCs_cc1 _⟩ <;> simp only [setCCs, store]
  · rw [Function.update_self, Function.update_of_ne (by omega), Function.update_self, heven, hodd,
      ← toInt_merge, mul_comm, Int.mul_tdiv_add_tmod]
  · rwa [Function.update_of_ne (by omega), Function.update_self, heven, ← hrem]
  · rw [Function.update_of_ne (by omega), Function.update_self, heven, ← toInt_merge]
    rcases le_total 0 (s.merge reg).toInt with hpos | hneg
    · exact mul_nonneg (Int.tmod_nonneg _ hpos) hpos
    · refine mul_nonneg_of_nonpos_of_nonpos ?_ hneg
      have hminus := Int.tmod_nonneg source.toInt (neg_nonneg.mpr hneg)
      rw [Int.neg_tmod] at hminus
      omega
  · intro r hr hr'
    rw [Function.update_of_ne hr', Function.update_of_ne hr]

/-- **What a divide does**: it ends with a quotient and a remainder or with an overflow, unless the host
divides the least number of 64 bits by minus one. -/
theorem divide_fair_iff {wide : BitVec 64 → Bool} (hw : Tests wide) {reg : ℕ} {source : BitVec 64}
    (hsource : source.toInt.natAbs ≤ 2 ^ 31) :
    Fair s reg source.toInt (s.divide wide reg source) ↔
      ¬ (s.dividend reg = -2 ^ 63 ∧ source.toInt = -1) := by
  have hleast : s.merge reg = BitVec.intMin 64 ↔ s.dividend reg = -2 ^ 63 := by
    rw [← toInt_merge, ← BitVec.toInt_inj]
    rfl
  have hminus : source = -1 ↔ source.toInt = -1 := by
    rw [← BitVec.toInt_inj]
    rfl
  rw [divide_eq hw, ← hleast, ← hminus]
  by_cases hzero : source = 0
  · rw [if_pos hzero, hzero]
    refine ⟨fun _ h ↦ absurd h.2 (by decide), fun _ ↦ ⟨_, rfl, Or.inr (overflowed_doovr (Or.inl rfl))⟩⟩
  rw [if_neg hzero]
  by_cases htrap : s.merge reg = BitVec.intMin 64 ∧ source = -1
  · rw [if_pos htrap]
    refine ⟨?_, fun h ↦ absurd htrap h⟩
    rintro ⟨s', h, -⟩
    exact absurd h nofun
  rw [if_neg htrap]
  refine iff_of_true ?_ htrap
  have hdiv := BitVec.toInt_sdiv_of_ne_or_ne (s.merge reg) source (not_and_or.mp htrap)
  split_ifs with hlarge
  · rw [hdiv, toInt_merge] at hlarge
    exact ⟨_, rfl, Or.inr (overflowed_doovr (Or.inr hlarge))⟩
  · exact ⟨_, rfl, Or.inl (divided_store hsource hzero htrap (by omega))⟩

end Cpu

/-! ### The instructions -/

/-- A divide of a pair of registers by a word, a halfword or a byte of memory, by a register, or by an
immediate operand. -/
inductive Fixed
  | dvm (fc : BitVec 3) (temp : BitVec 32)
  | dvr (sreg : ℕ) (sub : BitVec 4)
  | dvi (imm : BitVec 16)

namespace Fixed

/-- The instruction on a pair of registers. -/
def exec (s : Cpu) (reg : ℕ) : Fixed → Outcome
  | dvm fc temp => s.dvm reg fc temp
  | dvr sreg sub => s.dvr reg sreg sub
  | dvi imm => s.dvi reg imm

/-- A double word of memory is not a divisor, nor is there another instruction with the code of `DVR`. -/
def Legal : Fixed → Prop
  | dvm fc _ => fc ≠ 2
  | dvr _ sub => sub = 0
  | dvi _ => True

/-- A divisor in memory. Bytes have no sign. -/
def memDivisor (fc : BitVec 3) (temp : BitVec 32) : ℤ :=
  if fc = 0 then temp.toInt
  else if fc = 1 then (temp.extractLsb' 16 16).toInt
  else if fc = 3 then (temp.extractLsb' 0 16).toInt
  else (temp.extractLsb' (8 * (7 - fc.toNat)) 8).toNat

/-- The divisor. -/
def divisor (s : Cpu) : Fixed → ℤ
  | dvm fc temp => memDivisor fc temp
  | dvr sreg _ => (s.gpr sreg).toInt
  | dvi imm => imm.toInt

/-- A field of a word that was read. -/
lemma and_low {k n : ℕ} (hn : n < 64) {m : BitVec 64} (hm : m.toNat = 2 ^ n - 1) (temp : BitVec 32) :
    temp.setWidth 64 >>> k &&& m = (temp.extractLsb' k n).setWidth 64 := by
  have hlt := temp.isLt
  have hpow : 2 ^ n < 2 ^ 64 := Nat.pow_lt_pow_right (by decide) hn
  have hfield : (temp.toNat >>> k) % 2 ^ n < 2 ^ n := Nat.mod_lt _ (by positivity)
  apply BitVec.eq_of_toNat_eq
  rw [BitVec.toNat_and, hm, Nat.and_two_pow_sub_one_eq_mod, BitVec.toNat_ushiftRight, BitVec.toNat_setWidth,
    BitVec.toNat_setWidth, BitVec.extractLsb'_toNat, Nat.mod_eq_of_lt (by omega : temp.toNat < 2 ^ 64),
    Nat.mod_eq_of_lt (by omega : _ < 2 ^ 64)]

/-- A halfword in a longer word, with ones above it when it is negative. -/
lemma toInt_half {n : ℕ} (hn : 16 < n) {m : BitVec n} (hm : m.toNat = 2 ^ n - 2 ^ 16) (h : BitVec 16) :
    (if h.msb = true then m ||| h.setWidth n else h.setWidth n).toInt = h.toInt := by
  have hlt := h.isLt
  have hpow : 2 ^ 17 ≤ 2 ^ n := Nat.pow_le_pow_right (by decide) hn
  have hnat : (h.setWidth n).toNat = h.toNat := by
    rw [BitVec.toNat_setWidth, Nat.mod_eq_of_lt (by omega)]
  split_ifs with hmsb
  · have hge := BitVec.msb_eq_true_iff_two_mul_ge.mp hmsb
    rw [toInt_fill hn hm (by lia), hnat, BitVec.toInt_eq_toNat_cond, if_neg (by lia)]
    rfl
  · have hless := BitVec.msb_eq_false_iff_two_mul_lt.mp (Bool.eq_false_iff.mpr hmsb)
    rw [BitVec.toInt_eq_toNat_cond, BitVec.toInt_eq_toNat_cond, hnat, if_pos (by lia), if_pos hless]

/-- The sign of a halfword in a double word. -/
lemma half_sign (h : BitVec 16) : h.setWidth 64 &&& 0x8000 ≠ 0 ↔ h.msb = true := by
  have hand : h.setWidth 64 &&& 0x8000 = if h.msb then 0x8000 else 0 := BitVec.and_twoPow (h.setWidth 64) 15
  rw [hand]
  cases h.msb <;> decide

lemma toInt_operand (fc : BitVec 3) (temp : BitVec 32) :
    (operand fc temp).toInt = memDivisor fc temp := by
  have hmask : (0xffff : BitVec 64).toNat = 2 ^ 16 - 1 := rfl
  have hfill : (d32lMask ||| 0xffff0000 : BitVec 64).toNat = 2 ^ 64 - 2 ^ 16 := rfl
  have hright := and_low (k := 0) (by decide) hmask temp
  rw [BitVec.ushiftRight_zero] at hright
  unfold operand memDivisor
  by_cases h0 : fc = 0
  · rw [if_pos h0, if_pos h0, toInt_extend]
  by_cases h1 : fc = 1
  · have hhalf : fc = 1 ∨ fc = 3 := Or.inl h1
    simp only [if_neg h0, if_pos h1, if_pos hhalf, and_low (by decide) hmask, half_sign, ← BitVec.or_assoc]
    exact toInt_half (by decide) hfill _
  by_cases h3 : fc = 3
  · have hhalf : fc = 1 ∨ fc = 3 := Or.inr h3
    simp only [if_neg h0, if_neg h1, if_pos h3, if_pos hhalf, hright, half_sign, ← BitVec.or_assoc]
    exact toInt_half (by decide) hfill _
  · have hhalf : ¬ (fc = 1 ∨ fc = 3) := not_or.mpr ⟨h1, h3⟩
    have hbyte : (0xff : BitVec 64).toNat = 2 ^ 8 - 1 := rfl
    have hlt := (temp.extractLsb' (8 * (7 - fc.toNat)) 8).isLt
    simp only [if_neg h0, if_neg h1, if_neg h3, if_neg hhalf, and_low (by decide) hbyte]
    rw [BitVec.toInt_eq_toNat_cond, BitVec.toNat_setWidth, Nat.mod_eq_of_lt (by omega), if_pos (by omega)]

/-- The sign of an immediate operand. -/
lemma toInt_imm (imm : BitVec 16) :
    (extend ((if imm &&& 0x8000 ≠ 0 then 0xffff0000#32 else 0) ||| imm.setWidth 32)).toInt = imm.toInt := by
  have hand : imm &&& 0x8000 = if imm.msb then 0x8000 else 0 := BitVec.and_twoPow imm 15
  have hzero : (0 : BitVec 32) ||| imm.setWidth 32 = imm.setWidth 32 := BitVec.zero_or
  have hhalf := toInt_half (m := 0xffff0000#32) (by decide) rfl imm
  rw [toInt_extend, ← hhalf, hand]
  cases imm.msb
  · exact congrArg BitVec.toInt hzero
  · rfl

lemma natAbs_divisor_le (f : Fixed) (s : Cpu) : (f.divisor s).natAbs ≤ 2 ^ 31 := by
  have hword (w : BitVec 32) : w.toInt.natAbs ≤ 2 ^ 31 := by
    have hle := w.le_toInt
    have hlt := w.toInt_lt
    omega
  have hhalf (h : BitVec 16) : h.toInt.natAbs ≤ 2 ^ 31 := by
    have hle := h.le_toInt
    have hlt := h.toInt_lt
    omega
  cases f with
  | dvm fc temp =>
      have hbyte := (temp.extractLsb' (8 * (7 - fc.toNat)) 8).isLt
      rw [divisor]
      unfold memDivisor
      split_ifs
      · exact hword temp
      · exact hhalf _
      · exact hhalf _
      · omega
  | dvr sreg sub => exact hword _
  | dvi imm => exact hhalf _

/-- Each is a divide by its divisor. -/
lemma exec_eq {f : Fixed} (hf : f.Legal) {reg : ℕ} (hreg : reg % 2 = 0) (s : Cpu) :
    ∃ wide source, Cpu.Tests wide ∧ source.toInt = f.divisor s ∧ f.exec s reg = s.divide wide reg source := by
  have heven : ¬ reg % 2 = 1 := by omega
  cases f with
  | dvm fc temp =>
      refine ⟨_, operand fc temp, Cpu.tests_wideBoth, toInt_operand fc temp, ?_⟩
      rw [exec, Cpu.dvm, if_neg heven, if_neg hf]
  | dvr sreg sub =>
      refine ⟨_, extend (s.gpr sreg), Cpu.tests_wideBoth, toInt_extend _, ?_⟩
      have hsub : ¬ sub ≠ 0 := not_not.mpr hf
      rw [exec, Cpu.dvr, if_neg heven, if_neg hsub]
  | dvi imm =>
      refine ⟨_, _, Cpu.tests_wideLeft, toInt_imm imm, ?_⟩
      rw [exec, Cpu.dvi, if_neg heven]

/-- **The fixed point divides**: a divide of an even register and the next one leaves a quotient of 32
bits and a remainder of the dividend's sign, or it leaves the registers and sets `CC1`; but the least
dividend by minus one is a divide that the host does not survive. -/
theorem exec_fair_iff {f : Fixed} (hf : f.Legal) {reg : ℕ} (hreg : reg % 2 = 0) (s : Cpu) :
    Fair s reg (f.divisor s) (f.exec s reg) ↔ ¬ (s.dividend reg = -2 ^ 63 ∧ f.divisor s = -1) := by
  obtain ⟨wide, source, hwide, hsource, hexec⟩ := exec_eq hf hreg s
  rw [hexec, ← hsource]
  refine Cpu.divide_fair_iff hwide ?_
  rw [hsource]
  exact natAbs_divisor_le f s

/-- `R0` and `R1` with the least number of 64 bits, and nothing else. -/
def leastPair : Cpu where
  gpr := fun r ↦ if r = 0 then 0x80000000#32 else 0
  psd1 := 0
  cc := 0
  modes := 0
  model := .v9
  trapme := 0
  trapStatus := 0
  hlf := false

/-- A divide by minus one, which is fair for a dividend of zero. -/
theorem minus_one_fair :
    Fair { leastPair with gpr := fun _ ↦ 0 } 0 (-1) ((dvi 0xffff).exec { leastPair with gpr := fun _ ↦ 0 } 0) :=
  (exec_fair_iff (f := dvi 0xffff) trivial rfl _).mpr (by decide)

/-- The least dividend by minus one, with `DVI`. -/
theorem least_by_minus_one :
    ¬ ∀ (f : Fixed) (reg : ℕ) (s : Cpu), f.Legal → reg % 2 = 0 → Fair s reg (f.divisor s) (f.exec s reg) := by
  intro h
  obtain ⟨s', hend, -⟩ := h (dvi 0xffff) 0 leastPair trivial rfl
  have htrap : (dvi 0xffff).exec leastPair 0 = .host := rfl
  rw [htrap] at hend
  exact absurd hend nofun

end Fixed

end Ka10Simh.Sel32
