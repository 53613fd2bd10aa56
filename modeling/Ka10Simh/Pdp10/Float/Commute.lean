import Ka10Simh.Pdp10.Float.Double
import Ka10Simh.Pdp10.Float.Modes

/-!
Sums and products do not depend on the order of the operands.

* `faddSwap_spec`: the operand with the larger exponent is in `AR`, and the other one is shifted.
* `fadd_comm`, `fmp_comm`: what goes to `fnorm` is the same, up to `flag3`.
* `dfad_comm`, `dfmp_comm`: the same for double precision.
* `commutes`: the results are the same, but for products of different signs on a PDP6.
-/

namespace Ka10Simh.Pdp10.Fp

/-! ### Sums -/

section Sums

variable {br ar : ℕ}

lemma and_smask_eq_iff (hb : br < 2 ^ 36) (ha : ar < 2 ^ 36) :
    br &&& smask = ar &&& smask ↔ (br < 2 ^ 35 ↔ ar < 2 ^ 35) := by
  rw [Arith.and_smask_eq hb, Arith.and_smask_eq ha, Arith.sg, Arith.sg]
  lia

lemma and_0400 (x : ℕ) : x &&& 0o400 = 0 ↔ x / 256 % 2 = 0 := by
  have hbit := Word.and_pow_ne_zero x 8
  have hmod := Nat.mod_two_eq_zero_or_one (x / 256)
  rw [← not_iff_not, ← ne_eq]
  rw [show 0o400 = 2 ^ 8 from rfl, hbit]
  lia

lemma and_0777 (x : ℕ) : x &&& 0o777 = x % 512 := Nat.and_two_pow_sub_one_eq_mod x 9

lemma xor_0777 {x : ℕ} (h : x < 512) : x ^^^ 0o777 = 511 - x := by
  rw [Nat.xor_comm]
  exact Word.mask_xor (n := 9) h

lemma faddScad_eq (hb : br < 2 ^ 36) (ha : ar < 2 ^ 36) : faddScad br ar =
    if (br < 2 ^ 35 ↔ ar < 2 ^ 35) then (br / 2 ^ 27 + (511 - ar / 2 ^ 27) + 1) % 512
    else (br / 2 ^ 27 + ar / 2 ^ 27) % 512 := by
  have hfield {x : ℕ} (hx : x < 2 ^ 36) : x >>> 27 &&& 0o777 = x / 2 ^ 27 := by
    rw [and_0777, Nat.shiftRight_eq_div_pow]
    lia
  rw [faddScad, hfield hb, hfield ha, xor_0777 (by omega), and_0777]
  by_cases hsame : br < 2 ^ 35 ↔ ar < 2 ^ 35
  · rw [if_pos ((and_smask_eq_iff hb ha).mpr hsame), if_pos hsame]
  · rw [if_neg (mt (and_smask_eq_iff hb ha).mp hsame), if_neg hsame]

/-- `SCAD` of a positive word in `BR` is the difference of the exponents, less one if the other is negative. -/
lemma faddScad_pos (hb : br < 2 ^ 36) (ha : ar < 2 ^ 36) (hpos : br < 2 ^ 35) : faddScad br ar =
    if br &&& smask = ar &&& smask then (512 + getExpo br - getExpo ar) % 512
    else (511 + getExpo br - getExpo ar) % 512 := by
  have hfield : br / 2 ^ 27 < 256 := by omega
  rw [faddScad_eq hb ha, getExpo_eq hb, getExpo_eq ha, if_pos hpos]
  by_cases hneg : ar < 2 ^ 35
  · have hfield' : ar / 2 ^ 27 < 256 := by omega
    rw [if_pos (by simp only [hpos, hneg]), if_pos ((and_smask_eq_iff hb ha).mpr (by simp only [hpos, hneg])), if_pos hneg]
    congr 1
    lia
  · have hfield' : 256 ≤ ar / 2 ^ 27 ∧ ar / 2 ^ 27 < 512 := by omega
    rw [if_neg (by simp only [hpos, hneg]; simp), if_neg fun h ↦ hneg (((and_smask_eq_iff hb ha).mp h).mp hpos), if_neg hneg]
    congr 1
    lia

/-- That of a negative word is the difference the other way. -/
lemma faddScad_neg (hb : br < 2 ^ 36) (ha : ar < 2 ^ 36) (hneg : ¬ br < 2 ^ 35) : faddScad br ar =
    if br &&& smask = ar &&& smask then (512 + getExpo ar - getExpo br) % 512
    else (511 + getExpo ar - getExpo br) % 512 := by
  have hfield : 256 ≤ br / 2 ^ 27 ∧ br / 2 ^ 27 < 512 := by omega
  rw [faddScad_eq hb ha, getExpo_eq hb, getExpo_eq ha, if_neg hneg]
  by_cases hpos : ar < 2 ^ 35
  · have hfield' : ar / 2 ^ 27 < 256 := by omega
    rw [if_neg (by simp only [hpos, hneg]; simp), if_neg fun h ↦ hneg (((and_smask_eq_iff hb ha).mp h).mpr hpos), if_pos hpos]
    congr 1
    lia
  · have hfield' : 256 ≤ ar / 2 ^ 27 ∧ ar / 2 ^ 27 < 512 := by omega
    rw [if_pos (by simp only [hpos, hneg]), if_pos ((and_smask_eq_iff hb ha).mpr (by simp only [hpos, hneg])), if_neg hpos]
    congr 1
    lia

/-- What is made of a difference in `SCAD`: its sign, and the negative of the shift. -/
lemma shift_of_scad {same : Prop} [Decidable same] {s e f : ℕ} (he : e < 256) (hf : f < 256)
    (hs : s = if same then (512 + e - f) % 512 else (511 + e - f) % 512) :
    (s &&& 0o400 = 0 → f ≤ e ∧ (if same then (s ^^^ 0o777) + 1 &&& 0o777 else s ^^^ 0o777) = (512 - (e - f)) % 512)
      ∧ (s &&& 0o400 ≠ 0 → e ≤ f ∧ (if ¬ same then s + 1 &&& 0o777 else s) = (512 - (f - e)) % 512) := by
  have hlt : s < 512 := by
    rw [hs]
    split <;> exact Nat.mod_lt _ (by norm_num)
  have hbit := and_0400 s
  rw [and_0777, and_0777, xor_0777 hlt, ne_eq, hbit]
  by_cases hsame : same
  · rw [if_pos hsame] at hs
    rw [if_pos hsame, if_neg (not_not.mpr hsame)]
    constructor <;> intro h <;> constructor <;> lia
  · rw [if_neg hsame] at hs
    rw [if_neg hsame, if_pos hsame]
    constructor <;> intro h <;> constructor <;> lia

/-- **The operands in the order of their exponents**, and the negative of the shift for the smaller one. -/
theorem faddSwap_spec (hb : br < 2 ^ 36) (ha : ar < 2 ^ 36) : ∃ x y, (x = br ∧ y = ar ∨ x = ar ∧ y = br) ∧
    getExpo y ≤ getExpo x ∧ faddSwap br ar = (x, y, (512 - (getExpo x - getExpo y)) % 512) := by
  have hsign := and_smask br
  have heb := getExpo_lt hb
  have hea := getExpo_lt ha
  rw [faddSwap]
  by_cases hpos : br < 2 ^ 35
  · have hscad := faddScad_pos hb ha hpos
    have hplus : ¬ br &&& smask ≠ 0 := by rw [hsign]; lia
    by_cases hbit : faddScad br ar &&& 0o400 = 0
    · obtain ⟨hle, hshift⟩ := (shift_of_scad heb hea hscad).1 hbit
      refine ⟨br, ar, .inl ⟨rfl, rfl⟩, hle, ?_⟩
      rw [if_pos (propext (iff_of_false hplus (not_not.mpr hbit))), if_pos hbit, hshift]
    · obtain ⟨hle, hshift⟩ := (shift_of_scad heb hea (hscad.trans (if_congr eq_comm rfl rfl))).2 hbit
      refine ⟨ar, br, .inr ⟨rfl, rfl⟩, hle, ?_⟩
      rw [if_neg fun h ↦ hplus (Eq.mpr h hbit), if_neg hbit, hshift]
  · have hscad := faddScad_neg hb ha hpos
    have hminus : br &&& smask ≠ 0 := by rw [hsign]; lia
    by_cases hbit : faddScad br ar &&& 0o400 = 0
    · obtain ⟨hle, hshift⟩ := (shift_of_scad hea heb (hscad.trans (if_congr eq_comm rfl rfl))).1 hbit
      refine ⟨ar, br, .inr ⟨rfl, rfl⟩, hle, ?_⟩
      rw [if_neg fun h ↦ absurd hbit (Eq.mp h hminus), if_pos hbit, hshift]
    · obtain ⟨hle, hshift⟩ := (shift_of_scad hea heb hscad).2 hbit
      refine ⟨br, ar, .inl ⟨rfl, rfl⟩, hle, ?_⟩
      rw [if_pos (propext (iff_of_true hminus hbit)), if_neg hbit, hshift]

/-- **A sum does not depend on the order.** -/
theorem fadd_comm (c : Build) (hb : br < 2 ^ 36) (ha : ar < 2 ^ 36) : fadd c br ar = fadd c ar br := by
  obtain ⟨x, y, hxy, hle, hswap⟩ := faddSwap_spec hb ha
  obtain ⟨x', y', hxy', hle', hswap'⟩ := faddSwap_spec ha hb
  by_cases hsame : x = x' ∧ y = y'
  · rw [fadd, fadd, hswap, hswap', hsame.1, hsame.2]
  · -- both orders are possible when the exponents are equal
    obtain ⟨rfl, rfl⟩ : x' = y ∧ y' = x := by
      rcases hxy with ⟨rfl, rfl⟩ | ⟨rfl, rfl⟩ <;> rcases hxy' with ⟨rfl, rfl⟩ | ⟨rfl, rfl⟩ <;> simp at hsame ⊢
    have heq := le_antisymm hle hle'
    have halign (br : BitVec 64) : alignBr c 0 br = br := if_neg (by decide)
    rw [fadd, fadd, hswap, hswap', heq, Nat.sub_self]
    simp only [Nat.sub_zero, Nat.mod_self, halign, BitVec.add_comm]

end Sums

/-! ### Products -/

/-- Registers that differ only in `flag3`. -/
structure Same (r r' : Reg) : Prop where
  ar : r.ar = r'.ar
  sc : r.sc = r'.sc

section Products

variable {c : Build} {r r' : Reg}

lemma shiftUp_same (hc : c ≠ .pdp6) (k : ℕ) (h : Same r r') : Same (shiftUp c k r) (shiftUp c k r') := by
  induction k generalizing r r' with
  | zero => exact h
  | succ k ih =>
      rw [shiftUp, shiftUp, h.ar]
      split
      · exact ih ⟨rfl, by rw [h.sc]⟩
      · exact h

lemma edge_same (h : Same r r') : Same (edge r) (edge r') := by
  rw [edge, edge, h.ar]
  split
  · exact ⟨rfl, by rw [h.sc]⟩
  · exact h

lemma fnormx_same (hc : c ≠ .pdp6) (ir : ℕ) (h : Same r r') : Same (fnormx c ir r) (fnormx c ir r') := by
  have hloop := edge_same (shiftUp_same hc 65 h)
  have hround : round c ir (edge (shiftUp c 65 r)) = round c ir (edge (shiftUp c 65 r')) := by
    rw [round, round, hloop.ar, hloop.sc]
  rw [fnormx, fnormx, hloop.ar, hround]
  split
  · exact ⟨rfl, rfl⟩
  · exact hloop

/-- **Only a PDP6 looks at `flag3`.** -/
theorem fnorm_same (hc : c ≠ .pdp6) (ir : ℕ) (piCycle flag1 hold : Bool) (flags : ℕ) (h : Same r r') :
    fnorm c ir piCycle flag1 hold flags r = fnorm c ir piCycle flag1 hold flags r' := by
  have hpack (ar mq : ℕ) (hold : Bool) (sc : ℤ) (f f' : BitVec 64) :
      pack c ir piCycle flag1 hold flags ar mq sc f = pack c ir piCycle flag1 hold flags ar mq sc f' := by
    simp only [pack, lowWord, if_neg hc]
  have hfirst : Same (first r) (first r') := by
    rw [first, first, h.ar]
    split
    · exact ⟨by rw [Reg.down, Reg.down, h.ar], by rw [Reg.down, Reg.down, h.sc]⟩
    · exact h
  have hnorm := @fnormx_same _ ⟨(first r).ar &&& ~~~0o77, (first r).sc, (first r).flag3⟩
    ⟨(first r').ar &&& ~~~0o77, (first r').sc, (first r').flag3⟩ hc ir ⟨by rw [hfirst.ar], hfirst.sc⟩
  have hbranch : Same
      (if ir ≠ 0o130 ∧ ir ≠ 0o247 then fnormx c ir ⟨(first r).ar &&& ~~~0o77, (first r).sc, (first r).flag3⟩
        else ⟨(first r).ar &&& ~~~0o77, (first r).sc, (first r).flag3⟩)
      (if ir ≠ 0o130 ∧ ir ≠ 0o247 then fnormx c ir ⟨(first r').ar &&& ~~~0o77, (first r').sc, (first r').flag3⟩
        else ⟨(first r').ar &&& ~~~0o77, (first r').sc, (first r').flag3⟩) := by
    split
    · exact hnorm
    · exact ⟨by rw [hfirst.ar], hfirst.sc⟩
  rw [fnorm, fnorm]
  simp only [if_neg hc]
  by_cases hzero : (first r').ar ≠ 0
  · have hzero' : (first r).ar ≠ 0 := by rwa [hfirst.ar]
    rw [if_pos hzero, if_pos hzero', hbranch.ar, hbranch.sc, hfirst.sc]
    exact hpack ..
  · have hzero' : ¬ (first r).ar ≠ 0 := by rwa [hfirst.ar]
    rw [if_neg hzero, if_neg hzero']
    exact hpack ..

variable {br ar : ℕ}

/-- **A product does not depend on the order**, but for `flag3`. -/
theorem fmp_comm (c : Build) (br ar : ℕ) (h : c ≠ .pdp6 ∨ (br &&& smask ≠ 0 ↔ ar &&& smask ≠ 0)) :
    (fmp c br ar).flag1 = (fmp c ar br).flag1 ∧ Same (fmp c br ar).reg (fmp c ar br).reg ∧
      (c = .pdp6 → (fmp c br ar).reg.flag3 = (fmp c ar br).reg.flag3) := by
  have hflag : (fmp c br ar).flag1 = (fmp c ar br).flag1 := Bool.xor_comm ..
  have hflag3 (hc : c = .pdp6) : decide (ar &&& smask ≠ 0) = decide (br &&& smask ≠ 0) :=
    decide_eq_decide.mpr (h.resolve_left (not_not.mpr hc)).symm
  refine ⟨hflag, ⟨?_, ?_⟩, fun hc ↦ ?_⟩
  · have hxor : (decide (ar &&& smask ≠ 0) ^^ decide (br &&& smask ≠ 0)) =
        (decide (br &&& smask ≠ 0) ^^ decide (ar &&& smask ≠ 0)) := Bool.xor_comm ..
    simp only [fmp]
    rw [hxor, Nat.mul_comm]
    by_cases hc : c = .pdp6
    · rw [if_pos hc, if_pos hc, hflag3 hc]
    · rw [if_neg hc, if_neg hc]
  · have hl : extendSc c (rawExpo br) + extendSc c (rawExpo ar) = extendSc c (rawExpo ar) + extendSc c (rawExpo br) :=
      add_comm _ _
    simp only [fmp]
    rw [hl, add_comm (rawExpo br : ℤ), add_right_comm]
  · simp only [fmp]
    rw [hflag3 hc]

end Products

/-! ### Double precision -/

section Doubles

variable {a m : Double}

lemma dsum_comm (ar br : BitVec 64) (fe sc : ℤ) : dsum ar br fe sc = dsum br ar sc fe := by
  rw [dsum, dsum]
  rcases lt_trichotomy sc fe with hlt | rfl | hgt
  · rw [if_pos hlt, if_neg hlt.not_gt]
  · simp only [lt_self_iff_false, if_false, sub_self, Int.toNat_zero, Nat.not_lt_zero, dalign, BitVec.add_comm]
  · rw [if_pos hgt, if_neg hgt.not_gt]

/-- **A double sum does not depend on the order.** -/
theorem dfad_comm (c : Build) (piCycle : Bool) (flags : ℕ) (a m : Double) :
    dfad c 0o110 piCycle flags a m = dfad c 0o110 piCycle flags m a := by
  simp only [dfad, show ¬ (0o110 &&& 1 ≠ 0) by decide, if_false]
  rw [dsum_comm]

/-- A normalized fraction made positive. -/
lemma magnitude_lt (h : Normalized2 m) :
    (if widen2 m &&& fpsbit ≠ 0 then (fpfmask ^^^ widen2 m) + 1 else widen2 m).toNat < 2 ^ 62 := by
  have hint := toInt_widen2 h.lt
  have hrange := mantissa2_range m
  have hsign : widen2 m &&& fpsbit ≠ 0 ↔ (widen2 m).toInt < 0 := by
    rw [fpsbit_iff, hint]
    omega
  rw [toNat_magnitude hsign, hint]
  rcases h.range with ⟨-, h0⟩ | ⟨-, hlt⟩
  · rw [h0]
    norm_num
  · zify
    exact hlt

/-- **And neither does a double product**, of numbers that are normalized. -/
theorem dfmp_comm (c : Build) (piCycle : Bool) (flags : ℕ) (ha : Normalized2 a) (hm : Normalized2 m) :
    dfmp c piCycle flags a m = dfmp c piCycle flags m a := by
  obtain ⟨harx, hmq⟩ := dfmpLoop_spec a.lo (magnitude_lt ha) (magnitude_lt hm)
  obtain ⟨harx', hmq'⟩ := dfmpLoop_spec m.lo (magnitude_lt hm) (magnitude_lt ha)
  have hmul := Nat.mul_comm (if widen2 m &&& fpsbit ≠ 0 then (fpfmask ^^^ widen2 m) + 1 else widen2 m).toNat
    (if widen2 a &&& fpsbit ≠ 0 then (fpfmask ^^^ widen2 a) + 1 else widen2 a).toNat
  rw [hmul] at harx' hmq'
  have hsame := BitVec.eq_of_toNat_eq (harx.trans harx'.symm)
  rw [dfmp, dfmp]
  simp only [hsame, hmq.trans hmq'.symm, Bool.xor_comm (decide (widen2 a &&& fpsbit ≠ 0)), add_comm (getExpo a.hi : ℤ)]

end Doubles

/-! ### The instructions -/

/-- The order of the operands has no part in the word and the flags. -/
def Commutes (c : Build) (op : Op) (rounds piCycle : Bool) (flags : ℕ) (x y : BitVec 36) : Prop :=
  operate c (op.opcode rounds) piCycle flags x.toNat y.toNat = operate c (op.opcode rounds) piCycle flags y.toNat x.toNat

section Instructions

variable {c : Build} {piCycle : Bool} {flags : ℕ} {x y : BitVec 36}

lemma operate_fad (rounds : Bool) (br ar : ℕ) : operate c (Op.fad.opcode rounds) piCycle flags br ar =
    .stored (fnorm c (Op.fad.opcode rounds) piCycle (fadd c br ar).flag1 false flags (fadd c br ar).reg) := by
  cases rounds <;> rfl

lemma operate_fmp (rounds : Bool) (br ar : ℕ) : operate c (Op.fmp.opcode rounds) piCycle flags br ar =
    .stored (fnorm c (Op.fmp.opcode rounds) piCycle (fmp c br ar).flag1 false flags (fmp c br ar).reg) := by
  cases rounds <;> rfl

lemma commutes_fad (rounds : Bool) : Commutes c .fad rounds piCycle flags x y := by
  rw [Commutes, operate_fad, operate_fad, fadd_comm c x.isLt y.isLt]

lemma commutes_fmp (rounds : Bool) (h : c ≠ .pdp6 ∨ (x.toNat &&& smask ≠ 0 ↔ y.toNat &&& smask ≠ 0)) :
    Commutes c .fmp rounds piCycle flags x y := by
  obtain ⟨hflag, hsame, hflag3⟩ := fmp_comm c x.toNat y.toNat h
  rw [Commutes, operate_fmp, operate_fmp, hflag]
  by_cases hc : c = .pdp6
  · rw [Reg.ext hsame.ar hsame.sc (hflag3 hc)]
  · rw [fnorm_same hc _ piCycle _ false flags hsame]

/-- **Sums and products commute**; on a PDP6 the products of two words with the same sign do. -/
theorem commutes (c : Build) (rounds piCycle : Bool) (flags : ℕ) (x y : BitVec 36) (a m : Double) :
    Commutes c .fad rounds piCycle flags x y ∧
    (c ≠ .pdp6 ∨ (x.toNat &&& smask ≠ 0 ↔ y.toNat &&& smask ≠ 0) → Commutes c .fmp rounds piCycle flags x y) ∧
    (Normalized2 a → Normalized2 m → dfad c 0o110 piCycle flags a m = dfad c 0o110 piCycle flags m a ∧
      dfmp c piCycle flags a m = dfmp c piCycle flags m a) :=
  ⟨commutes_fad rounds, commutes_fmp rounds, fun ha hm ↦ ⟨dfad_comm c piCycle flags a m, dfmp_comm c piCycle flags ha hm⟩⟩

/-- One and a half, in single and in double precision. -/
theorem commutes_one : Commutes .kl .fmp true false 0 0o201400000000 0o200400000000 ∧
    dfmp .kl false 0 ⟨0o201400000000, 0⟩ ⟨0o200400000000, 0⟩ = dfmp .kl false 0 ⟨0o200400000000, 0⟩ ⟨0o201400000000, 0⟩ := by
  obtain ⟨-, hfmp, hdouble⟩ := commutes .kl true false 0 0o201400000000 0o200400000000 ⟨0o201400000000, 0⟩ ⟨0o200400000000, 0⟩
  refine ⟨hfmp (.inl (by decide)), (hdouble ⟨by decide, .inr (by decide)⟩ ⟨by decide, .inr (by decide)⟩).2⟩

/-- On a PDP6 the sign of the operand in memory has a part in the product. -/
theorem commutes_fails : ¬ ∀ (c : Build) (op : Op) (rounds piCycle : Bool) (flags : ℕ) (x y : BitVec 36),
    op = .fad ∨ op = .fmp → Commutes c op rounds piCycle flags x y := fun h ↦ by
  have hpdp6 := h .pdp6 .fmp false false 0 0o763000000000 0o015000000000 (.inr rfl)
  exact absurd hpdp6 (by
    rw [Commutes]
    decide +kernel)

end Instructions

end Ka10Simh.Pdp10.Fp
