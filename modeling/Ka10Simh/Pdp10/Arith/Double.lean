import Ka10Simh.Lib.BitSerial
import Ka10Simh.Pdp10.Arith.Divide

/-!
`DADD`, `DSUB`, `DMUL` and `DDIV` of `sim_instr` on a `KL` and on a `KS`.

* `dadd`, `dsub`, `dmul`, `ddiv`: the instructions, from the two words of memory on.
* `Quad`: four words of 35 bits, with the turn of the loop of `DMUL` and that of `DDIV`.
* `Dsum`, `Dmul`, `Ddiv`: what the instructions have to do.
* `doubles_delivered`: they do.
-/

namespace Ka10Simh.Pdp10.Arith

/-- The two processors. -/
inductive Cpu
  | kl
  | ks
  deriving DecidableEq

/-! ### DADD and DSUB -/

/-- The flags of a sum: `CRY1` for the carry into the sign, `CRY0` for that out of it, and `OVR` for one without the
other; an interrupt cycle sets only the first one. -/
def Acs.carries (s : Acs) (flag1 flag3 piCycle : Bool) : Acs :=
  let s := if flag1 then { s with cry1 := true } else s
  let s := if flag3 ∧ piCycle = false then { s with cry0 := true } else s
  if flag1 ≠ flag3 ∧ piCycle = false then s.overflow else s

/-- `case 0114` and `case 0115` with what is added: to the second word, to the low part of the first one, and to it. -/
def dsum (s : Acs) (ac lo hiLow hi : ℕ) (piCycle : Bool) : Acs :=
  let arx := (s.get (ac + 1) &&& cmask) + lo
  let f := if arx &&& smask ≠ 0 then 1 else 0
  let flag1 := ((s.get ac &&& cmask) + hiLow + f) &&& smask != 0
  let ar := s.get ac + hi + f
  let flag3 := ar &&& c1 != 0
  let ar := ar &&& fmask
  ((s.carries flag1 flag3 piCycle).set ac ar).set (ac + 1) (arx &&& cmask ||| ar &&& smask)

def dadd (s : Acs) (ac br brx : ℕ) (piCycle : Bool) : Acs := dsum s ac (brx &&& cmask) (br &&& cmask) br piCycle
def dsub (s : Acs) (ac br brx : ℕ) (piCycle : Bool) : Acs := dsum s ac (ccm brx + 1) (ccm br) (cm br) piCycle

/-! ### DMUL -/

/-- A negative pair is made positive. -/
def positive2 (hi lo : ℕ) : ℕ × ℕ :=
  if hi &&& smask ≠ 0 then
    let lo := ccm lo + 1
    ((cm hi + if lo &&& smask ≠ 0 then 1 else 0) &&& fmask, lo)
  else (hi, lo)

/-- `AD`, `ADX`, `BR` and `BRX`, or `AR`, `ARX`, `MB` and `MQ`. -/
structure Quad where
  ad : ℕ
  adx : ℕ
  br : ℕ
  brx : ℕ

namespace Quad

/-- The whole thing is negated. -/
def negate (q : Quad) : Quad :=
  let brx := ccm q.brx + 1
  let br := ccm q.br + if brx &&& smask ≠ 0 then 1 else 0
  let adx := ccm q.adx + if br &&& smask ≠ 0 then 1 else 0
  ⟨cm q.ad + if adx &&& smask ≠ 0 then 1 else 0, adx, br, brx⟩

/-- A turn of the loop of `DMUL`, and the loop. -/
def mulStep (ar arx : ℕ) (q : Quad) : Quad :=
  let f := q.brx &&& 1
  let brx := if q.br &&& 1 ≠ 0 then q.brx ||| smask else q.brx
  let br := if q.adx &&& 1 ≠ 0 then q.br ||| smask else q.br
  let adx := if q.ad &&& 1 ≠ 0 then q.adx ||| smask else q.adx
  let brx := brx >>> 1
  let br := br >>> 1
  let adx := adx >>> 1
  let ad := q.ad >>> 1
  if f ≠ 0 then
    let adx := adx + arx
    ⟨ad + ar + if adx &&& smask ≠ 0 then 1 else 0, adx &&& cmask, br, brx⟩
  else ⟨ad, adx, br, brx⟩

/-- A turn of the loop of `DDIV`. -/
def divStep (br brx : ℕ) (q : Quad) : Quad :=
  let ar := q.ad <<< 1
  let arx := q.adx <<< 1
  let mb := q.br <<< 1
  let mq := q.brx <<< 1
  let ar := if arx &&& smask ≠ 0 then ar ||| 1 else ar
  let arx := if mb &&& smask ≠ 0 then arx ||| 1 else arx
  let mb := if mq &&& smask ≠ 0 then mb ||| 1 else mb
  let arx := arx &&& cmask
  let mb := mb &&& cmask
  let mq := mq &&& cmask
  let adx := arx + ccm brx + 1
  let ad := ar + cm br + if adx &&& smask ≠ 0 then 1 else 0
  if ad &&& smask = 0 then ⟨ad &&& cmask, adx, mb, mq ||| 1⟩ else ⟨ar, arx, mb, mq⟩

end Quad

/-- Four accumulators. -/
def Acs.set4 (s : Acs) (ac u v w x : ℕ) : Acs := (((s.set ac u).set (ac + 1) v).set (ac + 2) w).set (ac + 3) x

/-- `case 0116`. -/
def dmul (cpu : Cpu) (s : Acs) (ac br brx : ℕ) : Acs :=
  let sign1 := br &&& smask != 0
  let (br, brx) := positive2 br brx
  let low1 := sign1 && (br &&& smask != 0)
  let sign2 := s.get ac &&& smask != 0
  let (ar, arx) := positive2 (s.get ac) (s.get (ac + 1))
  let low2 := sign2 && (ar &&& smask != 0)
  let ovr := match cpu with
    | .kl => low1 || low2
    | .ks => low1 && low2
  let brx := brx &&& cmask
  let arx := arx &&& cmask
  let q := (Quad.mulStep ar arx)^[71] ⟨0, 0, br, brx⟩
  let q := if sign1 ^^ sign2 then q.negate else q
  let s := if ovr then s.overflow else s
  let ad := q.ad &&& fmask
  s.set4 ac ad (q.adx &&& cmask ||| ad &&& smask) (q.br &&& cmask ||| ad &&& smask) (q.brx &&& cmask ||| ad &&& smask)

/-! ### DDIV -/

/-- Quotient and remainder get their sign. -/
def minus2 (hi lo : ℕ) : ℕ × ℕ :=
  let lo := ccm lo + 1
  ((cm hi + if lo &&& smask ≠ 0 then 1 else 0) &&& fmask, lo &&& cmask)

/-- `case 0117`. -/
def ddiv (cpu : Cpu) (s : Acs) (ac br brx : ℕ) : Acs :=
  let flag1 := br &&& smask != 0
  let (br, brx) := positive2 br brx
  let s := if flag1 && (br &&& smask != 0) then s.overflow else s
  if br ||| brx = 0 then
    match cpu with
    | .kl => { s with nodiv := true }
    | .ks => s.noDivide
  else
    let q : Quad := ⟨s.get ac, s.get (ac + 1), s.get (ac + 2), s.get (ac + 3)⟩
    let flag3 := q.ad &&& smask != 0
    let flag1 := flag1 ^^ flag3
    let q := if flag3 then { q.negate with ad := q.negate.ad &&& fmask } else q
    let s := if flag3 && (q.ad &&& smask != 0) then s.overflow else s
    let q : Quad := ⟨q.ad, q.adx &&& cmask, q.br &&& cmask, q.brx &&& cmask⟩
    let adx := q.adx + ccm brx + 1
    let ad := q.ad + cm br + if adx &&& smask ≠ 0 then 1 else 0
    if ad &&& c1 ≠ 0 then s.noDivide
    else
      let q := (Quad.divStep br brx)^[70] q
      let arx := q.adx &&& cmask
      let (mb, mq) := if flag1 then minus2 q.br q.brx else (q.br, q.brx)
      let (ar, arx) := if flag3 then minus2 q.ad arx else (q.ad, arx)
      s.set4 ac mb (mq ||| mb &&& smask) ar (arx ||| ar &&& smask)

/-! ### What the instructions have to do -/

/-- The number of four words; the signs of all but the first one do not count. -/
def value4 (u v w x : ℕ) : ℤ :=
  value u * 2 ^ 105 + (v % 2 ^ 35 : ℕ) * 2 ^ 70 + (w % 2 ^ 35 : ℕ) * 2 ^ 35 + (x % 2 ^ 35 : ℕ)

/-- A word with the sign of another one. -/
def Signed (u v : ℕ) : Prop := v < 2 ^ 36 ∧ v / 2 ^ 35 = u / 2 ^ 35

/-- A sum: the two words hold it modulo 2⁷¹, and outside an interrupt cycle `OVR` tells that it is out of range. -/
def Dsum (s : Acs) (ac : ℕ) (z : ℤ) (piCycle : Bool) (r : Acs) : Prop :=
  ∃ (t : Acs) (u v : ℕ), r = (t.set ac u).set (ac + 1) v ∧ t.reg = s.reg ∧ u < 2 ^ 36 ∧ Signed u v ∧ value2 u v ≡ z [ZMOD 2 ^ 71] ∧
    (t.ovr = true ↔ s.ovr = true ∨ ¬ (-2 ^ 70 ≤ z ∧ z < 2 ^ 70) ∧ piCycle = false)

/-- A product: four words hold it, but for that of the lowest number with itself. `OVR` tells of that number, on a `KL`
in one of the operands and on a `KS` in both. -/
def Dmul (cpu : Cpu) (s : Acs) (ac : ℕ) (m : ℤ) (r : Acs) : Prop :=
  let n := value2 (s.get ac) (s.get (ac + 1))
  ∃ (t : Acs) (u v w x : ℕ), r = t.set4 ac u v w x ∧ t.reg = s.reg ∧ u < 2 ^ 36 ∧ Signed u v ∧ Signed u w ∧ Signed u x ∧
    (n = -2 ^ 70 ∧ m = -2 ^ 70 ∨ value4 u v w x = n * m) ∧
    (t.ovr = true ↔ s.ovr = true ∨ match cpu with
      | .kl => n = -2 ^ 70 ∨ m = -2 ^ 70
      | .ks => n = -2 ^ 70 ∧ m = -2 ^ 70)

/-- A division: where the quotient has more than 70 bits, or the divisor is zero, the accumulators stay as they are and
`NODIV` is set, with `OVR` and `TRP1` unless a `KL` has a divisor of two zero words. -/
def Ddiv (cpu : Cpu) (s : Acs) (ac br brx : ℕ) (r : Acs) : Prop :=
  let n := value4 (s.get ac) (s.get (ac + 1)) (s.get (ac + 2)) (s.get (ac + 3))
  if 2 ^ 70 * |value2 br brx| ≤ |n| then
    r = if cpu = .kl ∧ br = 0 ∧ brx = 0 then { s with nodiv := true } else s.noDivide
  else ∃ (t : Acs) (u v w x : ℕ), r = t.set4 ac u v w x ∧ t.reg = s.reg ∧ u < 2 ^ 36 ∧ Signed u v ∧ w < 2 ^ 36 ∧ Signed w x ∧
    Divides n (value2 br brx) (value2 u v) (value2 w x)

/-! ### Pairs and quadruples -/

section Parts

variable {hi lo x b ar arx br brx : ℕ} {q : Quad}

lemma or_smask (hx : x < 2 ^ 35) : x ||| smask = 2 ^ 35 + x := by
  have hor := or_sign (c := 1) hx
  rw [Nat.one_mul] at hor
  rw [Nat.or_comm, show smask = 2 ^ 35 from rfl, hor]

/-- A bit of the word above comes in. -/
lemma shift_in (h : x < 2 ^ 35 ∨ b % 2 = 0) :
    (if b &&& 1 ≠ 0 then x ||| smask else x) >>> 1 = 2 ^ 34 * (b % 2) + x / 2 := by
  rw [Nat.shiftRight_eq_div_pow, Nat.and_one_is_mod]
  split_ifs with hb
  · rw [or_smask (h.resolve_right hb)]
    lia
  · omega

/-- The magnitude of a pair, as it is made positive. -/
def size2 (hi lo : ℕ) : ℕ := (positive2 hi lo).1 * 2 ^ 35 + (positive2 hi lo).2 % 2 ^ 35

lemma carry_eq (hx : x < 2 ^ 36) : (if x &&& smask ≠ 0 then 1 else 0) = x / 2 ^ 35 := by
  split_ifs with h
  · rw [and_smask_ne hx] at h
    omega
  · rw [and_smask_ne hx] at h
    omega

lemma ccm_le (x : ℕ) : ccm x < 2 ^ 35 := by
  have hmod : x % 2 ^ 35 < 2 ^ 35 := Nat.mod_lt _ (by positivity)
  rw [ccm_eq]
  omega

lemma positive2_eq (h : hi < 2 ^ 36) (lo : ℕ) : (positive2 hi lo).1 ≤ 2 ^ 35 ∧
    value2 hi lo = (if (hi &&& smask != 0) = true then -(size2 hi lo : ℤ) else size2 hi lo) := by
  have hmod : lo % 2 ^ 35 < 2 ^ 35 := Nat.mod_lt _ (by positivity)
  rw [size2, positive2, value2]
  rcases Nat.lt_or_ge hi (2 ^ 35) with hlt | hge
  · have hclear : ¬ hi &&& smask ≠ 0 := by
      rw [and_smask_ne h]
      omega
    rw [if_neg hclear, if_neg (by simpa using hclear), value_of_lt hlt]
    refine ⟨hlt.le, ?_⟩
    push_cast
    rfl
  · have hset : hi &&& smask ≠ 0 := (and_smask_ne h).mpr hge
    have hccm := ccm_eq lo
    rw [if_pos hset, if_pos (bne_iff_ne.mpr hset), value_of_ge hge]
    dsimp only
    rw [carry_eq (by omega), cm_eq h, hccm, and_fmask]
    constructor
    · omega
    · push_cast
      lia

/-- The lowest number is the one that cannot be made positive. -/
lemma low_iff (h : hi < 2 ^ 36) (lo : ℕ) :
    ((hi &&& smask != 0) && ((positive2 hi lo).1 &&& smask != 0)) = true ↔ value2 hi lo = -2 ^ 70 := by
  obtain ⟨hle, hval⟩ := positive2_eq h lo
  have hmod : (positive2 hi lo).2 % 2 ^ 35 < 2 ^ 35 := Nat.mod_lt _ (by positivity)
  have hpair : value2 hi lo = value hi * 2 ^ 35 + (lo % 2 ^ 35 : ℕ) := rfl
  have hlow : lo % 2 ^ 35 < 2 ^ 35 := Nat.mod_lt _ (by positivity)
  rw [Bool.and_eq_true, bne_iff_ne, bne_iff_ne, and_smask_ne h, and_smask_ne (by omega)]
  rw [size2] at hval
  rw [value] at hpair
  constructor
  · rintro ⟨hneg, hbig⟩
    rw [if_pos (bne_iff_ne.mpr ((and_smask_ne h).mpr hneg))] at hval
    rw [if_neg (by omega)] at hpair
    lia
  · intro heq
    have hneg : 2 ^ 35 ≤ hi := by
      by_contra hlt
      rw [if_pos (by omega)] at hpair
      lia
    rw [if_pos (bne_iff_ne.mpr ((and_smask_ne h).mpr hneg))] at hval
    omega

lemma size2_le (h : hi < 2 ^ 36) (lo : ℕ) : size2 hi lo ≤ 2 ^ 70 := by
  obtain ⟨-, hval⟩ := positive2_eq h lo
  obtain ⟨hlow, hhigh⟩ := value2_bounds h lo
  split at hval <;> omega

lemma abs_value2 (h : hi < 2 ^ 36) (lo : ℕ) : |value2 hi lo| = size2 hi lo := by
  rw [(positive2_eq h lo).2]
  split
  · rw [abs_neg, Nat.abs_cast]
  · rw [Nat.abs_cast]

namespace Quad

/-- The number of the words, of which the last three have 35 bits. -/
def num (q : Quad) : ℕ := ((q.ad * 2 ^ 35 + q.adx) * 2 ^ 35 + q.br) * 2 ^ 35 + q.brx

/-- The words without what is above their bits. -/
def masked (q : Quad) : Quad := ⟨q.ad &&& fmask, q.adx &&& cmask, q.br &&& cmask, q.brx &&& cmask⟩

/-- **The whole thing is negated.** -/
lemma negate_num (h : q.ad < 2 ^ 36) :
    q.negate.masked.num = (2 ^ 141 - (⟨q.ad, q.adx % 2 ^ 35, q.br % 2 ^ 35, q.brx % 2 ^ 35⟩ : Quad).num) % 2 ^ 141 := by
  have hbrx := ccm_eq q.brx
  have hbr := ccm_eq q.br
  have hadx := ccm_eq q.adx
  have hmbrx : q.brx % 2 ^ 35 < 2 ^ 35 := Nat.mod_lt _ (by positivity)
  have hmbr : q.br % 2 ^ 35 < 2 ^ 35 := Nat.mod_lt _ (by positivity)
  have hmadx : q.adx % 2 ^ 35 < 2 ^ 35 := Nat.mod_lt _ (by positivity)
  have hc1 := carry_eq (x := ccm q.brx + 1) (by lia)
  have hc2 := carry_eq (x := ccm q.br + (ccm q.brx + 1) / 2 ^ 35) (by lia)
  have hc3 := carry_eq (x := ccm q.adx + (ccm q.br + (ccm q.brx + 1) / 2 ^ 35) / 2 ^ 35) (by lia)
  rw [masked, num, num, negate]
  dsimp only
  rw [hc1, hc2, hc3, cm_eq h, and_fmask, and_cmask, and_cmask, and_cmask]
  omega

/-- The words have their 35 bits; the third one may have one more where no bit comes in. -/
structure Low (q : Quad) : Prop where
  adx : q.adx < 2 ^ 35
  br : q.br < 2 ^ 35 ∨ q.adx % 2 = 0
  brx : q.brx < 2 ^ 35

lemma mulStep_eq (ar arx : ℕ) (h : q.Low) : q.mulStep ar arx =
    let adx := 2 ^ 34 * (q.ad % 2) + q.adx / 2
    let br := 2 ^ 34 * (q.adx % 2) + q.br / 2
    let brx := 2 ^ 34 * (q.br % 2) + q.brx / 2
    if q.brx % 2 ≠ 0 then
      ⟨q.ad / 2 + ar + if adx + arx &&& smask ≠ 0 then 1 else 0, (adx + arx) % 2 ^ 35, br, brx⟩
    else ⟨q.ad / 2, adx, br, brx⟩ := by
  rw [mulStep]
  dsimp only
  rw [shift_in (.inl h.brx), shift_in h.br, shift_in (.inl h.adx), Nat.and_one_is_mod, and_cmask,
    Nat.shiftRight_eq_div_pow, pow_one]

/-- **A turn of the loop of `DMUL`.** -/
lemma mulStep_num (harx : arx < 2 ^ 35) (h : q.Low) (hbr : q.br < 2 ^ 36) :
    (q.mulStep ar arx).Low ∧ (q.mulStep ar arx).br < 2 ^ 35 ∧
      (q.mulStep ar arx).num = BitSerial.mulStep (ar * 2 ^ 35 + arx) 70 q.num := by
  have hadx := h.adx
  have hbrx := h.brx
  have hbr35 : 2 ^ 34 * (q.adx % 2) + q.br / 2 < 2 ^ 35 := by
    rcases h.br with hlt | hzero
    · lia
    · lia
  have hadx35 : 2 ^ 34 * (q.ad % 2) + q.adx / 2 < 2 ^ 35 := by lia
  have hbrx35 : 2 ^ 34 * (q.br % 2) + q.brx / 2 < 2 ^ 35 := by lia
  have hcarry := carry_eq (x := 2 ^ 34 * (q.ad % 2) + q.adx / 2 + arx) (by omega)
  have hsum : (2 ^ 34 * (q.ad % 2) + q.adx / 2 + arx) % 2 ^ 35 < 2 ^ 35 := Nat.mod_lt _ (by positivity)
  have hodd : q.num % 2 = q.brx % 2 := by
    rw [num]
    lia
  have hhalf : q.num / 2 = ((q.ad / 2 * 2 ^ 35 + (2 ^ 34 * (q.ad % 2) + q.adx / 2)) * 2 ^ 35
      + (2 ^ 34 * (q.adx % 2) + q.br / 2)) * 2 ^ 35 + (2 ^ 34 * (q.br % 2) + q.brx / 2) := by
    rw [num]
    lia
  rw [mulStep_eq ar arx h, BitSerial.mulStep, hodd, hhalf]
  dsimp only
  rw [hcarry]
  by_cases hf : q.brx % 2 = 0
  · rw [if_neg (not_not.mpr hf), hf, Nat.zero_mul, Nat.zero_mul, Nat.add_zero]
    exact ⟨⟨hadx35, .inl hbr35, hbrx35⟩, hbr35, rfl⟩
  · have hone : q.brx % 2 = 1 := by lia
    rw [if_pos hf, hone, Nat.one_mul]
    refine ⟨⟨hsum, .inl hbr35, hbrx35⟩, hbr35, ?_⟩
    rw [num]
    generalize 2 ^ 34 * (q.ad % 2) + q.adx / 2 = adx
    generalize 2 ^ 34 * (q.adx % 2) + q.br / 2 = br
    generalize 2 ^ 34 * (q.br % 2) + q.brx / 2 = brx
    dsimp only
    lia

/-- **The loop of `DMUL`.** -/
lemma mulLoop (harx : arx < 2 ^ 35) (hbr : br < 2 ^ 36) (hbrx : brx < 2 ^ 35) :
    ((mulStep ar arx)^[71] ⟨0, 0, br, brx⟩).Low ∧ ((mulStep ar arx)^[71] ⟨0, 0, br, brx⟩).br < 2 ^ 35 ∧
      ((mulStep ar arx)^[71] ⟨0, 0, br, brx⟩).num = (ar * 2 ^ 35 + arx) * (br * 2 ^ 35 + brx) := by
  have hstart : (⟨0, 0, br, brx⟩ : Quad).Low := ⟨by norm_num, .inr rfl, hbrx⟩
  have hrun : ∀ n, ((mulStep ar arx)^[n + 1] ⟨0, 0, br, brx⟩).Low ∧ ((mulStep ar arx)^[n + 1] ⟨0, 0, br, brx⟩).br < 2 ^ 35 ∧
      ((mulStep ar arx)^[n + 1] ⟨0, 0, br, brx⟩).num
        = (BitSerial.mulStep (ar * 2 ^ 35 + arx) 70)^[n + 1] (⟨0, 0, br, brx⟩ : Quad).num := by
    intro n
    induction n with
    | zero => exact mulStep_num harx hstart hbr
    | succ n ih =>
        obtain ⟨hlow, hbr, hnum⟩ := ih
        rw [Function.iterate_succ_apply', Function.iterate_succ_apply' (BitSerial.mulStep _ _), ← hnum]
        exact mulStep_num harx hlow (hbr.trans (by norm_num))
  obtain ⟨hlow, hbr35, hnum⟩ := hrun 70
  have hinit : (⟨0, 0, br, brx⟩ : Quad).num = br * 2 ^ 35 + brx := by
    rw [num]
    dsimp only
    omega
  refine ⟨hlow, hbr35, ?_⟩
  rw [hnum, hinit, BitSerial.mul_loop _ (by lia)]

/-- The words of a division, with what is above the 35 bits of the second one left out. -/
def rest (q : Quad) : ℕ × ℕ := (q.ad * 2 ^ 35 + q.adx % 2 ^ 35, q.br * 2 ^ 35 + q.brx)

lemma shl_bit (a x : ℕ) :
    (if x <<< 1 &&& smask ≠ 0 then a <<< 1 ||| 1 else a <<< 1) = 2 * a + x / 2 ^ 34 % 2 := by
  have hiff := and_smask (x <<< 1)
  have hor : a * 2 ||| 1 = a * 2 + 1 := Word.or_eq_add (i := 1) ⟨a, by ring⟩ (by norm_num)
  rw [Nat.shiftLeft_eq, Nat.shiftLeft_eq, pow_one] at *
  split_ifs with hset
  · have hone := hiff.mp hset
    lia
  · have hzero := fun hone ↦ hset (hiff.mpr hone)
    lia

lemma divStep_eq (br brx : ℕ) (q : Quad) : q.divStep br brx =
    let ar := 2 * q.ad + q.adx / 2 ^ 34 % 2
    let arx := (2 * q.adx + q.br / 2 ^ 34 % 2) % 2 ^ 35
    let mb := (2 * q.br + q.brx / 2 ^ 34 % 2) % 2 ^ 35
    let mq := 2 * q.brx % 2 ^ 35
    let adx := arx + ccm brx + 1
    let ad := ar + cm br + adx / 2 ^ 35
    if ad / 2 ^ 35 % 2 = 0 then ⟨ad % 2 ^ 35, adx, mb, mq + 1⟩ else ⟨ar, arx, mb, mq⟩ := by
  have hmask : (2 * q.adx + q.br / 2 ^ 34 % 2) % 2 ^ 35 < 2 ^ 35 := Nat.mod_lt _ (by positivity)
  have hccm := ccm_le brx
  have hcarry := carry_eq (x := (2 * q.adx + q.br / 2 ^ 34 % 2) % 2 ^ 35 + ccm brx + 1) (by omega)
  have hmq : q.brx <<< 1 = 2 * q.brx := by rw [Nat.shiftLeft_eq, pow_one, Nat.mul_comm]
  have hor : 2 * q.brx % 2 ^ 35 ||| 1 = 2 * q.brx % 2 ^ 35 + 1 :=
    Word.or_eq_add (i := 1) (Nat.dvd_of_mod_eq_zero (by lia)) (by norm_num)
  have hsign : ∀ ad, ad &&& smask = 0 ↔ ad / 2 ^ 35 % 2 = 0 := by
    intro ad
    rw [← not_iff_not, ← ne_eq, and_smask]
    lia
  rw [divStep]
  dsimp only
  rw [shl_bit, shl_bit, shl_bit, hmq, and_cmask, and_cmask, and_cmask, and_cmask, hcarry, hor]
  exact if_congr (hsign _) rfl rfl

lemma double_mod (x : ℕ) : 2 * x % 2 ^ 35 + 1 < 2 ^ 35 := by
  have hmod : 2 * x % 2 ^ 35 = 2 * (x % 2 ^ 34) := Nat.mul_mod_mul_left 2 x (2 ^ 34)
  have hlt : x % 2 ^ 34 < 2 ^ 34 := Nat.mod_lt _ (by positivity)
  rw [hmod]
  omega

/-- The difference of two pairs, and its sign. -/
lemma try_eq {a x b y : ℕ} (hx : x < 2 ^ 35) (hy : y < 2 ^ 35) (hb : b ≤ 2 ^ 35)
    (hlt : a * 2 ^ 35 + x < 2 * (b * 2 ^ 35 + y)) (hd : b * 2 ^ 35 + y ≤ 2 ^ 70) :
    ((a + (2 ^ 36 - 1 - b) + (x + (2 ^ 35 - 1 - y) + 1) / 2 ^ 35) / 2 ^ 35 % 2 = 0 ↔ b * 2 ^ 35 + y ≤ a * 2 ^ 35 + x) ∧
      (b * 2 ^ 35 + y ≤ a * 2 ^ 35 + x →
        (a + (2 ^ 36 - 1 - b) + (x + (2 ^ 35 - 1 - y) + 1) / 2 ^ 35) % 2 ^ 35 * 2 ^ 35 + (x + (2 ^ 35 - 1 - y) + 1) % 2 ^ 35
          = a * 2 ^ 35 + x - (b * 2 ^ 35 + y)) := by
  rcases Nat.lt_or_ge x y with hxy | hxy
  · have hcarry : (x + (2 ^ 35 - 1 - y) + 1) / 2 ^ 35 = 0 := Nat.div_eq_of_lt (by omega)
    rw [hcarry]
    lia
  · have hcarry : (x + (2 ^ 35 - 1 - y) + 1) / 2 ^ 35 = 1 := by lia
    rw [hcarry]
    lia

/-- **A turn of the loop of `DDIV`.** -/
lemma divStep_rest (hbr : br ≤ 2 ^ 35) (hlt : q.rest.1 < br * 2 ^ 35 + brx % 2 ^ 35)
    (hd : br * 2 ^ 35 + brx % 2 ^ 35 ≤ 2 ^ 70) (hmb : q.br < 2 ^ 35) (hmq : q.brx < 2 ^ 35) :
    (q.divStep br brx).br < 2 ^ 35 ∧ (q.divStep br brx).brx < 2 ^ 35 ∧
      (q.divStep br brx).rest = BitSerial.divStep (br * 2 ^ 35 + brx % 2 ^ 35) 70 q.rest := by
  have hmod : brx % 2 ^ 35 < 2 ^ 35 := Nat.mod_lt _ (by positivity)
  have hadx : q.adx % 2 ^ 35 < 2 ^ 35 := Nat.mod_lt _ (by positivity)
  have hccm := ccm_eq brx
  have hcm := cm_eq (x := br) (by omega)
  have hmb35 : (2 * q.br + q.brx / 2 ^ 34 % 2) % 2 ^ 35 < 2 ^ 35 := Nat.mod_lt _ (by positivity)
  rw [rest] at hlt
  dsimp only at hlt
  -- the two registers after the shift
  have hhigh : 2 * (q.ad * 2 ^ 35 + q.adx % 2 ^ 35) + 2 * (q.br * 2 ^ 35 + q.brx) / 2 ^ 70
      = (2 * q.ad + q.adx / 2 ^ 34 % 2) * 2 ^ 35 + (2 * q.adx + q.br / 2 ^ 34 % 2) % 2 ^ 35 := by omega
  have hlow : 2 * (q.br * 2 ^ 35 + q.brx) % 2 ^ 70
      = (2 * q.br + q.brx / 2 ^ 34 % 2) % 2 ^ 35 * 2 ^ 35 + 2 * q.brx % 2 ^ 35 := by omega
  rw [divStep_eq, rest, rest, BitSerial.divStep]
  dsimp only
  rw [hhigh, hlow, hccm, hcm]
  have hmask : (2 * q.adx + q.br / 2 ^ 34 % 2) % 2 ^ 35 < 2 ^ 35 := Nat.mod_lt _ (by positivity)
  have hdouble : (2 * q.ad + q.adx / 2 ^ 34 % 2) * 2 ^ 35 + (2 * q.adx + q.br / 2 ^ 34 % 2) % 2 ^ 35
      < 2 * (br * 2 ^ 35 + brx % 2 ^ 35) := by
    rw [← hhigh]
    lia
  obtain ⟨hiff, hdiff⟩ := try_eq hmask hmod hbr hdouble hd
  have hmq35 := double_mod q.brx
  rw [if_congr hiff rfl rfl]
  by_cases hle : br * 2 ^ 35 + brx % 2 ^ 35
      ≤ (2 * q.ad + q.adx / 2 ^ 34 % 2) * 2 ^ 35 + (2 * q.adx + q.br / 2 ^ 34 % 2) % 2 ^ 35
  · rw [if_pos hle, if_pos hle]
    exact ⟨hmb35, hmq35, Prod.ext (hdiff hle) (Nat.add_assoc _ _ _).symm⟩
  · rw [if_neg hle, if_neg hle]
    refine ⟨hmb35, (Nat.lt_succ_self _).trans hmq35, Prod.ext ?_ rfl⟩
    dsimp only
    rw [Nat.mod_mod]

/-- **The loop of `DDIV`.** -/
lemma divLoop (hbr : br ≤ 2 ^ 35) (hd : br * 2 ^ 35 + brx % 2 ^ 35 ≤ 2 ^ 70) (hmb : q.br < 2 ^ 35) (hmq : q.brx < 2 ^ 35)
    (hlt : q.rest.1 < br * 2 ^ 35 + brx % 2 ^ 35) :
    ((divStep br brx)^[70] q).br < 2 ^ 35 ∧ ((divStep br brx)^[70] q).brx < 2 ^ 35 ∧
      ((divStep br brx)^[70] q).rest = (BitSerial.divStep (br * 2 ^ 35 + brx % 2 ^ 35) 70)^[70] q.rest := by
  have hrun : ∀ n, ((divStep br brx)^[n] q).br < 2 ^ 35 ∧ ((divStep br brx)^[n] q).brx < 2 ^ 35 ∧
      ((divStep br brx)^[n] q).rest.1 < br * 2 ^ 35 + brx % 2 ^ 35 ∧
      ((divStep br brx)^[n] q).rest = (BitSerial.divStep (br * 2 ^ 35 + brx % 2 ^ 35) 70)^[n] q.rest := by
    intro n
    induction n with
    | zero => exact ⟨hmb, hmq, hlt, rfl⟩
    | succ n ih =>
        obtain ⟨hmb, hmq, hlt, hrest⟩ := ih
        rw [Function.iterate_succ_apply', Function.iterate_succ_apply' (BitSerial.divStep _ _), ← hrest]
        obtain ⟨hmb', hmq', hrest'⟩ := divStep_rest hbr hlt hd hmb hmq
        refine ⟨hmb', hmq', ?_, hrest'⟩
        rw [hrest']
        refine BitSerial.divStep_lt hlt ?_
        rw [rest]
        dsimp only
        lia
  obtain ⟨hmb, hmq, -, hrest⟩ := hrun 70
  exact ⟨hmb, hmq, hrest⟩

end Quad

end Parts

/-! ### Sums -/

section Sums

variable {s : Acs} {ac lo hi br brx u m : ℕ} {piCycle : Bool}

lemma carries_reg (s : Acs) (flag1 flag3 piCycle : Bool) : (s.carries flag1 flag3 piCycle).reg = s.reg := by
  rw [Acs.carries]
  split_ifs <;> rfl

lemma carries_ovr (s : Acs) (flag1 flag3 piCycle : Bool) :
    (s.carries flag1 flag3 piCycle).ovr = true ↔ s.ovr = true ∨ flag1 ≠ flag3 ∧ piCycle = false := by
  rw [Acs.carries, Acs.flagged_ovr _ Iff.rfl]
  split_ifs <;> rfl

/-- The second word takes the sign of the first one. -/
lemma signed_put (hu : u < 2 ^ 36) (hm : m < 2 ^ 35) : Signed u (m ||| u &&& smask) ∧ (m ||| u &&& smask) % 2 ^ 35 = m := by
  rw [and_smask_eq hu, Nat.or_comm, or_sign hm, Signed, Nat.mul_add_mod', Nat.mod_eq_of_lt hm, sg]
  exact ⟨⟨by omega, by lia⟩, rfl⟩

/-- The carries into the sign and out of it differ where the sum is out of range; `c` is the number of negative words. -/
lemma carries_iff {v c : ℕ} (hv : v < 2 ^ 36) (hc : c ≤ 2) :
    (v &&& smask != 0) ≠ (c * 2 ^ 35 + v &&& c1 != 0) ↔ ¬ (c * 2 ^ 35 ≤ v + 2 ^ 35 ∧ v < c * 2 ^ 35 + 2 ^ 35) := by
  have hinto : (v &&& smask != 0) = decide (2 ^ 35 ≤ v) := by
    rw [← decide_eq_decide.mpr (and_smask_ne hv)]
    exact (decide_not).symm
  have hcarry : c * 2 ^ 35 + v &&& c1 ≠ 0 ↔ 2 ^ 36 ≤ c * 2 ^ 35 + v := by
    rw [show c1 = 2 ^ 36 from rfl, Word.and_pow_ne_zero]
    lia
  have hout : (c * 2 ^ 35 + v &&& c1 != 0) = decide (2 ^ 36 ≤ c * 2 ^ 35 + v) := by
    rw [← decide_eq_decide.mpr hcarry]
    exact (decide_not).symm
  rw [hinto, hout, ne_eq, decide_eq_decide]
  interval_cases c <;> lia

/-- **A sum of two pairs.** -/
lemma dsum_right (h : s.Words) (ac : ℕ) (hhi : hi < 2 ^ 36) (hlo : lo ≤ 2 ^ 35) (piCycle : Bool) :
    Dsum s ac (value2 (s.get ac) (s.get (ac + 1)) + (value hi * 2 ^ 35 + lo)) piCycle
      (dsum s ac lo (hi % 2 ^ 35) hi piCycle) := by
  have ha := h ac
  have hx : s.get (ac + 1) % 2 ^ 35 < 2 ^ 35 := Nat.mod_lt _ (by positivity)
  have hma : s.get ac % 2 ^ 35 < 2 ^ 35 := Nat.mod_lt _ (by positivity)
  have hmhi : hi % 2 ^ 35 < 2 ^ 35 := Nat.mod_lt _ (by positivity)
  have hf := carry_eq (x := s.get (ac + 1) % 2 ^ 35 + lo) (by omega)
  have hfle : (s.get (ac + 1) % 2 ^ 35 + lo) / 2 ^ 35 ≤ 1 := by lia
  have hsplit := Nat.div_add_mod (s.get (ac + 1) % 2 ^ 35 + lo) (2 ^ 35)
  have hlow : (s.get (ac + 1) % 2 ^ 35 + lo) % 2 ^ 35 < 2 ^ 35 := Nat.mod_lt _ (by positivity)
  rw [dsum, and_cmask, and_cmask, hf, and_cmask, and_fmask]
  generalize (s.get (ac + 1) % 2 ^ 35 + lo) / 2 ^ 35 = f at *
  generalize (s.get (ac + 1) % 2 ^ 35 + lo) % 2 ^ 35 = m at *
  -- the sum of the first words is that of their low parts, and their signs
  have hc : sg (s.get ac) + sg hi ≤ 2 := by
    have hsa := sg_le ha
    have hshi := sg_le hhi
    lia
  have hv : s.get ac % 2 ^ 35 + hi % 2 ^ 35 + f < 2 ^ 36 := by omega
  have hsum : s.get ac + hi + f = (sg (s.get ac) + sg hi) * 2 ^ 35 + (s.get ac % 2 ^ 35 + hi % 2 ^ 35 + f) := by
    have hda := sg_add_mod (s.get ac)
    have hdhi := sg_add_mod hi
    lia
  have hz : value2 (s.get ac) (s.get (ac + 1)) + (value hi * 2 ^ 35 + lo)
      = ((s.get ac % 2 ^ 35 + hi % 2 ^ 35 + f : ℕ) - (sg (s.get ac) + sg hi : ℕ) * 2 ^ 35 : ℤ) * 2 ^ 35 + m := by
    have hcast : (2 ^ 35 * f + m : ℤ) = (s.get (ac + 1) % 2 ^ 35 : ℕ) + lo := by exact_mod_cast hsplit
    rw [value2, value_eq_low ha, value_eq_low hhi]
    push_cast at hcast ⊢
    linear_combination -hcast
  have hover := carries_iff hv hc
  rw [hz, hsum]
  generalize s.get ac % 2 ^ 35 + hi % 2 ^ 35 + f = v at *
  generalize sg (s.get ac) + sg hi = c at *
  have hu : (c * 2 ^ 35 + v) % 2 ^ 36 < 2 ^ 36 := Nat.mod_lt _ (by positivity)
  obtain ⟨hsigned, hput⟩ := signed_put hu hlow
  refine ⟨_, _, _, rfl, carries_reg s _ _ _, hu, hsigned, ?_, ?_⟩
  · have hmod := Nat.div_add_mod (c * 2 ^ 35 + v) (2 ^ 36)
    rw [value2, hput, value_eq hu]
    generalize (c * 2 ^ 35 + v) % 2 ^ 36 = u at *
    generalize (c * 2 ^ 35 + v) / 2 ^ 36 = k at *
    have hcast : (2 ^ 36 * k + u : ℤ) = c * 2 ^ 35 + v := by exact_mod_cast hmod
    refine Int.modEq_iff_dvd.mpr ⟨k + sg u - c, ?_⟩
    linear_combination (-2 ^ 35) * hcast
  · have hrange : c * 2 ^ 35 ≤ v + 2 ^ 35 ∧ v < c * 2 ^ 35 + 2 ^ 35 ↔
        -2 ^ 70 ≤ ((v : ℤ) - c * 2 ^ 35) * 2 ^ 35 + m ∧ ((v : ℤ) - c * 2 ^ 35) * 2 ^ 35 + m < 2 ^ 70 := by lia
    rw [carries_ovr, hover, hrange]

lemma cm_low {x : ℕ} (h : x < 2 ^ 36) :
    cm x < 2 ^ 36 ∧ cm x % 2 ^ 35 = ccm x ∧ value (cm x) = -value x - 1 := by
  have hlow := value_eq_low h
  have hsplit := sg_add_mod x
  have hmod : x % 2 ^ 35 < 2 ^ 35 := Nat.mod_lt _ (by positivity)
  rw [ccm_eq, cm_eq h]
  refine ⟨by lia, by lia, ?_⟩
  rw [value, value]
  split_ifs <;> lia

/-- **`DADD` and `DSUB`.** -/
lemma dadd_right (h : s.Words) (ac : ℕ) (hbr : br < 2 ^ 36) (brx : ℕ) (piCycle : Bool) :
    Dsum s ac (value2 (s.get ac) (s.get (ac + 1)) + value2 br brx) piCycle (dadd s ac br brx piCycle) := by
  have hmod : brx % 2 ^ 35 < 2 ^ 35 := Nat.mod_lt _ (by positivity)
  rw [dadd, and_cmask, and_cmask]
  exact dsum_right h ac hbr hmod.le piCycle

lemma dsub_right (h : s.Words) (ac : ℕ) (hbr : br < 2 ^ 36) (brx : ℕ) (piCycle : Bool) :
    Dsum s ac (value2 (s.get ac) (s.get (ac + 1)) - value2 br brx) piCycle (dsub s ac br brx piCycle) := by
  obtain ⟨hcm, hlow, hval⟩ := cm_low hbr
  have hmod : brx % 2 ^ 35 < 2 ^ 35 := Nat.mod_lt _ (by positivity)
  have hccm := ccm_eq brx
  have hlo : ccm brx + 1 ≤ 2 ^ 35 := by lia
  have hright := dsum_right h ac hcm hlo piCycle
  have hneg : value (cm br) * 2 ^ 35 + (ccm brx + 1 : ℕ) = -value2 br brx := by
    rw [hval, value2]
    lia
  rw [hneg, hlow, ← sub_eq_add_neg] at hright
  exact hright

end Sums

/-! ### Products -/

section Products

variable {s : Acs} {ac br brx : ℕ} {q : Quad}

namespace Quad

/-- The words have their bits. -/
structure Full (q : Quad) : Prop where
  ad : q.ad < 2 ^ 36
  adx : q.adx < 2 ^ 35
  br : q.br < 2 ^ 35
  brx : q.brx < 2 ^ 35

lemma masked_full (q : Quad) : q.masked.Full := by
  rw [masked, and_fmask, and_cmask, and_cmask, and_cmask]
  exact ⟨Nat.mod_lt _ (by positivity), Nat.mod_lt _ (by positivity), Nat.mod_lt _ (by positivity),
    Nat.mod_lt _ (by positivity)⟩

lemma Full.masked_eq (h : q.Full) : q.masked = q := by
  rw [masked, and_fmask, and_cmask, and_cmask, and_cmask, Nat.mod_eq_of_lt h.ad, Nat.mod_eq_of_lt h.adx,
    Nat.mod_eq_of_lt h.br, Nat.mod_eq_of_lt h.brx]

/-- The number of the words as they are stored, with the sign of the first one. -/
lemma Full.value4_eq (h : q.Full) :
    value4 q.ad (q.adx ||| q.ad &&& smask) (q.br ||| q.ad &&& smask) (q.brx ||| q.ad &&& smask)
      = if q.num < 2 ^ 140 then (q.num : ℤ) else q.num - 2 ^ 141 := by
  have hadx := h.adx
  have hbr := h.br
  have hbrx := h.brx
  rw [value4, (signed_put h.ad h.adx).2, (signed_put h.ad h.br).2, (signed_put h.ad h.brx).2, num, value]
  split_ifs with hlt hnum hnum
  · push_cast
    ring
  · omega
  · omega
  · push_cast
    ring

end Quad

/-- The number of the words of a product with its sign. -/
lemma product_num (neg : Bool) {p : ℕ} (h : q.Full) (hp : q.num = p) (hle : p ≤ 2 ^ 140) (hneg : p = 2 ^ 140 → neg = true)
    {n : ℕ} (hn : n = (if neg then q.negate else q).masked.num) :
    (if n < 2 ^ 140 then (n : ℤ) else n - 2 ^ 141) = if neg then -(p : ℤ) else p := by
  subst hn
  cases neg with
  | false =>
      have hlt : p < 2 ^ 140 := hle.lt_of_ne fun heq ↦ absurd (hneg heq) Bool.false_ne_true
      have hnum : (if false = true then q.negate else q).masked.num = p := by
        rw [if_neg nofun, h.masked_eq, hp]
      rw [hnum, if_pos hlt]
      rfl
  | true =>
      have hnum := Quad.negate_num h.ad
      rw [Nat.mod_eq_of_lt h.adx, Nat.mod_eq_of_lt h.br, Nat.mod_eq_of_lt h.brx] at hnum
      have hneg : (if true = true then q.negate else q).masked.num = (2 ^ 141 - p) % 2 ^ 141 := by
        rw [if_pos rfl, hnum, ← hp]
      rw [hneg, if_pos rfl]
      split_ifs <;> lia

lemma size2_eq_pow {hi : ℕ} (h : hi < 2 ^ 36) (lo : ℕ) (heq : size2 hi lo = 2 ^ 70) : value2 hi lo = -2 ^ 70 := by
  obtain ⟨-, hval⟩ := positive2_eq h lo
  have hlt := (value2_bounds h lo).2
  rw [heq] at hval
  split at hval
  · rw [hval]
    norm_num
  · rw [hval] at hlt
    norm_num at hlt

lemma mul_eq_pow {x y : ℕ} (hx : x ≤ 2 ^ 70) (hy : y ≤ 2 ^ 70) (h : x * y = 2 ^ 140) : x = 2 ^ 70 ∧ y = 2 ^ 70 := by
  have hx' : x = 2 ^ 70 := by
    by_contra hne
    have hlt : x < 2 ^ 70 := hx.lt_of_ne hne
    have hmul : x * y ≤ x * 2 ^ 70 := Nat.mul_le_mul_left x hy
    omega
  subst hx'
  exact ⟨rfl, by omega⟩

lemma full_of_num (h : q.Low) (hbr : q.br < 2 ^ 35) (hle : q.num ≤ 2 ^ 140) : q.Full := by
  refine ⟨?_, h.adx, hbr, h.brx⟩
  rw [Quad.num] at hle
  omega

/-- The words of a product before they get their sign. -/
def mulQuad (s : Acs) (ac br brx : ℕ) : Quad :=
  (Quad.mulStep (positive2 (s.get ac) (s.get (ac + 1))).1 ((positive2 (s.get ac) (s.get (ac + 1))).2 % 2 ^ 35))^[71]
    ⟨0, 0, (positive2 br brx).1, (positive2 br brx).2 % 2 ^ 35⟩

/-- The overflow that a `KL` and a `KS` see, from the two operands that are the lowest number. -/
def Cpu.sees : Cpu → Bool → Bool → Bool
  | .kl, low1, low2 => low1 || low2
  | .ks, low1, low2 => low1 && low2

lemma dmul_eq (cpu : Cpu) (s : Acs) (ac br brx : ℕ) : dmul cpu s ac br brx =
    let q := (if ((br &&& smask != 0) ^^ (s.get ac &&& smask != 0)) = true then (mulQuad s ac br brx).negate
      else mulQuad s ac br brx).masked
    let low1 := (br &&& smask != 0) && ((positive2 br brx).1 &&& smask != 0)
    let low2 := (s.get ac &&& smask != 0) && ((positive2 (s.get ac) (s.get (ac + 1))).1 &&& smask != 0)
    (if cpu.sees low1 low2 = true then s.overflow else s).set4 ac q.ad (q.adx ||| q.ad &&& smask) (q.br ||| q.ad &&& smask)
      (q.brx ||| q.ad &&& smask) := by
  rw [dmul, mulQuad, ← and_cmask, ← and_cmask]
  cases cpu <;> rfl

lemma mulQuad_full (h : s.Words) (ac : ℕ) (hbr : br < 2 ^ 36) (brx : ℕ) : (mulQuad s ac br brx).Full ∧
    (mulQuad s ac br brx).num = size2 (s.get ac) (s.get (ac + 1)) * size2 br brx := by
  have hb1 := (positive2_eq hbr brx).1
  have hbmod : (positive2 br brx).2 % 2 ^ 35 < 2 ^ 35 := Nat.mod_lt _ (by positivity)
  have hamod : (positive2 (s.get ac) (s.get (ac + 1))).2 % 2 ^ 35 < 2 ^ 35 := Nat.mod_lt _ (by positivity)
  obtain ⟨hlow, hqbr, hnum⟩ : (mulQuad s ac br brx).Low ∧ (mulQuad s ac br brx).br < 2 ^ 35 ∧ _ :=
    Quad.mulLoop hamod (by omega) hbmod
  rw [← size2, ← size2, ← mulQuad] at hnum
  have hle : size2 (s.get ac) (s.get (ac + 1)) * size2 br brx ≤ 2 ^ 70 * 2 ^ 70 :=
    Nat.mul_le_mul (size2_le (h ac) _) (size2_le hbr brx)
  exact ⟨full_of_num hlow hqbr (hnum.trans_le (hle.trans (by norm_num))), hnum⟩

/-- **`DMUL`.** -/
lemma dmul_right (cpu : Cpu) (h : s.Words) (ac : ℕ) (hbr : br < 2 ^ 36) (brx : ℕ) :
    Dmul cpu s ac (value2 br brx) (dmul cpu s ac br brx) := by
  have ha := h ac
  have hbval := (positive2_eq hbr brx).2
  have haval := (positive2_eq ha (s.get (ac + 1))).2
  have hbsize := size2_le hbr brx
  have hasize := size2_le ha (s.get (ac + 1))
  obtain ⟨hfull, hnum⟩ := mulQuad_full h ac hbr brx
  have hle : size2 (s.get ac) (s.get (ac + 1)) * size2 br brx ≤ 2 ^ 70 * 2 ^ 70 := Nat.mul_le_mul hasize hbsize
  have hq := Quad.masked_full (if ((br &&& smask != 0) ^^ (s.get ac &&& smask != 0)) = true then
    (mulQuad s ac br brx).negate else mulQuad s ac br brx)
  have hvalue := hq.value4_eq
  rw [dmul_eq]
  dsimp only
  refine ⟨_, _, _, _, _, rfl, s.flagged_reg _, hq.ad, (signed_put hq.ad hq.adx).1, (signed_put hq.ad hq.br).1,
    (signed_put hq.ad hq.brx).1, ?_, ?_⟩
  · by_cases hboth : value2 (s.get ac) (s.get (ac + 1)) = -2 ^ 70 ∧ value2 br brx = -2 ^ 70
    · exact .inl hboth
    · refine .inr ?_
      have hproduct := product_num ((br &&& smask != 0) ^^ (s.get ac &&& smask != 0)) hfull hnum (hle.trans (by norm_num))
        (fun hpow ↦ absurd ?_ hboth) rfl
      · rw [hvalue, hproduct, haval, hbval]
        cases br &&& smask != 0 <;> cases s.get ac &&& smask != 0 <;> simp
      · obtain ⟨ha70, hb70⟩ := mul_eq_pow hasize hbsize hpow
        exact ⟨size2_eq_pow ha _ ha70, size2_eq_pow hbr brx hb70⟩
  · rw [s.flagged_ovr Iff.rfl]
    have hblow := low_iff hbr brx
    have halow := low_iff ha (s.get (ac + 1))
    cases cpu with
    | kl =>
        rw [Cpu.sees, Bool.or_eq_true, hblow, halow, or_comm (a := value2 br brx = _)]
    | ks =>
        rw [Cpu.sees, Bool.and_eq_true, hblow, halow, and_comm (a := value2 br brx = _)]

end Products

/-! ### Quotients -/

section Quotients

variable {s : Acs} {ac hi lo br brx : ℕ} {q : Quad}

/-- The dividend, made positive. -/
def divQuad (s : Acs) (ac : ℕ) : Quad :=
  (if (s.get ac &&& smask != 0) = true then
    (⟨s.get ac, s.get (ac + 1), s.get (ac + 2), s.get (ac + 3)⟩ : Quad).negate
  else ⟨s.get ac, s.get (ac + 1), s.get (ac + 2), s.get (ac + 3)⟩).masked

lemma divQuad_value (h : s.Words) (ac : ℕ) : (divQuad s ac).num ≤ 2 ^ 140 ∧
    value4 (s.get ac) (s.get (ac + 1)) (s.get (ac + 2)) (s.get (ac + 3))
      = if (s.get ac &&& smask != 0) = true then -((divQuad s ac).num : ℤ) else (divQuad s ac).num := by
  have ha := h ac
  have h1 : s.get (ac + 1) % 2 ^ 35 < 2 ^ 35 := Nat.mod_lt _ (by positivity)
  have h2 : s.get (ac + 2) % 2 ^ 35 < 2 ^ 35 := Nat.mod_lt _ (by positivity)
  have h3 : s.get (ac + 3) % 2 ^ 35 < 2 ^ 35 := Nat.mod_lt _ (by positivity)
  have hneg := Quad.negate_num (q := ⟨s.get ac, s.get (ac + 1), s.get (ac + 2), s.get (ac + 3)⟩) ha
  rw [divQuad, value4]
  rcases Nat.lt_or_ge (s.get ac) (2 ^ 35) with hlt | hge
  · have hclear : ¬ (s.get ac &&& smask != 0) = true := by
      rw [bne_iff_ne, and_smask_ne ha]
      omega
    rw [if_neg hclear, if_neg hclear, value_of_lt hlt, Quad.masked, Quad.num, and_fmask, and_cmask, and_cmask, and_cmask,
      Nat.mod_eq_of_lt ha]
    constructor
    · dsimp only
      lia
    · push_cast
      ring
  · have hset : (s.get ac &&& smask != 0) = true := bne_iff_ne.mpr ((and_smask_ne ha).mpr hge)
    rw [if_pos hset, if_pos hset, value_of_ge hge, hneg, Quad.num]
    generalize s.get (ac + 1) % 2 ^ 35 = v at *
    generalize s.get (ac + 2) % 2 ^ 35 = w at *
    generalize s.get (ac + 3) % 2 ^ 35 = x at *
    generalize s.get ac = u at *
    dsimp only
    constructor
    · lia
    · lia

/-- A quotient or a remainder with its sign. -/
lemma signed2 (f : Bool) (hhi : hi < 2 ^ 35) (hlo : lo < 2 ^ 35) {p : ℕ × ℕ}
    (hp : p = if f = true then minus2 hi lo else (hi, lo)) :
    p.1 < 2 ^ 36 ∧ Signed p.1 (p.2 ||| p.1 &&& smask) ∧
      value2 p.1 (p.2 ||| p.1 &&& smask) = if f then -((hi * 2 ^ 35 + lo : ℕ) : ℤ) else (hi * 2 ^ 35 + lo : ℕ) := by
  subst hp
  cases f with
  | false =>
      rw [if_neg nofun, if_neg nofun, value2, (signed_put (by omega) hlo).2, value_of_lt hhi]
      refine ⟨by omega, (signed_put (by omega) hlo).1, ?_⟩
      push_cast
      rfl
  | true =>
      have hccm := ccm_eq lo
      have hcarry := carry_eq (x := ccm lo + 1) (by omega)
      have hmod : (ccm lo + 1) % 2 ^ 35 < 2 ^ 35 := Nat.mod_lt _ (by positivity)
      rw [if_pos rfl, if_pos rfl, minus2, hcarry, cm_eq (by omega), and_fmask, and_cmask]
      have hu : (2 ^ 36 - 1 - hi + (ccm lo + 1) / 2 ^ 35) % 2 ^ 36 < 2 ^ 36 := Nat.mod_lt _ (by positivity)
      refine ⟨hu, (signed_put hu hmod).1, ?_⟩
      dsimp only
      rw [value2, (signed_put hu hmod).2, value]
      split_ifs <;> omega

/-- The first try decides if there is a quotient. -/
lemma precheck {a x b y : ℕ} (hx : x < 2 ^ 35) (hy : y < 2 ^ 35) (ha : a ≤ 2 ^ 35) (hb : b ≤ 2 ^ 35) :
    a + (2 ^ 36 - 1 - b) + (x + (2 ^ 35 - 1 - y) + 1) / 2 ^ 35 &&& c1 ≠ 0 ↔ b * 2 ^ 35 + y ≤ a * 2 ^ 35 + x := by
  rw [show c1 = 2 ^ 36 from rfl, Word.and_pow_ne_zero]
  rcases Nat.lt_or_ge x y with hxy | hxy
  · have hcarry : (x + (2 ^ 35 - 1 - y) + 1) / 2 ^ 35 = 0 := Nat.div_eq_of_lt (by omega)
    rw [hcarry]
    lia
  · have hcarry : (x + (2 ^ 35 - 1 - y) + 1) / 2 ^ 35 = 1 := by lia
    rw [hcarry]
    lia

lemma positive2_zero (hbr : br < 2 ^ 36) (brx : ℕ) :
    (positive2 br brx).1 ||| (positive2 br brx).2 = 0 ↔ br = 0 ∧ brx = 0 := by
  rw [Nat.or_eq_zero_iff, positive2]
  split_ifs with hneg
  · refine iff_of_false (fun h ↦ h.2) ?_
    rintro ⟨rfl, -⟩
    exact hneg rfl
  · rfl

/-- What is stored where there is a quotient. -/
def divWords (f g : Bool) (t : Acs) (ac : ℕ) (q : Quad) : Acs :=
  let p := if f = true then minus2 q.br q.brx else (q.br, q.brx)
  let r := if g = true then minus2 q.ad (q.adx &&& cmask) else (q.ad, q.adx &&& cmask)
  t.set4 ac p.1 (p.2 ||| p.1 &&& smask) r.1 (r.2 ||| r.1 &&& smask)

lemma flagged_noDivide (s : Acs) (p : Prop) [Decidable p] :
    (if p then s.overflow else s).noDivide = s.noDivide := by
  split <;> rfl

lemma ddiv_eq (cpu : Cpu) (h : s.Words) (ac br brx : ℕ) : ∃ t, t.reg = s.reg ∧ ddiv cpu s ac br brx =
      if (positive2 br brx).1 ||| (positive2 br brx).2 = 0 then
        match cpu with
        | .kl => { (if ((br &&& smask != 0) && ((positive2 br brx).1 &&& smask != 0)) = true then s.overflow else s) with
            nodiv := true }
        | .ks => s.noDivide
      else if (divQuad s ac).ad + cm (positive2 br brx).1
          + (if (divQuad s ac).adx + ccm (positive2 br brx).2 + 1 &&& smask ≠ 0 then 1 else 0) &&& c1 ≠ 0 then s.noDivide
      else divWords ((br &&& smask != 0) ^^ (s.get ac &&& smask != 0)) (s.get ac &&& smask != 0) t ac
        ((Quad.divStep (positive2 br brx).1 (positive2 br brx).2)^[70] (divQuad s ac)) := by
  have hget : s.get ac &&& fmask = s.get ac := by rw [and_fmask, Nat.mod_eq_of_lt (h ac)]
  have hreg : ∀ (p : Prop) [Decidable p], (if p then s.overflow else s).get = s.get := by
    intro p _
    split <;> rfl
  rw [ddiv, divQuad]
  dsimp only
  simp only [flagged_noDivide, hreg]
  by_cases hneg : (s.get ac &&& smask != 0) = true
  · simp only [if_pos hneg, divWords]
    exact ⟨_, (Acs.flagged_reg _ _).trans (Acs.flagged_reg _ _), rfl⟩
  · simp only [if_neg hneg, divWords, Quad.masked, hget]
    exact ⟨_, (Acs.flagged_reg _ _).trans (Acs.flagged_reg _ _), rfl⟩

/-- **`DDIV`.** -/
lemma ddiv_right (cpu : Cpu) (h : s.Words) (ac : ℕ) (hbr : br < 2 ^ 36) (brx : ℕ) :
    Ddiv cpu s ac br brx (ddiv cpu s ac br brx) := by
  have hb1 := (positive2_eq hbr brx).1
  have hbval := (positive2_eq hbr brx).2
  have hbsize := size2_le hbr brx
  have habs := abs_value2 hbr brx
  obtain ⟨hnle, hnval⟩ := divQuad_value h ac
  have hfull : (divQuad s ac).Full := Quad.masked_full _
  have hadx := hfull.adx
  have hqbr := hfull.br
  have hqbrx := hfull.brx
  have hnabs : |value4 (s.get ac) (s.get (ac + 1)) (s.get (ac + 2)) (s.get (ac + 3))| = (divQuad s ac).num := by
    rw [hnval]
    split
    · rw [abs_neg, Nat.abs_cast]
    · rw [Nat.abs_cast]
  have hnum : (divQuad s ac).num = ((divQuad s ac).ad * 2 ^ 35 + (divQuad s ac).adx) * 2 ^ 70
      + ((divQuad s ac).br * 2 ^ 35 + (divQuad s ac).brx) := by
    rw [Quad.num]
    ring
  have had : (divQuad s ac).ad ≤ 2 ^ 35 := by
    rw [hnum] at hnle
    lia
  have hbmod : (positive2 br brx).2 % 2 ^ 35 < 2 ^ 35 := Nat.mod_lt _ (by positivity)
  have hcheck := precheck hadx hbmod had hb1
  rw [← size2] at hcheck
  have hcond : 2 ^ 70 * |value2 br brx|
      ≤ |value4 (s.get ac) (s.get (ac + 1)) (s.get (ac + 2)) (s.get (ac + 3))| ↔
        size2 br brx ≤ (divQuad s ac).ad * 2 ^ 35 + (divQuad s ac).adx := by
    rw [habs, hnabs, hnum]
    norm_cast
    lia
  obtain ⟨t, ht, hdiv⟩ := ddiv_eq cpu h ac br brx
  have hccm := ccm_eq (positive2 br brx).2
  have hcarry := carry_eq (x := (divQuad s ac).adx + ccm (positive2 br brx).2 + 1) (by lia)
  rw [hcarry, cm_eq (by omega), hccm] at hdiv
  rw [hdiv, Ddiv]
  dsimp only
  rw [if_congr hcond rfl rfl, if_congr (positive2_zero hbr brx) rfl rfl, if_congr hcheck rfl rfl]
  by_cases hzero : br = 0 ∧ brx = 0
  · -- the divisor of two zero words
    obtain ⟨rfl, rfl⟩ := hzero
    have hle : size2 0 0 ≤ (divQuad s ac).ad * 2 ^ 35 + (divQuad s ac).adx := Nat.zero_le _
    rw [if_pos hle, if_pos (⟨rfl, rfl⟩ : 0 = 0 ∧ 0 = 0)]
    cases cpu with
    | kl => exact (if_pos ⟨rfl, rfl, rfl⟩).symm
    | ks => exact (if_neg fun h ↦ absurd h.1 (by decide)).symm
  rw [if_neg hzero]
  by_cases hle : size2 br brx ≤ (divQuad s ac).ad * 2 ^ 35 + (divQuad s ac).adx
  · rw [if_pos hle, if_pos hle, if_neg fun h ↦ hzero h.2]
  rw [if_neg hle, if_neg hle]
  -- the loop gives quotient and remainder of the magnitudes
  have hlt : (divQuad s ac).rest.1 < (positive2 br brx).1 * 2 ^ 35 + (positive2 br brx).2 % 2 ^ 35 := by
    rw [Quad.rest, ← size2, Nat.mod_eq_of_lt hadx]
    exact not_le.mp hle
  obtain ⟨hmb, hmq, hrest⟩ := Quad.divLoop hb1 hbsize hqbr hqbrx hlt
  rw [← size2, Quad.rest, Quad.rest, Nat.mod_eq_of_lt hadx] at hrest
  have hlow : (divQuad s ac).br * 2 ^ 35 + (divQuad s ac).brx < 2 ^ 70 := by lia
  obtain ⟨heq, hrlt, hqlt⟩ := BitSerial.div_loop hlow (not_le.mp hle)
  rw [← hrest, ← hnum] at heq
  rw [← hrest] at hrlt
  dsimp only at heq hrlt
  generalize (Quad.divStep (positive2 br brx).1 (positive2 br brx).2)^[70] (divQuad s ac) = q at *
  have hrmod : q.adx % 2 ^ 35 < 2 ^ 35 := Nat.mod_lt _ (by positivity)
  have hrad : q.ad < 2 ^ 35 := by lia
  have hdivides := divides_signed _ _ hnval hbval heq hrlt
  obtain ⟨hu, huv, hquot⟩ := signed2 ((br &&& smask != 0) ^^ (s.get ac &&& smask != 0)) hmb hmq rfl
  obtain ⟨hw, hwx, hrem⟩ := signed2 (s.get ac &&& smask != 0) hrad hrmod rfl
  rw [Bool.xor_comm, ← hquot, ← hrem] at hdivides
  rw [← and_cmask] at hw hwx hdivides
  exact ⟨t, _, _, _, _, rfl, ht, hu, huv, hw, hwx, hdivides⟩

end Quotients

/-! ### Double words -/

/-- **What the instructions of double words deliver**, on both processors and for all operands: sums and differences, the
product, quotient and remainder. -/
theorem doubles_delivered {s : Acs} (h : s.Words) (cpu : Cpu) (ac : ℕ) {br : ℕ} (hbr : br < 2 ^ 36) (brx : ℕ)
    (piCycle : Bool) :
    Dsum s ac (value2 (s.get ac) (s.get (ac + 1)) + value2 br brx) piCycle (dadd s ac br brx piCycle) ∧
      Dsum s ac (value2 (s.get ac) (s.get (ac + 1)) - value2 br brx) piCycle (dsub s ac br brx piCycle) ∧
      Dmul cpu s ac (value2 br brx) (dmul cpu s ac br brx) ∧ Ddiv cpu s ac br brx (ddiv cpu s ac br brx) :=
  ⟨dadd_right h ac hbr brx piCycle, dsub_right h ac hbr brx piCycle, dmul_right cpu h ac hbr brx,
    ddiv_right cpu h ac hbr brx⟩

theorem lowest_delivered : Dmul .ks lowest 0 (value2 (2 ^ 35) 0) (dmul .ks lowest 0 (2 ^ 35) 0) ∧
    Ddiv .ks lowest 0 0 0 (ddiv .ks lowest 0 0 0) :=
  ⟨(doubles_delivered lowest_words .ks 0 (by norm_num) 0 false).2.2.1,
    (doubles_delivered lowest_words .ks 0 (by norm_num) 0 false).2.2.2⟩

/-- The number -2⁷⁰ in four words. -/
def minusPow : Acs := ⟨fun i ↦ if i < 2 then 2 ^ 36 - 1 else 2 ^ 35, false, false, false, false, false⟩

/-- Where the two processors and the books differ: a `KL` has an overflow for one lowest factor, and none for a zero
divisor; there is none in an interrupt cycle; and a quotient of -2⁷⁰ is refused. -/
theorem doubles_differ :
    ((dmul .kl lowest 0 0 1).ovr = true ∧ lowest.ovr = false ∧ value2 0 1 ≠ -2 ^ 70) ∧
    ((ddiv .kl lowest 0 0 0).ovr = false ∧ (ddiv .kl lowest 0 0 0).trp1 = false ∧ value2 0 0 = 0) ∧
    ((dadd lowest 0 (2 ^ 35) 0 true).ovr = false ∧ value2 (lowest.get 0) (lowest.get 1) + value2 (2 ^ 35) 0 < -2 ^ 70) ∧
    (ddiv .ks minusPow 0 0 1).nodiv = true ∧ minusPow.nodiv = false ∧
      Divides (value4 (minusPow.get 0) (minusPow.get 1) (minusPow.get 2) (minusPow.get 3)) (value2 0 1)
        (value2 (2 ^ 35) 0) (value2 0 0) := by
  refine ⟨⟨by decide, rfl, by decide⟩, ⟨by decide, by decide, by decide⟩,
    ⟨by decide, by decide⟩, by decide, rfl, by decide, by decide, ?_⟩
  exact .inl (by decide)

end Ka10Simh.Pdp10.Arith
