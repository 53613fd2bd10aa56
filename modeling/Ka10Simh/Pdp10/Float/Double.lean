import Ka10Simh.Pdp10.Float.Operate

/-!
The double precision instructions `DFAD`, `DFSB`, `DFMP` and `DFDV`: fractions of 62 bits in a register of 64.

* `dfad`, `dfmp`, `dfdv`: the source.
* `toInt_widen2`: the fraction of two words.
* `dfmpLoop_spec`: the loop of the multiplication gives the product.
-/

namespace Ka10Simh.Pdp10.Fp

/-! ### The source -/

/-- A pair of words. -/
structure Double where
  hi : ℕ
  lo : ℕ
  deriving DecidableEq

/-- The fraction of a pair of words. -/
def widen2 (d : Double) : BitVec 64 := BitVec.ofNat 64 (smearSign d.hi) <<< 35 ||| BitVec.ofNat 64 (d.lo &&& cmask)

/-- `AR`, `MQ` and `SC`. -/
structure DReg where
  ar : BitVec 64
  mq : ℕ
  sc : ℤ

/-- The smaller operand is shifted to the right `k` times, into `MQ`. -/
def dalign : ℕ → BitVec 64 × ℕ → BitVec 64 × ℕ
  | 0, r => r
  | k + 1, (ar, mq) =>
      dalign k (ar &&& (fphbit ||| fpsbit) ||| ar >>> 1, mq >>> 1 ||| if ar &&& 1 ≠ 0 then smask else 0)

/-- The first two bits of the fraction are the same. -/
def unnormal2 (ar : BitVec 64) : Bool :=
  ar &&& (fpsbit ||| fpnbit) = fpsbit ||| fpnbit ∨ ar &&& (fpsbit ||| fpnbit) = 0

/-- A loop that shifts to the left, for `k` turns at most; `bit` is the highest bit of `MQ`, which is cut with `mask`. -/
def dshiftUp (go : BitVec 64 → Bool) (bit mask : ℕ) : ℕ → DReg → DReg
  | 0, r => r
  | k + 1, r =>
      if go r.ar then
        dshiftUp go bit mask k ⟨r.ar <<< 1 ||| if r.mq &&& bit ≠ 0 then 1 else 0, r.mq <<< 1 &&& mask, r.sc - 1⟩
      else r

/-- The bit out of a sum. The loop has one turn at most, as the two bits are the same then. -/
def dfirst (r : DReg) : DReg :=
  if (r.ar &&& fphbit ≠ 0) ≠ (r.ar &&& fpsbit ≠ 0) then
    ⟨halve r.ar, r.mq >>> 1 ||| (if r.ar &&& 1 ≠ 0 then smask else 0), r.sc + 1⟩
  else r

/-- The special minus case. -/
def dedge (r : DReg) : DReg :=
  if r.ar = fphbit ||| fpsbit then { r with ar := halve r.ar, sc := r.sc + 1 } else r

/-- `dpnorm` up to the rounding, and `fxu_hold_set`. -/
def dpnorm (r : DReg) : DReg × Bool :=
  let r := dfirst r
  (if r.ar ≠ 0 then dedge (dshiftUp (fun ar ↦ ar ≠ 0 ∧ unnormal2 ar) smask (2 ^ 64 - 1) 65 r) else ⟨0, 0, 0⟩,
    scBit r.sc 8 ^^ scBit r.sc 7)

/-- The rounding of `DFAD`, after which `dpnorm` is gone through once more for a positive number. -/
def dround (r : DReg) : DReg × Bool :=
  let p := dpnorm r
  if p.1.mq &&& smask ≠ 0 ∧ (p.1.ar &&& fpsbit = 0 ∨ p.1.ar &&& fpsbit ≠ 0 ∧ p.1.mq &&& 0o377700000000 ≠ 0) then
    let ar := p.1.ar + 1
    if ar &&& fphbit = 0 then
      let p' := dpnorm { p.1 with ar := ar }
      (p'.1, p.2 || p'.2)
    else ({ p.1 with ar := ar }, p.2)
  else p

/-- The two words and `FLAGS`. -/
structure DResult where
  words : Double
  flags : ℕ
  deriving DecidableEq

/-- The result is put into two words. -/
def dpack (flag1 : Bool) (ar : BitVec 64) (sc : ℤ) : Double :=
  let mq := ar.toNat &&& cmask
  let hi := ((ar >>> 35).toNat &&& mmask) ||| if flag1 then smask else 0
  let e := if hi &&& smask ≠ 0 then 0o377 - sc % 0o400 else sc % 0o400
  let hi := hi &&& (smask ||| mmask)
  ⟨if hi ≠ 0 ∨ mq ≠ 0 then hi ||| e.toNat <<< 27 else hi, mq⟩

/-- The flags of an exponent out of range, of which `under` tells that it is too small. -/
def dflags (c : Build) (piCycle under : Bool) (sc : ℤ) (flags : ℕ) : ℕ :=
  if scBit sc 8 ∧ ¬ piCycle then flags ||| ovr ||| fltovr c ||| trp1 c ||| if under then fltund c else 0 else flags

/-- The sum of two fractions with the exponents `fe` and `sc`. -/
def dsum (ar br : BitVec 64) (fe sc : ℤ) : DReg :=
  let r := if sc < fe then (br, ar, sc, fe) else (ar, br, fe, sc)
  let scad := (r.2.2.2 - r.2.2.1).toNat
  let p := if 64 < scad then (0, 0) else dalign scad (r.1, 0)
  ⟨p.1 + r.2.1, p.2, r.2.2.2⟩

/-- The end of `DFAD` and `DFSB`. -/
def dfadEnd (c : Build) (piCycle : Bool) (flags : ℕ) (r : DReg) : DResult :=
  let p := dround r
  ⟨dpack (r.ar &&& fphbit ≠ 0) p.1.ar p.1.sc, dflags c piCycle (!p.2) p.1.sc flags⟩

/-- `DFAD` and `DFSB`, with the accumulators in `a` and the operand in `m`. -/
def dfad (c : Build) (ir : ℕ) (piCycle : Bool) (flags : ℕ) (a m : Double) : DResult :=
  let br := if ir &&& 1 ≠ 0 then (fpfmask ^^^ widen2 m) + 1 else widen2 m
  dfadEnd c piCycle flags (dsum (widen2 a) br (getExpo a.hi) (getExpo m.hi))

/-- `ARX`, `MQ` and `BR` of the multiplication. -/
structure MulReg where
  arx : BitVec 64
  mq : ℕ
  br : BitVec 64

/-- The turn `fe` of the multiplication. -/
def dfmpTurn (ar : BitVec 64) (fe : ℕ) (r : MulReg) : MulReg :=
  let mq := if fe = 35 then 0 else r.mq
  let arx := if r.br &&& 1 ≠ 0 then r.arx + ar else r.arx
  ⟨arx >>> 1, mq >>> 1 ||| (if arx &&& 1 ≠ 0 then bit1 else 0), r.br >>> 1⟩

/-- The loop, for the first `fe` turns. -/
def dfmpLoop (ar : BitVec 64) (mq : ℕ) (br : BitVec 64) : ℕ → MulReg
  | 0 => ⟨0, mq, br⟩
  | fe + 1 => dfmpTurn ar fe (dfmpLoop ar mq br fe)

/-- The sign of the product. -/
def dfmpSign (flag1 : Bool) (r : DReg) : DReg :=
  if flag1 then
    let mq := (r.mq ^^^ cmask) + 0o400
    let ar := r.ar ^^^ fpfmask
    let ar := if mq &&& smask ≠ 0 then ar + 1 else ar
    let mq := if mq &&& smask ≠ 0 then mq &&& fmask else mq
    if ar &&& (fphbit ||| fpsbit) = fphbit then
      ⟨ar >>> 1 ||| fphbit &&& ar, mq >>> 1 ||| (if ar &&& 1 ≠ 0 then bit1 else 0), r.sc + 1⟩
    else ⟨ar, mq, r.sc⟩
  else r

/-- The fast shift. -/
def dfmpFast (r : DReg) : DReg :=
  if r.ar &&& ~~~0o777777777 = 0 ∨ (r.ar &&& ~~~0o777777777) + 0o1000000000 = 0 then
    let ar := r.ar <<< 35 ||| BitVec.ofNat 64 (r.mq &&& cmask)
    ⟨if ar &&& 0o777 = 0o777 then ar &&& fpfmask <<< 8 else ar, 0, r.sc - 35⟩
  else r

/-- The shift to the left: a loop with the special minus case after it, or a single turn on a KI10. -/
def dfmpNorm (c : Build) (r : DReg) : DReg :=
  if isKl c then
    let r := dshiftUp unnormal2 bit1 fmask 65 r
    if r.ar = fphbit ||| fpsbit then
      ⟨halve r.ar, (r.mq ||| if r.ar &&& 1 ≠ 0 then smask else 0) >>> 1, r.sc + 1⟩
    else r
  else dshiftUp unnormal2 bit1 fmask 1 r

/-- `DFMP`, with the accumulators in `a` and the operand in `m`. -/
def dfmp (c : Build) (piCycle : Bool) (flags : ℕ) (a m : Double) : DResult :=
  let ar := widen2 a
  let br := widen2 m
  let flag1 := decide (ar &&& fpsbit ≠ 0) ^^ decide (br &&& fpsbit ≠ 0)
  let r := dfmpLoop (if ar &&& fpsbit ≠ 0 then (fpfmask ^^^ ar) + 1 else ar) a.lo
    (if br &&& fpsbit ≠ 0 then (fpfmask ^^^ br) + 1 else br) 62
  let r := dfmpSign flag1 ⟨r.arx, r.mq, getExpo a.hi + getExpo m.hi - 0o200⟩
  let flag1 := flag1 && r.ar ≠ 0
  let r := if r.ar ≠ 0 then dfmpNorm c (dfmpFast r) else ⟨0, 0, 0⟩
  let ar := if r.mq &&& bit1 ≠ 0 then r.ar + 1 else r.ar
  ⟨dpack flag1 ar r.sc, dflags c piCycle (r.sc < 0) r.sc flags⟩

/-- `AR` and `AD` of the division. -/
structure DivReg where
  ar : BitVec 64
  ad : BitVec 64

/-- A turn of the division. -/
def dfdvTurn (br : BitVec 64) (r : DivReg) : DivReg :=
  if br.ule r.ar then ⟨(r.ar - br) <<< 1, r.ad <<< 1 ||| 1⟩ else ⟨r.ar <<< 1, r.ad <<< 1⟩

/-- The loop, for `n` turns. -/
def dfdvLoop (br : BitVec 64) : ℕ → DivReg → DivReg
  | 0, r => r
  | n + 1, r => dfdvLoop br n (dfdvTurn br r)

/-- The sign of the quotient, and on the later processors the rounding with one bit more. -/
def dfdvSign (c : Build) (flag1 : Bool) (ad : BitVec 64) : BitVec 64 :=
  let ar := if flag1 then (ad ^^^ fpfmask) + 1 else if isKl c then ad + 1 else ad
  if isKl c then halve ar else ar

/-- The bit out of the quotient; this loop has one turn at most, too. -/
def dfdvFirst (ar : BitVec 64) (sc : ℤ) : BitVec 64 × ℤ :=
  if (ar &&& fphbit ≠ 0) ≠ (ar &&& fpsbit ≠ 0) then (halve ar, sc + 1) else (ar, sc)

/-- The words that `DFDV` stores, if it does, and `FLAGS`. -/
structure DOutcome where
  words : Option Double
  flags : ℕ

/-- `DFDV`, with the accumulators in `a` and the operand in `m`. -/
def dfdv (c : Build) (piCycle : Bool) (flags : ℕ) (a m : Double) : DOutcome :=
  let ar := if isKl c then widen2 a <<< 1 else widen2 a
  let br := if isKl c then widen2 m <<< 1 else widen2 m
  let flag1 := decide (ar &&& fphbit ≠ 0) ^^ decide (br &&& fphbit ≠ 0)
  let ar := if ar &&& fphbit ≠ 0 then (fpfmask ^^^ ar) + 1 else ar
  let br := if br &&& fphbit ≠ 0 then (fpfmask ^^^ br) + 1 else br
  if (br <<< 1).ule ar then
    ⟨none, if piCycle then flags else flags ||| ovr ||| fltovr c ||| nodiv c ||| trp1 c⟩
  else if ar = 0 then ⟨none, flags⟩
  else
    let less := ar.ult br
    let sc : ℤ := getExpo a.hi - getExpo m.hi + 0o201 - if less then 1 else 0
    let flags := if sc < 0 ∧ ¬ piCycle then flags ||| fltund c ||| ovr ||| fltovr c ||| trp1 c else flags
    let q := dfdvLoop br (if isKl c then 63 else 62) ⟨if less then ar <<< 1 else ar, 0⟩
    let r := dfdvFirst (dfdvSign c flag1 q.ad) sc
    ⟨some (dpack flag1 r.1 r.2), dflags c piCycle (!((scBit sc 8 ^^ scBit sc 7) || sc == 0o600)) r.2 flags⟩

/-! ### Fractions -/

/-- The fraction of two words with its sign. -/
def mantissa2 (d : Double) : ℤ := mantissa d.hi * 2 ^ 35 + (d.lo % 2 ^ 35 : ℕ)

/-- The number of two words. -/
def value2 (d : Double) : ℚ := mantissa2 d * 2 ^ (getExpo d.hi - 190 : ℤ)

/-- Two words whose fraction is at least one half, or which are zero. -/
structure Normalized2 (d : Double) : Prop where
  lt : d.hi < 2 ^ 36
  range : d.hi = 0 ∧ mantissa2 d = 0 ∨ 2 ^ 61 ≤ |mantissa2 d| ∧ |mantissa2 d| < 2 ^ 62

section Fractions

variable {d : Double}

lemma mantissa2_range (d : Double) : -2 ^ 62 ≤ mantissa2 d ∧ mantissa2 d < 2 ^ 62 := by
  have hrange := mantissa_range d.hi
  rw [mantissa2]
  omega

lemma toInt_widen2 (h : d.hi < 2 ^ 36) : (widen2 d).toInt = mantissa2 d := by
  have hrange := mantissa_range d.hi
  have hsmear := smearSign_eq h
  have hlow : (BitVec.ofNat 64 (d.lo &&& cmask)).toNat = d.lo % 2 ^ 35 := by
    rw [and_cmask, BitVec.toNat_ofNat]
    lia
  have hhigh : (BitVec.ofNat 64 (smearSign d.hi) <<< 35).toNat = smearSign d.hi % 2 ^ 29 * 2 ^ 35 := by
    rw [BitVec.toNat_shiftLeft, BitVec.toNat_ofNat, Nat.shiftLeft_eq]
    lia
  have hnat : (widen2 d).toNat = smearSign d.hi % 2 ^ 29 * 2 ^ 35 + d.lo % 2 ^ 35 := by
    rw [widen2, BitVec.toNat_or, hlow, hhigh]
    exact Word.or_eq_add (Dvd.intro_left _ rfl) (Nat.mod_lt _ (by norm_num))
  have hsign : mantissa d.hi < 0 ↔ 2 ^ 35 ≤ d.hi := by
    rw [mantissa]
    split <;> lia
  rw [BitVec.toInt_eq_toNat_cond, hnat, mantissa2]
  split at hsmear <;> split <;> push_cast <;> lia

/-- A fraction made positive, when `neg` is its sign. -/
lemma toNat_magnitude {v : BitVec 64} {p : Prop} [Decidable p] (hp : p ↔ v.toInt < 0) :
    (if p then (fpfmask ^^^ v) + 1 else v).toNat = v.toInt.natAbs := by
  have hlt := v.isLt
  have hneg : (fpfmask ^^^ v) + 1 = -v := by
    have hones : fpfmask = BitVec.allOnes 64 := rfl
    rw [hones, BitVec.allOnes_xor]
    exact (BitVec.neg_eq_not_add v).symm
  by_cases hsign : p
  · have hlt0 := hp.mp hsign
    rw [if_pos hsign, hneg, BitVec.toNat_neg]
    rw [BitVec.toInt_eq_toNat_cond] at hlt0 ⊢
    split_ifs at hlt0 ⊢ <;> lia
  · have hge0 := mt hp.mpr hsign
    rw [if_neg hsign]
    rw [BitVec.toInt_eq_toNat_cond] at hge0 ⊢
    split_ifs at hge0 ⊢ <;> lia

end Fractions

/-! ### The loop of the multiplication -/

section Multiplication

variable {ar br : BitVec 64} {mq fe : ℕ}

/-- The registers after `fe` turns: the product with the `fe` low bits, of which `MQ` gets those from bit 35 on. -/
structure Multiplied (ar br : BitVec 64) (fe : ℕ) (r : MulReg) : Prop where
  factor : r.br.toNat = br.toNat / 2 ^ fe
  arx : r.arx.toNat = ar.toNat * (br.toNat % 2 ^ fe) / 2 ^ fe
  mq : 35 < fe → r.mq = ar.toNat * (br.toNat % 2 ^ fe) / 2 ^ 35 % 2 ^ (fe - 35) * 2 ^ (70 - fe)

lemma and_one_ne_zero (v : BitVec 64) : v &&& 1 ≠ 0 ↔ v.toNat % 2 = 1 := by
  have h1 : (1 : BitVec 64).toNat = 1 := rfl
  have h0 : (0 : BitVec 64).toNat = 0 := rfl
  rw [ne_eq, ← BitVec.toNat_inj, BitVec.toNat_and, h1, h0, Nat.and_one_is_mod]
  lia

/-- The bits of a product that is made one bit longer. -/
lemma product_step (a b fe : ℕ) : a * (b % 2 ^ (fe + 1)) = a * (b % 2 ^ fe) + b / 2 ^ fe % 2 * a * 2 ^ fe := by
  rw [pow_succ, Nat.mod_mul]
  ring

/-- **A turn of the multiplication.** -/
lemma Multiplied.step {r : MulReg} (ha : ar.toNat < 2 ^ 62) (h : Multiplied ar br fe r) (hfe : fe < 62) :
    Multiplied ar br (fe + 1) (dfmpTurn ar fe r) := by
  have hstep := product_step ar.toNat br.toNat fe
  have hbit : r.br &&& 1 ≠ 0 ↔ br.toNat / 2 ^ fe % 2 = 1 := by rw [and_one_ne_zero, h.factor]
  -- the sum before the shift
  have hsum : (if r.br &&& 1 ≠ 0 then r.arx + ar else r.arx).toNat = ar.toNat * (br.toNat % 2 ^ (fe + 1)) / 2 ^ fe := by
    have hle : r.arx.toNat ≤ ar.toNat := by
      rw [h.arx]
      refine Nat.div_le_of_le_mul ?_
      rw [Nat.mul_comm]
      exact Nat.mul_le_mul_right _ (Nat.mod_lt _ (Nat.two_pow_pos fe)).le
    rw [hstep, Nat.add_mul_div_right _ _ (Nat.two_pow_pos fe), ← h.arx]
    rcases Nat.mod_two_eq_zero_or_one (br.toNat / 2 ^ fe) with h0 | h1
    · rw [if_neg (by rw [hbit, h0]; decide), h0, Nat.zero_mul, Nat.add_zero]
    · rw [if_pos (hbit.mpr h1), h1, Nat.one_mul, BitVec.toNat_add]
      exact Nat.mod_eq_of_lt (by omega)
  rw [dfmpTurn]
  generalize hs : (if r.br &&& 1 ≠ 0 then r.arx + ar else r.arx) = s at hsum ⊢
  refine ⟨?_, ?_, fun hmq ↦ ?_⟩
  · dsimp only
    rw [BitVec.toNat_ushiftRight, h.factor, Nat.shiftRight_eq_div_pow, Nat.div_div_eq_div_mul, ← pow_add]
  · dsimp only
    rw [BitVec.toNat_ushiftRight, hsum, Nat.shiftRight_eq_div_pow, Nat.div_div_eq_div_mul, ← pow_add]
  · dsimp only
    obtain ⟨k, rfl⟩ : ∃ k, fe = 35 + k := ⟨fe - 35, by omega⟩
    -- what `MQ` has of the bits before
    have hold : (if 35 + k = 35 then 0 else r.mq) >>> 1 =
        ar.toNat * (br.toNat % 2 ^ (35 + k)) / 2 ^ 35 % 2 ^ k * 2 ^ (34 - k) := by
      rcases Nat.eq_zero_or_pos k with rfl | hk
      · rw [if_pos rfl, pow_zero, Nat.mod_one, Nat.zero_mul]
        rfl
      · rw [if_neg (by omega), h.mq (by omega), show 35 + k - 35 = k by lia, show 70 - (35 + k) = 34 - k + 1 by lia,
          Nat.shiftRight_eq_div_pow, pow_one, pow_succ 2 (34 - k), ← Nat.mul_assoc, Nat.mul_div_cancel _ two_pos]
    have hnew : (if s &&& 1 ≠ 0 then bit1 else 0) = s.toNat % 2 * 2 ^ 34 := by
      rcases Nat.mod_two_eq_zero_or_one s.toNat with h0 | h1
      · rw [if_neg (by rw [and_one_ne_zero, h0]; decide), h0, Nat.zero_mul]
      · rw [if_pos ((and_one_ne_zero s).mpr h1), h1]
        rfl
    have hlow : ar.toNat * (br.toNat % 2 ^ (35 + k)) / 2 ^ 35 % 2 ^ k * 2 ^ (34 - k) < 2 ^ 34 := by
      have hpow : 2 ^ 34 = 2 ^ k * 2 ^ (34 - k) := by
        rw [← pow_add]
        congr 1
        lia
      rw [hpow]
      exact Nat.mul_lt_mul_of_pos_right (Nat.mod_lt _ (Nat.two_pow_pos k)) (Nat.two_pow_pos _)
    have hprod : ar.toNat * (br.toNat % 2 ^ (35 + k + 1)) / 2 ^ 35 % 2 ^ (k + 1) =
        ar.toNat * (br.toNat % 2 ^ (35 + k)) / 2 ^ 35 % 2 ^ k + s.toNat % 2 * 2 ^ k := by
      have hdiv : ar.toNat * (br.toNat % 2 ^ (35 + k + 1)) / 2 ^ 35 / 2 ^ k = s.toNat := by
        rw [hsum, Nat.div_div_eq_div_mul, ← pow_add]
      have hmod : ar.toNat * (br.toNat % 2 ^ (35 + k + 1)) / 2 ^ 35 % 2 ^ k =
          ar.toNat * (br.toNat % 2 ^ (35 + k)) / 2 ^ 35 % 2 ^ k := by
        rw [hstep, pow_add 2 35 k, mul_comm (2 ^ 35) (2 ^ k), ← mul_assoc, Nat.add_mul_div_right _ _ (by norm_num),
          Nat.add_mul_mod_self_right]
      generalize ar.toNat * (br.toNat % 2 ^ (35 + k + 1)) / 2 ^ 35 = p at hdiv hmod ⊢
      rw [pow_succ, Nat.mod_mul, hdiv, hmod, Nat.mul_comm (2 ^ k)]
    rw [hold, hnew, Nat.or_comm, Word.or_eq_add (i := 34) (Dvd.intro_left _ rfl) hlow, show 35 + k + 1 - 35 = k + 1 by lia,
      hprod, show 70 - (35 + k + 1) = 34 - k by lia, Nat.add_mul, Nat.mul_assoc (s.toNat % 2), ← pow_add,
      show k + (34 - k) = 34 by lia, Nat.add_comm]

/-- **The loop gives the product**, in `ARX` from bit 62 on and in `MQ` the 27 bits before them. -/
theorem dfmpLoop_spec (mq : ℕ) (ha : ar.toNat < 2 ^ 62) (hb : br.toNat < 2 ^ 62) :
    (dfmpLoop ar mq br 62).arx.toNat = ar.toNat * br.toNat / 2 ^ 62 ∧
      (dfmpLoop ar mq br 62).mq = ar.toNat * br.toNat / 2 ^ 35 % 2 ^ 27 * 2 ^ 8 := by
  have hrun : ∀ fe ≤ 62, Multiplied ar br fe (dfmpLoop ar mq br fe) := by
    intro fe
    induction fe with
    | zero =>
        intro _
        refine ⟨by rw [dfmpLoop, pow_zero, Nat.div_one], ?_, fun h ↦ absurd h (by norm_num)⟩
        rw [dfmpLoop, pow_zero, Nat.mod_one, Nat.mul_zero, Nat.zero_div]
        rfl
    | succ fe ih =>
        intro hfe
        exact (ih (by omega)).step ha hfe
  obtain ⟨-, harx, hmq⟩ := hrun 62 le_rfl
  rw [Nat.mod_eq_of_lt hb] at harx hmq
  exact ⟨harx, hmq (by norm_num)⟩

end Multiplication

end Ka10Simh.Pdp10.Fp
