import Ka10Simh.Lib.Bits
import Ka10Simh.Lib.Digits
import Ka10Simh.Pdp10.Word

/-!
The arithmetic of CVTBDO and CVTDBO: double words, powers of ten, digits.

A double word is `AR` and, in the right 35 bits of `ARX`, its low half. Powers of ten are subtracted by
adding their complement, and there is no borrow when the sum has a carry.

* `Dword.subtract_spec`: one subtraction.
* `Dword.width_spec`, `Dword.digits_width`: the number of digits, and the digits.
* `Dword.mul10_spec`: a digit read.
* `Dword.magnitude_spec`, `Dword.signed_spec`: the sign taken off and put back, `-2^70` included.
-/

namespace Ka10Simh.Pdp10

open Word

/-- `CM` and `CCM`: the complement of a word, and of its right 35 bits. -/
def cm (x : ℕ) : ℕ := fmask ^^^ x
def ccm (x : ℕ) : ℕ := (cmask ^^^ x) &&& cmask

/-- `AR` and `ARX`. -/
structure Dword where
  ar : ℕ
  arx : ℕ
  deriving DecidableEq

/-- `pow10_tab`. -/
def pow10Tab : List Dword :=
  [⟨0, 0o1⟩, ⟨0, 0o12⟩, ⟨0, 0o144⟩, ⟨0, 0o1750⟩, ⟨0, 0o23420⟩, ⟨0, 0o303240⟩, ⟨0, 0o3641100⟩,
    ⟨0, 0o46113200⟩, ⟨0, 0o575360400⟩, ⟨0, 0o7346545000⟩, ⟨0, 0o112402762000⟩,
    ⟨0o2, 0o351035564000⟩, ⟨0o35, 0o032451210000⟩, ⟨0o443, 0o011634520000⟩,
    ⟨0o5536, 0o142036440000⟩, ⟨0o70657, 0o324461500000⟩, ⟨0o1070336, 0o115760200000⟩,
    ⟨0o13064257, 0o013542400000⟩, ⟨0o157013326, 0o164731000000⟩, ⟨0o2126162140, 0o221172000000⟩,
    ⟨0o25536165705, 0o254304000000⟩, ⟨0o330656232670, 0o273650000000⟩]

namespace Dword

/-! ### The source -/

/-- `pow10_tab[f]`. -/
def pow10 (f : ℕ) : Dword := pow10Tab.getD f ⟨0, 0⟩

/-- `BR` and `BRX`: a power of ten subtracted. -/
def subtract (f : ℕ) (w : Dword) : Dword :=
  let brx := w.arx + ccm (pow10 f).arx + 1
  let br := w.ar + cm (pow10 f).ar + if brx &&& smask ≠ 0 then 1 else 0
  ⟨br, brx⟩

/-- The number of digits: the loop up to 22. -/
def width (w : Dword) : ℕ :=
  let f := ((List.range 22).find? fun f => (w.subtract f).ar &&& c1 == 0).getD 22
  if f = 0 then 1 else f

/-- The loop that subtracts a power of ten so many times at most: how often it has been, and the rest. -/
def digit (f : ℕ) : ℕ → Dword → ℕ × Dword
  | 0, w => (0, w)
  | n + 1, w =>
      let b := w.subtract f
      if b.ar &&& c1 = 0 then (0, w)
      else
        let (i, w) := digit f n ⟨b.ar &&& fmask, b.arx &&& cmask⟩
        (i + 1, w)

/-- The digits of the powers below, from the highest on. -/
def digits : ℕ → Dword → List ℕ
  | 0, _ => []
  | f + 1, w => (digit f 10 w).1 :: digits f (digit f 10 w).2

/-- The two-word negation. -/
def negate (w : Dword) : Dword :=
  let arx := ccm w.arx + 1
  ⟨cm w.ar + if arx &&& smask ≠ 0 then 1 else 0, arx⟩

/-- What CVTBDO does before it looks at the digits, unless `M` is set. -/
def magnitude (m : Bool) (w : Dword) : Dword :=
  let w := if w.ar &&& smask ≠ 0 ∧ m = false then w.negate else w
  { w with arx := w.arx &&& cmask }

/-- Times ten, and a digit. -/
def mul10 (w : Dword) (val1 : ℕ) : Dword :=
  let ar := w.ar <<< 1
  let arx := w.arx <<< 1
  let ar := if arx &&& smask ≠ 0 then ar ||| 1 else ar
  let arx := arx &&& cmask
  let br := ar <<< 2 ||| (arx >>> 33 &&& 3)
  let brx := (arx <<< 2) &&& cmask
  let arx := (arx &&& cmask) + (brx &&& cmask) + val1
  let f := arx >>> 35
  ⟨(ar + br + f) &&& fmask, arx &&& cmask⟩

/-- What CVTDBO does at the end, with the sign from `M`. -/
def signed (m : Bool) (w : Dword) : Dword :=
  let w := { w with arx := w.arx &&& cmask }
  let w := if m then w.negate else w
  ⟨w.ar &&& fmask, (w.arx &&& cmask) ||| (w.ar &&& smask)⟩

/-! ### Values -/

/-- A double word as a number without a sign, and with it. -/
def value (w : Dword) : ℕ := w.ar * 2 ^ 35 + w.arx % 2 ^ 35
def toInt (w : Dword) : ℤ :=
  ((w.ar : ℤ) - if w.ar < 2 ^ 35 then 0 else 2 ^ 36) * 2 ^ 35 + (w.arx % 2 ^ 35 : ℕ)

lemma value_mk (ar arx : ℕ) : value ⟨ar, arx⟩ = ar * 2 ^ 35 + arx % 2 ^ 35 := rfl

/-- A number without a sign in the low half. -/
structure Plain (w : Dword) : Prop where
  ar_lt : w.ar < 2 ^ 36
  arx_lt : w.arx < 2 ^ 35

lemma cm_eq {v : ℕ} (h : v < 2 ^ 36) : cm v = 2 ^ 36 - 1 - v := by
  rw [cm]
  exact mask_xor (n := 36) h

lemma ccm_eq (v : ℕ) : ccm v = 2 ^ 35 - 1 - v % 2 ^ 35 := by
  have hlt : v % 2 ^ 35 < 2 ^ 35 := Nat.mod_lt _ (by norm_num)
  have hlow : (cmask ^^^ v) &&& cmask = cmask ^^^ v % 2 ^ 35 := by
    rw [Nat.and_xor_distrib_right, Nat.and_self, and_cmask]
  rw [ccm, hlow]
  exact mask_xor (n := 35) hlt

lemma and_c1 (v : ℕ) : v &&& c1 = 0 ↔ v / 2 ^ 36 % 2 = 0 := by
  rw [show c1 = 2 ^ 36 from rfl, and_two_pow_eq_zero, Nat.testBit_eq_decide_div_mod_eq,
    decide_eq_false_iff_not]
  omega

/-- **The table** has the powers of ten. -/
lemma pow10_eq {f : ℕ} (hf : f < 22) :
    (pow10 f).ar * 2 ^ 35 + (pow10 f).arx = 10 ^ f ∧ (pow10 f).ar < 2 ^ 36
      ∧ (pow10 f).arx < 2 ^ 35 := by
  revert hf
  revert f
  decide

/-- **A subtraction** has a carry when there is enough, and is then the difference. -/
theorem subtract_spec {w : Dword} (h : w.Plain) {f : ℕ} (hf : f < 22) :
    ((w.subtract f).ar &&& c1 = 0 ↔ w.value < 10 ^ f)
      ∧ (10 ^ f ≤ w.value →
        Plain ⟨(w.subtract f).ar &&& fmask, (w.subtract f).arx &&& cmask⟩
        ∧ value ⟨(w.subtract f).ar &&& fmask, (w.subtract f).arx &&& cmask⟩ = w.value - 10 ^ f) := by
  obtain ⟨hpow, har, harx⟩ := pow10_eq hf
  obtain ⟨hw, hwx⟩ := h
  have hbrx : (w.subtract f).arx = w.arx + (2 ^ 35 - 1 - (pow10 f).arx) + 1 := by
    rw [subtract, ccm_eq, Nat.mod_eq_of_lt harx]
  have hcarry : (w.subtract f).arx &&& smask ≠ 0 ↔ (pow10 f).arx ≤ w.arx := by
    rw [hbrx, and_smask]
    omega
  have hbr : (w.subtract f).ar = w.ar + (2 ^ 36 - 1 - (pow10 f).ar)
      + if (pow10 f).arx ≤ w.arx then 1 else 0 := by
    rw [← if_congr hcarry rfl rfl, ← cm_eq har]
    rfl
  have hvalue : w.value = w.ar * 2 ^ 35 + w.arx := by rw [value, Nat.mod_eq_of_lt hwx]
  rw [and_c1, and_fmask, and_cmask, hbr, hbrx, hvalue, ← hpow]
  clear hbr hbrx hcarry hvalue hpow
  generalize (pow10 f).ar = hi at *
  generalize (pow10 f).arx = lo at *
  refine ⟨?_, fun hle => ⟨⟨Nat.mod_lt _ (by norm_num), Nat.mod_lt _ (by norm_num)⟩, ?_⟩⟩
  · split_ifs <;> omega
  · -- the two halves of the difference, with a borrow between them or without
    rw [value_mk, Nat.mod_mod]
    split_ifs with hlow
    · rw [show w.ar + (2 ^ 36 - 1 - hi) + 1 = w.ar - hi + 2 ^ 36 by omega,
        show w.arx + (2 ^ 35 - 1 - lo) + 1 = w.arx - lo + 2 ^ 35 by omega, Nat.add_mod_right,
        Nat.add_mod_right, Nat.mod_eq_of_lt (show w.ar - hi < 2 ^ 36 by omega),
        Nat.mod_eq_of_lt (show w.arx - lo < 2 ^ 35 by omega)]
      omega
    · rw [show w.ar + (2 ^ 36 - 1 - hi) + 0 = w.ar - hi - 1 + 2 ^ 36 by omega,
        Nat.add_mod_right, Nat.mod_eq_of_lt (show w.ar - hi - 1 < 2 ^ 36 by omega),
        Nat.mod_eq_of_lt (show w.arx + (2 ^ 35 - 1 - lo) + 1 < 2 ^ 35 by omega)]
      omega

/-! ### Digits -/

/-- **The number of digits**, of which there is one at least. -/
theorem width_spec {w : Dword} (h : w.Plain) (hlt : w.value < 10 ^ 22) :
    w.width = max (Nat.digits 10 w.value).length 1 := by
  have hfind : ((List.range 22).find? fun f => (w.subtract f).ar &&& c1 == 0).getD 22
      = (Nat.digits 10 w.value).length := by
    have hle : (Nat.digits 10 w.value).length ≤ 22 :=
      (Nat.digits_length_le_iff (by norm_num) _).mpr hlt
    cases hsome : (List.range 22).find? fun f => (w.subtract f).ar &&& c1 == 0 with
    | none =>
        have hnone := List.find?_eq_none.mp hsome 21 (by simp)
        rw [beq_iff_eq, (subtract_spec h (by norm_num)).1, ← Nat.digits_length_le_iff (by norm_num)]
          at hnone
        rw [Option.getD_none]
        omega
    | some f =>
        rw [List.find?_range_eq_some] at hsome
        obtain ⟨hf, hmem, hbefore⟩ := hsome
        have hf22 : f < 22 := List.mem_range.mp hmem
        rw [beq_iff_eq, (subtract_spec h hf22).1, ← Nat.digits_length_le_iff (by norm_num)] at hf
        rw [Option.getD_some]
        refine le_antisymm ?_ hf
        by_contra hshort
        have hearlier := hbefore (Nat.digits 10 w.value).length (by omega)
        rw [Bool.not_eq_true', beq_eq_false_iff_ne, ne_eq, (subtract_spec h (by omega)).1,
          ← Nat.digits_length_le_iff (by norm_num)] at hearlier
        exact hearlier le_rfl
  rw [width, hfind]
  split_ifs <;> omega

lemma digit_spec {f n : ℕ} {w : Dword} (h : w.Plain) (hf : f < 22) (hlt : w.value < n * 10 ^ f) :
    (digit f n w).1 = w.value / 10 ^ f ∧ (digit f n w).2.Plain
      ∧ (digit f n w).2.value = w.value % 10 ^ f := by
  induction n generalizing w with
  | zero => exact absurd hlt (by omega)
  | succ n ih =>
      obtain ⟨hborrow, hrest⟩ := subtract_spec h hf
      have hpos : 0 < 10 ^ f := by positivity
      rw [digit]
      by_cases hless : w.value < 10 ^ f
      · rw [if_pos (hborrow.mpr hless)]
        exact ⟨(Nat.div_eq_of_lt hless).symm, h, (Nat.mod_eq_of_lt hless).symm⟩
      · obtain ⟨hplain, hvalue⟩ := hrest (Nat.le_of_not_lt hless)
        have hsmall : value ⟨(w.subtract f).ar &&& fmask, (w.subtract f).arx &&& cmask⟩
            < n * 10 ^ f := by
          rw [hvalue]
          rw [Nat.succ_mul] at hlt
          omega
        obtain ⟨hi, hp, hv⟩ := ih hplain hsmall
        rw [if_neg (hborrow.not.mpr hless)]
        refine ⟨?_, hp, ?_⟩
        · show (digit f n _).1 + 1 = _
          rw [hi, hvalue, Nat.div_eq_sub_div hpos (Nat.le_of_not_lt hless)]
        · show (digit f n _).2.value = _
          rw [hv, hvalue, ← Nat.mod_eq_sub_mod (Nat.le_of_not_lt hless)]

/-- **The digits** are those of the number. -/
theorem digits_eq {f : ℕ} {w : Dword} (h : w.Plain) (hf : f ≤ 22) (hlt : w.value < 10 ^ f) :
    digits f w = Digits.leading 10 f w.value := by
  induction f generalizing w with
  | zero => rfl
  | succ f ih =>
      obtain ⟨hdigit, hplain, hrest⟩ :=
        digit_spec (f := f) (n := 10) h (by omega) (by rwa [pow_succ, Nat.mul_comm] at hlt)
      have hsmall : (digit f 10 w).2.value < 10 ^ f := by
        rw [hrest]
        exact Nat.mod_lt _ (by positivity)
      rw [digits, Digits.leading, hdigit, ih hplain (by omega) hsmall, hrest]

@[simp] lemma length_digits (f : ℕ) (w : Dword) : (digits f w).length = f := by
  induction f generalizing w with
  | zero => rfl
  | succ f ih => rw [digits, List.length_cons, ih]

lemma digits_width {w : Dword} (h : w.Plain) (hlt : w.value < 10 ^ 22) :
    digits w.width w = Digits.numeral 10 w.value := by
  have hlen : (Nat.digits 10 w.value).length ≤ 22 :=
    (Nat.digits_length_le_iff (by norm_num) _).mpr hlt
  have hwidth := width_spec h hlt
  have hbound : w.value < 10 ^ w.width := by
    rw [← Nat.digits_length_le_iff (by norm_num), hwidth]
    exact le_max_left _ _
  rw [digits_eq h (by rw [hwidth]; omega) hbound, hwidth, Digits.leading_eq (by norm_num)]

/-- **A digit read**: times ten, and the digit. -/
theorem mul10_spec {w : Dword} (h : w.Plain) {d : ℕ} (hlt : w.value * 10 + d < 2 ^ 71) :
    (w.mul10 d).Plain ∧ (w.mul10 d).value = w.value * 10 + d := by
  obtain ⟨hw, hwx⟩ := h
  have hvalue : w.value = w.ar * 2 ^ 35 + w.arx := by rw [value, Nat.mod_eq_of_lt hwx]
  rw [hvalue] at hlt ⊢
  set lo := w.arx * 2 % 2 ^ 35 with hlo
  have hcarry : (w.arx * 2 &&& smask ≠ 0) ↔ 2 ^ 35 ≤ w.arx * 2 := by
    rw [and_smask]
    omega
  -- times two, times eight, and the carry into the high half
  have hhi : (if w.arx * 2 &&& smask ≠ 0 then w.ar * 2 ||| 1 else w.ar * 2)
      = w.ar * 2 + w.arx * 2 / 2 ^ 35 := by
    have hone : w.ar * 2 ||| 1 = w.ar * 2 + 1 := or_eq_add (i := 1) (Dvd.intro_left _ rfl) (by norm_num)
    rw [if_congr hcarry hone rfl]
    split_ifs <;> omega
  set hi := w.ar * 2 + w.arx * 2 / 2 ^ 35 with hhi_def
  have hbr : hi * 2 ^ 2 ||| (lo >>> 33 &&& 3) = hi * 2 ^ 2 + lo / 2 ^ 33 := by
    have hsmall : lo >>> 33 &&& 3 = lo / 2 ^ 33 := by
      rw [Nat.shiftRight_eq_div_pow, show (3 : ℕ) = 2 ^ 2 - 1 from rfl, Nat.and_two_pow_sub_one_eq_mod]
      omega
    rw [hsmall, or_eq_add (Dvd.intro_left _ rfl) (by omega)]
  have hmul : w.mul10 d = ⟨(hi + (hi * 2 ^ 2 + lo / 2 ^ 33)
      + (lo + lo * 2 ^ 2 % 2 ^ 35 + d) / 2 ^ 35) % 2 ^ 36, (lo + lo * 2 ^ 2 % 2 ^ 35 + d) % 2 ^ 35⟩ := by
    simp only [mul10, Nat.shiftLeft_eq, pow_one, and_cmask, and_fmask, ← hlo]
    rw [hhi, hbr, Nat.shiftRight_eq_div_pow]
    simp only [Nat.mod_mod, hlo]
  have hdouble : hi * 2 ^ 35 + lo = (w.ar * 2 ^ 35 + w.arx) * 2 := by omega
  have hlo_lt : lo < 2 ^ 35 := Nat.mod_lt _ (by norm_num)
  have hfour : lo * 2 ^ 2 % 2 ^ 35 + 2 ^ 35 * (lo / 2 ^ 33) = lo * 2 ^ 2 := by omega
  clear_value lo hi
  clear hcarry hhi hbr hlo hhi_def
  rw [hmul, value_mk, Nat.mod_mod]
  refine ⟨⟨Nat.mod_lt _ (by norm_num), Nat.mod_lt _ (by norm_num)⟩, ?_⟩
  generalize hs : lo + lo * 2 ^ 2 % 2 ^ 35 + d = s
  have hcut : 2 ^ 35 * (s / 2 ^ 35) + s % 2 ^ 35 = s := Nat.div_add_mod s _
  have htotal : (hi + (hi * 2 ^ 2 + lo / 2 ^ 33) + s / 2 ^ 35) * 2 ^ 35 + s % 2 ^ 35
      = (hi * 2 ^ 35 + lo) * 5 + d := by
    clear hlt hvalue hdouble hmul
    omega
  have hhigh : hi + (hi * 2 ^ 2 + lo / 2 ^ 33) + s / 2 ^ 35 < 2 ^ 36 := by
    clear hcut hfour hs hvalue hmul
    omega
  rw [Nat.mod_eq_of_lt hhigh, htotal, hdouble]
  ring

/-- The magnitude of a number. -/
theorem magnitude_spec {w : Dword} (har : w.ar < 2 ^ 36) {m : Bool} (hm : w.toInt < 0 → m = false) :
    (w.magnitude m).Plain ∧ (w.magnitude m).value = w.toInt.natAbs := by
  have hlow : w.arx % 2 ^ 35 < 2 ^ 35 := Nat.mod_lt _ (by norm_num)
  have hsign : w.ar &&& smask ≠ 0 ↔ 2 ^ 35 ≤ w.ar := by
    rw [and_smask]
    omega
  by_cases hneg : 2 ^ 35 ≤ w.ar
  · have hint : w.toInt = ((w.ar : ℤ) - 2 ^ 36) * 2 ^ 35 + (w.arx % 2 ^ 35 : ℕ) := by
      rw [toInt, if_neg (by omega)]
    have hm0 : m = false := hm (by omega)
    have hbit : 2 ^ 35 - 1 - w.arx % 2 ^ 35 + 1 &&& smask ≠ 0 ↔ w.arx % 2 ^ 35 = 0 := by
      rw [and_smask]
      omega
    rw [magnitude, if_pos ⟨hsign.mpr hneg, hm0⟩]
    simp only [negate, ccm_eq, cm_eq har, hbit, and_cmask, value_mk, Nat.mod_mod]
    refine ⟨⟨?_, Nat.mod_lt _ (by norm_num)⟩, ?_⟩
    · show 2 ^ 36 - 1 - w.ar + (if w.arx % 2 ^ 35 = 0 then 1 else 0) < 2 ^ 36
      split_ifs <;> omega
    · split_ifs with hzero <;> omega
  · have hint : w.toInt = (w.ar : ℤ) * 2 ^ 35 + (w.arx % 2 ^ 35 : ℕ) := by
      rw [toInt, if_pos (by omega), sub_zero]
    rw [magnitude, if_neg fun h => hneg (hsign.mp h.1)]
    simp only [and_cmask, value_mk, Nat.mod_mod]
    refine ⟨⟨har, Nat.mod_lt _ (by norm_num)⟩, ?_⟩
    omega

/-- A sign in the low half does not count. -/
lemma toInt_sign (ar arx a : ℕ) : toInt ⟨ar, arx % 2 ^ 35 ||| (a &&& smask)⟩ = toInt ⟨ar, arx⟩ := by
  have hlow : (arx % 2 ^ 35 ||| (a &&& smask)) % 2 ^ 35 = arx % 2 ^ 35 := by
    refine Nat.eq_of_testBit_eq fun k => ?_
    rw [Nat.testBit_mod_two_pow, Nat.testBit_or, Nat.testBit_and, Nat.testBit_mod_two_pow,
      show smask = 2 ^ 35 from rfl, Nat.testBit_two_pow]
    rcases Nat.lt_trichotomy k 35 with hk | hk | hk
    · simp [hk, hk.ne']
    · simp [hk]
    · simp [hk.not_gt]
  simp only [toInt, hlow]

/-- **The sign put back**: of a magnitude up to `2^70`, or below it when there is no sign. -/
theorem signed_spec {w : Dword} (h : w.Plain) {m : Bool}
    (hlt : w.value < 2 ^ 70 ∨ m = true ∧ w.value = 2 ^ 70) :
    (w.signed m).toInt = if m then -(w.value : ℤ) else w.value := by
  obtain ⟨hw, hwx⟩ := h
  have hvalue : w.value = w.ar * 2 ^ 35 + w.arx := by rw [value, Nat.mod_eq_of_lt hwx]
  rw [hvalue] at hlt ⊢
  simp only [signed, and_fmask, and_cmask, toInt_sign]
  cases m with
  | false =>
      have hpos : w.ar < 2 ^ 35 := by
        rcases hlt with hlt | ⟨hm, -⟩
        · omega
        · exact absurd hm (by decide)
      simp only [Bool.false_eq_true, if_false, toInt, Nat.mod_eq_of_lt hw, Nat.mod_eq_of_lt hwx,
        if_pos hpos]
      push_cast
      ring
  | true =>
      have hbit : 2 ^ 35 - 1 - w.arx + 1 &&& smask ≠ 0 ↔ w.arx = 0 := by
        rw [and_smask]
        omega
      simp only [if_true, negate, ccm_eq, cm_eq hw, Nat.mod_eq_of_lt hwx, hbit, toInt]
      rcases Nat.eq_zero_or_pos w.arx with hzero | hpos
      · rw [if_pos hzero]
        split_ifs <;> omega
      · rw [if_neg hpos.ne']
        split_ifs <;> omega

end Dword

end Ka10Simh.Pdp10
