import Ka10Simh.Pdp10.Float.Nearest

/-!
`FIX`, `FIXR` and `FLTR`, the conversions between integers and floating point numbers.

* `fix`, `fltr`: the source.
* `fix_spec`: the integer part, and the rounded number.
* `fltr_spec`: an integer is shifted until it is normalized, and rounded.
* `converts_iff`: the integers for which the conversions are right: all those that do not slip.
-/

namespace Ka10Simh.Pdp10.Fp

/-! ### The source -/

/-- `SC`, the shift to the left modulo 512. -/
def fixCount (x : ℕ) : ℤ := ((getExpo x + 0o600 : ℤ) % 0o1000 - 27) % 0o1000

/-- `AR` and `MQ` of a shift to the right, where the count `sc` is positive. -/
def fixShift (ar sc : ℕ) : ℕ × ℕ :=
  if 27 < sc then (0, 0)
  else (ar >>> sc ||| fmask &&& if ar &&& smask ≠ 0 then fmask <<< (27 - sc) else 0, ar <<< (36 - sc) &&& fmask)

/-- The word of `FIX` and `FIXR`, if there is no overflow. -/
def fixWord (ir x : ℕ) : Option ℕ :=
  let sc := fixCount x
  if sc < 9 then some (smearSign x <<< sc.toNat &&& fmask)
  else if scBit sc 8 then
    let r := fixShift (smearSign x) (0o1000 - sc).toNat
    let up := ir &&& 0o4 ≠ 0 ∧ r.2 &&& smask ≠ 0 ∨ ir &&& 0o4 = 0 ∧ r.1 &&& smask ≠ 0 ∧ r.2 ≠ 0
    some ((if up then r.1 + 1 else r.1) &&& fmask)
  else none

/-- The end of `FIX` and `FIXR`. -/
def fixStore (c : Build) (piCycle : Bool) (ac : ℕ) (s : Cpu) : Option ℕ → Cpu
  | some v => s.setReg ac v
  | none => if piCycle then s else { s with flags := s.flags ||| ovr ||| trp1 c }

/-- `FIX` and `FIXR`, of the word `mb`. -/
def fix (c : Build) (ir : ℕ) (piCycle : Bool) (ac mb : ℕ) (s : Cpu) : Cpu := fixStore c piCycle ac s (fixWord ir mb)

/-- The fraction of `FLTR`. -/
def fltrAr (mb : ℕ) : BitVec 64 :=
  let ar := BitVec.ofNat 64 mb <<< 27
  if ar &&& fpsbit ≠ 0 then ar ||| fphbit else ar

/-- `FLTR`, of the word `mb`. -/
def fltr (c : Build) (piCycle : Bool) (ac mb : ℕ) (s : Cpu) : Cpu :=
  let flag1 : Bool := BitVec.ofNat 64 mb <<< 27 &&& fpsbit ≠ 0
  let r := fnorm c 0o127 piCycle flag1 false s.flags ⟨fltrAr mb, 162, 0⟩
  { s.setReg ac (r.ar &&& fmask) with flags := r.flags }

/-! ### Integers of a number -/

/-- The integer part. -/
def trunc (x : ℚ) : ℤ := if 0 ≤ x then ⌊x⌋ else ⌈x⌉

/-- What the opcode makes of a number. -/
def fixed (ir : ℕ) (x : ℚ) : ℤ := if ir &&& 0o4 ≠ 0 then ⌊x + 1 / 2⌋ else trunc x

section Integers

variable {ir k : ℕ} {m : ℤ}

/-- The parts of a number that has `k` bits after the point. -/
lemma fixed_div (ir k : ℕ) (m : ℤ) : fixed ir (m / 2 ^ k) =
    m / 2 ^ k + if ir &&& 0o4 ≠ 0 ∧ 2 ^ k ≤ 2 * (m % 2 ^ k) ∨ ir &&& 0o4 = 0 ∧ m < 0 ∧ m % 2 ^ k ≠ 0 then 1 else 0 := by
  have hpos : (0 : ℚ) < 2 ^ k := by positivity
  have hposz : (0 : ℤ) < 2 ^ k := by positivity
  have hmod := Int.emod_nonneg m hposz.ne'
  have hmod' := Int.emod_lt_of_pos m hposz
  have hsplit : (m : ℚ) = 2 ^ k * (m / 2 ^ k : ℤ) + (m % 2 ^ k : ℤ) := by exact_mod_cast (Int.mul_ediv_add_emod m _).symm
  have hr0 : (0 : ℚ) ≤ (m % 2 ^ k : ℤ) := by exact_mod_cast hmod
  have hr1 : ((m % 2 ^ k : ℤ) : ℚ) < 2 ^ k := by exact_mod_cast hmod'
  have hfloor : ⌊(m : ℚ) / 2 ^ k⌋ = m / 2 ^ k := by
    rw [Int.floor_eq_iff, le_div_iff₀ hpos, div_lt_iff₀ hpos]
    constructor <;> nlinarith
  rw [fixed, trunc]
  by_cases hir : ir &&& 0o4 = 0
  · simp only [hir, ne_eq, not_true_eq_false, false_and, true_and, false_or, if_false]
    rcases le_or_gt 0 m with hm | hm
    · have hq : (0 : ℚ) ≤ m / 2 ^ k := by positivity
      rw [if_pos hq, hfloor, if_neg (by omega), add_zero]
    · have hq : ¬ (0 : ℚ) ≤ m / 2 ^ k := by
        rw [not_le]
        exact div_neg_of_neg_of_pos (by exact_mod_cast hm) hpos
      rw [if_neg hq, Int.ceil_eq_iff, lt_div_iff₀ hpos, div_le_iff₀ hpos]
      by_cases hrest : m % 2 ^ k = 0
      · rw [if_neg (by tauto)]
        rw [hrest] at hsplit
        push_cast at hsplit ⊢
        constructor <;> nlinarith
      · have hr : (0 : ℚ) < (m % 2 ^ k : ℤ) := by
          have hz : 0 < m % 2 ^ k := by omega
          exact_mod_cast hz
        rw [if_pos ⟨hm, hrest⟩]
        push_cast
        constructor <;> nlinarith
  · simp only [hir, ne_eq, not_false_eq_true, true_and, false_and, or_false, if_true]
    have hhalf : (2 : ℚ) ^ k ≤ 2 * (m % 2 ^ k : ℤ) ↔ 2 ^ k ≤ 2 * (m % 2 ^ k) := by norm_cast
    have hadd : (m : ℚ) / 2 ^ k + 1 / 2 = (2 * m + 2 ^ k) / (2 * 2 ^ k) := by field_simp
    rw [hadd, Int.floor_eq_iff, le_div_iff₀ (by positivity), div_lt_iff₀ (by positivity)]
    split_ifs with hup
    · have hup' := hhalf.mpr hup
      push_cast
      constructor <;> nlinarith
    · have hup' := not_le.mp (mt hhalf.mp hup)
      push_cast
      constructor <;> nlinarith

/-- An integer has all its bits before the point. -/
lemma fixed_int (ir : ℕ) (z : ℤ) : fixed ir z = z := by
  have hdiv := fixed_div ir 0 z
  simp only [pow_zero, div_one, Int.ediv_one, Int.emod_one, mul_zero, ne_eq, not_true_eq_false, and_false, or_false] at hdiv
  rw [hdiv, if_neg (by omega), add_zero]

/-- Less than one half is rounded to 0, too. -/
lemma fixed_small (ir : ℕ) (h : -2 ^ k < 2 * m) (h' : 2 * m < 2 ^ k) : fixed ir (m / 2 ^ k) = 0 := by
  rw [fixed_div]
  rcases le_or_gt 0 m with hm | hm
  · rw [Int.ediv_eq_zero_of_lt hm (by omega), Int.emod_eq_of_lt hm (by omega), if_neg (by omega), add_zero]
  · obtain ⟨hq, hr⟩ : m / 2 ^ k = -1 ∧ m % 2 ^ k = m + 2 ^ k := by
      rw [Int.ediv_emod_unique (by positivity)]
      lia
    rw [hq, hr]
    rcases eq_or_ne (ir &&& 0o4) 0 with hir | hir
    · rw [if_pos (.inr ⟨hir, hm, by omega⟩)]
      rfl
    · rw [if_pos (.inl ⟨hir, by omega⟩)]
      rfl

/-- A word of 36 bits that is shifted to the right with its sign. -/
lemma fixShift_spec {ar : ℕ} (har : (ar : ℤ) = m + if m < 0 then 2 ^ 36 else 0) (hm : -2 ^ 27 ≤ m) (hm' : m < 2 ^ 27)
    (hk : 1 ≤ k) (hk' : k ≤ 27) : ((fixShift ar k).1 : ℤ) = m / 2 ^ k + (if m < 0 then 2 ^ 36 else 0) ∧
      (fixShift ar k).2 = (m % 2 ^ k).toNat * 2 ^ (36 - k) := by
  have hsplit : (2 : ℕ) ^ 36 = 2 ^ k * 2 ^ (36 - k) := by
    rw [← pow_add]
    congr 1
    omega
  have hsplitz : (2 : ℤ) ^ 36 = 2 ^ k * 2 ^ (36 - k) := by exact_mod_cast hsplit
  have hpos : 0 < 2 ^ k := Nat.two_pow_pos k
  have hmod : (m % 2 ^ k).toNat = ar % 2 ^ k := by
    have hcast : ((ar % 2 ^ k : ℕ) : ℤ) = m % 2 ^ k := by
      push_cast
      rw [har]
      split
      · rw [hsplitz, Int.add_mul_emod_self_left]
      · rw [add_zero]
    lia
  have hdiv : ((ar / 2 ^ k : ℕ) : ℤ) = m / 2 ^ k + if m < 0 then 2 ^ (36 - k) else 0 := by
    push_cast
    rw [har]
    split
    · rw [hsplitz, Int.add_mul_ediv_left _ _ (by positivity)]
    · rw [add_zero, add_zero]
  rw [fixShift, if_neg (by omega)]
  refine ⟨?_, ?_⟩
  · dsimp only
    rcases le_or_gt 0 m with hpos | hneg
    · rw [if_neg (by omega)] at har hdiv
      rw [if_neg (by rw [and_smask]; lia), if_neg (by omega), Nat.and_zero, Nat.or_zero, Nat.shiftRight_eq_div_pow, hdiv]
    · -- the bits of the sign are all set from bit `27 - k` up
      rw [if_pos hneg] at har hdiv
      have hhigh : fmask &&& fmask <<< (27 - k) = (2 ^ (9 + k) - 1) <<< (27 - k) := by
        have hdrop : fmask >>> (27 - k) = 2 ^ (9 + k) - 1 := by
          rw [Nat.shiftRight_eq_div_pow, show fmask = 2 ^ 36 - 1 from rfl]
          refine Nat.div_eq_of_lt_le ?_ ?_
          · rw [Nat.sub_mul, ← pow_add, show 9 + k + (27 - k) = 36 by omega]
            have hone : 0 < 2 ^ (27 - k) := Nat.two_pow_pos _
            lia
          · rw [Nat.sub_add_cancel (Nat.two_pow_pos _), ← pow_add, show 9 + k + (27 - k) = 36 by omega]
            omega
        have hsmall : 2 ^ (9 + k) - 1 < 2 ^ 36 := by
          have hle : 2 ^ (9 + k) ≤ 2 ^ 36 := Nat.pow_le_pow_right (by decide) (by omega)
          omega
        rw [Word.and_shiftLeft, hdrop, show fmask = 2 ^ 36 - 1 from rfl, Nat.and_two_pow_sub_one_eq_mod, Nat.mod_eq_of_lt hsmall]
      have hlow : ((2 ^ 9 - 1 : ℕ) : ℤ) * 2 ^ (27 - k) ≤ (ar / 2 ^ k : ℕ) ∧ (ar / 2 ^ k : ℕ) < (2 ^ 9 : ℤ) * 2 ^ (27 - k) := by
        have h36 : (2 : ℤ) ^ (36 - k) = 2 ^ 9 * 2 ^ (27 - k) := by
          rw [← pow_add]
          congr 1
          lia
        have h27 : (2 : ℤ) ^ 27 = 2 ^ (27 - k) * 2 ^ k := by
          rw [← pow_add]
          congr 1
          lia
        have hge : -2 ^ (27 - k) ≤ m / 2 ^ k := by
          rw [Int.le_ediv_iff_mul_le (by positivity), neg_mul, ← h27]
          exact hm
        have hlt : m / 2 ^ k < 0 := Int.ediv_neg_of_neg_of_pos hneg (by positivity)
        rw [hdiv, h36]
        push_cast
        constructor <;> linarith
      obtain ⟨l, hl, hl'⟩ : ∃ l < 2 ^ (27 - k), ar / 2 ^ k = (2 ^ 9 - 1) * 2 ^ (27 - k) + l := by
        refine ⟨ar / 2 ^ k - (2 ^ 9 - 1) * 2 ^ (27 - k), ?_, ?_⟩
        · have hl := hlow.2
          have hpos : 0 < 2 ^ (27 - k) := Nat.two_pow_pos _
          zify at hpos
          push_cast at hlow
          zify [show (2 ^ 9 - 1) * 2 ^ (27 - k) ≤ ar / 2 ^ k by zify; exact_mod_cast hlow.1]
          push_cast
          linarith
        · refine (Nat.add_sub_cancel' ?_).symm
          zify
          exact_mod_cast hlow.1
      have hones : 2 ^ 9 - 1 ||| 2 ^ (9 + k) - 1 = 2 ^ (9 + k) - 1 := by
        refine Nat.eq_of_testBit_eq fun i ↦ ?_
        rw [Nat.testBit_or, Nat.testBit_two_pow_sub_one, Nat.testBit_two_pow_sub_one]
        by_cases hi : i < 9
        · rw [decide_eq_true hi, decide_eq_true (by lia), Bool.or_self]
        · rw [decide_eq_false hi, Bool.false_or]
      have hor : ar >>> k ||| (2 ^ (9 + k) - 1) <<< (27 - k) = (2 ^ (9 + k) - 1) * 2 ^ (27 - k) + l := by
        rw [Nat.shiftRight_eq_div_pow, hl', ← Word.shiftLeft_or_eq hl, Nat.or_right_comm, ← Nat.shiftLeft_or_distrib, hones,
          Word.shiftLeft_or_eq hl]
      rw [if_pos (by rw [and_smask]; lia), if_pos hneg, hhigh, hor]
      have h36 : (2 : ℤ) ^ (9 + k) * 2 ^ (27 - k) = 2 ^ 36 := by
        rw [← pow_add]
        congr 1
        lia
      have hk36 : (2 : ℤ) ^ (36 - k) = 2 ^ 9 * 2 ^ (27 - k) := by
        rw [← pow_add]
        congr 1
        lia
      have hone : 1 ≤ 2 ^ (9 + k) := Nat.one_le_two_pow
      rw [hl', hk36] at hdiv
      push_cast [Nat.cast_sub hone] at hdiv ⊢
      linarith
  · dsimp only
    rw [hmod, and_fmask, Nat.shiftLeft_eq, hsplit, Nat.mul_mod_mul_right]

end Integers

section Words

variable {ir : ℕ} (n : Number)

lemma fixCount_word : fixCount n.word = if n.e < 155 then (n.e : ℤ) + 357 else n.e - 155 := by
  have he := n.e_lt
  rw [fixCount, Number.getExpo_word]
  split <;> omega

lemma smearSign_word : (smearSign n.word : ℤ) = n.m + if n.m < 0 then 2 ^ 36 else 0 := by
  have hiff := n.word_lt_iff
  rw [smearSign_eq n.word_lt, Number.mantissa_word]
  split <;> split <;> lia

/-- A number below 2³⁵ has an exponent that is not too large. -/
lemma exponent_lt (h : |n.value| < 2 ^ 35) : n.e < 164 := by
  by_contra hge
  have hz : (2 : ℚ) ^ 35 ≤ |n.value| := by
    rw [Number.value, abs_mul, abs_of_pos (by positivity : (0 : ℚ) < 2 ^ (n.e - 155 : ℤ))]
    have hm : (2 : ℚ) ^ 26 ≤ |(n.m : ℚ)| := by exact_mod_cast n.low
    have he : (2 : ℚ) ^ (9 : ℤ) ≤ 2 ^ (n.e - 155 : ℤ) := zpow_le_zpow_right₀ (by norm_num) (by omega)
    calc (2 : ℚ) ^ 35 = 2 ^ 26 * 2 ^ (9 : ℤ) := by norm_num
      _ ≤ _ := mul_le_mul hm he (by positivity) (abs_nonneg _)
  linarith

/-- **`FIX` and `FIXR` give the integer part and the rounded number.** -/
theorem fixWord_word (h : |n.value| < 2 ^ 35) : fixWord ir n.word = some ((fixed ir n.value % 2 ^ 36).toNat) := by
  have he := exponent_lt n h
  have hcount := fixCount_word n
  have hsmear := smearSign_word n
  have hrange := n.m_range
  rw [fixWord]
  rcases Nat.lt_or_ge n.e 155 with hlt | hge
  · -- a shift to the right
    obtain ⟨k, hk⟩ : ∃ k, n.e + k = 155 := ⟨155 - n.e, by omega⟩
    have hvalue : n.value = n.m / 2 ^ k := by
      rw [Number.value, show (n.e - 155 : ℤ) = -(k : ℤ) by omega, zpow_neg, zpow_natCast, div_eq_mul_inv]
    rw [if_pos hlt] at hcount
    have hright : (0o1000 - fixCount n.word).toNat = k := by lia
    have hbit : scBit (fixCount n.word) 8 = true := by
      rw [scBit, decide_eq_true_eq]
      lia
    dsimp only
    rw [if_neg (by lia), if_pos hbit, hright, hvalue]
    rcases Nat.lt_or_ge 27 k with hfar | hnear
    · have hpow : (2 : ℤ) ^ 28 ≤ 2 ^ k := pow_le_pow_right₀ (by norm_num) (by lia)
      rw [fixShift, if_pos hfar, fixed_small ir (by lia) (by lia), if_neg (by simp)]
      rfl
    · obtain ⟨har, hmq⟩ := fixShift_spec (k := k) hsmear (by lia) (by lia) (by lia) hnear
      have hposk : (0 : ℤ) < 2 ^ k := by positivity
      have hmod := Int.emod_nonneg n.m hposk.ne'
      have hmod' := Int.emod_lt_of_pos n.m hposk
      have hquot : -2 ^ 27 ≤ n.m / 2 ^ k ∧ n.m / 2 ^ k < 2 ^ 27 := by
        rw [Int.le_ediv_iff_mul_le hposk, Int.ediv_lt_iff_lt_mul hposk]
        constructor <;> lia
      have hsign : n.m / 2 ^ k < 0 ↔ n.m < 0 := by
        constructor
        · intro hneg
          by_contra hpos
          exact absurd (Int.ediv_nonneg (not_lt.mp hpos) hposk.le) (not_le.mpr hneg)
        · exact fun hneg ↦ Int.ediv_neg_of_neg_of_pos hneg hposk
      have hsmask : (fixShift (smearSign n.word) k).1 &&& smask ≠ 0 ↔ n.m < 0 := by
        rw [and_smask]
        split at har <;> lia
      have hzero : (fixShift (smearSign n.word) k).2 ≠ 0 ↔ n.m % 2 ^ k ≠ 0 := by
        rw [hmq, ne_eq, Nat.mul_eq_zero, not_or, and_iff_left (by positivity)]
        lia
      have hhalf : (fixShift (smearSign n.word) k).2 &&& smask ≠ 0 ↔ 2 ^ k ≤ 2 * (n.m % 2 ^ k) := by
        have h35 : 2 ^ 35 = 2 ^ (k - 1) * 2 ^ (36 - k) := by
          rw [← pow_add]
          congr 1
          lia
        have hsplit : (2 : ℤ) ^ k = 2 ^ (k - 1) * 2 := by
          rw [← pow_succ]
          congr 1
          lia
        have hq : (n.m % 2 ^ k).toNat / 2 ^ (k - 1) < 2 := by
          rw [Nat.div_lt_iff_lt_mul (by positivity)]
          zify
          lia
        rw [hmq, and_smask, h35, Nat.mul_div_mul_right _ _ (by positivity), Nat.mod_eq_of_lt hq]
        have hone : (n.m % 2 ^ k).toNat / 2 ^ (k - 1) = 1 ↔ 1 ≤ (n.m % 2 ^ k).toNat / 2 ^ (k - 1) := by lia
        rw [hone, Nat.one_le_div_iff (by positivity)]
        zify
        lia
      rw [fixed_div]
      simp only [hsmask, hzero, hhalf]
      congr 1
      rw [and_fmask]
      split <;> split at har <;> lia
  · -- a shift to the left
    obtain ⟨k, hk⟩ : ∃ k, n.e = 155 + k := ⟨n.e - 155, by omega⟩
    have hvalue : n.value = ((n.m * 2 ^ k : ℤ) : ℚ) := by
      rw [Number.value, show (n.e - 155 : ℤ) = (k : ℤ) by omega, zpow_natCast]
      push_cast
      rfl
    rw [if_neg (by omega)] at hcount
    dsimp only
    rw [if_pos (by omega), hvalue, fixed_int, and_fmask, Nat.shiftLeft_eq]
    congr 1
    have hk8 : (fixCount n.word).toNat = k := by lia
    zify
    rw [hk8, hsmear, Int.toNat_of_nonneg (Int.emod_nonneg _ (by norm_num))]
    split
    · rw [add_mul, mul_comm ((2 : ℤ) ^ 36), Int.add_mul_emod_self_right]
    · rw [add_zero]

end Words

/-! ### Integers to floating point -/

section Fltr

variable {c : Build} {piCycle : Bool} {ac : ℕ} {s : Cpu} {n : BitVec 36}

/-- The integer is put into the fraction with its sign. -/
lemma toInt_fltrAr (n : BitVec 36) : (fltrAr n.toNat).toInt = n.toInt * 2 ^ 27 ∧
    (BitVec.ofNat 64 n.toNat <<< 27 &&& fpsbit ≠ 0 ↔ n.toInt < 0) := by
  have hlt := n.isLt
  have hnat : (BitVec.ofNat 64 n.toNat <<< 27).toNat = n.toNat * 2 ^ 27 := by
    rw [BitVec.toNat_shiftLeft, BitVec.toNat_ofNat, Nat.shiftLeft_eq]
    omega
  have hint : (BitVec.ofNat 64 n.toNat <<< 27).toInt = n.toNat * 2 ^ 27 := by
    rw [BitVec.toInt_eq_toNat_cond, hnat, if_pos (by omega)]
    push_cast
    rfl
  have hbit := fpsbit_iff (BitVec.ofNat 64 n.toNat <<< 27)
  rw [hint] at hbit
  have hsign : BitVec.ofNat 64 n.toNat <<< 27 &&& fpsbit ≠ 0 ↔ n.toInt < 0 := by
    rw [hbit, BitVec.toInt_eq_toNat_cond]
    split_ifs <;> lia
  refine ⟨?_, hsign⟩
  rw [fltrAr]
  by_cases hneg : n.toInt < 0
  · have hor : (BitVec.ofNat 64 n.toNat <<< 27 ||| fphbit).toNat = 2 ^ 63 + n.toNat * 2 ^ 27 := by
      rw [BitVec.toNat_or, hnat, Nat.or_comm, show fphbit.toNat = 2 ^ 63 from rfl]
      exact Word.or_eq_add dvd_rfl (by omega)
    rw [if_pos (hsign.mpr hneg), BitVec.toInt_eq_toNat_cond, hor, if_neg (by omega)]
    rw [BitVec.toInt_eq_toNat_cond] at hneg ⊢
    split_ifs at hneg ⊢ <;> push_cast <;> lia
  · rw [if_neg (mt hsign.mp hneg), hint]
    rw [BitVec.toInt_eq_toNat_cond] at hneg ⊢
    split_ifs at hneg ⊢ <;> omega

/-- **An integer is shifted until it is normalized, and rounded.** -/
theorem fltr_spec (hc : c ≠ .pdp6) (hn : n.toInt ≠ 0) : ∃ b : ℤ, ∃ j : ℕ, ∃ r : Number,
    (2 ^ 60 ≤ b ∧ b < 2 ^ 61 ∨ -2 ^ 61 ≤ b ∧ b < -2 ^ 60) ∧ b = n.toInt * 2 ^ j ∧ 26 ≤ j ∧ j ≤ 62 ∧
    fltr c piCycle ac n.toNat s = s.setReg ac r.word ∧ r.value = fraction27 0o127 b * 2 ^ (34 - j : ℤ) := by
  obtain ⟨har, hsign⟩ := toInt_fltrAr n
  have hrange : -2 ^ 35 ≤ n.toInt ∧ n.toInt < 2 ^ 35 := ⟨BitVec.le_toInt n, BitVec.toInt_lt⟩
  have htaken : ∃ i : ℕ, (i = 27 ∨ i = 26) ∧ taken (fltrAr n.toNat).toInt = n.toInt * 2 ^ i ∧
      takenSc (fltrAr n.toNat).toInt 162 = 189 - i := by
    rw [taken, takenSc, har]
    by_cases hin : -2 ^ 61 ≤ n.toInt * 2 ^ 27 ∧ n.toInt * 2 ^ 27 < 2 ^ 61
    · rw [if_pos hin, if_pos hin]
      exact ⟨27, .inl rfl, by omega, by norm_num⟩
    · rw [if_neg hin, if_neg hin]
      exact ⟨26, .inr rfl, by omega, by norm_num⟩
  obtain ⟨i, hi, htaken, htakenSc⟩ := htaken
  obtain ⟨t, b, hnorm, r, sc, hcarried, he, hword, hflags⟩ := @fnorm_spec c 0o127 (⟨fltrAr n.toNat, 162, 0⟩) piCycle
    (decide (BitVec.ofNat 64 n.toNat <<< 27 &&& fpsbit ≠ 0)) false s.flags hc (by decide) (by decide) (by decide)
    (by dsimp only; rw [har]; omega) (by dsimp only; rw [har]; omega) (by
      dsimp only
      rw [htaken]
      exact mul_ne_zero hn (by positivity)) (by
      dsimp only
      rw [decide_eq_true_eq, hsign, har]
      omega)
  dsimp only at hnorm hcarried hflags
  rw [htaken] at hnorm
  rw [htakenSc] at hcarried hflags
  have hb : b = n.toInt * 2 ^ (i + t) := by rw [hnorm.eq, mul_assoc, pow_add]
  have hbound : i + t ≤ 61 := by
    by_contra hgt
    have hpow : (2 : ℤ) ^ 62 ≤ 2 ^ (i + t) := pow_le_pow_right₀ (by norm_num) (by lia)
    have hbr := hnorm.range
    rcases lt_or_gt_of_ne hn with hneg | hpos
    · have hle : n.toInt * 2 ^ (i + t) ≤ -1 * 2 ^ 62 := by nlinarith
      omega
    · have hle : 1 * 2 ^ 62 ≤ n.toInt * 2 ^ (i + t) := by nlinarith
      omega
  have hsc : sc = r.e := by
    have heq := hcarried.eq
    lia
  refine ⟨b, i + t, r, hnorm.range, hb, by lia, by lia, ?_, ?_⟩
  · have hzero : scBit sc 8 = false := by
      have heq := hcarried.eq
      rw [scBit, decide_eq_false_iff_not]
      lia
    have hlow : r.word &&& fmask = r.word := by
      rw [and_fmask]
      exact Nat.mod_eq_of_lt r.word_lt
    rw [fltr, hword, hflags, hlow, expFlags, if_neg (by rw [hzero]; simp)]
    rfl
  · rw [hcarried.value_eq hsc]
    congr 2
    push_cast
    ring

lemma fltr_zero (hn : n.toInt = 0) : fltr c piCycle ac n.toNat s = s.setReg ac 0 := by
  have hnat : n.toNat = 0 := by
    rw [BitVec.toInt_eq_toNat_cond] at hn
    split at hn <;> omega
  have hnorm (flag1 : Bool) := @fnorm_zero c 0o127 (⟨fltrAr 0, 162, 0⟩) piCycle flag1 false s.flags (by decide)
  rw [hnat, fltr, (hnorm _).1, (hnorm _).2]
  rfl

/-- An integer that does not need more than 27 bits is not rounded. -/
lemma fraction27_exact {b : ℤ} {i k : ℕ} {j : ℤ} (h : 2 ^ 60 ≤ b ∧ b < 2 ^ 61 ∨ -2 ^ 61 ≤ b ∧ b < -2 ^ 60)
    (hb : b = n.toInt * 2 ^ i) (hj : |j| < 2 ^ 27) (hn : n.toInt = j * 2 ^ k) (ir : ℕ) :
    (fraction27 ir b : ℚ) * 2 ^ (34 - i : ℤ) = n.toInt := by
  obtain ⟨hlow, hhigh⟩ := abs_lt.mp hj
  have heq : b = j * 2 ^ (k + i) := by rw [hb, hn, mul_assoc, ← pow_add]
  have hpow : 34 ≤ k + i := by
    by_contra hlt
    have hle : (2 : ℤ) ^ (k + i) ≤ 2 ^ 33 := pow_le_pow_right₀ (by norm_num) (by omega)
    have hpos : (0 : ℤ) < 2 ^ (k + i) := by positivity
    rcases h with h | h <;> nlinarith
  obtain ⟨d, hd⟩ : ∃ d, k + i = 34 + d := ⟨k + i - 34, by omega⟩
  have hmul : b = 2 ^ 34 * (j * 2 ^ d) := by
    rw [heq, hd, pow_add]
    ring
  have hfrac : fraction27 ir b = j * 2 ^ d := by
    rw [fraction27, if_neg (fun hup ↦ by have hbit := hup.2.2.1; lia), hmul, Int.mul_ediv_cancel_left _ (by norm_num), add_zero]
  have hz : (b : ℚ) = n.toInt * 2 ^ i := by exact_mod_cast hb
  have hbq : (b : ℚ) = 2 ^ 34 * (j * 2 ^ d : ℤ) := by exact_mod_cast hmul
  rw [hfrac, zpow_sub₀ (by norm_num), zpow_natCast, ← mul_div_assoc, div_eq_iff (by positivity), ← hz, hbq]
  norm_num [mul_comm]

end Fltr

/-! ### The conversions -/

section Conversions

variable {c : Build} {piCycle : Bool} {ac : ℕ} {s : Cpu}

/-- An integer is stored if it fits into a word, and if not `OVR` is set. -/
def Fixed (s t : Cpu) (ac : ℕ) (v : ℤ) : Prop :=
  if -2 ^ 35 ≤ v ∧ v < 2 ^ 35 then t = s.setReg ac (v % 2 ^ 36).toNat else t.mem = s.mem ∧ t.flags &&& ovr ≠ 0

/-- What is asked of the conversions, of a floating point word `x` and of an integer `n`. -/
structure Converts (c : Build) (piCycle : Bool) (ac : ℕ) (s : Cpu) (x n : BitVec 36) : Prop where
  fixes : Normalized x.toNat → |value x.toNat| < 2 ^ 35 →
    Fixed s (fix c 0o122 piCycle ac x.toNat s) ac (trunc (value x.toNat))
  rounds : Normalized x.toNat → |value x.toNat| < 2 ^ 35 →
    Fixed s (fix c 0o126 piCycle ac x.toNat s) ac ⌊value x.toNat + 1 / 2⌋
  normalized : Normalized ((fltr c piCycle ac n.toNat s).mem (ac % 16))
  nearest : Floating.Nearest numbers n.toInt (value ((fltr c piCycle ac n.toNat s).mem (ac % 16)))
  exact : ∀ j : ℤ, ∀ k : ℕ, |j| < 2 ^ 27 → n.toInt = j * 2 ^ k → value ((fltr c piCycle ac n.toNat s).mem (ac % 16)) = n.toInt
  back : |n.toInt| < 2 ^ 27 →
    (fix c 0o122 piCycle ac ((fltr c piCycle ac n.toNat s).mem (ac % 16)) s).mem (ac % 16) = n.toNat

lemma fixed_range (n : Number) (ir : ℕ) (h : |n.value| < 2 ^ 35) : -2 ^ 35 ≤ fixed ir n.value ∧ fixed ir n.value < 2 ^ 35 := by
  have hle : |n.value| ≤ 2 ^ 35 - 1 := by
    have he := exponent_lt n h
    have hm : |(n.m : ℚ)| ≤ 2 ^ 27 - 1 := by
      have hz : |n.m| ≤ 2 ^ 27 - 1 := by
        have hhigh := n.high
        omega
      exact_mod_cast hz
    have hpow : (2 : ℚ) ^ (n.e - 155 : ℤ) ≤ 2 ^ (8 : ℤ) := zpow_le_zpow_right₀ (by norm_num) (by omega)
    rw [Number.value, abs_mul, abs_of_pos (by positivity : (0 : ℚ) < 2 ^ (n.e - 155 : ℤ))]
    calc |(n.m : ℚ)| * 2 ^ (n.e - 155 : ℤ) ≤ (2 ^ 27 - 1) * 2 ^ (8 : ℤ) :=
          mul_le_mul hm hpow (by positivity) (by norm_num)
      _ ≤ _ := by norm_num
  obtain ⟨hlow, hhigh⟩ := abs_le.mp hle
  rw [fixed, trunc]
  split_ifs
  · rw [Int.le_floor, Int.floor_lt]
    push_cast
    constructor <;> linarith
  · rw [Int.le_floor, Int.floor_lt]
    push_cast
    constructor <;> linarith
  · constructor
    · have hlt := Int.le_ceil n.value
      have hq : ((-2 ^ 35 : ℤ) : ℚ) ≤ ⌈n.value⌉ := by
        push_cast
        linarith
      exact_mod_cast hq
    · have hlt := Int.ceil_lt_add_one n.value
      have hq : (⌈n.value⌉ : ℚ) < (2 ^ 35 : ℤ) := by
        push_cast
        linarith
      exact_mod_cast hq

lemma fix_of_some {ir mb v : ℕ} (h : fixWord ir mb = some v) : fix c ir piCycle ac mb s = s.setReg ac v := by
  rw [fix, h, fixStore]

/-- `FIX` and `FIXR` are right for all normalized words below 2³⁵. -/
lemma fix_fixed (ir : ℕ) (x : BitVec 36) (hx : Normalized x.toNat) (h : |value x.toNat| < 2 ^ 35) :
    Fixed s (fix c ir piCycle ac x.toNat s) ac (fixed ir (value x.toNat)) := by
  rcases eq_or_ne x.toNat 0 with h0 | hne
  · have hword : fixWord ir 0 = some 0 := by
      rw [fixWord]
      simp only [show fixCount 0 = 357 from rfl, show smearSign 0 = 0 from rfl, fixShift]
      norm_num [scBit]
    have hzero : fixed ir 0 = 0 := by
      have hint := fixed_int ir 0
      rwa [Int.cast_zero] at hint
    rw [h0, value_zero, hzero, Fixed, if_pos (by norm_num), fix_of_some hword]
    rfl
  · obtain ⟨n, hn⟩ := Number.of_normalized x.isLt hx hne
    rw [← hn, Number.value_word] at h ⊢
    rw [Fixed, if_pos (fixed_range n ir h), fix_of_some (fixWord_word n h)]

lemma fixed_of_trunc (x : ℚ) : fixed 0o122 x = trunc x := if_neg (by decide)
lemma fixed_of_round (x : ℚ) : fixed 0o126 x = ⌊x + 1 / 2⌋ := if_pos (by decide)

/-- The word of `FLTR`. -/
lemma fltr_word (hc : c ≠ .pdp6) (n : BitVec 36) : ((fltr c piCycle ac n.toNat s).mem (ac % 16)) < 2 ^ 36 ∧
    Normalized ((fltr c piCycle ac n.toNat s).mem (ac % 16)) ∧
    (∀ j : ℤ, ∀ k : ℕ, |j| < 2 ^ 27 → n.toInt = j * 2 ^ k → value ((fltr c piCycle ac n.toNat s).mem (ac % 16)) = n.toInt) ∧
    (Floating.Nearest numbers n.toInt (value ((fltr c piCycle ac n.toNat s).mem (ac % 16))) ↔ ¬ Slips n.toInt) := by
  by_cases hn : n.toInt = 0
  · rw [fltr_zero hn, mem_setReg, value_zero, hn]
    refine ⟨by norm_num, .inl rfl, fun _ _ _ _ ↦ rfl, iff_of_true (Floating.nearest_self zero_mem_numbers) ?_⟩
    rintro ⟨k, hlow, -⟩
    have hpos : (0 : ℚ) < (2 ^ 27 - 1) * 2 ^ k := by positivity
    norm_num at hlow
    linarith
  · obtain ⟨b, j, r, hb, hbj, hj, hj', hfltr, hvalue⟩ := @fltr_spec _ piCycle ac s _ hc hn
    rw [hfltr, mem_setReg, Number.value_word, hvalue]
    refine ⟨r.word_lt, r.normalized, fun i k hi hk ↦ fraction27_exact hb hbj hi hk _, ?_⟩
    have hx : (n.toInt : ℚ) = b * 2 ^ ((34 - j : ℤ) - 34) := by
      rw [show (34 - j : ℤ) - 34 = -(j : ℤ) by ring, zpow_neg, zpow_natCast, hbj]
      push_cast
      field_simp
    rw [hx]
    exact nearest_iff (by decide) hb (by omega) (by omega)

/-- An integer of 27 bits comes back. -/
lemma fix_fltr (hc : c ≠ .pdp6) (n : BitVec 36) (h : |n.toInt| < 2 ^ 27) :
    (fix c 0o122 piCycle ac ((fltr c piCycle ac n.toNat s).mem (ac % 16)) s).mem (ac % 16) = n.toNat := by
  obtain ⟨hlt, hnormal, hexact, -⟩ := @fltr_word _ piCycle ac s hc n
  generalize (fltr c piCycle ac n.toNat s).mem (ac % 16) = w at hlt hnormal hexact ⊢
  have hvalue := hexact n.toInt 0 h (by rw [pow_zero, mul_one])
  have hfixed := @fix_fixed c piCycle ac s 0o122 (BitVec.ofNat 36 w)
  rw [BitVec.toNat_ofNat, Nat.mod_eq_of_lt hlt, hvalue, fixed_int, Fixed] at hfixed
  obtain ⟨hlow, hhigh⟩ := abs_lt.mp h
  have hsmall : |(n.toInt : ℚ)| < 2 ^ 35 := by
    have hz : |n.toInt| < 2 ^ 35 := by
      rw [abs_lt]
      omega
    exact_mod_cast hz
  have hfix := hfixed hnormal hsmall
  rw [if_pos (by omega)] at hfix
  rw [hfix, mem_setReg]
  have hn := n.isLt
  rw [BitVec.toInt_eq_toNat_cond] at hlow hhigh ⊢
  split_ifs at hlow hhigh ⊢ <;> lia

/-- **The conversions are right exactly for the integers that do not slip.** -/
theorem converts_iff (hc : c = .ki ∨ c = .kl ∨ c = .ks) (x n : BitVec 36) : Converts c piCycle ac s x n ↔ ¬ Slips n.toInt := by
  have hpdp6 : c ≠ .pdp6 := by
    rintro rfl
    simp at hc
  obtain ⟨-, hnormal, hexact, hnearest⟩ := @fltr_word _ piCycle ac s hpdp6 n
  constructor
  · exact fun h ↦ hnearest.mp h.nearest
  · intro h
    refine ⟨fun hx hlt ↦ ?_, fun hx hlt ↦ ?_, hnormal, hnearest.mpr h, hexact, fix_fltr hpdp6 n⟩
    · rw [← fixed_of_trunc]
      exact fix_fixed 0o122 x hx hlt
    · rw [← fixed_of_round]
      exact fix_fixed 0o126 x hx hlt

/-- One on a KL10. -/
theorem converts_one : Converts .kl false 0 ⟨fun _ ↦ 0, 0⟩ 1 1 := by
  refine (converts_iff (.inr (.inl rfl)) 1 1).mpr ?_
  rintro ⟨k, hlow, -⟩
  have hpos : (0 : ℚ) < (2 ^ 27 - 1) * 2 ^ k := by positivity
  have hone : ((1 : BitVec 36).toInt : ℚ) = 1 := rfl
  rw [hone] at hlow
  linarith

/-- An integer that slips. -/
theorem converts_slips : ¬ ∀ x n, Converts .kl false 0 ⟨fun _ ↦ 0, 0⟩ x n := fun h ↦ by
  have hnearest := (@fltr_word .kl false 0 (⟨fun _ ↦ 0, 0⟩) (by decide) (-536870909)).2.2.2
  refine hnearest.mp (h 0 (-536870909)).nearest ⟨2, ?_⟩
  have hint : (((-536870909 : BitVec 36).toInt : ℤ) : ℚ) = -536870909 := by
    rw [show (-536870909 : BitVec 36).toInt = -536870909 by decide]
    norm_num
  rw [hint]
  norm_num

end Conversions

end Ka10Simh.Pdp10.Fp
