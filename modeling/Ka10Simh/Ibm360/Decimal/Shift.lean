import Ka10Simh.Ibm360.Decimal.Packed

/-!
Shift and Round Decimal.

The loops use the length of the operand in bytes for the number of its digits, and a shift to the left moves the lowest
digits to the end of these places.

* `decSrp`: the source.
* `shifted_zero`, `shifted_left`, `shifted_right`: what each of the loops makes of the digits.
* `SrpRight`: what the instruction has to do.
* `decSrp_iff`: when it does.
* `shift_wrong`: a shift to the left by one digit.
-/

namespace Ka10Simh.Ibm360

open Numeral

/-! ### The source -/

/-- The digits of a shift, whether they are zero, and whether some are lost. -/
structure Shifted where
  a : ℕ → ℕ
  zero : Bool
  ov : Bool

/-- Now shift digits: from `j` down into the places from `i` down. -/
def leftLoop : ℕ → ℕ → (ℕ → ℕ) → Bool → ℕ × (ℕ → ℕ) × Bool
  | 0, i, a, zero => (i, a, zero)
  | j + 1, i, a, zero => leftLoop j (i - 1) (Function.update a i (a (j + 1))) (zero && a (j + 1) == 0)

/-- Now fill zeros until at bottom. -/
def clearLoop : ℕ → (ℕ → ℕ) → ℕ → ℕ
  | 0, a => a
  | i + 1, a => clearLoop i (Function.update a (i + 1) 0)

/-- Shift to right. The array has 32 digits: there is no result when another one is read. The digits that the loop
reads are not behind `len1`. -/
def shiftRight (len1 shift len2 : ℕ) (a : ℕ → ℕ) : Option Shifted :=
  if shift < 32 then
    let cy := if a shift + len2 > 0x9 then 1 else 0
    let p := pass (fun a i ↦ if i + shift > len1 then 0 else a (i + shift)) (len1 - 1) 1 ⟨a, cy, true⟩
    some ⟨p.a, p.zero, false⟩
  else none

/-- Shift to left. -/
def shiftLeft (len1 shift : ℕ) (a : ℕ → ℕ) : Shifted :=
  let ov := (List.range (len1 + 1)).any fun j ↦ shift + 1 ≤ j && a j ≠ 0
  let j := if len1 > shift then shift else len1
  let (i, a, zero) := leftLoop j len1 a true
  ⟨clearLoop i a, zero, ov⟩

/-- The digits that are shifted by `addr2`. -/
def shiftDigits (len1 addr2 len2 : ℕ) (a : ℕ → ℕ) : Option Shifted :=
  let shift := addr2 &&& 0x3f
  if shift &&& 0x20 ≠ 0 then shiftRight len1 (64 - shift) len2 a
  else if shift ≠ 0 then some (shiftLeft len1 shift a)
  else some ⟨a, (List.range len1).all fun i ↦ i = 0 || a i = 0, false⟩

/-- The end of `dec_srp`. -/
def Access.srpStore (c : Access) (ascii decovr : Bool) (addr1 len1 : ℕ) (sa : Bool) (r : Shifted) : Op (Option Decimal) := do
  let sa := if r.zero && !r.ov then false else sa
  let cc := if r.zero then 0 else if sa then 1 else 2
  c.decStore ascii r.a addr1 len1 sa
  return some ⟨if r.ov then 3 else cc, if r.ov && decovr then some ircDecovr else none⟩

/-- `dec_srp`. There is no result when a digit outside of the array is read. -/
def Access.decSrp (c : Access) (ascii decovr : Bool) (addr1 len1 addr2 len2 : ℕ) : Op (Option Decimal) := do
  let (a, sa) ← c.decLoad addr1 len1
  match shiftDigits len1 addr2 len2 a with
  | none => return none
  | some r => c.srpStore ascii decovr addr1 len1 sa r

/-! ### The loops -/

variable {len1 len2 shift i j k m x : ℕ} {a : ℕ → ℕ}

lemma leftLoop_spec (h : j ≤ i) (a : ℕ → ℕ) (zero : Bool) :
    (leftLoop j i a zero).1 = i - j ∧
      (∀ q, 1 ≤ q → q ≤ j → (leftLoop j i a zero).2.1 (i - j + q) = a q) ∧
      (∀ q, q ≤ i - j ∨ i < q → (leftLoop j i a zero).2.1 q = a q) ∧
      ((leftLoop j i a zero).2.2 = true ↔ zero = true ∧ ∀ q, 1 ≤ q → q ≤ j → a q = 0) := by
  induction j generalizing i a zero with
  | zero => exact ⟨rfl, fun q hq hq' ↦ by omega, fun q _ ↦ rfl, ⟨fun h ↦ ⟨h, fun q hq hq' ↦ by omega⟩, And.left⟩⟩
  | succ j ih =>
      obtain ⟨hi, hnew, hold, hzero⟩ := ih (i := i - 1) (by omega) (Function.update a i (a (j + 1))) (zero && a (j + 1) == 0)
      have hsame (q : ℕ) (hq : q ≠ i) : Function.update a i (a (j + 1)) q = a q := Function.update_of_ne hq ..
      rw [leftLoop]
      refine ⟨by rw [hi]; lia, fun q hq hq' ↦ ?_, fun q hq ↦ ?_, ?_⟩
      · rcases Nat.lt_or_ge j q with hlt | hle
        · obtain rfl : q = j + 1 := by omega
          rw [hold _ (by omega), Nat.sub_add_cancel h, Function.update_self]
        · rw [show i - (j + 1) + q = i - 1 - j + q by lia, hnew q hq hle]
          exact hsame q (by omega)
      · rw [hold q (by lia)]
        exact hsame q (by omega)
      · rw [hzero, Bool.and_eq_true, beq_iff_eq]
        constructor
        · rintro ⟨⟨hz, htop⟩, hrest⟩
          refine ⟨hz, fun q hq hq' ↦ ?_⟩
          rcases Nat.lt_or_ge j q with hlt | hle
          · obtain rfl : q = j + 1 := by omega
            exact htop
          · rw [← hsame q (by omega)]
            exact hrest q hq hle
        · rintro ⟨hz, hall⟩
          refine ⟨⟨hz, hall (j + 1) (by omega) le_rfl⟩, fun q hq hq' ↦ ?_⟩
          rw [hsame q (by omega)]
          exact hall q hq (by omega)

lemma clearLoop_spec (i : ℕ) (a : ℕ → ℕ) : (∀ q, 1 ≤ q → q ≤ i → clearLoop i a q = 0) ∧
    ∀ q, q = 0 ∨ i < q → clearLoop i a q = a q := by
  induction i generalizing a with
  | zero => exact ⟨fun q hq hq' ↦ by omega, fun q _ ↦ rfl⟩
  | succ i ih =>
      obtain ⟨hnew, hold⟩ := ih (Function.update a (i + 1) 0)
      rw [clearLoop]
      refine ⟨fun q hq hq' ↦ ?_, fun q hq ↦ ?_⟩
      · rcases Nat.lt_or_ge i q with hlt | hle
        · obtain rfl : q = i + 1 := by omega
          rw [hold _ (.inr (by omega)), Function.update_self]
        · exact hnew q hq hle
      · rw [hold q (by omega)]
        exact Function.update_of_ne (by omega) ..

/-- What the digits of a shift are. -/
structure Shifted.Of (r : Shifted) (m v : ℕ) (zero ov : Prop) : Prop where
  digit : ∀ j < 2 * m + 1, r.a (j + 1) ≤ 9
  value : num 10 (2 * m + 1) (fun j ↦ r.a (j + 1)) = v
  zero : r.zero = true ↔ zero
  ov : r.ov = true ↔ ov

/-- The digits of a number. -/
structure DigitsOf (a : ℕ → ℕ) (m x : ℕ) : Prop where
  digit : ∀ j, a (j + 1) ≤ 9
  above : ∀ j, 2 * m + 1 ≤ j → a (j + 1) = 0
  value : num 10 (2 * m + 1) (fun j ↦ a (j + 1)) = x

lemma DigitsOf.low (h : DigitsOf a m x) {n : ℕ} (hn : n ≤ 2 * m + 1) : num 10 n (fun j ↦ a (j + 1)) = x % 10 ^ n := by
  obtain ⟨d, hd⟩ := Nat.exists_eq_add_of_le hn
  rw [← h.value, hd]
  exact (num_mod (fun j _ ↦ Nat.lt_succ_iff.mpr (h.digit j)) d).symm

lemma DigitsOf.high (h : DigitsOf a m x) {n : ℕ} (hn : n ≤ 2 * m + 1) :
    num 10 (2 * m + 1 - n) (fun j ↦ a (n + j + 1)) = x / 10 ^ n := by
  obtain ⟨d, hd⟩ := Nat.exists_eq_add_of_le hn
  rw [← h.value, hd, Nat.add_sub_cancel_left]
  exact (num_div (fun j _ ↦ Nat.lt_succ_iff.mpr (h.digit j)) d).symm

lemma DigitsOf.eq_zero (h : DigitsOf a m x) {n : ℕ} (hn : n ≤ 2 * m + 1) :
    x % 10 ^ n = 0 ↔ ∀ q, 1 ≤ q → q ≤ n → a q = 0 := by
  rw [← h.low hn, num_eq_zero (by norm_num)]
  constructor
  · intro hall q hq hq'
    have := hall (q - 1) (by omega)
    rwa [Nat.sub_add_cancel hq] at this
  · exact fun hall q hq ↦ hall (q + 1) (by omega) (by omega)

lemma DigitsOf.lt (h : DigitsOf a m x) : x < 10 ^ (2 * m + 1) := by
  rw [← h.value]
  exact num_lt fun j _ ↦ Nat.lt_succ_iff.mpr (h.digit j)

/-- A digit of the number. -/
lemma DigitsOf.nth (h : DigitsOf a m x) (hk : 1 ≤ k) : a k = x / 10 ^ (k - 1) % 10 := by
  rcases Nat.lt_or_ge (k - 1) (2 * m + 1) with hlt | hge
  · have hdigit := num_digit (b := 10) (n := 2 * m + 1) (f := fun j ↦ a (j + 1))
      (fun j _ ↦ Nat.lt_succ_iff.mpr (h.digit j)) hlt
    rw [h.value, Nat.sub_add_cancel hk] at hdigit
    exact hdigit.symm
  · have hzero := h.above (k - 1) hge
    rw [Nat.sub_add_cancel hk] at hzero
    rw [hzero, Nat.div_eq_of_lt (h.lt.trans_le (Nat.pow_le_pow_right (by norm_num) hge))]

/-- Nothing is shifted. -/
lemma shifted_zero (h : DigitsOf a m x) : Shifted.Of ⟨a, (List.range m).all fun i ↦ i = 0 || a i = 0, false⟩ m x
    (x % 10 ^ (m - 1) = 0) False := by
  refine ⟨fun j _ ↦ h.digit j, h.value, ?_, iff_of_false Bool.false_ne_true id⟩
  rw [h.eq_zero (by omega), List.all_eq_true]
  simp only [List.mem_range, Bool.or_eq_true, decide_eq_true_eq]
  constructor
  · exact fun hall q hq hq' ↦ (hall q (by omega)).resolve_left (by omega)
  · intro hall q hq
    rcases Nat.eq_zero_or_pos q with hq0 | hpos
    · exact .inl hq0
    · exact .inr (hall q hpos (by omega))

/-- **A shift to the left**: the lowest digits are moved to the end of the lower half. -/
lemma shifted_left (h : DigitsOf a m x) (k : ℕ) : (shiftLeft m k a).Of m
    (x / 10 ^ m * 10 ^ m + x % 10 ^ min m k * 10 ^ (m - min m k)) (x % 10 ^ min m k = 0) (10 ^ k ≤ x % 10 ^ m) := by
  have hj : (if m > k then k else m) = min m k := by
    split_ifs <;> lia
  obtain ⟨hi, hnew, hold, hzero⟩ := leftLoop_spec (j := min m k) (i := m) (by omega) a true
  obtain ⟨hclear, hkeep⟩ := clearLoop_spec (leftLoop (min m k) m a true).1 (leftLoop (min m k) m a true).2.1
  rw [shiftLeft, hj]
  rw [hi] at hclear hkeep
  generalize leftLoop (min m k) m a true = out at *
  obtain ⟨i, d, zero⟩ := out
  dsimp only at hi hnew hold hzero hclear hkeep ⊢
  subst hi
  have hplace (q : ℕ) (hq : 1 ≤ q) : clearLoop (m - min m k) d q =
      if q ≤ m - min m k then 0 else if q ≤ m then a (q - (m - min m k)) else a q := by
    split_ifs with hlow hmid
    · exact hclear q hq hlow
    · rw [hkeep q (.inr (by omega)), ← hnew (q - (m - min m k)) (by omega) (by omega), Nat.add_sub_cancel' (by omega)]
    · rw [hkeep q (.inr (by omega)), hold q (.inr (by omega))]
  refine ⟨fun j hj ↦ ?_, ?_, ?_, ?_⟩
  · dsimp only
    rw [hplace _ (by omega)]
    split_ifs
    · exact Nat.zero_le 9
    · rw [show j + 1 - (m - min m k) = j - (m - min m k) + 1 by lia]
      exact h.digit _
    · exact h.digit _
  · have hparts := num_add 10 m (m + 1) fun j ↦ clearLoop (m - min m k) d (j + 1)
    have hlow := num_add 10 (m - min m k) (min m k) fun j ↦ clearLoop (m - min m k) d (j + 1)
    rw [Nat.sub_add_cancel (by omega)] at hlow
    have hnone : num 10 (m - min m k) (fun j ↦ clearLoop (m - min m k) d (j + 1)) = 0 :=
      (num_eq_zero (by norm_num)).mpr fun j hj ↦ hclear _ (by omega) (by omega)
    have hmoved : num 10 (min m k) (fun j ↦ clearLoop (m - min m k) d (m - min m k + j + 1)) = x % 10 ^ min m k := by
      rw [← h.low (by omega)]
      refine num_congr fun j hj ↦ ?_
      rw [hplace _ (by lia), if_neg (by omega), if_pos (by omega)]
      congr 1
      lia
    have hhigh : num 10 (m + 1) (fun j ↦ clearLoop (m - min m k) d (m + j + 1)) = x / 10 ^ m := by
      rw [← h.high (by lia), show 2 * m + 1 - m = m + 1 by lia]
      refine num_congr fun j _ ↦ ?_
      rw [hplace _ (by lia), if_neg (by lia), if_neg (by omega)]
    rw [show 2 * m + 1 = m + (m + 1) by ring, hparts, hlow, hnone, hmoved, hhigh]
    ring
  · rw [hzero, h.eq_zero (by omega)]
    exact and_iff_right rfl
  · rcases Nat.lt_or_ge m k with hlt | hge
    · have hsmall : x % 10 ^ m < 10 ^ k :=
        (Nat.mod_lt _ (Nat.pow_pos (by norm_num))).trans_le (Nat.pow_le_pow_right (by norm_num) hlt.le)
      refine iff_of_false ?_ (by omega)
      rw [List.any_eq_true]
      rintro ⟨q, hq, hand⟩
      simp only [Bool.and_eq_true, decide_eq_true_eq, List.mem_range] at hq hand
      omega
    · have hany := any_iff (f := a) hge fun j _ ↦ by
        rw [add_comm]
        exact h.digit j
      rw [hany, ← h.low (by omega)]
      simp only [add_comm 1]

/-- **A shift to the right**: the lower digits but one are replaced. -/
lemma shifted_right (h : DigitsOf a m x) (hk : 1 ≤ k) (hk' : k < 32) {v : ℕ}
    (hv : v = (x % 10 ^ m / 10 ^ k + if x / 10 ^ (k - 1) % 10 + len2 > 9 then 1 else 0) % 10 ^ (m - 1)) :
    ∃ r, shiftRight m k len2 a = some r ∧ r.Of m (x / 10 ^ (m - 1) * 10 ^ (m - 1) + v) (v = 0) False := by
  have hup : Upward fun a i ↦ if i + k > m then 0 else a (i + k) := fun i a a' hsame ↦ by
    dsimp only
    rw [hsame _ (by omega)]
  have hcy : (if a k + len2 > 9 then 1 else 0) ≤ 1 := by split_ifs <;> omega
  rw [← h.nth hk] at hv
  rw [shiftRight, if_pos hk']
  generalize (if a k + len2 > 9 then 1 else 0) = cy at *
  have hrun := pass_spec (n := m - 1) (i := 1) (p := ⟨a, cy, true⟩) hup (fun j _ ↦ by
      dsimp only
      split_ifs
      · exact Nat.zero_le _
      · have := h.digit (j + k)
        rw [show 1 + j + k = j + k + 1 by omega]
        omega) hcy
  have hterms : num 10 (m - 1) (fun j ↦ if 1 + j + k > m then 0 else a (1 + j + k)) = x % 10 ^ m / 10 ^ k := by
    rcases Nat.lt_or_ge m k with hlt | hge
    · rw [Nat.div_eq_of_lt ((Nat.mod_lt _ (Nat.pow_pos (by norm_num))).trans_le (Nat.pow_le_pow_right (by norm_num) hlt.le))]
      exact (num_eq_zero (by norm_num)).mpr fun j _ ↦ if_pos (by omega)
    · have hdiv := num_div (b := 10) (m := k) (f := fun j ↦ a (j + 1)) (fun j _ ↦ Nat.lt_succ_iff.mpr (h.digit j)) (m - k)
      rw [Nat.add_sub_cancel' hge, h.low (by omega)] at hdiv
      obtain ⟨d, hd⟩ := Nat.exists_eq_add_of_le (show m - k ≤ m - 1 by lia)
      rw [hdiv, hd, num_add]
      have hnone : num 10 d (fun j ↦ if 1 + (m - k + j) + k > m then 0 else a (1 + (m - k + j) + k)) = 0 :=
        (num_eq_zero (by norm_num)).mpr fun j _ ↦ if_pos (by omega)
      rw [hnone, mul_zero, add_zero]
      refine num_congr fun j hj ↦ ?_
      rw [if_neg (by lia)]
      congr 1
      lia
  have hvalue := hrun.value
  have hnum := num_lt hrun.digit
  have hzero := hrun.zero
  simp only [hterms] at hvalue
  dsimp only at hzero
  refine ⟨_, rfl, ?_⟩
  generalize pass (fun a i ↦ if i + k > m then 0 else a (i + k)) (m - 1) 1 ⟨a, cy, true⟩ = p at *
  have hlow : num 10 (m - 1) (fun j ↦ p.a (1 + j)) = v := by
    rw [hv, ← hvalue, Nat.add_mul_mod_self_left, Nat.mod_eq_of_lt hnum]
  have habove (j : ℕ) (hj : m - 1 ≤ j) : p.a (j + 1) = a (j + 1) := hrun.above _ (by omega)
  refine ⟨fun j hj ↦ ?_, ?_, ?_, iff_of_false Bool.false_ne_true id⟩
  · rcases Nat.lt_or_ge j (m - 1) with hlt | hge
    · rw [add_comm]
      exact Nat.lt_succ_iff.mp (hrun.digit j hlt)
    · exact (habove j hge).trans_le (h.digit j)
  · have hparts := num_add 10 (m - 1) (2 * m + 1 - (m - 1)) fun j ↦ p.a (j + 1)
    have hhigh : num 10 (2 * m + 1 - (m - 1)) (fun j ↦ p.a (m - 1 + j + 1)) = x / 10 ^ (m - 1) := by
      rw [← h.high (by lia)]
      exact num_congr fun j _ ↦ habove _ (by lia)
    rw [Nat.add_sub_cancel' (by lia), hhigh] at hparts
    dsimp only
    rw [hparts, ← hlow]
    simp only [add_comm _ 1]
    ring
  · rw [hzero, hlow]
    exact and_iff_right rfl

/-! ### Powers of ten -/

/-- A number that is the lower part of itself with zeros behind it. -/
lemma eq_zero_of_shifted {v d n : ℕ} (hd : 1 ≤ d) (h : v = v * 10 ^ d % 10 ^ n) : v = 0 := by
  have hlt : v < 10 ^ n := h.trans_lt (Nat.mod_lt _ (Nat.pow_pos (by norm_num)))
  have hpow : 10 ^ 1 ≤ 10 ^ d := Nat.pow_le_pow_right (by norm_num) hd
  have hdvd : 10 ^ n ∣ v * (10 ^ d - 1) := by
    rw [Nat.mul_sub_one]
    exact (Nat.modEq_iff_dvd' (Nat.le_mul_of_pos_right v (by omega))).mp (by rw [Nat.ModEq, Nat.mod_eq_of_lt hlt]; exact h)
  have hcoprime : Nat.Coprime 10 (10 ^ d - 1) := by
    have hleft : Nat.gcd 10 (10 ^ d - 1) ∣ 10 ^ d := (Nat.gcd_dvd_left _ _).trans (dvd_pow_self 10 (by omega))
    have hone := Nat.dvd_sub hleft (Nat.gcd_dvd_right 10 (10 ^ d - 1))
    rw [Nat.sub_sub_self (by omega)] at hone
    exact Nat.dvd_one.mp hone
  exact Nat.eq_zero_of_dvd_of_lt ((hcoprime.pow_left n).dvd_of_dvd_mul_right hdvd) hlt

/-- A number whose lower digits repeat. -/
lemma dvd_of_repeat {p q x : ℕ} (h : p < q) (heq : x % 10 ^ p * 10 ^ q = x % 10 ^ q * 10 ^ p) : 10 ^ q ∣ x := by
  obtain ⟨d, rfl⟩ := Nat.exists_eq_add_of_le h.le
  have hdigits : x % 10 ^ p * 10 ^ d = x % 10 ^ (p + d) := by
    refine Nat.eq_of_mul_eq_mul_right (Nat.pow_pos (n := p) (by norm_num : 0 < 10)) ?_
    rw [← heq, pow_add]
    ring
  have hzero : x % 10 ^ p = 0 := eq_zero_of_shifted (d := d) (n := p) (by omega) (by
    rw [hdigits, Nat.mod_mod_of_dvd _ (pow_dvd_pow 10 (by omega))])
  rw [hzero, zero_mul] at hdigits
  exact Nat.dvd_of_mod_eq_zero hdigits.symm

/-- The lower digits that a shift to the left should move, and those that it does move. -/
lemma low_iff {m k x : ℕ} (h : k < m) : x % 10 ^ k * 10 ^ (m - k) = x % 10 ^ (m - k) * 10 ^ k ↔
    m = 2 * k ∨ 10 ^ max k (m - k) ∣ x := by
  constructor
  · intro heq
    rcases Nat.lt_trichotomy k (m - k) with hlt | hmid | hgt
    · rw [max_eq_right hlt.le]
      exact .inr (dvd_of_repeat hlt heq)
    · exact .inl (by omega)
    · rw [max_eq_left hgt.le]
      exact .inr (dvd_of_repeat hgt heq.symm)
  · rintro (heq | hdvd)
    · rw [show m - k = k by omega]
    · rw [Nat.mod_eq_zero_of_dvd ((pow_dvd_pow 10 (le_max_left k (m - k))).trans hdvd),
        Nat.mod_eq_zero_of_dvd ((pow_dvd_pow 10 (le_max_right k (m - k))).trans hdvd), zero_mul, zero_mul]

/-- The parts of a number that is shifted to the left. -/
lemma shift_split {m k x : ℕ} (h : k < m) :
    x * 10 ^ k % 10 ^ (2 * m + 1) = x / 10 ^ (m - k) % 10 ^ (m + 1) * 10 ^ m + x % 10 ^ (m - k) * 10 ^ k := by
  have hm : (10 : ℕ) ^ (m - k) * 10 ^ k = 10 ^ m := by rw [← pow_add, Nat.sub_add_cancel h.le]
  have hnumber : x * 10 ^ k = 10 ^ m * (x / 10 ^ (m - k)) + x % 10 ^ (m - k) * 10 ^ k := by
    calc x * 10 ^ k = (10 ^ (m - k) * (x / 10 ^ (m - k)) + x % 10 ^ (m - k)) * 10 ^ k := by rw [Nat.div_add_mod]
      _ = 10 ^ (m - k) * 10 ^ k * (x / 10 ^ (m - k)) + x % 10 ^ (m - k) * 10 ^ k := by ring
      _ = _ := by rw [hm]
  have hlow : x % 10 ^ (m - k) * 10 ^ k < 10 ^ m := by
    rw [← hm]
    exact Nat.mul_lt_mul_of_pos_right (Nat.mod_lt _ (Nat.pow_pos (by norm_num))) (Nat.pow_pos (by norm_num))
  rw [hnumber, show 2 * m + 1 = m + (m + 1) by ring, pow_add, Nat.mod_mul, Nat.mul_add_mod, Nat.mod_eq_of_lt hlow,
    Nat.mul_add_div (Nat.pow_pos (by norm_num)), Nat.div_eq_of_lt hlow, add_zero]
  ring

/-- Two numbers of an upper and a lower part are the same when the parts are. -/
lemma parts_iff {p h h' l l' : ℕ} (hl : l < p) (hl' : l' < p) : h * p + l = h' * p + l' ↔ h = h' ∧ l = l' := by
  constructor
  · intro heq
    have hdiv := congrArg (· / p) heq
    have hmod := congrArg (· % p) heq
    simp only [mul_comm _ p, Nat.mul_add_div (show 0 < p by omega), Nat.div_eq_of_lt hl, Nat.div_eq_of_lt hl', add_zero,
      Nat.mul_add_mod, Nat.mod_eq_of_lt hl, Nat.mod_eq_of_lt hl'] at hdiv hmod
    exact ⟨hdiv, hmod⟩
  · rintro ⟨rfl, rfl⟩
    rfl

/-- **The digits of a shift to the left** are right when the upper digits repeat, and the lower ones are moved to where
they should be. -/
lemma left_value_iff {m k x : ℕ} (h : k < m) : x / 10 ^ m * 10 ^ m + x % 10 ^ k * 10 ^ (m - k) = x * 10 ^ k % 10 ^ (2 * m + 1) ↔
    x / 10 ^ m = x / 10 ^ (m - k) % 10 ^ (m + 1) ∧ (m = 2 * k ∨ 10 ^ max k (m - k) ∣ x) := by
  have hm : (10 : ℕ) ^ (m - k) * 10 ^ k = 10 ^ m := by rw [← pow_add, Nat.sub_add_cancel h.le]
  have hpos (n : ℕ) : 0 < (10 : ℕ) ^ n := Nat.pow_pos (by norm_num)
  rw [shift_split h, ← low_iff h]
  refine parts_iff ?_ ?_
  · rw [← hm, mul_comm (10 ^ (m - k))]
    exact Nat.mul_lt_mul_of_pos_right (Nat.mod_lt _ (hpos k)) (hpos _)
  · rw [← hm]
    exact Nat.mul_lt_mul_of_pos_right (Nat.mod_lt _ (hpos _)) (hpos k)

/-- When the digits are right, digits are lost exactly when the loop has seen one, and a number that is not zero
without a digit lost stays one. -/
lemma left_lost {m k x : ℕ} (hk : 1 ≤ k) (h : k < m) (hx : x ≠ 0) (hhigh : x / 10 ^ m = x / 10 ^ (m - k) % 10 ^ (m + 1))
    (hlow : m = 2 * k ∨ 10 ^ max k (m - k) ∣ x) :
    (10 ^ k ≤ x % 10 ^ m ↔ 10 ^ (2 * m + 1) ≤ x * 10 ^ k) ∧ (¬ 10 ^ (2 * m + 1) ≤ x * 10 ^ k → x < 10 ^ k) := by
  have hpos (n : ℕ) : 0 < (10 : ℕ) ^ n := Nat.pow_pos (by norm_num)
  have hm : (10 : ℕ) ^ (m - k) * 10 ^ k = 10 ^ m := by rw [← pow_add, Nat.sub_add_cancel h.le]
  have hdiv : x / 10 ^ (m - k) / 10 ^ k = x / 10 ^ m := by rw [Nat.div_div_eq_div_mul, hm]
  have hall : (10 : ℕ) ^ (m + 1) * 10 ^ (m - k) * 10 ^ k = 10 ^ (2 * m + 1) := by
    rw [mul_assoc, hm, ← pow_add, show m + 1 + m = 2 * m + 1 by ring]
  have hlost : 10 ^ (2 * m + 1) ≤ x * 10 ^ k ↔ 10 ^ (m + 1) ≤ x / 10 ^ (m - k) := by
    rw [Nat.le_div_iff_mul_le (hpos _), ← hall]
    exact Nat.mul_le_mul_right_iff (hpos k)
  have hdivides : ¬ m = 2 * k → 10 ^ k ∣ x ∧ 10 ^ (m - k) ∣ x := fun hne ↦
    ⟨(pow_dvd_pow 10 (le_max_left k (m - k))).trans (hlow.resolve_left hne),
      (pow_dvd_pow 10 (le_max_right k (m - k))).trans (hlow.resolve_left hne)⟩
  by_cases hfit : x / 10 ^ (m - k) < 10 ^ (m + 1)
  · -- the upper digits can only repeat if there are none
    rw [Nat.mod_eq_of_lt hfit, ← hdiv] at hhigh
    have hzero : x / 10 ^ (m - k) = 0 := by
      by_contra hne
      have htenth : x / 10 ^ (m - k) / 10 ^ k ≤ x / 10 ^ (m - k) / 10 :=
        Nat.div_le_div_left (by simpa using Nat.pow_le_pow_right (by norm_num : 0 < 10) hk) (by norm_num)
      have hless := Nat.div_lt_self (Nat.pos_of_ne_zero hne) (by norm_num : 1 < 10)
      exact absurd (hhigh.symm.trans_le htenth) (by lia)
    have hsmall : x < 10 ^ (m - k) := (Nat.div_eq_zero_iff.mp hzero).resolve_left (hpos _).ne'
    have hmid : m = 2 * k := by
      by_contra hne
      exact hx (Nat.eq_zero_of_dvd_of_lt (hdivides hne).2 hsmall)
    rw [show m - k = k by omega] at hsmall
    have hless : x % 10 ^ m < 10 ^ k := (Nat.mod_le _ _).trans_lt hsmall
    exact ⟨iff_of_false (by omega) (by rw [hlost]; omega), fun _ ↦ hsmall⟩
  · refine ⟨iff_of_true ?_ (by rw [hlost]; omega), fun hno ↦ absurd (hlost.mpr (by omega)) hno⟩
    by_contra hless
    have hlowest : x / 10 ^ (m - k) % 10 ^ k = 0 := by
      have hpart : x / 10 ^ (m - k) % 10 ^ k = x % 10 ^ m / 10 ^ (m - k) := by
        rw [← hm, Nat.mod_mul_right_div_self]
      rw [hpart]
      by_cases hmid : m = 2 * k
      · exact Nat.div_eq_of_lt (by rw [show m - k = k by lia]; omega)
      · have hlast : x % 10 ^ m = 0 := by
          have hmod : x % 10 ^ m % 10 ^ k = 0 := by
            rw [Nat.mod_mod_of_dvd _ (pow_dvd_pow 10 h.le)]
            exact Nat.mod_eq_zero_of_dvd (hdivides hmid).1
          rwa [Nat.mod_eq_of_lt (by omega)] at hmod
        rw [hlast, Nat.zero_div]
    have hwhole : x / 10 ^ (m - k) = x / 10 ^ m * 10 ^ k := by
      have hsplit := Nat.div_add_mod' (x / 10 ^ (m - k)) (10 ^ k)
      rw [hlowest, hdiv, add_zero] at hsplit
      exact hsplit.symm
    have hnone : x / 10 ^ m = 0 := eq_zero_of_shifted (d := k) (n := m + 1) hk (by rw [← hwhole]; exact hhigh)
    rw [hwhole, hnone, zero_mul] at hfit
    exact hfit (hpos _)

/-- The digits below the last one that is kept do not count, but for the rounding. -/
lemma round_div {x k r : ℕ} (hk : 1 ≤ k) : (x + r * 10 ^ (k - 1)) / 10 ^ k = (x / 10 ^ (k - 1) + r) / 10 := by
  obtain ⟨n, rfl⟩ := Nat.exists_eq_add_of_le' hk
  rw [Nat.add_sub_cancel, pow_succ, ← Nat.div_div_eq_div_mul, Nat.add_mul_div_right _ _ (Nat.pow_pos (by norm_num))]

/-- The rounding digit adds a carry or not. -/
lemma round_eq {x k r : ℕ} (hk : 1 ≤ k) (hr : r ≤ 9) : (x + r * 10 ^ (k - 1)) / 10 ^ k =
    x / 10 ^ k + if x / 10 ^ (k - 1) % 10 + r > 9 then 1 else 0 := by
  have hnext : x / 10 ^ k = x / 10 ^ (k - 1) / 10 := by
    rw [Nat.div_div_eq_div_mul, ← pow_succ, Nat.sub_add_cancel hk]
  rw [round_div hk, hnext]
  split_ifs <;> lia

/-- A number that is in the places of the loop. -/
lemma right_small {m k x r : ℕ} (hk : 1 ≤ k) (hr : r ≤ 9) (hsmall : x * 10 < 10 ^ m) :
    x / 10 ^ (m - 1) = 0 ∧ (x + r * 10 ^ (k - 1)) / 10 ^ k < 10 ^ (m - 1) := by
  rw [round_div hk]
  have hle : x / 10 ^ (k - 1) ≤ x := Nat.div_le_self _ _
  rcases Nat.eq_zero_or_pos m with rfl | hm
  · rw [pow_zero] at hsmall
    rw [Nat.zero_sub, pow_zero]
    lia
  · obtain ⟨n, rfl⟩ : ∃ n, m = n + 1 := ⟨m - 1, by omega⟩
    have hpow : (10 : ℕ) ^ (n + 1) = 10 ^ n * 10 := pow_succ 10 n
    rw [Nat.add_sub_cancel]
    refine ⟨Nat.div_eq_of_lt (by omega), ?_⟩
    rcases Nat.eq_zero_or_pos n with rfl | hn
    · rw [pow_zero] at hpow ⊢
      omega
    · have hten : 10 ^ 1 ≤ 10 ^ n := Nat.pow_le_pow_right (by norm_num) hn
      lia

/-- **A shift to the right** is right when the number is in the places of the loop. Without them one number is left. -/
lemma right_value_iff {m k x r v : ℕ} (hk : 1 ≤ k) (hr : r ≤ 9)
    (hv : v = (x % 10 ^ m / 10 ^ k + if x / 10 ^ (k - 1) % 10 + r > 9 then 1 else 0) % 10 ^ (m - 1)) :
    x / 10 ^ (m - 1) * 10 ^ (m - 1) + v = (x + r * 10 ^ (k - 1)) / 10 ^ k ↔
      x * 10 < 10 ^ m ∨ m ≤ 1 ∧ k = 1 ∧ x = 1 ∧ r = 9 := by
  have hpos (n : ℕ) : 0 < (10 : ℕ) ^ n := Nat.pow_pos (by norm_num)
  by_cases hsmall : x * 10 < 10 ^ m
  · obtain ⟨hhigh, hfit⟩ := right_small hk hr hsmall
    refine iff_of_true ?_ (.inl hsmall)
    rw [hhigh, zero_mul, zero_add, hv, Nat.mod_eq_of_lt (show x < 10 ^ m by omega), ← round_eq hk hr, Nat.mod_eq_of_lt hfit]
  · have hvlt : v < 10 ^ (m - 1) := hv.trans_lt (Nat.mod_lt _ (hpos _))
    have hsplit := Nat.div_add_mod' x (10 ^ (m - 1))
    have hrest := Nat.mod_lt x (hpos (m - 1))
    have hone : 1 ≤ x / 10 ^ (m - 1) := by
      rw [Nat.le_div_iff_mul_le (hpos _), one_mul]
      rcases Nat.eq_zero_or_pos m with rfl | hm
      · rw [pow_zero] at hsmall ⊢
        lia
      · have hpow : (10 : ℕ) ^ m = 10 ^ (m - 1) * 10 := by rw [← pow_succ, Nat.sub_add_cancel hm]
        lia
    constructor
    · intro heq
      have hle : x / 10 ^ (k - 1) ≤ x := Nat.div_le_self _ _
      rw [round_div hk] at heq
      have hunit : 10 ^ (m - 1) = 1 := by
        have hmul : 1 * 10 ^ (m - 1) ≤ x / 10 ^ (m - 1) * 10 ^ (m - 1) := Nat.mul_le_mul_right _ hone
        have := hpos (m - 1)
        lia
      have hm : m - 1 = 0 := (Nat.pow_eq_one.mp hunit).resolve_left (by norm_num)
      rw [hunit, Nat.div_one] at hone
      rw [hunit, Nat.div_one, mul_one] at heq
      have hx : x = 1 := by lia
      have hp : 1 ≤ x / 10 ^ (k - 1) := by lia
      rw [Nat.le_div_iff_mul_le (hpos _), one_mul, hx] at hp
      have hk' : k - 1 = 0 := (Nat.pow_eq_one.mp (le_antisymm hp (hpos _))).resolve_left (by norm_num)
      rw [hk', pow_zero, Nat.div_one] at heq
      exact .inr ⟨by lia, by omega, hx, by lia⟩
    · rintro (hless | ⟨hm, rfl, rfl, rfl⟩)
      · exact absurd hless hsmall
      · have hm' : m - 1 = 0 := by omega
        rw [hm', pow_zero] at hvlt ⊢
        norm_num
        omega

/-! ### The instruction -/

/-- The digits after the shift. -/
def srpDigits (m x shift r : ℕ) : ℕ :=
  if shift < 32 then x * 10 ^ shift % 10 ^ (2 * m + 1) else (x + r * 10 ^ (64 - shift - 1)) / 10 ^ (64 - shift)

/-- A digit is lost. -/
def SrpLost (m x shift : ℕ) : Prop := shift < 32 ∧ 10 ^ (2 * m + 1) ≤ x * 10 ^ shift

instance (m x shift : ℕ) : Decidable (SrpLost m x shift) := inferInstanceAs (Decidable (_ ∧ _))

/-- The operands of `m + 1` bytes that are shifted right. -/
def SrpExact (m x : ℕ) (neg : Bool) (shift r : ℕ) : Prop :=
  if 32 ≤ shift then 32 < shift ∧ (x * 10 < 10 ^ m ∨ m ≤ 1 ∧ shift = 63 ∧ x = 1 ∧ r = 9 ∧ neg = false)
  else if shift = 0 then ¬ (neg = true ∧ x ≠ 0 ∧ x % 10 ^ (m - 1) = 0)
  else x = 0 ∨ shift < m ∧ x / 10 ^ m = x / 10 ^ (m - shift) % 10 ^ (m + 1) ∧
    (m = 2 * shift ∨ 10 ^ max shift (m - shift) ∣ x)

/-- What a shift delivers is what it should be: the digits, whether one is lost, and the sign. -/
def Agrees (m x : ℕ) (neg : Bool) (shift r v : ℕ) (zero ov : Prop) : Prop :=
  v = srpDigits m x shift r ∧ (ov ↔ SrpLost m x shift) ∧
    (neg = true → (zero ∧ ¬ ov ↔ srpDigits m x shift r = 0 ∧ ¬ SrpLost m x shift))

/-- Nothing is shifted. -/
lemma agrees_zero {m x r : ℕ} (neg : Bool) (hx : x < 10 ^ (2 * m + 1)) :
    Agrees m x neg 0 r x (x % 10 ^ (m - 1) = 0) False ↔ SrpExact m x neg 0 r := by
  have hvalue : srpDigits m x 0 r = x := by
    rw [srpDigits, if_pos (by norm_num), pow_zero, mul_one, Nat.mod_eq_of_lt hx]
  have hlost : ¬ SrpLost m x 0 := fun hand ↦ by
    have := hand.2
    rw [pow_zero, mul_one] at this
    omega
  rw [Agrees, hvalue, SrpExact, if_neg (by norm_num), if_pos rfl]
  constructor
  · rintro ⟨-, -, hsign⟩ ⟨hneg, hx0, hmod⟩
    exact hx0 ((hsign hneg).mp ⟨hmod, id⟩).1
  · intro hno
    refine ⟨rfl, iff_of_false id hlost, fun hneg ↦ ⟨fun hand ↦ ⟨?_, hlost⟩, fun hand ↦ ⟨?_, id⟩⟩⟩
    · by_contra hx0
      exact hno ⟨hneg, hx0, hand.1⟩
    · rw [hand.1, Nat.zero_mod]

/-- A shift to the left. -/
lemma agrees_left {m x shift r : ℕ} (neg : Bool) (hpos : 1 ≤ shift) (hlt : shift < 32) :
    Agrees m x neg shift r (x / 10 ^ m * 10 ^ m + x % 10 ^ min m shift * 10 ^ (m - min m shift)) (x % 10 ^ min m shift = 0)
      (10 ^ shift ≤ x % 10 ^ m) ↔ SrpExact m x neg shift r := by
  have hten (n : ℕ) : 0 < (10 : ℕ) ^ n := Nat.pow_pos (by norm_num)
  have hlost : SrpLost m x shift ↔ 10 ^ (2 * m + 1) ≤ x * 10 ^ shift := and_iff_right hlt
  rw [Agrees, SrpExact, if_neg (by omega), if_neg (by omega), hlost, srpDigits, if_pos hlt]
  by_cases hx0 : x = 0
  · refine iff_of_true ?_ (.inl hx0)
    rw [hx0]
    have hno (n : ℕ) : ¬ 10 ^ n ≤ 0 := by have := hten n; omega
    simp only [Nat.zero_div, Nat.zero_mod, zero_mul, add_zero, hno, not_false_eq_true, and_self, iff_self, implies_true]
  by_cases hm : shift < m
  · rw [Nat.min_eq_right hm.le, left_value_iff hm, or_iff_right hx0, and_iff_right hm]
    constructor
    · exact And.left
    · rintro ⟨hhigh, hlow⟩
      obtain ⟨hov, hsmall⟩ := left_lost hpos hm hx0 hhigh hlow
      refine ⟨⟨hhigh, hlow⟩, hov, fun _ ↦ ?_⟩
      rw [hov]
      refine and_congr_left fun hno ↦ ?_
      have hnot := hsmall hno
      rw [Nat.mod_eq_of_lt hnot, Nat.mod_eq_of_lt (by omega), Nat.mul_eq_zero, or_iff_left (hten shift).ne']
  · refine iff_of_false ?_ (by omega)
    rintro ⟨hvalue, hov, -⟩
    rw [Nat.min_eq_left (by omega), Nat.sub_self, pow_zero, mul_one, Nat.div_add_mod'] at hvalue
    have hno : ¬ 10 ^ shift ≤ x % 10 ^ m := by
      have := Nat.mod_lt x (hten m)
      have := Nat.pow_le_pow_right (by norm_num : 0 < 10) (show m ≤ shift by omega)
      omega
    have hfit := mt hov.mpr hno
    rw [Nat.mod_eq_of_lt (by omega)] at hvalue
    have hgreat : x * 10 ^ 1 ≤ x * 10 ^ shift := Nat.mul_le_mul_left x (Nat.pow_le_pow_right (by norm_num) hpos)
    lia

/-- A shift to the right. -/
lemma agrees_right {m x shift r v : ℕ} (neg : Bool) (hge : 32 < shift) (hlt : shift < 64) (hr : r ≤ 9)
    (hv : v = (x % 10 ^ m / 10 ^ (64 - shift) + if x / 10 ^ (64 - shift - 1) % 10 + r > 9 then 1 else 0) % 10 ^ (m - 1)) :
    Agrees m x neg shift r (x / 10 ^ (m - 1) * 10 ^ (m - 1) + v) (v = 0) False ↔ SrpExact m x neg shift r := by
  have hlost : ¬ SrpLost m x shift := fun hand ↦ absurd hand.1 (by omega)
  have hvalue := right_value_iff (by omega) hr hv
  rw [Agrees, SrpExact, if_pos hge.le, and_iff_right hge, srpDigits, if_neg (by omega), hvalue]
  constructor
  · rintro ⟨hsmall | ⟨hm, hk, hx, hr9⟩, -, hsign⟩
    · exact .inl hsmall
    · refine .inr ⟨hm, by omega, hx, hr9, ?_⟩
      by_contra hneg
      have hone : m - 1 = 0 := by omega
      rw [hone, pow_zero, Nat.mod_one] at hv
      have hzero := ((hsign (by simpa using hneg)).mp ⟨hv, id⟩).1
      rw [hx, hr9, hk] at hzero
      norm_num at hzero
  · rintro (hsmall | ⟨hm, hk, hx, hr9, hneg⟩)
    · refine ⟨.inl hsmall, iff_of_false id hlost, fun _ ↦ ?_⟩
      have heq := hvalue.mpr (.inl hsmall)
      rw [(right_small (k := 64 - shift) (by omega) hr hsmall).1, zero_mul, zero_add] at heq
      rw [← heq]
      exact and_congr_right fun _ ↦ ⟨fun _ ↦ hlost, fun _ ↦ id⟩
    · exact ⟨.inr ⟨hm, by omega, hx, hr9⟩, iff_of_false id hlost, fun hno ↦ absurd hno (by rw [hneg]; decide)⟩

namespace Access

variable {c : Access} {s : Store} {addr1 len1 addr2 len2 : ℕ} {ascii decovr : Bool}

/-- What the instruction has to do: the digits of the shifted number are stored with its sign, or with plus if it is
zero, and the condition code is 3 when a digit is lost. -/
def SrpRight (c : Access) (ascii decovr : Bool) (s : Store) (addr1 len1 addr2 len2 : ℕ) : Prop :=
  let x := c.magnitude s.mem addr1 len1
  let shift := addr2 % 64
  let y := srpDigits len1 x shift len2
  ∃ d t, c.decSrp ascii decovr addr1 len1 addr2 len2 s = (.ok (some d), t) ∧
    c.Result ascii s t addr1 len1 (c.minus s.mem addr1 len1 && !decide (y = 0 ∧ ¬ SrpLost len1 x shift)) y ∧
    (d.cc = 3 ↔ SrpLost len1 x shift)

/-- The digits of an operand. -/
lemma digits_of {mem : ℕ → BitVec 32} (h : c.Valid mem addr1 len1) :
    DigitsOf (c.digits mem addr1 len1) len1 (c.magnitude mem addr1 len1) := by
  refine ⟨fun j ↦ ?_, fun j hj ↦ if_neg (by omega), ?_⟩
  · rw [add_comm]
    exact digits_le h j
  · rw [← num_digits_eq c mem addr1 le_rfl]
    exact num_congr fun j _ ↦ by rw [add_comm]

/-- The sign that is stored. -/
lemma srp_sign {r : Shifted} {zero ov y : Prop} [Decidable y] (hz : r.zero = true ↔ zero) (ho : r.ov = true ↔ ov) (neg : Bool) :
    (if r.zero && !r.ov then false else neg) = (neg && !decide y) ↔ (neg = true → (zero ∧ ¬ ov ↔ y)) := by
  have hboth : (r.zero && !r.ov) = true ↔ zero ∧ ¬ ov := by
    rw [Bool.and_eq_true, Bool.not_eq_true', ← Bool.not_eq_true, hz, ho]
  rw [← hboth]
  cases neg <;> cases r.zero && !r.ov <;> by_cases hy : y <;> simp [hy]

/-- The end of `dec_srp` is right when the shift was. -/
lemma srpStore_iff {r : Shifted} {v x shift : ℕ} {zero ov : Prop} {u : Store} (hlen1 : len1 < 16) (hkept : Kept s u)
    (hopen : c.Open s 1 addr1 (len1 + 1)) (hr : r.Of len1 v zero ov) (neg : Bool) :
    (∃ d t, c.srpStore ascii decovr addr1 len1 neg r u = (.ok (some d), t) ∧
      c.Result ascii s t addr1 len1 (neg && !decide (srpDigits len1 x shift len2 = 0 ∧ ¬ SrpLost len1 x shift))
        (srpDigits len1 x shift len2) ∧
      (d.cc = 3 ↔ SrpLost len1 x shift)) ↔ Agrees len1 x neg shift len2 v zero ov := by
  obtain ⟨t, hstore, hstored⟩ := decStore_spec ascii r.a (if r.zero && !r.ov then false else neg) (by omega)
    (hopen.congr hkept.key)
  have hresult := (hstored.result hr.digit).of_kept hkept
  have hsign := srp_sign (y := srpDigits len1 x shift len2 = 0 ∧ ¬ SrpLost len1 x shift) hr.zero hr.ov neg
  have hcc (sa : Bool) : (if r.ov then 3 else if r.zero then 0 else if sa then 1 else 2) = 3 ↔ ov := by
    rw [← hr.ov]
    cases r.ov <;> cases r.zero <;> cases sa <;> decide
  rw [hr.value] at hresult
  rw [srpStore, Op.bind_of_ok hstore, Agrees, ← hsign]
  constructor
  · rintro ⟨d, t', heq, hright, hlost⟩
    obtain ⟨hd, rfl⟩ := Prod.mk.inj heq
    obtain rfl := Option.some.inj (Except.ok.inj hd)
    refine ⟨hresult.magnitude.symm.trans hright.magnitude, (hcc _).symm.trans hlost, ?_⟩
    exact (minus_of_code hresult.sign).symm.trans (minus_of_code hright.sign)
  · rintro ⟨hv, hov, hneg⟩
    rw [hv, hneg] at hresult
    exact ⟨_, t, rfl, hresult, (hcc _).trans hov⟩

/-- **SRP**: the shifted and rounded number, for the operands that the loops shift right. -/
theorem decSrp_iff (c : Access) (ascii decovr : Bool) (s : Store) (addr1 len1 addr2 len2 : ℕ) (hlen1 : len1 < 16)
    (hround : len2 ≤ 9) (hvalid : c.Valid s.mem addr1 len1) (hopen : c.Open s 1 addr1 (len1 + 1)) :
    c.SrpRight ascii decovr s addr1 len1 addr2 len2 ↔
      SrpExact len1 (c.magnitude s.mem addr1 len1) (c.minus s.mem addr1 len1) (addr2 % 64) len2 := by
  have hdigits := digits_of hvalid
  have hshift : addr2 &&& 0x3f = addr2 % 64 := Nat.and_two_pow_sub_one_eq_mod addr2 6
  have hright : ∀ n < 64, (n &&& 0x20 ≠ 0 ↔ 32 ≤ n) := by decide
  have hmod := Nat.mod_lt addr2 (show 0 < 64 by norm_num)
  rcases decLoad_spec c s addr1 len1 with ⟨-, u, hload, hkept⟩ | ⟨hno, -⟩
  swap
  · exact absurd ⟨hopen.read, hvalid⟩ hno
  rw [SrpRight, decSrp, Op.bind_of_ok hload]
  dsimp only
  rw [shiftDigits, hshift]
  generalize addr2 % 64 = shift at *
  by_cases hge : 32 ≤ shift
  · rw [if_pos ((hright shift hmod).mpr hge)]
    by_cases hout : shift = 32
    · -- the digit 32 is read
      subst hout
      refine iff_of_false ?_ fun hexact ↦ ?_
      · rintro ⟨d, t, heq, -⟩
        cases (Prod.mk.inj heq).1
      · rw [SrpExact, if_pos le_rfl] at hexact
        exact absurd hexact.1 (lt_irrefl _)
    · obtain ⟨r, hrun, hr⟩ := @shifted_right len2 (64 - shift) _ _ _ hdigits (by omega) (by omega) _ rfl
      rw [hrun]
      exact (srpStore_iff hlen1 hkept hopen hr _).trans (agrees_right _ (by omega) hmod hround rfl)
  · rw [if_neg (mt (hright shift hmod).mp hge)]
    by_cases hzero : shift = 0
    · subst hzero
      exact (srpStore_iff hlen1 hkept hopen (shifted_zero hdigits) _).trans (agrees_zero _ hdigits.lt)
    · rw [if_pos hzero]
      exact (srpStore_iff hlen1 hkept hopen (shifted_left hdigits shift) _).trans (agrees_left _ (by omega) (by omega))

/-- Seven is rounded to one by a shift to the right. -/
theorem decSrp_iff_seven : (plain 4096 rfl).SrpRight false false (firstWords 0x00007c00 0) 0 2 63 5 :=
  (decSrp_iff (plain 4096 rfl) false false (firstWords 0x00007c00 0) 0 2 63 5 (by norm_num) (by norm_num)
    (by decide) (plain_open rfl (by norm_num) (by norm_num))).mpr ⟨by norm_num, .inl (by decide)⟩

/-- **Five is not shifted** to the left by one digit. -/
theorem shift_wrong : (plain 4096 rfl).Valid (firstWords 0x005c0000 0).mem 0 1 ∧
    (plain 4096 rfl).magnitude (firstWords 0x005c0000 0).mem 0 1 = 5 ∧
    (plain 4096 rfl).magnitude ((plain 4096 rfl).decSrp false false 0 1 1 0 (firstWords 0x005c0000 0)).2.mem 0 1 = 5 ∧
    ¬ (plain 4096 rfl).SrpRight false false (firstWords 0x005c0000 0) 0 1 1 0 := by
  have hsame : (plain 4096 rfl).magnitude ((plain 4096 rfl).decSrp false false 0 1 1 0 (firstWords 0x005c0000 0)).2.mem 0 1 = 5 := by
    decide
  refine ⟨by decide, by decide, hsame, ?_⟩
  rintro ⟨d, t, hrun, hresult, -⟩
  rw [hrun, hresult.magnitude] at hsame
  exact absurd hsame (by decide)

end Access

end Ka10Simh.Ibm360
