import Ka10Simh.Pdp10.Word
import Ka10Simh.Lib.Floating

/-!
Floating point words of a PDP-10: a sign, 8 bits of exponent and 27 bits of fraction, the negative number as the
two's complement of the whole word.

* `getExpo`, `mantissa`, `value`: the parts of a word and what it stands for.
* `Number`: a number with a normalized fraction; `Number.word` is its word.
* `numbers`: what the normalized words and zero stand for; `numbers_gap`: it has no point between neighbours.
-/

namespace Ka10Simh.Pdp10.Fp

/-! ### The source -/

/-- `MMASK`, the fraction of a word. -/
abbrev mmask : ℕ := 0o777777777

/-- `GET_EXPO`, the exponent. -/
def getExpo (x : ℕ) : ℕ := (if x &&& smask ≠ 0 then 0o377 else 0) ^^^ (x >>> 27 &&& 0o377)

/-- `SMEAR_SIGN`, the fraction with its sign in the place of the exponent. -/
def smearSign (x : ℕ) : ℕ := if x &&& smask ≠ 0 then x ||| expo else x &&& mant

/-! ### What a word stands for -/

/-- The fraction with its sign. -/
def mantissa (x : ℕ) : ℤ := (x % 2 ^ 27 : ℕ) - if x < 2 ^ 35 then 0 else 2 ^ 27

/-- The number of a word. -/
def value (x : ℕ) : ℚ := mantissa x * 2 ^ (getExpo x - 155 : ℤ)

/-- The fraction is at least one half, or the word is zero. -/
def Normalized (x : ℕ) : Prop := x = 0 ∨ 2 ^ 26 ≤ |mantissa x| ∧ |mantissa x| < 2 ^ 27

instance (x : ℕ) : Decidable (Normalized x) := inferInstanceAs (Decidable (_ ∨ _))

section Parts

variable {x : ℕ}

lemma getExpo_eq (h : x < 2 ^ 36) :
    getExpo x = if x < 2 ^ 35 then x / 2 ^ 27 else 511 - x / 2 ^ 27 := by
  have hfield : x >>> 27 &&& 0o377 = x / 2 ^ 27 % 2 ^ 8 := by
    rw [Nat.shiftRight_eq_div_pow]
    exact Nat.and_two_pow_sub_one_eq_mod _ 8
  rw [getExpo, hfield]
  rcases Nat.lt_or_ge x (2 ^ 35) with hlt | hge
  · rw [if_neg (by rw [and_smask]; omega), if_pos hlt, Nat.zero_xor]
    lia
  · have hxor : 0o377 ^^^ x / 2 ^ 27 % 2 ^ 8 = 2 ^ 8 - 1 - x / 2 ^ 27 % 2 ^ 8 := 
      Word.mask_xor (Nat.mod_lt _ (by decide : 0 < 2 ^ 8))
    rw [if_pos (by rw [and_smask]; omega), if_neg (by omega), hxor]
    lia

lemma getExpo_lt (h : x < 2 ^ 36) : getExpo x < 256 := by
  rw [getExpo_eq h]
  split <;> omega

lemma or_ones {k n : ℕ} (hk : k < 2 ^ n) : k ||| 2 ^ n - 1 = 2 ^ n - 1 := by
  refine Nat.eq_of_testBit_eq fun i ↦ ?_
  rw [Nat.testBit_or, Nat.testBit_two_pow_sub_one]
  by_cases hi : i < n
  · simp [hi]
  · simp [hi, Nat.testBit_lt_two_pow (hk.trans_le (Nat.pow_le_pow_right two_pos (not_lt.mp hi)))]

/-- The smeared word is the fraction in two's complement. -/
lemma smearSign_eq (h : x < 2 ^ 36) : (smearSign x : ℤ) = mantissa x + if x < 2 ^ 35 then 0 else 2 ^ 36 := by
  rw [smearSign, mantissa]
  rcases Nat.lt_or_ge x (2 ^ 35) with hlt | hge
  · rw [if_neg (by rw [and_smask]; omega), if_pos hlt, and_mant]
    lia
  · have hor : x ||| expo = 2 ^ 35 + (2 ^ 8 - 1) * 2 ^ 27 + x % 2 ^ 27 := by
      have hx : x = (2 ^ 8 + x / 2 ^ 27 % 2 ^ 8) <<< 27 ||| x % 2 ^ 27 := by
        rw [Word.shiftLeft_or_eq (Nat.mod_lt _ (by positivity))]
        omega
      have hones (k : ℕ) (hk : k < 2 ^ 8) : 2 ^ 8 + k ||| 2 ^ 8 - 1 = 2 ^ 8 + (2 ^ 8 - 1) := by
        rw [← Word.or_eq_add dvd_rfl hk, Nat.or_assoc, or_ones hk, Word.or_eq_add dvd_rfl (by norm_num)]
      have hexpo : expo = (2 ^ 8 - 1) <<< 27 := rfl
      conv_lhs => rw [hx]
      rw [Nat.or_right_comm, hexpo, ← Nat.shiftLeft_or_distrib, hones _ (Nat.mod_lt _ (by decide)),
        Word.shiftLeft_or_eq (Nat.mod_lt _ (by positivity))]
      ring
    rw [if_pos (by rw [and_smask]; omega), if_neg (by omega), if_neg (by omega), hor]
    push_cast
    ring

lemma mantissa_range (x : ℕ) : -2 ^ 27 ≤ mantissa x ∧ mantissa x < 2 ^ 27 := by
  rw [mantissa]
  split <;> omega

end Parts

/-! ### Normalized numbers -/

/-- A number with its fraction and its exponent. -/
structure Number where
  m : ℤ
  e : ℕ
  e_lt : e < 256
  low : 2 ^ 26 ≤ |m|
  high : |m| < 2 ^ 27

namespace Number

variable (n : Number)

/-- The word of a number. -/
def word : ℕ := (((if n.m < 0 then -(n.e : ℤ) else n.e) * 2 ^ 27 + n.m) % 2 ^ 36).toNat

/-- Its value. -/
def value : ℚ := n.m * 2 ^ (n.e - 155 : ℤ)

lemma m_range : 2 ^ 26 ≤ n.m ∧ n.m < 2 ^ 27 ∨ -2 ^ 27 < n.m ∧ n.m ≤ -2 ^ 26 := by
  have hlow := n.low
  obtain ⟨hneg, hpos⟩ := abs_lt.mp n.high
  rw [le_abs'] at hlow
  omega

/-- A number is negative if its word has the sign bit. -/
lemma word_eq : (n.word : ℤ) = if n.m < 0 then 2 ^ 36 - n.e * 2 ^ 27 + n.m else n.e * 2 ^ 27 + n.m := by
  have he := n.e_lt
  have hm := n.m_range
  rw [word]
  split <;> lia

lemma word_lt : n.word < 2 ^ 36 := by
  have he := n.e_lt
  have hm := n.m_range
  have hw := n.word_eq
  split at hw <;> omega

lemma word_lt_iff : n.word < 2 ^ 35 ↔ 0 ≤ n.m := by
  have he := n.e_lt
  have hm := n.m_range
  have hw := n.word_eq
  split at hw <;> omega

@[simp] lemma mantissa_word : mantissa n.word = n.m := by
  have he := n.e_lt
  have hm := n.m_range
  have hw := n.word_eq
  have hiff := n.word_lt_iff
  rw [mantissa]
  split at hw <;> split <;> lia

@[simp] lemma getExpo_word : getExpo n.word = n.e := by
  have he := n.e_lt
  have hm := n.m_range
  have hw := n.word_eq
  have hiff := n.word_lt_iff
  rw [getExpo_eq n.word_lt]
  split at hw <;> split <;> lia

@[simp] lemma value_word : Fp.value n.word = n.value := by rw [Fp.value, mantissa_word, getExpo_word, value]

lemma normalized : Normalized n.word := by
  rw [Normalized, mantissa_word]
  exact .inr ⟨n.low, n.high⟩

/-- **Normalized words are the words of the numbers**, and zero. -/
theorem of_normalized {x : ℕ} (hx : x < 2 ^ 36) (h : Normalized x) (hne : x ≠ 0) : ∃ n : Number, n.word = x := by
  obtain ⟨hlow, hhigh⟩ := h.resolve_left hne
  refine ⟨⟨mantissa x, getExpo x, getExpo_lt hx, hlow, hhigh⟩, ?_⟩
  have hw := word_eq ⟨mantissa x, getExpo x, getExpo_lt hx, hlow, hhigh⟩
  have he := getExpo_eq hx
  dsimp only at hw
  generalize word _ = w at hw ⊢
  have hm : mantissa x = (x % 2 ^ 27 : ℕ) - if x < 2 ^ 35 then 0 else 2 ^ 27 := rfl
  rcases Nat.lt_or_ge x (2 ^ 35) with hlt | hge
  · rw [if_pos hlt] at hm he
    rw [if_neg (by omega)] at hw
    omega
  · rw [if_neg (not_lt.mpr hge)] at hm he
    rw [if_pos (by omega)] at hw
    lia

lemma value_ne_zero : n.value ≠ 0 := by
  have hm : n.m ≠ 0 := by
    have hrange := n.m_range
    omega
  have hcast : (n.m : ℚ) ≠ 0 := by exact_mod_cast hm
  exact mul_ne_zero hcast (by positivity)

end Number

lemma value_zero : value 0 = 0 := by
  rw [value, show mantissa 0 = 0 from rfl, Int.cast_zero, zero_mul]

/-- The numbers that normalized words stand for. -/
def numbers : Set ℚ := {r | ∃ x < 2 ^ 36, Normalized x ∧ value x = r}

lemma Number.value_mem (n : Number) : n.value ∈ numbers := ⟨n.word, n.word_lt, n.normalized, n.value_word⟩

lemma zero_mem_numbers : (0 : ℚ) ∈ numbers := ⟨0, by decide, .inl rfl, value_zero⟩

/-- They have 27 bits. -/
lemma numbers_digits {r : ℚ} (hr : r ∈ numbers) : r ∈ Floating.Digits 2 27 := by
  obtain ⟨x, -, -, rfl⟩ := hr
  obtain ⟨hlow, hhigh⟩ := mantissa_range x
  refine ⟨mantissa x, getExpo x - 155, ?_, rfl⟩
  rw [abs_le]
  push_cast
  omega

/-- **No number is between two that follow each other.** -/
theorem numbers_gap {r : ℚ} (hr : r ∈ numbers) {m : ℤ} (hm : 2 ^ 26 ≤ m ∧ m < 2 ^ 27 ∨ -2 ^ 27 ≤ m ∧ m < -2 ^ 26) (k : ℤ) :
    r ≤ m * 2 ^ k ∨ (m + 1) * 2 ^ k ≤ r := by
  have hdigits := numbers_digits hr
  rcases hm with ⟨hlow, -⟩ | ⟨-, hhigh⟩
  · have hgap := Floating.gap (k := k) le_rfl hdigits (q := m) (by exact_mod_cast hlow)
    push_cast at hgap
    exact hgap
  · have hgap := Floating.gap (k := k) le_rfl (Floating.Digits.neg hdigits) (q := -m - 1) (by push_cast; omega)
    push_cast at hgap
    rcases hgap with h | h
    · right
      linarith
    · left
      linarith

end Ka10Simh.Pdp10.Fp
