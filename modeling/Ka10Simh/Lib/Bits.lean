import Mathlib.Tactic
import Mathlib.Data.Nat.Bitwise

/-!
Machine words as natural numbers: single bits, the clearing of bits, masks, and the union of
the words of a list.
-/

namespace Word

/-- `w & ~m`: the bits of `w` that are not in `m`. -/
def bic (w m : ℕ) : ℕ := w ^^^ (w &&& m)

@[simp] lemma testBit_bic (w m k : ℕ) : (bic w m).testBit k = (w.testBit k && !m.testBit k) := by
  rw [bic, Nat.testBit_xor, Nat.testBit_and]
  cases w.testBit k <;> cases m.testBit k <;> rfl

/-- Testing a word against a single bit. -/
lemma and_two_pow_ne_zero {w k : ℕ} : w &&& 2 ^ k ≠ 0 ↔ w.testBit k = true := by
  rw [Nat.and_two_pow]
  cases h : w.testBit k <;> simp

lemma and_two_pow_eq_zero {w k : ℕ} : w &&& 2 ^ k = 0 ↔ w.testBit k = false := by
  rw [← not_iff_not, ← ne_eq, and_two_pow_ne_zero, Bool.not_eq_false]

lemma and_pow_ne_zero (v n : ℕ) : v &&& 2 ^ n ≠ 0 ↔ v / 2 ^ n % 2 = 1 := by
  rw [and_two_pow_ne_zero, Nat.testBit_eq_decide_div_mod_eq, decide_eq_true_iff]

/-- Two words agree below bit `n` when they have the same bits there. -/
lemma and_mask_eq_iff {v w n : ℕ} :
    v &&& (2 ^ n - 1) = w &&& (2 ^ n - 1) ↔ ∀ k < n, v.testBit k = w.testBit k := by
  constructor
  · intro h k hk
    have hbit := congrArg (Nat.testBit · k) h
    simpa [Nat.testBit_and, Nat.testBit_two_pow_sub_one, hk] using hbit
  · intro h
    refine Nat.eq_of_testBit_eq fun k => ?_
    by_cases hk : k < n
    · simp [h k hk]
    · simp [hk]

/-- The union of words that have no bit in common is their sum. -/
lemma or_eq_add {a b i : ℕ} (ha : 2 ^ i ∣ a) (hb : b < 2 ^ i) : a ||| b = a + b := by
  obtain ⟨k, rfl⟩ := ha
  exact (Nat.two_pow_add_eq_or_of_lt hb k).symm

lemma shiftLeft_or_eq {a b i : ℕ} (hb : b < 2 ^ i) : a <<< i ||| b = a * 2 ^ i + b := by
  rw [Nat.shiftLeft_eq, or_eq_add (Dvd.intro_left a rfl) hb]

/-- The bits of a word under a shifted mask. -/
lemma and_shiftLeft (w m i : ℕ) : w &&& m <<< i = (w >>> i &&& m) <<< i := by
  refine Nat.eq_of_testBit_eq fun k => ?_
  rw [Nat.testBit_and, Nat.testBit_shiftLeft, Nat.testBit_shiftLeft, Nat.testBit_and,
    Nat.testBit_shiftRight]
  rcases Nat.lt_or_ge k i with hk | hk
  · simp [Nat.not_le.mpr hk]
  · simp [hk]

lemma or_shiftLeft_eq {a b i : ℕ} (ha : a < 2 ^ i) : a ||| b <<< i = a + b * 2 ^ i := by
  rw [Nat.or_comm, shiftLeft_or_eq ha, Nat.add_comm]

/-- A word with its low bits cleared. -/
lemma bic_low (v n : ℕ) : bic v (2 ^ n - 1) = v / 2 ^ n * 2 ^ n := by
  rw [← Nat.shiftRight_eq_div_pow, ← Nat.shiftLeft_eq]
  refine Nat.eq_of_testBit_eq fun k => ?_
  rw [testBit_bic, Nat.testBit_shiftLeft, Nat.testBit_shiftRight, Nat.testBit_two_pow_sub_one]
  rcases Nat.lt_or_ge k n with hk | hk
  · simp [hk, Nat.not_le.mpr hk]
  · simp [hk, Nat.not_lt.mpr hk]

/-- The complement of a word of `n` bits. -/
lemma mask_xor {w n : ℕ} (hw : w < 2 ^ n) : (2 ^ n - 1) ^^^ w = 2 ^ n - 1 - w := by
  have hnot := BitVec.toNat_not (x := BitVec.ofNat n w)
  rwa [← BitVec.allOnes_xor, BitVec.toNat_xor, BitVec.toNat_allOnes, BitVec.toNat_ofNat,
    Nat.mod_eq_of_lt hw] at hnot

/-- Setting the lowest bit adds one at most. -/
lemma or_one_le (n : ℕ) : n ||| 1 ≤ n + 1 := by
  have hset : ∀ k, 2 * k ||| 1 = 2 * k + 1 := fun k =>
    (Nat.two_pow_add_eq_or_of_lt (i := 1) (b := 1) (by norm_num) k).symm
  obtain ⟨k, rfl | rfl⟩ := Nat.even_or_odd' n
  · rw [hset]
  · rw [← hset, Nat.or_assoc, Nat.or_self]
    omega

/-- A word all of whose bits are clear is zero. -/
lemma eq_zero_iff_testBit {w : ℕ} : w = 0 ↔ ∀ k, w.testBit k = false :=
  ⟨fun h k => by rw [h, Nat.zero_testBit], Nat.zero_of_testBit_eq_false⟩

/-- The bits of the union of the words `f i` over a list. -/
lemma testBit_foldl_or {α : Type*} (f : α → ℕ) (l : List α) (a k : ℕ) :
    (l.foldl (fun w i => w ||| f i) a).testBit k
      = (a.testBit k || l.any fun i => (f i).testBit k) := by
  induction l generalizing a with
  | nil => simp
  | cons i l ih => rw [List.foldl_cons, ih, Nat.testBit_or, List.any_cons, Bool.or_assoc]

end Word
