import Mathlib.Tactic
import Mathlib.Algebra.BigOperators.Intervals

/-!
Numbers of some digits, from the lowest up, in an array.

* `Numeral.num`: the value of the first digits.
* `Numeral.num_div`, `Numeral.num_mod`, `Numeral.num_digit`: its parts.
* `Numeral.num_nines`: the complement.
* `Numeral.ripple`: digits that are added in their place, with a carry.
* `Numeral.ripple_spec`: their value.
-/

namespace Numeral

open Finset

/-- The value of `n` digits. -/
def num (b n : ℕ) (f : ℕ → ℕ) : ℕ := ∑ i ∈ range n, f i * b ^ i

section Values

variable {b m n : ℕ} {f g : ℕ → ℕ}

@[simp] lemma num_zero (b : ℕ) (f : ℕ → ℕ) : num b 0 f = 0 := rfl

lemma num_succ (b n : ℕ) (f : ℕ → ℕ) : num b (n + 1) f = num b n f + f n * b ^ n := sum_range_succ _ n

lemma num_one (b : ℕ) (f : ℕ → ℕ) : num b 1 f = f 0 := by simp [num]

lemma num_congr (h : ∀ i < n, f i = g i) : num b n f = num b n g :=
  sum_congr rfl fun i hi ↦ by rw [h i (mem_range.mp hi)]

/-- The lower digits and the upper ones. -/
lemma num_add (b m n : ℕ) (f : ℕ → ℕ) : num b (m + n) f = num b m f + b ^ m * num b n (fun i ↦ f (m + i)) := by
  rw [num, sum_range_add, num, num, mul_sum]
  congr 1
  refine sum_congr rfl fun i _ ↦ ?_
  rw [pow_add]
  ring

/-- The lowest digit. -/
lemma num_succ' (b n : ℕ) (f : ℕ → ℕ) : num b (n + 1) f = f 0 + b * num b n (fun i ↦ f (i + 1)) := by
  rw [add_comm n 1, num_add, num_one, pow_one]
  simp only [add_comm 1]

lemma num_fun_add (b n : ℕ) (f g : ℕ → ℕ) : num b n (fun i ↦ f i + g i) = num b n f + num b n g := by
  rw [num, num, num, ← sum_add_distrib]
  exact sum_congr rfl fun i _ ↦ add_mul _ _ _

/-- The digits above are zero. -/
lemma num_extend (h : ∀ i, n ≤ i → f i = 0) (m : ℕ) : num b (n + m) f = num b n f := by
  have habove : num b m (fun i ↦ f (n + i)) = 0 := sum_eq_zero fun i _ ↦ by
    dsimp only
    rw [h _ (by omega), zero_mul]
  rw [num_add, habove, mul_zero, add_zero]

lemma num_lt (h : ∀ i < n, f i < b) : num b n f < b ^ n := by
  induction n with
  | zero => simp
  | succ n ih =>
      have hlow := ih fun i hi ↦ h i (by omega)
      have htop : (f n + 1) * b ^ n ≤ b * b ^ n := Nat.mul_le_mul_right _ (h n (by omega))
      rw [num_succ, pow_succ']
      linarith

lemma num_mod (h : ∀ i < m, f i < b) (n : ℕ) : num b (m + n) f % b ^ m = num b m f := by
  rw [num_add, Nat.add_mul_mod_self_left, Nat.mod_eq_of_lt (num_lt h)]

lemma num_div (h : ∀ i < m, f i < b) (n : ℕ) : num b (m + n) f / b ^ m = num b n (fun i ↦ f (m + i)) := by
  have hlt := num_lt h
  rw [num_add, Nat.add_mul_div_left _ _ (by omega), Nat.div_eq_of_lt hlt, zero_add]

/-- **A digit of the number.** -/
theorem num_digit (h : ∀ i < n, f i < b) {i : ℕ} (hi : i < n) : num b n f / b ^ i % b = f i := by
  obtain ⟨k, rfl⟩ := Nat.exists_eq_add_of_lt hi
  rw [add_assoc, num_div (fun j hj ↦ h j (by omega)), num_succ', Nat.add_mul_mod_self_left, Nat.mod_eq_of_lt]
  · rfl
  · exact h _ (by omega)

/-- The digits of a number. -/
lemma num_digits (b n v : ℕ) : num b n (fun i ↦ v / b ^ i % b) = v % b ^ n := by
  induction n with
  | zero => simp [Nat.mod_one]
  | succ n ih =>
      rw [num_succ, ih, pow_succ, Nat.mod_mul]
      ring

lemma num_eq_zero (hb : 0 < b) : num b n f = 0 ↔ ∀ i < n, f i = 0 := by
  rw [num, sum_eq_zero_iff]
  constructor
  · intro h i hi
    exact (Nat.mul_eq_zero.mp (h i (mem_range.mpr hi))).resolve_right (pow_pos hb i).ne'
  · intro h i hi
    rw [h i (mem_range.mp hi), zero_mul]

/-- **The complement** of every digit gives the complement of the number. -/
theorem num_nines (h : ∀ i < n, f i < b) : num b n (fun i ↦ b - 1 - f i) + num b n f + 1 = b ^ n := by
  induction n with
  | zero => simp
  | succ n ih =>
      have hdigit := h n (by omega)
      have hlow := ih fun i hi ↦ h i (by omega)
      have htop : (b - 1 - f n) * b ^ n + f n * b ^ n + b ^ n = b * b ^ n := by
        rw [← add_mul, ← Nat.succ_mul]
        congr 1
        omega
      rw [num_succ, num_succ, pow_succ']
      linarith

end Values

/-! ### Addition -/

/-- The digits, the carry, and whether all digits were zero. -/
structure Pass where
  a : ℕ → ℕ
  cy : ℕ
  zero : Bool

/-- The digits from `i` on are replaced: each becomes the lower part of a term and the carry. -/
def ripple (adjust : ℕ → ℕ × ℕ) (term : (ℕ → ℕ) → ℕ → ℕ) : ℕ → ℕ → Pass → Pass
  | 0, _, p => p
  | n + 1, i, p =>
      let acc := adjust (term p.a i + p.cy)
      ripple adjust term n (i + 1) ⟨Function.update p.a i acc.1, acc.2, p.zero && acc.1 == 0⟩

variable {adjust : ℕ → ℕ × ℕ} {term : (ℕ → ℕ) → ℕ → ℕ} {b n i : ℕ}

/-- Some digits, and then some more. -/
lemma ripple_append (m n i : ℕ) (p : Pass) :
    ripple adjust term (m + n) i p = ripple adjust term n (i + m) (ripple adjust term m i p) := by
  induction m generalizing i p with
  | zero => rw [Nat.zero_add]; rfl
  | succ m ih =>
      rw [Nat.succ_add, ripple, ripple, ih, add_assoc, add_comm 1]

/-- A term has digits of its place and above only. -/
def Upward (term : (ℕ → ℕ) → ℕ → ℕ) : Prop := ∀ i a a', (∀ k, i ≤ k → a' k = a k) → term a' i = term a i

/-- What the digits have become. -/
structure Rippled (b n i : ℕ) (t : ℕ → ℕ) (p q : Pass) : Prop where
  below : ∀ k < i, q.a k = p.a k
  above : ∀ k, i + n ≤ k → q.a k = p.a k
  digit : ∀ k < n, q.a (i + k) < b
  carry : q.cy ≤ 1
  value : num b n (fun k ↦ q.a (i + k)) + b ^ n * q.cy = num b n (fun k ↦ t (i + k)) + p.cy
  zero : q.zero = true ↔ p.zero = true ∧ num b n (fun k ↦ q.a (i + k)) = 0

/-- **The carry runs through all digits**, and the value is that of the terms. -/
theorem ripple_spec (hb : 2 ≤ b) (hadjust : ∀ x < 2 * b, adjust x = (x % b, x / b)) (hup : Upward term) {p : Pass}
    (hterm : ∀ k < n, term p.a (i + k) ≤ 2 * b - 2) (hcy : p.cy ≤ 1) :
    Rippled b n i (term p.a) p (ripple adjust term n i p) := by
  induction n generalizing i p with
  | zero => exact ⟨fun k _ ↦ rfl, fun k _ ↦ rfl, fun k hk ↦ absurd hk (by omega), hcy, by simp [ripple], by simp [ripple]⟩
  | succ n ih =>
      have hfirst := hterm 0 (by omega)
      rw [add_zero] at hfirst
      have hacc := hadjust (term p.a i + p.cy) (by omega)
      have hsame (k : ℕ) (hk : i < k) (d : ℕ) : term (Function.update p.a i d) k = term p.a k :=
        hup k _ _ fun j hj ↦ Function.update_of_ne (by omega) ..
      have hcarry : (term p.a i + p.cy) / b ≤ 1 := by
        rw [← Nat.lt_succ_iff]
        exact Nat.div_lt_of_lt_mul (by omega)
      rw [ripple, hacc]
      dsimp only
      obtain ⟨hbelow, habove, hdigit, hcy', hvalue, hzero⟩ := ih (i := i + 1)
        (p := ⟨Function.update p.a i ((term p.a i + p.cy) % b), (term p.a i + p.cy) / b,
          p.zero && (term p.a i + p.cy) % b == 0⟩)
        (fun k hk ↦ by
          rw [hsame _ (by omega), add_assoc, add_comm 1]
          exact hterm (k + 1) (by omega)) hcarry
      generalize ripple adjust term n (i + 1) _ = q at *
      dsimp only at hbelow habove hvalue hzero
      have hhere : q.a i = (term p.a i + p.cy) % b := by
        rw [hbelow i (by omega), Function.update_self]
      have hlow : num b (n + 1) (fun k ↦ q.a (i + k)) = (term p.a i + p.cy) % b + b * num b n (fun k ↦ q.a (i + 1 + k)) := by
        rw [num_succ', ← hhere]
        simp only [add_zero, add_assoc, add_comm 1]
      refine ⟨fun k hk ↦ ?_, fun k hk ↦ ?_, fun k hk ↦ ?_, hcy', ?_, ?_⟩
      · rw [hbelow k (by lia)]
        exact Function.update_of_ne (by lia) ..
      · rw [habove k (by lia)]
        exact Function.update_of_ne (by lia) ..
      · rcases Nat.eq_zero_or_pos k with rfl | hpos
        · rw [add_zero, hhere]
          exact Nat.mod_lt _ (by omega)
        · have hshift := hdigit (k - 1) (by lia)
          rwa [show i + 1 + (k - 1) = i + k by lia] at hshift
      · have hterms : num b n (fun k ↦ term (Function.update p.a i ((term p.a i + p.cy) % b)) (i + 1 + k)) =
            num b n (fun k ↦ term p.a (i + (k + 1))) := num_congr fun k hk ↦ by
          rw [hsame _ (by lia), add_assoc, add_comm 1]
        rw [hterms] at hvalue
        have hsplit := Nat.mod_add_div (term p.a i + p.cy) b
        rw [hlow, num_succ' b n fun k ↦ term p.a (i + k), pow_succ']
        rw [add_zero]
        calc (term p.a i + p.cy) % b + b * num b n (fun k ↦ q.a (i + 1 + k)) + b * b ^ n * q.cy
            = (term p.a i + p.cy) % b + b * (num b n (fun k ↦ q.a (i + 1 + k)) + b ^ n * q.cy) := by ring
          _ = (term p.a i + p.cy) % b + b * ((term p.a i + p.cy) / b) + b * num b n (fun k ↦ term p.a (i + (k + 1))) := by
              rw [hvalue]
              ring
          _ = _ := by
              rw [hsplit]
              ring
      · rw [hzero, hlow, Nat.add_eq_zero_iff, Nat.mul_eq_zero]
        simp only [Bool.and_eq_true, beq_iff_eq]
        constructor
        · rintro ⟨⟨hp, hd⟩, hn⟩
          exact ⟨hp, hd, .inr hn⟩
        · rintro ⟨hp, hd, hn⟩
          exact ⟨⟨hp, hd⟩, hn.resolve_left (by omega)⟩

end Numeral
