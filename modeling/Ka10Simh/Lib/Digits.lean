import Mathlib.Data.Nat.Digits.Lemmas
import Mathlib.Tactic

/-!
Digits from the highest down: each is a quotient by a power of the base, and what is left is the
remainder.

* `Digits.leading_eq`: these are the digits of a number when there are as many as it has.
* `Digits.read_numeral`: read from left to right they give the number again.
-/

namespace Digits

/-- The first `f` digits of a number below `b ^ f`. -/
def leading (b : ℕ) : ℕ → ℕ → List ℕ
  | 0, _ => []
  | f + 1, v => v / b ^ f :: leading b f (v % b ^ f)

/-- The digits of a number from left to right; zero has one. -/
def numeral (b v : ℕ) : List ℕ := if v = 0 then [0] else (Nat.digits b v).reverse

@[simp] lemma length_leading (b f v : ℕ) : (leading b f v).length = f := by
  induction f generalizing v with
  | zero => rfl
  | succ f ih => rw [leading, List.length_cons, ih]

variable {b : ℕ}

lemma pow_pos_of_lt {f v : ℕ} (hv : v < b ^ (f + 1)) : 0 < b ^ f := by
  rcases Nat.eq_zero_or_pos (b ^ f) with h | h
  · rw [pow_succ, h, Nat.zero_mul] at hv
    exact absurd hv (Nat.not_lt_zero v)
  · exact h

lemma leading_lt {f v : ℕ} (hv : v < b ^ f) {d : ℕ} (hd : d ∈ leading b f v) : d < b := by
  induction f generalizing v with
  | zero => exact absurd hd List.not_mem_nil
  | succ f ih =>
      have hpos := pow_pos_of_lt hv
      rcases List.mem_cons.mp hd with rfl | hd
      · exact Nat.div_lt_of_lt_mul (by rwa [pow_succ] at hv)
      · exact ih (Nat.mod_lt _ hpos) hd

lemma ofDigits_leading {f v : ℕ} (hv : v < b ^ f) : Nat.ofDigits b (leading b f v).reverse = v := by
  induction f generalizing v with
  | zero =>
      have hzero : v = 0 := by simpa using hv
      rw [hzero, leading, List.reverse_nil, Nat.ofDigits_nil]
  | succ f ih =>
      have hpos := pow_pos_of_lt hv
      rw [leading, List.reverse_cons, Nat.ofDigits_append, ih (Nat.mod_lt _ hpos),
        List.length_reverse, length_leading, Nat.ofDigits_singleton, Nat.mod_add_div]

/-- **The leading digits** are those of the number. -/
theorem leading_eq (hb : 1 < b) {v : ℕ} : leading b (max (Nat.digits b v).length 1) v = numeral b v := by
  rw [numeral]
  split_ifs with hv
  · rw [hv, Nat.digits_zero]
    simp [leading]
  · have hlen : max (Nat.digits b v).length 1 = (Nat.digits b v).length := by
      have hne : Nat.digits b v ≠ [] := Nat.digits_ne_nil_iff_ne_zero.mpr hv
      have hpos := List.length_pos_iff.mpr hne
      lia
    have hlt : v < b ^ (Nat.digits b v).length := Nat.lt_base_pow_length_digits hb
    rw [hlen, ← List.reverse_reverse (leading b _ v)]
    refine congrArg List.reverse (Nat.ofDigits_inj_of_len_eq hb ?_ ?_ ?_ ?_)
    · rw [List.length_reverse, length_leading]
    · exact fun d hd => leading_lt hlt (List.mem_reverse.mp hd)
    · exact fun d hd => Nat.digits_lt_base hb hd
    · rw [ofDigits_leading hlt, Nat.ofDigits_digits]

lemma numeral_lt (hb : 1 < b) {v d : ℕ} (hd : d ∈ numeral b v) : d < b := by
  rw [numeral] at hd
  split_ifs at hd
  · rw [List.mem_singleton.mp hd]
    omega
  · exact Nat.digits_lt_base hb (List.mem_reverse.mp hd)

/-- Digits read from left to right. -/
def read (b v : ℕ) (ds : List ℕ) : ℕ := ds.foldl (fun v d => v * b + d) v

lemma read_eq (v : ℕ) (ds : List ℕ) :
    read b v ds = v * b ^ ds.length + Nat.ofDigits b ds.reverse := by
  induction ds generalizing v with
  | nil => simp [read]
  | cons d ds ih =>
      rw [show read b v (d :: ds) = read b (v * b + d) ds from rfl, ih, List.reverse_cons,
        Nat.ofDigits_append, List.length_reverse, Nat.ofDigits_singleton, List.length_cons, pow_succ]
      ring

lemma le_read (hb : 0 < b) (v : ℕ) (ds : List ℕ) : v ≤ read b v ds := by
  have hpow : 0 < b ^ ds.length := Nat.pow_pos hb
  rw [read_eq]
  exact (Nat.le_mul_of_pos_right v hpow).trans (Nat.le_add_right _ _)

/-- **The digits of a number** read from left to right give it again. -/
theorem read_numeral (b v : ℕ) : read b 0 (numeral b v) = v := by
  rw [numeral]
  split_ifs with hv
  · rw [hv]
    simp [read]
  · rw [read_eq, List.reverse_reverse, Nat.ofDigits_digits, Nat.zero_mul, Nat.zero_add]

end Digits
