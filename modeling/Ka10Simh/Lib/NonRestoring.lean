import Mathlib.Tactic

/-!
Division without restoring: the divisor is taken from the number or added to it, by the last bit of the quotient.

* `NonRestoring.Between`: a number is divided by `d`, up to the last bit of its quotient.
* `NonRestoring.step`: the next bit of the number goes in, and one bit of the quotient comes out.
* `NonRestoring.last`: the last bit of the quotient and the remainder.
-/

namespace NonRestoring

/-- The number `p` is divided by `d`: `q` is its quotient without the last bit. -/
def Between (d p q : ℤ) : Prop := 0 ≤ p - 2 * q * d ∧ p - 2 * q * d < 2 * d

/-- What is left when the divisor is taken away once more; its sign gives the last bit. -/
def trial (d p q : ℤ) : ℤ := p - 2 * q * d - d
def bit (d p q : ℤ) : ℤ := if 0 ≤ trial d p q then 1 else 0

variable {d p q b : ℤ}

lemma bit_eq (d p q : ℤ) : bit d p q = 0 ∨ bit d p q = 1 := by
  rw [bit]
  split <;> simp

/-- A number below the divisor has the quotient zero. -/
theorem start (h0 : 0 ≤ p) (h : p < d) : Between d p 0 := by
  constructor <;> linarith

/-- The difference stays between the divisor and its negative. -/
theorem trial_bounds (h : Between d p q) : -d ≤ trial d p q ∧ trial d p q < d := by
  obtain ⟨h0, h1⟩ := h
  rw [trial]
  constructor <;> linarith

/-- What the register holds after the difference has been shifted: it still owes the divisor when the bit was zero. -/
theorem register (d p q b : ℤ) : 2 * trial d p q + b
    = (2 * p + b) - 2 * (2 * q + bit d p q) * d - (if bit d p q = 1 then 0 else 2 * d) := by
  rcases bit_eq d p q with h | h
  · rw [h, if_neg (by norm_num), trial]
    ring
  · rw [h, if_pos rfl, trial]
    ring

/-- **One bit of the quotient.** -/
theorem step (hb : b = 0 ∨ b = 1) (h : Between d p q) : Between d (2 * p + b) (2 * q + bit d p q) := by
  obtain ⟨h0, h1⟩ := h
  rw [Between, bit]
  split_ifs with ht
  · rw [trial] at ht
    constructor <;> rcases hb with rfl | rfl <;> nlinarith
  · rw [trial, not_le] at ht
    constructor <;> rcases hb with rfl | rfl <;> nlinarith

/-- **The last bit of the quotient, and the remainder.** -/
theorem last (h : Between d p q) : p = (2 * q + bit d p q) * d + (trial d p q + if 0 ≤ trial d p q then 0 else d) ∧
    0 ≤ trial d p q + (if 0 ≤ trial d p q then 0 else d) ∧
    trial d p q + (if 0 ≤ trial d p q then 0 else d) < d := by
  obtain ⟨hlo, hhi⟩ := trial_bounds h
  rw [bit]
  split_ifs with ht
  · refine ⟨?_, by linarith, by linarith⟩
    rw [trial]
    ring
  · refine ⟨?_, by linarith, by linarith⟩
    rw [trial]
    ring

end NonRestoring
