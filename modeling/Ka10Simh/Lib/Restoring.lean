import Mathlib.Tactic

/-!
Division with restoring: the number is doubled in every step, and the divisor is taken away when it is not greater.

* `Restoring.step`: one bit of the quotient. The divisor has the weight `b`.
* `Restoring.run`: what is left and the quotient after some steps.
* `Restoring.quotient`: after as many steps as `b` has bits the quotient and the remainder are those of the number.
-/

namespace Restoring

/-- A number and the quotient so far. -/
def step (b d : ℕ) (s : ℕ × ℕ) : ℕ × ℕ :=
  if b * d ≤ 2 * s.1 then (2 * s.1 - b * d, 2 * s.2 + 1) else (2 * s.1, 2 * s.2)

variable {b d : ℕ} {s : ℕ × ℕ}

/-- The number stays below the divisor. -/
lemma step_lt (h : s.1 < b * d) : (step b d s).1 < b * d := by
  rw [step]
  split_ifs with hle <;> dsimp only <;> omega

/-- What a step takes away is in the quotient. -/
lemma step_eq (b d : ℕ) (s : ℕ × ℕ) :
    ∃ q < 2, (step b d s).1 + b * d * q = 2 * s.1 ∧ (step b d s).2 = 2 * s.2 + q := by
  rw [step]
  split_ifs with hle
  · exact ⟨1, by norm_num, by dsimp only; omega, rfl⟩
  · exact ⟨0, by norm_num, by dsimp only; omega, rfl⟩

/-- **Some steps.** -/
theorem run (h : s.1 < b * d) (n : ℕ) : ((step b d)^[n] s).1 < b * d ∧
    ∃ q < 2 ^ n, ((step b d)^[n] s).1 + b * d * q = 2 ^ n * s.1 ∧ ((step b d)^[n] s).2 = 2 ^ n * s.2 + q := by
  induction n with
  | zero => exact ⟨h, 0, by norm_num, by simp, by simp⟩
  | succ n ih =>
      obtain ⟨hlt, q, hq, hleft, hquotient⟩ := ih
      rw [Function.iterate_succ_apply']
      obtain ⟨p, hp, hstep, hbit⟩ := step_eq b d ((step b d)^[n] s)
      refine ⟨step_lt hlt, 2 * q + p, by rw [pow_succ]; lia, ?_, ?_⟩
      · calc (step b d ((step b d)^[n] s)).1 + b * d * (2 * q + p)
            = ((step b d ((step b d)^[n] s)).1 + b * d * p) + 2 * (b * d * q) := by ring
          _ = 2 * (((step b d)^[n] s).1 + b * d * q) := by rw [hstep]; ring
          _ = 2 ^ (n + 1) * s.1 := by rw [hleft]; ring
      · rw [hbit, hquotient]
        ring

/-- **All the steps**: the quotient, and the remainder with the weight of the divisor. -/
theorem quotient {n a : ℕ} (h : a < 2 ^ n * d) :
    ((step (2 ^ n) d)^[n] (a, 0)).1 = 2 ^ n * (a % d) ∧ ((step (2 ^ n) d)^[n] (a, 0)).2 = a / d := by
  obtain ⟨hlt, q, -, hleft, hquotient⟩ := run (s := (a, 0)) h n
  have htaken : 2 ^ n ∣ 2 ^ n * d * q := ⟨d * q, by ring⟩
  have hdvd : 2 ^ n ∣ ((step (2 ^ n) d)^[n] (a, 0)).1 := (Nat.dvd_add_left htaken).mp ⟨a, hleft⟩
  obtain ⟨r, hr⟩ := hdvd
  have hpos : 0 < 2 ^ n := Nat.two_pow_pos n
  have hrd : r < d := Nat.lt_of_mul_lt_mul_left (a := 2 ^ n) (by rw [← hr]; exact hlt)
  have hnumber : r + d * q = a := by
    refine Nat.eq_of_mul_eq_mul_left hpos ?_
    rw [← hleft, hr]
    ring
  rw [hr, hquotient]
  dsimp only
  constructor
  · rw [← hnumber, Nat.add_mul_mod_self_left, Nat.mod_eq_of_lt hrd]
  · rw [← hnumber, Nat.add_mul_div_left _ _ (by omega), Nat.div_eq_of_lt hrd]
    omega

end Restoring
