import Mathlib.Tactic

/-!
Multiplication and division that go through one number bit by bit.

* `BitSerial.mulStep`: a shift to the right that adds the other factor at the top for a one that falls out.
* `BitSerial.mul_loop`: as many turns as the number has bits give the product.
* `BitSerial.highStep`, `BitSerial.high_run`: a multiplication that keeps the upper half of the product only.
* `BitSerial.divStep`: a shift to the left that takes the divisor away where it goes.
* `BitSerial.Divided.step`, `BitSerial.div_loop`: a turn, and all of them, give the quotient and the remainder.
-/

namespace BitSerial

/-! ### Multiplication -/

section Mul

variable {m w q n : ℕ}

/-- A turn: the lowest bit of the register decides if `m` is added above its `w` low bits. -/
def mulStep (m w t : ℕ) : ℕ := t / 2 + t % 2 * m * 2 ^ w

/-- After `n` turns the register has the product with the `n` low bits, and the other bits. -/
lemma mul_run (m q : ℕ) (hn : n ≤ w + 1) :
    (mulStep m w)^[n] q = q / 2 ^ n + m * (q % 2 ^ n) * 2 ^ (w + 1 - n) := by
  induction n with
  | zero => simp [Nat.mod_one]
  | succ n ih =>
      have hpow : 2 ^ (w + 1 - n) = 2 * 2 ^ (w - n) := by rw [← pow_succ', show w - n + 1 = w + 1 - n by lia]
      have hhigh : 2 ^ n * 2 ^ (w - n) = 2 ^ w := by rw [← pow_add, show n + (w - n) = w by omega]
      have hmod : q % 2 ^ (n + 1) = q % 2 ^ n + 2 ^ n * (q / 2 ^ n % 2) := by rw [pow_succ, Nat.mod_mul]
      have hdiv : q / 2 ^ (n + 1) = q / 2 ^ n / 2 := by rw [pow_succ, Nat.div_div_eq_div_mul]
      rw [Function.iterate_succ_apply', ih (by omega), mulStep, hpow, hmod, hdiv, show w + 1 - (n + 1) = w - n by lia]
      -- the part that is there already is even, and the next bit of `q` is the lowest one
      have heven : m * (q % 2 ^ n) * (2 * 2 ^ (w - n)) = 2 * (m * (q % 2 ^ n) * 2 ^ (w - n)) := by ring
      have hnew : m * (q % 2 ^ n + 2 ^ n * (q / 2 ^ n % 2)) * 2 ^ (w - n)
          = m * (q % 2 ^ n) * 2 ^ (w - n) + q / 2 ^ n % 2 * m * 2 ^ w := by
        rw [← hhigh]
        ring
      rw [heven, hnew, Nat.add_mul_mod_self_left, Nat.add_mul_div_left _ _ two_pos, Nat.add_assoc]

/-- **All bits give the product.** -/
theorem mul_loop (m : ℕ) (hq : q < 2 ^ (w + 1)) : (mulStep m w)^[w + 1] q = m * q := by
  rw [mul_run m q le_rfl, Nat.div_eq_of_lt hq, Nat.mod_eq_of_lt hq, Nat.sub_self, pow_zero, Nat.mul_one, Nat.zero_add]

/-- A turn that drops the lowest bit of the product. -/
def highStep (m : ℕ) : ℕ × ℕ → ℕ × ℕ
  | (q, r) => (q / 2, (r + q % 2 * m) / 2)

/-- **The upper half of the product**: what is dropped has no effect on it. -/
theorem high_run (m q n : ℕ) : (highStep m)^[n] (q, 0) = (q / 2 ^ n, q % 2 ^ n * m / 2 ^ n) := by
  induction n with
  | zero => simp [Nat.mod_one]
  | succ n ih =>
      have hmod : q % 2 ^ (n + 1) = q % 2 ^ n + 2 ^ n * (q / 2 ^ n % 2) := by rw [pow_succ, Nat.mod_mul]
      rw [Function.iterate_succ_apply', ih, highStep, hmod, pow_succ, ← Nat.div_div_eq_div_mul, ← Nat.div_div_eq_div_mul,
        Nat.add_mul, mul_assoc (2 ^ n), Nat.add_mul_div_left _ _ (by positivity)]

end Mul

/-! ### Division -/

section Div

variable {d w n k : ℕ} {p : ℕ × ℕ}

/-- A turn: the two registers go one to the left, and the divisor is taken from the first one where it goes. -/
def divStep (d w : ℕ) : ℕ × ℕ → ℕ × ℕ
  | (h, l) =>
    if d ≤ 2 * h + 2 * l / 2 ^ w then (2 * h + 2 * l / 2 ^ w - d, 2 * l % 2 ^ w + 1)
    else (2 * h + 2 * l / 2 ^ w, 2 * l % 2 ^ w)

/-- The first register stays below the divisor. -/
lemma divStep_lt (hp : p.1 < d) (hl : p.2 < 2 ^ w) : (divStep d w p).1 < d := by
  obtain ⟨h, l⟩ := p
  have hbit : 2 * l / 2 ^ w < 2 := Nat.div_lt_of_lt_mul (by omega)
  dsimp only at hp
  rw [divStep]
  split_ifs with hle
  · dsimp only
    omega
  · dsimp only
    omega

/-- The registers after `k` of the `w` turns, with `k` bits of the quotient in `q`. -/
structure Divided (d w n k : ℕ) (p : ℕ × ℕ) (q : ℕ) : Prop where
  quot : q < 2 ^ k
  low : p.2 = n % 2 ^ (w - k) * 2 ^ k + q
  eq : n / 2 ^ (w - k) = q * d + p.1
  lt : p.1 < d

variable {q : ℕ}

/-- **A turn gives one more bit of the quotient.** -/
lemma Divided.step (h : Divided d w n k p q) (hk : k < w) : ∃ q', Divided d w n (k + 1) (divStep d w p) q' := by
  obtain ⟨hi, lo⟩ := p
  obtain ⟨hquot, hlow, heq, hlt⟩ := h
  dsimp only at hlow heq hlt
  obtain ⟨j, rfl⟩ : ∃ j, w = k + (j + 1) := ⟨w - k - 1, by omega⟩
  rw [show k + (j + 1) - k = j + 1 by lia] at hlow heq
  have hmod : n % 2 ^ (j + 1) = n % 2 ^ j + 2 ^ j * (n / 2 ^ j % 2) := by rw [pow_succ, Nat.mod_mul]
  have hdiv : n / 2 ^ j = 2 * (n / 2 ^ (j + 1)) + n / 2 ^ j % 2 := by
    rw [pow_succ, ← Nat.div_div_eq_div_mul]
    lia
  have hbit : n / 2 ^ j % 2 < 2 := Nat.mod_lt _ two_pos
  have hrest : n % 2 ^ j * 2 ^ (k + 1) + 2 * q < 2 ^ (k + (j + 1)) := by
    have hpow : 2 ^ (k + (j + 1)) = 2 ^ j * 2 ^ (k + 1) := by rw [← pow_add, show k + (j + 1) = j + (k + 1) by omega]
    have hle : n % 2 ^ j * 2 ^ (k + 1) + 2 ^ (k + 1) ≤ 2 ^ j * 2 ^ (k + 1) := by
      rw [← Nat.succ_mul]
      exact Nat.mul_le_mul_right _ (Nat.mod_lt _ (Nat.two_pow_pos j))
    have htwo : 2 ^ (k + 1) = 2 * 2 ^ k := pow_succ' 2 k
    rw [hpow]
    lia
  have hdouble : 2 * lo = n % 2 ^ j * 2 ^ (k + 1) + 2 * q + 2 ^ (k + (j + 1)) * (n / 2 ^ j % 2) := by
    rw [hlow, hmod, show k + (j + 1) = j + (k + 1) by omega, pow_add 2 j, pow_succ' 2 k]
    ring
  have htop : 2 * lo / 2 ^ (k + (j + 1)) = n / 2 ^ j % 2 := by
    rw [hdouble, Nat.add_mul_div_left _ _ (Nat.two_pow_pos _), Nat.div_eq_of_lt hrest, Nat.zero_add]
  have hbottom : 2 * lo % 2 ^ (k + (j + 1)) = n % 2 ^ j * 2 ^ (k + 1) + 2 * q := by
    rw [hdouble, Nat.add_mul_mod_self_left, Nat.mod_eq_of_lt hrest]
  have hnext : n / 2 ^ j = 2 * q * d + (2 * hi + n / 2 ^ j % 2) := by
    rw [Nat.mul_assoc]
    lia
  have hj : k + (j + 1) - (k + 1) = j := by lia
  have hpos := pow_succ' 2 k
  rw [divStep, htop, hbottom]
  by_cases hle : d ≤ 2 * hi + n / 2 ^ j % 2
  · refine ⟨2 * q + 1, ?_⟩
    rw [if_pos hle]
    refine ⟨by omega, ?_, ?_, ?_⟩
    · rw [hj, Nat.add_assoc]
    · rw [hj, hnext, Nat.add_mul, Nat.one_mul]
      dsimp only
      lia
    · dsimp only
      lia
  · refine ⟨2 * q, ?_⟩
    rw [if_neg hle]
    refine ⟨by omega, ?_, ?_, ?_⟩
    · rw [hj]
    · rw [hj]
      exact hnext
    · dsimp only
      lia

/-- **All turns give the quotient and the remainder.** -/
theorem div_loop {h l : ℕ} (hl : l < 2 ^ w) (hd : h < d) :
    h * 2 ^ w + l = ((divStep d w)^[w] (h, l)).2 * d + ((divStep d w)^[w] (h, l)).1 ∧
      ((divStep d w)^[w] (h, l)).1 < d ∧ ((divStep d w)^[w] (h, l)).2 < 2 ^ w := by
  have hrun : ∀ k ≤ w, ∃ q, Divided d w (h * 2 ^ w + l) k ((divStep d w)^[k] (h, l)) q := by
    intro k
    induction k with
    | zero =>
        intro _
        refine ⟨0, by norm_num, ?_, ?_, hd⟩
        · rw [Nat.sub_zero, Nat.mul_add_mod', Nat.mod_eq_of_lt hl, pow_zero, Nat.mul_one]
          rfl
        · rw [Nat.sub_zero, Nat.add_comm, Nat.add_mul_div_right _ _ (Nat.two_pow_pos w), Nat.div_eq_of_lt hl, Nat.zero_mul]
          rfl
    | succ k ih =>
        intro hk
        obtain ⟨q, hq⟩ := ih (by omega)
        rw [Function.iterate_succ_apply']
        exact hq.step (by omega)
  obtain ⟨q, hquot, hlow, heq, hlt⟩ := hrun w le_rfl
  rw [Nat.sub_self, pow_zero, Nat.mod_one, Nat.zero_mul, Nat.zero_add] at hlow
  rw [Nat.sub_self, pow_zero, Nat.div_one] at heq
  rw [hlow]
  exact ⟨heq, hlt, hquot⟩

end Div

end BitSerial
