import Ka10Simh.Lib.Bits

/-!
Decimal digits of four bits each, and their doubling and halving with a few operations on words.

* `PackedDecimal.packed`: the digits of a number.
* `PackedDecimal.double_packed`: twice a number, with a digit that comes in; what does not fit goes on in binary above the digits.
* `PackedDecimal.halve_packed`: half a number.
-/

namespace PackedDecimal

/-- The lowest `n` digits of `v`. -/
def packed : ℕ → ℕ → ℕ
  | 0, _ => 0
  | n + 1, v => v % 10 + 16 * packed n (v / 10)

/-- A one in every digit. -/
def ones : ℕ → ℕ
  | 0 => 0
  | n + 1 => 1 + 16 * ones n

variable {n v u c : ℕ}

/-! ### Digits -/

lemma packed_succ (n v : ℕ) : packed (n + 1) v = v % 10 + 16 * packed n (v / 10) := rfl

lemma packed_lt (n v : ℕ) : packed n v < 16 ^ n := by
  induction n generalizing v with
  | zero => norm_num [packed]
  | succ n ih =>
      have hrest := ih (v / 10)
      rw [packed, pow_succ]
      omega

lemma packed_zero (n : ℕ) : packed n 0 = 0 := by
  induction n with
  | zero => rfl
  | succ n ih => rw [packed, Nat.zero_div, ih]

/-- The digits above are zero. -/
lemma packed_extend {m : ℕ} (h : v < 10 ^ n) (hm : n ≤ m) : packed m v = packed n v := by
  induction n generalizing v m with
  | zero =>
      have hzero : v = 0 := by omega
      rw [hzero, packed_zero, packed_zero]
  | succ n ih =>
      obtain ⟨m, rfl⟩ : ∃ k, m = k + 1 := ⟨m - 1, by omega⟩
      rw [packed, packed, ih (by rw [pow_succ] at h; omega) (by omega)]

/-- **A digit** of the number. -/
theorem packed_digit {i : ℕ} (hi : i < n) (v : ℕ) : packed n v / 16 ^ i % 16 = v / 10 ^ i % 10 := by
  induction i generalizing n v with
  | zero =>
      obtain ⟨n, rfl⟩ : ∃ k, n = k + 1 := ⟨n - 1, by omega⟩
      rw [packed]
      lia
  | succ i ih =>
      obtain ⟨n, rfl⟩ : ∃ k, n = k + 1 := ⟨n - 1, by omega⟩
      rw [packed, pow_succ', pow_succ', ← Nat.div_div_eq_div_mul, ← Nat.div_div_eq_div_mul,
        show (v % 10 + 16 * packed n (v / 10)) / 16 = packed n (v / 10) by lia]
      exact ih (by omega) (v / 10)

/-- A bitwise operation on the lowest digit and on the others. -/
lemma and_digit {x y m k : ℕ} (hx : x < 16) (hm : m < 16) : (x + 16 * y) &&& (m + 16 * k) = (x &&& m) + 16 * (y &&& k) := by
  have hlt : x &&& m < 2 ^ 4 := Nat.and_lt_two_pow x hm
  refine Nat.eq_of_testBit_eq fun i ↦ ?_
  rw [show (16 : ℕ) = 2 ^ 4 from rfl, add_comm x, add_comm m, add_comm (x &&& m), Nat.testBit_and,
    Nat.testBit_two_pow_mul_add _ hx, Nat.testBit_two_pow_mul_add _ hm, Nat.testBit_two_pow_mul_add _ hlt]
  split_ifs <;> rw [Nat.testBit_and]

lemma or_digit {x y m k : ℕ} (hx : x < 16) (hm : m < 16) : (x + 16 * y) ||| (m + 16 * k) = (x ||| m) + 16 * (y ||| k) := by
  have hlt : x ||| m < 2 ^ 4 := Nat.or_lt_two_pow hx hm
  refine Nat.eq_of_testBit_eq fun i ↦ ?_
  rw [show (16 : ℕ) = 2 ^ 4 from rfl, add_comm x, add_comm m, add_comm (x ||| m), Nat.testBit_or,
    Nat.testBit_two_pow_mul_add _ hx, Nat.testBit_two_pow_mul_add _ hm, Nat.testBit_two_pow_mul_add _ hlt]
  split_ifs <;> rw [Nat.testBit_or]

/-- The lowest bits of the digits. -/
def lows (n b : ℕ) : ℕ := b &&& ones n

lemma lows_succ (n b : ℕ) : lows (n + 1) b = b % 2 + 16 * lows n (b / 16) := by
  have hand := @and_digit (b % 16) (b / 16) 1 (ones n) (Nat.mod_lt _ (by norm_num)) (by norm_num)
  rw [Nat.mod_add_div, Nat.and_one_is_mod] at hand
  rw [lows, ones, hand, lows]
  omega

lemma lows_or (n b : ℕ) : lows n b ||| 2 * lows n b = 3 * lows n b := by
  induction n generalizing b with
  | zero => rw [lows, ones, Nat.and_zero]; rfl
  | succ n ih =>
      have hor := @or_digit (b % 2) (lows n (b / 16)) (2 * (b % 2)) (2 * lows n (b / 16)) (by omega) (by omega)
      have hbit : b % 2 ||| 2 * (b % 2) = 3 * (b % 2) := by
        rcases Nat.mod_two_eq_zero_or_one b with h | h <;> rw [h] <;> rfl
      rw [lows_succ, show 2 * (b % 2 + 16 * lows n (b / 16)) = 2 * (b % 2) + 16 * (2 * lows n (b / 16)) by ring, hor, ih, hbit]
      ring

/-! ### Halving -/

/-- Half of every digit, with what comes down from the one above it. -/
lemma packed_half (hv : v < 10 ^ (n + 1)) : packed (n + 1) v / 2 = packed (n + 1) (v / 2) + 3 * lows n (packed (n + 1) v / 16) := by
  induction n generalizing v with
  | zero =>
      rw [lows, ones, Nat.and_zero]
      simp only [packed]
      lia
  | succ n ih =>
      have hdown := ih (v := v / 10) (by rw [pow_succ] at hv; omega)
      have hbit : packed (n + 1) (v / 10) % 2 = v / 10 % 2 := by
        rw [packed]
        lia
      have hrest : packed (n + 2) v / 16 = packed (n + 1) (v / 10) := by
        rw [packed]
        lia
      have hhalf : v / 2 / 10 = v / 10 / 2 := by lia
      rw [hrest, lows_succ, packed_succ (n + 1) v, packed_succ (n + 1) (v / 2), hhalf]
      generalize packed (n + 1) (v / 10) = p at *
      lia

/-- **Half of a number** of `n + 1` digits: where a digit was odd, eight comes down and three is taken off. -/
theorem halve_packed (hv : v < 10 ^ (n + 1)) : let b := packed (n + 1) v
    let temp := b &&& 16 * ones n
    b >>> 1 = packed (n + 1) (v / 2) + (temp >>> 4 ||| temp >>> 3) ∧ b % 2 = v % 2 := by
  intro b temp
  have htemp : temp = 16 * lows n (b / 16) := by
    have hand := @and_digit (b % 16) (b / 16) 0 (ones n) (Nat.mod_lt _ (by norm_num)) (by norm_num)
    rw [Nat.mod_add_div, Nat.and_zero, zero_add, zero_add] at hand
    exact hand
  have hdown : temp >>> 4 ||| temp >>> 3 = 3 * lows n (b / 16) := by
    rw [← lows_or, htemp, Nat.shiftRight_eq_div_pow, Nat.shiftRight_eq_div_pow]
    congr 1 <;> lia
  have hhalf : b / 2 = packed (n + 1) (v / 2) + 3 * lows n (b / 16) := packed_half hv
  refine ⟨?_, ?_⟩
  · rw [hdown, Nat.shiftRight_eq_div_pow, pow_one, hhalf]
  · show packed (n + 1) v % 2 = v % 2
    rw [packed]
    lia

/-! ### Doubling -/

/-- The digits from five on. -/
def large (n b : ℕ) : ℕ := lows n ((b + 3 * ones n) / 8)

lemma large_succ {d b : ℕ} (hd : d < 10) : large (n + 1) (d + 16 * b) = (d + 3) / 8 + 16 * large n b := by
  have hsum : (d + 16 * b + 3 * ones (n + 1)) / 8 = (d + 3) / 8 + 2 * (b + 3 * ones n) := by
    rw [ones]
    lia
  rw [large, lows_succ, hsum, large]
  congr 1
  · omega
  · congr 2
    lia

/-- Twice the digits and one that comes in, with six for each that is five or more. -/
lemma packed_double (hc : c ≤ 1) (hv : v < 10 ^ n) : 2 * (packed n v + 16 ^ n * u) + 6 * large n (packed n v + 16 ^ n * u) + c =
    packed n ((2 * v + c) % 10 ^ n) + 16 ^ n * (2 * u + (2 * v + c) / 10 ^ n) := by
  induction n generalizing v c with
  | zero =>
      rw [large, lows, ones, Nat.and_zero, packed, packed]
      lia
  | succ n ih =>
      rw [pow_succ'] at hv
      have hup := @ih (v / 10) ((2 * (v % 10) + c) / 10) (by omega) (by omega)
      have hsplit : packed (n + 1) v + 16 ^ (n + 1) * u = v % 10 + 16 * (packed n (v / 10) + 16 ^ n * u) := by
        rw [packed, pow_succ']
        ring
      have hlow : (2 * v + c) % 10 ^ (n + 1) % 10 = (2 * (v % 10) + c) % 10 := by
        rw [pow_succ', Nat.mod_mul_right_mod]
        lia
      have hhigh : (2 * v + c) / 10 = 2 * (v / 10) + (2 * (v % 10) + c) / 10 := by lia
      rw [hsplit, large_succ (Nat.mod_lt _ (by norm_num)), packed, hlow, pow_succ', Nat.mod_mul_right_div_self,
        ← Nat.div_div_eq_div_mul, hhigh]
      -- the digit, and what goes up from it
      have hdigit : 2 * (v % 10) + 6 * ((v % 10 + 3) / 8) + c = (2 * (v % 10) + c) % 10 + 16 * ((2 * (v % 10) + c) / 10) := by
        lia
      calc 2 * (v % 10 + 16 * (packed n (v / 10) + 16 ^ n * u)) +
            6 * ((v % 10 + 3) / 8 + 16 * large n (packed n (v / 10) + 16 ^ n * u)) + c
          = 2 * (v % 10) + 6 * ((v % 10 + 3) / 8) + c +
              16 * (2 * (packed n (v / 10) + 16 ^ n * u) + 6 * large n (packed n (v / 10) + 16 ^ n * u)) := by ring
        _ = (2 * (v % 10) + c) % 10 + 16 * (2 * (packed n (v / 10) + 16 ^ n * u) +
              6 * large n (packed n (v / 10) + 16 ^ n * u) + (2 * (v % 10) + c) / 10) := by
            rw [hdigit]
            ring
        _ = _ := by
            rw [hup]
            ring

/-- **Twice a number** of `n` digits with some above in binary, and a digit that comes in. -/
theorem double_packed (hc : c ≤ 1) (hv : v < 10 ^ n) : let b := packed n v + 16 ^ n * u
    let temp := (b + 3 * ones n) &&& 8 * ones n
    2 * b + (temp >>> 1 ||| temp >>> 2) + c = packed n ((2 * v + c) % 10 ^ n) + 16 ^ n * (2 * u + (2 * v + c) / 10 ^ n) := by
  intro b temp
  have htemp : temp = 8 * large n b := by
    have hmask : 8 * ones n = ones n <<< 3 := by
      rw [Nat.shiftLeft_eq]
      ring
    show (b + 3 * ones n) &&& 8 * ones n = 8 * large n b
    rw [hmask, Word.and_shiftLeft, Nat.shiftLeft_eq, Nat.shiftRight_eq_div_pow]
    exact mul_comm _ _
  have hsix : temp >>> 1 ||| temp >>> 2 = 6 * large n b := by
    have hor := congrArg (· <<< 1) (lows_or n ((b + 3 * ones n) / 8))
    rw [Nat.shiftLeft_or_distrib, Nat.shiftLeft_eq, Nat.shiftLeft_eq, Nat.shiftLeft_eq, Nat.lor_comm] at hor
    rw [htemp, Nat.shiftRight_eq_div_pow, Nat.shiftRight_eq_div_pow, show 8 * large n b / 2 ^ 1 = 2 * large n b * 2 ^ 1 by lia,
      show 8 * large n b / 2 ^ 2 = large n b * 2 ^ 1 by lia, large, hor]
    ring
  rw [hsix]
  exact packed_double hc hv

end PackedDecimal
