import Ka10Simh.B5500.Arith.Double

/-!
The addition and the subtraction of numbers of two words.

* `doubleAdd`: the operators `DLA` and `DLS`.
* `alignPair_spec`, `sumDouble_spec`, `carryDown_spec`, `normalizePair_spec`: the pieces, each on the number in two registers.
* `Aligned`: the operands as they are added, with what is lost of the smaller one.
* `doubleAdd_iff`: where the result is within a unit of the sum, and equals it when it can be written.
-/

namespace Ka10Simh.B5500

open Word

/-! ### The source -/

/-- The loop that makes the exponents equal, for `k` tests at most: `A` is shifted up until it is normalized, then `B` is shifted down
until nothing is left. The last octade that was shifted out is kept. -/
def alignPair : ℕ → ℕ × ℕ → ℕ × ℕ → ℤ → ℤ → ℕ → Option ((ℕ × ℕ) × (ℕ × ℕ) × ℤ × ℤ × ℕ)
  | 0, _, _, _, _, _ => none
  | k + 1, a, b, ea, eb, ld =>
      if ea ≠ eb then
        if a.1 &&& norm = 0 then alignPair k (octadeUps a) b (ea - 1) eb ld
        else if (octadeDowns b).1 = 0 ∧ (octadeDowns b).2 = 0 then some (a, octadeDowns b, ea, eb + 1, lastOctade b)
        else alignPair k a (octadeDowns b) ea (eb + 1) (lastOctade b)
      else some (a, b, ea, eb, ld)

/-- The sum of aligned operands, as a magnitude with its sign. -/
def sumDouble (sa sb : Bool) (p q : ℕ × ℕ) : Bool × ℕ × ℕ :=
  let p := if sa then complementPair p.1 p.2 else p
  let q := if sb then complementPair q.1 q.2 else q
  let x := p.2 + q.2
  let b := p.1 + q.1
  let s := if x &&& expo ≠ 0 then (b + x >>> 39, x &&& mant) else (b, x)
  if s.1 &&& msign ≠ 0 then (true, complementPair s.1 s.2) else (false, s)

/-- `while (B & EXPO)`, for `k` tests at most. -/
def carryDown : ℕ → ℕ × ℕ → ℤ → ℕ → Option ((ℕ × ℕ) × ℤ × ℕ)
  | 0, _, _, _ => none
  | k + 1, s, e, ld => if s.1 &&& expo ≠ 0 then carryDown k (octadeDowns s) (e + 1) (lastOctade s) else some (s, e, ld)

/-- `while (exp_b > -63 && (B & NORM) == 0)`, for `k` tests at most. -/
def normalizePair : ℕ → ℕ × ℕ → ℤ → Option ((ℕ × ℕ) × ℤ)
  | 0, _, _ => none
  | k + 1, s, e => if e > -63 ∧ s.1 &&& norm = 0 then normalizePair k (octadeUps s) (e - 1) else some (s, e)

/-- The end of the addition: the result, and what is put into `Q`. -/
def settleDouble (ncsf sign : Bool) (s : ℕ × ℕ) (e : ℤ) (ld : ℕ) : Option (Double × List ℕ) := do
  let (s, e, ld) ← carryDown 4 s e ld
  let (s, e) ← normalizePair 132 (roundPair ld s) e
  some (⟨pack sign e (s.1 &&& mant), s.2 &&& mant⟩,
    if e < -64 ∧ ncsf then [expoUnder] else if e > 64 ∧ ncsf then [expoOver] else [])

/-- The sum of operands of which the first one has the larger exponent. -/
def doubleAligned (ncsf : Bool) (a b : Double) : Option (Double × List ℕ) := do
  let (p, q, ea, eb, ld) ← alignPair 128 a.digits b.digits (exponent a.high) (exponent b.high) 0
  let q := if ea ≠ eb then (0, 0) else q
  let (sign, s) := sumDouble (negative a.high) (negative b.high) p q
  settleDouble ncsf sign s ea ld

/-- `DLA` and `DLS`, with the operand `a` in `A` and `Y`, and `b` in `B` and `X`. -/
def doubleAdd (ncsf sub : Bool) (a b : Double) : Option (Double × List ℕ) :=
  let a : Double := if sub then ⟨a.high ^^^ msign, a.low⟩ else a
  if exponent b.high > exponent a.high then doubleAligned ncsf b a else doubleAligned ncsf a b

/-! ### The alignment -/

variable {a b p q s : ℕ × ℕ} {ea eb e : ℤ} {k ld m n d t : ℕ}

/-- The last octade of `n` that is shifted out in `d` shifts, or in as many as it takes to shift all of it out. -/
def lastDigit (n d : ℕ) : ℕ := if d = 0 then 0 else n / 8 ^ (min d (Nat.log 8 n + 1) - 1) % 8

lemma lastDigit_zero (n : ℕ) : lastDigit n 0 = 0 := if_pos rfl

lemma lastDigit_small (h : n < 8) (hd : d ≠ 0) : lastDigit n d = n := by
  rw [lastDigit, if_neg hd, Nat.log_of_lt h, show min d (0 + 1) - 1 = 0 by omega, pow_zero, Nat.div_one, Nat.mod_eq_of_lt h]

lemma lastDigit_one (n : ℕ) : lastDigit n 1 = n % 8 := by
  rw [lastDigit, if_neg one_ne_zero, show min 1 (Nat.log 8 n + 1) - 1 = 0 by omega, pow_zero, Nat.div_one]

lemma lastDigit_succ (h : 8 ≤ n) (hd : d ≠ 0) : lastDigit n (d + 1) = lastDigit (n / 8) d := by
  have hlog : Nat.log 8 n = Nat.log 8 (n / 8) + 1 := Nat.log_of_one_lt_of_le (by norm_num) h
  rw [lastDigit, lastDigit, if_neg d.succ_ne_zero, if_neg hd, hlog,
    show min (d + 1) (Nat.log 8 (n / 8) + 1 + 1) - 1 = min d (Nat.log 8 (n / 8) + 1) - 1 + 1 by omega, pow_succ', Nat.div_div_eq_div_mul]

/-- `B` is shifted down, when `A` is normalized. -/
lemma alignPair_down (ha : 2 ^ 36 ≤ a.1) (ha' : a.1 < 2 ^ 39) (hb : b.1 < 2 ^ 39) (hb' : b.2 < 2 ^ 39) (hd : d < k) (hgap : ea - eb = d) :
    ∃ q eb', alignPair k a b ea eb ld = some (a, q, ea, eb', if d = 0 then ld else lastDigit (wide b) d) ∧
      (ea = eb' ∨ wide q = 0) ∧ wide q = wide b / 8 ^ d ∧ q.1 < 2 ^ 39 ∧ q.2 < 2 ^ 39 := by
  induction k generalizing b eb d ld with
  | zero => exact absurd hd (Nat.not_lt_zero d)
  | succ k ih =>
      rw [alignPair]
      by_cases hzero : d = 0
      · rw [if_neg (by omega), if_pos hzero]
        exact ⟨b, eb, rfl, .inl (by omega), by rw [hzero, pow_zero, Nat.div_one], hb, hb'⟩
      rw [if_pos (by omega), if_neg (and_norm_ne ha' |>.mpr ha), if_neg hzero]
      obtain ⟨hhigh, hlow, hwide, hlast⟩ := octadeDowns_eq hb'
      have hnone : (octadeDowns b).1 = 0 ∧ (octadeDowns b).2 = 0 ↔ wide b < 8 := by
        rw [show wide b < 8 ↔ wide b / 8 = 0 by omega, ← hwide, wide]
        omega
      by_cases hsmall : wide b < 8
      · have hshift : wide b / 8 ^ d = 0 :=
          Nat.div_eq_of_lt (hsmall.trans_le (Nat.le_self_pow hzero 8))
        rw [if_pos (hnone.mpr hsmall), hlast, Nat.mod_eq_of_lt hsmall, lastDigit_small hsmall hzero]
        refine ⟨_, _, rfl, .inr (by omega), by omega, by omega, hlow⟩
      · rw [if_neg (hnone.not.mpr hsmall)]
        obtain ⟨d, rfl⟩ : ∃ n, d = n + 1 := ⟨d - 1, by omega⟩
        obtain ⟨q, eb', hrun, hstop, hq, hq1, hq2⟩ := @ih (octadeDowns b) (eb + 1) (lastOctade b) d (by omega) hlow (by omega)
          (by push_cast at hgap; omega)
        have hlater : (if d = 0 then lastOctade b else lastDigit (wide (octadeDowns b)) d) = lastDigit (wide b) (d + 1) := by
          by_cases hend : d = 0
          · rw [if_pos hend, hend, zero_add, lastDigit_one, hlast]
          · rw [if_neg hend, lastDigit_succ (by omega) hend, hwide]
        rw [hrun, hlater]
        exact ⟨q, eb', rfl, hstop, by rw [hq, hwide, pow_succ', Nat.div_div_eq_div_mul], hq1, hq2⟩

/-- **The loop**: `A` is shifted up as far as it goes, and `B` down for the rest. -/
theorem alignPair_spec (ha : a.1 < 2 ^ 39) (ha' : a.2 < 2 ^ 39) (hb : b.1 < 2 ^ 39) (hb' : b.2 < 2 ^ 39) (hd : d < k)
    (hgap : ea - eb = d) : ∃ p q eb',
      alignPair k a b ea eb 0 = some (p, q, ea - lift (wide a) d, eb', lastDigit (wide b) (d - lift (wide a) d)) ∧
      (ea - lift (wide a) d = eb' ∨ wide q = 0) ∧ wide p = wide a * 8 ^ lift (wide a) d ∧
      wide q = wide b / 8 ^ (d - lift (wide a) d) ∧ p.1 < 2 ^ 39 ∧ p.2 < 2 ^ 39 ∧ q.1 < 2 ^ 39 ∧ q.2 < 2 ^ 39 ∧
      lift (wide a) d ≤ d ∧ (lift (wide a) d = d ∨ 2 ^ 75 ≤ wide p) := by
  induction k generalizing a ea d with
  | zero => exact absurd hd (Nat.not_lt_zero d)
  | succ k ih =>
      by_cases hnormal : 2 ^ 36 ≤ a.1
      · have hlift : lift (wide a) d = 0 := lift_normal (by rw [wide]; omega) (wide_lt ha ha') d
        obtain ⟨q, eb', hrun, hstop, hq, hq1, hq2⟩ := @alignPair_down a b ea eb (k + 1) 0 d hnormal ha hb hb' hd hgap
        have hdigit : (if d = 0 then 0 else lastDigit (wide b) d) = lastDigit (wide b) d := by
          split_ifs with hzero
          · rw [hzero, lastDigit_zero]
          · rfl
        rw [hlift, hrun, hdigit, Nat.sub_zero, Nat.cast_zero, sub_zero, pow_zero, mul_one]
        exact ⟨a, q, eb', rfl, hstop, rfl, hq, ha, ha', hq1, hq2, Nat.zero_le d, .inr (by rw [wide]; omega)⟩
      rw [alignPair]
      by_cases hzero : d = 0
      · rw [if_neg (by omega), hzero, lift_zero, Nat.sub_zero, lastDigit_zero, Nat.cast_zero, sub_zero, pow_zero, mul_one, Nat.div_one]
        exact ⟨a, b, eb, rfl, .inl (by omega), rfl, rfl, ha, ha', hb, hb', le_rfl, .inl rfl⟩
      · obtain ⟨d, rfl⟩ : ∃ n, d = n + 1 := ⟨d - 1, by omega⟩
        obtain ⟨hup1, hup2, hup⟩ := octadeUps_eq ha' (by omega)
        obtain ⟨p, q, eb', hrun, hstop, hp, hq, hp1, hp2, hq1, hq2, hle, hend⟩ := @ih (octadeUps a) (ea - 1) d hup1 hup2 (by omega)
          (by push_cast at hgap; omega)
        have hlift : lift (wide a) (d + 1) = lift (wide (octadeUps a)) d + 1 := by
          rw [hup]
          exact lift_succ (by rw [wide]; omega) d
        rw [if_pos (by omega), if_pos ((and_norm ha).mpr (by omega)), hrun, hlift, Nat.add_sub_add_right]
        refine ⟨p, q, eb', ?_, ?_, ?_, hq, hp1, hp2, hq1, hq2, by omega, by omega⟩
        · push_cast
          rw [show ea - (lift (wide (octadeUps a)) d + 1 : ℤ) = ea - 1 - lift (wide (octadeUps a)) d by ring]
        · push_cast
          rwa [show ea - (lift (wide (octadeUps a)) d + 1 : ℤ) = ea - 1 - lift (wide (octadeUps a)) d by ring]
        · rw [hp, hup, pow_succ]
          ring

/-! ### The sum -/

/-- A number with a sign. -/
def withSign (sign : Bool) (m : ℕ) : ℤ := if sign then -m else m

/-- An operand that is complemented when it is negative. -/
lemma complement_operand (hp : p.1 < 2 ^ 39) (hp' : p.2 < 2 ^ 39) (sign : Bool) :
    (if sign then complementPair p.1 p.2 else p).2 < 2 ^ 39 ∧
      ((wide (if sign then complementPair p.1 p.2 else p) : ℕ) : ℤ) = withSign sign (wide p) + sign.toNat * 2 ^ 86 := by
  have hlt := wide_lt hp hp'
  cases sign with
  | false =>
      refine ⟨hp', ?_⟩
      rw [if_neg Bool.false_ne_true, withSign, if_neg Bool.false_ne_true]
      simp
  | true =>
      obtain ⟨hlow, hwide⟩ := @complementPair_eq p.1 p.2 0 hp' (by omega) (by norm_num)
      rw [Nat.mod_eq_of_lt (by omega)] at hwide
      refine ⟨hlow, ?_⟩
      have heta : wide (p.1, p.2) = wide p := rfl
      rw [if_pos rfl, hwide, heta, withSign, if_pos rfl, Bool.toNat_true]
      omega

/-- Two registers with a carry between them. -/
lemma wide_carry (hx : m < 2 ^ 40) (b : ℕ) :
    (if m &&& expo ≠ 0 then (b + m >>> 39, m &&& mant) else (b, m)).2 < 2 ^ 39 ∧
      wide (if m &&& expo ≠ 0 then (b + m >>> 39, m &&& mant) else (b, m)) = b * 2 ^ 39 + m := by
  have hexpo : m &&& expo ≠ 0 ↔ 2 ^ 39 ≤ m := by
    rw [show expo = (2 ^ 6 - 1) <<< 39 from rfl, and_shiftLeft, Nat.shiftLeft_eq, Nat.shiftRight_eq_div_pow,
      Nat.and_two_pow_sub_one_eq_mod]
    omega
  by_cases hcarry : 2 ^ 39 ≤ m
  · rw [if_pos (hexpo.mpr hcarry), and_mant_eq, Nat.shiftRight_eq_div_pow, wide]
    dsimp only
    omega
  · rw [if_neg (hexpo.not.mpr hcarry), wide]
    dsimp only
    omega

/-- **The sum**, as a magnitude with its sign. For each negative operand there is a bit above the 86 bits that are complemented. -/
theorem sumDouble_spec (hp : p.1 < 2 ^ 39) (hp' : p.2 < 2 ^ 39) (hq : q.1 < 2 ^ 39) (hq' : q.2 < 2 ^ 39) (sa sb : Bool) :
    (sumDouble sa sb p q).2.2 < 2 ^ 39 ∧
      (sumDouble sa sb p q).1 = decide (withSign sa (wide p) + withSign sb (wide q) < 0) ∧
      wide (sumDouble sa sb p q).2 = (withSign sa (wide p) + withSign sb (wide q)).natAbs +
        (sa.toNat + sb.toNat - if withSign sa (wide p) + withSign sb (wide q) < 0 then 1 else 0) * 2 ^ 86 := by
  have hplt := wide_lt hp hp'
  have hqlt := wide_lt hq hq'
  obtain ⟨hplow, hpwide⟩ := complement_operand hp hp' sa
  obtain ⟨hqlow, hqwide⟩ := complement_operand hq hq' sb
  have hsigned (sign : Bool) {m : ℕ} (hm : m < 2 ^ 78) : -2 ^ 78 < withSign sign m ∧ withSign sign m < 2 ^ 78 := by
    rw [withSign]
    split_ifs <;> omega
  have hsa := hsigned sa hplt
  have hsb := hsigned sb hqlt
  have hca : sa.toNat ≤ 1 := Bool.toNat_le sa
  have hcb : sb.toNat ≤ 1 := Bool.toNat_le sb
  -- a sum of magnitudes is negative only where an operand is
  have hcount : withSign sa (wide p) + withSign sb (wide q) < 0 → 0 < sa.toNat + sb.toNat := by
    intro hneg
    cases sa <;> cases sb <;> simp [withSign] at hneg ⊢
    omega
  rw [sumDouble]
  generalize (if sa = true then complementPair p.1 p.2 else p) = u at hplow hpwide ⊢
  generalize (if sb = true then complementPair q.1 q.2 else q) = v at hqlow hqwide ⊢
  obtain ⟨hslow, hswide⟩ := wide_carry (show u.2 + v.2 < 2 ^ 40 by omega) (u.1 + v.1)
  generalize (if u.2 + v.2 &&& expo ≠ 0 then (u.1 + v.1 + (u.2 + v.2) >>> 39, u.2 + v.2 &&& mant) else (u.1 + v.1, u.2 + v.2)) = s
    at hslow hswide ⊢
  have hsum : (wide s : ℤ) = withSign sa (wide p) + withSign sb (wide q) + (sa.toNat + sb.toNat) * 2 ^ 86 := by
    rw [show wide s = wide u + wide v by rw [hswide, wide, wide]; ring, Nat.cast_add, hpwide, hqwide]
    ring
  have hz : -2 ^ 79 < withSign sa (wide p) + withSign sb (wide q) ∧ withSign sa (wide p) + withSign sb (wide q) < 2 ^ 79 := by omega
  generalize withSign sa (wide p) + withSign sb (wide q) = z at *
  generalize sa.toNat = ca at *
  generalize sb.toNat = cb at *
  have hsign : s.1 &&& msign ≠ 0 ↔ z < 0 := by
    rw [show msign = 2 ^ 46 from rfl, and_pow_ne_zero, (wide_parts hslow).1]
    omega
  by_cases hneg : z < 0
  · obtain ⟨hlow, hwide⟩ := @complementPair_eq s.1 s.2 (ca + cb - 1) hslow (by
      rw [(wide_parts hslow).1]
      omega) (by omega)
    rw [if_pos (hsign.mpr hneg), if_pos hneg, hwide]
    refine ⟨hlow, (decide_eq_true hneg).symm, ?_⟩
    have hmod : wide (s.1 % 2 ^ 47, s.2) = wide s % 2 ^ 86 := by
      rw [wide, wide]
      omega
    rw [hmod]
    omega
  · rw [if_neg (hsign.not.mpr hneg), if_neg hneg]
    refine ⟨hslow, (decide_eq_false hneg).symm, ?_⟩
    dsimp only
    omega

/-! ### The carry, the rounding and the normalization -/

/-- No carry. -/
lemma carryDown_none (hs : s.2 < 2 ^ 39) (h : wide s / 2 ^ 78 % 64 = 0) (k : ℕ) (e : ℤ) (ld : ℕ) :
    carryDown (k + 1) s e ld = some (s, e, ld) := by
  rw [carryDown, if_neg ((carry_test hs).not.mpr (not_not.mpr h))]

/-- A carry, after which there is none. -/
lemma carryDown_step (hs : s.2 < 2 ^ 39) (h : wide s / 2 ^ 78 % 64 ≠ 0) (k : ℕ) (e : ℤ) (ld : ℕ) :
    carryDown (k + 1) s e ld = carryDown k (octadeDowns s) (e + 1) (wide s % 8) := by
  rw [carryDown, if_pos ((carry_test hs).mpr h), (octadeDowns_eq hs).2.2.2]

/-- **A carry is shifted back.** -/
theorem carryDown_one (hs : s.2 < 2 ^ 39) (hlow : 2 ^ 78 ≤ wide s) (hhigh : wide s < 2 ^ 79) (e : ℤ) (ld : ℕ) :
    ∃ t : ℕ × ℕ, carryDown 4 s e ld = some (t, e + 1, wide s % 8) ∧ wide t = wide s / 8 ∧ t.2 < 2 ^ 39 := by
  obtain ⟨-, hdown, hwide, -⟩ := octadeDowns_eq hs
  rw [carryDown_step hs (by omega), carryDown_none hdown (by omega)]
  exact ⟨_, rfl, hwide, hdown⟩

/-- **With the bit of two negative operands** it is shifted back until that bit has come into the mantissa. -/
theorem carryDown_three (hs : s.2 < 2 ^ 39) (hlow : 2 ^ 86 + 2 ^ 78 ≤ wide s) (hhigh : wide s < 2 ^ 86 + 2 ^ 79) (e : ℤ) (ld : ℕ) :
    ∃ t : ℕ × ℕ, ∃ d, carryDown 4 s e ld = some (t, e + 3, d) ∧ wide t = wide s / 512 ∧ t.2 < 2 ^ 39 := by
  obtain ⟨-, hdown, hwide, -⟩ := octadeDowns_eq hs
  obtain ⟨-, hdown', hwide', -⟩ := octadeDowns_eq hdown
  obtain ⟨-, hdown'', hwide'', -⟩ := octadeDowns_eq hdown'
  rw [carryDown_step hs (by omega), carryDown_step hdown (by omega), carryDown_step hdown' (by omega),
    carryDown_none hdown'' (by omega), show e + 1 + 1 + 1 = e + 3 by ring]
  exact ⟨_, _, rfl, by omega, hdown''⟩

/-- **The loop**: the mantissa is shifted up as far as its exponent goes. What is above the mantissa does not matter. -/
theorem normalizePair_spec (hs : s.2 < 2 ^ 39) (hm : wide s % 2 ^ 78 = m) (hd : d < k) (he : e + 63 = d) :
    ∃ s' : ℕ × ℕ, normalizePair k s e = some (s', e - lift m d) ∧ s'.2 < 2 ^ 39 ∧ wide s' % 2 ^ 78 = m * 8 ^ lift m d ∧ lift m d ≤ d ∧
      (lift m d = d ∨ 2 ^ 75 ≤ m * 8 ^ lift m d) := by
  induction k generalizing s e m d with
  | zero => exact absurd hd (Nat.not_lt_zero _)
  | succ k ih =>
      have htest : s.1 &&& norm = 0 ↔ m < 2 ^ 75 := by
        rw [show norm = (2 ^ 3 - 1) <<< 36 from rfl, and_shiftLeft, Nat.shiftLeft_eq, Nat.shiftRight_eq_div_pow,
          Nat.and_two_pow_sub_one_eq_mod, ← hm, wide]
        omega
      have hstop (h : lift m d = 0) (hend : d = 0 ∨ 2 ^ 75 ≤ m) : ∃ s' : ℕ × ℕ, some (s, e) = some (s', e - lift m d) ∧ s'.2 < 2 ^ 39 ∧
          wide s' % 2 ^ 78 = m * 8 ^ lift m d ∧ lift m d ≤ d ∧ (lift m d = d ∨ 2 ^ 75 ≤ m * 8 ^ lift m d) := by
        rw [h, Nat.cast_zero, sub_zero, pow_zero, mul_one]
        exact ⟨s, rfl, hs, hm, Nat.zero_le d, hend.imp Eq.symm id⟩
      rw [normalizePair]
      by_cases hzero : d = 0
      · rw [if_neg (by omega)]
        exact hstop (by rw [hzero, lift_zero]) (.inl hzero)
      by_cases hsmall : m < 2 ^ 75
      · obtain ⟨d, rfl⟩ : ∃ n, d = n + 1 := ⟨d - 1, by omega⟩
        obtain ⟨hlow, hup⟩ := octadeUps_mod hs
        obtain ⟨s', hrun, hlow', hwide, hle, hend⟩ := @ih (octadeUps s) (e - 1) (8 * m) d hlow (by omega) (by omega)
          (by push_cast at he; omega)
        rw [if_pos ⟨by omega, htest.mpr hsmall⟩, hrun, lift_succ hsmall]
        rw [show 8 * m * 8 ^ lift (8 * m) d = m * 8 ^ (lift (8 * m) d + 1) by ring] at hwide hend
        refine ⟨s', ?_, hlow', hwide, by omega, hend.imp (by omega) id⟩
        push_cast
        rw [show e - (lift (8 * m) d + 1 : ℤ) = e - 1 - lift (8 * m) d by ring]
      · rw [if_neg fun h ↦ hsmall (htest.mp h.2)]
        exact hstop (lift_normal (by omega) (by omega) d) (.inr (by omega))

/-! ### The operands as they are added -/

section Operands

variable (a b : Double)

/-- The difference of the exponents, the larger operand after its shifts with its exponent, and how far the smaller one is shifted. -/
def gap : ℕ := (exponent a.high - exponent b.high).toNat
def lifts : ℕ := lift (wide a.digits) (gap a b)
def larger : ℕ := wide a.digits * 8 ^ lifts a b
def scale : ℤ := exponent a.high - lifts a b
def away : ℕ := gap a b - lifts a b

/-- What is left of the smaller operand, what is lost of it, and the last octade that is shifted out. -/
def smaller : ℕ := wide b.digits / 8 ^ away a b
def lost : ℕ := wide b.digits % 8 ^ away a b
def digit : ℕ := lastDigit (wide b.digits) (away a b)

/-- The sum without what is lost, and how many of the operands are negative besides its sign. -/
def total : ℤ := withSign (negative a.high) (larger a b) + withSign (negative b.high) (smaller a b)
def stray : ℕ := (negative a.high).toNat + (negative b.high).toNat - if total a b < 0 then 1 else 0

end Operands

variable {x y r : Double} {ncsf sign : Bool}

/-- The operands after their shifts. -/
lemma aligned_spec (h : exponent y.high ≤ exponent x.high) : ∃ p q eb',
    alignPair 128 x.digits y.digits (exponent x.high) (exponent y.high) 0 = some (p, q, scale x y, eb', digit x y) ∧
      (scale x y = eb' ∨ wide q = 0) ∧ wide p = larger x y ∧ wide q = smaller x y ∧
      (p.1 < 2 ^ 39 ∧ p.2 < 2 ^ 39) ∧ (q.1 < 2 ^ 39 ∧ q.2 < 2 ^ 39) ∧ lifts x y ≤ gap x y ∧ (away x y = 0 ∨ 2 ^ 75 ≤ larger x y) := by
  obtain ⟨hx, hx'⟩ := exponent_range x.high
  obtain ⟨hy, hy'⟩ := exponent_range y.high
  obtain ⟨p, q, eb', hrun, hstop, hp, hq, hp1, hp2, hq1, hq2, hle, hend⟩ :=
    @alignPair_spec x.digits y.digits (exponent x.high) (exponent y.high) 128 (gap x y) (digits_lt x).1 (digits_lt x).2 (digits_lt y).1
      (digits_lt y).2 (by rw [gap]; omega) (by rw [gap]; omega)
  refine ⟨p, q, eb', hrun, hstop, hp, hq, ⟨hp1, hp2⟩, ⟨hq1, hq2⟩, hle, ?_⟩
  rw [larger, away, lifts, ← hp]
  exact hend.imp (by omega) id

lemma larger_lt (h : exponent y.high ≤ exponent x.high) : larger x y < 2 ^ 78 := by
  obtain ⟨p, q, eb', -, -, hp, -, ⟨hp1, hp2⟩, -⟩ := aligned_spec h
  rw [← hp]
  exact wide_lt hp1 hp2

lemma larger_normal (h : exponent y.high ≤ exponent x.high) : away x y = 0 ∨ 2 ^ 75 ≤ larger x y := by
  obtain ⟨-, -, -, -, -, -, -, -, -, -, hend⟩ := aligned_spec h
  exact hend

lemma smaller_lt (x y : Double) : smaller x y < 2 ^ 78 ∧ (away x y ≠ 0 → smaller x y < 2 ^ 75) := by
  have hlt := wide_digits_lt y
  refine ⟨(Nat.div_le_self _ _).trans_lt hlt, fun haway ↦ ?_⟩
  rw [smaller, Nat.div_lt_iff_lt_mul (by positivity)]
  have hpow : 8 ≤ 8 ^ away x y := Nat.le_self_pow haway 8
  omega

/-- The exponents of the shifted operands. -/
lemma scale_eq (h : exponent y.high ≤ exponent x.high) :
    scale x y = exponent y.high + away x y ∧ -63 ≤ scale x y ∧ scale x y ≤ 63 := by
  obtain ⟨-, -, -, -, -, -, -, -, -, hle, -⟩ := aligned_spec h
  obtain ⟨hx, hx'⟩ := exponent_range x.high
  obtain ⟨hy, hy'⟩ := exponent_range y.high
  rw [gap] at hle
  rw [scale, away, gap]
  omega

/-- The addition up to the sum. -/
lemma doubleAligned_sum (h : exponent y.high ≤ exponent x.high) (ncsf : Bool) : ∃ s : ℕ × ℕ, s.2 < 2 ^ 39 ∧
    wide s = (total x y).natAbs + stray x y * 2 ^ 86 ∧
      doubleAligned ncsf x y = settleDouble ncsf (decide (total x y < 0)) s (scale x y) (digit x y) := by
  obtain ⟨p, q, eb', hrun, hstop, hp, hq, ⟨hp1, hp2⟩, ⟨hq1, hq2⟩, -, -⟩ := aligned_spec h
  have hnone : wide (if scale x y ≠ eb' then (0, 0) else q) = smaller x y ∧ (if scale x y ≠ eb' then (0, 0) else q).1 < 2 ^ 39 ∧
      (if scale x y ≠ eb' then (0, 0) else q).2 < 2 ^ 39 := by
    by_cases hne : scale x y ≠ eb'
    · rw [if_pos hne, ← hq, hstop.resolve_left hne]
      exact ⟨rfl, by norm_num, by norm_num⟩
    · rw [if_neg hne]
      exact ⟨hq, hq1, hq2⟩
  rw [doubleAligned, hrun]
  dsimp only [bind, Option.bind]
  generalize (if scale x y ≠ eb' then (0, 0) else q) = q' at hnone ⊢
  obtain ⟨hwide, hq1', hq2'⟩ := hnone
  obtain ⟨hlow, hsign, hsum⟩ := sumDouble_spec hp1 hp2 hq1' hq2' (negative x.high) (negative y.high)
  rw [hp, hwide] at hsign hsum
  exact ⟨_, hlow, hsum, by rw [total, ← hsign]⟩

lemma pack_wrap (sign : Bool) {e : ℤ} (he : 64 ≤ e) (he' : e < 128) (m : ℕ) : pack sign e m = pack sign (e - 64) m := by
  have hmod (n : ℕ) : n &&& 0o77 = n % 2 ^ 6 := Nat.and_two_pow_sub_one_eq_mod n 6
  have hfield : exponentField e = exponentField (e - 64) := by
    rw [exponentField, exponentField, if_neg (by omega), if_neg (by omega), hmod, hmod]
    omega
  rw [pack, pack, hfield]

/-- **The end of the addition**, where no carry is left: the sign, the exponent and the mantissa of the result. -/
theorem finish_spec (hs : s.2 < 2 ^ 39) (hm : wide s % 2 ^ 78 = m) (he : -63 ≤ e) (he' : e ≤ 66) (sign : Bool) :
    ∃ s', normalizePair 132 s e = some (s', e - lift m (e + 63).toNat) ∧
      negative (pack sign (e - lift m (e + 63).toNat) (s'.1 &&& mant)) = sign ∧
      exponent (pack sign (e - lift m (e + 63).toNat) (s'.1 &&& mant)) =
        (if e - lift m (e + 63).toNat ≤ 63 then e - lift m (e + 63).toNat else e - lift m (e + 63).toNat - 64) ∧
      wide (Double.digits ⟨pack sign (e - lift m (e + 63).toNat) (s'.1 &&& mant), s'.2 &&& mant⟩) = m * 8 ^ lift m (e + 63).toNat := by
  obtain ⟨s', hrun, hlow, hwide, hle, -⟩ := @normalizePair_spec s e 132 m (e + 63).toNat hs hm (by omega) (by omega)
  have hmant : s'.1 &&& mant < 2 ^ 39 := by
    rw [and_mant_eq]
    exact Nat.mod_lt _ (by norm_num)
  have hparts : negative (pack sign (e - lift m (e + 63).toNat) (s'.1 &&& mant)) = sign ∧
      exponent (pack sign (e - lift m (e + 63).toNat) (s'.1 &&& mant)) =
        (if e - lift m (e + 63).toNat ≤ 63 then e - lift m (e + 63).toNat else e - lift m (e + 63).toNat - 64) ∧
      mantissa (pack sign (e - lift m (e + 63).toNat) (s'.1 &&& mant)) = s'.1 &&& mant := by
    by_cases hfits : e - lift m (e + 63).toNat ≤ 63
    · rw [if_pos hfits]
      exact pack_parts hmant (by omega) hfits
    · rw [if_neg hfits, pack_wrap sign (by omega) (by omega)]
      exact pack_parts hmant (by omega) (by omega)
  refine ⟨s', hrun, hparts.1, hparts.2.1, ?_⟩
  rw [wide, Double.digits]
  dsimp only
  rw [hparts.2.2, mantissa_eq, and_mant_eq, and_mant_eq, ← hwide, wide]
  omega

/-- Whether the sum is rounded up, and its mantissa then. -/
def rounded (x y : Double) : ℕ :=
  (total x y).natAbs + if RoundsUp (digit x y) ((total x y).natAbs + stray x y * 2 ^ 86) then 1 else 0

lemma stray_le (x y : Double) : stray x y ≤ 2 := by
  have hx := Bool.toNat_le (negative x.high)
  have hy := Bool.toNat_le (negative y.high)
  rw [stray]
  omega

/-- A sum of 26 octades stays so when it is rounded up. -/
lemma rounded_lt (hM : (total x y).natAbs < 2 ^ 78) : rounded x y < 2 ^ 78 := by
  have hstray := stray_le x y
  rw [rounded]
  split_ifs with hup
  · have hfull := hup.2.1
    omega
  · omega

/-- **The result without a carry.** -/
lemma result_plain (h : exponent y.high ≤ exponent x.high) (hM : (total x y).natAbs < 2 ^ 78) (ncsf : Bool) : ∃ r q,
    doubleAligned ncsf x y = some (r, q) ∧ negative r.high = decide (total x y < 0) ∧
      exponent r.high = scale x y - lift (rounded x y) (scale x y + 63).toNat ∧
      wide r.digits = rounded x y * 8 ^ lift (rounded x y) (scale x y + 63).toNat := by
  obtain ⟨s, hlow, hwide, hrun⟩ := doubleAligned_sum h ncsf
  obtain ⟨-, hge, hle⟩ := scale_eq h
  have hstray := stray_le x y
  have hlt := rounded_lt hM
  obtain ⟨hlow', hround⟩ := roundPair_eq hlow (digit x y)
  have hm : wide (roundPair (digit x y) s) % 2 ^ 78 = rounded x y := by
    rw [rounded] at hlt ⊢
    rw [hround, hwide]
    omega
  obtain ⟨s', hnorm, hneg, hexp, hdigits⟩ := finish_spec hlow' hm hge (by omega) (decide (total x y < 0))
  rw [hrun, settleDouble, carryDown_none hlow (by omega)]
  dsimp only [bind, Option.bind]
  rw [hnorm]
  exact ⟨_, _, rfl, hneg, by rw [hexp, if_pos (by omega)], hdigits⟩

/-- **The result with a carry**, of operands that are not negative. -/
lemma result_carry (h : exponent y.high ≤ exponent x.high) (hM : 2 ^ 78 ≤ (total x y).natAbs) (hM' : (total x y).natAbs < 2 ^ 79)
    (hstray : stray x y = 0) (hscale : scale x y < 63) (ncsf : Bool) : ∃ r q m,
    doubleAligned ncsf x y = some (r, q) ∧ negative r.high = decide (total x y < 0) ∧ exponent r.high = scale x y + 1 ∧
      wide r.digits = m ∧ m = (total x y).natAbs / 8 +
        (if RoundsUp ((total x y).natAbs % 8) ((total x y).natAbs / 8) then 1 else 0) := by
  obtain ⟨s, hlow, hwide, hrun⟩ := doubleAligned_sum h ncsf
  obtain ⟨-, hge, -⟩ := scale_eq h
  rw [hstray, Nat.zero_mul, Nat.add_zero] at hwide
  obtain ⟨t, hcarry, ht, hlow'⟩ := carryDown_one hlow (by omega) (by omega) (scale x y) (digit x y)
  obtain ⟨hlow'', hround⟩ := roundPair_eq hlow' (wide s % 8)
  rw [ht, hwide] at hround
  have hm : wide (roundPair (wide s % 8) t) % 2 ^ 78 = wide (roundPair (wide s % 8) t) := by
    rw [hwide, hround]
    split_ifs <;> omega
  obtain ⟨s', hnorm, hneg, hexp, hdigits⟩ := finish_spec hlow'' hm (show -63 ≤ scale x y + 1 by omega) (by omega)
    (decide (total x y < 0))
  have hlift : lift (wide (roundPair (wide s % 8) t)) (scale x y + 1 + 63).toNat = 0 :=
    lift_normal (by rw [hwide, hround]; omega) (by omega) _
  rw [hlift, Nat.cast_zero, sub_zero] at hnorm hneg hexp hdigits
  rw [pow_zero, mul_one] at hdigits
  rw [hrun, settleDouble, hcarry]
  dsimp only [bind, Option.bind]
  rw [hnorm]
  exact ⟨_, _, _, rfl, hneg, by rw [hexp, if_pos (by omega)], hdigits, by rw [hwide, hround]⟩

/-- **The result with a carry, of two negative operands**: it has a one in the first octade that is not of the sum, and its exponent is two
more than that of the carry, or beyond the field. -/
lemma result_wrong (h : exponent y.high ≤ exponent x.high) (hM : 2 ^ 78 ≤ (total x y).natAbs) (hM' : (total x y).natAbs < 2 ^ 79)
    (hstray : stray x y = 1) (ncsf : Bool) : ∃ r q,
    doubleAligned ncsf x y = some (r, q) ∧ negative r.high = decide (total x y < 0) ∧
      (exponent r.high = scale x y + 3 ∨ exponent r.high = scale x y - 61) ∧
      2 ^ 77 ≤ wide r.digits ∧ wide r.digits < 2 ^ 78 := by
  obtain ⟨s, hlow, hwide, hrun⟩ := doubleAligned_sum h ncsf
  obtain ⟨-, hge, hle⟩ := scale_eq h
  rw [hstray, Nat.one_mul] at hwide
  obtain ⟨t, d, hcarry, ht, hlow'⟩ := carryDown_three hlow (by omega) (by omega) (scale x y) (digit x y)
  obtain ⟨hlow'', hround⟩ := roundPair_eq hlow' d
  have hrange : 2 ^ 77 ≤ wide (roundPair d t) ∧ wide (roundPair d t) < 2 ^ 78 := by
    rw [hround]
    split_ifs <;> omega
  obtain ⟨s', hnorm, hneg, hexp, hdigits⟩ := finish_spec hlow'' (Nat.mod_eq_of_lt hrange.2) (show -63 ≤ scale x y + 3 by omega) (by omega)
    (decide (total x y < 0))
  have hlift : lift (wide (roundPair d t)) (scale x y + 3 + 63).toNat = 0 := lift_normal (by omega) hrange.2 _
  rw [hlift, Nat.cast_zero, sub_zero] at hnorm hneg hexp
  rw [hlift, pow_zero, mul_one, Nat.cast_zero, sub_zero] at hdigits
  rw [hrun, settleDouble, hcarry]
  dsimp only [bind, Option.bind]
  rw [hnorm]
  refine ⟨_, _, rfl, hneg, ?_, by rw [hdigits]; exact hrange.1, by rw [hdigits]; exact hrange.2⟩
  rw [hexp]
  split_ifs
  · exact .inl rfl
  · exact .inr (by ring)

/-! ### The exact sum -/

/-- The sign of a number, and the part of the smaller operand that is lost, in units of its last octade. -/
def sgn (sign : Bool) : ℚ := if sign then -1 else 1
def lostPart (x y : Double) : ℚ := lost x y / 8 ^ away x y

lemma sgn_abs (sign : Bool) : |sgn sign| = 1 := by
  rw [sgn]
  split_ifs <;> norm_num

lemma withSign_cast (sign : Bool) (m : ℕ) : ((withSign sign m : ℤ) : ℚ) = sgn sign * m := by
  rw [withSign, sgn]
  split_ifs <;> push_cast <;> ring

lemma lostPart_range (x y : Double) : 0 ≤ lostPart x y ∧ lostPart x y < 1 ∧ (lostPart x y = 0 ↔ lost x y = 0) := by
  have hlt : lost x y < 8 ^ away x y := Nat.mod_lt _ (by positivity)
  have hlt' : (lost x y : ℚ) < 8 ^ away x y := by exact_mod_cast hlt
  have hpos : (0 : ℚ) < 8 ^ away x y := by positivity
  refine ⟨by rw [lostPart]; positivity, by rw [lostPart, div_lt_one hpos]; exact hlt', ?_⟩
  rw [lostPart, div_eq_zero_iff, or_iff_left hpos.ne', Nat.cast_eq_zero]

/-- The operands in units of the last octade of the sum. -/
lemma value_larger (x y : Double) : x.value = sgn (negative x.high) * larger x y * 8 ^ (scale x y - 13) := by
  have hscale : (8 : ℚ) ^ (exponent x.high - 13) = 8 ^ lifts x y * 8 ^ (scale x y - 13) := by
    rw [← zpow_natCast, ← zpow_add₀ (by norm_num), scale]
    congr 1
    ring
  rw [Double.value, hscale, larger, sgn]
  push_cast
  ring

lemma value_smaller (h : exponent y.high ≤ exponent x.high) :
    y.value = sgn (negative y.high) * (smaller x y + lostPart x y) * 8 ^ (scale x y - 13) := by
  have hscale : (8 : ℚ) ^ (scale x y - 13) = 8 ^ away x y * 8 ^ (exponent y.high - 13) := by
    rw [← zpow_natCast, ← zpow_add₀ (by norm_num), (scale_eq h).1]
    congr 1
    ring
  have hsplit : (wide y.digits : ℚ) = 8 ^ away x y * smaller x y + lost x y := by
    exact_mod_cast (Nat.div_add_mod (wide y.digits) (8 ^ away x y)).symm
  have hpos : (8 : ℚ) ^ away x y ≠ 0 := by positivity
  rw [Double.value, hscale, hsplit, lostPart, sgn]
  field_simp

/-- **The exact sum**, in the same units. -/
theorem exact_sum (h : exponent y.high ≤ exponent x.high) :
    x.value + y.value = (total x y + sgn (negative y.high) * lostPart x y) * 8 ^ (scale x y - 13) := by
  rw [value_larger x y, value_smaller h, total]
  push_cast [withSign_cast]
  ring

/-- Where nothing is lost, the last octade that was shifted out is zero. -/
lemma digit_zero (h : lost x y = 0) : digit x y = 0 := by
  rw [digit, lastDigit]
  by_cases hzero : away x y = 0
  · exact if_pos hzero
  rw [if_neg hzero]
  obtain ⟨v, hv⟩ : ∃ v, min (away x y) (Nat.log 8 (wide y.digits) + 1) = v + 1 :=
    ⟨min (away x y) (Nat.log 8 (wide y.digits) + 1) - 1, by omega⟩
  have hdvd : 8 ^ (v + 1) ∣ wide y.digits :=
    (Nat.pow_dvd_pow 8 (hv ▸ min_le_left _ _)).trans (Nat.dvd_of_mod_eq_zero h)
  obtain ⟨c, hc⟩ := hdvd
  rw [hv, Nat.add_sub_cancel, hc, pow_succ, mul_assoc, Nat.mul_div_cancel_left _ (by positivity), Nat.mul_mod_right]

/-- The result of a sum without a carry, in those units. -/
lemma plain_sound {r : Double} (hneg : negative r.high = decide (total x y < 0))
    (hexp : exponent r.high = scale x y - lift (rounded x y) (scale x y + 63).toNat)
    (hdigits : wide r.digits = rounded x y * 8 ^ lift (rounded x y) (scale x y + 63).toNat) (w : ℚ) :
    Sound (w * 8 ^ (scale x y - 13)) r ↔
      |sgn (decide (total x y < 0)) * rounded x y - w| * 8 ^ lift (rounded x y) (scale x y + 63).toNat < 1 ∧
        (Representable (w * 8 ^ (scale x y - 13)) → sgn (decide (total x y < 0)) * rounded x y = w) := by
  generalize lift (rounded x y) (scale x y + 63).toNat = k at *
  have hunit : r.unit * 8 ^ k = 8 ^ (scale x y - 13) := by
    rw [Double.unit, hexp, ← zpow_natCast, ← zpow_add₀ (by norm_num)]
    congr 1
    ring
  refine sound_iff (by positivity) ?_ hunit
  rw [← hunit, Double.unit, Double.value, hdigits, hneg, sgn]
  push_cast
  ring

/-- The sign of the sum. -/
lemma total_cast (x y : Double) : (total x y : ℚ) = sgn (decide (total x y < 0)) * (total x y).natAbs := by
  rw [sgn, Nat.cast_natAbs]
  by_cases hneg : total x y < 0
  · rw [if_pos (decide_eq_true hneg), abs_of_neg hneg]
    push_cast
    ring
  · rw [if_neg (by rw [decide_eq_false hneg]; exact Bool.false_ne_true), abs_of_nonneg (not_lt.mp hneg), one_mul]

/-! ### Where the sum is right -/

/-- The difference of the operands, and the octades that it is short of. -/
def difference (x y : Double) : ℕ := larger x y - smaller x y
def short (x y : Double) : ℕ := lift (difference x y) (scale x y + 63).toNat

/-- The difference is rounded, and away from what was lost of the smaller operand. -/
def RoundsAway (x y : Double) : Prop :=
  4 ≤ digit x y ∧ difference x y % 2 ^ 39 ≠ 2 ^ 39 - 1 ∧ (negative x.high = true → difference x y / 2 ^ 39 ≠ 2 ^ 39 - 1)

/-- The operands, of which the first one has the larger exponent, are added as they should be. With one sign, they are not negative with
a carry. With two signs, nothing is lost of the smaller one; or there is no rounding, what is lost is not more than a unit of the normalized
difference, and the exact difference is not one that can be written just below a power of eight. -/
def Clean (x y : Double) : Prop :=
  (negative x.high = negative y.high → ¬ (negative x.high = true ∧ 2 ^ 78 ≤ larger x y + smaller x y)) ∧
  (negative x.high ≠ negative y.high → lost x y ≠ 0 →
    ¬ RoundsAway x y ∧ lost x y * 8 ^ short x y < 8 ^ away x y ∧
      ¬ (difference x y * 8 ^ short x y = 2 ^ 75 ∧ -63 < scale x y - short x y ∧ 8 ^ away x y ∣ lost x y * 8 ^ (short x y + 1)))

lemma lost_away (h : lost x y ≠ 0) : away x y ≠ 0 := fun hzero ↦ h (by rw [lost, hzero, pow_zero, Nat.mod_one])

/-- Operands of one sign. -/
lemma same_total (hs : negative x.high = negative y.high) : (total x y).natAbs = larger x y + smaller x y ∧
    (0 < larger x y + smaller x y → decide (total x y < 0) = negative x.high) := by
  rw [total, ← hs, withSign, withSign]
  cases negative x.high with
  | false =>
      rw [if_neg Bool.false_ne_true, if_neg Bool.false_ne_true]
      exact ⟨by omega, fun _ ↦ decide_eq_false (by omega)⟩
  | true =>
      rw [if_pos rfl, if_pos rfl]
      exact ⟨by omega, fun hpos ↦ decide_eq_true (by omega)⟩

/-- Operands of two signs. -/
lemma opposite_total (hs : negative x.high ≠ negative y.high) (hlt : smaller x y < larger x y) :
    (total x y).natAbs = difference x y ∧ decide (total x y < 0) = negative x.high ∧
      stray x y = if negative x.high = true then 0 else 1 := by
  rw [stray, total, difference, withSign, withSign]
  cases hx : negative x.high <;> cases hy : negative y.high
  · exact absurd (hx.trans hy.symm) hs
  · rw [if_neg Bool.false_ne_true, if_pos rfl, if_neg Bool.false_ne_true, if_neg (by omega)]
    exact ⟨by omega, decide_eq_false (by omega), rfl⟩
  · rw [if_pos rfl, if_neg Bool.false_ne_true, if_pos rfl, if_pos (by omega)]
    exact ⟨by omega, decide_eq_true (by omega), rfl⟩
  · exact absurd (hx.trans hy.symm) hs

/-- **Nothing is lost**, and there is no carry. -/
lemma sound_whole (h : exponent y.high ≤ exponent x.high) (hM : (total x y).natAbs < 2 ^ 78) (hlost : lost x y = 0) (ncsf : Bool) :
    ∃ r q, doubleAligned ncsf x y = some (r, q) ∧ Sound (x.value + y.value) r := by
  obtain ⟨r, q, hrun, hneg, hexp, hdigits⟩ := result_plain h hM ncsf
  have hround : rounded x y = (total x y).natAbs := by
    rw [rounded, digit_zero hlost, if_neg fun hup ↦ absurd hup.1 (by norm_num), Nat.add_zero]
  have hexact : sgn (decide (total x y < 0)) * rounded x y = total x y + sgn (negative y.high) * lostPart x y := by
    rw [((lostPart_range x y).2.2).mpr hlost, hround, ← total_cast, mul_zero, add_zero]
  refine ⟨r, q, hrun, ?_⟩
  rw [exact_sum h, plain_sound hneg hexp hdigits, hexact, sub_self, abs_zero, zero_mul]
  exact ⟨zero_lt_one, fun _ ↦ rfl⟩

/-- A number between two whole ones. -/
lemma not_whole {v : ℚ} {M : ℕ} (hlow : 0 < v) (hhigh : v < 1) (n : ℕ) : (M : ℚ) + v ≠ n := by
  intro heq
  have hlt : M < n := by
    exact_mod_cast (show (M : ℚ) < n by linarith)
  have hlt' : n < M + 1 := by
    exact_mod_cast (show (n : ℚ) < M + 1 by linarith)
  omega

/-- **One sign, and no carry**: the sum is rounded. -/
lemma sound_same (h : exponent y.high ≤ exponent x.high) (hs : negative x.high = negative y.high)
    (hM : larger x y + smaller x y < 2 ^ 78) (hlost : lost x y ≠ 0) (ncsf : Bool) :
    ∃ r q, doubleAligned ncsf x y = some (r, q) ∧ Sound (x.value + y.value) r := by
  obtain ⟨hnat, hsign⟩ := same_total hs
  obtain ⟨hge, hlt, hzero⟩ := lostPart_range x y
  have hpos : 0 < lostPart x y := lt_of_le_of_ne hge fun heq ↦ hlost (hzero.mp heq.symm)
  have hlarge : 2 ^ 75 ≤ larger x y := (larger_normal h).resolve_left (lost_away hlost)
  have hM' : (total x y).natAbs < 2 ^ 78 := by rwa [hnat]
  obtain ⟨r, q, hrun, hneg, hexp, hdigits⟩ := result_plain h hM' ncsf
  have hround := rounded_lt hM'
  have hup : rounded x y = larger x y + smaller x y ∨ rounded x y = larger x y + smaller x y + 1 := by
    rw [rounded, hnat]
    split_ifs <;> omega
  have hlift : lift (rounded x y) (scale x y + 63).toNat = 0 := lift_normal (by omega) hround _
  have hw : (total x y : ℚ) + sgn (negative y.high) * lostPart x y =
      sgn (decide (total x y < 0)) * ((larger x y + smaller x y : ℕ) + lostPart x y) := by
    rw [total_cast, hnat, ← hs, hsign (by omega)]
    ring
  refine ⟨r, q, hrun, ?_⟩
  rw [exact_sum h, plain_sound hneg hexp hdigits, hlift, hw, ← mul_sub, abs_mul, sgn_abs, one_mul, pow_zero, mul_one, abs_lt]
  refine ⟨?_, fun hrep ↦ absurd hrep ?_⟩
  · rcases hup with heq | heq
    · rw [heq]
      constructor <;> linarith
    · rw [heq]
      push_cast
      constructor <;> linarith
  · refine not_representable (e := scale x y) (.inr ?_) (@not_whole _ (larger x y + smaller x y) hpos hlt) ?_
    · have hlarge' : (2 : ℚ) ^ 75 ≤ (larger x y + smaller x y : ℕ) := by exact_mod_cast (show 2 ^ 75 ≤ larger x y + smaller x y by omega)
      linarith
    · have hunit : (0 : ℚ) < 8 ^ (scale x y - 13) := by positivity
      rw [abs_mul, abs_mul, sgn_abs, one_mul, abs_of_pos hunit, abs_of_pos (by positivity)]

/-- Whether a number just below another one can be written. -/
lemma representable_below {T v : ℚ} {c : ℕ} (hlow : -63 ≤ e) (hhigh : e ≤ 63) (hend : e = -63 ∨ 2 ^ 75 ≤ c) (hv : 0 < v) (hv' : v < 1)
    (hT : |T| = (c - v) * 8 ^ (e - 13)) (hc : 0 < c) :
    Representable T ↔ c = 2 ^ 75 ∧ -63 < e ∧ ∃ i : ℕ, v * 8 = i := by
  have hwhole (n : ℕ) : (c : ℚ) - v ≠ n := by
    have hne := @not_whole (1 - v) (c - 1) (by linarith) (by linarith) n
    rwa [Nat.cast_sub hc, Nat.cast_one, show (c : ℚ) - 1 + (1 - v) = c - v by ring] at hne
  have hdown : |T| = (c - v) * 8 * 8 ^ (e - 1 - 13) := by
    rw [hT, show e - 13 = e - 1 - 13 + 1 by ring, zpow_add_one₀ (by norm_num)]
    ring
  by_cases hedge : c = 2 ^ 75 ∧ -63 < e
  · rw [hedge.1] at hdown
    constructor
    · intro hrep
      refine ⟨hedge.1, hedge.2, ?_⟩
      by_contra hno
      refine not_representable (e := e - 1) (.inr (by push_cast; linarith)) (fun n heq ↦ hno ?_) hdown hrep
      push_cast at heq
      have hle : n ≤ 2 ^ 78 := by
        exact_mod_cast (show (n : ℚ) ≤ 2 ^ 78 by linarith)
      exact ⟨2 ^ 78 - n, by rw [Nat.cast_sub hle]; push_cast; linarith⟩
    · rintro ⟨-, -, i, hi⟩
      have hi' : i ≤ 2 ^ 78 := by
        exact_mod_cast (show (i : ℚ) ≤ 2 ^ 78 by linarith)
      have hpos : 0 < i := by
        exact_mod_cast (show (0 : ℚ) < i by linarith)
      refine @representable_of (2 ^ 78 - i) (e - 1) T (by omega) (by omega) (by omega) ?_
      rw [hdown, Nat.cast_sub hi', ← hi]
      push_cast
      ring
  · refine iff_of_false (not_representable ?_ hwhole hT) fun h ↦ hedge ⟨h.1, h.2.1⟩
    -- at the least exponent nothing is below
    by_cases he : e = -63
    · exact .inl he
    · have hlarge := hend.resolve_left he
      have hne : c ≠ 2 ^ 75 := fun hc ↦ hedge ⟨hc, by omega⟩
      have hc' : (2 : ℚ) ^ 75 + 1 ≤ c := by exact_mod_cast (show 2 ^ 75 + 1 ≤ c by omega)
      exact .inr (by linarith)

/-- The rounding of a difference. -/
lemma rounded_difference (hs : negative x.high ≠ negative y.high) (hlt : smaller x y < larger x y) (hD : difference x y < 2 ^ 78) :
    (RoundsAway x y → rounded x y = difference x y + 1) ∧ (¬ RoundsAway x y → rounded x y = difference x y) := by
  obtain ⟨hnat, -, hstray⟩ := opposite_total hs hlt
  have hup : RoundsUp (digit x y) (difference x y + stray x y * 2 ^ 86) ↔ RoundsAway x y := by
    rw [RoundsUp, RoundsAway, hstray]
    refine and_congr_right fun _ ↦ and_congr ?_ ?_
    · split_ifs <;> omega
    · by_cases hneg : negative x.high = true
      · rw [if_pos hneg, Nat.zero_mul, Nat.add_zero]
        exact ⟨fun h _ ↦ h, fun h ↦ h hneg⟩
      · rw [if_neg hneg]
        exact iff_of_true (by omega) fun h ↦ absurd h hneg
  rw [rounded, hnat]
  exact ⟨fun h ↦ by rw [if_pos (hup.mpr h)], fun h ↦ by rw [if_neg (hup.not.mpr h), Nat.add_zero]⟩

/-- **Two signs, and a part that is lost.** -/
lemma sound_opposite (h : exponent y.high ≤ exponent x.high) (hs : negative x.high ≠ negative y.high) (hlost : lost x y ≠ 0) (ncsf : Bool) :
    ∃ r q, doubleAligned ncsf x y = some (r, q) ∧ (Sound (x.value + y.value) r ↔
      ¬ RoundsAway x y ∧ lost x y * 8 ^ short x y < 8 ^ away x y ∧
        ¬ (difference x y * 8 ^ short x y = 2 ^ 75 ∧ -63 < scale x y - short x y ∧
          8 ^ away x y ∣ lost x y * 8 ^ (short x y + 1))) := by
  have haway := lost_away hlost
  have hlarge : 2 ^ 75 ≤ larger x y := (larger_normal h).resolve_left haway
  have hsmall := (smaller_lt x y).2 haway
  have hltp := larger_lt h
  have hlt : smaller x y < larger x y := by omega
  have hD : difference x y < 2 ^ 78 ∧ 0 < difference x y := by
    rw [difference]
    omega
  obtain ⟨-, hscale, hscale'⟩ := scale_eq h
  obtain ⟨hnat, hsign, -⟩ := opposite_total hs hlt
  obtain ⟨hge, hone, hzero⟩ := lostPart_range x y
  have hpos : 0 < lostPart x y := lt_of_le_of_ne hge fun heq ↦ hlost (hzero.mp heq.symm)
  obtain ⟨haway', hstay⟩ := rounded_difference hs hlt hD.1
  obtain ⟨r, q, hrun, hneg, hexp, hdigits⟩ := result_plain h (by rw [hnat]; exact hD.1) ncsf
  have hw : (total x y : ℚ) + sgn (negative y.high) * lostPart x y =
      sgn (decide (total x y < 0)) * (difference x y - lostPart x y) := by
    have hother : sgn (negative y.high) = -sgn (negative x.high) := by
      cases hx : negative x.high <;> cases hy : negative y.high
      · exact absurd (hx.trans hy.symm) hs
      · rw [sgn, sgn, if_pos rfl, if_neg Bool.false_ne_true]
      · rw [sgn, sgn, if_pos rfl, if_neg Bool.false_ne_true, neg_neg]
      · exact absurd (hx.trans hy.symm) hs
    rw [total_cast, hnat, hother, hsign]
    ring
  refine ⟨r, q, hrun, ?_⟩
  rw [exact_sum h, plain_sound hneg hexp hdigits, hw, ← mul_sub, abs_mul, sgn_abs, one_mul]
  by_cases hround : RoundsAway x y
  · -- the rounding goes away from the difference
    refine iff_of_false (fun hsound ↦ ?_) fun hclean ↦ hclean.1 hround
    have herror := hsound.1
    have hpow : (1 : ℚ) ≤ 8 ^ lift (rounded x y) (scale x y + 63).toNat := one_le_pow₀ (by norm_num)
    rw [haway' hround, Nat.cast_add, Nat.cast_one, show (difference x y : ℚ) + 1 - (difference x y - lostPart x y) = 1 + lostPart x y by ring,
      abs_of_pos (by positivity)] at herror
    rw [haway' hround] at hpow
    nlinarith
  rw [hstay hround, sub_sub_cancel, abs_of_pos hpos, and_iff_right hround, ← short]
  have hpow : (0 : ℚ) < 8 ^ away x y := by positivity
  have herror : lostPart x y * 8 ^ short x y < 1 ↔ lost x y * 8 ^ short x y < 8 ^ away x y := by
    rw [lostPart, div_mul_eq_mul_div, div_lt_one hpow]
    exact_mod_cast Iff.rfl
  rw [herror]
  refine and_congr_right fun hsmaller ↦ ?_
  -- the exact sum is just below a mantissa
  obtain ⟨hle, hwide, hend⟩ := lift_spec hD.1 (scale x y + 63).toNat
  rw [← short] at hle hwide hend
  have hbelow : |sgn (decide (total x y < 0)) * (difference x y - lostPart x y) * 8 ^ (scale x y - 13)| =
      ((difference x y * 8 ^ short x y : ℕ) - lostPart x y * 8 ^ short x y) * 8 ^ (scale x y - short x y - 13) := by
    have hunit : (8 : ℚ) ^ (scale x y - 13) = 8 ^ short x y * 8 ^ (scale x y - short x y - 13) := by
      rw [← zpow_natCast, ← zpow_add₀ (by norm_num)]
      congr 1
      ring
    have hdiff : (1 : ℚ) ≤ difference x y := by exact_mod_cast hD.2
    rw [abs_mul, abs_mul, sgn_abs, one_mul, abs_of_pos (show (0 : ℚ) < 8 ^ (scale x y - 13) by positivity),
      abs_of_pos (by linarith), hunit]
    push_cast
    ring
  have hne : sgn (decide (total x y < 0)) * (difference x y : ℚ) ≠ sgn (decide (total x y < 0)) * (difference x y - lostPart x y) := by
    intro heq
    have hsgn : sgn (decide (total x y < 0)) ≠ 0 := by
      rw [sgn]
      split_ifs <;> norm_num
    have heq' := mul_left_cancel₀ hsgn heq
    linarith
  have hint : (∃ i : ℕ, lostPart x y * 8 ^ short x y * 8 = i) ↔ 8 ^ away x y ∣ lost x y * 8 ^ (short x y + 1) := by
    have hmul : lostPart x y * 8 ^ short x y * 8 = (lost x y * 8 ^ (short x y + 1) : ℕ) / 8 ^ away x y := by
      rw [lostPart]
      push_cast
      ring
    rw [hmul]
    constructor
    · rintro ⟨i, hi⟩
      rw [div_eq_iff hpow.ne'] at hi
      exact ⟨i, by rw [mul_comm (8 ^ away x y)]; exact_mod_cast hi⟩
    · rintro ⟨i, hi⟩
      refine ⟨i, ?_⟩
      rw [hi, Nat.cast_mul]
      push_cast
      field_simp
  rw [← hint, ← @representable_below (scale x y - short x y) _ (lostPart x y * 8 ^ short x y) (difference x y * 8 ^ short x y) (by omega)
    (by omega) (hend.imp (by omega) id) (by positivity) (herror.mpr hsmaller) hbelow (Nat.mul_pos hD.2 (by positivity))]
  exact ⟨fun himp hrep ↦ hne (himp hrep), fun hno hrep ↦ absurd hrep hno⟩

/-- The magnitude of a sum of one sign. -/
lemma same_abs (h : exponent y.high ≤ exponent x.high) (hs : negative x.high = negative y.high) :
    x.value + y.value = sgn (negative x.high) * ((larger x y + smaller x y : ℕ) + lostPart x y) * 8 ^ (scale x y - 13) ∧
      |x.value + y.value| = ((larger x y + smaller x y : ℕ) + lostPart x y) * 8 ^ (scale x y - 13) := by
  have hsum : x.value + y.value = sgn (negative x.high) * ((larger x y + smaller x y : ℕ) + lostPart x y) * 8 ^ (scale x y - 13) := by
    rw [value_larger x y, value_smaller h, ← hs]
    push_cast
    ring
  have hge := (lostPart_range x y).1
  refine ⟨hsum, ?_⟩
  rw [hsum, abs_mul, abs_mul, sgn_abs, one_mul, abs_of_pos (show (0 : ℚ) < 8 ^ (scale x y - 13) by positivity),
    abs_of_nonneg (by positivity)]

/-- **A carry of operands that are not negative**: the sum is rounded at the next exponent. -/
lemma sound_carry (h : exponent y.high ≤ exponent x.high) (hx : negative x.high = false) (hy : negative y.high = false)
    (hM : 2 ^ 78 ≤ larger x y + smaller x y) (hrange : |x.value + y.value| < 8 ^ 76) (ncsf : Bool) :
    ∃ r q, doubleAligned ncsf x y = some (r, q) ∧ Sound (x.value + y.value) r := by
  have hs := hx.trans hy.symm
  obtain ⟨hsum, habs⟩ := same_abs h hs
  obtain ⟨hge, hone, hzero⟩ := lostPart_range x y
  obtain ⟨hnat, hsign⟩ := same_total hs
  obtain ⟨-, hlow, -⟩ := scale_eq h
  have hltp := larger_lt h
  have hlts := (smaller_lt x y).1
  have hM' : (2 : ℚ) ^ 78 ≤ (larger x y + smaller x y : ℕ) := by exact_mod_cast hM
  have hscale : scale x y < 63 := by
    by_contra hno
    have hunit : (8 : ℚ) ^ 50 ≤ 8 ^ (scale x y - 13) := by
      rw [← zpow_natCast]
      exact zpow_le_zpow_right₀ (by norm_num) (by push_cast; omega)
    have hprod : (2 : ℚ) ^ 78 * 8 ^ 50 ≤ ((larger x y + smaller x y : ℕ) + lostPart x y) * 8 ^ (scale x y - 13) :=
      mul_le_mul (by linarith) hunit (by positivity) (by positivity)
    rw [← habs] at hprod
    norm_num at hprod hrange
    linarith
  have hstray : stray x y = 0 := by rw [stray, hx, hy, Bool.toNat_false, Nat.zero_add, Nat.zero_sub]
  obtain ⟨r, q, m, hrun, hneg, hexp, hdigits, hm⟩ := result_carry h (by omega) (by omega) hstray hscale ncsf
  refine ⟨r, q, hrun, ?_⟩
  rw [hnat] at hm
  rw [hsign (by omega), hx] at hneg
  generalize larger x y + smaller x y = M at *
  have hV : (8 : ℚ) ^ (scale x y + 1 - 13) = 8 * 8 ^ (scale x y - 13) := by
    rw [show scale x y + 1 - 13 = scale x y - 13 + 1 by ring, zpow_add_one₀ (by norm_num), mul_comm]
  have hT : x.value + y.value = ((M : ℚ) + lostPart x y) / 8 * 8 ^ (scale x y + 1 - 13) := by
    rw [hsum, hx, sgn, if_neg Bool.false_ne_true, hV]
    ring
  have hvalue : r.value = (m : ℚ) * 8 ^ (scale x y + 1 - 13) := by
    rw [Double.value, hneg, hdigits, hexp, if_neg Bool.false_ne_true, one_mul]
  have hsplit : (M : ℚ) = 8 * (M / 8 : ℕ) + (M % 8 : ℕ) := by exact_mod_cast (Nat.div_add_mod M 8).symm
  have hlast : (M % 8 : ℕ) ≤ (7 : ℚ) := by exact_mod_cast (show M % 8 ≤ 7 by omega)
  have hlast' : (0 : ℚ) ≤ (M % 8 : ℕ) := Nat.cast_nonneg _
  rw [hT, @sound_iff r m _ _ 0 (by positivity) hvalue (by rw [Double.unit, hexp, pow_zero, mul_one]), pow_zero, mul_one, abs_lt]
  constructor
  · rw [hm]
    split_ifs with hup
    · have hfour : (4 : ℚ) ≤ (M % 8 : ℕ) := by exact_mod_cast hup.1
      push_cast
      constructor <;> linarith
    · push_cast
      constructor <;> linarith
  · intro hrep
    by_contra hno
    refine @not_representable (scale x y + 1) _ (((M : ℚ) + lostPart x y) / 8) (.inr ?_) (fun n hn ↦ hno ?_) ?_ hrep
    · linarith
    · -- a whole mantissa: nothing is lost, and the last octade is zero
      have hv : lostPart x y = 0 := by
        by_contra hne
        have hpos : 0 < lostPart x y := lt_of_le_of_ne hge (Ne.symm hne)
        exact @not_whole _ M hpos hone (8 * n) (by push_cast; linarith)
      have hM8 : M = 8 * n := by
        rw [hv, add_zero] at hn
        exact_mod_cast (show (M : ℚ) = 8 * n by linarith)
      have hup : ¬ RoundsUp (M % 8) (M / 8) := fun hup ↦ absurd hup.1 (by omega)
      rw [hm, if_neg hup, hM8, hv, Nat.mul_div_cancel_left _ (by norm_num)]
      push_cast
      ring
    · rw [abs_mul, abs_of_pos (show (0 : ℚ) < 8 ^ (scale x y + 1 - 13) by positivity), abs_of_nonneg (by positivity)]

/-- **A carry of negative operands**: the result is far from the sum. -/
lemma unsound_carry (h : exponent y.high ≤ exponent x.high) (hx : negative x.high = true) (hy : negative y.high = true)
    (hM : 2 ^ 78 ≤ larger x y + smaller x y) (ncsf : Bool) :
    ∃ r q, doubleAligned ncsf x y = some (r, q) ∧ ¬ Sound (x.value + y.value) r := by
  have hs := hx.trans hy.symm
  obtain ⟨hsum, -⟩ := same_abs h hs
  obtain ⟨hge, hone, -⟩ := lostPart_range x y
  obtain ⟨hnat, hsign⟩ := same_total hs
  have hltp := larger_lt h
  have hlts := (smaller_lt x y).1
  have hneg' : total x y < 0 := of_decide_eq_true ((hsign (by omega)).trans hx)
  have hstray : stray x y = 1 := by rw [stray, hx, hy, Bool.toNat_true, if_pos hneg']
  obtain ⟨r, q, hrun, hneg, hexp, hlow, hhigh⟩ := result_wrong h (by omega) (by omega) hstray ncsf
  refine ⟨r, q, hrun, fun hsound ↦ ?_⟩
  have herror := hsound.1
  have hunit : (0 : ℚ) < 8 ^ (scale x y - 13) := by positivity
  have hM' : (2 : ℚ) ^ 78 ≤ (larger x y + smaller x y : ℕ) ∧ ((larger x y + smaller x y : ℕ) : ℚ) < 2 ^ 79 :=
    ⟨by exact_mod_cast hM, by exact_mod_cast (show larger x y + smaller x y < 2 ^ 79 by omega)⟩
  have hlow' : (2 : ℚ) ^ 77 ≤ wide r.digits := by exact_mod_cast hlow
  have hhigh' : (wide r.digits : ℚ) < 2 ^ 78 := by exact_mod_cast hhigh
  rw [hsum, hx, Double.value, hneg, decide_eq_true hneg', sgn, if_pos rfl, Double.unit] at herror
  generalize ((larger x y + smaller x y : ℕ) : ℚ) = M at *
  generalize (wide r.digits : ℚ) = m at *
  rcases hexp with hexp | hexp
  · have hbig : (8 : ℚ) ^ (exponent r.high - 13) = 512 * 8 ^ (scale x y - 13) := by
      rw [hexp, show scale x y + 3 - 13 = scale x y - 13 + 3 by ring, zpow_add₀ (by norm_num)]
      norm_num
      ring
    rw [hbig] at herror
    rw [abs_lt] at herror
    nlinarith [herror.1, herror.2]
  · have hsmall : (8 : ℚ) ^ (scale x y - 13) = 2 ^ 183 * 8 ^ (exponent r.high - 13) := by
      rw [show scale x y - 13 = exponent r.high - 13 + 61 by rw [hexp]; ring, zpow_add₀ (by norm_num)]
      norm_num
      ring
    have hpos : (0 : ℚ) < 8 ^ (exponent r.high - 13) := by positivity
    rw [hsmall] at herror
    rw [abs_lt] at herror
    nlinarith [herror.1, herror.2]

/-- **The sum of operands of which the first one has the larger exponent.** -/
theorem doubleAligned_iff (h : exponent y.high ≤ exponent x.high) (hrange : |x.value + y.value| < 8 ^ 76) (ncsf : Bool) :
    ∃ r q, doubleAligned ncsf x y = some (r, q) ∧ (Sound (x.value + y.value) r ↔ Clean x y) := by
  have hltp := larger_lt h
  have hlts := (smaller_lt x y).1
  by_cases hs : negative x.high = negative y.high
  · obtain ⟨hnat, -⟩ := same_total hs
    by_cases hM : larger x y + smaller x y < 2 ^ 78
    · have hclean : Clean x y := ⟨fun _ hcarry ↦ absurd hcarry.2 (not_le.mpr hM), fun hne ↦ absurd hs hne⟩
      by_cases hlost : lost x y = 0
      · obtain ⟨r, q, hrun, hsound⟩ := sound_whole h (by rwa [hnat]) hlost ncsf
        exact ⟨r, q, hrun, iff_of_true hsound hclean⟩
      · obtain ⟨r, q, hrun, hsound⟩ := sound_same h hs hM hlost ncsf
        exact ⟨r, q, hrun, iff_of_true hsound hclean⟩
    · cases hx : negative x.high with
      | false =>
          obtain ⟨r, q, hrun, hsound⟩ := sound_carry h hx (hs ▸ hx) (not_lt.mp hM) hrange ncsf
          exact ⟨r, q, hrun, iff_of_true hsound
            ⟨fun _ hneg ↦ Bool.false_ne_true (hx.symm.trans hneg.1), fun hne ↦ absurd hs hne⟩⟩
      | true =>
          obtain ⟨r, q, hrun, hunsound⟩ := unsound_carry h hx (hs ▸ hx) (not_lt.mp hM) ncsf
          exact ⟨r, q, hrun, iff_of_false hunsound fun hclean ↦ hclean.1 hs ⟨hx, not_lt.mp hM⟩⟩
  · by_cases hlost : lost x y = 0
    · have hM : (total x y).natAbs < 2 ^ 78 := by
        rw [total, withSign, withSign]
        cases hx : negative x.high <;> cases hy : negative y.high
        · exact absurd (hx.trans hy.symm) hs
        · rw [if_neg Bool.false_ne_true, if_pos rfl]
          omega
        · rw [if_pos rfl, if_neg Bool.false_ne_true]
          omega
        · exact absurd (hx.trans hy.symm) hs
      obtain ⟨r, q, hrun, hsound⟩ := sound_whole h hM hlost ncsf
      exact ⟨r, q, hrun, iff_of_true hsound ⟨fun heq ↦ absurd heq hs, fun _ hno ↦ absurd hlost hno⟩⟩
    · obtain ⟨r, q, hrun, hiff⟩ := sound_opposite h hs hlost ncsf
      refine ⟨r, q, hrun, hiff.trans ⟨fun hclean ↦ ⟨fun heq ↦ absurd heq hs, fun _ _ ↦ hclean⟩, fun hclean ↦ hclean.2 hs hlost⟩⟩

/-! ### The operators -/

/-- The operand of the operator: its sign is turned for the subtraction. -/
def operand (sub : Bool) (a : Double) : Double := if sub then ⟨a.high ^^^ msign, a.low⟩ else a

/-- The exact sum or difference, and the operands as they should be, the one with the larger exponent first. -/
def exactSum (sub : Bool) (a b : Double) : ℚ := b.value + if sub then -a.value else a.value
def CleanSum (sub : Bool) (a b : Double) : Prop :=
  if exponent b.high > exponent (operand sub a).high then Clean b (operand sub a) else Clean (operand sub a) b

/-- A word with its sign turned. -/
lemma turned_parts (h : ℕ) : negative (h ^^^ msign) = !negative h ∧ exponent (h ^^^ msign) = exponent h ∧
    mantissa (h ^^^ msign) = mantissa h := by
  have hbit (i : ℕ) (n : ℕ) : (h ^^^ msign) / 2 ^ i % 2 ^ n = h / 2 ^ i % 2 ^ n ^^^ msign / 2 ^ i % 2 ^ n := by
    rw [Nat.xor_div_two_pow, Nat.xor_mod_two_pow]
  refine ⟨?_, ?_, ?_⟩
  · have hsign := hbit 46 1
    rw [pow_one, show msign / 2 ^ 46 % 2 = 1 from rfl] at hsign
    rw [negative_eq, negative_eq, hsign]
    rcases Nat.mod_two_eq_zero_or_one (h / 2 ^ 46) with hzero | hone
    · rw [hzero]
      rfl
    · rw [hone]
      rfl
  · have hsign := hbit 45 1
    have hfield := hbit 39 6
    rw [pow_one, show msign / 2 ^ 45 % 2 = 0 from rfl, Nat.xor_zero] at hsign
    rw [show msign / 2 ^ 39 % 2 ^ 6 = 0 from rfl, Nat.xor_zero] at hfield
    rw [exponent_eq, exponent_eq, hsign, show (64 : ℕ) = 2 ^ 6 from rfl, hfield]
  · rw [mantissa_eq, mantissa_eq, Nat.xor_mod_two_pow, show msign % 2 ^ 39 = 0 from rfl, Nat.xor_zero]

lemma operand_value (sub : Bool) (a : Double) : (operand sub a).value = if sub then -a.value else a.value := by
  cases sub with
  | false => rfl
  | true =>
      obtain ⟨hneg, hexp, hmant⟩ := turned_parts a.high
      rw [operand, if_pos rfl, if_pos rfl, Double.value, Double.value, Double.digits, Double.digits, hneg, hexp, hmant]
      cases negative a.high with
      | false => simp
      | true => simp

lemma sumDouble_comm (sa sb : Bool) (p q : ℕ × ℕ) : sumDouble sa sb p q = sumDouble sb sa q p := by
  rw [sumDouble, sumDouble]
  generalize (if sa = true then complementPair p.1 p.2 else p) = u
  generalize (if sb = true then complementPair q.1 q.2 else q) = v
  rw [Nat.add_comm u.2, Nat.add_comm u.1]

/-- **The addition does not depend on the order of its operands.** -/
theorem doubleAdd_comm (ncsf : Bool) (a b : Double) : doubleAdd ncsf false a b = doubleAdd ncsf false b a := by
  have hequal (h : exponent a.high = exponent b.high) : doubleAligned ncsf a b = doubleAligned ncsf b a := by
    have halign (p q : ℕ × ℕ) (e : ℤ) : alignPair 128 p q e e 0 = some (p, q, e, e, 0) := by
      rw [alignPair, if_neg (not_not.mpr rfl)]
    rw [doubleAligned, doubleAligned, h, halign, halign]
    dsimp only [bind, Option.bind]
    rw [if_neg (not_not.mpr rfl), if_neg (not_not.mpr rfl), sumDouble_comm]
  rw [doubleAdd, doubleAdd, if_neg Bool.false_ne_true, if_neg Bool.false_ne_true]
  rcases lt_trichotomy (exponent a.high) (exponent b.high) with hlt | heq | hgt
  · rw [if_pos hlt, if_neg (not_lt.mpr hlt.le)]
  · rw [if_neg (not_lt.mpr heq.ge), if_neg (not_lt.mpr heq.le), hequal heq]
  · rw [if_neg (not_lt.mpr hgt.le), if_pos hgt]

/-- **The addition and the subtraction**: the addition is commutative; and without an exponent overflow the result is within a unit of the
exact one, and equal to it when it can be written, exactly for operands that are clean. -/
theorem doubleAdd_iff (ncsf : Bool) (a b : Double) :
    doubleAdd ncsf false a b = doubleAdd ncsf false b a ∧
    ∀ sub, |exactSum sub a b| < 8 ^ 76 →
      ∃ r q, doubleAdd ncsf sub a b = some (r, q) ∧ (Sound (exactSum sub a b) r ↔ CleanSum sub a b) := by
  refine ⟨doubleAdd_comm ncsf a b, fun sub hrange ↦ ?_⟩
  rw [exactSum, ← operand_value] at hrange ⊢
  have hrun : doubleAdd ncsf sub a b = if exponent b.high > exponent (operand sub a).high then doubleAligned ncsf b (operand sub a)
      else doubleAligned ncsf (operand sub a) b := rfl
  rw [hrun, CleanSum]
  by_cases hgt : exponent b.high > exponent (operand sub a).high
  · rw [if_pos hgt, if_pos hgt]
    exact doubleAligned_iff hgt.le hrange ncsf
  · rw [if_neg hgt, if_neg hgt]
    rw [add_comm] at hrange ⊢
    exact doubleAligned_iff (not_lt.mp hgt) hrange ncsf

/-- The number one. -/
def doubleOne : Double := ⟨1, 0⟩

theorem doubleAdd_iff_two : ∃ r q, doubleAdd true false doubleOne doubleOne = some (r, q) ∧ Sound (exactSum false doubleOne doubleOne) r := by
  have hparts : negative doubleOne.high = false ∧ exponent doubleOne.high = 0 ∧ wide doubleOne.digits = 2 ^ 39 := by decide
  have hvalue : doubleOne.value = 1 := by
    rw [Double.value, hparts.1, hparts.2.1, hparts.2.2]
    norm_num
  have hclean : CleanSum false doubleOne doubleOne := by
    rw [CleanSum, if_neg (by decide)]
    exact ⟨fun _ hneg ↦ absurd hneg.1 (by decide), fun hne ↦ absurd rfl hne⟩
  obtain ⟨r, q, hrun, hiff⟩ := (doubleAdd_iff true doubleOne doubleOne).2 false (by
    rw [exactSum, if_neg Bool.false_ne_true, hvalue]
    norm_num)
  exact ⟨r, q, hrun, hiff.mpr hclean⟩

/-- A negative number with all octades of its first word full. -/
def fullNegative : Double := ⟨msign + mant, 0⟩

/-- Its sum with itself is wrong. -/
theorem double_carry : |exactSum false fullNegative fullNegative| < 8 ^ 76 ∧
    ∃ r q, doubleAdd true false fullNegative fullNegative = some (r, q) ∧ ¬ Sound (exactSum false fullNegative fullNegative) r := by
  have hparts : negative fullNegative.high = true ∧ exponent fullNegative.high = 0 ∧ wide fullNegative.digits = (2 ^ 39 - 1) * 2 ^ 39 := by
    decide
  have hvalue : fullNegative.value = -((2 ^ 39 - 1) * 2 ^ 39 * 8 ^ (-13 : ℤ)) := by
    rw [Double.value, hparts.1, hparts.2.1, hparts.2.2]
    norm_num
  refine ⟨?_, ?_⟩
  · rw [exactSum, if_neg Bool.false_ne_true, hvalue]
    norm_num
  · exact unsound_carry le_rfl hparts.1 hparts.1 (by decide) true

end Ka10Simh.B5500
