import Ka10Simh.B5500.Arith.Word

/-!
The divisions of the B5500: `DIV`, `IDV` and `RDV`.

* `divideLoop`, `divide`: one octade of the quotient at a time.
* `divideLoop_div`, `divideLoop_integer`: dividend, quotient and remainder at the end of the loop.
* `truncated`: a quotient without its fraction.
* `divide_spec`: quotients and remainders in normal state.
-/

namespace Ka10Simh.B5500

open Word

/-! ### The source -/

/-- `WMOP_DIV`, `WMOP_IDV`, `WMOP_RDV`. -/
inductive DivideOp
  | div | idv | rdv
  deriving DecidableEq

/-- `while (B >= A) { ++q; B -= A; }`, for `k` tests at most. -/
def quotientDigit (a : ℕ) : ℕ → ℕ → ℕ → Option (ℕ × ℕ)
  | 0, _, _ => none
  | k + 1, q, b => if a ≤ b then quotientDigit a k (q + 1) (b - a) else some (q, b)

/-- The loop of a division, for `k` turns at most: the last digit, the remainder with its exponent, and the quotient. -/
def divideLoop (op : DivideOp) (a : ℕ) (ea : ℤ) : ℕ → ℕ → ℤ → ℕ → Option (ℕ × ℕ × ℤ × ℕ)
  | 0, _, _, _ => none
  | k + 1, b, eb, x => do
      let (q, b) ← quotientDigit a 8 0 b
      if op = .div then
        if x &&& norm ≠ 0 then some (q, b, eb, x)
        else divideLoop op a ea k (octadeUp b) (eb - 1) (octadeUp x + q)
      else
        let x := octadeUp x + q
        if x &&& norm ≠ 0 then some (q, b, eb, x)
        else if eb ≤ ea then some (q, b, eb, x)
        else divideLoop op a ea k (octadeUp b) (eb - 1) x

/-- What is made of the quotient and the remainder: the sign, the exponent and the mantissa of the result, and `INT_OVER`. -/
def divideResult (ncsf : Bool) (op : DivideOp) (sb : Bool) (ea : ℤ) : ℕ × ℕ × ℤ × ℕ → Bool × ℤ × ℕ × List ℕ
  | (q, b, eb, x) =>
      let raised := if ncsf then [intOver] else []
      match op with
      | .div => (sb, eb - (ea - 1), if 4 ≤ q then if x < mant then x + 1 else x else x, [])
      | .idv => if ea = eb then (sb, 0, x, []) else (sb, eb - ea, x, raised)
      | .rdv => if ea = eb then (if b = 0 then (false, 0, b, []) else (sb, eb, b, [])) else (false, 0, 0, raised)

/-- The check of the exponent. -/
def checkExponent (ncsf : Bool) (e : ℤ) : List ℕ :=
  if 63 < e then if ncsf then [expoOver] else []
  else if e < -63 then if ncsf then [expoUnder] else []
  else []

/-- `divide` of the operands in `A` and `B`. -/
def divide (ncsf : Bool) (op : DivideOp) (a b x : ℕ) : Option Result :=
  if a &&& mant = 0 then some ⟨b, x, if ncsf then [divZero] else []⟩
  else if b &&& mant = 0 then some ⟨0, x, []⟩
  else do
    let (ma, ea) ← normalize 13 (mantissa a) (exponent a)
    let (mb, eb) ← normalize 13 (mantissa b) (exponent b)
    if op ≠ .div ∧ eb < ea then some ⟨if op = .rdv then b &&& fword else 0, x, []⟩
    else
      let sb := if op ≠ .rdv then negative b != negative a else negative b
      let r ← divideLoop op ma ea 15 mb eb 0
      let (neg, e, m, raised) := divideResult ncsf op sb ea r
      some ⟨pack neg e m, m, raised ++ checkExponent ncsf e⟩

/-! ### The loop -/

/-- A digit of the quotient. -/
lemma quotientDigit_spec {a k q b : ℕ} (ha : 0 < a) (hk : b < a * k) :
    quotientDigit a k q b = some (q + b / a, b % a) := by
  induction k generalizing q b with
  | zero => omega
  | succ k ih =>
      rw [Nat.mul_succ] at hk
      rw [quotientDigit]
      by_cases hle : a ≤ b
      · have hdiv := Nat.div_eq_sub_div ha hle
        rw [if_pos hle, ih (by omega), hdiv, Nat.mod_eq_sub_mod hle]
        rw [show q + 1 + (b - a) / a = q + ((b - a) / a + 1) by omega]
      · rw [if_neg hle, Nat.div_eq_of_lt (by omega), Nat.mod_eq_of_lt (by omega), Nat.add_zero]

/-- A digit of the quotient of a dividend that is not too large. -/
lemma quotientDigit_facts {a b : ℕ} (ha : 0 < a) (hb : b < 8 * a) : quotientDigit a 8 0 b = some (b / a, b % a) ∧
    b / a < 8 ∧ b % a < a ∧ a * (b / a) + b % a = b := by
  refine ⟨?_, Nat.div_lt_of_lt_mul (by omega), Nat.mod_lt _ ha, Nat.div_add_mod b a⟩
  rw [quotientDigit_spec ha (by omega), Nat.zero_add]

section Loop

variable {a k b x : ℕ} {ea eb : ℤ} {op : DivideOp}

/-- **The loop of `DIV`**: after `n` turns the quotient is normalized. -/
theorem divideLoop_div (ha : 0 < a) (ha' : a < 2 ^ 39) (hb : b < 8 * a) (hx : x < 2 ^ 39)
    (hk : 8 * a * 2 ^ 36 ≤ (b + 8 * x * a) * 8 ^ k) : ∃ n q r x' : ℕ,
      divideLoop .div a ea (k + 1) b eb x = some (q, r, eb - n, x') ∧ (b + 8 * x * a) * 8 ^ n = (8 * x' + q) * a + r ∧
        r < a ∧ q < 8 ∧ 2 ^ 36 ≤ x' ∧ x' < 2 ^ 39 := by
  have hdone {b x : ℕ} {eb : ℤ} (k : ℕ) (hb : b < 8 * a) (hx : x < 2 ^ 39) (hnorm : 2 ^ 36 ≤ x) : ∃ n q r x' : ℕ,
      divideLoop .div a ea (k + 1) b eb x = some (q, r, eb - n, x') ∧ (b + 8 * x * a) * 8 ^ n = (8 * x' + q) * a + r ∧
        r < a ∧ q < 8 ∧ 2 ^ 36 ≤ x' ∧ x' < 2 ^ 39 := by
    obtain ⟨hdigit, hq, hr, hsplit⟩ := quotientDigit_facts ha hb
    refine ⟨0, b / a, b % a, x, ?_, ?_, hr, hq, hnorm, hx⟩
    · have hnonzero : x &&& norm ≠ 0 := by
        rw [ne_eq, and_norm hx]
        omega
      rw [divideLoop, hdigit, Option.bind_eq_bind, Option.bind_some]
      dsimp only
      rw [if_pos rfl, if_pos hnonzero]
      simp
    · rw [pow_zero, mul_one]
      linarith
  induction k generalizing b x eb with
  | zero =>
      refine hdone 0 hb hx ?_
      by_contra hsmall
      have hmul : a * (x + 1) ≤ a * 2 ^ 36 := Nat.mul_le_mul_left a (by omega)
      rw [pow_zero, mul_one] at hk
      linarith
  | succ k ih =>
      by_cases hnorm : 2 ^ 36 ≤ x
      · exact hdone (k + 1) hb hx hnorm
      obtain ⟨hdigit, hq, hr, hsplit⟩ := quotientDigit_facts ha hb
      have hgo : ¬ x &&& norm ≠ 0 := not_not.mpr ((and_norm hx).mpr (by omega))
      have htotal : 8 * (b % a) + 8 * (8 * x + b / a) * a = (b + 8 * x * a) * 8 := by linarith
      obtain ⟨n, q, r, x', hrun, hvalue, hrest⟩ := @ih (8 * (b % a)) (8 * x + b / a) (eb - 1) (by omega) (by omega) (by
        rw [htotal, mul_assoc (b + 8 * x * a), ← pow_succ']
        exact hk)
      refine ⟨n + 1, q, r, x', ?_, ?_, hrest⟩
      · rw [divideLoop, hdigit, Option.bind_eq_bind, Option.bind_some]
        dsimp only
        rw [if_pos rfl, if_neg hgo, octadeUp_eq (by omega), octadeUp_eq (by omega), hrun]
        push_cast
        ring_nf
      · rw [← hvalue, htotal, pow_succ']
        ring

/-- **The loop of `IDV` and `RDV`**: it ends when the exponents are equal, or when the quotient is normalized. -/
theorem divideLoop_integer (hop : op ≠ .div) (ha : 0 < a) (ha' : a < 2 ^ 39) (hb : b < 8 * a) (hx : x < 2 ^ 36) (he : ea ≤ eb)
    (hk : a * 2 ^ 36 ≤ (b + 8 * x * a) * 8 ^ k) : ∃ n q r x' : ℕ,
      divideLoop op a ea (k + 1) b eb x = some (q, r, eb - n, x') ∧ (b + 8 * x * a) * 8 ^ n = x' * a + r ∧
        r < a ∧ x' < 2 ^ 39 ∧ ea ≤ eb - n ∧ (2 ^ 36 ≤ x' ∨ ea = eb - n) := by
  have hbody {b x : ℕ} {eb : ℤ} (k : ℕ) (hb : b < 8 * a) (hx : x < 2 ^ 36) : divideLoop op a ea (k + 1) b eb x =
      if (8 * x + b / a) &&& norm ≠ 0 then some (b / a, b % a, eb, 8 * x + b / a)
      else if eb ≤ ea then some (b / a, b % a, eb, 8 * x + b / a)
      else divideLoop op a ea k (8 * (b % a)) (eb - 1) (8 * x + b / a) := by
    obtain ⟨hdigit, hq, hr, -⟩ := quotientDigit_facts ha hb
    rw [divideLoop, hdigit, Option.bind_eq_bind, Option.bind_some]
    dsimp only
    rw [if_neg hop, octadeUp_eq (by omega), octadeUp_eq (by omega)]
  have hdone {b x : ℕ} {eb : ℤ} (k : ℕ) (hb : b < 8 * a) (hx : x < 2 ^ 36) (he : ea ≤ eb)
      (hend : 2 ^ 36 ≤ 8 * x + b / a ∨ eb ≤ ea) : ∃ n q r x' : ℕ,
      divideLoop op a ea (k + 1) b eb x = some (q, r, eb - n, x') ∧ (b + 8 * x * a) * 8 ^ n = x' * a + r ∧
        r < a ∧ x' < 2 ^ 39 ∧ ea ≤ eb - n ∧ (2 ^ 36 ≤ x' ∨ ea = eb - n) := by
    obtain ⟨-, hq, hr, hsplit⟩ := quotientDigit_facts ha hb
    refine ⟨0, b / a, b % a, 8 * x + b / a, ?_, ?_, hr, by lia, by simpa using he, ?_⟩
    · have hsome : divideLoop op a ea (k + 1) b eb x = some (b / a, b % a, eb, 8 * x + b / a) := by
        have hnorm := @and_norm_ne (8 * x + b / a) (by lia)
        rw [hbody k hb hx]
        by_cases hlarge : 2 ^ 36 ≤ 8 * x + b / a
        · rw [if_pos (hnorm.mpr hlarge)]
        · rw [if_neg (mt hnorm.mp hlarge), if_pos (hend.resolve_left hlarge)]
      rw [hsome]
      simp
    · rw [pow_zero, mul_one]
      linarith
    · simp only [Nat.cast_zero, sub_zero]
      lia
  induction k generalizing b x eb with
  | zero =>
      obtain ⟨-, hq, hr, hsplit⟩ := quotientDigit_facts ha hb
      refine hdone 0 hb hx he (.inl ?_)
      by_contra hsmall
      have hmul : a * (8 * x + b / a + 1) ≤ a * 2 ^ 36 := Nat.mul_le_mul_left a (by omega)
      have hsum : b + 8 * x * a = a * (8 * x + b / a) + b % a := by linarith
      rw [pow_zero, mul_one, hsum] at hk
      rw [Nat.mul_succ] at hmul
      omega
  | succ k ih =>
      by_cases hend : 2 ^ 36 ≤ 8 * x + b / a ∨ eb ≤ ea
      · exact hdone (k + 1) hb hx he hend
      obtain ⟨-, hq, hr, hsplit⟩ := quotientDigit_facts ha hb
      rw [not_or, not_le, not_le] at hend
      have htotal : 8 * (b % a) + 8 * (8 * x + b / a) * a = (b + 8 * x * a) * 8 := by linarith
      obtain ⟨n, q, r, x', hrun, hvalue, hr', hx', hle, hend'⟩ := @ih (8 * (b % a)) (8 * x + b / a) (eb - 1) (by omega) hend.1
        (by omega) (by
          rw [htotal, mul_assoc (b + 8 * x * a), ← pow_succ']
          exact hk)
      refine ⟨n + 1, q, r, x', ?_, ?_, hr', hx', ?_, ?_⟩
      · rw [hbody (k + 1) hb hx, if_neg (by rw [and_norm_ne] <;> omega), if_neg (by omega), hrun]
        push_cast
        ring_nf
      · rw [← hvalue, htotal, pow_succ']
        ring
      · push_cast
        omega
      · push_cast
        omega

end Loop

/-! ### Quotients -/

/-- A quotient without its fraction. -/
def truncated (x : ℚ) : ℤ := if x < 0 then ⌈x⌉ else ⌊x⌋

lemma truncated_signed (neg : Bool) {x : ℚ} (hx : 0 ≤ x) :
    truncated ((if neg then -1 else 1) * x) = (if neg then -1 else 1) * ⌊x⌋ := by
  cases neg with
  | false => rw [if_neg Bool.false_ne_true, if_neg Bool.false_ne_true, one_mul, one_mul, truncated, if_neg (not_lt.mpr hx)]
  | true =>
      rw [if_pos rfl, if_pos rfl, neg_one_mul, neg_one_mul, truncated]
      split_ifs with h
      · exact Int.ceil_neg
      · have hzero : x = 0 := by linarith
        simp [hzero]

lemma sign_bne (n m : Bool) : (if n != m then (-1 : ℚ) else 1) = (if n then -1 else 1) / (if m then -1 else 1) := by
  cases n <;> cases m <;> norm_num

/-- The operands of a division, normalized. -/
structure Divided (a b ma mb : ℕ) (ea eb : ℤ) : Prop where
  pos : 2 ^ 36 ≤ ma
  lt : ma < 2 ^ 39
  pos' : 2 ^ 36 ≤ mb
  lt' : mb < 2 ^ 39
  valueA : value a = (if negative a then -1 else 1) * (ma * 8 ^ ea)
  valueB : value b = (if negative b then -1 else 1) * (mb * 8 ^ eb)
  range : ea ≤ 63

section Divided

variable {a b x ma mb : ℕ} {ea eb : ℤ} {ncsf : Bool} {op : DivideOp}

/-- A division of normalized operands. -/
def divideNormal (ncsf : Bool) (op : DivideOp) (a b x ma mb : ℕ) (ea eb : ℤ) : Option Result :=
  if op ≠ .div ∧ eb < ea then some ⟨if op = .rdv then b &&& fword else 0, x, []⟩
  else (divideLoop op ma ea 15 mb eb 0).map fun r ↦
    let d := divideResult ncsf op (if op ≠ .rdv then negative b != negative a else negative b) ea r
    ⟨pack d.1 d.2.1 d.2.2.1, d.2.2.1, d.2.2.2 ++ checkExponent ncsf d.2.1⟩

lemma divide_operands (ha : mantissa a ≠ 0) (hb : mantissa b ≠ 0) : ∃ (ma mb : ℕ) (ea eb : ℤ), Divided a b ma mb ea eb ∧
    ∀ (ncsf : Bool) (op : DivideOp), divide ncsf op a b x = divideNormal ncsf op a b x ma mb ea eb := by
  obtain ⟨ma, ea, hrun, hlow, hhigh, hvalue, hle⟩ := normalize_operand ha
  obtain ⟨mb, eb, hrun', hlow', hhigh', hvalue', -⟩ := normalize_operand hb
  have hrange := exponent_range a
  refine ⟨ma, mb, ea, eb, ⟨hlow, hhigh, hlow', hhigh', hvalue, hvalue', by omega⟩, fun ncsf op ↦ ?_⟩
  have ha' : ¬ a &&& mant = 0 := ha
  have hb' : ¬ b &&& mant = 0 := hb
  rw [divide, if_neg ha', if_neg hb', hrun, hrun', divideNormal]
  simp only [Option.bind_eq_bind, Option.bind_some]
  by_cases hsmall : op ≠ .div ∧ eb < ea
  · rw [if_pos hsmall, if_pos hsmall]
  · rw [if_neg hsmall, if_neg hsmall]
    cases divideLoop op ma ea 15 mb eb 0 <;> rfl

namespace Divided

lemma ma_pos (h : Divided a b ma mb ea eb) : (0 : ℚ) < ma := by
  have hpos := h.pos
  exact_mod_cast (by omega : 0 < ma)

/-- The quotient of the operands. -/
lemma quotient (h : Divided a b ma mb ea eb) : value b / value a =
    (if negative b != negative a then -1 else 1) * ((mb : ℚ) / ma * 8 ^ (eb - ea)) := by
  have hma := h.ma_pos.ne'
  have h8 : (8 : ℚ) ^ ea ≠ 0 := by positivity
  have hsign : (if negative a then (-1 : ℚ) else 1) ≠ 0 := by
    split_ifs <;> norm_num
  rw [h.valueA, h.valueB, sign_bne, zpow_sub₀ (by norm_num)]
  field_simp

lemma quotient_nonneg (mb ma : ℕ) (e : ℤ) : 0 ≤ (mb : ℚ) / ma * 8 ^ e := by positivity

/-- A dividend of a smaller exponent. -/
lemma floor_small (h : Divided a b ma mb ea eb) (hlt : eb < ea) : ⌊(mb : ℚ) / ma * 8 ^ (eb - ea)⌋ = 0 := by
  rw [Int.floor_eq_zero_iff, Set.mem_Ico]
  refine ⟨quotient_nonneg mb ma _, ?_⟩
  have hstep : (8 : ℚ) ^ (eb - ea) ≤ 8 ^ (-1 : ℤ) := zpow_le_zpow_right₀ (by norm_num) (by omega)
  have hma := h.ma_pos
  have hbound : (mb : ℚ) < 8 * ma := by
    have hlow := h.pos
    have hhigh := h.lt'
    exact_mod_cast (by omega : mb < 8 * ma)
  have hratio : (mb : ℚ) / ma < 8 := by rwa [div_lt_iff₀ hma]
  calc (mb : ℚ) / ma * 8 ^ (eb - ea) ≤ (mb : ℚ) / ma * 8 ^ (-1 : ℤ) := mul_le_mul_of_nonneg_left hstep (by positivity)
    _ < 8 * 8 ^ (-1 : ℤ) := mul_lt_mul_of_pos_right hratio (by positivity)
    _ = 1 := by norm_num

/-- The quotient that has been developed after `n` turns. -/
lemma floor_developed (h : Divided a b ma mb ea eb) {n q r : ℕ} (hn : (eb : ℤ) - ea = n) (hvalue : mb * 8 ^ n = q * ma + r)
    (hr : r < ma) : ⌊(mb : ℚ) / ma * 8 ^ (eb - ea)⌋ = q := by
  have hma := h.ma_pos
  have hcast : (mb : ℚ) * 8 ^ n = q * ma + r := by exact_mod_cast hvalue
  have hr' : (r : ℚ) < ma := by exact_mod_cast hr
  have hr0 : (0 : ℚ) ≤ r := Nat.cast_nonneg r
  have hquot : (mb : ℚ) / ma * 8 ^ (eb - ea) = q + r / ma := by
    rw [hn, zpow_natCast, div_mul_eq_mul_div, hcast]
    field_simp
  rw [Int.floor_eq_iff, hquot]
  have hfrac : (r : ℚ) / ma < 1 := by rwa [div_lt_one hma]
  have hfrac' : 0 ≤ (r : ℚ) / ma := div_nonneg hr0 hma.le
  push_cast
  constructor <;> linarith

end Divided

/-- **The integer divisions** of operands that are not zero: the quotient with its remainder, or a quotient of more than
thirteen octades. -/
theorem Divided.integer (h : Divided a b ma mb ea eb) (hop : op ≠ .div) (he : ea ≤ eb) : ∃ n q r x' : ℕ,
    divideLoop op ma ea 15 mb eb 0 = some (q, r, eb - n, x') ∧ r < ma ∧ x' < 2 ^ 39 ∧
      (eb - n = ea ∧ mb * 8 ^ n = x' * ma + r ∧ ⌊(mb : ℚ) / ma * 8 ^ (eb - ea)⌋ = x' ∨
        ea < eb - n ∧ 2 ^ 39 ≤ ⌊(mb : ℚ) / ma * 8 ^ (eb - ea)⌋) := by
  have hpos := h.pos
  have hpos' := h.pos'
  have hlt := h.lt
  have hlt' := h.lt'
  obtain ⟨n, q, r, x', hrun, hvalue, hr, hx', hle, hend⟩ := @divideLoop_integer ma 14 mb 0 ea eb op hop (by omega) hlt
    (by omega) (by norm_num) he (by norm_num; omega)
  rw [Nat.mul_zero, Nat.zero_mul, Nat.add_zero] at hvalue
  refine ⟨n, q, r, x', hrun, hr, hx', ?_⟩
  rcases eq_or_lt_of_le hle with heq | hless
  · exact .inl ⟨heq.symm, hvalue, h.floor_developed (by omega) hvalue hr⟩
  · refine .inr ⟨hless, ?_⟩
    have hlarge := hend.resolve_right (by omega)
    have hma := h.ma_pos
    have hcast : (mb : ℚ) * 8 ^ n = x' * ma + r := by exact_mod_cast hvalue
    have hx0 : (2 : ℚ) ^ 36 ≤ x' := by exact_mod_cast hlarge
    have hr0 : (0 : ℚ) ≤ r := Nat.cast_nonneg r
    rw [Int.le_floor]
    have hdigits : (2 : ℚ) ^ 36 ≤ (mb : ℚ) / ma * 8 ^ n := by
      rw [div_mul_eq_mul_div, hcast, le_div_iff₀ hma]
      nlinarith
    have hstep : (8 : ℚ) ^ (1 : ℤ) ≤ 8 ^ (eb - ea - n) := zpow_le_zpow_right₀ (by norm_num) (by omega)
    calc ((2 ^ 39 : ℤ) : ℚ) = 2 ^ 36 * 8 ^ (1 : ℤ) := by norm_num
      _ ≤ (mb : ℚ) / ma * 8 ^ n * 8 ^ (eb - ea - n) := mul_le_mul hdigits hstep (by norm_num) (by positivity)
      _ = (mb : ℚ) / ma * 8 ^ (eb - ea) := by
          rw [mul_assoc, ← zpow_natCast, ← zpow_add₀ (by norm_num)]
          congr 2
          ring

end Divided

/-! ### The results -/

section Results

variable {a b x ma mb : ℕ} {ea eb : ℤ} {ncsf : Bool} {op : DivideOp}

lemma checkExponent_nil {e : ℤ} (h : checkExponent true e = []) : -63 ≤ e ∧ e ≤ 63 := by
  rw [checkExponent] at h
  split_ifs at h <;> simp_all

lemma intOver_checkExponent (e : ℤ) : intOver ∉ checkExponent ncsf e := by
  rw [checkExponent]
  split_ifs <;> decide

/-- **The divisions end.** -/
theorem divide_ends (ha : mantissa a ≠ 0) (hb : mantissa b ≠ 0) (ncsf : Bool) (op : DivideOp) : (divide ncsf op a b x).isSome := by
  obtain ⟨ma, mb, ea, eb, h, hdivide⟩ := @divide_operands a b x ha hb
  have hpos := h.pos
  have hpos' := h.pos'
  have hlt := h.lt
  have hlt' := h.lt'
  rw [hdivide, divideNormal]
  by_cases hsmall : op ≠ .div ∧ eb < ea
  · rw [if_pos hsmall]
    rfl
  · rw [if_neg hsmall, Option.isSome_map]
    by_cases hop : op = .div
    · subst hop
      obtain ⟨n, q, r, x', hrun, -⟩ := @divideLoop_div ma 14 mb 0 ea eb (by omega) hlt (by omega) (by norm_num)
        (by norm_num; omega)
      rw [hrun]
      rfl
    · obtain ⟨n, q, r, x', hrun, -⟩ := h.integer hop (by by_contra hlt; exact hsmall ⟨hop, by omega⟩)
      rw [hrun]
      rfl

/-- **`DIV`** is less than one unit of its last octade away from the quotient. -/
theorem div_spec (ha : mantissa a ≠ 0) (hb : mantissa b ≠ 0) {d : Result} (hd : divide true .div a b x = some d)
    (hnone : d.raised = []) : |value d.b - value b / value a| < 8 ^ exponent d.b := by
  obtain ⟨ma, mb, ea, eb, h, hdivide⟩ := @divide_operands a b x ha hb
  have hpos := h.pos
  have hpos' := h.pos'
  have hlt := h.lt
  have hlt' := h.lt'
  obtain ⟨n, q, r, x', hrun, hvalue, hr, hq, hlow, hhigh⟩ := @divideLoop_div ma 14 mb 0 ea eb (by omega) hlt (by omega)
    (by norm_num) (by norm_num; omega)
  rw [hdivide, divideNormal, if_neg (by simp), hrun, Option.map_some, Option.some_inj] at hd
  subst hd
  dsimp only [divideResult] at hnone ⊢
  rw [List.nil_append] at hnone
  obtain ⟨hle, hge⟩ := checkExponent_nil hnone
  rw [if_pos (by simp)]
  generalize hy : (if 4 ≤ q then if x' < mant then x' + 1 else x' else x') = y
  have hy' : y < 2 ^ 39 ∧ (y = x' ∨ y = x' + 1 ∧ 4 ≤ q) := by
    rw [← hy]
    split_ifs with h4 hmant
    · have htop : mant = 2 ^ 39 - 1 := rfl
      exact ⟨by lia, .inr ⟨rfl, h4⟩⟩
    · exact ⟨hhigh, .inl rfl⟩
    · exact ⟨hhigh, .inl rfl⟩
  obtain ⟨-, hexp, -⟩ := @pack_parts (negative b != negative a) _ _ hy'.1 hle hge
  rw [value_pack hy'.1 hle hge, hexp, h.quotient, ← mul_sub, abs_mul]
  have hsign : |(if negative b != negative a then (-1 : ℚ) else 1)| = 1 := by
    split_ifs <;> norm_num
  rw [hsign, one_mul]
  -- the quotient in units of the last octade
  rw [Nat.mul_zero, Nat.zero_mul, Nat.add_zero] at hvalue
  have hma := h.ma_pos
  have hcast : (mb : ℚ) * 8 ^ n = (8 * x' + q) * ma + r := by exact_mod_cast hvalue
  have hr' : (r : ℚ) < ma := by exact_mod_cast hr
  have hfrac : (r : ℚ) / ma < 1 := by rwa [div_lt_one hma]
  have hfrac' : 0 ≤ (r : ℚ) / ma := div_nonneg (Nat.cast_nonneg r) hma.le
  have hunit : (0 : ℚ) < 8 ^ (eb - n - (ea - 1)) := by positivity
  have hexact : (mb : ℚ) / ma * 8 ^ (eb - ea) = (x' + (q + r / ma) / 8) * 8 ^ (eb - n - (ea - 1)) := by
    have hquot : (mb : ℚ) / ma * 8 ^ n = 8 * x' + q + r / ma := by
      rw [div_mul_eq_mul_div, hcast]
      field_simp
    have hpow : (8 : ℚ) ^ (eb - ea) = 8 ^ n * (8 ^ (eb - n - (ea - 1)) / 8) := by
      rw [← zpow_natCast, div_eq_mul_inv, ← zpow_neg_one, ← zpow_add₀ (by norm_num), ← zpow_add₀ (by norm_num)]
      congr 1
      ring
    rw [hpow, ← mul_assoc, hquot]
    ring
  rw [hexact, ← sub_mul, abs_mul, abs_of_pos hunit, mul_lt_iff_lt_one_left hunit]
  have hq' : (q : ℚ) ≤ 7 := by exact_mod_cast (by omega : q ≤ 7)
  have hq0 : (0 : ℚ) ≤ q := Nat.cast_nonneg q
  rcases hy'.2 with rfl | ⟨rfl, h4⟩
  · rw [abs_lt]
    constructor <;> linarith
  · have h4' : (4 : ℚ) ≤ q := by exact_mod_cast h4
    push_cast
    rw [abs_lt]
    constructor <;> linarith

/-- The integer divisions of operands with their results. -/
lemma truncated_quotient (h : Divided a b ma mb ea eb) : truncated (value b / value a) =
    (if negative b != negative a then -1 else 1) * ⌊(mb : ℚ) / ma * 8 ^ (eb - ea)⌋ := by
  rw [h.quotient, truncated_signed _ (Divided.quotient_nonneg mb ma _)]

lemma abs_truncated (h : Divided a b ma mb ea eb) :
    |truncated (value b / value a)| = ⌊(mb : ℚ) / ma * 8 ^ (eb - ea)⌋ := by
  have hfloor := Int.floor_nonneg.mpr (Divided.quotient_nonneg mb ma (eb - ea))
  rw [truncated_quotient h, abs_mul, abs_of_nonneg hfloor]
  split_ifs <;> simp

/-- **`IDV`** gives the quotient, or reports that it is too large. -/
theorem idv_spec (ha : mantissa a ≠ 0) (hb : mantissa b ≠ 0) {i : Result} (hi : divide true .idv a b x = some i) :
    (i.raised = [] → value i.b = truncated (value b / value a)) ∧
      (intOver ∈ i.raised ↔ 2 ^ 39 ≤ |truncated (value b / value a)|) := by
  obtain ⟨ma, mb, ea, eb, h, hdivide⟩ := @divide_operands a b x ha hb
  rw [abs_truncated h]
  rw [hdivide, divideNormal] at hi
  by_cases hless : eb < ea
  · rw [if_pos ⟨by decide, hless⟩, Option.some_inj] at hi
    subst hi
    rw [truncated_quotient h, h.floor_small hless]
    refine ⟨fun _ ↦ ?_, iff_of_false List.not_mem_nil (by norm_num)⟩
    simp [value, mantissa]
  · rw [if_neg fun hand ↦ hless hand.2] at hi
    obtain ⟨n, q, r, x', hrun, hr, hx', hcases⟩ := h.integer (show DivideOp.idv ≠ .div by decide) (by omega)
    rw [hrun, Option.map_some, Option.some_inj] at hi
    subst hi
    rcases hcases with ⟨heq, -, hfloor⟩ | ⟨hlt, hfloor⟩
    · dsimp only [divideResult]
      rw [if_pos heq.symm, hfloor]
      dsimp only
      refine ⟨fun _ ↦ ?_, iff_of_false (by decide) (by omega)⟩
      rw [value_pack hx' (by norm_num) (by norm_num), truncated_quotient h, hfloor, zpow_zero, mul_one]
      push_cast
      rfl
    · dsimp only [divideResult]
      rw [if_neg hlt.ne]
      dsimp only
      rw [if_pos rfl]
      refine ⟨fun hnil ↦ absurd hnil (by simp), iff_of_true (by simp) hfloor⟩

/-- **`RDV`** gives the remainder, or reports that the quotient is too large. -/
theorem rdv_spec (ha : mantissa a ≠ 0) (hb : mantissa b ≠ 0) {r : Result} (hr : divide true .rdv a b x = some r) :
    (r.raised = [] → value b = truncated (value b / value a) * value a + value r.b ∧ |value r.b| < |value a| ∧
        (value r.b = 0 ∨ negative r.b = negative b)) ∧
      (intOver ∈ r.raised ↔ 2 ^ 39 ≤ |truncated (value b / value a)|) := by
  obtain ⟨ma, mb, ea, eb, h, hdivide⟩ := @divide_operands a b x ha hb
  have hma := h.ma_pos
  have habs : |value a| = ma * 8 ^ ea := by
    rw [h.valueA, abs_mul, abs_of_pos (mul_pos hma (by positivity))]
    split_ifs <;> simp
  have hne : value a ≠ 0 := by
    rw [← abs_pos, habs]
    positivity
  rw [abs_truncated h]
  rw [hdivide, divideNormal] at hr
  by_cases hless : eb < ea
  · rw [if_pos ⟨by decide, hless⟩, if_pos rfl, Option.some_inj] at hr
    subst hr
    -- the dividend is the remainder
    have hword : b &&& fword = b % 2 ^ 47 := Nat.and_two_pow_sub_one_eq_mod b 47
    have hneg : negative (b % 2 ^ 47) = negative b := by
      rw [negative_eq, negative_eq]
      exact decide_eq_decide.mpr (by lia)
    have hvalue : value (b % 2 ^ 47) = value b := by
      have hexp : exponent (b % 2 ^ 47) = exponent b := by
        rw [exponent_eq, exponent_eq, show b % 2 ^ 47 / 2 ^ 45 % 2 = b / 2 ^ 45 % 2 by lia,
          show b % 2 ^ 47 / 2 ^ 39 % 64 = b / 2 ^ 39 % 64 by omega]
      have hmant : mantissa (b % 2 ^ 47) = mantissa b := by
        rw [mantissa_eq, mantissa_eq]
        lia
      rw [value, value, hneg, hexp, hmant]
    have hsmall := h.floor_small hless
    rw [truncated_quotient h, hsmall]
    refine ⟨fun _ ↦ ?_, iff_of_false List.not_mem_nil (by norm_num)⟩
    dsimp only
    rw [hword, hvalue, hneg]
    refine ⟨by simp, ?_, .inr rfl⟩
    have hratio : |value b / value a| < 1 := by
      have hone := (Int.floor_eq_zero_iff.mp hsmall).2
      rw [h.quotient, abs_mul, abs_of_nonneg (Divided.quotient_nonneg mb ma _)]
      split_ifs <;> simpa using hone
    rwa [abs_div, div_lt_one (abs_pos.mpr hne)] at hratio
  · rw [if_neg fun hand ↦ hless hand.2] at hr
    obtain ⟨n, q, m, x', hrun, hm, hx', hcases⟩ := h.integer (show DivideOp.rdv ≠ .div by decide) (by omega)
    rw [hrun, Option.map_some, Option.some_inj] at hr
    subst hr
    have hlt := h.lt
    rcases hcases with ⟨heq, hvalue, hfloor⟩ | ⟨hlt, hfloor⟩
    · have hsplit : value b = truncated (value b / value a) * value a + (if negative b then -1 else 1) * (m * 8 ^ ea) := by
        have hcast : (mb : ℚ) * 8 ^ n = x' * ma + m := by exact_mod_cast hvalue
        have hpow : (8 : ℚ) ^ eb = 8 ^ n * 8 ^ ea := by
          rw [← zpow_natCast, ← zpow_add₀ (by norm_num)]
          congr 1
          omega
        rw [truncated_quotient h, hfloor, h.valueA, h.valueB, hpow, ← mul_assoc (mb : ℚ), hcast]
        cases negative a <;> cases negative b <;> simp <;> ring
      dsimp only [divideResult]
      rw [if_pos heq.symm, hfloor]
      by_cases hzero : m = 0
      · rw [if_pos hzero]
        dsimp only
        have hpack : value (pack false 0 m) = 0 := by
          rw [value_pack (by omega) (by norm_num) (by norm_num), hzero]
          simp
        refine ⟨fun _ ↦ ⟨?_, ?_, .inl hpack⟩, iff_of_false (by decide) (by omega)⟩
        · rw [hpack]
          rw [hzero] at hsplit
          simpa using hsplit
        · rw [hpack, abs_zero]
          exact abs_pos.mpr hne
      · rw [if_neg hzero]
        dsimp only
        rw [List.nil_append]
        refine ⟨fun hnil ↦ ?_, iff_of_false (intOver_checkExponent _) (by omega)⟩
        obtain ⟨hle, hge⟩ := checkExponent_nil hnil
        rw [if_neg (by decide : ¬ DivideOp.rdv ≠ .rdv)]
        have hm' : m < 2 ^ 39 := by lia
        obtain ⟨hneg, -, -⟩ := @pack_parts (negative b) _ _ hm' hle hge
        rw [value_pack hm' hle hge, hneg, heq]
        refine ⟨hsplit, ?_, .inr rfl⟩
        have hcast : (m : ℚ) < ma := by exact_mod_cast hm
        have hunit : (0 : ℚ) < 8 ^ ea := by positivity
        rw [habs, abs_mul, abs_of_nonneg (by positivity : (0 : ℚ) ≤ m * 8 ^ ea)]
        have hsign : |(if negative b then (-1 : ℚ) else 1)| = 1 := by
          split_ifs <;> norm_num
        rw [hsign, one_mul]
        exact mul_lt_mul_of_pos_right hcast hunit
    · dsimp only [divideResult]
      rw [if_neg hlt.ne]
      dsimp only
      rw [if_pos rfl]
      refine ⟨fun hnil ↦ absurd hnil (by simp), iff_of_true (by simp) hfloor⟩

/-- **The divisions in normal state**: all of them end. What raises no flag is right: the quotient of `DIV` to less than one unit
of its last octade, and the quotient of `IDV` with the remainder of `RDV`. A quotient that is too large is reported. -/
theorem divide_spec (a b x : ℕ) (ha : mantissa a ≠ 0) (hb : mantissa b ≠ 0) : ∃ d i r : Result,
    divide true .div a b x = some d ∧ divide true .idv a b x = some i ∧ divide true .rdv a b x = some r ∧
      (d.raised = [] → |value d.b - value b / value a| < 8 ^ exponent d.b) ∧
      (i.raised = [] → value i.b = truncated (value b / value a)) ∧
      (r.raised = [] → value b = truncated (value b / value a) * value a + value r.b ∧ |value r.b| < |value a| ∧
        (value r.b = 0 ∨ negative r.b = negative b)) ∧
      (intOver ∈ i.raised ↔ 2 ^ 39 ≤ |truncated (value b / value a)|) ∧
      (intOver ∈ r.raised ↔ 2 ^ 39 ≤ |truncated (value b / value a)|) := by
  obtain ⟨d, hd⟩ := Option.isSome_iff_exists.mp (@divide_ends a b x ha hb true .div)
  obtain ⟨i, hi⟩ := Option.isSome_iff_exists.mp (@divide_ends a b x ha hb true .idv)
  obtain ⟨r, hr⟩ := Option.isSome_iff_exists.mp (@divide_ends a b x ha hb true .rdv)
  obtain ⟨hquot, hover⟩ := idv_spec ha hb hi
  obtain ⟨hrest, hover'⟩ := rdv_spec ha hb hr
  exact ⟨d, i, r, hd, hi, hr, div_spec ha hb hd, hquot, hrest, hover, hover'⟩

/-- Seven by two. -/
theorem divide_spec_seven : ∃ i r : Result, divide true .idv 2 7 0 = some i ∧ divide true .rdv 2 7 0 = some r ∧
    (value i.b = truncated (value 7 / value 2) ∧ value 7 = truncated (value 7 / value 2) * value 2 + value r.b) := by
  obtain ⟨d, i, r, -, hi, hr, -, hquot, hrest, -⟩ := divide_spec 2 7 0 (by decide) (by decide)
  have hi' : i.raised = [] := by
    have hrun : divide true .idv 2 7 0 = some ⟨3, 3, []⟩ := by decide
    rw [hrun, Option.some_inj] at hi
    rw [← hi]
  have hr' : r.raised = [] := by
    have hrun : divide true .rdv 2 7 0 = some ⟨pack false (-12) (8 ^ 12), 8 ^ 12, []⟩ := by decide
    rw [hrun, Option.some_inj] at hr
    rw [← hr]
  exact ⟨i, r, hi, hr, hquot hi', (hrest hr').1⟩

/-- **In control state** a quotient that is too large is not reported. -/
theorem divide_control : ¬ ∀ (ncsf : Bool) (a b x : ℕ) (i : Result), mantissa a ≠ 0 → mantissa b ≠ 0 →
    divide ncsf .idv a b x = some i → (intOver ∈ i.raised ↔ 2 ^ 39 ≤ |truncated (value b / value a)|) := by
  intro hall
  -- eight to the power of 20, by one
  have hrun : divide false .idv 1 (pack false 20 1) 0 = some ⟨pack false 8 (8 ^ 12), 8 ^ 12, []⟩ := by decide
  have hover := (hall false 1 (pack false 20 1) 0 _ (by decide) (by decide) hrun).mpr
  have hone : value 1 = 1 := by
    have hpack := @value_pack false 0 1 (by norm_num) (by norm_num) (by norm_num)
    rw [show pack false 0 1 = 1 by decide] at hpack
    simpa using hpack
  have hlarge : value (pack false 20 1) = 8 ^ (20 : ℤ) := by
    rw [value_pack (by norm_num) (by norm_num) (by norm_num)]
    simp
  rw [hone, hlarge] at hover
  refine absurd (hover ?_) List.not_mem_nil
  have hcast : (8 : ℚ) ^ (20 : ℤ) / 1 = (2 ^ 60 : ℤ) := by norm_num
  rw [hcast, truncated, if_neg (by norm_num), Int.floor_intCast]
  norm_num

end Results

end Ka10Simh.B5500
