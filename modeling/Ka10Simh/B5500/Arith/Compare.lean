import Ka10Simh.B5500.Arith.Word

/-!
The comparison of the B5500, and the addition that it agrees with.

* `add`: the addition and the subtraction.
* `compare`, `relation`: the comparison, and the relational operators.
* `alignTo_spec`: the loop that shifts a mantissa until the exponents are equal.
* `compare_eq`: the comparison orders the numbers.
* `compare_orders`: the order, its symmetry, the subtraction and the operators.
-/

namespace Ka10Simh.B5500

open Word

/-! ### The source -/

/-- `while (exp_a != exp_b && (A & NORM) == 0) { A <<= 3; exp_a--; }`, for `k` tests at most. -/
def alignTo (other : ℤ) : ℕ → ℕ → ℤ → Option (ℕ × ℤ)
  | 0, _, _ => none
  | k + 1, m, e => if m &&& norm = 0 ∧ e ≠ other then alignTo other k (octadeUp m) (e - 1) else some (m, e)

/-- `compare`: 1 for equal numbers, 2 when `B` is less than `A`, 4 when it is greater. -/
def compare (a b : ℕ) : Option ℕ :=
  if a &&& mant = 0 then some (if b &&& mant = 0 then 1 else if negative b then 2 else 4)
  else if b &&& mant = 0 then some (if negative a then 4 else 2)
  else if negative a ≠ negative b then some (if negative b then 2 else 4)
  else do
    let (ma, ea) ← alignTo (exponent b) 13 (mantissa a) (exponent a)
    let (mb, eb) ← alignTo ea 13 (mantissa b) (exponent b)
    some (
      if ea ≠ eb then if eb > ea then if negative b then 2 else 4 else if negative b then 4 else 2
      else if ma ≠ mb then if mb > ma then if negative b then 2 else 4 else if negative b then 4 else 2
      else 1)

/-- `GEQ`, `GTR`, `NEQ`, `LEQ`, `LSS`, `EQL`. -/
inductive RelationOp
  | geq | gtr | neq | leq | lss | eql

/-- What a relational operator leaves in `B`. -/
def relation (op : RelationOp) (a b : ℕ) : Option ℕ := do
  let i ← compare a b
  some (match op with
    | .geq => if i &&& 5 ≠ 0 then 1 else 0
    | .gtr => if i = 4 then 1 else 0
    | .neq => if i ≠ 1 then 1 else 0
    | .leq => if i &&& 3 ≠ 0 then 1 else 0
    | .lss => if i = 2 then 1 else 0
    | .eql => if i = 1 then 1 else 0)

/-- The loop that shifts `B` into `X` until the exponents are equal or nothing is left, for `k` tests at most. -/
def alignDown (other : ℤ) : ℕ → ℕ → ℕ → ℤ → Option (ℕ × ℕ × ℤ)
  | 0, _, _, _ => none
  | k + 1, b, x, e =>
      if e ≠ other ∧ b ≠ 0 then alignDown other k (b >>> 3) ((x ||| (b &&& 7) <<< 39) >>> 3) (e + 1) else some (b, x, e)

/-- The complement of `B` and `X`, of 64 bits. -/
def complementPair (b x : ℕ) : ℕ × ℕ :=
  let x := x ^^^ mant
  let b := b ^^^ fword
  let x := x + 1
  if x &&& expo ≠ 0 then ((b + 1) % 2 ^ 64, x &&& mant) else (b, x)

/-- The sum of the aligned operands, as a magnitude with its sign. -/
def sumPair (sa sb : Bool) (a b x : ℕ) : Bool × ℕ × ℕ :=
  let a := if sa then ((a ^^^ fword) + 1) % 2 ^ 64 else a
  let (b, x) := if sb then complementPair b x else (b, x)
  let b := (a + b) % 2 ^ 64
  if b &&& msign ≠ 0 then (true, complementPair b x) else (false, b, x)

/-- The sum is put back into thirteen octades, and what is to be rounded. -/
def normalizeSum (b x : ℕ) (e : ℤ) : ℕ × ℕ × ℤ × ℕ :=
  if b &&& expo ≠ 0 then (b >>> 3, x, e + 1, b &&& 7)
  else if b &&& norm = 0 then
    if x &&& norm = 0 then (b, x, e, 0)
    else
      let x := octadeUp x
      ((octadeUp b ||| x >>> 39 &&& 7), x &&& mant, e - 1, (x &&& mant) >>> 36)
  else (b, x, e, x >>> 36)

/-- The rounding, the check of the exponent and the result. -/
def finishSum (ncsf sign : Bool) (b x : ℕ) (e : ℤ) : Result :=
  let (b, x, e, rnd) := normalizeSum b x e
  let b := if rnd ≥ 4 ∧ b ≠ mant then (b + 1) % 2 ^ 64 else b
  let b := b &&& mant
  let (b, e) := if e ≠ 0 ∧ e < -64 ∧ b &&& norm = 0 then (octadeUp b, e - 1) else (b, e)
  if b = 0 then ⟨0, x, []⟩
  else if e < 0 then ⟨pack sign e b, x, if e < -64 ∧ ncsf then [expoUnder] else []⟩
  else ⟨pack sign e b, x, if e > 64 ∧ ncsf then [expoOver] else []⟩

/-- The addition of operands that are not zero, the first one with the larger exponent. -/
def addAligned (ncsf : Bool) (a b : ℕ) : Option Result := do
  let (ma, ea) ← alignTo (exponent b) 13 (mantissa a) (exponent a)
  let (mb, x, eb) ← alignDown ea 14 (mantissa b) 0 (exponent b)
  let (mb, x) := if ea ≠ eb then (0, 0) else (mb, x)
  let (sign, mb, x) := sumPair (negative a) (negative b) ma mb x
  some (finishSum ncsf sign mb x ea)

/-- `add` of the operands in `A` and `B`. -/
def add (ncsf sub : Bool) (a b : ℕ) : Option Result :=
  let a := if sub then a ^^^ msign else a
  if a &&& mant = 0 then some ⟨if b &&& mant = 0 then 0 else b, 0, []⟩
  else if b &&& mant = 0 then some ⟨a, 0, []⟩
  else if exponent b > exponent a then addAligned ncsf b a
  else addAligned ncsf a b

/-! ### The comparison -/

variable {a b c m n : ℕ} {d e : ℤ}

/-- **The loop**: the exponents are equal, or the mantissa is normalized; the exponent does not go past the other one. -/
theorem alignTo_spec {other e : ℤ} {k m : ℕ} (hm : m < 2 ^ 39) (hk : 2 ^ 36 ≤ m * 8 ^ k) :
    ∃ t : ℕ, alignTo other (k + 1) m e = some (m * 8 ^ t, e - t) ∧ m * 8 ^ t < 2 ^ 39 ∧ (e - t = other ∨ 2 ^ 36 ≤ m * 8 ^ t) ∧
      (other ≤ e → other ≤ e - t) := by
  have hdone {m : ℕ} {e : ℤ} (k : ℕ) (hm : m < 2 ^ 39) (hstop : e = other ∨ 2 ^ 36 ≤ m) :
      ∃ t : ℕ, alignTo other (k + 1) m e = some (m * 8 ^ t, e - t) ∧ m * 8 ^ t < 2 ^ 39 ∧ (e - t = other ∨ 2 ^ 36 ≤ m * 8 ^ t) ∧
        (other ≤ e → other ≤ e - t) := by
    refine ⟨0, ?_, by omega, by simpa using hstop, by simp⟩
    rw [alignTo, if_neg fun hgo ↦ hstop.elim hgo.2 fun hlarge ↦ absurd ((and_norm hm).mp hgo.1) (by omega)]
    simp
  induction k generalizing m e with
  | zero => exact hdone 0 hm (.inr (by omega))
  | succ k ih =>
      by_cases hgo : m < 2 ^ 36 ∧ e ≠ other
      · obtain ⟨t, hrun, hlt, hstop, hle⟩ := @ih (e - 1) (8 * m) (by omega) (by rw [mul_comm 8, mul_assoc, ← pow_succ']; exact hk)
        have hnext : 8 * m * 8 ^ t = m * 8 ^ (t + 1) := by ring
        rw [hnext] at hrun hlt hstop
        refine ⟨t + 1, ?_, hlt, ?_, fun hother ↦ ?_⟩
        · rw [alignTo, if_pos ⟨(and_norm hm).mpr hgo.1, hgo.2⟩, octadeUp_eq (by omega), hrun]
          push_cast
          ring_nf
        · push_cast
          rwa [show e - (t + 1) = e - 1 - t by ring]
        · have hlater := hle (by lia)
          push_cast
          omega
      · exact hdone (k + 1) hm (by lia)

/-- A magnitude is the same when its mantissa was shifted. -/
lemma magnitude_shifted (m t : ℕ) (e : ℤ) : ((m * 8 ^ t : ℕ) : ℚ) * 8 ^ (e - t) = m * 8 ^ e := by
  rw [zpow_sub₀ (by norm_num), zpow_natCast]
  push_cast
  field_simp

/-- A normalized magnitude with a larger exponent is larger. -/
lemma magnitude_lt {d e : ℤ} (hm : m < 2 ^ 39) (hn : 2 ^ 36 ≤ n) (hde : d < e) : (m : ℚ) * 8 ^ d < n * 8 ^ e := by
  have hm' : (m : ℚ) < 2 ^ 39 := by exact_mod_cast hm
  have hn' : (2 : ℚ) ^ 36 ≤ n := by exact_mod_cast hn
  calc (m : ℚ) * 8 ^ d < 2 ^ 39 * 8 ^ d := mul_lt_mul_of_pos_right hm' (by positivity)
    _ = 2 ^ 36 * 8 ^ (d + 1) := by
      rw [zpow_add_one₀ (by norm_num)]
      ring
    _ ≤ 2 ^ 36 * 8 ^ e := mul_le_mul_of_nonneg_left (zpow_le_zpow_right₀ (by norm_num) (by omega)) (by norm_num)
    _ ≤ n * 8 ^ e := mul_le_mul_of_nonneg_right hn' (by positivity)

/-- The code for two numbers. -/
def order (x y : ℚ) : ℕ := if y = x then 1 else if y < x then 2 else 4

lemma order_self (x : ℚ) : order x x = 1 := if_pos rfl

lemma order_lt {x y : ℚ} (h : y < x) : order x y = 2 := by
  rw [order, if_neg h.ne, if_pos h]

lemma order_gt {x y : ℚ} (h : x < y) : order x y = 4 := by
  rw [order, if_neg h.ne', if_neg h.le.not_gt]

/-- The code for two magnitudes with one sign. -/
lemma order_signed (f : Bool) (x y : ℚ) : order ((if f then -1 else 1) * x) ((if f then -1 else 1) * y) =
    if x = y then 1 else if x < y then if f then 2 else 4 else if f then 4 else 2 := by
  rcases lt_trichotomy x y with hlt | rfl | hgt
  · rw [if_neg hlt.ne, if_pos hlt]
    cases f with
    | false => exact order_gt (by simpa using hlt)
    | true => exact order_lt (by simpa using hlt)
  · rw [if_pos rfl, order_self]
  · rw [if_neg hgt.ne', if_neg hgt.le.not_gt]
    cases f with
    | false => exact order_lt (by simpa using hgt)
    | true => exact order_gt (by simpa using hgt)

lemma value_zero (h : mantissa a = 0) : value a = 0 := by
  rw [value, h]
  simp

/-- The sign of a number that is not zero. -/
lemma value_sign (h : mantissa a ≠ 0) : if negative a then value a < 0 else 0 < value a := by
  have hpos : (0 : ℚ) < mantissa a * 8 ^ exponent a := mul_pos (by exact_mod_cast Nat.pos_of_ne_zero h) (by positivity)
  rw [value]
  split_ifs
  · linarith
  · linarith

/-- **The comparison** is that of the values. -/
theorem compare_eq (a b : ℕ) : compare a b = some (order (value a) (value b)) := by
  rw [compare]
  by_cases ha : a &&& mant = 0
  · rw [if_pos ha, value_zero ha]
    by_cases hb : b &&& mant = 0
    · rw [if_pos hb, value_zero hb, order_self]
    · have hsign := value_sign hb
      rw [if_neg hb]
      split_ifs at hsign ⊢
      · rw [order_lt hsign]
      · rw [order_gt hsign]
  rw [if_neg ha]
  have hsigna := value_sign ha
  by_cases hb : b &&& mant = 0
  · rw [if_pos hb, value_zero hb]
    split_ifs at hsigna ⊢
    · rw [order_gt hsigna]
    · rw [order_lt hsigna]
  rw [if_neg hb]
  have hsignb := value_sign hb
  by_cases hsigns : negative a ≠ negative b
  · rw [if_pos hsigns]
    cases hneg : negative b with
    | false =>
        have hneg' : negative a = true := by
          rw [hneg] at hsigns
          exact Bool.eq_true_of_not_eq_false hsigns
        rw [hneg', if_pos rfl] at hsigna
        rw [hneg, if_neg Bool.false_ne_true] at hsignb
        rw [order_gt (hsigna.trans hsignb), if_neg Bool.false_ne_true]
    | true =>
        have hneg' : negative a = false := by
          rw [hneg] at hsigns
          exact Bool.eq_false_of_not_eq_true hsigns
        rw [hneg', if_neg Bool.false_ne_true] at hsigna
        rw [hneg, if_pos rfl] at hsignb
        rw [order_lt (hsignb.trans hsigna), if_pos rfl]
  -- one sign: the magnitudes decide
  rw [if_neg hsigns]
  have hneg : negative a = negative b := not_not.mp hsigns
  have hposa := Nat.pos_of_ne_zero ha
  have hposb := Nat.pos_of_ne_zero hb
  obtain ⟨t, hrun, hlt, hstop, hle⟩ := @alignTo_spec (exponent b) (exponent a) 12 (mantissa a) (mantissa_lt a) (by
    rw [mantissa]
    omega)
  obtain ⟨u, hrun', hlt', hstop', hle'⟩ := @alignTo_spec (exponent a - t) (exponent b) 12 (mantissa b) (mantissa_lt b) (by
    rw [mantissa]
    omega)
  rw [value, value, hneg, order_signed, ← magnitude_shifted (mantissa a) t, ← magnitude_shifted (mantissa b) u, hrun]
  dsimp only [bind, Option.bind]
  rw [hrun']
  dsimp only
  generalize mantissa a * 8 ^ t = ma at *
  generalize mantissa b * 8 ^ u = mb at *
  generalize exponent a - t = ea at *
  by_cases hexp : ea = exponent b - u
  · rw [if_neg (not_not.mpr hexp), ← hexp]
    have hunit : (0 : ℚ) < 8 ^ ea := by positivity
    have heq : (ma : ℚ) * 8 ^ ea = mb * 8 ^ ea ↔ ma = mb := by
      rw [mul_left_inj' hunit.ne', Nat.cast_inj]
    have hlt : (ma : ℚ) * 8 ^ ea < mb * 8 ^ ea ↔ ma < mb := by
      rw [mul_lt_mul_iff_left₀ hunit, Nat.cast_lt]
    simp only [heq, hlt]
    by_cases hmm : ma = mb
    · rw [if_neg (not_not.mpr hmm), if_pos hmm]
    · rw [if_pos hmm, if_neg hmm]
  · rw [if_pos hexp]
    rcases lt_or_gt_of_ne hexp with hless | hgreater
    · -- `B` has the larger exponent, and is normalized
      have hmag := magnitude_lt hlt (hstop'.resolve_left fun h ↦ hexp h.symm) hless
      rw [if_pos hless, if_neg hmag.ne, if_pos hmag]
    · have hnorm : 2 ^ 36 ≤ ma := hstop.resolve_left fun h ↦ by
        have := hle' (by omega)
        omega
      have hmag := magnitude_lt hlt' hnorm hgreater
      rw [if_neg (not_lt.mpr hgreater.le), if_neg hmag.ne', if_neg hmag.le.not_gt]

/-! ### The order -/

/-- `B` is not less than `A`, as the comparison tells. -/
def Below (a b : ℕ) : Prop := compare a b = some 1 ∨ compare a b = some 4

lemma order_cases (x y : ℚ) : (order x y = 1 ↔ y = x) ∧ (order x y = 2 ↔ y < x) ∧ (order x y = 4 ↔ x < y) := by
  rcases lt_trichotomy x y with hlt | rfl | hgt
  · rw [order_gt hlt]
    simp [hlt.ne', hlt.le, hlt]
  · rw [order_self]
    simp
  · rw [order_lt hgt]
    simp [hgt.ne, hgt.le, hgt]

lemma below_iff (a b : ℕ) : Below a b ↔ value a ≤ value b := by
  obtain ⟨heq, -, hgt⟩ := order_cases (value a) (value b)
  rw [Below, compare_eq, Option.some_inj, Option.some_inj, heq, hgt, le_iff_lt_or_eq, or_comm, eq_comm]

/-- What a relational operator asks of the values of `A` and `B`. -/
def RelationOp.Holds : RelationOp → ℚ → ℚ → Prop
  | geq, x, y => x ≤ y
  | gtr, x, y => x < y
  | neq, x, y => y ≠ x
  | leq, x, y => y ≤ x
  | lss, x, y => y < x
  | eql, x, y => y = x

/-- **The relational operators** give one when the relation holds, and zero when it does not. -/
theorem relation_eq (op : RelationOp) (a b : ℕ) :
    ∃ r, relation op a b = some r ∧ (r = 0 ∨ r = 1) ∧ (r = 1 ↔ op.Holds (value a) (value b)) := by
  rw [relation, compare_eq]
  refine ⟨_, rfl, by cases op <;> (dsimp only; split_ifs <;> simp), ?_⟩
  rcases lt_trichotomy (value a) (value b) with hlt | heq | hgt
  · rw [order_gt hlt]
    cases op <;> simp [RelationOp.Holds, hlt, hlt.le, hlt.ne', not_le.mpr hlt, not_lt.mpr hlt.le]
  · rw [heq, order_self]
    cases op <;> simp [RelationOp.Holds]
  · rw [order_lt hgt]
    cases op <;> simp [RelationOp.Holds, hgt, hgt.le, hgt.ne, not_le.mpr hgt, not_lt.mpr hgt.le]

/-- The loop of the addition ends. -/
lemma alignDown_ends {other : ℤ} {k x : ℕ} (hb : b < 8 ^ k) : ∃ p, alignDown other (k + 1) b x e = some p := by
  induction k generalizing b x e with
  | zero =>
      rw [alignDown, if_neg fun hgo ↦ hgo.2 (by omega)]
      exact ⟨_, rfl⟩
  | succ k ih =>
      rw [alignDown]
      split_ifs
      · exact ih (by rw [Nat.shiftRight_eq_div_pow]; omega)
      · exact ⟨_, rfl⟩

/-- The addition has a result. -/
lemma add_ends (ncsf sub : Bool) (a b : ℕ) : ∃ r, add ncsf sub a b = some r := by
  have haligned {a b : ℕ} (ha : mantissa a ≠ 0) : ∃ r, addAligned ncsf a b = some r := by
    have hpos := Nat.pos_of_ne_zero ha
    obtain ⟨t, hrun, -⟩ := @alignTo_spec (exponent b) (exponent a) 12 (mantissa a) (mantissa_lt a) (by omega)
    obtain ⟨p, hdown⟩ := @alignDown_ends (mantissa b) (exponent b) (exponent a - t) 13 0 (mantissa_lt b)
    rw [addAligned, hrun]
    dsimp only [bind, Option.bind]
    rw [hdown]
    exact ⟨_, rfl⟩
  rw [add]
  generalize (if sub = true then a ^^^ msign else a) = a
  by_cases ha : a &&& mant = 0
  · rw [if_pos ha]
    exact ⟨_, rfl⟩
  by_cases hb : b &&& mant = 0
  · rw [if_neg ha, if_pos hb]
    exact ⟨_, rfl⟩
  rw [if_neg ha, if_neg hb]
  split_ifs
  · exact haligned hb
  · exact haligned ha

/-- **The comparison is the order of the numbers**: its code tells whether `B` equals `A`, is less or is greater; so it is a total preorder,
the operands can be exchanged, it agrees with a difference that is exact, and the relational operators go by it. -/
theorem compare_orders :
    (∀ a b, compare a b = some 1 ∧ value b = value a ∨ compare a b = some 2 ∧ value b < value a ∨
      compare a b = some 4 ∧ value a < value b) ∧
    ((∀ a, Below a a) ∧ (∀ a b c, Below a b → Below b c → Below a c) ∧ ∀ a b, Below a b ∨ Below b a) ∧
    (∀ a b, (compare a b = some 1 ↔ compare b a = some 1) ∧ (compare a b = some 2 ↔ compare b a = some 4)) ∧
    (∀ ncsf a b, ∃ r, add ncsf true a b = some r ∧ (value r.b = value b - value a →
      (compare a b = some 1 ↔ value r.b = 0) ∧ (compare a b = some 2 ↔ value r.b < 0) ∧ (compare a b = some 4 ↔ 0 < value r.b))) ∧
    ∀ op a b, ∃ r, relation op a b = some r ∧ (r = 0 ∨ r = 1) ∧ (r = 1 ↔ op.Holds (value a) (value b)) := by
  have hcases (a b : ℕ) : (compare a b = some 1 ↔ value b = value a) ∧ (compare a b = some 2 ↔ value b < value a) ∧
      (compare a b = some 4 ↔ value a < value b) := by
    rw [compare_eq, Option.some_inj, Option.some_inj, Option.some_inj]
    exact order_cases _ _
  refine ⟨fun a b ↦ ?_, ⟨fun a ↦ ?_, fun a b c hab hbc ↦ ?_, fun a b ↦ ?_⟩, fun a b ↦ ⟨?_, ?_⟩, fun ncsf a b ↦ ?_, relation_eq⟩
  · obtain ⟨heq, hlt, hgt⟩ := hcases a b
    rw [heq, hlt, hgt, and_self, and_self, and_self]
    rcases lt_trichotomy (value b) (value a) with h | h | h
    · exact .inr (.inl h)
    · exact .inl h
    · exact .inr (.inr h)
  · exact (below_iff a a).mpr le_rfl
  · exact (below_iff a c).mpr (((below_iff a b).mp hab).trans ((below_iff b c).mp hbc))
  · rw [below_iff, below_iff]
    exact le_total _ _
  · rw [(hcases a b).1, (hcases b a).1, eq_comm]
  · rw [(hcases a b).2.1, (hcases b a).2.2]
  · obtain ⟨heq, hlt, hgt⟩ := hcases a b
    obtain ⟨r, hrun⟩ := add_ends ncsf true a b
    refine ⟨r, hrun, fun hexact ↦ ?_⟩
    rw [heq, hlt, hgt, hexact, sub_eq_zero, sub_neg, sub_pos]
    exact ⟨Iff.rfl, Iff.rfl, Iff.rfl⟩

/-- Two words of one number. -/
example : compare 0o10 (0o1010000000000000 + 0o100) = some 1 := by decide

end Ka10Simh.B5500
