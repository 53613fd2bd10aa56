import Ka10Simh.B5500.Arith.Word
import Ka10Simh.Lib.Floating

/-!
The multiplication of the B5500.

* `multStep`, `multStep_eq`: the product of two mantissas in two halves.
* `alignProduct`, `alignProduct_spec`: the loop that normalizes a product.
* `multiply`, `multiply_spec`: the multiplication, which gives the nearest number.
-/

namespace Ka10Simh.B5500

open Word

/-! ### The source -/

/-- `mult_step`: the halves of the product. -/
def multStep (a b : ℕ) : ℕ × ℕ :=
  let u0 := a >>> 32
  let u1 := a &&& 0xffffffff
  let v0 := b >>> 32
  let v1 := b &&& 0xffffffff
  -- the lower halves
  let t := u1 * v1 % 2 ^ 64
  let w3 := t &&& 0xffffffff
  let k := t >>> 32
  -- the upper and the lower halves
  let t := (u0 * v1 + k) % 2 ^ 64
  let w2 := t &&& 0xffffffff
  let w1 := t >>> 32
  let t := (u1 * v0 + w2) % 2 ^ 64
  let k := t >>> 32
  let b := (u0 * v0 + w1 + k) % 2 ^ 64
  let x := (t <<< 32 % 2 ^ 64 + w3) % 2 ^ 64
  (b <<< 25 % 2 ^ 64 ||| x >>> 39, x &&& mant)

/-- The loop that normalizes a product, for `k` tests at most. -/
def alignProduct : ℕ → ℕ → ℕ → ℤ → Option (ℕ × ℕ × ℤ)
  | 0, _, _, _ => none
  | k + 1, b, x, e =>
      if b &&& norm = 0 then
        if e < -64 then some (b, x, e)
        else alignProduct k (octadeUp b ||| octadeUp x >>> 39 &&& 7) (octadeUp x &&& mant) (e - 1)
      else some (b, x, e)

/-- The rounding, the check of the exponent and the result. -/
def finishProduct (ncsf f : Bool) (b x : ℕ) (e : ℤ) : Result :=
  let (b, e) :=
    if x &&& round ≠ 0 then
      if (b + 1) &&& expo ≠ 0 then ((b + 1) >>> 3, e + 1) else (b + 1, e)
    else (b, e)
  if e < -64 then ⟨0, x, if ncsf then [expoUnder] else []⟩
  else ⟨pack f e b, x, if 64 < e ∧ ncsf then [expoOver] else []⟩

/-- `multiply` of the operands in `A` and `B`. -/
def multiply (ncsf : Bool) (a b x : ℕ) : Option Result :=
  if a &&& mant = 0 ∨ b &&& mant = 0 then some ⟨0, x, []⟩
  else
    let f := negative a != negative b
    if exponent a = 0 ∧ exponent b = 0 then
      let (b, x) := multStep (mantissa a) (mantissa b)
      if b = 0 then some (finishProduct ncsf f x 0 0)
      else do
        let (b, x, e) ← alignProduct 14 b x 13
        some (finishProduct ncsf f b x e)
    else do
      let (ma, ea) ← normalize 13 (mantissa a) (exponent a)
      let (mb, eb) ← normalize 13 (mantissa b) (exponent b)
      let (b, x) := multStep ma mb
      let (b, x, e) ← alignProduct 14 b x (ea + eb + 13)
      some (finishProduct ncsf f b x e)

/-! ### The product -/

/-- A product of 128 bits in halves of 39 bits. -/
lemma halves (h l : ℕ) : (h * 2 ^ 64 + l) / 2 ^ 39 = h * 2 ^ 25 + l / 2 ^ 39 ∧ (h * 2 ^ 64 + l) % 2 ^ 39 = l % 2 ^ 39 := by
  lia

/-- **The exact product** in two halves. -/
theorem multStep_eq {a b : ℕ} (ha : a < 2 ^ 39) (hb : b < 2 ^ 39) : multStep a b = (a * b / 2 ^ 39, a * b % 2 ^ 39) := by
  have hlow (n : ℕ) : n &&& 0xffffffff = n % 2 ^ 32 := Nat.and_two_pow_sub_one_eq_mod n 32
  have hmant (n : ℕ) : n &&& mant = n % 2 ^ 39 := Nat.and_two_pow_sub_one_eq_mod n 39
  have ha' := Nat.div_add_mod a (2 ^ 32)
  have hb' := Nat.div_add_mod b (2 ^ 32)
  rw [multStep]
  simp only [hlow, hmant, Nat.shiftRight_eq_div_pow]
  have hu0 : a / 2 ^ 32 < 2 ^ 7 := by omega
  have hv0 : b / 2 ^ 32 < 2 ^ 7 := by omega
  have hu1 : a % 2 ^ 32 < 2 ^ 32 := Nat.mod_lt _ (by norm_num)
  have hv1 : b % 2 ^ 32 < 2 ^ 32 := Nat.mod_lt _ (by norm_num)
  generalize a / 2 ^ 32 = u0 at *
  generalize b / 2 ^ 32 = v0 at *
  generalize a % 2 ^ 32 = u1 at *
  generalize b % 2 ^ 32 = v1 at *
  have hprod : a * b = u0 * v0 * 2 ^ 64 + (u0 * v1 + u1 * v0) * 2 ^ 32 + u1 * v1 := by
    rw [← ha', ← hb']
    ring
  have h00 : u0 * v0 ≤ (2 ^ 7 - 1) * (2 ^ 7 - 1) := Nat.mul_le_mul (by omega) (by omega)
  have h01 : u0 * v1 ≤ (2 ^ 7 - 1) * (2 ^ 32 - 1) := Nat.mul_le_mul (by omega) (by omega)
  have h10 : u1 * v0 ≤ (2 ^ 32 - 1) * (2 ^ 7 - 1) := Nat.mul_le_mul (by omega) (by omega)
  have h11 : u1 * v1 ≤ (2 ^ 32 - 1) * (2 ^ 32 - 1) := Nat.mul_le_mul (by omega) (by omega)
  rw [hprod]
  generalize u0 * v0 = p00 at *
  generalize u0 * v1 = p01 at *
  generalize u1 * v0 = p10 at *
  generalize u1 * v1 = p11 at *
  -- the carries of the partial products
  have hk : p11 / 2 ^ 32 < 2 ^ 32 := by lia
  rw [Nat.mod_eq_of_lt (show p11 < 2 ^ 64 by lia)]
  generalize hw3 : p11 % 2 ^ 32 = w3 at *
  generalize hk3 : p11 / 2 ^ 32 = k3 at *
  rw [Nat.mod_eq_of_lt (show p01 + k3 < 2 ^ 64 by omega)]
  generalize hw2 : (p01 + k3) % 2 ^ 32 = w2 at *
  generalize hw1 : (p01 + k3) / 2 ^ 32 = w1 at *
  rw [Nat.mod_eq_of_lt (show p10 + w2 < 2 ^ 64 by lia)]
  have hx : ((p10 + w2) <<< 32 % 2 ^ 64 + w3) % 2 ^ 64 = (p10 + w2) % 2 ^ 32 * 2 ^ 32 + w3 := by
    rw [Nat.shiftLeft_eq]
    lia
  have hh : (p00 + w1 + (p10 + w2) / 2 ^ 32) % 2 ^ 64 = p00 + w1 + (p10 + w2) / 2 ^ 32 := Nat.mod_eq_of_lt (by lia)
  rw [hx, hh]
  generalize hk2 : (p10 + w2) / 2 ^ 32 = k2 at *
  generalize hw4 : (p10 + w2) % 2 ^ 32 = w4 at *
  have hor : (p00 + w1 + k2) <<< 25 % 2 ^ 64 ||| (w4 * 2 ^ 32 + w3) / 2 ^ 39 =
      (p00 + w1 + k2) * 2 ^ 25 + (w4 * 2 ^ 32 + w3) / 2 ^ 39 := by
    rw [Nat.mod_eq_of_lt (by rw [Nat.shiftLeft_eq]; lia), shiftLeft_or_eq (by lia)]
  rw [hor]
  have htotal : p00 * 2 ^ 64 + (p01 + p10) * 2 ^ 32 + p11 = (p00 + w1 + k2) * 2 ^ 64 + (w4 * 2 ^ 32 + w3) := by lia
  rw [htotal]
  rw [(halves _ _).1, (halves _ _).2]

/-- **The loop**: a product that is not zero is normalized, or its exponent is too small. -/
theorem alignProduct_spec {k b x : ℕ} {e : ℤ} (hb : b < 2 ^ 39) (hx : x < 2 ^ 39) (hk : 2 ^ 36 ≤ b * 8 ^ k) :
    ∃ t b' x' : ℕ, alignProduct (k + 1) b x e = some (b', x', e - t) ∧ b' * 2 ^ 39 + x' = (b * 2 ^ 39 + x) * 8 ^ t ∧
      b' < 2 ^ 39 ∧ x' < 2 ^ 39 ∧ (2 ^ 36 ≤ b' ∨ e - t < -64) := by
  have hdone {b x : ℕ} {e : ℤ} (k : ℕ) (hb : b < 2 ^ 39) (hx : x < 2 ^ 39) (h : 2 ^ 36 ≤ b) :
      ∃ t b' x' : ℕ, alignProduct (k + 1) b x e = some (b', x', e - t) ∧ b' * 2 ^ 39 + x' = (b * 2 ^ 39 + x) * 8 ^ t ∧
        b' < 2 ^ 39 ∧ x' < 2 ^ 39 ∧ (2 ^ 36 ≤ b' ∨ e - t < -64) := by
    refine ⟨0, b, x, ?_, by rw [pow_zero, mul_one], hb, hx, .inl h⟩
    rw [alignProduct, if_neg (by rw [and_norm hb]; omega)]
    simp
  induction k generalizing b x e with
  | zero =>
      rw [pow_zero, mul_one] at hk
      exact hdone 0 hb hx hk
  | succ k ih =>
      by_cases hlarge : 2 ^ 36 ≤ b
      · exact hdone (k + 1) hb hx hlarge
      by_cases he : e < -64
      · refine ⟨0, b, x, ?_, by rw [pow_zero, mul_one], hb, hx, .inr (by simpa using he)⟩
        rw [alignProduct, if_pos ((and_norm hb).mpr (by omega)), if_pos he]
        simp
      · have hseven : octadeUp x >>> 39 &&& 7 = x / 2 ^ 36 := by
          rw [octadeUp_eq (by omega), show (7 : ℕ) = 2 ^ 3 - 1 from rfl, Nat.and_two_pow_sub_one_eq_mod, Nat.shiftRight_eq_div_pow]
          lia
        have hrest : octadeUp x &&& mant = 8 * x % 2 ^ 39 := by
          rw [octadeUp_eq (by omega)]
          exact Nat.and_two_pow_sub_one_eq_mod _ 39
        have hor : octadeUp b ||| octadeUp x >>> 39 &&& 7 = 8 * b + x / 2 ^ 36 := by
          rw [hseven, octadeUp_eq (by omega)]
          exact or_eq_add (i := 3) (Dvd.intro b rfl) (by omega)
        have hnext : (8 * b + x / 2 ^ 36) * 2 ^ 39 + 8 * x % 2 ^ 39 = (b * 2 ^ 39 + x) * 8 := by
          clear ih hk hseven hrest hor
          lia
        obtain ⟨t, b', x', hrun, hvalue, hb', hx', hend⟩ := @ih (8 * b + x / 2 ^ 36) (8 * x % 2 ^ 39) (e - 1) (by lia)
          (Nat.mod_lt _ (by norm_num)) (by
            refine hk.trans ?_
            rw [pow_succ', ← mul_assoc, mul_comm b 8]
            exact Nat.mul_le_mul_right _ (Nat.le_add_right _ _))
        refine ⟨t + 1, b', x', ?_, ?_, hb', hx', ?_⟩
        · rw [alignProduct, if_pos ((and_norm hb).mpr (by omega)), if_neg he, hor, hrest, hrun]
          push_cast
          ring_nf
        · rw [hvalue, hnext, pow_succ]
          ring
        · push_cast
          rcases hend with hlarge' | hsmall
          · exact .inl hlarge'
          · exact .inr (by omega)

/-! ### The result -/

/-- The nearest number with a normalized mantissa has an exponent of six bits. -/
def InRange (y : ℚ) : Prop := (8 ^ 13 - 1 / 2) * 8 ^ (-64 : ℤ) ≤ |y| ∧ |y| < (8 ^ 13 - 1 / 2) * 8 ^ (63 : ℤ)

/-- A product is right when it is normalized, with its sign, and the nearest number. -/
def RightProduct (f : Bool) (y : ℚ) (r : Result) : Prop :=
  r.raised = [] ∧ 8 ^ 12 ≤ mantissa r.b ∧ negative r.b = f ∧ Floating.NearestAway (Floating.Digits 8 13) y (value r.b)

lemma and_round {x : ℕ} (hx : x < 2 ^ 39) : x &&& round ≠ 0 ↔ 2 ^ 38 ≤ x := by
  rw [show round = 2 ^ 38 from rfl, and_pow_ne_zero]
  omega

lemma and_expo {b : ℕ} (hb : b < 2 ^ 40) : b &&& expo ≠ 0 ↔ 2 ^ 39 ≤ b := by
  rw [show expo = (2 ^ 6 - 1) <<< 39 from rfl, and_shiftLeft, Nat.shiftLeft_eq, Nat.and_two_pow_sub_one_eq_mod,
    Nat.shiftRight_eq_div_pow]
  omega

lemma nearest_signed {f : Bool} {y r : ℚ} (h : Floating.NearestAway (Floating.Digits 8 13) y r) :
    Floating.NearestAway (Floating.Digits 8 13) ((if f then -1 else 1) * y) ((if f then -1 else 1) * r) := by
  cases f with
  | false => simpa using h
  | true => simpa using h.neg

section Finish

variable {f ncsf : Bool} {b x : ℕ} {e : ℤ} {y : ℚ}

/-- The exponent of a product. -/
lemma product_exponent (hb : b < 2 ^ 39) (hx : x < 2 ^ 39) (hy : y = (if f then -1 else 1) * ((b + x / 2 ^ 39) * 8 ^ e))
    (hrange : InRange y) (hnorm : 2 ^ 36 ≤ b ∨ e < -64) : 2 ^ 36 ≤ b ∧ -64 ≤ e ∧ e ≤ 63 ∧
      (e = -64 → b = 2 ^ 39 - 1 ∧ 2 ^ 38 ≤ x) ∧ (e = 63 → ¬ (b = 2 ^ 39 - 1 ∧ 2 ^ 38 ≤ x)) := by
  obtain ⟨hlow, hhigh⟩ := hrange
  have hb0 : (0 : ℚ) ≤ b := Nat.cast_nonneg b
  have hx0 : (0 : ℚ) ≤ x / 2 ^ 39 := by positivity
  have hb' : (b : ℚ) + 1 ≤ 2 ^ 39 := by exact_mod_cast hb
  have hx' : (x : ℚ) / 2 ^ 39 < 1 := by
    rw [div_lt_one (by norm_num)]
    exact_mod_cast hx
  have hunit : (0 : ℚ) < 8 ^ e := by positivity
  have habs : |y| = (b + x / 2 ^ 39) * 8 ^ e := by
    rw [hy, abs_mul, abs_of_nonneg (by positivity : 0 ≤ ((b : ℚ) + x / 2 ^ 39) * 8 ^ e)]
    split_ifs <;> simp
  rw [habs] at hlow hhigh
  have hge : -64 ≤ e := by
    by_contra hlt
    have hstep : (8 : ℚ) ^ e ≤ 8 ^ (-65 : ℤ) := zpow_le_zpow_right₀ (by norm_num) (by omega)
    have hle : (b + x / 2 ^ 39 : ℚ) * 8 ^ e ≤ 2 ^ 39 * 8 ^ (-65 : ℤ) := mul_le_mul (by linarith) hstep hunit.le (by norm_num)
    norm_num at hle hlow
    linarith
  have hlarge : 2 ^ 36 ≤ b := hnorm.resolve_right (by omega)
  have hlarge' : (2 : ℚ) ^ 36 ≤ b := by exact_mod_cast hlarge
  have hle : e ≤ 63 := by
    by_contra hgt
    have hstep : (8 : ℚ) ^ (64 : ℤ) ≤ 8 ^ e := zpow_le_zpow_right₀ (by norm_num) (by omega)
    have hle : (2 : ℚ) ^ 36 * 8 ^ (64 : ℤ) ≤ (b + x / 2 ^ 39) * 8 ^ e := mul_le_mul (by linarith) hstep (by norm_num) (by linarith)
    norm_num at hle hhigh
    linarith
  have hhalf : (2 : ℚ) ^ 39 - 1 / 2 ≤ b + x / 2 ^ 39 ↔ b = 2 ^ 39 - 1 ∧ 2 ^ 38 ≤ x := by
    have hcast : (2 : ℚ) ^ 39 - 1 / 2 ≤ b + x / 2 ^ 39 ↔ 2 ^ 78 ≤ b * 2 ^ 39 + x + 2 ^ 38 := by
      rw [← Nat.cast_le (α := ℚ)]
      push_cast
      constructor <;> intro h <;> linarith
    rw [hcast]
    lia
  refine ⟨hlarge, hge, hle, fun h64 ↦ ?_, fun h63 ↦ ?_⟩
  · rw [h64] at hlow
    have hcancel := le_of_mul_le_mul_right hlow (by positivity)
    exact hhalf.mp (by linarith)
  · rw [h63] at hhigh
    have hcancel := lt_of_mul_lt_mul_right hhigh (by positivity)
    exact mt hhalf.mpr (by linarith)

/-- **The rounding of a product.** -/
theorem finishProduct_spec (hb : b < 2 ^ 39) (hx : x < 2 ^ 39) (hy : y = (if f then -1 else 1) * ((b + x / 2 ^ 39) * 8 ^ e))
    (hrange : InRange y) (hnorm : 2 ^ 36 ≤ b ∨ e < -64) : RightProduct f y (finishProduct ncsf f b x e) := by
  obtain ⟨hlarge, hge, hle, hleast, hgreatest⟩ := product_exponent hb hx hy hrange hnorm
  have hd : (0 : ℚ) ≤ x / 2 ^ 39 := by positivity
  have hd' : (x : ℚ) / 2 ^ 39 < 1 := by
    rw [div_lt_one (by norm_num)]
    exact_mod_cast hx
  have hhalf : (x : ℚ) / 2 ^ 39 < 1 / 2 ↔ ¬ 2 ^ 38 ≤ x := by
    rw [div_lt_iff₀ (by norm_num), not_le, ← Nat.cast_lt (α := ℚ)]
    norm_num
  have hnear := @Floating.nearest_half_up 8 12 e (by norm_num) b (x / 2 ^ 39) (by norm_num; omega) (by norm_num; omega) hd hd'
  -- the parts of the result
  have hparts {m : ℕ} {k : ℤ} (hm : 2 ^ 36 ≤ m) (hm' : m < 2 ^ 39) (hk : -63 ≤ k) (hk' : k ≤ 63)
      (hvalue : (if (x : ℚ) / 2 ^ 39 < 1 / 2 then (b : ℚ) else b + 1) * 8 ^ e = m * 8 ^ k) :
      RightProduct f y ⟨pack f k m, x, []⟩ := by
    obtain ⟨hneg, -, hmant⟩ := @pack_parts f _ _ hm' hk hk'
    refine ⟨rfl, by rw [hmant]; omega, hneg, ?_⟩
    rw [value_pack hm' hk hk', hy, ← hvalue]
    exact nearest_signed (by exact_mod_cast hnear)
  rw [finishProduct]
  by_cases hup : 2 ^ 38 ≤ x
  · rw [if_pos ((and_round hx).mpr hup)]
    rw [if_neg (by rw [hhalf]; exact not_not.mpr hup)] at hparts
    by_cases hcarry : 2 ^ 39 ≤ b + 1
    · have hmax : b = 2 ^ 39 - 1 := by omega
      have hne : e ≠ 63 := fun h63 ↦ hgreatest h63 ⟨hmax, hup⟩
      have hshift : (b + 1) >>> 3 = 2 ^ 36 := by
        rw [hmax, Nat.shiftRight_eq_div_pow]
        norm_num
      rw [if_pos ((and_expo (by omega)).mpr hcarry), hshift]
      dsimp only
      rw [if_neg (by omega), if_neg fun hand ↦ by omega]
      refine hparts (by norm_num) (by norm_num) (by omega) (by omega) ?_
      rw [hmax, zpow_add_one₀ (by norm_num)]
      norm_num
      ring
    · have hne : e ≠ -64 := fun h64 ↦ by
        have := (hleast h64).1
        omega
      rw [if_neg (mt (and_expo (by omega)).mp hcarry)]
      dsimp only
      rw [if_neg (by omega), if_neg fun hand ↦ by omega]
      exact hparts (by omega) (by omega) (by omega) hle (by push_cast; rfl)
  · have hne : e ≠ -64 := fun h64 ↦ hup (hleast h64).2
    rw [if_neg (mt (and_round hx).mp hup)]
    rw [if_pos (hhalf.mpr hup)] at hparts
    dsimp only
    rw [if_neg (by omega), if_neg fun hand ↦ by omega]
    exact hparts hlarge hb (by omega) hle rfl

end Finish

/-! ### The multiplication -/

variable {ncsf f : Bool} {a b x ma mb : ℕ} {ea eb : ℤ} {y : ℚ}

lemma multStep_comm (ha : ma < 2 ^ 39) (hb : mb < 2 ^ 39) : multStep ma mb = multStep mb ma := by
  rw [multStep_eq ha hb, multStep_eq hb ha, mul_comm]

/-- The number in two halves that are aligned. -/
lemma aligned_value {b x t : ℕ} (h : b * 2 ^ 39 + x = ma * mb * 8 ^ t) :
    ((b : ℚ) + x / 2 ^ 39) * 8 ^ (ea + eb + 13 - t) = ma * 8 ^ ea * (mb * 8 ^ eb) := by
  have hcast : (b : ℚ) * 2 ^ 39 + x = ma * mb * 8 ^ t := by exact_mod_cast h
  have hsum : (b : ℚ) + x / 2 ^ 39 = ma * mb * 8 ^ t / 2 ^ 39 := by
    rw [← hcast]
    ring
  rw [hsum, zpow_sub₀ (by norm_num), zpow_add₀ (by norm_num), zpow_add₀ (by norm_num), zpow_natCast]
  field_simp
  norm_num

/-- A product of more than thirteen octades. -/
lemma large_product (ha : ma < 2 ^ 39) (hb : mb < 2 ^ 39) (hlarge : 2 ^ 39 ≤ ma * mb)
    (hy : y = (if f then -1 else 1) * (ma * 8 ^ ea * (mb * 8 ^ eb))) :
    ∃ b x e, alignProduct 14 (multStep ma mb).1 (multStep ma mb).2 (ea + eb + 13) = some (b, x, e) ∧
      (InRange y → RightProduct f y (finishProduct ncsf f b x e)) := by
  have hhigh : ma * mb / 2 ^ 39 < 2 ^ 39 := by
    rw [Nat.div_lt_iff_lt_mul (by norm_num)]
    exact Nat.mul_lt_mul'' ha hb
  have hpos : 0 < ma * mb / 2 ^ 39 := Nat.div_pos hlarge (by norm_num)
  obtain ⟨t, b, x, hrun, hvalue, hb', hx', hend⟩ := @alignProduct_spec 13 (ma * mb / 2 ^ 39) (ma * mb % 2 ^ 39) (ea + eb + 13) hhigh
    (Nat.mod_lt _ (by norm_num)) (by omega)
  rw [Nat.div_add_mod'] at hvalue
  rw [multStep_eq ha hb]
  refine ⟨b, x, _, hrun, fun hrange ↦ finishProduct_spec hb' hx' ?_ hrange hend⟩
  rw [aligned_value hvalue, hy]

lemma value_mul (a b : ℕ) : value a * value b =
    (if negative a != negative b then -1 else 1) * (mantissa a * 8 ^ exponent a * (mantissa b * 8 ^ exponent b)) := by
  rw [value, value]
  cases negative a <;> cases negative b <;> simp

lemma operands_ne (ha : mantissa a ≠ 0) (hb : mantissa b ≠ 0) : ¬ (a &&& mant = 0 ∨ b &&& mant = 0) := not_or.mpr ⟨ha, hb⟩

lemma multiply_zero (h : mantissa a = 0 ∨ mantissa b = 0) : multiply ncsf a b x = some ⟨0, x, []⟩ := if_pos h

/-- **An exact product of integers.** -/
theorem multiply_integer (ha : mantissa a ≠ 0) (hb : mantissa b ≠ 0) (hea : exponent a = 0) (heb : exponent b = 0)
    (hsmall : mantissa a * mantissa b < 8 ^ 13) :
    multiply ncsf a b x = some ⟨pack (negative a != negative b) 0 (mantissa a * mantissa b), 0, []⟩ := by
  rw [multiply, if_neg (operands_ne ha hb)]
  dsimp only
  rw [if_pos ⟨hea, heb⟩, multStep_eq (mantissa_lt a) (mantissa_lt b)]
  dsimp only
  rw [if_pos (by omega), Nat.mod_eq_of_lt (by omega), finishProduct, if_neg (by simp)]
  dsimp only
  rw [if_neg (by omega), if_neg fun h ↦ by omega]

/-- **Every other product is rounded.** -/
theorem multiply_rounded (ha : mantissa a ≠ 0) (hb : mantissa b ≠ 0)
    (hother : ¬ (exponent a = 0 ∧ exponent b = 0 ∧ mantissa a * mantissa b < 8 ^ 13)) :
    ∃ r, multiply ncsf a b x = some r ∧
      (InRange (value a * value b) → RightProduct (negative a != negative b) (value a * value b) r) := by
  rw [multiply, if_neg (operands_ne ha hb)]
  dsimp only
  by_cases hint : exponent a = 0 ∧ exponent b = 0
  · have hlarge : 2 ^ 39 ≤ mantissa a * mantissa b := by
      by_contra hlt
      exact hother ⟨hint.1, hint.2, by omega⟩
    obtain ⟨b', x', e', hrun, hright⟩ := @large_product ncsf _ _ _ _ _ _ (mantissa_lt a) (mantissa_lt b) hlarge (value_mul a b)
    rw [hint.1, hint.2, multStep_eq (mantissa_lt a) (mantissa_lt b)] at hrun
    rw [if_pos hint, multStep_eq (mantissa_lt a) (mantissa_lt b)]
    dsimp only
    rw [if_neg (by omega)]
    refine ⟨_, ?_, hright⟩
    rw [show (13 : ℤ) = 0 + 0 + 13 from rfl, hrun]
    rfl
  · obtain ⟨ma, ea, hrunA, hma, hma', hvalueA, -⟩ := normalize_operand ha
    obtain ⟨mb, eb, hrunB, hmb, hmb', hvalueB, -⟩ := normalize_operand hb
    have hlarge : 2 ^ 36 * 2 ^ 36 ≤ ma * mb := Nat.mul_le_mul hma hmb
    have hvalue : value a * value b = (if negative a != negative b then -1 else 1) * (ma * 8 ^ ea * (mb * 8 ^ eb)) := by
      rw [hvalueA, hvalueB]
      cases negative a <;> cases negative b <;> simp
    obtain ⟨b', x', e', hrun, hright⟩ := @large_product ncsf _ _ _ _ _ _ hma' hmb' (by omega) hvalue
    rw [if_neg hint, hrunA, hrunB]
    refine ⟨_, ?_, hright⟩
    simp only [Option.bind_eq_bind, Option.bind_some]
    rw [hrun]
    rfl

/-- The order of the operands does not matter. -/
theorem multiply_comm : multiply ncsf a b x = multiply ncsf b a x := by
  by_cases hzero : mantissa a = 0 ∨ mantissa b = 0
  · rw [multiply_zero hzero, multiply_zero hzero.symm]
  · obtain ⟨ha, hb⟩ := not_or.mp hzero
    rw [multiply, multiply, if_neg (operands_ne ha hb), if_neg (operands_ne hb ha)]
    have hsign : (negative a != negative b) = (negative b != negative a) := bne_comm
    have hints : (exponent b = 0 ∧ exponent a = 0) ↔ (exponent a = 0 ∧ exponent b = 0) := and_comm
    dsimp only
    rw [hsign, multStep_comm (mantissa_lt b) (mantissa_lt a)]
    by_cases hint : exponent a = 0 ∧ exponent b = 0
    · rw [if_pos hint, if_pos (hints.mpr hint)]
    · obtain ⟨ma, ea, hrunA, -, hma, -⟩ := normalize_operand ha
      obtain ⟨mb, eb, hrunB, -, hmb, -⟩ := normalize_operand hb
      rw [if_neg hint, if_neg (mt hints.mp hint), hrunA, hrunB]
      simp only [Option.bind_eq_bind, Option.bind_some]
      rw [multStep_comm hmb hma, add_comm eb ea]

/-- **The multiplication**: the product of the mantissas is exact, the order does not matter, small integers have an exact product,
and every other product is the nearest normalized number. -/
theorem multiply_spec :
    (∀ a b, a < 2 ^ 39 → b < 2 ^ 39 → multStep a b = (a * b / 2 ^ 39, a * b % 2 ^ 39)) ∧
    (∀ ncsf a b x, multiply ncsf a b x = multiply ncsf b a x) ∧
    ∀ ncsf a b x, ∃ r, multiply ncsf a b x = some r ∧
      (mantissa a = 0 ∨ mantissa b = 0 → r.b = 0 ∧ r.raised = []) ∧
      (mantissa a ≠ 0 → mantissa b ≠ 0 → exponent a = 0 → exponent b = 0 → mantissa a * mantissa b < 8 ^ 13 →
        r.raised = [] ∧ exponent r.b = 0 ∧ mantissa r.b = mantissa a * mantissa b ∧
        negative r.b = (negative a != negative b)) ∧
      (mantissa a ≠ 0 → mantissa b ≠ 0 → ¬ (exponent a = 0 ∧ exponent b = 0 ∧ mantissa a * mantissa b < 8 ^ 13) →
        InRange (value a * value b) → RightProduct (negative a != negative b) (value a * value b) r) := by
  refine ⟨fun a b ha hb ↦ multStep_eq ha hb, fun ncsf a b x ↦ multiply_comm, fun ncsf a b x ↦ ?_⟩
  by_cases hzero : mantissa a = 0 ∨ mantissa b = 0
  · refine ⟨_, multiply_zero hzero, fun _ ↦ ⟨rfl, rfl⟩, fun ha hb ↦ ?_, fun ha hb ↦ ?_⟩
    · exact absurd hzero (not_or.mpr ⟨ha, hb⟩)
    · exact absurd hzero (not_or.mpr ⟨ha, hb⟩)
  · obtain ⟨ha, hb⟩ := not_or.mp hzero
    by_cases hint : exponent a = 0 ∧ exponent b = 0 ∧ mantissa a * mantissa b < 8 ^ 13
    · obtain ⟨hea, heb, hsmall⟩ := hint
      obtain ⟨hneg, hexp, hmant⟩ := @pack_parts (negative a != negative b) 0 (mantissa a * mantissa b) (by omega) (by norm_num)
        (by norm_num)
      exact ⟨_, multiply_integer ha hb hea heb hsmall, fun h ↦ absurd h hzero, fun _ _ _ _ _ ↦ ⟨rfl, hexp, hmant, hneg⟩,
        fun _ _ h ↦ absurd ⟨hea, heb, hsmall⟩ h⟩
    · obtain ⟨r, hrun, hright⟩ := @multiply_rounded ncsf a b x ha hb hint
      exact ⟨r, hrun, fun h ↦ absurd h hzero, fun _ _ hea heb hsmall ↦ absurd ⟨hea, heb, hsmall⟩ hint, fun _ _ _ ↦ hright⟩

/-- The product of `3` and `-5`. -/
theorem multiply_spec_three : multStep 3 5 = (0, 15) ∧ ∃ r, multiply true 3 (msign + 5) 0 = some r ∧ mantissa r.b = 15 := by
  obtain ⟨-, -, hall⟩ := multiply_spec
  obtain ⟨r, hrun, -, hint, -⟩ := hall true 3 (msign + 5) 0
  exact ⟨by decide, r, hrun, (hint (by decide) (by decide) (by decide) (by decide) (by decide)).2.2.1⟩

end Ka10Simh.B5500
