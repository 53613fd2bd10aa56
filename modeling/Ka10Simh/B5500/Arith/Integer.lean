import Mathlib
import Ka10Simh.B5500.Arith.Word

/-!
The conversion of an operand of the B5500 to an integer.

* `mkint`, `forceInteger`: the conversion, and its use by the integer stores and by the indexing.
* `octadesDown_spec`, `octadesUp_spec`: its two loops.
* `mkint_down`, `mkint_up`: fractions, and large numbers.
* `mkint_iff`: the operands whose conversion is right.
-/

namespace Ka10Simh.B5500

open Word

/-! ### The source -/

/-- `INTEGR`. -/
abbrev integr : ℕ := 0o2000000000

/-- The octades that are shifted out, with the last of them, for `k` tests at most. -/
def octadesDown : ℕ → ℕ → ℤ → ℕ → Option (ℕ × ℤ × ℕ)
  | 0, _, _, _ => none
  | k + 1, b, e, last => if e < 0 ∧ b ≠ 0 then octadesDown k (b >>> 3) (e + 1) (b &&& 7) else some (b, e, last)

/-- The mantissa is shifted up, unless its first octade is not zero. -/
def octadesUp : ℕ → ℕ → Bool × ℕ
  | 0, b => (false, b)
  | e + 1, b => if b &&& norm ≠ 0 then (true, b) else octadesUp e (octadeUp b)

/-- The sign is put back. -/
def putSign (f : Bool) (b : ℕ) : ℕ := if f = true ∧ b ≠ 0 then b ||| msign else b

/-- `mkint`: whether it failed, and what it leaves in `B`. -/
def mkint (b : ℕ) : Option (Bool × ℕ) :=
  let e := (b &&& expo) >>> 39
  if e = 0 then some (false, b)
  else
    let f := negative b
    if b &&& esign ≠ 0 then do
      let (b, e, last) ← octadesDown 14 (mantissa b) (-e) 0
      if e ≠ 0 then some (false, 0)
      else some (false, putSign f (if (if f then last > 4 else last ≥ 4) then b + 1 else b))
    else
      let (failed, b) := octadesUp e (mantissa b)
      some (if failed then (true, b) else (false, putSign f b))

/-- The conversion of `B` in `indexWord`, and whether it failed. -/
def forceInteger (s : Cpu) : Option (Bool × Cpu) := do
  let (failed, b) ← mkint s.b
  let s := { s with b := b }
  some (failed, if failed = true ∧ s.ncsf = true then s.raise intOver else s)

/-- The conversion of `B` in a store: `CID`, `CIN`, `ISD`, `ISN` and, without one, `STD` and `SND`. -/
def storeInteger (field : ℕ) (s : Cpu) : Option (Bool × Cpu) :=
  if field &&& 0o3 ≠ 0 ∧ s.b &&& expo ≠ 0 ∧ (s.a &&& integr ≠ 0 ∨ field &&& 0o40 ≠ 0) then forceInteger s else some (false, s)

/-! ### The loops -/

variable {b k m n : ℕ} {f : Bool}

/-- **The octades are shifted out**: all of them, or the last one would be zero. -/
theorem octadesDown_spec {last : ℕ} (hm : m < 8 ^ n) : ∃ b e l, octadesDown (n + 1) m (-k : ℤ) last = some (b, e, l) ∧
    (e = 0 ∧ b = m / 8 ^ k ∧ l = (if k = 0 then last else m / 8 ^ (k - 1) % 8) ∨ e ≠ 0 ∧ 0 < k ∧ m / 8 ^ (k - 1) = 0) := by
  induction n generalizing m k last with
  | zero =>
      have hzero : m = 0 := by omega
      rw [octadesDown, if_neg fun h ↦ h.2 hzero]
      refine ⟨_, _, _, rfl, ?_⟩
      rcases Nat.eq_zero_or_pos k with rfl | hk
      · exact .inl ⟨by simp, by simp, by simp⟩
      · exact .inr ⟨by omega, hk, by rw [hzero, Nat.zero_div]⟩
  | succ n ih =>
      rw [octadesDown]
      rcases Nat.eq_zero_or_pos k with rfl | hk
      · rw [if_neg (by simp)]
        exact ⟨_, _, _, rfl, .inl ⟨by simp, by simp, by simp⟩⟩
      by_cases hzero : m = 0
      · rw [if_neg fun h ↦ h.2 hzero]
        exact ⟨_, _, _, rfl, .inr ⟨by omega, hk, by rw [hzero, Nat.zero_div]⟩⟩
      obtain ⟨k, rfl⟩ : ∃ j, k = j + 1 := ⟨k - 1, by omega⟩
      rw [if_pos ⟨by omega, hzero⟩, Nat.shiftRight_eq_div_pow, show (7 : ℕ) = 2 ^ 3 - 1 from rfl, Nat.and_two_pow_sub_one_eq_mod,
        show -((k + 1 : ℕ) : ℤ) + 1 = -(k : ℤ) by push_cast; ring]
      have hpow : (2 : ℕ) ^ 3 = 8 := rfl
      rw [hpow]
      obtain ⟨b, e, l, hrun, hcases⟩ := @ih k (m / 8) (m % 8) (by omega)
      refine ⟨b, e, l, hrun, ?_⟩
      have hdiv (j : ℕ) : m / 8 / 8 ^ j = m / 8 ^ (j + 1) := by rw [Nat.div_div_eq_div_mul, ← pow_succ']
      rw [Nat.add_sub_cancel, if_neg k.succ_ne_zero]
      rcases hcases with ⟨he, hb, hl⟩ | ⟨he, hk, hl⟩
      · refine .inl ⟨he, by rw [hb, hdiv], ?_⟩
        rw [hl]
        rcases Nat.eq_zero_or_pos k with rfl | hk
        · rw [if_pos rfl, pow_zero, Nat.div_one]
        · rw [if_neg hk.ne', hdiv, Nat.sub_add_cancel hk]
      · refine .inr ⟨he, k.succ_pos, ?_⟩
        rw [hdiv, Nat.sub_add_cancel hk] at hl
        exact hl

/-- **The mantissa is shifted up**, and nothing falls out. -/
theorem octadesUp_spec (hm : m < 2 ^ 39) : ((octadesUp k m).1 = true ↔ 2 ^ 39 ≤ m * 8 ^ k) ∧
    ((octadesUp k m).1 = false → (octadesUp k m).2 = m * 8 ^ k) ∧ (octadesUp k m).2 < 2 ^ 39 := by
  induction k generalizing m with
  | zero =>
      rw [octadesUp, pow_zero, mul_one]
      exact ⟨iff_of_false Bool.false_ne_true (not_le.mpr hm), fun _ ↦ rfl, hm⟩
  | succ k ih =>
      rw [octadesUp]
      by_cases hlarge : m &&& norm ≠ 0
      · rw [if_pos hlarge]
        have hge := (and_norm_ne hm).mp hlarge
        have hpow : m * 8 ^ (k + 1) = 8 * m * 8 ^ k := by ring
        have hmul : 8 * m ≤ 8 * m * 8 ^ k := Nat.le_mul_of_pos_right _ (by positivity)
        exact ⟨iff_of_true rfl (by omega), fun h ↦ absurd h.symm Bool.false_ne_true, hm⟩
      · have hsmall := (and_norm hm).mp (not_not.mp hlarge)
        rw [if_neg hlarge, octadeUp_eq (by omega), show m * 8 ^ (k + 1) = 8 * m * 8 ^ k by ring]
        exact ih (by omega)

/-! ### The conversion -/

/-- An integer with a sign. -/
lemma putSign_parts (hm : m < 2 ^ 39) (f : Bool) : exponent (putSign f m) = 0 ∧ value (putSign f m) = (if f then -1 else 1) * (m : ℚ) ∧
    (value (putSign f m) ≠ 0 → negative (putSign f m) = f) := by
  have hpack : putSign f m = pack (f && decide (m ≠ 0)) 0 m := by
    have hmant : m &&& mant = m := by rw [← mantissa, mantissa_eq, Nat.mod_eq_of_lt hm]
    have hfield : exponentField 0 &&& 0o177 = 0 := by decide
    rw [putSign, pack, hmant, hfield, Nat.zero_shiftLeft, Nat.or_zero]
    by_cases h : f = true ∧ m ≠ 0
    · rw [if_pos h, if_pos (by simpa using h)]
    · rw [if_neg h, if_neg (by simpa using h), Nat.or_zero]
  obtain ⟨hneg, hexp, -⟩ := @pack_parts (f && decide (m ≠ 0)) 0 m hm (by norm_num) (by norm_num)
  have hvalue : value (pack (f && decide (m ≠ 0)) 0 m) = (if f then -1 else 1) * (m : ℚ) := by
    rw [value_pack hm (by norm_num) (by norm_num), zpow_zero, mul_one]
    by_cases hzero : m = 0
    · simp [hzero]
    · simp [hzero]
  rw [hpack, hneg, hvalue]
  refine ⟨hexp, rfl, fun hne ↦ ?_⟩
  have hzero : m ≠ 0 := fun h ↦ hne (by rw [h, Nat.cast_zero, mul_zero])
  rw [decide_eq_true hzero, Bool.and_true]

/-- A number with its last octade above the point after it. -/
lemma octade_parts (hk : 0 < k) (m : ℕ) : ∃ (q l : ℕ) (r : ℚ), m / 8 ^ k = q ∧ m / 8 ^ (k - 1) % 8 = l ∧ l < 8 ∧ 0 ≤ r ∧ r < 1 ∧
    (m : ℚ) * 8 ^ (-k : ℤ) = q + (l + r) / 8 := by
  have hpow : 8 ^ k = 8 ^ (k - 1) * 8 := by
    rw [← pow_succ, Nat.sub_add_cancel hk]
  have hpos : (0 : ℚ) < 8 ^ (k - 1) := by positivity
  have hrest : m % 8 ^ (k - 1) < 8 ^ (k - 1) := Nat.mod_lt _ (by positivity)
  have hsum : m = 8 ^ (k - 1) * (8 * (m / 8 ^ k) + m / 8 ^ (k - 1) % 8) + m % 8 ^ (k - 1) := by
    rw [hpow, ← Nat.div_div_eq_div_mul, Nat.div_add_mod, Nat.div_add_mod]
  refine ⟨_, _, (m % 8 ^ (k - 1) : ℕ) / 8 ^ (k - 1), rfl, rfl, Nat.mod_lt _ (by norm_num), by positivity, ?_, ?_⟩
  · rw [div_lt_one hpos]
    exact_mod_cast hrest
  · have hcast : (m : ℚ) = 8 ^ (k - 1) * (8 * (m / 8 ^ k : ℕ) + (m / 8 ^ (k - 1) % 8 : ℕ)) + (m % 8 ^ (k - 1) : ℕ) := by
      exact_mod_cast hsum
    have hpow' : (8 : ℚ) ^ k = 8 ^ (k - 1) * 8 := by exact_mod_cast hpow
    rw [zpow_neg, zpow_natCast, hpow', hcast, ← div_eq_mul_inv, div_eq_iff (by positivity)]
    generalize ((m / 8 ^ k : ℕ) : ℚ) = q
    generalize ((m / 8 ^ (k - 1) % 8 : ℕ) : ℚ) = l
    generalize ((m % 8 ^ (k - 1) : ℕ) : ℚ) = r
    field_simp
    ring

/-- The nearest integer; a half goes up. -/
def nearest (y : ℚ) : ℤ := ⌊y + 1 / 2⌋

lemma nearest_eq_iff {y : ℚ} {z : ℤ} : nearest y = z ↔ z - 1 / 2 ≤ y ∧ y < z + 1 / 2 := by
  rw [nearest, Int.floor_eq_iff, sub_le_iff_le_add]
  refine and_congr_right fun _ ↦ ?_
  constructor <;> intro h <;> linarith

lemma nearest_intCast (z : ℤ) : nearest z = z := by
  rw [nearest_eq_iff]
  constructor <;> linarith

section Rounding

variable {q l : ℕ} {r : ℚ}

lemma nearest_positive (hl : l < 8) (hr : 0 ≤ r) (hr' : r < 1) : nearest (q + (l + r) / 8 : ℚ) = q + if 4 ≤ l then 1 else 0 := by
  have hl' : (l : ℚ) ≤ 7 := by exact_mod_cast Nat.le_of_lt_succ hl
  rw [nearest_eq_iff]
  split_ifs with hhalf
  · have hhalf' : (4 : ℚ) ≤ l := by exact_mod_cast hhalf
    constructor <;> (push_cast; linarith)
  · have hhalf' : (l : ℚ) ≤ 3 := by exact_mod_cast (show l ≤ 3 by omega)
    have hl0 : (0 : ℚ) ≤ l := Nat.cast_nonneg l
    constructor <;> (push_cast; linarith)

lemma nearest_negative (hl : l < 8) (hr : 0 ≤ r) (hr' : r < 1) :
    nearest (-(q + (l + r) / 8) : ℚ) = -(q + if 4 < l ∨ l = 4 ∧ 0 < r then 1 else 0) := by
  have hl' : (l : ℚ) ≤ 7 := by exact_mod_cast Nat.le_of_lt_succ hl
  have hl0 : (0 : ℚ) ≤ l := Nat.cast_nonneg l
  rw [nearest_eq_iff]
  split_ifs with hhalf
  · have hhalf' : (4 : ℚ) < l + r := by
      rcases hhalf with hlt | ⟨rfl, hpos⟩
      · have hlt' : (5 : ℚ) ≤ l := by exact_mod_cast hlt
        linarith
      · push_cast
        linarith
    constructor <;> (push_cast; linarith)
  · have hhalf' : (l : ℚ) + r ≤ 4 := by
      rw [not_or, not_lt, not_and, not_lt] at hhalf
      rcases Nat.lt_or_ge l 4 with hlt | hge
      · have hlt' : (l : ℚ) ≤ 3 := by exact_mod_cast (show l ≤ 3 by omega)
        linarith
      · have heq : l = 4 := by omega
        have hzero := hhalf.2 heq
        rw [heq]
        push_cast
        linarith
    constructor <;> (push_cast; linarith)

lemma fract_octade (hl : l < 8) (hr : 0 ≤ r) (hr' : r < 1) :
    (1 / 2 < Int.fract (q + (l + r) / 8 : ℚ) ∧ Int.fract (q + (l + r) / 8 : ℚ) < 5 / 8) ↔ l = 4 ∧ 0 < r := by
  have hl' : (l : ℚ) ≤ 7 := by exact_mod_cast Nat.le_of_lt_succ hl
  have hl0 : (0 : ℚ) ≤ l := Nat.cast_nonneg l
  have hfract : Int.fract (q + (l + r) / 8 : ℚ) = (l + r) / 8 := by
    rw [Int.fract_natCast_add, Int.fract_eq_self]
    constructor <;> linarith
  rw [hfract]
  constructor
  · rintro ⟨hlow, hhigh⟩
    have hge : 3 < l := by
      have hcast : (3 : ℚ) < l := by linarith
      exact_mod_cast hcast
    have hle : l < 5 := by
      have hcast : (l : ℚ) < 5 := by linarith
      exact_mod_cast hcast
    have heq : l = 4 := by omega
    rw [heq] at hlow
    push_cast at hlow
    exact ⟨heq, by linarith⟩
  · rintro ⟨rfl, hpos⟩
    push_cast
    constructor <;> linarith

end Rounding

/-- The conversion is right: it fails when the nearest integer has more than thirteen octades, and leaves the operand as it is then,
with the index and the stores; otherwise it gives that integer. -/
def IntegerRight (b : ℕ) : Prop :=
  ∃ failed b', mkint b = some (failed, b') ∧ (failed = false ↔ |nearest (value b)| < 8 ^ 13) ∧
    (failed = false → exponent b' = 0 ∧ value b' = nearest (value b) ∧ (value b' ≠ 0 → negative b' = negative b)) ∧
    (failed = true → b' = b ∧ (∀ s t, s.b = b → forceInteger s = some (true, t) → t.b = b) ∧
      ∀ field s t, s.b = b → storeInteger field s = some (true, t) → t.b = b)

/-- A negative number whose fraction is between a half and five eighths. -/
def Skewed (b : ℕ) : Prop := negative b = true ∧ 1 / 2 < Int.fract |value b| ∧ Int.fract |value b| < 5 / 8

/-- The sign and the magnitude. -/
lemma value_abs (b : ℕ) : |value b| = mantissa b * 8 ^ exponent b := by
  rw [value, abs_mul, abs_of_nonneg (by positivity : (0 : ℚ) ≤ mantissa b * 8 ^ exponent b)]
  split_ifs <;> simp

lemma nearest_integer (f : Bool) (v : ℕ) : nearest ((if f then -1 else 1) * (v : ℚ)) = (if f then -1 else 1) * (v : ℤ) := by
  rw [← nearest_intCast ((if f then -1 else 1) * (v : ℤ))]
  congr 1
  split_ifs <;> push_cast <;> rfl

/-- **A number without a fraction** is converted when it has thirteen octades. -/
theorem integer_right {v : ℕ} (hvalue : value b = (if negative b then -1 else 1) * (v : ℚ))
    (hfits : v < 2 ^ 39 → ∃ b', mkint b = some (false, b') ∧ exponent b' = 0 ∧ value b' = value b ∧
      (value b' ≠ 0 → negative b' = negative b))
    (hfails : 2 ^ 39 ≤ v → ∃ b', mkint b = some (true, b') ∧ b' ≠ b) :
    IntegerRight b ↔ |nearest (value b)| < 8 ^ 13 ∧ ¬ Skewed b := by
  have hnear := nearest_integer (negative b) v
  rw [← hvalue] at hnear
  have hbound : |nearest (value b)| < 8 ^ 13 ↔ v < 2 ^ 39 := by
    have habs : |nearest (value b)| = v := by
      rw [hnear, abs_mul, Nat.abs_cast]
      split_ifs <;> simp
    rw [habs]
    norm_num
  have hskew : ¬ Skewed b := by
    rintro ⟨-, hlow, -⟩
    have hfract : |value b| = (v : ℚ) := by
      rw [hvalue, abs_mul, Nat.abs_cast]
      split_ifs <;> simp
    rw [hfract, Int.fract_natCast] at hlow
    exact absurd hlow (by norm_num)
  rw [and_iff_left hskew, hbound]
  rcases Nat.lt_or_ge v (2 ^ 39) with hlt | hge
  · obtain ⟨b', hrun, hexp, hsame, hsign⟩ := hfits hlt
    refine iff_of_true ⟨false, b', hrun, iff_of_true rfl (hbound.mpr hlt), fun _ ↦ ⟨hexp, ?_, hsign⟩, fun h ↦ absurd h Bool.false_ne_true⟩
      hlt
    rw [hsame, hnear, hvalue]
    split_ifs <;> push_cast <;> rfl
  · obtain ⟨b', hrun, hne⟩ := hfails hge
    refine iff_of_false ?_ (not_lt.mpr hge)
    rintro ⟨failed, b'', hrun', -, -, hkept⟩
    rw [hrun] at hrun'
    cases hrun'
    exact hne (hkept rfl).1

/-- **A number with an exponent below zero** is rounded by its last octade. -/
theorem fraction_right (hfield : (b &&& expo) >>> 39 ≠ 0) (hsign : b &&& esign ≠ 0) :
    IntegerRight b ↔ |nearest (value b)| < 8 ^ 13 ∧ ¬ Skewed b := by
  generalize hk : (b &&& expo) >>> 39 = k at hfield
  have hpos := Nat.pos_of_ne_zero hfield
  have hexp : exponent b = -k := by rw [exponent, if_pos hsign, hk]
  obtain ⟨q, l, r, hq, hl, hl8, hr, hr', hmag⟩ := octade_parts hpos (mantissa b)
  have habs : |value b| = q + (l + r) / 8 := by rw [value_abs, hexp, hmag]
  have hvalue : value b = (if negative b then -1 else 1) * (q + (l + r) / 8) := by rw [value, hexp, hmag]
  -- what the loop leaves
  have hq36 : q < 2 ^ 36 := by
    have hlt := mantissa_lt b
    have hdiv : mantissa b / 8 ^ k ≤ mantissa b / 8 ^ 1 := Nat.div_le_div_left (Nat.pow_le_pow_right (by norm_num) hpos) (by norm_num)
    lia
  obtain ⟨b', e, last, hrun, hcases⟩ := @octadesDown_spec k (mantissa b) 13 0 (mantissa_lt b)
  have hresult : mkint b = some (false, putSign (negative b) (q + if (if negative b then l > 4 else l ≥ 4) then 1 else 0)) := by
    rw [mkint, hk]
    dsimp only
    rw [if_neg hfield, if_pos hsign, hrun]
    dsimp only [bind, Option.bind]
    rcases hcases with ⟨he, hb', hlast⟩ | ⟨he, -, hzero⟩
    · rw [if_neg (not_not.mpr he), hb', hq, hlast, if_neg hfield, hl]
      congr 3
      split_ifs <;> rfl
    · have hl0 : l = 0 := by rw [← hl, hzero]
      have hq0 : q = 0 := by
        rw [← hq, ← Nat.sub_add_cancel hpos, pow_succ, ← Nat.div_div_eq_div_mul, hzero, Nat.zero_div]
      rw [if_pos he, hl0, hq0]
      cases negative b <;> rfl
  generalize hup : (if (if negative b then l > 4 else l ≥ 4) then 1 else 0) = up at hresult
  have hup1 : up ≤ 1 := by
    rw [← hup]
    split_ifs <;> omega
  obtain ⟨hexp', hvalue', hsign'⟩ := putSign_parts (show q + up < 2 ^ 39 by lia) (negative b)
  have hbound : |nearest (value b)| < 8 ^ 13 := by
    rw [hvalue, abs_lt]
    cases negative b with
    | false =>
        rw [if_neg Bool.false_ne_true, one_mul, nearest_positive hl8 hr hr']
        split_ifs <;> constructor <;> push_cast <;> lia
    | true =>
        rw [if_pos rfl, neg_one_mul, nearest_negative hl8 hr hr']
        split_ifs <;> constructor <;> push_cast <;> lia
  have hskew : Skewed b ↔ negative b = true ∧ l = 4 ∧ 0 < r := by rw [Skewed, habs, fract_octade hl8 hr hr']
  -- the last octade is right, but for four of a negative number
  have hnear : ((q + up : ℕ) : ℚ) * (if negative b then -1 else 1) = nearest (value b) ↔ ¬ Skewed b := by
    rw [hskew, hvalue, ← hup]
    cases negative b with
    | false =>
        simp only [Bool.false_eq_true, if_false, false_and, not_false_iff, iff_true, one_mul, mul_one, ge_iff_le]
        rw [nearest_positive hl8 hr hr']
        split_ifs <;> push_cast <;> rfl
    | true =>
        simp only [if_true, true_and, neg_one_mul, mul_neg, mul_one, gt_iff_lt]
        rw [nearest_negative hl8 hr hr']
        by_cases hfour : l = 4 ∧ 0 < r
        · rw [if_neg (by omega), if_pos (.inr hfour)]
          refine iff_of_false (fun h ↦ ?_) (not_not.mpr hfour)
          push_cast at h
          linarith
        · rw [if_congr (or_iff_left hfour) rfl rfl]
          refine iff_of_true ?_ hfour
          split_ifs <;> push_cast <;> rfl
  rw [and_iff_right hbound, ← hnear]
  constructor
  · rintro ⟨failed, b'', hrun', hiff, hright, -⟩
    rw [hresult] at hrun'
    cases hrun'
    rw [mul_comm, ← hvalue', (hright rfl).2.1]
  · intro heq
    refine ⟨false, _, hresult, iff_of_true rfl hbound, fun _ ↦ ⟨hexp', ?_, hsign'⟩, fun h ↦ absurd h Bool.false_ne_true⟩
    rw [hvalue', mul_comm, heq]

/-- **The conversion to an integer** is right for the operands whose nearest integer has thirteen octades, but for negative ones with a
fraction between a half and five eighths. -/
theorem mkint_iff (b : ℕ) : IntegerRight b ↔ |nearest (value b)| < 8 ^ 13 ∧ ¬ Skewed b := by
  by_cases hfield : (b &&& expo) >>> 39 = 0
  · -- an exponent that is zero
    have hexp : exponent b = 0 := by rw [exponent, hfield]; split_ifs <;> rfl
    have hrun : mkint b = some (false, b) := by rw [mkint, if_pos hfield]
    refine integer_right (v := mantissa b) (by rw [value, hexp, zpow_zero, mul_one]) (fun _ ↦ ⟨b, hrun, hexp, rfl, fun _ ↦ rfl⟩)
      fun hge ↦ ?_
    have hlt := mantissa_lt b
    omega
  by_cases hsign : b &&& esign ≠ 0
  · exact fraction_right hfield hsign
  -- an exponent above zero
  have hexp : exponent b = ((b &&& expo) >>> 39 : ℕ) := by rw [exponent, if_neg hsign]
  obtain ⟨hfails, hfits, hlt⟩ := @octadesUp_spec ((b &&& expo) >>> 39) (mantissa b) (mantissa_lt b)
  have hvalue : value b = (if negative b then -1 else 1 : ℚ) * ((mantissa b * 8 ^ ((b &&& expo) >>> 39) : ℕ) : ℚ) := by
    rw [value, hexp, zpow_natCast]
    push_cast
    rfl
  have hrun : mkint b = some (if (octadesUp ((b &&& expo) >>> 39) (mantissa b)).1 = true then
      (true, (octadesUp ((b &&& expo) >>> 39) (mantissa b)).2)
        else (false, putSign (negative b) (octadesUp ((b &&& expo) >>> 39) (mantissa b)).2)) := by
    rw [mkint]
    dsimp only
    rw [if_neg hfield, if_neg hsign]
  refine integer_right hvalue (fun hsmall ↦ ?_) fun hlarge ↦ ?_
  · have hno := mt hfails.mp (not_le.mpr hsmall)
    rw [if_neg hno, hfits (Bool.eq_false_of_not_eq_true hno)] at hrun
    obtain ⟨hzero, hsame, hkept⟩ := putSign_parts hsmall (negative b)
    exact ⟨_, hrun, hzero, hsame.trans hvalue.symm, hkept⟩
  · rw [if_pos (hfails.mpr hlarge)] at hrun
    refine ⟨_, hrun, fun heq ↦ hfield ?_⟩
    -- the exponent is lost
    rw [heq] at hlt
    rw [show expo = (2 ^ 6 - 1) <<< 39 from rfl, and_shiftLeft, Nat.shiftRight_eq_div_pow b, Nat.div_eq_of_lt hlt]
    rfl

/-- The largest operand is changed when its conversion fails. -/
theorem mkint_changes : ¬ ∀ b, IntegerRight b := fun h ↦ by
  obtain ⟨failed, b', hrun, -, -, hkept⟩ := h 0o777777777777777
  have hresult : mkint 0o777777777777777 = some (true, 0o7777777777777) := by decide
  rw [hresult] at hrun
  cases hrun
  exact absurd (hkept rfl).1 (by decide)

end Ka10Simh.B5500
