import Mathlib.Tactic
import Mathlib.Algebra.Order.Archimedean.Basic

/-!
Floating point numbers of any radix, and the numbers of a set that are nearest to a given one.

* `Floating.Nearest`: a point of a set that no other one of it is nearer than.
* `Floating.Nearest.mono`: nearest points are in the order of what they stand for.
* `Floating.nearest_low_iff`, `Floating.nearest_high_iff`: between two neighbours the nearer one is nearest.
* `Floating.NearestAway`: of two nearest points the one that is farther from zero.
* `Floating.gap`: no number of `p` digits is between two that follow each other with all digits in use.
* `Floating.nearest_half_up`: half a unit is added, and the fraction is dropped.
-/

namespace Floating

/-! ### Nearest points -/

section Nearest

variable {α : Type*} [Field α] [LinearOrder α] [IsStrictOrderedRing α] {S : Set α} {x y r s lo hi : α}

/-- `r` is a point of `S` that is nearest to `x`. -/
structure Nearest (S : Set α) (x r : α) : Prop where
  mem : r ∈ S
  le : ∀ s ∈ S, |x - r| ≤ |x - s|

/-- The larger one of two points is nearer from their middle on. -/
lemma abs_sub_le_iff (h : s < r) : |x - r| ≤ |x - s| ↔ r + s ≤ 2 * x := by
  rw [← sq_le_sq]
  constructor
  · intro hsq
    by_contra hlt
    rw [not_le] at hlt
    nlinarith
  · intro hle
    nlinarith

lemma abs_sub_le_iff' (h : s < r) : |x - s| ≤ |x - r| ↔ 2 * x ≤ r + s := by
  rw [← sq_le_sq]
  constructor
  · intro hsq
    by_contra hlt
    rw [not_le] at hlt
    nlinarith
  · intro hle
    nlinarith

/-- **Nearest points keep the order.** -/
theorem Nearest.mono (hr : Nearest S x r) (hs : Nearest S y s) (h : x < y) : r ≤ s := by
  by_contra hlt
  rw [not_le] at hlt
  have hx := (abs_sub_le_iff hlt).mp (hr.le s hs.mem)
  have hy := (abs_sub_le_iff' hlt).mp (hs.le r hr.mem)
  linarith

/-- A point of the set is its own nearest one. -/
lemma Nearest.eq_of_mem (h : Nearest S x r) (hx : x ∈ S) : r = x := by
  have hle := h.le x hx
  rw [sub_self, abs_zero, abs_nonpos_iff, sub_eq_zero] at hle
  exact hle.symm

lemma nearest_self (hx : x ∈ S) : Nearest S x x :=
  ⟨hx, fun s _ ↦ by rw [sub_self, abs_zero]; exact abs_nonneg _⟩

/-- Between two neighbours the lower one is nearest up to the middle. -/
theorem nearest_low_iff (hgap : ∀ s ∈ S, s ≤ lo ∨ hi ≤ s) (hlo : lo ∈ S) (hhi : hi ∈ S) (hlt : lo < hi) (h : lo ≤ x)
    (h' : x ≤ hi) : Nearest S x lo ↔ x - lo ≤ hi - x := by
  constructor
  · intro hn
    have hle := (abs_sub_le_iff' hlt).mp (hn.le hi hhi)
    linarith
  · intro hle
    refine ⟨hlo, fun s hs ↦ ?_⟩
    rw [abs_of_nonneg (sub_nonneg.mpr h)]
    rcases hgap s hs with hlow | hhigh
    · rw [abs_of_nonneg (by linarith)]
      linarith
    · rw [abs_of_nonpos (by linarith)]
      linarith

/-- And the higher one from there on. -/
theorem nearest_high_iff (hgap : ∀ s ∈ S, s ≤ lo ∨ hi ≤ s) (hlo : lo ∈ S) (hhi : hi ∈ S) (hlt : lo < hi)
    (h' : x ≤ hi) : Nearest S x hi ↔ hi - x ≤ x - lo := by
  constructor
  · intro hn
    have hle := (abs_sub_le_iff hlt).mp (hn.le lo hlo)
    linarith
  · intro hle
    refine ⟨hhi, fun s hs ↦ ?_⟩
    rw [abs_of_nonpos (sub_nonpos.mpr h')]
    rcases hgap s hs with hlow | hhigh
    · rw [abs_of_nonneg (by linarith)]
      linarith
    · rw [abs_of_nonpos (by linarith)]
      linarith

/-- `r` is nearest to `x`, and when there are two nearest points it is the one that is farther from zero. -/
structure NearestAway (S : Set α) (x r : α) : Prop extends Nearest S x r where
  away : ∀ s, Nearest S x s → |s| ≤ |r|

end Nearest

/-! ### Numbers of some digits -/

/-- The numbers of `p` digits to the radix `b`, with any exponent. -/
def Digits (b p : ℕ) : Set ℚ := {x | ∃ m j : ℤ, |m| ≤ b ^ p ∧ x = m * (b : ℚ) ^ j}

variable {b p : ℕ} {s : ℚ} {k : ℤ}

lemma Digits.neg (h : s ∈ Digits b p) : -s ∈ Digits b p := by
  obtain ⟨m, j, hm, rfl⟩ := h
  exact ⟨-m, j, by rwa [abs_neg], by push_cast; ring⟩

/-- **Neighbours**: no number of `p` digits is between `q` and `q + 1` units, if `q` has `p` digits. -/
theorem gap (hb : 2 ≤ b) (hs : s ∈ Digits b (p + 1)) {q : ℤ} (hq : (b : ℤ) ^ p ≤ q) :
    s ≤ q * (b : ℚ) ^ k ∨ (q + 1) * (b : ℚ) ^ k ≤ s := by
  obtain ⟨m, j, hm, rfl⟩ := hs
  have hb0 : (0 : ℚ) < b := by exact_mod_cast (by omega : 0 < b)
  have hunit : (0 : ℚ) < (b : ℚ) ^ k := zpow_pos hb0 k
  rcases lt_or_ge j k with hjk | hjk
  · -- a smaller unit: the number is too small
    left
    have hmq : (m : ℚ) ≤ (b : ℚ) ^ (p + 1) := by exact_mod_cast (le_abs_self m).trans hm
    have hqq : (b : ℚ) ^ p ≤ q := by exact_mod_cast hq
    have hone : (1 : ℚ) ≤ b := by exact_mod_cast (by omega : 1 ≤ b)
    calc (m : ℚ) * (b : ℚ) ^ j ≤ (b : ℚ) ^ (p + 1) * (b : ℚ) ^ j :=
          mul_le_mul_of_nonneg_right hmq (zpow_pos hb0 j).le
      _ = (b : ℚ) ^ p * (b : ℚ) ^ (j + 1) := by
          rw [pow_succ, zpow_add_one₀ hb0.ne']
          ring
      _ ≤ (b : ℚ) ^ p * (b : ℚ) ^ k :=
          mul_le_mul_of_nonneg_left (zpow_le_zpow_right₀ hone (by omega)) (by positivity)
      _ ≤ q * (b : ℚ) ^ k := mul_le_mul_of_nonneg_right hqq hunit.le
  · -- the number is a multiple of the unit
    obtain ⟨d, rfl⟩ : ∃ d : ℕ, j = k + d := ⟨(j - k).toNat, by lia⟩
    have hmul : (m : ℚ) * (b : ℚ) ^ (k + (d : ℤ)) = ((m * (b : ℤ) ^ d : ℤ) : ℚ) * (b : ℚ) ^ k := by
      rw [zpow_add₀ hb0.ne', zpow_natCast]
      push_cast
      ring
    rw [hmul]
    rcases lt_or_ge q (m * (b : ℤ) ^ d) with hlt | hge
    · right
      refine mul_le_mul_of_nonneg_right ?_ hunit.le
      exact_mod_cast hlt
    · left
      refine mul_le_mul_of_nonneg_right ?_ hunit.le
      exact_mod_cast hge

lemma NearestAway.neg {x r : ℚ} (h : NearestAway (Digits b p) x r) : NearestAway (Digits b p) (-x) (-r) := by
  have hflip (y z : ℚ) : |-y - z| = |y - -z| := by
    rw [← abs_neg]
    congr 1
    ring
  have hnear {y z : ℚ} (hn : Nearest (Digits b p) y z) : Nearest (Digits b p) (-y) (-z) := by
    refine ⟨Digits.neg hn.mem, fun s hs ↦ ?_⟩
    rw [hflip, hflip, neg_neg]
    exact hn.le (-s) (Digits.neg hs)
  refine ⟨hnear h.toNearest, fun s hs ↦ ?_⟩
  have hback := hnear hs
  rw [neg_neg] at hback
  have hle := h.away (-s) hback
  rwa [abs_neg] at hle ⊢

/-- **Half a unit is added**, and the fraction is dropped. -/
theorem nearest_half_up (hb : 2 ≤ b) {q : ℤ} {d : ℚ} (hq : (b : ℤ) ^ p ≤ q) (hq' : q + 1 ≤ (b : ℤ) ^ (p + 1)) (hd : 0 ≤ d)
    (hd' : d < 1) : NearestAway (Digits b (p + 1)) ((q + d) * (b : ℚ) ^ k) ((if d < 1 / 2 then (q : ℚ) else q + 1) * (b : ℚ) ^ k) := by
  have hb0 : (0 : ℚ) < b := by exact_mod_cast (by omega : 0 < b)
  have hunit : (0 : ℚ) < (b : ℚ) ^ k := zpow_pos hb0 k
  have hq0 : (0 : ℤ) < q := lt_of_lt_of_le (by positivity) hq
  have hq1 : (0 : ℚ) < q := by exact_mod_cast hq0
  have hmem {m : ℤ} (h0 : 0 < m) (hm : m ≤ (b : ℤ) ^ (p + 1)) : (m : ℚ) * (b : ℚ) ^ k ∈ Digits b (p + 1) :=
    ⟨m, k, by rwa [abs_of_pos h0], rfl⟩
  have hlo := hmem hq0 (by omega)
  have hhi : ((q : ℚ) + 1) * (b : ℚ) ^ k ∈ Digits b (p + 1) := by exact_mod_cast hmem (by omega) hq'
  have hgap (s : ℚ) (hs : s ∈ Digits b (p + 1)) : s ≤ q * (b : ℚ) ^ k ∨ (q + 1) * (b : ℚ) ^ k ≤ s := gap hb hs hq
  have hlt : q * (b : ℚ) ^ k < (q + 1) * (b : ℚ) ^ k := mul_lt_mul_of_pos_right (by linarith) hunit
  have hx : q * (b : ℚ) ^ k ≤ (q + d) * (b : ℚ) ^ k := mul_le_mul_of_nonneg_right (by linarith) hunit.le
  have hx' : (q + d) * (b : ℚ) ^ k ≤ (q + 1) * (b : ℚ) ^ k := mul_le_mul_of_nonneg_right (by linarith) hunit.le
  have hpos : 0 < q * (b : ℚ) ^ k := mul_pos hq1 hunit
  have hfar {s : ℚ} (hs : s < 0) : s ≤ q * (b : ℚ) ^ k := by linarith
  by_cases hhalf : d < 1 / 2
  · rw [if_pos hhalf]
    have hnear : (q + d) * (b : ℚ) ^ k - q * (b : ℚ) ^ k < (q + 1) * (b : ℚ) ^ k - (q + d) * (b : ℚ) ^ k := by nlinarith
    have hn := (nearest_low_iff hgap hlo hhi hlt hx hx').mpr hnear.le
    refine ⟨hn, fun s hs ↦ ?_⟩
    rw [abs_of_pos hpos]
    have hle := hs.le _ hlo
    rw [abs_of_nonneg (sub_nonneg.mpr hx)] at hle
    rcases hgap s hs.mem with hlow | hhigh
    · rw [abs_le]
      refine ⟨?_, hlow⟩
      rw [abs_of_nonneg (by linarith)] at hle
      linarith
    · rw [abs_of_nonpos (by linarith)] at hle
      linarith
  · rw [if_neg hhalf]
    rw [not_lt] at hhalf
    have hnear : (q + 1) * (b : ℚ) ^ k - (q + d) * (b : ℚ) ^ k ≤ (q + d) * (b : ℚ) ^ k - q * (b : ℚ) ^ k := by nlinarith
    have hn := (nearest_high_iff hgap hlo hhi hlt hx').mpr hnear
    refine ⟨hn, fun s hs ↦ ?_⟩
    rw [abs_of_pos (hpos.trans hlt)]
    have hle := hs.le _ hhi
    rw [abs_of_nonpos (sub_nonpos.mpr hx')] at hle
    rcases le_total s ((q + d) * (b : ℚ) ^ k) with hlow | hhigh
    · rw [abs_of_nonneg (by linarith)] at hle
      rw [abs_le]
      constructor <;> linarith
    · rw [abs_of_nonpos (by linarith)] at hle
      rw [abs_le]
      constructor <;> linarith

end Floating
