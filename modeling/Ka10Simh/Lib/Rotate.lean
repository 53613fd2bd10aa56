import Mathlib.Tactic

/-!
Rotations of bit vectors.

* `Rotate.left_left`: two rotations one after the other.
* `Rotate.right_eq`: a rotation to the right as one to the left.
* `Rotate.left_of_dvd`: a rotation by a multiple of the width is none.
* `Rotate.append_rotate`, `Rotate.append_shl`, `Rotate.append_shr`: a vector of twice the width, by its halves.
-/

namespace Rotate

variable {w m n : ℕ} {x y : BitVec w}

/-- Bit vectors with the same bits from the highest on are the same. -/
lemma ext_msb (h : ∀ i < w, x.getMsbD i = y.getMsbD i) : x = y := BitVec.eq_of_getMsbD_eq h

/-- **Two rotations are one by the sum of the counts.** -/
theorem left_left (x : BitVec w) (m n : ℕ) : (x.rotateLeft m).rotateLeft n = x.rotateLeft (m + n) := by
  refine ext_msb fun i hi ↦ ?_
  have hlt : (n + i) % w < w := Nat.mod_lt _ (Nat.zero_lt_of_lt hi)
  rw [BitVec.getMsbD_rotateLeft, BitVec.getMsbD_rotateLeft, BitVec.getMsbD_rotateLeft, decide_eq_true hi,
    decide_eq_true hlt, Bool.true_and, Bool.true_and, Bool.true_and, Nat.add_mod_mod, Nat.add_assoc]

/-- A rotation by a multiple of the width. -/
theorem left_of_dvd (x : BitVec w) (h : w ∣ n) : x.rotateLeft n = x := by
  refine ext_msb fun i hi ↦ ?_
  obtain ⟨k, rfl⟩ := h
  rw [BitVec.getMsbD_rotateLeft, decide_eq_true hi, Bool.true_and, Nat.mul_add_mod, Nat.mod_eq_of_lt hi]

lemma left_congr (x : BitVec w) (h : m % w = n % w) : x.rotateLeft m = x.rotateLeft n := by
  rw [← BitVec.rotateLeft_mod_eq_rotateLeft, h, BitVec.rotateLeft_mod_eq_rotateLeft]

/-- A rotation to the right is one to the left by the rest of the width. -/
theorem right_eq (x : BitVec w) (n : ℕ) : x.rotateRight n = x.rotateLeft (w - n % w) := by
  refine ext_msb fun i hi ↦ ?_
  have hlt : n % w < w := Nat.mod_lt _ (Nat.zero_lt_of_lt hi)
  rw [BitVec.getMsbD_rotateRight, BitVec.getMsbD_rotateLeft]
  generalize n % w = r at hlt
  refine congrArg (decide (i < w) && ·) ?_
  split_ifs with hir
  · rw [Nat.sub_add_comm hlt.le]
  · have hsum : w - r + i = i - r + w := by lia
    rw [hsum, Nat.add_mod_right, Nat.mod_eq_of_lt (by omega)]

/-- **A rotation by a count and then by its negative is none.** -/
theorem right_left (x : BitVec w) (n : ℕ) : (x.rotateRight n).rotateLeft n = x := by
  rcases Nat.eq_zero_or_pos w with rfl | hw
  · exact ext_msb fun i hi ↦ absurd hi (Nat.not_lt_zero i)
  rw [right_eq, left_left]
  refine left_of_dvd x ?_
  have hlt : n % w < w := Nat.mod_lt _ hw
  have hdiv : w * (n / w) + n % w = n := Nat.div_add_mod n w
  refine ⟨n / w + 1, ?_⟩
  rw [Nat.mul_add, Nat.mul_one]
  omega

theorem left_right (x : BitVec w) (n : ℕ) : (x.rotateLeft n).rotateRight n = x := by
  rw [right_eq, left_left, Nat.add_comm, ← left_left, ← right_eq, right_left]

/-- The bits that a shift to the left lets out come back on the right. -/
theorem left_or (x : BitVec w) (h : n ≤ w) : x <<< n ||| x >>> (w - n) = x.rotateLeft n := by
  rcases h.lt_or_eq with hlt | rfl
  · rw [BitVec.rotateLeft_def, Nat.mod_eq_of_lt hlt]
  · rw [left_of_dvd x dvd_rfl, Nat.sub_self, BitVec.ushiftRight_zero, BitVec.shiftLeft_eq_zero le_rfl, BitVec.zero_or]

/-! ### Two halves -/

section Halves

variable {i : ℕ}

lemma getMsbD_hi (x y : BitVec w) (hi : i < w) : (x ++ y).getMsbD i = x.getMsbD i := by
  rw [BitVec.getMsbD_append, if_neg (Nat.not_le.mpr hi)]

lemma getMsbD_lo (x y : BitVec w) (hi : w ≤ i) : (x ++ y).getMsbD i = y.getMsbD (i - w) := by
  rw [BitVec.getMsbD_append, if_pos hi]

/-- A bit of the upper half after a shift over the border. -/
lemma getMsbD_upper (x y : BitVec w) (hi : i < w) (hn : n ≤ w) :
    (x <<< n ||| y >>> (w - n)).getMsbD i = (x ++ y).getMsbD (i + n) := by
  rw [BitVec.getMsbD_or, BitVec.getMsbD_shiftLeft, BitVec.getMsbD_ushiftRight]
  rcases Nat.lt_or_ge (i + n) w with hlt | hge
  · have hin : i < w - n := by omega
    rw [getMsbD_hi x y hlt]
    simp [hin]
  · have hsub : i - (w - n) = i + n - w := by lia
    have hin : ¬ i < w - n := by omega
    rw [getMsbD_lo x y hge]
    simp [hi, hsub, hin, BitVec.getMsbD_of_ge x _ hge]

lemma left_or_swap (x y : BitVec w) : x <<< w ||| y >>> (w - w) = y := by
  rw [Nat.sub_self, BitVec.ushiftRight_zero, BitVec.shiftLeft_eq_zero le_rfl, BitVec.zero_or]

/-- **A rotation of two halves.** -/
theorem append_rotate (x y : BitVec w) (h : n ≤ w) :
    (x ++ y).rotateLeft n = (x <<< n ||| y >>> (w - n)) ++ (y <<< n ||| x >>> (w - n)) := by
  refine ext_msb fun i hi ↦ ?_
  rw [BitVec.getMsbD_rotateLeft, decide_eq_true hi, Bool.true_and]
  rcases Nat.lt_or_ge i w with hiw | hiw
  · have hmod : (n + i) % (w + w) = i + n := by rw [Nat.add_comm, Nat.mod_eq_of_lt (by omega)]
    rw [getMsbD_hi _ _ hiw, getMsbD_upper x y hiw h, hmod]
  · rw [getMsbD_lo _ _ hiw, getMsbD_upper y x (by omega) h]
    rcases Nat.lt_or_ge (n + i) (w + w) with hni | hni
    · have hmod : (n + i) % (w + w) = n + i := Nat.mod_eq_of_lt hni
      rw [hmod, getMsbD_lo x y (by omega), getMsbD_hi y x (by omega), show n + i - w = i - w + n by lia]
    · have hmod : (n + i) % (w + w) = n + i - (w + w) := by
        rw [Nat.mod_eq_sub_mod hni, Nat.mod_eq_of_lt (by omega)]
      rw [hmod, getMsbD_hi x y (by omega), getMsbD_lo y x (by omega),
        show n + i - (w + w) = i - w + n - w by omega]

/-- A rotation by half of the width swaps the halves. -/
theorem append_swap (x y : BitVec w) : (x ++ y).rotateLeft w = y ++ x := by
  rw [append_rotate x y le_rfl, left_or_swap, left_or_swap]

/-- A shift of two halves to the left. -/
theorem append_shl (x y : BitVec w) (h : n ≤ w) : (x ++ y) <<< n = (x <<< n ||| y >>> (w - n)) ++ (y <<< n) := by
  refine ext_msb fun i hi ↦ ?_
  rw [BitVec.getMsbD_shiftLeft]
  rcases Nat.lt_or_ge i w with hiw | hiw
  · rw [getMsbD_hi _ _ hiw, getMsbD_upper x y hiw h]
  · rw [getMsbD_lo _ _ hiw, getMsbD_lo x y (by omega), BitVec.getMsbD_shiftLeft, show i + n - w = i - w + n by lia]

/-- A shift of two halves to the right. -/
theorem append_shr (x y : BitVec w) (h : n ≤ w) : (x ++ y) >>> n = (x >>> n) ++ (y >>> n ||| x <<< (w - n)) := by
  refine ext_msb fun i hi ↦ ?_
  rw [BitVec.getMsbD_ushiftRight, decide_eq_true hi, Bool.true_and]
  rcases Nat.lt_or_ge i w with hiw | hiw
  · rw [getMsbD_hi _ _ hiw, getMsbD_hi x y (by omega), BitVec.getMsbD_ushiftRight, decide_eq_true hiw, Bool.true_and]
  · have hup := getMsbD_upper x y (n := w - n) (i := i - w) (by omega) (by omega)
    have hn : w - (w - n) = n := by lia
    have hsum : i - w + (w - n) = i - n := by lia
    rw [hn, hsum] at hup
    rw [getMsbD_lo _ _ hiw, BitVec.or_comm, hup, decide_eq_false (by omega), Bool.not_false, Bool.true_and]

end Halves

end Rotate
