import Mathlib.Tactic

/-!
Slots: bytes laid out in words, `per` to a word.

A slot is a word and a byte in it, counted from 1; byte 0 is before the first. The slots are in a line,
and the last of a word is next to the first of the following.

* `Slots.iterate_next`: steps to the next slot are a move along the line.
* `Slots.ofQuotient`: division with rounding to zero, put right, finds a slot.
* `Slots.ofIndex_congr`: the slots that are the same in a ring of words.
-/

namespace Slots

/-- A word and a byte in it. -/
structure Slot where
  word : ℤ
  byte : ℕ
  deriving DecidableEq

variable (per : ℕ)

/-- The next slot. -/
def next (t : Slot) : Slot :=
  if t.byte < per then ⟨t.word, t.byte + 1⟩ else ⟨t.word + 1, 1⟩

/-- The place of a slot in the line, and the slot at a place. -/
def index (t : Slot) : ℤ := t.word * per + t.byte - 1
def ofIndex (i : ℤ) : Slot := ⟨i / per, (i % per).toNat + 1⟩

/-- The slot that is `n` slots further on. -/
def move (n : ℤ) (t : Slot) : Slot := ofIndex per (index per t + n)

variable {per}

/-- The next slot is found from any word. -/
lemma next_word (t : Slot) :
    next per t = ⟨t.word + (next per ⟨0, t.byte⟩).word, (next per ⟨0, t.byte⟩).byte⟩ := by
  simp only [next]
  split_ifs <;> simp

variable (hper : 0 < per)

include hper

lemma byte_ofIndex (i : ℤ) : 1 ≤ (ofIndex per i).byte ∧ (ofIndex per i).byte ≤ per := by
  have hlt := Int.emod_lt_of_pos i (by omega : (0 : ℤ) < per)
  have hnonneg := Int.emod_nonneg i (by omega : (per : ℤ) ≠ 0)
  simp only [ofIndex]
  omega

lemma index_ofIndex (i : ℤ) : index per (ofIndex per i) = i := by
  have hnonneg := Int.emod_nonneg i (by omega : (per : ℤ) ≠ 0)
  have hdiv := Int.mul_ediv_add_emod i per
  have hcast : (((i % per).toNat + 1 : ℕ) : ℤ) = i % per + 1 := by lia
  rw [index, ofIndex, hcast, mul_comm]
  linarith

/-- A slot other than one before the first of its word. -/
lemma ofIndex_index {t : Slot} (hone : 1 ≤ t.byte) (hbyte : t.byte ≤ per) :
    ofIndex per (index per t) = t := by
  have hpos : (0 : ℤ) < per := by omega
  have hshape : index per t = (t.byte - 1 : ℤ) + t.word * per := by
    rw [index]
    ring
  have hsmall : (0 : ℤ) ≤ t.byte - 1 ∧ (t.byte - 1 : ℤ) < per := by omega
  rw [ofIndex, hshape, Int.add_mul_ediv_right _ _ hpos.ne', Int.add_mul_emod_self_right,
    Int.ediv_eq_zero_of_lt hsmall.1 hsmall.2, Int.emod_eq_of_lt hsmall.1 hsmall.2, zero_add,
    show (t.byte - 1 : ℤ).toNat + 1 = t.byte by lia]

lemma next_eq {t : Slot} (hbyte : t.byte ≤ per) : next per t = move per 1 t := by
  have hone : 1 ≤ (next per t).byte := by
    rw [next]
    split_ifs <;> simp
  have hle : (next per t).byte ≤ per := by
    rw [next]
    split_ifs
    · assumption
    · exact hper
  have hindex : index per (next per t) = index per t + 1 := by
    rw [next]
    split_ifs with hlt
    · simp only [index]
      push_cast
      ring
    · have hlast : t.byte = per := by omega
      simp only [index, hlast]
      push_cast
      ring
  rw [move, ← hindex, ofIndex_index hper hone hle]

lemma byte_move (n : ℤ) (t : Slot) : (move per n t).byte ≤ per := (byte_ofIndex hper _).2

/-- A move starts at any word. -/
lemma move_word (n : ℤ) (t : Slot) :
    move per n t = ⟨t.word + (move per n ⟨0, t.byte⟩).word, (move per n ⟨0, t.byte⟩).byte⟩ := by
  have hne : (per : ℤ) ≠ 0 := by omega
  have hshape : index per t + n = index per ⟨0, t.byte⟩ + n + t.word * per := by
    simp only [index]
    ring
  simp only [move, ofIndex, hshape, Int.add_mul_ediv_right _ _ hne, Int.add_mul_emod_self_right,
    Slot.mk.injEq, and_true]
  exact add_comm _ _

lemma move_move (m n : ℤ) (t : Slot) : move per n (move per m t) = move per (m + n) t := by
  rw [move, move, move, index_ofIndex hper, add_assoc]

/-- **Steps to the next slot** are a move along the line. -/
theorem iterate_next {t : Slot} (hbyte : t.byte ≤ per) (n : ℕ) :
    (next per)^[n + 1] t = move per (n + 1) t := by
  induction n with
  | zero => exact (next_eq hper hbyte).trans (by simp)
  | succ n ih =>
      have hmoved := byte_move hper (n + 1) t
      rw [Function.iterate_succ_apply', ih, next_eq hper hmoved, move_move hper]
      push_cast
      rfl

/-- **A slot by a division** that rounds to zero: a remainder that is not positive is made so. -/
theorem ofQuotient (n : ℤ) :
    ofIndex per (n - 1) =
      let adjw := n.tdiv per
      let adjb := n.tmod per
      if adjb ≤ 0 then ⟨adjw - 1, (adjb + per).toNat⟩ else ⟨adjw, adjb.toNat⟩ := by
  have hpos : (0 : ℤ) < per := by omega
  have hsplit := Int.mul_tdiv_add_tmod n per
  have habs := Int.tmod_lt_of_pos n hpos
  have hneg := Int.lt_tmod_of_pos n hpos
  simp only
  split_ifs with hrem
  · have hshape : n - 1 = (n.tmod per + per - 1) + (n.tdiv per - 1) * per := by linarith
    have hsmall : 0 ≤ n.tmod per + per - 1 ∧ n.tmod per + per - 1 < per := by omega
    rw [ofIndex, hshape, Int.add_mul_ediv_right _ _ hpos.ne', Int.add_mul_emod_self_right,
      Int.ediv_eq_zero_of_lt hsmall.1 hsmall.2, Int.emod_eq_of_lt hsmall.1 hsmall.2, zero_add]
    congr 1
    lia
  · have hshape : n - 1 = (n.tmod per - 1) + n.tdiv per * per := by linarith
    have hsmall : 0 ≤ n.tmod per - 1 ∧ n.tmod per - 1 < per := by omega
    rw [ofIndex, hshape, Int.add_mul_ediv_right _ _ hpos.ne', Int.add_mul_emod_self_right,
      Int.ediv_eq_zero_of_lt hsmall.1 hsmall.2, Int.emod_eq_of_lt hsmall.1 hsmall.2, zero_add]
    congr 1
    lia

/-- **Slots in a ring** of `W` words: two are the same when their places are, round the ring. -/
theorem ofIndex_congr (W : ℤ) (i j : ℤ) :
    (ofIndex per i).byte = (ofIndex per j).byte ∧ W ∣ (ofIndex per i).word - (ofIndex per j).word
      ↔ (per : ℤ) * W ∣ i - j := by
  have hi := Int.mul_ediv_add_emod i per
  have hj := Int.mul_ediv_add_emod j per
  have hinonneg := Int.emod_nonneg i (by omega : (per : ℤ) ≠ 0)
  have hjnonneg := Int.emod_nonneg j (by omega : (per : ℤ) ≠ 0)
  have hdiff : i - j = per * (i / per - j / per) + (i % per - j % per) := by
    rw [mul_sub]
    linarith
  simp only [ofIndex]
  constructor
  · rintro ⟨hbyte, hword⟩
    have hrem : i % per = j % per := by lia
    rw [hdiff, hrem, sub_self, add_zero]
    exact mul_dvd_mul_left _ hword
  · intro hdvd
    have hrem : i % per = j % per := Int.emod_eq_emod_iff_emod_sub_eq_zero.mpr
      (Int.emod_eq_zero_of_dvd (dvd_of_mul_right_dvd hdvd))
    refine ⟨by lia, ?_⟩
    rw [hdiff, hrem, sub_self, add_zero] at hdvd
    exact Int.dvd_of_mul_dvd_mul_left (by omega : (per : ℤ) ≠ 0) hdvd

end Slots
