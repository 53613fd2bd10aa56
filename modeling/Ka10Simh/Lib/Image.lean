import Mathlib.Data.List.GetD
import Mathlib.Tactic

/-!
Files as lists of cells that are read and written in blocks.

A write past the end of the file extends it, with blank cells before the block; a read past the end
stops there.

* `Image.pread_pwrite`: a block that has been written is read.
* `Image.cell_pwrite`: the cells beside it are as they were.
-/

namespace Image

variable {α : Type*}

/-- Read `n` cells at `off`. -/
def pread (img : List α) (off n : ℕ) : List α := (img.drop off).take n

/-- Write a block at `off`. -/
def pwrite (blank : α) (img : List α) (off : ℕ) (block : List α) : List α :=
  img.takeD off blank ++ block ++ img.drop (off + block.length)

/-- The cell at `k`, blank beyond the end. -/
def cell (blank : α) (img : List α) (k : ℕ) : α := img.getD k blank

variable (blank : α) (img block : List α) (off : ℕ)

lemma length_pwrite :
    (pwrite blank img off block).length = max img.length (off + block.length) := by
  rw [pwrite, List.length_append, List.length_append, List.takeD_length, List.length_drop]
  lia

/-- A part of a block that has been written. -/
theorem pread_pwrite_part {i n : ℕ} (hin : i + n ≤ block.length) :
    pread (pwrite blank img off block) (off + i) n = (block.drop i).take n := by
  have hlen : (img.takeD off blank).length = off := List.takeD_length off img blank
  rw [pread, pwrite, List.append_assoc, ← List.drop_drop, List.drop_left' hlen,
    List.drop_append_of_le_length (by omega), List.take_append_of_le_length (by simp; omega)]

lemma pread_pwrite : pread (pwrite blank img off block) off block.length = block := by
  have hpart := pread_pwrite_part blank img block off (Nat.zero_add block.length).le
  rwa [Nat.add_zero, List.drop_zero, List.take_length] at hpart

/-- A cell of the file with the first cells taken, or blank. -/
lemma getD_takeD {n k : ℕ} (hk : k < n) : (img.takeD n blank).getD k blank = img.getD k blank := by
  induction n generalizing img k with
  | zero => omega
  | succ n ih =>
      cases img with
      | nil =>
          cases k with
          | zero => rfl
          | succ k => simp
      | cons a img =>
          cases k with
          | zero => rfl
          | succ k => simpa using ih img (by omega : k < n)

/-- The cells beside a block are those that were there. -/
theorem cell_pwrite {k : ℕ} (hk : k < off ∨ off + block.length ≤ k) :
    cell blank (pwrite blank img off block) k = cell blank img k := by
  have hlen : (img.takeD off blank).length = off := List.takeD_length off img blank
  rw [cell, cell, pwrite, List.append_assoc]
  rcases hk with hlow | hhigh
  · rw [List.getD_append _ _ _ _ (by omega), getD_takeD blank img hlow]
  · rw [List.getD_append_right _ _ _ _ (by omega), hlen,
      List.getD_append_right _ _ _ _ (by omega), List.getD_eq_getElem?_getD, List.getElem?_drop,
      List.getD_eq_getElem?_getD]
    congr 2
    omega

end Image
