import Mathlib.Data.Set.Function
import Mathlib.Tactic

/-!
Copying a block word by word, in ascending order, where source and destination may overlap.

A store is a function from places to words, and the blocks are families of places, so that words of
either may share a place.

* `WordCopy.moves_eqOn`: stores that agree off places no word is taken from still do afterwards.
* `WordCopy.moves_move`: a word copied ahead of its turn makes no difference when no earlier word is
  taken from its place; so a copy that is begun again is the copy.
-/

namespace WordCopy

variable {π α : Type*} [DecidableEq π] (src dst : ℕ → π)

/-- Copy word `i`. -/
def move (i : ℕ) (m : π → α) : π → α := Function.update m (dst i) (m (src i))

/-- Copy the `n` words from `i` on, in ascending order. -/
def moves : ℕ → ℕ → (π → α) → π → α
  | _, 0, m => m
  | i, n + 1, m => moves (i + 1) n (move src dst i m)

variable {src dst}

@[simp] lemma move_self (i : ℕ) (m : π → α) : move src dst i m (dst i) = m (src i) :=
  Function.update_self _ _ _

lemma move_of_ne {i : ℕ} {p : π} (hp : p ≠ dst i) (m : π → α) : move src dst i m p = m p :=
  Function.update_of_ne hp _ _

/-- A word of which the place is its own source is as it was. -/
lemma move_of_eq {k : ℕ} (h : src k = dst k) (m : π → α) : move src dst k m = m := by
  rw [move, h, Function.update_eq_self]

lemma moves_add (i a b : ℕ) (m : π → α) :
    moves src dst i (a + b) m = moves src dst (i + a) b (moves src dst i a m) := by
  induction a generalizing i m with
  | zero => rw [Nat.zero_add, Nat.add_zero, moves]
  | succ a ih =>
      rw [Nat.succ_add, moves, moves, ih, Nat.add_assoc, Nat.add_comm 1 a]

lemma move_eqOn {X : Set π} {i : ℕ} {m m' : π → α} (hsrc : src i ∉ X) (h : Set.EqOn m m' Xᶜ) :
    Set.EqOn (move src dst i m) (move src dst i m') Xᶜ := by
  intro p hp
  rcases eq_or_ne p (dst i) with rfl | hne
  · rw [move_self, move_self, h hsrc]
  · rw [move_of_ne hne, move_of_ne hne, h hp]

/-- Stores that agree off places no word is taken from still do afterwards. -/
theorem moves_eqOn {X : Set π} {i n : ℕ} {m m' : π → α} (hsrc : ∀ l, i ≤ l → l < i + n → src l ∉ X)
    (h : Set.EqOn m m' Xᶜ) : Set.EqOn (moves src dst i n m) (moves src dst i n m') Xᶜ := by
  induction n generalizing i m m' with
  | zero => exact h
  | succ n ih =>
      rw [moves, moves]
      refine ih (fun l hil hl => hsrc l (by omega) (by omega)) ?_
      exact move_eqOn (hsrc i le_rfl (by omega)) h

/-- **A word copied ahead of its turn** makes no difference when no earlier word is taken from its
place. -/
theorem moves_move {i n k : ℕ} (hik : i ≤ k) (hk : k < i + n)
    (hsrc : ∀ l, i ≤ l → l < k → src l ≠ dst k) (m : π → α) :
    moves src dst i n (move src dst k m) = moves src dst i n m := by
  rcases eq_or_ne (src k) (dst k) with heq | hne
  · rw [move_of_eq heq]
  obtain ⟨a, rfl⟩ := Nat.exists_eq_add_of_le hik
  obtain ⟨b, rfl⟩ := Nat.exists_eq_add_of_lt (show a < n by omega)
  have hoff : Set.EqOn (move src dst (i + a) m) m {dst (i + a)}ᶜ :=
    fun p hp => move_of_ne hp m
  have hbefore : Set.EqOn (moves src dst i a (move src dst (i + a) m)) (moves src dst i a m)
      {dst (i + a)}ᶜ :=
    moves_eqOn (fun l hil hl => by simpa using hsrc l hil hl) hoff
  have hword : move src dst (i + a) (moves src dst i a (move src dst (i + a) m))
      = move src dst (i + a) (moves src dst i a m) := by
    funext p
    rcases eq_or_ne p (dst (i + a)) with rfl | hp
    · rw [move_self, move_self, hbefore (by simpa using hne)]
    · rw [move_of_ne hp, move_of_ne hp, hbefore (by simpa using hp)]
  rw [Nat.add_assoc, moves_add, moves_add i a, Nat.add_comm b 1, moves_add _ 1, moves_add _ 1]
  simp only [moves, hword]

end WordCopy
