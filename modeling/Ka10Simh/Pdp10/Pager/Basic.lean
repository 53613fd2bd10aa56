import Ka10Simh.Pdp10.Config
import Ka10Simh.Pdp10.Word

/-!
What the pagers of the different processors share: the two translation buffers, and the accesses
that are looked up in them.
-/

namespace Ka10Simh.Pdp10

/-- The translation buffers `e_tlb` and `u_tlb`. -/
inductive Table
  | exec | user
  deriving DecidableEq, Repr

/-- The number of entries. -/
def Table.size : Table → ℕ
  | .exec => 512
  | .user => 546

/-- `uf ? u_tlb : e_tlb`. -/
def Table.of (uf : Bool) : Table := if uf then .user else .exec

/-- What an entry of a translation buffer is subscripted for: to look a page up, to fill it, and
to invalidate it after an access error. -/
inductive Use
  | look | fill | clear
  deriving DecidableEq, Repr

/-- A subscript formed into a translation buffer. -/
structure Ref where
  use : Use
  tab : Table
  idx : ℕ
  deriving DecidableEq, Repr

/-- An access: the address and the arguments `flag`, `wr`, `cur_context` and `fetch`. -/
structure Access where
  addr : ℕ
  flag : Bool := false
  wr : Bool := false
  curContext : Bool := false
  fetch : Bool := false

/-- What a lookup comes to: a physical address, a fault, or a walk that has not ended. -/
inductive Looked
  | loc (addr : ℕ)
  | fault
  | running
  deriving DecidableEq, Repr

namespace Access

/-- `(RMASK & addr) >> 9`. -/
def page (a : Access) : ℕ := (rmask &&& a.addr) >>> 9

lemma page_lt (a : Access) : a.page < 0o1000 := by
  have hle : rmask &&& a.addr ≤ 0o777777 := Nat.and_le_left
  rw [page, Nat.shiftRight_eq_div_pow]
  omega

end Access

end Ka10Simh.Pdp10
