import Mathlib.Data.Finset.Basic
import Ka10Simh.Lib.Bits

/-!
Bytes of the storage, as instructions read and write them.

`ReadByte` and `WriteByte` report an access exception or reach the byte at the real address of an address.
Here the real addresses are given, and the accesses at which there is an exception.

* `readByte`, `writeByte`: the two.
* `Fault`: what they report.
-/

namespace Ka10Simh.Ibm360

open Word

/-- A read or a write with an access exception, by its address. -/
inductive Fault
  | read (addr : ℕ)
  | write (addr : ℕ)
  deriving DecidableEq

variable (loc : ℕ → ℕ) (F : Finset Fault) (mem : ℕ → ℕ)

/-- `ReadByte`. -/
def readByte (addr : ℕ) : Except Fault ℕ :=
  if .read addr ∈ F then .error (.read addr)
  else .ok (mem (loc addr >>> 2) >>> (8 * (3 - (addr &&& 3))) &&& 0xff)

/-- `WriteByte`. -/
def writeByte (addr data : ℕ) : Except Fault (ℕ → ℕ) :=
  if .write addr ∈ F then .error (.write addr)
  else
    let pa := loc addr
    let offset := 8 * (3 - (pa &&& 3))
    .ok (Function.update mem (pa >>> 2) (bic (mem (pa >>> 2)) (0xff <<< offset) ||| (data &&& 0xff) <<< offset))

/-- An access is reported that has an exception, and the others are those without exceptions. -/
lemma readByte_cases (loc : ℕ → ℕ) (F : Finset Fault) (mem : ℕ → ℕ) (addr : ℕ) :
    readByte loc F mem addr = readByte loc ∅ mem addr ∨ ∃ f ∈ F, readByte loc F mem addr = .error f := by
  rw [readByte, readByte, if_neg (Finset.notMem_empty _)]
  split_ifs with hmem
  · exact .inr ⟨_, hmem, rfl⟩
  · exact .inl rfl

lemma writeByte_cases (loc : ℕ → ℕ) (F : Finset Fault) (mem : ℕ → ℕ) (addr data : ℕ) :
    writeByte loc F mem addr data = writeByte loc ∅ mem addr data
      ∨ ∃ f ∈ F, writeByte loc F mem addr data = .error f := by
  rw [writeByte, writeByte, if_neg (Finset.notMem_empty _)]
  split_ifs with hmem
  · exact .inr ⟨_, hmem, rfl⟩
  · exact .inl rfl

lemma readByte_free (loc : ℕ → ℕ) (mem : ℕ → ℕ) (addr : ℕ) : ∃ w, readByte loc ∅ mem addr = .ok w := by
  rw [readByte, if_neg (Finset.notMem_empty _)]
  exact ⟨_, rfl⟩

lemma writeByte_free (loc : ℕ → ℕ) (mem : ℕ → ℕ) (addr data : ℕ) : ∃ m, writeByte loc ∅ mem addr data = .ok m := by
  rw [writeByte, if_neg (Finset.notMem_empty _)]
  exact ⟨_, rfl⟩

end Ka10Simh.Ibm360
