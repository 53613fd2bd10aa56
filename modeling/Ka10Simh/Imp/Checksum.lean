import Ka10Simh.Lib.OnesComplement

/-!
The checksums of the IMP interface.

* `ipChecksum`: the checksum of a string of bytes; it is zero for a string that has its checksum in it.
* `checksumadjust`: a checksum after some bytes have been replaced.
* `checksumadjust_mod`: the string still has its checksum then.
-/

namespace Ka10Simh.Imp

open OnesComplement

/-- `ip_checksum`. -/
def ipChecksum (l : List UInt8) : ℕ := 0xffff - carry (total l)

/-- An old word taken out of a sum, and a new one added. -/
def subWord (sum old : ℕ) : ℕ := if sum ≤ old then (65536 + sum - old - 1) % 65536 else sum - old
def addWord (sum new : ℕ) : ℕ := if sum + new ≥ 65536 then (sum + new + 1) % 65536 else sum + new

/-- `checksumadjust`. -/
def checksumadjust (chksum : ℕ) (old new : List UInt8) : ℕ :=
  0xffff - (words new).foldl addWord ((words old).foldl subWord (0xffff - chksum))

/-- A string of bytes has its checksum in it when its sum is a multiple of 65535. -/
lemma ipChecksum_eq_zero_iff (l : List UInt8) : ipChecksum l = 0 ↔ total l % 65535 = 0 ∧ total l ≠ 0 := by
  have hlt := carry_lt (total l)
  rw [← carry_eq_max_iff, ipChecksum]
  omega

lemma foldl_subWord {l : List ℕ} (hl : ∀ w ∈ l, w < 65536) {s : ℕ} (hs : s < 65536) :
    l.foldl subWord s < 65536 ∧ (l.foldl subWord s + l.sum) % 65535 = s % 65535 := by
  induction l generalizing s with
  | nil => exact ⟨hs, by rw [List.foldl_nil, List.sum_nil, Nat.add_zero]⟩
  | cons w l ih =>
      have hw := hl w List.mem_cons_self
      have hnext : subWord s w < 65536 ∧ (subWord s w + w) % 65535 = s % 65535 := by
        rw [subWord]
        split_ifs <;> omega
      obtain ⟨hlt, hmod⟩ := ih (fun v hv => hl v (List.mem_cons_of_mem _ hv)) hnext.1
      rw [List.foldl_cons, List.sum_cons]
      exact ⟨hlt, by omega⟩

lemma foldl_addWord {l : List ℕ} (hl : ∀ w ∈ l, w < 65536) {s : ℕ} (hs : s < 65536) :
    l.foldl addWord s < 65536 ∧ l.foldl addWord s % 65535 = (s + l.sum) % 65535 := by
  induction l generalizing s with
  | nil => exact ⟨hs, by rw [List.foldl_nil, List.sum_nil, Nat.add_zero]⟩
  | cons w l ih =>
      have hw := hl w List.mem_cons_self
      have hnext : addWord s w < 65536 ∧ addWord s w % 65535 = (s + w) % 65535 := by
        rw [addWord]
        split_ifs <;> omega
      obtain ⟨hlt, hmod⟩ := ih (fun v hv => hl v (List.mem_cons_of_mem _ hv)) hnext.1
      rw [List.foldl_cons, List.sum_cons]
      exact ⟨hlt, by lia⟩

/-- **Adjusting a checksum**: it makes up for the bytes that have been replaced. -/
theorem checksumadjust_mod {chksum : ℕ} (h : chksum < 65536) (old new : List UInt8) :
    checksumadjust chksum old new < 65536
      ∧ (checksumadjust chksum old new + total new) % 65535 = (chksum + total old) % 65535 := by
  obtain ⟨hlt, hmod⟩ := foldl_subWord (words_lt old) (s := 0xffff - chksum) (by omega)
  obtain ⟨hlt', hmod'⟩ := foldl_addWord (words_lt new) hlt
  rw [checksumadjust, total, total]
  lia

end Ka10Simh.Imp
