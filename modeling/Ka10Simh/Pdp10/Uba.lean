import Ka10Simh.Lib.Fields

/-!
The UNIBUS adapters of the KS10, by which the devices get to the memory: bytes, words of 16 bits and words of 36 bits.

* `Uba`, `ubaWrite`: the registers of the adapters, and how they are written.
* `readNpr`, `writeNprByte`, …: the routines of the devices.
* `Picture`: all routines see one memory.
* `Fits`: the page of an address is in the memory.
* `dma_spec`: the picture holds everywhere, and the memory is not left exactly when the page fits.
-/

namespace Ka10Simh.Pdp10.Unibus

open Word Fields

/-! ### The source -/

/-- `PAGE_MASK`, `MAP_VALID`, `UBST_NED`, `UBST_TIM`. -/
abbrev pageMask : ℕ := 0o3777000
abbrev mapValid : ℕ := 0o1000000000
abbrev ubstNed : ℕ := 0o40000
abbrev ubstTim : ℕ := 0o400000

/-- The adapters, and `uba_device`. -/
inductive Adapter
  | uba1 | uba3
  deriving DecidableEq

def ubaDevice (ctl : ℕ) : Option Adapter := if ctl = 1 then some .uba1 else if ctl = 3 then some .uba3 else none

/-- The registers of the adapters, with the memory, whose size is set in units of 16K words. -/
structure Uba where
  map : Adapter → ℕ → ℕ
  status : Adapter → ℕ
  mem : ℕ → ℕ
  memsize : ℕ
  memsize_dvd : 16 * 1024 ∣ memsize

namespace Uba

/-- A bit of a status, an entry of a map, and a word of the memory. -/
def raise (u : Adapter) (e : ℕ) (s : Uba) : Uba := { s with status := Function.update s.status u (s.status u ||| e) }
def setMap (u : Adapter) (i w : ℕ) (s : Uba) : Uba := { s with map := Function.update s.map u (Function.update (s.map u) i w) }
def store (i w : ℕ) (s : Uba) : Uba := { s with mem := Function.update s.mem i w }

end Uba

/-- What is written, where it is a byte. -/
def byteData (byte : Bool) (addr data : ℕ) : ℕ :=
  if byte = true then if addr &&& 1 ≠ 0 then (data &&& 0o377) <<< 8 else data &&& 0o377 else data

/-- An entry of the map. -/
def mapEntry (data : ℕ) : ℕ := (data &&& 0o3777) <<< 9 ||| (data &&& 0o740000) <<< 13

/-- `uba_write`, with whether it fails. The devices are found by `device`, and `reset` resets them. -/
def ubaWrite (device : ℕ → ℕ → ℕ → Bool → Uba → Bool × Uba) (reset : ℕ → Uba → Uba) (addr ctl data : ℕ) (byte : Bool) (s : Uba) :
    Bool × Uba :=
  if ctl = 0 ∧ addr = 0o100000 then (true, s)
  else
    match ubaDevice ctl with
    | none => (true, s)
    | some u =>
        let data := byteData byte addr data
        if addr &&& 0o777400 = 0o763000 then
          if addr &&& 0o100 = 0 then (false, s.setMap u (addr &&& 0o77) (mapEntry data))
          else if addr &&& 0o77 = 0 then
            let s := { s with status := Function.update s.status u (s.status u &&& ((0o74000 ^^^ data) % 2 ^ 32 ||| 0o746000)) }
            let s := if data &&& 0o100 ≠ 0 then reset ctl { s with status := Function.update s.status u 0 } else s
            (false, s.raise u (0o277 &&& data))
          else if addr &&& 0o77 = 1 then (false, s)
          else (true, s.raise u (ubstTim ||| ubstNed))
        else
          let (failed, s) := device ctl addr (data &&& 0o177777) byte s
          if failed = true then (true, s.raise u (ubstTim ||| ubstNed)) else (false, s)

/-- The index that all routines form. -/
def target (u : Adapter) (addr : ℕ) (s : Uba) : Option ℕ :=
  let map := s.map u (0o77 &&& addr >>> 11)
  if addr &&& 0o400000 ≠ 0 then none
  else if map &&& mapValid = 0 then none
  else some (map &&& pageMask ||| (addr >>> 2 &&& 0o777))

/-- `uba_read_npr`, `uba_write_npr`. -/
def readNpr (u : Adapter) (addr : ℕ) (s : Uba) : Option ℕ :=
  match target u addr s with
  | none => none
  | some i => some (s.mem i)
def writeNpr (u : Adapter) (addr data : ℕ) (s : Uba) : Bool × Uba :=
  match target u addr s with
  | none => (false, s)
  | some i => (true, s.store i data)

/-- `uba_read_npr_byte`, `uba_write_npr_byte`. -/
def readNprByte (u : Adapter) (addr : ℕ) (s : Uba) : Option ℕ :=
  match target u addr s with
  | none => none
  | some i =>
      let wd := s.mem i
      let wd := if addr &&& 2 = 0 then wd >>> 18 else wd
      let wd := if addr &&& 1 ≠ 0 then wd >>> 8 else wd
      some (wd &&& 0o377)
def writeNprByte (u : Adapter) (addr data : ℕ) (s : Uba) : Bool × Uba :=
  match target u addr s with
  | none => (false, s)
  | some i =>
      let (buf, msk) := (data &&& 0o377, 0o377)
      let (buf, msk) := if addr &&& 2 = 0 then (buf <<< 18, msk <<< 18) else (buf, msk)
      let (buf, msk) := if addr &&& 1 ≠ 0 then (buf <<< 8, msk <<< 8) else (buf, msk)
      (true, s.store i (bic (s.mem i) msk ||| buf))

/-- `uba_read_npr_word`, `uba_write_npr_word`. -/
def readNprWord (u : Adapter) (addr : ℕ) (s : Uba) : Option ℕ :=
  match target u addr s with
  | none => none
  | some i =>
      let wd := s.mem i
      let wd := if addr &&& 2 = 0 then wd >>> 18 else wd
      some (wd &&& 0o177777)
def writeNprWord (u : Adapter) (addr data : ℕ) (s : Uba) : Bool × Uba :=
  match target u addr s with
  | none => (false, s)
  | some i =>
      let (buf, msk) := (data &&& 0o177777, 0o177777)
      let (buf, msk) := if addr &&& 2 = 0 then (buf <<< 18, msk <<< 18) else (buf, msk)
      (true, s.store i (bic (s.mem i) msk ||| buf))

/-! ### The picture -/

/-- How far up a half of a word is, and a byte. -/
def half (addr : ℕ) : ℕ := if addr &&& 2 = 0 then 18 else 0
def lane (addr : ℕ) : ℕ := half addr + if addr &&& 1 ≠ 0 then 8 else 0

/-- An address is not mapped: its top bit is set, or its page is not valid. -/
def Closed (u : Adapter) (addr : ℕ) (s : Uba) : Prop := addr.testBit 17 = true ∨ (s.map u (addr / 2 ^ 11 % 2 ^ 6)).testBit 27 = false

/-- At most these bits of one word are changed. -/
def Changes (s t : Uba) (i pos size : ℕ) : Prop :=
  ∃ w, t = s.store i w ∧ ∀ k, ¬ (pos ≤ k ∧ k < pos + size) → w.testBit k = (s.mem i).testBit k

/-- What the routines do at an address of an adapter. -/
structure Picture (u : Adapter) (addr : ℕ) (s : Uba) : Prop where
  closed : Closed u addr s ↔ target u addr s = none
  nothing : Closed u addr s →
    (readNpr u addr s = none ∧ readNprByte u addr s = none ∧ readNprWord u addr s = none) ∧
      ∀ v, writeNpr u addr v s = (false, s) ∧ writeNprByte u addr v s = (false, s) ∧ writeNprWord u addr v s = (false, s)
  fields : readNprByte u addr s = (readNpr u addr s).map (extract (lane addr) 8) ∧
    readNprWord u addr s = (readNpr u addr s).map (extract (half addr) 16)
  full : ¬ Closed u addr s → ∀ v, readNpr u addr (writeNpr u addr v s).2 = some v
  byte : ¬ Closed u addr s → ∀ v < 2 ^ 8, readNprByte u addr (writeNprByte u addr v s).2 = some v
  word : ¬ Closed u addr s → ∀ v < 2 ^ 16, readNprWord u addr (writeNprWord u addr v s).2 = some v
  bytes : ¬ Closed u addr s → addr % 2 = 0 → ∀ low < 2 ^ 8, ∀ high < 2 ^ 8,
    readNprWord u addr (writeNprByte u (addr + 1) high (writeNprByte u addr low s).2).2 = some (low + high * 2 ^ 8)
  words : ¬ Closed u addr s → addr % 4 = 0 → ∀ left < 2 ^ 16, ∀ right < 2 ^ 16,
    ∃ w, readNpr u addr (writeNprWord u (addr + 2) right (writeNprWord u addr left s).2).2 = some w ∧
      extract 18 16 w = left ∧ extract 0 16 w = right
  one : ∀ i, target u addr s = some i → ∀ v, (∃ w, (writeNpr u addr v s).2 = s.store i w) ∧
    Changes s (writeNprByte u addr v s).2 i (lane addr) 8 ∧ Changes s (writeNprWord u addr v s).2 i (half addr) 16

/-- The index is in the memory. -/
def InMemory (u : Adapter) (addr : ℕ) (s : Uba) : Prop := ∀ i, target u addr s = some i → i < s.memsize

/-- The page of the map is one of the memory. -/
def Fits (u : Adapter) (addr : ℕ) (s : Uba) : Prop :=
  Closed u addr s ∨ s.map u (addr / 2 ^ 11 % 2 ^ 6) / 2 ^ 9 % 2 ^ 11 < s.memsize / 2 ^ 9

variable {u v : Adapter} {addr i j w : ℕ} {s : Uba}

/-! ### The map -/

lemma map_index (addr : ℕ) : 0o77 &&& addr >>> 11 = addr / 2 ^ 11 % 2 ^ 6 := by
  rw [Nat.and_comm, Nat.shiftRight_eq_div_pow]
  exact Nat.and_two_pow_sub_one_eq_mod _ 6

/-- The page of an entry, and the word in the page. -/
lemma page_or (m addr : ℕ) : m &&& pageMask ||| (addr >>> 2 &&& 0o777) = m / 2 ^ 9 % 2 ^ 11 * 2 ^ 9 + addr / 4 % 2 ^ 9 := by
  have hpage : m &&& pageMask = (m / 2 ^ 9 % 2 ^ 11) <<< 9 := by
    rw [show pageMask = (2 ^ 11 - 1) <<< 9 from rfl, and_shiftLeft, Nat.and_two_pow_sub_one_eq_mod, Nat.shiftRight_eq_div_pow]
  have hword : addr >>> 2 &&& 0o777 = addr / 4 % 2 ^ 9 := by
    rw [Nat.shiftRight_eq_div_pow]
    exact Nat.and_two_pow_sub_one_eq_mod _ 9
  rw [hpage, hword, shiftLeft_or_eq (Nat.mod_lt _ (by norm_num))]

lemma target_closed (h : Closed u addr s) : target u addr s = none := by
  rw [target, map_index]
  rcases h with htop | hvalid
  · exact if_pos (and_two_pow_ne_zero.mpr htop)
  · rw [if_pos (show s.map u (addr / 2 ^ 11 % 2 ^ 6) &&& mapValid = 0 from and_two_pow_eq_zero.mpr hvalid), ite_self]

lemma target_mapped (h : ¬ Closed u addr s) :
    target u addr s = some (s.map u (addr / 2 ^ 11 % 2 ^ 6) / 2 ^ 9 % 2 ^ 11 * 2 ^ 9 + addr / 4 % 2 ^ 9) := by
  obtain ⟨htop, hvalid⟩ := not_or.mp h
  rw [target, map_index]
  rw [if_neg (show ¬ addr &&& 0o400000 ≠ 0 from fun hno ↦ htop (and_two_pow_ne_zero.mp hno)),
    if_neg (show ¬ s.map u (addr / 2 ^ 11 % 2 ^ 6) &&& mapValid = 0 from fun hno ↦ hvalid (and_two_pow_eq_zero.mp hno)), page_or]

lemma closed_iff : Closed u addr s ↔ target u addr s = none := by
  refine ⟨target_closed, fun hnone ↦ ?_⟩
  by_contra hopen
  rw [target_mapped hopen] at hnone
  exact absurd hnone (Option.some_ne_none _)

/-- **The memory is left exactly when the page of the map is not in it.** -/
theorem inMemory_iff : InMemory u addr s ↔ Fits u addr s := by
  obtain ⟨k, hk⟩ := s.memsize_dvd
  rw [InMemory, Fits]
  by_cases hclosed : Closed u addr s
  · rw [target_closed hclosed]
    exact iff_of_true (fun i hi ↦ absurd hi.symm (Option.some_ne_none i)) (Or.inl hclosed)
  · rw [target_mapped hclosed, or_iff_right hclosed]
    constructor
    · intro h
      have hin := h _ rfl
      lia
    · intro h i hi
      rw [Option.some.injEq] at hi
      lia

/-! ### The words of the memory -/

lemma target_store (u : Adapter) (addr : ℕ) (i w : ℕ) (s : Uba) : target u addr (s.store i w) = target u addr s := rfl

lemma store_mem (i w : ℕ) (s : Uba) : (s.store i w).mem i = w := by
  rw [Uba.store]
  exact Function.update_self i w s.mem

lemma store_store (i v w : ℕ) (s : Uba) : (s.store i v).store i w = s.store i w := by
  rw [Uba.store, Uba.store, Uba.store, Function.update_idem]

/-- The routines at an address that is mapped, as fields of the word. -/
lemma readNpr_eq (h : target u addr s = some i) : readNpr u addr s = some (s.mem i) := by rw [readNpr, h]

lemma writeNpr_eq (h : target u addr s = some i) (v : ℕ) : writeNpr u addr v s = (true, s.store i v) := by rw [writeNpr, h]

lemma readNprWord_eq (h : target u addr s = some i) : readNprWord u addr s = some (extract (half addr) 16 (s.mem i)) := by
  rw [readNprWord, h, half]
  split_ifs <;> rfl

lemma readNprByte_eq (h : target u addr s = some i) : readNprByte u addr s = some (extract (lane addr) 8 (s.mem i)) := by
  rw [readNprByte, h, lane, half]
  dsimp only
  split_ifs <;> rfl

/-- The bytes and the words are fields of the words of 36 bits. -/
lemma read_fields (u : Adapter) (addr : ℕ) (s : Uba) :
    readNprByte u addr s = (readNpr u addr s).map (extract (lane addr) 8) ∧
      readNprWord u addr s = (readNpr u addr s).map (extract (half addr) 16) := by
  cases h : target u addr s with
  | none =>
      rw [readNprByte, readNprWord, readNpr, h]
      exact ⟨rfl, rfl⟩
  | some i =>
      rw [readNprByte_eq h, readNprWord_eq h, readNpr_eq h]
      exact ⟨rfl, rfl⟩

/-- What is read from a word that was written. -/
lemma readNpr_store (h : target u addr s = some i) (w : ℕ) : readNpr u addr (s.store i w) = some w := by
  rw [readNpr_eq ((target_store u addr i w s).trans h), store_mem]

lemma readNprWord_store (h : target u addr s = some i) (w : ℕ) :
    readNprWord u addr (s.store i w) = some (extract (half addr) 16 w) := by
  rw [readNprWord_eq ((target_store u addr i w s).trans h), store_mem]

lemma readNprByte_store (h : target u addr s = some i) (w : ℕ) :
    readNprByte u addr (s.store i w) = some (extract (lane addr) 8 w) := by
  rw [readNprByte_eq ((target_store u addr i w s).trans h), store_mem]

lemma writeNprWord_eq (h : target u addr s = some i) (v : ℕ) :
    writeNprWord u addr v s = (true, s.store i (deposit (half addr) 16 v (s.mem i))) := by
  rw [writeNprWord, h, half]
  dsimp only
  split_ifs
  · rw [deposit, mask, ← Nat.shiftLeft_and_distrib]
    rfl
  · rfl

lemma writeNprByte_eq (h : target u addr s = some i) (v : ℕ) :
    writeNprByte u addr v s = (true, s.store i (deposit (lane addr) 8 v (s.mem i))) := by
  rw [writeNprByte, h, lane, half, deposit, mask, ← Nat.shiftLeft_and_distrib]
  dsimp only
  by_cases hhalf : addr &&& 2 = 0
  · by_cases hodd : addr &&& 1 ≠ 0
    · rw [if_pos hhalf, if_pos hodd, if_pos hhalf, if_pos hodd, Nat.shiftLeft_add, Nat.shiftLeft_add]
      rfl
    · rw [if_pos hhalf, if_neg hodd, if_pos hhalf, if_neg hodd]
      rfl
  · by_cases hodd : addr &&& 1 ≠ 0
    · rw [if_neg hhalf, if_pos hodd, if_neg hhalf, if_pos hodd, Nat.zero_add]
      rfl
    · rw [if_neg hhalf, if_neg hodd, if_neg hhalf, if_neg hodd]
      rfl

/-- Addresses in the same word of the memory. -/
lemma target_congr {addr' : ℕ} (h : addr' / 4 = addr / 4) (u : Adapter) (s : Uba) : target u addr' s = target u addr s := by
  have hindex : addr' / 2 ^ 11 % 2 ^ 6 = addr / 2 ^ 11 % 2 ^ 6 := by omega
  have hclosed : Closed u addr' s ↔ Closed u addr s := by
    have htop : addr'.testBit 17 = addr.testBit 17 := by
      rw [Nat.testBit_eq_decide_div_mod_eq, Nat.testBit_eq_decide_div_mod_eq, show addr' / 2 ^ 17 = addr / 2 ^ 17 by lia]
    rw [Closed, Closed, hindex, htop]
  by_cases ho : Closed u addr s
  · rw [target_closed ho, target_closed (hclosed.mpr ho)]
  · rw [target_mapped ho, target_mapped (hclosed.not.mpr ho), hindex, h]

lemma half_eq (addr : ℕ) : half addr = if addr / 2 % 2 = 0 then 18 else 0 := by
  have hbit : addr &&& 2 = 0 ↔ addr / 2 % 2 = 0 := by
    have hone := and_pow_ne_zero addr 1
    rw [pow_one] at hone
    rw [← not_iff_not, ← ne_eq, hone]
    lia
  rw [half]
  exact if_congr hbit rfl rfl

lemma lane_eq (addr : ℕ) : lane addr = half addr + addr % 2 * 8 := by
  rw [lane, Nat.and_one_is_mod]
  split_ifs <;> lia

/-! ### All routines -/

lemma picture_closed (h : Closed u addr s) :
    (readNpr u addr s = none ∧ readNprByte u addr s = none ∧ readNprWord u addr s = none) ∧
      ∀ v, writeNpr u addr v s = (false, s) ∧ writeNprByte u addr v s = (false, s) ∧ writeNprWord u addr v s = (false, s) := by
  have hnone := target_closed h
  refine ⟨⟨?_, ?_, ?_⟩, fun v ↦ ⟨?_, ?_, ?_⟩⟩
  · rw [readNpr, hnone]
  · rw [readNprByte, hnone]
  · rw [readNprWord, hnone]
  · rw [writeNpr, hnone]
  · rw [writeNprByte, hnone]
  · rw [writeNprWord, hnone]

/-- Two bytes that are written make a word, the low byte first. -/
lemma picture_bytes (h : target u addr s = some i) (heven : addr % 2 = 0) {low high : ℕ} (hlow : low < 2 ^ 8) (hhigh : high < 2 ^ 8) :
    readNprWord u addr (writeNprByte u (addr + 1) high (writeNprByte u addr low s).2).2 = some (low + high * 2 ^ 8) := by
  have hnext : target u (addr + 1) (s.store i (deposit (half addr) 8 low (s.mem i))) = some i :=
    (target_congr (by lia) u _).trans h
  have hlane : lane addr = half addr := by rw [lane_eq, heven, Nat.zero_mul, Nat.add_zero]
  have hlane' : lane (addr + 1) = half addr + 8 := by
    rw [lane_eq, half_eq, half_eq, show (addr + 1) / 2 = addr / 2 by omega, show (addr + 1) % 2 = 1 by lia]
  rw [writeNprByte_eq h, hlane, writeNprByte_eq hnext, store_mem, hlane', store_store]
  dsimp only
  rw [readNprWord_store h, Option.some.injEq]
  refine Nat.eq_of_testBit_eq fun k ↦ ?_
  rw [testBit_extract, testBit_deposit, testBit_deposit, add_comm low, Nat.mul_comm high, Nat.testBit_two_pow_mul_add _ hlow]
  by_cases hk : k < 8
  · rw [if_neg (by omega), if_pos (by lia), if_pos hk, Nat.add_sub_cancel_left, decide_eq_true (by omega), Bool.and_true]
  · rw [if_neg hk]
    by_cases hk' : k < 16
    · rw [if_pos (by omega), decide_eq_true hk', Bool.and_true, show half addr + k - (half addr + 8) = k - 8 by lia]
    · rw [decide_eq_false hk', Bool.and_false, Nat.testBit_lt_two_pow (hhigh.trans_le (Nat.pow_le_pow_right (by norm_num) (by omega)))]

/-- Two words that are written are the halves of the word of 36 bits. -/
lemma picture_words (h : target u addr s = some i) (hword : addr % 4 = 0) {left right : ℕ} (hleft : left < 2 ^ 16)
    (hright : right < 2 ^ 16) : ∃ w, readNpr u addr (writeNprWord u (addr + 2) right (writeNprWord u addr left s).2).2 = some w ∧
      extract 18 16 w = left ∧ extract 0 16 w = right := by
  have hhalf : half addr = 18 := by rw [half_eq, if_pos (by lia)]
  have hhalf' : half (addr + 2) = 0 := by rw [half_eq, if_neg (by omega)]
  have hnext : target u (addr + 2) (s.store i (deposit 18 16 left (s.mem i))) = some i := (target_congr (by omega) u _).trans h
  rw [writeNprWord_eq h, hhalf, writeNprWord_eq hnext, store_mem, hhalf', store_store]
  dsimp only
  rw [readNpr_store h]
  refine ⟨_, rfl, ?_, ?_⟩
  · rw [extract_deposit_of_apart (by omega), extract_deposit, Nat.mod_eq_of_lt hleft]
  · rw [extract_deposit, Nat.mod_eq_of_lt hright]

/-- A field is all that a deposit changes. -/
lemma changes_deposit (i pos size v : ℕ) (s : Uba) : Changes s (s.store i (deposit pos size v (s.mem i))) i pos size := by
  refine ⟨_, rfl, fun k hk ↦ ?_⟩
  rw [testBit_deposit, if_neg hk]

/-- **All routines see one memory.** -/
theorem picture (u : Adapter) (addr : ℕ) (s : Uba) : Picture u addr s := by
  have hopen (h : ¬ Closed u addr s) : ∃ i, target u addr s = some i := ⟨_, target_mapped h⟩
  refine ⟨closed_iff, picture_closed, read_fields u addr s, fun h v ↦ ?_, fun h v hv ↦ ?_, fun h v hv ↦ ?_, fun h heven low hlow high hhigh ↦ ?_,
    fun h hword left hleft right hright ↦ ?_, fun i hi v ↦ ⟨⟨v, ?_⟩, ?_, ?_⟩⟩
  · obtain ⟨i, hi⟩ := hopen h
    rw [writeNpr_eq hi]
    exact readNpr_store hi v
  · obtain ⟨i, hi⟩ := hopen h
    rw [writeNprByte_eq hi]
    dsimp only
    rw [readNprByte_store hi, extract_deposit, Nat.mod_eq_of_lt hv]
  · obtain ⟨i, hi⟩ := hopen h
    rw [writeNprWord_eq hi]
    dsimp only
    rw [readNprWord_store hi, extract_deposit, Nat.mod_eq_of_lt hv]
  · obtain ⟨i, hi⟩ := hopen h
    exact picture_bytes hi heven hlow hhigh
  · obtain ⟨i, hi⟩ := hopen h
    exact picture_words hi hword hleft hright
  · rw [writeNpr_eq hi]
  · rw [writeNprByte_eq hi]
    exact changes_deposit i _ _ v s
  · rw [writeNprWord_eq hi]
    exact changes_deposit i _ _ v s

/-! ### Maps that are written -/

lemma mapEntry_eq (d : ℕ) : mapEntry d = d % 2 ^ 11 * 2 ^ 9 + d / 2 ^ 14 % 2 ^ 4 * 2 ^ 27 := by
  have hpage : d &&& 0o3777 = d % 2 ^ 11 := Nat.and_two_pow_sub_one_eq_mod d 11
  have hflags : d &&& 0o740000 = (d / 2 ^ 14 % 2 ^ 4) <<< 14 := by
    rw [show 0o740000 = (2 ^ 4 - 1) <<< 14 from rfl, and_shiftLeft, Nat.and_two_pow_sub_one_eq_mod, Nat.shiftRight_eq_div_pow]
  have hlow : (d % 2 ^ 11) <<< 9 < 2 ^ 27 := by
    rw [Nat.shiftLeft_eq]
    omega
  rw [mapEntry, hpage, hflags, ← Nat.shiftLeft_add, or_shiftLeft_eq hlow, Nat.shiftLeft_eq]

/-- The valid bit of an entry and its page, from the data. -/
lemma mapEntry_parts (d : ℕ) : (mapEntry d).testBit 27 = d.testBit 14 ∧ mapEntry d / 2 ^ 9 % 2 ^ 11 = d % 2 ^ 11 := by
  rw [mapEntry_eq, Nat.testBit_eq_decide_div_mod_eq, Nat.testBit_eq_decide_div_mod_eq, decide_eq_decide]
  lia

lemma ubaWrite_map {device : ℕ → ℕ → ℕ → Bool → Uba → Bool × Uba} {reset : ℕ → Uba → Uba} {a ctl : ℕ} (hctl : ubaDevice ctl = some u)
    (ha : a &&& 0o777400 = 0o763000) (hmap : a &&& 0o100 = 0) (data : ℕ) (byte : Bool) (s : Uba) :
    ubaWrite device reset a ctl data byte s = (false, s.setMap u (a &&& 0o77) (mapEntry (byteData byte a data))) := by
  have hzero : ¬ (ctl = 0 ∧ a = 0o100000) := by
    rintro ⟨rfl, -⟩
    exact Option.some_ne_none u hctl.symm
  rw [ubaWrite, if_neg hzero, hctl]
  dsimp only
  rw [if_pos ha, if_pos hmap]

/-- **The transfers of the devices.** An entry of the map has its valid bit and its page from the data; then all routines see one
memory, which they do not leave exactly when the page of the entry is in it. -/
theorem dma_spec (device : ℕ → ℕ → ℕ → Bool → Uba → Bool × Uba) (reset : ℕ → Uba → Uba) (u : Adapter) (s : Uba) :
    (∀ ctl, ubaDevice ctl = some u → ∀ a data byte, a &&& 0o777400 = 0o763000 → a &&& 0o100 = 0 →
      ∃ w, ubaWrite device reset a ctl data byte s = (false, s.setMap u (a &&& 0o77) w) ∧
        w.testBit 27 = (byteData byte a data).testBit 14 ∧ w / 2 ^ 9 % 2 ^ 11 = byteData byte a data % 2 ^ 11) ∧
    ∀ addr, Picture u addr s ∧ (InMemory u addr s ↔ Fits u addr s) :=
  ⟨fun _ hctl _ data byte ha hmap ↦ ⟨_, ubaWrite_map hctl ha hmap data byte s, mapEntry_parts _⟩,
    fun addr ↦ ⟨picture u addr s, inMemory_iff⟩⟩

/-- The sizes that are set. -/
lemma memsize_default : 16 * 1024 ∣ 512 * 1024 := ⟨32, rfl⟩

/-- Adapters that no map has been written to, and a memory of 512K. -/
def fresh : Uba where
  map := fun _ _ ↦ 0
  status := fun _ ↦ 0
  mem := fun _ ↦ 0
  memsize := 512 * 1024
  memsize_dvd := memsize_default

/-- The last page that a map can have is not in that memory. -/
theorem memory_left :
    ¬ InMemory .uba1 0 (ubaWrite (fun _ _ _ _ s ↦ (true, s)) (fun _ s ↦ s) 0o763000 1 0o43777 false fresh).2 := fun hin ↦
  absurd (hin (0o3777 * 2 ^ 9) (by decide)) (by decide)

end Ka10Simh.Pdp10.Unibus
