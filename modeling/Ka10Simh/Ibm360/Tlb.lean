import Ka10Simh.Lib.DirectMapped
import Ka10Simh.Lib.Reaches
import Ka10Simh.Ibm360.Dat

/-!
The translation buffer of the IBM 360/67 and the System/370.

An entry has a tag, the part of the page number that is not its subscript, and a real page number. Under
these the buffer is a direct mapped one of the tables, as long as the real page number has no bits in the
place of the tag, and the tables are walked with the values the buffer has been filled under.

* `Dat.frames`, `Dat.real`: what the tables say.
* `Dat.buffer_entry`: an entry that is made.
* `Tlb.step`: addresses translated, control registers loaded, the buffer purged, and words stored.
* `Tlb.tlb_hits_right`: in runs of these a hit gives what the tables say.
-/

namespace Ka10Simh.Ibm360

open Word DirectMapped TransSys

/-- The values for pages of 2K or of 4K. -/
structure DatRegs.Sized (r : DatRegs) : Prop where
  page : r.pageShift = 11 ∧ r.pteShift = 3 ∨ r.pageShift = 12 ∧ r.pteShift = 4
  mask : r.pageMask = 2 ^ r.pageShift - 1
  seg_le : r.pageShift ≤ r.segShift

namespace DatRegs

variable {r : DatRegs}

lemma sized_setTable (h : r.Sized) (dest : ℕ) : (r.setTable dest).Sized := ⟨h.page, h.mask, h.seg_le⟩
lemma sized_setIndex (h : r.Sized) : r.setIndex.Sized := ⟨h.page, h.mask, h.seg_le⟩

lemma sized_set (dest : ℕ) (r : DatRegs) : ((r.setPage dest).setSeg dest).Sized := by
  rw [setPage, setSeg]
  constructor
  · split_ifs <;> simp
  · split_ifs <;> rfl
  · split_ifs <;> simp

/-- All settings of the control registers are for one of the two sizes. -/
lemma sized_init (q370 : Bool) (cregs : ℕ → ℕ) (r : DatRegs) : (init q370 cregs r).Sized := by
  rw [init]
  split_ifs
  · exact sized_setIndex (sized_setTable (sized_set _ _) _)
  · exact ⟨.inr ⟨rfl, rfl⟩, rfl, show 12 ≤ 20 by norm_num⟩

lemma sized_lctl (h : r.Sized) (reg1 dest : ℕ) : (r.lctl reg1 dest).Sized := by
  rw [lctl]
  split_ifs
  · exact sized_setIndex (sized_set _ _)
  · exact sized_setTable h _
  · exact h

lemma sized_lmc (h : r.Sized) (reg1 dest : ℕ) : (r.lmc reg1 dest).Sized := by
  rw [lmc]
  split_ifs
  · exact sized_setTable h _
  · exact h

lemma Sized.pageShift_ge (h : r.Sized) : 11 ≤ r.pageShift := by
  have hpage := h.page
  omega

end DatRegs

namespace Dat

variable {d : Dat}

/-! ### What the tables say -/

/-- The real page number of a page: all bits that the page table entry holds. -/
def frames (d : Dat) (p : ℕ) : Option ℕ :=
  match (d.walk (p <<< d.regs.pageShift)).1 with
  | .error _ => none
  | .ok entry => some (entry >>> d.regs.pteShift)

/-- The real address of an address, if it has one. -/
def real (d : Dat) (va : ℕ) : Option ℕ :=
  (d.frames (va / 2 ^ d.regs.pageShift)).bind fun f =>
    let pa := f * 2 ^ d.regs.pageShift + va % 2 ^ d.regs.pageShift
    if pa < d.memSize then some pa else none

/-- The walk depends on the page only. -/
lemma walk_page (h : d.regs.Sized) (va : ℕ) :
    d.walk (va / 2 ^ d.regs.pageShift * 2 ^ d.regs.pageShift) = d.walk va := by
  have hseg : d.seg (va / 2 ^ d.regs.pageShift * 2 ^ d.regs.pageShift) = d.seg va := by
    have hpow : 2 ^ d.regs.segShift
        = 2 ^ d.regs.pageShift * 2 ^ (d.regs.segShift - d.regs.pageShift) := by
      rw [← pow_add, Nat.add_sub_cancel' h.seg_le]
    rw [seg, seg, Nat.shiftRight_eq_div_pow, Nat.shiftRight_eq_div_pow, hpow, ← Nat.div_div_eq_div_mul,
      ← Nat.div_div_eq_div_mul, Nat.mul_div_cancel _ (Nat.two_pow_pos _)]
  have hpage : d.page (va / 2 ^ d.regs.pageShift * 2 ^ d.regs.pageShift) = d.page va := by
    rw [page, page, Nat.shiftRight_eq_div_pow, Nat.shiftRight_eq_div_pow,
      Nat.mul_div_cancel _ (Nat.two_pow_pos _)]
  have hwalkSeg : d.walkSeg (va / 2 ^ d.regs.pageShift * 2 ^ d.regs.pageShift) = d.walkSeg va := by
    rw [walkSeg, walkSeg, segEntryAddr, segEntryAddr, hseg]
  have hwalkPage (entry : ℕ) :
      d.walkPage entry (va / 2 ^ d.regs.pageShift * 2 ^ d.regs.pageShift) = d.walkPage entry va := by
    rw [walkPage, walkPage, pteAddr, pteAddr, hpage]
  rw [walk, walk, hwalkSeg]
  simp only [hwalkPage]

lemma frames_eq (h : d.regs.Sized) (va : ℕ) :
    d.frames (va / 2 ^ d.regs.pageShift) = match (d.walk va).1 with
      | .error _ => none
      | .ok entry => some (entry >>> d.regs.pteShift) := by
  rw [frames, Nat.shiftLeft_eq, walk_page h]

/-! ### The entries -/

/-- What an entry of the buffer says: a page and a real page number. -/
def buffer (tlb : ℕ → ℕ) (i : ℕ) : Option (ℕ × ℕ) :=
  if tlb i &&& tlbValid ≠ 0 then some (tlb i / 2 ^ 12 % 32 * 256 + i, tlb i % 2 ^ 12) else none

lemma slot_eq (d : Dat) (va : ℕ) : d.slot va = va / 2 ^ d.regs.pageShift % 256 := by
  rw [slot, Nat.shiftRight_eq_div_pow]
  exact Nat.and_two_pow_sub_one_eq_mod _ 8

lemma tag_eq (d : Dat) (va : ℕ) : d.tag va = va / 2 ^ d.regs.pageShift / 256 % 32 * 2 ^ 12 := by
  rw [tag, Nat.shiftRight_eq_div_pow, show (0x1f00 : ℕ) = (2 ^ 5 - 1) <<< 8 from rfl, and_shiftLeft,
    Nat.and_two_pow_sub_one_eq_mod, Nat.shiftRight_eq_div_pow, Nat.shiftLeft_eq, Nat.shiftLeft_eq]
  lia

lemma and_tlbSeg (w : ℕ) : w &&& tlbSeg = w / 2 ^ 12 % 32 * 2 ^ 12 := by
  rw [show tlbSeg = (2 ^ 5 - 1) <<< 12 from rfl, and_shiftLeft, Nat.and_two_pow_sub_one_eq_mod,
    Nat.shiftRight_eq_div_pow, Nat.shiftLeft_eq]

lemma and_tlbPhy (w : ℕ) : w &&& tlbPhy = w % 2 ^ 12 := Nat.and_two_pow_sub_one_eq_mod w 12

/-- An address has a page number of 13 bits. -/
lemma page_lt (h : d.regs.Sized) {va : ℕ} (hva : va < 2 ^ 24) :
    va / 2 ^ d.regs.pageShift < 2 ^ 13 := by
  rcases h.page with ⟨hshift, -⟩ | ⟨hshift, -⟩ <;> rw [hshift] <;> omega

/-- A hit is an entry that is found for the page. -/
lemma hit_iff (h : d.regs.Sized) {va : ℕ} (hva : va < 2 ^ 24) :
    d.Hit va ↔ lookup (· % 256) (buffer d.tlb) (va / 2 ^ d.regs.pageShift)
      = some (d.tlb (d.slot va) % 2 ^ 12) := by
  have hlt := page_lt h hva
  have htag : (d.tlb (d.slot va) ^^^ d.tag va) &&& tlbSeg = 0
      ↔ d.tlb (d.slot va) / 2 ^ 12 % 32 = va / 2 ^ d.regs.pageShift / 256 := by
    rw [Nat.and_xor_distrib_right, Nat.xor_eq_zero_iff, and_tlbSeg, and_tlbSeg, tag_eq]
    generalize va / 2 ^ d.regs.pageShift = p at hlt ⊢
    generalize d.tlb (d.slot va) = w
    lia
  rw [Hit, htag, lookup, buffer, ← slot_eq]
  by_cases hvalid : d.tlb (d.slot va) &&& tlbValid ≠ 0
  · rw [if_pos hvalid, Option.bind_some, Option.ite_none_right_eq_some, slot_eq]
    constructor
    · exact fun hboth => ⟨by simp only; omega, rfl⟩
    · exact fun hboth => ⟨by rwa [slot_eq] at hvalid, by have := hboth.1; simp only at this; omega⟩
  · rw [if_neg hvalid]
    exact ⟨fun hboth => absurd hboth.1 hvalid, fun hnone => by cases hnone⟩

lemma buffer_update (tlb : ℕ → ℕ) (i w : ℕ) :
    buffer (Function.update tlb i w) = Function.update (buffer tlb) i (buffer (fun _ => w) i) := by
  funext j
  rcases eq_or_ne j i with rfl | hne
  · rw [Function.update_self, buffer, Function.update_self, buffer]
  · rw [Function.update_of_ne hne, buffer, Function.update_of_ne hne, buffer]

lemma buffer_zero (i : ℕ) : buffer (fun _ => 0) i = none := by
  rw [buffer, Nat.zero_and, if_neg (not_not.mpr rfl)]

/-- **An entry that is made** says what has been found, if the real page number has 12 bits. -/
lemma buffer_entry (h : d.regs.Sized) {va entry : ℕ} (hva : va < 2 ^ 24)
    (hentry : entry >>> d.regs.pteShift < 2 ^ 12) :
    buffer (fun _ => d.tlbEntry entry va) (d.slot va)
        = some (va / 2 ^ d.regs.pageShift, entry >>> d.regs.pteShift)
      ∧ d.tlbEntry entry va % 2 ^ 12 = entry >>> d.regs.pteShift := by
  have hlt := page_lt h hva
  have htag := tag_eq d va
  have hslot := slot_eq d va
  rw [tlbEntry, htag, hslot]
  generalize va / 2 ^ d.regs.pageShift = p at hlt htag hslot ⊢
  generalize entry >>> d.regs.pteShift = f at hentry ⊢
  have hword : f ||| (p / 256 % 32 * 2 ^ 12 ||| tlbValid) = 2 ^ 31 + (p / 256 % 32 * 2 ^ 12 + f) := by
    have hhigh : p / 256 % 32 * 2 ^ 12 ||| tlbValid = 2 ^ 31 + p / 256 % 32 * 2 ^ 12 := by
      rw [Nat.or_comm]
      exact or_eq_add (i := 31) (dvd_refl _) (by omega)
    rw [hhigh, Nat.or_comm, or_eq_add (i := 12) _ hentry, Nat.add_assoc]
    omega
  rw [hword]
  refine ⟨?_, by lia⟩
  have hvalid : (2 ^ 31 + (p / 256 % 32 * 2 ^ 12 + f)) &&& tlbValid ≠ 0 := by
    rw [show tlbValid = 2 ^ 31 from rfl, and_pow_ne_zero]
    lia
  rw [buffer, if_pos hvalid]
  exact congrArg some (Prod.ext (show _ / 2 ^ 12 % 32 * 256 + p % 256 = p by omega)
    (show _ % 2 ^ 12 = f by lia))

/-! ### One translation -/

lemma mask_eq (h : d.regs.Sized) (va : ℕ) : va &&& d.regs.pageMask = va % 2 ^ d.regs.pageShift := by
  rw [h.mask, Nat.and_two_pow_sub_one_eq_mod]

/-- The address that is put together. -/
lemma address_eq (h : d.regs.Sized) (va f : ℕ) :
    (va &&& d.regs.pageMask) ||| f <<< d.regs.pageShift
      = f * 2 ^ d.regs.pageShift + va % 2 ^ d.regs.pageShift := by
  rw [mask_eq h, Nat.or_comm, shiftLeft_or_eq (Nat.mod_lt _ (Nat.two_pow_pos _))]

/-- The walk looks at the words it notes only. -/
lemma walk_congr {m : ℕ → ℕ} {va : ℕ} (h : ∀ a ∈ (d.walk va).2, m (a >>> 2) = d.mem (a >>> 2)) :
    { d with mem := m }.walk va = d.walk va := by
  have hsegs : { d with mem := m }.walkSeg va = d.walkSeg va := rfl
  have hpages (entry : ℕ) : { d with mem := m }.walkPage entry va = d.walkPage entry va := rfl
  have hptes (entry : ℕ) : { d with mem := m }.walkPte entry = d.walkPte entry := rfl
  rw [walk] at h
  rw [walk, walk, hsegs]
  cases hseg : d.walkSeg va with
  | error e => rfl
  | ok a =>
      simp only [hseg] at h
      have ha : m (a >>> 2) = d.mem (a >>> 2) := by
        cases hpage : d.walkPage (d.mem (a >>> 2)) va <;> simp only [hpage] at h
        · exact h a List.mem_cons_self
        · exact h a List.mem_cons_self
      simp only [hpages, ha]
      cases hpage : d.walkPage (d.mem (a >>> 2)) va with
      | error e => rfl
      | ok a' =>
          simp only [hpage] at h
          have ha' : m (a' >>> 2) = d.mem (a' >>> 2) := h a' (by simp)
          simp only [hptes, half, ha']

/-- **A translation** keeps the buffer in agreement with the tables. -/
theorem mapped_coherent (h : d.regs.Sized) {va : ℕ} (hva : va < 2 ^ 24)
    (hpte : ∀ entry, (d.walk va).1 = .ok entry → entry >>> d.regs.pteShift < 2 ^ 12)
    (hd : Coherent d.frames (buffer d.tlb)) :
    ∃ tlb, (d.mapped va).2 = { d with tlb } ∧ Coherent d.frames (buffer tlb) := by
  rw [mapped]
  by_cases hhit : d.Hit va
  · rw [if_pos hhit]
    exact ⟨d.tlb, rfl, hd⟩
  · rw [if_neg hhit]
    set tlb₀ := Function.update d.tlb (d.slot va) 0 with htlb₀
    have hd₀ : Coherent d.frames (buffer tlb₀) := by
      rw [htlb₀, buffer_update, buffer_zero]
      exact hd.update _ fun _ _ hnone => by cases hnone
    have hwalk : ({ d with tlb := tlb₀ } : Dat).walk va = d.walk va := rfl
    simp only [hwalk]
    cases hentry : (d.walk va).1 with
    | error e => exact ⟨tlb₀, rfl, hd₀⟩
    | ok entry =>
        refine ⟨_, rfl, ?_⟩
        obtain ⟨hbuffer, -⟩ := buffer_entry h hva (hpte entry hentry)
        show Coherent d.frames (buffer (Function.update tlb₀ (d.slot va) (d.tlbEntry entry va)))
        rw [buffer_update, hbuffer]
        refine hd₀.update _ fun k v hkv => ?_
        cases hkv
        rw [frames_eq h, hentry]

/-- `TransAddr` is its first part, with a check against the size of the memory. -/
lemma transAddr_fst (d : Dat) (va : ℕ) :
    (d.transAddr va).1 = match (d.mapped (va &&& amask)).1 with
      | .error e => .error (e.irc d.q370)
      | .ok pa => if pa ≥ d.memSize then .error 5 else .ok pa := by
  have hkept : (d.mapped (va &&& amask)).2.q370 = d.q370
      ∧ (d.mapped (va &&& amask)).2.memSize = d.memSize := by
    rw [mapped]
    split
    · exact ⟨rfl, rfl⟩
    · simp only
      split <;> exact ⟨rfl, rfl⟩
  obtain ⟨hq370, hsize⟩ := hkept
  rw [transAddr]
  rcases hmapped : d.mapped (va &&& amask) with ⟨_ | pa, d'⟩ <;> rw [hmapped] at hq370 hsize <;> simp only at *
  · rw [hq370]
  · rw [hsize]
    split_ifs <;> rfl

lemma transAddr_snd (d : Dat) (va : ℕ) : (d.transAddr va).2 = (d.mapped (va &&& amask)).2 := by
  rw [transAddr]
  rcases d.mapped (va &&& amask) with ⟨_ | pa, d'⟩
  · rfl
  · simp only
    split_ifs <;> rfl

/-- What a page found with a real page number of 12 bits is mapped to, by a walk. -/
lemma mapped_walk (h : d.regs.Sized) {va f : ℕ} (hva : va < 2 ^ 24) (hmiss : ¬ d.Hit va) (hf : f < 2 ^ 12)
    (hframe : d.frames (va / 2 ^ d.regs.pageShift) = some f) :
    (d.mapped va).1 = .ok (f * 2 ^ d.regs.pageShift + va % 2 ^ d.regs.pageShift) := by
  rw [frames_eq h] at hframe
  cases hentry : (d.walk va).1 with
  | error e =>
      rw [hentry] at hframe
      cases hframe
  | ok entry =>
      rw [hentry] at hframe
      obtain rfl : entry >>> d.regs.pteShift = f := Option.some.inj hframe
      obtain ⟨-, hphy⟩ := buffer_entry h hva hf
      have hwalk (tlb : ℕ → ℕ) : ({ d with tlb } : Dat).walk va = d.walk va := rfl
      have hmade (tlb : ℕ → ℕ) : ({ d with tlb } : Dat).tlbEntry entry va = d.tlbEntry entry va := rfl
      have hlt : entry >>> d.regs.pteShift * 2 ^ d.regs.pageShift + va % 2 ^ d.regs.pageShift < 2 ^ 24 := by
        generalize entry >>> d.regs.pteShift = f at hf
        rcases h.page with ⟨hshift, -⟩ | ⟨hshift, -⟩ <;> rw [hshift] <;> lia
      rw [mapped, if_neg hmiss]
      simp only [hwalk, hentry, hmade]
      rw [and_tlbPhy, hphy, address_eq h, show amask = 2 ^ 24 - 1 from rfl, Nat.and_two_pow_sub_one_eq_mod,
        Nat.mod_eq_of_lt hlt]

/-- **A hit** gives what a walk gives, and what the tables say. -/
theorem transAddr_hit (h : d.regs.Sized) {va : ℕ} (hd : Coherent d.frames (buffer d.tlb))
    (hhit : d.Hit (va &&& amask)) :
    (d.transAddr va).1 = ({ d with tlb := fun _ => 0 }.transAddr va).1
      ∧ ∀ pa, (d.transAddr va).1 = .ok pa ↔ d.real (va &&& amask) = some pa := by
  have hva : va &&& amask < 2 ^ 24 := Nat.and_lt_two_pow _ (by norm_num)
  have hframe := hd.lookup_eq ((hit_iff h hva).mp hhit)
  have hmapped : (d.mapped (va &&& amask)).1 = .ok (d.tlb (d.slot (va &&& amask)) % 2 ^ 12
      * 2 ^ d.regs.pageShift + (va &&& amask) % 2 ^ d.regs.pageShift) := by
    rw [mapped, if_pos hhit, and_tlbPhy, address_eq h]
  have hmiss : ¬ ({ d with tlb := fun _ => 0 } : Dat).Hit (va &&& amask) := fun hno => hno.1 (Nat.zero_and _)
  have hwalk := mapped_walk (d := { d with tlb := fun _ => 0 }) h hva hmiss
    (Nat.mod_lt _ (Nat.two_pow_pos _)) hframe
  constructor
  · rw [transAddr_fst, transAddr_fst, hmapped, hwalk]
  · intro pa
    rw [transAddr_fst, hmapped, real, hframe]
    simp only [Option.bind_some, ge_iff_le, ← Nat.not_lt, ite_not]
    split_ifs <;> simp

end Dat

/-! ### Runs -/

/-- The machine with its control registers, the flag `temp` of LCTL, and the values that were in force when
the buffer was last purged. -/
structure Tlb where
  dat : Dat
  cregs : ℕ → ℕ
  temp : Bool
  purged : DatRegs

/-- An address translated, a control register loaded by LCTL or LMC, the beginning and the end of LCTL, PTLB,
the simulator started again, and words stored, by programs or by interruptions. -/
inductive TlbEvent
  | trans (va : ℕ)
  | lctlStart
  | lctl (reg1 dest : ℕ)
  | lctlEnd
  | lmc (reg reg1 dest : ℕ)
  | ptlb
  | resume
  | store (mem : ℕ → ℕ)

namespace Tlb

/-- The buffer purged. -/
def purge (s : Tlb) : Tlb :=
  { s with dat := { s.dat with tlb := fun _ => 0 }, purged := s.dat.regs }

/-- `cregs` after a turn of the loop of LMC, whose last register is `reg`. -/
def lmcCregs (reg reg1 dest : ℕ) (cregs : ℕ → ℕ) : ℕ → ℕ :=
  let cregs := Function.update cregs reg1 dest
  if reg1 = 4 then
    Function.update cregs reg ((cregs reg &&& 0xfefe0000)
      ||| (if dest &&& 0xfe000000 ≠ 0 then 0x1000000 else 0)
      ||| if dest &&& 0xfe0000 ≠ 0 then 0x10000 else 0)
  else if reg1 = 6 then Function.update cregs reg (cregs reg &&& 0xf08000ff)
  else cregs

def step (s : Tlb) : TlbEvent → Tlb
  | .trans va => { s with dat := (s.dat.transAddr va).2 }
  | .lctlStart => { s with temp := false }
  | .lctl reg1 dest =>
      { s with
        cregs := Function.update s.cregs reg1 dest
        dat := { s.dat with regs := s.dat.regs.lctl reg1 dest }
        temp := s.temp || reg1 == 1 }
  | .lctlEnd => if s.temp then s.purge else s
  | .lmc reg reg1 dest =>
      let s := { s with
        cregs := lmcCregs reg reg1 dest s.cregs
        dat := { s.dat with regs := s.dat.regs.lmc reg1 dest } }
      if reg1 = 0 then s.purge else s
  | .ptlb => s.purge
  | .resume => { s with dat := { s.dat with regs := DatRegs.init s.dat.q370 s.cregs s.dat.regs } }
  | .store mem => { s with dat := { s.dat with mem } }

/-- The machine as it was when the buffer was purged, but for its tables. -/
def atPurge (s : Tlb) : Dat := { s.dat with regs := s.purged }

/-- The simulator started with an empty buffer. -/
def start (q370 : Bool) (memSize : ℕ) (mem cregs : ℕ → ℕ) (r : DatRegs) : Tlb :=
  let regs := DatRegs.init q370 cregs r
  { dat := { q370, regs, memSize, mem, tlb := fun _ => 0 }, cregs, temp := false, purged := regs }

/-- An address is translated under the values that were in force when the buffer was purged, and its page
table entry has a real page number of 12 bits; no table has a word stored into it. -/
def Ok (s : Tlb) : TlbEvent → Prop
  | .trans va => s.dat.regs = s.purged ∧ ∀ entry, (s.dat.walk (va &&& amask)).1 = .ok entry →
      entry >>> s.dat.regs.pteShift < 2 ^ 12
  | .store mem => ∀ va, ∀ a ∈ (s.atPurge.walk va).2, mem (a >>> 2) = s.dat.mem (a >>> 2)
  | _ => True

/-- What holds in such runs. -/
structure Inv (s : Tlb) : Prop where
  regs : s.dat.regs.Sized
  purged : s.purged.Sized
  buffer : Coherent s.atPurge.frames (Dat.buffer s.dat.tlb)

lemma inv_purge {s : Tlb} (h : s.dat.regs.Sized) : s.purge.Inv :=
  ⟨h, h, coherent_empty fun i => Dat.buffer_zero i⟩

lemma inv_start (q370 : Bool) (memSize : ℕ) (mem cregs : ℕ → ℕ) (r : DatRegs) :
    (start q370 memSize mem cregs r).Inv :=
  have hsized := DatRegs.sized_init q370 cregs r
  ⟨hsized, hsized, coherent_empty fun i => Dat.buffer_zero i⟩

/-- An address that is translated. -/
lemma inv_trans {s : Tlb} (hs : s.Inv) {va : ℕ} (hok : s.Ok (.trans va)) : (s.step (.trans va)).Inv := by
  obtain ⟨hregs, hpte⟩ := hok
  have hva : va &&& amask < 2 ^ 24 := Nat.and_lt_two_pow _ (by norm_num)
  have hdat : s.atPurge = s.dat := by rw [atPurge, ← hregs]
  have hbuffer := hs.buffer
  rw [hdat] at hbuffer
  obtain ⟨tlb, htlb, hcoherent⟩ := Dat.mapped_coherent hs.regs hva hpte hbuffer
  rw [step, Dat.transAddr_snd, htlb]
  refine ⟨hs.regs, hs.purged, ?_⟩
  show Coherent s.atPurge.frames (Dat.buffer tlb)
  rwa [hdat]

/-- Words that are stored. -/
lemma inv_store {s : Tlb} (hs : s.Inv) {mem : ℕ → ℕ} (hok : s.Ok (.store mem)) :
    (s.step (.store mem)).Inv := by
  refine ⟨hs.regs, hs.purged, hs.buffer.congr fun k v hkv => ?_⟩
  rw [← hkv]
  show Dat.frames { s.atPurge with mem } k = s.atPurge.frames k
  rw [Dat.frames, Dat.frames, Dat.walk_congr (hok _)]

/-- One event keeps it. -/
lemma inv_step {s : Tlb} (hs : s.Inv) {e : TlbEvent} (hok : s.Ok e) : (s.step e).Inv := by
  cases e with
  | trans va => exact inv_trans hs hok
  | lctlStart => exact ⟨hs.regs, hs.purged, hs.buffer⟩
  | lctl reg1 dest => exact ⟨DatRegs.sized_lctl hs.regs _ _, hs.purged, hs.buffer⟩
  | lctlEnd =>
      rw [step]
      split_ifs
      · exact inv_purge hs.regs
      · exact hs
  | lmc reg reg1 dest =>
      have hsized := DatRegs.sized_lmc hs.regs reg1 dest
      rw [step]
      split_ifs
      · exact inv_purge hsized
      · exact ⟨hsized, hs.purged, hs.buffer⟩
  | ptlb => exact inv_purge hs.regs
  | resume => exact ⟨DatRegs.sized_init _ _ _, hs.purged, hs.buffer⟩
  | store mem => exact inv_store hs hok

/-- It holds in every state of such a run. -/
lemma inv_run {s₀ s : Tlb} (h₀ : s₀.Inv) (h : Reaches (ofFun step) Ok s₀ s) : s.Inv :=
  h.invariant h₀ fun s e s' hs hok (he : step s e = s') => he ▸ inv_step hs hok

/-- **Hits in the buffer**: in runs that translate addresses only under the values in force at the last
purge, and only with real page numbers of 12 bits, a hit under these values gives what a walk gives: the
real address that the tables say, and none where they say none. -/
theorem tlb_hits_right {q370 : Bool} {memSize : ℕ} {mem cregs : ℕ → ℕ} {r : DatRegs} {s : Tlb}
    (h : Reaches (ofFun step) Ok (start q370 memSize mem cregs r) s) (hregs : s.dat.regs = s.purged)
    {va : ℕ} (hhit : s.dat.Hit (va &&& amask)) :
    (s.dat.transAddr va).1 = ({ s.dat with tlb := fun _ => 0 }.transAddr va).1
      ∧ ∀ pa, (s.dat.transAddr va).1 = .ok pa ↔ s.dat.real (va &&& amask) = some pa := by
  have hs := inv_run (inv_start _ _ _ _ _) h
  have hdat : s.atPurge = s.dat := by rw [atPurge, ← hregs]
  have hbuffer := hs.buffer
  rw [hdat] at hbuffer
  exact Dat.transAddr_hit hs.regs hbuffer hhit

/-- A segment table at `0x1000` whose first page has the entry given, at `0x2000`. -/
def onePage (pte : ℕ) (i : ℕ) : ℕ :=
  if i = 0x400 then 0xf0002000 else if 0x400 < i ∧ i < 0x480 then 1 else if i = 0x800 then pte <<< 16 else 0

/-- A System/370 of 16M with it, and the setting of control register 0 given. -/
def onePageStart (creg0 pte : ℕ) : Tlb :=
  start true 0x1000000 (onePage pte) (fun i => if i = 0 then creg0 else if i = 1 then 0x1000 else 0)
    ⟨0, 0, 0, 0, 0, 0, 0, 0, 0, 0, 0⟩

/-- A page in its place with a real page number of 12 bits. -/
theorem tlb_hits_right_page : (((onePageStart 0x400000 0x50).step (.trans 0)).dat.transAddr 0x123).1
    = ({ ((onePageStart 0x400000 0x50).step (.trans 0)).dat with tlb := fun _ => 0 }.transAddr 0x123).1
    ∧ ∀ pa, (((onePageStart 0x400000 0x50).step (.trans 0)).dat.transAddr 0x123).1 = .ok pa
      ↔ ((onePageStart 0x400000 0x50).step (.trans 0)).dat.real (0x123 &&& amask) = some pa := by
  have hwalk : ((onePageStart 0x400000 0x50).dat.walk (0 &&& amask)).1 = .ok 0x50 := by decide
  have hok : (onePageStart 0x400000 0x50).Ok (.trans 0) := by
    refine ⟨rfl, fun entry hentry => ?_⟩
    rw [hwalk] at hentry
    cases hentry
    decide
  exact tlb_hits_right (.next .start hok rfl) rfl (by decide)

/-- With pages of 2K the first bit of the real page number `0x1000` is taken for the tag of page `0x100`,
which the tables do not have. And when control register 0 is loaded the entries for the pages of the other
size stay in the buffer. -/
theorem tlb_hits_wrong :
    (let s := (onePageStart 0x400000 0x8000).step (.trans 0)
     s.dat.regs = s.purged ∧ s.dat.Hit 0x80000 ∧ (s.dat.transAddr 0x80000).1 = .ok 0
      ∧ ({ s.dat with tlb := fun _ => 0 }.transAddr 0x80000).1 = .error 0x10 ∧ s.dat.real 0x80000 = none)
    ∧ let s := [.trans 0, .lctlStart, .lctl 0 0x400000, .lctlEnd].foldl step (onePageStart 0x800000 0x10)
      s.dat.Hit 0 ∧ (s.dat.transAddr 0).1 = .ok 0x800
        ∧ ({ s.dat with tlb := fun _ => 0 }.transAddr 0).1 = .ok 0x1000 ∧ s.dat.real 0 = some 0x1000 := by
  decide

end Tlb

end Ka10Simh.Ibm360
