import Ka10Simh.Ibm360.Dat

/-!
Load Real Address of the IBM 360/67 and the System/370, against `TransAddr`.

LRA has the walk of `TransAddr` once more, with other exits and another order of the checks. Both compare a
segment number with the length of the segment table, and take the one that is equal to it.

* `Dat.lra_walk`: LRA finds what the walk of `TransAddr` finds.
* `DatRegs.lctl_init`: LCTL sets the values as they are set when the simulator is started.
* `lra_right_iff`: LRA and `TransAddr` agree, and the table has the segments they accept, unless the
  segment is the first one after it.
-/

namespace Ka10Simh.Ibm360

open Word

namespace DatRegs

/-- The number of entries of the segment table, by the control registers. -/
def tableLength (q370 : Bool) (cregs : ℕ → ℕ) : ℕ := 16 * ((cregs (if q370 then 1 else 0) >>> 24 &&& 0xff) + 1)

lemma init_segLen (q370 : Bool) (cregs : ℕ → ℕ) (r : DatRegs) :
    (init q370 cregs r).segLen = tableLength q370 cregs := by
  rw [tableLength, init]
  split_ifs with hq370
  · show ((cregs 1 >>> 24 &&& 0xff) + 1) <<< 4 = _
    rw [Nat.shiftLeft_eq, Nat.mul_comm]
  · show ((cregs 0 >>> 24 &&& 0xff) + 1) <<< 4 = _
    rw [Nat.shiftLeft_eq, Nat.mul_comm]

/-- The values of LCTL are those of the control registers it leaves. -/
lemma lctl_init (cregs : ℕ → ℕ) (r : DatRegs) (reg1 dest : ℕ) :
    (init true cregs r).lctl reg1 dest
      = init true (Function.update cregs reg1 dest) (init true cregs r) := by
  rw [lctl]
  split_ifs with h₀ h₁
  · subst h₀
    simp only [init, setPage, setSeg, setTable, setIndex, if_true, Function.update_self,
      Function.update_of_ne (by decide : (1 : ℕ) ≠ 0)]
    split_ifs <;> rfl
  · subst h₁
    simp only [init, setPage, setSeg, setTable, setIndex, if_true, Function.update_self,
      Function.update_of_ne (by decide : (0 : ℕ) ≠ 1)]
    split_ifs <;> rfl
  · simp only [init, setPage, setSeg, setTable, setIndex, if_true, Function.update_of_ne (Ne.symm h₀),
      Function.update_of_ne (Ne.symm h₁)]
    split_ifs <;> rfl

end DatRegs

namespace Dat

variable (d : Dat)

/-! ### The two walks -/

/-- The machine with an empty translation buffer. -/
def purged : Dat := { d with tlb := fun _ => 0 }

/-- The address that is put together from a page table entry. -/
def address (entry va : ℕ) : ℕ :=
  ((va &&& d.regs.pageMask) ||| (entry >>> d.regs.pteShift &&& tlbPhy) <<< d.regs.pageShift) &&& amask

/-- The real page number of the entry that is made is the one of the page table entry. -/
lemma tlbEntry_phy (entry va : ℕ) : d.tlbEntry entry va &&& tlbPhy = entry >>> d.regs.pteShift &&& tlbPhy := by
  have htag : (d.tag va ||| tlbValid) &&& tlbPhy = 0 := by
    have hlow : (2 ^ 5 - 1) <<< 8 <<< 4 &&& tlbPhy = 0 := by decide
    rw [tag, show (0x1f00 : ℕ) = (2 ^ 5 - 1) <<< 8 from rfl, Nat.and_or_distrib_right, Nat.shiftLeft_and_distrib,
      Nat.and_assoc, hlow, Nat.and_zero]
    decide
  rw [tlbEntry, Nat.and_or_distrib_right, htag, Nat.or_zero]

/-- `TransAddr` with an empty buffer walks the tables. -/
lemma purged_mapped (va : ℕ) :
    (d.purged.mapped va).1 = (d.walk va).1.map fun entry => d.address entry va := by
  have hmiss : ¬ d.purged.Hit va := fun hno => hno.1 (Nat.zero_and _)
  have hwalk (tlb : ℕ → ℕ) : ({ d with tlb } : Dat).walk va = d.walk va := rfl
  rw [mapped, if_neg hmiss]
  simp only [purged, hwalk]
  cases (d.walk va).1 with
  | error e => rfl
  | ok entry => exact congrArg Except.ok (by rw [tlbEntry_phy]; rfl)

/-- The walk of LRA from the segment table entry on. -/
def lraPage (entry va : ℕ) : Except (Exit × Option ℕ) ℕ :=
  if entry &&& pteValid ≠ 0 then .error (.segInvalid, some (d.segEntryAddr va))
  else if d.q370 ∧ d.page va >>> d.regs.pteLenShift ≥ entry >>> 28 + 1 then
    .error (.pageLength, some (entry >>> 28 + 1))
  else if ¬ d.q370 ∧ d.page va > entry >>> 24 then .error (.pageLength, none)
  else if d.pteAddr entry va ≥ d.memSize then .error (.pteAddress, none)
  else if d.half (d.pteAddr entry va) &&& (d.regs.pteAvail ||| d.regs.pteMbz) ≠ 0 then
    .error (.pteAvail, some (d.pteAddr entry va))
  else .ok (d.address (d.half (d.pteAddr entry va)) va)

lemma lra_eq (va : ℕ) :
    d.lra va = if d.seg (va &&& amask) > d.regs.segLen then .error (.segLength, some (va &&& amask))
      else if d.segEntryAddr (va &&& amask) ≥ d.memSize then .error (.segAddress, none)
      else d.lraPage (d.mem (d.segEntryAddr (va &&& amask) >>> 2)) (va &&& amask) := rfl

/-- Both check the bits of the page table entry, LRA all of them at once. -/
lemma walkPte_toOption (entry : ℕ) :
    (d.walkPte entry).toOption
      = if entry &&& (d.regs.pteAvail ||| d.regs.pteMbz) ≠ 0 then none else some entry := by
  rw [walkPte, Nat.and_or_distrib_left]
  simp only [ne_eq, Nat.or_eq_zero_iff]
  by_cases hmbz : entry &&& d.regs.pteMbz = 0
  · rw [if_neg (not_not.mpr hmbz)]
    by_cases havail : entry &&& d.regs.pteAvail = 0
    · rw [if_neg (not_not.mpr havail), if_neg (not_not.mpr ⟨havail, hmbz⟩)]
      rfl
    · rw [if_pos havail, if_pos fun hboth => havail hboth.1]
      rfl
  · rw [if_pos hmbz, if_pos fun hboth => hmbz hboth.2]
    rfl

/-- LRA looks at the segment table entry first, and at the length of the page table then. -/
lemma lraPage_toOption (entry va : ℕ) :
    (d.lraPage entry va).toOption = (d.walkPage entry va).toOption.bind fun a =>
      (d.walkPte (d.half a)).toOption.map fun entry => d.address entry va := by
  have hlast : (if d.pteAddr entry va ≥ d.memSize then Except.error (Exit.pteAddress, none)
      else if d.half (d.pteAddr entry va) &&& (d.regs.pteAvail ||| d.regs.pteMbz) ≠ 0 then
        Except.error (Exit.pteAvail, some (d.pteAddr entry va))
      else Except.ok (d.address (d.half (d.pteAddr entry va)) va)).toOption
      = (if d.pteAddr entry va ≥ d.memSize then Except.error Exit.pteAddress
          else Except.ok (d.pteAddr entry va)).toOption.bind fun a =>
        (d.walkPte (d.half a)).toOption.map fun entry => d.address entry va := by
    by_cases haddr : d.pteAddr entry va ≥ d.memSize
    · rw [if_pos haddr, if_pos haddr]
      rfl
    · rw [if_neg haddr, if_neg haddr]
      show _ = (d.walkPte (d.half (d.pteAddr entry va))).toOption.map _
      rw [walkPte_toOption]
      split_ifs <;> rfl
  rw [lraPage, walkPage]
  by_cases hinvalid : entry &&& pteValid ≠ 0
  · rw [if_pos hinvalid, if_pos (Or.inl hinvalid), if_pos (Or.inl hinvalid)]
    split_ifs <;> rfl
  · rw [if_neg hinvalid]
    cases d.q370
    · rw [if_neg fun hno => Bool.false_ne_true hno.1, if_neg Bool.false_ne_true]
      by_cases hpage : d.page va > entry >>> 24
      · rw [if_pos ⟨Bool.false_ne_true, hpage⟩, if_pos (Or.inr hpage)]
        rfl
      · rw [if_neg fun hno => hpage hno.2, if_neg (not_or.mpr ⟨hinvalid, hpage⟩)]
        exact hlast
    · rw [if_pos rfl]
      by_cases hpage : d.page va >>> d.regs.pteLenShift ≥ entry >>> 28 + 1
      · rw [if_pos ⟨rfl, hpage⟩, if_pos (Or.inr hpage)]
        rfl
      · rw [if_neg fun hno => hpage hno.2, if_neg fun hno => hno.1 rfl, if_neg (not_or.mpr ⟨hinvalid, hpage⟩)]
        exact hlast

/-- **LRA finds what the walk finds.** -/
theorem lra_walk (va : ℕ) :
    (d.lra va).toOption
      = (d.walk (va &&& amask)).1.toOption.map fun entry => d.address entry (va &&& amask) := by
  rw [lra_eq, walk, walkSeg]
  by_cases hseg : d.seg (va &&& amask) > d.regs.segLen
  · rw [if_pos hseg, if_pos hseg]
    rfl
  · rw [if_neg hseg, if_neg hseg]
    by_cases haddr : d.segEntryAddr (va &&& amask) ≥ d.memSize
    · rw [if_pos haddr, if_pos haddr]
      rfl
    · rw [if_neg haddr, if_neg haddr, lraPage_toOption]
      simp only
      cases d.walkPage (d.mem (d.segEntryAddr (va &&& amask) >>> 2)) (va &&& amask) <;> rfl

/-! ### Agreement -/

/-- The segment numbers that the walk takes. -/
lemma walk_segLength (va : ℕ) : (d.walk va).1 = .error .segLength ↔ d.seg va > d.regs.segLen := by
  rw [walk, walkSeg]
  by_cases hseg : d.seg va > d.regs.segLen
  · rw [if_pos hseg]
    exact ⟨fun _ => hseg, fun _ => rfl⟩
  · rw [if_neg hseg]
    refine ⟨fun hexit => ?_, fun hno => absurd hno hseg⟩
    by_cases haddr : d.segEntryAddr va ≥ d.memSize
    · rw [if_pos haddr] at hexit
      cases hexit
    · rw [if_neg haddr] at hexit
      simp only at hexit
      cases hpage : d.walkPage (d.mem (d.segEntryAddr va >>> 2)) va with
      | error e =>
          rw [hpage] at hexit
          obtain rfl : e = .segLength := Except.error.inj hexit
          rw [walkPage] at hpage
          split_ifs at hpage <;> cases hpage
      | ok a =>
          rw [hpage] at hexit
          simp only [walkPte] at hexit
          split_ifs at hexit <;> cases hexit

/-- The segment numbers that LRA takes. -/
lemma lra_segLength (va : ℕ) :
    (∃ left, d.lra va = .error (.segLength, left)) ↔ d.seg (va &&& amask) > d.regs.segLen := by
  rw [lra_eq]
  by_cases hseg : d.seg (va &&& amask) > d.regs.segLen
  · rw [if_pos hseg]
    exact ⟨fun _ => hseg, fun _ => ⟨_, rfl⟩⟩
  · rw [if_neg hseg]
    refine ⟨fun ⟨left, hexit⟩ => ?_, fun hno => absurd hno hseg⟩
    rw [lraPage] at hexit
    split_ifs at hexit <;> cases hexit

/-- The values loaded from the control registers. -/
def loaded (cregs : ℕ → ℕ) : Dat := { d with regs := .init d.q370 cregs d.regs }

/-- LRA and `TransAddr` agree on an address, and take its segment only from a table that has it, of the length
given. -/
structure LraRight (length va : ℕ) : Prop where
  cc : lraCc d.q370 (d.lra va) = some 0 ↔ ∃ pa, (d.purged.mapped (va &&& amask)).1 = .ok pa
  address : ∀ pa, d.lra va = .ok pa ↔ (d.purged.mapped (va &&& amask)).1 = .ok pa
  lra_seg : (∀ left, d.lra va ≠ .error (.segLength, left)) → d.seg (va &&& amask) < length
  mapped_seg : (d.purged.mapped (va &&& amask)).1 ≠ .error .segLength → d.seg (va &&& amask) < length

lemma ok_iff_toOption {ε α : Type} (x : Except ε α) (a : α) : x = .ok a ↔ x.toOption = some a := by
  cases x with
  | error e => exact ⟨fun hno => (by cases hno), fun hno => (by cases hno)⟩
  | ok b => exact ⟨fun h => congrArg Except.toOption h, fun h => congrArg Except.ok (Option.some.inj h)⟩

/-- LRA and `TransAddr` find the same address. -/
lemma lra_ok (va pa : ℕ) : d.lra va = .ok pa ↔ (d.purged.mapped (va &&& amask)).1 = .ok pa := by
  rw [ok_iff_toOption, ok_iff_toOption, lra_walk, purged_mapped]
  cases (d.walk (va &&& amask)).1 <;> rfl

lemma lraCc_zero (q370 : Bool) (x : Except (Exit × Option ℕ) ℕ) : lraCc q370 x = some 0 ↔ ∃ pa, x = .ok pa := by
  rcases x with ⟨⟨⟩, _⟩ | pa <;> cases q370 <;> simp [lraCc]

lemma mapped_segLength (va : ℕ) :
    (d.purged.mapped va).1 = .error .segLength ↔ d.seg va > d.regs.segLen := by
  rw [purged_mapped, ← walk_segLength]
  cases (d.walk va).1 with
  | error e => exact ⟨fun h => congrArg _ (Except.error.inj h), fun h => congrArg _ (Except.error.inj h)⟩
  | ok entry => exact ⟨fun h => (by cases h), fun h => (by cases h)⟩

/-- **LRA against `TransAddr`**: for every setting of the control registers and every address they agree, and
the segment table has the segments they take, exactly when the segment is not the first one after the table. -/
theorem lra_right_iff (d : Dat) (cregs : ℕ → ℕ) (va : ℕ) :
    (d.loaded cregs).LraRight (DatRegs.tableLength d.q370 cregs) va
      ↔ (d.loaded cregs).seg (va &&& amask) ≠ DatRegs.tableLength d.q370 cregs := by
  have hlen : (d.loaded cregs).regs.segLen = DatRegs.tableLength d.q370 cregs :=
    DatRegs.init_segLen _ _ _
  have hlra := lra_segLength (d.loaded cregs) va
  have hmapped := mapped_segLength (d.loaded cregs) (va &&& amask)
  rw [hlen] at hlra hmapped
  constructor
  · intro h heq
    have hlt := h.lra_seg fun left hexit => (hlra.mp ⟨left, hexit⟩).ne' heq
    omega
  · intro hne
    refine ⟨?_, lra_ok _ va, fun hexit => ?_, fun hexit => ?_⟩
    · rw [lraCc_zero]
      exact exists_congr (lra_ok _ va)
    · have hle := mt hlra.mpr (not_exists.mpr hexit)
      omega
    · have hle := mt hmapped.mpr hexit
      omega

/-- A System/370 with a segment table of 16 entries at `0x1000`, and after it a word that looks like one. -/
def shortTable : Dat :=
  { q370 := true, regs := ⟨0, 0, 0, 0, 0, 0, 0, 0, 0, 0, 0⟩, memSize := 0x1000000,
    mem := fun i => if i = 0x410 then 0xf0002000 else 0, tlb := fun _ => 0 }

/-- Segment 16 is read from the word after the table. -/
theorem lra_takes_segment_after :
    let d := shortTable.loaded fun i => if i = 0 then 0x400000 else 0x1000
    d.lra 0x100000 = .ok 0 ∧ (d.purged.mapped 0x100000).1 = .ok 0 ∧ ¬ d.LraRight 16 0x100000 := by
  have hlra : (shortTable.loaded fun i => if i = 0 then 0x400000 else 0x1000).lra 0x100000 = .ok 0 := by
    decide
  refine ⟨hlra, by decide, fun h => ?_⟩
  have hlt := h.lra_seg fun left hexit => by
    rw [hlra] at hexit
    cases hexit
  exact absurd hlt (by decide)

end Dat

end Ka10Simh.Ibm360
