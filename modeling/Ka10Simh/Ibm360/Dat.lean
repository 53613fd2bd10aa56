import Ka10Simh.Lib.Bits

/-!
Dynamic address translation of the IBM 360/67 and the System/370.

The values a walk of the tables uses are set from the control registers, when the simulator is started and
by LCTL and LMC. `TransAddr` looks into the translation buffer and walks the tables otherwise; Load Real
Address has a walk of its own.

* `DatRegs.init`, `DatRegs.lctl`, `DatRegs.lmc`: the values.
* `Dat.walk`, `Dat.transAddr`: the walk of `TransAddr`, and `TransAddr`.
* `Dat.lra`: the walk of LRA.
* `Exit`: where a walk stops, with what either makes of it.
-/

namespace Ka10Simh.Ibm360

open Word

/-- `AMASK`. -/
abbrev amask : ℕ := 0xffffff
/-- `PTE_VALID`, `PTE_ADR`. -/
abbrev pteValid : ℕ := 1
abbrev pteAdr : ℕ := 0xfffffe
/-- `TLB_SEG`, `TLB_VALID`, `TLB_PHY`. -/
abbrev tlbSeg : ℕ := 0x1f000
abbrev tlbValid : ℕ := 0x80000000
abbrev tlbPhy : ℕ := 0xfff

/-- The values of the translation, under their names in the source. -/
structure DatRegs where
  pageShift : ℕ
  pageIndex : ℕ
  pageMask : ℕ
  segShift : ℕ
  segMask : ℕ
  segLen : ℕ
  pteLenShift : ℕ
  segAddr : ℕ
  pteAvail : ℕ
  pteMbz : ℕ
  pteShift : ℕ
  deriving DecidableEq

namespace DatRegs

/-! ### Control registers -/

/-- The page sizes of control register 0. -/
def setPage (dest : ℕ) (r : DatRegs) : DatRegs :=
  if dest >>> 22 &&& 3 = 2 then
    { r with pageShift := 12, pageMask := 0xfff, pteAvail := 8, pteMbz := 6, pteShift := 4,
             pteLenShift := 0 }
  else
    { r with pageShift := 11, pageMask := 0x7ff, pteAvail := 4, pteMbz := 2, pteShift := 3,
             pteLenShift := 1 }

/-- The segment sizes of control register 0. -/
def setSeg (dest : ℕ) (r : DatRegs) : DatRegs :=
  if dest >>> 19 &&& 7 = 2 then
    { r with segShift := 20, segMask := amask >>> 20, pteLenShift := r.pteLenShift + 4 }
  else { r with segShift := 16, segMask := amask >>> 16 }

/-- `page_index`. -/
def setIndex (r : DatRegs) : DatRegs :=
  { r with pageIndex := bic (bic amask (r.segMask <<< r.segShift)) r.pageMask >>> r.pageShift }

/-- The address and the length of the segment table. -/
def setTable (dest : ℕ) (r : DatRegs) : DatRegs :=
  { r with segAddr := dest &&& amask, segLen := ((dest >>> 24 &&& 0xff) + 1) <<< 4 }

/-- What `sim_instr` sets when it is started. -/
def init (q370 : Bool) (cregs : ℕ → ℕ) (r : DatRegs) : DatRegs :=
  if q370 then (((r.setPage (cregs 0)).setSeg (cregs 0)).setTable (cregs 1)).setIndex
  else
    ({ r with pageShift := 12, pageMask := 0xfff, pteAvail := 8, pteMbz := 7, pteShift := 4,
              pteLenShift := 0, segShift := 20, segMask := amask >>> 20 }.setTable (cregs 0)).setIndex

/-- A control register loaded by LCTL. -/
def lctl (reg1 dest : ℕ) (r : DatRegs) : DatRegs :=
  if reg1 = 0 then ((r.setPage dest).setSeg dest).setIndex
  else if reg1 = 1 then r.setTable dest
  else r

/-- A control register loaded by LMC. -/
def lmc (reg1 dest : ℕ) (r : DatRegs) : DatRegs := if reg1 = 0 then r.setTable dest else r

end DatRegs

/-- The places where a walk stops. -/
inductive Exit
  | segLength | segAddress | segInvalid | pageLength | pteAddress | pteZero | pteAvail
  deriving DecidableEq, Repr

/-- `IRC_ADDR`, `IRC_SPEC`, `IRC_SEG`, `IRC_PAGE`: the exception of `TransAddr` at each of them. -/
def Exit.irc (q370 : Bool) : Exit → ℕ
  | .segLength => 0x10
  | .segAddress | .pteAddress => 5
  | .segInvalid => if q370 then 0x10 else 0x11
  | .pageLength | .pteAvail => 0x11
  | .pteZero => 6

/-- Whether `TransAddr` notes the address, at `0x90` or in control register 2. -/
def Exit.noted : Exit → Bool
  | .segAddress | .pteAddress => false
  | _ => true

/-- The machine as the translation sees it: its model, the values, the tables and the buffer. -/
structure Dat where
  q370 : Bool
  regs : DatRegs
  memSize : ℕ
  mem : ℕ → ℕ
  tlb : ℕ → ℕ

namespace Dat

variable (d : Dat)

/-! ### `TransAddr` -/

/-- `(va >> seg_shift) & seg_mask` and `(va >> page_shift) & page_index`. -/
def seg (va : ℕ) : ℕ := va >>> d.regs.segShift &&& d.regs.segMask
def page (va : ℕ) : ℕ := va >>> d.regs.pageShift &&& d.regs.pageIndex

/-- The address of a segment table entry, and of a page table entry. -/
def segEntryAddr (va : ℕ) : ℕ := ((d.seg va <<< 2) + d.regs.segAddr) &&& amask
def pteAddr (entry va : ℕ) : ℕ := ((entry &&& pteAdr) + d.page va <<< 1) &&& amask

/-- The half word at an address. -/
def half (addr : ℕ) : ℕ := (d.mem (addr >>> 2) >>> if addr &&& 2 ≠ 0 then 0 else 16) &&& 0xffff

/-- The part of the walk that finds the segment table entry. -/
def walkSeg (va : ℕ) : Except Exit ℕ :=
  if d.seg va > d.regs.segLen then .error .segLength
  else if d.segEntryAddr va ≥ d.memSize then .error .segAddress
  else .ok (d.segEntryAddr va)

/-- The part that finds the page table entry. -/
def walkPage (entry va : ℕ) : Except Exit ℕ :=
  if d.q370 then
    if entry &&& pteValid ≠ 0 ∨ d.page va >>> d.regs.pteLenShift ≥ entry >>> 28 + 1 then
      .error (if entry &&& pteValid ≠ 0 then .segInvalid else .pageLength)
    else if d.pteAddr entry va ≥ d.memSize then .error .pteAddress
    else .ok (d.pteAddr entry va)
  else if entry &&& pteValid ≠ 0 ∨ d.page va > entry >>> 24 then
    .error (if entry &&& pteValid ≠ 0 then .segInvalid else .pageLength)
  else if d.pteAddr entry va ≥ d.memSize then .error .pteAddress
  else .ok (d.pteAddr entry va)

/-- The part that looks at the page table entry. -/
def walkPte (entry : ℕ) : Except Exit ℕ :=
  if entry &&& d.regs.pteMbz ≠ 0 then .error .pteZero
  else if entry &&& d.regs.pteAvail ≠ 0 then .error .pteAvail
  else .ok entry

/-- The walk of the tables: the page table entry, and the addresses that it is read from, where the storage
keys get their reference bits. -/
def walk (va : ℕ) : Except Exit ℕ × List ℕ :=
  match d.walkSeg va with
  | .error e => (.error e, [])
  | .ok a =>
      match d.walkPage (d.mem (a >>> 2)) va with
      | .error e => (.error e, [a])
      | .ok a' => (d.walkPte (d.half a'), [a, a'])

/-- The tag of a page in the buffer. -/
def tag (va : ℕ) : ℕ := (va >>> d.regs.pageShift &&& 0x1f00) <<< 4

/-- The subscript of a page in the buffer. -/
def slot (va : ℕ) : ℕ := va >>> d.regs.pageShift &&& 0xff

/-- The entry of the buffer is that of the page. -/
def Hit (va : ℕ) : Prop :=
  d.tlb (d.slot va) &&& tlbValid ≠ 0 ∧ (d.tlb (d.slot va) ^^^ d.tag va) &&& tlbSeg = 0

instance (va : ℕ) : Decidable (d.Hit va) := inferInstanceAs (Decidable (_ ∧ _))

/-- The entry made for a page. -/
def tlbEntry (entry va : ℕ) : ℕ := entry >>> d.regs.pteShift ||| (d.tag va ||| tlbValid)

/-- `TransAddr` with `dat_en` set, up to the check against the size of the memory. -/
def mapped (va : ℕ) : Except Exit ℕ × Dat :=
  if d.Hit va then
    (.ok ((va &&& d.regs.pageMask) ||| (d.tlb (d.slot va) &&& tlbPhy) <<< d.regs.pageShift), d)
  else
    let d := { d with tlb := Function.update d.tlb (d.slot va) 0 }
    match (d.walk va).1 with
    | .error e => (.error e, d)
    | .ok entry =>
        let entry := d.tlbEntry entry va
        (.ok (((va &&& d.regs.pageMask) ||| (entry &&& tlbPhy) <<< d.regs.pageShift) &&& amask),
          { d with tlb := Function.update d.tlb (d.slot va) entry })

/-- `TransAddr` with `dat_en` set: the real address, or the exception. -/
def transAddr (va : ℕ) : Except ℕ ℕ × Dat :=
  match d.mapped (va &&& amask) with
  | (.error e, d) => (.error (e.irc d.q370), d)
  | (.ok pa, d) => if pa ≥ d.memSize then (.error 5, d) else (.ok pa, d)

/-! ### Load Real Address -/

/-- The walk of LRA, with what it leaves in its register when it stops. -/
def lra (addr1 : ℕ) : Except (Exit × Option ℕ) ℕ :=
  let addr1 := addr1 &&& amask
  let seg := addr1 >>> d.regs.segShift &&& d.regs.segMask
  let page := addr1 >>> d.regs.pageShift &&& d.regs.pageIndex
  if seg > d.regs.segLen then .error (.segLength, some addr1)
  else
    let addr2 := ((seg <<< 2) + d.regs.segAddr) &&& amask
    if addr2 ≥ d.memSize then .error (.segAddress, none)
    else
      let entry := d.mem (addr2 >>> 2)
      if entry &&& pteValid ≠ 0 then .error (.segInvalid, some addr2)
      else if d.q370 ∧ page >>> d.regs.pteLenShift ≥ entry >>> 28 + 1 then
        .error (.pageLength, some (entry >>> 28 + 1))
      else if ¬ d.q370 ∧ page > entry >>> 24 then .error (.pageLength, none)
      else
        let addr2 := ((entry &&& pteAdr) + page <<< 1) &&& amask
        if addr2 ≥ d.memSize then .error (.pteAddress, none)
        else
          let entry := (d.mem (addr2 >>> 2) >>> if addr2 &&& 2 ≠ 0 then 0 else 16) &&& 0xffff
          if entry &&& (d.regs.pteAvail ||| d.regs.pteMbz) ≠ 0 then .error (.pteAvail, some addr2)
          else
            .ok (((addr1 &&& d.regs.pageMask)
              ||| (entry >>> d.regs.pteShift &&& tlbPhy) <<< d.regs.pageShift) &&& amask)

end Dat

/-- The condition code that LRA leaves, unless there is an exception. -/
def lraCc (q370 : Bool) : Except (Exit × Option ℕ) ℕ → Option ℕ
  | .ok _ => some 0
  | .error (.segLength, _) => some 3
  | .error (.segInvalid, _) => some 1
  | .error (.pageLength, _) => some (if q370 then 3 else 2)
  | .error (.pteZero, _) | .error (.pteAvail, _) => some 2
  | .error (.segAddress, _) | .error (.pteAddress, _) => none

end Ka10Simh.Ibm360
