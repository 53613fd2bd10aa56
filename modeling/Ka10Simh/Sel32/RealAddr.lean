import Ka10Simh.Sel32.Maps

/-!
The translation of an address on a SEL 32: `RealAddr` of `sel32_cpu.c`.

`Sel.realAddr` is what a reference is answered, with the state it leaves. `Sel.hit` is a reference that
finds the map of its page in `TLB`; `Sel.miss` loads it, and `Sel.prefetch` the other map of the pair.

A subscript beyond the array is kept in the model, which has an entry there as well.
-/

namespace Ka10Simh.Sel32

/-- `MEM_RD`, `MEM_WR` and `MEM_EX`. -/
inductive Access
  | rd | wr | ex
  deriving DecidableEq, Repr

/-- What `RealAddr` answers: its status, `*realaddr`, `*prot`, and the bits it sets in `TRAPSTATUS`. -/
structure Reply where
  status : Status
  real : ℕ := 0
  prot : ℕ := 0
  bits : ℕ := 0
  deriving DecidableEq

namespace Sel

variable (s : Sel)

/-! ### The source -/

/-- The part of a 32/7x. -/
def realAddr7x (addr : ℕ) : Reply :=
  let word := addr &&& (if s.regs.modes &&& extdBit ≠ 0 then 0xfffff else 0x7ffff)
  if s.regs.modes &&& mapMode = 0 then
    if ¬ s.memOk word then { status := .npmem } else { status := .allok, real := word }
  else
    let map := s.rmr (word >>> 15)
    if map &&& 0x4000 = 0 then { status := .mapflt }
    else
      let word := (map &&& 0x1ff) <<< 15 ||| (word &&& 0x7fff)
      if ¬ s.memOk word then { status := .npmem }
      else
        { status := .allok, real := word
          prot := if s.regs.modes &&& privBit = 0 ∧ map &&& 0x2000 ≠ 0 then 1 else 0 }

/-- Bits 1 and 2 of `TRAPSTATUS` for a read and a write. -/
def accessBits : Access → ℕ
  | .rd => bit1
  | .wr => bit2
  | .ex => 0

/-- The logical address of a Concept/32. -/
def logical (addr : ℕ) : ℕ :=
  addr &&& (if s.regs.modes &&& (baseBit ||| extdBit) ≠ 0 then 0xffffff else 0x7ffff)

/-- Its page, and the place in it. -/
def pageOf (addr : ℕ) : ℕ := s.logical addr >>> 13 &&& 0x7ff
def offsetOf (addr : ℕ) : ℕ := s.logical addr &&& 0x1fff

/-- `(TLB[i] & 0xffe000) | offset`. -/
def wordOf (raddr offset : ℕ) : ℕ := raddr &&& 0xffe000 ||| offset

/-- Without maps. -/
def unmapped (addr : ℕ) (access : Access) : Reply :=
  let word := s.logical addr
  if ¬ s.memOk word then
    { status := .npmem, bits := if s.is97V9 then accessBits access else bit10 }
  else { status := .allok, real := word }

/-- The list of the O/S is not in memory. -/
def badOs : Reply :=
  if s.is2787 then { status := .machinechk, bits := bit10 }
  else if s.is97V9 then { status := .machinechk, bits := bit7 ||| bit9 ||| bit28 }
  else { status := .mapflt, bits := bit10 }

/-- The page is not one of those granted. -/
def badIndex : Reply :=
  { status := .mapflt, bits := if s.is97V9 then bit5 ||| bit9 else bit16 }

/-- Write protection of a quarter page. -/
def quarterProt (word raddr : ℕ) : ℕ :=
  if s.regs.modes &&& privBit ≠ 0 then 0
  else if (bit1 >>> (word >>> 11 &&& 0x3)) &&& raddr ≠ 0 then 1 else 0

/-- Protection on a V6 and V9. -/
def pageProt (map : ℕ) : ℕ :=
  let offset := map >>> 12 &&& 0x6
  if s.regs.modes &&& privBit ≠ 0 then offset ||| 0x8 else offset

/-- The part of a 32/27 and 32/87. -/
def forced (mpl index offset : ℕ) : Reply :=
  let map := s.rmr index
  let raddr := s.tlb index
  if ¬ s.memOk (s.rmw (mpl + s.regs.cpix + 4) &&& mask24) then
    { status := .machinechk, bits := bit10 }
  else if map &&& 0x8000 = 0 ∨ raddr &&& bit0 = 0 then { status := .mapflt, bits := bit10 }
  else if ¬ s.memOk (raddr &&& mask24) then { status := .npmem, bits := bit28 }
  else
    let word := wordOf raddr offset
    { status := .allok, real := word, prot := s.quarterProt word raddr }

/-- `CPU_MODEL >= MODEL_V6`. -/
def isV : Bool := s.regs.model == .v6 || s.regs.model == .v9

/-- The `HIT` bit is on. -/
def hit (index offset : ℕ) (access : Access) : Reply :=
  let raddr := s.tlb index
  if ¬ s.memOk (raddr &&& mask24) then
    { status := .npmem, bits := if s.is97V9 then accessBits access else bit28 }
  else
    let word := wordOf raddr offset
    { status := .allok, real := word
      prot := if ¬ s.isV then s.quarterProt word raddr else s.pageProt (s.rmr index) }

/-- The list of the user is not in memory. -/
def badUser : Reply :=
  { status := .mapflt, bits := if s.is97V9 then bit12 ||| (bit7 ||| bit9) ||| bit10 else bit28 }

/-- The other map of the pair of map `mix` of a list, which is `nix` in `TLB`. -/
def neighbour (mix nix : ℕ) : Option (ℕ × ℕ) :=
  if mix &&& 1 = 0 then
    if nix + 1 = s.regs.bpix ∨ nix + 1 > s.regs.bpix + s.regs.cpixpl then none
    else some (mix + 1, nix + 1)
  else if nix = s.regs.bpix then none
  else some (mix - 1, nix - 1)

/-- It is loaded when it is valid and not there. -/
def prefetch (msdl mix nix : ℕ) : Sel :=
  match s.neighbour mix nix with
  | none => s
  | some (mix, nix) =>
      if nix ≤ s.regs.bpix + s.regs.cpixpl then
        if s.tlb nix &&& hitBit = 0 then
          let map := s.rmh (msdl + mix <<< 1)
          if map &&& 0x8000 ≠ 0 then s.load nix map else s
        else s
      else s

/-- The list a page has its map in, and the place there. -/
def listOf (mpl index : ℕ) : ℕ :=
  if index < s.regs.bpix then s.rmw (mpl + 4) else s.rmw (mpl + s.regs.cpix + 4)
def placeOf (index : ℕ) : ℕ := if index < s.regs.bpix then index else index - s.regs.bpix

/-- The `HIT` bit is off. -/
def miss (mpl index offset : ℕ) (access : Access) : Reply × Sel :=
  if ¬ s.memOk (s.rmw (mpl + s.regs.cpix + 4) &&& mask24) then (s.badUser, s)
  else
    let msdl := s.listOf mpl index
    let mix := s.placeOf index
    let map := s.rmh (msdl + mix <<< 1)
    if map &&& 0x8000 = 0 then
      let word := wordOf (s.tlb index) offset
      if s.isV then ({ status := .dmdpg, real := word }, { s with pfault := index })
      else
        ({ status := .mapflt, real := word
           bits := if s.regs.model = .m97 then accessBits access else bit28 }, s)
    else
      let s := s.load index map
      let raddr := s.tlb index
      let word := wordOf raddr offset
      ({ status := .allok, real := word
         prot := if s.regs.model = .m67 ∨ s.regs.model = .m97 then s.quarterProt word raddr
           else s.pageProt map },
        s.prefetch msdl mix index)

/-- `RealAddr`, but for `TRAPSTATUS`. -/
def translate (addr : ℕ) (access : Access) : Reply × Sel :=
  if s.regs.model = .m55 ∨ s.regs.model = .m75 then (s.realAddr7x addr, s)
  else if s.regs.modes &&& mapMode = 0 then (s.unmapped addr access, s)
  else
    let mpl := s.regs.mpl &&& mask24
    let index := s.pageOf addr
    let offset := s.offsetOf addr
    if ¬ s.memOk (s.rmw (mpl + 4) &&& mask24) then (s.badOs, s)
    else if index ≥ s.regs.bpix + s.regs.cpixpl ∨ index ≥ s.maxMap then (s.badIndex, s)
    else if s.is2787 then (s.forced mpl index offset, s)
    else if s.tlb index &&& hitBit ≠ 0 then (s.hit index offset access, s)
    else s.miss mpl index offset access

/-- `RealAddr`. -/
def realAddr (addr : ℕ) (access : Access) : Reply × Sel :=
  let (r, s') := s.translate addr access
  (r, s'.trap r.bits)

end Sel

end Ka10Simh.Sel32
