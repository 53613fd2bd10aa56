import Ka10Simh.Pdp10.DataChannel
import Ka10Simh.Pdp10.Word

/-!
The data channel of an RH20: the RH of a KL10 in its mode 2.

* `RhIf`: the registers of an interface, with the drives behind it and the memory.
* `writecw`, `finishOp`: the status at the end of a transfer. A second command that waits is started.
* `fetch`, `transfer`: the next control word, and the next word of data.
-/

namespace Ka10Simh.Pdp10.Rh20

open DataChannel (busy piEnable clear Dir)

/-! ### The interface -/

/-- The bits of the status. -/
abbrev pcrFull : ℕ := 0o20
abbrev scrFull : ℕ := 0o100
abbrev dataOvr : ℕ := 0o1000
abbrev chanRdy : ℕ := 0o2000
abbrev drResp : ℕ := 0o10000
abbrev chanErr : ℕ := 0o20000
abbrev shrtWc : ℕ := 0o40000
abbrev longWc : ℕ := 0o100000
abbrev drExc : ℕ := 0o200000
abbrev sbarSet : ℕ := 0o1000000
abbrev xend : ℕ := 0o2000000
/-- `CC_CHAN_ACT`. -/
abbrev chanAct : ℕ := 0o20000000000

/-- The bits of the status words. -/
abbrev nadrPar : ℕ := 0o100000000000
abbrev notWc0 : ℕ := 0o40000000000
abbrev nxmErr : ℕ := 0o20000000000
abbrev longSts : ℕ := 0o100000000
abbrev shrtSts : ℕ := 0o40000000

/-- `BIT10` of a command: the status is stored. `RH20_XFER` and `RH20_WMASK`. -/
abbrev bit10 : ℕ := 0o200000000
abbrev xfer : ℕ := smask
abbrev rh20Wmask : ℕ := 0o3777

/-- `AMASK`, `WMASK` and `CSHIFT` of a KL10. -/
abbrev amask : ℕ := 0o17777777
abbrev wmask : ℕ := 0o37777
abbrev cshift : ℕ := 22

/-- The drives: the GO bit that `dev_read` gives for a drive, and what `dev_write` does with a register of a drive. -/
structure Drives (δ : Type) where
  devRead : δ → ℕ → Bool
  devWrite : δ → ℕ → ℕ → ℕ → δ

/-- An interface: the size of the memory, `eb_ptr`, the number of the channel and its drives. -/
structure Config (δ : Type) where
  memsize : ℕ
  ebPtr : ℕ
  chan : ℕ
  drives : Drives δ

/-- The registers of an interface, with its interrupt, the drives and the memory. -/
structure RhIf (δ : Type) where
  status : ℕ
  stcr : ℕ
  ptcr : ℕ
  sbar : ℕ
  pbar : ℕ
  cia : ℕ
  ccw : ℕ
  wcr : ℕ
  cda : ℕ
  cop : ℕ
  drive : ℕ
  xferDrive : ℕ
  buf : ℕ
  irq : Bool
  dev : δ
  mem : ℕ → ℕ

section Channel

variable {δ : Type} (c : Config δ)

/-- `Mem_write_word` in the executive process table. -/
def storeEpt (addr w : ℕ) (s : RhIf δ) : RhIf δ :=
  if addr + c.ebPtr < c.memsize then { s with mem := Function.update s.mem (addr + c.ebPtr) w } else s

/-- The words that are left of the count. -/
def left (s : RhIf δ) : ℕ := (s.wcr ^^^ rh20Wmask) + 1 &&& rh20Wmask

/-- The command is one that writes. -/
def Writes (s : RhIf δ) : Prop := s.ptcr &&& 0o70 = 0o60

instance (s : RhIf δ) : Decidable (Writes s) := inferInstanceAs (Decidable (_ = _))

/-- The first status word, and the errors, in `rh_writecw`. -/
def nxmStatus (nxm : Bool) (wrd1 : ℕ) (s : RhIf δ) : ℕ × RhIf δ :=
  if nxm = true then (wrd1 ||| nxmErr, { s with status := s.status ||| chanErr }) else (wrd1, s)
def countStatus (wrd1 : ℕ) (s : RhIf δ) : ℕ × RhIf δ :=
  if left s ≠ 0 then
    if s.status &&& xend ≠ 0 then
      (wrd1 ||| notWc0 ||| longSts, if Writes s then { s with status := s.status ||| (longWc ||| chanErr) } else s)
    else (wrd1 ||| notWc0, s)
  else if s.status &&& xend = 0 then
    (wrd1 ||| shrtSts, if Writes s then { s with status := s.status ||| (shrtWc ||| chanErr) } else s)
  else (wrd1, s)

/-- `rh_writecw`. -/
def writecw (nxm : Bool) (s : RhIf δ) : RhIf δ :=
  let s := { s with status := clear (s.status ||| chanRdy) pcrFull }
  if left s ≠ 0 ∨ s.status &&& xend = 0 ∨ s.ptcr &&& bit10 ≠ 0 ∨ nxm = true then
    if s.ptcr &&& bit10 = 0 ∨ s.status &&& drExc ≠ 0 then s
    else
      let (wrd1, s) := nxmStatus nxm (smask ||| s.ccw) s
      let (wrd1, s) := countStatus wrd1 s
      if s.status &&& chanErr = 0 ∧ s.ptcr &&& bit10 = 0 then s
      else
        let wrd2 := s.cop <<< 33 ||| left s <<< cshift ||| s.cda &&& amask
        storeEpt c (c.chan + 2) wrd2 (storeEpt c (c.chan + 1) (wrd1 ||| nadrPar) s)
  else s

/-- `rh20_setup`: the second command becomes the first one, unless its drive is at work. -/
def setup (s : RhIf δ) : RhIf δ :=
  let drv := s.drive
  let drive := s.stcr >>> 18 &&& 7
  if c.drives.devRead s.dev drive = true then s
  else
    let s := { s with
      ptcr := s.stcr, pbar := s.sbar, drive := drive
      status := clear s.status (dataOvr ||| chanRdy ||| drResp ||| chanErr ||| shrtWc ||| longWc ||| drExc ||| scrFull
        ||| piEnable ||| xend) ||| pcrFull }
    let s := if s.status &&& sbarSet ≠ 0 then
        { s with dev := c.drives.devWrite s.dev drive 5 (s.pbar &&& 0o177777), status := clear s.status sbarSet }
      else s
    let s := if s.ptcr &&& bit7 ≠ 0 then { s with ccw := c.ebPtr + c.chan, wcr := 0 } else s
    { s with
      cia := s.ptcr >>> 6 &&& 0o1777, dev := c.drives.devWrite s.dev drive 0 (s.ptcr &&& 0o77), cop := 0, wcr := 0
      xferDrive := drive, status := clear s.status chanRdy ||| busy, drive := drv }

/-- `rh_finish_op`. -/
def finishOp (nxm : Bool) (s : RhIf δ) : RhIf δ :=
  let s := writecw c nxm { s with status := clear s.status chanAct }
  let s := { s with status := s.status ||| piEnable, irq := true }
  if s.status &&& (scrFull ||| pcrFull) = scrFull ∧ s.status &&& (drExc ||| chanErr) = 0 then setup c s else s

/-- The loop of `rh_fetch`, with the control word at hand. -/
def fetchLoop : ℕ → ℕ → RhIf δ → Option (Bool × RhIf δ)
  | 0, _, _ => none
  | fuel + 1, data, s =>
      if data &&& xfer = 0 then
        let s := { s with ccw := data &&& amask }
        if data &&& (bit1 ||| bit2) = 0 then some (false, s)
        else if s.ccw < c.memsize then fetchLoop fuel (s.mem s.ccw) s
        else some (false, finishOp c true s)
      else
        some (true, { s with
          wcr := (data >>> cshift &&& rh20Wmask ^^^ wmask) + 1, cda := data &&& amask, cop := data >>> 33 &&& 7
          ccw := s.ccw + 1 &&& amask })

/-- `rh_fetch`. -/
def fetch (fuel : ℕ) (s : RhIf δ) : Option (Bool × RhIf δ) :=
  if s.cop &&& 2 ≠ 0 then some (false, s)
  else if s.ccw < c.memsize then fetchLoop c fuel (s.mem s.ccw) s
  else some (false, finishOp c true s)

/-- The address after a word, backwards or forwards. -/
def next (s : RhIf δ) : ℕ := if s.cop &&& 1 ≠ 0 then s.cda - 1 &&& amask else s.cda + 1 &&& amask

/-- What is done at an address, and without one. -/
def access : Dir → RhIf δ → RhIf δ
  | .read, s => { s with buf := s.mem s.cda }
  | .write, s => { s with mem := Function.update s.mem s.cda s.buf }
def skip : Dir → RhIf δ → RhIf δ
  | .read, s => { s with buf := 0 }
  | .write, s => s

/-- A word of data, between the control words. -/
def move (dir : Dir) (s : RhIf δ) : Bool × RhIf δ :=
  let s := { s with wcr := s.wcr + 1 &&& wmask }
  if s.cda ≠ 0 then
    if s.cda > c.memsize then (false, finishOp c true s)
    else if s.cda < c.memsize then
      let s := access dir s
      (true, { s with cda := next s })
    else (false, finishOp c true s)
  else (true, skip dir s)

/-- `rh_read` and `rh_write`. -/
def transfer (dir : Dir) (fuel : ℕ) (s : RhIf δ) : Option (Bool × RhIf δ) :=
  (if s.wcr = 0 then fetch c fuel s else some (true, s)).bind fun (found, s) =>
    if found = false then some (false, s)
    else
      let (moved, s) := move c dir s
      if moved = false then some (false, s)
      else if s.wcr = 0 then fetch c fuel s
      else some (true, s)

end Channel

end Ka10Simh.Pdp10.Rh20
