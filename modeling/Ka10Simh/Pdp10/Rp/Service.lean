import Ka10Simh.Pdp10.Rp.Drive

/-!
The service routine of the disk drives, `rp_svc` of `kx10_rp.c`.

* `Port`: what a drive calls of its controller.
* `seek`: a step of the heads.
* `readService`, `writeService`: one word of a transfer, with the sector at its ends.
* `svc`: `rp_svc`.
-/

namespace Ka10Simh.Pdp10.Rp

open DataChannel (Dir)

/-! ### The controller -/

/-- A controller as its drives see it: the drives in its state, the word `buf` on the way, and `rh_setattn`,
`rh_setirq`, `rh_finish_op`, `rh_blkend`, `rh_read` and `rh_write`. The two that move a word may not return. -/
structure Port (σ : Type) where
  bank : σ → Bank
  setBank : Bank → σ → σ
  buf : σ → ℕ
  setBuf : ℕ → σ → σ
  setattn : ℕ → σ → σ
  setirq : σ → σ
  finishOp : σ → σ
  blkend : σ → Bool × σ
  transfer : Dir → σ → Option (Bool × σ)

namespace Port

variable {σ : Type} (p : Port σ) (d : ℕ)

/-- A drive of the controller, and a change of it. -/
def unit (s : σ) : Drive := (p.bank s).units d
def modify (f : Drive → Drive) (s : σ) : σ := p.setBank ((p.bank s).put d (f (p.unit d s))) s

/-- A word of the buffer, a word put there, and the sectors of the image read into it and written from it. -/
def putWord (i w : ℕ) (s : σ) : σ :=
  p.setBank { p.bank s with rpBuf := Function.update (p.bank s).rpBuf i w } s
def loadSector (s : σ) : σ :=
  let words := (p.unit d s).sector
  p.setBank { p.bank s with rpBuf := fun i ↦ if i < numwd then words.getD i 0 else (p.bank s).rpBuf i } s
def storeSector (s : σ) : σ :=
  p.modify d (fun u ↦ u.store ((List.range numwd).map (p.bank s).rpBuf)) s

/-! ### Ends -/

/-- The end of a command that has moved the heads. -/
def seekEnd (s : σ) : σ :=
  p.setattn d (p.modify d (fun u ↦ { u with
    er1 := if u.OnCylinder then u.er1 else u.er1 ||| er1Iae, ds := { u.ds with ata := true, dry := true }
    go := false }) s)

/-- The end of a transfer whose sector is not one of the drive. -/
def outside (s : σ) : σ :=
  p.finishOp (p.modify d (fun u ↦ { u with
    er1 := u.er1 ||| er1Iae, ds := { u.ds with ata := true, dry := true }, go := false }) s)

/-- `rd_end` and `wr_end`. -/
def rdEnd (s : σ) : σ :=
  let s := p.modify d (fun u ↦ { u with go := false, ds := { u.ds with pip := false, dry := true } }) s
  let s := if (p.unit d s).dataptr = numwd then (p.blkend s).2 else s
  p.finishOp s
def wrEnd (s : σ) : σ :=
  p.finishOp (p.modify d (fun u ↦ { u with go := false, ds := { u.ds with dry := true } }) s)

/-- `sim_activate`. -/
def activate (s : σ) : σ := p.modify d Drive.scheduled s

/-! ### Reading -/

/-- The two words in front of a sector that is read with its header. The first has the number of the track in the
place of that of the sector, too. -/
def header (cyl : ℕ) (u : Drive) : ℕ := cyl <<< 18 ||| (getSf u.da <<< 8 ||| getSf u.da)
def header2 (ctlr : ℕ) : ℕ := (0o20 * ctlr + (d + 1)) <<< 18 ||| d

/-- A sector is read, and its header given away. It is `false` at `rd_end`. -/
def readSector (s : σ) : Option (Bool × σ) :=
  let cyl := getCy (p.unit d s).dc
  let s := p.modify d Drive.filled (p.loadSector d s)
  if Fnc.of (p.unit d s).fnc = .readh then
    (p.transfer .write (p.setBuf (header cyl (p.unit d s)) s)).bind fun (more, s) =>
      if more = false then some (false, s)
      else p.transfer .write (p.setBuf (header2 d (p.bank s).ctlr) s)
  else some (true, s)

/-- The last word of a sector moves the drive to the next one. -/
def readOn (s : σ) : σ :=
  if (p.unit d s).dataptr = numwd then
    let s := p.modify d Drive.nextSector (p.modify d Drive.emptied s)
    let (ended, s) := p.blkend s
    if ended = true then p.rdEnd d s else p.activate d s
  else p.activate d s

/-- A word is given away. -/
def readWord (s : σ) : Option σ :=
  let dataptr := (p.unit d s).dataptr
  let s := p.modify d (Drive.point (dataptr + 1)) (p.setBuf ((p.bank s).rpBuf dataptr) s)
  (p.transfer .write s).map fun (more, s) => if more = true then p.readOn d s else p.rdEnd d s

/-- `FNC_READ`, `FNC_READH` and `FNC_WCHK`. -/
def readService (s : σ) : Option σ :=
  let u := p.unit d s
  if u.er1 ≠ 0 then some (p.rdEnd d s)
  else if u.bufEmpty = true then
    if u.OnCylinder then
      (p.readSector d s).bind fun (more, s) =>
        if more = false then some (p.rdEnd d s) else p.readWord d s
    else some (p.outside d s)
  else p.readWord d s

/-! ### Writing -/

/-- The header in front of a sector is taken. It is `false` at `wr_end`. -/
def writeHeader (s : σ) : Option (Bool × σ) :=
  if Fnc.of (p.unit d s).fnc = .writeh then
    (p.transfer .read s).bind fun (more, s) =>
      if more = false then some (false, s) else p.transfer .read s
  else some (true, s)

/-- The rest of a sector is filled with zeros. -/
def fillZeros (s : σ) : σ :=
  let dataptr := (p.unit d s).dataptr
  p.modify d (Drive.point (max dataptr numwd))
    ((List.range numwd).foldl (fun s i ↦ if dataptr ≤ i then p.putWord i 0 s else s) s)

/-- A sector is written when it is full; the drive goes to the next one if there are more words. -/
def writeOn (sts : Bool) (s : σ) : σ :=
  if (p.unit d s).dataptr = numwd then
    let s := p.modify d Drive.emptied (p.storeSector d s)
    let s := if sts = true then p.modify d Drive.nextSector s else s
    let (ended, s) := p.blkend s
    if ended = true then p.wrEnd d s
    else if sts = true then p.activate d s
    else p.wrEnd d s
  else if sts = true then p.activate d s
  else p.wrEnd d s

/-- A word is taken. When there are no more words, the sector ends in zeros. -/
def writeWord (s : σ) : Option σ :=
  (p.transfer .read s).map fun (sts, s) =>
    let dataptr := (p.unit d s).dataptr
    let s := p.modify d (Drive.point (dataptr + 1)) (p.putWord dataptr (p.buf s) s)
    p.writeOn d sts (if sts = true then s else p.fillZeros d s)

/-- `FNC_WRITE` and `FNC_WRITEH`. -/
def writeService (s : σ) : Option σ :=
  let u := p.unit d s
  if u.er1 ≠ 0 then some (p.wrEnd d s)
  else if u.bufEmpty = true then
    if u.OnCylinder then
      (p.writeHeader d s).bind fun (more, s) =>
        if more = false then some (p.wrEnd d s) else p.writeWord d (p.modify d Drive.filled s)
    else some (p.outside d s)
  else p.writeWord d s

/-! ### The service routine -/

/-- A step of the heads towards the cylinder `cyl`, unless they are there. -/
def seekStep (cyl : ℕ) (u : Drive) : Option Drive :=
  let ccyl := u.ccyl &&& 0o1777
  if cyl < ccyl then
    let diff := ccyl - cyl
    some { u with ccyl := if diff > 50 then u.ccyl - 50 else if diff > 10 then u.ccyl - 10 else u.ccyl - 1 }
  else if ccyl < cyl then
    let diff := cyl - ccyl
    some { u with ccyl := if diff > 50 then u.ccyl + 50 else if diff > 10 then u.ccyl + 10 else u.ccyl + 1 }
  else none

/-- The functions, when the heads are in place. -/
def perform (s : σ) : Option σ :=
  match Fnc.of (p.unit d s).fnc with
  | .nop | .dclr | .release | .pack | .other => some s
  | .unload =>
      -- `rp_detach`, where the unit is taken from the schedule
      some (p.setattn d (p.modify d (fun u ↦ { u with
        active := false, att := false, ds := { u.ds with vv := false, dry := true, ata := true }, go := false }) s))
  | .offset => some (p.seekEnd d (p.modify d (fun u ↦ { u with ds := { u.ds with off := true } }) s))
  | .return | .preset | .recal | .seek | .search => some (p.seekEnd d s)
  | .read | .readh | .wchk => p.readService d s
  | .write | .writeh => p.writeService d s

/-- A cylinder that is not one of the drive is an error, but the heads go there. -/
def overrun (s : σ) : σ :=
  let u := p.unit d s
  if getCy u.dc ≥ u.typ.cyl then p.setattn d (p.modify d Drive.overrun s) else s

/-- The heads on their way. -/
def seek (s : σ) : Option σ :=
  let cyl := getCy (p.unit d s).dc
  let s := p.overrun d s
  match seekStep cyl (p.unit d s) with
  | some u => some (p.activate d (p.modify d (fun _ ↦ u) s))
  | none => p.perform d (p.modify d Drive.settled s)

/-- A drive that is not attached is unsafe. The controller of a transfer hears of its end, that of another command of
the attention. -/
def unattached (s : σ) : σ :=
  let fnc := (p.unit d s).fnc
  let s := p.modify d Drive.unattached s
  if fncXfer ≤ fnc then p.setirq s else p.setattn d s

/-- `rp_svc`. -/
def svc (s : σ) : Option σ :=
  let u := p.unit d s
  if u.att = false then some (p.unattached d s)
  else if u.ds.pip = true then p.seek d s
  else p.perform d s

/-- The event of a drive: it is taken from the schedule and serviced. -/
def service (s : σ) : Option σ :=
  if (p.unit d s).active = true then p.svc d (p.modify d Drive.taken s) else none

end Port

end Ka10Simh.Pdp10.Rp
