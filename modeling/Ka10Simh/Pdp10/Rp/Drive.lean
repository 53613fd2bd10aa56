import Ka10Simh.Pdp10.DataChannel
import Ka10Simh.Pdp10.Disk

/-!
The disk drives of `kx10_rp.c` on their controller: the registers, and what the controller writes and reads there.

* `Drive`, `Bank`: a drive, and the drives of one controller with its two words about them, `attn` and `rae`.
* `write`, `read`, `rst`: `rp_write`, `rp_read` and `rp_rst`.
* `Fits`: the address is one of the drive.
* `nextSector`: the step from a sector to the one after it.
-/

namespace Ka10Simh.Pdp10.Rp

open DataChannel (clear)

/-! ### Drives -/

/-- The types of drives, and `rp_drv_tab`. -/
inductive DType
  | rp04 | rp06 | rp07
  deriving DecidableEq, Repr

structure DrvTyp where
  sect : ℕ
  surf : ℕ
  cyl : ℕ
  devtype : ℕ

def rpDrvTab : DType → DrvTyp
  | .rp04 => ⟨20, 19, 411, 0o20020⟩
  | .rp06 => ⟨20, 19, 815, 0o20022⟩
  | .rp07 => ⟨43, 32, 630, 0o20042⟩

/-- The functions of a command, and that of a number. -/
inductive Fnc
  | nop | unload | seek | recal | dclr | release | offset | return | preset | pack | search | wchk | write | writeh
  | read | readh | other
  deriving DecidableEq, Repr

def Fnc.of : ℕ → Fnc
  | 0o0 => .nop
  | 0o1 => .unload
  | 0o2 => .seek
  | 0o3 => .recal
  | 0o4 => .dclr
  | 0o5 => .release
  | 0o6 => .offset
  | 0o7 => .return
  | 0o10 => .preset
  | 0o11 => .pack
  | 0o14 => .search
  | 0o24 => .wchk
  | 0o30 => .write
  | 0o31 => .writeh
  | 0o34 => .read
  | 0o35 => .readh
  | _ => .other

/-- The commands that move the heads, and those of them that transfer data. -/
def Fnc.moves : Fnc → Bool
  | .recal | .return | .offset | .unload | .search | .seek | .wchk | .write | .writeh | .read | .readh => true
  | _ => false
def Fnc.transfers : Fnc → Bool
  | .wchk | .write | .writeh | .read | .readh => true
  | _ => false

/-- `RP_NUMWD`. -/
abbrev numwd : ℕ := 128

/-- `FNC_XFER`. -/
abbrev fncXfer : ℕ := 0o24

/-- `GET_FNC`, `GET_SC`, `GET_SF` and `GET_CY`. -/
def getFnc (x : ℕ) : ℕ := x >>> 1 &&& 0o37
def getSc (da : ℕ) : ℕ := da &&& 0o77
def getSf (da : ℕ) : ℕ := da >>> 8 &&& 0o77
def getCy (dc : ℕ) : ℕ := dc &&& 0o1777

/-- The bits of `RPDS` that are kept: `DS_OFF`, `DS_VV`, `DS_DRY`, `DS_PIP` and `DS_ATA`. -/
structure Status where
  off : Bool
  vv : Bool
  dry : Bool
  pip : Bool
  ata : Bool
  deriving DecidableEq

/-- The bits of `RPER1`. -/
abbrev er1Ilf : ℕ := 0o1
abbrev er1Ilr : ℕ := 0o2
abbrev er1Rmr : ℕ := 0o4
abbrev er1Iae : ℕ := 0o2000
abbrev er1Uns : ℕ := 0o40000

/-- A drive: the flags of its unit, its registers, and the state of the transfer. `go` and `fnc` are the two fields of
`RPCS1`, `bufEmpty` is `BUF_EMPTY`, and `active` says that the unit is scheduled. -/
structure Drive where
  dis : Bool
  att : Bool
  wprt : Bool
  dtype : DType
  go : Bool
  fnc : ℕ
  ds : Status
  er1 : ℕ
  mr : ℕ
  da : ℕ
  la : ℕ
  er2 : ℕ
  of : ℕ
  dc : ℕ
  er3 : ℕ
  ccyl : ℕ
  dataptr : ℕ
  bufEmpty : Bool
  active : Bool
  fmt : DiskFmt
  img : List UInt8

/-- The drives of the controller `ctlr` by their numbers, its `attn` and `rae`, and the buffer `rp_buf` of its sector. -/
structure Bank where
  ctlr : ℕ
  units : ℕ → Drive
  attn : ℕ
  rae : ℕ
  rpBuf : ℕ → ℕ

/-- The next address: a sector on, and to the next track or cylinder behind the last one. -/
def DrvTyp.next (t : DrvTyp) (da dc : ℕ) : ℕ × ℕ × Bool :=
  let da := (da + 1) % 2 ^ 16
  if getSc da ≥ t.sect then
    let da := (da &&& 0o37400) + 0o400
    if getSf da ≥ t.surf then (0, (dc + 1) % 2 ^ 16, true) else (da, dc, false)
  else (da, dc, false)

namespace Drive

/-- `DATAPTR` set. -/
def point (n : ℕ) (u : Drive) : Drive := { u with dataptr := n }

variable (u : Drive)

/-- The row of the table, and the number of the sector, `GET_DA`. -/
def typ : DrvTyp := rpDrvTab u.dtype
def getDa : ℕ := (getCy u.dc * u.typ.surf + getSf u.da) * u.typ.sect + getSc u.da

/-- `RPCS1`, and `RPDS` with what the flags of the unit add to it. -/
def cs1 : ℕ := u.fnc <<< 1 ||| u.go.toNat
def status : ℕ :=
  u.ds.off.toNat ||| u.ds.vv.toNat <<< 6 ||| u.ds.dry.toNat <<< 7 ||| u.ds.pip.toNat <<< 13 ||| u.ds.ata.toNat <<< 15
    ||| (if u.er1 ||| u.er2 ||| u.er3 ≠ 0 then 0o40000 else 0) ||| (!u.dis).toNat <<< 8 ||| u.att.toNat <<< 12
    ||| u.wprt.toNat <<< 11

/-- The sector is one of a track and the track one of a cylinder; the cylinder is one of the drive too. -/
def OnCylinder : Prop := getSc u.da < u.typ.sect ∧ getSf u.da < u.typ.surf
def Fits : Prop := getCy u.dc < u.typ.cyl ∧ u.OnCylinder

instance : Decidable u.OnCylinder := inferInstanceAs (Decidable (_ ∧ _))
instance : Decidable u.Fits := inferInstanceAs (Decidable (_ ∧ _))

/-- An empty buffer and one that is not, and the unit scheduled and taken from the schedule. -/
def emptied : Drive := { u with dataptr := 0, bufEmpty := true }
def filled : Drive := { u with dataptr := 0, bufEmpty := false }
def scheduled : Drive := { u with active := true }
def taken : Drive := { u with active := false }

/-- The heads in place, a drive that is not attached at work, and a cylinder that is not one of the drive. -/
def settled : Drive := { u with ds := { u.ds with pip := false }, dataptr := 0 }
def unattached : Drive := { u with ds := { u.ds with ata := true, dry := false }, er1 := u.er1 ||| er1Uns }
def overrun : Drive :=
  { u with ds := { u.ds with pip := false, ata := true, dry := true }, go := false, er1 := u.er1 ||| er1Iae }

/-- The sector that the drive stands at, and words written there. -/
def sector : List ℕ := Disk.diskRead u.fmt u.img u.getDa numwd
def store (words : List ℕ) : Drive := { u with img := Disk.diskWrite u.fmt u.img words u.getDa numwd }

/-- A drive after `rp_rst`: of its status the volume is kept valid, and it is ready when it is attached. -/
def rst : Drive :=
  { u with
    ds := ⟨false, u.ds.vv, u.att, false, false⟩
    ccyl := if u.mr &&& 1 ≠ 0 then getCy u.dc else u.ccyl
    of := if u.mr &&& 1 ≠ 0 then u.of &&& 0o16000 else u.of
    er1 := 0
    er2 := 0
    er3 := 0 }

/-- To the next sector: the new address, and whether the heads move. -/
def nextSector : Drive :=
  let (da, dc, moves) := u.typ.next u.da u.dc
  { u with da := da, dc := dc, ds := { u.ds with pip := u.ds.pip || moves } }

end Drive

/-! ### Writing -/

namespace Bank

variable (b : Bank)

/-- A drive put in its place. -/
def put (d : ℕ) (u : Drive) : Bank := { b with units := Function.update b.units d u }

/-- The end of the commands that move the heads: an address that is not one of the drive is an error, with another one
the drive begins. -/
def start (d : ℕ) (u : Drive) : Bank :=
  if u.Fits then
    b.put d { u with
      ds := { u.ds with pip := true, dry := false }, go := true, bufEmpty := true, dataptr := 0, active := true }
  else
    { b.put d { u with ds := { u.ds with ata := true, dry := true }, er1 := u.er1 ||| er1Iae } with
      attn := clear b.attn (1 <<< d) }

/-- The end of `FNC_PRESET`, `FNC_RELEASE` and `FNC_PACK`. -/
def ready (d : ℕ) (u : Drive) : Bank :=
  if u.att = true then b.put d { u with ds := { u.ds with vv := true, dry := true } } else b.put d u

/-- A command with the GO bit. -/
def command (d fnc : ℕ) : Bank :=
  let u := b.units d
  let u := { u with ds := { u.ds with dry := false, pip := false }, go := false, fnc := fnc }
  match Fnc.of fnc with
  | .nop => b.put d { u with ds := { u.ds with dry := true } }
  | .recal => b.start d { u with dc := 0, ds := { u.ds with off := false } }
  | .return | .offset | .unload => b.start d { u with ds := { u.ds with off := false } }
  | .search | .seek | .wchk | .write | .writeh | .read | .readh => b.start d u
  | .dclr =>
      { b.put d { u with ds := { u.ds with ata := false, dry := true }, of := 0, er1 := 0, er2 := 0, er3 := 0 } with
        attn := clear b.attn (1 <<< d) }
  | .preset => b.ready d { u with da := 0, dc := 0, ds := { u.ds with off := false, dry := true }, of := 0 }
  | .release | .pack => b.ready d u
  | .other =>
      { b.put d { u with ds := { u.ds with ata := true, dry := true }, er1 := u.er1 ||| er1Ilf } with
        attn := b.attn ||| 1 <<< d }

/-- The maintenance register. -/
def maintenance (d data : ℕ) : Bank :=
  let u := b.units d
  if data &&& 1 ≠ 0 then
    let la := if data &&& 0o76 = 0 then
        let la := if u.mr &&& 0o10 ≠ 0 then (u.la + 1) % 2 ^ 16 else u.la
        if u.mr &&& 0o4 ≠ 0 then 0 else la
      else u.la
    b.put d { u with la := la, mr := data % 2 ^ 16 }
  else b.put d { u with mr := 0 }

/-- The attention summary: the attention of the drives that are named is taken back. -/
def clearAttention (data : ℕ) : Bank :=
  (List.range 8).foldl (fun b i ↦
    if data.testBit i = true then
      { b.put i { b.units i with ds := { (b.units i).ds with ata := false } } with attn := clear b.attn (1 <<< i) }
    else b) b

/-- A register that is not there. -/
def illegal (d : ℕ) : Bank :=
  { b.put d { b.units d with er1 := (b.units d).er1 ||| er1Ilr } with rae := b.rae ||| 1 <<< d }

/-- The registers of a drive that is not at work. The GO bit has been tested, so the second test of it, in the control
register, is never reached. -/
def writeReg (d reg data : ℕ) : Bank :=
  let u := b.units d
  match reg with
  | 0o0 => if data &&& 1 = 0 then b.put d { u with go := false, fnc := getFnc data } else b.command d (getFnc data)
  | 0o2 => b.put d { u with er1 := data % 2 ^ 16 }
  | 0o3 => b.maintenance d data
  | 0o4 => b.clearAttention data
  | 0o5 => b.put d { u with da := data % 2 ^ 16 }
  | 0o11 => b.put d { u with of := data &&& 0o16277 }
  | 0o12 => b.put d { u with dc := data &&& 0o1777 }
  | 0o14 => b.put d { u with er2 := data % 2 ^ 16 }
  | 0o15 => b.put d { u with er3 := data &&& 0o76210 }
  | 0o1 | 0o6 | 0o7 | 0o10 | 0o13 | 0o16 | 0o17 => b
  | _ => b.illegal d

/-- `rp_write`: a register of a drive is written, unless the drive is at work. It is `true` when there is no drive. -/
def write (d reg data : ℕ) : Bool × Bank :=
  let u := b.units d
  if u.dis = true ∧ reg ≠ 0o4 then (true, b)
  else if u.go = true ∧ reg ≠ 0o4 then (false, b.put d { u with er1 := u.er1 ||| er1Rmr })
  else (false, b.writeReg d reg data)

/-! ### Reading -/

/-- The attention summary: a bit for each drive that asks for attention. -/
def attentionSummary : ℕ :=
  (List.range 8).foldl (fun temp i ↦ if (b.units i).ds.ata = true then temp ||| 1 <<< i else temp) 0

/-- The look ahead register, which turns with each reading. -/
def lookAhead (d : ℕ) : ℕ × Bank :=
  let u := b.units d
  let la := if u.la >>> 10 ≥ 23 then 0 else u.la
  (getSc u.da <<< 6 ^^^ ((la + 1) >>> 4 &&& 0o7760),
    b.put d { u with la := if u.mr &&& 1 = 0 then (la + 1024) % 2 ^ 16 else la })

/-- The registers of a drive that is attached. -/
def readReg (d reg : ℕ) : ℕ × Bank :=
  let u := b.units d
  match reg with
  | 0o0 => (u.cs1 ||| u.att.toNat <<< 11, b)
  | 0o1 => (u.status, b)
  | 0o2 => (u.er1, b)
  | 0o3 => (if u.mr &&& 1 ≠ 0 then u.mr else 0, b)
  | 0o4 => (b.attentionSummary, b)
  | 0o5 => (u.da, b)
  | 0o6 => (u.typ.devtype, b)
  | 0o7 => b.lookAhead d
  | 0o10 => (0o20 * b.ctlr + (d + 1), b)
  | 0o11 => (u.of, b)
  | 0o12 => (u.dc, b)
  | 0o13 => (u.ccyl, b)
  | 0o14 => (u.er2, b)
  | 0o15 => (u.er3, b)
  | 0o16 | 0o17 => (0, b)
  | _ => (0, b.illegal d)

/-- `rp_read`: a register of a drive. There is nothing to read when there is no drive. -/
def read (d reg : ℕ) : Option ℕ × Bank :=
  let u := b.units d
  if u.dis = true ∧ reg ≠ 0o4 then (none, b)
  else if u.att = false ∧ reg ≠ 0o4 then (some 0, b)
  else (some (b.readReg d reg).1, (b.readReg d reg).2)

/-! ### Clearing -/

/-- `rp_rst`, with the part of `rh_reset` about the drives. -/
def rst : Bank := { b with units := fun d ↦ (b.units d).rst, attn := 0, rae := 0 }

end Bank

end Ka10Simh.Pdp10.Rp
