import Ka10Simh.Lib.Reaches
import Ka10Simh.Pdp10.ChannelHalts
import Ka10Simh.Pdp10.Rp.Outcome

/-!
The RH10 with disk drives: `rh_devio` of `kx10_rh.c` for an RH10, over its data channel.

* `Rh10`: the registers of the interface, with its channel and its drives.
* `cono`, `datao`, `datai`: what the processor sends and asks for.
* `port`, `port_lawful`: the interface as its drives see it.
* `step`: an instruction of the processor, or the event of a drive.
-/

namespace Ka10Simh.Pdp10.Rp

open DataChannel (Df10 Dir clear busy piEnable ccChanAct)

/-! ### The interface -/

/-- The bits of the status and of a condition, besides those of the channel. -/
abbrev iadrAttn : ℕ := 0o40
abbrev iardRae : ℕ := 0o100
abbrev dibCbov : ℕ := 0o200
abbrev contReset : ℕ := 0o2000
abbrev cxrIlc : ℕ := 0o4000
abbrev crDre : ℕ := 0o10000
abbrev dtcOver : ℕ := 0o20000
abbrev ccwComp1 : ℕ := 0o40000
abbrev cxrSdRae : ℕ := 0o200000000
abbrev cxrIlfc : ℕ := 0o400000000
/-- `DBPE_CLR|DR_EXC_CLR|CHN_CLR`. -/
abbrev errorsClr : ℕ := 0o700000
/-- `LOAD_REG`. -/
abbrev loadReg : ℕ := 0o4000000000

/-- An RH10 with its channel and its drives. `ch.irq` is the interrupt. -/
structure Rh10 where
  ch : Df10
  bank : Bank
  reg : ℕ
  drive : ℕ
  xferDrive : ℕ
  ivect : ℕ
  imode : ℕ

namespace Rh10

/-- The status, and the interrupt, changed. -/
def setStatus (f : ℕ → ℕ) (s : Rh10) : Rh10 := { s with ch := { s.ch with status := f s.ch.status } }
def setIrq (irq : Bool) (s : Rh10) : Rh10 := { s with ch := { s.ch with irq := irq } }

/-- `rh_setirq` and `rh_setattn`. -/
def setirq (s : Rh10) : Rh10 := (s.setStatus (· ||| piEnable)).setIrq true
def setattn (d : ℕ) (s : Rh10) : Rh10 :=
  let s := { s with bank := s.bank.attend d }
  if s.ch.status &&& iadrAttn ≠ 0 then s.setIrq true else s

/-- `rh_reset` and `rp_rst`. -/
def reset (s : Rh10) : Rh10 :=
  { s with ch := { s.ch with status := 0, wcr := 0, cda := 0 }, drive := 0, bank := s.bank.rst }

/-! ### Instructions -/

section Devio

variable (c : DataChannel.Config)

/-- `CONO`. -/
def cono (data : ℕ) (s : Rh10) : Rh10 :=
  let s := s.setIrq false
  let s := s.setStatus fun status ↦ clear status 0o147 ||| data &&& 0o147
  let s := if data &&& contReset ≠ 0 then s.reset.setStatus (· &&& 0o147) else s
  let s := s.setStatus (clear · (data &&& errorsClr))
  let s := if data &&& 0o20000 ≠ 0 then s.setStatus (clear · dtcOver) else s
  let s := if data &&& 0o200 ≠ 0 then s.setStatus (clear · dibCbov) else s
  let s := if data &&& cxrIlc ≠ 0 then s.setStatus (clear · (cxrIlfc ||| cxrSdRae)) else s
  let s := if data &&& 0o10000 ≠ 0 then s.setStatus (clear · crDre) else s
  let s := if data &&& 0o40000 ≠ 0 then
      { s with ch := DataChannel.writecw c s.ch }.setStatus (· ||| ccwComp1)
    else s
  let s := if data &&& piEnable ≠ 0 then s.setStatus (clear · piEnable) else s
  if s.ch.status &&& piEnable ≠ 0 ∨ s.ch.status &&& iadrAttn ≠ 0 ∧ s.bank.attn ≠ 0 then s.setIrq true else s

/-- The interrupt at the end of `DATAO`. -/
def lastIrq (s : Rh10) : Rh10 :=
  s.setIrq (decide (s.ch.status &&& (iadrAttn ||| busy) = iadrAttn ∧ s.bank.attn ≠ 0 ∨ s.ch.status &&& piEnable ≠ 0))

/-- The command of a transfer: it is given to the drive, and the transfer is on if there is a drive. The drive may have
refused the command. -/
def transferCommand (data : ℕ) (s : Rh10) : Rh10 :=
  let drive := data >>> 18 &&& 0o7
  let s := { s with drive := drive }
  if s.bank.rae.testBit drive = true then s
  else
    let (gone, bank) := s.bank.write drive 0 (data &&& 0o77)
    let s := { s with bank := bank }
    (if gone = true then s.setStatus (· ||| crDre)
    else { s with ch := DataChannel.setup (data >>> 6 % 2 ^ 32) s.ch, xferDrive := drive }).lastIrq

/-- `DATAO`. -/
def datao (data : ℕ) (s : Rh10) : Rh10 :=
  let reg := data >>> 30 &&& 0o77
  let drive := data >>> 18 &&& 0o7
  let s := { s with reg := reg, imode := clear s.imode 2, drive := if reg < 0o40 ∧ reg ≠ 0o4 then drive else s.drive }
  if data &&& loadReg = 0 then s.lastIrq
  else if reg = 0o40 then
    if data &&& 1 = 0 then s
    else if s.ch.status &&& busy ≠ 0 then s.setStatus (· ||| ccChanAct)
    else
      let s := s.setStatus (clear · (ccwComp1 ||| piEnable))
      if getFnc data < fncXfer then (s.setStatus (· ||| cxrIlc)).setirq else s.transferCommand data
  else if reg = 0o44 then { s with ivect := data &&& 0o777, imode := if data &&& 0o2000000 ≠ 0 then 1 else 0 }.lastIrq
  else if reg = 0o54 then { s with bank := { s.bank with rae := clear s.bank.rae (data &&& 0o377) } }.lastIrq
  else if reg < 0o40 then
    let s := { s with drive := drive }
    if s.bank.rae.testBit drive = true then s
    else
      let (gone, bank) := s.bank.write drive reg (data &&& 0o777777)
      let s := { s with bank := bank }
      (if gone = true then s.setStatus (· ||| crDre) else s).lastIrq
  else s.lastIrq

/-- `DATAI`, without the word that is given. -/
def datai (s : Rh10) : Rh10 :=
  if s.reg = 0o40 then
    let (data, bank) := s.bank.read s.drive 0
    let s := { s with bank := bank }
    if data = none then s.setStatus (· ||| crDre) else s
  else if s.reg < 0o40 then
    let (data, bank) := s.bank.read s.drive s.reg
    let s := { s with bank := bank }
    if data = none then
      { s with bank := { s.bank with rae := s.bank.rae ||| 1 <<< s.drive } }.setStatus (· ||| crDre)
    else s
  else s

/-! ### Drives -/

/-- The interface as its drives see it. There is no second command. -/
def port (fuel : ℕ) : Ctl Rh10 where
  bank := Rh10.bank
  setBank b s := { s with bank := b }
  buf s := s.ch.buf
  setBuf w s := { s with ch := { s.ch with buf := w } }
  setattn := setattn
  setirq := setirq
  finishOp s := { s with ch := DataChannel.finishOp c 0 s.ch }
  blkend s := (false, s)
  transfer dir s := (DataChannel.transfer c dir.access dir.skip fuel s.ch).map fun (more, ch) => (more, { s with ch := ch })
  waits _ := none
  busy s := s.ch.status.testBit 4
  xferDrive := xferDrive
  requested s := s.ch.irq = true

/-- An instruction of the processor, and the event of a drive. -/
inductive Event
  | cono (data : ℕ)
  | datao (data : ℕ)
  | datai
  | service (d : ℕ)

/-- A step. -/
def step (fuel : ℕ) (s : Rh10) : Event → Option Rh10
  | .cono data => some (s.cono c data)
  | .datao data => some (s.datao data)
  | .datai => some s.datai
  | .service d => if d < 8 then (port c fuel).service d s else none

end Devio

/-! ### The channel -/

/-- Bit 4 of the status is `BUSY`. -/
def isBusy (s : Df10) : Bool := s.status.testBit 4

/-- A word that is moved leaves the status; one that is not ends the transfer. -/
def Follows (more : Bool) (s t : Df10) : Prop :=
  (more = true → t.status = s.status) ∧ (more = false → isBusy t = false)

section Channel

variable {wide : Bool} {memsize fuel : ℕ} {s t : Df10} {more : Bool}

lemma finishOp_busy (flags : ℕ) (s : Df10) : isBusy (DataChannel.finishOp (DataChannel.rh10 wide memsize) flags s) = false := by
  have hquit : ∀ flags status, (((DataChannel.rh10 wide memsize).quit flags status) ||| piEnable).testBit 4 = false := by
    intro flags status
    have hbic : (DataChannel.rh10 wide memsize).quit flags status
        = Word.bic (Word.bic status (2 ^ 31)) (2 ^ 4) ||| if flags ≠ 0 then 2 ^ 18 else 0 := rfl
    rw [hbic, show piEnable = 2 ^ 3 from rfl, Nat.testBit_or, Nat.testBit_or, Word.testBit_bic, Nat.testBit_two_pow_self,
      Bool.not_true, Bool.and_false]
    split_ifs <;> decide
  rw [DataChannel.finishOp, DataChannel.writecw, isBusy]
  dsimp only
  split_ifs <;> exact hquit _ _

lemma follows_finish (flags : ℕ) : Follows false s (DataChannel.finishOp (DataChannel.rh10 wide memsize) flags t) :=
  ⟨fun h ↦ absurd h Bool.false_ne_true, fun _ ↦ finishOp_busy flags t⟩

lemma follows_word (h : t.status = s.status) : Follows true s t := ⟨fun _ ↦ h, fun h ↦ absurd h.symm Bool.false_ne_true⟩

lemma fetchLoop_follows {n data : ℕ} (h : DataChannel.fetchLoop (DataChannel.rh10 wide memsize) n data s = some (more, t)) :
    Follows more s t := by
  induction n generalizing data s with
  | zero => exact absurd h (by simp [DataChannel.fetchLoop])
  | succ n ih =>
      rw [DataChannel.fetchLoop] at h
      dsimp only at h
      split_ifs at h
      · obtain ⟨rfl, rfl⟩ := Prod.mk.inj (Option.some.inj h)
        exact follows_finish _
      · have hloop := ih h
        exact hloop
      · obtain ⟨rfl, rfl⟩ := Prod.mk.inj (Option.some.inj h)
        exact follows_finish _
      · obtain ⟨rfl, rfl⟩ := Prod.mk.inj (Option.some.inj h)
        exact follows_word rfl

lemma fetch_follows (h : DataChannel.fetch (DataChannel.rh10 wide memsize) fuel s = some (more, t)) : Follows more s t := by
  rw [DataChannel.fetch] at h
  split_ifs at h
  · exact fetchLoop_follows h
  · obtain ⟨rfl, rfl⟩ := Prod.mk.inj (Option.some.inj h)
    exact follows_finish _

lemma word_follows (dir : Dir) (s : Df10) : Follows (DataChannel.word (DataChannel.rh10 wide memsize) dir s).1 s
    (DataChannel.word (DataChannel.rh10 wide memsize) dir s).2 := by
  rw [DataChannel.word]
  dsimp only
  split_ifs
  · exact follows_finish _
  · cases dir <;> exact follows_word rfl
  · exact follows_finish _
  · cases dir <;> exact follows_word rfl

lemma transfer_follows (dir : Dir)
    (h : DataChannel.transfer (DataChannel.rh10 wide memsize) dir.access dir.skip fuel s = some (more, t)) :
    Follows more s t := by
  rw [DataChannel.transfer_eq] at h
  refine Fuel.served_keeps (fun s ↦ follows_word rfl) (fun hst htu ↦ ?_) fetch_follows (word_follows dir) h
  exact ⟨fun hm ↦ (htu.1 hm).trans (hst.1 rfl), htu.2⟩

end Channel

/-! ### The interface and its drives -/

section Drives

variable {wide : Bool} {memsize fuel : ℕ}

lemma same_rfl (s : Rh10) (b : Bank) : (port (DataChannel.rh10 wide memsize) fuel).Same s { s with bank := b } :=
  ⟨rfl, rfl, rfl⟩

lemma setattn_bank (d : ℕ) (s : Rh10) : (s.setattn d).bank = s.bank.attend d := by
  rw [setattn]
  split_ifs <;> rfl

lemma setattn_same (d : ℕ) (s : Rh10) : (port (DataChannel.rh10 wide memsize) fuel).Same s (s.setattn d) := by
  rw [setattn]
  split_ifs <;> exact ⟨rfl, rfl, rfl⟩

lemma setirq_busy (s : Rh10) : isBusy s.setirq.ch = isBusy s.ch := by
  show (s.ch.status ||| piEnable).testBit 4 = s.ch.status.testBit 4
  rw [Nat.testBit_or, show piEnable.testBit 4 = false by decide, Bool.or_false]

/-- The interface does to its drives what is expected of it. -/
lemma port_lawful : (port (DataChannel.rh10 wide memsize) fuel).Lawful where
  bank_setBank _ _ := rfl
  same_setBank b s := same_rfl s b
  setBuf _ _ := ⟨⟨rfl, rfl, rfl⟩, rfl⟩
  bank_setattn := setattn_bank
  same_setattn := setattn_same
  setirq s := ⟨⟨rfl, setirq_busy s, rfl⟩, rfl⟩
  blkend _ := ⟨⟨rfl, rfl, rfl⟩, rfl⟩
  moved dir s t h := by
    obtain ⟨⟨more, ch⟩, hch, heq⟩ := Option.map_eq_some_iff.mp h
    obtain ⟨rfl, rfl⟩ := Prod.mk.inj heq
    have hstatus := (transfer_follows dir hch).1 rfl
    exact ⟨⟨rfl, congrArg (Nat.testBit · 4) hstatus, rfl⟩, rfl⟩
  stopped dir s t h := by
    obtain ⟨⟨more, ch⟩, hch, heq⟩ := Option.map_eq_some_iff.mp h
    obtain ⟨rfl, rfl⟩ := Prod.mk.inj heq
    exact .inl ⟨rfl, rfl, rfl, .inr ((transfer_follows dir hch).2 rfl)⟩
  finishOp s := ⟨rfl, .inl ⟨rfl, rfl, finishOp_busy 0 s.ch⟩⟩

/-- The register that `DATAO` writes, if it writes one. -/
def sends (s : Rh10) (data : ℕ) : Option (ℕ × ℕ × ℕ) :=
  let reg := data >>> 30 &&& 0o77
  let drive := data >>> 18 &&& 0o7
  if data &&& loadReg = 0 ∨ s.bank.rae.testBit drive = true then none
  else if reg = 0o40 then
    if data &&& 1 = 0 ∨ s.ch.status &&& busy ≠ 0 ∨ getFnc data < fncXfer then none else some (drive, 0, data &&& 0o77)
  else if reg < 0o40 then some (drive, reg, data &&& 0o777777)
  else none

end Drives

end Rh10

end Ka10Simh.Pdp10.Rp
