import Ka10Simh.Ibm360.Channel.Transfer
import Ka10Simh.Lib.Reaches

/-!
The instructions for the channels, what the devices call, and the scan for interruptions.

* `startio`, `testio`, `haltio`, `testchan`: SIO, TIO, HIO and TCH, with the condition code.
* `setDevattn`: a device that wants attention.
* `scanChan`: the scan.
* `Event`, `Io.step`: what happens.
-/

namespace Ka10Simh.Ibm360

open Word

variable {c : Channels}

/-- `SNS_…`. -/
abbrev snsAttn : ℕ := 0x80
abbrev snsChnend : ℕ := 0x08
abbrev snsDevend : ℕ := 0x04
/-- `PMASK`. -/
abbrev pmask : ℕ := 0xf0000000

namespace Io

variable (s : Io c)

/-- Looks. -/
def lookAt (l : List (Look c)) : Io c := { s with looks := l ++ s.looks }

/-- A subchannel with the rest. -/
def sub (p : ℕ × ℕ) : Sub c := ⟨s.ctl p, s⟩

/-- The words of the channel status word, with the key of their page. -/
def setCsw (first second : ℕ) : Io c :=
  { s with
    mem := Function.update (Function.update s.mem 0x10 first) 0x11 second
    key := Function.update s.key 0 (s.key 0 ||| 0x6) }

/-- The status half of it alone. -/
def setCswStatus (status : ℕ) : Io c := s.setCsw (s.mem 0x10) (status <<< 16 ||| s.mem 0x11 &&& 0xffff)

end Io

/-- A subchannel put back. -/
def Sub.put (t : Sub c) (p : ℕ × ℕ) : Io c := { t.io with ctl := Function.update t.io.ctl p t.chan }

/-- `store_csw`. -/
def storeCsw (t : Sub c) : Sub c :=
  { chan := { t.chan with
      chanStatus := if t.chan.chanStatus &&& statusPci ≠ 0 then bic t.chan.chanStatus statusPci else 0
      ccwFlags := bic t.chan.ccwFlags flagPci }
    io := t.io.setCsw (t.chan.ccwKey <<< 24 ||| t.chan.caw) (t.chan.ccwCount ||| t.chan.chanStatus <<< 16) }

/-- A subchannel that is active. -/
def ChanCtl.Active (k : ChanCtl) : Prop := k.ccwCmd ≠ 0 ∨ k.ccwFlags &&& (flagCd ||| flagCc) ≠ 0

instance (k : ChanCtl) : Decidable k.Active := inferInstanceAs (Decidable (_ ∨ _))

/-! ### Instructions -/

/-- `find_device` and `find_subchan`, as the instructions use them: the device and the subchannel, when both are
there, and the state with the looks. -/
def findBoth (addr : ℕ) (s : Io c) : Option (ℕ × (ℕ × ℕ)) × Io c :=
  let (dev, looks) := findDevice c addr
  let s := s.lookAt looks
  let (chan, looks) := findSubchan c s.blockMux addr
  let s := s.lookAt looks
  match dev, chan with
  | some dev, some chan => (if c.attached dev = true then some (dev, chan) else none, s)
  | _, _ => (none, s)

section Instructions

variable (device : ℕ → Request → ℕ)

/-- The end of `startio`: the status is stored, and the subchannel released when the command has not been started. -/
def startEnd (addr : ℕ) (release : Bool) (p : ℕ × ℕ) (store : Io c → ℕ → Io c) (t : Sub c) : Io c :=
  let io := store t.io t.chan.chanStatus
  let chan := { t.chan with chanStatus := 0 }
  if release = true then
    Sub.put ⟨{ chan with ccwCmd := 0, daddr := noDev, dev := none },
      { io with devStatus := Function.update io.devStatus addr 0 }⟩ p
  else Sub.put ⟨chan, io⟩ p

/-- The part of `startio` after the device has been asked: the channel program is started. -/
def startProgram (addr dev : ℕ) (p : ℕ × ℕ) (s : Io c) : Io c × ℕ :=
  let word := s.mem 0x12
  let s := { s with
    key := Function.update s.key 0 (s.key 0 ||| 0x4), devStatus := Function.update s.devStatus addr 0 }
  let chan := { s.ctl p with
    chanStatus := 0, caw := word &&& amask, ccwKey := (word &&& pmask) >>> 24, daddr := addr, dev := some dev }
  let (t, failed) := loadCcw device false ⟨chan, s⟩
  if failed = true then (startEnd addr true p Io.setCswStatus t, 1)
  else if t.chan.chanStatus &&& statusBusy ≠ 0 then
    (startEnd addr true p (fun io status => io.setCsw 0 (status <<< 16)) t, 1)
  else if t.chan.chanStatus &&& statusCend ≠ 0 ∧ t.chan.ccwFlags &&& flagCc = 0 then
    (startEnd addr false p (fun io status => io.setCsw 0 (status <<< 16)) t, 1)
  else (t.put p, 0)

/-- `startio`. -/
def startio (addr : ℕ) (s : Io c) : Io c × ℕ :=
  match findBoth addr s with
  | (none, s) => (s, 3)
  | (some (dev, p), s) =>
      let k := s.ctl p
      if k.daddr = addr ∧ k.chanStatus ≠ 0 then ((storeCsw (s.sub p)).put p, 1)
      else if k.Active ∨ k.chanStatus ≠ 0 then (s, 2)
      else
        let pending := s.devStatus addr
        let s : Io c :=
          if pending = snsDevend ∨ pending = snsDevend ||| snsChnend then
            { s with devStatus := Function.update s.devStatus addr 0 }
          else s
        if s.devStatus addr ≠ 0 then
          let s := s.setCsw 0 (s.devStatus addr <<< 24)
          ({ s with devStatus := Function.update s.devStatus addr 0 }, 1)
        else if c.hasStartIo dev = true then
          let status := device s.calls (.startIo dev) <<< 8
          let s := { s with calls := s.calls + 1 }
          if status &&& statusBusy ≠ 0 then (s, 2)
          else if status ≠ 0 then
            ({ s with mem := Function.update s.mem 0x11 (status <<< 16 ||| s.mem 0x11 &&& 0xffff) }, 1)
          else startProgram device addr dev p s
        else startProgram device addr dev p s

/-- The loop of `testio`: whether another device of the subchannel has a status. -/
def testOthers (p : ℕ × ℕ) : List ℕ → Io c → Bool × Io c
  | [], s => (false, s)
  | dev :: devs, s =>
      if s.devStatus dev ≠ 0 then
        let (chan, looks) := findSubchan c s.blockMux dev
        let s := s.lookAt looks
        if chan = some p then (true, s) else testOthers p devs s
      else testOthers p devs s

/-- The part of `testio` that asks the device. -/
def testDevice (dev : ℕ) (s : Io c) : Io c × ℕ :=
  let status := device s.calls (.startCmd dev 0) <<< 8
  let s := { s with calls := s.calls + 1 }
  if status &&& errorStatus ≠ 0 then (s.setCswStatus status, 1)
  else if status &&& statusBusy ≠ 0 then (s, 2)
  else (s, 0)

/-- `testio`. -/
def testio (addr : ℕ) (s : Io c) : Io c × ℕ :=
  match findBoth addr s with
  | (none, s) => (s, 3)
  | (some (dev, p), s) =>
      let k := s.ctl p
      if k.chanStatus &&& errorStatus ≠ 0 then ((storeCsw (s.sub p)).put p, 1)
      else if k.Active then (s, 2)
      else if k.chanStatus ≠ 0 then
        let t := storeCsw (s.sub p)
        (Sub.put { t with chan := { t.chan with daddr := noDev, dev := none } } p, 1)
      else if s.devStatus addr ≠ 0 then
        let s := s.setCsw 0 (s.devStatus addr <<< 24)
        ({ s with devStatus := Function.update s.devStatus addr 0 }, 1)
      else if s.chanPend (addr >>> 8 &&& 0xf) = true then
        let first := addr &&& 0xf00
        let (found, s) := testOthers p ((List.range ((addr ||| 0xff) - first)).map (first + ·)) s
        if found = true then ({ s with irqPend := true }, 2) else testDevice device dev s
      else testDevice device dev s

/-- `haltio`. -/
def haltio (addr : ℕ) (s : Io c) : Io c × ℕ :=
  match findBoth addr s with
  | (none, s) => (s, 3)
  | (some (dev, p), s) =>
      let k := s.ctl p
      if k.chanStatus &&& errorStatus ≠ 0 then (s, 0)
      else
        let s : Io c :=
          if k.ccwCmd ≠ 0 then
            Sub.put ⟨{ k with chanByte := buffChnend, ccwFlags := bic k.ccwFlags (flagCd ||| flagCc) }, s⟩ p
          else s
        if c.hasHaltIo dev = true then
          let cc := device s.calls (.haltIo dev)
          let s := { s with calls := s.calls + 1 }
          (if cc = 1 then s.setCswStatus k.chanStatus else s, cc)
        else (s.setCswStatus k.chanStatus, 1)

end Instructions

/-- `testchan`. -/
def testchan (channel : ℕ) (s : Io c) : Io c × ℕ :=
  let chan := channel >>> 8 &&& 0xf
  if h : chan > maxChan then (s, 3)
  else
    let u := c.units chan
    let s := s.lookAt [.ofUnit h]
    if u.disabled = true then (s, 3)
    else if u.ctype = .mux then (s, 0)
    else if u.ctype = .bmux ∧ c.feat370 = true ∧ s.blockMux = true then (s, 0)
    else
      let s := s.lookAt [.ofSubchan (schans_pos u)]
      let k := s.ctl (chan, 0)
      if k.Active then (s, 2) else if k.chanStatus ≠ 0 then (s, 1) else (s, 0)

/-! ### Devices -/

/-- `set_devattn`. -/
def setDevattn (addr flags : ℕ) (s : Io c) : Io c :=
  match findSubchan c s.blockMux addr with
  | (none, looks) => s.lookAt looks
  | (some p, looks) =>
      let s := s.lookAt looks
      let k := s.ctl p
      let s : Io c :=
        if k.daddr = addr ∧ (k.chainFlg = true ∨ k.chanStatus &&& statusCend ≠ 0) ∧ flags &&& snsDevend ≠ 0 then
          Sub.put ⟨{ k with chanStatus := k.chanStatus ||| flags <<< 8 }, s⟩ p
        else
          { s with
            devStatus := Function.update s.devStatus addr flags
            chanPend := Function.update s.chanPend (addr >>> 8 &&& 0xf) true }
      { s with irqPend := true }

/-- What a device does with its subchannel, when it has one. -/
def withSubchan {α : Type} (addr : ℕ) (none : α) (f : Sub c → Sub c × α) (s : Io c) : Io c × α :=
  match findSubchan c s.blockMux addr with
  | (.none, looks) => (s.lookAt looks, none)
  | (some p, looks) =>
      let s := s.lookAt looks
      let (t, r) := f (s.sub p)
      (t.put p, r)

/-! ### The scan -/

section Scan

variable (device : ℕ → Request → ℕ) (mask : ℕ) (irqEn : Bool)

/-- The subchannels that the scan looks at. -/
def scanned (s : Io c) : List (ℕ × ℕ) :=
  (List.range maxChan).flatMap fun i =>
    let u := c.units i
    if u.disabled = true then []
    else
      (List.range (match u.ctype with
        | .sel => 1
        | .bmux => if c.feat370 = true ∧ s.blockMux = true then 32 else 1
        | .mux => u.subs)).map fun j => (i, j)

/-- A channel that may interrupt. -/
def Enabled (i : ℕ) : Prop := 0x8000 >>> i &&& mask ≠ 0

instance (i : ℕ) : Decidable (Enabled mask i) := inferInstanceAs (Decidable (_ ≠ _))

/-- The scan of a subchannel: whether it is the one that interrupts. -/
def scanSub (p : ℕ × ℕ) (s : Io c) : Io c × Bool :=
  let k := s.ctl p
  if k.daddr = noDev then (s, false)
  else if irqEn = true ∧ k.chanStatus &&& statusPci ≠ 0 ∧ Enabled mask p.1 then (s, true)
  else
    let t := s.sub p
    let t := if k.chainFlg = true ∧ k.chanStatus &&& statusDend ≠ 0 then (loadCcw device true t).1 else t
    if t.chan.chanStatus &&& statusDend ≠ 0 then
      if t.chan.ccwFlags &&& flagCc ≠ 0 then
        let t := (loadCcw device true t).1
        (t.put p, false)
      else
        (t.put p, decide ((irqEn = true ∨ t.io.loading ≠ 0) ∧ (Enabled mask p.1 ∨ t.io.loading ≠ 0)))
    else (t.put p, false)

/-- The loop over the subchannels: the one that interrupts. -/
def scanSubs : List (ℕ × ℕ) → Io c → Io c × Option (ℕ × ℕ)
  | [], s => (s, none)
  | p :: ps, s =>
      let (s, found) := scanSub device mask irqEn p s
      if found = true then (s, some p) else scanSubs ps s

/-- The loop over the devices of a channel: the first that has a status. -/
def findStatus (s : Io c) (j : ℕ) : Option ℕ :=
  ((List.range 256).map (j <<< 8 ||| ·)).find? fun dev => s.devStatus dev ≠ 0

/-- The loop over the channels for the status of devices. -/
def scanDevices : List ℕ → Io c → Io c × ℕ
  | [], s => (s, noDev)
  | j :: js, s =>
      if s.chanPend j = false ∨ ¬ Enabled mask j then scanDevices js s
      else
        match findStatus s j with
        | none => scanDevices js { s with chanPend := Function.update s.chanPend j false }
        | some dev =>
            let s := s.setCsw 0 (s.devStatus dev <<< 24)
            ({ s with irqPend := true, devStatus := Function.update s.devStatus dev 0 }, dev)

/-- `scan_chan`: the state and the address of the device that interrupts. -/
def scanChan (s : Io c) : Io c × ℕ :=
  if s.irqPend = false then (s, noDev)
  else
    let (s, pend) := scanSubs device mask irqEn (scanned s) { s with irqPend := false }
    match pend with
    | some p =>
        let k := s.ctl p
        if s.loading ≠ 0 ∧ s.loading ≠ k.daddr then (s, noDev)
        else if s.loading ≠ 0 then
          let s := { s with irqPend := true }
          (Sub.put ⟨{ k with chanStatus := 0 }, s⟩ p, k.daddr)
        else
          let t := storeCsw (({ s with irqPend := true } : Io c).sub p)
          let s := t.put p
          ({ s with devStatus := Function.update s.devStatus k.daddr 0 }, k.daddr)
    | none =>
        if s.loading ≠ 0 then (s, noDev)
        else if irqEn = true then scanDevices mask (List.range maxChan) s
        else (s, noDev)

end Scan

/-! ### Runs -/

/-- What happens: the instructions, what the devices call, a scan, and anything else that the CPU does to the storage,
the keys, the bit of control register 0 and the pending flag. -/
inductive Event where
  | sio (addr : ℕ)
  | tio (addr : ℕ)
  | hio (addr : ℕ)
  | tch (addr : ℕ)
  | readByte (addr : ℕ)
  | writeByte (addr data : ℕ)
  | finish (addr flags : ℕ)
  | attention (addr flags : ℕ)
  | scan (mask : ℕ) (irqEn : Bool)
  | cpu (mem key : ℕ → ℕ) (blockMux irqPend : Bool)

/-- A step. -/
def Io.step (device : ℕ → Request → ℕ) (s : Io c) : Event → Io c
  | .sio addr => (startio device addr s).1
  | .tio addr => (testio device addr s).1
  | .hio addr => (haltio device addr s).1
  | .tch addr => (testchan addr s).1
  | .readByte addr =>
      (withSubchan addr (0, true) (fun t => ((chanReadByte device t).1, (chanReadByte device t).2)) s).1
  | .writeByte addr data => (withSubchan addr true (chanWriteByte device data) s).1
  | .finish addr flags => (withSubchan addr () (fun t => (chanEnd flags t, ())) s).1
  | .attention addr flags => setDevattn addr flags s
  | .scan mask irqEn => (scanChan device mask irqEn s).1
  | .cpu mem key blockMux irqPend => { s with mem, key, blockMux, irqPend }

end Ka10Simh.Ibm360
