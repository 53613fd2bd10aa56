import Ka10Simh.Ibm360.Channel.Unit

/-!
Channel programs: the storage as a channel reads and writes it, and the loading of its commands.

* `ChanCtl`, `Io`, `Sub`: a subchannel, the state of the channels, and the two together.
* `readfull`, `readbuff`, `writebuff`: words of the storage.
* `loadCcw`: the next command.
-/

namespace Ka10Simh.Ibm360

open Word

/-- `STATUS_…`. -/
abbrev statusAttn : ℕ := 0x8000
abbrev statusMod : ℕ := 0x4000
abbrev statusBusy : ℕ := 0x1000
abbrev statusCend : ℕ := 0x0800
abbrev statusDend : ℕ := 0x0400
abbrev statusCheck : ℕ := 0x0200
abbrev statusExpt : ℕ := 0x0100
abbrev statusPci : ℕ := 0x0080
abbrev statusLength : ℕ := 0x0040
abbrev statusPchk : ℕ := 0x0020
abbrev statusProt : ℕ := 0x0010
/-- `ERROR_STATUS`. -/
abbrev errorStatus : ℕ := 0x839f
/-- `FLAG_…`. -/
abbrev flagCd : ℕ := 0x8000
abbrev flagCc : ℕ := 0x4000
abbrev flagSli : ℕ := 0x2000
abbrev flagSkip : ℕ := 0x1000
abbrev flagPci : ℕ := 0x0800
abbrev flagIda : ℕ := 0x0400
/-- `BUFF_…`. -/
abbrev buffEmpty : ℕ := 0x4
abbrev buffDirty : ℕ := 0x8
abbrev buffChnend : ℕ := 0x10
/-- `CMD_TIC`, `CMD_RDBWD`. -/
abbrev cmdTic : ℕ := 0x8
abbrev cmdRdbwd : ℕ := 0xc

/-- `struct _chanctl`; `dev` is the address of the device. -/
structure ChanCtl where
  dev : Option ℕ
  caw : ℕ
  ccwAddr : ℕ
  ccwIaddr : ℕ
  ccwCount : ℕ
  ccwCmd : ℕ
  ccwKey : ℕ
  chanBuf : ℕ
  ccwFlags : ℕ
  chanStatus : ℕ
  daddr : ℕ
  chanByte : ℕ
  chainFlg : Bool
  deriving DecidableEq

/-- What a device is asked. -/
inductive Request
  | startIo (dev : ℕ)
  | startCmd (dev cmd : ℕ)
  | haltIo (dev : ℕ)

/-- The state: the storage with its keys, the subchannels, the status of the devices, and what is pending. `calls`
counts what the devices have been asked, and `looks` has what has been looked at. `blockMux` is the bit of control
register 0 for block multiplexing. -/
structure Io (c : Channels) where
  mem : ℕ → ℕ
  key : ℕ → ℕ
  ctl : ℕ × ℕ → ChanCtl
  devStatus : ℕ → ℕ
  chanPend : ℕ → Bool
  irqPend : Bool
  blockMux : Bool
  loading : ℕ
  calls : ℕ
  looks : List (Look c)

/-- A subchannel, and the rest. -/
structure Sub (c : Channels) where
  chan : ChanCtl
  io : Io c

variable {c : Channels}

namespace Sub

variable (s : Sub c)

/-- Status of the channel that asks for an interruption. -/
def fail (status : ℕ) : Sub c :=
  { chan := { s.chan with chanStatus := s.chan.chanStatus ||| status }, io := { s.io with irqPend := true } }

/-- A look. -/
def look (l : Look c) : Sub c := { s with io := { s.io with looks := l :: s.io.looks } }

/-- The address of the data is an indirect one. -/
def Indirect : Prop := s.chan.ccwFlags &&& flagIda ≠ 0 ∧ c.feat370 = true

instance : Decidable s.Indirect := inferInstanceAs (Decidable (_ ∧ _))

/-- The command reads backward. -/
def Backward : Prop := s.chan.ccwCmd &&& 0xf = cmdRdbwd

instance : Decidable s.Backward := inferInstanceAs (Decidable (_ = _))

/-- The address of the buffer. -/
def bufferAddr : ℕ := if s.Indirect then s.chan.ccwIaddr else s.chan.ccwAddr

/-- The first word of a command, and the second. The flag for the length stays on in a chain of data. -/
def setFirst (cmd : Bool) (word : ℕ) : Sub c :=
  { s with chan := { s.chan with
    caw := s.chan.caw + 4 &&& amask
    ccwCmd := if cmd = true then word >>> 24 &&& 0xff else s.chan.ccwCmd
    ccwAddr := word &&& amask } }

def setSecond (word : ℕ) : Sub c :=
  let sli := if s.chan.ccwFlags &&& (flagCd ||| flagSli) = flagCd ||| flagSli then flagSli else 0
  { s with chan := { s.chan with
    caw := s.chan.caw + 4 &&& amask
    ccwCount := word &&& 0xffff
    ccwFlags := (word >>> 16 ||| sli) &&& 0xff00
    chanByte := buffEmpty } }

end Sub

/-! ### The storage -/

section Storage

variable {addr : ℕ}

/-- An address that the test rejects. -/
def Look.rejected (h : addr &&& amask > c.memsize) : Look c where
  access := .storage addr [] [] true
  right_iff := iff_of_true ⟨fun _ hw => absurd hw List.not_mem_nil, fun _ hk => absurd hk List.not_mem_nil, fun _ => rfl⟩
    (.inr h)

/-- An address that it lets pass, with the entries that are used then. -/
def Look.passed (h : ¬ addr &&& amask > c.memsize) (word key : Bool) : Look c where
  access := .storage addr (if word = true then [addr >>> 2] else []) (if key = true then [addr >>> 11] else []) false
  right_iff := by
    have hsize := c.memsize_le
    have hdvd := c.memsize_dvd
    have hfits : Place.Fits c (.storage addr (if word = true then [addr >>> 2] else [])
        (if key = true then [addr >>> 11] else []) false) ↔ addr < c.memsize := or_iff_left h
    rw [hfits]
    constructor
    · intro hright
      by_contra hge
      exact Bool.false_ne_true (hright.2.2 (Nat.le_of_not_gt hge))
    · intro hlt
      refine ⟨fun w hw => ?_, fun k hk => ?_, fun hge => absurd hlt (Nat.not_lt.mpr hge)⟩
      · split_ifs at hw
        · rw [List.mem_singleton.mp hw, Nat.shiftRight_eq_div_pow]
          omega
        · exact absurd hw List.not_mem_nil
      · split_ifs at hk
        · rw [List.mem_singleton.mp hk, Nat.shiftRight_eq_div_pow, keys]
          omega
        · exact absurd hk List.not_mem_nil

end Storage

/-- A key that does not allow a channel to read, or to write, with the key it has. -/
def fetchProtected (key ccwKey : ℕ) : Prop := key &&& 0x8 ≠ 0 ∧ key &&& 0xf0 ≠ ccwKey
def storeProtected (key ccwKey : ℕ) : Prop := key &&& 0xf0 ≠ ccwKey

instance (key ccwKey : ℕ) : Decidable (fetchProtected key ccwKey) := inferInstanceAs (Decidable (_ ∧ _))
instance (key ccwKey : ℕ) : Decidable (storeProtected key ccwKey) := inferInstanceAs (Decidable (_ ≠ _))

/-- `readfull`: the word, and whether it has failed. -/
def readfull (s : Sub c) (addr : ℕ) : Sub c × ℕ × Bool :=
  if h : addr &&& amask > c.memsize then ((s.look (.rejected h)).fail statusPchk, 0, true)
  else if s.chan.ccwKey ≠ 0 ∧ c.prot = false then ((s.look (.passed h false false)).fail statusProt, 0, true)
  else if s.chan.ccwKey ≠ 0 ∧ fetchProtected (s.io.key (addr >>> 11)) s.chan.ccwKey then
    ((s.look (.passed h false true)).fail statusProt, 0, true)
  else
    let s := s.look (.passed h true true)
    ({ s with io := { s.io with key := Function.update s.io.key (addr >>> 11) (s.io.key (addr >>> 11) ||| 0x4) } },
      s.io.mem (addr >>> 2), false)

/-- `readbuff`. -/
def readbuff (s : Sub c) : Sub c × Bool :=
  let (s, word, failed) := readfull s s.bufferAddr
  let s := { s with chan := { s.chan with chanBuf := word } }
  if failed = true then ({ s with chan := { s.chan with chanByte := buffChnend } }, true) else (s, false)

/-- `writebuff`. -/
def writebuff (s : Sub c) : Sub c × Bool :=
  let addr := s.bufferAddr
  let ended (s : Sub c) : Sub c := { s with chan := { s.chan with chanByte := buffChnend } }
  if h : addr &&& amask > c.memsize then (ended ((s.look (.rejected h)).fail statusPchk), true)
  else if s.chan.ccwKey ≠ 0 ∧ c.prot = false then (ended ((s.look (.passed h false false)).fail statusProt), true)
  else if s.chan.ccwKey ≠ 0 ∧ storeProtected (s.io.key (addr >>> 11)) s.chan.ccwKey then
    (ended ((s.look (.passed h false true)).fail statusProt), true)
  else
    let s := s.look (.passed h true true)
    ({ s with
        io := { s.io with
          key := Function.update s.io.key (addr >>> 11) (s.io.key (addr >>> 11) ||| 0x6)
          mem := Function.update s.io.mem (addr >>> 2) s.chan.chanBuf } }, false)

/-! ### Commands -/

section Commands

variable (device : ℕ → Request → ℕ)

/-- The part of `load_ccw` after `start_cmd`: the command given to the device, when there is one. `chained` says that
the last command was one with command chaining. -/
def startCmd (cmd chained : Bool) (s : Sub c) : Sub c × Bool :=
  let pci (s : Sub c) : Sub c × Bool :=
    if s.chan.ccwFlags &&& flagPci ≠ 0 then
      ({ chan := { s.chan with
          chanStatus := s.chan.chanStatus ||| statusPci, ccwFlags := bic s.chan.ccwFlags flagPci }
         io := { s.io with irqPend := true } }, false)
    else (s, false)
  if cmd = true then
    if s.chan.ccwCmd &&& 0xf = 0 then
      let s := s.fail statusPchk
      ({ s with chan := { s.chan with ccwCmd := 0 } }, true)
    else
      match s.chan.dev with
      | none => (s, true)
      | some dev =>
          if c.attached dev = false then (s, true)
          else
            let status := s.chan.chanStatus &&& 0xff ||| device s.io.calls (.startCmd dev s.chan.ccwCmd) <<< 8
            let s : Sub c :=
              { chan := { s.chan with chanStatus := status }, io := { s.io with calls := s.io.calls + 1 } }
            if status &&& statusBusy ≠ 0 then
              ({ s with chan := { s.chan with chainFlg := s.chan.chainFlg || chained } }, false)
            else if status &&& (statusAttn ||| statusCheck ||| statusExpt) ≠ 0 then
              ({ chan := { s.chan with ccwFlags := 0, ccwCmd := 0 }, io := { s.io with irqPend := true } }, true)
            else if status &&& statusCend ≠ 0 then
              let s : Sub c :=
                { s with chan := { s.chan with ccwCmd := 0, ccwFlags := s.chan.ccwFlags ||| flagSli } }
              pci (if status &&& statusDend ≠ 0 then { s with io := { s.io with irqPend := true } } else s)
            else pci s
  else pci s

/-- The part of `load_ccw` after both words of a command. -/
def wordsRead (cmd chained : Bool) (s : Sub c) : Sub c × Bool :=
  if s.chan.ccwCount = 0 then
    let s := s.fail statusPchk
    ({ s with chan := { s.chan with ccwCmd := 0 } }, true)
  else if s.Indirect then
    let r := readfull s s.chan.ccwAddr
    startCmd device cmd chained { r.1 with chan := { r.1.chan with ccwIaddr := r.2.1 &&& amask } }
  else startCmd device cmd chained s

/-- The part of it after the first word. -/
def secondWord (cmd chained : Bool) (word : ℕ) (s : Sub c) : Sub c × Bool :=
  let s := s.setFirst cmd word
  let r := readfull s s.chan.caw
  wordsRead device cmd chained (r.1.setSecond r.2.1)

/-- The part of `load_ccw` from `loop` on; `tic` is where it goes on after a transfer in channel, if there may be
one. -/
def nextCcw (tic : Option (Sub c → Sub c × Bool)) (s : Sub c) : Sub c × Bool :=
  if s.chan.chainFlg = true ∧ s.chan.ccwFlags &&& flagCd = 0 then
    startCmd device (decide (s.chan.ccwCmd ≠ 0)) true { s with chan := { s.chan with chainFlg := false } }
  else if s.chan.caw &&& 7 ≠ 0 then
    ({ s with chan := { s.chan with chanStatus := s.chan.chanStatus ||| statusPchk } }, true)
  else if s.chan.chanStatus &&& 0x7f ≠ 0 then (s, true)
  else
    let chained := decide (s.chan.ccwFlags &&& flagCc ≠ 0)
    let s : Sub c :=
      if s.chan.chanStatus &&& statusMod ≠ 0 then
        { s with chan := { s.chan with
          caw := s.chan.caw + 8 &&& amask, chanStatus := bic s.chan.chanStatus statusMod } }
      else s
    let r := readfull s s.chan.caw
    if r.2.1 >>> 24 &&& 0xf = cmdTic then
      match tic with
      | some again => again { r.1 with chan := { r.1.chan with caw := r.2.1 &&& amask } }
      | none => (r.1.fail statusPchk, true)
    else secondWord device (decide (r.1.chan.ccwFlags &&& flagCd = 0)) chained r.2.1 r.1

/-- `load_ccw`: whether it has failed. A transfer in channel may not follow another. -/
def loadCcw (ticOk : Bool) : Sub c → Sub c × Bool :=
  nextCcw device (if ticOk = true then some (nextCcw device none) else none)

end Commands

end Ka10Simh.Ibm360
