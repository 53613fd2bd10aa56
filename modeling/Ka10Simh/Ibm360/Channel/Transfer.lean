import Ka10Simh.Ibm360.Channel.Ccw

/-!
Bytes between a device and the storage, through the buffer of a subchannel.

The buffer has a word. `chanByte` is the byte of it that is next, with a flag for a word that has been changed; it is
`buffEmpty` when there is none and `buffChnend` when the transfer has come to its end.

* `chanReadByte`, `chanWriteByte`: the next byte for the device, and from it.
* `chanEnd`: the end of the transfer.
-/

namespace Ka10Simh.Ibm360

open Word

variable {c : Channels}

/-- Words of 32 and 16 bits: sums and differences. -/
def add32 (a b : ℕ) : ℕ := (a + b) % 2 ^ 32
def sub32 (a b : ℕ) : ℕ := (a + 2 ^ 32 - b) % 2 ^ 32
def dec16 (a : ℕ) : ℕ := (a + 0xffff) % 2 ^ 16

namespace Sub

variable (s : Sub c)

/-- The next indirect address of the list. -/
def nextIdaw : Sub c :=
  let s := { s with chan := { s.chan with ccwAddr := add32 s.chan.ccwAddr 4 } }
  let (s, temp, _) := readfull s s.chan.ccwAddr
  { s with chan := { s.chan with ccwIaddr := temp &&& amask } }

/-- The address of the data moved on, and the indirect one; `crossed` tells when that is in the next page. -/
def setAddr (addr : ℕ) : Sub c := { s with chan := { s.chan with ccwAddr := addr } }
def setIaddr (iaddr : ℕ) (crossed : ℕ → Prop) [DecidablePred crossed] : Sub c :=
  let s := { s with chan := { s.chan with ccwIaddr := iaddr } }
  if crossed (iaddr &&& 0x7ff) then s.nextIdaw else s

/-- The byte at which the buffer is used. -/
def setByte (byte : ℕ) : Sub c := { s with chan := { s.chan with chanByte := byte } }

end Sub

/-! ### To the device -/

/-- The buffer filled from the storage, and the address moved on to the next word. -/
def fillRead (s : Sub c) : Sub c × Bool :=
  let (s, failed) := readbuff s
  if failed = true then (s, true)
  else if s.Indirect then
    let byte := s.chan.ccwIaddr &&& 3
    ((s.setByte byte).setIaddr (add32 s.chan.ccwIaddr (4 - byte)) (· = 0), false)
  else
    let byte := s.chan.ccwAddr &&& 3
    ((s.setByte byte).setAddr (add32 s.chan.ccwAddr (4 - byte)), false)

section Transfer

variable (device : ℕ → Request → ℕ)

/-- The part of `chan_read_byte` that takes a byte from the buffer; the next command is loaded when there is data
chaining. -/
def takeByte (s : Sub c) : Sub c × ℕ × Bool :=
  let byte := s.chan.chanBuf >>> (8 * (3 - (s.chan.chanByte &&& 3))) &&& 0xff
  let s : Sub c :=
    { s with chan := { s.chan with ccwCount := dec16 s.chan.ccwCount, chanByte := s.chan.chanByte + 1 } }
  if s.chan.ccwCount = 0 ∧ s.chan.ccwFlags &&& flagCd ≠ 0 then
    let (s, failed) := loadCcw device true (s.setByte buffEmpty)
    (s, byte, failed)
  else (s, byte, false)

/-- The part of `chan_read_byte` for a count of zero: whether there is no more data. -/
def countRead (s : Sub c) : Sub c × Bool :=
  if s.chan.ccwCount = 0 then
    if s.chan.ccwFlags &&& flagCd = 0 then
      ({ s with chan := { s.chan with chanStatus := s.chan.chanStatus ||| statusCend, chanByte := buffChnend } }, true)
    else loadCcw device true s
  else (s, false)

/-- `chan_read_byte`: the byte, and whether there is none. -/
def chanReadByte (s : Sub c) : Sub c × ℕ × Bool :=
  if s.chan.chanStatus &&& 0x7f ≠ 0 then (s, 0, true)
  else if s.chan.ccwCmd &&& 1 = 0 then (s, 0, true)
  else if s.chan.chanByte = buffChnend then (s, 0, true)
  else
    let (s, ended) := countRead device s
    if ended = true then (s, 0, true)
    else
      let (s, failed) := if s.chan.chanByte = buffEmpty then fillRead s else (s, false)
      if failed = true then (s, 0, true) else takeByte device s

/-! ### From the device -/

/-- The part of `chan_write_byte` for a byte that is skipped. -/
def skipByte (s : Sub c) : Sub c :=
  let s : Sub c := { s with chan := { s.chan with ccwCount := dec16 s.chan.ccwCount, chanByte := buffEmpty } }
  if s.Indirect then
    if s.Backward then s.setIaddr (sub32 s.chan.ccwIaddr 1) (· = 0x7ff)
    else s.setIaddr (add32 s.chan.ccwIaddr 1) (· = 0)
  else if s.Backward then s.setAddr (sub32 s.chan.ccwAddr 1)
  else s.setAddr (add32 s.chan.ccwAddr 1)

/-- The part of `chan_write_byte` for a word that is full: it is written and the address moved on to the next. -/
def saveWord (s : Sub c) : Sub c × Bool :=
  let (s, failed) := writebuff s
  if failed = true then (s, true)
  else
    let s : Sub c :=
      if s.Indirect then
        if s.Backward then s.setIaddr (sub32 s.chan.ccwIaddr (1 + (s.chan.ccwIaddr &&& 3))) (· = 0x7fc)
        else s.setIaddr (add32 s.chan.ccwIaddr (4 - (s.chan.ccwIaddr &&& 3))) (· = 0)
      else if s.Backward then s.setAddr (sub32 s.chan.ccwAddr (1 + (s.chan.ccwAddr &&& 3)))
      else s.setAddr (add32 s.chan.ccwAddr (4 - (s.chan.ccwAddr &&& 3)))
    (s.setByte buffEmpty, false)

/-- The buffer filled from the storage, for bytes that are put into it. -/
def fillWrite (s : Sub c) : Sub c × Bool :=
  let (s, failed) := readbuff s
  if failed = true then (s, true) else (s.setByte (s.bufferAddr &&& 3), false)

/-- A byte put into a word. -/
def storeByte (word byte data : ℕ) : ℕ :=
  let offset := 8 * (byte &&& 3)
  bic word (0xff000000 >>> offset) ||| data <<< (24 - offset)

/-- The part of `chan_write_byte` that puts the byte into the buffer; the next command is loaded when there is data
chaining. -/
def putByte (data : ℕ) (s : Sub c) : Sub c × Bool :=
  let byte := s.chan.chanByte
  let next :=
    if s.Backward then if byte &&& 3 ≠ 0 then byte - 1 else buffEmpty else byte + 1
  let s : Sub c :=
    { s with chan := { s.chan with
      ccwCount := dec16 s.chan.ccwCount
      chanBuf := storeByte s.chan.chanBuf byte data
      chanByte := next ||| buffDirty } }
  if s.chan.ccwCount = 0 ∧ s.chan.ccwFlags &&& flagCd ≠ 0 then
    let (s, failed) := writebuff s
    if failed = true then (s, true) else loadCcw device true (s.setByte buffEmpty)
  else (s, false)

/-- The length is wrong. -/
def wrongLength (s : Sub c) : Sub c :=
  { s with chan := { s.chan with chanStatus := s.chan.chanStatus ||| statusLength } }

/-- The part of `chan_write_byte` for a count of zero: whether no more data is wanted. -/
def countWrite (s : Sub c) : Sub c × Bool :=
  if s.chan.ccwCount = 0 then
    let (s, failed) := if s.chan.chanByte &&& buffDirty ≠ 0 then writebuff s else (s, false)
    if failed = true then (s, true)
    else if s.chan.ccwFlags &&& flagCd = 0 then
      let s := s.setByte buffChnend
      (if s.chan.ccwFlags &&& flagSli = 0 then wrongLength s else s, true)
    else loadCcw device true s
  else (s, false)

/-- `chan_write_byte`: whether the byte has not been taken. -/
def chanWriteByte (data : ℕ) (s : Sub c) : Sub c × Bool :=
  if s.chan.chanStatus &&& 0x7f ≠ 0 then (s, true)
  else if s.chan.ccwCmd &&& 1 ≠ 0 then (s, true)
  else if s.chan.chanByte = buffChnend then
    (if s.chan.ccwFlags &&& flagSli = 0 then wrongLength s else s, true)
  else
    let (s, ended) := countWrite device s
    if ended = true then (s, true)
    else if s.chan.ccwFlags &&& flagSkip ≠ 0 then (skipByte s, false)
    else
      let (s, failed) := if s.chan.chanByte = buffEmpty ||| buffDirty then saveWord s else (s, false)
      if failed = true then (s, true)
      else
        let (s, failed) := if s.chan.chanByte = buffEmpty then fillWrite s else (s, false)
        if failed = true then (s, true) else putByte device data s

end Transfer

/-! ### The end -/

/-- `chan_end`. -/
def chanEnd (flags : ℕ) (s : Sub c) : Sub c :=
  let s := if s.chan.chanByte &&& buffDirty ≠ 0 then (writebuff s).1.setByte buffEmpty else s
  let s : Sub c :=
    { s with chan := { s.chan with
      chanStatus := s.chan.chanStatus ||| statusCend ||| flags <<< 8, ccwCmd := 0 } }
  let s : Sub c :=
    if s.chan.ccwCount ≠ 0 ∧ s.chan.ccwFlags &&& flagSli = 0 then
      { s with chan := { s.chan with chanStatus := s.chan.chanStatus ||| statusLength, ccwFlags := 0 } }
    else s
  let s : Sub c :=
    if s.chan.ccwCount ≠ 0 ∧ s.chan.ccwFlags &&& (flagCd ||| flagSli) = flagCd ||| flagSli then wrongLength s else s
  let s : Sub c := if flags &&& 0x83 ≠ 0 then { s with chan := { s.chan with ccwFlags := 0 } } else s
  let s : Sub c :=
    if flags &&& 0x4 ≠ 0 then
      { s with chan := { s.chan with ccwFlags := bic s.chan.ccwFlags (flagCd ||| flagSli) } }
    else s
  { s with io := { s.io with irqPend := true } }

end Ka10Simh.Ibm360
