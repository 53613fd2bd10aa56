import Ka10Simh.Lib.Bits

/-!
A processor of the B5500: its registers, its control words and its references to memory.

* `Addr`, `Cpu`: addresses, and a processor with the memory.
* `memoryCycle`, `nextProg`: the references.
* `icw`, `rcw`, `setViaRcw`, …: the control words.
* `bEmpty`, `aEmpty`, …, `saveTos`: the top of the stack in registers.
* `storeInterrupt`, `initiate`: the state put on the stack, and taken from it.
* `checkIdle`: the test for an idle loop.
-/

namespace Ka10Simh.B5500

open Word

/-! ### Words -/

/-- `FLAG`, `DFLAG`, `PRESENT`, `MANT`, and the fields of control words. -/
abbrev flag : ℕ := 0o4000000000000000
abbrev dflag : ℕ := 0o2000000000000000
abbrev present : ℕ := 0o1000000000000000
abbrev mant : ℕ := 0o7777777777777
abbrev core : ℕ := 0o77777
abbrev ffield : ℕ := 0o7777700000
abbrev rfield : ℕ := 0o77700000000000
abbrev smsff : ℕ := 0o20000000000
abbrev ssalf : ℕ := 0o10000000000
abbrev svarf : ℕ := 0o100000000
abbrev scwmf : ℕ := 0o100000
abbrev rgh : ℕ := 0o340700000000000
abbrev rkv : ℕ := 0o34070000000000
abbrev rl : ℕ := 0o3000000000000

/-- `MEM_PARITY`, `INVALID_ADDR`, `STK_OVERFL` of `Q`. -/
abbrev memParity : ℕ := 1
abbrev invalidAddr : ℕ := 2
abbrev stkOverfl : ℕ := 4

/-- An address of 15 bits. -/
abbrev Addr := Fin (2 ^ 15)

instance addrNeZero : NeZero (2 ^ 15) := ⟨by norm_num⟩

/-- `x & CORE`. -/
def toAddr (x : ℕ) : Addr := ⟨x &&& core, Nat.and_lt_two_pow (n := 15) x (by norm_num)⟩

/-- `next_addr`, `prev_addr`. -/
def nextAddr (a : Addr) : Addr := toAddr (a + 1)
def prevAddr (a : Addr) : Addr := toAddr (a + 0xffff)

/-- `FF`, `CF`, `LF`, `RF`. -/
def ff (x : ℕ) : Addr := toAddr ((x &&& ffield) >>> 15)
def cf (x : ℕ) : Addr := toAddr (x &&& core)
def lf (x : ℕ) : ℕ := (x &&& rl) >>> 36
def rf (x : ℕ) : ℕ := (x &&& rfield) >>> 27

/-- `toF`, `toC`, `toL`, `toR`, `replF`. -/
def toF (x : ℕ) : ℕ := x <<< 15 &&& ffield
def toC (x : ℕ) : ℕ := x &&& core
def toL (x : ℕ) : ℕ := x <<< 36 &&& rl
def toR (x : ℕ) : ℕ := x <<< 27 &&& rfield
def replF (y x : ℕ) : ℕ := bic y ffield ||| toF x

/-- `Pointer`, and the pointer taken from a control word. -/
def pointer (x : ℕ) : ℕ := (x &&& 0o70) >>> 3 ||| (x &&& 0o7) <<< 8
def ofPointer (t : ℕ) : ℕ := t <<< 3 &&& 0o70 ||| t >>> 8 &&& 0o7

/-! ### The processor -/

/-- The registers of a processor, with the memory and its size, from 4K to 32K words. -/
structure Cpu where
  a : ℕ
  b : ℕ
  x : ℕ
  p : ℕ
  arof : Bool
  brof : Bool
  prof : Bool
  trof : Bool
  gh : ℕ
  kv : ℕ
  ma : Addr
  s : Addr
  f : Addr
  r : ℕ
  t : ℕ
  c : ℕ
  l : ℕ
  ncsf : Bool
  salf : Bool
  cwmf : Bool
  msff : Bool
  varf : Bool
  q : ℕ
  mem : ℕ → ℕ
  memsize : ℕ
  memsize_ge : 4096 ≤ memsize
  memsize_le : memsize ≤ 32768

/-- The sizes of the memory that are the smallest and the largest. -/
lemma memsize_small : 4096 ≤ 4096 := le_rfl

lemma memsize_small_le : 4096 ≤ 32768 := by norm_num

lemma memsize_full : 32768 ≤ 32768 := le_rfl

namespace Cpu

variable (s : Cpu)

/-- An error in `Q`. -/
def raise (e : ℕ) : Cpu := { s with q := s.q ||| e }

/-- The address of a memory cycle. -/
def address (e : ℕ) : ℕ :=
  if e &&& 0o20 ≠ 0 then s.c
  else if e &&& 4 ≠ 0 then s.ma
  else if e &&& 2 ≠ 0 then s.s
  else 0

/-- The tests of an address. -/
def Passes (addr : ℕ) : Prop := addr ≤ s.memsize ∧ (s.ncsf = true → 0o1000 ≤ addr)

instance (addr : ℕ) : Decidable (s.Passes addr) := inferInstanceAs (Decidable (_ ∧ _))

/-- The stack has come to the page of the `R` register. -/
def Overflows : Prop := s.ncsf = true ∧ (s.s : ℕ) &&& 0o77700 = s.r

instance : Decidable s.Overflows := inferInstanceAs (Decidable (_ ∧ _))

end Cpu

/-- `memory_cycle`. -/
def memoryCycle (e : ℕ) (s : Cpu) : Cpu :=
  let addr := s.address e
  if addr > s.memsize then s.raise invalidAddr
  else if s.ncsf = true ∧ addr < 0o1000 then s.raise invalidAddr
  else if e &&& 0o20 ≠ 0 then { s with p := s.mem addr, prof := true }
  else if e &&& 0o10 ≠ 0 then { s with mem := Function.update s.mem addr (if e &&& 1 ≠ 0 then s.b else s.a) }
  else if e = 6 then { s with b := s.mem addr, ma := ff (s.mem addr) }
  else if e &&& 1 ≠ 0 then { s with b := s.mem addr, brof := true }
  else { s with a := s.mem addr, arof := true }

/-- `next_prog`. -/
def nextProg (s : Cpu) : Cpu :=
  let s := if s.prof = false then memoryCycle 0o20 s else s
  let s := { s with t := s.p >>> ((3 - s.l) * 12) &&& 0o7777, trof := true }
  if s.l = 3 then { s with c := (s.c + 1) % 2 ^ 16, l := 0, prof := false } else { s with l := s.l + 1 }

/-! ### The stack -/

/-- `B_empty`, `A_empty`, `AB_empty`. -/
def bEmpty (s : Cpu) : Cpu :=
  if s.brof = true then
    let s := { s with s := nextAddr s.s }
    if s.Overflows then s.raise stkOverfl else { memoryCycle 0o13 s with brof := false }
  else s

def aEmpty (s : Cpu) : Cpu :=
  if s.arof = true then
    let s := bEmpty s
    { s with b := s.a, arof := false, brof := true }
  else s

def abEmpty (s : Cpu) : Cpu :=
  let s := bEmpty s
  if s.arof = true then
    let s := { s with s := nextAddr s.s }
    if s.Overflows then s.raise stkOverfl else { memoryCycle 0o12 s with arof := false }
  else s

/-- A word read from the stack, to `A` or to `B`. -/
def readTop (e : ℕ) (s : Cpu) : Cpu :=
  if s.Overflows then s.raise stkOverfl
  else
    let s := memoryCycle e s
    { s with s := prevAddr s.s }

/-- `A_valid`, `AB_valid`, `B_valid`, `B_valid_and_A`. -/
def aValid (s : Cpu) : Cpu :=
  if s.arof = false then
    if s.brof = true then { s with a := s.b, arof := true, brof := false } else readTop 2 s
  else s

def abValid (s : Cpu) : Cpu :=
  let s := aValid s
  if s.brof = false then readTop 3 s else s

def bValid (s : Cpu) : Cpu :=
  let s := aEmpty s
  if s.brof = false then readTop 3 s else s

def bValidAndA (s : Cpu) : Cpu := if s.brof = false then readTop 3 s else s

/-- `save_tos`. -/
def saveTos (s : Cpu) : Cpu :=
  if s.arof = true then { memoryCycle 0o14 s with arof := false }
  else if s.brof = true then { memoryCycle 0o15 s with brof := false }
  else { memoryCycle 0o14 (aValid s) with arof := false }

/-! ### Control words -/

section ControlWords

variable (s : Cpu)

/-- `ICW`, `RCW`. -/
def icw : ℕ :=
  flag ||| dflag ||| toR s.r ||| (if s.varf = true then svarf else 0) ||| (if s.msff = true then smsff else 0)
    ||| (if s.salf = true then ssalf else 0) ||| toC s.ma
def rcw (full : Bool) : ℕ :=
  flag ||| dflag ||| toF s.f ||| toC s.c ||| toL s.l ||| pointer s.gh <<< 33 ||| pointer s.kv <<< 30
    ||| if full = true then present else 0

/-- `set_via_RCW`, where all of it is set; `set_via_INCW`, `set_via_ICW`. -/
def setViaRcw (word : ℕ) : Cpu :=
  { s with
    l := lf word, c := cf word, prof := false, f := ff word
    gh := ofPointer ((word &&& rgh) >>> 33), kv := ofPointer ((word &&& rkv) >>> 30) }
def setViaIncw (word : ℕ) : Cpu := { s with s := cf word, cwmf := decide (word &&& scwmf ≠ 0) }
def setViaIcw (word : ℕ) : Cpu :=
  { s with
    ma := cf word, msff := decide (word &&& smsff ≠ 0), salf := decide (word &&& ssalf ≠ 0)
    varf := decide (word &&& svarf ≠ 0), r := rf word }

end ControlWords

/-! ### Interrupts -/

/-- `A` or `B` pushed on the stack. -/
def push (e : ℕ) (s : Cpu) : Cpu := memoryCycle e { s with s := nextAddr s.s }

/-- A word of the stack in `A` or in `B`. -/
def pop (e : ℕ) (s : Cpu) : Cpu :=
  let s := memoryCycle e s
  { s with s := prevAddr s.s }

/-- `S` exchanged with the field of `X`. -/
def exchange (s : Cpu) : Cpu := { s with s := ff s.x, x := replF s.x s.s }

/-- The part of `storeInterrupt` that pushes `A` and `B`, with `X` in character mode. -/
def storeTop (test : Bool) (s : Cpu) : Cpu :=
  if s.cwmf = true then
    let full := s.arof
    let s := exchange s
    let s := if s.arof = true ∨ test = true then push 0o12 s else s
    let s := if s.brof = true ∨ test = true then push 0o13 s else s
    push 0o13 { s with b := s.x ||| (if full = true then present else 0) ||| flag ||| dflag }
  else
    let s := if s.brof = true ∨ test = true then push 0o13 s else s
    if s.arof = true ∨ test = true then push 0o12 s else s

/-- The part of it that makes the last control word. -/
def storeIncw (s : Cpu) : Cpu :=
  let s : Cpu :=
    if s.cwmf = true then
      let s := memoryCycle 5 (memoryCycle 6 { s with ma := s.f })
      { s with r := rf s.b, b := flag ||| dflag ||| scwmf ||| toC s.s }
    else { s with b := flag ||| dflag ||| toC s.s }
  memoryCycle 0o15 { s with b := s.b ||| s.q <<< 35, ma := toAddr (s.r ||| 0o10) }

/-- `storeInterrupt`, of the first processor or of the second one. -/
def storeInterrupt (second forced test : Bool) (s : Cpu) : Cpu :=
  let s : Cpu := if forced = true ∨ test = true then { s with ncsf := false } else s
  let full := s.brof
  let s := storeTop test s
  let s : Cpu := { s with arof := false }
  let s := push 0o13 { s with b := icw s }
  let s := push 0o13 { s with b := rcw s full }
  let s := storeIncw s
  let s : Cpu := { s with r := 0, brof := false, msff := false, salf := false, f := s.s }
  let s : Cpu := if forced = true ∨ test = true then { s with cwmf := false } else s
  let s : Cpu := { s with prof := false }
  if test = true then
    let s := memoryCycle 5 { s with ma := 0 }
    { s with brof := false, c := cf s.b, l := 0, kv := 0, gh := 0 }
  else if forced = true ∧ second = false then { s with t := 0o211, trof := true }
  else s

/-- The part of `initiate` that is for character mode. -/
def loadTop (brflg : Bool) (s : Cpu) : Cpu :=
  let s := pop 3 s
  let arflg := decide (s.b &&& present ≠ 0)
  let s : Cpu := { s with x := s.b &&& mant }
  let s := if brflg = true then pop 3 s else s
  let s := if arflg = true then pop 2 s else s
  exchange { s with arof := arflg, brof := brflg }

/-- `initiate`. -/
def initiate (s : Cpu) : Cpu :=
  let s := setViaIncw s s.a
  let s := pop 3 { s with arof := false }
  let brflg := decide (s.b &&& present ≠ 0)
  let s := pop 3 (setViaRcw s s.b)
  let s : Cpu := { setViaIcw s s.b with brof := false }
  let s := if s.cwmf = true then loadTop brflg s else s
  { s with ncsf := true, prof := false, trof := false }

/-! ### Idling -/

/-- `loop_mask` and `loop_data`. -/
def idleLoop : List (ℕ × ℕ) :=
  [(0o7777, 0o2431), (0o3, 0o2), (0o7777, 0o215), (0o3, 0o2), (0o7777, 0o425), (0o7733, 0), (0o5777, 0o131)]

/-- The loop of `check_idle`, with the syllable at `l` of the word at `addr`: the words that are read after it, and
whether it is an idle loop. -/
def idleScan (mem : ℕ → ℕ) : List (ℕ × ℕ) → ℕ → ℕ → List ℕ × Bool
  | [], _, _ => ([], true)
  | (mask, data) :: rest, addr, l =>
      if mem addr >>> l &&& 0o7777 &&& mask ≠ data then ([], false)
      else if l = 0 then
        let next := (addr + 1) % 2 ^ 16
        let (words, found) := idleScan mem rest next 36
        (next :: words, found)
      else idleScan mem rest addr (l - 12)

/-- `check_idle`: the words that are read, `idle_addr` after it, and what it returns. -/
def checkIdle (idleAddr : ℕ) (s : Cpu) : List ℕ × ℕ × Bool :=
  if idleAddr ≠ 0 ∧ idleAddr ≠ s.c then ([], idleAddr, false)
  else if idleAddr = s.c then ([], idleAddr, true)
  else
    let (words, found) := idleScan s.mem idleLoop s.c ((3 - s.l) * 12)
    (s.c :: words, if found = true then s.c else idleAddr, found)

end Ka10Simh.B5500
