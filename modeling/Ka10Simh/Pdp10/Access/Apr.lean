import Ka10Simh.Pdp10.Interrupt.Bus
import Ka10Simh.Pdp10.Word

/-!
What an access of the KA10 may raise: the flags of the processor, and the interrupt they request.

* `Apr.checkAprIrq`: `check_apr_irq`, which requests the interrupt of the flags.
* `Apr.addressConditions`: `address_conditions`, for the address in the switches.
* `Loc`: where a word is.
-/

namespace Ka10Simh.Pdp10

/-- Where a word is: an accumulator of any block, or a word of the memory. -/
inductive Loc
  | reg (i : ℕ)
  | word (a : ℕ)
  deriving DecidableEq, Repr

/-- The numbers `check_apr_irq` requests interrupts under: the processor's, and that of its clock. -/
def Dev.apr : Dev := ⟨0, by decide⟩
def Dev.clk : Dev := ⟨4, by decide⟩

/-- The flags of the processor that an access may raise, with what `check_apr_irq` asks for them. -/
structure Apr where
  pi : Pi
  run : Bool := true
  nxmFlag : Bool := false
  memProt : Bool := false
  adrFlag : Bool := false
  watchStop : Bool := false
  pushOvf : Bool := false
  /-- `(FLAGS & OVR) != 0` with `ov_irq`, and `(FLAGS & FLTOVR) != 0` with `fov_irq`. -/
  overflow : Bool := false
  nxmStop : Bool := false
  aprIrq : ℕ := 0

namespace Apr

/-- The flags request their interrupt, or drop it. -/
def request (s : Apr) : Pi :=
  if s.pi.piEnable && s.aprIrq != 0 then
    let pi := s.pi.clrInterrupt Dev.apr
    if s.overflow || s.nxmFlag || s.memProt || s.pushOvf || s.adrFlag then
      pi.setInterrupt Dev.apr s.aprIrq
    else pi
  else s.pi

/-- `check_apr_irq`. -/
def checkAprIrq (s : Apr) : Apr :=
  { s with run := s.run && !(s.nxmStop && s.nxmFlag), pi := s.request }

/-- `ADR_IFETCH`, `ADR_DFETCH`, `ADR_WRITE`, `ADR_STOP` and `ADR_BREAK`, the address condition
switches. -/
abbrev adrIfetch : ℕ := 0o20
abbrev adrDfetch : ℕ := 0o10
abbrev adrWrite : ℕ := 0o4
abbrev adrStop : ℕ := 0o2
abbrev adrBreak : ℕ := 0o1

/-- `address_conditions`. -/
def addressConditions (adrCond : ℕ) (fetch write : Bool) (s : Apr) : Apr :=
  let cond := if fetch then adrIfetch else if write then adrWrite else adrDfetch
  let meets := adrCond &&& cond != 0
  { s with
    watchStop := s.watchStop || (meets && adrCond &&& adrStop != 0)
    adrFlag := s.adrFlag || (meets && adrCond &&& adrBreak != 0) }.checkAprIrq

lemma setInterrupt_xctFlag (dev : Dev) (lvl : ℕ) (s : Pi) :
    (s.setInterrupt dev lvl).xctFlag = s.xctFlag := by
  simp only [Pi.setInterrupt]
  split_ifs <;> rfl

lemma request_xctFlag (s : Apr) : s.request.xctFlag = s.pi.xctFlag := by
  simp only [request]
  split_ifs <;> first | exact setInterrupt_xctFlag _ _ _ | rfl

end Apr

end Ka10Simh.Pdp10
