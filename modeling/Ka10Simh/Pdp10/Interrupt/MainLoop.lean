import Ka10Simh.Pdp10.Interrupt.Priority

/-!
The main loop of `sim_instr`, as far as the interrupt system sees it.

`pi_pending` tells the loop to look for an interrupt. It is set by the requests of devices and
programs and by a dismissal, and cleared by `check_irq_level` when no device requests anything,
although a program request may be waiting then.

* `Loop`: the words of the interrupt system, the flags of `sim_instr` that grants and dismissals
  depend on, and the point of the loop.
* `Loop.step`: what may happen at each point, and `Loop.finish`, the end of an instruction.
* `Pi.Quiet`: when `pi_pending` is off no device requests anything, and every program request
  is held off or is not above the interrupt that has been found.
* `no_lost_interrupt`: in every run in which no interrupt cycle ends with its level not held
  while a program request is waiting and `pi_pending` is off, a level that can be granted keeps
  `pi_pending` on at every instruction fetch. `no_lost_interrupt_fails` is a run that does
  not meet the condition.
-/

namespace Ka10Simh.Pdp10

open TransSys Word

/-- The points of the main loop: its head, the label `fetch`, the calculation of the address
from `no_fetch` on, the execution of the instruction, and the label `last`. -/
inductive Place
  | top | fetch | address | execute | last
  deriving DecidableEq, Repr

/-- The state of `sim_instr`. -/
structure Loop where
  pi : Pi
  place : Place
  /-- `pi_cycle`, an interrupt instruction is being executed. -/
  piCycle : Bool
  /-- `pi_rq`, an interrupt has been found. -/
  piRq : Bool
  /-- `pi_hold`, a second interrupt instruction follows. -/
  piHold : Bool
  /-- `pi_ov`, overflow in the interrupt cycle. -/
  piOv : Bool
  /-- `pi_restore`, the instruction dismisses an interrupt. -/
  piRestore : Bool
  /-- `trap_flag`, a trap instruction is being executed; the PDP6 and the KA have no traps. -/
  trapFlag : Bool
  /-- `f_load_pc`, the next instruction is at the PC. -/
  fLoadPc : Bool
  /-- `f_inst_fetch`, fetch a new instruction. -/
  fInstFetch : Bool
  /-- `f_pc_inh`, leave the PC alone at the end of the instruction. -/
  fPcInh : Bool

/-- What the end of an instruction finds: a page fault that is taken, the instruction, and its
accumulator field. -/
structure Outcome where
  pageFault : Bool
  ir : ℕ
  ac : ℕ

/-- `(IR & 0700) == 0700`. -/
def Outcome.io (o : Outcome) : Bool := o.ir &&& 0o700 == 0o700

/-- An I/O instruction that is a `BLKI`, `BLKO`, `DATAI` or `DATAO`. -/
def Outcome.transfer (o : Outcome) : Bool := o.io && o.ac &&& 4 == 0

namespace Loop

/-- `sim_instr` begins. -/
def start (s : Pi) : Loop where
  pi := s
  place := .top
  piCycle := false
  piRq := false
  piHold := false
  piOv := false
  piRestore := false
  trapFlag := false
  fLoadPc := true
  fInstFetch := true
  fPcInh := false

/-- The head of the loop: an instruction at the PC clears the flags of the one before. -/
def atTop (s : Loop) : Loop :=
  let s :=
    if s.fLoadPc then
      { s with pi := { s.pi with xctFlag := 0 }, trapFlag := false, fPcInh := false }
    else s
  { s with place := if s.fInstFetch then .fetch else .address }

/-- The interrupt found is taken. -/
def grant (c : Config) (s : Loop) : Loop :=
  { s with
    pi := { s.pi with xctFlag := 0 }
    place := if c.build = .ki ∨ c.build = .kl then .address else .fetch
    piCycle := true, piRq := false, piHold := false, piOv := false }

/-- The fetch of the instruction. The PDP6 and the KA look for an interrupt when it fails. -/
def readInst (c : Config) (ok : Bool) (s : Loop) : Loop :=
  if ok then { s with place := .address }
  else if c.kiOrLater then { s with place := .last }
  else if (s.pi.checkIrqLevel c).1 then
    grant c { s with pi := (s.pi.checkIrqLevel c).2, piRq := true }
  else { s with pi := (s.pi.checkIrqLevel c).2, piRq := false, place := .last }

/-- A trap is taken in place of the instruction. -/
def trap (s : Loop) : Loop := { s with trapFlag := true, piCycle := true }

/-- Look for an interrupt, once for each word of the address calculation. -/
def poll (c : Config) (s : Loop) : Loop :=
  if !s.piCycle && s.pi.piPending && !s.trapFlag then
    { s with pi := (s.pi.checkIrqLevel c).2, piRq := (s.pi.checkIrqLevel c).1 }
  else s

/-- The address calculation is over. -/
def endAddress (c : Config) (s : Loop) : Loop :=
  if s.piRq then s.grant c
  else { s with place := .execute, fInstFetch := true, fLoadPc := true, fPcInh := false }

/-- A block transfer looks for an interrupt. -/
def blt (c : Config) (s : Loop) : Loop :=
  if s.pi.piPending then
    { s with
      pi := (s.pi.checkIrqLevel c).2
      piRq := (s.pi.checkIrqLevel c).1
      fPcInh := s.fPcInh || (s.pi.checkIrqLevel c).1 }
  else s

/-- A skip instruction of an interrupt cycle that does not skip asks for the second one. -/
def noSkip (c : Config) (s : Loop) : Loop :=
  if (c.build = .ki ∨ c.build = .kl) ∧ !s.trapFlag ∧ s.piCycle then
    { s with piOv := true, piHold := true }
  else s

/-- A page fault at `last`. -/
def fault (c : Config) (s : Loop) : Loop :=
  match c.build with
  | .pdp6 => s
  | .ka => if c.bbn then { s with fPcInh := true, piCycle := true, place := .fetch } else s
  | .ki => { s with trapFlag := true, fPcInh := true, piCycle := true, place := .address }
  | .kl =>
      -- a trap instruction is no interrupt; a fault of an interrupt turns the system off
      { s with
        pi := { s.pi with xctFlag := 0, piEnable := s.pi.piEnable && !(s.piCycle && !s.trapFlag) }
        piCycle := false, trapFlag := true
        fLoadPc := true, fInstFetch := true, fPcInh := true }
  | .ks =>
      { s with
        pi := { s.pi with xctFlag := 0 }
        piCycle := s.piCycle && !s.trapFlag, trapFlag := true
        fLoadPc := true, fInstFetch := true, fPcInh := true }

/-- The end of a trap instruction. -/
def endTrap (c : Config) (s : Loop) : Loop :=
  if c.kiOrLater ∧ s.trapFlag then
    { s with piHold := false, piOv := false, fPcInh := false, trapFlag := false }
  else s

/-- Whether the last instruction of an interrupt cycle holds the level. -/
def holds (c : Config) (s : Loop) : Bool :=
  if c.kiOrLater then s.fPcInh && !s.trapFlag else !c.its || s.fPcInh

/-- The end of the interrupt instruction: a data transfer is all of the interrupt, another
instruction may be followed by a second one (`goto no_fetch`) or holds the level. -/
def dismiss (c : Config) (o : Outcome) (s : Loop) : Loop :=
  let s := s.endTrap c
  if o.transfer then
    let s := { s with piHold := s.piOv }
    if !s.piHold && s.fInstFetch then { s with piCycle := false } else { s with place := .address }
  else if s.piHold && !s.fPcInh then
    let s :=
      if (c.build = .ka ∨ c.build = .ki) ∧ o.io then
        { s with pi := (s.pi.checkIrqLevel c).2 }
      else s
    { s with piOv := false, piHold := false, place := .address }
  else
    let s := if s.holds c then { s with pi := s.pi.setPiHold c } else s
    { s with piCycle := c.build == .pdp6 && o.io, fInstFetch := true, fLoadPc := true }

/-- The dismissal an instruction has asked for. -/
def restore (s : Loop) : Loop :=
  if s.piRestore then { s with pi := s.pi.restorePiHold, piRestore := false } else s

/-- From `last` to the head of the loop, but for a page fault or an interrupt cycle that
goes on. -/
def finish (c : Config) (o : Outcome) (s : Loop) : Loop :=
  let s := if o.pageFault then s.fault c else s
  if s.place ≠ .last then s
  else
    let s := if s.piCycle then s.dismiss c o else s
    if s.place ≠ .last then s else { s.restore with place := .top }

/-- What may happen: a call of a device at any point; the steps of the loop; and what an
instruction does to the words of the interrupt system. -/
inductive Event
  | dev (call : DevCall)
  | atTop
  | readInst (ok : Bool)
  | trap
  | poll
  | endAddress
  | cono (data : ℕ) (apr : List DevCall)
  | ioReset
  | piOn
  | setXct (flag : ℕ)
  | xct (flag : ℕ)
  | jump
  | noFetch
  | overflow
  | noSkip
  | jen
  | blt
  | again
  | done
  | finish (o : Outcome)

/-- One event: each is possible at its own point of the loop only. A memory access may fail
in the address calculation and in the execution, and both are `done`. -/
def step (c : Config) (s : Loop) : Event → Option Loop
  | .dev call => some { s with pi := call.apply s.pi }
  | .atTop => if s.place = .top then some s.atTop else none
  | .readInst ok => if s.place = .fetch then some (s.readInst c ok) else none
  | .trap =>
      if s.place = .address ∧ c.kiOrLater ∧ s.trapFlag = false then some s.trap else none
  | .poll => if s.place = .address then some (s.poll c) else none
  | .endAddress => if s.place = .address then some (s.endAddress c) else none
  | .cono data apr =>
      if s.place = .execute then some { s with pi := s.pi.devPiCono c data apr } else none
  | .ioReset =>
      if s.place = .execute then some { s with pi := { s.pi with mpxEnable := false } } else none
  | .piOn =>
      if s.place = .execute ∧ c.build = .kl ∧ c.its then
        some { s with pi := { s.pi with piEnable := true } }
      else none
  | .setXct flag =>
      if s.place = .execute then some { s with pi := { s.pi with xctFlag := flag } } else none
  | .xct flag =>
      if s.place = .execute then
        some { s with pi := { s.pi with xctFlag := flag }, fLoadPc := false, fPcInh := true }
      else none
  | .jump => if s.place = .execute then some { s with fPcInh := true } else none
  | .noFetch =>
      if s.place = .execute then
        some { s with fLoadPc := false, fInstFetch := false, fPcInh := true }
      else none
  | .overflow => if s.place = .execute then some { s with piOv := true } else none
  | .noSkip => if s.place = .execute then some (s.noSkip c) else none
  | .jen => if s.place = .execute then some { s with piRestore := true } else none
  | .blt => if s.place = .execute then some (s.blt c) else none
  | .again => if s.place = .execute then some { s with place := .address } else none
  | .done =>
      if s.place = .address ∨ s.place = .execute then some { s with place := .last } else none
  | .finish o => if s.place = .last then some (s.finish c o) else none

/-- The interrupt cycle goes on with another instruction. -/
def GoesOn (c : Config) (o : Outcome) (s : Loop) : Prop :=
  s.piCycle = true ∧
    if o.transfer then (s.endTrap c).piOv = true ∨ s.fInstFetch = false
    else (s.endTrap c).piHold = true ∧ (s.endTrap c).fPcInh = false

/-- The interrupt cycle ends with its level held. -/
def IsHeld (c : Config) (o : Outcome) (s : Loop) : Prop :=
  s.piCycle = true ∧ o.transfer = false ∧ ¬ s.GoesOn c o ∧ (s.endTrap c).holds c = true
    ∧ s.pi.piEnable = true

/-- The condition on the end of an instruction: `pi_pending` is on, every program request is
held off, a dismissal follows, or, once a page fault has been taken, the interrupt cycle goes on
or ends with its level held. -/
def EndsSafely (c : Config) (o : Outcome) (s : Loop) : Prop :=
  s.pi.piPending = true ∨ s.pi.AllBlocked s.pi.pir ∨
    let t := if o.pageFault then s.fault c else s
    t.place ≠ .last ∨ t.GoesOn c o ∨ t.IsHeld c o ∨ t.piRestore = true ∧ t.pi.piEnable = true

/-- The condition on a run: only the end of an instruction has to meet one. -/
def Keeps (c : Config) (s : Loop) : Event → Prop
  | .finish o => s.EndsSafely c o
  | _ => True

/-- No `PXCT` is in progress at the head of the loop: the instruction is at the PC, or it is
executed by an instruction that set no previous context bits. -/
def NoPxct (s : Loop) : Prop := s.fLoadPc = true ∨ s.pi.xctFlag = 0

/-- Level `l` is requested and can be granted. -/
def Wanted (s : Loop) (l : ℕ) : Prop :=
  1 ≤ l ∧ l ≤ 7 ∧ HasLevel s.pi.piReq l ∧ ¬ s.pi.Blocked l

end Loop

/-! ### What `pi_pending` off says -/

namespace Pi

/-- What an idle `pi_pending` says: no device requests anything, and every program request is
held off, or an interrupt at or above it has been found and is on its way (`way`). -/
structure Quiet (way : Prop) (s : Pi) : Prop where
  idle : s.iobPi = 0 → ∀ i, s.devIrq i = 0
  bus : s.piPending = false → s.iobPi = 0
  pir : s.piPending = false → ∀ l, 1 ≤ l → l ≤ 7 → HasLevel s.pir l →
    s.Blocked l ∨ (way ∧ 1 ≤ s.piEnc ∧ s.piEnc ≤ l)

lemma quiet_reset : Quiet False reset :=
  ⟨fun _ _ => rfl, fun _ => rfl, fun _ l _ _ h => absurd h (hasLevel_zero l)⟩

lemma Quiet.mono {way way' : Prop} {s : Pi} (h : s.Quiet way)
    (hway : s.piPending = false → way → way') : s.Quiet way' :=
  ⟨h.idle, h.bus, fun hp l h1 h7 hl => (h.pir hp l h1 h7 hl).imp_right fun ⟨hw, henc⟩ =>
    ⟨hway hp hw, henc⟩⟩

/-- With `pi_pending` on the program requests are of no concern. -/
lemma Quiet.of_pending {way way' : Prop} {s : Pi} (h : s.Quiet way) (hp : s.piPending = true) :
    s.Quiet way' :=
  h.mono fun hnp => by rw [hp] at hnp; cases hnp

lemma Quiet.of_allBlocked {way way' : Prop} {s : Pi} (h : s.Quiet way)
    (hb : s.AllBlocked s.pir) : s.Quiet way' :=
  ⟨h.idle, h.bus, fun _ l h1 h7 hl => Or.inl (hb l h1 h7 hl)⟩

/-- Fewer program requests, more levels held. -/
lemma Quiet.congr {way : Prop} {s t : Pi} (h : s.Quiet way) (hdev : t.devIrq = s.devIrq)
    (hbus : t.iobPi = s.iobPi) (hp : t.piPending = s.piPending) (henc : t.piEnc = s.piEnc)
    (hpir : ∀ l, 1 ≤ l → l ≤ 7 → HasLevel t.pir l →
      HasLevel s.pir l ∧ (s.Blocked l → t.Blocked l)) : t.Quiet way := by
  refine ⟨?_, ?_, ?_⟩
  · rw [hdev, hbus]
    exact h.idle
  · rw [hp, hbus]
    exact h.bus
  · rw [hp, henc]
    intro hnp l h1 h7 hl
    obtain ⟨hs, hblock⟩ := hpir l h1 h7 hl
    exact (h.pir hnp l h1 h7 hs).imp_left hblock

/-- A bus that is idle once recomputed carries no request. -/
lemma devIrq_of_irqOr_eq_zero {s : Pi} (h : s.irqOr = 0) (i : Fin maxDev) : s.devIrq i = 0 := by
  rw [eq_zero_iff_testBit] at h ⊢
  intro k
  have hk := h k
  rw [← Bool.not_eq_true, testBit_irqOr] at hk
  rw [← Bool.not_eq_true]
  exact fun hi => hk ⟨i, hi⟩

lemma level_ne_zero {lvl : ℕ} (h : lvl ≤ 7) : 0o200 >>> lvl ≠ 0 := by
  rw [level_bit h]
  positivity

/-- A request sets `pi_pending`, and a device that drops its request leaves an idle bus idle. -/
lemma Quiet.dev {way : Prop} {s : Pi} (h : s.Quiet way) (call : DevCall) :
    (call.apply s).Quiet way := by
  have hset : ∀ {lvl : ℕ}, s.iobPi ||| 0o200 >>> (lvl &&& 7) ≠ 0 := fun {lvl} h0 =>
    level_ne_zero (level_le lvl) (Nat.or_eq_zero_iff.mp h0).2
  cases call with
  | set dev lvl =>
      unfold DevCall.apply setInterrupt
      dsimp only
      split
      · exact ⟨fun h0 => absurd h0 hset, by simp, by simp⟩
      · exact h
  | setMpx dev lvl mpx =>
      rw [DevCall.apply, setInterruptMpx]
      dsimp only
      split
      · exact ⟨fun h0 => absurd h0 hset, by simp, by simp⟩
      · exact h
  | clr dev =>
      rw [DevCall.apply]
      refine ⟨fun h0 => ?_, fun hp => ?_, h.pir⟩
      · rw [clrInterrupt_iobPi] at h0
        exact devIrq_of_irqOr_eq_zero h0
      · -- the bus was idle, so no device requested anything before
        have hidle := h.idle (h.bus hp)
        rw [clrInterrupt_iobPi, eq_zero_iff_testBit]
        intro k
        rw [← Bool.not_eq_true, testBit_irqOr]
        rintro ⟨i, hi⟩
        have hzero : (s.clrInterrupt dev).devIrq i = 0 := by
          simp only [clrInterrupt, Function.update_apply]
          split
          · rfl
          · exact hidle i
        rw [hzero, Nat.zero_testBit] at hi
        cases hi

lemma Quiet.devs {way : Prop} {s : Pi} (h : s.Quiet way) (calls : List DevCall) :
    (calls.foldl DevCall.apply s).Quiet way := by
  induction calls generalizing s with
  | nil => exact h
  | cons call calls ih => exact ih (h.dev call)

lemma Quiet.onBit {way : Prop} {data m : ℕ} {f : Pi → Pi} {s : Pi} (h : s.Quiet way)
    (hf : ∀ s : Pi, s.Quiet way → (f s).Quiet way) : (Pi.onBit data m f s).Quiet way := by
  rw [Pi.onBit]
  split
  · exact hf s h
  · exact h

/-- A `CONO PI` that requests levels sets `pi_pending`; every other one leaves as many program
requests or fewer, and levels held are dropped only together with all requests. -/
lemma Quiet.cono {way : Prop} {s : Pi} (h : s.Quiet way) (c : Config) (data : ℕ)
    (apr : List DevCall) : (s.devPiCono c data apr).Quiet way := by
  refine Quiet.devs ?_ apr
  rw [conoPi]
  refine (((((((((h.onBit ?_).onBit ?_).onBit ?_).onBit ?_).onBit ?_).onBit ?_).onBit ?_).onBit
    ?_).onBit ?_).onBit ?_ <;> intro s h
  · exact ⟨h.idle, h.bus, fun _ l _ _ hl => absurd hl (hasLevel_zero l)⟩
  · exact ⟨h.idle, h.bus, h.pir⟩
  · exact ⟨h.idle, h.bus, h.pir⟩
  · exact ⟨h.idle, h.bus, h.pir⟩
  · exact ⟨h.idle, h.bus, h.pir⟩
  · exact ⟨h.idle, by simp, by simp⟩
  · exact ⟨h.idle, h.bus, h.pir⟩
  · refine h.congr rfl rfl rfl rfl fun l _ h7 hl => ⟨?_, id⟩
    dsimp only at hl
    split at hl
    · exact ((hasLevel_bic h7).mp hl).1
    · exact hl
  · exact ⟨h.idle, h.bus, h.pir⟩
  · exact ⟨h.idle, h.bus, h.pir⟩

/-- With no entry on the multiplexer no channel is found. -/
lemma mpxEnc_idle {s : Pi} (h : ∀ i, s.devIrq i = 0) : s.mpxEnc = 0o10 := by
  rw [mpxEnc]
  generalize List.finRange maxDev = l
  induction l with
  | nil => rfl
  | cons i l ih => rw [List.foldl_cons, h i, if_neg (by simp), ih]

/-- The loop over the levels finds the first request, unless all of them are held off. -/
lemma scan_all (pih req : ℕ) {l : ℕ} (h1 : 1 ≤ l) (h7 : l ≤ 7) (hl : HasLevel req l) :
    (∃ j, 1 ≤ j ∧ j ≤ l ∧ HasLevel pih j) ∨
      ((scan pih req 7).1 = true ∧ 1 ≤ (scan pih req 7).2 ∧ (scan pih req 7).2 ≤ l) := by
  cases hscan : scan pih req 7 with
  | mk found i =>
      cases found with
      | true =>
          have hi := scan_found le_rfl hscan
          refine Or.inr ⟨rfl, hi.1, ?_⟩
          by_contra hlt
          exact scan_first le_rfl hscan (by omega) (not_le.mp hlt) hl
      | false => exact Or.inl (scan_none le_rfl (by rw [hscan]) (by omega) h7 hl)

/-- On an idle bus a search with the system on finds the first program request, unless all of
them are held off. -/
lemma checkOn_idle (c : Config) {s : Pi} (hidle : ∀ i, s.devIrq i = 0) (hbus : s.iobPi = 0)
    {l : ℕ} (h1 : 1 ≤ l) (h7 : l ≤ 7) (hl : HasLevel s.pir l) :
    s.Blocked l ∨
      ((s.checkOn c).1 = true ∧ 1 ≤ (s.checkOn c).2.piEnc ∧ (s.checkOn c).2.piEnc ≤ l) := by
  have hreq : HasLevel s.piReq l := by rwa [piReq, hbus, Nat.zero_and, Nat.zero_or]
  have hfind : ∀ t : Pi, t.pih = s.pih → t.piReq = s.piReq → s.Blocked l ∨
      (t.findLevel.1 = true ∧ 1 ≤ t.findLevel.2.piEnc ∧ t.findLevel.2.piEnc ≤ l) := by
    intro t hpih hpi
    rw [findLevel]
    rw [hpih, hpi]
    rcases scan_all s.pih s.piReq h1 h7 hreq with hb | ⟨hfound, henc⟩
    · exact Or.inl hb
    · rw [if_pos hfound]
      exact Or.inr ⟨rfl, henc⟩
  rw [checkOn]
  split
  · rw [mpxEnc_idle hidle, if_neg (by simp)]
    exact hfind { s with piEnc := 0o10 } rfl rfl
  · exact hfind s rfl rfl

/-- With the system off a search looks at the program requests alone, if at all. -/
lemma checkOff_idle (c : Config) (s : Pi) :
    s.checkOff c = (false, s) ∨ ∀ l, 1 ≤ l → l ≤ 7 → HasLevel s.pir l → s.Blocked l ∨
      ((s.checkOff c).1 = true ∧ 1 ≤ (s.checkOff c).2.piEnc ∧ (s.checkOff c).2.piEnc ≤ l) := by
  rw [checkOff]
  split
  · exact Or.inr fun l h1 h7 hl => scan_all s.pih s.pir h1 h7 hl
  · exact Or.inl rfl

/-- What a search has to say for itself when it writes `pi_pending` and `pi_enc` only. -/
lemma Quiet.searched {way way' : Prop} {s t : Pi} {found : Bool} (h : s.Quiet way)
    (hframe : t = { s with piPending := t.piPending, piEnc := t.piEnc })
    (hfound : found = true → way') (hbus : t.piPending = false → s.iobPi = 0)
    (hall : t.piPending = false → ∀ l, 1 ≤ l → l ≤ 7 → HasLevel s.pir l →
      s.Blocked l ∨ (found = true ∧ 1 ≤ t.piEnc ∧ t.piEnc ≤ l)) : t.Quiet way' := by
  rw [hframe]
  exact ⟨h.idle, hbus, fun hp l h1 h7 hl => (hall hp l h1 h7 hl).imp_right fun ⟨hf, henc⟩ =>
    ⟨hfound hf, henc⟩⟩

/-- A search that leaves `pi_pending` off has found the first program request, has found all of
them held off, or has not looked at all. -/
lemma Quiet.check {way way' : Prop} {c : Config} {s : Pi} (h : s.Quiet way)
    (hfound : (s.checkIrqLevel c).1 = true → way') (hkeep : s.piPending = false → way → way') :
    (s.checkIrqLevel c).2.Quiet way' := by
  have hsame : s.Quiet way' := h.mono hkeep
  revert hfound
  rw [checkIrqLevel]
  split
  · exact fun _ => hsame
  split
  · intro hfound
    rcases checkOff_idle c s with heq | hall
    · rw [heq]
      exact hsame
    · have hframe : (s.checkOff c).2 = { s with piEnc := (s.checkOff c).2.piEnc } := by
        rw [checkOff]
        split <;> rfl
      have hp : (s.checkOff c).2.piPending = s.piPending := by rw [hframe]
      refine h.searched ?_ hfound (fun hnp => h.bus (hp ▸ hnp)) fun _ => hall
      rw [hp]
      exact hframe
  · intro hfound
    set t : Pi := { s with piPending := if s.iobPi = 0 then false else s.piPending } with ht
    have hframe : (t.checkOn c).2 = { t with piEnc := (t.checkOn c).2.piEnc } := by
      rcases checkOn_cases c t with ⟨t', heq, hf⟩ | ⟨heq, -⟩
      · rw [heq]
        exact hf.frame
      · rw [heq]
    have hp : (t.checkOn c).2.piPending = t.piPending := by rw [hframe]
    -- with `pi_pending` off the bus is idle, now or since before the search
    have hbus : t.piPending = false → s.iobPi = 0 := by
      rw [ht]
      by_cases h0 : s.iobPi = 0
      · exact fun _ => h0
      · simp only [if_neg h0]
        exact h.bus
    refine h.searched ?_ hfound (fun hnp => hbus (hp ▸ hnp)) fun hnp l h1 h7 hl => ?_
    · rw [hp]
      exact hframe
    · have h0 := hbus (hp ▸ hnp)
      exact checkOn_idle c (s := t) (h.idle h0) h0 h1 h7 hl

/-- Once the interrupt found is held, every program request is held off. -/
lemma Quiet.hold {way way' : Prop} {c : Config} {s : Pi} (h : s.Quiet way)
    (he : s.piEnable = true) : (s.setPiHold c).Quiet way' := by
  rw [setPiHold_eq c he]
  refine ⟨h.idle, h.bus, fun hp l h1 h7 hl => Or.inl ?_⟩
  obtain ⟨hpir, -⟩ := (hasLevel_bic h7).mp hl
  rcases h.pir hp l h1 h7 hpir with ⟨j, hj1, hjl, hj⟩ | ⟨-, henc1, hencl⟩
  · exact ⟨j, hj1, hjl, (hasLevel_or (by omega)).mpr (Or.inl hj)⟩
  · have hlvl : s.holdLevel c = s.piEnc := by
      rw [holdLevel, if_neg]
      rintro ⟨-, hgt⟩
      omega
    refine ⟨s.piEnc, henc1, hencl, (hasLevel_or (by omega)).mpr (Or.inr ?_)⟩
    rw [hlvl]
    exact (hasLevel_level (by omega) (by omega)).mpr rfl

/-- Holding a level never makes a program request free. -/
lemma Quiet.setPiHold {way : Prop} {c : Config} {s : Pi} (h : s.Quiet way) :
    (s.setPiHold c).Quiet way := by
  cases he : s.piEnable with
  | true => exact h.hold he
  | false =>
      refine h.congr ?_ ?_ ?_ ?_ fun l _ h7 hl => ?_ <;>
        simp only [Pi.setPiHold, he, Bool.false_eq_true, if_false] at *
      exact ⟨((hasLevel_bic h7).mp hl).1, id⟩

/-- A dismissal with the system on sets `pi_pending`. -/
lemma Quiet.dismissed {way way' : Prop} {s : Pi} (h : s.Quiet way) (he : s.piEnable = true) :
    s.restorePiHold.Quiet way' := by
  rcases restorePiHold_pih he with ⟨l, -, heq⟩ | ⟨-, heq⟩ <;> rw [heq] <;>
    exact ⟨h.idle, by simp, by simp⟩

lemma Quiet.restorePiHold {way : Prop} {s : Pi} (h : s.Quiet way) :
    s.restorePiHold.Quiet way := by
  cases he : s.piEnable with
  | true => exact h.dismissed he
  | false => rwa [Pi.restorePiHold, if_pos (by simp [he])]

end Pi

namespace Loop

/-- An interrupt is on its way: it has been found, or its cycle has begun. -/
def OnWay (s : Loop) : Prop :=
  s.place ≠ .top ∧ (s.piCycle = true ∨ s.piRq = true ∧ s.place ≠ .fetch)

/-- The invariant of the main loop. -/
def Quiet (s : Loop) : Prop := s.pi.Quiet s.OnWay

/-! ### The steps of the loop -/

lemma Quiet.atTop {s : Loop} (h : s.Quiet) (hs : s.place = .top) : s.atTop.Quiet := by
  have hway : ∀ {t : Loop}, s.OnWay → t.OnWay := fun hw => absurd hs hw.1
  rw [Loop.atTop]
  split
  · exact Pi.Quiet.mono (s := { s.pi with xctFlag := 0 }) ⟨h.idle, h.bus, h.pir⟩ fun _ => hway
  · exact Pi.Quiet.mono h fun _ => hway

/-- Taking the interrupt that has been found. -/
lemma Quiet.grant {way : Prop} {c : Config} {s : Loop} (h : s.pi.Quiet way) :
    (s.grant c).Quiet := by
  have hplace : (s.grant c).place ≠ .top := by
    rw [Loop.grant]
    dsimp only
    split <;> simp
  exact Pi.Quiet.mono (s := { s.pi with xctFlag := 0 }) ⟨h.idle, h.bus, h.pir⟩ fun _ _ =>
    ⟨hplace, Or.inl rfl⟩

lemma Quiet.readInst {c : Config} {s : Loop} (h : s.Quiet) (ok : Bool) (hs : s.place = .fetch) :
    (s.readInst c ok).Quiet := by
  -- what is on its way at `fetch` is in its cycle
  have hcycle : s.OnWay → s.piCycle = true := fun hw => hw.2.resolve_right fun hr => hr.2 hs
  rw [Loop.readInst]
  split
  · exact Pi.Quiet.mono h fun _ hw => ⟨by simp, Or.inl (hcycle hw)⟩
  split
  · exact Pi.Quiet.mono h fun _ hw => ⟨by simp, Or.inl (hcycle hw)⟩
  split
  · have hcheck : (s.pi.checkIrqLevel c).2.Quiet True :=
      Pi.Quiet.check h (fun _ => trivial) fun _ _ => trivial
    exact Quiet.grant (s := { s with pi := _, piRq := true }) hcheck
  · rename_i hnot
    exact Pi.Quiet.check h (fun hf => absurd hf hnot) fun _ hw => ⟨by simp, Or.inl (hcycle hw)⟩

lemma Quiet.poll {c : Config} {s : Loop} (h : s.Quiet) (hs : s.place = .address) :
    (s.poll c).Quiet := by
  rw [Loop.poll]
  split
  · rename_i hcond
    simp only [Bool.and_eq_true] at hcond
    refine Pi.Quiet.check h (fun hf => ⟨by simp [hs], Or.inr ⟨hf, by simp [hs]⟩⟩) fun hp => ?_
    rw [hcond.1.2] at hp
    cases hp
  · exact h

lemma Quiet.noSkip {c : Config} {s : Loop} (h : s.Quiet) : (s.noSkip c).Quiet := by
  rw [Loop.noSkip]
  split <;> exact h

lemma Quiet.endAddress {c : Config} {s : Loop} (h : s.Quiet) : (s.endAddress c).Quiet := by
  rw [Loop.endAddress]
  split
  · exact Quiet.grant h
  · rename_i hrq
    exact Pi.Quiet.mono h fun _ hw =>
      ⟨by simp, Or.inl (hw.2.resolve_right fun hr => hrq hr.1)⟩

lemma Quiet.blt {c : Config} {s : Loop} (h : s.Quiet) (hs : s.place = .execute) :
    (s.blt c).Quiet := by
  rw [Loop.blt]
  split
  · rename_i hp
    refine Pi.Quiet.check h (fun hf => ⟨by simp [hs], Or.inr ⟨hf, by simp [hs]⟩⟩) fun hnp => ?_
    rw [hp] at hnp
    cases hnp
  · exact h

/-- Moving on to another point of the address calculation or of the execution. -/
lemma Quiet.move {s : Loop} (h : s.Quiet) {p : Place} (hp : p = .address ∨ p = .last) :
    Quiet { s with place := p } := by
  refine Pi.Quiet.mono h fun _ hw => ⟨?_, hw.2.imp_right fun hr => ⟨hr.1, ?_⟩⟩ <;>
    rcases hp with rfl | rfl <;> simp

/-- A page fault that is not handled at `last` begins a cycle of its own. -/
lemma fault_onWay {c : Config} {s : Loop} (hs : s.place = .last)
    (hf : (s.fault c).place ≠ .last) : (s.fault c).OnWay := by
  revert hf
  rw [fault]
  split
  · exact fun hf => absurd hs hf
  · split
    · exact fun _ => ⟨by simp, Or.inl rfl⟩
    · exact fun hf => absurd hs hf
  · exact fun _ => ⟨by simp, Or.inl rfl⟩
  · exact fun hf => absurd hs hf
  · exact fun hf => absurd hs hf

/-- A page fault writes `xct_flag` and `pi_enable` only. -/
lemma fault_pi (c : Config) (s : Loop) :
    (s.fault c).pi = { s.pi with
      xctFlag := (s.fault c).pi.xctFlag, piEnable := (s.fault c).pi.piEnable } := by
  rw [fault]
  split
  · rfl
  · split <;> rfl
  · rfl
  · rfl
  · rfl

/-- The end of a trap instruction leaves alone what a dismissal does not look at. -/
lemma endTrap_frame (c : Config) (s : Loop) :
    (s.endTrap c).pi = s.pi ∧ (s.endTrap c).place = s.place ∧ (s.endTrap c).piCycle = s.piCycle
      ∧ (s.endTrap c).piRestore = s.piRestore ∧ (s.endTrap c).fInstFetch = s.fInstFetch := by
  rw [endTrap]
  split <;> exact ⟨rfl, rfl, rfl, rfl, rfl⟩

/-- The end of an interrupt instruction: either the cycle goes on, or it ends with or without
its level held. -/
lemma dismiss_cases (c : Config) (o : Outcome) {s : Loop} (hs : s.place = .last)
    (hcycle : s.piCycle = true) (h : s.pi.Quiet True) :
    ((s.dismiss c o).place = .address ∧ (s.dismiss c o).piCycle = true
        ∧ (s.dismiss c o).pi.Quiet True)
      ∨ ((s.dismiss c o).place = .last ∧ ¬ s.GoesOn c o
        ∧ (s.dismiss c o).piRestore = s.piRestore
        ∧ ((s.dismiss c o).pi = s.pi ∧ ¬ s.IsHeld c o ∨ (s.dismiss c o).pi = s.pi.setPiHold c)) := by
  obtain ⟨hpi, hplace, hcyc, hrestore, hfetch⟩ := endTrap_frame c s
  rw [dismiss, GoesOn, IsHeld]
  dsimp only
  split
  · rename_i htr
    split
    · rename_i hend
      simp only [Bool.and_eq_true, Bool.not_eq_true'] at hend
      refine Or.inr ⟨hplace.trans hs, ?_, hrestore, Or.inl ⟨hpi, ?_⟩⟩
      · simp [hend.1, ← hfetch, hend.2]
      · simp [htr]
    · exact Or.inl ⟨rfl, hcyc.trans hcycle, by rw [hpi]; exact h⟩
  rename_i htr
  split
  · refine Or.inl ⟨rfl, ?_, ?_⟩
    · split <;> exact hcyc.trans hcycle
    · split
      · rw [hpi]
        exact h.check (fun _ => trivial) fun _ _ => trivial
      · rw [hpi]
        exact h
  · rename_i hgo
    have hgo' : ¬ ((s.endTrap c).piHold = true ∧ (s.endTrap c).fPcInh = false) := by
      simpa using hgo
    refine Or.inr ?_
    by_cases hholds : (s.endTrap c).holds c = true
    · rw [if_pos hholds]
      refine ⟨hplace.trans hs, by simp [hgo'], hrestore, Or.inr ?_⟩
      show (s.endTrap c).pi.setPiHold c = _
      rw [hpi]
    · rw [if_neg hholds]
      exact ⟨hplace.trans hs, by simp [hgo'], hrestore, Or.inl ⟨hpi, by simp [hholds]⟩⟩

/-- The step from `last` to the head of the loop. -/
lemma Quiet.toTop {s : Loop}
    (h : s.pi.Quiet False ∨ s.pi.Quiet True ∧ s.piRestore = true ∧ s.pi.piEnable = true) :
    Quiet { s.restore with place := .top } := by
  suffices hq : s.restore.pi.Quiet False from hq.mono fun _ hf => hf.elim
  rw [Loop.restore]
  rcases h with h | ⟨h, hr, he⟩
  · split
    · exact h.restorePiHold
    · exact h
  · rw [if_pos hr]
    exact h.dismissed he

/-- **The end of an instruction** that meets the condition leaves no program request unseen. -/
lemma Quiet.finish {c : Config} {o : Outcome} {s : Loop} (h : s.Quiet) (hs : s.place = .last)
    (hok : s.EndsSafely c o) : (s.finish c o).Quiet := by
  rw [Loop.finish]
  rw [EndsSafely] at hok
  -- the page fault, if any, leaves the requests as they are
  set t : Loop := if o.pageFault then s.fault c else s with ht
  have hfault : t.place ≠ .last → t.OnWay := by
    rw [ht]
    split
    · exact fault_onWay hs
    · exact fun hne => absurd hs hne
  have hpi : ∀ {way way' : Prop}, s.pi.Quiet way → (way → way') → t.pi.Quiet way' := by
    intro way way' hq hway
    have hq' := hq.mono fun _ => hway
    rw [ht]
    split
    · rw [fault_pi]
      exact ⟨hq'.idle, hq'.bus, hq'.pir⟩
    · exact hq'
  have htrue : t.pi.Quiet True := hpi h fun _ => trivial
  have hsafe : t.pi.Quiet False ∨ t.place ≠ .last ∨ t.GoesOn c o ∨ t.IsHeld c o
      ∨ t.piRestore = true ∧ t.pi.piEnable = true := by
    rcases hok with hp | hb | hok
    · exact Or.inl (hpi (show Pi.Quiet False _ from Pi.Quiet.of_pending h hp) id)
    · exact Or.inl (hpi (show Pi.Quiet False _ from Pi.Quiet.of_allBlocked h hb) id)
    · exact Or.inr hok
  dsimp only
  split
  · rename_i hplace
    exact htrue.mono fun _ _ => hfault hplace
  rename_i hplace
  rw [not_not] at hplace
  split
  · rename_i hcycle
    rcases dismiss_cases c o hplace hcycle htrue with
      ⟨hu, hucycle, hupi⟩ | ⟨hu, hgo, hurestore, hupi⟩
    · rw [if_pos (by simp [hu])]
      exact hupi.mono fun _ _ => ⟨by simp [hu], Or.inl hucycle⟩
    · rw [if_neg (by simp [hu])]
      refine Quiet.toTop ?_
      rcases hsafe with hq | hne | hgo' | hheld | hrest
      · rcases hupi with ⟨heq, -⟩ | heq <;> rw [heq]
        · exact Or.inl hq
        · exact Or.inl hq.setPiHold
      · exact absurd hplace hne
      · exact absurd hgo' hgo
      · rcases hupi with ⟨-, hnot⟩ | heq
        · exact absurd hheld hnot
        · rw [heq]
          exact Or.inl (htrue.hold hheld.2.2.2.2)
      · refine Or.inr ?_
        rw [hurestore]
        rcases hupi with ⟨heq, -⟩ | heq <;> rw [heq]
        · exact ⟨htrue, hrest⟩
        · rw [Pi.setPiHold_eq c hrest.2]
          exact ⟨Pi.setPiHold_eq c hrest.2 ▸ htrue.setPiHold, hrest⟩
  · rename_i hcycle
    rw [if_neg (by simp [hplace])]
    refine Quiet.toTop ?_
    rcases hsafe with hq | hne | hgo | hheld | hrest
    · exact Or.inl hq
    · exact absurd hplace hne
    · exact absurd hgo.1 hcycle
    · exact absurd hheld.1 hcycle
    · exact Or.inr ⟨htrue, hrest⟩

/-- Every event that meets the condition keeps the invariant. -/
lemma Quiet.step {c : Config} {s s' : Loop} {e : Event} (h : s.Quiet) (hok : s.Keeps c e)
    (hstep : Loop.step c s e = some s') : s'.Quiet := by
  cases e with
  | dev call => cases hstep; exact Pi.Quiet.dev h call
  | atTop => obtain ⟨hs, rfl⟩ := of_guard hstep; exact h.atTop hs
  | readInst ok => obtain ⟨hs, rfl⟩ := of_guard hstep; exact h.readInst ok hs
  | trap =>
      obtain ⟨-, rfl⟩ := of_guard hstep
      exact Pi.Quiet.mono h fun _ hw => ⟨hw.1, Or.inl rfl⟩
  | poll => obtain ⟨hs, rfl⟩ := of_guard hstep; exact h.poll hs
  | endAddress => obtain ⟨-, rfl⟩ := of_guard hstep; exact h.endAddress
  | cono data apr => obtain ⟨-, rfl⟩ := of_guard hstep; exact Pi.Quiet.cono h c data apr
  | blt => obtain ⟨hs, rfl⟩ := of_guard hstep; exact h.blt hs
  | noSkip => obtain ⟨-, rfl⟩ := of_guard hstep; exact h.noSkip
  | again => obtain ⟨-, rfl⟩ := of_guard hstep; exact h.move (Or.inl rfl)
  | done => obtain ⟨-, rfl⟩ := of_guard hstep; exact h.move (Or.inr rfl)
  | finish o => obtain ⟨hs, rfl⟩ := of_guard hstep; exact h.finish hs hok
  | ioReset | piOn | setXct | xct | jump | noFetch | overflow | jen =>
      -- the requests, the levels held and the point of the loop stay
      obtain ⟨-, rfl⟩ := of_guard hstep
      exact ⟨h.idle, h.bus, h.pir⟩

end Loop

/-- **No lost interrupt**: start the main loop after a reset, and let calls of devices, `CONO PI`,
grants, traps, page faults and dismissals follow in any order, with the end of every instruction
meeting `Loop.EndsSafely`. Then at every head of the loop, with the system on and no `PXCT` in
progress, a level that is requested and that no level held holds off has `pi_pending` on. -/
theorem no_lost_interrupt {c : Config} {s : Loop}
    (h : Reaches (ofPartial (Loop.step c)) (Loop.Keeps c) (Loop.start Pi.reset) s)
    (htop : s.place = .top) :
    s.pi.piEnable = true → s.NoPxct → (∃ l, s.Wanted l) → s.pi.piPending = true := by
  have hquiet : s.Quiet := by
    refine h.invariant ?_ fun t e t' ht hok hstep => ht.step hok hstep
    exact Pi.quiet_reset.mono fun _ hf => hf.elim
  rintro - - ⟨l, h1, h7, hreq, hfree⟩
  cases hp : s.pi.piPending with
  | true => rfl
  | false =>
      -- the bus is idle, so the level is requested by program, and nothing is on its way
      rw [Pi.piReq, hquiet.bus hp, Nat.zero_and, Nat.zero_or] at hreq
      rcases hquiet.pir hp l h1 h7 hreq with hb | ⟨hway, -⟩
      · exact absurd hb hfree
      · exact absurd htop hway.1

/-- A program turns the system on and requests level 1. -/
def request : List Loop.Event := [.atTop, .readInst true, .endAddress, .cono 0o4300 [], .done]

/-- The request is granted, and the interrupt instruction at location `042` is a `DATAO`. -/
def dataoCycle : List Loop.Event :=
  [.finish ⟨false, 0o700, 5⟩, .atTop, .readInst true, .poll, .endAddress, .endAddress, .done,
    .finish ⟨false, 0o700, 3⟩]

/-- The KL after `request`. -/
def requested : Loop :=
  (request.foldlM (Loop.step { build := .kl }) (Loop.start Pi.reset)).get (by decide +kernel)

/-- The KL after `request` and `dataoCycle`. -/
def requestLost : Loop :=
  ((request ++ dataoCycle).foldlM (Loop.step { build := .kl }) (Loop.start Pi.reset)).get
    (by decide +kernel)

/-- A `DATAO` as the interrupt instruction of a program request: the level is still requested and
not held, and `pi_pending` is off. -/
theorem no_lost_interrupt_fails :
    ¬ ∀ s, Reaches (ofPartial (Loop.step { build := .kl })) anyStep (Loop.start Pi.reset) s →
      s.place = .top → s.pi.piEnable = true → s.NoPxct → (∃ l, s.Wanted l) →
        s.pi.piPending = true := by
  intro h
  have hrun : Reaches (ofPartial (Loop.step { build := .kl })) anyStep (Loop.start Pi.reset)
      requestLost := Reaches.foldlM (fun _ _ _ => trivial) (Option.some_get _).symm
  have hwanted : requestLost.Wanted 1 :=
    ⟨le_rfl, by norm_num, by decide, Pi.not_blocked_of_idle (by decide)⟩
  have hp := h _ hrun (by decide) (by decide) (Or.inl (by decide))
    ⟨1, hwanted⟩
  exact absurd hp (by decide)

/-- The end of the instruction that makes the request meets the condition. -/
theorem no_lost_interrupt_requested :
    (requested.finish { build := .kl } ⟨false, 0o700, 5⟩).pi.piPending = true := by
  have hrun : Reaches (ofPartial (Loop.step { build := .kl })) (Loop.Keeps { build := .kl })
      (Loop.start Pi.reset) requested :=
    Reaches.foldlM (show ∀ e ∈ request, ∀ s, Loop.Keeps { build := .kl } s e by
      simp [request, Loop.Keeps]) (Option.some_get _).symm
  have hlast : requested.place = .last := by decide
  have hstep : Loop.step { build := .kl } requested (.finish ⟨false, 0o700, 5⟩)
      = some (requested.finish { build := .kl } ⟨false, 0o700, 5⟩) := by
    rw [Loop.step, if_pos hlast]
  have hok : requested.Keeps { build := .kl } (.finish ⟨false, 0o700, 5⟩) :=
    Or.inl (by decide)
  exact no_lost_interrupt (.next hrun hok hstep) (by decide) (by decide)
    (Or.inl (by decide))
    ⟨1, le_rfl, by norm_num, by decide, Pi.not_blocked_of_idle (by decide)⟩

end Ka10Simh.Pdp10
