import Ka10Simh.Lib.Bits
import Ka10Simh.Lib.Reaches

/-!
The interrupt bus of `kx10_cpu.c`: the requests of the devices and the bus word.

Every device has one entry of `dev_irq`, holding the bit of the level `1`–`7` it requests
(level `l` is the bit `0200 >> l`) and, on the multiplexed bus, a channel number above it. The
word `IOB_PI` caches the union of the entries.

* `Pi`: the words of the priority interrupt system.
* `setInterrupt`, `setInterruptMpx`, `clrInterrupt`: the three calls of a device.
* `Agrees`: the seven level bits of `IOB_PI` are those of the union of the entries;
  `agrees_iff` says it level by level.
* `DevCall.Keeps`: the condition under which a call keeps the agreement. `clrInterrupt`
  recomputes the word and always does; the two setters overwrite the entry of the device but
  only add to the word, so they do unless they take the device off a level that nobody else
  requests (`DevCall.agrees_step_iff`).
-/

namespace Ka10Simh.Pdp10

open TransSys Word

/-- `MAX_DEV`: the number of entries of `dev_irq`. -/
abbrev maxDev : ℕ := 128

/-- A device number, `0`–`0777`; the low two bits select the transfer and not the device. -/
abbrev Dev : Type := Fin 0o1000

/-- `dev >> 2`, the entry of a device. -/
def Dev.slot (dev : Dev) : Fin maxDev := ⟨dev.val >>> 2, by
  have := dev.isLt
  show _ < 128
  omega⟩

/-- Level `l` is set in the word `w`. -/
def HasLevel (w l : ℕ) : Prop := w &&& 0o200 >>> l ≠ 0

instance (w l : ℕ) : Decidable (HasLevel w l) := inferInstanceAs (Decidable (_ ≠ _))

/-- The words of the priority interrupt system. -/
structure Pi where
  /-- `dev_irq`, the pending request of each device (`uint16`). -/
  devIrq : Fin maxDev → ℕ
  /-- `IOB_PI`, the input bus signals (`uint16`). -/
  iobPi : ℕ
  /-- `PIR`, the requests made by program. -/
  pir : ℕ
  /-- `PIH`, the levels held. -/
  pih : ℕ
  /-- `PIE`, the levels enabled. -/
  pie : ℕ
  /-- `pi_enable`, the interrupt system is on. -/
  piEnable : Bool
  /-- `pi_pending`, the main loop has to look for an interrupt. -/
  piPending : Bool
  /-- `pi_enc`, the level of the last interrupt found. -/
  piEnc : ℕ
  /-- `xct_flag`, the previous context bits of the instruction executed by `PXCT`. -/
  xctFlag : ℕ
  /-- `mpx_enable`, the interrupt multiplexer is on. -/
  mpxEnable : Bool
  /-- `parity_irq`, the parity interrupt. -/
  parityIrq : Bool

namespace Pi

/-- The state `cpu_reset` leaves. -/
def reset : Pi where
  devIrq := fun _ => 0
  iobPi := 0
  pir := 0
  pih := 0
  pie := 0
  piEnable := false
  piPending := false
  piEnc := 0
  xctFlag := 0
  mpxEnable := false
  parityIrq := false

/-- `set_interrupt`: request level `lvl`; level `0` means that the device may not interrupt. -/
def setInterrupt (dev : Dev) (lvl : ℕ) (s : Pi) : Pi :=
  let lvl := lvl &&& 7
  if lvl ≠ 0 then
    { s with
      devIrq := Function.update s.devIrq dev.slot (0o200 >>> lvl)
      piPending := true
      iobPi := s.iobPi ||| 0o200 >>> lvl }
  else s

/-- `set_interrupt_mpx`: on level `1` the request carries the channel `mpx` above the level
bits of the 16-bit entry. -/
def setInterruptMpx (dev : Dev) (lvl mpx : ℕ) (s : Pi) : Pi :=
  let lvl := lvl &&& 7
  if lvl ≠ 0 then
    let irq := if lvl = 1 ∧ mpx ≠ 0 then (0o200 >>> lvl ||| mpx <<< 8) % 2 ^ 16 else 0o200 >>> lvl
    { s with
      devIrq := Function.update s.devIrq dev.slot irq
      piPending := true
      iobPi := s.iobPi ||| 0o200 >>> lvl }
  else s

/-- The union of the requests of all devices. -/
def irqOr (s : Pi) : ℕ := (List.finRange maxDev).foldl (fun lvl i => lvl ||| s.devIrq i) 0

/-- `clr_interrupt`: drop the request and update the bus. -/
def clrInterrupt (dev : Dev) (s : Pi) : Pi :=
  let s := { s with devIrq := Function.update s.devIrq dev.slot 0 }
  { s with iobPi := s.irqOr }

/-- The seven level bits of the bus are those of the union of the requests. -/
def Agrees (s : Pi) : Prop := s.iobPi &&& 0o177 = s.irqOr &&& 0o177

instance (s : Pi) : Decidable s.Agrees := inferInstanceAs (Decidable (_ = _))

/-- Level `l` is requested on the bus. -/
def OnBus (s : Pi) (l : ℕ) : Prop := HasLevel s.iobPi l

/-- A device requests level `l`. -/
def Requests (s : Pi) (i : Fin maxDev) (l : ℕ) : Prop := HasLevel (s.devIrq i) l

end Pi

/-- A call of a device on the interrupt bus. -/
inductive DevCall
  | set (dev : Dev) (lvl : ℕ)
  | setMpx (dev : Dev) (lvl mpx : ℕ)
  | clr (dev : Dev)

namespace DevCall

/-- What a call does. -/
def apply (s : Pi) : DevCall → Pi
  | set dev lvl => s.setInterrupt dev lvl
  | setMpx dev lvl mpx => s.setInterruptMpx dev lvl mpx
  | clr dev => s.clrInterrupt dev

/-- Every level the device requests is the new one or is requested by another device. -/
def KeepsLevels (s : Pi) (dev : Dev) (lvl : ℕ) : Prop :=
  ∀ l, 1 ≤ l → l ≤ 7 → s.Requests dev.slot l → l = lvl ∨ ∃ i ≠ dev.slot, s.Requests i l

/-- The condition under which a call keeps the bus in step with the requests: a device is not
moved off a level that it alone requests. -/
def Keeps (s : Pi) : DevCall → Prop
  | set dev lvl => lvl &&& 7 ≠ 0 → KeepsLevels s dev (lvl &&& 7)
  | setMpx dev lvl _ => lvl &&& 7 ≠ 0 → KeepsLevels s dev (lvl &&& 7)
  | clr _ => True

end DevCall

/-! ### Levels as bits -/

/-- Level `l` is bit `7 - l`. -/
lemma level_bit {l : ℕ} (hl : l ≤ 7) : 0o200 >>> l = 2 ^ (7 - l) := by
  interval_cases l <;> rfl

lemma hasLevel_iff {w l : ℕ} (hl : l ≤ 7) : HasLevel w l ↔ w.testBit (7 - l) = true := by
  rw [HasLevel, level_bit hl, and_two_pow_ne_zero]

@[simp] lemma hasLevel_zero (l : ℕ) : ¬ HasLevel 0 l := by simp [HasLevel]

lemma hasLevel_or {v w l : ℕ} (hl : l ≤ 7) :
    HasLevel (v ||| w) l ↔ HasLevel v l ∨ HasLevel w l := by
  rw [hasLevel_iff hl, hasLevel_iff hl, hasLevel_iff hl, Nat.testBit_or, Bool.or_eq_true]

lemma hasLevel_bic {v w l : ℕ} (hl : l ≤ 7) :
    HasLevel (bic v w) l ↔ HasLevel v l ∧ ¬ HasLevel w l := by
  rw [hasLevel_iff hl, hasLevel_iff hl, hasLevel_iff hl, testBit_bic, Bool.and_eq_true,
    Bool.not_eq_true', Bool.not_eq_true]

/-- The word of one level has that level only. -/
lemma hasLevel_level {l m : ℕ} (hl : l ≤ 7) (hm : m ≤ 7) : HasLevel (0o200 >>> m) l ↔ l = m := by
  rw [hasLevel_iff hl, level_bit hm, Nat.testBit_two_pow, decide_eq_true_iff]
  lia

lemma level_le (lvl : ℕ) : lvl &&& 7 ≤ 7 := Nat.and_le_right

/-- The channel of a multiplexed request lies above the level bits. -/
lemma hasLevel_mpx_irq {w mpx l : ℕ} (hl : l ≤ 7) :
    HasLevel ((w ||| mpx <<< 8) % 2 ^ 16) l ↔ HasLevel w l := by
  have hlow : ¬ 8 ≤ 7 - l := by omega
  rw [hasLevel_iff hl, hasLevel_iff hl, Nat.testBit_mod_two_pow, Nat.testBit_or,
    Nat.testBit_shiftLeft]
  simp [hlow, show 7 - l < 16 by omega]

namespace Pi

lemma testBit_irqOr (s : Pi) (k : ℕ) :
    s.irqOr.testBit k = true ↔ ∃ i, (s.devIrq i).testBit k = true := by
  rw [irqOr, testBit_foldl_or]
  simp

/-- The agreement level by level: a level is on the bus exactly when a device requests it. -/
lemma agrees_iff {s : Pi} :
    s.Agrees ↔ ∀ l, 1 ≤ l → l ≤ 7 → (s.OnBus l ↔ ∃ i, s.Requests i l) := by
  have hbits : s.Agrees ↔ ∀ k < 7, s.iobPi.testBit k = s.irqOr.testBit k :=
    and_mask_eq_iff (n := 7)
  rw [hbits]
  constructor
  · intro h l h1 h7
    rw [OnBus, hasLevel_iff h7, h (7 - l) (by omega), testBit_irqOr]
    exact exists_congr fun i => (hasLevel_iff h7).symm
  · intro h k hk
    have hl := h (7 - k) (by omega) (by omega)
    rw [OnBus, hasLevel_iff (by omega), show 7 - (7 - k) = k by omega] at hl
    rw [Bool.eq_iff_iff, hl, testBit_irqOr]
    refine exists_congr fun i => ?_
    rw [Requests, hasLevel_iff (by omega), show 7 - (7 - k) = k by omega]

lemma agrees_reset : reset.Agrees := by
  rw [agrees_iff]
  intro l _ _
  simp [OnBus, Requests, reset]

/-- What a setter does to the levels: the entry of the device becomes the level `lvl` alone. -/
structure SetsLevel (s s' : Pi) (dev : Dev) (lvl : ℕ) : Prop where
  onBus : ∀ l, 1 ≤ l → l ≤ 7 → (s'.OnBus l ↔ s.OnBus l ∨ l = lvl)
  here : ∀ l, 1 ≤ l → l ≤ 7 → (s'.Requests dev.slot l ↔ l = lvl)
  other : ∀ i ≠ dev.slot, s'.devIrq i = s.devIrq i

lemma onBus_or {w l lvl : ℕ} (hl : l ≤ 7) (hlvl : lvl ≤ 7) :
    HasLevel (w ||| 0o200 >>> lvl) l ↔ HasLevel w l ∨ l = lvl := by
  rw [hasLevel_or hl, hasLevel_level hl hlvl]

lemma setInterrupt_setsLevel (s : Pi) (dev : Dev) {lvl : ℕ} (h : lvl &&& 7 ≠ 0) :
    SetsLevel s (s.setInterrupt dev lvl) dev (lvl &&& 7) := by
  have hlvl := level_le lvl
  simp only [setInterrupt, if_pos h]
  refine ⟨fun l _ hl => onBus_or hl hlvl, fun l _ hl => ?_, fun i hi => ?_⟩
  · simp only [Requests, Function.update_self]
    exact hasLevel_level hl hlvl
  · exact Function.update_of_ne hi _ _

lemma setInterruptMpx_setsLevel (s : Pi) (dev : Dev) {lvl : ℕ} (mpx : ℕ) (h : lvl &&& 7 ≠ 0) :
    SetsLevel s (s.setInterruptMpx dev lvl mpx) dev (lvl &&& 7) := by
  have hlvl := level_le lvl
  simp only [setInterruptMpx, if_pos h]
  refine ⟨fun l _ hl => onBus_or hl hlvl, fun l _ hl => ?_, fun i hi => ?_⟩
  · simp only [Requests, Function.update_self]
    split
    · rw [hasLevel_mpx_irq hl, hasLevel_level hl hlvl]
    · exact hasLevel_level hl hlvl
  · exact Function.update_of_ne hi _ _

/-- A setter keeps the agreement exactly when it drops no level. -/
lemma SetsLevel.agrees_iff {s s' : Pi} {dev : Dev} {lvl : ℕ} (h : SetsLevel s s' dev lvl)
    (hs : s.Agrees) : s'.Agrees ↔ DevCall.KeepsLevels s dev lvl := by
  rw [Pi.agrees_iff] at hs ⊢
  -- the other devices request what they did
  have hother : ∀ i ≠ dev.slot, ∀ l, s'.Requests i l ↔ s.Requests i l := fun i hi l => by
    rw [Requests, Requests, h.other i hi]
  constructor
  · intro hs' l h1 h7 hreq
    have hbus : s'.OnBus l := (h.onBus l h1 h7).mpr (Or.inl ((hs l h1 h7).mpr ⟨_, hreq⟩))
    obtain ⟨i, hi⟩ := (hs' l h1 h7).mp hbus
    by_cases hdev : i = dev.slot
    · exact Or.inl ((h.here l h1 h7).mp (hdev ▸ hi))
    · exact Or.inr ⟨i, hdev, (hother i hdev l).mp hi⟩
  · intro hkeep l h1 h7
    rw [h.onBus l h1 h7, hs l h1 h7]
    constructor
    · rintro (⟨i, hi⟩ | hl)
      · by_cases hdev : i = dev.slot
        · rcases hkeep l h1 h7 (hdev ▸ hi) with hl | ⟨j, hj, hreq⟩
          · exact ⟨dev.slot, (h.here l h1 h7).mpr hl⟩
          · exact ⟨j, (hother j hj l).mpr hreq⟩
        · exact ⟨i, (hother i hdev l).mpr hi⟩
      · exact ⟨dev.slot, (h.here l h1 h7).mpr hl⟩
    · rintro ⟨i, hi⟩
      by_cases hdev : i = dev.slot
      · exact Or.inr ((h.here l h1 h7).mp (hdev ▸ hi))
      · exact Or.inl ⟨i, (hother i hdev l).mp hi⟩

lemma clrInterrupt_iobPi (s : Pi) (dev : Dev) :
    (s.clrInterrupt dev).iobPi = (s.clrInterrupt dev).irqOr := by
  simp only [clrInterrupt, irqOr]

/-- Clearing a request recomputes the bus. -/
lemma agrees_clrInterrupt (s : Pi) (dev : Dev) : (s.clrInterrupt dev).Agrees := by
  rw [Agrees, clrInterrupt_iobPi]

end Pi

/-! ### The calls of the devices -/

/-- **One call of a device** keeps the bus in step with the requests exactly when it meets
`DevCall.Keeps`. -/
theorem DevCall.agrees_step_iff {s : Pi} (hs : s.Agrees) (c : DevCall) :
    (c.apply s).Agrees ↔ c.Keeps s := by
  cases c with
  | set dev lvl =>
      by_cases h : lvl &&& 7 = 0
      · simp [apply, Keeps, Pi.setInterrupt, h, hs]
      · simp only [apply, Keeps, ne_eq, h, not_false_iff, forall_const]
        exact (s.setInterrupt_setsLevel dev h).agrees_iff hs
  | setMpx dev lvl mpx =>
      by_cases h : lvl &&& 7 = 0
      · simp [apply, Keeps, Pi.setInterruptMpx, h, hs]
      · simp only [apply, Keeps, ne_eq, h, not_false_iff, forall_const]
        exact (s.setInterruptMpx_setsLevel dev mpx h).agrees_iff hs
  | clr dev => simp [apply, Keeps, Pi.agrees_clrInterrupt]

/-- **The bus carries the requests of the devices**: in every run of device calls from reset
that never moves a device off a level it alone requests, the level bits of `IOB_PI` are the
union of the requests, that is, a level is on the bus exactly when a device requests it. -/
theorem bus_agrees {s : Pi}
    (h : Reaches (ofFun DevCall.apply) (fun s c => c.Keeps s) Pi.reset s) :
    s.iobPi &&& 0o177 = s.irqOr &&& 0o177
      ∧ ∀ l, 1 ≤ l → l ≤ 7 → (s.OnBus l ↔ ∃ i, s.Requests i l) := by
  have hs : s.Agrees := h.invariant Pi.agrees_reset fun t c t' ht hok hstep => by
    rw [← hstep]
    exact (c.agrees_step_iff ht).mpr hok
  exact ⟨hs, Pi.agrees_iff.mp hs⟩

/-- A device that requests level 1 and then level 2 without a clear in between. -/
def relevel : List DevCall := [.set 4 1, .set 4 2]

/-- Without the condition the bus keeps the level the device has left. -/
theorem bus_agrees_fails :
    ¬ ∀ s, Reaches (ofFun DevCall.apply) anyStep Pi.reset s →
      s.iobPi &&& 0o177 = s.irqOr &&& 0o177 := fun h =>
  absurd (h (relevel.foldl DevCall.apply Pi.reset) (Reaches.foldl (fun _ _ _ => trivial) Pi.reset))
    (by decide +kernel)

/-- The run of one request and one clear. -/
theorem bus_agrees_set_clr :
    (((Pi.reset.setInterrupt 4 1).clrInterrupt 4).iobPi &&& 0o177
        = ((Pi.reset.setInterrupt 4 1).clrInterrupt 4).irqOr &&& 0o177)
      ∧ ∀ l, 1 ≤ l → l ≤ 7 → (((Pi.reset.setInterrupt 4 1).clrInterrupt 4).OnBus l ↔
          ∃ i, ((Pi.reset.setInterrupt 4 1).clrInterrupt 4).Requests i l) :=
  bus_agrees (.next (.next .start
    (e := .set 4 1) (fun _ l _ _ h => absurd h (by simp [Pi.Requests, Pi.reset])) rfl)
    (e := .clr 4) trivial rfl)

end Ka10Simh.Pdp10
