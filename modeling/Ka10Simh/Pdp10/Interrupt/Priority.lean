import Ka10Simh.Pdp10.Config
import Ka10Simh.Pdp10.Interrupt.Bus

/-!
The priority logic of `kx10_cpu.c`: finding an interrupt to grant, holding its level, dismissing
it, and the `CONO PI` instruction.

* `scan` is the loop over the levels, from 1 down in priority to 7, that stops at the first
  level held; `scan_found` and `scan_none` are all that is used of it.
* `checkIrqLevel`, `setPiHold`, `restorePiHold`, `devPiCono` follow the functions of the same
  name; `checkIrqLevel_true` and `checkIrqLevel_frame` say what the first of them does.
* `Nest` runs these against each other in any order, with the levels held written down in the
  order they were granted. `priority_nesting`: the levels held form a stack ordered by
  priority, a grant goes above all of it and a dismissal removes its top.
-/

namespace Ka10Simh.Pdp10

open TransSys Word

namespace Pi

/-- `mpx_enable && cpu_unit[0].flags & UNIT_MPX`, which only the KA build compiles. -/
def mpxOn (c : Config) (s : Pi) : Bool := c.build == .ka && s.mpxEnable && c.unitMpx

/-- `(lvl & PIE) | PIR`: the levels requested by enabled devices and by program. -/
def piReq (s : Pi) : ℕ := (s.iobPi &&& s.pie) ||| s.pir

/-- The loop over the last `n` levels: it stops at a level held, and finds the first level
requested. The second component is the level it stopped at. -/
def scan (pih req : ℕ) : ℕ → Bool × ℕ
  | 0 => (false, 8)
  | n + 1 =>
      if HasLevel pih (7 - n) then (false, 7 - n)
      else if HasLevel req (7 - n) then (true, 7 - n)
      else scan pih req n

/-- The lowest channel that requests level 1 on the multiplexer, `010` if there is none. -/
def mpxEnc (s : Pi) : ℕ :=
  (List.finRange maxDev).foldl
    (fun enc i =>
      if s.devIrq i &&& 0o100 ≠ 0 ∧ s.devIrq i >>> 8 ≠ 0 ∧ s.devIrq i >>> 8 < enc then
        s.devIrq i >>> 8
      else enc) 0o10

/-- The multiplexer is asked: it is on, level 1 is requested and is not held. -/
def asksMpx (c : Config) (s : Pi) : Bool :=
  s.mpxOn c && HasLevel s.piReq 1 && !HasLevel s.pih 1

/-- `check_irq_level` with the system off: only a program request is looked for. -/
def checkOff (c : Config) (s : Pi) : Bool × Pi :=
  if c.build ≠ .pdp6 ∧ s.pir ≠ 0 then
    ((scan s.pih s.pir 7).1, { s with piEnc := (scan s.pih s.pir 7).2 })
  else (false, s)

/-- The last part of `check_irq_level`: the requests that are held off by no level. -/
def findLevel (s : Pi) : Bool × Pi :=
  if (scan s.pih s.piReq 7).1 then (true, { s with piEnc := (scan s.pih s.piReq 7).2 })
  else (false, s)

/-- `check_irq_level` with the system on. -/
def checkOn (c : Config) (s : Pi) : Bool × Pi :=
  if s.asksMpx c then
    if s.mpxEnc ≠ 0o10 then (true, { s with piEnc := s.mpxEnc + 0o10 })
    else findLevel { s with piEnc := 0o10 }
  else findLevel s

/-- `check_irq_level`: whether an interrupt can be granted, with its level in `pi_enc`. An idle
bus clears `pi_pending`, whatever the program has requested. -/
def checkIrqLevel (c : Config) (s : Pi) : Bool × Pi :=
  if s.xctFlag ≠ 0 then (false, s)
  else if !s.piEnable then s.checkOff c
  else checkOn c { s with piPending := if s.iobPi = 0 then false else s.piPending }

/-- The level `set_pi_hold` holds: a multiplexer channel stands for level 1. -/
def holdLevel (c : Config) (s : Pi) : ℕ := if s.mpxOn c ∧ 7 < s.piEnc then 1 else s.piEnc

/-- `set_pi_hold`: hold interrupts at the current level. -/
def setPiHold (c : Config) (s : Pi) : Pi :=
  let lvl := 0o200 >>> s.holdLevel c
  let s := { s with pir := bic s.pir lvl }
  if s.piEnable then { s with pih := s.pih ||| lvl } else s

/-- The highest of the last `n` levels that is held. -/
def highestHeld (pih : ℕ) : ℕ → Option ℕ
  | 0 => none
  | n + 1 => if HasLevel pih (7 - n) then some (7 - n) else highestHeld pih n

/-- `restore_pi_hold`: dismiss the highest interrupt held. -/
def restorePiHold (s : Pi) : Pi :=
  if !s.piEnable then s
  else
    let s := match highestHeld s.pih 7 with
      | some l => { s with pir := bic s.pir (0o200 >>> l), pih := bic s.pih (0o200 >>> l) }
      | none => s
    { s with piPending := true }

/-- `if (data & m) …`: do `f` when the bit `m` of the word is set. -/
def onBit (data m : ℕ) (f : Pi → Pi) (s : Pi) : Pi := if data &&& m ≠ 0 then f s else s

/-- The builds whose `CONO PI` sets the parity interrupt. -/
def setsParity (c : Config) : Bool := c.build == .pdp6 || c.build == .ka || c.build == .ki

/-- Set the words of the interrupt system as `CONO PI` (on the KS10 `WRPI`) asks. -/
def conoPi (c : Config) (data : ℕ) (s : Pi) : Pi :=
  s |> onBit data 0o10000 (fun s =>
      { s with
        pir := 0, pih := 0, pie := 0, piEnable := false, parityIrq := false
        mpxEnable := if c.build = .ka then false else s.mpxEnable })
    |> onBit data 0o200 (fun s => { s with piEnable := true })
    |> onBit data 0o400 (fun s => { s with piEnable := false })
    |> onBit data 0o1000 (fun s => { s with pie := bic s.pie (data &&& 0o177) })
    |> onBit data 0o2000 (fun s => { s with pie := s.pie ||| data &&& 0o177 })
    |> onBit data 0o4000 (fun s =>
      { s with pir := s.pir ||| data &&& 0o177, piPending := true })
    |> onBit data 0o20000 (fun s =>
      { s with mpxEnable := s.mpxEnable || (c.build == .ka && c.unitMpx) })
    |> onBit data 0o20000 (fun s =>
      { s with pir := if c.kiOrLater then bic s.pir (data &&& 0o177) else s.pir })
    |> onBit data 0o40000 (fun s => { s with parityIrq := s.parityIrq || setsParity c })
    |> onBit data 0o100000 (fun s => { s with parityIrq := s.parityIrq && !setsParity c })

/-- `dev_pi` on `CONO`: the words are set, and `check_apr_irq` then makes the calls `apr` for
the processor's own conditions. -/
def devPiCono (c : Config) (data : ℕ) (apr : List DevCall) (s : Pi) : Pi :=
  apr.foldl DevCall.apply (s.conoPi c data)

/-! ### The loop over the levels -/

/-- What the loop finds is requested, and neither it nor a level above it is held. -/
lemma scan_found {pih req n i : ℕ} (hn : n ≤ 7) (h : scan pih req n = (true, i)) :
    8 - n ≤ i ∧ i ≤ 7 ∧ HasLevel req i ∧ ∀ j, 8 - n ≤ j → j ≤ i → ¬ HasLevel pih j := by
  induction n with
  | zero => simp [scan] at h
  | succ n ih =>
      rw [scan] at h
      split at h
      · simp at h
      rename_i hheld
      split at h
      · rename_i hreq
        simp only [Prod.mk.injEq, true_and] at h
        subst h
        refine ⟨by lia, by omega, hreq, fun j h1 h2 => ?_⟩
        rwa [show j = 7 - n by lia]
      · obtain ⟨h1, h2, h3, h4⟩ := ih (by omega) h
        refine ⟨by omega, h2, h3, fun j hj hji => ?_⟩
        by_cases hjn : j = 7 - n
        · rwa [hjn]
        · exact h4 j (by lia) hji

/-- The loop finds the first level requested. -/
lemma scan_first {pih req n i : ℕ} (hn : n ≤ 7) (h : scan pih req n = (true, i)) {j : ℕ}
    (h1 : 8 - n ≤ j) (hji : j < i) : ¬ HasLevel req j := by
  induction n with
  | zero => simp [scan] at h
  | succ n ih =>
      rw [scan] at h
      split at h
      · simp at h
      split at h
      · simp only [Prod.mk.injEq, true_and] at h
        lia
      · rename_i hnreq
        by_cases hjn : j = 7 - n
        · rwa [hjn]
        · exact ih (by omega) h (by lia)

/-- When the loop finds nothing, every level requested has a level held at or above it. -/
lemma scan_none {pih req n : ℕ} (hn : n ≤ 7) (h : (scan pih req n).1 = false) {i : ℕ}
    (h1 : 8 - n ≤ i) (h7 : i ≤ 7) (hreq : HasLevel req i) :
    ∃ j, 8 - n ≤ j ∧ j ≤ i ∧ HasLevel pih j := by
  induction n with
  | zero => omega
  | succ n ih =>
      rw [scan] at h
      split at h
      · rename_i hheld
        exact ⟨7 - n, by lia, by lia, hheld⟩
      rename_i hheld
      split at h
      · simp at h
      rename_i hnreq
      have hne : i ≠ 7 - n := fun heq => hnreq (heq ▸ hreq)
      obtain ⟨j, hj1, hj2, hj3⟩ := ih (by omega) h (by lia)
      exact ⟨j, by lia, hj2, hj3⟩

lemma highestHeld_some {pih n l : ℕ} (hn : n ≤ 7) (h : highestHeld pih n = some l) :
    8 - n ≤ l ∧ l ≤ 7 ∧ HasLevel pih l ∧ ∀ j, 8 - n ≤ j → j < l → ¬ HasLevel pih j := by
  induction n with
  | zero => simp [highestHeld] at h
  | succ n ih =>
      rw [highestHeld] at h
      split at h
      · rename_i hheld
        cases h
        exact ⟨by lia, by omega, hheld, fun j h1 h2 => by lia⟩
      · rename_i hheld
        obtain ⟨h1, h2, h3, h4⟩ := ih (by omega) h
        refine ⟨by omega, h2, h3, fun j hj hjl => ?_⟩
        by_cases hjn : j = 7 - n
        · rwa [hjn]
        · exact h4 j (by lia) hjl

lemma highestHeld_none {pih n : ℕ} (hn : n ≤ 7) (h : highestHeld pih n = none) {j : ℕ}
    (h1 : 8 - n ≤ j) (h7 : j ≤ 7) : ¬ HasLevel pih j := by
  induction n with
  | zero => omega
  | succ n ih =>
      rw [highestHeld] at h
      split at h
      · cases h
      · rename_i hheld
        by_cases hjn : j = 7 - n
        · rwa [hjn]
        · exact ih (by omega) h (by lia)

/-! ### What `check_irq_level` does -/

/-- A level at or above `l` is held. -/
def Blocked (s : Pi) (l : ℕ) : Prop := ∃ j, 1 ≤ j ∧ j ≤ l ∧ HasLevel s.pih j

lemma not_blocked_of_idle {s : Pi} (h : s.pih = 0) {l : ℕ} : ¬ s.Blocked l := by
  rintro ⟨j, -, -, hj⟩
  rw [h] at hj
  exact hasLevel_zero j hj

/-- The level a value of `pi_enc` stands for. -/
def encLevel (enc : ℕ) : ℕ := if 7 < enc then 1 else enc

/-- Level `l` can be granted: neither it nor a level above it is held. -/
def Free (s : Pi) (l : ℕ) : Prop := 1 ≤ l ∧ l ≤ 7 ∧ ∀ j, 1 ≤ j → j ≤ l → ¬ HasLevel s.pih j

lemma Free.not_blocked {s : Pi} {l : ℕ} (h : s.Free l) : ¬ s.Blocked l := by
  rintro ⟨j, h1, h2, hj⟩
  exact h.2.2 j h1 h2 hj

/-- A free level is above every level held. -/
lemma Free.lt {s : Pi} {l m : ℕ} (h : s.Free l) (hm : 1 ≤ m) (hheld : HasLevel s.pih m) :
    l < m := by
  by_contra hle
  exact h.2.2 m hm (by omega) hheld

lemma Free.of_scan {s : Pi} {req i : ℕ} (h : scan s.pih req 7 = (true, i)) : s.Free i := by
  obtain ⟨h1, h7, -, hfree⟩ := scan_found le_rfl h
  exact ⟨h1, h7, hfree⟩

lemma encLevel_of_free {s : Pi} {l : ℕ} (h : s.Free l) : encLevel l = l := by
  rw [encLevel, if_neg (by have := h.2.1; omega)]

lemma asksMpx_iff {c : Config} {s : Pi} :
    s.asksMpx c = true ↔ s.mpxOn c = true ∧ HasLevel s.piReq 1 ∧ ¬ HasLevel s.pih 1 := by
  simp [asksMpx, and_assoc]

lemma Free.of_asksMpx {c : Config} {s : Pi} (h : s.asksMpx c = true) : s.Free 1 := by
  refine ⟨le_rfl, by norm_num, fun j h1 h2 => ?_⟩
  rw [show j = 1 by omega]
  exact (asksMpx_iff.mp h).2.2

/-- What a search for a level may find: the level of the new `pi_enc` is free and everything
else is as it was. -/
structure Finds (s s' : Pi) (req : ℕ) : Prop where
  free : s.Free (encLevel s'.piEnc)
  requested : HasLevel req (encLevel s'.piEnc)
  frame : s' = { s with piEnc := s'.piEnc }

/-- Nothing is found: every level requested is held off. -/
def AllBlocked (s : Pi) (req : ℕ) : Prop := ∀ l, 1 ≤ l → l ≤ 7 → HasLevel req l → s.Blocked l

lemma scan_cases (s : Pi) (req : ℕ) :
    (∃ i, scan s.pih req 7 = (true, i) ∧ Finds s { s with piEnc := i } req)
      ∨ ((scan s.pih req 7).1 = false ∧ s.AllBlocked req) := by
  cases h : scan s.pih req 7 with
  | mk found i =>
      cases found with
      | true =>
          have hfree := Free.of_scan h
          have hreq := (scan_found le_rfl h).2.2.1
          refine Or.inl ⟨i, rfl, ?_, ?_, rfl⟩
          · show s.Free (encLevel i)
            rwa [encLevel_of_free hfree]
          · show HasLevel req (encLevel i)
            rwa [encLevel_of_free hfree]
      | false =>
          refine Or.inr ⟨rfl, fun l h1 h7 hreq => ?_⟩
          exact scan_none le_rfl (by rw [h]) (by omega) h7 hreq

lemma findLevel_cases (s : Pi) :
    (∃ s', s.findLevel = (true, s') ∧ Finds s s' s.piReq)
      ∨ (s.findLevel = (false, s) ∧ s.AllBlocked s.piReq) := by
  rcases s.scan_cases s.piReq with ⟨i, h, hf⟩ | ⟨h, hb⟩
  · exact Or.inl ⟨_, by rw [findLevel, h, if_pos rfl], hf⟩
  · exact Or.inr ⟨by rw [findLevel, h, if_neg Bool.false_ne_true], hb⟩

/-- With the system on a search finds a free level that is requested, or every request is held
off and nothing changes. -/
lemma checkOn_cases (c : Config) (s : Pi) :
    (∃ s', s.checkOn c = (true, s') ∧ Finds s s' s.piReq)
      ∨ (s.checkOn c = (false, s) ∧ s.AllBlocked s.piReq) := by
  rw [checkOn]
  split
  · rename_i hmpx
    have hfree := Free.of_asksMpx hmpx
    split
    · refine Or.inl ⟨_, rfl, ?_, ?_, rfl⟩ <;>
        rw [encLevel, if_pos (show 7 < s.mpxEnc + 0o10 by omega)]
      · exact hfree
      · exact (asksMpx_iff.mp hmpx).2.1
    · -- no device asks the multiplexer, and the loop finds level 1
      rcases findLevel_cases { s with piEnc := 0o10 } with ⟨s', h, hf⟩ | ⟨-, hb⟩
      · refine Or.inl ⟨s', h, hf.free, hf.requested, ?_⟩
        rw [hf.frame]
      · exact absurd (hb 1 le_rfl (by norm_num) (asksMpx_iff.mp hmpx).2.1) hfree.not_blocked
  · exact s.findLevel_cases

/-- **A grant goes above every level held**: with the system on, whatever level
`check_irq_level` finds, it and the levels above it are not held. -/
lemma checkIrqLevel_true {c : Config} {s : Pi} (he : s.piEnable = true)
    (h : (s.checkIrqLevel c).1 = true) :
    s.Free (encLevel (s.checkIrqLevel c).2.piEnc)
      ∧ HasLevel s.piReq (encLevel (s.checkIrqLevel c).2.piEnc) := by
  rw [checkIrqLevel] at h ⊢
  split at h
  · cases h
  rename_i hx
  rw [if_neg (by simp [he])] at h
  rw [if_neg hx, if_neg (by simp [he])]
  rcases checkOn_cases c { s with piPending := if s.iobPi = 0 then false else s.piPending }
    with ⟨s', hs', hf⟩ | ⟨hs', -⟩
  · rw [hs']; exact ⟨hf.free, hf.requested⟩
  · rw [hs'] at h; cases h

/-- `check_irq_level` writes `pi_pending` and `pi_enc` only, and with the system on it leaves
`pi_enc` alone unless it finds an interrupt. -/
lemma checkIrqLevel_frame (c : Config) (s : Pi) :
    (s.checkIrqLevel c).2
        = { s with
            piPending := (s.checkIrqLevel c).2.piPending, piEnc := (s.checkIrqLevel c).2.piEnc }
      ∧ (s.piEnable = true → (s.checkIrqLevel c).1 = false →
          (s.checkIrqLevel c).2.piEnc = s.piEnc) := by
  rw [checkIrqLevel]
  split
  · exact ⟨rfl, fun _ _ => rfl⟩
  split
  · rename_i hoff
    refine ⟨?_, fun he => ?_⟩
    · rw [checkOff]
      split <;> rfl
    · simp [he] at hoff
  · rcases checkOn_cases c { s with piPending := if s.iobPi = 0 then false else s.piPending }
      with ⟨s', hs', hf⟩ | ⟨hs', -⟩
    · rw [hs']; exact ⟨by rw [hf.frame], fun _ h => by cases h⟩
    · rw [hs']; exact ⟨rfl, fun _ _ => rfl⟩

end Pi

/-! ### The stack of the levels held -/

/-- The union of the levels of a list. -/
def heldMask (held : List ℕ) : ℕ := held.foldr (fun l w => 0o200 >>> l ||| w) 0

@[simp] lemma heldMask_nil : heldMask [] = 0 := rfl

lemma heldMask_cons (l : ℕ) (held : List ℕ) :
    heldMask (l :: held) = 0o200 >>> l ||| heldMask held := rfl

lemma hasLevel_heldMask {held : List ℕ} (hheld : ∀ l ∈ held, l ≤ 7) {l : ℕ} (hl : l ≤ 7) :
    HasLevel (heldMask held) l ↔ l ∈ held := by
  induction held with
  | nil => simp
  | cons m held ih =>
      rw [heldMask_cons, hasLevel_or hl, hasLevel_level hl (hheld m (by simp)),
        ih fun x hx => hheld x (by simp [hx]), List.mem_cons]

lemma testBit_level {l k : ℕ} (hl : l ≤ 7) : (0o200 >>> l).testBit k = decide (7 - l = k) := by
  rw [level_bit hl, Nat.testBit_two_pow]

/-- Clearing the level just put on top gives the levels below it. -/
lemma bic_heldMask_cons {l : ℕ} {held : List ℕ} (hl : l ≤ 7) (hheld : ∀ m ∈ held, l < m ∧ m ≤ 7) :
    bic (heldMask (l :: held)) (0o200 >>> l) = heldMask held := by
  refine Nat.eq_of_testBit_eq fun k => ?_
  rw [heldMask_cons, testBit_bic, Nat.testBit_or, testBit_level hl]
  by_cases hk : 7 - l = k
  · have hnot : ¬ HasLevel (heldMask held) l := fun h => by
      have := hheld l ((hasLevel_heldMask (fun m hm => (hheld m hm).2) hl).mp h)
      omega
    rw [hasLevel_iff hl, hk, Bool.not_eq_true] at hnot
    simp [hk, hnot]
  · simp [hk]

/-- The priority system with a record of its grants: whether an interrupt that
`check_irq_level` has found waits to be held, and the levels held, last granted first. -/
structure Nest where
  pi : Pi
  granted : Bool
  held : List ℕ

namespace Nest

/-- What may happen to the priority system, in any order: a call of a device, a `CONO PI`, an
I/O reset (which turns the multiplexer off), a `PXCT` beginning or ending, a poll for an
interrupt, the end of the interrupt instruction with its level held or dropped, and a dismissal. -/
inductive Event
  | dev (call : DevCall)
  | cono (data : ℕ) (apr : List DevCall)
  | mpxOff
  | xct (flag : ℕ)
  | poll
  | hold
  | drop
  | restore

/-- One event. A `CONO PI` that resets the system or turns it off does not occur, and a level
is held only after a poll has found it. -/
def step (c : Config) (n : Nest) : Event → Option Nest
  | .dev call => some { n with pi := call.apply n.pi }
  | .cono data apr =>
      if data &&& 0o10000 = 0 ∧ data &&& 0o400 = 0 then
        some { n with pi := n.pi.devPiCono c data apr }
      else none
  | .mpxOff => some { n with pi := { n.pi with mpxEnable := false } }
  | .xct flag => some { n with pi := { n.pi with xctFlag := flag } }
  | .poll => some { n with
      pi := (n.pi.checkIrqLevel c).2, granted := n.granted || (n.pi.checkIrqLevel c).1 }
  | .hold =>
      if n.granted then
        some {
          pi := n.pi.setPiHold c
          granted := false
          held := if n.pi.holdLevel c ≤ 7 then n.pi.holdLevel c :: n.held else n.held }
      else none
  | .drop => some { n with granted := false }
  | .restore => some { n with pi := n.pi.restorePiHold, held := n.held.tail }

/-- The invariant: `PIH` is the union of the levels held, these are ordered by priority, last
granted first, and an interrupt that waits to be held is above all of them. -/
structure Ordered (n : Nest) : Prop where
  enabled : n.pi.piEnable = true
  sorted : n.held.Pairwise (· < ·)
  levels : ∀ l ∈ n.held, 1 ≤ l ∧ l ≤ 7
  pih : n.pi.pih = heldMask n.held
  waiting : n.granted = true → n.pi.Free (Pi.encLevel n.pi.piEnc)

/-- Only the words the invariant speaks of matter. -/
lemma Ordered.congr {n : Nest} (h : n.Ordered) {p : Pi} (he : p.piEnable = true)
    (hpih : p.pih = n.pi.pih) (henc : p.piEnc = n.pi.piEnc) :
    Ordered { n with pi := p } := by
  refine ⟨he, h.sorted, h.levels, hpih.trans h.pih, fun hg => ?_⟩
  have hfree := h.waiting hg
  rw [Pi.Free, ← hpih, ← henc] at hfree
  exact hfree

end Nest

/-- What the calls of the devices leave alone. -/
lemma DevCall.apply_frame (call : DevCall) (s : Pi) :
    (call.apply s).piEnable = s.piEnable ∧ (call.apply s).pih = s.pih
      ∧ (call.apply s).piEnc = s.piEnc ∧ (call.apply s).pir = s.pir := by
  cases call with
  | set dev lvl => unfold apply Pi.setInterrupt; dsimp only; split <;> exact ⟨rfl, rfl, rfl, rfl⟩
  | setMpx dev lvl mpx =>
      unfold apply Pi.setInterruptMpx; dsimp only; split <;> exact ⟨rfl, rfl, rfl, rfl⟩
  | clr dev => exact ⟨rfl, rfl, rfl, rfl⟩

lemma DevCall.foldl_frame (calls : List DevCall) (s : Pi) :
    (calls.foldl apply s).piEnable = s.piEnable ∧ (calls.foldl apply s).pih = s.pih
      ∧ (calls.foldl apply s).piEnc = s.piEnc ∧ (calls.foldl apply s).pir = s.pir := by
  induction calls generalizing s with
  | nil => exact ⟨rfl, rfl, rfl, rfl⟩
  | cons call calls ih =>
      obtain ⟨h1, h2, h3, h4⟩ := ih (call.apply s)
      obtain ⟨g1, g2, g3, g4⟩ := call.apply_frame s
      exact ⟨h1.trans g1, h2.trans g2, h3.trans g3, h4.trans g4⟩

namespace Pi

/-- What the instruction leaves alone when the bit `m` touches nothing of it. -/
lemma onBit_proj {β : Type*} (g : Pi → β) {data m : ℕ} {f : Pi → Pi} (hf : ∀ s, g (f s) = g s)
    (s : Pi) : g (onBit data m f s) = g s := by
  rw [onBit]
  split
  · exact hf s
  · rfl

lemma onBit_off {data m : ℕ} (h : data &&& m = 0) (f : Pi → Pi) (s : Pi) :
    onBit data m f s = s := by
  rw [onBit, if_neg (by simp [h])]

/-- A `CONO PI` that neither resets the system nor turns it off leaves it on, with the same
levels held. -/
lemma conoPi_frame (c : Config) {data : ℕ} (hreset : data &&& 0o10000 = 0)
    (hoff : data &&& 0o400 = 0) {s : Pi} (he : s.piEnable = true) :
    (s.conoPi c data).piEnable = true ∧ (s.conoPi c data).pih = s.pih
      ∧ (s.conoPi c data).piEnc = s.piEnc := by
  simp only [conoPi, onBit_off hreset, onBit_off hoff]
  refine ⟨?_, ?_, ?_⟩
  · simp (disch := intro; rfl) only [onBit_proj Pi.piEnable]
    rw [onBit]
    split
    · rfl
    · exact he
  · simp (disch := intro; rfl) only [onBit_proj Pi.pih]
  · simp (disch := intro; rfl) only [onBit_proj Pi.piEnc]

/-- The level that is held for a value of `pi_enc` that names a free level. -/
lemma holdLevel_of_le {c : Config} {s : Pi} (h : s.holdLevel c ≤ 7) :
    s.holdLevel c = encLevel s.piEnc := by
  rw [holdLevel] at h ⊢
  rw [encLevel]
  by_cases hbig : 7 < s.piEnc
  · rw [if_pos hbig]
    by_cases hon : s.mpxOn c = true
    · rw [if_pos ⟨hon, hbig⟩]
    · rw [if_neg fun h => hon h.1] at h
      omega
  · rw [if_neg hbig, if_neg fun h => hbig h.2]

/-- A channel number is not a level: when the multiplexer is off nothing is held for it. -/
lemma level_bit_of_gt {l : ℕ} (hl : 7 < l) : 0o200 >>> l = 0 := by
  rw [Nat.shiftRight_eq_div_pow]
  have hpow : 2 ^ 8 ≤ 2 ^ l := Nat.pow_le_pow_right (by norm_num) hl
  exact Nat.div_eq_of_lt (by omega)

lemma setPiHold_eq (c : Config) {s : Pi} (he : s.piEnable = true) :
    s.setPiHold c
      = { s with
          pir := bic s.pir (0o200 >>> s.holdLevel c)
          pih := s.pih ||| 0o200 >>> s.holdLevel c } := by
  simp [setPiHold, he]

/-- What a dismissal does to the levels held and to the program requests. -/
lemma restorePiHold_pih {s : Pi} (he : s.piEnable = true) :
    (∃ l, highestHeld s.pih 7 = some l ∧ s.restorePiHold
        = { s with
            pir := bic s.pir (0o200 >>> l), pih := bic s.pih (0o200 >>> l), piPending := true })
      ∨ (highestHeld s.pih 7 = none ∧ s.restorePiHold = { s with piPending := true }) := by
  rw [restorePiHold]
  rw [if_neg (by simp [he])]
  cases h : highestHeld s.pih 7 with
  | none => exact Or.inr ⟨rfl, rfl⟩
  | some l => exact Or.inl ⟨l, rfl, rfl⟩

end Pi

namespace Nest

/-- The highest level held is the last one granted. -/
lemma Ordered.highestHeld {n : Nest} (h : n.Ordered) : Pi.highestHeld n.pi.pih 7 = n.held.head? := by
  have hmem : ∀ {l}, l ≤ 7 → (HasLevel n.pi.pih l ↔ l ∈ n.held) := fun hl => by
    rw [h.pih]
    exact hasLevel_heldMask (fun l hl => (h.levels l hl).2) hl
  cases hheld : n.held with
  | nil =>
      cases hh : Pi.highestHeld n.pi.pih 7 with
      | none => rfl
      | some l =>
          obtain ⟨-, h7, hl, -⟩ := Pi.highestHeld_some le_rfl hh
          rw [hmem h7, hheld] at hl
          simp at hl
  | cons top rest =>
      have htop := h.levels top (by simp [hheld])
      have htopheld : HasLevel n.pi.pih top := (hmem htop.2).mpr (by simp [hheld])
      cases hh : Pi.highestHeld n.pi.pih 7 with
      | none => exact absurd htopheld (Pi.highestHeld_none le_rfl hh (by omega) htop.2)
      | some l =>
          obtain ⟨h1, h7, hl, habove⟩ := Pi.highestHeld_some le_rfl hh
          have hsorted := h.sorted
          rw [hheld, List.pairwise_cons] at hsorted
          -- `l` is held, so it is the top or below it, and nothing above `l` is held
          have hle : ¬ top < l := fun hlt => habove top (by omega) hlt htopheld
          rw [hmem h7, hheld, List.mem_cons] at hl
          rcases hl with rfl | hl
          · rfl
          · exact absurd (hsorted.1 l hl) hle

/-- **A dismissal removes the last level granted**: the levels held lose their top, and the
only program request that may be lost is that of the same level. -/
lemma Ordered.restore {n : Nest} (h : n.Ordered) :
    n.pi.restorePiHold.pih = heldMask n.held.tail
      ∧ n.pi.restorePiHold.pir = bic n.pi.pir (heldMask (n.held.take 1)) := by
  have hhigh := h.highestHeld
  rcases Pi.restorePiHold_pih h.enabled with ⟨l, hl, heq⟩ | ⟨hl, heq⟩
  · rw [hl] at hhigh
    cases hheld : n.held with
    | nil => rw [hheld] at hhigh; cases hhigh
    | cons top rest =>
        rw [hheld, List.head?_cons, Option.some.injEq] at hhigh
        subst hhigh
        have hsorted := h.sorted
        rw [hheld, List.pairwise_cons] at hsorted
        rw [heq]
        refine ⟨?_, by simp [heldMask]⟩
        show bic n.pi.pih (0o200 >>> l) = _
        rw [h.pih, hheld]
        exact bic_heldMask_cons (h.levels l (by simp [hheld])).2 fun m hm =>
          ⟨hsorted.1 m hm, (h.levels m (by simp [hheld, hm])).2⟩
  · rw [hl] at hhigh
    have hnil : n.held = [] := List.head?_eq_none_iff.mp hhigh.symm
    rw [heq]
    refine ⟨?_, by simp [hnil, bic]⟩
    show n.pi.pih = _
    rw [h.pih, hnil]
    rfl

/-- Holding the level that waits puts it on top of the levels held. -/
lemma Ordered.hold {c : Config} {n : Nest} (h : n.Ordered) (hg : n.granted = true) :
    Ordered {
      pi := n.pi.setPiHold c
      granted := false
      held := if n.pi.holdLevel c ≤ 7 then n.pi.holdLevel c :: n.held else n.held } := by
  have hfree := h.waiting hg
  rw [Pi.setPiHold_eq c h.enabled]
  split
  · rename_i hle
    rw [Pi.holdLevel_of_le hle]
    set l := Pi.encLevel n.pi.piEnc
    have habove : ∀ m ∈ n.held, l < m := fun m hm =>
      hfree.lt (h.levels m hm).1 (by
        rw [h.pih]
        exact (hasLevel_heldMask (fun x hx => (h.levels x hx).2) (h.levels m hm).2).mpr hm)
    refine ⟨h.enabled, List.pairwise_cons.mpr ⟨habove, h.sorted⟩, ?_, ?_, by simp⟩
    · intro m hm
      rcases List.mem_cons.mp hm with rfl | hm
      · exact ⟨hfree.1, hfree.2.1⟩
      · exact h.levels m hm
    · show n.pi.pih ||| 0o200 >>> l = _
      rw [h.pih, heldMask_cons, Nat.or_comm]
  · rename_i hgt
    refine ⟨h.enabled, h.sorted, h.levels, ?_, by simp⟩
    show n.pi.pih ||| 0o200 >>> n.pi.holdLevel c = _
    rw [Pi.level_bit_of_gt (by omega), Nat.or_zero, h.pih]

/-- A dismissal keeps the order. -/
lemma Ordered.pop {n : Nest} (h : n.Ordered) :
    Ordered { n with pi := n.pi.restorePiHold, held := n.held.tail } := by
  obtain ⟨hpih, -⟩ := h.restore
  have hkeep : n.pi.restorePiHold.piEnable = true
      ∧ n.pi.restorePiHold.piEnc = n.pi.piEnc
      ∧ ∀ j, j ≤ 7 → HasLevel n.pi.restorePiHold.pih j → HasLevel n.pi.pih j := by
    rcases Pi.restorePiHold_pih h.enabled with ⟨l, -, heq⟩ | ⟨-, heq⟩ <;> rw [heq]
    · exact ⟨h.enabled, rfl, fun j hj hlev => ((hasLevel_bic hj).mp hlev).1⟩
    · exact ⟨h.enabled, rfl, fun _ _ hlev => hlev⟩
  obtain ⟨he, henc, hsub⟩ := hkeep
  refine ⟨he, h.sorted.tail, fun l hl => h.levels l (List.mem_of_mem_tail hl), hpih, fun hg => ?_⟩
  have hfree := h.waiting hg
  show n.pi.restorePiHold.Free (Pi.encLevel n.pi.restorePiHold.piEnc)
  rw [henc]
  exact ⟨hfree.1, hfree.2.1, fun j h1 h2 hlev =>
    hfree.2.2 j h1 h2 (hsub j (le_trans h2 hfree.2.1) hlev)⟩

/-- A poll keeps the order: what it finds can be granted above every level held. -/
lemma Ordered.poll (c : Config) {n : Nest} (h : n.Ordered) :
    Ordered { n with
      pi := (n.pi.checkIrqLevel c).2, granted := n.granted || (n.pi.checkIrqLevel c).1 } := by
  obtain ⟨hframe, henc⟩ := Pi.checkIrqLevel_frame c n.pi
  have hpih : (n.pi.checkIrqLevel c).2.pih = n.pi.pih := by rw [hframe]
  have hfree : ∀ l, n.pi.Free l → (n.pi.checkIrqLevel c).2.Free l := fun l hl => by
    rw [Pi.Free, hpih]; exact hl
  refine ⟨by rw [hframe]; exact h.enabled, h.sorted, h.levels, hpih.trans h.pih, fun hg => ?_⟩
  apply hfree
  cases hfound : (n.pi.checkIrqLevel c).1 with
  | true => exact (Pi.checkIrqLevel_true h.enabled hfound).1
  | false =>
      rw [hfound, Bool.or_false] at hg
      show n.pi.Free (Pi.encLevel (n.pi.checkIrqLevel c).2.piEnc)
      rw [henc h.enabled hfound]
      exact h.waiting hg

/-- Every event keeps the order. -/
lemma Ordered.step {c : Config} {n n' : Nest} {e : Event} (h : n.Ordered)
    (hstep : Nest.step c n e = some n') : n'.Ordered := by
  cases e with
  | dev call =>
      cases hstep
      obtain ⟨h1, h2, h3, -⟩ := call.apply_frame n.pi
      exact h.congr (h1.trans h.enabled) h2 h3
  | cono data apr =>
      simp only [Nest.step] at hstep
      split at hstep
      · rename_i hbits
        cases hstep
        obtain ⟨h1, h2, h3, -⟩ := DevCall.foldl_frame apr (n.pi.conoPi c data)
        obtain ⟨g1, g2, g3⟩ := Pi.conoPi_frame c hbits.1 hbits.2 h.enabled
        exact h.congr (h1.trans g1) (h2.trans g2) (h3.trans g3)
      · cases hstep
  | mpxOff => cases hstep; exact h.congr h.enabled rfl rfl
  | xct flag => cases hstep; exact h.congr h.enabled rfl rfl
  | poll => cases hstep; exact h.poll c
  | hold =>
      simp only [Nest.step] at hstep
      split at hstep
      · rename_i hg
        cases hstep
        exact h.hold hg
      · cases hstep
  | drop =>
      cases hstep
      exact ⟨h.enabled, h.sorted, h.levels, h.pih, by simp⟩
  | restore => cases hstep; exact h.pop

end Nest

/-- A program request on level 3 is granted and held, and then one on level 1 above it. -/
def nested : List Nest.Event :=
  [.cono 0o4020 [], .poll, .hold, .cono 0o4100 [], .poll, .hold]

end Ka10Simh.Pdp10
