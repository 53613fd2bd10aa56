import Ka10Simh.B5500.Cpu
import Ka10Simh.Lib.Reaches

/-!
The input/output channels of the B5500.

* `Io`: the channels, with the interrupt register.
* `findChan`, `startIo`, `chanSetEnd`, `iti`: what is done with them.
* `Right`: every operation has its channel, its descriptor and its interrupt.
* `operations_right`: the runs in which they have.
-/

namespace Ka10Simh.B5500

open Word TransSys

/-! ### The channels -/

/-- The fields of an I/O descriptor. -/
abbrev devMask : ℕ := 0o760000000000000
abbrev dMask : ℕ := 0o777777777777777
abbrev devWc : ℕ := 0o17770000000000
abbrev devInhtrf : ℕ := 0o4000000000
abbrev devBin : ℕ := 0o400000000
abbrev devBack : ℕ := 0o200000000
abbrev devWcflg : ℕ := 0o100000000
abbrev devIord : ℕ := 0o40000000
abbrev devBusy : ℕ := 0o100000
abbrev devNotrdy : ℕ := 0o400000
abbrev devEof : ℕ := 0o4000000
abbrev devMemerr : ℕ := 0o10000000
abbrev devResult : ℕ := 0o37700000

/-- `EOR`, `USEGM` of the status of a channel. -/
abbrev eor : ℕ := 1
abbrev usegm : ℕ := 2

/-- `WC`, `toWC`. -/
def wc (x : ℕ) : ℕ := (x &&& devWc) >>> 30
def toWc (x : ℕ) : ℕ := x <<< 30 &&& devWc

/-- What is seen of an operation: a channel is assigned to it, its result descriptor is stored, and the processor
goes to its interrupt. -/
inductive Obs
  | assigned (chan : ℕ)
  | stored (chan : ℕ)
  | branched (chan : ℕ)
  deriving DecidableEq

/-- The channel that is seen. -/
def Obs.chan : Obs → ℕ
  | .assigned chan => chan
  | .stored chan => chan
  | .branched chan => chan

/-- The channels, `IAR`, the errors of both processors and the memory, with what has been seen. -/
structure Io where
  d : ℕ → ℕ
  w : ℕ → ℕ
  cc : ℕ → ℕ
  status : ℕ → ℕ
  cstatus : ℕ
  iar : ℕ
  loading : Bool
  q : ℕ
  q2 : ℕ
  p2Run : Bool
  mem : ℕ → ℕ
  log : List Obs

/-- What a device returns: `SCPE_OK`, or why it does not do it. -/
inductive Answer
  | ok
  | nxdev
  | unatt
  | busy
  | eof
  deriving DecidableEq

/-- A device that has been given a command: what it returns, with the word count and the descriptor as it leaves
them. -/
structure Reply where
  answer : Answer
  wc : ℕ
  d : ℕ

/-- `find_chan`. -/
def findChan (cstatus : ℕ) : Option ℕ := (List.range 4).find? fun chan => cstatus &&& 1 <<< chan = 0

/-- `chan_release`. -/
def chanRelease (chan : ℕ) (s : Io) : Io := { s with cstatus := bic s.cstatus (1 <<< chan) }

/-- `chan_set_end`. -/
def chanSetEnd (chan : ℕ) (s : Io) : Io :=
  let dev := (s.d chan &&& devMask) >>> 40
  let d :=
    if dev &&& 1 ≠ 0 ∧ s.d chan &&& devIord ≠ 0 then
      bic (s.d chan) (7 <<< 30) |||
        (if s.d chan &&& devBack ≠ 0 ∧ s.status chan &&& eor ≠ 0 then 7 - s.cc chan &&& 7 else s.cc chan &&& 7) <<< 30
    else s.d chan
  { s with
    d := Function.update s.d chan d, mem := Function.update s.mem (0o14 + chan) d
    iar := if s.loading = false then s.iar ||| 0o40 <<< chan else s.iar
    loading := false, log := .stored chan :: s.log }

/-- The result bit of an answer. -/
def Answer.result : Answer → ℕ
  | .ok => 0
  | .nxdev => devNotrdy
  | .unatt => devNotrdy
  | .busy => devBusy
  | .eof => devEof

/-- What `start_io` changes of it for the data communication terminals, `DTC_DEV`, and for the printers. -/
def Reply.adjust (dev : ℕ) (r : Reply) : Reply :=
  if dev = 0o20 then
    { r with wc := 0, d := bic (if r.answer = .ok then bic r.d devWc else r.d) (devBin ||| devWcflg) }
  else if (dev = 0o26 ∨ dev = 0o32) ∧ r.answer = .ok then { r with d := bic r.d devBack }
  else r

/-- `start_io`, with the device that is given the command. -/
def startIo (device : ℕ → Reply) (s : Io) : Io :=
  match findChan s.cstatus with
  | none => { s with iar := s.iar ||| 2 }
  | some chan =>
      let d := bic (s.mem (s.mem 0o10 &&& core) &&& dMask) devResult
      let dev := (d &&& devMask) >>> 40
      let reply := (device d).adjust dev
      let d := if reply.wc ≠ 0 then bic reply.d devWc ||| toWc reply.wc ||| devWcflg else reply.d
      let s : Io :=
        { s with
          d := Function.update s.d chan (d ||| reply.answer.result), cc := Function.update s.cc chan 0
          w := Function.update s.w chan 0
          status := Function.update s.status chan (if dev &&& 1 ≠ 0 ∨ dev = 0o20 ∨ dev = 0o36 then usegm else 0)
          log := .assigned chan :: s.log }
      if reply.answer = .ok then { s with cstatus := s.cstatus ||| 1 <<< chan } else chanSetEnd chan s

/-- The first bit of the interrupt register. -/
def lowest (iar : ℕ) : Option ℕ := (List.range 16).find? fun i => iar.testBit i

/-- ITI: the address that it goes to, and what is left of the interrupts. -/
def iti (s : Io) : Option ℕ × Io :=
  if s.q &&& memParity ≠ 0 then (some 0o60, { s with q := bic s.q memParity })
  else if s.q &&& invalidAddr ≠ 0 then (some 0o61, { s with q := bic s.q invalidAddr })
  else
    match lowest s.iar with
    | some i =>
        let c := 0o22 + i
        let t : Io :=
          if 0o27 ≤ c ∧ c ≤ 0o32 then { chanRelease (c - 0o27) s with log := .branched (c - 0o27) :: s.log } else s
        (some c, { t with iar := bic t.iar (1 <<< i) })
    | none =>
        if s.q &&& 0o170 ≠ 0 then (some (0o60 + s.q >>> 3), { s with q := s.q &&& 7 })
        else if s.q &&& stkOverfl ≠ 0 then (some 0o62, { s with q := bic s.q stkOverfl })
        else if s.p2Run = false ∧ s.q2 ≠ 0 then
          if s.q2 &&& memParity ≠ 0 then (some 0o40, { s with q2 := bic s.q2 memParity })
          else if s.q2 &&& invalidAddr ≠ 0 then (some 0o41, { s with q2 := bic s.q2 invalidAddr })
          else if s.q2 &&& 0o170 ≠ 0 then (some (0o40 + s.q2 >>> 3), { s with q2 := s.q2 &&& 7 })
          else if s.q2 &&& stkOverfl ≠ 0 then (some 0o42, { s with q2 := bic s.q2 stkOverfl })
          else (none, s)
        else (none, s)

/-! ### Runs -/

/-- An operation is in progress on a channel. -/
def InProgress (chan : ℕ) (log : List Obs) : Prop := log.count (.stored chan) < log.count (.assigned chan)

instance (chan : ℕ) (log : List Obs) : Decidable (InProgress chan log) := inferInstanceAs (Decidable (_ < _))

/-- An operator `IIO` with a device, a device that ends the operation of a channel with the descriptor, the count and
the status as they are then, `ITI`, and other interrupts, errors and words that are stored. -/
inductive IoEvent
  | iio (device : ℕ → Reply)
  | complete (chan d cc status : ℕ)
  | iti
  | other (iar q q2 : ℕ) (p2Run : Bool) (mem : ℕ → ℕ)

/-- The bits of the channels in `IAR`. -/
abbrev chanBits : ℕ := 0o740

namespace Io

def step (s : Io) : IoEvent → Io
  | .iio device => startIo device s
  | .complete chan d cc status =>
      if InProgress chan s.log then
        chanSetEnd chan
          { s with
            d := Function.update s.d chan d, cc := Function.update s.cc chan cc
            status := Function.update s.status chan status }
      else s
  | .iti => (iti s).2
  | .other iar q q2 p2Run mem => { s with iar := s.iar ||| bic iar chanBits, q := q, q2 := q2, p2Run := p2Run, mem := mem }

/-- Nothing is seen yet, no channel has an interrupt and nothing is being loaded. -/
def Start (s : Io) : Prop := s.log = [] ∧ s.iar &&& chanBits = 0 ∧ s.loading = false

/-- An operator `IIO` gets no channel whose interrupt is still to be taken. -/
def Settled (s : Io) : IoEvent → Prop
  | .iio _ => ∀ chan, findChan s.cstatus = some chan → s.iar &&& 0o40 <<< chan = 0
  | _ => True

end Io

/-- A channel is assigned when no operation is in progress on it, a descriptor is stored when the ones before have
been taken, and a completion is taken once. -/
def Right : List Obs → Prop
  | [] => True
  | .assigned chan :: log => log.count (.assigned chan) = log.count (.stored chan) ∧ Right log
  | .stored chan :: log => log.count (.stored chan) = log.count (.branched chan) ∧ Right log
  | .branched chan :: log => log.count (.branched chan) < log.count (.stored chan) ∧ Right log

/-! ### Phases -/

section Phases

variable {s t : Io} {chan : ℕ}

/-- The interrupt of a channel. -/
def Pending (s : Io) (chan : ℕ) : Bool := s.iar.testBit (5 + chan)

lemma pending_iff (s : Io) (chan : ℕ) : s.iar &&& 0o40 <<< chan = 0 ↔ Pending s chan = false := by
  have hbit : 0o40 <<< chan = 2 ^ (5 + chan) := by rw [Nat.shiftLeft_eq, Nat.pow_add]
  rw [hbit, and_two_pow_eq_zero, Pending]

/-- A channel has no operation, one in progress, or one whose interrupt is still to be taken. -/
def Phase (s : Io) (chan : ℕ) : Prop :=
  s.log.count (.stored chan) = s.log.count (.branched chan) + (Pending s chan).toNat
    ∧ (s.log.count (.assigned chan) = s.log.count (.stored chan)
      ∨ s.log.count (.assigned chan) = s.log.count (.stored chan) + 1 ∧ s.cstatus.testBit chan = true
        ∧ Pending s chan = false)

/-- What holds of the channels in a run. -/
structure Inv (s : Io) : Prop where
  right : Right s.log
  idle : s.loading = false
  phase : ∀ chan < 4, Phase s chan
  apart : ∀ chan, 4 ≤ chan → s.log.count (.assigned chan) = 0

lemma count_kept {o p : Obs} (log : List Obs) (h : o ≠ p) : (o :: log).count p = log.count p :=
  List.count_cons_of_ne h

lemma count_other {o : Obs} {log : List Obs} (h : o.chan ≠ chan) :
    (o :: log).count (.assigned chan) = log.count (.assigned chan)
      ∧ (o :: log).count (.stored chan) = log.count (.stored chan)
      ∧ (o :: log).count (.branched chan) = log.count (.branched chan) := by
  refine ⟨List.count_cons_of_ne ?_, List.count_cons_of_ne ?_, List.count_cons_of_ne ?_⟩ <;>
    · rintro rfl
      exact h rfl

/-- What is seen of another channel leaves the phase. -/
lemma Phase.other (h : Phase s chan) {o : Obs} (ho : o.chan ≠ chan) (hlog : t.log = o :: s.log)
    (hpending : Pending t chan = Pending s chan) (hbit : t.cstatus.testBit chan = s.cstatus.testBit chan) :
    Phase t chan := by
  obtain ⟨ha, hs, hb⟩ := count_other ho
  rw [Phase, hlog, ha, hs, hb, hpending, hbit]
  exact h

lemma findChan_some (h : findChan s.cstatus = some chan) : chan < 4 ∧ s.cstatus.testBit chan = false := by
  have hmem := List.mem_of_find?_eq_some h
  have hfree := of_decide_eq_true (List.find?_some (p := fun chan => decide (s.cstatus &&& 1 <<< chan = 0)) h)
  rw [Nat.one_shiftLeft, and_two_pow_eq_zero] at hfree
  exact ⟨List.mem_range.mp hmem, hfree⟩

lemma lowest_some {iar i : ℕ} (h : lowest iar = some i) : iar.testBit i = true :=
  List.find?_some (p := fun i => iar.testBit i) h

/-- The end of an operation. -/
lemma chanSetEnd_inv (hchan : chan < 4) (hright : Right s.log) (hidle : s.loading = false)
    (hphase : ∀ c < 4, c ≠ chan → Phase s c) (hapart : ∀ c, 4 ≤ c → s.log.count (.assigned c) = 0)
    (hassigned : s.log.count (.assigned chan) = s.log.count (.stored chan) + 1)
    (hstored : s.log.count (.stored chan) = s.log.count (.branched chan)) : Inv (chanSetEnd chan s) := by
  have hiar (c : ℕ) : Pending (chanSetEnd chan s) c = (Pending s c || decide (c = chan)) := by
    have hbit : 0o40 <<< chan = 2 ^ (5 + chan) := by rw [Nat.shiftLeft_eq, Nat.pow_add]
    rw [Pending, chanSetEnd, if_pos hidle, hbit, Nat.testBit_or, Nat.testBit_two_pow, Pending]
    simp [eq_comm]
  refine ⟨⟨hstored, hright⟩, rfl, fun c hc => ?_, fun c hc => ?_⟩
  · by_cases heq : c = chan
    · subst heq
      have ha := count_kept (o := .stored c) (p := .assigned c) s.log nofun
      have hs := List.count_cons_self (a := Obs.stored c) (l := s.log)
      have hb := count_kept (o := .stored c) (p := .branched c) s.log nofun
      have hlog : (chanSetEnd c s).log = .stored c :: s.log := rfl
      refine ⟨?_, .inl ?_⟩
      · rw [hiar, decide_eq_true rfl, Bool.or_true, hlog, hs, hb, hstored]
        rfl
      · rw [hlog, hs, ha, hassigned]
    · refine (hphase c hc heq).other (t := chanSetEnd chan s) (o := .stored chan) (Ne.symm heq) rfl ?_ rfl
      rw [hiar, decide_eq_false heq, Bool.or_false]
  · exact (count_kept (o := .stored chan) (p := .assigned c) s.log nofun).trans (hapart c hc)

/-- A channel that is free is assigned. -/
lemma assigned_facts (h : Inv s) (hfind : findChan s.cstatus = some chan) (hnone : Pending s chan = false)
    (hlog : t.log = .assigned chan :: s.log) (hiar : t.iar = s.iar)
    (hcstatus : ∀ c ≠ chan, t.cstatus.testBit c = s.cstatus.testBit c) :
    Right t.log ∧ (∀ c < 4, c ≠ chan → Phase t c) ∧ (∀ c, 4 ≤ c → t.log.count (.assigned c) = 0)
      ∧ t.log.count (.assigned chan) = t.log.count (.stored chan) + 1
      ∧ t.log.count (.stored chan) = t.log.count (.branched chan) := by
  obtain ⟨hchan, hfree⟩ := findChan_some hfind
  obtain ⟨hstored, hassigned⟩ := h.phase chan hchan
  rw [hnone] at hstored
  -- No operation is in progress: the bit of the channel would be set.
  have heq : s.log.count (.assigned chan) = s.log.count (.stored chan) :=
    hassigned.resolve_right fun hbusy => absurd (hfree.symm.trans hbusy.2.1) Bool.false_ne_true
  have hkept (p : Obs) (hp : .assigned chan ≠ p) : t.log.count p = s.log.count p := by rw [hlog, count_kept s.log hp]
  refine ⟨by rw [hlog]; exact ⟨heq, h.right⟩, fun c hc hne => ?_, fun c hc => ?_, ?_, ?_⟩
  · exact (h.phase c hc).other (o := .assigned chan) (Ne.symm hne) hlog (by rw [Pending, Pending, hiar]) (hcstatus c hne)
  · rw [hkept (.assigned c) fun hno => by cases hno; omega, h.apart c hc]
  · rw [hkept (.stored chan) nofun, hlog, List.count_cons_self, heq]
  · rw [hkept (.stored chan) nofun, hkept (.branched chan) nofun, hstored]
    rfl

/-- The operation is in progress, or it is ended at once. -/
lemma assigned_busy (h : Inv s) (hfind : findChan s.cstatus = some chan) (hnone : Pending s chan = false)
    (hlog : t.log = .assigned chan :: s.log) (hiar : t.iar = s.iar) (hcstatus : t.cstatus = s.cstatus ||| 1 <<< chan)
    (hloading : t.loading = s.loading) : Inv t := by
  have hbit (c : ℕ) : t.cstatus.testBit c = (s.cstatus.testBit c || decide (chan = c)) := by
    rw [hcstatus, Nat.testBit_or, Nat.one_shiftLeft, Nat.testBit_two_pow]
  obtain ⟨hright, hphase, hapart, ha, hs⟩ := assigned_facts h hfind hnone hlog hiar fun c hne => by
    rw [hbit, decide_eq_false (Ne.symm hne), Bool.or_false]
  refine ⟨hright, hloading.trans h.idle, fun c hc => ?_, hapart⟩
  by_cases heq : c = chan
  · subst heq
    have hnone' : Pending t c = false := by rw [Pending, hiar, ← Pending, hnone]
    refine ⟨?_, .inr ⟨ha, by rw [hbit, decide_eq_true rfl, Bool.or_true], hnone'⟩⟩
    rw [hnone']
    exact hs
  · exact hphase c hc heq

lemma assigned_done (h : Inv s) (hfind : findChan s.cstatus = some chan) (hnone : Pending s chan = false)
    (hlog : t.log = .assigned chan :: s.log) (hiar : t.iar = s.iar) (hcstatus : t.cstatus = s.cstatus)
    (hloading : t.loading = s.loading) : Inv (chanSetEnd chan t) := by
  obtain ⟨hright, hphase, hapart, ha, hs⟩ := assigned_facts h hfind hnone hlog hiar fun c _ => by rw [hcstatus]
  exact chanSetEnd_inv (findChan_some hfind).1 hright (hloading.trans h.idle) hphase hapart ha hs

lemma startIo_inv (h : Inv s) (device : ℕ → Reply) (hsettled : s.Settled (.iio device)) : Inv (startIo device s) := by
  rw [startIo]
  cases hfind : findChan s.cstatus with
  | none =>
      refine ⟨h.right, h.idle, fun c hc => ?_, h.apart⟩
      have hpending : Pending { s with iar := s.iar ||| 2 } c = Pending s c := by
        rw [Pending, Pending, Nat.testBit_or, show 2 = 2 ^ 1 from rfl, Nat.testBit_two_pow, decide_eq_false (by omega),
          Bool.or_false]
      rw [Phase, hpending]
      exact h.phase c hc
  | some chan =>
      have hnone := (pending_iff s chan).mp (hsettled chan hfind)
      dsimp only
      exact iteInduction (motive := Inv) (fun _ => assigned_busy h hfind hnone rfl rfl rfl rfl)
        fun _ => assigned_done h hfind hnone rfl rfl rfl rfl

/-- What leaves the channels alone. -/
lemma Inv.kept (h : Inv s) (hlog : t.log = s.log) (hcstatus : t.cstatus = s.cstatus) (hloading : t.loading = s.loading)
    (hpending : ∀ c < 4, Pending t c = Pending s c) : Inv t where
  right := by rw [hlog]; exact h.right
  idle := hloading.trans h.idle
  phase c hc := by
    rw [Phase, hlog, hcstatus, hpending c hc]
    exact h.phase c hc
  apart c hc := by rw [hlog]; exact h.apart c hc

lemma complete_inv (h : Inv s) (chan d cc status : ℕ) : Inv (s.step (.complete chan d cc status)) := by
  rw [Io.step]
  split_ifs with hprogress
  · have hchan : chan < 4 := by
      by_contra hge
      rw [InProgress, h.apart chan (Nat.le_of_not_lt hge)] at hprogress
      exact Nat.not_lt_zero _ hprogress
    obtain ⟨hstored, hassigned⟩ := h.phase chan hchan
    obtain heq | ⟨hsucc, -, hnone⟩ := hassigned
    · rw [InProgress, heq] at hprogress
      exact absurd hprogress (lt_irrefl _)
    · rw [hnone] at hstored
      exact chanSetEnd_inv hchan h.right h.idle (fun c hc _ => h.phase c hc) h.apart hsucc hstored
  · exact h

/-- The interrupt of an operation is taken, and its channel is released. -/
lemma taken_inv (h : Inv s) (hchan : chan < 4) (hpending : Pending s chan = true)
    (hlog : t.log = .branched chan :: s.log) (hiar : t.iar = bic s.iar (1 <<< (5 + chan)))
    (hcstatus : t.cstatus = bic s.cstatus (1 <<< chan)) (hloading : t.loading = s.loading) : Inv t := by
  obtain ⟨hstored, hassigned⟩ := h.phase chan hchan
  rw [hpending] at hstored
  have heq : s.log.count (.assigned chan) = s.log.count (.stored chan) :=
    hassigned.resolve_right fun hbusy => absurd (hpending.symm.trans hbusy.2.2) (by decide)
  have hbit (c : ℕ) : Pending t c = (Pending s c && !decide (chan = c)) := by
    rw [Pending, hiar, testBit_bic, Nat.one_shiftLeft, Nat.testBit_two_pow, Pending]
    congr 2
    exact decide_eq_decide.mpr (by lia)
  have hrel (c : ℕ) : t.cstatus.testBit c = (s.cstatus.testBit c && !decide (chan = c)) := by
    rw [hcstatus, testBit_bic, Nat.one_shiftLeft, Nat.testBit_two_pow]
  have hkept (p : Obs) (hp : .branched chan ≠ p) : t.log.count p = s.log.count p := by rw [hlog, count_kept s.log hp]
  refine ⟨?_, hloading.trans h.idle, fun c hc => ?_, fun c hc => by rw [hkept (.assigned c) nofun, h.apart c hc]⟩
  · rw [hlog]
    exact ⟨by rw [hstored]; exact Nat.lt_succ_self _, h.right⟩
  · by_cases heqc : c = chan
    · subst heqc
      refine ⟨?_, .inl ?_⟩
      · rw [hkept (.stored c) nofun, hbit, decide_eq_true rfl, hlog, List.count_cons_self, hstored]
        simp
      · rw [hkept (.assigned c) nofun, hkept (.stored c) nofun, heq]
    · have hne : decide (chan = c) = false := decide_eq_false (Ne.symm heqc)
      refine (h.phase c hc).other (o := .branched chan) (Ne.symm heqc) hlog ?_ ?_
      · rw [hbit, hne, Bool.not_false, Bool.and_true]
      · rw [hrel, hne, Bool.not_false, Bool.and_true]

lemma iti_inv (h : Inv s) : Inv (iti s).2 := by
  have hkept {t : Io} (hlog : t.log = s.log) (hiar : t.iar = s.iar) (hcstatus : t.cstatus = s.cstatus)
      (hloading : t.loading = s.loading) : Inv t :=
    h.kept hlog hcstatus hloading fun c _ => by rw [Pending, Pending, hiar]
  rw [iti]
  by_cases hparity : s.q &&& memParity ≠ 0
  · rw [if_pos hparity]
    exact hkept rfl rfl rfl rfl
  by_cases haddr : s.q &&& invalidAddr ≠ 0
  · rw [if_neg hparity, if_pos haddr]
    exact hkept rfl rfl rfl rfl
  rw [if_neg hparity, if_neg haddr]
  cases hlow : lowest s.iar with
  | none =>
      dsimp only
      split_ifs <;> exact hkept rfl rfl rfl rfl
  | some i =>
      have hset := lowest_some hlow
      dsimp only
      by_cases hfinish : 0o27 ≤ 0o22 + i ∧ 0o22 + i ≤ 0o32
      · rw [if_pos hfinish]
        have hi : 5 + (0o22 + i - 0o27) = i := by omega
        exact taken_inv h (by omega) (by rw [Pending, hi]; exact hset) rfl
          (by rw [hi]; rfl) rfl rfl
      · rw [if_neg hfinish]
        refine h.kept rfl rfl rfl fun c hc => ?_
        show (bic s.iar (1 <<< i)).testBit (5 + c) = s.iar.testBit (5 + c)
        rw [testBit_bic, Nat.one_shiftLeft, Nat.testBit_two_pow, decide_eq_false (by omega), Bool.not_false,
          Bool.and_true]

lemma step_inv (h : Inv s) (e : IoEvent) (hok : s.Settled e) : Inv (s.step e) := by
  cases e with
  | iio device => exact startIo_inv h device hok
  | complete chan d cc status => exact complete_inv h chan d cc status
  | iti => exact iti_inv h
  | other iar q q2 p2Run mem =>
      refine h.kept rfl rfl rfl fun c hc => ?_
      have hbits : chanBits.testBit (5 + c) = true := by
        interval_cases c <;> rfl
      show (s.iar ||| bic iar chanBits).testBit (5 + c) = s.iar.testBit (5 + c)
      rw [Nat.testBit_or, testBit_bic, hbits, Bool.not_true, Bool.and_false, Bool.or_false]

lemma start_inv (h : s.Start) : Inv s := by
  obtain ⟨hlog, hiar, hloading⟩ := h
  refine ⟨by rw [hlog]; exact trivial, hloading, fun c hc => ?_, fun c _ => by rw [hlog]; rfl⟩
  have hpending : Pending s c = false := by
    rw [← pending_iff, ← Nat.zero_and (0o40 <<< c), ← hiar, Nat.and_assoc]
    have hbits : chanBits &&& 0o40 <<< c = 0o40 <<< c := by
      interval_cases c <;> rfl
    rw [hbits]
  rw [Phase, hpending, hlog]
  exact ⟨rfl, .inl rfl⟩

end Phases

/-! ### Every run -/

/-- **The operations of every run**: where every `IIO` gets a channel whose interrupt has been taken, no channel with
an operation in progress is assigned to another, no descriptor is stored over one that is still to be taken, and every
descriptor that was stored has had its own interrupt, or has it pending. -/
theorem operations_right {s₀ s : Io} (hstart : s₀.Start) (h : Reaches (ofFun Io.step) Io.Settled s₀ s) :
    Right s.log ∧ ∀ chan < 4, s.log.count (.stored chan)
      = s.log.count (.branched chan) + if s.iar &&& 0o40 <<< chan = 0 then 0 else 1 := by
  have hinv : Inv s := h.invariant (start_inv hstart) fun t e u ht hok hstep => by
    rw [← show t.step e = u from hstep]
    exact step_inv ht e hok
  refine ⟨hinv.right, fun chan hchan => (hinv.phase chan hchan).1.trans (congrArg _ ?_)⟩
  cases hpending : Pending s chan with
  | false => rw [if_pos ((pending_iff s chan).mpr hpending)]; rfl
  | true =>
      rw [if_neg fun hno => absurd (((pending_iff s chan).mp hno).symm.trans hpending) Bool.false_ne_true]
      rfl

/-- Channels of which none is used. -/
def free : Io :=
  { d := fun _ => 0, w := fun _ => 0, cc := fun _ => 0, status := fun _ => 0, cstatus := 0, iar := 0, loading := false
    q := 0, q2 := 0, p2Run := false, mem := fun _ => 0, log := [] }

/-- A device that does what it is told, and one that is not there. -/
def accepts (d : ℕ) : Reply := ⟨.ok, 0, d⟩
def rejects (d : ℕ) : Reply := ⟨.unatt, 0, d⟩

lemma free_start : free.Start := ⟨rfl, rfl, rfl⟩

theorem operations_right_one :
    Right (((free.step (.iio accepts)).step (.complete 0 0 0 0)).step .iti).log :=
  have hrun : Reaches (ofFun Io.step) Io.Settled free
      (((free.step (.iio accepts)).step (.complete 0 0 0 0)).step .iti) :=
    ((Reaches.start.next (e := .iio accepts) (fun _ _ => Nat.zero_and _) rfl).next (e := .complete 0 0 0 0) trivial
      rfl).next (e := .iti) trivial rfl
  (operations_right free_start hrun).1

instance decidableRight : (log : List Obs) → Decidable (Right log)
  | [] => .isTrue trivial
  | .assigned _ :: log => have := decidableRight log; inferInstanceAs (Decidable (_ ∧ _))
  | .stored _ :: log => have := decidableRight log; inferInstanceAs (Decidable (_ ∧ _))
  | .branched _ :: log => have := decidableRight log; inferInstanceAs (Decidable (_ ∧ _))

/-- An operation that is rejected leaves its channel to the next one, and its interrupt releases it. -/
theorem channel_lost : ¬ ∀ (s₀ : Io), s₀.Start → ∀ es : List IoEvent, Right (es.foldl Io.step s₀).log := by
  intro h
  have hno : ¬ Right ([.iio rejects, .iio accepts, .iti, .iio accepts].foldl Io.step free).log := by decide
  exact hno (h free free_start _)

end Ka10Simh.B5500
