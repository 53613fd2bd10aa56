import Ka10Simh.Pdp10.ChannelHalts

/-!
What the status of a data channel shows at the end of a transfer.

* `DataChannel.Outside`, `Rh20.Outside`: a reference of a call is beyond the memory.
* `DataChannel.outside_ends`, `Rh20.outside_ends`: then the call ends, with the memory as it was at that reference.
* `DataChannel.outside_reported`, `Rh20.outside_reported`: when the status shows the error, and no other one.
* `Rh20.counts_reported`: when the status shows that a count was wrong.
-/

namespace Ka10Simh.Pdp10

open Fuel (EndsWith Settled Walk Has served)
open Iterate (Leads)
open Relation (ReflTransGen)

/-! ### Bits of a status -/

/-- A status has all the bits of a mask. -/
def Shows (status mask : ℕ) : Prop := ∀ i, mask.testBit i = true → status.testBit i = true

section Shows

variable {x m k i : ℕ}

lemma shows_zero (x : ℕ) : Shows x 0 := fun i h ↦ absurd (Nat.zero_testBit i ▸ h) Bool.false_ne_true

lemma shows_or : Shows x (m ||| k) ↔ Shows x m ∧ Shows x k := by
  constructor
  · intro h
    refine ⟨fun i hi ↦ h i ?_, fun i hi ↦ h i ?_⟩
    · rw [Nat.testBit_or, hi, Bool.true_or]
    · rw [Nat.testBit_or, hi, Bool.or_true]
  · rintro ⟨hm, hk⟩ i hi
    rw [Nat.testBit_or, Bool.or_eq_true] at hi
    exact hi.elim (hm i) (hk i)

lemma shows_two_pow : Shows x (2 ^ k) ↔ x.testBit k = true := by
  constructor
  · intro h
    exact h k Nat.testBit_two_pow_self
  · intro h i hi
    rw [Nat.testBit_two_pow, decide_eq_true_iff] at hi
    exact hi ▸ h

lemma shows_congr {y : ℕ} (h : ∀ i, m.testBit i = true → x.testBit i = y.testBit i) : Shows x m ↔ Shows y m :=
  forall_congr' fun i ↦ imp_congr_right fun hi ↦ by rw [h i hi]

/-- A mask is there already. -/
lemma or_eq_left_iff : x ||| m = x ↔ Shows x m := by
  constructor
  · intro h i hi
    rw [← h, Nat.testBit_or, hi, Bool.or_true]
  · intro h
    refine Nat.eq_of_testBit_eq fun i ↦ ?_
    rw [Nat.testBit_or]
    cases hi : m.testBit i with
    | false => exact Bool.or_false _
    | true => rw [h i hi, Bool.or_true]

/-- Two masks without a common bit give the same status only when they were there already. -/
lemma or_eq_or_iff (hmk : ∀ i, m.testBit i = true → k.testBit i = false) :
    x ||| m = x ||| k ↔ Shows x (m ||| k) := by
  rw [shows_or, ← or_eq_left_iff, ← or_eq_left_iff]
  constructor
  · intro h
    have hm : x ||| m = x := or_eq_left_iff.mpr fun i hi ↦ by
      have hbit : (x ||| m).testBit i = (x ||| k).testBit i := by rw [h]
      rw [Nat.testBit_or, Nat.testBit_or, hi, hmk i hi, Bool.or_true, Bool.or_false] at hbit
      exact hbit.symm
    exact ⟨hm, h ▸ hm⟩
  · rintro ⟨hm, hk⟩
    rw [hm, hk]

end Shows

/-! ### DF10 and RH10 -/

namespace DataChannel

/-- A control word of a fetch is beyond the memory: the first one, or one that a jump word leads to. -/
inductive Beyond (c : Config) (mem : ℕ → ℕ) (ccw : ℕ) : Bool → Prop
  | first : c.memsize ≤ ccw → Beyond c mem ccw true
  | jumped {e : ℕ} : ReflTransGen (Leads (jump c mem)) ccw e → e < c.memsize → mem e &&& c.wmask <<< c.aBits = 0 →
      ¬ (mem e &&& c.amask = 0 ∨ mem e &&& c.amask = e) → c.memsize ≤ mem e &&& c.amask → Beyond c mem ccw false

/-- A reference of a call is beyond the memory: a control word before the word of data or after it, or that word. It is
the first reference of a fetch or not, and the memory is as it is then. -/
inductive Outside (c : Config) (dir : Dir) (s : Df10) : Bool → (ℕ → ℕ) → Prop
  | control {first : Bool} : s.wcr = 0 → Beyond c s.mem s.ccw first → Outside c dir s first s.mem
  | data {t : Df10} : HasWord c s t → t.cda ≠ 0 → c.memsize ≤ next c t.cda → Outside c dir s false s.mem
  | second {t : Df10} {first : Bool} : HasWord c s t → Moves c t → t.wcr + 1 &&& c.wmask = 0 →
      Beyond c (dir.after c t) t.ccw first → Outside c dir s first (dir.after c t)

/-- The status that tells of a reference beyond the memory, and of nothing else. -/
def Kind.stopped : Kind → ℕ → ℕ
  | .df10 _ _ nxmerr, status => clear status busy ||| 1 <<< nxmerr ||| piEnable
  | .rh _, status => clear (clear status ccChanAct) busy ||| cxrNxm ||| piEnable

/-- The bit with the number of the error was there already, and those of the number itself. -/
def Kind.Known : Kind → ℕ → Prop
  | .df10 _ _ nxmerr, status => Shows (clear status busy ||| piEnable) (nxmerr ||| 1 <<< nxmerr)
  | .rh _, _ => True

section Outside

variable {c : Config} {dir : Dir} {s t : Df10} {mem : ℕ → ℕ} {first : Bool}

/-- What the channel is told at a reference beyond the memory. -/
def flags (c : Config) (first : Bool) : ℕ := if first = true then c.fetchNxm else c.nxm

lemma fetch_beyond (h : Beyond c s.mem s.ccw first) : ∃ u : Df10, u.status = s.status ∧ u.cia = s.cia ∧ u.mem = s.mem ∧
    EndsWith (fun n ↦ fetch c n s) (false, finishOp c (flags c first) u) := by
  cases h with
  | first hout =>
      refine ⟨s, rfl, rfl, rfl, 0, ?_⟩
      dsimp only
      rw [fetch, if_neg (Nat.not_lt.mpr hout)]
      rfl
  | @jumped e hreach hin hcount hstop hout =>
      refine ⟨{ s with ccw := s.mem e &&& c.amask }, rfl, rfl, rfl, ?_⟩
      have hfirst : s.ccw < c.memsize := by
        rcases hreach.cases_head with heq | ⟨b, hlead, -⟩
        · exact heq ▸ hin
        · rw [Leads, jump] at hlead
          exact (TransSys.of_guard hlead).1.1
      have hend : jump c s.mem e = none := if_neg fun h ↦ absurd h.2.2.2 (Nat.not_lt.mpr hout)
      have hwalk := ((fetchLoop_walk c s.mem).endsWith_iff (s := s) ⟨rfl, hfirst⟩).mpr ⟨e, hreach, hend, rfl⟩
      obtain ⟨n, hn⟩ := hwalk
      refine ⟨n, ?_⟩
      dsimp only at hn ⊢
      rw [fetch, if_pos hfirst, hn, stopWord]
      dsimp only
      rw [if_neg (not_not.mpr hcount), if_neg hstop]
      rfl

lemma HasWord.kept (h : HasWord c s t) : t.status = s.status ∧ t.cia = s.cia ∧ t.mem = s.mem := by
  cases h with
  | now => exact ⟨rfl, rfl, rfl⟩
  | fetched =>
      rw [take]
      split
      · exact ⟨rfl, rfl, rfl⟩
      · exact ⟨rfl, rfl, rfl⟩

lemma word_kept (dir : Dir) (h : Moves c t) : (word c dir t).2.status = t.status ∧ (word c dir t).2.cia = t.cia := by
  rw [word]
  by_cases hzero : t.cda = 0
  · rw [if_neg (not_not.mpr hzero)]
    cases dir
    · exact ⟨rfl, rfl⟩
    · exact ⟨rfl, rfl⟩
  · obtain ⟨hle, hlt⟩ := h.resolve_left hzero
    rw [if_pos hzero, if_neg (Nat.not_lt.mpr hle)]
    dsimp only
    rw [if_pos hlt]
    cases dir
    · exact ⟨rfl, rfl⟩
    · exact ⟨rfl, rfl⟩

/-- A word of data beyond the memory. -/
lemma word_outside (dir : Dir) (hne : t.cda ≠ 0) (hout : c.memsize ≤ next c t.cda) : ∃ u : Df10, u.status = t.status ∧
    u.cia = t.cia ∧ u.mem = t.mem ∧ word c dir t = (false, finishOp c c.nxm u) := by
  rw [word, if_pos hne]
  by_cases hgt : t.cda > c.memsize
  · refine ⟨{ t with wcr := t.wcr + 1 &&& c.wmask }, rfl, rfl, rfl, ?_⟩
    rw [if_pos hgt]
  · refine ⟨{ t with wcr := t.wcr + 1 &&& c.wmask, cda := next c t.cda }, rfl, rfl, rfl, ?_⟩
    rw [if_neg hgt]
    dsimp only
    rw [if_neg (Nat.not_lt.mpr hout)]

/-- **A call with a reference beyond the memory ends there.** -/
lemma outside_ends (h : Outside c dir s first mem) : ∃ u : Df10, u.status = s.status ∧ u.cia = s.cia ∧ u.mem = mem ∧
    EndsWith (fun n ↦ transfer c dir.access dir.skip n s) (false, finishOp c (flags c first) u) := by
  cases h with
  | control hwcr hbeyond =>
      obtain ⟨u, hstatus, hcia, hmem, hends⟩ := fetch_beyond hbeyond
      refine ⟨u, hstatus, hcia, hmem, ?_⟩
      have hfirst : EndsWith (fun n ↦ served (fetch c) (word c dir) (fun s ↦ s.wcr = 0) n s)
          (false, finishOp c (flags c first) u) := Fuel.served_first hwcr hends
      exact hfirst
  | @data t hword hne hout =>
      obtain ⟨hstatus, hcia, hmem⟩ := hword.kept
      obtain ⟨u, hustatus, hucia, humem, hends⟩ := word_outside dir hne hout
      refine ⟨u, hustatus.trans hstatus, hucia.trans hcia, humem.trans hmem, ?_⟩
      have hstep := Fuel.served_step (hasWord_iff.mpr hword) (fetch_settled c) (congrArg Prod.fst hends)
      rw [hends] at hstep
      exact hstep
  | @second t first hword hmoves hlast hbeyond =>
      obtain ⟨hstatus, hcia, -⟩ := hword.kept
      obtain ⟨hdone, hwcr, hccw, hmem⟩ := word_moves dir hmoves
      obtain ⟨hwstatus, hwcia⟩ := word_kept dir hmoves
      rw [← hmem, ← hccw] at hbeyond
      obtain ⟨u, hustatus, hucia, humem, hends⟩ := fetch_beyond hbeyond
      refine ⟨u, hustatus.trans (hwstatus.trans hstatus), hucia.trans (hwcia.trans hcia), humem.trans hmem, ?_⟩
      exact Fuel.served_second (hasWord_iff.mpr hword) (fetch_settled c) hdone (hwcr.trans hlast) hends

/-- The memory at the reference is that before the call, beyond its end. -/
lemma Outside.kept (h : Outside c dir s first mem) {a : ℕ} (ha : c.memsize ≤ a) : mem a = s.mem a := by
  cases h with
  | control => rfl
  | data => rfl
  | @second t _ hword hmoves =>
      rw [← hword.kept.2.2]
      cases dir
      · rfl
      · rw [Dir.after]
        split_ifs with hzero
        · rfl
        · have hlt := (hmoves.resolve_left hzero).2
          exact Function.update_of_ne (by omega) _ _

lemma finishOp_status (c : Config) (flags : ℕ) (u : Df10) :
    (finishOp c flags u).status = c.quit flags u.status ||| piEnable := by
  rw [finishOp, writecw]
  dsimp only
  split_ifs <;> rfl

/-- The word of the termination is not stored beyond the memory. -/
lemma finishOp_beyond (c : Config) (flags : ℕ) (u : Df10) {a : ℕ} (ha : c.memsize ≤ a) :
    (finishOp c flags u).mem a = u.mem a := by
  by_cases heq : a = u.cia ||| 1
  · subst heq
    rw [finishOp, writecw]
    dsimp only
    split_ifs with hwcr hlt hlt
    · exact absurd hlt (Nat.not_lt.mpr ha)
    · rfl
    · exact absurd hlt (Nat.not_lt.mpr ha)
    · rfl
  · exact (finishOp_kept c flags u).2 a heq

lemma stopped_iff (k : Kind) (memsize : ℕ) (first : Bool) (status : ℕ) :
    (k.config memsize).quit (flags (k.config memsize) first) status ||| piEnable = k.stopped status
      ↔ (first = true → k.Known status) := by
  cases k with
  | rh wide =>
      refine iff_of_true ?_ fun _ ↦ trivial
      cases first <;> rfl
  | df10 df10c its nxmerr =>
      cases first with
      | false => exact iff_of_true rfl nofun
      | true =>
          rw [imp_iff_right rfl]
          have hbits : ∀ i, nxmerr.testBit i = true → (1 <<< nxmerr).testBit i = false := by
            intro i hi
            have hlt : i < nxmerr := Nat.lt_of_lt_of_le Nat.lt_two_pow_self (Nat.ge_two_pow_of_testBit hi)
            rw [Nat.one_shiftLeft, Nat.testBit_two_pow, decide_eq_false_iff_not]
            omega
          have hor := or_eq_or_iff (x := clear status busy ||| piEnable) hbits
          rw [Nat.or_right_comm, Nat.or_right_comm _ piEnable] at hor
          exact hor

/-- **The status tells of the reference, and of nothing else**, unless it was the first one of a fetch: that takes the
number of the error for its bit. -/
lemma outside_reported (k : Kind) (memsize : ℕ) (h : Outside (k.config memsize) dir s first mem) :
    (∃ r : Df10, EndsWith (fun fuel ↦ k.call memsize dir fuel s) (false, r) ∧ r.status = k.stopped s.status ∧
      (∀ a ≠ s.cia ||| 1, r.mem a = mem a) ∧ ∀ a ≥ memsize, r.mem a = s.mem a) ↔ (first = true → k.Known s.status) := by
  have hsize : (k.config memsize).memsize = memsize := by cases k <;> rfl
  obtain ⟨u, hstatus, hcia, hmem, hends⟩ := outside_ends h
  rw [Kind.call_eq, ← stopped_iff k memsize, ← hstatus, ← finishOp_status]
  constructor
  · rintro ⟨r, hr, hreported, -⟩
    have hsettled : Settled fun n ↦ served (fetch (k.config memsize)) (word (k.config memsize) dir)
        (fun s ↦ s.wcr = 0) n s := Fuel.served_settled (fetch_settled (k.config memsize)) s
    have heq := hsettled.unique hr hends
    obtain rfl : r = finishOp (k.config memsize) (flags (k.config memsize) first) u := (Prod.ext_iff.mp heq).2
    exact hreported
  · intro hreported
    refine ⟨_, hends, hreported, fun a ha ↦ ?_, fun a ha ↦ ?_⟩
    · rw [(finishOp_kept _ _ u).2 a (hcia ▸ ha), hmem]
    · rw [finishOp_beyond _ _ u (hsize.symm ▸ ha), hmem, h.kept (hsize.symm ▸ ha)]

end Outside

end DataChannel

/-! ### RH20 -/

namespace Rh20

open DataChannel (Dir busy piEnable clear)

section Outside

variable {δ : Type}

/-- A control word of a fetch is beyond the memory. -/
inductive Beyond (c : Config δ) (mem : ℕ → ℕ) (ccw : ℕ) : Prop
  | first : c.memsize ≤ ccw → Beyond c mem ccw
  | jumped {e : ℕ} : ReflTransGen (Leads (jump c mem)) ccw e → e < c.memsize → mem e &&& xfer = 0 →
      mem e &&& (bit1 ||| bit2) ≠ 0 → c.memsize ≤ mem e &&& amask → Beyond c mem ccw

/-- A reference of a call is beyond the memory: a control word before the word of data or after it, or that word. The
count and the memory are as they are then. -/
inductive Outside (c : Config δ) (dir : Dir) (s : RhIf δ) : ℕ → (ℕ → ℕ) → Prop
  | control : s.wcr = 0 → s.cop &&& 2 = 0 → Beyond c s.mem s.ccw → Outside c dir s 0 s.mem
  | data {t : RhIf δ} : HasWord c s t → t.cda ≠ 0 → c.memsize ≤ t.cda → Outside c dir s (t.wcr + 1 &&& wmask) s.mem
  | second {t : RhIf δ} : HasWord c s t → Moves c t → t.wcr + 1 &&& wmask = 0 → t.cop &&& 2 = 0 →
      Beyond c (after dir t) t.ccw → Outside c dir s 0 (after dir t)

/-- What an end leaves of the status. -/
def quiet (status : ℕ) : ℕ := clear (clear status chanAct ||| chanRdy) pcrFull

/-- The status that tells of a reference beyond the memory, and of nothing else. -/
def stopped (status : ℕ) : ℕ := quiet status ||| piEnable ||| chanErr

/-- The status of the channel is stored: the command asks for it, and the drive has no exception. -/
def Stores (s : RhIf δ) : Prop := s.ptcr &&& bit10 ≠ 0 ∧ s.status &&& drExc = 0

/-- The error bits of a command that writes, at its end: words are left over, or there were too few. -/
def countErrors (s : RhIf δ) : ℕ :=
  if Writes s then
    if left s ≠ 0 then if s.status &&& xend ≠ 0 then longWc ||| chanErr else 0
    else if s.status &&& xend = 0 then shrtWc ||| chanErr else 0
  else 0

/-- When the error is told of, and no other one. -/
def Known (s : RhIf δ) : Prop :=
  Stores s ∧ Shows (s.status ||| chanErr) (countErrors s) ∨ ¬ Stores s ∧ Shows s.status chanErr

variable {c : Config δ} {dir : Dir} {s t u : RhIf δ} {mem : ℕ → ℕ} {wcr status i : ℕ} {nxm : Bool}

lemma fetch_beyond (hcop : s.cop &&& 2 = 0) (h : Beyond c s.mem s.ccw) : ∃ u : RhIf δ, u.status = s.status ∧
    u.ptcr = s.ptcr ∧ u.wcr = s.wcr ∧ u.mem = s.mem ∧ EndsWith (fun n ↦ fetch c n s) (false, finishOp c true u) := by
  cases h with
  | first hout =>
      refine ⟨s, rfl, rfl, rfl, rfl, 0, ?_⟩
      dsimp only
      rw [fetch, if_neg (not_not.mpr hcop), if_neg (Nat.not_lt.mpr hout)]
  | @jumped e hreach hin hxfer hhalt hout =>
      refine ⟨{ s with ccw := s.mem e &&& amask }, rfl, rfl, rfl, rfl, ?_⟩
      have hfirst : s.ccw < c.memsize := by
        rcases hreach.cases_head with heq | ⟨b, hlead, -⟩
        · exact heq ▸ hin
        · rw [Leads, jump] at hlead
          exact (TransSys.of_guard hlead).1.1
      have hend : jump c s.mem e = none := if_neg fun h ↦ absurd h.2.2.2 (Nat.not_lt.mpr hout)
      obtain ⟨n, hn⟩ := ((fetchLoop_walk c s.mem).endsWith_iff (s := s) ⟨rfl, hfirst⟩).mpr ⟨e, hreach, hend, rfl⟩
      refine ⟨n, ?_⟩
      dsimp only at hn ⊢
      rw [fetch, if_neg (not_not.mpr hcop), if_pos hfirst, hn, stopWord]
      dsimp only
      rw [if_neg (not_not.mpr hxfer), if_neg hhalt]

lemma HasWord.kept (h : HasWord c s t) : t.status = s.status ∧ t.ptcr = s.ptcr ∧ t.mem = s.mem := by
  cases h <;> exact ⟨rfl, rfl, rfl⟩

lemma move_kept (dir : Dir) (h : Moves c t) : (move c dir t).2.status = t.status ∧ (move c dir t).2.ptcr = t.ptcr := by
  rw [move]
  by_cases hzero : t.cda = 0
  · rw [if_neg (not_not.mpr hzero)]
    cases dir
    · exact ⟨rfl, rfl⟩
    · exact ⟨rfl, rfl⟩
  · have hlt : t.cda < c.memsize := h.resolve_left hzero
    rw [if_pos hzero, if_neg (Nat.not_lt.mpr hlt.le), if_pos hlt]
    cases dir
    · exact ⟨rfl, rfl⟩
    · exact ⟨rfl, rfl⟩

/-- A word of data beyond the memory. -/
lemma move_outside (dir : Dir) (hne : t.cda ≠ 0) (hout : c.memsize ≤ t.cda) :
    move c dir t = (false, finishOp c true { t with wcr := t.wcr + 1 &&& wmask }) := by
  rw [move, if_pos hne]
  by_cases hgt : t.cda > c.memsize
  · rw [if_pos hgt]
  · rw [if_neg hgt, if_neg (Nat.not_lt.mpr hout)]

/-- **A call with a reference beyond the memory ends there.** -/
lemma outside_ends (h : Outside c dir s wcr mem) : ∃ u : RhIf δ, u.status = s.status ∧ u.ptcr = s.ptcr ∧ u.wcr = wcr ∧
    u.mem = mem ∧ EndsWith (fun n ↦ transfer c dir n s) (false, finishOp c true u) := by
  cases h with
  | control hwcr hcop hbeyond =>
      obtain ⟨u, hstatus, hptcr, huwcr, hmem, hends⟩ := fetch_beyond hcop hbeyond
      refine ⟨u, hstatus, hptcr, huwcr.trans hwcr, hmem, ?_⟩
      have hfirst : EndsWith (fun n ↦ served (fetch c) (move c dir) (fun s ↦ s.wcr = 0) n s)
          (false, finishOp c true u) := Fuel.served_first hwcr hends
      exact hfirst
  | @data t hword hne hout =>
      obtain ⟨hstatus, hptcr, hmem⟩ := hword.kept
      refine ⟨{ t with wcr := t.wcr + 1 &&& wmask }, hstatus, hptcr, rfl, hmem, ?_⟩
      have hmove := move_outside dir hne hout
      have hstep := Fuel.served_step (hasWord_iff.mpr hword) (fetch_settled c) (congrArg Prod.fst hmove)
      rw [hmove] at hstep
      exact hstep
  | @second t hword hmoves hlast hcop hbeyond =>
      obtain ⟨hstatus, hptcr, -⟩ := hword.kept
      obtain ⟨hdone, hwcr, hccw, hmcop, hmem⟩ := move_moves dir hmoves
      obtain ⟨hmstatus, hmptcr⟩ := move_kept dir hmoves
      rw [← hmem, ← hccw] at hbeyond
      obtain ⟨u, hustatus, huptcr, huwcr, humem, hends⟩ := fetch_beyond (hmcop ▸ hcop) hbeyond
      refine ⟨u, hustatus.trans (hmstatus.trans hstatus), huptcr.trans (hmptcr.trans hptcr),
        huwcr.trans (hwcr.trans hlast), humem.trans hmem, ?_⟩
      exact Fuel.served_second (hasWord_iff.mpr hword) (fetch_settled c) hdone (hwcr.trans hlast) hends

lemma Outside.kept (h : Outside c dir s wcr mem) {a : ℕ} (ha : c.memsize ≤ a) : mem a = s.mem a := by
  cases h with
  | control => rfl
  | data => rfl
  | @second t hword hmoves =>
      rw [← hword.kept.2.2]
      cases dir
      · rfl
      · rw [after]
        split_ifs with hzero
        · rfl
        · have hlt : t.cda < c.memsize := hmoves.resolve_left hzero
          exact Function.update_of_ne (by omega) _ _

end Outside

/-! ### The end of a transfer -/

section Finish

variable {δ : Type} {c : Config δ} {dir : Dir} {s t u : RhIf δ} {mem : ℕ → ℕ} {wcr status w a i : ℕ} {nxm : Bool}

lemma testBit_quiet (status : ℕ) (h : i ≠ 4 ∧ i ≠ 10 ∧ i ≠ 31) : (quiet status).testBit i = status.testBit i := by
  obtain ⟨hpcr, hrdy, hact⟩ := h
  have hbic : quiet status = Word.bic (Word.bic status (2 ^ 31) ||| 2 ^ 10) (2 ^ 4) := rfl
  rw [hbic, Word.testBit_bic, Nat.testBit_or, Word.testBit_bic, Nat.testBit_two_pow, Nat.testBit_two_pow,
    Nat.testBit_two_pow, decide_eq_false (Ne.symm hpcr), decide_eq_false (Ne.symm hrdy), decide_eq_false (Ne.symm hact),
    Bool.not_false, Bool.and_true, Bool.or_false, Bool.and_true]

lemma quiet_and (status : ℕ) (h : i ≠ 4 ∧ i ≠ 10 ∧ i ≠ 31) : quiet status &&& 2 ^ i = 0 ↔ status &&& 2 ^ i = 0 := by
  rw [Word.and_two_pow_eq_zero, Word.and_two_pow_eq_zero, testBit_quiet status h]

/-- The errors of the count are those of a few registers. -/
lemma countErrors_congr (hptcr : s.ptcr = t.ptcr) (hwcr : s.wcr = t.wcr)
    (hxend : s.status &&& xend = 0 ↔ t.status &&& xend = 0) : countErrors s = countErrors t := by
  have hleft : left s = left t := by rw [left, left, hwcr]
  have hwrites : Writes s ↔ Writes t := by rw [Writes, Writes, hptcr]
  rw [countErrors, countErrors, hleft]
  simp only [hwrites, hxend, ne_eq]

lemma countErrors_bits (h : (countErrors u).testBit i = true) : i = 13 ∨ i = 14 ∨ i = 15 := by
  have hlong : longWc ||| chanErr = 2 ^ 15 ||| 2 ^ 13 := rfl
  have hshrt : shrtWc ||| chanErr = 2 ^ 14 ||| 2 ^ 13 := rfl
  rw [countErrors] at h
  split_ifs at h
  · rw [hlong, Nat.testBit_or, Nat.testBit_two_pow, Nat.testBit_two_pow, Bool.or_eq_true, decide_eq_true_iff,
      decide_eq_true_iff] at h
    lia
  · rw [Nat.zero_testBit] at h
    cases h
  · rw [hshrt, Nat.testBit_or, Nat.testBit_two_pow, Nat.testBit_two_pow, Bool.or_eq_true, decide_eq_true_iff,
      decide_eq_true_iff] at h
    lia
  · rw [Nat.zero_testBit] at h
    cases h
  · rw [Nat.zero_testBit] at h
    cases h

lemma countErrors_err (h : countErrors u ≠ 0) : (countErrors u).testBit 13 = true := by
  rw [countErrors] at h ⊢
  split_ifs at h ⊢
  · decide
  · exact absurd rfl h
  · decide
  · exact absurd rfl h
  · exact absurd rfl h

lemma no_errors (s : RhIf δ) : s = { s with status := s.status ||| 0 } := by rw [Nat.or_zero]

lemma nxmStatus_snd (nxm : Bool) (w : ℕ) (s : RhIf δ) :
    (nxmStatus nxm w s).2 = { s with status := s.status ||| if nxm = true then chanErr else 0 } := by
  rw [nxmStatus]
  split_ifs
  · rfl
  · exact no_errors s

lemma countStatus_snd (w : ℕ) (s : RhIf δ) :
    (countStatus w s).2 = { s with status := s.status ||| countErrors s } := by
  rw [countStatus, countErrors]
  split_ifs
  all_goals first | rfl | exact no_errors s

lemma storeEpt_status (c : Config δ) (addr w : ℕ) (s : RhIf δ) : (storeEpt c addr w s).status = s.status := by
  rw [storeEpt]
  split_ifs <;> rfl

/-- **A status that is not stored has no new error.** -/
lemma writecw_silent (h : ¬ Stores u) :
    (writecw c nxm { u with status := clear u.status chanAct }).status = quiet u.status := by
  have hexc : quiet u.status &&& drExc = 0 ↔ u.status &&& drExc = 0 := quiet_and (i := 16) u.status (by decide)
  have hkeep : u.ptcr &&& bit10 = 0 ∨ quiet u.status &&& drExc ≠ 0 := by
    rw [Stores, ← hexc, not_and_or, not_not] at h
    exact h
  have hquiet : clear (clear u.status chanAct ||| chanRdy) pcrFull = quiet u.status := rfl
  rw [writecw]
  dsimp only
  rw [hquiet, if_pos hkeep, apply_ite RhIf.status]
  exact ite_self _

/-- **A status that is stored has the errors.** -/
lemma writecw_stores (h : Stores u) : (writecw c nxm { u with status := clear u.status chanAct }).status
    = quiet u.status ||| (if nxm = true then chanErr else 0) ||| countErrors u := by
  obtain ⟨hbit, hexc⟩ := h
  have hkeep : ¬ (u.ptcr &&& bit10 = 0 ∨ quiet u.status &&& drExc ≠ 0) := by
    rw [not_or, not_not]
    exact ⟨hbit, (quiet_and (i := 16) u.status (by decide)).mpr hexc⟩
  have hquiet : clear (clear u.status chanAct ||| chanRdy) pcrFull = quiet u.status := rfl
  have hxend : (quiet u.status ||| if nxm = true then chanErr else 0) &&& xend = 0 ↔ u.status &&& xend = 0 := by
    have hnxm : (if nxm = true then chanErr else 0).testBit 19 = false := by cases nxm <;> decide
    rw [show xend = 2 ^ 19 from rfl, Word.and_two_pow_eq_zero, Word.and_two_pow_eq_zero, Nat.testBit_or, hnxm,
      Bool.or_false, testBit_quiet u.status (by decide)]
  have hcount : countErrors { u with status := quiet u.status ||| if nxm = true then chanErr else 0 } = countErrors u :=
    countErrors_congr rfl rfl hxend
  rw [writecw]
  dsimp only
  rw [hquiet, if_pos (Or.inr (Or.inr (Or.inl hbit))), if_neg hkeep, countStatus_snd, nxmStatus_snd]
  dsimp only
  rw [if_neg fun h ↦ hbit h.2, storeEpt_status, storeEpt_status, hcount]

lemma clear_err (m : ℕ) (h : status.testBit 13 = false) : (clear status m).testBit 13 = false := by
  rw [show clear status m = Word.bic status m from rfl, Word.testBit_bic, h, Bool.false_and]

lemma or_err {m : ℕ} (hm : m.testBit 13 = false) (h : status.testBit 13 = false) :
    (status ||| m).testBit 13 = false := by
  rw [Nat.testBit_or, h, hm, Bool.or_false]

lemma setup_err (h : s.status.testBit 13 = false) : (setup c s).status.testBit 13 = false := by
  have hfull : ∀ m, (clear s.status m ||| pcrFull).testBit 13 = false := fun m ↦ or_err rfl (clear_err m h)
  have hbusy : ∀ st : ℕ, st.testBit 13 = false → (clear st chanRdy ||| busy).testBit 13 = false :=
    fun st hst ↦ or_err rfl (clear_err _ hst)
  rw [setup]
  dsimp only
  split_ifs
  · exact h
  all_goals refine hbusy _ ?_
  · exact clear_err _ (hfull _)
  · exact clear_err _ (hfull _)
  · exact hfull _
  · exact hfull _

/-- A second command does not start after an error, and the status is that of the end. -/
lemma finishOp_held (h : (writecw c nxm { u with status := clear u.status chanAct }).status.testBit 13 = true) :
    (finishOp c nxm u).status = (writecw c nxm { u with status := clear u.status chanAct }).status ||| piEnable := by
  rw [finishOp]
  dsimp only
  rw [if_neg]
  rintro ⟨-, hzero⟩
  have hbit := Word.eq_zero_iff_testBit.mp hzero 13
  rw [Nat.testBit_and, Nat.testBit_or, h, Bool.true_or, Bool.true_and] at hbit
  revert hbit
  decide

lemma finishOp_lost (h : (writecw c nxm { u with status := clear u.status chanAct }).status.testBit 13 = false) :
    (finishOp c nxm u).status.testBit 13 = false := by
  rw [finishOp]
  dsimp only
  split_ifs
  · exact setup_err (or_err rfl h)
  · exact or_err rfl h

/-- Where the status is not stored, an error shows when there was one before. -/
lemma finishOp_silent (h : ¬ Stores u) (herr : u.status.testBit 13 = true) :
    (finishOp c nxm u).status = quiet u.status ||| piEnable := by
  rw [finishOp_held, writecw_silent h]
  rw [writecw_silent h, testBit_quiet u.status (by decide), herr]

lemma finishOp_missed (nxm : Bool) (h : ¬ Stores u) (herr : u.status.testBit 13 = false) :
    (finishOp c nxm u).status.testBit 13 = false := by
  refine finishOp_lost ?_
  rw [writecw_silent h, testBit_quiet u.status (by decide), herr]

/-- **The status tells of a reference beyond the memory, and of nothing else, when it is stored and the count is right**,
or when it did before. -/
lemma finishOp_stopped : (finishOp c true u).status = stopped u.status ↔ Known u := by
  by_cases hstores : Stores u
  · have hknown : Known u ↔ Shows (u.status ||| chanErr) (countErrors u) := by
      rw [Known]
      exact ⟨fun h ↦ h.elim And.right fun h ↦ absurd hstores h.1, fun h ↦ Or.inl ⟨hstores, h⟩⟩
    have hstatus : (finishOp c true u).status = stopped u.status ||| countErrors u := by
      rw [finishOp_held, writecw_stores hstores, if_pos rfl, stopped, Nat.or_right_comm _ _ piEnable,
        Nat.or_right_comm _ _ piEnable]
      rw [writecw_stores hstores, if_pos rfl, Nat.testBit_or, Nat.testBit_or]
      have hbit : chanErr.testBit 13 = true := by decide
      rw [hbit, Bool.or_true, Bool.true_or]
    rw [hknown, hstatus, or_eq_left_iff]
    refine shows_congr fun i hi ↦ ?_
    have hlow : i ≠ 4 ∧ i ≠ 10 ∧ i ≠ 31 := by
      have := countErrors_bits hi
      lia
    have hpi : piEnable.testBit i = false := by
      rcases countErrors_bits hi with rfl | rfl | rfl <;> decide
    rw [stopped, Nat.testBit_or, Nat.testBit_or, hpi, Bool.or_false, testBit_quiet u.status hlow, Nat.testBit_or]
  · have hknown : Known u ↔ u.status.testBit 13 = true := by
      rw [Known, show chanErr = 2 ^ 13 from rfl, shows_two_pow]
      exact ⟨fun h ↦ h.elim (fun h ↦ absurd h.1 hstores) And.right, fun h ↦ Or.inr ⟨hstores, h⟩⟩
    rw [hknown]
    cases herr : u.status.testBit 13 with
    | true =>
        refine iff_of_true ?_ rfl
        rw [finishOp_silent hstores herr, stopped]
        refine (or_eq_left_iff.mpr ?_).symm
        rw [show chanErr = 2 ^ 13 from rfl, shows_two_pow, Nat.testBit_or, testBit_quiet u.status (by decide), herr,
          Bool.true_or]
    | false =>
        refine iff_of_false (fun h ↦ ?_) nofun
        have hlost := finishOp_missed (c := c) true hstores herr
        have hbit : chanErr.testBit 13 = true := by decide
        rw [h, stopped, Nat.testBit_or, hbit, Bool.or_true] at hlost
        cases hlost

/-- **The status tells of a wrong count exactly when it is stored**, or when it did before. -/
lemma counts_reported (c : Config δ) (nxm : Bool) (u : RhIf δ) :
    Shows (finishOp c nxm u).status (countErrors u) ↔ Stores u ∨ Shows u.status (countErrors u) := by
  by_cases hnone : countErrors u = 0
  · rw [hnone]
    exact iff_of_true (shows_zero _) (Or.inr (shows_zero _))
  have herror := countErrors_err hnone
  by_cases hstores : Stores u
  · refine iff_of_true (fun i hi ↦ ?_) (Or.inl hstores)
    rw [finishOp_held, writecw_stores hstores, Nat.testBit_or, Nat.testBit_or, hi, Bool.or_true, Bool.true_or]
    rw [writecw_stores hstores, Nat.testBit_or, herror, Bool.or_true]
  · rw [or_iff_right hstores]
    cases herr : u.status.testBit 13 with
    | true =>
        rw [finishOp_silent hstores herr]
        refine shows_congr fun i hi ↦ ?_
        have hlow : i ≠ 4 ∧ i ≠ 10 ∧ i ≠ 31 := by
          have := countErrors_bits hi
          omega
        have hpi : piEnable.testBit i = false := by
          rcases countErrors_bits hi with rfl | rfl | rfl <;> decide
        rw [Nat.testBit_or, hpi, Bool.or_false, testBit_quiet u.status hlow]
    | false =>
        refine iff_of_false (fun h ↦ ?_) fun h ↦ ?_
        · have hlost := finishOp_missed (c := c) nxm hstores herr
          rw [h 13 herror] at hlost
          cases hlost
        · rw [h 13 herror] at herr
          cases herr

/-! ### The memory at the end -/

/-- A word that is beyond the memory, or no word of the status. -/
def Apart (c : Config δ) (a : ℕ) : Prop :=
  c.memsize ≤ a ∨ a ≠ c.chan + 1 + c.ebPtr ∧ a ≠ c.chan + 2 + c.ebPtr

lemma storeEpt_mem (w : ℕ) (s : RhIf δ) {addr : ℕ} (h : c.memsize ≤ a ∨ a ≠ addr + c.ebPtr) :
    (storeEpt c addr w s).mem a = s.mem a := by
  rw [storeEpt]
  split_ifs with hlt
  · refine Function.update_of_ne ?_ _ _
    lia
  · rfl

lemma setup_mem (c : Config δ) (s : RhIf δ) : (setup c s).mem = s.mem := by
  rw [setup]
  dsimp only
  split_ifs <;> rfl

lemma writecw_mem (nxm : Bool) (s : RhIf δ) (h : Apart c a) : (writecw c nxm s).mem a = s.mem a := by
  have hfirst : c.memsize ≤ a ∨ a ≠ c.chan + 1 + c.ebPtr := h.imp_right And.left
  have hsecond : c.memsize ≤ a ∨ a ≠ c.chan + 2 + c.ebPtr := h.imp_right And.right
  rw [writecw]
  dsimp only
  split_ifs
  · rfl
  · rw [countStatus_snd, nxmStatus_snd]
  · rw [storeEpt_mem _ _ hsecond, storeEpt_mem _ _ hfirst, countStatus_snd, nxmStatus_snd]
  · rfl

lemma finishOp_mem (nxm : Bool) (s : RhIf δ) (h : Apart c a) : (finishOp c nxm s).mem a = s.mem a := by
  rw [finishOp]
  dsimp only
  split_ifs
  · rw [setup_mem]
    exact writecw_mem nxm _ h
  · exact writecw_mem nxm _ h

/-- **When the status tells of the reference, and of nothing else.** -/
lemma outside_reported (h : Outside c dir s wcr mem) :
    (∃ r : RhIf δ, EndsWith (fun fuel ↦ transfer c dir fuel s) (false, r) ∧ r.status = stopped s.status ∧
      (∀ a, Apart c a → r.mem a = mem a) ∧ ∀ a ≥ c.memsize, r.mem a = s.mem a) ↔ Known { s with wcr := wcr } := by
  obtain ⟨u, hstatus, hptcr, hwcr, hmem, hends⟩ := outside_ends h
  have hknown : Known u ↔ Known { s with wcr := wcr } := by
    cases u
    dsimp only at hstatus hptcr hwcr
    subst hstatus hptcr hwcr
    exact Iff.rfl
  rw [← hknown, ← finishOp_stopped (c := c), hstatus]
  constructor
  · rintro ⟨r, hr, hreported, -⟩
    have hsettled : Settled fun n ↦ served (fetch c) (move c dir) (fun s ↦ s.wcr = 0) n s :=
      Fuel.served_settled (fetch_settled c) s
    obtain rfl : r = finishOp c true u := (Prod.ext_iff.mp (hsettled.unique hr hends)).2
    exact hreported
  · intro hreported
    refine ⟨_, hends, hreported, fun a ha ↦ ?_, fun a ha ↦ ?_⟩
    · rw [finishOp_mem true u ha, hmem]
    · rw [finishOp_mem true u (Or.inl ha), hmem, h.kept ha]

end Finish

end Rh20

/-! ### Errors -/

/-- **What the status of a data channel tells of its errors.** A DF10 tells of a reference beyond the memory by the bit of
its device and no other one, unless it is the first control word of a fetch: then the status has to have that bit already,
and those of its number. An RH10 always does. An RH20 does exactly when it stores its status and the count is right, and
it tells of a wrong count exactly when it stores its status. -/
theorem channel_errors (k : DataChannel.Kind) (memsize : ℕ) (dir : DataChannel.Dir) {δ : Type} (c : Rh20.Config δ) :
    (∀ (s : DataChannel.Df10) (first : Bool) (mem : ℕ → ℕ), DataChannel.Outside (k.config memsize) dir s first mem →
      ((∃ r : DataChannel.Df10, EndsWith (fun fuel ↦ k.call memsize dir fuel s) (false, r) ∧
          r.status = k.stopped s.status ∧ (∀ a ≠ s.cia ||| 1, r.mem a = mem a) ∧ ∀ a ≥ memsize, r.mem a = s.mem a) ↔
        (first = true → k.Known s.status))) ∧
    (∀ (s : Rh20.RhIf δ) (wcr : ℕ) (mem : ℕ → ℕ), Rh20.Outside c dir s wcr mem →
      ((∃ r : Rh20.RhIf δ, EndsWith (fun fuel ↦ Rh20.transfer c dir fuel s) (false, r) ∧
          r.status = Rh20.stopped s.status ∧ (∀ a, Rh20.Apart c a → r.mem a = mem a) ∧
          ∀ a ≥ c.memsize, r.mem a = s.mem a) ↔ Rh20.Known { s with wcr := wcr })) ∧
    ∀ (nxm : Bool) (u : Rh20.RhIf δ), Shows (Rh20.finishOp c nxm u).status (Rh20.countErrors u) ↔
      Rh20.Stores u ∨ Shows u.status (Rh20.countErrors u) :=
  ⟨fun _ _ _ h ↦ DataChannel.outside_reported k memsize h, fun _ _ _ h ↦ Rh20.outside_reported h,
    fun nxm u ↦ Rh20.counts_reported c nxm u⟩

/-- A list that jumps to the last word of the memory, where the only transfer word is: the next control word is beyond the
memory. An RH20 that writes, and has no words. -/
def strayed : DataChannel.Df10 :=
  DataChannel.setup 0o20 { circle with mem := fun a ↦
    if a = 0o20 then 0o377777 else if a = 0o377777 then 0o777777 <<< 18 ||| 0o100 else 0 }
def shortWrite : Rh20.RhIf Unit := { selfJump with ptcr := 0o61 }

/-- An RH10 tells of a control word beyond the memory. -/
theorem strayed_reported : ∃ r : DataChannel.Df10,
    EndsWith (fun fuel ↦ (DataChannel.Kind.rh false).call 0o100 .read fuel circle) (false, r) ∧
      r.status = DataChannel.cxrNxm ||| DataChannel.piEnable := by
  obtain ⟨r, hr, hstatus, -⟩ := ((channel_errors (.rh false) 0o100 .read loneConfig).1 circle true circle.mem
    (.control rfl (.first (by decide)))).mpr fun _ ↦ trivial
  exact ⟨r, hr, hstatus⟩

lemma strayed_outside :
    DataChannel.Outside ((DataChannel.Kind.df10 false false 12).config 0o400000) .read strayed true strayed.mem := by
  have hjump : DataChannel.jump ((DataChannel.Kind.df10 false false 12).config 0o400000) strayed.mem 0o20
      = some 0o377777 := by decide
  have hword := DataChannel.HasWord.fetched (s := strayed) rfl (.single hjump) (by decide) (by decide)
  have hout := @DataChannel.Outside.second _ .read _ _ true hword (Or.inr ⟨by decide, by decide⟩)
    (by decide) (.first (by decide))
  exact hout

/-- A DF10 does not, and the RH20 does not tell of the missing words. -/
theorem strayed_missed :
    (DataChannel.Outside ((DataChannel.Kind.df10 false false 12).config 0o400000) .read strayed true strayed.mem ∧
      ¬ ∃ r : DataChannel.Df10,
        EndsWith (fun fuel ↦ (DataChannel.Kind.df10 false false 12).call 0o400000 .read fuel strayed) (false, r) ∧
          r.status = (DataChannel.Kind.df10 false false 12).stopped strayed.status ∧
          (∀ a ≠ strayed.cia ||| 1, r.mem a = strayed.mem a) ∧ ∀ a ≥ 0o400000, r.mem a = strayed.mem a) ∧
    Rh20.countErrors shortWrite = Rh20.shrtWc ||| Rh20.chanErr ∧
      ¬ Shows (Rh20.finishOp loneConfig false shortWrite).status (Rh20.countErrors shortWrite) := by
  refine ⟨⟨strayed_outside, fun h ↦ ?_⟩, by decide, fun h ↦ ?_⟩
  · have hbit := (DataChannel.outside_reported (.df10 false false 12) 0o400000 strayed_outside).mp h rfl 2 (by decide)
    revert hbit
    decide
  · have hbit := h 13 (by decide)
    revert hbit
    decide

end Ka10Simh.Pdp10
