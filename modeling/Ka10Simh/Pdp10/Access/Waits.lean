import Ka10Simh.Pdp10.Access.Ka

/-!
The accumulators under the pager of WAITS on the KA10.

An instruction executed by XCTR has some of its references made in the user's context, as the bits of
`xct_flag` say. A reference to an address below 020 that is not redirected is still looked up, and the
location that the lookup has for it is taken for one of the memory.

* `Ka.memReadWaits`, `Ka.memWriteWaits`: `Mem_read_waits` and `Mem_write_waits`.
* `Reference.Own`: the rules leave the reference in the executive's own context.
* `waits_accumulators_iff`: it uses the accumulator if and only if it is made outside an XCTR or in the
  current context.
-/

namespace Ka10Simh.Pdp10

/-- How a reference is made: `xct_flag` and `BYF5`, and the arguments. -/
structure Reference where
  xctFlag : ℕ
  byf5 : Bool := false
  flag : Bool := false
  curContext : Bool := false
  fetch : Bool := false
  mod : Bool := false

namespace Ka

/-- The state in which a reference is made. -/
def under (p : Reference) (s : Ka) : Ka :=
  { s with apr := { s.apr with pi := { s.apr.pi with xctFlag := p.xctFlag } }, byf5 := p.byf5 }

/-- `uf` of `page_lookup_waits`: the reference is in the user's context. -/
def userWaits (flag wr curContext fetch : Bool) (s : Ka) : Bool :=
  let xctFlag := s.apr.pi.xctFlag
  if flag then false
  else if xctFlag != 0 && !fetch then
    s.regs.user || (xctFlag &&& 0o10 != 0 && curContext) || (xctFlag &&& 0o4 != 0 && !wr)
      || (xctFlag &&& 0o1 != 0 && (wr || s.byf5))
  else s.regs.user

/-- `page_lookup_waits`. -/
def pageLookupWaits (addr : ℕ) (flag wr curContext fetch : Bool) (s : Ka) : Option ℕ × Ka :=
  let wr := wr || s.modify
  let s := s.watch addr fetch wr
  if s.userWaits flag wr curContext fetch then
    if addr ≤ s.regs.reloc.pl then (some ((addr + s.regs.reloc.rl) &&& rmask), s)
    else if addr &&& 0o400000 ≠ 0 ∧ addr ≤ s.regs.reloc.ph
        ∧ (s.regs.reloc.pflag = 0 ∨ (s.regs.reloc.pflag = 1 ∧ wr = false)) then
      (some ((addr + s.regs.reloc.rh) &&& rmask), s)
    else (none, s.raiseProt)
  else (some addr, s)

/-- `Mem_read_waits`, which returns `true` for an error. -/
def memReadWaits (ab : ℕ) (flag curContext fetch mod : Bool) (s : Ka) : Bool × Ka :=
  if ab < 0o20 ∧ (s.apr.pi.xctFlag = 0 ∨ fetch ∨ curContext ∨ s.regs.user) then
    (false, { s with mb := s.getReg ab })
  else
    match s.pageLookupWaits ab flag mod curContext fetch with
    | (none, s) => (true, s)
    | (some addr, s) =>
        if addr ≥ s.regs.memSize then (true, s.raiseNxm)
        else (false, { s with mb := s.mem addr, modify := mod, lastAddr := addr })

/-- `Mem_write_waits`. -/
def memWriteWaits (ab : ℕ) (flag curContext : Bool) (s : Ka) : Bool × Ka :=
  if ab < 0o20 ∧ (s.apr.pi.xctFlag = 0 ∨ curContext ∨ s.regs.user) then
    (false, s.setReg ab s.mb)
  else if s.modify then (false, { s.store s.lastAddr s.mb with modify := false })
  else
    match s.pageLookupWaits ab flag true curContext false with
    | (none, s) => (true, s)
    | (some addr, s) =>
        if addr ≥ s.regs.memSize then (true, s.raiseNxm)
        else (false, s.store addr s.mb)

end Ka

namespace Reference

/-- A reference made as `p` says. -/
def read (p : Reference) (ab : ℕ) (s : Ka) : Bool × Ka :=
  (s.under p).memReadWaits ab p.flag p.curContext p.fetch p.mod
def write (p : Reference) (ab v : ℕ) (s : Ka) : Bool × Ka :=
  { s with mb := v }.under p |>.memWriteWaits ab p.flag p.curContext

/-- The rules leave a read, or a write, in the executive's own context. -/
def OwnRead (p : Reference) (s : Ka) : Prop :=
  s.regs.user = false
    ∧ (s.under p).userWaits p.flag (p.mod || s.modify) p.curContext p.fetch = false
def OwnWrite (p : Reference) (s : Ka) : Prop :=
  s.regs.user = false ∧ (s.under p).userWaits p.flag true p.curContext false = false

/-- With the same registers, whatever the words are. -/
def Same (s t : Ka) : Prop := ∃ fm mem mb, t = { s with fm, mem, mb }

/-- A read has the accumulator in `MB`. -/
def ReadsAcc (p : Reference) (ab : ℕ) (s : Ka) : Prop :=
  ∀ t, Same s t → (p.read ab t).1 = false ∧ (p.read ab t).2.mb = t.getReg ab

/-- A write changes the accumulator, and no word of the memory. -/
def WritesAcc (p : Reference) (ab : ℕ) (s : Ka) : Prop :=
  ∀ t v, Same s t → (p.write ab v t).1 = false ∧ (p.write ab v t).2.fm = (t.setReg ab v).fm
    ∧ (p.write ab v t).2.mem = t.mem

/-- What is written one way is read the other way. -/
def RoundTrip (w r : Reference) (ab : ℕ) (s : Ka) : Prop :=
  ∀ t v, Same s t → (w.write ab v t).1 = false ∧ (r.read ab (w.write ab v t).2).1 = false
    ∧ (r.read ab (w.write ab v t).2).2.mb = v

/-- A reference outside an XCTR, or in the current context. -/
def Plain (p : Reference) : Prop := p.xctFlag = 0 ∨ p.curContext = true

/-- Or an instruction fetch. -/
def PlainRead (p : Reference) : Prop := p.Plain ∨ p.fetch = true

/-- A reference in the executive's own context is looked up at its address. -/
lemma pageLookupWaits_own {s : Ka} (ab : ℕ) {flag : Bool} (wr : Bool) {curContext fetch : Bool}
    (h : s.userWaits flag (wr || s.modify) curContext fetch = false) :
    s.pageLookupWaits ab flag wr curContext fetch
      = (some ab, s.watch ab fetch (wr || s.modify)) := by
  have hflag : (s.watch ab fetch (wr || s.modify)).apr.pi.xctFlag = s.apr.pi.xctFlag := by
    rw [Ka.watch]
    split_ifs
    · exact Apr.request_xctFlag _
    · rfl
  have hsame : (s.watch ab fetch (wr || s.modify)).userWaits flag (wr || s.modify) curContext fetch
      = s.userWaits flag (wr || s.modify) curContext fetch := by
    simp only [Ka.userWaits, hflag]
    rw [Ka.watch_eq]
  simp only [Ka.pageLookupWaits, hsame, h, Bool.false_eq_true, if_false]

/-! ### Plain references -/

lemma read_plain {p : Reference} (hp : p.PlainRead) {ab : ℕ} (hab : ab < 0o20) (s : Ka) :
    p.read ab s = (false, { s.under p with mb := s.getReg ab }) := by
  rw [read, Ka.memReadWaits]
  rw [if_pos]
  · rfl
  · refine ⟨hab, ?_⟩
    rcases hp with (hxct | hcur) | hfetch
    · exact Or.inl hxct
    · exact Or.inr (Or.inr (Or.inl hcur))
    · exact Or.inr (Or.inl hfetch)

lemma write_plain {p : Reference} (hp : p.Plain) {ab : ℕ} (hab : ab < 0o20) (v : ℕ) (s : Ka) :
    p.write ab v s = (false, ({ s with mb := v }.under p).setReg ab v) := by
  rw [write, Ka.memWriteWaits]
  rw [if_pos]
  · rfl
  · exact ⟨hab, hp.imp id Or.inl⟩

/-! ### Other references -/

/-- The words of the accumulators are not looked at. -/
lemma read_other {p : Reference} (ab : ℕ) {s : Ka} (hown : p.OwnRead s) (hp : ¬ p.PlainRead) :
    (p.read ab s).1 = true ∨ (p.read ab s).2.mb = s.mem ab := by
  have hnot : ¬ (ab < 0o20 ∧ ((s.under p).apr.pi.xctFlag = 0 ∨ p.fetch = true ∨ p.curContext = true
      ∨ (s.under p).regs.user = true)) := by
    rintro ⟨-, hxct | hfetch | hcur | huser⟩
    · exact hp (Or.inl (Or.inl hxct))
    · exact hp (Or.inr hfetch)
    · exact hp (Or.inl (Or.inr hcur))
    · exact absurd (hown.1.symm.trans huser) (by decide)
  have hloc := pageLookupWaits_own ab p.mod hown.2
  simp only [read, Ka.memReadWaits, if_neg hnot, hloc]
  split_ifs
  · exact Or.inl rfl
  · right
    rw [Ka.watch_eq]
    rfl

/-- A write changes the memory. -/
lemma memWriteWaits_other (s : Ka) (ab : ℕ) (flag curContext : Bool) (huser : s.regs.user = false)
    (hown : s.userWaits flag true curContext false = false)
    (hplain : ¬ (s.apr.pi.xctFlag = 0 ∨ curContext = true)) :
    (s.memWriteWaits ab flag curContext).1 = true
      ∨ ∃ a, (s.memWriteWaits ab flag curContext).2.mem = Function.update s.mem a s.mb := by
  have hnot : ¬ (ab < 0o20 ∧ (s.apr.pi.xctFlag = 0 ∨ curContext = true ∨ s.regs.user = true)) := by
    rintro ⟨-, hxct | hcur | hexec⟩
    · exact hplain (Or.inl hxct)
    · exact hplain (Or.inr hcur)
    · exact absurd (huser.symm.trans hexec) (by decide)
  have hloc := pageLookupWaits_own ab true ((Bool.true_or s.modify).symm ▸ hown)
  rw [Ka.memWriteWaits]
  rw [if_neg hnot, hloc]
  split_ifs with hmodify
  · exact Or.inr ⟨s.lastAddr, rfl⟩
  · simp only
    split_ifs
    · exact Or.inl rfl
    · refine Or.inr ⟨ab, ?_⟩
      rw [Ka.watch_eq]
      rfl

lemma write_other {p : Reference} (ab v : ℕ) {s : Ka} (hown : p.OwnWrite s) (hp : ¬ p.Plain) :
    (p.write ab v s).1 = true ∨ ∃ a, (p.write ab v s).2.mem = Function.update s.mem a v :=
  memWriteWaits_other (Ka.under p { s with mb := v }) ab p.flag p.curContext hown.1 hown.2 hp

lemma readsAcc_iff {p : Reference} {ab : ℕ} {s : Ka} (hab : ab < 0o20) (hown : p.OwnRead s) :
    p.ReadsAcc ab s ↔ p.PlainRead := by
  constructor
  · intro h
    by_contra hp
    have hmem := h { s with fm := fun _ => 1, mem := fun _ => 0 } ⟨_, _, _, rfl⟩
    rcases read_other ab (s := { s with fm := fun _ => 1, mem := fun _ => 0 }) hown hp
      with hfault | hmb
    · rw [hmem.1] at hfault
      cases hfault
    · rw [hmem.2] at hmb
      cases hmb
  · intro hp t _
    rw [read_plain hp hab]
    exact ⟨rfl, rfl⟩

lemma writesAcc_iff {p : Reference} {ab : ℕ} {s : Ka} (hab : ab < 0o20) (hown : p.OwnWrite s) :
    p.WritesAcc ab s ↔ p.Plain := by
  constructor
  · intro h
    by_contra hp
    have hmem := h { s with mem := fun _ => 0 } 1 ⟨_, _, _, rfl⟩
    rcases write_other ab 1 (s := { s with mem := fun _ => 0 }) hown hp
      with hfault | ⟨a, hupd⟩
    · rw [hmem.1] at hfault
      cases hfault
    · rw [hmem.2.2] at hupd
      have hat := congrFun hupd a
      rw [Function.update_self] at hat
      cases hat
  · intro hp t v _
    rw [write_plain hp hab]
    exact ⟨rfl, rfl, rfl⟩

lemma roundTrip_plain {w r : Reference} (hw : w.Plain) (hr : r.PlainRead) {ab : ℕ} (hab : ab < 0o20)
    (s : Ka) : RoundTrip w r ab s := by
  intro t v _
  rw [write_plain hw hab, read_plain hr hab]
  exact ⟨rfl, rfl, Function.update_self _ _ _⟩

end Reference

open Reference

/-- **The accumulators of the executive under WAITS**: references to an address below 020 that are left
in the executive's own context use the accumulator, and a read has what a write has left there, if and
only if both are made outside an XCTR or in the current context, or the read is an instruction fetch. -/
theorem waits_accumulators_iff (w r : Reference) (ab : ℕ) (s : Ka) (hab : ab < 0o20) (hw : w.OwnWrite s)
    (hr : r.OwnRead s) :
    w.WritesAcc ab s ∧ r.ReadsAcc ab s ∧ RoundTrip w r ab s ↔ w.Plain ∧ r.PlainRead := by
  rw [writesAcc_iff hab hw, readsAcc_iff hab hr]
  exact ⟨fun h => ⟨h.1, h.2.1⟩, fun h => ⟨h.1, h.2, roundTrip_plain h.1 h.2 hab s⟩⟩

/-- The executive, with `XCTR 4,` and without it: a write is not redirected by it. -/
def sampleExec : Ka :=
  { sampleUser with regs := { sampleUser.regs with user := false } }

theorem waits_accumulators_iff_plain :
    WritesAcc { xctFlag := 0 } 1 sampleExec ∧ ReadsAcc { xctFlag := 0 } 1 sampleExec
        ∧ RoundTrip { xctFlag := 0 } { xctFlag := 0 } 1 sampleExec
      ↔ Plain { xctFlag := 0 } ∧ PlainRead { xctFlag := 0 } :=
  waits_accumulators_iff { xctFlag := 0 } { xctFlag := 0 } 1 sampleExec (by decide)
    ⟨rfl, by decide⟩ ⟨rfl, by decide⟩

/-- What a MOVEM under `XCTR 4,` leaves in accumulator 1 is not what the next instruction finds. -/
theorem waits_accumulators_fail :
    OwnWrite { xctFlag := 4 } sampleExec ∧ OwnRead { xctFlag := 0 } sampleExec
      ∧ (write { xctFlag := 4 } 1 5 sampleExec).1 = false
      ∧ (read { xctFlag := 0 } 1 (write { xctFlag := 4 } 1 5 sampleExec).2).2.mb = 0 := by
  refine ⟨⟨rfl, by decide⟩, ⟨rfl, by decide⟩, by decide, by decide⟩

end Ka10Simh.Pdp10
