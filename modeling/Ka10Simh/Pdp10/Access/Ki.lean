import Ka10Simh.Lib.Bits
import Ka10Simh.Pdp10.Access.Apr

/-!
The accumulators of the previous context on the KI10.

An executive instruction executed by PXCT has its reads, its writes or both made in the context of the
user, as bits 1 and 2 of `xct_flag` say. There an address below 020 is one of the accumulators stacked
in the user's page, or one of the user's block, or it is looked up if that is the block of the executive.

* `Ki.memRead`, `Ki.memWrite`: `Mem_read` and `Mem_write`.
* `Ki.previous`: the accumulator of the previous context.
* `previous_accumulators_iff`: a read has what a write has left in it if and only if the executive's
  accumulator of the same address has it too, because the read puts that one in `MB`.
-/

namespace Ka10Simh.Pdp10

/-- `KI_PAG_A`, `KI_PAG_P`, `KI_PAG_W` and `KI_PAG_X`, the bits of a page map entry. -/
abbrev kiPagA : ℕ := 0o400000
abbrev kiPagP : ℕ := 0o200000
abbrev kiPagW : ℕ := 0o100000
abbrev kiPagS : ℕ := 0o40000
abbrev kiPagX : ℕ := 0o20000

/-- The flags of the processor, and those of its clock. -/
structure KiApr where
  pi : Pi
  run : Bool := true
  nxmFlag : Bool := false
  adrFlag : Bool := false
  watchStop : Bool := false
  inoutFail : Bool := false
  nxmStop : Bool := false
  aprIrq : ℕ := 0
  clkIrq : ℕ := 0
  clkEn : Bool := false
  clkFlg : Bool := false

namespace KiApr

/-- `check_apr_irq`. -/
def checkAprIrq (s : KiApr) : KiApr :=
  let pi :=
    if s.pi.piEnable && s.aprIrq != 0 then
      let pi := s.pi.clrInterrupt Dev.apr
      if s.inoutFail || s.nxmFlag || s.adrFlag then pi.setInterrupt Dev.apr s.aprIrq else pi
    else s.pi
  { s with
    run := s.run && !(s.nxmStop && s.nxmFlag)
    pi := if pi.piEnable && s.clkEn && s.clkFlg then pi.setInterrupt Dev.clk s.clkIrq else pi }

/-- `address_conditions`. -/
def addressConditions (adrCond : ℕ) (fetch write : Bool) (s : KiApr) : KiApr :=
  let cond := if fetch then Apr.adrIfetch else if write then Apr.adrWrite else Apr.adrDfetch
  let meets := adrCond &&& cond != 0
  { s with
    watchStop := s.watchStop || (meets && adrCond &&& Apr.adrStop != 0)
    adrFlag := s.adrFlag || (meets && adrCond &&& Apr.adrBreak != 0) }.checkAprIrq

end KiApr

/-- What accesses ask and do not change: the flags of `FLAGS`, the registers of the pager, `xct_flag`,
and the switches. -/
structure KiRegs where
  user : Bool
  userio : Bool
  prvPub : Bool := false
  fmSel : ℕ := 0
  acStack : ℕ := 0
  ubPtr : ℕ := 0
  ebPtr : ℕ := 0
  pageEnable : Bool := true
  smallUser : Bool := false
  xctFlag : ℕ := 0
  memSize : ℕ
  adrCond : ℕ := 0
  addrSwitch : ℕ := 0

/-- What accesses change, but for the words: `PUBLIC`, the fault, the buffers of the pager, `modify`
with `last_addr`. -/
structure KiPager where
  public_ : Bool := false
  pageFault : Bool := false
  faultData : ℕ := 0
  eTlb : ℕ → ℕ := fun _ => 0
  uTlb : ℕ → ℕ := fun _ => 0
  pagReload : ℕ := 0
  lastPage : ℕ := 0
  modify : Bool := false
  lastAddr : ℕ := 0

/-- The KI10 as accesses see it. -/
structure Ki where
  regs : KiRegs
  apr : KiApr
  pager : KiPager := {}
  fm : ℕ → ℕ
  mem : ℕ → ℕ
  mb : ℕ

namespace Ki

/-- `get_reg` and `set_reg`. -/
def regAt (s : Ki) (i : ℕ) : ℕ := if s.regs.user then s.regs.fmSel ||| (i &&& 0o17) else i &&& 0o17
def getReg (i : ℕ) (s : Ki) : ℕ := s.fm (s.regAt i)
def setReg (i v : ℕ) (s : Ki) : Ki := { s with fm := Function.update s.fm (s.regAt i) v }

/-- The word in a place. -/
def get (pl : Loc) (s : Ki) : ℕ :=
  match pl with
  | .reg i => s.fm i
  | .word a => s.mem a

/-- Change the word in a place. -/
def put (pl : Loc) (v : ℕ) (s : Ki) : Ki :=
  match pl with
  | .reg i => { s with fm := Function.update s.fm i v }
  | .word a => { s with mem := Function.update s.mem a v }

/-- `page_fault = 1`. -/
def pageFail (data : ℕ) (s : Ki) : Ki :=
  { s with pager := { s.pager with pageFault := true, faultData := data } }

/-- `load_tlb`, for a page that is not mapped directly. -/
def loadTlb (uf : Bool) (page : ℕ) (s : Ki) : ℕ × Ki :=
  let upmp := !uf && page &&& 0o740 == 0o340
  let page := if upmp then page + (0o1000 - 0o340) else page
  let reload := ((s.pager.pagReload + 1) &&& 0o37) ||| 0o40
  if !uf && !upmp && page &&& 0o400 == 0 then ((kiPagA ||| kiPagX) ||| page, s)
  else if !uf && !upmp then
    let data := s.mem (s.regs.ebPtr + page >>> 1)
    let eTlb := Function.update (Function.update s.pager.eTlb (page &&& 0o776) (rmask &&& data >>> 18))
      (page ||| 1) (rmask &&& data)
    (eTlb page &&& rmask,
      { s with pager := { s.pager with eTlb, pagReload := reload
                                       lastPage := (page ^^^ 0o777) <<< 1 ||| 1 } })
  else
    let data := s.mem (s.regs.ubPtr + page >>> 1)
    let uTlb := Function.update (Function.update s.pager.uTlb (page &&& 0o1776) (rmask &&& data >>> 18))
      (page ||| 1) (rmask &&& data)
    let lastPage :=
      if upmp then ((page - 0o440) ^^^ 0o777) <<< 1 ||| 1 else (page ^^^ 0o777) <<< 1
    (uTlb page &&& rmask, { s with pager := { s.pager with uTlb, pagReload := reload, lastPage } })

/-- `adr_cond && addr == AS`. -/
def watch (addr : ℕ) (fetch write : Bool) (s : Ki) : Ki :=
  if s.regs.adrCond ≠ 0 ∧ addr = s.regs.addrSwitch then
    { s with apr := s.apr.addressConditions s.regs.adrCond fetch write }
  else s

/-- The access is one of the previous context. -/
def usesPrev (flag wr curContext modify : Bool) (s : Ki) : Bool :=
  !flag && s.regs.xctFlag != 0 && !curContext
    && ((s.regs.xctFlag &&& 2 != 0 && wr) || (s.regs.xctFlag &&& 1 != 0 && (!wr || modify)))

/-- `uf` and `pub`, a user space access, and one from a public page. -/
def uf (flag wr curContext modify : Bool) (s : Ki) : Bool :=
  if flag then false else if s.usesPrev flag wr curContext modify then s.regs.userio else s.regs.user
def pub (flag wr curContext modify : Bool) (s : Ki) : Bool :=
  if s.usesPrev flag wr curContext modify then s.regs.prvPub else s.pager.public_

/-- `OP_PORTAL`, and the same test of a word in a direct page. -/
def opPortalKi (x : ℕ) : Bool := x &&& 0o777740000000 == 0o254040000000
def portalDirect (x : ℕ) : Bool := x &&& 0o777040000000 == 0o254040000000

/-- The fault word of a page, but for its reason. -/
def faultWord (page : ℕ) (uf : Bool) : ℕ := page <<< 18 ||| uf.toNat <<< 27

/-- `page_lookup`: the location, if the access is allowed. -/
def pageLookup (addr : ℕ) (flag wr curContext fetch modify : Bool) (s : Ki) : Option ℕ × Ki :=
  let page := (rmask &&& addr) >>> 9
  if s.pager.pageFault then (none, s)
  else
    let s := s.watch addr fetch wr
    let uf := s.uf flag wr curContext modify
    let pub := s.pub flag wr curContext modify
    if !s.regs.pageEnable then (some addr, s)
    else
      let wr := wr || modify
      if uf && s.regs.smallUser && page &&& 0o340 != 0 then (none, s.pageFail (faultWord page uf ||| 0o20))
      else if !uf && page < 0o340 then
        if !flag && pub && (!fetch || !portalDirect (s.mem addr)) then
          (if wr then none else some addr, s.pageFail (faultWord page uf ||| 0o21))
        else (some addr, s)
      else
        let (data, s) := s.loadTlb uf page
        let loc := (data &&& 0o17777) <<< 9 + (addr &&& 0o777)
        if data &&& kiPagA = 0 ∨ (wr = true ∧ data &&& kiPagW = 0) then
          (none, s.pageFail ((faultWord page uf &&& lmask)
            ||| (if data &&& kiPagA ≠ 0 then 0o10 else 0) ||| (if data &&& kiPagW ≠ 0 then 4 else 0)
            ||| (if data &&& kiPagS ≠ 0 then 2 else 0) ||| wr.toNat))
        else if !flag && pub && data &&& kiPagP == 0 && (!fetch || !opPortalKi (s.mem loc)) then
          (none, s.pageFail (faultWord page uf ||| 0o21))
        else if fetch && data &&& kiPagP != 0 then
          (some loc, { s with pager := { s.pager with public_ := true } })
        else (some loc, s)

/-- `nxm_flag = 1`. -/
def raiseNxm (s : Ki) : Ki := { s with apr := { s.apr with nxmFlag := true }.checkAprIrq }

/-- The label `read` of `Mem_read`. -/
def readLooked (ab : ℕ) (flag curContext fetch mod : Bool) (s : Ki) : Bool × Ki :=
  match s.pageLookup ab flag false curContext fetch mod with
  | (none, s) => (true, s)
  | (some addr, s) =>
      if addr ≥ s.regs.memSize then (true, s.raiseNxm)
      else
        (false, { s with mb := s.mem addr, pager := { s.pager with modify := mod, lastAddr := addr } })

/-- `Mem_read`, which returns `true` for an error. -/
def memRead (ab : ℕ) (flag curContext fetch mod : Bool) (s : Ki) : Bool × Ki :=
  if ab < 0o20 then
    if !s.regs.user && !curContext && s.regs.xctFlag &&& 1 != 0 then
      if s.regs.userio then
        if s.regs.fmSel = 0 then s.readLooked ab flag curContext fetch mod
        else
          let s := { s with mb := s.fm (s.regs.fmSel ||| ab) }
          (false, { s with mb := s.getReg ab })
      else
        let s := { s with mb := s.mem (s.regs.ubPtr + s.regs.acStack + ab) }
        (false, { s with mb := s.getReg ab })
    else (false, { s with mb := s.getReg ab })
  else s.readLooked ab flag curContext fetch mod

/-- The label `write` of `Mem_write`. -/
def writeLooked (ab : ℕ) (flag curContext : Bool) (s : Ki) : Bool × Ki :=
  match s.pageLookup ab flag true curContext false false with
  | (none, s) => (true, s)
  | (some addr, s) =>
      if addr ≥ s.regs.memSize then (true, s.raiseNxm) else (false, s.put (.word addr) s.mb)

/-- `Mem_write`. -/
def memWrite (ab : ℕ) (flag curContext : Bool) (s : Ki) : Bool × Ki :=
  if ab < 0o20 then
    if s.regs.user then (false, s.setReg ab s.mb)
    else if !curContext
        && ((s.regs.xctFlag &&& 1 != 0 && s.pager.modify) || s.regs.xctFlag &&& 2 != 0) then
      if s.regs.userio then
        if s.regs.fmSel = 0 then s.writeLooked ab flag curContext
        else (false, s.put (.reg (s.regs.fmSel ||| ab)) s.mb)
      else (false, s.put (.word (s.regs.ubPtr + s.regs.acStack + ab)) s.mb)
    else (false, s.setReg ab s.mb)
  else if s.pager.modify then
    (false, { s.put (.word s.pager.lastAddr) s.mb with pager := { s.pager with modify := false } })
  else s.writeLooked ab flag curContext

/-! ### The previous context -/

/-- The accumulator of the previous context, unless its addresses are looked up. -/
def previous (ab : ℕ) (s : Ki) : Option Loc :=
  if s.regs.userio then
    if s.regs.fmSel = 0 then none else some (.reg (s.regs.fmSel ||| ab))
  else some (.word (s.regs.ubPtr + s.regs.acStack + ab))

/-- The entry of page 0 in the user's page map, and where it maps an address. -/
def entry (mem : ℕ → ℕ) (s : Ki) : ℕ := mem s.regs.ubPtr >>> 18 &&& rmask
def mapped (e ab : ℕ) : ℕ := (e &&& 0o17777) <<< 9 + ab

/-- The entry allows an access of the previous context. -/
def Allows (e : ℕ) (wr : Bool) (s : Ki) : Prop :=
  e &&& kiPagA ≠ 0 ∧ (wr = true → e &&& kiPagW ≠ 0) ∧ (s.regs.prvPub = true → e &&& kiPagP ≠ 0)

/-- A write through the page map is done, and the map, as the write leaves it, leads a read to the word
that has been written or to one like it. -/
def Rewritable (ab : ℕ) (s : Ki) : Prop :=
  s.pager.pageFault = false ∧ s.Allows (s.entry s.mem) true ∧ mapped (s.entry s.mem) ab < s.regs.memSize
def Rereads (ab v : ℕ) (mod : Bool) (s : Ki) : Prop :=
  let mem := Function.update s.mem (mapped (s.entry s.mem) ab) v
  s.Allows (s.entry mem) mod ∧ mapped (s.entry mem) ab < s.regs.memSize
    ∧ mem (mapped (s.entry mem) ab) = v

/-- A write and a read of the previous context agree: the read has what the write has left, no other
word is changed, and a read of an accumulator has what is in it. -/
structure Coherent (ab v : ℕ) (flag mod : Bool) (s : Ki) : Prop where
  roundTrip : ∀ s₁, { s with mb := v }.memWrite ab flag false = (false, s₁) →
    (s₁.memRead ab flag false false mod).1 = false ∧ (s₁.memRead ab flag false false mod).2.mb = v
  confined : ∀ s₁, { s with mb := v }.memWrite ab flag false = (false, s₁) →
    ∃ pl, (s₁.fm = (s.put pl v).fm ∧ s₁.mem = (s.put pl v).mem)
      ∧ (s₁.memRead ab flag false false mod).2.fm = s₁.fm
      ∧ (s₁.memRead ab flag false false mod).2.mem = s₁.mem
  value : ∀ pl, s.previous ab = some pl → (s.memRead ab flag false false mod).2.mb = s.get pl

variable {s : Ki} {ab v : ℕ} {flag mod : Bool}

/-- What a lookup leaves as it was. -/
structure Same (s s' : Ki) : Prop where
  regs : s'.regs = s.regs
  fm : s'.fm = s.fm
  mem : s'.mem = s.mem
  mb : s'.mb = s.mb

lemma Same.trans {s s' s'' : Ki} (h : Same s s') (h' : Same s' s'') : Same s s'' :=
  ⟨h'.regs.trans h.regs, h'.fm.trans h.fm, h'.mem.trans h.mem, h'.mb.trans h.mb⟩

lemma same_watch (addr : ℕ) (fetch write : Bool) (s : Ki) : Same s (s.watch addr fetch write) := by
  rw [watch]
  split_ifs <;> exact ⟨rfl, rfl, rfl, rfl⟩

lemma same_loadTlb (uf : Bool) (page : ℕ) (s : Ki) : Same s (s.loadTlb uf page).2 := by
  simp only [loadTlb]
  split_ifs <;> exact ⟨rfl, rfl, rfl, rfl⟩

lemma same_pageLookup (addr : ℕ) (flag wr curContext fetch modify : Bool) (s : Ki) :
    Same s (s.pageLookup addr flag wr curContext fetch modify).2 := by
  have hwatch := same_watch addr fetch wr s
  simp only [pageLookup]
  split_ifs
  any_goals exact hwatch
  any_goals exact ⟨rfl, rfl, rfl, rfl⟩
  any_goals exact hwatch.trans ⟨rfl, rfl, rfl, rfl⟩
  all_goals exact (hwatch.trans (same_loadTlb _ _ _)).trans ⟨rfl, rfl, rfl, rfl⟩

lemma xct_bits (hxct : s.regs.xctFlag &&& 3 = 3) :
    s.regs.xctFlag &&& 1 ≠ 0 ∧ s.regs.xctFlag &&& 2 ≠ 0 ∧ s.regs.xctFlag ≠ 0 := by
  have hone : s.regs.xctFlag &&& 3 &&& 1 = s.regs.xctFlag &&& 1 := Nat.and_assoc _ _ _
  have htwo : s.regs.xctFlag &&& 3 &&& 2 = s.regs.xctFlag &&& 2 := Nat.and_assoc _ _ _
  rw [hxct] at hone htwo
  refine ⟨by rw [← hone]; decide, by rw [← htwo]; decide, fun h => ?_⟩
  rw [h] at hxct
  cases hxct

lemma usesPrev_xct (hxct : s.regs.xctFlag &&& 3 = 3) (wr modify : Bool) :
    s.usesPrev flag wr false modify = !flag := by
  obtain ⟨hone, htwo, hne⟩ := xct_bits hxct
  simp only [usesPrev, bne_iff_ne.mpr hone, bne_iff_ne.mpr htwo, bne_iff_ne.mpr hne]
  cases flag <;> cases wr <;> rfl

/-- The page of an accumulator's address is the first. -/
lemma page_zero (hab : ab < 0o20) : (rmask &&& ab) >>> 9 = 0 := by
  have hle : rmask &&& ab ≤ ab := Nat.and_le_right
  rw [Nat.shiftRight_eq_div_pow]
  omega

/-- A lookup that the paging does not map. -/
lemma pageLookup_direct (hdirect : flag = true ∨ s.regs.pageEnable = false) (hab : ab < 0o20)
    (hfault : s.pager.pageFault = false) (wr modify : Bool) :
    (s.pageLookup ab flag wr false false modify).1 = some ab
      ∧ (s.pageLookup ab flag wr false false modify).2.pager.pageFault = false := by
  have hregs : (s.watch ab false wr).regs = s.regs := (same_watch ab false wr s).regs
  have hpager : (s.watch ab false wr).pager.pageFault = false := by
    rw [watch]
    split_ifs <;> exact hfault
  rcases hdirect with hflag | henable
  · subst hflag
    simp only [pageLookup, hfault, hregs, uf, page_zero hab]
    cases s.regs.pageEnable <;> simp [hpager]
  · simp [pageLookup, hfault, hregs, henable, hpager]

/-- A lookup through the first entry of the user's page map. -/
lemma pageLookup_mapped (hio : s.regs.userio = true) (hxct : s.regs.xctFlag &&& 3 = 3)
    (henable : s.regs.pageEnable = true) (hab : ab < 0o20) (hfault : s.pager.pageFault = false)
    (wr modify : Bool) :
    ((s.pageLookup ab false wr false false modify).1 = some (mapped (s.entry s.mem) ab)
        ∧ (s.pageLookup ab false wr false false modify).2.pager.pageFault = false
        ∧ s.Allows (s.entry s.mem) (wr || modify))
      ∨ ((s.pageLookup ab false wr false false modify).1 = none
        ∧ ¬ s.Allows (s.entry s.mem) (wr || modify)) := by
  have hwatch := same_watch ab false wr s
  have hpager : (s.watch ab false wr).pager.pageFault = false := by
    rw [watch]
    split_ifs <;> exact hfault
  generalize hu : s.watch ab false wr = u at hwatch hpager
  have hxct' : u.regs.xctFlag &&& 3 = 3 := hwatch.regs ▸ hxct
  have hdata : (u.loadTlb true 0).1 = s.entry s.mem := by
    simp [loadTlb, entry, hwatch.regs, hwatch.mem, Nat.and_comm]
  have hload : (u.loadTlb true 0).2.pager.pageFault = false := by
    simp [loadTlb, hpager]
  have hand : ab &&& 0o777 = ab := Nat.and_two_pow_sub_one_of_lt_two_pow (n := 9) (by omega)
  simp only [pageLookup, hfault, hu, uf, pub, usesPrev_xct hxct', page_zero hab, hwatch.regs, hio,
    henable, hdata, hand, Bool.false_eq_true, if_false, Bool.not_false, if_true, Bool.not_true,
    Nat.zero_and, bne_self_eq_false, Bool.and_false, Bool.false_and, Bool.true_or, Bool.and_true,
    Bool.true_and]
  by_cases hdeny : s.entry s.mem &&& kiPagA = 0 ∨ ((wr || modify) = true ∧ s.entry s.mem &&& kiPagW = 0)
  · right
    rw [if_pos hdeny]
    refine ⟨rfl, fun hallow => ?_⟩
    rcases hdeny with ha | ⟨hw, hw'⟩
    · exact hallow.1 ha
    · exact hallow.2.1 hw hw'
  · rw [if_neg hdeny]
    by_cases hpub : s.regs.prvPub = true ∧ s.entry s.mem &&& kiPagP = 0
    · right
      rw [if_pos (by simp [hpub.1, hpub.2])]
      exact ⟨rfl, fun hallow => hallow.2.2 hpub.1 hpub.2⟩
    · left
      rw [if_neg fun h => hpub (by simpa using h)]
      refine ⟨rfl, hload, fun ha => hdeny (Or.inl ha), fun hw hw' => hdeny (Or.inr ⟨hw, hw'⟩),
        fun hp hp' => hpub ⟨hp, hp'⟩⟩

/-! ### An accumulator -/

lemma and_acc (hab : ab < 0o20) : ab &&& 0o17 = ab :=
  Nat.and_two_pow_sub_one_of_lt_two_pow (n := 4) hab

/-- The executive's own accumulator. -/
lemma getReg_exec (hexec : s.regs.user = false) (hab : ab < 0o20) : s.getReg ab = s.fm ab := by
  simp [getReg, regAt, hexec, and_acc hab]

lemma memWrite_previous (hexec : s.regs.user = false) (hxct : s.regs.xctFlag &&& 3 = 3)
    (hab : ab < 0o20) {pl : Loc} (hpl : s.previous ab = some pl) :
    s.memWrite ab flag false = (false, s.put pl s.mb) := by
  have htwo := bne_iff_ne.mpr (xct_bits hxct).2.1
  simp only [previous] at hpl
  simp only [memWrite, if_pos hab, hexec, htwo, Bool.or_true, Bool.not_false, Bool.and_true,
    Bool.false_eq_true, if_false, if_true]
  split_ifs at hpl with hio hsel
  · cases hpl
    rw [if_pos hio, if_neg hsel]
  · cases hpl
    rw [if_neg hio]

/-- A read leaves the executive's accumulator in `MB`. -/
lemma memRead_previous (hexec : s.regs.user = false) (hxct : s.regs.xctFlag &&& 3 = 3)
    (hab : ab < 0o20) {pl : Loc} (hpl : s.previous ab = some pl) :
    s.memRead ab flag false false mod = (false, { s with mb := s.fm ab }) := by
  have hone := bne_iff_ne.mpr (xct_bits hxct).1
  simp only [previous] at hpl
  have hreg : ∀ m, { s with mb := m }.getReg ab = s.fm ab := fun m =>
    getReg_exec (s := { s with mb := m }) hexec hab
  simp only [memRead, if_pos hab, hexec, hone, Bool.not_false, Bool.and_true, if_true, hreg]
  split_ifs at hpl with hio hsel
  · rw [if_pos hio, if_neg hsel]
  · rw [if_neg hio]

/-- The executive's accumulator is not one of the previous context. -/
lemma put_previous (hblock : s.regs.fmSel &&& 0o17 = 0) (hab : ab < 0o20) {pl : Loc}
    (hpl : s.previous ab = some pl) : (s.put pl v).fm ab = s.fm ab := by
  rw [previous] at hpl
  split_ifs at hpl with hio hsel
  · cases hpl
    refine Function.update_of_ne (fun heq => hsel ?_) _ _
    have hle : s.regs.fmSel ≤ ab := by
      rw [heq]
      exact Nat.left_le_or
    rw [← hblock]
    exact (Nat.and_two_pow_sub_one_of_lt_two_pow (n := 4) (by omega)).symm
  · cases hpl
    rfl

lemma put_regs (pl : Loc) (v : ℕ) (s : Ki) : (s.put pl v).regs = s.regs := by cases pl <;> rfl

/-- The accumulators of the previous context. -/
lemma coherent_previous (hexec : s.regs.user = false) (hxct : s.regs.xctFlag &&& 3 = 3)
    (hab : ab < 0o20) (hblock : s.regs.fmSel &&& 0o17 = 0) {pl : Loc}
    (hpl : s.previous ab = some pl) :
    s.Coherent ab v flag mod ↔ s.fm ab = v ∧ s.fm ab = s.get pl := by
  have hwrite : { s with mb := v }.memWrite ab flag false
      = (false, { s with mb := v }.put pl v) :=
    memWrite_previous (s := { s with mb := v }) hexec hxct hab hpl
  have hregs : ({ s with mb := v }.put pl v).regs = s.regs := put_regs pl v { s with mb := v }
  have hread : ({ s with mb := v }.put pl v).memRead ab flag false false mod
      = (false, { { s with mb := v }.put pl v with mb := s.fm ab }) := by
    rw [memRead_previous (by rw [hregs]; exact hexec) (by rw [hregs]; exact hxct) hab
      (by unfold previous; rw [hregs]; exact hpl)]
    rw [put_previous (s := { s with mb := v }) hblock hab hpl]
  have hvalue : (s.memRead ab flag false false mod).2.mb = s.fm ab := by
    rw [memRead_previous hexec hxct hab hpl]
  constructor
  · intro h
    have hback := (h.roundTrip _ hwrite).2
    rw [hread] at hback
    exact ⟨hback, by rw [← h.value pl hpl, hvalue]⟩
  · rintro ⟨hv, hpl'⟩
    refine ⟨fun s₁ h₁ => ?_, fun s₁ h₁ => ?_, fun pl₁ hpl₁ => ?_⟩
    · cases hwrite.symm.trans h₁
      rw [hread]
      exact ⟨rfl, hv⟩
    · cases hwrite.symm.trans h₁
      refine ⟨pl, ⟨?_, ?_⟩, ?_⟩
      · cases pl <;> rfl
      · cases pl <;> rfl
      · rw [hread]
        exact ⟨rfl, rfl⟩
    · cases hpl.symm.trans hpl₁
      rw [hvalue, hpl']

/-! ### Words that are looked up -/

/-- Every address is looked up for what it is, or through the user's page map. -/
def Direct (flag : Bool) (s : Ki) : Prop := flag = true ∨ s.regs.pageEnable = false

lemma memWrite_looked (hexec : s.regs.user = false) (hxct : s.regs.xctFlag &&& 3 = 3)
    (hab : ab < 0o20) (hnone : s.previous ab = none) :
    s.memWrite ab flag false = s.writeLooked ab flag false := by
  have htwo := bne_iff_ne.mpr (xct_bits hxct).2.1
  simp only [previous] at hnone
  simp only [memWrite, if_pos hab, hexec, htwo, Bool.or_true, Bool.not_false, Bool.and_true,
    Bool.false_eq_true, if_false, if_true]
  split_ifs at hnone with hio hsel
  rw [if_pos hio, if_pos hsel]

lemma memRead_looked (hexec : s.regs.user = false) (hxct : s.regs.xctFlag &&& 3 = 3)
    (hab : ab < 0o20) (hnone : s.previous ab = none) :
    s.memRead ab flag false false mod = s.readLooked ab flag false false mod := by
  have hone := bne_iff_ne.mpr (xct_bits hxct).1
  simp only [previous] at hnone
  simp only [memRead, if_pos hab, hexec, hone, Bool.not_false, Bool.and_true, if_true]
  split_ifs at hnone with hio hsel
  rw [if_pos hio, if_pos hsel]

lemma userio_of_none (hnone : s.previous ab = none) : s.regs.userio = true := by
  rw [previous] at hnone
  split_ifs at hnone with hio hsel
  exact hio

/-- What a write that is done leaves. -/
lemma writeLooked_done {s₁ : Ki} (h : s.writeLooked ab flag false = (false, s₁)) :
    ∃ a, (s.pageLookup ab flag true false false false).1 = some a ∧ a < s.regs.memSize
      ∧ s₁ = (s.pageLookup ab flag true false false false).2.put (.word a) s.mb := by
  have hsame := same_pageLookup ab flag true false false false s
  rw [writeLooked] at h
  rcases hlook : s.pageLookup ab flag true false false false with ⟨_ | a, u⟩ <;>
    rw [hlook] at h hsame
  · cases h
  · simp only at h
    rw [hsame.regs] at h
    split_ifs at h with hmem
    · cases h
    · refine ⟨a, rfl, by omega, ?_⟩
      rw [← (Prod.mk.inj h).2]
      exact congrArg (fun m => put (.word a) m u) hsame.mb

/-- What a read has when its word is found. -/
lemma readLooked_of_some {a : ℕ} (h : (s.pageLookup ab flag false false false mod).1 = some a)
    (hmem : a < s.regs.memSize) :
    (s.readLooked ab flag false false mod).1 = false
      ∧ (s.readLooked ab flag false false mod).2.mb = s.mem a := by
  have hsame := same_pageLookup ab flag false false false mod s
  rw [readLooked]
  rcases hlook : s.pageLookup ab flag false false false mod with ⟨_ | b, u⟩ <;> rw [hlook] at h hsame
  · cases h
  · cases h
    simp only
    rw [if_neg (by rw [hsame.regs]; omega)]
    exact ⟨rfl, by rw [hsame.mem]⟩

/-- A read that is done has found its word. -/
lemma some_of_readLooked (h : (s.readLooked ab flag false false mod).1 = false) :
    ∃ a, (s.pageLookup ab flag false false false mod).1 = some a ∧ a < s.regs.memSize := by
  have hsame := same_pageLookup ab flag false false false mod s
  rw [readLooked] at h
  rcases hlook : s.pageLookup ab flag false false false mod with ⟨_ | a, u⟩ <;>
    rw [hlook] at h hsame
  · cases h
  · simp only at h
    split_ifs at h with hmem
    rw [hsame.regs] at hmem
    exact ⟨a, rfl, by omega⟩

lemma readLooked_words (s : Ki) :
    (s.readLooked ab flag false false mod).2.fm = s.fm
      ∧ (s.readLooked ab flag false false mod).2.mem = s.mem := by
  have hsame := same_pageLookup ab flag false false false mod s
  rw [readLooked]
  rcases hlook : s.pageLookup ab flag false false false mod with ⟨_ | a, u⟩ <;> rw [hlook] at hsame
  · exact ⟨hsame.fm, hsame.mem⟩
  · simp only
    split_ifs <;> exact ⟨hsame.fm, hsame.mem⟩

/-- There is no lookup after a fault. -/
lemma pageFault_of_some {wr modify : Bool} {a : ℕ}
    (h : (s.pageLookup ab flag wr false false modify).1 = some a) : s.pager.pageFault = false := by
  rw [← Bool.not_eq_true]
  intro hfault
  simp [pageLookup, hfault] at h

/-- The state after a write of `v` that is looked up and done at `a`. -/
structure Wrote (v a : ℕ) (s s₁ : Ki) : Prop where
  inMem : a < s.regs.memSize
  regs : s₁.regs = s.regs
  fm : s₁.fm = s.fm
  mem : s₁.mem = Function.update s.mem a v
  noFault : s₁.pager.pageFault = false

/-- A write that is looked up is done when its word is found in the memory. -/
lemma memWrite_found (hexec : s.regs.user = false) (hxct : s.regs.xctFlag &&& 3 = 3)
    (hab : ab < 0o20) (hnone : s.previous ab = none) {a : ℕ}
    (hfound : ({ s with mb := v }.pageLookup ab flag true false false false).1 = some a)
    (hfault : ({ s with mb := v }.pageLookup ab flag true false false false).2.pager.pageFault = false)
    (hmem : a < s.regs.memSize) :
    ∃ s₁, { s with mb := v }.memWrite ab flag false = (false, s₁) ∧ Wrote v a s s₁ := by
  have hsame := same_pageLookup ab flag true false false false { s with mb := v }
  rw [memWrite_looked (s := { s with mb := v }) hexec hxct hab hnone, writeLooked]
  rcases hlook : { s with mb := v }.pageLookup ab flag true false false false with ⟨o, u⟩
  rw [hlook] at hfound hfault hsame
  cases hfound
  rw [hlook]
  simp only
  rw [if_neg (by rw [hsame.regs]; exact Nat.not_le.mpr hmem)]
  refine ⟨_, rfl, hmem, hsame.regs, hsame.fm, ?_, hfault⟩
  show Function.update u.mem a u.mb = _
  rw [hsame.mem, hsame.mb]

/-- And only then. -/
lemma found_of_memWrite (hexec : s.regs.user = false) (hxct : s.regs.xctFlag &&& 3 = 3)
    (hab : ab < 0o20) (hnone : s.previous ab = none) {s₁ : Ki}
    (h : { s with mb := v }.memWrite ab flag false = (false, s₁)) :
    s.pager.pageFault = false
      ∧ ∃ a, ({ s with mb := v }.pageLookup ab flag true false false false).1 = some a
        ∧ a < s.regs.memSize := by
  rw [memWrite_looked (s := { s with mb := v }) hexec hxct hab hnone] at h
  obtain ⟨a, hfound, hmem, -⟩ := writeLooked_done h
  exact ⟨pageFault_of_some (s := { s with mb := v }) hfound, a, hfound, hmem⟩

/-- The read that follows is looked up too. -/
lemma Wrote.memRead_eq {s₁ : Ki} {a : ℕ} (hw : Wrote v a s s₁) (hexec : s.regs.user = false)
    (hxct : s.regs.xctFlag &&& 3 = 3) (hab : ab < 0o20) (hnone : s.previous ab = none) :
    s₁.memRead ab flag false false mod = s₁.readLooked ab flag false false mod := by
  refine memRead_looked ?_ ?_ hab ?_
  · rw [hw.regs]; exact hexec
  · rw [hw.regs]; exact hxct
  · unfold previous; rw [hw.regs]; exact hnone

/-- Without the page map the read finds the word that has been written. -/
lemma Wrote.reread_direct {s₁ : Ki} (hw : Wrote v ab s s₁) (hdirect : Direct flag s)
    (hab : ab < 0o20) :
    (s₁.readLooked ab flag false false mod).1 = false
      ∧ (s₁.readLooked ab flag false false mod).2.mb = v := by
  have hdirect' : flag = true ∨ s₁.regs.pageEnable = false := by rw [hw.regs]; exact hdirect
  have hlook := pageLookup_direct hdirect' hab hw.noFault false mod
  obtain ⟨hok, hmb⟩ := readLooked_of_some hlook.1 (by rw [hw.regs]; exact hw.inMem)
  exact ⟨hok, by rw [hmb, hw.mem, Function.update_self]⟩

/-- Through the page map the read finds what its first entry leads to. -/
lemma Wrote.reread_mapped {s₁ : Ki} (hw : Wrote v (mapped (s.entry s.mem) ab) s s₁)
    (hio : s.regs.userio = true) (hxct : s.regs.xctFlag &&& 3 = 3)
    (henable : s.regs.pageEnable = true) (hab : ab < 0o20) :
    ((s₁.readLooked ab false false false mod).1 = false
        ∧ (s₁.readLooked ab false false false mod).2.mb = v) ↔ s.Rereads ab v mod := by
  have hentry : s₁.entry s₁.mem = s.entry (Function.update s.mem (mapped (s.entry s.mem) ab) v) := by
    rw [entry, hw.regs, hw.mem]
    rfl
  have hallows : ∀ e wr, s₁.Allows e wr ↔ s.Allows e wr := fun e wr => by
    unfold Allows
    rw [hw.regs]
  have hlook := pageLookup_mapped (s := s₁) (by rw [hw.regs]; exact hio) (by rw [hw.regs]; exact hxct)
    (by rw [hw.regs]; exact henable) hab hw.noFault false mod
  rw [hentry, hallows, Bool.false_or] at hlook
  constructor
  · rintro ⟨hok, hmb⟩
    obtain ⟨b, hb, hbmem⟩ := some_of_readLooked hok
    rw [(readLooked_of_some hb hbmem).2, hw.mem] at hmb
    rw [hw.regs] at hbmem
    rcases hlook with ⟨hfound, -, hallow⟩ | ⟨hnone, -⟩
    · cases hb.symm.trans hfound
      exact ⟨hallow, hbmem, hmb⟩
    · rw [hb] at hnone
      cases hnone
  · rintro ⟨hallow, hbmem, hmb⟩
    rcases hlook with ⟨hfound, -, -⟩ | ⟨-, hdeny⟩
    · obtain ⟨hok, hread⟩ := readLooked_of_some hfound (by rw [hw.regs]; exact hbmem)
      refine ⟨hok, ?_⟩
      rw [hread, hw.mem]
      exact hmb
    · exact absurd hallow hdeny

/-- A write that is done has been allowed, and is known to be where the lookup says. -/
lemma wrote_of_memWrite (hexec : s.regs.user = false) (hxct : s.regs.xctFlag &&& 3 = 3)
    (hab : ab < 0o20) (hnone : s.previous ab = none) {s₁ : Ki}
    (h : { s with mb := v }.memWrite ab flag false = (false, s₁)) :
    if flag = true ∨ s.regs.pageEnable = false then Wrote v ab s s₁
    else s.Rewritable ab ∧ Wrote v (mapped (s.entry s.mem) ab) s s₁ := by
  obtain ⟨hfault, a, hfound, hmem⟩ := found_of_memWrite hexec hxct hab hnone h
  split_ifs with hdirect
  · have hlook := pageLookup_direct (s := { s with mb := v }) hdirect hab hfault true false
    cases hfound.symm.trans hlook.1
    obtain ⟨s₂, h₂, hw⟩ := memWrite_found hexec hxct hab hnone hfound hlook.2 hmem
    cases h.symm.trans h₂
    exact hw
  · obtain ⟨rfl, henable⟩ : flag = false ∧ s.regs.pageEnable = true := by simpa using hdirect
    rcases pageLookup_mapped (s := { s with mb := v }) (userio_of_none hnone) hxct henable hab hfault
      true false with ⟨hfound', hfault', hallow⟩ | ⟨hnone', -⟩
    · cases hfound.symm.trans hfound'
      obtain ⟨s₂, h₂, hw⟩ := memWrite_found hexec hxct hab hnone hfound hfault' hmem
      cases h.symm.trans h₂
      exact ⟨⟨hfault, hallow, hmem⟩, hw⟩
    · rw [hfound] at hnone'
      cases hnone'

/-- Words that are looked up. -/
lemma coherent_looked (hexec : s.regs.user = false) (hxct : s.regs.xctFlag &&& 3 = 3)
    (hab : ab < 0o20) (hnone : s.previous ab = none) :
    s.Coherent ab v flag mod ↔ Direct flag s ∨ ¬ s.Rewritable ab ∨ s.Rereads ab v mod := by
  have hio : s.regs.userio = true := userio_of_none hnone
  have hwrote : ∀ {s₁}, { s with mb := v }.memWrite ab flag false = (false, s₁) → _ :=
    wrote_of_memWrite hexec hxct hab hnone
  have hvalue : ∀ pl, s.previous ab = some pl → (s.memRead ab flag false false mod).2.mb = s.get pl :=
    fun pl hpl => by
      rw [hnone] at hpl
      cases hpl
  have hconfined : ∀ s₁, { s with mb := v }.memWrite ab flag false = (false, s₁) →
      ∃ pl, (s₁.fm = (s.put pl v).fm ∧ s₁.mem = (s.put pl v).mem)
        ∧ (s₁.memRead ab flag false false mod).2.fm = s₁.fm
        ∧ (s₁.memRead ab flag false false mod).2.mem = s₁.mem := by
    intro s₁ h₁
    obtain ⟨a, hw⟩ : ∃ a, Wrote v a s s₁ := by
      have h := hwrote h₁
      split_ifs at h
      · exact ⟨_, h⟩
      · exact ⟨_, h.2⟩
    refine ⟨.word a, ⟨hw.fm, hw.mem⟩, ?_⟩
    rw [hw.memRead_eq hexec hxct hab hnone]
    exact readLooked_words s₁
  by_cases hdirect : flag = true ∨ s.regs.pageEnable = false
  · refine ⟨fun _ => Or.inl hdirect, fun _ => ⟨fun s₁ h₁ => ?_, hconfined, hvalue⟩⟩
    have hw := hwrote h₁
    rw [if_pos hdirect] at hw
    rw [hw.memRead_eq hexec hxct hab hnone]
    exact hw.reread_direct hdirect hab
  · obtain ⟨rfl, henable⟩ : flag = false ∧ s.regs.pageEnable = true := by simpa using hdirect
    constructor
    · intro h
      refine or_iff_not_imp_left.mpr fun _ => or_iff_not_imp_left.mpr fun hrw => ?_
      obtain ⟨hfault, hallow, hmem⟩ := not_not.mp hrw
      rcases pageLookup_mapped (s := { s with mb := v }) hio hxct henable hab hfault true false
        with ⟨hfound, hfault', -⟩ | ⟨-, hdeny⟩
      · obtain ⟨s₁, h₁, hw⟩ := memWrite_found hexec hxct hab hnone hfound hfault' hmem
        have hback := h.roundTrip s₁ h₁
        rw [hw.memRead_eq hexec hxct hab hnone] at hback
        exact (hw.reread_mapped hio hxct henable hab).mp hback
      · exact absurd hallow hdeny
    · rintro (hd | hrest)
      · exact absurd hd hdirect
      · refine ⟨fun s₁ h₁ => ?_, hconfined, hvalue⟩
        have hw := hwrote h₁
        rw [if_neg hdirect] at hw
        rw [hw.2.memRead_eq hexec hxct hab hnone]
        refine (hw.2.reread_mapped hio hxct henable hab).mpr ?_
        exact hrest.resolve_left (not_not.mpr hw.1)

end Ki

open Ki

/-- **Accumulators of the previous context**: a write and a read under PXCT of an address below 020
agree, when it is an accumulator, if and only if the executive's accumulator of that address has the
word that is written, and the word that was there; and, when it is looked up, unless the write has
changed the page map so that the read is led elsewhere. -/
theorem previous_accumulators_iff (s : Ki) (ab v : ℕ) (flag mod : Bool)
    (hexec : s.regs.user = false) (hxct : s.regs.xctFlag &&& 3 = 3) (hab : ab < 0o20)
    (hblock : s.regs.fmSel &&& 0o17 = 0) :
    s.Coherent ab v flag mod ↔
      match s.previous ab with
      | some pl => s.fm ab = v ∧ s.fm ab = s.get pl
      | none => Direct flag s ∨ ¬ s.Rewritable ab ∨ s.Rereads ab v mod := by
  rcases hprev : s.previous ab with _ | pl
  · exact coherent_looked hexec hxct hab hprev
  · exact coherent_previous hexec hxct hab hblock hprev

/-- An executive whose user has accumulator block 1. -/
def sampleKi : Ki where
  regs := { user := false, userio := true, fmSel := 0o20, xctFlag := 3, memSize := 0o100000 }
  apr := { pi := Pi.reset }
  fm := fun _ => 0
  mem := fun _ => 0
  mb := 0

theorem previous_accumulators_iff_block :
    sampleKi.Coherent 1 0 false false ↔
      match sampleKi.previous 1 with
      | some pl => sampleKi.fm 1 = 0 ∧ sampleKi.fm 1 = sampleKi.get pl
      | none => Direct false sampleKi ∨ ¬ sampleKi.Rewritable 1 ∨ sampleKi.Rereads 1 0 false :=
  previous_accumulators_iff sampleKi 1 0 false false rfl rfl (by decide) rfl

/-- What is written to accumulator 1 of the user's block 1 is not what is read from it. -/
theorem previous_accumulators_fail :
    ¬ sampleKi.Coherent 1 5 false false
      ∧ ({ sampleKi with mb := 5 }.memWrite 1 false false).1 = false
      ∧ ((({ sampleKi with mb := 5 }.memWrite 1 false false).2).memRead 1 false false false false).2.mb
          = 0 := by
  refine ⟨fun h => ?_, by decide, by decide⟩
  have hback := (h.roundTrip _ (Prod.mk.eta (p := { sampleKi with mb := 5 }.memWrite 1 false false)).symm).2
  exact absurd hback (by decide)

end Ka10Simh.Pdp10
