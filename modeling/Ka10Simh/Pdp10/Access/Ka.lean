import Ka10Simh.Lib.Observe
import Ka10Simh.Pdp10.Access.Apr

/-!
Relocation of the user's addresses on the KA10.

The two halves of the word of a DATAO APR are the bounds and the relocation of two segments, in units
of 1K words: addresses up to `Pl` are in the low segment, and those from 0400000 up to `Ph` in the high
one. An address below 020 is an accumulator.

* `Ka.memRead`, `Ka.memWrite`: `Mem_read_ka` and `Mem_write_ka`.
* `UserPlace`: the places of a user.
* `user_access_confined`: an access of a user is to one of these places, or it raises `mem_prot`, or
  `nxm_flag` when the word of a segment is beyond the memory; and what is in other places cannot be
  told by the answers of any accesses.
-/

namespace Ka10Simh.Pdp10

/-- `Rl`, `Pl`, `Rh`, `Ph` and `Pflag`. -/
structure Relocation where
  rl : ℕ
  pl : ℕ
  rh : ℕ
  ph : ℕ
  pflag : ℕ

/-- `dev_apr` for a DATAO. -/
def dataoApr (data : ℕ) : Relocation where
  rh := (0o377 &&& data >>> 1) <<< 10
  rl := (0o377 &&& data >>> 10) <<< 10
  pflag := 0o1 &&& data >>> 18
  ph := (0o377 &&& data >>> 19) <<< 10 + 0o1777
  pl := (0o377 &&& data >>> 28) <<< 10 + 0o1777

/-- What accesses ask and do not change: the relocation, `USER`, `UNIT_TWOSEG`, `MEMSIZE`, and the
switches of the address conditions. -/
structure KaRegs where
  reloc : Relocation
  user : Bool
  twoSeg : Bool
  memSize : ℕ
  adrCond : ℕ := 0
  addrSwitch : ℕ := 0

/-- The KA10 as accesses see it. `modify`, `last_addr` and `BYF5` are used by some of its pagers. -/
structure Ka where
  regs : KaRegs
  apr : Apr
  fm : ℕ → ℕ
  mem : ℕ → ℕ
  mb : ℕ
  modify : Bool := false
  lastAddr : ℕ := 0
  byf5 : Bool := false

namespace Ka

/-- `set_reg`. -/
def setReg (i v : ℕ) (s : Ka) : Ka := { s with fm := Function.update s.fm (i &&& 0o17) v }

/-- `get_reg`. -/
def getReg (i : ℕ) (s : Ka) : ℕ := s.fm (i &&& 0o17)

/-- Store into the memory. -/
def store (a v : ℕ) (s : Ka) : Ka := { s with mem := Function.update s.mem a v }

/-- `adr_cond && addr == AS`. -/
def watch (addr : ℕ) (fetch write : Bool) (s : Ka) : Ka :=
  if s.regs.adrCond ≠ 0 ∧ addr = s.regs.addrSwitch then
    { s with apr := s.apr.addressConditions s.regs.adrCond fetch write }
  else s

/-- `mem_prot = 1` and `nxm_flag = 1`, which are checked for an interrupt. -/
def raiseProt (s : Ka) : Ka := { s with apr := { s.apr with memProt := true }.checkAprIrq }
def raiseNxm (s : Ka) : Ka := { s with apr := { s.apr with nxmFlag := true }.checkAprIrq }

/-- The relocation of an address, unless it is in no segment. -/
def relocate (k : KaRegs) (addr : ℕ) (wr : Bool) : Option ℕ :=
  if addr ≤ k.reloc.pl then some ((addr + k.reloc.rl) &&& rmask)
  else if k.twoSeg && addr &&& 0o400000 != 0 && addr ≤ k.reloc.ph
      && (k.reloc.pflag == 0 || (k.reloc.pflag == 1 && !wr)) then
    some ((addr + k.reloc.rh) &&& rmask)
  else none

/-- `page_lookup_ka`: the location, if there is one. -/
def pageLookup (addr : ℕ) (flag wr fetch : Bool) (s : Ka) : Option ℕ × Ka :=
  let s := s.watch addr fetch wr
  if !flag && s.regs.user then
    match relocate s.regs addr wr with
    | some loc => (some loc, s)
    | none => (none, s.raiseProt)
  else (some addr, s)

/-- `Mem_read_ka`, which returns `true` for an error. -/
def memRead (ab : ℕ) (flag fetch mod : Bool) (s : Ka) : Bool × Ka :=
  if ab < 0o20 then (false, { s with mb := s.getReg ab })
  else
    match s.pageLookup ab flag mod fetch with
    | (none, s) => (true, s)
    | (some addr, s) =>
        if addr ≥ s.regs.memSize then (true, s.raiseNxm)
        else (false, { s with mb := s.mem addr })

/-- `Mem_write_ka`. -/
def memWrite (ab : ℕ) (flag : Bool) (s : Ka) : Bool × Ka :=
  if ab < 0o20 then (false, s.setReg ab s.mb)
  else
    match s.pageLookup ab flag true false with
    | (none, s) => (true, s)
    | (some addr, s) =>
        if addr ≥ s.regs.memSize then (true, s.raiseNxm)
        else (false, s.store addr s.mb)

/-- The word in a place. -/
def get (pl : Loc) (s : Ka) : ℕ :=
  match pl with
  | .reg i => s.fm i
  | .word a => s.mem a

/-- Change the word in a place. -/
def put (pl : Loc) (v : ℕ) (s : Ka) : Ka :=
  match pl with
  | .reg i => { s with fm := Function.update s.fm i v }
  | .word a => { s with mem := Function.update s.mem a v }

end Ka

/-! ### The places of a user -/

/-- The place of a user's address: an accumulator, or a word of one of the segments. The low segment
goes before the high one. -/
inductive UserPlace (k : KaRegs) (wr : Bool) (ab : ℕ) : Loc → Prop
  | acc : ab < 0o20 → UserPlace k wr ab (.reg ab)
  | low : 0o20 ≤ ab → ab ≤ k.reloc.pl → UserPlace k wr ab (.word ((ab + k.reloc.rl) &&& rmask))
  | high : 0o20 ≤ ab → k.reloc.pl < ab → k.twoSeg = true → ab &&& 0o400000 ≠ 0 → ab ≤ k.reloc.ph →
      (wr = true → k.reloc.pflag = 0) → UserPlace k wr ab (.word ((ab + k.reloc.rh) &&& rmask))

/-- An address has one place. -/
lemma UserPlace.unique {k : KaRegs} {wr : Bool} {ab : ℕ} {pl pl' : Loc} (h : UserPlace k wr ab pl)
    (h' : UserPlace k wr ab pl') : pl = pl' := by
  cases h <;> cases h' <;> first | rfl | lia

/-- A place is beyond the memory. -/
def Loc.beyond (k : KaRegs) : Loc → Prop
  | .reg _ => False
  | .word a => k.memSize ≤ a

namespace Ka

/-- An access of a user has done its work, or has been denied. -/
inductive UserAccess (s : Ka) (wr : Bool) (ab : ℕ) (done : Loc → Ka) (r : Bool × Ka) : Prop
  | touch (pl : Loc) : UserPlace s.regs wr ab pl → ¬ pl.beyond s.regs → r.1 = false →
      r.2 = { done pl with apr := r.2.apr } → UserAccess s wr ab done r
  | prot : (∀ pl, ¬ UserPlace s.regs wr ab pl) → r.1 = true →
      r.2 = { s with apr := r.2.apr } → r.2.apr.memProt = true → UserAccess s wr ab done r
  | nxm (pl : Loc) : UserPlace s.regs wr ab pl → pl.beyond s.regs → r.1 = true →
      r.2 = { s with apr := r.2.apr } → r.2.apr.nxmFlag = true → UserAccess s wr ab done r

/-- Two states in which a user has the same words. -/
structure Agree (s t : Ka) : Prop where
  regs : t.regs = s.regs
  words : ∀ wr ab pl, UserPlace s.regs wr ab pl → t.get pl = s.get pl

/-- An access of a user. -/
inductive UserOp
  | read (ab : ℕ) (fetch mod : Bool)
  | write (ab v : ℕ)

/-- An access, and what a user has of it: the word, unless it is denied. -/
def userStep (s : Ka) : UserOp → Option ℕ × Ka
  | .read ab fetch mod =>
      let (fault, s) := s.memRead ab false fetch mod
      (if fault then none else some s.mb, s)
  | .write ab v =>
      let (fault, s) := { s with mb := v }.memWrite ab false
      (if fault then none else some v, s)

/-! ### Accesses -/

lemma watch_eq (addr : ℕ) (fetch write : Bool) (s : Ka) :
    s.watch addr fetch write = { s with apr := (s.watch addr fetch write).apr } := by
  rw [watch]
  split_ifs <;> rfl

lemma userPlace_of_relocate {k : KaRegs} {wr : Bool} {ab a : ℕ} (hab : 0o20 ≤ ab)
    (h : relocate k ab wr = some a) : UserPlace k wr ab (.word a) := by
  rw [relocate] at h
  split_ifs at h with hlow hhigh
  · cases h
    exact .low hab hlow
  · cases h
    simp only [Bool.and_eq_true, bne_iff_ne, ne_eq, decide_eq_true_eq, Bool.or_eq_true, beq_iff_eq,
      Bool.not_eq_true'] at hhigh
    obtain ⟨⟨⟨htwo, hbit⟩, hph⟩, hpflag⟩ := hhigh
    refine .high hab (by omega) htwo hbit hph fun hwr => ?_
    rcases hpflag with hzero | ⟨-, hread⟩
    · exact hzero
    · rw [hwr] at hread
      cases hread

lemma relocate_ne_none {k : KaRegs} {wr : Bool} {ab : ℕ} {pl : Loc} (hab : 0o20 ≤ ab)
    (hpflag : k.reloc.pflag ≤ 1) (h : UserPlace k wr ab pl) : relocate k ab wr ≠ none := by
  rw [relocate]
  cases h with
  | acc hlt => omega
  | low _ hpl => simp [hpl]
  | high _ _ htwo hbit hph hwr =>
      have hflag : k.reloc.pflag = 0 ∨ k.reloc.pflag = 1 ∧ wr = false := by
        cases wr
        · have hcases : k.reloc.pflag = 0 ∨ k.reloc.pflag = 1 := by omega
          exact hcases.imp id fun h => ⟨h, rfl⟩
        · exact Or.inl (hwr rfl)
      split_ifs with hlow hcond
      · exact Option.some_ne_none _
      · exact Option.some_ne_none _
      · exact absurd (by simpa [htwo, hbit, hph] using hflag) hcond

lemma pflag_le_one (data : ℕ) : (dataoApr data).pflag ≤ 1 := Nat.and_le_left

/-- The lookup of a user's address. -/
lemma pageLookup_user {s : Ka} (huser : s.regs.user = true) {ab : ℕ} {wr fetch : Bool} :
    s.pageLookup ab false wr fetch = match relocate s.regs ab wr with
      | some loc => (some loc, s.watch ab fetch wr)
      | none => (none, (s.watch ab fetch wr).raiseProt) := by
  have hregs : (s.watch ab fetch wr).regs = s.regs := by rw [watch_eq]
  simp only [pageLookup, hregs, huser, Bool.not_false, Bool.and_self, if_true]

/-- An access by a user beside the accumulators, from what it does after its lookup. -/
lemma userAccess_of_relocate {s : Ka} (hpflag : s.regs.reloc.pflag ≤ 1) {ab : ℕ} (hab : 0o20 ≤ ab)
    {wr : Bool} (fetch : Bool) {done : Loc → Ka} {r : Bool × Ka}
    (hprot : relocate s.regs ab wr = none → r = (true, (s.watch ab fetch wr).raiseProt))
    (hnxm : ∀ a, relocate s.regs ab wr = some a → s.regs.memSize ≤ a →
      r = (true, (s.watch ab fetch wr).raiseNxm))
    (hdone : ∀ a, relocate s.regs ab wr = some a → ¬ s.regs.memSize ≤ a →
      r = (false, { done (.word a) with apr := (s.watch ab fetch wr).apr })) :
    UserAccess s wr ab done r := by
  rcases hloc : relocate s.regs ab wr with _ | a
  · refine .prot (fun pl hpl => relocate_ne_none hab hpflag hpl hloc) ?_ ?_ ?_ <;> rw [hprot hloc]
    · rw [watch_eq]
      rfl
    · rfl
  · have hplace : UserPlace s.regs wr ab (.word a) := userPlace_of_relocate hab hloc
    by_cases hmem : s.regs.memSize ≤ a
    · refine .nxm (.word a) hplace hmem ?_ ?_ ?_ <;> rw [hnxm a hloc hmem]
      · rw [watch_eq]
        rfl
      · rfl
    · exact .touch (.word a) hplace hmem (by rw [hdone a hloc hmem]) (by rw [hdone a hloc hmem])

/-- A read by a user. -/
lemma memRead_user {s : Ka} (huser : s.regs.user = true) (hpflag : s.regs.reloc.pflag ≤ 1)
    (ab : ℕ) (fetch mod : Bool) :
    UserAccess s mod ab (fun pl => { s with mb := s.get pl }) (s.memRead ab false fetch mod) := by
  by_cases hab : ab < 0o20
  · have hand : ab &&& 0o17 = ab := Nat.and_two_pow_sub_one_of_lt_two_pow (n := 4) hab
    refine .touch (.reg ab) (.acc hab) id ?_ ?_ <;>
      simp [memRead, hab, getReg, hand, get]
  · have hregs : (s.watch ab fetch mod).regs = s.regs := by rw [watch_eq]
    refine userAccess_of_relocate hpflag (Nat.le_of_not_lt hab) fetch (fun hloc => ?_)
      (fun a hloc hmem => ?_) fun a hloc hmem => ?_
    · simp only [memRead, if_neg hab, pageLookup_user huser, hloc]
    · simp only [memRead, if_neg hab, pageLookup_user huser, hloc, hregs, ge_iff_le, if_pos hmem]
    · simp only [memRead, if_neg hab, pageLookup_user huser, hloc, hregs, ge_iff_le, if_neg hmem]
      rw [watch_eq]
      rfl

/-- A write by a user. -/
lemma memWrite_user {s : Ka} (huser : s.regs.user = true) (hpflag : s.regs.reloc.pflag ≤ 1) (ab : ℕ) :
    UserAccess s true ab (fun pl => s.put pl s.mb) (s.memWrite ab false) := by
  by_cases hab : ab < 0o20
  · have hand : ab &&& 0o17 = ab := Nat.and_two_pow_sub_one_of_lt_two_pow (n := 4) hab
    refine .touch (.reg ab) (.acc hab) id ?_ ?_ <;>
      simp [memWrite, hab, setReg, hand, put]
  · have hregs : (s.watch ab false true).regs = s.regs := by rw [watch_eq]
    refine userAccess_of_relocate hpflag (Nat.le_of_not_lt hab) false (fun hloc => ?_)
      (fun a hloc hmem => ?_) fun a hloc hmem => ?_
    · simp only [memWrite, if_neg hab, pageLookup_user huser, hloc]
    · simp only [memWrite, if_neg hab, pageLookup_user huser, hloc, hregs, ge_iff_le, if_pos hmem]
    · simp only [memWrite, if_neg hab, pageLookup_user huser, hloc, hregs, ge_iff_le, if_neg hmem]
      rw [watch_eq]
      rfl

/-- An access is denied when its address has no place in the memory. -/
lemma UserAccess.fault_iff {s : Ka} {wr : Bool} {ab : ℕ} {done : Loc → Ka} {r : Bool × Ka}
    (h : UserAccess s wr ab done r) :
    r.1 = true ↔ ¬ ∃ pl, UserPlace s.regs wr ab pl ∧ ¬ pl.beyond s.regs := by
  cases h with
  | touch pl hpl hin hok _ =>
      rw [hok]
      exact ⟨fun h => (by cases h), fun h => absurd ⟨pl, hpl, hin⟩ h⟩
  | prot hno hfault _ _ =>
      refine ⟨fun _ h => ?_, fun _ => hfault⟩
      obtain ⟨pl, hpl, -⟩ := h
      exact hno pl hpl
  | nxm pl hpl hout hfault _ _ =>
      refine ⟨fun _ h => ?_, fun _ => hfault⟩
      obtain ⟨pl', hpl', hin⟩ := h
      cases hpl.unique hpl'
      exact hin hout

/-- What an access comes to when it is not denied. -/
lemma UserAccess.touched {s : Ka} {wr : Bool} {ab : ℕ} {done : Loc → Ka} {r : Bool × Ka}
    (h : UserAccess s wr ab done r) (hok : r.1 = false) :
    ∃ pl, UserPlace s.regs wr ab pl ∧ r.2 = { done pl with apr := r.2.apr } := by
  cases h with
  | touch pl hpl _ _ hdone => exact ⟨pl, hpl, hdone⟩
  | prot _ hfault _ _ => rw [hok] at hfault; cases hfault
  | nxm _ _ _ hfault _ _ => rw [hok] at hfault; cases hfault

/-- An access that is denied does nothing else. -/
lemma UserAccess.denied {s : Ka} {wr : Bool} {ab : ℕ} {done : Loc → Ka} {r : Bool × Ka}
    (h : UserAccess s wr ab done r) (hfault : r.1 = true) : r.2 = { s with apr := r.2.apr } := by
  cases h with
  | touch _ _ _ hok _ => rw [hfault] at hok; cases hok
  | prot _ _ hrest _ => exact hrest
  | nxm _ _ _ _ hrest _ => exact hrest

/-! ### What a user can tell -/

lemma get_put (pl pl' : Loc) (v : ℕ) (s : Ka) :
    (s.put pl v).get pl' = if pl' = pl then v else s.get pl' := by
  cases pl <;> cases pl' <;> simp [put, get, Function.update_apply]

/-- The same words after the same change. -/
lemma Agree.put {s t : Ka} (h : Agree s t) (pl : Loc) (v : ℕ) : Agree (s.put pl v) (t.put pl v) where
  regs := by cases pl <;> exact h.regs
  words wr ab pl' hpl' := by
    rw [get_put, get_put]
    split_ifs
    · rfl
    · exact h.words wr ab pl' (by cases pl <;> exact hpl')

/-- Only the relocation and the words count. -/
lemma Agree.congr {s t s' t' : Ka} (h : Agree s t) (hs : s'.regs = s.regs ∧ s'.fm = s.fm ∧ s'.mem = s.mem)
    (ht : t'.regs = t.regs ∧ t'.fm = t.fm ∧ t'.mem = t.mem) : Agree s' t' where
  regs := by rw [hs.1, ht.1, h.regs]
  words wr ab pl hpl := by
    have hget := h.words wr ab pl (hs.1 ▸ hpl)
    cases pl
    · rw [get, get, hs.2.1, ht.2.1]
      exact hget
    · rw [get, get, hs.2.2, ht.2.2]
      exact hget

/-- Users that have the same words, and whose addresses are relocated. -/
def Alike (s t : Ka) : Prop :=
  Agree s t ∧ s.regs.user = true ∧ s.regs.reloc.pflag ≤ 1

lemma Alike.fault_eq {s t : Ka} (h : Alike s t) {wr : Bool} {ab : ℕ} {f g : Loc → Ka} {r q : Bool × Ka}
    (hr : UserAccess s wr ab f r) (hq : UserAccess t wr ab g q) : q.1 = r.1 := by
  have hsame : q.1 = true ↔ r.1 = true := by rw [hr.fault_iff, hq.fault_iff, h.1.regs]
  exact Bool.eq_iff_iff.mpr hsame

/-- A read answers alike, and leaves the users alike. -/
lemma alike_read {s t : Ka} (h : Alike s t) (ab : ℕ) (fetch mod : Bool) :
    (s.userStep (.read ab fetch mod)).1 = (t.userStep (.read ab fetch mod)).1
      ∧ Alike (s.userStep (.read ab fetch mod)).2 (t.userStep (.read ab fetch mod)).2 := by
  have hr := memRead_user h.2.1 h.2.2 ab fetch mod
  have hq := memRead_user (h.1.regs ▸ h.2.1) (h.1.regs ▸ h.2.2) ab fetch mod (s := t)
  have hfault := h.fault_eq hr hq
  simp only [userStep, hfault]
  cases hok : (s.memRead ab false fetch mod).1 with
  | true =>
      rw [hok] at hfault
      have hs := hr.denied hok
      have ht := hq.denied hfault
      rw [hs, ht]
      exact ⟨rfl, h.1.congr ⟨rfl, rfl, rfl⟩ ⟨rfl, rfl, rfl⟩, h.2⟩
  | false =>
      rw [hok] at hfault
      obtain ⟨pl, hpl, hs⟩ := hr.touched hok
      obtain ⟨pl', hpl', ht⟩ := hq.touched hfault
      cases hpl.unique (h.1.regs ▸ hpl')
      rw [hs, ht]
      refine ⟨?_, h.1.congr ⟨rfl, rfl, rfl⟩ ⟨rfl, rfl, rfl⟩, h.2⟩
      simp only [h.1.words mod ab pl hpl]

/-- So does a write. -/
lemma alike_write {s t : Ka} (h : Alike s t) (ab v : ℕ) :
    (s.userStep (.write ab v)).1 = (t.userStep (.write ab v)).1
      ∧ Alike (s.userStep (.write ab v)).2 (t.userStep (.write ab v)).2 := by
  have hr := memWrite_user (s := { s with mb := v }) h.2.1 h.2.2 ab
  have hq := memWrite_user (s := { t with mb := v }) (h.1.regs ▸ h.2.1) (h.1.regs ▸ h.2.2) ab
  have hmb : Alike { s with mb := v } { t with mb := v } :=
    ⟨h.1.congr ⟨rfl, rfl, rfl⟩ ⟨rfl, rfl, rfl⟩, h.2⟩
  have hfault := hmb.fault_eq hr hq
  simp only [userStep, hfault]
  cases hok : ({ s with mb := v }.memWrite ab false).1 with
  | true =>
      rw [hok] at hfault
      have hs := hr.denied hok
      have ht := hq.denied hfault
      rw [hs, ht]
      exact ⟨trivial, h.1.congr ⟨rfl, rfl, rfl⟩ ⟨rfl, rfl, rfl⟩, h.2⟩
  | false =>
      rw [hok] at hfault
      obtain ⟨pl, hpl, hs⟩ := hr.touched hok
      obtain ⟨pl', hpl', ht⟩ := hq.touched hfault
      cases hpl.unique (h.1.regs ▸ hpl')
      rw [hs, ht]
      refine ⟨trivial, (hmb.1.put pl v).congr ⟨rfl, rfl, rfl⟩ ⟨rfl, rfl, rfl⟩, ?_⟩
      cases pl <;> exact h.2

lemma unwinding : Observe.Unwinding userStep Alike where
  answer s t i h := by
    cases i with
    | read ab fetch mod => exact (alike_read h ab fetch mod).1
    | write ab v => exact (alike_write h ab v).1
  next s t i h := by
    cases i with
    | read ab fetch mod => exact (alike_read h ab fetch mod).2
    | write ab v => exact (alike_write h ab v).2

end Ka

open Ka

/-- **Confinement of a user**: an access to a user's address touches its place, an accumulator or a word
of a segment, or raises `mem_prot` when it has none, or `nxm_flag` when the word is beyond the memory;
and users that have the same words have the same answers to all accesses. -/
theorem user_access_confined (data : ℕ) (s : Ka) (hreloc : s.regs.reloc = dataoApr data)
    (huser : s.regs.user = true) :
    (∀ ab fetch mod, UserAccess s mod ab (fun pl => { s with mb := s.get pl })
        (s.memRead ab false fetch mod))
      ∧ (∀ ab, UserAccess s true ab (fun pl => s.put pl s.mb) (s.memWrite ab false))
      ∧ ∀ t, Agree s t → ∀ ops, Observe.answers userStep s ops = Observe.answers userStep t ops := by
  have hpflag : s.regs.reloc.pflag ≤ 1 := hreloc ▸ pflag_le_one data
  exact ⟨memRead_user huser hpflag, memWrite_user huser hpflag,
    fun t hagree ops => Observe.answers_eq unwinding ⟨hagree, huser, hpflag⟩ ops⟩

/-- A user with both segments in 32K words. -/
def sampleUser : Ka where
  regs := { reloc := dataoApr 0o10400442040, user := true, twoSeg := true, memSize := 0o100000 }
  apr := { pi := Pi.reset }
  fm := fun _ => 0
  mem := fun _ => 0
  mb := 0

theorem user_access_confined_sample :
    UserAccess sampleUser false 0o20 (fun pl => { sampleUser with mb := sampleUser.get pl })
      (sampleUser.memRead 0o20 false false false) :=
  (user_access_confined 0o10400442040 sampleUser rfl rfl).1 0o20 false false

/-- A user whose segment begins beyond the memory. -/
def beyondUser : Ka :=
  { sampleUser with
    regs := { reloc := dataoApr 0o400000, user := true, twoSeg := false, memSize := 0o100000 } }

/-- A word of a segment beyond the memory is not touched, and `mem_prot` is not raised. -/
theorem user_access_nxm :
    ¬ ∀ (data : ℕ) (s : Ka), s.regs.reloc = dataoApr data → s.regs.user = true →
      ∀ ab fetch mod,
        (∃ pl, UserPlace s.regs mod ab pl ∧ (s.memRead ab false fetch mod).1 = false)
          ∨ (s.memRead ab false fetch mod).2.apr.memProt = true := by
  intro h
  rcases h 0o400000 beyondUser rfl rfl 0o20 false false with ⟨pl, -, hok⟩ | hprot
  · exact absurd hok (by decide)
  · exact absurd hprot (by decide)

end Ka10Simh.Pdp10
