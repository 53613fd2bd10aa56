import Ka10Simh.Lib.Bits
import Ka10Simh.Lib.Iterate
import Ka10Simh.Lib.Reaches
import Ka10Simh.Pdp10.Pager.Basic

/-!
The BBN pager of the KA10: `page_lookup_bbn`.

A page is found through the pointers of a page table, which may be shared or indirect; the pointers
carry conditions that trap, and the core status table, from word `04000` on, has the age of each
physical page and whether it has been modified. The entry of the translation buffer is stored in
the middle of the walk, before the traps and the age are looked at, and a hit looks at neither.

* `pageLookupBbn`: the function.
* `Consistent`: every entry of the buffers is the one that a walk of the page finds.
* `bbn_hit_iff`: in every state that accesses reach from empty buffers, the page tables being
  unchanged, a hit comes to what a fresh walk comes to exactly when the access is `Settled`: no trap
  is asked for, the page has an age, and its status is what the walk would leave.
-/

namespace Ka10Simh.Pdp10

open TransSys Word

/-! ### Words -/

/-- `BBN_PAGE`, `BBN_TRPPG`, `BBN_SPT`, `BBN_PN`, `BBN_MERGE`: fields of a pointer. -/
abbrev bbnPage : ℕ := 0o17777777
abbrev bbnTrppg : ℕ := 0o17000000
abbrev bbnSpt : ℕ := 0o17777000
abbrev bbnPn : ℕ := 0o777
abbrev bbnMerge : ℕ := 0o161740000000
/-- `BBN_ACC`, `BBN_TRP1`, `BBN_TRP`, `BBN_TRPMOD`, `BBN_TRPUSR`: the conditions that trap. -/
abbrev bbnAcc : ℕ := 0o40000000
abbrev bbnTrp1 : ℕ := 0o100000000
abbrev bbnTrp : ℕ := 0o200000000
abbrev bbnTrpmod : ℕ := 0o400000000
abbrev bbnTrpusr : ℕ := 0o1000000000
/-- `BBN_EXEC | BBN_WRITE | BBN_READ`. -/
abbrev bbnRights : ℕ := 0o160000000000

/-- The rights of an entry. -/
abbrev tlbExec : ℕ := 0o100000
abbrev tlbWrite : ℕ := 0o200000
abbrev tlbRead : ℕ := 0o400000

/-- The age of a page in the core status table, and the fields a use of the page sets. -/
abbrev cstAge : ℕ := 0o700000000000
abbrev cstUse : ℕ := 0o777000000000
abbrev cstModified : ℕ := 0o400000000

/-! ### The state -/

/-- The registers the pager reads. -/
structure BbnRegs where
  pageEnable : Bool
  execMap : Bool
  /-- The bits `USER` and `EXJSYS` of `FLAGS`. -/
  user : Bool
  exjsys : Bool
  ir : ℕ
  xctFlag : ℕ
  byf5 : Bool
  uuoCycle : Bool
  acStack : ℕ
  userLimit : ℕ
  userBase : ℕ
  monBase : ℕ
  pur : ℕ
  mb : ℕ

/-- The pager: its registers, the memory, the translation buffers and what a fault leaves. -/
structure Bbn extends BbnRegs where
  mem : ℕ → ℕ
  tlb : Table → ℕ → ℕ
  faultData : ℕ
  pageFault : Bool

/-- The way an access takes: the address is physical, it is over the limit of the user's space, or
it is mapped through a page table. -/
inductive Route
  | direct (addr : ℕ)
  | over (addr : ℕ)
  | mapped (t : Table) (addr : ℕ)

/-- The pointer a walk looks at next, the number of pointers before it, and the conditions they
leave. -/
structure BbnPtr where
  base : ℕ
  map : ℕ
  lvl : ℕ
  traps : ℕ

/-- What the loop ends with: an entry, with the conditions on the page, or a fault. -/
inductive BbnChased
  | found (entry traps lvl : ℕ)
  | fault (d : ℕ)

/-- The bit of the status that says a fault is met beyond the first page table. -/
def lvlBit (lvl : ℕ) : ℕ := if lvl ≠ 0 then 0o200000 else 0

namespace Bbn

/-- `uf`, an access to user space. -/
def uf (c : Config) (a : Access) (s : Bbn) : Bool :=
  if a.flag then false
  else
    s.user || (s.ir &&& 0o774 == 0o100 && !s.exjsys)
      || (c.waits && s.xctFlag != 0 && !a.fetch &&
        ((s.xctFlag &&& 0o10 != 0 && a.curContext) || (s.xctFlag &&& 4 != 0 && !a.wr)
          || (s.xctFlag &&& 1 != 0 && (a.wr || s.byf5))))
      || (!c.waits && !s.exjsys && s.xctFlag != 0 && !a.fetch &&
        ((s.xctFlag &&& 0o10 != 0 && a.curContext) || (s.xctFlag &&& 4 != 0 && !a.wr)
          || (s.xctFlag &&& 2 != 0 && s.byf5) || (s.xctFlag &&& 1 != 0 && a.wr)))

/-- The way of an access. Accumulators in user space that the monitor accesses are in the stack of
accumulators; the page is that of the address before. -/
def route (c : Config) (a : Access) (s : Bbn) : Route :=
  let uf := s.uf c a
  let acs := decide (a.addr < 0o20) && uf && !s.user
  let addr := if acs && !c.waits then a.addr ||| 0o775000 ||| s.acStack else a.addr
  let uf := if acs && !c.waits then false else uf
  if addr < 0o20 ∧ ¬ (acs ∧ c.waits) then .direct addr
  else if uf then
    if s.userLimit < a.page then .over addr else .mapped .user addr
  else if a.page &&& 0o700 = 0 ∧ !s.execMap then .direct addr
  else .mapped .exec addr

/-- The words of the process storage block that a fault stores into. -/
def faultWords (a : Access) (s : Bbn) : List ℕ :=
  if a.wr then [s.monBase ||| 0o571, s.monBase ||| 0o572] else [s.monBase ||| 0o571]

/-- The status word of a fault. -/
def statusWord (a : Access) (d : ℕ) (s : Bbn) : ℕ :=
  d ||| (if s.user then 0 else 1) ||| (if a.fetch then 2 else 0) ||| (if a.wr then 4 else 0o10)
    ||| (if a.curContext then 0o20 else 0) ||| (if s.uuoCycle then 0o40 else 0)

/-- `fault_bbn`: the status word and the address go to word `0571` of the process storage block, and
what was to be written to word `0572`. -/
def faultBbn (a : Access) (addr d : ℕ) (s : Bbn) : Looked × Bbn :=
  let w := s.statusWord a d
  let mem := Function.update s.mem (s.monBase ||| 0o571) (w <<< 18 ||| addr)
  let mem := if a.wr then Function.update mem (s.monBase ||| 0o572) s.mb else mem
  (.fault, { s with faultData := w, pageFault := true, mem := mem })

/-- The right an access lacks. -/
def lacks (a : Access) (e : ℕ) : Option ℕ :=
  if a.wr ∧ e &&& tlbWrite = 0 then some 0o402000
  else if a.fetch ∧ e &&& tlbExec = 0 then some 0o404000
  else if e &&& tlbRead = 0 then some 0o404000
  else none

/-- The label `access`: the rights of the entry are checked. -/
def access (a : Access) (addr e : ℕ) (s : Bbn) : Looked × Bbn :=
  match lacks a e with
  | some d => s.faultBbn a addr d
  | none => (.loc ((e &&& 0o3777) <<< 9 + (addr &&& 0o777)), s)

/-- The conditions that trap whatever the access. -/
def Trapped (traps : ℕ) : Prop := traps &&& (bbnTrp ||| bbnTrp1) = bbnTrp ||| bbnTrp1

instance (traps : ℕ) : Decidable (Trapped traps) := inferInstanceAs (Decidable (_ = _))

/-- A turn of the loop over the pointers: a direct one ends it, a shared or an indirect one leads to
another table. -/
def follow (mem : ℕ → ℕ) (p : BbnPtr) : BbnPtr ⊕ BbnChased :=
  let data := mem (p.base + p.map)
  let kind := data >>> 34 &&& 3
  if kind = 0 then
    let traps := p.traps &&& (data &&& (bbnMerge ||| bbnTrppg))
    if Trapped traps then .inr (.fault 0o4000)
    else .inr (.found ((data &&& bbnRights) >>> 16 ||| (data &&& 0o3777)) traps p.lvl)
  else
    let traps := p.traps &&& (data &&& (bbnMerge ||| bbnPage))
    if kind = 1 then
      if Trapped traps then .inr (.fault 0o4000)
      else .inl ⟨0o20000, (data &&& bbnSpt) >>> 9, p.lvl + 1, traps⟩
    else if kind = 2 then
      if p.lvl = 2 then .inr (.fault 0o201000)
      else if Trapped traps then .inr (.fault 0o4000)
      else .inl ⟨0o20000 + (data &&& bbnSpt) >>> 9, data &&& bbnPn, p.lvl + 1, traps⟩
    else .inr (.fault (lvlBit p.lvl ||| 0o401000))

/-- The trap that the conditions on a page ask for. -/
def trapWord (a : Access) (traps lvl : ℕ) : Option ℕ :=
  if a.wr ∧ traps &&& bbnTrpmod ≠ 0 then some (lvlBit lvl ||| 0o440000)
  else if traps &&& bbnTrpusr ≠ 0 then some (lvlBit lvl ||| 0o420000)
  else if traps &&& bbnAcc = 0 ∨ traps &&& bbnTrp ≠ 0 then some (lvlBit lvl ||| 0o410000)
  else none

/-- The word of the core status table for an entry. -/
def cstWord (e : ℕ) : ℕ := 0o4000 + (e &&& 0o3777)

/-- What a use of a page makes of its word of the core status table. -/
def used (a : Access) (s : Bbn) (w : ℕ) : ℕ :=
  bic w cstUse ||| (if a.wr then cstModified else 0) ||| s.pur

/-- After the loop: the entry is stored, then the traps and the age are looked at, then the status
of the page is updated and the rights are checked. -/
def mapPage (a : Access) (t : Table) (addr entry traps lvl : ℕ) (s : Bbn) : Looked × Bbn :=
  let s := { s with tlb := Function.update s.tlb t (Function.update (s.tlb t) a.page entry) }
  match trapWord a traps lvl with
  | some d => s.faultBbn a addr d
  | none =>
      let w := s.mem (cstWord entry)
      if w &&& cstAge = 0 then s.faultBbn a addr (0o100000 >>> (w >>> 31 &&& 3))
      else access a addr entry { s with mem := Function.update s.mem (cstWord entry) (s.used a w) }

/-- The first pointer of a page, in the page table of the user, of the process or of the monitor. -/
def firstPtr (t : Table) (page : ℕ) (s : Bbn) : BbnPtr where
  base :=
    match t with
    | .user => s.userBase
    | .exec => if page &&& 0o600 = 0o600 then s.monBase else 0o3000
  map := page
  lvl := 0
  traps := 0o777777777777

/-- `page_lookup_bbn`. -/
def pageLookupBbn (fuel : ℕ) (c : Config) (a : Access) (s : Bbn) : Looked × Bbn :=
  if s.pageFault then (.fault, s)
  else if !s.pageEnable then (.loc a.addr, s)
  else
    match s.route c a with
    | .direct addr => (.loc addr, s)
    | .over addr => s.faultBbn a addr 0o401000
    | .mapped t addr =>
        if s.tlb t a.page ≠ 0 then s.access a addr (s.tlb t a.page)
        else
          match Iterate.run (follow s.mem) fuel (s.firstPtr t a.page) with
          | .inl _ => (.running, s)
          | .inr (.fault d) => s.faultBbn a addr d
          | .inr (.found entry traps lvl) => s.mapPage a t addr entry traps lvl

/-! ### The buffers and the page tables -/

/-- The page tables map a page: a walk of it finds an entry, with conditions and a level. -/
def Maps (s : Bbn) (t : Table) (page : ℕ) (entry traps lvl : ℕ) : Prop :=
  ∃ n, Iterate.run (follow s.mem) n (s.firstPtr t page) = .inr (.found entry traps lvl)

/-- The page tables are the same for every page that has an entry: it is mapped as before. -/
def SameTables (s s' : Bbn) : Prop :=
  ∀ t page, s'.tlb t page ≠ 0 →
    ∀ entry traps lvl, s.Maps t page entry traps lvl ↔ s'.Maps t page entry traps lvl

/-- Every entry of the buffers is that of a walk. -/
def Consistent (s : Bbn) : Prop :=
  ∀ t page, s.tlb t page ≠ 0 → ∃ traps lvl, s.Maps t page (s.tlb t page) traps lvl

/-- A walk finds one entry only. -/
lemma Maps.unique {s : Bbn} {t : Table} {page e₁ t₁ l₁ e₂ t₂ l₂ : ℕ} (h₁ : s.Maps t page e₁ t₁ l₁)
    (h₂ : s.Maps t page e₂ t₂ l₂) : e₁ = e₂ ∧ t₁ = t₂ ∧ l₁ = l₂ := by
  obtain ⟨m, hm⟩ := h₁
  obtain ⟨n, hn⟩ := h₂
  simpa only [BbnChased.found.injEq] using Iterate.run_unique hm hn

/-- Two states that map a page alike map it alike. -/
lemma Maps.iff {s s' : Bbn} {t : Table} {page e tr l : ℕ} (h : s.Maps t page e tr l)
    (h' : s'.Maps t page e tr l) (entry traps lvl : ℕ) :
    s.Maps t page entry traps lvl ↔ s'.Maps t page entry traps lvl := by
  constructor
  · intro hm
    obtain ⟨rfl, rfl, rfl⟩ := hm.unique h
    exact h'
  · intro hm
    obtain ⟨rfl, rfl, rfl⟩ := hm.unique h'
    exact h

lemma Consistent.congr {s s' : Bbn} (h : s.Consistent) (htables : s.SameTables s')
    (htlb : s'.tlb = s.tlb) : s'.Consistent := by
  intro t page hne
  have hsame := htables t page hne
  rw [htlb] at hne ⊢
  obtain ⟨traps, lvl, hmaps⟩ := h t page hne
  exact ⟨traps, lvl, (hsame _ _ _).mp hmaps⟩

/-- What may happen: an access is looked up, the fault of one is taken, and the machine sets other
registers, clears entries of the buffers or stores into the memory. -/
inductive Event
  | lookup (fuel : ℕ) (a : Access)
  | faultTaken
  | regs (r : BbnRegs)
  | clear (sel : Table → ℕ → Bool)
  | store (addr v : ℕ)

/-- One event; a lookup that does not come back is none. -/
def step (c : Config) (s : Bbn) : Event → Option Bbn
  | .lookup fuel a =>
      if (s.pageLookupBbn fuel c a).1 ≠ .running then
        some (s.pageLookupBbn fuel c a).2
      else none
  | .faultTaken => some { s with pageFault := false }
  | .regs r => some { s with toBbnRegs := r }
  | .clear sel => some { s with tlb := fun t i => if sel t i then 0 else s.tlb t i }
  | .store addr v => some { s with mem := Function.update s.mem addr v }

/-- The tables of the pages that have an entry stay unchanged. -/
def KeepsTables (c : Config) (s : Bbn) (e : Event) : Prop :=
  ∀ s', step c s e = some s' → s.SameTables s'

/-! ### Consistency -/

lemma access_tlb (a : Access) (addr e : ℕ) (s : Bbn) : (s.access a addr e).2.tlb = s.tlb := by
  rw [access]
  split <;> rfl

/-- After the loop the entry is stored, whatever the access then comes to. -/
lemma mapPage_tlb (a : Access) (t : Table) (addr entry traps lvl : ℕ) (s : Bbn) :
    (s.mapPage a t addr entry traps lvl).2.tlb
      = Function.update s.tlb t (Function.update (s.tlb t) a.page entry) := by
  rw [mapPage]
  dsimp only
  split
  · rfl
  split
  · rfl
  · rw [access_tlb]

/-- A lookup leaves the buffers alone or stores the entry of a walk. -/
lemma lookup_tlb (fuel : ℕ) (c : Config) (a : Access) (s : Bbn) :
    (s.pageLookupBbn fuel c a).2.tlb = s.tlb ∨ ∃ t entry traps lvl,
      s.Maps t a.page entry traps lvl ∧ (s.pageLookupBbn fuel c a).2.tlb
        = Function.update s.tlb t (Function.update (s.tlb t) a.page entry) := by
  rw [pageLookupBbn]
  split
  · exact Or.inl rfl
  split
  · exact Or.inl rfl
  split
  · exact Or.inl rfl
  · exact Or.inl rfl
  split
  · exact Or.inl (access_tlb _ _ _ s)
  split
  · exact Or.inl rfl
  · exact Or.inl rfl
  · rename_i t _ _ _ _ entry traps lvl hrun
    exact Or.inr ⟨t, entry, traps, lvl, ⟨fuel, hrun⟩, mapPage_tlb _ _ _ _ _ _ s⟩

/-- While the page tables stay unchanged the buffers agree with them. -/
lemma Consistent.step {c : Config} {s s' : Bbn} {e : Event} (h : s.Consistent)
    (hkeep : s.KeepsTables c e) (hstep : step c s e = some s') : s'.Consistent := by
  have htables := hkeep s' hstep
  cases e with
  | lookup fuel a =>
      obtain ⟨-, rfl⟩ := of_guard hstep
      rcases lookup_tlb fuel c a s with heq | ⟨t, entry, traps, lvl, hmaps, heq⟩
      · exact h.congr htables heq
      · intro t' page hne
        have hsame := htables t' page hne
        rw [heq] at hne ⊢
        by_cases hnew : t' = t ∧ page = a.page
        · obtain ⟨rfl, rfl⟩ := hnew
          simp only [Function.update_self]
          exact ⟨traps, lvl, (hsame _ _ _).mp hmaps⟩
        · have hold : Function.update s.tlb t (Function.update (s.tlb t) a.page entry) t' page
              = s.tlb t' page := by
            by_cases ht : t' = t
            · subst ht
              rw [Function.update_self, Function.update_of_ne fun hp => hnew ⟨rfl, hp⟩]
            · rw [Function.update_of_ne ht]
          rw [hold] at hne ⊢
          obtain ⟨traps, lvl, hm⟩ := h t' page hne
          exact ⟨traps, lvl, (hsame _ _ _).mp hm⟩
  | faultTaken => cases hstep; exact h.congr htables rfl
  | regs r => cases hstep; exact h.congr htables rfl
  | clear sel =>
      cases hstep
      intro t page hne
      have hsame := htables t page hne
      have hsel : sel t page = false := by
        by_contra hsel
        simp [hsel] at hne
      simp only [hsel, Bool.false_eq_true, if_false] at hne ⊢
      obtain ⟨traps, lvl, hm⟩ := h t page hne
      exact ⟨traps, lvl, (hsame _ _ _).mp hm⟩
  | store addr v => cases hstep; exact h.congr htables rfl

/-! ### A hit and a fresh walk -/

/-- Without the entry of a page. -/
def flush (t : Table) (page : ℕ) (s : Bbn) : Bbn :=
  { s with tlb := Function.update s.tlb t (Function.update (s.tlb t) page 0) }

/-- Two lookups come to the same: the same address or the same fault, and the same word of the core
status table. -/
def SameOutcome (entry : ℕ) (r r' : Looked × Bbn) : Prop :=
  r.1 = r'.1 ∧ r.2.faultData = r'.2.faultData ∧ r.2.mem (cstWord entry) = r'.2.mem (cstWord entry)

/-- The access asks for nothing that a hit does not do: no trap, a page with an age, and a status
that is what the walk leaves, unless the fault of the access is stored over it anyway. -/
def Settled (a : Access) (entry traps lvl : ℕ) (s : Bbn) : Prop :=
  trapWord a traps lvl = none ∧ s.mem (cstWord entry) &&& cstAge ≠ 0
    ∧ (s.used a (s.mem (cstWord entry)) = s.mem (cstWord entry)
      ∨ (lacks a entry).isSome = true ∧ cstWord entry ∈ s.faultWords a)

/-- The low six bits of a status word are those of the access. -/
lemma statusWord_shift (a : Access) (d : ℕ) (s : Bbn) : s.statusWord a d >>> 6 = d >>> 6 := by
  have hbit : ∀ (b : Bool) (m n : ℕ), m >>> 6 = 0 → n >>> 6 = 0 →
      (if b = true then m else n) >>> 6 = 0 := fun b m n hm hn => by
    split
    · exact hm
    · exact hn
  simp only [statusWord, Nat.shiftRight_or_distrib]
  rw [hbit s.user 0 1 rfl rfl, hbit a.fetch 2 0 rfl rfl, hbit a.wr 4 0o10 rfl rfl,
    hbit a.curContext 0o20 0 rfl rfl, hbit s.uuoCycle 0o40 0 rfl rfl]
  simp

/-- What the fault word of a hit is. -/
lemma lacks_some {a : Access} {e d : ℕ} (h : lacks a e = some d) : d = 0o402000 ∨ d = 0o404000 := by
  rw [lacks] at h
  split at h
  · cases h; exact Or.inl rfl
  split at h
  · cases h; exact Or.inr rfl
  split at h
  · cases h; exact Or.inr rfl
  · cases h

/-- A hit faults with a right that the access lacks or does not fault. -/
lemma access_cases (a : Access) (addr e : ℕ) (s : Bbn) :
    (∃ d, lacks a e = some d ∧ s.access a addr e = s.faultBbn a addr d)
      ∨ (lacks a e = none ∧ ∃ l, s.access a addr e = (.loc l, s)) := by
  rw [access]
  cases h : lacks a e with
  | some d => exact Or.inl ⟨d, rfl, rfl⟩
  | none => exact Or.inr ⟨rfl, _, rfl⟩

/-- The fault of a walk is not that of a hit. -/
lemma not_sameOutcome_fault {a : Access} {addr addr' e d entry : ℕ} {s s' : Bbn}
    (hd : d >>> 6 ≠ 0o4020 ∧ d >>> 6 ≠ 0o4040) :
    ¬ SameOutcome entry (s'.faultBbn a addr d) (s.access a addr' e) := by
  rintro ⟨hverdict, hdata, -⟩
  rcases access_cases a addr' e s with ⟨d', hlacks, heq⟩ | ⟨-, l, heq⟩
  · rw [heq] at hdata
    have hshift : d >>> 6 = d' >>> 6 := by
      rw [← statusWord_shift a d s', ← statusWord_shift a d' s]
      exact congrArg (· >>> 6) hdata
    rcases lacks_some hlacks with rfl | rfl
    · exact hd.1 hshift
    · exact hd.2 hshift
  · rw [heq] at hverdict
    cases hverdict

lemma trapWord_shift {a : Access} {traps lvl d : ℕ} (h : trapWord a traps lvl = some d) :
    d >>> 6 ≠ 0o4020 ∧ d >>> 6 ≠ 0o4040 := by
  have hlvl : lvlBit lvl = 0 ∨ lvlBit lvl = 0o200000 := by
    rw [lvlBit]
    split
    · exact Or.inr rfl
    · exact Or.inl rfl
  rw [trapWord] at h
  split at h
  · cases h
    rcases hlvl with h | h <;> rw [h] <;> decide
  split at h
  · cases h
    rcases hlvl with h | h <;> rw [h] <;> decide
  split at h
  · cases h
    rcases hlvl with h | h <;> rw [h] <;> decide
  · cases h

lemma ageWord_shift (w : ℕ) :
    (0o100000 >>> (w >>> 31 &&& 3)) >>> 6 ≠ 0o4020 ∧ (0o100000 >>> (w >>> 31 &&& 3)) >>> 6 ≠ 0o4040 := by
  have hle : w >>> 31 &&& 3 ≤ 3 := Nat.and_le_right
  generalize w >>> 31 &&& 3 = k at hle
  interval_cases k <;> decide

/-- Two faults leave the same in a word when it is one that they store into or was the same. -/
lemma faultBbn_mem (a : Access) (addr d w : ℕ) {s s' : Bbn} (hregs : s'.toBbnRegs = s.toBbnRegs) :
    (s'.faultBbn a addr d).2.mem w = (s.faultBbn a addr d).2.mem w ↔
      s'.mem w = s.mem w ∨ w ∈ s.faultWords a := by
  have hmon : s'.monBase = s.monBase := congrArg BbnRegs.monBase hregs
  have hmb : s'.mb = s.mb := congrArg BbnRegs.mb hregs
  have hstatus : s'.statusWord a d = s.statusWord a d := by
    unfold statusWord
    rw [congrArg BbnRegs.user hregs, congrArg BbnRegs.uuoCycle hregs]
  unfold faultBbn faultWords
  dsimp only
  rw [hmon, hmb, hstatus]
  by_cases hwr : a.wr = true
  · simp only [hwr, if_true, List.mem_cons, List.not_mem_nil, or_false, Function.update_apply]
    by_cases h2 : w = s.monBase ||| 0o572
    · simp [h2]
    · by_cases h1 : w = s.monBase ||| 0o571
      · simp [h1]
      · simp [h1, h2]
  · simp only [hwr, Bool.false_eq_true, if_false, List.mem_singleton, Function.update_apply]
    by_cases h1 : w = s.monBase ||| 0o571
    · simp [h1]
    · simp [h1]

/-- The check of the rights in two states with the same registers and the same last fault, the first
of which has a status just used. -/
lemma access_sameOutcome (a : Access) (addr entry : ℕ) {s s' : Bbn}
    (hregs : s'.toBbnRegs = s.toBbnRegs) (hdata : s'.faultData = s.faultData) :
    SameOutcome entry (s'.access a addr entry) (s.access a addr entry) ↔
      s'.mem (cstWord entry) = s.mem (cstWord entry)
        ∨ (lacks a entry).isSome = true ∧ cstWord entry ∈ s.faultWords a := by
  have hstatus : ∀ d, s'.statusWord a d = s.statusWord a d := fun d => by
    unfold statusWord
    rw [congrArg BbnRegs.user hregs, congrArg BbnRegs.uuoCycle hregs]
  unfold access SameOutcome
  cases lacks a entry with
  | some d =>
      have hmem := faultBbn_mem a addr d (cstWord entry) hregs
      have hword : (s'.faultBbn a addr d).2.faultData = (s.faultBbn a addr d).2.faultData :=
        hstatus d
      dsimp only
      rw [hmem]
      exact ⟨fun h => h.2.2.imp_right fun hw => ⟨rfl, hw⟩,
        fun h => ⟨rfl, hword, h.imp_right fun hw => hw.2⟩⟩
  | none => simp [hdata]

/-- After the loop an access comes to what a hit comes to exactly when it is settled. -/
lemma mapPage_sameOutcome (a : Access) (t : Table) (addr entry traps lvl : ℕ) (s : Bbn) :
    SameOutcome entry ((s.flush t a.page).mapPage a t addr entry traps lvl) (s.access a addr entry)
      ↔ Settled a entry traps lvl s := by
  rw [mapPage, Settled]
  dsimp only
  cases htrap : trapWord a traps lvl with
  | some d =>
      refine iff_of_false (not_sameOutcome_fault (trapWord_shift htrap)) ?_
      rintro ⟨h, -⟩
      cases h
  | none =>
      dsimp only
      split
      · rename_i hage
        exact iff_of_false (not_sameOutcome_fault (ageWord_shift _)) fun h => h.2.1 hage
      · rename_i hage
        set s' : Bbn := { s with
          tlb := Function.update (s.flush t a.page).tlb t
            (Function.update ((s.flush t a.page).tlb t) a.page entry)
          mem := Function.update s.mem (cstWord entry) (s.used a (s.mem (cstWord entry))) } with hs'
        have hword : s'.mem (cstWord entry) = s.used a (s.mem (cstWord entry)) := by
          exact Function.update_self _ _ _
        have hsame := access_sameOutcome a addr entry (show s'.toBbnRegs = s.toBbnRegs from rfl)
          (show s'.faultData = s.faultData from rfl)
        refine hsame.trans ?_
        rw [hword]
        exact ⟨fun h => ⟨rfl, hage, h⟩, fun h => h.2.2⟩

/-- What is left of a lookup once its page is mapped. -/
lemma lookup_mapped (fuel : ℕ) {c : Config} {a : Access} {s : Bbn} {t : Table} {addr : ℕ}
    (hfault : s.pageFault = false) (hon : s.pageEnable = true)
    (hroute : s.route c a = .mapped t addr) :
    s.pageLookupBbn fuel c a =
      if s.tlb t a.page ≠ 0 then s.access a addr (s.tlb t a.page)
      else
        match Iterate.run (follow s.mem) fuel (s.firstPtr t a.page) with
        | .inl _ => (.running, s)
        | .inr (.fault d) => s.faultBbn a addr d
        | .inr (.found entry traps lvl) => s.mapPage a t addr entry traps lvl := by
  rw [pageLookupBbn]
  rw [if_neg (by simp [hfault]), if_neg (by simp [hon]), hroute]

/-- A walk of a page that the tables map goes on to `mapPage` when it has ended. -/
lemma lookup_flush (fuel : ℕ) {c : Config} {a : Access} {s : Bbn} {t : Table}
    {addr entry traps lvl : ℕ} (hfault : s.pageFault = false) (hon : s.pageEnable = true)
    (hroute : s.route c a = .mapped t addr) (hmaps : s.Maps t a.page entry traps lvl) :
    ((s.flush t a.page).pageLookupBbn fuel c a).1 = .running
      ∨ (s.flush t a.page).pageLookupBbn fuel c a
        = (s.flush t a.page).mapPage a t addr entry traps lvl := by
  have hempty : (s.flush t a.page).tlb t a.page = 0 := by simp [flush]
  rw [lookup_mapped (s := s.flush t a.page) fuel hfault hon hroute, if_neg (by simp [hempty])]
  cases hrun : Iterate.run (follow (s.flush t a.page).mem) fuel
      ((s.flush t a.page).firstPtr t a.page) with
  | inl p => exact Or.inl rfl
  | inr r =>
      obtain ⟨n, hn⟩ := hmaps
      cases Iterate.run_unique hrun hn
      exact Or.inr rfl

/-- With enough fuel the walk has ended. -/
lemma lookup_flush_of_maps {c : Config} {a : Access} {s : Bbn} {t : Table}
    {addr entry traps lvl : ℕ} (hfault : s.pageFault = false) (hon : s.pageEnable = true)
    (hroute : s.route c a = .mapped t addr) (hmaps : s.Maps t a.page entry traps lvl) :
    ∃ fuel, (s.flush t a.page).pageLookupBbn fuel c a
      = (s.flush t a.page).mapPage a t addr entry traps lvl := by
  have hempty : (s.flush t a.page).tlb t a.page = 0 := by simp [flush]
  obtain ⟨n, hn⟩ := hmaps
  refine ⟨n, ?_⟩
  rw [lookup_mapped (s := s.flush t a.page) n hfault hon hroute, if_neg (by simp [hempty]),
    show Iterate.run (follow (s.flush t a.page).mem) n ((s.flush t a.page).firstPtr t a.page)
      = .inr (.found entry traps lvl) from hn]

/-- A hit on the entry that the tables give comes to what a fresh walk comes to exactly when the
access is settled. -/
lemma hit_sameOutcome {c : Config} {a : Access} {s : Bbn} {t : Table} {addr traps lvl : ℕ}
    (hfault : s.pageFault = false) (hon : s.pageEnable = true)
    (hroute : s.route c a = .mapped t addr) (hhit : s.tlb t a.page ≠ 0)
    (hmaps : s.Maps t a.page (s.tlb t a.page) traps lvl) :
    (∃ fuel, SameOutcome (s.tlb t a.page)
        ((s.flush t a.page).pageLookupBbn fuel c a) (s.pageLookupBbn fuel c a))
      ↔ Settled a (s.tlb t a.page) traps lvl s := by
  have hthis : ∀ fuel, s.pageLookupBbn fuel c a = s.access a addr (s.tlb t a.page) := fun fuel => by
    rw [lookup_mapped fuel hfault hon hroute, if_pos hhit]
  rw [← mapPage_sameOutcome a t addr]
  constructor
  · rintro ⟨fuel, hsame⟩
    rw [hthis] at hsame
    rcases lookup_flush fuel hfault hon hroute hmaps with hrun | heq
    · -- a hit comes back
      have hverdict := hsame.1
      rw [hrun] at hverdict
      rcases access_cases a addr (s.tlb t a.page) s with ⟨d, -, hd⟩ | ⟨-, l, hl⟩
      · rw [hd] at hverdict; cases hverdict
      · rw [hl] at hverdict; cases hverdict
    · rwa [heq] at hsame
  · intro hsame
    obtain ⟨fuel, heq⟩ := lookup_flush_of_maps hfault hon hroute hmaps
    exact ⟨fuel, by rwa [heq, hthis]⟩

end Bbn

/-- **A hit and a fresh walk**: from empty buffers, with the page tables unchanged, let accesses and
what the machine does between them follow in any order. Then in every state reached an access that
finds an entry comes to the same verdict, with the same status of the page, as it would by a walk of
the tables without the entry, exactly when it is settled for the conditions the tables give. -/
theorem bbn_hit_iff {c : Config} {s₀ s : Bbn} (h₀ : ∀ t page, s₀.tlb t page = 0)
    (h : Reaches (ofPartial (Bbn.step c)) (Bbn.KeepsTables c) s₀ s) {a : Access} {t : Table}
    {addr : ℕ} (hfault : s.pageFault = false) (hon : s.pageEnable = true)
    (hroute : s.route c a = .mapped t addr) (hhit : s.tlb t a.page ≠ 0) :
    ∃ traps lvl, s.Maps t a.page (s.tlb t a.page) traps lvl ∧
      ((∃ fuel, Bbn.SameOutcome (s.tlb t a.page)
          ((s.flush t a.page).pageLookupBbn fuel c a) (s.pageLookupBbn fuel c a))
        ↔ Bbn.Settled a (s.tlb t a.page) traps lvl s) := by
  have hcons : s.Consistent := by
    refine h.invariant (fun t page hne => absurd (h₀ t page) hne) fun s e s' hs hok hstep => ?_
    exact hs.step hok hstep
  obtain ⟨traps, lvl, hmaps⟩ := hcons t a.page hhit
  exact ⟨traps, lvl, hmaps, Bbn.hit_sameOutcome hfault hon hroute hhit hmaps⟩

/-- A user page whose pointer asks for a trap of the user. -/
def Bbn.trapping : Bbn where
  pageEnable := true
  execMap := false
  user := true
  exjsys := false
  ir := 0
  xctFlag := 0
  byf5 := false
  uuoCycle := false
  acStack := 0
  userLimit := 0o777
  userBase := 0o40000
  monBase := 0o50000
  pur := 0
  mb := 0
  mem := fun a =>
    if a = 0o40001 then bbnRights ||| bbnTrpusr ||| bbnAcc ||| 0o100
    else if a = 0o4100 then cstAge else 0
  tlb := fun _ _ => 0
  faultData := 0
  pageFault := false

/-- After an access to the page, when its fault has been taken. -/
def Bbn.trapped : Bbn :=
  { (Bbn.trapping.pageLookupBbn 1 { build := .ka, bbn := true } { addr := 0o1000 }).2 with
    pageFault := false }

lemma Bbn.trapping_maps :
    Bbn.trapping.Maps .user 1 0o700100 (bbnTrpusr ||| bbnAcc ||| bbnRights) 0 := ⟨1, rfl⟩

lemma Bbn.trapped_maps :
    Bbn.trapped.Maps .user 1 0o700100 (bbnTrpusr ||| bbnAcc ||| bbnRights) 0 := ⟨1, rfl⟩

lemma Bbn.trapped_route : Bbn.trapped.route { build := .ka, bbn := true } { addr := 0o1000 }
    = .mapped .user 0o1000 := rfl

/-- The page is the only one with an entry. -/
lemma Bbn.trapped_tlb {t : Table} {page : ℕ} (h : Bbn.trapped.tlb t page ≠ 0) :
    t = .user ∧ page = 1 := by
  have htlb : Bbn.trapped.tlb = Function.update (fun _ _ => 0) .user
      (Function.update (fun _ => 0) 1 0o700100) := rfl
  rw [htlb] at h
  by_cases ht : t = .user
  · subst ht
    rw [Function.update_self] at h
    by_cases hp : page = 1
    · exact ⟨rfl, hp⟩
    · rw [Function.update_of_ne hp] at h
      exact absurd rfl h
  · rw [Function.update_of_ne ht] at h
    exact absurd rfl h

lemma Bbn.trapped_reaches : Reaches (ofPartial (Bbn.step { build := .ka, bbn := true }))
    (Bbn.KeepsTables { build := .ka, bbn := true }) Bbn.trapping Bbn.trapped := by
  have hlookup : Bbn.step { build := .ka, bbn := true } Bbn.trapping (.lookup 1 { addr := 0o1000 })
      = some { Bbn.trapped with pageFault := true } := rfl
  refine .next (.next .start (fun s' hs' t page hne => ?_) hlookup)
    (e := .faultTaken) (fun s' hs' t page hne => ?_) rfl
  · obtain rfl := Option.some.inj (hlookup.symm.trans hs')
    obtain ⟨rfl, rfl⟩ := Bbn.trapped_tlb hne
    exact Bbn.trapping_maps.iff Bbn.trapped_maps
  · cases hs'
    obtain ⟨rfl, rfl⟩ := Bbn.trapped_tlb hne
    exact Bbn.trapped_maps.iff Bbn.trapped_maps

/-- A page that traps the user does so once: the entry is there for the next access. -/
theorem bbn_hit_fails :
    ¬ ∀ s, Reaches (ofPartial (Bbn.step { build := .ka, bbn := true }))
        (Bbn.KeepsTables { build := .ka, bbn := true }) Bbn.trapping s → s.pageFault = false →
      s.tlb .user 1 ≠ 0 → ∃ fuel, Bbn.SameOutcome (s.tlb .user 1)
        ((s.flush .user 1).pageLookupBbn fuel { build := .ka, bbn := true } { addr := 0o1000 })
        (s.pageLookupBbn fuel { build := .ka, bbn := true } { addr := 0o1000 }) := by
  intro h
  have hsame := h Bbn.trapped Bbn.trapped_reaches rfl (by decide)
  have hsettled := (Bbn.hit_sameOutcome rfl rfl Bbn.trapped_route (by decide)
    Bbn.trapped_maps).mp hsame
  exact absurd hsettled.1 (by decide)

/-- The access that is allowed where a walk would trap. -/
theorem bbn_hit_iff_trapped :
    ∃ traps lvl, Bbn.trapped.Maps .user 1 0o700100 traps lvl ∧
      ((∃ fuel, Bbn.SameOutcome 0o700100
          ((Bbn.trapped.flush .user 1).pageLookupBbn fuel { build := .ka, bbn := true }
            { addr := 0o1000 })
          (Bbn.trapped.pageLookupBbn fuel { build := .ka, bbn := true } { addr := 0o1000 }))
        ↔ Bbn.Settled { addr := 0o1000 } 0o700100 traps lvl Bbn.trapped) :=
  bbn_hit_iff (fun _ _ => rfl) Bbn.trapped_reaches rfl rfl Bbn.trapped_route (by decide)

end Ka10Simh.Pdp10
