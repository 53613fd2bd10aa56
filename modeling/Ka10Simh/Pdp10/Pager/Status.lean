import Ka10Simh.Lib.Bits
import Ka10Simh.Lib.Reaches
import Ka10Simh.Pdp10.Pager.Lookup

/-!
The modified bit of the core status table on the KL10 and the KS10.

An entry of a translation buffer lets writes through once its page has the modified bit, the lowest
of its word in the core status table. Two pieces of code set the bit, and both take the mask and the
data word of the table to the word: the first write to a page in the buffer masks the word and then
sets the bit, and the walk sets the bit and then masks the word.

* `Pager.Marked`: a page that an entry lets be written has its bit set.
* `Tracked`: the pager, with the pages written since their status was cleared.
* `modified_bit_kept`: the bit is set for these pages and for those of the entries, in every state
  that runs reach in which a walk finds a mask or a data word with the bit.
-/

namespace Ka10Simh.Pdp10

open TransSys Word

namespace Pager

/-! ### The bit -/

/-- The modified bit of a page is set. -/
def Modified (s : Pager) (pg : ℕ) : Prop := s.mem (s.cstBase + pg) &&& 1 ≠ 0

lemma modified_congr {s s' : Pager} {pg : ℕ} (hbase : s'.cstBase = s.cstBase)
    (hmem : s'.mem = s.mem) : s'.Modified pg ↔ s.Modified pg := by
  unfold Modified
  rw [hbase, hmem]

/-- Other registers with the same table. -/
lemma modified_regs {s : Pager} {r : Regs} {pg : ℕ} (hbase : r.cst &&& pgMask = s.cstBase) :
    { s with toRegs := r }.Modified pg ↔ s.Modified pg := modified_congr hbase rfl

/-- If an entry lets its page be written, the page has the modified bit. -/
def Marks (c : Config) (s : Pager) (data : ℕ) : Prop :=
  data &&& pagW ≠ 0 → s.Modified (data &&& c.pgPag)

/-- Every page that an entry lets be written has the modified bit. -/
def Marked (c : Config) (s : Pager) : Prop := ∀ t i, s.Marks c (s.tlb t i)

/-- What the mask and the data word make of a status word keeps the modified bit. -/
def Retains (s : Pager) : Prop := (s.cstMsk ||| s.cstDat) &&& 1 ≠ 0

/-- What a step of a lookup keeps: the registers of the table, and the modified bits. -/
structure Keeps (s s' : Pager) : Prop where
  regs : s'.cst = s.cst ∧ s'.cstMsk = s.cstMsk ∧ s'.cstDat = s.cstDat ∧ s'.t20Page = s.t20Page
  modified : ∀ pg, s.Modified pg → s'.Modified pg

lemma Keeps.base {s s' : Pager} (h : Keeps s s') : s'.cstBase = s.cstBase :=
  congrArg (· &&& pgMask) h.regs.1

lemma Keeps.retains {s s' : Pager} (h : Keeps s s') (hs : s.Retains) : s'.Retains := by
  rw [Retains]
  rw [h.regs.2.1, h.regs.2.2.1]
  exact hs

lemma Keeps.of_mem {s s' : Pager} (hregs : s'.cst = s.cst ∧ s'.cstMsk = s.cstMsk
    ∧ s'.cstDat = s.cstDat ∧ s'.t20Page = s.t20Page) (hmem : s'.mem = s.mem) : Keeps s s' :=
  ⟨hregs, fun _ => (modified_congr (congrArg (· &&& pgMask) hregs.1) hmem).mpr⟩

lemma Keeps.refl (s : Pager) : Keeps s s := .of_mem ⟨rfl, rfl, rfl, rfl⟩ rfl

lemma Keeps.trans {s₁ s₂ s₃ : Pager} (h : Keeps s₁ s₂) (h' : Keeps s₂ s₃) : Keeps s₁ s₃ where
  regs := ⟨h'.regs.1.trans h.regs.1, h'.regs.2.1.trans h.regs.2.1,
    h'.regs.2.2.1.trans h.regs.2.2.1, h'.regs.2.2.2.trans h.regs.2.2.2⟩
  modified pg hpg := h'.modified pg (h.modified pg hpg)

/-- What is noted of a walk does not matter. -/
lemma keeps_touch (words : List ℕ) (a : ℕ) (s : Pager) :
    Keeps s ({ s with words := words }.touch a) := .of_mem ⟨rfl, rfl, rfl, rfl⟩ rfl

lemma Marks.of_keeps {c : Config} {s s' : Pager} {data : ℕ} (h : s.Marks c data)
    (hkeeps : Keeps s s') : s'.Marks c data := fun hw => hkeeps.modified _ (h hw)

lemma Marked.of_keeps {c : Config} {s s' : Pager} (h : s.Marked c) (hkeeps : Keeps s s')
    (htlb : s'.tlb = s.tlb) : s'.Marked c := fun t i => by
  rw [htlb]
  exact (h t i).of_keeps hkeeps

/-- An entry that is stored lets its page be written if the page has the bit. -/
lemma Marked.setTlb {c : Config} {s : Pager} {v : ℕ} (h : s.Marked c) (hv : s.Marks c v) (u : Use)
    (t : Table) (i : ℕ) : (s.setTlb u t i v).Marked c := by
  intro t' i'
  have hentry : (s.setTlb u t i v).tlb t' i' = v ∨ (s.setTlb u t i v).tlb t' i' = s.tlb t' i' := by
    simp only [Pager.setTlb, Function.update_apply]
    by_cases ht : t' = t
    · subst ht
      by_cases hi : i' = i <;> simp [hi]
    · simp [ht]
  rcases hentry with heq | heq <;> rw [heq]
  · exact hv
  · exact h t' i'

lemma marks_zero (c : Config) (s : Pager) : s.Marks c 0 := fun h => absurd (Nat.zero_and _) h

/-! ### The words of the table -/

lemma and_one_ne_zero {w : ℕ} : w &&& 1 ≠ 0 ↔ w.testBit 0 = true :=
  and_two_pow_ne_zero (k := 0)

/-- A word with the bit keeps it under a mask or a data word that has it. -/
lemma Retains.update {s : Pager} (h : s.Retains) {v : ℕ} (hv : v &&& 1 ≠ 0) :
    (v &&& s.cstMsk ||| s.cstDat) &&& 1 ≠ 0 := by
  rw [Retains, and_one_ne_zero, Nat.testBit_or] at h
  rw [and_one_ne_zero] at hv ⊢
  rw [Nat.testBit_or, Nat.testBit_and, hv, Bool.true_and]
  exact h

lemma modified_setCst {s : Pager} (pg : ℕ) {v : ℕ} (hv : v &&& 1 ≠ 0) :
    (s.setCst pg v).Modified pg := by
  show Function.update s.mem (s.cstBase + pg) v (s.cstBase + pg) &&& 1 ≠ 0
  rwa [Function.update_self]

/-- A status word that has the bit if it had it before. -/
lemma Keeps.setCst {s s' : Pager} (h : Keeps s s') {pg v : ℕ}
    (hv : s.Modified pg → v &&& 1 ≠ 0) : Keeps s (s'.setCst pg v) where
  regs := h.regs
  modified q hq := by
    by_cases heq : q = pg
    · subst heq
      exact modified_setCst q (hv hq)
    · show Function.update s'.mem (s'.cstBase + pg) v (s'.cstBase + q) &&& 1 ≠ 0
      rw [Function.update_of_ne (by omega)]
      exact h.modified q hq

/-! ### The walk -/

lemma pgPag_cases (c : Config) : c.pgPag = 0o3777 ∨ c.pgPag = 0o17777 := by
  rw [Config.pgPag]
  split
  · exact Or.inl rfl
  · exact Or.inr rfl

lemma ite_and_eq_zero {p : Prop} [Decidable p] {a m : ℕ} (h : a &&& m = 0) :
    (if p then a else 0) &&& m = 0 := by
  split
  · exact h
  · exact Nat.zero_and m

/-- The entry of a page has its number. -/
lemma tlbEntry_and_pgPag (c : Config) (s : Pager) (d acc v : ℕ) :
    tlbEntry c s (d &&& c.pgPag) acc v &&& c.pgPag = d &&& c.pgPag := by
  have hsect : (s.sect &&& 0o37) <<< 18 &&& c.pgPag = 0 := by
    refine Nat.eq_of_testBit_eq fun k => ?_
    rw [Nat.testBit_and, Nat.testBit_shiftLeft, Nat.zero_testBit]
    by_cases hk : 18 ≤ k
    · have hlt : c.pgPag < 2 ^ k := by
        have h18 : 2 ^ 18 ≤ 2 ^ k := Nat.pow_le_pow_right (by norm_num) hk
        rcases pgPag_cases c with h | h <;> rw [h] <;> omega
      rw [Nat.testBit_lt_two_pow hlt, Bool.and_false]
    · simp [hk]
  have hbits : pagA &&& c.pgPag = 0 ∧ pagP &&& c.pgPag = 0 ∧ pagW &&& c.pgPag = 0
      ∧ pagS &&& c.pgPag = 0 ∧ pagC &&& c.pgPag = 0 := by
    rcases pgPag_cases c with h | h <;> rw [h] <;> decide
  obtain ⟨hA, hP, hW, hS, hC⟩ := hbits
  rw [tlbEntry]
  simp only [Nat.and_or_distrib_right, ite_and_eq_zero hsect, ite_and_eq_zero hP,
    ite_and_eq_zero hW, ite_and_eq_zero hS, ite_and_eq_zero hC, hA, Nat.or_zero, Nat.and_assoc,
    Nat.and_self]

/-- It lets the page be written if the status word has the bit. -/
lemma tlbEntry_and_pagW {c : Config} {s : Pager} {d acc v : ℕ}
    (h : tlbEntry c s (d &&& c.pgPag) acc v &&& pagW ≠ 0) : v &&& 1 ≠ 0 := by
  have hsect : (s.sect &&& 0o37) <<< 18 &&& pagW = 0 := by
    rw [show pagW = 2 ^ 15 from rfl, and_two_pow_eq_zero, Nat.testBit_shiftLeft]
    rfl
  have hpg : d &&& c.pgPag &&& pagW = 0 := by
    rw [Nat.and_assoc]
    rcases pgPag_cases c with hc | hc <;> rw [hc] <;> exact Nat.and_zero d
  rw [tlbEntry] at h
  simp only [Nat.and_or_distrib_right, ite_and_eq_zero hsect, hpg,
    ite_and_eq_zero (show pagP &&& pagW = 0 from rfl),
    ite_and_eq_zero (show pagS &&& pagW = 0 from rfl),
    ite_and_eq_zero (show pagC &&& pagW = 0 from rfl), show pagA &&& pagW = 0 from rfl,
    Nat.or_zero, Nat.zero_or] at h
  by_contra hv
  simp [hv] at h

/-- The bits that are not stored do not matter. -/
lemma marks_tlbMask {c : Config} {s : Pager} {data : ℕ} :
    s.Marks c (data &&& c.tlbMask) ↔ s.Marks c data := by
  have hmask : c.tlbMask &&& pagW = pagW ∧ c.tlbMask &&& c.pgPag = c.pgPag := by
    unfold Config.tlbMask Config.pgPag
    split <;> decide
  unfold Marks
  rw [Nat.and_assoc, Nat.and_assoc, hmask.1, hmask.2]

/-- What a part of a lookup that comes to the entry `d`, if to any, does to the buffers and to the
status of the pages. -/
structure Upholds (c : Config) (s s' : Pager) (d : Option ℕ) : Prop where
  keeps : Keeps s s'
  marked : s.cstBase ≠ 0 → s.Marked c → s'.Marked c
  entry : s.cstBase ≠ 0 → s.Marked c → ∀ data ∈ d, s'.Marks c data

/-- Without an entry the buffers are as before. -/
lemma Upholds.of_keeps {c : Config} {s s' : Pager} {d : Option ℕ} (hkeeps : Keeps s s')
    (htlb : s'.tlb = s.tlb) (hd : ∀ data ∈ d, data = 0) : Upholds c s s' d where
  keeps := hkeeps
  marked _ hs := hs.of_keeps hkeeps htlb
  entry _ _ data hdata := hd data hdata ▸ marks_zero c s'

lemma Upholds.trans {c : Config} {s₁ s₂ s₃ : Pager} {d : Option ℕ} (hkeeps : Keeps s₁ s₂)
    (htlb : s₂.tlb = s₁.tlb) (h : Upholds c s₂ s₃ d) : Upholds c s₁ s₃ d where
  keeps := hkeeps.trans h.keeps
  marked hcst hs := h.marked (hkeeps.base ▸ hcst) (hs.of_keeps hkeeps htlb)
  entry hcst hs := h.entry (hkeeps.base ▸ hcst) (hs.of_keeps hkeeps htlb)

/-- At the end of `sect_loop` the status of the page table keeps its bit. -/
lemma sectEnd_keeps (c : Config) (page : ℕ) (p : Ptr) {s : Pager}
    (hr : s.cstBase ≠ 0 → s.Retains) :
    Keeps s (sectEnd c page p s).2 ∧ (sectEnd c page p s).2.tlb = s.tlb := by
  rw [sectEnd]
  dsimp only
  split
  · exact ⟨.of_mem ⟨rfl, rfl, rfl, rfl⟩ rfl, rfl⟩
  split
  · rename_i hcst
    split
    · exact ⟨.of_mem ⟨rfl, rfl, rfl, rfl⟩ rfl, rfl⟩
    · set pg := p.data &&& c.pgPag
      have hkeeps : Keeps s (({ s with words := p.words }.touch (s.cstBase + pg)).setCst pg
          (s.mem (s.cstBase + pg) &&& s.cstMsk ||| s.cstDat)) :=
        (keeps_touch p.words _ s).setCst fun hm => Retains.update (s := s) (hr hcst) hm
      exact ⟨hkeeps, rfl⟩
  · exact ⟨.of_mem ⟨rfl, rfl, rfl, rfl⟩ rfl, rfl⟩

/-- At the end of `pg_loop` the page has the bit if the entry lets it be written. -/
lemma pageEnd_upholds (c : Config) (uf : Bool) (page : ℕ) (wr : Bool) (p : Ptr) {s : Pager}
    (hr : s.cstBase ≠ 0 → s.Retains) :
    Upholds c s (pageEnd c uf page wr p s).2 (some (pageEnd c uf page wr p s).1) := by
  rw [pageEnd]
  dsimp only
  split
  · exact .of_keeps (.of_mem ⟨rfl, rfl, rfl, rfl⟩ rfl) rfl (by simp)
  split
  · rename_i hcst
    split
    · exact .of_keeps (.of_mem ⟨rfl, rfl, rfl, rfl⟩ rfl) rfl (by simp)
    split
    · exact .of_keeps (.of_mem ⟨rfl, rfl, rfl, rfl⟩ rfl) rfl (by simp)
    set pg := p.data &&& c.pgPag with hpg
    set v := if p.accBits &&& pgWrt ≠ 0 ∧ wr = true then s.mem (s.cstBase + pg) ||| 1
      else s.mem (s.cstBase + pg) with hv
    -- the status word that is stored
    set s' := ({ s with words := p.words }.touch (s.cstBase + pg)).setCst pg
      (v &&& s.cstMsk ||| s.cstDat) with hs'
    have hkeeps : Keeps s s' := by
      refine (keeps_touch p.words _ s).setCst fun hm => ?_
      refine Retains.update (s := s) (hr hcst) ?_
      have hm' : s.mem (s.cstBase + pg) &&& 1 ≠ 0 := hm
      rw [hv]
      split
      · rw [and_one_ne_zero] at hm' ⊢
        rw [Nat.testBit_or, hm', Bool.true_or]
      · exact hm'
    have hentry : s'.Marks c (tlbEntry c s' pg p.accBits v) := fun hw => by
      rw [hpg, tlbEntry_and_pgPag, ← hpg]
      exact modified_setCst pg (Retains.update (s := s) (hr hcst) (tlbEntry_and_pagW hw))
    refine ⟨?_, fun _ hs => ?_, fun _ _ data hdata => ?_⟩
    · exact hkeeps.trans (.of_mem ⟨rfl, rfl, rfl, rfl⟩ rfl)
    · exact (hs.of_keeps hkeeps rfl).setTlb (marks_tlbMask.mpr hentry) _ _ _
    · cases hdata
      exact hentry.of_keeps (.of_mem ⟨rfl, rfl, rfl, rfl⟩ rfl)
  · rename_i hcst
    refine ⟨.of_mem ⟨rfl, rfl, rfl, rfl⟩ rfl, fun h => absurd h hcst, fun h => absurd h hcst⟩

/-- The walk. -/
lemma loadT20_upholds (fuel : ℕ) (c : Config) (uf : Bool) (page : ℕ) (wr : Bool) {s : Pager}
    (hr : s.cstBase ≠ 0 → s.Retains) :
    Upholds c s (loadT20 fuel c uf page wr s).2 (loadT20 fuel c uf page wr s).1 := by
  rw [loadT20]
  split
  · exact .of_keeps (.of_mem ⟨rfl, rfl, rfl, rfl⟩ rfl) rfl (by simp)
  · exact .of_keeps (.of_mem ⟨rfl, rfl, rfl, rfl⟩ rfl) rfl (by simp)
  rename_i p _
  obtain ⟨hkeeps, htlb⟩ := sectEnd_keeps c page p hr
  rw [loadPage]
  split
  · rename_i s' heq
    rw [heq] at hkeeps htlb
    exact .of_keeps hkeeps htlb (by simp)
  rename_i q s' heq
  rw [heq] at hkeeps htlb
  refine .trans hkeeps htlb ?_
  split
  · exact .of_keeps (.of_mem ⟨rfl, rfl, rfl, rfl⟩ rfl) rfl (by simp)
  · exact .of_keeps (.of_mem ⟨rfl, rfl, rfl, rfl⟩ rfl) rfl (by simp)
  · exact pageEnd_upholds c uf page wr _ fun hcst => hkeeps.retains (hr (hkeeps.base ▸ hcst))

/-! ### The lookup -/

/-- The entry of an access is not valid, so that its page is walked. -/
def Misses (c : Config) (a : Access) (s : Pager) : Prop :=
  let data := s.tlb (.of (a.uf s || a.upmp c s)) (a.tlbPage c s)
  s.pageEnable = true ∧ (data = 0
    ∨ c.build = .kl ∧ c.klb ∧ s.t20Page ∧ data >>> 18 &&& 0o37 ≠ (a.setSect c s).sect)

/-- The entry of an access of the front end is not valid. -/
def ExecMisses (addr : ℕ) (s : Pager) : Prop :=
  let data := s.tlb .exec ((rmask &&& addr) >>> 9)
  s.pageEnable = true ∧ (data = 0 ∨ data &&& 0o37 ≠ 0)

lemma loadTlb_upholds (fuel : ℕ) {c : Config} (hits : c.its = false) (uf : Bool) (page : ℕ)
    (wr : Bool) {s : Pager} (h20 : s.t20Page = true) (hr : s.cstBase ≠ 0 → s.Retains) :
    Upholds c s (loadTlb fuel c uf page wr s).2 (loadTlb fuel c uf page wr s).1 := by
  rw [loadTlb, if_neg (by simp [hits]), if_pos h20]
  exact loadT20_upholds fuel c uf page wr hr

/-- A valid entry is one of the buffer, and another one is walked for. -/
lemma refill_upholds (fuel : ℕ) {c : Config} (hits : c.its = false) (a : Access) (t : Bool)
    (page : ℕ) {s : Pager} (h20 : s.t20Page = true)
    (hr : s.cstBase ≠ 0 → (s.tlb (.of t) page = 0 ∨ c.build = .kl ∧ c.klb ∧ s.t20Page
      ∧ s.tlb (.of t) page >>> 18 &&& 0o37 ≠ s.sect) → s.Retains) :
    Upholds c s (s.refill fuel c a t page).2 (s.refill fuel c a t page).1 := by
  have hlook : Keeps s (s.look (.of t) page) := .of_mem ⟨rfl, rfl, rfl, rfl⟩ rfl
  unfold refill
  dsimp only
  by_cases hmiss : s.tlb (.of t) page = 0 ∨ c.build = .kl ∧ c.klb ∧ s.t20Page
      ∧ s.tlb (.of t) page >>> 18 &&& 0o37 ≠ s.sect
  · have hzero : (if c.build = .kl ∧ c.klb ∧ s.t20Page
        ∧ s.tlb (.of t) page >>> 18 &&& 0o37 ≠ s.sect then 0 else s.tlb (.of t) page) = 0 := by
      split
      · rfl
      · rename_i hsect
        exact hmiss.resolve_right hsect
    rw [if_pos hzero]
    exact .trans hlook rfl (loadTlb_upholds fuel hits t page a.wr h20 fun h => hr h hmiss)
  · rw [not_or] at hmiss
    rw [if_neg hmiss.2, if_neg hmiss.1]
    refine ⟨hlook, fun _ hs => hs.of_keeps hlook rfl, fun _ hs data hdata => ?_⟩
    cases hdata
    exact (hs _ _).of_keeps hlook

/-- The first write to a page sets its bit, whatever the mask and the data word. -/
lemma firstWrite_upholds (c : Config) (t : Bool) (page data : ℕ) (s : Pager) :
    Upholds c s (s.firstWrite c t page data).2 (some (s.firstWrite c t page data).1) := by
  rw [firstWrite]
  split
  · rename_i hcst
    set s' := s.setCst (data &&& c.pgPag)
      (s.cstMsk &&& s.mem (s.cstBase + (data &&& c.pgPag)) ||| s.cstDat ||| 1) with hs'
    have hone : ∀ w : ℕ, (w ||| 1) &&& 1 ≠ 0 := fun w => by
      rw [and_one_ne_zero, Nat.testBit_or]
      simp
    have hkeeps : Keeps s s' := (Keeps.refl s).setCst fun _ => hone _
    have hentry : s'.Marks c (data ||| pagW) := fun _ => by
      have hpag : (data ||| pagW) &&& c.pgPag = data &&& c.pgPag := by
        rw [Nat.and_or_distrib_right]
        rcases pgPag_cases c with h | h <;> rw [h] <;> exact Nat.or_zero _
      rw [hpag]
      exact modified_setCst _ (hone _)
    refine ⟨hkeeps.trans (.of_mem ⟨rfl, rfl, rfl, rfl⟩ rfl), fun _ hs => ?_, fun _ _ d hd => ?_⟩
    · exact (hs.of_keeps hkeeps rfl).setTlb hentry _ _ _
    · cases hd
      exact hentry.of_keeps (.of_mem ⟨rfl, rfl, rfl, rfl⟩ rfl)
  · rename_i hcst
    exact ⟨.of_mem ⟨rfl, rfl, rfl, rfl⟩ rfl, fun h => absurd h hcst, fun h => absurd h hcst⟩

lemma location_page (c : Config) (a : Access) (data : ℕ) :
    location c a data >>> 9 = data &&& c.pgPag := by
  have hword : a.addr &&& 0o777 ≤ 0o777 := Nat.and_le_right
  rw [location, Nat.shiftLeft_eq, Nat.shiftRight_eq_div_pow]
  lia

/-- What a lookup does to the buffers and to the status of the pages; a write that it lets through
is to a page with the bit. -/
structure Serves (c : Config) (a : Access) (s : Pager) (r : Looked × Pager) : Prop where
  keeps : Keeps s r.2
  marked : s.cstBase ≠ 0 → s.Marked c → r.2.Marked c
  loc : s.cstBase ≠ 0 → s.Marked c → a.wr = true → ∀ l, r.1 = .loc l → r.2.Modified (l >>> 9)

lemma Serves.fault {c : Config} {a : Access} {s s' : Pager} (hkeeps : Keeps s s')
    (htlb : s'.tlb = s.tlb) : Serves c a s (.fault, s') where
  keeps := hkeeps
  marked _ hs := hs.of_keeps hkeeps htlb
  loc _ _ _ _ h := by cases h

lemma check_serves (c : Config) (a : Access) (uf pub : Bool) (page : ℕ) {data : ℕ} {s s' : Pager}
    (h : Upholds c s s' (some data)) : Serves c a s (check c a uf pub page data s') := by
  have hnone : ∀ {s'' : Pager}, Keeps s' s'' → s''.tlb = s'.tlb → Serves c a s (.fault, s'') :=
    fun hk htlb => ⟨h.keeps.trans hk, fun hcst hs => (h.marked hcst hs).of_keeps hk htlb,
      fun _ _ _ _ hl => by cases hl⟩
  unfold check
  dsimp only
  split
  · exact hnone (.of_mem ⟨rfl, rfl, rfl, rfl⟩ rfl) rfl
  split
  · exact hnone (.of_mem ⟨rfl, rfl, rfl, rfl⟩ rfl) rfl
  split
  · refine ⟨h.keeps.trans (.of_mem ⟨rfl, rfl, rfl, rfl⟩ rfl), fun hcst hs => ?_,
      fun _ _ _ _ hl => by cases hl⟩
    exact ((h.marked hcst hs).setTlb (marks_zero c s') .clear _ _).of_keeps
      (.of_mem ⟨rfl, rfl, rfl, rfl⟩ rfl) rfl
  · rename_i hden
    have hwr : a.wr = true → data &&& pagW ≠ 0 := fun hwr hz => hden (by simp [isDenied, hwr, hz])
    have hkeeps : Keeps s' (if c.build = .kl ∧ a.fetch ∧ data &&& pagP ≠ 0 then
        { s' with pub := true } else s') := by
      split
      · exact .of_mem ⟨rfl, rfl, rfl, rfl⟩ rfl
      · exact .refl s'
    refine ⟨h.keeps.trans hkeeps, fun hcst hs => ?_, fun hcst hs hw l hl => ?_⟩
    · refine (h.marked hcst hs).of_keeps hkeeps ?_
      split <;> rfl
    · cases hl
      rw [location_page]
      exact hkeeps.modified _ (h.entry hcst hs data rfl (hwr hw))

/-- `page_lookup`. -/
lemma pageLookup_serves (fuel : ℕ) {c : Config} (hits : c.its = false) (a : Access) {s : Pager}
    (h20 : s.t20Page = true) (hpage : s.pageEnable = true)
    (hr : s.cstBase ≠ 0 → s.Misses c a → s.Retains) : Serves c a s (s.pageLookup fuel c a) := by
  have hsect : Keeps s (a.setSect c s) := by
    rw [setSect_frame]
    exact .of_mem ⟨rfl, rfl, rfl, rfl⟩ rfl
  have hsectTlb : (a.setSect c s).tlb = s.tlb := by rw [setSect_frame]
  rw [pageLookup]
  rw [if_neg (by simp [hpage])]
  split
  · exact .fault (.of_mem ⟨rfl, rfl, rfl, rfl⟩ rfl) rfl
  dsimp only
  split
  · exact .fault (hsect.trans (.of_mem ⟨rfl, rfl, rfl, rfl⟩ rfl)) hsectTlb
  have hrefill : Upholds c (a.setSect c s) _ _ :=
    refill_upholds fuel hits a (a.uf s || a.upmp c s) (a.tlbPage c s)
      (hsect.regs.2.2.2.trans h20) fun hcst hmiss => by
        refine hsect.retains (hr (hsect.base ▸ hcst) ⟨hpage, ?_⟩)
        rwa [hsectTlb, hsect.regs.2.2.2] at hmiss
  have hrefill := Upholds.trans hsect hsectTlb hrefill
  split
  · rename_i s' heq
    rw [heq] at hrefill
    exact ⟨hrefill.keeps, hrefill.marked, fun _ _ _ _ hl => by cases hl⟩
  rename_i data s' heq
  rw [heq] at hrefill
  split
  · have hkeeps : Keeps s' (s'.walkFault c a (a.uf s)) := by
      rw [walkFault]
      dsimp only
      split <;> exact .of_mem ⟨rfl, rfl, rfl, rfl⟩ rfl
    have htlb : (s'.walkFault c a (a.uf s)).tlb = s'.tlb := by
      rw [walkFault]
      dsimp only
      split <;> rfl
    exact ⟨hrefill.keeps.trans hkeeps,
      fun hcst hs => (hrefill.marked hcst hs).of_keeps hkeeps htlb, fun _ _ _ _ hl => by cases hl⟩
  split
  · have hfirst := firstWrite_upholds c (a.uf s || a.upmp c s) (a.tlbPage c s) data s'
    refine check_serves c a _ _ _ ⟨hrefill.keeps.trans hfirst.keeps, fun hcst hs => ?_,
      fun hcst hs => ?_⟩
    · exact hfirst.marked (hrefill.keeps.base ▸ hcst) (hrefill.marked hcst hs)
    · exact hfirst.entry (hrefill.keeps.base ▸ hcst) (hrefill.marked hcst hs)
  · exact check_serves c a _ _ _ hrefill

/-- `exec_page_lookup`. -/
lemma execPageLookup_keeps (fuel : ℕ) {c : Config} (hits : c.its = false) (addr : ℕ) (wr : Bool)
    {s : Pager} (h20 : s.t20Page = true) (hr : s.cstBase ≠ 0 → s.ExecMisses addr → s.Retains) :
    Keeps s (execPageLookup fuel c addr wr s).2
      ∧ (s.cstBase ≠ 0 → s.Marked c → (execPageLookup fuel c addr wr s).2.Marked c) := by
  rw [execPageLookup]
  split
  · exact ⟨.refl s, fun _ hs => hs⟩
  rename_i hpage
  simp only [h20, Bool.not_true, Bool.false_and, Bool.false_eq_true, if_false]
  have hlook : Keeps s (s.look (.of false) (Access.page { addr := addr, flag := true, wr := wr })) :=
    .of_mem ⟨rfl, rfl, rfl, rfl⟩ rfl
  split
  · rename_i hmiss
    have hload : ∀ {d : Option ℕ} {s₁ s' : Pager}, loadTlb fuel c false
        (Access.page { addr := addr, flag := true, wr := wr }) wr s₁ = (d, s') →
        Keeps s s₁ → s₁.tlb = s.tlb → Upholds c s s' d := fun {d s₁ s'} heq hk htlb => by
      have h := Upholds.trans hk htlb (loadTlb_upholds fuel hits false
        (Access.page { addr := addr, flag := true, wr := wr }) wr (hk.regs.2.2.2.trans h20)
        fun hcst => hk.retains (hr (hk.base ▸ hcst) ⟨by simpa using hpage, hmiss⟩))
      rwa [heq] at h
    split
    · rename_i s' heq
      have h := hload heq (.of_mem ⟨rfl, rfl, rfl, rfl⟩ rfl) rfl
      exact ⟨h.keeps, h.marked⟩
    · rename_i s' heq
      have h := hload heq (.of_mem ⟨rfl, rfl, rfl, rfl⟩ rfl) rfl
      have hkeeps : Keeps s' { s' with pageFault := false } := .of_mem ⟨rfl, rfl, rfl, rfl⟩ rfl
      exact ⟨h.keeps.trans hkeeps, fun hcst hs => (h.marked hcst hs).of_keeps hkeeps rfl⟩
    · rename_i data s' _ heq
      have h := hload heq (.of_mem ⟨rfl, rfl, rfl, rfl⟩ rfl) rfl
      have hkeeps : Keeps s' { s' with sect := s.sect } := .of_mem ⟨rfl, rfl, rfl, rfl⟩ rfl
      exact ⟨h.keeps.trans hkeeps, fun hcst hs => (h.marked hcst hs).of_keeps hkeeps rfl⟩
  · exact ⟨hlook, fun _ hs => hs.of_keeps hlook rfl⟩

end Pager

/-! ### Runs -/

/-- The pager, the word that a write has been let through to, and the pages written since their
status was cleared. -/
structure Tracked where
  pager : Pager
  target : Option ℕ
  written : Set ℕ

/-- What may happen: an access of the program or of the front end is looked up, the word of a write
that was let through is stored, something else is stored, and the machine sets registers of the
pager or clears entries of the buffers. -/
inductive Traffic
  | lookup (fuel : ℕ) (a : Access)
  | put (v : ℕ)
  | exec (fuel addr : ℕ) (wr : Bool)
  | store (addr v : ℕ)
  | regs (r : Regs)
  | clear (sel : Table → ℕ → Bool)

namespace Tracked

/-- A word is stored. Without the modified bit it clears the status that it is stored over. -/
def store (addr v : ℕ) (x : Tracked) : Tracked where
  pager := { x.pager with mem := Function.update x.pager.mem addr v }
  target := none
  written := { pg ∈ x.written | v &&& 1 ≠ 0 ∨ addr ≠ x.pager.cstBase + pg }

/-- One step; a lookup that does not come back is none, and nothing is put without a target. -/
def step (c : Config) (x : Tracked) : Traffic → Option Tracked
  | .lookup fuel a =>
      let r := x.pager.pageLookup fuel c a
      match r.1 with
      | .running => none
      | .fault => some { x with pager := r.2, target := none }
      | .loc l =>
          some { x with pager := r.2, target := if a.wr ∧ x.pager.pageEnable then some l else none }
  | .put v => x.target.map fun l => { x with written := insert (l >>> 9) x.written }.store l v
  | .exec fuel addr wr =>
      let r := x.pager.execPageLookup fuel c addr wr
      match r.1 with
      | .running => none
      | _ => some { x with pager := r.2, target := none }
  | .store addr v => some (x.store addr v)
  | .regs r =>
      some
        { pager := { x.pager with toRegs := r }
          target := none
          written := { pg ∈ x.written | r.cst &&& pgMask = x.pager.cstBase } }
  | .clear sel =>
      some
        { x with
          pager := { x.pager with tlb := fun t i => if sel t i then 0 else x.pager.tlb t i }
          target := none }

/-- The status of a page that an entry lets be written is not cleared. -/
def Spares (c : Config) (x : Tracked) (addr v : ℕ) : Prop :=
  v &&& 1 ≠ 0 ∨ ∀ t i, x.pager.tlb t i &&& pagW ≠ 0 →
    addr ≠ x.pager.cstBase + (x.pager.tlb t i &&& c.pgPag)

/-- TOPS-20 paging stays on, and the program clears the entries that let pages be written before it
clears their status or sets another table. -/
def Fair (c : Config) (x : Tracked) : Traffic → Prop
  | .put v => ∀ l, x.target = some l → x.Spares c l v
  | .store addr v => x.Spares c addr v
  | .regs r => r.t20Page = true
      ∧ (r.cst &&& pgMask = x.pager.cstBase ∨ ∀ t i, x.pager.tlb t i &&& pagW = 0)
  | _ => True

/-- A walk finds the modified bit in the mask or in the data word. -/
def WalksRetain (c : Config) (x : Tracked) : Traffic → Prop
  | .lookup _ a => x.pager.cstBase ≠ 0 → x.pager.Misses c a → x.pager.Retains
  | .exec _ addr _ => x.pager.cstBase ≠ 0 → x.pager.ExecMisses addr → x.pager.Retains
  | _ => True

/-- The invariant: TOPS-20 paging is on and, with a core status table, the modified bit is set for
the pages that entries let be written, the pages written and the page of the target. -/
structure Inv (c : Config) (x : Tracked) : Prop where
  t20 : x.pager.t20Page = true
  marked : x.pager.cstBase ≠ 0 → x.pager.Marked c
  written : x.pager.cstBase ≠ 0 → ∀ pg ∈ x.written, x.pager.Modified pg
  target : x.pager.cstBase ≠ 0 → ∀ l, x.target = some l → x.pager.Modified (l >>> 9)

/-- The status of a page after a store, unless that is what was stored over. -/
lemma modified_store {x : Tracked} {addr v pg : ℕ} (h : x.pager.Modified pg)
    (hv : v &&& 1 ≠ 0 ∨ addr ≠ x.pager.cstBase + pg) : (x.store addr v).pager.Modified pg := by
  show Function.update x.pager.mem addr v (x.pager.cstBase + pg) &&& 1 ≠ 0
  by_cases heq : x.pager.cstBase + pg = addr
  · rw [heq, Function.update_self]
    exact hv.resolve_right fun hne => hne heq.symm
  · rw [Function.update_of_ne heq]
    exact h

lemma Inv.store {c : Config} {x : Tracked} (h : x.Inv c) {addr v : ℕ} (hs : x.Spares c addr v) :
    (x.store addr v).Inv c where
  t20 := h.t20
  marked hcst t i hw := modified_store (h.marked hcst t i hw) (hs.imp_right fun hs => hs t i hw)
  written hcst pg hpg := modified_store (h.written hcst pg hpg.1) hpg.2
  target _ l hl := by cases hl

/-- An access keeps the invariant, with the word that it has been let through to, if to any. -/
lemma Inv.served {c : Config} {x : Tracked} (h : x.Inv c) {s' : Pager}
    (hkeeps : Pager.Keeps x.pager s') (hmarked : x.pager.cstBase ≠ 0 → s'.Marked c)
    {target : Option ℕ}
    (htarget : x.pager.cstBase ≠ 0 → ∀ l, target = some l → s'.Modified (l >>> 9)) :
    Inv c { x with pager := s', target := target } where
  t20 := hkeeps.regs.2.2.2.trans h.t20
  marked hcst := hmarked (hkeeps.base ▸ hcst)
  written hcst pg hpg := hkeeps.modified pg (h.written (hkeeps.base ▸ hcst) pg hpg)
  target hcst := htarget (hkeeps.base ▸ hcst)

lemma Inv.lookup {c : Config} (hits : c.its = false) {x x' : Tracked} (h : x.Inv c) {fuel : ℕ}
    {a : Access} (hr : x.WalksRetain c (.lookup fuel a))
    (hstep : step c x (.lookup fuel a) = some x') : x'.Inv c := by
  by_cases hpage : x.pager.pageEnable = true
  · have hserves := Pager.pageLookup_serves fuel hits a h.t20 hpage hr
    unfold step at hstep
    dsimp only at hstep
    rcases heq : x.pager.pageLookup fuel c a with ⟨l | _ | _, s'⟩ <;>
      rw [heq] at hstep hserves <;> cases hstep
    · refine h.served hserves.keeps (fun hcst => hserves.marked hcst (h.marked hcst))
        fun hcst l' hl => ?_
      obtain ⟨⟨hwr, -⟩, rfl⟩ := of_guard hl
      exact hserves.loc hcst (h.marked hcst) hwr l rfl
    · exact h.served hserves.keeps (fun hcst => hserves.marked hcst (h.marked hcst))
        fun _ _ hl => by cases hl
  · have hoff : x.pager.pageLookup fuel c a = (.loc a.addr, x.pager) := by
      rw [Pager.pageLookup]
      rw [if_pos (by simpa using hpage)]
    rw [step] at hstep
    simp only [hoff, Option.some.injEq] at hstep
    subst hstep
    exact h.served (.refl _) h.marked fun _ _ hl => absurd (of_guard hl).1.2 hpage

/-- A step that is fair and whose walk, if any, keeps modified bits keeps the invariant. -/
lemma Inv.step {c : Config} (hits : c.its = false) {x x' : Tracked} {e : Traffic} (h : x.Inv c)
    (hfair : x.Fair c e) (hr : x.WalksRetain c e) (hstep : Tracked.step c x e = some x') :
    x'.Inv c := by
  cases e with
  | lookup fuel a => exact h.lookup hits hr hstep
  | put v =>
      obtain ⟨l, hl, rfl⟩ := Option.map_eq_some_iff.mp hstep
      have hinv : Inv c { x with written := insert (l >>> 9) x.written } :=
        ⟨h.t20, h.marked, fun hcst pg hpg => hpg.elim (fun heq => heq ▸ h.target hcst l hl)
          (h.written hcst pg), h.target⟩
      exact hinv.store (hfair l hl)
  | exec fuel addr wr =>
      have hexec := Pager.execPageLookup_keeps fuel hits addr wr h.t20 hr
      unfold Tracked.step at hstep
      dsimp only at hstep
      rcases heq : x.pager.execPageLookup fuel c addr wr with ⟨l | _ | _, s'⟩ <;>
        rw [heq] at hstep hexec <;> cases hstep <;>
        exact h.served hexec.1 (fun hcst => hexec.2 hcst (h.marked hcst)) fun _ _ hl => by cases hl
  | store addr v =>
      cases hstep
      exact h.store hfair
  | regs r =>
      cases hstep
      refine ⟨hfair.1, fun hcst t i hw => ?_, fun hcst pg hpg => ?_, fun _ _ hl => by cases hl⟩
      · rcases hfair.2 with hbase | hnone
        · have hmarked := h.marked (fun h0 => hcst (hbase.trans h0)) t i hw
          exact (Pager.modified_regs hbase).mpr hmarked
        · exact absurd (hnone t i) hw
      · have hmod := h.written (fun h0 => hcst (hpg.2.trans h0)) pg hpg.1
        exact (Pager.modified_regs hpg.2).mpr hmod
  | clear sel =>
      cases hstep
      refine ⟨h.t20, fun hcst t i => ?_, h.written, fun _ _ hl => by cases hl⟩
      show Pager.Marks c _ (if sel t i then 0 else x.pager.tlb t i)
      split
      · exact Pager.marks_zero c _
      · exact h.marked hcst t i

end Tracked

/-- **The modified bit**: from empty buffers and nothing written, with TOPS-20 paging and with the
core status table of the program, let accesses, stores and settings follow in any order, the program
clearing the entries of a page before its status. If every walk finds the modified bit in the mask
or in the data word of the table, then in every state reached the bit is set for the pages that
entries let be written and for the pages written since their status was cleared. -/
theorem modified_bit_kept {c : Config} (hits : c.its = false) {x₀ x : Tracked}
    (h20 : x₀.pager.t20Page = true) (hempty : ∀ t i, x₀.pager.tlb t i = 0)
    (hwritten : x₀.written = ∅) (htarget : x₀.target = none)
    (h : Reaches (ofPartial (Tracked.step c)) (fun x e => x.Fair c e ∧ x.WalksRetain c e) x₀ x)
    (hcst : x.pager.cstBase ≠ 0) :
    x.pager.Marked c ∧ ∀ pg ∈ x.written, x.pager.Modified pg := by
  have hinv : x.Inv c := by
    refine h.invariant (I := fun x => x.Inv c) ⟨h20, fun _ t i => ?_, fun _ pg hpg => ?_,
      fun _ l hl => ?_⟩ fun s e s' hs hok hstep => hs.step hits hok.1 hok.2 hstep
    · rw [hempty]
      exact Pager.marks_zero c _
    · rw [hwritten] at hpg
      exact hpg.elim
    · rw [htarget] at hl
      cases hl
  exact ⟨hinv.marked hcst, hinv.written hcst⟩

/-- A page that may be written, and the mask of the core status table. -/
def Tracked.writable (mask : ℕ) : Tracked where
  pager :=
    { Pager.blank with
      t20Page := true
      cst := 0o4000
      cstMsk := mask
      mem := fun a =>
        if a = 0o540 then 1 <<< 33 ||| pgWrt <<< 18 ||| 1
        else if a = 0o1001 then 1 <<< 33 ||| pgWrt <<< 18 ||| 2
        else if 0o4000 ≤ a then pgAge else 0 }
  target := none
  written := ∅

/-- When a write to the page has been let through. -/
def Tracked.allowed (mask : ℕ) : Tracked where
  pager :=
    ((Tracked.writable mask).pager.pageLookup 1 { build := .kl } { addr := 0o1000, wr := true }).2
  target := some 0o2000
  written := ∅

/-- A mask without the modified bit: the walk of a write masks the bit that it sets. -/
theorem modified_bit_masked :
    ¬ ∀ x, Reaches (ofPartial (Tracked.step { build := .kl })) (Tracked.Fair { build := .kl })
        (Tracked.writable pgAge) x → x.pager.cstBase ≠ 0 →
      x.pager.Marked { build := .kl } ∧ ∀ pg ∈ x.written, x.pager.Modified pg := by
  intro h
  have hrun := h (Tracked.allowed pgAge)
    (.next (e := .lookup 1 { addr := 0o1000, wr := true }) .start trivial rfl) (by decide)
  exact absurd (hrun.1 .exec 1 (by decide)) (by unfold Pager.Modified; decide)

/-- A mask with the bit: the write, and the word that it stores. -/
theorem modified_bit_kept_write :
    ({ Tracked.allowed (pgAge ||| 1) with written := {2} }.store 0o2000 1).pager.Marked
        { build := .kl }
      ∧ ∀ pg ∈ ({ Tracked.allowed (pgAge ||| 1) with written := {2} }.store 0o2000 1).written,
        ({ Tracked.allowed (pgAge ||| 1) with written := {2} }.store 0o2000 1).pager.Modified pg := by
  have hlookup : Reaches (ofPartial (Tracked.step { build := .kl }))
      (fun x e => x.Fair { build := .kl } e ∧ x.WalksRetain { build := .kl } e)
      (Tracked.writable (pgAge ||| 1)) (Tracked.allowed (pgAge ||| 1)) :=
    .next (e := .lookup 1 { addr := 0o1000, wr := true }) .start
      ⟨trivial, fun _ _ => by unfold Pager.Retains; decide⟩ rfl
  have hput : Tracked.step { build := .kl } (Tracked.allowed (pgAge ||| 1)) (.put 1)
      = some ({ Tracked.allowed (pgAge ||| 1) with written := {2} }.store 0o2000 1) := by
    rw [← insert_empty_eq]
    rfl
  exact modified_bit_kept rfl rfl (fun _ _ => rfl) rfl rfl
    (.next (e := .put 1) hlookup ⟨fun _ _ => Or.inl (by decide), trivial⟩ hput) (by decide)

end Ka10Simh.Pdp10
