import Ka10Simh.Pdp10.Pager.Walk

/-!
The lookup of a virtual address on the KL10 and the KS10: `page_lookup` and `exec_page_lookup`.

A lookup chooses one of the two translation buffers by the context of the access; under KI10 paging
the executive pages `0340`–`0377` are entries `01000`–`01037` of the user's buffer. An entry that is
not valid is filled by the walk, one that is writable is made writable now by a write, and one that
does not allow the access is invalidated.

* `pageLookup`, `execPageLookup`: the two functions.
* `Pager.TlbSafe`: what the subscripts formed have to meet.
* `tlb_subscripts_iff`: all subscripts are in range and the entry invalidated is the one looked up,
  exactly when no access error is found for one of the pages `0340`–`0377` under KI10 paging, which
  is invalidated in the wrong buffer.
-/

namespace Ka10Simh.Pdp10

/-- `OP_PORTAL`: a `JRST 1,`. -/
def opPortal (x : ℕ) : Bool := x &&& 0o777740000000 == 0o254040000000

namespace Access

/-- The access is one that the `PXCT` in progress makes in the previous context. -/
def usesPrev (a : Access) (s : Pager) : Bool :=
  !a.flag && s.xctFlag != 0 && !a.fetch &&
    ((s.xctFlag &&& 8 != 0 && a.curContext && !s.ptrFlg)
      || (s.xctFlag &&& 4 != 0 && !a.curContext && !s.byf5 && !s.ptrFlg)
      || (s.xctFlag &&& 2 != 0 && !a.curContext && s.ptrFlg)
      || (s.xctFlag &&& 1 != 0 && !a.curContext && s.byf5))

/-- `uf`, a user space access. -/
def uf (a : Access) (s : Pager) : Bool :=
  if a.flag then false else if a.usesPrev s then s.userio else s.user

/-- `pub`, an access from a public page. -/
def pub (a : Access) (s : Pager) : Bool := if a.usesPrev s then s.prvPub else s.pub

/-- The section of the access. -/
def setSect (c : Config) (a : Access) (s : Pager) : Pager :=
  if c.build ≠ .kl then s
  else if a.flag then { s with sect := 0 }
  else if a.usesPrev s ∧ !s.globSect ∧
      ((s.xctFlag &&& 0o14 = 4 ∧ !a.curContext ∧ !s.ptrFlg) ∨ (s.xctFlag &&& 3 = 1 ∧ s.byf5)) then
    { s with sect := s.prevSect }
  else s

/-- An address break. -/
def isBreak (c : Config) (a : Access) (s : Pager) : Bool :=
  c.build == .kl && a.addr == s.brkAddr && s.user == (s.brkFlags &&& 1 != 0) && !s.adrFlt &&
    ((a.fetch && s.brkFlags &&& 0o10 != 0) || (!a.fetch && !a.wr && s.brkFlags &&& 4 != 0)
      || (a.wr && s.brkFlags &&& 2 != 0))

/-- `upmp`, an executive page mapped through the user's page table by KI10 paging. -/
def upmp (c : Config) (a : Access) (s : Pager) : Bool :=
  !c.its && !a.uf s && !s.t20Page && a.page &&& 0o740 == 0o340

/-- The page as it is numbered in the translation buffers. -/
def tlbPage (c : Config) (a : Access) (s : Pager) : ℕ :=
  if a.upmp c s then a.page + (0o1000 - 0o340) else a.page

/-- `SMASK` for a user space access. -/
def userBit (uf : Bool) : ℕ := if uf then smask else 0

/-- The section in the fault word of an extended KL10. -/
def sectBits (c : Config) (s : Pager) : ℕ :=
  if c.build = .kl ∧ c.klb ∧ s.t20Page then s.sect <<< 18 else 0

end Access

namespace Pager

open Access

/-- The entry for a page, from the translation buffer or from the walk. -/
def refill (fuel : ℕ) (c : Config) (a : Access) (t : Bool) (page : ℕ) (s : Pager) :
    Option ℕ × Pager :=
  let data := s.tlb (.of t) page
  let data :=
    if c.build = .kl ∧ c.klb ∧ s.t20Page ∧ data >>> 18 &&& 0o37 ≠ s.sect then 0 else data
  let s := s.look (.of t) page
  if data = 0 then loadTlb fuel c t page a.wr s else (some data, s)

/-- The fault word of a walk that has failed. -/
def walkFault (c : Config) (a : Access) (uf : Bool) (s : Pager) : Pager :=
  let d := s.faultData ||| a.addr ||| userBit uf
  if c.its then { s with faultData := d }
  else
    let d := d ||| bit8 ||| sectBits c s
    { s with faultData := if d &&& bit1 ≠ 0 then d else if a.wr then d ||| bit5 else d }

/-- The entry is writable and this is the first write: the modified bit of the page is set. -/
def firstWrite (c : Config) (t : Bool) (page data : ℕ) (s : Pager) : ℕ × Pager :=
  let s :=
    if s.cstBase ≠ 0 then
      let pg := data &&& c.pgPag
      s.setCst pg (s.cstMsk &&& s.mem (s.cstBase + pg) ||| s.cstDat ||| 1)
    else s
  (data ||| pagW, s.setTlb .fill (.of t) page (data ||| pagW))

/-- A page that is writable but not yet written. -/
def isFirstWrite (a : Access) (data : ℕ) (s : Pager) : Bool :=
  s.t20Page && data &&& pagA != 0 && a.wr && data &&& pagW == 0 && data &&& pagS != 0

/-- A public program reads a private page, or fetches from it what is no portal. -/
def isPrivate (c : Config) (a : Access) (pub : Bool) (data loc : ℕ) (s : Pager) : Bool :=
  c.build == .kl && data &&& pagA != 0 && !a.flag && pub && data &&& pagP == 0 &&
    (!a.fetch || !opPortal (s.mem loc))

/-- The entry does not allow the access. -/
def isDenied (a : Access) (data : ℕ) : Bool :=
  data &&& pagA == 0 || (a.wr && data &&& pagW == 0)

/-- The fault word of an access error. -/
def deniedWord (c : Config) (a : Access) (uf : Bool) (data : ℕ) (s : Pager) : ℕ :=
  let on (m b : ℕ) : ℕ := if data &&& m ≠ 0 then b else 0
  if c.build = .ks then
    a.addr ||| userBit uf |||
      if c.its then
        (if data &&& pagA ≠ 0 then
          if data &&& pagS ≠ 0 then 0o4000 <<< 18
          else if data &&& pagW = 0 then 0o2000 <<< 18 else 0
        else 0) ||| if a.wr then 0o10000 <<< 18 else 0
      else
        bit8 ||| (if a.wr then bit5 else 0)
          ||| if data &&& pagA ≠ 0 then bit2 ||| on pagS bit4 else 0
  else if c.its then a.addr ||| (if data &&& pagA = 0 then 0o33 else 0o24) <<< 30 ||| userBit uf
  else
    bit8 ||| a.addr ||| sectBits c s ||| userBit uf ||| on pagC bit7 ||| on pagP bit6
      ||| (if a.wr then bit5 else 0) ||| on pagS bit4 ||| on pagW bit3 ||| on pagA bit2

/-- An access error: the entry is invalidated, in the buffer that `uf` alone chooses. -/
def denied (c : Config) (a : Access) (uf : Bool) (page data : ℕ) (s : Pager) : Pager :=
  ((s.setTlb .clear (.of uf) page 0).pageFail (deniedWord c a uf data s))

/-- The physical address of an entry. -/
def location (c : Config) (a : Access) (data : ℕ) : ℕ :=
  (data &&& c.pgPag) <<< 9 + (a.addr &&& 0o777)

/-- What becomes of an access for the entry of its page. -/
def check (c : Config) (a : Access) (uf pub : Bool) (page data : ℕ) (s : Pager) : Looked × Pager :=
  let loc := location c a data
  if c.build = .ks ∧ s.memSize ≤ loc then
    (.fault, { s with nxmMem := true }.pageFail (0o37 <<< 30 ||| bit8 ||| loc))
  else if isPrivate c a pub data loc s then
    (.fault, s.pageFail (a.addr ||| 0o21 <<< 30 ||| bit8 ||| userBit uf ||| sectBits c s))
  else if isDenied a data then (.fault, denied c a uf page data s)
  else (.loc loc, if c.build = .kl ∧ a.fetch ∧ data &&& pagP ≠ 0 then { s with pub := true } else s)

/-- `page_lookup`. -/
def pageLookup (fuel : ℕ) (c : Config) (a : Access) (s : Pager) : Looked × Pager :=
  if !s.pageEnable then (.loc a.addr, s)
  else if a.isBreak c s then (.fault, s.pageFail (a.addr ||| 0o23 <<< 30 ||| userBit s.user))
  else
    let uf := a.uf s
    let pub := a.pub s
    let page := a.tlbPage c s
    let t := uf || a.upmp c s
    let s := a.setSect c s
    if c.build = .kl ∧ c.klb ∧ s.t20Page ∧ s.sect &&& 0o7740 ≠ 0 then
      (.fault, s.pageFail (0o27 <<< 30 ||| s.sect <<< 18 ||| a.addr ||| userBit uf))
    else
      match s.refill fuel c a t page with
      | (none, s) => (.running, s)
      | (some data, s) =>
          if data = 0 ∧ s.pageFault then (.fault, s.walkFault c a uf)
          else if s.isFirstWrite a data then
            let r := s.firstWrite c t page data
            check c a uf pub page r.1 r.2
          else check c a uf pub page data s

/-- `exec_page_lookup`, which the front end of the KL10 uses: it fails with `fault`. -/
def execPageLookup (fuel : ℕ) (c : Config) (addr : ℕ) (wr : Bool) (s : Pager) : Looked × Pager :=
  let a : Access := { addr := addr, flag := true, wr := wr }
  if !s.pageEnable then (.loc addr, s)
  else
    let upmp := !s.t20Page && a.page &&& 0o740 == 0o340
    let page := if upmp then a.page + (0o1000 - 0o340) else a.page
    let data := s.tlb (.of upmp) page
    let s := s.look (.of upmp) page
    if data = 0 ∨ data &&& 0o37 ≠ 0 then
      match loadTlb fuel c upmp page wr { s with sect := 0 } with
      | (none, s) => (.running, s)
      | (some 0, s) => (.fault, { s with pageFault := false })
      | (some data, s') => (.loc (location c a data), { s' with sect := s.sect })
    else (.loc (location c a data), s)

/-! ### The subscripts of a walk -/

/-- A subscript that finds or fills the entry `page` of the buffer `t` and is in range. -/
structure Sound (t : Bool) (page : ℕ) (r : Ref) : Prop where
  use : r.use ≠ .clear
  tab : r.tab = .of t
  idx : r.idx < r.tab.size
  here : r.use = .look → r.idx = page

/-- The page is an entry of the buffer: one of the 512 pages of an address space, or one of the
executive pages in the user's buffer. -/
def InTable (t : Bool) (page : ℕ) : Prop := page < 0o1000 ∨ t = true ∧ page < 0o1040

lemma lt_size_of_lt {i : ℕ} (t : Bool) (h : i < 0o1000) : i < (Table.of t).size := by
  cases t
  · exact h
  · exact lt_trans h (by decide)

lemma InTable.lt_size {t : Bool} {page : ℕ} (h : InTable t page) : page < (Table.of t).size := by
  rcases h with h | ⟨rfl, h⟩
  · exact lt_size_of_lt t h
  · exact lt_trans h (by decide)

/-- The other entry of the pair the page belongs to. -/
lemma InTable.pair {t : Bool} {page : ℕ} (h : InTable t page) :
    page ||| 1 < (Table.of t).size := by
  rcases h with h | ⟨rfl, h⟩
  · exact lt_size_of_lt t (Nat.or_lt_two_pow (n := 9) h (by norm_num))
  · have := Word.or_one_le page
    show page ||| 1 < 546
    omega

/-- All subscripts are old or sound. -/
def Adds (t : Bool) (page : ℕ) (s s' : Pager) : Prop :=
  ∀ r ∈ s'.refs, r ∈ s.refs ∨ Sound t page r

lemma Adds.of_eq {t : Bool} {page : ℕ} {s s' : Pager} (h : s'.refs = s.refs) :
    Adds t page s s' := fun _ hr => Or.inl (h ▸ hr)

lemma Adds.trans {t : Bool} {page : ℕ} {s₁ s₂ s₃ : Pager} (h₁ : Adds t page s₁ s₂)
    (h₂ : Adds t page s₂ s₃) : Adds t page s₁ s₃ := fun r hr =>
  (h₂ r hr).elim (h₁ r) Or.inr

lemma Adds.cons {t : Bool} {page : ℕ} {s s' : Pager} {r : Ref} (hr : Sound t page r)
    (h : s'.refs = r :: s.refs) : Adds t page s s' := by
  intro q hq
  rw [h, List.mem_cons] at hq
  rcases hq with rfl | hq
  · exact Or.inr hr
  · exact Or.inl hq

lemma adds_look {t : Bool} {page : ℕ} (hp : InTable t page) (s : Pager) :
    Adds t page s (s.look (.of t) page) :=
  Adds.cons ⟨by simp, rfl, hp.lt_size, fun _ => rfl⟩ rfl

lemma adds_fill {t : Bool} {page i : ℕ} (hi : i < (Table.of t).size) (v : ℕ) (s : Pager) :
    Adds t page s (s.setTlb .fill (.of t) i v) :=
  Adds.cons ⟨by simp, rfl, hi, by simp⟩ rfl

lemma sectEnd_refs (c : Config) (page : ℕ) (p : Ptr) (s : Pager) :
    (sectEnd c page p s).2.refs = s.refs := by
  rw [sectEnd]
  dsimp only
  split
  · rfl
  split
  · split <;> rfl
  · rfl

lemma adds_pageEnd {c : Config} {uf : Bool} {page : ℕ} (hp : InTable uf page) (wr : Bool) (p : Ptr)
    (s : Pager) : Adds uf page s (pageEnd c uf page wr p s).2 := by
  rw [pageEnd]
  dsimp only
  split
  · exact Adds.of_eq rfl
  split
  · split
    · exact Adds.of_eq rfl
    split
    · exact Adds.of_eq rfl
    · exact Adds.cons ⟨by simp, rfl, hp.lt_size, by simp⟩ rfl
  · exact Adds.cons ⟨by simp, rfl, hp.lt_size, by simp⟩ rfl

lemma adds_loadT20 (fuel : ℕ) {c : Config} {uf : Bool} {page : ℕ} (hp : InTable uf page)
    (wr : Bool) (s : Pager) : Adds uf page s (loadT20 fuel c uf page wr s).2 := by
  rw [loadT20]
  split
  · exact Adds.of_eq rfl
  · exact Adds.of_eq rfl
  rename_i p hp'
  rw [loadPage]
  have hsect := sectEnd_refs c page p s
  split
  · rename_i s' heq
    rw [heq] at hsect
    exact Adds.of_eq hsect
  rename_i q s' heq
  rw [heq] at hsect
  split
  · exact Adds.of_eq hsect
  · exact Adds.of_eq hsect
  · exact (Adds.of_eq hsect).trans (adds_pageEnd hp wr _ s')

lemma adds_loadKi {uf : Bool} {page : ℕ} (hp : InTable uf page) (s : Pager) :
    Adds uf page s (loadKi uf page s).2 := by
  have hpage : page &&& 0o1776 < (Table.of uf).size := lt_of_le_of_lt Nat.and_le_left hp.lt_size
  exact ((adds_fill hpage _ s).trans (adds_fill hp.pair _ _)).trans (adds_look hp _)

lemma adds_loadIts {c : Config} {uf : Bool} {page : ℕ} (hp : InTable uf page) (wr : Bool)
    (s : Pager) : Adds uf page s (loadIts c uf page wr s).2 := by
  have hlow : page &&& 0o776 ≤ 0o776 := Nat.and_le_right
  have hpage : page &&& 0o776 < 0o1000 := by omega
  have hpair : page &&& 0o776 ||| 1 < 0o1000 := Nat.or_lt_two_pow (n := 9) hpage (by norm_num)
  have hstore : ∀ (s' : Pager) (v w : ℕ), s'.refs = s.refs → Adds uf page s
      (((s'.setTlb .fill (.of uf) (page &&& 0o776) v).setTlb .fill (.of uf)
        (page &&& 0o776 ||| 1) w).look (.of uf) page) := fun s' v w hs' =>
    (((Adds.of_eq hs').trans (adds_fill (lt_size_of_lt uf hpage) _ _)).trans
      (adds_fill (lt_size_of_lt uf hpair) _ _)).trans (adds_look hp _)
  rw [loadIts]
  dsimp only
  split
  · exact Adds.of_eq rfl
  · exact Adds.of_eq rfl
  · exact hstore _ _ _ rfl
  · exact hstore _ _ _ rfl
  · split
    · exact Adds.of_eq rfl
    · exact hstore _ _ _ rfl
  · split
    · exact Adds.of_eq rfl
    · exact hstore _ _ _ rfl
  · split
    · exact Adds.of_eq rfl
    · exact hstore _ _ _ rfl

/-- The walk forms sound subscripts only. -/
lemma adds_loadTlb (fuel : ℕ) {c : Config} {uf : Bool} {page : ℕ} (hp : InTable uf page)
    (wr : Bool) (s : Pager) : Adds uf page s (loadTlb fuel c uf page wr s).2 := by
  rw [loadTlb]
  split
  · exact adds_loadIts hp wr s
  split
  · exact adds_loadT20 fuel hp wr s
  · exact adds_loadKi hp s

lemma adds_refill (fuel : ℕ) {c : Config} {a : Access} {t : Bool} {page : ℕ} (hp : InTable t page)
    (s : Pager) : Adds t page s (s.refill fuel c a t page).2 := by
  unfold refill
  dsimp only
  generalize (if c.build = .kl ∧ c.klb ∧ s.t20Page
    ∧ s.tlb (.of t) page >>> 18 &&& 0o37 ≠ s.sect then 0 else s.tlb (.of t) page) = data
  split
  · exact (adds_look hp s).trans (adds_loadTlb fuel hp a.wr _)
  · exact adds_look hp s

/-! ### The subscripts of a lookup -/

/-- All subscripts are in range, and an entry that is invalidated is the one that was looked up. -/
def TlbSafe (s : Pager) : Prop :=
  (∀ r ∈ s.refs, r.idx < r.tab.size) ∧
    ∀ r ∈ s.refs, r.use = .clear → ∀ l ∈ s.refs, l.use = .look → l.tab = r.tab ∧ l.idx = r.idx

lemma tlbSafe_of_sound {t : Bool} {page : ℕ} {s : Pager} (h : ∀ r ∈ s.refs, Sound t page r) :
    s.TlbSafe :=
  ⟨fun r hr => (h r hr).idx, fun r hr hclear => absurd hclear (h r hr).use⟩

/-- No subscripts are safe. -/
lemma tlbSafe_of_nil {s : Pager} (h : s.refs = []) : s.TlbSafe :=
  ⟨fun r hr => by simp [h] at hr, fun r hr => by simp [h] at hr⟩

/-- Invalidating the entry that the lookup uses is safe. -/
lemma tlbSafe_clear {t : Bool} {page : ℕ} (hp : InTable t page) {s s' : Pager}
    (h : ∀ r ∈ s.refs, Sound t page r) (hs' : s'.refs = ⟨.clear, .of t, page⟩ :: s.refs) :
    s'.TlbSafe := by
  have hmem : ∀ r ∈ s'.refs, r = ⟨.clear, .of t, page⟩ ∨ Sound t page r := fun r hr => by
    rw [hs', List.mem_cons] at hr
    exact hr.imp_right (h r)
  refine ⟨fun r hr => ?_, fun r hr hclear l hl hlook => ?_⟩
  · rcases hmem r hr with rfl | hr
    · exact hp.lt_size
    · exact hr.idx
  · rcases hmem r hr with rfl | hr
    · rcases hmem l hl with rfl | hl
      · cases hlook
      · exact ⟨hl.tab, hl.here hlook⟩
    · exact absurd hclear hr.use

/-- An access error is found for the entry `data`. -/
def Errs (c : Config) (a : Access) (pub : Bool) (data : ℕ) (s : Pager) : Prop :=
  ¬ (c.build = .ks ∧ s.memSize ≤ location c a data)
    ∧ isPrivate c a pub data (location c a data) s = false ∧ isDenied a data = true

/-- An entry is invalidated exactly when an access error is found. -/
lemma check_refs (c : Config) (a : Access) (uf pub : Bool) (page data : ℕ) (s : Pager) :
    (Errs c a pub data s
        ∧ (check c a uf pub page data s).2.refs = ⟨.clear, .of uf, page⟩ :: s.refs)
      ∨ (¬ Errs c a pub data s ∧ (check c a uf pub page data s).2.refs = s.refs) := by
  unfold check Errs
  dsimp only
  split
  · rename_i hnxm
    exact Or.inr ⟨fun h => h.1 hnxm, rfl⟩
  rename_i hnxm
  split
  · rename_i hpriv
    exact Or.inr ⟨fun h => absurd hpriv (by simp [h.2.1]), rfl⟩
  rename_i hpriv
  split
  · rename_i hden
    exact Or.inl ⟨⟨hnxm, by simpa using hpriv, hden⟩, rfl⟩
  · rename_i hden
    refine Or.inr ⟨fun h => hden h.2.2, ?_⟩
    split <;> rfl

lemma mid_page {p : ℕ} (h : p &&& 0o740 = 0o340) (hp : p < 0o1000) : 0o340 ≤ p ∧ p < 0o400 := by
  have hfield : p &&& 0o740 = p / 2 ^ 5 % 2 ^ 4 * 2 ^ 5 := by
    rw [show (0o740 : ℕ) = (2 ^ 4 - 1) <<< 5 from rfl, Word.and_shiftLeft, Nat.shiftRight_eq_div_pow,
      Nat.and_two_pow_sub_one_eq_mod, Nat.shiftLeft_eq]
  omega

/-- The executive pages `0340`–`0377` are renumbered beyond the executive buffer. -/
lemma upmp_page {c : Config} {a : Access} {s : Pager} (h : a.upmp c s = true) :
    a.uf s = false ∧ s.t20Page = false ∧ c.its = false ∧ 0o1000 ≤ a.tlbPage c s
      ∧ a.tlbPage c s < 0o1040 := by
  rw [Access.tlbPage, if_pos h]
  simp only [Access.upmp, Bool.and_eq_true, Bool.not_eq_true', beq_iff_eq] at h
  obtain ⟨⟨⟨hits, huf⟩, ht20⟩, hpage⟩ := h
  have := mid_page hpage a.page_lt
  exact ⟨huf, ht20, hits, by omega, by omega⟩

lemma inTable_tlbPage (c : Config) (a : Access) (s : Pager) :
    InTable (a.uf s || a.upmp c s) (a.tlbPage c s) := by
  cases h : a.upmp c s with
  | true => exact Or.inr ⟨by simp, (upmp_page h).2.2.2.2⟩
  | false =>
      left
      rw [Access.tlbPage, h]
      exact a.page_lt

lemma setSect_frame (c : Config) (a : Access) (s : Pager) :
    a.setSect c s = { s with sect := (a.setSect c s).sect } := by
  rw [Access.setSect]
  split
  · rfl
  split
  · rfl
  split <;> rfl

/-- Up to the check of the access rights all subscripts are sound. -/
lemma sound_refill (fuel : ℕ) (c : Config) (a : Access) {s : Pager} (hrefs : s.refs = []) :
    ∀ r ∈ ((a.setSect c s).refill fuel c a (a.uf s || a.upmp c s) (a.tlbPage c s)).2.refs,
      Sound (a.uf s || a.upmp c s) (a.tlbPage c s) r := by
  intro r hr
  rcases adds_refill fuel (inTable_tlbPage c a s) _ r hr with hold | hsound
  · rw [setSect_frame, hrefs] at hold
    cases hold
  · exact hsound

/-- The entry of an executive page `0340`–`0377` under KI10 paging: that of the user's buffer or
else the half word of the user's page table. -/
def kiEntry (page : ℕ) (s : Pager) : ℕ :=
  if s.tlb .user page ≠ 0 then s.tlb .user page
  else if page % 2 = 0 then rmask &&& kiWord true page s >>> 18
  else rmask &&& kiWord true page s

/-- The defect: under KI10 paging an access error is found for one of the executive pages
`0340`–`0377`, which are entries of the user's buffer and are invalidated in the executive one. -/
def Misdirected (c : Config) (a : Access) (s : Pager) : Prop :=
  s.pageEnable = true ∧ a.isBreak c s = false ∧ a.upmp c s = true ∧
    let data := kiEntry (a.tlbPage c s) s
    ¬ (data = 0 ∧ s.pageFault = true) ∧ Errs c a (a.pub s) data s

lemma or_one_eq (p : ℕ) : p ||| 1 = p / 2 * 2 + 1 := by
  have hadd : p / 2 * 2 ||| 1 = p / 2 * 2 + 1 :=
    Word.or_eq_add (i := 1) ⟨p / 2, Nat.mul_comm _ _⟩ (by norm_num)
  rcases Nat.mod_two_eq_zero_or_one p with h | h
  · rwa [show p / 2 * 2 = p by lia] at hadd ⊢
  · have hp : p = p / 2 * 2 ||| 1 := by
      rw [hadd]
      omega
    conv_lhs => rw [hp, Nat.or_assoc, Nat.or_self, hadd]

lemma loadKi_fst (uf : Bool) {page : ℕ} (hp : page < 0o1040) (s : Pager) :
    (loadKi uf page s).1
      = if page % 2 = 0 then rmask &&& kiWord uf page s >>> 18 else rmask &&& kiWord uf page s := by
  have hmask : page &&& 0o1776 = page / 2 * 2 := by
    rw [show (0o1776 : ℕ) = (2 ^ 9 - 1) <<< 1 from rfl, Word.and_shiftLeft, Nat.shiftRight_eq_div_pow,
      Nat.and_two_pow_sub_one_eq_mod, Nat.shiftLeft_eq]
    lia
  have heven (h : page % 2 = 0) : page ||| 1 ≠ page ∧ page &&& 0o1776 = page := by
    rw [hmask, or_one_eq]
    omega
  have hodd (h : page % 2 ≠ 0) : page ||| 1 = page := by
    rw [or_one_eq]
    lia
  simp only [loadKi, setTlb, Function.update_self]
  split
  · rename_i h
    obtain ⟨hne, hself⟩ := heven h
    rw [Function.update_of_ne hne.symm, hself, Function.update_self]
  · rename_i h
    rw [hodd h, Function.update_self]

/-- What the lookup of such a page finds. -/
lemma refill_upmp (fuel : ℕ) {c : Config} {a : Access} {s : Pager} (h : a.upmp c s = true) :
    ∃ s', (a.setSect c s).refill fuel c a true (a.tlbPage c s)
        = (some (kiEntry (a.tlbPage c s) s), s')
      ∧ s'.mem = s.mem ∧ s'.memSize = s.memSize ∧ s'.pageFault = s.pageFault
      ∧ s'.t20Page = false := by
  obtain ⟨-, ht20, hits, -, hpage⟩ := upmp_page h
  rw [setSect_frame]
  have hold : ¬ (c.build = .kl ∧ c.klb = true ∧ s.t20Page = true ∧
      s.tlb (.of true) (a.tlbPage c s) >>> 18 &&& 0o37 ≠ (a.setSect c s).sect) := by
    simp [ht20]
  rw [refill]
  dsimp only
  rw [if_neg hold]
  split
  · rename_i hz
    rw [loadTlb, if_neg (by simp [hits]), if_neg (by simp [look, ht20])]
    refine ⟨_, Prod.ext (congrArg some ?_) rfl, rfl, rfl, rfl, ht20⟩
    rw [loadKi_fst true hpage]
    exact (if_neg (not_not.mpr hz)).symm
  · rename_i hz
    refine ⟨_, Prod.ext (congrArg some ?_) rfl, rfl, rfl, rfl, ht20⟩
    exact (if_pos hz).symm

/-- The check of the access rights reads the memory and its size only. -/
lemma errs_congr {c : Config} {a : Access} {pub : Bool} {data : ℕ} {s s' : Pager}
    (hmem : s'.mem = s.mem) (hsize : s'.memSize = s.memSize) :
    Errs c a pub data s' ↔ Errs c a pub data s := by
  unfold Errs isPrivate
  rw [hmem, hsize]

/-- A lookup invalidates what it uses, unless the page is renumbered. -/
lemma tlbSafe_of_not_upmp (fuel : ℕ) {c : Config} {a : Access} {s : Pager} (hrefs : s.refs = [])
    (h : a.upmp c s = false) : (pageLookup fuel c a s).2.TlbSafe := by
  have hsound := sound_refill fuel c a hrefs
  have hin := inTable_tlbPage c a s
  have ht : (a.uf s || a.upmp c s) = a.uf s := by rw [h, Bool.or_false]
  rw [ht] at hsound hin
  -- what the check of the rights does to a state with sound subscripts
  have hcheck : ∀ {s' : Pager} (data : ℕ), (∀ r ∈ s'.refs, Sound (a.uf s) (a.tlbPage c s) r) →
      (check c a (a.uf s) (a.pub s) (a.tlbPage c s) data s').2.TlbSafe := by
    intro s' data hs'
    rcases check_refs c a (a.uf s) (a.pub s) (a.tlbPage c s) data s' with ⟨-, hr⟩ | ⟨-, hr⟩
    · exact tlbSafe_clear hin hs' hr
    · exact tlbSafe_of_sound (hr ▸ hs')
  rw [pageLookup]
  split
  · exact tlbSafe_of_nil hrefs
  split
  · exact tlbSafe_of_nil hrefs
  dsimp only
  split
  · refine tlbSafe_of_nil ?_
    show (a.setSect c s).refs = []
    rw [setSect_frame]
    exact hrefs
  rw [ht]
  split
  · rename_i s' heq
    rw [heq] at hsound
    exact tlbSafe_of_sound hsound
  rename_i data s' heq
  rw [heq] at hsound
  split
  · refine tlbSafe_of_sound (s := s'.walkFault c a (a.uf s)) fun r hr => hsound r ?_
    rw [walkFault] at hr
    dsimp only at hr
    split at hr <;> exact hr
  split
  · refine hcheck _ fun r hr => ?_
    have hr' : r ∈ (⟨.fill, .of (a.uf s), a.tlbPage c s⟩ : Ref) :: s'.refs := by
      rw [firstWrite] at hr
      dsimp only at hr
      split at hr <;> exact hr
    rw [List.mem_cons] at hr'
    rcases hr' with rfl | hr'
    · exact ⟨by simp, rfl, hin.lt_size, by simp⟩
    · exact hsound r hr'
  · exact hcheck data hsound

/-- For a page that is renumbered an entry is invalidated in the wrong buffer. -/
lemma tlbSafe_iff_of_upmp (fuel : ℕ) {c : Config} {a : Access} {s : Pager} (hrefs : s.refs = [])
    (hpage : s.pageEnable = true) (h : a.upmp c s = true) :
    (pageLookup fuel c a s).2.TlbSafe ↔ ¬ Misdirected c a s := by
  obtain ⟨huf, ht20, -, hlow, -⟩ := upmp_page h
  obtain ⟨s', heq, hmem, hsize, hfault, hs20⟩ := refill_upmp fuel h
  have hsound := sound_refill fuel c a hrefs
  rw [h, Bool.or_true, heq] at hsound
  have hsect : (a.setSect c s).t20Page = false := by rw [setSect_frame]; exact ht20
  rw [pageLookup, Misdirected]
  dsimp only
  rw [if_neg (by simp [hpage])]
  by_cases hbreak : a.isBreak c s = true
  · rw [if_pos hbreak]
    have hsafe : TlbSafe (s.pageFail (a.addr ||| 0o23 <<< 30 ||| userBit s.user)) :=
      tlbSafe_of_nil hrefs
    exact iff_of_true hsafe fun hmis => absurd hmis.2.1 (by simp [hbreak])
  rw [if_neg hbreak, if_neg (by simp [hsect]), h, Bool.or_true, heq]
  dsimp only
  rw [hfault]
  by_cases hfail : kiEntry (a.tlbPage c s) s = 0 ∧ s.pageFault = true
  · rw [if_pos hfail]
    have hsafe : (s'.walkFault c a (a.uf s)).TlbSafe := by
      refine tlbSafe_of_sound fun r hr => hsound r ?_
      rw [walkFault] at hr
      dsimp only at hr
      split at hr <;> exact hr
    exact iff_of_true hsafe fun hmis => hmis.2.2.2.1 hfail
  rw [if_neg hfail, if_neg (by simp [isFirstWrite, hs20])]
  have hbreak' : a.isBreak c s = false := by simpa using hbreak
  rcases check_refs c a (a.uf s) (a.pub s) (a.tlbPage c s) (kiEntry (a.tlbPage c s) s) s' with
    ⟨herr, hr⟩ | ⟨herr, hr⟩ <;> rw [errs_congr hmem hsize] at herr
  · refine iff_of_false (fun hsafe => ?_) (not_not.mpr ⟨hpage, hbreak', rfl, hfail, herr⟩)
    have hidx := hsafe.1 ⟨.clear, .of (a.uf s), a.tlbPage c s⟩ (by rw [hr]; exact List.mem_cons_self)
    rw [huf] at hidx
    have : a.tlbPage c s < 512 := hidx
    omega
  · refine iff_of_true (tlbSafe_of_sound (hr ▸ hsound)) fun hmis => herr hmis.2.2.2.2

/-- The lookup for the front end forms sound subscripts only. -/
lemma tlbSafe_execPageLookup (fuel : ℕ) (c : Config) (addr : ℕ) (wr : Bool) {s : Pager}
    (hrefs : s.refs = []) : (execPageLookup fuel c addr wr s).2.TlbSafe := by
  rw [execPageLookup]
  split
  · exact tlbSafe_of_nil hrefs
  dsimp only
  set upmp : Bool := !s.t20Page && page { addr := addr, flag := true, wr := wr } &&& 0o740 == 0o340
    with hupmp
  set page : ℕ := if upmp then page { addr := addr, flag := true, wr := wr } + (0o1000 - 0o340)
    else page { addr := addr, flag := true, wr := wr } with hpage
  have hin : InTable upmp page := by
    rw [hpage]
    split
    · rename_i hup
      have hmid := hup
      rw [hupmp, Bool.and_eq_true, beq_iff_eq] at hmid
      have := mid_page hmid.2 (Access.page_lt _)
      exact Or.inr ⟨hup, by omega⟩
    · exact Or.inl (Access.page_lt _)
  have hadds : ∀ s' : Pager, Adds upmp page s s' → s'.TlbSafe := fun s' h =>
    tlbSafe_of_sound fun r hr => (h r hr).resolve_left fun hold => by simp [hrefs] at hold
  have hlook := adds_look hin s
  split
  · have hload := adds_loadTlb fuel (c := c) hin wr { s.look (.of upmp) page with sect := 0 }
    split
    · rename_i s' heq
      rw [heq] at hload
      exact hadds _ (hlook.trans hload)
    · rename_i s' heq
      rw [heq] at hload
      exact hadds _ (hlook.trans hload)
    · rename_i data s' heq
      rw [heq] at hload
      exact hadds _ (hlook.trans hload)
  · exact hadds _ hlook

end Pager

/-- **The subscripts into the translation buffers**: with paging on, all that a lookup of
`page_lookup` (the walk of `load_tlb` included) forms are in range and an entry invalidated is the
one looked up, exactly when the access does not meet an access error on one of the executive pages
`0340`–`0377` under KI10 paging. Those that `exec_page_lookup` forms always are. -/
theorem tlb_subscripts_iff {c : Config} (fuel : ℕ) (a : Access) {s : Pager}
    (hpage : s.pageEnable = true) (hrefs : s.refs = []) :
    ((s.pageLookup fuel c a).2.TlbSafe ↔ ¬ Pager.Misdirected c a s)
      ∧ ∀ addr wr, (Pager.execPageLookup fuel c addr wr s).2.TlbSafe := by
  refine ⟨?_, fun addr wr => Pager.tlbSafe_execPageLookup fuel c addr wr hrefs⟩
  cases h : a.upmp c s with
  | true => exact Pager.tlbSafe_iff_of_upmp fuel hrefs hpage h
  | false =>
      refine iff_of_true (Pager.tlbSafe_of_not_upmp fuel hrefs h) fun hmis => ?_
      rw [hmis.2.2.1] at h
      cases h

/-- A read of location `0340000` without access invalidates the entry `01000` of the executive
buffer, which has `01000` entries. -/
theorem tlb_subscripts_fail :
    ¬ ∀ (fuel : ℕ) (a : Access) (s : Pager), s.pageEnable = true → s.refs = [] →
      (s.pageLookup fuel { build := .ks } a).2.TlbSafe := by
  intro h
  have hsafe := h 0 { addr := 0o340000 } Pager.blank rfl rfl
  have hidx := hsafe.1 ⟨.clear, .exec, 0o1000⟩ (by decide)
  exact absurd hidx (by decide)

/-- A read of location `01000`. -/
theorem tlb_subscripts_low :
    (Pager.blank.pageLookup 0 { build := .ks } { addr := 0o1000 }).2.TlbSafe :=
  (tlb_subscripts_iff 0 { addr := 0o1000 } (s := Pager.blank) rfl rfl).1.mpr
    fun hmis => absurd hmis.2.2.1 (by decide)

end Ka10Simh.Pdp10
