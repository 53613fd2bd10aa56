import Ka10Simh.Pdp10.Pager.Lookup

/-!
The accesses of the front end to the memory of a KL10: `Mem_examine_word`, `Mem_deposit_word`,
`Mem_read_byte` and `Mem_write_byte`, which translate with `exec_page_lookup`.

They are made between two instructions of the program that runs, and should leave its section and its
page fault alone.

* `Console`: the pager, with a record of the lookups and of the shifts that were made.
* `Op.run`: the four accesses, and a lookup by itself.
* `Pager.Maps`: a page that the walk finds and that may be accessed.
* `Op.frame_iff`: the section, the page fault and its word are as before exactly when all pages looked up
  were there, or when a failed lookup happens to leave what was there.
-/

namespace Ka10Simh.Pdp10

open Iterate

/-! ### The source -/

/-- A lookup that was made, with the pager before it. -/
structure Asked where
  addr : ℕ
  wr : Bool
  pager : Pager

/-- A shift: its count, and how many bits the shifted value has. -/
structure Shift where
  count : ℤ
  width : ℕ
  deriving DecidableEq

/-- The count is one that C defines the shift for. -/
def Shift.Ok (h : Shift) : Prop := 0 ≤ h.count ∧ h.count < h.width

/-- The pager, the lookups and the shifts that an access has made, last first. -/
structure Console where
  pager : Pager
  asked : List Asked := []
  shifts : List Shift := []

namespace Console

/-- `M[a] = v`. -/
def put (a v : ℕ) (x : Console) : Console :=
  { x with pager := { x.pager with mem := Function.update x.pager.mem a v } }

/-- Note a shift. -/
def shift (count : ℤ) (width : ℕ) (x : Console) : Console := { x with shifts := ⟨count, width⟩ :: x.shifts }

/-- A word of the part of the EPT that a DTE `n` has. -/
def slot (offset n : ℕ) (x : Console) : ℕ := offset + 8 * n + x.pager.ebPtr

/-- `exec_page_lookup`. -/
def look (fuel : ℕ) (c : Config) (addr : ℕ) (wr : Bool) (x : Console) : Looked × Console :=
  let r := Pager.execPageLookup fuel c addr wr x.pager
  (r.1, { x with pager := r.2, asked := ⟨addr, wr, x.pager⟩ :: x.asked })

/-- `Mem_examine_word`: the word, unless it returns 1. The outer `none` is a walk that goes on. -/
def examine (fuel : ℕ) (c : Config) (n wrd : ℕ) (x : Console) : Option (Option ℕ) × Console :=
  let addr := x.slot 0o144 n
  if x.pager.memSize ≤ addr then (some none, x)
  else if x.pager.mem addr = 0 ∨ x.pager.mem addr < wrd then (some none, x)
  else
    match x.look fuel c (x.pager.mem (addr + 1) + wrd &&& rmask) false with
    | (.running, x) => (none, x)
    | (.fault, x) => (some none, x)
    | (.loc a, x) => (some (some (x.pager.mem a)), x)

/-- `Mem_deposit_word`: whether it returns 0. -/
def deposit (fuel : ℕ) (c : Config) (n wrd data : ℕ) (x : Console) : Option Bool × Console :=
  let addr := x.slot 0o146 n
  if x.pager.memSize ≤ addr then (some false, x)
  else if x.pager.mem addr = 0 ∨ x.pager.mem addr < wrd then (some false, x)
  else
    match x.look fuel c (x.pager.mem (addr + 1) + wrd &&& rmask) true with
    | (.running, x) => (none, x)
    | (.fault, x) => (some false, x)
    | (.loc a, x) => (some true, x.put a data)

/-- The size in a byte pointer. -/
def sizeOf (val : ℕ) : ℕ := val >>> 24 &&& 0o77

/-- The position of the next byte to the right in the same word. -/
def rightOf (val : ℕ) : ℕ := ((val >>> 30 &&& 0o77) + (0o777 ^^^ sizeOf val) + 1) &&& 0o777

/-- The position of the first byte of a word. -/
def firstOf (val : ℕ) : ℕ := (36 + (0o777 ^^^ sizeOf val) + 1) &&& 0o777

/-- The position of the byte after the one pointed at, and the pointer to it. -/
def advance (val : ℕ) : ℕ × ℕ :=
  if rightOf val &&& 0o400 ≠ 0 then
    (firstOf val,
      ((val &&& lmask) ||| (val + 1 &&& rmask)) &&& pmask ||| (firstOf val &&& 0o77) <<< 30)
  else (rightOf val, val &&& pmask ||| (rightOf val &&& 0o77) <<< 30)

/-- The pointer at `addr` is advanced, and the page of its byte looked up. -/
def next (fuel : ℕ) (c : Config) (addr : ℕ) (wr : Bool) (x : Console) : Looked × Console :=
  let ptr := (advance (x.pager.mem addr)).2
  (x.put addr ptr).look fuel c (ptr &&& rmask) wr

/-- A loop over the bytes of an access: the bits that it still needs, the datum so far or still, and the
size of the last byte. -/
structure Bytes where
  need : ℤ
  data : ℕ
  size : ℕ
  con : Console

/-- How such a loop ends: with what it returns, or in a walk that goes on. -/
abbrev BytesEnd : Type := Option ℕ × ℕ × Console

/-- The byte of size `s` at position `p` of `M[a]` is taken. A shift that C leaves undefined is noted, and
has some value here. -/
def Bytes.take (t : Bytes) (s p a : ℕ) (x : Console) : Bytes :=
  let need := if s > 8 then t.need - 16 else t.need - 8
  let byte := x.pager.mem a >>> p &&& (1 <<< s - 1)
  { need
    data := if 0 ≤ need then (t.data ||| byte <<< need.toNat) % 2 ^ 16 else t.data
    size := s
    con :=
      if 0 ≤ need then ((x.shift s 64).shift p 64).shift need 64 else (x.shift s 64).shift p 64 }

/-- One turn of the loop of `Mem_read_byte`. -/
def readTurn (fuel : ℕ) (c : Config) (n : ℕ) (t : Bytes) : Bytes ⊕ BytesEnd :=
  let addr := t.con.slot 0o140 n
  if t.need ≤ 0 then .inr (some t.size, t.data, t.con)
  else if t.con.pager.memSize ≤ addr then .inr (some 0, t.data, t.con)
  else
    match t.con.next fuel c addr false with
    | (.running, x) => .inr (none, t.data, x)
    | (.fault, x) => .inr (some 0, t.data, x)
    | (.loc a, x) =>
      let val := t.con.pager.mem addr
      .inl (t.take (sizeOf val) (advance val).1 a x)

/-- `Mem_read_byte`: what it returns, and `*data`. -/
def readByte (fuel : ℕ) (c : Config) (n : ℕ) (byte : Bool) (x : Console) : Bytes ⊕ BytesEnd :=
  run (readTurn fuel c n) fuel ⟨if byte then 8 else 16, 0, 0, x⟩

/-- The byte of size `s` at position `p` of `M[a]` is stored. `dat >> (need - s)` is a shift of an
`int`. -/
def Bytes.give (t : Bytes) (s p a : ℕ) (x : Console) : Bytes :=
  let msk := (1 <<< s - 1) <<< p % 2 ^ 64
  let val := x.pager.mem a &&& (fmask ^^^ msk) ||| msk &&& (t.data >>> (t.need - s).toNat) <<< p
  { need := t.need - s
    data := t.data
    size := s
    con := ((((x.shift s 64).shift p 64).shift (t.need - s) 32).shift p 64).put a val }

/-- One turn of the loop of `Mem_write_byte`. -/
def writeTurn (fuel : ℕ) (c : Config) (n : ℕ) (t : Bytes) : Bytes ⊕ BytesEnd :=
  let addr := t.con.slot 0o141 n
  let val := t.con.pager.mem addr
  if t.need ≤ 0 then .inr (some t.size, t.data, t.con)
  else if t.con.pager.memSize ≤ addr then .inr (some 0, t.data, t.con)
  else if val = 0 then .inr (some 1, t.data, t.con)
  else
    match t.con.next fuel c addr true with
    | (.running, x) => .inr (none, t.data, x)
    | (.fault, x) => .inr (some 0, t.data, x)
    | (.loc a, x) => .inl (t.give (sizeOf val) (advance val).1 a x)

/-- The two bytes of a datum exchanged. -/
def swap (d : ℕ) : ℕ := (d >>> 8 &&& 0o377) ||| (d &&& 0o377) <<< 8

/-- `Mem_write_byte`. -/
def writeByte (fuel : ℕ) (c : Config) (n dat : ℕ) (x : Console) : Bytes ⊕ BytesEnd :=
  run (writeTurn fuel c n) fuel ⟨16, swap dat, 0, x⟩

end Console

/-! ### A walk that is made for the front end -/

namespace Pager

/-- What the program sees of the pager between two instructions. -/
structure Frame (s s' : Pager) : Prop where
  sect : s'.sect = s.sect
  pageFault : s'.pageFault = s.pageFault
  faultData : s'.faultData = s.faultData

lemma Frame.refl (s : Pager) : Frame s s := ⟨rfl, rfl, rfl⟩

lemma Frame.trans {s₁ s₂ s₃ : Pager} (h : Frame s₁ s₂) (h' : Frame s₂ s₃) : Frame s₁ s₃ :=
  ⟨h'.sect.trans h.sect, h'.pageFault.trans h.pageFault, h'.faultData.trans h.faultData⟩

/-- The access of ITS to a page: the first two bits of its half word. -/
def itsAccess (uf : Bool) (page : ℕ) (s : Pager) : ℕ :=
  s.mem (dbr uf page s + (page &&& 0o377) >>> 2) >>> (if page &&& 2 = 0 then 34 else 16) &&& 3

/-- The half word of a page under KI10 paging. -/
def kiHalf (uf : Bool) (page : ℕ) (s : Pager) : ℕ :=
  if page % 2 = 0 then rmask &&& kiWord uf page s >>> 18 else rmask &&& kiWord uf page s

/-- On a KL10 no loop of a walk leaves a fault word. -/
lemma follow_fault {c : Config} (hkl : c.build = .kl) {s : Pager} {l : Level} {p : Ptr} {n d : ℕ} {w : List ℕ}
    (h : run (follow c s l) n p = .inr (.fault d w)) : d = 0 := by
  have hrun : (run (follow c s l) n p).elim (fun _ ↦ True) (fun r ↦ ∀ d w, r = .fault d w → d = 0) := by
    refine run_invariant trivial (fun _ _ _ _ ↦ trivial) ?_ n
    intro q r _ hr d w heq
    have hno : ¬ q.NoSect c l := fun hno ↦ by
      rw [hno.1] at hkl
      cases hkl
    subst heq
    rw [follow, if_neg hno] at hr
    split_ifs at hr <;> simp_all
  rw [h] at hrun
  exact hrun d w rfl

lemma sectEnd_some {c : Config} {page : ℕ} {p q : Ptr} {s s' : Pager}
    (h : sectEnd c page p s = (some q, s')) : s'.sect = s.sect ∧ Frame s s' := by
  unfold sectEnd at h
  dsimp only at h
  split_ifs at h <;> cases h <;> exact ⟨rfl, rfl, rfl, rfl⟩

lemma sectEnd_none {c : Config} {page : ℕ} {p : Ptr} {s s' : Pager}
    (h : sectEnd c page p s = (none, s')) : s'.sect = s.sect ∧ s'.faultData = 0 := by
  unfold sectEnd at h
  dsimp only at h
  split_ifs at h <;> cases h <;> exact ⟨rfl, rfl⟩

lemma tlbEntry_ne_zero (c : Config) (s : Pager) (pg acc cstVal : ℕ) : tlbEntry c s pg acc cstVal ≠ 0 := by
  simp [tlbEntry, Nat.or_eq_zero_iff]

/-- The page of the pointer is in core and may be used. -/
def Usable (c : Config) (wr : Bool) (q : Ptr) (s : Pager) : Prop :=
  q.data &&& pgStg = 0 ∧ (s.cstBase ≠ 0 → s.mem (s.cstBase + (q.data &&& c.pgPag)) &&& pgAge ≠ 0 ∧
    (wr = true → q.accBits &&& pgWrt ≠ 0))

lemma pageEnd_loads (c : Config) (uf : Bool) (page : ℕ) (wr : Bool) (q : Ptr) (s : Pager) :
    ((pageEnd c uf page wr q s).1 ≠ 0 ↔ s.Usable c wr q) ∧ (pageEnd c uf page wr q s).2.sect = s.sect ∧
      ((pageEnd c uf page wr q s).1 ≠ 0 → Frame s (pageEnd c uf page wr q s).2) ∧
      ((pageEnd c uf page wr q s).1 = 0 → (pageEnd c uf page wr q s).2.faultData = 0) := by
  have hfail (s' : Pager) (hs : s'.sect = s.sect) (hno : ¬ s.Usable c wr q) :
      (((0, s'.pageFail 0) : ℕ × Pager).1 ≠ 0 ↔ s.Usable c wr q) ∧ (s'.pageFail 0).sect = s.sect ∧
        ((0 : ℕ) ≠ 0 → Frame s (s'.pageFail 0)) ∧ ((0 : ℕ) = 0 → (s'.pageFail 0).faultData = 0) :=
    ⟨iff_of_false (fun h ↦ h rfl) hno, hs, fun h ↦ absurd rfl h, fun _ ↦ rfl⟩
  have hstore (s' : Pager) (d : ℕ) (hd : d ≠ 0) (hs : Frame s s') (hyes : s.Usable c wr q) :
      (d ≠ 0 ↔ s.Usable c wr q) ∧ s'.sect = s.sect ∧ (d ≠ 0 → Frame s s') ∧ (d = 0 → s'.faultData = 0) :=
    ⟨iff_of_true hd hyes, hs.sect, fun _ ↦ hs, fun h ↦ absurd h hd⟩
  unfold pageEnd
  dsimp only
  by_cases hstg : q.data &&& pgStg = 0
  · rw [if_neg (not_not.mpr hstg)]
    have hbase : ({ s with words := q.words } : Pager).cstBase = s.cstBase := rfl
    rw [hbase]
    by_cases hcst : s.cstBase = 0
    · rw [if_neg (not_not.mpr hcst)]
      exact hstore _ _ (tlbEntry_ne_zero _ _ _ _ _) ⟨rfl, rfl, rfl⟩ ⟨hstg, fun h ↦ absurd hcst h⟩
    · rw [if_pos hcst]
      by_cases hage : s.mem (s.cstBase + (q.data &&& c.pgPag)) &&& pgAge = 0
      · rw [if_pos hage]
        exact hfail _ rfl fun h ↦ (h.2 hcst).1 hage
      · rw [if_neg hage]
        by_cases hwr : q.accBits &&& pgWrt = 0 ∧ wr = true
        · rw [if_pos hwr]
          exact hfail _ rfl fun h ↦ (h.2 hcst).2 hwr.2 hwr.1
        · rw [if_neg hwr]
          refine hstore _ _ (tlbEntry_ne_zero _ _ _ _ _) ⟨rfl, rfl, rfl⟩ ⟨hstg, fun _ ↦ ⟨hage, fun hw hacc ↦ ?_⟩⟩
          exact hwr ⟨hacc, hw⟩
  · rw [if_pos hstg]
    exact hfail _ rfl fun h ↦ hstg h.1

/-- Under TOPS-20 paging: the section pointer leads to a page table in core, the pointer there to a page,
and that can be used. -/
def T20Maps (c : Config) (uf : Bool) (page : ℕ) (wr : Bool) (s : Pager) : Prop :=
  ∃ p q s' q', Finds c s .sect (sectPtr c uf s) p ∧ sectEnd c page p s = (some q, s') ∧
    Finds c s' .page q q' ∧ s'.Usable c wr q'

lemma loads_t20 {fuel : ℕ} {c : Config} (hkl : c.build = .kl) {uf : Bool} {page : ℕ} {wr : Bool}
    {s s' : Pager} {d : ℕ} (h : loadT20 fuel c uf page wr s = (some d, s')) :
    (d ≠ 0 ↔ s.T20Maps c uf page wr) ∧ s'.sect = s.sect ∧ (d ≠ 0 → Frame s s') ∧ (d = 0 → s'.faultData = 0) := by
  have hfail {s' : Pager} (hs : s'.sect = s.sect) (hword : s'.faultData = 0) (hno : ¬ s.T20Maps c uf page wr) :
      ((0 : ℕ) ≠ 0 ↔ s.T20Maps c uf page wr) ∧ s'.sect = s.sect ∧ ((0 : ℕ) ≠ 0 → Frame s s') ∧
        ((0 : ℕ) = 0 → s'.faultData = 0) :=
    ⟨iff_of_false (fun h ↦ h rfl) hno, hs, fun h ↦ absurd rfl h, fun _ ↦ hword⟩
  rw [loadT20] at h
  rcases hrun : run (follow c s .sect) fuel (sectPtr c uf s) with p | ⟨p | ⟨e, words⟩⟩
  · simp [hrun] at h
  · simp only [hrun, loadPage] at h
    rcases hend : sectEnd c page p s with ⟨_ | q, s₁⟩
    · simp only [hend, Prod.mk.injEq, Option.some.injEq] at h
      obtain ⟨rfl, rfl⟩ := h
      obtain ⟨hsect, hword⟩ := sectEnd_none hend
      refine hfail hsect hword ?_
      rintro ⟨p', q, s₂, q', ⟨n, hn⟩, hend', -⟩
      cases run_unique hrun hn
      rw [hend] at hend'
      cases hend'
    · obtain ⟨hsect, hframe⟩ := sectEnd_some hend
      rcases hpg : run (follow c s₁ .page) fuel q with q' | ⟨q' | ⟨e, words⟩⟩
      · simp [hend, hpg] at h
      · simp only [hend, hpg, Prod.mk.injEq, Option.some.injEq] at h
        obtain ⟨rfl, rfl⟩ := h
        obtain ⟨husable, hsect', hkept, hword⟩ := pageEnd_loads c uf page wr q' s₁
        refine ⟨husable.trans ⟨fun hu ↦ ⟨p, q, s₁, q', ⟨fuel, hrun⟩, hend, ⟨fuel, hpg⟩, hu⟩, ?_⟩,
          hsect'.trans hsect, fun hd ↦ hframe.trans (hkept hd), hword⟩
        rintro ⟨p₂, q₂, s₂, q₂', ⟨n, hn⟩, hend', ⟨m, hm⟩, hu⟩
        cases run_unique hrun hn
        rw [hend] at hend'
        cases hend'
        cases run_unique hpg hm
        exact hu
      · simp only [hend, hpg, Prod.mk.injEq, Option.some.injEq] at h
        obtain ⟨rfl, rfl⟩ := h
        refine hfail hsect (follow_fault hkl hpg) ?_
        rintro ⟨p₂, q₂, s₂, q₂', ⟨n, hn⟩, hend', ⟨m, hm⟩, -⟩
        cases run_unique hrun hn
        rw [hend] at hend'
        cases hend'
        cases run_unique hpg hm
  · simp only [hrun, Prod.mk.injEq, Option.some.injEq] at h
    obtain ⟨rfl, rfl⟩ := h
    refine hfail rfl (follow_fault hkl hrun) ?_
    rintro ⟨p₂, q₂, s₂, q₂', ⟨n, hn⟩, -⟩
    cases run_unique hrun hn

/-- The page is there. -/
def Maps (c : Config) (uf : Bool) (page : ℕ) (wr : Bool) (s : Pager) : Prop :=
  if c.its = true ∧ s.t20Page = true then
    s.itsAccess uf page = 3 ∨ s.itsAccess uf page ≠ 0 ∧ wr = false
  else if s.t20Page = true then T20Maps c uf page wr s
  else s.kiHalf uf page ≠ 0

/-- The fault word that a walk leaves when the page is not there. -/
def failWord (c : Config) (uf : Bool) (page : ℕ) (s : Pager) : ℕ :=
  if c.its = true ∧ s.t20Page = true then if s.itsAccess uf page = 0 then 0o33 <<< 30 else 0o24 <<< 30
  else if s.t20Page = true then 0
  else s.faultData

/-- What a walk that has ended leaves. -/
structure Loads (c : Config) (uf : Bool) (page : ℕ) (wr : Bool) (s : Pager) (d : ℕ) (s' : Pager) : Prop where
  maps : d ≠ 0 ↔ s.Maps c uf page wr
  sect : s'.sect = s.sect
  kept : d ≠ 0 → Frame s s'
  word : d = 0 → s'.faultData = s.failWord c uf page

/-- Marking a page as used leaves its access. -/
lemma bits_of_marked (m j : ℕ) : (Word.bic m (0o160000 <<< j) >>> j &&& rmask) >>> 16 = m >>> (16 + j) &&& 3 := by
  refine Nat.eq_of_testBit_eq fun k ↦ ?_
  have hmask : rmask.testBit (16 + k) = decide (16 + k < 18) := Nat.testBit_two_pow_sub_one 18 _
  have hthree : Nat.testBit 3 k = decide (k < 2) := Nat.testBit_two_pow_sub_one 2 k
  have hused : Nat.testBit 0o160000 (16 + k) = false := Nat.testBit_lt_two_pow (lt_of_lt_of_le (by decide : 0o160000 < 2 ^ 16) (Nat.pow_le_pow_right (by decide) (by omega)))
  simp only [Nat.testBit_shiftRight, Nat.testBit_and, Word.testBit_bic, Nat.testBit_shiftLeft, hmask, hthree,
    show 16 + j + k - j = 16 + k by omega, hused, Bool.and_false, Bool.not_false, Bool.and_true,
    show j + (16 + k) = 16 + j + k by omega]
  congr 1
  rw [decide_eq_decide]
  omega

lemma access_of_marked (m page : ℕ) :
    ((if page &&& 2 = 0 then
        Word.bic m (if page &&& 2 = 0 then 0o160000 <<< 18 else 0o160000) >>> 18
      else Word.bic m (if page &&& 2 = 0 then 0o160000 <<< 18 else 0o160000)) &&& rmask) >>> 16 =
      m >>> (if page &&& 2 = 0 then 34 else 16) &&& 3 := by
  split_ifs
  · exact bits_of_marked m 18
  · exact bits_of_marked m 0

/-- The pair of entries of a page. -/
lemma its_entry_ne_zero {page pg : ℕ} (hpage : page < 0o1000) (hpg : pg ≠ 0) (uf : Bool) (s : Pager) :
    ((s.setTlb .fill (.of uf) (page &&& 0o776) pg).setTlb .fill (.of uf) (page &&& 0o776 ||| 1) (pg ||| 1)).tlb
      (.of uf) page ≠ 0 := by
  have hone : pg ||| 1 ≠ 0 := fun h ↦ by
    rw [Nat.or_eq_zero_iff] at h
    exact hpg h.1
  have hmask : page &&& 0o776 = page / 2 * 2 := by
    rw [show (0o776 : ℕ) = (2 ^ 8 - 1) <<< 1 from rfl, Word.and_shiftLeft, Nat.shiftRight_eq_div_pow,
      Nat.and_two_pow_sub_one_eq_mod, Nat.shiftLeft_eq]
    lia
  have hpair (h : page ≠ page &&& 0o776 ||| 1) : page = page &&& 0o776 := by
    rw [hmask, or_one_eq] at h
    rw [hmask]
    lia
  simp only [setTlb, Function.update_self]
  by_cases hodd : page = page &&& 0o776 ||| 1
  · rw [← hodd, Function.update_self]
    exact hone
  · rw [Function.update_of_ne hodd, ← hpair hodd, Function.update_self]
    exact hpg

lemma loads_its {c : Config} (hkl : c.build = .kl) (hits : c.its = true) {uf : Bool} {page : ℕ}
    (hpage : page < 0o1000) (wr : Bool) {s : Pager} (h20 : s.t20Page = true) :
    Loads c uf page wr s (loadIts c uf page wr s).1 (loadIts c uf page wr s).2 := by
  have hyes : c.its = true ∧ s.t20Page = true := ⟨hits, h20⟩
  have hacc := access_of_marked (s.mem (dbr uf page s + (page &&& 0o377) >>> 2)) page
  have hlt : s.itsAccess uf page < 4 := Nat.lt_of_le_of_lt Nat.and_le_right (by decide)
  have hmaps : s.Maps c uf page wr ↔ s.itsAccess uf page = 3 ∨ s.itsAccess uf page ≠ 0 ∧ wr = false := by
    rw [Maps, if_pos hyes]
  have hword : s.failWord c uf page = if s.itsAccess uf page = 0 then 0o33 <<< 30 else 0o24 <<< 30 := by
    rw [failWord, if_pos hyes]
  change _ = s.itsAccess uf page at hacc
  have hstore (s' : Pager) (hs : Frame s s') (pg : ℕ) (hpg : pg ≠ 0)
      (hyes : s.itsAccess uf page = 3 ∨ s.itsAccess uf page ≠ 0 ∧ wr = false) :
      Loads c uf page wr s (((s'.setTlb .fill (.of uf) (page &&& 0o776) pg).setTlb .fill (.of uf)
        (page &&& 0o776 ||| 1) (pg ||| 1)).tlb (.of uf) page) (((s'.setTlb .fill (.of uf) (page &&& 0o776) pg).setTlb
          .fill (.of uf) (page &&& 0o776 ||| 1) (pg ||| 1)).look (.of uf) page) :=
    have hne := its_entry_ne_zero hpage hpg uf s'
    ⟨iff_of_true hne (hmaps.mpr hyes), hs.sect, fun _ ↦ hs.trans ⟨rfl, rfl, rfl⟩, fun h ↦ absurd h hne⟩
  have hfail (s' : Pager) (hs : s'.sect = s.sect) (d : ℕ) (hd : d = s.failWord c uf page)
      (hno : ¬ (s.itsAccess uf page = 3 ∨ s.itsAccess uf page ≠ 0 ∧ wr = false)) :
      Loads c uf page wr s 0 (s'.pageFail d) :=
    ⟨iff_of_false (fun h ↦ h rfl) (mt hmaps.mp hno), hs, fun h ↦ absurd rfl h, fun _ ↦ hd⟩
  unfold loadIts
  simp only [hkl, reduceCtorEq, if_false, hacc]
  have hpg (d : ℕ) : pagA ||| d ≠ 0 := fun h ↦ by
    rw [Nat.or_eq_zero_iff] at h
    exact absurd h.1 (by decide)
  split
  · contradiction
  · rename_i h0 _
    refine hfail _ ?_ _ ?_ (by lia)
    · rfl
    · rw [hword, if_pos h0]
  · contradiction
  · rename_i h3 _
    refine hstore _ ?_ _ ?_ (Or.inl h3)
    · exact ⟨rfl, rfl, rfl⟩
    · rw [Nat.or_assoc]
      exact hpg _
  · contradiction
  · contradiction
  · rename_i hne hne' _ _ _ _
    cases wr with
    | true =>
        refine hfail _ ?_ _ ?_ (fun h ↦ h.elim hne' fun h ↦ absurd h.2 (by decide))
        · rfl
        · rw [hword, if_neg hne]
    | false =>
        refine hstore _ ?_ _ (hpg _) (Or.inr ⟨hne, rfl⟩)
        exact ⟨rfl, rfl, rfl⟩

lemma loads_ki {c : Config} {uf : Bool} {page : ℕ} (hpage : page < 0o1040) (wr : Bool) {s : Pager}
    (h20 : s.t20Page = false) : Loads c uf page wr s (loadKi uf page s).1 (loadKi uf page s).2 := by
  have hfst : (loadKi uf page s).1 = s.kiHalf uf page := loadKi_fst uf hpage s
  have hno : ¬ (c.its = true ∧ s.t20Page = true) := fun h ↦ by
    rw [h20] at h
    cases h.2
  refine ⟨?_, rfl, fun _ ↦ ⟨rfl, rfl, rfl⟩, fun _ ↦ ?_⟩
  · rw [hfst, Maps, if_neg hno, h20, if_neg Bool.false_ne_true]
  · rw [failWord, if_neg hno, h20, if_neg Bool.false_ne_true]
    rfl

/-- `load_tlb` on a KL10. -/
lemma loads_tlb {fuel : ℕ} {c : Config} (hkl : c.build = .kl) {uf : Bool} {page : ℕ} (hpage : page < 0o1040)
    {wr : Bool} {s s' : Pager} {d : ℕ} (hlow : s.t20Page = true → page < 0o1000)
    (h : loadTlb fuel c uf page wr s = (some d, s')) : Loads c uf page wr s d s' := by
  have hks : ¬ c.build = .ks := fun h ↦ by
    rw [hkl] at h
    cases h
  unfold loadTlb at h
  by_cases h20 : s.t20Page = true
  · by_cases hits : c.its = true
    · rw [if_pos ⟨hits, Or.inr h20⟩] at h
      simp only [Prod.mk.injEq, Option.some.injEq] at h
      obtain ⟨rfl, rfl⟩ := h
      exact loads_its hkl hits (hlow h20) wr h20
    · have hno : ¬ (c.its = true ∧ s.t20Page = true) := fun h ↦ hits h.1
      rw [if_neg fun h ↦ hits h.1, if_pos h20] at h
      obtain ⟨hmaps, hsect, hkept, hword⟩ := loads_t20 hkl h
      refine ⟨?_, hsect, hkept, ?_⟩
      · rwa [Maps, if_neg hno, if_pos h20]
      · rwa [failWord, if_neg hno, if_pos h20]
  · have hoff : s.t20Page = false := Bool.eq_false_iff.mpr h20
    have hno : ¬ (c.its = true ∧ (c.build = .ks ∨ s.t20Page = true)) := fun h ↦ h.2.elim hks h20
    rw [if_neg hno, if_neg h20] at h
    simp only [Prod.mk.injEq, Option.some.injEq] at h
    obtain ⟨rfl, rfl⟩ := h
    exact loads_ki hpage wr hoff

/-! ### A lookup -/

/-- An executive page that KI10 paging maps through the user's table. -/
def upmpOf (addr : ℕ) (s : Pager) : Bool :=
  !s.t20Page && Access.page { addr := addr, flag := true } &&& 0o740 == 0o340

/-- The page as it is numbered there. -/
def pageOf (addr : ℕ) (s : Pager) : ℕ :=
  if s.upmpOf addr then Access.page { addr := addr, flag := true } + (0o1000 - 0o340)
  else Access.page { addr := addr, flag := true }

/-- The pager that the walk is made on, in section 0. -/
def inZero (addr : ℕ) (s : Pager) : Pager := { s.look (.of (s.upmpOf addr)) (s.pageOf addr) with sect := 0 }

/-- What leaves the program alone: an address that is physical or in the translation buffer, a page that
is there, or else the state that a failure leaves. -/
def Spares (c : Config) (addr : ℕ) (wr : Bool) (s : Pager) : Prop :=
  s.pageEnable = false ∨
    (s.tlb (.of (s.upmpOf addr)) (s.pageOf addr) ≠ 0 ∧
      s.tlb (.of (s.upmpOf addr)) (s.pageOf addr) &&& 0o37 = 0) ∨
    (s.inZero addr).Maps c (s.upmpOf addr) (s.pageOf addr) wr ∨
    (s.sect = 0 ∧ s.pageFault = false ∧
      s.faultData = (s.inZero addr).failWord c (s.upmpOf addr) (s.pageOf addr))

lemma pageOf_lt (addr : ℕ) (s : Pager) : s.pageOf addr < 0o1040 := by
  have hlt := Access.page_lt { addr := addr, flag := true }
  unfold pageOf
  split
  · rename_i h
    rw [upmpOf, Bool.and_eq_true, beq_iff_eq] at h
    have hlow := mid_page h.2 hlt
    omega
  · omega

/-- **A lookup**: one that ends leaves the program alone exactly when it has found the page, or fails in
a state that is the one it leaves. -/
theorem execPageLookup_frame {fuel : ℕ} {c : Config} (hkl : c.build = .kl) {addr : ℕ} {wr : Bool}
    {s s' : Pager} {r : Looked} (h : execPageLookup fuel c addr wr s = (r, s')) (hr : r ≠ .running) :
    (Frame s s' ↔ s.Spares c addr wr) ∧ (r ≠ .fault → Frame s s') := by
  have hgood (hframe : Frame s s') (hsp : s.Spares c addr wr) :
      (Frame s s' ↔ s.Spares c addr wr) ∧ (r ≠ .fault → Frame s s') := ⟨iff_of_true hframe hsp, fun _ ↦ hframe⟩
  unfold execPageLookup at h
  by_cases hon : s.pageEnable = true
  swap
  · have hoff : s.pageEnable = false := Bool.eq_false_iff.mpr hon
    rw [hoff] at h
    cases h
    exact hgood (.refl s) (Or.inl hoff)
  have hup : (!s.t20Page && Access.page { addr := addr, flag := true, wr := wr } &&& 0o740 == 0o340) =
      s.upmpOf addr := rfl
  have hpage : (if s.upmpOf addr = true then
      Access.page { addr := addr, flag := true, wr := wr } + (0o1000 - 0o340)
      else Access.page { addr := addr, flag := true, wr := wr }) = s.pageOf addr := rfl
  have hzero : ({ s.look (.of (s.upmpOf addr)) (s.pageOf addr) with sect := 0 } : Pager) = s.inZero addr := rfl
  simp only [hon, Bool.not_true, Bool.false_eq_true, if_false, hup, hpage, hzero] at h
  by_cases hmiss : s.tlb (.of (s.upmpOf addr)) (s.pageOf addr) = 0 ∨
    s.tlb (.of (s.upmpOf addr)) (s.pageOf addr) &&& 0o37 ≠ 0
  swap
  · rw [if_neg hmiss] at h
    cases h
    rw [not_or, not_not] at hmiss
    exact hgood ⟨rfl, rfl, rfl⟩ (Or.inr (Or.inl hmiss))
  rw [if_pos hmiss] at h
  have hlow : (s.inZero addr).t20Page = true → s.pageOf addr < 0o1000 := by
    intro h20
    have hup : s.upmpOf addr = false := by
      change s.t20Page = true at h20
      rw [upmpOf, h20]
      rfl
    rw [pageOf, hup]
    exact Access.page_lt _
  rcases hload : loadTlb fuel c (s.upmpOf addr) (s.pageOf addr) wr (s.inZero addr) with ⟨_ | d, s₁⟩
  · rw [hload] at h
    cases h
    exact absurd rfl hr
  obtain ⟨hmaps, hsect, hkept, hword⟩ := loads_tlb hkl (pageOf_lt addr s) hlow hload
  rw [hload] at h
  cases d with
  | zero =>
      cases h
      refine ⟨⟨fun hf ↦ ?_, ?_⟩, fun h ↦ absurd rfl h⟩
      · exact Or.inr (Or.inr (Or.inr ⟨hf.sect.symm.trans hsect, hf.pageFault.symm, hf.faultData.symm.trans (hword rfl)⟩))
      · rintro (hoff | ⟨hne, hvalid⟩ | hm | ⟨h0, hpf, hfd⟩)
        · rw [hoff] at hon
          cases hon
        · exact absurd hvalid (hmiss.resolve_left hne)
        · exact absurd rfl (hmaps.mpr hm)
        · exact ⟨hsect.trans h0.symm, hpf.symm, (hword rfl).trans hfd.symm⟩
  | succ d =>
      have hd : d + 1 ≠ 0 := Nat.succ_ne_zero d
      have hframe := hkept hd
      cases h
      exact hgood ⟨rfl, hframe.pageFault, hframe.faultData⟩ (Or.inr (Or.inr (Or.inl (hmaps.mp hd))))

end Pager

/-! ### The accesses -/

/-- A lookup by itself, and the four accesses. -/
inductive Op
  | lookup (addr : ℕ) (wr : Bool)
  | examine (n wrd : ℕ)
  | deposit (n wrd data : ℕ)
  | readByte (n : ℕ) (byte : Bool)
  | writeByte (n dat : ℕ)

/-- What an access leaves, if it has ended. -/
def Op.run (fuel : ℕ) (c : Config) (s : Pager) : Op → Option Console
  | lookup addr wr =>
    let r := (⟨s, [], []⟩ : Console).look fuel c addr wr
    if r.1 = .running then none else some r.2
  | examine n wrd =>
    let r := (⟨s, [], []⟩ : Console).examine fuel c n wrd
    if r.1 = none then none else some r.2
  | deposit n wrd data =>
    let r := (⟨s, [], []⟩ : Console).deposit fuel c n wrd data
    if r.1 = none then none else some r.2
  | readByte n byte =>
    match (⟨s, [], []⟩ : Console).readByte fuel c n byte with
    | .inl _ => none
    | .inr r => if r.1 = none then none else some r.2.2
  | writeByte n dat =>
    match (⟨s, [], []⟩ : Console).writeByte fuel c n dat with
    | .inl _ => none
    | .inr r => if r.1 = none then none else some r.2.2

namespace Console

/-- All lookups so far have left the program alone, and it sees the pager as it was. -/
structure Clean (c : Config) (s : Pager) (x : Console) : Prop where
  frame : Pager.Frame s x.pager
  asked : ∀ l ∈ x.asked, l.pager.Spares c l.addr l.wr

/-- The program sees the pager as it was exactly when all lookups have left it alone. -/
def Told (c : Config) (s : Pager) (x : Console) : Prop :=
  Pager.Frame s x.pager ↔ ∀ l ∈ x.asked, l.pager.Spares c l.addr l.wr

/-- A loop over bytes at a turn: it goes on clean, or it has ended. -/
def Turned (c : Config) (s : Pager) (e : Bytes ⊕ BytesEnd) : Prop :=
  e.elim (fun t ↦ Clean c s t.con) fun r ↦ r.1 ≠ none → Told c s r.2.2

lemma Clean.told {c : Config} {s : Pager} {x : Console} (h : Clean c s x) : Told c s x :=
  iff_of_true h.frame h.asked

lemma clean_start (c : Config) (s : Pager) : Clean c s ⟨s, [], []⟩ := ⟨.refl s, fun _ h ↦ nomatch h⟩

lemma Clean.put {c : Config} {s : Pager} {x : Console} (h : Clean c s x) (a v : ℕ) : Clean c s (x.put a v) :=
  ⟨⟨h.frame.sect, h.frame.pageFault, h.frame.faultData⟩, h.asked⟩

lemma Clean.shift {c : Config} {s : Pager} {x : Console} (h : Clean c s x) (count : ℤ) (width : ℕ) :
    Clean c s (x.shift count width) := ⟨h.frame, h.asked⟩

/-- One more lookup, that is the last when it fails. -/
lemma Clean.look {fuel : ℕ} {c : Config} (hkl : c.build = .kl) {s : Pager} {x x' : Console} (h : Clean c s x)
    {addr : ℕ} {wr : Bool} {r : Looked} (hlook : x.look fuel c addr wr = (r, x')) (hr : r ≠ .running) :
    Told c s x' ∧ (r ≠ .fault → Clean c s x') := by
  obtain ⟨hiff, hloc⟩ := @Pager.execPageLookup_frame _ _ hkl _ _ _ x'.pager r (by
    rw [Console.look] at hlook
    cases hlook
    rfl) hr
  have hasked : x'.asked = ⟨addr, wr, x.pager⟩ :: x.asked := by
    rw [Console.look] at hlook
    cases hlook
    rfl
  have hframe : Pager.Frame s x'.pager ↔ Pager.Frame x.pager x'.pager :=
    ⟨fun hf ↦ ⟨hf.sect.trans h.frame.sect.symm, hf.pageFault.trans h.frame.pageFault.symm,
      hf.faultData.trans h.frame.faultData.symm⟩, h.frame.trans⟩
  have htold : Told c s x' := by
    rw [Told, hframe, hiff, hasked, List.forall_mem_cons]
    exact (and_iff_left h.asked).symm
  refine ⟨htold, fun hf ↦ ?_⟩
  have hnow := hframe.mpr (hloc hf)
  exact ⟨hnow, htold.mp hnow⟩

section Accesses

variable {fuel : ℕ} {c : Config} (hkl : c.build = .kl) {s : Pager} {x x' : Console}

include hkl

lemma Clean.examine (h : Clean c s x) {n wrd : ℕ} {r : Option (Option ℕ)} (hr : r ≠ none)
    (hrun : x.examine fuel c n wrd = (r, x')) : Told c s x' := by
  unfold Console.examine at hrun
  dsimp only at hrun
  split_ifs at hrun
  · cases hrun
    exact h.told
  · cases hrun
    exact h.told
  · rcases hlook : x.look fuel c (x.pager.mem (x.slot 0o144 n + 1) + wrd &&& rmask) false with ⟨_ | _ | _, x₁⟩
    · rw [hlook] at hrun
      cases hrun
      exact (h.look hkl hlook nofun).1
    · rw [hlook] at hrun
      cases hrun
      exact (h.look hkl hlook nofun).1
    · rw [hlook] at hrun
      cases hrun
      exact absurd rfl hr

lemma Clean.deposit (h : Clean c s x) {n wrd data : ℕ} {r : Option Bool} (hr : r ≠ none)
    (hrun : x.deposit fuel c n wrd data = (r, x')) : Told c s x' := by
  unfold Console.deposit at hrun
  dsimp only at hrun
  split_ifs at hrun
  · cases hrun
    exact h.told
  · cases hrun
    exact h.told
  · rcases hlook : x.look fuel c (x.pager.mem (x.slot 0o146 n + 1) + wrd &&& rmask) true with ⟨a | _ | _, x₁⟩
    · rw [hlook] at hrun
      cases hrun
      exact (((h.look hkl hlook nofun).2 nofun).put a data).told
    · rw [hlook] at hrun
      cases hrun
      exact (h.look hkl hlook nofun).1
    · rw [hlook] at hrun
      cases hrun
      exact absurd rfl hr

/-- One more byte. -/
lemma Clean.next (h : Clean c s x) {addr : ℕ} {wr : Bool} {r : Looked}
    (hnext : x.next fuel c addr wr = (r, x')) (hr : r ≠ .running) : Told c s x' ∧ (r ≠ .fault → Clean c s x') :=
  (h.put addr _).look hkl hnext hr

omit hkl in
lemma Clean.take (h : Clean c s x) (t : Bytes) (size p a : ℕ) : Clean c s (t.take size p a x).con := by
  unfold Bytes.take
  dsimp only
  generalize (if size > 8 then t.need - 16 else t.need - 8) = need
  split_ifs
  · exact ((h.shift _ _).shift _ _).shift _ _
  · exact (h.shift _ _).shift _ _

omit hkl in
lemma Clean.give (h : Clean c s x) (t : Bytes) (size p a : ℕ) : Clean c s (t.give size p a x).con :=
  ((((h.shift _ _).shift _ _).shift _ _).shift _ _).put _ _

lemma Clean.readTurn {n : ℕ} {t : Bytes} (h : Clean c s t.con) : Turned c s (readTurn fuel c n t) := by
  unfold Console.readTurn
  dsimp only
  split_ifs
  · exact fun _ ↦ h.told
  · exact fun _ ↦ h.told
  · rcases hnext : t.con.next fuel c (t.con.slot 0o140 n) false with ⟨a | _ | _, x₁⟩
    · exact ((h.next hkl hnext nofun).2 nofun).take ..
    · exact fun _ ↦ (h.next hkl hnext nofun).1
    · exact fun hne ↦ absurd rfl hne

lemma Clean.writeTurn {n : ℕ} {t : Bytes} (h : Clean c s t.con) : Turned c s (writeTurn fuel c n t) := by
  unfold Console.writeTurn
  dsimp only
  split_ifs
  · exact fun _ ↦ h.told
  · exact fun _ ↦ h.told
  · exact fun _ ↦ h.told
  · rcases hnext : t.con.next fuel c (t.con.slot 0o141 n) true with ⟨a | _ | _, x₁⟩
    · exact ((h.next hkl hnext nofun).2 nofun).give ..
    · exact fun _ ↦ (h.next hkl hnext nofun).1
    · exact fun hne ↦ absurd rfl hne

omit hkl in
/-- A loop over bytes. -/
lemma Clean.run {body : Bytes → Bytes ⊕ BytesEnd} (hbody : ∀ t, Clean c s t.con → Turned c s (body t))
    {t : Bytes} (h : Clean c s t.con) (n : ℕ) : Turned c s (Iterate.run body n t) := by
  refine run_invariant (P := fun t : Bytes ↦ Clean c s t.con) h ?_ ?_ n
  · intro t t' ht heq
    have hturn := hbody t ht
    rwa [heq] at hturn
  · intro t r ht heq
    have hturn := hbody t ht
    rwa [heq] at hturn

end Accesses

end Console

namespace Op

open Console

variable {fuel : ℕ} {c : Config} {s : Pager}

/-- An access that has ended. -/
lemma told_run (hkl : c.build = .kl) {op : Op} {x : Console} (h : op.run fuel c s = some x) : Told c s x := by
  have hclean := clean_start c s
  have hbytes {body : Bytes → Bytes ⊕ BytesEnd} (hbody : ∀ t, Clean c s t.con → Turned c s (body t))
      (need : ℤ) (data : ℕ)
      (hend : (match Iterate.run body fuel ⟨need, data, 0, ⟨s, [], []⟩⟩ with
        | .inl _ => none
        | .inr r => if r.1 = none then none else some r.2.2) = some x) : Told c s x := by
    have hrun := Clean.run hbody (t := ⟨need, data, 0, ⟨s, [], []⟩⟩) hclean fuel
    split at hend
    · cases hend
    · rename_i r heq
      rw [heq] at hrun
      split_ifs at hend with hnone
      cases hend
      exact hrun hnone
  cases op with
  | lookup addr wr =>
      simp only [Op.run] at h
      split_ifs at h with hrunning
      cases h
      exact (hclean.look hkl rfl hrunning).1
  | examine n wrd =>
      simp only [Op.run] at h
      split_ifs at h with hnone
      cases h
      exact hclean.examine hkl hnone rfl
  | deposit n wrd data =>
      simp only [Op.run] at h
      split_ifs at h with hnone
      cases h
      exact hclean.deposit hkl hnone rfl
  | readByte n byte => exact hbytes (fun t ht ↦ ht.readTurn hkl) _ _ h
  | writeByte n dat => exact hbytes (fun t ht ↦ ht.writeTurn hkl) _ _ h

/-- **What an access of the front end leaves to the program**: the current section, the page fault and
its word are as before exactly when every lookup that was made found its page, or failed in a state that
is the one a failure leaves: section 0, no page fault, and the word of that failure. -/
theorem frame_iff (hkl : c.build = .kl) {op : Op} {x : Console} (h : op.run fuel c s = some x) :
    Pager.Frame s x.pager ↔ ∀ l ∈ x.asked, l.pager.Spares c l.addr l.wr :=
  told_run hkl h

/-- A program in section 1, and an EPT in which the console finds a list of words. -/
def inSectionOne : Pager :=
  { Pager.blank with t20Page := true, sect := 1, mem := fun a ↦ if a = 0o144 then 1 else 0 }

/-- The same with paging off. -/
def unpaged : Pager := { inSectionOne with pageEnable := false }

/-- An examine there. -/
theorem frame_unpaged : ∃ x, Op.run 0 { build := .kl } unpaged (.examine 0 0) = some x ∧
    (Pager.Frame unpaged x.pager ↔ ∀ l ∈ x.asked, l.pager.Spares { build := .kl } l.addr l.wr) := by
  obtain ⟨x, hx⟩ : ∃ x, Op.run 0 { build := .kl } unpaged (.examine 0 0) = some x := ⟨_, rfl⟩
  exact ⟨x, hx, frame_iff rfl hx⟩

/-- An examine of a page that is not there leaves section 0. -/
theorem frame_fails :
    ¬ ∀ (fuel : ℕ) (c : Config) (s : Pager) (op : Op) (x : Console), c.build = .kl →
      op.run fuel c s = some x → Pager.Frame s x.pager := by
  intro h
  have hsect : (Op.run 1 { build := .kl } inSectionOne (.examine 0 0)).map (·.pager.sect) = some 0 := by
    decide
  obtain ⟨x, hx, hzero⟩ := Option.map_eq_some_iff.mp hsect
  have hframe := (h 1 { build := .kl } inSectionOne (.examine 0 0) x rfl hx).sect
  rw [hzero] at hframe
  exact absurd hframe (by decide)

end Op

end Ka10Simh.Pdp10
