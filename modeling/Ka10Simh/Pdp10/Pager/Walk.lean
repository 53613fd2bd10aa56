import Ka10Simh.Lib.Bits
import Ka10Simh.Lib.Iterate
import Ka10Simh.Pdp10.Pager.Basic

/-!
The page walk of the KL10 and the KS10: `load_tlb`.

Under TOPS-20 paging a virtual page is found through a section pointer, a page table and the
pointers of that table. A pointer is immediate, shared (the word is in the table at `spt`) or
indirect (the word is in another page table, the page of which the table at `spt` gives); the two
loops over indirect pointers, `sect_loop` and `pg_loop`, are one body here. The core status table
at `cst` has a word for each physical page that is used.

* `Pager`: the registers, the memory and the two translation buffers, with a record of the
  subscripts formed into them.
* `follow`: one turn of `sect_loop` or `pg_loop`.
* `loadTlb`: the walk, which fills the translation buffer; the loops take fuel, and `none` says
  that it did not last.
-/

namespace Ka10Simh.Pdp10

/-! ### The words of TOPS-20 paging -/

/-- `PG_PUB`, `PG_WRT`, `PG_KEP`, `PG_CAC`: the access bits of a pointer. -/
abbrev pgPub : ℕ := 0o40000
abbrev pgWrt : ℕ := 0o20000
abbrev pgKep : ℕ := 0o10000
abbrev pgCac : ℕ := 0o4000
/-- `PG_STG`, the page is not in core. -/
abbrev pgStg : ℕ := 0o77000000
/-- `PG_IDX`, the index of an indirect pointer. -/
abbrev pgIdx : ℕ := 0o777
/-- `PG_MASK`, the address in a base register. -/
abbrev pgMask : ℕ := 0o3777777
/-- `PG_AGE`, the age in a word of the core status table. -/
abbrev pgAge : ℕ := 0o770000000000

/-- `PG_PAG`, a physical page number. -/
def Config.pgPag (c : Config) : ℕ := if c.build = .ks then 0o3777 else 0o17777

/-- The bits of an entry that are kept, `SECTM|RMASK` on the KL10 and `RMASK` on the KS10. -/
def Config.tlbMask (c : Config) : ℕ := if c.build = .ks then 0o777777 else 0o7777777777

/-- `KL_PAG_A`, `P`, `W`, `S`, `C`: the bits of an entry of a translation buffer, accessible,
public, writable now, writable, cacheable. -/
abbrev pagA : ℕ := 0o400000
abbrev pagP : ℕ := 0o200000
abbrev pagW : ℕ := 0o100000
abbrev pagS : ℕ := 0o40000
abbrev pagC : ℕ := 0o20000

/-! ### The state -/

/-- The registers the pager reads. -/
structure Regs where
  pageEnable : Bool
  t20Page : Bool
  /-- The bits `USER`, `USERIO`, `PUBLIC`, `PRV_PUB` and `ADRFLT` of `FLAGS`. -/
  user : Bool
  userio : Bool
  pub : Bool
  prvPub : Bool
  adrFlt : Bool
  xctFlag : ℕ
  ptrFlg : Bool
  byf5 : Bool
  sect : ℕ
  prevSect : ℕ
  globSect : Bool
  ubPtr : ℕ
  ebPtr : ℕ
  /-- `spt`, `cst`, `cst_dat`, `cst_msk`; the ITS pager uses them as `dbr1` to `dbr4`. -/
  spt : ℕ
  cst : ℕ
  cstDat : ℕ
  cstMsk : ℕ
  brkAddr : ℕ
  brkFlags : ℕ
  memSize : ℕ

/-- The pager: its registers, the memory, the translation buffers and what a fault leaves. -/
structure Pager extends Regs where
  mem : ℕ → ℕ
  tlb : Table → ℕ → ℕ
  faultData : ℕ
  pageFault : Bool
  /-- `irq_flags & NXM_MEM`. -/
  nxmMem : Bool
  /-- The subscripts formed into the translation buffers, last first. -/
  refs : List Ref
  /-- The subscripts formed into `M` by a walk, last first. -/
  words : List ℕ

namespace Pager

/-- Executive mode with paging on, empty buffers and a memory of zeros. -/
def blank : Pager where
  pageEnable := true
  t20Page := false
  user := false
  userio := false
  pub := false
  prvPub := false
  adrFlt := false
  xctFlag := 0
  ptrFlg := false
  byf5 := false
  sect := 0
  prevSect := 0
  globSect := false
  ubPtr := 0
  ebPtr := 0
  spt := 0
  cst := 0
  cstDat := 0
  cstMsk := 0
  brkAddr := 0o1000000
  brkFlags := 0
  memSize := 0o1000000
  mem := fun _ => 0
  tlb := fun _ _ => 0
  faultData := 0
  pageFault := false
  nxmMem := false
  refs := []
  words := []

/-- Note that an entry is looked at. -/
def look (t : Table) (i : ℕ) (s : Pager) : Pager := { s with refs := ⟨.look, t, i⟩ :: s.refs }

/-- Store into a translation buffer. -/
def setTlb (u : Use) (t : Table) (i v : ℕ) (s : Pager) : Pager :=
  { s with
    tlb := Function.update s.tlb t (Function.update (s.tlb t) i v)
    refs := ⟨u, t, i⟩ :: s.refs }

/-- Note a subscript formed into `M`. -/
def touch (a : ℕ) (s : Pager) : Pager := { s with words := a :: s.words }

/-- `fault_data = d; page_fault = 1`. -/
def pageFail (d : ℕ) (s : Pager) : Pager := { s with faultData := d, pageFault := true }

/-- The table of shared pages, `spt & PG_MASK`. -/
def sptBase (s : Pager) : ℕ := s.spt &&& pgMask

/-- The core status table, `cst & PG_MASK`; it is in use when that is not zero. -/
def cstBase (s : Pager) : ℕ := s.cst &&& pgMask

/-- Store the word of page `pg` in the core status table. -/
def setCst (pg v : ℕ) (s : Pager) : Pager :=
  { s with mem := Function.update s.mem (s.cstBase + pg) v }

end Pager

/-! ### The loops over indirect pointers -/

/-- The labels `sect_loop` and `pg_loop`. -/
inductive Level
  | sect | page
  deriving DecidableEq, Repr

/-- The page number an indirect pointer takes from the table of shared pages: a section pointer
takes `PG_PAG` of the word, a page pointer its whole right half. -/
def Level.pageMask (c : Config) : Level → ℕ
  | .sect => c.pgPag
  | .page => rmask

/-- Word `i` of the page `pg`: `(pg << 9) | i`, or with `+`, which is the same. -/
def inPage (pg i : ℕ) : ℕ := pg <<< 9 ||| i

/-- The state of the loops: the pointer met, the access bits left, and the subscripts formed. -/
structure Ptr where
  data : ℕ
  accBits : ℕ
  words : List ℕ

namespace Ptr

/-- The type of a pointer: immediate, shared, indirect, or else invalid. -/
def kind (p : Ptr) : ℕ := p.data >>> 33 &&& 7

/-- The word of the table of shared pages that a shared or an indirect pointer uses. -/
def slot (s : Pager) (p : Ptr) : ℕ := (p.data &&& rmask) + s.sptBase

/-- The index of an indirect pointer. -/
def index (p : Ptr) : ℕ := p.data >>> 18 &&& pgIdx

/-- The word an indirect pointer leads to. -/
def target (c : Config) (s : Pager) (l : Level) (p : Ptr) : ℕ :=
  inPage (s.mem (p.slot s) &&& l.pageMask c) p.index

/-- The access bits left by a pointer. -/
def accBitsLeft (p : Ptr) : ℕ := p.accBits &&& (p.data >>> 18 &&& rmask)

/-- A section pointer with an index: the KS10 has no sections but the first. -/
def NoSect (c : Config) (l : Level) (p : Ptr) : Prop := c.build = .ks ∧ l = .sect ∧ p.index ≠ 0

instance (c : Config) (l : Level) (p : Ptr) : Decidable (p.NoSect c l) :=
  inferInstanceAs (Decidable (_ ∧ _))

end Ptr

/-- What a loop ends with: the pointer found, or a fault. -/
inductive Chased
  | found (p : Ptr)
  | fault (faultData : ℕ) (words : List ℕ)

/-- One turn of `sect_loop` or `pg_loop`. -/
def follow (c : Config) (s : Pager) (l : Level) (p : Ptr) : Ptr ⊕ Chased :=
  if p.kind = 1 then .inr (.found { p with accBits := p.accBitsLeft })
  else if p.kind = 2 then
    .inr (.found ⟨s.mem (p.slot s), p.accBitsLeft, p.slot s :: p.words⟩)
  else if p.kind = 3 then
    if p.NoSect c l then
      .inr (.fault (0o37 <<< 30 ||| bit8 |||
        ((p.data &&& (pgIdx <<< 18 ||| rmask)) + s.sptBase)) p.words)
    else if s.mem (p.slot s) &&& pgStg ≠ 0 then .inr (.fault 0 (p.slot s :: p.words))
    else .inl ⟨s.mem (p.target c s l), p.accBitsLeft, p.target c s l :: p.slot s :: p.words⟩
  else .inr (.fault 0 p.words)

/-- From `p` the loop ends with the pointer `q`. -/
def Finds (c : Config) (s : Pager) (l : Level) (p q : Ptr) : Prop :=
  ∃ n, Iterate.run (follow c s l) n p = .inr (.found q)

/-! ### The walk under TOPS-20 paging -/

/-- The section pointer of the address space, and full access. -/
def sectPtr (c : Config) (uf : Bool) (s : Pager) : Ptr :=
  let base := if c.build = .kl ∧ c.klb then 0o540 + (s.sect &&& 0o37) else 0o540
  let a := (if uf then s.ubPtr else s.ebPtr) + base
  { data := s.mem a
    accBits := if c.build = .kl then pgPub ||| pgWrt ||| pgKep ||| pgCac else pgWrt ||| pgKep ||| pgCac
    words := a :: s.words }

/-- After `sect_loop`: the page table is in core and its word of the core status table is updated;
the walk goes on with the pointer of the page. -/
def sectEnd (c : Config) (page : ℕ) (p : Ptr) (s : Pager) : Option Ptr × Pager :=
  let s := { s with words := p.words }
  if p.data &&& pgStg ≠ 0 then (none, s.pageFail 0)
  else
    let pg := p.data &&& c.pgPag
    let next (s : Pager) : Option Ptr × Pager :=
      (some ⟨s.mem (inPage pg page), p.accBits, inPage pg page :: s.words⟩, s)
    if s.cstBase ≠ 0 then
      let cstVal := s.mem (s.cstBase + pg)
      let s := s.touch (s.cstBase + pg)
      if cstVal &&& pgAge = 0 then (none, s.pageFail 0)
      else next (s.setCst pg (cstVal &&& s.cstMsk ||| s.cstDat))
    else next s

/-- The entry of a page for the access bits left and for the word `cstVal` of the page. -/
def tlbEntry (c : Config) (s : Pager) (pg acc cstVal : ℕ) : ℕ :=
  pg ||| pagA
    ||| (if c.build = .kl ∧ acc &&& pgPub ≠ 0 then pagP else 0)
    ||| (if acc &&& pgWrt ≠ 0 ∧ cstVal &&& 1 ≠ 0 then pagW else 0)
    ||| (if acc &&& pgWrt ≠ 0 then pagS else 0)
    ||| (if acc &&& pgCac ≠ 0 then pagC else 0)
    ||| (if c.build = .kl ∧ c.klb then (s.sect &&& 0o37) <<< 18 else 0)

/-- After `pg_loop`: the page is in core and its word of the core status table is updated, with
the modified bit set for a write before the mask is applied; the entry is stored. -/
def pageEnd (c : Config) (uf : Bool) (page : ℕ) (wr : Bool) (p : Ptr) (s : Pager) : ℕ × Pager :=
  let s := { s with words := p.words }
  if p.data &&& pgStg ≠ 0 then (0, s.pageFail 0)
  else
    let pg := p.data &&& c.pgPag
    let store (cstVal : ℕ) (s : Pager) : ℕ × Pager :=
      let data := tlbEntry c s pg p.accBits cstVal
      (data, s.setTlb .fill (.of uf) page (data &&& c.tlbMask))
    if s.cstBase ≠ 0 then
      let cstVal := s.mem (s.cstBase + pg)
      let s := s.touch (s.cstBase + pg)
      if cstVal &&& pgAge = 0 then (0, s.pageFail 0)
      else if p.accBits &&& pgWrt = 0 ∧ wr then (0, s.pageFail 0)
      else
        let cstVal := if p.accBits &&& pgWrt ≠ 0 ∧ wr then cstVal ||| 1 else cstVal
        store cstVal (s.setCst pg (cstVal &&& s.cstMsk ||| s.cstDat))
    else store (if p.accBits &&& pgWrt ≠ 0 then 1 else 0) s

/-- The walk from the end of `sect_loop` on. -/
def loadPage (fuel : ℕ) (c : Config) (uf : Bool) (page : ℕ) (wr : Bool) (p : Ptr) (s : Pager) :
    Option ℕ × Pager :=
  match sectEnd c page p s with
  | (none, s) => (some 0, s)
  | (some q, s) =>
      match Iterate.run (follow c s .page) fuel q with
      | .inl q => (none, { s with words := q.words })
      | .inr (.fault d words) => (some 0, { s with words := words }.pageFail d)
      | .inr (.found q) =>
          let r := pageEnd c uf page wr q s
          (some r.1, r.2)

/-- `load_tlb` under TOPS-20 paging. -/
def loadT20 (fuel : ℕ) (c : Config) (uf : Bool) (page : ℕ) (wr : Bool) (s : Pager) :
    Option ℕ × Pager :=
  match Iterate.run (follow c s .sect) fuel (sectPtr c uf s) with
  | .inl p => (none, { s with words := p.words })
  | .inr (.fault d words) => (some 0, { s with words := words }.pageFail d)
  | .inr (.found p) => loadPage fuel c uf page wr p s

/-! ### The walk under ITS and KI10 paging -/

/-- The descriptor base register of a half of an address space. -/
def dbr (uf : Bool) (page : ℕ) (s : Pager) : ℕ :=
  if uf then if page &&& 0o400 ≠ 0 then s.cst else s.spt
  else if page &&& 0o400 ≠ 0 then s.cstDat else s.cstMsk

/-- `load_tlb` for ITS: a page of 1024 words has one half word, which is marked as used, and two
entries. -/
def loadIts (c : Config) (uf : Bool) (page : ℕ) (wr : Bool) (s : Pager) : ℕ × Pager :=
  let a := dbr uf page s + (page &&& 0o377) >>> 2
  let used := if c.build = .ks then 0o20000 else 0o160000
  let word := Word.bic (s.mem a) (if page &&& 2 = 0 then used <<< 18 else used)
  let s := { s with mem := Function.update s.mem a word }
  let data := (if page &&& 2 = 0 then word >>> 18 else word) &&& rmask
  let store (pg : ℕ) : ℕ × Pager :=
    let pg := pg ||| (data &&& (if c.build = .ks then 0o1777 else 0o17777)) <<< 1
    let s := s.setTlb .fill (.of uf) (page &&& 0o776) pg
    let s := s.setTlb .fill (.of uf) (page &&& 0o776 ||| 1) (pg ||| 1)
    (s.tlb (.of uf) page, s.look (.of uf) page)
  match data >>> 16, c.build with
  | 0, .ks => (0, s.pageFail 0)
  | 0, _ => (0, s.pageFail (0o33 <<< 30))
  | 3, .ks => store (pagA ||| pagW ||| pagS)
  | 3, _ => store (pagA ||| pagW)
  | 2, .ks =>
      if wr then (0, s.pageFail ((data >>> 16) <<< 28 ||| 0o10000 <<< 18))
      else store (pagS ||| pagA)
  | _, .ks =>
      if wr then (0, s.pageFail ((data >>> 16) <<< 28 ||| 0o10000 <<< 18)) else store pagA
  | _, _ => if wr then (0, s.pageFail (0o24 <<< 30)) else store pagA

/-- The word of a pair of pages in the page table of KI10 paging. -/
def kiWord (uf : Bool) (page : ℕ) (s : Pager) : ℕ :=
  if uf then s.mem (s.ubPtr + page >>> 1)
  else if page &&& 0o400 ≠ 0 then s.mem (s.ebPtr + page >>> 1)
  else s.mem (s.ebPtr + page >>> 1 + 0o600)

/-- `load_tlb` under KI10 paging: a word of the page table has the entries of two pages. -/
def loadKi (uf : Bool) (page : ℕ) (s : Pager) : ℕ × Pager :=
  let data := kiWord uf page s
  let s := s.setTlb .fill (.of uf) (page &&& 0o1776) (rmask &&& data >>> 18)
  let s := s.setTlb .fill (.of uf) (page ||| 1) (rmask &&& data)
  (s.tlb (.of uf) page, s.look (.of uf) page)

/-- `load_tlb`. -/
def loadTlb (fuel : ℕ) (c : Config) (uf : Bool) (page : ℕ) (wr : Bool) (s : Pager) :
    Option ℕ × Pager :=
  if c.its ∧ (c.build = .ks ∨ s.t20Page) then
    let r := loadIts c uf page wr s
    (some r.1, r.2)
  else if s.t20Page then loadT20 fuel c uf page wr s
  else
    let r := loadKi uf page s
    (some r.1, r.2)

end Ka10Simh.Pdp10
