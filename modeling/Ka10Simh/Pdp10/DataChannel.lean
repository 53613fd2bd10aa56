import Ka10Simh.Lib.Bits
import Ka10Simh.Lib.Block

/-!
The data channels of the PDP-10: DF10, DF10C and the RH10 interface.

* `Config`, `Df10`: a kind of channel, and its registers with the memory.
* `fetch`, `transfer`: the next control word, and the next word of data.
* `Listed`: the areas of a list of control words.
* `calls_transfer`: the words of a list go through the channel one by one.
-/

namespace Ka10Simh.Pdp10.DataChannel

open Word

/-! ### Channels -/

/-- A kind of channel: the widths of the address and of the count of a control word, the variant of ITS, the size of
the memory, and what is done to the status at the end. -/
structure Config where
  aBits : ℕ
  wBits : ℕ
  its : Bool
  memsize : ℕ
  fetchNxm : ℕ
  nxm : ℕ
  quit : ℕ → ℕ → ℕ
  its_widths : its = true → aBits = 18 ∧ wBits = 18

namespace Config

variable (c : Config)

/-- `amask`, `wmask`. -/
def amask : ℕ := 2 ^ c.aBits - 1
def wmask : ℕ := 2 ^ c.wBits - 1

end Config

/-- `BUSY`, `PI_ENABLE`, `CC_CHAN_ACT`, `CXR_NXM`, and the bits of `ICWA`. -/
abbrev busy : ℕ := 0o20
abbrev piEnable : ℕ := 0o10
abbrev ccChanAct : ℕ := 0o20000000000
abbrev cxrNxm : ℕ := 0o1000000
abbrev icwa : ℕ := 0o776

/-- Bits taken away. -/
def clear (status mask : ℕ) : ℕ := status ^^^ (status &&& mask)

/-- `df10_init`, and the channel of a KA10 with ITS. -/
def df10Init (df10c its : Bool) (memsize nxmerr : ℕ) : Config where
  aBits := if df10c = true then 22 else 18
  wBits := if df10c = true then 14 else 18
  its := its && !df10c
  memsize := memsize
  fetchNxm := nxmerr
  nxm := 1 <<< nxmerr
  quit flags status := clear status busy ||| flags
  its_widths h := by cases df10c <;> simp_all

/-- An RH10, with the masks of 22 bits or of 18. -/
def rh10 (wide : Bool) (memsize : ℕ) : Config where
  aBits := if wide = true then 22 else 18
  wBits := if wide = true then 14 else 18
  its := false
  memsize := memsize
  fetchNxm := 1
  nxm := 1
  quit nxm status := clear (clear status ccChanAct) busy ||| if nxm ≠ 0 then cxrNxm else 0
  its_widths h := absurd h Bool.false_ne_true

/-- The registers of a channel, with its interrupt and the memory. -/
structure Df10 where
  status : ℕ
  cia : ℕ
  ccw : ℕ
  wcr : ℕ
  cda : ℕ
  buf : ℕ
  irq : Bool
  mem : ℕ → ℕ

section Channel

variable (c : Config)

/-- `df10_writecw`, `rh_writecw`. -/
def writecw (s : Df10) : Df10 :=
  let s := if s.wcr ≠ 0 then { s with cda := s.cda + 1 } else s
  let wrd := (s.ccw &&& c.wmask) <<< c.aBits ||| s.cda &&& c.amask
  if s.cia ||| 1 < c.memsize then { s with mem := Function.update s.mem (s.cia ||| 1) wrd } else s

/-- `df10_finish_op`, `rh_finish_op`. -/
def finishOp (flags : ℕ) (s : Df10) : Df10 :=
  let s := writecw c { s with status := c.quit flags s.status }
  { s with status := s.status ||| piEnable, irq := true }

/-- `df10_setup`, `rh_setup`. -/
def setup (addr : ℕ) (s : Df10) : Df10 :=
  { s with cia := addr &&& icwa, ccw := addr &&& icwa, wcr := 0, status := s.status ||| busy }

/-- A control word that is taken. -/
def take (data : ℕ) (s : Df10) : Df10 :=
  if c.its = true then
    { s with
      wcr := data >>> c.aBits &&& 0o77777 ||| 0o700000
      cda := data &&& 0o777777 ||| (data >>> 15 &&& 0o7000000) ^^^ 0o7000000, ccw := s.ccw + 1 &&& c.amask }
  else { s with wcr := data >>> c.aBits &&& c.wmask, cda := data &&& c.amask, ccw := s.ccw + 1 &&& c.amask }

/-- The loop of `df10_fetch` and of `rh_fetch`, with the control word at hand. -/
def fetchLoop : ℕ → ℕ → Df10 → Option (Bool × Df10)
  | 0, _, _ => none
  | fuel + 1, data, s =>
      if data &&& c.wmask <<< c.aBits = 0 then
        let addr := data &&& c.amask
        if addr = 0 ∨ addr = s.ccw then some (false, finishOp c 0 s)
        else
          let s := { s with ccw := addr }
          if addr < c.memsize then fetchLoop fuel (s.mem addr) s else some (false, finishOp c c.nxm s)
      else some (true, take c data s)

/-- `df10_fetch`, `rh_fetch`. -/
def fetch (fuel : ℕ) (s : Df10) : Option (Bool × Df10) :=
  if s.ccw < c.memsize then fetchLoop c fuel (s.mem s.ccw) s else some (false, finishOp c c.fetchNxm s)

/-- The next address. -/
def next (cda : ℕ) : ℕ :=
  if c.its = true then cda + 1 &&& 0o777777 ||| cda &&& 0o7000000 else cda + 1 &&& c.amask

/-- `df10_read` and `df10_write`, `rh_read` and `rh_write`, with what they do at an address and without one. -/
def transfer (access skip : Df10 → Df10) (fuel : ℕ) (s : Df10) : Option (Bool × Df10) :=
  (if s.wcr = 0 then fetch c fuel s else some (true, s)).bind fun (found, s) =>
    if found = false then some (false, s)
    else
      let s := { s with wcr := s.wcr + 1 &&& c.wmask }
      let (moved, s) :=
        if s.cda ≠ 0 then
          if s.cda > c.memsize then (false, finishOp c c.nxm s)
          else
            let s := { s with cda := next c s.cda }
            if s.cda < c.memsize then (true, access s) else (false, finishOp c c.nxm s)
        else (true, skip s)
      if moved = false then some (false, s)
      else if s.wcr = 0 then fetch c fuel s
      else some (true, s)

/-- A transfer from the memory, and one to it. -/
inductive Dir
  | read
  | write
  deriving DecidableEq

/-- What is done at an address, and without one. -/
def Dir.access : Dir → Df10 → Df10
  | .read, s => { s with buf := s.mem s.cda }
  | .write, s => { s with mem := Function.update s.mem s.cda s.buf }
def Dir.skip : Dir → Df10 → Df10
  | .read, s => { s with buf := 0 }
  | .write, s => s

/-- `df10_read`, `df10_write`, and those of the RH10. -/
def df10Read (df10c its : Bool) (memsize nxmerr : ℕ) := transfer (df10Init df10c its memsize nxmerr) Dir.read.access Dir.read.skip
def df10Write (df10c its : Bool) (memsize nxmerr : ℕ) :=
  transfer (df10Init df10c its memsize nxmerr) Dir.write.access Dir.write.skip
def rhRead (wide : Bool) (memsize : ℕ) := transfer (rh10 wide memsize) Dir.read.access Dir.read.skip
def rhWrite (wide : Bool) (memsize : ℕ) := transfer (rh10 wide memsize) Dir.write.access Dir.write.skip

/-- The channels: a DF10 or a DF10C, and an RH10. -/
inductive Kind
  | df10 (df10c its : Bool) (nxmerr : ℕ)
  | rh (wide : Bool)

def Kind.config (memsize : ℕ) : Kind → Config
  | .df10 df10c its nxmerr => df10Init df10c its memsize nxmerr
  | .rh wide => rh10 wide memsize

def Kind.call (memsize : ℕ) : Kind → Dir → ℕ → Df10 → Option (Bool × Df10)
  | .df10 df10c its nxmerr, .read => df10Read df10c its memsize nxmerr
  | .df10 df10c its nxmerr, .write => df10Write df10c its memsize nxmerr
  | .rh wide, .read => rhRead wide memsize
  | .rh wide, .write => rhWrite wide memsize

/-- A device that calls the channel with words in its buffer, until they have all been given: what the calls return,
and the buffer after each. -/
def calls (call : Df10 → Option (Bool × Df10)) : List ℕ → Df10 → Option (List (Bool × ℕ) × Df10)
  | [], s => some ([], s)
  | word :: words, s =>
      (call { s with buf := word }).bind fun (more, t) =>
        (calls call words t).map fun (results, u) => ((more, t.buf) :: results, u)

end Channel

/-! ### Areas -/

/-- The area of a transfer word: the words behind an address, or no words. -/
structure Area where
  addr : ℕ
  count : ℕ
  deriving DecidableEq

/-- The words of an area, and the memory with words in it. -/
def Area.words (a : Area) (mem : ℕ → ℕ) : List ℕ :=
  if a.addr = 0 then List.replicate a.count 0 else Block.load mem (a.addr + 1) a.count
def Area.store (a : Area) (words : List ℕ) (mem : ℕ → ℕ) : ℕ → ℕ :=
  if a.addr = 0 then mem else Block.store mem (a.addr + 1) words

section Areas

variable (c : Config)

/-- The count of a control word. -/
def count (w : ℕ) : ℕ := w / 2 ^ c.aBits % 2 ^ c.wBits

/-- The area of a control word: its count is a two's complement; with ITS it has 15 bits, and the three bits above it
are those of the address, inverted. -/
def areaOf (w : ℕ) : Area :=
  if c.its = true then ⟨w % 2 ^ 18 + (7 - w / 2 ^ 33 % 8) * 2 ^ 18, 2 ^ 15 - w / 2 ^ 18 % 2 ^ 15⟩
  else ⟨w % 2 ^ c.aBits, 2 ^ c.wBits - count c w⟩

/-- A word is in an area. -/
def Area.Has (a : Area) (addr : ℕ) : Prop := a.addr ≠ 0 ∧ a.addr < addr ∧ addr ≤ a.addr + a.count

/-- Words stored in areas, one area after the other. -/
def storeAll : List Area → List ℕ → (ℕ → ℕ) → ℕ → ℕ
  | [], _, mem => mem
  | a :: areas, words, mem => storeAll areas (words.drop a.count) (a.store (words.take a.count) mem)

/-- An area is inside the memory, and inside what its address can count through. -/
def Inside (a : Area) : Prop :=
  a.addr ≠ 0 → a.addr % 2 ^ c.aBits + a.count < 2 ^ c.aBits ∧ a.addr + a.count < c.memsize

/-- The words that go through an area, and the memory after that. -/
def Dir.Through (dir : Dir) (a : Area) (mem : ℕ → ℕ) (words : List ℕ) (mem' : ℕ → ℕ) : Prop :=
  words.length = a.count ∧ match dir with
    | .read => words = a.words mem ∧ mem' = mem
    | .write => mem' = a.store words mem

/-- A list of control words from an address on, each as it is when it is fetched: its areas, the words that go through
them one after the other, the memory after that and the address of the terminator. -/
inductive Listed (dir : Dir) : (ℕ → ℕ) → ℕ → List Area → List ℕ → (ℕ → ℕ) → ℕ → Prop
  | stop {mem : ℕ → ℕ} {ccw : ℕ} : ccw < c.memsize → count c (mem ccw) = 0 →
      mem ccw % 2 ^ c.aBits = 0 ∨ mem ccw % 2 ^ c.aBits = ccw → Listed dir mem ccw [] [] mem ccw
  | jump {mem mem' : ℕ → ℕ} {ccw last : ℕ} {areas : List Area} {words : List ℕ} : ccw < c.memsize →
      count c (mem ccw) = 0 → mem ccw % 2 ^ c.aBits ≠ 0 → mem ccw % 2 ^ c.aBits ≠ ccw →
      Listed dir mem (mem ccw % 2 ^ c.aBits) areas words mem' last → Listed dir mem ccw areas words mem' last
  | transfer {mem mem₁ mem' : ℕ → ℕ} {ccw last : ℕ} {areas : List Area} {words rest : List ℕ} : ccw < c.memsize →
      count c (mem ccw) ≠ 0 → Inside c (areaOf c (mem ccw)) → dir.Through (areaOf c (mem ccw)) mem words mem₁ →
      Listed dir mem₁ ((ccw + 1) % 2 ^ c.aBits) areas rest mem' last →
      Listed dir mem ccw (areaOf c (mem ccw) :: areas) (words ++ rest) mem' last

end Areas

/-! ### Control words -/

section Fetch

variable {c : Config} {w a : ℕ}

lemma and_amask (c : Config) (w : ℕ) : w &&& c.amask = w % 2 ^ c.aBits := Nat.and_two_pow_sub_one_eq_mod w _

lemma and_wmask (c : Config) (w : ℕ) : w &&& c.wmask = w % 2 ^ c.wBits := Nat.and_two_pow_sub_one_eq_mod w _

lemma count_eq (c : Config) (w : ℕ) : w >>> c.aBits &&& c.wmask = count c w := by
  rw [and_wmask, Nat.shiftRight_eq_div_pow, count]

lemma count_zero_iff (c : Config) (w : ℕ) : w &&& c.wmask <<< c.aBits = 0 ↔ count c w = 0 := by
  rw [and_shiftLeft, count_eq, Nat.shiftLeft_eq, Nat.mul_eq_zero]
  exact or_iff_left (by positivity)

lemma count_lt (c : Config) (w : ℕ) : count c w < 2 ^ c.wBits := Nat.mod_lt _ (by positivity)

/-- The count register of an area, which goes up to zero. -/
lemma areaOf_count (h : count c w ≠ 0) : 0 < (areaOf c w).count ∧ (areaOf c w).count < 2 ^ c.wBits := by
  have hlt := count_lt c w
  rw [areaOf]
  split_ifs with hits
  · rw [(c.its_widths hits).2]
    dsimp only
    omega
  · dsimp only
    omega

/-- The registers of a control word with ITS. -/
lemma its_word (w : ℕ) : w >>> 18 &&& 0o77777 ||| 0o700000 = 2 ^ 18 - (2 ^ 15 - w / 2 ^ 18 % 2 ^ 15)
    ∧ w &&& 0o777777 ||| (w >>> 15 &&& 0o7000000) ^^^ 0o7000000 = w % 2 ^ 18 + (7 - w / 2 ^ 33 % 8) * 2 ^ 18 := by
  have hcount : w >>> 18 &&& 0o77777 = w / 2 ^ 18 % 2 ^ 15 := by
    rw [Nat.shiftRight_eq_div_pow]
    exact Nat.and_two_pow_sub_one_eq_mod _ 15
  have haddr : w &&& 0o777777 = w % 2 ^ 18 := Nat.and_two_pow_sub_one_eq_mod w 18
  have hmoby : w >>> 15 &&& 0o7000000 = (w / 2 ^ 33 % 8) <<< 18 := by
    rw [show 0o7000000 = 7 <<< 18 from rfl, and_shiftLeft, ← Nat.shiftRight_add, Nat.shiftRight_eq_div_pow]
    exact congrArg (· <<< 18) (Nat.and_two_pow_sub_one_eq_mod _ 3)
  have hxor : (w / 2 ^ 33 % 8) ^^^ 7 = 7 - w / 2 ^ 33 % 8 := by
    rw [Nat.xor_comm]
    exact mask_xor (n := 3) (Nat.mod_lt _ (by norm_num))
  refine ⟨?_, ?_⟩
  · rw [hcount, show 0o700000 = 7 <<< 15 from rfl, or_shiftLeft_eq (Nat.mod_lt _ (by positivity))]
    lia
  · rw [haddr, hmoby, show 0o7000000 = 7 <<< 18 from rfl, ← Nat.shiftLeft_xor_distrib, hxor,
      or_shiftLeft_eq (Nat.mod_lt _ (by positivity))]

lemma take_area (w : ℕ) (s : Df10) : take c w s
    = { s with
        wcr := 2 ^ c.wBits - (areaOf c w).count, cda := (areaOf c w).addr, ccw := (s.ccw + 1) % 2 ^ c.aBits } := by
  have hlt := count_lt c w
  rw [take, areaOf, and_amask]
  split_ifs with hits
  · obtain ⟨ha, hw⟩ := c.its_widths hits
    rw [ha, hw, (its_word w).1, (its_word w).2]
  · rw [count_eq, and_amask]
    dsimp only
    rw [Nat.sub_sub_self hlt.le]

/-- The address goes through the area. -/
lemma next_area (hinside : Inside c (areaOf c w)) (hne : (areaOf c w).addr ≠ 0) {k : ℕ} (hk : k < (areaOf c w).count) :
    next c ((areaOf c w).addr + k) = (areaOf c w).addr + (k + 1) := by
  obtain ⟨hfit, -⟩ := hinside hne
  rw [next]
  split_ifs with hits
  · rw [(c.its_widths hits).1] at hfit
    have hlt : (areaOf c w).addr < 2 ^ 21 := by
      rw [areaOf, if_pos hits]
      dsimp only
      lia
    generalize areaOf c w = a at hfit hlt hk
    have hlow : a.addr + k + 1 &&& 0o777777 = (a.addr + k + 1) % 2 ^ 18 := Nat.and_two_pow_sub_one_eq_mod _ 18
    have hhigh : a.addr + k &&& 0o7000000 = ((a.addr + k) / 2 ^ 18) <<< 18 := by
      rw [show 0o7000000 = 7 <<< 18 from rfl, and_shiftLeft, Nat.shiftRight_eq_div_pow]
      refine congrArg (· <<< 18) ?_
      refine (Nat.and_two_pow_sub_one_eq_mod _ 3).trans (Nat.mod_eq_of_lt ?_)
      lia
    rw [hlow, hhigh, or_shiftLeft_eq (Nat.mod_lt _ (by positivity))]
    lia
  · rw [and_amask]
    have hlt : (areaOf c w).addr < 2 ^ c.aBits := by
      rw [areaOf, if_neg hits]
      exact Nat.mod_lt _ (by positivity)
    rw [Nat.mod_eq_of_lt hlt] at hfit
    rw [Nat.mod_eq_of_lt (by omega), Nat.add_assoc]

end Fetch

/-! ### Calls -/

section Calls

variable {c : Config} {dir : Dir} {a : Area} {mem mem₁ mem' : ℕ → ℕ} {words rest inputs : List ℕ} {ccw last k fuel w : ℕ}
  {s t u : Df10}

/-- What the calls return: 0 with the last word. -/
def results : List ℕ → List (Bool × ℕ)
  | [] => []
  | word :: words => (!words.isEmpty, word) :: results words

/-- The buffer of a device has the words that are written; it may have any when it reads. -/
def Dir.Feeds (dir : Dir) (inputs words : List ℕ) : Prop :=
  inputs.length = words.length ∧ (dir = .write → inputs = words)

/-- The memory after some words of an area. -/
def Dir.part (dir : Dir) (a : Area) (mem : ℕ → ℕ) (words : List ℕ) (k : ℕ) : ℕ → ℕ :=
  match dir with
  | .read => mem
  | .write => a.store (words.take k) mem

/-- A channel in an area, after some of its words. -/
structure Mid (c : Config) (dir : Dir) (a : Area) (mem : ℕ → ℕ) (words : List ℕ) (k : ℕ) (s : Df10) : Prop where
  wcr : s.wcr = (2 ^ c.wBits - a.count + k) % 2 ^ c.wBits
  cda : s.cda = if a.addr = 0 then 0 else a.addr + k
  mem : s.mem = dir.part a mem words k

lemma part_zero (dir : Dir) (a : Area) (mem : ℕ → ℕ) (words : List ℕ) : dir.part a mem words 0 = mem := by
  cases dir
  · rfl
  · rw [Dir.part, List.take_zero, Area.store, Block.store_nil, ite_self]

lemma Dir.Through.part (h : dir.Through a mem words mem') : dir.part a mem words a.count = mem' := by
  obtain ⟨hlen, h⟩ := h
  cases dir
  · exact h.2.symm
  · rw [Dir.part, ← hlen, List.take_length, h]

/-- A word at its address. -/
lemma access_part (h : dir.Through a mem words mem') (hne : a.addr ≠ 0) (hword : words[k]? = some w)
    (hmem : s.mem = dir.part a mem words k) (hcda : s.cda = a.addr + (k + 1)) (hbuf : dir = .write → s.buf = w) :
    (dir.access s).mem = dir.part a mem words (k + 1) ∧ (dir.access s).buf = w := by
  have hk : k < words.length := (List.getElem?_eq_some_iff.mp hword).1
  cases dir
  · refine ⟨hmem, ?_⟩
    obtain ⟨hlen, hwords, -⟩ := h
    rw [hwords, Area.words, if_neg hne, Block.getElem?_load (by omega), Option.some.injEq] at hword
    show s.mem s.cda = w
    rw [hmem, hcda, ← hword]
    show mem (a.addr + (k + 1)) = mem (a.addr + 1 + k)
    rw [Nat.add_assoc, Nat.add_comm k]
  · refine ⟨?_, hbuf rfl⟩
    show Function.update s.mem s.cda s.buf = _
    have htake : words.take (k + 1) = words.take k ++ [w] := by rw [List.take_add_one, hword]; rfl
    rw [hmem, hcda, hbuf rfl, Dir.part, Dir.part, Area.store, Area.store, if_neg hne, if_neg hne, htake,
      Block.store_concat, List.length_take, Nat.min_eq_left hk.le, Nat.add_assoc, Nat.add_comm 1]

/-- A word without an address. -/
lemma skip_part (h : dir.Through a mem words mem') (hzero : a.addr = 0) (hword : words[k]? = some w)
    (hmem : s.mem = dir.part a mem words k) (hbuf : dir = .write → s.buf = w) :
    (dir.skip s).mem = dir.part a mem words (k + 1) ∧ (dir.skip s).buf = w := by
  have hk : k < words.length := (List.getElem?_eq_some_iff.mp hword).1
  cases dir
  · refine ⟨hmem, ?_⟩
    obtain ⟨hlen, hwords, -⟩ := h
    rw [hwords, Area.words, if_pos hzero, List.getElem?_replicate, if_pos (by omega), Option.some.injEq] at hword
    exact hword
  · refine ⟨?_, hbuf rfl⟩
    show s.mem = _
    rw [hmem, Dir.part, Dir.part, Area.store, Area.store, if_pos hzero, if_pos hzero]

lemma access_kept (dir : Dir) (s : Df10) :
    (dir.access s).wcr = s.wcr ∧ (dir.access s).cda = s.cda ∧ (dir.access s).ccw = s.ccw ∧ (dir.access s).cia = s.cia := by
  cases dir <;> exact ⟨rfl, rfl, rfl, rfl⟩

lemma skip_kept (dir : Dir) (s : Df10) :
    (dir.skip s).wcr = s.wcr ∧ (dir.skip s).cda = s.cda ∧ (dir.skip s).ccw = s.ccw ∧ (dir.skip s).cia = s.cia := by
  cases dir <;> exact ⟨rfl, rfl, rfl, rfl⟩

lemma transfer_of {access skip : Df10 → Df10} (hwcr : s.wcr ≠ 0) (hu : { s with wcr := s.wcr + 1 &&& c.wmask } = u)
    (ht : (if u.cda ≠ 0 then
        if u.cda > c.memsize then (false, finishOp c c.nxm u)
        else if next c u.cda < c.memsize then (true, access { u with cda := next c u.cda })
          else (false, finishOp c c.nxm { u with cda := next c u.cda })
      else (true, skip u)) = (true, t)) :
    transfer c access skip fuel s = if t.wcr = 0 then fetch c fuel t else some (true, t) := by
  subst hu
  rw [transfer, if_neg hwcr, Option.bind_some]
  dsimp only at ht ⊢
  rw [if_neg (by decide), ht]
  rfl

/-- A call in an area: a word goes through, and the last one is followed by a fetch. -/
lemma Mid.call (h : Mid c dir (areaOf c ccw) mem words k s) (hthrough : dir.Through (areaOf c ccw) mem words mem')
    (hcount : count c ccw ≠ 0) (hinside : Inside c (areaOf c ccw)) (hword : words[k]? = some w)
    (hbuf : dir = .write → s.buf = w) (fuel : ℕ) :
    ∃ t, Mid c dir (areaOf c ccw) mem words (k + 1) t ∧ t.buf = w ∧ t.ccw = s.ccw ∧ t.cia = s.cia
      ∧ transfer c dir.access dir.skip fuel s
        = if k + 1 = (areaOf c ccw).count then fetch c fuel t else some (true, t) := by
  have hlen : words.length = (areaOf c ccw).count := hthrough.1
  have hk : k < (areaOf c ccw).count := by
    rw [← hlen]
    exact (List.getElem?_eq_some_iff.mp hword).1
  have hfit := (areaOf_count hcount).2
  obtain ⟨hwcr, hcda, hmem⟩ := h
  generalize hP : 2 ^ c.wBits = P at hwcr hfit
  rw [Nat.mod_eq_of_lt (by omega)] at hwcr
  have hnext : s.wcr + 1 &&& c.wmask = (P - (areaOf c ccw).count + (k + 1)) % P := by
    rw [and_wmask, hP, hwcr, Nat.add_assoc]
  have hzero : (P - (areaOf c ccw).count + (k + 1)) % P = 0 ↔ k + 1 = (areaOf c ccw).count := by
    rcases Nat.lt_or_eq_of_le (Nat.succ_le_of_lt hk) with hlt | heq
    · rw [Nat.mod_eq_of_lt (by omega)]
      lia
    · rw [show P - (areaOf c ccw).count + (k + 1) = P by lia, Nat.mod_self]
      exact iff_of_true rfl heq
  by_cases hne : (areaOf c ccw).addr = 0
  · rw [if_pos hne] at hcda
    have hskip := skip_part (s := { s with wcr := s.wcr + 1 &&& c.wmask }) hthrough hne hword hmem hbuf
    obtain ⟨hw, ha, hc, hi⟩ := skip_kept dir { s with wcr := s.wcr + 1 &&& c.wmask }
    refine ⟨_, ⟨?_, ?_, hskip.1⟩, hskip.2, hc, hi, (transfer_of (by lia) rfl (if_neg (not_not.mpr hcda))).trans ?_⟩
    · rw [hw, hP]
      exact hnext
    · rw [ha, if_pos hne]
      exact hcda
    · refine if_congr ?_ rfl rfl
      rw [hw]
      exact (show s.wcr + 1 &&& c.wmask = 0 ↔ _ by rw [hnext]; exact hzero)
  · rw [if_neg hne] at hcda
    have hin := (hinside hne).2
    have hstep : next c s.cda = (areaOf c ccw).addr + (k + 1) := by rw [hcda, next_area hinside hne hk]
    have haccess := access_part (s := { s with
      wcr := s.wcr + 1 &&& c.wmask, cda := next c s.cda }) hthrough hne hword hmem hstep hbuf
    obtain ⟨hw, ha, hc, hi⟩ := access_kept dir { s with wcr := s.wcr + 1 &&& c.wmask, cda := next c s.cda }
    have hmoved : (if s.cda ≠ 0 then
          if s.cda > c.memsize then (false, finishOp c c.nxm { s with wcr := s.wcr + 1 &&& c.wmask })
          else if next c s.cda < c.memsize then
            (true, dir.access { s with wcr := s.wcr + 1 &&& c.wmask, cda := next c s.cda })
          else (false, finishOp c c.nxm { s with wcr := s.wcr + 1 &&& c.wmask, cda := next c s.cda })
        else (true, dir.skip { s with wcr := s.wcr + 1 &&& c.wmask }))
        = (true, dir.access { s with wcr := s.wcr + 1 &&& c.wmask, cda := next c s.cda }) := by
      rw [if_pos (by lia), if_neg (by lia), if_pos (by lia)]
    refine ⟨_, ⟨?_, ?_, haccess.1⟩, haccess.2, hc, hi, (transfer_of (by lia) rfl hmoved).trans ?_⟩
    · rw [hw, hP]
      exact hnext
    · rw [ha, if_neg hne]
      exact hstep
    · refine if_congr ?_ rfl rfl
      rw [hw]
      exact (show s.wcr + 1 &&& c.wmask = 0 ↔ _ by rw [hnext]; exact hzero)

/-- Words go through, and nothing but the last word of the channel is changed beside them. -/
def Passes (c : Config) (dir : Dir) (fuel : ℕ) (words : List ℕ) (mem' : ℕ → ℕ) (cia : ℕ) (s : Df10) : Prop :=
  ∀ inputs, dir.Feeds inputs words →
    ∃ v, calls (transfer c dir.access dir.skip fuel) inputs s = some (results words, v)
      ∧ ∀ addr ≠ cia ||| 1, v.mem addr = mem' addr

/-- What comes of a list from its next control word on: the fetch, and the calls after it. -/
def Goes (c : Config) (dir : Dir) (fuel : ℕ) (words : List ℕ) (mem' : ℕ → ℕ) (t : Df10) : Prop :=
  ∃ u, fetch c fuel t = some (!words.isEmpty, u) ∧ u.buf = t.buf ∧ (words ≠ [] → u.wcr ≠ 0)
    ∧ Passes c dir fuel words mem' t.cia u

lemma calls_cons {call : Df10 → Option (Bool × Df10)} {word : ℕ} {more : Bool} {results : List (Bool × ℕ)}
    (hcall : call { s with buf := word } = some (more, t)) (hcalls : calls call inputs t = some (results, u)) :
    calls call (word :: inputs) s = some ((more, t.buf) :: results, u) := by
  rw [calls, hcall, Option.bind_some]
  dsimp only
  rw [hcalls, Option.map_some]

lemma Dir.Feeds.cons (h : dir.Feeds inputs (w :: words)) :
    ∃ input inputs', inputs = input :: inputs' ∧ (dir = .write → input = w) ∧ dir.Feeds inputs' words := by
  obtain ⟨hlen, heq⟩ := h
  cases inputs with
  | nil => exact absurd hlen (by simp)
  | cons input inputs' =>
      refine ⟨input, inputs', rfl, fun hdir ↦ (List.cons.inj (heq hdir)).1, Nat.succ.inj hlen, fun hdir ↦ ?_⟩
      exact (List.cons.inj (heq hdir)).2

lemma passes_cons {cia : ℕ} (h : ∀ input, (dir = .write → input = w) → ∃ t,
      transfer c dir.access dir.skip fuel { s with buf := input } = some (!words.isEmpty, t) ∧ t.buf = w
        ∧ Passes c dir fuel words mem' cia t) : Passes c dir fuel (w :: words) mem' cia s := by
  intro inputs hfeeds
  obtain ⟨input, inputs, rfl, hinput, hfeeds⟩ := hfeeds.cons
  obtain ⟨t, hcall, hbuf, hgo⟩ := h input hinput
  obtain ⟨v, hcalls, hkept⟩ := hgo inputs hfeeds
  refine ⟨v, ?_, hkept⟩
  rw [calls_cons hcall hcalls, hbuf]
  rfl

/-- The rest of an area, and of the list after it. -/
lemma Mid.passes (hthrough : dir.Through (areaOf c w) mem words mem₁) (hcount : count c w ≠ 0)
    (hinside : Inside c (areaOf c w))
    (hrest : ∀ t : Df10, t.mem = mem₁ → t.ccw = ccw → t.wcr = 0 → Goes c dir fuel rest mem' t) {r : ℕ}
    (hk : k + (r + 1) = (areaOf c w).count) (h : Mid c dir (areaOf c w) mem words k s) (hccw : s.ccw = ccw) :
    Passes c dir fuel (words.drop k ++ rest) mem' s.cia s := by
  have hlen : words.length = (areaOf c w).count := hthrough.1
  -- the words of the area that are left, up to the fetch after the last one
  induction r generalizing k s with
  | zero =>
      have hlt : k < words.length := by omega
      have hdrop : words.drop (k + 1) = [] := List.drop_of_length_le (by omega)
      rw [List.drop_eq_getElem_cons hlt, hdrop, List.singleton_append]
      refine passes_cons fun input hinput ↦ ?_
      have hmid : Mid c dir (areaOf c w) mem words k { s with buf := input } := ⟨h.wcr, h.cda, h.mem⟩
      obtain ⟨t, ht, hbuf, hsame, hcia, hcall⟩ :=
        hmid.call hthrough hcount hinside (List.getElem?_eq_getElem hlt) hinput fuel
      have hend : k + 1 = (areaOf c w).count := hk
      have hwcr : t.wcr = 0 := by
        rw [ht.wcr, hend, Nat.sub_add_cancel (areaOf_count hcount).2.le, Nat.mod_self]
      have hmem : t.mem = mem₁ := by rw [ht.mem, hend, hthrough.part]
      obtain ⟨u, hfetch, hsaved, -, hgo⟩ := hrest t hmem (hsame.trans hccw) hwcr
      exact ⟨u, hcall.trans ((if_pos hend).trans hfetch), hsaved.trans hbuf, hcia ▸ hgo⟩
  | succ r ih =>
      have hlt : k < words.length := by omega
      have hmore : words.drop (k + 1) ++ rest ≠ [] := by
        refine List.append_ne_nil_of_left_ne_nil (fun hnil ↦ ?_) rest
        exact absurd (List.drop_eq_nil_iff.mp hnil) (by omega)
      rw [List.drop_eq_getElem_cons hlt, List.cons_append]
      refine passes_cons fun input hinput ↦ ?_
      have hmid : Mid c dir (areaOf c w) mem words k { s with buf := input } := ⟨h.wcr, h.cda, h.mem⟩
      obtain ⟨t, ht, hbuf, hsame, hcia, hcall⟩ :=
        hmid.call hthrough hcount hinside (List.getElem?_eq_getElem hlt) hinput fuel
      rw [List.isEmpty_eq_false_iff.mpr hmore]
      exact ⟨t, hcall.trans (if_neg (by omega)), hbuf, hcia ▸ ih (by omega) ht (hsame.trans hccw)⟩

lemma writecw_kept (c : Config) (s : Df10) : (writecw c s).buf = s.buf
    ∧ ∀ addr ≠ s.cia ||| 1, (writecw c s).mem addr = s.mem addr := by
  rw [writecw]
  split_ifs
  · exact ⟨rfl, fun addr hne ↦ Function.update_of_ne hne _ _⟩
  · exact ⟨rfl, fun addr _ ↦ rfl⟩
  · exact ⟨rfl, fun addr hne ↦ Function.update_of_ne hne _ _⟩
  · exact ⟨rfl, fun addr _ ↦ rfl⟩

/-- The end of a list leaves the buffer, and changes one word of the memory. -/
lemma finishOp_kept (c : Config) (flags : ℕ) (s : Df10) : (finishOp c flags s).buf = s.buf
    ∧ ∀ addr ≠ s.cia ||| 1, (finishOp c flags s).mem addr = s.mem addr :=
  writecw_kept c { s with status := c.quit flags s.status }

lemma Listed.inside {areas : List Area} (h : Listed c dir mem ccw areas words mem' last) : ccw < c.memsize := by
  cases h <;> assumption

/-- More jumps than there are do not matter. -/
lemma fetchLoop_succ {data : ℕ} {r : Bool × Df10} (h : fetchLoop c fuel data s = some r) :
    fetchLoop c (fuel + 1) data s = some r := by
  induction fuel generalizing data s with
  | zero => exact absurd h (by simp [fetchLoop])
  | succ fuel ih =>
      rw [fetchLoop] at h ⊢
      dsimp only at h ⊢
      split_ifs at h ⊢
      · exact h
      · exact ih h
      · exact h
      · exact h

/-- The next control word of a list, and the words from there on. -/
lemma Listed.goes {areas : List Area} (h : Listed c dir mem ccw areas words mem' last) :
    ∃ n, ∀ fuel ≥ n, ∀ t : Df10, t.mem = mem → t.ccw = ccw → t.wcr = 0 → Goes c dir fuel words mem' t := by
  induction h with
  | @stop mem ccw hin hcount hstop =>
      refine ⟨1, fun fuel hfuel t hmem hccw hwcr ↦ ?_⟩
      obtain ⟨fuel, rfl⟩ := Nat.exists_eq_add_of_le' hfuel
      subst hmem hccw
      refine ⟨finishOp c 0 t, ?_, (finishOp_kept c 0 t).1, fun h ↦ absurd rfl h, ?_⟩
      · rw [fetch, if_pos hin, fetchLoop, if_pos ((count_zero_iff c _).mpr hcount)]
        dsimp only
        rw [and_amask, if_pos hstop]
        rfl
      · intro inputs hfeeds
        rw [List.length_eq_zero_iff.mp hfeeds.1]
        exact ⟨finishOp c 0 t, rfl, (finishOp_kept c 0 t).2⟩
  | @jump mem mem' ccw last areas words hin hcount hne hself hlist ih =>
      obtain ⟨n, ih⟩ := ih
      refine ⟨n + 1, fun fuel hfuel t hmem hccw hwcr ↦ ?_⟩
      obtain ⟨fuel, rfl⟩ := Nat.exists_eq_add_of_le' (show 1 ≤ fuel by omega)
      subst hmem hccw
      obtain ⟨u, hfetch, hgo⟩ := ih (fuel + 1) (by omega) { t with ccw := t.mem t.ccw % 2 ^ c.aBits } rfl rfl hwcr
      obtain ⟨u', hfetch', -⟩ := ih fuel (by omega) { t with ccw := t.mem t.ccw % 2 ^ c.aBits } rfl rfl hwcr
      refine ⟨u, ?_, hgo⟩
      rw [fetch, if_pos hlist.inside] at hfetch hfetch'
      have hsame := (fetchLoop_succ hfetch').symm.trans hfetch
      rw [fetch, if_pos hin, fetchLoop, if_pos ((count_zero_iff c _).mpr hcount)]
      dsimp only
      rw [and_amask, if_neg (not_or.mpr ⟨hne, hself⟩), if_pos hlist.inside]
      exact hfetch'.trans hsame
  | @transfer mem mem₁ mem' ccw last areas words rest hin hcount hinside hthrough hlist ih =>
      obtain ⟨n, ih⟩ := ih
      refine ⟨n + 1, fun fuel hfuel t hmem hccw hwcr ↦ ?_⟩
      subst hmem hccw
      obtain ⟨hpos, hlt⟩ := areaOf_count hcount
      have hne : words ++ rest ≠ [] := by
        refine List.append_ne_nil_of_left_ne_nil (List.ne_nil_of_length_pos ?_) rest
        rw [hthrough.1]
        exact hpos
      have hmid : Mid c dir (areaOf c (t.mem t.ccw)) t.mem words 0 (take c (t.mem t.ccw) t) := by
        rw [take_area]
        refine ⟨?_, ?_, (part_zero dir _ _ _).symm⟩
        · dsimp only
          rw [Nat.add_zero, Nat.mod_eq_of_lt (by omega)]
        · dsimp only
          split_ifs with hzero
          · exact hzero
          · rfl
      have hgo : Passes c dir fuel (words ++ rest) mem' t.cia (take c (t.mem t.ccw) t) := by
        have hpasses := hmid.passes (r := (areaOf c (t.mem t.ccw)).count - 1) hthrough hcount hinside
          (ih fuel (by omega)) (by omega) (by rw [take_area])
        rw [List.drop_zero, take_area] at hpasses
        rw [take_area]
        exact hpasses
      refine ⟨take c (t.mem t.ccw) t, ?_, by rw [take_area], fun _ ↦ ?_, hgo⟩
      · obtain ⟨fuel, rfl⟩ := Nat.exists_eq_add_of_le' (show 1 ≤ fuel by omega)
        rw [fetch, if_pos hin, fetchLoop, if_neg (mt (count_zero_iff c _).mp hcount),
          List.isEmpty_eq_false_iff.mpr hne]
        rfl
      · rw [take_area]
        dsimp only
        omega

end Calls

/-! ### Lists -/

section Lists

variable {c : Config} {dir : Dir} {mem mem' : ℕ → ℕ} {areas : List Area} {words : List ℕ} {ccw last : ℕ}

lemma Kind.call_eq (k : Kind) (memsize : ℕ) (dir : Dir) :
    k.call memsize dir = transfer (k.config memsize) dir.access dir.skip := by
  cases k <;> cases dir <;> rfl

/-- The words of a list that is read are those of its areas. -/
lemma Listed.reads (h : Listed c .read mem ccw areas words mem' last) :
    words = areas.flatMap (·.words mem) ∧ mem' = mem := by
  induction h with
  | stop => exact ⟨rfl, rfl⟩
  | jump _ _ _ _ _ ih => exact ih
  | transfer _ _ _ hthrough _ ih =>
      obtain ⟨-, hwords, rfl⟩ := hthrough
      obtain ⟨hrest, hmem⟩ := ih
      exact ⟨by rw [List.flatMap_cons, ← hwords, ← hrest], hmem⟩

/-- The words of a list that is written are stored in its areas. -/
lemma Listed.writes (h : Listed c .write mem ccw areas words mem' last) : mem' = storeAll areas words mem := by
  induction h with
  | stop => rfl
  | jump _ _ _ _ _ ih => exact ih
  | transfer _ _ _ hthrough _ ih =>
      obtain ⟨hlen, rfl⟩ := hthrough
      rw [storeAll, ← hlen, List.drop_left, List.take_left]
      exact ih

lemma Listed.length (h : Listed c dir mem ccw areas words mem' last) : words.length = (areas.map Area.count).sum := by
  induction h with
  | stop => rfl
  | jump _ _ _ _ _ ih => exact ih
  | transfer _ _ _ hthrough _ ih => rw [List.length_append, hthrough.1, ih, List.map_cons, List.sum_cons]

lemma Area.store_kept {a : Area} {addr : ℕ} (hout : ¬ a.Has addr) (hlen : words.length ≤ a.count) :
    a.store words mem addr = mem addr := by
  rw [Area.store]
  split_ifs with hzero
  · rfl
  · rcases Nat.lt_or_ge addr (a.addr + 1) with hlow | hhigh
    · exact Block.store_low words hlow
    · refine Block.store_high ?_
      have hover : ¬ addr ≤ a.addr + a.count := fun hle ↦ hout ⟨hzero, hhigh, hle⟩
      omega

/-- Nothing else is stored. -/
lemma storeAll_kept {addr : ℕ} (hout : ∀ a ∈ areas, ¬ a.Has addr) : storeAll areas words mem addr = mem addr := by
  induction areas generalizing words mem with
  | nil => rfl
  | cons a areas ih =>
      rw [storeAll, ih fun b hb ↦ hout b (List.mem_cons_of_mem a hb)]
      exact Area.store_kept (hout a List.mem_cons_self) (List.length_take_le _ _)

lemma Listed.words_ne (h : Listed c dir mem ccw areas words mem' last) (hne : areas ≠ []) : words ≠ [] := by
  induction h with
  | stop => exact absurd rfl hne
  | jump _ _ _ _ _ ih => exact ih hne
  | transfer _ hcount _ hthrough _ _ =>
      refine List.append_ne_nil_of_left_ne_nil (List.ne_nil_of_length_pos ?_) _
      rw [hthrough.1]
      exact (areaOf_count hcount).1

/-- The first call fetches a control word. -/
lemma transfer_fetched {access skip : Df10 → Df10} {fuel : ℕ} {t u : Df10} (hwcr : t.wcr = 0)
    (hfetch : fetch c fuel t = some (true, u)) (hnext : u.wcr ≠ 0) :
    transfer c access skip fuel t = transfer c access skip fuel u := by
  rw [transfer, transfer, if_pos hwcr, if_neg hnext, hfetch]

lemma calls_first {call : Df10 → Option (Bool × Df10)} {t u : Df10} {input : ℕ} {inputs : List ℕ}
    (hbuf : u.buf = input) (hcall : call { t with buf := input } = call u) :
    calls call (input :: inputs) t = calls call (input :: inputs) u := by
  subst hbuf
  rw [calls, calls, hcall]

/-- **The words of a list go through the channel one by one.** The control words are those in the memory when they
are fetched, and the areas are inside the memory and inside what an address of the channel can count through: then the
buffer has the words of the areas, or they are stored there, the last call returns 0, and no other word is changed but
that of the termination. -/
theorem list_transferred (k : Kind) (memsize addr : ℕ) (s : Df10)
    (h : Listed (k.config memsize) dir s.mem (addr &&& icwa) areas words mem' last) (hne : areas ≠ []) :
    ((dir = .read → words = areas.flatMap (·.words s.mem) ∧ mem' = s.mem)
        ∧ (dir = .write → mem' = storeAll areas words s.mem)
        ∧ words.length = (areas.map Area.count).sum
        ∧ ∀ addr, (∀ a ∈ areas, ¬ a.Has addr) → mem' addr = s.mem addr)
      ∧ ∃ n, ∀ fuel ≥ n, ∀ inputs, dir.Feeds inputs words →
        ∃ v, calls (k.call memsize dir fuel) inputs (setup addr s) = some (results words, v)
          ∧ ∀ a ≠ (addr &&& icwa) ||| 1, v.mem a = mem' a := by
  refine ⟨⟨?_, ?_, h.length, ?_⟩, ?_⟩
  · rintro rfl
    exact h.reads
  · rintro rfl
    exact h.writes
  · intro addr hout
    cases dir
    · rw [h.reads.2]
    · rw [h.writes]
      exact storeAll_kept hout
  · obtain ⟨n, hgoes⟩ := h.goes
    refine ⟨n, fun fuel hfuel ↦ ?_⟩
    rw [Kind.call_eq]
    intro inputs hfeeds
    have hwords := h.words_ne hne
    obtain ⟨input, inputs, rfl⟩ : ∃ input rest, inputs = input :: rest := by
      refine List.exists_cons_of_length_pos ?_
      rw [hfeeds.1]
      exact List.length_pos_iff.mpr hwords
    obtain ⟨u, hfetch, hbuf, hwcr, hgo⟩ := hgoes fuel hfuel { setup addr s with buf := input } rfl rfl rfl
    rw [List.isEmpty_eq_false_iff.mpr hwords] at hfetch
    rw [calls_first hbuf (transfer_fetched rfl hfetch (hwcr hwords))]
    exact hgo (input :: inputs) hfeeds

/-- A list of one area, found through a jump at 020, with the address of the terminator. -/
def oneArea (count addr : ℕ) : Df10 where
  status := 0
  cia := 0
  ccw := 0
  wcr := 0
  cda := 0
  buf := 0
  irq := false
  mem a := if a = 0o20 then 0o100 else if a = 0o100 then (0o1000000 - count) <<< 18 ||| addr else if a = 0o101 then 0 else 5

lemma one_listed : Listed ((Kind.df10 false false 1).config 0o1000) .write (oneArea 2 0o200).mem (0o20 &&& icwa)
    [areaOf ((Kind.df10 false false 1).config 0o1000) ((oneArea 2 0o200).mem 0o100)] ([6, 7] ++ [])
    ((⟨0o200, 2⟩ : Area).store [6, 7] (oneArea 2 0o200).mem) 0o101 :=
  .jump (by decide) (by decide) (by decide) (by decide)
    (.transfer (by decide) (by decide) (by rw [Inside]; decide) ⟨by decide, rfl⟩
      (.stop (by decide) (by decide) (Or.inl (by decide))))

theorem one_transferred : ∃ n, ∀ fuel ≥ n, ∃ v,
    calls (df10Write false false 0o1000 1 fuel) [6, 7] (setup 0o20 (oneArea 2 0o200)) = some ([(true, 6), (false, 7)], v)
      ∧ ∀ a ≠ 0o21, v.mem a = (⟨0o200, 2⟩ : Area).store [6, 7] (oneArea 2 0o200).mem a := by
  obtain ⟨n, h⟩ := (list_transferred (.df10 false false 1) 0o1000 0o20 (oneArea 2 0o200) one_listed (by simp)).2
  exact ⟨n, fun fuel hfuel ↦ h fuel hfuel [6, 7] ⟨rfl, fun _ ↦ rfl⟩⟩

/-- A list whose area is the last word that 18 bits can count from. -/
def lastArea : Df10 := { oneArea 1 0o777777 with mem := Function.update (oneArea 1 0o777777).mem 0 3 }

/-- A word that is written over the terminator is taken for a transfer word, and an address of 18 bits wraps around. -/
theorem list_overwritten :
    (∃ areas words mem', Listed ((Kind.df10 false false 1).config 0o1000) .read (oneArea 1 0o100).mem (0o20 &&& icwa)
        areas words mem' 0o101 ∧ words.length = 1
      ∧ (df10Write false false 0o1000 1 9 { setup 0o20 (oneArea 1 0o100) with buf := 1 <<< 18 }).map Prod.fst = some true)
    ∧ (areaOf ((Kind.df10 false false 1).config 0o2000000) (lastArea.mem 0o100) = ⟨0o777777, 1⟩
      ∧ lastArea.mem (0o777777 + 1) = 5
      ∧ (df10Read false false 0o2000000 1 9 (setup 0o20 lastArea)).map (fun p ↦ p.2.buf) = some 3) := by
  refine ⟨⟨[areaOf ((Kind.df10 false false 1).config 0o1000) ((oneArea 1 0o100).mem 0o100)], [0] ++ [],
    (oneArea 1 0o100).mem, ?_, rfl, by decide⟩, by decide, by decide, by decide⟩
  refine .jump (by decide) (by decide) (by decide) (by decide) ?_
  exact .transfer (by decide) (by decide) (by rw [Inside]; decide) ⟨by decide, by decide, rfl⟩
    (.stop (by decide) (by decide) (Or.inl (by decide)))

end Lists

end Ka10Simh.Pdp10.DataChannel
