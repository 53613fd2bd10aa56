import Ka10Simh.B5500.Io
import Ka10Simh.Lib.Fields

/-!
The characters that go through a channel.

* `bclToBcd`, `bcdToBcl`: the codes.
* `chanAdvance`, `writeChar`, `readChar`: the words and the characters of a channel.
* `readAll_delivers`: the characters that are read.
* `writeAll_stores`: those that are written.
* `characters_copied`: what is read and written again is the same.
-/

namespace Ka10Simh.B5500

open Word Fields

/-! ### Codes -/

/-- The translation of `chan_write_char`, and that of `chan_read_char`. -/
def bclToBcd (ch : ℕ) : ℕ :=
  let cx := ch &&& 0o60
  let c := ch &&& 0o17
  let c :=
    if c = 0 then if cx ≠ 0o20 then 12 else c
    else if c = 10 then if cx = 0o20 then 12 else 0
    else if c = 11 then 10
    else if c = 12 then 11
    else c
  c ||| (cx ^^^ (cx &&& 0o20) <<< 1)
def bcdToBcl (ch : ℕ) : ℕ :=
  let cx := ch &&& 0o60
  let c := ch &&& 0o17
  let c :=
    if c = 0 then if cx ≠ 0o60 then 10 else c
    else if c = 10 then 11
    else if c = 11 then 12
    else if c = 12 then if cx = 0o60 then 10 else 0
    else c
  c ||| (cx ^^^ (cx &&& 0o20) <<< 1)

/-- What is read is written as it was. -/
lemma bclToBcd_bcdToBcl {x : ℕ} (h : x < 64) : bcdToBcl x < 64 ∧ bclToBcd (bcdToBcl x) = x := by
  have hall : ∀ x : Fin 64, bcdToBcl x < 64 ∧ bclToBcd (bcdToBcl x) = x := by decide
  exact hall ⟨x, h⟩

/-! ### A channel -/

/-- The group mark, and the blank that is put after it. -/
abbrev groupMark : ℕ := 0o37
abbrev blank : ℕ := 0o14

/-- A channel with the memory and its size. -/
structure Chan where
  d : ℕ
  w : ℕ
  cc : ℕ
  status : ℕ
  mem : ℕ → ℕ
  memsize : ℕ

namespace Chan

variable (s : Chan)

/-- The end of the record. -/
def ended : Chan := { s with status := s.status ||| eor }

/-- How far up the character `i` of a word is. -/
def shift (i : ℕ) : ℕ := if s.d &&& devBack ≠ 0 then i * 6 else (7 - i) * 6

end Chan

/-- `chan_advance`. -/
def chanAdvance (s : Chan) : Bool × Chan :=
  let addr := s.d &&& core
  if s.d &&& devWcflg ≠ 0 ∧ wc s.d = 0 then (true, s.ended)
  else
    let s := if s.d &&& devWcflg ≠ 0 then { s with d := bic s.d devWc ||| toWc (wc s.d - 1) } else s
    if addr > s.memsize then (true, { s with d := s.d ||| devMemerr, status := s.status ||| eor })
    else
      let next := (if s.d &&& devBack ≠ 0 then addr + 0o77777 else addr + 1) &&& core
      (false, { s with w := s.mem addr, d := bic s.d core ||| next, cc := 0 })

/-- A word that is stored. -/
def storeWord (s : Chan) : Bool × Chan :=
  let (failed, s) := chanAdvance { s with mem := Function.update s.mem (s.d &&& core) s.w }
  (failed, if failed = true then s else { s with w := 0 })

/-- The group mark at the end. -/
def putGroupMark (s : Chan) : Chan :=
  if s.d &&& devBack ≠ 0 then
    { s with
      w := (List.range' s.cc (8 - s.cc)).foldl (fun w i => w ||| blank <<< (i * 6)) (s.w ||| groupMark <<< (s.cc * 6))
      cc := s.cc + 1 }
  else { s with w := s.w ||| groupMark <<< ((7 - s.cc) * 6), cc := s.cc + 1 }

/-- What comes after the last character. -/
def flush (s : Chan) : Chan :=
  let s := if s.d &&& (devBin ||| devWcflg) = 0 then putGroupMark s else s
  let s := if s.cc ≠ 0 then { (chanAdvance { s with mem := Function.update s.mem (s.d &&& core) s.w }).2 with w := 0 } else s
  s.ended

/-- `chan_write_char`. -/
def writeChar (ch : ℕ) (flags : Bool) (s : Chan) : Bool × Chan :=
  if s.status &&& eor ≠ 0 then (true, s)
  else if s.d &&& devInhtrf ≠ 0 then (true, s.ended)
  else if s.cc = 0 ∧ s.d &&& devWcflg ≠ 0 ∧ wc s.d = 0 then (true, s.ended)
  else
    let w := if s.cc = 0 then 0 else s.w
    let c := ch &&& 0o77
    let c := if s.d &&& devBin = 0 then bclToBcd c else c
    let s := { s with w := w ||| c <<< s.shift s.cc, cc := s.cc + 1 }
    let (failed, s) := if s.cc = 8 then storeWord s else (false, s)
    if failed = true then (true, s)
    else if flags = true then (true, flush s)
    else (false, s)

/-- `chan_read_char`: what it returns, and the character. -/
def readChar (flags : Bool) (s : Chan) : Bool × ℕ × Chan :=
  if s.status &&& eor ≠ 0 then (true, 0, s)
  else if s.d &&& devInhtrf ≠ 0 then (true, 0, s.ended)
  else
    let (failed, s) := if s.cc = 0 then chanAdvance s else (false, s)
    if failed = true then (true, 0, s)
    else
      let c := s.w >>> s.shift s.cc &&& 0o77
      let gm := decide (c = groupMark)
      let s := { s with cc := if s.cc + 1 = 8 then 0 else s.cc + 1 }
      let ch := if s.d &&& devBin = 0 then bcdToBcl c else c
      if s.status &&& usegm ≠ 0 ∧ s.d &&& devWcflg = 0 ∧ gm = true then (true, ch, s.ended)
      else (false, ch, if flags = true then s.ended else s)

/-! ### Records -/

/-- The characters that are delivered until `readChar` returns 1. -/
def readAll : ℕ → Chan → Option (List ℕ)
  | 0, _ => none
  | fuel + 1, s =>
      match readChar false s with
      | (true, _, _) => some []
      | (false, ch, t) => (readAll fuel t).map (ch :: ·)

/-- Characters that are written one by one, the last one with the flag. -/
def writeAll : List ℕ → Chan → Chan
  | [], s => s
  | [ch], s => (writeChar ch true s).2
  | ch :: chs, s => writeAll chs (writeChar ch false s).2

namespace Chan

variable (s : Chan)

/-- A channel with a new operation. -/
def Fresh : Prop := s.cc = 0 ∧ s.status &&& eor = 0 ∧ s.d &&& devInhtrf = 0

/-- Where the word `j` is, and the character `i` of a memory. -/
def place (j : ℕ) : ℕ := ((s.d &&& core) + (if s.d &&& devBack ≠ 0 then j * 0o77777 else j)) % 2 ^ 15
def char (mem : ℕ → ℕ) (i : ℕ) : ℕ := extract (s.shift (i % 8)) 6 (mem (s.place (i / 8)))

end Chan

/-! ### Words -/

section Words

variable {s₀ s : Chan} {d j m v : ℕ}

lemma core_eq (d : ℕ) : d &&& core = extract 0 15 d := rfl

lemma wc_eq (d : ℕ) : wc d = extract 30 10 d := by
  rw [wc, show devWc = (2 ^ 10 - 1) <<< 30 from rfl, Nat.shiftRight_and_distrib, Nat.shiftLeft_shiftRight, extract]

/-- Bits that are apart from a field do not see what is deposited in it. -/
lemma deposit_and {pos size : ℕ} (h : mask pos size &&& m = 0) (v d : ℕ) : deposit pos size v d &&& m = d &&& m := by
  refine Nat.eq_of_testBit_eq fun k => ?_
  rw [Nat.testBit_and, Nat.testBit_and, testBit_deposit]
  split_ifs with hin
  · have hm : (mask pos size &&& m).testBit k = false := by rw [h, Nat.zero_testBit]
    rw [Nat.testBit_and, testBit_mask, decide_eq_true hin.1, decide_eq_true hin.2, Bool.true_and, Bool.true_and] at hm
    rw [hm, Bool.and_false, Bool.and_false]
  · rfl

/-- A channel after `j` words: the flags are those it started with, and the address and the count have moved on. -/
structure After (s₀ s : Chan) (j : ℕ) : Prop where
  flags : ∀ m, mask 0 15 &&& m = 0 → mask 30 10 &&& m = 0 → s.d &&& m = s₀.d &&& m
  addr : s.d &&& core = s₀.place j
  count : s₀.d &&& devWcflg ≠ 0 → wc s.d + j = wc s₀.d
  size : s.memsize = s₀.memsize

lemma After.start (s₀ : Chan) : After s₀ s₀ 0 where
  flags _ _ _ := rfl
  addr := by
    have hlt : s₀.d &&& core < 2 ^ 15 := Nat.and_lt_two_pow _ (by norm_num)
    rw [Chan.place]
    split_ifs <;> rw [Nat.mod_eq_of_lt (by omega)] <;> omega
  count _ := rfl
  size := rfl

section Flags

variable (h : After s₀ s j)

include h

lemma After.wcflg : s.d &&& devWcflg = s₀.d &&& devWcflg := h.flags _ (by decide) (by decide)
lemma After.back : s.d &&& devBack = s₀.d &&& devBack := h.flags _ (by decide) (by decide)
lemma After.bin : s.d &&& devBin = s₀.d &&& devBin := h.flags _ (by decide) (by decide)
lemma After.inhtrf : s.d &&& devInhtrf = s₀.d &&& devInhtrf := h.flags _ (by decide) (by decide)
lemma After.shift : s.shift = s₀.shift := by
  funext i
  rw [Chan.shift, Chan.shift, h.back]

end Flags

/-- The next address. -/
lemma place_succ (s : Chan) (j : ℕ) :
    (if s.d &&& devBack ≠ 0 then s.place j + 0o77777 else s.place j + 1) % 2 ^ 15 = s.place (j + 1) := by
  rw [Chan.place, Chan.place]
  split_ifs <;> lia

/-- The count of a descriptor goes down by one. -/
lemma counted_down (s : Chan) :
    ∃ d, (if s.d &&& devWcflg ≠ 0 then { s with d := bic s.d devWc ||| toWc (wc s.d - 1) } else s : Chan) = { s with d := d }
      ∧ (∀ m, mask 30 10 &&& m = 0 → d &&& m = s.d &&& m)
      ∧ (s.d &&& devWcflg ≠ 0 → wc d = wc s.d - 1) := by
  by_cases hcount : s.d &&& devWcflg ≠ 0
  · rw [if_pos hcount]
    refine ⟨deposit 30 10 (wc s.d - 1) s.d, rfl, fun m hm => deposit_and hm _ _, fun _ => ?_⟩
    have hlt : wc s.d < 2 ^ 10 := by
      rw [wc_eq]
      exact Nat.and_lt_two_pow _ (by norm_num)
    rw [wc_eq, extract_deposit, Nat.mod_eq_of_lt (by omega)]
  · rw [if_neg hcount]
    exact ⟨s.d, rfl, fun _ _ => rfl, fun hno => absurd hno hcount⟩

lemma chanAdvance_of {t : Chan} (hleft : ¬ (s.d &&& devWcflg ≠ 0 ∧ wc s.d = 0))
    (ht : (if s.d &&& devWcflg ≠ 0 then { s with d := bic s.d devWc ||| toWc (wc s.d - 1) } else s : Chan) = t)
    (hsize : ¬ s.d &&& core > t.memsize) :
    chanAdvance s = (false, { t with
      w := t.mem (s.d &&& core), cc := 0
      d := deposit 0 15 (if t.d &&& devBack ≠ 0 then (s.d &&& core) + 0o77777 else (s.d &&& core) + 1) t.d }) := by
  subst ht
  rw [chanAdvance, if_neg hleft]
  exact if_neg hsize

/-- An advance inside the memory, with words left. -/
lemma After.advance (h : After s₀ s j) (hleft : s₀.d &&& devWcflg ≠ 0 → j < wc s₀.d)
    (hsize : s₀.place j ≤ s₀.memsize) :
    ∃ t, chanAdvance s = (false, t) ∧ After s₀ t (j + 1) ∧ t.w = s.mem (s₀.place j) ∧ t.cc = 0 ∧ t.mem = s.mem
      ∧ t.status = s.status := by
  have hsome : ¬ (s.d &&& devWcflg ≠ 0 ∧ wc s.d = 0) := fun ⟨hcount, hzero⟩ => by
    rw [h.wcflg] at hcount
    have hwc := h.count hcount
    have hlt := hleft hcount
    omega
  obtain ⟨d, hd, hflags, hwc⟩ := counted_down s
  have hin : ¬ s.d &&& core > ({ s with d := d } : Chan).memsize := by
    rw [h.addr]
    exact Nat.not_lt.mpr (hsize.trans_eq h.size.symm)
  have hback : d &&& devBack = s₀.d &&& devBack := (hflags _ (by decide)).trans h.back
  refine ⟨_, chanAdvance_of hsome hd hin, ⟨fun m hm0 hm30 => ?_, ?_, fun hcount => ?_, h.size⟩, ?_, rfl, rfl, rfl⟩
  · exact (deposit_and hm0 _ _).trans ((hflags m hm30).trans (h.flags m hm0 hm30))
  · rw [core_eq]
    refine (extract_deposit 0 15 _ _).trans ?_
    rw [hback, h.addr, place_succ]
  · have hdown := h.count hcount
    have hlt := hleft hcount
    have hwc' := hwc (by rw [h.wcflg]; exact hcount)
    have hkept : wc (deposit 0 15 (if d &&& devBack ≠ 0 then (s.d &&& core) + 0o77777 else (s.d &&& core) + 1) d)
        = wc d := by
      rw [wc, wc, deposit_and (by decide)]
    have hgoal : wc d + (j + 1) = wc s₀.d := by lia
    rwa [← hkept] at hgoal
  · rw [h.addr]

/-- An advance when all the words have been counted. -/
lemma After.stop (h : After s₀ s j) (hcount : s₀.d &&& devWcflg ≠ 0) (hnone : wc s₀.d = j) :
    chanAdvance s = (true, s.ended) := by
  have hwc := h.count hcount
  rw [chanAdvance, if_pos ⟨by rw [h.wcflg]; exact hcount, by omega⟩]

end Words

/-! ### Reading -/

section Read

variable {s₀ s : Chan} {i n : ℕ}

/-- A channel that has delivered `i` characters. -/
structure Reading (s₀ s : Chan) (i : ℕ) : Prop where
  after : After s₀ s ((i + 7) / 8)
  cc : s.cc = i % 8
  w : i % 8 ≠ 0 → s.w = s₀.mem (s₀.place (i / 8))
  mem : s.mem = s₀.mem
  status : s.status = s₀.status

/-- The record that is read has `n` characters: those of the words that are counted, or those before a group mark. -/
def Chan.Ends (s : Chan) (n : ℕ) : Prop :=
  if s.d &&& devWcflg ≠ 0 then n = 8 * wc s.d
  else s.status &&& usegm ≠ 0 ∧ s.char s.mem n = groupMark ∧ ∀ i < n, s.char s.mem i ≠ groupMark

/-- The words that are read. -/
def Chan.wordsRead (s : Chan) (n : ℕ) : ℕ := if s.d &&& devWcflg ≠ 0 then wc s.d else n / 8 + 1

/-- A character as it is delivered. -/
def Chan.code (s : Chan) (x : ℕ) : ℕ := if s.d &&& devBin = 0 then bcdToBcl x else x

lemma Reading.start (h : s.Fresh) : Reading s s 0 :=
  ⟨After.start s, h.1, fun hno => absurd rfl hno, rfl, rfl⟩

lemma readChar_of {t : Chan} (heor : ¬ s.status &&& eor ≠ 0) (hinh : ¬ s.d &&& devInhtrf ≠ 0)
    (ht : (if s.cc = 0 then chanAdvance s else (false, s)) = (false, t)) :
    readChar false s =
      (let c := t.w >>> t.shift t.cc &&& 0o77
        let u : Chan := { t with cc := if t.cc + 1 = 8 then 0 else t.cc + 1 }
        let ch := if t.d &&& devBin = 0 then bcdToBcl c else c
        if t.status &&& usegm ≠ 0 ∧ t.d &&& devWcflg = 0 ∧ decide (c = groupMark) = true then (true, ch, u.ended)
        else (false, ch, u)) := by
  rw [readChar, if_neg heor, if_neg hinh, ht]
  rfl

/-- The word of the next character is there. -/
lemma Reading.fetch (h : Reading s₀ s i) (hleft : s₀.d &&& devWcflg ≠ 0 → i < 8 * wc s₀.d)
    (hsize : s₀.place (i / 8) ≤ s₀.memsize) :
    ∃ t, (if s.cc = 0 then chanAdvance s else (false, s)) = (false, t) ∧ After s₀ t (i / 8 + 1)
      ∧ t.w = s₀.mem (s₀.place (i / 8)) ∧ t.cc = i % 8 ∧ t.mem = s₀.mem ∧ t.status = s₀.status := by
  by_cases hcc : s.cc = 0
  · have hmod : i % 8 = 0 := h.cc.symm.trans hcc
    have hafter := h.after
    rw [show (i + 7) / 8 = i / 8 by omega] at hafter
    obtain ⟨t, ht, hnext, hw, hcc', hmem, hstatus⟩ := hafter.advance (fun hcount => by have := hleft hcount; omega) hsize
    rw [if_pos hcc]
    exact ⟨t, ht, hnext, hw.trans (by rw [h.mem]), hcc'.trans hmod.symm, hmem.trans h.mem, hstatus.trans h.status⟩
  · have hmod : i % 8 ≠ 0 := fun hno => hcc (h.cc.trans hno)
    have hafter := h.after
    rw [show (i + 7) / 8 = i / 8 + 1 by lia] at hafter
    rw [if_neg hcc]
    exact ⟨s, rfl, hafter, h.w hmod, h.cc, h.mem, h.status⟩

/-- The character that is looked at, with the channel as it is then. -/
lemma Reading.look (hfresh : s₀.Fresh) (h : Reading s₀ s i) (hleft : s₀.d &&& devWcflg ≠ 0 → i < 8 * wc s₀.d)
    (hsize : s₀.place (i / 8) ≤ s₀.memsize) :
    ∃ t, Reading s₀ t (i + 1) ∧ readChar false s
      = if s₀.status &&& usegm ≠ 0 ∧ s₀.d &&& devWcflg = 0 ∧ decide (s₀.char s₀.mem i = groupMark) = true then
          (true, s₀.code (s₀.char s₀.mem i), t.ended)
        else (false, s₀.code (s₀.char s₀.mem i), t) := by
  obtain ⟨-, heor, hinh⟩ := hfresh
  obtain ⟨t, ht, hafter, hw, hcc, hmem, hstatus⟩ := h.fetch hleft hsize
  have hchar : t.w >>> t.shift t.cc &&& 0o77 = s₀.char s₀.mem i := by
    rw [hw, hcc, hafter.shift]
    rfl
  have hread := readChar_of (by rw [h.status]; exact not_not.mpr heor) (by rw [h.after.inhtrf]; exact not_not.mpr hinh) ht
  dsimp only at hread
  rw [hchar, hafter.bin, hafter.wcflg, hstatus] at hread
  refine ⟨{ t with cc := if t.cc + 1 = 8 then 0 else t.cc + 1 }, ⟨?_, ?_, fun hne => ?_, hmem, hstatus⟩, ?_⟩
  · rw [show (i + 1 + 7) / 8 = i / 8 + 1 by lia]
    exact ⟨hafter.flags, hafter.addr, hafter.count, hafter.size⟩
  · show (if t.cc + 1 = 8 then 0 else t.cc + 1) = (i + 1) % 8
    rw [hcc]
    split_ifs <;> lia
  · rw [show (i + 1) / 8 = i / 8 by lia]
    exact hw
  · rw [hread, hstatus]
    rfl

/-- A character is delivered. -/
lemma Reading.next (hfresh : s₀.Fresh) (h : Reading s₀ s i) (hends : s₀.Ends n) (hi : i < n)
    (hsize : s₀.place (i / 8) ≤ s₀.memsize) :
    ∃ t, readChar false s = (false, s₀.code (s₀.char s₀.mem i), t) ∧ Reading s₀ t (i + 1) := by
  rw [Chan.Ends] at hends
  by_cases hcount : s₀.d &&& devWcflg ≠ 0
  · rw [if_pos hcount] at hends
    obtain ⟨t, hnext, hread⟩ := h.look hfresh (fun _ => by omega) hsize
    rw [if_neg fun hno => hcount hno.2.1] at hread
    exact ⟨t, hread, hnext⟩
  · rw [if_neg hcount] at hends
    obtain ⟨t, hnext, hread⟩ := h.look hfresh (fun hno => absurd hno hcount) hsize
    rw [if_neg fun hno => hends.2.2 i hi (of_decide_eq_true hno.2.2)] at hread
    exact ⟨t, hread, hnext⟩

/-- The end of the record. -/
lemma Reading.last (hfresh : s₀.Fresh) (h : Reading s₀ s n) (hends : s₀.Ends n)
    (hsize : s₀.d &&& devWcflg = 0 → s₀.place (n / 8) ≤ s₀.memsize) : (readChar false s).1 = true := by
  rw [Chan.Ends] at hends
  by_cases hcount : s₀.d &&& devWcflg ≠ 0
  · rw [if_pos hcount] at hends
    obtain ⟨-, heor, hinh⟩ := hfresh
    have hafter := h.after
    rw [show (n + 7) / 8 = wc s₀.d by omega] at hafter
    have hcc : s.cc = 0 := h.cc.trans (by lia)
    rw [readChar, if_neg (by rw [h.status]; exact not_not.mpr heor),
      if_neg (by rw [h.after.inhtrf]; exact not_not.mpr hinh), if_pos hcc, hafter.stop hcount rfl]
    rfl
  · rw [if_neg hcount] at hends
    obtain ⟨t, -, hread⟩ := h.look hfresh (fun hno => absurd hno hcount) (hsize (not_not.mp hcount))
    rw [hread, if_pos ⟨hends.1, not_not.mp hcount, decide_eq_true hends.2.1⟩]

/-- **The characters that are delivered** are those of the record, and no more. -/
theorem readAll_delivers (hfresh : s₀.Fresh) (hends : s₀.Ends n)
    (hsize : ∀ j < s₀.wordsRead n, s₀.place j ≤ s₀.memsize) {fuel : ℕ} (hfuel : n < fuel) :
    readAll fuel s₀ = some ((List.range n).map fun i => s₀.code (s₀.char s₀.mem i)) := by
  have hwords (i : ℕ) (hi : i < n) : s₀.place (i / 8) ≤ s₀.memsize := by
    refine hsize _ ?_
    rw [Chan.wordsRead]
    rw [Chan.Ends] at hends
    split_ifs at hends ⊢ <;> lia
  have hlast (hcount : s₀.d &&& devWcflg = 0) : s₀.place (n / 8) ≤ s₀.memsize := by
    refine hsize _ ?_
    rw [Chan.wordsRead, if_neg (not_not.mpr hcount)]
    exact Nat.lt_succ_self _
  have hrun : ∀ k fuel i s, Reading s₀ s i → i + k = n → k < fuel →
      readAll fuel s = some ((List.range' i k).map fun i => s₀.code (s₀.char s₀.mem i)) := by
    intro k
    induction k with
    | zero =>
        intro fuel i s hs hi hfuel
        obtain ⟨fuel, rfl⟩ : ∃ f, fuel = f + 1 := ⟨fuel - 1, by omega⟩
        obtain rfl : i = n := hi
        have hend := hs.last hfresh hends hlast
        rcases hread : readChar false s with ⟨r, ch, t⟩
        rw [hread] at hend
        obtain rfl : r = true := hend
        rw [readAll, hread]
        rfl
    | succ k ih =>
        intro fuel i s hs hi hfuel
        obtain ⟨fuel, rfl⟩ : ∃ f, fuel = f + 1 := ⟨fuel - 1, by lia⟩
        obtain ⟨t, hread, ht⟩ := hs.next hfresh hends (by omega) (hwords i (by omega))
        rw [readAll, hread, List.range'_succ, List.map_cons]
        show (readAll fuel t).map _ = _
        rw [ih fuel (i + 1) t ht (by omega) (by omega), Option.map_some]
  rw [hrun n fuel 0 s₀ (Reading.start hfresh) (Nat.zero_add n) hfuel, List.range_eq_range']

end Read

/-! ### Writing -/

section Write

variable {s₀ s : Chan} {x : ℕ → ℕ} {i j k n c w ch : ℕ}

lemma extract_or (pos size a b : ℕ) : extract pos size (a ||| b) = extract pos size a ||| extract pos size b := by
  rw [extract, extract, extract, Nat.shiftRight_or_distrib, Nat.and_or_distrib_right]

lemma extract_zero (pos size : ℕ) : extract pos size 0 = 0 := by rw [extract, Nat.zero_shiftRight, Nat.zero_and]

/-- A character that is put into a word is in its own place. -/
lemma extract_put (s : Chan) (hk : k < 8) (hj : j < 8) (hc : c < 64) :
    extract (s.shift k) 6 (w ||| c <<< s.shift j) = extract (s.shift k) 6 w ||| if k = j then c else 0 := by
  rw [extract_or]
  refine congrArg _ ?_
  split_ifs with heq
  · rw [heq, extract, Nat.shiftLeft_shiftRight, Nat.and_two_pow_sub_one_eq_mod, Nat.mod_eq_of_lt hc]
  · refine Nat.eq_of_testBit_eq fun b => ?_
    rw [testBit_extract, Nat.testBit_shiftLeft, Nat.zero_testBit]
    rcases Nat.lt_or_ge b 6 with hb | hb
    · rcases Nat.lt_or_ge (s.shift k + b) (s.shift j) with hlow | hhigh
      · rw [decide_eq_false (by omega), Bool.false_and, Bool.false_and]
      · have hfar : 6 ≤ s.shift k + b - s.shift j := by
          rw [Chan.shift, Chan.shift] at hhigh ⊢
          split_ifs at hhigh ⊢ <;> lia
        have hbit : c < 2 ^ (s.shift k + b - s.shift j) := hc.trans_le (Nat.pow_le_pow_right Nat.two_pos hfar)
        rw [Nat.testBit_lt_two_pow hbit, Bool.and_false, Bool.false_and]
    · rw [decide_eq_false (Nat.not_lt.mpr hb), Bool.and_false]

/-- A character as it is stored. -/
def Chan.decode (s : Chan) (ch : ℕ) : ℕ := if s.d &&& devBin = 0 then bclToBcd (ch &&& 0o77) else ch &&& 0o77

lemma decode_lt (s : Chan) (ch : ℕ) : s.decode ch < 64 := by
  have hall : ∀ x : Fin 64, bclToBcd x < 64 := by decide
  have hch : ch &&& 0o77 < 64 := Nat.and_lt_two_pow (n := 6) _ (by norm_num)
  rw [Chan.decode]
  split_ifs
  · exact hall ⟨_, hch⟩
  · exact hch

/-- A channel that has taken `i` characters. -/
structure Writing (s₀ s : Chan) (x : ℕ → ℕ) (i : ℕ) : Prop where
  after : After s₀ s (i / 8)
  cc : s.cc = i % 8
  w : 0 < i → ∀ k < 8, extract (s₀.shift k) 6 s.w = if k < i % 8 then x (8 * (i / 8) + k) else 0
  mem : ∀ l < 8 * (i / 8), s₀.char s.mem l = x l
  frame : ∀ addr, (∀ j < i / 8, addr ≠ s₀.place j) → s.mem addr = s₀.mem addr
  status : s.status &&& eor = 0

lemma Writing.start (h : s.Fresh) (x : ℕ → ℕ) : Writing s s x 0 :=
  ⟨After.start s, h.1, fun hno => absurd hno (lt_irrefl 0), fun l hl => absurd hl (by omega), fun _ _ => rfl, h.2.1⟩

/-- Words are at different places. -/
lemma place_ne (s : Chan) {i j : ℕ} (hij : i < j) (hj : j < 2 ^ 15) : s.place i ≠ s.place j := by
  rw [Chan.place, Chan.place]
  split_ifs <;> omega

/-- A word that is stored, with the characters that are in it. -/
lemma Writing.char_update (h : Writing s₀ s x i) (hi : i / 8 < 2 ^ 15) {n : ℕ} (hn : n ≤ 8)
    (hw : ∀ k < n, extract (s₀.shift k) 6 w = x (8 * (i / 8) + k)) :
    (∀ l < 8 * (i / 8) + n, s₀.char (Function.update s.mem (s₀.place (i / 8)) w) l = x l)
      ∧ ∀ addr, (∀ j < i / 8 + 1, addr ≠ s₀.place j) →
        Function.update s.mem (s₀.place (i / 8)) w addr = s₀.mem addr := by
  refine ⟨fun l hl => ?_, fun addr haddr => ?_⟩
  · rcases Nat.lt_or_ge l (8 * (i / 8)) with hlow | hhigh
    · rw [Chan.char, Function.update_of_ne (place_ne s₀ (by omega) hi)]
      exact h.mem l hlow
    · have hword := hw (l - 8 * (i / 8)) (by omega)
      rw [Chan.char, show l / 8 = i / 8 by lia, Function.update_self, show l % 8 = l - 8 * (i / 8) by lia, hword,
        Nat.add_sub_cancel' hhigh]
  · rw [Function.update_of_ne (haddr _ (Nat.lt_succ_self _)),
      h.frame addr fun j hj => haddr j (hj.trans (Nat.lt_succ_self _))]

lemma writeChar_of (ch : ℕ) {t : Chan} (heor : ¬ s.status &&& eor ≠ 0) (hinh : ¬ s.d &&& devInhtrf ≠ 0)
    (hleft : ¬ (s.cc = 0 ∧ s.d &&& devWcflg ≠ 0 ∧ wc s.d = 0))
    (ht : (if s.cc + 1 = 8 then storeWord { s with
        w := (if s.cc = 0 then 0 else s.w) ||| s.decode ch <<< s.shift s.cc, cc := s.cc + 1 }
      else (false, { s with w := (if s.cc = 0 then 0 else s.w) ||| s.decode ch <<< s.shift s.cc, cc := s.cc + 1 }))
        = (false, t)) (flags : Bool) :
    writeChar ch flags s = if flags = true then (true, flush t) else (false, t) := by
  rw [writeChar, if_neg heor, if_neg hinh, if_neg hleft]
  rw [Chan.decode] at ht
  dsimp only
  rw [ht]
  rfl

/-- A character that is put into the word. -/
lemma Writing.put (h : Writing s₀ s x i) (hx : x i = s₀.decode ch) (hk : k < 8) :
    extract (s₀.shift k) 6 ((if s.cc = 0 then 0 else s.w) ||| s.decode ch <<< s.shift s.cc)
      = if k < i % 8 + 1 then x (8 * (i / 8) + k) else 0 := by
  have hdecode : s.decode ch = x i := by rw [hx, Chan.decode, Chan.decode, h.after.bin]
  have hold : extract (s₀.shift k) 6 (if s.cc = 0 then 0 else s.w)
      = if k < i % 8 then x (8 * (i / 8) + k) else 0 := by
    by_cases hcc : s.cc = 0
    · rw [if_pos hcc, extract_zero, if_neg (by rw [← h.cc, hcc]; exact Nat.not_lt_zero k)]
    · have hpos : 0 < i := Nat.pos_of_ne_zero fun hno => hcc (by rw [h.cc, hno])
      rw [if_neg hcc, h.w hpos k hk]
  have hlt : x i < 64 := by
    rw [hx]
    exact decode_lt s₀ ch
  rw [h.after.shift, hdecode, h.cc, extract_put s₀ hk (Nat.mod_lt _ (by norm_num)) hlt, ← h.cc, hold]
  rcases Nat.lt_trichotomy k (i % 8) with hlow | heq | hhigh
  · rw [if_pos hlow, h.cc, if_neg (by omega), if_pos (by omega), Nat.or_zero]
  · rw [if_neg (by omega), h.cc, if_pos heq, if_pos (by omega), Nat.zero_or, heq, Nat.div_add_mod]
  · rw [if_neg (by omega), h.cc, if_neg (by omega), if_neg (by omega), Nat.or_zero]

/-- A character is taken. -/
lemma Writing.next (hinh : s₀.d &&& devInhtrf = 0) (h : Writing s₀ s x i) (hx : x i = s₀.decode ch)
    (hleft : s₀.d &&& devWcflg ≠ 0 → i < 8 * wc s₀.d) (hsize : s₀.place (i / 8) ≤ s₀.memsize) (hfar : i / 8 < 2 ^ 15) :
    ∃ t, Writing s₀ t x (i + 1)
      ∧ ∀ flags, writeChar ch flags s = if flags = true then (true, flush t) else (false, t) := by
  have hsome : ¬ (s.cc = 0 ∧ s.d &&& devWcflg ≠ 0 ∧ wc s.d = 0) := fun ⟨_, hcount, hzero⟩ => by
    rw [h.after.wcflg] at hcount
    have hwc := h.after.count hcount
    have hlt := hleft hcount
    lia
  have hcall {t : Chan} := writeChar_of (s := s) ch (t := t) (not_not.mpr h.status)
    (by rw [h.after.inhtrf]; exact not_not.mpr hinh) hsome
  generalize hW : (if s.cc = 0 then 0 else s.w) ||| s.decode ch <<< s.shift s.cc = W at hcall
  have hput (k : ℕ) (hk : k < 8) : extract (s₀.shift k) 6 W = if k < i % 8 + 1 then x (8 * (i / 8) + k) else 0 := by
    rw [← hW]
    exact h.put hx hk
  by_cases hfull : s.cc + 1 = 8
  · have hmod : i % 8 = 7 := by
      have hcc := h.cc
      lia
    have hafter : After s₀ { s with
        w := W, cc := s.cc + 1, mem := Function.update s.mem (s.d &&& core) W } (i / 8) :=
      ⟨h.after.flags, h.after.addr, h.after.count, h.after.size⟩
    obtain ⟨t, ht, hnext, -, hcc, hmem, hstatus⟩ :=
      hafter.advance (fun hcount => by have := hleft hcount; omega) hsize
    obtain ⟨hchar, hframe⟩ := h.char_update (w := W) hfar (n := 8) le_rfl fun k hk => by
      rw [hput k hk, if_pos (by lia)]
    have hmem' : t.mem = Function.update s.mem (s₀.place (i / 8)) W := by
      rw [hmem, ← h.after.addr]
    refine ⟨{ t with w := 0 }, ⟨?_, ?_, fun _ k _ => ?_, fun l hl => ?_, fun addr haddr => ?_, ?_⟩, hcall ?_⟩
    · rw [show (i + 1) / 8 = i / 8 + 1 by lia]
      exact ⟨hnext.flags, hnext.addr, hnext.count, hnext.size⟩
    · show t.cc = (i + 1) % 8
      lia
    · rw [extract_zero, if_neg (by lia)]
    · rw [show ({ t with w := 0 } : Chan).mem = _ from hmem']
      exact hchar l (by lia)
    · rw [show ({ t with w := 0 } : Chan).mem = _ from hmem']
      exact hframe addr fun j hj => haddr j (by lia)
    · show t.status &&& eor = 0
      rw [hstatus]
      exact h.status
    · rw [if_pos hfull, storeWord, ht]
      rfl
  · have hmod : i % 8 ≠ 7 := by
      have hcc := h.cc
      lia
    refine ⟨{ s with w := W, cc := s.cc + 1 }, ⟨?_, ?_, fun _ k hk => ?_, fun l hl => ?_, fun addr haddr => ?_, h.status⟩,
      hcall (if_neg hfull)⟩
    · rw [show (i + 1) / 8 = i / 8 by lia]
      exact ⟨h.after.flags, h.after.addr, h.after.count, h.after.size⟩
    · show s.cc + 1 = (i + 1) % 8
      rw [h.cc]
      lia
    · rw [show (i + 1) / 8 = i / 8 by lia, show (i + 1) % 8 = i % 8 + 1 by lia]
      exact hput k hk
    · exact h.mem l (by lia)
    · exact h.frame addr fun j hj => haddr j (by lia)

lemma chanAdvance_mem (s : Chan) : (chanAdvance s).2.mem = s.mem := by
  rw [chanAdvance]
  dsimp only
  split_ifs <;> rfl

/-- Blanks are put behind the group mark of a record that goes backward. -/
lemma extract_blanks (s : Chan) (hback : s.d &&& devBack ≠ 0) (l : List ℕ) (hl : ∀ j ∈ l, j < 8) (w : ℕ) (hk : k < 8) :
    extract (s.shift k) 6 (l.foldl (fun w i => w ||| blank <<< (i * 6)) w)
      = extract (s.shift k) 6 w ||| if k ∈ l then blank else 0 := by
  induction l generalizing w with
  | nil => rw [List.foldl_nil, if_neg List.not_mem_nil, Nat.or_zero]
  | cons j l ih =>
      rw [List.forall_mem_cons] at hl
      have hshift : j * 6 = s.shift j := by rw [Chan.shift, if_pos hback]
      rw [List.foldl_cons, ih hl.2, hshift, extract_put s hk hl.1 (by decide), Nat.or_assoc]
      refine congrArg _ ?_
      by_cases hkj : k = j
      · rw [if_pos hkj, if_pos (List.mem_cons.mpr (.inl hkj))]
        split_ifs <;> rfl
      · rw [if_neg hkj, Nat.zero_or]
        exact if_congr (by rw [List.mem_cons, or_iff_right hkj]) rfl rfl

/-- The group mark comes behind the characters. -/
lemma Writing.mark (h : Writing s₀ s x n) (hn : 0 < n) (hk : k ≤ n % 8) :
    extract (s₀.shift k) 6 (putGroupMark s).w = if k < n % 8 then x (8 * (n / 8) + k) else groupMark := by
  have hmod : n % 8 < 8 := Nat.mod_lt _ (by norm_num)
  have hmark : extract (s₀.shift k) 6 (s.w ||| groupMark <<< s₀.shift (n % 8))
      = if k < n % 8 then x (8 * (n / 8) + k) else groupMark := by
    rw [extract_put s₀ (hk.trans_lt hmod) hmod (by decide), h.w hn k (hk.trans_lt hmod)]
    by_cases hlow : k < n % 8
    · rw [if_pos hlow, if_neg (Nat.ne_of_lt hlow), if_pos hlow, Nat.or_zero]
    · rw [if_neg hlow, if_pos (by omega), if_neg hlow, Nat.zero_or]
  rw [putGroupMark, h.after.back, h.cc]
  by_cases hback : s₀.d &&& devBack ≠ 0
  · rw [if_pos hback]
    have hshift : n % 8 * 6 = s₀.shift (n % 8) := by rw [Chan.shift, if_pos hback]
    refine (extract_blanks s₀ hback _ (fun j hj => ?_) _ (hk.trans_lt hmod)).trans ?_
    · have hrange := List.mem_range'_1.mp hj
      omega
    · rw [hshift, hmark]
      by_cases hlow : k < n % 8
      · rw [if_pos hlow, if_neg fun hno => by have := (List.mem_range'_1.mp hno).1; omega, Nat.or_zero]
      · rw [if_neg hlow]
        split_ifs <;> rfl
  · rw [if_neg hback]
    have hshift : (7 - n % 8) * 6 = s₀.shift (n % 8) := by rw [Chan.shift, if_neg hback]
    rw [← hmark, hshift]

/-- The last word, where it is not empty. -/
lemma flush_mem (s : Chan) :
    (flush s).mem
      = let t := if s.d &&& (devBin ||| devWcflg) = 0 then putGroupMark s else s
        if t.cc ≠ 0 then Function.update t.mem (t.d &&& core) t.w else t.mem := by
  rw [flush]
  generalize (if s.d &&& (devBin ||| devWcflg) = 0 then putGroupMark s else s) = t
  dsimp only [Chan.ended]
  split_ifs
  · exact chanAdvance_mem _
  · rfl

/-- The end of a record without a group mark. -/
lemma Writing.flushed (h : Writing s₀ s x n) (hn : 0 < n) (hfar : (n + 7) / 8 ≤ 2 ^ 15)
    (hmode : s₀.d &&& (devBin ||| devWcflg) ≠ 0) :
    (∀ l < n, s₀.char (flush s).mem l = x l)
      ∧ ∀ addr, (∀ j < (n + 7) / 8, addr ≠ s₀.place j) → (flush s).mem addr = s₀.mem addr := by
  have hflags : s.d &&& (devBin ||| devWcflg) = s₀.d &&& (devBin ||| devWcflg) := h.after.flags _ (by decide) (by decide)
  rw [flush_mem, hflags, if_neg hmode]
  dsimp only
  by_cases hcc : s.cc ≠ 0
  · have hmod := h.cc
    obtain ⟨hchar, hframe⟩ := h.char_update (w := s.w) (by lia) (n := n % 8) (by lia) fun k hk => by
      rw [h.w hn k (by lia), if_pos hk]
    rw [if_pos hcc, h.after.addr]
    exact ⟨fun l hl => hchar l (by omega), fun addr haddr => hframe addr fun j hj => haddr j (by lia)⟩
  · have hmod := h.cc
    rw [if_neg hcc]
    exact ⟨fun l hl => h.mem l (by omega), fun addr haddr => h.frame addr fun j hj => haddr j (by omega)⟩

/-- The end of a record with one. -/
lemma Writing.marked (h : Writing s₀ s x n) (hn : 0 < n) (hfar : n / 8 < 2 ^ 15)
    (hmode : s₀.d &&& (devBin ||| devWcflg) = 0) :
    (∀ l < n, s₀.char (flush s).mem l = x l) ∧ s₀.char (flush s).mem n = groupMark
      ∧ ∀ addr, (∀ j < n / 8 + 1, addr ≠ s₀.place j) → (flush s).mem addr = s₀.mem addr := by
  have hflags : s.d &&& (devBin ||| devWcflg) = s₀.d &&& (devBin ||| devWcflg) := h.after.flags _ (by decide) (by decide)
  have hmark : (putGroupMark s).cc = s.cc + 1 ∧ (putGroupMark s).mem = s.mem ∧ (putGroupMark s).d = s.d := by
    rw [putGroupMark]
    split_ifs <;> exact ⟨rfl, rfl, rfl⟩
  obtain ⟨hchar, hframe⟩ := h.char_update (w := (putGroupMark s).w) hfar (n := n % 8) (by omega) fun k hk => by
    rw [h.mark hn (by omega), if_pos hk]
  rw [flush_mem, hflags, if_pos hmode]
  dsimp only
  rw [if_pos (by rw [hmark.1]; exact Nat.succ_ne_zero _), hmark.2.1, hmark.2.2, h.after.addr]
  refine ⟨fun l hl => hchar l (by omega), ?_, hframe⟩
  rw [Chan.char, Function.update_self, h.mark hn le_rfl, if_neg (lt_irrefl _)]

/-- The characters that are stored, of `n`, and the words that are. -/
def Chan.taken (s : Chan) (n : ℕ) : ℕ := if s.d &&& devWcflg ≠ 0 then min n (8 * wc s.d) else n
def Chan.wordsWritten (s : Chan) (n : ℕ) : ℕ :=
  if s.d &&& (devBin ||| devWcflg) = 0 then n / 8 + 1 else (s.taken n + 7) / 8

/-- The memory has the characters that were taken, with a group mark where there is one, and other words are as they
were. -/
def Chan.Stored (s : Chan) (x : ℕ → ℕ) (n : ℕ) (mem : ℕ → ℕ) : Prop :=
  (∀ i < s.taken n, s.char mem i = x i) ∧ (s.d &&& (devBin ||| devWcflg) = 0 → s.char mem n = groupMark)
    ∧ ∀ addr, (∀ j < s.wordsWritten n, addr ≠ s.place j) → mem addr = s.mem addr

/-- A channel that has ended takes no more. -/
lemma writeAll_ended (chs : List ℕ) (h : s.status &&& eor ≠ 0) : writeAll chs s = s := by
  have hchar (ch : ℕ) (flags : Bool) : writeChar ch flags s = (true, s) := by rw [writeChar, if_pos h]
  induction chs with
  | nil => rfl
  | cons ch chs ih =>
      cases chs with
      | nil => rw [writeAll, hchar]
      | cons _ _ => rw [writeAll, hchar, ih]; exact nofun

/-- A channel all of whose words have been counted takes none. -/
lemma Writing.full (h : Writing s₀ s x i) (hinh : s₀.d &&& devInhtrf = 0) (hcount : s₀.d &&& devWcflg ≠ 0)
    (hi : i = 8 * wc s₀.d) (chs : List ℕ) : (writeAll chs s).mem = s.mem := by
  have hwc := h.after.count hcount
  have hcc := h.cc
  have hchar (ch : ℕ) (flags : Bool) : writeChar ch flags s = (true, s.ended) := by
    rw [writeChar, if_neg (not_not.mpr h.status), if_neg (by rw [h.after.inhtrf]; exact not_not.mpr hinh),
      if_pos ⟨by lia, by rw [h.after.wcflg]; exact hcount, by lia⟩]
  have hended : s.ended.status &&& eor ≠ 0 := by
    show (s.status ||| eor) &&& eor ≠ 0
    rw [Nat.and_or_distrib_right, h.status]
    decide
  cases chs with
  | nil => rfl
  | cons ch chs =>
      cases chs with
      | nil => rw [writeAll, hchar]; rfl
      | cons _ _ =>
          rw [writeAll, hchar, writeAll_ended _ hended]
          · rfl
          · exact nofun

lemma uncounted_of (h : s.d &&& (devBin ||| devWcflg) = 0) : ¬ s.d &&& devWcflg ≠ 0 := by
  rw [Nat.and_or_distrib_left, Nat.or_eq_zero_iff] at h
  exact not_not.mpr h.2

/-- What is stored when the words have been counted. -/
lemma Writing.stored_full (h : Writing s₀ s x i) (hcount : s₀.d &&& devWcflg ≠ 0) (hi : i = 8 * wc s₀.d) (hin : i ≤ n) :
    s₀.Stored x n s.mem := by
  have hmode : s₀.d &&& (devBin ||| devWcflg) ≠ 0 := fun hno => uncounted_of hno hcount
  have htaken : s₀.taken n = i := by rw [Chan.taken, if_pos hcount, ← hi, Nat.min_eq_right hin]
  refine ⟨fun l hl => h.mem l (by omega), fun hno => absurd hno hmode, fun addr haddr => h.frame addr fun j hj => ?_⟩
  refine haddr j ?_
  rw [Chan.wordsWritten, if_neg hmode, htaken]
  lia

/-- What is stored when the last character has been taken. -/
lemma Writing.stored_last (h : Writing s₀ s x n) (hn : 0 < n) (htaken : s₀.taken n = n)
    (hfar : s₀.wordsWritten n ≤ 2 ^ 15) : s₀.Stored x n (flush s).mem := by
  rw [Chan.Stored, Chan.wordsWritten, htaken]
  rw [Chan.wordsWritten, htaken] at hfar
  by_cases hmode : s₀.d &&& (devBin ||| devWcflg) = 0
  · rw [if_pos hmode] at hfar ⊢
    obtain ⟨hchar, hmark, hframe⟩ := h.marked hn hfar hmode
    exact ⟨hchar, fun _ => hmark, hframe⟩
  · rw [if_neg hmode] at hfar ⊢
    obtain ⟨hchar, hframe⟩ := h.flushed hn hfar hmode
    exact ⟨hchar, fun hno => absurd hno hmode, hframe⟩

/-- The words of the characters that are taken are among those that are written. -/
lemma div_lt_wordsWritten (h : i < s₀.taken n) (hin : i < n) : i / 8 < s₀.wordsWritten n := by
  rw [Chan.wordsWritten]
  split_ifs <;> lia

/-- A channel takes the next character, or all its words have been counted. -/
lemma Writing.next_or_full (h : Writing s₀ s x i) (hinh : s₀.d &&& devInhtrf = 0) (hx : x i = s₀.decode ch)
    (hsize : ∀ j < s₀.wordsWritten n, s₀.place j ≤ s₀.memsize) (hfar : s₀.wordsWritten n ≤ 2 ^ 15) (hi : i < n)
    (hin : i ≤ s₀.taken n) :
    (i < s₀.taken n ∧ ∃ t, Writing s₀ t x (i + 1)
      ∧ ∀ flags, writeChar ch flags s = if flags = true then (true, flush t) else (false, t))
      ∨ ∀ chs, s₀.Stored x n (writeAll chs s).mem := by
  rcases Nat.lt_or_eq_of_le hin with hlt | heq
  · have hword := div_lt_wordsWritten hlt hi
    refine .inl ⟨hlt, h.next hinh hx (fun hcount => ?_) (hsize _ hword) (hword.trans_le hfar)⟩
    rw [Chan.taken, if_pos hcount] at hlt
    lia
  · have hcount : s₀.d &&& devWcflg ≠ 0 := fun hno => by
      rw [Chan.taken, if_neg (not_not.mpr hno)] at heq
      omega
    have hwc : i = 8 * wc s₀.d := by
      rw [Chan.taken, if_pos hcount] at heq
      lia
    refine .inr fun chs => ?_
    rw [h.full hinh hcount hwc]
    exact h.stored_full hcount hwc hi.le

/-- **The characters that are written** are stored, as many as the count lets, and no other word is changed. -/
theorem writeAll_stores (hfresh : s₀.Fresh) (f : ℕ → ℕ) (hn : 0 < n)
    (hsize : ∀ j < s₀.wordsWritten n, s₀.place j ≤ s₀.memsize) (hfar : s₀.wordsWritten n ≤ 2 ^ 15) :
    s₀.Stored (fun i => s₀.decode (f i)) n (writeAll ((List.range n).map f) s₀).mem := by
  have hinh := hfresh.2.2
  have hrun : ∀ k i s, Writing s₀ s (fun i => s₀.decode (f i)) i → i + (k + 1) = n → i ≤ s₀.taken n →
      s₀.Stored (fun i => s₀.decode (f i)) n (writeAll ((List.range' i (k + 1)).map f) s).mem := by
    intro k
    induction k with
    | zero =>
        intro i s h hi hin
        obtain ⟨hlt, t, ht, hwrite⟩ | hfull := h.next_or_full hinh rfl hsize hfar (by omega) hin
        · have hmem : (writeAll ((List.range' i (0 + 1)).map f) s).mem = (flush t).mem :=
            congrArg (fun p => p.2.mem) (hwrite true)
          have htaken : s₀.taken n = n := le_antisymm (by rw [Chan.taken]; split_ifs <;> lia) (by omega)
          rw [hmem]
          rw [show i + 1 = n from hi] at ht
          exact ht.stored_last hn htaken hfar
        · exact hfull _
    | succ k ih =>
        intro i s h hi hin
        obtain ⟨hlt, t, ht, hwrite⟩ | hfull := h.next_or_full hinh rfl hsize hfar (by omega) hin
        · have hmem : writeAll ((List.range' i (k + 1 + 1)).map f) s
              = writeAll ((List.range' (i + 1) (k + 1)).map f) t :=
            congrArg (fun p : Bool × Chan => writeAll ((List.range' (i + 1) (k + 1)).map f) p.2) (hwrite false)
          rw [hmem]
          exact ih (i + 1) t ht (by lia) hlt
        · exact hfull _
  obtain ⟨k, rfl⟩ : ∃ k, n = k + 1 := ⟨n - 1, by omega⟩
  rw [List.range_eq_range']
  exact hrun k 0 s₀ (Writing.start hfresh _) (by omega) (Nat.zero_le _)

end Write

/-! ### Read and written again -/

section Copy

variable {src dst : Chan} {n : ℕ}

/-- The same mode and direction, with a count or without one. -/
def SameMode (src dst : Chan) : Prop :=
  src.d &&& devBin = dst.d &&& devBin ∧ src.d &&& devBack = dst.d &&& devBack ∧ src.d &&& devWcflg = dst.d &&& devWcflg

lemma char_lt (s : Chan) (mem : ℕ → ℕ) (i : ℕ) : s.char mem i < 64 := Nat.and_lt_two_pow (n := 6) _ (by norm_num)

/-- A character is stored as it was. -/
lemma decode_code (h : src.d &&& devBin = dst.d &&& devBin) {c : ℕ} (hc : c < 64) : dst.decode (src.code c) = c := by
  have hmask {x : ℕ} (hx : x < 64) : x &&& 0o77 = x := (Nat.and_two_pow_sub_one_eq_mod x 6).trans (Nat.mod_eq_of_lt hx)
  rw [Chan.decode, Chan.code, h]
  split_ifs
  · rw [hmask (bclToBcd_bcdToBcl hc).1, (bclToBcd_bcdToBcl hc).2]
  · exact hmask hc

/-- The first group mark is in the memory once around. -/
lemma ends_lt (hcount : ¬ src.d &&& devWcflg ≠ 0) (hends : src.Ends n) : n < 8 * 2 ^ 15 := by
  rw [Chan.Ends, if_neg hcount] at hends
  by_contra hge
  have hback : src.char src.mem (n - 8 * 2 ^ 15) = src.char src.mem n := by
    have hplace : src.place ((n - 8 * 2 ^ 15) / 8) = src.place (n / 8) := by
      rw [Chan.place, Chan.place]
      split_ifs <;> lia
    rw [Chan.char, Chan.char, hplace, show (n - 8 * 2 ^ 15) % 8 = n % 8 by lia]
  exact hends.2.2 _ (by omega) (hback.trans hends.2.1)

lemma wordsWritten_le (hmode : SameMode src dst) (hends : src.Ends n) : dst.wordsWritten n ≤ 2 ^ 15 := by
  have hwc : wc dst.d < 2 ^ 10 := by
    rw [wc_eq]
    exact Nat.and_lt_two_pow _ (by norm_num)
  rw [Chan.wordsWritten, Chan.taken]
  by_cases hcount : dst.d &&& devWcflg ≠ 0
  · rw [if_neg fun hno => uncounted_of hno hcount, if_pos hcount]
    omega
  · have hlt := ends_lt (by rw [hmode.2.2]; exact hcount) hends
    rw [if_neg hcount]
    split_ifs <;> lia

/-- **What is read and written again is the same**: the characters that one operation delivers until it returns 1,
written one by one by another of the same mode and direction, the last one with the flag, are the characters of the
first record in the same order, as many as the second count lets, with a group mark behind them where there is no count
and they are translated, and no other word is changed. -/
theorem characters_copied (src dst : Chan) (n : ℕ) (hsrc : src.Fresh) (hdst : dst.Fresh) (hmode : SameMode src dst)
    (hends : src.Ends n) (hread : ∀ j < src.wordsRead n, src.place j ≤ src.memsize)
    (hwrite : ∀ j < dst.wordsWritten n, dst.place j ≤ dst.memsize) :
    ∃ chs, (∀ fuel > n, readAll fuel src = some chs) ∧ chs.length = n
      ∧ (0 < n → dst.Stored (src.char src.mem) n (writeAll chs dst).mem)
      ∧ (n = 0 → (writeAll chs dst).mem = dst.mem) ∧ (dst.d &&& devWcflg ≠ 0 → dst.wordsWritten n ≤ wc dst.d) := by
  refine ⟨(List.range n).map fun i => src.code (src.char src.mem i), fun fuel hfuel => ?_, ?_, fun hn => ?_, ?_,
    fun hcount => ?_⟩
  · exact readAll_delivers hsrc hends hread hfuel
  · rw [List.length_map, List.length_range]
  · have hstored := writeAll_stores hdst (fun i => src.code (src.char src.mem i)) hn hwrite (wordsWritten_le hmode hends)
    have hchar : (fun i => dst.decode (src.code (src.char src.mem i))) = src.char src.mem := by
      funext i
      exact decode_code hmode.1 (char_lt src src.mem i)
    rwa [hchar] at hstored
  · rintro rfl
    rfl
  · rw [Chan.wordsWritten, if_neg fun hno => uncounted_of hno hcount, Chan.taken, if_pos hcount]
    omega

/-- A record of two characters and a group mark, and where it is copied to. -/
def sending : Chan :=
  { d := 0o100, w := 0, cc := 0, status := usegm, memsize := 32768
    mem := fun addr => if addr = 0o100 then 0o2122370000000000 else 0 }
def receiving : Chan := { sending with d := 0o200 }

theorem two_copied : ∃ chs, (∀ fuel > 2, readAll fuel sending = some chs) ∧ chs.length = 2
    ∧ (0 < 2 → receiving.Stored (sending.char sending.mem) 2 (writeAll chs receiving).mem)
    ∧ ((2 : ℕ) = 0 → (writeAll chs receiving).mem = receiving.mem)
    ∧ (receiving.d &&& devWcflg ≠ 0 → receiving.wordsWritten 2 ≤ wc receiving.d) :=
  characters_copied sending receiving 2 ⟨rfl, by decide, by decide⟩ ⟨rfl, by decide, by decide⟩
    ⟨by decide, by decide, by decide⟩
    ((if_neg (by decide : ¬ sending.d &&& devWcflg ≠ 0)).mpr ⟨by decide, by decide, by decide⟩) (by decide) (by decide)

end Copy

end Ka10Simh.B5500
