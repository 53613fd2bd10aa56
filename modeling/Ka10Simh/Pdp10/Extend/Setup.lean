import Ka10Simh.Lib.Fields
import Ka10Simh.Pdp10.Byte.String

/-!
The byte pointers of the EXTEND instructions: `do_byte_setup`, `load_byte` and `store_byte`, with all
pages there.

An operand of EXTEND is three accumulators: a count with flags, and a pointer of two words. The pointer is
stepped as IBP steps one in memory, but that a one word global pointer becomes one of two words, and that
the section of the program does not count. One level of indirection is followed.

* `Core.advance`, `Core.locate`: the two halves of `do_byte_setup`.
* `Core.loadByte`, `Core.storeByte`: a byte, with its count.
* `advance_eq`: the stepped pointer is the pointer to the next byte.
-/

namespace Ka10Simh.Pdp10

open Word Slots BytePtr

/-- `QKLB && t20_page` and `BIT12` alone make a pointer of two words. -/
def ByteMode.ext (x : ByteMode) : ByteMode := { x with far := true }

/-- What `do_byte_setup` has when the pointer has been stepped: the two words, the position and the size,
and what the address is computed from. -/
structure Setup where
  val1 : ℕ
  val2 : ℕ
  np : ℕ
  s : ℕ
  mb : ℕ
  sect : ℕ
  glb : Bool
  ind : Bool
  ix : ℕ

/-- The pointer that is saved. -/
def Setup.pointer (a : Setup) : BytePtr := ⟨(a.val1 &&& pmask) ||| a.np <<< 30, a.val2⟩

/-- The position after a step, in the next word if need be. -/
def nextP (np s : ℕ) : ℕ := if wraps np then stepP 0o44 s else np

/-- The right half of a word incremented, and its right 30 bits. -/
def incRight (v : ℕ) : ℕ := (v &&& lmask) ||| ((v + 1) &&& rmask)
def incLong (v : ℕ) : ℕ := bic v (sectm ||| rmask) ||| ((v + 1) &&& (sectm ||| rmask))

/-- The right half of a word with its sign. -/
def extend (v : ℕ) : ℕ := (v &&& rmask) ||| if v &&& rsign ≠ 0 then lmask else 0

/-! ### The source -/

/-- A one word global pointer, which becomes one of two words. -/
def advanceGlobal (b : BytePtr) : Option Setup :=
  byteAdj[b.p - 37]?.map fun (p, s) =>
    let np := stepP p s
    let val2 := b.first &&& (sectm ||| rmask)
    let val2 := if wraps np then incLong val2 else val2
    let mb := val2 &&& (sectm ||| rmask)
    { val1 := s <<< 24 ||| bit12, val2, np := nextP np s, s, mb, sect := mb >>> 18 &&& 0o7777,
      glb := true, ind := false, ix := 0 }

/-- A pointer of two words, unless its address is illegal. -/
def advanceFull (curSect : ℕ) (b : BytePtr) : Option Setup :=
  let np := stepP b.p b.s
  let val2 :=
    if wraps np then if b.second &&& smask ≠ 0 then incRight b.second else incLong b.second
    else b.second
  if val2 &&& smask ≠ 0 then
    if val2 &&& bit1 ≠ 0 then none
    else
      some { val1 := b.first, val2, np := nextP np b.s, s := b.s, mb := extend val2, sect := curSect,
             glb := false, ind := tstInd val2, ix := getXr val2 }
  else
    let mb := val2 &&& (sectm ||| rmask)
    some { val1 := b.first, val2, np := nextP np b.s, s := b.s, mb, sect := mb >>> 18 &&& 0o7777,
           glb := true, ind := val2 &&& bit1 != 0, ix := val2 >>> 30 &&& 0o17 }

/-- A pointer of one word. -/
def advanceLocal (curSect : ℕ) (b : BytePtr) : Setup :=
  let np := stepP b.p b.s
  let val1 := if wraps np then incRight b.first else b.first
  { val1, val2 := b.second, np := nextP np b.s, s := b.s, mb := extend val1, sect := curSect,
    glb := false, ind := tstInd val1, ix := getXr val1 }

namespace Core

variable {π : Type} (x : Core π)

/-- The first half of `do_byte_setup`. -/
def advance (curSect : ℕ) (b : BytePtr) : Option Setup :=
  if x.mode.klb ∧ b.p > 36 then advanceGlobal b
  else if x.mode.klb ∧ b.first &&& bit12 ≠ 0 then advanceFull curSect b
  else some (advanceLocal curSect b)

/-- The address in a pointer, with its index. -/
def indexByte (m : π → ℕ) (curSect : ℕ) (a : Setup) : VAddr :=
  if a.ix = 0 then ⟨a.mb &&& rmask, ⟨a.sect, curSect, a.glb⟩⟩
  else
    let temp := m (x.acc a.ix)
    if x.mode.klb ∧ a.glb = true ∧ ¬ localIndex temp then
      let temp := (temp + a.mb) &&& (sectm ||| rmask)
      ⟨(temp &&& fmask) &&& rmask, ⟨temp >>> 18 &&& 0o7777, curSect, true⟩⟩
    else ⟨((a.mb + temp) &&& fmask) &&& rmask, ⟨a.sect, curSect, false⟩⟩

/-- A word with a section of its own, or with one in an index register. -/
def efiwByte (m : π → ℕ) (mb : ℕ) : VAddr :=
  let ix := mb >>> 30 &&& 0o17
  let ab := mb &&& (sectm ||| rmask)
  let temp :=
    if ix = 0 then mb
    else
      let temp := m (x.acc ix)
      (if localIndex temp then ab + (temp &&& rmask) else temp + ab) &&& fmask
  let sect := temp >>> 18 &&& 0o7777
  ⟨temp &&& rmask, ⟨sect, sect, true⟩⟩

def ifiwByte (m : π → ℕ) (mb : ℕ) (c : Sects) : VAddr :=
  let ab := mb &&& rmask
  if getXr mb = 0 then ⟨ab, { c with glb := false }⟩
  else
    let temp := m (x.acc (getXr mb))
    if localIndex temp then ⟨(temp + ab) &&& rmask, { c with glb := false }⟩
    else
      let temp := (temp + ab) &&& fmask
      let sect := temp >>> 18 &&& 0o7777
      ⟨temp &&& rmask, ⟨sect, sect, true⟩⟩

/-- `QKLB && sect != 0`. -/
def longIndirect (c : Sects) : Prop := x.mode.cfg.build = .kl ∧ x.mode.cfg.klb = true ∧ c.sect ≠ 0

instance (c : Sects) : Decidable (x.longIndirect c) := inferInstanceAs (Decidable (_ ∧ _))

/-- An indirect word, unless it is illegal. -/
def indirectByte (m : π → ℕ) (mb : ℕ) (c : Sects) : Option VAddr :=
  if x.longIndirect c then
    if mb &&& smask ≠ 0 then
      if mb &&& bit1 ≠ 0 then none else some (x.ifiwByte m mb c)
    else some (x.efiwByte m mb)
  else if getXr mb = 0 then some ⟨mb &&& rmask, c⟩
  else
    let temp := m (x.acc (getXr mb))
    some ⟨((mb + temp) &&& fmask) &&& rmask, { c with glb := false }⟩

/-- The second half of `do_byte_setup`. -/
def locate (m : π → ℕ) (curSect : ℕ) (a : Setup) : Option VAddr :=
  let v := x.indexByte m curSect a
  if a.ind then x.indirectByte m (m (x.loc v)) v.sects else some v

/-- `get_reg(n + i)` and its place, for the first accumulator of an instruction. -/
def ac (a i : ℕ) : π := x.acc ((a + i) &&& 0o17)

variable [DecidableEq π]

/-- `do_byte_setup` for the operand from accumulator `a + i` on, up to the word of the byte. -/
def byteSetup (a i curSect : ℕ) (m : π → ℕ) : Option (Setup × VAddr × (π → ℕ)) := do
  let s ← x.advance curSect ⟨m (x.ac a (i + 1)), m (x.ac a (i + 2))⟩
  let v ← x.locate m curSect s
  let m := Function.update m (x.ac a (i + 1)) s.pointer.first
  return (s, v, Function.update m (x.ac a (i + 2)) s.pointer.second)

/-- `val1--`. -/
def countDown (v : ℕ) : ℕ := (v + 2 ^ 64 - 1) % 2 ^ 64

/-- `load_byte`, when the count is not zero: the byte, and `cur_sect`. -/
def loadByte (a i curSect : ℕ) (m : π → ℕ) : Option (ℕ × ℕ × (π → ℕ)) := do
  let (s, v, m) ← x.byteSetup a i curSect m
  let data := m (x.loc v) >>> (s.np &&& 0o77) &&& (2 ^ s.s - 1)
  return (data, v.sects.curSect, Function.update m (x.ac a i) (countDown (m (x.ac a i))))

/-- `store_byte`. -/
def storeByte (a i data curSect : ℕ) (m : π → ℕ) : Option (ℕ × (π → ℕ)) := do
  let (s, v, m) ← x.byteSetup a i curSect m
  let p := s.np &&& 0o77
  let msk := (2 ^ s.s - 1) <<< p % 2 ^ 64
  let mb := (m (x.loc v) &&& (fmask ^^^ msk)) ||| (msk &&& data <<< p % 2 ^ 64)
  let m := Function.update m (x.loc v) mb
  return (v.sects.curSect, Function.update m (x.ac a i) (countDown (m (x.ac a i))))

end Core

/-! ### The stepped pointer -/

namespace BytePtr

variable {x : ByteMode} {b : BytePtr}

/-- The pointer of two words that a pointer stands for. -/
def full (x : ByteMode) (b : BytePtr) : BytePtr :=
  if Short x b then ⟨b.pos x * 2 ^ 30 + (b.size x * 2 ^ 24 + 2 ^ 23), b.first % 2 ^ 30⟩ else b

lemma full_of_not_short (hshort : ¬ Short x b) : b.full x = b := if_neg hshort

lemma full_not_short (h : Valid x b) : ¬ Short x (b.full x) := by
  by_cases hshort : Short x b
  · rintro ⟨-, hp⟩
    have hpos_le := h.pos_le
    have hsize_le := h.size_le
    rw [full, if_pos hshort, p_eq] at hp
    simp only at hp
    omega
  · rwa [full_of_not_short hshort]

lemma full_unit (h : Valid x b) : (b.full x).unit x = b.unit x := by
  by_cases hshort : Short x b
  · have hpos_le := h.pos_le
    have hsize_le := h.size_le
    rw [unit, if_neg (full_not_short h), full, if_pos hshort, p_eq, s_eq]
    refine Prod.ext ?_ ?_
    · show (b.pos x * 2 ^ 30 + (b.size x * 2 ^ 24 + 2 ^ 23)) / 2 ^ 30 % 64 = b.pos x
      omega
    · show (b.pos x * 2 ^ 30 + (b.size x * 2 ^ 24 + 2 ^ 23)) / 2 ^ 24 % 64 = b.size x
      omega
  · rw [full_of_not_short hshort]

lemma full_size (h : Valid x b) : (b.full x).size x = b.size x := by rw [size, full_unit h, size]
lemma full_pos (h : Valid x b) : (b.full x).pos x = b.pos x := by rw [pos, full_unit h, pos]
lemma full_per (h : Valid x b) : (b.full x).per x = b.per x := by rw [per, full_size h, per]
lemma full_byte (h : Valid x b) : (b.full x).byte x = b.byte x := by
  rw [byte, full_size h, full_pos h, byte]

lemma full_valid (h : Valid x b) : Valid x (b.full x) := by
  by_cases hshort : Short x b
  · have hpos_le := h.pos_le
    have hsize_le := h.size_le
    refine ⟨by rwa [full_pos h], by rw [full_size h]; exact h.size_pos, by rwa [full_size h],
      by rw [full_size h, full_pos h]; exact h.aligned, ?_, ?_, fun _ _ => ?_⟩
    · rw [full, if_pos hshort]
      show b.pos x * 2 ^ 30 + (b.size x * 2 ^ 24 + 2 ^ 23) < 2 ^ 36
      omega
    · rw [full, if_pos hshort]
      show b.first % 2 ^ 30 < 2 ^ 36
      omega
    · rw [full, if_pos hshort, show smask = 2 ^ 35 from rfl, and_pow_ne_zero]
      show ¬ (b.first % 2 ^ 30 / 2 ^ 35 % 2 = 1 ∧ _)
      omega
  · rwa [full_of_not_short hshort]

/-- The position that a step leaves, and whether it goes to the next word. -/
lemma nextP_eq (h : Valid x b) (hshort : ¬ Short x b) :
    nextP (stepP b.p b.s) b.s = 36 - (next (b.per x) ⟨0, b.byte x⟩).byte * b.size x := by
  have hfield := congrArg Prod.snd (stepField_eq h)
  have hshort' : ¬ (x.klb = true ∧ b.p > 36) := hshort
  rw [stepField, if_neg hshort'] at hfield
  exact hfield

lemma next_word_eq (h : Valid x b) (hshort : ¬ Short x b) :
    (next (b.per x) ⟨0, b.byte x⟩).word = if wraps (stepP b.p b.s) then 1 else 0 := by
  obtain ⟨hpos, hsize⟩ := unit_of_not_short hshort
  have hwraps := wraps_stepP h.pos_le h.size_le
  have hbyte := h.byte_lt_iff
  rw [hpos, hsize] at hwraps hbyte
  simp only [next]
  by_cases hlt : b.p < b.s
  · rw [if_neg (by omega), if_pos (hwraps.mpr hlt)]
    rfl
  · rw [if_pos (by omega), if_neg (hwraps.not.mpr hlt)]

lemma incRight_move {v : ℕ} (hv : v < 2 ^ 36) : incRight v = moveAddr (2 ^ 18) v 1 := by
  rw [incRight, Nat.or_comm, incRight_eq hv]

lemma incLong_move (v : ℕ) : incLong v = moveAddr (2 ^ 30) v 1 := by
  rw [incLong, Nat.or_comm, incLong_eq]

/-- The pointer that `do_byte_setup` saves for a pointer of two words. -/
lemma advanceFull_eq (h : Valid x b) (hshort : ¬ Short x b) (hfull : b.isFull x = true) (c : ℕ) :
    ∃ s, advanceFull c b = some s ∧ s.s = b.s ∧ s.np = nextP (stepP b.p b.s) b.s
      ∧ s.val1 = b.first
      ∧ s.val2 = moveAddr (b.space x) b.second (if wraps (stepP b.p b.s) then 1 else 0) := by
  have hlegal := h.legal hshort hfull
  set val2 := if wraps (stepP b.p b.s) then
    if b.second &&& smask ≠ 0 then incRight b.second else incLong b.second else b.second with hval2
  have hmove : val2 = moveAddr (b.space x) b.second (if wraps (stepP b.p b.s) then 1 else 0) := by
    rw [hval2]
    by_cases hwraps : wraps (stepP b.p b.s) = true
    · rw [if_pos hwraps, if_pos hwraps]
      by_cases hlocal : b.second &&& smask ≠ 0
      · rw [if_pos hlocal, space_local hshort fun _ => hlocal, if_pos (kiOrLater_of_isFull hfull),
          incRight_move h.second_lt]
      · rw [if_neg hlocal, space_global (.inr ⟨hfull, not_not.mp hlocal⟩), incLong_move]
    · rw [if_neg hwraps, if_neg hwraps, moveAddr_zero]
  have hhigh : val2 / 2 ^ 30 = b.second / 2 ^ 30 := by rw [hmove, moveAddr_space]
  have hlegal' : ¬ (val2 &&& smask ≠ 0 ∧ val2 &&& bit1 ≠ 0) := by
    rwa [second_sign, second_bit1, hhigh, ← second_sign, ← second_bit1]
  simp only [advanceFull, ← hval2]
  by_cases hlocal : val2 &&& smask ≠ 0
  · rw [if_pos hlocal, if_neg fun hbit => hlegal' ⟨hlocal, hbit⟩]
    exact ⟨_, rfl, rfl, rfl, rfl, hmove⟩
  · rw [if_neg hlocal]
    exact ⟨_, rfl, rfl, rfl, rfl, hmove⟩

lemma full_isFull (hshort : Short x b) (hfar : x.far = true) : (b.full x).isFull x = true := by
  have hbit : (b.full x).first &&& bit12 ≠ 0 := by
    rw [full, if_pos hshort, show bit12 = 2 ^ 23 from rfl, and_pow_ne_zero]
    show (b.pos x * 2 ^ 30 + (b.size x * 2 ^ 24 + 2 ^ 23)) / 2 ^ 23 % 2 = 1
    omega
  rw [isFull, hshort.1, hfar, Bool.and_self, Bool.true_and, bne_iff_ne]
  exact hbit

lemma full_space (hshort : Short x b) (hfar : x.far = true) : (b.full x).space x = 2 ^ 30 := by
  refine space_global (.inr ⟨full_isFull hshort hfar, ?_⟩)
  rw [full, if_pos hshort, ← not_ne_iff, show smask = 2 ^ 35 from rfl, and_pow_ne_zero]
  show ¬ b.first % 2 ^ 30 / 2 ^ 35 % 2 = 1
  omega

end BytePtr

lemma Setup.pointer_eq (a : Setup) :
    a.pointer = ⟨a.np * 2 ^ 30 + a.val1 % 2 ^ 30, a.val2⟩ := by
  rw [Setup.pointer, and_pmask, Nat.or_comm, shiftLeft_or_eq (Nat.mod_lt _ (by norm_num))]

/-- **The stepped pointer** is the pointer to the next byte, as one of two words if it is global. -/
theorem advance_eq {π : Type} {x : Core π} {b : BytePtr} (h : Valid x.mode.ext b)
    (hx : x.mode.cfg.kiOrLater = true) (c : ℕ) :
    let t := next (b.per x.mode.ext) ⟨0, b.byte x.mode.ext⟩
    ∃ s, x.advance c b = some s ∧ s.s = b.size x.mode.ext ∧ s.np = 36 - t.byte * b.size x.mode.ext
      ∧ s.pointer = (b.full x.mode.ext).place x.mode.ext t := by
  intro t
  set X := x.mode.ext with hX
  rw [Core.advance]
  by_cases hshort : Short X b
  · have hfull := full_valid h
    have hnot := full_not_short h
    obtain ⟨hpos, hsize⟩ := unit_of_not_short hnot
    rw [full_pos h] at hpos
    rw [full_size h] at hsize
    have hnp := nextP_eq hfull hnot
    have hword := next_word_eq hfull hnot
    rw [← hpos, ← hsize, full_per h, full_byte h] at hnp hword
    rw [full_size h] at hnp
    have hshort' : x.mode.klb = true ∧ b.p > 36 := hshort
    rw [if_pos hshort', advanceGlobal, (h.entry hshort).found]
    refine ⟨_, rfl, rfl, hnp, ?_⟩
    rw [Setup.pointer_eq, place, if_neg hnot, if_pos (full_isFull hshort rfl), full_size h,
      full_space hshort rfl]
    have hval1 : (b.size X <<< 24 ||| bit12) % 2 ^ 30 = (b.full X).first % 2 ^ 30 := by
      have hsize_le := h.size_le
      rw [full, if_pos hshort, Nat.shiftLeft_eq,
        or_eq_add (i := 24) (Dvd.intro_left _ rfl) (by norm_num)]
      exact (Nat.mul_add_mod_self_right _ _ _).symm
    have hval2 : (if wraps (stepP (b.pos X) (b.size X)) then incLong (b.first &&& (sectm ||| rmask))
        else b.first &&& (sectm ||| rmask)) = moveAddr (2 ^ 30) (b.full X).second t.word := by
      rw [and_long, hword, full, if_pos hshort]
      split_ifs
      · exact incLong_move _
      · exact (moveAddr_zero _ _).symm
    have hfirst : nextP (stepP (b.pos X) (b.size X)) (b.size X) * 2 ^ 30
        + (b.size X <<< 24 ||| bit12) % 2 ^ 30
        = (36 - t.byte * b.size X) * 2 ^ 30 + (b.full X).first % 2 ^ 30 := by
      rw [hnp, hval1]
    exact congrArg₂ BytePtr.mk hfirst hval2
  · obtain ⟨hpos, hsize⟩ := unit_of_not_short hshort
    have hshort' : ¬ (x.mode.klb = true ∧ b.p > 36) := hshort
    have hnp := nextP_eq h hshort
    have hword := next_word_eq h hshort
    rw [if_neg hshort', full_of_not_short hshort, place, if_neg hshort]
    by_cases hfull : b.isFull X = true
    · have hbit : x.mode.klb = true ∧ b.first &&& bit12 ≠ 0 := by
        rw [isFull, Bool.and_eq_true, Bool.and_eq_true, bne_iff_ne] at hfull
        exact ⟨hfull.1.1, hfull.2⟩
      obtain ⟨s, hs, hsz, hsnp, hval1, hval2⟩ := advanceFull_eq h hshort hfull c
      rw [if_pos hbit, if_pos hfull]
      refine ⟨s, hs, hsz.trans hsize.symm, hsnp.trans hnp, ?_⟩
      rw [Setup.pointer_eq, hsnp.trans hnp, hval1, hval2, hword]
    · have hbit : ¬ (x.mode.klb = true ∧ b.first &&& bit12 ≠ 0) := by
        rintro ⟨hklb, hbit⟩
        refine hfull ?_
        rw [isFull, Bool.and_eq_true, Bool.and_eq_true, bne_iff_ne]
        exact ⟨⟨hklb, rfl⟩, hbit⟩
      rw [if_neg hbit, if_neg hfull]
      refine ⟨_, rfl, hsize.symm, hnp, ?_⟩
      have hval1 : (if wraps (stepP b.p b.s) then incRight b.first else b.first) % 2 ^ 30
          = moveAddr (b.space X) (b.first % 2 ^ 30) t.word := by
        rw [hword, space_local hshort fun hf => absurd hf hfull,
          if_pos (show X.cfg.kiOrLater = true from hx)]
        split_ifs
        · exact incFirst_eq b.first
        · exact (moveAddr_zero _ _).symm
      rw [Setup.pointer_eq]
      have hfirst : nextP (stepP b.p b.s) b.s * 2 ^ 30
          + (if wraps (stepP b.p b.s) then incRight b.first else b.first) % 2 ^ 30
          = (36 - t.byte * b.size X) * 2 ^ 30 + moveAddr (b.space X) (b.first % 2 ^ 30) t.word := by
        rw [hnp, hval1]
      exact congrArg₂ BytePtr.mk hfirst rfl

end Ka10Simh.Pdp10
