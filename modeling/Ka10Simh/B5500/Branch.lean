import Ka10Simh.B5500.CharMode.Loops

/-!
The relative branches of both modes. A position is the word `C` with the syllable `L`, and `C` has 15 bits.

* `branch`, `jump`: the operators of word mode, and those of character mode besides `jumpOut`.
* `Taken`, `GoesOn`: when a branch of word mode is taken, and where the processor goes on.
* `Advances`, `count_spec`: the low bits of the count, and the carries of them.
* `branches_spec`: the position of every branch.
-/

namespace Ka10Simh.B5500

open Word

/-! ### The source -/

/-- The fields of the branches, conditional and unconditional, forward and backward, by syllables and by words. -/
abbrev bfc : ℕ := 0o02
abbrev bbc : ℕ := 0o01
abbrev lfc : ℕ := 0o22
abbrev lbc : ℕ := 0o21
abbrev bfw : ℕ := 0o42
abbrev bbw : ℕ := 0o41
abbrev lfu : ℕ := 0o62
abbrev lbu : ℕ := 0o61

/-- The operators of character mode: forward and reverse, conditional and unconditional. -/
abbrev jfc : ℕ := 0o45
abbrev jfw : ℕ := 0o47
abbrev jrc : ℕ := 0o55
abbrev jrv : ℕ := 0o57

/-- The branches that have a condition. -/
def conditional : List ℕ := [bfc, bbc, lfc, lbc]

/-- `PRES_BIT`. -/
abbrev presBit : ℕ := 0o70

/-- The position of the branch, from the one after it. -/
def branchSyllable (s : Cpu) : Cpu :=
  if s.l = 0 then { s with c := s.c + 0xffff &&& core, l := 3 } else { s with l := s.l - 1 }

/-- A bit of the count, forward and backward: `n` syllables. -/
def forward (n : ℕ) (s : Cpu) : Cpu := { s with l := s.l + n &&& 3, c := (s.c + (s.l + n) >>> 2) % 2 ^ 16 }
def backward (n : ℕ) (s : Cpu) : Cpu :=
  if s.l < n then { s with c := (s.c + 0xffff) % 2 ^ 16, l := s.l + 4 - n } else { s with l := s.l - n }

/-- The position of the next syllable. -/
def fixUp (s : Cpu) : Cpu := if s.l = 3 then { s with c := (s.c + 1) % 2 ^ 16, l := 0 } else { s with l := s.l + 1 }

/-- A low bit of the count, which is shifted out of `A`; the two of them. -/
def lowBit (ahead : Bool) (n : ℕ) (s : Cpu) : Cpu :=
  let s := if s.a &&& 1 ≠ 0 then if ahead = true then forward n s else backward n s else s
  { s with a := s.a >>> 1 }
def lowBits (ahead : Bool) (s : Cpu) : Cpu := lowBit ahead 2 (lowBit ahead 1 s)

/-- The words of the count. -/
def addWords (ahead : Bool) (s : Cpu) : Cpu :=
  { s with c := (if ahead = true then s.c + (s.a &&& 0o1777) else s.c + 2 ^ 16 - (s.a &&& 0o1777)) % 2 ^ 16 &&& core }

/-- An address in `A`, which may not be present. -/
def branchTo (field : ℕ) (s : Cpu) : Cpu :=
  if s.a &&& present = 0 then
    let s : Cpu := if s.l = 0 then { s with c := s.c + 0xffff &&& core } else s
    let s := if s.ncsf = true then s.raise presBit else s
    if field &&& 0o20 ≠ 0 then { s with brof := true } else s
  else { s with c := cf s.a, l := 0, arof := false, prof := false }

/-- A count in `A`. -/
def branchBy (field : ℕ) (s : Cpu) : Cpu :=
  let ahead := decide (field &&& 0o2 ≠ 0)
  let s := branchSyllable s
  let s := if field &&& 0o20 = 0 then fixUp (lowBits ahead s) else { s with l := 0 }
  { addWords ahead s with arof := false, prof := false }

/-- `AB_valid`, with `B` used up; the registers when `A` is tested. -/
def tested (s : Cpu) : Cpu := { abValid s with brof := false }
def operands (field : ℕ) (s : Cpu) : Cpu := if field ∈ conditional then aValid (tested s) else aValid s

/-- `BFC` to `LBU`. -/
def branch (field : ℕ) (s : Cpu) : Cpu :=
  if field ∈ conditional ∧ (tested s).b &&& 1 ≠ 0 then { tested s with arof := false }
  else
    let s := operands field s
    if s.a &&& flag ≠ 0 then branchTo field s else branchBy field s

/-- `JFC`, `JFW`, `JRC`, `JRV`. -/
def jump (opcode field : ℕ) (s : Cpu) : Cpu :=
  if (opcode = jfc ∨ opcode = jrc) ∧ s.msff = true then s
  else
    let i : ℤ := if opcode &&& 0o10 ≠ 0 then (s.c <<< 2 ||| s.l : ℕ) - field else (s.c <<< 2 ||| s.l : ℕ) + field
    { s with l := (i % 4).toNat, c := (i / 4 % 2 ^ 15).toNat, prof := false }

/-! ### Where a branch goes -/

variable {s t : Cpu} {field n opcode : ℕ}

/-- The condition holds, and `A` is a count. -/
def Taken (field : ℕ) (s : Cpu) : Prop :=
  ¬ (field ∈ conditional ∧ (tested s).b &&& 1 ≠ 0) ∧ (operands field s).a &&& flag = 0

/-- A jump of character mode is made. -/
def Jumps (opcode : ℕ) (s : Cpu) : Prop := ¬ ((opcode = jfc ∨ opcode = jrc) ∧ s.msff = true)

/-- The syllable of a position, and the word that the last syllable is in. -/
def position (s : Cpu) : ℤ := 4 * s.c + s.l
def ownWord (s : Cpu) : ℤ := if s.l = 0 then s.c - 1 else s.c

/-- The processor goes on at a syllable, for which it reads the word again. -/
structure GoesOn (t : Cpu) (i : ℤ) : Prop where
  syllables : t.l < 4
  place : position t = i % 2 ^ 17
  fresh : t.prof = false

/-- The counts of the two kinds of branch. -/
def syllableCount (field : ℕ) (s : Cpu) : ℤ := ((operands field s).a % 2 ^ 12 : ℕ)
def wordCount (field : ℕ) (s : Cpu) : ℤ := ((operands field s).a % 2 ^ 10 : ℕ)

/-! ### The operands -/

lemma memoryCycle_place (e : ℕ) (s : Cpu) : (memoryCycle e s).c = s.c ∧ (memoryCycle e s).l = s.l := by
  rw [memoryCycle]
  split_ifs <;> exact ⟨rfl, rfl⟩

lemma readTop_place (e : ℕ) (s : Cpu) : (readTop e s).c = s.c ∧ (readTop e s).l = s.l := by
  rw [readTop]
  split_ifs
  · exact ⟨rfl, rfl⟩
  · exact memoryCycle_place e s

lemma aValid_place (s : Cpu) : (aValid s).c = s.c ∧ (aValid s).l = s.l := by
  rw [aValid]
  split_ifs
  · exact ⟨rfl, rfl⟩
  · exact readTop_place 2 s
  · exact ⟨rfl, rfl⟩

lemma abValid_place (s : Cpu) : (abValid s).c = s.c ∧ (abValid s).l = s.l := by
  have ha := aValid_place s
  rw [abValid]
  split_ifs
  · have hread := readTop_place 3 (aValid s)
    exact ⟨hread.1.trans ha.1, hread.2.trans ha.2⟩
  · exact ha

/-- The operands are taken from the stack, and the position stays. -/
lemma operands_place (field : ℕ) (s : Cpu) : (operands field s).c = s.c ∧ (operands field s).l = s.l := by
  have hb := abValid_place s
  rw [operands]
  split_ifs
  · have ha := aValid_place (tested s)
    exact ⟨ha.1.trans hb.1, ha.2.trans hb.2⟩
  · exact aValid_place s

lemma branch_taken (h : Taken field s) : branch field s = branchBy field (operands field s) := by
  rw [branch, if_neg h.1]
  exact if_neg fun hno ↦ hno h.2

/-! ### The count -/

/-- A position is moved by `n` syllables, in the memory and around its ends. -/
structure Advances (s t : Cpu) (n : ℤ) : Prop where
  syllables : t.l < 4
  place : ∃ k : ℤ, position t = position s + n + k * 2 ^ 17

lemma Advances.trans {u : Cpu} {m n : ℤ} (hs : Advances s t m) (ht : Advances t u n) : Advances s u (m + n) := by
  obtain ⟨j, hj⟩ := hs.place
  obtain ⟨k, hk⟩ := ht.place
  refine ⟨ht.syllables, ⟨j + k, ?_⟩⟩
  rw [hk, hj]
  ring

lemma and_core (x : ℕ) : x &&& core = x % 2 ^ 15 := Nat.and_two_pow_sub_one_eq_mod x 15

lemma branchSyllable_advances (hl : s.l < 4) : Advances s (branchSyllable s) (-1) := by
  rw [branchSyllable, and_core]
  by_cases hzero : s.l = 0
  · rw [if_pos hzero]
    refine ⟨show 3 < 4 by norm_num, ⟨2 - ((s.c + 0xffff) / 2 ^ 15 : ℕ), ?_⟩⟩
    dsimp only [position]
    omega
  · rw [if_neg hzero]
    refine ⟨show s.l - 1 < 4 by omega, ⟨0, ?_⟩⟩
    dsimp only [position]
    omega

lemma forward_advances (n : ℕ) (s : Cpu) : Advances s (forward n s) n := by
  have hl : s.l + n &&& 3 = (s.l + n) % 4 := Nat.and_two_pow_sub_one_eq_mod _ 2
  rw [forward, hl, Nat.shiftRight_eq_div_pow]
  refine ⟨Nat.mod_lt _ (by norm_num), ⟨-(2 * ((s.c + (s.l + n) / 2 ^ 2) / 2 ^ 16 : ℕ)), ?_⟩⟩
  dsimp only [position]
  omega

lemma backward_advances (hl : s.l < 4) (hn : n ≤ 4) : Advances s (backward n s) (-n) := by
  rw [backward]
  by_cases hborrow : s.l < n
  · rw [if_pos hborrow]
    refine ⟨show s.l + 4 - n < 4 by omega, ⟨2 - 2 * ((s.c + 0xffff) / 2 ^ 16 : ℕ), ?_⟩⟩
    dsimp only [position]
    lia
  · rw [if_neg hborrow]
    refine ⟨show s.l - n < 4 by omega, ⟨0, ?_⟩⟩
    dsimp only [position]
    omega

lemma fixUp_advances (hl : s.l < 4) : Advances s (fixUp s) 1 := by
  rw [fixUp]
  by_cases hlast : s.l = 3
  · rw [if_pos hlast]
    refine ⟨show 0 < 4 by norm_num, ⟨-(2 * ((s.c + 1) / 2 ^ 16 : ℕ)), ?_⟩⟩
    dsimp only [position]
    omega
  · rw [if_neg hlast]
    refine ⟨show s.l + 1 < 4 by omega, ⟨0, ?_⟩⟩
    dsimp only [position]
    omega

/-- The sign of a branch. -/
def towards (ahead : Bool) : ℤ := if ahead = true then 1 else -1

/-- A bit moves the position by `n` syllables when it is there. -/
lemma lowBit_advances (hl : s.l < 4) (hn : n ≤ 4) (ahead : Bool) :
    Advances s (lowBit ahead n s) (towards ahead * (s.a % 2 * n : ℕ)) := by
  have hgo : Advances s (if ahead = true then forward n s else backward n s) (towards ahead * n) := by
    cases ahead with
    | true => simpa [towards] using forward_advances n s
    | false => simpa [towards] using backward_advances hl hn
  rw [lowBit, Nat.and_one_is_mod]
  by_cases hbit : s.a % 2 ≠ 0
  · rw [if_pos hbit, show s.a % 2 = 1 by lia, one_mul]
    exact ⟨hgo.syllables, hgo.place⟩
  · rw [if_neg hbit, show s.a % 2 = 0 by omega, zero_mul, Nat.cast_zero, mul_zero]
    exact ⟨hl, ⟨0, by rw [add_zero, zero_mul, add_zero]; rfl⟩⟩

lemma step_a (ahead : Bool) (n : ℕ) (s : Cpu) : (if ahead = true then forward n s else backward n s).a = s.a := by
  rw [backward]
  split_ifs <;> rfl

lemma lowBit_a (ahead : Bool) (n : ℕ) (s : Cpu) : (lowBit ahead n s).a = s.a / 2 := by
  rw [lowBit]
  dsimp only
  rw [Nat.shiftRight_eq_div_pow, pow_one]
  by_cases hbit : s.a &&& 1 ≠ 0
  · rw [if_pos hbit, step_a]
  · rw [if_neg hbit]

lemma branchSyllable_a (s : Cpu) : (branchSyllable s).a = s.a := by
  rw [branchSyllable]
  split_ifs <;> rfl

lemma fixUp_a (s : Cpu) : (fixUp s).a = s.a := by
  rw [fixUp]
  split_ifs <;> rfl

/-- The two low bits of the count. -/
lemma lowBits_advances (hl : s.l < 4) (ahead : Bool) : Advances s (lowBits ahead s) (towards ahead * (s.a % 4 : ℕ)) := by
  have hfirst := lowBit_advances hl (show 1 ≤ 4 by norm_num) ahead
  have hsecond := lowBit_advances hfirst.syllables (show 2 ≤ 4 by norm_num) ahead
  have hsplit : s.a % 4 = s.a % 2 * 1 + s.a / 2 % 2 * 2 := by lia
  rw [lowBit_a] at hsecond
  rw [hsplit, Nat.cast_add, mul_add]
  exact hfirst.trans hsecond

/-- **The low bits of the count, between the step back to the branch and the step forward.** The rest of it is in `A`. -/
theorem count_spec (hl : s.l < 4) (ahead : Bool) :
    Advances s (fixUp (lowBits ahead (branchSyllable s))) (towards ahead * (s.a % 4 : ℕ)) ∧
      (fixUp (lowBits ahead (branchSyllable s))).a = s.a / 4 := by
  have hback := branchSyllable_advances hl
  have hlow := lowBits_advances hback.syllables ahead
  have hfix := fixUp_advances hlow.syllables
  rw [branchSyllable_a] at hlow
  constructor
  · have hall := (hback.trans hlow).trans hfix
    rwa [neg_add_cancel_comm] at hall
  · rw [fixUp_a, lowBits, lowBit_a, lowBit_a, branchSyllable_a, Nat.div_div_eq_div_mul]

/-! ### The branches -/

/-- The words of the count, and the word and the syllable that come of it. -/
lemma addWords_c (ahead : Bool) (s : Cpu) :
    ((addWords ahead s).c : ℤ) = (s.c + towards ahead * (s.a % 2 ^ 10 : ℕ)) % 2 ^ 15 := by
  have hwords : s.a &&& 0o1777 = s.a % 2 ^ 10 := Nat.and_two_pow_sub_one_eq_mod s.a 10
  rw [addWords, hwords, and_core]
  dsimp only
  cases ahead with
  | true =>
      rw [if_pos rfl, towards, if_pos rfl]
      lia
  | false =>
      rw [if_neg Bool.false_ne_true, towards, if_neg Bool.false_ne_true]
      lia

/-- A branch by syllables. -/
lemma branchBy_syllables (hl : s.l < 4) (hfield : field &&& 0o20 = 0) :
    GoesOn (branchBy field s) (position s + towards (decide (field &&& 0o2 ≠ 0)) * (s.a % 2 ^ 12 : ℕ)) := by
  obtain ⟨hlow, ha⟩ := count_spec hl (decide (field &&& 0o2 ≠ 0))
  have hc := addWords_c (decide (field &&& 0o2 ≠ 0)) (fixUp (lowBits (decide (field &&& 0o2 ≠ 0)) (branchSyllable s)))
  rw [branchBy, if_pos hfield]
  generalize decide (field &&& 0o2 ≠ 0) = ahead at hlow ha hc ⊢
  obtain ⟨k, hk⟩ := hlow.place
  have hl' := hlow.syllables
  rw [ha] at hc
  refine ⟨hl', ?_, rfl⟩
  generalize fixUp (lowBits ahead (branchSyllable s)) = t at hlow hc hk hl' ⊢
  rw [position] at hk
  have hsum : 4 * ((t.c : ℤ) + towards ahead * (s.a / 4 % 2 ^ 10 : ℕ)) + t.l =
      position s + towards ahead * (s.a % 2 ^ 12 : ℕ) + k * 2 ^ 17 := by
    have hsplit : s.a % 2 ^ 12 = s.a % 4 + 4 * (s.a / 4 % 2 ^ 10) := by lia
    rw [hsplit, Nat.cast_add, Nat.cast_mul, Nat.cast_ofNat]
    linear_combination hk
  have hplace : position { addWords ahead t with arof := false, prof := false } = 4 * ((addWords ahead t).c : ℤ) + t.l := rfl
  rw [hplace, hc]
  generalize (t.c : ℤ) + towards ahead * (s.a / 4 % 2 ^ 10 : ℕ) = w at hsum ⊢
  generalize position s + towards ahead * (s.a % 2 ^ 12 : ℕ) = i at hsum ⊢
  lia

/-- A branch by words. -/
lemma branchBy_words (hfield : ¬ field &&& 0o20 = 0) :
    (branchBy field s).l = 0 ∧ (branchBy field s).prof = false ∧
      ((branchBy field s).c : ℤ) = (ownWord s + towards (decide (field &&& 0o2 ≠ 0)) * (s.a % 2 ^ 10 : ℕ)) % 2 ^ 15 := by
  rw [branchBy, if_neg hfield]
  refine ⟨rfl, rfl, ?_⟩
  have hc := addWords_c (decide (field &&& 0o2 ≠ 0)) { branchSyllable s with l := 0 }
  rw [show ({ branchSyllable s with l := 0 } : Cpu).a = s.a from branchSyllable_a s] at hc
  refine hc.trans ?_
  have hword : ((branchSyllable s).c : ℤ) % 2 ^ 15 = ownWord s % 2 ^ 15 := by
    rw [branchSyllable, ownWord, and_core]
    split_ifs
    · dsimp only
      lia
    · rfl
  dsimp only
  rw [Int.add_emod, hword, ← Int.add_emod]

/-- The operands leave the position. -/
lemma operands_position (field : ℕ) (s : Cpu) :
    position (operands field s) = position s ∧ ownWord (operands field s) = ownWord s := by
  obtain ⟨hc, hl⟩ := operands_place field s
  rw [position, position, ownWord, ownWord, hc, hl]
  exact ⟨rfl, rfl⟩

/-- The branches of word mode, by syllables and by words. -/
lemma branch_syllables (hl : s.l < 4) (h : Taken field s) (hfield : field &&& 0o20 = 0) :
    GoesOn (branch field s) (position s + towards (decide (field &&& 0o2 ≠ 0)) * syllableCount field s) := by
  have hl' : (operands field s).l < 4 := by rwa [(operands_place field s).2]
  rw [branch_taken h, ← (operands_position field s).1]
  exact branchBy_syllables hl' hfield

lemma branch_words (h : Taken field s) (hfield : ¬ field &&& 0o20 = 0) :
    (branch field s).l = 0 ∧ (branch field s).prof = false ∧
      ((branch field s).c : ℤ) = (ownWord s + towards (decide (field &&& 0o2 ≠ 0)) * wordCount field s) % 2 ^ 15 := by
  rw [branch_taken h, ← (operands_position field s).2]
  exact branchBy_words hfield

/-! ### Character mode -/

lemma pointer_position (hl : s.l < 4) : ((s.c <<< 2 ||| s.l : ℕ) : ℤ) = position s := by
  rw [shiftLeft_or_eq (by omega), position]
  push_cast
  ring

/-- A position made of a pointer. -/
lemma goesOn_pointer (t : Cpu) (i : ℤ) :
    GoesOn { t with l := (i % 4).toNat, c := (i / 4 % 2 ^ 15).toNat, prof := false } i := by
  refine ⟨show (i % 4).toNat < 4 by omega, ?_, rfl⟩
  dsimp only [position]
  omega

lemma jump_goesOn (hl : s.l < 4) (h : Jumps opcode s) (field : ℕ) :
    GoesOn (jump opcode field s) (if opcode &&& 0o10 ≠ 0 then position s - field else position s + field) := by
  rw [jump, if_neg h, pointer_position hl]
  exact goesOn_pointer s _

lemma jumpOut_goesOn (hl : s.l < 4) (hfield : 0 < field) : GoesOn (jumpOut field s) (position s + field) := by
  obtain ⟨hc, hl'⟩ := memoryCycle_place 2 { s with s := ff s.x }
  have hlow (x : ℕ) : x &&& 3 = x % 4 := Nat.and_two_pow_sub_one_eq_mod x 2
  rw [jumpOut]
  generalize memoryCycle 2 { s with s := ff s.x } = t at hc hl' ⊢
  dsimp only at hc hl' ⊢
  rw [if_pos hfield, hc, hl', and_core, hlow, Nat.shiftRight_eq_div_pow, ← pointer_position hl]
  generalize s.c <<< 2 ||| s.l = i
  refine ⟨show (i + field) % 4 < 4 by omega, ?_, rfl⟩
  dsimp only [position]
  lia

lemma memoryCycle_prof (s : Cpu) : (memoryCycle 2 s).prof = s.prof := by
  have he : ¬ (2 &&& 0o20 ≠ 0) := by decide
  rw [memoryCycle, if_neg he]
  split_ifs <;> rfl

/-- With no syllables to skip, the position and the word that was fetched are the same. -/
lemma jumpOut_zero (s : Cpu) : (jumpOut 0 s).c = s.c ∧ (jumpOut 0 s).l = s.l ∧ (jumpOut 0 s).prof = s.prof := by
  obtain ⟨hc, hl⟩ := memoryCycle_place 2 { s with s := ff s.x }
  exact ⟨hc, hl, memoryCycle_prof _⟩

/-! ### All branches -/

/-- **Where the branches go.** A loop that is left to the next syllable keeps the word that was fetched. -/
theorem branches_spec (s : Cpu) (hl : s.l < 4) :
    (∀ field, Taken field s →
      (field ∈ [bfc, bfw] → GoesOn (branch field s) (position s + syllableCount field s)) ∧
      (field ∈ [bbc, bbw] → GoesOn (branch field s) (position s - syllableCount field s)) ∧
      (field ∈ [lfc, lfu] → (branch field s).l = 0 ∧ (branch field s).prof = false ∧
        ((branch field s).c : ℤ) = (ownWord s + wordCount field s) % 2 ^ 15) ∧
      (field ∈ [lbc, lbu] → (branch field s).l = 0 ∧ (branch field s).prof = false ∧
        ((branch field s).c : ℤ) = (ownWord s - wordCount field s) % 2 ^ 15)) ∧
    (∀ opcode, Jumps opcode s → ∀ field : ℕ,
      (opcode ∈ [jfc, jfw] → GoesOn (jump opcode field s) (position s + field)) ∧
      (opcode ∈ [jrc, jrv] → GoesOn (jump opcode field s) (position s - field))) ∧
    (∀ field : ℕ, 0 < field → GoesOn (jumpOut field s) (position s + field)) ∧
    (jumpOut 0 s).c = s.c ∧ (jumpOut 0 s).l = s.l ∧ (jumpOut 0 s).prof = s.prof := by
  have hsyllables : ∀ f ∈ [bfc, bfw, bbc, bbw], f &&& 0o20 = 0 := by decide
  have hwords : ∀ f ∈ [lfc, lfu, lbc, lbu], ¬ f &&& 0o20 = 0 := by decide
  have hahead : ∀ f ∈ [bfc, bfw, lfc, lfu], towards (decide (f &&& 0o2 ≠ 0)) = 1 := by decide
  have hback : ∀ f ∈ [bbc, bbw, lbc, lbu], towards (decide (f &&& 0o2 ≠ 0)) = -1 := by decide
  refine ⟨fun field htaken ↦ ⟨fun hmem ↦ ?_, fun hmem ↦ ?_, fun hmem ↦ ?_, fun hmem ↦ ?_⟩,
    fun opcode hjumps field ↦ ⟨fun hmem ↦ ?_, fun hmem ↦ ?_⟩, fun field hfield ↦ jumpOut_goesOn hl hfield, jumpOut_zero s⟩
  · have hgo := branch_syllables hl htaken (hsyllables field (by simp only [List.mem_cons] at hmem ⊢; tauto))
    rwa [hahead field (by simp only [List.mem_cons] at hmem ⊢; tauto), one_mul] at hgo
  · have hgo := branch_syllables hl htaken (hsyllables field (by simp only [List.mem_cons] at hmem ⊢; tauto))
    rwa [hback field (by simp only [List.mem_cons] at hmem ⊢; tauto), neg_one_mul, ← sub_eq_add_neg] at hgo
  · have hgo := branch_words htaken (hwords field (by simp only [List.mem_cons] at hmem ⊢; tauto))
    rwa [hahead field (by simp only [List.mem_cons] at hmem ⊢; tauto), one_mul] at hgo
  · have hgo := branch_words htaken (hwords field (by simp only [List.mem_cons] at hmem ⊢; tauto))
    rwa [hback field (by simp only [List.mem_cons] at hmem ⊢; tauto), neg_one_mul, ← sub_eq_add_neg] at hgo
  · have hbit : ∀ o ∈ [jfc, jfw], ¬ o &&& 0o10 ≠ 0 := by decide
    have hgo := jump_goesOn hl hjumps field
    rwa [if_neg (hbit opcode hmem)] at hgo
  · have hbit : ∀ o ∈ [jrc, jrv], o &&& 0o10 ≠ 0 := by decide
    have hgo := jump_goesOn hl hjumps field
    rwa [if_pos (hbit opcode hmem)] at hgo

/-- A count of five in `A`, and the word at `C` is fetched. -/
def counting : Cpu := { fullStack with a := 5, arof := true, c := 0o77777, l := 3, prof := true }

theorem branches_spec_around : GoesOn (branch bfw counting) (position counting + syllableCount bfw counting) :=
  ((branches_spec counting (by decide)).1 bfw ⟨by decide, by decide⟩).1 (by decide)

/-- A jump out of a loop over no syllables does not discard the word. -/
theorem word_left : ¬ GoesOn (jumpOut 0 counting) (position counting + (0 : ℕ)) := fun hgo ↦
  absurd hgo.fresh (by rw [(jumpOut_zero counting).2.2]; decide)

end Ka10Simh.B5500
