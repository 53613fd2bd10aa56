import Ka10Simh.B5500.Interrupt
import Ka10Simh.B5500.CharMode.Transfer

/-!
The loops of character mode. The word of a loop is in `X`, and the words of the loops around it are on a stack in the memory.

* `beginLoop`, `endLoop`, `jumpOut`, `cycle`: the operators, and one syllable.
* `Code`, `Code.Placed`: blocks that are nested, and where they are in the memory.
* `Runs`, `Turns`: a run of a block, turn by turn.
* `runs_code`, `loops_spec`: the processor runs every block as often as it says.
-/

namespace Ka10Simh.B5500

open Word Fields

/-! ### The source -/

/-- `REPFLD`. -/
abbrev repfld : ℕ := 0o770000000000

/-- `LCW`. -/
def lcw (f : Addr) (x : ℕ) (s : Cpu) : ℕ := toF f ||| toC s.c ||| toL s.l ||| (x <<< 30 &&& repfld)

/-- `BNS`. -/
def beginLoop (field : ℕ) (s : Cpu) : Cpu :=
  let field := if field ≠ 0 then field - 1 else field
  let t := memoryCycle 0o13
    { s with a := s.b, arof := s.brof, b := s.x ||| flag ||| dflag, s := nextAddr (ff (s.x ||| flag ||| dflag)) }
  { t with x := lcw t.s field t, s := s.s, b := t.a, brof := t.arof, arof := false }

/-- `ENS`. -/
def endLoop (s : Cpu) : Cpu :=
  let field := (s.x &&& repfld) >>> 30
  let t : Cpu :=
    if field ≠ 0 then
      memoryCycle 0o20
        { s with
          a := s.b, arof := s.brof, b := s.x, l := lf s.x, c := cf s.x, prof := false
          x := bic s.x repfld ||| ((field - 1) <<< 30 &&& repfld) }
    else
      let t := memoryCycle 3 { s with a := s.b, arof := s.brof, b := s.x, s := ff s.x }
      { t with x := t.b &&& mant, s := s.s }
  { t with b := t.a, brof := t.arof, arof := false }

/-- `JNS`. -/
def jumpOut (field : ℕ) (s : Cpu) : Cpu :=
  let t := memoryCycle 2 { s with s := ff s.x }
  let t : Cpu := { t with arof := false, x := t.a &&& mant, s := s.s }
  if field > 0 then
    let i := (t.c <<< 2 ||| t.l) + field
    { t with l := i &&& 3, c := i >>> 2 &&& core, prof := false }
  else t

/-- The operator in `T`: one for a loop, or any other one. -/
def dispatch (other : Cpu → Cpu) (s : Cpu) : Cpu :=
  let opcode := s.t &&& 0o77
  let field := s.t >>> 6 &&& 0o77
  if opcode = 0o52 then beginLoop field s
  else if opcode = 0o51 then endLoop s
  else if opcode = 0o46 then jumpOut field s
  else if opcode = 0o44 then if s.msff = true then s else jumpOut field s
  else other s

/-- One syllable. -/
def cycle (other : Cpu → Cpu) (s : Cpu) : Cpu :=
  let s := if s.trof = false then nextProg s else s
  dispatch other { s with trof := false }

/-! ### The word of a loop -/

variable {s t u : Cpu} {d f i k n q r x : ℕ}

/-- The word: where its loop begins, how often it is still to be repeated, and where the word itself is on the stack. -/
def loopWord (f q r : ℕ) : ℕ := q / 4 + f * 2 ^ 15 + r * 2 ^ 30 + q % 4 * 2 ^ 36

lemma and_field (x n i : ℕ) : (x &&& (2 ^ n - 1) <<< i) >>> i = x / 2 ^ i % 2 ^ n := by
  rw [and_shiftLeft, Nat.shiftLeft_shiftRight, Nat.and_two_pow_sub_one_eq_mod, Nat.shiftRight_eq_div_pow]

lemma ff_val (x : ℕ) : (ff x : ℕ) = x / 2 ^ 15 % 2 ^ 15 := by
  rw [ff, toAddr_val, show ffield = (2 ^ 15 - 1) <<< 15 from rfl, and_field, Nat.mod_mod]

lemma cf_val (x : ℕ) : (cf x : ℕ) = x % 2 ^ 15 := by
  have hcore : x &&& core = x % 2 ^ 15 := Nat.and_two_pow_sub_one_eq_mod x 15
  rw [cf, toAddr_val, hcore, Nat.mod_mod]

lemma lf_val (x : ℕ) : lf x = x / 2 ^ 36 % 4 := by
  rw [lf, show rl = (2 ^ 2 - 1) <<< 36 from rfl, and_field]
  rfl

lemma rep_val (x : ℕ) : (x &&& repfld) >>> 30 = x / 2 ^ 30 % 64 := by
  rw [show repfld = (2 ^ 6 - 1) <<< 30 from rfl, and_field]
  rfl

lemma field_of_lt {x n i : ℕ} (h : x < 2 ^ n) : x <<< i &&& (2 ^ n - 1) <<< i = x <<< i := by
  rw [and_shiftLeft, Nat.shiftLeft_shiftRight, Nat.and_two_pow_sub_one_eq_mod, Nat.mod_eq_of_lt h]

lemma lcw_eq {f : Addr} (hr : r < 64) (hc : s.c = q / 4) (hl : s.l = q % 4) (hq : q < 2 ^ 17) : lcw f r s = loopWord f q r := by
  have hf := f.isLt
  have hcore : toC s.c = q / 4 := by
    rw [toC, hc]
    exact (Nat.and_two_pow_sub_one_eq_mod _ 15).trans (Nat.mod_eq_of_lt (by lia))
  have hor (f c l r : ℕ) : f ||| c ||| l ||| r = c ||| f ||| r ||| l := by
    rw [Nat.lor_comm f c, Nat.lor_assoc (c ||| f) l r, Nat.lor_comm l r, ← Nat.lor_assoc]
  rw [lcw, hcore, toF, toL, hl, show ffield = (2 ^ 15 - 1) <<< 15 from rfl, show rl = (2 ^ 2 - 1) <<< 36 from rfl,
    show repfld = (2 ^ 6 - 1) <<< 30 from rfl, field_of_lt hf, field_of_lt (by omega), field_of_lt (by omega), hor,
    @or_shiftLeft_eq (q / 4) f 15 (by lia), @or_shiftLeft_eq (q / 4 + f * 2 ^ 15) r 30 (by lia),
    @or_shiftLeft_eq (q / 4 + f * 2 ^ 15 + r * 2 ^ 30) (q % 4) 36 (by lia), loopWord]

/-- The parts of the word. -/
lemma loopWord_parts (hf : f < 2 ^ 15) (hq : q < 2 ^ 17) (hr : r < 64) : loopWord f q r < 2 ^ 38 ∧ (ff (loopWord f q r) : ℕ) = f ∧
    (cf (loopWord f q r) : ℕ) = q / 4 ∧ lf (loopWord f q r) = q % 4 ∧ (loopWord f q r &&& repfld) >>> 30 = r := by
  have hf' : loopWord f q r / 2 ^ 15 = f + r * 2 ^ 15 + q % 4 * 2 ^ 21 := by
    rw [loopWord]
    lia
  have hl' : loopWord f q r / 2 ^ 36 = q % 4 := by
    rw [loopWord]
    lia
  have hr' : loopWord f q r / 2 ^ 30 = r + q % 4 * 2 ^ 6 := by
    rw [loopWord]
    lia
  rw [ff_val, cf_val, lf_val, rep_val, hf', hl', hr', loopWord]
  refine ⟨by lia, by lia, by lia, by lia, by lia⟩

/-- One turn less. -/
lemma loopWord_next (hf : f < 2 ^ 15) (hq : q < 2 ^ 17) (hr : r + 1 < 64) :
    bic (loopWord f q (r + 1)) repfld ||| (r <<< 30 &&& repfld) = loopWord f q r := by
  have hword (r : ℕ) : loopWord f q r = 2 ^ 36 * (q % 4) + (2 ^ 30 * r + (q / 4 + f * 2 ^ 15)) := by
    rw [loopWord]
    ring
  have hlow : q / 4 + f * 2 ^ 15 < 2 ^ 30 := by omega
  refine Nat.eq_of_testBit_eq fun j ↦ ?_
  have hdeposit := testBit_deposit 30 6 r (loopWord f q (r + 1)) j
  rw [deposit, show mask 30 6 = repfld from rfl] at hdeposit
  rw [hdeposit, hword, hword]
  simp only [Nat.testBit_two_pow_mul_add _ (show 2 ^ 30 * (r + 1) + (q / 4 + f * 2 ^ 15) < 2 ^ 36 by omega),
    Nat.testBit_two_pow_mul_add _ (show 2 ^ 30 * r + (q / 4 + f * 2 ^ 15) < 2 ^ 36 by omega), Nat.testBit_two_pow_mul_add _ hlow]
  split_ifs <;> first | rfl | lia

/-- The word that is put on the stack gives the word back. -/
lemma stacked_and_mant (hx : x < 2 ^ 39) : (x ||| flag ||| dflag) &&& mant = x := by
  rw [Nat.and_or_distrib_right, Nat.and_or_distrib_right, show flag &&& mant = 0 from rfl, show dflag &&& mant = 0 from rfl,
    Nat.or_zero, Nat.or_zero]
  exact (Nat.and_two_pow_sub_one_eq_mod x 39).trans (Nat.mod_eq_of_lt hx)

lemma ff_stacked (x : ℕ) : ff (x ||| flag ||| dflag) = ff x := by
  rw [ff, ff, Nat.and_or_distrib_right, Nat.and_or_distrib_right, show flag &&& ffield = 0 from rfl,
    show dflag &&& ffield = 0 from rfl, Nat.or_zero, Nat.or_zero]

/-! ### One syllable -/

/-- A syllable of a program. -/
def syllableAt (mem : ℕ → ℕ) (q : ℕ) : ℕ := mem (q / 4) >>> ((3 - q % 4) * 12) &&& 0o7777

/-- The next syllable is `q`. -/
structure Stands (s : Cpu) (q : ℕ) : Prop where
  trof : s.trof = false
  low : s.l < 4
  pointer : 4 * s.c + s.l = q
  word : s.prof = true → s.p = s.mem s.c

/-- The syllable `q` is in `T`, and the next one is after it. -/
def fetched (s : Cpu) (q p : ℕ) (prof : Bool) : Cpu :=
  { s with p := p, prof := prof, t := syllableAt s.mem q, trof := false, c := (q + 1) / 4, l := (q + 1) % 4 }

/-- **A syllable is taken.** -/
theorem Stands.cycle_eq (h : Stands s q) (hpass : s.Passes (q / 4)) (hq : q + 1 < 2 ^ 17) (other : Cpu → Cpu) :
    ∃ p prof, (prof = true → p = s.mem ((q + 1) / 4)) ∧ cycle other s = dispatch other (fetched s q p prof) := by
  obtain ⟨htrof, hlow, hpointer, hword⟩ := h
  have hc : s.c = q / 4 := by omega
  have hl : s.l = q % 4 := by omega
  have hfetch : (if s.prof = false then memoryCycle 0o20 s else s) = { s with p := s.mem s.c, prof := true } := by
    by_cases hp : s.prof = true
    · rw [if_neg (by rw [hp]; decide), ← hword hp, ← hp]
    · rw [if_pos (Bool.eq_false_of_not_eq_true hp), cycle_passed (e := 0o20) (by rw [← hc] at hpass; exact hpass)]
      rfl
  have hsyllable : s.mem s.c >>> ((3 - s.l) * 12) &&& 0o7777 = syllableAt s.mem q := by rw [syllableAt, hc, hl]
  have hnext : nextProg s = if s.l = 3
      then { s with p := s.mem s.c, prof := false, t := syllableAt s.mem q, trof := true, c := (s.c + 1) % 2 ^ 16, l := 0 }
      else { s with p := s.mem s.c, prof := true, t := syllableAt s.mem q, trof := true, l := s.l + 1 } := by
    rw [← hsyllable]
    simp only [nextProg, hfetch]
  rw [cycle, if_pos htrof, hnext]
  by_cases hlast : s.l = 3
  · refine ⟨s.mem s.c, false, fun hp ↦ absurd hp Bool.false_ne_true, ?_⟩
    have hc' : (s.c + 1) % 2 ^ 16 = (q + 1) / 4 := by lia
    have hl' : 0 = (q + 1) % 4 := by lia
    rw [if_pos hlast, fetched, ← hc', ← hl']
  · refine ⟨s.mem s.c, true, fun _ ↦ ?_, ?_⟩
    · rw [show (q + 1) / 4 = s.c by lia]
    · have hc' : (q + 1) / 4 = s.c := by lia
      have hl' : (q + 1) % 4 = s.l + 1 := by lia
      rw [if_neg hlast, fetched, hc', hl']

/-! ### A program in the memory -/

/-- Words of the memory that have the program, from one syllable to another, and the stack of the words of loops. -/
structure Setting where
  image : ℕ → ℕ
  first : ℕ
  last : ℕ
  base : Addr
  nested : ℕ

variable {z : Setting}

/-- Where the word of the loop `i` is. -/
def Setting.cell (z : Setting) (i : ℕ) : ℕ := (z.base + i) % 2 ^ 15

/-- The program is apart from the words of the loops. -/
structure Setting.Apart (z : Setting) : Prop where
  last : z.last < 2 ^ 17
  nested : z.nested < 2 ^ 15
  apart : ∀ q, z.first ≤ q → q < z.last → ∀ i, 1 ≤ i → i ≤ z.nested → z.cell i ≠ q / 4

/-- The program is there, and the words that are used are let pass. -/
structure Loaded (z : Setting) (s : Cpu) : Prop where
  program : ∀ q, z.first ≤ q → q < z.last → s.mem (q / 4) = z.image (q / 4)
  passes : ∀ q, z.first ≤ q → q < z.last → s.Passes (q / 4)
  cells : ∀ i, 1 ≤ i → i ≤ z.nested → s.Passes (z.cell i)

/-- The words of the loops that the processor is in are as they were. -/
def SameWords (z : Setting) (d : ℕ) (s t : Cpu) : Prop := ∀ i, 1 ≤ i → i ≤ d → t.mem (z.cell i) = s.mem (z.cell i)

/-- The word in `X` is the one of the loop `d`. -/
def OnLevel (z : Setting) (d x : ℕ) : Prop := x < 2 ^ 39 ∧ (ff x : ℕ) = z.cell d

section Operators

variable {other : Cpu → Cpu}

lemma Loaded.syllable_eq (h : Loaded z s) (hlow : z.first ≤ q) (hhigh : q < z.last) : syllableAt s.mem q = syllableAt z.image q := by
  rw [syllableAt, syllableAt, h.program q hlow hhigh]

lemma Setting.cell_lt (z : Setting) (i : ℕ) : z.cell i < 2 ^ 15 := Nat.mod_lt _ (by norm_num)

lemma nextAddr_cell {x : ℕ} (h : OnLevel z d x) : (nextAddr (ff x) : ℕ) = z.cell (d + 1) := by
  rw [nextAddr_val, h.2, Setting.cell, Setting.cell]
  omega

lemma cell_ne (hz : z.Apart) (hi : i ≤ z.nested) (hk : k ≤ z.nested) (h : i ≠ k) : z.cell i ≠ z.cell k := by
  have hlt := hz.nested
  rw [Setting.cell, Setting.cell]
  omega

/-- The parts of a syllable. -/
lemma syllable_parts {op : ℕ} (hop : op < 64) (hn : n < 64) : n * 64 + op &&& 0o77 = op ∧ (n * 64 + op) >>> 6 &&& 0o77 = n := by
  have hmod (x : ℕ) : x &&& 0o77 = x % 2 ^ 6 := Nat.and_two_pow_sub_one_eq_mod x 6
  rw [hmod, hmod, Nat.shiftRight_eq_div_pow]
  omega

/-- **A loop begins.** -/
theorem begin_spec (hz : z.Apart) (hat : Stands s q) (hs : Loaded z s) (hlow : z.first ≤ q) (hhigh : q + 1 < z.last) (hn : n < 64)
    (hop : syllableAt z.image q = n * 64 + 0o52) (hlevel : OnLevel z d s.x) (hd : d < z.nested) : Stands (cycle other s) (q + 1) ∧
      Loaded z (cycle other s) ∧ (cycle other s).x = loopWord (z.cell (d + 1)) (q + 1) (n - 1) ∧
      (cycle other s).mem (z.cell (d + 1)) = s.x ||| flag ||| dflag ∧ SameWords z d s (cycle other s) := by
  have hlast := hz.last
  obtain ⟨p, prof, hword, hcycle⟩ := hat.cycle_eq (hs.passes q hlow (by omega)) (by omega) other
  obtain ⟨hopcode, hfield⟩ := syllable_parts (show 0o52 < 64 by norm_num) hn
  have hnext := nextAddr_cell hlevel
  have hpass : s.Passes (nextAddr (ff s.x)) := hnext ▸ hs.cells (d + 1) (by omega) (by omega)
  have hrep : (if n ≠ 0 then n - 1 else n) = n - 1 := by
    split_ifs <;> lia
  have hrun : cycle other s = { fetched s q p prof with
      a := s.b, b := s.b, arof := false, mem := Function.update s.mem (z.cell (d + 1)) (s.x ||| flag ||| dflag)
      x := loopWord (z.cell (d + 1)) (q + 1) (n - 1) } := by
    rw [hcycle, dispatch, fetched, hs.syllable_eq hlow (by omega), hop]
    dsimp only
    rw [hopcode, hfield, if_pos rfl, beginLoop, ff_stacked, hrep, cycle_storeB hpass]
    dsimp only
    rw [lcw_eq (q := q + 1) (by lia) rfl rfl (by omega), hnext]
  have hprogram (a : ℕ) (hlow : z.first ≤ a) (hhigh : a < z.last) :
      Function.update s.mem (z.cell (d + 1)) (s.x ||| flag ||| dflag) (a / 4) = s.mem (a / 4) :=
    Function.update_of_ne (hz.apart a hlow hhigh (d + 1) (by omega) (by omega)).symm _ _
  rw [hrun]
  refine ⟨⟨rfl, Nat.mod_lt _ (by norm_num), Nat.div_add_mod _ _, fun hp ↦ ?_⟩, ⟨fun a ha hb ↦ ?_, hs.passes, hs.cells⟩, rfl,
    Function.update_self _ _ _, fun i hi hid ↦ Function.update_of_ne (cell_ne hz (by lia) (by omega) (by omega)) _ _⟩
  · exact (hword hp).trans (hprogram (q + 1) (by omega) hhigh).symm
  · exact (hprogram a ha hb).trans (hs.program a ha hb)

/-- The operator `ENS`. -/
lemma end_cycle (hat : Stands s q) (hs : Loaded z s) (hlow : z.first ≤ q) (hhigh : q < z.last) (hz : z.Apart)
    (hop : syllableAt z.image q % 64 = 0o51) : ∃ p prof, (prof = true → p = s.mem ((q + 1) / 4)) ∧
      cycle other s = endLoop (fetched s q p prof) := by
  have hlast := hz.last
  obtain ⟨p, prof, hword, hcycle⟩ := hat.cycle_eq (hs.passes q hlow hhigh) (by omega) other
  refine ⟨p, prof, hword, ?_⟩
  have hopcode : syllableAt z.image q &&& 0o77 = 0o51 := (Nat.and_two_pow_sub_one_eq_mod _ 6).trans hop
  rw [hcycle, dispatch]
  have ht : (fetched s q p prof).t = syllableAt z.image q := hs.syllable_eq hlow hhigh
  rw [ht, hopcode]
  rfl

/-- **A loop is repeated.** -/
theorem end_again (hz : z.Apart) (hat : Stands s q) (hs : Loaded z s) (hlow : z.first ≤ q) (hhigh : q < z.last)
    (hop : syllableAt z.image q % 64 = 0o51) {b : ℕ} (hx : s.x = loopWord (z.cell d) b (r + 1)) (hr : r + 1 < 64)
    (hb : z.first ≤ b) (hb' : b < z.last) : Stands (cycle other s) b ∧ Loaded z (cycle other s) ∧
      (cycle other s).x = loopWord (z.cell d) b r ∧ (cycle other s).mem = s.mem := by
  have hlast := hz.last
  obtain ⟨p, prof, hword, hcycle⟩ := @end_cycle s q z other hat hs hlow hhigh hz hop
  obtain ⟨-, -, hcf, hlf, hrep⟩ := loopWord_parts (z.cell_lt d) (show b < 2 ^ 17 by lia) hr
  have hnext := loopWord_next (z.cell_lt d) (show b < 2 ^ 17 by lia) hr
  have hpass : s.Passes (b / 4) := hs.passes b hb hb'
  have hrun : cycle other s = { fetched s q p prof with
      a := s.b, b := s.b, arof := false, x := loopWord (z.cell d) b r, l := b % 4, c := b / 4, p := s.mem (b / 4), prof := true } := by
    rw [hcycle, endLoop]
    have hx' : (fetched s q p prof).x = loopWord (z.cell d) b (r + 1) := hx
    rw [hx', hrep, if_pos r.succ_ne_zero, Nat.add_sub_cancel, hnext, hcf, hlf]
    rw [cycle_passed (e := 0o20) (show Cpu.Passes _ (b / 4) from hpass)]
    rfl
  rw [hrun]
  exact ⟨⟨rfl, Nat.mod_lt _ (by norm_num), Nat.div_add_mod _ _, fun _ ↦ rfl⟩, ⟨hs.program, hs.passes, hs.cells⟩, rfl, rfl⟩

/-- **A loop ends.** -/
theorem end_last (hz : z.Apart) (hat : Stands s q) (hs : Loaded z s) (hlow : z.first ≤ q) (hhigh : q < z.last)
    (hop : syllableAt z.image q % 64 = 0o51) {b : ℕ} (hx : s.x = loopWord (z.cell d) b 0) (hd : 1 ≤ d) (hd' : d ≤ z.nested)
    (hb : b < z.last) : Stands (cycle other s) (q + 1) ∧ Loaded z (cycle other s) ∧
      (cycle other s).x = s.mem (z.cell d) &&& mant ∧ (cycle other s).mem = s.mem := by
  have hlast := hz.last
  obtain ⟨p, prof, hword, hcycle⟩ := @end_cycle s q z other hat hs hlow hhigh hz hop
  obtain ⟨-, hff, -, -, hrep⟩ := loopWord_parts (z.cell_lt d) (show b < 2 ^ 17 by lia) (show 0 < 64 by norm_num)
  have hpass : s.Passes (ff s.x) := by
    rw [hx, hff]
    exact hs.cells d hd hd'
  have hrun : cycle other s = { fetched s q p prof with
      a := s.b, b := s.b, arof := false, x := s.mem (z.cell d) &&& mant } := by
    rw [hcycle, endLoop]
    have hx' : (fetched s q p prof).x = s.x := rfl
    rw [hx', hx, hrep, if_neg (not_not.mpr rfl), ← hx, cycle_loadB hpass, hx, hff]
    rfl
  rw [hrun]
  exact ⟨⟨rfl, Nat.mod_lt _ (by norm_num), Nat.div_add_mod _ _, hword⟩, ⟨hs.program, hs.passes, hs.cells⟩, rfl, rfl⟩

/-- The operator `JNS`, or `JNC` when the true state is off. -/
def jumpOp (cond : Bool) : ℕ := if cond = true then 0o44 else 0o46

lemma jumpOut_eq {field : ℕ} (h : s.Passes (ff s.x)) : jumpOut field s = if field > 0
    then { s with
      a := s.mem (ff s.x), arof := false, x := s.mem (ff s.x) &&& mant, prof := false
      l := (s.c <<< 2 ||| s.l) + field &&& 3, c := ((s.c <<< 2 ||| s.l) + field) >>> 2 &&& core }
    else { s with a := s.mem (ff s.x), arof := false, x := s.mem (ff s.x) &&& mant } := by
  rw [jumpOut, @cycle_loadA { s with s := ff s.x } h]

/-- **A loop is left.** -/
theorem jump_spec (hz : z.Apart) (hat : Stands s q) (hs : Loaded z s) (hlow : z.first ≤ q) (hhigh : q < z.last) {cond : Bool}
    {field : ℕ} (hfield : field < 64) (hop : syllableAt z.image q = field * 64 + jumpOp cond) (hcond : ¬ (cond = true ∧ s.msff = true))
    (hlevel : OnLevel z d s.x) (hd : 1 ≤ d) (hd' : d ≤ z.nested) (htarget : q + 1 + field ≤ z.last) :
    Stands (cycle other s) (q + 1 + field) ∧ Loaded z (cycle other s) ∧ (cycle other s).x = s.mem (z.cell d) &&& mant ∧
      (cycle other s).mem = s.mem := by
  have hlast := hz.last
  obtain ⟨p, prof, hword, hcycle⟩ := hat.cycle_eq (hs.passes q hlow hhigh) (by omega) other
  have hjump : jumpOp cond < 64 := by
    rw [jumpOp]
    split_ifs <;> norm_num
  obtain ⟨hopcode, hpart⟩ := syllable_parts hjump hfield
  have hpass : s.Passes (ff s.x) := by
    rw [hlevel.2]
    exact hs.cells d hd hd'
  have hdispatch : cycle other s = jumpOut field (fetched s q p prof) := by
    have ht : (fetched s q p prof).t = syllableAt z.image q := hs.syllable_eq hlow hhigh
    rw [hcycle, dispatch, ht, hop, hopcode, hpart]
    cases cond with
    | false => rfl
    | true => exact if_neg fun hm ↦ hcond ⟨rfl, hm⟩
  by_cases hzero : field > 0
  · have hpointer : ((q + 1) / 4) <<< 2 ||| (q + 1) % 4 = q + 1 := by
      rw [shiftLeft_or_eq (by omega)]
      omega
    have hl : q + 1 + field &&& 3 = (q + 1 + field) % 4 := Nat.and_two_pow_sub_one_eq_mod _ 2
    have hc : (q + 1 + field) >>> 2 &&& core = (q + 1 + field) / 4 := by
      rw [Nat.shiftRight_eq_div_pow]
      exact (Nat.and_two_pow_sub_one_eq_mod _ 15).trans (Nat.mod_eq_of_lt (by lia))
    have hrun : cycle other s = { fetched s q p prof with
        a := s.mem (z.cell d), arof := false, x := s.mem (z.cell d) &&& mant, l := (q + 1 + field) % 4, c := (q + 1 + field) / 4
        prof := false } := by
      rw [hdispatch, @jumpOut_eq (fetched s q p prof) field hpass, if_pos hzero]
      dsimp only [fetched]
      rw [hpointer, hl, hc, hlevel.2]
    rw [hrun]
    exact ⟨⟨rfl, Nat.mod_lt _ (by norm_num), Nat.div_add_mod _ _, fun hp ↦ absurd hp Bool.false_ne_true⟩,
      ⟨hs.program, hs.passes, hs.cells⟩, rfl, rfl⟩
  · have hrun : cycle other s = { fetched s q p prof with
        a := s.mem (z.cell d), arof := false, x := s.mem (z.cell d) &&& mant } := by
      rw [hdispatch, @jumpOut_eq (fetched s q p prof) field hpass, if_neg hzero]
      dsimp only [fetched]
      rw [hlevel.2]
    rw [hrun, show field = 0 by lia]
    exact ⟨⟨rfl, Nat.mod_lt _ (by norm_num), Nat.div_add_mod _ _, hword⟩, ⟨hs.program, hs.passes, hs.cells⟩, rfl, rfl⟩

/-- The condition does not hold, and the loop goes on. -/
theorem stay_spec (hz : z.Apart) (hat : Stands s q) (hs : Loaded z s) (hlow : z.first ≤ q) (hhigh : q < z.last)
    {field : ℕ} (hfield : field < 64) (hop : syllableAt z.image q = field * 64 + jumpOp true) (hcond : s.msff = true) :
    Stands (cycle other s) (q + 1) ∧ Loaded z (cycle other s) ∧ (cycle other s).x = s.x ∧ (cycle other s).mem = s.mem := by
  have hlast := hz.last
  obtain ⟨p, prof, hword, hcycle⟩ := hat.cycle_eq (hs.passes q hlow hhigh) (by omega) other
  obtain ⟨hopcode, hpart⟩ := syllable_parts (show jumpOp true < 64 by decide) hfield
  have hrun : cycle other s = fetched s q p prof := by
    have ht : (fetched s q p prof).t = syllableAt z.image q := hs.syllable_eq hlow hhigh
    rw [hcycle, dispatch, ht, hop, hopcode, hpart]
    exact if_pos hcond
  rw [hrun]
  exact ⟨⟨rfl, Nat.mod_lt _ (by norm_num), Nat.div_add_mod _ _, hword⟩, ⟨hs.program, hs.passes, hs.cells⟩, rfl, rfl⟩

end Operators

/-! ### Blocks -/

/-- A piece of a program: a section without operators of these loops, a jump out of a loop, or a block, and the rest after it. -/
inductive Code
  | nil
  | plain (len : ℕ) (rest : Code)
  | leave (cond : Bool) (field : ℕ) (rest : Code)
  | loop (n : ℕ) (body rest : Code)

namespace Code

/-- The number of its syllables, and how deep its blocks are nested. -/
def size : Code → ℕ
  | nil => 0
  | plain len rest => len + rest.size
  | leave _ _ rest => 1 + rest.size
  | loop _ body rest => body.size + 2 + rest.size
def depth : Code → ℕ
  | nil => 0
  | plain _ rest => rest.depth
  | leave _ _ rest => rest.depth
  | loop _ body rest => max (body.depth + 1) rest.depth

/-- The operators are in the memory, from the syllable `q` on. -/
def Placed (image : ℕ → ℕ) : Code → ℕ → Prop
  | nil, _ => True
  | plain len rest, q => rest.Placed image (q + len)
  | leave cond field rest, q => syllableAt image q = field * 64 + jumpOp cond ∧ rest.Placed image (q + 1)
  | loop n body rest, q => syllableAt image q = n * 64 + 0o52 ∧ body.Placed image (q + 1) ∧
      syllableAt image (q + 1 + body.size) % 64 = 0o51 ∧ rest.Placed image (q + 2 + body.size)

/-- What is left of a piece from some place on. -/
inductive Tail : Code → ℕ → Code → ℕ → Prop
  | refl (c : Code) (q : ℕ) : Tail c q c q
  | plain {rest c : Code} {len q a : ℕ} : Tail rest (q + len) c a → Tail (.plain len rest) q c a
  | leave {rest c : Code} {cond : Bool} {field q a : ℕ} : Tail rest (q + 1) c a → Tail (.leave cond field rest) q c a
  | loop {body rest c : Code} {n q a : ℕ} : Tail rest (q + 2 + body.size) c a → Tail (.loop n body rest) q c a

/-- The blocks are properly nested: a jump out of a block goes to a place after it in the piece that the block is in. Outside of
blocks a jump goes to one of `targets`. -/
def Nested : Code → ℕ → (ℕ → Prop) → Prop
  | nil, _, _ => True
  | plain len rest, q, targets => rest.Nested (q + len) targets
  | leave _ field rest, q, targets => targets (q + 1 + field) ∧ rest.Nested (q + 1) targets
  | loop _ body rest, q, targets => body.Nested (q + 1) (fun a ↦ ∃ c, Tail rest (q + 2 + body.size) c a) ∧
      rest.Nested (q + 2 + body.size) targets

end Code

/-- A piece is run to its end, or a jump leaves the block that it is the body of. -/
inductive Exit
  | done
  | left (target : ℕ)

mutual

/-- **A run of a piece.** A block is run for all its turns, or it is left in one of them; then `X` is as it was before the block, and the
run goes on after the block, or where the jump went. -/
inductive Runs (other : Cpu → Cpu) : Code → ℕ → Cpu → Exit → Cpu → Prop
  | nil {q : ℕ} {s : Cpu} : Runs other .nil q s .done s
  | plain {rest : Code} {len q k : ℕ} {s t u : Cpu} {e : Exit} : (cycle other)^[k] s = u → Stands u (q + len) → u.x = s.x →
      Runs other rest (q + len) u e t → Runs other (.plain len rest) q s e t
  | stay {rest : Code} {field q : ℕ} {s t : Cpu} {e : Exit} : s.msff = true →
      Runs other rest (q + 1) (cycle other s) e t → Runs other (.leave true field rest) q s e t
  | leave {rest : Code} {cond : Bool} {field q : ℕ} {s : Cpu} : ¬ (cond = true ∧ s.msff = true) →
      Runs other (.leave cond field rest) q s (.left (q + 1 + field)) (cycle other s)
  | finish {body rest : Code} {n q : ℕ} {s t u : Cpu} {e : Exit} : Turns other body (q + 1) (max n 1) (cycle other s) u →
      u.x = s.x → Stands u (q + 2 + body.size) → Runs other rest (q + 2 + body.size) u e t → Runs other (.loop n body rest) q s e t
  | exit {body rest c : Code} {n q k a : ℕ} {s t u v : Cpu} {e : Exit} : k < max n 1 →
      Turns other body (q + 1) k (cycle other s) v → Runs other body (q + 1) v (.left a) u → u.x = s.x → Stands u a →
      Code.Tail rest (q + 2 + body.size) c a → Runs other c a u e t → Runs other (.loop n body rest) q s e t

/-- Some turns: the body is run to its end, and then the operator `ENS`. -/
inductive Turns (other : Cpu → Cpu) : Code → ℕ → ℕ → Cpu → Cpu → Prop
  | zero {body : Code} {q : ℕ} {s : Cpu} : Turns other body q 0 s s
  | succ {body : Code} {q k : ℕ} {s t u : Cpu} : Runs other body q s .done u → Turns other body q k (cycle other u) t →
      Turns other body q (k + 1) s t

end

/-! ### Runs -/

/-- The processor comes to a state. -/
def Reached (other : Cpu → Cpu) (s t : Cpu) : Prop := ∃ k, (cycle other)^[k] s = t

/-- A section is run: `X`, the words of the loops and the program are as they were. -/
structure PlainRun (other : Cpu → Cpu) (z : Setting) (d q : ℕ) (s t : Cpu) : Prop where
  reached : Reached other s t
  place : Stands t q
  loaded : Loaded z t
  x : t.x = s.x
  words : SameWords z d s t

/-- The sections that a run from `s₀` comes to are run to their ends. -/
def Quiet (other : Cpu → Cpu) (z : Setting) (s₀ : Cpu) : Code → ℕ → ℕ → Prop
  | .nil, _, _ => True
  | .plain len rest, q, d =>
      (∀ s, Reached other s₀ s → Stands s q → Loaded z s → OnLevel z d s.x → ∃ t, PlainRun other z d (q + len) s t) ∧
        Quiet other z s₀ rest (q + len) d
  | .leave _ _ rest, q, d => Quiet other z s₀ rest (q + 1) d
  | .loop _ body rest, q, d => Quiet other z s₀ body (q + 1) (d + 1) ∧ Quiet other z s₀ rest (q + 2 + body.size) d

/-- What holds at the end of a run of a piece in the loop `d`. -/
structure Ended (other : Cpu → Cpu) (z : Setting) (s₀ : Cpu) (d : ℕ) (s t : Cpu) : Prop where
  reached : Reached other s₀ t
  loaded : Loaded z t
  words : SameWords z d s t

def Exit.Right (z : Setting) (d stop : ℕ) (targets : ℕ → Prop) (s t : Cpu) : Exit → Prop
  | .done => Stands t stop ∧ t.x = s.x
  | .left a => Stands t a ∧ targets a ∧ t.x = s.mem (z.cell d) &&& mant

section Run

variable {other : Cpu → Cpu} {s₀ : Cpu} {c body rest : Code} {targets : ℕ → Prop} {stop : ℕ}

lemma Reached.trans (h : Reached other s t) (h' : Reached other t u) : Reached other s u := by
  obtain ⟨k, rfl⟩ := h
  obtain ⟨j, rfl⟩ := h'
  exact ⟨j + k, Function.iterate_add_apply _ _ _ _⟩

lemma reached_cycle (s : Cpu) : Reached other s (cycle other s) := ⟨1, rfl⟩

lemma SameWords.trans (h : SameWords z d s t) (h' : SameWords z d t u) : SameWords z d s u := fun i hi hd ↦
  (h' i hi hd).trans (h i hi hd)

lemma SameWords.of_mem (h : t.mem = s.mem) : SameWords z d s t := fun _ _ _ ↦ by rw [h]

lemma SameWords.mono (h : SameWords z (d + 1) s t) : SameWords z d s t := fun i hi hd ↦ h i hi (by omega)

lemma Code.Tail.bounds {c' : Code} {a : ℕ} (h : Code.Tail c q c' a) : q ≤ a ∧ a + c'.size = q + c.size := by
  induction h with
  | refl c q => exact ⟨le_rfl, rfl⟩
  | plain _ ih => rw [Code.size]; lia
  | leave _ ih => rw [Code.size]; lia
  | loop _ ih => rw [Code.size]; lia

lemma onLevel_loopWord (hq : q < 2 ^ 17) (hr : r < 64) : OnLevel z d (loopWord (z.cell d) q r) := by
  obtain ⟨hlt, hff, -⟩ := loopWord_parts (z.cell_lt d) hq hr
  exact ⟨by omega, hff⟩

/-- A body comes to its end, or is left. -/
def Ends (other : Cpu → Cpu) (z : Setting) (s₀ : Cpu) (d : ℕ) (c : Code) (q stop : ℕ) (targets : ℕ → Prop) : Prop :=
  ∀ s, Reached other s₀ s → Stands s q → Loaded z s → OnLevel z d s.x →
    ∃ e t, Runs other c q s e t ∧ Ended other z s₀ d s t ∧ e.Right z d stop targets s t

/-- **The turns of a loop.** With the word of the loop in `X`, its body is run until no turn is left, or until it is left. -/
theorem turns_run (hz : z.Apart) (hbody : Ends other z s₀ (d + 1) body q (q + body.size) targets) (hlow : z.first ≤ q)
    (hhigh : q + body.size < z.last) (hop : syllableAt z.image (q + body.size) % 64 = 0o51) (hd : d < z.nested) (hx : x < 2 ^ 39)
    (hr : r < 64) (hreach : Reached other s₀ s) (hat : Stands s q) (hs : Loaded z s) (hword : s.x = loopWord (z.cell (d + 1)) q r)
    (hsaved : s.mem (z.cell (d + 1)) = x ||| flag ||| dflag) :
    ∃ t, Ended other z s₀ d s t ∧ t.x = x ∧ (Turns other body q (r + 1) s t ∧ Stands t (q + body.size + 1) ∨
      ∃ k a u, k < r + 1 ∧ Turns other body q k s u ∧ Runs other body q u (.left a) t ∧ Stands t a ∧ targets a) := by
  have hlast := hz.last
  induction r generalizing s with
  | zero =>
    obtain ⟨e, t, hruns, hended, hright⟩ := hbody s hreach hat hs (hword ▸ onLevel_loopWord (by omega) hr)
    have hmem : t.mem (z.cell (d + 1)) = x ||| flag ||| dflag := (hended.words (d + 1) (by omega) le_rfl).trans hsaved
    cases e with
    | done =>
      obtain ⟨hat', hx'⟩ := hright
      obtain ⟨hnext, hloaded, hxe, hmeme⟩ := @end_last t (d + 1) _ z other hz hat' hended.loaded (by omega) hhigh hop q
        (hx'.trans hword) (by omega) hd (by omega)
      refine ⟨cycle other t, ⟨hended.reached.trans (reached_cycle t), hloaded, hended.words.mono.trans (.of_mem hmeme)⟩, ?_,
        .inl ⟨.succ hruns .zero, hnext⟩⟩
      rw [hxe, hmem, stacked_and_mant hx]
    | left a =>
      obtain ⟨hat', htarget, hx'⟩ := hright
      refine ⟨t, ⟨hended.reached, hended.loaded, hended.words.mono⟩, ?_, .inr ⟨0, a, s, by omega, .zero, hruns, hat', htarget⟩⟩
      rw [hx', hsaved, stacked_and_mant hx]
  | succ r ih =>
    obtain ⟨e, t, hruns, hended, hright⟩ := hbody s hreach hat hs (hword ▸ onLevel_loopWord (by omega) hr)
    have hmem : t.mem (z.cell (d + 1)) = x ||| flag ||| dflag := (hended.words (d + 1) (by omega) le_rfl).trans hsaved
    cases e with
    | done =>
      obtain ⟨hat', hx'⟩ := hright
      obtain ⟨hnext, hloaded, hxe, hmeme⟩ := @end_again t (d + 1) _ r z other hz hat' hended.loaded (by omega) hhigh hop q
        (hx'.trans hword) hr hlow (by omega)
      obtain ⟨u, hu, hxu, hturns⟩ := ih (by omega) (hended.reached.trans (reached_cycle t)) hnext hloaded hxe (by rw [hmeme, hmem])
      refine ⟨u, ⟨hu.reached, hu.loaded, (hended.words.mono.trans (.of_mem hmeme)).trans hu.words⟩, hxu, ?_⟩
      rcases hturns with ⟨hall, hafter⟩ | ⟨k, a, v, hk, hsome, hleft, hplace, htarget⟩
      · exact .inl ⟨.succ hruns hall, hafter⟩
      · exact .inr ⟨k + 1, a, v, by lia, .succ hruns hsome, hleft, hplace, htarget⟩
    | left a =>
      obtain ⟨hat', htarget, hx'⟩ := hright
      refine ⟨t, ⟨hended.reached, hended.loaded, hended.words.mono⟩, ?_, .inr ⟨0, a, s, by lia, .zero, hruns, hat', htarget⟩⟩
      rw [hx', hsaved, stacked_and_mant hx]

/-- A piece is in the memory in the loop `d`, and its blocks are properly nested. -/
structure Fits (other : Cpu → Cpu) (z : Setting) (s₀ : Cpu) (d : ℕ) (c : Code) (q : ℕ) (targets : ℕ → Prop) : Prop where
  placed : c.Placed z.image q
  proper : c.Nested q targets
  quiet : Quiet other z s₀ c q d
  depth : d + c.depth ≤ z.nested
  low : z.first ≤ q
  high : q + c.size ≤ z.last
  targets : ∀ a, targets a → 1 ≤ d ∧ a ≤ z.last

lemma syllable_lt (mem : ℕ → ℕ) (q : ℕ) : syllableAt mem q < 4096 :=
  (Nat.and_two_pow_sub_one_eq_mod _ 12).trans_lt (Nat.mod_lt _ (by norm_num))

/-- A part of a run goes before the rest of it. -/
lemma Ended.before {e : Exit} (hwords : SameWords z d s u) (hx : u.x = s.x) (hd : ∀ a, targets a → 1 ≤ d)
    (h : Ended other z s₀ d u t ∧ e.Right z d stop targets u t) : Ended other z s₀ d s t ∧ e.Right z d stop targets s t := by
  obtain ⟨hended, hright⟩ := h
  refine ⟨⟨hended.reached, hended.loaded, hwords.trans hended.words⟩, ?_⟩
  cases e with
  | done => exact ⟨hright.1, hright.2.trans hx⟩
  | left a =>
    obtain ⟨hat, htarget, hxt⟩ := hright
    exact ⟨hat, htarget, by rw [hxt, hwords d (hd a htarget) le_rfl]⟩

/-- **A block.** It is run for all its turns, or it is left, and then the rest after it is run. -/
theorem loop_run (hz : z.Apart) (h : Fits other z s₀ d (.loop n body rest) q targets)
    (hbody : Ends other z s₀ (d + 1) body (q + 1) (q + 1 + body.size) fun a ↦ ∃ c, Code.Tail rest (q + 2 + body.size) c a)
    (hrest : ∀ {c a}, Code.Tail rest (q + 2 + body.size) c a →
      Ends other z s₀ d c a (q + 2 + body.size + rest.size) targets) :
    Ends other z s₀ d (.loop n body rest) q (q + 2 + body.size + rest.size) targets := by
  intro s hreach hat hs hlevel
  have hlast := hz.last
  obtain ⟨⟨hbegin, -, hend, -⟩, -, -, hdepth, hlow, hhigh, htargets⟩ := h
  rw [Code.depth] at hdepth
  rw [Code.size] at hhigh
  have hn : n < 64 := by
    have hlt := syllable_lt z.image q
    lia
  have hmax : max n 1 = n - 1 + 1 := by lia
  obtain ⟨hat', hloaded, hx', hsaved, hwords⟩ := @begin_spec s d n q z other hz hat hs hlow (by omega) hn hbegin hlevel (by lia)
  obtain ⟨t, ht, hxt, hturns⟩ := turns_run hz hbody (by omega) (by omega) hend (by lia) hlevel.1 (by lia)
    (hreach.trans (reached_cycle s)) hat' hloaded hx' hsaved
  have hsame : SameWords z d s t := hwords.trans ht.words
  have hlevel' : OnLevel z d t.x := hxt ▸ hlevel
  rw [← hmax] at hturns
  rcases hturns with ⟨hall, hafter⟩ | ⟨k, a, v, hk, hsome, hleft, hplace, c, htail⟩
  · rw [show q + 1 + body.size + 1 = q + 2 + body.size by omega] at hafter
    obtain ⟨e, u, hruns, hu⟩ := hrest (.refl _ _) t ht.reached hafter ht.loaded hlevel'
    exact ⟨e, u, .finish hall hxt hafter hruns, Ended.before hsame hxt (fun a ha ↦ (htargets a ha).1) hu⟩
  · obtain ⟨e, u, hruns, hu⟩ := hrest htail t ht.reached hplace ht.loaded hlevel'
    exact ⟨e, u, .exit hk hsome hleft hxt hplace htail hruns, Ended.before hsame hxt (fun a ha ↦ (htargets a ha).1) hu⟩

/-- **A piece is run**, from the start of any part that is left of it. -/
theorem runs_code (hz : z.Apart) (h : Fits other z s₀ d c q targets) {c' : Code} {a : ℕ} (htail : Code.Tail c q c' a) :
    Ends other z s₀ d c' a (q + c.size) targets := by
  have hlast := hz.last
  induction c generalizing q d targets c' a with
  | nil =>
    cases htail with
    | refl =>
      intro s hreach hat hs _
      exact ⟨.done, s, .nil, ⟨hreach, hs, .of_mem rfl⟩, hat, rfl⟩
  | plain len rest ih =>
    obtain ⟨hplaced, hnested, ⟨hrun, hquiet⟩, hdepth, hlow, hhigh, htargets⟩ := h
    rw [Code.size] at hhigh
    have hfits : Fits other z s₀ d rest (q + len) targets :=
      ⟨hplaced, hnested, hquiet, hdepth, by omega, by omega, htargets⟩
    rw [Code.size, ← Nat.add_assoc]
    cases htail with
    | plain htail => exact ih hfits htail
    | refl =>
      intro s hreach hat hs hlevel
      obtain ⟨u, hu⟩ := hrun s hreach hat hs hlevel
      obtain ⟨k, hk⟩ := hu.reached
      obtain ⟨e, t, hruns, ht⟩ := ih hfits (.refl _ _) u (hreach.trans hu.reached) hu.place hu.loaded (hu.x ▸ hlevel)
      exact ⟨e, t, .plain hk hu.place hu.x hruns, Ended.before hu.words hu.x (fun a ha ↦ (htargets a ha).1) ht⟩
  | leave cond field rest ih =>
    obtain ⟨⟨hop, hplaced⟩, ⟨htarget, hnested⟩, hquiet, hdepth, hlow, hhigh, htargets⟩ := h
    rw [Code.size] at hhigh
    have hfits : Fits other z s₀ d rest (q + 1) targets := ⟨hplaced, hnested, hquiet, hdepth, by omega, by omega, htargets⟩
    rw [Code.size, ← Nat.add_assoc]
    cases htail with
    | leave htail => exact ih hfits htail
    | refl =>
      intro s hreach hat hs hlevel
      have hfield : field < 64 := by
        have hlt := syllable_lt z.image q
        lia
      obtain ⟨hd, htargetLast⟩ := htargets _ htarget
      by_cases hcond : cond = true ∧ s.msff = true
      · obtain ⟨rfl, hmsff⟩ := hcond
        obtain ⟨hat', hloaded, hx, hmem⟩ := @stay_spec s q z other hz hat hs hlow (by omega) field hfield hop hmsff
        obtain ⟨e, t, hruns, ht⟩ := ih hfits (.refl _ _) _ (hreach.trans (reached_cycle s)) hat' hloaded (hx ▸ hlevel)
        exact ⟨e, t, .stay hmsff hruns, Ended.before (.of_mem hmem) hx (fun a ha ↦ (htargets a ha).1) ht⟩
      · obtain ⟨hat', hloaded, hx, hmem⟩ := @jump_spec s d q z other hz hat hs hlow (by omega) cond field hfield hop hcond hlevel
          hd (by omega) htargetLast
        exact ⟨.left _, _, .leave hcond, ⟨hreach.trans (reached_cycle s), hloaded, .of_mem hmem⟩, hat', htarget, hx⟩
  | loop n body rest ihbody ihrest =>
    have h' := h
    obtain ⟨⟨hbegin, hplaced, hend, hplaced'⟩, ⟨hnested, hnested'⟩, ⟨hquiet, hquiet'⟩, hdepth, hlow, hhigh, htargets⟩ := h'
    rw [Code.size] at hhigh
    rw [Code.depth] at hdepth
    have hrest : Fits other z s₀ d rest (q + 2 + body.size) targets :=
      ⟨hplaced', hnested', hquiet', by lia, by omega, by omega, htargets⟩
    have hbody : Fits other z s₀ (d + 1) body (q + 1) fun a ↦ ∃ c, Code.Tail rest (q + 2 + body.size) c a := by
      refine ⟨hplaced, hnested, hquiet, by lia, by omega, by omega, fun a ⟨c, htail⟩ ↦ ⟨by omega, ?_⟩⟩
      obtain ⟨-, hsize⟩ := htail.bounds
      lia
    have hstop : q + (Code.loop n body rest).size = q + 2 + body.size + rest.size := by
      rw [Code.size]
      lia
    rw [hstop]
    cases htail with
    | loop htail => exact ihrest hrest htail
    | refl => exact loop_run hz h (ihbody hbody (.refl _ _)) fun htail ↦ ihrest hrest htail

/-- **The loops of character mode.** A program of nested blocks is run block for block: each body as often as its block says, or until a
jump leaves it. Stands its end, as after each block, `X` is as it was. -/
theorem loops_spec (hz : z.Apart) (h : Fits other z s 0 c q fun _ ↦ False) (hat : Stands s q) (hs : Loaded z s)
    (hlevel : OnLevel z 0 s.x) : ∃ t, Runs other c q s .done t ∧ Reached other s t ∧ Stands t (q + c.size) ∧ t.x = s.x := by
  obtain ⟨e, t, hruns, hended, hright⟩ := runs_code hz h (.refl c q) s ⟨0, rfl⟩ hat hs hlevel
  cases e with
  | done => exact ⟨t, hruns, hended.reached, hright⟩
  | left a => exact hright.2.1.elim

end Run

/-- `SEC`. -/
def setTally (s : Cpu) : Cpu := { s with r := s.t &&& 0o7700 }

/-- A block with two turns: the tally is set, and the block is left when the true state is off. -/
def tallies : Code := .loop 2 (.plain 1 (.leave true 1 .nil)) .nil

/-- It is in the word 0, and the word of its loop is put into the word 1. -/
def tallySetting : Setting := ⟨fun addr ↦ if addr = 0 then 0o0252014201440051 else 0, 0, 4, toAddr 0, 1⟩

def beforeTallies : Cpu := { fullStack with ncsf := false, c := 0, mem := tallySetting.image }

lemma tallySetting_apart : tallySetting.Apart :=
  ⟨show 4 < 2 ^ 17 by norm_num, show 1 < 2 ^ 15 by norm_num, fun q _ hq i hi hi' ↦ by
    have hq' : q < 4 := hq
    have hi1 : i = 1 := le_antisymm hi' hi
    have hcell : tallySetting.cell 1 = 1 := rfl
    rw [hi1, hcell]
    omega⟩

/-- The section in the body. -/
lemma tally_run {d : ℕ} {s : Cpu} (hat : Stands s 1) (hs : Loaded tallySetting s) :
    PlainRun setTally tallySetting d 2 s (cycle setTally s) := by
  obtain ⟨p, prof, hword, hcycle⟩ := hat.cycle_eq (hs.passes 1 (by decide) (by decide)) (by norm_num) setTally
  have ht : (fetched s 1 p prof).t = 0o142 := hs.syllable_eq (by decide) (by decide)
  have hrun : cycle setTally s = setTally (fetched s 1 p prof) := by
    rw [hcycle, dispatch, ht]
    rfl
  refine ⟨reached_cycle s, ?_, ?_, ?_, .of_mem ?_⟩ <;> rw [hrun]
  · exact ⟨rfl, Nat.mod_lt _ (by norm_num), rfl, hword⟩
  · exact ⟨hs.program, hs.passes, hs.cells⟩
  · rfl
  · rfl

theorem loops_spec_two : ∃ t, Runs setTally tallies 0 beforeTallies .done t ∧ Reached setTally beforeTallies t ∧
    Stands t (0 + tallies.size) ∧ t.x = beforeTallies.x :=
  loops_spec tallySetting_apart
    ⟨⟨by decide, ⟨by decide, trivial⟩, by decide, trivial⟩, ⟨⟨⟨_, .refl _ _⟩, trivial⟩, trivial⟩,
      ⟨⟨fun s _ hat hs _ ↦ ⟨_, tally_run hat hs⟩, trivial⟩, trivial⟩, by decide, by decide, by decide, fun _ h ↦ h.elim⟩
    ⟨rfl, by decide, rfl, fun h ↦ absurd h (by decide)⟩
    ⟨fun _ _ _ ↦ rfl, fun q _ hq ↦ ⟨le_trans (Nat.div_le_self q 4) (le_trans (le_of_lt hq) (by decide)), fun h ↦ nomatch h⟩,
      fun i _ _ ↦ ⟨le_of_lt (tallySetting.cell_lt i), fun h ↦ absurd h (by decide)⟩⟩
    ⟨by decide, by decide⟩

end Ka10Simh.B5500
