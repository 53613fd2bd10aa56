import Ka10Simh.Lib.Restart
import Ka10Simh.Ibm360.Dat
import Ka10Simh.Ibm360.Storage

/-!
Move Long and Compare Logical Long of the System/370.

Both have their addresses and the counts that remain in two pairs of registers, and leave there how far they
have come when an operand cannot be accessed. An execution then goes on from there.

* `mvcl`, `clcl`: the instructions.
* `enter_save`: what is left is what is found.
* `mvcl_restartable`, `clcl_restartable`: stopped instructions come to the same end.
* `long_restart`: however often they are stopped.
-/

namespace Ka10Simh.Ibm360

open Word Iterate Restart

/-- The registers, the memory, the condition code, and the code of a program interruption other than an access
exception. -/
structure Cpu where
  regs : ℕ → ℕ
  mem : ℕ → ℕ
  cc : ℕ
  irc : Option ℕ

/-- The variables of the two instructions, under their names in the source. -/
structure Long where
  addr1 : ℕ
  src1 : ℕ
  addr2 : ℕ
  src2 : ℕ
  cc : ℕ
  mem : ℕ → ℕ

/-! ### The registers -/

/-- A length in a register that keeps its first byte. -/
def setLength (r len : ℕ) (regs : ℕ → ℕ) : ℕ → ℕ :=
  Function.update regs r (bic (regs r) amask ||| (len &&& amask))

variable (r1 r2 : ℕ)

/-- Extract parameters. -/
def enter (s : Cpu) : Long where
  addr1 := s.regs r1 &&& amask
  src1 := s.regs (r1 ||| 1) &&& amask
  addr2 := s.regs r2 &&& amask
  src2 := s.regs (r2 ||| 1) &&& amask
  cc := s.cc
  mem := s.mem

/-- The padding byte. -/
def fillByte (s : Cpu) : ℕ := s.regs (r2 ||| 1) >>> 24 &&& 0xff

/-- Save registers back. -/
def save (s : Cpu) (t : Long) : Cpu :=
  { s with
    regs := setLength (r2 ||| 1) t.src2 (Function.update
      (setLength (r1 ||| 1) t.src1 (Function.update s.regs r1 (t.addr1 &&& amask))) r2 (t.addr2 &&& amask))
    cc := t.cc
    mem := t.mem }

/-! ### The instructions -/

/-- Whether the destination has bytes that are still to be moved from the source. -/
def Long.Destructive (t : Long) : Prop :=
  t.src1 > 1 ∧ t.src2 > 1 ∧
    let dest := (t.addr2 + (if t.src2 < t.src1 then t.src2 else t.src1) - 1) &&& amask
    dest > t.addr2 ∧ (t.addr1 > t.addr2 ∧ t.addr1 ≤ dest)
      ∨ dest ≤ t.addr2 ∧ (t.addr1 > t.addr2 ∨ t.addr1 ≤ dest)

instance (t : Long) : Decidable t.Destructive := inferInstanceAs (Decidable (_ ∧ _ ∧ (_ ∨ _)))

/-- The condition code of MVCL. -/
def Long.compare (t : Long) : ℕ := if t.src1 < t.src2 then 1 else if t.src1 > t.src2 then 2 else 0

variable (loc : ℕ → ℕ)

/-- A turn of the loop of MVCL. -/
def mvclBody (fill : ℕ) (F : Finset Fault) (t : Long) : Long ⊕ (Long × Option Fault) :=
  if t.src1 = 0 then .inr (t, none)
  else
    match if t.src2 = 0 then .ok fill else readByte loc F t.mem t.addr2 with
    | .error f => .inr (t, some f)
    | .ok dest =>
        match writeByte loc F t.mem t.addr1 dest with
        | .error f => .inr (t, some f)
        | .ok mem =>
            .inl { t with
              addr2 := if t.src2 ≠ 0 then (t.addr2 + 1) &&& amask else t.addr2
              src2 := if t.src2 ≠ 0 then t.src2 - 1 else t.src2
              addr1 := (t.addr1 + 1) &&& amask
              src1 := t.src1 - 1
              mem }

/-- A turn of the loop of CLCL. -/
def clclBody (fill : ℕ) (F : Finset Fault) (t : Long) : Long ⊕ (Long × Option Fault) :=
  if t.src1 = 0 ∧ t.src2 = 0 then .inr (t, none)
  else
    match if t.src1 = 0 then .ok fill else readByte loc F t.mem t.addr1 with
    | .error f => .inr (t, some f)
    | .ok dest =>
        match if t.src2 = 0 then .ok fill else readByte loc F t.mem t.addr2 with
        | .error f => .inr (t, some f)
        | .ok desth =>
            if dest ≠ desth then .inr ({ t with cc := if dest > desth then 2 else 1 }, none)
            else
              .inl { t with
                addr1 := if t.src1 ≠ 0 then (t.addr1 + 1) &&& amask else t.addr1
                src1 := if t.src1 ≠ 0 then t.src1 - 1 else t.src1
                addr2 := if t.src2 ≠ 0 then (t.addr2 + 1) &&& amask else t.addr2
                src2 := if t.src2 ≠ 0 then t.src2 - 1 else t.src2 }

/-- The two from the loop on, which goes round once for every byte at most. -/
def long (body : Finset Fault → Long → Long ⊕ (Long × Option Fault)) (F : Finset Fault) (s : Cpu) (t : Long) :
    Cpu × Option Fault :=
  match run (body F) (t.src1 + t.src2 + 1) t with
  | .inl t => (save r1 r2 s t, none)
  | .inr (t, stop) => (save r1 r2 s t, stop)

/-- `OP_MVCL`. -/
def mvcl (q360 : Bool) (F : Finset Fault) (s : Cpu) : Cpu × Option Fault :=
  if q360 then ({ s with irc := some 1 }, none)
  else if r2 &&& 1 ≠ 0 ∨ r1 &&& 1 ≠ 0 then ({ s with irc := some 6 }, none)
  else
    let t := enter r1 r2 s
    if t.Destructive then ({ s with cc := 3 }, none)
    else long r1 r2 (mvclBody loc (fillByte r2 s)) F s { t with cc := t.compare }

/-- `OP_CLCL`. -/
def clcl (q360 : Bool) (F : Finset Fault) (s : Cpu) : Cpu × Option Fault :=
  if q360 then ({ s with irc := some 1 }, none)
  else if r2 &&& 1 ≠ 0 ∨ r1 &&& 1 ≠ 0 then ({ s with irc := some 6 }, none)
  else long r1 r2 (clclBody loc (fillByte r2 s)) F s { enter r1 r2 s with cc := 0 }

/-! ### What is left is what is found -/

variable {r1 r2}

/-- The lengths and addresses have 24 bits, and are the same when the registers are. -/
structure Long.Valid (r1 r2 : ℕ) (t : Long) : Prop where
  addr1 : t.addr1 < 2 ^ 24
  src1 : t.src1 < 2 ^ 24
  addr2 : t.addr2 < 2 ^ 24
  src2 : t.src2 < 2 ^ 24
  same : r1 = r2 → t.addr1 = t.addr2 ∧ t.src1 = t.src2

lemma and_amask (w : ℕ) : w &&& amask = w % 2 ^ 24 := Nat.and_two_pow_sub_one_eq_mod w 24

lemma and_amask_lt (w : ℕ) : w &&& amask < 2 ^ 24 := Nat.and_lt_two_pow _ (by norm_num)

lemma and_amask_of_lt {w : ℕ} (h : w < 2 ^ 24) : w &&& amask = w := by rw [and_amask, Nat.mod_eq_of_lt h]

lemma enter_valid (r1 r2 : ℕ) (s : Cpu) : (enter r1 r2 s).Valid r1 r2 :=
  ⟨and_amask_lt _, and_amask_lt _, and_amask_lt _, and_amask_lt _,
    fun heq => heq ▸ ⟨rfl, rfl⟩⟩

/-- A length that is put into a register. -/
lemma bic_or_amask (w len : ℕ) : (bic w amask ||| (len &&& amask)) &&& amask = len &&& amask := by
  refine Nat.eq_of_testBit_eq fun k => ?_
  simp only [Nat.testBit_and, Nat.testBit_or, testBit_bic]
  cases w.testBit k <;> cases len.testBit k <;> cases amask.testBit k <;> rfl

lemma bic_bic_or (w len : ℕ) : bic (bic w amask ||| (len &&& amask)) amask = bic w amask := by
  refine Nat.eq_of_testBit_eq fun k => ?_
  simp only [Nat.testBit_and, Nat.testBit_or, testBit_bic]
  cases w.testBit k <;> cases len.testBit k <;> cases amask.testBit k <;> rfl

/-- The padding byte stays. -/
lemma bic_or_fill (w len : ℕ) : (bic w amask ||| (len &&& amask)) >>> 24 &&& 0xff = w >>> 24 &&& 0xff := by
  refine Nat.eq_of_testBit_eq fun k => ?_
  have hmask : amask.testBit (24 + k) = false :=
    Nat.testBit_lt_two_pow (lt_of_lt_of_le (by norm_num) (Nat.pow_le_pow_right (by norm_num) (by omega : 24 ≤ 24 + k)))
  simp only [Nat.testBit_and, Nat.testBit_or, testBit_bic, Nat.testBit_shiftRight, hmask]
  simp

lemma odd_ne (r : ℕ) {r' : ℕ} (h' : r' &&& 1 = 0) : r ||| 1 ≠ r' := by
  intro heq
  have hbit := congrArg (Nat.testBit · 0) heq
  have hzero : r'.testBit 0 = false := and_two_pow_eq_zero.mp h'
  simp [hzero] at hbit

lemma or_one_inj {r r' : ℕ} (h : r &&& 1 = 0) (h' : r' &&& 1 = 0) (heq : r ||| 1 = r' ||| 1) : r = r' := by
  have hsucc {n : ℕ} (hn : n &&& 1 = 0) : n ||| 1 = n + 1 := by
    rw [Nat.and_one_is_mod] at hn
    exact or_eq_add (i := 1) (Nat.dvd_of_mod_eq_zero hn) (by norm_num)
  rw [hsucc h, hsucc h'] at heq
  omega

/-- The registers after they have been saved. -/
lemma save_regs (h1 : r1 &&& 1 = 0) (h2 : r2 &&& 1 = 0) (s : Cpu) (t : Long) (i : ℕ) :
    (save r1 r2 s t).regs i =
      if i = r2 ||| 1 then bic (s.regs i) amask ||| (t.src2 &&& amask)
      else if i = r2 then t.addr2 &&& amask
      else if i = r1 ||| 1 then bic (s.regs i) amask ||| (t.src1 &&& amask)
      else if i = r1 then t.addr1 &&& amask else s.regs i := by
  have hne₁ := odd_ne r1 h1
  have hne₂ := odd_ne r2 h2
  have hne₁₂ := odd_ne r1 h2
  have hne₂₁ := odd_ne r2 h1
  simp only [save, setLength, Function.update_apply, if_neg hne₁, if_neg hne₂, if_neg hne₂₁]
  by_cases hi : i = r2 ||| 1
  · subst hi
    rw [if_pos rfl, if_pos rfl]
    by_cases heq : r2 ||| 1 = r1 ||| 1
    · rw [if_pos heq, heq, bic_bic_or]
    · rw [if_neg heq]
  · rw [if_neg hi, if_neg hi]
    by_cases hi₂ : i = r2
    · rw [if_pos hi₂, if_pos hi₂]
    · rw [if_neg hi₂, if_neg hi₂]
      by_cases hi₁ : i = r1 ||| 1
      · rw [if_pos hi₁, if_pos hi₁, hi₁]
      · rw [if_neg hi₁, if_neg hi₁]

/-- **What is left is what is found.** -/
theorem enter_save (h1 : r1 &&& 1 = 0) (h2 : r2 &&& 1 = 0) (s : Cpu) {t : Long} (ht : t.Valid r1 r2) :
    enter r1 r2 (save r1 r2 s t) = t := by
  have hsrc2 : (save r1 r2 s t).regs (r2 ||| 1) &&& amask = t.src2 := by
    rw [save_regs h1 h2, if_pos rfl, bic_or_amask, and_amask_of_lt ht.src2]
  have haddr2 : (save r1 r2 s t).regs r2 &&& amask = t.addr2 := by
    rw [save_regs h1 h2, if_neg (odd_ne r2 h2).symm, if_pos rfl, Nat.and_assoc, Nat.and_self,
      and_amask_of_lt ht.addr2]
  have hsrc1 : (save r1 r2 s t).regs (r1 ||| 1) &&& amask = t.src1 := by
    by_cases heq : r1 = r2
    · rw [(ht.same heq).2]
      subst heq
      exact hsrc2
    · rw [save_regs h1 h2, if_neg fun h => heq (or_one_inj h1 h2 h), if_neg (odd_ne r1 h2), if_pos rfl,
        bic_or_amask, and_amask_of_lt ht.src1]
  have haddr1 : (save r1 r2 s t).regs r1 &&& amask = t.addr1 := by
    by_cases heq : r1 = r2
    · rw [(ht.same heq).1]
      subst heq
      exact haddr2
    · rw [save_regs h1 h2, if_neg (odd_ne r2 h1).symm, if_neg heq, if_neg (odd_ne r1 h1).symm, if_pos rfl,
        Nat.and_assoc, Nat.and_self, and_amask_of_lt ht.addr1]
  rw [enter, hsrc1, hsrc2, haddr1, haddr2]
  rfl

lemma fill_save (h1 : r1 &&& 1 = 0) (h2 : r2 &&& 1 = 0) (s : Cpu) (t : Long) :
    fillByte r2 (save r1 r2 s t) = fillByte r2 s := by
  rw [fillByte, save_regs h1 h2, if_pos rfl, bic_or_fill, fillByte]

lemma save_save (h1 : r1 &&& 1 = 0) (h2 : r2 &&& 1 = 0) (s : Cpu) (t t' : Long) :
    save r1 r2 (save r1 r2 s t) t' = save r1 r2 s t' := by
  have hregs : (save r1 r2 (save r1 r2 s t) t').regs = (save r1 r2 s t').regs := by
    funext i
    rw [save_regs h1 h2, save_regs h1 h2, save_regs h1 h2]
    split_ifs
    · rw [bic_bic_or]
    · rfl
    · rw [bic_bic_or]
    · rfl
    · rfl
  show { save r1 r2 (save r1 r2 s t) t' with regs := (save r1 r2 (save r1 r2 s t) t').regs } = save r1 r2 s t'
  rw [hregs]
  rfl

/-! ### The loops -/

variable {loc} {fill : ℕ} {F : Finset Fault}

/-- A byte of an operand, or the padding byte. -/
lemma pad_cases (loc : ℕ → ℕ) (fill : ℕ) (F : Finset Fault) (mem : ℕ → ℕ) (addr len : ℕ) :
    (if len = 0 then .ok fill else readByte loc F mem addr)
        = (if len = 0 then .ok fill else readByte loc ∅ mem addr)
      ∨ ∃ f ∈ F, (if len = 0 then .ok fill else readByte loc F mem addr) = .error f := by
  split_ifs
  · exact .inl rfl
  · exact readByte_cases loc F mem addr

lemma pad_free (loc : ℕ → ℕ) (fill : ℕ) (mem : ℕ → ℕ) (addr len : ℕ) :
    ∃ w, (if len = 0 then .ok fill else readByte loc ∅ mem addr) = .ok w := by
  split_ifs
  · exact ⟨_, rfl⟩
  · exact readByte_free loc mem addr

/-- A turn of MVCL without exceptions is the last one, or goes one byte further. -/
lemma mvclBody_free (loc : ℕ → ℕ) (fill : ℕ) (t : Long) :
    t.src1 = 0 ∧ mvclBody loc fill ∅ t = .inr (t, none)
      ∨ t.src1 ≠ 0 ∧ ∃ mem, mvclBody loc fill ∅ t = .inl { t with
          addr2 := if t.src2 ≠ 0 then (t.addr2 + 1) &&& amask else t.addr2
          src2 := if t.src2 ≠ 0 then t.src2 - 1 else t.src2
          addr1 := (t.addr1 + 1) &&& amask
          src1 := t.src1 - 1
          mem } := by
  by_cases hsrc : t.src1 = 0
  · exact .inl ⟨hsrc, by rw [mvclBody, if_pos hsrc]⟩
  · obtain ⟨dest, hdest⟩ := pad_free loc fill t.mem t.addr2 t.src2
    obtain ⟨mem, hmem⟩ := writeByte_free loc t.mem t.addr1 dest
    refine .inr ⟨hsrc, mem, ?_⟩
    rw [mvclBody, if_neg hsrc, hdest]
    simp only [hmem]

/-- **The loop of MVCL** can be stopped. -/
theorem mvcl_interruptible (loc : ℕ → ℕ) (fill : ℕ) : Interruptible (mvclBody loc fill) where
  turn F t := by
    rw [mvclBody, mvclBody]
    by_cases hsrc : t.src1 = 0
    · exact .inl (by rw [if_pos hsrc, if_pos hsrc])
    · rw [if_neg hsrc, if_neg hsrc]
      rcases pad_cases loc fill F t.mem t.addr2 t.src2 with hread | ⟨f, hf, hread⟩
      · obtain ⟨dest, hdest⟩ := pad_free loc fill t.mem t.addr2 t.src2
        rw [hread, hdest]
        simp only
        rcases writeByte_cases loc F t.mem t.addr1 dest with hwrite | ⟨f, hf, hwrite⟩
        · exact .inl (by rw [hwrite])
        · exact .inr ⟨f, hf, by rw [hwrite]⟩
      · exact .inr ⟨f, hf, by rw [hread]⟩
  free t t' f := by
    rcases mvclBody_free loc fill t with ⟨-, hlast⟩ | ⟨-, mem, hnext⟩
    · rw [hlast]
      exact fun hno => by cases hno
    · rw [hnext]
      exact fun hno => by cases hno

/-- A turn of CLCL without exceptions. -/
lemma clclBody_free (loc : ℕ → ℕ) (fill : ℕ) (t : Long) :
    (∃ t', clclBody loc fill ∅ t = .inr (t', none))
      ∨ (t.src1 ≠ 0 ∨ t.src2 ≠ 0) ∧ clclBody loc fill ∅ t = .inl { t with
          addr1 := if t.src1 ≠ 0 then (t.addr1 + 1) &&& amask else t.addr1
          src1 := if t.src1 ≠ 0 then t.src1 - 1 else t.src1
          addr2 := if t.src2 ≠ 0 then (t.addr2 + 1) &&& amask else t.addr2
          src2 := if t.src2 ≠ 0 then t.src2 - 1 else t.src2 } := by
  by_cases hsrc : t.src1 = 0 ∧ t.src2 = 0
  · exact .inl ⟨t, by rw [clclBody, if_pos hsrc]⟩
  · obtain ⟨dest, hdest⟩ := pad_free loc fill t.mem t.addr1 t.src1
    obtain ⟨desth, hdesth⟩ := pad_free loc fill t.mem t.addr2 t.src2
    rw [clclBody, if_neg hsrc, hdest]
    simp only [hdesth]
    by_cases hne : dest ≠ desth
    · exact .inl ⟨_, by rw [if_pos hne]⟩
    · exact .inr ⟨by lia, by rw [if_neg hne]⟩

/-- **The loop of CLCL** can be stopped. -/
theorem clcl_interruptible (loc : ℕ → ℕ) (fill : ℕ) : Interruptible (clclBody loc fill) where
  turn F t := by
    rw [clclBody, clclBody]
    by_cases hsrc : t.src1 = 0 ∧ t.src2 = 0
    · exact .inl (by rw [if_pos hsrc, if_pos hsrc])
    · rw [if_neg hsrc, if_neg hsrc]
      rcases pad_cases loc fill F t.mem t.addr1 t.src1 with hread | ⟨f, hf, hread⟩
      · obtain ⟨dest, hdest⟩ := pad_free loc fill t.mem t.addr1 t.src1
        rw [hread, hdest]
        simp only
        rcases pad_cases loc fill F t.mem t.addr2 t.src2 with hread₂ | ⟨f, hf, hread₂⟩
        · exact .inl (by rw [hread₂])
        · exact .inr ⟨f, hf, by rw [hread₂]⟩
      · exact .inr ⟨f, hf, by rw [hread]⟩
  free t t' f := by
    rcases clclBody_free loc fill t with ⟨t'', hlast⟩ | ⟨-, hnext⟩
    · rw [hlast]
      exact fun hno => by cases hno
    · rw [hnext]
      exact fun hno => by cases hno

/-! ### The instructions stopped -/

section Stopped

variable {body : Finset Fault → Long → Long ⊕ (Long × Option Fault)} {s : Cpu} {t : Long}

/-- A loop comes to its end without exceptions. -/
lemma long_free (h : Interruptible body) (s : Cpu) (t : Long) : (long r1 r2 body ∅ s t).2 = none := by
  rw [long]
  cases hrun : run (body ∅) (t.src1 + t.src2 + 1) t with
  | inl t' => rfl
  | inr r =>
      rcases r with ⟨t', _ | f⟩
      · rfl
      · exact absurd hrun (h.run_free _ t t' f)

/-- **A loop that is stopped**: it leaves a state that it goes through, and from there it has the end that it has
without exceptions. -/
theorem long_cases (h : Interruptible body) {P : Long → Prop} (hP : ∀ t t', P t → body ∅ t = .inl t' → P t')
    (hrank : ∀ t t', body ∅ t = .inl t' → t'.src1 + t'.src2 < t.src1 + t.src2) (ht : P t) (F : Finset Fault)
    (s : Cpu) :
    long r1 r2 body F s t = long r1 r2 body ∅ s t
      ∨ ∃ f ∈ F, ∃ t', P t' ∧ body F t' = .inr (t', some f) ∧ long r1 r2 body F s t = (save r1 r2 s t', some f)
        ∧ long r1 r2 body ∅ s t' = long r1 r2 body ∅ s t := by
  rw [long, long]
  rcases h.run_cases F (t.src1 + t.src2 + 1) t with heq | ⟨f, hf, t', hrun, hstop, k, hk⟩
  · exact .inl (by rw [heq])
  · refine .inr ⟨f, hf, t', ?_, hstop, by rw [hrun], ?_⟩
    · have hinv := run_invariant (Q := fun _ => True) ht hP (fun _ _ _ _ => trivial) k
      rw [hk] at hinv
      exact hinv
    · -- both ends are of one run
      obtain ⟨r, hr⟩ := run_of_rank (fun t : Long => t.src1 + t.src2) hrank (Nat.lt_succ_self (t.src1 + t.src2))
      obtain ⟨r', hr'⟩ := run_of_rank (fun t : Long => t.src1 + t.src2) hrank (Nat.lt_succ_self (t'.src1 + t'.src2))
      rw [long, hr, hr', run_from hk hr' hr]

/-- What a loop leaves does not depend on what is saved before. -/
lemma long_save (h1 : r1 &&& 1 = 0) (h2 : r2 &&& 1 = 0) (s : Cpu) (t t' : Long) :
    long r1 r2 body F (save r1 r2 s t) t' = long r1 r2 body F s t' := by
  rw [long, long]
  cases run (body F) (t'.src1 + t'.src2 + 1) t' with
  | inl t'' => simp only [save_save h1 h2]
  | inr r => simp only [save_save h1 h2]

end Stopped

/-- The bytes that the destination is ahead of the source. -/
def Long.ahead (t : Long) : ℕ := (t.addr1 + 2 ^ 24 - t.addr2) % 2 ^ 24

/-- **Destructive overlap**: the destination begins among the bytes that are moved, but the first. -/
lemma destructive_iff {t : Long} (ht : t.Valid r1 r2) :
    t.Destructive ↔ t.src1 > 1 ∧ t.src2 > 1 ∧ 0 < t.ahead ∧ t.ahead < t.src1 ∧ t.ahead < t.src2 := by
  have haddr1 := ht.addr1
  have haddr2 := ht.addr2
  have hsrc1 := ht.src1
  have hsrc2 := ht.src2
  rw [Long.Destructive, Long.ahead]
  simp only [and_amask]
  split_ifs <;> omega

/-- What holds of the variables of MVCL, where the condition code is to be `code`. -/
structure Long.Moving (r1 r2 code : ℕ) (t : Long) : Prop where
  valid : t.Valid r1 r2
  cc : t.cc = code
  compare : t.src1 ≠ 0 → t.compare = code
  destructive : ¬ t.Destructive

/-- A turn of MVCL has fewer bytes left. -/
lemma mvclBody_rank {t t' : Long} (hnext : mvclBody loc fill ∅ t = .inl t') :
    t'.src1 + t'.src2 < t.src1 + t.src2 := by
  rcases mvclBody_free loc fill t with ⟨-, hlast⟩ | ⟨hsrc, mem, hmore⟩
  · rw [hlast] at hnext
    cases hnext
  · obtain rfl := Sum.inl.inj (hmore.symm.trans hnext)
    simp only
    split_ifs <;> omega

/-- A turn of MVCL keeps it. -/
lemma moving_next {code : ℕ} {t t' : Long} (ht : t.Moving r1 r2 code)
    (hnext : mvclBody loc fill ∅ t = .inl t') :
    t'.Moving r1 r2 code := by
  rcases mvclBody_free loc fill t with ⟨-, hlast⟩ | ⟨hsrc, mem, hmore⟩
  · rw [hlast] at hnext
    cases hnext
  · obtain rfl := Sum.inl.inj (hmore.symm.trans hnext)
    have hsrc1 := ht.valid.src1
    have hsrc2 := ht.valid.src2
    have haddr2 := ht.valid.addr2
    have hvalid : Long.Valid r1 r2 { t with
        addr2 := if t.src2 ≠ 0 then (t.addr2 + 1) &&& amask else t.addr2
        src2 := if t.src2 ≠ 0 then t.src2 - 1 else t.src2
        addr1 := (t.addr1 + 1) &&& amask
        src1 := t.src1 - 1
        mem } := by
      refine ⟨and_amask_lt _, show t.src1 - 1 < _ by omega, ?_, ?_, fun heq => ?_⟩
      · simp only
        split_ifs
        · exact and_amask_lt _
        · exact haddr2
      · simp only
        split_ifs <;> omega
      · obtain ⟨haddr, hlen⟩ := ht.valid.same heq
        simp only [← haddr, ← hlen, if_pos hsrc, and_self]
    refine ⟨hvalid, ht.cc, fun hmore => ?_, ?_⟩
    · have hcompare := ht.compare hsrc
      simp only at hmore
      simp only [Long.compare] at hcompare ⊢
      split_ifs at hcompare ⊢ <;> omega
    · have hdestructive := ht.destructive
      rw [destructive_iff ht.valid] at hdestructive
      rw [destructive_iff hvalid]
      simp only [Long.ahead, and_amask] at hdestructive ⊢
      have haddr1 := ht.valid.addr1
      split_ifs <;> omega

/-- A turn of CLCL has fewer bytes left. -/
lemma clclBody_rank {t t' : Long} (hnext : clclBody loc fill ∅ t = .inl t') :
    t'.src1 + t'.src2 < t.src1 + t.src2 := by
  rcases clclBody_free loc fill t with ⟨t'', hlast⟩ | ⟨hsrc, hmore⟩
  · rw [hlast] at hnext
    cases hnext
  · obtain rfl := Sum.inl.inj (hmore.symm.trans hnext)
    simp only
    split_ifs <;> lia

/-- A turn of CLCL keeps the variables in their ranges, and the condition code. -/
lemma comparing_next {t t' : Long} (ht : t.Valid r1 r2 ∧ t.cc = 0) (hnext : clclBody loc fill ∅ t = .inl t') :
    t'.Valid r1 r2 ∧ t'.cc = 0 := by
  rcases clclBody_free loc fill t with ⟨t'', hlast⟩ | ⟨hsrc, hmore⟩
  · rw [hlast] at hnext
    cases hnext
  · obtain rfl := Sum.inl.inj (hmore.symm.trans hnext)
    obtain ⟨hvalid, hcc⟩ := ht
    have hstep {len addr : ℕ} (haddr : addr < 2 ^ 24) :
        (if len ≠ 0 then (addr + 1) &&& amask else addr) < 2 ^ 24 := by
      split_ifs
      · exact and_amask_lt _
      · exact haddr
    have hless (len : ℕ) : (if len ≠ 0 then len - 1 else len) = len - 1 := by split_ifs <;> omega
    have hsrc1 := hvalid.src1
    have hsrc2 := hvalid.src2
    refine ⟨⟨hstep hvalid.addr1, ?_, hstep hvalid.addr2, ?_, fun heq => ?_⟩, hcc⟩
    · simp only [hless]
      omega
    · simp only [hless]
      omega
    · obtain ⟨haddr, hlen⟩ := hvalid.same heq
      simp only [haddr, hlen, and_self]

/-- A stopped MVCL: what it leaves comes to the end that the instruction has without exceptions, and the overlap
is judged alike. -/
lemma mvcl_cases (r1 r2 : ℕ) (loc : ℕ → ℕ) (q360 : Bool) (F : Finset Fault) (s : Cpu) :
    mvcl r1 r2 loc q360 F s = mvcl r1 r2 loc q360 ∅ s
      ∨ ∃ f ∈ F, ∃ s', mvcl r1 r2 loc q360 F s = (s', some f)
        ∧ mvcl r1 r2 loc q360 ∅ s' = mvcl r1 r2 loc q360 ∅ s
        ∧ ((enter r1 r2 s').Destructive ↔ (enter r1 r2 s).Destructive) := by
  by_cases hproper : q360 = true ∨ (r2 &&& 1 ≠ 0 ∨ r1 &&& 1 ≠ 0) ∨ (enter r1 r2 s).Destructive
  · refine .inl ?_
    rw [mvcl, mvcl]
    by_cases hq360 : q360 = true
    · rw [if_pos hq360, if_pos hq360]
    · rw [if_neg hq360, if_neg hq360]
      by_cases hodd : r2 &&& 1 ≠ 0 ∨ r1 &&& 1 ≠ 0
      · rw [if_pos hodd, if_pos hodd]
      · rw [if_neg hodd, if_neg hodd]
        have hdestructive := (hproper.resolve_left hq360).resolve_left hodd
        simp only [if_pos hdestructive]
  · obtain ⟨hq360, hodd, hdestructive⟩ := not_or.mp hproper |>.imp_right not_or.mp
    have h2 : r2 &&& 1 = 0 := not_not.mp (not_or.mp hodd).1
    have h1 : r1 &&& 1 = 0 := not_not.mp (not_or.mp hodd).2
    have hmvcl (F : Finset Fault) (s : Cpu) (hdestructive : ¬ (enter r1 r2 s).Destructive) :
        mvcl r1 r2 loc q360 F s = long r1 r2 (mvclBody loc (fillByte r2 s)) F s
          { enter r1 r2 s with cc := (enter r1 r2 s).compare } := by
      rw [mvcl, if_neg hq360, if_neg hodd]
      exact if_neg hdestructive
    have hstart : Long.Moving r1 r2 (enter r1 r2 s).compare
        { enter r1 r2 s with cc := (enter r1 r2 s).compare } :=
      have hvalid := enter_valid r1 r2 s
      ⟨⟨hvalid.addr1, hvalid.src1, hvalid.addr2, hvalid.src2, hvalid.same⟩, rfl, fun _ => rfl, hdestructive⟩
    rw [hmvcl F s hdestructive, hmvcl ∅ s hdestructive]
    rcases long_cases (mvcl_interruptible loc (fillByte r2 s)) (fun t t' ht hnext => moving_next ht hnext)
        (fun t t' hnext => mvclBody_rank hnext) hstart F s with heq | ⟨f, hf, t, ht, hstop, hleft, hend⟩
    · exact .inl heq
    · have henter := enter_save h1 h2 s ht.valid
      have hmore : t.src1 ≠ 0 := by
        intro hzero
        rw [mvclBody, if_pos hzero] at hstop
        cases hstop
      have hsame : ({ t with cc := t.compare } : Long) = t := by
        rw [ht.compare hmore, ← ht.cc]
      refine .inr ⟨f, hf, _, hleft, ?_, by rw [henter]; exact iff_of_false ht.destructive hdestructive⟩
      rw [hmvcl _ _ (by rw [henter]; exact ht.destructive), henter, hsame, fill_save h1 h2, long_save h1 h2]
      exact hend

/-- So for a stopped CLCL. -/
lemma clcl_cases (r1 r2 : ℕ) (loc : ℕ → ℕ) (q360 : Bool) (F : Finset Fault) (s : Cpu) :
    clcl r1 r2 loc q360 F s = clcl r1 r2 loc q360 ∅ s
      ∨ ∃ f ∈ F, ∃ s', clcl r1 r2 loc q360 F s = (s', some f)
        ∧ clcl r1 r2 loc q360 ∅ s' = clcl r1 r2 loc q360 ∅ s := by
  by_cases hproper : q360 = true ∨ r2 &&& 1 ≠ 0 ∨ r1 &&& 1 ≠ 0
  · refine .inl ?_
    rw [clcl, clcl]
    by_cases hq360 : q360 = true
    · rw [if_pos hq360, if_pos hq360]
    · rw [if_neg hq360, if_neg hq360, if_pos (hproper.resolve_left hq360), if_pos (hproper.resolve_left hq360)]
  · obtain ⟨hq360, hodd⟩ := not_or.mp hproper
    have h2 : r2 &&& 1 = 0 := not_not.mp (not_or.mp hodd).1
    have h1 : r1 &&& 1 = 0 := not_not.mp (not_or.mp hodd).2
    have hclcl (F : Finset Fault) (s : Cpu) : clcl r1 r2 loc q360 F s
        = long r1 r2 (clclBody loc (fillByte r2 s)) F s { enter r1 r2 s with cc := 0 } := by
      rw [clcl, if_neg hq360, if_neg hodd]
    have hstart : Long.Valid r1 r2 { enter r1 r2 s with cc := 0 } ∧ (0 : ℕ) = 0 :=
      have hvalid := enter_valid r1 r2 s
      ⟨⟨hvalid.addr1, hvalid.src1, hvalid.addr2, hvalid.src2, hvalid.same⟩, rfl⟩
    rw [hclcl F s, hclcl ∅ s]
    rcases long_cases (clcl_interruptible loc (fillByte r2 s)) (fun t t' ht hnext => comparing_next ht hnext)
        (fun t t' hnext => clclBody_rank hnext) hstart F s with heq | ⟨f, hf, t, ⟨ht, hcc⟩, -, hleft, hend⟩
    · exact .inl heq
    · have hsame : ({ t with cc := 0 } : Long) = t := by rw [← hcc]
      refine .inr ⟨f, hf, _, hleft, ?_⟩
      rw [hclcl, enter_save h1 h2 s ht, hsame, fill_save h1 h2, long_save h1 h2]
      exact hend

lemma mvcl_free (r1 r2 : ℕ) (loc : ℕ → ℕ) (q360 : Bool) (s : Cpu) : (mvcl r1 r2 loc q360 ∅ s).2 = none := by
  rw [mvcl]
  split_ifs
  · rfl
  · rfl
  · simp only
    split_ifs
    · rfl
    · exact long_free (mvcl_interruptible _ _) _ _

lemma clcl_free (r1 r2 : ℕ) (loc : ℕ → ℕ) (q360 : Bool) (s : Cpu) : (clcl r1 r2 loc q360 ∅ s).2 = none := by
  rw [clcl]
  split_ifs
  · rfl
  · rfl
  · exact long_free (clcl_interruptible _ _) _ _

/-- **MVCL** can be restarted. -/
theorem mvcl_restartable (r1 r2 : ℕ) (loc : ℕ → ℕ) (q360 : Bool) : Restartable (mvcl r1 r2 loc q360) where
  cases F s := (mvcl_cases r1 r2 loc q360 F s).imp_right fun ⟨f, hf, s', hstop, heq, _⟩ => ⟨f, hf, s', hstop, heq⟩
  free := mvcl_free r1 r2 loc q360

/-- **CLCL** can be restarted. -/
theorem clcl_restartable (r1 r2 : ℕ) (loc : ℕ → ℕ) (q360 : Bool) : Restartable (clcl r1 r2 loc q360) where
  cases := clcl_cases r1 r2 loc q360
  free := clcl_free r1 r2 loc q360

/-- A stopped MVCL judges the overlap as it did. -/
lemma destructive_stopped {r1 r2 : ℕ} {loc : ℕ → ℕ} {q360 : Bool} {F : Finset Fault} {s s' : Cpu} {f : Fault}
    (hstop : mvcl r1 r2 loc q360 F s = (s', some f)) :
    (enter r1 r2 s').Destructive = (enter r1 r2 s).Destructive := by
  rcases mvcl_cases r1 r2 loc q360 F s with heq | ⟨f', -, s'', hstop', -, hsame⟩
  · have hfree := mvcl_free r1 r2 loc q360 s
    rw [← heq, hstop] at hfree
    cases hfree
  · obtain rfl : s' = s'' := congrArg Prod.fst (hstop.symm.trans hstop')
    exact propext hsame

/-- **Interrupted moves and comparisons**: for every finite set of accesses with an exception, of which each is
repaired when it has stopped the instruction, MVCL and CLCL executed again until they are not stopped come to the
end that they have without exceptions, and MVCL judges the overlap alike each time. -/
theorem long_restart (r1 r2 : ℕ) (loc : ℕ → ℕ) (q360 : Bool) {repair : Finset Fault → Fault → Finset Fault}
    (hrepair : ∀ F f, repair F f ⊆ F.erase f) {n : ℕ} {F : Finset Fault} (hn : F.card < n) (s : Cpu) :
    restart (mvcl r1 r2 loc q360) repair n F s = some (mvcl r1 r2 loc q360 ∅ s).1
      ∧ restart (clcl r1 r2 loc q360) repair n F s = some (clcl r1 r2 loc q360 ∅ s).1
      ∧ ∀ t ∈ entries (mvcl r1 r2 loc q360) repair n F s,
        (enter r1 r2 t).Destructive ↔ (enter r1 r2 s).Destructive :=
  ⟨(mvcl_restartable r1 r2 loc q360).restart_eq hrepair hn s,
    (clcl_restartable r1 r2 loc q360).restart_eq hrepair hn s,
    fun t ht => iff_of_eq (@entries_eq _ _ _ _ _ _ (fun s => (enter r1 r2 s).Destructive)
      (fun _ _ _ _ hstop => destructive_stopped hstop) n F s t ht)⟩

/-- A move of two bytes from `0x1000` to `0x2000`, where the second byte is not to be written at first. -/
theorem long_restart_move :
    let s : Cpu := ⟨fun i => if i = 2 then 0x2000 else if i = 3 then 2 else if i = 4 then 0x1000
      else if i = 5 then 2 else 0, fun i => if i = 0x400 then 0xabcd0000 else 0, 0, none⟩
    restart (mvcl 2 4 id false) Finset.erase 2 {.write 0x2001} s = some (mvcl 2 4 id false ∅ s).1
      ∧ restart (clcl 2 4 id false) Finset.erase 2 {.write 0x2001} s = some (clcl 2 4 id false ∅ s).1
      ∧ ∀ t ∈ entries (mvcl 2 4 id false) Finset.erase 2 {.write 0x2001} s,
        (enter 2 4 t).Destructive ↔ (enter 2 4 s).Destructive :=
  long_restart 2 4 id false (fun _ _ => Finset.Subset.refl _) (by decide) _

end Ka10Simh.Ibm360
