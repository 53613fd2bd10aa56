import Ka10Simh.Pdp10.Float.Operate

/-!
The modes of the floating point instructions: the result goes to the accumulator, to memory or to both.

* `fnorm_congr`, `operate_congr`: the mode has no part in the result.
* `operate_lt`: a result is a word of 36 bits.
* `modes_agree_iff`: the modes agree, unless a division ends without a store and without `NODIV`.
-/

namespace Ka10Simh.Pdp10.Fp

/-! ### What the result depends on -/

section Congruence

variable {c : Build} {ir ir' : ℕ}

/-- Opcodes of one operation, rounded or not, in modes with one word of result. -/
structure SameOp (ir ir' : ℕ) : Prop where
  op : ir >>> 3 = ir' >>> 3
  rounds : ir &&& 0o4 = ir' &&& 0o4
  group : ir &&& 0o70 = ir' &&& 0o70
  ufa : ir = 0o130 ↔ ir' = 0o130
  waits : ir = 0o247 ↔ ir' = 0o247
  long : ir &&& 0o7 = 1 ↔ ir' &&& 0o7 = 1
  long6 : ir &&& 0o3 = 1 ↔ ir' &&& 0o3 = 1

lemma fnormx_congr (h : SameOp ir ir') (r : Reg) : fnormx c ir r = fnormx c ir' r := by
  have hround (r : Reg) : round c ir r = round c ir' r := by
    rw [round, round, roundAr, roundAr, h.group]
  rw [fnormx, fnormx, h.rounds, hround]

lemma fnorm_congr (h : SameOp ir ir') (piCycle flag1 hold : Bool) (flags : ℕ) (r : Reg) :
    fnorm c ir piCycle flag1 hold flags r = fnorm c ir' piCycle flag1 hold flags r := by
  simp only [fnorm, pack, lowWord, fnormx_congr h, h.long, h.long6, ne_eq, h.ufa, h.waits]

lemma fdv_congr (h : SameOp ir ir') (piCycle : Bool) (flags br ar : ℕ) :
    fdv c ir piCycle flags br ar = fdv c ir' piCycle flags br ar := by
  simp only [fdv, quotient, quotientKl, quotientKa, quotientPdp6, h.rounds]

lemma operate_congr (h : SameOp ir ir') (piCycle : Bool) (flags br ar : ℕ) :
    operate c ir piCycle flags br ar = operate c ir' piCycle flags br ar := by
  simp only [operate, h.op, fnorm_congr h, fdv_congr h]

end Congruence

/-! ### Results are words -/

section Words

variable {c : Build} {ir : ℕ} {piCycle : Bool} {flags : ℕ}

lemma and_fraction_lt (x : ℕ) : x &&& (smask ||| mmask) < 2 ^ 36 :=
  lt_of_le_of_lt Nat.and_le_right (by decide)

lemma exponent_field_lt {p : Prop} [Decidable p] (sc : ℤ) :
    (if p then 0o377 - sc % 0o400 else sc % 0o400).toNat <<< 27 < 2 ^ 36 := by
  rw [Nat.shiftLeft_eq]
  split <;> omega

lemma putExp_lt (ar : ℕ) (sc : ℤ) : putExp ar sc < 2 ^ 36 := by
  have hword := Nat.or_lt_two_pow (and_fraction_lt ar) (exponent_field_lt (p := ar &&& smask ≠ 0) sc)
  rw [putExp]
  by_cases hzero : (ar &&& (smask ||| mmask) ||| (if ar &&& smask ≠ 0 then 0o377 - sc % 0o400 else sc % 0o400).toNat <<< 27)
      &&& mmask = 0
  · exact (if_pos hzero).trans_lt (by norm_num)
  · exact (if_neg hzero).trans_lt hword

lemma fnorm_lt {flag1 hold : Bool} (r : Reg) : (fnorm c ir piCycle flag1 hold flags r).ar < 2 ^ 36 := by
  have hpack (ar mq : ℕ) (hold : Bool) (sc : ℤ) (flag3 : BitVec 64) :
      (pack c ir piCycle flag1 hold flags ar mq sc flag3).ar < 2 ^ 36 := putExp_lt ar sc
  rw [fnorm]
  split
  · exact hpack ..
  · exact hpack ..

/-- The loop of the earlier processors stops at the first bit of the fraction. -/
lemma shiftQuotient_lt {k ar : ℕ} {sc : ℤ} (h : ar < 2 ^ 27) : (shiftQuotient (fun ar ↦ ar &&& bit9 = 0) k ar 0 sc).1 < 2 ^ 27 := by
  induction k generalizing ar sc with
  | zero => exact h
  | succ k ih =>
      rw [shiftQuotient]
      split
      · rename_i hgo
        have hbit : ar / 2 ^ 26 % 2 ≠ 1 := fun h1 ↦ (Word.and_pow_ne_zero ar 26).mpr h1 (of_decide_eq_true hgo)
        rw [Nat.or_zero]
        refine ih ?_
        rw [Nat.shiftLeft_eq]
        omega
      · exact h

lemma quotientKa_lt {flag1 : Bool} {q : ℕ} {sc : ℤ} (hq : q + 3 ≤ 2 ^ 29) (hq' : q < 2 ^ 28 → q + 3 ≤ 2 ^ 28) :
    (quotientKa ir flag1 q sc).ar < 2 ^ 36 := by
  have hhigh : q &&& bit7 ≠ 0 ↔ q / 2 ^ 28 % 2 = 1 := Word.and_pow_ne_zero q 28
  rw [quotientKa]
  dsimp only
  split
  · refine Nat.or_lt_two_pow (lt_of_le_of_lt Nat.and_le_right ?_) ?_ <;> decide
  · refine lt_trans (shiftQuotient_lt ?_) (by norm_num)
    rw [Nat.shiftRight_eq_div_pow, Nat.shiftRight_eq_div_pow]
    split_ifs <;> lia

/-- The quotient of two fractions, the first one less than twice the second one. -/
lemma quotient_bound {dividend divisor : ℕ} (h : dividend < divisor * 2) (hd : divisor < 2 ^ 27) :
    dividend <<< 28 / divisor + 3 ≤ 2 ^ 29 ∧ (dividend <<< 28 / divisor < 2 ^ 28 → dividend <<< 28 / divisor + 3 ≤ 2 ^ 28) := by
  have hpos : 0 < divisor := by omega
  have hle : dividend <<< 28 / divisor ≤ 2 ^ 29 - 3 := by
    rw [Nat.shiftLeft_eq, Nat.div_le_iff_le_mul_add_pred hpos]
    omega
  refine ⟨by omega, fun hlt ↦ ?_⟩
  have hless : dividend < divisor := by
    by_contra hge
    refine absurd hlt (not_lt.mpr ?_)
    rw [Nat.shiftLeft_eq, Nat.le_div_iff_mul_le hpos]
    omega
  have hle' : dividend <<< 28 / divisor ≤ 2 ^ 28 - 3 := by
    rw [Nat.shiftLeft_eq, Nat.div_le_iff_le_mul_add_pred hpos]
    omega
  omega

lemma quotient_lt {flag1 : Bool} {q : ℕ} {sc : ℤ} (hq : q + 3 ≤ 2 ^ 29) (hq' : q < 2 ^ 28 → q + 3 ≤ 2 ^ 28) :
    (quotient c ir flag1 q sc).ar < 2 ^ 36 := by
  rw [quotient]
  split_ifs
  · exact and_fraction_lt _
  · refine Nat.or_lt_two_pow (lt_of_le_of_lt Nat.and_le_right (by decide)) ?_
    split <;> decide
  · exact quotientKa_lt hq hq'
  · show smask ||| bit9 < 2 ^ 36
    decide
  · show 0 < 2 ^ 36
    decide

/-- **A result is a word.** -/
theorem operate_lt {br ar : ℕ} {r : Result} (h : operate c ir piCycle flags br ar = .stored r) : r.ar < 2 ^ 36 := by
  have hfdv (h : fdv c ir piCycle flags br ar = .stored r) : r.ar < 2 ^ 36 := by
    rw [fdv] at h
    split at h
    · cases h
    · dsimp only at h
      split at h
      · cases h
      · rename_i hlt
        rw [Nat.shiftLeft_eq, not_le, pow_one] at hlt
        have hd : Arith.cm ar < 0 ∨ positive ar &&& mmask < 2 ^ 27 := .inr (lt_of_le_of_lt Nat.and_le_right (by decide))
        obtain ⟨hq, hq'⟩ := quotient_bound hlt (hd.resolve_left (Nat.not_lt_zero _))
        cases h
        exact Nat.or_lt_two_pow (quotient_lt hq hq') (exponent_field_lt _)
  rw [operate] at h
  split at h
  · cases h
    exact fnorm_lt _
  · cases h
    exact fnorm_lt _
  · cases h
    exact fnorm_lt _
  · exact hfdv h

end Words

/-! ### The modes -/

/-- The operations that have the modes. -/
inductive Op
  | fad | fsb | fmp | fdv
  deriving DecidableEq

/-- Their opcodes in the basic mode; the next but one is to memory, and the one after it to both. -/
def Op.opcode (op : Op) (rounds : Bool) : ℕ :=
  (match op with
    | .fad => 0o140
    | .fsb => 0o150
    | .fmp => 0o160
    | .fdv => 0o170) + if rounds then 4 else 0

/-- An instruction sets `NODIV`, whatever the flags are before. -/
def SetsNodiv (c : Build) (ir : ℕ) (piCycle : Bool) (ac e : ℕ) (s : Cpu) : Prop :=
  ∀ flags, (execute c ir piCycle ac e { s with flags := flags }).flags &&& nodiv c ≠ 0

/-- What is asked of the modes: the same flags; and one word that goes to the accumulator, to `e` and to both, or
none with `NODIV`. -/
structure Agrees (c : Build) (ir : ℕ) (piCycle : Bool) (ac e : ℕ) (s : Cpu) : Prop where
  memory : (execute c (ir + 2) piCycle ac e s).flags = (execute c ir piCycle ac e s).flags
  both : (execute c (ir + 3) piCycle ac e s).flags = (execute c ir piCycle ac e s).flags
  stores : (∃ w, (execute c ir piCycle ac e s).mem = Function.update s.mem (ac % 16) w ∧
      (execute c (ir + 2) piCycle ac e s).mem = Function.update s.mem e w ∧
      (execute c (ir + 3) piCycle ac e s).mem = Function.update (Function.update s.mem e w) (ac % 16) w) ∨
    (execute c ir piCycle ac e s).mem = s.mem ∧ (execute c (ir + 2) piCycle ac e s).mem = s.mem ∧
      (execute c (ir + 3) piCycle ac e s).mem = s.mem ∧ SetsNodiv c ir piCycle ac e s

/-- A dividend without a fraction: the instruction ends. -/
def NoDividend (br : ℕ) : Prop := br &&& mmask = 0 ∧ br ≠ smask

/-- A dividend that is not less than twice the divisor. -/
def NoDivide (br ar : ℕ) : Prop := ¬ NoDividend br ∧ (positive ar &&& mmask) <<< 1 ≤ positive br &&& mmask

/-- A division that ends without a store and without `NODIV`: the dividend has no fraction and is not the word at
`e` anyway, or there is no flag for it, be it in an interrupt cycle or on a PDP6. -/
def Dropped (c : Build) (op : Op) (piCycle : Bool) (br ar : ℕ) : Prop :=
  op = .fdv ∧ (NoDividend br ∧ br ≠ ar ∨ NoDivide br ar ∧ (piCycle = true ∨ c = .pdp6))

section Modes

variable {c : Build} {op : Op} {rounds piCycle : Bool} {ac e : ℕ} {s : Cpu}

lemma sameOp (op : Op) (rounds : Bool) : SameOp (op.opcode rounds) (op.opcode rounds + 2) ∧
    SameOp (op.opcode rounds) (op.opcode rounds + 3) := by
  cases op <;> cases rounds <;> exact ⟨⟨by decide, by decide, by decide, by decide, by decide, by decide, by decide⟩,
    by decide, by decide, by decide, by decide, by decide, by decide, by decide⟩

/-- The operation is the same in all modes. -/
lemma execute_modes (c : Build) (op : Op) (rounds piCycle : Bool) (ac e : ℕ) (s : Cpu) :
    let o := operate c (op.opcode rounds) piCycle s.flags (s.mem (ac % 16)) (s.mem e)
    (∀ flags, o = .ended flags → execute c (op.opcode rounds) piCycle ac e s = { s with flags := flags } ∧
      execute c (op.opcode rounds + 2) piCycle ac e s = { s with flags := flags } ∧
      execute c (op.opcode rounds + 3) piCycle ac e s = { s with flags := flags }) ∧
    ∀ r, o = .stored r →
      execute c (op.opcode rounds) piCycle ac e s = ⟨Function.update s.mem (ac % 16) r.ar, r.flags⟩ ∧
      execute c (op.opcode rounds + 2) piCycle ac e s = ⟨Function.update s.mem e r.ar, r.flags⟩ ∧
      execute c (op.opcode rounds + 3) piCycle ac e s =
        ⟨Function.update (Function.update s.mem e r.ar) (ac % 16) r.ar, r.flags⟩ := by
  intro o
  obtain ⟨hmemory, hboth⟩ := sameOp op rounds
  have hoperand (m : ℕ) (hm : m = 0 ∨ m = 2 ∨ m = 3) : operand c (op.opcode rounds + m) e s = s.mem e := by
    rw [operand, if_neg]
    rintro ⟨h5, -⟩
    revert h5
    rcases hm with rfl | rfl | rfl <;> cases op <;> cases rounds <;> decide
  have h0 := hoperand 0 (.inl rfl)
  rw [Nat.add_zero] at h0
  have h2 := hoperand 2 (.inr (.inl rfl))
  have h3 := hoperand 3 (.inr (.inr rfl))
  refine ⟨fun flags h ↦ ?_, fun r h ↦ ?_⟩
  · rw [execute, execute, execute, h0, h2, h3, ← operate_congr hmemory, ← operate_congr hboth]
    change o = _ at h
    exact ⟨by rw [show operate .. = _ from h], by rw [show operate .. = _ from h], by rw [show operate .. = _ from h]⟩
  · have hlow : r.ar &&& fmask = r.ar := by
      rw [and_fmask]
      exact Nat.mod_eq_of_lt (operate_lt h)
    rw [execute, execute, execute, h0, h2, h3, ← operate_congr hmemory, ← operate_congr hboth]
    rw [show operate c (op.opcode rounds) piCycle s.flags (s.mem (ac % 16)) (s.mem e) = .stored r from h]
    simp only [store, hlow]
    cases op <;> cases rounds <;> exact ⟨rfl, rfl, rfl⟩

/-- What is left of a fraction that is made positive is not zero. -/
lemma positive_ne_zero {x : ℕ} (h : ¬ NoDividend x) : positive x &&& mmask ≠ 0 := by
  have hlow (y : ℕ) : y &&& mmask = y % 2 ^ 27 := Nat.and_two_pow_sub_one_eq_mod y 27
  rw [NoDividend, not_and_or, not_ne_iff] at h
  rw [positive]
  rcases h with hne | rfl
  · rw [hlow] at hne
    by_cases hsign : x &&& smask ≠ 0
    · have hcm : Arith.cm x % 2 ^ 27 = 2 ^ 27 - 1 - x % 2 ^ 27 := by
        rw [Arith.cm, Nat.xor_mod_two_pow, show fmask % 2 ^ 27 = 2 ^ 27 - 1 from rfl]
        exact Word.mask_xor (Nat.mod_lt _ (by norm_num))
      rw [if_pos hsign, if_neg (by rwa [hlow]), hlow]
      lia
    · rwa [if_neg hsign, hlow]
  · decide

/-- A word does not have twice the fraction of itself. -/
lemma not_noDivide_self (x : ℕ) : ¬ NoDivide x x := by
  rintro ⟨hne, hle⟩
  have hpos := positive_ne_zero hne
  rw [Nat.shiftLeft_eq] at hle
  omega

lemma operate_fdv (c : Build) (rounds piCycle : Bool) (flags br ar : ℕ) :
    operate c (Op.fdv.opcode rounds) piCycle flags br ar = fdv c (Op.fdv.opcode rounds) piCycle flags br ar := by
  cases rounds <;> rfl

/-- Only a division ends before the store. -/
lemma operate_stored (hop : op ≠ .fdv) (c : Build) (rounds piCycle : Bool) (flags br ar : ℕ) :
    ∃ r, operate c (op.opcode rounds) piCycle flags br ar = .stored r := by
  cases op with
  | fdv => exact absurd rfl hop
  | fad => cases rounds <;> exact ⟨_, rfl⟩
  | fsb => cases rounds <;> exact ⟨_, rfl⟩
  | fmp => cases rounds <;> exact ⟨_, rfl⟩

lemma fdv_noDividend {br : ℕ} (h : NoDividend br) (c : Build) (ir : ℕ) (piCycle : Bool) (flags ar : ℕ) :
    fdv c ir piCycle flags br ar = .ended flags := if_pos h

lemma fdv_noDivide {br ar : ℕ} (h : NoDivide br ar) (c : Build) (ir : ℕ) (piCycle : Bool) (flags : ℕ) :
    fdv c ir piCycle flags br ar = .ended (if piCycle then flags else flags ||| ovr ||| nodiv c ||| fltovr c ||| trp1 c) :=
  (if_neg h.1).trans (if_pos h.2)

lemma fdv_stored {br ar : ℕ} (h : ¬ NoDividend br) (h' : ¬ NoDivide br ar) (c : Build) (ir : ℕ) (piCycle : Bool)
    (flags : ℕ) : ∃ r, fdv c ir piCycle flags br ar = .stored r :=
  ⟨_, (if_neg h).trans (if_neg fun hle ↦ h' ⟨h, hle⟩)⟩

/-- `NODIV` is the last bit of `FLAGS`. -/
lemma and_nodiv (hc : c ≠ .pdp6) (flags : ℕ) : (flags ||| ovr ||| nodiv c ||| fltovr c ||| trp1 c) &&& nodiv c ≠ 0 := by
  have hone : nodiv c = 2 ^ 0 := if_neg hc
  rw [hone, Word.and_two_pow_ne_zero, Nat.testBit_or, Nat.testBit_or, Nat.testBit_or]
  simp

/-- The modes agree on a result. -/
lemma agrees_of_stored {r : Result} (h : operate c (op.opcode rounds) piCycle s.flags (s.mem (ac % 16)) (s.mem e) = .stored r) :
    Agrees c (op.opcode rounds) piCycle ac e s := by
  obtain ⟨hb, hm, hbm⟩ := (execute_modes c op rounds piCycle ac e s).2 r h
  exact ⟨by rw [hm, hb], by rw [hbm, hb], .inl ⟨r.ar, by rw [hb], by rw [hm], by rw [hbm]⟩⟩

/-- Without a store they agree with `NODIV`, and by chance when both operands are the same word. -/
lemma agrees_of_ended {flags : ℕ}
    (h : operate c (op.opcode rounds) piCycle s.flags (s.mem (ac % 16)) (s.mem e) = .ended flags) :
    Agrees c (op.opcode rounds) piCycle ac e s ↔
      s.mem (ac % 16) = s.mem e ∨ SetsNodiv c (op.opcode rounds) piCycle ac e s := by
  obtain ⟨hb, hm, hbm⟩ := (execute_modes c op rounds piCycle ac e s).1 flags h
  constructor
  · intro hagrees
    rcases hagrees.stores with ⟨w, hac, he, -⟩ | ⟨-, -, -, hset⟩
    · left
      rw [hb] at hac
      rw [hm] at he
      have hw : s.mem (ac % 16) = w := by
        rw [hac, Function.update_self]
      have hw' : s.mem e = w := by
        rw [he, Function.update_self]
      rw [hw, hw']
    · exact .inr hset
  · rintro (heq | hset)
    · refine ⟨by rw [hm, hb], by rw [hbm, hb], .inl ⟨s.mem (ac % 16), ?_, ?_, ?_⟩⟩
      · rw [hb, Function.update_eq_self]
      · rw [hm, heq, Function.update_eq_self]
      · rw [hbm, heq, Function.update_eq_self, ← heq, Function.update_eq_self]
    · exact ⟨by rw [hm, hb], by rw [hbm, hb], .inr ⟨by rw [hb], by rw [hm], by rw [hbm], hset⟩⟩

/-- The flags of a division that ends. -/
lemma setsNodiv_iff {f : ℕ → ℕ} (h : ∀ flags, fdv c (Op.fdv.opcode rounds) piCycle flags (s.mem (ac % 16)) (s.mem e) =
    .ended (f flags)) : SetsNodiv c (Op.fdv.opcode rounds) piCycle ac e s ↔ ∀ flags, f flags &&& nodiv c ≠ 0 := by
  refine forall_congr' fun flags ↦ ?_
  have hrun := (execute_modes c .fdv rounds piCycle ac e ⟨s.mem, flags⟩).1 (f flags) (by rw [operate_fdv]; exact h flags)
  rw [hrun.1]

/-- **The modes agree**, unless a division ends without a store and without `NODIV`. -/
theorem modes_agree_iff (c : Build) (op : Op) (rounds piCycle : Bool) (ac e : ℕ) (s : Cpu) :
    Agrees c (op.opcode rounds) piCycle ac e s ↔ ¬ Dropped c op piCycle (s.mem (ac % 16)) (s.mem e) := by
  by_cases hop : op = .fdv
  · subst hop
    rw [Dropped, and_iff_right rfl]
    by_cases hzero : NoDividend (s.mem (ac % 16))
    · -- no dividend: the word at `e` has to be the dividend already
      have hfdv (flags : ℕ) := fdv_noDividend hzero c (Op.fdv.opcode rounds) piCycle flags (s.mem e)
      have hset : ¬ SetsNodiv c (Op.fdv.opcode rounds) piCycle ac e s := fun hset ↦
        (setsNodiv_iff hfdv).mp hset 0 (Nat.zero_and _)
      have hdiv : ¬ NoDivide (s.mem (ac % 16)) (s.mem e) := fun h ↦ h.1 hzero
      rw [agrees_of_ended (by rw [operate_fdv]; exact hfdv s.flags)]
      tauto
    · by_cases hdiv : NoDivide (s.mem (ac % 16)) (s.mem e)
      · -- no divide: `NODIV` has to be set
        have hfdv (flags : ℕ) := fdv_noDivide hdiv c (Op.fdv.opcode rounds) piCycle flags
        have hne : s.mem (ac % 16) ≠ s.mem e := fun heq ↦ not_noDivide_self (s.mem e) (heq ▸ hdiv)
        have hset : SetsNodiv c (Op.fdv.opcode rounds) piCycle ac e s ↔ ¬ (piCycle = true ∨ c = .pdp6) := by
          rw [setsNodiv_iff hfdv]
          constructor
          · rintro h (hpi | hc)
            · exact h 0 (by rw [if_pos hpi, Nat.zero_and])
            · exact h 0 (by rw [hc]; exact Nat.and_zero _)
          · intro hnot flags
            rw [not_or] at hnot
            rw [if_neg hnot.1]
            exact and_nodiv hnot.2 flags
        rw [agrees_of_ended (by rw [operate_fdv]; exact hfdv s.flags), hset]
        tauto
      · obtain ⟨r, hr⟩ := fdv_stored hzero hdiv c (Op.fdv.opcode rounds) piCycle s.flags
        refine iff_of_true (agrees_of_stored (by rw [operate_fdv]; exact hr)) ?_
        tauto
  · obtain ⟨r, hr⟩ := operate_stored hop c rounds piCycle s.flags (s.mem (ac % 16)) (s.mem e)
    exact iff_of_true (agrees_of_stored hr) fun h ↦ hop h.1

/-- On a KL10, 0 divided by 1 in memory is 1 still. -/
theorem agrees_fails : ¬ ∀ (op : Op) (rounds piCycle : Bool) (ac e : ℕ) (s : Cpu),
    Agrees .kl (op.opcode rounds) piCycle ac e s := fun h ↦ by
  have hzero : NoDividend 0 := ⟨rfl, by decide⟩
  have hfdv (flags : ℕ) := fdv_noDividend hzero .kl (Op.fdv.opcode false) false flags 0o201400000000
  have hagrees := h .fdv false false 0 16 ⟨fun a ↦ if a = 16 then 0o201400000000 else 0, 0⟩
  rw [agrees_of_ended (by rw [operate_fdv]; exact hfdv 0)] at hagrees
  rcases hagrees with heq | hset
  · exact absurd heq (by decide)
  · exact (setsNodiv_iff hfdv).mp hset 0 rfl

end Modes

end Ka10Simh.Pdp10.Fp
