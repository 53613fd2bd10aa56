import Ka10Simh.Ibm360.Decimal.Packed

/-!
Add, Subtract, Zero and Add, and Compare Decimal.

The second operand is added to the first, or its digits to the complement of those of the first. A difference without
a carry is complemented again.

* `decAdd`: the source.
* `addDigits_spec`: the sum of two numbers with signs.
* `AddRight`: what the instructions have to do.
* `decAdd_iff`: when they do.
* `compare_wrong`: a comparison of numbers that differ by a power of ten.
-/

namespace Ka10Simh.Ibm360

open Numeral

/-- The instructions and their codes. -/
inductive AddOp
  | zap | cp | ap | sp
  deriving DecidableEq

def AddOp.code : AddOp → ℕ
  | zap => 0xf8
  | cp => 0xf9
  | ap => 0xfa
  | sp => 0xfb

/-! ### The source -/

/-- The digits and the sign of a sum, whether it is zero, and whether a carry is left. -/
structure DecSum where
  a : ℕ → ℕ
  sa : Bool
  zero : Bool
  ov : Bool

/-- A sum that is zero has the sign plus. -/
def passSum (p : Pass) (sa ov : Bool) : DecSum := ⟨p.a, if p.zero && !ov then false else sa, p.zero, ov⟩

/-- Add numbers together. -/
def addDigits (len : ℕ) (a b : ℕ → ℕ) (sa sb : Bool) : DecSum :=
  let addsub := sa != sb
  let p := pass (fun a i ↦ b i + if addsub then 0x9 - a i else a i) len 1 ⟨a, if addsub then 1 else 0, true⟩
  if p.cy ≠ 0 then
    if addsub then passSum p (!sa) false else passSum p sa true
  else if addsub then
    passSum (pass (fun a i ↦ 0x9 - a i) len 1 ⟨p.a, 1, true⟩) sa false
  else passSum p sa false

/-- The end of `dec_add`: the condition code, and the digits that the first operand has. -/
def Access.addStore (c : Access) (ascii decovr : Bool) (op : AddOp) (addr1 len1 len : ℕ) (r : DecSum) : Op Decimal :=
  let cc := if r.zero then 0 else if r.sa then 1 else 2
  if op.code &&& 3 ≠ 1 then do
    let ov := r.ov || !r.zero && (List.range (len + 1)).any fun i ↦ (len1 + 1) * 2 ≤ i && r.a i ≠ 0
    c.decStore ascii r.a addr1 len1 r.sa
    return ⟨if ov then 3 else cc, if ov && decovr then some ircDecovr else none⟩
  else return ⟨cc, none⟩

/-- `dec_add`. -/
def Access.decAdd (c : Access) (ascii decovr : Bool) (op : AddOp) (addr1 len1 addr2 len2 : ℕ) : Op Decimal := do
  let (b, sb) ← c.decLoad addr2 len2
  let sb := if op.code &&& 1 ≠ 0 then !sb else sb
  let len := 2 * ((if len2 > len1 then len2 else len1) + 1) - 1
  let (a, sa) ← (if op.code &&& 3 ≠ 0 then c.decLoad addr1 len1 else pure (fun _ ↦ 0, false) : Op ((ℕ → ℕ) × Bool))
  c.addStore ascii decovr op addr1 len1 len (addDigits len a b sa sb)

/-! ### The sum -/

/-- What a sum is. -/
structure DecSum.Of (r : DecSum) (len : ℕ) (v : ℤ) : Prop where
  digit : ∀ k < len, r.a (1 + k) ≤ 9
  value : num 10 len (fun k ↦ r.a (1 + k)) = v.natAbs % 10 ^ len
  sign : r.sa = decide (v < 0)
  zero : r.zero = true ↔ v.natAbs % 10 ^ len = 0
  ov : r.ov = true ↔ 10 ^ len ≤ v.natAbs

variable {len : ℕ} {a b : ℕ → ℕ} {sa sb : Bool}

lemma sum_of {p q : Pass} {t : ℕ → ℕ} (h : Rippled 10 len 1 t p q) (hp : p.zero = true) {sa ov : Bool} {v : ℤ}
    (hvalue : num 10 len (fun k ↦ q.a (1 + k)) = v.natAbs % 10 ^ len) (hov : ov = true ↔ 10 ^ len ≤ v.natAbs)
    (hsign : v ≠ 0 → sa = decide (v < 0)) : (passSum q sa ov).Of len v := by
  have hzero : q.zero = true ↔ v.natAbs % 10 ^ len = 0 := by rw [h.zero, hvalue, hp, eq_self_iff_true, true_and]
  refine ⟨fun k hk ↦ Nat.lt_succ_iff.mp (h.digit k hk), hvalue, ?_, hzero, hov⟩
  show (if q.zero && !ov then false else sa) = decide (v < 0)
  by_cases hv : v = 0
  · have hqz : q.zero = true := hzero.mpr (by rw [hv]; rfl)
    have hno : ov = false := by
      rw [← Bool.not_eq_true, hov, hv, not_le]
      exact Nat.pow_pos (by norm_num)
    rw [hqz, hno, hv]
    rfl
  · rw [if_neg, hsign hv]
    rw [Bool.and_eq_true, hzero, Bool.not_eq_true', ← Bool.not_eq_true, hov]
    rintro ⟨hmod, hlt⟩
    rw [Nat.mod_eq_of_lt (by omega)] at hmod
    omega

lemma natAbs_signed (sign : Bool) (v : ℕ) : (signed sign v).natAbs = v := by
  cases sign <;> simp [signed]

lemma signed_neg (sign : Bool) (v : ℕ) (h : signed sign v ≠ 0) : sign = decide (signed sign v < 0) := by
  cases sign <;> simp only [signed, Bool.false_eq_true, if_true, if_false] at h ⊢
  · exact (decide_eq_false (by omega)).symm
  · exact (decide_eq_true (by omega)).symm

lemma signed_not (sign : Bool) (v : ℕ) : signed (!sign) v = -signed sign v := by
  cases sign <;> simp [signed]

/-- Numbers with the same sign, and with different signs. -/
lemma signed_add (sign : Bool) (v w : ℕ) : signed sign v + signed sign w = signed sign (v + w) := by
  cases sign
  · simp [signed]
  · simp [signed]
    ring

lemma signed_sub (sign : Bool) {v w : ℕ} (h : w ≤ v) : signed sign v + signed (!sign) w = signed sign (v - w) := by
  cases sign <;> simp [signed] <;> omega

/-- Numbers with the same sign. -/
lemma addDigits_same (sa : Bool) (ha : ∀ k < len, a (1 + k) ≤ 9) (hb : ∀ k < len, b (1 + k) ≤ 9) :
    (addDigits len a b sa sa).Of len (signed sa (num 10 len (fun k ↦ a (1 + k)) + num 10 len fun k ↦ b (1 + k))) := by
  have hlt := num_lt fun k hk ↦ Nat.lt_succ_iff.mpr (ha k hk)
  have hlt' := num_lt fun k hk ↦ Nat.lt_succ_iff.mpr (hb k hk)
  rw [addDigits, bne_self_eq_false]
  have hrun := pass_spec (n := len) (i := 1) (p := ⟨a, 0, true⟩) (upward_at fun i d ↦ b i + d)
    (fun k hk ↦ by have := ha k hk; have := hb k hk; dsimp only; omega) (Nat.zero_le 1)
  have hvalue := hrun.value
  have hcarry := hrun.carry
  have hnum := num_lt hrun.digit
  simp only [num_fun_add] at hvalue
  simp only [Bool.false_eq_true, if_false]
  generalize pass (fun a i ↦ b i + a i) len 1 ⟨a, 0, true⟩ = q at *
  generalize num 10 len (fun k ↦ a (1 + k)) = m at *
  generalize num 10 len (fun k ↦ b (1 + k)) = n at *
  split_ifs with hcy
  · have hone : q.cy = 1 := by omega
    rw [hone, mul_one] at hvalue
    refine sum_of hrun rfl ?_ (iff_of_true rfl ?_) (signed_neg sa _)
    · rw [natAbs_signed, Nat.mod_eq_sub_mod (by omega), Nat.mod_eq_of_lt (by omega)]
      omega
    · rw [natAbs_signed]
      omega
  · have hzero : q.cy = 0 := by omega
    rw [hzero, mul_zero] at hvalue
    refine sum_of hrun rfl ?_ (iff_of_false Bool.false_ne_true ?_) (signed_neg sa _)
    · rw [natAbs_signed, Nat.mod_eq_of_lt (by omega)]
      lia
    · rw [natAbs_signed]
      omega

/-- Numbers with different signs. -/
lemma addDigits_other (sa : Bool) (ha : ∀ k < len, a (1 + k) ≤ 9) (hb : ∀ k < len, b (1 + k) ≤ 9) :
    (addDigits len a b sa !sa).Of len
      (signed sa (num 10 len fun k ↦ a (1 + k)) + signed (!sa) (num 10 len fun k ↦ b (1 + k))) := by
  have hlt := num_lt fun k hk ↦ Nat.lt_succ_iff.mpr (ha k hk)
  have hlt' := num_lt fun k hk ↦ Nat.lt_succ_iff.mpr (hb k hk)
  have hnines : num 10 len (fun k ↦ 9 - a (1 + k)) + num 10 len (fun k ↦ a (1 + k)) + 1 = 10 ^ len :=
    num_nines fun k hk ↦ Nat.lt_succ_iff.mpr (ha k hk)
  have hne : (sa != !sa) = true := by cases sa <;> rfl
  rw [addDigits, hne]
  have hrun := pass_spec (n := len) (i := 1) (p := ⟨a, 1, true⟩) (upward_at fun i d ↦ b i + (9 - d))
    (fun k hk ↦ by have := hb k hk; dsimp only; lia) le_rfl
  have hvalue := hrun.value
  have hcarry := hrun.carry
  have hnum := num_lt hrun.digit
  simp only [num_fun_add] at hvalue
  simp only [if_true]
  generalize pass (fun a i ↦ b i + (9 - a i)) len 1 ⟨a, 1, true⟩ = q at *
  generalize num 10 len (fun k ↦ 9 - a (1 + k)) = c at *
  generalize num 10 len (fun k ↦ a (1 + k)) = m at *
  generalize num 10 len (fun k ↦ b (1 + k)) = n at *
  split_ifs with hcy
  · have hone : q.cy = 1 := by omega
    rw [hone, mul_one] at hvalue
    have hsum : signed sa m + signed (!sa) n = signed (!sa) (n - m) := by
      have h := signed_sub (!sa) (v := n) (w := m) (by omega)
      rwa [Bool.not_not, add_comm] at h
    rw [hsum]
    refine sum_of hrun rfl ?_ (iff_of_false Bool.false_ne_true ?_) (signed_neg _ _)
    · rw [natAbs_signed, Nat.mod_eq_of_lt (by omega)]
      omega
    · rw [natAbs_signed]
      lia
  · have hzero : q.cy = 0 := by omega
    rw [hzero, mul_zero] at hvalue
    rw [signed_sub sa (by omega)]
    have hagain := pass_spec (n := len) (i := 1) (p := ⟨q.a, 1, true⟩) (upward_at fun i d ↦ 9 - d)
      (fun k hk ↦ by dsimp only; omega) le_rfl
    have hvalue' := hagain.value
    have hcarry' := hagain.carry
    have hnum' := num_lt hagain.digit
    have hnines' : num 10 len (fun k ↦ 9 - q.a (1 + k)) + num 10 len (fun k ↦ q.a (1 + k)) + 1 = 10 ^ len :=
      num_nines hrun.digit
    generalize pass (fun a i ↦ 9 - a i) len 1 ⟨q.a, 1, true⟩ = r at *
    dsimp only at hvalue'
    generalize num 10 len (fun k ↦ 9 - q.a (1 + k)) = d at *
    have hzero' : r.cy = 0 := by
      rcases (by lia : r.cy = 0 ∨ r.cy = 1) with h | h
      · exact h
      · rw [h, mul_one] at hvalue'
        lia
    rw [hzero', mul_zero] at hvalue'
    refine sum_of hagain rfl ?_ (iff_of_false Bool.false_ne_true ?_) (signed_neg sa _)
    · rw [natAbs_signed, Nat.mod_eq_of_lt (by lia)]
      lia
    · rw [natAbs_signed]
      lia

/-- **The sum** of two numbers with signs. -/
theorem addDigits_spec (sa sb : Bool) (ha : ∀ k < len, a (1 + k) ≤ 9) (hb : ∀ k < len, b (1 + k) ≤ 9) :
    (addDigits len a b sa sb).Of len
      (signed sa (num 10 len fun k ↦ a (1 + k)) + signed sb (num 10 len fun k ↦ b (1 + k))) := by
  by_cases hsign : sb = sa
  · rw [hsign, signed_add]
    exact addDigits_same sa ha hb
  · rw [Bool.eq_not_of_ne hsign]
    exact addDigits_other sa ha hb

/-! ### The instructions -/

/-- The exact result. -/
def AddOp.exact (op : AddOp) (x y : ℤ) : ℤ :=
  match op with
  | zap => y
  | ap => x + y
  | sp | cp => x - y

/-- The condition code of a number. -/
def signCc (v : ℤ) : ℕ := if v = 0 then 0 else if v < 0 then 1 else 2

namespace Access

variable (c : Access)

/-- The operands that are read are valid. -/
def AddValid (mem : ℕ → BitVec 32) (op : AddOp) (addr1 len1 addr2 len2 : ℕ) : Prop :=
  c.Valid mem addr2 len2 ∧ (op = .zap ∨ c.Valid mem addr1 len1)

/-- The exact result of an instruction. -/
def addExact (mem : ℕ → BitVec 32) (op : AddOp) (addr1 len1 addr2 len2 : ℕ) : ℤ :=
  op.exact (c.packed mem addr1 len1) (c.packed mem addr2 len2)

/-- What the instructions have to do: the digits of the exact result that are in the first operand are stored with its
sign, and the condition code is that of the result, or 3 when digits are lost. CP has the condition code only. -/
def AddRight (ascii decovr : Bool) (s : Store) (op : AddOp) (addr1 len1 addr2 len2 : ℕ) : Prop :=
  let v := c.addExact s.mem op addr1 len1 addr2 len2
  ∃ r t, c.decAdd ascii decovr op addr1 len1 addr2 len2 s = (.ok r, t) ∧
    if op = .cp then t.mem = s.mem ∧ r = ⟨signCc v, none⟩
    else c.Result ascii s t addr1 len1 (decide (v < 0)) (v.natAbs % 10 ^ (2 * len1 + 1)) ∧
      if 10 ^ (2 * len1 + 1) ≤ v.natAbs then r = ⟨3, if decovr then some ircDecovr else none⟩ else r = ⟨signCc v, none⟩

variable {c} {s t u : Store} {op : AddOp} {addr1 len1 addr2 len2 : ℕ} {ascii decovr : Bool}

/-- What `dec_add` has when the operands are loaded. -/
lemma decAdd_loaded (hopen1 : op = .zap ∨ c.Open s 0 addr1 (len1 + 1)) (hopen2 : c.Open s 0 addr2 (len2 + 1)) :
    (c.AddValid s.mem op addr1 len1 addr2 len2 → ∃ (r : DecSum) (u : Store),
      r.Of (2 * max len1 len2 + 1) (c.addExact s.mem op addr1 len1 addr2 len2) ∧ Kept s u ∧
        c.decAdd ascii decovr op addr1 len1 addr2 len2 s =
          c.addStore ascii decovr op addr1 len1 (2 * max len1 len2 + 1) r u) ∧
    (¬ c.AddValid s.mem op addr1 len1 addr2 len2 →
      ∃ t, c.decAdd ascii decovr op addr1 len1 addr2 len2 s = (.error ircData, t) ∧ t.mem = s.mem) := by
  have hlen : 2 * ((if len2 > len1 then len2 else len1) + 1) - 1 = 2 * max len1 len2 + 1 := by
    split_ifs <;> lia
  rw [decAdd, hlen]
  rcases decLoad_spec c s addr2 len2 with ⟨⟨-, hvalid2⟩, u, hload, hkept⟩ | ⟨hno, e, u, hload, hkept, he⟩
  · rw [Op.bind_of_ok hload]
    have hb := @num_digits_eq len2 c s.mem addr2 (2 * max len1 len2 + 1) (by omega)
    by_cases hzap : op = .zap
    · subst hzap
      refine ⟨fun _ ↦ ⟨_, u, ?_, hkept, rfl⟩, fun hno ↦ absurd ⟨hvalid2, .inl rfl⟩ hno⟩
      have hsum := @addDigits_spec (2 * max len1 len2 + 1) (fun _ ↦ 0) _ false (c.minus s.mem addr2 len2)
        (fun _ _ ↦ Nat.zero_le 9) fun k _ ↦ digits_le hvalid2 k
      rw [hb, (num_eq_zero (by norm_num)).mpr fun _ _ ↦ rfl] at hsum
      rw [show c.addExact s.mem .zap addr1 len1 addr2 len2 = signed false 0 + c.packed s.mem addr2 len2 by
        rw [addExact]; exact (zero_add _).symm]
      exact hsum
    · have hcode : op.code &&& 3 ≠ 0 := by cases op <;> first | decide | exact absurd rfl hzap
      have hsecond : (if op.code &&& 3 ≠ 0 then c.decLoad addr1 len1 else pure (fun _ ↦ 0, false)) = c.decLoad addr1 len1 :=
        if_pos hcode
      dsimp only
      rw [hsecond]
      rcases decLoad_spec c u addr1 len1 with ⟨⟨-, hvalid1⟩, w, hload', hkept'⟩ | ⟨hno, e, w, hload', hkept', he⟩
      · rw [Op.bind_of_ok hload', hkept.mem]
        rw [hkept.mem] at hvalid1
        have ha := @num_digits_eq len1 c s.mem addr1 (2 * max len1 len2 + 1) (by omega)
        refine ⟨fun _ ↦ ⟨_, w, ?_, hkept.trans hkept', rfl⟩, fun hno ↦ absurd ⟨hvalid2, .inr hvalid1⟩ hno⟩
        have hsum (sb : Bool) := @addDigits_spec (2 * max len1 len2 + 1) _ _ (c.minus s.mem addr1 len1) sb
          (fun k _ ↦ digits_le hvalid1 k) fun k _ ↦ digits_le hvalid2 k
        simp only [ha, hb] at hsum
        cases op with
        | zap => exact absurd rfl hzap
        | ap => exact hsum (c.minus s.mem addr2 len2)
        | cp | sp =>
            rw [addExact, AddOp.exact, sub_eq_add_neg, show -c.packed s.mem addr2 len2 =
              signed (!c.minus s.mem addr2 len2) (c.magnitude s.mem addr2 len2) from (signed_not _ _).symm]
            exact hsum (!c.minus s.mem addr2 len2)
      · rw [Op.bind_of_error hload', he]
        · refine ⟨fun hvalid ↦ absurd ?_ hno, fun _ ↦ ⟨w, rfl, hkept'.mem.trans hkept.mem⟩⟩
          rw [hkept.mem]
          exact ⟨(hopen1.resolve_left hzap).congr hkept.key, hvalid.2.resolve_left hzap⟩
        · exact (hopen1.resolve_left hzap).congr hkept.key
  · rw [Op.bind_of_error hload, he hopen2]
    exact ⟨fun hvalid ↦ absurd ⟨hopen2, hvalid.1⟩ hno, fun _ ↦ ⟨u, rfl, hkept.mem⟩⟩

/-- The condition code of a sum. -/
lemma sum_cc {r : DecSum} {n : ℕ} {v : ℤ} (h : r.Of n v) (hlt : v.natAbs < 10 ^ n) :
    (if r.zero then 0 else if r.sa then 1 else 2) = signCc v := by
  have hzero := h.zero
  rw [Nat.mod_eq_of_lt hlt, Int.natAbs_eq_zero] at hzero
  simp only [signCc, hzero, h.sign, decide_eq_true_eq]

/-- The condition code of a sum with a carry: it is zero when only the carry is left. -/
lemma compare_cc {r : DecSum} {n : ℕ} {v : ℤ} (h : r.Of n v) (hlt : v.natAbs < 2 * 10 ^ n) :
    (if r.zero then 0 else if r.sa then 1 else 2) = signCc v ↔ v.natAbs ≠ 10 ^ n := by
  have hpos : 0 < 10 ^ n := Nat.pow_pos (by norm_num)
  rcases Nat.lt_or_ge v.natAbs (10 ^ n) with hsmall | hlarge
  · exact iff_of_true (sum_cc h hsmall) hsmall.ne
  · have hzero := h.zero
    rw [Nat.mod_eq_sub_mod hlarge, Nat.mod_eq_of_lt (by omega)] at hzero
    have hv : v ≠ 0 := by lia
    rw [signCc, if_neg hv]
    by_cases heq : v.natAbs = 10 ^ n
    · rw [if_pos (hzero.mpr (by omega))]
      refine iff_of_false ?_ (not_not.mpr heq)
      split_ifs <;> decide
    · rw [if_neg (mt hzero.mp (by omega)), h.sign]
      exact iff_of_true (by simp only [decide_eq_true_eq]) heq

/-- **The result is stored.** -/
lemma addStore_spec {r : DecSum} {n : ℕ} {v : ℤ} (hop : op ≠ .cp) (h : r.Of n v) (hn : 2 * len1 + 1 ≤ n) (hlen : len1 < 2048)
    (hopen : c.Open s 1 addr1 (len1 + 1)) : ∃ d t, c.addStore ascii decovr op addr1 len1 n r s = (.ok d, t) ∧
      c.Result ascii s t addr1 len1 (decide (v < 0)) (v.natAbs % 10 ^ (2 * len1 + 1)) ∧
      if 10 ^ (2 * len1 + 1) ≤ v.natAbs then d = ⟨3, if decovr then some ircDecovr else none⟩ else d = ⟨signCc v, none⟩ := by
  have hcode : op.code &&& 3 ≠ 1 := by cases op <;> first | decide | exact absurd rfl hop
  have hpow : 10 ^ (2 * len1 + 1) ≤ 10 ^ n := Nat.pow_le_pow_right (by norm_num) hn
  obtain ⟨t, hstore, hstored⟩ := decStore_spec ascii r.a r.sa hlen hopen
  have hresult := hstored.result fun j hj ↦ by
    rw [add_comm]
    exact h.digit j (by omega)
  have hvalue : num 10 (2 * len1 + 1) (fun j ↦ r.a (j + 1)) = v.natAbs % 10 ^ (2 * len1 + 1) := by
    obtain ⟨d, rfl⟩ := Nat.exists_eq_add_of_le hn
    have hmod := num_mod (b := 10) (m := 2 * len1 + 1) (f := fun k ↦ r.a (1 + k))
      (fun k hk ↦ Nat.lt_succ_iff.mpr (h.digit k (by omega))) d
    rw [h.value, Nat.mod_mod_of_dvd _ (pow_dvd_pow 10 hn)] at hmod
    rw [hmod]
    exact num_congr fun k _ ↦ by rw [add_comm]
  have hov : (r.ov || !r.zero && (List.range (n + 1)).any fun i ↦ (len1 + 1) * 2 ≤ i && r.a i ≠ 0) = true ↔
      10 ^ (2 * len1 + 1) ≤ v.natAbs := by
    have hany := any_iff hn h.digit
    rw [show 2 * len1 + 1 + 1 = (len1 + 1) * 2 by ring, h.value] at hany
    rw [Bool.or_eq_true, Bool.and_eq_true, hany, h.ov, Bool.not_eq_true', ← Bool.not_eq_true, h.zero]
    rcases Nat.lt_or_ge v.natAbs (10 ^ n) with hlt | hge
    · rw [Nat.mod_eq_of_lt hlt]
      omega
    · exact iff_of_true (.inl hge) (hpow.trans hge)
  rw [hvalue, h.sign] at hresult
  rw [addStore, if_pos hcode]
  refine ⟨_, t, Op.bind_of_ok hstore, hresult, ?_⟩
  by_cases hlost : 10 ^ (2 * len1 + 1) ≤ v.natAbs
  · rw [if_pos hlost, hov.mpr hlost]
    rfl
  · rw [if_neg hlost, sum_cc h (by omega), Bool.eq_false_iff.mpr (mt hov.mp hlost)]
    rfl

/-- **AP, SP, ZAP and CP**: the exact result, but for a comparison of two numbers that differ by the power of ten that
the digits cannot hold. With operands that are not valid nothing is stored. -/
theorem decAdd_iff (c : Access) (ascii decovr : Bool) (s : Store) (op : AddOp) (addr1 len1 addr2 len2 : ℕ)
    (hlen1 : len1 < 16) (hopen1 : c.Open s (if op = .cp then 0 else 1) addr1 (len1 + 1))
    (hopen2 : c.Open s 0 addr2 (len2 + 1)) :
    (c.AddValid s.mem op addr1 len1 addr2 len2 → (c.AddRight ascii decovr s op addr1 len1 addr2 len2 ↔
      ¬ (op = .cp ∧ (c.addExact s.mem op addr1 len1 addr2 len2).natAbs = 10 ^ (2 * max len1 len2 + 1)))) ∧
    (¬ c.AddValid s.mem op addr1 len1 addr2 len2 →
      ∃ t, c.decAdd ascii decovr op addr1 len1 addr2 len2 s = (.error ircData, t) ∧ t.mem = s.mem) := by
  have hread : c.Open s 0 addr1 (len1 + 1) := by
    split_ifs at hopen1
    · exact hopen1
    · exact hopen1.read
  obtain ⟨hloaded, herror⟩ := @decAdd_loaded _ _ op _ _ _ _ ascii decovr (.inr hread) hopen2
  refine ⟨fun hvalid ↦ ?_, herror⟩
  obtain ⟨r, u, hsum, hkept, hrun⟩ := hloaded hvalid
  rw [AddRight, hrun]
  by_cases hcp : op = .cp
  · subst hcp
    have hlt : (c.addExact s.mem .cp addr1 len1 addr2 len2).natAbs < 2 * 10 ^ (2 * max len1 len2 + 1) := by
      have hx := magnitude_lt (hvalid.2.resolve_left (by decide)) (n := 2 * max len1 len2 + 1) (by omega)
      have hy := magnitude_lt hvalid.1 (n := 2 * max len1 len2 + 1) (by omega)
      have hx' := natAbs_signed (c.minus s.mem addr1 len1) (c.magnitude s.mem addr1 len1)
      have hy' := natAbs_signed (c.minus s.mem addr2 len2) (c.magnitude s.mem addr2 len2)
      rw [addExact, AddOp.exact, packed, packed]
      omega
    have hdone : c.addStore ascii decovr .cp addr1 len1 (2 * max len1 len2 + 1) r u =
        (.ok ⟨if r.zero then 0 else if r.sa then 1 else 2, none⟩, u) := rfl
    have hright : ¬ (AddOp.cp = .cp ∧ (c.addExact s.mem .cp addr1 len1 addr2 len2).natAbs = 10 ^ (2 * max len1 len2 + 1)) ↔
        (if r.zero then 0 else if r.sa then 1 else 2) = signCc (c.addExact s.mem .cp addr1 len1 addr2 len2) := by
      rw [compare_cc hsum hlt]
      exact not_congr (and_iff_right rfl)
    rw [hright, hdone]
    constructor
    · rintro ⟨d, t, heq, hright⟩
      rw [if_pos rfl] at hright
      obtain ⟨hd, -⟩ := Prod.mk.inj heq
      exact congrArg Decimal.cc ((Except.ok.inj hd).trans hright.2)
    · intro hcc
      exact ⟨_, u, rfl, by rw [if_pos rfl]; exact ⟨hkept.mem, by rw [hcc]⟩⟩
  · generalize c.addExact s.mem op addr1 len1 addr2 len2 = v at *
    rw [if_neg hcp] at hopen1
    refine iff_of_true ?_ fun hand ↦ hcp hand.1
    obtain ⟨d, t, hstore, hresult, hcc⟩ := @addStore_spec _ _ _ _ _ ascii decovr _ _ _ hcp hsum (by omega) (by omega)
      (hopen1.congr hkept.key)
    refine ⟨d, t, hstore, ?_⟩
    rw [if_neg hcp]
    exact ⟨hresult.of_kept hkept, hcc⟩

/-- Five and minus seven. -/
theorem decAdd_iff_ap : (plain 4096 rfl).AddRight false false (firstWords 0x5c7d0000 0) .ap 0 0 1 0 :=
  ((decAdd_iff (plain 4096 rfl) false false (firstWords 0x5c7d0000 0) .ap 0 0 1 0 (by norm_num)
    (plain_open rfl (by norm_num) (by norm_num)) (plain_open rfl (by norm_num) (by norm_num))).1
      ⟨by decide, .inr (by decide)⟩).mpr fun hand ↦ nomatch hand.1

/-- **Five and minus five** are equal in a comparison. -/
theorem compare_wrong : (plain 4096 rfl).AddValid (firstWords 0x5c5d0000 0).mem .cp 0 0 1 0 ∧
    (plain 4096 rfl).packed (firstWords 0x5c5d0000 0).mem 0 0 = 5 ∧
    (plain 4096 rfl).packed (firstWords 0x5c5d0000 0).mem 1 0 = -5 ∧
    ((plain 4096 rfl).decAdd false false .cp 0 0 1 0 (firstWords 0x5c5d0000 0)).1.toOption.map Decimal.cc = some 0 ∧
    ¬ (plain 4096 rfl).AddRight false false (firstWords 0x5c5d0000 0) .cp 0 0 1 0 := by
  have hcc : ((plain 4096 rfl).decAdd false false .cp 0 0 1 0 (firstWords 0x5c5d0000 0)).1.toOption.map Decimal.cc = some 0 := by
    decide
  refine ⟨⟨by decide, .inr (by decide)⟩, by decide, by decide, hcc, ?_⟩
  rintro ⟨r, t, hrun, hright⟩
  rw [if_pos rfl] at hright
  rw [hrun, hright.2] at hcc
  have hzero : signCc ((plain 4096 rfl).addExact (firstWords 0x5c5d0000 0).mem .cp 0 0 1 0) = 0 := Option.some.inj hcc
  exact absurd hzero (by decide)

end Access

end Ka10Simh.Ibm360
