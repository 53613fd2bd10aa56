import Ka10Simh.Ibm360.Decimal.Packed

/-!
Multiply Decimal.

The product is formed in the array of the multiplicand, from its highest digit down: a digit is taken out, and the
multiplier is added as often as it says in its place.

* `decMul`: the source.
* `addOnce_spec`, `addTimes_spec`, `mulLoop_spec`: the digits above a place are the product so far, and the ones
  below are still those of the multiplicand.
* `decMul_spec`: the product is exact, and what is rejected leaves the storage as it is.
-/

namespace Ka10Simh.Ibm360

open Numeral

/-! ### The source -/

/-- The multiplier `b` is added at the digit `j`; `len1` is the number of half bytes. -/
def addOnce (len1 : ℕ) (b : ℕ → ℕ) (j : ℕ) (a : ℕ → ℕ) : ℕ → ℕ :=
  (pass (fun a i ↦ a i + b (i - j + 1)) (len1 - j) j ⟨a, 0, true⟩).a

/-- `mul` times. -/
def addTimes (len1 : ℕ) (b : ℕ → ℕ) (j : ℕ) : ℕ → (ℕ → ℕ) → ℕ → ℕ
  | 0, a => a
  | mul + 1, a => addTimes len1 b j mul (addOnce len1 b j a)

/-- The digits of the multiplicand from the digit `j` down. -/
def mulLoop (len1 : ℕ) (b : ℕ → ℕ) : ℕ → (ℕ → ℕ) → ℕ → ℕ
  | 0, a => a
  | j + 1, a => mulLoop len1 b j (addTimes len1 b (j + 1) (a (j + 1)) (Function.update a (j + 1) 0))

namespace Access

variable (c : Access)

/-- The key of the storage that the result will be stored in. -/
def keyCheck (addr : ℕ) : Op Unit := do
  let pa ← c.transAddr addr
  let s ← Op.get
  let k := s.key (pa >>> 11)
  if k &&& 0xf0 ≠ 0 ∧ k &&& 0xf0 ≠ c.stKey then Op.fail ircProt else return ()

/-- Check if we can store the result back in place. -/
def placeCheck (addr1 len1 : ℕ) : Op Unit :=
  if c.stKey ≠ 0 ∧ c.prot then do
    c.keyCheck (addr1 + len1)
    if (addr1 &&& 0x3ff) + len1 > 0x3ff then c.keyCheck addr1
  else return ()

/-- `dec_mul`. -/
def decMul (ascii : Bool) (addr1 len1 addr2 len2 : ℕ) : Op Unit :=
  if len2 = len1 then Op.fail ircSpec
  else if len2 > 7 ∨ len2 ≥ len1 then Op.fail ircData
  else do
    let (b, sb) ← c.decLoad addr2 len2
    c.placeCheck addr1 len1
    let (a, sa) ← c.decLoad addr1 len1
    let len := len1
    let len1 := (len1 + 1) * 2
    let len2 := (len2 + 1) * 2
    if (List.range len1).any fun i ↦ len1 - len2 ≤ i && a i ≠ 0 then Op.fail ircData
    else c.decStore ascii (mulLoop len1 b (len1 - len2) a) addr1 len (sa != sb)

end Access

/-! ### The product -/

/-- The value of the digits from `j` on. -/
def upper (len1 j : ℕ) (a : ℕ → ℕ) : ℕ := num 10 (len1 - j) fun k ↦ a (j + k)

/-- The digits from `j` on have been replaced by a number, and the others are as they were. -/
structure Replaced (len1 j : ℕ) (a a' : ℕ → ℕ) (v : ℕ) : Prop where
  below : ∀ k < j, a' k = a k
  digit : ∀ k, j ≤ k → k < len1 → a' k ≤ 9
  value : upper len1 j a' = v

variable {len1 j m v : ℕ} {a b : ℕ → ℕ}

/-- The multiplier is added without a carry that is lost. -/
lemma addOnce_spec (hj : j ≤ len1) (ha : ∀ k, j ≤ k → k < len1 → a k ≤ 9) (hb : ∀ k, b (k + 1) ≤ 9)
    (hv : num 10 (len1 - j) (fun k ↦ b (k + 1)) = v) (hfit : upper len1 j a + v < 10 ^ (len1 - j)) :
    Replaced len1 j a (addOnce len1 b j a) (upper len1 j a + v) := by
  have hterm (k : ℕ) : j + k - j + 1 = k + 1 := by lia
  have hrun := pass_spec (n := len1 - j) (i := j) (p := ⟨a, 0, true⟩) (upward_at fun i d ↦ d + b (i - j + 1))
    (fun k hk ↦ by
      have hdigit := ha (j + k) (by omega) (by omega)
      have hdigit' := hb k
      rw [hterm]
      dsimp only
      lia) (Nat.zero_le 1)
  have hvalue := hrun.value
  have hcarry := hrun.carry
  simp only [num_fun_add, hterm] at hvalue
  rw [hv] at hvalue
  rw [upper] at hfit ⊢
  refine ⟨hrun.below, fun k hk hk' ↦ ?_, ?_⟩
  · have hdigit := hrun.digit (k - j) (by lia)
    rw [Nat.add_sub_cancel' hk] at hdigit
    exact Nat.lt_succ_iff.mp hdigit
  · have hzero : (pass (fun a i ↦ a i + b (i - j + 1)) (len1 - j) j ⟨a, 0, true⟩).cy = 0 := by
      by_contra hne
      rw [show (pass (fun a i ↦ a i + b (i - j + 1)) (len1 - j) j ⟨a, 0, true⟩).cy = 1 by lia] at hvalue
      omega
    rw [hzero, mul_zero] at hvalue
    exact hvalue

/-- The multiplier is added some times. -/
lemma addTimes_spec (hj : j ≤ len1) (ha : ∀ k, j ≤ k → k < len1 → a k ≤ 9) (hb : ∀ k, b (k + 1) ≤ 9)
    (hv : num 10 (len1 - j) (fun k ↦ b (k + 1)) = v) (hfit : upper len1 j a + m * v < 10 ^ (len1 - j)) :
    Replaced len1 j a (addTimes len1 b j m a) (upper len1 j a + m * v) := by
  induction m generalizing a with
  | zero => exact ⟨fun k _ ↦ rfl, ha, by rw [zero_mul, add_zero]; rfl⟩
  | succ m ih =>
      rw [Nat.succ_mul] at hfit ⊢
      have honce := addOnce_spec hj ha hb hv (by omega)
      have hrest := ih honce.digit (by rw [honce.value]; omega)
      rw [honce.value, add_assoc, add_comm v] at hrest
      exact ⟨fun k hk ↦ (hrest.below k hk).trans (honce.below k hk), hrest.digit, hrest.value⟩

/-- The lowest digit of the upper part. -/
lemma upper_succ (h : j < len1) (a : ℕ → ℕ) : upper len1 j a = a j + 10 * upper len1 (j + 1) a := by
  rw [upper, upper, show len1 - j = len1 - (j + 1) + 1 by lia, num_succ']
  simp only [add_zero, add_assoc, add_comm 1]

/-- **The product**: the digits up to `j` are multiplied, and what is above them is the product of the others. -/
theorem mulLoop_spec (hj : j < len1) (ha : ∀ k, 1 ≤ k → k < len1 → a k ≤ 9) (hb : ∀ k, b (k + 1) ≤ 9)
    (hv : ∀ n, len1 - j ≤ n → num 10 n (fun k ↦ b (k + 1)) = v)
    (hfit : num 10 j (fun k ↦ a (1 + k)) * v + 10 ^ j * upper len1 (j + 1) a < 10 ^ (len1 - 1)) :
    Replaced len1 1 a (mulLoop len1 b j a) (num 10 j (fun k ↦ a (1 + k)) * v + 10 ^ j * upper len1 (j + 1) a) := by
  induction j generalizing a with
  | zero => exact ⟨fun k _ ↦ rfl, ha, by rw [num_zero, zero_mul, zero_add, pow_zero, one_mul]; rfl⟩
  | succ j ih =>
      have hempty : upper len1 (j + 1) (Function.update a (j + 1) 0) = 10 * upper len1 (j + 2) a := by
        rw [upper_succ hj, Function.update_self, zero_add, upper, upper]
        refine congrArg (10 * ·) (num_congr fun k _ ↦ Function.update_of_ne (by omega) ..)
      have htotal : num 10 (j + 1) (fun k ↦ a (1 + k)) * v + 10 ^ (j + 1) * upper len1 (j + 2) a =
          num 10 j (fun k ↦ a (1 + k)) * v + 10 ^ j * (10 * upper len1 (j + 2) a + a (j + 1) * v) := by
        rw [num_succ, pow_succ, add_comm 1 j]
        ring
      rw [htotal] at hfit ⊢
      have hplace : 10 * upper len1 (j + 2) a + a (j + 1) * v < 10 ^ (len1 - (j + 1)) := by
        refine Nat.lt_of_mul_lt_mul_left (a := 10 ^ j) ?_
        rw [← pow_add, show j + (len1 - (j + 1)) = len1 - 1 by lia]
        omega
      have hadded := @addTimes_spec len1 (j + 1) (a (j + 1)) v (Function.update a (j + 1) 0) b hj.le (fun k hk hk' ↦ by
          rw [Function.update_apply]
          split_ifs
          · exact Nat.zero_le 9
          · exact ha k (by omega) hk') hb (hv _ le_rfl) (by rw [hempty]; exact hplace)
      rw [hempty] at hadded
      have hbelow (k : ℕ) (hk : k < j + 1) :
          addTimes len1 b (j + 1) (a (j + 1)) (Function.update a (j + 1) 0) k = a k := by
        rw [hadded.below k hk, Function.update_of_ne (by omega)]
      have hlow : num 10 j (fun k ↦ addTimes len1 b (j + 1) (a (j + 1)) (Function.update a (j + 1) 0) (1 + k)) =
          num 10 j fun k ↦ a (1 + k) := num_congr fun k hk ↦ hbelow (1 + k) (by omega)
      have hrest := ih (a := addTimes len1 b (j + 1) (a (j + 1)) (Function.update a (j + 1) 0)) (by omega)
        (fun k hk hk' ↦ by
          rcases Nat.lt_or_ge k (j + 1) with hlt | hge
          · rw [hbelow k hlt]
            exact ha k hk hk'
          · exact hadded.digit k hge hk') (fun n hn ↦ hv n (by lia)) (by rw [hlow, hadded.value]; exact hfit)
      rw [hlow, hadded.value] at hrest
      exact ⟨fun k hk ↦ (hrest.below k hk).trans (hbelow k (by lia)), hrest.digit, hrest.value⟩

/-! ### The instruction -/

namespace Access

variable {c : Access} {s : Store} {addr addr1 addr2 len1 len2 : ℕ}

/-- The test of a key changes nothing, and is passed where a store is allowed. -/
lemma keyCheck_spec (c : Access) (s : Store) (addr : ℕ) :
    (c.keyCheck addr s = (.ok (), s) ∨ ∃ e, c.keyCheck addr s = (.error e, s)) ∧
      (c.stKey ≠ 0 → c.Allowed s 1 addr → c.keyCheck addr s = (.ok (), s)) := by
  rw [keyCheck, Allowed, loc]
  cases htrans : c.map.trans addr with
  | error e =>
      have hfail : c.transAddr addr s = (.error e, s) := by rw [transAddr, htrans]
      rw [Op.bind_of_error hfail]
      exact ⟨.inr ⟨e, rfl⟩, fun _ h ↦ absurd h.1 (by simp [Except.isOk, Except.toBool])⟩
  | ok pa =>
      have hdone : c.transAddr addr s = (.ok pa, s) := by rw [transAddr, htrans]
      rw [Op.bind_of_ok hdone, Op.get_bind, Nat.shiftRight_eq_div_pow]
      constructor
      · split_ifs
        · exact .inr ⟨ircProt, rfl⟩
        · exact .inl rfl
      · rintro hkey ⟨-, hallowed⟩
        rw [if_neg]
        · rfl
        · rintro ⟨-, hne⟩
          refine hallowed ⟨hkey, .inr ?_⟩
          rw [if_neg one_ne_zero]
          exact hne

lemma placeCheck_spec (c : Access) (s : Store) (addr1 len1 : ℕ) :
    (c.placeCheck addr1 len1 s = (.ok (), s) ∨ ∃ e, c.placeCheck addr1 len1 s = (.error e, s)) ∧
      (c.Open s 1 addr1 (len1 + 1) → c.placeCheck addr1 len1 s = (.ok (), s)) := by
  obtain ⟨hlast, hlast'⟩ := keyCheck_spec c s (addr1 + len1)
  obtain ⟨hfirst, hfirst'⟩ := keyCheck_spec c s addr1
  rw [placeCheck]
  by_cases hkey : c.stKey ≠ 0 ∧ c.prot
  · rw [if_pos hkey]
    constructor
    · rcases hlast with hok | ⟨e, herror⟩
      · rw [Op.bind_of_ok hok]
        split_ifs
        · exact hfirst
        · exact .inl rfl
      · exact .inr ⟨e, Op.bind_of_error herror⟩
    · intro hopen
      rw [Op.bind_of_ok (hlast' hkey.1 (hopen len1 (Nat.lt_succ_self _)))]
      split_ifs
      · exact hfirst' hkey.1 (hopen 0 (Nat.succ_pos _))
      · rfl
  · rw [if_neg hkey]
    exact ⟨.inl rfl, fun _ ↦ rfl⟩

/-- The operands of a multiplication: the multiplicand begins with as many zeros as the multiplier has digits and
signs. -/
structure MulAccepted (c : Access) (mem : ℕ → BitVec 32) (addr1 len1 addr2 len2 : ℕ) : Prop where
  length : len2 ≤ 7 ∧ len2 < len1
  valid1 : c.Valid mem addr1 len1
  valid2 : c.Valid mem addr2 len2
  zeros : c.magnitude mem addr1 len1 < 10 ^ (2 * len1 + 1 - 2 * (len2 + 1))

/-- The digits of the product. -/
lemma mulLoop_digits {mem : ℕ → BitVec 32} (h : c.MulAccepted mem addr1 len1 addr2 len2) :
    (∀ j < 2 * len1 + 1, mulLoop ((len1 + 1) * 2) (c.digits mem addr2 len2) ((len1 + 1) * 2 - (len2 + 1) * 2)
      (c.digits mem addr1 len1) (j + 1) ≤ 9) ∧
    num 10 (2 * len1 + 1) (fun j ↦ mulLoop ((len1 + 1) * 2) (c.digits mem addr2 len2) ((len1 + 1) * 2 - (len2 + 1) * 2)
      (c.digits mem addr1 len1) (j + 1)) = c.magnitude mem addr1 len1 * c.magnitude mem addr2 len2 := by
  obtain ⟨⟨-, hlt⟩, hvalid1, hvalid2, hzeros⟩ := h
  have hb (n : ℕ) (hn : 2 * len2 + 1 ≤ n) : num 10 n (fun k ↦ c.digits mem addr2 len2 (k + 1)) = c.magnitude mem addr2 len2 := by
    rw [← num_digits_eq c mem addr2 hn]
    exact num_congr fun k _ ↦ by rw [add_comm]
  have hsplit := num_add 10 ((len1 + 1) * 2 - (len2 + 1) * 2) (2 * len2 + 1) fun k ↦ c.digits mem addr1 len1 (1 + k)
  rw [show (len1 + 1) * 2 - (len2 + 1) * 2 + (2 * len2 + 1) = 2 * len1 + 1 by lia, num_digits_eq c mem addr1 le_rfl] at hsplit
  have hpow : (10 : ℕ) ^ (2 * len1 + 1 - 2 * (len2 + 1)) ≤ 10 ^ ((len1 + 1) * 2 - (len2 + 1) * 2) :=
    Nat.pow_le_pow_right (by norm_num) (by omega)
  have hzero : num 10 (2 * len2 + 1) (fun k ↦ c.digits mem addr1 len1 (1 + ((len1 + 1) * 2 - (len2 + 1) * 2 + k))) = 0 := by
    by_contra hne
    have hle := Nat.mul_le_mul_left (10 ^ ((len1 + 1) * 2 - (len2 + 1) * 2)) (Nat.one_le_iff_ne_zero.mpr hne)
    omega
  have habove : upper ((len1 + 1) * 2) ((len1 + 1) * 2 - (len2 + 1) * 2 + 1) (c.digits mem addr1 len1) = 0 := by
    rw [upper, ← hzero, show (len1 + 1) * 2 - ((len1 + 1) * 2 - (len2 + 1) * 2 + 1) = 2 * len2 + 1 by lia]
    exact num_congr fun k _ ↦ by rw [add_comm _ 1, add_assoc]
  have hlow : num 10 ((len1 + 1) * 2 - (len2 + 1) * 2) (fun k ↦ c.digits mem addr1 len1 (1 + k)) = c.magnitude mem addr1 len1 := by
    rw [hsplit, hzero, mul_zero, add_zero]
  have hfit : c.magnitude mem addr1 len1 * c.magnitude mem addr2 len2 < 10 ^ ((len1 + 1) * 2 - 1) :=
    calc c.magnitude mem addr1 len1 * c.magnitude mem addr2 len2
        < 10 ^ (2 * len1 + 1 - 2 * (len2 + 1)) * 10 ^ (2 * len2 + 1) :=
          Nat.mul_lt_mul'' hzeros (magnitude_lt hvalid2 le_rfl)
      _ = 10 ^ (2 * len1 + 1 - 2 * (len2 + 1) + (2 * len2 + 1)) := (pow_add ..).symm
      _ ≤ 10 ^ ((len1 + 1) * 2 - 1) := Nat.pow_le_pow_right (by norm_num) (by lia)
  have hproduct := @mulLoop_spec ((len1 + 1) * 2) ((len1 + 1) * 2 - (len2 + 1) * 2) (c.magnitude mem addr2 len2)
    (c.digits mem addr1 len1) (c.digits mem addr2 len2) (by omega) (fun k hk _ ↦ by
      have := digits_le hvalid1 (k - 1)
      rwa [Nat.add_sub_cancel' hk] at this) (fun k ↦ by
      rw [add_comm]
      exact digits_le hvalid2 k) (fun n hn ↦ hb n (by lia)) (by rwa [hlow, habove, mul_zero, add_zero])
  rw [hlow, habove, mul_zero, add_zero] at hproduct
  refine ⟨fun j hj ↦ hproduct.digit (j + 1) (by omega) (by omega), ?_⟩
  rw [← hproduct.value, upper, show (len1 + 1) * 2 - 1 = 2 * len1 + 1 by lia]
  exact num_congr fun k _ ↦ by rw [add_comm k 1]

/-- The test of the leading digits. -/
lemma zeros_iff {mem : ℕ → BitVec 32} (hlt : len2 < len1) (hvalid : c.Valid mem addr1 len1) :
    ((List.range ((len1 + 1) * 2)).any fun i ↦ (len1 + 1) * 2 - (len2 + 1) * 2 ≤ i && c.digits mem addr1 len1 i ≠ 0) = true ↔
      ¬ c.magnitude mem addr1 len1 < 10 ^ (2 * len1 + 1 - 2 * (len2 + 1)) := by
  have hany := any_iff (n := 2 * len1 + 1) (m := 2 * len1 + 1 - 2 * (len2 + 1)) (f := c.digits mem addr1 len1) (by omega)
    fun k _ ↦ digits_le hvalid k
  rw [num_digits_eq c mem addr1 le_rfl, show 2 * len1 + 1 + 1 = (len1 + 1) * 2 by ring,
    show 2 * len1 + 1 - 2 * (len2 + 1) + 1 = (len1 + 1) * 2 - (len2 + 1) * 2 by lia] at hany
  rw [hany, not_lt]

/-- **MP**: the exact product with its sign. A multiplication that is rejected leaves the storage as it is. -/
theorem decMul_spec (c : Access) (ascii : Bool) (s : Store) (addr1 len1 addr2 len2 : ℕ) (hlen1 : len1 < 16) :
    (c.MulAccepted s.mem addr1 len1 addr2 len2 → c.Open s 1 addr1 (len1 + 1) → c.Open s 0 addr2 (len2 + 1) →
      ∃ t, c.decMul ascii addr1 len1 addr2 len2 s = (.ok (), t) ∧
        c.Result ascii s t addr1 len1 (c.minus s.mem addr1 len1 != c.minus s.mem addr2 len2)
          (c.magnitude s.mem addr1 len1 * c.magnitude s.mem addr2 len2)) ∧
    (¬ c.MulAccepted s.mem addr1 len1 addr2 len2 →
      ∃ e t, c.decMul ascii addr1 len1 addr2 len2 s = (.error e, t) ∧ t.mem = s.mem) := by
  rw [decMul]
  by_cases hsame : len2 = len1
  · rw [if_pos hsame]
    exact ⟨fun h ↦ absurd h.length.2 (by omega), fun _ ↦ ⟨ircSpec, s, rfl, rfl⟩⟩
  rw [if_neg hsame]
  by_cases hlength : len2 > 7 ∨ len2 ≥ len1
  · rw [if_pos hlength]
    exact ⟨fun h ↦ absurd h.length (by omega), fun _ ↦ ⟨ircData, s, rfl, rfl⟩⟩
  rw [if_neg hlength]
  rcases decLoad_spec c s addr2 len2 with ⟨⟨-, hvalid2⟩, u, hload, hkept⟩ | ⟨hno, e, u, hload, hkept, -⟩
  swap
  · rw [Op.bind_of_error hload]
    exact ⟨fun h _ hopen ↦ absurd ⟨hopen, h.valid2⟩ hno, fun _ ↦ ⟨e, u, rfl, hkept.mem⟩⟩
  rw [Op.bind_of_ok hload]
  dsimp only
  obtain ⟨hplace, hplace'⟩ := placeCheck_spec c u addr1 len1
  rcases hplace with hok | ⟨e, herror⟩
  swap
  · rw [Op.bind_of_error herror]
    refine ⟨fun _ hopen _ ↦ ?_, fun _ ↦ ⟨e, u, rfl, hkept.mem⟩⟩
    rw [hplace' (hopen.congr hkept.key)] at herror
    cases herror
  rw [Op.bind_of_ok hok]
  rcases decLoad_spec c u addr1 len1 with ⟨⟨-, hvalid1⟩, w, hload', hkept'⟩ | ⟨hno, e, w, hload', hkept', -⟩
  swap
  · rw [Op.bind_of_error hload']
    refine ⟨fun h hopen _ ↦ absurd ?_ hno, fun _ ↦ ⟨e, w, rfl, hkept'.mem.trans hkept.mem⟩⟩
    rw [hkept.mem]
    exact ⟨(hopen.congr hkept.key).read, h.valid1⟩
  rw [hkept.mem] at hvalid1
  rw [Op.bind_of_ok hload', hkept.mem]
  dsimp only
  have hzeros := @zeros_iff _ _ _ len2 _ (by omega) hvalid1
  by_cases hbig : c.magnitude s.mem addr1 len1 < 10 ^ (2 * len1 + 1 - 2 * (len2 + 1))
  · have haccepted : c.MulAccepted s.mem addr1 len1 addr2 len2 := ⟨by omega, hvalid1, hvalid2, hbig⟩
    obtain ⟨hdigits, hvalue⟩ := mulLoop_digits haccepted
    rw [if_neg (mt hzeros.mp (not_not.mpr hbig))]
    refine ⟨fun _ hopen _ ↦ ?_, fun h ↦ absurd haccepted h⟩
    obtain ⟨t, hstore, hstored⟩ := decStore_spec ascii (mulLoop ((len1 + 1) * 2) (c.digits s.mem addr2 len2)
      ((len1 + 1) * 2 - (len2 + 1) * 2) (c.digits s.mem addr1 len1)) (c.minus s.mem addr1 len1 != c.minus s.mem addr2 len2)
      (by omega) (hopen.congr (hkept.trans hkept').key)
    have hresult := hstored.result hdigits
    rw [hvalue] at hresult
    exact ⟨t, hstore, hresult.of_kept (hkept.trans hkept')⟩
  · rw [if_pos (hzeros.mpr hbig)]
    exact ⟨fun h ↦ absurd h.zeros hbig, fun _ ↦ ⟨ircData, w, rfl, hkept'.mem.trans hkept.mem⟩⟩

/-- Seven times minus six. -/
theorem decMul_spec_small : ∃ t, (plain 4096 rfl).decMul false 0 1 2 0 (firstWords 0x007c6d00 0) = (.ok (), t) ∧
    (plain 4096 rfl).Result false (firstWords 0x007c6d00 0) t 0 1
      ((plain 4096 rfl).minus (firstWords 0x007c6d00 0).mem 0 1 != (plain 4096 rfl).minus (firstWords 0x007c6d00 0).mem 2 0)
      ((plain 4096 rfl).magnitude (firstWords 0x007c6d00 0).mem 0 1 * (plain 4096 rfl).magnitude (firstWords 0x007c6d00 0).mem 2 0) :=
  (decMul_spec (plain 4096 rfl) false (firstWords 0x007c6d00 0) 0 1 2 0 (by norm_num)).1
    ⟨by norm_num, by decide, by decide, by decide⟩
    (plain_open rfl (by norm_num) (by norm_num)) (plain_open rfl (by norm_num) (by norm_num))

end Access

end Ka10Simh.Ibm360
