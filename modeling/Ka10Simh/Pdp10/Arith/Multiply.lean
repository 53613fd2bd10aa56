import Ka10Simh.Pdp10.Arith.Basic

/-!
`IMUL` and `MUL` of `sim_instr` on a machine that is no `KA` and no `KS`, in their four modes.

* `mul`: the instructions, from the two operands on. A flag is not set in an interrupt cycle.
* `product_eq`: the two partial products together are the product of the magnitudes.
* `Imul`, `Mul`: the signed product in one and in two words, with the overflow.
* `products_delivered`: when the instructions do this.
-/

namespace Ka10Simh.Pdp10.Arith

variable {s t : Acs} {ac e x y a b : ℕ} {ir : Fin 8} {piCycle : Bool}

/-- The word that is multiplied with the accumulator, from a word of memory or from the address. -/
def operand (ir : Fin 8) (e : ℕ) : ℕ := if ir.val = 1 ∨ ir.val = 5 then e &&& rmask else e

/-- The product of two magnitudes in `AR` and in 35 bits of `MQ`. -/
def product (ar br : ℕ) : ℕ × ℕ :=
  let mq := ar * (br &&& rmask)
  let ar := ar * (br >>> 18 &&& rmask)
  let mq := mq + (ar <<< 18 &&& lmask)
  let ar := ar >>> 18
  (ar <<< 1 + mq >>> 35, mq &&& cmask)

/-- `mul_done`: the words go to the accumulators, and the first one to memory. -/
def mulDone (s : Acs) (ac : ℕ) (ir : Fin 8) (ar mq : ℕ) : Acs × Option ℕ :=
  match ir with
  | 7 => ((s.set (ac + 1) mq).set ac ar, some ar)
  | 5 | 4 => ((s.set (ac + 1) mq).set ac ar, none)
  | 1 | 0 => (s.set ac ar, none)
  | 2 | 6 => (s, some ar)
  | 3 => (s.set ac ar, some ar)

/-- `case 0220` to `case 0227`: `IMUL`, and from 4 on `MUL`. -/
def mul (s : Acs) (ac : ℕ) (ir : Fin 8) (e : ℕ) (piCycle : Bool) : Acs × Option ℕ :=
  let ar := operand ir e
  let br := s.get ac
  let flag3 := (ar &&& smask != 0) ^^ (br &&& smask != 0)
  let ar := magnitude ar
  let br := magnitude br
  if ar = 0 ∨ br = 0 then mulDone s ac ir 0 0 else
    let (ar, mq) := product ar br
    if ir.val < 4 then
      let flagged := if ar > flag3.toNat ∧ piCycle = false then s.overflow else s
      let mq := if flag3 then ((mq ^^^ cmask) + 1) ||| smask else mq
      mulDone flagged ac ir mq mq
    else
      let flagged := if ar &&& smask ≠ 0 ∧ piCycle = false then s.overflow else s
      let (ar, mq) :=
        if flag3 then
          let ar := ar ^^^ fmask
          let mq := (mq ^^^ cmask) + 1
          if mq &&& smask ≠ 0 then (ar + 1, mq &&& cmask) else (ar, mq)
        else (ar, mq)
      let ar := ar &&& fmask
      mulDone flagged ac ir ar (Word.bic mq smask ||| ar &&& smask)

/-! ### What a product is -/

/-- The signed product of the two operands. -/
def signed (s : Acs) (ac : ℕ) (ir : Fin 8) (e : ℕ) : ℤ := value (operand ir e) * value (s.get ac)

/-- The range of a word. -/
def Fits (z : ℤ) : Prop := -2 ^ 35 ≤ z ∧ z < 2 ^ 35

/-- What `IMUL` has to deliver: a word with the sign and the low 35 bits of the product. -/
def Imul (s : Acs) (ac : ℕ) (ir : Fin 8) (e : ℕ) (r : Acs × Option ℕ) : Prop :=
  ∃ (t : Acs) (v : ℕ), r = mulDone t ac ir v v ∧ t.reg = s.reg ∧ v < 2 ^ 36 ∧
    value v ≡ signed s ac ir e [ZMOD 2 ^ 35] ∧ (value v < 0 ↔ signed s ac ir e < 0) ∧
    (t.ovr = true ↔ s.ovr = true ∨ ¬ Fits (signed s ac ir e))

/-- What `MUL` has to deliver: two words with the sign of the product and all its bits. -/
def Mul (s : Acs) (ac : ℕ) (ir : Fin 8) (e : ℕ) (r : Acs × Option ℕ) : Prop :=
  ∃ (t : Acs) (u v : ℕ), r = mulDone t ac ir u v ∧ t.reg = s.reg ∧ u < 2 ^ 36 ∧ v < 2 ^ 36 ∧
    value u * 2 ^ 35 + (v % 2 ^ 35 : ℕ) = signed s ac ir e ∧ v / 2 ^ 35 = u / 2 ^ 35 ∧
    (t.ovr = true ↔ s.ovr = true ∨ value (operand ir e) = -2 ^ 35 ∧ value (s.get ac) = -2 ^ 35)

/-! ### The product of the magnitudes -/

/-- **The two partial products are the product.** -/
lemma product_eq (a : ℕ) (hb : b < 2 ^ 36) : product a b = (a * b / 2 ^ 35, a * b % 2 ^ 35) := by
  have hsplit : b = 2 ^ 18 * (b / 2 ^ 18 % 2 ^ 18) + b % 2 ^ 18 := by lia
  have hab : a * b = 2 ^ 18 * (a * (b / 2 ^ 18 % 2 ^ 18)) + a * (b % 2 ^ 18) := by
    conv_lhs => rw [hsplit]
    ring
  rw [product, and_rmask, and_rmask, and_lmask, and_cmask, Nat.shiftRight_eq_div_pow b, hab]
  generalize a * (b / 2 ^ 18 % 2 ^ 18) = hi
  generalize a * (b % 2 ^ 18) = lo
  rw [Nat.shiftLeft_eq, Nat.shiftLeft_eq, Nat.shiftRight_eq_div_pow, Nat.shiftRight_eq_div_pow]
  refine Prod.ext ?_ ?_
  · dsimp only
    lia
  · dsimp only
    lia

/-- The product of the magnitudes. -/
def size (s : Acs) (ac : ℕ) (ir : Fin 8) (e : ℕ) : ℕ := magnitude (operand ir e) * magnitude (s.get ac)

/-- The signs of the operands differ. -/
def differ (s : Acs) (ac : ℕ) (ir : Fin 8) (e : ℕ) : Bool :=
  (operand ir e &&& smask != 0) ^^ (s.get ac &&& smask != 0)

/-- The product of the numbers. -/
lemma signed_eq (hx : operand ir e < 2 ^ 36) (hy : s.get ac < 2 ^ 36) :
    signed s ac ir e = if differ s ac ir e then -(size s ac ir e : ℤ) else size s ac ir e := by
  rw [signed, value_magnitude hx, value_magnitude hy, differ, size]
  by_cases h1 : operand ir e &&& smask = 0 <;> by_cases h2 : s.get ac &&& smask = 0 <;>
    simp [h1, h2, bne_iff_ne.mpr, bne]

lemma operand_lt (he : e < 2 ^ 36) (ir : Fin 8) : operand ir e < 2 ^ 36 := by
  rw [operand]
  split
  · exact Nat.and_lt_two_pow _ (by norm_num)
  · exact he

/-! ### The words of a product -/

section Words

variable {d : Bool} {p : ℕ}

/-- The word of `IMUL` for a magnitude and a sign. -/
def imulWord (d : Bool) (p : ℕ) : ℕ := if d then ((p % 2 ^ 35 ^^^ cmask) + 1) ||| smask else p % 2 ^ 35

lemma xor_cmask (p : ℕ) : p % 2 ^ 35 ^^^ cmask = 2 ^ 35 - 1 - p % 2 ^ 35 := by
  rw [Nat.xor_comm, show cmask = 2 ^ 35 - 1 from rfl]
  exact Word.mask_xor (Nat.mod_lt _ (by positivity))

lemma imulWord_eq (d : Bool) (p : ℕ) :
    imulWord d p = if d then if p % 2 ^ 35 = 0 then 2 ^ 35 else 2 ^ 36 - p % 2 ^ 35 else p % 2 ^ 35 := by
  have hlt : p % 2 ^ 35 < 2 ^ 35 := Nat.mod_lt _ (by positivity)
  rw [imulWord, xor_cmask]
  cases d with
  | false => rfl
  | true =>
    rw [if_pos rfl, if_pos rfl, Nat.or_comm]
    split_ifs with h0
    · rw [h0]
      rfl
    · have hsum : 2 ^ 35 - 1 - p % 2 ^ 35 + 1 < 2 ^ 35 := by omega
      have hor := or_sign (c := 1) hsum
      rw [Nat.one_mul] at hor
      rw [show smask = 2 ^ 35 from rfl, hor]
      lia

/-- The word of `IMUL` has the sign and the low bits of the product. -/
lemma imulWord_value (d : Bool) (h0 : p ≠ 0) :
    imulWord d p < 2 ^ 36 ∧ value (imulWord d p) ≡ (if d then -(p : ℤ) else p) [ZMOD 2 ^ 35] ∧
      (value (imulWord d p) < 0 ↔ (if d then -(p : ℤ) else p) < 0) := by
  have hlt : p % 2 ^ 35 < 2 ^ 35 := Nat.mod_lt _ (by positivity)
  rw [imulWord_eq, Int.ModEq]
  cases d with
  | false =>
    rw [if_neg nofun, if_neg nofun, value_of_lt hlt]
    refine ⟨by omega, by omega, by omega⟩
  | true =>
    rw [if_pos rfl, if_pos rfl]
    split_ifs with hlow
    · rw [value_of_ge le_rfl]
      refine ⟨by norm_num, by omega, by omega⟩
    · rw [value_of_ge (by omega)]
      refine ⟨by omega, by lia, by omega⟩

/-- The two words of `MUL` for a magnitude and a sign. -/
def mulWords (d : Bool) (p : ℕ) : ℕ × ℕ :=
  let (ar, mq) :=
    if d then
      let ar := p / 2 ^ 35 ^^^ fmask
      let mq := (p % 2 ^ 35 ^^^ cmask) + 1
      if mq &&& smask ≠ 0 then (ar + 1, mq &&& cmask) else (ar, mq)
    else (p / 2 ^ 35, p % 2 ^ 35)
  let ar := ar &&& fmask
  (ar, Word.bic mq smask ||| ar &&& smask)

/-- The second word takes the sign of the first one. -/
lemma take_sign {u m : ℕ} (hu : u < 2 ^ 36) (hm : m < 2 ^ 35) : Word.bic m smask ||| u &&& smask = sg u * 2 ^ 35 + m := by
  have hand : m &&& smask = 0 := by
    rw [show smask = 2 ^ 35 from rfl, Word.and_two_pow_eq_zero]
    exact Nat.testBit_lt_two_pow hm
  rw [Word.bic, hand, Nat.xor_zero, and_smask_eq hu, Nat.or_comm, or_sign hm]

lemma mulWords_eq (d : Bool) (h0 : p ≠ 0) (hp : p < 2 ^ 70) :
    ∃ u m, mulWords d p = (u, sg u * 2 ^ 35 + m) ∧ u < 2 ^ 36 ∧ m < 2 ^ 35 ∧
      value u * 2 ^ 35 + m = if d then -(p : ℤ) else p := by
  have hlt : p % 2 ^ 35 < 2 ^ 35 := Nat.mod_lt _ (by positivity)
  have hhi : p / 2 ^ 35 < 2 ^ 35 := by omega
  cases d with
  | false =>
    have hu : p / 2 ^ 35 &&& fmask = p / 2 ^ 35 := by rw [and_fmask, Nat.mod_eq_of_lt (by omega)]
    refine ⟨p / 2 ^ 35, p % 2 ^ 35, ?_, by omega, hlt, ?_⟩
    · rw [mulWords, if_neg nofun]
      dsimp only
      rw [hu, take_sign (by omega) hlt]
    · rw [value_of_lt hhi, if_neg nofun]
      omega
  | true =>
    have hxor : p / 2 ^ 35 ^^^ fmask = 2 ^ 36 - 1 - p / 2 ^ 35 := by
      rw [Nat.xor_comm, show fmask = 2 ^ 36 - 1 from rfl]
      exact Word.mask_xor (by omega)
    have hmq : (p % 2 ^ 35 ^^^ cmask) + 1 = 2 ^ 35 - p % 2 ^ 35 := by
      rw [xor_cmask]
      lia
    by_cases hlow : p % 2 ^ 35 = 0
    · -- the low part is zero, and the carry goes to the first word
      have hu : (2 ^ 36 - 1 - p / 2 ^ 35 + 1) &&& fmask = 2 ^ 36 - p / 2 ^ 35 := by
        rw [and_fmask]
        lia
      have hcarry : 2 ^ 35 &&& smask ≠ 0 := by decide
      refine ⟨2 ^ 36 - p / 2 ^ 35, 0, ?_, by lia, by norm_num, ?_⟩
      · rw [mulWords, if_pos rfl]
        dsimp only
        rw [hxor, hmq, hlow, Nat.sub_zero, if_pos hcarry]
        dsimp only
        rw [hu, show 2 ^ 35 &&& cmask = 0 from rfl, take_sign (by lia) (by norm_num)]
      · rw [value_of_ge (by lia), if_pos rfl]
        lia
    · have hno : ¬ 2 ^ 35 - p % 2 ^ 35 &&& smask ≠ 0 := by
        rw [and_smask_ne (by omega)]
        omega
      have hu : 2 ^ 36 - 1 - p / 2 ^ 35 &&& fmask = 2 ^ 36 - 1 - p / 2 ^ 35 := by
        rw [and_fmask]
        lia
      refine ⟨2 ^ 36 - 1 - p / 2 ^ 35, 2 ^ 35 - p % 2 ^ 35, ?_, by lia, by omega, ?_⟩
      · rw [mulWords, if_pos rfl]
        dsimp only
        rw [hxor, hmq, if_neg hno]
        dsimp only
        rw [hu, take_sign (by lia) (by omega)]
      · rw [value_of_ge (by lia), if_pos rfl]
        lia

end Words

/-! ### The instructions -/

lemma size_eq_zero : size s ac ir e = 0 ↔ magnitude (operand ir e) = 0 ∨ magnitude (s.get ac) = 0 := mul_eq_zero

lemma mul_of_zero (piCycle : Bool) (h : size s ac ir e = 0) : mul s ac ir e piCycle = mulDone s ac ir 0 0 := by
  rw [mul, if_pos (size_eq_zero.mp h)]

/-- `IMUL` of two numbers other than zero. -/
lemma mul_imul (hy : s.get ac < 2 ^ 36) (hir : ir < 4) (h : size s ac ir e ≠ 0) :
    mul s ac ir e piCycle = mulDone (if size s ac ir e / 2 ^ 35 > (differ s ac ir e).toNat ∧ piCycle = false
      then s.overflow else s) ac ir (imulWord (differ s ac ir e) (size s ac ir e))
        (imulWord (differ s ac ir e) (size s ac ir e)) := by
  have hb : magnitude (s.get ac) < 2 ^ 36 := (magnitude_le hy).trans_lt (by norm_num)
  rw [mul, if_neg (fun h0 ↦ h (size_eq_zero.mpr h0)), product_eq _ hb]
  dsimp only
  rw [if_pos (show ir.val < 4 from hir)]
  rfl

/-- `MUL` of two numbers other than zero. -/
lemma mul_mul (hy : s.get ac < 2 ^ 36) (hir : ¬ ir < 4) (h : size s ac ir e ≠ 0) :
    mul s ac ir e piCycle = mulDone (if size s ac ir e / 2 ^ 35 &&& smask ≠ 0 ∧ piCycle = false
      then s.overflow else s) ac ir (mulWords (differ s ac ir e) (size s ac ir e)).1
        (mulWords (differ s ac ir e) (size s ac ir e)).2 := by
  have hb : magnitude (s.get ac) < 2 ^ 36 := (magnitude_le hy).trans_lt (by norm_num)
  rw [mul, if_neg (fun h0 ↦ h (size_eq_zero.mpr h0)), product_eq _ hb]
  dsimp only
  rw [if_neg (show ¬ ir.val < 4 from hir)]
  rfl

lemma mulDone_ovr (s : Acs) (ac : ℕ) (ir : Fin 8) (u v : ℕ) : (mulDone s ac ir u v).1.ovr = s.ovr := by
  fin_cases ir <;> rfl

/-- A flag that leaves out some of the cases. -/
lemma over_iff {r m c f : Prop} : (f ∨ (¬ r ∧ ¬ m) ∧ c ↔ f ∨ ¬ r) ↔ f ∨ r ∨ c ∧ ¬ m := by tauto

/-- **When `IMUL` is right.** -/
lemma imul_iff (h : s.Words) (ac : ℕ) (he : e < 2 ^ 36) (hir : ir < 4) :
    Imul s ac ir e (mul s ac ir e piCycle) ↔ s.ovr = true ∨ Fits (signed s ac ir e) ∨
      piCycle = false ∧ ¬ (-2 ^ 36 < signed s ac ir e ∧ signed s ac ir e < -2 ^ 35) := by
  have hx := operand_lt he ir
  have hy := h ac
  have hsigned := signed_eq hx hy
  by_cases h0 : size s ac ir e = 0
  · have hz : signed s ac ir e = 0 := by
      rw [hsigned, h0]
      simp
    have hfits : Fits (signed s ac ir e) := by
      rw [hz]
      exact ⟨by norm_num, by norm_num⟩
    refine iff_of_true ?_ (.inr (.inl hfits))
    refine ⟨s, 0, mul_of_zero piCycle h0, rfl, by norm_num, ?_, ?_, ?_⟩
    · rw [hz]
      rfl
    · rw [hz]
      rfl
    · exact ⟨.inl, fun hor ↦ hor.resolve_right fun hn ↦ hn hfits⟩
  obtain ⟨hlt, hmod, hneg⟩ := imulWord_value (differ s ac ir e) h0
  rw [← hsigned] at hmod hneg
  have hover : size s ac ir e / 2 ^ 35 > (differ s ac ir e).toNat ↔
      ¬ Fits (signed s ac ir e) ∧ ¬ (-2 ^ 36 < signed s ac ir e ∧ signed s ac ir e < -2 ^ 35) := by
    rw [hsigned, Fits]
    cases differ s ac ir e with
    | false =>
      rw [if_neg nofun, Bool.toNat_false]
      omega
    | true =>
      rw [if_pos rfl, Bool.toNat_true]
      lia
  have hflag := s.flagged_ovr (and_congr_left (c := piCycle = false) fun _ ↦ hover)
  rw [mul_imul hy hir h0]
  constructor
  · rintro ⟨t, v, hv, -, -, -, -, hovr⟩
    have heq := congrArg (fun r ↦ r.1.ovr) hv
    rw [mulDone_ovr, mulDone_ovr] at heq
    rw [← heq, hflag] at hovr
    exact over_iff.mp hovr
  · intro hcond
    exact ⟨_, _, rfl, s.flagged_reg _, hlt, hmod, hneg, hflag.trans (over_iff.mpr hcond)⟩

/-- Only the lowest number times itself does not fit into two words. -/
lemma size_lt (hx : operand ir e < 2 ^ 36) (hy : s.get ac < 2 ^ 36)
    (h : ¬ (value (operand ir e) = -2 ^ 35 ∧ value (s.get ac) = -2 ^ 35)) : size s ac ir e < 2 ^ 70 := by
  have ha := magnitude_le hx
  have hb := magnitude_le hy
  by_cases hax : magnitude (operand ir e) = 2 ^ 35
  · have hby : magnitude (s.get ac) < 2 ^ 35 := by
      refine hb.lt_of_ne fun heq ↦ h ⟨magnitude_eq_pow hx hax, magnitude_eq_pow hy heq⟩
    rw [size, hax]
    omega
  · have hax' : magnitude (operand ir e) < 2 ^ 35 := ha.lt_of_ne hax
    calc size s ac ir e ≤ magnitude (operand ir e) * 2 ^ 35 := Nat.mul_le_mul_left _ hb
      _ < 2 ^ 70 := by omega

/-- **When `MUL` is right.** -/
lemma mul_iff (h : s.Words) (ac : ℕ) (he : e < 2 ^ 36) (hir : ¬ ir < 4) :
    Mul s ac ir e (mul s ac ir e piCycle) ↔
      ¬ (value (operand ir e) = -2 ^ 35 ∧ value (s.get ac) = -2 ^ 35) := by
  have hx := operand_lt he ir
  have hy := h ac
  have hsigned := signed_eq hx hy
  constructor
  · rintro ⟨t, u, v, -, -, hu, -, hval, -, -⟩ ⟨h1, h2⟩
    have hlt := value_lt hu
    rw [signed, h1, h2] at hval
    lia
  · intro hne
    have hovr : s.ovr = true ↔ s.ovr = true ∨ value (operand ir e) = -2 ^ 35 ∧ value (s.get ac) = -2 ^ 35 :=
      (or_iff_left hne).symm
    by_cases h0 : size s ac ir e = 0
    · refine ⟨s, 0, 0, mul_of_zero piCycle h0, rfl, by norm_num, by norm_num, ?_, rfl, hovr⟩
      rw [hsigned, h0]
      simp [value]
    have hlt := size_lt hx hy hne
    obtain ⟨u, m, hwords, hu, hm, hval⟩ := mulWords_eq (differ s ac ir e) h0 hlt
    have hput := sg_put (sg_le hu) hm
    have hclear : ¬ (size s ac ir e / 2 ^ 35 &&& smask ≠ 0 ∧ piCycle = false) := by
      rintro ⟨hset, -⟩
      rw [and_smask_ne (by lia)] at hset
      lia
    rw [mul_mul hy hir h0, if_neg hclear, hwords]
    refine ⟨s, u, _, rfl, rfl, hu, hput.1, ?_, hput.2, hovr⟩
    rw [Nat.mul_add_mod', Nat.mod_eq_of_lt hm, hval, hsigned]

/-- **When `IMUL` and `MUL` deliver the product.** `IMUL` misses the overflow of a product between -2³⁶ and -2³⁵, and
`MUL` delivers all products but the one of the lowest number by itself, which two words do not hold. -/
theorem products_delivered (h : s.Words) (ac : ℕ) (he : e < 2 ^ 36) (ir : Fin 8) (piCycle : Bool) :
    (ir < 4 → (Imul s ac ir e (mul s ac ir e piCycle) ↔ s.ovr = true ∨ Fits (signed s ac ir e) ∨
      piCycle = false ∧ ¬ (-2 ^ 36 < signed s ac ir e ∧ signed s ac ir e < -2 ^ 35))) ∧
    (¬ ir < 4 → (Mul s ac ir e (mul s ac ir e piCycle) ↔
      ¬ (value (operand ir e) = -2 ^ 35 ∧ value (s.get ac) = -2 ^ 35))) :=
  ⟨imul_iff h ac he, mul_iff h ac he⟩

/-- The number -3 in each accumulator. -/
def minusThree : Acs := ⟨fun _ ↦ 2 ^ 36 - 3, false, false, false, false, false⟩

lemma minusThree_words : minusThree.Words := fun _ ↦ Nat.sub_lt (by norm_num) (by norm_num)

theorem fourteen_delivered : Mul minusThree 0 4 14 (mul minusThree 0 4 14 false) :=
  ((products_delivered minusThree_words 0 (by norm_num) 4 false).2 (by decide)).mpr
    fun h ↦ absurd h.1 (by decide)

/-- -3 times 2³⁴ is below the range of a word, and `IMUL` does not say so. -/
theorem overflow_missed : ¬ Imul minusThree 0 0 (2 ^ 34) (mul minusThree 0 0 (2 ^ 34) false) := by
  rintro ⟨t, v, hv, -, -, -, -, hovr⟩
  have hclear : (mul minusThree 0 0 (2 ^ 34) false).1.ovr = false := by decide
  rw [hv, mulDone_ovr] at hclear
  have hout : ¬ Fits (signed minusThree 0 0 (2 ^ 34)) := by
    rintro ⟨hlow, -⟩
    exact absurd hlow (by decide)
  rw [hovr.mpr (.inr hout)] at hclear
  cases hclear

end Ka10Simh.Pdp10.Arith
