import Ka10Simh.Ibm360.FixedDivide
import Ka10Simh.Ibm360.Decimal.Packed

/-!
Convert to Binary and Convert to Decimal.

The decimal operand is a double word of fifteen digits and a sign. Its two words are read and stored one after the
other.

* `cvb`, `cvd`: the source.
* `nib_doubleword`: the digits of the two words.
* `upLoop_spec`, `downLoop_spec`: the loops.
* `Access.CvbRight`: what CVB has to do.
* `convert_iff`: when it does, and that CVB has what CVD has stored.
* `convert_wrong`: 2 to the 31st.
-/

namespace Ka10Simh.Ibm360

open Numeral

/-! ### The source -/

/-- `OMASKL`. -/
abbrev omaskl : BitVec 64 := 0xffffffff80000000

/-- The digits of a word, from the first of `n` to the one at the bit `last`. -/
def upLoop (src : BitVec 32) (last : ℕ) : ℕ → BitVec 64 → Op (BitVec 64)
  | 0, destL => pure destL
  | n + 1, destL =>
      let d := src >>> (last + 4 * n) &&& 0xf
      if 0xa ≤ d then Op.fail ircData else upLoop src last n (destL * 10 + d.setWidth 64)

/-- Convert digits until zero. -/
def downLoop (dest : BitVec 32) (temp : ℕ) (src1 src1h : BitVec 32) : BitVec 32 × BitVec 32 :=
  if dest ≠ 0 then
    let d := dest % 10
    if temp ≥ 32 then downLoop (dest / 10) (temp + 4) (src1 ||| d <<< (temp - 32)) src1h
    else downLoop (dest / 10) (temp + 4) src1 (src1h ||| d <<< temp)
  else (src1, src1h)
termination_by dest.toNat
decreasing_by
  all_goals
    rw [BitVec.toNat_udiv]
    exact Nat.div_lt_self (Nat.pos_of_ne_zero fun hzero ↦ ‹dest ≠ 0› (BitVec.eq_of_toNat_eq hzero)) (by decide)

namespace Access

variable (c : Access)

/-- `OP_CVB`: the code of an exception that is raised although the register is changed, and the registers. -/
def cvb (regs : ℕ → BitVec 32) (reg1 addr1 : ℕ) : Op (Option ℕ × (ℕ → BitVec 32)) := do
  if addr1 &&& 7 ≠ 0 ∧ ¬ c.stor then Op.fail ircSpec
  else
    let src1 ← c.readFull addr1
    let src1h ← c.readFull (addr1 + 4)
    let fill := src1h &&& 0xf
    if fill < 0xa then Op.fail ircData
    else
      let destL ← upLoop src1 0 8 0
      let destL ← upLoop src1h 4 7 destL
      let irc := if destL &&& omaskl ≠ 0 ∧ destL ≠ msign.setWidth 64 then some ircFixdiv else none
      let destL := if fill = 0xb ∨ fill = 0xd then ~~~destL + 1 else destL
      return (irc, Function.update regs reg1 (destL.setWidth 32))

/-- `OP_CVD`. -/
def cvd (ascii : Bool) (regs : ℕ → BitVec 32) (reg1 addr1 : ℕ) : Op Unit := do
  if addr1 &&& 7 ≠ 0 ∧ ¬ c.stor then Op.fail ircSpec
  else
    let dest := regs reg1
    let fill := dest &&& msign ≠ 0
    let dest := if fill then -dest else dest
    let (src1, src1h) := downLoop dest 4 0 0
    let src1h := src1h ||| BitVec.ofNat 32 (signCode ascii fill)
    c.writeFull addr1 src1
    c.writeFull (addr1 + 4) src1h

end Access

/-! ### The digits of two words -/

/-- The number of two words. -/
def twoWords (w w' : BitVec 32) : ℕ := w.toNat * 2 ^ 32 + w'.toNat

namespace Access

variable {c : Access} {s t : Store} {mem : ℕ → BitVec 32} {addr : ℕ} {w w' : BitVec 32}

/-- The bytes of the double word are those of its words. -/
def Doubleword (c : Access) (mem : ℕ → BitVec 32) (addr : ℕ) (w w' : BitVec 32) : Prop :=
  (∀ i < 4, byteAt mem (c.loc (addr + i)) = dataByte w i) ∧ ∀ i < 4, byteAt mem (c.loc (addr + 4 + i)) = dataByte w' i

lemma dataByte_toNat (w : BitVec 32) (i : ℕ) : (dataByte w i).toNat = w.toNat / 2 ^ (8 * (3 - i)) % 256 := by
  rw [dataByte, BitVec.extractLsb'_toNat, Nat.shiftRight_eq_div_pow]

/-- A half byte of a word. -/
lemma half_toNat (w : BitVec 32) {j : ℕ} (hj : j < 8) :
    (dataByte w (3 - j / 2)).toNat / 16 ^ (j % 2) % 16 = w.toNat / 16 ^ j % 16 := by
  rw [dataByte_toNat]
  obtain rfl | rfl | rfl | rfl | rfl | rfl | rfl | rfl :
    j = 0 ∨ j = 1 ∨ j = 2 ∨ j = 3 ∨ j = 4 ∨ j = 5 ∨ j = 6 ∨ j = 7 := by lia
  all_goals norm_num <;> omega

/-- The digits and the sign, in each of the words. -/
lemma nib_word (h : c.Doubleword mem addr w w') {j : ℕ} (hj : j < 8) :
    c.nib mem addr 7 j = w'.toNat / 16 ^ j % 16 ∧ c.nib mem addr 7 (8 + j) = w.toNat / 16 ^ j % 16 := by
  have hlow := h.2 (3 - j / 2) (by omega)
  have hhigh := h.1 (3 - j / 2) (by omega)
  rw [show addr + 4 + (3 - j / 2) = addr + (7 - j / 2) by lia] at hlow
  rw [nib, nib, hlow, half_toNat w' hj, show 7 - (8 + j) / 2 = 3 - j / 2 by lia, hhigh,
    show (8 + j) % 2 = j % 2 by omega, half_toNat w hj]
  exact ⟨rfl, rfl⟩

/-- **The digits and the sign**, in the number of both words. -/
theorem nib_doubleword (h : c.Doubleword mem addr w w') {j : ℕ} (hj : j < 16) :
    c.nib mem addr 7 j = twoWords w w' / 16 ^ j % 16 := by
  have hlt := w'.isLt
  rw [twoWords]
  rcases Nat.lt_or_ge j 8 with hlow | hhigh
  · obtain ⟨m, hm⟩ : (16 : ℕ) ^ j ∣ 16 ^ 7 := Nat.pow_dvd_pow 16 (by omega)
    rw [(nib_word h hlow).1, show w.toNat * 2 ^ 32 = 16 ^ j * (16 * (w.toNat * m)) by
      rw [show (2 : ℕ) ^ 32 = 16 ^ 7 * 16 by norm_num, hm]
      ring, Nat.mul_add_div (by positivity)]
    lia
  · obtain ⟨i, rfl⟩ := Nat.exists_eq_add_of_le hhigh
    rw [(nib_word h (by omega)).2, pow_add, ← Nat.div_div_eq_div_mul]
    congr 2
    lia

end Access

/-! ### The loops -/

variable {w w' : BitVec 32} {s : Store} {j k m n : ℕ}

/-- The digit that a loop takes. -/
lemma digit_toNat (w : BitVec 32) (k : ℕ) : (w >>> (4 * k) &&& 0xf).toNat = w.toNat / 16 ^ k % 16 := by
  rw [BitVec.toNat_and, BitVec.toNat_ushiftRight, Nat.shiftRight_eq_div_pow, pow_mul]
  exact Nat.and_two_pow_sub_one_eq_mod _ 4

/-- **The digits of a word are put behind the number.** -/
theorem upLoop_spec (hdigit : ∀ j < n, w.toNat / 16 ^ (k + j) % 16 ≤ 9) {v : BitVec 64} (hv : v.toNat < 10 ^ m)
    (hfit : m + n ≤ 19) (s : Store) :
    ∃ r, upLoop w (4 * k) n v s = (.ok r, s) ∧ r.toNat = v.toNat * 10 ^ n + num 10 n fun j ↦ w.toNat / 16 ^ (k + j) % 16 := by
  induction n generalizing v m with
  | zero => exact ⟨v, rfl, by simp⟩
  | succ n ih =>
      have hd := digit_toNat w (k + n)
      have hle := hdigit n (by omega)
      rw [show 4 * (k + n) = 4 * k + 4 * n by ring] at hd
      have hfew : 10 ^ (m + 1) ≤ 10 ^ 19 := Nat.pow_le_pow_right (by norm_num) (by omega)
      have hsucc : v.toNat * 10 + 9 < 10 ^ (m + 1) := by
        rw [pow_succ]
        lia
      have hnext : (v * 10 + (w >>> (4 * k + 4 * n) &&& 0xf).setWidth 64).toNat = v.toNat * 10 + w.toNat / 16 ^ (k + n) % 16 := by
        rw [BitVec.toNat_add, BitVec.toNat_mul, BitVec.toNat_setWidth, hd]
        show (v.toNat * 10 % 2 ^ 64 + w.toNat / 16 ^ (k + n) % 16 % 2 ^ 64) % 2 ^ 64 = _
        lia
      obtain ⟨r, hrun, hr⟩ := ih (v := v * 10 + (w >>> (4 * k + 4 * n) &&& 0xf).setWidth 64) (m := m + 1)
        (fun j hj ↦ hdigit j (by omega)) (by rw [hnext]; lia) (by omega)
      have hgood : ¬ (0xa : BitVec 32) ≤ w >>> (4 * k + 4 * n) &&& 0xf := by
        rw [BitVec.le_def, hd]
        show ¬ 10 ≤ _
        lia
      refine ⟨r, ?_, ?_⟩
      · rw [upLoop, if_neg hgood, hrun]
      · rw [hr, hnext, num_succ, pow_succ]
        ring

/-- A digit is put into the two words. -/
lemma or_digit {d : BitVec 32} (hd : d.toNat < 16) (hk : k < 16) (hlt : twoWords w w' < 16 ^ k) :
    (if 4 * k ≥ 32 then twoWords (w ||| d <<< (4 * k - 32)) w' else twoWords w (w' ||| d <<< (4 * k))) =
      twoWords w w' + d.toNat * 16 ^ k := by
  have hput {x : BitVec 32} {i : ℕ} (hi : i ≤ 28) (hx : x.toNat < 2 ^ i) : (x ||| d <<< i).toNat = x.toNat + d.toNat * 2 ^ i := by
    have hpow : 2 ^ i ≤ 2 ^ 28 := Nat.pow_le_pow_right (by norm_num) hi
    have hmul : d.toNat * 2 ^ i ≤ 15 * 2 ^ i := Nat.mul_le_mul_right _ (by omega)
    rw [BitVec.toNat_or, BitVec.toNat_shiftLeft, Nat.mod_eq_of_lt (by rw [Nat.shiftLeft_eq]; omega), Word.or_shiftLeft_eq hx]
  have hword := w'.isLt
  have hpow : (16 : ℕ) ^ k = 2 ^ (4 * k) := by rw [pow_mul]; norm_num
  rw [hpow] at hlt ⊢
  rw [twoWords] at hlt
  split_ifs with hhigh
  · have hsplit : 2 ^ (4 * k) = 2 ^ (4 * k - 32) * 2 ^ 32 := by rw [← pow_add, Nat.sub_add_cancel hhigh]
    rw [twoWords, hput (by omega) (by omega), twoWords, hsplit]
    ring
  · have hle : 2 ^ (4 * k) ≤ 2 ^ 32 := Nat.pow_le_pow_right (by norm_num) (by omega)
    rw [twoWords, hput (by omega) (by omega), twoWords]
    ring

/-- **The digits of a number are put into the two words**, from the lowest up. -/
theorem downLoop_spec {dest : BitVec 32} (hdest : dest.toNat < 10 ^ m) (hfit : k + m ≤ 16) (hlt : twoWords w w' < 16 ^ k) :
    twoWords (downLoop dest (4 * k) w w').1 (downLoop dest (4 * k) w w').2 =
      twoWords w w' + 16 ^ k * num 16 m fun j ↦ dest.toNat / 10 ^ j % 10 := by
  induction m generalizing dest k w w' with
  | zero =>
      obtain rfl : dest = 0 := BitVec.eq_of_toNat_eq (by rw [pow_zero] at hdest; exact Nat.lt_one_iff.mp hdest)
      rw [downLoop, if_neg (not_not.mpr rfl), num_zero, mul_zero, add_zero]
  | succ m ih =>
      rw [downLoop]
      by_cases hzero : dest = 0
      · have hnum : num 16 (m + 1) (fun j ↦ dest.toNat / 10 ^ j % 10) = 0 := (num_eq_zero (by norm_num)).mpr fun j _ ↦ by
          rw [hzero]
          simp
        rw [if_neg (not_not.mpr hzero), hnum, mul_zero, add_zero]
      · have hd : (dest % 10).toNat = dest.toNat % 10 := BitVec.toNat_umod ..
        have hten : (dest / 10).toNat = dest.toNat / 10 := BitVec.toNat_udiv ..
        have hor := @or_digit w w' k (dest % 10) (by omega) (by omega) hlt
        have hnum : num 16 (m + 1) (fun j ↦ dest.toNat / 10 ^ j % 10) =
            dest.toNat % 10 + 16 * num 16 m fun j ↦ (dest / 10).toNat / 10 ^ j % 10 := by
          rw [num_succ', pow_zero, Nat.div_one, hten]
          simp only [pow_succ', Nat.div_div_eq_div_mul]
        have hnext : (dest / 10).toNat < 10 ^ m := by
          rw [hten]
          rw [pow_succ] at hdest
          omega
        have hbelow : twoWords w w' + (dest % 10).toNat * 16 ^ k < 16 ^ (k + 1) := by
          have hmul : (dest % 10).toNat * 16 ^ k ≤ 9 * 16 ^ k := Nat.mul_le_mul_right _ (by omega)
          rw [pow_succ]
          omega
        rw [if_pos hzero, hnum, show 4 * k + 4 = 4 * (k + 1) by ring]
        split_ifs with hhigh
        · rw [if_pos hhigh] at hor
          rw [ih hnext (by omega) (by rwa [hor]), hor, hd, pow_succ]
          ring
        · rw [if_neg hhigh] at hor
          rw [ih hnext (by omega) (by rwa [hor]), hor, hd, pow_succ]
          ring

namespace Access

variable {c : Access} {t : Store} {addr1 reg1 : ℕ} {regs : ℕ → BitVec 32}

/-! ### Convert to Binary -/

/-- The test for a number that is too big. -/
lemma omaskl_iff (x : BitVec 64) : x &&& omaskl ≠ 0 ↔ 2 ^ 31 ≤ x.toNat := by
  have hmask : omaskl.toNat = (2 ^ 33 - 1) <<< 31 := by decide
  have hlt := x.isLt
  rw [ne_eq, ← BitVec.toNat_inj, BitVec.toNat_and, hmask, Word.and_shiftLeft, Nat.and_two_pow_sub_one_eq_mod,
    Nat.shiftRight_eq_div_pow, Nat.shiftLeft_eq]
  show ¬ _ = 0 ↔ _
  omega

/-- The number with its sign, as a word. -/
lemma word_signed (x : BitVec 64) (p : Prop) [Decidable p] :
    (if p then ~~~x + 1 else x).setWidth 32 = BitVec.ofInt 32 (signed p x.toNat) := by
  have hlt := x.isLt
  rw [signed, ← BitVec.toNat_inj, BitVec.toNat_setWidth, BitVec.toNat_ofInt]
  by_cases hp : p
  · have hone : (1 : BitVec 64).toNat = 1 := rfl
    rw [if_pos hp, if_pos (decide_eq_true hp), BitVec.toNat_add, BitVec.toNat_not, hone]
    omega
  · rw [if_neg hp, if_neg (by rwa [decide_eq_true_eq])]
    lia

/-- **What CVB has**: the lower bits of the number, and the exception for a magnitude of more than 2 to the 31st. -/
theorem cvb_spec (regs : ℕ → BitVec 32) (reg1 : ℕ) (hstor : addr1 % 8 = 0 ∨ c.stor) (hopen : c.Open s 0 addr1 8)
    (hvalid : c.Valid s.mem addr1 7) : ∃ t, Kept s t ∧ c.cvb regs reg1 addr1 s =
      (.ok (if 2 ^ 31 < c.magnitude s.mem addr1 7 then some ircFixdiv else none,
        Function.update regs reg1 (BitVec.ofInt 32 (c.packed s.mem addr1 7))), t) := by
  have hoff : addr1 &&& 7 = addr1 % 8 := Nat.and_two_pow_sub_one_eq_mod addr1 3
  rw [cvb, hoff, if_neg (by tauto)]
  rcases readFull_spec c s addr1 with ⟨-, w, u, hread, hkept, hfetched⟩ | ⟨hno, -⟩
  swap
  · exact absurd ⟨hstor.imp_left (by lia), fun i hi ↦ hopen i (by omega)⟩ hno
  rcases readFull_spec c u (addr1 + 4) with ⟨-, w', t, hread', hkept', hfetched'⟩ | ⟨hno, -⟩
  swap
  · refine absurd ⟨hstor.imp_left (by omega), fun i hi ↦ (allowed_congr hkept.key).mpr ?_⟩ hno
    rw [add_assoc]
    exact hopen (4 + i) (by omega)
  have hdouble : c.Doubleword s.mem addr1 w w' := by
    refine ⟨fun i hi ↦ (hfetched i hi).symm, fun i hi ↦ ?_⟩
    rw [hfetched' i hi, hkept.mem]
  have hsign : (w' &&& 0xf).toNat = c.nib s.mem addr1 7 0 := by
    rw [(nib_word hdouble (by norm_num)).1, ← digit_toNat w' 0]
    rfl
  have hupper (j : ℕ) (hj : j < 8) : w.toNat / 16 ^ (0 + j) % 16 = c.nib s.mem addr1 7 (7 + j + 1) := by
    rw [zero_add, ← (nib_word hdouble hj).2]
    congr 1
    omega
  have hlower (j : ℕ) (hj : j < 7) : w'.toNat / 16 ^ (1 + j) % 16 = c.nib s.mem addr1 7 (j + 1) := by
    rw [add_comm 1 j, ← (nib_word hdouble (by omega)).1]
  obtain ⟨r, hrun, hr⟩ := upLoop_spec (k := 0) (n := 8) (v := 0) (m := 0) (fun j hj ↦ by
    rw [hupper j hj]
    exact hvalid.1 (7 + j) (by omega)) (by decide) (by norm_num) t
  rw [num_congr hupper, show (0 : BitVec 64).toNat = 0 from rfl, zero_mul, zero_add] at hr
  have hrlt : r.toNat < 10 ^ 8 := by
    rw [hr]
    exact num_lt fun j hj ↦ Nat.lt_succ_iff.mpr (hvalid.1 (7 + j) (by lia))
  obtain ⟨q, hrun', hq⟩ := upLoop_spec (k := 1) (n := 7) (fun j hj ↦ by
    rw [hlower j hj]
    exact hvalid.1 j (by omega)) hrlt (by norm_num) t
  have hmagnitude : q.toNat = c.magnitude s.mem addr1 7 := by
    rw [hq, num_congr hlower, hr, magnitude, show 2 * 7 + 1 = 7 + 8 by norm_num, num_add]
    ring
  have hgood : ¬ w' &&& 0xf < 0xa := by
    rw [BitVec.lt_def, hsign]
    exact Nat.not_lt.mpr hvalid.2
  have hminus : (w' &&& 0xf = 0xb ∨ w' &&& 0xf = 0xd) ↔ (c.nib s.mem addr1 7 0 = 0xb ∨ c.nib s.mem addr1 7 0 = 0xd) := by
    rw [← hsign, ← BitVec.toNat_inj, ← BitVec.toNat_inj]
    rfl
  have hbig : (q &&& omaskl ≠ 0 ∧ q ≠ msign.setWidth 64) ↔ 2 ^ 31 < c.magnitude s.mem addr1 7 := by
    rw [omaskl_iff, ne_eq, ← BitVec.toNat_inj, hmagnitude]
    show _ ∧ ¬ _ = 2 ^ 31 ↔ _
    lia
  refine ⟨t, hkept.trans hkept', ?_⟩
  rw [Op.bind_of_ok hread, Op.bind_of_ok hread', if_neg hgood, Op.bind_of_ok hrun, Op.bind_of_ok hrun', word_signed,
    hmagnitude, packed, minus]
  simp only [hbig, hminus]
  rfl

/-- What CVB has to do: the number is delivered, and the exception is raised exactly for a number that does not fit in
a word. -/
def CvbRight (c : Access) (s : Store) (regs : ℕ → BitVec 32) (reg1 addr1 : ℕ) : Prop :=
  let x := c.packed s.mem addr1 7
  ∃ irc out t, c.cvb regs reg1 addr1 s = (.ok (irc, out), t) ∧ out reg1 = BitVec.ofInt 32 x ∧
    irc = (if -2 ^ 31 ≤ x ∧ x < 2 ^ 31 then none else some ircFixdiv) ∧ ∀ i ≠ reg1, out i = regs i

/-- A number that fits in a word. -/
lemma signed_fits (sign : Bool) (v : ℕ) : -2 ^ 31 ≤ signed sign v ∧ signed sign v < 2 ^ 31 ↔
    v ≤ 2 ^ 31 ∧ signed sign v ≠ 2 ^ 31 := by
  cases sign <;> simp only [signed] <;> lia

lemma cvbRight_iff (regs : ℕ → BitVec 32) (reg1 : ℕ) (hstor : addr1 % 8 = 0 ∨ c.stor) (hopen : c.Open s 0 addr1 8)
    (hvalid : c.Valid s.mem addr1 7) : c.CvbRight s regs reg1 addr1 ↔ c.packed s.mem addr1 7 ≠ 2 ^ 31 := by
  obtain ⟨t, -, hrun⟩ := cvb_spec regs reg1 hstor hopen hvalid
  have hfits := signed_fits (c.minus s.mem addr1 7) (c.magnitude s.mem addr1 7)
  have hsize : signed (c.minus s.mem addr1 7) (c.magnitude s.mem addr1 7) = 2 ^ 31 → c.magnitude s.mem addr1 7 = 2 ^ 31 := by
    cases c.minus s.mem addr1 7 <;> simp only [signed] <;> lia
  rw [CvbRight, hrun]
  rw [packed] at *
  constructor
  · rintro ⟨irc, out, t', heq, -, hirc, -⟩ hmax
    obtain ⟨hout, -⟩ := Prod.mk.inj heq
    obtain ⟨rfl, -⟩ := Prod.mk.inj (Except.ok.inj hout)
    rw [if_neg (by rw [hsize hmax]; omega), if_neg (by rw [hfits]; exact fun hand ↦ hand.2 hmax)] at hirc
    cases hirc
  · intro hne
    refine ⟨_, _, t, rfl, Function.update_self .., ?_, fun i hi ↦ Function.update_of_ne hi ..⟩
    split_ifs with hbig hfit hfit
    · exact absurd (hfits.mp hfit).1 (by omega)
    · rfl
    · rfl
    · exact absurd (hfits.mpr ⟨by omega, hne⟩) hfit

/-! ### Convert to Decimal -/

/-- The sign is put behind the digits. -/
lemma or_sign {code v : ℕ} (h : twoWords w w' = 16 * v) (hcode : code < 16) :
    twoWords w (w' ||| BitVec.ofNat 32 code) = code + 16 * v := by
  have hor : (w' ||| BitVec.ofNat 32 code).toNat = w'.toNat + code := by
    rw [twoWords] at h
    rw [BitVec.toNat_or, BitVec.toNat_ofNat, Nat.mod_eq_of_lt (by omega)]
    exact Word.or_eq_add (i := 4) (by omega) hcode
  rw [twoWords] at h ⊢
  lia

/-- The digits of a number, behind its sign. -/
lemma doubleword_packed {ascii sign : Bool} {v : ℕ} (h : c.Doubleword mem addr1 w w') (hv : v < 10 ^ 15)
    (hwords : twoWords w w' = signCode ascii sign + 16 * num 16 15 fun j ↦ v / 10 ^ j % 10) :
    c.Valid mem addr1 7 ∧ c.packed mem addr1 7 = signed sign v := by
  obtain ⟨hcode, hcode', -⟩ := signCode_spec ascii sign
  let f : ℕ → ℕ := fun j ↦ if j = 0 then signCode ascii sign else v / 10 ^ (j - 1) % 10
  have hlt (j : ℕ) : f j < 16 := by
    dsimp only [f]
    split_ifs <;> omega
  have hnum : twoWords w w' = num 16 16 f := by
    rw [hwords, num_succ' 16 15]
    rfl
  have hnib {j : ℕ} (hj : j < 16) : c.nib mem addr1 7 j = f j := by
    rw [nib_doubleword h hj, hnum]
    exact num_digit (fun i _ ↦ hlt i) hj
  have hdigit (j : ℕ) (hj : j < 15) : c.nib mem addr1 7 (j + 1) = v / 10 ^ j % 10 := hnib (by omega)
  have hsign : c.nib mem addr1 7 0 = signCode ascii sign := hnib (by norm_num)
  refine ⟨⟨fun j hj ↦ by rw [hdigit j hj]; lia, by rw [hsign]; exact hcode⟩, ?_⟩
  rw [packed, minus_of_code hsign, magnitude, num_congr hdigit, num_digits, Nat.mod_eq_of_lt hv]

/-- Both words are stored. -/
lemma stored_doubleword {u : Store} {w w' : BitVec 32} (hopen : c.Open s 1 addr1 8) (hfirst : c.Wrote s u addr1 4 (dataByte w))
    (hsecond : c.Wrote u t (addr1 + 4) 4 (dataByte w')) : c.Doubleword t.mem addr1 w w' := by
  refine ⟨fun i hi ↦ ?_, hsecond.bytes⟩
  rw [← hfirst.bytes i hi]
  refine hsecond.others _ fun j hj ↦ ?_
  rw [add_assoc]
  exact (loc_inj (hopen i (by omega)) (hopen (4 + j) (by omega)) (by omega) (by omega)).symm

/-- **What CVD stores**: the digits of the magnitude, and the sign. -/
theorem cvd_spec (ascii : Bool) (regs : ℕ → BitVec 32) (reg1 : ℕ) (hstor : addr1 % 8 = 0 ∨ c.stor)
    (hopen : c.Open s 1 addr1 8) : ∃ t, c.cvd ascii regs reg1 addr1 s = (.ok (), t) ∧ c.Open t 1 addr1 8 ∧
      c.Valid t.mem addr1 7 ∧ c.packed t.mem addr1 7 = (regs reg1).toInt := by
  have hoff : addr1 &&& 7 = addr1 % 8 := Nat.and_two_pow_sub_one_eq_mod addr1 3
  have hsize := neg_toNat (regs reg1)
  have hsign := negative_iff (regs reg1)
  rw [cvd, hoff, if_neg (by tauto)]
  dsimp only
  generalize (if regs reg1 &&& msign ≠ 0 then -regs reg1 else regs reg1) = dest at *
  have hlt := dest.isLt
  have hloop := @downLoop_spec 0 0 1 15 dest (by lia) (by norm_num) (by decide)
  generalize downLoop dest (4 * 1) 0 0 = out at hloop ⊢
  obtain ⟨w, w'⟩ := out
  dsimp only at hloop ⊢
  rw [show twoWords 0 0 = 0 from rfl, zero_add, pow_one] at hloop
  have hwords := or_sign hloop (signCode_spec ascii (decide (regs reg1 &&& msign ≠ 0))).2.1
  rcases writeFull_spec c s addr1 w with ⟨-, u, hwrite, hfirst⟩ | ⟨hno, -⟩
  swap
  · exact absurd ⟨hstor.imp_left (by lia), fun i hi ↦ hopen i (by lia)⟩ hno
  rcases writeFull_spec c u (addr1 + 4) (w' ||| BitVec.ofNat 32 (signCode ascii (decide (regs reg1 &&& msign ≠ 0)))) with
    ⟨-, t, hwrite', hsecond⟩ | ⟨hno, -⟩
  swap
  · refine absurd ⟨hstor.imp_left (by lia), fun i hi ↦ (allowed_congr hfirst.key).mpr ?_⟩ hno
    rw [add_assoc]
    exact hopen (4 + i) (by lia)
  obtain ⟨hvalid, hpacked⟩ := doubleword_packed (stored_doubleword hopen hfirst hsecond) (by lia) hwords
  refine ⟨t, by rw [Op.bind_of_ok hwrite, hwrite'], (hopen.congr hfirst.key).congr hsecond.key, hvalid, ?_⟩
  rw [hpacked, hsize, signed]
  simp only [hsign, decide_eq_true_eq]
  split_ifs <;> lia

/-- **CVD and CVB**: what CVD has stored is read again as it was, and CVB delivers every number and raises the exception
when it should, but for 2 to the 31st. -/
theorem convert_iff (c : Access) (s : Store) (regs : ℕ → BitVec 32) (reg1 addr1 : ℕ) (hstor : addr1 % 8 = 0 ∨ c.stor) :
    (c.Open s 1 addr1 8 → ∀ ascii, ∃ t, c.cvd ascii regs reg1 addr1 s = (.ok (), t) ∧ ∀ regs' reg2, ∃ u,
      c.cvb regs' reg2 addr1 t = (.ok (none, Function.update regs' reg2 (regs reg1)), u)) ∧
    (c.Open s 0 addr1 8 → c.Valid s.mem addr1 7 →
      (c.CvbRight s regs reg1 addr1 ↔ c.packed s.mem addr1 7 ≠ 2 ^ 31)) := by
  refine ⟨fun hopen ascii ↦ ?_, fun hopen hvalid ↦ cvbRight_iff regs reg1 hstor hopen hvalid⟩
  obtain ⟨t, hrun, hopen', hvalid, hpacked⟩ := cvd_spec ascii regs reg1 hstor hopen
  refine ⟨t, hrun, fun regs' reg2 ↦ ?_⟩
  obtain ⟨u, -, hcvb⟩ := cvb_spec regs' reg2 hstor hopen'.read hvalid
  have hrange : -2 ^ 31 ≤ (regs reg1).toInt ∧ (regs reg1).toInt < 2 ^ 31 :=
    ⟨BitVec.le_toInt _, BitVec.toInt_lt⟩
  have hfits : c.magnitude t.mem addr1 7 ≤ 2 ^ 31 := by
    rw [← hpacked, packed, signed_fits] at hrange
    exact hrange.1
  refine ⟨u, ?_⟩
  rw [hcvb, if_neg (by omega), hpacked, BitVec.ofInt_toInt]

/-- Minus 2 to the 31st. -/
theorem convert_iff_min : (∃ t, (plain 4096 rfl).cvd true (fun _ ↦ msign) 3 8 (firstWords 0 0) = (.ok (), t) ∧ ∀ regs' reg2,
      ∃ u, (plain 4096 rfl).cvb regs' reg2 8 t = (.ok (none, Function.update regs' reg2 msign), u)) ∧
    (plain 4096 rfl).CvbRight (firstWords 0x00000214 0x7483648d) (fun _ ↦ 0) 3 0 :=
  ⟨(convert_iff (plain 4096 rfl) (firstWords 0 0) (fun _ ↦ msign) 3 8 (.inl rfl)).1
      (plain_open rfl (by norm_num) (by norm_num)) true,
    ((convert_iff (plain 4096 rfl) (firstWords 0x00000214 0x7483648d) (fun _ ↦ 0) 3 0 (.inl rfl)).2
      (plain_open rfl (by norm_num) (by norm_num)) (by decide)).mpr (by decide)⟩

/-- **2 to the 31st** becomes minus 2 to the 31st, without the exception. -/
theorem convert_wrong : (plain 4096 rfl).Valid (firstWords 0x00000214 0x7483648c).mem 0 7 ∧
    (plain 4096 rfl).packed (firstWords 0x00000214 0x7483648c).mem 0 7 = 2 ^ 31 ∧
    ∃ t, (plain 4096 rfl).cvb (fun _ ↦ 0) 3 0 (firstWords 0x00000214 0x7483648c) =
      (.ok (none, Function.update (fun _ ↦ 0) 3 msign), t) ∧
    ¬ (plain 4096 rfl).CvbRight (firstWords 0x00000214 0x7483648c) (fun _ ↦ 0) 3 0 := by
  have hvalid : (plain 4096 rfl).Valid (firstWords 0x00000214 0x7483648c).mem 0 7 := by decide
  have hpacked : (plain 4096 rfl).packed (firstWords 0x00000214 0x7483648c).mem 0 7 = 2 ^ 31 := by decide
  have hmagnitude : (plain 4096 rfl).magnitude (firstWords 0x00000214 0x7483648c).mem 0 7 = 2 ^ 31 := by decide
  have hopen : (plain 4096 rfl).Open (firstWords 0x00000214 0x7483648c) 0 0 8 := plain_open rfl (by norm_num) (by norm_num)
  obtain ⟨t, -, hrun⟩ := cvb_spec (fun _ ↦ 0) 3 (.inl rfl) hopen hvalid
  refine ⟨hvalid, hpacked, t, ?_, fun hright ↦ (cvbRight_iff _ _ (.inl rfl) hopen hvalid).mp hright hpacked⟩
  rw [hrun, hmagnitude, hpacked]
  rfl

end Access

end Ka10Simh.Ibm360
