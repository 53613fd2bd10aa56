import Ka10Simh.B5500.Arith.Word
import Ka10Simh.B5500.CharMode.Transfer
import Ka10Simh.Lib.Digits
import Ka10Simh.Lib.Numeral
import Ka10Simh.Lib.PackedDecimal

/-!
The conversions between integers and decimal fields.

* `ocv`, `doubleLoop_spec`: an integer to the digits of a field, by doubling.
* `icv`, `halveLoop_spec`: the digits of a field to an integer, by halving.
* `fields_convert_iff`: the integers for which the true state tells whether the field holds them.
-/

namespace Ka10Simh.B5500

open Word Fields PackedDecimal

/-! ### The source -/

/-- A bit of `A` comes into the digits of `B`, which are doubled. -/
def doubleStep : ℕ × ℕ → ℕ × ℕ := fun (a, b) ↦
  let temp := (b + 0x33333333) % 2 ^ 64 &&& 0x88888888
  let b := b <<< 1 % 2 ^ 64
  let temp := temp >>> 1 ||| temp >>> 2
  let b := (b + temp) % 2 ^ 64
  let j := if a &&& round ≠ 0 then 1 else 0
  let a := bic a round
  ((a <<< 1) % 2 ^ 64, (b + j) % 2 ^ 64)

def doubleLoop : ℕ → ℕ × ℕ → ℕ × ℕ
  | 0, p => p
  | i + 1, p => doubleLoop i (doubleStep p)

/-- The digits of a word, from `i - 1` down, those below `field` to the destination. -/
def digitsLoop (f : Bool) (field word : ℕ) : ℕ → Cpu → Cpu
  | 0, s => s
  | i + 1, s =>
      let j := word >>> (i * 4) &&& 0xf
      if i ≥ field then digitsLoop f field word i (if j ≠ 0 then { s with msff := false } else s)
      else
        let j := if i = 0 ∧ f = true then j ||| 0o40 else j
        digitsLoop f field word i (nextDest false { putChar 0o77 j (fillDest s) with brof := true })

/-- `field & 07`, and 8 for zero. -/
def fieldLength (field : ℕ) : ℕ := if field &&& 0o7 = 0 then 8 else field &&& 0o7

/-- The source at the start of a word. -/
def wordSource (s : Cpu) : Cpu := if s.gh ≠ 0 then { s with gh := 0, ma := nextAddr s.ma, arof := false } else s

/-- The word in `A` to the destination. -/
def outputWord (field : ℕ) (s : Cpu) : Cpu :=
  let f := if s.a &&& mant = 0 then false else decide (s.a &&& msign ≠ 0)
  let b := (doubleLoop 39 (s.a &&& mant, 0)).2
  digitsLoop f field b 9 { s with ma := nextAddr s.ma, arof := false, msff := true, a := b, b := b }

/-- `OCV`. -/
def ocv (field : ℕ) (s : Cpu) : Cpu :=
  let s := wordSource (storeDest (adjustDest s))
  if field = 0 then s else outputWord (fieldLength field) (fillSrc s)

/-- The characters of a field in `B`, and whether the last one has the sign. -/
def collect (field : ℕ) (f : Bool) (s : Cpu) : Bool × Cpu :=
  if field = 0 then (f, s)
  else
    let s := fillSrc s
    let i := s.a >>> bitNumber (s.gh ||| 0o7)
    let s := { s with b := s.b <<< 4 % 2 ^ 64 ||| i &&& 0o17 }
    collect ((field - 1) &&& 0o7) (decide (i &&& 0o60 = 0o40)) (nextSrc false s)
termination_by field
decreasing_by
  have hle : (field - 1) &&& 0o7 ≤ field - 1 := Nat.and_le_left
  omega

/-- The lowest bit of the digits goes to `A`, and they are halved. -/
def halveStep : ℕ × ℕ → ℕ × ℕ := fun (a, b) ↦
  let a := a >>> 1
  let a := if b &&& 1 ≠ 0 then a ||| 1 <<< 27 else a
  let temp := b &&& 0x0011111110
  let temp := temp >>> 4 ||| temp >>> 3
  (a, (b >>> 1 + 2 ^ 64 - temp) % 2 ^ 64)

def halveLoop : ℕ → ℕ × ℕ → ℕ × ℕ
  | 0, p => p
  | field + 1, p => halveLoop field (halveStep p)

/-- The destination at the start of a word. -/
def wordDest (s : Cpu) : Cpu := if s.kv ≠ 0 then { s with kv := 0, s := nextAddr s.s } else s

/-- The digits in `B` to the destination. -/
def inputWord (f : Bool) (s : Cpu) : Cpu :=
  let a := (halveLoop 28 (0, s.b)).1
  let s := memoryCycle 0o12
    { s with a := if f = true ∧ a ≠ 0 then a ||| msign else a, b := (halveLoop 28 (0, s.b)).2 }
  { s with arof := false, s := nextAddr s.s }

/-- `ICV`. -/
def icv (field : ℕ) (s : Cpu) : Cpu :=
  let s := wordDest (storeDest (adjustSource s))
  if field = 0 then s
  else
    let (f, s) := collect field false { s with b := 0 }
    inputWord f s

/-! ### Binary to decimal -/

variable {s t : Cpu} {w x : ℕ → ℕ} {a d i k m n p v : ℕ} {f : Bool}

/-- The digits of a number, with what is above eight of them in binary. -/
def halfDecimal (v : ℕ) : ℕ := packed 8 (v % 10 ^ 8) + 16 ^ 8 * (v / 10 ^ 8)

lemma and_round_eq (ha : a < 2 ^ 39) : (if a &&& round ≠ 0 then 1 else 0) = a / 2 ^ 38 ∧ bic a round = a % 2 ^ 38 := by
  have hbit : a &&& round ≠ 0 ↔ a / 2 ^ 38 = 1 := by
    rw [show round = 2 ^ 38 from rfl, and_pow_ne_zero]
    lia
  constructor
  · split_ifs with h
    · exact (hbit.mp h).symm
    · have := mt hbit.mpr h
      lia
  · refine Nat.eq_of_testBit_eq fun j ↦ ?_
    rw [testBit_bic, show round = 2 ^ 38 from rfl, Nat.testBit_two_pow, Nat.testBit_mod_two_pow]
    by_cases hj : j < 38
    · simp [hj, show 38 ≠ j by omega]
    · by_cases h38 : j = 38
      · simp [h38]
      · have hzero : a.testBit j = false := Nat.testBit_lt_two_pow (ha.trans_le (Nat.pow_le_pow_right (by norm_num) (by omega)))
        simp [hzero]

/-- **One bit** comes into the digits. -/
theorem doubleStep_spec (ha : a < 2 ^ 39) (hv : v < 2 ^ 39) :
    doubleStep (a, halfDecimal v) = (2 * (a % 2 ^ 38), halfDecimal (2 * v + a / 2 ^ 38)) := by
  have hlt := packed_lt 8 (v % 10 ^ 8)
  have hdouble := @double_packed 8 (v % 10 ^ 8) (v / 10 ^ 8) (a / 2 ^ 38) (by omega) (Nat.mod_lt _ (by norm_num))
  dsimp only at hdouble
  have hthree : 3 * ones 8 = 0x33333333 := rfl
  have height : 8 * ones 8 = 0x88888888 := rfl
  rw [hthree, height, ← halfDecimal] at hdouble
  obtain ⟨hbit, hrest⟩ := and_round_eq ha
  have hsmall : halfDecimal v < 2 ^ 46 := by
    rw [halfDecimal]
    lia
  have hsame : packed 8 ((2 * (v % 10 ^ 8) + a / 2 ^ 38) % 10 ^ 8) +
      16 ^ 8 * (2 * (v / 10 ^ 8) + (2 * (v % 10 ^ 8) + a / 2 ^ 38) / 10 ^ 8) = halfDecimal (2 * v + a / 2 ^ 38) := by
    have hlow : (2 * v + a / 2 ^ 38) % 10 ^ 8 = (2 * (v % 10 ^ 8) + a / 2 ^ 38) % 10 ^ 8 := by lia
    have hhigh : (2 * v + a / 2 ^ 38) / 10 ^ 8 = 2 * (v / 10 ^ 8) + (2 * (v % 10 ^ 8) + a / 2 ^ 38) / 10 ^ 8 := by lia
    rw [halfDecimal, hlow, hhigh]
  rw [hsame] at hdouble
  have hnext : halfDecimal (2 * v + a / 2 ^ 38) < 2 ^ 47 := by
    have hlt' := packed_lt 8 ((2 * v + a / 2 ^ 38) % 10 ^ 8)
    rw [halfDecimal]
    lia
  rw [doubleStep, hbit, hrest, Nat.mod_eq_of_lt (show halfDecimal v + 0x33333333 < 2 ^ 64 by omega), Nat.shiftLeft_eq,
    Nat.shiftLeft_eq]
  generalize ((halfDecimal v + 0x33333333 &&& 0x88888888) >>> 1 ||| (halfDecimal v + 0x33333333 &&& 0x88888888) >>> 2) = temp at *
  rw [Prod.mk.injEq]
  constructor <;> lia

/-- **The bits of a word come in**, the highest first. -/
theorem doubleLoop_spec (ha : a < 2 ^ 39) (hi : i ≤ 39) (hv : v < 2 ^ (39 - i)) :
    (doubleLoop i (a, halfDecimal v)).2 = halfDecimal (v * 2 ^ i + a / 2 ^ (39 - i)) := by
  induction i generalizing a v with
  | zero => rw [doubleLoop, pow_zero, mul_one, Nat.div_eq_of_lt ha]; rfl
  | succ i ih =>
      have hpow : 2 ^ (39 - i) = 2 * 2 ^ (39 - (i + 1)) := by
        rw [← pow_succ']
        congr 1
        lia
      have hv' : v < 2 ^ 39 := hv.trans_le (Nat.pow_le_pow_right (by norm_num) (by omega))
      rw [doubleLoop, doubleStep_spec ha hv']
      rw [ih (by omega) (by omega) (by omega)]
      have htop : a / 2 ^ (39 - (i + 1)) = a / 2 ^ 38 * 2 ^ i + a % 2 ^ 38 / 2 ^ (39 - (i + 1)) := by
        have hsplit : 2 ^ 38 = 2 ^ (39 - (i + 1)) * 2 ^ i := by
          rw [← pow_add]
          congr 1
          omega
        conv_lhs => rw [← Nat.div_add_mod a (2 ^ 38)]
        rw [hsplit, mul_assoc, Nat.mul_add_div (by positivity), mul_comm (2 ^ i)]
      have hrest : 2 * (a % 2 ^ 38) / 2 ^ (39 - i) = a % 2 ^ 38 / 2 ^ (39 - (i + 1)) := by
        rw [hpow, Nat.mul_div_mul_left _ _ (by norm_num)]
      rw [hrest, htop, pow_succ]
      congr 1
      ring

/-- The digits of a word of 39 bits. -/
lemma doubleLoop_word (ha : a < 2 ^ 39) : (doubleLoop 39 (a, 0)).2 = halfDecimal a := by
  have hrun := @doubleLoop_spec a 39 0 ha le_rfl (by norm_num)
  have hzero : halfDecimal 0 = 0 := by
    rw [halfDecimal, Nat.zero_mod, packed_zero, Nat.zero_div, Nat.mul_zero]
  rw [hzero] at hrun
  rw [hrun]
  simp

/-- A digit of it: above eight of them the lowest four bits. -/
lemma halfDecimal_digit (hi : i < 8) (v : ℕ) : halfDecimal v >>> (i * 4) &&& 0xf = v / 10 ^ i % 10 := by
  have hpow : 2 ^ (i * 4) = 16 ^ i := by
    rw [mul_comm, pow_mul]
    norm_num
  have hsplit : 16 ^ 8 * (v / 10 ^ 8) = 16 ^ i * (16 * (16 ^ (7 - i) * (v / 10 ^ 8))) := by
    rw [← mul_assoc, ← mul_assoc, ← pow_succ, ← pow_add]
    congr 2
    omega
  have hdigit := packed_digit hi (v % 10 ^ 8)
  have hten : v % 10 ^ 8 / 10 ^ i % 10 = v / 10 ^ i % 10 := by
    have hmul : 10 ^ 8 = 10 ^ i * (10 * 10 ^ (7 - i)) := by
      rw [← pow_succ', ← pow_add]
      congr 1
      omega
    rw [hmul, Nat.mod_mul_right_div_self, Nat.mod_mul_right_mod]
  rw [show (0xf : ℕ) = 2 ^ 4 - 1 from rfl, Nat.and_two_pow_sub_one_eq_mod, Nat.shiftRight_eq_div_pow, hpow, halfDecimal, hsplit,
    Nat.add_mul_div_left _ _ (by positivity), Nat.add_mul_mod_self_left, hdigit, hten]

lemma halfDecimal_above (v : ℕ) : halfDecimal v >>> (8 * 4) &&& 0xf = v / 10 ^ 8 % 16 := by
  have hlt := packed_lt 8 (v % 10 ^ 8)
  rw [show (0xf : ℕ) = 2 ^ 4 - 1 from rfl, Nat.and_two_pow_sub_one_eq_mod, Nat.shiftRight_eq_div_pow, halfDecimal]
  omega

/-- The digits from `n` on, with the four bits above, are zero. -/
lemma digits_zero_iff (hn : n ≤ 8) (v : ℕ) :
    (∀ i, n ≤ i → i < 9 → halfDecimal v >>> (i * 4) &&& 0xf = 0) ↔ v % 10 ^ 8 < 10 ^ n ∧ v / 10 ^ 8 % 16 = 0 := by
  have hlow : v % 10 ^ 8 < 10 ^ n ↔ ∀ j < 8 - n, v / 10 ^ (n + j) % 10 = 0 := by
    have hdigit (i : ℕ) (_ : i < n) : v / 10 ^ i % 10 < 10 := Nat.mod_lt _ (by norm_num)
    have hdiv := Numeral.num_div hdigit (8 - n)
    rw [Nat.add_sub_cancel' hn, Numeral.num_digits] at hdiv
    rw [← Nat.div_eq_zero_iff_lt (by positivity), hdiv, Numeral.num_eq_zero (by norm_num)]
  rw [hlow]
  constructor
  · intro h
    refine ⟨fun j hj ↦ ?_, by rw [← halfDecimal_above]; exact h 8 hn (by norm_num)⟩
    rw [← halfDecimal_digit (by omega)]
    exact h (n + j) (by omega) (by omega)
  · rintro ⟨h, habove⟩ i hni hi
    by_cases h8 : i = 8
    · rw [h8, halfDecimal_above, habove]
    · have hj := h (i - n) (by lia)
      rw [Nat.add_sub_cancel' hni] at hj
      rw [halfDecimal_digit (by omega), hj]

/-! ### The digits of a field -/

/-- The character of the digit `i` of a number, with the sign in the last one. -/
def digitChar (f : Bool) (v i : ℕ) : ℕ := v / 10 ^ i % 10 + if i = 0 ∧ f = true then 32 else 0

lemma digitChar_lt (f : Bool) (v i : ℕ) : digitChar f v i < 64 := by
  rw [digitChar]
  split_ifs <;> omega

lemma or_sign (h : i < 8) (v : ℕ) : (if i = 0 ∧ f = true then halfDecimal v >>> (i * 4) &&& 0xf ||| 0o40
    else halfDecimal v >>> (i * 4) &&& 0xf) = digitChar f v i := by
  rw [halfDecimal_digit h, digitChar]
  have hdigit : v / 10 ^ i % 10 < 10 := Nat.mod_lt _ (by norm_num)
  split_ifs
  · exact @or_shiftLeft_eq _ 1 5 (by omega)
  · rfl

/-- What is above the field goes into the true state. -/
lemma digitsLoop_above (f : Bool) (n v k : ℕ) (s : Cpu) : digitsLoop f n v (n + k) s =
    digitsLoop f n v n { s with msff := s.msff && decide (∀ j < k, v >>> ((n + j) * 4) &&& 0xf = 0) } := by
  induction k generalizing s with
  | zero => simp
  | succ k ih =>
      have hall : (∀ j < k + 1, v >>> ((n + j) * 4) &&& 0xf = 0) ↔
          (∀ j < k, v >>> ((n + j) * 4) &&& 0xf = 0) ∧ v >>> ((n + k) * 4) &&& 0xf = 0 := Nat.forall_lt_succ_right
      rw [← add_assoc, digitsLoop]
      dsimp only
      rw [if_pos (Nat.le_add_right n k), ih]
      by_cases hzero : v >>> ((n + k) * 4) &&& 0xf = 0
      · rw [if_neg (not_not.mpr hzero), decide_eq_decide.mpr (hall.trans (and_iff_left hzero))]
      · rw [if_pos hzero, decide_eq_false fun h ↦ hzero (hall.mp h).2]
        simp

/-- **The digits of the field** come to the destination. -/
theorem digitsLoop_spec (hd : Dest s w d) (hi : i ≤ n) (hn : n ≤ 8) (hpass : ∀ j < i, s.Passes (string.place (d + j))) :
    Dest (digitsLoop f n (halfDecimal v) i s) (string.puts d ((List.range i).map fun j ↦ digitChar f v (i - 1 - j)) w) (d + i) ∧
      (digitsLoop f n (halfDecimal v) i s).msff = s.msff := by
  induction i generalizing s w d with
  | zero => exact ⟨hd, rfl⟩
  | succ i ih =>
      obtain ⟨hd₁, hb₁, -, hmoves₁⟩ := hd.fill (hpass 0 i.succ_pos)
      obtain ⟨hd₂, hmoves₂⟩ := hd₁.putChar hb₁ (show 0o77 < 64 by norm_num) (digitChar_lt f v i)
      rw [(char_parts (get_lt d w)).2.1, Nat.zero_or] at hd₂
      have hb₂ : { putChar 0o77 (digitChar f v i) (fillDest s) with brof := true } = putChar 0o77 (digitChar f v i) (fillDest s) := by
        rw [putChar, hb₁]
      obtain ⟨hd₃, hmoves₃⟩ := hd₂.next
      have hmoves := hmoves₁.moves.trans (hmoves₂.moves.trans hmoves₃.moves)
      have hmsff : (nextDest false (putChar 0o77 (digitChar f v i) (fillDest s))).msff = s.msff := by
        obtain ⟨_, _, _, _, _, h₁⟩ := hmoves₁
        obtain ⟨_, _, _, _, _, h₂⟩ := hmoves₂
        obtain ⟨_, _, _, _, _, h₃⟩ := hmoves₃
        rw [h₃, h₂, h₁]
      obtain ⟨hdest, htrue⟩ := ih hd₃ (by omega) fun j hj ↦ by
        rw [hmoves.passes, show d + 1 + j = d + (j + 1) by omega]
        exact hpass (j + 1) (by omega)
      rw [digitsLoop]
      dsimp only
      rw [if_neg (by omega), or_sign (by omega), hb₂, puts_range]
      rw [show d + 1 + i = d + (i + 1) by omega] at hdest
      refine ⟨?_, htrue.trans hmsff⟩
      have hsame : (fun j ↦ digitChar f v (i + 1 - 1 - (j + 1))) = fun j ↦ digitChar f v (i - 1 - j) := by
        funext j
        congr 1
        lia
      rw [hsame]
      exact hdest

/-! ### Output convert -/

lemma fieldLength_range (field : ℕ) : 1 ≤ fieldLength field ∧ fieldLength field ≤ 8 := by
  have hlt : field &&& 0o7 < 2 ^ 3 := Nat.and_lt_two_pow _ (by norm_num)
  rw [fieldLength]
  split_ifs <;> omega

/-- Where the operand of `OCV` is, and the operand. -/
def Cpu.operandAddr (s : Cpu) : Addr := if s.gh ≠ 0 then nextAddr s.ma else s.ma
def Cpu.operand (s : Cpu) : ℕ := if s.gh ≠ 0 then s.words (nextAddr s.ma) else s.sourceWords s.ma

/-- An operand that is below zero. -/
def minus (o : ℕ) : Bool := negative o && decide (mantissa o ≠ 0)

/-- **The word in `A`** comes to a field of `n` characters. -/
theorem outputWord_spec (hd : Dest s w d) (hb : s.brof = false) (hn : n ≤ 8) (hpass : ∀ j < n, s.Passes (string.place (d + j))) :
    Dest (outputWord n s) (string.puts d ((List.range n).map fun j ↦ digitChar (minus s.a) (mantissa s.a) (n - 1 - j)) w) (d + n) ∧
      ((outputWord n s).msff = true ↔ mantissa s.a % 10 ^ 8 < 10 ^ n ∧ mantissa s.a / 10 ^ 8 % 16 = 0) := by
  have hsign : (if s.a &&& mant = 0 then false else decide (s.a &&& msign ≠ 0)) = minus s.a := by
    rw [minus, negative, mantissa]
    split_ifs with h <;> simp [h]
  have hword : (doubleLoop 39 (s.a &&& mant, 0)).2 = halfDecimal (mantissa s.a) := doubleLoop_word (mantissa_lt s.a)
  have hwords : w = s.mem := by rw [← hd.words, Cpu.words, if_neg (by rw [hb]; decide)]
  rw [outputWord, hsign, hword, show 9 = n + (9 - n) by omega]
  rw [digitsLoop_above]
  generalize hu : ({ s with
    a := halfDecimal (mantissa s.a), arof := false, ma := nextAddr s.ma, b := halfDecimal (mantissa s.a)
    msff := true && decide (∀ j < 9 - n, halfDecimal (mantissa s.a) >>> ((n + j) * 4) &&& 0xf = 0) } : Cpu) = u
  have hdu : Dest u w d := by
    rw [← hu]
    refine ⟨hd.addr, hd.kv, ?_, fun h ↦ absurd h (by rw [hb]; decide)⟩
    rw [Cpu.words, if_neg (by rw [hb]; decide), hwords]
  have hpass' (j : ℕ) (hj : j < n) : u.Passes (string.place (d + j)) := by
    rw [← hu]
    exact hpass j hj
  obtain ⟨hdest, htrue⟩ := digitsLoop_spec (f := minus s.a) (v := mantissa s.a) hdu le_rfl hn hpass'
  refine ⟨hdest, ?_⟩
  rw [htrue, ← hu, Bool.true_and, decide_eq_true_iff, ← digits_zero_iff hn]
  constructor
  · intro h i hni hi
    have hj := h (i - n) (by omega)
    rwa [Nat.add_sub_cancel' hni] at hj
  · exact fun h j hj ↦ h (n + j) (by omega) (by omega)

/-- **Output convert**: the field has the digits of the operand, with the sign, and the true state tells of the digits above it, and of
four bits above eight digits. -/
theorem ocv_spec {field : ℕ} (hkv : s.kv < 64) (hheld : s.Held) (hfield : field ≠ 0) (hoperand : s.Passes s.operandAddr)
    (hpass : ∀ j < fieldLength field, s.Passes (string.place (s.dest + j))) :
    ∃ w, Dest (ocv field s) w (s.dest + fieldLength field) ∧
      Written s.words w s.dest (fieldLength field)
        (fun j ↦ digitChar (minus s.operand) (mantissa s.operand) (fieldLength field - 1 - j)) ∧
      ((ocv field s).msff = true ↔ mantissa s.operand % 10 ^ 8 < 10 ^ fieldLength field ∧ mantissa s.operand / 10 ^ 8 % 16 = 0) := by
  obtain ⟨hlow, hhigh⟩ := fieldLength_range field
  obtain ⟨hd, hmoves⟩ := adjustDest_dest hkv hheld
  rw [ocv]
  rw [if_neg hfield]
  generalize fieldLength field = n at *
  -- the operand comes to `A`
  have hstore : storeDest (adjustDest s) = { adjustDest s with mem := s.words, brof := false } := by rw [storeDest_eq hd.held, hd.words]
  obtain ⟨mem, b, brof, kv, addr, hadjust⟩ := hmoves
  generalize hu : wordSource (storeDest (adjustDest s)) = u
  have hu' : u.ma = s.operandAddr ∧ u.sourceWords s.operandAddr = s.operand ∧ u.brof = false ∧ u.mem = s.words ∧ u.kv = kv ∧
      u.s = addr ∧ ∀ a, u.Passes a ↔ s.Passes a := by
    rw [← hu, hstore, hadjust, wordSource, Cpu.operandAddr, Cpu.operand]
    dsimp only
    split_ifs <;> refine ⟨rfl, ?_, rfl, rfl, rfl, rfl, fun _ ↦ Iff.rfl⟩ <;> (rw [Cpu.sourceWords]; rfl)
  obtain ⟨huma, huword, hub, humem, hukv, hus, hupass⟩ := hu'
  have hwords : u.words = u.mem := by rw [Cpu.words, if_neg (by rw [hub]; decide)]
  have hfill : fillSrc u = { u with a := s.operand, arof := true } := by
    rw [fillSrc_eq ((hupass _).mpr (huma ▸ hoperand)) (by rw [hwords]), huma, huword]
  rw [hfill]
  have hdu : Dest { u with a := s.operand, arof := true } s.words s.dest := by
    rw [hadjust] at hd
    refine ⟨by rw [← hd.addr, ← hus], by rw [← hd.kv, ← hukv], ?_, fun h ↦ absurd h (by rw [hub]; decide)⟩
    show u.words = s.words
    rw [hwords, humem]
  have hpass' (j : ℕ) (hj : j < n) : ({ u with a := s.operand, arof := true } : Cpu).Passes (string.place (s.dest + j)) :=
    (hupass _).mpr (hpass j hj)
  have hword : ({ u with a := s.operand, arof := true } : Cpu).a = s.operand := rfl
  have hunheld : ({ u with a := s.operand, arof := true } : Cpu).brof = false := hub
  generalize ({ u with a := s.operand, arof := true } : Cpu) = t at *
  obtain ⟨hdest, htrue⟩ := outputWord_spec hdu hunheld hhigh hpass'
  rw [hword] at hdest htrue
  exact ⟨_, hdest, written_puts (by omega) fun j _ ↦ digitChar_lt _ _ _, htrue⟩

/-! ### Decimal to binary -/

/-- **The digits are halved**, and the bit that falls out goes to the top of the 28 bits of `A`. -/
theorem halveStep_spec (ha : a < 2 ^ 28) (hv : v < 10 ^ 8) :
    halveStep (a, packed 8 v) = (a / 2 + v % 2 * 2 ^ 27, packed 8 (v / 2)) := by
  obtain ⟨hhalf, hbit⟩ := halve_packed (n := 7) hv
  have hmask : 16 * ones 7 = 0x11111110 := by decide
  have hseven : 7 + 1 = 8 := rfl
  rw [hmask, hseven] at hhalf
  rw [hseven] at hbit
  have hlt := packed_lt 8 v
  have hnext := packed_lt 8 (v / 2)
  have hone : packed 8 v &&& 1 ≠ 0 ↔ v % 2 = 1 := by
    rw [Nat.and_one_is_mod, hbit]
    lia
  have htop : (if packed 8 v &&& 1 ≠ 0 then a >>> 1 ||| 1 <<< 27 else a >>> 1) = a / 2 + v % 2 * 2 ^ 27 := by
    rw [Nat.shiftRight_eq_div_pow, pow_one]
    split_ifs with h
    · rw [or_shiftLeft_eq (by omega), hone.mp h]
    · have := mt hone.mpr h
      lia
  rw [halveStep, htop, hhalf]
  generalize ((packed 8 v &&& 0x0011111110) >>> 4 ||| (packed 8 v &&& 0x0011111110) >>> 3) = temp at *
  rw [Prod.mk.injEq]
  constructor <;> lia

/-- **The number** comes to the 28 bits, from the lowest bit up. -/
theorem halveLoop_spec (ha : a < 2 ^ 28) (hk : k ≤ 28) (hv : v < 10 ^ 8) :
    (halveLoop k (a, packed 8 v)).1 = a / 2 ^ k + v % 2 ^ k * 2 ^ (28 - k) := by
  induction k generalizing a v with
  | zero => rw [halveLoop, pow_zero, Nat.div_one, Nat.mod_one, Nat.zero_mul, Nat.add_zero]
  | succ k ih =>
      have hhalf : (a / 2 + v % 2 * 2 ^ 27) / 2 ^ k = a / 2 ^ (k + 1) + v % 2 * 2 ^ (27 - k) := by
        have hsplit : 2 ^ 27 = 2 ^ k * 2 ^ (27 - k) := by
          rw [← pow_add]
          congr 1
          omega
        rw [hsplit, mul_left_comm, Nat.add_mul_div_left _ _ (by positivity), Nat.div_div_eq_div_mul, ← pow_succ']
      have hmod : v % 2 ^ (k + 1) = v % 2 + 2 * (v / 2 % 2 ^ k) := by
        rw [pow_succ', Nat.mod_mul]
      have hpow : 2 ^ (28 - k) = 2 * 2 ^ (28 - (k + 1)) := by
        rw [← pow_succ']
        congr 1
        lia
      rw [halveLoop, halveStep_spec ha hv, ih (by lia) (by omega) (by lia), hhalf, hmod, hpow,
        show 28 - (k + 1) = 27 - k by lia]
      ring

lemma halveLoop_word (hv : v < 10 ^ 8) : (halveLoop 28 (0, packed 8 v)).1 = v := by
  rw [halveLoop_spec (by norm_num) le_rfl hv, Nat.zero_div, Nat.mod_eq_of_lt (by omega)]
  simp

/-- The number of the digits of a field, from the first one on. -/
def fieldValue (x : ℕ → ℕ) (n : ℕ) : ℕ := Digits.read 10 0 ((List.range n).map fun i ↦ x i % 16)

/-- Another digit comes in from the right. -/
lemma packed_digit_in (hv : v < 10 ^ 7) (hd : d < 10) : packed 8 v <<< 4 % 2 ^ 64 ||| d = packed 8 (v * 10 + d) := by
  have hlt := packed_lt 7 v
  rw [packed_extend hv (by norm_num), packed_succ 7, show (v * 10 + d) % 10 = d by omega, show (v * 10 + d) / 10 = v by omega,
    Nat.mod_eq_of_lt (by rw [Nat.shiftLeft_eq]; omega), shiftLeft_or_eq (by omega)]
  ring

/-- The lowest bits of a character of the source, when its word is in `A`. -/
lemma Source.low_bits (h : Source s x p (n + 1)) (hgh : t.gh = s.gh) (ha : t.a = s.sourceWords (string.place p)) (hm : 63 &&& m = m) :
    t.a >>> bitNumber (t.gh ||| 0o7) &&& m = x 0 &&& m := by
  have hp := h.gh
  have hbit : bitNumber (t.gh ||| 0o7) = string.pos p := by
    rw [bitNumber_char (by lia), hgh]
    dsimp only [string]
    lia
  rw [← h.head, hbit, Layout.get, ha, extract, Nat.and_assoc]
  exact congrArg _ hm.symm

/-- A word comes in, a digit goes to `B`, and the next character is taken. -/
lemma SourceMoves.collected {u v x : Cpu} {m w : ℕ} (h : SourceMoves s u) (hv : { u with b := m } = v)
    (h' : SourceMoves v x) (h'' : SourceMoves { x with b := w } t) : SourceMoves { s with b := w } t := by
  obtain ⟨_, _, _, _, rfl⟩ := h
  subst hv
  obtain ⟨_, _, _, _, rfl⟩ := h'
  obtain ⟨_, _, _, _, rfl⟩ := h''
  exact ⟨_, _, _, _, rfl⟩

/-- A character is collected, of which the digit is `d` and the zone `e`. -/
lemma collect_char {e : ℕ} (hn : n < 8) (hd : (fillSrc s).a >>> bitNumber ((fillSrc s).gh ||| 0o7) &&& 0o17 = d)
    (he : (fillSrc s).a >>> bitNumber ((fillSrc s).gh ||| 0o7) &&& 0o60 = e) :
    collect (n + 1) f s
      = collect n (decide (e = 0o40)) (nextSrc false { fillSrc s with b := (fillSrc s).b <<< 4 % 2 ^ 64 ||| d }) := by
  have hmod : n + 1 - 1 &&& 0o7 = n := by
    rw [show (0o7 : ℕ) = 2 ^ 3 - 1 from rfl, Nat.and_two_pow_sub_one_eq_mod]
    lia
  rw [collect, if_neg n.succ_ne_zero]
  dsimp only
  rw [hmod, hd, he]

/-- **The characters of the field** are collected. -/
theorem collect_spec (hp : Source s x p n) (hn : n ≤ 8) (hb : s.brof = false) (hB : s.b = packed 8 v) (hv : v < 10 ^ (8 - n))
    (hx : ∀ i < n, x i < 64 ∧ x i % 16 < 10) (hpass : ∀ i < n, s.Passes (string.place (p + i))) :
    ∃ t, collect n f s = (if n = 0 then f else decide (x (n - 1) &&& 0o60 = 0o40), t) ∧ SourceAt t (p + n) ∧
      t.b = packed 8 (Digits.read 10 v ((List.range n).map fun i ↦ x i % 16)) ∧
      Digits.read 10 v ((List.range n).map fun i ↦ x i % 16) < 10 ^ 8 ∧ SourceMoves { s with b := t.b } t := by
  induction n generalizing s x p v f with
  | zero =>
      rw [collect, if_pos rfl]
      exact ⟨s, rfl, hp.toSourceAt, hB, hv, _, _, _, _, rfl⟩
  | succ n ih =>
      have hwords : s.words = s.mem := by rw [Cpu.words, if_neg (by rw [hb]; decide)]
      obtain ⟨hp₁, ha₁, hmoves₁⟩ := hp.fill (hpass 0 n.succ_pos) (by rw [hwords])
      have hgh₁ : (fillSrc s).gh = s.gh := hp₁.gh.trans hp.gh.symm
      have hmoves_fill := hmoves₁
      obtain ⟨a, arof, gh, ma, hfill⟩ := hmoves₁
      obtain ⟨hx0, hdigit⟩ := hx 0 n.succ_pos
      have hpow : 10 ^ (8 - n) = 10 * 10 ^ (8 - (n + 1)) := by
        rw [← pow_succ']
        congr 1
        lia
      have hv7 : v < 10 ^ 7 := hv.trans_le (Nat.pow_le_pow_right (by norm_num) (by omega))
      have hb₁ : (fillSrc s).b = packed 8 v := by rw [hfill]; exact hB
      have hd := hp.low_bits hgh₁ ha₁ (m := 0o17) (by decide)
      rw [(char_parts hx0).2.2.1] at hd
      rw [collect_char (by omega) hd (hp.low_bits hgh₁ ha₁ (by decide)), hb₁, packed_digit_in hv7 hdigit]
      generalize hu : ({ fillSrc s with b := packed 8 (v * 10 + x 0 % 16) } : Cpu) = u
      have hub : u.brof = false := by
        rw [← hu, hfill]
        exact hb
      have hp₂ : Source u x p (n + 1) := by
        refine hp₁.of_dest ⟨(fillSrc s).mem, u.b, (fillSrc s).brof, (fillSrc s).kv, (fillSrc s).s, ?_⟩ fun i _ ↦ ?_
        · rw [← hu]
        · have hb' : (fillSrc s).brof = false := by
            rw [hfill]
            exact hb
          rw [Cpu.words, if_neg (by rw [hub]; decide), Cpu.words, if_neg (by rw [hb']; decide), ← hu]
      obtain ⟨hp₃, hmoves₃⟩ := hp₂.next (by omega)
      have hmoves_next := hmoves₃
      obtain ⟨a', arof', gh', ma', hnext⟩ := hmoves₃
      obtain ⟨t, hrun, hat, htb, hlt, hmoves⟩ := @ih (nextSrc false u) (fun i ↦ x (i + 1)) (p + 1) (v * 10 + x 0 % 16)
        (decide (x 0 &&& 0o60 = 0o40)) hp₃ (by omega) (by rw [hnext]; exact hub) (by rw [hnext, ← hu]) (by lia)
        (fun i hi ↦ hx (i + 1) (by omega)) fun i hi ↦ by
          rw [hnext, ← hu, hfill, show p + 1 + i = p + (i + 1) by lia]
          exact hpass (i + 1) (by omega)
      refine ⟨t, ?_, ?_, ?_, ?_, ?_⟩
      · rw [hrun, if_neg n.succ_ne_zero]
        cases n with
        | zero => rfl
        | succ n => rfl
      · rw [show p + (n + 1) = p + 1 + n by lia]
        exact hat
      · rw [htb, List.range_succ_eq_map, List.map_cons, List.map_map]
        rfl
      · rw [List.range_succ_eq_map, List.map_cons, List.map_map]
        exact hlt
      · exact hmoves_fill.collected hu hmoves_next hmoves

/-! ### Input convert -/

/-- All the characters of a field are collected once. -/
lemma collect_field {field : ℕ} (h : field ≠ 0) (f : Bool) (s : Cpu) : collect field f s = collect (fieldLength field) f s := by
  obtain ⟨hlow, hhigh⟩ := fieldLength_range field
  have hrest : field - 1 &&& 0o7 = fieldLength field - 1 &&& 0o7 := by
    have hmod (k : ℕ) : k &&& 0o7 = k % 2 ^ 3 := Nat.and_two_pow_sub_one_eq_mod k 3
    rw [fieldLength, hmod, hmod, hmod]
    split_ifs <;> lia
  conv_lhs => rw [collect, if_neg h, hrest]
  conv_rhs => rw [collect, if_neg (Nat.ne_of_gt hlow)]

/-- The word of an integer. -/
def integerWord (f : Bool) (m : ℕ) : ℕ := m + if f = true ∧ m ≠ 0 then msign else 0

/-- Where the result of `ICV` goes. -/
def Cpu.resultAddr (s : Cpu) : Addr := if s.kv ≠ 0 then nextAddr s.s else s.s

lemma wordDest_eq (s : Cpu) : wordDest s = { s with kv := 0, s := s.resultAddr } := by
  rw [wordDest, Cpu.resultAddr]
  split_ifs with h
  · rfl
  · have hkv : s.kv = 0 := not_not.mp h
    cases s
    dsimp only at hkv
    subst hkv
    rfl

/-- The sign of a field, from its last character. -/
def fieldMinus (x : ℕ → ℕ) (n : ℕ) : Bool := decide (x (n - 1) &&& 0o60 = 0o40)

/-- The characters of the source. -/
def Cpu.sourceChars (s : Cpu) (i : ℕ) : ℕ := string.get (s.source + i) s.sourceWords

/-- **The digits in `B`** come to the destination. -/
theorem inputWord_spec (hb : s.brof = false) (hB : s.b = packed 8 v) (hv : v < 10 ^ 8) (hpass : s.Passes s.s) :
    (inputWord f s).words = Function.update s.mem s.s (integerWord f v) ∧ (inputWord f s).s = nextAddr s.s ∧
      (inputWord f s).ma = s.ma ∧ (inputWord f s).gh = s.gh := by
  have hword : (if f = true ∧ v ≠ 0 then v ||| msign else v) = integerWord f v := by
    rw [integerWord]
    split_ifs
    · exact @or_shiftLeft_eq v 1 46 (by omega)
    · rfl
  rw [inputWord, hB, halveLoop_word hv]
  dsimp only
  rw [hword, @cycle_storeA { s with a := integerWord f v, b := (halveLoop 28 (0, packed 8 v)).2 } hpass]
  refine ⟨?_, rfl, rfl, rfl⟩
  rw [Cpu.words]
  exact if_neg (by rw [hb]; decide)

/-- **Input convert**: the word has the integer of the field. -/
theorem icv_spec {field : ℕ} (hgh : s.gh < 64) (hheld : s.Held) (hfield : field ≠ 0) (hresult : s.Passes s.resultAddr)
    (hpass : ∀ i < fieldLength field, s.Passes (string.place (s.source + i)))
    (hdigits : ∀ i < fieldLength field, s.sourceChars i % 16 < 10) :
    (icv field s).words = Function.update s.words s.resultAddr
        (integerWord (fieldMinus s.sourceChars (fieldLength field)) (fieldValue s.sourceChars (fieldLength field))) ∧
      (icv field s).s = nextAddr s.resultAddr ∧ SourceAt (icv field s) (s.source + fieldLength field) := by
  obtain ⟨hlow, hhigh⟩ := fieldLength_range field
  obtain ⟨hp, hmoves⟩ := @adjustSource_source s (fieldLength field) hgh (by omega)
  obtain ⟨a, arof, gh, ma, hadjust⟩ := hmoves
  have hheld' : (adjustSource s).Held := by
    rw [hadjust]
    exact hheld
  have hwords : (adjustSource s).words = s.words := by
    rw [hadjust]
    rfl
  generalize hu : ({ wordDest (storeDest (adjustSource s)) with b := 0 } : Cpu) = u
  have hu' : u = { adjustSource s with mem := s.words, b := 0, brof := false, kv := 0, s := s.resultAddr } := by
    rw [← hu, storeDest_eq hheld', hwords, wordDest_eq, hadjust]
    rfl
  have hub : u.brof = false := by rw [hu']
  have huwords : u.words = s.words := by rw [Cpu.words, if_neg (by rw [hub]; decide), hu']
  have hp' : Source u s.sourceChars s.source (fieldLength field) := by
    refine hp.of_dest ⟨_, _, _, _, _, hu'⟩ fun i _ ↦ ?_
    rw [huwords, hwords]
  obtain ⟨t, hrun, hat, htb, hlt, hmoves⟩ := @collect_spec u s.sourceChars (fieldLength field) s.source 0 false hp' hhigh hub
    (by rw [hu', packed_zero]) (by positivity) (fun i hi ↦ ⟨get_lt _ _, hdigits i hi⟩) fun i hi ↦ by
      rw [hu', hadjust]
      exact hpass i hi
  obtain ⟨a', arof', gh', ma', ht⟩ := hmoves
  have htmem : t.mem = s.words ∧ t.s = s.resultAddr ∧ t.brof = false := by
    rw [ht, hu']
    exact ⟨rfl, rfl, rfl⟩
  have htpass : t.Passes t.s := by
    rw [htmem.2.1, ht, hu', hadjust]
    exact hresult
  rw [icv]
  dsimp only
  rw [if_neg hfield, hu, collect_field hfield, hrun, if_neg (by omega)]
  dsimp only
  obtain ⟨hmem, hnext, hma, hghs⟩ := @inputWord_spec t _ (decide (s.sourceChars (fieldLength field - 1) &&& 0o60 = 0o40))
    htmem.2.2 htb hlt htpass
  rw [htmem.1, htmem.2.1] at hmem
  exact ⟨hmem, by rw [hnext, htmem.2.1], ⟨by rw [hma, hat.addr], by rw [hghs, hat.gh]⟩⟩

/-! ### There and back -/

/-- The digits of a number are read again. -/
lemma read_digits (hn : m < 10 ^ n) : fieldValue (fun i ↦ digitChar f m (n - 1 - i)) n = m := by
  have hread (k v : ℕ) : Digits.read 10 v ((List.range k).map fun i ↦ m / 10 ^ (k - 1 - i) % 10) = v * 10 ^ k + m % 10 ^ k := by
    induction k generalizing v with
    | zero => simp [Digits.read, Nat.mod_one]
    | succ k ih =>
        have htail : ((List.range k).map fun i ↦ m / 10 ^ (k + 1 - 1 - (i + 1)) % 10) =
            (List.range k).map fun i ↦ m / 10 ^ (k - 1 - i) % 10 := by
          refine List.map_congr_left fun i _ ↦ ?_
          rw [show k + 1 - 1 - (i + 1) = k - 1 - i by lia]
        rw [List.range_succ_eq_map, List.map_cons, List.map_map]
        show Digits.read 10 (v * 10 + m / 10 ^ k % 10) ((List.range k).map fun i ↦ m / 10 ^ (k + 1 - 1 - (i + 1)) % 10) = _
        rw [htail, ih, pow_succ, Nat.mod_mul]
        ring
  have hdigits : ((List.range n).map fun i ↦ digitChar f m (n - 1 - i) % 16) =
      (List.range n).map fun i ↦ m / 10 ^ (n - 1 - i) % 10 := by
    refine List.map_congr_left fun i _ ↦ ?_
    rw [digitChar]
    split_ifs <;> lia
  rw [fieldValue, hdigits, hread, Nat.zero_mul, Nat.zero_add, Nat.mod_eq_of_lt hn]

lemma fieldMinus_digits : fieldMinus (fun i ↦ digitChar f m (n - 1 - i)) n = f := by
  have hlt := digitChar_lt f m 0
  rw [fieldMinus, Nat.sub_self, (char_parts hlt).2.2.2.1, digitChar]
  cases f with
  | false =>
      rw [if_neg fun h ↦ absurd h.2 Bool.false_ne_true]
      exact decide_eq_false (by omega)
  | true =>
      rw [if_pos ⟨rfl, rfl⟩]
      exact decide_eq_true (by lia)

lemma fieldValue_congr {y : ℕ → ℕ} (h : ∀ i < n, x i = y i) : fieldValue x n = fieldValue y n := by
  rw [fieldValue, fieldValue]
  congr 1
  exact List.map_congr_left fun i hi ↦ by rw [h i (List.mem_range.mp hi)]

/-- The words that `OCV` and `ICV` come to are let pass. -/
def OcvClear (field : ℕ) (s : Cpu) : Prop :=
  s.kv < 64 ∧ s.Held ∧ s.Passes s.operandAddr ∧ ∀ j < fieldLength field, s.Passes (string.place (s.dest + j))
def IcvClear (field : ℕ) (s : Cpu) : Prop :=
  s.gh < 64 ∧ s.Held ∧ s.Passes s.resultAddr ∧ ∀ i < fieldLength field, s.Passes (string.place (s.source + i))

/-- `OCV` is right: the field has the lowest digits and the sign, no other bit changes, and the true state tells whether the operand has
no more digits than the field. -/
def OcvRight (field : ℕ) (s : Cpu) : Prop :=
  ∃ w, Dest (ocv field s) w (s.dest + fieldLength field) ∧
    Written s.words w s.dest (fieldLength field)
      (fun j ↦ digitChar (minus s.operand) (mantissa s.operand) (fieldLength field - 1 - j)) ∧
    ((ocv field s).msff = true ↔ mantissa s.operand < 10 ^ fieldLength field)

/-- `ICV` is right: the word has the integer of the field, and no other one changes. -/
def IcvRight (field : ℕ) (s : Cpu) : Prop :=
  (icv field s).words = Function.update s.words s.resultAddr
      (integerWord (fieldMinus s.sourceChars (fieldLength field)) (fieldValue s.sourceChars (fieldLength field))) ∧
    (icv field s).s = nextAddr s.resultAddr ∧ SourceAt (icv field s) (s.source + fieldLength field)

/-- **Output convert is right** unless the digits above the field are zero and those above eight digits are a multiple of sixteen. -/
theorem ocvRight_iff {field : ℕ} (hfield : field ≠ 0) (hclear : OcvClear field s) :
    OcvRight field s ↔ mantissa s.operand < 10 ^ fieldLength field ∨
      10 ^ fieldLength field ≤ mantissa s.operand % 10 ^ 8 ∨ mantissa s.operand / 10 ^ 8 % 16 ≠ 0 := by
  obtain ⟨hlow, hhigh⟩ := fieldLength_range field
  obtain ⟨hkv, hheld, hoperand, hpass⟩ := hclear
  obtain ⟨w, hdest, hwritten, htrue⟩ := ocv_spec hkv hheld hfield hoperand hpass
  have hpow : 10 ^ fieldLength field ≤ 10 ^ 8 := Nat.pow_le_pow_right (by norm_num) hhigh
  constructor
  · rintro ⟨-, -, -, hright⟩
    rw [htrue] at hright
    by_contra hno
    rw [not_or, not_or, not_lt, not_le, not_not] at hno
    exact absurd (hright.mp hno.2) (not_lt.mpr hno.1)
  · intro h
    refine ⟨w, hdest, hwritten, htrue.trans ⟨fun hsmall ↦ ?_, fun hfits ↦ ?_⟩⟩
    · rcases h with hfits | hlarge | habove
      · exact hfits
      · exact absurd hsmall.1 (not_lt.mpr hlarge)
      · exact absurd hsmall.2 habove
    · rw [Nat.mod_eq_of_lt (hfits.trans_le hpow), Nat.div_eq_of_lt (hfits.trans_le hpow)]
      exact ⟨hfits, rfl⟩

/-- **There and back**: an operand that fits is given back. -/
theorem icv_ocv {field : ℕ} (hfield : field ≠ 0) (hs : OcvClear field s) (ht : IcvClear field t)
    (hfits : mantissa s.operand < 10 ^ fieldLength field)
    (hword : s.operand = mantissa s.operand + (if negative s.operand then msign else 0))
    (hsame : ∀ i < fieldLength field, t.sourceChars i = string.get (s.dest + i) (ocv field s).words) :
    ∃ o, (icv field t).words = Function.update t.words t.resultAddr o ∧ (mantissa s.operand ≠ 0 → o = s.operand) ∧
      (mantissa s.operand = 0 → o = 0) := by
  obtain ⟨hlow, hhigh⟩ := fieldLength_range field
  obtain ⟨hkv, hheld, hoperand, hpass⟩ := hs
  obtain ⟨hgh, hheld', hresult, hpass'⟩ := ht
  obtain ⟨w, hdest, hwritten, -⟩ := ocv_spec hkv hheld hfield hoperand hpass
  have hchars (i : ℕ) (hi : i < fieldLength field) :
      t.sourceChars i = digitChar (minus s.operand) (mantissa s.operand) (fieldLength field - 1 - i) := by
    rw [hsame i hi, hdest.words, hwritten.chars i hi]
  obtain ⟨hresult', -, -⟩ := icv_spec hgh hheld' hfield hresult hpass' fun i hi ↦ by
    rw [hchars i hi, digitChar]
    split_ifs <;> lia
  have hminus : fieldMinus t.sourceChars (fieldLength field) = minus s.operand := by
    rw [← fieldMinus_digits (f := minus s.operand) (m := mantissa s.operand) (n := fieldLength field), fieldMinus, fieldMinus,
      hchars _ (by omega)]
  rw [hminus, fieldValue_congr hchars, read_digits hfits] at hresult'
  refine ⟨_, hresult', fun hne ↦ ?_, fun hzero ↦ ?_⟩
  · rw [integerWord, minus, decide_eq_true hne, Bool.and_true]
    conv_rhs => rw [hword]
    congr 1
    exact if_congr (and_iff_left hne) rfl rfl
  · rw [integerWord, hzero, if_neg fun h ↦ h.2 rfl]

/-- **Conversions**: input convert is right, it gives an operand back that output convert has written and that fits, and output convert is
right unless the digits above the field are zero and those above eight digits are a multiple of sixteen. -/
theorem fields_convert_iff (field : ℕ) (hfield : field ≠ 0) :
    (∀ s, OcvClear field s → (OcvRight field s ↔ (mantissa s.operand < 10 ^ fieldLength field ∨
      10 ^ fieldLength field ≤ mantissa s.operand % 10 ^ 8 ∨ mantissa s.operand / 10 ^ 8 % 16 ≠ 0))) ∧
    (∀ s, IcvClear field s → (∀ i < fieldLength field, s.sourceChars i % 16 < 10) → IcvRight field s) ∧
    ∀ s t, OcvClear field s → IcvClear field t → mantissa s.operand < 10 ^ fieldLength field →
      s.operand = mantissa s.operand + (if negative s.operand then msign else 0) →
      (∀ i < fieldLength field, t.sourceChars i = string.get (s.dest + i) (ocv field s).words) →
      ∃ o, (icv field t).words = Function.update t.words t.resultAddr o ∧ (mantissa s.operand ≠ 0 → o = s.operand) ∧
        (mantissa s.operand = 0 → o = 0) :=
  ⟨fun _ hclear ↦ ocvRight_iff hfield hclear,
    fun _ ⟨hgh, hheld, hresult, hpass⟩ hdigits ↦ icv_spec hgh hheld hfield hresult hpass hdigits,
    fun _ _ hs ht hfits hword hsame ↦ icv_ocv hfield hs ht hfits hword hsame⟩

/-- A word to be converted. -/
def converting (o : ℕ) : Cpu :=
  { fullStack with
    arof := false, brof := false, ncsf := false, ma := toAddr 0o2000, s := toAddr 0o3000
    mem := fun addr ↦ if addr = 0o2000 then o else 0 }

lemma converting_clear (o : ℕ) : OcvClear 8 (converting o) :=
  ⟨show (0 : ℕ) < 64 by decide, fun hb ↦ absurd hb Bool.false_ne_true,
    show (converting 0).Passes (converting 0).operandAddr by decide,
    show ∀ j < fieldLength 8, (converting 0).Passes (string.place ((converting 0).dest + j)) by decide⟩

/-- The number fits. -/
theorem fields_convert_iff_fits : OcvRight 8 (converting 12345678) :=
  ((fields_convert_iff 8 (by decide)).1 _ (converting_clear _)).mpr (.inl (by decide))

/-- It does not, but the true state says so. -/
theorem ocv_wrong : ¬ ∀ field s, field ≠ 0 → OcvClear field s → OcvRight field s := fun h ↦ by
  have hright := (ocvRight_iff (by decide) (converting_clear 1600000000)).mp (h 8 (converting 1600000000) (by decide) (converting_clear _))
  revert hright
  decide

end Ka10Simh.B5500
