import Ka10Simh.Lib.Numeral
import Ka10Simh.Ibm360.Unaligned

/-!
Packed decimal operands: two digits in a byte, and the sign in the last half byte.

* `Access.decLoad`, `Access.decStore`: the source. Digits are kept from the lowest up, behind the sign.
* `Access.nib`, `Access.Valid`, `Access.magnitude`, `Access.minus`: an operand in the storage.
* `decLoad_spec`, `decStore_spec`: what is loaded is the operand, and what is stored is loaded again.
* `adjust`, `pass_spec`: the addition of digits.
-/

namespace Ka10Simh.Ibm360

open Numeral

/-- `IRC_DATA`. -/
abbrev ircData : ℕ := 7
/-- `IRC_DECOVR`, `IRC_DECDIV`. -/
abbrev ircDecovr : ℕ := 10
abbrev ircDecdiv : ℕ := 11

/-- What a decimal instruction leaves beside the storage: the condition code, and an exception after it is done. -/
structure Decimal where
  cc : ℕ
  irc : Option ℕ

/-- A number with a sign. -/
def signed (sign : Bool) (v : ℕ) : ℤ := if sign then -v else v

namespace Access

variable (c : Access)

/-! ### The source -/

/-- The bytes of `dec_load`, from the last to the first: `n` are left, and `j` digits are there. -/
def loadLoop : ℕ → ℕ → ℕ → (ℕ → ℕ) → Bool → Op ((ℕ → ℕ) × Bool)
  | 0, _, _, data, err => pure (data, err)
  | n + 1, addr, j, data, err => do
      let temp ← c.readByte addr
      let t := (temp &&& 0xf).toNat
      let err := err || j ≠ 0 && t > 0x9
      let data := Function.update data j t
      let t := (temp >>> 4 &&& 0xf).toNat
      let err := err || t > 0x9
      let data := Function.update data (j + 1) t
      loadLoop n (addr - 1) (j + 2) data err

/-- `dec_load`. -/
def decLoad (addr len : ℕ) : Op ((ℕ → ℕ) × Bool) := do
  let (data, err) ← c.loadLoop (len + 1) (addr + len) 0 (fun _ ↦ 0) false
  let sign := data 0 = 0xb ∨ data 0 = 0xd
  let err := err || data 0 < 0xa
  if err then Op.fail ircData else return (data, sign)

/-- The bytes of `dec_store`, from the last to the first. -/
def storeLoop : ℕ → ℕ → ℕ → (ℕ → ℕ) → Op Unit
  | 0, _, _, _ => pure ()
  | n + 1, addr, j, data => do
      let temp := data j &&& 0xf ||| (data (j + 1) &&& 0xf) <<< 4
      c.writeByte addr (BitVec.ofNat 32 temp)
      storeLoop n (addr - 1) (j + 2) data

/-- The code of a sign. -/
def signCode (ascii sign : Bool) : ℕ := if sign then (if ascii then 0xb else 0xd) else if ascii then 0xa else 0xc

/-- `dec_store`. -/
def decStore (ascii : Bool) (data : ℕ → ℕ) (addr len : ℕ) (sign : Bool) : Op Unit :=
  c.storeLoop (len + 1) (addr + len) 0 (Function.update data 0 (signCode ascii sign))

/-! ### Operands -/

/-- A half byte of an operand of `len + 1` bytes, from the right. -/
def nib (mem : ℕ → BitVec 32) (addr len j : ℕ) : ℕ :=
  (byteAt mem (c.loc (addr + (len - j / 2)))).toNat / 16 ^ (j % 2) % 16

/-- The digits are digits and the sign is a sign. -/
def Valid (mem : ℕ → BitVec 32) (addr len : ℕ) : Prop :=
  (∀ j < 2 * len + 1, c.nib mem addr len (j + 1) ≤ 9) ∧ 10 ≤ c.nib mem addr len 0

instance (mem : ℕ → BitVec 32) (addr len : ℕ) : Decidable (c.Valid mem addr len) :=
  inferInstanceAs (Decidable ((∀ j < 2 * len + 1, _) ∧ _))

/-- The absolute value of an operand. -/
def magnitude (mem : ℕ → BitVec 32) (addr len : ℕ) : ℕ := num 10 (2 * len + 1) fun j ↦ c.nib mem addr len (j + 1)

/-- The sign of an operand. -/
def minus (mem : ℕ → BitVec 32) (addr len : ℕ) : Bool := c.nib mem addr len 0 = 0xb ∨ c.nib mem addr len 0 = 0xd

/-- The value of an operand. -/
def packed (mem : ℕ → BitVec 32) (addr len : ℕ) : ℤ := signed (c.minus mem addr len) (c.magnitude mem addr len)

/-- The array that `dec_load` leaves. -/
def digits (mem : ℕ → BitVec 32) (addr len j : ℕ) : ℕ := if j < 2 * (len + 1) then c.nib mem addr len j else 0

variable {c} {s t : Store} {mem : ℕ → BitVec 32} {addr len : ℕ}

/-- The digits of an operand that is valid. -/
lemma digits_le (h : c.Valid mem addr len) (k : ℕ) : c.digits mem addr len (1 + k) ≤ 9 := by
  rw [digits]
  split_ifs with hk
  · rw [add_comm]
    exact h.1 k (by omega)
  · exact Nat.zero_le 9

/-- More digits have the same value. -/
lemma num_digits_eq (c : Access) (mem : ℕ → BitVec 32) (addr : ℕ) {n : ℕ} (h : 2 * len + 1 ≤ n) :
    num 10 n (fun k ↦ c.digits mem addr len (1 + k)) = c.magnitude mem addr len := by
  obtain ⟨m, rfl⟩ := Nat.exists_eq_add_of_le h
  rw [num_extend (fun i hi ↦ by rw [digits, if_neg (by omega)]), magnitude]
  refine num_congr fun i hi ↦ ?_
  rw [digits, if_pos (by omega), add_comm]

lemma magnitude_lt (h : c.Valid mem addr len) {n : ℕ} (hn : 2 * len + 1 ≤ n) : c.magnitude mem addr len < 10 ^ n :=
  (num_lt fun j hj ↦ Nat.lt_succ_iff.mpr (h.1 j hj)).trans_le (Nat.pow_le_pow_right (by norm_num) hn)

lemma nib_lt (c : Access) (mem : ℕ → BitVec 32) (addr len j : ℕ) : c.nib mem addr len j < 16 := Nat.mod_lt _ (by norm_num)

/-- The two halves of a byte. -/
lemma low_half (b : BitVec 8) : (b.setWidth 32 &&& 0xf).toNat = b.toNat % 16 := by
  rw [BitVec.toNat_and, BitVec.toNat_setWidth, Nat.mod_eq_of_lt (by have := b.isLt; omega)]
  exact Nat.and_two_pow_sub_one_eq_mod _ 4

lemma high_half (b : BitVec 8) : (b.setWidth 32 >>> 4 &&& 0xf).toNat = b.toNat / 16 % 16 := by
  rw [BitVec.toNat_and, BitVec.toNat_ushiftRight, BitVec.toNat_setWidth, Nat.mod_eq_of_lt (by have := b.isLt; omega),
    Nat.shiftRight_eq_div_pow]
  exact Nat.and_two_pow_sub_one_eq_mod _ 4

lemma nib_even (c : Access) (mem : ℕ → BitVec 32) (addr : ℕ) {len i : ℕ} (hi : i ≤ len) :
    c.nib mem addr len (2 * (len - i)) = (byteAt mem (c.loc (addr + i))).toNat % 16 := by
  rw [nib, show len - 2 * (len - i) / 2 = i by omega, show 2 * (len - i) % 2 = 0 by omega, pow_zero, Nat.div_one]

lemma nib_odd (c : Access) (mem : ℕ → BitVec 32) (addr : ℕ) {len i : ℕ} (hi : i ≤ len) :
    c.nib mem addr len (2 * (len - i) + 1) = (byteAt mem (c.loc (addr + i))).toNat / 16 % 16 := by
  rw [nib, show len - (2 * (len - i) + 1) / 2 = i by omega, show (2 * (len - i) + 1) % 2 = 1 by omega, pow_one]

/-! ### Loading -/

/-- The digits from `j` on are loaded. -/
structure Loaded (c : Access) (mem : ℕ → BitVec 32) (addr len j : ℕ) (data : ℕ → ℕ) (err : Bool) (out : (ℕ → ℕ) × Bool) :
    Prop where
  old : ∀ k, k < j ∨ 2 * (len + 1) ≤ k → out.1 k = data k
  new : ∀ k, j ≤ k → k < 2 * (len + 1) → out.1 k = c.nib mem addr len k
  err : out.2 = true ↔ err = true ∨ ∃ k, j ≤ k ∧ k < 2 * (len + 1) ∧ k ≠ 0 ∧ 9 < c.nib mem addr len k

/-- The bytes that are left are loaded, or one of them cannot be read. -/
lemma loadLoop_spec (c : Access) {n j : ℕ} (hn : n ≤ len + 1) (hj : j = 2 * (len + 1 - n)) (data : ℕ → ℕ) (err : Bool) :
    c.Open s 0 addr n ∧ (∃ out t, c.loadLoop n (addr + n - 1) j data err s = (.ok out, t) ∧ Kept s t ∧
      c.Loaded s.mem addr len j data err out) ∨
    ¬ c.Open s 0 addr n ∧ ∃ e t, c.loadLoop n (addr + n - 1) j data err s = (.error e, t) ∧ Kept s t := by
  induction n generalizing data err s j with
  | zero =>
      refine .inl ⟨fun i hi ↦ absurd hi (Nat.not_lt_zero i), _, s, rfl, Kept.refl s, fun k _ ↦ rfl, fun k hk hk' ↦ by lia, ?_⟩
      refine (or_iff_left ?_).symm
      rintro ⟨k, hk, hk', -⟩
      omega
  | succ n ih =>
      rw [loadLoop]
      rcases readByte_spec c s (addr + (n + 1) - 1) with ⟨hallowed, u, hread, hkept⟩ | ⟨hallowed, e, hread⟩
      · rw [Op.bind_of_ok hread, low_half, high_half]
        have hlow := @nib_even c s.mem addr len n (by omega)
        have hhigh := @nib_odd c s.mem addr len n (by omega)
        rw [show 2 * (len - n) = j by lia] at hlow hhigh
        rw [show addr + (n + 1) - 1 = addr + n by lia] at hallowed ⊢
        rw [← hlow, ← hhigh]
        have hopen : c.Open u 0 addr n ↔ c.Open s 0 addr (n + 1) := by
          constructor
          · intro h i hi
            rcases Nat.lt_succ_iff_lt_or_eq.mp hi with hlt | rfl
            · exact (allowed_congr hkept.key).mp (h i hlt)
            · exact hallowed
          · intro h i hi
            exact (allowed_congr hkept.key).mpr (h i (by omega))
        rcases ih (s := u) (j := j + 2) (by omega) (by lia)
          (Function.update (Function.update data j (c.nib s.mem addr len j)) (j + 1) (c.nib s.mem addr len (j + 1)))
          (err || j ≠ 0 && c.nib s.mem addr len j > 0x9 || c.nib s.mem addr len (j + 1) > 0x9) with
          ⟨hrest, out, t, hrun, hkept', hold, hnew, herr⟩ | ⟨hrest, e, t, hrun, hkept'⟩
        · rw [hkept.mem] at hnew herr
          refine .inl ⟨hopen.mp hrest, out, t, hrun, hkept.trans hkept', fun k hk ↦ ?_, fun k hk hk' ↦ ?_, ?_⟩
          · rw [hold k (by omega), Function.update_of_ne (by omega), Function.update_of_ne (by omega)]
          · rcases (by lia : k = j ∨ k = j + 1 ∨ j + 2 ≤ k) with rfl | rfl | hk2
            · rw [hold _ (by omega), Function.update_of_ne (by omega), Function.update_self]
            · rw [hold _ (by omega), Function.update_self]
            · exact hnew k hk2 hk'
          · rw [herr]
            simp only [Bool.or_eq_true, Bool.and_eq_true, decide_eq_true_eq, gt_iff_lt, ne_eq]
            constructor
            · rintro (((h | ⟨h0, h⟩) | h) | ⟨k, hk, h⟩)
              · exact .inl h
              · exact .inr ⟨j, le_rfl, by omega, h0, h⟩
              · exact .inr ⟨j + 1, by omega, by omega, by omega, h⟩
              · exact .inr ⟨k, by omega, h⟩
            · rintro (h | ⟨k, hk, hk', h0, h⟩)
              · exact .inl (.inl (.inl h))
              · rcases (by lia : k = j ∨ k = j + 1 ∨ j + 2 ≤ k) with rfl | rfl | hk2
                · exact .inl (.inl (.inr ⟨h0, h⟩))
                · exact .inl (.inr h)
                · exact .inr ⟨k, hk2, hk', h0, h⟩
        · exact .inr ⟨mt hopen.mpr hrest, e, t, hrun, hkept.trans hkept'⟩
      · exact .inr ⟨fun h ↦ hallowed (h n (Nat.lt_succ_self n)), e, s, Op.bind_of_error hread, Kept.refl s⟩

/-- **`dec_load`** has the digits and the sign of an operand that is valid, or reports an exception. -/
theorem decLoad_spec (c : Access) (s : Store) (addr len : ℕ) :
    (c.Open s 0 addr (len + 1) ∧ c.Valid s.mem addr len) ∧
      (∃ t, c.decLoad addr len s = (.ok (c.digits s.mem addr len, c.minus s.mem addr len), t) ∧ Kept s t) ∨
    ¬ (c.Open s 0 addr (len + 1) ∧ c.Valid s.mem addr len) ∧ ∃ e t, c.decLoad addr len s = (.error e, t) ∧ Kept s t ∧
      (c.Open s 0 addr (len + 1) → e = ircData) := by
  rw [decLoad]
  rcases @loadLoop_spec s addr len c (len + 1) 0 le_rfl (by lia) (fun _ ↦ 0) false with
    ⟨hopen, out, t, hrun, hkept, hold, hnew, herr⟩ | ⟨hopen, e, t, hrun, hkept⟩
  · rw [show addr + len = addr + (len + 1) - 1 by lia, Op.bind_of_ok hrun]
    have hdata : out.1 = c.digits s.mem addr len := by
      funext k
      rw [digits]
      split_ifs with hk
      · exact hnew k (Nat.zero_le k) hk
      · exact hold k (by omega)
    have hfirst : out.1 0 = c.nib s.mem addr len 0 := hnew 0 le_rfl (by omega)
    have hvalid : (out.2 || decide (out.1 0 < 0xa)) = true ↔ ¬ c.Valid s.mem addr len := by
      rw [Bool.or_eq_true, herr, hfirst, decide_eq_true_eq, Valid, not_and_or, not_forall]
      constructor
      · rintro ((h | ⟨k, -, hk, h0, h⟩) | h)
        · cases h
        · refine .inl ⟨k - 1, fun hle ↦ ?_⟩
          have hdigit := hle (by omega)
          rw [Nat.sub_add_cancel (by lia)] at hdigit
          omega
        · exact .inr (by omega)
      · rintro (⟨k, hk⟩ | h)
        · rw [Classical.not_imp] at hk
          exact .inl (.inr ⟨k + 1, by omega, by omega, by omega, by omega⟩)
        · exact .inr (by omega)
    obtain ⟨data, err⟩ := out
    dsimp only at hdata hfirst hvalid ⊢
    by_cases hbad : c.Valid s.mem addr len
    · rw [if_neg (mt hvalid.mp (not_not.mpr hbad)), hdata]
      refine .inl ⟨⟨hopen, hbad⟩, t, ?_, hkept⟩
      rw [minus, digits, if_pos (by omega)]
      rfl
    · rw [if_pos (hvalid.mpr hbad)]
      exact .inr ⟨fun hand ↦ hbad hand.2, ircData, t, rfl, hkept, fun _ ↦ rfl⟩
  · rw [show addr + len = addr + (len + 1) - 1 by lia]
    exact .inr ⟨fun hand ↦ hopen hand.1, e, t, Op.bind_of_error hrun, hkept, fun h ↦ absurd h hopen⟩

/-! ### Storing -/

/-- Addresses of an operand have different real addresses. -/
lemma loc_inj {i j : ℕ} (hi : c.Allowed s 1 (addr + i)) (hj : c.Allowed s 1 (addr + j)) (hlt : i < j) (hj' : j < 2048) :
    c.loc (addr + i) ≠ c.loc (addr + j) := by
  have hmod := loc_mod hi
  have hmod' := loc_mod hj
  omega

/-- Two digits in a byte. -/
lemma pack_byte (x y : ℕ) :
    ((BitVec.ofNat 32 (x &&& 0xf ||| (y &&& 0xf) <<< 4)).extractLsb' 0 8).toNat = x % 16 + y % 16 * 16 := by
  have hx : x &&& 0xf = x % 16 := Nat.and_two_pow_sub_one_eq_mod x 4
  have hy : y &&& 0xf = y % 16 := Nat.and_two_pow_sub_one_eq_mod y 4
  have hor : x % 16 ||| (y % 16) <<< 4 = x % 16 + y % 16 * 16 := Word.or_shiftLeft_eq (i := 4) (Nat.mod_lt x (by norm_num))
  rw [hx, hy, hor, BitVec.extractLsb'_toNat, BitVec.toNat_ofNat,
    Nat.shiftRight_zero]
  lia

/-- The digits of an operand are stored, and nothing else changes. -/
structure Stored (c : Access) (s t : Store) (addr len : ℕ) (data : ℕ → ℕ) : Prop where
  nib : ∀ k < 2 * (len + 1), c.nib t.mem addr len k = data k % 16
  others : ∀ p, (∀ i ≤ len, c.loc (addr + i) ≠ p) → byteAt t.mem p = byteAt s.mem p
  key : ∀ b, t.key b &&& 0xf8 = s.key b &&& 0xf8

lemma storeLoop_spec {n j : ℕ} (hlen : len < 2048) (hn : n ≤ len + 1) (hj : j = 2 * (len + 1 - n)) (data : ℕ → ℕ)
    (hopen : c.Open s 1 addr n) : ∃ t, c.storeLoop n (addr + n - 1) j data s = (.ok (), t) ∧
      (∀ k, j ≤ k → k < 2 * (len + 1) → c.nib t.mem addr len k = data k % 16) ∧
      (∀ p, (∀ i < n, c.loc (addr + i) ≠ p) → byteAt t.mem p = byteAt s.mem p) ∧ ∀ b, t.key b &&& 0xf8 = s.key b &&& 0xf8 := by
  induction n generalizing s j with
  | zero => exact ⟨s, rfl, fun k hk hk' ↦ by lia, fun p _ ↦ rfl, fun _ ↦ rfl⟩
  | succ n ih =>
      rw [storeLoop, show addr + (n + 1) - 1 = addr + n by lia]
      rcases writeByte_spec c s (addr + n) (BitVec.ofNat 32 (data j &&& 0xf ||| (data (j + 1) &&& 0xf) <<< 4)) with
        ⟨hallowed, u, hwrite, hwrote⟩ | ⟨hno, -⟩
      · rw [Op.bind_of_ok hwrite]
        have hkey (i : ℕ) (hi : i < n + 1) : c.Allowed u 1 (addr + i) := (allowed_congr hwrote.key).mpr (hopen i hi)
        obtain ⟨t, hrun, hnib, hothers, hkeys⟩ := ih (s := u) (j := j + 2) (by omega) (by omega) fun i hi ↦ hkey i (by omega)
        have hbyte : (byteAt t.mem (c.loc (addr + n))).toNat = data j % 16 + data (j + 1) % 16 * 16 := by
          rw [hothers _ fun i hi ↦ loc_inj (hkey i (by omega)) (hkey n (by omega)) hi (by omega), ← pack_byte]
          exact congrArg BitVec.toNat (hwrote.bytes 0 (by norm_num))
        refine ⟨t, hrun, fun k hk hk' ↦ ?_, fun p hp ↦ ?_, fun b ↦ (hkeys b).trans (hwrote.key b)⟩
        · rcases (by lia : k = j ∨ k = j + 1 ∨ j + 2 ≤ k) with rfl | rfl | hk2
          · rw [show k = 2 * (len - n) by lia, nib_even c t.mem addr (by omega), hbyte, show 2 * (len - n) = k by lia]
            lia
          · rw [show j = 2 * (len - n) by lia, nib_odd c t.mem addr (by omega), hbyte, show 2 * (len - n) = j by lia]
            omega
          · exact hnib k hk2 hk'
        · rw [hothers p fun i hi ↦ hp i (by omega)]
          refine hwrote.others p fun i hi ↦ ?_
          obtain rfl : i = 0 := by lia
          exact hp n (Nat.lt_succ_self n)
      · exact absurd (hopen n (Nat.lt_succ_self n)) hno

/-- **`dec_store`** stores the digits and the code of the sign. -/
theorem decStore_spec (ascii : Bool) (data : ℕ → ℕ) (sign : Bool) (hlen : len < 2048) (hopen : c.Open s 1 addr (len + 1)) :
    ∃ t, c.decStore ascii data addr len sign s = (.ok (), t) ∧
      c.Stored s t addr len (Function.update data 0 (signCode ascii sign)) := by
  obtain ⟨t, hrun, hnib, hothers, hkey⟩ := storeLoop_spec (j := 0) hlen le_rfl (by lia)
    (Function.update data 0 (signCode ascii sign)) hopen
  exact ⟨t, hrun, fun k hk ↦ hnib k (Nat.zero_le k) hk, fun p hp ↦ hothers p fun i hi ↦ hp i (by omega), hkey⟩

/-- An operand of the storage that has been stored: its digits, its sign, and nothing else has changed. -/
structure Result (c : Access) (ascii : Bool) (s t : Store) (addr len : ℕ) (sign : Bool) (v : ℕ) : Prop where
  valid : c.Valid t.mem addr len
  magnitude : c.magnitude t.mem addr len = v
  sign : c.nib t.mem addr len 0 = signCode ascii sign
  others : ∀ p, (∀ i ≤ len, c.loc (addr + i) ≠ p) → byteAt t.mem p = byteAt s.mem p

lemma signCode_spec (ascii sign : Bool) : 10 ≤ signCode ascii sign ∧ signCode ascii sign < 16 ∧
    ((signCode ascii sign = 0xb ∨ signCode ascii sign = 0xd) ↔ sign = true) := by
  cases ascii <;> cases sign <;> decide

/-- The storage before may have other reference bits. -/
lemma Result.of_kept {ascii sign : Bool} {u : Store} {v : ℕ} (h : c.Result ascii u t addr len sign v) (hkept : Kept s u) :
    c.Result ascii s t addr len sign v :=
  ⟨h.valid, h.magnitude, h.sign, fun p hp ↦ by rw [h.others p hp, byteAt, hkept.mem, byteAt]⟩

/-- The sign that is stored is read again. -/
lemma minus_of_code {ascii sign : Bool} (h : c.nib mem addr len 0 = signCode ascii sign) : c.minus mem addr len = sign := by
  rw [minus, h]
  cases ascii <;> cases sign <;> rfl

/-- **Digits that are stored**, as a number. -/
theorem Stored.result {ascii sign : Bool} {data : ℕ → ℕ}
    (h : c.Stored s t addr len (Function.update data 0 (signCode ascii sign))) (hdata : ∀ j < 2 * len + 1, data (j + 1) ≤ 9) :
    c.Result ascii s t addr len sign (num 10 (2 * len + 1) fun j ↦ data (j + 1)) := by
  obtain ⟨hcode, hcode', -⟩ := signCode_spec ascii sign
  have hsign : c.nib t.mem addr len 0 = signCode ascii sign := by
    rw [h.nib 0 (by omega), Function.update_self, Nat.mod_eq_of_lt hcode']
  have hdigit (j : ℕ) (hj : j < 2 * len + 1) : c.nib t.mem addr len (j + 1) = data (j + 1) := by
    have hle := hdata j hj
    rw [h.nib (j + 1) (by omega), Function.update_of_ne (by omega), Nat.mod_eq_of_lt (by omega)]
  exact ⟨⟨fun j hj ↦ (hdigit j hj).trans_le (hdata j hj), by omega⟩, num_congr hdigit, hsign, h.others⟩

end Access

/-! ### The addition of digits -/

/-- A sum of two digits and a carry: the digit and the carry. -/
def adjust (acc : ℕ) : ℕ × ℕ :=
  let acc := if acc > 0x9 then acc + 0x6 else acc
  (acc &&& 0xf, acc >>> 4 &&& 0xf)

lemma adjust_eq : ∀ acc < 2 * 10, adjust acc = (acc % 10, acc / 10) := by decide

/-- The digits of a loop are replaced by the sums of the terms. -/
abbrev pass := ripple adjust

/-- **One loop over digits**, by value. -/
theorem pass_spec {term : (ℕ → ℕ) → ℕ → ℕ} {n i : ℕ} {p : Pass} (hup : Upward term) (hterm : ∀ k < n, term p.a (i + k) ≤ 18)
    (hcy : p.cy ≤ 1) : Rippled 10 n i (term p.a) p (pass term n i p) :=
  ripple_spec (by norm_num) adjust_eq hup hterm hcy

lemma upward_at (g : ℕ → ℕ → ℕ) : Upward fun a i ↦ g i (a i) := fun i _ _ h ↦ congrArg (g i) (h i le_rfl)

/-- Digits above the first `m` show that the number is great. -/
lemma any_iff {n m : ℕ} {f : ℕ → ℕ} (hm : m ≤ n) (hdigit : ∀ k < n, f (1 + k) ≤ 9) :
    ((List.range (n + 1)).any fun i ↦ m + 1 ≤ i && f i ≠ 0) = true ↔ 10 ^ m ≤ num 10 n fun k ↦ f (1 + k) := by
  obtain ⟨d, rfl⟩ := Nat.exists_eq_add_of_le hm
  have hlow : num 10 m (fun k ↦ f (1 + k)) < 10 ^ m := num_lt fun k hk ↦ Nat.lt_succ_iff.mpr (hdigit k (by omega))
  have hhigh : num 10 d (fun k ↦ f (1 + (m + k))) = 0 ↔ ∀ k < d, f (1 + (m + k)) = 0 := num_eq_zero (by norm_num)
  rw [num_add, List.any_eq_true]
  simp only [Bool.and_eq_true, decide_eq_true_eq, List.mem_range]
  constructor
  · rintro ⟨i, hi, hle, hne⟩
    have hpos : num 10 d (fun k ↦ f (1 + (m + k))) ≠ 0 := fun hzero ↦ hne (by
      have := hhigh.mp hzero (i - 1 - m) (by omega)
      rwa [show 1 + (m + (i - 1 - m)) = i by omega] at this)
    have hone : 10 ^ m * 1 ≤ 10 ^ m * num 10 d (fun k ↦ f (1 + (m + k))) := Nat.mul_le_mul_left _ (by omega)
    omega
  · intro hle
    by_contra hno
    have hzero := hhigh.mpr fun k hk ↦ by
      by_contra hne
      exact hno ⟨1 + (m + k), by omega, by omega, hne⟩
    rw [hzero, mul_zero] at hle
    omega

end Ka10Simh.Ibm360
