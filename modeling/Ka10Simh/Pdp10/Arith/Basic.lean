import Ka10Simh.Pdp10.Word

/-!
What the arithmetic instructions share: the accumulators and the flags, shifts of C, and the value of a word.

* `Acs`: the accumulators with the flags of overflow.
* `shl`, `shr`: shifts of 64 bits, undefined from a count of 64 on.
* `value`, `value2`: the number that a word, and a pair of words, stand for.
-/

namespace Ka10Simh.Pdp10.Arith

/-- The accumulators, and the flags `OVR`, `NODIV`, `TRP1`, `CRY0` and `CRY1`. -/
structure Acs where
  reg : ℕ → ℕ
  ovr : Bool
  nodiv : Bool
  trp1 : Bool
  cry0 : Bool
  cry1 : Bool

namespace Acs

/-- `get_reg`, `set_reg`. -/
def get (s : Acs) (ac : ℕ) : ℕ := s.reg (ac % 16)
def set (s : Acs) (ac v : ℕ) : Acs := { s with reg := Function.update s.reg (ac % 16) v }

/-- `FLAGS |= OVR|TRP1`, and with `NODIV`. -/
def overflow (s : Acs) : Acs := { s with ovr := true, trp1 := true }
def noDivide (s : Acs) : Acs := { s with ovr := true, nodiv := true, trp1 := true }

/-- The accumulators have words of 36 bits. -/
def Words (s : Acs) : Prop := ∀ ac, s.get ac < 2 ^ 36

section Lemmas

variable (s : Acs) (ac v w : ℕ)

@[simp] lemma get_set_self : (s.set ac v).get ac = v := Function.update_self ..

@[simp] lemma get_set_succ : (s.set ac v).get (ac + 1) = s.get (ac + 1) := by
  refine Function.update_of_ne ?_ ..
  omega

@[simp] lemma get_set_pred : (s.set (ac + 1) v).get ac = s.get ac := by
  refine Function.update_of_ne ?_ ..
  omega

@[simp] lemma set_get : s.set ac (s.get ac) = s := by
  rw [set, get, Function.update_eq_self]

@[simp] lemma set_set : (s.set ac v).set ac w = s.set ac w := by
  rw [set, set, Function.update_idem, ← set]

/-- Two accumulators one after the other can be set in either order. -/
lemma set_comm : (s.set (ac + 1) v).set ac w = (s.set ac w).set (ac + 1) v := by
  rw [set, set, set, set, Function.update_comm (by omega)]

/-- Two accumulators that get their old words again. -/
lemma set_restore : (((s.set ac v).set (ac + 1) w).set ac (s.get ac)).set (ac + 1) (s.get (ac + 1)) = s := by
  rw [set_comm, set_set, set_set, set_get, set_get]

variable {s v}

lemma Words.set (h : s.Words) (hv : v < 2 ^ 36) (ac : ℕ) : (s.set ac v).Words := by
  intro b
  by_cases hb : b % 16 = ac % 16
  · have hget : (s.set ac v).get b = v := by
      rw [get, hb]
      exact Function.update_self ..
    rwa [hget]
  · have hget : (s.set ac v).get b = s.get b := Function.update_of_ne hb ..
    rw [hget]
    exact h b

end Lemmas

end Acs

/-- `<<` and `>>` of 64 bits. -/
def shl (x n : ℕ) : Option ℕ := if n < 64 then some (x <<< n % 2 ^ 64) else none
def shr (x n : ℕ) : Option ℕ := if n < 64 then some (x >>> n) else none

/-- `CM`, `CCM`. -/
def cm (x : ℕ) : ℕ := fmask ^^^ x
def ccm (x : ℕ) : ℕ := (cmask ^^^ x) &&& cmask

/-- A word with its sign changed, as `(CM (x) + 1) & FMASK`, and a negative word made positive. -/
def minus (x : ℕ) : ℕ := (cm x + 1) &&& fmask
def magnitude (x : ℕ) : ℕ := if x &&& smask ≠ 0 then minus x else x

/-- The count of a shift, with the mask of its bits, and that of a rotation: a count to the right is negative. -/
def shiftCount (mask ab : ℕ) : ℕ := (if ab &&& rsign ≠ 0 then (mask ^^^ ab) + 1 else ab) &&& mask
def rotateCount (ab : ℕ) : ℕ :=
  if ab &&& rsign ≠ 0 then if ab &&& 0o377 ≠ 0 then (0o377 ^^^ ab) + 1 &&& 0o377 else 0o400 else ab &&& 0o377

section Counts

variable {ab k : ℕ}

lemma and_rsign (ab : ℕ) : ab &&& rsign ≠ 0 ↔ ab / 2 ^ 17 % 2 = 1 := Word.and_pow_ne_zero ab 17

/-- The low bits of the complement. -/
lemma xor_mask_mod (k ab : ℕ) : (2 ^ k - 1 ^^^ ab) % 2 ^ k = 2 ^ k - 1 - ab % 2 ^ k := by
  have hpos : 0 < 2 ^ k := Nat.two_pow_pos k
  rw [Nat.xor_mod_two_pow, Nat.mod_eq_of_lt (Nat.sub_lt hpos one_pos)]
  exact Word.mask_xor (Nat.mod_lt _ hpos)

/-- The count of a shift is the low part of the address or of its negative. -/
lemma shiftCount_eq (k ab : ℕ) :
    shiftCount (2 ^ k - 1) ab = if ab &&& rsign ≠ 0 then (2 ^ k - ab % 2 ^ k) % 2 ^ k else ab % 2 ^ k := by
  have hlt : ab % 2 ^ k < 2 ^ k := Nat.mod_lt _ (Nat.two_pow_pos k)
  rw [shiftCount, Nat.and_two_pow_sub_one_eq_mod]
  split
  · rw [Nat.add_mod, xor_mask_mod, Nat.add_mod_mod]
    congr 1
    lia
  · rfl

/-- The count of a rotation to the right is from 1 to 256. -/
lemma rotateCount_eq (ab : ℕ) : rotateCount ab = if ab &&& rsign ≠ 0 then 256 - ab % 256 else ab % 256 := by
  have hlow : ∀ x, x &&& 0o377 = x % 256 := fun x ↦ Nat.and_two_pow_sub_one_eq_mod x 8
  have hxor : (0o377 ^^^ ab) % 256 = 255 - ab % 256 := xor_mask_mod 8 ab
  rw [rotateCount, hlow, hlow]
  split
  · split <;> lia
  · rfl

end Counts

/-! ### Values -/

/-- The number of a word. -/
def value (x : ℕ) : ℤ := if x < 2 ^ 35 then x else x - 2 ^ 36

/-- The number of a pair of words; the sign of the second one does not count. -/
def value2 (hi lo : ℕ) : ℤ := value hi * 2 ^ 35 + (lo % 2 ^ 35 : ℕ)

section Lemmas

variable {x n : ℕ}

lemma shl_of_lt (h : n < 64) : shl x n = some (x <<< n % 2 ^ 64) := if_pos h

lemma shr_of_lt (h : n < 64) : shr x n = some (x >>> n) := if_pos h

lemma cm_eq (h : x < 2 ^ 36) : cm x = 2 ^ 36 - 1 - x := by
  rw [cm, show fmask = 2 ^ 36 - 1 from rfl]
  exact Word.mask_xor h

lemma ccm_eq (x : ℕ) : ccm x = 2 ^ 35 - 1 - x % 2 ^ 35 := by
  have hx : x % 2 ^ 35 < 2 ^ 35 := Nat.mod_lt _ (by positivity)
  rw [ccm, and_cmask, Nat.xor_mod_two_pow, show cmask = 2 ^ 35 - 1 from rfl, Nat.mod_eq_of_lt (by norm_num)]
  exact Word.mask_xor hx

lemma value_of_lt (h : x < 2 ^ 35) : value x = x := if_pos h

lemma value_of_ge (h : 2 ^ 35 ≤ x) : value x = x - 2 ^ 36 := if_neg (Nat.not_lt.mpr h)

end Lemmas

/-- The flag after a test. -/
lemma Acs.flagged_ovr (s : Acs) {p q : Prop} [Decidable p] (h : p ↔ q) :
    (if p then s.overflow else s).ovr = true ↔ s.ovr = true ∨ q := by
  by_cases hq : q
  · rw [if_pos (h.mpr hq)]
    exact ⟨fun _ ↦ .inr hq, fun _ ↦ rfl⟩
  · rw [if_neg (fun hp ↦ hq (h.mp hp)), or_iff_left hq]

lemma Acs.flagged_reg (s : Acs) (p : Prop) [Decidable p] : (if p then s.overflow else s).reg = s.reg := by
  split <;> rfl

/-! ### Signs -/

section Signs

variable {x m : ℕ}

/-- The sign of a word as a number. -/
def sg (x : ℕ) : ℕ := x / 2 ^ 35

lemma sg_le (h : x < 2 ^ 36) : sg x = 0 ∨ sg x = 1 := by
  rw [sg]
  omega

/-- The number of a word, from its low part and its sign. -/
lemma value_eq (h : x < 2 ^ 36) : value x = x - sg x * 2 ^ 36 := by
  rcases sg_le h with h0 | h1
  · rw [value_of_lt (by rw [sg] at h0; omega), h0]
    norm_num
  · rw [value_of_ge (by rw [sg] at h1; omega), h1]
    norm_num

lemma sg_add_mod (x : ℕ) : sg x * 2 ^ 35 + x % 2 ^ 35 = x := Nat.div_add_mod' x (2 ^ 35)

/-- The number of a word, from its low 35 bits and its sign. -/
lemma value_eq_low (h : x < 2 ^ 36) : value x = (x % 2 ^ 35 : ℕ) - sg x * 2 ^ 35 := by
  have hsum := sg_add_mod x
  rw [value_eq h]
  omega

lemma and_smask_eq (h : x < 2 ^ 36) : x &&& smask = sg x * 2 ^ 35 := by
  rw [show smask = 2 ^ 35 from rfl, Nat.and_two_pow, Nat.testBit_eq_decide_div_mod_eq]
  rcases sg_le h with h0 | h1
  · rw [sg] at h0
    rw [sg, h0]
    rfl
  · rw [sg] at h1
    rw [sg, h1]
    rfl

/-- A word that is put together from its sign and 35 bits. -/
lemma sg_put {c : ℕ} (hc : c = 0 ∨ c = 1) (hm : m < 2 ^ 35) : c * 2 ^ 35 + m < 2 ^ 36 ∧ sg (c * 2 ^ 35 + m) = c := by
  rw [sg]
  lia

/-- Bits next to other bits. -/
lemma or_sign {c : ℕ} (hm : m < 2 ^ 35) : c * 2 ^ 35 ||| m = c * 2 ^ 35 + m := Word.or_eq_add (Dvd.intro_left _ rfl) hm

end Signs

/-! ### Magnitudes -/

section Magnitudes

variable {x : ℕ}

lemma and_smask_ne (h : x < 2 ^ 36) : x &&& smask ≠ 0 ↔ 2 ^ 35 ≤ x := by
  rw [and_smask]
  omega

lemma value_neg_iff (h : x < 2 ^ 36) : value x < 0 ↔ 2 ^ 35 ≤ x := by
  rw [value]
  split <;> omega

lemma minus_eq (h : x < 2 ^ 36) : minus x = (2 ^ 36 - x) % 2 ^ 36 := by
  rw [minus, cm_eq h, and_fmask]
  lia

lemma magnitude_of_lt (h : x < 2 ^ 35) : magnitude x = x := by
  rw [magnitude, if_neg]
  rw [and_smask_ne (by omega)]
  omega

lemma magnitude_of_ge (h : 2 ^ 35 ≤ x) (hx : x < 2 ^ 36) : magnitude x = 2 ^ 36 - x := by
  rw [magnitude, if_pos ((and_smask_ne hx).mpr h), minus_eq hx]
  omega

lemma magnitude_le (hx : x < 2 ^ 36) : magnitude x ≤ 2 ^ 35 := by
  rcases Nat.lt_or_ge x (2 ^ 35) with h | h
  · rw [magnitude_of_lt h]
    exact h.le
  · rw [magnitude_of_ge h hx]
    omega

/-- A word is its magnitude with its sign. -/
lemma value_magnitude (hx : x < 2 ^ 36) :
    value x = if x &&& smask ≠ 0 then -(magnitude x : ℤ) else magnitude x := by
  rcases Nat.lt_or_ge x (2 ^ 35) with h | h
  · rw [if_neg (by rw [and_smask_ne hx]; omega), magnitude_of_lt h, value_of_lt h]
  · rw [if_pos ((and_smask_ne hx).mpr h), magnitude_of_ge h hx, value_of_ge h]
    omega

lemma magnitude_eq_pow (hx : x < 2 ^ 36) (h : magnitude x = 2 ^ 35) : value x = -2 ^ 35 := by
  rcases Nat.lt_or_ge x (2 ^ 35) with hlt | hge
  · rw [magnitude_of_lt hlt] at h
    omega
  · rw [magnitude_of_ge hge hx] at h
    rw [value_of_ge hge]
    omega

lemma value_lt (hx : x < 2 ^ 36) : value x < 2 ^ 35 := by
  rw [value]
  split <;> omega

end Magnitudes

end Ka10Simh.Pdp10.Arith
