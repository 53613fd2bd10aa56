import Ka10Simh.Lib.Rotate
import Ka10Simh.Pdp10.Arith.Basic

/-!
Logical shifts and rotations: `LSH`, `LSHC`, `ROT`, `ROTC` and `CIRC` of `sim_instr`.

* `lsh`, `lshc`, `rot`, `rotc`, `circ`: the instructions. A shift of C by 64 or more ends in `none`.
* `word`, `pair`, `ring`: the bits of one and of two accumulators, in the order in which they go round.
* `shifts_and_rotations`: each instruction is the shift or the rotation of these bits by its count.
-/

namespace Ka10Simh.Pdp10.Arith

variable {s t : Acs} {ac ab n x y : ℕ}

/-- `case 0241`. -/
def rot (s : Acs) (ac ab : ℕ) : Option Acs :=
  let br := s.get ac
  let sc := rotateCount ab
  if sc = 0 then some s else
    let sc := sc % 36
    let sc := if ab &&& rsign ≠ 0 then 36 - sc else sc
    do return s.set ac (((← shl br sc) ||| (← shr br (36 - sc))) &&& fmask)

/-- `case 0242`. -/
def lsh (s : Acs) (ac ab : ℕ) : Option Acs :=
  let br := s.get ac
  let sc := shiftCount 0o377 ab
  do
    let br ← if sc = 0 then some br
      else if sc > 36 then some 0
      else if ab &&& rsign ≠ 0 then shr br sc
      else (shl br sc).map (· &&& fmask)
    return s.set ac br

/-- `case 0245`. -/
def rotc (s : Acs) (ac ab : ℕ) : Option Acs :=
  let ar := s.get ac
  let mq := s.get (ac + 1)
  let sc := rotateCount ab
  if sc = 0 then some s else
    let sc := sc % 72
    let sc := if ab &&& rsign ≠ 0 then 72 - sc else sc
    let turn := fun ar mq sc ↦ do
      let ad := ((← shl ar sc) ||| (← shr mq (36 - sc))) &&& fmask
      let mq := ((← shl mq sc) ||| (← shr ar (36 - sc))) &&& fmask
      return (s.set ac ad).set (ac + 1) mq
    if sc ≥ 36 then turn mq ar (sc - 36) else turn ar mq sc

/-- `case 0246`. -/
def lshc (s : Acs) (ac ab : ℕ) : Option Acs :=
  let ar := s.get ac
  let mq := s.get (ac + 1)
  let sc := shiftCount 0o377 ab
  if sc = 0 then some s
  else if sc > 71 then some ((s.set ac 0).set (ac + 1) 0)
  else
    let right := ab &&& rsign ≠ 0
    let (ar, mq, sc) := if sc > 36 then if right then (0, ar, sc - 36) else (mq, 0, sc - 36) else (ar, mq, sc)
    if right then do
      let mq := ((← shr mq sc) ||| (← shl ar (36 - sc))) &&& fmask
      return (s.set ac (← shr ar sc)).set (ac + 1) mq
    else do
      let ar := ((← shl ar sc) ||| (← shr mq (36 - sc))) &&& fmask
      return (s.set ac ar).set (ac + 1) ((← shl mq sc) &&& fmask)

/-- The loop of `CIRC`, and `case 0247` of an `ITS` machine. -/
def circLoop : ℕ → ℕ × ℕ → ℕ × ℕ
  | 0, p => p
  | sc + 1, (ar, mq) => circLoop sc ((ar <<< 1 ||| mq &&& 1) &&& fmask, (mq >>> 1 ||| ar &&& smask) &&& fmask)

def circ (s : Acs) (ac ab : ℕ) : Option Acs :=
  let sc := shiftCount 0o777 ab
  if sc = 0 then some s else
    let sc := sc % 72
    let sc := if ab &&& rsign ≠ 0 then 72 - sc else sc
    let (ar, mq) := circLoop sc (s.get ac, s.get (ac + 1))
    some ((s.set ac ar).set (ac + 1) mq)

/-! ### Words as bits -/

/-- The bits of a word. -/
def word (x : ℕ) : BitVec 36 := BitVec.ofNat 36 x

/-- The bits of a pair of words, and those of the ring that `CIRC` turns, where the second word is in reverse. -/
def pair (x y : ℕ) : BitVec (36 + 36) := word x ++ word y
def ring (x y : ℕ) : BitVec (36 + 36) := word x ++ (word y).reverse

/-- A logical shift, and a rotation, in the direction that the sign of `AB` says. -/
def shift {w : ℕ} (ab : ℕ) (x : BitVec w) (n : ℕ) : BitVec w := if ab &&& rsign ≠ 0 then x >>> n else x <<< n
def turn {w : ℕ} (ab : ℕ) (x : BitVec w) (n : ℕ) : BitVec w :=
  if ab &&& rsign ≠ 0 then x.rotateRight n else x.rotateLeft n

lemma word_or (x y : ℕ) : word (x ||| y) = word x ||| word y := by
  refine BitVec.eq_of_toNat_eq ?_
  rw [BitVec.toNat_or, word, word, word, BitVec.toNat_ofNat, BitVec.toNat_ofNat, BitVec.toNat_ofNat,
    Nat.or_mod_two_pow]

lemma word_fmask (x : ℕ) : word (x &&& fmask) = word x := by
  refine BitVec.eq_of_toNat_eq ?_
  rw [and_fmask, word, word, BitVec.toNat_ofNat, BitVec.toNat_ofNat, Nat.mod_mod]

lemma word_shl (x n : ℕ) : word (x <<< n % 2 ^ 64) = word x <<< n := by
  refine BitVec.eq_of_getLsbD_eq fun i hi ↦ ?_
  rw [word, word, BitVec.getLsbD_shiftLeft, BitVec.getLsbD_ofNat, BitVec.getLsbD_ofNat, Nat.testBit_mod_two_pow,
    Nat.testBit_shiftLeft]
  have h64 : i < 64 := by omega
  have hin : i - n < 36 := by omega
  by_cases hlt : i < n
  · simp [hi, h64, hlt, Nat.not_le.mpr hlt]
  · simp [hi, h64, hlt, hin, Nat.not_lt.mp hlt]

lemma word_shr (n : ℕ) (h : x < 2 ^ 36) : word (x >>> n) = word x >>> n := by
  refine BitVec.eq_of_toNat_eq ?_
  have hle : x >>> n ≤ x := Nat.shiftRight_le x n
  rw [BitVec.toNat_ushiftRight, word, word, BitVec.toNat_ofNat, BitVec.toNat_ofNat, Nat.mod_eq_of_lt h,
    Nat.mod_eq_of_lt (hle.trans_lt h)]

lemma toNat_word (h : x < 2 ^ 36) : (word x).toNat = x := by rw [word, BitVec.toNat_ofNat, Nat.mod_eq_of_lt h]

lemma word_inj (hx : x < 2 ^ 36) (hy : y < 2 ^ 36) (h : word x = word y) : x = y := by
  rw [← toNat_word hx, h, toNat_word hy]

/-- The bits of a word that has been put together from two, as the rotations do. -/
lemma word_join (n m : ℕ) (hy : y < 2 ^ 36) :
    word ((x <<< n % 2 ^ 64 ||| y >>> m) &&& fmask) = word x <<< n ||| word y >>> m := by
  rw [word_fmask, word_or, word_shl, word_shr m hy]

lemma fmask_lt (x : ℕ) : x &&& fmask < 2 ^ 36 := by
  rw [and_fmask]
  exact Nat.mod_lt _ (by positivity)

/-! ### Counts -/

/-- A rotation, always to the left. -/
lemma turn_eq {w : ℕ} (ab : ℕ) (x : BitVec w) (n : ℕ) :
    turn ab x n = x.rotateLeft (if ab &&& rsign ≠ 0 then w - n % w else n % w) := by
  rw [turn]
  by_cases h : ab &&& rsign ≠ 0
  · rw [if_pos h, if_pos h, Rotate.right_eq]
  · rw [if_neg h, if_neg h, BitVec.rotateLeft_mod_eq_rotateLeft]

lemma turn_double (ab : ℕ) (x : BitVec (36 + 36)) (n : ℕ) :
    turn ab x n = x.rotateLeft (if ab &&& rsign ≠ 0 then 72 - n % 72 else n % 72) := turn_eq ab x n

lemma turn_zero {w : ℕ} (ab : ℕ) (x : BitVec w) : turn ab x 0 = x := by
  rw [turn]
  split
  · rw [Rotate.right_eq, Nat.zero_mod, Nat.sub_zero, Rotate.left_of_dvd x dvd_rfl]
  · rw [Rotate.left_of_dvd x (dvd_zero w)]

/-! ### Rotations -/

/-- `ROT` rotates a word. -/
lemma rot_eq (h : s.Words) (ac ab : ℕ) :
    ∃ v, rot s ac ab = some (s.set ac v) ∧ v < 2 ^ 36 ∧ word v = turn ab (word (s.get ac)) (rotateCount ab) := by
  by_cases h0 : rotateCount ab = 0
  · refine ⟨s.get ac, ?_, h ac, ?_⟩
    · rw [rot, if_pos h0, Acs.set_get]
    · rw [h0, turn_zero]
  rw [rot, if_neg h0, turn_eq]
  dsimp only
  have hle : (if ab &&& rsign ≠ 0 then 36 - rotateCount ab % 36 else rotateCount ab % 36) ≤ 36 := by
    have hlt : rotateCount ab % 36 < 36 := Nat.mod_lt _ (by norm_num)
    split <;> omega
  generalize (if ab &&& rsign ≠ 0 then 36 - rotateCount ab % 36 else rotateCount ab % 36) = sc at hle
  rw [shl_of_lt (by omega), shr_of_lt (by omega)]
  exact ⟨_, rfl, fmask_lt _, by rw [word_join _ _ (h ac), Rotate.left_or _ hle]⟩

/-- Two words turned by a word at most. -/
lemma pair_join (hx : x < 2 ^ 36) (hy : y < 2 ^ 36) (hn : n ≤ 36) :
    pair ((x <<< n % 2 ^ 64 ||| y >>> (36 - n)) &&& fmask) ((y <<< n % 2 ^ 64 ||| x >>> (36 - n)) &&& fmask)
      = (pair x y).rotateLeft n := by
  rw [pair, pair, Rotate.append_rotate _ _ hn, word_join _ _ hy, word_join _ _ hx]

/-- `ROTC` rotates a pair. -/
lemma rotc_eq (h : s.Words) (ac ab : ℕ) :
    ∃ u v, rotc s ac ab = some ((s.set ac u).set (ac + 1) v) ∧ u < 2 ^ 36 ∧ v < 2 ^ 36 ∧
      pair u v = turn ab (pair (s.get ac) (s.get (ac + 1))) (rotateCount ab) := by
  by_cases h0 : rotateCount ab = 0
  · refine ⟨s.get ac, s.get (ac + 1), ?_, h ac, h (ac + 1), ?_⟩
    · rw [rotc, if_pos h0, Acs.set_get, Acs.set_get]
    · rw [h0, turn_zero]
  rw [rotc, if_neg h0, turn_double]
  dsimp only
  have hle : (if ab &&& rsign ≠ 0 then 72 - rotateCount ab % 72 else rotateCount ab % 72) ≤ 72 := by
    have hlt : rotateCount ab % 72 < 72 := Nat.mod_lt _ (by norm_num)
    split <;> omega
  generalize (if ab &&& rsign ≠ 0 then 72 - rotateCount ab % 72 else rotateCount ab % 72) = sc at hle
  by_cases h36 : sc ≥ 36
  · -- a count from 36 on swaps the words first
    have hk : sc - 36 ≤ 36 := by omega
    rw [if_pos h36, shl_of_lt (by omega), shr_of_lt (by omega), shl_of_lt (by omega), shr_of_lt (by omega)]
    refine ⟨_, _, rfl, fmask_lt _, fmask_lt _, ?_⟩
    rw [pair_join (h (ac + 1)) (h ac) hk, pair, pair, ← Rotate.append_swap, Rotate.left_left, Nat.add_sub_cancel' h36]
  · have hk : sc ≤ 36 := by omega
    rw [if_neg h36, shl_of_lt (by omega), shr_of_lt (by omega), shl_of_lt (by omega), shr_of_lt (by omega)]
    exact ⟨_, _, rfl, fmask_lt _, fmask_lt _, pair_join (h ac) (h (ac + 1)) hk⟩

/-! ### Shifts -/

/-- `LSH` shifts a word. -/
lemma lsh_eq (h : s.Words) (ac ab : ℕ) :
    ∃ v, lsh s ac ab = some (s.set ac v) ∧ v < 2 ^ 36 ∧
      word v = shift ab (word (s.get ac)) (shiftCount 0o377 ab) := by
  rw [lsh, shift]
  dsimp only
  generalize shiftCount 0o377 ab = sc
  by_cases h0 : sc = 0
  · rw [if_pos h0, h0, BitVec.ushiftRight_zero, BitVec.shiftLeft_zero, ite_self]
    exact ⟨_, rfl, h ac, rfl⟩
  rw [if_neg h0]
  by_cases h36 : sc > 36
  · rw [if_pos h36, BitVec.ushiftRight_eq_zero h36.le, BitVec.shiftLeft_eq_zero h36.le, ite_self]
    exact ⟨0, rfl, by norm_num, rfl⟩
  rw [if_neg h36]
  by_cases hr : ab &&& rsign ≠ 0
  · have hlt : s.get ac >>> sc < 2 ^ 36 := (Nat.shiftRight_le _ sc).trans_lt (h ac)
    rw [if_pos hr, if_pos hr, shr_of_lt (by omega)]
    exact ⟨_, rfl, hlt, word_shr sc (h ac)⟩
  · rw [if_neg hr, if_neg hr, shl_of_lt (by omega)]
    exact ⟨_, rfl, fmask_lt _, by rw [word_fmask, word_shl]⟩

/-- Two words shifted to the left by a word at most. -/
lemma pair_shl (hy : y < 2 ^ 36) (hn : n ≤ 36) :
    pair ((x <<< n % 2 ^ 64 ||| y >>> (36 - n)) &&& fmask) (y <<< n % 2 ^ 64 &&& fmask) = pair x y <<< n := by
  rw [pair, pair, Rotate.append_shl _ _ hn, word_join _ _ hy, word_fmask, word_shl]

/-- Two words shifted to the right by a word at most. -/
lemma pair_shr (hx : x < 2 ^ 36) (hy : y < 2 ^ 36) (hn : n ≤ 36) :
    pair (x >>> n) ((y >>> n ||| x <<< (36 - n) % 2 ^ 64) &&& fmask) = pair x y >>> n := by
  rw [pair, pair, Rotate.append_shr _ _ hn, word_fmask, word_or, word_shr n hx, word_shr n hy, word_shl]

/-- A shift by a word moves one word into the other. -/
lemma pair_shl_word (x y : ℕ) : pair x y <<< 36 = pair y 0 := by
  rw [pair, Rotate.append_shl _ _ le_rfl, Rotate.left_or_swap, BitVec.shiftLeft_eq_zero le_rfl]
  rfl

lemma pair_shr_word (x y : ℕ) : pair x y >>> 36 = pair 0 x := by
  rw [pair, Rotate.append_shr _ _ le_rfl, BitVec.or_comm, Nat.sub_self, BitVec.shiftLeft_zero,
    BitVec.ushiftRight_eq_zero le_rfl, BitVec.ushiftRight_eq_zero le_rfl, BitVec.or_zero]
  rfl

/-- `LSHC` shifts a pair. -/
lemma lshc_eq (h : s.Words) (ac ab : ℕ) :
    ∃ u v, lshc s ac ab = some ((s.set ac u).set (ac + 1) v) ∧ u < 2 ^ 36 ∧ v < 2 ^ 36 ∧
      pair u v = shift ab (pair (s.get ac) (s.get (ac + 1))) (shiftCount 0o377 ab) := by
  have hx := h ac
  have hy := h (ac + 1)
  rw [lshc, shift]
  dsimp only
  generalize shiftCount 0o377 ab = sc
  by_cases h0 : sc = 0
  · rw [if_pos h0, h0, BitVec.ushiftRight_zero, BitVec.shiftLeft_zero, ite_self]
    exact ⟨s.get ac, s.get (ac + 1), by rw [Acs.set_get, Acs.set_get], hx, hy, rfl⟩
  rw [if_neg h0]
  by_cases h71 : sc > 71
  · rw [if_pos h71, BitVec.ushiftRight_eq_zero h71, BitVec.shiftLeft_eq_zero h71, ite_self]
    exact ⟨0, 0, rfl, by norm_num, by norm_num, rfl⟩
  rw [if_neg h71]
  have hlt : ∀ x n, x < 2 ^ 36 → x >>> n < 2 ^ 36 := fun x n hx ↦ (Nat.shiftRight_le x n).trans_lt hx
  by_cases h36 : sc > 36
  · -- the words move by one, and then by the rest of the count
    have hk : sc - 36 ≤ 36 := by omega
    have hsum : 36 + (sc - 36) = sc := by omega
    by_cases hr : ab &&& rsign ≠ 0
    · simp only [if_pos hr, if_pos h36]
      rw [shl_of_lt (by omega), shr_of_lt (by omega), shr_of_lt (by omega)]
      refine ⟨_, _, rfl, hlt _ _ (by norm_num), fmask_lt _, ?_⟩
      rw [pair_shr (by norm_num) hx hk, ← pair_shr_word _ (s.get (ac + 1)), ← BitVec.shiftRight_add, hsum]
    · simp only [if_neg hr, if_pos h36]
      rw [shl_of_lt (by omega), shr_of_lt (by omega), shl_of_lt (by omega)]
      refine ⟨_, _, rfl, fmask_lt _, fmask_lt _, ?_⟩
      rw [pair_shl (by norm_num) hk, ← pair_shl_word (s.get ac), ← BitVec.shiftLeft_add, hsum]
  · have hk : sc ≤ 36 := by omega
    by_cases hr : ab &&& rsign ≠ 0
    · simp only [if_pos hr, if_neg h36]
      rw [shl_of_lt (by omega), shr_of_lt (by omega), shr_of_lt (by omega)]
      exact ⟨_, _, rfl, hlt _ _ hx, fmask_lt _, pair_shr hx hy hk⟩
    · simp only [if_neg hr, if_neg h36]
      rw [shl_of_lt (by omega), shr_of_lt (by omega), shl_of_lt (by omega)]
      exact ⟨_, _, rfl, fmask_lt _, fmask_lt _, pair_shl hy hk⟩

/-! ### CIRC -/

/-- The bit that the second word gives to the first one. -/
lemma word_and_one (x : ℕ) : word (x &&& 1) = (word x).reverse >>> 35 := by
  refine Rotate.ext_msb fun i hi ↦ ?_
  rw [BitVec.getMsbD_ushiftRight, BitVec.getMsbD_reverse, BitVec.getMsbD_eq_getLsbD, word, word, BitVec.getLsbD_ofNat,
    BitVec.getLsbD_ofNat, Nat.testBit_and, show (1 : ℕ) = 2 ^ 0 from rfl, Nat.testBit_two_pow]
  rcases Nat.lt_or_ge i 35 with hlt | hge
  · have hne : 0 ≠ 36 - 1 - i := by omega
    simp [hlt, hne]
  · obtain rfl : i = 35 := by omega
    simp

/-- The second word in reverse, after it has taken the sign of the first one. -/
lemma word_shr_reverse (x : ℕ) (hy : y < 2 ^ 36) :
    (word (y >>> 1 ||| x &&& smask)).reverse = (word y).reverse <<< 1 ||| word x >>> 35 := by
  refine Rotate.ext_msb fun i hi ↦ ?_
  rw [BitVec.getMsbD_reverse, BitVec.getMsbD_or, BitVec.getMsbD_shiftLeft, BitVec.getMsbD_ushiftRight,
    BitVec.getMsbD_reverse, BitVec.getMsbD_eq_getLsbD, word, word, word, BitVec.getLsbD_ofNat,
    BitVec.getLsbD_ofNat, BitVec.getLsbD_ofNat, Nat.testBit_or, Nat.testBit_and, Nat.testBit_shiftRight,
    show smask = 2 ^ 35 from rfl, Nat.testBit_two_pow]
  rcases Nat.lt_or_ge i 35 with hlt | hge
  · have hne : 35 ≠ i := by omega
    have hsucc : i + 1 < 36 := by omega
    simp [hlt, hi, hne, hsucc, Nat.add_comm]
  · obtain rfl : i = 35 := by omega
    have hbit : y.testBit 36 = false := Nat.testBit_lt_two_pow hy
    simp [hbit]

/-- One turn of the loop turns the ring by one. -/
lemma ring_step (hx : x < 2 ^ 36) (hy : y < 2 ^ 36) :
    ring ((x <<< 1 ||| y &&& 1) &&& fmask) ((y >>> 1 ||| x &&& smask) &&& fmask) = (ring x y).rotateLeft 1 := by
  have hshl : word (x <<< 1) = word x <<< 1 := by
    rw [← word_shl, Nat.mod_eq_of_lt]
    rw [Nat.shiftLeft_eq]
    omega
  rw [ring, ring, Rotate.append_rotate _ _ (by norm_num), word_fmask, word_or, hshl, word_and_one, word_fmask,
    word_shr_reverse x hy]

/-- **The loop turns the ring by its count.** -/
lemma circLoop_eq (n : ℕ) (hx : x < 2 ^ 36) (hy : y < 2 ^ 36) :
    ∃ u v, circLoop n (x, y) = (u, v) ∧ u < 2 ^ 36 ∧ v < 2 ^ 36 ∧ ring u v = (ring x y).rotateLeft n := by
  induction n generalizing x y with
  | zero => exact ⟨x, y, rfl, hx, hy, (Rotate.left_of_dvd _ (dvd_zero _)).symm⟩
  | succ n ih =>
    obtain ⟨u, v, hloop, hu, hv, hring⟩ := ih (fmask_lt (x <<< 1 ||| y &&& 1)) (fmask_lt (y >>> 1 ||| x &&& smask))
    refine ⟨u, v, hloop, hu, hv, ?_⟩
    rw [hring, ring_step hx hy, Rotate.left_left, Nat.add_comm 1 n]

/-- `CIRC` turns the ring. -/
lemma circ_eq (h : s.Words) (ac ab : ℕ) :
    ∃ u v, circ s ac ab = some ((s.set ac u).set (ac + 1) v) ∧ u < 2 ^ 36 ∧ v < 2 ^ 36 ∧
      ring u v = turn ab (ring (s.get ac) (s.get (ac + 1))) (shiftCount 0o777 ab) := by
  by_cases h0 : shiftCount 0o777 ab = 0
  · refine ⟨s.get ac, s.get (ac + 1), ?_, h ac, h (ac + 1), ?_⟩
    · rw [circ, if_pos h0, Acs.set_get, Acs.set_get]
    · rw [h0, turn_zero]
  rw [circ, if_neg h0, turn_double]
  dsimp only
  generalize (if ab &&& rsign ≠ 0 then 72 - shiftCount 0o777 ab % 72 else shiftCount 0o777 ab % 72) = sc
  obtain ⟨u, v, hloop, hu, hv, hring⟩ := circLoop_eq sc (h ac) (h (ac + 1))
  exact ⟨u, v, by rw [hloop], hu, hv, hring⟩

/-! ### There and back -/

/-- The address with the negative count. -/
def neg (ab : ℕ) : ℕ := (2 ^ 18 - ab) % 2 ^ 18

lemma neg_lt (ab : ℕ) : neg ab < 2 ^ 18 := Nat.mod_lt _ (by positivity)

/-- A count that is not the lowest one has a negative of the other sign. -/
lemma neg_sign (hab : ab < 2 ^ 18) (h : ab % 2 ^ 17 ≠ 0) : neg ab &&& rsign ≠ 0 ↔ ¬ ab &&& rsign ≠ 0 := by
  rw [and_rsign, and_rsign, neg]
  lia

/-- The count of `CIRC` in the other direction. -/
lemma shiftCount_neg (hab : ab < 2 ^ 18) (h : ab % 2 ^ 17 ≠ 0) :
    shiftCount 0o777 (neg ab) = shiftCount 0o777 ab := by
  have hcount : ∀ c, shiftCount 0o777 c = if c &&& rsign ≠ 0 then (512 - c % 512) % 512 else c % 512 := shiftCount_eq 9
  rw [hcount, hcount, if_congr (neg_sign hab h) rfl rfl, ite_not, neg]
  split <;> lia

/-- The count of a rotation in the other direction. -/
lemma rotateCount_neg (hab : ab < 2 ^ 18) (h : ab % 256 ≠ 0) : rotateCount (neg ab) = rotateCount ab := by
  rw [rotateCount_eq, rotateCount_eq, if_congr (neg_sign hab (by omega)) rfl rfl, ite_not, neg]
  split <;> lia

/-- A rotation in the other direction takes the first one back. -/
lemma turn_neg {w : ℕ} (x : BitVec w) (n : ℕ) (hab : ab < 2 ^ 18) (h : ab % 2 ^ 17 ≠ 0) :
    turn (neg ab) (turn ab x n) n = x := by
  have hsign := neg_sign hab h
  by_cases hr : ab &&& rsign ≠ 0
  · rw [turn, turn, if_pos hr, if_neg (fun hn ↦ hsign.mp hn hr), Rotate.right_left]
  · rw [turn, turn, if_neg hr, if_pos (hsign.mpr hr), Rotate.left_right]

lemma pair_inj {u v : ℕ} (hu : u < 2 ^ 36) (hv : v < 2 ^ 36) (hx : x < 2 ^ 36) (hy : y < 2 ^ 36)
    (h : pair u v = pair x y) : u = x ∧ v = y := by
  have hnat := congrArg BitVec.toNat h
  rw [pair, pair, BitVec.toNat_append, BitVec.toNat_append, toNat_word hu, toNat_word hv, toNat_word hx,
    toNat_word hy, Word.shiftLeft_or_eq hv, Word.shiftLeft_or_eq hy] at hnat
  omega

lemma ring_inj {u v : ℕ} (hu : u < 2 ^ 36) (hv : v < 2 ^ 36) (hx : x < 2 ^ 36) (hy : y < 2 ^ 36)
    (h : ring u v = ring x y) : u = x ∧ v = y := by
  have hmsb : ∀ i, (ring u v).getMsbD i = (ring x y).getMsbD i := fun i ↦ by rw [h]
  constructor
  · refine word_inj hu hx (Rotate.ext_msb fun i hi ↦ ?_)
    have hbit := hmsb i
    rwa [ring, ring, Rotate.getMsbD_hi _ _ hi, Rotate.getMsbD_hi _ _ hi] at hbit
  · refine word_inj hv hy (BitVec.eq_of_getLsbD_eq fun i _ ↦ ?_)
    have hbit := hmsb (i + 36)
    rwa [ring, ring, Rotate.getMsbD_lo _ _ (by omega), Rotate.getMsbD_lo _ _ (by omega), Nat.add_sub_cancel,
      BitVec.getMsbD_reverse, BitVec.getMsbD_reverse] at hbit

/-- `ROT` by a count and by its negative. -/
lemma rot_back (h : s.Words) (ac : ℕ) (hab : ab < 2 ^ 18) (hn : 256 ∣ ab → ab = 0) :
    (rot s ac ab).bind (rot · ac (neg ab)) = some s := by
  by_cases h0 : ab = 0
  · rw [h0]
    rfl
  have hlow : ab % 256 ≠ 0 := fun hmod ↦ h0 (hn (Nat.dvd_of_mod_eq_zero hmod))
  obtain ⟨v, hv, hlt, hword⟩ := rot_eq h ac ab
  obtain ⟨v', hv', hlt', hword'⟩ := rot_eq (h.set hlt ac) ac (neg ab)
  rw [Acs.get_set_self, hword, rotateCount_neg hab hlow, turn_neg _ _ hab (by omega)] at hword'
  rw [hv, Option.bind_some, hv', word_inj hlt' (h ac) hword', Acs.set_set, Acs.set_get]

/-- `ROTC` by a count and by its negative. -/
lemma rotc_back (h : s.Words) (ac : ℕ) (hab : ab < 2 ^ 18) (hn : 256 ∣ ab → ab = 0) :
    (rotc s ac ab).bind (rotc · ac (neg ab)) = some s := by
  by_cases h0 : ab = 0
  · rw [h0]
    rfl
  have hlow : ab % 256 ≠ 0 := fun hmod ↦ h0 (hn (Nat.dvd_of_mod_eq_zero hmod))
  obtain ⟨u, v, hv, hu, hlt, hpair⟩ := rotc_eq h ac ab
  obtain ⟨u', v', hv', hu', hlt', hpair'⟩ := rotc_eq ((h.set hu ac).set hlt (ac + 1)) ac (neg ab)
  rw [Acs.get_set_self, Acs.get_set_pred, Acs.get_set_self, hpair, rotateCount_neg hab hlow,
    turn_neg _ _ hab (by omega)] at hpair'
  obtain ⟨rfl, rfl⟩ := pair_inj hu' hlt' (h ac) (h (ac + 1)) hpair'
  rw [hv, Option.bind_some, hv', Acs.set_restore]

/-- `CIRC` by a count and by its negative. -/
lemma circ_back (h : s.Words) (ac : ℕ) (hab : ab < 2 ^ 18) : (circ s ac ab).bind (circ · ac (neg ab)) = some s := by
  by_cases h0 : ab % 2 ^ 17 = 0
  · obtain rfl | rfl : ab = 0 ∨ ab = 2 ^ 17 := by omega
    · rfl
    · rfl
  obtain ⟨u, v, hv, hu, hlt, hring⟩ := circ_eq h ac ab
  obtain ⟨u', v', hv', hu', hlt', hring'⟩ := circ_eq ((h.set hu ac).set hlt (ac + 1)) ac (neg ab)
  rw [Acs.get_set_self, Acs.get_set_pred, Acs.get_set_self, hring, shiftCount_neg hab h0,
    turn_neg _ _ hab h0] at hring'
  obtain ⟨rfl, rfl⟩ := ring_inj hu' hlt' (h ac) (h (ac + 1)) hring'
  rw [hv, Option.bind_some, hv', Acs.set_restore]

/-- **`LSH` and `LSHC` shift the bits of one and of two accumulators, `ROT` and `ROTC` rotate them and `CIRC` turns the
ring, by the count of the address.** No shift of C by 64 or more is reached. `CIRC` by the negative count takes it
back, as do `ROT` and `ROTC` unless the address is a multiple of 256, where the one to the left does nothing. -/
theorem shifts_and_rotations (h : s.Words) (ac : ℕ) (hab : ab < 2 ^ 18) :
    (∃ v, lsh s ac ab = some (s.set ac v) ∧ v < 2 ^ 36 ∧
      word v = shift ab (word (s.get ac)) (shiftCount 0o377 ab)) ∧
    (∃ u v, lshc s ac ab = some ((s.set ac u).set (ac + 1) v) ∧ u < 2 ^ 36 ∧ v < 2 ^ 36 ∧
      pair u v = shift ab (pair (s.get ac) (s.get (ac + 1))) (shiftCount 0o377 ab)) ∧
    (∃ v, rot s ac ab = some (s.set ac v) ∧ v < 2 ^ 36 ∧
      word v = turn ab (word (s.get ac)) (rotateCount ab)) ∧
    (∃ u v, rotc s ac ab = some ((s.set ac u).set (ac + 1) v) ∧ u < 2 ^ 36 ∧ v < 2 ^ 36 ∧
      pair u v = turn ab (pair (s.get ac) (s.get (ac + 1))) (rotateCount ab)) ∧
    (∃ u v, circ s ac ab = some ((s.set ac u).set (ac + 1) v) ∧ u < 2 ^ 36 ∧ v < 2 ^ 36 ∧
      ring u v = turn ab (ring (s.get ac) (s.get (ac + 1))) (shiftCount 0o777 ab)) ∧
    ((256 ∣ ab → ab = 0) →
      (rot s ac ab).bind (rot · ac (neg ab)) = some s ∧ (rotc s ac ab).bind (rotc · ac (neg ab)) = some s) ∧
    (circ s ac ab).bind (circ · ac (neg ab)) = some s :=
  ⟨lsh_eq h ac ab, lshc_eq h ac ab, rot_eq h ac ab, rotc_eq h ac ab, circ_eq h ac ab,
    fun hn ↦ ⟨rot_back h ac hab hn, rotc_back h ac hab hn⟩, circ_back h ac hab⟩

/-- A one in each accumulator. -/
def ones : Acs := ⟨fun _ ↦ 1, false, false, false, false, false⟩

lemma ones_words : ones.Words := fun _ ↦ Nat.one_lt_two_pow (by norm_num)

theorem turned_by_three : (rot ones 0 3).bind (rot · 0 (neg 3)) = some ones :=
  ((shifts_and_rotations ones_words 0 (by norm_num)).2.2.2.2.2.1 (by decide)).1

/-- `ROT` by 256 does nothing, and `ROT` by -256 rotates to the right. -/
theorem turned_by_four : ¬ ∀ (s : Acs) (ac ab : ℕ), s.Words → ab < 2 ^ 18 →
    (rot s ac ab).bind (rot · ac (neg ab)) = some s := by
  intro h
  have hback := congrArg (Option.map (·.get 0)) (h ones 0 0o400 ones_words (by norm_num))
  have hget : ((rot ones 0 0o400).bind (rot · 0 (neg 0o400))).map (·.get 0) ≠ some 1 := by decide
  exact hget hback

end Ka10Simh.Pdp10.Arith
