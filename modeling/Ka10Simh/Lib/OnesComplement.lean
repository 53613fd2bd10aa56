import Mathlib.Tactic

/-!
The ones' complement sum of the 16 bit words of a string of bytes, and its change when a field changes.

* `words`: the words of a string of bytes, first byte high, the last one filled up with a zero byte.
* `carry`: a sum with its carries added in again.
* `carry_eq_max_iff`: a sum is all ones exactly when it is a multiple of 65535, other than zero.
* `total_bytes_put`: the sum over a part of a buffer after one of its words is written.
-/

namespace OnesComplement

/-! ### Sums -/

/-- The 16 bit words of a string of bytes. -/
def words : List UInt8 → List ℕ
  | [] => []
  | [a] => [a.toNat * 256]
  | a :: b :: l => (a.toNat * 256 + b.toNat) :: words l

/-- Their sum. -/
def total (l : List UInt8) : ℕ := (words l).sum

lemma words_lt (l : List UInt8) : ∀ w ∈ words l, w < 65536 := by
  induction l using words.induct with
  | case1 => exact fun w hw => absurd hw List.not_mem_nil
  | case2 a =>
      intro w hw
      have ha := a.toNat_lt
      rw [words, List.mem_singleton] at hw
      omega
  | case3 a b l ih =>
      intro w hw
      have ha := a.toNat_lt
      have hb := b.toNat_lt
      rw [words, List.mem_cons] at hw
      rcases hw with rfl | hw
      · omega
      · exact ih w hw

/-- A string of whole words before another one. -/
lemma total_append {l : List UInt8} (h : l.length % 2 = 0) (l' : List UInt8) :
    total (l ++ l') = total l + total l' := by
  induction l using words.induct with
  | case1 => rw [List.nil_append, total, total, words, List.sum_nil, Nat.zero_add]
  | case2 a => rw [List.length_singleton] at h; omega
  | case3 a b l ih =>
      have hrest := ih (by rw [List.length_cons, List.length_cons] at h; omega)
      rw [total, total, List.cons_append, List.cons_append, words, words, List.sum_cons, List.sum_cons]
      rw [total, total] at hrest
      lia

/-! ### Carries -/

/-- A sum with its carries added in again, until there are none. -/
def carry (s : ℕ) : ℕ := if s < 65536 then s else carry (s % 65536 + s / 65536)
termination_by s
decreasing_by omega

lemma carry_lt (s : ℕ) : carry s < 65536 := by
  induction s using carry.induct with
  | case1 s h => rwa [carry, if_pos h]
  | case2 s h ih => rwa [carry, if_neg h]

/-- Carrying keeps the remainder. -/
lemma carry_mod (s : ℕ) : carry s % 65535 = s % 65535 := by
  induction s using carry.induct with
  | case1 s h => rw [carry, if_pos h]
  | case2 s h ih =>
      rw [carry, if_neg h, ih]
      omega

lemma carry_eq_zero_iff (s : ℕ) : carry s = 0 ↔ s = 0 := by
  induction s using carry.induct with
  | case1 s h => rw [carry, if_pos h]
  | case2 s h ih =>
      rw [carry, if_neg h, ih]
      omega

/-- **All ones**: the sums that are multiples of 65535, but zero. -/
theorem carry_eq_max_iff (s : ℕ) : carry s = 65535 ↔ s % 65535 = 0 ∧ s ≠ 0 := by
  have hlt := carry_lt s
  have hmod := carry_mod s
  have hzero := carry_eq_zero_iff s
  lia

/-! ### Parts of a buffer -/

/-- `n` bytes of a buffer from `a` on. -/
def bytes (buf : ℕ → UInt8) (a n : ℕ) : List UInt8 := (List.range n).map fun i => buf (a + i)

@[simp] lemma length_bytes (buf : ℕ → UInt8) (a n : ℕ) : (bytes buf a n).length = n := by
  rw [bytes, List.length_map, List.length_range]

lemma bytes_congr {buf buf' : ℕ → UInt8} {a n : ℕ} (h : ∀ i, a ≤ i → i < a + n → buf' i = buf i) :
    bytes buf' a n = bytes buf a n :=
  List.map_congr_left fun i hi => h _ (by omega) (by have := List.mem_range.mp hi; omega)

lemma bytes_add (buf : ℕ → UInt8) (a m n : ℕ) : bytes buf a (m + n) = bytes buf a m ++ bytes buf (a + m) n := by
  rw [bytes, List.range_add, List.map_append, List.map_map]
  exact congrArg _ (List.map_congr_left fun i _ => by rw [Function.comp_apply, Nat.add_assoc])

/-- The word at a place. -/
def get16 (buf : ℕ → UInt8) (i : ℕ) : ℕ := (buf i).toNat * 256 + (buf (i + 1)).toNat

/-- A word written at a place. -/
def put16 (buf : ℕ → UInt8) (i v : ℕ) : ℕ → UInt8 :=
  Function.update (Function.update buf i (UInt8.ofNat (v / 256))) (i + 1) (UInt8.ofNat v)

lemma get16_lt (buf : ℕ → UInt8) (i : ℕ) : get16 buf i < 65536 := by
  have hfst := (buf i).toNat_lt
  have hsnd := (buf (i + 1)).toNat_lt
  rw [get16]
  omega

lemma put16_of_ne (buf : ℕ → UInt8) {i j : ℕ} (v : ℕ) (h : j ≠ i) (h' : j ≠ i + 1) : put16 buf i v j = buf j := by
  rw [put16, Function.update_of_ne h', Function.update_of_ne h]

lemma get16_put16 (buf : ℕ → UInt8) (i : ℕ) {v : ℕ} (h : v < 65536) : get16 (put16 buf i v) i = v := by
  rw [get16, put16, Function.update_self, Function.update_of_ne (by omega), Function.update_self, UInt8.toNat_ofNat',
    UInt8.toNat_ofNat']
  omega

lemma total_bytes_two (buf : ℕ → UInt8) (i : ℕ) : total (bytes buf i 2) = get16 buf i := by
  show (words [buf (i + 0), buf (i + 1)]).sum = _
  rw [words, words, List.sum_singleton, get16, Nat.add_zero]

/-- **A word of a part of a buffer**: its share of the sum. -/
lemma total_bytes_split (buf : ℕ → UInt8) {a k n : ℕ} (h : 2 * k + 2 ≤ n) :
    total (bytes buf a n) = total (bytes buf a (2 * k)) + get16 buf (a + 2 * k)
      + total (bytes buf (a + 2 * k + 2) (n - 2 * k - 2)) := by
  have hsplit : bytes buf a n
      = bytes buf a (2 * k) ++ (bytes buf (a + 2 * k) 2 ++ bytes buf (a + 2 * k + 2) (n - 2 * k - 2)) := by
    rw [← bytes_add, ← bytes_add]
    congr 1
    omega
  rw [hsplit, total_append (by rw [length_bytes]; omega), total_append (by rw [length_bytes]), total_bytes_two]
  omega

/-- **A word written into a part of a buffer** changes the sum by what it changes itself. -/
theorem total_bytes_put (buf : ℕ → UInt8) {a k n v : ℕ} (h : 2 * k + 2 ≤ n) (hv : v < 65536) :
    total (bytes (put16 buf (a + 2 * k) v) a n) + get16 buf (a + 2 * k) = total (bytes buf a n) + v := by
  have hbefore : bytes (put16 buf (a + 2 * k) v) a (2 * k) = bytes buf a (2 * k) :=
    bytes_congr fun i _ hi => put16_of_ne _ _ (by omega) (by omega)
  have hafter : bytes (put16 buf (a + 2 * k) v) (a + 2 * k + 2) (n - 2 * k - 2)
      = bytes buf (a + 2 * k + 2) (n - 2 * k - 2) :=
    bytes_congr fun i hi _ => put16_of_ne _ _ (by omega) (by omega)
  rw [total_bytes_split _ h, total_bytes_split buf h, get16_put16 _ _ hv, hbefore, hafter]
  lia

/-- A word written elsewhere does not. -/
lemma bytes_put_of_disjoint (buf : ℕ → UInt8) {a n i v : ℕ} (h : i + 2 ≤ a ∨ a + n ≤ i) :
    bytes (put16 buf i v) a n = bytes buf a n :=
  bytes_congr fun j hj hj' => put16_of_ne _ _ (by omega) (by omega)

end OnesComplement
