import Ka10Simh.Lib.Bits

/-!
Fields of words: values of one size deposited at places of a store, some bits up in a word, and read
again.

* `Fields.deposit`, `Fields.extract`: a field of a word.
* `Fields.extract_puts`: values put one after the other into fields that are apart are there at the end.
* `Fields.testBit_puts`: the other bits of the store are as they were.
* `Fields.join_and`: the parts of a word that are put together are found in it again.
-/

namespace Fields

open Word

variable {π : Type*} [DecidableEq π]

/-- The bits of a field. -/
def mask (pos size : ℕ) : ℕ := (2 ^ size - 1) <<< pos

/-- A word with a value in a field, and the value in it. -/
def deposit (pos size v w : ℕ) : ℕ := bic w (mask pos size) ||| (v <<< pos &&& mask pos size)
def extract (pos size w : ℕ) : ℕ := w >>> pos &&& (2 ^ size - 1)

lemma testBit_mask (pos size k : ℕ) :
    (mask pos size).testBit k = (decide (pos ≤ k) && decide (k < pos + size)) := by
  rw [mask, Nat.testBit_shiftLeft, Nat.testBit_two_pow_sub_one]
  rcases Nat.lt_or_ge k pos with hk | hk
  · simp [Nat.not_le.mpr hk]
  · rw [decide_eq_decide.mpr (show k - pos < size ↔ k < pos + size by omega)]

lemma mask_lt {pos size n : ℕ} (h : pos + size ≤ n) : mask pos size < 2 ^ n := by
  refine Nat.lt_pow_two_of_testBit _ fun k hk => ?_
  rw [testBit_mask, decide_eq_false (Nat.not_lt.mpr (h.trans hk)), Bool.and_false]

/-- The bits of a word after a deposit: those of the value in the field, and beside it the old ones. -/
lemma testBit_deposit (pos size v w k : ℕ) :
    (deposit pos size v w).testBit k
      = if pos ≤ k ∧ k < pos + size then v.testBit (k - pos) else w.testBit k := by
  rw [deposit, Nat.testBit_or, testBit_bic, Nat.testBit_and, Nat.testBit_shiftLeft, testBit_mask]
  split_ifs with hin
  · simp [hin.1, hin.2]
  · have hout : (decide (pos ≤ k) && decide (k < pos + size)) = false := by
      rw [← Bool.decide_and, decide_eq_false hin]
    simp [hout]

lemma testBit_extract (pos size w k : ℕ) :
    (extract pos size w).testBit k = (w.testBit (pos + k) && decide (k < size)) := by
  rw [extract, Nat.testBit_and, Nat.testBit_shiftRight, Nat.testBit_two_pow_sub_one]

lemma deposit_lt {pos size v w n : ℕ} (hfit : pos + size ≤ n) (hw : w < 2 ^ n) :
    deposit pos size v w < 2 ^ n := by
  refine Nat.lt_pow_two_of_testBit _ fun k hk => ?_
  rw [testBit_deposit, if_neg (by omega)]
  exact Nat.testBit_lt_two_pow (hw.trans_le (Nat.pow_le_pow_right (by norm_num) hk))

@[simp] lemma extract_deposit (pos size v w : ℕ) :
    extract pos size (deposit pos size v w) = v % 2 ^ size := by
  refine Nat.eq_of_testBit_eq fun k => ?_
  rw [testBit_extract, testBit_deposit, Nat.testBit_mod_two_pow]
  rcases Nat.lt_or_ge k size with hk | hk
  · rw [if_pos (by omega), Nat.add_sub_cancel_left, Bool.and_comm]
  · simp [Nat.not_lt.mpr hk]

/-- A field does not see what is deposited beside it. -/
lemma extract_deposit_of_apart {pos pos' size : ℕ} (h : pos + size ≤ pos' ∨ pos' + size ≤ pos)
    (v w : ℕ) : extract pos size (deposit pos' size v w) = extract pos size w := by
  refine Nat.eq_of_testBit_eq fun k => ?_
  rw [testBit_extract, testBit_extract, testBit_deposit]
  rcases Nat.lt_or_ge k size with hk | hk
  · rw [if_neg (by omega)]
  · simp [Nat.not_lt.mpr hk]

/-! ### Parts of a word -/

/-- A word of parts, each with the mask that it is within. -/
def join (parts : List (ℕ × ℕ)) : ℕ := parts.foldr (fun p w => p.1 ||| w) 0

/-- The parts are within their masks, and those are apart. -/
structure Separate (parts : List (ℕ × ℕ)) : Prop where
  within : ∀ p ∈ parts, p.1 &&& p.2 = p.1
  apart : (parts.map Prod.snd).Pairwise fun m n => m &&& n = 0

lemma join_cons (p : ℕ × ℕ) (parts : List (ℕ × ℕ)) : join (p :: parts) = p.1 ||| join parts := rfl

/-- A mask that is apart from those of the parts. -/
lemma join_apart {parts : List (ℕ × ℕ)} {m : ℕ} (hwithin : ∀ p ∈ parts, p.1 &&& p.2 = p.1)
    (hm : ∀ n ∈ parts.map Prod.snd, m &&& n = 0) : join parts &&& m = 0 := by
  induction parts with
  | nil => exact Nat.zero_and m
  | cons p parts ih =>
      rw [List.forall_mem_cons] at hwithin
      rw [List.map_cons, List.forall_mem_cons] at hm
      have hp : p.1 &&& m = 0 := by rw [← hwithin.1, Nat.and_assoc, Nat.and_comm p.2, hm.1, Nat.and_zero]
      rw [join_cons, Nat.and_or_distrib_right, hp, ih hwithin.2 hm.2, Nat.or_zero]

/-- **A part is what its mask leaves of the word.** -/
theorem join_and {parts : List (ℕ × ℕ)} (h : Separate parts) {v m : ℕ} (hin : (v, m) ∈ parts) :
    join parts &&& m = v := by
  induction parts with
  | nil => exact absurd hin List.not_mem_nil
  | cons p parts ih =>
      obtain ⟨hwithin, hapart⟩ := h
      rw [List.forall_mem_cons] at hwithin
      rw [List.map_cons, List.pairwise_cons] at hapart
      rw [join_cons, Nat.and_or_distrib_right]
      rcases List.mem_cons.mp hin with rfl | hrest
      · rw [join_apart hwithin.2 hapart.1, Nat.or_zero]
        exact hwithin.1
      · have hm : p.1 &&& m = 0 := by
          rw [← hwithin.1, Nat.and_assoc, hapart.1 m (List.mem_map.mpr ⟨_, hrest, rfl⟩), Nat.and_zero]
        rw [hm, Nat.zero_or, ih ⟨hwithin.2, hapart.2⟩ hrest]

/-! ### Fields of a store -/

/-- Where field `i` is: its place, and how far up it is. -/
structure Layout (π : Type*) where
  place : ℕ → π
  pos : ℕ → ℕ
  size : ℕ

variable (l : Layout π)

namespace Layout

/-- Put a value into field `i`, and read it. -/
def put (i v : ℕ) (m : π → ℕ) : π → ℕ :=
  Function.update m (l.place i) (deposit (l.pos i) l.size v (m (l.place i)))
def get (i : ℕ) (m : π → ℕ) : ℕ := extract (l.pos i) l.size (m (l.place i))

/-- Put values into the fields from `i` on. -/
def puts : ℕ → List ℕ → (π → ℕ) → (π → ℕ)
  | _, [], m => m
  | i, v :: vs, m => puts (i + 1) vs (l.put i v m)

/-- Two fields have no bit in common. -/
def Apart (i j : ℕ) : Prop :=
  l.place i = l.place j → l.pos i + l.size ≤ l.pos j ∨ l.pos j + l.size ≤ l.pos i

variable {l}

lemma put_self (i v : ℕ) (m : π → ℕ) :
    l.put i v m (l.place i) = deposit (l.pos i) l.size v (m (l.place i)) :=
  Function.update_self _ _ _

lemma put_of_ne {i v : ℕ} {p : π} (hp : p ≠ l.place i) (m : π → ℕ) : l.put i v m p = m p :=
  Function.update_of_ne hp _ _

@[simp] lemma get_put (i v : ℕ) (m : π → ℕ) : l.get i (l.put i v m) = v % 2 ^ l.size := by
  rw [get, put_self, extract_deposit]

lemma get_put_of_apart {i j : ℕ} (h : l.Apart i j) (v : ℕ) (m : π → ℕ) :
    l.get i (l.put j v m) = l.get i m := by
  rw [get, get]
  by_cases hplace : l.place i = l.place j
  · rw [hplace, put_self, extract_deposit_of_apart (h hplace)]
  · rw [put_of_ne hplace]

/-- A field is as it was when values have been put into others. -/
lemma get_puts_of_apart {i k : ℕ} {vs : List ℕ}
    (h : ∀ j, i ≤ j → j < i + vs.length → l.Apart k j) (m : π → ℕ) :
    l.get k (l.puts i vs m) = l.get k m := by
  induction vs generalizing i m with
  | nil => rfl
  | cons v vs ih =>
      rw [List.length_cons] at h
      rw [puts, ih fun j hij hj => h j (by omega) (by omega),
        get_put_of_apart (h i le_rfl (by omega))]

/-- **Values put one after the other** into fields that are apart are there at the end. -/
theorem extract_puts {i k : ℕ} {vs : List ℕ} (hk : k < vs.length)
    (h : ∀ a b, i ≤ a → a < b → b < i + vs.length → l.Apart a b) (m : π → ℕ) :
    l.get (i + k) (l.puts i vs m) = vs[k] % 2 ^ l.size := by
  induction vs generalizing i k m with
  | nil => exact absurd hk (Nat.not_lt_zero k)
  | cons v vs ih =>
      rw [List.length_cons] at h hk
      rw [puts]
      cases k with
      | zero =>
          rw [Nat.add_zero, get_puts_of_apart fun j hij hj => h i j le_rfl (by omega) (by omega),
            get_put, List.getElem_cons_zero]
      | succ k =>
          have hrest := ih (i := i + 1) (k := k) (by omega)
            (fun a b ha hab hb => h a b (by omega) hab (by omega)) (l.put i v m)
          rw [show i + (k + 1) = i + 1 + k by omega, hrest, List.getElem_cons_succ]

/-- **The other bits** of the store are as they were. -/
theorem testBit_puts {i : ℕ} {vs : List ℕ} {p : π} {k : ℕ}
    (h : ∀ j, i ≤ j → j < i + vs.length → p = l.place j → k < l.pos j ∨ l.pos j + l.size ≤ k)
    (m : π → ℕ) : (l.puts i vs m p).testBit k = (m p).testBit k := by
  induction vs generalizing i m with
  | nil => rfl
  | cons v vs ih =>
      rw [List.length_cons] at h
      rw [puts, ih fun j hij hj => h j (by omega) (by omega)]
      by_cases hp : p = l.place i
      · have hbeside := h i le_rfl (by omega) hp
        rw [hp, put_self, testBit_deposit, if_neg (by omega)]
      · rw [put_of_ne hp]

/-- Values put into fields leave the places of none of them. -/
lemma puts_of_ne {i : ℕ} {vs : List ℕ} {p : π}
    (h : ∀ j, i ≤ j → j < i + vs.length → p ≠ l.place j) (m : π → ℕ) :
    l.puts i vs m p = m p :=
  Nat.eq_of_testBit_eq fun _ => testBit_puts (fun j hij hj hp => absurd hp (h j hij hj)) m

/-- Words of `n` bits stay so. -/
lemma puts_lt {n i : ℕ} {vs : List ℕ} {m : π → ℕ} {p : π} (hfit : ∀ j, l.pos j + l.size ≤ n)
    (hm : m p < 2 ^ n) : l.puts i vs m p < 2 ^ n := by
  refine Nat.lt_pow_two_of_testBit _ fun k hk => ?_
  rw [testBit_puts fun j _ _ _ => .inr ((hfit j).trans hk)]
  exact Nat.testBit_lt_two_pow (hm.trans_le (Nat.pow_le_pow_right (by norm_num) hk))

lemma puts_concat (i v : ℕ) (vs : List ℕ) (m : π → ℕ) :
    l.puts i (vs ++ [v]) m = l.put (i + vs.length) v (l.puts i vs m) := by
  induction vs generalizing i m with
  | nil => rfl
  | cons w vs ih =>
      rw [List.cons_append, puts, puts, ih, List.length_cons, Nat.add_right_comm, Nat.add_assoc]

end Layout

end Fields
