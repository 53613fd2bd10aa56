import Ka10Simh.B5500.CharMode.Pointer

/-!
The operators of word mode on fields of bits. A field begins at a bit that a pointer is dialled to and goes on downwards.

* `bitMask`, `fieldLoop`, `bitField`: the table and the loop of the operators `TRB`, `FCL` and `FCE`.
* `conditionalField`: the branches on a field that is not zero.
* `field`, `First`, `Last`: a field as a number, and the bits where two numbers differ.
* `trb_spec`, `compare_run`, `first_lt`: a run of the loop, and the order of two fields.
* `bitFields_iff`: which of the operators do as they should, and where.
-/

namespace Ka10Simh.B5500

open Word

/-! ### The source -/

/-- The operators `TRB`, `FCL` and `FCE`. -/
inductive BitOp
  | trb | fcl | fce
  deriving DecidableEq

/-- `bit_mask`, with what is read outside of the table. -/
def bitMask (outside : ℤ → ℕ) (i : ℤ) : ℕ := if i < 0 ∨ 64 ≤ i then outside i else if i < 48 then 2 ^ i.toNat else 0

/-- One bit of the loop: `f` and `B`. -/
def fieldBit (outside : ℤ → ℕ) (op : BitOp) (a : ℕ) (bitA bitB : ℤ) (f b : ℕ) : ℕ × ℕ :=
  let ba := decide (bitMask outside bitA &&& a ≠ 0)
  if op = .trb then (f, if ba = true then bic b (bitMask outside bitB) ||| bitMask outside bitB else bic b (bitMask outside bitB))
  else
    let bb := decide (bitMask outside bitB &&& b ≠ 0)
    -- the loop goes on after a difference
    (if ba ≠ bb then if op = .fcl then ba.toNat else 0 else f, b)

/-- The loop. -/
def fieldLoop (outside : ℤ → ℕ) (op : BitOp) (a : ℕ) : ℕ → ℤ → ℤ → ℕ × ℕ → ℕ × ℕ
  | 0, _, _, (f, b) => (f, b)
  | n + 1, bitA, bitB, (f, b) =>
      if bitA ≥ 0 ∧ bitB ≥ 0 then
        fieldLoop outside op a n (bitA - 1) (bitB - 1) (fieldBit outside op a bitA bitB f b)
      else (f, b)

/-- `TRB`, `FCL`, `FCE`. -/
def bitField (outside : ℤ → ℕ) (op : BitOp) (n : ℕ) (s : Cpu) : Cpu :=
  let s := abValid s
  let fb := fieldLoop outside op s.a n (bitNumber s.gh) (bitNumber s.kv) (1, s.b)
  let s := { s with b := fb.2 }
  if op ≠ .trb then { s with a := fb.1 } else { s with arof := false }

/-- The indices into `bit_mask` of the conditional branches. -/
def maskIndices (bitB : ℤ) (n : ℕ) : List ℤ := (List.range n).map fun k : ℕ ↦ bitB - (n - k)

/-- `DEL`, and `CFN`, `CBN`, `CFD` and `CBD`, which set `T` to a branch. -/
def conditionalField (outside : ℤ → ℕ) (field : ℕ) (s : Cpu) : Cpu :=
  if field &&& 0o74 = 0 then
    if s.arof = true then { s with arof := false }
    else if s.brof = true then { s with brof := false }
    else { s with s := prevAddr s.s }
  else
    let s := abValid s
    let s := if field &&& 2 ≠ 0 then { s with brof := false } else s
    if (maskIndices (bitNumber s.gh) (field >>> 2 &&& 0o17)).any fun i ↦ s.b &&& bitMask outside i ≠ 0 then
      { s with t := if field &&& 1 ≠ 0 then 0o4131 else 0o4231, trof := true }
    else { s with arof := false }

/-! ### Fields -/

/-- The field of `n` bits that begins at the bit `top`, or as many of them as there are. -/
def field (w top n : ℕ) : ℕ := w % 2 ^ (top + 1) / 2 ^ (top + 1 - n)

/-- The first and the last bit where two numbers differ. -/
def First (u v i : ℕ) : Prop := u.testBit i ≠ v.testBit i ∧ ∀ j, i < j → u.testBit j = v.testBit j
def Last (u v i : ℕ) : Prop := u.testBit i ≠ v.testBit i ∧ ∀ j < i, u.testBit j = v.testBit j

/-- The bits that a transfer or a comparison gets to, and the two fields. -/
def shared (n : ℕ) (s : Cpu) : ℕ := min n (min (bitNumber s.gh + 1) (bitNumber s.kv + 1))
def fieldA (n : ℕ) (s : Cpu) : ℕ := field s.a (bitNumber s.gh) (shared n s)
def fieldB (n : ℕ) (s : Cpu) : ℕ := field s.b (bitNumber s.kv) (shared n s)

/-- `FCL` gives one where the field of `A` is greater, and zero where it is smaller. -/
def Ordered (outside : ℤ → ℕ) (n : ℕ) (s : Cpu) : Prop :=
  (fieldA n (abValid s) > fieldB n (abValid s) → (bitField outside .fcl n s).a = 1) ∧
    (fieldA n (abValid s) < fieldB n (abValid s) → (bitField outside .fcl n s).a = 0)

/-- The first and the last difference of the fields are ones of the same field. -/
def OneSided (n : ℕ) (s : Cpu) : Prop :=
  ∀ i j, First (fieldA n (abValid s)) (fieldB n (abValid s)) i → Last (fieldA n (abValid s)) (fieldB n (abValid s)) j →
    (fieldA n (abValid s)).testBit i = (fieldA n (abValid s)).testBit j

/-- The count of a conditional branch. -/
def count (f : ℕ) : ℕ := f >>> 2 &&& 0o17

/-- A branch, backward or forward, is made when the field has a one bit, and no index is outside of the table of 48 bits. -/
def Branches (outside : ℤ → ℕ) (f : ℕ) (s : Cpu) : Prop :=
  ((conditionalField outside f { s with trof := false }).trof = true ↔
      field (abValid s).b (bitNumber (abValid s).gh) (count f) ≠ 0) ∧
    ((conditionalField outside f { s with trof := false }).trof = true →
      (conditionalField outside f { s with trof := false }).t = if f &&& 1 ≠ 0 then 0o4131 else 0o4231) ∧
    ∀ i ∈ maskIndices (bitNumber (abValid s).gh) (count f), 0 ≤ i ∧ i ≤ 47

/-- The bit after the field is in the word, and the bits of the field that are tested do not leave it open. -/
def Within (f : ℕ) (s : Cpu) : Prop :=
  count f ≤ bitNumber (abValid s).gh ∧
    ((∃ i < bitNumber (abValid s).gh, bitNumber (abValid s).gh < i + count f ∧ (abValid s).b.testBit i = true) ∨
      (abValid s).b.testBit (bitNumber (abValid s).gh - count f) = (abValid s).b.testBit (bitNumber (abValid s).gh))

variable {u v w i j k n top a b f : ℕ} {x y : ℤ} {outside : ℤ → ℕ} {s : Cpu}

lemma field_testBit (hn : n ≤ top + 1) (w i : ℕ) :
    (field w top n).testBit i = (decide (i < n) && w.testBit (top + 1 - n + i)) := by
  rw [field, Nat.testBit_div_two_pow, Nat.testBit_mod_two_pow, add_comm i]
  congr 1
  rw [decide_eq_decide]
  omega

/-- The bits of a field, which may be cut off at the end of the word. -/
lemma field_ne_zero : field w top n ≠ 0 ↔ ∃ i ≤ top, top < i + n ∧ w.testBit i = true := by
  have hbit (i : ℕ) : (field w top n).testBit i = (decide (i + (top + 1 - n) < top + 1) && w.testBit (i + (top + 1 - n))) := by
    rw [field, Nat.testBit_div_two_pow, Nat.testBit_mod_two_pow, add_comm i]
  rw [Ne, eq_zero_iff_testBit, not_forall]
  constructor
  · rintro ⟨i, hi⟩
    rw [hbit, Bool.not_eq_false, Bool.and_eq_true, decide_eq_true_eq] at hi
    exact ⟨i + (top + 1 - n), by omega, by omega, hi.2⟩
  · rintro ⟨i, hi, hin, hone⟩
    refine ⟨i - (top + 1 - n), ?_⟩
    rw [hbit, Nat.sub_add_cancel (by omega), hone, Bool.not_eq_false, Bool.and_true, decide_eq_true_eq]
    omega

/-! ### The order of two numbers -/

/-- The first difference decides. -/
lemma First.lt_iff (h : First u v i) : v < u ↔ u.testBit i = true := by
  cases hu : u.testBit i with
  | true =>
      have hv : v.testBit i = false := by
        have hne := h.1
        rw [hu, ne_comm, ne_eq, Bool.not_eq_true] at hne
        exact hne
      exact iff_of_true (Nat.lt_of_testBit i hv hu fun j hj ↦ (h.2 j hj).symm) rfl
  | false =>
      have hv : v.testBit i = true := by
        have hne := h.1
        rw [hu, ne_comm, ne_eq, Bool.not_eq_false] at hne
        exact hne
      exact iff_of_false (Nat.lt_of_testBit i hu hv h.2).not_gt Bool.false_ne_true

/-- Numbers that are not equal have a first difference and a last one. -/
lemma exists_first (h : u ≠ v) : ∃ i, First u v i := by
  have hxor : u ^^^ v ≠ 0 := fun hzero ↦ h (Nat.xor_eq_zero_iff.mp hzero)
  obtain ⟨i, hi, hhigh⟩ := Nat.exists_most_significant_bit hxor
  refine ⟨i, ?_, fun j hj ↦ ?_⟩
  · rw [Nat.testBit_xor, bne_iff_ne] at hi
    exact hi
  · have hj' := hhigh j hj
    rw [Nat.testBit_xor, bne_eq_false_iff_eq] at hj'
    exact hj'

lemma exists_last (h : u ≠ v) : ∃ i, Last u v i := by
  have hdiff : ∃ i, u.testBit i ≠ v.testBit i := by
    obtain ⟨i, hi⟩ := exists_first h
    exact ⟨i, hi.1⟩
  refine ⟨Nat.find hdiff, Nat.find_spec hdiff, fun j hj ↦ ?_⟩
  exact Classical.not_not.mp (Nat.find_min hdiff hj)

/-! ### The loop -/

lemma bitMask_eq (h0 : 0 ≤ x) (h : x ≤ 47) : bitMask outside x = 2 ^ x.toNat := by
  rw [bitMask, if_neg (by omega), if_pos (by omega)]

lemma decide_mask (w k : ℕ) : decide (2 ^ k &&& w ≠ 0) = w.testBit k := by
  rw [Bool.eq_iff_iff, decide_eq_true_iff, Nat.and_comm, and_two_pow_ne_zero]

/-- A bit that is copied. -/
lemma fieldBit_trb (hx0 : 0 ≤ x) (hx : x ≤ 47) (hy0 : 0 ≤ y) (hy : y ≤ 47) (k : ℕ) :
    (fieldBit outside .trb a x y f b).2.testBit k = if k = y.toNat then a.testBit x.toNat else b.testBit k := by
  rw [fieldBit, if_pos rfl, bitMask_eq hx0 hx, bitMask_eq hy0 hy]
  dsimp only
  rw [decide_mask]
  by_cases hk : k = y.toNat
  · rw [if_pos hk, hk]
    cases a.testBit x.toNat with
    | false => simp
    | true => simp
  · rw [if_neg hk]
    cases a.testBit x.toNat with
    | false => simp [Nat.testBit_two_pow_of_ne (Ne.symm hk)]
    | true => simp [Nat.testBit_two_pow_of_ne (Ne.symm hk)]

/-- A bit that is compared. -/
lemma fieldBit_compare {op : BitOp} (hop : op ≠ .trb) (hx0 : 0 ≤ x) (hx : x ≤ 47) (hy0 : 0 ≤ y) (hy : y ≤ 47) :
    fieldBit outside op a x y f b =
      (if a.testBit x.toNat ≠ b.testBit y.toNat then if op = .fcl then (a.testBit x.toNat).toNat else 0 else f, b) := by
  rw [fieldBit, if_neg hop, bitMask_eq hx0 hx, bitMask_eq hy0 hy]
  dsimp only
  rw [decide_mask, decide_mask]

lemma fieldLoop_step {op : BitOp} {fb : ℕ × ℕ} (hx : 0 ≤ x) (hy : 0 ≤ y) : fieldLoop outside op a (n + 1) x y fb =
    fieldLoop outside op a n (x - 1) (y - 1) (fieldBit outside op a x y fb.1 fb.2) := if_pos ⟨hx, hy⟩

lemma fieldLoop_end {op : BitOp} {fb : ℕ × ℕ} (h : ¬ (x ≥ 0 ∧ y ≥ 0)) : fieldLoop outside op a (n + 1) x y fb = fb := if_neg h

/-- A run that copies: the bit that is `y - k` bits down in both fields. -/
lemma trb_run (hx : x ≤ 47) (hy : y ≤ 47) (k : ℕ) : (fieldLoop outside .trb a n x y (f, b)).2.testBit k =
    if 0 ≤ y - k ∧ y - k < n ∧ y - k ≤ x then a.testBit (x - (y - k)).toNat else b.testBit k := by
  induction n generalizing x y f b with
  | zero => rw [fieldLoop, if_neg (by omega)]
  | succ n ih =>
      by_cases hin : x ≥ 0 ∧ y ≥ 0
      · rw [fieldLoop_step hin.1 hin.2, ih (by omega) (by omega), fieldBit_trb hin.1 hx hin.2 hy]
        by_cases hk : k = y.toNat
        · rw [if_neg (by omega), if_pos hk, if_pos (by lia), show y - k = 0 by lia, sub_zero]
        · rw [if_neg hk, show x - 1 - (y - 1 - k) = x - (y - k) by ring]
          refine if_congr ?_ rfl rfl
          omega
      · rw [fieldLoop_end hin, if_neg (by omega)]

/-- The bits at some distance into the fields are the same. -/
def Agree (a b : ℕ) (x y : ℤ) (j : ℕ) : Prop := a.testBit (x - j).toNat = b.testBit (y - j).toNat

lemma agree_succ (a b : ℕ) (x y : ℤ) (j : ℕ) : Agree a b (x - 1) (y - 1) j ↔ Agree a b x y (j + 1) := by
  rw [Agree, Agree, show x - 1 - j = x - (j + 1 : ℕ) by push_cast; ring, show y - 1 - j = y - (j + 1 : ℕ) by push_cast; ring]

/-- A run that compares, where all bits agree, and where some bit is the last one that does not. -/
lemma compare_run {op : BitOp} (hop : op ≠ .trb) (hx : x ≤ 47) (hy : y ≤ 47) :
    ((∀ j < n, (j : ℤ) ≤ x → (j : ℤ) ≤ y → Agree a b x y j) → (fieldLoop outside op a n x y (f, b)).1 = f) ∧
    ∀ j < n, (j : ℤ) ≤ x → (j : ℤ) ≤ y → ¬ Agree a b x y j →
      (∀ l < n, j < l → (l : ℤ) ≤ x → (l : ℤ) ≤ y → Agree a b x y l) →
      (fieldLoop outside op a n x y (f, b)).1 = if op = .fcl then (a.testBit (x - j).toNat).toNat else 0 := by
  induction n generalizing x y f with
  | zero => exact ⟨fun _ ↦ rfl, fun j hj ↦ absurd hj (by omega)⟩
  | succ n ih =>
      by_cases hin : x ≥ 0 ∧ y ≥ 0
      · have hfirst : Agree a b x y 0 ↔ a.testBit x.toNat = b.testBit y.toNat := by
          rw [Agree, Nat.cast_zero, sub_zero, sub_zero]
        rw [fieldLoop_step hin.1 hin.2, fieldBit_compare hop hin.1 hx hin.2 hy]
        constructor
        · intro hall
          rw [if_neg (Classical.not_not.mpr (hfirst.mp (hall 0 (by omega) (by omega) (by omega))))]
          refine (ih (by omega) (by omega)).1 fun j hj hjx hjy ↦ ?_
          exact (agree_succ a b x y j).mpr (hall (j + 1) (by omega) (by push_cast; omega) (by push_cast; omega))
        · intro j hj hjx hjy hdiff hrest
          cases j with
          | zero =>
              rw [if_pos fun heq ↦ hdiff (hfirst.mpr heq), Nat.cast_zero, sub_zero]
              refine (ih (by omega) (by omega)).1 fun l hl hlx hly ↦ ?_
              exact (agree_succ a b x y l).mpr (hrest (l + 1) (by omega) (by omega) (by push_cast; omega) (by push_cast; omega))
          | succ j =>
              have hrun := (ih (f := if a.testBit x.toNat ≠ b.testBit y.toNat then
                  if op = .fcl then (a.testBit x.toNat).toNat else 0 else f) (show x - 1 ≤ 47 by omega) (show y - 1 ≤ 47 by omega)).2 j
                (by omega) (by push_cast at hjx; omega) (by push_cast at hjy; omega)
                (fun heq ↦ hdiff ((agree_succ a b x y j).mp heq)) fun l hl hjl hlx hly ↦
                  (agree_succ a b x y l).mpr (hrest (l + 1) (by omega) (by omega) (by push_cast; omega) (by push_cast; omega))
              rw [hrun, show x - 1 - j = x - (j + 1 : ℕ) by push_cast; ring]
      · exact ⟨fun _ ↦ congrArg Prod.fst (fieldLoop_end hin), fun j _ hjx hjy ↦ absurd ⟨by omega, by omega⟩ hin⟩

/-! ### Transfers and comparisons -/

lemma bitNumber_le (x : ℕ) : bitNumber x ≤ 47 := by
  have hall : ∀ y ∈ bitNumbers, y ≤ 47 := by decide
  rw [bitNumber, List.getD_eq_getElem?_getD]
  cases h : bitNumbers[x]? with
  | none => exact Nat.zero_le _
  | some y => exact hall y (List.mem_of_getElem? h)

lemma bitNumber_le_int (x : ℕ) : (bitNumber x : ℤ) ≤ 47 := by exact_mod_cast bitNumber_le x

/-- **The transfer of bits.** -/
theorem trb_spec (outside : ℤ → ℕ) (n : ℕ) (s : Cpu) : ∃ b, bitField outside .trb n s = { abValid s with b := b, arof := false } ∧
    ∀ k, b.testBit k = if k ≤ bitNumber (abValid s).kv ∧ bitNumber (abValid s).kv < k + shared n (abValid s)
      then (abValid s).a.testBit (bitNumber (abValid s).gh + k - bitNumber (abValid s).kv) else (abValid s).b.testBit k := by
  refine ⟨_, rfl, fun k ↦ ?_⟩
  dsimp only
  rw [trb_run (bitNumber_le_int _) (bitNumber_le_int _), shared]
  by_cases hin : k ≤ bitNumber (abValid s).kv ∧
      bitNumber (abValid s).kv < k + min n (min (bitNumber (abValid s).gh + 1) (bitNumber (abValid s).kv + 1))
  · rw [if_pos hin, if_pos (by lia)]
    congr 1
    lia
  · rw [if_neg hin, if_neg (by lia)]

lemma shared_lt : j < shared n s ↔ j < n ∧ (j : ℤ) ≤ bitNumber s.gh ∧ (j : ℤ) ≤ bitNumber s.kv := by
  rw [shared]
  lia

lemma fieldA_testBit (n : ℕ) (s : Cpu) (i : ℕ) :
    (fieldA n s).testBit i = (decide (i < shared n s) && s.a.testBit (bitNumber s.gh + 1 - shared n s + i)) :=
  field_testBit ((min_le_right _ _).trans (min_le_left _ _)) _ _

lemma fieldB_testBit (n : ℕ) (s : Cpu) (i : ℕ) :
    (fieldB n s).testBit i = (decide (i < shared n s) && s.b.testBit (bitNumber s.kv + 1 - shared n s + i)) :=
  field_testBit ((min_le_right _ _).trans (min_le_right _ _)) _ _

/-- The bits of the loop, counted from the first one, are those of the fields. -/
lemma bits_eq (hj : j < shared n s) :
    s.a.testBit (bitNumber s.gh - j : ℤ).toNat = (fieldA n s).testBit (shared n s - 1 - j) ∧
      s.b.testBit (bitNumber s.kv - j : ℤ).toNat = (fieldB n s).testBit (shared n s - 1 - j) := by
  have hin := shared_lt.mp hj
  have hle : shared n s ≤ bitNumber s.gh + 1 ∧ shared n s ≤ bitNumber s.kv + 1 :=
    ⟨(min_le_right _ _).trans (min_le_left _ _), (min_le_right _ _).trans (min_le_right _ _)⟩
  rw [fieldA_testBit, fieldB_testBit, decide_eq_true (by omega), Bool.true_and, Bool.true_and]
  constructor
  · congr 1
    lia
  · congr 1
    lia

lemma agree_iff (hj : j < shared n s) : Agree s.a s.b (bitNumber s.gh) (bitNumber s.kv) j ↔
    (fieldA n s).testBit (shared n s - 1 - j) = (fieldB n s).testBit (shared n s - 1 - j) := by
  rw [Agree, (bits_eq hj).1, (bits_eq hj).2]

/-- Where the fields differ is in them. -/
lemma lt_shared (h : (fieldA n s).testBit i ≠ (fieldB n s).testBit i) : i < shared n s := by
  by_contra hout
  rw [fieldA_testBit, fieldB_testBit, decide_eq_false hout, Bool.false_and, Bool.false_and] at h
  exact h rfl

/-- The loop compares the fields: what it leaves when they are the same, and else at their last difference. -/
lemma compare_equal {op : BitOp} (hop : op ≠ .trb) (h : fieldA n s = fieldB n s) :
    (fieldLoop outside op s.a n (bitNumber s.gh) (bitNumber s.kv) (f, s.b)).1 = f := by
  refine (compare_run hop (bitNumber_le_int _) (bitNumber_le_int _)).1 fun j hj hjx hjy ↦ ?_
  rw [agree_iff (shared_lt.mpr ⟨hj, hjx, hjy⟩), h]

lemma compare_last {op : BitOp} (hop : op ≠ .trb) (h : Last (fieldA n s) (fieldB n s) i) :
    (fieldLoop outside op s.a n (bitNumber s.gh) (bitNumber s.kv) (f, s.b)).1 =
      if op = .fcl then ((fieldA n s).testBit i).toNat else 0 := by
  have hi := lt_shared h.1
  have hj : shared n s - 1 - i < shared n s := by omega
  have hback : shared n s - 1 - (shared n s - 1 - i) = i := by omega
  have hin := shared_lt.mp hj
  rw [(compare_run hop (bitNumber_le_int _) (bitNumber_le_int _)).2 (shared n s - 1 - i) hin.1 hin.2.1 hin.2.2,
    (bits_eq hj).1, hback]
  · rw [agree_iff hj, hback]
    exact h.1
  · intro l hl hil hlx hly
    have hl' := shared_lt.mpr ⟨hl, hlx, hly⟩
    rw [agree_iff hl']
    exact h.2 _ (by omega)

/-- `FCE` compares the fields. -/
lemma fce_spec (outside : ℤ → ℕ) (n : ℕ) (s : Cpu) :
    (bitField outside .fce n s).a = if fieldA n (abValid s) = fieldB n (abValid s) then 1 else 0 := by
  have ha : (bitField outside .fce n s).a =
      (fieldLoop outside .fce (abValid s).a n (bitNumber (abValid s).gh) (bitNumber (abValid s).kv) (1, (abValid s).b)).1 := rfl
  rw [ha]
  by_cases heq : fieldA n (abValid s) = fieldB n (abValid s)
  · rw [if_pos heq, compare_equal (by decide) heq]
  · obtain ⟨j, hj⟩ := exists_last heq
    rw [if_neg heq, compare_last (by decide) hj, if_neg (by decide)]

lemma First.unique (h : First u v i) (h' : First u v j) : i = j := by
  rcases lt_trichotomy i j with hlt | heq | hgt
  · exact absurd (h.2 j hlt) h'.1
  · exact heq
  · exact absurd (h'.2 i hgt) h.1

lemma Last.unique (h : Last u v i) (h' : Last u v j) : i = j := by
  rcases lt_trichotomy i j with hlt | heq | hgt
  · exact absurd (h'.2 i hlt) h.1
  · exact heq
  · exact absurd (h.2 j hgt) h'.1

/-- `FCL` goes by the last difference. -/
lemma fcl_iff (outside : ℤ → ℕ) (n : ℕ) (s : Cpu) : Ordered outside n s ↔ OneSided n s := by
  have ha : (bitField outside .fcl n s).a =
      (fieldLoop outside .fcl (abValid s).a n (bitNumber (abValid s).gh) (bitNumber (abValid s).kv) (1, (abValid s).b)).1 := rfl
  rw [Ordered, OneSided, ha]
  by_cases heq : fieldA n (abValid s) = fieldB n (abValid s)
  · refine iff_of_true ⟨fun h ↦ absurd heq h.ne', fun h ↦ absurd heq h.ne⟩ fun i j hi _ ↦ ?_
    exact absurd (by rw [heq]) hi.1
  · obtain ⟨i, hi⟩ := exists_first heq
    obtain ⟨j, hj⟩ := exists_last heq
    have hlt : fieldA n (abValid s) < fieldB n (abValid s) ↔ ¬ (fieldA n (abValid s)).testBit i = true := by
      rw [← hi.lt_iff, not_lt]
      exact ⟨le_of_lt, fun hle ↦ lt_of_le_of_ne hle heq⟩
    rw [compare_last (by decide) hj, if_pos rfl, gt_iff_lt, hi.lt_iff, hlt]
    have hall : (∀ i' j', First (fieldA n (abValid s)) (fieldB n (abValid s)) i' →
        Last (fieldA n (abValid s)) (fieldB n (abValid s)) j' →
          (fieldA n (abValid s)).testBit i' = (fieldA n (abValid s)).testBit j') ↔
        (fieldA n (abValid s)).testBit i = (fieldA n (abValid s)).testBit j := by
      refine ⟨fun h ↦ h i j hi hj, fun h i' j' hi' hj' ↦ ?_⟩
      rw [hi'.unique hi, hj'.unique hj, h]
    rw [hall]
    cases (fieldA n (abValid s)).testBit i <;> cases (fieldA n (abValid s)).testBit j <;> decide

/-! ### Branches on a field -/

lemma mem_maskIndices {i : ℤ} : i ∈ maskIndices x n ↔ x - n ≤ i ∧ i < x := by
  rw [maskIndices, List.mem_map]
  constructor
  · rintro ⟨k, hk, rfl⟩
    rw [List.mem_range] at hk
    omega
  · rintro ⟨hlow, hhigh⟩
    exact ⟨(i - (x - n)).toNat, by rw [List.mem_range]; omega, by omega⟩

/-- The bits that are tested are the `n` bits after the first one. -/
lemma any_mask (hx : top ≤ 47) (hn : n ≤ top) :
    ((maskIndices top n).any fun i ↦ b &&& bitMask outside i ≠ 0) = true ↔ ∃ i < top, top ≤ i + n ∧ b.testBit i = true := by
  rw [List.any_eq_true]
  constructor
  · rintro ⟨i, hi, hmask⟩
    rw [mem_maskIndices] at hi
    rw [decide_eq_true_eq, bitMask_eq (by omega) (by omega), and_two_pow_ne_zero] at hmask
    exact ⟨i.toNat, by omega, by omega, hmask⟩
  · rintro ⟨i, hi, hin, hone⟩
    refine ⟨i, mem_maskIndices.mpr ⟨by omega, by omega⟩, ?_⟩
    rw [decide_eq_true_eq, bitMask_eq (by omega) (by omega), Int.toNat_natCast, and_two_pow_ne_zero]
    exact hone

/-- The `n` bits from the first one on, and those after it, are the same but for the ends. -/
lemma fields_iff (hn : 0 < n) (hle : n ≤ top) :
    ((∃ i < top, top ≤ i + n ∧ b.testBit i = true) ↔ ∃ i ≤ top, top < i + n ∧ b.testBit i = true) ↔
      (∃ i < top, top < i + n ∧ b.testBit i = true) ∨ b.testBit (top - n) = b.testBit top := by
  have hafter : (∃ i < top, top ≤ i + n ∧ b.testBit i = true) ↔
      (∃ i < top, top < i + n ∧ b.testBit i = true) ∨ b.testBit (top - n) = true := by
    constructor
    · rintro ⟨i, hi, hin, hone⟩
      by_cases hlast : i = top - n
      · exact Or.inr (hlast ▸ hone)
      · exact Or.inl ⟨i, hi, by omega, hone⟩
    · rintro (⟨i, hi, hin, hone⟩ | hone)
      · exact ⟨i, hi, by omega, hone⟩
      · exact ⟨top - n, by omega, by omega, hone⟩
  have hfield : (∃ i ≤ top, top < i + n ∧ b.testBit i = true) ↔
      (∃ i < top, top < i + n ∧ b.testBit i = true) ∨ b.testBit top = true := by
    constructor
    · rintro ⟨i, hi, hin, hone⟩
      by_cases hfirst : i = top
      · exact Or.inr (hfirst ▸ hone)
      · exact Or.inl ⟨i, by omega, hin, hone⟩
    · rintro (⟨i, hi, hin, hone⟩ | hone)
      · exact ⟨i, by omega, hin, hone⟩
      · exact ⟨top, le_rfl, by omega, hone⟩
  rw [hafter, hfield]
  generalize (∃ i < top, top < i + n ∧ b.testBit i = true) = p
  cases b.testBit (top - n) <;> cases b.testBit top <;> by_cases hp : p <;> simp [hp]

/-- The operands are the same whether an operator waits in `T` or not. -/
lemma memoryCycle_trof (e : ℕ) (r : Bool) (s : Cpu) : memoryCycle e { s with trof := r } = { memoryCycle e s with trof := r } := by
  have haddress : ({ s with trof := r } : Cpu).address e = s.address e := rfl
  rw [memoryCycle, memoryCycle, haddress]
  dsimp only
  split_ifs <;> rfl

lemma readTop_trof (e : ℕ) (r : Bool) (s : Cpu) : readTop e { s with trof := r } = { readTop e s with trof := r } := by
  have hover : ({ s with trof := r } : Cpu).Overflows ↔ s.Overflows := Iff.rfl
  rw [readTop, readTop, memoryCycle_trof]
  by_cases ho : s.Overflows
  · rw [if_pos ho, if_pos (hover.mpr ho)]
    rfl
  · rw [if_neg ho, if_neg (hover.not.mpr ho)]

lemma aValid_trof (r : Bool) (s : Cpu) : aValid { s with trof := r } = { aValid s with trof := r } := by
  rw [aValid, aValid, readTop_trof]
  dsimp only
  split_ifs <;> rfl

lemma abValid_trof (r : Bool) (s : Cpu) : abValid { s with trof := r } = { abValid s with trof := r } := by
  rw [abValid, abValid, aValid_trof, readTop_trof]
  dsimp only
  split_ifs <;> rfl

/-- A conditional branch is made when one of the bits that are tested is a one. -/
lemma conditionalField_trof (h : f &&& 0o74 ≠ 0) (hv : (abValid s).trof = false) :
    ((conditionalField outside f s).trof = true ↔
      ((maskIndices (bitNumber (abValid s).gh) (count f)).any fun i ↦ (abValid s).b &&& bitMask outside i ≠ 0) = true) ∧
    ((conditionalField outside f s).trof = true →
      (conditionalField outside f s).t = if f &&& 1 ≠ 0 then 0o4131 else 0o4231) := by
  rw [conditionalField, if_neg h]
  generalize abValid s = v at hv ⊢
  have hsame : (if f &&& 2 ≠ 0 then { v with brof := false } else v).gh = v.gh ∧
      (if f &&& 2 ≠ 0 then { v with brof := false } else v).b = v.b ∧
      (if f &&& 2 ≠ 0 then { v with brof := false } else v).trof = false := by
    split_ifs
    · exact ⟨rfl, rfl, hv⟩
    · exact ⟨rfl, rfl, hv⟩
  dsimp only
  rw [hsame.1, hsame.2.1, count]
  by_cases hany : ((maskIndices (bitNumber v.gh) (f >>> 2 &&& 0o17)).any fun i ↦ v.b &&& bitMask outside i ≠ 0) = true
  · rw [if_pos hany]
    exact ⟨iff_of_true rfl hany, fun _ ↦ rfl⟩
  · have htrof : (if f &&& 2 ≠ 0 then { v with brof := false } else v).trof ≠ true := by
      rw [hsame.2.2]
      exact Bool.false_ne_true
    rw [if_neg hany]
    exact ⟨iff_of_false htrof hany, fun hno ↦ absurd hno htrof⟩

lemma count_pos (h : f &&& 0o74 ≠ 0) : 0 < count f := by
  have hcount : count f = f / 4 % 2 ^ 4 := by
    rw [count, Nat.shiftRight_eq_div_pow]
    exact Nat.and_two_pow_sub_one_eq_mod _ 4
  have hmask : f &&& 0o74 = (f / 4 % 2 ^ 4) * 4 := by
    rw [show 0o74 = (2 ^ 4 - 1) <<< 2 from rfl, and_shiftLeft, Nat.and_two_pow_sub_one_eq_mod, Nat.shiftRight_eq_div_pow,
      Nat.shiftLeft_eq]
  rw [hcount]
  lia

/-- A conditional branch tests the bits after those of the field. -/
lemma branches_iff (outside : ℤ → ℕ) (s : Cpu) (h : f &&& 0o74 ≠ 0) : Branches outside f s ↔ Within f s := by
  have hn := count_pos h
  have htop := bitNumber_le (abValid s).gh
  obtain ⟨htrof, ht⟩ := @conditionalField_trof f outside { s with trof := false } h (by rw [abValid_trof])
  rw [abValid_trof] at htrof
  dsimp only at htrof
  rw [Branches, Within, and_iff_right ht, htrof, field_ne_zero]
  generalize abValid s = v at htop ⊢
  have hindices : (∀ i ∈ maskIndices (bitNumber v.gh) (count f), 0 ≤ i ∧ i ≤ 47) ↔ count f ≤ bitNumber v.gh := by
    refine ⟨fun hall ↦ ?_, fun hle i hi ↦ ?_⟩
    · have hfirst := (hall _ (mem_maskIndices.mpr ⟨le_refl ((bitNumber v.gh : ℤ) - count f), by omega⟩)).1
      omega
    · rw [mem_maskIndices] at hi
      omega
  rw [hindices, and_comm]
  refine and_congr_right fun hle ↦ ?_
  rw [any_mask htop hle]
  exact fields_iff hn hle

/-! ### All operators -/

/-- **`TRB` and `FCE` do as they should; `FCL` does when the first and the last difference are ones of the same field, and
a conditional branch when the bits that are tested do not leave its field open.** -/
theorem bitFields_iff (outside : ℤ → ℕ) (s : Cpu) :
    (∀ n, ∃ b, bitField outside .trb n s = { abValid s with b := b, arof := false } ∧
      ∀ k, b.testBit k = if k ≤ bitNumber (abValid s).kv ∧ bitNumber (abValid s).kv < k + shared n (abValid s)
        then (abValid s).a.testBit (bitNumber (abValid s).gh + k - bitNumber (abValid s).kv) else (abValid s).b.testBit k) ∧
    (∀ n, (bitField outside .fce n s).a = if fieldA n (abValid s) = fieldB n (abValid s) then 1 else 0) ∧
    (∀ n, Ordered outside n s ↔ OneSided n s) ∧
    ∀ f, f &&& 0o74 ≠ 0 → (Branches outside f s ↔ Within f s) :=
  ⟨fun n ↦ trb_spec outside n s, fun n ↦ fce_spec outside n s, fun n ↦ fcl_iff outside n s,
    fun _ h ↦ branches_iff outside s h⟩

/-- Two in `A`, one in `B`, and both pointers at the bit of the two. -/
def differing : Cpu := { fullStack with a := 2, b := 1, gh := 0o74, kv := 0o74 }

/-- The greater field is not found to be greater, and a field of one bit that is zero makes a branch. -/
theorem fields_missed : ¬ Ordered (fun _ ↦ 0) 2 differing ∧ ¬ Branches (fun _ ↦ 0) 0o4 differing := by
  refine ⟨fun hordered ↦ absurd (hordered.1 (by decide)) (by decide), fun hbranches ↦ ?_⟩
  exact absurd (hbranches.1.mp (by decide)) (by decide)

end Ka10Simh.B5500
