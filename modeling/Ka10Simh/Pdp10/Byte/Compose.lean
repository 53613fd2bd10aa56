import Ka10Simh.Pdp10.Byte.Pointer

/-!
Byte pointers compose: a run of IBP is an ADJBP, and two ADJBP are one.

A pointer moved to another byte is a pointer of the same kind, to bytes of the same size in the same
address space, and so it can be moved on (`BytePtr.place_place`). What is left is a question about
slots in a ring of words.

* `BytePtr.ibps`: successive IBP.
* `BytePtr.place_inj`: the moves that give the same pointer.
* `byte_pointers_compose`: when the instructions compose, for each pointer and each count.
-/

namespace Ka10Simh.Pdp10

open Word Slots

lemma moveAddr_div_mul {W : ℕ} (hW : 0 < W) (k v : ℕ) (n : ℤ) :
    moveAddr W v n / (W * k) = v / (W * k) := by
  rw [← Nat.div_div_eq_div_mul, moveAddr_div hW, Nat.div_div_eq_div_mul]

namespace BytePtr

variable {x : ByteMode} {b : BytePtr} {t : Slot}

/-! ### A pointer that has been moved -/

lemma space_cases (x : ByteMode) (b : BytePtr) :
    b.space x = 2 ^ 18 ∨ b.space x = 2 ^ 24 ∨ b.space x = 2 ^ 30 := by
  rw [space]
  split_ifs <;> simp

lemma space_pos (x : ByteMode) (b : BytePtr) : 0 < b.space x := by
  rcases space_cases x b with h | h | h <;> rw [h] <;> norm_num

/-- The address is moved below bit 30. -/
lemma moveAddr_space (x : ByteMode) (b : BytePtr) (v : ℕ) (n : ℤ) :
    moveAddr (b.space x) v n / 2 ^ 30 = v / 2 ^ 30 := by
  rcases space_cases x b with h | h | h <;> rw [h]
  · exact moveAddr_div_mul (by norm_num : 0 < 2 ^ 18) (2 ^ 12) v n
  · exact moveAddr_div_mul (by norm_num : 0 < 2 ^ 24) (2 ^ 6) v n
  · exact moveAddr_div (by norm_num) v n

/-- The first word of a pointer that is not short: the position, and below it the fields that a move
leaves. -/
lemma place_first (hshort : ¬ Short x b) :
    ∃ r, (b.place x t).first = (36 - t.byte * b.size x) * 2 ^ 30 + r
      ∧ r / 2 ^ 24 = b.first % 2 ^ 30 / 2 ^ 24
      ∧ (x.cfg.kiOrLater = true → r / 2 ^ 18 = b.first % 2 ^ 30 / 2 ^ 18) := by
  rw [place, if_neg hshort]
  by_cases hfull : b.isFull x = true
  · rw [if_pos hfull]
    exact ⟨_, rfl, rfl, fun _ => rfl⟩
  · rw [if_neg hfull, space_local hshort fun hf => absurd hf hfull]
    refine ⟨_, rfl, ?_, fun hx => ?_⟩
    · split_ifs
      · exact moveAddr_div_mul (by norm_num : 0 < 2 ^ 18) (2 ^ 6) _ _
      · exact moveAddr_div (by norm_num) _ _
    · rw [if_pos hx]
      exact moveAddr_div (by norm_num) _ _

lemma place_short_first (hshort : Short x b) :
    (b.place x t).first
      = code (36 - t.byte * b.size x) (b.size x) * 2 ^ 30 + addMod (2 ^ 30) b.first t.word := by
  rw [place, if_pos hshort]

lemma place_second (hshort : ¬ Short x b) : (b.place x t).second / 2 ^ 30 = b.second / 2 ^ 30 := by
  rw [place, if_neg hshort]
  by_cases hfull : b.isFull x = true
  · rw [if_pos hfull]
    exact moveAddr_space x b b.second t.word
  · rw [if_neg hfull]

lemma place_short (h : Valid x b) (hk : t.byte ≤ b.per x) : Short x (b.place x t) ↔ Short x b := by
  by_cases hshort : Short x b
  · have hcode := code_byte (h.entry hshort) hk
    have haddr := addMod_lt (by norm_num : 0 < 2 ^ 30) b.first t.word
    have hp : (b.place x t).p = code (36 - t.byte * b.size x) (b.size x) := by
      rw [p_eq, place_short_first hshort]
      have hlt : code (36 - t.byte * b.size x) (b.size x) < 63 := hcode.2.1
      omega
    have hge : 37 ≤ code (36 - t.byte * b.size x) (b.size x) := hcode.1
    refine iff_of_true ⟨hshort.1, ?_⟩ hshort
    rw [hp]
    omega
  · obtain ⟨r, hfirst, hr, -⟩ := place_first (t := t) hshort
    refine iff_of_false (fun hmoved => ?_) hshort
    have hp := hmoved.2
    rw [p_eq, hfirst] at hp
    lia

lemma place_isFull (hshort : ¬ Short x b) : (b.place x t).isFull x = b.isFull x := by
  obtain ⟨r, hfirst, -, hr⟩ := place_first (t := t) hshort
  have hbit (hklb : x.klb = true) : ((b.place x t).first &&& bit12 ≠ 0) ↔ (b.first &&& bit12 ≠ 0) := by
    have hlow := hr (kiOrLater_of_klb hklb)
    rw [show bit12 = 2 ^ 23 from rfl, and_pow_ne_zero, and_pow_ne_zero, hfirst]
    lia
  rw [isFull, isFull, Bool.eq_iff_iff]
  simp only [Bool.and_eq_true, bne_iff_ne]
  exact and_congr_right fun hon => hbit hon.1

/-- The position and the size of a pointer that has been moved. -/
lemma place_unit (h : Valid x b) (hk : t.byte ≤ b.per x) :
    (b.place x t).unit x = (36 - t.byte * b.size x, b.size x) := by
  by_cases hshort : Short x b
  · obtain ⟨hge, hlt, hentry⟩ := code_byte (h.entry hshort) hk
    have haddr := addMod_lt (by norm_num : 0 < 2 ^ 30) b.first t.word
    have hp : (b.place x t).p = code (36 - t.byte * (b.unit x).2) (b.unit x).2 := by
      rw [p_eq, place_short_first hshort, size]
      omega
    rw [unit, if_pos ((place_short h hk).mpr hshort), hp, hentry]
    rfl
  · obtain ⟨r, hfirst, hr, -⟩ := place_first (t := t) hshort
    have hsize := (unit_of_not_short hshort).2
    have hp : (b.place x t).p = 36 - t.byte * b.size x := by
      rw [p_eq, hfirst]
      omega
    have hs : (b.place x t).s = b.size x := by
      rw [hsize, s_eq, s_eq, hfirst]
      omega
    rw [unit, if_neg (mt (place_short h hk).mp hshort), hp, hs]

lemma place_size (h : Valid x b) (hk : t.byte ≤ b.per x) : (b.place x t).size x = b.size x := by
  rw [size, place_unit h hk]

lemma place_pos_eq (h : Valid x b) (hk : t.byte ≤ b.per x) :
    (b.place x t).pos x = 36 - t.byte * b.size x := by
  rw [pos, place_unit h hk]

lemma place_per (h : Valid x b) (hk : t.byte ≤ b.per x) : (b.place x t).per x = b.per x := by
  rw [per, place_size h hk, per]

lemma place_byte (h : Valid x b) (hk : t.byte ≤ b.per x) : (b.place x t).byte x = t.byte := by
  have hle : t.byte * b.size x ≤ 36 := (Nat.le_div_iff_mul_le h.size_ne).mp hk
  rw [byte, place_size h hk, place_pos_eq h hk, Nat.sub_sub_self hle,
    Nat.mul_div_cancel _ h.size_ne]

lemma second_sign (v : ℕ) : v &&& smask ≠ 0 ↔ v / 2 ^ 30 / 2 ^ 5 % 2 = 1 := by
  rw [show smask = 2 ^ 35 from rfl, and_pow_ne_zero]
  omega

lemma second_bit1 (v : ℕ) : v &&& bit1 ≠ 0 ↔ v / 2 ^ 30 / 2 ^ 4 % 2 = 1 := by
  rw [show bit1 = 2 ^ 34 from rfl, and_pow_ne_zero]
  omega

lemma place_space (h : Valid x b) (hk : t.byte ≤ b.per x) :
    (b.place x t).space x = b.space x := by
  by_cases hshort : Short x b
  · rw [space_global (.inl hshort), space_global (.inl ((place_short h hk).mpr hshort))]
  · have hsign : ((b.place x t).second &&& smask ≠ 0) ↔ (b.second &&& smask ≠ 0) := by
      rw [second_sign, second_sign, place_second hshort]
    have hmoved : ¬ Short x (b.place x t) := mt (place_short h hk).mp hshort
    have hglobal : (Short x (b.place x t) ∨ (b.place x t).isFull x = true
        ∧ (b.place x t).second &&& smask = 0) ↔
        (Short x b ∨ b.isFull x = true ∧ b.second &&& smask = 0) := by
      rw [or_iff_right hmoved, or_iff_right hshort, place_isFull hshort, not_iff_not.mp hsign]
    exact if_congr hglobal rfl rfl

/-- A pointer that has been moved is valid. -/
lemma place_valid (h : Valid x b) (hk : t.byte ≤ b.per x) : Valid x (b.place x t) where
  pos_le := by
    rw [place_pos_eq h hk]
    exact Nat.sub_le _ _
  size_pos := by
    rw [place_size h hk]
    exact h.size_pos
  size_le := by
    rw [place_size h hk]
    exact h.size_le
  aligned := by
    have hle : t.byte * b.size x ≤ 36 := (Nat.le_div_iff_mul_le h.size_ne).mp hk
    rw [place_size h hk, place_pos_eq h hk, Nat.sub_sub_self hle]
    exact Nat.dvd_mul_left _ _
  first_lt := by
    by_cases hshort : Short x b
    · have hcode : code (36 - t.byte * b.size x) (b.size x) < 63 :=
        (code_byte (h.entry hshort) hk).2.1
      have haddr := addMod_lt (by norm_num : 0 < 2 ^ 30) b.first t.word
      rw [place_short_first hshort]
      omega
    · obtain ⟨r, hfirst, hr, -⟩ := place_first (t := t) hshort
      rw [hfirst]
      lia
  second_lt := by
    by_cases hshort : Short x b
    · rw [place, if_pos hshort]
      exact h.second_lt
    · have hhigh := place_second (t := t) hshort
      have hlt := h.second_lt
      lia
  legal := by
    intro hshort hfull
    have hshort' : ¬ Short x b := mt (place_short h hk).mpr hshort
    rw [place_isFull hshort'] at hfull
    rw [second_sign, second_bit1, place_second hshort', ← second_sign, ← second_bit1]
    exact h.legal hshort' hfull

/-- **Moves compose**: a pointer that has been moved is moved on from where it is. -/
theorem place_place (h : Valid x b) (hk : t.byte ≤ b.per x) (u : Slot) :
    (b.place x t).place x u = b.place x ⟨t.word + u.word, u.byte⟩ := by
  have hsize := place_size h hk
  have hspace := place_space h hk
  by_cases hshort : Short x b
  · have hfirst : (b.place x t).first % 2 ^ 30 = addMod (2 ^ 30) b.first t.word % 2 ^ 30 := by
      rw [place_short_first hshort, Nat.mul_add_mod_self_right]
    have hsecond : (b.place x t).second = b.second := by
      rw [place, if_pos hshort]
    have haddr : addMod (2 ^ 30) (b.place x t).first u.word
        = addMod (2 ^ 30) b.first (t.word + u.word) := by
      rw [addMod_congr hfirst, addMod_addMod (by norm_num)]
    rw [place, if_pos ((place_short h hk).mpr hshort), hsize, haddr, hsecond, place, if_pos hshort]
  · have hmoved : ¬ Short x (b.place x t) := mt (place_short h hk).mp hshort
    rw [place, if_neg hmoved, hsize, hspace, place_isFull hshort]
    by_cases hfull : b.isFull x = true
    · rw [if_pos hfull, place, place, if_neg hshort, if_neg hshort, if_pos hfull, if_pos hfull]
      simp only [moveAddr_moveAddr (space_pos x b), Nat.mul_add_mod_self_right, Nat.mod_mod]
    · have hlt : moveAddr (b.space x) (b.first % 2 ^ 30) t.word < 2 ^ 30 := by
        have hdiv := moveAddr_space x b (b.first % 2 ^ 30) t.word
        lia
      rw [if_neg hfull, place, place, if_neg hshort, if_neg hshort, if_neg hfull, if_neg hfull]
      simp only [Nat.mul_add_mod_self_right, Nat.mod_eq_of_lt hlt, moveAddr_moveAddr (space_pos x b)]

/-- Moves of a pointer to bytes of a word give the same pointer when they are the same, round the
addresses. -/
lemma place_inj (h : Valid x b) {u : Slot} (ht : t.byte ≤ b.per x) (hu : u.byte ≤ b.per x) :
    b.place x t = b.place x u ↔ t.byte = u.byte ∧ (b.space x : ℤ) ∣ t.word - u.word := by
  have hbyte (heq : b.place x t = b.place x u) : t.byte = u.byte := by
    rw [← place_byte h ht, heq, place_byte h hu]
  refine (and_iff_right_of_imp hbyte).symm.trans (and_congr_right fun hsame => ?_)
  by_cases hshort : Short x b
  · rw [space_global (.inl hshort), place, place, if_pos hshort, if_pos hshort, hsame]
    simp only [mk.injEq, and_true, Nat.add_left_cancel_iff]
    exact addMod_inj (by norm_num) _ _ _
  · rw [place, place, if_neg hshort, if_neg hshort, hsame]
    by_cases hfull : b.isFull x = true
    · rw [if_pos hfull, if_pos hfull]
      simp only [mk.injEq, true_and]
      exact moveAddr_inj (space_pos x b) _ _ _
    · rw [if_neg hfull, if_neg hfull]
      simp only [mk.injEq, and_true, Nat.add_left_cancel_iff]
      exact moveAddr_inj (space_pos x b) _ _ _

/-! ### Runs -/

/-- Successive IBP. -/
def ibps (x : ByteMode) : ℕ → BytePtr → Option BytePtr
  | 0, b => some b
  | n + 1, b => (ibps x n b).bind (ibp x)

lemma next_le (hper : 0 < b.per x) (k : Slot) : (next (b.per x) k).byte ≤ b.per x := by
  rw [next]
  split_ifs
  · assumption
  · exact hper

/-- A step of a pointer that has been moved. -/
lemma place_ibp (h : Valid x b) (hk : t.byte ≤ b.per x) (hroom : Room x (b.place x t)) :
    (b.place x t).ibp x = some (b.place x (next (b.per x) t)) := by
  rw [ibp_eq (place_valid h hk) hroom, place_per h hk, place_byte h hk, place_place h hk, ← next_word]

/-- **A run of IBP** moves along the bytes of the words. -/
theorem ibps_eq (h : Valid x b) (hx : x.cfg.kiOrLater = true) (n : ℕ) :
    ibps x (n + 1) b = some (b.place x (move (b.per x) (n + 1) ⟨0, b.byte x⟩)) := by
  rw [← iterate_next h.per_pos (byte_le (x := x) (b := b))]
  induction n with
  | zero => exact ibp_eq h (.inl hx)
  | succ n ih =>
      have hk : ((next (b.per x))^[n + 1] ⟨0, b.byte x⟩).byte ≤ b.per x := by
        rw [Function.iterate_succ_apply']
        exact next_le h.per_pos _
      rw [ibps, ih, Option.bind_some, place_ibp h hk (.inl hx), ← Function.iterate_succ_apply' (next _)]

/-- Two ADJBP move by the sum of their counts. -/
lemma adjbp_adjbp (h : Valid x b) (hx : x.cfg.kiOrLater = true) (br br' : ℕ) :
    (b.adjbp x br).bind (adjbp x br')
      = some (b.place x (move (b.per x) (adjCount br + adjCount br') ⟨0, b.byte x⟩)) := by
  have hk := byte_move h.per_pos (adjCount br) ⟨0, b.byte x⟩
  rw [adjbp_eq h hx, Option.bind_some, adjbp_eq (place_valid h hk) hx, place_per h hk, place_byte h hk,
    place_place h hk, ← move_word h.per_pos, move_move h.per_pos]

/-- Two moves along the bytes. -/
lemma place_move_inj (h : Valid x b) (m n : ℤ) :
    b.place x (move (b.per x) m ⟨0, b.byte x⟩) = b.place x (move (b.per x) n ⟨0, b.byte x⟩)
      ↔ (b.per x : ℤ) * b.space x ∣ m - n := by
  rw [place_inj h (byte_move h.per_pos _ _) (byte_move h.per_pos _ _), move, move,
    ofIndex_congr h.per_pos, add_sub_add_left_eq_sub]

/-- An ADJBP and a run of IBP. -/
lemma adjbp_eq_ibps (h : Valid x b) (hx : x.cfg.kiOrLater = true) {n : ℕ} (hn : 1 ≤ n) :
    b.adjbp x (ofSigned n) = b.ibps x n
      ↔ (b.per x : ℤ) * b.space x ∣ Int.bmod n (2 ^ 18) - n := by
  obtain ⟨n, rfl⟩ : ∃ k, n = k + 1 := ⟨n - 1, by omega⟩
  rw [adjbp_eq h hx, ibps_eq h hx, Option.some_inj, adjCount_ofSigned, Nat.cast_succ,
    place_move_inj h]

/-- Two ADJBP and one. -/
lemma adjbp_adjbp_eq (h : Valid x b) (hx : x.cfg.kiOrLater = true) (m n : ℤ) :
    (b.adjbp x (ofSigned m)).bind (adjbp x (ofSigned n)) = b.adjbp x (ofSigned (m + n))
      ↔ (b.per x : ℤ) * b.space x
        ∣ Int.bmod m (2 ^ 18) + Int.bmod n (2 ^ 18) - Int.bmod (m + n) (2 ^ 18) := by
  rw [adjbp_adjbp h hx, adjbp_eq h hx, Option.some_inj, adjCount_ofSigned, adjCount_ofSigned,
    adjCount_ofSigned, place_move_inj h]

/-- The searches of IBP and ADJBP end in the table. -/
lemma search_ends (h : Valid x b) (hshort : Short x b) {fe sc : ℕ}
    (hentry : byteAdj[b.p - 37]? = some (fe, sc)) :
    (∃ f < 26, searchAdj (stepP 0o44 sc) sc = some f)
      ∧ ∀ br adjw fe', adjust br fe sc = some (adjw, fe') → ∃ f < 26, searchAdj fe' sc = some f := by
  have he := h.entry hshort
  have hunit : b.unit x = (fe, sc) := Option.some.inj (he.found.symm.trans hentry)
  have hpos : b.pos x = fe := congrArg Prod.fst hunit
  have hsize : b.size x = sc := congrArg Prod.snd hunit
  subst hpos hsize
  constructor
  · obtain ⟨f, hf, hsearch, -⟩ := searchAdj_byte he (k := 1) h.per_pos
    have hstep : stepP 0o44 (b.size x) = 36 - 1 * b.size x := by
      have hsize_le := h.size_le
      rw [stepP_eq hsize_le]
      omega
    rw [hstep]
    exact ⟨f, hf, hsearch⟩
  · intro br adjw fe' hadj
    have hk := byte_move h.per_pos (adjCount br) ⟨0, b.byte x⟩
    obtain ⟨f, hf, hsearch, -⟩ := searchAdj_byte he hk
    have hresult := Option.some.inj (hadj.symm.trans (adjust_eq h br))
    rw [(Prod.mk.inj hresult).2, place_pos h hk]
    exact ⟨f, hf, hsearch⟩

end BytePtr

open BytePtr

/-- **When byte pointers compose**: ADJBP counts by the right half of the accumulator alone. So it is a
run of IBP when that half, with its sign, is the count, round the bytes of the address space; and two
ADJBP are one when the right halves add up, round the same. The searches of the table always end in
it. -/
theorem byte_pointers_compose {x : ByteMode} (hx : x.cfg.build = .kl ∨ x.cfg.build = .ks)
    {b : BytePtr} (h : Valid x b) :
    (∀ n : ℕ, 1 ≤ n → (b.adjbp x (ofSigned n) = b.ibps x n
      ↔ (b.per x : ℤ) * b.space x ∣ Int.bmod n (2 ^ 18) - n))
    ∧ (∀ m n : ℤ, (b.adjbp x (ofSigned m)).bind (adjbp x (ofSigned n)) = b.adjbp x (ofSigned (m + n))
        ↔ (b.per x : ℤ) * b.space x
          ∣ Int.bmod m (2 ^ 18) + Int.bmod n (2 ^ 18) - Int.bmod (m + n) (2 ^ 18))
    ∧ (Short x b → ∀ fe sc, byteAdj[b.p - 37]? = some (fe, sc) →
        (∃ f < 26, searchAdj (stepP 0o44 sc) sc = some f)
        ∧ ∀ br adjw fe', adjust br fe sc = some (adjw, fe') → ∃ f < 26, searchAdj fe' sc = some f) := by
  have hki : x.cfg.kiOrLater = true := by
    rcases hx with hx | hx <;> rw [Config.kiOrLater, hx] <;> rfl
  refine ⟨fun n hn => adjbp_eq_ibps h hki hn, adjbp_adjbp_eq h hki, fun hshort fe sc hentry => ?_⟩
  exact search_ends h hshort hentry

/-- A pointer on the KS10, to the left end of a word of six-bit bytes. -/
def sixbit : BytePtr := ⟨0o440600001000, 0⟩

lemma sixbit_valid : Valid { cfg := { build := .ks } } sixbit := by
  constructor <;> decide

theorem byte_pointers_compose_sixbit :
    sixbit.adjbp { cfg := { build := .ks } } (ofSigned 7)
      = sixbit.ibps { cfg := { build := .ks } } 7 :=
  ((byte_pointers_compose (.inr rfl) sixbit_valid).1 7 (by decide)).mpr (by decide)

/-- A count of `400000`: ADJBP goes back by it, and two of `200000` do not. -/
theorem byte_pointers_compose_fails :
    sixbit.adjbp { cfg := { build := .ks } } (ofSigned 0o400000)
        ≠ sixbit.ibps { cfg := { build := .ks } } 0o400000
      ∧ (sixbit.adjbp { cfg := { build := .ks } } (ofSigned 0o200000)).bind
          (adjbp { cfg := { build := .ks } } (ofSigned 0o200000))
        ≠ sixbit.adjbp { cfg := { build := .ks } } (ofSigned (0o200000 + 0o200000)) := by
  constructor
  · exact (adjbp_eq_ibps sixbit_valid rfl (n := 0o400000) (by decide)).not.mpr (by decide)
  · exact (adjbp_adjbp_eq sixbit_valid rfl 0o200000 0o200000).not.mpr (by decide)

end Ka10Simh.Pdp10
