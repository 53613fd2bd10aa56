import Ka10Simh.Lib.Fields
import Ka10Simh.Pdp10.Byte.String

/-!
Strings of bytes: a run of IDPB through a pointer, and a run of ILDB through a copy of it.

The bytes are fields of words, one slot after the other from the pointer on, and what the two runs do to
the rest of memory is confined to their pointers and the accumulator. So the law of the fields is that of
the instructions, as long as the string is clear of what the runs use.

* `Clear`: the pointers, the accumulator and the bytes of a string are apart.
* `Clear.idpb_eq`, `Clear.ildb_eq`: one instruction in a run.
* `bytes_stored_and_loaded`: a string deposited is loaded again, and nothing else in memory has changed.
-/

namespace Ka10Simh.Pdp10

open Word Slots BytePtr

/-- The bytes from a pointer on, and the pointers to them. -/
def slots (x : ByteMode) (b : BytePtr) (k : ℕ) : Slot := (next (b.per x))^[k] ⟨0, b.byte x⟩

def pointers (x : ByteMode) (b : BytePtr) : ℕ → BytePtr
  | 0 => b
  | k + 1 => b.place x (slots x b (k + 1))

/-- A string of `n` bytes from the pointer at `e` on, with a copy of the pointer at another address of the
section, an accumulator, and the places the addresses of the bytes lead to: none of these shares a word
with another, or with what an address is computed from, and different words of the string have different
places. -/
structure Clear {π : Type} (x : Core π) (fuel : ℕ) (e : VAddr) (ab a n : ℕ) (m : π → ℕ) (b : BytePtr)
    (r : ℕ → VAddr) : Prop where
  pointer : x.pointerAt e m = b
  copy : x.pointerAt { e with ab } m = b
  valid : BytePtr.Valid x.mode b
  room : x.mode.cfg.kiOrLater = true ∨ b.first % 2 ^ 24 + (slots x.mode b n).word < 2 ^ 24
  words_lt : ∀ p, m p < 2 ^ 36
  apart : (x.places e b ++ (x.places { e with ab } b ++ [x.acc a])).Nodup
  ends : ∀ k < n, x.address fuel m e.sects (Core.Field.of x (pointers x.mode b (k + 1)))
    (pointers x.mode b (k + 1)).second = some (r k)
  reads : ∀ k < n, ∀ p ∈ x.addressReads fuel m e.sects (Core.Field.of x (pointers x.mode b (k + 1)))
      (pointers x.mode b (k + 1)).second,
    p ∉ x.places e b ++ (x.places { e with ab } b ++ [x.acc a]) ∧ ∀ j < n, p ≠ x.loc (r j)
  bytes : ∀ k < n, x.loc (r k) ∉ x.places e b ++ (x.places { e with ab } b ++ [x.acc a])
  words : ∀ j < n, ∀ k < n, (slots x.mode b (j + 1)).word ≠ (slots x.mode b (k + 1)).word →
    x.loc (r j) ≠ x.loc (r k)

section Slots

variable {x : ByteMode} {b : BytePtr}

lemma slots_succ (k : ℕ) : slots x b (k + 1) = next (b.per x) (slots x b k) :=
  Function.iterate_succ_apply' _ _ _

lemma slots_le (h : BytePtr.Valid x b) (k : ℕ) : (slots x b k).byte ≤ b.per x := by
  cases k with
  | zero => exact byte_le
  | succ k =>
      rw [slots_succ]
      exact next_le h.per_pos _

lemma slots_pos (k : ℕ) : 1 ≤ (slots x b (k + 1)).byte := by
  rw [slots_succ, next]
  split_ifs <;> simp

lemma slots_word_mono : Monotone fun k => (slots x b k).word := by
  refine monotone_nat_of_le_succ fun k => ?_
  rw [slots_succ, next]
  split_ifs <;> simp

lemma index_slots (h : BytePtr.Valid x b) (k : ℕ) :
    index (b.per x) (slots x b (k + 1)) = index (b.per x) ⟨0, b.byte x⟩ + (k + 1) := by
  rw [slots, iterate_next h.per_pos byte_le, move, index_ofIndex h.per_pos]

/-- Bytes of one word do not overlap. -/
lemma slots_apart (h : BytePtr.Valid x b) {j k : ℕ} (hne : j ≠ k)
    (hword : (slots x b (j + 1)).word = (slots x b (k + 1)).word) :
    let pos i := 36 - (slots x b (i + 1)).byte * b.size x
    pos j + b.size x ≤ pos k ∨ pos k + b.size x ≤ pos j := by
  intro pos
  have hj := index_slots h j
  have hk := index_slots h k
  rw [index, hword] at hj
  rw [index] at hk
  have hfit (i : ℕ) : (slots x b (i + 1)).byte * b.size x ≤ 36 :=
    (Nat.le_div_iff_mul_le h.size_ne).mp (slots_le h _)
  have hj36 := hfit j
  have hk36 := hfit k
  rcases Nat.lt_or_gt_of_ne hne with hlt | hlt
  · have hstep : ((slots x b (j + 1)).byte + 1) * b.size x ≤ (slots x b (k + 1)).byte * b.size x :=
      Nat.mul_le_mul_right _ (by omega)
    rw [Nat.succ_mul] at hstep
    right
    show 36 - _ + _ ≤ 36 - _
    omega
  · have hstep : ((slots x b (k + 1)).byte + 1) * b.size x ≤ (slots x b (j + 1)).byte * b.size x :=
      Nat.mul_le_mul_right _ (by omega)
    rw [Nat.succ_mul] at hstep
    left
    show 36 - _ + _ ≤ 36 - _
    lia

/-- The pointer to the next byte. -/
lemma pointers_next (h : BytePtr.Valid x b) (k : ℕ) :
    (pointers x b k).place x
        (next ((pointers x b k).per x) ⟨0, (pointers x b k).byte x⟩) = pointers x b (k + 1) := by
  cases k with
  | zero => rfl
  | succ k =>
      have hk := slots_le h (k + 1)
      rw [pointers, place_per h hk, place_byte h hk, place_place h hk, ← next_word, ← slots_succ,
        pointers]

lemma pointers_double (h : BytePtr.Valid x b) (k : ℕ) :
    Double x (pointers x b k) ↔ Double x b := by
  cases k with
  | zero => rfl
  | succ k => exact place_double h (slots_le h _)

lemma pointers_second (hdouble : ¬ Double x b) (k : ℕ) : (pointers x b k).second = b.second := by
  cases k with
  | zero => rfl
  | succ k => exact place_second_of_not_double hdouble

lemma pointers_valid (h : BytePtr.Valid x b) (k : ℕ) : BytePtr.Valid x (pointers x b k) := by
  cases k with
  | zero => exact h
  | succ k => exact place_valid h (slots_le h _)

end Slots

/-- The fields of a string. -/
def layout {π : Type} (x : Core π) (b : BytePtr) (r : ℕ → VAddr) : Fields.Layout π where
  place j := x.loc (r j)
  pos j := 36 - (slots x.mode b (j + 1)).byte * b.size x.mode
  size := b.size x.mode

/-- The bytes are within their words. -/
lemma layout_fits {π : Type} {x : Core π} {b : BytePtr} (h : BytePtr.Valid x.mode b) (r : ℕ → VAddr)
    (k : ℕ) : (layout x b r).pos k + (layout x b r).size ≤ 36 := by
  have hle : (slots x.mode b (k + 1)).byte * b.size x.mode ≤ 36 :=
    (Nat.le_div_iff_mul_le h.size_ne).mp (slots_le h _)
  have hone : 1 * b.size x.mode ≤ (slots x.mode b (k + 1)).byte * b.size x.mode :=
    Nat.mul_le_mul_right _ (slots_pos k)
  show 36 - (slots x.mode b (k + 1)).byte * b.size x.mode + b.size x.mode ≤ 36
  omega

/-- They do not overlap when the words of the string have places of their own. -/
lemma layout_apart {π : Type} {x : Core π} {b : BytePtr} (h : BytePtr.Valid x.mode b) {r : ℕ → VAddr}
    {j k : ℕ} (hne : j ≠ k) (hwords : (slots x.mode b (j + 1)).word ≠ (slots x.mode b (k + 1)).word →
      x.loc (r j) ≠ x.loc (r k)) : (layout x b r).Apart j k := by
  intro hplace
  have hword : (slots x.mode b (j + 1)).word = (slots x.mode b (k + 1)).word := by
    by_contra hword
    exact hwords hword hplace
  exact slots_apart h hne hword

/-- A word with a byte put into it by masks. -/
lemma deposit_eq {pos size v w : ℕ} (hfit : pos + size ≤ 36) (hw : w < 2 ^ 36) :
    (w &&& (fmask ^^^ (2 ^ size - 1) <<< pos % 2 ^ 64))
        ||| (v <<< pos % 2 ^ 64 &&& (2 ^ size - 1) <<< pos % 2 ^ 64)
      = Fields.deposit pos size v w := by
  have hmask : (2 ^ size - 1) <<< pos < 2 ^ 36 := Fields.mask_lt hfit
  have hsmall : (2 ^ size - 1) <<< pos % 2 ^ 64 = Fields.mask pos size :=
    Nat.mod_eq_of_lt (hmask.trans (by norm_num))
  have hkeep : w &&& (fmask ^^^ Fields.mask pos size) = bic w (Fields.mask pos size) := by
    refine Nat.eq_of_testBit_eq fun k => ?_
    rw [testBit_bic, Nat.testBit_and, Nat.testBit_xor,
      show fmask = 2 ^ 36 - 1 from rfl, Nat.testBit_two_pow_sub_one]
    rcases Nat.lt_or_ge k 36 with hk | hk
    · simp [hk]
    · simp [Nat.testBit_lt_two_pow (hw.trans_le (Nat.pow_le_pow_right (by norm_num) hk))]
  have hvalue : v <<< pos % 2 ^ 64 &&& Fields.mask pos size = v <<< pos &&& Fields.mask pos size := by
    refine Nat.eq_of_testBit_eq fun k => ?_
    rw [Nat.testBit_and, Nat.testBit_and, Nat.testBit_mod_two_pow]
    rcases Nat.lt_or_ge k 64 with hk | hk
    · simp [hk]
    · have hhigh : (Fields.mask pos size).testBit k = false :=
        Nat.testBit_lt_two_pow (hmask.trans_le (Nat.pow_le_pow_right (by norm_num) (by omega)))
      simp [hhigh]
  rw [hsmall, hkeep, hvalue, Fields.deposit]

namespace Clear

variable {π : Type} {x : Core π} {fuel : ℕ} {e : VAddr} {ab a n : ℕ} {m : π → ℕ} {b : BytePtr}
  {r : ℕ → VAddr} (h : Clear x fuel e ab a n m b r)

include h

/-- No step carries into the size. -/
lemma room_at {k : ℕ} (hk : k < n) : Room x.mode (pointers x.mode b k) := by
  rcases h.room with hki | hroom
  · exact .inl hki
  by_cases hki : x.mode.cfg.kiOrLater = true
  · exact .inl hki
  have hshort : ¬ Short x.mode b := fun hshort => hki (kiOrLater_of_klb hshort.1)
  have hfull : ¬ b.isFull x.mode = true := mt kiOrLater_of_isFull hki
  refine .inr fun hlast => ?_
  have hvalid := pointers_valid h.valid k
  have hnot : ¬ (slots x.mode b k).byte < b.per x.mode := by
    have hbyte := hvalid.byte_lt_iff.not.mpr (Nat.not_le.mpr hlast)
    cases k with
    | zero => exact hbyte
    | succ k =>
        have hle := slots_le h.valid (k + 1)
        rwa [pointers, place_per h.valid hle, place_byte h.valid hle] at hbyte
  have hnext : (slots x.mode b (k + 1)).word = (slots x.mode b k).word + 1 := by
    rw [slots_succ, next, if_neg hnot]
  have hmono : (slots x.mode b (k + 1)).word ≤ (slots x.mode b n).word := slots_word_mono hk
  have hstart : (slots x.mode b 0).word ≤ (slots x.mode b k).word := slots_word_mono (Nat.zero_le k)
  have hzero : (slots x.mode b 0).word = 0 := rfl
  cases k with
  | zero =>
      show b.first % 2 ^ 24 + 1 < 2 ^ 24
      omega
  | succ k =>
      have hlow : (pointers x.mode b (k + 1)).first % 2 ^ 24
          = addMod (2 ^ 24) (b.first % 2 ^ 30) (slots x.mode b (k + 1)).word := by
        rw [pointers, place, if_neg hshort, if_neg hfull,
          space_local hshort fun hf => absurd hf hfull, if_neg hki, ← moveAddr_mod (by norm_num),
          show (2 : ℕ) ^ 30 = 2 ^ 6 * 2 ^ 24 from rfl, ← Nat.mul_assoc, Nat.add_comm]
        exact Nat.add_mul_mod_self_right _ _ _
      rw [hlow, addMod]
      lia

lemma pointers_places (e' : VAddr) (k : ℕ) : x.places e' (pointers x.mode b k) = x.places e' b := by
  rw [Core.places, Core.places, if_congr (pointers_double h.valid k) rfl rfl]

/-- A pointer of one word has no second. -/
lemma second_eq_zero {k : ℕ} (hdouble : ¬ Double x.mode (pointers x.mode b k)) :
    (pointers x.mode b k).second = 0 := by
  have hnot : ¬ Double x.mode b := mt (pointers_double h.valid k).mpr hdouble
  rw [pointers_second hnot, Core.pointerAt_second h.pointer, if_neg hnot]

variable [DecidableEq π]

/-- The words that the two runs use besides the string. -/
abbrev busy (_ : Clear x fuel e ab a n m b r) : List π :=
  x.places e b ++ (x.places { e with ab } b ++ [x.acc a])

/-- **The byte that an instruction finds**, through the pointer or its copy, in a memory where values have
been put into the string. -/
theorem found_at {e' : VAddr} (he : e' = e ∨ e' = { e with ab }) {k : ℕ} (hk : k < n) {vs : List ℕ}
    (hlen : vs.length ≤ n) {m' : π → ℕ} (hptr : x.pointerAt e' m' = pointers x.mode b k)
    (hoff : ∀ p ∉ h.busy, m' p = (layout x b r).puts 0 vs m p) (stops : ℕ) :
    x.found fuel e' stops ⟨m', false⟩ = some (Core.Field.of x (pointers x.mode b (k + 1)), r k,
      x.storePointer e' (pointers x.mode b (k + 1)) m') := by
  have hvalid := pointers_valid h.valid k
  have hnext := pointers_next h.valid k
  have hstep := ibp_eq hvalid (h.room_at hk)
  have hplaces := h.pointers_places e' (k + 1)
  have hmem : ∀ p ∈ x.places e' b, p ∈ h.busy := by
    intro p hp
    rcases he with rfl | rfl
    · exact List.mem_append_left _ hp
    · exact List.mem_append_right _ (List.mem_append_left _ hp)
  have hnodup : (x.places e' (pointers x.mode b (k + 1))).Nodup := by
    rw [hplaces]
    rcases he with rfl | rfl
    · exact h.apart.of_append_left
    · exact h.apart.of_append_right.of_append_left
  have hfound := Core.found_eq fuel hvalid hptr rfl (next_le hvalid.per_pos _) hstep
    (by rwa [hnext]) stops
  simp only [hnext] at hfound
  have haddress : x.address fuel (x.storePointer e' (pointers x.mode b (k + 1)) m') e'.sects
      (Core.Field.of x (pointers x.mode b (k + 1))) (pointers x.mode b (k + 1)).second
      = some (r k) := by
    have hsects : e'.sects = e.sects := by
      rcases he with rfl | rfl <;> rfl
    rw [hsects, ← h.ends k hk]
    refine Core.address_congr fun p hp => ?_
    obtain ⟨hbusy, hbytes⟩ := h.reads k hk p hp
    have hown : p ∉ x.places e' (pointers x.mode b (k + 1)) := by
      rw [hplaces]
      exact fun hin => hbusy (hmem p hin)
    rw [Core.storePointer_of_not_mem hown, hoff p hbusy,
      Fields.Layout.puts_of_ne fun j _ hj => hbytes j (by omega)]
  rw [hfound, haddress]
  rfl

/-- **IDPB** in a run puts the next value into the string. -/
theorem idpb_eq {k : ℕ} (hk : k < n) {vs : List ℕ} (hlen : vs.length = k) (v stops : ℕ) {m' : π → ℕ}
    (hptr : x.pointerAt e m' = pointers x.mode b k)
    (hoff : ∀ p ∉ x.places e b ++ [x.acc a], m' p = (layout x b r).puts 0 vs m p) :
    ∃ m'', x.idpb fuel e a stops (Function.update m' (x.acc a) v) = some m''
      ∧ x.pointerAt e m'' = pointers x.mode b (k + 1)
      ∧ ∀ p ∉ x.places e b ++ [x.acc a], m'' p = (layout x b r).puts 0 (vs ++ [v]) m p := by
  set b' := pointers x.mode b (k + 1) with hb'
  set m₁ := Function.update m' (x.acc a) v with hm₁
  have hplaces : x.places e b' = x.places e b := h.pointers_places e (k + 1)
  have hacc : x.acc a ∉ x.places e b := by
    intro hin
    exact List.disjoint_of_nodup_append h.apart hin (by simp)
  have hptr₁ : x.pointerAt e m₁ = pointers x.mode b k := by
    refine Core.pointerAt_congr hptr fun p hp => Function.update_of_ne ?_ _ _
    rintro rfl
    rw [h.pointers_places] at hp
    exact hacc hp
  have hoff₁ : ∀ p ∉ h.busy, m₁ p = (layout x b r).puts 0 vs m p := by
    intro p hp
    have hown : p ∉ x.places e b ++ [x.acc a] := by
      simp only [busy, List.mem_append, not_or] at hp ⊢
      exact ⟨hp.1, hp.2.2⟩
    have hne : p ≠ x.acc a := by
      rintro rfl
      simp [busy] at hp
    rw [hm₁, Function.update_of_ne hne, hoff p hown]
  have hfound := h.found_at (.inl rfl) hk (by omega) hptr₁ hoff₁ stops
  have hbyte : x.loc (r k) ∉ h.busy := h.bytes k hk
  have hbyteOwn : x.loc (r k) ∉ x.places e b' := by
    rw [hplaces]
    exact fun hin => hbyte (List.mem_append_left _ hin)
  have hword : x.storePointer e b' m₁ (x.loc (r k)) = (layout x b r).puts 0 vs m (x.loc (r k)) := by
    rw [Core.storePointer_of_not_mem hbyteOwn, hoff₁ _ hbyte]
  have hvalue : x.storePointer e b' m₁ (x.acc a) = v := by
    rw [Core.storePointer_of_not_mem (by rwa [hplaces]), hm₁, Function.update_self]
  have hpos : b'.pos x.mode = (layout x b r).pos k := place_pos_eq h.valid (slots_le h.valid _)
  have hsize : b'.size x.mode = (layout x b r).size := place_size h.valid (slots_le h.valid _)
  set m₂ := x.storePointer e b' m₁ with hm₂
  have hdeposit : ((m₂ (x.loc (r k)) &&& (fmask ^^^ (2 ^ b'.size x.mode - 1) <<< b'.pos x.mode % 2 ^ 64))
      ||| (m₂ (x.acc a) <<< b'.pos x.mode % 2 ^ 64
        &&& (2 ^ b'.size x.mode - 1) <<< b'.pos x.mode % 2 ^ 64)) &&& fmask
      = Fields.deposit ((layout x b r).pos k) (layout x b r).size v
        ((layout x b r).puts 0 vs m (x.loc (r k))) := by
    have hfit := layout_fits h.valid r k
    have hlt : (layout x b r).puts 0 vs m (x.loc (r k)) < 2 ^ 36 :=
      Fields.Layout.puts_lt (layout_fits h.valid r) (h.words_lt _)
    rw [hword, hvalue, hpos, hsize, deposit_eq hfit hlt, and_fmask]
    exact Nat.mod_eq_of_lt (Fields.deposit_lt hfit hlt)
  refine ⟨Function.update m₂ (x.loc (r k)) (Fields.deposit ((layout x b r).pos k) (layout x b r).size v
    ((layout x b r).puts 0 vs m (x.loc (r k)))), ?_, ?_, ?_⟩
  · rw [Core.idpb, hfound, ← hdeposit]
    rfl
  · have hstored : x.pointerAt e m₂ = b' := by
      refine Core.pointerAt_storePointer ?_ (fun hdouble => h.second_eq_zero hdouble) m₁
      rw [hplaces]
      exact h.apart.of_append_left
    refine Core.pointerAt_congr hstored fun p hp => Function.update_of_ne ?_ _ _
    rintro rfl
    exact hbyteOwn hp
  · intro p hp
    rw [Fields.Layout.puts_concat, Nat.zero_add, hlen]
    by_cases hin : p = x.loc (r k)
    · rw [hin, Function.update_self]
      exact ((layout x b r).put_self k v _).symm
    · have hown : p ∉ x.places e b' := by
        rw [hplaces]
        exact fun hin => hp (List.mem_append_left _ hin)
      have hne : p ≠ x.acc a := by
        rintro rfl
        simp at hp
      rw [Function.update_of_ne hin, hm₂, Core.storePointer_of_not_mem hown, hm₁,
        Function.update_of_ne hne, hoff p hp]
      exact (Fields.Layout.put_of_ne hin _).symm

/-- **ILDB** in a run loads the next value of the string. -/
theorem ildb_eq {k : ℕ} (hk : k < n) {vs : List ℕ} (hlen : vs.length ≤ n) (stops : ℕ) {m' : π → ℕ}
    (hptr : x.pointerAt { e with ab } m' = pointers x.mode b k)
    (hoff : ∀ p ∉ h.busy, m' p = (layout x b r).puts 0 vs m p) :
    ∃ m'', x.ildb fuel { e with ab } a stops m' = some m''
      ∧ x.pointerAt { e with ab } m'' = pointers x.mode b (k + 1)
      ∧ (∀ p ∉ h.busy, m'' p = (layout x b r).puts 0 vs m p)
      ∧ m'' (x.acc a) = (layout x b r).get k ((layout x b r).puts 0 vs m) := by
  set e' : VAddr := { e with ab }
  set b' := pointers x.mode b (k + 1)
  have hfound := h.found_at (.inr rfl) hk hlen hptr hoff stops
  have hplaces : x.places e' b' = x.places e' b := h.pointers_places e' (k + 1)
  have hcopy : (x.places e' b ++ [x.acc a]).Nodup := h.apart.of_append_right
  have hacc : x.acc a ∉ x.places e' b := fun hin =>
    List.disjoint_of_nodup_append hcopy hin (List.mem_singleton_self _)
  have hbyte : x.loc (r k) ∉ h.busy := h.bytes k hk
  have hown (p : π) (hp : p ∉ h.busy) : p ∉ x.places e' b' := by
    rw [hplaces]
    exact fun hin => hp (List.mem_append_right _ (List.mem_append_left _ hin))
  set m₂ := x.storePointer e' b' m' with hm₂
  have hword : m₂ (x.loc (r k)) = (layout x b r).puts 0 vs m (x.loc (r k)) := by
    rw [hm₂, Core.storePointer_of_not_mem (hown _ hbyte), hoff _ hbyte]
  have hpos : b'.pos x.mode = (layout x b r).pos k := place_pos_eq h.valid (slots_le h.valid _)
  have hsize : b'.size x.mode = (layout x b r).size := place_size h.valid (slots_le h.valid _)
  have hextract : m₂ (x.loc (r k)) >>> b'.pos x.mode &&& 2 ^ b'.size x.mode - 1
      = (layout x b r).get k ((layout x b r).puts 0 vs m) := by
    rw [hword, hpos, hsize]
    rfl
  refine ⟨Function.update m₂ (x.acc a) ((layout x b r).get k ((layout x b r).puts 0 vs m)),
    ?_, ?_, ?_, Function.update_self _ _ _⟩
  · rw [Core.ildb, hfound, ← hextract]
    rfl
  · have hstored : x.pointerAt e' m₂ = b' := by
      refine Core.pointerAt_storePointer ?_ (fun hdouble => h.second_eq_zero hdouble) m'
      rw [hplaces]
      exact hcopy.of_append_left
    refine Core.pointerAt_congr hstored fun p hp => Function.update_of_ne ?_ _ _
    rintro rfl
    rw [hplaces] at hp
    exact hacc hp
  · intro p hp
    have hne : p ≠ x.acc a := by
      rintro rfl
      simp [busy] at hp
    rw [Function.update_of_ne hne, hm₂, Core.storePointer_of_not_mem (hown p hp), hoff p hp]

/-! ### Runs -/

/-- A run of IDPB puts its values into the string. -/
theorem idpbs_eq (ws : List (ℕ × ℕ)) (vs : List ℕ) (hlen : vs.length + ws.length ≤ n) {m' : π → ℕ}
    (hptr : x.pointerAt e m' = pointers x.mode b vs.length)
    (hoff : ∀ p ∉ x.places e b ++ [x.acc a], m' p = (layout x b r).puts 0 vs m p) :
    ∃ m'', x.idpbs fuel e a ws m' = some m''
      ∧ ∀ p ∉ x.places e b ++ [x.acc a],
        m'' p = (layout x b r).puts 0 (vs ++ ws.map Prod.fst) m p := by
  induction ws generalizing vs m' with
  | nil => exact ⟨m', rfl, by simpa using hoff⟩
  | cons w ws ih =>
      obtain ⟨v, stops⟩ := w
      rw [List.length_cons] at hlen
      obtain ⟨m₁, hone, hptr₁, hoff₁⟩ := h.idpb_eq (by omega) rfl v stops hptr hoff
      have hlen₁ : (vs ++ [v]).length + ws.length ≤ n := by
        rw [List.length_append, List.length_singleton]
        omega
      rw [show vs.length + 1 = (vs ++ [v]).length by simp] at hptr₁
      obtain ⟨m₂, hrest, hoff₂⟩ := ih (vs ++ [v]) hlen₁ hptr₁ hoff₁
      refine ⟨m₂, ?_, ?_⟩
      · rw [Core.idpbs, hone]
        exact hrest
      · rwa [List.append_assoc] at hoff₂

/-- A run of ILDB loads the values of the string. -/
theorem ildbs_eq {stops : List ℕ} {k : ℕ} (hk : k + stops.length ≤ n) {vs : List ℕ}
    (hlen : vs.length ≤ n) {m' : π → ℕ}
    (hptr : x.pointerAt { e with ab } m' = pointers x.mode b k)
    (hoff : ∀ p ∉ h.busy, m' p = (layout x b r).puts 0 vs m p) :
    x.ildbs fuel { e with ab } a stops m' = some ((List.range' k stops.length).map fun i =>
      (layout x b r).get i ((layout x b r).puts 0 vs m)) := by
  induction stops generalizing k m' with
  | nil => rfl
  | cons s stops ih =>
      rw [List.length_cons] at hk
      obtain ⟨m₁, hone, hptr₁, hoff₁, hbyte⟩ := h.ildb_eq (by omega) hlen s hptr hoff
      have hrest := ih (by omega) hptr₁ hoff₁
      rw [Core.ildbs, hone]
      show (Core.ildbs x fuel { e with ab } a stops m₁).bind (fun bytes => some (m₁ (x.acc a) :: bytes)) = _
      rw [hrest, hbyte, List.length_cons, List.range'_succ, List.map_cons]
      rfl

end Clear

/-- **A string of bytes**: values deposited through a pointer are loaded through a copy of it, however
often the instructions are stopped; and beside the pointer and the accumulator only the bits of the bytes
have changed. -/
theorem bytes_stored_and_loaded {π : Type} [DecidableEq π] {x : Core π} {fuel : ℕ} {e : VAddr}
    {ab a : ℕ} {m : π → ℕ} {b : BytePtr} {r : ℕ → VAddr} {ws : List (ℕ × ℕ)} {stops : List ℕ}
    (h : Clear x fuel e ab a ws.length m b r) (hstops : stops.length = ws.length) :
    ∃ m', x.idpbs fuel e a ws m = some m'
      ∧ x.ildbs fuel { e with ab } a stops m' = some (ws.map fun w => w.1 % 2 ^ b.size x.mode)
      ∧ ∀ p ∉ x.places e b ++ [x.acc a], ∀ k,
        (∀ j < ws.length, p = x.loc (r j) →
          k < 36 - (slots x.mode b (j + 1)).byte * b.size x.mode
            ∨ 36 - (slots x.mode b (j + 1)).byte * b.size x.mode + b.size x.mode ≤ k) →
        (m' p).testBit k = (m p).testBit k := by
  set vs := ws.map Prod.fst with hvs
  have hlen : vs.length = ws.length := List.length_map _
  obtain ⟨m', hstored, hoff⟩ := h.idpbs_eq ws [] (by simp) h.pointer fun p _ => rfl
  rw [List.nil_append, ← hvs] at hoff
  refine ⟨m', hstored, ?_, fun p hp k hbeside => ?_⟩
  · have hcopy : x.pointerAt { e with ab } m' = b := by
      refine Core.pointerAt_congr h.copy fun p hp => ?_
      have hown : p ∉ x.places e b ++ [x.acc a] := by
        rw [List.mem_append, not_or]
        exact ⟨fun hin => List.disjoint_of_nodup_append h.apart hin (List.mem_append_left _ hp),
          fun hin => List.disjoint_of_nodup_append h.apart.of_append_right hp hin⟩
      have hbytes (j : ℕ) (hj : j < ws.length) : p ≠ x.loc (r j) := by
        rintro rfl
        exact h.bytes j hj (List.mem_append_right _ (List.mem_append_left _ hp))
      rw [hoff p hown, Fields.Layout.puts_of_ne fun j _ hj => hbytes j (by omega)]
    have hbusy : ∀ p ∉ h.busy, m' p = (layout x b r).puts 0 vs m p := by
      intro p hp
      refine hoff p ?_
      simp only [Clear.busy, List.mem_append, not_or] at hp ⊢
      exact ⟨hp.1, hp.2.2⟩
    rw [h.ildbs_eq (k := 0) (by omega) hlen.le hcopy hbusy]
    refine congrArg some (List.ext_getElem (by simp [hstops]) fun i hi hi' => ?_)
    have hivs : i < vs.length := by simpa [hlen] using hi'
    have hbyte := Fields.Layout.extract_puts (l := layout x b r) (i := 0) hivs
      (fun j k _ hjk hk => layout_apart h.valid hjk.ne
        (h.words j (by omega) k (by omega))) m
    rw [Nat.zero_add] at hbyte
    have hiws : i < ws.length := by simpa using hi'
    have hvalue : vs[i] = ws[i].1 := List.getElem_map _
    rw [List.getElem_map, List.getElem_map, List.getElem_range', Nat.zero_add, Nat.one_mul, hbyte,
      hvalue]
    rfl
  · rw [hoff p hp, Fields.Layout.testBit_puts fun j _ hj hplace => hbeside j (by omega) hplace]

/-- A KS10 with its words under their addresses. -/
def plainKs : Core ℕ where
  mode := { cfg := { build := .ks } }
  loc e := e.ab
  acc i := i

/-- Two pointers to bytes of 18 bits from location `1000` on. -/
def halves : ℕ → ℕ := fun p => if p = 0o100 ∨ p = 0o101 then 0o442200001000 else 0

lemma halves_clear : Clear plainKs 1 ⟨0o100, ⟨0, 0, false⟩⟩ 0o101 1 3 halves ⟨0o442200001000, 0⟩
    fun k => ⟨0o1000 + k / 2, ⟨0, 0, false⟩⟩ where
  pointer := by decide
  copy := by decide
  valid := by constructor <;> decide
  room := .inl rfl
  words_lt p := by
    rw [halves]
    split_ifs <;> norm_num
  apart := by decide
  ends := by decide
  reads := by decide
  bytes := by decide
  words := by decide

theorem bytes_stored_and_loaded_halves :
    ∃ m', plainKs.idpbs 1 ⟨0o100, ⟨0, 0, false⟩⟩ 1 [(5, 0), (0o1000007, 2), (3, 1)] halves = some m'
      ∧ plainKs.ildbs 1 ⟨0o101, ⟨0, 0, false⟩⟩ 1 [0, 1, 0] m' = some [5, 7, 3] := by
  obtain ⟨m', hstored, hloaded, -⟩ := 
    @bytes_stored_and_loaded ℕ _ plainKs 1 ⟨0o100, ⟨0, 0, false⟩⟩ 0o101 1 halves _ _
      [(5, 0), (0o1000007, 2), (3, 1)] [0, 1, 0] halves_clear rfl
  exact ⟨m', hstored, hloaded⟩

/-- A pointer into its own word: the string is stored over it. -/
theorem bytes_stored_and_loaded_fails :
    let m : ℕ → ℕ := fun p => if p = 0o100 ∨ p = 0o101 then 0o442200000100 else 0
    let b : BytePtr := plainKs.pointerAt ⟨0o100, ⟨0, 0, false⟩⟩ m
    BytePtr.Valid plainKs.mode b
      ∧ plainKs.pointerAt ⟨0o101, ⟨0, 0, false⟩⟩ m = b
      ∧ (plainKs.idpbs 1 ⟨0o100, ⟨0, 0, false⟩⟩ 1 [(1, 0), (2, 0)] m).bind
          (plainKs.ildbs 1 ⟨0o101, ⟨0, 0, false⟩⟩ 1 [0, 0]) ≠ some [1, 2] := by
  refine ⟨?_, by decide, by decide⟩
  constructor <;> decide

end Ka10Simh.Pdp10
