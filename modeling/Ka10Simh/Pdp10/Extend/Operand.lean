import Ka10Simh.Pdp10.Byte.Transfer
import Ka10Simh.Pdp10.Extend.Setup

/-!
The strings of the EXTEND instructions.

* `Operand`: a string that an operand names is clear of the accumulators and of what the addresses of its
  bytes are computed from.
* `Operand.storeByte_eq`, `Operand.loadByte_eq`: a byte of it stored and loaded.
* `Operand.get_eq`: the bytes that have been stored are there.
-/

namespace Ka10Simh.Pdp10

open Word Slots BytePtr

/-- The machine as the EXTEND instructions see its pointers. -/
def Core.ext {π : Type} (x : Core π) : Core π := { x with mode := x.mode.ext }

/-- The pointers to the bytes of a string: from the second on, of two words if they are global. -/
def operands (x : ByteMode) (b : BytePtr) : ℕ → BytePtr
  | 0 => b
  | k + 1 => pointers x (b.full x) (k + 1)

section Pointers

variable {x : ByteMode} {b : BytePtr}

lemma slots_full (h : Valid x b) (k : ℕ) : slots x (b.full x) k = slots x b k := by
  rw [slots, slots, full_per h, full_byte h]

lemma operands_valid (h : Valid x b) (k : ℕ) : Valid x (operands x b k) := by
  cases k with
  | zero => exact h
  | succ k => exact pointers_valid (full_valid h) (k + 1)

lemma operands_size (h : Valid x b) (k : ℕ) : (operands x b k).size x = b.size x := by
  cases k with
  | zero => rfl
  | succ k =>
      rw [operands, pointers, place_size (full_valid h) (slots_le (full_valid h) _), full_size h]

/-- The pointer to the next byte. -/
lemma operands_next (h : Valid x b) (k : ℕ) :
    ((operands x b k).full x).place x
        (next ((operands x b k).per x) ⟨0, (operands x b k).byte x⟩) = operands x b (k + 1) := by
  cases k with
  | zero =>
      rw [operands, operands, pointers, slots_full h]
      rfl
  | succ k =>
      have hshort : ¬ Short x (pointers x (b.full x) (k + 1)) := by
        rw [pointers, place_short (full_valid h) (slots_le (full_valid h) _)]
        exact full_not_short h
      rw [operands, full_of_not_short hshort, pointers_next (full_valid h), operands]

/-- The byte that the next step goes to. -/
lemma operands_byte (h : Valid x b) (k : ℕ) :
    (next ((operands x b k).per x) ⟨0, (operands x b k).byte x⟩).byte = (slots x b (k + 1)).byte := by
  cases k with
  | zero => rfl
  | succ k =>
      have hle := slots_le (full_valid h) (k + 1)
      rw [operands, pointers, place_per (full_valid h) hle, place_byte (full_valid h) hle,
        slots_full h, full_per h, slots_succ (k + 1), next_word (slots x b (k + 1))]

end Pointers

namespace Core

variable {π : Type} (x : Core π)

/-- The words that the address of a byte is computed from. -/
def indirectByteReads (mb : ℕ) (c : Sects) : List π :=
  x.regOf (if x.longIndirect c ∧ mb &&& smask = 0 then mb >>> 30 &&& 0o17 else getXr mb)

def locateReads (m : π → ℕ) (curSect : ℕ) (a : Setup) : List π :=
  x.regOf a.ix ++
    if a.ind then
      let v := x.indexByte m curSect a
      x.loc v :: x.indirectByteReads (m (x.loc v)) v.sects
    else []

variable {x} {m m' : π → ℕ}

lemma indexByte_congr {c : ℕ} {a : Setup} (h : ∀ p ∈ x.regOf a.ix, m' p = m p) :
    x.indexByte m' c a = x.indexByte m c a := by
  rw [indexByte, indexByte]
  by_cases hix : a.ix = 0
  · rw [if_pos hix, if_pos hix]
  · rw [if_neg hix, if_neg hix, regOf_congr h hix]

lemma ifiwByte_congr {mb : ℕ} {c : Sects} (h : ∀ p ∈ x.regOf (getXr mb), m' p = m p) :
    x.ifiwByte m' mb c = x.ifiwByte m mb c := by
  simp only [ifiwByte]
  by_cases hix : getXr mb = 0
  · rw [if_pos hix, if_pos hix]
  · rw [if_neg hix, if_neg hix, regOf_congr h hix]

lemma efiwByte_congr {mb : ℕ} (h : ∀ p ∈ x.regOf (mb >>> 30 &&& 0o17), m' p = m p) :
    x.efiwByte m' mb = x.efiwByte m mb := by
  simp only [efiwByte]
  by_cases hix : mb >>> 30 &&& 0o17 = 0
  · rw [if_pos hix, if_pos hix]
  · rw [if_neg hix, if_neg hix, regOf_congr h hix]

lemma indirectByte_congr {mb : ℕ} {c : Sects} (h : ∀ p ∈ x.indirectByteReads mb c, m' p = m p) :
    x.indirectByte m' mb c = x.indirectByte m mb c := by
  rw [indirectByte, indirectByte]
  rw [indirectByteReads] at h
  by_cases hlong : x.longIndirect c
  · rw [if_pos hlong, if_pos hlong]
    by_cases hsign : mb &&& smask ≠ 0
    · rw [if_neg fun hzero => hsign hzero.2] at h
      rw [if_pos hsign, if_pos hsign, ifiwByte_congr h]
    · rw [if_pos ⟨hlong, not_not.mp hsign⟩] at h
      rw [if_neg hsign, if_neg hsign, efiwByte_congr h]
  · rw [if_neg fun hboth => hlong hboth.1] at h
    rw [if_neg hlong, if_neg hlong]
    by_cases hix : getXr mb = 0
    · rw [if_pos hix, if_pos hix]
    · rw [if_neg hix, if_neg hix, regOf_congr h hix]

/-- The address depends on the words it is computed from. -/
lemma locate_congr {c : ℕ} {a : Setup} (h : ∀ p ∈ x.locateReads m c a, m' p = m p) :
    x.locate m' c a = x.locate m c a := by
  rw [locateReads] at h
  have hindex : x.indexByte m' c a = x.indexByte m c a :=
    indexByte_congr fun p hp => h p (List.mem_append_left _ hp)
  simp only [locate, hindex]
  by_cases hind : a.ind = true
  · rw [if_pos hind] at h
    have hword : m' (x.loc (x.indexByte m c a)) = m (x.loc (x.indexByte m c a)) :=
      h _ (List.mem_append_right _ List.mem_cons_self)
    rw [if_pos hind, if_pos hind, hword]
    exact indirectByte_congr fun p hp => h p (List.mem_append_right _ (List.mem_cons_of_mem _ hp))
  · rw [if_neg hind, if_neg hind]

end Core

/-- `cur_sect` before each byte. -/
def sectAt (c : ℕ) (r : ℕ → VAddr) : ℕ → ℕ
  | 0 => c
  | k + 1 => (r k).sects.curSect

/-- A string of `n` bytes that an operand of a KL10 or a KS10 names, and the places the addresses of its
bytes lead to: the accumulators `a` to `a + 5` are different words, none of which is in the string or is
looked at for an address; neither is a word of the string looked at, and different words of it have
different places. -/
structure Operand {π : Type} (x : Core π) (a n c : ℕ) (m : π → ℕ) (b : BytePtr) (r : ℕ → VAddr) :
    Prop where
  build : x.mode.cfg.build = .kl ∨ x.mode.cfg.build = .ks
  valid : BytePtr.Valid x.mode.ext b
  words_lt : ∀ p, m p < 2 ^ 36
  acs : ∀ i < 6, ∀ j < 6, x.ac a i = x.ac a j → i = j
  locates : ∀ k < n, ∀ s, x.advance (sectAt c r k) (operands x.mode.ext b k) = some s →
    x.locate m (sectAt c r k) s = some (r k)
      ∧ ∀ p ∈ x.locateReads m (sectAt c r k) s, (∀ j < 6, p ≠ x.ac a j) ∧ ∀ j < n, p ≠ x.loc (r j)
  bytes : ∀ k < n, ∀ j < 6, x.loc (r k) ≠ x.ac a j
  words : ∀ j < n, ∀ k < n, (slots x.mode.ext b (j + 1)).word ≠ (slots x.mode.ext b (k + 1)).word →
    x.loc (r j) ≠ x.loc (r k)

/-- An operand that has got so far: its pointer, and the words beside the accumulators. -/
structure Reached {π : Type} [DecidableEq π] (x : Core π) (a i : ℕ) (m : π → ℕ) (b : BytePtr)
    (r : ℕ → VAddr) (k : ℕ) (vs : List ℕ) (m' : π → ℕ) : Prop where
  first : m' (x.ac a (i + 1)) = (operands x.mode.ext b k).first
  second : m' (x.ac a (i + 2)) = (operands x.mode.ext b k).second
  beside : ∀ p, (∀ j < 6, p ≠ x.ac a j) → m' p = (layout x.ext b r).puts 0 vs m p

/-- The other accumulators do not count. -/
lemma Reached.update {π : Type} [DecidableEq π] {x : Core π} {a i : ℕ} {m : π → ℕ} {b : BytePtr}
    {r : ℕ → VAddr} {k : ℕ} {vs : List ℕ} {m' : π → ℕ} (hm : Reached x a i m b r k vs m')
    (hacs : ∀ i < 6, ∀ j < 6, x.ac a i = x.ac a j → i = j) (hi : i + 2 < 6) {j : ℕ} (hj : j < 6)
    (h1 : j ≠ i + 1) (h2 : j ≠ i + 2) (v : ℕ) :
    Reached x a i m b r k vs (Function.update m' (x.ac a j) v) where
  first := by
    rw [Function.update_of_ne fun heq => h1 (hacs _ (by omega) j hj heq).symm]
    exact hm.first
  second := by
    rw [Function.update_of_ne fun heq => h2 (hacs _ hi j hj heq).symm]
    exact hm.second
  beside p hp := by
    rw [Function.update_of_ne (hp j hj)]
    exact hm.beside p hp

namespace Operand

variable {π : Type} {x : Core π} {a n c : ℕ} {m : π → ℕ} {b : BytePtr} {r : ℕ → VAddr}
  (h : Operand x a n c m b r)

include h

lemma kiOrLater : x.mode.cfg.kiOrLater = true := by
  rcases h.build with hkl | hks
  · rw [Config.kiOrLater, hkl]
    rfl
  · rw [Config.kiOrLater, hks]
    rfl

/-- The places of the accumulators are apart. -/
lemma ac_ne {i j : ℕ} (hi : i < 6) (hj : j < 6) (hne : i ≠ j) : x.ac a i ≠ x.ac a j :=
  fun heq => hne (h.acs i hi j hj heq)

variable [DecidableEq π]

/-- An accumulator that is stored leaves the others. -/
lemma update_ac {i j : ℕ} (hi : i < 6) (hj : j < 6) (hne : j ≠ i) (m' : π → ℕ) (v : ℕ) :
    Function.update m' (x.ac a i) v (x.ac a j) = m' (x.ac a j) :=
  Function.update_of_ne (h.ac_ne hj hi hne) _ _

/-- The word of the next byte, and the pointer saved. -/
lemma byteSetup_eq {i k : ℕ} (hk : k < n) {vs : List ℕ} (hlen : vs.length ≤ n) {m' : π → ℕ}
    (hm : Reached x a i m b r k vs m') :
    ∃ s : Setup, x.byteSetup a i (sectAt c r k) m' = some (s, r k,
        Function.update (Function.update m' (x.ac a (i + 1)) (operands x.mode.ext b (k + 1)).first)
          (x.ac a (i + 2)) (operands x.mode.ext b (k + 1)).second)
      ∧ s.s = (layout x.ext b r).size ∧ s.np &&& 0o77 = (layout x.ext b r).pos k := by
  obtain ⟨s, hs, hsize, hnp, hpointer⟩ :=
    advance_eq (operands_valid h.valid k) h.kiOrLater (sectAt c r k)
  obtain ⟨hlocate, hreads⟩ := h.locates k hk s hs
  have hcongr : x.locate m' (sectAt c r k) s = some (r k) := by
    rw [← hlocate]
    refine Core.locate_congr fun p hp => ?_
    obtain ⟨hacs, hbytes⟩ := hreads p hp
    rw [hm.beside p hacs, Fields.Layout.puts_of_ne fun j _ hj => hbytes j (by omega)]
  have hptr : (⟨m' (x.ac a (i + 1)), m' (x.ac a (i + 2))⟩ : BytePtr) = operands x.mode.ext b k := by
    rw [hm.first, hm.second]
  rw [operands_next h.valid] at hpointer
  rw [operands_byte h.valid, operands_size h.valid] at hnp
  rw [operands_size h.valid] at hsize
  refine ⟨s, ?_, hsize, ?_⟩
  · rw [Core.byteSetup, hptr, hs, ← hpointer]
    show (x.locate m' (sectAt c r k) s).bind _ = _
    rw [hcongr]
    rfl
  · have hlow := Nat.and_two_pow_sub_one_eq_mod s.np 6
    rw [show (0o77 : ℕ) = 2 ^ 6 - 1 from rfl, hlow, hnp]
    show (36 - (slots x.mode.ext b (k + 1)).byte * b.size x.mode.ext) % 2 ^ 6 = _
    rw [Nat.mod_eq_of_lt (by lia)]
    rfl

/-- **A byte stored** is put into the string, and the count goes down by one. -/
theorem storeByte_eq {i : ℕ} (hi : i + 2 < 6) {k : ℕ} (hk : k < n) {vs : List ℕ} (hlen : vs.length = k)
    {m' : π → ℕ} (hm : Reached x a i m b r k vs m') (data : ℕ) :
    ∃ m'', x.storeByte a i data (sectAt c r k) m' = some (sectAt c r (k + 1), m'')
      ∧ Reached x a i m b r (k + 1) (vs ++ [data]) m''
      ∧ m'' (x.ac a i) = Core.countDown (m' (x.ac a i))
      ∧ ∀ j < 6, j ≠ i → j ≠ i + 1 → j ≠ i + 2 → m'' (x.ac a j) = m' (x.ac a j) := by
  obtain ⟨s, hsetup, hsize, hpos⟩ := h.byteSetup_eq hk (by omega) hm
  set m₁ := Function.update (Function.update m' (x.ac a (i + 1)) (operands x.mode.ext b (k + 1)).first)
    (x.ac a (i + 2)) (operands x.mode.ext b (k + 1)).second with hm₁
  have hbeside₁ (p : π) (hp : ∀ j < 6, p ≠ x.ac a j) : m₁ p = (layout x.ext b r).puts 0 vs m p := by
    rw [hm₁, Function.update_of_ne (hp _ (by omega)), Function.update_of_ne (hp _ (by omega)),
      hm.beside p hp]
  have hbyte := h.bytes k hk
  have hdeposit : (m₁ (x.loc (r k)) &&& (fmask ^^^ (2 ^ s.s - 1) <<< (s.np &&& 0o77) % 2 ^ 64))
      ||| ((2 ^ s.s - 1) <<< (s.np &&& 0o77) % 2 ^ 64 &&& data <<< (s.np &&& 0o77) % 2 ^ 64)
      = Fields.deposit ((layout x.ext b r).pos k) (layout x.ext b r).size data
        ((layout x.ext b r).puts 0 vs m (x.loc (r k))) := by
    rw [hpos, hsize, hbeside₁ _ hbyte,
      Nat.and_comm ((2 ^ (layout x.ext b r).size - 1) <<< (layout x.ext b r).pos k % 2 ^ 64)
        (data <<< (layout x.ext b r).pos k % 2 ^ 64)]
    exact deposit_eq (layout_fits (x := x.ext) h.valid r k)
      (Fields.Layout.puts_lt (layout_fits (x := x.ext) h.valid r) (h.words_lt _))
  set w := Fields.deposit ((layout x.ext b r).pos k) (layout x.ext b r).size data
    ((layout x.ext b r).puts 0 vs m (x.loc (r k))) with hw
  set m₂ := Function.update m₁ (x.loc (r k)) w with hm₂
  have hac (j : ℕ) (hj : j < 6) (h1 : j ≠ i + 1) (h2 : j ≠ i + 2) : m₂ (x.ac a j) = m' (x.ac a j) := by
    rw [hm₂, Function.update_of_ne (hbyte j hj).symm, hm₁, h.update_ac hi hj h2,
      h.update_ac (by omega) hj h1]
  refine ⟨Function.update m₂ (x.ac a i) (Core.countDown (m' (x.ac a i))), ?_, ⟨?_, ?_, ?_⟩,
    Function.update_self _ _ _, fun j hj h0 h1 h2 => ?_⟩
  · rw [← hac i (by omega) (by omega) (by omega), hm₂, ← hdeposit, Core.storeByte, hsetup]
    rfl
  · rw [h.update_ac (by omega) (by omega) (by omega), hm₂,
      Function.update_of_ne (hbyte _ (by omega)).symm, hm₁,
      h.update_ac (by omega) (by omega) (by omega), Function.update_self]
  · rw [h.update_ac (by omega) hi (by omega), hm₂,
      Function.update_of_ne (hbyte _ hi).symm, hm₁, Function.update_self]
  · intro p hp
    rw [Function.update_of_ne (hp i (by omega)), Fields.Layout.puts_concat, Nat.zero_add, hlen]
    by_cases hin : p = x.loc (r k)
    · rw [hin, hm₂, Function.update_self]
      exact ((layout x.ext b r).put_self k data _).symm
    · rw [hm₂, Function.update_of_ne hin, hbeside₁ p hp]
      exact (Fields.Layout.put_of_ne hin _).symm
  · rw [h.update_ac (by omega) hj h0, hac j hj h1 h2]

/-- **A byte loaded** is that of the string, and the count goes down by one. -/
theorem loadByte_eq {i : ℕ} (hi : i + 2 < 6) {k : ℕ} (hk : k < n) {vs : List ℕ} (hlen : vs.length ≤ n)
    {m' : π → ℕ} (hm : Reached x a i m b r k vs m') :
    ∃ m'', x.loadByte a i (sectAt c r k) m'
        = some ((layout x.ext b r).get k ((layout x.ext b r).puts 0 vs m), sectAt c r (k + 1), m'')
      ∧ Reached x a i m b r (k + 1) vs m''
      ∧ m'' (x.ac a i) = Core.countDown (m' (x.ac a i))
      ∧ ∀ j < 6, j ≠ i → j ≠ i + 1 → j ≠ i + 2 → m'' (x.ac a j) = m' (x.ac a j) := by
  obtain ⟨s, hsetup, hsize, hpos⟩ := h.byteSetup_eq hk hlen hm
  set m₁ := Function.update (Function.update m' (x.ac a (i + 1)) (operands x.mode.ext b (k + 1)).first)
    (x.ac a (i + 2)) (operands x.mode.ext b (k + 1)).second with hm₁
  have hbeside₁ (p : π) (hp : ∀ j < 6, p ≠ x.ac a j) : m₁ p = (layout x.ext b r).puts 0 vs m p := by
    rw [hm₁, Function.update_of_ne (hp _ (by omega)), Function.update_of_ne (hp _ (by omega)),
      hm.beside p hp]
  have hdata : m₁ (x.loc (r k)) >>> (s.np &&& 0o77) &&& (2 ^ s.s - 1)
      = (layout x.ext b r).get k ((layout x.ext b r).puts 0 vs m) := by
    rw [hpos, hsize, hbeside₁ _ (h.bytes k hk)]
    rfl
  have hac (j : ℕ) (hj : j < 6) (h1 : j ≠ i + 1) (h2 : j ≠ i + 2) : m₁ (x.ac a j) = m' (x.ac a j) := by
    rw [hm₁, h.update_ac hi hj h2, h.update_ac (by omega) hj h1]
  refine ⟨Function.update m₁ (x.ac a i) (Core.countDown (m' (x.ac a i))), ?_, ⟨?_, ?_, ?_⟩,
    Function.update_self _ _ _, fun j hj h0 h1 h2 => ?_⟩
  · rw [← hac i (by omega) (by omega) (by omega), ← hdata, Core.loadByte, hsetup]
    rfl
  · rw [h.update_ac (by omega) (by omega) (by omega), hm₁,
      h.update_ac (by omega) (by omega) (by omega), Function.update_self]
  · rw [h.update_ac (by omega) hi (by omega), hm₁, Function.update_self]
  · intro p hp
    rw [Function.update_of_ne (hp i (by omega)), hbeside₁ p hp]
  · rw [h.update_ac (by omega) hj h0, hac j hj h1 h2]

/-- **The bytes stored** are in the string. -/
theorem get_eq {i k : ℕ} {vs : List ℕ} {m' : π → ℕ} (hm : Reached x a i m b r k vs m')
    (hlen : vs.length ≤ n) {j : ℕ} (hj : j < vs.length) :
    (layout x.ext b r).get j m' = vs[j] % 2 ^ (layout x.ext b r).size := by
  have hput := Fields.Layout.extract_puts (l := layout x.ext b r) (i := 0) hj
    (fun j k _ hjk hk => layout_apart h.valid hjk.ne (h.words j (by omega) k (by omega))) m
  have hword : m' (x.loc (r j)) = (layout x.ext b r).puts 0 vs m (x.loc (r j)) :=
    hm.beside _ (h.bytes j (by omega))
  rw [Nat.zero_add] at hput
  exact (congrArg (Fields.extract _ _) hword).trans hput

end Operand

end Ka10Simh.Pdp10
