import Ka10Simh.B5500.CharMode.Convert

/-!
Field add and field subtract: the fields are compared from the first character on, and then they are added from the last one down, one
of them as its nines complement when the magnitudes are subtracted.

* `fieldAdd`: the operators.
* `Both`: both pointers in their fields.
* `compareLoop_spec`: which field is larger.
* `addLoop_spec`: the digits and the carry.
* `fieldAdd_spec`: the sum, its sign and the overflow.
-/

namespace Ka10Simh.B5500

open Word Fields

/-! ### The source -/

/-- `FSU`, `FAD`. -/
inductive FieldOp
  | fsu | fad
  deriving DecidableEq

/-- The characters that the pointers are at, with the bits of `mask`. -/
def Cpu.sourceChar (s : Cpu) (mask : ℕ) : ℕ := s.a >>> bitNumber (s.gh ||| 0o7) &&& mask
def Cpu.destChar (s : Cpu) (mask : ℕ) : ℕ := s.b >>> bitNumber (s.kv ||| 0o7) &&& mask

/-- One character of the comparison, with the fields still equal or not. -/
def compareChar (r : Bool × Cpu) : Bool × Cpu :=
  let s := fillDest (fillSrc r.2)
  let i := s.sourceChar 0o77
  let j := s.destChar 0o77
  let r : Bool × Cpu :=
    if r.1 = true ∧ i ≠ j then
      (if i &&& 0o17 ≠ j &&& 0o17 then false else r.1, if i &&& 0o17 < j &&& 0o17 then { s with msff := false } else s)
    else (r.1, s)
  (r.1, nextDest false (nextSrc false r.2))

def compareLoop : ℕ → Bool × Cpu → Bool × Cpu
  | 0, r => r
  | field + 1, r => compareLoop field (compareChar r)

/-- The sign of the result. -/
def fieldSign (op : FieldOp) (f tfff ss sd sub : Bool) : Bool :=
  (f && sd && ss && !sub) || (f && sd && !ss && !sub) || (!f && !tfff && sd) || (!f && tfff && (ss ^^ decide (op = .fsu)))

/-- The variables of the addition. -/
structure Adding where
  i : ℤ
  j : ℤ
  c : ℤ
  f : Bool
  s : Cpu

/-- A digit is put into `B`. -/
def putDigit (i : ℤ) (s : Cpu) : Cpu :=
  let k := bitNumber (s.kv ||| 0o7)
  { s with b := bic s.b (0o77 <<< k) ||| ((i % 2 ^ 64).toNat <<< k) % 2 ^ 64 }

/-- Both pointers at the character before, and its words in the registers. -/
def backUp (s : Cpu) : Cpu := fillDest (fillSrc (prevDest false (prevSrc false s)))

/-- One character of the addition. -/
def addChar (ss sd : Bool) (u : Adding) : Adding :=
  let i := (if ss = true then 9 - u.i else u.i) + (if sd = true then 9 - u.j else u.j) + u.c
  let (c, i) : ℤ × ℤ := if i < 10 then (0, i) else (1, i - 10)
  let i := if u.f = true then i + 0o40 else i
  let s := backUp (putDigit i u.s)
  ⟨s.sourceChar 0o17, s.destChar 0o17, c, false, s⟩

def addLoop (ss sd : Bool) : ℕ → Adding → Adding
  | 0, u => u
  | field + 1, u => addLoop ss sd field (addChar ss sd u)

/-- Back to the end of the field. -/
def forwardLoop : ℕ → Cpu → Cpu
  | 0, s => s
  | field + 1, s => forwardLoop field (nextDest false (nextSrc false s))

/-- The addition, from the last character down. -/
def addFields (op : FieldOp) (field : ℕ) (f : Bool) (s : Cpu) : Cpu :=
  let s := backUp s
  let i := s.sourceChar 0o77
  let j := s.destChar 0o77
  let ss := decide (i &&& 0o60 = 0o40)
  let sd := decide (j &&& 0o60 = 0o40)
  let sub := (ss == sd) ^^ decide (op = .fad)
  let f := fieldSign op f s.msff ss sd sub
  let c := if sub = true then 1 else 0
  let (ss, sd) := if sub = true then if s.msff = true then (false, true) else (true, false) else (false, false)
  let u := addLoop ss sd field ⟨(i &&& 0o17 : ℕ), (j &&& 0o17 : ℕ), c, f, s⟩
  let s := { u.s with msff := sub ^^ decide (u.c ≠ 0) }
  forwardLoop field (nextDest false (nextSrc false s))

/-- `FSU`, `FAD`. -/
def fieldAdd (op : FieldOp) (field : ℕ) (s : Cpu) : Cpu :=
  let r := compareLoop field (true, { adjustDest (adjustSource s) with msff := true })
  addFields op field r.1 r.2

/-! ### Numbers of digits -/

variable {op : FieldOp} {s t u : Cpu} {w x y : ℕ → ℕ} {a b c d i k m n p v : ℕ} {f g : Bool}

lemma fieldValue_succ (x : ℕ → ℕ) (n : ℕ) : fieldValue x (n + 1) = 10 * fieldValue x n + x n % 16 := by
  rw [fieldValue, fieldValue, List.range_succ, List.map_append, List.map_singleton, Digits.read, List.foldl_append, mul_comm]
  rfl

lemma fieldValue_mod (h : ∀ i < n, x i % 16 = y i % 16) : fieldValue x n = fieldValue y n := by
  rw [fieldValue, fieldValue]
  congr 1
  exact List.map_congr_left fun i hi ↦ h i (List.mem_range.mp hi)

lemma fieldValue_lt (h : ∀ i < n, x i % 16 < 10) : fieldValue x n < 10 ^ n := by
  induction n with
  | zero => exact Nat.one_pos
  | succ n ih =>
      have hlow := ih fun i hi ↦ h i (by omega)
      have hdigit := h n n.lt_succ_self
      rw [fieldValue_succ, pow_succ']
      omega

/-- The nines complement of a number. -/
lemma fieldValue_nines (h : ∀ i < n, x i % 16 < 10) : fieldValue (fun i ↦ 9 - x i % 16) n + fieldValue x n + 1 = 10 ^ n := by
  induction n with
  | zero => rfl
  | succ n ih =>
      have hlow := ih fun i hi ↦ h i (by omega)
      have hdigit := h n n.lt_succ_self
      rw [fieldValue_succ, fieldValue_succ, pow_succ']
      omega

/-- The digits of a number. -/
lemma fieldValue_digit (h : ∀ i < n, x i < 10) (hi : i < n) : x i = fieldValue x n / 10 ^ (n - 1 - i) % 10 := by
  induction n with
  | zero => exact absurd hi i.not_lt_zero
  | succ n ih =>
      have hdigit := h n n.lt_succ_self
      rw [fieldValue_succ, Nat.add_sub_cancel]
      rcases Nat.lt_succ_iff_lt_or_eq.mp hi with hlt | rfl
      · rw [ih (fun j hj ↦ h j (by omega)) hlt, show n - i = n - 1 - i + 1 by lia, pow_succ', ← Nat.div_div_eq_div_mul]
        congr 2
        lia
      · rw [Nat.sub_self, pow_zero, Nat.div_one]
        omega

lemma digit_mod (hk : k < n) (v : ℕ) : v % 10 ^ n / 10 ^ k % 10 = v / 10 ^ k % 10 := by
  have hsplit : 10 ^ n = 10 ^ k * (10 * 10 ^ (n - 1 - k)) := by
    rw [← pow_succ', ← pow_add]
    congr 1
    omega
  rw [hsplit, Nat.mod_mul_right_div_self, Nat.mod_mul_right_mod]

/-! ### Both pointers -/

/-- The destination pointer is at `d`, the source pointer at `p`, and the `n` characters from `q` on are those of the memory. -/
structure Both (s : Cpu) (w : ℕ → ℕ) (q n d p : ℕ) : Prop where
  dest : Dest s w d
  source : SourceAt s p
  held : ∀ i < n, string.get (q + i) s.sourceWords = string.get (q + i) w

/-- The words that are let pass and the true state are as they were. -/
def Steady (s t : Cpu) : Prop := (∀ a, t.Passes a ↔ s.Passes a) ∧ t.msff = s.msff

lemma Steady.trans (h : Steady s t) (h' : Steady t u) : Steady s u :=
  ⟨fun a ↦ (h'.1 a).trans (h.1 a), h'.2.trans h.2⟩

lemma DestMoves.steady (h : DestMoves s t) : Steady s t := by
  obtain ⟨mem, b, brof, kv, addr, rfl⟩ := h
  exact ⟨fun _ ↦ Iff.rfl, rfl⟩

lemma SourceMoves.steady (h : SourceMoves s t) : Steady s t := by
  obtain ⟨a, arof, gh, ma, rfl⟩ := h
  exact ⟨fun _ ↦ Iff.rfl, rfl⟩

lemma Clear.of_steady (h : Clear s d p n) (hsteady : Steady s t) : Clear t d p n :=
  ⟨fun i hi ↦ (hsteady.1 _).mpr (h.dest i hi), fun i hi ↦ (hsteady.1 _).mpr (h.source i hi), h.apart⟩

lemma SourceAt.of_dest (h : SourceAt s p) (hmoves : DestMoves s t) : SourceAt t p := by
  obtain ⟨mem, b, brof, kv, addr, rfl⟩ := hmoves
  exact ⟨h.addr, h.gh⟩

lemma Both.flag {q : ℕ} (h : Both s w q n d p) (b : Bool) : Both { s with msff := b } w q n d p :=
  ⟨⟨h.dest.addr, h.dest.kv, h.dest.words, h.dest.held⟩, ⟨h.source.addr, h.source.gh⟩, h.held⟩

/-- When the source pointer moves, its word is still in `A` or is left. -/
lemma nextSrc_words (h : SourceAt s p) :
    (nextSrc false s).sourceWords = s.sourceWords ∨ (nextSrc false s).sourceWords = s.words := by
  rw [h.next_eq]
  split_ifs
  · exact .inr rfl
  · exact .inl rfl

lemma prevSrc_words (s : Cpu) : (prevSrc false s).sourceWords = s.sourceWords ∨ (prevSrc false s).sourceWords = s.words := by
  rw [prevSrc, if_neg Bool.false_ne_true]
  dsimp only
  split_ifs
  · exact .inr rfl
  · exact .inl rfl

lemma DestMoves.sourceWords (h : DestMoves s t) (hwords : t.words = s.words) : t.sourceWords = s.sourceWords := by
  rw [Cpu.sourceWords, Cpu.sourceWords, hwords]
  obtain ⟨mem, b, brof, kv, addr, rfl⟩ := h
  rfl

/-- The pointers move, first that of the source. -/
lemma Both.move {q d' p' : ℕ} (h : Both s w q n d p) (hp : SourceAt t p') (hmoves : SourceMoves s t)
    (hwords : t.sourceWords = s.sourceWords ∨ t.sourceWords = s.words) (hd : Dest u w d') (hmoves' : DestMoves t u) :
    Both u w q n d' p' ∧ Steady s u := by
  refine ⟨⟨hd, hp.of_dest hmoves', fun i hi ↦ ?_⟩, hmoves.steady.trans hmoves'.steady⟩
  rw [hmoves'.sourceWords (hd.words.trans (h.dest.of_source hmoves).words.symm)]
  rcases hwords with hsame | hleft
  · rw [hsame, h.held i hi]
  · rw [hleft, h.dest.words]

lemma Both.next {q : ℕ} (h : Both s w q n d p) :
    Both (nextDest false (nextSrc false s)) w q n (d + 1) (p + 1) ∧ Steady s (nextDest false (nextSrc false s)) := by
  obtain ⟨hp, hmoves⟩ := h.source.next
  obtain ⟨hd, hmoves'⟩ := (h.dest.of_source hmoves).next
  exact h.move hp hmoves (nextSrc_words h.source) hd hmoves'

lemma Both.prev {q : ℕ} (h : Both s w q n (d + 1) (p + 1)) :
    Both (prevDest false (prevSrc false s)) w q n d p ∧ Steady s (prevDest false (prevSrc false s)) := by
  obtain ⟨hp, hmoves⟩ := h.source.prev
  obtain ⟨hd, hmoves'⟩ := (h.dest.of_source hmoves).prev
  exact h.move hp hmoves (prevSrc_words s) hd hmoves'

/-- **Both words** are in their registers. -/
theorem Both.fill (h : Both s w p n (d + k) (p + k)) (hk : k < n) (hclear : Clear s d p n) :
    Both (fillDest (fillSrc s)) w p n (d + k) (p + k) ∧ (fillDest (fillSrc s)).brof = true ∧
      (∀ m, 63 &&& m = m → (fillDest (fillSrc s)).sourceChar m = string.get (p + k) w &&& m) ∧
      (∀ m, 63 &&& m = m → (fillDest (fillSrc s)).destChar m = string.get (d + k) w &&& m) ∧ Steady s (fillDest (fillSrc s)) := by
  have hp : string.place (p + k) = s.ma := h.source.addr.symm
  have hd : string.place (d + k) = s.s := h.dest.addr.symm
  have hne : (s.ma : ℕ) ≠ s.s := hp ▸ hd ▸ hclear.apart k hk k hk
  have hpass : s.Passes s.ma := hp ▸ hclear.source k hk
  have hgh := h.source.gh
  have hbit : bitNumber (s.gh ||| 0o7) = string.pos (p + k) := by
    rw [bitNumber_char (by lia)]
    dsimp only [string]
    lia
  -- the source word
  rw [fillSrc_eq hpass (words_of_ne hne)]
  have hfilled : ({ s with a := s.sourceWords s.ma, arof := true } : Cpu).sourceWords = s.sourceWords := by
    rw [Cpu.sourceWords, if_pos rfl]
    show Function.update s.words s.ma (s.sourceWords s.ma) = s.sourceWords
    rw [Cpu.sourceWords]
    split_ifs
    · rw [Function.update_self]
    · rw [Function.update_eq_self]
  have hdest : Dest { s with a := s.sourceWords s.ma, arof := true } w (d + k) :=
    ⟨h.dest.addr, h.dest.kv, h.dest.words, h.dest.held⟩
  have hsource : SourceAt { s with a := s.sourceWords s.ma, arof := true } (p + k) := ⟨h.source.addr, h.source.gh⟩
  -- the destination word
  obtain ⟨hdest', hb, hword, hmoves⟩ := hdest.fill (hclear.dest k hk)
  have hsame := hmoves.sourceWords (hdest'.words.trans hdest.words.symm)
  have hkv := hdest'.kv
  have hbit' : bitNumber ((fillDest { s with a := s.sourceWords s.ma, arof := true }).kv ||| 0o7) = string.pos (d + k) := by
    rw [bitNumber_char (by lia)]
    dsimp only [string]
    lia
  refine ⟨⟨hdest', hsource.of_dest hmoves, fun i hi ↦ ?_⟩, hb, fun m hm ↦ ?_, fun m hm ↦ ?_,
    hmoves.steady⟩
  · rw [hsame, hfilled, h.held i hi]
  · have hregisters : (fillDest { s with a := s.sourceWords s.ma, arof := true }).a = s.sourceWords s.ma ∧
        (fillDest { s with a := s.sourceWords s.ma, arof := true }).gh = s.gh := by
      obtain ⟨mem, b, brof, kv, addr, heq⟩ := hmoves
      rw [heq]
      exact ⟨rfl, rfl⟩
    rw [Cpu.sourceChar, hregisters.1, hregisters.2, hbit, ← h.held k hk, Layout.get, hp, extract, Nat.and_assoc]
    exact congrArg _ hm.symm
  · rw [Cpu.destChar, hword, hbit', Layout.get, extract, Nat.and_assoc]
    exact congrArg _ hm.symm

/-- **A character is put**, and the source is as it was. -/
theorem Both.put (h : Both s w p n (d + k) (p + k)) (hk : k < n) (hclear : Clear s d p n) (hb : s.brof = true) (hc : c < 64) :
    Both (putChar 0o77 c s) (string.put (d + k) c w) p n (d + k) (p + k) ∧ Steady s (putChar 0o77 c s) := by
  obtain ⟨hd, hmoves⟩ := h.dest.putChar hb (show 0o77 < 64 by norm_num) hc
  rw [(char_parts (get_lt (d + k) w)).2.1, Nat.zero_or] at hd
  refine ⟨⟨hd, h.source.of_dest hmoves, fun i hi ↦ ?_⟩, hmoves.steady⟩
  have hother := hclear.apart i hi k hk
  rw [hmoves.get_source (words_put_of_ne h.dest hd hother), h.held i hi, Layout.get, Layout.get, Layout.put_of_ne hother]

/-! ### The comparison -/

/-- **One character is compared**: its digits decide when those before are equal. -/
theorem compareChar_spec (h : Both s w p n (d + k) (p + k)) (hk : k < n) (hclear : Clear s d p n)
    (hx : string.get (p + k) w % 16 < 10) (hy : string.get (d + k) w % 16 < 10) (hf : f = true ↔ a = b) (hg : s.msff = true ↔ b ≤ a) :
    Both (compareChar (f, s)).2 w p n (d + (k + 1)) (p + (k + 1)) ∧
      ((compareChar (f, s)).1 = true ↔ 10 * a + string.get (p + k) w % 16 = 10 * b + string.get (d + k) w % 16) ∧
      ((compareChar (f, s)).2.msff = true ↔ 10 * b + string.get (d + k) w % 16 ≤ 10 * a + string.get (p + k) w % 16) ∧
      ∀ a, (compareChar (f, s)).2.Passes a ↔ s.Passes a := by
  obtain ⟨hboth, -, hi, hj, hsteady⟩ := h.fill hk hclear
  have hi' := (hi 0o77 rfl).trans (char_parts (get_lt (p + k) w)).1
  have hj' := (hj 0o77 rfl).trans (char_parts (get_lt (d + k) w)).1
  have hg' : (fillDest (fillSrc s)).msff = true ↔ b ≤ a := by rw [hsteady.2, hg]
  have hlow := (char_parts (get_lt (p + k) w)).2.2.1
  have hlow' := (char_parts (get_lt (d + k) w)).2.2.1
  rw [compareChar]
  dsimp only
  rw [hi', hj', hlow, hlow']
  generalize fillDest (fillSrc s) = t at *
  generalize string.get (p + k) w = i at *
  generalize string.get (d + k) w = j at *
  by_cases hne : f = true ∧ i ≠ j
  · rw [if_pos hne]
    dsimp only
    have hab := hf.mp hne.1
    generalize hu : (if i % 16 < j % 16 then { t with msff := false } else t) = u
    have hu' : Both u w p n (d + k) (p + k) ∧ (u.msff = true ↔ ¬ i % 16 < j % 16) ∧ ∀ a, u.Passes a ↔ t.Passes a := by
      rw [← hu]
      split_ifs with hlt
      · exact ⟨hboth.flag false, iff_of_false not_false (not_not.mpr hlt), fun _ ↦ Iff.rfl⟩
      · exact ⟨hboth, iff_of_true (hg'.mpr (by omega)) hlt, fun _ ↦ Iff.rfl⟩
    obtain ⟨hnext, hsteady'⟩ := hu'.1.next
    refine ⟨hnext, ?_, ?_, fun a ↦ ?_⟩
    · split_ifs with hdigits
      · exact iff_of_false not_false (by lia)
      · exact iff_of_true hne.1 (by lia)
    · rw [hsteady'.2, hu'.2.1]
      lia
    · rw [hsteady'.1, hu'.2.2, hsteady.1]
  · rw [if_neg hne]
    dsimp only
    obtain ⟨hnext, hsteady'⟩ := hboth.next
    refine ⟨hnext, ?_, ?_, fun a ↦ by rw [hsteady'.1, hsteady.1]⟩
    · rw [hf]
      by_cases hab : a = b
      · have hij : i = j := not_not.mp (not_and.mp hne (hf.mpr hab))
        lia
      · lia
    · rw [hsteady'.2, hg']
      by_cases hab : a = b
      · have hij : i = j := not_not.mp (not_and.mp hne (hf.mpr hab))
        lia
      · lia

/-- The last character of a loop. -/
lemma compareLoop_succ (k : ℕ) (r : Bool × Cpu) : compareLoop (k + 1) r = compareChar (compareLoop k r) := by
  induction k generalizing r with
  | zero => rfl
  | succ k ih => exact ih (compareChar r)

/-- The number of a field. -/
def number (w : ℕ → ℕ) (d n : ℕ) : ℕ := fieldValue (fun i ↦ string.get (d + i) w) n

/-- The characters of a field are digits. -/
def Decimals (w : ℕ → ℕ) (d n : ℕ) : Prop := ∀ i < n, string.get (d + i) w % 16 < 10

instance : Decidable (Decimals w d n) := inferInstanceAs (Decidable (∀ i < n, _))

/-- **The comparison**: the fields are equal, or which one is larger. -/
theorem compareLoop_spec (h : Both s w p n d p) (hclear : Clear s d p n) (hx : Decimals w p n) (hy : Decimals w d n)
    (hg : s.msff = true) (hk : k ≤ n) :
    Both (compareLoop k (true, s)).2 w p n (d + k) (p + k) ∧ ((compareLoop k (true, s)).1 = true ↔ number w p k = number w d k) ∧
      ((compareLoop k (true, s)).2.msff = true ↔ number w d k ≤ number w p k) ∧
      ∀ a, (compareLoop k (true, s)).2.Passes a ↔ s.Passes a := by
  induction k with
  | zero => exact ⟨h, iff_of_true rfl rfl, iff_of_true hg le_rfl, fun _ ↦ Iff.rfl⟩
  | succ k ih =>
      obtain ⟨hboth, hf, htfff, hpasses⟩ := ih (by omega)
      have hclear' : Clear (compareLoop k (true, s)).2 d p n :=
        ⟨fun i hi ↦ (hpasses _).mpr (hclear.dest i hi), fun i hi ↦ (hpasses _).mpr (hclear.source i hi), hclear.apart⟩
      obtain ⟨hboth', hf', htfff', hpasses'⟩ := compareChar_spec hboth (by omega) hclear' (hx k (by omega)) (hy k (by omega)) hf htfff
      rw [compareLoop_succ, number, number, fieldValue_succ, fieldValue_succ]
      exact ⟨hboth', hf', htfff', fun a ↦ by rw [hpasses', hpasses]⟩

/-! ### The word before the field -/

lemma cycle_cases (e : ℕ) (s : Cpu) : s.Passes (s.address e) ∨ memoryCycle e s = s.raise invalidAddr := by
  by_cases hpass : s.Passes (s.address e)
  · exact .inl hpass
  · exact .inr (cycle_failed hpass)

/-- A word that may not be there is read for the source. -/
lemma fillSrc_any (h : SourceAt s p) (hd : Dest s w d) :
    SourceAt (fillSrc s) p ∧ Dest (fillSrc s) w d ∧ (fillSrc s).brof = s.brof ∧ ∀ a, (fillSrc s).Passes a ↔ s.Passes a := by
  have hat : SourceAt { s with arof := true } p := ⟨h.addr, h.gh⟩
  have hdest : Dest { s with arof := true } w d := ⟨hd.addr, hd.kv, hd.words, hd.held⟩
  rw [fillSrc]
  split_ifs
  · rcases cycle_cases 4 s with hpass | hfailed
    · rw [cycle_passed hpass]
      exact ⟨⟨hat.addr, hat.gh⟩, ⟨hdest.addr, hdest.kv, hdest.words, hdest.held⟩, rfl, fun _ ↦ Iff.rfl⟩
    · rw [hfailed]
      exact ⟨⟨hat.addr, hat.gh⟩, ⟨hdest.addr, hdest.kv, hdest.words, hdest.held⟩, rfl, fun _ ↦ Iff.rfl⟩
  · exact ⟨h, hd, rfl, fun _ ↦ Iff.rfl⟩

/-- The destination pointer is at the last character of a word that is not there. -/
structure Astray (s : Cpu) (w : ℕ → ℕ) (d : ℕ) : Prop where
  addr : (s.s : ℕ) = d / 8 % 2 ^ 15
  kv : s.kv = 0o70
  last : d % 8 = 7
  brof : s.brof = true
  mem : s.mem = w
  fails : ¬ s.Passes s.s

/-- **The next character** is that of the field again, and nothing was stored. -/
lemma Astray.next (h : Astray s w d) : Dest (nextDest false s) w (d + 1) := by
  have hlast := h.last
  have hstore : storeDest s = { s.raise invalidAddr with brof := false } := by
    rw [storeDest, if_pos h.brof, cycle_failed (e := 0o13) h.fails]
  have hnext : nextDest false s = { storeDest s with kv := 0, s := nextAddr s.s } := by
    rw [nextDest, h.kv]
    rfl
  rw [hnext, hstore]
  refine ⟨?_, ?_, ?_, fun hb ↦ absurd hb Bool.false_ne_true⟩
  · dsimp only
    rw [nextAddr_val, h.addr]
    lia
  · dsimp only
    omega
  · rw [Cpu.words, if_neg Bool.false_ne_true]
    exact h.mem

/-- The next character is the first one of the fields. -/
def Before (s : Cpu) (w : ℕ → ℕ) (d p : ℕ) : Prop :=
  ∀ b, Dest (nextDest false (nextSrc false { s with msff := b })) w d ∧
    SourceAt (nextDest false (nextSrc false { s with msff := b })) p ∧ (nextDest false (nextSrc false { s with msff := b })).msff = b

lemma DestMoves.of_next (s : Cpu) (h : Dest s w d ∨ Astray s w d) : Dest (nextDest false s) w (d + 1) ∧
    (nextDest false s).ma = s.ma ∧ (nextDest false s).gh = s.gh ∧ (nextDest false s).msff = s.msff := by
  rcases h with hd | hastray
  · obtain ⟨hnext, mem, b, brof, kv, addr, heq⟩ := hd.next
    refine ⟨hnext, ?_⟩
    rw [heq]
    exact ⟨rfl, rfl, rfl⟩
  · refine ⟨hastray.next, ?_⟩
    have hnext : nextDest false s = { storeDest s with kv := 0, s := nextAddr s.s } := by
      rw [nextDest, hastray.kv]
      rfl
    rw [hnext, storeDest, if_pos hastray.brof, cycle_failed (e := 0o13) hastray.fails]
    exact ⟨rfl, rfl, rfl⟩

/-- **Before the first character** of the fields. -/
theorem before_backUp (hd : Dest s w (d + 1)) (hp : SourceAt s (p + 1)) (hpass : s.Passes (string.place (d + 1))) :
    Before (backUp s) w (d + 1) (p + 1) := by
  obtain ⟨hp₁, hmoves₁⟩ := hp.prev
  obtain ⟨hd₂, hmoves₂⟩ := (hd.of_source hmoves₁).prev
  obtain ⟨hp₃, hd₃, -, hpasses₃⟩ := fillSrc_any (hp₁.of_dest hmoves₂) hd₂
  have hsteady := hmoves₁.steady.trans hmoves₂.steady
  rw [backUp]
  generalize fillSrc (prevDest false (prevSrc false s)) = t at *
  have hfilled : SourceAt (fillDest t) p ∧ (Dest (fillDest t) w d ∨ Astray (fillDest t) w d) := by
    by_cases hthere : t.Passes (string.place d)
    · obtain ⟨hd₄, -, -, hmoves₄⟩ := hd₃.fill hthere
      exact ⟨hp₃.of_dest hmoves₄, .inl hd₄⟩
    · -- it is another word than that of the field
      have hlast : d % 8 = 7 := by
        by_contra hne
        refine hthere ((hpasses₃ _).mpr ((hsteady.1 _).mpr ?_))
        rwa [show string.place d = string.place (d + 1) by dsimp only [string]; lia]
      have haddr : string.place d = t.s := hd₃.addr.symm
      rw [haddr] at hthere
      have hb : t.brof = false := Bool.eq_false_iff.mpr fun hb ↦ hthere (hd₃.held hb)
      have hfill : fillDest t = { t.raise invalidAddr with brof := true } := by
        rw [fillDest, if_pos hb, cycle_failed (e := 3) hthere]
      have hkv := hd₃.kv
      have hmem : t.mem = w := by rw [← hd₃.words, Cpu.words, if_neg (by rw [hb]; decide)]
      rw [hfill]
      exact ⟨⟨hp₃.addr, hp₃.gh⟩, .inr ⟨hd₃.addr, by dsimp only [Cpu.raise]; lia, hlast, rfl, hmem, hthere⟩⟩
  generalize fillDest t = v at *
  intro b
  obtain ⟨hat, hmoves⟩ := @SourceAt.next { v with msff := b } p ⟨hfilled.1.addr, hfilled.1.gh⟩
  have hdest : Dest (nextSrc false { v with msff := b }) w d ∨ Astray (nextSrc false { v with msff := b }) w d := by
    obtain ⟨a, arof, gh, ma, heq⟩ := hmoves
    rw [heq]
    rcases hfilled.2 with hd₄ | hastray
    · exact .inl ⟨hd₄.addr, hd₄.kv, hd₄.words, hd₄.held⟩
    · exact .inr ⟨hastray.addr, hastray.kv, hastray.last, hastray.brof, hastray.mem, hastray.fails⟩
  obtain ⟨hend, hma, hgh, hmsff⟩ := DestMoves.of_next _ hdest
  exact ⟨hend, ⟨by rw [hma, hat.addr], by rw [hgh, hat.gh]⟩, hmsff.trans hmoves.steady.2⟩

/-! ### The addition -/

/-- A character is put after the others. -/
lemma Written.snoc {w' : ℕ → ℕ} (h : Written (string.put (d + m) c w) w' d m x) (hc : c < 64) (hm : m < 2 ^ 18) :
    Written w w' d (m + 1) fun i ↦ if i = m then c else x i where
  chars i hi := by
    by_cases him : i = m
    · have hsame : string.get (d + m) w' = string.get (d + m) (string.put (d + m) c w) := by
        refine Nat.eq_of_testBit_eq fun j ↦ ?_
        rw [Layout.get, Layout.get, testBit_extract, testBit_extract]
        by_cases hj : j < string.size
        · rw [h.others _ _ fun i hi hplace ↦ ?_]
          have hapart := string_apart_near (show d + m ≠ d + i by lia) (by lia) (by lia) hplace
          have hsize : string.size = 6 := rfl
          lia
        · rw [decide_eq_false hj, Bool.and_false, Bool.and_false]
      rw [if_pos him, him, hsame, Layout.get_put]
      exact Nat.mod_eq_of_lt hc
    · rw [if_neg him]
      exact h.chars i (by omega)
  others a k hbeside := by
    rw [h.others a k fun i hi ↦ hbeside i (by omega)]
    exact @Layout.testBit_puts ℕ _ string (d + m) [c] a k (fun j hdj hj ha ↦ by
      rw [List.length_singleton] at hj
      obtain rfl : j = d + m := by omega
      exact hbeside m m.lt_succ_self ha) w

/-- A digit, or its nines complement. -/
def pick (f : Bool) (a : ℕ) : ℕ := if f = true then 9 - a else a

lemma pick_lt (f : Bool) (ha : a < 10) : pick f a < 10 := by
  rw [pick]
  split_ifs <;> omega

lemma putDigit_eq (hc : c < 64) (hkv : s.kv < 64) : putDigit c s = putChar 0o77 c s := by
  have hshift : c <<< bitNumber (s.kv ||| 0o7) < 2 ^ 64 := by
    rw [bitNumber_char hkv, Nat.shiftLeft_eq]
    calc c * 2 ^ (6 * (7 - s.kv / 8)) < 64 * 2 ^ (6 * (7 - s.kv / 8)) := Nat.mul_lt_mul_of_pos_right hc (by positivity)
      _ ≤ 64 * 2 ^ 42 := Nat.mul_le_mul_left _ (Nat.pow_le_pow_right (by norm_num) (by omega))
      _ ≤ 2 ^ 64 := by norm_num
  have hword : ((c : ℤ) % 2 ^ 64).toNat = c := by lia
  rw [putDigit, putChar, hword, Nat.mod_eq_of_lt hshift]

/-- One character of the addition, of digits. -/
lemma addChar_eq {ss sd : Bool} (ha : a < 10) (hb : b < 10) (hc : c ≤ 1) (hkv : s.kv < 64) :
    addChar ss sd ⟨a, b, c, f, s⟩ =
      let t := pick ss a + pick sd b + c
      let s := backUp (putChar 0o77 (t % 10 + if f = true then 32 else 0) s)
      ⟨s.sourceChar 0o17, s.destChar 0o17, (t / 10 : ℕ), false, s⟩ := by
  have hpick (f : Bool) {a : ℕ} (ha : a < 10) : (if f = true then 9 - (a : ℤ) else a) = (pick f a : ℕ) := by
    rw [pick]
    split_ifs <;> omega
  have hlt := pick_lt ss ha
  have hlt' := pick_lt sd hb
  rw [addChar]
  dsimp only
  rw [hpick ss ha, hpick sd hb]
  generalize pick ss a = i at *
  generalize pick sd b = j at *
  have hpair : (if (i : ℤ) + j + c < 10 then ((0 : ℤ), (i : ℤ) + j + c) else (1, (i : ℤ) + j + c - 10)) =
      ((((i + j + c) / 10 : ℕ) : ℤ), (((i + j + c) % 10 : ℕ) : ℤ)) := by
    split_ifs <;> (refine Prod.ext ?_ ?_ <;> (dsimp only; lia))
  have hput : putDigit (if f = true then ((i + j + c) % 10 : ℕ) + 0o40 else ((i + j + c) % 10 : ℕ)) s =
      putChar 0o77 ((i + j + c) % 10 + if f = true then 32 else 0) s := by
    rw [← putDigit_eq (by split_ifs <;> omega) hkv]
    congr 1
    split_ifs <;> lia
  rw [hpair]
  dsimp only
  rw [hput]

lemma Decimals.put (h : Decimals w d n) (hm : m < n) (hn : n ≤ 2 ^ 18) (hc : c % 16 < 10) (hlt : c < 64) :
    Decimals (string.put (d + m) c w) d n := fun i hi ↦ by
  by_cases him : i = m
  · have hsame : c % 2 ^ string.size = c := Nat.mod_eq_of_lt hlt
    rw [him, Layout.get_put, hsame]
    exact hc
  · rw [Layout.get_put_of_apart (string_apart_near (by omega) (by omega) (by omega))]
    exact h i hi

lemma Written.congr {w' : ℕ → ℕ} (h : Written w w' d n x) (hxy : ∀ i < n, x i = y i) : Written w w' d n y :=
  ⟨fun i hi ↦ (h.chars i hi).trans (hxy i hi), h.others⟩

/-- **One digit is added**, and the sign comes to the last character. -/
theorem addChar_spec {ss sd : Bool} (h : Both s w p n (d + m) (p + m)) (hm : m < n) (hbrof : s.brof = true) (hclear : Clear s d p n)
    (hx : Decimals w p n) (hy : Decimals w d n) (hc : c ≤ 1) :
    ∃ v r s', pick ss (string.get (p + m) w % 16) + pick sd (string.get (d + m) w % 16) + c = v + 10 * r ∧ v < 10 ∧ r ≤ 1 ∧
      addChar ss sd ⟨(string.get (p + m) w % 16 : ℕ), (string.get (d + m) w % 16 : ℕ), (c : ℕ), f, s⟩ =
        ⟨(backUp s').sourceChar 0o17, (backUp s').destChar 0o17, (r : ℕ), false, backUp s'⟩ ∧
      Both s' (string.put (d + m) (v + if f = true then 32 else 0) w) p n (d + m) (p + m) ∧ Steady s s' := by
  have hkv := h.dest.kv
  have hlt := pick_lt ss (hx m hm)
  have hlt' := pick_lt sd (hy m hm)
  obtain ⟨hput, hsteady⟩ := h.put hm hclear hbrof
    (show (pick ss (string.get (p + m) w % 16) + pick sd (string.get (d + m) w % 16) + c) % 10 + (if f = true then 32 else 0) < 64 by
      split_ifs <;> omega)
  refine ⟨_, _, _, (Nat.mod_add_div _ 10).symm, Nat.mod_lt _ (by norm_num), ?_, ?_, hput, hsteady⟩
  · lia
  · exact addChar_eq (hx m hm) (hy m hm) hc (by omega)

/-- **The digits are added** from the last one down, and the value is that of the numbers. -/
theorem addLoop_spec {ss sd : Bool} (hd : 0 < d) (hp : 0 < p) (hn : n ≤ 2 ^ 18) (h : Both s w p n (d + m) (p + m)) (hm : m < n)
    (hbrof : s.brof = true) (hclear : Clear s d p n) (hx : Decimals w p n) (hy : Decimals w d n) (hc : c ≤ 1) :
    ∃ out w' c', (addLoop ss sd (m + 1) ⟨(string.get (p + m) w % 16 : ℕ), (string.get (d + m) w % 16 : ℕ), (c : ℕ), f, s⟩).c = (c' : ℕ) ∧
      c' ≤ 1 ∧ (∀ i < m + 1, out i < 10) ∧ Written w w' d (m + 1) (fun i ↦ out i + if i = m ∧ f = true then 32 else 0) ∧
      fieldValue out (m + 1) + 10 ^ (m + 1) * c' = fieldValue (fun i ↦ pick ss (string.get (p + i) w % 16)) (m + 1) +
        fieldValue (fun i ↦ pick sd (string.get (d + i) w % 16)) (m + 1) + c ∧
      Before (addLoop ss sd (m + 1) ⟨(string.get (p + m) w % 16 : ℕ), (string.get (d + m) w % 16 : ℕ), (c : ℕ), f, s⟩).s w' d p := by
  induction m generalizing s w c f with
  | zero =>
      obtain ⟨v, r, s', hsum, hv, hr, hstep, hboth, hsteady⟩ := @addChar_spec s w c d 0 n p f ss sd h hm hbrof hclear hx hy hc
      have hchar : v + (if f = true then 32 else 0) < 64 := by split_ifs <;> omega
      have hdest := hboth.dest
      have hsource := hboth.source
      have hpass := (hsteady.1 _).mpr (hclear.dest 0 hm)
      obtain ⟨d', rfl⟩ : ∃ d', d = d' + 1 := ⟨d - 1, by omega⟩
      obtain ⟨p', rfl⟩ : ∃ p', p = p' + 1 := ⟨p - 1, by omega⟩
      rw [addLoop, addLoop, hstep]
      refine ⟨fun _ ↦ v, _, r, rfl, hr, fun _ _ ↦ hv, ?_, ?_, before_backUp hdest hsource hpass⟩
      · refine (@Written.snoc w (fun _ ↦ 0) _ (d' + 1) 0 _ ⟨fun i hi ↦ absurd hi i.not_lt_zero, fun _ _ _ ↦ rfl⟩ hchar
          (by norm_num)).congr fun i hi ↦ ?_
        obtain rfl : i = 0 := by lia
        rw [if_pos rfl]
        congr 1
        exact if_congr (and_iff_right rfl).symm rfl rfl
      · have hlt := pick_lt ss (hx 0 hm)
        have hlt' := pick_lt sd (hy 0 hm)
        have hnone (x : ℕ → ℕ) : fieldValue x 0 = 0 := rfl
        rw [fieldValue_succ, fieldValue_succ, fieldValue_succ, hnone, hnone, hnone]
        lia
  | succ m ih =>
      obtain ⟨v, r, s', hsum, hv, hr, hstep, hboth, hsteady⟩ := addChar_spec (f := f) h hm hbrof hclear hx hy hc
      have hchar : v + (if f = true then 32 else 0) < 64 := by split_ifs <;> omega
      have hlow : (v + if f = true then 32 else 0) % 16 < 10 := by split_ifs <;> omega
      -- the next digits are as they were
      have hother (i : ℕ) (hi : i < m + 1) : string.get (d + i) (string.put (d + (m + 1)) (v + if f = true then 32 else 0) w) =
          string.get (d + i) w := Layout.get_put_of_apart (string_apart_near (by omega) (by omega) (by omega)) _ _
      have hsame (i : ℕ) (hi : i < n) : string.get (p + i) (string.put (d + (m + 1)) (v + if f = true then 32 else 0) w) =
          string.get (p + i) w := by
        rw [Layout.get, Layout.get, Layout.put_of_ne (hclear.apart i hi _ hm)]
      obtain ⟨hprev, hsteady'⟩ := hboth.prev
      have hclear' := hclear.of_steady (hsteady.trans hsteady')
      obtain ⟨hfill, hb, hi, hj, hsteady''⟩ := hprev.fill (by omega) hclear'
      rw [hsame m (by omega)] at hi
      rw [hother m m.lt_succ_self] at hj
      have hi' := (hi 0o17 rfl).trans (char_parts (get_lt (p + m) w)).2.2.1
      have hj' := (hj 0o17 rfl).trans (char_parts (get_lt (d + m) w)).2.2.1
      rw [← backUp] at hfill hb hi' hj' hsteady''
      obtain ⟨out, w', c', hcarry, hc', hout, hwritten, hvalue, hbefore⟩ := @ih (backUp s') _ r false hfill (by omega) hb
        (hclear'.of_steady hsteady'') (fun i hi ↦ by rw [hsame i hi]; exact hx i hi) (hy.put hm hn hlow hchar) hr
      rw [hsame m (by omega), hother m m.lt_succ_self] at hcarry hbefore
      rw [addLoop, hstep, hi', hj']
      refine ⟨Function.update out (m + 1) v, w', c', hcarry, hc', fun i hi ↦ ?_, ?_, ?_, hbefore⟩
      · rw [Function.update_apply]
        split_ifs
        · exact hv
        · exact hout i (by lia)
      · refine (hwritten.snoc hchar (by omega)).congr fun i hi ↦ ?_
        rw [Function.update_apply]
        by_cases him : i = m + 1
        · rw [if_pos him, if_pos him]
          congr 1
          exact if_congr (and_iff_right him).symm rfl rfl
        · rw [if_neg him, if_neg him, if_neg fun hh ↦ Bool.false_ne_true hh.2, if_neg fun hh ↦ him hh.1]
      · have hlt := pick_lt ss (hx (m + 1) hm)
        have hlt' := pick_lt sd (hy (m + 1) hm)
        have houts : fieldValue (Function.update out (m + 1) v) (m + 1) = fieldValue out (m + 1) :=
          fieldValue_congr fun i hi ↦ Function.update_of_ne (by lia) _ _
        have hsources : fieldValue (fun i ↦ pick ss (string.get (p + i)
            (string.put (d + (m + 1)) (v + if f = true then 32 else 0) w) % 16)) (m + 1) =
              fieldValue (fun i ↦ pick ss (string.get (p + i) w % 16)) (m + 1) :=
          fieldValue_congr fun i hi ↦ by rw [hsame i (by lia)]
        have hdests : fieldValue (fun i ↦ pick sd (string.get (d + i)
            (string.put (d + (m + 1)) (v + if f = true then 32 else 0) w) % 16)) (m + 1) =
              fieldValue (fun i ↦ pick sd (string.get (d + i) w % 16)) (m + 1) :=
          fieldValue_congr fun i hi ↦ by rw [hother i hi]
        rw [hsources, hdests] at hvalue
        rw [fieldValue_succ, houts, Function.update_self, fieldValue_succ _ (m + 1), fieldValue_succ _ (m + 1), pow_succ' 10 (m + 1)]
        rw [Nat.mod_eq_of_lt (show v < 16 by omega), Nat.mod_eq_of_lt (hlt.trans (by norm_num)),
          Nat.mod_eq_of_lt (hlt'.trans (by norm_num)), mul_assoc]
        lia

/-! ### The result -/

/-- A number with a sign. -/
def signed (f : Bool) (v : ℕ) : ℤ := if f = true then -v else v

/-- What the operators compute, of the destination and the source. -/
def FieldOp.total : FieldOp → ℤ → ℤ → ℤ
  | fad, a, b => a + b
  | fsu, a, b => a - b

/-- The sign of the result. A zero is positive, unless magnitudes are added: then it has the sign of the destination. -/
def FieldOp.minus (op : FieldOp) (sd ss : Bool) (b a : ℕ) : Bool :=
  decide (op.total (signed sd b) (signed ss a) < 0 ∨ a = 0 ∧ b = 0 ∧ sd = true ∧ ss = decide (op = .fad))

lemma fieldSign_eq (op : FieldOp) (sd ss : Bool) (a b : ℕ) :
    fieldSign op (decide (a = b)) (decide (b ≤ a)) ss sd ((ss == sd) ^^ decide (op = .fad)) = op.minus sd ss b a := by
  rw [Bool.eq_iff_iff]
  cases op <;> cases ss <;> cases sd <;> simp [fieldSign, FieldOp.minus, FieldOp.total, signed] <;> lia

/-- The magnitude of the result. -/
lemma natAbs_total (op : FieldOp) (sd ss : Bool) (a b : ℕ) : (op.total (signed sd b) (signed ss a)).natAbs =
    if ((ss == sd) ^^ decide (op = .fad)) = true then if b ≤ a then a - b else b - a else a + b := by
  cases op <;> cases ss <;> cases sd <;> simp [FieldOp.total, signed] <;> lia

/-- The digits and the carry are those of the sum, or of the difference. -/
lemma sum_result (op : FieldOp) (sd ss : Bool) {a b v c na nb N : ℕ} (ha : na + a + 1 = N) (hb : nb + b + 1 = N) (hv : v < N) (hc : c ≤ 1)
    (hsum : v + N * c = if ((ss == sd) ^^ decide (op = .fad)) = true then if b ≤ a then a + nb + 1 else na + b + 1 else a + b) :
    v = (op.total (signed sd b) (signed ss a)).natAbs % N ∧
      (((ss == sd) ^^ decide (op = .fad)) ^^ decide (c ≠ 0)) = decide (N ≤ (op.total (signed sd b) (signed ss a)).natAbs) := by
  rw [natAbs_total]
  cases hsub : ((ss == sd) ^^ decide (op = .fad)) with
  | false =>
      rw [hsub, if_neg Bool.false_ne_true] at hsum
      rw [if_neg Bool.false_ne_true, ← hsum, Nat.add_mul_mod_self_left, Nat.mod_eq_of_lt hv, Bool.false_xor]
      refine ⟨rfl, decide_eq_decide.mpr ?_⟩
      obtain rfl | rfl : c = 0 ∨ c = 1 := by lia
      · lia
      · omega
  | true =>
      -- the carry out of a complement is one
      rw [hsub, if_pos rfl] at hsum
      have hlt : (if b ≤ a then a - b else b - a) < N := by split_ifs <;> lia
      obtain rfl : c = 1 := by
        by_contra hne
        obtain rfl : c = 0 := by lia
        split_ifs at hsum <;> lia
      rw [if_pos rfl, Nat.mod_eq_of_lt hlt, decide_eq_false (not_le.mpr hlt)]
      refine ⟨?_, rfl⟩
      split_ifs at hsum ⊢ <;> lia

lemma fieldValue_pick (hx : ∀ i < n, x i % 16 < 10) (f : Bool) : fieldValue (fun i ↦ pick f (x i % 16)) n =
    if f = true then 10 ^ n - 1 - fieldValue x n else fieldValue x n := by
  cases f with
  | false =>
      rw [if_neg Bool.false_ne_true]
      refine fieldValue_mod fun i hi ↦ ?_
      rw [pick, if_neg Bool.false_ne_true, Nat.mod_mod]
  | true =>
      rw [if_pos rfl, ← fieldValue_nines hx]
      simp only [pick, if_true]
      lia

/-- The pointers go forward over the field. -/
lemma forwardLoop_spec (hd : Dest s w d) (hp : SourceAt s p) :
    Dest (forwardLoop n s) w (d + n) ∧ SourceAt (forwardLoop n s) (p + n) ∧ (forwardLoop n s).msff = s.msff := by
  induction n generalizing s d p with
  | zero => exact ⟨hd, hp, rfl⟩
  | succ n ih =>
      obtain ⟨hp', hmoves⟩ := hp.next
      obtain ⟨hd', hmoves'⟩ := (hd.of_source hmoves).next
      obtain ⟨hdest, hsource, hmsff⟩ := ih hd' (hp'.of_dest hmoves')
      rw [forwardLoop, show d + (n + 1) = d + 1 + n by omega, show p + (n + 1) = p + 1 + n by omega]
      exact ⟨hdest, hsource, by rw [hmsff, hmoves'.steady.2, hmoves.steady.2]⟩

/-- The characters repeat after all words. -/
lemma place_wrap (i : ℕ) : string.place (i + 2 ^ 18) = string.place i ∧ string.pos (i + 2 ^ 18) = string.pos i := by
  dsimp only [string]
  omega

lemma get_wrap (i : ℕ) (w : ℕ → ℕ) : string.get (i + 2 ^ 18) w = string.get i w := by
  rw [Layout.get, Layout.get, (place_wrap i).1, (place_wrap i).2]

lemma Written.wrap {w' : ℕ → ℕ} (h : Written w w' (d + 2 ^ 18) n x) : Written w w' d n x where
  chars i hi := by
    rw [← h.chars i hi, show d + 2 ^ 18 + i = d + i + 2 ^ 18 by omega, get_wrap]
  others a k hbeside := h.others a k fun i hi ↦ by
    rw [show d + 2 ^ 18 + i = d + i + 2 ^ 18 by omega, (place_wrap _).1, (place_wrap _).2]
    exact hbeside i hi

/-- **The sum of two fields** that were compared. -/
theorem addFields_spec (hd : 0 < d) (hp : 0 < p) (hn : 0 < n) (hsize : n ≤ 2 ^ 18) (h : Both s w p n (d + n) (p + n))
    (hclear : Clear s d p n) (hx : Decimals w p n) (hy : Decimals w d n) (hf : f = true ↔ number w p n = number w d n)
    (hg : s.msff = true ↔ number w d n ≤ number w p n) :
    let sd := fieldMinus (fun i ↦ string.get (d + i) w) n
    let ss := fieldMinus (fun i ↦ string.get (p + i) w) n
    let total := op.total (signed sd (number w d n)) (signed ss (number w p n))
    ∃ w', Dest (addFields op n f s) w' (d + n) ∧ SourceAt (addFields op n f s) (p + n) ∧
      Written w w' d n (fun i ↦ digitChar (op.minus sd ss (number w d n) (number w p n)) total.natAbs (n - 1 - i)) ∧
      ((addFields op n f s).msff = true ↔ 10 ^ n ≤ total.natAbs) := by
  obtain ⟨m, rfl⟩ : ∃ m, n = m + 1 := ⟨n - 1, by omega⟩
  -- the last characters
  obtain ⟨hprev, hsteady⟩ := h.prev
  obtain ⟨hfill, hb, hi, hj, hsteady'⟩ := hprev.fill m.lt_succ_self (hclear.of_steady hsteady)
  have hclear' := (hclear.of_steady hsteady).of_steady hsteady'
  have hmsff := hsteady'.2.trans hsteady.2
  rw [← backUp] at hfill hb hi hj hclear' hmsff
  have hi' := (hi 0o77 rfl).trans (char_parts (get_lt (p + m) w)).1
  have hj' := (hj 0o77 rfl).trans (char_parts (get_lt (d + m) w)).1
  have hlow := (char_parts (get_lt (p + m) w)).2.2.1
  have hlow' := (char_parts (get_lt (d + m) w)).2.2.1
  have hf' : f = decide (number w p (m + 1) = number w d (m + 1)) := Bool.eq_iff_iff.mpr (hf.trans decide_eq_true_iff.symm)
  have hg' : (backUp s).msff = decide (number w d (m + 1) ≤ number w p (m + 1)) := by
    rw [hmsff]
    exact Bool.eq_iff_iff.mpr (hg.trans decide_eq_true_iff.symm)
  intro sd ss total
  have hss : decide (string.get (p + m) w &&& 0o60 = 0o40) = ss := rfl
  have hsd : decide (string.get (d + m) w &&& 0o60 = 0o40) = sd := rfl
  rw [addFields]
  dsimp only
  rw [hi', hj', hlow, hlow', hss, hsd, hg', hf', fieldSign_eq]
  generalize hsub : ((ss == sd) ^^ decide (op = .fad)) = sub
  have hc : (if sub = true then (1 : ℤ) else 0) = ((if sub = true then 1 else 0 : ℕ) : ℤ) := by split_ifs <;> rfl
  have hnines := fieldValue_nines hx
  have hnines' := fieldValue_nines hy
  -- which of the fields is complemented
  obtain ⟨ss', sd', hpair, hsum⟩ : ∃ ss' sd', (if sub = true then
        if decide (number w d (m + 1) ≤ number w p (m + 1)) = true then (false, true) else (true, false) else (false, false)) = (ss', sd') ∧
      fieldValue (fun i ↦ pick ss' (string.get (p + i) w % 16)) (m + 1) + fieldValue (fun i ↦ pick sd' (string.get (d + i) w % 16)) (m + 1) +
        (if sub = true then 1 else 0) = if sub = true then if number w d (m + 1) ≤ number w p (m + 1) then
          number w p (m + 1) + (10 ^ (m + 1) - 1 - number w d (m + 1)) + 1 else
            10 ^ (m + 1) - 1 - number w p (m + 1) + number w d (m + 1) + 1 else number w p (m + 1) + number w d (m + 1) := by
    refine ⟨_, _, rfl, ?_⟩
    rw [fieldValue_pick hx, fieldValue_pick hy]
    cases sub with
    | false => rfl
    | true =>
        by_cases hle : number w d (m + 1) ≤ number w p (m + 1)
        · simp only [hle, decide_true, if_true]
          rfl
        · simp only [hle, decide_false, if_true, Bool.false_eq_true, if_false]
          rfl
  rw [hpair, hc]
  dsimp only
  obtain ⟨out, w', c', hcarry, hc', hout, hwritten, hvalue, hbefore⟩ := @addLoop_spec (backUp s) w (if sub = true then 1 else 0) d m
    (m + 1) p (op.minus sd ss (number w d (m + 1)) (number w p (m + 1))) ss' sd' hd hp hsize hfill m.lt_succ_self hb hclear' hx hy
    (by split_ifs <;> omega)
  rw [hcarry, show decide ((c' : ℤ) ≠ 0) = decide (c' ≠ 0) from decide_eq_decide.mpr (not_congr Int.natCast_eq_zero)]
  obtain ⟨hdest, hsource, hmsff'⟩ := hbefore (sub ^^ decide (c' ≠ 0))
  obtain ⟨hend, hend', hflag⟩ := @forwardLoop_spec _ w' d (m + 1) p hdest hsource
  -- the digits are those of the result
  have hoverflow : fieldValue out (m + 1) < 10 ^ (m + 1) := fieldValue_lt fun i hi ↦ (Nat.mod_le _ _).trans_lt (hout i hi)
  rw [hsum, ← hsub] at hvalue
  obtain ⟨hdigits, hfits⟩ := sum_result op sd ss (show 10 ^ (m + 1) - 1 - number w p (m + 1) + number w p (m + 1) + 1 = 10 ^ (m + 1) by
    rw [number]; lia) (show 10 ^ (m + 1) - 1 - number w d (m + 1) + number w d (m + 1) + 1 = 10 ^ (m + 1) by
    rw [number]; lia) hoverflow hc' hvalue
  refine ⟨w', hend, hend', hwritten.congr fun i hi ↦ ?_, ?_⟩
  · rw [fieldValue_digit hout hi, hdigits, digitChar, digit_mod (by lia)]
    congr 1
    exact if_congr (and_congr_left fun _ ↦ by lia) rfl rfl
  · rw [hflag, hmsff', ← hsub, hfits, decide_eq_true_iff]

/-- The fields of `n` characters are digits in words that are apart and let pass, and those of the source in `A` are as in the memory. -/
structure FieldClear (s : Cpu) (n : ℕ) : Prop where
  gh : s.gh < 64
  kv : s.kv < 64
  held : s.Held
  clear : Clear s s.dest s.source n
  coherent : ∀ i < n, s.sourceChars i = string.get (s.source + i) s.words
  source : Decimals s.words s.source n
  dest : Decimals s.words s.dest n

/-- The numbers in the fields, and their signs. -/
def Cpu.sourceNumber (s : Cpu) (n : ℕ) : ℕ := number s.words s.source n
def Cpu.destNumber (s : Cpu) (n : ℕ) : ℕ := number s.words s.dest n
def Cpu.sourceMinus (s : Cpu) (n : ℕ) : Bool := fieldMinus (fun i ↦ string.get (s.source + i) s.words) n
def Cpu.destMinus (s : Cpu) (n : ℕ) : Bool := fieldMinus (fun i ↦ string.get (s.dest + i) s.words) n

/-- The exact result. -/
def FieldOp.result (op : FieldOp) (n : ℕ) (s : Cpu) : ℤ :=
  op.total (signed (s.destMinus n) (s.destNumber n)) (signed (s.sourceMinus n) (s.sourceNumber n))

/-- The destination has the lowest digits of the exact result and a sign, the true state tells whether there are more of them, no other
bit of the memory changes, and both pointers are at the ends of the fields. -/
def FieldResult (op : FieldOp) (n : ℕ) (s : Cpu) (minus : Bool) : Prop :=
  ∃ w, Dest (fieldAdd op n s) w (s.dest + n) ∧ SourceAt (fieldAdd op n s) (s.source + n) ∧
    Written s.words w s.dest n (fun i ↦ digitChar minus (op.result n s).natAbs (n - 1 - i)) ∧
    ((fieldAdd op n s).msff = true ↔ 10 ^ n ≤ (op.result n s).natAbs)

/-- **Field add and field subtract** give the exact result. A zero is positive, unless magnitudes are added: then it has the sign of the
destination. -/
theorem fieldAdd_spec (op : FieldOp) (s : Cpu) (n : ℕ) (hn : 1 ≤ n) (hsize : n ≤ 63) (h : FieldClear s n) :
    FieldResult op n s (op.minus (s.destMinus n) (s.sourceMinus n) (s.destNumber n) (s.sourceNumber n)) := by
  obtain ⟨hgh, hkv, hheld, hclear, hcoherent, hx, hy⟩ := h
  -- the fields, some words further for the word before them
  have hwrap (i j : ℕ) : string.get (i + 2 ^ 18 + j) s.words = string.get (i + j) s.words := by
    rw [show i + 2 ^ 18 + j = i + j + 2 ^ 18 by omega, get_wrap]
  have hplace (i j : ℕ) : string.place (i + 2 ^ 18 + j) = string.place (i + j) := by
    rw [show i + 2 ^ 18 + j = i + j + 2 ^ 18 by omega, (place_wrap _).1]
  obtain ⟨hp, hmoves⟩ := @adjustSource_source s n hgh (by omega)
  obtain ⟨hd, hmoves'⟩ : Dest (adjustDest (adjustSource s)) s.words s.dest ∧
      DestMoves (adjustSource s) (adjustDest (adjustSource s)) := by
    obtain ⟨a, arof, gh, ma, heq⟩ := hmoves
    rw [heq]
    exact @adjustDest_dest { s with a := a, arof := arof, gh := gh, ma := ma } hkv hheld
  have hwords : (adjustSource s).words = s.words := by
    obtain ⟨a, arof, gh, ma, heq⟩ := hmoves
    rw [heq]
    rfl
  have hsteady := hmoves.steady.trans hmoves'.steady
  have hboth : Both { adjustDest (adjustSource s) with msff := true } s.words (s.source + 2 ^ 18) n (s.dest + 2 ^ 18)
      (s.source + 2 ^ 18) := by
    refine Both.flag ⟨hd.cast (by omega), (hp.toSourceAt.of_dest hmoves').cast (by omega), fun i hi ↦ ?_⟩ true
    rw [show s.source + 2 ^ 18 + i = s.source + i + 2 ^ 18 by omega, get_wrap, get_wrap,
      hmoves'.sourceWords (hd.words.trans hwords.symm), hp.chars i hi]
    exact hcoherent i hi
  have hclear' : Clear { adjustDest (adjustSource s) with msff := true } (s.dest + 2 ^ 18) (s.source + 2 ^ 18) n := by
    refine ⟨fun i hi ↦ ?_, fun i hi ↦ ?_, fun i hi j hj ↦ ?_⟩
    · rw [hplace]
      exact (hsteady.1 _).mpr (hclear.dest i hi)
    · rw [hplace]
      exact (hsteady.1 _).mpr (hclear.source i hi)
    · rw [hplace, hplace]
      exact hclear.apart i hi j hj
  have hx' : Decimals s.words (s.source + 2 ^ 18) n := fun i hi ↦ by
    rw [hwrap]
    exact hx i hi
  have hy' : Decimals s.words (s.dest + 2 ^ 18) n := fun i hi ↦ by
    rw [hwrap]
    exact hy i hi
  obtain ⟨hcompared, hf, hg, hpasses⟩ := compareLoop_spec hboth hclear' hx' hy' rfl le_rfl
  have hclear'' := Clear.mk (fun i hi ↦ (hpasses _).mpr (hclear'.dest i hi)) (fun i hi ↦ (hpasses _).mpr (hclear'.source i hi)) hclear'.apart
  obtain ⟨w, hend, hat, hwritten, hflag⟩ := @addFields_spec op _ s.words _ n _ _ (by omega) (by omega) hn (by omega) hcompared hclear'' hx'
    hy' hf hg
  simp only [number, hwrap] at hwritten hflag
  exact ⟨w, hend.cast (by omega), hat.cast (by omega), hwritten.wrap, hflag⟩

/-- Two fields of a digit. -/
def oneDigit (a b : ℕ) : Cpu :=
  { fullStack with
    arof := false, brof := false, ncsf := false, ma := toAddr 0o2000, s := toAddr 0o3000
    mem := fun addr ↦ if addr = 0o2000 then a <<< 42 else if addr = 0o3000 then b <<< 42 else 0 }

/-- The difference of three and five. -/
theorem fieldAdd_spec_digit : FieldResult .fsu 1 (oneDigit 5 3) true :=
  fieldAdd_spec .fsu (oneDigit 5 3) 1 (by decide) (by decide)
    ⟨by decide, by decide, fun hb ↦ absurd hb Bool.false_ne_true, ⟨by decide, by decide, by decide⟩, by decide, by decide, by decide⟩

/-- The sum of two negative zeros is a negative zero. -/
theorem negative_zero : ¬ ∀ op s n, 1 ≤ n → n ≤ 63 → FieldClear s n → FieldResult op n s (decide (op.result n s < 0)) := fun h ↦ by
  obtain ⟨w, hdest, -, hwritten, -⟩ := h .fad (oneDigit 0o40 0o40) 1 (by decide) (by decide)
    ⟨by decide, by decide, fun hb ↦ absurd hb Bool.false_ne_true, ⟨by decide, by decide, by decide⟩, by decide, by decide, by decide⟩
  have hchar := hwritten.chars 0 Nat.one_pos
  rw [← hdest.words] at hchar
  revert hchar
  decide

end Ka10Simh.B5500
