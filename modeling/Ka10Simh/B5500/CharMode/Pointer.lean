import Ka10Simh.B5500.Stack
import Ka10Simh.Lib.Fields

/-!
The pointers of character mode: a source word in `A`, addressed by `Ma` and `GH`, and a destination word in `B`, addressed by
`S` and `KV`.

* `adjustSource`, `nextDest`, `fillSrc`, …: the moves of the pointers.
* `string`: the characters of the memory, in one row.
* `Cpu.words`, `Cpu.sourceWords`: the memory, with the word that a register holds.
* `DestAt`, `SourceAt`: where the pointers are.
-/

namespace Ka10Simh.B5500

open Word Fields

/-! ### The source -/

/-- `bit_number`. -/
def bitNumbers : List ℕ :=
  [47, 46, 45, 44, 43, 42, 42, 42,
   41, 40, 39, 38, 37, 36, 36, 36,
   35, 34, 33, 32, 31, 30, 30, 30,
   29, 28, 27, 26, 25, 24, 24, 24,
   23, 22, 21, 20, 19, 18, 18, 18,
   17, 16, 15, 14, 13, 12, 12, 12,
   11, 10, 9, 8, 7, 6, 6, 6,
   5, 4, 3, 2, 1, 0, 0, 0]
def bitNumber (x : ℕ) : ℕ := bitNumbers.getD x 0

/-- The destination word is stored. -/
def storeDest (s : Cpu) : Cpu := { if s.brof = true then memoryCycle 0o13 s else s with brof := false }

/-- `adjust_source`, `adjust_dest`. -/
def adjustSource (s : Cpu) : Cpu :=
  if s.gh &&& 0o7 ≠ 0 then
    let s := { s with gh := (s.gh &&& 0o70) + 0o10 }
    if s.gh > 0o77 then { s with arof := false, gh := 0, ma := nextAddr s.ma } else s
  else s
def adjustDest (s : Cpu) : Cpu :=
  if s.kv &&& 0o7 ≠ 0 then
    let s := { s with kv := (s.kv &&& 0o70) + 0o10 }
    if s.kv > 0o75 then { storeDest s with kv := 0, s := nextAddr s.s } else s
  else s

/-- `next_dest`, `prev_dest`, by a bit or by a character. -/
def nextDest (bit : Bool) (s : Cpu) : Cpu :=
  let kv := if bit = true then s.kv + 1 else s.kv ||| 7
  let kv := if kv &&& 0o7 > 5 then (kv &&& 0o70) + 0o10 else kv
  if kv > 0o75 then { storeDest s with kv := 0, s := nextAddr s.s } else { s with kv := kv }
def prevDest (bit : Bool) (s : Cpu) : Cpu :=
  if bit = true then
    let s : Cpu :=
      if s.kv &&& 0o7 = 0 then
        if s.kv = 0 then { storeDest s with s := prevAddr s.s, kv := 0o76 }
        else { s with kv := (s.kv - 0o10) &&& 0o70 ||| 0o6 }
      else s
    { s with kv := s.kv - 1 }
  else
    let s := { s with kv := s.kv &&& 0o70 }
    if s.kv = 0 then { storeDest s with s := prevAddr s.s, kv := 0o70 } else { s with kv := s.kv - 0o10 }

/-- `fill_dest`. -/
def fillDest (s : Cpu) : Cpu := if s.brof = false then { memoryCycle 3 s with brof := true } else s

/-- `next_src`, `prev_src`. -/
def nextSrc (bit : Bool) (s : Cpu) : Cpu :=
  let gh := if bit = true then s.gh + 1 else s.gh ||| 7
  let gh := if gh &&& 0o7 > 5 then (gh &&& 0o70) + 0o10 else gh
  if gh > 0o75 then { s with arof := false, gh := 0, ma := nextAddr s.ma } else { s with gh := gh }
def prevSrc (bit : Bool) (s : Cpu) : Cpu :=
  if bit = true then
    let s : Cpu :=
      if s.gh &&& 0o7 = 0 then
        if s.gh = 0 then { s with arof := false, ma := prevAddr s.ma, gh := 0o76 }
        else { s with gh := (s.gh - 0o10) &&& 0o70 ||| 0o6 }
      else s
    { s with gh := s.gh - 1 }
  else
    let s := { s with gh := s.gh &&& 0o70 }
    if s.gh = 0 then { s with arof := false, ma := prevAddr s.ma, gh := 0o70 } else { s with gh := s.gh - 0o10 }

/-- `fill_src`. -/
def fillSrc (s : Cpu) : Cpu := if s.arof = false then { memoryCycle 4 s with arof := true } else s

/-! ### Characters -/

/-- The characters of the memory: eight in a word, the first one highest. -/
def string : Layout ℕ where
  place i := i / 8 % 2 ^ 15
  pos i := 6 * (7 - i % 8)
  size := 6

lemma string_apart {i j : ℕ} (h : i % 2 ^ 18 ≠ j % 2 ^ 18) : string.Apart i j := by
  intro hplace
  dsimp only [string] at hplace ⊢
  lia

lemma string_apart_near {i j : ℕ} (h : i ≠ j) (hi : i < j + 2 ^ 18) (hj : j < i + 2 ^ 18) : string.Apart i j :=
  string_apart (by omega)

/-- How far up the character of a pointer is. -/
lemma bitNumber_char {x : ℕ} (h : x < 64) : bitNumber (x ||| 0o7) = 6 * (7 - x / 8) := by
  have hall : ∀ x : Fin 64, bitNumber (x ||| 0o7) = 6 * (7 - x / 8) := by decide
  exact hall ⟨x, h⟩

namespace Cpu

variable (s : Cpu)

/-- The memory with the destination word that is in `B`, and for the source with the word that is in `A`. -/
def words : ℕ → ℕ := if s.brof = true then Function.update s.mem s.s s.b else s.mem
def sourceWords : ℕ → ℕ := if s.arof = true then Function.update s.words s.ma s.a else s.words

/-- The character that the destination pointer is at, or the next one; that of the source pointer. -/
def dest : ℕ := 8 * s.s + (s.kv + 7) / 8
def source : ℕ := 8 * s.ma + (s.gh + 7) / 8

end Cpu

variable {s t : Cpu} {w x : ℕ → ℕ} {d p c n : ℕ}

/-! ### The destination -/

/-- The destination word that `B` holds can be stored. -/
def Cpu.Held (s : Cpu) : Prop := s.brof = true → s.Passes s.s

lemma storeDest_eq (h : s.Held) : storeDest s = { s with mem := s.words, brof := false } := by
  rw [storeDest, Cpu.words]
  by_cases hb : s.brof = true
  · rw [if_pos hb, if_pos hb, cycle_storeB (h hb)]
  · rw [if_neg hb, if_neg hb]

lemma fillDest_eq (h : s.Passes s.s) : fillDest s = { s with b := s.words s.s, brof := true } := by
  rw [fillDest, Cpu.words]
  by_cases hb : s.brof = true
  · rw [if_neg (by rw [hb]; decide), if_pos hb, Function.update_self, ← hb]
  · rw [if_pos (Bool.eq_false_of_not_eq_true hb), if_neg hb, cycle_loadB h]

/-- The destination pointer is at the character `d`, and the memory has the words `w` with the one in `B`. -/
structure Dest (s : Cpu) (w : ℕ → ℕ) (d : ℕ) : Prop where
  addr : (s.s : ℕ) = d / 8 % 2 ^ 15
  kv : s.kv = 8 * (d % 8)
  words : s.words = w
  held : s.Held

/-- Only the destination moves. -/
def DestMoves (s t : Cpu) : Prop := ∃ mem b brof kv addr, t = { s with mem := mem, b := b, brof := brof, kv := kv, s := addr }

lemma words_of_ne {a : ℕ} (h : a ≠ s.s) : s.words a = s.mem a := by
  rw [Cpu.words]
  split_ifs
  · exact Function.update_of_ne h _ _
  · rfl

lemma DestMoves.refl (s : Cpu) : DestMoves s s := ⟨_, _, _, _, _, rfl⟩

lemma storeDest_moves (h : s.Held) (kv : ℕ) (addr : Addr) : DestMoves s { storeDest s with kv := kv, s := addr } := by
  rw [storeDest_eq h]
  exact ⟨_, _, _, _, _, rfl⟩

/-- The word is stored, and the pointer is at another one. -/
lemma Dest.store (h : Dest s w d) {kv : ℕ} {addr : Addr} {d' : ℕ} (haddr : (addr : ℕ) = d' / 8 % 2 ^ 15) (hkv : kv = 8 * (d' % 8)) :
    Dest { storeDest s with kv := kv, s := addr } w d' where
  addr := haddr
  kv := hkv
  words := by
    rw [storeDest_eq h.held]
    exact h.words
  held := by
    rw [storeDest_eq h.held]
    exact fun hb ↦ absurd hb Bool.false_ne_true

lemma Dest.move (h : Dest s w d) {kv d' : ℕ} (haddr : d / 8 = d' / 8) (hkv : kv = 8 * (d' % 8)) : Dest { s with kv := kv } w d' :=
  ⟨haddr ▸ h.addr, hkv, h.words, h.held⟩

/-- The parts of a pointer to a character. -/
lemma pointer_parts {k : ℕ} (h : k < 64) : k &&& 0o7 = k % 8 ∧ k &&& 0o70 = 8 * (k / 8) ∧ k ||| 7 = 8 * (k / 8) + 7 := by
  have hall : ∀ k : Fin 64, (k : ℕ) &&& 0o7 = k % 8 ∧ (k : ℕ) &&& 0o70 = 8 * (k / 8) ∧ (k : ℕ) ||| 7 = 8 * (k / 8) + 7 := by
    decide
  exact hall ⟨k, h⟩

/-- **The next character** of the destination. -/
theorem Dest.next (h : Dest s w d) : Dest (nextDest false s) w (d + 1) ∧ DestMoves s (nextDest false s) := by
  have hkv := h.kv
  obtain ⟨-, -, hor⟩ := pointer_parts (show s.kv < 64 by omega)
  have hseven : 8 * (s.kv / 8) + 7 &&& 0o7 > 5 ∧ (8 * (s.kv / 8) + 7 &&& 0o70) + 0o10 = 8 * (d % 8 + 1) := by
    obtain ⟨hlow, hhigh, -⟩ := pointer_parts (show 8 * (s.kv / 8) + 7 < 64 by omega)
    lia
  rw [nextDest]
  simp only [Bool.false_eq_true, if_false, hor]
  rw [if_pos hseven.1, hseven.2]
  by_cases hlast : d % 8 = 7
  · rw [if_pos (by lia)]
    refine ⟨h.store ?_ (by lia), storeDest_moves h.held _ _⟩
    rw [nextAddr_val, h.addr]
    lia
  · rw [if_neg (by lia)]
    exact ⟨h.move (by lia) (by lia), _, _, _, _, _, rfl⟩

/-- **The character before** the destination. -/
theorem Dest.prev (h : Dest s w (d + 1)) : Dest (prevDest false s) w d ∧ DestMoves s (prevDest false s) := by
  have hkv := h.kv
  obtain ⟨-, hhigh, -⟩ := pointer_parts (show s.kv < 64 by omega)
  have hsame : s.kv &&& 0o70 = s.kv := by omega
  rw [prevDest, if_neg Bool.false_ne_true]
  dsimp only
  rw [hsame]
  by_cases hfirst : s.kv = 0
  · rw [if_pos hfirst]
    refine ⟨h.store ?_ (by lia), storeDest_moves h.held _ _⟩
    rw [prevAddr_val, h.addr]
    lia
  · rw [if_neg hfirst]
    exact ⟨h.move (by lia) (by lia), _, _, _, _, _, rfl⟩

/-- The destination word is in `B`. -/
lemma Dest.fill (h : Dest s w d) (hpass : s.Passes (string.place d)) :
    Dest (fillDest s) w d ∧ (fillDest s).brof = true ∧ (fillDest s).b = w (string.place d) ∧ DestMoves s (fillDest s) := by
  have haddr : string.place d = s.s := h.addr.symm
  rw [haddr] at hpass
  rw [fillDest_eq hpass, haddr, ← h.words]
  refine ⟨⟨h.addr, h.kv, ?_, fun _ ↦ hpass⟩, rfl, rfl, _, _, _, _, _, rfl⟩
  rw [Cpu.words, if_pos rfl]
  dsimp only
  rw [Cpu.words]
  split_ifs
  · rw [Function.update_self]
  · rw [Function.update_eq_self]

/-- A character is put into `B`. -/
lemma Dest.put (h : Dest s w d) (hb : s.brof = true) (c : ℕ) :
    Dest { s with b := deposit (string.pos d) 6 c s.b } (string.put d c w) d := by
  have hplace : string.place d = s.s := h.addr.symm
  have hword : w s.s = s.b := by rw [← h.words, Cpu.words, if_pos hb, Function.update_self]
  refine ⟨h.addr, h.kv, ?_, h.held⟩
  rw [Layout.put, hplace, hword, ← h.words, Cpu.words, if_pos hb, Cpu.words, if_pos hb, Function.update_idem]
  rfl

/-! ### The source -/

/-- The source pointer is at the character `p`. -/
structure SourceAt (s : Cpu) (p : ℕ) : Prop where
  addr : (s.ma : ℕ) = p / 8 % 2 ^ 15
  gh : s.gh = 8 * (p % 8)

/-- And the `n` characters from there on are those of `x`. -/
structure Source (s : Cpu) (x : ℕ → ℕ) (p n : ℕ) : Prop extends SourceAt s p where
  chars : ∀ i < n, string.get (p + i) s.sourceWords = x i

lemma Source.head (h : Source s x p (n + 1)) : string.get p s.sourceWords = x 0 := h.chars 0 n.succ_pos

/-- Only the source moves. -/
def SourceMoves (s t : Cpu) : Prop := ∃ a arof gh ma, t = { s with a := a, arof := arof, gh := gh, ma := ma }

lemma Dest.of_source (h : Dest s w d) (hmoves : SourceMoves s t) : Dest t w d := by
  obtain ⟨a, arof, gh, ma, rfl⟩ := hmoves
  exact ⟨h.addr, h.kv, h.words, h.held⟩

/-- A character of the source is as it was when the destination moves and its word is as it was. -/
lemma DestMoves.get_source {i : ℕ} (h : DestMoves s t) (hwords : t.words (string.place i) = s.words (string.place i)) :
    string.get i t.sourceWords = string.get i s.sourceWords := by
  obtain ⟨mem, b, brof, kv, addr, rfl⟩ := h
  rw [Layout.get, Layout.get]
  congr 1
  rw [Cpu.sourceWords, Cpu.sourceWords]
  dsimp only
  split_ifs
  · rw [Function.update_apply, Function.update_apply, hwords]
  · exact hwords

lemma Source.of_dest (h : Source s x p n) (hmoves : DestMoves s t)
    (hwords : ∀ i < n, t.words (string.place (p + i)) = s.words (string.place (p + i))) : Source t x p n := by
  refine ⟨?_, fun i hi ↦ (hmoves.get_source (hwords i hi)).trans (h.chars i hi)⟩
  obtain ⟨mem, b, brof, kv, addr, rfl⟩ := hmoves
  exact ⟨h.addr, h.gh⟩

lemma fillSrc_eq (h : s.Passes s.ma) (hmem : s.words s.ma = s.mem s.ma) :
    fillSrc s = { s with a := s.sourceWords s.ma, arof := true } := by
  rw [fillSrc, Cpu.sourceWords]
  by_cases ha : s.arof = true
  · rw [if_neg (by rw [ha]; decide), if_pos ha, Function.update_self, ← ha]
  · rw [if_pos (Bool.eq_false_of_not_eq_true ha), if_neg ha, cycle_passed (e := 4) h, hmem]
    rfl

/-- The source word is in `A`. -/
lemma Source.fill (h : Source s x p n) (hpass : s.Passes (string.place p))
    (hmem : s.words (string.place p) = s.mem (string.place p)) :
    Source (fillSrc s) x p n ∧ (fillSrc s).a = s.sourceWords (string.place p) ∧ SourceMoves s (fillSrc s) := by
  have haddr : string.place p = s.ma := h.addr.symm
  rw [haddr] at hpass hmem
  rw [fillSrc_eq hpass hmem, haddr]
  refine ⟨⟨⟨h.addr, h.gh⟩, fun i hi ↦ ?_⟩, rfl, _, _, _, _, rfl⟩
  rw [← h.chars i hi]
  congr 1
  rw [Cpu.sourceWords, if_pos rfl]
  show Function.update s.words s.ma (s.sourceWords s.ma) = s.sourceWords
  rw [Cpu.sourceWords]
  split_ifs
  · rw [Function.update_self]
  · rw [Function.update_eq_self]

/-- The other words are as they were when the word in `A` is left. -/
lemma get_left {i gh : ℕ} {addr : Addr} (h : string.place i ≠ s.ma) :
    string.get i ({ s with arof := false, gh := gh, ma := addr } : Cpu).sourceWords = string.get i s.sourceWords := by
  rw [Layout.get, Layout.get]
  congr 1
  rw [Cpu.sourceWords, if_neg Bool.false_ne_true, Cpu.sourceWords]
  split_ifs
  · rw [Function.update_of_ne h]
    rfl
  · rfl

lemma SourceAt.next_eq (h : SourceAt s p) : nextSrc false s =
    if p % 8 = 7 then { s with arof := false, gh := 0, ma := nextAddr s.ma } else { s with gh := 8 * (p % 8 + 1) } := by
  have hgh := h.gh
  obtain ⟨-, -, hor⟩ := pointer_parts (show s.gh < 64 by omega)
  have hseven : 8 * (s.gh / 8) + 7 &&& 0o7 > 5 ∧ (8 * (s.gh / 8) + 7 &&& 0o70) + 0o10 = 8 * (p % 8 + 1) := by
    obtain ⟨hlow, hhigh, -⟩ := pointer_parts (show 8 * (s.gh / 8) + 7 < 64 by omega)
    lia
  rw [nextSrc]
  simp only [Bool.false_eq_true, if_false, hor]
  rw [if_pos hseven.1, hseven.2]
  exact if_congr (by lia) rfl rfl

lemma SourceAt.next (h : SourceAt s p) : SourceAt (nextSrc false s) (p + 1) ∧ SourceMoves s (nextSrc false s) := by
  rw [h.next_eq]
  split_ifs with hlast
  · refine ⟨⟨?_, by dsimp only; omega⟩, _, _, _, _, rfl⟩
    dsimp only
    rw [nextAddr_val, h.addr]
    lia
  · refine ⟨⟨?_, by dsimp only; lia⟩, _, _, _, _, rfl⟩
    dsimp only
    rw [h.addr]
    lia

/-- **The next character** of the source. -/
theorem Source.next (h : Source s x p (n + 1)) (hn : n ≤ 2 ^ 18 - 8) :
    Source (nextSrc false s) (fun i ↦ x (i + 1)) (p + 1) n ∧ SourceMoves s (nextSrc false s) := by
  obtain ⟨hat, hmoves⟩ := h.toSourceAt.next
  refine ⟨⟨hat, fun i hi ↦ ?_⟩, hmoves⟩
  rw [← h.chars (i + 1) (by omega), show p + 1 + i = p + (i + 1) by omega, h.next_eq]
  split_ifs with hlast
  · -- the other words are as they were
    have hne : string.place (p + (i + 1)) ≠ s.ma := by
      rw [h.addr]
      dsimp only [string]
      omega
    exact get_left hne
  · rfl

/-- **The character before** the source. -/
theorem SourceAt.prev (h : SourceAt s (p + 1)) : SourceAt (prevSrc false s) p ∧ SourceMoves s (prevSrc false s) := by
  have hgh := h.gh
  obtain ⟨-, hhigh, -⟩ := pointer_parts (show s.gh < 64 by omega)
  have hsame : s.gh &&& 0o70 = s.gh := by omega
  rw [prevSrc, if_neg Bool.false_ne_true]
  dsimp only
  rw [hsame]
  by_cases hfirst : s.gh = 0
  · rw [if_pos hfirst]
    refine ⟨⟨?_, by dsimp only; lia⟩, _, _, _, _, rfl⟩
    dsimp only
    rw [prevAddr_val, h.addr]
    lia
  · rw [if_neg hfirst]
    refine ⟨⟨?_, by dsimp only; lia⟩, _, _, _, _, rfl⟩
    dsimp only
    rw [h.addr]
    lia

/-! ### To a character -/

/-- **The source pointer is moved to a character.** -/
theorem adjustSource_source (hgh : s.gh < 64) (hn : n ≤ 2 ^ 18 - 8) :
    Source (adjustSource s) (fun i ↦ string.get (s.source + i) s.sourceWords) s.source n ∧ SourceMoves s (adjustSource s) := by
  obtain ⟨hlow, hhigh, -⟩ := pointer_parts hgh
  have hma := s.ma.isLt
  rw [adjustSource, hlow, hhigh]
  by_cases hin : s.gh % 8 ≠ 0
  · rw [if_pos hin]
    dsimp only
    by_cases hlast : 8 * (s.gh / 8) + 0o10 > 0o77
    · rw [if_pos hlast]
      have hsource : s.source = 8 * (s.ma + 1) := by
        rw [Cpu.source]
        lia
      refine ⟨⟨⟨?_, ?_⟩, fun i hi ↦ ?_⟩, _, _, _, _, rfl⟩
      · dsimp only
        rw [nextAddr_val, hsource]
        lia
      · dsimp only
        lia
      · have hne : string.place (s.source + i) ≠ s.ma := by
          rw [hsource]
          dsimp only [string]
          lia
        exact get_left hne
    · rw [if_neg hlast]
      have hsource : s.source = 8 * s.ma + (s.gh / 8 + 1) := by
        rw [Cpu.source]
        lia
      refine ⟨⟨⟨?_, ?_⟩, fun i _ ↦ rfl⟩, _, _, _, _, rfl⟩ <;> (dsimp only; lia)
  · rw [if_neg hin]
    have hsource : s.source = 8 * s.ma + s.gh / 8 := by
      rw [Cpu.source]
      lia
    exact ⟨⟨⟨by lia, by lia⟩, fun i _ ↦ rfl⟩, _, _, _, _, rfl⟩

/-- **The destination pointer is moved to a character.** -/
theorem adjustDest_dest (hkv : s.kv < 64) (hheld : s.Held) :
    Dest (adjustDest s) s.words s.dest ∧ DestMoves s (adjustDest s) := by
  obtain ⟨hlow, hhigh, -⟩ := pointer_parts hkv
  have hs := s.s.isLt
  rw [adjustDest, hlow, hhigh]
  by_cases hin : s.kv % 8 ≠ 0
  · rw [if_pos hin]
    dsimp only
    by_cases hlast : 8 * (s.kv / 8) + 0o10 > 0o75
    · rw [if_pos hlast]
      have hdest : s.dest = 8 * (s.s + 1) := by
        rw [Cpu.dest]
        lia
      have hstore : storeDest { s with kv := 8 * (s.kv / 8) + 0o10 } =
          { s with mem := s.words, brof := false, kv := 8 * (s.kv / 8) + 0o10 } := @storeDest_eq { s with kv := _ } hheld
      rw [hstore]
      refine ⟨⟨?_, ?_, rfl, fun hb ↦ absurd hb Bool.false_ne_true⟩, _, _, _, _, _, rfl⟩
      · dsimp only
        rw [nextAddr_val, hdest]
        lia
      · dsimp only
        lia
    · rw [if_neg hlast]
      have hdest : s.dest = 8 * s.s + (s.kv / 8 + 1) := by
        rw [Cpu.dest]
        lia
      refine ⟨⟨?_, ?_, rfl, hheld⟩, _, _, _, _, _, rfl⟩ <;> (dsimp only; lia)
  · rw [if_neg hin]
    have hdest : s.dest = 8 * s.s + s.kv / 8 := by
      rw [Cpu.dest]
      lia
    exact ⟨⟨by lia, by lia, rfl, hheld⟩, DestMoves.refl s⟩

/-! ### Both -/

/-- Only the pointers, their words and the true state change. -/
def Moves (s t : Cpu) : Prop :=
  ∃ a b arof brof gh kv ma addr msff mem,
    t = { s with a := a, b := b, arof := arof, brof := brof, gh := gh, kv := kv, ma := ma, s := addr, msff := msff, mem := mem }

lemma DestMoves.moves (h : DestMoves s t) : Moves s t := by
  obtain ⟨mem, b, brof, kv, addr, rfl⟩ := h
  exact ⟨_, _, _, _, _, _, _, _, _, _, rfl⟩

lemma SourceMoves.moves (h : SourceMoves s t) : Moves s t := by
  obtain ⟨a, arof, gh, ma, rfl⟩ := h
  exact ⟨_, _, _, _, _, _, _, _, _, _, rfl⟩

lemma Moves.refl (s : Cpu) : Moves s s := ⟨_, _, _, _, _, _, _, _, _, _, rfl⟩

lemma Moves.trans {u : Cpu} (h : Moves s t) (h' : Moves t u) : Moves s u := by
  obtain ⟨a, b, arof, brof, gh, kv, ma, addr, msff, mem, rfl⟩ := h
  obtain ⟨a, b, arof, brof, gh, kv, ma, addr, msff, mem, rfl⟩ := h'
  exact ⟨_, _, _, _, _, _, _, _, _, _, rfl⟩

lemma Moves.passes (h : Moves s t) (a : ℕ) : t.Passes a ↔ s.Passes a := by
  obtain ⟨a, b, arof, brof, gh, kv, ma, addr, msff, mem, rfl⟩ := h
  exact Iff.rfl

/-- The characters from `d` on are those of `v`, and every other bit of the memory is as it was. -/
structure Written (w w' : ℕ → ℕ) (d n : ℕ) (v : ℕ → ℕ) : Prop where
  chars : ∀ i < n, string.get (d + i) w' = v i
  others : ∀ a k, (∀ i < n, a = string.place (d + i) → k < string.pos (d + i) ∨ string.pos (d + i) + 6 ≤ k) →
    (w' a).testBit k = (w a).testBit k

/-- Characters that are put one after the other. -/
lemma written_puts {v : ℕ → ℕ} (hn : n ≤ 2 ^ 18) (hv : ∀ i < n, v i < 64) :
    Written w (string.puts d ((List.range n).map v) w) d n v where
  chars i hi := by
    have hput := @Layout.extract_puts ℕ _ string d i ((List.range n).map v) (by simpa using hi) (fun a b ha hab hb ↦ by
      rw [List.length_map, List.length_range] at hb
      exact string_apart_near (by omega) (by omega) (by omega)) w
    rw [hput, List.getElem_map, List.getElem_range]
    exact Nat.mod_eq_of_lt (hv i hi)
  others a k hbeside := by
    refine Layout.testBit_puts (fun j hdj hj ha ↦ ?_) w
    rw [List.length_map, List.length_range] at hj
    have hi := hbeside (j - d) (by omega)
    rw [Nat.add_sub_cancel' hdj] at hi
    exact hi ha

/-- The first of the characters is put, and then the others. -/
lemma puts_range (d n : ℕ) (v : ℕ → ℕ) (w : ℕ → ℕ) : string.puts d ((List.range (n + 1)).map v) w =
    string.puts (d + 1) ((List.range n).map fun i ↦ v (i + 1)) (string.put d (v 0) w) := by
  rw [List.range_succ_eq_map, List.map_cons, List.map_map]
  rfl

end Ka10Simh.B5500
