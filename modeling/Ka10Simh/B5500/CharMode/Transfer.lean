import Ka10Simh.B5500.CharMode.Pointer

/-!
The transfers of characters, and the skips.

* `transfer`, `transferLoop_spec`: characters of the source, their numeric parts or their zones.
* `transferProgram`, `programLoop_spec`: characters of the program.
* `skip`: pointers that move by characters.
-/

namespace Ka10Simh.B5500

open Word Fields

/-! ### The source -/

/-- `TRN`, `TRZ`, `TRS`. -/
inductive TransferOp
  | trn | trz | trs
  deriving DecidableEq

namespace TransferOp

/-- The bits that are taken from the source, and those that are cleared in the destination. -/
def taken : TransferOp → ℕ
  | trs => 0o77
  | trn => 0o17
  | trz => 0o60
def cleared : TransferOp → ℕ
  | trs => 0o77
  | trn => 0o77
  | trz => 0o60

end TransferOp

/-- A character is put into `B`, with the bits of `mask` cleared. -/
def putChar (mask i : ℕ) (s : Cpu) : Cpu :=
  { s with b := bic s.b (mask <<< bitNumber (s.kv ||| 0o7)) ||| i <<< bitNumber (s.kv ||| 0o7) }

/-- One character of `TRN`, `TRZ` and `TRS`. -/
def transferChar (op : TransferOp) (field : ℕ) (s : Cpu) : Cpu :=
  let s := fillSrc (fillDest s)
  let i := s.a >>> bitNumber (s.gh ||| 0o7)
  let s : Cpu := if op = .trn ∧ field = 1 then { s with msff := decide (i &&& 0o60 = 0o40) } else s
  nextDest false (nextSrc false (putChar op.cleared (i &&& op.taken) s))

def transferLoop (op : TransferOp) : ℕ → Cpu → Cpu
  | 0, s => s
  | field + 1, s => transferLoop op field (transferChar op (field + 1) s)

def transfer (op : TransferOp) (field : ℕ) (s : Cpu) : Cpu := transferLoop op field (adjustDest (adjustSource s))

/-- One character of `TRP`. -/
def programChar (field : ℕ) (s : Cpu) : Cpu :=
  let s := fillDest s
  let s := if s.trof = false then nextProg s else s
  let (i, s) : ℕ × Cpu := if field &&& 1 ≠ 0 then (s.t &&& 0o77, { s with trof := false }) else (s.t >>> 6 &&& 0o77, s)
  nextDest false (putChar 0o77 i s)

def programLoop : ℕ → Cpu → Cpu
  | 0, s => { s with trof := false }
  | field + 1, s => programLoop field (programChar (field + 1) s)

/-- `TRP`, after the syllable with it was taken. -/
def transferProgram (field : ℕ) (s : Cpu) : Cpu := programLoop field (adjustDest { s with trof := false })

/-- `SFS`, `SRS`, `SFD`, `SRD`. -/
inductive SkipOp
  | sfs | srs | sfd | srd

def SkipOp.adjust : SkipOp → Cpu → Cpu
  | sfs => adjustSource
  | srs => adjustSource
  | sfd => adjustDest
  | srd => adjustDest

def SkipOp.move : SkipOp → Cpu → Cpu
  | sfs => nextSrc false
  | srs => prevSrc false
  | sfd => nextDest false
  | srd => prevDest false

def skipLoop (op : SkipOp) : ℕ → Cpu → Cpu
  | 0, s => s
  | field + 1, s => skipLoop op field (op.move s)

def skip (op : SkipOp) (field : ℕ) (s : Cpu) : Cpu := skipLoop op field (op.adjust s)

/-! ### Characters -/

/-- What a transfer makes of a character of the source and one of the destination. -/
def TransferOp.char (op : TransferOp) (new old : ℕ) : ℕ :=
  match op with
  | trs => new
  | trn => new % 16
  | trz => 16 * (new / 16) + old % 16

lemma TransferOp.char_lt (op : TransferOp) {new old : ℕ} (h : new < 64) : op.char new old < 64 := by
  cases op <;> (rw [char]; omega)

/-- The bits of a character. -/
lemma char_parts {c : ℕ} (h : c < 64) : c &&& 0o77 = c ∧ bic c 0o77 = 0 ∧ c &&& 0o17 = c % 16 ∧ c &&& 0o60 = 16 * (c / 16) ∧
    bic c 0o60 = c % 16 := by
  have hall : ∀ c : Fin 64, (c : ℕ) &&& 0o77 = c ∧ bic c 0o77 = 0 ∧ (c : ℕ) &&& 0o17 = c % 16 ∧
      (c : ℕ) &&& 0o60 = 16 * (c / 16) ∧ bic c 0o60 = c % 16 := by decide
  exact hall ⟨c, h⟩

lemma TransferOp.char_eq (op : TransferOp) {new old : ℕ} (hnew : new < 64) (hold : old < 64) :
    bic old op.cleared ||| (new &&& op.taken) = op.char new old := by
  obtain ⟨hsame, -, hlow, hzone, -⟩ := char_parts hnew
  obtain ⟨-, hnone, -, -, hrest⟩ := char_parts hold
  cases op with
  | trs => rw [cleared, taken, char, hsame, hnone, Nat.zero_or]
  | trn => rw [cleared, taken, char, hlow, hnone, Nat.zero_or]
  | trz =>
      rw [cleared, taken, char, hzone, hrest, Nat.lor_comm]
      exact or_eq_add (i := 4) (Dvd.intro _ rfl) (Nat.mod_lt _ (by norm_num))

/-- Some bits of a character are put. -/
lemma bic_or_eq {k b m c : ℕ} (hm : m < 64) (hc : c < 64) :
    bic b (m <<< k) ||| c <<< k = deposit k 6 (bic (extract k 6 b) m ||| c) b := by
  have hhigh {n j : ℕ} (hn : n < 64) (hj : 6 ≤ j) : n.testBit j = false :=
    Nat.testBit_lt_two_pow (hn.trans_le (Nat.pow_le_pow_right (by norm_num) hj : 2 ^ 6 ≤ 2 ^ j))
  refine Nat.eq_of_testBit_eq fun j ↦ ?_
  rw [testBit_deposit, Nat.testBit_or, testBit_bic, Nat.testBit_shiftLeft, Nat.testBit_shiftLeft]
  by_cases hin : k ≤ j ∧ j < k + 6
  · rw [if_pos hin, Nat.testBit_or, testBit_bic, testBit_extract, Nat.add_sub_cancel' hin.1]
    simp [hin.1, show j - k < 6 by omega]
  · rw [if_neg hin]
    by_cases hj : j < k
    · simp [show ¬ k ≤ j by omega]
    · rw [hhigh hm (by omega), hhigh hc (by omega)]
      simp

lemma get_lt (i : ℕ) (w : ℕ → ℕ) : string.get i w < 64 :=
  Nat.and_lt_two_pow (n := 6) _ (by decide : 2 ^ 6 - 1 < 2 ^ 6)

variable {s t : Cpu} {w x : ℕ → ℕ} {d p n m c : ℕ} {op : TransferOp}

/-- A character is put at the destination. -/
lemma Dest.putChar (h : Dest s w d) (hb : s.brof = true) (hm : m < 64) (hc : c < 64) :
    Dest (putChar m c s) (string.put d (bic (string.get d w) m ||| c) w) d ∧ DestMoves s (putChar m c s) := by
  have hkv := h.kv
  have hbit : bitNumber (s.kv ||| 0o7) = string.pos d := by
    rw [bitNumber_char (by omega)]
    dsimp only [string]
    lia
  have hword : w (string.place d) = s.b := by
    rw [← h.words, show string.place d = s.s from h.addr.symm, Cpu.words, if_pos hb, Function.update_self]
  rw [B5500.putChar, hbit, bic_or_eq hm hc, Layout.get, hword]
  exact ⟨h.put hb _, _, _, _, _, _, rfl⟩

/-- The other characters of the source are as they were. -/
lemma words_put_of_ne {i : ℕ} (h : Dest s w d) (ht : Dest t (string.put d c w) n) (hi : string.place i ≠ string.place d) :
    t.words (string.place i) = s.words (string.place i) := by
  rw [h.words, ht.words]
  exact Layout.put_of_ne hi w

/-- The words of the source, and those of the destination. -/
structure Clear (s : Cpu) (d p n : ℕ) : Prop where
  dest : ∀ i < n, s.Passes (string.place (d + i))
  source : ∀ i < n, s.Passes (string.place (p + i))
  apart : ∀ i < n, ∀ j < n, string.place (p + i) ≠ string.place (d + j)

lemma Clear.next (h : Clear s d p (n + 1)) (hmoves : Moves s t) : Clear t (d + 1) (p + 1) n where
  dest i hi := by
    rw [hmoves.passes, show d + 1 + i = d + (i + 1) by omega]
    exact h.dest _ (by omega)
  source i hi := by
    rw [hmoves.passes, show p + 1 + i = p + (i + 1) by omega]
    exact h.source _ (by omega)
  apart i hi j hj := by
    rw [show d + 1 + j = d + (j + 1) by omega, show p + 1 + i = p + (i + 1) by omega]
    exact h.apart _ (by omega) _ (by omega)

/-- **One character is transferred.** -/
theorem transferChar_spec (hd : Dest s w d) (hp : Source s x p (n + 1)) (hn : n ≤ 2 ^ 18 - 8) (hclear : Clear s d p (n + 1)) :
    Dest (transferChar op m s) (string.put d (op.char (x 0) (string.get d w)) w) (d + 1) ∧
      Source (transferChar op m s) (fun i ↦ x (i + 1)) (p + 1) n ∧ Moves s (transferChar op m s) := by
  have hapart (i : ℕ) (hi : i < n + 1) : string.place (p + i) ≠ string.place d := hclear.apart i hi 0 n.succ_pos
  rw [transferChar]
  -- both words are in their registers
  obtain ⟨hd₁, hb₁, -, hmoves₁⟩ := hd.fill (hclear.dest 0 n.succ_pos)
  have hp₁ := hp.of_dest hmoves₁ fun i _ ↦ by rw [hd₁.words, hd.words]
  have haddr₁ : string.place d = (fillDest s).s := hd₁.addr.symm
  obtain ⟨hp₂, ha₂, hmoves₂⟩ := hp₁.fill ((hmoves₁.moves.passes _).mpr (hclear.source 0 n.succ_pos))
    (words_of_ne (haddr₁ ▸ hapart 0 n.succ_pos))
  have hd₂ := hd₁.of_source hmoves₂
  have hb₂ : (fillSrc (fillDest s)).brof = true := by
    obtain ⟨a, arof, gh, ma, heq⟩ := hmoves₂
    rw [heq]
    exact hb₁
  have hmoves := hmoves₁.moves.trans hmoves₂.moves
  have hgh : bitNumber ((fillSrc (fillDest s)).gh ||| 0o7) = string.pos p := by
    have hgh := hp₂.gh
    rw [bitNumber_char (by lia)]
    dsimp only [string]
    lia
  have hchar : (fillSrc (fillDest s)).a >>> string.pos p &&& op.taken = x 0 &&& op.taken := by
    rw [← hp₁.head, Layout.get, ha₂, extract, Nat.and_assoc]
    cases op <;> rfl
  generalize fillSrc (fillDest s) = u at *
  rw [hgh, hchar]
  -- the true state
  generalize hv : (if op = .trn ∧ m = 1 then { u with msff := decide (u.a >>> string.pos p &&& 0o60 = 0o40) } else u) = v
  obtain ⟨hd₃, hp₃, hb₃, hmoves₃⟩ : Dest v w d ∧ Source v x p (n + 1) ∧ v.brof = true ∧ Moves u v := by
    rw [← hv]
    split_ifs
    · exact ⟨⟨hd₂.addr, hd₂.kv, hd₂.words, hd₂.held⟩, ⟨⟨hp₂.addr, hp₂.gh⟩, hp₂.chars⟩, hb₂, _, _, _, _, _, _, _, _, _, _, rfl⟩
    · exact ⟨hd₂, hp₂, hb₂, Moves.refl u⟩
  -- the character is put, and the pointers move
  have hx : x 0 < 64 := hp₁.head ▸ get_lt _ _
  have hsmall : x 0 &&& op.taken < 64 := Nat.and_le_left.trans_lt hx
  obtain ⟨hd₄, hmoves₄⟩ := hd₃.putChar hb₃ (m := op.cleared) (by cases op <;> decide) hsmall
  rw [op.char_eq hx (get_lt d w)] at hd₄
  have hp₄ := hp₃.of_dest hmoves₄ fun i hi ↦ words_put_of_ne hd₃ hd₄ (hapart i hi)
  obtain ⟨hp₅, hmoves₅⟩ := hp₄.next hn
  obtain ⟨hd₆, hmoves₆⟩ := (hd₄.of_source hmoves₅).next
  refine ⟨hd₆, hp₅.of_dest hmoves₆ fun i _ ↦ by rw [hd₆.words, (hd₄.of_source hmoves₅).words], ?_⟩
  exact hmoves.trans (hmoves₃.trans (hmoves₄.moves.trans (hmoves₅.moves.trans hmoves₆.moves)))

/-- **The loop** of a transfer. -/
theorem transferLoop_spec (hd : Dest s w d) (hp : Source s x p n) (hn : n ≤ 2 ^ 18 - 8) (hclear : Clear s d p n) :
    Dest (transferLoop op n s) (string.puts d ((List.range n).map fun i ↦ op.char (x i) (string.get (d + i) w)) w) (d + n) ∧
      SourceAt (transferLoop op n s) (p + n) ∧ Moves s (transferLoop op n s) := by
  induction n generalizing s w x d p with
  | zero => exact ⟨hd, hp.toSourceAt, Moves.refl s⟩
  | succ n ih =>
      obtain ⟨hd', hp', hmoves⟩ := @transferChar_spec s w x d p n (n + 1) op hd hp (by omega) hclear
      obtain ⟨hdest, hsource, hmoves'⟩ := ih hd' hp' (by omega) (hclear.next hmoves)
      rw [transferLoop, puts_range]
      have hold : ((List.range n).map fun i ↦
            op.char (x (i + 1)) (string.get (d + 1 + i) (string.put d (op.char (x 0) (string.get d w)) w))) =
          (List.range n).map fun i ↦ op.char (x (i + 1)) (string.get (d + (i + 1)) w) := by
        refine List.map_congr_left fun i hi ↦ ?_
        rw [List.mem_range] at hi
        rw [Layout.get_put_of_apart (string_apart_near (by omega) (by omega) (by omega)), show d + 1 + i = d + (i + 1) by omega]
      rw [hold, show d + 1 + n = d + (n + 1) by omega] at hdest
      rw [show p + 1 + n = p + (n + 1) by omega] at hsource
      exact ⟨hdest, hsource, hmoves.trans hmoves'⟩

/-! ### Characters of the program -/

/-- The characters of the program: two in a syllable, the first one higher. -/
def code : Layout ℕ where
  place i := i / 8
  pos i := 6 * (7 - i % 8)
  size := 6

/-- The memory with the program word that is in `P`. -/
def Cpu.programWords (s : Cpu) : ℕ → ℕ := if s.prof = true then Function.update s.words s.c s.p else s.words

variable {y : ℕ → ℕ} {q k : ℕ}

/-- The next `n` characters of the program are those of `y`, the first of them in `T` if there is one. -/
structure Program (s : Cpu) (y : ℕ → ℕ) (k n : ℕ) : Prop where
  parity : k % 2 = n % 2
  low : s.l < 4
  pointer : 4 * s.c + s.l = if s.trof = true then (k + 1) / 2 else k / 2
  held : s.trof = true → k % 2 = 1 ∧ s.t &&& 0o77 = y 0
  chars : ∀ i < n, (s.trof = true → 0 < i) → code.get (k + i) s.programWords = y i

/-- Only the place in the program moves. -/
def ProgramMoves (s t : Cpu) : Prop :=
  ∃ p prof trof syllable c l, t = { s with p := p, prof := prof, trof := trof, t := syllable, c := c, l := l }

lemma ProgramMoves.passes (h : ProgramMoves s t) (a : ℕ) : t.Passes a ↔ s.Passes a := by
  obtain ⟨p, prof, trof, syllable, c, l, rfl⟩ := h
  exact Iff.rfl

lemma Dest.of_program (h : Dest s w d) (hmoves : ProgramMoves s t) : Dest t w d := by
  obtain ⟨p, prof, trof, syllable, c, l, rfl⟩ := hmoves
  exact ⟨h.addr, h.kv, h.words, h.held⟩

lemma Program.of_dest (h : Program s y k n) (hmoves : DestMoves s t)
    (hwords : ∀ i < n, t.words (code.place (k + i)) = s.words (code.place (k + i))) : Program t y k n := by
  obtain ⟨mem, b, brof, kv, addr, rfl⟩ := hmoves
  refine ⟨h.parity, h.low, h.pointer, h.held, fun i hi hpos ↦ ?_⟩
  rw [← h.chars i hi hpos, Layout.get, Layout.get]
  congr 1
  rw [Cpu.programWords, Cpu.programWords]
  dsimp only
  split_ifs
  · rw [Function.update_apply, Function.update_apply, hwords i hi]
  · exact hwords i hi

/-- The two characters of a syllable. -/
lemma syllable_halves (v k : ℕ) : (v >>> k &&& 0o7777) >>> 6 &&& 0o77 = v >>> (k + 6) &&& 0o77 ∧
    (v >>> k &&& 0o7777) &&& 0o77 = v >>> k &&& 0o77 := by
  rw [Nat.shiftRight_and_distrib, Nat.and_assoc, ← Nat.shiftRight_add, Nat.and_assoc]
  exact ⟨rfl, rfl⟩

lemma nextProg_eq (hpass : s.Passes s.c) (hapart : s.c ≠ s.s) : nextProg s =
    let s' : Cpu := { s with
      p := s.programWords s.c, prof := true, t := s.programWords s.c >>> ((3 - s.l) * 12) &&& 0o7777, trof := true }
    if s.l = 3 then { s' with c := (s.c + 1) % 2 ^ 16, l := 0, prof := false } else { s' with l := s.l + 1 } := by
  have hfetch : (if s.prof = false then memoryCycle 0o20 s else s) = { s with p := s.programWords s.c, prof := true } := by
    rw [Cpu.programWords]
    by_cases hp : s.prof = true
    · rw [if_neg (by rw [hp]; decide), if_pos hp, Function.update_self, ← hp]
    · rw [if_pos (Bool.eq_false_of_not_eq_true hp), if_neg hp, cycle_passed (e := 0o20) hpass, words_of_ne hapart]
      rfl
  simp only [nextProg, hfetch]

/-- The program words are as they were behind the syllable that was taken. -/
lemma nextProg_words (hpass : s.Passes s.c) (hapart : s.c ≠ s.s) {a : ℕ} (ha : s.l = 3 → a ≠ s.c) :
    (nextProg s).programWords a = s.programWords a := by
  rw [nextProg_eq hpass hapart]
  dsimp only
  split_ifs with hlast
  · rw [Cpu.programWords, if_neg Bool.false_ne_true, Cpu.programWords]
    split_ifs
    · rw [Function.update_of_ne (ha hlast)]
      rfl
    · rfl
  · rw [Cpu.programWords, if_pos rfl]
    show Function.update s.words s.c (s.programWords s.c) a = s.programWords a
    by_cases hac : a = s.c
    · rw [hac, Function.update_self]
    · rw [Function.update_of_ne hac, Cpu.programWords]
      split_ifs
      · rw [Function.update_of_ne hac]
      · rfl

/-- **A syllable is in `T`**, with the next character in it. -/
theorem Program.fetch (h : Program s y k (n + 1)) (hpass : s.Passes (code.place k)) (hapart : code.place k ≠ s.s) :
    let t := if s.trof = false then nextProg s else s
    t.trof = true ∧ t.l < 4 ∧ 4 * t.c + t.l = k / 2 + 1 ∧ (if k % 2 = 1 then t.t &&& 0o77 else t.t >>> 6 &&& 0o77) = y 0 ∧
      (k % 2 = 0 → 0 < n → t.t &&& 0o77 = y 1) ∧
      (∀ i < n, (k % 2 = 0 → 0 < i) → code.get (k + (i + 1)) t.programWords = y (i + 1)) ∧ ProgramMoves s t := by
  have hpointer := h.pointer
  have hlow := h.low
  by_cases htrof : s.trof = true
  · obtain ⟨hodd, hheld⟩ := h.held htrof
    rw [if_pos htrof] at hpointer
    rw [if_neg (by rw [htrof]; decide)]
    refine ⟨htrof, hlow, by omega, by rwa [if_pos hodd], fun heven ↦ by omega, fun i hi _ ↦ ?_, _, _, _, _, _, _, rfl⟩
    exact h.chars (i + 1) (by omega) fun _ ↦ i.succ_pos
  · have hplace : code.place k = s.c := by
      rw [if_neg htrof] at hpointer
      dsimp only [code]
      omega
    rw [if_neg htrof] at hpointer
    rw [hplace] at hpass hapart
    rw [if_pos (Bool.eq_false_of_not_eq_true htrof)]
    have hchars (i : ℕ) (hi : i < n + 1) : code.get (k + i) s.programWords = y i := h.chars i hi fun ht ↦ absurd ht htrof
    have hsize := hpass.1
    have hmem := s.memsize_le
    -- the two characters of the syllable
    have hsyllable : (nextProg s).t = s.programWords s.c >>> ((3 - s.l) * 12) &&& 0o7777 := by
      rw [nextProg_eq hpass hapart]
      dsimp only
      split_ifs <;> rfl
    obtain ⟨hfirst, hsecond⟩ := syllable_halves (s.programWords s.c) ((3 - s.l) * 12)
    rw [← hsyllable] at hfirst hsecond
    have hodd (j : ℕ) (hj : j = 2 * (k / 2) + 1) : (nextProg s).t &&& 0o77 = code.get j s.programWords := by
      have hp : code.place j = s.c := by
        dsimp only [code]
        lia
      have hpos : code.pos j = (3 - s.l) * 12 := by
        dsimp only [code]
        lia
      rw [hsecond, Layout.get, hp, hpos]
      rfl
    have heven (j : ℕ) (hj : j = 2 * (k / 2)) : (nextProg s).t >>> 6 &&& 0o77 = code.get j s.programWords := by
      have hp : code.place j = s.c := by
        dsimp only [code]
        lia
      have hpos : code.pos j = (3 - s.l) * 12 + 6 := by
        dsimp only [code]
        lia
      rw [hfirst, Layout.get, hp, hpos]
      rfl
    have hnext : (nextProg s).trof = true ∧ (nextProg s).l < 4 ∧ 4 * (nextProg s).c + (nextProg s).l = k / 2 + 1 ∧
        ProgramMoves s (nextProg s) := by
      rw [nextProg_eq hpass hapart]
      dsimp only
      split_ifs with hlast
      · exact ⟨rfl, by norm_num, by dsimp only; lia, _, _, _, _, _, _, rfl⟩
      · exact ⟨rfl, by dsimp only; lia, by dsimp only; lia, _, _, _, _, _, _, rfl⟩
    refine ⟨hnext.1, hnext.2.1, hnext.2.2.1, ?_, fun hk hn ↦ ?_, fun i hi hpos ↦ ?_, hnext.2.2.2⟩
    · split_ifs with hk
      · rw [hodd k (by lia)]
        exact hchars 0 n.succ_pos
      · rw [heven k (by lia)]
        exact hchars 0 n.succ_pos
    · rw [hodd (k + 1) (by lia)]
      exact hchars 1 (by omega)
    · rw [← hchars (i + 1) (by lia), Layout.get, Layout.get, nextProg_words hpass hapart]
      intro hlast
      dsimp only [code]
      have hi : k % 2 = 0 → 0 < i := hpos
      lia

/-- The words of the program, and those of the destination. -/
structure ProgramClear (s : Cpu) (d k n : ℕ) : Prop where
  dest : ∀ i < n, s.Passes (string.place (d + i))
  program : ∀ i < n, s.Passes (code.place (k + i))
  apart : ∀ i < n, ∀ j < n, code.place (k + i) ≠ string.place (d + j)

lemma ProgramClear.next (h : ProgramClear s d k (n + 1)) (hpasses : ∀ a, t.Passes a ↔ s.Passes a) :
    ProgramClear t (d + 1) (k + 1) n where
  dest i hi := by
    rw [hpasses, show d + 1 + i = d + (i + 1) by omega]
    exact h.dest _ (by omega)
  program i hi := by
    rw [hpasses, show k + 1 + i = k + (i + 1) by omega]
    exact h.program _ (by omega)
  apart i hi j hj := by
    rw [show d + 1 + j = d + (j + 1) by omega, show k + 1 + i = k + (i + 1) by omega]
    exact h.apart _ (by omega) _ (by omega)

/-- **One character of the program is transferred.** -/
theorem programChar_spec (hd : Dest s w d) (hp : Program s y k (n + 1)) (hclear : ProgramClear s d k (n + 1)) :
    Dest (programChar (n + 1) s) (string.put d (y 0) w) (d + 1) ∧ Program (programChar (n + 1) s) (fun i ↦ y (i + 1)) (k + 1) n ∧
      y 0 < 64 ∧ ∀ a, (programChar (n + 1) s).Passes a ↔ s.Passes a := by
  have hapart (i : ℕ) (hi : i < n + 1) : code.place (k + i) ≠ string.place d := hclear.apart i hi 0 n.succ_pos
  have hparity := hp.parity
  rw [programChar]
  -- the destination word is in `B`, and the syllable in `T`
  obtain ⟨hd₁, hb₁, -, hmoves₁⟩ := hd.fill (hclear.dest 0 n.succ_pos)
  have hp₁ := hp.of_dest hmoves₁ fun i _ ↦ by rw [hd₁.words, hd.words]
  have haddr₁ : string.place d = (fillDest s).s := hd₁.addr.symm
  have hfetch := hp₁.fetch ((hmoves₁.moves.passes _).mpr (hclear.program 0 n.succ_pos)) (haddr₁ ▸ hapart 0 n.succ_pos)
  dsimp only at hfetch ⊢
  generalize (if (fillDest s).trof = false then nextProg (fillDest s) else fillDest s) = u at *
  obtain ⟨htrof, hlow, hpointer, hchar, hheld, hrest, hmoves₂⟩ := hfetch
  have hd₂ := hd₁.of_program hmoves₂
  have hb₂ : u.brof = true := by
    obtain ⟨p, prof, trof, syllable, c, l, rfl⟩ := hmoves₂
    exact hb₁
  have hodd : n + 1 &&& 1 ≠ 0 ↔ k % 2 = 1 := by
    rw [Nat.and_one_is_mod]
    lia
  -- the character, and what is left of the syllable
  obtain ⟨i, v, hpair, hi, hd₃, hb₃, hp₃, hpasses₃⟩ : ∃ i v, (if n + 1 &&& 1 ≠ 0 then (u.t &&& 0o77, { u with trof := false })
      else (u.t >>> 6 &&& 0o77, u)) = (i, v) ∧ i = y 0 ∧ Dest v w d ∧ v.brof = true ∧
        Program v (fun i ↦ y (i + 1)) (k + 1) n ∧ ∀ a, v.Passes a ↔ u.Passes a := by
    by_cases hk : k % 2 = 1
    · rw [if_pos (hodd.mpr hk)]
      rw [if_pos hk] at hchar
      refine ⟨_, _, rfl, hchar, ⟨hd₂.addr, hd₂.kv, hd₂.words, hd₂.held⟩, hb₂, ?_, fun _ ↦ Iff.rfl⟩
      refine ⟨by lia, hlow, ?_, fun ht ↦ absurd ht Bool.false_ne_true, fun i hi _ ↦ ?_⟩
      · rw [if_neg Bool.false_ne_true]
        dsimp only
        lia
      · rw [show k + 1 + i = k + (i + 1) by lia]
        exact hrest i hi fun heven ↦ by lia
    · rw [if_neg (mt hodd.mp hk)]
      rw [if_neg hk] at hchar
      refine ⟨_, _, rfl, hchar, hd₂, hb₂, ?_, fun _ ↦ Iff.rfl⟩
      refine ⟨by lia, hlow, ?_, fun _ ↦ ⟨by lia, hheld (by lia) (by lia)⟩, fun i hi hpos ↦ ?_⟩
      · rw [if_pos htrof]
        lia
      · rw [show k + 1 + i = k + (i + 1) by lia]
        exact hrest i hi fun _ ↦ hpos htrof
  rw [hpair]
  dsimp only
  have hy : y 0 < 64 := by
    rw [← hchar]
    split_ifs <;> exact Nat.and_lt_two_pow (n := 6) _ (by norm_num)
  subst hi
  -- it is put, and the pointer moves
  obtain ⟨hd₄, hmoves₄⟩ := hd₃.putChar hb₃ (show 0o77 < 64 by norm_num) hy
  rw [(char_parts (get_lt d w)).2.1, Nat.zero_or] at hd₄
  obtain ⟨hd₅, hmoves₅⟩ := hd₄.next
  refine ⟨hd₅, (hp₃.of_dest hmoves₄ fun i hi ↦ ?_).of_dest hmoves₅ fun i _ ↦ by rw [hd₅.words, hd₄.words], hy, fun a ↦ ?_⟩
  · rw [hd₄.words, hd₃.words, show k + 1 + i = k + (i + 1) by lia]
    exact Layout.put_of_ne (hapart (i + 1) (by omega)) w
  · rw [hmoves₅.moves.passes, hmoves₄.moves.passes, hpasses₃, hmoves₂.passes, hmoves₁.moves.passes]

/-- **The loop** of a transfer of program characters. -/
theorem programLoop_spec (hd : Dest s w d) (hp : Program s y k n) (hclear : ProgramClear s d k n) :
    Dest (programLoop n s) (string.puts d ((List.range n).map y) w) (d + n) ∧ (∀ i < n, y i < 64) ∧
      (programLoop n s).trof = false ∧ (programLoop n s).l < 4 ∧ 4 * (programLoop n s).c + (programLoop n s).l = (k + n) / 2 := by
  induction n generalizing s w y d k with
  | zero =>
      have hparity := hp.parity
      have htrof : ¬ s.trof = true := fun ht ↦ by
        have hodd := (hp.held ht).1
        omega
      have hpointer := hp.pointer
      rw [if_neg htrof] at hpointer
      exact ⟨⟨hd.addr, hd.kv, hd.words, hd.held⟩, fun i hi ↦ absurd hi i.not_lt_zero, rfl, hp.low, hpointer⟩
  | succ n ih =>
      obtain ⟨hd', hp', hy, hpasses⟩ := programChar_spec hd hp hclear
      obtain ⟨hdest, hall, htrof, hlow, hpointer⟩ := ih hd' hp' (hclear.next hpasses)
      rw [programLoop, puts_range]
      rw [show d + 1 + n = d + (n + 1) by omega] at hdest
      refine ⟨hdest, fun i hi ↦ ?_, htrof, hlow, by lia⟩
      cases i with
      | zero => exact hy
      | succ i => exact hall i (by omega)

/-! ### Skips -/

lemma SourceAt.cast {p' : ℕ} (h : SourceAt s p) (hp : p % 2 ^ 18 = p' % 2 ^ 18) : SourceAt s p' where
  addr := by
    rw [h.addr]
    lia
  gh := by
    rw [h.gh]
    lia

lemma Dest.cast {d' : ℕ} (h : Dest s w d) (hd : d % 2 ^ 18 = d' % 2 ^ 18) : Dest s w d' where
  addr := by
    rw [h.addr]
    lia
  kv := by
    rw [h.kv]
    lia
  words := h.words
  held := h.held

/-- Pointers that are at the same character. -/
lemma SourceAt.eq (h : SourceAt s p) (h' : SourceAt t p) : s.ma = t.ma ∧ s.gh = t.gh :=
  ⟨Fin.ext (h.addr.trans h'.addr.symm), h.gh.trans h'.gh.symm⟩

lemma Dest.eq {w' : ℕ → ℕ} (h : Dest s w d) (h' : Dest t w' d) : s.s = t.s ∧ s.kv = t.kv :=
  ⟨Fin.ext (h.addr.trans h'.addr.symm), h.kv.trans h'.kv.symm⟩

lemma skipLoop_sfs (h : SourceAt s p) : SourceAt (skipLoop .sfs n s) (p + n) := by
  induction n generalizing s p with
  | zero => exact h
  | succ n ih =>
      rw [skipLoop, show p + (n + 1) = p + 1 + n by omega]
      exact ih h.next.1

lemma skipLoop_srs (h : SourceAt s (p + n)) : SourceAt (skipLoop .srs n s) p := by
  induction n generalizing s with
  | zero => exact h
  | succ n ih =>
      rw [skipLoop]
      exact ih (@SourceAt.prev s (p + n) h).1

lemma skipLoop_sfd (h : Dest s w d) : Dest (skipLoop .sfd n s) w (d + n) := by
  induction n generalizing s d with
  | zero => exact h
  | succ n ih =>
      rw [skipLoop, show d + (n + 1) = d + 1 + n by omega]
      exact ih h.next.1

lemma skipLoop_srd (h : Dest s w (d + n)) : Dest (skipLoop .srd n s) w d := by
  induction n generalizing s with
  | zero => exact h
  | succ n ih =>
      rw [skipLoop]
      exact ih (@Dest.prev s w (d + n) h).1

/-- The pointers are at characters already. -/
lemma adjustSource_of_char (h : s.gh % 8 = 0) (hgh : s.gh < 64) : adjustSource s = s := by
  rw [adjustSource, (pointer_parts hgh).1, if_neg (not_not.mpr h)]

lemma adjustDest_of_char (h : s.kv % 8 = 0) (hkv : s.kv < 64) : adjustDest s = s := by
  rw [adjustDest, (pointer_parts hkv).1, if_neg (not_not.mpr h)]

/-- **Forward and back** is where the source pointer was. -/
theorem skip_source_back (h : s.gh % 8 = 0) (hgh : s.gh < 64) :
    (skip .srs n (skip .sfs n s)).ma = s.ma ∧ (skip .srs n (skip .sfs n s)).gh = s.gh := by
  have hs : SourceAt s s.source := by
    have hma := s.ma.isLt
    constructor <;> (rw [Cpu.source]; lia)
  have hforward := @skipLoop_sfs s s.source n hs
  have hgh' := hforward.gh
  rw [skip, skip, SkipOp.adjust, SkipOp.adjust, adjustSource_of_char h hgh, adjustSource_of_char (by omega) (by omega)]
  exact (skipLoop_srs hforward).eq hs

/-- And where the destination pointer was. -/
theorem skip_dest_back (h : s.kv % 8 = 0) (hkv : s.kv < 64) (hheld : s.Held) :
    (skip .srd n (skip .sfd n s)).s = s.s ∧ (skip .srd n (skip .sfd n s)).kv = s.kv := by
  have hs : Dest s s.words s.dest := by
    have haddr := s.s.isLt
    refine ⟨?_, ?_, rfl, hheld⟩ <;> (rw [Cpu.dest]; lia)
  have hforward := @skipLoop_sfd s s.words s.dest n hs
  have hkv' := hforward.kv
  rw [skip, skip, SkipOp.adjust, SkipOp.adjust, adjustDest_of_char h hkv, adjustDest_of_char (by omega) (by omega)]
  exact (skipLoop_srd hforward).eq hs

/-! ### The operators -/

/-- The next `n` characters of the program: the first one is the second one of its syllable when `n` is odd. -/
def Cpu.programFrom (s : Cpu) (n : ℕ) : ℕ := 2 * (4 * s.c + s.l) + n % 2

/-- **The transfers**: the characters of the source, their numeric parts, their zones, or the next characters of the program
come to the destination, no other bit of the memory changes, and the pointers move by as many characters; so they do in the skips,
and forward and back is the identity. -/
theorem transfers_spec (s : Cpu) (n : ℕ) (hgh : s.gh < 64) (hkv : s.kv < 64) (hl : s.l < 4) (hheld : s.Held) (hn : n < 64) :
    (∀ op, Clear s s.dest s.source n → ∃ w, Dest (transfer op n s) w (s.dest + n) ∧ SourceAt (transfer op n s) (s.source + n) ∧
      Written s.words w s.dest n fun i ↦
        op.char (string.get (s.source + i) s.sourceWords) (string.get (s.dest + i) s.words)) ∧
    (ProgramClear s s.dest (s.programFrom n) n → ∃ w, Dest (transferProgram n s) w (s.dest + n) ∧
      4 * (transferProgram n s).c + (transferProgram n s).l = 4 * s.c + s.l + (n + 1) / 2 ∧ (transferProgram n s).l < 4 ∧
      Written s.words w s.dest n fun i ↦ code.get (s.programFrom n + i) s.programWords) ∧
    (SourceAt (skip .sfs n s) (s.source + n) ∧ SourceAt (skip .srs n s) (s.source + 2 ^ 18 - n) ∧
      Dest (skip .sfd n s) s.words (s.dest + n) ∧ Dest (skip .srd n s) s.words (s.dest + 2 ^ 18 - n)) ∧
    (s.gh % 8 = 0 → (skip .srs n (skip .sfs n s)).ma = s.ma ∧ (skip .srs n (skip .sfs n s)).gh = s.gh) ∧
    (s.kv % 8 = 0 → (skip .srd n (skip .sfd n s)).s = s.s ∧ (skip .srd n (skip .sfd n s)).kv = s.kv) := by
  have hsource := @adjustSource_source s n hgh (by omega)
  have hdest := adjustDest_dest hkv hheld
  refine ⟨fun op hclear ↦ ?_, fun hclear ↦ ?_, ⟨?_, ?_, ?_, ?_⟩, fun h ↦ skip_source_back h hgh,
    fun h ↦ skip_dest_back h hkv hheld⟩
  · obtain ⟨hp, hmoves⟩ := hsource
    obtain ⟨hd, hmoves'⟩ : Dest (adjustDest (adjustSource s)) s.words s.dest ∧
        DestMoves (adjustSource s) (adjustDest (adjustSource s)) := by
      obtain ⟨a, arof, gh, ma, heq⟩ := hmoves
      rw [heq]
      exact @adjustDest_dest { s with a := a, arof := arof, gh := gh, ma := ma } hkv hheld
    have hwords : (adjustSource s).words = s.words := by
      obtain ⟨a, arof, gh, ma, heq⟩ := hmoves
      rw [heq]
      rfl
    have hp' := hp.of_dest hmoves' fun i _ ↦ by rw [hd.words, hwords]
    have hpasses := (hmoves.moves.trans hmoves'.moves).passes
    obtain ⟨hend, hat, -⟩ := @transferLoop_spec _ _ _ _ _ n op hd hp' (by omega)
      ⟨fun i hi ↦ (hpasses _).mpr (hclear.dest i hi), fun i hi ↦ (hpasses _).mpr (hclear.source i hi), hclear.apart⟩
    exact ⟨_, hend, hat, written_puts (by omega) fun i _ ↦ op.char_lt (get_lt _ _)⟩
  · obtain ⟨hd, hmoves⟩ := @adjustDest_dest { s with trof := false } hkv hheld
    have hp : Program { s with trof := false } (fun i ↦ code.get (s.programFrom n + i) s.programWords) (s.programFrom n) n := by
      refine ⟨by rw [Cpu.programFrom]; omega, hl, ?_, fun ht ↦ absurd ht Bool.false_ne_true, fun i _ _ ↦ rfl⟩
      rw [if_neg Bool.false_ne_true, Cpu.programFrom]
      dsimp only
      omega
    have hp' := hp.of_dest hmoves fun i _ ↦ by rw [hd.words]
    have hpasses := hmoves.moves.passes
    obtain ⟨hend, hy, -, hlow, hpointer⟩ := programLoop_spec hd hp'
      ⟨fun i hi ↦ (hpasses _).mpr (hclear.dest i hi), fun i hi ↦ (hpasses _).mpr (hclear.program i hi), hclear.apart⟩
    refine ⟨_, hend, ?_, hlow, written_puts (by omega) hy⟩
    rw [transferProgram, hpointer, Cpu.programFrom]
    omega
  · exact skipLoop_sfs hsource.1.toSourceAt
  · exact skipLoop_srs (hsource.1.toSourceAt.cast (by omega))
  · exact skipLoop_sfd hdest.1
  · exact skipLoop_srd (hdest.1.cast (by omega))

/-- A source at the last character of one word, and a destination in another. -/
def crossing : Cpu :=
  { fullStack with
    arof := false, brof := false, ncsf := false, gh := 0o70, kv := 0o10, ma := toAddr 0o2000, s := toAddr 0o3000
    mem := fun addr ↦ if addr = 0o2000 then 0o21 else if addr = 0o2001 then 0o2223000000000000 else 0 }

theorem transfers_spec_three : ∃ w, Dest (transfer .trs 3 crossing) w (crossing.dest + 3) ∧
    SourceAt (transfer .trs 3 crossing) (crossing.source + 3) ∧ Written crossing.words w crossing.dest 3 fun i ↦
      TransferOp.trs.char (string.get (crossing.source + i) crossing.sourceWords) (string.get (crossing.dest + i) crossing.words) :=
  (transfers_spec crossing 3 (by decide) (by decide) (by decide) (fun hb ↦ absurd hb Bool.false_ne_true) (by decide)).1 .trs
    ⟨by decide, by decide, by decide⟩

end Ka10Simh.B5500
