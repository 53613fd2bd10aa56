import Ka10Simh.B5500.Stack
import Ka10Simh.Lib.Block
import Ka10Simh.Lib.Fields

/-!
The state that an interrupt puts on the stack.

* `saved`: the words that `storeInterrupt` pushes.
* `storeInterrupt_stored`: what it leaves in the memory.
* `initiate_loaded`: what `initiate` takes from there.
* `interrupt_resumed`: the processor that goes on is the one that was interrupted.
-/

namespace Ka10Simh.B5500

open Word Fields

variable {s t u : Cpu} {mem : ℕ → ℕ} {full : Bool}

/-! ### Control words -/

section Fields

/-- A word that is within a mask has nothing in a mask apart from that. -/
lemma within_apart {w m k : ℕ} (h : w &&& m = w) (hk : m &&& k = 0) : w &&& k = 0 := by
  rw [← h, Nat.and_assoc, hk, Nat.and_zero]

lemma toF_within (x : ℕ) : toF x &&& ffield = toF x := by rw [toF, Nat.and_assoc, Nat.and_self]
lemma toC_within (x : ℕ) : toC x &&& core = toC x := by rw [toC, Nat.and_assoc, Nat.and_self]
lemma toL_within (x : ℕ) : toL x &&& rl = toL x := by rw [toL, Nat.and_assoc, Nat.and_self]
lemma toR_within (x : ℕ) : toR x &&& rfield = toR x := by rw [toR, Nat.and_assoc, Nat.and_self]

lemma bit_within (p : Prop) [Decidable p] (m : ℕ) : (if p then m else 0) &&& m = if p then m else 0 := by
  split_ifs
  · exact Nat.and_self m
  · exact Nat.zero_and m

lemma pointer_within (x : ℕ) : pointer x &&& 0o3407 = pointer x := by
  have hhigh : (x &&& 0o70) >>> 3 = x >>> 3 &&& 0o7 := Nat.shiftRight_and_distrib
  have hlow : (x &&& 0o7) <<< 8 = x <<< 8 &&& 0o3400 := Nat.shiftLeft_and_distrib
  rw [pointer, hhigh, hlow, Nat.and_or_distrib_right, Nat.and_assoc, Nat.and_assoc]
  rfl

lemma ofPointer_pointer {x : ℕ} (h : x < 64) : ofPointer (pointer x) = x := by
  have hall : ∀ x : Fin 64, ofPointer (pointer x) = x := by decide
  exact hall ⟨x, h⟩

lemma ghPointer_within (x : ℕ) : pointer x <<< 33 &&& rgh = pointer x <<< 33 := by
  rw [show rgh = 0o3407 <<< 33 from rfl, ← Nat.shiftLeft_and_distrib, pointer_within]

lemma kvPointer_within (x : ℕ) : pointer x <<< 30 &&& rkv = pointer x <<< 30 := by
  rw [show rkv = 0o3407 <<< 30 from rfl, ← Nat.shiftLeft_and_distrib, pointer_within]

lemma field_shiftRight (x m n : ℕ) : (x <<< n &&& m <<< n) >>> n = x &&& m := by
  rw [← Nat.shiftLeft_and_distrib, Nat.shiftLeft_shiftRight]

lemma and_of_lt {x : ℕ} (n : ℕ) (h : x < 2 ^ n) : x &&& (2 ^ n - 1) = x := by
  rw [Nat.and_two_pow_sub_one_eq_mod, Nat.mod_eq_of_lt h]

lemma toL_field {x : ℕ} (h : x < 4) : toL x >>> 36 = x := by
  rw [toL, show rl = 3 <<< 36 from rfl, field_shiftRight]
  exact and_of_lt 2 h

lemma toAddr_toC (x : ℕ) : toAddr (toC x) = toAddr x := by
  rw [toAddr, toAddr]
  exact Fin.ext (toC_within x)

lemma toAddr_coe (x : Addr) : toAddr x = x := Fin.ext ((toAddr_val x).trans (Nat.mod_eq_of_lt x.isLt))

lemma toAddr_field (x : Addr) : toAddr (toF x >>> 15) = x := by
  rw [toF, show ffield = core <<< 15 from rfl, field_shiftRight, ← toC, toAddr_toC, toAddr_coe]

lemma toR_field {x : ℕ} (h : x < 2 ^ 15) (hpage : 64 ∣ x) : toR x >>> 27 = x := by
  rw [toR, show rfield = 0o77700 <<< 27 from rfl, field_shiftRight]
  obtain ⟨k, rfl⟩ := hpage
  rw [show 64 * k = k <<< 6 from (by rw [Nat.shiftLeft_eq, Nat.mul_comm]), show 0o77700 = 0o777 <<< 6 from rfl,
    ← Nat.shiftLeft_and_distrib]
  exact congrArg (· <<< 6) (and_of_lt 9 (by omega))

/-- The parts of `RCW`, of `ICW` and of the word with `X`. -/
def rcwParts (s : Cpu) (full : Bool) : List (ℕ × ℕ) :=
  [(flag, flag), (dflag, dflag), (toF s.f, ffield), (toC s.c, core), (toL s.l, rl), (pointer s.gh <<< 33, rgh),
    (pointer s.kv <<< 30, rkv), (if full = true then present else 0, present)]
def icwParts (s : Cpu) : List (ℕ × ℕ) :=
  [(flag, flag), (dflag, dflag), (toR s.r, rfield), (if s.varf = true then svarf else 0, svarf),
    (if s.msff = true then smsff else 0, smsff), (if s.salf = true then ssalf else 0, ssalf), (toC s.ma, core)]
def xParts (x : ℕ) (full : Bool) : List (ℕ × ℕ) :=
  [(x, mant), (if full = true then present else 0, present), (flag, flag), (dflag, dflag)]

lemma join_rcwParts (s : Cpu) (full : Bool) : join (rcwParts s full) = rcw s full := by
  have hparts (a b c d e f g h i j k l m n o p : ℕ) :
      join [(a, i), (b, j), (c, k), (d, l), (e, m), (f, n), (g, o), (h, p)]
        = a ||| b ||| c ||| d ||| e ||| f ||| g ||| h := by
    simp only [join, List.foldr_cons, List.foldr_nil, Nat.or_assoc, Nat.or_zero]
  exact hparts ..

lemma join_icwParts (s : Cpu) : join (icwParts s) = icw s := by
  have hparts (a b c d e f g h i j k l m n : ℕ) :
      join [(a, h), (b, i), (c, j), (d, k), (e, l), (f, m), (g, n)] = a ||| b ||| c ||| d ||| e ||| f ||| g := by
    simp only [join, List.foldr_cons, List.foldr_nil, Nat.or_assoc, Nat.or_zero]
  exact hparts ..

lemma rcw_separate (s : Cpu) (full : Bool) : Separate (rcwParts s full) where
  within := by
    simp only [rcwParts, List.forall_mem_cons, Nat.and_self, toF_within, toC_within, toL_within, ghPointer_within,
      kvPointer_within, bit_within, true_and]
    exact fun p hp => absurd hp List.not_mem_nil
  apart := (by decide : [flag, dflag, ffield, core, rl, rgh, rkv, present].Pairwise fun m n => m &&& n = 0)

lemma icw_separate (s : Cpu) : Separate (icwParts s) where
  within := by
    simp only [icwParts, List.forall_mem_cons, Nat.and_self, toR_within, toC_within, bit_within, true_and]
    exact fun p hp => absurd hp List.not_mem_nil
  apart := (by decide : [flag, dflag, rfield, svarf, smsff, ssalf, core].Pairwise fun m n => m &&& n = 0)

lemma x_separate {x : ℕ} (h : x < 2 ^ 39) (full : Bool) : Separate (xParts x full) where
  within := by
    simp only [xParts, List.forall_mem_cons, Nat.and_self, bit_within, true_and]
    exact ⟨and_of_lt 39 h, fun p hp => absurd hp List.not_mem_nil⟩
  apart := (by decide : [mant, present, flag, dflag].Pairwise fun m n => m &&& n = 0)

/-- A part of a control word. -/
lemma rcw_and {v m : ℕ} (h : (v, m) ∈ rcwParts s full) : rcw s full &&& m = v := by
  rw [← join_rcwParts, join_and (rcw_separate s full) h]

lemma icw_and {v m : ℕ} (h : (v, m) ∈ icwParts s) : icw s &&& m = v := by
  rw [← join_icwParts, join_and (icw_separate s) h]

lemma bit_ne_zero {m : ℕ} (b : Bool) (hm : m ≠ 0) : decide ((if b = true then m else 0) ≠ 0) = b := by
  cases b
  · rfl
  · exact decide_eq_true hm

/-- The processor that is set from its own control words. -/
lemma setViaRcw_rcw (hl : s.l < 4) (hc : s.c < 2 ^ 15) (hgh : s.gh < 64) (hkv : s.kv < 64) (t : Cpu) (full : Bool) :
    setViaRcw t (rcw s full)
      = { t with l := s.l, c := s.c, prof := false, f := s.f, gh := s.gh, kv := s.kv } := by
  have hlf : lf (rcw s full) = s.l := by rw [lf, rcw_and (v := toL s.l) (by simp [rcwParts]), toL_field hl]
  have hcf : (cf (rcw s full) : ℕ) = s.c := by
    rw [cf, rcw_and (v := toC s.c) (by simp [rcwParts]), toAddr_toC, toAddr_val, Nat.mod_eq_of_lt hc]
  have hff : ff (rcw s full) = s.f := by rw [ff, rcw_and (v := toF s.f) (by simp [rcwParts]), toAddr_field]
  have hg : ofPointer ((rcw s full &&& rgh) >>> 33) = s.gh := by
    rw [rcw_and (v := pointer s.gh <<< 33) (by simp [rcwParts]), Nat.shiftLeft_shiftRight, ofPointer_pointer hgh]
  have hk : ofPointer ((rcw s full &&& rkv) >>> 30) = s.kv := by
    rw [rcw_and (v := pointer s.kv <<< 30) (by simp [rcwParts]), Nat.shiftLeft_shiftRight, ofPointer_pointer hkv]
  rw [setViaRcw, hlf, hcf, hff, hg, hk]

lemma present_rcw (s : Cpu) (full : Bool) : decide (rcw s full &&& present ≠ 0) = full := by
  rw [rcw_and (v := if full = true then present else 0) (by simp [rcwParts])]
  exact bit_ne_zero full (by decide)

lemma setViaIcw_icw (hr : s.r < 2 ^ 15) (hpage : 64 ∣ s.r) (t : Cpu) :
    setViaIcw t (icw s) = { t with ma := s.ma, msff := s.msff, salf := s.salf, varf := s.varf, r := s.r } := by
  have hma : cf (icw s) = s.ma := by rw [cf, icw_and (v := toC s.ma) (by simp [icwParts]), toAddr_toC, toAddr_coe]
  have hmsff : decide (icw s &&& smsff ≠ 0) = s.msff := by
    rw [icw_and (v := if s.msff = true then smsff else 0) (by simp [icwParts])]
    exact bit_ne_zero s.msff (by decide)
  have hsalf : decide (icw s &&& ssalf ≠ 0) = s.salf := by
    rw [icw_and (v := if s.salf = true then ssalf else 0) (by simp [icwParts])]
    exact bit_ne_zero s.salf (by decide)
  have hvarf : decide (icw s &&& svarf ≠ 0) = s.varf := by
    rw [icw_and (v := if s.varf = true then svarf else 0) (by simp [icwParts])]
    exact bit_ne_zero s.varf (by decide)
  have hrf : rf (icw s) = s.r := by rw [rf, icw_and (v := toR s.r) (by simp [icwParts]), toR_field hr hpage]
  rw [setViaIcw, hma, hmsff, hsalf, hvarf, hrf]

end Fields

/-! ### Words that are pushed -/

/-- The memory with words above an address. -/
def stacked (mem : ℕ → ℕ) (top : ℕ) (words : List ℕ) : ℕ → ℕ := Block.store mem (top + 1) words

lemma stacked_concat (mem : ℕ → ℕ) (top : ℕ) (words : List ℕ) (w : ℕ) :
    stacked mem top (words ++ [w]) = Function.update (stacked mem top words) (top + words.length + 1) w := by
  rw [stacked, Block.store_concat, Nat.add_right_comm]
  rfl

/-- What is there of a word. -/
lemma stacked_get {words : List ℕ} {top i w : ℕ} (h : words[i]? = some w) :
    stacked mem top words (top + i + 1) = w := by
  rw [stacked, Nat.add_right_comm, Block.store_get h]

lemma stacked_low (words : List ℕ) {top addr : ℕ} (h : addr ≤ top) : stacked mem top words addr = mem addr :=
  Block.store_low words (Nat.lt_succ_of_le h)

/-- The processor with words on its stack. -/
def grown (s : Cpu) (words : List ℕ) : Cpu :=
  { s with s := toAddr ((s.s : ℕ) + words.length), mem := stacked s.mem s.s words }

/-- There is room for some words. -/
def Room (s : Cpu) (n : ℕ) : Prop := (s.s : ℕ) + n < 2 ^ 15 ∧ (s.s : ℕ) + n ≤ s.memsize

lemma grown_nil (s : Cpu) : grown s [] = s := by
  rw [grown, stacked, Block.store_nil, List.length_nil, Nat.add_zero, toAddr_coe]

lemma nextAddr_grown {words : List ℕ} (h : Room s (words.length + 1)) :
    nextAddr (grown s words).s = toAddr ((s.s : ℕ) + (words.length + 1)) := by
  have hlt := h.1
  refine Fin.ext ?_
  rw [nextAddr_val, toAddr_val, show ((grown s words).s : ℕ) = ((s.s : ℕ) + words.length) % 2 ^ 15 from toAddr_val _]
  omega

/-- One more word. -/
lemma push_grown {words : List ℕ} {e w : ℕ} (hncsf : s.ncsf = false) (h : Room s (words.length + 1))
    (he : e = 0o13 ∧ w = s.b ∨ e = 0o12 ∧ w = s.a) : push e (grown s words) = grown s (words ++ [w]) := by
  have htop := nextAddr_grown h
  have hval : ((toAddr ((s.s : ℕ) + (words.length + 1)) : Addr) : ℕ) = (s.s : ℕ) + words.length + 1 := by
    rw [toAddr_val, Nat.mod_eq_of_lt h.1, Nat.add_assoc]
  have hpasses : ({ grown s words with s := toAddr ((s.s : ℕ) + (words.length + 1)) } : Cpu).Passes
      (toAddr ((s.s : ℕ) + (words.length + 1)) : Addr) := by
    refine ⟨?_, fun hn => absurd (show s.ncsf = true from hn) (by rw [hncsf]; exact Bool.false_ne_true)⟩
    rw [hval]
    exact h.2
  have hgrown : grown s (words ++ [w])
      = { grown s words with
          s := toAddr ((s.s : ℕ) + (words.length + 1))
          mem := Function.update (stacked s.mem s.s words) (toAddr ((s.s : ℕ) + (words.length + 1)) : Addr) w } := by
    rw [grown, stacked_concat, hval, List.length_append, List.length_singleton]
    rfl
  rw [hgrown, push, htop]
  rcases he with ⟨rfl, rfl⟩ | ⟨rfl, rfl⟩
  · exact cycle_storeB hpasses
  · exact cycle_storeA hpasses

/-! ### What is stored -/

/-- The top of the stack before the words are pushed: of character mode, the one that is kept in `X`. -/
def topOf (s : Cpu) : Addr := if s.cwmf = true then ff s.x else s.s

/-- `A` and `B` where they are full, in the order in which they are pushed. -/
def tops (s : Cpu) : List ℕ :=
  if s.cwmf = true then (if s.arof = true then [s.a] else []) ++ if s.brof = true then [s.b] else []
  else (if s.brof = true then [s.b] else []) ++ if s.arof = true then [s.a] else []

/-- The word with `X`. -/
def xWord (s : Cpu) : ℕ := replF s.x s.s ||| (if s.arof = true then present else 0) ||| flag ||| dflag

/-- The words that are pushed. -/
def saved (s : Cpu) : List ℕ := tops s ++ (if s.cwmf = true then [xWord s] else []) ++ [icw s, rcw s s.brof]

/-- The last control word, and its address `R | 010`, where `R` of character mode is that of the `MSCW`. -/
def incw (s : Cpu) : ℕ :=
  flag ||| dflag ||| (if s.cwmf = true then scwmf else 0) ||| toC (toAddr (topOf s + (saved s).length)) ||| s.q <<< 35
def incwAddr (s : Cpu) : Addr :=
  toAddr ((if s.cwmf = true then rf (s.mem (ff (s.mem s.f))) else s.r) ||| 0o10)

/-- The words that are pushed end before the last control word, which is in the memory. -/
def Apart (s : Cpu) : Prop := (topOf s : ℕ) + (saved s).length < incwAddr s ∧ (incwAddr s : ℕ) ≤ s.memsize

/-- The words from which `R` of character mode is found are on the stack. -/
def Chained (s : Cpu) : Prop := s.cwmf = true → s.f ≤ topOf s ∧ ff (s.mem s.f) ≤ topOf s

section Store

lemma Room.le {m n : ℕ} (h : Room s n) (hmn : m ≤ n) : Room s m := ⟨by have := h.1; omega, by have := h.2; omega⟩

/-- A register that is pushed if it is full. -/
lemma push_full (words : List ℕ) (reg : Bool) {e w : ℕ} (hncsf : s.ncsf = false) (h : Room s (words.length + 1))
    (he : e = 0o13 ∧ w = s.b ∨ e = 0o12 ∧ w = s.a) :
    (if reg = true ∨ false = true then push e (grown s words) else grown s words)
      = grown s (words ++ if reg = true then [w] else []) := by
  cases reg
  · rw [if_neg (by decide), if_neg (by decide), List.append_nil]
  · rw [if_pos (.inl rfl), if_pos rfl, push_grown hncsf h he]

lemma storeTop_word_of (hcwmf : ¬ s.cwmf = true)
    (h : (if s.brof = true ∨ false = true then push 0o13 s else s) = t) :
    storeTop false s = if t.arof = true ∨ false = true then push 0o12 t else t := by
  subst h
  rw [storeTop, if_neg hcwmf]

lemma storeTop_char_of (hcwmf : s.cwmf = true)
    (ht : (if s.arof = true ∨ false = true then push 0o12 (exchange s) else exchange s) = t)
    (hu : (if t.brof = true ∨ false = true then push 0o13 t else t) = u) :
    storeTop false s = push 0o13 { u with b := u.x ||| (if s.arof = true then present else 0) ||| flag ||| dflag } := by
  subst ht hu
  rw [storeTop, if_pos hcwmf]
  rfl

lemma length_full (b : Bool) (w : ℕ) : (if b = true then [w] else []).length ≤ 1 := by
  cases b
  · exact Nat.zero_le 1
  · exact le_rfl

lemma storeTop_word (hcwmf : ¬ s.cwmf = true) (hncsf : s.ncsf = false) (h : Room s 2) :
    storeTop false s = grown s (tops s) := by
  have hb := push_full [] s.brof (w := s.b) hncsf (h.le (by decide)) (.inl ⟨rfl, rfl⟩)
  rw [grown_nil, List.nil_append] at hb
  have hlen := length_full s.brof s.b
  rw [storeTop_word_of hcwmf hb, tops, if_neg hcwmf]
  exact push_full _ s.arof hncsf (h.le (by omega)) (.inr ⟨rfl, rfl⟩)

lemma storeTop_char (hcwmf : s.cwmf = true) (hncsf : s.ncsf = false) (h : Room (exchange s) 3) :
    storeTop false s = grown { exchange s with b := xWord s } (tops s ++ [xWord s]) := by
  have hncsf' : (exchange s).ncsf = false := hncsf
  have ha := push_full [] s.arof (w := s.a) hncsf' (h.le (by decide)) (.inr ⟨rfl, rfl⟩)
  rw [grown_nil, List.nil_append] at ha
  have hlena := length_full s.arof s.a
  have hlenb := length_full s.brof s.b
  have hb := push_full (if s.arof = true then [s.a] else []) s.brof (e := 0o13) (w := s.b) hncsf' (h.le (by omega))
    (.inl ⟨rfl, rfl⟩)
  have htops : (if s.arof = true then [s.a] else []) ++ (if s.brof = true then [s.b] else []) = tops s := by
    rw [tops, if_pos hcwmf]
  rw [htops] at hb
  rw [storeTop_char_of hcwmf ha hb]
  refine push_grown (s := { exchange s with b := xWord s }) hncsf' ?_ (.inl ⟨rfl, rfl⟩)
  refine h.le ?_
  rw [← htops, List.length_append]
  omega

/-- Words that are pushed when `storeTop` is done. -/
lemma storeInterrupt_of {second : Bool} {v w : Cpu} (ht : storeTop false { s with ncsf := false } = t)
    (hu : push 0o13 { t with arof := false, b := icw { t with arof := false } } = u)
    (hv : push 0o13 { u with b := rcw u s.brof } = v) (hw : storeIncw v = w) :
    (storeInterrupt second true false s).mem = w.mem ∧ (storeInterrupt second true false s).ncsf = w.ncsf
      ∧ (storeInterrupt second true false s).memsize = w.memsize := by
  subst ht hu hv hw
  cases second <;> exact ⟨rfl, rfl, rfl⟩

/-- The last control word is put at its address. -/
lemma storeIncw_word (hcwmf : ¬ s.cwmf = true) (hncsf : s.ncsf = false)
    (hle : ((toAddr (s.r ||| 0o10) : Addr) : ℕ) ≤ s.memsize) :
    (storeIncw s).mem
        = Function.update s.mem (toAddr (s.r ||| 0o10) : Addr) (flag ||| dflag ||| toC s.s ||| s.q <<< 35)
      ∧ (storeIncw s).ncsf = false ∧ (storeIncw s).memsize = s.memsize := by
  have hcycle := cycle_putB
    (s := { s with b := flag ||| dflag ||| toC s.s ||| s.q <<< 35, ma := toAddr (s.r ||| 0o10) })
    ⟨hle, fun hn => absurd (hncsf.symm.trans hn) Bool.false_ne_true⟩
  have hstore : storeIncw s = memoryCycle 0o15
      { s with b := flag ||| dflag ||| toC s.s ||| s.q <<< 35, ma := toAddr (s.r ||| 0o10) } := by
    rw [storeIncw, if_neg hcwmf]
  rw [hstore, hcycle]
  exact ⟨rfl, hncsf, rfl⟩

lemma storeIncw_char_of (hcwmf : s.cwmf = true) (h : memoryCycle 5 (memoryCycle 6 { s with ma := s.f }) = t) :
    storeIncw s = memoryCycle 0o15
      { t with
        r := rf t.b, b := flag ||| dflag ||| scwmf ||| toC t.s ||| t.q <<< 35, ma := toAddr (rf t.b ||| 0o10) } := by
  subst h
  rw [storeIncw, if_pos hcwmf]

lemma storeIncw_char (hcwmf : s.cwmf = true) (hncsf : s.ncsf = false) (hf : (s.f : ℕ) ≤ s.memsize)
    (hmscw : (ff (s.mem s.f) : ℕ) ≤ s.memsize)
    (hle : ((toAddr (rf (s.mem (ff (s.mem s.f))) ||| 0o10) : Addr) : ℕ) ≤ s.memsize) :
    (storeIncw s).mem
        = Function.update s.mem (toAddr (rf (s.mem (ff (s.mem s.f))) ||| 0o10) : Addr)
          (flag ||| dflag ||| scwmf ||| toC s.s ||| s.q <<< 35)
      ∧ (storeIncw s).ncsf = false ∧ (storeIncw s).memsize = s.memsize := by
  have hno {p : Prop} (hn : s.ncsf = true) : p := absurd (hncsf.symm.trans hn) Bool.false_ne_true
  have h6 : memoryCycle 6 { s with ma := s.f } = { s with b := s.mem s.f, ma := ff (s.mem s.f) } :=
    cycle_passed (s := { s with ma := s.f }) ⟨hf, fun hn => hno hn⟩
  have h5 : memoryCycle 5 { s with b := s.mem s.f, ma := ff (s.mem s.f) }
      = { s with b := s.mem (ff (s.mem s.f)), ma := ff (s.mem s.f), brof := true } :=
    cycle_passed (s := { s with b := s.mem s.f, ma := ff (s.mem s.f) }) ⟨hmscw, fun hn => hno hn⟩
  rw [← h6] at h5
  obtain ⟨t, ht, hb, hmem, hs, hq, hn, hsize⟩ : ∃ t : Cpu, memoryCycle 5 (memoryCycle 6 { s with ma := s.f }) = t
      ∧ t.b = s.mem (ff (s.mem s.f)) ∧ t.mem = s.mem ∧ t.s = s.s ∧ t.q = s.q ∧ t.ncsf = false
      ∧ t.memsize = s.memsize := ⟨_, h5, rfl, rfl, rfl, rfl, hncsf, rfl⟩
  have hpasses : ((toAddr (rf t.b ||| 0o10) : Addr) : ℕ) ≤ t.memsize := by
    rw [hb, hsize]
    exact hle
  rw [storeIncw_char_of hcwmf ht, ← hmem, ← hsize, ← hs, ← hq, hmem, ← hb, ← hmem]
  have hcycle := cycle_putB
    (s := { t with
      r := rf t.b, b := flag ||| dflag ||| scwmf ||| toC t.s ||| t.q <<< 35, ma := toAddr (rf t.b ||| 0o10) })
    ⟨hpasses, fun hno' => absurd (hn.symm.trans hno') Bool.false_ne_true⟩
  rw [hcycle]
  exact ⟨rfl, hn, rfl⟩

/-- `A`, `B` and `X` are pushed, and the other registers are not changed. -/
lemma storeTop_grown (h : Room { s with s := topOf s } (saved s).length) :
    ∃ v : Cpu, storeTop false { s with ncsf := false }
        = grown v (tops s ++ if s.cwmf = true then [xWord s] else [])
      ∧ (v.s = topOf s ∧ v.mem = s.mem ∧ v.ncsf = false ∧ v.memsize = s.memsize)
      ∧ icw v = icw s ∧ rcw v = rcw s ∧ v.cwmf = s.cwmf ∧ v.f = s.f ∧ v.r = s.r ∧ v.q = s.q := by
  have hlen : 2 + (if s.cwmf = true then [xWord s] else []).length ≤ (saved s).length := by
    rw [saved, List.length_append, List.length_append]
    show 2 + _ ≤ _ + _ + 2
    omega
  by_cases hcwmf : s.cwmf = true
  · have htop : topOf s = ff s.x := if_pos hcwmf
    rw [if_pos hcwmf] at hlen ⊢
    rw [htop] at h
    refine ⟨{ exchange { s with ncsf := false } with b := xWord s }, ?_, ⟨htop.symm, rfl, rfl, rfl⟩, rfl, rfl, rfl,
      rfl, rfl, rfl⟩
    exact storeTop_char (s := { s with ncsf := false }) hcwmf rfl (Room.le (n := (saved s).length) h hlen)
  · have htop : topOf s = s.s := if_neg hcwmf
    rw [if_neg hcwmf] at hlen ⊢
    rw [htop] at h
    rw [List.append_nil]
    refine ⟨{ s with ncsf := false }, ?_, ⟨htop.symm, rfl, rfl, rfl⟩, rfl, rfl, rfl, rfl, rfl, rfl⟩
    exact storeTop_word (s := { s with ncsf := false }) hcwmf rfl (Room.le (n := (saved s).length) h hlen)

/-- **What is left in the memory**: the words on the stack, and the last one at its address. -/
lemma storeInterrupt_stored {second : Bool} (h : Apart s) (hchain : Chained s) :
    (storeInterrupt second true false s).mem
        = Function.update (stacked s.mem (topOf s) (saved s)) (incwAddr s) (incw s)
      ∧ (storeInterrupt second true false s).ncsf = false
      ∧ (storeInterrupt second true false s).memsize = s.memsize := by
  have hlt := (incwAddr s).isLt
  have hroom : Room { s with s := topOf s } (saved s).length :=
    ⟨by have := h.1; exact this.trans hlt, by have := h.1; exact (this.trans_le h.2).le⟩
  obtain ⟨v, htop, ⟨hs, hmem, hncsf, hsize⟩, hicw, hrcw, hcwmf, hf, hr, hq⟩ := storeTop_grown hroom
  have hroomv : Room v (saved s).length := by
    rw [Room, hs, hsize]
    exact hroom
  generalize hwords : (tops s ++ if s.cwmf = true then [xWord s] else []) = words at htop
  have hsaved : saved s = words ++ [icw s] ++ [rcw s s.brof] := by
    rw [saved, hwords, List.append_assoc]
    rfl
  have hlen : (saved s).length = words.length + 2 := by
    rw [hsaved, List.append_assoc, List.length_append]
    rfl
  rw [hlen] at hroomv
  have hu : push 0o13 { grown v words with arof := false, b := icw { grown v words with arof := false } }
      = grown { v with arof := false, b := icw v } (words ++ [icw v]) :=
    push_grown (s := { v with arof := false, b := icw v }) hncsf (hroomv.le (by omega)) (.inl ⟨rfl, rfl⟩)
  have hv : push 0o13 { grown { v with arof := false, b := icw v } (words ++ [icw v]) with
        b := rcw (grown { v with arof := false, b := icw v } (words ++ [icw v])) s.brof }
      = grown { v with arof := false, b := rcw v s.brof } (words ++ [icw v] ++ [rcw v s.brof]) :=
    push_grown (s := { v with arof := false, b := rcw v s.brof }) hncsf
      (hroomv.le (by rw [List.length_append, List.length_singleton])) (.inl ⟨rfl, rfl⟩)
  obtain ⟨hm, hn, hsz⟩ := storeInterrupt_of htop hu hv rfl
  rw [hicw, hrcw, ← hsaved] at hm hn hsz
  generalize hg : grown { v with arof := false, b := rcw s s.brof } (saved s) = g at hm hn hsz
  have hgs : g.s = toAddr (topOf s + (saved s).length) := by rw [← hg, ← hs]; rfl
  have hgmem : g.mem = stacked s.mem (topOf s) (saved s) := by rw [← hg, ← hs, ← hmem]; rfl
  have hgf : g.f = s.f := by rw [← hg, ← hf]; rfl
  have hgr : g.r = s.r := by rw [← hg, ← hr]; rfl
  have hgq : g.q = s.q := by rw [← hg, ← hq]; rfl
  have hgcwmf : g.cwmf = s.cwmf := by rw [← hg, ← hcwmf]; rfl
  have hgncsf : g.ncsf = false := by rw [← hg]; exact hncsf
  have hgsize : g.memsize = s.memsize := by rw [← hg]; exact hsize
  have hle := h.2
  by_cases hchar : s.cwmf = true
  · obtain ⟨hflow, hmscw⟩ := hchain hchar
    have htop' : (topOf s : ℕ) ≤ s.memsize := by have := h.1; omega
    have hgf' : g.mem g.f = s.mem s.f := by rw [hgmem, hgf, stacked_low _ hflow]
    have hgm' : g.mem (ff (s.mem s.f)) = s.mem (ff (s.mem s.f)) := by rw [hgmem, stacked_low _ hmscw]
    have haddr : incwAddr s = toAddr (rf (g.mem (ff (g.mem g.f))) ||| 0o10) := by
      rw [incwAddr, if_pos hchar, hgf', hgm']
    obtain ⟨hm', hn', hsz'⟩ := storeIncw_char (hgcwmf.trans hchar) hgncsf
      (by rw [hgf, hgsize]; exact le_trans hflow htop') (by rw [hgf', hgsize]; exact le_trans hmscw htop')
      (by rw [← haddr, hgsize]; exact hle)
    rw [hm, hn, hsz, hm', hn', hsz', ← haddr, hgmem, hgs, hgq, hgsize, incw, if_pos hchar]
    exact ⟨rfl, rfl, rfl⟩
  · have haddr : incwAddr s = toAddr (g.r ||| 0o10) := by rw [incwAddr, if_neg hchar, hgr]
    obtain ⟨hm', hn', hsz'⟩ := storeIncw_word (by rw [hgcwmf]; exact hchar) hgncsf
      (by rw [← haddr, hgsize]; exact hle)
    rw [hm, hn, hsz, hm', hn', hsz', ← haddr, hgmem, hgs, hgq, hgsize, incw, if_neg hchar, Nat.or_zero]
    exact ⟨rfl, rfl, rfl⟩

end Store

/-! ### What is loaded -/

section Load

/-- A processor with the memory that `storeInterrupt` leaves. -/
structure Left (s t : Cpu) : Prop where
  mem : t.mem = Function.update (stacked s.mem (topOf s) (saved s)) (incwAddr s) (incw s)
  ncsf : t.ncsf = false
  size : t.memsize = s.memsize

lemma prevAddr_toAddr (n : ℕ) : prevAddr (toAddr (n + 1)) = toAddr n := by
  refine Fin.ext ?_
  rw [prevAddr_val, toAddr_val, toAddr_val]
  omega

/-- The words that were pushed are there. -/
lemma Left.get (h : Left s t) (hapart : Apart s) {i w : ℕ} (hw : (saved s)[i]? = some w) :
    t.mem (toAddr (topOf s + i + 1) : Addr) = w ∧ t.Passes (toAddr (topOf s + i + 1) : Addr) := by
  have hlt : i < (saved s).length := (List.getElem?_eq_some_iff.mp hw).1
  have hend := hapart.1
  have haddr := (incwAddr s).isLt
  have hval : ((toAddr (topOf s + i + 1) : Addr) : ℕ) = topOf s + i + 1 := by
    rw [toAddr_val, Nat.mod_eq_of_lt (by omega)]
  have hne : ((toAddr (topOf s + i + 1) : Addr) : ℕ) ≠ incwAddr s := by omega
  refine ⟨?_, ⟨?_, fun hn => absurd (h.ncsf.symm.trans hn) Bool.false_ne_true⟩⟩
  · rw [h.mem, Function.update_of_ne hne, hval, stacked_get hw]
  · have hsize := hapart.2
    rw [h.size, hval]
    lia

/-- A word that is popped. -/
lemma Left.popB (h : Left s t) (hapart : Apart s) {i w : ℕ} (hw : (saved s)[i]? = some w)
    (hs : t.s = toAddr (topOf s + i + 1)) : pop 3 t = { t with b := w, brof := true, s := toAddr (topOf s + i) } := by
  obtain ⟨hmem, hpasses⟩ := h.get hapart hw
  have hprev := prevAddr_toAddr (topOf s + i)
  rw [← hs] at hmem hpasses hprev
  rw [pop, cycle_loadB hpasses, hmem]
  rw [← hprev]

lemma Left.popA (h : Left s t) (hapart : Apart s) {i w : ℕ} (hw : (saved s)[i]? = some w)
    (hs : t.s = toAddr (topOf s + i + 1)) : pop 2 t = { t with a := w, arof := true, s := toAddr (topOf s + i) } := by
  obtain ⟨hmem, hpasses⟩ := h.get hapart hw
  have hprev := prevAddr_toAddr (topOf s + i)
  rw [← hs] at hmem hpasses hprev
  rw [pop, cycle_loadA hpasses, hmem]
  rw [← hprev]

/-- The last control word has the top of the stack and the mode. -/
lemma setViaIncw_incw (s t : Cpu) :
    setViaIncw t (incw s) = { t with s := toAddr (topOf s + (saved s).length), cwmf := s.cwmf } := by
  have hq {m : ℕ} (hm : m < 2 ^ 35) : s.q <<< 35 &&& m = 0 := by
    rw [Nat.and_comm, and_shiftLeft, Nat.shiftRight_eq_div_pow, Nat.div_eq_of_lt hm, Nat.zero_and, Nat.zero_shiftLeft]
  have hcf : cf (incw s) = toAddr (topOf s + (saved s).length) := by
    rw [cf, incw, Nat.and_or_distrib_right, hq (by norm_num), Nat.and_or_distrib_right, toC_within,
      Nat.and_or_distrib_right, within_apart (bit_within _ scwmf) (by decide), Nat.or_zero,
      show (flag ||| dflag) &&& core = 0 by decide]
    simp only [Nat.zero_or, Nat.or_zero, toAddr_toC, toAddr_coe]
  have hcwmf : decide (incw s &&& scwmf ≠ 0) = s.cwmf := by
    rw [incw, Nat.and_or_distrib_right, hq (by norm_num), Nat.and_or_distrib_right,
      within_apart (toC_within _) (by decide), Nat.and_or_distrib_right, bit_within,
      show (flag ||| dflag) &&& scwmf = 0 by decide]
    simp only [Nat.zero_or, Nat.or_zero]
    exact bit_ne_zero s.cwmf (by decide)
  rw [setViaIncw, hcf, hcwmf]

lemma initiate_of {v : Cpu} (ht : pop 3 { setViaIncw s s.a with arof := false } = t)
    (hu : pop 3 (setViaRcw t t.b) = u) (hv : ({ setViaIcw u u.b with brof := false } : Cpu) = v) :
    initiate s = { (if v.cwmf = true then loadTop (decide (t.b &&& present ≠ 0)) v else v) with
      ncsf := true, prof := false, trof := false } := by
  subst ht hu hv
  rfl

/-- The registers are within their widths, and `R` is a page. -/
structure Widths (s : Cpu) : Prop where
  l_lt : s.l < 4
  c_lt : s.c < 2 ^ 15
  gh_lt : s.gh < 64
  kv_lt : s.kv < 64
  r_lt : s.r < 2 ^ 15
  r_page : 64 ∣ s.r
  x_lt : s.x < 2 ^ 39

/-- The processor when the control words are loaded, with `n` words left on the stack. -/
def loaded (s t : Cpu) (n : ℕ) : Cpu :=
  { t with
    s := toAddr (topOf s + n), cwmf := s.cwmf, arof := false, brof := false, b := icw s, l := s.l, c := s.c
    prof := false, f := s.f, gh := s.gh, kv := s.kv, ma := s.ma, msff := s.msff, salf := s.salf, varf := s.varf
    r := s.r }

lemma initiate_left (h : Left s t) (hapart : Apart s) (hw : Widths s) (ha : t.a = incw s) {n : ℕ}
    (hn : (saved s).length = n + 2) (hicw : (saved s)[n]? = some (icw s))
    (hrcw : (saved s)[n + 1]? = some (rcw s s.brof)) :
    initiate t = { (if s.cwmf = true then loadTop s.brof (loaded s t n) else loaded s t n) with
      ncsf := true, prof := false, trof := false } := by
  have ht : pop 3 { setViaIncw t t.a with arof := false }
      = { t with
          s := toAddr (topOf s + (n + 1)), cwmf := s.cwmf, arof := false, brof := true, b := rcw s s.brof } := by
    rw [(congrArg (setViaIncw t) ha).trans (setViaIncw_incw s t), hn]
    exact Left.popB (t := { t with s := toAddr (topOf s + (n + 2)), cwmf := s.cwmf, arof := false })
      ⟨h.mem, h.ncsf, h.size⟩ hapart hrcw rfl
  have hset := setViaRcw_rcw hw.l_lt hw.c_lt hw.gh_lt hw.kv_lt
    { t with s := toAddr (topOf s + (n + 1)), cwmf := s.cwmf, arof := false, brof := true, b := rcw s s.brof } s.brof
  have hu : pop 3 (setViaRcw
        { t with s := toAddr (topOf s + (n + 1)), cwmf := s.cwmf, arof := false, brof := true, b := rcw s s.brof }
        (rcw s s.brof))
      = { t with
          s := toAddr (topOf s + n), cwmf := s.cwmf, arof := false, brof := true, b := icw s, l := s.l, c := s.c
          prof := false, f := s.f, gh := s.gh, kv := s.kv } := by
    rw [hset]
    exact Left.popB (t := { t with
      s := toAddr (topOf s + (n + 1)), cwmf := s.cwmf, arof := false, brof := true, b := rcw s s.brof, l := s.l, c := s.c
      prof := false, f := s.f, gh := s.gh, kv := s.kv }) ⟨h.mem, h.ncsf, h.size⟩ hapart hicw rfl
  rw [initiate_of ht hu rfl, present_rcw, setViaIcw_icw hw.r_lt hw.r_page]
  rfl

/-- The word with `X` has `X` and whether `A` was full. -/
lemma xWord_and (h : s.x < 2 ^ 39) :
    xWord s &&& mant = replF s.x s.s ∧ decide (xWord s &&& present ≠ 0) = s.arof := by
  have hlt : replF s.x s.s < 2 ^ 39 := by
    refine Nat.or_lt_two_pow ?_ ((Nat.and_le_right).trans_lt (by norm_num))
    exact Nat.xor_lt_two_pow h ((Nat.and_le_left).trans_lt h)
  have hjoin : xWord s = join (xParts (replF s.x s.s) s.arof) := by
    have hparts (a b c d e f g h : ℕ) : a ||| b ||| c ||| d = join [(a, e), (b, f), (c, g), (d, h)] := by
      simp only [join, List.foldr_cons, List.foldr_nil, Nat.or_assoc, Nat.or_zero]
    exact hparts ..
  have hand {v m : ℕ} (hin : (v, m) ∈ xParts (replF s.x s.s) s.arof) : xWord s &&& m = v := by
    rw [hjoin, join_and (x_separate hlt s.arof) hin]
  refine ⟨hand (List.mem_cons_self), ?_⟩
  rw [hand (v := if s.arof = true then present else 0) (List.mem_cons_of_mem _ List.mem_cons_self)]
  exact bit_ne_zero s.arof (by decide)

lemma replF_eq (y x : ℕ) : replF y x = deposit 15 15 x y := rfl

lemma ff_eq (x : ℕ) : (ff x : ℕ) = extract 15 15 x := by
  have hfield : (x &&& ffield) >>> 15 = extract 15 15 x := by
    rw [show ffield = (2 ^ 15 - 1) <<< 15 from rfl, Nat.shiftRight_and_distrib, Nat.shiftLeft_shiftRight, extract]
  rw [ff, hfield, toAddr_val, extract, Nat.and_two_pow_sub_one_eq_mod, Nat.mod_mod]

/-- The top of the stack and the field of `X` are exchanged again. -/
lemma exchange_replF (s : Cpu) : ff (replF s.x s.s) = s.s ∧ replF (replF s.x s.s) (ff s.x) = s.x := by
  refine ⟨Fin.ext ?_, Nat.eq_of_testBit_eq fun k => ?_⟩
  · rw [ff_eq, replF_eq, extract_deposit, Nat.mod_eq_of_lt s.s.isLt]
  · rw [replF_eq, replF_eq, testBit_deposit, testBit_deposit, ff_eq]
    split_ifs with hin
    · rw [testBit_extract, decide_eq_true (by omega), Bool.and_true, Nat.add_sub_cancel' hin.1]
    · rfl

lemma Left.popFullB (h : Left s t) (hapart : Apart s) (reg : Bool) {i w : ℕ}
    (hw : reg = true → (saved s)[i]? = some w) (hs : t.s = toAddr (topOf s + i + if reg = true then 1 else 0)) :
    ∃ b f, (if reg = true then pop 3 t else t) = { t with b := b, brof := f, s := toAddr (topOf s + i) }
      ∧ (reg = true → b = w) := by
  cases reg
  · have hs' : t.s = toAddr (topOf s + i) := hs
    exact ⟨t.b, t.brof, by rw [← hs']; rfl, fun hno => absurd hno Bool.false_ne_true⟩
  · exact ⟨w, true, (h.popB hapart (hw rfl) hs :), fun _ => rfl⟩

lemma Left.popFullA (h : Left s t) (hapart : Apart s) (reg : Bool) {i w : ℕ}
    (hw : reg = true → (saved s)[i]? = some w) (hs : t.s = toAddr (topOf s + i + if reg = true then 1 else 0)) :
    ∃ a f, (if reg = true then pop 2 t else t) = { t with a := a, arof := f, s := toAddr (topOf s + i) }
      ∧ (reg = true → a = w) := by
  cases reg
  · have hs' : t.s = toAddr (topOf s + i) := hs
    exact ⟨t.a, t.arof, by rw [← hs']; rfl, fun hno => absurd hno Bool.false_ne_true⟩
  · exact ⟨w, true, (h.popA hapart (hw rfl) hs :), fun _ => rfl⟩

lemma loadTop_of {brflg arflg : Bool} {v : Cpu} (ht : pop 3 s = t) (harflg : decide (t.b &&& present ≠ 0) = arflg)
    (hu : (if brflg = true then pop 3 { t with x := t.b &&& mant } else { t with x := t.b &&& mant }) = u)
    (hv : (if arflg = true then pop 2 u else u) = v) :
    loadTop brflg s = exchange { v with arof := arflg, brof := brflg } := by
  subst ht harflg hu hv
  rfl

/-- What is loaded in character mode. -/
lemma loadTop_left (h : Left s t) (hapart : Apart s) (hx : s.x < 2 ^ 39) (hchar : s.cwmf = true)
    (hs : t.s = toAddr (topOf s + ((tops s).length + 1))) :
    ∃ a b, loadTop s.brof t
        = { t with s := s.s, x := s.x, arof := s.arof, brof := s.brof, a := a, b := b }
      ∧ (s.arof = true → a = s.a) ∧ (s.brof = true → b = s.b) := by
  have htops : tops s = (if s.arof = true then [s.a] else []) ++ if s.brof = true then [s.b] else [] := if_pos hchar
  have hsaved : saved s = tops s ++ [xWord s] ++ [icw s, rcw s s.brof] := by rw [saved, if_pos hchar]
  have hxw : (saved s)[(tops s).length]? = some (xWord s) := by rw [hsaved]; simp
  have hlen : (tops s).length = (if s.arof = true then 1 else 0) + if s.brof = true then 1 else 0 := by
    rw [htops]
    split_ifs <;> rfl
  have hb : s.brof = true → (saved s)[if s.arof = true then 1 else 0]? = some s.b := fun hfull => by
    rw [hsaved, htops, if_pos hfull]
    split_ifs <;> rfl
  have ha : s.arof = true → (saved s)[0]? = some s.a := fun hfull => by
    rw [hsaved, htops, if_pos hfull]
    rfl
  have ht := h.popB hapart hxw hs
  obtain ⟨hmant, hpresent⟩ := xWord_and hx
  obtain ⟨b, f, hu, hb'⟩ := Left.popFullB
    (t := { t with b := xWord s, brof := true, s := toAddr (topOf s + (tops s).length), x := xWord s &&& mant })
    ⟨h.mem, h.ncsf, h.size⟩ hapart s.brof hb (by rw [hlen, Nat.add_assoc])
  obtain ⟨a, g, hv, ha'⟩ := Left.popFullA
    (t := { t with b := b, brof := f, s := toAddr (topOf s + if s.arof = true then 1 else 0), x := xWord s &&& mant })
    ⟨h.mem, h.ncsf, h.size⟩ hapart s.arof ha rfl
  have hexchange := exchange_replF s
  rw [← hmant, show ff s.x = topOf s from (if_pos hchar).symm] at hexchange
  refine ⟨a, b, (loadTop_of ht hpresent hu hv).trans ?_, ha', hb'⟩
  rw [exchange]
  have htop := toAddr_coe (topOf s)
  simp only [Nat.add_zero]
  rw [hexchange.1, htop, hexchange.2]

/-- The words from an address down do not depend on the words above it. -/
lemma below_congr {mem' : ℕ → ℕ} {top : Addr} {n : ℕ} (h : ∀ addr ≤ (top : ℕ), mem' addr = mem addr)
    (hn : n ≤ (top : ℕ) + 1) : below mem' top n = below mem top n := by
  induction n generalizing top with
  | zero => rfl
  | succ n ih =>
      rw [below, below, h top le_rfl]
      refine congrArg _ ?_
      cases n with
      | zero => rfl
      | succ n =>
          have hlt := top.isLt
          have hprev : (prevAddr top : ℕ) = top - 1 := by rw [prevAddr_val]; lia
          exact ih (fun addr haddr => h addr (by omega)) (by omega)

/-- In word mode the stack that is left is the one that there was. -/
lemma stack_left (h : Left s t) (hapart : Apart s) (hword : ¬ s.cwmf = true) {n : ℕ}
    (hn : n ≤ (s.s : ℕ) + 1 + (tops s).length) :
    below t.mem (toAddr (topOf s + (tops s).length)) n = stack s n := by
  have htop : topOf s = s.s := if_neg hword
  have htops : tops s = (if s.brof = true then [s.b] else []) ++ if s.arof = true then [s.a] else [] := if_neg hword
  have hsaved : saved s = tops s ++ [icw s, rcw s s.brof] := by rw [saved, if_neg hword, List.append_nil]
  have hget {i w : ℕ} (hi : (tops s)[i]? = some w) : t.mem (toAddr (topOf s + i + 1) : Addr) = w := by
    refine (h.get hapart ?_).1
    rw [hsaved, List.getElem?_append_left (List.getElem?_eq_some_iff.mp hi).1, hi]
  have hlow {n : ℕ} (hn : n ≤ (s.s : ℕ) + 1) : below t.mem (toAddr (topOf s)) n = below s.mem s.s n := by
    rw [toAddr_coe, htop]
    refine below_congr (fun addr haddr => ?_) hn
    have hend := hapart.1
    rw [htop] at hend
    rw [h.mem, Function.update_of_ne (by omega), htop, stacked_low _ haddr]
  have hstep {i w n : ℕ} (hi : (tops s)[i]? = some w) :
      below t.mem (toAddr (topOf s + i + 1)) (n + 1) = w :: below t.mem (toAddr (topOf s + i)) n := by
    rw [below, hget hi, prevAddr_toAddr]
  cases n with
  | zero => rfl
  | succ n =>
      by_cases hb : s.brof = true
      · by_cases ha : s.arof = true
        · rw [if_pos hb, if_pos ha] at htops
          rw [htops] at hn hstep ⊢
          have hn' : n + 1 ≤ (s.s : ℕ) + 1 + 2 := hn
          refine (hstep (i := 1) rfl).trans ?_
          cases n with
          | zero => rw [stack, if_pos ha]; rfl
          | succ n =>
              rw [stack_full ha hb, hstep (i := 0) rfl, Nat.add_zero, hlow (by omega)]
        · rw [if_pos hb, if_neg ha] at htops
          rw [htops] at hn hstep ⊢
          have hn' : n + 1 ≤ (s.s : ℕ) + 1 + 1 := hn
          rw [stack_b (Bool.eq_false_of_not_eq_true ha) hb]
          exact (hstep (i := 0) rfl).trans (congrArg _ (hlow (by omega)))
      · have hb' := Bool.eq_false_of_not_eq_true hb
        by_cases ha : s.arof = true
        · rw [if_neg hb, if_pos ha] at htops
          rw [htops] at hn hstep ⊢
          have hn' : n + 1 ≤ (s.s : ℕ) + 1 + 1 := hn
          rw [stack_a ha hb']
          exact (hstep (i := 0) rfl).trans (congrArg _ (hlow (by omega)))
        · rw [if_neg hb, if_neg ha] at htops
          rw [htops] at hn ⊢
          rw [stack_none (Bool.eq_false_of_not_eq_true ha) hb']
          exact hlow hn

end Load

/-! ### The processor goes on -/

/-- `storeInterrupt(1, 0)`, and `initiate` with the control word that it left. -/
def resume (second : Bool) (s : Cpu) : Cpu :=
  let t := storeInterrupt second true false s
  initiate { t with a := t.mem (incwAddr s), arof := true }

/-- The processor is as it was: in word mode with all of its stack in the memory. -/
structure Resumed (s t : Cpu) : Prop where
  program : t.c = s.c ∧ t.l = s.l ∧ t.prof = false ∧ t.ncsf = true
  pointers : t.f = s.f ∧ t.r = s.r ∧ t.ma = s.ma ∧ t.gh = s.gh ∧ t.kv = s.kv
  flags : t.msff = s.msff ∧ t.salf = s.salf ∧ t.varf = s.varf ∧ t.cwmf = s.cwmf
  word : s.cwmf = false → (t.s : ℕ) = s.s + (tops s).length
    ∧ ∀ n ≤ (s.s : ℕ) + 1 + (tops s).length, stack t n = stack s n
  char : s.cwmf = true → t.s = s.s ∧ t.x = s.x ∧ t.arof = s.arof ∧ t.brof = s.brof
    ∧ (s.arof = true → t.a = s.a) ∧ (s.brof = true → t.b = s.b)
  frame : ∀ addr ≤ (topOf s : ℕ), t.mem addr = s.mem addr

/-- **What is interrupted goes on as it was**: for every contents of the registers, full or not, in word mode and in
character mode, where the words that are pushed end before the last control word. -/
theorem interrupt_resumed (second : Bool) (s : Cpu) (hw : Widths s) (hapart : Apart s) (hchain : Chained s) :
    Resumed s (resume second s) := by
  obtain ⟨hmem, hncsf, hsize⟩ := storeInterrupt_stored hapart hchain
  have ha : (storeInterrupt second true false s).mem (incwAddr s) = incw s := by rw [hmem, Function.update_self]
  rw [resume, ha]
  generalize ht : ({ storeInterrupt second true false s with a := incw s, arof := true } : Cpu) = t
  have hleft : Left s t := by
    rw [← ht]
    exact ⟨hmem, hncsf, hsize⟩
  have hta : t.a = incw s := by rw [← ht]
  have hframe : ∀ addr ≤ (topOf s : ℕ), t.mem addr = s.mem addr := fun addr haddr => by
    have hend := hapart.1
    rw [hleft.mem, Function.update_of_ne (by omega), stacked_low _ haddr]
  have hsaved : saved s = (tops s ++ if s.cwmf = true then [xWord s] else []) ++ [icw s, rcw s s.brof] := rfl
  have hwords {words : List ℕ} (hsaved : saved s = words ++ [icw s, rcw s s.brof]) :
      initiate t = { (if s.cwmf = true then loadTop s.brof (loaded s t words.length) else loaded s t words.length) with
        ncsf := true, prof := false, trof := false } := by
    refine initiate_left hleft hapart hw hta ?_ ?_ ?_
    · rw [hsaved, List.length_append]
      rfl
    · rw [hsaved, List.getElem?_append_right le_rfl, Nat.sub_self]
      rfl
    · rw [hsaved, List.getElem?_append_right (Nat.le_add_right _ 1), Nat.add_sub_cancel_left]
      rfl
  rw [hwords hsaved]
  by_cases hchar : s.cwmf = true
  · rw [if_pos hchar, if_pos hchar]
    obtain ⟨a, b, hload, ha', hb'⟩ := loadTop_left (s := s) (t := loaded s t ((tops s).length + 1))
      ⟨hleft.mem, hleft.ncsf, hleft.size⟩ hapart hw.x_lt hchar rfl
    rw [List.length_append, List.length_singleton, hload]
    exact ⟨⟨rfl, rfl, rfl, rfl⟩, ⟨rfl, rfl, rfl, rfl, rfl⟩, ⟨rfl, rfl, rfl, rfl⟩,
      fun hno => absurd (hchar.symm.trans hno) (by decide), fun _ => ⟨rfl, rfl, rfl, rfl, ha', hb'⟩, hframe⟩
  · rw [if_neg hchar, if_neg hchar, List.append_nil]
    refine ⟨⟨rfl, rfl, rfl, rfl⟩, ⟨rfl, rfl, rfl, rfl, rfl⟩, ⟨rfl, rfl, rfl, rfl⟩, fun _ => ⟨?_, fun n hn => ?_⟩,
      fun hno => absurd hno hchar, hframe⟩
    · have htop : topOf s = s.s := if_neg hchar
      have hlen : (tops s).length ≤ (saved s).length := by
        rw [hsaved, List.length_append, List.length_append]
        omega
      have hend := hapart.1
      have haddr := (incwAddr s).isLt
      rw [htop] at hend
      refine (toAddr_val _).trans ?_
      rw [htop]
      exact Nat.mod_eq_of_lt (by omega)
    · exact (stack_none rfl rfl n).trans (stack_left hleft hapart hchar hn)

/-- A processor in character mode, with both registers full. -/
def strings : Cpu :=
  { a := 5, b := 6, x := 0o1000 <<< 15, p := 0, arof := true, brof := true, prof := true, trof := false, gh := 0o21
    kv := 0o35, ma := 0o4000, s := 0o3000, f := 0o777, r := 0o300, t := 0, c := 0o5000, l := 2, ncsf := true
    salf := true, cwmf := true, msff := true, varf := false, q := 1
    mem := fun addr => if addr = 0o777 then toF 0o776 else if addr = 0o776 then toR 0o2000 else 0
    memsize := 32768, memsize_ge := memsize_small_le, memsize_le := memsize_full }

theorem strings_resumed : Resumed strings (resume false strings) :=
  interrupt_resumed false strings
    ⟨by decide, by decide, by decide, by decide, by decide, by decide, by decide⟩
    ⟨by decide, by decide⟩ fun _ => ⟨by decide, by decide⟩

/-- A processor in word mode whose stack has come into the page of `R`. -/
def inPage : Cpu :=
  { a := 0, b := 0, x := 0, p := 0, arof := false, brof := false, prof := false, trof := false, gh := 0, kv := 0
    ma := 0, s := 0o2006, f := 0, r := 0o2000, t := 0, c := 0o1000, l := 0, ncsf := true, salf := false, cwmf := false
    msff := false, varf := false, q := 1, mem := fun _ => 0, memsize := 32768, memsize_ge := memsize_small_le
    memsize_le := memsize_full }

/-- The last control word is put over the one before there. -/
theorem interrupt_lost : ¬ ∀ s : Cpu, s.ncsf = true → s.trof = false → Widths s → Chained s →
    Resumed s (resume false s) := by
  intro h
  have hc : (resume false inPage).c ≠ inPage.c := by decide
  have hw : Widths inPage := ⟨by decide, by decide, by decide, by decide, by decide, by decide, by decide⟩
  exact hc (h inPage rfl rfl hw fun hno => absurd hno (by decide)).program.1

end Ka10Simh.B5500
