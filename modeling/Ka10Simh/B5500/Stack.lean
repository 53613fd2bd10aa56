import Ka10Simh.B5500.Cpu

/-!
The stack of a processor, whose top may be in the registers.

* `stack`: its items, from the top.
* `Kept`: a function leaves the stack as it is, or nothing is lost when it overflows.
* `stack_kept_iff`: which of the functions keep the stack, and where.
-/

namespace Ka10Simh.B5500

variable {s t u : Cpu} {mem : ℕ → ℕ} {a b : ℕ}

/-! ### Items -/

/-- The words from an address down. -/
def below (mem : ℕ → ℕ) : Addr → ℕ → List ℕ
  | _, 0 => []
  | top, n + 1 => mem top :: below mem (prevAddr top) n

/-- The first items of the stack: `A` when it is full, then `B`, then those in the memory. -/
def belowA (s : Cpu) : ℕ → List ℕ
  | 0 => []
  | n + 1 => if s.brof = true then s.b :: below s.mem s.s n else below s.mem s.s (n + 1)

def stack (s : Cpu) : ℕ → List ℕ
  | 0 => []
  | n + 1 => if s.arof = true then s.a :: belowA s n else belowA s (n + 1)

/-- How far an address is below another. -/
def depth (top addr : Addr) : ℕ := ((top : ℕ) + 2 ^ 15 - addr) % 2 ^ 15

lemma toAddr_val (x : ℕ) : (toAddr x : ℕ) = x % 2 ^ 15 := Nat.and_two_pow_sub_one_eq_mod x 15

lemma nextAddr_val (x : Addr) : (nextAddr x : ℕ) = ((x : ℕ) + 1) % 2 ^ 15 := toAddr_val _

lemma prevAddr_val (x : Addr) : (prevAddr x : ℕ) = ((x : ℕ) + 0xffff) % 2 ^ 15 := toAddr_val _

@[simp] lemma prevAddr_nextAddr (x : Addr) : prevAddr (nextAddr x) = x := by
  have hlt := x.isLt
  refine Fin.ext ?_
  rw [prevAddr_val, nextAddr_val]
  omega

lemma depth_prevAddr {top addr : Addr} (h : 0 < depth top addr) : depth (prevAddr top) addr = depth top addr - 1 := by
  have htop := top.isLt
  have haddr := addr.isLt
  rw [depth] at h ⊢
  rw [depth, prevAddr_val]
  omega

lemma depth_nextAddr (top : Addr) : depth top (nextAddr top) = 2 ^ 15 - 1 := by
  have htop := top.isLt
  rw [depth, nextAddr_val]
  omega

lemma depth_self (top : Addr) : depth top top = 0 := by
  rw [depth]
  omega

/-- A word that is deep enough is not among the first items. -/
lemma below_update {addr : Addr} (v : ℕ) {top : Addr} {n : ℕ} (h : n ≤ depth top addr) :
    below (Function.update mem addr v) top n = below mem top n := by
  induction n generalizing top with
  | zero => rfl
  | succ n ih =>
      have hne : (top : ℕ) ≠ addr := fun heq => by
        rw [Fin.ext heq, depth_self] at h
        omega
      rw [below, below, Function.update_of_ne hne, ih (by rw [depth_prevAddr (by omega)]; omega)]

lemma below_succ (mem : ℕ → ℕ) (top : Addr) (n : ℕ) : below mem top (n + 1) = mem top :: below mem (prevAddr top) n := rfl

/-- A word that is pushed. -/
lemma below_push (v : ℕ) {top : Addr} {n : ℕ} (h : n < 2 ^ 15) :
    below (Function.update mem (nextAddr top) v) (nextAddr top) (n + 1) = v :: below mem top n := by
  rw [below_succ, Function.update_self, prevAddr_nextAddr, below_update v (by rw [depth_nextAddr]; omega)]

/-- A word that the top has been moved over. -/
lemma below_nextAddr (mem : ℕ → ℕ) (top : Addr) (n : ℕ) :
    below mem (nextAddr top) (n + 1) = mem (nextAddr top) :: below mem top n := by
  rw [below_succ, prevAddr_nextAddr]

lemma below_sublist {top : Addr} {m n : ℕ} (h : m ≤ n) : (below mem top m).Sublist (below mem top n) := by
  induction m generalizing top n with
  | zero => exact List.nil_sublist _
  | succ m ih =>
      obtain ⟨n, rfl⟩ : ∃ k, n = k + 1 := ⟨n - 1, by omega⟩
      exact (ih (by omega)).cons_cons _

/-! ### Occupancies -/

lemma stack_full (ha : s.arof = true) (hb : s.brof = true) (n : ℕ) : stack s (n + 2) = s.a :: s.b :: below s.mem s.s n := by
  rw [stack, if_pos ha, belowA, if_pos hb]

lemma stack_a (ha : s.arof = true) (hb : s.brof = false) (n : ℕ) : stack s (n + 1) = s.a :: below s.mem s.s n := by
  rw [stack, if_pos ha]
  cases n with
  | zero => rfl
  | succ n => rw [belowA, if_neg (by rw [hb]; exact Bool.false_ne_true)]

lemma stack_b (ha : s.arof = false) (hb : s.brof = true) (n : ℕ) : stack s (n + 1) = s.b :: below s.mem s.s n := by
  rw [stack, if_neg (by rw [ha]; exact Bool.false_ne_true), belowA, if_pos hb]

lemma stack_none (ha : s.arof = false) (hb : s.brof = false) (n : ℕ) : stack s n = below s.mem s.s n := by
  cases n with
  | zero => rfl
  | succ n =>
      rw [stack, if_neg (by rw [ha]; exact Bool.false_ne_true), belowA, if_neg (by rw [hb]; exact Bool.false_ne_true)]

/-- The first items are fewer of the first items. -/
lemma stack_sublist (s : Cpu) {m n : ℕ} (h : m ≤ n) : (stack s m).Sublist (stack s n) := by
  have hbelowA {m n : ℕ} (h : m ≤ n) : (belowA s m).Sublist (belowA s n) := by
    cases m with
    | zero => exact List.nil_sublist _
    | succ m =>
        obtain ⟨n, rfl⟩ : ∃ k, n = k + 1 := ⟨n - 1, by omega⟩
        rw [belowA, belowA]
        split_ifs
        · exact (below_sublist (by omega)).cons_cons _
        · exact below_sublist h
  cases m with
  | zero => exact List.nil_sublist _
  | succ m =>
      obtain ⟨n, rfl⟩ : ∃ k, n = k + 1 := ⟨n - 1, by omega⟩
      rw [stack, stack]
      split_ifs
      · exact (hbelowA (by omega)).cons_cons _
      · exact hbelowA h

/-! ### Memory cycles of the stack -/

section Cycles

lemma cycle_failed {e : ℕ} (h : ¬ s.Passes (s.address e)) : memoryCycle e s = s.raise invalidAddr := by
  rw [memoryCycle]
  by_cases hsize : s.address e > s.memsize
  · rw [if_pos hsize]
  · rw [if_neg hsize]
    rw [Cpu.Passes, not_and_or, Classical.not_imp] at h
    rcases h with hno | ⟨hncsf, hlow⟩
    · exact absurd (Nat.le_of_not_gt hsize) hno
    · rw [if_pos ⟨hncsf, Nat.lt_of_not_le hlow⟩]

/-- A cycle whose address is let pass. -/
lemma cycle_passed {e : ℕ} (h : s.Passes (s.address e)) :
    memoryCycle e s
      = if e &&& 0o20 ≠ 0 then { s with p := s.mem (s.address e), prof := true }
        else if e &&& 0o10 ≠ 0 then
          { s with mem := Function.update s.mem (s.address e) (if e &&& 1 ≠ 0 then s.b else s.a) }
        else if e = 6 then { s with b := s.mem (s.address e), ma := ff (s.mem (s.address e)) }
        else if e &&& 1 ≠ 0 then { s with b := s.mem (s.address e), brof := true }
        else { s with a := s.mem (s.address e), arof := true } := by
  rw [memoryCycle]
  rw [if_neg (Nat.not_lt.mpr h.1), if_neg fun hlow => absurd (h.2 hlow.1) (Nat.not_le.mpr hlow.2)]

lemma cycle_storeB (h : s.Passes s.s) : memoryCycle 0o13 s = { s with mem := Function.update s.mem s.s s.b } := cycle_passed h
lemma cycle_storeA (h : s.Passes s.s) : memoryCycle 0o12 s = { s with mem := Function.update s.mem s.s s.a } := cycle_passed h
lemma cycle_loadB (h : s.Passes s.s) : memoryCycle 3 s = { s with b := s.mem s.s, brof := true } := cycle_passed h
lemma cycle_loadA (h : s.Passes s.s) : memoryCycle 2 s = { s with a := s.mem s.s, arof := true } := cycle_passed h
lemma cycle_putB (h : s.Passes s.ma) : memoryCycle 0o15 s = { s with mem := Function.update s.mem s.ma s.b } := cycle_passed h
lemma cycle_putA (h : s.Passes s.ma) : memoryCycle 0o14 s = { s with mem := Function.update s.mem s.ma s.a } := cycle_passed h

end Cycles

/-! ### What is kept -/

/-- The same items; all of them still. -/
def Same (s t : Cpu) : Prop := ∀ n ≤ 2 ^ 15 - 2, stack t n = stack s n
def Lossless (s t : Cpu) : Prop := ∀ n ≤ 2 ^ 15 - 2, (stack s n).Sublist (stack t (n + 2))

/-- No error. -/
def clear (s : Cpu) : Cpu := { s with q := 0 }

/-- What comes of a function, called with no error before: where the addresses are valid the stack stays and the
registers are occupied as they should be, or it overflows and nothing is lost. -/
def Kept (f : Cpu → Cpu) (occupied : Cpu → Prop) (s : Cpu) : Prop :=
  let t := f (clear s)
  t.q &&& invalidAddr = 0 → if t.q &&& stkOverfl = 0 then Same s t ∧ occupied t else Lossless s t

/-- The same of `save_tos`, which takes the top away and puts it into the memory. -/
def Saved (s : Cpu) : Prop :=
  let t := saveTos (clear s)
  t.q &&& invalidAddr = 0 →
    if t.q &&& stkOverfl = 0 then
      ∃ top, stack s 1 = [top] ∧ t.mem = Function.update s.mem s.ma top
        ∧ ∀ n ≤ 2 ^ 15 - 2, stack t n = (stack { s with mem := t.mem } (n + 1)).tail
    else Lossless s t

/-- Other words in the registers and in the memory. -/
def fill (a b : ℕ) (mem : ℕ → ℕ) (s : Cpu) : Cpu := { s with a := a, b := b, mem := mem }

/-- An address was not valid. -/
def Invalid (s : Cpu) : Prop := s.q &&& invalidAddr ≠ 0

lemma raise_invalid (s : Cpu) : Invalid (s.raise invalidAddr) := by
  rw [Invalid, Cpu.raise, Nat.and_or_distrib_right, Nat.and_self, Ne, Nat.or_eq_zero_iff]
  exact fun h => absurd h.2 (by decide)

lemma Invalid.raise (h : Invalid s) (e : ℕ) : Invalid (s.raise e) := by
  rw [Invalid, Cpu.raise, Nat.and_or_distrib_right, Ne, Nat.or_eq_zero_iff]
  exact fun hno => h hno.1

/-- Where the stack is does not matter for it. -/
lemma Invalid.moved {top : Addr} (h : Invalid s) : Invalid { s with s := top } := by
  rw [Invalid]
  exact h

/-- It stays so. -/
lemma Invalid.cycle (h : Invalid s) (e : ℕ) : Invalid (memoryCycle e s) := by
  by_cases hpass : s.Passes (s.address e)
  · rw [cycle_passed hpass]
    split_ifs <;> exact h
  · rw [cycle_failed hpass]
    exact h.raise _

lemma Lossless.of_same (h : Same s t) : Lossless s t := fun n hn => by
  rw [← h n hn]
  exact stack_sublist t (by omega)

/-- The stack with a word between the registers and those of the memory. -/
lemma stack_moved (s : Cpu) (q n : ℕ) : (stack s n).Sublist (stack { s with s := nextAddr s.s, q := q } (n + 1)) := by
  have hbelow (m : ℕ) : (below s.mem s.s m).Sublist (below s.mem (nextAddr s.s) (m + 1)) := by
    rw [below_nextAddr]
    exact List.sublist_cons_self _ _
  generalize ht : ({ s with s := nextAddr s.s, q := q } : Cpu) = t
  obtain ⟨hA, hB, hM, hS, hAr, hBr⟩ : t.a = s.a ∧ t.b = s.b ∧ t.mem = s.mem ∧ t.s = nextAddr s.s ∧ t.arof = s.arof
      ∧ t.brof = s.brof := by
    rw [← ht]
    exact ⟨rfl, rfl, rfl, rfl, rfl, rfl⟩
  cases ha : s.arof <;> cases hb : s.brof
  · rw [stack_none ha hb, stack_none (hAr.trans ha) (hBr.trans hb), hM, hS]
    exact hbelow n
  · cases n with
    | zero => exact List.nil_sublist _
    | succ n =>
        rw [stack_b ha hb, stack_b (hAr.trans ha) (hBr.trans hb), hB, hM, hS]
        exact (hbelow n).cons_cons _
  · cases n with
    | zero => exact List.nil_sublist _
    | succ n =>
        rw [stack_a ha hb, stack_a (hAr.trans ha) (hBr.trans hb), hA, hM, hS]
        exact (hbelow n).cons_cons _
  · match n with
    | 0 => exact List.nil_sublist _
    | 1 =>
        rw [stack_full (hAr.trans ha) (hBr.trans hb), stack, if_pos ha, hA]
        exact (List.nil_sublist _).cons_cons _
    | n + 2 =>
        rw [stack_full ha hb, stack_full (hAr.trans ha) (hBr.trans hb), hA, hB, hM, hS]
        exact ((hbelow n).cons_cons _).cons_cons _

/-- The stack with `B` in the memory. -/
lemma same_pushB (hb : s.brof = true) {n : ℕ} (hn : n ≤ 2 ^ 15) :
    stack { s with s := nextAddr s.s, mem := Function.update s.mem (nextAddr s.s) s.b, brof := false } n = stack s n := by
  generalize ht : ({ s with s := nextAddr s.s, mem := Function.update s.mem (nextAddr s.s) s.b, brof := false } : Cpu) = t
  obtain ⟨hA, hM, hS, hAr, hBr⟩ : t.a = s.a ∧ t.mem = Function.update s.mem (nextAddr s.s) s.b ∧ t.s = nextAddr s.s
      ∧ t.arof = s.arof ∧ t.brof = false := by
    rw [← ht]
    exact ⟨rfl, rfl, rfl, rfl, rfl⟩
  cases ha : s.arof with
  | false =>
      rw [stack_none (hAr.trans ha) hBr, hM, hS]
      cases n with
      | zero => rfl
      | succ n => rw [stack_b ha hb, below_push _ (by omega)]
  | true =>
      match n with
      | 0 => rfl
      | 1 => rw [stack_a (hAr.trans ha) hBr, stack, if_pos ha, hA]; rfl
      | n + 2 => rw [stack_a (hAr.trans ha) hBr, stack_full ha hb, hA, hM, hS, below_push _ (by omega)]

/-- The stack with `A` in the memory, when `B` is empty. -/
lemma same_pushA (ha : s.arof = true) (hb : s.brof = false) {n : ℕ} (hn : n ≤ 2 ^ 15) :
    stack { s with s := nextAddr s.s, mem := Function.update s.mem (nextAddr s.s) s.a, arof := false } n = stack s n := by
  generalize ht : ({ s with s := nextAddr s.s, mem := Function.update s.mem (nextAddr s.s) s.a, arof := false } : Cpu) = t
  obtain ⟨hM, hS, hAr, hBr⟩ : t.mem = Function.update s.mem (nextAddr s.s) s.a ∧ t.s = nextAddr s.s
      ∧ t.arof = false ∧ t.brof = s.brof := by
    rw [← ht]
    exact ⟨rfl, rfl, rfl, rfl⟩
  rw [stack_none hAr (hBr.trans hb), hM, hS]
  cases n with
  | zero => rfl
  | succ n => rw [stack_a ha hb, below_push _ (by omega)]

/-- The stack with `A` moved to `B`, and with `B` moved to `A`. -/
lemma same_moveA (ha : s.arof = true) (hb : s.brof = false) (n : ℕ) :
    stack { s with b := s.a, arof := false, brof := true } n = stack s n := by
  cases n with
  | zero => rfl
  | succ n => rw [stack_a ha hb]; rfl

lemma same_moveB (ha : s.arof = false) (hb : s.brof = true) (n : ℕ) :
    stack { s with a := s.b, arof := true, brof := false } n = stack s n := by
  cases n with
  | zero => rfl
  | succ n =>
      rw [stack_b ha hb]
      cases n <;> rfl

/-- The stack with a word read to `A` or to `B`. -/
lemma same_readA (ha : s.arof = false) (hb : s.brof = false) (n : ℕ) :
    stack { s with a := s.mem s.s, arof := true, s := prevAddr s.s } n = stack s n := by
  generalize ht : ({ s with a := s.mem s.s, arof := true, s := prevAddr s.s } : Cpu) = t
  obtain ⟨hA, hM, hS, hAr, hBr⟩ : t.a = s.mem s.s ∧ t.mem = s.mem ∧ t.s = prevAddr s.s ∧ t.arof = true
      ∧ t.brof = s.brof := by
    rw [← ht]
    exact ⟨rfl, rfl, rfl, rfl, rfl⟩
  rw [stack_none ha hb]
  cases n with
  | zero => rfl
  | succ n => rw [stack_a hAr (hBr.trans hb), below_succ, hA, hM, hS]

lemma same_readB (hb : s.brof = false) (n : ℕ) :
    stack { s with b := s.mem s.s, brof := true, s := prevAddr s.s } n = stack s n := by
  generalize ht : ({ s with b := s.mem s.s, brof := true, s := prevAddr s.s } : Cpu) = t
  obtain ⟨hA, hB, hM, hS, hAr, hBr⟩ : t.a = s.a ∧ t.b = s.mem s.s ∧ t.mem = s.mem ∧ t.s = prevAddr s.s
      ∧ t.arof = s.arof ∧ t.brof = true := by
    rw [← ht]
    exact ⟨rfl, rfl, rfl, rfl, rfl, rfl⟩
  cases ha : s.arof with
  | false =>
      rw [stack_none ha hb]
      cases n with
      | zero => rfl
      | succ n => rw [stack_b (hAr.trans ha) hBr, below_succ, hB, hM, hS]
  | true =>
      match n with
      | 0 => rfl
      | 1 => rw [stack_a ha hb, stack, if_pos (hAr.trans ha), hA]; rfl
      | n + 2 => rw [stack_a ha hb, stack_full (hAr.trans ha) hBr, below_succ, hA, hB, hM, hS]

/-! ### The functions -/

/-- What `B_empty` does. -/
lemma bEmpty_cases (s : Cpu) :
    s.brof = false ∧ bEmpty s = s
      ∨ s.brof = true ∧ ({ s with s := nextAddr s.s } : Cpu).Overflows
        ∧ bEmpty s = ({ s with s := nextAddr s.s } : Cpu).raise stkOverfl
      ∨ s.brof = true ∧ bEmpty s
        = { s with s := nextAddr s.s, mem := Function.update s.mem (nextAddr s.s) s.b, brof := false }
      ∨ Invalid (bEmpty s) := by
  rw [bEmpty]
  by_cases hb : s.brof = true
  · rw [if_pos hb]
    simp only
    by_cases hover : ({ s with s := nextAddr s.s } : Cpu).Overflows
    · rw [if_pos hover]
      exact .inr (.inl ⟨hb, hover, rfl⟩)
    · rw [if_neg hover]
      by_cases hpass : ({ s with s := nextAddr s.s } : Cpu).Passes (nextAddr s.s)
      · rw [cycle_storeB hpass]
        exact .inr (.inr (.inl ⟨hb, rfl⟩))
      · rw [cycle_failed hpass]
        exact .inr (.inr (.inr (raise_invalid _)))
  · rw [if_neg hb]
    exact .inl ⟨Bool.eq_false_iff.mpr hb, rfl⟩

/-- What a read from the stack does. -/
lemma readTop_cases (s : Cpu) (e : ℕ) (he : e = 2 ∨ e = 3) :
    s.Overflows ∧ readTop e s = s.raise stkOverfl
      ∨ e = 2 ∧ readTop e s = { s with a := s.mem s.s, arof := true, s := prevAddr s.s }
      ∨ e = 3 ∧ readTop e s = { s with b := s.mem s.s, brof := true, s := prevAddr s.s }
      ∨ Invalid (readTop e s) := by
  rw [readTop]
  by_cases hover : s.Overflows
  · exact .inl ⟨hover, if_pos hover⟩
  · rw [if_neg hover]
    by_cases hpass : s.Passes s.s
    · rcases he with rfl | rfl
      · rw [cycle_loadA hpass]
        exact .inr (.inl ⟨rfl, rfl⟩)
      · rw [cycle_loadB hpass]
        exact .inr (.inr (.inl ⟨rfl, rfl⟩))
    · have hfailed : ¬ s.Passes (s.address e) := by
        rcases he with rfl | rfl <;> exact hpass
      rw [cycle_failed hfailed]
      exact .inr (.inr (.inr (raise_invalid s).moved))

section Calls

variable {f : Cpu → Cpu} {occupied : Cpu → Prop}

lemma Kept.same (h : f (clear s) = t) (hq : t.q = 0) (hsame : ∀ n ≤ 2 ^ 15 - 2, stack t n = stack s n)
    (hocc : occupied t) : Kept f occupied s := by
  intro _
  rw [h, hq, if_pos (Nat.zero_and _)]
  exact ⟨hsame, hocc⟩

lemma Kept.over (h : f (clear s) = t.raise stkOverfl) (hq : t.q = 0) (hless : Lossless s (t.raise stkOverfl)) :
    Kept f occupied s := by
  intro _
  have hover : (t.raise stkOverfl).q &&& stkOverfl ≠ 0 := by
    rw [Cpu.raise, hq]
    show (0 ||| stkOverfl) &&& stkOverfl ≠ 0
    decide
  rw [h, if_neg hover]
  exact hless

lemma Kept.invalid (h : Invalid (f (clear s))) : Kept f occupied s := fun hno => absurd hno h

end Calls

lemma kept_bEmpty (s : Cpu) : Kept bEmpty (·.brof = false) s := by
  obtain ⟨hb, h⟩ | ⟨-, -, h⟩ | ⟨hb, h⟩ | h := bEmpty_cases (clear s)
  · exact .same h rfl (fun _ _ => rfl) hb
  · exact .over h rfl fun n _ => (stack_moved s _ n).trans (stack_sublist _ (by omega))
  · exact .same h rfl (fun n hn => same_pushB (s := clear s) hb (by omega)) rfl
  · exact .invalid h

lemma kept_bValidAndA (s : Cpu) : Kept bValidAndA (·.brof = true) s := by
  by_cases hb : s.brof = false
  · have hcall : bValidAndA (clear s) = readTop 3 (clear s) := if_pos hb
    obtain ⟨-, h⟩ | ⟨hno, -⟩ | ⟨-, h⟩ | h := readTop_cases (clear s) 3 (.inr rfl)
    · exact .over (hcall.trans h) rfl (.of_same fun _ _ => rfl)
    · exact absurd hno (by decide)
    · exact .same (hcall.trans h) rfl (fun n _ => same_readB (s := clear s) hb n) rfl
    · exact .invalid (by rw [hcall]; exact h)
  · exact .same (if_neg hb) rfl (fun _ _ => rfl) (Bool.eq_true_of_not_eq_false hb)

lemma kept_aValid (s : Cpu) : Kept aValid (·.arof = true) s := by
  by_cases ha : s.arof = false
  · by_cases hb : s.brof = true
    · have hcall : aValid (clear s) = { clear s with a := s.b, arof := true, brof := false } :=
        (if_pos ha).trans (if_pos hb)
      exact .same hcall rfl (fun n _ => same_moveB (s := clear s) ha hb n) rfl
    · have hcall : aValid (clear s) = readTop 2 (clear s) := (if_pos ha).trans (if_neg hb)
      obtain ⟨-, h⟩ | ⟨-, h⟩ | ⟨hno, -⟩ | h := readTop_cases (clear s) 2 (.inl rfl)
      · exact .over (hcall.trans h) rfl (.of_same fun _ _ => rfl)
      · exact .same (hcall.trans h) rfl
          (fun n _ => same_readA (s := clear s) ha (Bool.eq_false_iff.mpr hb) n) rfl
      · exact absurd hno (by decide)
      · exact .invalid (by rw [hcall]; exact h)
  · exact .same (if_neg ha) rfl (fun _ _ => rfl) (Bool.eq_true_of_not_eq_false ha)

lemma Invalid.readTop (h : Invalid s) (e : ℕ) : Invalid (readTop e s) := by
  rw [B5500.readTop]
  split_ifs
  · exact h.raise _
  · exact (h.cycle e).moved

lemma raise_raise (s : Cpu) (e : ℕ) : (s.raise e).raise e = s.raise e := by
  rw [Cpu.raise, Cpu.raise, Nat.or_assoc, Nat.or_self]

/-- `B` read, when what is before it keeps the stack. -/
lemma kept_readB {f : Cpu → Cpu} {occupied : Cpu → Prop} (hcall : f (clear s) = readTop 3 u) (hq : u.q = 0)
    (hb : u.brof = false) (hsame : ∀ n ≤ 2 ^ 15 - 2, stack u n = stack s n)
    (hocc : occupied { u with b := u.mem u.s, brof := true, s := prevAddr u.s }) : Kept f occupied s := by
  obtain ⟨-, h⟩ | ⟨hno, -⟩ | ⟨-, h⟩ | h := readTop_cases u 3 (.inr rfl)
  · exact .over (hcall.trans h) hq (.of_same hsame)
  · exact absurd hno (by decide)
  · exact .same (hcall.trans h) hq (fun n hn => (same_readB hb n).trans (hsame n hn)) hocc
  · exact .invalid (by rw [hcall]; exact h)

/-- `AB_valid` after `A_valid`, and `B_valid` after `A_empty`. -/
lemma abValid_of (h : aValid t = u) (hb : u.brof = false) : abValid t = readTop 3 u := by rw [abValid, h, if_pos hb]
lemma abValid_full (h : aValid t = u) (hb : u.brof = true) : abValid t = u := by
  rw [abValid, h, if_neg (by rw [hb]; decide)]
lemma bValid_of (h : aEmpty t = u) (hb : u.brof = false) : bValid t = readTop 3 u := by rw [bValid, h, if_pos hb]
lemma bValid_full (h : aEmpty t = u) (hb : u.brof = true) : bValid t = u := by
  rw [bValid, h, if_neg (by rw [hb]; decide)]

lemma kept_abValid (s : Cpu) : Kept abValid (fun t => t.arof = true ∧ t.brof = true) s := by
  by_cases ha : s.arof = false
  · by_cases hb : s.brof = true
    · -- `B` is moved to `A` before it is read
      have hvalid : aValid (clear s) = { clear s with a := s.b, arof := true, brof := false } :=
        (if_pos ha).trans (if_pos hb)
      exact kept_readB (abValid_of hvalid rfl) rfl rfl (fun n _ => same_moveB (s := clear s) ha hb n) ⟨rfl, rfl⟩
    · have hb' : s.brof = false := Bool.eq_false_iff.mpr hb
      have hvalid : aValid (clear s) = readTop 2 (clear s) := (if_pos ha).trans (if_neg hb)
      obtain ⟨hover, h⟩ | ⟨-, h⟩ | ⟨hno, -⟩ | h := readTop_cases (clear s) 2 (.inl rfl)
      · have hread : readTop 3 ((clear s).raise stkOverfl) = ((clear s).raise stkOverfl).raise stkOverfl := if_pos hover
        have hcall := (abValid_of (hvalid.trans h) hb').trans (hread.trans (raise_raise _ _))
        exact .over hcall rfl (.of_same fun _ _ => rfl)
      · exact kept_readB (abValid_of (hvalid.trans h) hb') rfl hb' (fun n _ => same_readA (s := clear s) ha hb' n) ⟨rfl, rfl⟩
      · exact absurd hno (by decide)
      · refine .invalid ?_
        rw [abValid, hvalid]
        split_ifs
        · exact h.readTop 3
        · exact h
  · have ha' : s.arof = true := Bool.eq_true_of_not_eq_false ha
    have hvalid : aValid (clear s) = clear s := if_neg ha
    by_cases hb : s.brof = false
    · exact kept_readB (abValid_of hvalid hb) rfl hb (fun _ _ => rfl) ⟨ha', rfl⟩
    · have hb' : s.brof = true := Bool.eq_true_of_not_eq_false hb
      exact .same (abValid_full hvalid hb') rfl (fun _ _ => rfl) ⟨ha', hb'⟩

/-- `A_empty` puts `A` into `B` although `B` has not been saved. -/
def Drops (s : Cpu) : Prop := s.arof = true ∧ s.brof = true ∧ ({ s with s := nextAddr s.s } : Cpu).Overflows

lemma kept_aEmpty (hno : ¬ Drops s) : Kept aEmpty (·.arof = false) s := by
  by_cases ha : s.arof = true
  · have hcall : aEmpty (clear s)
        = { bEmpty (clear s) with b := (bEmpty (clear s)).a, arof := false, brof := true } := if_pos ha
    obtain ⟨hb, h⟩ | ⟨hb, hover, -⟩ | ⟨hb, h⟩ | h := bEmpty_cases (clear s)
    · rw [h] at hcall
      exact .same hcall rfl (fun n _ => same_moveA (s := clear s) ha hb n) rfl
    · exact absurd ⟨ha, hb, hover⟩ hno
    · rw [h] at hcall
      refine .same hcall rfl (fun n hn => ?_) rfl
      have hpush := same_pushB (s := clear s) hb (n := n) (by omega)
      exact (same_moveA (s := { clear s with
        s := nextAddr s.s, mem := Function.update s.mem (nextAddr s.s) s.b, brof := false }) ha rfl n).trans hpush
    · exact .invalid (by rw [hcall]; exact h)
  · exact .same (if_neg ha) rfl (fun _ _ => rfl) (Bool.eq_false_iff.mpr ha)

lemma aEmpty_brof (ha : s.arof = true) : (aEmpty s).brof = true := by rw [aEmpty, if_pos ha]

lemma kept_bValid (hno : ¬ Drops s) : Kept bValid (fun t => t.arof = false ∧ t.brof = true) s := by
  by_cases ha : s.arof = true
  · have hbrof : (aEmpty (clear s)).brof = true := aEmpty_brof ha
    have hcall : bValid (clear s) = aEmpty (clear s) := bValid_full rfl hbrof
    intro hinv
    rw [hcall] at hinv ⊢
    have hkept := kept_aEmpty hno hinv
    split_ifs at hkept ⊢
    · exact ⟨hkept.1, hkept.2, hbrof⟩
    · exact hkept
  · have ha' : s.arof = false := Bool.eq_false_iff.mpr ha
    have hempty : aEmpty (clear s) = clear s := if_neg ha
    by_cases hb : s.brof = false
    · exact kept_readB (bValid_of hempty hb) rfl hb (fun _ _ => rfl) ⟨ha', rfl⟩
    · have hb' : s.brof = true := Bool.eq_true_of_not_eq_false hb
      exact .same (bValid_full hempty hb') rfl (fun _ _ => rfl) ⟨ha', hb'⟩

/-- `AB_empty` has gone over a word with `B` in the register, and puts `A` below it. -/
def Swaps (s : Cpu) : Prop :=
  s.arof = true ∧ s.brof = true ∧ ({ s with s := nextAddr s.s } : Cpu).Overflows
    ∧ ¬ ({ s with s := nextAddr (nextAddr s.s) } : Cpu).Overflows ∧ s.Passes (nextAddr (nextAddr s.s))

/-- The part of `AB_empty` that is for `A`. -/
lemma abEmpty_cases (s : Cpu) :
    (bEmpty s).arof = false ∧ abEmpty s = bEmpty s
      ∨ (bEmpty s).arof = true ∧ ({ bEmpty s with s := nextAddr (bEmpty s).s } : Cpu).Overflows
        ∧ abEmpty s = ({ bEmpty s with s := nextAddr (bEmpty s).s } : Cpu).raise stkOverfl
      ∨ (bEmpty s).arof = true ∧ ¬ ({ bEmpty s with s := nextAddr (bEmpty s).s } : Cpu).Overflows
        ∧ (bEmpty s).Passes (nextAddr (bEmpty s).s)
        ∧ abEmpty s = { bEmpty s with
            s := nextAddr (bEmpty s).s
            mem := Function.update (bEmpty s).mem (nextAddr (bEmpty s).s) (bEmpty s).a
            arof := false }
      ∨ Invalid (abEmpty s) := by
  rw [abEmpty]
  generalize bEmpty s = t
  by_cases ha : t.arof = true
  · simp only
    rw [if_pos ha]
    by_cases hover : ({ t with s := nextAddr t.s } : Cpu).Overflows
    · rw [if_pos hover]
      exact .inr (.inl ⟨ha, hover, rfl⟩)
    · rw [if_neg hover]
      by_cases hpass : ({ t with s := nextAddr t.s } : Cpu).Passes (nextAddr t.s)
      · rw [cycle_storeA hpass]
        exact .inr (.inr (.inl ⟨ha, hover, hpass, rfl⟩))
      · rw [cycle_failed hpass]
        exact .inr (.inr (.inr (raise_invalid _)))
  · simp only
    rw [if_neg ha]
    exact .inl ⟨Bool.eq_false_iff.mpr ha, rfl⟩

lemma Invalid.abEmpty (h : Invalid (bEmpty s)) : Invalid (abEmpty s) := by
  obtain ⟨-, heq⟩ | ⟨-, -, heq⟩ | ⟨-, -, -, heq⟩ | hinv := abEmpty_cases s
  · rw [heq]
    exact h
  · rw [heq]
    exact Invalid.raise (s := { B5500.bEmpty s with s := nextAddr (B5500.bEmpty s).s }) h _
  · rw [heq]
    exact h
  · exact hinv

/-- The top moved over a word when `B` is empty, and `A` is put there or not. -/
lemma kept_abEmpty_of (hu : bEmpty (clear s) = u) (hq : u.q = 0) (hb : u.brof = false)
    (hsame : ∀ n ≤ 2 ^ 15 - 2, stack u n = stack s n) :
    Kept abEmpty (fun t => t.arof = false ∧ t.brof = false) s := by
  have hcases := abEmpty_cases (clear s)
  rw [hu] at hcases
  obtain ⟨ha, heq⟩ | ⟨-, -, heq⟩ | ⟨ha, -, -, heq⟩ | hinv := hcases
  · exact .same heq hq hsame ⟨ha, hb⟩
  · refine .over heq hq fun n hn => ?_
    rw [← hsame n hn]
    exact (stack_moved u _ n).trans (stack_sublist _ (by omega))
  · exact .same heq hq (fun n hn => (same_pushA ha hb (by omega)).trans (hsame n hn)) ⟨rfl, hb⟩
  · exact .invalid hinv

lemma kept_abEmpty (hno : ¬ Swaps s) : Kept abEmpty (fun t => t.arof = false ∧ t.brof = false) s := by
  obtain ⟨hb, h⟩ | ⟨hb, hover, h⟩ | ⟨hb, h⟩ | h := bEmpty_cases (clear s)
  · exact kept_abEmpty_of h rfl hb fun _ _ => rfl
  · -- the word of `B` has not been written
    have hcases := abEmpty_cases (clear s)
    rw [h] at hcases
    obtain ⟨-, heq⟩ | ⟨-, -, heq⟩ | ⟨ha, hnext, hpass, -⟩ | hinv := hcases
    · exact .over heq rfl fun n _ => (stack_moved s _ n).trans (stack_sublist _ (by omega))
    · have heq' : abEmpty (clear s)
          = ({ clear s with s := nextAddr (nextAddr s.s) } : Cpu).raise stkOverfl := 
        heq.trans (raise_raise { clear s with s := nextAddr (nextAddr s.s) } stkOverfl)
      refine .over heq' rfl fun n _ => ?_
      have hfirst := stack_moved s 0 n
      exact hfirst.trans (stack_moved { s with s := nextAddr s.s, q := 0 } _ (n + 1))
    · exact absurd ⟨ha, hb, hover, hnext, hpass⟩ hno
    · exact .invalid hinv
  · exact kept_abEmpty_of h rfl rfl fun n hn => same_pushB (s := clear s) hb (by omega)
  · exact .invalid h.abEmpty

/-- `save_tos` has found nothing to read, and stores what is left in `A`. -/
def Clobbers (s : Cpu) : Prop :=
  s.arof = false ∧ s.brof = false ∧ s.Overflows ∧ s.Passes s.ma ∧ depth s.s s.ma < 2 ^ 15 - 2

lemma Invalid.putA (h : Invalid s) : Invalid { memoryCycle 0o14 s with arof := false } := h.cycle 0o14

lemma Saved.invalid (h : Invalid (saveTos (clear s))) : Saved s := fun hno => absurd hno h

/-- The top is in the memory, and the rest is as it was. -/
lemma Saved.same {top : ℕ} (h : saveTos (clear s) = t) (hq : t.q = 0) (htop : stack s 1 = [top])
    (hmem : t.mem = Function.update s.mem s.ma top)
    (hrest : ∀ n ≤ 2 ^ 15 - 2, stack t n = (stack { s with mem := t.mem } (n + 1)).tail) : Saved s := by
  intro _
  rw [h, hq, if_pos (Nat.zero_and _)]
  exact ⟨top, htop, hmem, hrest⟩

lemma Saved.over (h : saveTos (clear s) = t) (hq : t.q = stkOverfl) (hless : Lossless s t) : Saved s := by
  intro _
  have hover : ¬ t.q &&& stkOverfl = 0 := by
    rw [hq]
    decide
  rw [h, if_neg hover]
  exact hless

lemma saved_of (hno : ¬ Clobbers s) : Saved s := by
  by_cases ha : s.arof = true
  · -- `A` is the top
    have hcall : saveTos (clear s) = { memoryCycle 0o14 (clear s) with arof := false } := if_pos ha
    by_cases hpass : (clear s).Passes s.ma
    · rw [cycle_putA hpass] at hcall
      refine .same hcall rfl ?_ rfl fun n _ => ?_
      · rw [stack, if_pos ha]
        rfl
      · rw [stack, if_pos ha, List.tail_cons]
        cases n <;> rfl
    · refine .invalid ?_
      rw [hcall, cycle_failed hpass]
      exact raise_invalid _
  · have ha' : s.arof = false := Bool.eq_false_iff.mpr ha
    by_cases hb : s.brof = true
    · have hcall : saveTos (clear s) = { memoryCycle 0o15 (clear s) with brof := false } := (if_neg ha).trans (if_pos hb)
      by_cases hpass : (clear s).Passes s.ma
      · rw [cycle_putB hpass] at hcall
        refine .same hcall rfl ?_ rfl fun n _ => ?_
        · rw [stack_b ha' hb]
          rfl
        · have hstack : stack { s with mem := Function.update s.mem s.ma s.b } (n + 1)
              = s.b :: below (Function.update s.mem s.ma s.b) s.s n :=
            stack_b (s := { s with mem := Function.update s.mem s.ma s.b }) ha' hb n
          have hrest := stack_none (s := { clear s with mem := Function.update s.mem s.ma s.b, brof := false }) ha' rfl n
          exact hrest.trans (congrArg List.tail hstack).symm
      · refine .invalid ?_
        rw [hcall, cycle_failed hpass]
        exact raise_invalid _
    · have hb' : s.brof = false := Bool.eq_false_iff.mpr hb
      have hvalid : aValid (clear s) = readTop 2 (clear s) := (if_pos ha').trans (if_neg hb)
      have hcall : saveTos (clear s) = { memoryCycle 0o14 (readTop 2 (clear s)) with arof := false } :=
        ((if_neg ha).trans (if_neg hb)).trans (by rw [hvalid])
      obtain ⟨hover, h⟩ | ⟨-, h⟩ | ⟨hno, -⟩ | h := readTop_cases (clear s) 2 (.inl rfl)
      · rw [h] at hcall
        by_cases hpass : ((clear s).raise stkOverfl).Passes s.ma
        · rw [cycle_putA hpass] at hcall
          have hdeep : 2 ^ 15 - 2 ≤ depth s.s s.ma :=
            Nat.le_of_not_lt fun hlt => hno ⟨ha', hb', hover, hpass, hlt⟩
          refine .over hcall (by show 0 ||| stkOverfl = stkOverfl; decide) fun n hn => ?_
          have hold : stack s n = below (Function.update s.mem s.ma s.a) s.s n := by
            rw [stack_none ha' hb', below_update _ (hn.trans hdeep)]
          rw [hold]
          refine (below_sublist (by omega : n ≤ n + 2)).trans ?_
          exact (stack_none (s := { (clear s).raise stkOverfl with
            mem := Function.update s.mem s.ma s.a, arof := false }) rfl hb' (n + 2)) ▸ List.Sublist.refl _
        · refine .invalid ?_
          rw [hcall, cycle_failed hpass]
          exact raise_invalid _
      · rw [h] at hcall
        by_cases hpass : ({ clear s with a := s.mem s.s, arof := true, s := prevAddr s.s } : Cpu).Passes s.ma
        · have hput := cycle_putA hpass
          have hcall' := hcall.trans (congrArg (fun t : Cpu => { t with arof := false }) hput)
          refine .same hcall' rfl ?_ rfl fun n _ => ?_
          · rw [stack_none ha' hb']
            rfl
          · have hstack : stack { s with mem := Function.update s.mem s.ma (s.mem s.s) } (n + 1)
                = Function.update s.mem s.ma (s.mem s.s) s.s
                  :: below (Function.update s.mem s.ma (s.mem s.s)) (prevAddr s.s) n :=
              stack_none (s := { s with mem := Function.update s.mem s.ma (s.mem s.s) }) ha' hb' (n + 1)
            have hrest := stack_none (s := { clear s with
              a := s.mem s.s, mem := Function.update s.mem s.ma (s.mem s.s), arof := false, s := prevAddr s.s }) rfl hb' n
            exact hrest.trans (congrArg List.tail hstack).symm
        · refine .invalid ?_
          rw [hcall]
          have hfailed := cycle_failed (e := 0o14) hpass
          exact (congrArg Invalid (congrArg (fun t : Cpu => { t with arof := false }) hfailed)).mpr (raise_invalid _)
      · exact absurd hno (by decide)
      · refine .invalid ?_
        rw [hcall]
        exact h.putA

/-! ### What is lost -/

lemma Kept.lossless {f : Cpu → Cpu} {occupied : Cpu → Prop} (hk : Kept f occupied s) (h : f (clear s) = t)
    (hq : t.q = stkOverfl) : Lossless s t := by
  have hkept := hk (by rw [h, hq]; decide)
  rwa [h, hq, if_neg (by decide)] at hkept

lemma Saved.lossless (hk : Saved s) (h : saveTos (clear s) = t) (hq : t.q = stkOverfl) : Lossless s t := by
  have hsaved := hk (by rw [h, hq]; decide)
  rwa [h, hq, if_neg (by decide)] at hsaved

lemma below_zero (top : Addr) (n : ℕ) : below (fun _ => 0) top n = List.replicate n 0 := by
  induction n generalizing top with
  | zero => rfl
  | succ n ih => rw [below, ih, List.replicate_succ]

/-- The two words in the registers, above an empty memory. -/
lemma stack_fill (ha : s.arof = true) (hb : s.brof = true) : stack (fill 1 2 (fun _ => 0) s) 2 = [1, 2] :=
  stack_full (s := fill 1 2 (fun _ => 0) s) ha hb 0

lemma drops_call (h : Drops s) {a b : ℕ} {mem : ℕ → ℕ} : aEmpty (clear (fill a b mem s))
    = { clear (fill a b mem s) with s := nextAddr s.s, b := a, arof := false, brof := true, q := stkOverfl } := by
  obtain ⟨ha, hb, hover⟩ := h
  have hempty : bEmpty (clear (fill a b mem s))
      = ({ clear (fill a b mem s) with s := nextAddr s.s } : Cpu).raise stkOverfl := (if_pos hb).trans (if_pos hover)
  have hcall : aEmpty (clear (fill a b mem s)) = { bEmpty (clear (fill a b mem s)) with
      b := (bEmpty (clear (fill a b mem s))).a, arof := false, brof := true } := if_pos ha
  rw [hcall, hempty]
  have hq : 0 ||| stkOverfl = stkOverfl := by decide
  rw [← hq]
  rfl

lemma not_kept_drops (h : Drops s) {f : Cpu → Cpu} {occupied : Cpu → Prop}
    (hf : f (clear (fill 1 2 (fun _ => 0) s)) = aEmpty (clear (fill 1 2 (fun _ => 0) s))) :
    ¬ Kept f occupied (fill 1 2 (fun _ => 0) s) := by
  intro hk
  have hless := hk.lossless (hf.trans (drops_call h)) rfl 2 (by norm_num)
  rw [stack_fill h.1 h.2.1] at hless
  have hstack := stack_b (s := { clear (fill 1 2 (fun _ => 0) s) with
    s := nextAddr s.s, b := 1, arof := false, brof := true, q := stkOverfl }) rfl rfl 3
  rw [hstack] at hless
  have hmem : 2 ∈ 1 :: below (fun _ => 0) (nextAddr s.s) 3 := hless.subset (by simp)
  rw [below_zero] at hmem
  simp at hmem

lemma not_kept_swaps (h : Swaps s) :
    ¬ Kept abEmpty (fun t => t.arof = false ∧ t.brof = false) (fill 1 2 (fun _ => 0) s) := by
  intro hk
  obtain ⟨ha, hb, hover, hnext, hpass⟩ := h
  have hempty : bEmpty (clear (fill 1 2 (fun _ => 0) s))
      = ({ clear (fill 1 2 (fun _ => 0) s) with s := nextAddr s.s } : Cpu).raise stkOverfl :=
    (if_pos hb).trans (if_pos hover)
  generalize hu : ({ clear (fill 1 2 (fun _ => 0) s) with s := nextAddr s.s } : Cpu).raise stkOverfl = u at hempty
  obtain ⟨huA, huB, huM, huS, hua, hub, huq⟩ : u.a = 1 ∧ u.b = 2 ∧ u.mem = (fun _ => 0) ∧ u.s = nextAddr s.s
      ∧ u.arof = true ∧ u.brof = true ∧ u.q = stkOverfl := by
    rw [← hu]
    exact ⟨rfl, rfl, rfl, rfl, ha, hb, by show 0 ||| stkOverfl = stkOverfl; decide⟩
  have hnext' : ¬ ({ u with s := nextAddr u.s } : Cpu).Overflows := by
    rw [← hu]
    exact hnext
  have hpass' : ({ u with s := nextAddr u.s } : Cpu).Passes (nextAddr u.s) := by
    rw [← hu]
    exact hpass
  have heq : abEmpty (clear (fill 1 2 (fun _ => 0) s))
      = { u with s := nextAddr u.s, mem := Function.update u.mem (nextAddr u.s) u.a, arof := false } := by
    rw [abEmpty, hempty]
    simp only
    rw [if_pos hua, if_neg hnext', cycle_storeA hpass']
  have hless := hk.lossless heq huq 2 (by norm_num)
  have hstack := stack_b (s := { u with
    s := nextAddr u.s, mem := Function.update u.mem (nextAddr u.s) u.a, arof := false }) rfl hub 3
  have hpush : below (Function.update u.mem (nextAddr u.s) u.a) (nextAddr u.s) 3 = u.a :: below u.mem u.s 2 :=
    below_push u.a (by norm_num)
  rw [stack_fill ha hb, hstack, hpush, huA, huB, huM, below_zero] at hless
  exact absurd hless (by decide)

/-- The word at an address is among those down to it. -/
lemma mem_below (mem : ℕ → ℕ) (top addr : Addr) : mem addr ∈ below mem top (depth top addr + 1) := by
  induction hd : depth top addr generalizing top with
  | zero =>
      have heq : (top : ℕ) = addr := by
        have htop := top.isLt
        have haddr := addr.isLt
        rw [depth] at hd
        omega
      rw [below, heq]
      exact List.mem_cons_self
  | succ d ih =>
      have hprev : depth (prevAddr top) addr = d := by
        rw [depth_prevAddr (by omega), hd]
        rfl
      rw [below_succ]
      exact List.mem_cons_of_mem _ (ih (prevAddr top) hprev)

lemma of_mem_below {x : ℕ} {top : Addr} {n : ℕ} (h : x ∈ below mem top n) : ∃ y, mem y = x := by
  induction n generalizing top with
  | zero => exact absurd h List.not_mem_nil
  | succ n ih =>
      rcases List.mem_cons.mp h with rfl | h
      · exact ⟨_, rfl⟩
      · exact ih h

/-- A memory with one word that is not zero. -/
def single (addr : Addr) : ℕ → ℕ := Function.update (fun _ => 0) addr 1

lemma not_saved (h : Clobbers s) : ¬ Saved (fill 2 0 (single s.ma) s) := by
  intro hk
  obtain ⟨ha, hb, hover, hpass, hdepth⟩ := h
  have hread : aValid (clear (fill 2 0 (single s.ma) s)) = (clear (fill 2 0 (single s.ma) s)).raise stkOverfl :=
    ((if_pos ha).trans (if_neg (by rw [show (clear (fill 2 0 (single s.ma) s)).brof = false from hb]; decide))).trans
      (if_pos hover)
  have hempty (t : Bool) (ht : t = false) : ¬ t = true := by
    rw [ht]
    decide
  have hcall : saveTos (clear (fill 2 0 (single s.ma) s))
      = { memoryCycle 0o14 (aValid (clear (fill 2 0 (single s.ma) s))) with arof := false } :=
    (if_neg (hempty _ ha)).trans (if_neg (hempty _ hb))
  generalize hu : (clear (fill 2 0 (single s.ma) s)).raise stkOverfl = u at hread
  obtain ⟨huA, huM, huS, huMa, hub, huq⟩ : u.a = 2 ∧ u.mem = single s.ma ∧ u.s = s.s ∧ u.ma = s.ma
      ∧ u.brof = false ∧ u.q = stkOverfl := by
    rw [← hu]
    exact ⟨rfl, rfl, rfl, rfl, hb, by show 0 ||| stkOverfl = stkOverfl; decide⟩
  have hpass' : u.Passes u.ma := by
    rw [← hu]
    exact hpass
  rw [hread, cycle_putA hpass'] at hcall
  have hless := hk.lossless hcall huq (depth s.s s.ma + 1) (by omega)
  have hold : stack (fill 2 0 (single s.ma) s) (depth s.s s.ma + 1) = below (single s.ma) s.s (depth s.s s.ma + 1) :=
    stack_none (s := fill 2 0 (single s.ma) s) ha hb _
  have hnew := stack_none (s := { u with mem := Function.update u.mem u.ma u.a, arof := false }) rfl hub
    (depth s.s s.ma + 1 + 2)
  rw [hold, hnew] at hless
  have hone : 1 ∈ below (single s.ma) s.s (depth s.s s.ma + 1) := by
    have hin := mem_below (single s.ma) s.s s.ma
    rwa [single, Function.update_self] at hin
  obtain ⟨y, hy⟩ := of_mem_below (hless.subset hone)
  replace hy : Function.update u.mem u.ma u.a y = 1 := hy
  rw [huA, huM, huMa, single, Function.update_idem] at hy
  by_cases hya : y = s.ma
  · rw [hya, Function.update_self] at hy
    exact absurd hy (by decide)
  · rw [Function.update_of_ne hya] at hy
    exact absurd hy (by decide)

/-! ### Which of them keep the stack -/

/-- **The stack** is kept by `B_empty`, `A_valid`, `AB_valid` and `B_valid_and_A`; by `A_empty` and `B_valid`, whatever
is in the registers and in the memory, exactly when they do not come to a full stack with both registers full; by
`AB_empty` exactly when it does not go over the last word of the page so; and by `save_tos` exactly when it does not
find the stack empty with a word of it to be stored into. -/
theorem stack_kept_iff (s : Cpu) :
    (Kept bEmpty (·.brof = false) s ∧ Kept aValid (·.arof = true) s
        ∧ Kept abValid (fun t => t.arof = true ∧ t.brof = true) s ∧ Kept bValidAndA (·.brof = true) s)
      ∧ ((∀ a b mem, Kept aEmpty (·.arof = false) (fill a b mem s)) ↔ ¬ Drops s)
      ∧ ((∀ a b mem, Kept bValid (fun t => t.arof = false ∧ t.brof = true) (fill a b mem s)) ↔ ¬ Drops s)
      ∧ ((∀ a b mem, Kept abEmpty (fun t => t.arof = false ∧ t.brof = false) (fill a b mem s)) ↔ ¬ Swaps s)
      ∧ ((∀ a b mem, Saved (fill a b mem s)) ↔ ¬ Clobbers s) := by
  refine ⟨⟨kept_bEmpty s, kept_aValid s, kept_abValid s, kept_bValidAndA s⟩, ⟨fun h hd => ?_, fun h a b mem => ?_⟩,
    ⟨fun h hd => ?_, fun h a b mem => ?_⟩, ⟨fun h hs => ?_, fun h a b mem => ?_⟩, ⟨fun h hc => ?_, fun h a b mem => ?_⟩⟩
  · exact not_kept_drops hd rfl (h 1 2 fun _ => 0)
  · exact kept_aEmpty (s := fill a b mem s) h
  · exact not_kept_drops hd (bValid_full rfl (aEmpty_brof hd.1)) (h 1 2 fun _ => 0)
  · exact kept_bValid (s := fill a b mem s) h
  · exact not_kept_swaps hs (h 1 2 fun _ => 0)
  · exact kept_abEmpty (s := fill a b mem s) h
  · exact not_saved hc (h 2 0 (single s.ma))
  · exact saved_of (s := fill a b mem s) h

/-- A processor in normal state with both registers full and the top of its stack just below the page of `R`. -/
def fullStack : Cpu :=
  { a := 1, b := 2, x := 0, p := 0, arof := true, brof := true, prof := false, trof := false, gh := 0, kv := 0, ma := 0
    s := 0o1777, f := 0, r := 0o2000, t := 0, c := 0o1000, l := 0, ncsf := true, salf := false, cwmf := false
    msff := false, varf := false, q := 0, mem := fun _ => 0, memsize := 32768, memsize_ge := memsize_small_le
    memsize_le := memsize_full }

/-- `A_empty` loses what is in `B` there. -/
theorem b_lost : ¬ ∀ s, Kept aEmpty (·.arof = false) s := fun h =>
  not_kept_drops (s := fullStack) ⟨rfl, rfl, by decide⟩ rfl (h _)

end Ka10Simh.B5500
