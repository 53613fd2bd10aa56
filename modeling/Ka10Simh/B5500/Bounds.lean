import Ka10Simh.B5500.Cpu

/-!
Where a processor looks.

* `Machine.indexes`: the words that `memory_cycle`, `next_prog` and `check_idle` look at.
* `fits_cycle_iff`, `fits_fetch_iff`, `fits_idle_iff`: the references that are right.
* `references_right_iff`: the runs from a reset in which all of them are.
-/

namespace Ka10Simh.B5500

/-! ### Runs -/

/-- A processor with the address of the idle loop that was found. -/
structure Machine where
  cpu : Cpu
  idleAddr : ℕ

/-- A memory cycle, a fetch and a test for an idle loop. -/
inductive Reference
  | cycle (e : ℕ)
  | fetch
  | idle

/-- A reference, or any change of the registers and of the memory by an operator, an interrupt or a device. -/
inductive Event
  | refer (ref : Reference)
  | change (cpu : Cpu)

namespace Machine

variable (m : Machine)

/-- The addresses of a reference. -/
def addresses : Reference → List ℕ
  | .cycle e => [m.cpu.address e]
  | .fetch => if m.cpu.prof = false then [m.cpu.c] else []
  | .idle => (checkIdle m.idleAddr m.cpu).1

/-- The addresses of a reference that come to the memory. -/
def indexes : Reference → List ℕ
  | .idle => m.addresses .idle
  | ref => (m.addresses ref).filter fun addr => decide (m.cpu.Passes addr)

/-- What a reference does. -/
def after : Reference → Machine
  | .cycle e => { m with cpu := memoryCycle e m.cpu }
  | .fetch => { m with cpu := nextProg m.cpu }
  | .idle => { m with idleAddr := (checkIdle m.idleAddr m.cpu).2.1 }

/-- All that is looked at is in the memory, and an address that is not is an error and does nothing else. -/
def Right (ref : Reference) : Prop :=
  (∀ addr ∈ m.indexes ref, addr < m.cpu.memsize)
    ∧ ((∃ addr ∈ m.addresses ref, m.cpu.memsize ≤ addr) → m.after ref = { m with cpu := m.cpu.raise invalidAddr })

/-- The size stays, and `L` has two bits. -/
def step : Event → Machine
  | .refer ref => m.after ref
  | .change cpu =>
      { m with
        cpu :=
          { cpu with
            l := cpu.l % 4, memsize := m.cpu.memsize, memsize_ge := m.cpu.memsize_ge, memsize_le := m.cpu.memsize_le } }

/-- The references of a run, each with the machine that makes it. -/
def trace : Machine → List Event → List (Machine × Reference)
  | _, [] => []
  | m, .refer ref :: es => (m, ref) :: trace (m.step (.refer ref)) es
  | m, .change cpu :: es => trace (m.step (.change cpu)) es

end Machine

/-- `cpu_reset`. -/
def reset (s : Cpu) : Machine where
  cpu :=
    { s with
      c := 0o20, s := 0, f := 0, r := 0, t := 0, l := 0, a := 0, b := 0, x := 0, p := 0, arof := false, brof := false
      trof := false, prof := false, ncsf := false, salf := false, cwmf := false, msff := false, varf := false
      gh := 0, kv := 0, q := 0 }
  idleAddr := 0

/-! ### Idle loops -/

/-- The syllable `i` places after the first one of a word. -/
def syllable (mem : ℕ → ℕ) (addr i : ℕ) : ℕ := mem (addr + i / 4) >>> ((3 - i % 4) * 12) &&& 0o7777

/-- The first syllables at `j` of a word are those of a loop. -/
def Matches (mem : ℕ → ℕ) (loop : List (ℕ × ℕ)) (addr j n : ℕ) : Prop :=
  ∀ i < n, syllable mem addr (j + i) &&& (loop.getD i (0, 0)).1 = (loop.getD i (0, 0)).2

/-- What is looked at ends before the memory does: the word of the address at hand, and each word after it where all
the syllables before that are those of the loop. -/
def Machine.Fits (m : Machine) : Reference → Prop
  | .cycle e => m.cpu.address e ≠ m.cpu.memsize
  | .fetch => m.cpu.prof = true ∨ m.cpu.c < m.cpu.memsize
  | .idle =>
      m.idleAddr ≠ 0 ∧ m.idleAddr ≠ m.cpu.c ∨ m.idleAddr = m.cpu.c
        ∨ m.cpu.c < m.cpu.memsize ∧ ∀ k, 1 ≤ k → 4 * k ≤ m.cpu.l + idleLoop.length →
            Matches m.cpu.mem idleLoop m.cpu.c m.cpu.l (4 * k - m.cpu.l) → m.cpu.c + k < m.cpu.memsize

lemma syllable_next (mem : ℕ → ℕ) (addr i : ℕ) : syllable mem addr (i + 4) = syllable mem (addr + 1) i := by
  have hdiv : addr + (i + 4) / 4 = addr + 1 + i / 4 := by lia
  rw [syllable, syllable, hdiv, Nat.add_mod_right]

lemma syllable_zero (mem : ℕ → ℕ) (addr : ℕ) {j : ℕ} (h : j < 4) :
    syllable mem addr j = mem addr >>> ((3 - j) * 12) &&& 0o7777 := by
  rw [syllable, Nat.div_eq_of_lt h, Nat.mod_eq_of_lt h, Nat.add_zero]

section Scan

variable {mem : ℕ → ℕ} {loop : List (ℕ × ℕ)} {mask data addr j n : ℕ}

lemma matches_cons : Matches mem ((mask, data) :: loop) addr j (n + 1)
    ↔ syllable mem addr j &&& mask = data ∧ Matches mem loop addr (j + 1) n := by
  refine ⟨fun h => ⟨h 0 n.succ_pos, fun i hi => ?_⟩, fun h i hi => ?_⟩
  · have hnext := h (i + 1) (Nat.succ_lt_succ hi)
    rwa [Nat.add_comm i, ← Nat.add_assoc, Nat.add_comm 1] at hnext
  · cases i with
    | zero => exact h.1
    | succ i =>
        have hrest := h.2 i (Nat.lt_of_succ_lt_succ hi)
        rwa [Nat.add_assoc, Nat.add_comm 1] at hrest

/-- A whole word of syllables before the address is the word before it. -/
lemma matches_next : Matches mem loop addr (j + 4) n ↔ Matches mem loop (addr + 1) j n :=
  forall₂_congr fun i _ => by rw [Nat.add_right_comm, syllable_next]

/-- The words after the first one that `check_idle` looks at: the `k`-th where the syllables before it match. -/
lemma idleScan_below (size : ℕ) (hj : j < 4) (haddr : addr + loop.length < 2 ^ 16) :
    (∀ word ∈ (idleScan mem loop addr ((3 - j) * 12)).1, word < size)
      ↔ ∀ k, 1 ≤ k → 4 * k ≤ j + loop.length → Matches mem loop addr j (4 * k - j) → addr + k < size := by
  induction loop generalizing addr j with
  | nil =>
      refine ⟨fun _ k hk hlen => ?_, fun _ word hw => absurd hw List.not_mem_nil⟩
      rw [List.length_nil] at hlen
      omega
  | cons head loop ih =>
      obtain ⟨mask, data⟩ := head
      rw [List.length_cons] at haddr
      rw [idleScan, ← syllable_zero mem addr hj]
      by_cases hsyl : syllable mem addr j &&& mask = data
      · rw [if_neg (not_not.mpr hsyl)]
        by_cases hlast : j = 3
        · subst hlast
          rw [if_pos (by omega), Nat.mod_eq_of_lt (by omega)]
          have hnear : addr + 1 + loop.length < 2 ^ 16 := by omega
          have hrest := ih (j := 0) (by omega) hnear
          rw [List.forall_mem_cons, hrest]
          refine ⟨fun h k hk hlen hmatch => ?_, fun h => ⟨h 1 le_rfl ?_ ?_, fun k hk hlen hmatch => ?_⟩⟩
          · obtain rfl | hk := Nat.eq_or_lt_of_le hk
            · exact h.1
            · obtain ⟨k, rfl⟩ : ∃ i, k = i + 1 := ⟨k - 1, by lia⟩
              rw [List.length_cons] at hlen
              rw [show 4 * (k + 1) - 3 = 4 * k + 1 by lia, matches_cons] at hmatch
              have hnext := h.2 k (by omega) (by omega) (matches_next.mp hmatch.2)
              omega
          · rw [List.length_cons]
            omega
          · rw [show 4 * 1 - 3 = 0 + 1 from rfl, matches_cons]
            exact ⟨hsyl, fun i hi => absurd hi i.not_lt_zero⟩
          · have hnext := h (k + 1) (by omega) (by rw [List.length_cons]; omega) (by
              rw [show 4 * (k + 1) - 3 = 4 * k + 1 by lia, matches_cons]
              exact ⟨hsyl, matches_next.mpr hmatch⟩)
            omega
        · rw [if_neg (by omega), show (3 - j) * 12 - 12 = (3 - (j + 1)) * 12 by lia]
          rw [ih (j := j + 1) (by omega) (by omega)]
          refine forall₂_congr fun k hk => ?_
          rw [List.length_cons, show 4 * k - j = 4 * k - (j + 1) + 1 by lia, matches_cons, and_iff_right hsyl]
          refine imp_congr_left ?_
          lia
      · rw [if_pos hsyl]
        refine ⟨fun _ k hk hlen hmatch => ?_, fun _ word hw => absurd hw List.not_mem_nil⟩
        rw [show 4 * k - j = 4 * k - j - 1 + 1 by lia, matches_cons] at hmatch
        exact absurd hmatch.1 hsyl

end Scan

/-! ### References -/

section References

variable {m : Machine}

/-- An address just behind the memory is let pass. -/
lemma passes_memsize (s : Cpu) : s.Passes s.memsize :=
  ⟨le_rfl, fun _ => le_trans (by decide) s.memsize_ge⟩

lemma fits_cycle_iff (e : ℕ) : m.Right (.cycle e) ↔ m.Fits (.cycle e) := by
  refine ⟨fun h heq => ?_, fun hne => ⟨fun addr haddr => ?_, fun ⟨addr, haddr, hle⟩ => ?_⟩⟩
  · have hpasses : m.cpu.Passes (m.cpu.address e) := by
      rw [show m.cpu.address e = m.cpu.memsize from heq]
      exact passes_memsize m.cpu
    have hlt := h.1 (m.cpu.address e)
      (List.mem_filter.mpr ⟨List.mem_singleton.mpr rfl, decide_eq_true hpasses⟩)
    exact absurd heq (Nat.ne_of_lt hlt)
  · obtain ⟨hmem, hpasses⟩ := List.mem_filter.mp haddr
    rw [List.mem_singleton.mp hmem] at hpasses ⊢
    exact lt_of_le_of_ne (of_decide_eq_true hpasses).1 hne
  · rw [List.mem_singleton.mp haddr] at hle
    have hgt : m.cpu.address e > m.cpu.memsize := lt_of_le_of_ne hle (Ne.symm hne)
    rw [Machine.after, memoryCycle, if_pos hgt]

/-- A fetch goes to the next syllable, and drops the word of program with the last one of it. -/
lemma nextProg_cases (s : Cpu) :
    (nextProg s).memsize = s.memsize
      ∧ (s.l = 3 ∧ (nextProg s).l = 0 ∧ (nextProg s).c = (s.c + 1) % 2 ^ 16 ∧ (nextProg s).prof = false
        ∨ s.l ≠ 3 ∧ (nextProg s).l = s.l + 1 ∧ (nextProg s).c = s.c) := by
  have hcycle : (memoryCycle 0o20 s).l = s.l ∧ (memoryCycle 0o20 s).c = s.c
      ∧ (memoryCycle 0o20 s).memsize = s.memsize := by
    rw [memoryCycle]
    split_ifs <;> exact ⟨rfl, rfl, rfl⟩
  have hread : ∀ t, (if s.prof = false then memoryCycle 0o20 s else s) = t →
      t.l = s.l ∧ t.c = s.c ∧ t.memsize = s.memsize := by
    rintro t rfl
    split_ifs
    · exact hcycle
    · exact ⟨rfl, rfl, rfl⟩
  have hnext (t : Cpu) (hl : t.l = s.l) (hc : t.c = s.c) (hsize : t.memsize = s.memsize) (u : Cpu)
      (hu : u = if t.l = 3 then { t with c := (t.c + 1) % 2 ^ 16, l := 0, prof := false } else { t with l := t.l + 1 }) :
      u.memsize = s.memsize ∧ (s.l = 3 ∧ u.l = 0 ∧ u.c = (s.c + 1) % 2 ^ 16 ∧ u.prof = false
        ∨ s.l ≠ 3 ∧ u.l = s.l + 1 ∧ u.c = s.c) := by
    rw [← hl, ← hc, ← hsize, hu]
    by_cases h3 : t.l = 3
    · rw [if_pos h3]
      exact ⟨rfl, .inl ⟨h3, rfl, rfl, rfl⟩⟩
    · rw [if_neg h3]
      exact ⟨rfl, .inr ⟨h3, rfl, rfl⟩⟩
  obtain ⟨hl, hc, hsize⟩ := hread _ rfl
  exact hnext { (if s.prof = false then memoryCycle 0o20 s else s : Cpu) with t := _, trof := true } hl hc hsize _
    rfl

/-- So it always moves `L`. -/
lemma nextProg_l (s : Cpu) : (nextProg s).l ≠ s.l := by
  obtain ⟨h3, hl, -⟩ | ⟨-, hl, -⟩ := (nextProg_cases s).2 <;> omega

lemma fits_fetch_iff : m.Right .fetch ↔ m.Fits .fetch := by
  by_cases hprof : m.cpu.prof = false
  · have haddresses : m.addresses .fetch = [m.cpu.c] := if_pos hprof
    refine ⟨fun h => .inr ?_, fun h => ?_⟩
    · by_contra hle
      rw [Nat.not_lt] at hle
      have hafter := h.2 ⟨m.cpu.c, by rw [haddresses]; exact List.mem_singleton.mpr rfl, hle⟩
      exact nextProg_l m.cpu (congrArg (fun t => t.cpu.l) hafter)
    · have hlt := h.resolve_left (by rw [hprof]; exact Bool.false_ne_true)
      refine ⟨fun addr haddr => ?_, fun ⟨addr, haddr, hle⟩ => ?_⟩
      · have hmem := (List.mem_filter.mp haddr).1
        rw [haddresses, List.mem_singleton] at hmem
        rwa [hmem]
      · rw [haddresses, List.mem_singleton] at haddr
        rw [haddr] at hle
        exact absurd hlt (Nat.not_lt.mpr hle)
  · have haddresses : m.addresses .fetch = [] := if_neg hprof
    refine iff_of_true ⟨fun addr haddr => ?_, fun ⟨addr, haddr, _⟩ => ?_⟩ (.inl (Bool.eq_true_of_not_eq_false hprof))
    · have hmem := (List.mem_filter.mp haddr).1
      rw [haddresses] at hmem
      exact absurd hmem List.not_mem_nil
    · rw [haddresses] at haddr
      exact absurd haddr List.not_mem_nil

lemma right_idle_iff : m.Right .idle ↔ ∀ addr ∈ m.addresses .idle, addr < m.cpu.memsize :=
  ⟨fun h => h.1, fun h => ⟨h, fun ⟨addr, haddr, hle⟩ => absurd (h addr haddr) (Nat.not_lt.mpr hle)⟩⟩

lemma fits_idle_iff (hl : m.cpu.l < 4) : m.Right .idle ↔ m.Fits .idle := by
  rw [right_idle_iff, Machine.Fits, Machine.addresses, checkIdle]
  by_cases hother : m.idleAddr ≠ 0 ∧ m.idleAddr ≠ m.cpu.c
  · rw [if_pos hother]
    exact iff_of_true (fun addr haddr => absurd haddr List.not_mem_nil) (.inl hother)
  by_cases hsame : m.idleAddr = m.cpu.c
  · rw [if_neg hother, if_pos hsame]
    exact iff_of_true (fun addr haddr => absurd haddr List.not_mem_nil) (.inr (.inl hsame))
  rw [if_neg hother, if_neg hsame, or_iff_right hother, or_iff_right hsame, List.forall_mem_cons]
  refine and_congr_right fun hc => idleScan_below m.cpu.memsize hl ?_
  have hsize := m.cpu.memsize_le
  rw [show idleLoop.length = 7 from rfl]
  omega

lemma right_iff (hl : m.cpu.l < 4) (ref : Reference) : m.Right ref ↔ m.Fits ref := by
  cases ref with
  | cycle e => exact fits_cycle_iff e
  | fetch => exact fits_fetch_iff
  | idle => exact fits_idle_iff hl

end References

/-! ### Every run -/

lemma step_l_lt {m : Machine} (h : m.cpu.l < 4) (e : Event) : (m.step e).cpu.l < 4 := by
  have hcycle (e : ℕ) : (memoryCycle e m.cpu).l = m.cpu.l := by
    rw [memoryCycle]
    split_ifs <;> rfl
  rcases e with ⟨e | _ | _⟩ | cpu
  · exact (hcycle e).trans_lt h
  · show (nextProg m.cpu).l < 4
    obtain ⟨-, hl, -⟩ | ⟨h3, hl, -⟩ := (nextProg_cases m.cpu).2 <;> omega
  · exact h
  · exact Nat.mod_lt _ (by norm_num)

lemma trace_right_iff {m : Machine} (h : m.cpu.l < 4) (es : List Event) :
    (∀ p ∈ m.trace es, p.1.Right p.2) ↔ ∀ p ∈ m.trace es, p.1.Fits p.2 := by
  induction es generalizing m with
  | nil => exact iff_of_true (fun p hp => absurd hp List.not_mem_nil) fun p hp => absurd hp List.not_mem_nil
  | cons e es ih =>
      have hrest := ih (step_l_lt h e)
      cases e with
      | refer ref =>
          rw [Machine.trace, List.forall_mem_cons, List.forall_mem_cons]
          exact and_congr (right_iff h ref) hrest
      | change cpu => exact hrest

/-- **The references of every run**: from a reset, with any program and with any interrupts, everything that is looked
at is in the memory, and an address beyond it is an error and nothing else, exactly when no address is just the size
of the memory, no word of program is fetched from behind it and no idle loop is looked for over its end. -/
theorem references_right_iff (s : Cpu) (es : List Event) :
    (∀ p ∈ (reset s).trace es, p.1.Right p.2) ↔ ∀ p ∈ (reset s).trace es, p.1.Fits p.2 :=
  trace_right_iff (by decide : (0 : ℕ) < 4) es

/-! ### A program that runs off the memory -/

/-- The next syllable to be fetched, which is in no word of program that is left over. -/
structure At (size place : ℕ) (m : Machine) : Prop where
  place_eq : 4 * m.cpu.c + m.cpu.l = place
  l_lt : m.cpu.l < 4
  fresh : m.cpu.l = 0 → m.cpu.prof = false
  size_eq : m.cpu.memsize = size

variable {size place : ℕ}

lemma At.fetch {m : Machine} (h : At size place m) (hplace : place < 4 * 65535) :
    At size (place + 1) (m.step (.refer .fetch)) := by
  obtain ⟨heq, hlt, -, hsize⟩ := h
  obtain ⟨hkept, ⟨h3, hl, hc, hprof⟩ | ⟨h3, hl, hc⟩⟩ := nextProg_cases m.cpu
  · refine ⟨?_, ?_, fun _ => hprof, hkept.trans hsize⟩
    · show 4 * (nextProg m.cpu).c + (nextProg m.cpu).l = place + 1
      lia
    · show (nextProg m.cpu).l < 4
      omega
  · refine ⟨?_, ?_, fun h0 => ?_, hkept.trans hsize⟩
    · show 4 * (nextProg m.cpu).c + (nextProg m.cpu).l = place + 1
      lia
    · show (nextProg m.cpu).l < 4
      omega
    · rw [show (m.step (.refer .fetch)).cpu.l = m.cpu.l + 1 from hl] at h0
      exact absurd h0 (Nat.succ_ne_zero _)

/-- Fetch after fetch, the program comes to the end of the memory. -/
lemma fetches_run_off {m : Machine} (h : At size place m) (hsize : size < 65535) (hplace : place ≤ 4 * size) :
    ∃ es, ∃ p ∈ m.trace es, ¬ p.1.Fits p.2 := by
  obtain ⟨n, hn⟩ := Nat.exists_eq_add_of_le hplace
  induction n generalizing m place with
  | zero =>
      refine ⟨[.refer .fetch], (m, .fetch), List.mem_cons_self, fun hfits => ?_⟩
      have heq := h.place_eq
      have hlt := h.l_lt
      obtain hprof | hc := hfits
      · rw [h.fresh (by lia)] at hprof
        exact Bool.false_ne_true hprof
      · have hlt' : m.cpu.c < m.cpu.memsize := hc
        rw [h.size_eq] at hlt'
        omega
  | succ n ih =>
      obtain ⟨es, p, hp, hno⟩ := ih (h.fetch (by omega)) (by omega) (by omega)
      exact ⟨.refer .fetch :: es, p, List.mem_cons_of_mem _ hp, hno⟩

/-- A processor with 4K words of memory, all of them `NOP`. -/
def small : Cpu :=
  { a := 0, b := 0, x := 0, p := 0, arof := false, brof := false, prof := false, trof := false, gh := 0, kv := 0
    ma := 0, s := 0, f := 0, r := 0, t := 0, c := 0, l := 0, ncsf := false, salf := false, cwmf := false
    msff := false, varf := false, q := 0, mem := fun _ => 0o55005500550055, memsize := 4096, memsize_ge := memsize_small
    memsize_le := memsize_small_le }

/-- Its program comes to the word behind the memory. -/
theorem fetched_outside : ¬ ∀ (s : Cpu) (es : List Event), ∀ p ∈ (reset s).trace es, p.1.Right p.2 := by
  intro h
  have hat : At 4096 64 (reset small) := ⟨rfl, by decide, fun _ => rfl, rfl⟩
  obtain ⟨es, p, hp, hno⟩ := fetches_run_off hat (by norm_num) (by norm_num)
  exact hno ((trace_right_iff (by decide : (0 : ℕ) < 4) es).mp (h small es) p hp)

end Ka10Simh.B5500
