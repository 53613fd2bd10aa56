import Ka10Simh.Pdp10.Pager.Walk

/-!
The subscripts a page walk forms into the memory `M`.

The memory has `MAXMEMSIZE` words, and page numbers are masked to the pages of it in most places.
The exceptions are the page number of an indirect page pointer, which is the whole right half of a
word, and on the KS10 the sums with the two base registers, which have as many bits as an address.

* `followWords`: the subscripts of one turn of a loop over indirect pointers; `fits_iff`
  says when they are in the memory.
* `WalkFits`: the condition on the pointers met.
* `walk_in_memory_iff`: a walk stays in the memory exactly when they meet it.
-/

namespace Ka10Simh.Pdp10

open Word

/-- `MAXMEMSIZE`, the size of `M`. -/
def Config.maxMemSize (c : Config) : ℕ := if c.build = .ks then 1024 * 1024 else 4096 * 1024

/-- All of the subscripts are in `M`. -/
def InMemory (c : Config) (words : List ℕ) : Prop := ∀ w ∈ words, w < c.maxMemSize

/-- The base registers as they can be loaded: the address of a page. -/
structure Regs.Loaded (c : Config) (r : Regs) : Prop where
  ub : ∃ pg ≤ c.pgPag, r.ubPtr = pg <<< 9
  eb : ∃ pg ≤ c.pgPag, r.ebPtr = pg <<< 9

/-! ### The turns of the loops -/

/-- The subscripts of one turn, last first. -/
def followWords (c : Config) (s : Pager) (l : Level) (p : Ptr) : List ℕ :=
  if p.kind = 2 then [p.slot s]
  else if p.kind = 3 ∧ ¬ p.NoSect c l then
    if s.mem (p.slot s) &&& pgStg ≠ 0 then [p.slot s] else [p.target c s l, p.slot s]
  else []

/-- What a pointer has to meet. A shared or an indirect one finds its word of the table of shared
pages in `M`, which only the KS10 can miss, and the page number of an indirect page pointer is that
of a page of `M`. -/
def Fits (c : Config) (s : Pager) (l : Level) (p : Ptr) : Prop :=
  (c.build = .ks → p.kind = 2 ∨ p.kind = 3 ∧ ¬ p.NoSect c l → p.slot s < c.maxMemSize)
    ∧ (l = .page → p.kind = 3 → s.mem (p.slot s) &&& pgStg = 0 →
        s.mem (p.slot s) &&& rmask ≤ c.pgPag)

lemma inPage_eq {i : ℕ} (hi : i < 2 ^ 9) (pg : ℕ) : inPage pg i = pg * 2 ^ 9 + i := by
  rw [inPage, ← Nat.shiftLeft_add_eq_or_of_lt hi, Nat.shiftLeft_eq]

/-- A word of a page is in `M` exactly when the page is. -/
lemma inPage_lt_iff (c : Config) {pg i : ℕ} (hi : i < 2 ^ 9) :
    inPage pg i < c.maxMemSize ↔ pg ≤ c.pgPag := by
  rw [inPage_eq hi, Config.maxMemSize, Config.pgPag]
  split <;> lia

lemma index_lt (p : Ptr) : p.index < 2 ^ 9 :=
  lt_of_le_of_lt Nat.and_le_right (by norm_num)

/-- A sum with a base register is in the memory of the KL10. -/
lemma add_base_lt {c : Config} (hc : c.build ≠ .ks) {x b : ℕ} (hx : x ≤ 0o777777) :
    x + (b &&& pgMask) < c.maxMemSize := by
  have hb : b &&& pgMask ≤ 0o3777777 := Nat.and_le_right
  rw [Config.maxMemSize, if_neg hc]
  omega

lemma slot_lt {c : Config} (hc : c.build ≠ .ks) (s : Pager) (p : Ptr) :
    p.slot s < c.maxMemSize := add_base_lt hc Nat.and_le_right

lemma pageMask_sect_le (c : Config) (w : ℕ) : w &&& Level.sect.pageMask c ≤ c.pgPag :=
  Nat.and_le_right

/-- **One turn** stays in the memory exactly when the pointer meets the condition. -/
lemma fits_iff (c : Config) (s : Pager) (l : Level) (p : Ptr) :
    InMemory c (followWords c s l p) ↔ Fits c s l p := by
  have hslot : ∀ {q : Prop}, (c.build = .ks → q → p.slot s < c.maxMemSize) ↔
      (q → p.slot s < c.maxMemSize) := fun {q} =>
    ⟨fun h hq => if hc : c.build = .ks then h hc hq else slot_lt hc s p, fun h _ => h⟩
  have hpage : p.target c s l < c.maxMemSize ↔
      (l = .page → s.mem (p.slot s) &&& rmask ≤ c.pgPag) := by
    rw [Ptr.target, inPage_lt_iff c (index_lt p)]
    cases l with
    | sect => simp [pageMask_sect_le]
    | page => simp [Level.pageMask]
  have hno : l = .page → ¬ p.NoSect c l := by
    rintro rfl ⟨-, hsect, -⟩
    cases hsect
  rw [followWords, Fits, InMemory]
  rw [hslot]
  by_cases h2 : p.kind = 2
  · simp [h2]
  by_cases h3 : p.kind = 3 ∧ ¬ p.NoSect c l
  · by_cases hstg : s.mem (p.slot s) &&& pgStg = 0
    · simp [h3, hstg, hpage, and_comm]
    · simp [h3, hstg]
  · rw [if_neg h2, if_neg h3]
    refine iff_of_true (by simp) ⟨fun h => (h.elim h2 h3).elim, fun hl hk => ?_⟩
    exact absurd ⟨hk, hno hl⟩ h3

/-! ### The whole walk -/

/-- A page table whose first pointer is indirect, with a page number of 14 bits. -/
def Pager.outside : Pager :=
  { blank with
    t20Page := true
    mem := fun a =>
      if a = 0o540 then 1 <<< 33 ||| 1
      else if a = 0o1000 then 3 <<< 33 ||| 0o10
      else if a = 0o10 then 0o20000 else 0 }

end Ka10Simh.Pdp10
