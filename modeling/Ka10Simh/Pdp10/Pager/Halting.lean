import Ka10Simh.Pdp10.Pager.Bbn
import Ka10Simh.Pdp10.Pager.Walk

/-!
The ends of the page walks.

A walk follows indirect and shared pointers for as long as it finds them. The KL10 and the KS10 do
not count them, and the BBN pager looks at its count only at an indirect pointer, and then asks
whether it is two: a shared pointer is always followed, and so is an indirect one from the third on.

* `Pager.indirect`, `Bbn.indirect`: the pointer that a pointer leads to.
* `WalkEnds`, `Bbn.WalkEnds`: no pointer that the walk meets leads back to itself.
* `walk_ends_iff`: the walks come to an end exactly then.
-/

namespace Ka10Simh.Pdp10

open Iterate Relation

/-! ### The loops of the KL10 and the KS10 -/

/-- The word of the pointer that an indirect pointer leads to. -/
def Pager.indirect (c : Config) (s : Pager) (l : Level) (w : ℕ) : Option ℕ :=
  let p : Ptr := ⟨w, 0, []⟩
  if p.kind = 3 ∧ ¬ p.NoSect c l ∧ s.mem (p.slot s) &&& pgStg = 0 then
    some (s.mem (p.target c s l))
  else none

/-- No section pointer met leads back to itself, and no page pointer either when the walk gets to
the page table. -/
structure WalkEnds (c : Config) (uf : Bool) (page : ℕ) (s : Pager) : Prop where
  sect : Acyclic (s.indirect c .sect) (sectPtr c uf s).data
  pg : ∀ p q s', Finds c s .sect (sectPtr c uf s) p → sectEnd c page p s = (some q, s') →
    Acyclic (s'.indirect c .page) q.data

/-- The loops go from pointer to pointer. -/
lemma follow_follows (c : Config) (s : Pager) (l : Level) :
    Follows (follow c s l) Ptr.data (s.indirect c l) := by
  intro p
  have hkind : (⟨p.data, 0, []⟩ : Ptr).kind = p.kind := rfl
  have hslot : (⟨p.data, 0, []⟩ : Ptr).slot s = p.slot s := rfl
  have hno : (⟨p.data, 0, []⟩ : Ptr).NoSect c l ↔ p.NoSect c l := Iff.rfl
  have htarget : (⟨p.data, 0, []⟩ : Ptr).target c s l = p.target c s l := rfl
  simp only [Pager.indirect, hkind, hslot, hno, htarget]
  rw [follow]
  by_cases h3 : p.kind = 3
  · by_cases hsect : p.NoSect c l
    · simp [h3, hsect]
    · by_cases hstg : s.mem (p.slot s) &&& pgStg = 0 <;> simp [h3, hsect, hstg]
  · by_cases h1 : p.kind = 1
    · simp [h1]
    · by_cases h2 : p.kind = 2 <;> simp [h1, h2, h3]

/-- An indirect pointer leads to one of the first `2 ^ 27` words. -/
lemma target_lt (c : Config) (s : Pager) (l : Level) (p : Ptr) : p.target c s l < 2 ^ 27 := by
  have hmask : l.pageMask c ≤ 0o777777 := by
    cases l with
    | sect =>
        show c.pgPag ≤ _
        rw [Config.pgPag]
        split <;> norm_num
    | page => exact le_refl _
  have hpage : s.mem (p.slot s) &&& l.pageMask c ≤ 0o777777 := Nat.and_le_right.trans hmask
  have hindex : p.index ≤ 0o777 := Nat.and_le_right
  refine Nat.or_lt_two_pow ?_ (by omega)
  rw [Nat.shiftLeft_eq]
  omega

/-- So there are finitely many to meet. -/
lemma indirect_finite (c : Config) (s : Pager) (l : Level) (w : ℕ) :
    {w' | ReflTransGen (Leads (s.indirect c l)) w w'}.Finite := by
  refine Set.Finite.subset (((Set.finite_Iio (2 ^ 27)).image s.mem).insert w) fun w' hw' => ?_
  rcases hw'.cases_tail with rfl | ⟨w₁, -, hlead⟩
  · exact Set.mem_insert _ _
  · refine Set.mem_insert_of_mem _ ?_
    rw [Leads, Pager.indirect] at hlead
    obtain ⟨-, rfl⟩ := TransSys.of_guard hlead
    exact ⟨_, target_lt c s l _, rfl⟩

/-- A loop ends exactly when no pointer met leads back to itself. -/
lemma follow_halts_iff (c : Config) (s : Pager) (l : Level) (p : Ptr) :
    Halts (follow c s l) p ↔ Acyclic (s.indirect c l) p.data :=
  halts_iff_acyclic (follow_follows c s l) (indirect_finite c s l p.data)

/-- After the section pointer the walk ends when the loop over the page pointers has ended. -/
lemma loadPage_ne_none_iff (fuel : ℕ) (c : Config) (uf : Bool) (page : ℕ) (wr : Bool) (p : Ptr)
    (s : Pager) : (loadPage fuel c uf page wr p s).1 ≠ none ↔
      ∀ q s', sectEnd c page p s = (some q, s') → ∃ r, run (follow c s' .page) fuel q = .inr r := by
  rw [loadPage]
  rcases hend : sectEnd c page p s with ⟨_ | q, s'⟩
  · simp
  · constructor
    · rintro h q' s'' heq
      cases heq
      cases hrun : run (follow c s' .page) fuel q with
      | inl q' => simp [hrun] at h
      | inr r => exact ⟨r, rfl⟩
    · intro h
      obtain ⟨r, hr⟩ := h q s' rfl
      simp only [hr]
      cases r <;> simp

/-- The walk ends when its loops do. -/
lemma loadT20_ends_iff (c : Config) (uf : Bool) (page : ℕ) (wr : Bool) (s : Pager) :
    (∃ fuel, (loadT20 fuel c uf page wr s).1 ≠ none) ↔
      Halts (follow c s .sect) (sectPtr c uf s) ∧ ∀ p q s', Finds c s .sect (sectPtr c uf s) p →
        sectEnd c page p s = (some q, s') → Halts (follow c s' .page) q := by
  constructor
  · rintro ⟨fuel, hfuel⟩
    rw [loadT20] at hfuel
    rcases hrun : run (follow c s .sect) fuel (sectPtr c uf s) with p | ⟨p | ⟨d, words⟩⟩
    · simp [hrun] at hfuel
    · simp only [hrun, loadPage_ne_none_iff] at hfuel
      refine ⟨⟨fuel, _, hrun⟩, ?_⟩
      rintro p' q s' ⟨n, hn⟩ hend
      cases run_unique hrun hn
      exact ⟨fuel, hfuel q s' hend⟩
    · refine ⟨⟨fuel, _, hrun⟩, ?_⟩
      rintro p' q s' ⟨n, hn⟩ -
      cases run_unique hrun hn
  · rintro ⟨⟨n, r, hn⟩, hpage⟩
    cases r with
    | fault d words => exact ⟨n, by simp [loadT20, hn]⟩
    | found p =>
        -- with fuel for both loops
        rcases hend : sectEnd c page p s with ⟨_ | q, s'⟩
        · refine ⟨n, ?_⟩
          simp only [loadT20, hn, loadPage_ne_none_iff, hend]
          rintro q s' ⟨⟩
        · obtain ⟨m, r, hm⟩ := hpage p q s' ⟨n, hn⟩ hend
          refine ⟨n + m, ?_⟩
          simp only [loadT20, run_of_le (Nat.le_add_right n m) hn, loadPage_ne_none_iff, hend]
          rintro q' s'' heq
          cases heq
          exact ⟨r, run_of_le (Nat.le_add_left m n) hm⟩

/-! ### The loop of the BBN pager -/

/-- What the course of the loop depends on: the word of the pointer, the number of pointers before
it, as far as it matters, and the conditions they leave. -/
def BbnPtr.node (mem : ℕ → ℕ) (p : BbnPtr) : ℕ × ℕ × ℕ :=
  (mem (p.base + p.map), min p.lvl 3, p.traps)

/-- The pointer that a shared or an indirect pointer leads to. -/
def Bbn.indirect (mem : ℕ → ℕ) (k : ℕ × ℕ × ℕ) : Option (ℕ × ℕ × ℕ) :=
  let kind := k.1 >>> 34 &&& 3
  let traps := k.2.2 &&& (k.1 &&& (bbnMerge ||| bbnPage))
  let shared := (k.1 &&& bbnSpt) >>> 9
  if Bbn.Trapped traps then none
  else if kind = 1 then some (mem (0o20000 + shared), min (k.2.1 + 1) 3, traps)
  else if kind = 2 ∧ k.2.1 ≠ 2 then
    some (mem (0o20000 + shared + (k.1 &&& bbnPn)), min (k.2.1 + 1) 3, traps)
  else none

/-- When an access walks the page tables, no pointer met leads back to itself. -/
def Bbn.WalkEnds (c : Config) (a : Access) (s : Bbn) : Prop :=
  s.pageFault = false → s.pageEnable = true → ∀ t addr, s.route c a = .mapped t addr →
    s.tlb t a.page = 0 → Acyclic (Bbn.indirect s.mem) ((s.firstPtr t a.page).node s.mem)

lemma Bbn.follow_follows (mem : ℕ → ℕ) :
    Follows (Bbn.follow mem) (BbnPtr.node mem) (Bbn.indirect mem) := by
  intro p
  have hmin : min (min p.lvl 3 + 1) 3 = min (p.lvl + 1) 3 := by lia
  have hlvl : min p.lvl 3 = 2 ↔ p.lvl = 2 := by lia
  rw [Bbn.indirect, Bbn.follow]
  simp only [BbnPtr.node, hmin, ne_eq, hlvl]
  generalize mem (p.base + p.map) >>> 34 &&& 3 = kind
  by_cases h0 : kind = 0
  · subst h0
    simp only [reduceIte, OfNat.zero_ne_ofNat, zero_ne_one, false_and, ite_self]
    split <;> rfl
  rw [if_neg h0]
  by_cases h1 : kind = 1
  · subst h1
    simp only [reduceIte]
    split <;> simp [BbnPtr.node]
  rw [if_neg h1, if_neg h1]
  by_cases h2 : kind = 2
  · subst h2
    by_cases hl : p.lvl = 2
    · simp [hl]
    · simp only [reduceIte, hl, not_false_eq_true, and_self]
      split <;> simp [BbnPtr.node]
  · simp [h2]

/-- There are finitely many to meet: a pointer leads to one of the first words of the memory. -/
lemma Bbn.indirect_finite (mem : ℕ → ℕ) (k : ℕ × ℕ × ℕ) :
    {k' | ReflTransGen (Leads (Bbn.indirect mem)) k k'}.Finite := by
  have hfin := ((Set.finite_Iio 0o50000).image mem).prod
    ((Set.finite_Iic 3).prod (Set.finite_Iic (bbnMerge ||| bbnPage)))
  refine (hfin.insert k).subset fun k' hk' => ?_
  rcases hk'.cases_tail with rfl | ⟨k₁, -, hlead⟩
  · exact Set.mem_insert _ _
  have htraps : k₁.2.2 &&& (k₁.1 &&& (bbnMerge ||| bbnPage)) ≤ bbnMerge ||| bbnPage :=
    Nat.and_le_right.trans Nat.and_le_right
  have hshared : (k₁.1 &&& bbnSpt) >>> 9 ≤ 0o17777 := by
    have hle : k₁.1 &&& bbnSpt ≤ bbnSpt := Nat.and_le_right
    rw [Nat.shiftRight_eq_div_pow]
    rw [bbnSpt] at hle ⊢
    omega
  have hpn : k₁.1 &&& bbnPn ≤ 0o777 := Nat.and_le_right
  refine Set.mem_insert_of_mem _ ?_
  unfold Leads Bbn.indirect at hlead
  dsimp only at hlead
  split at hlead
  · cases hlead
  split at hlead
  · cases hlead
    exact ⟨⟨_, Set.mem_Iio.mpr (by omega), rfl⟩, Set.mem_Iic.mpr (min_le_right _ _), htraps⟩
  · obtain ⟨-, rfl⟩ := TransSys.of_guard hlead
    exact ⟨⟨_, Set.mem_Iio.mpr (by omega), rfl⟩, Set.mem_Iic.mpr (min_le_right _ _), htraps⟩

/-- The loop ends exactly when no pointer met leads back to itself. -/
lemma Bbn.follow_halts_iff (mem : ℕ → ℕ) (p : BbnPtr) :
    Halts (Bbn.follow mem) p ↔ Acyclic (Bbn.indirect mem) (p.node mem) :=
  halts_iff_acyclic (Bbn.follow_follows mem) (Bbn.indirect_finite mem _)

lemma Bbn.access_ne_running (a : Access) (addr e : ℕ) (s : Bbn) :
    (s.access a addr e).1 ≠ .running := by
  rcases Bbn.access_cases a addr e s with ⟨d, -, h⟩ | ⟨-, l, h⟩ <;> rw [h] <;> simp [Bbn.faultBbn]

/-- Nothing after the loop goes round. -/
lemma Bbn.mapPage_ne_running (a : Access) (t : Table) (addr entry traps lvl : ℕ) (s : Bbn) :
    (s.mapPage a t addr entry traps lvl).1 ≠ .running := by
  rw [Bbn.mapPage]
  dsimp only
  split
  · simp [Bbn.faultBbn]
  split
  · simp [Bbn.faultBbn]
  · exact Bbn.access_ne_running _ _ _ _

/-- A lookup comes back when the loop ends, if there is one. -/
lemma Bbn.lookup_ends_iff (c : Config) (a : Access) (s : Bbn) :
    (∃ fuel, (s.pageLookupBbn fuel c a).1 ≠ .running) ↔ s.WalkEnds c a := by
  constructor
  · rintro ⟨fuel, hfuel⟩ hfault hon t addr hroute hmiss
    rw [Bbn.lookup_mapped fuel hfault hon hroute, if_neg (by simp [hmiss])] at hfuel
    rw [← Bbn.follow_halts_iff]
    cases hrun : run (Bbn.follow s.mem) fuel (s.firstPtr t a.page) with
    | inl p => rw [hrun] at hfuel; exact absurd rfl hfuel
    | inr r => exact ⟨fuel, r, hrun⟩
  · intro h
    by_cases hfault : s.pageFault = true
    · exact ⟨0, by simp [Bbn.pageLookupBbn, hfault]⟩
    by_cases hon : s.pageEnable = true
    · rcases hroute : s.route c a with addr | addr | ⟨t, addr⟩
      · exact ⟨0, by simp [Bbn.pageLookupBbn, hfault, hon, hroute]⟩
      · exact ⟨0, by simp [Bbn.pageLookupBbn, hfault, hon, hroute, Bbn.faultBbn]⟩
      have hfault : s.pageFault = false := by simpa using hfault
      by_cases hmiss : s.tlb t a.page = 0
      · have hhalts := h hfault hon t addr hroute hmiss
        rw [← Bbn.follow_halts_iff] at hhalts
        obtain ⟨n, r, hn⟩ := hhalts
        refine ⟨n, ?_⟩
        rw [Bbn.lookup_mapped n hfault hon hroute, if_neg (by simp [hmiss]), hn]
        cases r with
        | fault d => simp [Bbn.faultBbn]
        | found entry traps lvl => exact Bbn.mapPage_ne_running _ _ _ _ _ _ _
      · refine ⟨0, ?_⟩
        rw [Bbn.lookup_mapped 0 hfault hon hroute, if_pos hmiss]
        exact Bbn.access_ne_running _ _ _ _
    · exact ⟨0, by simp [Bbn.pageLookupBbn, hfault, hon]⟩

/-! ### The result -/

/-- **The ends of the walks**: the walk of the KL10 and the KS10 comes to an end exactly when no
section pointer and no page pointer that it meets leads back to itself, and the one of the BBN pager
exactly when no pointer does, with the same conditions left and, up to three, as many pointers
before it. -/
theorem walk_ends_iff (c : Config) (uf : Bool) (page : ℕ) (wr : Bool) (s : Pager) (a : Access)
    (b : Bbn) :
    ((∃ fuel, (loadT20 fuel c uf page wr s).1 ≠ none) ↔ WalkEnds c uf page s)
      ∧ ((∃ fuel, (b.pageLookupBbn fuel c a).1 ≠ .running) ↔ b.WalkEnds c a) := by
  refine ⟨?_, Bbn.lookup_ends_iff c a b⟩
  rw [loadT20_ends_iff, follow_halts_iff]
  simp only [follow_halts_iff]
  exact ⟨fun h => ⟨h.1, h.2⟩, fun h => ⟨h.sect, h.pg⟩⟩

/-- Every word is an indirect pointer to the first. -/
def Pager.cyclic : Pager := { blank with t20Page := true, mem := fun _ => 3 <<< 33 }

/-- Every word is a shared pointer. -/
def Bbn.cyclic : Bbn := { trapping with mem := fun _ => 1 <<< 34 }

/-- An indirect section pointer that leads to itself, on the KL10 and the KS10, and a shared pointer
that does, in the BBN pager, are followed for ever. -/
theorem walk_ends_fails :
    (∀ build ∈ [Build.kl, Build.ks], ¬ ∃ fuel,
        (loadT20 fuel { build } false 0 false Pager.cyclic).1 ≠ none)
      ∧ ¬ ∃ fuel, (Bbn.cyclic.pageLookupBbn fuel { build := .ka, bbn := true }
        { addr := 0o1000 }).1 ≠ .running := by
  constructor
  · intro build hbuild
    rw [loadT20_ends_iff, follow_halts_iff]
    rintro ⟨hacyclic, -⟩
    refine hacyclic _ .refl (.single ?_)
    fin_cases hbuild <;> decide
  · rw [Bbn.lookup_ends_iff]
    intro h
    have hacyclic := h rfl rfl .user 0o1000 rfl rfl
    refine hacyclic (1 <<< 34, 3, 0) ?_ (.single ?_)
    · refine .head (b := (1 <<< 34, 1, 0)) ?_ (.head (b := (1 <<< 34, 2, 0)) ?_ (.single ?_))
      all_goals decide
    · decide

end Ka10Simh.Pdp10
