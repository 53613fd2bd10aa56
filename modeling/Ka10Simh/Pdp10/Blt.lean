import Ka10Simh.Lib.Bits
import Ka10Simh.Lib.Copy
import Ka10Simh.Lib.Reaches
import Ka10Simh.Pdp10.Config
import Ka10Simh.Pdp10.Word

/-!
The block transfer: BLT of `sim_instr`.

The left half of the accumulator is the address of the next word of the source, the right half that
of the destination, and the effective address is the last of the destination. An interrupt between two
words, or a page fault, ends the instruction with `f_pc_inh` set, and it is executed again.

* `Blt.step`: one word, or what stops it.
* `Blt.copy`: the words of the source copied in ascending order.
* `blt_resumed`: the instruction ends, and a transfer that has been stopped and resumed at any points
  leaves the copy in memory.

A store has a word for each place an address leads to; two addresses may lead to one place. A fault of
an XCTR under ITS that skips is not among the events: it gives the instruction up.
-/

namespace Ka10Simh.Pdp10

open TransSys Word WordCopy

/-- `AOB`, which adds one to both halves. -/
def Config.aob (c : Config) (x : ℕ) : ℕ :=
  if c.kiOrLater then (x + 1 &&& rmask) ||| (x + 0o1000000 &&& (c1 ||| lmask)) else x + 0o1000001

/-- `#if KL | KS`: the accumulator is given its last value first. -/
def Config.precomputes (c : Config) : Bool := c.build == .kl || c.build == .ks

/-- A fault leaves the addresses in the accumulator, as an interrupt does. -/
def Config.savesOnFault (c : Config) : Bool := c.kiOrLater || c.its

/-- A BLT: the processor, the places of the addresses and of the accumulator, and the computation of
the effective address. -/
structure Blt (π : Type*) where
  cfg : Config
  place : ℕ → π
  acc : π
  ea : (π → ℕ) → ℕ
  ea_le : ∀ m, ea m ≤ rmask

/-- What happens at a word: it is copied, there is an interrupt, or one of its two accesses faults. -/
inductive BltEvent
  | word | irq | fault
  deriving DecidableEq

/-- `AR`, `BR` and the memory in the loop. -/
structure BltRun (π : Type*) where
  ar : ℕ
  br : ℕ
  br_le : br ≤ rmask
  mem : π → ℕ

/-- The instruction is to be executed, is in its loop, or has ended. -/
inductive BltState (π : Type*)
  | idle (mem : π → ℕ)
  | running (r : BltRun π)
  | done (mem : π → ℕ)

/-- The halves of `AR`. -/
def srcOf (ar : ℕ) : ℕ := ar >>> 18 &&& rmask
def dstOf (ar : ℕ) : ℕ := ar &&& rmask

namespace Blt

variable {π : Type*} [DecidableEq π] (b : Blt π)

/-- What comes before the loop. -/
def start (m : π → ℕ) : BltRun π :=
  let ar := m b.acc
  let br := b.ea m
  let words := ((fmask ^^^ ar) + br + 1) &&& rmask
  let last := ((ar + words <<< 18) &&& lmask) ||| ((ar + words) &&& rmask)
  { ar, br, br_le := b.ea_le m
    mem := if b.cfg.precomputes then Function.update m b.acc (b.cfg.aob last) else m }

/-- One pass of the loop. -/
def pass (r : BltRun π) : BltEvent → BltState π
  | .irq => .idle (Function.update r.mem b.acc r.ar)
  | .fault => .idle (if b.cfg.savesOnFault then Function.update r.mem b.acc r.ar else r.mem)
  | .word =>
      let mem := Function.update r.mem (b.place (dstOf r.ar)) (r.mem (b.place (srcOf r.ar)))
      if ((r.ar &&& rmask) + (fmask ^^^ r.br) + 1) &&& c1 = 0 then
        .running { r with ar := b.cfg.aob r.ar, mem }
      else .done mem

/-- The instruction is fetched again when it has been stopped. -/
def step : BltState π → BltEvent → BltState π
  | .idle m, ev => b.pass (b.start m) ev
  | .running r, ev => b.pass r ev
  | .done m, _ => .done m

/-- What a list of events leaves of it. -/
def run (evs : List BltEvent) (s : BltState π) : BltState π := evs.foldl b.step s

/-! ### The copy -/

/-- The words of a transfer. There is one at least. -/
def words (m : π → ℕ) : ℕ := b.ea m - dstOf (m b.acc) + 1

/-- Where word `i` comes from and where it goes. -/
def src (m : π → ℕ) (i : ℕ) : π := b.place ((srcOf (m b.acc) + i) % 2 ^ 18)
def dst (m : π → ℕ) (i : ℕ) : π := b.place (dstOf (m b.acc) + i)

/-- The words copied one after the other, from the first up. -/
def copy (m : π → ℕ) : π → ℕ := moves (b.src m) (b.dst m) 0 (b.words m) m

end Blt

/-! ### The two halves -/

lemma srcOf_eq (ar : ℕ) : srcOf ar = ar / 2 ^ 18 % 2 ^ 18 := by
  rw [srcOf, Nat.shiftRight_eq_div_pow]
  exact Nat.and_two_pow_sub_one_eq_mod _ 18

lemma dstOf_eq (ar : ℕ) : dstOf ar = ar % 2 ^ 18 := Nat.and_two_pow_sub_one_eq_mod _ 18

lemma dstOf_le (ar : ℕ) : dstOf ar ≤ rmask := Nat.and_le_right

lemma rmask_eq : rmask = 2 ^ 18 - 1 := rfl

/-- The two halves added up apart. -/
lemma halves_apart (c : Config) (hc : c.kiOrLater = true) (ar : ℕ) :
    c.aob ar = (ar + 0o1000000) / 2 ^ 18 % 2 ^ 19 * 2 ^ 18 + (ar + 1) % 2 ^ 18 := by
  have hleft : ar + 0o1000000 &&& (c1 ||| lmask) = (ar + 0o1000000) / 2 ^ 18 % 2 ^ 19 * 2 ^ 18 := by
    rw [show c1 ||| lmask = (2 ^ 19 - 1) <<< 18 from rfl, and_shiftLeft, Nat.and_two_pow_sub_one_eq_mod,
      Nat.shiftRight_eq_div_pow, Nat.shiftLeft_eq]
  have hright : ar + 1 &&& rmask = (ar + 1) % 2 ^ 18 := Nat.and_two_pow_sub_one_eq_mod _ 18
  rw [Config.aob, if_pos hc, hleft, hright, Nat.or_comm]
  exact or_eq_add (Dvd.intro_left _ rfl) (Nat.mod_lt _ (by norm_num))

/-- Both addresses go up by one, up to the last of the destination. -/
lemma halves_aob (c : Config) {ar : ℕ} (h : dstOf ar < rmask) :
    srcOf (c.aob ar) = (srcOf ar + 1) % 2 ^ 18 ∧ dstOf (c.aob ar) = dstOf ar + 1 := by
  rw [dstOf_eq, rmask_eq] at h
  rw [srcOf_eq, srcOf_eq, dstOf_eq, dstOf_eq]
  cases hc : c.kiOrLater with
  | true =>
      rw [halves_apart c hc]
      omega
  | false =>
      rw [Config.aob, if_neg (by simp [hc])]
      omega

/-- The carry that ends the loop. -/
lemma carry_eq_zero_iff {d br : ℕ} (hd : d ≤ rmask) (hbr : br ≤ rmask) :
    (d + (fmask ^^^ br) + 1) &&& c1 = 0 ↔ d < br := by
  rw [rmask_eq] at hd hbr
  have hcm : fmask ^^^ br = 2 ^ 36 - 1 - br := mask_xor (n := 36) (by omega)
  rw [hcm, show c1 = 2 ^ 36 from rfl, and_two_pow_eq_zero, Nat.testBit_eq_decide_div_mod_eq,
    decide_eq_false_iff_not]
  omega

namespace Blt

variable {π : Type*} {b : Blt π}

/-! ### The end of a transfer -/

/-- The words still to come. -/
def remaining (b : Blt π) : BltState π → ℕ
  | .idle m => b.words m
  | .running r => r.br - dstOf r.ar + 1
  | .done _ => 0

lemma remaining_le (s : BltState π) : b.remaining s ≤ 2 ^ 18 := by
  cases s with
  | idle m =>
      have hea := b.ea_le m
      simp only [remaining, words]
      rw [rmask_eq] at hea
      omega
  | running r =>
      have hbr := r.br_le
      simp only [remaining]
      rw [rmask_eq] at hbr
      omega
  | done m => exact Nat.zero_le _

lemma done_of_remaining {s : BltState π} (h : b.remaining s = 0) : ∃ m, s = .done m := by
  cases s with
  | idle m => exact absurd h (Nat.succ_ne_zero _)
  | running r => exact absurd h (Nat.succ_ne_zero _)
  | done m => exact ⟨m, rfl⟩

variable [DecidableEq π]

/-- A word that is copied. -/
lemma remaining_pass (r : BltRun π) : b.remaining (b.pass r .word) = r.br - dstOf r.ar := by
  simp only [pass]
  split_ifs with hcarry
  · have hlt := (carry_eq_zero_iff (dstOf_le r.ar) r.br_le).mp hcarry
    have hdst := (halves_aob b.cfg (hlt.trans_le r.br_le)).2
    simp only [remaining, hdst]
    lia
  · have hge := (carry_eq_zero_iff (dstOf_le r.ar) r.br_le).not.mp hcarry
    simp only [remaining]
    omega

lemma remaining_step (s : BltState π) : b.remaining (b.step s .word) = b.remaining s - 1 := by
  cases s with
  | idle m => exact remaining_pass (b.start m)
  | running r => exact remaining_pass r
  | done m => rfl

lemma remaining_run (n : ℕ) (s : BltState π) :
    b.remaining (b.run (List.replicate n .word) s) = b.remaining s - n := by
  induction n generalizing s with
  | zero => rfl
  | succ n ih =>
      rw [List.replicate_succ, run, List.foldl_cons, ← run, ih, remaining_step]
      lia

/-! ### What holds at every word -/

variable {m m₁ : π → ℕ} {X : Set π} {ok : BltEvent → Prop}

/-- `ar` has the addresses of word `k`. -/
def AtWord (b : Blt π) (m : π → ℕ) (k ar : ℕ) : Prop :=
  srcOf ar = (srcOf (m b.acc) + k) % 2 ^ 18 ∧ dstOf ar = dstOf (m b.acc) + k

/-- The words from `k` on complete the copy, but for the places of `X`. -/
def Rest (b : Blt π) (m : π → ℕ) (X : Set π) (k : ℕ) (m₁ : π → ℕ) : Prop :=
  Set.EqOn (moves (b.src m) (b.dst m) k (b.words m - k) m₁) (b.copy m) Xᶜ

/-- Only the destination and the accumulator are changed. -/
def Frame (b : Blt π) (m m₁ : π → ℕ) : Prop :=
  ∀ p, p ≠ b.acc → (∀ i < b.words m, p ≠ b.dst m i) → m₁ p = m p

/-- What a transfer asks for: `X` may have the accumulator and nothing the source has; the effective
address is the same when the instruction is executed again; and no word is taken from the place of a
later one where the words since the last interrupt are copied again. -/
structure Guards (b : Blt π) (m : π → ℕ) (X : Set π) (ok : BltEvent → Prop) : Prop where
  dst : ∀ i < b.words m, b.dst m i ≠ b.acc
  src : ∀ i < b.words m, b.src m i ∉ X
  acc : b.cfg.precomputes = true ∨ ok .irq ∨ ok .fault → b.acc ∈ X
  ea : ok .irq ∨ ok .fault → ∀ m₁, b.Frame m m₁ → b.ea m₁ = b.ea m
  redo : b.cfg.savesOnFault = true ∨ ¬ ok .fault ∨
    ∀ l k, l < k → k < b.words m → b.src m l ≠ b.dst m k

/-- At the start of the instruction. -/
structure IdleAt (b : Blt π) (m : π → ℕ) (X : Set π) (j : ℕ) (m₁ : π → ℕ) : Prop where
  lt : j < b.words m
  atWord : b.AtWord m j (m₁ b.acc)
  ea : b.ea m₁ = b.ea m
  rest : b.Rest m X j m₁
  frame : b.Frame m m₁

/-- In the loop. Where a fault leaves the accumulator alone the words since it was last saved can be
copied again. -/
structure RunAt (b : Blt π) (m : π → ℕ) (X : Set π) (ok : BltEvent → Prop) (k : ℕ) (r : BltRun π) :
    Prop where
  lt : k < b.words m
  atWord : b.AtWord m k r.ar
  ea : r.br = b.ea m
  rest : b.Rest m X k r.mem
  frame : b.Frame m r.mem
  back : b.cfg.savesOnFault = false → ok .fault →
    ∃ j ≤ k, b.AtWord m j (r.mem b.acc) ∧ b.Rest m X j r.mem

def Inv (b : Blt π) (m : π → ℕ) (X : Set π) (ok : BltEvent → Prop) : BltState π → Prop
  | .idle m₁ => ∃ j, b.IdleAt m X j m₁
  | .running r => ∃ k, b.RunAt m X ok k r
  | .done m₁ => Set.EqOn m₁ (b.copy m) Xᶜ

lemma Rest.congr (hg : b.Guards m X ok) {k : ℕ} {m₂ : π → ℕ} (hk : k < b.words m)
    (heq : Set.EqOn m₂ m₁ Xᶜ) (h : b.Rest m X k m₁) : b.Rest m X k m₂ := by
  intro p hp
  rw [← h hp]
  exact moves_eqOn (fun l _ hl => hg.src l (by omega)) heq hp

lemma update_eqOn (hacc : b.acc ∈ X) (v : ℕ) : Set.EqOn (Function.update m₁ b.acc v) m₁ Xᶜ :=
  fun _ hp => Function.update_of_ne (ne_of_mem_of_not_mem hacc hp).symm _ _

lemma Frame.update (h : b.Frame m m₁) (v : ℕ) : b.Frame m (Function.update m₁ b.acc v) :=
  fun p hp hdst => (Function.update_of_ne hp _ _).trans (h p hp hdst)

/-- The instruction is fetched. -/
lemma runAt_start (hg : b.Guards m X ok) {j : ℕ} (h : b.IdleAt m X j m₁) :
    b.RunAt m X ok j (b.start m₁) where
  lt := h.lt
  atWord := h.atWord
  ea := h.ea
  rest := by
    simp only [start]
    split_ifs with hpre
    · exact h.rest.congr hg h.lt (update_eqOn (hg.acc (.inl hpre)) _)
    · exact h.rest
  frame := by
    simp only [start]
    split_ifs
    · exact h.frame.update _
    · exact h.frame
  back := fun hsaves _ => by
    have hpre : b.cfg.precomputes = false := by
      simp only [Config.savesOnFault, Config.kiOrLater, Config.precomputes] at hsaves ⊢
      cases hbuild : b.cfg.build <;> simp_all
    refine ⟨j, le_rfl, ?_⟩
    simp only [start, hpre]
    exact ⟨h.atWord, h.rest⟩

/-- A word is copied. -/
lemma inv_word (hg : b.Guards m X ok) {k : ℕ} {r : BltRun π} (h : b.RunAt m X ok k r) :
    b.Inv m X ok (b.pass r .word) := by
  have hmem : Function.update r.mem (b.place (dstOf r.ar)) (r.mem (b.place (srcOf r.ar)))
      = move (b.src m) (b.dst m) k r.mem := by
    rw [move, src, dst, h.atWord.1, h.atWord.2]
  have hrest : b.Rest m X k r.mem ↔ Set.EqOn (moves (b.src m) (b.dst m) (k + 1) (b.words m - (k + 1))
      (move (b.src m) (b.dst m) k r.mem)) (b.copy m) Xᶜ := by
    have hlt := h.lt
    rw [Rest, show b.words m - k = b.words m - (k + 1) + 1 by lia, moves]
  have hlt := h.lt
  have hcarry := carry_eq_zero_iff (dstOf_le r.ar) r.br_le
  simp only [pass, hmem]
  split_ifs with hc
  · have hbr := hcarry.mp hc
    have hdst := h.atWord.2
    have hnext := halves_aob b.cfg (hbr.trans_le r.br_le)
    refine ⟨k + 1, ?_, ⟨?_, ?_⟩, h.ea, hrest.mp h.rest, ?_, ?_⟩
    · rw [h.ea] at hbr
      rw [words]
      lia
    · rw [hnext.1, h.atWord.1]
      lia
    · rw [hnext.2, hdst]
      omega
    · intro p hp hout
      exact (move_of_ne (hout k hlt) _).trans (h.frame p hp hout)
    · intro hsaves hfault
      obtain ⟨j, hjk, hat, hback⟩ := h.back hsaves hfault
      have hredo := (hg.redo.resolve_left (by simp [hsaves])).resolve_left (not_not.mpr hfault)
      refine ⟨j, by lia, ?_, ?_⟩
      · show b.AtWord m j (move _ _ _ _ _)
        rwa [move_of_ne (hg.dst k hlt).symm]
      · show Set.EqOn _ _ _
        rw [moves_move hjk (by lia) fun l _ hl => hredo l k hl hlt]
        exact hback
  · have hbr := hcarry.not.mp hc
    have hwords : b.words m = k + 1 := by
      rw [h.ea, h.atWord.2] at hbr
      rw [words] at hlt ⊢
      lia
    have hlast := hrest.mp h.rest
    rwa [hwords, Nat.sub_self, moves] at hlast

/-- The instruction is stopped with the addresses saved. -/
lemma inv_saved (hg : b.Guards m X ok) (hstop : ok .irq ∨ ok .fault) {k : ℕ} {r : BltRun π}
    (h : b.RunAt m X ok k r) : b.IdleAt m X k (Function.update r.mem b.acc r.ar) where
  lt := h.lt
  atWord := by
    rw [Function.update_self]
    exact h.atWord
  ea := hg.ea hstop _ (h.frame.update _)
  rest := h.rest.congr hg h.lt (update_eqOn (hg.acc (.inr hstop)) _)
  frame := h.frame.update _

lemma inv_pass (hg : b.Guards m X ok) {k : ℕ} {r : BltRun π} (h : b.RunAt m X ok k r)
    {ev : BltEvent} (hev : ok ev) : b.Inv m X ok (b.pass r ev) := by
  cases ev with
  | word => exact inv_word hg h
  | irq => exact ⟨k, inv_saved hg (.inl hev) h⟩
  | fault =>
      simp only [pass]
      split_ifs with hsaves
      · exact ⟨k, inv_saved hg (.inr hev) h⟩
      · obtain ⟨j, hjk, hat, hback⟩ := h.back (Bool.eq_false_iff.mpr hsaves) hev
        exact ⟨j, hjk.trans_lt h.lt, hat, hg.ea (.inr hev) _ h.frame, hback, h.frame⟩

/-- One step. -/
lemma inv_step (hg : b.Guards m X ok) (s : BltState π) (ev : BltEvent) (s' : BltState π)
    (h : b.Inv m X ok s) (hev : ok ev) (hstep : ofFun b.step s ev s') : b.Inv m X ok s' := by
  subst hstep
  cases s with
  | idle m₁ =>
      obtain ⟨j, hj⟩ := h
      exact inv_pass hg (runAt_start hg hj) hev
  | running r =>
      obtain ⟨k, hk⟩ := h
      exact inv_pass hg hk hev
  | done m₁ => exact h

lemma inv_start : b.Inv m X ok (.idle m) := by
  refine ⟨0, Nat.succ_pos _, ⟨?_, rfl⟩, rfl, fun _ _ => rfl, fun _ _ _ => rfl⟩
  rw [Nat.add_zero, srcOf_eq, Nat.mod_mod]

/-- A run. -/
lemma run_reaches (evs : List BltEvent) (s : BltState π) :
    Reaches (ofFun b.step) (fun _ ev => ev ∈ evs) s (b.run evs s) :=
  Reaches.foldl (fun _ hev _ => hev) s

lemma copy_of_done (hg : b.Guards m X ok) {evs : List BltEvent} (hevs : ∀ ev ∈ evs, ok ev)
    {m' : π → ℕ} (hdone : b.run evs (.idle m) = .done m') : Set.EqOn m' (b.copy m) Xᶜ := by
  have hinv := (run_reaches (b := b) evs (.idle m)).invariant (I := b.Inv m X ok) inv_start
    fun s ev s' h hev hstep => inv_step hg s ev s' h (hevs ev hev) hstep
  rwa [hdone] at hinv

/-- What a BLT with these events must not do: have its accumulator in the destination; have it in the
source, when it is written before the end; have an effective address that depends on what the transfer
changes, when it is stopped; and, when there are faults that do not save the addresses, take a word
from the place of a later one. -/
structure Sound (b : Blt π) (m : π → ℕ) (evs : List BltEvent) : Prop where
  dst : ∀ i < b.words m, b.dst m i ≠ b.acc
  src : (∀ i < b.words m, b.src m i ≠ b.acc) ∨
    b.cfg.precomputes = false ∧ ∀ ev ∈ evs, ev = .word
  ea : (∀ m₁, b.Frame m m₁ → b.ea m₁ = b.ea m) ∨ ∀ ev ∈ evs, ev = .word
  redo : b.cfg.savesOnFault = true ∨ .fault ∉ evs ∨
    ∀ l k, l < k → k < b.words m → b.src m l ≠ b.dst m k

omit [DecidableEq π] in
/-- With the accumulator set aside, or nothing when it is not written. -/
lemma Sound.guards {evs : List BltEvent} (h : b.Sound m evs) :
    ∃ X ⊆ {b.acc}, b.Guards m X (· ∈ evs) := by
  have hea : .irq ∈ evs ∨ .fault ∈ evs → ∀ m₁, b.Frame m m₁ → b.ea m₁ = b.ea m := by
    intro hstop
    refine h.ea.resolve_right fun hword => ?_
    rcases hstop with hirq | hfault
    · cases hword _ hirq
    · cases hword _ hfault
  rcases h.src with hsrc | ⟨hpre, hword⟩
  · exact ⟨{b.acc}, subset_rfl, h.dst, fun i hi => hsrc i hi, fun _ => rfl, hea, h.redo⟩
  · refine ⟨∅, Set.empty_subset _, h.dst, fun _ _ => id, ?_, hea, h.redo⟩
    rintro (hp | hirq | hfault)
    · rw [hpre] at hp
      cases hp
    · cases hword _ hirq
    · cases hword _ hfault

/-- A BLT leaves the copy when its accumulator is not in the destination. -/
def Copies (b : Blt π) (m : π → ℕ) (evs : List BltEvent) : Prop :=
  (∀ i < b.words m, b.dst m i ≠ b.acc) → ∀ m', b.run evs (.idle m) = .done m' →
    ∀ p ≠ b.acc, m' p = b.copy m p

end Blt

open Blt

/-- **Block transfers**: whatever has happened, a BLT that is left alone ends within `2 ^ 18` words; and
a sound one that has ended, however often it has been stopped and resumed, leaves the words of its
source copied one after the other, but for its accumulator. -/
theorem blt_resumed {π : Type} [DecidableEq π] (b : Blt π) (m : π → ℕ) (evs : List BltEvent) :
    (∃ n ≤ 2 ^ 18, ∃ m', b.run (evs ++ List.replicate n .word) (.idle m) = .done m') ∧
      ∀ m', b.Sound m evs → b.run evs (.idle m) = .done m' → ∀ p ≠ b.acc, m' p = b.copy m p := by
  constructor
  · refine ⟨b.remaining (b.run evs (.idle m)), remaining_le _, done_of_remaining (b := b) ?_⟩
    rw [run, List.foldl_append]
    exact (remaining_run _ _).trans (Nat.sub_self _)
  · intro m' hsound hdone p hp
    obtain ⟨X, hX, hg⟩ := hsound.guards
    exact copy_of_done hg (fun _ => id) hdone fun hpX => hp (hX hpX)

/-- A transfer with accumulator 1 up to an address, which may be indexed by the accumulator. -/
def sampleBlt (build : Build) (last : ℕ) (indexed : Bool := false) : Blt ℕ where
  cfg := { build }
  place := id
  acc := 1
  ea := fun m => (last + if indexed then m 1 else 0) % 2 ^ 18
  ea_le := fun _ => Nat.le_of_lt_succ (Nat.mod_lt _ (by norm_num))

/-- An accumulator, and numbers in memory. -/
def sampleWords (ac p : ℕ) : ℕ := if p = 1 then ac else p

/-- A move down by one word that is stopped twice. -/
theorem blt_resumed_sample :
    ∀ m', (sampleBlt .ki 0o102).run [.word, .fault, .word, .irq, .word]
        (.idle (sampleWords 0o101000100)) = .done m' →
      ∀ p ≠ 1, m' p = (sampleBlt .ki 0o102).copy (sampleWords 0o101000100) p := fun m' =>
  (blt_resumed (sampleBlt .ki 0o102) (sampleWords 0o101000100) [.word, .fault, .word, .irq, .word]).2 m'
    ⟨by decide, .inl (by decide), .inl fun _ _ => rfl, .inl rfl⟩

/-- The KL10 copies the last value of an accumulator in the source; the KI10 copies what an interrupt
has saved in it; the KA10 copies a word again from a place that has been overwritten, after a fault;
and a transfer indexed by its accumulator has another end when it is resumed. -/
theorem blt_resumed_fails :
    ¬ (sampleBlt .kl 0o100).Copies (sampleWords 0o1000100) [.word]
      ∧ ¬ (sampleBlt .ki 0o101).Copies (sampleWords 0o100) [.word, .irq, .word]
      ∧ ¬ (sampleBlt .ka 0o102).Copies (sampleWords 0o101000100)
          [.word, .word, .fault, .word, .word, .word]
      ∧ ¬ (sampleBlt .ki 0o1 true).Copies (sampleWords 0o200000100)
          [.word, .irq, .word, .word] := by
  refine ⟨fun h => ?_, fun h => ?_, fun h => ?_, fun h => ?_⟩
  · exact absurd (h (by decide) _ rfl 0o100 (by decide)) (by decide)
  · exact absurd (h (by decide) _ rfl 0o101 (by decide)) (by decide)
  · exact absurd (h (by decide) _ rfl 0o100 (by decide)) (by decide)
  · exact absurd (h (by decide) _ rfl 0o102 (by decide)) (by decide)

end Ka10Simh.Pdp10
