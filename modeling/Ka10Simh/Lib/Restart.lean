import Ka10Simh.Lib.Iterate

/-!
Instructions that can be stopped, and are executed again when what stopped them has been repaired.

An instruction takes the faults there are and a state to the state that it leaves, with the fault it has been
stopped by, if any.

* `restart`: the instruction executed again until it is not stopped.
* `Restartable.restart_eq`: this gives what an execution without faults gives, if what a stopped execution leaves
  comes to that.
* `Interruptible`: a loop that is stopped with the state of a turn, for instructions that are one.
-/

namespace Restart

variable {φ σ : Type*} [DecidableEq φ]

/-! ### Instructions -/

section Instructions

variable (exec : Finset φ → σ → σ × Option φ) (repair : Finset φ → φ → Finset φ)

/-- The instruction executed until it is not stopped, `n` times at most. -/
def restart : ℕ → Finset φ → σ → Option σ
  | 0, _, _ => none
  | n + 1, F, s =>
      match exec F s with
      | (s', none) => some s'
      | (s', some f) => restart n (repair F f) s'

/-- The states that it is executed in. -/
def entries : ℕ → Finset φ → σ → List σ
  | 0, _, _ => []
  | n + 1, F, s =>
      s :: match exec F s with
        | (_, none) => []
        | (s', some f) => entries n (repair F f) s'

/-- What a stopped execution leaves comes to the end of an execution without faults, which is not stopped. -/
structure Restartable : Prop where
  cases : ∀ F s, exec F s = exec ∅ s
    ∨ ∃ f ∈ F, ∃ s', exec F s = (s', some f) ∧ exec ∅ s' = exec ∅ s
  free : ∀ s, (exec ∅ s).2 = none

variable {exec repair}

/-- **Restarting**: an instruction that is executed again after each repair comes to the end of an execution
without faults. -/
theorem Restartable.restart_eq (h : Restartable exec) (hrepair : ∀ F f, repair F f ⊆ F.erase f) {n : ℕ}
    {F : Finset φ} (hcard : F.card < n) (s : σ) : restart exec repair n F s = some (exec ∅ s).1 := by
  induction n generalizing F s with
  | zero => omega
  | succ n ih =>
      rw [restart]
      rcases h.cases F s with heq | ⟨f, hf, s', hstop, heq⟩
      · rw [heq]
        rcases hend : exec ∅ s with ⟨s', stop⟩
        obtain rfl : stop = none := (congrArg Prod.snd hend).symm.trans (h.free s)
        rfl
      · have hfewer : (repair F f).card < n := by
          have hle := Finset.card_le_card (hrepair F f)
          have hlt := Finset.card_erase_lt_of_mem hf
          omega
        rw [hstop]
        show restart exec repair n (repair F f) s' = _
        rw [ih hfewer, heq]

/-- What no stopped execution changes is the same in all states that the instruction is executed in. -/
theorem entries_eq {α : Type*} {obs : σ → α} (h : ∀ F s s' f, exec F s = (s', some f) → obs s' = obs s)
    (n : ℕ) (F : Finset φ) (s : σ) : ∀ t ∈ entries exec repair n F s, obs t = obs s := by
  induction n generalizing F s with
  | zero => exact fun t ht => absurd ht List.not_mem_nil
  | succ n ih =>
      intro t ht
      rw [entries] at ht
      rcases hexec : exec F s with ⟨s', _ | f⟩ <;> simp only [hexec, List.mem_cons, List.not_mem_nil, or_false] at ht
      · rw [ht]
      · rcases ht with rfl | ht
        · rfl
        · rw [ih _ _ t ht, h F s s' f hexec]

end Instructions

/-! ### Loops -/

section Loops

open Iterate

variable {body : Finset φ → σ → σ ⊕ (σ × Option φ)}

/-- The turns of a loop that are stopped leave no trace, and the others are those without faults. -/
structure Interruptible (body : Finset φ → σ → σ ⊕ (σ × Option φ)) : Prop where
  turn : ∀ F s, body F s = body ∅ s ∨ ∃ f ∈ F, body F s = .inr (s, some f)
  free : ∀ s s' f, body ∅ s ≠ .inr (s', some f)

/-- A loop comes to what it comes to without faults, or is stopped on the way. -/
lemma Interruptible.run_cases (h : Interruptible body) (F : Finset φ) (n : ℕ) (s : σ) :
    run (body F) n s = run (body ∅) n s
      ∨ ∃ f ∈ F, ∃ s', run (body F) n s = .inr (s', some f) ∧ body F s' = .inr (s', some f)
        ∧ ∃ k, run (body ∅) k s = .inl s' := by
  induction n generalizing s with
  | zero => exact .inl rfl
  | succ n ih =>
      rcases h.turn F s with hturn | ⟨f, hf, hstop⟩
      · rw [run_succ, run_succ, hturn]
        cases hs : body ∅ s with
        | inr r => exact .inl rfl
        | inl t =>
            rcases ih t with heq | ⟨f, hf, s', hrun, hbody, k, hk⟩
            · exact .inl heq
            · refine .inr ⟨f, hf, s', hrun, hbody, k + 1, ?_⟩
              rw [run_succ, hs]
              exact hk
      · refine .inr ⟨f, hf, s, ?_, hstop, 0, rfl⟩
        rw [run_succ, hstop]
        rfl

/-- Without faults it is not stopped. -/
lemma Interruptible.run_free (h : Interruptible body) (n : ℕ) (s s' : σ) (f : φ) :
    run (body ∅) n s ≠ .inr (s', some f) := by
  intro hrun
  have hnever : (run (body ∅) n s).elim (fun _ => True) fun r => r.2 = none := by
    refine run_invariant trivial (fun _ _ _ _ => trivial) (fun t r _ hr => ?_) n
    rcases r with ⟨t', _ | f⟩
    · rfl
    · exact absurd hr (h.free t t' f)
  rw [hrun] at hnever
  cases hnever

/-- Going on from there, it ends with the result of the loop. -/
lemma run_from {s t : σ} {k m n : ℕ} {r r' : σ × Option φ} (hk : run (body ∅) k s = .inl t)
    (ht : run (body ∅) m t = .inr r') (hs : run (body ∅) n s = .inr r) : r' = r := by
  have hkm : run (body ∅) (k + m) s = .inr r' := by
    rw [run_add, hk]
    exact ht
  have hfst := run_of_le (Nat.le_add_right (k + m) n) hkm
  have hsnd := run_of_le (Nat.le_add_left n (k + m)) hs
  exact Sum.inr.inj (hfst.symm.trans hsnd)

end Loops

end Restart
