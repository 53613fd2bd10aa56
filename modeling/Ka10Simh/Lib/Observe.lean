import Mathlib.Tactic

/-!
Machines that answer their inputs, and what an observer of the answers can tell.

* `Observe.answers`: the answers of a machine to a list of inputs.
* `Observe.answers_eq`: the unwinding rule. States that a relation keeps together, each step answering
  alike from both, answer every list of inputs alike.
-/

namespace Observe

variable {σ ι ο : Type*}

/-- The answers of a machine to a list of inputs. -/
def answers (step : σ → ι → ο × σ) : σ → List ι → List ο
  | _, [] => []
  | s, i :: is => (step s i).1 :: answers step (step s i).2 is

/-- A relation that a machine cannot break, and whose states answer alike. -/
structure Unwinding (step : σ → ι → ο × σ) (R : σ → σ → Prop) : Prop where
  answer : ∀ s t i, R s t → (step s i).1 = (step t i).1
  next : ∀ s t i, R s t → R (step s i).2 (step t i).2

/-- **The unwinding rule**: related states answer every list of inputs alike. -/
theorem answers_eq {step : σ → ι → ο × σ} {R : σ → σ → Prop} (h : Unwinding step R) {s t : σ}
    (hR : R s t) (is : List ι) : answers step s is = answers step t is := by
  induction is generalizing s t with
  | nil => rfl
  | cons i is ih => rw [answers, answers, h.answer s t i hR, ih (h.next s t i hR)]

end Observe
