import Mathlib.Tactic

/-!
Runs of labelled transition systems.

A system is a relation `step s e s'`, the event `e` taking the state `s` to `s'`. A run is
qualified by a condition `ok s e` on the state an event finds and on the event itself:
`Reaches step ok s₀ s` says that some run from `s₀`, every step of which meets `ok`, passes
through `s`.

* `Reaches.invariant`: what holds at the start and is kept by every step that meets `ok` holds
  in every state reached.
* `Reaches.foldl`, `Reaches.foldlM`: a fold of a step function over a list of events is an
  unqualified run.
-/

namespace TransSys

variable {σ ε : Type*}

/-- The step relation of a step function. -/
def ofFun (f : σ → ε → σ) (s : σ) (e : ε) (s' : σ) : Prop := f s e = s'

/-- The step relation of a step function that an event may find disabled. -/
def ofPartial (f : σ → ε → Option σ) (s : σ) (e : ε) (s' : σ) : Prop := f s e = some s'

/-- A guarded step that was taken met its guard. -/
theorem of_guard {p : Prop} [Decidable p] {s s' : σ} (h : (if p then some s else none) = some s') :
    p ∧ s = s' := by
  rwa [Option.ite_none_right_eq_some, Option.some.injEq] at h

/-- The states passed through by the runs from `s₀` whose every step meets `ok`. -/
inductive Reaches (step : σ → ε → σ → Prop) (ok : σ → ε → Prop) (s₀ : σ) : σ → Prop
  | start : Reaches step ok s₀ s₀
  | next {s s' : σ} {e : ε} : Reaches step ok s₀ s → ok s e → step s e s' →
      Reaches step ok s₀ s'

/-- The condition every step meets. -/
def anyStep : σ → ε → Prop := fun _ _ => True

namespace Reaches

variable {step : σ → ε → σ → Prop} {ok : σ → ε → Prop} {s₀ s : σ}

/-- **The invariant rule**: what holds at the start and is kept by every step that meets `ok`
holds in every state reached. -/
theorem invariant {I : σ → Prop} (h₀ : I s₀)
    (hstep : ∀ s e s', I s → ok s e → step s e s' → I s') (h : Reaches step ok s₀ s) : I s := by
  induction h with
  | start => exact h₀
  | next _ hok hs ih => exact hstep _ _ _ ih hok hs

/-- Folding a step function over a list of events is a run, and events that meet the condition in
every state give a run that meets it. -/
theorem foldl {f : σ → ε → σ} {es : List ε} (hok : ∀ e ∈ es, ∀ s, ok s e) (s₀ : σ) :
    Reaches (ofFun f) ok s₀ (es.foldl f s₀) := by
  induction es using List.reverseRecOn with
  | nil => exact .start
  | append_singleton es e ih =>
      rw [List.foldl_append]
      exact .next (ih fun e he => hok e (by simp [he])) (hok e (by simp) _) rfl

/-- So is a fold of a partial step function that no event finds disabled. -/
theorem foldlM {f : σ → ε → Option σ} {es : List ε} (hok : ∀ e ∈ es, ∀ s, ok s e)
    (h : es.foldlM f s₀ = some s) : Reaches (ofPartial f) ok s₀ s := by
  induction es using List.reverseRecOn generalizing s with
  | nil =>
      cases h
      exact .start
  | append_singleton es e ih =>
      rw [List.foldlM_append, Option.bind_eq_bind, Option.bind_eq_some_iff] at h
      obtain ⟨s', hs', hs⟩ := h
      rw [List.foldlM_cons] at hs
      exact .next (ih (fun e he => hok e (by simp [he])) hs') (hok e (by simp) s')
        (by simpa [ofPartial] using hs)

end Reaches

end TransSys
