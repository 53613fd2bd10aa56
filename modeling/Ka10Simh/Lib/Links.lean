import Mathlib.Tactic

/-!
Linked lists.

* `Links.Chain`: the nodes of a list, from its head on.
* `Links.Chain.push`: a node put in front.
* `Links.Chain.congr`: a list does not depend on the links of other nodes.
-/

namespace Links

variable {ν : Type*} {next next' : ν → Option ν} {head : Option ν} {p : ν} {l l' : List ν}

/-- The nodes of a list: each one is followed by the one that its link names, and the last one by none. -/
def Chain (next : ν → Option ν) : Option ν → List ν → Prop
  | head, [] => head = none
  | head, p :: l => head = some p ∧ Chain next (next p) l

@[simp] lemma chain_nil : Chain next head [] ↔ head = none := Iff.rfl

lemma chain_none : Chain next none l ↔ l = [] := by
  cases l with
  | nil => exact iff_of_true rfl rfl
  | cons p l => exact iff_of_false (fun h ↦ nomatch h.1) (List.cons_ne_nil p l)

lemma Chain.some (h : Chain next (some p) l) : ∃ rest, l = p :: rest ∧ Chain next (next p) rest := by
  cases l with
  | nil => exact nomatch h
  | cons q rest =>
      obtain rfl := Option.some.inj h.1
      exact ⟨rest, rfl, h.2⟩

/-- **A list does not depend on the links of other nodes.** -/
theorem Chain.congr (h : Chain next head l) (hsame : ∀ q ∈ l, next' q = next q) : Chain next' head l := by
  induction l generalizing head with
  | nil => exact h
  | cons p l ih =>
      refine ⟨h.1, ?_⟩
      rw [hsame p List.mem_cons_self]
      exact ih h.2 fun q hq ↦ hsame q (List.mem_cons_of_mem p hq)

variable [DecidableEq ν]

/-- A node that is not in a list may be linked anew. -/
lemma Chain.update (h : Chain next head l) (hout : p ∉ l) (link : Option ν) :
    Chain (Function.update next p link) head l :=
  h.congr fun _ hq ↦ Function.update_of_ne (ne_of_mem_of_not_mem hq hout) _ _

/-- **A node put in front of a list.** -/
theorem Chain.push (h : Chain next head l) (hout : p ∉ l) : Chain (Function.update next p head) (Option.some p) (p :: l) := by
  refine ⟨rfl, ?_⟩
  rw [Function.update_self]
  exact h.update hout head

end Links
