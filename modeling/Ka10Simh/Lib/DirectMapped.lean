import Mathlib.Tactic

/-!
Direct mapped buffers of a table: each slot has room for one key with its value.

* `DirectMapped.Coherent`: what the buffer has is what the table has.
* `DirectMapped.Coherent.lookup_eq`: a lookup that finds its key finds the value of the table.
-/

namespace DirectMapped

variable {ι κ β : Type*}

/-- What is found for a key. -/
def lookup [DecidableEq κ] (slot : κ → ι) (buf : ι → Option (κ × β)) (k : κ) : Option β :=
  (buf (slot k)).bind fun e => if e.1 = k then some e.2 else none

/-- What the buffer has is what the table has. -/
def Coherent (table : κ → Option β) (buf : ι → Option (κ × β)) : Prop :=
  ∀ i k v, buf i = some (k, v) → table k = some v

variable {table table' : κ → Option β} {buf : ι → Option (κ × β)} {slot : κ → ι}

/-- A lookup that finds its key finds the value of the table. -/
theorem Coherent.lookup_eq [DecidableEq κ] (h : Coherent table buf) {k : κ} {v : β} (hk : lookup slot buf k = some v) :
    table k = some v := by
  rw [lookup, Option.bind_eq_some_iff] at hk
  obtain ⟨⟨k', v'⟩, hbuf, hkey⟩ := hk
  rw [Option.ite_none_right_eq_some] at hkey
  obtain ⟨hk', hv'⟩ := hkey
  obtain rfl : k' = k := hk'
  cases hv'
  exact h _ _ _ hbuf

lemma coherent_empty (h : ∀ i, buf i = none) : Coherent table buf := by
  intro i k v hi
  rw [h i] at hi
  cases hi

/-- A slot that is cleared, or filled with a value of the table. -/
lemma Coherent.update [DecidableEq ι] (h : Coherent table buf) (i : ι) {e : Option (κ × β)}
    (he : ∀ k v, e = some (k, v) → table k = some v) : Coherent table (Function.update buf i e) := by
  intro j k v hj
  rcases eq_or_ne j i with rfl | hne
  · rw [Function.update_self] at hj
    exact he k v hj
  · rw [Function.update_of_ne hne] at hj
    exact h j k v hj

/-- A table that keeps its values. -/
lemma Coherent.congr (h : Coherent table buf) (htable : ∀ k v, table k = some v → table' k = some v) :
    Coherent table' buf := fun i k v hi => htable k v (h i k v hi)

end DirectMapped
