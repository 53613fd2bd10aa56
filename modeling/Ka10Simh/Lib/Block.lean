import Mathlib.Tactic

/-!
Blocks of words in a store.

* `Block.store`: words put one after the other from an address on.
* `Block.load`: the words that are there.
* `Block.store_concat`: a block is put word by word.
-/

namespace Block

variable {α : Type*} {mem : ℕ → α} {base addr : ℕ} {words : List α}

/-- The store with words from an address on. -/
def store (mem : ℕ → α) (base : ℕ) (words : List α) (addr : ℕ) : α :=
  if base ≤ addr then (words[addr - base]?).getD (mem addr) else mem addr

/-- The words from an address on. -/
def load (mem : ℕ → α) (base n : ℕ) : List α := (List.range n).map fun k => mem (base + k)

@[simp] lemma length_load (mem : ℕ → α) (base n : ℕ) : (load mem base n).length = n := by
  rw [load, List.length_map, List.length_range]

lemma getElem?_load {n k : ℕ} (h : k < n) : (load mem base n)[k]? = some (mem (base + k)) := by
  rw [load, List.getElem?_map, List.getElem?_range h, Option.map_some]

@[simp] lemma store_nil (mem : ℕ → α) (base : ℕ) : store mem base [] = mem := by
  funext addr
  rw [store, List.getElem?_nil, Option.getD_none, ite_self]

/-- Words outside a block are as they were. -/
lemma store_low (words : List α) (h : addr < base) : store mem base words addr = mem addr := by
  rw [store, if_neg (Nat.not_le.mpr h)]

lemma store_high (h : base + words.length ≤ addr) : store mem base words addr = mem addr := by
  rw [store, List.getElem?_eq_none (by omega), Option.getD_none, ite_self]

/-- What is there of a block. -/
lemma store_get {i : ℕ} {w : α} (h : words[i]? = some w) : store mem base words (base + i) = w := by
  rw [store, if_pos (Nat.le_add_right _ _), Nat.add_sub_cancel_left, h, Option.getD_some]

/-- **A block is put word by word.** -/
theorem store_concat (mem : ℕ → α) (base : ℕ) (words : List α) (w : α) :
    store mem base (words ++ [w]) = Function.update (store mem base words) (base + words.length) w := by
  funext addr
  by_cases heq : addr = base + words.length
  · rw [heq, Function.update_self]
    exact store_get List.getElem?_concat_length
  · rw [Function.update_of_ne heq, store, store]
    split_ifs with hle
    · rcases Nat.lt_or_ge (addr - base) words.length with hlt | hge
      · rw [List.getElem?_append_left hlt]
      · rw [List.getElem?_eq_none hge, List.getElem?_eq_none (by rw [List.length_append, List.length_singleton]; omega)]
    · rfl

/-- A block that is stored is loaded again. -/
theorem load_store (mem : ℕ → α) (base : ℕ) (words : List α) : load (store mem base words) base words.length = words := by
  refine List.ext_getElem? fun k => ?_
  rcases Nat.lt_or_ge k words.length with hk | hk
  · rw [getElem?_load hk, List.getElem?_eq_getElem hk, store_get (List.getElem?_eq_getElem hk)]
  · rw [List.getElem?_eq_none hk, List.getElem?_eq_none (by rw [length_load]; exact hk)]

end Block
