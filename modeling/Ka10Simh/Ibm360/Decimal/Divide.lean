import Ka10Simh.Ibm360.Decimal.Multiply

/-!
Divide Decimal.

The divisor is taken from the dividend in every place, from the highest down, until there is a borrow. The digit of the
quotient is put above the remainder. A place has one digit more than the divisor, but not when that would be digit 32.

* `decDiv`: the source.
* `trial_spec`, `digitLoop_spec`, `divLoop_spec`: one subtraction, one digit of the quotient, and all of them.
* `DivRight`: what the instruction has to do.
* `decDiv_iff`: when it does.
* `divide_top_wrong`: a dividend whose highest digit is lost.
-/

namespace Ka10Simh.Ibm360

open Numeral

/-! ### The source -/

/-- The divisor is taken away once at the digit `j`; `len2` is its number of half bytes. -/
def trial (len2 : ℕ) (b : ℕ → ℕ) (j : ℕ) (a : ℕ → ℕ) : Pass :=
  let p := pass (fun a i ↦ a i + (0x9 - b (i - j + 1))) (len2 - 1) j ⟨a, 1, true⟩
  -- plus one more digit
  if j + (len2 - 1) < 31 then pass (fun a i ↦ a i + 9) 1 (j + (len2 - 1)) p else p

/-- The digit of the quotient, with its number of tries that are left; without a result the decimal divide exception is
reported. After a borrow the digits of the divisor's length are restored. -/
def digitLoop (len1 len2 : ℕ) (b : ℕ → ℕ) (j : ℕ) : ℕ → ℕ → (ℕ → ℕ) → Option (ℕ → ℕ)
  | 0, _, _ => none
  | left + 1, q, a =>
      let p := trial len2 b j a
      if p.cy = 0 then
        if q > 0 ∧ j + (len2 - 1) + 1 ≥ len1 then none
        else
          let a' := Function.update p.a (j + (len2 - 1) + 1) q
          some fun i ↦ if j ≤ i ∧ i < j + (len2 - 1) then a i else a' i
      else digitLoop len1 len2 b j left (q + 1) p.a

/-- The places from `j` down. -/
def divLoop (len1 len2 : ℕ) (b : ℕ → ℕ) : ℕ → (ℕ → ℕ) → Option (ℕ → ℕ)
  | 0, a => some a
  | j + 1, a => (digitLoop len1 len2 b (j + 1) 10 0 a).bind (divLoop len1 len2 b j)

/-- `dec_div`. -/
def Access.decDiv (c : Access) (ascii : Bool) (addr1 len1 addr2 len2 : ℕ) : Op Unit :=
  if len2 > 7 ∨ len2 ≥ len1 then Op.fail ircSpec
  else do
    let (b, sb) ← c.decLoad addr2 len2
    c.placeCheck addr1 len1
    let (a, sa) ← c.decLoad addr1 len1
    let len := len1
    let len1 := (len1 + 1) * 2
    let len2 := (len2 + 1) * 2
    match divLoop len1 len2 b (len1 - len2) a with
    | none => Op.fail ircDecdiv
    | some a => c.decStore ascii (Function.update a len2 (Access.signCode ascii (sb != sa))) addr1 len sa

/-! ### One subtraction -/

variable {len1 len2 j e v w : ℕ} {a a' b : ℕ → ℕ}

/-- The digits that a subtraction changes. -/
def width (len2 j : ℕ) : ℕ := if j + (len2 - 1) < 31 then len2 else len2 - 1

/-- The digits of the divisor, with zeros above them. -/
lemma trial_eq (hlen2 : 0 < len2) (hb : b len2 = 0) (j : ℕ) (a : ℕ → ℕ) :
    trial len2 b j a = pass (fun a i ↦ a i + (9 - b (i - j + 1))) (width len2 j) j ⟨a, 1, true⟩ := by
  rw [trial, width]
  by_cases hmore : j + (len2 - 1) < 31
  · have hsplit := @ripple_append adjust (fun a i ↦ a i + (9 - b (i - j + 1))) (len2 - 1) 1 j ⟨a, 1, true⟩
    rw [Nat.sub_add_cancel hlen2] at hsplit
    rw [if_pos hmore, if_pos hmore, pass, hsplit]
    simp only [ripple]
    rw [show j + (len2 - 1) - j + 1 = len2 by omega, hb]
  · rw [if_neg hmore, if_neg hmore]

/-- **One subtraction**: without a borrow the divisor is taken away. -/
lemma trial_spec (hlen2 : 0 < len2) (hb : ∀ k, b (k + 1) ≤ 9) (hzero : b len2 = 0)
    (hv : num 10 (width len2 j) (fun k ↦ b (k + 1)) = v) (ha : ∀ k < width len2 j, a (j + k) ≤ 9) :
    ((trial len2 b j a).cy = 0 ↔ num 10 (width len2 j) (fun k ↦ a (j + k)) < v) ∧
      (∀ k < j, (trial len2 b j a).a k = a k) ∧ (∀ k, j + width len2 j ≤ k → (trial len2 b j a).a k = a k) ∧
      (∀ k < width len2 j, (trial len2 b j a).a (j + k) ≤ 9) ∧
      (v ≤ num 10 (width len2 j) (fun k ↦ a (j + k)) →
        num 10 (width len2 j) (fun k ↦ (trial len2 b j a).a (j + k)) = num 10 (width len2 j) (fun k ↦ a (j + k)) - v) := by
  have hterm (k : ℕ) : j + k - j + 1 = k + 1 := by lia
  have hrun := pass_spec (n := width len2 j) (i := j) (p := ⟨a, 1, true⟩) (upward_at fun i d ↦ d + (9 - b (i - j + 1)))
    (fun k hk ↦ by
      have hdigit := ha k hk
      dsimp only
      lia) le_rfl
  have hvalue := hrun.value
  have hcarry := hrun.carry
  have hnum := num_lt hrun.digit
  have hlt := num_lt fun k hk ↦ Nat.lt_succ_iff.mpr (ha k hk)
  have hnines : num 10 (width len2 j) (fun k ↦ 9 - b (k + 1)) + num 10 (width len2 j) (fun k ↦ b (k + 1)) + 1 =
      10 ^ width len2 j := num_nines fun k _ ↦ Nat.lt_succ_iff.mpr (hb k)
  simp only [num_fun_add, hterm] at hvalue
  rw [hv] at hnines
  rw [trial_eq hlen2 hzero]
  generalize pass (fun a i ↦ a i + (9 - b (i - j + 1))) (width len2 j) j ⟨a, 1, true⟩ = p at *
  generalize num 10 (width len2 j) (fun k ↦ 9 - b (k + 1)) = c at *
  rcases (by lia : p.cy = 0 ∨ p.cy = 1) with hcy | hcy <;> rw [hcy] at hvalue ⊢ <;>
    refine ⟨by lia, hrun.below, hrun.above, fun k hk ↦ Nat.lt_succ_iff.mp (hrun.digit k hk), fun hle ↦ by lia⟩

/-! ### A digit of the quotient -/

/-- A place is done: the remainder is in its `w` digits, and the digit of the quotient is above them. -/
structure PlaceDone (j w : ℕ) (a a' : ℕ → ℕ) (q r : ℕ) : Prop where
  below : ∀ k < j, a' k = a k
  digit : ∀ k < w, a' (j + k) ≤ 9
  value : num 10 w (fun k ↦ a' (j + k)) = r
  quotient : a' (j + w + 1) = q
  above : ∀ k, j + w + 2 ≤ k → a' k = a k

/-- The value of a place that is below the divisor is in the lower digits. -/
lemma num_width (hlen2 : 0 < len2) (ha : ∀ k < width len2 j, a (j + k) ≤ 9)
    (hlt : num 10 (width len2 j) (fun k ↦ a (j + k)) < 10 ^ (len2 - 1)) :
    num 10 (len2 - 1) (fun k ↦ a (j + k)) = num 10 (width len2 j) (fun k ↦ a (j + k)) := by
  have hwidth : width len2 j = len2 - 1 ∨ width len2 j = len2 - 1 + 1 := by
    rw [width]
    split_ifs <;> lia
  rcases hwidth with h | h
  · rw [h]
  · rw [h] at ha hlt ⊢
    have hmod := num_mod (b := 10) (m := len2 - 1) (f := fun k ↦ a (j + k))
      (fun k hk ↦ Nat.lt_succ_iff.mpr (ha k (by omega))) 1
    rw [← hmod, Nat.mod_eq_of_lt hlt]

/-- **A digit of the quotient**, when it is one and there is a place for it. -/
theorem digitLoop_spec (hlen2 : 0 < len2) (hb : ∀ k, b (k + 1) ≤ 9) (hzero : b len2 = 0)
    (hv : num 10 (width len2 j) (fun k ↦ b (k + 1)) = v) (hv' : v ≤ 10 ^ (len2 - 1)) {left q : ℕ}
    (ha : ∀ k < width len2 j, a (j + k) ≤ 9) :
    (num 10 (width len2 j) (fun k ↦ a (j + k)) < left * v ∧
        ¬ (0 < q + num 10 (width len2 j) (fun k ↦ a (j + k)) / v ∧ len1 ≤ j + (len2 - 1) + 1) →
      ∃ a', digitLoop len1 len2 b j left q a = some a' ∧ PlaceDone j (len2 - 1) a a'
        (q + num 10 (width len2 j) (fun k ↦ a (j + k)) / v) (num 10 (width len2 j) (fun k ↦ a (j + k)) % v)) ∧
    (¬ (num 10 (width len2 j) (fun k ↦ a (j + k)) < left * v ∧
        ¬ (0 < q + num 10 (width len2 j) (fun k ↦ a (j + k)) / v ∧ len1 ≤ j + (len2 - 1) + 1)) →
      digitLoop len1 len2 b j left q a = none) := by
  have hwidth : len2 - 1 ≤ width len2 j ∧ width len2 j ≤ len2 := by
    rw [width]
    split_ifs <;> omega
  induction left generalizing q a with
  | zero => exact ⟨fun h ↦ absurd h.1 (by omega), fun _ ↦ rfl⟩
  | succ left ih =>
      obtain ⟨hcy, hbelow, habove, hdigit, hvalue⟩ := trial_spec hlen2 hb hzero hv ha
      have hsame := num_width hlen2 ha
      rw [digitLoop]
      generalize num 10 (width len2 j) (fun k ↦ a (j + k)) = n at *
      generalize trial len2 b j a = p at *
      by_cases hborrow : n < v
      · rw [if_pos (hcy.mpr hborrow), Nat.div_eq_of_lt hborrow, Nat.mod_eq_of_lt hborrow, add_zero]
        have hleft : n < (left + 1) * v := by
          rw [Nat.succ_mul]
          omega
        by_cases hplace : q > 0 ∧ j + (len2 - 1) + 1 ≥ len1
        · rw [if_pos hplace]
          exact ⟨fun h ↦ absurd hplace h.2, fun _ ↦ rfl⟩
        · rw [if_neg hplace]
          refine ⟨fun _ ↦ ⟨_, rfl, fun k hk ↦ ?_, fun k hk ↦ ?_, ?_, ?_, fun k hk ↦ ?_⟩, fun h ↦ absurd ⟨hleft, hplace⟩ h⟩
          · rw [if_neg (by omega), Function.update_of_ne (by lia)]
            exact hbelow k hk
          · rw [if_pos (by lia)]
            exact ha k (by omega)
          · rw [← hsame (by omega)]
            exact num_congr fun k hk ↦ if_pos (by lia)
          · rw [if_neg (by omega), Function.update_self]
          · rw [if_neg (by omega), Function.update_of_ne (by lia)]
            exact habove k (by lia)
      · rw [if_neg (mt hcy.mp hborrow)]
        have hless := hvalue (by omega)
        obtain ⟨hsome, hnone⟩ := ih (q := q + 1) (a := p.a) hdigit
        rw [hless] at hsome hnone
        rcases Nat.eq_zero_or_pos v with rfl | hpos
        · exact ⟨fun h ↦ absurd h.1 (by omega), fun _ ↦ hnone fun h ↦ absurd h.1 (by omega)⟩
        · have hquotient : q + 1 + (n - v) / v = q + n / v := by
            have hless := Nat.div_eq_sub_div (a := n) hpos (by omega)
            lia
          have hremainder : (n - v) % v = n % v := (Nat.mod_eq_sub_mod (by omega)).symm
          have hcond : n - v < left * v ↔ n < (left + 1) * v := by
            rw [Nat.succ_mul]
            lia
          rw [hquotient, hremainder, hcond] at hsome
          rw [hquotient, hcond] at hnone
          refine ⟨fun h ↦ ?_, hnone⟩
          obtain ⟨a', hrun, hdone⟩ := hsome h
          exact ⟨a', hrun, fun k hk ↦ (hdone.below k hk).trans (hbelow k hk), hdone.digit, hdone.value, hdone.quotient,
            fun k hk ↦ (hdone.above k hk).trans (habove k (by lia))⟩

/-! ### All digits -/

/-- The digits below and the remainder are divided: remainder and quotient are in the array. -/
structure DigitsDone (j w : ℕ) (a a' : ℕ → ℕ) (n v : ℕ) : Prop where
  digit : ∀ k < w, a' (1 + k) ≤ 9
  value : num 10 w (fun k ↦ a' (1 + k)) = n % v
  digit' : ∀ k < j, a' (w + 2 + k) ≤ 9
  quotient : num 10 j (fun k ↦ a' (w + 2 + k)) = n / v
  above : ∀ k, j + w + 2 ≤ k → a' k = a k

/-- **All digits of the quotient**, after the first place. -/
theorem divLoop_spec (hlen2 : 0 < len2) (hb : ∀ k, b (k + 1) ≤ 9) (hzero : b len2 = 0)
    (hv : num 10 len2 (fun k ↦ b (k + 1)) = v) (hv' : v ≤ 10 ^ (len2 - 1)) (hfree : j + (len2 - 1) < 31)
    (hplace : j + (len2 - 1) + 1 < len1) (ha : ∀ k < j + (len2 - 1), a (1 + k) ≤ 9)
    (hless : num 10 (len2 - 1) (fun k ↦ a (j + 1 + k)) < v) : ∃ a', divLoop len1 len2 b j a = some a' ∧
      DigitsDone j (len2 - 1) a a' (num 10 (len2 - 1) (fun k ↦ a (j + 1 + k)) * 10 ^ j + num 10 j fun k ↦ a (1 + k)) v := by
  induction j generalizing a with
  | zero =>
      refine ⟨a, rfl, fun k hk ↦ ha k (by omega), ?_, fun k hk ↦ by omega, ?_, fun k _ ↦ rfl⟩
      · rw [num_zero, pow_zero, mul_one, add_zero, Nat.mod_eq_of_lt hless]
      · rw [num_zero, num_zero, pow_zero, mul_one, add_zero, Nat.div_eq_of_lt hless]
  | succ j ih =>
      have hwidth : width len2 (j + 1) = len2 := if_pos hfree
      have hnumber : num 10 len2 (fun k ↦ a (j + 1 + k)) = a (j + 1) + 10 * num 10 (len2 - 1) fun k ↦ a (j + 1 + 1 + k) := by
        conv_lhs => rw [show len2 = len2 - 1 + 1 by lia, num_succ']
        simp only [add_zero, add_assoc, add_comm 1]
      have hdigits (k : ℕ) (hk : k < len2) : a (j + 1 + k) ≤ 9 := by
        rw [show j + 1 + k = 1 + (j + k) by lia]
        exact ha (j + k) (by lia)
      obtain ⟨hsome, -⟩ := @digitLoop_spec len1 _ (j + 1) _ a _ hlen2 hb hzero (by rwa [hwidth]) hv' 10 0
        (by rwa [hwidth])
      rw [hwidth, hnumber] at hsome
      have hfirst := hdigits 0 hlen2
      rw [add_zero] at hfirst
      obtain ⟨a', hrun, hdone⟩ := hsome ⟨by lia, fun hand ↦ by omega⟩
      generalize num 10 (len2 - 1) (fun k ↦ a (j + 1 + 1 + k)) = r at *
      have hpos : 0 < v := by omega
      obtain ⟨a'', hrest, hdivided⟩ := ih (a := a') (by omega) (by omega)
        (fun k hk ↦ by
          rcases Nat.lt_or_ge k j with hlt | hge
          · rw [hdone.below _ (by omega)]
            exact ha k (by omega)
          · have := hdone.digit (k - j) (by lia)
            rwa [show j + 1 + (k - j) = 1 + k by lia] at this)
        (by rw [hdone.value]; exact Nat.mod_lt _ hpos)
      have hlow : num 10 j (fun k ↦ a' (1 + k)) = num 10 j fun k ↦ a (1 + k) :=
        num_congr fun k hk ↦ hdone.below _ (by omega)
      rw [hdone.value, hlow] at hdivided
      have htotal : r * 10 ^ (j + 1) + num 10 (j + 1) (fun k ↦ a (1 + k)) =
          v * ((a (j + 1) + 10 * r) / v * 10 ^ j) + ((a (j + 1) + 10 * r) % v * 10 ^ j + num 10 j fun k ↦ a (1 + k)) := by
        have hsplit := Nat.div_add_mod (a (j + 1) + 10 * r) v
        calc r * 10 ^ (j + 1) + num 10 (j + 1) (fun k ↦ a (1 + k))
            = (a (j + 1) + 10 * r) * 10 ^ j + num 10 j (fun k ↦ a (1 + k)) := by
              rw [num_succ, pow_succ, add_comm 1 j]
              ring
          _ = (v * ((a (j + 1) + 10 * r) / v) + (a (j + 1) + 10 * r) % v) * 10 ^ j + num 10 j (fun k ↦ a (1 + k)) := by
              rw [hsplit]
          _ = _ := by ring
      have htop : a'' (len2 - 1 + 2 + j) = (a (j + 1) + 10 * r) / v := by
        rw [hdivided.above _ (by omega), show len2 - 1 + 2 + j = j + 1 + (len2 - 1) + 1 by lia, hdone.quotient, zero_add]
      have htop9 : (a (j + 1) + 10 * r) / v ≤ 9 := Nat.lt_succ_iff.mp (Nat.div_lt_of_lt_mul (by lia))
      rw [divLoop, hrun]
      refine ⟨a'', hrest, hdivided.digit, ?_, fun k hk ↦ ?_, ?_, fun k hk ↦ ?_⟩
      · rw [htotal, Nat.mul_add_mod, hdivided.value]
      · rcases Nat.lt_succ_iff_lt_or_eq.mp hk with hlt | rfl
        · exact hdivided.digit' k hlt
        · rw [htop]
          exact htop9
      · rw [htotal, Nat.mul_add_div hpos, num_succ, hdivided.quotient, htop]
        ring
      · rw [hdivided.above k (by lia), hdone.above k (by lia)]

/-! ### The instruction -/

namespace Access

variable {c : Access} {s t : Store} {mem : ℕ → BitVec 32} {addr1 addr2 : ℕ}

/-- The first place: the highest digits of the dividend. In an operand of 16 bytes its highest digit is not one of
them. -/
def firstPlace (c : Access) (mem : ℕ → BitVec 32) (addr1 len1 len2 : ℕ) : ℕ :=
  let x := c.magnitude mem addr1 len1 / 10 ^ (2 * (len1 - len2) - 1)
  if len1 < 15 then x else x % 10 ^ (2 * len2 + 1)

/-- The digits that the first subtraction is made from. -/
lemma firstPlace_eq (hlen1 : len1 < 16) (hlt : len2 < len1) (hvalid : c.Valid mem addr1 len1) :
    num 10 (width ((len2 + 1) * 2) ((len1 + 1) * 2 - (len2 + 1) * 2))
      (fun k ↦ c.digits mem addr1 len1 ((len1 + 1) * 2 - (len2 + 1) * 2 + k)) = c.firstPlace mem addr1 len1 len2 := by
  have hdigit (k : ℕ) : c.digits mem addr1 len1 (1 + k) < 10 := Nat.lt_succ_iff.mpr (digits_le hvalid k)
  have hdiv := num_div (b := 10) (m := 2 * (len1 - len2) - 1) (f := fun k ↦ c.digits mem addr1 len1 (1 + k))
    (fun k _ ↦ hdigit k) ((len2 + 1) * 2)
  rw [show 2 * (len1 - len2) - 1 + (len2 + 1) * 2 = 2 * len1 + 1 by lia, num_digits_eq c mem addr1 le_rfl] at hdiv
  have hplace (n : ℕ) : num 10 n (fun k ↦ c.digits mem addr1 len1 ((len1 + 1) * 2 - (len2 + 1) * 2 + k)) =
      num 10 n fun k ↦ c.digits mem addr1 len1 (1 + (2 * (len1 - len2) - 1 + k)) := num_congr fun k _ ↦ by
    congr 1
    lia
  rw [hplace, firstPlace, hdiv, width]
  by_cases hmore : len1 < 15
  · rw [if_pos hmore, if_pos (by omega)]
  · rw [if_neg hmore, if_neg (by lia), show (len2 + 1) * 2 - 1 = 2 * len2 + 1 by lia]
    have hmod := num_mod (b := 10) (m := 2 * len2 + 1)
      (f := fun k ↦ c.digits mem addr1 len1 (1 + (2 * (len1 - len2) - 1 + k))) (fun k _ ↦ hdigit _) 1
    rw [show 2 * len2 + 1 + 1 = (len2 + 1) * 2 by ring] at hmod
    exact hmod.symm

/-- **The loops**: they come to an end exactly when the first place is below the divisor. -/
lemma divLoop_digits (hlen1 : len1 < 16) (hlt : len2 < len1) (hvalid1 : c.Valid mem addr1 len1)
    (hvalid2 : c.Valid mem addr2 len2) :
    (c.firstPlace mem addr1 len1 len2 < c.magnitude mem addr2 len2 → ∃ a a',
      divLoop ((len1 + 1) * 2) ((len2 + 1) * 2) (c.digits mem addr2 len2) ((len1 + 1) * 2 - (len2 + 1) * 2)
        (c.digits mem addr1 len1) = some a' ∧
      DigitsDone (2 * (len1 - len2) - 1) (2 * len2 + 1) a a' (c.firstPlace mem addr1 len1 len2 * 10 ^ (2 * (len1 - len2) - 1) +
        c.magnitude mem addr1 len1 % 10 ^ (2 * (len1 - len2) - 1)) (c.magnitude mem addr2 len2)) ∧
    (¬ c.firstPlace mem addr1 len1 len2 < c.magnitude mem addr2 len2 →
      divLoop ((len1 + 1) * 2) ((len2 + 1) * 2) (c.digits mem addr2 len2) ((len1 + 1) * 2 - (len2 + 1) * 2)
        (c.digits mem addr1 len1) = none) := by
  have hb (n : ℕ) (hn : 2 * len2 + 1 ≤ n) : num 10 n (fun k ↦ c.digits mem addr2 len2 (k + 1)) = c.magnitude mem addr2 len2 := by
    rw [← num_digits_eq c mem addr2 hn]
    exact num_congr fun k _ ↦ by rw [add_comm]
  have hb9 (k : ℕ) : c.digits mem addr2 len2 (k + 1) ≤ 9 := by
    rw [add_comm]
    exact digits_le hvalid2 k
  have ha9 (k : ℕ) : c.digits mem addr1 len1 (1 + k) ≤ 9 := digits_le hvalid1 k
  have hzero : c.digits mem addr2 len2 ((len2 + 1) * 2) = 0 := if_neg (by omega)
  have hwidth : 2 * len2 + 1 ≤ width ((len2 + 1) * 2) ((len1 + 1) * 2 - (len2 + 1) * 2) := by
    rw [width]
    split_ifs <;> lia
  have hmax : c.magnitude mem addr2 len2 ≤ 10 ^ ((len2 + 1) * 2 - 1) := (magnitude_lt hvalid2 (by lia)).le
  obtain ⟨hsome, hnone⟩ := @digitLoop_spec ((len1 + 1) * 2) ((len2 + 1) * 2) ((len1 + 1) * 2 - (len2 + 1) * 2) _
    (c.digits mem addr1 len1) _ (by omega) hb9 hzero (hb _ hwidth) hmax 10 0 (fun k _ ↦ by
      rw [show (len1 + 1) * 2 - (len2 + 1) * 2 + k = 1 + ((len1 + 1) * 2 - (len2 + 1) * 2 - 1 + k) by lia]
      exact ha9 _)
  rw [firstPlace_eq hlen1 hlt hvalid1] at hsome hnone
  have hlow : num 10 (2 * (len1 - len2) - 1) (fun k ↦ c.digits mem addr1 len1 (1 + k)) =
      c.magnitude mem addr1 len1 % 10 ^ (2 * (len1 - len2) - 1) := by
    have hmod := num_mod (b := 10) (m := 2 * (len1 - len2) - 1) (f := fun k ↦ c.digits mem addr1 len1 (1 + k))
      (fun k _ ↦ Nat.lt_succ_iff.mpr (ha9 k)) ((len2 + 1) * 2)
    rw [show 2 * (len1 - len2) - 1 + (len2 + 1) * 2 = 2 * len1 + 1 by lia, num_digits_eq c mem addr1 le_rfl] at hmod
    exact hmod.symm
  have hloop (r : Option (ℕ → ℕ)) (hr : digitLoop ((len1 + 1) * 2) ((len2 + 1) * 2) (c.digits mem addr2 len2)
      ((len1 + 1) * 2 - (len2 + 1) * 2) 10 0 (c.digits mem addr1 len1) = r) :
      divLoop ((len1 + 1) * 2) ((len2 + 1) * 2) (c.digits mem addr2 len2) ((len1 + 1) * 2 - (len2 + 1) * 2)
        (c.digits mem addr1 len1) =
      r.bind (divLoop ((len1 + 1) * 2) ((len2 + 1) * 2) (c.digits mem addr2 len2) (2 * (len1 - len2) - 1)) := by
    rw [← hr, show (len1 + 1) * 2 - (len2 + 1) * 2 = 2 * (len1 - len2) - 1 + 1 by lia]
    rfl
  constructor
  · intro hless
    obtain ⟨a, hrun, hdone⟩ := hsome ⟨by omega, fun hand ↦ by
      rw [Nat.div_eq_of_lt hless] at hand
      omega⟩
    have hvalue : num 10 ((len2 + 1) * 2 - 1) (fun k ↦ a (2 * (len1 - len2) - 1 + 1 + k)) = c.firstPlace mem addr1 len1 len2 := by
      rw [← Nat.mod_eq_of_lt hless, ← hdone.value]
      refine num_congr fun k _ ↦ ?_
      congr 1
      lia
    obtain ⟨a', hrest, hdivided⟩ := @divLoop_spec ((len1 + 1) * 2) ((len2 + 1) * 2) (2 * (len1 - len2) - 1) _ a _
      (by omega) hb9 hzero (hb _ (by omega)) hmax (by lia) (by lia) (fun k hk ↦ by
        rcases Nat.lt_or_ge (1 + k) ((len1 + 1) * 2 - (len2 + 1) * 2) with hlow' | hhigh
        · rw [hdone.below _ hlow']
          exact ha9 k
        · have := hdone.digit (1 + k - ((len1 + 1) * 2 - (len2 + 1) * 2)) (by lia)
          rwa [Nat.add_sub_cancel' hhigh] at this) (by rwa [hvalue])
    have hsame : num 10 (2 * (len1 - len2) - 1) (fun k ↦ a (1 + k)) =
        c.magnitude mem addr1 len1 % 10 ^ (2 * (len1 - len2) - 1) := by
      rw [← hlow]
      exact num_congr fun k hk ↦ hdone.below _ (by lia)
    rw [hvalue, hsame, show (len2 + 1) * 2 - 1 = 2 * len2 + 1 by lia] at hdivided
    exact ⟨a, a', (hloop _ hrun).trans hrest, hdivided⟩
  · intro hge
    refine hloop _ (hnone fun hand ↦ hand.2 ⟨?_, by omega⟩)
    rw [zero_add]
    exact Nat.div_pos (by omega) (by omega)

/-! ### Quotient and remainder in the storage -/

/-- Quotient and remainder are stored in the place of the dividend, and nothing else has changed. -/
structure DivStored (c : Access) (s t : Store) (addr1 len1 addr2 len2 : ℕ) : Prop where
  quotient_valid : c.Valid t.mem addr1 (len1 - len2 - 1)
  remainder_valid : c.Valid t.mem (addr1 + (len1 - len2)) len2
  value : c.magnitude s.mem addr1 len1 = c.magnitude t.mem addr1 (len1 - len2 - 1) * c.magnitude s.mem addr2 len2 +
    c.magnitude t.mem (addr1 + (len1 - len2)) len2
  less : c.magnitude t.mem (addr1 + (len1 - len2)) len2 < c.magnitude s.mem addr2 len2
  quotient_sign : c.minus t.mem addr1 (len1 - len2 - 1) = (c.minus s.mem addr1 len1 != c.minus s.mem addr2 len2)
  remainder_sign : c.minus t.mem (addr1 + (len1 - len2)) len2 = c.minus s.mem addr1 len1
  others : ∀ p, (∀ i ≤ len1, c.loc (addr1 + i) ≠ p) → byteAt t.mem p = byteAt s.mem p

/-- What the instruction has to do: quotient and remainder, or the decimal divide exception with the storage as it was
when the divisor is zero or the quotient has too many digits. -/
def DivRight (c : Access) (ascii : Bool) (s : Store) (addr1 len1 addr2 len2 : ℕ) : Prop :=
  let x := c.magnitude s.mem addr1 len1
  let d := c.magnitude s.mem addr2 len2
  if d ≠ 0 ∧ x / d < 10 ^ (2 * (len1 - len2) - 1) then
    ∃ t, c.decDiv ascii addr1 len1 addr2 len2 s = (.ok (), t) ∧ c.DivStored s t addr1 len1 addr2 len2
  else ∃ t, c.decDiv ascii addr1 len1 addr2 len2 s = (.error ircDecdiv, t) ∧ t.mem = s.mem

/-- The half bytes of the quotient and of the remainder. -/
lemma nib_quotient (c : Access) (mem : ℕ → BitVec 32) (addr1 len1 len2 k : ℕ) :
    c.nib mem addr1 (len1 - len2 - 1) k = c.nib mem addr1 len1 (2 * (len2 + 1) + k) := by
  rw [nib, nib, show len1 - (2 * (len2 + 1) + k) / 2 = len1 - len2 - 1 - k / 2 by lia,
    show (2 * (len2 + 1) + k) % 2 = k % 2 by lia]

lemma nib_remainder (c : Access) (mem : ℕ → BitVec 32) (addr1 : ℕ) (_ : len2 < len1) {k : ℕ} (_ : k < 2 * (len2 + 1)) :
    c.nib mem (addr1 + (len1 - len2)) len2 k = c.nib mem addr1 len1 k := by
  rw [nib, nib, show addr1 + (len1 - len2) + (len2 - k / 2) = addr1 + (len1 - k / 2) by lia]

/-- **The digits that are stored** are the quotient and the remainder. -/
lemma divStored_of {ascii : Bool} {a a' : ℕ → ℕ} (hlt : len2 < len1) (hpos : 0 < c.magnitude s.mem addr2 len2)
    (hdone : DigitsDone (2 * (len1 - len2) - 1) (2 * len2 + 1) a a' (c.magnitude s.mem addr1 len1) (c.magnitude s.mem addr2 len2))
    (hstored : c.Stored s t addr1 len1 (Function.update (Function.update a' ((len2 + 1) * 2)
      (signCode ascii (c.minus s.mem addr2 len2 != c.minus s.mem addr1 len1))) 0 (signCode ascii (c.minus s.mem addr1 len1)))) :
    c.DivStored s t addr1 len1 addr2 len2 := by
  have hremainder (k : ℕ) (hk : k < 2 * len2 + 1) : c.nib t.mem (addr1 + (len1 - len2)) len2 (k + 1) = a' (1 + k) := by
    have hdigit := hdone.digit k hk
    rw [nib_remainder c t.mem addr1 hlt (by omega), hstored.nib _ (by omega), Function.update_of_ne (by omega),
      Function.update_of_ne (by omega), add_comm k, Nat.mod_eq_of_lt (by omega)]
  have hquotient (k : ℕ) (hk : k < 2 * (len1 - len2) - 1) :
      c.nib t.mem addr1 (len1 - len2 - 1) (k + 1) = a' (2 * len2 + 1 + 2 + k) := by
    have hdigit := hdone.digit' k hk
    rw [nib_quotient c t.mem addr1, hstored.nib _ (by omega), Function.update_of_ne (by omega),
      Function.update_of_ne (by omega), show 2 * (len2 + 1) + (k + 1) = 2 * len2 + 1 + 2 + k by omega,
      Nat.mod_eq_of_lt (by omega)]
  have hsign : c.nib t.mem (addr1 + (len1 - len2)) len2 0 = signCode ascii (c.minus s.mem addr1 len1) := by
    have hcode := signCode_spec ascii (c.minus s.mem addr1 len1)
    rw [nib_remainder c t.mem addr1 hlt (by omega), hstored.nib _ (by omega), Function.update_self,
      Nat.mod_eq_of_lt hcode.2.1]
  have hsign' : c.nib t.mem addr1 (len1 - len2 - 1) 0 =
      signCode ascii (c.minus s.mem addr2 len2 != c.minus s.mem addr1 len1) := by
    have hcode := signCode_spec ascii (c.minus s.mem addr2 len2 != c.minus s.mem addr1 len1)
    rw [nib_quotient c t.mem addr1, hstored.nib _ (by omega), Function.update_of_ne (by omega),
      show 2 * (len2 + 1) + 0 = (len2 + 1) * 2 by ring, Function.update_self, Nat.mod_eq_of_lt hcode.2.1]
  have hr : c.magnitude t.mem (addr1 + (len1 - len2)) len2 = c.magnitude s.mem addr1 len1 % c.magnitude s.mem addr2 len2 := by
    rw [← hdone.value, magnitude]
    exact num_congr hremainder
  have hq : c.magnitude t.mem addr1 (len1 - len2 - 1) = c.magnitude s.mem addr1 len1 / c.magnitude s.mem addr2 len2 := by
    rw [← hdone.quotient, magnitude, show 2 * (len1 - len2 - 1) + 1 = 2 * (len1 - len2) - 1 by lia]
    exact num_congr hquotient
  refine ⟨⟨fun k hk ↦ ?_, ?_⟩, ⟨fun k hk ↦ ?_, ?_⟩, ?_, ?_, ?_, ?_, hstored.others⟩
  · rw [hquotient k (by lia)]
    exact hdone.digit' k (by lia)
  · rw [hsign']
    exact (signCode_spec _ _).1
  · rw [hremainder k hk]
    exact hdone.digit k hk
  · rw [hsign]
    exact (signCode_spec _ _).1
  · rw [hq, hr, mul_comm]
    exact (Nat.div_add_mod _ _).symm
  · rw [hr]
    exact Nat.mod_lt _ hpos
  · rw [minus_of_code hsign']
    cases c.minus s.mem addr1 len1 <;> cases c.minus s.mem addr2 len2 <;> rfl
  · exact minus_of_code hsign

/-- What `dec_div` has when the operands are loaded. -/
lemma decDiv_loaded {ascii : Bool} (hlen2 : len2 ≤ 7) (hlt : len2 < len1) (hvalid1 : c.Valid s.mem addr1 len1)
    (hvalid2 : c.Valid s.mem addr2 len2) (hopen1 : c.Open s 1 addr1 (len1 + 1)) (hopen2 : c.Open s 0 addr2 (len2 + 1)) :
    ∃ u, Kept s u ∧ c.decDiv ascii addr1 len1 addr2 len2 s =
      (match divLoop ((len1 + 1) * 2) ((len2 + 1) * 2) (c.digits s.mem addr2 len2) ((len1 + 1) * 2 - (len2 + 1) * 2)
          (c.digits s.mem addr1 len1) with
        | none => Op.fail ircDecdiv
        | some a => c.decStore ascii (Function.update a ((len2 + 1) * 2)
            (signCode ascii (c.minus s.mem addr2 len2 != c.minus s.mem addr1 len1))) addr1 len1 (c.minus s.mem addr1 len1) : Op Unit) u := by
  rcases decLoad_spec c s addr2 len2 with ⟨-, u, hload, hkept⟩ | ⟨hno, -⟩
  swap
  · exact absurd ⟨hopen2, hvalid2⟩ hno
  have hplace := (placeCheck_spec c u addr1 len1).2 (hopen1.congr hkept.key)
  rcases decLoad_spec c u addr1 len1 with ⟨-, w, hload', hkept'⟩ | ⟨hno, -⟩
  swap
  · rw [hkept.mem] at hno
    exact absurd ⟨(hopen1.congr hkept.key).read, hvalid1⟩ hno
  refine ⟨w, hkept.trans hkept', ?_⟩
  rw [hkept.mem] at hload'
  rw [decDiv, if_neg (by omega), Op.bind_of_ok hload]
  dsimp only
  rw [Op.bind_of_ok hplace, Op.bind_of_ok hload']

/-- The quotient has not too many digits when the first place is below the divisor. -/
lemma quotient_fits {x d n : ℕ} : d ≠ 0 ∧ x / d < 10 ^ n ↔ x / 10 ^ n < d := by
  have hpow : 0 < 10 ^ n := Nat.pow_pos (by norm_num)
  rcases Nat.eq_zero_or_pos d with rfl | hpos
  · exact ⟨fun h ↦ absurd rfl h.1, fun h ↦ absurd h (Nat.not_lt_zero _)⟩
  · rw [Nat.div_lt_iff_lt_mul hpos, Nat.div_lt_iff_lt_mul hpow, mul_comm]
    exact and_iff_right (by omega)

/-- **DP**: quotient and remainder, or the exception, but for a dividend of 16 bytes whose highest digit is not zero and
is not looked at, when the digits after it are below the divisor. -/
theorem decDiv_iff (c : Access) (ascii : Bool) (s : Store) (addr1 len1 addr2 len2 : ℕ) (hlen1 : len1 < 16) (hlen2 : len2 ≤ 7)
    (hlt : len2 < len1) (hvalid1 : c.Valid s.mem addr1 len1) (hvalid2 : c.Valid s.mem addr2 len2)
    (hopen1 : c.Open s 1 addr1 (len1 + 1)) (hopen2 : c.Open s 0 addr2 (len2 + 1)) :
    c.DivRight ascii s addr1 len1 addr2 len2 ↔ ¬ (len1 = 15 ∧ 10 ^ 30 ≤ c.magnitude s.mem addr1 len1 ∧
      c.magnitude s.mem addr1 len1 / 10 ^ (2 * (len1 - len2) - 1) % 10 ^ (2 * len2 + 1) < c.magnitude s.mem addr2 len2) := by
  obtain ⟨u, hkept, hrun⟩ := @decDiv_loaded _ _ _ _ _ _ ascii hlen2 hlt hvalid1 hvalid2 hopen1 hopen2
  obtain ⟨hsome, hnone⟩ := divLoop_digits hlen1 hlt hvalid1 hvalid2
  have hmax := magnitude_lt hvalid2 le_rfl
  have hpow : (10 : ℕ) ^ (2 * (len1 - len2) - 1) * 10 ^ (2 * len2 + 1) = 10 ^ (2 * len1) := by
    rw [← pow_add]
    congr 1
    omega
  have htop (h : len1 = 15) : (10 : ℕ) ^ (2 * len1) = 10 ^ 30 := by rw [h]
  have hpos : 0 < (10 : ℕ) ^ (2 * (len1 - len2) - 1) := Nat.pow_pos (by norm_num)
  have hsplit := Nat.div_add_mod' (c.magnitude s.mem addr1 len1) (10 ^ (2 * (len1 - len2) - 1))
  have hfirst : c.firstPlace s.mem addr1 len1 len2 =
      if len1 < 15 then c.magnitude s.mem addr1 len1 / 10 ^ (2 * (len1 - len2) - 1)
      else c.magnitude s.mem addr1 len1 / 10 ^ (2 * (len1 - len2) - 1) % 10 ^ (2 * len2 + 1) := rfl
  rw [DivRight, hrun]
  simp only [quotient_fits]
  by_cases hless : c.firstPlace s.mem addr1 len1 len2 < c.magnitude s.mem addr2 len2
  · obtain ⟨a, a', hloop, hdone⟩ := hsome hless
    obtain ⟨t, hstore, hstored⟩ := decStore_spec ascii (Function.update a' ((len2 + 1) * 2)
      (signCode ascii (c.minus s.mem addr2 len2 != c.minus s.mem addr1 len1))) (c.minus s.mem addr1 len1) (by omega)
      (hopen1.congr hkept.key)
    rw [hloop]
    dsimp only
    rw [hstore]
    by_cases hlost : len1 = 15 ∧ 10 ^ (2 * len1) ≤ c.magnitude s.mem addr1 len1
    · -- the highest digit is not zero, so the quotient has too many digits
      have hgreat : 10 ^ (2 * len2 + 1) ≤ c.magnitude s.mem addr1 len1 / 10 ^ (2 * (len1 - len2) - 1) := by
        rw [Nat.le_div_iff_mul_le hpos, mul_comm, hpow]
        exact hlost.2
      rw [hfirst, if_neg (by omega)] at hless
      rw [if_neg (by omega)]
      refine iff_of_false ?_ (not_not.mpr ⟨hlost.1, (htop hlost.1).symm.trans_le hlost.2, hless⟩)
      rintro ⟨t', heq, -⟩
      cases heq
    · have hwhole : c.firstPlace s.mem addr1 len1 len2 = c.magnitude s.mem addr1 len1 / 10 ^ (2 * (len1 - len2) - 1) := by
        rw [hfirst]
        split_ifs with hmore
        · rfl
        · refine Nat.mod_eq_of_lt ?_
          rw [Nat.div_lt_iff_lt_mul hpos, mul_comm, hpow]
          by_contra hge
          exact hlost ⟨by omega, by omega⟩
      rw [hwhole, hsplit] at hdone
      rw [hwhole] at hless
      rw [if_pos hless]
      refine iff_of_true ⟨t, rfl, ?_⟩ fun hand ↦ hlost ⟨hand.1, (htop hand.1).trans_le hand.2.1⟩
      have hresult := @divStored_of _ _ _ s t _ _ ascii _ _ hlt (by omega) hdone ⟨hstored.nib, fun p hp ↦ by
        rw [hstored.others p hp, byteAt, hkept.mem, byteAt], fun b ↦ (hstored.key b).trans (hkept.key b)⟩
      exact hresult
  · rw [hnone hless]
    have hle : c.firstPlace s.mem addr1 len1 len2 ≤ c.magnitude s.mem addr1 len1 / 10 ^ (2 * (len1 - len2) - 1) := by
      rw [hfirst]
      split_ifs
      · exact le_rfl
      · exact Nat.mod_le _ _
    rw [if_neg (by omega)]
    refine iff_of_true ⟨u, rfl, hkept.mem⟩ fun hand ↦ hless ?_
    rw [hfirst, if_neg (by omega)]
    exact hand.2.2

/-- Seven in two bytes by two. -/
theorem decDiv_iff_small : (plain 4096 rfl).DivRight false (firstWords 0x007c2c00 0) 0 1 2 0 :=
  (decDiv_iff (plain 4096 rfl) false (firstWords 0x007c2c00 0) 0 1 2 0 (by norm_num) (by norm_num) (by norm_num)
    (by decide +kernel) (by decide +kernel) (plain_open rfl (by norm_num) (by norm_num))
    (plain_open rfl (by norm_num) (by norm_num))).mpr fun hand ↦ absurd hand.1 (by norm_num)

/-- A dividend of 16 bytes that is 10 to the 30th, and the divisor 1. -/
def topStore : Store := ⟨fun i ↦ if i = 0 then 0x10000000 else if i = 3 then 0x0000000c else if i = 4 then 0x1c000000 else 0, fun _ ↦ 0, 0⟩

/-- **The highest digit of 16 bytes is lost**: 10 to the 30th is divided by 1 without an exception, and its quotient
is zero. -/
theorem divide_top_wrong : (plain 4096 rfl).Valid topStore.mem 0 15 ∧ (plain 4096 rfl).Valid topStore.mem 16 0 ∧
    (plain 4096 rfl).magnitude topStore.mem 0 15 = 10 ^ 30 ∧ (plain 4096 rfl).magnitude topStore.mem 16 0 = 1 ∧
    ((plain 4096 rfl).decDiv false 0 15 16 0 topStore).1.isOk ∧
    (plain 4096 rfl).magnitude ((plain 4096 rfl).decDiv false 0 15 16 0 topStore).2.mem 0 14 = 0 ∧
    ¬ (plain 4096 rfl).DivRight false topStore 0 15 16 0 := by
  have hok : ((plain 4096 rfl).decDiv false 0 15 16 0 topStore).1.isOk := by decide +kernel
  refine ⟨by decide +kernel, by decide +kernel, by decide +kernel, by decide +kernel, hok, by decide +kernel, fun h ↦ ?_⟩
  have hmany : ¬ ((plain 4096 rfl).magnitude topStore.mem 16 0 ≠ 0 ∧ (plain 4096 rfl).magnitude topStore.mem 0 15 /
      (plain 4096 rfl).magnitude topStore.mem 16 0 < 10 ^ (2 * (15 - 0) - 1)) := by decide +kernel
  rw [DivRight, if_neg hmany] at h
  obtain ⟨t, hrun, -⟩ := h
  rw [hrun] at hok
  cases hok

end Access

end Ka10Simh.Ibm360
