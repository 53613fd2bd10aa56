import Ka10Simh.Pdp10.Extend.Decimal
import Ka10Simh.Pdp10.Extend.Operand

/-!
CVTBDO and CVTDBO: a double word converted to the digits of a string, and back, on the KL10 and the KS10.

* `Core.cvtbdo`, `Core.cvtdbo`: the two instructions, with all pages there.
* `Operand.fillLoop_eq`, `Operand.digitLoop_eq`, `Operand.readLoop_eq`: their loops.
* `decimal_converted`: the digits of a number, and the number they are converted to again.
-/

namespace Ka10Simh.Pdp10

open Word Slots BytePtr

/-- `reg` with the `M` bit if minus, and the `N` bit if the number is not zero. -/
def flagged (reg : ℕ) (n : Dword) : ℕ :=
  let w := n.magnitude (reg &&& bit2 != 0)
  let reg := if n.ar &&& smask ≠ 0 ∧ reg &&& bit2 = 0 then reg ||| bit2 else reg
  if w.ar ||| w.arx ≠ 0 then reg ||| bit1 else reg

namespace Core

variable {π : Type} [DecidableEq π] (x : Core π)

/-! ### The source -/

/-- The loop that fills while `L` is set and there is more room than digits, and `cur_sect`. -/
def fillLoop (a fill1 f : ℕ) : ℕ → ℕ → (π → ℕ) → Option (ℕ × (π → ℕ))
  | 0, _, _ => none
  | fuel + 1, c, m =>
      let reg := m (x.ac a 3)
      if reg &&& smask ≠ 0 ∧ f < reg &&& mant then do
        let (c, m) ← x.storeByte a 3 fill1 c m
        fillLoop a fill1 f fuel c m
      else some (c, m)

/-- The loop over the digits, from that of `pow10_tab[f - 1]` on. -/
def digitLoop (a val2 : ℕ) : ℕ → Dword → ℕ → (π → ℕ) → Option (π → ℕ)
  | 0, _, _, m => some m
  | f + 1, w, c, m => do
      let (i, w) := Dword.digit f 10 w
      let (c, m) ← x.storeByte a 3 (i + val2) c m
      digitLoop a val2 f w c (Function.update (Function.update m (x.ac a 0) w.ar) (x.ac a 1) w.arx)

/-- CVTBDO with effective address `e0` and the fill character at `fillAt`: whether it skips. -/
def cvtbdo (a e0 : ℕ) (fillAt : π) (c : ℕ) (m : π → ℕ) : Option (Bool × (π → ℕ)) :=
  let val2 := extend e0
  let fill1 := m fillAt
  let n : Dword := ⟨m (x.ac a 0), m (x.ac a 1)⟩
  let reg := flagged (m (x.ac a 3)) n
  let w := n.magnitude (m (x.ac a 3) &&& bit2 != 0)
  let f := w.width
  let flags := Function.update m (x.ac a 3) reg
  if reg &&& mant < f then some (false, if x.mode.cfg.build = .kl then flags else m)
  else do
    let (c, m) ← x.fillLoop a fill1 f ((reg &&& mant) + 1) c flags
    let m ← x.digitLoop a val2 f w c m
    let m := Function.update m (x.ac a 3) (m (x.ac a 3) &&& (smask ||| expo))
    return (true, Function.update (Function.update m (x.ac a 0) 0) (x.ac a 1) 0)

/-- The loop over the bytes of a string: whether they have all been digits, `AR` and `ARX`. -/
def readLoop (a val2 : ℕ) : ℕ → Dword → ℕ → (π → ℕ) → Option (Bool × Dword × (π → ℕ))
  | 0, _, _, _ => none
  | fuel + 1, w, c, m =>
      if m (x.ac a 0) &&& mant = 0 then some (true, w, m)
      else do
        let (val1, c, m) ← x.loadByte a 0 c m
        let val1 := (val1 + val2) &&& fmask
        if val1 &&& rsign ≠ 0 ∨ val1 > 9 then some (false, w, m)
        else readLoop a val2 fuel (w.mul10 val1) c m

/-- CVTDBO with effective address `e0`: whether it skips. -/
def cvtdbo (a e0 : ℕ) (c : ℕ) (m : π → ℕ) : Option (Bool × (π → ℕ)) := do
  let val2 := extend e0
  let m := if m (x.ac a 0) &&& smask = 0 then
    Function.update (Function.update m (x.ac a 3) 0) (x.ac a 4) 0 else m
  let w : Dword := ⟨m (x.ac a 3), m (x.ac a 4)⟩
  let m := Function.update m (x.ac a 0) (m (x.ac a 0) ||| smask)
  let (skip, w, m) ← x.readLoop a val2 ((m (x.ac a 0) &&& mant) + 1) w c m
  let w := if skip then w.signed (m (x.ac a 0) &&& bit2 != 0)
    else ⟨w.ar, (w.arx &&& cmask) ||| (w.ar &&& smask)⟩
  return (skip, Function.update (Function.update m (x.ac a 3) w.ar) (x.ac a 4) w.arx)

end Core

/-! ### Counts and flags -/

lemma countDown_eq {v : ℕ} (hpos : 0 < v) (hlt : v < 2 ^ 64) : Core.countDown v = v - 1 := by
  rw [Core.countDown]
  lia

lemma and_high {v : ℕ} (hlt : v < 2 ^ 36) : v &&& (smask ||| expo) = v / 2 ^ 27 * 2 ^ 27 := by
  have hhigh : smask ||| expo = (2 ^ 9 - 1) <<< 27 := rfl
  rw [hhigh, and_shiftLeft, Nat.and_two_pow_sub_one_eq_mod, Nat.shiftRight_eq_div_pow,
    Nat.shiftLeft_eq, Nat.mod_eq_of_lt (by omega)]

/-- The `M` and `N` bits of a number. -/
def signFlags (n : ℤ) : ℕ := (if n < 0 then bit2 else 0) ||| if n ≠ 0 then bit1 else 0

lemma flagged_eq {reg : ℕ} {n : Dword} (har : n.ar < 2 ^ 36) (hm : n.toInt < 0 → reg &&& bit2 = 0) :
    flagged reg n = reg ||| signFlags n.toInt := by
  have hm' : n.toInt < 0 → (reg &&& bit2 != 0) = false := fun hneg => by
    rw [hm hneg]
    rfl
  obtain ⟨⟨-, hx⟩, hvalue⟩ := Dword.magnitude_spec har hm'
  have hlow : n.arx % 2 ^ 35 < 2 ^ 35 := Nat.mod_lt _ (by norm_num)
  have hneg : (n.ar &&& smask ≠ 0 ∧ reg &&& bit2 = 0) ↔ n.toInt < 0 := by
    have hsign : n.ar &&& smask ≠ 0 ↔ n.toInt < 0 := by
      rw [and_smask, Dword.toInt]
      split_ifs <;> lia
    exact ⟨fun h => hsign.mp h.1, fun h => ⟨hsign.mpr h, hm h⟩⟩
  have hzero : (n.magnitude (reg &&& bit2 != 0)).ar ||| (n.magnitude (reg &&& bit2 != 0)).arx ≠ 0
      ↔ n.toInt ≠ 0 := by
    rw [Dword.value, Nat.mod_eq_of_lt hx] at hvalue
    rw [not_iff_not, Nat.or_eq_zero_iff]
    lia
  simp only [flagged, hneg, hzero, signFlags]
  split_ifs <;> simp [Nat.or_assoc]

lemma or_signFlags_mod (reg : ℕ) (n : ℤ) : (reg ||| signFlags n) % 2 ^ 27 = reg % 2 ^ 27 := by
  have hnone : signFlags n % 2 ^ 27 = 0 := by
    rw [signFlags]
    split_ifs <;> rfl
  rw [Nat.or_mod_two_pow, hnone, Nat.or_zero]

lemma or_signFlags_lt {reg : ℕ} (hreg : reg < 2 ^ 36) (n : ℤ) : reg ||| signFlags n < 2 ^ 36 := by
  refine Nat.or_lt_two_pow hreg ?_
  rw [signFlags]
  split_ifs <;> decide

lemma or_signFlags_sign (reg : ℕ) (n : ℤ) : (reg ||| signFlags n) &&& smask = reg &&& smask := by
  have hnone : signFlags n &&& smask = 0 := by
    rw [signFlags]
    split_ifs <;> rfl
  rw [Nat.and_or_distrib_right, hnone, Nat.or_zero]

/-! ### The loops -/

namespace Operand

variable {π : Type} [DecidableEq π] {x : Core π} {a n c : ℕ} {m : π → ℕ} {b : BytePtr} {r : ℕ → VAddr}
  (h : Operand x a n c m b r)

include h

/-- The fill, up to the place of the first digit. -/
lemma fillLoop_eq (fill1 f d fuel : ℕ) {reg : ℕ} (hreg : reg < 2 ^ 36) (hcount : reg % 2 ^ 27 = n)
    (hl : reg &&& smask ≠ 0) {k : ℕ} (hd : k + d + f = n) {vs : List ℕ} (hlen : vs.length = k)
    {m' : π → ℕ} (hm : Reached x a 3 m b r k vs m') (hac : m' (x.ac a 3) = reg - k)
    (hfuel : d < fuel) :
    ∃ m'', x.fillLoop a fill1 f fuel (sectAt c r k) m' = some (sectAt c r (k + d), m'')
      ∧ Reached x a 3 m b r (k + d) (vs ++ List.replicate d fill1) m''
      ∧ m'' (x.ac a 3) = reg - (k + d)
      ∧ ∀ j < 3, m'' (x.ac a j) = m' (x.ac a j) := by
  induction d generalizing k vs m' fuel with
  | zero =>
      obtain ⟨fuel, rfl⟩ := Nat.exists_eq_succ_of_ne_zero (Nat.ne_zero_of_lt hfuel)
      have hdone : ¬ (m' (x.ac a 3) &&& smask ≠ 0 ∧ f < m' (x.ac a 3) &&& mant) := by
        rw [hac, and_mant]
        lia
      refine ⟨m', ?_, by simpa using hm, hac, fun _ _ => rfl⟩
      rw [Core.fillLoop]
      exact if_neg hdone
  | succ d ih =>
      obtain ⟨fuel, rfl⟩ := Nat.exists_eq_succ_of_ne_zero (Nat.ne_zero_of_lt hfuel)
      have hmore : m' (x.ac a 3) &&& smask ≠ 0 ∧ f < m' (x.ac a 3) &&& mant := by
        rw [and_smask] at hl
        rw [hac, and_mant, and_smask]
        omega
      obtain ⟨m₁, hone, hm₁, hac₁, hrest₁⟩ := h.storeByte_eq (by norm_num) (by omega) hlen hm fill1
      have hac₁' : m₁ (x.ac a 3) = reg - (k + 1) := by
        rw [hac₁, hac, countDown_eq (by lia) (by lia)]
        omega
      have hlen₁ : (vs ++ [fill1]).length = k + 1 := by
        rw [List.length_append, List.length_singleton, hlen]
      obtain ⟨m₂, hloop, hm₂, hac₂, hrest₂⟩ :=
        ih fuel (by lia) hlen₁ hm₁ hac₁' (Nat.lt_of_succ_lt_succ hfuel)
      refine ⟨m₂, ?_, ?_, by rw [hac₂]; lia, fun j hj => ?_⟩
      · rw [Core.fillLoop, show k + (d + 1) = k + 1 + d by omega, ← hloop]
        show (if _ then (x.storeByte a 3 fill1 (sectAt c r k) m').bind _ else _) = _
        rw [if_pos hmore, hone]
        rfl
      · rwa [List.append_assoc, List.singleton_append, ← List.replicate_succ,
          show k + 1 + d = k + (d + 1) by omega] at hm₂
      · rw [hrest₂ j hj, hrest₁ j (by lia) (by lia) (by lia) (by lia)]

/-- The fill, if there is any. -/
lemma fillLoop_start (fill1 : ℕ) {f reg : ℕ} (hreg : reg < 2 ^ 36) (hcount : reg % 2 ^ 27 = n)
    (hf : f ≤ n) {m' : π → ℕ} (hm : Reached x a 3 m b r 0 [] m') (hac : m' (x.ac a 3) = reg) :
    let vs := if reg &&& smask ≠ 0 then List.replicate (n - f) fill1 else []
    ∃ m'', x.fillLoop a fill1 f (n + 1) c m' = some (sectAt c r vs.length, m'')
      ∧ Reached x a 3 m b r vs.length vs m''
      ∧ m'' (x.ac a 3) = reg - vs.length
      ∧ (∀ j < 3, m'' (x.ac a j) = m' (x.ac a j))
      ∧ vs.length + f ≤ n := by
  intro vs
  by_cases hl : reg &&& smask ≠ 0
  · have hvs : vs = List.replicate (n - f) fill1 := if_pos hl
    have hlen : vs.length = n - f := by rw [hvs, List.length_replicate]
    obtain ⟨m₁, hloop, hm₁, hac₁, hrest₁⟩ := h.fillLoop_eq fill1 f (n - f) (n + 1) (k := 0) hreg hcount
      hl (by omega) rfl hm hac (by omega)
    rw [Nat.zero_add, List.nil_append, ← hvs] at hm₁
    rw [Nat.zero_add] at hloop hac₁
    rw [hlen]
    exact ⟨m₁, hloop, hm₁, hac₁, hrest₁, (Nat.sub_add_cancel hf).le⟩
  · have hvs : vs = [] := if_neg hl
    rw [hvs]
    refine ⟨m', ?_, hm, hac, fun _ _ => rfl, (Nat.zero_add f).trans_le hf⟩
    rw [Core.fillLoop, hac]
    exact if_neg fun hboth => hl hboth.1

/-- The digits. -/
lemma digitLoop_eq (val2 f : ℕ) (w : Dword) {k : ℕ} (hk : k + f ≤ n) {vs : List ℕ}
    (hlen : vs.length = k) {m' : π → ℕ} (hm : Reached x a 3 m b r k vs m')
    (hcount : f ≤ m' (x.ac a 3)) (hlt : m' (x.ac a 3) < 2 ^ 36) :
    ∃ m'', x.digitLoop a val2 f w (sectAt c r k) m' = some m''
      ∧ Reached x a 3 m b r (k + f) (vs ++ (w.digits f).map (· + val2)) m''
      ∧ m'' (x.ac a 3) = m' (x.ac a 3) - f
      ∧ m'' (x.ac a 2) = m' (x.ac a 2) := by
  induction f generalizing k w vs m' with
  | zero =>
      exact ⟨m', rfl, by simpa [Dword.digits] using hm, rfl, rfl⟩
  | succ f ih =>
      obtain ⟨m₁, hone, hm₁, hac₁, hrest₁⟩ :=
        h.storeByte_eq (by norm_num) (by omega) hlen hm ((Dword.digit f 10 w).1 + val2)
      rw [countDown_eq (by omega) (by omega)] at hac₁
      set m₂ := Function.update (Function.update m₁ (x.ac a 0) (Dword.digit f 10 w).2.ar) (x.ac a 1)
        (Dword.digit f 10 w).2.arx with hm₂_def
      have hother (j : ℕ) (hj : j < 6) (h0 : j ≠ 0) (h1 : j ≠ 1) :
          m₂ (x.ac a j) = m₁ (x.ac a j) := by
        rw [hm₂_def, h.update_ac (by norm_num) hj h1,
          h.update_ac (by norm_num) hj h0]
      have hm₂ : Reached x a 3 m b r (k + 1) (vs ++ [(Dword.digit f 10 w).1 + val2]) m₂ :=
        (hm₁.update h.acs (by norm_num) (by norm_num) (by norm_num) (by norm_num) _).update h.acs
          (by norm_num) (by norm_num) (by norm_num) (by norm_num) _
      have hac₂ : m₂ (x.ac a 3) = m' (x.ac a 3) - 1 := by
        rw [hother 3 (by norm_num) (by norm_num) (by norm_num), hac₁]
      have hlen₂ : (vs ++ [(Dword.digit f 10 w).1 + val2]).length = k + 1 := by
        rw [List.length_append, List.length_singleton, hlen]
      obtain ⟨m₃, hloop, hm₃, hac₃, hrest₃⟩ :=
        ih (Dword.digit f 10 w).2 (by lia) hlen₂ hm₂ (by lia) (by omega)
      refine ⟨m₃, ?_, ?_, ?_, ?_⟩
      · rw [Core.digitLoop, ← hloop]
        show (x.storeByte a 3 ((Dword.digit f 10 w).1 + val2) (sectAt c r k) m').bind _ = _
        rw [hone]
        rfl
      · rw [Dword.digits, List.map_cons]
        rwa [List.append_assoc, List.singleton_append, Nat.add_assoc, Nat.add_comm 1 f] at hm₃
      · rw [hac₃, hac₂]
        lia
      · rw [hrest₃, hother 2 (by norm_num) (by norm_num) (by norm_num),
          hrest₁ 2 (by norm_num) (by norm_num) (by norm_num) (by norm_num)]

/-- The bytes of a string read as digits. -/
lemma readLoop_eq (val2 fuel : ℕ) {reg : ℕ} (hreg : reg < 2 ^ 36) (hcount : reg % 2 ^ 27 = n)
    {ds : List ℕ} {k : ℕ} (hk : k + ds.length = n)
    (hbytes : ∀ i (hi : i < ds.length), ((layout x.ext b r).get (k + i) m + val2) % 2 ^ 36 = ds[i])
    (hdigits : ∀ d ∈ ds, d < 10) {w : Dword} (hw : w.Plain) (hlt : Digits.read 10 w.value ds < 2 ^ 71)
    {m' : π → ℕ} (hm : Reached x a 0 m b r k [] m') (hac : m' (x.ac a 0) = reg - k)
    (hfuel : ds.length < fuel) :
    ∃ w' m'', x.readLoop a val2 fuel w (sectAt c r k) m' = some (true, w', m'')
      ∧ w'.Plain ∧ w'.value = Digits.read 10 w.value ds
      ∧ Reached x a 0 m b r n [] m''
      ∧ m'' (x.ac a 0) = reg - n := by
  induction ds generalizing k w m' fuel with
  | nil =>
      obtain rfl : k = n := hk
      obtain ⟨fuel, rfl⟩ := Nat.exists_eq_succ_of_ne_zero (Nat.ne_zero_of_lt hfuel)
      have hdone : m' (x.ac a 0) &&& mant = 0 := by
        rw [hac, and_mant]
        omega
      refine ⟨w, m', ?_, hw, rfl, hm, hac⟩
      rw [Core.readLoop, if_pos hdone]
  | cons d ds ih =>
      obtain ⟨fuel, rfl⟩ := Nat.exists_eq_succ_of_ne_zero (Nat.ne_zero_of_lt hfuel)
      rw [List.length_cons] at hk hfuel
      have hmore : ¬ m' (x.ac a 0) &&& mant = 0 := by
        rw [hac, and_mant]
        lia
      obtain ⟨m₁, hone, hm₁, hac₁, -⟩ := h.loadByte_eq (by norm_num) (by omega) (Nat.zero_le _) hm
      have hbyte : ((layout x.ext b r).get k m + val2) &&& fmask = d := by
        rw [and_fmask]
        exact hbytes 0 (Nat.succ_pos _)
      have hd : d < 10 := hdigits d List.mem_cons_self
      have hvalid : ¬ (d &&& rsign ≠ 0 ∨ d > 9) := by
        rintro (hbit | hbig)
        · rw [show rsign = 2 ^ 17 from rfl, and_pow_ne_zero] at hbit
          lia
        · lia
      have hstep : w.value * 10 + d < 2 ^ 71 :=
        (Digits.le_read (by norm_num) _ ds).trans_lt hlt
      obtain ⟨hw₁, hvalue₁⟩ := Dword.mul10_spec hw hstep
      have hac₁' : m₁ (x.ac a 0) = reg - (k + 1) := by
        rw [hac₁, hac, countDown_eq (by lia) (by lia)]
        omega
      obtain ⟨w', m₂, hloop, hw', hvalue', hm₂, hac₂⟩ := ih (k := k + 1) fuel (by lia)
        (fun i hi => by
          have hnext := hbytes (i + 1) (Nat.succ_lt_succ hi)
          rwa [List.getElem_cons_succ, show k + (i + 1) = k + 1 + i by lia] at hnext)
        (fun e he => hdigits e (List.mem_cons_of_mem _ he)) hw₁ (by rwa [hvalue₁]) hm₁ hac₁'
        (Nat.lt_of_succ_lt_succ hfuel)
      refine ⟨w', m₂, ?_, hw', ?_, hm₂, hac₂⟩
      · rw [Core.readLoop, if_neg hmore, ← hloop]
        show (x.loadByte a 0 (sectAt c r k) m').bind _ = _
        rw [hone]
        show (if _ then _ else _) = _
        rw [Fields.Layout.puts, hbyte, if_neg hvalid]
      · rw [hvalue', hvalue₁]
        rfl

end Operand

/-! ### The instructions -/

section Instructions

variable {π : Type} (x : Core π) (a : ℕ) (m : π → ℕ)

/-- The number that CVTBDO converts, its digits, and the pointer to its string. -/
def number : ℤ := Dword.toInt ⟨m (x.ac a 0), m (x.ac a 1)⟩
def numeral : List ℕ := Digits.numeral 10 (number x a m).natAbs
def target : BytePtr := ⟨m (x.ac a 4), m (x.ac a 5)⟩

/-- The fill that CVTBDO writes before the digits, if `L` is set. -/
def fill (fill1 : ℕ) : List ℕ :=
  if m (x.ac a 3) &&& smask ≠ 0 then
    List.replicate ((m (x.ac a 3) &&& mant) - (numeral x a m).length) fill1
  else []

/-- What CVTBDO leaves when it has written the bytes `vs`: no number, the flags without a count, the
pointer to the last byte, and nothing else. -/
structure Converted [DecidableEq π] (r : ℕ → VAddr) (vs : List ℕ) (m' : π → ℕ) : Prop where
  zero : m' (x.ac a 0) = 0 ∧ m' (x.ac a 1) = 0
  kept : m' (x.ac a 2) = m (x.ac a 2)
  flags : m' (x.ac a 3) = (m (x.ac a 3) ||| signFlags (number x a m)) &&& (smask ||| expo)
  pointer : target x a m' = operands x.mode.ext (target x a m) vs.length
  bytes : ∀ k (hk : k < vs.length), (layout x.ext (target x a m) r).get k m'
    = vs[k] % 2 ^ (target x a m).size x.mode.ext
  beside : ∀ p, (∀ j < 6, p ≠ x.ac a j) → ∀ i, (∀ j < vs.length, p = x.loc (r j) →
      i < (layout x.ext (target x a m) r).pos j
        ∨ (layout x.ext (target x a m) r).pos j + (layout x.ext (target x a m) r).size ≤ i) →
    (m' p).testBit i = (m p).testBit i

variable {x a m}

lemma toInt_range {w : Dword} (har : w.ar < 2 ^ 36) : -2 ^ 70 ≤ w.toInt ∧ w.toInt < 2 ^ 70 := by
  have hlow : w.arx % 2 ^ 35 < 2 ^ 35 := Nat.mod_lt _ (by norm_num)
  rw [Dword.toInt]
  split_ifs <;> omega

/-- The digits that CVTBDO finds. -/
lemma digits_magnitude (har : m (x.ac a 0) < 2 ^ 36)
    (hm : number x a m < 0 → m (x.ac a 3) &&& bit2 = 0) :
    let w := Dword.magnitude (m (x.ac a 3) &&& bit2 != 0) ⟨m (x.ac a 0), m (x.ac a 1)⟩
    w.digits w.width = numeral x a m ∧ w.width = (numeral x a m).length := by
  intro w
  have hm' : number x a m < 0 → (m (x.ac a 3) &&& bit2 != 0) = false := fun hneg => by
    rw [hm hneg]
    rfl
  obtain ⟨hplain, hvalue⟩ := Dword.magnitude_spec har hm'
  have hlt : (number x a m).natAbs < 10 ^ 22 := by
    obtain ⟨hlow, hhigh⟩ := toInt_range (w := ⟨m (x.ac a 0), m (x.ac a 1)⟩) har
    rw [number]
    omega
  have hdigits : w.digits w.width = numeral x a m := by
    rw [Dword.digits_width hplain (hvalue.trans_lt hlt), hvalue]
    rfl
  exact ⟨hdigits, by rw [← hdigits, Dword.length_digits]⟩

variable [DecidableEq π]

/-- Too short a string: only the KL10 has changed the flags. -/
lemma cvtbdo_short {e0 c : ℕ} {fillAt : π} (har : m (x.ac a 0) < 2 ^ 36)
    (hm : number x a m < 0 → m (x.ac a 3) &&& bit2 = 0)
    (hshort : m (x.ac a 3) &&& mant < (numeral x a m).length) :
    x.cvtbdo a e0 fillAt c m = some (false, if x.mode.cfg.build = .kl then
      Function.update m (x.ac a 3) (m (x.ac a 3) ||| signFlags (number x a m)) else m) := by
  obtain ⟨-, hwidth⟩ := digits_magnitude har hm
  have hflags := flagged_eq (n := ⟨m (x.ac a 0), m (x.ac a 1)⟩) har hm
  have hroom : (m (x.ac a 3) ||| signFlags (number x a m)) &&& mant < (numeral x a m).length := by
    rwa [and_mant, or_signFlags_mod, ← and_mant]
  rw [Core.cvtbdo]
  simp only [hflags, hwidth]
  exact if_pos hroom

/-- **CVTBDO** writes the fill and the digits. -/
theorem Operand.cvtbdo_eq (e0 : ℕ) (fillAt : π) {c : ℕ} {r : ℕ → VAddr}
    (h : Operand x a (m (x.ac a 3) &&& mant) c m (target x a m) r)
    (hm : number x a m < 0 → m (x.ac a 3) &&& bit2 = 0)
    (hroom : (numeral x a m).length ≤ m (x.ac a 3) &&& mant) :
    ∃ m', x.cvtbdo a e0 fillAt c m = some (true, m')
      ∧ Converted x a m r (fill x a m (m fillAt) ++ (numeral x a m).map (· + extend e0)) m' := by
  set reg := m (x.ac a 3) ||| signFlags (number x a m) with hreg
  set ds := numeral x a m with hds
  set vs := fill x a m (m fillAt) with hvs
  set w := Dword.magnitude (m (x.ac a 3) &&& bit2 != 0) ⟨m (x.ac a 0), m (x.ac a 1)⟩ with hw
  obtain ⟨hdigits, hwidth⟩ := digits_magnitude (h.words_lt _) hm
  have hflags := flagged_eq (n := ⟨m (x.ac a 0), m (x.ac a 1)⟩) (h.words_lt _) hm
  have hreg_lt : reg < 2 ^ 36 := or_signFlags_lt (h.words_lt _) _
  have hcount : reg % 2 ^ 27 = m (x.ac a 3) &&& mant := by rw [hreg, or_signFlags_mod, and_mant]
  have hmant : reg &&& mant = m (x.ac a 3) &&& mant := by rw [← hcount, and_mant]
  have hsign : reg &&& smask = m (x.ac a 3) &&& smask := or_signFlags_sign _ _
  have hstart : Reached x a 3 m (target x a m) r 0 [] (Function.update m (x.ac a 3) reg) := by
    refine Reached.update ⟨rfl, rfl, fun p _ => rfl⟩ h.acs (by norm_num) ?_ ?_ ?_ _ <;> norm_num
  have hfill : fill x a m (m fillAt)
      = if reg &&& smask ≠ 0 then List.replicate ((m (x.ac a 3) &&& mant) - ds.length) (m fillAt)
        else [] := by rw [hsign]; rfl
  obtain ⟨m₁, hloop₁, hm₁, hac₁, hrest₁, hlen⟩ := h.fillLoop_start (m fillAt) hreg_lt hcount hroom hstart
    (Function.update_self _ _ _)
  rw [← hfill, ← hvs] at hloop₁ hm₁ hac₁ hlen
  obtain ⟨m₂, hloop₂, hm₂, hac₂, hrest₂⟩ := h.digitLoop_eq (extend e0) ds.length w hlen rfl hm₁
    (by lia) (by lia)
  rw [← hwidth, hdigits, hwidth] at hm₂
  set bs := vs ++ ds.map (· + extend e0) with hbs
  have hbs_len : bs.length = vs.length + ds.length := by
    rw [hbs, List.length_append, List.length_map]
  set m₃ := Function.update (Function.update (Function.update m₂ (x.ac a 3)
    (m₂ (x.ac a 3) &&& (smask ||| expo))) (x.ac a 0) 0) (x.ac a 1) 0 with hm₃_def
  have hm₃ : Reached x a 3 m (target x a m) r bs.length bs m₃ := by
    rw [hbs_len]
    refine Reached.update (Reached.update (Reached.update hm₂ h.acs ?_ ?_ ?_ ?_ _)
      h.acs ?_ ?_ ?_ ?_ _) h.acs ?_ ?_ ?_ ?_ _ <;> norm_num
  refine ⟨m₃, ?_, ⟨?_, Function.update_self _ _ _⟩, ?_, ?_, ?_, fun k hk => ?_, fun p hp i hi => ?_⟩
  · rw [Core.cvtbdo]
    simp only [hflags]
    rw [← hw, hwidth]
    show (if reg &&& mant < ds.length then _ else Option.bind _ _) = _
    rw [if_neg (by lia)]
    show Option.bind (x.fillLoop a (m fillAt) ds.length ((reg &&& mant) + 1) c
      (Function.update m (x.ac a 3) reg)) _ = _
    rw [hmant, hloop₁]
    show Option.bind (x.digitLoop a (extend e0) ds.length w (sectAt c r vs.length) m₁) _ = _
    rw [hloop₂]
    rfl
  · rw [hm₃_def, h.update_ac (by norm_num) (by norm_num) (by norm_num),
      Function.update_self]
  · rw [hm₃_def, h.update_ac (by norm_num) (by norm_num) (by norm_num),
      h.update_ac (by norm_num) (by norm_num) (by norm_num),
      h.update_ac (by norm_num) (by norm_num) (by norm_num), hrest₂,
      hrest₁ 2 (by norm_num), h.update_ac (by norm_num) (by norm_num) (by norm_num)]
  · rw [hm₃_def, h.update_ac (by norm_num) (by norm_num) (by norm_num),
      h.update_ac (by norm_num) (by norm_num) (by norm_num),
      Function.update_self, hac₂, hac₁, and_high (by lia), and_high hreg_lt]
    lia
  · exact congrArg₂ BytePtr.mk hm₃.first hm₃.second
  · exact h.get_eq hm₃ (by lia) hk
  · rw [hm₃.beside p hp, Fields.Layout.testBit_puts fun j _ hj hplace => hi j (by omega) hplace]

/-- **CVTDBO** of a string of digits, with the sign in `M`. -/
theorem Operand.cvtdbo_eq {e0 c : ℕ} {r : ℕ → VAddr} {n : ℤ} (hlow : -2 ^ 70 ≤ n)
    (hhigh : n < 2 ^ 70)
    (h : Operand x a (Digits.numeral 10 n.natAbs).length c m ⟨m (x.ac a 1), m (x.ac a 2)⟩ r)
    (hfresh : m (x.ac a 0) &&& smask = 0)
    (hsign : m (x.ac a 0) &&& bit2 ≠ 0 ↔ n < 0)
    (hcount : m (x.ac a 0) &&& mant = (Digits.numeral 10 n.natAbs).length)
    (hbytes : ∀ k (hk : k < (Digits.numeral 10 n.natAbs).length),
      ((layout x.ext ⟨m (x.ac a 1), m (x.ac a 2)⟩ r).get k m + extend e0) % 2 ^ 36
        = (Digits.numeral 10 n.natAbs)[k]) :
    ∃ m', x.cvtdbo a e0 c m = some (true, m')
      ∧ Dword.toInt ⟨m' (x.ac a 3), m' (x.ac a 4)⟩ = n
      ∧ ∀ p, (∀ j < 6, p ≠ x.ac a j) → m' p = m p := by
  set ds := Digits.numeral 10 n.natAbs with hds
  set b : BytePtr := ⟨m (x.ac a 1), m (x.ac a 2)⟩ with hb
  set reg := m (x.ac a 0) ||| smask with hreg
  have hac0 := h.words_lt (x.ac a 0)
  have hread : Digits.read 10 0 ds = n.natAbs := Digits.read_numeral 10 _
  have hreg_eq : reg = m (x.ac a 0) + 2 ^ 35 := by
    have hclear : m (x.ac a 0) < 2 ^ 35 := by
      have hbit := (and_smask (m (x.ac a 0))).not.mp (not_not.mpr hfresh)
      lia
    rw [hreg, Nat.or_comm, Nat.add_comm]
    exact or_eq_add (i := 35) (dvd_refl _) hclear
  have hreg_lt : reg < 2 ^ 36 := Nat.or_lt_two_pow hac0 (by norm_num)
  have hreg_count : reg % 2 ^ 27 = ds.length := by
    rw [← hcount, and_mant, hreg_eq]
    lia
  set m₁ := Function.update (Function.update m (x.ac a 3) 0) (x.ac a 4) 0 with hm₁_def
  have hkeep : m₁ (x.ac a 0) = m (x.ac a 0) := by
    rw [hm₁_def, h.update_ac (by norm_num) (by norm_num) (by norm_num),
      h.update_ac (by norm_num) (by norm_num) (by norm_num)]
  have hzero : (⟨m₁ (x.ac a 3), m₁ (x.ac a 4)⟩ : Dword) = ⟨0, 0⟩ := by
    rw [hm₁_def, Function.update_self,
      h.update_ac (by norm_num) (by norm_num) (by norm_num), Function.update_self]
  set m₂ := Function.update m₁ (x.ac a 0) reg with hm₂_def
  have hac₂ : m₂ (x.ac a 0) = reg := Function.update_self _ _ _
  have hstart : Reached x a 0 m b r 0 [] m₂ := by
    refine Reached.update (Reached.update (Reached.update ⟨rfl, rfl, fun p _ => rfl⟩ h.acs ?_ ?_ ?_ ?_ _)
      h.acs ?_ ?_ ?_ ?_ _) h.acs ?_ ?_ ?_ ?_ _ <;> norm_num
  obtain ⟨w, m₃, hloop, hw, hvalue, hm₃, hac₃⟩ := h.readLoop_eq (extend e0) ((reg &&& mant) + 1)
    (w := ⟨0, 0⟩) hreg_lt hreg_count
    (Nat.zero_add _) (fun i hi => by rw [Nat.zero_add]; exact hbytes i hi)
    (fun d hd => Digits.numeral_lt (by norm_num) hd) ⟨by norm_num, by norm_num⟩
    (by rw [show Dword.value ⟨0, 0⟩ = 0 from rfl, hread]; omega) hstart hac₂
    (by rw [and_mant, hreg_count]; omega)
  rw [show Dword.value ⟨0, 0⟩ = 0 from rfl, hread] at hvalue
  have hminus : (m₃ (x.ac a 0) &&& bit2 != 0) = decide (n < 0) := by
    have hbit : m₃ (x.ac a 0) &&& bit2 ≠ 0 ↔ m (x.ac a 0) &&& bit2 ≠ 0 := by
      rw [hac₃, hreg_eq, show bit2 = 2 ^ 33 from rfl, and_pow_ne_zero, and_pow_ne_zero]
      rw [hreg_eq] at hreg_count
      omega
    rw [Bool.eq_iff_iff, bne_iff_ne, decide_eq_true_iff]
    exact hbit.trans hsign
  have hback := Dword.signed_spec hw (m := decide (n < 0)) (by
    rw [hvalue, decide_eq_true_iff]
    lia)
  refine ⟨Function.update (Function.update m₃ (x.ac a 3) (w.signed (decide (n < 0))).ar) (x.ac a 4)
    (w.signed (decide (n < 0))).arx, ?_, ?_, fun p hp => ?_⟩
  · rw [Core.cvtdbo]
    simp only [if_pos hfresh, ← hm₁_def, hkeep, hzero, ← hreg, ← hm₂_def, hac₂]
    show Option.bind (x.readLoop a (extend e0) ((reg &&& mant) + 1) ⟨0, 0⟩ c m₂) _ = _
    rw [show c = sectAt c r 0 from rfl, hloop]
    show some (true, _) = _
    simp only [hminus, if_true]
  · rw [Function.update_self,
      h.update_ac (by norm_num) (by norm_num) (by norm_num),
      Function.update_self]
    show (w.signed (decide (n < 0))).toInt = n
    rw [hback, hvalue]
    simp only [decide_eq_true_eq]
    split_ifs <;> lia
  · rw [Function.update_of_ne (hp 4 (by norm_num)), Function.update_of_ne (hp 3 (by norm_num)),
      hm₃.beside p hp]
    rfl

/-- An operand of CVTDBO that names the digits CVTBDO has left in `m'`, after its fill, with the sign of the
number in `M`; each digit is one again in the bytes of the string, with the two offsets. -/
structure Readable (x : Core π) (a : ℕ) (m : π → ℕ) (r : ℕ → VAddr) (e0 : ℕ) (filled : ℕ) (m' : π → ℕ)
    (a₂ e₂ c₂ : ℕ) (m₂ : π → ℕ) (r₂ : ℕ → VAddr) : Prop where
  string : Operand x a₂ (numeral x a m).length c₂ m₂ ⟨m₂ (x.ac a₂ 1), m₂ (x.ac a₂ 2)⟩ r₂
  fresh : m₂ (x.ac a₂ 0) &&& smask = 0
  sign : m₂ (x.ac a₂ 0) &&& bit2 ≠ 0 ↔ number x a m < 0
  count : m₂ (x.ac a₂ 0) &&& mant = (numeral x a m).length
  same : ∀ k < (numeral x a m).length,
    (layout x.ext ⟨m₂ (x.ac a₂ 1), m₂ (x.ac a₂ 2)⟩ r₂).get k m₂
      = (layout x.ext (target x a m) r).get (filled + k) m'
  legible : ∀ d < 10,
    ((d + extend e0) % 2 ^ (target x a m).size x.mode.ext + extend e₂) % 2 ^ 36 = d

/-- **Decimal conversion** of a double word, whose `M` bit is not set already if it is below zero. In too
short a string only the KL10 has set the flags. In any other that is clear of the accumulators CVTBDO leaves
the fill and the digits, and CVTDBO gives the number again. -/
theorem decimal_converted {e0 c : ℕ} {fillAt : π} (har : m (x.ac a 0) < 2 ^ 36)
    (hm : number x a m < 0 → m (x.ac a 3) &&& bit2 = 0) :
    (m (x.ac a 3) &&& mant < (numeral x a m).length →
      x.cvtbdo a e0 fillAt c m = some (false, if x.mode.cfg.build = .kl then
        Function.update m (x.ac a 3) (m (x.ac a 3) ||| signFlags (number x a m)) else m))
    ∧ ((numeral x a m).length ≤ m (x.ac a 3) &&& mant →
      ∀ r, Operand x a (m (x.ac a 3) &&& mant) c m (target x a m) r →
      ∃ m', x.cvtbdo a e0 fillAt c m = some (true, m')
        ∧ Converted x a m r (fill x a m (m fillAt) ++ (numeral x a m).map (· + extend e0)) m'
        ∧ ∀ a₂ e₂ c₂ m₂ r₂,
          Readable x a m r e0 (fill x a m (m fillAt)).length m' a₂ e₂ c₂ m₂ r₂ →
          ∃ m₃, x.cvtdbo a₂ e₂ c₂ m₂ = some (true, m₃)
            ∧ Dword.toInt ⟨m₃ (x.ac a₂ 3), m₃ (x.ac a₂ 4)⟩ = number x a m
            ∧ ∀ p, (∀ j < 6, p ≠ x.ac a₂ j) → m₃ p = m₂ p) := by
  refine ⟨cvtbdo_short har hm, fun hroom r h => ?_⟩
  obtain ⟨m', hrun, hconv⟩ := h.cvtbdo_eq e0 fillAt hm hroom
  refine ⟨m', hrun, hconv, fun a₂ e₂ c₂ m₂ r₂ hread => ?_⟩
  obtain ⟨hlow, hhigh⟩ := toInt_range (w := ⟨m (x.ac a 0), m (x.ac a 1)⟩) har
  refine hread.string.cvtdbo_eq hlow hhigh hread.fresh hread.sign hread.count fun k hk => ?_
  -- the byte that CVTBDO has left, and the digit in it
  set ds := numeral x a m with hds
  set vs := fill x a m (m fillAt) with hvs
  have hd : ds[k] < 10 := Digits.numeral_lt (by norm_num) (List.getElem_mem hk)
  have hin : vs.length + k < (vs ++ ds.map (· + extend e0)).length := by
    rw [List.length_append, List.length_map]
    exact Nat.add_lt_add_left hk _
  have hbyte := hconv.bytes (vs.length + k) hin
  rw [List.getElem_append_right (Nat.le_add_right _ _), List.getElem_map] at hbyte
  simp only [Nat.add_sub_cancel_left] at hbyte
  rw [hread.same k hk, hbyte]
  exact hread.legible _ hd

end Instructions

/-- A word of memory at each address that has been given one. -/
def words (ws : List (ℕ × ℕ)) (p : ℕ) : ℕ := ((ws.find? fun w => w.1 == p).map Prod.snd).getD 0

lemma words_lt {ws : List (ℕ × ℕ)} (h : ∀ w ∈ ws, w.2 < 2 ^ 36) (p : ℕ) : words ws p < 2 ^ 36 := by
  rw [words]
  cases hfind : ws.find? fun w => w.1 == p with
  | none => norm_num
  | some w => exact h w (List.mem_of_find?_eq_some hfind)

/-- An operand on a machine with its words under their addresses. -/
lemma plain_operand {n : ℕ} {ws : List (ℕ × ℕ)} {b : BytePtr} {r : ℕ → VAddr}
    (hvalid : BytePtr.Valid plainKs.mode.ext b) (hws : ∀ w ∈ ws, w.2 < 2 ^ 36)
    (hlocates : ∀ k < n, (plainKs.advance (sectAt 0 r k) (operands plainKs.mode.ext b k)).all fun s =>
      decide (plainKs.locate (words ws) (sectAt 0 r k) s = some (r k)
        ∧ plainKs.locateReads (words ws) (sectAt 0 r k) s = []))
    (hbytes : ∀ k < n, 6 ≤ (r k).ab)
    (hwords : ∀ j < n, ∀ k < n, (slots plainKs.mode.ext b (j + 1)).word
      ≠ (slots plainKs.mode.ext b (k + 1)).word → (r j).ab ≠ (r k).ab) :
    Operand plainKs 0 n 0 (words ws) b r where
  build := .inr rfl
  valid := hvalid
  words_lt := words_lt hws
  acs := by decide
  locates k hk s hs := by
    have hall := hlocates k hk
    rw [hs, Option.all_some, decide_eq_true_iff] at hall
    exact ⟨hall.1, by simp [hall.2]⟩
  bytes k hk j hj := by
    have hac : plainKs.ac 0 j = j := by
      interval_cases j <;> rfl
    have hloc : plainKs.loc (r k) = (r k).ab := rfl
    have hle := hbytes k hk
    rw [hac, hloc]
    omega
  words := hwords

/-- The number `-45` and a string of three bytes of nine bits; the digits, to be read. -/
def minusFortyFive : List (ℕ × ℕ) :=
  [(0, 2 ^ 36 - 1), (1, 2 ^ 35 - 45), (3, smask + 3), (4, 0o441100001000), (0o100, 0o40)]
def fortyFive : List (ℕ × ℕ) := [(0, bit2 + 2), (1, 0o331100001000), (0o1000, 0o040064065000)]

lemma minusFortyFive_operand :
    Operand plainKs 0 3 0 (words minusFortyFive) (target plainKs 0 (words minusFortyFive))
      fun _ => ⟨0o1000, ⟨0, 0, false⟩⟩ :=
  plain_operand (by constructor <;> decide) (by decide) (by decide) (by decide) (by decide)

lemma fortyFive_operand :
    Operand plainKs 0 2 0 (words fortyFive) ⟨0o331100001000, 0⟩ fun _ => ⟨0o1000, ⟨0, 0, false⟩⟩ :=
  plain_operand (by constructor <;> decide) (by decide) (by decide) (by decide) (by decide)

theorem decimal_converted_minus_forty_five :
    ∃ m', plainKs.cvtbdo 0 0o60 0o100 0 (words minusFortyFive) = some (true, m')
      ∧ Converted plainKs 0 (words minusFortyFive) (fun _ => ⟨0o1000, ⟨0, 0, false⟩⟩)
        [0o40, 0o64, 0o65] m'
      ∧ ∃ m₃, plainKs.cvtdbo 0 0o777720 0 (words fortyFive) = some (true, m₃)
        ∧ Dword.toInt ⟨m₃ 3, m₃ 4⟩ = -45 := by
  have hnumber : number plainKs 0 (words minusFortyFive) = -45 := by decide
  have hnumeral : numeral plainKs 0 (words minusFortyFive) = [4, 5] := by
    rw [numeral, hnumber]
    norm_num [Digits.numeral]
  have hfill : fill plainKs 0 (words minusFortyFive) 0o40 = [0o40] := by
    rw [fill, hnumeral]
    decide
  obtain ⟨-, hlong⟩ := @decimal_converted ℕ plainKs 0 (words minusFortyFive) _ 0o60 0 0o100
    (by decide) (fun _ => by decide)
  obtain ⟨m', hrun, hconv, hback⟩ := hlong (by rw [hnumeral]; decide) _ minusFortyFive_operand
  rw [show words minusFortyFive 0o100 = 0o40 by decide, hfill, hnumeral] at hconv
  refine ⟨m', hrun, hconv, ?_⟩
  obtain ⟨m₃, hrun₃, hint, -⟩ := hback 0 0o777720 0 (words fortyFive) _
    { string := by rw [hnumeral]; exact fortyFive_operand
      fresh := by decide
      sign := by rw [hnumber]; decide
      count := by rw [hnumeral]; decide
      same := fun k hk => by
        rw [show words minusFortyFive 0o100 = 0o40 by decide, hfill]
        have htwo : k < 2 := by rwa [hnumeral] at hk
        have hbyte := hconv.bytes (1 + k) (show 1 + k < 3 by omega)
        rw [List.length_singleton, hbyte]
        interval_cases k
        · show _ = 0o64 % _
          decide
        · show _ = 0o65 % _
          decide
      legible := by decide }
  exact ⟨m₃, hrun₃, hint.trans hnumber⟩

/-- What is left out: a KL10 sets the flags in too short a string; a number below zero with `M` set is taken
for a number above; bytes of three bits do not hold an eight; and a string may lie over the number. -/
theorem decimal_converted_fails :
    ((({ plainKs with mode := { cfg := { build := .kl } } } : Core ℕ).cvtbdo 0 0 0o100 0
        (words [(1, 5)])).map fun s => (s.1, s.2 3)) = some (false, bit1)
    ∧ ((plainKs.cvtbdo 0 0 0o100 0 (words [(0, 2 ^ 36 - 1), (1, 2 ^ 35 - 5), (3, bit2 + 1),
        (4, 0o441100001000)])).map Prod.fst) = some false
    ∧ ((plainKs.cvtbdo 0 0 0o100 0 (words [(1, 8), (3, 1), (4, 0o440300001000)])).map fun s =>
        s.2 0o1000) = some 0
    ∧ ((plainKs.cvtbdo 0 0 0o100 0 (words [(1, 5), (3, 1), (4, 0o441100000000)])).map fun s =>
        s.2 0) = some 0 := by
  decide

end Ka10Simh.Pdp10
