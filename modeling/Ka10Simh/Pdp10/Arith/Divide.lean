import Ka10Simh.Lib.NonRestoring
import Ka10Simh.Pdp10.Arith.Basic

/-!
`IDIV` and `DIV` of `sim_instr` on a machine that is no `KA` and no `PDP6`, in their four modes.

* `idiv`, `div`: the instructions, from the two operands on. `divStep` is a turn of the loop of `DIV`.
* `Dividing`: the registers in the loop, as a division without restoring; `Dividing.step` is a turn.
* `Divides`: what quotient and remainder are.
* `quotients_delivered`: `IDIV` is right, and `DIV` but for the lowest dividend by zero.
-/

namespace Ka10Simh.Pdp10.Arith

open NonRestoring (Between trial bit)

variable {s : Acs} {ac e x y a b k ar mq br : ℕ} {ir : Fin 4}

/-- The divisor, from a word of memory or from the address. -/
def divisor (ir : Fin 4) (e : ℕ) : ℕ := if ir = 1 then e &&& rmask else e

/-- The quotient goes to memory, or to the accumulators with the remainder. -/
def divDone (s : Acs) (ac : ℕ) (ir : Fin 4) (ar mq : ℕ) : Acs × Option ℕ :=
  match ir with
  | 3 => ((s.set ac ar).set (ac + 1) mq, some ar)
  | 1 | 0 => ((s.set ac ar).set (ac + 1) mq, none)
  | 2 => (s, some ar)

/-- `case 0230` to `case 0233`. -/
def idiv (s : Acs) (ac : ℕ) (ir : Fin 4) (e : ℕ) : Acs × Option ℕ :=
  let ar := s.get ac
  let flag1 := divisor ir e &&& smask != 0
  let br := magnitude (divisor ir e)
  if br = 0 then (s.noDivide, none)
  else if ar = smask ∧ br = 1 then (s.noDivide, none)
  else
    let flag3 := ar &&& smask != 0
    let flag1 := flag1 ^^ flag3
    let ar := magnitude ar
    let mq := ar % br
    let ar := ar / br
    divDone s ac ir (if flag1 then minus ar else ar) (if flag3 then minus mq else mq)

/-- The divisor is taken away or added, by the last bit of the quotient and the sign of the divisor. -/
def divTry (br ar mq : ℕ) : ℕ :=
  if (br &&& smask != 0) ^^ (mq &&& 1 != 0) then ar + cm br + 1 else ar + br

/-- A turn of the loop of `DIV`, and the loop. -/
def divStep (br : ℕ) : ℕ × ℕ → ℕ × ℕ
  | (ar, mq) =>
    let ad := divTry br ar mq
    ((ad <<< 1 ||| if mq &&& smask ≠ 0 then 1 else 0) &&& fmask,
      (mq <<< 1 &&& fmask) ||| if ad &&& smask = 0 then 1 else 0)

def divLoop (br : ℕ) : ℕ → ℕ × ℕ → ℕ × ℕ
  | 0, p => p
  | sc + 1, p => divLoop br sc (divStep br p)

/-- After the loop: the last bit of the quotient, and the remainder with the divisor that it may still owe. -/
def divLast (br : ℕ) : ℕ × ℕ → ℕ × ℕ
  | (ar, mq) =>
    let ad := divTry br ar mq
    let ar := ad &&& fmask
    let mq := (mq <<< 1 &&& fmask) ||| if ad &&& smask = 0 then 1 else 0
    if ar &&& smask ≠ 0 then ((if br &&& smask ≠ 0 then ar + cm br + 1 else ar + br) &&& fmask, mq) else (ar, mq)

/-- A negative pair is made positive. -/
def divMagnitude (ar mq : ℕ) : ℕ × ℕ :=
  if ar &&& smask ≠ 0 then
    let mq := minus mq
    let ar := cm ar &&& fmask
    (if mq &&& cmask = 0 then (ar + 1) &&& fmask else ar, mq)
  else (ar, mq)

/-- `case 0234` to `case 0237`. -/
def div (s : Acs) (ac : ℕ) (ir : Fin 4) (e : ℕ) : Acs × Option ℕ :=
  let br := divisor ir e
  let flag1 := s.get ac &&& smask != 0
  let (ar, mq) := divMagnitude (s.get ac) (s.get (ac + 1))
  let ad := (if br &&& smask ≠ 0 then ar + br else ar + cm br + 1) &&& fmask
  let mq := (mq <<< 1 &&& fmask) ||| if ad &&& smask ≠ 0 then 1 else 0
  if ad &&& smask = 0 then (s.noDivide, none) else
    let (ar, mq) := divLast br (divLoop br 35 (ar, mq))
    let ar := if flag1 then minus ar else ar
    if flag1 ^^ (br &&& smask != 0) then divDone s ac ir (minus mq) ar else divDone s ac ir mq ar

/-! ### What a division is -/

/-- The quotient `q` and the remainder `r` of `n` by `m`; the remainder has the sign of `n`. -/
structure Divides (n m q r : ℤ) : Prop where
  eq : n = q * m + r
  lt : |r| < |m|
  sign : r = 0 ∨ (r < 0 ↔ n < 0)

/-- What `IDIV` has to do. -/
def Idiv (s : Acs) (ac : ℕ) (ir : Fin 4) (e : ℕ) (r : Acs × Option ℕ) : Prop :=
  if value (divisor ir e) = 0 ∨ value (s.get ac) = -2 ^ 35 ∧ |value (divisor ir e)| = 1 then r = (s.noDivide, none)
  else ∃ u v, r = divDone s ac ir u v ∧ u < 2 ^ 36 ∧ v < 2 ^ 36 ∧
    Divides (value (s.get ac)) (value (divisor ir e)) (value u) (value v)

/-- The number of the pair that `DIV` divides. -/
def dividend (s : Acs) (ac : ℕ) : ℤ := value2 (s.get ac) (s.get (ac + 1))

/-- What `DIV` has to do. -/
def Div (s : Acs) (ac : ℕ) (ir : Fin 4) (e : ℕ) (r : Acs × Option ℕ) : Prop :=
  if value (divisor ir e) = 0 ∨ |value (divisor ir e)| ≤ |dividend s ac| / 2 ^ 35 then r = (s.noDivide, none)
  else ∃ u v, r = divDone s ac ir u v ∧ u < 2 ^ 36 ∧ v < 2 ^ 36 ∧
    Divides (dividend s ac) (value (divisor ir e)) (value u) (value v)

/-! ### A turn of the loop -/

/-- A sum, masked. -/
lemma divTry_emod (hb : br < 2 ^ 36) (ar mq : ℕ) : (divTry br ar mq : ℤ) % 2 ^ 36
    = (if mq % 2 = 1 then (ar : ℤ) - magnitude br else ar + magnitude br) % 2 ^ 36 := by
  have hodd : (mq &&& 1 != 0) = decide (mq % 2 = 1) := by
    rw [Nat.and_one_is_mod]
    rcases Nat.mod_two_eq_zero_or_one mq with h | h <;> rw [h] <;> rfl
  have hcm := cm_eq hb
  rw [divTry, hodd]
  rcases Nat.lt_or_ge br (2 ^ 35) with hlt | hge
  · have hsign : (br &&& smask != 0) = false := by
      rw [bne_eq_false_iff_eq, ← not_not (a := br &&& smask = 0), ← ne_eq, and_smask_ne hb]
      omega
    rw [magnitude_of_lt hlt, hsign, Bool.false_xor]
    by_cases h1 : mq % 2 = 1
    · rw [if_pos (decide_eq_true h1), if_pos h1, hcm]
      lia
    · rw [if_neg (by simp [h1]), if_neg h1]
      lia
  · have hsign : (br &&& smask != 0) = true := bne_iff_ne.mpr ((and_smask_ne hb).mpr hge)
    rw [magnitude_of_ge hge hb, hsign, Bool.true_xor]
    by_cases h1 : mq % 2 = 1
    · rw [if_neg (by simp [h1]), if_pos h1]
      lia
    · rw [if_pos (by simp [h1]), if_neg h1, hcm]
      lia

/-- The sign of a sum that is small enough. -/
lemma and_smask_emod {t : ℤ} (h : (a : ℤ) % 2 ^ 36 = t % 2 ^ 36) (hlo : -2 ^ 35 ≤ t) (hhi : t < 2 ^ 35) :
    a &&& smask = 0 ↔ 0 ≤ t := by
  rw [← not_iff_not, ← ne_eq, and_smask]
  omega

lemma shl_or (a c : ℕ) (hc : c < 2) : (a <<< 1 ||| c) &&& fmask = (2 * a + c) % 2 ^ 36 := by
  rw [Word.shiftLeft_or_eq (by omega), and_fmask, pow_one, Nat.mul_comm]

lemma shl_mask_or (a c : ℕ) (hc : c < 2) : (a <<< 1 &&& fmask) ||| c = 2 * a % 2 ^ 36 + c := by
  have hdvd : 2 ^ 1 ∣ 2 * a % 2 ^ 36 := by omega
  rw [and_fmask, Nat.shiftLeft_eq, pow_one, Nat.mul_comm, Word.or_eq_add hdvd (by omega)]

/-- The registers after `k` turns, with `k` bits of the quotient in `q`: the rest of the low word is at the top of `MQ`,
with a one below it. -/
structure Dividing (d h l k : ℕ) (p : ℕ × ℕ) (q : ℕ) : Prop where
  quot : q < 2 ^ k
  mq : p.2 = l % 2 ^ (35 - k) * 2 ^ (k + 1) + 2 ^ k + q
  between : Between d (h * 2 ^ k + l / 2 ^ (35 - k) : ℕ) q
  ar : (p.1 : ℤ) % 2 ^ 36 = ((h * 2 ^ k + l / 2 ^ (35 - k) : ℕ) - 2 * q * d - if p.2 % 2 = 1 then 0 else 2 * d) % 2 ^ 36

variable {d h l q : ℕ} {p : ℕ × ℕ}

/-- The difference that the turn makes. -/
lemma Dividing.tried (hp : Dividing d h l k p q) (hb : br < 2 ^ 36) (hd : d = magnitude br) :
    (divTry br p.1 p.2 : ℤ) % 2 ^ 36 = trial d (h * 2 ^ k + l / 2 ^ (35 - k) : ℕ) q % 2 ^ 36 := by
  have har := hp.ar
  rw [divTry_emod hb, ← hd, trial]
  by_cases h1 : p.2 % 2 = 1
  · rw [if_pos h1] at har ⊢
    lia
  · rw [if_neg h1] at har ⊢
    lia

/-- The last bit that the difference gives. -/
lemma Dividing.bit_eq (hp : Dividing d h l k p q) (hb : br < 2 ^ 36) (hd : d = magnitude br) :
    ((if divTry br p.1 p.2 &&& smask = 0 then 1 else 0 : ℕ) : ℤ)
      = bit d (h * 2 ^ k + l / 2 ^ (35 - k) : ℕ) q := by
  obtain ⟨hlo, hhi⟩ := NonRestoring.trial_bounds hp.between
  have hle : d ≤ 2 ^ 35 := hd.trans_le (magnitude_le hb)
  have hsign := and_smask_emod (hp.tried hb hd) (by omega) (by omega)
  rw [bit]
  by_cases h0 : divTry br p.1 p.2 &&& smask = 0
  · rw [if_pos h0, if_pos (hsign.mp h0), Nat.cast_one]
  · rw [if_neg h0, if_neg (fun ht ↦ h0 (hsign.mpr ht)), Nat.cast_zero]

/-- The top of `MQ` is the next bit of the low word. -/
lemma Dividing.split (hp : Dividing d h l k p q) (hk : k < 35) :
    p.2 = l / 2 ^ (34 - k) % 2 * 2 ^ 35 + (l % 2 ^ (34 - k) * 2 ^ (k + 1) + 2 ^ k + q) ∧
      l % 2 ^ (34 - k) * 2 ^ (k + 1) + 2 ^ k + q < 2 ^ 35 := by
  have hquot := hp.quot
  have hm : 2 ^ (35 - k) = 2 ^ (34 - k) * 2 := by rw [← pow_succ, show 34 - k + 1 = 35 - k by lia]
  have hpow : 2 ^ (34 - k) * 2 ^ (k + 1) = 2 ^ 35 := by rw [← pow_add, show 34 - k + (k + 1) = 35 by omega]
  have hmod : l % 2 ^ (35 - k) = l % 2 ^ (34 - k) + 2 ^ (34 - k) * (l / 2 ^ (34 - k) % 2) := by
    rw [hm, Nat.mod_mul]
  have hlt : l % 2 ^ (34 - k) + 1 ≤ 2 ^ (34 - k) := Nat.mod_lt _ (Nat.two_pow_pos _)
  have hmul : (l % 2 ^ (34 - k) + 1) * 2 ^ (k + 1) ≤ 2 ^ 35 := hpow ▸ Nat.mul_le_mul_right _ hlt
  have hdouble : 2 ^ (k + 1) = 2 * 2 ^ k := pow_succ' 2 k
  constructor
  · rw [hp.mq, hmod, ← hpow]
    ring
  · rw [Nat.add_mul, Nat.one_mul] at hmul
    omega

/-- **A turn of the loop.** -/
lemma Dividing.step (hp : Dividing d h l k p q) (hk : k < 35) (hb : br < 2 ^ 36) (hd : d = magnitude br) :
    ∃ q', Dividing d h l (k + 1) (divStep br p) q' := by
  have hbit := hp.bit_eq hb hd
  have htry := hp.tried hb hd
  obtain ⟨hsplit, hrest⟩ := hp.split hk
  have hquot := hp.quot
  have hbetween := hp.between
  have hm : 2 ^ (35 - k) = 2 ^ (34 - k) * 2 := by rw [← pow_succ, show 34 - k + 1 = 35 - k by lia]
  have hdiv : l / 2 ^ (35 - k) = l / 2 ^ (34 - k) / 2 := by rw [hm, Nat.div_div_eq_div_mul]
  have hnext : h * 2 ^ (k + 1) + l / 2 ^ (34 - k)
      = 2 * (h * 2 ^ k + l / 2 ^ (35 - k)) + l / 2 ^ (34 - k) % 2 := by
    rw [hdiv, pow_succ, ← Nat.mul_assoc]
    lia
  have htop : (if p.2 &&& smask ≠ 0 then 1 else 0) = l / 2 ^ (34 - k) % 2 := by
    have hiff := and_smask p.2
    split_ifs with hset
    · have hone := hiff.mp hset
      lia
    · have hzero := fun hone ↦ hset (hiff.mpr hone)
      lia
  have hc : l / 2 ^ (34 - k) % 2 = 0 ∨ l / 2 ^ (34 - k) % 2 = 1 := Nat.mod_two_eq_zero_or_one _
  obtain ⟨ar, mq⟩ := p
  replace hsplit : mq = _ := hsplit
  replace htry : (divTry br ar mq : ℤ) % 2 ^ 36 = _ := htry
  rw [divStep, htop]
  generalize hv : (if divTry br ar mq &&& smask = 0 then 1 else 0 : ℕ) = v at hbit ⊢
  have hv2 : v < 2 := by
    rw [← hv]
    split <;> norm_num
  generalize l / 2 ^ (34 - k) % 2 = c at *
  have hmq : (mq <<< 1 &&& fmask) ||| v = l % 2 ^ (34 - k) * 2 ^ (k + 2) + 2 ^ (k + 1) + (2 * q + v) := by
    have hdouble : l % 2 ^ (34 - k) * 2 ^ (k + 2) = 2 * (l % 2 ^ (34 - k) * 2 ^ (k + 1)) := by ring
    rw [shl_mask_or mq v hv2, hsplit, hdouble]
    generalize l % 2 ^ (34 - k) * 2 ^ (k + 1) = r at hrest ⊢
    rw [pow_succ' 2 k]
    lia
  have hpar : ((mq <<< 1 &&& fmask) ||| v) % 2 = 1 ↔ v = 1 := by
    rw [shl_mask_or mq v hv2]
    lia
  refine ⟨2 * q + v, ?_, ?_, ?_, ?_⟩
  · rw [pow_succ]
    lia
  · rw [show 35 - (k + 1) = 34 - k by lia]
    exact hmq
  · have hstep := NonRestoring.step (b := c) (by lia) hbetween
    rw [← hbit] at hstep
    rw [show 35 - (k + 1) = 34 - k by lia, hnext]
    push_cast at hstep ⊢
    exact hstep
  · have hreg := NonRestoring.register d (h * 2 ^ k + l / 2 ^ (35 - k) : ℕ) q c
    rw [← hbit] at hreg
    dsimp only
    rw [show 35 - (k + 1) = 34 - k by lia, hnext, if_congr hpar rfl rfl, shl_or _ c (by lia)]
    have hite : (if (v : ℤ) = 1 then 0 else 2 * d : ℤ) = (if v = 1 then 0 else 2 * d : ℤ) :=
      if_congr Nat.cast_eq_one rfl rfl
    rw [hite] at hreg
    push_cast at hreg htry ⊢
    rw [← hreg]
    lia

/-- **The loop.** -/
lemma Dividing.loop (hb : br < 2 ^ 36) (hd : d = magnitude br) (n : ℕ) (hp : Dividing d h l k p q) (hk : k + n = 35) :
    ∃ q', Dividing d h l 35 (divLoop br n p) q' := by
  induction n generalizing k p q with
  | zero =>
    obtain rfl : k = 35 := hk
    exact ⟨q, hp⟩
  | succ n ih =>
    obtain ⟨q', hq'⟩ := hp.step (by omega) hb hd
    exact ih hq' (by omega)

/-- The divisor is given back. -/
lemma divTry_back (br ar : ℕ) : (if br &&& smask ≠ 0 then ar + cm br + 1 else ar + br) = divTry br ar 0 := by
  rw [divTry]
  by_cases hs : br &&& smask = 0 <;> simp [hs, bne]

/-- **The quotient and the remainder of the magnitudes.** -/
lemma Dividing.last (hp : Dividing d h l 35 p q) (hb : br < 2 ^ 36) (hd : d = magnitude br) :
    ∃ r u, divLast br p = (r, u) ∧ h * 2 ^ 35 + l = u * d + r ∧ r < d := by
  have hbit := hp.bit_eq hb hd
  have htry := hp.tried hb hd
  have hquot := hp.quot
  have hle : d ≤ 2 ^ 35 := hd.trans_le (magnitude_le hb)
  obtain ⟨heq, hr0, hrd⟩ := NonRestoring.last hp.between
  obtain ⟨hlo, hhi⟩ := NonRestoring.trial_bounds hp.between
  have hmq := hp.mq
  rw [Nat.sub_self, pow_zero, Nat.mod_one, Nat.zero_mul, Nat.zero_add] at hmq
  rw [Nat.sub_self, pow_zero, Nat.div_one] at hbit htry heq hr0 hrd hlo hhi
  obtain ⟨ar, mq⟩ := p
  replace hmq : mq = 2 ^ 35 + q := hmq
  replace htry : (divTry br ar mq : ℤ) % 2 ^ 36 = _ := htry
  replace hbit : ((if divTry br ar mq &&& smask = 0 then 1 else 0 : ℕ) : ℤ) = _ := hbit
  rw [divLast]
  generalize hv : (if divTry br ar mq &&& smask = 0 then 1 else 0 : ℕ) = v at hbit ⊢
  have hv2 : v < 2 := by
    rw [← hv]
    split <;> norm_num
  have hu : (mq <<< 1 &&& fmask) ||| v = 2 * q + v := by
    rw [shl_mask_or mq v hv2]
    lia
  rw [← hbit] at heq
  have hmask : ((divTry br ar mq &&& fmask : ℕ) : ℤ) = trial d (h * 2 ^ 35 + l : ℕ) q % 2 ^ 36 := by
    rw [and_fmask, ← htry]
    push_cast
    rfl
  have hsign := and_smask_emod (a := divTry br ar mq &&& fmask) (t := trial d (h * 2 ^ 35 + l : ℕ) q)
    (by rw [hmask, Int.emod_emod_of_dvd _ dvd_rfl]) (by lia) (by lia)
  generalize trial d (h * 2 ^ 35 + l : ℕ) q = t at *
  by_cases ht : 0 ≤ t
  · rw [if_neg (not_not.mpr (hsign.mpr ht)), hu]
    rw [if_pos ht] at heq hr0 hrd
    refine ⟨_, _, rfl, ?_, ?_⟩
    · zify
      rw [hmask]
      push_cast at heq ⊢
      lia
    · lia
  · rw [if_pos (fun h0 ↦ ht (hsign.mp h0)), hu, divTry_back]
    rw [if_neg ht] at heq hr0 hrd
    have hback := divTry_emod hb (divTry br ar mq &&& fmask) 0
    rw [if_neg (by norm_num), hmask, ← hd] at hback
    have hres : ((divTry br (divTry br ar mq &&& fmask) 0 &&& fmask : ℕ) : ℤ) = t + d := by
      rw [and_fmask]
      push_cast
      lia
    refine ⟨_, _, rfl, ?_, ?_⟩
    · zify
      rw [hres]
      push_cast at heq ⊢
      lia
    · lia

/-! ### Signs -/

/-- Quotient and remainder of the magnitudes get the signs. -/
lemma divides_signed {n m : ℤ} {a d q r : ℕ} (fn fm : Bool) (hn : n = if fn then -(a : ℤ) else a)
    (hm : m = if fm then -(d : ℤ) else d) (h : a = q * d + r) (hr : r < d) :
    Divides n m (if fn ^^ fm then -(q : ℤ) else q) (if fn then -(r : ℤ) else r) := by
  have hz : (a : ℤ) = q * d + r := by exact_mod_cast h
  have hrz : (r : ℤ) < d := by exact_mod_cast hr
  subst hn hm
  refine ⟨?_, ?_, ?_⟩
  · cases fn <;> cases fm <;> simp [hz] <;> ring
  · cases fn <;> cases fm <;> simpa using hrz
  · cases fn with
    | false =>
      refine .inr (iff_of_false ?_ ?_)
      · exact not_lt.mpr (Int.natCast_nonneg r)
      · exact not_lt.mpr (Int.natCast_nonneg a)
    | true =>
      have hra : r ≤ a := h ▸ Nat.le_add_left r (q * d)
      rw [if_pos rfl, if_pos rfl]
      omega

lemma value_flag (hx : x < 2 ^ 36) :
    value x = if (x &&& smask != 0) = true then -(magnitude x : ℤ) else magnitude x := by
  rw [value_magnitude hx]
  exact if_congr bne_iff_ne.symm rfl rfl

/-- A number that gets a sign. -/
lemma value_minus (hq : q < 2 ^ 35) (f : Bool) :
    (if f then minus q else q) < 2 ^ 36 ∧ value (if f then minus q else q) = if f then -(q : ℤ) else q := by
  cases f with
  | false => exact ⟨hq.trans (by norm_num), value_of_lt hq⟩
  | true =>
    rw [if_pos rfl, if_pos rfl, minus_eq (by omega), value]
    split <;> omega

lemma divisor_lt (he : e < 2 ^ 36) (ir : Fin 4) : divisor ir e < 2 ^ 36 := by
  rw [divisor]
  split
  · exact Nat.and_lt_two_pow _ (by norm_num)
  · exact he

lemma abs_value (hx : x < 2 ^ 36) : |value x| = magnitude x := by
  rw [value_magnitude hx]
  split
  · rw [abs_neg, Nat.abs_cast]
  · rw [Nat.abs_cast]

lemma value_eq_zero (hx : x < 2 ^ 36) : value x = 0 ↔ magnitude x = 0 := by
  rw [← abs_eq_zero, abs_value hx, Nat.cast_eq_zero]

lemma value_eq_low_iff (hx : x < 2 ^ 36) : value x = -2 ^ 35 ↔ x = smask := by
  rw [value, show smask = 2 ^ 35 from rfl]
  split <;> omega

/-! ### IDIV -/

/-- **`IDIV` is right.** -/
lemma idiv_right (h : s.Words) (ac : ℕ) (ir : Fin 4) (he : e < 2 ^ 36) : Idiv s ac ir e (idiv s ac ir e) := by
  have hx := h ac
  have hd := divisor_lt he ir
  have hle := magnitude_le hd
  have hcond : value (divisor ir e) = 0 ∨ value (s.get ac) = -2 ^ 35 ∧ |value (divisor ir e)| = 1 ↔
      magnitude (divisor ir e) = 0 ∨ s.get ac = smask ∧ magnitude (divisor ir e) = 1 := by
    rw [value_eq_zero hd, value_eq_low_iff hx, abs_value hd, Nat.cast_eq_one]
  rw [Idiv, if_congr hcond rfl rfl, idiv]
  dsimp only
  by_cases h0 : magnitude (divisor ir e) = 0
  · rw [if_pos (.inl h0), if_pos h0]
  by_cases h1 : s.get ac = smask ∧ magnitude (divisor ir e) = 1
  · rw [if_pos (.inr h1), if_neg h0, if_pos h1]
  rw [if_neg (not_or.mpr ⟨h0, h1⟩), if_neg h0, if_neg h1]
  have hpos : 0 < magnitude (divisor ir e) := Nat.pos_of_ne_zero h0
  have hmod : magnitude (s.get ac) % magnitude (divisor ir e) < magnitude (divisor ir e) := Nat.mod_lt _ hpos
  have hquot : magnitude (s.get ac) / magnitude (divisor ir e) < 2 ^ 35 := by
    have ha := magnitude_le hx
    rcases Nat.lt_or_ge (magnitude (divisor ir e)) 2 with hlt | hge
    · have hone : magnitude (divisor ir e) = 1 := by omega
      rw [hone, Nat.div_one]
      refine ha.lt_of_ne fun heq ↦ h1 ⟨(value_eq_low_iff hx).mp (magnitude_eq_pow hx heq), hone⟩
    · have hhalf : magnitude (s.get ac) / magnitude (divisor ir e) ≤ magnitude (s.get ac) / 2 :=
        Nat.div_le_div_left hge (by norm_num)
      lia
  have hval := divides_signed _ _ (value_flag hx) (value_flag hd)
    (Nat.div_add_mod' (magnitude (s.get ac)) (magnitude (divisor ir e))).symm hmod
  obtain ⟨hu, hq⟩ := value_minus hquot ((divisor ir e &&& smask != 0) ^^ (s.get ac &&& smask != 0))
  obtain ⟨hv, hr⟩ := value_minus (hmod.trans_le hle) (s.get ac &&& smask != 0)
  refine ⟨_, _, rfl, hu, hv, ?_⟩
  rw [hq, hr, Bool.xor_comm]
  exact hval

/-! ### DIV -/

/-- The magnitude of a pair. -/
lemma divMagnitude_eq (hx : x < 2 ^ 36) (hy : y < 2 ^ 36) :
    ∃ a m, divMagnitude x y = (a, m) ∧ a ≤ 2 ^ 35 ∧ value2 x y
      = if (x &&& smask != 0) = true then -((a * 2 ^ 35 + m % 2 ^ 35 : ℕ) : ℤ) else (a * 2 ^ 35 + m % 2 ^ 35 : ℕ) := by
  rcases Nat.lt_or_ge x (2 ^ 35) with hlt | hge
  · have hclear : ¬ x &&& smask ≠ 0 := by
      rw [and_smask_ne hx]
      omega
    refine ⟨x, y, by rw [divMagnitude, if_neg hclear], hlt.le, ?_⟩
    rw [if_neg (by simpa using hclear), value2, value_of_lt hlt]
    push_cast
    rfl
  · have hset : x &&& smask ≠ 0 := (and_smask_ne hx).mpr hge
    have hcm : cm x &&& fmask = 2 ^ 36 - 1 - x := by
      rw [cm_eq hx, and_fmask]
      omega
    refine ⟨_, _, by rw [divMagnitude, if_pos hset], ?_, ?_⟩
    · rw [hcm, and_fmask]
      split <;> lia
    · rw [if_pos (bne_iff_ne.mpr hset), value2, value_of_ge hge, hcm, and_fmask, and_cmask, minus_eq hy]
      split <;> lia

/-- The first try decides if there is a quotient. -/
lemma first_try (hb : br < 2 ^ 36) (ha : a ≤ 2 ^ 35) (hne : ¬ (a = 2 ^ 35 ∧ magnitude br = 0)) :
    (if br &&& smask ≠ 0 then a + br else a + cm br + 1) &&& fmask &&& smask = 0 ↔ magnitude br ≤ a := by
  have htry : (if br &&& smask ≠ 0 then a + br else a + cm br + 1) = divTry br a 1 := by
    rw [divTry]
    by_cases hs : br &&& smask = 0 <;> simp [hs, bne]
  have hmod := divTry_emod hb a 1
  rw [if_pos rfl] at hmod
  have hle := magnitude_le hb
  have hmask : ((divTry br a 1 &&& fmask : ℕ) : ℤ) % 2 ^ 36 = ((a : ℤ) - magnitude br) % 2 ^ 36 := by
    rw [← hmod, and_fmask]
    lia
  rw [htry, and_smask_emod hmask (by lia) (by lia)]
  omega

/-- The registers before the first turn. -/
lemma Dividing.start (m : ℕ) (h : a < d) :
    Dividing d a (m % 2 ^ 35) 0 (a, (m <<< 1 &&& fmask) ||| 1) 0 := by
  have hmq : (m <<< 1 &&& fmask) ||| 1 = m % 2 ^ 35 * 2 + 1 := by
    rw [shl_mask_or m 1 (by norm_num)]
    lia
  have hhi : a * 2 ^ 0 + m % 2 ^ 35 / 2 ^ (35 - 0) = a := by
    have hlow : m % 2 ^ 35 / 2 ^ 35 = 0 := Nat.div_eq_of_lt (Nat.mod_lt _ (by positivity))
    rw [Nat.sub_zero, hlow, pow_zero, Nat.mul_one, Nat.add_zero]
  refine ⟨by norm_num, ?_, ?_, ?_⟩
  · dsimp only
    rw [hmq, Nat.sub_zero, Nat.mod_mod]
    lia
  · rw [hhi]
    exact NonRestoring.start (Int.natCast_nonneg a) (by exact_mod_cast h)
  · have hodd : (m % 2 ^ 35 * 2 + 1) % 2 = 1 := by omega
    rw [hhi]
    dsimp only
    rw [hmq, if_pos hodd, Nat.cast_zero, mul_zero, zero_mul, sub_zero]
    simp

lemma value2_bounds (hx : x < 2 ^ 36) (y : ℕ) : -2 ^ 70 ≤ value2 x y ∧ value2 x y < 2 ^ 70 := by
  have hlow : y % 2 ^ 35 < 2 ^ 35 := Nat.mod_lt _ (by positivity)
  rw [value2, value]
  split <;> omega

/-- The lowest dividend by zero goes through the loop. -/
lemma div_lowest (hx : s.get ac = smask) (hy : s.get (ac + 1) % 2 ^ 35 = 0) (hlt : s.get (ac + 1) < 2 ^ 36)
    (hb : divisor ir e = 0) : div s ac ir e = divDone s ac ir (2 ^ 35 + 1) 0 := by
  have hmag : divMagnitude smask (s.get (ac + 1)) = (smask, minus (s.get (ac + 1))) := by
    have hclear : minus (s.get (ac + 1)) &&& cmask = 0 := by
      rw [and_cmask, minus_eq hlt]
      omega
    rw [divMagnitude, if_pos (by decide)]
    dsimp only
    rw [if_pos hclear]
    rfl
  have hmq : (minus (s.get (ac + 1)) <<< 1 &&& fmask) ||| 1 = 1 := by
    rw [shl_mask_or _ 1 (by norm_num), minus_eq hlt]
    omega
  have hloop : divLast 0 (divLoop 0 35 (smask, 1)) = (0, 2 ^ 35 - 1) := by decide
  have hset : ((if 0 &&& smask ≠ 0 then smask + 0 else smask + cm 0 + 1) &&& fmask) &&& smask ≠ 0 := by decide
  rw [div, hx, hmag, hb]
  dsimp only
  rw [if_neg hset, if_pos hset, hmq, hloop]
  rfl

/-- A quotient that is not in the accumulator yet leaves a trace. -/
lemma divDone_ne {u v : ℕ} (hu : u ≠ s.get ac) : divDone s ac ir u v ≠ (s.noDivide, none) := by
  intro h
  have hget : ((s.set ac u).set (ac + 1) v).get ac ≠ s.noDivide.get ac := by
    rw [Acs.get_set_pred, Acs.get_set_self]
    exact hu
  fin_cases ir
  · exact hget (congrArg (fun r ↦ r.1.get ac) h)
  · exact hget (congrArg (fun r ↦ r.1.get ac) h)
  · cases congrArg Prod.snd h
  · cases congrArg Prod.snd h

/-- **When `DIV` is right.** -/
lemma div_iff (h : s.Words) (ac : ℕ) (ir : Fin 4) (he : e < 2 ^ 36) :
    Div s ac ir e (div s ac ir e) ↔ ¬ (dividend s ac = -2 ^ 70 ∧ value (divisor ir e) = 0) := by
  have hx := h ac
  have hy := h (ac + 1)
  have hb := divisor_lt he ir
  obtain ⟨hlo, hhi⟩ := value2_bounds hx (s.get (ac + 1))
  obtain ⟨a, m, hmag, ha, hval⟩ := divMagnitude_eq hx hy
  have habs : |dividend s ac| / 2 ^ 35 = a := by
    rw [dividend, hval]
    split
    · rw [abs_neg, Nat.abs_cast]
      lia
    · rw [Nat.abs_cast]
      lia
  have hcond : value (divisor ir e) = 0 ∨ |value (divisor ir e)| ≤ |dividend s ac| / 2 ^ 35 ↔
      magnitude (divisor ir e) ≤ a := by
    rw [value_eq_zero hb, abs_value hb, habs]
    lia
  have hbad : dividend s ac = -2 ^ 70 ∧ value (divisor ir e) = 0 ↔ a = 2 ^ 35 ∧ magnitude (divisor ir e) = 0 := by
    rw [value_eq_zero hb, dividend]
    refine and_congr_left fun _ ↦ ?_
    revert hval
    split
    · intro hval
      lia
    · intro hval
      lia
  rw [Div, if_congr hcond rfl rfl]
  by_cases hlow : a = 2 ^ 35 ∧ magnitude (divisor ir e) = 0
  · refine iff_of_false (fun hdiv ↦ ?_) (not_not.mpr (hbad.mpr hlow))
    obtain ⟨hd, hz⟩ := hbad.mpr hlow
    rw [if_pos (by lia)] at hdiv
    have hzero : divisor ir e = 0 := by
      rw [value] at hz
      split at hz <;> lia
    rw [dividend, value2] at hd
    have hlow' : (s.get (ac + 1) % 2 ^ 35 : ℕ) < 2 ^ 35 := Nat.mod_lt _ (by positivity)
    have hsm : s.get ac = smask := (value_eq_low_iff hx).mp (by lia)
    have hval' := (value_eq_low_iff hx).mpr hsm
    rw [div_lowest hsm (by lia) hy hzero] at hdiv
    exact divDone_ne (by rw [hsm]; norm_num) hdiv
  · refine iff_of_true ?_ (fun hd ↦ hlow (hbad.mp hd))
    have htry := first_try hb ha hlow
    rw [div, hmag]
    dsimp only
    by_cases hle : magnitude (divisor ir e) ≤ a
    · rw [if_pos hle, if_pos (htry.mpr hle)]
    have hset : ((if divisor ir e &&& smask ≠ 0 then a + divisor ir e else a + cm (divisor ir e) + 1) &&& fmask)
        &&& smask ≠ 0 := fun h0 ↦ hle (htry.mp h0)
    obtain ⟨q, hloop⟩ := (Dividing.start m (not_le.mp hle)).loop hb rfl 35 rfl
    obtain ⟨r, u, hlast, heq, hr⟩ := hloop.last hb rfl
    rw [if_neg hle, if_neg hset, if_pos hset, hlast]
    dsimp only
    have hu : u < 2 ^ 35 := by
      by_contra hge
      have hmul : 2 ^ 35 * magnitude (divisor ir e) ≤ u * magnitude (divisor ir e) :=
        Nat.mul_le_mul_right _ (Nat.not_lt.mp hge)
      lia
    have hdiv := divides_signed _ _ hval (value_flag hb) heq hr
    obtain ⟨hv36, hv⟩ := value_minus (hr.trans_le (magnitude_le hb)) (s.get ac &&& smask != 0)
    obtain ⟨hu36, huv⟩ := value_minus hu ((s.get ac &&& smask != 0) ^^ (divisor ir e &&& smask != 0))
    rw [← huv, ← hv] at hdiv
    refine ⟨_, _, ?_, hu36, hv36, hdiv⟩
    split <;> rfl

/-- **`IDIV` always divides, and `DIV` unless the lowest dividend is divided by zero.** There the first try of `DIV` does
not see that there is no quotient. -/
theorem quotients_delivered (h : s.Words) (ac : ℕ) (ir : Fin 4) (he : e < 2 ^ 36) :
    Idiv s ac ir e (idiv s ac ir e) ∧
    (Div s ac ir e (div s ac ir e) ↔ ¬ (dividend s ac = -2 ^ 70 ∧ value (divisor ir e) = 0)) :=
  ⟨idiv_right h ac ir he, div_iff h ac ir he⟩

/-- The pair with the lowest number. -/
def lowest : Acs := ⟨fun i ↦ if i = 0 then 2 ^ 35 else 0, false, false, false, false, false⟩

lemma lowest_words : lowest.Words := fun ac ↦ by
  rw [Acs.get, lowest]
  dsimp only
  split <;> norm_num

theorem lowest_by_itself : Div lowest 0 0 (2 ^ 35) (div lowest 0 0 (2 ^ 35)) :=
  (quotients_delivered lowest_words 0 0 (by norm_num)).2.mpr fun h ↦ absurd h.2 (by decide)

/-- The lowest number by zero gives a quotient. -/
theorem lowest_by_zero : ¬ Div lowest 0 0 0 (div lowest 0 0 0) := by
  intro h
  have hzero : value (divisor 0 0) = 0 := by decide
  rw [Div, if_pos (.inl hzero)] at h
  have hget : (div lowest 0 0 0).1.get 0 ≠ lowest.noDivide.get 0 := by decide
  exact hget (congrArg (fun r ↦ r.1.get 0) h)

end Ka10Simh.Pdp10.Arith
