import Ka10Simh.Lib.Bits
import Ka10Simh.Lib.Slots
import Ka10Simh.Pdp10.Config
import Ka10Simh.Pdp10.Word

/-!
Byte pointers: IBP and ADJBP of `sim_instr`.

A pointer has the position of a byte, the bits to its right, its size, and the address of its word. On
the extended KL10 one position above 36 stands for a position and a size, by the table `_byte_adj`, and
leaves 30 bits for the address; a pointer with `BIT12` has its address in a second word, in sections
other than zero.

* `BytePtr.ibp`, `BytePtr.adjbp`: the two instructions.
* `BytePtr.place`: a pointer with another byte, and with its address moved.
* `BytePtr.ibp_eq`, `BytePtr.adjbp_eq`: what the two do, in these terms.
-/

namespace Ka10Simh.Pdp10

open Word Slots

/-- `_byte_adj`: the position and the size for each code from 37 on. -/
def byteAdj : List (ℕ × ℕ) :=
  [(36, 6), (30, 6), (24, 6), (18, 6), (12, 6), (6, 6), (0, 6),
    (36, 8), (28, 8), (20, 8), (12, 8), (4, 8),
    (36, 7), (29, 7), (22, 7), (15, 7), (8, 7), (1, 7),
    (36, 9), (27, 9), (18, 9), (9, 9), (0, 9),
    (36, 18), (18, 18), (0, 18)]

/-- The loop that searches the table, which has a bound of 28. -/
def searchAdj (pos : ℤ) (size : ℕ) : Option ℕ :=
  (List.range 28).find? fun f => byteAdj[f]?.any fun e => (e.1 : ℤ) == pos && e.2 == size

/-- The two words of a pointer, of which the second may not belong to it. -/
structure BytePtr where
  first : ℕ
  second : ℕ
  deriving DecidableEq

/-- What an instruction knows: the processor, `t20_page`, and that `pc_sect` is not zero. -/
structure ByteMode where
  cfg : Config
  t20Page : Bool := false
  far : Bool := false

/-- `QKLB && t20_page`. -/
def ByteMode.klb (x : ByteMode) : Bool := x.cfg.build == .kl && x.cfg.klb && x.t20Page

/-- `(v + n) & (W - 1)`. -/
def addMod (W v : ℕ) (n : ℤ) : ℕ := ((v + n) % W).toNat

namespace BytePtr

/-! ### The source -/

/-- The fields of the first word. -/
def p (b : BytePtr) : ℕ := b.first >>> 30 &&& 0o77
def s (b : BytePtr) : ℕ := b.first >>> 24 &&& 0o77

/-- `(pos + (0777 ^ size) + 1) & 0777`, and the test for a sign in it. -/
def stepP (pos size : ℕ) : ℕ := (pos + (0o777 ^^^ size) + 1) &&& 0o777
def wraps (scad : ℕ) : Bool := scad &&& 0o400 != 0

/-- A word with its position replaced. -/
def setP (w scad : ℕ) : ℕ := (w &&& pmask) ||| (scad &&& 0o77) <<< 30

/-- A pointer of two words. -/
def isFull (x : ByteMode) (b : BytePtr) : Bool := x.klb && x.far && b.first &&& bit12 != 0

/-- The step of IBP, ILDB and IDPB. -/
def ibp (x : ByteMode) (b : BytePtr) : Option BytePtr :=
  if x.klb ∧ b.p > 36 then
    match byteAdj[b.p - 37]? with
    | none => none
    | some (pos, sc) =>
        let scad := stepP pos sc
        if wraps scad then
          let scad := stepP 0o44 sc
          let f := (searchAdj scad sc).getD 28
          some { b with first := ((b.first + 1) &&& (sectm ||| rmask)) ||| (f + 37) <<< 30 }
        else some { b with first := (b.first &&& (sectm ||| rmask)) ||| (b.p - 37 + 1 + 37) <<< 30 }
  else
    let scad := stepP b.p b.s
    if wraps scad then
      let scad := stepP 0o44 b.s
      if b.isFull x then
        let mb := b.second
        if mb &&& smask ≠ 0 then
          if mb &&& bit1 ≠ 0 then none
          else some ⟨setP b.first scad, ((mb + 1) &&& rmask) ||| (mb &&& lmask)⟩
        else
          some ⟨setP b.first scad, ((mb + 1) &&& (sectm ||| rmask)) ||| bic mb (sectm ||| rmask)⟩
      else if x.cfg.kiOrLater then
        some { b with first := setP ((b.first &&& lmask) ||| ((b.first + 1) &&& rmask)) scad }
      else some { b with first := setP ((b.first + 1) &&& fmask) scad }
    else some { b with first := setP b.first scad }

/-- The count of ADJBP. -/
def adjCount (br : ℕ) : ℤ :=
  if br &&& rsign ≠ 0 then -((((fmask ^^^ br) + 1) &&& rmask : ℕ) : ℤ) else (br &&& rmask : ℕ)

/-- The words to move and the new position, unless no byte is in a word. -/
def adjust (br fe sc : ℕ) : Option (ℤ × ℤ) :=
  let left := (36 - fe : ℤ).tdiv sc
  let bpw := left + (fe / sc : ℕ)
  if bpw = 0 then none
  else
    let newb := adjCount br + left
    let adjw := newb.tdiv bpw
    let adjb := if newb ≥ 0 then newb.tmod bpw else -((-newb).tmod bpw)
    let (adjw, adjb) := if adjb ≤ 0 then (adjw - 1, adjb + bpw) else (adjw, adjb)
    some (adjw, 36 - adjb * sc - (36 - fe : ℤ).tmod sc)

/-- ADJBP, which leaves the pointer in the accumulators. -/
def adjbp (x : ByteMode) (br : ℕ) (b : BytePtr) : Option BytePtr :=
  if x.klb ∧ b.p > 36 then
    match byteAdj[b.p - 37]? with
    | none => none
    | some (fe, sc) =>
        (adjust br fe sc).map fun (adjw, fe) =>
          let fe := match searchAdj fe sc with
            | some f => (f + 37 : ℤ)
            | none => fe
          { b with first := (fe % 64).toNat <<< 30 ||| addMod (2 ^ 30) b.first adjw }
  else if b.s = 0 then some b
  else
    match adjust br b.p b.s with
    | none => none
    | some (adjw, fe) =>
        if b.isFull x then
          let mb := b.second
          let first := (fe % 64).toNat <<< 30 ||| (b.first &&& pmask)
          if mb &&& smask ≠ 0 then
            if mb &&& bit1 ≠ 0 then none
            else some ⟨first, addMod (2 ^ 18) mb adjw ||| (mb &&& lmask)⟩
          else some ⟨first, addMod (2 ^ 30) mb adjw ||| bic mb (sectm ||| rmask)⟩
        else
          some { b with
            first := (fe % 64).toNat <<< 30 ||| (b.first &&& (pmask &&& lmask))
              ||| addMod (2 ^ 18) b.first adjw }

end BytePtr

/-! ### Addresses -/

lemma addMod_lt {W : ℕ} (hW : 0 < W) (v : ℕ) (n : ℤ) : addMod W v n < W := by
  have hnonneg := Int.emod_nonneg (v + n) (by omega : (W : ℤ) ≠ 0)
  have hlt := Int.emod_lt_of_pos (v + n) (by omega : (0 : ℤ) < W)
  rw [addMod]
  omega

lemma addMod_zero (W v : ℕ) : addMod W v 0 = v % W := by
  rw [addMod]
  norm_cast

lemma addMod_one (W v : ℕ) : addMod W v 1 = (v + 1) % W := by
  rw [addMod]
  norm_cast

/-- A word with the address in its low part moved. -/
def moveAddr (W v : ℕ) (n : ℤ) : ℕ := v / W * W + addMod W v n

lemma moveAddr_zero (W v : ℕ) : moveAddr W v 0 = v := by
  rw [moveAddr, addMod_zero, Nat.mul_comm, Nat.div_add_mod]

lemma moveAddr_div {W : ℕ} (hW : 0 < W) (v : ℕ) (n : ℤ) : moveAddr W v n / W = v / W := by
  rw [moveAddr, Nat.mul_comm, Nat.mul_add_div hW, Nat.div_eq_of_lt (addMod_lt hW v n), Nat.add_zero]

lemma moveAddr_mod {W : ℕ} (hW : 0 < W) (v : ℕ) (n : ℤ) : moveAddr W v n % W = addMod W v n := by
  rw [moveAddr, Nat.mul_comm, Nat.mul_add_mod, Nat.mod_eq_of_lt (addMod_lt hW v n)]

/-- The low part alone decides where it is moved. -/
lemma addMod_congr {W v v' : ℕ} (h : v % W = v' % W) (n : ℤ) : addMod W v n = addMod W v' n := by
  have hcast : (v : ℤ) % W = v' % W := by exact_mod_cast h
  rw [addMod, addMod, Int.add_emod, hcast, ← Int.add_emod]

lemma addMod_addMod {W : ℕ} (hW : 0 < W) (v : ℕ) (m n : ℤ) :
    addMod W (addMod W v m) n = addMod W v (m + n) := by
  have hnonneg := Int.emod_nonneg (v + m) (by omega : (W : ℤ) ≠ 0)
  rw [addMod, addMod, addMod, Int.toNat_of_nonneg hnonneg, Int.emod_add_emod, add_assoc]

lemma moveAddr_moveAddr {W : ℕ} (hW : 0 < W) (v : ℕ) (m n : ℤ) :
    moveAddr W (moveAddr W v m) n = moveAddr W v (m + n) := by
  have hlow : moveAddr W v m % W = addMod W v m % W := by
    rw [moveAddr_mod hW, Nat.mod_eq_of_lt (addMod_lt hW v m)]
  rw [moveAddr, moveAddr_div hW, addMod_congr hlow, addMod_addMod hW, moveAddr]

/-- Two moves are the same when they are, round the addresses. -/
lemma addMod_inj {W : ℕ} (hW : 0 < W) (v : ℕ) (m n : ℤ) :
    addMod W v m = addMod W v n ↔ (W : ℤ) ∣ m - n := by
  have hm := Int.emod_nonneg (v + m) (by omega : (W : ℤ) ≠ 0)
  have hn := Int.emod_nonneg (v + n) (by omega : (W : ℤ) ≠ 0)
  have htoNat : addMod W v m = addMod W v n ↔ (v + m : ℤ) % W = (v + n) % W := by
    rw [addMod, addMod]
    lia
  rw [htoNat, Int.emod_eq_emod_iff_emod_sub_eq_zero, ← Int.dvd_iff_emod_eq_zero,
    add_sub_add_left_eq_sub]

lemma moveAddr_inj {W : ℕ} (hW : 0 < W) (v : ℕ) (m n : ℤ) :
    moveAddr W v m = moveAddr W v n ↔ (W : ℤ) ∣ m - n := by
  rw [← addMod_inj hW v, moveAddr, moveAddr, Nat.add_left_cancel_iff]

namespace BytePtr

variable {x : ByteMode} {b : BytePtr}

/-! ### Fields -/

lemma p_eq (b : BytePtr) : b.p = b.first / 2 ^ 30 % 64 := by
  rw [p, Nat.shiftRight_eq_div_pow]
  exact Nat.and_two_pow_sub_one_eq_mod _ 6

lemma s_eq (b : BytePtr) : b.s = b.first / 2 ^ 24 % 64 := by
  rw [s, Nat.shiftRight_eq_div_pow]
  exact Nat.and_two_pow_sub_one_eq_mod _ 6

lemma stepP_eq {pos size : ℕ} (hsize : size ≤ 36) : stepP pos size = (pos + 512 - size) % 512 := by
  have hxor : 0o777 ^^^ size = 2 ^ 9 - 1 - size := mask_xor (n := 9) (by omega)
  rw [stepP, hxor]
  refine (Nat.and_two_pow_sub_one_eq_mod _ 9).trans ?_
  lia

lemma wraps_stepP {pos size : ℕ} (hpos : pos ≤ 36) (hsize : size ≤ 36) :
    wraps (stepP pos size) = true ↔ pos < size := by
  rw [wraps, bne_iff_ne, show (0o400 : ℕ) = 2 ^ 8 from rfl, and_pow_ne_zero, stepP_eq hsize]
  omega

lemma setP_eq (w : ℕ) {scad : ℕ} (h : scad < 64) : setP w scad = scad * 2 ^ 30 + w % 2 ^ 30 := by
  have hlow : scad &&& 0o77 = scad :=
    (Nat.and_two_pow_sub_one_eq_mod scad 6).trans (Nat.mod_eq_of_lt h)
  rw [setP, and_pmask, hlow, Nat.or_comm, shiftLeft_or_eq (Nat.mod_lt _ (by norm_num))]

/-! ### The bytes of a pointer -/

/-- A pointer of one word to any section. -/
def Short (x : ByteMode) (b : BytePtr) : Prop := x.klb ∧ b.p > 36

instance : Decidable (Short x b) := inferInstanceAs (Decidable (_ ∧ _))

/-- The position and the size it stands for. -/
def unit (x : ByteMode) (b : BytePtr) : ℕ × ℕ :=
  if Short x b then byteAdj[b.p - 37]?.getD (0, 0) else (b.p, b.s)

def pos (x : ByteMode) (b : BytePtr) : ℕ := (b.unit x).1
def size (x : ByteMode) (b : BytePtr) : ℕ := (b.unit x).2

/-- A valid pointer: its bytes are those of a word from the left end on, and the second word is not
illegal. -/
structure Valid (x : ByteMode) (b : BytePtr) : Prop where
  pos_le : b.pos x ≤ 36
  size_pos : 1 ≤ b.size x
  size_le : b.size x ≤ 36
  aligned : b.size x ∣ 36 - b.pos x
  first_lt : b.first < 2 ^ 36
  second_lt : b.second < 2 ^ 36
  legal : ¬ Short x b → b.isFull x = true → ¬ (b.second &&& smask ≠ 0 ∧ b.second &&& bit1 ≠ 0)

/-- The bytes in a word, and the byte of the pointer, counted from 1; 0 is the left end. -/
def per (x : ByteMode) (b : BytePtr) : ℕ := 36 / b.size x
def byte (x : ByteMode) (b : BytePtr) : ℕ := (36 - b.pos x) / b.size x

/-- The addresses that a step goes through: those of all sections, or of one. Before the KI10 the carry
out of the address goes on into the bits beside it. -/
def space (x : ByteMode) (b : BytePtr) : ℕ :=
  if Short x b ∨ b.isFull x = true ∧ b.second &&& smask = 0 then 2 ^ 30
  else if x.cfg.kiOrLater then 2 ^ 18 else 2 ^ 24

/-- The code of a position for a size, in a pointer of one word. -/
def code (pos size : ℕ) : ℕ := (searchAdj pos size).getD 28 + 37

/-- The pointer with another byte of its word, and with its address moved. -/
def place (x : ByteMode) (b : BytePtr) (t : Slot) : BytePtr :=
  let at_ := 36 - t.byte * b.size x
  if Short x b then { b with first := code at_ (b.size x) * 2 ^ 30 + addMod (2 ^ 30) b.first t.word }
  else if b.isFull x then
    ⟨at_ * 2 ^ 30 + b.first % 2 ^ 30, moveAddr (b.space x) b.second t.word⟩
  else { b with first := at_ * 2 ^ 30 + moveAddr (b.space x) (b.first % 2 ^ 30) t.word }

/-! ### The table -/

/-- An entry of the table has the bytes of a word from the left end on, and the next byte is in the next
entry. -/
structure Entry (i : ℕ) (e : ℕ × ℕ) : Prop where
  found : byteAdj[i]? = some e
  pos_le : e.1 ≤ 36
  size_pos : 1 ≤ e.2
  size_le : e.2 ≤ 36
  aligned : e.2 ∣ 36 - e.1
  search : searchAdj e.1 e.2 = some i
  next : e.2 ≤ e.1 → byteAdj[i + 1]? = some (e.1 - e.2, e.2)

/-- **The table**: the search finds every byte of a size, inside the table. -/
theorem byteAdj_entry {i : ℕ} (hi : i < 26) : ∃ e, Entry i e := by
  have hall : ∀ i < 26, let e : ℕ × ℕ := byteAdj[i]?.getD (0, 0)
      byteAdj[i]? = some e ∧ e.1 ≤ 36 ∧ 1 ≤ e.2 ∧ e.2 ≤ 36 ∧ e.2 ∣ 36 - e.1
        ∧ searchAdj e.1 e.2 = some i ∧ (e.2 ≤ e.1 → byteAdj[i + 1]? = some (e.1 - e.2, e.2)) := by
    decide
  obtain ⟨h₁, h₂, h₃, h₄, h₅, h₆, h₇⟩ := hall i hi
  exact ⟨_, h₁, h₂, h₃, h₄, h₅, h₆, h₇⟩

lemma searchAdj_byte {i : ℕ} {e : ℕ × ℕ} (h : Entry i e) {k : ℕ} (hk : k ≤ 36 / e.2) :
    ∃ f < 26, searchAdj (36 - k * e.2 : ℕ) e.2 = some f ∧ byteAdj[f]? = some (36 - k * e.2, e.2) := by
  have hall : ∀ e ∈ byteAdj, ∀ k ≤ 36 / e.2, (36 - k * e.2, e.2) ∈ byteAdj := by decide
  obtain ⟨f, hf, hget⟩ := List.getElem_of_mem (hall e (List.mem_of_getElem? h.found) k hk)
  obtain ⟨e', he'⟩ := byteAdj_entry hf
  have hfound := List.getElem?_eq_some_iff.mpr ⟨hf, hget⟩
  obtain rfl := Option.some.inj (hfound.symm.trans he'.found)
  exact ⟨f, hf, he'.search, hfound⟩

lemma code_byte {i : ℕ} {e : ℕ × ℕ} (h : Entry i e) {k : ℕ} (hk : k ≤ 36 / e.2) :
    37 ≤ code (36 - k * e.2) e.2 ∧ code (36 - k * e.2) e.2 < 63
      ∧ byteAdj[code (36 - k * e.2) e.2 - 37]? = some (36 - k * e.2, e.2) := by
  obtain ⟨f, hf, hsearch, hentry⟩ := searchAdj_byte h hk
  rw [code, hsearch, Option.getD_some, Nat.add_sub_cancel]
  exact ⟨by omega, by omega, hentry⟩

/-! ### Valid pointers -/

lemma byte_le : b.byte x ≤ b.per x := Nat.div_le_div_right (Nat.sub_le _ _)

namespace Valid

variable (h : Valid x b)

include h

lemma size_ne : 0 < b.size x := h.size_pos

lemma per_pos : 0 < b.per x := Nat.div_pos h.size_le h.size_ne

/-- The position of a byte. -/
lemma pos_eq : b.byte x * b.size x = 36 - b.pos x := Nat.div_mul_cancel h.aligned

lemma byte_lt_iff : b.byte x < b.per x ↔ b.size x ≤ b.pos x := by
  have hpos := h.pos_eq
  have hle := h.pos_le
  rw [per, ← Nat.succ_le_iff, Nat.le_div_iff_mul_le h.size_ne, Nat.succ_mul]
  omega

lemma next_pos (hle : b.size x ≤ b.pos x) : 36 - (b.byte x + 1) * b.size x = b.pos x - b.size x := by
  have hpos := h.pos_eq
  have hpos_le := h.pos_le
  rw [Nat.succ_mul]
  omega

/-- The entry of a pointer of one word. -/
lemma entry (hshort : Short x b) : Entry (b.p - 37) (b.unit x) := by
  have hp : b.p < 64 := by
    rw [p_eq]
    omega
  have hunit : b.unit x = byteAdj[b.p - 37]?.getD (0, 0) := if_pos hshort
  have hlt : b.p - 37 < 26 := by
    by_contra hge
    have hsize := h.size_pos
    rw [size, hunit, List.getElem?_eq_none (by simpa [byteAdj] using Nat.le_of_not_lt hge)] at hsize
    exact absurd hsize (by decide)
  obtain ⟨e, he⟩ := byteAdj_entry hlt
  rwa [hunit, he.found, Option.getD_some]

end Valid

lemma unit_of_not_short (hshort : ¬ Short x b) : b.pos x = b.p ∧ b.size x = b.s := by
  simp only [pos, size, unit, if_neg hshort, and_self]

lemma space_global (h : Short x b ∨ b.isFull x = true ∧ b.second &&& smask = 0) :
    b.space x = 2 ^ 30 := if_pos h

lemma space_local (hshort : ¬ Short x b) (hlocal : b.isFull x = true → b.second &&& smask ≠ 0) :
    b.space x = if x.cfg.kiOrLater then 2 ^ 18 else 2 ^ 24 :=
  if_neg (by rintro (h | ⟨hfull, h⟩); exacts [hshort h, hlocal hfull h])

/-- The extended KL10 is not one of the early processors. -/
lemma kiOrLater_of_klb (h : x.klb = true) : x.cfg.kiOrLater = true := by
  rw [ByteMode.klb] at h
  cases hbuild : x.cfg.build <;> simp [Config.kiOrLater, hbuild] at h ⊢

lemma kiOrLater_of_isFull (h : b.isFull x = true) : x.cfg.kiOrLater = true := by
  refine kiOrLater_of_klb ?_
  rw [isFull, Bool.and_eq_true, Bool.and_eq_true] at h
  exact h.1.1

/-! ### The instructions -/

/-- The right half of an address word moved, and its right 30 bits. -/
lemma adjRight_eq {v : ℕ} (hv : v < 2 ^ 36) (n : ℤ) :
    addMod (2 ^ 18) v n ||| (v &&& lmask) = moveAddr (2 ^ 18) v n := by
  rw [moveAddr, and_lmask, Nat.or_comm,
    or_eq_add (Dvd.intro_left _ rfl) (addMod_lt (by norm_num) v n),
    Nat.mod_eq_of_lt (show v / 2 ^ 18 < 2 ^ 18 by omega)]

lemma adjLong_eq (v : ℕ) (n : ℤ) :
    addMod (2 ^ 30) v n ||| bic v (sectm ||| rmask) = moveAddr (2 ^ 30) v n := by
  rw [moveAddr, show sectm ||| rmask = 2 ^ 30 - 1 from rfl, bic_low, Nat.or_comm,
    or_eq_add (Dvd.intro_left _ rfl) (addMod_lt (by norm_num) v n)]

lemma incRight_eq {v : ℕ} (hv : v < 2 ^ 36) :
    (v + 1 &&& rmask) ||| (v &&& lmask) = moveAddr (2 ^ 18) v 1 := by
  rw [and_rmask, ← addMod_one, adjRight_eq hv]

lemma incLong_eq (v : ℕ) :
    (v + 1 &&& (sectm ||| rmask)) ||| bic v (sectm ||| rmask) = moveAddr (2 ^ 30) v 1 := by
  rw [and_long, ← addMod_one, adjLong_eq]

lemma incFirst_eq (v : ℕ) :
    ((v &&& lmask) ||| (v + 1 &&& rmask)) % 2 ^ 30 = moveAddr (2 ^ 18) (v % 2 ^ 30) 1 := by
  rw [moveAddr, addMod_one, and_rmask, and_lmask,
    or_eq_add (Dvd.intro_left _ rfl) (Nat.mod_lt _ (by norm_num))]
  lia

/-- The step, when the word has room for the next byte. -/
lemma ibp_room (h : Valid x b) (hle : b.size x ≤ b.pos x) :
    b.ibp x = some (b.place x ⟨0, b.byte x + 1⟩) := by
  have hnext := h.next_pos hle
  simp only [ibp, place, hnext]
  by_cases hshort : Short x b
  · have he := h.entry hshort
    have hwraps : ¬ wraps (stepP (b.unit x).1 (b.unit x).2) = true := by
      rw [wraps_stepP he.pos_le he.size_le]
      exact Nat.not_lt.mpr hle
    have hentry := he.next hle
    have hlt : b.p - 37 + 1 < 26 := by
      have hlen := (List.getElem?_eq_some_iff.mp hentry).1
      simpa [byteAdj] using hlen
    obtain ⟨e', he'⟩ := byteAdj_entry hlt
    have heq : e' = (b.pos x - b.size x, b.size x) :=
      Option.some.inj (he'.found.symm.trans hentry)
    have hcode : code (b.pos x - b.size x) (b.size x) = b.p - 37 + 1 + 37 := by
      have hsearch := he'.search
      rw [heq] at hsearch
      rw [code, hsearch, Option.getD_some]
    have hshort' : x.klb = true ∧ b.p > 36 := hshort
    rw [if_pos hshort', if_pos hshort, he.found]
    simp only [if_neg hwraps]
    rw [hcode, and_long, Nat.or_comm, shiftLeft_or_eq (Nat.mod_lt _ (by norm_num)), addMod_zero]
  · obtain ⟨hpos, hsize⟩ := unit_of_not_short hshort
    have hpos_le := h.pos_le
    have hsize_le := h.size_le
    rw [hpos] at hle hpos_le ⊢
    rw [hsize] at hle hsize_le ⊢
    have hwraps : ¬ wraps (stepP b.p b.s) = true := by
      rw [wraps_stepP hpos_le hsize_le]
      exact Nat.not_lt.mpr hle
    have hstep : stepP b.p b.s = b.p - b.s := by
      rw [stepP_eq hsize_le]
      lia
    have hshort' : ¬ (x.klb = true ∧ b.p > 36) := hshort
    rw [if_neg hshort', if_neg hshort, if_neg hwraps, hstep, setP_eq _ (by lia), moveAddr_zero,
      moveAddr_zero]
    split_ifs <;> rfl

/-- The step does not carry into the size. -/
def Room (x : ByteMode) (b : BytePtr) : Prop :=
  x.cfg.kiOrLater = true ∨ (b.pos x < b.size x → b.first % 2 ^ 24 + 1 < 2 ^ 24)

/-- The step to the next word. -/
lemma ibp_wrap (h : Valid x b) (hroom : Room x b) (hlt : b.pos x < b.size x) :
    b.ibp x = some (b.place x ⟨1, 1⟩) := by
  have hnew : stepP 0o44 (b.size x) = 36 - 1 * b.size x := by
    have hsize_le := h.size_le
    rw [stepP_eq hsize_le]
    lia
  simp only [ibp, place]
  by_cases hshort : Short x b
  · have he := h.entry hshort
    have hwraps : wraps (stepP (b.unit x).1 (b.unit x).2) = true :=
      (wraps_stepP he.pos_le he.size_le).mpr hlt
    have hshort' : x.klb = true ∧ b.p > 36 := hshort
    rw [if_pos hshort', if_pos hshort, he.found]
    simp only [if_pos hwraps]
    rw [show stepP 0o44 (b.unit x).2 = 36 - 1 * b.size x from hnew, and_long, Nat.or_comm,
      shiftLeft_or_eq (Nat.mod_lt _ (by norm_num)), addMod_one]
    rfl
  · obtain ⟨hpos, hsize⟩ := unit_of_not_short hshort
    have hpos_le := h.pos_le
    have hsize_le := h.size_le
    have hlegal := h.legal hshort
    have hcarry : (if x.cfg.kiOrLater = true then (b.first &&& lmask) ||| (b.first + 1 &&& rmask)
        else b.first + 1 &&& fmask) % 2 ^ 30
        = moveAddr (if x.cfg.kiOrLater then 2 ^ 18 else 2 ^ 24) (b.first % 2 ^ 30) 1 := by
      by_cases hx : x.cfg.kiOrLater = true
      · rw [if_pos hx, if_pos hx, incFirst_eq]
      · have hlow := hroom.resolve_left hx hlt
        rw [if_neg hx, if_neg hx, and_fmask, moveAddr, addMod_one]
        lia
    rw [hpos] at hlt hpos_le
    rw [hsize] at hlt hsize_le hnew ⊢
    have hwraps : wraps (stepP b.p b.s) = true := (wraps_stepP hpos_le hsize_le).mpr hlt
    have hshort' : ¬ (x.klb = true ∧ b.p > 36) := hshort
    rw [if_neg hshort', if_neg hshort, if_pos hwraps, hnew, setP_eq _ (by omega)]
    by_cases hfull : b.isFull x = true
    · rw [if_pos hfull, if_pos hfull]
      by_cases hlocal : b.second &&& smask ≠ 0
      · rw [if_pos hlocal, if_neg fun hbit => hlegal hfull ⟨hlocal, hbit⟩,
          space_local hshort fun _ => hlocal, if_pos (kiOrLater_of_isFull hfull),
          incRight_eq h.second_lt]
      · rw [if_neg hlocal, space_global (.inr ⟨hfull, not_not.mp hlocal⟩), incLong_eq]
    · rw [if_neg hfull, if_neg hfull, space_local hshort fun hf => absurd hf hfull, ← hcarry]
      split_ifs <;> rw [setP_eq _ (by lia)]

/-- **IBP** goes to the next byte. -/
theorem ibp_eq (h : Valid x b) (hroom : Room x b) :
    b.ibp x = some (b.place x (next (b.per x) ⟨0, b.byte x⟩)) := by
  rcases Nat.lt_or_ge (b.pos x) (b.size x) with hlt | hle
  · have hlast : ¬ b.byte x < b.per x := by
      rw [h.byte_lt_iff]
      exact Nat.not_le.mpr hlt
    rw [ibp_wrap h hroom hlt, next, if_neg hlast]
    rfl
  · rw [ibp_room h hle, next, if_pos (h.byte_lt_iff.mpr hle)]

/-- The count of an ADJBP is the right half of the accumulator, with its sign. -/
lemma adjCount_eq {br : ℕ} (hbr : br < 2 ^ 36) : adjCount br = Int.bmod br (2 ^ 18) := by
  have hcm : fmask ^^^ br = 2 ^ 36 - 1 - br := mask_xor (n := 36) hbr
  rw [adjCount, hcm, and_rmask, and_rmask, Int.bmod]
  have hsign : br &&& rsign ≠ 0 ↔ br / 2 ^ 17 % 2 = 1 := and_pow_ne_zero br 17
  split_ifs with hs hr hr <;> rw [hsign] at hs <;> lia

/-- A signed number as it is in an accumulator. -/
def ofSigned (n : ℤ) : ℕ := (n % 2 ^ 36).toNat

lemma ofSigned_lt (n : ℤ) : ofSigned n < 2 ^ 36 := by
  have hlt := Int.emod_lt_of_pos n (by norm_num : (0 : ℤ) < 2 ^ 36)
  rw [ofSigned]
  omega

lemma adjCount_ofSigned (n : ℤ) : adjCount (ofSigned n) = Int.bmod n (2 ^ 18) := by
  have hnonneg := Int.emod_nonneg n (by norm_num : (2 ^ 36 : ℤ) ≠ 0)
  rw [adjCount_eq (ofSigned_lt n), ofSigned, Int.toNat_of_nonneg hnonneg, Int.bmod, Int.bmod,
    show (n % 2 ^ 36) % ((2 ^ 18 : ℕ) : ℤ) = n % ((2 ^ 18 : ℕ) : ℤ) from
      Int.emod_emod_of_dvd n (by norm_num)]

/-- The division of ADJBP finds the byte. -/
lemma adjust_eq (h : Valid x b) (br : ℕ) :
    let t := move (b.per x) (adjCount br) ⟨0, b.byte x⟩
    adjust br (b.pos x) (b.size x) = some (t.word, 36 - (t.byte : ℤ) * (b.size x : ℤ)) := by
  intro t
  have hper := h.per_pos
  have hpos_le := h.pos_le
  have haligned := h.pos_eq
  have hsize := h.size_ne
  have hleft : (36 - b.pos x : ℤ).tdiv (b.size x) = b.byte x := by
    rw [show (36 - b.pos x : ℤ) = ((36 - b.pos x : ℕ) : ℤ) by omega]
    exact (Int.ofNat_tdiv _ _).symm
  have hrem : (36 - b.pos x : ℤ).tmod (b.size x) = 0 := by
    rw [show (36 - b.pos x : ℤ) = ((36 - b.pos x : ℕ) : ℤ) by omega, ← haligned]
    push_cast
    exact Int.mul_tmod_left _ _
  have hbpw : (b.byte x : ℤ) + (b.pos x / b.size x : ℕ) = b.per x := by
    have hsum : b.per x = b.byte x + b.pos x / b.size x := by
      rw [per, show 36 = b.pos x + b.size x * b.byte x by rw [Nat.mul_comm]; omega,
        Nat.add_mul_div_left _ _ hsize, Nat.add_comm]
    rw [hsum]
    push_cast
    rfl
  have hmod (n : ℤ) : (if n ≥ 0 then n.tmod (b.per x) else -((-n).tmod (b.per x)))
      = n.tmod (b.per x) := by
    rw [Int.neg_tmod, neg_neg, ite_self]
  have hslot : t = ofIndex (b.per x) (adjCount br + b.byte x - 1) := by
    show ofIndex _ _ = _
    rw [index]
    congr 1
    push_cast
    ring
  have hquot := ofQuotient hper (adjCount br + b.byte x)
  rw [← hslot] at hquot
  have hne : ((b.per x : ℤ)) ≠ 0 := by omega
  simp only [adjust, hleft, hbpw, if_neg hne, hmod, hrem, sub_zero]
  simp only at hquot
  split_ifs at hquot ⊢ with hneg
  · have hbyte : ((t.byte : ℕ) : ℤ) = (adjCount br + b.byte x).tmod (b.per x) + b.per x := by
      have hlow := Int.lt_tmod_of_pos (adjCount br + b.byte x) (show (0 : ℤ) < b.per x by omega)
      rw [hquot]
      simp only
      lia
    rw [hbyte, hquot]
  · have hbyte : ((t.byte : ℕ) : ℤ) = (adjCount br + b.byte x).tmod (b.per x) := by
      rw [hquot]
      simp only
      omega
    rw [hbyte, hquot]

/-- The position of a byte as it is put in a pointer. -/
lemma place_pos (h : Valid x b) {k : ℕ} (hk : k ≤ b.per x) :
    (36 - (k : ℤ) * b.size x) = ((36 - k * b.size x : ℕ) : ℤ) := by
  have hle : k * b.size x ≤ 36 := (Nat.le_div_iff_mul_le h.size_ne).mp hk
  push_cast [Nat.cast_sub hle]
  rfl

lemma adjFirst_eq (v : ℕ) (n : ℤ) (fe : ℕ) :
    fe <<< 30 ||| (v &&& (pmask &&& lmask)) ||| addMod (2 ^ 18) v n
      = fe * 2 ^ 30 + moveAddr (2 ^ 18) (v % 2 ^ 30) n := by
  have hlow : addMod (2 ^ 18) (v % 2 ^ 30) n = addMod (2 ^ 18) v n :=
    addMod_congr (Nat.mod_mod_of_dvd v (by norm_num)) n
  have hmask : v &&& (pmask &&& lmask) = v % 2 ^ 30 / 2 ^ 18 * 2 ^ 18 := by
    rw [← Nat.and_assoc, and_pmask, and_lmask]
    lia
  have haddr := addMod_lt (by norm_num : 0 < 2 ^ 18) v n
  rw [hmask, Nat.or_assoc, or_eq_add (Dvd.intro_left _ rfl) haddr,
    shiftLeft_or_eq (by lia), moveAddr, hlow]

/-- **ADJBP** moves by its count along the bytes of the words. -/
theorem adjbp_eq (h : Valid x b) (hx : x.cfg.kiOrLater = true) (br : ℕ) :
    b.adjbp x br = some (b.place x (move (b.per x) (adjCount br) ⟨0, b.byte x⟩)) := by
  set t := move (b.per x) (adjCount br) ⟨0, b.byte x⟩
  have hadj : adjust br (b.pos x) (b.size x) = some (t.word, 36 - (t.byte : ℤ) * (b.size x : ℤ)) :=
    adjust_eq h br
  have hk : t.byte ≤ b.per x := byte_move h.per_pos _ _
  rw [place_pos h hk] at hadj
  have hcode : (((36 - t.byte * b.size x : ℕ) : ℤ) % 64).toNat = 36 - t.byte * b.size x := by
    lia
  simp only [adjbp, place]
  by_cases hshort : Short x b
  · have he := h.entry hshort
    have hshort' : x.klb = true ∧ b.p > 36 := hshort
    obtain ⟨f, hf, hsearch, -⟩ := searchAdj_byte he hk
    have hfound : searchAdj (36 - t.byte * b.size x : ℕ) (b.size x) = some f := hsearch
    have hmod : ((f + 37 : ℤ) % 64).toNat = f + 37 := by lia
    rw [if_pos hshort', if_pos hshort, he.found]
    simp only [show (b.unit x).1 = b.pos x from rfl, show (b.unit x).2 = b.size x from rfl, hadj,
      Option.map_some, hfound, hmod, code, Option.getD_some]
    rw [shiftLeft_or_eq (addMod_lt (by norm_num) _ _)]
  · obtain ⟨hpos, hsize⟩ := unit_of_not_short hshort
    have hshort' : ¬ (x.klb = true ∧ b.p > 36) := hshort
    have hnonzero : b.s ≠ 0 := by
      rw [← hsize]
      exact h.size_ne.ne'
    have hlegal := h.legal hshort
    rw [hpos] at hadj
    rw [if_neg hshort', if_neg hshort, if_neg hnonzero, ← hsize, hadj]
    simp only [hcode]
    by_cases hfull : b.isFull x = true
    · rw [if_pos hfull, if_pos hfull, and_pmask, shiftLeft_or_eq (Nat.mod_lt _ (by norm_num))]
      by_cases hlocal : b.second &&& smask ≠ 0
      · rw [if_pos hlocal, if_neg fun hbit => hlegal hfull ⟨hlocal, hbit⟩,
          space_local hshort fun _ => hlocal, if_pos hx, adjRight_eq h.second_lt]
      · rw [if_neg hlocal, space_global (.inr ⟨hfull, not_not.mp hlocal⟩), adjLong_eq]
    · rw [if_neg hfull, if_neg hfull, space_local hshort fun hf => absurd hf hfull, if_pos hx,
        adjFirst_eq]

end BytePtr

end Ka10Simh.Pdp10
