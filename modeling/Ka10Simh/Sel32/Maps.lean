import Ka10Simh.Lib.Bits

/-!
The maps of the Concept/32: `load_maps` of `sel32_cpu.c`.

A page of 2K words has a 16-bit map in a list in memory; the O/S has a list and so has each user. The
maps that have been loaded are in `MAPC`, two in a word, and translated in `TLB`, where `HIT` tells that
an entry is there. `BPIX` is the number of maps of the O/S, after which the `CPIXPL` of the user come.

* `readHalf`, `writeHalf`: halfwords of an array of words.
* `Sel.loadMaps`: what LPSDCM and LMAP load. The 32/67, 32/97, V6 and V9 only clear the entries of the
  user for an LPSDCM.
* `Sel.granted_loadMaps`: the maps that have been granted fit in the array.

The loops that clear entries are written as one assignment.
-/

namespace Ka10Simh.Sel32

/-- `CPU_MODEL`. -/
inductive Model
  | m55 | m75 | m27 | m67 | m87 | m97 | v6 | v9
  deriving DecidableEq, Repr

/-- `ALLOK`, and the traps of an access. -/
inductive Status
  | allok | npmem | mapflt | machinechk | dmdpg
  deriving DecidableEq, Repr

abbrev mask16 : ℕ := 0xffff
abbrev mask24 : ℕ := 0xffffff
abbrev bit0 : ℕ := 0x80000000
abbrev bit1 : ℕ := 0x40000000
abbrev bit2 : ℕ := 0x20000000
abbrev bit5 : ℕ := 0x04000000
abbrev bit6 : ℕ := 0x02000000
abbrev bit7 : ℕ := 0x01000000
abbrev bit9 : ℕ := 0x00400000
abbrev bit10 : ℕ := 0x00200000
abbrev bit12 : ℕ := 0x00080000
abbrev bit16 : ℕ := 0x00008000
abbrev bit20 : ℕ := 0x00000800
abbrev bit28 : ℕ := 0x00000008

/-- Mode bits: `MAPMODE`, `PRIVBIT`, `EXTDBIT` and `BASEBIT`. -/
abbrev mapMode : ℕ := 0x04
abbrev privBit : ℕ := 0x80000000
abbrev extdBit : ℕ := 0x04000000
abbrev baseBit : ℕ := 0x02000000

/-- The `HIT` bit of a `TLB` entry. -/
abbrev hitBit : ℕ := 0x04000000

/-- `RMH` and `RMR`: the halfword at a byte address, the left one first. -/
def readHalf (w : ℕ → ℕ) (a : ℕ) : ℕ :=
  if a &&& 2 ≠ 0 then w (a >>> 2) &&& 0xffff else w (a >>> 2) >>> 16 &&& 0xffff

/-- `WMH` and `WMR`. -/
def writeHalf (w : ℕ → ℕ) (a d : ℕ) : ℕ → ℕ :=
  Function.update w (a >>> 2)
    (if a &&& 2 ≠ 0 then (w (a >>> 2) &&& 0xffff0000) ||| (d &&& 0xffff)
      else (w (a >>> 2) &&& 0xffff) ||| d <<< 16)

lemma readHalf_lt (w : ℕ → ℕ) (a : ℕ) : readHalf w a < 2 ^ 16 := by
  have hmask (v : ℕ) : v &&& 0xffff < 2 ^ 16 := Nat.and_lt_two_pow v (by norm_num)
  rw [readHalf]
  split_ifs
  · exact hmask _
  · exact hmask _

lemma half_shift (i : ℕ) : (i <<< 1) >>> 2 = i / 2 := by
  rw [Nat.shiftLeft_eq, Nat.shiftRight_eq_div_pow]
  lia

lemma half_bit (i : ℕ) : (i <<< 1) &&& 2 ≠ 0 ↔ i % 2 = 1 := by
  rw [show (2 : ℕ) = 2 ^ 1 from rfl, Word.and_two_pow_ne_zero, Nat.shiftLeft_eq,
    Nat.testBit_eq_decide_div_mod_eq, decide_eq_true_iff]
  lia

/-- A halfword that has been written. -/
lemma readHalf_writeHalf_self (w : ℕ → ℕ) (i : ℕ) {d : ℕ} (hd : d < 2 ^ 16) :
    readHalf (writeHalf w (i <<< 1) d) (i <<< 1) = d := by
  have hlow : d &&& 0xffff = d := (Nat.and_two_pow_sub_one_eq_mod d 16).trans (Nat.mod_eq_of_lt hd)
  rw [readHalf, writeHalf]
  rw [Function.update_self]
  split_ifs
  · rw [Nat.and_or_distrib_right, Nat.and_assoc, hlow, show 0xffff0000 &&& 0xffff = 0 from rfl,
      Nat.and_zero, Nat.zero_or, hlow]
  · rw [Nat.shiftRight_or_distrib, Nat.shiftLeft_shiftRight, Nat.shiftRight_and_distrib,
      show 0xffff >>> 16 = 0 from rfl, Nat.and_zero, Nat.zero_or, hlow]

/-- The other halfwords. -/
lemma readHalf_writeHalf_of_ne (w : ℕ → ℕ) {i j d : ℕ} (hij : i ≠ j) :
    readHalf (writeHalf w (j <<< 1) d) (i <<< 1) = readHalf w (i <<< 1) := by
  unfold readHalf writeHalf
  rw [half_shift, half_shift]
  rcases eq_or_ne (i / 2) (j / 2) with heq | hne
  · rw [heq, Function.update_self]
    by_cases hi : i % 2 = 1
    · have hj : ¬ j % 2 = 1 := by omega
      rw [if_pos ((half_bit i).mpr hi), if_neg (mt (half_bit j).mp hj), if_pos ((half_bit i).mpr hi),
        Nat.and_or_distrib_right, Nat.and_assoc, Nat.and_self]
      have hshift : d <<< 16 &&& 0xffff = 0 := by
        rw [Nat.and_two_pow_sub_one_eq_mod _ 16, Nat.shiftLeft_eq, Nat.mul_mod_left]
      rw [hshift, Nat.or_zero]
    · have hj : j % 2 = 1 := by lia
      rw [if_neg (mt (half_bit i).mp hi), if_pos ((half_bit j).mpr hj), if_neg (mt (half_bit i).mp hi),
        Nat.shiftRight_or_distrib, Nat.shiftRight_and_distrib, Nat.shiftRight_and_distrib,
        show 0xffff >>> 16 = 0 from rfl, Nat.and_zero, Nat.or_zero, Nat.and_assoc]
      rfl
  · rw [Function.update_of_ne hne]

/-- What translation asks and does not change. `mpl` is `SPAD[0xf3]`, and `memSize` is in bytes. -/
structure MapRegs where
  model : Model
  modes : ℕ
  memSize : ℕ
  mpl : ℕ
  bpix : ℕ := 0
  cpixpl : ℕ := 0
  cpix : ℕ := 0
  hiwm : ℕ := 0
  deriving DecidableEq

structure Sel where
  regs : MapRegs
  mem : ℕ → ℕ
  tlb : ℕ → ℕ
  mapc : ℕ → ℕ
  trapStatus : ℕ := 0
  pfault : ℕ := 0

namespace Sel

variable (s : Sel)

/-- `RMW`, `RMH` and `RMR` of a map. -/
def rmw (a : ℕ) : ℕ := s.mem ((a &&& mask24) >>> 2)
def rmh (a : ℕ) : ℕ := readHalf s.mem (a % 2 ^ 32)
def rmr (i : ℕ) : ℕ := readHalf s.mapc (i <<< 1)

/-- `MEM_ADDR_OK`. -/
def memOk (a : ℕ) : Bool := a < s.regs.memSize

/-- `TRAPSTATUS |= bits`. -/
def trap (bits : ℕ) : Sel := { s with trapStatus := s.trapStatus ||| bits }

/-- `(CPU_MODEL == MODEL_97) || (CPU_MODEL == MODEL_V9)`. -/
def is97V9 : Bool := s.regs.model == .m97 || s.regs.model == .v9

/-- The models that have all maps loaded at once. -/
def is2787 : Bool := s.regs.model == .m27 || s.regs.model == .m87

def maxMap : ℕ := if s.is2787 then 256 else 2048

/-- A `TLB` entry without `HIT`: the address of the page and the five status bits of the map. -/
def tlbWord (map : ℕ) : ℕ := (map &&& 0x7ff) <<< 13 ||| (map <<< 16 &&& 0xf8000000)

/-- `TLB[i] = word`, and `WMR(i<<1, map)` with it. -/
def setTlb (i word : ℕ) : Sel := { s with tlb := Function.update s.tlb i word }
def load (i map : ℕ) : Sel :=
  { s.setTlb i (tlbWord map ||| hitBit) with mapc := writeHalf s.mapc (i <<< 1) map }

/-- `TLB[i] = 0` from `n` up to `MAXMAP`. -/
def clearFrom (n : ℕ) : Sel :=
  { s with tlb := fun i => if n ≤ i ∧ i < s.maxMap then 0 else s.tlb i }

/-! ### Loading -/

/-- The exits `npmem` and `nomaps` of `load_maps`. -/
def npmem (cpix : ℕ) : Status × Sel :=
  let s := { s with regs := { s.regs with bpix := 0, cpixpl := 0, cpix } }
  (.npmem, s.trap (if s.is97V9 then bit1 else bit10))

def nomaps (cpix : ℕ) : Status × Sel :=
  let s := { s with regs := { s.regs with bpix := 0, cpixpl := 0, cpix, hiwm := 0 } }
  (.mapflt, s.trap (if s.is97V9 then bit5 ||| bit9 else bit16))

/-- The end of a loop over a list of maps. -/
inductive Loaded
  | all (num : ℕ) (s : Sel)
  | overflow (s : Sel)
  | missing (s : Sel)

/-- The loop over the list of the O/S from map `j` on, with `count` maps to come. -/
def loadOs (osmsdl : ℕ) : ℕ → ℕ → ℕ → Sel → Loaded
  | 0, _, num, s => .all num s
  | count + 1, j, num, s =>
      let pad := osmsdl + j <<< 1
      if num ≥ s.maxMap then .overflow s
      else if ¬ s.memOk pad then .missing s
      else
        let map := s.rmh pad
        loadOs osmsdl count (j + 1) (num + 1)
          (if map &&& 0x8000 ≠ 0 then s.load num map else s.setTlb num 0)

/-- The same for the user of a 32/27 and 32/87. -/
def loadUser2787 (msdl : ℕ) : ℕ → ℕ → ℕ → Sel → Loaded
  | 0, _, num, s => .all num s
  | count + 1, j, num, s =>
      let pad := msdl + j <<< 1
      if num ≥ s.maxMap then .overflow (s.trap (bit16 ||| (bit5 ||| bit9)))
      else if ¬ s.memOk pad then .missing s
      else
        let map := s.rmh pad
        let s' := if map &&& 0x8000 ≠ 0 then s.setTlb num (tlbWord map ||| hitBit) else s.setTlb num 0
        loadUser2787 msdl count (j + 1) (num + 1) { s' with mapc := writeHalf s.mapc (num <<< 1) map }

/-- And of the other models, which load maps for an LMAP only. -/
def loadUser (msdl : ℕ) (lmap : Bool) : ℕ → ℕ → ℕ → Sel → Loaded
  | 0, _, num, s => .all num s
  | count + 1, j, num, s =>
      let pad := msdl + j <<< 1
      if ¬ lmap then loadUser msdl lmap count (j + 1) (num + 1) (s.setTlb num 0)
      else if num ≥ s.maxMap then .overflow (s.trap (if s.is97V9 then bit5 ||| bit9 else bit16))
      else if ¬ s.memOk pad then .missing s
      else loadUser msdl lmap count (j + 1) (num + 1) (s.load num (s.rmh pad))

/-- What follows the loop over a user's list. -/
def userLoaded (cpix : ℕ) : Loaded → Status × Sel
  | .overflow s => s.nomaps cpix
  | .missing s => s.npmem cpix
  | .all num s =>
      if num = 0 then s.nomaps cpix
      else
        let s := s.clearFrom num
        (.allok, { s with regs := { s.regs with hiwm := num } })

/-- From `loaduser` on. -/
def loaduser (cpix midl msdl : ℕ) (lmap : Bool) (num : ℕ) : Status × Sel :=
  let spc := midl &&& mask16
  if s.regs.bpix = s.maxMap then
    let s := { s with regs := { s.regs with hiwm := num, cpixpl := 0 } }
    if midl &&& bit0 ≠ 0 ∧ spc = 0 then (.allok, s) else s.nomaps cpix
  else
    let msdl := msdl &&& mask24
    if lmap ∧ ¬ s.memOk msdl then (.npmem, s.trap (if s.is97V9 then bit1 else bit28))
    else if spc > s.maxMap ∨ spc + s.regs.bpix > s.maxMap then s.nomaps cpix
    else
      let s := { s with regs := { s.regs with cpix, cpixpl := spc } }
      if s.is2787 then userLoaded cpix (loadUser2787 msdl spc 0 num s)
      else userLoaded cpix (loadUser msdl lmap spc 0 num s)

/-- From `loados` on. -/
def loados (cpix osmidl osmsdl midl msdl : ℕ) (lmap onlyos : Bool) : Status × Sel :=
  let spc := osmidl &&& mask16
  if osmidl = 0 ∨ spc > s.maxMap then s.nomaps cpix
  else
    let osmsdl := osmsdl &&& mask24
    if ¬ s.memOk osmsdl then s.npmem cpix
    else
      match loadOs osmsdl spc 0 0 s with
      | .overflow s => s.nomaps cpix
      | .missing s => s.npmem cpix
      | .all num s =>
          let s := { s with regs := { s.regs with bpix := num, cpixpl := 0 } }
          if ¬ onlyos then s.loaduser cpix midl msdl lmap num
          else
            let s := s.clearFrom num
            (.allok, { s with regs := { s.regs with hiwm := num } })

/-- `load_maps`, from the end of the 32/7x on. -/
def loadMaps (psd2 : ℕ) (lmap : Bool) : Status × Sel :=
  if s.regs.modes &&& mapMode = 0 then (.allok, s)
  else
    let cpix := psd2 &&& 0x3ff8
    if s.regs.mpl &&& 0x7 ≠ 0 then (.mapflt, s.trap (if s.is97V9 then bit6 else bit20))
    else
      let mpl := s.regs.mpl &&& mask24
      if ¬ s.memOk mpl then s.npmem cpix
      else
        let osmidl := s.rmw mpl
        let osmsdl := s.rmw (mpl + 4)
        let midl := s.rmw (mpl + cpix)
        let msdl := s.rmw (mpl + cpix + 4)
        let spc := osmidl &&& mask16
        if cpix = 0 then
          let s := { s with regs := { s.regs with cpix } }
          if osmidl &&& bit0 ≠ 0 then (.allok, s)
          else s.loados cpix osmidl osmsdl midl msdl lmap true
        else if midl &&& bit0 ≠ 0 then
          if osmidl &&& bit0 ≠ 0 then
            { s with regs := { s.regs with bpix := spc } }.loaduser cpix midl msdl lmap spc
          else if spc > s.maxMap then s.nomaps cpix
          else if spc = 0 then
            { s with regs := { s.regs with bpix := 0 } }.loaduser cpix midl msdl lmap 0
          else s.loados cpix osmidl osmsdl midl msdl lmap false
        else { s with regs := { s.regs with bpix := 0 } }.loaduser cpix midl msdl lmap 0

/-! ### What has been granted -/

variable {s}

/-- The maps of the O/S and of the user fit in those of the model. -/
def Granted (s : Sel) : Prop := s.regs.bpix + s.regs.cpixpl ≤ s.maxMap

/-- The loops change no registers, and that of the O/S loads as many maps as it is to. -/
lemma loadOs_all {osmsdl count j num n : ℕ} {t : Sel} (h : loadOs osmsdl count j num s = .all n t) :
    t.regs = s.regs ∧ n = num + count := by
  induction count generalizing j num s with
  | zero =>
      cases h
      exact ⟨rfl, rfl⟩
  | succ count ih =>
      simp only [loadOs] at h
      split_ifs at h
      · exact ⟨(ih h).1, by rw [(ih h).2]; omega⟩
      · exact ⟨(ih h).1, by rw [(ih h).2]; omega⟩

lemma loadUser2787_all {msdl count j num n : ℕ} {t : Sel}
    (h : loadUser2787 msdl count j num s = .all n t) : t.regs = s.regs := by
  induction count generalizing j num s with
  | zero =>
      cases h
      rfl
  | succ count ih =>
      simp only [loadUser2787] at h
      split_ifs at h
      · exact (ih h).trans rfl
      · exact (ih h).trans rfl

lemma loadUser_all {msdl count j num n : ℕ} {lmap : Bool} {t : Sel}
    (h : loadUser msdl lmap count j num s = .all n t) : t.regs = s.regs := by
  induction count generalizing j num s with
  | zero =>
      cases h
      rfl
  | succ count ih =>
      simp only [loadUser] at h
      split_ifs at h
      · exact (ih h).trans rfl
      · exact (ih h).trans rfl

/-- The exits that fail. -/
lemma nomaps_ne (cpix : ℕ) : (s.nomaps cpix).1 ≠ .allok := by simp [nomaps]
lemma npmem_ne (cpix : ℕ) : (s.npmem cpix).1 ≠ .allok := by simp [npmem]

lemma granted_userLoaded {cpix : ℕ} {l : Loaded} (hl : ∀ n t, l = .all n t → t.Granted)
    (h : (userLoaded cpix l).1 = .allok) : (userLoaded cpix l).2.Granted := by
  cases l with
  | overflow s => exact absurd h (nomaps_ne cpix)
  | missing s => exact absurd h (npmem_ne cpix)
  | all n t =>
      simp only [userLoaded] at h ⊢
      split_ifs at h ⊢
      · exact absurd h (nomaps_ne cpix)
      · exact hl n t rfl

lemma granted_of_regs {t : Sel} (hregs : t.regs = s.regs) (h : s.Granted) : t.Granted := by
  rw [Granted, maxMap, is2787] at h ⊢
  rwa [hregs]

lemma granted_loaduser {cpix midl msdl num : ℕ} {lmap : Bool}
    (h : (s.loaduser cpix midl msdl lmap num).1 = .allok) :
    (s.loaduser cpix midl msdl lmap num).2.Granted := by
  simp only [loaduser] at h ⊢
  split_ifs at h ⊢ with hfull hborrow hmsdl hcount h27
  · exact hfull.le
  · exact absurd h (nomaps_ne cpix)
  · exact absurd h (nomaps_ne cpix)
  · refine granted_userLoaded (fun n t ht => granted_of_regs (loadUser2787_all ht) ?_) h
    show s.regs.bpix + (midl &&& mask16) ≤ s.maxMap
    omega
  · refine granted_userLoaded (fun n t ht => granted_of_regs (loadUser_all ht) ?_) h
    show s.regs.bpix + (midl &&& mask16) ≤ s.maxMap
    omega

lemma granted_loados {cpix osmidl osmsdl midl msdl : ℕ} {lmap onlyos : Bool}
    (h : (s.loados cpix osmidl osmsdl midl msdl lmap onlyos).1 = .allok) :
    (s.loados cpix osmidl osmsdl midl msdl lmap onlyos).2.Granted := by
  simp only [loados] at h ⊢
  by_cases hcount : osmidl = 0 ∨ osmidl &&& mask16 > s.maxMap
  · rw [if_pos hcount] at h
    exact absurd h (nomaps_ne cpix)
  rw [if_neg hcount] at h ⊢
  by_cases hos : ¬ s.memOk (osmsdl &&& mask24) = true
  · rw [if_pos hos] at h
    exact absurd h (npmem_ne cpix)
  rw [if_neg hos] at h ⊢
  cases hl : loadOs (osmsdl &&& mask24) (osmidl &&& mask16) 0 0 s with
  | overflow t =>
      simp only [hl] at h
      exact absurd h (nomaps_ne cpix)
  | missing t =>
      simp only [hl] at h
      exact absurd h (npmem_ne cpix)
  | all n t =>
      obtain ⟨hregs, hn⟩ := loadOs_all hl
      simp only [hl] at h ⊢
      cases onlyos with
      | false => exact granted_loaduser h
      | true =>
          have hmax : t.maxMap = s.maxMap := by
            unfold maxMap is2787
            rw [hregs]
          show n + 0 ≤ t.maxMap
          omega

/-- **What has been granted** fits in the maps of the model, whenever maps have been loaded. -/
theorem granted_loadMaps {psd2 : ℕ} {lmap : Bool} (hs : s.Granted)
    (h : (s.loadMaps psd2 lmap).1 = .allok) : (s.loadMaps psd2 lmap).2.Granted := by
  simp only [loadMaps] at h ⊢
  split_ifs at h ⊢
  · exact hs
  · exact hs
  · exact granted_loados h
  · exact granted_loaduser h
  · exact absurd h (nomaps_ne _)
  · exact granted_loaduser h
  · exact granted_loados h
  · exact granted_loaduser h
  · exact absurd h (npmem_ne _)

end Sel

end Ka10Simh.Sel32
