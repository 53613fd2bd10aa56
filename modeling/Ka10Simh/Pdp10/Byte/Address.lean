import Ka10Simh.Lib.Iterate
import Ka10Simh.Pdp10.Byte.Pointer

/-!
The address of a byte: the address loop of `sim_instr`, as ILDB and its like enter it.

The word is that of a pointer in memory. Its address is indexed, and while it is indirect another word is
fetched. On the extended KL10 an address has a section, and a word fetched in a section other than zero
has a format of its own. A pointer of two words starts the loop at its second word, one word global
pointers do not enter it.

* `Core.index`, `Core.indirect`: the two halves of the loop, before and after `in_loop`.
* `Core.address`: the loop for a pointer.
* `Core.address_congr`: the address depends on the words it is computed from, `Core.addressReads`.
-/

namespace Ka10Simh.Pdp10

open Word

/-- `sect`, `cur_sect` and `glb_sect`. -/
structure Sects where
  sect : ℕ
  curSect : ℕ
  glb : Bool
  deriving DecidableEq

/-- An address in a section: `AB` and what `Mem_read` looks at besides. -/
structure VAddr where
  ab : ℕ
  sects : Sects
  deriving DecidableEq

/-- `AB = (AB + 1) & RMASK`. -/
def VAddr.next (e : VAddr) : VAddr := { e with ab := (e.ab + 1) &&& rmask }

/-- The words of a machine: the place of an address, and of an accumulator. -/
structure Core (π : Type) where
  mode : ByteMode
  loc : VAddr → π
  acc : ℕ → π

/-- Where the loop is: at its head with a word in `MB`, or at `in_loop` with an address to fetch from. -/
inductive EaPoint
  | word (mb : ℕ) (c : Sects)
  | fetch (ab : ℕ) (c : Sects)

/-- A register that is added to an address without its section. -/
def localIndex (ar : ℕ) : Prop := ar &&& smask ≠ 0 ∨ ar &&& sectm = 0

instance (ar : ℕ) : Decidable (localIndex ar) := inferInstanceAs (Decidable (_ ∨ _))

namespace Core

variable {π : Type} (x : Core π)

/-- The end of the loop, with `AR`, or another word. -/
def again (ind : Bool) (ar : ℕ) (c : Sects) : EaPoint ⊕ Option VAddr :=
  if ind then .inl (.fetch (ar &&& rmask) c) else .inr (some ⟨ar &&& rmask, c⟩)

/-- The first half of the loop, which adds the index. -/
def index (m : π → ℕ) (mb : ℕ) (c : Sects) : EaPoint ⊕ Option VAddr :=
  let ind := tstInd mb
  let ab := mb &&& rmask
  let ix := getXr mb
  if ix = 0 then again ind mb c
  else
    let ar := m (x.acc ix)
    if x.mode.klb ∧ c.curSect ≠ 0 ∧ ¬ localIndex ar then
      let ar := (ar + if ab &&& rsign ≠ 0 then sectm ||| ab else ab) &&& (sectm ||| rmask)
      let sect := ar >>> 18 &&& 0o7777
      again ind (ar &&& fmask) ⟨sect, sect, true⟩
    else again ind ((ab + ar) &&& fmask) { c with glb := false }

/-- The formats of a word fetched in a section: `IFIW`, which may be illegal, and `EFIW`. -/
def ifiw (m : π → ℕ) (mb : ℕ) (c : Sects) : EaPoint ⊕ Option VAddr :=
  if mb &&& bit1 ≠ 0 ∧ c.curSect ≠ 0 then .inr none
  else
    let ab := mb &&& rmask
    if getXr mb = 0 then
      again (tstInd mb) mb (if ab < 0o20 then ⟨1, 1, false⟩ else { c with glb := false })
    else
      let ar := m (x.acc (getXr mb))
      if c.curSect = 0 ∨ localIndex ar then
        again (tstInd mb) ((ar + ab) &&& rmask) { c with glb := false }
      else
        let ar := (ar + ab) &&& fmask
        let sect := ar >>> 18 &&& 0o7777
        again (tstInd mb) ar ⟨sect, sect, true⟩

def efiw (m : π → ℕ) (mb : ℕ) : EaPoint ⊕ Option VAddr :=
  let ix := mb >>> 30 &&& 0o17
  let ab := mb &&& (sectm ||| rmask)
  let ar :=
    if ix = 0 then mb
    else
      let ar := m (x.acc ix)
      (if localIndex ar then ab + (ar &&& rmask)
        else bic ar (sectm ||| rmask) ||| ((ar + ab) &&& (sectm ||| rmask))) &&& fmask
  let sect := ar >>> 18 &&& 0o7777
  again (mb &&& bit1 != 0) ar ⟨sect, sect, true⟩

/-- The second half of the loop, with the word that has been fetched. -/
def indirect (m : π → ℕ) (mb : ℕ) (c : Sects) : EaPoint ⊕ Option VAddr :=
  if x.mode.klb ∧ (c.curSect ≠ 0 ∨ c.glb = true) then
    if mb &&& smask ≠ 0 ∨ c.curSect = 0 then x.ifiw m mb c else x.efiw m mb
  else .inl (.word mb c)

/-- One turn. -/
def turn (m : π → ℕ) : EaPoint → EaPoint ⊕ Option VAddr
  | .word mb c => x.index m mb c
  | .fetch ab c => x.indirect m (m (x.loc ⟨ab, c⟩)) c

/-- What `LDB` and `DPB` know of a byte when they look for its word: `AR`, `SC`, `SCAD`, and whether
they are at `ld_ptr`. -/
structure Field where
  ar : ℕ
  sc : ℕ
  scad : ℕ
  short : Bool

/-- A pointer that starts the loop at its second word, at `ldb_ptr`. -/
def startsFull (f : Field) : Prop :=
  x.mode.klb ∧ f.sc < 36 ∧ x.mode.far ∧ f.ar &&& bit12 ≠ 0

instance (f : Field) : Decidable (x.startsFull f) := inferInstanceAs (Decidable (_ ∧ _))

/-- The first turn, for a pointer in a section. -/
def enter (m : π → ℕ) (c : Sects) (f : Field) (second : ℕ) : EaPoint ⊕ Option VAddr :=
  if f.short then
    .inr (some ⟨f.ar &&& rmask, { c with sect := f.ar >>> 18 &&& 0o7777, glb := true }⟩)
  else if x.startsFull f then x.indirect m second c
  else x.index m f.ar { c with glb := false }

/-- The address of a byte, in so many turns. -/
def address (fuel : ℕ) (m : π → ℕ) (c : Sects) (f : Field) (second : ℕ) : Option VAddr :=
  match (x.enter m c f second).elim (Iterate.run (x.turn m) fuel) .inr with
  | .inl _ => none
  | .inr r => r

/-! ### What an address is computed from -/

/-- The index registers looked at. -/
def regOf (ix : ℕ) : List π := if ix = 0 then [] else [x.acc ix]

def indirectReads (mb : ℕ) (c : Sects) : List π :=
  if x.mode.klb ∧ (c.curSect ≠ 0 ∨ c.glb = true) then
    x.regOf (if mb &&& smask ≠ 0 ∨ c.curSect = 0 then getXr mb else mb >>> 30 &&& 0o17)
  else []

/-- The words looked at in one turn. -/
def turnReads (m : π → ℕ) : EaPoint → List π
  | .word mb _ => x.regOf (getXr mb)
  | .fetch ab c => x.loc ⟨ab, c⟩ :: x.indirectReads (m (x.loc ⟨ab, c⟩)) c

def enterReads (c : Sects) (f : Field) (second : ℕ) : List π :=
  if f.short then []
  else if x.startsFull f then x.indirectReads second c
  else x.regOf (getXr f.ar)

/-- The words looked at, those of the pointer apart. -/
def addressReads (fuel : ℕ) (m : π → ℕ) (c : Sects) (f : Field) (second : ℕ) : List π :=
  x.enterReads c f second ++ (x.enter m c f second).elim
    (Iterate.footprint x.turn x.turnReads m fuel) fun _ => []

variable {x} {m m' : π → ℕ}

lemma regOf_congr {ix : ℕ} (h : ∀ p ∈ x.regOf ix, m' p = m p) (hix : ix ≠ 0) :
    m' (x.acc ix) = m (x.acc ix) := by
  rw [regOf, if_neg hix] at h
  exact h _ (List.mem_singleton_self _)

lemma index_congr {mb : ℕ} {c : Sects} (h : ∀ p ∈ x.regOf (getXr mb), m' p = m p) :
    x.index m' mb c = x.index m mb c := by
  rw [index, index]
  by_cases hix : getXr mb = 0
  · rw [if_pos hix, if_pos hix]
  · rw [if_neg hix, if_neg hix, regOf_congr h hix]

lemma ifiw_congr {mb : ℕ} {c : Sects} (h : ∀ p ∈ x.regOf (getXr mb), m' p = m p) :
    x.ifiw m' mb c = x.ifiw m mb c := by
  simp only [ifiw]
  by_cases hix : getXr mb = 0
  · rw [if_pos hix, if_pos hix]
  · rw [if_neg hix, if_neg hix, regOf_congr h hix]

lemma efiw_congr {mb : ℕ} (h : ∀ p ∈ x.regOf (mb >>> 30 &&& 0o17), m' p = m p) :
    x.efiw m' mb = x.efiw m mb := by
  simp only [efiw]
  by_cases hix : mb >>> 30 &&& 0o17 = 0
  · rw [if_pos hix, if_pos hix]
  · rw [if_neg hix, if_neg hix, regOf_congr h hix]

lemma indirect_congr {mb : ℕ} {c : Sects} (h : ∀ p ∈ x.indirectReads mb c, m' p = m p) :
    x.indirect m' mb c = x.indirect m mb c := by
  rw [indirect, indirect]
  rw [indirectReads] at h
  by_cases hsect : x.mode.klb ∧ (c.curSect ≠ 0 ∨ c.glb = true)
  · rw [if_pos hsect, if_pos hsect]
    rw [if_pos hsect] at h
    by_cases hshort : mb &&& smask ≠ 0 ∨ c.curSect = 0
    · rw [if_pos hshort] at h
      rw [if_pos hshort, if_pos hshort, ifiw_congr h]
    · rw [if_neg hshort] at h
      rw [if_neg hshort, if_neg hshort, efiw_congr h]
  · rw [if_neg hsect, if_neg hsect]

/-- A turn depends on the words it looks at. -/
lemma turn_congr (s : EaPoint) (h : ∀ p ∈ x.turnReads m s, m' p = m p) :
    x.turn m' s = x.turn m s := by
  cases s with
  | word mb c => exact index_congr h
  | fetch ab c =>
      rw [turnReads] at h
      have hword : m' (x.loc ⟨ab, c⟩) = m (x.loc ⟨ab, c⟩) := h _ List.mem_cons_self
      rw [turn, turn, hword]
      exact indirect_congr fun p hp => h p (List.mem_cons_of_mem _ hp)

lemma enter_congr {c : Sects} {f : Field} {second : ℕ}
    (h : ∀ p ∈ x.enterReads c f second, m' p = m p) :
    x.enter m' c f second = x.enter m c f second := by
  rw [enter, enter]
  rw [enterReads] at h
  by_cases hshort : f.short = true
  · rw [if_pos hshort, if_pos hshort]
  · rw [if_neg hshort] at h
    rw [if_neg hshort, if_neg hshort]
    by_cases hfull : x.startsFull f
    · rw [if_pos hfull] at h
      rw [if_pos hfull, if_pos hfull, indirect_congr h]
    · rw [if_neg hfull] at h
      rw [if_neg hfull, if_neg hfull, index_congr h]

/-- **The address of a byte** depends on the words it is computed from. -/
theorem address_congr {fuel : ℕ} {c : Sects} {f : Field} {second : ℕ}
    (h : ∀ p ∈ x.addressReads fuel m c f second, m' p = m p) :
    x.address fuel m' c f second = x.address fuel m c f second := by
  have henter : x.enter m' c f second = x.enter m c f second :=
    enter_congr fun p hp => h p (List.mem_append_left _ hp)
  rw [address, address, henter]
  cases hs : x.enter m c f second with
  | inl s =>
      rw [addressReads, hs] at h
      have hrun : Iterate.run (x.turn m') fuel s = Iterate.run (x.turn m) fuel s :=
        Iterate.run_congr turn_congr fun p hp => h p (List.mem_append_right _ hp)
      simp only [Sum.elim_inl, hrun]
  | inr r => rfl

end Core

end Ka10Simh.Pdp10
