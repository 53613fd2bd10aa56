import Ka10Simh.Pdp10.Byte.Address
import Ka10Simh.Pdp10.Byte.Compose

/-!
Bytes in memory: IDPB and ILDB of `sim_instr`.

The first part of either steps the pointer in memory and sets `BYTI`; the second finds the address in it
and loads or stores the byte. A fault or an interrupt stops the second part, and the instruction is then
executed again without the first.

* `Core.ildb`, `Core.idpb`: the instructions, stopped any number of times.
* `Core.found_eq`: the byte that either finds.
-/

namespace Ka10Simh.Pdp10

open Word Slots

namespace BytePtr

/-- `SC` and `SCAD` after a step. -/
def stepField (x : ByteMode) (b : BytePtr) : ℕ × ℕ :=
  let (pos, sc) := if x.klb ∧ b.p > 36 then byteAdj[b.p - 37]?.getD (0, 0) else (b.p, b.s)
  let scad := stepP pos sc
  (sc, if wraps scad then stepP 0o44 sc else scad)

/-- A pointer that has its address in a second word. -/
def Double (x : ByteMode) (b : BytePtr) : Prop := ¬ Short x b ∧ b.isFull x = true

instance (x : ByteMode) (b : BytePtr) : Decidable (Double x b) := inferInstanceAs (Decidable (_ ∧ _))

end BytePtr

/-- The memory, and `BYTI`. -/
structure ByteState (π : Type) where
  mem : π → ℕ
  byti : Bool := false

namespace Core

open BytePtr

variable {π : Type} [DecidableEq π] (x : Core π)

/-! ### The source -/

/-- The pointer at an address. -/
def pointerAt (e : VAddr) (m : π → ℕ) : BytePtr :=
  let b : BytePtr := ⟨m (x.loc e), 0⟩
  if Double x.mode b then { b with second := m (x.loc e.next) } else b

/-- Store a pointer: the second word first. -/
def storePointer (e : VAddr) (b : BytePtr) (m : π → ℕ) : π → ℕ :=
  let m := if Double x.mode b then Function.update m (x.loc e.next) b.second else m
  Function.update m (x.loc e) b.first

/-- The first part, or `LDB` and `DPB` when `BYTI` is set. -/
def firstPart (e : VAddr) (s : ByteState π) : Option (Field × (π → ℕ)) :=
  let b := x.pointerAt e s.mem
  if s.byti then
    if Short x.mode b ∧ b.p = 0o77 then none
    else some (⟨b.first, b.size x.mode, b.pos x.mode, decide (Short x.mode b)⟩, s.mem)
  else
    (b.ibp x.mode).map fun b' =>
      (⟨b'.first, (b.stepField x.mode).1, (b.stepField x.mode).2, decide (Short x.mode b)⟩,
        x.storePointer e b' s.mem)

/-- The second part is stopped. -/
def stopped (e : VAddr) (s : ByteState π) : Option (ByteState π) :=
  (x.firstPart e s).map fun (_, mem) => { mem, byti := true }

/-- An instruction that is stopped so many times, up to the word of its byte. -/
def found (fuel : ℕ) (e : VAddr) : ℕ → ByteState π → Option (Field × VAddr × (π → ℕ))
  | 0, s => do
      let (f, mem) ← x.firstPart e s
      let r ← x.address fuel mem e.sects f (mem (x.loc e.next))
      return (f, r, mem)
  | n + 1, s => do
      let s ← x.stopped e s
      found fuel e n s

/-- `ILDB`, into an accumulator. -/
def ildb (fuel : ℕ) (e : VAddr) (a stops : ℕ) (m : π → ℕ) : Option (π → ℕ) := do
  let (f, r, mem) ← x.found fuel e stops { mem := m }
  let mq := 2 ^ f.sc - 1
  return Function.update mem (x.acc a) (mem (x.loc r) >>> f.scad &&& mq)

/-- `IDPB`, from an accumulator. -/
def idpb (fuel : ℕ) (e : VAddr) (a stops : ℕ) (m : π → ℕ) : Option (π → ℕ) := do
  let (f, r, mem) ← x.found fuel e stops { mem := m }
  let br := mem (x.acc a) <<< f.scad % 2 ^ 64
  let mq := (2 ^ f.sc - 1) <<< f.scad % 2 ^ 64
  let ar := mem (x.loc r) &&& (fmask ^^^ mq)
  return Function.update mem (x.loc r) ((ar ||| (br &&& mq)) &&& fmask)

/-- Values deposited, each put into the accumulator before it is; each instruction is stopped so many
times. -/
def idpbs (fuel : ℕ) (e : VAddr) (a : ℕ) : List (ℕ × ℕ) → (π → ℕ) → Option (π → ℕ)
  | [], m => some m
  | (v, stops) :: vs, m => do
      let m ← x.idpb fuel e a stops (Function.update m (x.acc a) v)
      idpbs fuel e a vs m

/-- The bytes loaded. -/
def ildbs (fuel : ℕ) (e : VAddr) (a : ℕ) : List ℕ → (π → ℕ) → Option (List ℕ)
  | [], _ => some []
  | stops :: rest, m => do
      let m ← x.ildb fuel e a stops m
      let bytes ← ildbs fuel e a rest m
      return m (x.acc a) :: bytes

end Core

open BytePtr

/-! ### Pointers in memory -/

namespace BytePtr

variable {x : ByteMode} {b : BytePtr} {t : Slot}

/-- Whether a pointer has two words is in its first. -/
lemma double_congr {b' : BytePtr} (h : b.first = b'.first) : Double x b ↔ Double x b' := by
  have hp : b.p = b'.p := by rw [p, p, h]
  rw [Double, Double, Short, Short, isFull, isFull, hp, h]

lemma place_double (h : Valid x b) (hk : t.byte ≤ b.per x) :
    Double x (b.place x t) ↔ Double x b := by
  rw [Double, Double, place_short h hk]
  exact and_congr_right fun hshort => by rw [place_isFull hshort]

lemma place_second_of_not_double (hdouble : ¬ Double x b) :
    (b.place x t).second = b.second := by
  rw [place]
  by_cases hshort : Short x b
  · rw [if_pos hshort]
  · rw [if_neg hshort, if_neg fun hfull => hdouble ⟨hshort, hfull⟩]

/-- The size and the position that a step leaves are those of the pointer. -/
lemma stepField_eq (h : Valid x b) :
    b.stepField x = (b.size x, 36 - (next (b.per x) ⟨0, b.byte x⟩).byte * b.size x) := by
  have hpos_le := h.pos_le
  have hsize_le := h.size_le
  have hunit : (if x.klb = true ∧ b.p > 36 then byteAdj[b.p - 37]?.getD (0, 0) else (b.p, b.s))
      = (b.pos x, b.size x) := rfl
  have hbyte := h.byte_lt_iff
  have hwraps := wraps_stepP hpos_le hsize_le
  rw [stepField, hunit]
  simp only [next]
  by_cases hlt : b.pos x < b.size x
  · have hlast : ¬ b.byte x < b.per x := by omega
    rw [if_pos (hwraps.mpr hlt), if_neg hlast, stepP_eq hsize_le, Prod.mk.injEq]
    refine ⟨rfl, ?_⟩
    show (36 + 512 - b.size x) % 512 = 36 - 1 * b.size x
    lia
  · have hnext := h.next_pos (Nat.le_of_not_lt hlt)
    rw [if_neg (hwraps.not.mpr hlt), if_pos (hbyte.mpr (Nat.le_of_not_lt hlt)), hnext,
      stepP_eq hsize_le, Prod.mk.injEq]
    omega

end BytePtr

namespace Core

variable {π : Type} {x : Core π} {e : VAddr} {b : BytePtr} {m m' : π → ℕ}

/-- The words of a pointer. -/
def places (x : Core π) (e : VAddr) (b : BytePtr) : List π :=
  x.loc e :: if Double x.mode b then [x.loc e.next] else []

/-- The byte a pointer is at. -/
def Field.of (x : Core π) (b : BytePtr) : Field :=
  ⟨b.first, b.size x.mode, b.pos x.mode, decide (Short x.mode b)⟩

lemma pointerAt_first (e : VAddr) (m : π → ℕ) : (x.pointerAt e m).first = m (x.loc e) := by
  rw [pointerAt]
  split_ifs <;> rfl

lemma pointerAt_eq (e : VAddr) (m : π → ℕ) : x.pointerAt e m
    = ⟨m (x.loc e), if Double x.mode (x.pointerAt e m) then m (x.loc e.next) else 0⟩ := by
  have hdouble : Double x.mode (x.pointerAt e m) ↔ Double x.mode ⟨m (x.loc e), 0⟩ :=
    double_congr (pointerAt_first e m)
  rw [if_congr hdouble rfl rfl, pointerAt]
  split_ifs <;> rfl

/-- The pointer found at an address, from its words. -/
lemma pointerAt_of (hfirst : m (x.loc e) = b.first)
    (hsecond : b.second = if Double x.mode b then m (x.loc e.next) else 0) :
    x.pointerAt e m = b := by
  have hdouble : Double x.mode (x.pointerAt e m) ↔ Double x.mode b :=
    double_congr ((pointerAt_first e m).trans hfirst)
  rw [pointerAt_eq, if_congr hdouble rfl rfl, ← hsecond, hfirst]

lemma pointerAt_second (h : x.pointerAt e m = b) :
    b.second = if Double x.mode b then m (x.loc e.next) else 0 := by
  subst h
  exact congrArg second (pointerAt_eq e m)

/-- A pointer is in its words. -/
lemma pointerAt_congr (h : x.pointerAt e m = b) (hwords : ∀ p ∈ x.places e b, m' p = m p) :
    x.pointerAt e m' = b := by
  have hfirst := pointerAt_first (x := x) e m
  refine pointerAt_of ?_ ?_
  · rw [hwords _ List.mem_cons_self, ← hfirst, h]
  · rw [pointerAt_second h]
    split_ifs with hdouble
    · rw [hwords (x.loc e.next) (by simp [places, hdouble])]
    · rfl

/-- The second word does not count when the pointer does not have it. -/
lemma address_second (hdouble : ¬ Double x.mode b) (fuel : ℕ) (m : π → ℕ) (c : Sects)
    (second second' : ℕ) :
    x.address fuel m c (Field.of x b) second = x.address fuel m c (Field.of x b) second' := by
  have henter : x.enter m c (Field.of x b) second = x.enter m c (Field.of x b) second' := by
    rw [enter, enter]
    by_cases hshort : (Field.of x b).short = true
    · rw [if_pos hshort, if_pos hshort]
    · have hfull : ¬ x.startsFull (Field.of x b) := by
        rintro ⟨hklb, -, hfar, hbit⟩
        refine hdouble ⟨fun h => hshort (decide_eq_true h), ?_⟩
        rw [isFull, hklb, hfar, Bool.and_self, Bool.true_and, bne_iff_ne]
        exact hbit
      rw [if_neg hshort, if_neg hshort, if_neg hfull, if_neg hfull]
  rw [address, address, henter]

variable [DecidableEq π]

lemma storePointer_of_not_mem {p : π} (hp : p ∉ x.places e b) (m : π → ℕ) :
    x.storePointer e b m p = m p := by
  rw [places, List.mem_cons, not_or] at hp
  simp only [storePointer]
  rw [Function.update_of_ne hp.1]
  split_ifs with hdouble
  · rw [if_pos hdouble, List.mem_singleton] at hp
    exact Function.update_of_ne hp.2 _ _
  · rfl

/-- A pointer that has been stored is there. -/
lemma pointerAt_storePointer (hnodup : (x.places e b).Nodup)
    (hsecond : ¬ Double x.mode b → b.second = 0) (m : π → ℕ) :
    x.pointerAt e (x.storePointer e b m) = b := by
  refine pointerAt_of (Function.update_self _ _ _) ?_
  split_ifs with hdouble
  · rw [places, if_pos hdouble] at hnodup
    have hne : x.loc e.next ≠ x.loc e := by
      intro heq
      simp [heq] at hnodup
    rw [storePointer, if_pos hdouble, Function.update_of_ne hne, Function.update_self]
  · exact hsecond hdouble

/-! ### One instruction -/

/-- The first part, done before. -/
lemma firstPart_again (h : Valid x.mode (x.pointerAt e m)) :
    x.firstPart e ⟨m, true⟩ = some (Field.of x (x.pointerAt e m), m) := by
  have hcode : ¬ (Short x.mode (x.pointerAt e m) ∧ (x.pointerAt e m).p = 0o77) := by
    rintro ⟨hshort, hp⟩
    have hfound := (h.entry hshort).found
    rw [hp] at hfound
    exact absurd hfound (by simp [byteAdj])
  simp only [firstPart, if_neg hcode, if_true]
  rfl

/-- The first part, for a pointer that is then at a byte. -/
lemma firstPart_fresh (h : Valid x.mode b) (hptr : x.pointerAt e m = b)
    {t : Slot} (ht : t.byte = (next (b.per x.mode) ⟨0, b.byte x.mode⟩).byte)
    (hk : t.byte ≤ b.per x.mode) (hstep : b.ibp x.mode = some (b.place x.mode t)) :
    x.firstPart e ⟨m, false⟩
      = some (Field.of x (b.place x.mode t), x.storePointer e (b.place x.mode t) m) := by
  have hfield : (⟨(b.place x.mode t).first, (b.stepField x.mode).1, (b.stepField x.mode).2,
      decide (Short x.mode b)⟩ : Field) = Field.of x (b.place x.mode t) := by
    rw [stepField_eq h, ← ht, Field.of, place_size h hk, place_pos_eq h hk,
      decide_eq_decide.mpr (place_short h hk)]
  simp only [firstPart, hptr, hstep, Option.map_some, hfield]
  rfl

/-- An instruction goes on with its second part however often it is stopped. -/
lemma found_again (fuel : ℕ) (h : Valid x.mode (x.pointerAt e m)) (n : ℕ) :
    x.found fuel e n ⟨m, true⟩
      = (x.address fuel m e.sects (Field.of x (x.pointerAt e m)) (m (x.loc e.next))).map
          fun r => (Field.of x (x.pointerAt e m), r, m) := by
  induction n with
  | zero =>
      rw [found, firstPart_again h, Option.map_eq_bind]
      rfl
  | succ n ih =>
      rw [found, stopped, firstPart_again h]
      exact ih

/-- **One instruction** finds the byte its pointer is then at, however often it is stopped. -/
theorem found_eq (fuel : ℕ) (h : Valid x.mode b) (hptr : x.pointerAt e m = b)
    {t : Slot} (ht : t.byte = (next (b.per x.mode) ⟨0, b.byte x.mode⟩).byte)
    (hk : t.byte ≤ b.per x.mode) (hstep : b.ibp x.mode = some (b.place x.mode t))
    (hnodup : (x.places e (b.place x.mode t)).Nodup) (n : ℕ) :
    let b' := b.place x.mode t
    x.found fuel e n ⟨m, false⟩
      = (x.address fuel (x.storePointer e b' m) e.sects (Field.of x b') b'.second).map
          fun r => (Field.of x b', r, x.storePointer e b' m) := by
  intro b'
  have hsecond : ¬ Double x.mode b' → b'.second = 0 := by
    intro hdouble
    have hnot : ¬ Double x.mode b := mt (place_double h hk).mpr hdouble
    rw [place_second_of_not_double hnot, pointerAt_second hptr, if_neg hnot]
  have hstored : x.pointerAt e (x.storePointer e b' m) = b' :=
    pointerAt_storePointer hnodup hsecond m
  have haddress : x.address fuel (x.storePointer e b' m) e.sects (Field.of x b')
        (x.storePointer e b' m (x.loc e.next))
      = x.address fuel (x.storePointer e b' m) e.sects (Field.of x b') b'.second := by
    by_cases hdouble : Double x.mode b'
    · rw [pointerAt_second hstored, if_pos hdouble]
    · exact address_second hdouble _ _ _ _ _
  have hfirst := firstPart_fresh h hptr ht hk hstep
  cases n with
  | zero =>
      rw [found, hfirst, ← haddress, Option.map_eq_bind]
      rfl
  | succ n =>
      have hvalid : Valid x.mode (x.pointerAt e (x.storePointer e b' m)) := by
        rw [hstored]
        exact place_valid h hk
      have hrest := found_again fuel hvalid n
      rw [hstored, haddress] at hrest
      rw [found, stopped, hfirst]
      exact hrest

end Core

end Ka10Simh.Pdp10
