import Ka10Simh.Pdp10.Rp.Service

/-!
What comes of the service of a drive, on any controller.

* `Waiting`, `Ctl`, `Lawful`: a controller that may hold back a second command, and what its functions do to the
  drives: nothing, but for the second command that is started when the first one ends.
* `Moved`: one drive has changed, and nothing else that is looked at.
* `Rules`: a property of the drives that is kept by all that a service does to them.
* `service_outcome`: a service lets its drive go on, or ends in `rh_setattn`, `rh_setirq` or `rh_finish_op`.
-/

namespace Ka10Simh.Pdp10.Rp

open DataChannel (Dir)

/-! ### Controllers -/

/-- A command that waits: the drive, the word for its control register, and the address, if one has been given. -/
structure Waiting where
  drive : ℕ
  data : ℕ
  addr : Option ℕ

/-- The command is given to its drive. -/
def Waiting.launch (w : Waiting) (b : Bank) : Bank :=
  let b := match w.addr with
    | some addr => (b.write w.drive 0o5 addr).2
    | none => b
  (b.write w.drive 0 w.data).2

/-- A controller with the command that waits, `BUSY`, the drive of its transfer, and the interrupt. -/
structure Ctl (σ : Type) extends Port σ where
  waits : σ → Option Waiting
  busy : σ → Bool
  xferDrive : σ → ℕ
  requested : σ → Prop

/-- A drive that asks for attention. -/
def Bank.attend (d : ℕ) (b : Bank) : Bank := { b with attn := b.attn ||| 1 <<< d }

namespace Ctl

variable {σ : Type} (p : Ctl σ)

/-- Nothing is seen of a step, or nothing but on the drives. -/
structure Same (s t : σ) : Prop where
  waits : p.waits t = p.waits s
  busy : p.busy t = p.busy s
  xferDrive : p.xferDrive t = p.xferDrive s

structure Quiet (s t : σ) : Prop extends p.Same s t where
  bank : p.bank t = p.bank s

/-- The command that waits is started. Its drive is not at work. -/
def Launched (s t : σ) : Prop :=
  ∃ w, p.waits s = some w ∧ ((p.unit w.drive s).att = true → (p.unit w.drive s).dis = false →
    (p.unit w.drive s).go = false) ∧
    p.waits t = none ∧ p.busy t = true ∧ p.xferDrive t = w.drive ∧ p.bank t = w.launch (p.bank s)

/-- What a word that is not moved may come with: the transfer may be over, and the command that waits started. -/
def Stops (s t : σ) : Prop :=
  p.bank t = p.bank s ∧ p.waits t = p.waits s ∧ p.xferDrive t = p.xferDrive s ∧ (p.busy t = p.busy s ∨ p.busy t = false)
    ∨ p.Launched s t

/-- The end of a transfer. -/
def Ends (s t : σ) : Prop :=
  p.requested t ∧ (p.bank t = p.bank s ∧ p.waits t = p.waits s ∧ p.busy t = false ∨ p.Launched s t)

/-- What the functions of a controller do to its drives. -/
structure Lawful : Prop where
  bank_setBank : ∀ b s, p.bank (p.setBank b s) = b
  same_setBank : ∀ b s, p.Same s (p.setBank b s)
  setBuf : ∀ w s, p.Quiet s (p.setBuf w s)
  bank_setattn : ∀ d s, p.bank (p.setattn d s) = (p.bank s).attend d
  same_setattn : ∀ d s, p.Same s (p.setattn d s)
  setirq : ∀ s, p.Quiet s (p.setirq s)
  blkend : ∀ s, p.Quiet s (p.blkend s).2
  moved : ∀ dir s t, p.transfer dir s = some (true, t) → p.Quiet s t
  stopped : ∀ dir s t, p.transfer dir s = some (false, t) → p.Stops s t
  finishOp : ∀ s, p.Ends s (p.finishOp s)

/-! ### One drive -/

/-- A drive has become `u`. -/
structure Moved (d : ℕ) (u : Drive) (s t : σ) : Prop extends p.Same s t where
  units : (p.bank t).units = Function.update (p.bank s).units d u
  attn : (p.bank t).attn = (p.bank s).attn

variable {p} {s t v : σ} {d : ℕ} {u : Drive}

lemma Same.refl (s : σ) : p.Same s s := ⟨rfl, rfl, rfl⟩

lemma Same.trans (h : p.Same s t) (h' : p.Same t v) : p.Same s v :=
  ⟨h'.waits.trans h.waits, h'.busy.trans h.busy, h'.xferDrive.trans h.xferDrive⟩

lemma Moved.refl (d : ℕ) (s : σ) : p.Moved d (p.unit d s) s s :=
  ⟨Same.refl s, (Function.update_eq_self d _).symm, rfl⟩

lemma Moved.unit (h : p.Moved d u s t) : p.unit d t = u := by
  rw [Port.unit, h.units, Function.update_self]

lemma Moved.other (h : p.Moved d u s t) {i : ℕ} (hi : i ≠ d) : p.unit i t = p.unit i s := by
  rw [Port.unit, h.units, Function.update_of_ne hi]
  rfl

lemma Moved.quiet (h : p.Moved d u s t) (hq : p.Quiet t v) : p.Moved d u s v :=
  ⟨h.toSame.trans hq.toSame, by rw [hq.bank, h.units], by rw [hq.bank, h.attn]⟩

section Lawful

variable (hp : p.Lawful)
include hp

lemma Moved.modify (h : p.Moved d u s t) (f : Drive → Drive) : p.Moved d (f u) s (p.modify d f t) := by
  refine ⟨h.toSame.trans (hp.same_setBank _ t), ?_, ?_⟩
  · rw [Port.modify, hp.bank_setBank, Bank.put, h.unit]
    dsimp only
    rw [h.units, Function.update_idem]
  · rw [Port.modify, hp.bank_setBank, Bank.put]
    exact h.attn

/-- The buffer of the sector is not looked at. -/
lemma Moved.buffer (h : p.Moved d u s t) (f : ℕ → ℕ) : p.Moved d u s (p.setBank { p.bank t with rpBuf := f } t) := by
  refine ⟨h.toSame.trans (hp.same_setBank _ t), ?_, ?_⟩
  · rw [hp.bank_setBank]
    exact h.units
  · rw [hp.bank_setBank]
    exact h.attn

lemma Moved.putWord (h : p.Moved d u s t) (i w : ℕ) : p.Moved d u s (p.putWord i w t) := h.buffer hp _

lemma Moved.putWords (h : p.Moved d u s t) (dataptr : ℕ) (is : List ℕ) :
    p.Moved d u s (is.foldl (fun t i ↦ if dataptr ≤ i then p.putWord i 0 t else t) t) := by
  induction is generalizing t with
  | nil => exact h
  | cons i is ih =>
      rw [List.foldl_cons]
      split_ifs with hi
      · exact ih (h.putWord hp i 0)
      · exact ih h

lemma Moved.loadSector (h : p.Moved d u s t) : p.Moved d u s (p.loadSector d t) := h.buffer hp _

lemma Moved.fillZeros (h : p.Moved d u s t) : p.Moved d (u.point (max u.dataptr numwd)) s (p.fillZeros d t) := by
  rw [Port.fillZeros, h.unit]
  exact (h.putWords hp u.dataptr _).modify hp (Drive.point _)

end Lawful

end Ctl

/-! ### What is kept -/

/-- What a command looks at when it is given: the drive is there and attached, and the address it stands at. -/
def Drive.place (u : Drive) : Bool × Bool × DType × ℕ × ℕ := (u.dis, u.att, u.dtype, u.da, u.dc)

/-- The next sector is that of the place. -/
lemma nextSector_place {u v : Drive} (h : u.place = v.place) : u.nextSector.place = v.nextSector.place := by
  obtain ⟨hdis, hatt, htype, hda, hdc⟩ : u.dis = v.dis ∧ u.att = v.att ∧ u.dtype = v.dtype ∧ u.da = v.da ∧ u.dc = v.dc := by
    simpa [Drive.place] using h
  simp only [Drive.place, Drive.nextSector, Drive.typ, hdis, hatt, htype, hda, hdc]

/-- A property `K` of the drives and of `attn` that depends on the attention only, is kept when a drive asks for it,
and is kept by a waiting command that is good, `Q`, for the place of its drive. -/
structure Rules (Q : Waiting → Drive → Prop) (K : Bank → Prop) : Prop where
  place : ∀ {w u v}, u.place = v.place → Q w u → Q w v
  congr : ∀ {b c : Bank}, (∀ i, (c.units i).ds.ata = (b.units i).ds.ata) → c.attn = b.attn → K b → K c
  attend : ∀ {b c : Bank} {d : ℕ}, (∀ i, (c.units i).ds.ata = if i = d then true else (b.units i).ds.ata) →
    c.attn = b.attn ||| 1 <<< d → K b → K c
  launch : ∀ {w b}, ((b.units w.drive).att = true → (b.units w.drive).dis = false → (b.units w.drive).go = false) →
    Q w (b.units w.drive) → K b → K (w.launch b)

namespace Ctl

variable {σ : Type} (p : Ctl σ) (Q : Waiting → Drive → Prop) (K : Bank → Prop)

/-- The property holds, and the command that waits is good; it is good after the next sector of a drive, too. -/
structure Holds (s : σ) : Prop where
  keeps : K (p.bank s)
  good : ∀ w, p.waits s = some w → Q w (p.unit w.drive s)

def Ahead (d : ℕ) (s : σ) : Prop := ∀ w, p.waits s = some w → w.drive = d → Q w (p.unit d s).nextSector

variable {p Q K} {s t v : σ} {d : ℕ} {u : Drive}

lemma Holds.moved (hr : Rules Q K) (h : p.Holds Q K s) (hm : p.Moved d u s t) (hplace : (p.unit d s).place = u.place)
    (hata : u.ds.ata = (p.unit d s).ds.ata) : p.Holds Q K t := by
  refine ⟨hr.congr (fun i ↦ ?_) hm.attn h.keeps, fun w hw ↦ ?_⟩
  · rw [hm.units]
    rcases eq_or_ne i d with rfl | hi
    · rw [Function.update_self, hata]
      rfl
    · rw [Function.update_of_ne hi]
  · rw [hm.waits] at hw
    have hgood := h.good w hw
    rcases eq_or_ne w.drive d with hd | hd
    · rw [hd] at hgood ⊢
      rw [hm.unit]
      exact hr.place hplace hgood
    · rwa [hm.other hd]

/-- The same when the drive has gone to the next sector. -/
lemma Ahead.moved (hr : Rules Q K) (hahead : p.Ahead Q d s) (h : p.Holds Q K s) (hm : p.Moved d u s t)
    (hplace : (p.unit d s).nextSector.place = u.place) (hata : u.ds.ata = (p.unit d s).ds.ata) : p.Holds Q K t := by
  refine ⟨hr.congr (fun i ↦ ?_) hm.attn h.keeps, fun w hw ↦ ?_⟩
  · rw [hm.units]
    rcases eq_or_ne i d with rfl | hi
    · rw [Function.update_self, hata]
      rfl
    · rw [Function.update_of_ne hi]
  · rw [hm.waits] at hw
    rcases eq_or_ne w.drive d with hd | hd
    · have hgood := hahead w hw hd
      rw [hd, hm.unit]
      exact hr.place hplace hgood
    · rw [hm.other hd]
      exact h.good w hw

lemma Ahead.same (hr : Rules Q K) (hahead : p.Ahead Q d s) (hwaits : p.waits t = p.waits s)
    (hplace : (p.unit d s).place = (p.unit d t).place) : p.Ahead Q d t := by
  intro w hw hd
  rw [hwaits] at hw
  exact hr.place (nextSector_place hplace) (hahead w hw hd)

lemma Holds.quiet (h : p.Holds Q K s) (hq : p.Quiet s t) : p.Holds Q K t := by
  refine ⟨by rw [hq.bank]; exact h.keeps, fun w hw ↦ ?_⟩
  rw [hq.waits] at hw
  rw [Port.unit, hq.bank]
  exact h.good w hw

lemma Holds.launched (hr : Rules Q K) (h : p.Holds Q K s) (hl : p.Launched s t) : p.Holds Q K t := by
  obtain ⟨w, hw, hgo, hnone, -, -, hbank⟩ := hl
  refine ⟨?_, fun w' hw' ↦ by rw [hnone] at hw'; cases hw'⟩
  rw [hbank]
  exact hr.launch hgo (h.good w hw) h.keeps

lemma Holds.stops (hr : Rules Q K) (h : p.Holds Q K s) (hs : p.Stops s t) : p.Holds Q K t := by
  obtain ⟨hbank, hwaits, -⟩ | hl := hs
  · refine ⟨by rw [hbank]; exact h.keeps, fun w hw ↦ ?_⟩
    rw [hwaits] at hw
    rw [Port.unit, hbank]
    exact h.good w hw
  · exact h.launched hr hl

lemma Holds.ends (hr : Rules Q K) (h : p.Holds Q K s) (he : p.Ends s t) : p.Holds Q K t := by
  obtain ⟨-, ⟨hbank, hwaits, hbusy⟩ | hl⟩ := he
  · refine ⟨by rw [hbank]; exact h.keeps, fun w hw ↦ ?_⟩
    rw [hwaits] at hw
    rw [Port.unit, hbank]
    exact h.good w hw
  · exact h.launched hr hl

/-! ### Ends -/

section Service

variable (hp : p.Lawful) (hr : Rules Q K)
include hp hr

lemma rdEnd_ends (h : p.Holds Q K s) : ∃ v, p.Holds Q K v ∧ p.rdEnd d s = p.finishOp v := by
  have hm := (Moved.refl d s).modify hp fun u ↦ { u with go := false, ds := { u.ds with pip := false, dry := true } }
  have hv := h.moved hr hm rfl rfl
  rw [Port.rdEnd]
  split_ifs with hfull
  · exact ⟨_, hv.quiet (hp.blkend _), rfl⟩
  · exact ⟨_, hv, rfl⟩

lemma wrEnd_ends (h : p.Holds Q K s) : ∃ v, p.Holds Q K v ∧ p.wrEnd d s = p.finishOp v :=
  ⟨_, h.moved hr ((Moved.refl d s).modify hp fun u ↦ { u with go := false, ds := { u.ds with dry := true } }) rfl rfl, rfl⟩

end Service

end Ctl

/-! ### Seeks -/

/-- The way that is left to the heads. -/
def Drive.way (u : Drive) : ℕ := getCy u.dc - (u.ccyl &&& 0o1777) + ((u.ccyl &&& 0o1777) - getCy u.dc)

lemma seekStep_some {u v : Drive} (h : Port.seekStep (getCy u.dc) u = some v) :
    ∃ ccyl, v = { u with ccyl := ccyl } ∧ v.way < u.way := by
  have hmod : ∀ x, x &&& 0o1777 = x % 1024 := fun x ↦ Nat.and_two_pow_sub_one_eq_mod x 10
  have hcy : getCy u.dc < 1024 := by
    rw [getCy, hmod]
    exact Nat.mod_lt _ (by decide)
  rw [Port.seekStep, hmod] at h
  dsimp only at h
  generalize hc : getCy u.dc = cyl at h hcy
  split_ifs at h <;> obtain ⟨rfl⟩ := h <;> refine ⟨_, rfl, ?_⟩ <;> rw [Drive.way, Drive.way, hmod, hmod, hc] <;>
    dsimp only <;> lia

lemma seekStep_none {cyl : ℕ} {u : Drive} (h : Port.seekStep cyl u = none) : u.ccyl &&& 0o1777 = cyl := by
  rw [Port.seekStep] at h
  dsimp only at h
  split_ifs at h with hlt hgt
  omega

/-! ### Words -/

/-- A drive after its word `n`: behind the last one of a sector it stands at the next sector. -/
def Drive.afterWord (n : ℕ) (u : Drive) : Drive :=
  if n + 1 = numwd then (u.point (n + 1)).emptied.nextSector.scheduled else (u.point (n + 1)).scheduled

/-- A drive with a sector in the buffer. -/
def Drive.buffered (u : Drive) : Drive := if u.bufEmpty = true then u.filled else u

namespace Ctl

variable {σ : Type} {p : Ctl σ} {Q : Waiting → Drive → Prop} {K : Bank → Prop} {s s' t : σ} {d : ℕ} {u : Drive}

/-- What comes of a word: the drive goes on, or the transfer ends. -/
def GoesOn (p : Ctl σ) (Q : Waiting → Drive → Prop) (K : Bank → Prop) (d n : ℕ) (u : Drive) (s t : σ) : Prop :=
  (∃ img, p.Moved d ({ u with img := img }.afterWord n) s t) ∨ ∃ v, p.Holds Q K v ∧ t = p.finishOp v

section Service

variable (hp : p.Lawful) (hr : Rules Q K)
include hp hr

/-- The step behind a word that has been read. -/
lemma readOn_outcome {n : ℕ} (h : p.Holds Q K s) (hahead : p.Ahead Q d s) (hm : p.Moved d (u.point (n + 1)) s s')
    (hplace : (p.unit d s).place = u.place) (hata : u.ds.ata = (p.unit d s).ds.ata) :
    p.GoesOn Q K d n u s (p.readOn d s') := by
  have hblk := ((hm.modify hp Drive.emptied).modify hp Drive.nextSector).quiet (hp.blkend _)
  rw [Port.readOn, hm.unit]
  split_ifs with hfull
  · dsimp only
    split_ifs with hended
    · exact .inr (rdEnd_ends hp hr (hahead.moved hr h hblk (nextSector_place hplace) hata))
    · refine .inl ⟨u.img, ?_⟩
      rw [Drive.afterWord, if_pos (show n + 1 = numwd from hfull)]
      exact hblk.modify hp Drive.scheduled
  · refine .inl ⟨u.img, ?_⟩
    rw [Drive.afterWord, if_neg (show n + 1 ≠ numwd from hfull)]
    exact hm.modify hp Drive.scheduled

/-- A word that is read. The drive has become `u`, which stands where it stood. -/
lemma readWord_outcome (h : p.Holds Q K s) (hahead : p.Ahead Q d s) (hm : p.Moved d u s s')
    (hplace : (p.unit d s).place = u.place) (hata : u.ds.ata = (p.unit d s).ds.ata)
    (ht : p.readWord d s' = some t) : p.GoesOn Q K d u.dataptr u s t := by
  rw [Port.readWord, hm.unit] at ht
  obtain ⟨⟨more, v⟩, hv, rfl⟩ := Option.map_eq_some_iff.mp ht
  have hword := (hm.quiet (hp.setBuf ((p.bank s').rpBuf u.dataptr) s')).modify hp (Drive.point (u.dataptr + 1))
  cases more with
  | false => exact .inr (rdEnd_ends hp hr ((h.moved hr hword hplace hata).stops hr (hp.stopped _ _ _ hv)))
  | true => exact readOn_outcome hp hr h hahead (hword.quiet (hp.moved _ _ _ hv)) hplace hata

/-- The end of a transfer that writes. -/
lemma writeOn_ends (h : p.Holds Q K s) : ∃ v, p.Holds Q K v ∧ p.writeOn d false s = p.finishOp v := by
  have hm := ((Moved.refl d s).modify hp fun u ↦ u.store ((List.range numwd).map (p.bank s).rpBuf)).modify hp Drive.emptied
  have hstored := (h.moved hr hm rfl rfl).quiet (hp.blkend _)
  simp only [Port.writeOn, Bool.false_eq_true, if_false, ite_self]
  split_ifs with hfull
  · exact wrEnd_ends hp hr hstored
  · exact wrEnd_ends hp hr h

/-- The step behind a word that has been written. -/
lemma writeOn_outcome {n : ℕ} (h : p.Holds Q K s) (hahead : p.Ahead Q d s) (hm : p.Moved d (u.point (n + 1)) s s')
    (hplace : (p.unit d s).place = u.place) (hata : u.ds.ata = (p.unit d s).ds.ata) :
    p.GoesOn Q K d n u s (p.writeOn d true s') := by
  have hstored := (hm.modify hp fun u ↦ u.store ((List.range numwd).map (p.bank s').rpBuf)).modify hp Drive.emptied
  have hblk := (hstored.modify hp Drive.nextSector).quiet (hp.blkend _)
  simp only [Port.writeOn, if_true, hm.unit]
  split_ifs with hfull hended
  · exact .inr (wrEnd_ends hp hr (hahead.moved hr h hblk (nextSector_place hplace) hata))
  · refine .inl ⟨((u.point (n + 1)).store ((List.range numwd).map (p.bank s').rpBuf)).img, ?_⟩
    rw [Drive.afterWord, if_pos (show n + 1 = numwd from hfull)]
    exact hblk.modify hp Drive.scheduled
  · refine .inl ⟨u.img, ?_⟩
    rw [Drive.afterWord, if_neg (show n + 1 ≠ numwd from hfull)]
    exact hm.modify hp Drive.scheduled

/-- A word that is written. -/
lemma writeWord_outcome (h : p.Holds Q K s) (hahead : p.Ahead Q d s) (hm : p.Moved d u s s')
    (hplace : (p.unit d s).place = u.place) (hata : u.ds.ata = (p.unit d s).ds.ata)
    (ht : p.writeWord d s' = some t) : p.GoesOn Q K d u.dataptr u s t := by
  rw [Port.writeWord] at ht
  obtain ⟨⟨more, v⟩, hv, rfl⟩ := Option.map_eq_some_iff.mp ht
  cases more with
  | false =>
      have hstop := (h.moved hr hm hplace hata).stops hr (hp.stopped _ _ _ hv)
      have hword := ((Moved.refl d v).putWord hp (p.unit d v).dataptr (p.buf v)).modify hp
        (Drive.point ((p.unit d v).dataptr + 1))
      exact .inr (writeOn_ends hp hr (hstop.moved hr (hword.fillZeros hp) rfl rfl))
  | true =>
      have hmore := hm.quiet (hp.moved _ _ _ hv)
      obtain rfl := hmore.unit
      exact writeOn_outcome hp hr h hahead ((hmore.putWord hp _ (p.buf v)).modify hp (Drive.point _)) hplace hata

/-! ### Sectors -/

/-- A sector that is read into the buffer: the drive is ready for its first word, or the transfer ends. -/
lemma readSector_outcome {more : Bool} (h : p.Holds Q K s) (ht : p.readSector d s = some (more, t)) :
    if more = true then p.Moved d (p.unit d s).filled s t else p.Holds Q K t := by
  have hload := ((Moved.refl d s).loadSector hp).modify hp Drive.filled
  rw [Port.readSector] at ht
  split_ifs at ht with hhead
  · obtain ⟨⟨first, v⟩, hv, hsecond⟩ := Option.bind_eq_some_iff.mp ht
    have hfirst := hload.quiet (hp.setBuf (Port.header (getCy (p.unit d s).dc)
      (p.unit d (p.modify d Drive.filled (p.loadSector d s)))) _)
    cases first with
    | false =>
        obtain ⟨rfl, rfl⟩ : more = false ∧ t = v := by simpa [eq_comm] using hsecond
        exact (h.moved hr hfirst rfl rfl).stops hr (hp.stopped _ _ _ hv)
    | true =>
        have hboth := (hfirst.quiet (hp.moved _ _ _ hv)).quiet (hp.setBuf (Port.header2 d (p.bank v).ctlr) v)
        cases more with
        | false => exact (h.moved hr hboth rfl rfl).stops hr (hp.stopped _ _ _ hsecond)
        | true => exact hboth.quiet (hp.moved _ _ _ hsecond)
  · obtain ⟨rfl, rfl⟩ : more = true ∧ t = p.modify d Drive.filled (p.loadSector d s) := by simpa [eq_comm] using ht
    exact hload

/-- `FNC_READ`, `FNC_READH` and `FNC_WCHK`: a word, unless the sector is not one of the drive. -/
lemma readService_outcome (h : p.Holds Q K s) (hahead : p.Ahead Q d s)
    (hin : (p.unit d s).er1 = 0 → (p.unit d s).bufEmpty = true → (p.unit d s).OnCylinder)
    (ht : p.readService d s = some t) : p.GoesOn Q K d (p.unit d s).buffered.dataptr (p.unit d s).buffered s t := by
  have hends : ∀ {v}, p.Holds Q K v → some (p.rdEnd d v) = some t →
      p.GoesOn Q K d (p.unit d s).buffered.dataptr (p.unit d s).buffered s t := by
    rintro v hv ⟨rfl⟩
    exact .inr (rdEnd_ends hp hr hv)
  rw [Port.readService] at ht
  split_ifs at ht with her1 hempty hon
  · exact hends h ht
  · obtain ⟨⟨more, v⟩, hv, hword⟩ := Option.bind_eq_some_iff.mp ht
    have hsector := readSector_outcome hp hr h hv
    cases more with
    | false => exact hends hsector hword
    | true =>
        rw [Drive.buffered, if_pos hempty]
        exact readWord_outcome hp hr h hahead hsector rfl rfl hword
  · exact absurd (hin (not_not.mp her1) hempty) hon
  · rw [Drive.buffered, if_neg hempty]
    exact readWord_outcome hp hr h hahead (Moved.refl d s) rfl rfl ht

/-- The header of a sector that is taken. -/
lemma writeHeader_outcome {more : Bool} (h : p.Holds Q K s) (ht : p.writeHeader d s = some (more, t)) :
    if more = true then p.Quiet s t else p.Holds Q K t := by
  rw [Port.writeHeader] at ht
  split_ifs at ht with hhead
  · obtain ⟨⟨first, v⟩, hv, hsecond⟩ := Option.bind_eq_some_iff.mp ht
    cases first with
    | false =>
        obtain ⟨rfl, rfl⟩ : more = false ∧ t = v := by simpa [eq_comm] using hsecond
        exact h.stops hr (hp.stopped _ _ _ hv)
    | true =>
        have hfirst := hp.moved _ _ _ hv
        cases more with
        | false => exact (h.quiet hfirst).stops hr (hp.stopped _ _ _ hsecond)
        | true =>
            have hboth := hp.moved _ _ _ hsecond
            exact ⟨hfirst.toSame.trans hboth.toSame, hboth.bank.trans hfirst.bank⟩
  · obtain ⟨rfl, rfl⟩ : more = true ∧ t = s := by simpa [eq_comm] using ht
    exact ⟨Same.refl t, rfl⟩

/-- `FNC_WRITE` and `FNC_WRITEH`. -/
lemma writeService_outcome (h : p.Holds Q K s) (hahead : p.Ahead Q d s)
    (hin : (p.unit d s).er1 = 0 → (p.unit d s).bufEmpty = true → (p.unit d s).OnCylinder)
    (ht : p.writeService d s = some t) : p.GoesOn Q K d (p.unit d s).buffered.dataptr (p.unit d s).buffered s t := by
  have hends : ∀ {v}, p.Holds Q K v → some (p.wrEnd d v) = some t →
      p.GoesOn Q K d (p.unit d s).buffered.dataptr (p.unit d s).buffered s t := by
    rintro v hv ⟨rfl⟩
    exact .inr (wrEnd_ends hp hr hv)
  rw [Port.writeService] at ht
  split_ifs at ht with her1 hempty hon
  · exact hends h ht
  · obtain ⟨⟨more, v⟩, hv, hword⟩ := Option.bind_eq_some_iff.mp ht
    have hheader := writeHeader_outcome hp hr h hv
    cases more with
    | false => exact hends hheader hword
    | true =>
        rw [Drive.buffered, if_pos hempty]
        exact writeWord_outcome hp hr h hahead (((Moved.refl d s).quiet hheader).modify hp Drive.filled) rfl rfl hword
  · exact absurd (hin (not_not.mp her1) hempty) hon
  · rw [Drive.buffered, if_neg hempty]
    exact writeWord_outcome hp hr h hahead (Moved.refl d s) rfl rfl ht

end Service

/-! ### Services -/

/-- The drive behind a cylinder that is not one of it. -/
lemma unit_overrun (hp : p.Lawful) (s : σ) : p.unit d (p.overrun d s) =
    if getCy (p.unit d s).dc ≥ (p.unit d s).typ.cyl then (p.unit d s).overrun else p.unit d s := by
  have hm := (Moved.refl d s).modify hp Drive.overrun
  rw [Port.overrun]
  split_ifs with hcyl
  · rw [Port.unit, hp.bank_setattn]
    exact hm.unit
  · rfl

/-- What comes of a function, when the heads are in place: a word, or an address that is not one of the drive, of those
that transfer data, and the attention of the others. -/
inductive Performed (p : Ctl σ) (Q : Waiting → Drive → Prop) (K : Bank → Prop) (d : ℕ) (s : σ) : σ → Prop
  | word {t : σ} : (Fnc.of (p.unit d s).fnc).transfers = true →
      p.GoesOn Q K d (p.unit d s).buffered.dataptr (p.unit d s).buffered s t → Performed p Q K d s t
  | outside : (Fnc.of (p.unit d s).fnc).transfers = true → (p.unit d s).er1 = 0 → (p.unit d s).bufEmpty = true →
      ¬ (p.unit d s).OnCylinder → Performed p Q K d s (p.outside d s)
  | attends {v : Drive} {t : σ} : (Fnc.of (p.unit d s).fnc).transfers = false → p.Moved d v s t → v.ds.ata = true →
      Performed p Q K d s (p.setattn d t)
  | nothing : (Fnc.of (p.unit d s).fnc).transfers = false → Performed p Q K d s s

section Service

variable (hp : p.Lawful) (hr : Rules Q K)
include hp hr

lemma perform_outcome (h : p.Holds Q K s) (hahead : p.Ahead Q d s) (ht : p.perform d s = some t) :
    p.Performed Q K d s t := by
  have hseek : ∀ {v : Drive} {s'}, (Fnc.of (p.unit d s).fnc).transfers = false → p.Moved d v s s' →
      some (p.seekEnd d s') = some t → p.Performed Q K d s t := by
    rintro v s' hf hm ⟨rfl⟩
    exact .attends hf (hm.modify hp _) rfl
  by_cases hout : (Fnc.of (p.unit d s).fnc).transfers = true ∧ (p.unit d s).er1 = 0 ∧ (p.unit d s).bufEmpty = true ∧
      ¬ (p.unit d s).OnCylinder
  · obtain ⟨hf, her1, hempty, hon⟩ := hout
    have hread : p.readService d s = some (p.outside d s) := by
      rw [Port.readService, if_neg (not_not.mpr her1), if_pos hempty, if_neg hon]
    have hwrite : p.writeService d s = some (p.outside d s) := by
      rw [Port.writeService, if_neg (not_not.mpr her1), if_pos hempty, if_neg hon]
    obtain rfl : p.outside d s = t := by
      rw [Port.perform] at ht
      cases hfnc : Fnc.of (p.unit d s).fnc <;> rw [hfnc] at hf ht <;> first
        | exact absurd hf (by decide)
        | exact Option.some.inj (hread.symm.trans ht)
        | exact Option.some.inj (hwrite.symm.trans ht)
    exact .outside hf her1 hempty hon
  · have hin : (Fnc.of (p.unit d s).fnc).transfers = true → (p.unit d s).er1 = 0 → (p.unit d s).bufEmpty = true →
        (p.unit d s).OnCylinder := fun hf her1 hempty ↦ by_contra fun hon ↦ hout ⟨hf, her1, hempty, hon⟩
    rw [Port.perform] at ht
    cases hfnc : Fnc.of (p.unit d s).fnc with
    | nop | dclr | release | pack | other =>
        rw [hfnc] at ht
        obtain ⟨rfl⟩ := ht
        exact .nothing (by rw [hfnc]; rfl)
    | unload =>
        rw [hfnc] at ht
        obtain ⟨rfl⟩ := ht
        exact .attends (by rw [hfnc]; rfl) ((Moved.refl d s).modify hp _) rfl
    | offset =>
        rw [hfnc] at ht
        exact hseek (by rw [hfnc]; rfl) ((Moved.refl d s).modify hp _) ht
    | «return» | preset | recal | seek | search =>
        rw [hfnc] at ht
        exact hseek (by rw [hfnc]; rfl) (Moved.refl d s) ht
    | read | readh | wchk =>
        have hf : (Fnc.of (p.unit d s).fnc).transfers = true := by rw [hfnc]; rfl
        rw [hfnc] at ht
        exact .word hf (readService_outcome hp hr h hahead (hin hf) ht)
    | write | writeh =>
        have hf : (Fnc.of (p.unit d s).fnc).transfers = true := by rw [hfnc]; rfl
        rw [hfnc] at ht
        exact .word hf (writeService_outcome hp hr h hahead (hin hf) ht)

/-! ### Seeking -/

/-- A drive that asks for attention where it stands. -/
lemma Holds.attended (h : p.Holds Q K s) (hm : p.Moved d u s t) (hplace : (p.unit d s).place = u.place)
    (hata : u.ds.ata = true) : p.Holds Q K (p.setattn d t) := by
  refine ⟨hr.attend (b := p.bank s) (d := d) (fun i ↦ ?_) ?_ h.keeps, fun w hw ↦ ?_⟩
  · rw [hp.bank_setattn, Bank.attend, hm.units]
    rcases eq_or_ne i d with rfl | hne
    · rw [Function.update_self, if_pos rfl, hata]
    · rw [Function.update_of_ne hne, if_neg hne]
  · rw [hp.bank_setattn, Bank.attend, hm.attn]
  · rw [(hp.same_setattn d t).waits, hm.waits] at hw
    rw [Port.unit, hp.bank_setattn, Bank.attend, hm.units]
    have hgood := h.good w hw
    rcases eq_or_ne w.drive d with hd | hne
    · rw [hd] at hgood ⊢
      rw [Function.update_self]
      exact hr.place hplace hgood
    · rwa [Function.update_of_ne hne]

/-- A cylinder that is not one of the drive leaves the drive where it stands. -/
lemma overrun_holds (h : p.Holds Q K s) (hahead : p.Ahead Q d s) :
    p.Holds Q K (p.overrun d s) ∧ p.Ahead Q d (p.overrun d s) := by
  have hm := (Moved.refl d s).modify hp Drive.overrun
  rw [Port.overrun]
  split_ifs with hcyl
  · refine ⟨h.attended hp hr hm rfl rfl, hahead.same hr ((hp.same_setattn d _).waits.trans hm.waits) ?_⟩
    rw [Port.unit, Port.unit, hp.bank_setattn, Bank.attend, hm.units, Function.update_self]
    rfl
  · exact ⟨h, hahead⟩

end Service

end Ctl

end Ka10Simh.Pdp10.Rp
