import Ka10Simh.Pdp10.Rp.Outcome

/-!
The attention of the disk drives: the bits of `attn`, and the status of the drives.

* `Agree`: the two say the same.
* `Accepts`: a command that is not refused for its address.
* `write_agree`, `read_agree`, `rst_agree`: the registers keep `Agree`, but for a command that is refused.
* `service_agree`: so does a service, but for a transfer of a drive that is not attached, or at a sector that is not
  there.
-/

namespace Ka10Simh.Pdp10.Rp

open DataChannel (clear)

/-! ### Agreement -/

/-- The bits of `attn` are the attention of the drives. -/
def Agree (b : Bank) : Prop := ∀ i < 8, b.attn.testBit i = (b.units i).ds.ata

lemma testBit_attend (attn d i : ℕ) : (attn ||| 1 <<< d).testBit i = (attn.testBit i || decide (d = i)) := by
  rw [Nat.testBit_or, Nat.one_shiftLeft, Nat.testBit_two_pow]

lemma testBit_withdraw (attn d i : ℕ) : (clear attn (1 <<< d)).testBit i = (attn.testBit i && !decide (d = i)) := by
  rw [clear, Nat.testBit_xor, Nat.testBit_and, Nat.one_shiftLeft, Nat.testBit_two_pow]
  cases attn.testBit i <;> cases decide (d = i) <;> rfl

namespace Agree

variable {b c : Bank} {d : ℕ} {u : Drive}

lemma congr (hata : ∀ i, (c.units i).ds.ata = (b.units i).ds.ata) (hattn : c.attn = b.attn) (h : Agree b) : Agree c := by
  intro i hi
  rw [hattn, hata]
  exact h i hi

lemma attend (hata : ∀ i, (c.units i).ds.ata = if i = d then true else (b.units i).ds.ata)
    (hattn : c.attn = b.attn ||| 1 <<< d) (h : Agree b) : Agree c := by
  intro i hi
  rw [hattn, hata, testBit_attend, h i hi]
  rcases eq_or_ne i d with rfl | hne
  · rw [if_pos rfl, decide_eq_true rfl, Bool.or_true]
  · rw [if_neg hne, decide_eq_false hne.symm, Bool.or_false]

lemma withdraw (hata : ∀ i, (c.units i).ds.ata = if i = d then false else (b.units i).ds.ata)
    (hattn : c.attn = clear b.attn (1 <<< d)) (h : Agree b) : Agree c := by
  intro i hi
  rw [hattn, hata, testBit_withdraw, h i hi]
  rcases eq_or_ne i d with rfl | hne
  · rw [if_pos rfl, decide_eq_true rfl, Bool.not_true, Bool.and_false]
  · rw [if_neg hne, decide_eq_false hne.symm, Bool.not_false, Bool.and_true]

end Agree

section Put

variable {b : Bank} {d : ℕ} {u : Drive} {x : Bool}

lemma put_ata (h : u.ds.ata = x) (i : ℕ) : ((b.put d u).units i).ds.ata = if i = d then x else (b.units i).ds.ata := by
  rw [Bank.put]
  dsimp only
  rcases eq_or_ne i d with rfl | hne
  · rw [Function.update_self, if_pos rfl, h]
  · rw [Function.update_of_ne hne, if_neg hne]

lemma put_same (h : u.ds.ata = (b.units d).ds.ata) (i : ℕ) : ((b.put d u).units i).ds.ata = (b.units i).ds.ata := by
  rw [put_ata h]
  split_ifs with hi
  · rw [hi]
  · rfl

lemma Agree.put (hb : Agree b) (h : u.ds.ata = (b.units d).ds.ata) : Agree (b.put d u) := hb.congr (put_same h) rfl

end Put

/-! ### Registers -/

/-- A drive after `FNC_RECAL` has set its cylinder. -/
def Drive.aim (fnc : ℕ) (u : Drive) : Drive := if Fnc.of fnc = .recal then { u with dc := 0 } else u

/-- A command that moves the heads is given with an address of the drive. -/
def Drive.Accepts (u : Drive) (data : ℕ) : Prop :=
  data &&& 1 ≠ 0 → u.dis = false → (Fnc.of (getFnc data)).moves = true → (u.aim (getFnc data)).Fits

section Registers

variable {b : Bank} {d reg data fnc : ℕ} {u : Drive}

lemma start_agree (hb : Agree b) (hfits : u.Fits) (h : u.ds.ata = (b.units d).ds.ata) : Agree (b.start d u) := by
  rw [Bank.start, if_pos hfits]
  exact hb.put h

lemma ready_agree (hb : Agree b) (h : u.ds.ata = (b.units d).ds.ata) : Agree (b.ready d u) := by
  rw [Bank.ready]
  split_ifs <;> exact hb.put h

lemma command_agree (hb : Agree b) (h : (Fnc.of fnc).moves = true → ((b.units d).aim fnc).Fits) :
    Agree (b.command d fnc) := by
  cases hfnc : Fnc.of fnc with
  | nop =>
      simp only [Bank.command, hfnc]
      exact hb.put rfl
  | recal =>
      simp only [Bank.command, hfnc]
      have hfits := h (by rw [hfnc]; rfl)
      rw [Drive.aim, if_pos hfnc] at hfits
      exact start_agree hb hfits rfl
  | unload | offset | «return» | search | seek | wchk | write | writeh | read | readh =>
      simp only [Bank.command, hfnc]
      have hfits := h (by rw [hfnc]; rfl)
      rw [Drive.aim, if_neg (by rw [hfnc]; decide)] at hfits
      exact start_agree hb hfits rfl
  | dclr =>
      simp only [Bank.command, hfnc]
      exact hb.withdraw (put_ata rfl) rfl
  | preset | release | pack =>
      simp only [Bank.command, hfnc]
      exact ready_agree hb rfl
  | other =>
      simp only [Bank.command, hfnc]
      exact hb.attend (put_ata rfl) rfl

lemma maintenance_agree (hb : Agree b) : Agree (b.maintenance d data) := by
  rw [Bank.maintenance]
  split_ifs <;> exact hb.put rfl

lemma clearAttention_agree (hb : Agree b) : Agree (b.clearAttention data) := by
  rw [Bank.clearAttention]
  generalize List.range 8 = is
  induction is generalizing b with
  | nil => exact hb
  | cons i is ih =>
      rw [List.foldl_cons]
      split_ifs with hi
      · exact ih (hb.withdraw (put_ata rfl) rfl)
      · exact ih hb

/-- `rp_write` keeps the agreement. -/
lemma write_agree (hb : Agree b) (h : reg = 0o0 → (b.units d).go = false → (b.units d).Accepts data) :
    Agree (b.write d reg data).2 := by
  rw [Bank.write]
  split_ifs with hdis hgo
  · exact hb
  · exact hb.put rfl
  · dsimp only
    unfold Bank.writeReg
    split
    · have hdis' : (b.units d).dis = false := by simpa using hdis
      have hgo' : (b.units d).go = false := by simpa using hgo
      split_ifs with hdata
      · exact hb.put rfl
      · exact command_agree hb (h rfl hgo' hdata hdis')
    all_goals first
      | exact hb
      | exact hb.put rfl
      | exact maintenance_agree hb
      | exact clearAttention_agree hb

/-- `rp_read` keeps it. -/
lemma read_agree (hb : Agree b) : Agree (b.read d reg).2 := by
  rw [Bank.read]
  split_ifs
  · exact hb
  · exact hb
  · unfold Bank.readReg
    split
    all_goals first
      | exact hb
      | exact hb.put rfl

/-- `rp_rst` keeps it. -/
lemma rst_agree (b : Bank) : Agree b.rst := by
  intro i _
  exact Nat.zero_testBit i

/-- The summary of the attention says it too. -/
lemma testBit_attentionSummary (b : Bank) {i : ℕ} (hi : i < 8) : b.attentionSummary.testBit i = (b.units i).ds.ata := by
  have h : ∀ (n temp : ℕ), ((List.range n).foldl (fun temp i ↦ if (b.units i).ds.ata = true then temp ||| 1 <<< i
      else temp) temp).testBit i = (temp.testBit i || (decide (i < n) && (b.units i).ds.ata)) := by
    intro n
    induction n with
    | zero => simp
    | succ n ih =>
        intro temp
        rw [List.range_succ, List.foldl_append, List.foldl_cons, List.foldl_nil]
        split_ifs with hata
        · rw [testBit_attend, ih]
          rcases lt_trichotomy i n with hlt | rfl | hgt
          · simp [hlt, hlt.ne', hlt.trans (Nat.lt_succ_self n)]
          · simp [hata]
          · simp [hgt.not_gt, hgt.ne, show ¬ i < n + 1 by omega]
        · rw [ih]
          rcases lt_trichotomy i n with hlt | rfl | hgt
          · simp [hlt, hlt.trans (Nat.lt_succ_self n)]
          · simp [hata]
          · simp [hgt.not_gt, show ¬ i < n + 1 by omega]
  rw [Bank.attentionSummary, h 8 0, Nat.zero_testBit, Bool.false_or, decide_eq_true hi, Bool.true_and]

end Registers

/-! ### The second command -/

/-- A drive with the address that a command brings. -/
def Waiting.aimed (w : Waiting) (u : Drive) : Drive :=
  match w.addr with
  | some addr => { u with da := addr % 2 ^ 16 }
  | none => u

/-- A command that waits is not refused at a place. -/
def Waiting.Accepted (w : Waiting) (u : Drive) : Prop := (w.aimed u).Accepts w.data

lemma accepts_place {u v : Drive} {data : ℕ} (h : u.place = v.place) : u.Accepts data ↔ v.Accepts data := by
  obtain ⟨hdis, -, htype, hda, hdc⟩ : u.dis = v.dis ∧ u.att = v.att ∧ u.dtype = v.dtype ∧ u.da = v.da ∧ u.dc = v.dc := by
    simpa [Drive.place] using h
  simp only [Drive.Accepts, Drive.aim, Drive.Fits, Drive.OnCylinder, Drive.typ, hdis]
  split_ifs <;> simp only [htype, hda, hdc]

lemma aimed_place {u v : Drive} (w : Waiting) (h : u.place = v.place) : (w.aimed u).place = (w.aimed v).place := by
  rw [Waiting.aimed, Waiting.aimed]
  cases w.addr with
  | none => exact h
  | some addr =>
      simp only [Drive.place, Prod.mk.injEq, true_and] at h ⊢
      exact ⟨h.1, h.2.1, h.2.2.1, h.2.2.2.2⟩

/-- The drive after the address that a command brings: it takes it, unless it is at work or not there. -/
lemma write_da (b : Bank) (d addr : ℕ) : ((b.units d).dis = true ∧ (b.write d 0o5 addr).2.units d = b.units d) ∨
    ((b.units d).go = true ∧ ((b.write d 0o5 addr).2.units d).go = true) ∨
    ((b.units d).dis = false ∧ (b.units d).go = false ∧
      (b.write d 0o5 addr).2.units d = { b.units d with da := addr % 2 ^ 16 }) := by
  rw [Bank.write]
  split_ifs with hdis hgo
  · exact .inl ⟨hdis.1, rfl⟩
  · exact .inr (.inl ⟨hgo.1, by simp only [Bank.put, Function.update_self, hgo.1]⟩)
  · refine .inr (.inr ⟨by simpa using hdis, by simpa using hgo, ?_⟩)
    simp only [Bank.writeReg, Bank.put, Function.update_self]

lemma launch_agree {w : Waiting} {b : Bank} (hw : w.Accepted (b.units w.drive)) (hb : Agree b) : Agree (w.launch b) := by
  rw [Waiting.launch]
  rw [Waiting.Accepted, Waiting.aimed] at hw
  cases haddr : w.addr with
  | none =>
      rw [haddr] at hw
      exact write_agree hb fun _ _ ↦ hw
  | some addr =>
      rw [haddr] at hw
      refine write_agree (write_agree hb fun h ↦ absurd h (by decide)) fun _ hgo ↦ ?_
      obtain ⟨hdis, hsame⟩ | ⟨-, hstill⟩ | ⟨-, -, hda⟩ := write_da b w.drive addr
      · rw [hsame]
        exact fun _ hthere ↦ absurd (hdis.symm.trans hthere) (by decide)
      · exact absurd (hstill.symm.trans hgo) (by decide)
      · rwa [hda]

lemma agree_rules : Rules Waiting.Accepted Agree where
  place h hw := (accepts_place (aimed_place _ h)).mp hw
  congr := Agree.congr
  attend := Agree.attend
  launch _ := launch_agree

/-! ### Services -/

namespace Ctl

variable {σ : Type} {p : Ctl σ} {s t v : σ} {d : ℕ} {u : Drive}

/-- A service at which a drive asks for attention and its controller does not hear of it: the drive is not attached and
transfers data, or its heads are in place and its sector is not one of the drive. -/
structure Unheard (u : Drive) : Prop where
  ata : u.ds.ata = false
  transfer : u.att = false ∧ fncXfer ≤ u.fnc ∨ (Fnc.of u.fnc).transfers = true ∧ u.er1 = 0 ∧ u.bufEmpty = true ∧
    ¬ u.OnCylinder ∧ (u.ds.pip = true → u.ccyl &&& 0o1777 = getCy u.dc)

lemma Moved.agree (hm : p.Moved d u s t) (hata : u.ds.ata = (p.unit d s).ds.ata) (h : Agree (p.bank s)) :
    Agree (p.bank t) := by
  refine h.congr (fun i ↦ ?_) hm.attn
  rw [hm.units]
  rcases eq_or_ne i d with rfl | hne
  · rw [Function.update_self, hata]
    rfl
  · rw [Function.update_of_ne hne]

lemma Moved.attend (hp : p.Lawful) (hm : p.Moved d u s t) (hata : u.ds.ata = true) (h : Agree (p.bank s)) :
    Agree (p.bank (p.setattn d t)) := by
  rw [hp.bank_setattn]
  refine h.attend (fun i ↦ ?_) (by rw [Bank.attend, hm.attn])
  rw [Bank.attend, hm.units]
  rcases eq_or_ne i d with rfl | hne
  · rw [Function.update_self, if_pos rfl, hata]
  · rw [Function.update_of_ne hne, if_neg hne]

lemma afterWord_ata (n : ℕ) (u : Drive) : (u.afterWord n).ds.ata = u.ds.ata := by
  rw [Drive.afterWord]
  split_ifs <;> rfl

lemma buffered_ata (u : Drive) : u.buffered.ds.ata = u.ds.ata := by
  rw [Drive.buffered]
  split_ifs <;> rfl

section Service

variable (hp : p.Lawful)
include hp

lemma Performed.agree (h : p.Holds Waiting.Accepted Agree s) (hout : (Fnc.of (p.unit d s).fnc).transfers = true →
      (p.unit d s).er1 = 0 → (p.unit d s).bufEmpty = true → ¬ (p.unit d s).OnCylinder → (p.unit d s).ds.ata = true)
    (ht : p.Performed Waiting.Accepted Agree d s t) : Agree (p.bank t) := by
  cases ht with
  | word hf hgoes =>
      obtain ⟨img, hm⟩ | ⟨v, hv, rfl⟩ := hgoes
      · exact hm.agree ((afterWord_ata _ _).trans (buffered_ata _)) h.keeps
      · exact (hv.ends agree_rules (hp.finishOp v)).keeps
  | outside hf her1 hempty hon =>
      have hata := hout hf her1 hempty hon
      exact ((h.moved agree_rules ((Moved.refl d s).modify hp _) rfl hata.symm).ends agree_rules (hp.finishOp _)).keeps
  | attends hf hm hata => exact hm.attend hp hata h.keeps
  | nothing => exact h.keeps

/-- The functions behind a seek, or without one. -/
lemma perform_agree (h : p.Holds Waiting.Accepted Agree s) (hahead : p.Ahead Waiting.Accepted d s)
    (hout : (Fnc.of (p.unit d s).fnc).transfers = true → (p.unit d s).er1 = 0 → (p.unit d s).bufEmpty = true →
      ¬ (p.unit d s).OnCylinder → (p.unit d s).ds.ata = true) (ht : p.perform d s = some t) : Agree (p.bank t) :=
  Performed.agree hp h hout (perform_outcome hp agree_rules h hahead ht)

lemma seek_agree (h : p.Holds Waiting.Accepted Agree s) (hahead : p.Ahead Waiting.Accepted d s)
    (hheard : ¬ Unheard (p.unit d s)) (ht : p.seek d s = some t) : Agree (p.bank t) := by
  obtain ⟨hover, haheadOver⟩ := overrun_holds hp agree_rules h hahead
  rw [Port.seek] at ht
  have hunit := unit_overrun hp (d := d) s
  have hdc : getCy (p.unit d s).dc = getCy (p.unit d (p.overrun d s)).dc := by
    rw [hunit]
    split_ifs <;> rfl
  rw [hdc] at ht
  cases hstep : Port.seekStep (getCy (p.unit d (p.overrun d s)).dc) (p.unit d (p.overrun d s)) with
  | some u =>
      obtain ⟨ccyl, rfl, -⟩ := seekStep_some hstep
      rw [hstep] at ht
      obtain ⟨rfl⟩ := ht
      exact (((Moved.refl d _).modify hp _).modify hp Drive.scheduled).agree rfl hover.keeps
  | none =>
      rw [hstep] at ht
      have hm := (Moved.refl d (p.overrun d s)).modify hp Drive.settled
      refine perform_agree hp (hover.moved agree_rules hm rfl rfl) (haheadOver.same agree_rules hm.waits ?_)
        (fun hf her1 hempty hon ↦ ?_) ht
      · rw [hm.unit]
        rfl
      · rw [hm.unit] at hf her1 hempty hon ⊢
        split_ifs at hunit with hcyl
        · rw [hunit]
          rfl
        · rw [hunit] at hf her1 hempty hon hstep ⊢
          refine by_contra fun hata ↦ hheard ⟨by simpa [Drive.settled] using hata, .inr ⟨hf, her1, hempty, hon, ?_⟩⟩
          exact fun _ ↦ seekStep_none hstep

lemma svc_agree (h : p.Holds Waiting.Accepted Agree s) (hahead : p.Ahead Waiting.Accepted d s)
    (hheard : ¬ Unheard (p.unit d s)) (ht : p.svc d s = some t) : Agree (p.bank t) := by
  rw [Port.svc] at ht
  split_ifs at ht with hatt hpip
  · obtain ⟨rfl⟩ := ht
    have hm := (Moved.refl d s).modify hp Drive.unattached
    rw [Port.unattached]
    split_ifs with hxfer
    · have hata : (p.unit d s).ds.ata = true := by_contra fun hata ↦ hheard ⟨by simpa using hata, .inl ⟨hatt, hxfer⟩⟩
      exact (hm.quiet (hp.setirq _)).agree hata.symm h.keeps
    · exact hm.attend hp rfl h.keeps
  · exact seek_agree hp h hahead hheard ht
  · refine perform_agree hp h hahead (fun hf her1 hempty hon ↦ by_contra fun hata ↦ ?_) ht
    exact hheard ⟨by simpa using hata, .inr ⟨hf, her1, hempty, hon, fun hp ↦ absurd hp hpip⟩⟩

/-- **A service keeps the agreement**, but for a drive that is not heard of. -/
lemma service_agree (h : p.Holds Waiting.Accepted Agree s) (hahead : p.Ahead Waiting.Accepted d s)
    (hheard : ¬ Unheard (p.unit d s)) (ht : p.service d s = some t) : Agree (p.bank t) := by
  rw [Port.service] at ht
  split_ifs at ht with hactive
  have hm := (Moved.refl d s).modify hp Drive.taken
  refine svc_agree hp (h.moved agree_rules hm rfl rfl) (hahead.same agree_rules hm.waits ?_) ?_ ht
  · rw [hm.unit]
    rfl
  · rw [hm.unit]
    exact fun hun ↦ hheard ⟨hun.ata, hun.transfer⟩

end Service

end Ctl

end Ka10Simh.Pdp10.Rp
