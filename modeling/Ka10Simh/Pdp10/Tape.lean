import Ka10Simh.Lib.Bits
import Ka10Simh.Lib.Iterate

/-!
The transfers of the TM03 tape controller. A word is written as five frames, or as four without its low bits, and the drive is served
frame by frame.

* `Tape`, `Tu`: the records of a tape, and a drive with its controller and the words of the channel.
* `readForward`, `readReverse`, `write`, `tuSrv`: one service of the drive.
* `write_run`: the record that a write makes.
* `forward_run`, `backward_run`: the words that come from a record, read forward and read backward.
* `words_iff`: when both give the words that were written.
-/

namespace Ka10Simh.Pdp10.Tm03

open Word

/-! ### The tape -/

/-- The results of the operations of a tape. -/
inductive Mtse
  | ok | tmk | unatt | bot | eom | wrp | invrl
  deriving DecidableEq

/-- The records before the head, the next one first, and the ones after it. A tape mark is no record. -/
structure Tape where
  before : List (Option (List ℕ))
  after : List (Option (List ℕ))

/-- `TU_NUMFR`. -/
abbrev numfr : ℕ := 64 * 1024

namespace Tape

/-- A record that was found. -/
def found : Option (List ℕ) → Mtse × List ℕ
  | none => (.tmk, [])
  | some r => if r.length > numfr then (.invrl, []) else (.ok, r)

/-- `sim_tape_rdrecf`, `sim_tape_rdrecr` and `sim_tape_wrrecf`. -/
def rdrecf (tape : Tape) : (Mtse × List ℕ) × Tape :=
  match tape.after with
  | [] => ((.eom, []), tape)
  | r :: rest => (found r, ⟨r :: tape.before, rest⟩)
def rdrecr (tape : Tape) : (Mtse × List ℕ) × Tape :=
  match tape.before with
  | [] => ((.bot, []), tape)
  | r :: rest => (found r, ⟨rest, r :: tape.after⟩)
def wrrecf (r : List ℕ) (tape : Tape) : Tape := ⟨some r :: tape.before, []⟩

end Tape

/-! ### The drive -/

/-- The functions that transfer words. -/
inductive Fnc
  | wchk | wchkrev | write | read | readrev
  deriving DecidableEq

/-- `DS_TM`, `DS_PIP`, `DS_ATA`, `ER1_FCE`, `ER1_NEF`, `TC_FMTSEL`, `TC_FCS` and `TC_ACCL`. -/
abbrev dsTm : ℕ := 0o4
abbrev dsPip : ℕ := 0o20000
abbrev dsAta : ℕ := 0o100000
abbrev er1Fce : ℕ := 0o1000
abbrev er1Nef : ℕ := 0o4000
abbrev tcFmtsel : ℕ := 0o360
abbrev tcFcs : ℕ := 0o40000
abbrev tcAccl : ℕ := 0o100000

/-- An empty buffer has this for its mark. -/
abbrev bufEmpty : ℕ := 0xffffffff

/-- A drive with its controller. Of the channel there are the words that it has for a write, and the words that it took in a read, with the
number of the words that it still takes. -/
structure Tu where
  fnc : Fnc
  go : Bool
  attached : Bool
  locked : Bool
  status : ℕ
  er1 : ℕ
  tc : ℕ
  dc : ℕ
  hwmark : ℕ
  dataptr : ℤ
  cpos : ℕ
  buf : ℕ
  tuBuf : ℕ → ℕ
  tape : Tape
  words : List ℕ
  taken : List ℕ
  room : ℕ

/-- `tu_error`. -/
def tuError (r : Mtse) (s : Tu) : Tu :=
  { s with
    go := false
    status := bic (s.status ||| match r with | .tmk => dsTm | .wrp => dsAta | .invrl => dsAta | _ => 0) dsPip
    er1 := s.er1 ||| match r with | .wrp => er1Nef | .invrl => er1Fce | _ => 0 }

/-- `rh_read`: the next word, and whether there is another one after it. -/
def rhRead (s : Tu) : Bool × Tu :=
  match s.words with
  | [] => (false, s)
  | w :: rest => (!rest.isEmpty, { s with buf := w, words := rest })

/-- `rh_write`: the word is taken, and whether another one will be. -/
def rhWrite (s : Tu) : Bool × Tu :=
  match s.room with
  | 0 => (false, s)
  | room + 1 => (room != 0, { s with room := room, taken := s.taken ++ [s.buf] })

/-- The number of the frames of a word. -/
def ccMax (tc : ℕ) : ℕ := 4 + if tc &&& tcFmtsel = 0 then 1 else 0

/-- The shift of a frame. -/
def shift (cpos : ℕ) : ℤ := 8 * (3 - cpos) + 4

/-- A frame of a word, and a frame that is put into a word. -/
def frame (w cpos : ℕ) : ℕ := if shift cpos < 0 then w &&& 0x0f else w >>> (shift cpos).toNat &&& 0xff
def gather (w cpos ch : ℕ) : ℕ := if shift cpos < 0 then w ||| (ch &&& 0x0f) else w ||| (ch &&& 0xff) <<< (shift cpos).toNat

/-- The frame count. -/
def counted (s : Tu) : Tu :=
  let dc := (s.dc + 1) % 2 ^ 16
  { s with dc := dc, tc := if dc = 0 then bic s.tc tcFcs else s.tc }

/-- A record comes into the buffer. -/
def load (r : List ℕ) (dataptr : ℤ) (cpos : ℕ) (s : Tu) : Tu :=
  { s with hwmark := r.length, tuBuf := fun i ↦ r.getD i (s.tuBuf i), dataptr := dataptr, cpos := cpos, buf := 0 }

/-- A word is complete. -/
def wordRead (fnc : Fnc) (cpos : ℕ) (s : Tu) : Tu ⊕ Tu :=
  let (more, t) := if s.fnc = fnc then rhWrite { s with cpos := cpos } else (true, { s with cpos := cpos })
  if more = false then .inr (tuError .ok t) else .inl { t with buf := 0 }

/-- `FNC_READREV`. -/
def readReverse (s : Tu) : Tu ⊕ Tu :=
  if s.hwmark = bufEmpty then
    let s := { s with status := bic s.status dsPip }
    let ((r, record), tape) := s.tape.rdrecr
    if r = .ok then .inl (load record (record.length - 1) (ccMax s.tc) { s with tape := tape })
    else .inr (tuError r { s with tape := tape, er1 := if r = .bot then s.er1 ||| er1Nef else s.er1 })
  else if s.dataptr ≥ 0 then
    let buf := gather s.buf s.cpos (s.tuBuf s.dataptr.toNat)
    let t := { counted s with buf := buf, dataptr := s.dataptr - 1, cpos := s.cpos - 1 }
    if s.cpos - 1 = 0 then wordRead .readrev (ccMax s.tc) t else .inl t
  else .inr (tuError .ok (if s.cpos ≠ ccMax s.tc then (rhWrite s).2 else s))

/-- `FNC_READ`. -/
def readForward (s : Tu) : Tu ⊕ Tu :=
  if s.hwmark = bufEmpty then
    let s := { s with status := bic s.status dsPip }
    let ((r, record), tape) := s.tape.rdrecf
    if r = .ok then .inl (load record 0 0 { s with tape := tape })
    else .inr (tuError r { s with tape := tape, er1 := if r = .tmk then s.er1 ||| er1Fce else s.er1 })
  else if (s.dataptr % 2 ^ 32).toNat < s.hwmark then
    let buf := gather s.buf s.cpos (s.tuBuf s.dataptr.toNat)
    let t := { counted s with buf := buf, dataptr := s.dataptr + 1, cpos := s.cpos + 1 }
    if s.cpos + 1 = ccMax s.tc then wordRead .read 0 t else .inl t
  else
    let t := if s.cpos ≠ 0 then (rhWrite s).2 else s
    .inr (tuError .ok { t with er1 := if t.dc ≠ 0 then t.er1 ||| er1Fce else t.er1 })

/-- The next word is read from the channel, when there is none at hand. -/
def feed (s : Tu) : Tu :=
  if s.dc ≠ 0 ∧ s.cpos = 0 then
    let (more, t) := rhRead s
    if more = false then { t with cpos := t.cpos ||| 0o10 } else t
  else s

/-- The next frame is put into the buffer. -/
def put (s : Tu) : Tu :=
  let next := s.cpos &&& 0o10 ||| (s.cpos &&& 0o7) + 1
  { s with
    tuBuf := Function.update s.tuBuf s.dataptr.toNat (frame s.buf (s.cpos &&& 0o7))
    dataptr := s.dataptr + 1
    hwmark := (s.dataptr + 1).toNat
    cpos := if next &&& 7 = ccMax s.tc then next &&& 0o10 else next }

/-- The frames in the buffer. -/
def record (s : Tu) : List ℕ := (List.range s.hwmark).map s.tuBuf

/-- The frames are written out, when the word or the frame count is the last one. -/
def wordWritten (s : Tu) : Tu ⊕ Tu :=
  let cpos := if s.dc = 0 then 0o10 else s.cpos
  if cpos = 0o10 then
    .inr (tuError .ok { s with cpos := cpos, tape := s.tape.wrrecf (record s), dataptr := 0, hwmark := 0 })
  else .inl { s with cpos := cpos }

/-- A record is begun. -/
def begun (s : Tu) : Tu := { s with status := bic s.status dsPip, hwmark := 0, cpos := 0, dataptr := 0, buf := 0 }

/-- `FNC_WRITE`. -/
def write (s : Tu) : Tu ⊕ Tu :=
  if s.hwmark = bufEmpty then
    if s.dc = 0 then .inr (tuError .ok { s with er1 := s.er1 ||| er1Nef, status := bic s.status dsPip ||| dsAta })
    else if s.locked = true then .inr (tuError .wrp { s with status := bic s.status dsPip })
    else wordWritten (counted (put (feed (begun s))))
  else wordWritten (counted (put (feed s)))

/-- The functions. -/
def serve : Fnc → Tu → Tu ⊕ Tu
  | .readrev, s => readReverse s
  | .wchkrev, s => readReverse s
  | .read, s => readForward s
  | .wchk, s => readForward s
  | .write, s => write s

/-- The tape is at its speed. -/
def moving (s : Tu) : Tu := { s with tc := bic s.tc tcAccl }

/-- `tu_srv`: the drive is to be served again, or the function has ended. -/
def tuSrv (s : Tu) : Tu ⊕ Tu :=
  if s.attached = false then .inr (tuError .unatt (moving s)) else serve s.fnc (moving s)

/-! ### The frames of a word -/

variable {s t u : Tu} {ws rest ahead behind before : List ℕ} {b ch j m n p v w : ℕ}

/-- The frames, the first one first. -/
def frames (m w : ℕ) : List ℕ := (List.range m).map (frame w)

lemma shift_high (hp : p < 4) : shift p = ((28 - 8 * p : ℕ) : ℤ) := by
  rw [shift]
  omega

lemma frame_high (hp : p < 4) : frame w p = w / 2 ^ (28 - 8 * p) % 2 ^ 8 := by
  rw [frame, shift_high hp, if_neg (by omega), Int.toNat_natCast, Nat.shiftRight_eq_div_pow]
  exact Nat.and_two_pow_sub_one_eq_mod _ 8

lemma frame_low : frame w 4 = w % 2 ^ 4 := Nat.and_two_pow_sub_one_eq_mod w 4

lemma gather_high (hp : p < 4) (hch : ch < 2 ^ 8) : gather v p ch = v ||| ch <<< (28 - 8 * p) := by
  have hmask : ch &&& 0xff = ch := (Nat.and_two_pow_sub_one_eq_mod ch 8).trans (Nat.mod_eq_of_lt hch)
  rw [gather, shift_high hp, if_neg (by omega), Int.toNat_natCast, hmask]

/-- The first frames of a word, in their places. -/
def part (w p : ℕ) : ℕ := if p < 5 then w / 2 ^ (36 - 8 * p) * 2 ^ (36 - 8 * p) else w

/-- One frame more. -/
lemma gather_part (hp : p < 5) : gather (part w p) p (frame w p) = part w (p + 1) := by
  rcases Nat.lt_or_ge p 4 with hp' | hp'
  · have hframe : w / 2 ^ (28 - 8 * p) % 2 ^ 8 < 2 ^ 8 := Nat.mod_lt _ (by norm_num)
    have hsplit : w / 2 ^ (36 - 8 * p) = w / 2 ^ (28 - 8 * p) / 2 ^ 8 := by
      rw [Nat.div_div_eq_div_mul, ← pow_add, show 28 - 8 * p + 8 = 36 - 8 * p by lia]
    have hpow : 2 ^ (36 - 8 * p) = 2 ^ 8 * 2 ^ (28 - 8 * p) := by rw [← pow_add, show 8 + (28 - 8 * p) = 36 - 8 * p by lia]
    rw [frame_high hp', gather_high hp' hframe, part, if_pos hp, part, if_pos (by omega), hsplit, hpow, ← Nat.mul_assoc,
      show 36 - 8 * (p + 1) = 28 - 8 * p by lia, ← Nat.shiftLeft_eq, ← Nat.shiftLeft_or_distrib, Nat.shiftLeft_eq,
      Nat.mul_comm _ (2 ^ 8), ← Nat.two_pow_add_eq_or_of_lt hframe, Nat.div_add_mod]
  · obtain rfl : p = 4 := by omega
    have hframe : w % 2 ^ 4 &&& 0x0f = w % 2 ^ 4 := by
      rw [show 0x0f = 2 ^ 4 - 1 from rfl, Nat.and_two_pow_sub_one_eq_mod, Nat.mod_mod]
    rw [frame_low]
    change part w 4 ||| (w % 2 ^ 4 &&& 0x0f) = w
    rw [hframe, part, if_pos hp, or_eq_add (Dvd.intro_left _ rfl) (Nat.mod_lt _ (by norm_num))]
    exact Nat.div_add_mod' w (2 ^ 4)

lemma part_zero (hw : w < 2 ^ 36) : part w 0 = 0 := by
  rw [part, if_pos (by norm_num), Nat.div_eq_of_lt hw, Nat.zero_mul]

/-- A word that has all of its bits in its frames. -/
def Fits (m w : ℕ) : Prop := w < 2 ^ 36 ∧ (m = 5 ∨ m = 4 ∧ w % 2 ^ 4 = 0)

lemma part_all (h : Fits m w) : part w m = w := by
  obtain ⟨-, rfl | ⟨rfl, hlow⟩⟩ := h
  · rfl
  · exact Nat.div_mul_cancel (Nat.dvd_of_mod_eq_zero hlow)

/-- The frames as they are put together backward: each one is put where the frame after it belongs. -/
def backPart (m w : ℕ) : ℕ → ℕ
  | 0 => 0
  | p + 1 => gather (backPart m w p) (m - p) (frame w (m - p - 1))

/-- **A word read backward** is the word that was written only when it has four bits. -/
theorem back_eq_iff (h : Fits m w) : backPart m w m = w ↔ w < 2 ^ 4 := by
  obtain ⟨hw, hm⟩ := h
  have hfour : 4 - 0 < 5 := by norm_num
  have h3 : frame w 3 = w / 2 ^ 4 % 2 ^ 8 := frame_high (by norm_num)
  have h2 : frame w 2 = w / 2 ^ 12 % 2 ^ 8 := frame_high (by norm_num)
  have h1 : frame w 1 = w / 2 ^ 20 % 2 ^ 8 := frame_high (by norm_num)
  have h0 : frame w 0 = w / 2 ^ 28 % 2 ^ 8 := frame_high (by norm_num)
  have hlast (x ch : ℕ) : gather x 4 ch = x ||| ch % 2 ^ 4 := by
    rw [← Nat.and_two_pow_sub_one_eq_mod]
    rfl
  -- the three frames before the last one come after the low bits
  have htail (x : ℕ) (hx : x < 2 ^ 4) :
      gather (gather (gather x 3 (frame w 2)) 2 (frame w 1)) 1 (frame w 0) = x + w / 2 ^ 12 * 2 ^ 4 := by
    rw [h2, h1, h0, gather_high (by norm_num) (Nat.mod_lt _ (by norm_num)), gather_high (by norm_num) (Nat.mod_lt _ (by norm_num)),
      gather_high (by norm_num) (Nat.mod_lt _ (by norm_num))]
    change x ||| (w / 2 ^ 12 % 2 ^ 8) <<< 4 ||| (w / 2 ^ 20 % 2 ^ 8) <<< 12 ||| (w / 2 ^ 28 % 2 ^ 8) <<< 20 = _
    rw [@or_shiftLeft_eq x _ 4 hx, @or_shiftLeft_eq (x + w / 2 ^ 12 % 2 ^ 8 * 2 ^ 4) _ 12 (by lia), or_shiftLeft_eq (by lia)]
    omega
  rcases hm with rfl | ⟨rfl, hlow⟩
  · have hfirst : backPart 5 w 5 = gather (gather (gather (w % 2 ^ 4 ||| w / 2 ^ 4 % 2 ^ 8 % 2 ^ 4) 3 (frame w 2)) 2 (frame w 1)) 1
        (frame w 0) := by
      rw [← hlast, ← h3, ← @frame_low w]
      change gather (gather (gather (gather (0 ||| (frame w 4 &&& 0x0f)) 4 (frame w 3)) 3 _) 2 _) 1 _ = _
      rw [Nat.zero_or, frame_low, show 0x0f = 2 ^ 4 - 1 from rfl, Nat.and_two_pow_sub_one_eq_mod, Nat.mod_mod]
    have hor : w % 2 ^ 4 ||| w / 2 ^ 4 % 2 ^ 8 % 2 ^ 4 < 2 ^ 4 :=
      Nat.or_lt_two_pow (Nat.mod_lt _ (by norm_num)) (Nat.mod_lt _ (by norm_num))
    rw [hfirst, htail _ hor]
    constructor
    · intro heq
      lia
    · intro hsmall
      rw [show w / 2 ^ 4 = 0 by omega, show w / 2 ^ 12 = 0 by lia, show w % 2 ^ 4 = w by omega]
      exact Nat.or_zero w
  · have hfirst : backPart 4 w 4 = gather (gather (gather (w / 2 ^ 4 % 2 ^ 8 % 2 ^ 4) 3 (frame w 2)) 2 (frame w 1)) 1 (frame w 0) := by
      rw [← h3]
      change gather (gather (gather (gather 0 4 (frame w 3)) 3 _) 2 _) 1 _ = _
      rw [hlast, Nat.zero_or]
    rw [hfirst, htail _ (Nat.mod_lt _ (by norm_num))]
    lia

/-! ### Services -/

/-- A drive that does a function, in a format. -/
structure Does (fnc : Fnc) (m : ℕ) (s : Tu) : Prop where
  attached : s.attached = true
  fnc : s.fnc = fnc
  format : ccMax s.tc = m

lemma ccMax_bic {tc mask : ℕ} (h : mask &&& tcFmtsel = 0) : ccMax (bic tc mask) = ccMax tc := by
  have hand : bic tc mask &&& tcFmtsel = tc &&& tcFmtsel := by
    refine Nat.eq_of_testBit_eq fun i ↦ ?_
    have hbit := congrArg (Nat.testBit · i) h
    simp only [Nat.testBit_and, Nat.zero_testBit] at hbit
    simp only [Nat.testBit_and, testBit_bic]
    cases hmask : mask.testBit i <;> cases hsel : Nat.testBit tcFmtsel i <;> simp_all
  rw [ccMax, ccMax, hand]

lemma counted_eq (s : Tu) : ∃ tc, counted s = { s with dc := (s.dc + 1) % 2 ^ 16, tc := tc } ∧ ccMax tc = ccMax s.tc := by
  refine ⟨_, rfl, ?_⟩
  split_ifs
  · exact ccMax_bic rfl
  · rfl

lemma Does.tuSrv_eq {fnc : Fnc} (h : Does fnc m s) : tuSrv s = serve fnc (moving s) := by
  rw [tuSrv, if_neg (by rw [h.attached]; decide), h.fnc]

lemma Does.format_eq {fnc : Fnc} (h : Does fnc m s) : ccMax (moving s).tc = m := (ccMax_bic rfl).trans h.format

/-- There are frames in the buffer. -/
def Small (s : Tu) : Prop := s.hwmark ≤ 64 * 1024

lemma Small.ne (h : Small s) : s.hwmark ≠ bufEmpty := fun heq ↦ by
  rw [Small, heq] at h
  exact absurd h (by decide)

/-- A record that is read forward: the frames that are still ahead. -/
structure Ahead (s : Tu) (ahead : List ℕ) : Prop where
  place : 0 ≤ s.dataptr
  mark : s.dataptr + ahead.length = s.hwmark
  small : Small s
  frames : ∀ i < ahead.length, s.tuBuf (s.dataptr.toNat + i) = ahead.getD i 0

/-- A service of a read: a frame. -/
lemma forward_frame (hs : Does .read m s) (h : Ahead s (ch :: ahead)) : ∃ u, Does .read m u ∧ Ahead u ahead ∧ u.cpos = s.cpos + 1 ∧
    u.buf = gather s.buf s.cpos ch ∧ u.taken = s.taken ∧ u.room = s.room ∧
    tuSrv s = if s.cpos + 1 = m then wordRead .read 0 u else .inl u := by
  obtain ⟨hplace, hmark, hsmall, hframes⟩ := h
  rw [List.length_cons] at hmark hframes
  obtain ⟨tc, hcounted, htc⟩ := counted_eq (moving s)
  have hch : s.tuBuf s.dataptr.toNat = ch := hframes 0 (by omega)
  have hpointer : ((moving s).dataptr % 2 ^ 32).toNat < (moving s).hwmark := by
    change (s.dataptr % 2 ^ 32).toNat < s.hwmark
    rw [Small] at hsmall
    lia
  refine ⟨{ s with
      dc := (s.dc + 1) % 2 ^ 16, tc := tc, buf := gather s.buf s.cpos ch, dataptr := s.dataptr + 1, cpos := s.cpos + 1 },
    ⟨hs.attached, hs.fnc, htc.trans hs.format_eq⟩, ⟨Int.le_add_one hplace, ?_, hsmall, fun i hi ↦ ?_⟩,
    rfl, rfl, rfl, rfl, ?_⟩
  · rw [← hmark]
    push_cast
    ring
  · have hnext := hframes (i + 1) (by omega)
    rw [List.getD_cons_succ] at hnext
    rw [← hnext, show s.dataptr.toNat + (i + 1) = (s.dataptr + 1).toNat + i by lia]
  · have hempty : (moving s).hwmark ≠ bufEmpty := hsmall.ne
    rw [hs.tuSrv_eq, serve, readForward, if_neg hempty, if_pos hpointer, hcounted, hs.format_eq, ← hch]
    rfl

/-- The last service. -/
lemma forward_end (hs : Does .read m s) (h : Ahead s []) (hcpos : s.cpos = 0) : ∃ t, tuSrv s = .inr t ∧ t.taken = s.taken := by
  obtain ⟨hplace, hmark, hsmall, -⟩ := h
  rw [List.length_nil] at hmark
  have hpointer : ¬ ((moving s).dataptr % 2 ^ 32).toNat < (moving s).hwmark := by
    change ¬ (s.dataptr % 2 ^ 32).toNat < s.hwmark
    rw [Small] at hsmall
    lia
  have hempty : (moving s).hwmark ≠ bufEmpty := hsmall.ne
  have hword : ¬ (moving s).cpos ≠ 0 := not_not.mpr hcpos
  rw [hs.tuSrv_eq, serve, readForward, if_neg hempty, if_neg hpointer, if_neg hword]
  exact ⟨_, rfl, rfl⟩

lemma frames_length : (frames m w).length = m := by rw [frames, List.length_map, List.length_range]

lemma frames_drop (hp : p < m) : (frames m w).drop p = frame w p :: (frames m w).drop (p + 1) := by
  have hlt : p < (frames m w).length := frames_length.symm ▸ hp
  rw [List.drop_eq_getElem_cons hlt]
  congr 1
  simp only [frames, List.getElem_map, List.getElem_range]

/-- The first frames of a word. -/
lemma forward_part (hs : Does .read m s) (h : Ahead s (frames m w ++ ahead)) (hcpos : s.cpos = 0) (hbuf : s.buf = 0)
    (hw : w < 2 ^ 36) (hm : m ≤ 5) (hp : p < m) : ∃ u, Iterate.run tuSrv p s = .inl u ∧ Does .read m u ∧
      Ahead u ((frames m w).drop p ++ ahead) ∧ u.cpos = p ∧ u.buf = part w p ∧ u.taken = s.taken ∧ u.room = s.room := by
  induction p with
  | zero => exact ⟨s, rfl, hs, h, hcpos, hbuf.trans (part_zero hw).symm, rfl, rfl⟩
  | succ p ih =>
    obtain ⟨u, hrun, hu, hahead, hcpos', hbuf', htaken, hroom⟩ := ih (by omega)
    rw [frames_drop (by omega), List.cons_append] at hahead
    obtain ⟨v, hv, hahead', hcposv, hbufv, htakenv, hroomv, hnext⟩ := forward_frame hu hahead
    rw [hcpos', if_neg (by lia)] at hnext
    refine ⟨v, ?_, hv, hahead', by lia, ?_, htakenv.trans htaken, hroomv.trans hroom⟩
    · rw [Iterate.run_succ_last, hrun]
      exact hnext
    · rw [hbufv, hbuf', hcpos', gather_part (by lia)]

/-- A word that is complete. -/
lemma wordRead_eq {fnc : Fnc} (hfnc : s.fnc = fnc) (hroom : s.room = n + 1) : wordRead fnc p s = if n = 0
    then .inr (tuError .ok { s with cpos := p, room := n, taken := s.taken ++ [s.buf] })
    else .inl { s with cpos := p, room := n, taken := s.taken ++ [s.buf], buf := 0 } := by
  rw [wordRead, if_pos hfnc, rhWrite]
  rw [hroom]
  rcases Nat.eq_zero_or_pos n with rfl | hn
  · rfl
  · have hmore : (n != 0) = true := bne_iff_ne.mpr (by omega)
    rw [if_neg (by omega)]
    dsimp only
    rw [hmore]
    rfl

/-- A word is read. -/
lemma forward_word (hs : Does .read m s) (h : Ahead s (frames m w ++ ahead)) (hcpos : s.cpos = 0) (hbuf : s.buf = 0)
    (hw : Fits m w) (hroom : s.room = n + 1) :
    if n = 0 then ∃ t, Iterate.run tuSrv m s = .inr t ∧ t.taken = s.taken ++ [w]
    else ∃ u, Iterate.run tuSrv m s = .inl u ∧ Does .read m u ∧ Ahead u ahead ∧ u.cpos = 0 ∧ u.buf = 0 ∧
      u.taken = s.taken ++ [w] ∧ u.room = n := by
  obtain ⟨k, rfl⟩ : ∃ k, m = k + 1 := ⟨m - 1, by have := hw.2; lia⟩
  have hk : k < 5 := by have := hw.2; omega
  obtain ⟨u, hrun, hu, hahead, hcpos', hbuf', htaken, hroom'⟩ := forward_part hs h hcpos hbuf hw.1 (by omega) (Nat.lt_succ_self k)
  rw [frames_drop (Nat.lt_succ_self k), List.cons_append, List.drop_eq_nil_of_le frames_length.le, List.nil_append] at hahead
  obtain ⟨v, hv, hahead', -, hbufv, htakenv, hroomv, hnext⟩ := forward_frame hu hahead
  have hword : v.buf = w := by rw [hbufv, hbuf', hcpos', gather_part hk, part_all hw]
  rw [hcpos', if_pos rfl, wordRead_eq hv.fnc (hroomv.trans (hroom'.trans hroom)), hword, htakenv, htaken] at hnext
  have hlast : Iterate.run tuSrv (k + 1) s = tuSrv u := by
    rw [Iterate.run_succ_last, hrun]
    rfl
  rw [hlast, hnext]
  split_ifs
  · exact ⟨_, rfl, rfl⟩
  · exact ⟨_, rfl, ⟨hv.attached, hv.fnc, hv.format⟩, ⟨hahead'.place, hahead'.mark, hahead'.small, hahead'.frames⟩, rfl, rfl, rfl, rfl⟩

/-- **A record is read forward.** The words come as they were written. -/
theorem forward_run (hs : Does .read m s) (h : Ahead s (ws.flatMap (frames m))) (hcpos : s.cpos = 0) (hbuf : s.buf = 0)
    (hws : ∀ w ∈ ws, Fits m w) (hroom : ws.length ≤ s.room) :
    ∃ n t, Iterate.run tuSrv n s = .inr t ∧ t.taken = s.taken ++ ws := by
  induction ws generalizing s with
  | nil =>
    obtain ⟨t, hrun, htaken⟩ := forward_end hs h hcpos
    exact ⟨1, t, by rw [Iterate.run_succ, hrun]; rfl, by rw [htaken, List.append_nil]⟩
  | cons w ws ih =>
    rw [List.flatMap_cons] at h
    rw [List.length_cons] at hroom
    obtain ⟨n, hn⟩ : ∃ n, s.room = n + 1 := ⟨s.room - 1, by omega⟩
    have hword := forward_word hs h hcpos hbuf (hws w List.mem_cons_self) hn
    split_ifs at hword with hzero
    · obtain ⟨t, hrun, htaken⟩ := hword
      have hnil : ws = [] := List.eq_nil_of_length_eq_zero (by lia)
      exact ⟨m, t, hrun, by rw [htaken, hnil]⟩
    · obtain ⟨u, hrun, hu, hahead, hcpos', hbuf', htaken, hroom'⟩ := hword
      obtain ⟨k, t, hrest, htaken'⟩ := ih hu hahead hcpos' hbuf' (fun v hv ↦ hws v (List.mem_cons_of_mem w hv)) (by omega)
      refine ⟨m + k, t, ?_, ?_⟩
      · rw [Iterate.run_add, hrun]
        exact hrest
      · rw [htaken', htaken, List.append_assoc, List.singleton_append]

/-- A record that is read backward: the frames that are still behind. -/
structure Behind (s : Tu) (behind : List ℕ) : Prop where
  place : s.dataptr + 1 = behind.length
  small : Small s
  frames : ∀ i < behind.length, s.tuBuf i = behind.getD i 0

/-- A service of a read in reverse: a frame. -/
lemma backward_frame (hs : Does .readrev m s) (h : Behind s (behind ++ [ch])) : ∃ u, Does .readrev m u ∧ Behind u behind ∧
    u.cpos = s.cpos - 1 ∧ u.buf = gather s.buf s.cpos ch ∧ u.taken = s.taken ∧ u.room = s.room ∧
    tuSrv s = if s.cpos - 1 = 0 then wordRead .readrev m u else .inl u := by
  obtain ⟨hplace, hsmall, hframes⟩ := h
  rw [List.length_append, List.length_singleton] at hplace hframes
  obtain ⟨tc, hcounted, htc⟩ := counted_eq (moving s)
  have hpointer : s.dataptr.toNat = behind.length := by lia
  have hch : s.tuBuf s.dataptr.toNat = ch := by
    rw [hpointer, hframes _ (by omega), List.getD_append_right _ _ _ _ le_rfl, Nat.sub_self]
    rfl
  have hmore : (moving s).dataptr ≥ 0 := by
    change s.dataptr ≥ 0
    omega
  refine ⟨{ s with
      dc := (s.dc + 1) % 2 ^ 16, tc := tc, buf := gather s.buf s.cpos ch, dataptr := s.dataptr - 1, cpos := s.cpos - 1 },
    ⟨hs.attached, hs.fnc, htc.trans hs.format_eq⟩, ⟨?_, hsmall, fun i hi ↦ ?_⟩, rfl, rfl, rfl, rfl, ?_⟩
  · change s.dataptr - 1 + 1 = _
    omega
  · exact (hframes i (by omega)).trans (List.getD_append _ _ _ _ hi)
  · have hempty : (moving s).hwmark ≠ bufEmpty := hsmall.ne
    rw [hs.tuSrv_eq, serve, readReverse, if_neg hempty, if_pos hmore, hcounted, hs.format_eq, ← hch]
    rfl

/-- The last service. -/
lemma backward_end (hs : Does .readrev m s) (h : Behind s []) (hcpos : s.cpos = m) : ∃ t, tuSrv s = .inr t ∧ t.taken = s.taken := by
  obtain ⟨hplace, hsmall, -⟩ := h
  rw [List.length_nil] at hplace
  have hempty : (moving s).hwmark ≠ bufEmpty := hsmall.ne
  have hmore : ¬ (moving s).dataptr ≥ 0 := by
    change ¬ s.dataptr ≥ 0
    omega
  have hword : ¬ (moving s).cpos ≠ m := not_not.mpr hcpos
  rw [hs.tuSrv_eq, serve, readReverse, if_neg hempty, if_neg hmore, hs.format_eq, if_neg hword]
  exact ⟨_, rfl, rfl⟩

lemma frames_take (hp : p < m) : (frames m w).take (m - p) = (frames m w).take (m - p - 1) ++ [frame w (m - p - 1)] := by
  have hlt : m - p - 1 < (frames m w).length := by rw [frames_length]; omega
  have htake := @List.take_append_getElem _ (frames m w) (m - p - 1) hlt
  have hget : (frames m w)[m - p - 1] = frame w (m - p - 1) := by simp only [frames, List.getElem_map, List.getElem_range]
  rw [hget, show m - p - 1 + 1 = m - p by omega] at htake
  exact htake.symm

/-- The last frames of a word. -/
lemma backward_part (hs : Does .readrev m s) (h : Behind s (behind ++ frames m w)) (hcpos : s.cpos = m) (hbuf : s.buf = 0)
    (hp : p < m) : ∃ u, Iterate.run tuSrv p s = .inl u ∧ Does .readrev m u ∧ Behind u (behind ++ (frames m w).take (m - p)) ∧
      u.cpos = m - p ∧ u.buf = backPart m w p ∧ u.taken = s.taken ∧ u.room = s.room := by
  induction p with
  | zero => exact ⟨s, rfl, hs, by rwa [Nat.sub_zero, List.take_of_length_le frames_length.le], hcpos, hbuf, rfl, rfl⟩
  | succ p ih =>
    obtain ⟨u, hrun, hu, hbehind, hcpos', hbuf', htaken, hroom⟩ := ih (by omega)
    rw [frames_take (by omega), ← List.append_assoc] at hbehind
    obtain ⟨v, hv, hbehind', hcposv, hbufv, htakenv, hroomv, hnext⟩ := backward_frame hu hbehind
    rw [hcpos', if_neg (by omega)] at hnext
    refine ⟨v, ?_, hv, hbehind', by lia, ?_, htakenv.trans htaken, hroomv.trans hroom⟩
    · rw [Iterate.run_succ_last, hrun]
      exact hnext
    · rw [hbufv, hbuf', hcpos', backPart]

/-- A word is read backward. -/
lemma backward_word (hs : Does .readrev m s) (h : Behind s (behind ++ frames m w)) (hcpos : s.cpos = m) (hbuf : s.buf = 0)
    (hm : 0 < m) (hroom : s.room = n + 1) :
    if n = 0 then ∃ t, Iterate.run tuSrv m s = .inr t ∧ t.taken = s.taken ++ [backPart m w m]
    else ∃ u, Iterate.run tuSrv m s = .inl u ∧ Does .readrev m u ∧ Behind u behind ∧ u.cpos = m ∧ u.buf = 0 ∧
      u.taken = s.taken ++ [backPart m w m] ∧ u.room = n := by
  obtain ⟨k, rfl⟩ : ∃ k, m = k + 1 := ⟨m - 1, by omega⟩
  obtain ⟨u, hrun, hu, hbehind, hcpos', hbuf', htaken, hroom'⟩ := backward_part hs h hcpos hbuf (Nat.lt_succ_self k)
  rw [frames_take (Nat.lt_succ_self k), show k + 1 - k - 1 = 0 by lia, List.take_zero, List.nil_append] at hbehind
  obtain ⟨v, hv, hbehind', -, hbufv, htakenv, hroomv, hnext⟩ := backward_frame hu hbehind
  have hword : v.buf = backPart (k + 1) w (k + 1) := by
    rw [hbufv, hbuf', hcpos', backPart, show k + 1 - k - 1 = 0 by lia]
  rw [hcpos', if_pos (by lia), wordRead_eq hv.fnc (hroomv.trans (hroom'.trans hroom)), hword, htakenv, htaken] at hnext
  have hlast : Iterate.run tuSrv (k + 1) s = tuSrv u := by
    rw [Iterate.run_succ_last, hrun]
    rfl
  rw [hlast, hnext]
  split_ifs
  · exact ⟨_, rfl, rfl⟩
  · exact ⟨_, rfl, ⟨hv.attached, hv.fnc, hv.format⟩, ⟨hbehind'.place, hbehind'.small, hbehind'.frames⟩, rfl, rfl, rfl, rfl⟩

/-- **A record is read backward.** The words come in reverse order, each one as its frames are put together backward. -/
theorem backward_run (hs : Does .readrev m s) (h : Behind s (ws.flatMap (frames m))) (hcpos : s.cpos = m) (hbuf : s.buf = 0)
    (hm : 0 < m) (hroom : ws.length ≤ s.room) :
    ∃ n t, Iterate.run tuSrv n s = .inr t ∧ t.taken = s.taken ++ (ws.map fun w ↦ backPart m w m).reverse := by
  induction ws using List.reverseRecOn generalizing s with
  | nil =>
    obtain ⟨t, hrun, htaken⟩ := backward_end hs h hcpos
    exact ⟨1, t, by rw [Iterate.run_succ, hrun]; rfl, htaken.trans (List.append_nil _).symm⟩
  | append_singleton ws w ih =>
    rw [List.flatMap_append, List.flatMap_singleton] at h
    rw [List.length_append, List.length_singleton] at hroom
    rw [List.map_append, List.map_singleton, List.reverse_append, List.reverse_singleton, ← List.append_assoc]
    obtain ⟨n, hn⟩ : ∃ n, s.room = n + 1 := ⟨s.room - 1, by lia⟩
    have hword := backward_word hs h hcpos hbuf hm hn
    split_ifs at hword with hzero
    · obtain ⟨t, hrun, htaken⟩ := hword
      have hnil : ws = [] := List.eq_nil_of_length_eq_zero (by lia)
      exact ⟨m, t, hrun, by rw [htaken, hnil, List.map_nil, List.reverse_nil, List.append_nil]⟩
    · obtain ⟨u, hrun, hu, hbehind, hcpos', hbuf', htaken, hroom'⟩ := hword
      obtain ⟨k, t, hrest, htaken'⟩ := ih hu hbehind hcpos' hbuf' (by lia)
      refine ⟨m + k, t, ?_, by rw [htaken', htaken]⟩
      rw [Iterate.run_add, hrun]
      exact hrest

/-! ### Writing -/

/-- The frames that are in the buffer for a record. -/
structure Filled (s : Tu) (before : List ℕ) : Prop where
  place : s.dataptr = s.hwmark
  length : s.hwmark = before.length
  small : before.length ≤ 64 * 1024
  record : record s = before

/-- The next word of the channel. -/
lemma feed_eq (hdc : s.dc ≠ 0) (hcpos : s.cpos = 0) (hwords : s.words = w :: ws) :
    feed s = { s with buf := w, words := ws, cpos := if ws = [] then 0o10 else 0 } := by
  rw [feed, if_pos ⟨hdc, hcpos⟩, rhRead]
  rw [hwords]
  cases ws with
  | nil =>
    dsimp only
    rw [hcpos]
    rfl
  | cons v ws =>
    dsimp only
    rw [hcpos]
    rfl

lemma feed_nil (hdc : s.dc ≠ 0) (hcpos : s.cpos = 0) (hwords : s.words = []) : feed s = { s with cpos := 0o10 } := by
  have hread : rhRead s = (false, s) := by
    rw [rhRead]
    rw [hwords]
  rw [feed, if_pos ⟨hdc, hcpos⟩, hread]
  dsimp only
  rw [if_pos rfl, hcpos]
  rfl

lemma feed_same (hcpos : s.cpos ≠ 0) : feed s = s := if_neg fun h ↦ hcpos h.2

lemma Does.write_eq (hs : Does .write m s) (hsmall : Small s) : tuSrv s = wordWritten (counted (put (feed (moving s)))) := by
  have hempty : (moving s).hwmark ≠ bufEmpty := hsmall.ne
  rw [hs.tuSrv_eq, serve, write, if_neg hempty]

/-- The position of a frame, and the flag that it shares its register with. -/
lemma cpos_parts {f : ℕ} (hf : f = 0 ∨ f = 0o10) (hp : p < 5) : f + p &&& 0o7 = p ∧
    (f + p &&& 0o10 ||| p + 1) = f + (p + 1) ∧ f + (p + 1) &&& 0o7 = p + 1 ∧ f + (p + 1) &&& 0o10 = f := by
  rcases hf with rfl | rfl <;> interval_cases p <;> decide

/-- A frame is put into the buffer. -/
lemma put_frame {f : ℕ} (hs : Does .write m s) (h : Filled s before) (hlength : before.length < 64 * 1024) (hf : f = 0 ∨ f = 0o10)
    (hcpos : s.cpos = f + p) (hp : p < m) (hm : m ≤ 5) : ∃ u, counted (put s) = u ∧ Does .write m u ∧
      Filled u (before ++ [frame s.buf p]) ∧ u.cpos = (if p + 1 = m then f else f + (p + 1)) ∧ u.buf = s.buf ∧ u.words = s.words ∧
      u.dc = (s.dc + 1) % 2 ^ 16 ∧ u.tape = s.tape := by
  obtain ⟨hplace, hmark, hsmall, hrecord⟩ := h
  obtain ⟨hlow, hnext, hlow', hflag⟩ := cpos_parts hf (show p < 5 by omega)
  obtain ⟨tc, hcounted, htc⟩ := counted_eq (put s)
  have hpointer : s.dataptr.toNat = s.hwmark := by lia
  have hmark' : (s.dataptr + 1).toNat = s.hwmark + 1 := by lia
  refine ⟨_, rfl, ?_⟩
  rw [hcounted]
  refine ⟨⟨hs.attached, hs.fnc, htc.trans hs.format⟩, ⟨?_, ?_, ?_, ?_⟩, ?_, rfl, rfl, rfl, rfl⟩
  · change s.dataptr + 1 = ((s.dataptr + 1).toNat : ℤ)
    lia
  · rw [List.length_append, List.length_singleton, ← hmark]
    exact hmark'
  · rw [List.length_append, List.length_singleton]
    lia
  · change (List.range (s.dataptr + 1).toNat).map (Function.update s.tuBuf s.dataptr.toNat (frame s.buf (s.cpos &&& 0o7))) = _
    rw [hmark', hpointer, List.range_succ, List.map_append, List.map_singleton, Function.update_self, hcpos, hlow, ← hrecord, record]
    refine congrArg (· ++ _) (List.map_congr_left fun i hi ↦ Function.update_of_ne ?_ _ _)
    have hlt := List.mem_range.mp hi
    lia
  · change (if (s.cpos &&& 0o10 ||| (s.cpos &&& 0o7) + 1) &&& 0o7 = ccMax s.tc
        then (s.cpos &&& 0o10 ||| (s.cpos &&& 0o7) + 1) &&& 0o10 else s.cpos &&& 0o10 ||| (s.cpos &&& 0o7) + 1) = _
    rw [hcpos, hlow, hnext, hlow', hflag, hs.format]

lemma Filled.isSmall (h : Filled s before) : Small s := by
  rw [Small, h.length]
  exact h.small

/-- A service of a write, after the first one for a word. -/
lemma write_frame {f : ℕ} (hs : Does .write m s) (h : Filled s before) (hlength : before.length < 64 * 1024) (hf : f = 0 ∨ f = 0o10)
    (hcpos : s.cpos = f + p) (hp : 1 ≤ p) (hp' : p < m) (hm : m ≤ 5) : ∃ u, tuSrv s = wordWritten u ∧ Does .write m u ∧
      Filled u (before ++ [frame s.buf p]) ∧ u.cpos = (if p + 1 = m then f else f + (p + 1)) ∧ u.buf = s.buf ∧ u.words = s.words ∧
      u.dc = (s.dc + 1) % 2 ^ 16 ∧ u.tape = s.tape := by
  have hmoving : Does .write m (moving s) := ⟨hs.attached, hs.fnc, hs.format_eq⟩
  have hfilled : Filled (moving s) before := ⟨h.place, h.length, h.small, h.record⟩
  have hsame : feed (moving s) = moving s := feed_same (show s.cpos ≠ 0 by omega)
  obtain ⟨u, hput, hu⟩ := put_frame hmoving hfilled hlength hf hcpos hp' hm
  exact ⟨u, by rw [hs.write_eq h.isSmall, hsame, hput], hu⟩

/-- A word is at hand, and the next service writes its first frame. -/
structure Fed (m : ℕ) (s : Tu) (before : List ℕ) (w f : ℕ) (rest : List ℕ) (t : Tu) : Prop where
  service : tuSrv s = wordWritten (counted (put t))
  does : Does .write m t
  filled : Filled t before
  flag : f = if rest = [] then 0o10 else 0
  cpos : t.cpos = f
  buf : t.buf = w
  words : t.words = rest

lemma Fed.flag_or {f : ℕ} (h : Fed m s before w f rest t) : f = 0 ∨ f = 0o10 := by
  have hf := h.flag
  split_ifs at hf
  · exact .inr hf
  · exact .inl hf

lemma frames_take_succ (hp : p < m) : (frames m w).take (p + 1) = (frames m w).take p ++ [frame w p] := by
  have htake := @frames_take m (m - p - 1) w (by omega)
  rwa [show m - (m - p - 1) = p + 1 by omega, show p + 1 - 1 = p by lia] at htake

/-- The frame count in a word. -/
lemma wordWritten_next (hdc : s.dc ≠ 0) (hcpos : s.cpos ≠ 0o10) : wordWritten s = .inl s := by
  rw [wordWritten, if_neg hdc, if_neg hcpos]

/-- The first frames of a word. -/
lemma write_part {f : ℕ} (h : Fed m s before w f rest t) (hm : m ≤ 5) (hdc : t.dc + m ≤ 2 ^ 16)
    (hlength : before.length + m ≤ 64 * 1024) (hp : 1 ≤ p) (hp' : p < m) : ∃ u, Iterate.run tuSrv p s = .inl u ∧ Does .write m u ∧
      Filled u (before ++ (frames m w).take p) ∧ u.cpos = f + p ∧ u.buf = w ∧ u.words = rest ∧ u.dc = t.dc + p ∧ u.tape = t.tape := by
  have hf := h.flag_or
  induction p, hp using Nat.le_induction with
  | base =>
    obtain ⟨u, hput, hu, hfilled, hcpos, hbuf, hwords, hdc', htape⟩ := @put_frame t before m 0 f h.does h.filled (by omega) hf h.cpos
      (by omega) hm
    rw [if_neg (by omega)] at hcpos
    refine ⟨u, ?_, hu, ?_, hcpos, hbuf.trans h.buf, hwords.trans h.words, by lia, htape⟩
    · rw [Iterate.run_succ, h.service, hput, wordWritten_next (by lia) (by omega)]
      rfl
    · rwa [frames_take_succ (by omega), List.take_zero, List.nil_append, ← h.buf]
  | succ p hp ih =>
    obtain ⟨u, hrun, hu, hfilled, hcpos, hbuf, hwords, hdc', htape⟩ := ih (by omega)
    have hplength : (before ++ (frames m w).take p).length = before.length + p := by
      rw [List.length_append, List.length_take, frames_length, Nat.min_eq_left (by omega)]
    obtain ⟨v, hservice, hv, hfilledv, hcposv, hbufv, hwordsv, hdcv, htapev⟩ := write_frame hu hfilled (by lia) hf hcpos hp
      (by omega) hm
    rw [if_neg (by omega)] at hcposv
    rw [hbuf, List.append_assoc, ← frames_take_succ (by lia)] at hfilledv
    refine ⟨v, ?_, hv, hfilledv, hcposv, hbufv.trans hbuf, hwordsv.trans hwords, by lia, htapev.trans htape⟩
    rw [Iterate.run_succ_last, hrun]
    change tuSrv u = _
    rw [hservice, wordWritten_next (by lia) (by lia)]

/-- A word is written. -/
lemma write_word {f : ℕ} (h : Fed m s before w f rest t) (hm : m ≤ 5) (hm' : 2 ≤ m) (hdc : t.dc + m ≤ 2 ^ 16)
    (hlength : before.length + m ≤ 64 * 1024) : if rest = [] ∨ t.dc + m = 2 ^ 16
      then ∃ u, Iterate.run tuSrv m s = .inr u ∧ u.tape = t.tape.wrrecf (before ++ frames m w)
      else ∃ u, Iterate.run tuSrv m s = .inl u ∧ Does .write m u ∧ Filled u (before ++ frames m w) ∧ u.cpos = 0 ∧ u.words = rest ∧
        u.dc = t.dc + m ∧ u.tape = t.tape := by
  have hf := h.flag_or
  obtain ⟨p, rfl⟩ : ∃ p, m = p + 1 := ⟨m - 1, by omega⟩
  obtain ⟨u, hrun, hu, hfilled, hcpos, hbuf, hwords, hdc', htape⟩ := write_part h hm hdc hlength (show 1 ≤ p by omega) (by omega)
  have hplength : (before ++ (frames (p + 1) w).take p).length = before.length + p := by
    rw [List.length_append, List.length_take, frames_length, Nat.min_eq_left (by omega)]
  obtain ⟨v, hservice, hv, hfilledv, hcposv, -, hwordsv, hdcv, htapev⟩ := write_frame hu hfilled (by lia) hf hcpos (by omega)
    (by omega) hm
  rw [if_pos rfl] at hcposv
  rw [hbuf, List.append_assoc, ← frames_take_succ (Nat.lt_succ_self p), List.take_of_length_le frames_length.le] at hfilledv
  have hlast : Iterate.run tuSrv (p + 1) s = wordWritten v := by
    rw [Iterate.run_succ_last, hrun]
    exact hservice
  have hflag := h.flag
  rw [hlast]
  split_ifs with hend
  · have hcpos10 : (if v.dc = 0 then 0o10 else v.cpos) = 0o10 := by
      split_ifs with hzero
      · rfl
      · rw [hcposv, hflag, if_pos]
        rcases hend with hnil | htotal
        · exact hnil
        · lia
    rw [wordWritten, if_pos hcpos10]
    refine ⟨_, rfl, ?_⟩
    change v.tape.wrrecf (record v) = _
    rw [hfilledv.record, htapev]
    exact congrArg (Tape.wrrecf _) htape
  · rw [not_or] at hend
    rw [if_neg hend.1] at hflag
    rw [wordWritten_next (by lia) (by omega)]
    exact ⟨v, rfl, hv, hfilledv, hcposv.trans hflag, hwordsv.trans hwords, by lia, htapev.trans htape⟩

/-- **The words are written**, until the channel has no more of them or the frames have been counted. -/
lemma write_words {f : ℕ} (h : Fed m s before w f rest t) (hm : m ≤ 5) (hm' : 2 ≤ m) (hn : 1 ≤ n) (hdc : t.dc + m * n = 2 ^ 16)
    (hlength : before.length + m * n ≤ 64 * 1024) :
    ∃ k u, Iterate.run tuSrv k s = .inr u ∧ u.tape = t.tape.wrrecf (before ++ ((w :: rest).take n).flatMap (frames m)) := by
  induction rest generalizing s t before w f n with
  | nil =>
    obtain ⟨n, rfl⟩ : ∃ i, n = i + 1 := ⟨n - 1, by omega⟩
    have hmul : m * (n + 1) = m * n + m := Nat.mul_succ m n
    have hword := write_word h hm hm' (by omega) (by omega)
    rw [if_pos (.inl rfl)] at hword
    obtain ⟨u, hrun, htape⟩ := hword
    exact ⟨m, u, hrun, by rw [htape, List.take_succ_cons, List.take_nil, List.flatMap_singleton]⟩
  | cons v rest ih =>
    obtain ⟨n, rfl⟩ : ∃ i, n = i + 1 := ⟨n - 1, by omega⟩
    have hmul : m * (n + 1) = m * n + m := Nat.mul_succ m n
    have hword := write_word h hm hm' (by omega) (by omega)
    by_cases hend : v :: rest = [] ∨ t.dc + m = 2 ^ 16
    · rw [if_pos hend] at hword
      obtain ⟨u, hrun, htape⟩ := hword
      have hn' : n = 0 := by
        rcases hend with hnil | htotal
        · exact absurd hnil (List.cons_ne_nil v rest)
        · have hzero : m * n = 0 := by omega
          exact (Nat.mul_eq_zero.mp hzero).resolve_left (by lia)
      exact ⟨m, u, hrun, by rw [htape, hn', List.take_succ_cons, List.take_zero, List.flatMap_singleton]⟩
    · rw [if_neg hend] at hword
      obtain ⟨u, hrun, hu, hfilled, hcpos, hwords, hdc', htape⟩ := hword
      rw [not_or] at hend
      have hn' : 1 ≤ n := by
        rcases Nat.eq_zero_or_pos n with rfl | hpos
        · exact absurd (by lia) hend.2
        · exact hpos
      have hmn : 0 < m * n := Nat.mul_pos (by lia) hn'
      have hfeed : feed (moving u) = { moving u with buf := v, words := rest, cpos := if rest = [] then 0o10 else 0 } :=
        @feed_eq (moving u) rest v (show u.dc ≠ 0 by lia) hcpos hwords
      have hfed : Fed m u (before ++ frames m w) v (if rest = [] then 0o10 else 0) rest
          { moving u with buf := v, words := rest, cpos := if rest = [] then 0o10 else 0 } :=
        ⟨by rw [hu.write_eq hfilled.isSmall, hfeed], ⟨hu.attached, hu.fnc, hu.format_eq⟩,
          ⟨hfilled.place, hfilled.length, hfilled.small, hfilled.record⟩, rfl, rfl, rfl, rfl⟩
      have hdc'' : (moving u).dc = t.dc + m := hdc'
      obtain ⟨k, x, hrest, htapex⟩ := ih hfed hn' (show (moving u).dc + m * n = 2 ^ 16 by lia)
        (by rw [List.length_append, frames_length]; omega)
      refine ⟨m + k, x, ?_, ?_⟩
      · rw [Iterate.run_add, hrun]
        exact hrest
      · rw [htapex, List.take_succ_cons, List.flatMap_cons, ← List.append_assoc]
        exact congrArg (Tape.wrrecf _) htape

/-- The words in a record: one of zeros, if the channel has no word. -/
def written (n : ℕ) (ws : List ℕ) : List ℕ := if ws = [] then [0] else ws.take n

lemma ccMax_cases (tc : ℕ) : ccMax tc = 4 ∨ ccMax tc = 5 := by
  rw [ccMax]
  split_ifs
  · exact .inr rfl
  · exact .inl rfl

/-- **A record is written.** -/
theorem write_run (hs : Does .write m s) (hempty : s.hwmark = bufEmpty) (hlocked : s.locked = false) (hdc : 0 < s.dc)
    (hcount : s.dc + m * n = 2 ^ 16) (hn : 1 ≤ n) :
    ∃ k t, Iterate.run tuSrv k s = .inr t ∧ t.tape = s.tape.wrrecf ((written n s.words).flatMap (frames m)) := by
  have hm : m = 4 ∨ m = 5 := hs.format ▸ ccMax_cases s.tc
  have hservice : tuSrv s = wordWritten (counted (put (feed (begun (moving s))))) := by
    have hempty' : (moving s).hwmark = bufEmpty := hempty
    have hdc' : (moving s).dc ≠ 0 := show s.dc ≠ 0 by omega
    have hlocked' : ¬ (moving s).locked = true := by
      change ¬ s.locked = true
      rw [hlocked]
      decide
    rw [hs.tuSrv_eq, serve, write, if_pos hempty', if_neg hdc', if_neg hlocked']
  have hdc' : (begun (moving s)).dc ≠ 0 := show s.dc ≠ 0 by omega
  cases hwords : s.words with
  | nil =>
    have hfeed : feed (begun (moving s)) = { begun (moving s) with cpos := 0o10 } := feed_nil hdc' rfl hwords
    rw [hfeed] at hservice
    obtain ⟨k, t, hrun, htape⟩ := @write_words s { begun (moving s) with cpos := 0o10 } [] [] m n 0 0o10 ⟨hservice,
      ⟨hs.attached, hs.fnc, hs.format_eq⟩, ⟨rfl, rfl, Nat.zero_le _, rfl⟩, rfl, rfl, rfl, hwords⟩ (by omega) (by lia) hn hcount
      (by rw [List.length_nil]; omega)
    refine ⟨k, t, hrun, ?_⟩
    obtain ⟨i, rfl⟩ : ∃ i, n = i + 1 := ⟨n - 1, by omega⟩
    rw [htape, written, if_pos rfl, List.nil_append, List.take_succ_cons, List.take_nil]
    rfl
  | cons w rest =>
    have hfeed := @feed_eq (begun (moving s)) rest w hdc' rfl hwords
    rw [hfeed] at hservice
    obtain ⟨k, t, hrun, htape⟩ := @write_words s _ rest [] m n w (if rest = [] then 0o10 else 0) ⟨hservice,
      ⟨hs.attached, hs.fnc, hs.format_eq⟩, ⟨rfl, rfl, Nat.zero_le _, rfl⟩, rfl, rfl, rfl, rfl⟩ (by omega) (by lia) hn hcount
      (by rw [List.length_nil]; omega)
    refine ⟨k, t, hrun, ?_⟩
    rw [htape, written, if_neg (List.cons_ne_nil w rest), List.nil_append]
    rfl

/-! ### Writing and reading -/

/-- A record gives words, in whatever state it is read. -/
def ReadsForward (m : ℕ) (r ws : List ℕ) : Prop :=
  ∀ u, Does .read m u → u.hwmark = bufEmpty → (∃ rest, u.tape.after = some r :: rest) → ws.length ≤ u.room →
    ∃ n t, Iterate.run tuSrv n u = .inr t ∧ t.taken = u.taken ++ ws
def ReadsBackward (m : ℕ) (r ws : List ℕ) : Prop :=
  ∀ u, Does .readrev m u → u.hwmark = bufEmpty → (∃ rest, u.tape.before = some r :: rest) → ws.length ≤ u.room →
    ∃ n t, Iterate.run tuSrv n u = .inr t ∧ t.taken = u.taken ++ ws

lemma flatMap_frames_length (ws : List ℕ) : (ws.flatMap (frames m)).length = m * ws.length := by
  induction ws with
  | nil => rfl
  | cons w ws ih => rw [List.flatMap_cons, List.length_append, frames_length, ih, List.length_cons, Nat.mul_succ, Nat.add_comm]

lemma found_some {r : List ℕ} (h : r.length ≤ 64 * 1024) : Tape.found (some r) = (.ok, r) := if_neg (by rw [numfr]; omega)

lemma rdrecf_some {tape : Tape} {r : List ℕ} {after : List (Option (List ℕ))} (h : tape.after = some r :: after)
    (hlength : r.length ≤ 64 * 1024) : tape.rdrecf = ((.ok, r), ⟨some r :: tape.before, after⟩) := by
  rw [Tape.rdrecf, h]
  dsimp only
  rw [found_some hlength]

lemma rdrecr_some {tape : Tape} {r : List ℕ} {before : List (Option (List ℕ))} (h : tape.before = some r :: before)
    (hlength : r.length ≤ 64 * 1024) : tape.rdrecr = ((.ok, r), ⟨before, some r :: tape.after⟩) := by
  rw [Tape.rdrecr, h]
  dsimp only
  rw [found_some hlength]

/-- A record is found and read. -/
theorem reads_forward (hws : ∀ w ∈ ws, Fits m w) (hlength : m * ws.length ≤ 64 * 1024) :
    ReadsForward m (ws.flatMap (frames m)) ws := by
  rintro u hu hempty ⟨rest, htape⟩ hroom
  have hlength' : (ws.flatMap (frames m)).length ≤ 64 * 1024 := flatMap_frames_length ws ▸ hlength
  have hempty' : (moving u).hwmark = bufEmpty := hempty
  have htape' : (moving u).tape.after = some (ws.flatMap (frames m)) :: rest := htape
  have hservice : tuSrv u = .inl (load (ws.flatMap (frames m)) 0 0
      { moving u with status := bic u.status dsPip, tape := ⟨some (ws.flatMap (frames m)) :: u.tape.before, rest⟩ }) := by
    rw [hu.tuSrv_eq, serve, readForward, if_pos hempty']
    dsimp only
    rw [rdrecf_some htape' hlength']
    rfl
  obtain ⟨n, t, hrun, htaken⟩ := @forward_run (load (ws.flatMap (frames m)) 0 0
      { moving u with status := bic u.status dsPip, tape := ⟨some (ws.flatMap (frames m)) :: u.tape.before, rest⟩ }) ws m
    ⟨hu.attached, hu.fnc, hu.format_eq⟩
    ⟨le_rfl, zero_add _, hlength', fun i hi ↦ by
      change (ws.flatMap (frames m)).getD (0 + i) _ = _
      rw [Nat.zero_add, List.getD_eq_getElem _ _ hi, List.getD_eq_getElem _ _ hi]⟩ rfl rfl hws hroom
  refine ⟨n + 1, t, ?_, htaken⟩
  rw [Iterate.run_succ, hservice]
  exact hrun

theorem reads_backward (hm : 0 < m) (hlength : m * ws.length ≤ 64 * 1024) :
    ReadsBackward m (ws.flatMap (frames m)) (ws.map fun w ↦ backPart m w m).reverse := by
  rintro u hu hempty ⟨rest, htape⟩ hroom
  have hlength' : (ws.flatMap (frames m)).length ≤ 64 * 1024 := flatMap_frames_length ws ▸ hlength
  have hempty' : (moving u).hwmark = bufEmpty := hempty
  have htape' : (moving u).tape.before = some (ws.flatMap (frames m)) :: rest := htape
  have hservice : tuSrv u = .inl (load (ws.flatMap (frames m)) ((ws.flatMap (frames m)).length - 1) m
      { moving u with status := bic u.status dsPip, tape := ⟨rest, some (ws.flatMap (frames m)) :: u.tape.after⟩ }) := by
    rw [hu.tuSrv_eq, serve, readReverse, if_pos hempty']
    dsimp only
    rw [rdrecr_some htape' hlength', hu.format_eq]
    rfl
  obtain ⟨n, t, hrun, htaken⟩ := @backward_run (load (ws.flatMap (frames m)) ((ws.flatMap (frames m)).length - 1) m
      { moving u with status := bic u.status dsPip, tape := ⟨rest, some (ws.flatMap (frames m)) :: u.tape.after⟩ }) ws m
    ⟨hu.attached, hu.fnc, hu.format_eq⟩
    ⟨sub_add_cancel _ _, hlength', fun i hi ↦ by
      change (ws.flatMap (frames m)).getD i _ = _
      rw [List.getD_eq_getElem _ _ hi, List.getD_eq_getElem _ _ hi]⟩ rfl rfl hm
    (by rwa [List.length_reverse, List.length_map] at hroom)
  refine ⟨n + 1, t, ?_, htaken⟩
  rw [Iterate.run_succ, hservice]
  exact hrun

/-- The words that are written come back from the record, forward and backward. -/
def RoundTrip (m n : ℕ) (s : Tu) : Prop :=
  ∃ k t r, Iterate.run tuSrv k s = .inr t ∧ t.tape = s.tape.wrrecf r ∧ ReadsForward m r (s.words.take n) ∧
    ReadsBackward m r (s.words.take n).reverse

/-- A drive that is to write words of a format, with a frame count of whole words. -/
structure Writes (m n : ℕ) (s : Tu) : Prop where
  does : Does .write m s
  empty : s.hwmark = bufEmpty
  unlocked : s.locked = false
  positive : 0 < s.dc
  count : s.dc + m * n = 2 ^ 16
  one : 1 ≤ n
  fits : ∀ w ∈ s.words, Fits m w

section RoundTrip

variable (h : Writes m n s)

include h

/-- The record is the one of the words, and it is short enough to be read. -/
lemma Writes.record_eq {k : ℕ} {r : List ℕ} (hrun : Iterate.run tuSrv k s = .inr t) (htape : t.tape = s.tape.wrrecf r) :
    r = (written n s.words).flatMap (frames m) := by
  obtain ⟨j, u, hrun', htape'⟩ := write_run h.does h.empty h.unlocked h.positive h.count h.one
  rw [← Iterate.run_unique hrun hrun', htape] at htape'
  exact Option.some.inj (List.cons.inj (congrArg Tape.before htape')).1

lemma Writes.length_le : m * (written n s.words).length ≤ 64 * 1024 := by
  have hlength : (written n s.words).length ≤ n := by
    rw [written]
    split_ifs
    · exact h.one
    · exact List.length_take_le n _
  have hmul := Nat.mul_le_mul_left m hlength
  have hcount := h.count
  omega

lemma Writes.format_pos : 0 < m := by
  have hm := ccMax_cases s.tc
  rw [h.does.format] at hm
  omega

/-- A channel without words: a word comes back that was not written. -/
lemma Writes.words_ne (hround : RoundTrip m n s) : s.words ≠ [] := by
  intro hnil
  obtain ⟨k, t, r, hrun, htape, hforward, -⟩ := hround
  have hr := h.record_eq hrun htape
  have hlength := h.length_le
  rw [written, if_pos hnil] at hr hlength
  have hzero : ∀ w ∈ [0], Fits m w := fun w hw ↦ by
    rw [List.mem_singleton.mp hw]
    have hm := ccMax_cases s.tc
    rw [h.does.format] at hm
    exact ⟨by norm_num, hm.symm.imp_right fun h ↦ ⟨h, rfl⟩⟩
  have hu : Does .read m { s with fnc := .read, tape := ⟨[], [some r]⟩, room := 1 } := ⟨h.does.attached, rfl, h.does.format⟩
  obtain ⟨i, v, hrunv, htaken⟩ := hforward _ hu h.empty ⟨[], rfl⟩ (by rw [hnil, List.take_nil]; exact Nat.zero_le _)
  obtain ⟨j, x, hrunx, htaken'⟩ := reads_forward hzero hlength _ hu h.empty ⟨[], by rw [hr]⟩ le_rfl
  rw [Iterate.run_unique hrunx hrunv, htaken, hnil, List.take_nil] at htaken'
  exact absurd (List.append_cancel_left htaken') (List.cons_ne_nil _ _).symm

/-- Every word is as it comes back when it is read backward. -/
lemma Writes.back_eq (hround : RoundTrip m n s) {w : ℕ} (hw : w ∈ s.words.take n) : backPart m w m = w := by
  have hne := h.words_ne hround
  obtain ⟨k, t, r, hrun, htape, -, hbackward⟩ := hround
  have hr := h.record_eq hrun htape
  have hlength := h.length_le
  rw [written, if_neg hne] at hr hlength
  have hu : Does .readrev m { s with fnc := .readrev, tape := ⟨[some r], []⟩, room := (s.words.take n).length } :=
    ⟨h.does.attached, rfl, h.does.format⟩
  obtain ⟨i, v, hrunv, htaken⟩ := hbackward _ hu h.empty ⟨[], rfl⟩ (by rw [List.length_reverse])
  obtain ⟨j, x, hrunx, htaken'⟩ := reads_backward h.format_pos hlength _ hu h.empty ⟨[], by rw [hr]⟩
    (by rw [List.length_reverse, List.length_map])
  rw [Iterate.run_unique hrunx hrunv, htaken] at htaken'
  have hmap := List.reverse_injective (List.append_cancel_left htaken')
  have hall : (s.words.take n).map (fun w ↦ backPart m w m) = (s.words.take n).map id := by rw [List.map_id, ← hmap]
  exact List.map_inj_left.mp hall w hw

end RoundTrip

/-- **Words on a tape.** They come back forward and backward just if there are any and each of them has no more than the four bits of the
last frame: backward, the frames are put one place after their own. -/
theorem tape_words_iff (h : Writes m n s) : RoundTrip m n s ↔ s.words ≠ [] ∧ ∀ w ∈ s.words.take n, w < 2 ^ 4 := by
  constructor
  · intro hround
    exact ⟨h.words_ne hround, fun w hw ↦ (back_eq_iff (h.fits w (List.mem_of_mem_take hw))).mp (h.back_eq hround hw)⟩
  · rintro ⟨hne, hsmall⟩
    obtain ⟨k, t, hrun, htape⟩ := write_run h.does h.empty h.unlocked h.positive h.count h.one
    have hlength := h.length_le
    rw [written, if_neg hne] at htape hlength
    refine ⟨k, t, _, hrun, htape, reads_forward (fun w hw ↦ h.fits w (List.mem_of_mem_take hw)) hlength, ?_⟩
    have hback : (s.words.take n).map (fun w ↦ backPart m w m) = s.words.take n :=
      List.map_congr_left (g := id) (fun w hw ↦ (back_eq_iff (h.fits w (List.mem_of_mem_take hw))).mpr (hsmall w hw)) |>.trans
        (List.map_id _)
    have hreads := reads_backward h.format_pos hlength
    rwa [hback] at hreads

/-- A drive that is to write a word in the format of a core dump. -/
def oneWord (w : ℕ) : Tu :=
  { fnc := .write, go := true, attached := true, locked := false, status := dsPip, er1 := 0, tc := tcFcs, dc := 2 ^ 16 - 5
    hwmark := bufEmpty, dataptr := 0, cpos := 0, buf := 0, tuBuf := fun _ ↦ 0, tape := ⟨[], []⟩, words := [w], taken := [], room := 0 }

lemma oneWord_writes (hw : w < 2 ^ 36) : Writes 5 1 (oneWord w) :=
  ⟨⟨rfl, rfl, show ccMax tcFcs = 5 by decide⟩, rfl, rfl, show 0 < 2 ^ 16 - 5 by norm_num,
    show 2 ^ 16 - 5 + 5 * 1 = 2 ^ 16 by norm_num, le_rfl, fun v hv ↦ by
    rw [List.mem_singleton.mp hv]
    exact ⟨hw, .inl rfl⟩⟩

theorem tape_words_iff_small : RoundTrip 5 1 (oneWord 7) :=
  (tape_words_iff (oneWord_writes (by norm_num))).mpr ⟨List.cons_ne_nil _ _, fun w hw ↦ by
    rw [List.mem_singleton.mp hw]
    norm_num⟩

theorem word_shifted : ¬ RoundTrip 5 1 (oneWord 0o20) := fun hround ↦
  absurd ((oneWord_writes (by norm_num)).back_eq hround (List.mem_singleton.mpr rfl)) (by decide)

end Ka10Simh.Pdp10.Tm03
