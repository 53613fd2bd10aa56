import Ka10Simh.Ibm360.Channel.Data

/-!
Data written into the storage by a device, and the transfers of a device as a whole.

* `Writes`: a subchannel at a byte of an area; a word that has been changed is in its buffer.
* `WriteOk`, `chanWriteByte_right`: where the byte that is written is the one of the area.
* `Transfer`, `transfer_right`: a transfer beside the areas it goes through.
* `backward_page`: a transfer backward over the beginning of a page.
-/

namespace Ka10Simh.Ibm360

open Word Fields TransSys

variable {c : Channels} {t u v : Sub c} {a e : Area} {mem : ℕ → ℕ}

namespace Area

variable (c) (mem : ℕ → ℕ) (a : Area)

/-- A byte that is written, and what is left then. The next command of a chain is loaded at once, after a byte that is
skipped with the next byte. -/
def put (data : ℕ) : ℕ → ℕ := if a.Skips then mem else storage.put a.addr data mem
def after (back : Bool) : Area := if a.Skips then a.next c mem back else (a.next c mem back).ready c mem

variable {c mem a}

lemma next_skips (back : Bool) : (a.next c mem back).Skips ↔ a.Skips := by rw [Skips, Skips, next_flags]

/-- The place depends on the address, and in a list on where it is. -/
lemma move_congr {b : Area} {back : Bool} (haddr : b.addr = a.addr) (hflags : b.flags = a.flags)
    (hlist : a.Ida c → b.list = a.list) :
    (b.move c mem back).addr = (a.move c mem back).addr
      ∧ (a.Ida c → (b.move c mem back).list = (a.move c mem back).list) := by
  have hbeside : b.beside back = a.beside back := by rw [beside, beside, haddr]
  have hcross : b.Crosses c back ↔ a.Crosses c back := by rw [Crosses, Crosses, Ida, Ida, hflags, hbeside]
  rw [move, move]
  by_cases h : a.Crosses c back
  · rw [if_pos (hcross.mpr h), if_pos h, hlist h.1]
    exact ⟨rfl, fun _ => rfl⟩
  · rw [if_neg fun h' => h (hcross.mp h'), if_neg h]
    exact ⟨hbeside, hlist⟩

/-- Within a word nothing is crossed backward. -/
lemma move_backInWord (hsize : a.addr < 2 ^ 24) (hin : a.addr % 4 ≠ 0) :
    a.move c mem true = { a with addr := a.addr - 1 } := by
  have hbeside : a.beside true = a.addr - 1 := by
    rw [beside, if_pos rfl, sub32]
    lia
  have hcross : ¬ a.Crosses c true := fun h => by
    have hlast : a.addr - 1 &&& 0x7ff = 0x7ff := by
      rw [← hbeside]
      exact h.2
    have hmod := (Nat.and_two_pow_sub_one_eq_mod (a.addr - 1) 11).symm.trans hlast
    omega
  rw [move, if_neg hcross, hbeside]

end Area

namespace Sub

variable (t : Sub c)

/-- The direction. -/
def back : Bool := decide t.Backward

/-- What is left, as the subchannel has it, and the last byte of the word in the buffer. -/
def area : Area := ⟨t.bufferAddr, t.chan.ccwAddr, t.chan.ccwCount, t.chan.caw, t.chan.ccwFlags⟩
def edge : Area := { t.area with addr := t.bufferAddr / 4 * 4 + if t.back = true then 0 else 3 }

variable {t}

/-- The rest is as it was. -/
lemma setAddr_io (x : ℕ) : (t.setAddr x).io = t.io := rfl

lemma setAddr_chan (x : ℕ) : (t.setAddr x).chan = { t.chan with ccwAddr := x, ccwIaddr := t.chan.ccwIaddr } := rfl

/-- The address of the buffer and the direction depend on a few fields. -/
lemma bufferAddr_congr (hflags : u.chan.ccwFlags = t.chan.ccwFlags) (haddr : u.chan.ccwAddr = t.chan.ccwAddr)
    (hiaddr : u.chan.ccwIaddr = t.chan.ccwIaddr) : u.bufferAddr = t.bufferAddr := by
  have hind : u.Indirect ↔ t.Indirect := by rw [Indirect, Indirect, hflags]
  rw [bufferAddr, bufferAddr, if_congr hind hiaddr haddr]

lemma back_congr (h : u.chan.ccwCmd = t.chan.ccwCmd) : u.back = t.back := by
  have hback : u.Backward ↔ t.Backward := by rw [Backward, Backward, h]
  rw [back, back, decide_eq_decide.mpr hback]

end Sub

/-! ### The buffer -/

/-- What a subchannel with a word in its buffer has in any case: `mem` is the storage with that word. -/
structure Carries (t : Sub c) (mem : ℕ → ℕ) (a : Area) : Prop where
  quiet : Quiet t
  left : t.chan.ccwCount = a.left
  caw : t.chan.caw = a.caw
  flags : t.chan.ccwFlags = a.flags
  size : t.bufferAddr < c.memsize
  stored : mem = Function.update t.io.mem (t.bufferAddr >>> 2) t.chan.chanBuf

/-- The next byte is in the word. -/
structure InWord (t : Sub c) (a : Area) : Prop where
  word : a.addr / 4 = t.bufferAddr / 4
  list : a.Ida c → t.chan.ccwAddr = a.list

/-- The word is full, and the next byte is beside it. -/
structure Full (t : Sub c) (mem : ℕ → ℕ) (a : Area) : Prop where
  byte : t.chan.chanByte = buffEmpty ||| buffDirty
  addr : a.addr = (t.edge.move c mem t.back).addr
  list : a.Ida c → a.list = (t.edge.move c mem t.back).list

/-- A word that the next byte goes into, and one that has been changed. -/
structure Opened (t : Sub c) (mem : ℕ → ℕ) (a : Area) : Prop extends Carries t mem a, InWord t a where
  byte : t.chan.chanByte = a.addr % 4 ∨ t.chan.chanByte = 8 + a.addr % 4

structure Dirty (t : Sub c) (mem : ℕ → ℕ) (a : Area) : Prop extends Carries t mem a where
  takes : ¬ a.Skips
  going : ¬ (a.left = 0 ∧ a.Chains)
  store : CanStore c t.io.key t.chan.ccwKey t.bufferAddr
  place : InWord t a ∧ t.chan.chanByte = 8 + a.addr % 4 ∨ Full t mem a

/-- The storage is as it must be, or the buffer has the word of it that is not. -/
def Writes (t : Sub c) (mem : ℕ → ℕ) (a : Area) : Prop := Stands t a ∧ t.io.mem = mem ∨ Dirty t mem a

lemma Writes.quiet (h : Writes t mem a) : Quiet t ∧ t.chan.ccwFlags = a.flags ∧ t.chan.chanByte ≠ buffChnend := by
  rcases h with ⟨hs, -⟩ | hd
  · refine ⟨hs.quiet, hs.flags, ?_⟩
    rw [hs.empty]
    decide
  · refine ⟨hd.quiet, hd.flags, ?_⟩
    rcases hd.place with ⟨-, hbyte⟩ | hfull
    · rw [hbyte]
      show 8 + a.addr % 4 ≠ 16
      omega
    · rw [hfull.byte]
      decide

/-- A byte put into a word. -/
lemma storeByte_eq (word byte : ℕ) {data : ℕ} (hdata : data < 2 ^ 8) :
    storeByte word byte data = deposit (8 * (3 - (byte &&& 3))) 8 data word := by
  have hlt : byte &&& 3 < 4 := Nat.and_lt_two_pow (n := 2) byte (by norm_num)
  rw [storeByte, deposit]
  generalize byte &&& 3 = k at hlt ⊢
  have hmask : 0xff000000 >>> (8 * k) = mask (8 * (3 - k)) 8 := by
    interval_cases k <;> decide
  have hpos : 24 - 8 * k = 8 * (3 - k) := by lia
  have hvalue : data <<< (8 * (3 - k)) &&& mask (8 * (3 - k)) 8 = data <<< (8 * (3 - k)) := by
    rw [mask, ← Nat.shiftLeft_and_distrib, Nat.and_two_pow_sub_one_eq_mod, Nat.mod_eq_of_lt hdata]
  rw [hmask, hpos, hvalue]

/-- A byte put into the word of the buffer is put into the storage. -/
lemma Opened.put (h : Opened t mem a) {data : ℕ} (hdata : data < 2 ^ 8) :
    storage.put a.addr data mem
      = Function.update t.io.mem (t.bufferAddr >>> 2) (storeByte t.chan.chanBuf t.chan.chanByte data) := by
  have hword : a.addr >>> 2 = t.bufferAddr >>> 2 := by
    rw [Nat.shiftRight_eq_div_pow, Nat.shiftRight_eq_div_pow]
    exact h.word
  have hbyte : t.chan.chanByte &&& 3 = a.addr &&& 3 := by
    rw [and_three, and_three]
    rcases h.byte with hb | hb <;> lia
  have hplace : storage.place a.addr = t.bufferAddr >>> 2 := hword
  rw [storeByte_eq _ _ hdata, hbyte, h.stored, Layout.put, hplace, Function.update_self, Function.update_idem]
  rfl

/-- Bytes of one word may be stored alike. -/
lemma CanStore.sameWord {key : ℕ → ℕ} {ccwKey x y : ℕ} (h : CanStore c key ccwKey x) (hword : x / 4 = y / 4) :
    CanStore c key ccwKey y := by
  have hdvd := c.memsize_dvd
  have hpage : y >>> 11 = x >>> 11 := by
    rw [Nat.shiftRight_eq_div_pow, Nat.shiftRight_eq_div_pow]
    lia
  refine ⟨?_, fun hne => ?_⟩
  · have hlt := h.1
    omega
  · rw [hpage]
    exact h.2 hne

/-! ### The address moved on -/

/-- The address is moved on as that of an area is. `fwd` and `bwd` are what the code adds and subtracts, and `k` is the
place in a page that it looks for when it goes backward. -/
lemma advance_of_can (fwd bwd : ℕ → ℕ) (k : ℕ) (hind : v.Indirect ↔ e.Ida c)
    (hfwd : v.back = false → fwd v.bufferAddr = e.beside false)
    (hbwd : v.back = true → bwd v.bufferAddr = e.beside true)
    (hcrossed : v.back = true → e.Ida c → (e.beside true &&& 0x7ff = k ↔ e.Crosses c true))
    (hlist : e.Ida c → v.chan.ccwAddr = e.list)
    (hcan : e.Crosses c v.back → CanFetch c v.io.key v.chan.ccwKey (add32 e.list 4)) :
    ∃ w : Sub c, ∃ x y,
      (if v.Indirect then
        if v.Backward then v.setIaddr (bwd v.chan.ccwIaddr) (· = k) else v.setIaddr (fwd v.chan.ccwIaddr) (· = 0)
      else if v.Backward then v.setAddr (bwd v.chan.ccwAddr) else v.setAddr (fwd v.chan.ccwAddr)) = w
      ∧ w.chan = { v.chan with ccwAddr := x, ccwIaddr := y } ∧ w.io.mem = v.io.mem ∧ SameKeys v.io.key w.io.key
      ∧ (if e.Ida c then y else x) = (e.move c v.io.mem v.back).addr
      ∧ (e.Ida c → x = (e.move c v.io.mem v.back).list) := by
  by_cases hida : e.Ida c
  · have hbuffer : v.bufferAddr = v.chan.ccwIaddr := if_pos (hind.mpr hida)
    rw [hbuffer] at hfwd hbwd
    rw [if_pos (hind.mpr hida)]
    simp only [if_pos hida]
    by_cases hback : v.Backward
    · have htrue : v.back = true := decide_eq_true hback
      rw [if_pos hback]
      rw [htrue] at hcan ⊢
      obtain ⟨hchan, hmem, hkeys⟩ := setIaddr_of_can (u := v) (a := e) (· = k) true (hbwd htrue)
        (by rw [hbwd htrue]; exact hcrossed htrue hida) (hlist hida) hcan
      exact ⟨_, _, _, rfl, hchan, hmem, hkeys, rfl, fun _ => rfl⟩
    · have hfalse : v.back = false := decide_eq_false hback
      rw [if_neg hback]
      rw [hfalse] at hcan ⊢
      obtain ⟨hchan, hmem, hkeys⟩ := setIaddr_of_can (u := v) (a := e) (· = 0) false (hfwd hfalse)
        (by rw [hfwd hfalse]; exact ⟨fun h => ⟨hida, h⟩, And.right⟩) (hlist hida) hcan
      exact ⟨_, _, _, rfl, hchan, hmem, hkeys, rfl, fun _ => rfl⟩
  · have hbuffer : v.bufferAddr = v.chan.ccwAddr := if_neg fun h => hida (hind.mp h)
    have hmove : (e.move c v.io.mem v.back).addr = e.beside v.back := by rw [Area.move, if_neg fun h => hida h.1]
    rw [hbuffer] at hfwd hbwd
    rw [if_neg fun h => hida (hind.mp h)]
    simp only [if_neg hida, hmove]
    by_cases hback : v.Backward
    · have htrue : v.back = true := decide_eq_true hback
      rw [if_pos hback, htrue, hbwd htrue]
      exact ⟨_, e.beside true, v.chan.ccwIaddr, rfl, Sub.setAddr_chan _, by rw [Sub.setAddr_io],
        fun _ => by rw [Sub.setAddr_io], rfl, fun h => absurd h hida⟩
    · have hfalse : v.back = false := decide_eq_false hback
      rw [if_neg hback, hfalse, hfwd hfalse]
      exact ⟨_, e.beside false, v.chan.ccwIaddr, rfl, Sub.setAddr_chan _, by rw [Sub.setAddr_io],
        fun _ => by rw [Sub.setAddr_io], rfl, fun h => absurd h hida⟩

/-- A subchannel that has been moved on. -/
lemma stands_of_chan (hquiet : Quiet t) {n x y : ℕ} (hcount : n < 2 ^ 16)
    (hchan : u.chan = { t.chan with ccwCount := n, chanByte := buffEmpty, ccwAddr := x, ccwIaddr := y })
    (hleft : n = a.left) (hcaw : t.chan.caw = a.caw) (hflags : t.chan.ccwFlags = a.flags)
    (haddr : (if a.Ida c then y else x) = a.addr) (hlist : a.Ida c → x = a.list) : Stands u a := by
  have hflags' : u.chan.ccwFlags = a.flags := by rw [hchan, ← hflags]
  refine ⟨⟨?_, ?_, ?_⟩, ?_, ?_, hflags', ?_, ?_, ?_⟩
  · rw [hchan]
    exact hcount
  · rw [hchan]
    exact hquiet.error
  · rw [hchan]
    exact hquiet.modifier
  · rw [hchan, ← hleft]
  · rw [hchan, ← hcaw]
  · rw [hchan]
  · rw [Sub.bufferAddr, if_congr (indirect_iff hflags') rfl rfl, hchan, ← haddr]
  · intro hida
    rw [hchan, ← hlist hida]

/-- A byte that is skipped. -/
lemma skipByte_of_can (hs : Stands t a) (hleft : a.left ≠ 0)
    (hcan : a.Crosses c t.back → CanFetch c t.io.key t.chan.ccwKey (add32 a.list 4)) :
    ∃ u, skipByte t = u ∧ Keeps t u ∧ u.io.mem = t.io.mem ∧ Stands u (a.next c t.io.mem t.back) := by
  have hcount := hs.quiet.count
  have hdec : dec16 t.chan.ccwCount = a.left - 1 := by
    rw [dec16_eq (by rw [hs.left]; exact hleft) hcount, hs.left]
  have hbuffer : ({ t with chan := { t.chan with
      ccwCount := a.left - 1, chanByte := buffEmpty } } : Sub c).bufferAddr = a.addr :=
    (Sub.bufferAddr_congr rfl rfl rfl).trans hs.addr
  rw [skipByte, hdec]
  simp only
  obtain ⟨w, x, y, hw, hchan, hmem, hkeys, haddr, hlist⟩ := advance_of_can
    (v := { t with chan := { t.chan with ccwCount := a.left - 1, chanByte := buffEmpty } }) (e := a)
    (add32 · 1) (sub32 · 1) 0x7ff (indirect_iff hs.flags)
    (fun _ => by rw [hbuffer, Area.beside, if_neg Bool.false_ne_true])
    (fun _ => by rw [hbuffer, Area.beside, if_pos rfl])
    (fun _ hida => ⟨fun h => ⟨hida, h⟩, And.right⟩) hs.list hcan
  rw [hw]
  refine ⟨w, rfl, ⟨hkeys, by rw [hchan], by rw [hchan]⟩, hmem, ?_⟩
  refine stands_of_chan hs.quiet (n := a.left - 1) (x := x) (y := y) (by rw [← hs.left]; omega) (by rw [hchan]) rfl
    (hs.caw.trans (Area.next_caw t.back).symm) (hs.flags.trans (Area.next_flags t.back).symm) ?_ ?_
  · rw [if_congr (Area.next_ida t.back) rfl rfl]
    exact haddr
  · exact fun hida => hlist ((Area.next_ida t.back).mp hida)

/-- The last byte of a word. -/
lemma edge_beside :
    (t.back = false → add32 t.bufferAddr (4 - (t.bufferAddr &&& 3)) = t.edge.beside false)
      ∧ (t.back = true → sub32 t.bufferAddr (1 + (t.bufferAddr &&& 3)) = t.edge.beside true
        ∧ t.edge.beside true &&& 0x7ff ≠ 0x7fc) := by
  rw [and_three]
  constructor
  · intro hback
    have haddr : t.edge.addr = t.bufferAddr / 4 * 4 + 3 := by rw [Sub.edge, hback, if_neg Bool.false_ne_true]
    rw [Area.beside, if_neg Bool.false_ne_true, haddr, add32, add32]
    lia
  · intro hback
    have haddr : t.edge.addr = t.bufferAddr / 4 * 4 := by rw [Sub.edge, hback, if_pos rfl, Nat.add_zero]
    have hbeside : t.edge.beside true = (t.bufferAddr / 4 * 4 + 2 ^ 32 - 1) % 2 ^ 32 := by
      rw [Area.beside, if_pos rfl, haddr, sub32]
    rw [hbeside]
    refine ⟨?_, fun h => ?_⟩
    · rw [sub32]
      lia
    · have hmod := (Nat.and_two_pow_sub_one_eq_mod ((t.bufferAddr / 4 * 4 + 2 ^ 32 - 1) % 2 ^ 32) 11).symm.trans h
      omega

/-- A word that is full is written. In a list the next page is found when it is the one after it. -/
lemma saveWord_of_can (hd : Dirty t mem a) (hfull : Full t mem a)
    (hsave : t.edge.Crosses c t.back → t.back = false ∧ CanFetch c t.io.key t.chan.ccwKey (add32 t.chan.ccwAddr 4)) :
    ∃ u, saveWord t = (u, false) ∧ Keeps t u ∧ u.io.mem = mem ∧ Stands u a := by
  obtain ⟨v, hv, hvchan, hvmem, hvkeys⟩ := writebuff_of_can hd.store
  rw [← hd.stored] at hvmem
  have hbuffer : v.bufferAddr = t.bufferAddr := Sub.bufferAddr_congr (by rw [hvchan]) (by rw [hvchan]) (by rw [hvchan])
  have hback : v.back = t.back := Sub.back_congr (by rw [hvchan])
  have hida : t.edge.Ida c ↔ a.Ida c := by
    show t.chan.ccwFlags &&& flagIda ≠ 0 ∧ _ ↔ _
    rw [hd.flags]
    exact Iff.rfl
  obtain ⟨hfwd, hbwd⟩ := edge_beside (t := t)
  obtain ⟨w, x, y, hw, hchan, hmem, hkeys, haddr, hlist⟩ := advance_of_can (v := v) (e := t.edge)
    (fun n => add32 n (4 - (n &&& 3))) (fun n => sub32 n (1 + (n &&& 3))) 0x7fc
    (by rw [Sub.Indirect, hvchan]; exact Iff.rfl) (by rw [hback, hbuffer]; exact hfwd)
    (by rw [hback, hbuffer]; exact fun h => (hbwd h).1)
    (fun h _ => by
      rw [hback] at h
      refine iff_of_false (hbwd h).2 fun hcross => ?_
      rw [h] at hsave
      exact absurd (hsave hcross).1 Bool.noConfusion)
    (fun _ => by rw [hvchan]; rfl)
    (fun hcross => by
      rw [hback] at hcross
      rw [hvchan]
      exact hvkeys.canFetch (hsave hcross).2)
  rw [saveWord, hv]
  simp only [Bool.false_eq_true, if_false]
  rw [hback, hvmem] at haddr hlist
  refine ⟨w.setByte buffEmpty, by rw [← hw], ⟨hvkeys.trans hkeys, ?_, ?_⟩, hmem.trans hvmem, ?_⟩
  · show w.chan.ccwKey = _
    rw [hchan, hvchan]
  · show w.chan.ccwCmd = _
    rw [hchan, hvchan]
  · refine stands_of_chan hd.quiet hd.quiet.count (x := x) (y := y) ?_ hd.left hd.caw hd.flags ?_ ?_
    · rw [Sub.setByte, hchan, hvchan]
    · rw [← if_congr hida rfl rfl, haddr, hfull.addr]
    · intro h
      rw [hlist (hida.mpr h), hfull.list h]

/-- The word of the next byte is brought into the buffer. -/
lemma fillWrite_of_can (hs : Stands t a) (hcan : CanFetch c t.io.key t.chan.ccwKey a.addr) :
    ∃ u, fillWrite t = (u, false) ∧ Keeps t u ∧ Opened u t.io.mem a := by
  obtain ⟨u, hu, hchan, hmem, hkeys⟩ := readbuff_of_can (s := t) (by rw [hs.addr]; exact hcan)
  have hbuffer : u.bufferAddr = a.addr :=
    (Sub.bufferAddr_congr (by rw [hchan]) (by rw [hchan]) (by rw [hchan])).trans hs.addr
  rw [fillWrite, hu]
  simp only [Bool.false_eq_true, if_false]
  refine ⟨_, rfl, ⟨hkeys, by show u.chan.ccwKey = _; rw [hchan], by show u.chan.ccwCmd = _; rw [hchan]⟩, ?_⟩
  have hchan' : (u.setByte (u.bufferAddr &&& 3)).chan = { t.chan with
      chanBuf := t.io.mem (a.addr >>> 2), chanByte := a.addr % 4 } := by
    rw [Sub.setByte, hbuffer, and_three, hchan, hs.addr]
  generalize hw : u.setByte (u.bufferAddr &&& 3) = w at hchan'
  have hmem' : w.io.mem = t.io.mem := by
    rw [← hw]
    exact hmem
  have hbuffer' : w.bufferAddr = a.addr :=
    (Sub.bufferAddr_congr (by rw [hchan']) (by rw [hchan']) (by rw [hchan'])).trans hs.addr
  refine
    { quiet := ⟨by rw [hchan']; exact hs.quiet.count, by rw [hchan']; exact hs.quiet.error,
        by rw [hchan']; exact hs.quiet.modifier⟩
      left := by rw [hchan', ← hs.left]
      caw := by rw [hchan', ← hs.caw]
      flags := by rw [hchan', ← hs.flags]
      size := by rw [hbuffer']; exact hcan.1
      stored := ?_
      word := by rw [hbuffer']
      list := fun hida => by rw [hchan', ← hs.list hida]
      byte := .inl (by rw [hchan']) }
  rw [hmem', hbuffer', hchan']
  exact (Function.update_eq_self _ _).symm

/-! ### A byte -/

/-- The byte of the buffer that is next. -/
lemma nextByte_eq {b r : ℕ} (hr : r < 4) (hb : b = r ∨ b = 8 + r) :
    (b + 1 ||| buffDirty = if r = 3 then buffEmpty ||| buffDirty else 8 + (r + 1))
      ∧ (if b &&& 3 ≠ 0 then b - 1 else buffEmpty) ||| buffDirty
        = if r = 0 then buffEmpty ||| buffDirty else 8 + (r - 1) := by
  rcases hb with rfl | rfl
  · interval_cases b <;> decide
  · interval_cases r <;> decide

/-- Where the next byte is. -/
lemma place_next (h : Opened t mem a) (mem' : ℕ → ℕ) {n m buf : ℕ} (hchan : u.chan = { t.chan with
      ccwCount := n
      chanBuf := buf
      chanByte := m ||| buffDirty })
    (hm : m = if t.Backward then if t.chan.chanByte &&& 3 ≠ 0 then t.chan.chanByte - 1 else buffEmpty
      else t.chan.chanByte + 1) :
    InWord u (a.next c mem' t.back) ∧ u.chan.chanByte = 8 + (a.next c mem' t.back).addr % 4
      ∨ Full u mem' (a.next c mem' t.back) := by
  have hbuffer : u.bufferAddr = t.bufferAddr := Sub.bufferAddr_congr (by rw [hchan]) (by rw [hchan]) (by rw [hchan])
  have hback : u.back = t.back := Sub.back_congr (by rw [hchan])
  have hsize := h.size.trans_le c.memsize_le
  have hword := h.word
  have hlist := h.list
  have hlt : a.addr % 4 < 4 := Nat.mod_lt _ (by norm_num)
  obtain ⟨hfwd, hbwd⟩ := nextByte_eq hlt h.byte
  have hedge (haddr : u.edge.addr = a.addr) : (u.edge.move c mem' u.back).addr = (a.next c mem' t.back).addr
      ∧ (a.Ida c → (u.edge.move c mem' u.back).list = (a.next c mem' t.back).list) := by
    rw [hback]
    refine Area.move_congr haddr ?_ fun hida => ?_
    · show u.chan.ccwFlags = a.flags
      rw [hchan, ← h.flags]
    · show u.chan.ccwAddr = a.list
      rw [hchan, ← hlist hida]
  -- the next byte is in the word, or the word is full
  have hinside {x : ℕ} (hmove : a.move c mem' t.back = { a with addr := x }) (hx : x / 4 = a.addr / 4)
      (hb : m ||| buffDirty = 8 + x % 4) :
      InWord u (a.next c mem' t.back) ∧ u.chan.chanByte = 8 + (a.next c mem' t.back).addr % 4 := by
    rw [Area.next, hmove]
    refine ⟨⟨?_, fun hida => ?_⟩, ?_⟩
    · rw [hbuffer, ← hword]
      exact hx
    · rw [hchan]
      exact hlist hida
    · rw [hchan]
      exact hb
  have hfull (haddr : u.edge.addr = a.addr) (hb : m ||| buffDirty = buffEmpty ||| buffDirty) :
      Full u mem' (a.next c mem' t.back) :=
    ⟨by rw [hchan, ← hb], (hedge haddr).1.symm, fun hida => ((hedge haddr).2 ((Area.next_ida t.back).mp hida)).symm⟩
  have hplace (back : Bool) (hb : t.back = back) :
      u.edge.addr = t.bufferAddr / 4 * 4 + if back = true then 0 else 3 := by
    rw [Sub.edge, hback, hb, hbuffer]
  by_cases hdir : t.Backward
  · have htrue : t.back = true := decide_eq_true hdir
    rw [if_pos hdir] at hm
    rw [← hm] at hbwd
    by_cases hin : a.addr % 4 = 0
    · rw [if_pos hin] at hbwd
      refine .inr (hfull ?_ hbwd)
      rw [hplace true htrue, if_pos rfl]
      lia
    · rw [if_neg hin] at hbwd
      refine .inl (hinside (x := a.addr - 1) ?_ (by lia) (by rw [hbwd]; lia))
      rw [htrue]
      exact Area.move_backInWord (by lia) hin
  · have hfalse : t.back = false := decide_eq_false hdir
    rw [if_neg hdir] at hm
    rw [← hm] at hfwd
    by_cases hin : a.addr % 4 = 3
    · rw [if_pos hin] at hfwd
      refine .inr (hfull ?_ hfwd)
      rw [hplace false hfalse, if_neg Bool.false_ne_true]
      lia
    · rw [if_neg hin] at hfwd
      refine .inl (hinside (x := a.addr + 1) ?_ (by lia) (by rw [hfwd]; lia))
      rw [hfalse]
      exact Area.move_inWord (by lia) hin

section Put

variable (device : ℕ → Request → ℕ)

/-- A byte is put into the buffer. -/
lemma putByte_of_can (h : Opened t mem a) {data : ℕ} (hdata : data < 2 ^ 8) (hskip : ¬ a.Skips) (hleft : a.left ≠ 0)
    (hstore : CanStore c t.io.key t.chan.ccwKey a.addr)
    (hload : a.left = 1 → a.Chains → a.Loads c (storage.put a.addr data mem) t.io.key t.chan.ccwKey) :
    ∃ u, putByte device data t = (u, false) ∧ Keeps t u
      ∧ Writes u (storage.put a.addr data mem)
        ((a.next c (storage.put a.addr data mem) t.back).ready c (storage.put a.addr data mem)) := by
  have hcount := h.quiet.count
  have hdec : dec16 t.chan.ccwCount = a.left - 1 := by
    rw [dec16_eq (by rw [h.left]; exact hleft) hcount, h.left]
  have hmem := h.put hdata
  generalize storage.put a.addr data mem = mem' at hload hmem ⊢
  rw [putByte, hdec]
  simp only
  generalize hm : (if t.Backward then if t.chan.chanByte &&& 3 ≠ 0 then t.chan.chanByte - 1 else buffEmpty
    else t.chan.chanByte + 1) = m
  generalize hs : ({ t with chan := { t.chan with
    ccwCount := a.left - 1
    chanBuf := storeByte t.chan.chanBuf t.chan.chanByte data
    chanByte := m ||| buffDirty } } : Sub c) = s
  have hchan : s.chan = { t.chan with
      ccwCount := a.left - 1
      chanBuf := storeByte t.chan.chanBuf t.chan.chanByte data
      chanByte := m ||| buffDirty } := by rw [← hs]
  have hio : s.io = t.io := by rw [← hs]
  have hbuffer : s.bufferAddr = t.bufferAddr := Sub.bufferAddr_congr (by rw [hchan]) (by rw [hchan]) (by rw [hchan])
  have hkey : s.chan.ccwKey = t.chan.ccwKey := by rw [hchan]
  have hflags : s.chan.ccwFlags = a.flags := by rw [hchan, ← h.flags]
  have hquiet : Quiet s := by
    refine ⟨?_, ?_, ?_⟩ <;> rw [hchan]
    · show a.left - 1 < 2 ^ 16
      rw [← h.left]
      omega
    · exact h.quiet.error
    · exact h.quiet.modifier
  have hstore' : CanStore c s.io.key s.chan.ccwKey s.bufferAddr := by
    rw [hio, hbuffer, hkey]
    exact hstore.sameWord h.word
  have hmem' : mem' = Function.update s.io.mem (s.bufferAddr >>> 2) s.chan.chanBuf := by
    rw [hmem, hio, hbuffer, hchan]
  have hcd : t.chan.ccwFlags &&& flagCd ≠ 0 ↔ a.Chains := by
    rw [h.flags]
    exact Iff.rfl
  have hleft' : s.chan.ccwCount = a.left - 1 := by rw [hchan]
  have hkeeps : Keeps t s := ⟨fun _ => by rw [hio], hkey, by rw [hchan]⟩
  have hcaw : s.chan.caw = a.caw := by rw [hchan, ← h.caw]
  have hplace := place_next (u := s) h mem' hchan hm.symm
  by_cases hend : a.left - 1 = 0 ∧ a.Chains
  · -- the word is written before the next command is loaded
    obtain ⟨b, hb, hcan⟩ := hload (by lia) hend.2
    rw [if_pos ⟨hend.1, hcd.mpr hend.2⟩, Area.ready_next hend.1 hend.2 hb]
    obtain ⟨v, hv, hvchan, hvmem, hvkeys⟩ := writebuff_of_can hstore'
    rw [← hmem'] at hvmem
    rw [hv]
    simp only [Bool.false_eq_true, if_false]
    obtain ⟨w, hw, hkeeps', hwmem, hstands⟩ := loadCcw_chain (s := v.setByte buffEmpty) (a := a)
      ⟨by show v.chan.ccwCount < 2 ^ 16; rw [hvchan]; exact hquiet.count,
        by show v.chan.chanStatus &&& 0x7f = 0; rw [hvchan]; exact hquiet.error,
        by show v.chan.chanStatus &&& statusMod = 0; rw [hvchan]; exact hquiet.modifier⟩
      (by show v.chan.caw = a.caw; rw [hvchan]; exact hcaw) (by show v.chan.ccwFlags = a.flags; rw [hvchan]; exact hflags)
      hend.2 (by show a.load c v.io.mem = some b; rw [hvmem]; exact hb) (by
        show a.CanLoad c v.io.key v.chan.ccwKey v.io.mem
        rw [hvmem, hvchan, hkey]
        exact Area.canLoad_same (hkeeps.keys.trans hvkeys) hcan)
    have hkeeps'' : Keeps s (v.setByte buffEmpty) :=
      ⟨hvkeys, by show v.chan.ccwKey = _; rw [hvchan], by show v.chan.ccwCmd = _; rw [hvchan]⟩
    exact ⟨w, hw, hkeeps.trans (hkeeps''.trans hkeeps'), .inl ⟨hstands, hwmem.trans hvmem⟩⟩
  · rw [if_neg fun h => hend ⟨h.1, hcd.mp h.2⟩,
      Area.ready_of_left fun h => hend ⟨h.1, (Area.next_chains t.back).mp h.2⟩]
    refine ⟨s, rfl, hkeeps, .inr ?_⟩
    exact
      { quiet := hquiet
        left := hleft'
        caw := hcaw.trans (Area.next_caw t.back).symm
        flags := hflags.trans (Area.next_flags t.back).symm
        size := hstore'.1
        stored := hmem'
        takes := fun hs => hskip ((Area.next_skips t.back).mp hs)
        going := fun hg => hend ⟨hg.1, (Area.next_chains t.back).mp hg.2⟩
        store := hstore'
        place := hplace }

/-- At the end of a chain's command there is the next one. -/
lemma countWrite_of_can (h : Writes t mem a) (hready : a.left = 0 → a.Chains ∧ a.Loads c mem t.io.key t.chan.ccwKey) :
    ∃ u, countWrite device t = (u, false) ∧ Keeps t u
      ∧ (Stands u (a.ready c mem) ∧ u.io.mem = mem ∨ u = t ∧ Dirty t mem (a.ready c mem)) := by
  have hleft : t.chan.ccwCount = a.left := by
    rcases h with ⟨hs, -⟩ | hd
    · exact hs.left
    · exact hd.left
  rw [countWrite, hleft]
  by_cases hzero : a.left = 0
  · obtain ⟨hchains, b, hb, hcan⟩ := hready hzero
    rw [if_pos hzero, Area.ready_of_load ⟨hzero, hchains⟩ hb]
    rcases h with ⟨hs, hmem⟩ | hd
    · rw [← hmem] at hb hcan ⊢
      have hclean : ¬ t.chan.chanByte &&& buffDirty ≠ 0 := by
        rw [hs.empty]
        decide
      have hcd : ¬ t.chan.ccwFlags &&& flagCd = 0 := by
        rw [hs.flags]
        exact hchains
      obtain ⟨u, hu, hkeeps, humem, hstands⟩ := loadCcw_chain hs.quiet hs.caw hs.flags hchains hb hcan
      rw [if_neg hclean]
      simp only [Bool.false_eq_true, if_false]
      rw [if_neg hcd]
      exact ⟨u, hu, hkeeps, .inl ⟨hstands, humem⟩⟩
    · exact absurd ⟨hzero, hchains⟩ hd.going
  · rw [if_neg hzero, Area.ready_of_left fun hno => hzero hno.1]
    exact ⟨t, rfl, ⟨fun _ => rfl, rfl, rfl⟩, h.imp_right fun hd => ⟨rfl, hd⟩⟩

/-- A byte may be written: when nothing is left of a command in a chain there is another one; there is a byte left; a
byte that is skipped may be followed by the next indirect address; a full word before it is not at the beginning of a
page that is left backward, and the next indirect address may be fetched; the byte may be stored; after the last byte of
a command in a chain there is another command. -/
structure WriteOk (t : Sub c) (mem : ℕ → ℕ) (a : Area) (data : ℕ) : Prop where
  ready : a.left = 0 → a.Chains ∧ a.Loads c mem t.io.key t.chan.ccwKey
  left : (a.ready c mem).left ≠ 0
  skip : (a.ready c mem).Skips → (a.ready c mem).Crosses c t.back →
    CanFetch c t.io.key t.chan.ccwKey (add32 (a.ready c mem).list 4)
  save : ¬ (a.ready c mem).Skips → t.chan.chanByte = buffEmpty ||| buffDirty → t.edge.Crosses c t.back →
    t.back = false ∧ CanFetch c t.io.key t.chan.ccwKey (add32 t.chan.ccwAddr 4)
  store : ¬ (a.ready c mem).Skips → CanStore c t.io.key t.chan.ccwKey (a.ready c mem).addr
  load : ¬ (a.ready c mem).Skips → (a.ready c mem).left = 1 → (a.ready c mem).Chains →
    (a.ready c mem).Loads c (storage.put (a.ready c mem).addr data mem) t.io.key t.chan.ccwKey

/-- A byte into a new word. -/
lemma newWord_of_can (hs : Stands t a) {data : ℕ} (hdata : data < 2 ^ 8) (hskip : ¬ a.Skips) (hleft : a.left ≠ 0)
    (hstore : CanStore c t.io.key t.chan.ccwKey a.addr)
    (hload : a.left = 1 → a.Chains → a.Loads c (storage.put a.addr data t.io.mem) t.io.key t.chan.ccwKey) :
    ∃ u v, fillWrite t = (u, false) ∧ putByte device data u = (v, false) ∧ Keeps t v
      ∧ Writes v (storage.put a.addr data t.io.mem)
        ((a.next c (storage.put a.addr data t.io.mem) t.back).ready c (storage.put a.addr data t.io.mem)) := by
  obtain ⟨u, hu, hkeeps, hopened⟩ := fillWrite_of_can hs hstore.fetch
  obtain ⟨v, hv, hkeeps', hwrites⟩ := putByte_of_can device hopened hdata hskip hleft
    (by rw [hkeeps.ccwKey]; exact hkeeps.keys.canStore hstore)
    (fun hone hchains => by rw [hkeeps.ccwKey]; exact Area.loads_same hkeeps.keys (hload hone hchains))
  rw [Sub.back_congr hkeeps.ccwCmd] at hwrites
  exact ⟨u, v, hu, hv, hkeeps.trans hkeeps', hwrites⟩

/-- **A byte that is written** is the next one of the area. -/
theorem chanWriteByte_right (h : Writes t mem a) (hcmd : t.chan.ccwCmd &&& 1 = 0) {data : ℕ} (hdata : data < 2 ^ 8)
    (hok : WriteOk t mem a data) :
    ∃ u, chanWriteByte device data t = (u, false) ∧ Keeps t u
      ∧ Writes u ((a.ready c mem).put mem data) ((a.ready c mem).after c ((a.ready c mem).put mem data) t.back) := by
  obtain ⟨hquiet, -, hbyte⟩ := h.quiet
  rw [chanWriteByte, if_neg (not_not.mpr hquiet.error), if_neg (not_not.mpr hcmd), if_neg hbyte]
  obtain ⟨t₁, ht₁, hkeeps₁, h₁⟩ := countWrite_of_can device h hok.ready
  obtain ⟨-, hleft, hskip, hsave, hstore, hload⟩ := hok
  generalize a.ready c mem = r at hleft hskip hsave hstore hload h₁ ⊢
  rw [ht₁]
  simp only [Bool.false_eq_true, if_false]
  have hback : t₁.back = t.back := Sub.back_congr hkeeps₁.ccwCmd
  have hkeys {u : Sub c} (hk : Keeps t u) {x : ℕ} (hcan : CanStore c t.io.key t.chan.ccwKey x) :
      CanStore c u.io.key u.chan.ccwKey x := by
    rw [hk.ccwKey]
    exact hk.keys.canStore hcan
  have hflags : t₁.chan.ccwFlags = r.flags := by
    rcases h₁ with ⟨hs, -⟩ | ⟨rfl, hd⟩
    · exact hs.flags
    · exact hd.flags
  have hskips : t₁.chan.ccwFlags &&& flagSkip ≠ 0 ↔ r.Skips := by
    rw [hflags]
    exact Iff.rfl
  by_cases hsk : r.Skips
  · -- the byte is skipped
    rw [if_pos (hskips.mpr hsk), Area.put, if_pos hsk, Area.after, if_pos hsk]
    rcases h₁ with ⟨hs, hmem⟩ | ⟨rfl, hd⟩
    · obtain ⟨u, hu, hkeeps, humem, hstands⟩ := skipByte_of_can hs hleft fun hcross => by
        rw [hback] at hcross
        rw [hkeeps₁.ccwKey]
        exact hkeeps₁.keys.canFetch (hskip hsk hcross)
      rw [hu, ← hback, ← hmem]
      exact ⟨u, rfl, hkeeps₁.trans hkeeps, .inl ⟨hstands, humem⟩⟩
    · exact absurd hsk hd.takes
  · rw [if_neg fun hno => hsk (hskips.mp hno), Area.put, if_neg hsk, Area.after, if_neg hsk]
    -- a byte into a new word, from what is left of the last one
    have hnew {u : Sub c} (hk : Keeps t u) (hs : Stands u r) (hmem : u.io.mem = mem) :
        ∃ w v, fillWrite u = (w, false) ∧ putByte device data w = (v, false) ∧ Keeps t v
          ∧ Writes v (storage.put r.addr data mem)
            ((r.next c (storage.put r.addr data mem) t.back).ready c (storage.put r.addr data mem)) := by
      obtain ⟨w, v, hw, hv, hkeeps, hwrites⟩ := newWord_of_can device hs hdata hsk hleft (hkeys hk (hstore hsk))
        fun hone hchains => by
          rw [hmem, hk.ccwKey]
          exact Area.loads_same hk.keys (hload hsk hone hchains)
      rw [hmem, Sub.back_congr hk.ccwCmd] at hwrites
      exact ⟨w, v, hw, hv, hk.trans hkeeps, hwrites⟩
    rcases h₁ with ⟨hs, hmem⟩ | ⟨rfl, hd⟩
    · obtain ⟨w, v, hw, hv, hkeeps, hwrites⟩ := hnew hkeeps₁ hs hmem
      have hfull : ¬ t₁.chan.chanByte = buffEmpty ||| buffDirty := by
        rw [hs.empty]
        decide
      rw [if_neg hfull]
      simp only [Bool.false_eq_true, if_false]
      rw [if_pos hs.empty, hw]
      simp only [Bool.false_eq_true, if_false]
      exact ⟨v, hv, hkeeps, hwrites⟩
    · rcases hd.place with ⟨hin, hbyte⟩ | hfull
      · -- a byte into the word that has been changed
        have hfull : ¬ t₁.chan.chanByte = buffEmpty ||| buffDirty := by
          rw [hbyte]
          show ¬ 8 + r.addr % 4 = 12
          omega
        have hempty : ¬ t₁.chan.chanByte = buffEmpty := by
          rw [hbyte]
          show ¬ 8 + r.addr % 4 = 4
          lia
        rw [if_neg hfull]
        simp only [Bool.false_eq_true, if_false]
        rw [if_neg hempty]
        simp only [Bool.false_eq_true, if_false]
        obtain ⟨v, hv, hkeeps, hwrites⟩ := putByte_of_can device
          { hd.toCarries, hin with byte := .inr hbyte } hdata hsk hleft (hstore hsk) (hload hsk)
        exact ⟨v, hv, hkeeps, hwrites⟩
      · obtain ⟨u, hu, hk, humem, hs⟩ := saveWord_of_can hd hfull (hsave hsk hfull.byte)
        obtain ⟨w, v, hw, hv, hkeeps, hwrites⟩ := hnew hk hs humem
        rw [if_pos hfull.byte, hu]
        simp only [Bool.false_eq_true, if_false]
        rw [if_pos hs.empty, hw]
        simp only [Bool.false_eq_true, if_false]
        exact ⟨v, hv, hkeeps, hwrites⟩

end Put

/-! ### The end -/

lemma and_dirty {n : ℕ} (hn : n < 4) : 8 + n &&& buffDirty ≠ 0 := by
  interval_cases n <;> decide

/-- The word that is left in the buffer is written. -/
lemma flush_of_can (h : Writes t mem a) :
    ∃ u, (if t.chan.chanByte &&& buffDirty ≠ 0 then writebuff t else (t, false)) = (u, false) ∧ u.io.mem = mem
      ∧ u.chan = t.chan := by
  rcases h with ⟨hs, hmem⟩ | hd
  · have hclean : ¬ t.chan.chanByte &&& buffDirty ≠ 0 := by
      rw [hs.empty]
      decide
    exact ⟨t, if_neg hclean, hmem, rfl⟩
  · have hdirty : t.chan.chanByte &&& buffDirty ≠ 0 := by
      rcases hd.place with ⟨-, hbyte⟩ | hfull
      · rw [hbyte]
        exact and_dirty (Nat.mod_lt _ (by norm_num))
      · rw [hfull.byte]
        decide
    obtain ⟨u, hu, hchan, hmem, -⟩ := writebuff_of_can hd.store
    exact ⟨u, (if_pos hdirty).trans hu, hmem.trans hd.stored.symm, hchan⟩

/-- What `chan_end` does after the word has been written leaves the storage and the count. -/
lemma chanEnd_dirty (flags : ℕ) (h : t.chan.chanByte &&& buffDirty ≠ 0) :
    (chanEnd flags t).io.mem = (writebuff t).1.io.mem
      ∧ (chanEnd flags t).chan.ccwCount = (writebuff t).1.chan.ccwCount := by
  rw [chanEnd, if_pos h]
  simp only
  split_ifs <;> exact ⟨rfl, rfl⟩

lemma chanEnd_clean (flags : ℕ) (h : t.chan.chanByte &&& buffDirty = 0) :
    (chanEnd flags t).io.mem = t.io.mem ∧ (chanEnd flags t).chan.ccwCount = t.chan.ccwCount := by
  rw [chanEnd, if_neg (not_not.mpr h)]
  simp only
  split_ifs <;> exact ⟨rfl, rfl⟩

lemma Writes.count (h : Writes t mem a) : t.chan.ccwCount = a.left := by
  rcases h with ⟨hs, -⟩ | hd
  · exact hs.left
  · exact hd.left

/-- The end of what is written. -/
lemma chanEnd_writes (flags : ℕ) (h : Writes t mem a) :
    (chanEnd flags t).io.mem = mem ∧ (chanEnd flags t).chan.ccwCount = a.left := by
  obtain ⟨u, hu, hmem, hchan⟩ := flush_of_can h
  by_cases hdirty : t.chan.chanByte &&& buffDirty ≠ 0
  · obtain ⟨hmem', hcount⟩ := chanEnd_dirty flags hdirty
    rw [if_pos hdirty] at hu
    rw [hu] at hmem' hcount
    exact ⟨hmem'.trans hmem, hcount.trans ((congrArg ChanCtl.ccwCount hchan).trans h.count)⟩
  · rw [if_neg hdirty] at hu
    obtain rfl : t = u := (Prod.mk.inj hu).1
    obtain ⟨hmem', hcount⟩ := chanEnd_clean flags (not_not.mp hdirty)
    exact ⟨hmem'.trans hmem, hcount.trans h.count⟩

/-- After the last byte no other is taken, and what has been written stays. -/
lemma chanWriteByte_end (device : ℕ → Request → ℕ) (h : Writes t mem a) (hleft : a.left = 0) (hchains : ¬ a.Chains)
    (data flags : ℕ) : (chanWriteByte device data t).2 = true
      ∧ (chanEnd flags (chanWriteByte device data t).1).io.mem = mem
      ∧ (chanEnd flags (chanWriteByte device data t).1).chan.ccwCount = 0 := by
  obtain ⟨hquiet, hflags, hbyte⟩ := h.quiet
  by_cases hcmd : t.chan.ccwCmd &&& 1 ≠ 0
  · -- not at all, when the command is one that reads
    rw [chanWriteByte, if_neg (not_not.mpr hquiet.error), if_pos hcmd]
    have hend := chanEnd_writes flags h
    exact ⟨rfl, hend.1, hend.2.trans hleft⟩
  · obtain ⟨u, hu, hmem, hchan⟩ := flush_of_can h
    have hcd : u.chan.ccwFlags &&& flagCd = 0 := by
      rw [hchan, hflags]
      exact not_not.mp hchains
    have hcount : u.chan.ccwCount = 0 := by rw [hchan, h.count, hleft]
    rw [chanWriteByte, if_neg (not_not.mpr hquiet.error), if_neg hcmd, if_neg hbyte, countWrite,
      if_pos (h.count.trans hleft), hu]
    simp only [Bool.false_eq_true, if_false]
    rw [if_pos hcd]
    simp only [if_true]
    have hclean (v : Sub c) (hv : v.chan.chanByte = buffChnend) : v.chan.chanByte &&& buffDirty = 0 := by
      rw [hv]
      decide
    split_ifs
    · have hend := chanEnd_clean flags (hclean (wrongLength (u.setByte buffChnend)) rfl)
      exact ⟨trivial, hend.1.trans hmem, hend.2.trans hcount⟩
    · have hend := chanEnd_clean flags (hclean (u.setByte buffChnend) rfl)
      exact ⟨trivial, hend.1.trans hmem, hend.2.trans hcount⟩

/-- What is read leaves the storage. -/
lemma chanEnd_reads (flags : ℕ) (h : Reads t a) :
    (chanEnd flags t).io.mem = t.io.mem ∧ (chanEnd flags t).chan.ccwCount = a.left := by
  have hclean : t.chan.chanByte &&& buffDirty = 0 := by
    rcases h with hs | ⟨hh, -⟩
    · rw [hs.empty]
      decide
    · rw [hh.byte]
      have hlt : a.addr % 4 < 4 := Nat.mod_lt _ (by norm_num)
      interval_cases a.addr % 4 <;> decide
  obtain ⟨hmem, hcount⟩ := chanEnd_clean flags hclean
  exact ⟨hmem, hcount.trans (reads_quiet h).2.1⟩

/-! ### Transfers -/

/-- What a device calls: for a byte, or with one. -/
inductive Call
  | read
  | write (data : UInt8)

/-- A transfer: the subchannel, and beside it the storage and what is left of the areas, as they must be. -/
structure Transfer (c : Channels) where
  sub : Sub c
  mem : ℕ → ℕ
  area : Area

namespace Transfer

/-- The beginning of a transfer, by a subchannel that has its command. -/
def start (t : Sub c) : Transfer c := ⟨t, t.io.mem, t.area⟩

variable (device : ℕ → Request → ℕ) (s : Transfer c)

/-- The area of the next byte that is written. -/
def target : Area := s.area.ready c s.mem

def step (s : Transfer c) : Call → Transfer c
  | .read =>
      ⟨(chanReadByte device s.sub).1, s.mem, (s.area.next c s.mem false).ready c s.mem⟩
  | .write data =>
      let mem := s.target.put s.mem data.toNat
      ⟨(chanWriteByte device data.toNat s.sub).1, mem, s.target.after c mem s.sub.back⟩

/-- The condition. -/
def Ok : Call → Prop
  | .read => s.sub.chan.ccwCmd &&& 1 ≠ 0 ∧ ReadOk s.sub s.area
  | .write data => s.sub.chan.ccwCmd &&& 1 = 0 ∧ WriteOk s.sub s.mem s.area data.toNat

/-- The byte is taken. -/
def Taken : Call → Prop
  | .read => (chanReadByte device s.sub).2.2 = false
  | .write data => (chanWriteByte device data.toNat s.sub).2 = false

/-- The byte is the one of the area: it is given to the device, or it is put there and nowhere else. -/
def Answers : Call → Prop
  | .read => (chanReadByte device s.sub).2 = (storage.get s.area.addr s.mem, false)
  | .write data => (chanWriteByte device data.toNat s.sub).2 = false
      ∧ ∀ x, storage.get x (s.step device (.write data)).mem
          = if ¬ s.target.Skips ∧ x = s.target.addr then data.toNat else storage.get x s.mem

/-- A transfer is right: the bytes are those of the areas, there are no more of them than that, and at its end the
storage and the count are as they must be. -/
structure Right : Prop where
  answers : ∀ call, s.Ok call → s.Answers device call
  refuses : s.area.left = 0 → ¬ s.area.Chains → ∀ call, ¬ s.Taken device call
  ends : ∀ flags, (chanEnd flags s.sub).io.mem = s.mem ∧ (chanEnd flags s.sub).chan.ccwCount = s.area.left
  stays : s.area.left = 0 → ¬ s.area.Chains → ∀ call flags, (chanEnd flags (s.step device call).sub).io.mem = s.mem
    ∧ (chanEnd flags (s.step device call).sub).chan.ccwCount = 0

variable {s}

/-- The bytes of the storage are apart. -/
lemma storage_apart {x y : ℕ} (h : x ≠ y) : storage.Apart x y := by
  intro hplace
  have hword : x / 4 = y / 4 := by
    have hshift : x >>> 2 = y >>> 2 := hplace
    rwa [Nat.shiftRight_eq_div_pow, Nat.shiftRight_eq_div_pow] at hshift
  show 8 * (3 - (x &&& 3)) + 8 ≤ 8 * (3 - (y &&& 3)) ∨ 8 * (3 - (y &&& 3)) + 8 ≤ 8 * (3 - (x &&& 3))
  rw [and_three, and_three]
  lia

lemma get_put_area (a : Area) (mem : ℕ → ℕ) (data : UInt8) (x : ℕ) :
    storage.get x (a.put mem data.toNat)
      = if ¬ a.Skips ∧ x = a.addr then data.toNat else storage.get x mem := by
  have hlt : data.toNat < 2 ^ 8 := data.toNat_lt
  rw [Area.put]
  by_cases hskip : a.Skips
  · rw [if_pos hskip, if_neg fun h => h.1 hskip]
  · rw [if_neg hskip]
    by_cases hx : x = a.addr
    · rw [if_pos ⟨hskip, hx⟩, hx, Layout.get_put]
      exact Nat.mod_eq_of_lt hlt
    · rw [if_neg fun h => hx h.2, Layout.get_put_of_apart (storage_apart hx)]

/-- What holds all along: a command that reads has a buffer to read from, and one that writes has one to write to. -/
structure Kept (s : Transfer c) : Prop where
  reads : s.sub.chan.ccwCmd &&& 1 ≠ 0 → Reads s.sub s.area ∧ s.sub.io.mem = s.mem
  writes : s.sub.chan.ccwCmd &&& 1 = 0 → Writes s.sub s.mem s.area

lemma start_kept {t : Sub c} (hquiet : Quiet t) (hempty : t.chan.chanByte = buffEmpty) : (start t).Kept := by
  have hstands : Stands t t.area := ⟨hquiet, rfl, rfl, rfl, hempty, rfl, fun _ => rfl⟩
  exact ⟨fun _ => ⟨.inl hstands, rfl⟩, fun _ => .inl ⟨hstands, rfl⟩⟩

lemma Kept.step (h : s.Kept) {call : Call} (hok : s.Ok call) :
    (s.step device call).Kept ∧ s.Answers device call := by
  cases call with
  | read =>
      obtain ⟨hcmd, hok⟩ := hok
      obtain ⟨hreads, hmem⟩ := h.reads hcmd
      obtain ⟨u, hu, hkeeps, humem, hreads'⟩ := chanReadByte_right device hreads hcmd hok
      rw [hmem] at hu humem hreads'
      have hsub : (s.step device .read).sub = u := congrArg Prod.fst hu
      refine ⟨⟨fun _ => ?_, fun hno => ?_⟩, congrArg Prod.snd hu⟩
      · rw [hsub]
        exact ⟨hreads', humem⟩
      · rw [hsub, hkeeps.ccwCmd] at hno
        exact absurd hno hcmd
  | write data =>
      obtain ⟨hcmd, hok⟩ := hok
      obtain ⟨u, hu, hkeeps, hwrites⟩ := chanWriteByte_right device (h.writes hcmd) hcmd data.toNat_lt hok
      have hsub : (s.step device (.write data)).sub = u := congrArg Prod.fst hu
      refine ⟨⟨fun hno => ?_, fun _ => ?_⟩, congrArg Prod.snd hu, get_put_area s.target s.mem data⟩
      · rw [hsub, hkeeps.ccwCmd] at hno
        exact absurd hcmd hno
      · rw [hsub]
        exact hwrites

lemma Kept.ends (h : s.Kept) (flags : ℕ) :
    (chanEnd flags s.sub).io.mem = s.mem ∧ (chanEnd flags s.sub).chan.ccwCount = s.area.left := by
  by_cases hcmd : s.sub.chan.ccwCmd &&& 1 = 0
  · exact chanEnd_writes flags (h.writes hcmd)
  · obtain ⟨hreads, hmem⟩ := h.reads hcmd
    rw [← hmem]
    exact chanEnd_reads flags hreads

/-- After the last byte no call is for another. -/
lemma Kept.last (h : s.Kept) (hleft : s.area.left = 0) (hchains : ¬ s.area.Chains) (call : Call) (flags : ℕ) :
    ¬ s.Taken device call ∧ (chanEnd flags (s.step device call).sub).io.mem = s.mem
      ∧ (chanEnd flags (s.step device call).sub).chan.ccwCount = 0 := by
  have hends := h.ends flags
  rw [hleft] at hends
  cases call with
  | read =>
      by_cases hcmd : s.sub.chan.ccwCmd &&& 1 = 0
      · have hsame : chanReadByte device s.sub = (s.sub, 0, true) := by
          rw [chanReadByte, if_neg (not_not.mpr (h.writes hcmd).quiet.1.error), if_pos hcmd]
        simp only [Taken, Transfer.step, hsame, Bool.true_eq_false, not_false_eq_true, true_and]
        exact hends
      · obtain ⟨hreads, hmem⟩ := h.reads hcmd
        obtain ⟨u, hu, humem, hcount, hbyte⟩ := chanReadByte_end device hreads hcmd hleft hchains
        have hclean : u.chan.chanByte &&& buffDirty = 0 := by
          rw [hbyte]
          decide
        have hend := chanEnd_clean flags hclean
        simp only [Taken, Transfer.step, hu, Bool.true_eq_false, not_false_eq_true, true_and]
        exact ⟨hend.1.trans (humem.trans hmem), hend.2.trans hcount⟩
  | write data =>
      by_cases hcmd : s.sub.chan.ccwCmd &&& 1 = 0
      · have hend := chanWriteByte_end device (h.writes hcmd) hleft hchains data.toNat flags
        simp only [Taken, Transfer.step, hend.1, Bool.true_eq_false, not_false_eq_true, true_and]
        exact hend.2
      · have hsame : chanWriteByte device data.toNat s.sub = (s.sub, true) := by
          rw [chanWriteByte, if_neg (not_not.mpr (reads_quiet (h.reads hcmd).1).1.error), if_pos hcmd]
        simp only [Taken, Transfer.step, hsame, Bool.true_eq_false, not_false_eq_true, true_and]
        exact hends

/-- What holds all along makes a transfer right. -/
lemma Kept.right (h : s.Kept) : s.Right device where
  answers _ hok := (h.step device hok).2
  refuses hleft hchains call := (h.last device hleft hchains call 0).1
  ends := h.ends
  stays hleft hchains call flags := (h.last device hleft hchains call flags).2

end Transfer

/-- **Data between a device and the storage**: in every run of a command and those chained to it, all of whose calls
meet the condition, the bytes are those of the areas of the commands, the rest of the storage stays, and the count is of
the bytes that are left. -/
theorem transfer_right (device : ℕ → Request → ℕ) {t : Sub c} (hquiet : Quiet t)
    (hempty : t.chan.chanByte = buffEmpty) {s : Transfer c}
    (h : Reaches (ofFun (Transfer.step device)) Transfer.Ok (.start t) s) : s.Right device := by
  have hkept : s.Kept := h.invariant (Transfer.start_kept hquiet hempty) fun s call s' hk hok hstep => by
    obtain rfl : s.step device call = s' := hstep
    exact (hk.step device hok).1
  exact hkept.right device

/-! ### Backward over the beginning of a page -/

/-- A 370 with 64K of storage, whose words at 100 and 104 are a list. -/
def multiplexers : Channels where
  units i := ⟨decide (3 < i), .bmux, 128, subs_ge_half, subs_le_half⟩
  last := rfl
  memsize := 65536
  memsize_le := memsize_le_64k
  memsize_dvd := memsize_dvd_64k
  feat370 := true
  prot := true
  attached _ := false
  hasStartIo _ := false
  hasHaltIo _ := false

/-- A command to a device of it with a list, whose first page is at `iaddr` and whose second one is at `next`. -/
def listed (cmd count iaddr next : ℕ) : Sub multiplexers where
  chan := ⟨none, 8, 0x100, iaddr, count, cmd, 0, 0, flagIda, 0, 0x100, buffEmpty, false⟩
  io :=
    { mem := Function.update (fun _ => 0) 0x41 next
      key := fun _ => 0
      ctl := fun _ => ⟨none, 0, 0, 0, 0, 0, 0, 0, 0, 0, noDev, 0, false⟩
      devStatus := fun _ => 0
      chanPend := fun _ => false
      irqPend := false
      blockMux := true
      loading := 0
      calls := 0
      looks := [] }

/-- A transfer of bytes. -/
def Transfer.writes (t : Sub c) (data : List UInt8) : Transfer c :=
  data.foldl (fun s d => s.step (fun _ _ => 0) (.write d)) (.start t)

/-- Two bytes, forward into the next page of the list. -/
theorem transfer_right_pages : (Transfer.writes (listed 0x02 2 0x17ff 0x3000) [1, 2]).Right fun _ _ => 0 := by
  have hfirst : (Transfer.start (listed 0x02 2 0x17ff 0x3000)).Ok (.write 1) :=
    ⟨by decide, ⟨fun h => absurd h (by decide), by decide, fun h => absurd h (by decide), fun _ h => absurd h (by decide),
      fun _ => by decide, fun _ h => absurd h (by decide)⟩⟩
  have hsecond : (Transfer.writes (listed 0x02 2 0x17ff 0x3000) [1]).Ok (.write 2) :=
    ⟨by decide, ⟨fun h => absurd h (by decide), by decide, fun h => absurd h (by decide),
      fun _ _ _ => by decide, fun _ => by decide, fun _ _ h => absurd h (by decide)⟩⟩
  exact transfer_right (fun _ _ => 0) (t := listed 0x02 2 0x17ff 0x3000) ⟨by decide, by decide, by decide⟩ rfl
    (.next (.next .start hfirst rfl) hsecond rfl)

/-- Five bytes backward: the last one is below the first page, and not in the next one of the list. -/
theorem backward_page : ¬ ∀ (c : Channels) (device : ℕ → Request → ℕ) (t : Sub c), Quiet t → t.chan.chanByte = buffEmpty →
    ∀ s, Reaches (ofFun (Transfer.step device)) (Transfer.Taken device) (.start t) s →
      ∀ flags, (chanEnd flags s.sub).io.mem = s.mem := by
  intro h
  have hstep (data : List UInt8) (d : UInt8)
      (hreach : Reaches (ofFun (Transfer.step fun _ _ => 0)) (Transfer.Taken fun _ _ => 0)
        (.start (listed 0x0c 5 0x1803 0x3fff)) (Transfer.writes (listed 0x0c 5 0x1803 0x3fff) data))
      (htaken : (chanWriteByte (fun _ _ => 0) d.toNat (Transfer.writes (listed 0x0c 5 0x1803 0x3fff) data).sub).2 = false) :
      Reaches (ofFun (Transfer.step fun _ _ => 0)) (Transfer.Taken fun _ _ => 0)
        (.start (listed 0x0c 5 0x1803 0x3fff)) (Transfer.writes (listed 0x0c 5 0x1803 0x3fff) (data ++ [d])) := by
    rw [Transfer.writes, List.foldl_append]
    exact .next (e := .write d) hreach htaken rfl
  have hreach := hstep [1, 2, 3, 4] 5 (hstep [1, 2, 3] 4 (hstep [1, 2] 3 (hstep [1] 2 (hstep [] 1 .start
    (by decide)) (by decide)) (by decide)) (by decide)) (by decide)
  have hmem := congrFun (h multiplexers (fun _ _ => 0) (listed 0x0c 5 0x1803 0x3fff) ⟨by decide, by decide, by decide⟩ rfl
    _ hreach 0) 0x5ff
  exact absurd hmem (by decide)

end Ka10Simh.Ibm360
