import Ka10Simh.Ibm360.Channel.Area

/-!
Data read from the storage by a device.

* `Area.next`, `Area.ready`: what is left after a byte, and the next command of a chain at the end of one.
* `Reads`: a subchannel at a byte of an area.
* `ReadOk`, `chanReadByte_right`: where the byte that is read is the one of the area.
-/

namespace Ka10Simh.Ibm360

open Word Fields

variable {c : Channels} {t : Sub c} {a : Area} {mem : ℕ → ℕ}

namespace Area

variable (c) (mem : ℕ → ℕ) (a : Area)

/-- The last byte of its word. -/
def wordEnd : Area := { a with addr := a.addr / 4 * 4 + 3 }

/-- What is left after a byte. -/
def next (back : Bool) : Area := { a.move c mem back with left := a.left - 1 }

/-- The next command of a chain when there is nothing left of this one. -/
def ready : Area := if a.left = 0 ∧ a.Chains then (a.load c mem).getD a else a

/-- There is one, and it may be loaded. -/
def Loads (key : ℕ → ℕ) (ccwKey : ℕ) : Prop := ∃ b, a.load c mem = some b ∧ a.CanLoad c key ccwKey mem

variable {c mem a}

lemma move_caw (back : Bool) : (a.move c mem back).caw = a.caw := by
  rw [move]
  split_ifs <;> rfl

lemma move_flags (back : Bool) : (a.move c mem back).flags = a.flags := by
  rw [move]
  split_ifs <;> rfl

/-- The place does not depend on what is left. -/
lemma move_left (back : Bool) (n : ℕ) : ({ a with left := n } : Area).move c mem back = { a.move c mem back with left := n } := by
  rw [move, move]
  by_cases hcross : a.Crosses c back
  · have hcross' : ({ a with left := n } : Area).Crosses c back := hcross
    rw [if_pos hcross, if_pos hcross']
  · have hcross' : ¬ ({ a with left := n } : Area).Crosses c back := hcross
    rw [if_neg hcross, if_neg hcross']
    rfl

/-- The next command depends on its address and the flags alone. -/
lemma load_congr {b : Area} (hcaw : b.caw = a.caw) (hflags : b.flags = a.flags) : b.load c mem = a.load c mem := by
  rw [load, load, commandAt, commandAt, nextFlags, nextFlags, hcaw, hflags]

lemma canLoad_same {key key' : ℕ → ℕ} {ccwKey : ℕ} (hkeys : SameKeys key key') (h : a.CanLoad c key ccwKey mem) :
    a.CanLoad c key' ccwKey mem :=
  ⟨hkeys.canFetch h.1, hkeys.canFetch h.2.1, hkeys.canFetch h.2.2.1,
    fun b hb hida => hkeys.canFetch (h.2.2.2 b hb hida)⟩

lemma loads_same {key key' : ℕ → ℕ} {ccwKey : ℕ} (hkeys : SameKeys key key') (h : a.Loads c mem key ccwKey) :
    a.Loads c mem key' ccwKey := by
  obtain ⟨b, hb, hcan⟩ := h
  exact ⟨b, hb, canLoad_same hkeys hcan⟩

lemma next_caw (back : Bool) : (a.next c mem back).caw = a.caw := move_caw back

lemma next_flags (back : Bool) : (a.next c mem back).flags = a.flags := move_flags back

lemma next_ida (back : Bool) : (a.next c mem back).Ida c ↔ a.Ida c := by rw [Ida, Ida, next_flags]

lemma next_chains (back : Bool) : (a.next c mem back).Chains ↔ a.Chains := by rw [Chains, Chains, next_flags]

lemma load_next (back : Bool) : (a.next c mem back).load c mem = a.load c mem :=
  load_congr (next_caw back) (next_flags back)

/-- A command that is not at its end is ready. -/
lemma ready_of_left (h : ¬ (a.left = 0 ∧ a.Chains)) : a.ready c mem = a := if_neg h

lemma ready_of_load {b : Area} (h : a.left = 0 ∧ a.Chains) (hb : a.load c mem = some b) : a.ready c mem = b := by
  rw [ready, if_pos h, hb, Option.getD_some]

/-- At the end of a chain's command that is left behind the next one is loaded. -/
lemma ready_next {b : Area} {back : Bool} (hleft : a.left - 1 = 0) (hchains : a.Chains) (hb : a.load c mem = some b) :
    (a.next c mem back).ready c mem = b :=
  ready_of_load ⟨hleft, (next_chains back).mpr hchains⟩ ((load_next back).trans hb)

/-- Within a word nothing is crossed. -/
lemma move_inWord (hsize : a.addr < 2 ^ 24) (hin : a.addr % 4 ≠ 3) :
    a.move c mem false = { a with addr := a.addr + 1 } := by
  have hbeside : a.beside false = a.addr + 1 := Nat.mod_eq_of_lt (by omega)
  have hcross : ¬ a.Crosses c false := fun h => by
    have hzero := h.2
    rw [hbeside, if_neg Bool.false_ne_true] at hzero
    have hmod := (Nat.and_two_pow_sub_one_eq_mod (a.addr + 1) 11).symm.trans hzero
    lia
  rw [move, if_neg hcross, hbeside]

end Area

/-- The bits of an address that count the byte in its word. -/
lemma and_three (n : ℕ) : n &&& 3 = n % 4 := Nat.and_two_pow_sub_one_eq_mod n 2

lemma get_storage (addr : ℕ) (mem : ℕ → ℕ) :
    storage.get addr mem = mem (addr >>> 2) >>> (8 * (3 - addr % 4)) &&& 0xff := by
  rw [← and_three]
  rfl

/-- A subchannel whose buffer has the word of the next byte of an area; its address is that of the word after it. -/
structure Holds (t : Sub c) (a : Area) : Prop where
  quiet : Quiet t
  left : t.chan.ccwCount = a.left
  caw : t.chan.caw = a.caw
  flags : t.chan.ccwFlags = a.flags
  size : a.addr < c.memsize
  byte : t.chan.chanByte = a.addr % 4
  buf : t.chan.chanBuf = t.io.mem (a.addr >>> 2)
  addr : t.bufferAddr = (a.wordEnd.move c t.io.mem false).addr
  list : a.Ida c → t.chan.ccwAddr = (a.wordEnd.move c t.io.mem false).list

/-- The next byte is in a new word, or in the one that the buffer has. -/
def Reads (t : Sub c) (a : Area) : Prop := Stands t a ∨ Holds t a ∧ a.addr % 4 ≠ 0

lemma indirect_iff (h : t.chan.ccwFlags = a.flags) : t.Indirect ↔ a.Ida c := by rw [Sub.Indirect, Area.Ida, h]

/-- The indirect address moved on, as that of the area is. -/
lemma setIaddr_of_can {u : Sub c} {n : ℕ} (crossed : ℕ → Prop) [DecidablePred crossed] (back : Bool)
    (hn : n = a.beside back) (hcrossed : crossed (n &&& 0x7ff) ↔ a.Crosses c back) (hlist : u.chan.ccwAddr = a.list)
    (hcan : a.Crosses c back → CanFetch c u.io.key u.chan.ccwKey (add32 a.list 4)) :
    (u.setIaddr n crossed).chan = { u.chan with
        ccwAddr := (a.move c u.io.mem back).list, ccwIaddr := (a.move c u.io.mem back).addr }
      ∧ (u.setIaddr n crossed).io.mem = u.io.mem ∧ SameKeys u.io.key (u.setIaddr n crossed).io.key := by
  subst hn
  rw [Sub.setIaddr, Area.move]
  by_cases hcross : a.Crosses c back
  · obtain ⟨hchan, hmem, hkeys⟩ := nextIdaw_of_can
      (s := { u with chan := { u.chan with ccwIaddr := a.beside back } }) (by
        simp only [hlist]
        exact hcan hcross)
    simp only at hchan ⊢
    rw [if_pos (hcrossed.mpr hcross), if_pos hcross]
    refine ⟨?_, hmem, hkeys⟩
    rw [hchan, hlist]
  · simp only
    rw [if_neg fun h => hcross (hcrossed.mp h), if_neg hcross, ← hlist]
    exact ⟨rfl, rfl, fun _ => rfl⟩

/-- A subchannel that has been filled. -/
lemma holds_of_chan (hs : Stands t a) {u : Sub c} {x y : ℕ} (hlt : a.addr < c.memsize)
    (hchan : u.chan = { t.chan with
      chanBuf := t.io.mem (a.addr >>> 2), chanByte := a.addr % 4, ccwAddr := x, ccwIaddr := y })
    (hmem : u.io.mem = t.io.mem) (hkeys : SameKeys t.io.key u.io.key)
    (haddr : (if a.Ida c then y else x) = (a.wordEnd.move c t.io.mem false).addr)
    (hlist : a.Ida c → x = (a.wordEnd.move c t.io.mem false).list) : Keeps t u ∧ u.io.mem = t.io.mem ∧ Holds u a := by
  have hflags : u.chan.ccwFlags = a.flags := by rw [hchan, ← hs.flags]
  have hbuffer : u.bufferAddr = if a.Ida c then y else x := by
    rw [Sub.bufferAddr, if_congr (indirect_iff hflags) rfl rfl, hchan]
  refine ⟨⟨hkeys, by rw [hchan], by rw [hchan]⟩, hmem, ⟨⟨?_, ?_, ?_⟩, ?_, ?_, hflags, hlt, ?_, ?_, ?_, ?_⟩⟩
  · rw [hchan]
    exact hs.quiet.count
  · rw [hchan]
    exact hs.quiet.error
  · rw [hchan]
    exact hs.quiet.modifier
  · rw [hchan, ← hs.left]
  · rw [hchan, ← hs.caw]
  · rw [hchan]
  · rw [hchan, hmem]
  · rw [hbuffer, hmem, haddr]
  · intro hind
    rw [hchan, hmem, ← hlist hind]

/-- The buffer is filled. -/
lemma fillRead_of_can (hs : Stands t a) (hcan : CanFetch c t.io.key t.chan.ccwKey a.addr)
    (hlist : a.wordEnd.Crosses c false → CanFetch c t.io.key t.chan.ccwKey (add32 a.list 4)) :
    ∃ u, fillRead t = (u, false) ∧ Keeps t u ∧ u.io.mem = t.io.mem ∧ Holds u a := by
  obtain ⟨u, hu, hchan, hmem, hkeys⟩ := readbuff_of_can (s := t) (by rw [hs.addr]; exact hcan)
  rw [hs.addr] at hchan
  have hflags : u.chan.ccwFlags = a.flags := by rw [hchan, ← hs.flags]
  have hbeside : add32 a.addr (4 - a.addr % 4) = a.wordEnd.beside false := by
    show (a.addr + (4 - a.addr % 4)) % 2 ^ 32 = (a.addr / 4 * 4 + 3 + 1) % 2 ^ 32
    congr 1
    lia
  rw [fillRead, hu]
  simp only [Bool.false_eq_true, if_false]
  by_cases hind : a.Ida c
  · have haddr : t.chan.ccwIaddr = a.addr := by
      have h := hs.addr
      rwa [Sub.bufferAddr, if_pos ((indirect_iff hs.flags).mpr hind)] at h
    have hiaddr : u.chan.ccwIaddr = a.addr := by rw [hchan, ← haddr]
    rw [if_pos ((indirect_iff hflags).mpr hind), hiaddr, and_three]
    obtain ⟨hchan', hmem', hkeys'⟩ := setIaddr_of_can (c := c) (u := u.setByte (a.addr % 4)) (a := a.wordEnd)
      (· = 0) false hbeside (by rw [hbeside]; exact ⟨fun h => ⟨hind, h⟩, And.right⟩)
      (by show u.chan.ccwAddr = a.list; rw [hchan, ← hs.list hind]) (fun hcross => by
        show CanFetch c u.io.key u.chan.ccwKey _
        rw [hchan]
        exact hkeys.canFetch (hlist hcross))
    have hmem'' : (u.setByte (a.addr % 4)).io.mem = t.io.mem := hmem
    rw [hmem''] at hmem' hchan'
    refine ⟨_, rfl, holds_of_chan hs hcan.1 ?_ hmem' (hkeys.trans hkeys') (if_pos hind) fun _ => rfl⟩
    rw [hchan', Sub.setByte, hchan]
  · have haddr : t.chan.ccwAddr = a.addr := by
      have h := hs.addr
      rwa [Sub.bufferAddr, if_neg fun h => hind ((indirect_iff hs.flags).mp h)] at h
    have hcaddr : u.chan.ccwAddr = a.addr := by rw [hchan, ← haddr]
    have hmove : a.wordEnd.move c t.io.mem false = { a.wordEnd with addr := a.wordEnd.beside false } := by
      rw [Area.move, if_neg fun h => hind h.1]
    rw [if_neg fun h => hind ((indirect_iff hflags).mp h), hcaddr, and_three]
    refine ⟨_, rfl, holds_of_chan hs hcan.1 (x := add32 a.addr (4 - a.addr % 4)) (y := t.chan.ccwIaddr) ?_ hmem hkeys ?_
      fun h => absurd h hind⟩
    · rw [Sub.setAddr, Sub.setByte, hchan]
    · rw [if_neg hind, hmove, hbeside]

/-- The count goes down. -/
lemma dec16_eq {n : ℕ} (hne : n ≠ 0) (hlt : n < 2 ^ 16) : dec16 n = n - 1 := by
  rw [dec16]
  lia

/-- A byte is taken from the buffer. -/
lemma takeByte_of_can (device : ℕ → Request → ℕ) (hh : Holds t a) (hleft : a.left ≠ 0)
    (hload : a.left = 1 → a.Chains → a.Loads c t.io.mem t.io.key t.chan.ccwKey) :
    ∃ u, takeByte device t = (u, storage.get a.addr t.io.mem, false) ∧ Keeps t u ∧ u.io.mem = t.io.mem
      ∧ Reads u ((a.next c t.io.mem false).ready c t.io.mem) := by
  have hsize := c.memsize_le
  have hdvd := c.memsize_dvd
  have hlt := hh.size
  have hcount := hh.quiet.count
  have hdec : dec16 t.chan.ccwCount = a.left - 1 := by
    rw [dec16_eq (by rw [hh.left]; exact hleft) hcount, hh.left]
  have hbyte : t.chan.chanBuf >>> (8 * (3 - (t.chan.chanByte &&& 3))) &&& 0xff = storage.get a.addr t.io.mem := by
    rw [get_storage, hh.buf, hh.byte, and_three, Nat.mod_mod]
  unfold takeByte
  rw [hbyte, hdec]
  have hcd : t.chan.ccwFlags &&& flagCd ≠ 0 ↔ a.Chains := by
    rw [hh.flags]
    exact Iff.rfl
  by_cases hend : a.left - 1 = 0 ∧ a.Chains
  · obtain ⟨b, hb, hcan⟩ := hload (by lia) hend.2
    rw [if_pos ⟨hend.1, hcd.mpr hend.2⟩, Area.ready_next hend.1 hend.2 hb]
    obtain ⟨u, hu, hkeeps, hmem, hstands⟩ := loadCcw_chain
      (s := Sub.setByte { t with chan := { t.chan with ccwCount := a.left - 1, chanByte := t.chan.chanByte + 1 } }
        buffEmpty) (a := a) ⟨by show a.left - 1 < 2 ^ 16; omega, hh.quiet.error, hh.quiet.modifier⟩ hh.caw hh.flags
      hend.2 hb hcan
    rw [hu]
    exact ⟨u, rfl, ⟨hkeeps.keys, hkeeps.ccwKey, hkeeps.ccwCmd⟩, hmem, .inl hstands⟩
  · rw [if_neg fun h => hend ⟨h.1, hcd.mp h.2⟩,
      Area.ready_of_left fun h => hend ⟨h.1, (Area.next_chains false).mp h.2⟩]
    refine ⟨_, rfl, ⟨fun _ => rfl, rfl, rfl⟩, rfl, ?_⟩
    have hquiet : Quiet ({ t with chan := { t.chan with
        ccwCount := a.left - 1, chanByte := t.chan.chanByte + 1 } } : Sub c) :=
      ⟨by show a.left - 1 < 2 ^ 16; rw [← hh.left]; omega, hh.quiet.error, hh.quiet.modifier⟩
    by_cases hin : a.addr % 4 = 3
    · have hword : a.wordEnd = a := by
        rw [Area.wordEnd, show a.addr / 4 * 4 + 3 = a.addr by lia]
      have haddr := hh.addr
      have hlist := hh.list
      rw [hword] at haddr hlist
      refine .inl ⟨hquiet, rfl, hh.caw.trans (Area.next_caw false).symm, hh.flags.trans (Area.next_flags false).symm, ?_,
        haddr, fun h => hlist ((Area.next_ida false).mp h)⟩
      show t.chan.chanByte + 1 = buffEmpty
      rw [hh.byte, hin]
    · have hmove : a.move c t.io.mem false = { a with addr := a.addr + 1 } := Area.move_inWord (by omega) hin
      have hword : ({ a with addr := a.addr + 1, left := a.left - 1 } : Area).wordEnd
          = { a.wordEnd with left := a.left - 1 } := by
        rw [Area.wordEnd, Area.wordEnd, show (a.addr + 1) / 4 * 4 = a.addr / 4 * 4 by lia]
      rw [Area.next, hmove]
      refine .inr ⟨⟨hquiet, rfl, hh.caw, hh.flags, by show a.addr + 1 < c.memsize; lia, ?_, ?_, ?_, ?_⟩,
        by show (a.addr + 1) % 4 ≠ 0; lia⟩
      · show t.chan.chanByte + 1 = (a.addr + 1) % 4
        rw [hh.byte]
        lia
      · show t.chan.chanBuf = t.io.mem ((a.addr + 1) >>> 2)
        rw [hh.buf, Nat.shiftRight_eq_div_pow, Nat.shiftRight_eq_div_pow, show (a.addr + 1) / 2 ^ 2 = a.addr / 2 ^ 2 by lia]
      · rw [hword, Area.move_left]
        exact hh.addr
      · rw [hword, Area.move_left]
        exact hh.list

/-- A byte may be read: there is one left, its word may be fetched when it is a new one, and with it the next indirect
address when the word is the last of its page; after the last byte of a command in a chain there is another
command. -/
structure ReadOk (t : Sub c) (a : Area) : Prop where
  left : a.left ≠ 0
  fetch : t.chan.chanByte = buffEmpty → CanFetch c t.io.key t.chan.ccwKey a.addr
    ∧ (a.wordEnd.Crosses c false → CanFetch c t.io.key t.chan.ccwKey (add32 a.list 4))
  load : a.left = 1 → a.Chains → a.Loads c t.io.mem t.io.key t.chan.ccwKey

section Read

variable (device : ℕ → Request → ℕ)

lemma reads_quiet (h : Reads t a) : Quiet t ∧ t.chan.ccwCount = a.left ∧ t.chan.ccwFlags = a.flags
    ∧ t.chan.chanByte ≠ buffChnend := by
  rcases h with hs | ⟨hh, -⟩
  · refine ⟨hs.quiet, hs.left, hs.flags, ?_⟩
    rw [hs.empty]
    decide
  · refine ⟨hh.quiet, hh.left, hh.flags, ?_⟩
    rw [hh.byte]
    show a.addr % 4 ≠ 16
    omega

/-- **A byte that is read** is the next one of the area. -/
theorem chanReadByte_right (h : Reads t a) (hcmd : t.chan.ccwCmd &&& 1 ≠ 0) (hok : ReadOk t a) :
    ∃ u, chanReadByte device t = (u, storage.get a.addr t.io.mem, false) ∧ Keeps t u ∧ u.io.mem = t.io.mem
      ∧ Reads u ((a.next c t.io.mem false).ready c t.io.mem) := by
  obtain ⟨hquiet, hleft, -, hbyte⟩ := reads_quiet h
  rw [chanReadByte, if_neg (not_not.mpr hquiet.error), if_neg hcmd, if_neg hbyte, countRead,
    if_neg (by rw [hleft]; exact hok.left)]
  simp only [Bool.false_eq_true, if_false]
  rcases h with hs | ⟨hh, hin⟩
  · -- a new word
    rw [if_pos hs.empty]
    obtain ⟨hcan, hlist⟩ := hok.fetch hs.empty
    obtain ⟨u, hu, hkeeps, hmem, hh⟩ := fillRead_of_can hs hcan hlist
    obtain ⟨v, hv, hkeeps', hmem', hreads⟩ := takeByte_of_can device hh hok.left fun hone hchains => by
      rw [hmem, hkeeps.ccwKey]
      exact Area.loads_same hkeeps.keys (hok.load hone hchains)
    rw [hmem] at hv hmem' hreads
    rw [hu]
    simp only [Bool.false_eq_true, if_false]
    exact ⟨v, hv, hkeeps.trans hkeeps', hmem', hreads⟩
  · -- a byte of the word that the buffer has
    have hne : t.chan.chanByte ≠ buffEmpty := by
      rw [hh.byte]
      show a.addr % 4 ≠ 4
      omega
    rw [if_neg hne]
    simp only [Bool.false_eq_true, if_false]
    exact takeByte_of_can device hh hok.left hok.load

/-- After the last byte there is none. -/
lemma chanReadByte_end (h : Reads t a) (hcmd : t.chan.ccwCmd &&& 1 ≠ 0) (hleft : a.left = 0) (hchains : ¬ a.Chains) :
    ∃ u, chanReadByte device t = (u, 0, true) ∧ u.io.mem = t.io.mem ∧ u.chan.ccwCount = 0
      ∧ u.chan.chanByte = buffChnend := by
  obtain ⟨hquiet, hcount, hflags, hbyte⟩ := reads_quiet h
  have hcd : t.chan.ccwFlags &&& flagCd = 0 := by
    rw [hflags]
    exact not_not.mp hchains
  rw [chanReadByte, if_neg (not_not.mpr hquiet.error), if_neg hcmd, if_neg hbyte, countRead,
    if_pos (by rw [hcount, hleft]), if_pos hcd]
  exact ⟨_, rfl, rfl, hcount.trans hleft, rfl⟩

end Read

end Ka10Simh.Ibm360
