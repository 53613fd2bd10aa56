import Ka10Simh.Ibm360.Channel.Transfer
import Ka10Simh.Lib.Fields
import Ka10Simh.Lib.Reaches

/-!
The areas of a channel program, byte by byte, and what the channel does where it is let into the storage.

* `storage`: the bytes of the storage.
* `Area`: what is left of the areas of a chain of commands; `Area.move` and `Area.load` are the next byte and the next
  command.
* `CanFetch`, `CanStore`: where a channel is let in.
* `readfull_of_can`, `writebuff_of_can`, `loadCcw_chain`: what the functions of the code do there.
-/

namespace Ka10Simh.Ibm360

open Word Fields

/-- The bytes of the storage, four to a word. -/
def storage : Layout ℕ where
  place a := a >>> 2
  pos a := 8 * (3 - (a &&& 3))
  size := 8

/-! ### Areas -/

/-- What is left of the areas of a program: the address of the next byte, that of the indirect address it has been
found with, the bytes left of the command, the address of the next command, and the flags. -/
structure Area where
  addr : ℕ
  list : ℕ
  left : ℕ
  caw : ℕ
  flags : ℕ
  deriving DecidableEq

namespace Area

variable (c : Channels) (mem : ℕ → ℕ) (back : Bool) (a : Area)

/-- The addresses are indirect; the data is skipped; the next command goes on with the data. -/
def Ida : Prop := a.flags &&& flagIda ≠ 0 ∧ c.feat370 = true
def Skips : Prop := a.flags &&& flagSkip ≠ 0
def Chains : Prop := a.flags &&& flagCd ≠ 0

instance : Decidable (a.Ida c) := inferInstanceAs (Decidable (_ ∧ _))
instance : Decidable a.Skips := inferInstanceAs (Decidable (_ ≠ _))
instance : Decidable a.Chains := inferInstanceAs (Decidable (_ ≠ _))

/-- The address beside it. -/
def beside : ℕ := if back = true then sub32 a.addr 1 else add32 a.addr 1

/-- It is in another page, which is found in the list. -/
def Crosses : Prop := a.Ida c ∧ a.beside back &&& 0x7ff = if back = true then 0x7ff else 0

instance : Decidable (a.Crosses c back) := inferInstanceAs (Decidable (_ ∧ _))

/-- The next byte of the area. -/
def move : Area :=
  if a.Crosses c back then { a with addr := mem (add32 a.list 4 >>> 2) &&& amask, list := add32 a.list 4 }
  else { a with addr := a.beside back }

/-- Where the next command is: a transfer in channel is followed. -/
def commandAt : ℕ :=
  let word := mem (a.caw >>> 2)
  if word >>> 24 &&& 0xf = cmdTic then word &&& amask else a.caw

/-- The flags in its second word. -/
def nextFlags (second : ℕ) : ℕ :=
  (second >>> 16 ||| if a.flags &&& (flagCd ||| flagSli) = flagCd ||| flagSli then flagSli else 0) &&& 0xff00

/-- The area of the next command of a chain, if it is one. -/
def load : Option Area :=
  let caw := a.commandAt mem
  let word := mem (caw >>> 2)
  let second := mem ((caw + 4 &&& amask) >>> 2)
  if a.caw &&& 7 ≠ 0 ∨ caw &&& 7 ≠ 0 ∨ word >>> 24 &&& 0xf = cmdTic ∨ second &&& 0xffff = 0 then none
  else
    let list := word &&& amask
    let flags := a.nextFlags second
    some
      { addr := if flags &&& flagIda ≠ 0 ∧ c.feat370 = true then mem (list >>> 2) &&& amask else list
        list := list
        left := second &&& 0xffff
        caw := (caw + 4 &&& amask) + 4 &&& amask
        flags := bic flags flagPci }

variable {c mem a}

lemma load_eq_some {b : Area} (h : a.load c mem = some b) :
    let caw := a.commandAt mem
    let word := mem (caw >>> 2)
    let second := mem ((caw + 4 &&& amask) >>> 2)
    a.caw &&& 7 = 0 ∧ caw &&& 7 = 0 ∧ word >>> 24 &&& 0xf ≠ cmdTic ∧ second &&& 0xffff ≠ 0
      ∧ b = { addr := if a.nextFlags second &&& flagIda ≠ 0 ∧ c.feat370 = true then
                mem ((word &&& amask) >>> 2) &&& amask else word &&& amask
              list := word &&& amask
              left := second &&& 0xffff
              caw := (caw + 4 &&& amask) + 4 &&& amask
              flags := bic (a.nextFlags second) flagPci } := by
  rw [load] at h
  simp only at h ⊢
  obtain ⟨hno, h⟩ := Option.ite_none_left_eq_some.mp h
  simp only [not_or, not_not] at hno
  exact ⟨hno.1, hno.2.1, hno.2.2.1, hno.2.2.2, (Option.some.inj h).symm⟩

end Area

/-! ### Protection -/

section Protection

variable (c : Channels) (key : ℕ → ℕ) (ccwKey addr : ℕ)

/-- A channel may read a word, and write it. -/
def CanFetch : Prop := addr < c.memsize ∧ (ccwKey ≠ 0 → c.prot = true ∧ ¬ fetchProtected (key (addr >>> 11)) ccwKey)
def CanStore : Prop := addr < c.memsize ∧ (ccwKey ≠ 0 → c.prot = true ∧ ¬ storeProtected (key (addr >>> 11)) ccwKey)

instance : Decidable (CanFetch c key ccwKey addr) := inferInstanceAs (Decidable (_ ∧ _))
instance : Decidable (CanStore c key ccwKey addr) := inferInstanceAs (Decidable (_ ∧ _))

/-- The words of the next command of a chain may be read. -/
def Area.CanLoad (mem : ℕ → ℕ) (a : Area) : Prop :=
  let caw := a.commandAt mem
  CanFetch c key ccwKey a.caw ∧ CanFetch c key ccwKey caw ∧ CanFetch c key ccwKey (caw + 4 &&& amask)
    ∧ ∀ b, a.load c mem = some b → b.Ida c → CanFetch c key ccwKey b.list

variable {c key ccwKey addr}

lemma CanStore.fetch (h : CanStore c key ccwKey addr) : CanFetch c key ccwKey addr :=
  ⟨h.1, fun hne => ⟨(h.2 hne).1, fun hprot => (h.2 hne).2 hprot.2⟩⟩

/-- Keys that protect alike. -/
def SameKeys (key key' : ℕ → ℕ) : Prop := ∀ i, key' i &&& 0xf8 = key i &&& 0xf8

variable {key' : ℕ → ℕ}

lemma SameKeys.trans {key'' : ℕ → ℕ} (h : SameKeys key key') (h' : SameKeys key' key'') : SameKeys key key'' :=
  fun i => (h' i).trans (h i)

/-- The bits that are set when a channel has been there do not protect. -/
lemma sameKeys_update (key : ℕ → ℕ) (i : ℕ) {bits : ℕ} (h : bits &&& 0xf8 = 0) :
    SameKeys key (Function.update key i (key i ||| bits)) := fun j => by
  by_cases hj : j = i
  · subst hj
    rw [Function.update_self, Nat.and_or_distrib_right, h, Nat.or_zero]
  · rw [Function.update_of_ne hj]

lemma SameKeys.fetchProtected (h : SameKeys key key') (i k : ℕ) :
    fetchProtected (key' i) k ↔ fetchProtected (key i) k := by
  have hbits (m : ℕ) (hm : 0xf8 &&& m = m) : key' i &&& m = key i &&& m := by
    rw [← hm, ← Nat.and_assoc, ← Nat.and_assoc, h i]
  rw [Ibm360.fetchProtected, Ibm360.fetchProtected, hbits 0x8 (by decide), hbits 0xf0 (by decide)]

lemma SameKeys.storeProtected (h : SameKeys key key') (i k : ℕ) :
    storeProtected (key' i) k ↔ storeProtected (key i) k := by
  have hbits : key' i &&& 0xf0 = key i &&& 0xf0 := by
    rw [show 0xf0 = 0xf8 &&& 0xf0 by decide, ← Nat.and_assoc, ← Nat.and_assoc, h i]
  rw [Ibm360.storeProtected, Ibm360.storeProtected, hbits]

lemma SameKeys.canFetch (h : SameKeys key key') (hcan : CanFetch c key ccwKey addr) : CanFetch c key' ccwKey addr :=
  ⟨hcan.1, fun hne => ⟨(hcan.2 hne).1, fun hprot => (hcan.2 hne).2 ((h.fetchProtected _ _).mp hprot)⟩⟩

lemma SameKeys.canStore (h : SameKeys key key') (hcan : CanStore c key ccwKey addr) : CanStore c key' ccwKey addr :=
  ⟨hcan.1, fun hne => ⟨(hcan.2 hne).1, fun hprot => (hcan.2 hne).2 ((h.storeProtected _ _).mp hprot)⟩⟩

/-- The test for the size lets the storage pass. -/
lemma not_rejected (h : addr < c.memsize) : ¬ addr &&& amask > c.memsize := by
  have hle : addr &&& amask ≤ addr := Nat.and_le_left
  omega

end Protection

/-! ### The functions of the channel -/

section Functions

variable {c : Channels} {s : Sub c} {addr : ℕ}

/-- The same subchannel, storage and protection. -/
structure Same (s t : Sub c) : Prop where
  chan : t.chan = s.chan
  mem : t.io.mem = s.io.mem
  keys : SameKeys s.io.key t.io.key

lemma readfull_of_can (h : CanFetch c s.io.key s.chan.ccwKey addr) :
    ∃ t, readfull s addr = (t, s.io.mem (addr >>> 2), false) ∧ Same s t := by
  have hpassed := not_rejected h.1
  have hfeature : ¬ (s.chan.ccwKey ≠ 0 ∧ c.prot = false) := fun hno => by
    rw [(h.2 hno.1).1] at hno
    exact Bool.false_ne_true hno.2.symm
  have hkey : ¬ (s.chan.ccwKey ≠ 0 ∧ fetchProtected (s.io.key (addr >>> 11)) s.chan.ccwKey) :=
    fun hno => (h.2 hno.1).2 hno.2
  rw [readfull, dif_neg hpassed, if_neg hfeature, if_neg hkey]
  exact ⟨_, rfl, rfl, rfl, sameKeys_update _ _ (by decide)⟩

lemma readbuff_of_can (h : CanFetch c s.io.key s.chan.ccwKey s.bufferAddr) :
    ∃ t, readbuff s = (t, false) ∧ t.chan = { s.chan with chanBuf := s.io.mem (s.bufferAddr >>> 2) }
      ∧ t.io.mem = s.io.mem ∧ SameKeys s.io.key t.io.key := by
  obtain ⟨t, ht, hsame⟩ := readfull_of_can h
  rw [readbuff, ht]
  simp only [Bool.false_eq_true, if_false, hsame.chan]
  exact ⟨_, rfl, rfl, hsame.mem, hsame.keys⟩

lemma writebuff_of_can (h : CanStore c s.io.key s.chan.ccwKey s.bufferAddr) :
    ∃ t, writebuff s = (t, false) ∧ t.chan = s.chan
      ∧ t.io.mem = Function.update s.io.mem (s.bufferAddr >>> 2) s.chan.chanBuf ∧ SameKeys s.io.key t.io.key := by
  have hpassed := not_rejected h.1
  have hfeature : ¬ (s.chan.ccwKey ≠ 0 ∧ c.prot = false) := fun hno => by
    rw [(h.2 hno.1).1] at hno
    exact Bool.false_ne_true hno.2.symm
  have hkey : ¬ (s.chan.ccwKey ≠ 0 ∧ storeProtected (s.io.key (s.bufferAddr >>> 11)) s.chan.ccwKey) :=
    fun hno => (h.2 hno.1).2 hno.2
  rw [writebuff]
  simp only
  rw [dif_neg hpassed, if_neg hfeature, if_neg hkey]
  exact ⟨_, rfl, rfl, rfl, sameKeys_update _ _ (by decide)⟩

lemma nextIdaw_of_can (h : CanFetch c s.io.key s.chan.ccwKey (add32 s.chan.ccwAddr 4)) :
    s.nextIdaw.chan = { s.chan with
        ccwAddr := add32 s.chan.ccwAddr 4
        ccwIaddr := s.io.mem (add32 s.chan.ccwAddr 4 >>> 2) &&& amask }
      ∧ s.nextIdaw.io.mem = s.io.mem ∧ SameKeys s.io.key s.nextIdaw.io.key := by
  obtain ⟨t, ht, hsame⟩ := readfull_of_can
    (s := { s with chan := { s.chan with ccwAddr := add32 s.chan.ccwAddr 4 } }) h
  rw [Sub.nextIdaw]
  simp only
  rw [ht]
  refine ⟨?_, hsame.mem, hsame.keys⟩
  simp only [hsame.chan]

/-! ### Chains of commands -/

/-- A subchannel with nothing in the way of its program: no error, and no status modifier. -/
structure Quiet (s : Sub c) : Prop where
  count : s.chan.ccwCount < 2 ^ 16
  error : s.chan.chanStatus &&& 0x7f = 0
  modifier : s.chan.chanStatus &&& statusMod = 0

/-- The area of a subchannel whose buffer is empty. -/
structure Stands (s : Sub c) (a : Area) : Prop where
  quiet : Quiet s
  left : s.chan.ccwCount = a.left
  caw : s.chan.caw = a.caw
  flags : s.chan.ccwFlags = a.flags
  empty : s.chan.chanByte = buffEmpty
  addr : s.bufferAddr = a.addr
  list : a.Ida c → s.chan.ccwAddr = a.list

/-- What a step of the transfer leaves alone. -/
structure Keeps (s t : Sub c) : Prop where
  keys : SameKeys s.io.key t.io.key
  ccwKey : t.chan.ccwKey = s.chan.ccwKey
  ccwCmd : t.chan.ccwCmd = s.chan.ccwCmd

lemma Keeps.trans {s t u : Sub c} (h : Keeps s t) (h' : Keeps t u) : Keeps s u :=
  ⟨h.keys.trans h'.keys, h'.ccwKey.trans h.ccwKey, h'.ccwCmd.trans h.ccwCmd⟩

lemma Same.keeps {s t : Sub c} (h : Same s t) : Keeps s t := ⟨h.keys, by rw [h.chan], by rw [h.chan]⟩

section Chain

variable (device : ℕ → Request → ℕ)

/-- The end of `load_ccw` when there is no command for the device: only the interruption that is asked for by the
command is left. -/
lemma startCmd_chain (hquiet : Quiet s) (chained : Bool) :
    ∃ t, startCmd device false chained s = (t, false) ∧ Quiet t ∧ t.io.mem = s.io.mem ∧ t.io.key = s.io.key
      ∧ ∃ status flags, t.chan = { s.chan with chanStatus := status, ccwFlags := flags }
        ∧ flags = bic s.chan.ccwFlags flagPci := by
  rw [startCmd]
  simp only [Bool.false_eq_true, if_false]
  split_ifs with hpci
  · refine ⟨_, rfl, ⟨hquiet.count, ?_, ?_⟩, rfl, rfl, _, _, rfl, rfl⟩
    · show (s.chan.chanStatus ||| statusPci) &&& 0x7f = 0
      rw [Nat.and_or_distrib_right, hquiet.error]
      decide
    · show (s.chan.chanStatus ||| statusPci) &&& statusMod = 0
      rw [Nat.and_or_distrib_right, hquiet.modifier]
      decide
  · refine ⟨s, rfl, hquiet, rfl, rfl, s.chan.chanStatus, s.chan.ccwFlags, rfl, ?_⟩
    rw [bic, not_not.mp hpci, Nat.xor_zero]

variable {device}

/-- A transfer in channel. -/
lemma nextCcw_tic (hquiet : Quiet s) (hcd : s.chan.ccwFlags &&& flagCd ≠ 0) (halign : s.chan.caw &&& 7 = 0)
    (hcan : CanFetch c s.io.key s.chan.ccwKey s.chan.caw)
    (htic : s.io.mem (s.chan.caw >>> 2) >>> 24 &&& 0xf = cmdTic) (again : Sub c → Sub c × Bool) :
    ∃ t, nextCcw device (some again) s = again t ∧ Quiet t ∧ Keeps s t ∧ t.io.mem = s.io.mem
      ∧ t.chan = { s.chan with caw := s.io.mem (s.chan.caw >>> 2) &&& amask } := by
  obtain ⟨t, ht, hsame⟩ := readfull_of_can hcan
  rw [nextCcw, if_neg fun h => hcd h.2, if_neg (not_not.mpr halign), if_neg (not_not.mpr hquiet.error)]
  simp only
  rw [if_neg (not_not.mpr hquiet.modifier), ht]
  simp only [htic, if_true]
  refine ⟨_, rfl, ⟨?_, ?_, ?_⟩, ⟨hsame.keys, ?_, ?_⟩, hsame.mem, ?_⟩
  · show t.chan.ccwCount < 2 ^ 16
    rw [hsame.chan]
    exact hquiet.count
  · show t.chan.chanStatus &&& 0x7f = 0
    rw [hsame.chan, hquiet.error]
  · show t.chan.chanStatus &&& statusMod = 0
    rw [hsame.chan, hquiet.modifier]
  · show t.chan.ccwKey = s.chan.ccwKey
    rw [hsame.chan]
  · show t.chan.ccwCmd = s.chan.ccwCmd
    rw [hsame.chan]
  · rw [hsame.chan]

lemma bic_and {m n : ℕ} (h : m &&& n = 0) (w : ℕ) : bic w m &&& n = w &&& n := by
  refine Nat.eq_of_testBit_eq fun k => ?_
  have hk : (m.testBit k && n.testBit k) = false := by rw [← Nat.testBit_and, h, Nat.zero_testBit]
  rw [Nat.testBit_and, Nat.testBit_and, testBit_bic]
  cases hm : m.testBit k
  · rw [Bool.not_false, Bool.and_true]
  · rw [hm, Bool.true_and] at hk
    rw [hk, Bool.and_false, Bool.and_false]

/-- What follows both words of a command. -/
lemma wordsRead_of_can (hquiet : Quiet s) {b : Area} (hleft : s.chan.ccwCount = b.left) (hne : b.left ≠ 0)
    (hcaw : s.chan.caw = b.caw) (hflags : bic s.chan.ccwFlags flagPci = b.flags) (hempty : s.chan.chanByte = buffEmpty)
    (hlist : s.chan.ccwAddr = b.list)
    (haddr : b.addr = if b.Ida c then s.io.mem (b.list >>> 2) &&& amask else b.list)
    (hcan : b.Ida c → CanFetch c s.io.key s.chan.ccwKey b.list) (chained : Bool) :
    ∃ t, wordsRead device false chained s = (t, false) ∧ Keeps s t ∧ t.io.mem = s.io.mem ∧ Stands t b := by
  have hida (w : ℕ) : bic w flagPci &&& flagIda = w &&& flagIda := bic_and (by decide) w
  have hindirect : s.Indirect ↔ b.Ida c := by rw [Sub.Indirect, Area.Ida, ← hflags, hida]
  rw [wordsRead, if_neg (by rw [hleft]; exact hne)]
  by_cases hind : b.Ida c
  · rw [if_pos (hindirect.mpr hind), hlist]
    obtain ⟨t₁, ht₁, hsame₁⟩ := readfull_of_can (hcan hind)
    rw [ht₁]
    obtain ⟨t, ht, hquiet', hmem, hkey, status, flags, hchan, hnew⟩ := startCmd_chain device
      (s := { t₁ with chan := { t₁.chan with ccwIaddr := s.io.mem (b.list >>> 2) &&& amask } })
      ⟨by simp only [hsame₁.chan]; exact hquiet.count, by simp only [hsame₁.chan]; exact hquiet.error,
        by simp only [hsame₁.chan]; exact hquiet.modifier⟩ chained
    simp only [hsame₁.chan] at hchan hnew
    have hflags' : t.chan.ccwFlags = b.flags := by rw [hchan, ← hflags, ← hnew]
    have hindirect' : t.Indirect := by rw [Sub.Indirect, hflags']; exact hind
    refine ⟨t, ht, ⟨?_, by rw [hchan], by rw [hchan]⟩, hmem.trans hsame₁.mem, ⟨hquiet', ?_, ?_, hflags', ?_, ?_, ?_⟩⟩
    · rw [hkey]
      exact hsame₁.keys
    · rw [hchan, ← hleft]
    · rw [hchan, ← hcaw]
    · rw [hchan, ← hempty]
    · rw [Sub.bufferAddr, if_pos hindirect', hchan, haddr, if_pos hind]
    · rw [hchan, ← hlist]
      exact fun _ => rfl
  · rw [if_neg fun h => hind (hindirect.mp h)]
    obtain ⟨t, ht, hquiet', hmem, hkey, status, flags, hchan, hnew⟩ := startCmd_chain device hquiet chained
    have hflags' : t.chan.ccwFlags = b.flags := by rw [hchan, ← hflags, ← hnew]
    have hindirect' : ¬ t.Indirect := by rw [Sub.Indirect, hflags']; exact hind
    refine ⟨t, ht, ⟨fun _ => by rw [hkey], by rw [hchan], by rw [hchan]⟩, hmem,
      ⟨hquiet', ?_, ?_, hflags', ?_, ?_, fun h => absurd h hind⟩⟩
    · rw [hchan, ← hleft]
    · rw [hchan, ← hcaw]
    · rw [hchan, ← hempty]
    · rw [Sub.bufferAddr, if_neg hindirect', hchan, haddr, if_neg hind, ← hlist]

/-- A command that is not one. -/
lemma nextCcw_command (hquiet : Quiet s) (hcd : s.chan.ccwFlags &&& flagCd ≠ 0) (halign : s.chan.caw &&& 7 = 0)
    {a b : Area} (hcaw : s.chan.caw = a.commandAt s.io.mem) (hflags : s.chan.ccwFlags = a.flags)
    (hload : a.load c s.io.mem = some b) (hcan : a.CanLoad c s.io.key s.chan.ccwKey s.io.mem)
    (tic : Option (Sub c → Sub c × Bool)) :
    ∃ t, nextCcw device tic s = (t, false) ∧ Keeps s t ∧ t.io.mem = s.io.mem ∧ Stands t b := by
  obtain ⟨-, -, hnotic, hcount, hb⟩ := Area.load_eq_some hload
  obtain ⟨-, hfirst, hsecond, hlist⟩ := hcan
  replace hlist := hlist b hload
  rw [← hcaw] at hnotic hcount hfirst hsecond hb
  obtain ⟨t₁, ht₁, hsame₁⟩ := readfull_of_can hfirst
  rw [nextCcw, if_neg fun h => hcd h.2, if_neg (not_not.mpr halign), if_neg (not_not.mpr hquiet.error)]
  simp only
  rw [if_neg (not_not.mpr hquiet.modifier), ht₁, if_neg hnotic]
  -- the second word, and what both of them set
  have hcd' : decide (t₁.chan.ccwFlags &&& flagCd = 0) = false := by
    rw [hsame₁.chan]
    exact decide_eq_false hcd
  rw [hcd', secondWord]
  simp only
  have hfetch : CanFetch c t₁.io.key t₁.chan.ccwKey (s.chan.caw + 4 &&& amask) := by
    rw [hsame₁.chan]
    exact hsame₁.keys.canFetch hsecond
  obtain ⟨t₂, ht₂, hsame₂⟩ := readfull_of_can (s := t₁.setFirst false (s.io.mem (s.chan.caw >>> 2))) hfetch
  have hcaw' : (t₁.setFirst false (s.io.mem (s.chan.caw >>> 2))).chan.caw = s.chan.caw + 4 &&& amask := by
    show t₁.chan.caw + 4 &&& amask = _
    rw [hsame₁.chan]
  have hmem' : (t₁.setFirst false (s.io.mem (s.chan.caw >>> 2))).io.mem = s.io.mem := hsame₁.mem
  rw [hcaw', ht₂, hmem']
  simp only
  generalize hsec : s.io.mem ((s.chan.caw + 4 &&& amask) >>> 2) = second at hcount hb ⊢
  generalize hwrd : s.io.mem (s.chan.caw >>> 2) = word at hnotic hb ht₂ hsame₂ ⊢
  have hchan : (t₂.setSecond second).chan = { s.chan with
      caw := (s.chan.caw + 4 &&& amask) + 4 &&& amask
      ccwAddr := word &&& amask
      ccwCount := second &&& 0xffff
      ccwFlags := a.nextFlags second
      chanByte := buffEmpty } := by
    simp only [Sub.setSecond, hsame₂.chan, Sub.setFirst, hsame₁.chan, hflags, Area.nextFlags]
    rfl
  have hmem : (t₂.setSecond second).io.mem = s.io.mem := hsame₂.mem.trans hsame₁.mem
  have hkeys : SameKeys s.io.key (t₂.setSecond second).io.key := hsame₁.keys.trans hsame₂.keys
  have haddr : b.addr = if b.Ida c then (t₂.setSecond second).io.mem (b.list >>> 2) &&& amask else b.list := by
    have hida : b.Ida c ↔ a.nextFlags second &&& flagIda ≠ 0 ∧ c.feat370 = true := by
      rw [hb, Area.Ida, bic_and (by decide)]
    rw [hmem, if_congr hida rfl rfl, hb]
  obtain ⟨t, ht, hkeeps, hmem'', hstands⟩ := wordsRead_of_can (s := t₂.setSecond second) (b := b)
    ⟨by rw [hchan]; exact Nat.and_lt_two_pow (n := 16) _ (by norm_num), by rw [hchan]; exact hquiet.error,
      by rw [hchan]; exact hquiet.modifier⟩
    (by rw [hchan, hb]) (by rw [hb]; exact hcount) (by rw [hchan, hb]) (by rw [hchan, hb]) (by rw [hchan])
    (by rw [hchan, hb]) haddr (by rw [hchan]; exact fun h => hkeys.canFetch (hlist h))
    (decide (s.chan.ccwFlags &&& flagCc ≠ 0))
  exact ⟨t, ht, ⟨hkeys.trans hkeeps.keys, hkeeps.ccwKey.trans (by rw [hchan]), hkeeps.ccwCmd.trans (by rw [hchan])⟩,
    hmem''.trans hmem, hstands⟩

/-- **The next command of a chain of data** is loaded. -/
theorem loadCcw_chain (hquiet : Quiet s) {a b : Area} (hcaw : s.chan.caw = a.caw) (hflags : s.chan.ccwFlags = a.flags)
    (hcd : a.Chains) (hload : a.load c s.io.mem = some b) (hcan : a.CanLoad c s.io.key s.chan.ccwKey s.io.mem) :
    ∃ t, loadCcw device true s = (t, false) ∧ Keeps s t ∧ t.io.mem = s.io.mem ∧ Stands t b := by
  obtain ⟨halign, halign', -⟩ := Area.load_eq_some hload
  have hcd' : s.chan.ccwFlags &&& flagCd ≠ 0 := by
    rw [hflags]
    exact hcd
  rw [loadCcw, if_pos rfl]
  by_cases htic : s.io.mem (a.caw >>> 2) >>> 24 &&& 0xf = cmdTic
  · have hat : a.commandAt s.io.mem = s.io.mem (a.caw >>> 2) &&& amask := if_pos htic
    obtain ⟨t₁, ht₁, hquiet₁, hkeeps₁, hmem₁, hchan₁⟩ := nextCcw_tic hquiet hcd'
      (by rw [hcaw]; exact halign) (by rw [hcaw]; exact hcan.1) (by rw [hcaw]; exact htic) (nextCcw device none)
    rw [hcaw, ← hat] at hchan₁
    have hcan₁ : a.CanLoad c t₁.io.key t₁.chan.ccwKey t₁.io.mem := by
      rw [hmem₁, hchan₁]
      exact ⟨hkeeps₁.keys.canFetch hcan.1, hkeeps₁.keys.canFetch hcan.2.1, hkeeps₁.keys.canFetch hcan.2.2.1,
        fun b hb hida => hkeeps₁.keys.canFetch (hcan.2.2.2 b hb hida)⟩
    obtain ⟨t, ht, hkeeps, hmem, hstands⟩ := nextCcw_command (s := t₁) (a := a) (b := b) hquiet₁
      (by rw [hchan₁]; exact hcd') (by rw [hchan₁]; exact halign') (by rw [hchan₁, hmem₁]) (by rw [hchan₁, hflags])
      (by rw [hmem₁]; exact hload) hcan₁ none
    exact ⟨t, ht₁.trans ht, hkeeps₁.trans hkeeps, hmem.trans hmem₁, hstands⟩
  · have hat : a.commandAt s.io.mem = a.caw := if_neg htic
    exact nextCcw_command hquiet hcd' (by rw [hcaw]; exact halign) (by rw [hcaw, hat]) hflags hload hcan _

end Chain

end Functions

end Ka10Simh.Ibm360
