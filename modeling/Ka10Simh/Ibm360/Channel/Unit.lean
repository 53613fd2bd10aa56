import Ka10Simh.Ibm360.Dat

/-!
The channels of the IBM 360, with what they look at.

* `ChanUnit`, `Channels`: the channels and the storage, as they are set up.
* `Place`, `Look`: what is looked at, and when it is inside.
* `findDevice`, `findSubchan`: the entries of a device, with the looks.
-/

namespace Ka10Simh.Ibm360

/-- `MAX_CHAN`, `NO_DEV`. -/
abbrev maxChan : ℕ := 12
abbrev noDev : ℕ := 0xffff
/-- The number of entries of `chan_unit` and of `key`. -/
abbrev chanUnits : ℕ := 13
abbrev keys : ℕ := 8192

/-- `UNIT_SEL`, `UNIT_MUX`, `UNIT_BMUX`. -/
inductive ChanType
  | sel
  | mux
  | bmux
  deriving DecidableEq

/-- An entry of `chan_unit`; `subs` is the number of subchannels it has been given. -/
structure ChanUnit where
  disabled : Bool
  ctype : ChanType
  subs : ℕ
  subs_ge : 32 ≤ subs
  subs_le : subs ≤ 256

/-- `schans`: the number of subchannels there is room for. -/
def ChanUnit.schans (u : ChanUnit) : ℕ :=
  match u.ctype with
  | .sel => 1
  | .mux => u.subs + 1
  | .bmux => 32

/-- The channels, the size of the storage and the features. The entry after the last channel is disabled. A device
is attached when it has both `dibp` and `unit`. -/
structure Channels where
  units : ℕ → ChanUnit
  last : (units maxChan).disabled = true
  memsize : ℕ
  memsize_le : memsize ≤ 2 ^ 24
  memsize_dvd : 4 ∣ memsize
  feat370 : Bool
  prot : Bool
  attached : ℕ → Bool
  hasStartIo : ℕ → Bool
  hasHaltIo : ℕ → Bool

/-- 128 subchannels, and 64K of storage, are within the bounds. -/
lemma subs_ge_half : 32 ≤ 128 := by norm_num

lemma subs_le_half : 128 ≤ 256 := by norm_num

lemma memsize_le_64k : 65536 ≤ 2 ^ 24 := by norm_num

lemma memsize_dvd_64k : 4 ∣ 65536 := by norm_num

variable (c : Channels)

/-! ### Looks -/

/-- What is looked at: an entry of `chan_unit`, of `dev_tab` and of `chan_ctl`, and the storage at an address, with
the entries of `M` and of `key`; `pchk` says that a program check has been stored. -/
inductive Place where
  | unit (chan : ℕ)
  | device (chan i : ℕ)
  | subchan (chan i : ℕ)
  | storage (addr : ℕ) (words keys : List ℕ) (pchk : Bool)
  deriving DecidableEq

/-- It is inside, and an address beyond the storage has a program check. -/
def Place.Right : Place → Prop
  | .unit chan => chan < chanUnits
  | .device _ i => i < 256
  | .subchan chan i => i < (c.units chan).schans
  | .storage addr words ks pchk =>
      (∀ w ∈ words, w < c.memsize / 4) ∧ (∀ k ∈ ks, k < keys) ∧ (c.memsize ≤ addr → pchk = true)

/-- An address fits when it is in the storage or its low bits are greater than the size. -/
def Fits (addr : ℕ) : Prop := addr < c.memsize ∨ c.memsize < addr &&& amask

instance (addr : ℕ) : Decidable (Fits c addr) := inferInstanceAs (Decidable (_ ∨ _))

def Place.Fits : Place → Prop
  | .storage addr _ _ _ => Ibm360.Fits c addr
  | _ => True

/-- A look, which is right when its address fits. -/
structure Look where
  access : Place
  right_iff : access.Right c ↔ access.Fits c

/-! ### Finding devices -/

namespace Look

variable {c}

/-- The entry of `chan_unit` for a channel that is not too high. -/
def ofUnit {chan : ℕ} (h : ¬ chan > maxChan) : Look c where
  access := .unit chan
  right_iff := iff_of_true (Nat.lt_succ_of_le (Nat.le_of_not_gt h)) trivial

/-- The entry of `dev_tab`. -/
def ofDevice (chan addr : ℕ) : Look c where
  access := .device chan (addr &&& 0xff)
  right_iff := iff_of_true (show addr &&& 0xff < 256 from Nat.and_lt_two_pow (n := 8) addr (by norm_num)) trivial

/-- An entry of `chan_ctl`. -/
def ofSubchan {chan i : ℕ} (h : i < (c.units chan).schans) : Look c where
  access := .subchan chan i
  right_iff := iff_of_true h trivial

end Look

/-- `find_device`: the address of the entry, with the looks. -/
def findDevice (addr : ℕ) : Option ℕ × List (Look c) :=
  let chan := addr >>> 8 &&& 0xf
  if h : chan > maxChan then (none, [])
  else if (c.units chan).disabled = true then (none, [.ofUnit h])
  else (some (chan <<< 8 ||| addr &&& 0xff), [.ofDevice chan addr, .ofUnit h])

lemma schans_pos (u : ChanUnit) : 0 < u.schans := by
  rw [ChanUnit.schans]
  split <;> omega

/-- The subchannel of a device of a multiplexer channel. -/
def muxSubchan (u : ChanUnit) (device : ℕ) : Option ℕ :=
  if device ≥ u.schans then if device ≤ 128 then none else some (device >>> 4 &&& 7) else some device

lemma muxSubchan_lt {u : ChanUnit} (h : u.ctype = .mux) {device i : ℕ} (hi : muxSubchan u device = some i) :
    i < u.schans := by
  have hsubs := u.subs_ge
  have hlow : device >>> 4 &&& 7 < 2 ^ 3 := Nat.and_lt_two_pow (n := 3) _ (by norm_num)
  have hschans : u.schans = u.subs + 1 := by rw [ChanUnit.schans, h]
  rw [muxSubchan] at hi
  split_ifs at hi with hge
  · obtain rfl := Option.some.inj hi
    omega
  · obtain rfl := Option.some.inj hi
    omega

/-- The subchannel that is found in a channel: the 370 may run a block multiplexer with 32 of them. -/
def subchanOf (blockMux : Bool) (u : ChanUnit) (device : ℕ) : Option ℕ :=
  match u.ctype with
  | .sel => some 0
  | .bmux => if c.feat370 = true ∧ blockMux = true then some (device >>> 3 &&& 0x1f) else some 0
  | .mux => muxSubchan u device

lemma subchanOf_lt {blockMux : Bool} {u : ChanUnit} {device i : ℕ} (hi : subchanOf c blockMux u device = some i) :
    i < u.schans := by
  have hpos := schans_pos u
  rw [subchanOf] at hi
  cases htype : u.ctype with
  | sel =>
      rw [htype] at hi
      obtain rfl := Option.some.inj hi
      exact hpos
  | mux =>
      rw [htype] at hi
      exact muxSubchan_lt htype hi
  | bmux =>
      rw [htype] at hi
      have hlow : device >>> 3 &&& 0x1f < 2 ^ 5 := Nat.and_lt_two_pow (n := 5) _ (by norm_num)
      have hschans : u.schans = 32 := by rw [ChanUnit.schans, htype]
      simp only at hi
      split_ifs at hi
      · obtain rfl := Option.some.inj hi
        omega
      · obtain rfl := Option.some.inj hi
        exact hpos

/-- `find_subchan`: the channel and the subchannel, with the looks. -/
def findSubchan (blockMux : Bool) (device : ℕ) : Option (ℕ × ℕ) × List (Look c) :=
  let chan := device >>> 8 &&& 0xf
  if h : chan > maxChan then (none, [])
  else if (c.units chan).disabled = true then (none, [.ofUnit h])
  else
    match hi : subchanOf c blockMux (c.units chan) (device &&& 0xff) with
    | none => (none, [.ofUnit h])
    | some i => (some (chan, i), [.ofSubchan (subchanOf_lt c hi), .ofUnit h])

end Ka10Simh.Ibm360
