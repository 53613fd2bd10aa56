import Ka10Simh.Lib.Bits
import Ka10Simh.Ibm360.Dat

/-!
Accesses to the storage, of a byte, a half word and a full word.

An address is translated, and the storage key of its block of 2K is compared with the key of the program. What an
access then does is said byte by byte: an operand may be in two blocks that are not next to each other.

* `Access.readFull`, `Access.readHalf`, `Access.readByte`, `Access.writeFull`, `Access.writeHalf`, `Access.writeByte`,
  `Access.testAccess`: the source.
* `Access.Allowed`: an address that can be read or written.
* `byteAt`: a byte of the storage.
* `Access.Wrote`: the bytes of an operand are stored, and nothing else.
-/

namespace Ka10Simh.Ibm360

open Word

/-- `PMASK`. -/
abbrev pMask : ℕ := 0xfff800
/-- `IRC_PROT`, `IRC_SPEC`. -/
abbrev ircProt : ℕ := 4
abbrev ircSpec : ℕ := 6

/-- What `TransAddr` makes of the addresses while an instruction is executed: the real address, or the code of
the exception. A block of 2K is real in one piece. -/
structure Translation where
  trans : ℕ → Except ℕ ℕ
  offset : ∀ va pa, trans va = .ok pa → pa % 2048 = va % 2048
  block : ∀ va va' pa, trans va = .ok pa → va / 2048 % 8192 = va' / 2048 % 8192 →
    trans va' = .ok (pa / 2048 * 2048 + va' % 2048)

/-- What an access depends on, beside the storage: the key of the program, the features, and the control registers
of the program event recording. -/
structure Access where
  map : Translation
  stKey : ℕ
  prot : Bool
  fprot : Bool
  dat : Bool
  stor : Bool
  perEn : Bool
  cregs : ℕ → ℕ

/-- `M`, `key` and `per_code`. -/
structure Store where
  mem : ℕ → BitVec 32
  key : ℕ → ℕ
  perCode : ℕ

/-! ### Parts of an instruction -/

/-- A part of an instruction: it has a result or the code of an exception, and leaves a storage. -/
def Op (α : Type) := Store → Except ℕ α × Store

namespace Op

variable {α β : Type}

/-- `storepsw(OPPSW, irc)`. -/
def fail (irc : ℕ) : Op α := fun s ↦ (.error irc, s)

instance : Monad Op where
  pure a := fun s ↦ (.ok a, s)
  bind x f := fun s ↦
    match x s with
    | (.ok a, s) => f a s
    | (.error e, s) => (.error e, s)

/-- The storage. -/
def get : Op Store := fun s ↦ (.ok s, s)

/-- The storage changed. -/
def modify (f : Store → Store) : Op Unit := fun s ↦ (.ok (), f s)

variable {x : Op α} {f : α → Op β} {s t : Store} {a : α} {b : β} {e : ℕ}

@[simp] lemma pure_apply (a : α) (s : Store) : (pure a : Op α) s = (.ok a, s) := rfl
@[simp] lemma fail_apply (e : ℕ) (s : Store) : (fail e : Op α) s = (.error e, s) := rfl
@[simp] lemma get_bind (f : Store → Op β) (s : Store) : (get >>= f) s = f s s := rfl
@[simp] lemma modify_apply (g : Store → Store) (s : Store) : modify g s = (.ok (), g s) := rfl
@[simp] lemma modify_bind (g : Store → Store) (f : Unit → Op β) (s : Store) : (modify g >>= f) s = f () (g s) := rfl
@[simp] lemma pure_bind' (a : α) (f : α → Op β) (s : Store) : ((pure a : Op α) >>= f) s = f a s := rfl

lemma bind_of_ok (h : x s = (.ok a, t)) : (x >>= f) s = f a t := by
  show (match x s with | (.ok a, s) => f a s | (.error e, s) => (.error e, s)) = f a t
  rw [h]

lemma bind_of_error (h : x s = (.error e, t)) : (x >>= f) s = (.error e, t) := by
  show (match x s with | (.ok a, s) => f a s | (.error e, s) => (.error e, s)) = (.error e, t)
  rw [h]

end Op

/-! ### Words and bytes -/

/-- `(w & ~mask) | (mask & v)`. -/
def merge (w mask v : BitVec 32) : BitVec 32 := w &&& ~~~mask ||| mask &&& v

/-- A byte of the storage. -/
def byteAt (mem : ℕ → BitVec 32) (p : ℕ) : BitVec 8 := (mem (p / 4)).extractLsb' (8 * (3 - p % 4)) 8

namespace Store

variable (s : Store)

/-- `key[pa >> 11] |= bits`. -/
def mark (pa bits : ℕ) : Store := { s with key := Function.update s.key (pa >>> 11) (s.key (pa >>> 11) ||| bits) }

/-- A word stored, and a part of a word. -/
def put (w : ℕ) (v : BitVec 32) : Store := { s with mem := Function.update s.mem w v }
def putPart (w : ℕ) (mask v : BitVec 32) : Store := s.put w (merge (s.mem w) mask v)

end Store

namespace Access

variable (c : Access)

/-! ### The source -/

/-- `TransAddr`. -/
def transAddr (addr : ℕ) : Op ℕ := fun s ↦ (c.map.trans addr, s)

/-- `CheckProtect`. -/
def checkProtect (addr mode : ℕ) : Op Unit := fun s ↦
  if c.stKey ≠ 0 then
    let k := s.key (addr >>> 11)
    if ¬ (c.prot ∨ c.dat) then (.error ircProt, s)
    else if mode = 0 then
      if c.fprot ∨ c.dat then
        if k &&& 8 ≠ 0 ∧ k &&& 0xf0 ≠ c.stKey then (.error ircProt, s) else (.ok (), s)
      else (.ok (), s)
    else if k &&& 0xf0 ≠ c.stKey then (.error ircProt, s)
    else (.ok (), s)
  else (.ok (), s)

/-- The two, which every access begins with. -/
def reach (addr mode : ℕ) : Op ℕ := do
  let pa ← c.transAddr addr
  c.checkProtect pa mode
  return pa

/-- `TestAccess`. -/
def testAccess (addr size mode : ℕ) : Op Unit := do
  let _ ← c.reach addr mode
  if size ≠ 0 ∧ addr &&& pMask ≠ (addr + size) &&& pMask then
    let _ ← c.reach (addr + size) mode

/-- A store is noted when it is in the area that is watched. -/
def watch (addr : ℕ) (s : Store) : Store :=
  if c.perEn ∧ c.cregs 9 &&& 0x20000000 ≠ 0 ∧
      (if c.cregs 10 ≤ c.cregs 11 then addr ≥ c.cregs 10 ∧ addr ≤ c.cregs 11 else addr ≥ c.cregs 11 ∨ addr ≤ c.cregs 10) then
    { s with perCode := s.perCode ||| 0x2000 }
  else s

/-- The second part of an operand that is read: it is `size` bytes further on, if it is in another block. -/
def readOn (addr size pa : ℕ) : Op ℕ :=
  if addr &&& pMask ≠ (addr + size) &&& pMask then do
    let pa2 ← c.reach (addr + size) 0
    Op.modify (·.mark pa2 4)
    return pa2
  else return pa + size

/-- `ReadFull`. -/
def readFull (addr : ℕ) : Op (BitVec 32) := do
  let offset := addr &&& 3
  if offset ≠ 0 ∧ ¬ c.stor then Op.fail ircSpec
  else
    let pa ← c.reach addr 0
    if offset ≠ 0 then
      let pa2 ← c.readOn addr 4 pa
      let s ← Op.get
      Op.modify (·.mark pa 4)
      return s.mem (pa >>> 2) <<< (8 * offset) ||| s.mem (pa2 >>> 2) >>> (8 * (4 - offset))
    else
      let s ← Op.get
      Op.modify (·.mark pa 4)
      return s.mem (pa >>> 2)

/-- `ReadByte`. -/
def readByte (addr : ℕ) : Op (BitVec 32) := do
  let offset := addr &&& 3
  let pa ← c.reach addr 0
  Op.modify (·.mark pa 4)
  let s ← Op.get
  return s.mem (pa >>> 2) >>> (8 * (3 - offset)) &&& 0xff

/-- The sign of a half word is extended. -/
def extend (temp : BitVec 32) : BitVec 32 :=
  let temp := temp &&& 0xffff
  if temp &&& 0x8000 ≠ 0 then temp ||| 0xffff0000 else temp

/-- `ReadHalf`. -/
def readHalf (addr : ℕ) : Op (BitVec 32) := do
  let offset := addr &&& 3
  if offset &&& 1 ≠ 0 ∧ ¬ c.stor then Op.fail ircSpec
  else
    let pa ← c.reach addr 0
    if offset = 3 then
      let pa2 ← c.readOn addr 1 pa
      let s ← Op.get
      Op.modify (·.mark pa 4)
      return extend ((s.mem (pa >>> 2) &&& 0xff) <<< 8 ||| s.mem (pa2 >>> 2) >>> 24 &&& 0xff)
    else
      let s ← Op.get
      Op.modify (·.mark pa 4)
      return extend (s.mem (pa >>> 2) >>> if offset = 0 then 16 else if offset = 1 then 8 else 0)

/-- The second part of an operand that is stored, at `addr2`. -/
def writeOn (addr addr2 pa2 : ℕ) : Op ℕ :=
  if addr &&& pMask ≠ addr2 &&& pMask then do
    let pa2 ← c.reach addr2 1
    Op.modify (c.watch addr2)
    Op.modify (·.mark pa2 6)
    return pa2
  else return pa2

/-- A full word is put into the word `pa`, and a part of it into `pa2`. -/
def putFull (offset pa pa2 : ℕ) (data : BitVec 32) (s : Store) : Store :=
  if offset = 0 then s.put pa data
  else if offset = 1 then (s.putPart pa 0x00ffffff (data >>> 8)).putPart pa2 0xff000000 (data <<< 24)
  else if offset = 2 then (s.putPart pa 0x0000ffff (data >>> 16)).putPart pa2 0xffff0000 (data <<< 16)
  else (s.putPart pa 0x000000ff (data >>> 24)).putPart pa2 0xffffff00 (data <<< 8)

/-- `WriteFull`. -/
def writeFull (addr : ℕ) (data : BitVec 32) : Op Unit := do
  let offset := addr &&& 3
  let addr2 := bic addr 3 + 4
  if offset ≠ 0 ∧ ¬ c.stor then Op.fail ircSpec
  else
    let pa ← c.reach addr 1
    Op.modify (c.watch addr)
    let pa2 ← if offset ≠ 0 then c.writeOn addr addr2 (pa + 4) else pure (pa + 4)
    Op.modify (·.mark pa 6)
    Op.modify (putFull offset (pa >>> 2) (pa2 >>> 2) data)

/-- `WriteByte`. -/
def writeByte (addr : ℕ) (data : BitVec 32) : Op Unit := do
  let pa ← c.reach addr 1
  Op.modify (c.watch addr)
  Op.modify (·.mark pa 6)
  let offset := 8 * (3 - (pa &&& 3))
  Op.modify (·.putPart (pa >>> 2) (0xff <<< offset) ((data &&& 0xff) <<< offset))

/-- `WriteHalf`. -/
def writeHalf (addr : ℕ) (data : BitVec 32) : Op Unit := do
  let offset := addr &&& 3
  if offset &&& 1 ≠ 0 ∧ ¬ c.stor then Op.fail ircSpec
  else
    let pa ← c.reach addr 1
    Op.modify (c.watch addr)
    if offset = 3 then
      Op.modify (c.watch addr)
      let pa2 ← c.writeOn addr (addr + 1) (pa + 1)
      Op.modify (·.mark pa 6)
      let pa := pa >>> 2
      let pa2 := pa2 >>> 2
      Op.modify fun s ↦ (s.putPart pa 0x000000ff (data >>> 8)).putPart pa2 0xff000000 (data <<< 24)
    else
      Op.modify (·.mark pa 6)
      let pa := pa >>> 2
      let data := data &&& 0xffff
      Op.modify fun s ↦
        if offset = 0 then s.putPart pa 0xffff0000 (data <<< 16)
        else if offset = 1 then s.putPart pa 0x00ffff00 (data <<< 8)
        else s.putPart pa 0x0000ffff data

end Access

/-! ### Bytes of words -/

section Bytes

variable {w v mask : BitVec 32} {k : ℕ}

/-- A byte that is stored, and one that is not. -/
lemma extract_merge_in (h : ∀ i < 8, mask.getLsbD (k + i) = true) :
    (merge w mask v).extractLsb' k 8 = v.extractLsb' k 8 := by
  refine BitVec.eq_of_getLsbD_eq fun i hi ↦ ?_
  simp only [merge, BitVec.getLsbD_extractLsb', BitVec.getLsbD_or, BitVec.getLsbD_and, BitVec.getLsbD_not, h i hi]
  simp

lemma extract_merge_out (hk : k + 8 ≤ 32) (h : ∀ i < 8, mask.getLsbD (k + i) = false) :
    (merge w mask v).extractLsb' k 8 = w.extractLsb' k 8 := by
  refine BitVec.eq_of_getLsbD_eq fun i hi ↦ ?_
  simp only [merge, BitVec.getLsbD_extractLsb', BitVec.getLsbD_or, BitVec.getLsbD_and, BitVec.getLsbD_not, h i hi]
  simp [show k + i < 32 by omega]

lemma extract_shiftRight (v : BitVec 32) (k n : ℕ) : (v >>> n).extractLsb' k 8 = v.extractLsb' (n + k) 8 := by
  refine BitVec.eq_of_getLsbD_eq fun i hi ↦ ?_
  simp only [BitVec.getLsbD_extractLsb', BitVec.getLsbD_ushiftRight, Nat.add_assoc]

lemma extract_shiftLeft (v : BitVec 32) {k n : ℕ} (hk : k + 8 ≤ 32) (hn : n ≤ k) :
    (v <<< n).extractLsb' k 8 = v.extractLsb' (k - n) 8 := by
  refine BitVec.eq_of_getLsbD_eq fun i hi ↦ ?_
  simp only [BitVec.getLsbD_extractLsb', BitVec.getLsbD_shiftLeft]
  rw [decide_eq_true (show k + i < 32 by omega), decide_eq_false (show ¬ k + i < n by omega), show k + i - n = k - n + i by lia]
  simp

/-- A mask has the bytes of a word from `lo` on and before `hi`. -/
def Covers (mask : BitVec 32) (lo hi : ℕ) : Prop :=
  ∀ j < 4, ∀ i < 8, mask.getLsbD (8 * (3 - j) + i) = decide (lo ≤ j ∧ j < hi)

instance (mask : BitVec 32) (lo hi : ℕ) : Decidable (Covers mask lo hi) :=
  inferInstanceAs (Decidable (∀ j < 4, ∀ i < 8, _))

variable {s : Store} {n lo hi p : ℕ}

lemma byteAt_put : byteAt (s.put n v).mem p = if p / 4 = n then v.extractLsb' (8 * (3 - p % 4)) 8 else byteAt s.mem p := by
  rw [byteAt, Store.put]
  dsimp only
  rw [Function.update_apply]
  split_ifs
  · rfl
  · rfl

/-- **A part of a word stored**, byte by byte. -/
theorem byteAt_putPart (h : Covers mask lo hi) : byteAt (s.putPart n mask v).mem p =
    if p / 4 = n ∧ lo ≤ p % 4 ∧ p % 4 < hi then v.extractLsb' (8 * (3 - p % 4)) 8 else byteAt s.mem p := by
  have hj : p % 4 < 4 := Nat.mod_lt _ (by norm_num)
  rw [Store.putPart, byteAt_put]
  by_cases hword : p / 4 = n
  · rw [if_pos hword]
    by_cases hin : lo ≤ p % 4 ∧ p % 4 < hi
    · rw [if_pos ⟨hword, hin⟩]
      exact extract_merge_in fun i hi' ↦ by rw [h _ hj i hi', decide_eq_true hin]
    · rw [if_neg (fun hand ↦ hin hand.2), byteAt, hword]
      exact extract_merge_out (by omega) fun i hi' ↦ by rw [h _ hj i hi', decide_eq_false hin]
  · rw [if_neg hword, if_neg (fun hand ↦ hword hand.1)]

end Bytes

end Ka10Simh.Ibm360
