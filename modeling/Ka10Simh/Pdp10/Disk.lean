import Ka10Simh.Lib.Bits
import Ka10Simh.Lib.Image

/-!
Sectors of disk images: `disk_read` and `disk_write` of `kx10_disk.c`.

A sector of 36-bit words is kept in one of three formats: each word in eight bytes, lowest first, or two
words in nine bytes, from the highest byte down (DBD9) or from the lowest up (DLD9), where the fifth
byte has four bits of each word.

* `diskRead`, `diskWrite`: the two functions.
* `layout`: the table of bits at the head of the file.
* `disk_round_trip`: a sector that has been written is read, all other bytes are as they were, and the
  bytes of the sector are those of the table.

The drives ask for sectors of `RP_NUMWD` = 128 words, an even number that leaves room in `conv_buff`.
The offsets are exact: the largest drive has under `2 ^ 31` bytes, so the `int` they are computed in
does not overflow.
-/

namespace Ka10Simh.Pdp10

open Word

/-- `SIMH`, `DBD9` and `DLD9`. -/
inductive DiskFmt
  | simh | dbd9 | dld9
  deriving DecidableEq, Repr

namespace Disk

/-- The bytes of a sector of `wps` words. -/
def sectorBytes (fmt : DiskFmt) (wps : ℕ) : ℕ :=
  match fmt with
  | .simh => wps * 8
  | .dbd9 | .dld9 => wps / 2 * 9

/-! ### Writing -/

/-- A `uint64` as it is stored, lowest byte first. -/
def word64 (w : ℕ) : List UInt8 :=
  (List.range 8).map fun i => UInt8.ofNat (w >>> (8 * i) &&& 0xff)

/-- The nine bytes of a pair of words. -/
def pairDbd9 (t u : ℕ) : List UInt8 :=
  [UInt8.ofNat (t >>> 28 &&& 0xff), UInt8.ofNat (t >>> 20 &&& 0xff), UInt8.ofNat (t >>> 12 &&& 0xff),
    UInt8.ofNat (t >>> 4 &&& 0xff),
    UInt8.ofNat ((t &&& 0xf) <<< 4) ||| UInt8.ofNat (u >>> 32 &&& 0xf),
    UInt8.ofNat (u >>> 24 &&& 0xff), UInt8.ofNat (u >>> 16 &&& 0xff), UInt8.ofNat (u >>> 8 &&& 0xff),
    UInt8.ofNat (u &&& 0xff)]

def pairDld9 (t u : ℕ) : List UInt8 :=
  [UInt8.ofNat (t &&& 0xff), UInt8.ofNat (t >>> 8 &&& 0xff), UInt8.ofNat (t >>> 16 &&& 0xff),
    UInt8.ofNat (t >>> 24 &&& 0xff),
    UInt8.ofNat (t >>> 32 &&& 0xf) ||| UInt8.ofNat (u <<< 4 &&& 0xf0),
    UInt8.ofNat (u >>> 4 &&& 0xff), UInt8.ofNat (u >>> 12 &&& 0xff), UInt8.ofNat (u >>> 20 &&& 0xff),
    UInt8.ofNat (u >>> 28 &&& 0xff)]

/-- The loop of `disk_write` over the pairs of a sector. -/
def packPairs (pair : ℕ → ℕ → List UInt8) : List ℕ → List UInt8
  | t :: u :: ws => pair t u ++ packPairs pair ws
  | _ => []

/-- The bytes of a sector. -/
def pack (fmt : DiskFmt) (buffer : List ℕ) : List UInt8 :=
  match fmt with
  | .simh => buffer.flatMap word64
  | .dbd9 => packPairs pairDbd9 buffer
  | .dld9 => packPairs pairDld9 buffer

/-- `disk_write`. -/
def diskWrite (fmt : DiskFmt) (img : List UInt8) (buffer : List ℕ) (sector wps : ℕ) : List UInt8 :=
  Image.pwrite 0 img (sector * sectorBytes fmt wps) (pack fmt buffer)

/-! ### Reading -/

/-- The number in some bytes, lowest first. -/
def ofBytes : List UInt8 → ℕ
  | [] => 0
  | b :: bs => b.toNat + 256 * ofBytes bs

/-- The complete words of a block. -/
def unword64 : List UInt8 → List ℕ
  | b₀ :: b₁ :: b₂ :: b₃ :: b₄ :: b₅ :: b₆ :: b₇ :: bs =>
      ofBytes [b₀, b₁, b₂, b₃, b₄, b₅, b₆, b₇] :: unword64 bs
  | _ => []

/-- The loops of `disk_read` over the pairs of a sector. -/
def unpackDbd9 : List UInt8 → List ℕ
  | b₀ :: b₁ :: b₂ :: b₃ :: b₄ :: b₅ :: b₆ :: b₇ :: b₈ :: bs =>
      (b₀.toNat <<< 28 ||| b₁.toNat <<< 20 ||| b₂.toNat <<< 12 ||| b₃.toNat <<< 4 ||| b₄.toNat >>> 4)
        :: ((b₄.toNat &&& 0xf) <<< 32 ||| b₅.toNat <<< 24 ||| b₆.toNat <<< 16 ||| b₇.toNat <<< 8
          ||| b₈.toNat)
        :: unpackDbd9 bs
  | _ => []

def unpackDld9 : List UInt8 → List ℕ
  | b₀ :: b₁ :: b₂ :: b₃ :: b₄ :: b₅ :: b₆ :: b₇ :: b₈ :: bs =>
      (b₀.toNat ||| b₁.toNat <<< 8 ||| b₂.toNat <<< 16 ||| b₃.toNat <<< 24
          ||| (b₄.toNat &&& 0xf) <<< 32)
        :: ((b₄.toNat &&& 0xf0) >>> 4 ||| b₅.toNat <<< 4 ||| b₆.toNat <<< 12 ||| b₇.toNat <<< 20
          ||| b₈.toNat <<< 28)
        :: unpackDld9 bs
  | _ => []

/-- Add blanks up to `n`. -/
def fill {α : Type} (blank : α) (n : ℕ) (l : List α) : List α := l ++ List.replicate (n - l.length) blank

/-- `disk_read`. What is missing in the image is zero. -/
def diskRead (fmt : DiskFmt) (img : List UInt8) (sector wps : ℕ) : List ℕ :=
  let block := Image.pread img (sector * sectorBytes fmt wps) (sectorBytes fmt wps)
  match fmt with
  | .simh => fill 0 wps (unword64 block)
  | .dbd9 => unpackDbd9 (fill 0 (sectorBytes fmt wps) block)
  | .dld9 => unpackDld9 (fill 0 (sectorBytes fmt wps) block)

/-! ### The documented layout -/

/-- Four bits of a pair of words, from bit `b` of the word on. -/
structure Nibble where
  second : Bool
  bit : ℕ

/-- Their value. -/
def Nibble.of (n : Nibble) (t u : ℕ) : ℕ := (if n.second then u else t) >>> (32 - n.bit) &&& 0xf

/-- The table at the head of the file: for each of the nine bytes, the two halves of it. -/
def layout : DiskFmt → List (Nibble × Nibble)
  | .simh => []
  | .dbd9 =>
      [(⟨false, 0⟩, ⟨false, 4⟩), (⟨false, 8⟩, ⟨false, 12⟩), (⟨false, 16⟩, ⟨false, 20⟩),
        (⟨false, 24⟩, ⟨false, 28⟩), (⟨false, 32⟩, ⟨true, 0⟩), (⟨true, 4⟩, ⟨true, 8⟩),
        (⟨true, 12⟩, ⟨true, 16⟩), (⟨true, 20⟩, ⟨true, 24⟩), (⟨true, 28⟩, ⟨true, 32⟩)]
  | .dld9 =>
      [(⟨false, 28⟩, ⟨false, 32⟩), (⟨false, 20⟩, ⟨false, 24⟩), (⟨false, 12⟩, ⟨false, 16⟩),
        (⟨false, 4⟩, ⟨false, 8⟩), (⟨true, 32⟩, ⟨false, 0⟩), (⟨true, 24⟩, ⟨true, 28⟩),
        (⟨true, 16⟩, ⟨true, 20⟩), (⟨true, 8⟩, ⟨true, 12⟩), (⟨true, 0⟩, ⟨true, 4⟩)]

/-- The bytes of the table for a pair of words. -/
def documented (fmt : DiskFmt) (t u : ℕ) : List UInt8 :=
  (layout fmt).map fun (h, l) => UInt8.ofNat (h.of t u <<< 4 ||| l.of t u)

/-! ### Pairs of words -/

lemma and_ff (w : ℕ) : w &&& 0xff = w % 256 := Nat.and_two_pow_sub_one_eq_mod w 8

lemma and_f (w : ℕ) : w &&& 0xf = w % 16 := Nat.and_two_pow_sub_one_eq_mod w 4

lemma toNat_low (w : ℕ) : (UInt8.ofNat (w &&& 0xff)).toNat = w % 256 := by
  rw [UInt8.toNat_ofNat', and_ff, Nat.mod_mod]

/-- The byte shared by a pair, with the low bits of `h` above those of `l`. -/
lemma toNat_shared (h l : ℕ) :
    (UInt8.ofNat ((h &&& 0xf) <<< 4) ||| UInt8.ofNat (l &&& 0xf)).toNat = h % 16 * 16 + l % 16 := by
  rw [UInt8.toNat_or, UInt8.toNat_ofNat', UInt8.toNat_ofNat', and_f, and_f, Nat.shiftLeft_eq,
    Nat.mod_eq_of_lt (show h % 16 * 2 ^ 4 < 2 ^ 8 by omega),
    Nat.mod_eq_of_lt (show l % 16 < 2 ^ 8 by omega)]
  exact or_eq_add (i := 4) (Dvd.intro_left (h % 16) rfl) (by omega)

/-- The halves of a byte. -/
lemma high_half {h l : ℕ} (hl : l < 16) : (h * 16 + l) >>> 4 = h := by
  rw [Nat.shiftRight_eq_div_pow]
  lia

lemma low_half {h l : ℕ} (hl : l < 16) : (h * 16 + l) &&& 0xf = l := by
  rw [and_f]
  omega

/-- The `n` bits of a word from bit `k` on, below those above them. -/
lemma split_bits (w k n : ℕ) : w >>> k % 2 ^ n + 2 ^ n * (w >>> (k + n)) = w >>> k := by
  rw [Nat.shiftRight_add, Nat.shiftRight_eq_div_pow (w >>> k), Nat.mod_add_div]

/-- The same at their place in the word. -/
lemma place_bits (w k n x : ℕ) :
    w >>> (k + n) * 2 ^ (k + n) + (w >>> k % 2 ^ n * 2 ^ k + x) = w >>> k * 2 ^ k + x := by
  rw [← Nat.add_assoc, pow_add, Nat.mul_comm (2 ^ k), ← Nat.mul_assoc, ← Nat.add_mul, Nat.mul_comm _ (2 ^ n),
    Nat.add_comm (2 ^ n * _), split_bits]

/-- The bits of a word below `k`, with the next `n` of them. -/
lemma low_bits (w k n : ℕ) : w % 2 ^ k + w >>> k % 2 ^ n * 2 ^ k = w % 2 ^ (k + n) := by
  rw [pow_add, Nat.mod_mul, Nat.shiftRight_eq_div_pow, Nat.mul_comm]

/-- The bytes of a word put together, from the highest down. -/
lemma join_high {a b c d e : ℕ} (hb : b < 256) (hc : c < 256) (hd : d < 256) (he : e < 16) :
    a <<< 28 ||| b <<< 20 ||| c <<< 12 ||| d <<< 4 ||| e
      = a * 2 ^ 28 + (b * 2 ^ 20 + (c * 2 ^ 12 + (d * 2 ^ 4 + e))) := by
  rw [Nat.or_assoc, Nat.or_assoc, Nat.or_assoc, shiftLeft_or_eq (show e < 2 ^ 4 from he),
    shiftLeft_or_eq (show d * 2 ^ 4 + e < 2 ^ 12 by omega),
    shiftLeft_or_eq (show c * 2 ^ 12 + (d * 2 ^ 4 + e) < 2 ^ 20 by omega),
    shiftLeft_or_eq (show b * 2 ^ 20 + (c * 2 ^ 12 + (d * 2 ^ 4 + e)) < 2 ^ 28 by omega)]

lemma join_second {a b c d e : ℕ} (hb : b < 256) (hc : c < 256) (hd : d < 256) (he : e < 256) :
    a <<< 32 ||| b <<< 24 ||| c <<< 16 ||| d <<< 8 ||| e
      = a * 2 ^ 32 + (b * 2 ^ 24 + (c * 2 ^ 16 + (d * 2 ^ 8 + e))) := by
  rw [Nat.or_assoc, Nat.or_assoc, Nat.or_assoc, shiftLeft_or_eq (show e < 2 ^ 8 from he),
    shiftLeft_or_eq (show d * 2 ^ 8 + e < 2 ^ 16 by omega),
    shiftLeft_or_eq (show c * 2 ^ 16 + (d * 2 ^ 8 + e) < 2 ^ 24 by omega),
    shiftLeft_or_eq (show b * 2 ^ 24 + (c * 2 ^ 16 + (d * 2 ^ 8 + e)) < 2 ^ 32 by omega)]

/-- The same from the lowest up. -/
lemma join_low {a b c d e : ℕ} (ha : a < 256) (hb : b < 256) (hc : c < 256) (hd : d < 256) :
    a ||| b <<< 8 ||| c <<< 16 ||| d <<< 24 ||| e <<< 32
      = a + b * 2 ^ 8 + c * 2 ^ 16 + d * 2 ^ 24 + e * 2 ^ 32 := by
  rw [or_shiftLeft_eq (show a < 2 ^ 8 by omega),
    or_shiftLeft_eq (show a + b * 2 ^ 8 < 2 ^ 16 by omega),
    or_shiftLeft_eq (show a + b * 2 ^ 8 + c * 2 ^ 16 < 2 ^ 24 by omega),
    or_shiftLeft_eq (show a + b * 2 ^ 8 + c * 2 ^ 16 + d * 2 ^ 24 < 2 ^ 32 by lia)]

lemma join_low_second {a b c d e : ℕ} (ha : a < 16) (hb : b < 256) (hc : c < 256) (hd : d < 256) :
    a ||| b <<< 4 ||| c <<< 12 ||| d <<< 20 ||| e <<< 28
      = a + b * 2 ^ 4 + c * 2 ^ 12 + d * 2 ^ 20 + e * 2 ^ 28 := by
  rw [or_shiftLeft_eq (show a < 2 ^ 4 by omega),
    or_shiftLeft_eq (show a + b * 2 ^ 4 < 2 ^ 12 by omega),
    or_shiftLeft_eq (show a + b * 2 ^ 4 + c * 2 ^ 12 < 2 ^ 20 by omega),
    or_shiftLeft_eq (show a + b * 2 ^ 4 + c * 2 ^ 12 + d * 2 ^ 20 < 2 ^ 28 by lia)]

lemma unpackDbd9_pair {t u : ℕ} (ht : t < 2 ^ 36) (hu : u < 2 ^ 36) (bs : List UInt8) :
    unpackDbd9 (pairDbd9 t u ++ bs) = t :: u :: unpackDbd9 bs := by
  simp only [pairDbd9, List.cons_append, List.nil_append, unpackDbd9, toNat_low,
    toNat_shared, high_half (Nat.mod_lt _ (by norm_num : 16 > 0)),
    low_half (Nat.mod_lt _ (by norm_num : 16 > 0))]
  have htop : t >>> 28 % 256 = t >>> 28 := Nat.mod_eq_of_lt (by rw [Nat.shiftRight_eq_div_pow]; omega)
  have htop' : u >>> 32 % 16 = u >>> 32 := Nat.mod_eq_of_lt (by rw [Nat.shiftRight_eq_div_pow]; omega)
  rw [join_high (by omega) (by omega) (by omega) (by omega),
    join_second (by omega) (by omega) (by omega) (by omega), htop, htop']
  refine List.cons_eq_cons.mpr ⟨?_, List.cons_eq_cons.mpr ⟨?_, rfl⟩⟩
  · rw [show 256 = 2 ^ 8 from rfl, place_bits t 20 8, place_bits t 12 8, place_bits t 4 8, Nat.shiftRight_eq_div_pow]
    exact Nat.div_add_mod' t 16
  · rw [show 256 = 2 ^ 8 from rfl, place_bits u 24 8, place_bits u 16 8, place_bits u 8 8, Nat.shiftRight_eq_div_pow]
    exact Nat.div_add_mod' u 256

/-- The bytes of the second word of a pair, shifted into the shared byte. -/
lemma shift_nibble (w : ℕ) : w <<< 4 &&& 0xf0 = (w &&& 0xf) <<< 4 :=
  (Nat.shiftLeft_and_distrib (a := w) (b := 0xf) (i := 4)).symm

lemma high_bits {h l : ℕ} (hl : l < 16) (hh : h < 16) : ((h * 16 + l) &&& 0xf0) >>> 4 = h := by
  rw [Nat.shiftRight_and_distrib, high_half hl]
  exact (and_f h).trans (Nat.mod_eq_of_lt hh)

lemma unpackDld9_pair {t u : ℕ} (ht : t < 2 ^ 36) (hu : u < 2 ^ 36) (bs : List UInt8) :
    unpackDld9 (pairDld9 t u ++ bs) = t :: u :: unpackDld9 bs := by
  have hshared := toNat_shared u (t >>> 32)
  rw [UInt8.or_comm] at hshared
  simp only [pairDld9, List.cons_append, List.nil_append, unpackDld9, toNat_low,
    shift_nibble, hshared,
    low_half (Nat.mod_lt _ (by norm_num : 16 > 0)),
    high_bits (Nat.mod_lt _ (by norm_num : 16 > 0)) (Nat.mod_lt _ (by norm_num : 16 > 0))]
  rw [join_low (by omega) (by omega) (by omega) (by omega),
    join_low_second (by omega) (by omega) (by omega) (by omega)]
  refine List.cons_eq_cons.mpr ⟨?_, List.cons_eq_cons.mpr ⟨?_, rfl⟩⟩
  · refine Eq.trans ?_ (Nat.mod_eq_of_lt ht)
    rw [show 256 = 2 ^ 8 from rfl, low_bits t 8 8, low_bits t 16 8, low_bits t 24 8]
    exact low_bits t 32 4
  · refine Eq.trans ?_ (Nat.mod_eq_of_lt hu)
    have hnibble : u % 16 + u >>> 4 % 2 ^ 8 * 2 ^ 4 = u % 2 ^ 12 := low_bits u 4 8
    rw [show 256 = 2 ^ 8 from rfl, hnibble, low_bits u 12 8, low_bits u 20 8]
    exact low_bits u 28 8

/-! ### Sectors -/

lemma packPairs_length {pair : ℕ → ℕ → List UInt8} (hpair : ∀ t u, (pair t u).length = 9) :
    ∀ ws : List ℕ, (packPairs pair ws).length = ws.length / 2 * 9
  | [] => rfl
  | [_] => by simp [packPairs]
  | t :: u :: ws => by
      rw [packPairs, List.length_append, hpair, packPairs_length hpair ws, List.length_cons,
        List.length_cons]
      lia

lemma length_word64 (w : ℕ) : (word64 w).length = 8 := rfl

lemma pack_length (fmt : DiskFmt) (ws : List ℕ) :
    (pack fmt ws).length = sectorBytes fmt ws.length := by
  cases fmt with
  | simh => simp [pack, sectorBytes, length_word64]
  | dbd9 => exact packPairs_length (fun _ _ => rfl) ws
  | dld9 => exact packPairs_length (fun _ _ => rfl) ws

lemma unpackPairs {pair : ℕ → ℕ → List UInt8} {unpack : List UInt8 → List ℕ} (hnil : unpack [] = [])
    (hpair : ∀ t u bs, t < 2 ^ 36 → u < 2 ^ 36 → unpack (pair t u ++ bs) = t :: u :: unpack bs) :
    ∀ ws : List ℕ, ws.length % 2 = 0 → (∀ w ∈ ws, w < 2 ^ 36) → unpack (packPairs pair ws) = ws
  | [], _, _ => hnil
  | [_], heven, _ => by simp at heven
  | t :: u :: ws, heven, hws => by
      rw [packPairs, hpair t u _ (hws t (by simp)) (hws u (by simp))]
      rw [unpackPairs hnil hpair ws (by simp at heven ⊢; omega) fun w hw => hws w (by simp [hw])]

lemma unword64_word64 {w : ℕ} (hw : w < 2 ^ 64) (bs : List UInt8) :
    unword64 (word64 w ++ bs) = w :: unword64 bs := by
  have hbytes : word64 w = [UInt8.ofNat (w &&& 0xff), UInt8.ofNat (w >>> 8 &&& 0xff),
      UInt8.ofNat (w >>> 16 &&& 0xff), UInt8.ofNat (w >>> 24 &&& 0xff), UInt8.ofNat (w >>> 32 &&& 0xff),
      UInt8.ofNat (w >>> 40 &&& 0xff), UInt8.ofNat (w >>> 48 &&& 0xff),
      UInt8.ofNat (w >>> 56 &&& 0xff)] := rfl
  rw [hbytes]
  simp only [List.cons_append, List.nil_append, unword64, ofBytes, toNat_low]
  have htop : w >>> 56 % 256 = w >>> 56 := Nat.mod_eq_of_lt (by rw [Nat.shiftRight_eq_div_pow]; omega)
  refine List.cons_eq_cons.mpr ⟨?_, rfl⟩
  rw [Nat.mul_zero, Nat.add_zero, htop, show 256 = 2 ^ 8 from rfl, split_bits w 48 8, split_bits w 40 8,
    split_bits w 32 8, split_bits w 24 8, split_bits w 16 8, split_bits w 8 8]
  exact split_bits w 0 8

lemma unword64_flatMap : ∀ ws : List ℕ, (∀ w ∈ ws, w < 2 ^ 64) → unword64 (ws.flatMap word64) = ws
  | [], _ => rfl
  | w :: ws, hws => by
      rw [List.flatMap_cons, unword64_word64 (hws w (by simp)),
        unword64_flatMap ws fun w hw => hws w (by simp [hw])]

lemma fill_of_length {α : Type} (blank : α) {n : ℕ} {l : List α} (h : l.length = n) :
    fill blank n l = l := by
  rw [fill, h, Nat.sub_self, List.replicate_zero, List.append_nil]

/-- A sector is read as it has been packed. -/
lemma diskRead_diskWrite (fmt : DiskFmt) (img : List UInt8) {ws : List ℕ} (sector : ℕ)
    (hws : ∀ w ∈ ws, w < 2 ^ 36) (heven : ws.length % 2 = 0) :
    diskRead fmt (diskWrite fmt img ws sector ws.length) sector ws.length = ws := by
  have hlen := pack_length fmt ws
  have hblock : Image.pread (diskWrite fmt img ws sector ws.length)
      (sector * sectorBytes fmt ws.length) (sectorBytes fmt ws.length) = pack fmt ws := by
    rw [diskWrite, ← hlen]
    exact Image.pread_pwrite 0 img _ _
  cases fmt with
  | simh =>
      have hwords : unword64 (pack .simh ws) = ws :=
        unword64_flatMap ws fun w hw => (hws w hw).trans (by norm_num)
      simp only [diskRead, hblock, hwords, fill_of_length 0 rfl]
  | dbd9 =>
      simp only [diskRead, hblock, fill_of_length 0 hlen]
      exact unpackPairs rfl (fun t u bs ht hu => unpackDbd9_pair ht hu bs) ws heven hws
  | dld9 =>
      simp only [diskRead, hblock, fill_of_length 0 hlen]
      exact unpackPairs rfl (fun t u bs ht hu => unpackDld9_pair ht hu bs) ws heven hws

/-! ### The layout -/

/-- The nine bytes of a pair, as the source writes them. -/
def pairBytes : DiskFmt → ℕ → ℕ → List UInt8
  | .simh => fun _ _ => []
  | .dbd9 => pairDbd9
  | .dld9 => pairDld9

/-- A byte is its two halves. -/
lemma low_byte_halves (w : ℕ) : w &&& 0xff = (w >>> 4 &&& 0xf) <<< 4 ||| (w &&& 0xf) := by
  rw [and_f, and_f, and_ff, shiftLeft_or_eq (show w % 16 < 2 ^ 4 by omega),
    Nat.shiftRight_eq_div_pow w 4]
  lia

/-- **The layout of a pair** is that of the table. -/
theorem pairBytes_documented {fmt : DiskFmt} (hfmt : fmt ≠ .simh) (t u : ℕ) :
    pairBytes fmt t u = documented fmt t u := by
  cases fmt with
  | simh => exact absurd rfl hfmt
  | dbd9 =>
      simp only [pairBytes, pairDbd9, documented, layout, Nibble.of, List.map_cons, List.map_nil,
        low_byte_halves, ← UInt8.ofNat_or]
      rfl
  | dld9 =>
      simp only [pairBytes, pairDld9, documented, layout, Nibble.of, List.map_cons, List.map_nil,
        low_byte_halves, ← UInt8.ofNat_or, shift_nibble,
        Nat.or_comm (t >>> 32 &&& 0xf)]
      rfl

/-- The pair `p` of a sector is where the sector has it. -/
lemma packPairs_part {pair : ℕ → ℕ → List UInt8} (hpair : ∀ t u, (pair t u).length = 9) :
    ∀ (ws : List ℕ) (p : ℕ) {t u : ℕ}, ws[2 * p]? = some t → ws[2 * p + 1]? = some u →
      ((packPairs pair ws).drop (9 * p)).take 9 = pair t u
  | [], _, _, _, h, _ => by simp at h
  | [_], p, _, _, _, h => by simp at h
  | a :: b :: ws, 0, t, u, ht, hu => by
      cases ht
      cases hu
      rw [packPairs, Nat.mul_zero, List.drop_zero]
      exact List.take_left' (hpair _ _)
  | a :: b :: ws, p + 1, t, u, ht, hu => by
      have hdrop : (packPairs pair (a :: b :: ws)).drop (9 * (p + 1))
          = (packPairs pair ws).drop (9 * p) := by
        rw [packPairs, show 9 * (p + 1) = 9 + 9 * p by ring, ← List.drop_drop,
          List.drop_left' (hpair a b)]
      rw [hdrop]
      exact packPairs_part hpair ws p (by simpa [Nat.mul_add] using ht)
        (by simpa [Nat.mul_add, Nat.add_right_comm] using hu)

/-- The word `p` of a sector of 64-bit words. -/
lemma flatMap_word64_part : ∀ (ws : List ℕ) (p : ℕ) {w : ℕ}, ws[p]? = some w →
    ((ws.flatMap word64).drop (8 * p)).take 8 = word64 w
  | [], _, _, h => by simp at h
  | a :: ws, 0, w, h => by
      cases h
      rw [List.flatMap_cons, Nat.mul_zero, List.drop_zero]
      exact List.take_left' (length_word64 _)
  | a :: ws, p + 1, w, h => by
      have hdrop : ((a :: ws).flatMap word64).drop (8 * (p + 1))
          = (ws.flatMap word64).drop (8 * p) := by
        rw [List.flatMap_cons, show 8 * (p + 1) = 8 + 8 * p by ring, ← List.drop_drop,
          List.drop_left' (length_word64 a)]
      rw [hdrop]
      exact flatMap_word64_part ws p (by simpa using h)

/-- The bytes beside a sector. -/
lemma cell_diskWrite (fmt : DiskFmt) (img : List UInt8) (ws : List ℕ) {sector k : ℕ}
    (hk : k / sectorBytes fmt ws.length ≠ sector) :
    Image.cell 0 (diskWrite fmt img ws sector ws.length) k = Image.cell 0 img k := by
  refine Image.cell_pwrite 0 img _ _ ?_
  rw [pack_length]
  rcases Nat.eq_zero_or_pos (sectorBytes fmt ws.length) with hzero | hpos
  · exact .inr (by simp [hzero])
  · rcases Nat.lt_or_gt_of_ne hk with hlow | hhigh
    · exact .inl ((Nat.div_lt_iff_lt_mul hpos).mp hlow)
    · have hsucc := (Nat.le_div_iff_mul_le hpos).mp hhigh
      exact .inr (by rwa [Nat.succ_mul] at hsucc)

/-- The bytes of a pair of words in the image. -/
lemma pread_pair {fmt : DiskFmt} (hfmt : fmt ≠ .simh) (img : List UInt8) {ws : List ℕ} (sector : ℕ)
    {p t u : ℕ} (ht : ws[2 * p]? = some t) (hu : ws[2 * p + 1]? = some u) :
    Image.pread (diskWrite fmt img ws sector ws.length)
      (sector * sectorBytes fmt ws.length + 9 * p) 9 = documented fmt t u := by
  have hp : 2 * p + 1 < ws.length := (List.getElem?_eq_some_iff.mp hu).1
  have hin : 9 * p + 9 ≤ (pack fmt ws).length := by
    rw [pack_length]
    cases fmt with
    | simh => exact absurd rfl hfmt
    | dbd9 | dld9 => simp only [sectorBytes]; lia
  rw [diskWrite, Image.pread_pwrite_part 0 img _ _ hin, ← pairBytes_documented hfmt]
  cases fmt with
  | simh => exact absurd rfl hfmt
  | dbd9 | dld9 => exact packPairs_part (fun _ _ => rfl) ws p ht hu

/-- The bytes of a word in an image of 64-bit words. -/
lemma pread_word (img : List UInt8) {ws : List ℕ} (sector : ℕ) {p w : ℕ} (hw : ws[p]? = some w) :
    Image.pread (diskWrite .simh img ws sector ws.length)
      (sector * sectorBytes .simh ws.length + 8 * p) 8 = word64 w := by
  have hp : p < ws.length := (List.getElem?_eq_some_iff.mp hw).1
  have hin : 8 * p + 8 ≤ (pack .simh ws).length := by
    rw [pack_length]
    simp only [sectorBytes]
    omega
  rw [diskWrite, Image.pread_pwrite_part 0 img _ _ hin]
  exact flatMap_word64_part ws p hw

end Disk

open Disk

/-- **A sector of an image**: for every format, image, sector number and sector of 36-bit words, in
pairs, a sector that has been written is read as it was, the image keeps all bytes of the other
sectors, and the bytes of the sector are those of the table at the head of the file. -/
theorem disk_round_trip (fmt : DiskFmt) (img : List UInt8) (sector : ℕ) {ws : List ℕ}
    (hws : ∀ w ∈ ws, w < 2 ^ 36) (heven : ws.length % 2 = 0) :
    diskRead fmt (diskWrite fmt img ws sector ws.length) sector ws.length = ws ∧
      (∀ k, k / sectorBytes fmt ws.length ≠ sector →
        Image.cell 0 (diskWrite fmt img ws sector ws.length) k = Image.cell 0 img k) ∧
      (diskWrite fmt img ws sector ws.length).length
        = max img.length ((sector + 1) * sectorBytes fmt ws.length) ∧
      (fmt = .simh → ∀ p w, ws[p]? = some w →
        Image.pread (diskWrite fmt img ws sector ws.length)
          (sector * sectorBytes fmt ws.length + 8 * p) 8 = word64 w) ∧
      (fmt ≠ .simh → ∀ p t u, ws[2 * p]? = some t → ws[2 * p + 1]? = some u →
        Image.pread (diskWrite fmt img ws sector ws.length)
          (sector * sectorBytes fmt ws.length + 9 * p) 9 = documented fmt t u) := by
  refine ⟨diskRead_diskWrite fmt img sector hws heven, fun k hk => cell_diskWrite fmt img ws hk, ?_,
    ?_, fun hfmt p t u ht hu => pread_pair hfmt img sector ht hu⟩
  · rw [diskWrite, Image.length_pwrite, pack_length, Nat.succ_mul]
  · rintro rfl p w hw
    exact pread_word img sector hw

/-- A pair of words at the end of an image of one sector. -/
theorem disk_round_trip_pair :
    diskRead .dld9 (diskWrite .dld9 [1, 2, 3] [0o123456765432, 0o765432101234] 1 2) 1 2
      = [0o123456765432, 0o765432101234] :=
  (disk_round_trip .dld9 [1, 2, 3] 1 (by decide) (by decide)).1

end Ka10Simh.Pdp10
