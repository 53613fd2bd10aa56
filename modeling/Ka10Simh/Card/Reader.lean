import Ka10Simh.Card.Tables
import Ka10Simh.Lib.Iterate

/-!
The card reader. A file is taken into a buffer, and cards are taken from the buffer, each in one of several formats.

* `Buffer.get`: a byte of the data, or the terminating byte if there is one.
* `parseText`, `parseBin`, `parseCbn`, `parseBcd`, `parseEbcdic`, `parseCard`: one card. There is no result when a byte is read that is not
  there, or a table has no entry.
* `nextCard`: the loop over the cards of a deck.
-/

namespace Ka10Simh.Card

/-! ### Formats and buffers -/

/-- The formats, and the codes of text cards. -/
inductive Mode
  | auto | bin | text | bcd | cbn | ebcdic | octal
  deriving DecidableEq

inductive Charset
  | h026 | h029 | dec29

/-- The flags of a unit. -/
structure Flags where
  mode : Mode
  lower : Bool
  charset : Charset

/-- The columns of a card. -/
abbrev Image := ℕ → ℕ

/-- `CARD_EOF` and `CARD_ERR`. -/
abbrev cardEof : ℕ := 0x1000
abbrev cardErr : ℕ := 0x2000

/-- A card without punches, and a flag in its first column. -/
def blank : Image := fun _ ↦ 0
def mark (flag : ℕ) (image : Image) : Image := Function.update image 0 (image 0 ||| flag)

/-- The data of the buffer, whether the byte after them is the terminating one, and the size of the last card. -/
structure Buffer where
  data : List ℕ
  closed : Bool
  size : ℕ

/-- A byte of the buffer. -/
def Buffer.get (b : Buffer) (i : ℕ) : Option ℕ :=
  if i < b.data.length then b.data[i]? else if i = b.data.length ∧ b.closed = true then some 0 else none

/-- A card, the number of bytes that it takes, and whether it is one. -/
structure Parsed where
  image : Image
  size : ℕ
  ok : Bool

/-! ### Text -/

/-- `toupper` and `tolower`, and a byte as a signed character. -/
def toupper (c : ℤ) : ℤ := if 97 ≤ c ∧ c ≤ 122 then c - 32 else c
def tolower (c : ℕ) : ℕ := if 65 ≤ c ∧ c ≤ 90 then c + 32 else c
def toChar (byte : ℕ) : ℤ := (byte : ℤ).bmod 256

namespace Flags

variable (fl : Flags)

/-- The table for text. -/
def table : List ℕ :=
  match fl.charset with
  | .h026 => asciiToHol026
  | .h029 => asciiToHol029
  | .dec29 => asciiToDec029

/-- The punches for a byte of text. -/
def punches (byte : ℕ) : Option ℕ :=
  let c := if fl.lower = true then toChar byte else toupper (toChar byte)
  if 0 ≤ c then fl.table[c.toNat]? else none

end Flags

/-- The bytes of a text card are converted from `i` on. -/
def textLoop (fl : Flags) : List ℕ → ℕ → ℕ → Image → Option (ℕ × Image)
  | [], _, i, image => some (i, image)
  | c :: rest, col, i, image =>
      if col < 80 then
        if c = 0 ∨ c = 13 then textLoop fl rest col (i + 1) image
        else if c = 9 then textLoop fl rest ((col ||| 7) + 1) (i + 1) image
        else if c = 10 then some (i, image)
        else
          (fl.punches c).bind fun temp ↦
            let image := if temp &&& 0xf000 ≠ 0 then mark cardErr image else image
            textLoop fl rest (col + 1) (i + 1) (Function.update image col (temp &&& 0xfff))
      else some (i, image)

/-- Whether there are only blanks after a `~`, and where they end. -/
def blankLoop : List ℕ → ℕ → ℕ → Bool × ℕ
  | [], _, i => (true, i)
  | c :: rest, col, i =>
      if col < 80 then
        if c = 10 ∨ c = 0 ∨ c = 13 then blankLoop rest 80 (i + 1)
        else if c = 32 then blankLoop rest col (i + 1)
        else if c = 9 then blankLoop rest ((col ||| 7) + 1) (i + 1)
        else (false, i + 1)
      else (true, i)

/-- The digits of a `~raw` card. -/
def rawLoop : List ℕ → ℕ → ℕ → ℕ → Image → ℕ × Image
  | [], _, _, i, image => (i, image)
  | c :: rest, col, j, i, image =>
      if col < 80 then
        if 48 ≤ c ∧ c ≤ 55 then
          let image := Function.update image col ((image col <<< 3 ||| (c - 48)) % 2 ^ 16)
          if j + 1 = 4 then rawLoop rest (col + 1) 0 (i + 1) image else rawLoop rest col (j + 1) (i + 1) image
        else if c = 10 ∨ c = 13 then (i, image)
        else (i, Function.update image 0 cardErr)
      else (i, image)

/-- The characters of a word are compared with the ones of a buffer, in `_cmpcard`. -/
def cmpLoop (b : Buffer) : List ℕ → ℕ → Option Bool
  | [], _ => some true
  | c :: rest, i => (b.get i).bind fun byte ↦ if tolower byte ≠ c then some false else cmpLoop b rest (i + 1)

/-- What a line with text is: a `~` with blanks, `~raw`, one of the cards of one column, or text. -/
inductive Line
  | eof (i : ℕ)
  | raw
  | single (i column : ℕ)
  | plain

/-- The words of the cards of one column, with their sizes and columns. -/
def singles : List (List ℕ × ℕ × ℕ) :=
  [([101, 111, 114], 4, 0o7), ([101, 111, 102], 4, 0o15), ([101, 111, 105], 4, 0o17), ([55, 56, 0], 3, 0o6)]

/-- They are tried one after the other. -/
def trySingles (b : Buffer) : List (List ℕ × ℕ × ℕ) → Option Line
  | [] => some .plain
  | (word, i, column) :: rest =>
      (cmpLoop b word 1).bind fun same ↦ if same = true then some (.single i column) else trySingles b rest

def line (b : Buffer) : Option Line :=
  (b.get 0).bind fun c ↦
    if c ≠ 126 then some .plain
    else if (blankLoop b.data.tail 1 1).1 = true then some (.eof (blankLoop b.data.tail 1 1).2)
    else (cmpLoop b [114, 97, 119] 1).bind fun same ↦ if same = true then some .raw else trySingles b singles

/-- A line feed is taken, if there is one. -/
def lineFeed (closed : Bool) : List ℕ → ℕ → Option ℕ
  | [], i => if closed = true then some i else none
  | c :: _, i => some (if c = 10 then i + 1 else i)

/-- The end of a line: what comes before it is skipped. -/
def endLine (closed : Bool) : List ℕ → ℕ → Option ℕ
  | [], i => if closed = true then some i else none
  | c :: rest, i =>
      if c = 10 then some (i + 1) else if c = 13 then lineFeed closed rest (i + 1) else endLine closed rest (i + 1)

/-- `end_card`. -/
def endCard (b : Buffer) (i : ℕ) (image : Image) : Option Parsed :=
  if i > b.data.length then none else (endLine b.closed (b.data.drop i) i).map fun size ↦ ⟨image, size, true⟩

/-- `MODE_TEXT`. -/
def parseText (fl : Flags) (b : Buffer) : Option Parsed :=
  (line b).bind fun
    | .eof i => endCard b i (mark cardEof blank)
    | .raw => endCard b (rawLoop (b.data.drop 4) 0 0 4 blank).1 (rawLoop (b.data.drop 4) 0 0 4 blank).2
    | .single i column => endCard b i (Function.update blank 0 column)
    | .plain => (textLoop fl b.data 0 0 blank).bind fun t ↦ endCard b t.1 t.2

/-! ### Binary cards -/

/-- The columns of a binary card, with the bits of its odd bytes. -/
def binLoop : List ℕ → ℕ → ℕ → Image → ℕ × Image
  | c₁ :: c₂ :: rest, col, temp, image =>
      if col < 80 then
        binLoop rest (col + 1) (temp ||| c₁ &&& 0xff) (Function.update image col ((c₁ >>> 4 &&& 0xf) ||| (c₂ &&& 0xff) <<< 4))
      else (temp, image)
  | _, _, temp, image => (temp, image)

/-- `MODE_BIN`. -/
def parseBin (b : Buffer) : Parsed :=
  if b.data.length < 160 then ⟨Function.update blank 0 cardErr, b.size, false⟩
  else
    let t := binLoop b.data 0 0 blank
    ⟨if t.1 &&& 0xf ≠ 0 then mark cardErr t.2 else t.2, 160, true⟩

/-! ### Cards with parity -/

lemma parity_lt (byte : ℕ) : byte &&& 0o77 < parityTable.length :=
  (Nat.and_le_right).trans_lt (by decide)

/-- The parity of a byte is odd, or it is even. -/
def parity (byte : ℕ) : ℕ := parityTable.get ⟨byte &&& 0o77, parity_lt byte⟩

/-- A byte begins a record. -/
def Begins (byte : ℕ) : Prop := byte &&& 0x80 ≠ 0

instance (byte : ℕ) : Decidable (Begins byte) := inferInstanceAs (Decidable (_ ≠ _))

/-- The halves of a column of a column binary card, and a column of a BCD card. -/
def upper (col byte : ℕ) (image : Image) : Image :=
  Function.update (if parity byte = byte &&& 0o100 then mark cardErr image else image) col ((byte &&& 0o77) <<< 6)
def lower (col byte : ℕ) (image : Image) : Image :=
  let image := if parity byte = byte &&& 0o100 then mark cardErr image else image
  Function.update image col (image col ||| byte &&& 0o77)
def whole (col byte : ℕ) (image : Image) : Image :=
  Function.update (if parity byte ≠ byte &&& 0o100 then mark cardErr image else image) col (bcdToHol (byte &&& 0o77))

/-- The bytes of a column binary card. The terminating byte is taken for a second half. -/
def cbnLoop (closed : Bool) : List ℕ → ℕ → ℕ → Image → Option (ℕ × ℕ × Image)
  | [], col, i, image => some (i, col, image)
  | [c], col, i, image =>
      if col < 80 ∧ ¬ Begins c then
        if closed = true then some (i + 2, col + 1, lower col 0 (upper col c image)) else none
      else some (i, col, image)
  | c₁ :: c₂ :: rest, col, i, image =>
      if col < 80 ∧ ¬ Begins c₁ then
        if Begins c₂ then some (i + 1, col, upper col c₁ image)
        else cbnLoop closed rest (col + 1) (i + 2) (lower col c₂ (upper col c₁ image))
      else some (i, col, image)

/-- The bytes of a BCD card. -/
def bcdLoop : List ℕ → ℕ → ℕ → Image → ℕ × ℕ × Image
  | [], col, i, image => (i, col, image)
  | c :: rest, col, i, image =>
      if col < 80 ∧ ¬ Begins c then bcdLoop rest (col + 1) (i + 1) (whole col c image) else (i, col, image)

/-- The next record is looked for. Without one, the buffer is left. -/
def skipRecord : List ℕ → ℕ → Option ℕ
  | [], _ => none
  | c :: rest, i => if Begins c then some i else skipRecord rest (i + 1)

/-- A record that is longer than a card. -/
def overlong (mode : Mode) (data : List ℕ) (t : ℕ × ℕ × Image) : Option Parsed :=
  match data.drop t.1 with
  | [] => some ⟨t.2.2, t.1, true⟩
  | c :: rest =>
      if mode ≠ .auto ∧ 80 ≤ t.2.1 ∧ ¬ Begins c then (skipRecord (c :: rest) t.1).map fun size ↦ ⟨mark cardErr t.2.2, size, true⟩
      else some ⟨t.2.2, t.1, true⟩

/-- `MODE_CBN`. The mark of the record is taken away from the first byte. -/
def parseCbn (mode : Mode) (b : Buffer) : Option Parsed :=
  match b.data with
  | [] => (b.get 0).map fun _ ↦ ⟨blank, 0, true⟩
  | c :: rest =>
      if c = 0o217 ∧ (rest = [] ∨ rest.headD 0 &&& 0o200 ≠ 0) then some ⟨mark cardEof blank, 1, true⟩
      else (cbnLoop b.closed ((c &&& 0x7f) :: rest) 0 0 blank).bind (overlong mode ((c &&& 0x7f) :: rest))

/-- `MODE_BCD`. -/
def parseBcd (mode : Mode) (b : Buffer) : Option Parsed :=
  (b.get 0).bind fun c ↦
    (if c = 0o217 then (b.get 1).map fun c' ↦ decide (c' &&& 0o200 ≠ 0) else some false).bind fun tapeMark ↦
      if tapeMark = true then some ⟨mark cardEof blank, 1, true⟩ else overlong mode b.data (bcdLoop b.data 0 0 blank)

/-! ### The other formats -/

set_option maxRecDepth 2000 in
lemma ebcdic_length : ebcdicToHol.length = 256 := rfl

lemma ebcdic_lt (byte : ℕ) : byte &&& 0xff < ebcdicToHol.length :=
  (Nat.and_le_right).trans_lt (ebcdic_length ▸ (show 0xff < 256 by norm_num))

/-- The columns of an EBCDIC card. -/
def ebcdicLoop : List ℕ → ℕ → Image → ℕ × Image
  | [], i, image => (i, image)
  | c :: rest, i, image =>
      if i < 80 then ebcdicLoop rest (i + 1) (Function.update image i (ebcdicToHol.get ⟨c &&& 0xff, ebcdic_lt c⟩)) else (i, image)

/-- `MODE_EBCDIC`. -/
def parseEbcdic (b : Buffer) : Parsed :=
  let t := ebcdicLoop b.data 0 (if b.data.length < 80 then mark cardErr blank else blank)
  ⟨t.2, t.1, true⟩

/-- The bits of every other byte of the first ones. -/
def evenBits : List ℕ → ℕ → ℕ → ℕ × ℕ
  | c :: rest, i, temp =>
      if i < 160 then
        match rest with
        | [] => (i + 2, temp ||| c &&& 0xff)
        | _ :: rest => evenBits rest (i + 2) (temp ||| c &&& 0xff)
      else (i, temp)
  | [], i, temp => (i, temp)

/-- The bytes with even and with odd parity are counted, up to the end of a record. -/
def parityLoop (closed : Bool) : List ℕ → ℕ → ℕ → ℕ → Option (ℕ × ℕ)
  | [], _, even, odd => some (even, odd)
  | c :: rest, i, even, odd =>
      let ch := c &&& 0o177
      let even' := if parity ch = ch &&& 0o100 then even + 1 else even
      let odd' := if parity ch = ch &&& 0o100 then odd else odd + 1
      if i = 79 ∧ even' = 80 ∨ i = 159 ∧ odd' = 160 then
        match rest with
        | [] => if closed = true then some (even', odd') else none
        | c' :: _ =>
            if Begins c' ∨ c' = 13 ∨ c' = 10 ∨ c' ≥ 32 then some (even', odd') else parityLoop closed rest (i + 1) even' odd'
      else parityLoop closed rest (i + 1) even' odd'

/-- The format of a card, of `MODE_AUTO`. -/
def autoMode (b : Buffer) : Option Mode :=
  (b.get 0).bind fun c ↦
    let t := evenBits b.data 0 0
    let mode := if t.2 &&& 0x0f = 0 ∧ t.1 = 160 then Mode.bin else .text
    if Begins c then
      (parityLoop b.closed b.data 0 0 0).map fun n ↦
        if n.1 = 0 ∧ n.2 = 160 then .cbn else if n.2 = 80 ∧ n.1 = 0 then .bcd else mode
    else some mode

/-- `_sim_parse_card`. -/
def parseCard (fl : Flags) (b : Buffer) : Option Parsed :=
  (if fl.mode = .auto then autoMode b else some fl.mode).bind fun
    | .bin => some (parseBin b)
    | .cbn => parseCbn fl.mode b
    | .bcd => parseBcd fl.mode b
    | .ebcdic => some (parseEbcdic b)
    | _ => parseText fl b

/-! ### Decks -/

/-- The buffer, what is left of the file, whether its end has been seen, and the cards. -/
structure Deck where
  buf : Buffer
  file : List ℕ
  eof : Bool
  images : List Image
  ok : Bool

/-- More of the file is read. The data are then not terminated. -/
def slurp (s : Deck) : Deck :=
  if s.buf.data.length < 500 ∧ s.eof = false then
    { s with
      buf := { s.buf with data := s.buf.data ++ s.file.take 8192, closed := s.buf.closed && decide (s.file = []) }
      file := s.file.drop 8192
      eof := decide (s.file.length < 8192) }
  else s

/-- A card is taken from the buffer, and the data after it are moved. There is no result when they are not there. -/
def takeCard (fl : Flags) (s : Deck) : Deck ⊕ Option Deck :=
  match parseCard fl s.buf with
  | none => .inr none
  | some p =>
      if p.size > s.buf.data.length then .inr none
      else
        let t : Deck :=
          { s with
            buf := ⟨s.buf.data.drop p.size, true, p.size⟩, images := s.images ++ [p.image], ok := s.ok && p.ok }
        if t.buf.data ≠ [] ∧ t.ok = true then .inl t
        else .inr (some t)

/-- The loop of `_sim_read_deck`. -/
def nextCard (fl : Flags) (s : Deck) : Deck ⊕ Option Deck := takeCard fl (slurp s)

/-- A deck that is to be read from a file. -/
def openDeck (file : List ℕ) : Deck := ⟨⟨[], true, 0⟩, file, false, [], true⟩

/-- `_sim_read_deck`, with the card for the end of the file after the others. -/
def readDeck (fl : Flags) (eof : Bool) (fuel : ℕ) (file : List ℕ) : Option (Option Deck) :=
  match Iterate.run (nextCard fl) fuel (openDeck file) with
  | .inl _ => none
  | .inr t => some (t.map fun t ↦ if t.ok = true ∧ eof = true then { t with images := t.images ++ [mark cardEof blank] } else t)

end Ka10Simh.Card
