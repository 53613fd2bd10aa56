import Mathlib.Tactic

/-!
The tables of the card routines: from characters to punches, and the parity of six bits.

* `asciiToHol026`, `asciiToHol029`, `asciiToDec029`, `ebcdicToHol`: the columns for characters.
* `bcdToHol`: the column for a code of six bits.
-/

namespace Ka10Simh.Card

/-- `ascii_to_hol_026`. -/
def asciiToHol026 : List ℕ :=
  [0xf000, 0xf000, 0xf000, 0xf000, 0xf000, 0xf000, 0xf000, 0xf000, 0xf000, 0xf000, 0xf000, 0xf000, 0xf000, 0xf000, 0xf000, 0xf000,
   0xf000, 0xf000, 0xf000, 0xf000, 0xf000, 0xf000, 0xf000, 0xf000, 0xf000, 0xf000, 0xf000, 0xf000, 0xf000, 0xf000, 0xf000, 0xf000,
   0x0, 0x600, 0x6, 0x282, 0x442, 0x222, 0xa00, 0x22, 0x222, 0x822, 0x422, 0x800, 0x242, 0x400, 0x842, 0x300,
   0x200, 0x100, 0x80, 0x40, 0x20, 0x10, 0x8, 0x4, 0x2, 0x1, 0x12, 0x40a, 0x80a, 0x42, 0xa, 0x882,
   0x22, 0x900, 0x880, 0x840, 0x820, 0x810, 0x808, 0x804, 0x802, 0x801, 0x500, 0x480, 0x440, 0x420, 0x410, 0x408,
   0x404, 0x402, 0x401, 0x280, 0x240, 0x220, 0x210, 0x208, 0x204, 0x202, 0x201, 0x812, 0x20a, 0x412, 0x406, 0x82,
   0x212, 0xb00, 0xa80, 0xa40, 0xa20, 0xa10, 0xa08, 0xa04, 0xa02, 0xa01, 0xd00, 0xc80, 0xc40, 0xc20, 0xc10, 0xc08,
   0xc04, 0xc02, 0xc01, 0x680, 0x640, 0x620, 0x610, 0x608, 0x604, 0x602, 0x601, 0x406, 0x806, 0x805, 0x5, 0xf000]

/-- `ascii_to_hol_029`. -/
def asciiToHol029 : List ℕ :=
  [0xf000, 0xf000, 0xf000, 0xf000, 0xf000, 0xf000, 0xf000, 0xf000, 0xf000, 0xf000, 0xf000, 0xf000, 0xf000, 0xf000, 0xf000, 0xf000,
   0xf000, 0xf000, 0xf000, 0xf000, 0xf000, 0xf000, 0xf000, 0xf000, 0xf000, 0xf000, 0xf000, 0xf000, 0xf000, 0xf000, 0xf000, 0xf000,
   0x0, 0x482, 0x6, 0x42, 0x442, 0x222, 0x800, 0x12, 0x812, 0x412, 0x422, 0x80a, 0x242, 0x400, 0x842, 0x300,
   0x200, 0x100, 0x80, 0x40, 0x20, 0x10, 0x8, 0x4, 0x2, 0x1, 0x82, 0x40a, 0x822, 0xa, 0x20a, 0x206,
   0x22, 0x900, 0x880, 0x840, 0x820, 0x810, 0x808, 0x804, 0x802, 0x801, 0x500, 0x480, 0x440, 0x420, 0x410, 0x408,
   0x404, 0x402, 0x401, 0x280, 0x240, 0x220, 0x210, 0x208, 0x204, 0x202, 0x201, 0xe82, 0x282, 0xe42, 0x406, 0x212,
   0x102, 0xb00, 0xa80, 0xa40, 0xa20, 0xa10, 0xa08, 0xa04, 0xa02, 0xa01, 0xd00, 0xc80, 0xc40, 0xc20, 0xc10, 0xc08,
   0xc04, 0xc02, 0xc01, 0x680, 0x640, 0x620, 0x610, 0x608, 0x604, 0x602, 0x601, 0x406, 0x806, 0x805, 0xf02, 0xf000]

/-- `ascii_to_dec_029`. -/
def asciiToDec029 : List ℕ :=
  [0xf000, 0xf000, 0xf000, 0xf000, 0xf000, 0xf000, 0xf000, 0xf000, 0xf000, 0xf000, 0xf000, 0xf000, 0xf000, 0xf000, 0xf000, 0xf000,
   0xf000, 0xf000, 0xf000, 0xf000, 0xf000, 0xf000, 0xf000, 0xf000, 0xf000, 0xf000, 0xf000, 0xf000, 0xf000, 0xf000, 0xf000, 0xf000,
   0x0, 0x482, 0x6, 0x42, 0x442, 0x222, 0x800, 0x12, 0x812, 0x412, 0x422, 0x80a, 0x242, 0x400, 0x842, 0x300,
   0x200, 0x100, 0x80, 0x40, 0x20, 0x10, 0x8, 0x4, 0x2, 0x1, 0x82, 0x40a, 0x822, 0xa, 0x20a, 0x206,
   0x22, 0x900, 0x880, 0x840, 0x820, 0x810, 0x808, 0x804, 0x802, 0x801, 0x500, 0x480, 0x440, 0x420, 0x410, 0x408,
   0x404, 0x402, 0x401, 0x280, 0x240, 0x220, 0x210, 0x208, 0x204, 0x202, 0x201, 0x882, 0x406, 0x282, 0x806, 0x212,
   0x102, 0xb00, 0xa80, 0xa40, 0xa20, 0xa10, 0xa08, 0xa04, 0xa02, 0xa01, 0xd00, 0xc80, 0xc40, 0xc20, 0xc10, 0xc08,
   0xc04, 0xc02, 0xc01, 0x680, 0x640, 0x620, 0x610, 0x608, 0x604, 0x602, 0x601, 0xa00, 0xc00, 0x600, 0x700, 0xf000]

/-- `ebcdic_to_hol`. -/
def ebcdicToHol : List ℕ :=
  [0xb03, 0x901, 0x881, 0x841, 0x821, 0x811, 0x809, 0x805, 0x803, 0x903, 0x883, 0x843, 0x823, 0x813, 0x80b, 0x807,
   0xd03, 0x501, 0x481, 0x441, 0x421, 0x411, 0x409, 0x405, 0x403, 0x503, 0x483, 0x443, 0x423, 0x413, 0x40b, 0x407,
   0x703, 0x301, 0x281, 0x241, 0x221, 0x211, 0x209, 0x205, 0x203, 0x303, 0x283, 0x243, 0x223, 0x213, 0x20b, 0x207,
   0xf03, 0x101, 0x81, 0x41, 0x21, 0x11, 0x9, 0x5, 0x3, 0x103, 0x83, 0x43, 0x23, 0x13, 0xb, 0x7,
   0x0, 0xb01, 0xa81, 0xa41, 0xa21, 0xa11, 0xa09, 0xa05, 0xa03, 0x902, 0x882, 0x842, 0x822, 0x812, 0x80a, 0x806,
   0x800, 0xd01, 0xc81, 0xc41, 0xc21, 0xc11, 0xc09, 0xc05, 0xc03, 0x502, 0x482, 0x442, 0x422, 0x412, 0x40a, 0x406,
   0x400, 0x300, 0x681, 0x641, 0x621, 0x611, 0x609, 0x605, 0x603, 0x302, 0xc00, 0x242, 0x222, 0x212, 0x20a, 0x206,
   0xe00, 0xf01, 0xe81, 0xe41, 0xe21, 0xe11, 0xe09, 0xe05, 0xe03, 0x102, 0x82, 0x42, 0x22, 0x12, 0xa, 0x6,
   0xb02, 0xb00, 0xa80, 0xa40, 0xa20, 0xa10, 0xa08, 0xa04, 0xa02, 0xa01, 0xa82, 0xa42, 0xa22, 0xa12, 0xa0a, 0xa06,
   0xd02, 0xd00, 0xc80, 0xc40, 0xc20, 0xc10, 0xc08, 0xc04, 0xc02, 0xc01, 0xc82, 0xc42, 0xc22, 0xc12, 0xc0a, 0xc06,
   0x702, 0x700, 0x680, 0x640, 0x620, 0x610, 0x608, 0x604, 0x602, 0x601, 0x682, 0x642, 0x622, 0x612, 0x60a, 0x606,
   0xf02, 0xf00, 0xe80, 0xe40, 0xe20, 0xe10, 0xe08, 0xe04, 0xe02, 0xe01, 0xe82, 0xe42, 0xe22, 0xe12, 0xe0a, 0xe06,
   0xa00, 0x900, 0x880, 0x840, 0x820, 0x810, 0x808, 0x804, 0x802, 0x801, 0xa83, 0xa43, 0xa23, 0xa13, 0xa0b, 0xa07,
   0x600, 0x500, 0x480, 0x440, 0x420, 0x410, 0x408, 0x404, 0x402, 0x401, 0xc83, 0xc43, 0xc23, 0xc13, 0xc0b, 0xc07,
   0x282, 0x701, 0x280, 0x240, 0x220, 0x210, 0x208, 0x204, 0x202, 0x201, 0x683, 0x643, 0x623, 0x613, 0x60b, 0x607,
   0x200, 0x100, 0x80, 0x40, 0x20, 0x10, 0x8, 0x4, 0x2, 0x1, 0xe83, 0xe43, 0xe23, 0xe13, 0xe0b, 0xe07]

/-- `sim_parity_table`. -/
def parityTable : List ℕ :=
  [0o0, 0o100, 0o100, 0o0, 0o100, 0o0, 0o0, 0o100, 0o100, 0o0, 0o0, 0o100, 0o0, 0o100, 0o100, 0o0,
   0o100, 0o0, 0o0, 0o100, 0o0, 0o100, 0o100, 0o0, 0o0, 0o100, 0o100, 0o0, 0o100, 0o0, 0o0, 0o100,
   0o100, 0o0, 0o0, 0o100, 0o0, 0o100, 0o100, 0o0, 0o0, 0o100, 0o100, 0o0, 0o100, 0o0, 0o0, 0o100,
   0o0, 0o100, 0o100, 0o0, 0o100, 0o0, 0o0, 0o100, 0o100, 0o0, 0o0, 0o100, 0o0, 0o100, 0o100, 0o0]

/-- `sim_bcd_to_hol`. -/
def bcdToHol (bcd : ℕ) : ℕ :=
  if bcd = 0 then 0x82
  else if bcd = 0o20 then 0
  else
    let zone := if bcd &&& 0o60 = 0o20 then 0x200 else if bcd &&& 0o60 = 0o40 then 0x400 else if bcd &&& 0o60 = 0o60 then 0x800 else 0
    if bcd &&& 0o17 = 10 ∧ bcd &&& 0o60 ≠ 0o20 then zone ||| 1 <<< 9
    else
      let low := bcd &&& 0o17
      let digit := if low > 9 then low - 8 else low
      (if low > 9 then zone ||| 2 else zone) ||| if digit ≠ 0 then 1 <<< (9 - digit) else 0

end Ka10Simh.Card
