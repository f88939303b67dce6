import KcnTools.Libwc.CharacterSet

/-! The renumberings of the multibyte private sets into planes of seven bit codes
and back (sjis.c, big5.c, hkscs.c, gbk.c, gb18030.c, uhc.c, johab.c). -/

namespace KcnTools.Libwc

/-! Positions in 94×94 and 128×128 planes. -/

def cs94wN (c : Nat) : Nat :=
  u32 ((((c >>> 8) &&& 0x7F : Nat) - 0x21 : Int) * 0x5E + (c &&& 0x7F : Nat) - 0x21)

def nCs94w (n : Nat) : Nat := ((n / 0x5E + 0x21) <<< 8) + (n % 0x5E + 0x21)

def cs128wN (c : Nat) : Nat := ((c >>> 8) &&& 0x7F) * 0x80 + (c &&& 0x7F)

def nCs128w (n : Nat) : Nat := ((n / 0x80) <<< 8) + n % 0x80

def cs94x128N (c : Nat) : Nat :=
  u32 ((((c >>> 8) &&& 0x7F : Nat) - 0x21 : Int) * 0x80 + (c &&& 0x7F : Nat))

def nCs94x128 (n : Nat) : Nat := ((n / 0x80 + 0x21) <<< 8) + n % 0x80

/-- The position of a two byte code in a table of rows of `width` codes that starts
with the lead byte `base`; `offset` is what the trail bytes are moved by. -/
def tableN (base width : Nat) (offset : Nat → Nat) (c : Nat) : Nat :=
  u32 ((((c >>> 8) &&& 0xFF : Nat) - base : Int) * width + (c &&& 0xFF : Nat) - offset (c &&& 0xFF))

def nTable (base width : Nat) (offset : Nat → Nat) (n : Nat) : Nat :=
  ((n / width + base) <<< 8) + (n % width + offset (n % width))

def big5N : Nat → Nat := tableN 0xA1 0x9D fun l => if l < 0xA1 then 0x40 else 0x62
def nBig5 : Nat → Nat := nTable 0xA1 0x9D fun l => if l < 0x3F then 0x40 else 0x62
def hkscsN : Nat → Nat := tableN 0x88 0x9D fun l => if l < 0xA1 then 0x40 else 0x62
def nHkscs : Nat → Nat := nTable 0x88 0x9D fun l => if l < 0x3F then 0x40 else 0x62
def gbkN : Nat → Nat := tableN 0x81 0xBE fun l => if l < 0x80 then 0x40 else 0x41
def nGbk : Nat → Nat := nTable 0x81 0xBE fun l => if l < 0x3F then 0x40 else 0x41
def uhcN : Nat → Nat :=
  tableN 0x81 0xB2 fun l => if l < 0x61 then 0x41 else if l < 0x81 then 0x47 else 0x4D
def nUhc : Nat → Nat :=
  nTable 0x81 0xB2 fun l => if l < 0x1A then 0x41 else if l < 0x34 then 0x47 else 0x4D
def johab2N : Nat → Nat := tableN 0x84 0xBC fun l => if l < 0x81 then 0x41 else 0x43
def nJohab2 : Nat → Nat := nTable 0x84 0xBC fun l => if l < 0x3E then 0x41 else 0x43

def toPlanes (number place : Nat → Nat) (split first second : Nat) (cc : Wchar) : Wchar :=
  let n := number cc.code
  if n < split then ⟨first, place n⟩ else ⟨second, place (n - split)⟩

def fromPlanes (number place : Nat → Nat) (split second whole : Nat) (cc : Wchar) : Wchar :=
  let n := number cc.code
  ⟨whole, place (if cc.ccs = second then u32 (n + split) else n)⟩

def big5ToCs94w : Wchar → Wchar := toPlanes big5N nCs94w (0x28 * 0x9D) ccsBig5_1 ccsBig5_2
def cs94wToBig5 : Wchar → Wchar := fromPlanes cs94wN nBig5 (0x28 * 0x9D) ccsBig5_2 ccsBig5
def hkscsToCs128w : Wchar → Wchar := toPlanes hkscsN nCs128w 0x4000 ccsHkscs_1 ccsHkscs_2
def cs128wToHkscs : Wchar → Wchar := fromPlanes cs128wN nHkscs 0x4000 ccsHkscs_2 ccsHkscs
def gbkToCs128w : Wchar → Wchar := toPlanes gbkN nCs128w 0x4000 ccsGbk_1 ccsGbk_2
def cs128wToGbk : Wchar → Wchar := fromPlanes cs128wN nGbk 0x4000 ccsGbk_2 ccsGbk
def gbkExtToCs128w : Wchar → Wchar := toPlanes gbkN nCs128w 0x4000 ccsGbkExt_1 ccsGbkExt_2
def cs128wToGbkExt : Wchar → Wchar := fromPlanes cs128wN nGbk 0x4000 ccsGbkExt_2 ccsGbkExt
def uhcToCs128w : Wchar → Wchar := toPlanes uhcN nCs128w 0x4000 ccsUhc_1 ccsUhc_2
def cs128wToUhc : Wchar → Wchar := fromPlanes cs128wN nUhc 0x4000 ccsUhc_2 ccsUhc

/-! Shift_JIS, in bytes that wrap around. -/

def sjisToJisx0208 (ub lb : Nat) : Nat × Nat :=
  let ub := u8 (ub - (if ub < 0xA0 then 0x81 else 0xC1))
  let ub := u8 ((ub <<< 1 : Nat) + 0x21)
  if lb < 0x9F then (ub, u8 (lb - (if lb > 0x7E then 0x20 else 0x1F)))
  else (u8 (ub + 1), u8 (lb - 0x7E))

def jisx0208ToSjis (ub lb : Nat) : Nat × Nat :=
  let lb := u8 (lb + (if ub &&& 1 = 1 then 0x1F else 0x7D))
  let lb := if lb > 0x7E then u8 (lb + 1) else lb
  let ub := u8 (((ub : Int) - 0x21) / 2)
  (u8 (ub + (if ub < 0x1F then 0x81 else 0xC1)), lb)

def sjisExtToCs94w (cc : Wchar) : Wchar :=
  let (ub, lb) := sjisToJisx0208 (u8 (cc.code >>> 8 : Nat)) (cc.code &&& 0xFF)
  if ub ≤ 0x7E then ⟨ccsSjisExt_1, (ub <<< 8) ||| lb⟩
  else ⟨ccsSjisExt_2, (u8 (ub - 0x5E) <<< 8) ||| lb⟩

def cs94wToSjisExt (cc : Wchar) : Wchar :=
  let ub := (cc.code >>> 8) &&& 0x7F
  let ub := if cc.ccs = ccsSjisExt_2 then u8 (ub + 0x5E) else ub
  let (ub, lb) := jisx0208ToSjis ub (cc.code &&& 0x7F)
  ⟨ccsSjisExt, (ub <<< 8) ||| lb⟩

/-! Johab: its syllables by their three letters, and two more tables. -/

def johab1NMap (part letter : Nat) : Nat :=
  ([[0, 0, 1, 2, 3, 4, 5, 6, 7, 8, 9, 10, 11, 12, 13, 14,
     15, 16, 17, 18, 19, 0, 0, 0, 0, 0, 0, 0, 0, 0, 0, 0],
    [0, 0, 0, 1, 2, 3, 4, 5, 0, 0, 6, 7, 8, 9, 10, 11,
     0, 0, 12, 13, 14, 15, 16, 17, 0, 0, 18, 19, 20, 21, 0, 0],
    [0, 1, 2, 3, 4, 5, 6, 7, 8, 9, 10, 11, 12, 13, 14, 15,
     16, 17, 0, 18, 19, 20, 21, 22, 23, 24, 25, 26, 27, 28, 0, 0]].getD part []).getD letter 0

def nJohab1Map (part number : Nat) : Nat :=
  ([[2, 3, 4, 5, 6, 7, 8, 9, 10, 11, 12, 13, 14, 15, 16, 17,
     18, 19, 20, 0, 0, 0, 0, 0, 0, 0, 0, 0, 0, 0, 0, 0],
    [3, 4, 5, 6, 7, 10, 11, 12, 13, 14, 15, 18, 19, 20, 21, 22,
     23, 26, 27, 28, 29, 0, 0, 0, 0, 0, 0, 0, 0, 0, 0, 0],
    [1, 2, 3, 4, 5, 6, 7, 8, 9, 10, 11, 12, 13, 14, 15, 16,
     17, 19, 20, 21, 22, 23, 24, 25, 26, 27, 28, 29, 0, 0, 0, 0]].getD part []).getD number 0

def johab1ToN (code : Nat) : Option Nat :=
  let a := johab1NMap 0 ((code >>> 10) &&& 0x1F)
  let b := johab1NMap 1 ((code >>> 5) &&& 0x1F)
  let c := johab1NMap 2 (code &&& 0x1F)
  if a ≠ 0 ∧ b ≠ 0 ∧ c ≠ 0 then some (((a - 1) * 21 + (b - 1)) * 28 + (c - 1)) else none

def nToJohab1 (n : Nat) : Nat :=
  let a := nJohab1Map 0 (n / 28 / 21)
  let b := nJohab1Map 1 (n / 28 % 21)
  let c := nJohab1Map 2 (n % 28)
  0x8000 ||| (a <<< 10) ||| (b <<< 5) ||| c

def johab3ToKsx1001 (ub lb : Nat) : Nat × Nat :=
  let ub := if ub < 0xE0 then u8 ((ub - 0xD8 : Int) * 2 + 0x1F) else u8 ((ub - 0xE0 : Int) * 2 + 0x4A)
  if lb < 0xA1 then (ub, u8 (lb - (if lb < 0x91 then 0x10 else 0x22)))
  else (u8 (ub + 1), u8 (lb - 0x80))

def ksx1001ToJohab3 (ub lb : Nat) : Nat × Nat :=
  let (row, base) := if ub < 0x4A then (u8 (ub - 0x1F), 0xD8) else (u8 (ub - 0x4A), 0xE0)
  (u8 ((row >>> 1 : Nat) + base),
    u8 (lb + (if row &&& 1 = 1 then 0x80 else if lb < 0x6F then 0x10 else 0x22)))

def johabToCs128w (cc : Wchar) : Wchar :=
  if cc.code < 0xD800 then
    match johab1ToN cc.code with
    | some n => ⟨ccsJohab_1, nCs94x128 n⟩
    | none => ⟨ccsJohab_2, nCs128w (johab2N cc.code)⟩
  else
    let (ub, lb) := johab3ToKsx1001 (u8 (cc.code >>> 8 : Nat)) (cc.code &&& 0xFF)
    ⟨ccsJohab_3, (ub <<< 8) ||| lb⟩

def cs128wToJohab (cc : Wchar) : Wchar :=
  let code :=
    if cc.ccs = ccsJohab_1 then nToJohab1 (cs94x128N cc.code)
    else if cc.ccs = ccsJohab_2 then nJohab2 (cs128wN cc.code)
    else if cc.ccs = ccsJohab_3 then
      let (ub, lb) := ksx1001ToJohab3 ((cc.code >>> 8) &&& 0x7F) (cc.code &&& 0x7F)
      (ub <<< 8) ||| lb
    else cc.code
  ⟨ccsJohab, code⟩

end KcnTools.Libwc
