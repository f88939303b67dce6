import Mathlib.Algebra.Group.Nat.Defs
import Mathlib.Data.List.Basic

/-! Coded character sets of libwc (ccs.h, priv.h, iso2022.h): a set is a 32 bit
word made of attribute bits and an index, and a character is a set with a code. -/

namespace KcnTools.Libwc

structure Wchar where
  ccs : Nat
  code : Nat
  deriving DecidableEq

def ccsSetMask : Nat := 0x0FFFF
def ccsTypeMask : Nat := 0x0FF00
def ccsIndexMask : Nat := 0x000FF
def ccsMbyte : Nat := 0x08000
def ccsWide : Nat := 0x10000
def ccsComb : Nat := 0x20000

def typeCs94 : Nat := 0x00100
def typeCs96 : Nat := 0x00200
def typeCs942 : Nat := 0x00400
def typePcs : Nat := 0x00800
def typeWcs16 : Nat := 0x01000
def typeWcs32 : Nat := 0x02000
def typeUnknown : Nat := 0x04000
def typeCs94w : Nat := typeCs94 ||| ccsMbyte
def typeCs96w : Nat := typeCs96 ||| ccsMbyte
def typePcsw : Nat := typePcs ||| ccsMbyte
def typeWcs16w : Nat := typeWcs16 ||| ccsWide
def typeWcs32w : Nat := typeWcs32 ||| ccsWide
def typeUnknownW : Nat := typeUnknown ||| ccsMbyte

def ccsSet (ccs : Nat) : Nat := ccs &&& ccsSetMask
def ccsType (ccs : Nat) : Nat := ccs &&& ccsTypeMask
def ccsIndex (ccs : Nat) : Nat := ccs &&& ccsIndexMask
def isWide (ccs : Nat) : Bool := ccs &&& (ccsMbyte ||| ccsWide) != 0
def isComb (ccs : Nat) : Bool := ccs &&& ccsComb != 0
def isUnknown (ccs : Nat) : Bool := ccs &&& typeUnknown != 0

def ccsUsAscii : Nat := typeCs94 ||| 0x42
def ccsJisX0201K : Nat := typeCs94 ||| 0x49
def setCs96 (final : Nat) : Nat := typeCs96 ||| final
def setCs94w (final : Nat) : Nat := typeCs94w ||| final
def setPcs (index : Nat) : Nat := typePcs ||| index
def setPcsw (index : Nat) : Nat := typePcsw ||| index

def ccsIso8859_1 : Nat := setCs96 0x41
def ccsGb2312 : Nat := setCs94w 0x41
def ccsJisX0208 : Nat := setCs94w 0x42
def ccsKsX1001 : Nat := setCs94w 0x43
def ccsCp1258_2 : Nat := setPcs 0x1C
def ccsTcvn5712_3 : Nat := setPcs 0x1F
def ccsBig5 : Nat := setPcsw 0x01
def ccsBig5_1 : Nat := setPcsw 0x02
def ccsBig5_2 : Nat := setPcsw 0x03
def ccsJohab : Nat := setPcsw 0x0F
def ccsJohab_1 : Nat := setPcsw 0x10
def ccsJohab_2 : Nat := setPcsw 0x11
def ccsJohab_3 : Nat := setPcsw 0x12
def ccsSjisExt : Nat := setPcsw 0x13
def ccsSjisExt_1 : Nat := setPcsw 0x14
def ccsSjisExt_2 : Nat := setPcsw 0x15
def ccsGbk : Nat := setPcsw 0x16
def ccsGbk_1 : Nat := setPcsw 0x17
def ccsGbk_2 : Nat := setPcsw 0x18
def ccsGbkExt : Nat := setPcsw 0x19
def ccsGbkExt_1 : Nat := setPcsw 0x1A
def ccsGbkExt_2 : Nat := setPcsw 0x1B
def ccsUhc : Nat := setPcsw 0x1C
def ccsUhc_1 : Nat := setPcsw 0x1D
def ccsUhc_2 : Nat := setPcsw 0x1E
def ccsHkscs : Nat := setPcsw 0x1F
def ccsHkscs_1 : Nat := setPcsw 0x20
def ccsHkscs_2 : Nat := setPcsw 0x21

def ccsUcs2 : Nat := typeWcs16
def ccsUcs4 : Nat := typeWcs32
def ccsUcsTag : Nat := typeWcs32 ||| 0x01
def ccsGb18030 : Nat := typeWcs32 ||| 0x02
def ccsGb18030W : Nat := typeWcs32w ||| 0x02

def ccsUnknown : Nat := typeUnknown
def ccsC1 : Nat := typeUnknown ||| 0x01
def ccsUnknownW : Nat := typeUnknownW

inductive IsoClass where
  | c0 | gl | gl96 | c1 | gr | gr96 | so | si | esc | ss2 | ss3
  deriving DecidableEq

def isoMap (byte : Nat) : IsoClass :=
  if byte = 0x0E then .so
  else if byte = 0x0F then .si
  else if byte = 0x1B then .esc
  else if byte < 0x20 then .c0
  else if byte = 0x20 ∨ byte = 0x7F then .gl96
  else if byte < 0x7F then .gl
  else if byte = 0x8E then .ss2
  else if byte = 0x8F then .ss3
  else if byte < 0xA0 then .c1
  else if byte = 0xA0 ∨ byte = 0xFF then .gr96
  else .gr

theorem isoMap_gl (byte : Nat) : isoMap byte = .gl ↔ 0x21 ≤ byte ∧ byte ≤ 0x7E := by
  unfold isoMap
  repeat' split
  all_goals first | (refine iff_of_false (by simp) ?_; omega) | (refine iff_of_true rfl ?_; omega)

theorem isoMap_gr (byte : Nat) :
    isoMap byte = .gr ↔ 0xA1 ≤ byte ∧ byte ≠ 0xFF := by
  unfold isoMap
  repeat' split
  all_goals first | (refine iff_of_false (by simp) ?_; omega) | (refine iff_of_true rfl ?_; omega)

/-! Values of the fixed-width types the codes are computed in. -/

def u8 (value : Int) : Nat := (value % 256).toNat
def u32 (value : Int) : Nat := (value % 4294967296).toNat

theorem and_low (n : Nat) : n &&& 0x7F = n % 128 := Nat.and_two_pow_sub_one_eq_mod n 7
theorem byte_forall {p : UInt8 → Prop} (all : ∀ n < 256, p (UInt8.ofNat n)) (byte : UInt8) : p byte := by
  simpa using all byte.toNat byte.toNat_lt

theorem and_byte (n : Nat) : n &&& 0xFF = n % 256 := Nat.and_two_pow_sub_one_eq_mod n 8
theorem shift_byte (n : Nat) : n >>> 8 = n / 256 := Nat.shiftRight_eq_div_pow n 8

theorem or_add {a b : Nat} (k : Nat) (multiple : 2 ^ k ∣ a) (small : b < 2 ^ k) : a ||| b = a + b := by
  obtain ⟨c, rfl⟩ := multiple
  exact (Nat.two_pow_add_eq_or_of_lt small c).symm

theorem or_high {n : Nat} (low : n < 128) : n ||| 0x80 = n + 128 := by
  have joined : 0x80 ||| n = 0x80 + n := or_add 7 ⟨1, rfl⟩ low
  rw [Nat.or_comm, joined, Nat.add_comm]

theorem ofNat_low (n : Nat) : (UInt8.ofNat (n &&& 0x7F)).toNat = n &&& 0x7F := by
  rw [UInt8.toNat_ofNat', and_low]
  omega

def pair (first second : UInt8) : Nat := (first.toNat <<< 8) ||| second.toNat

theorem pair_eq (first second : UInt8) : pair first second = first.toNat * 256 + second.toNat := by
  rw [pair, Nat.shiftLeft_eq, Nat.mul_comm, ← Nat.two_pow_add_eq_or_of_lt second.toNat_lt]

def lowCode (code : Nat) : Nat := (((code >>> 8) &&& 0x7F) <<< 8) ||| (code &&& 0x7F)

theorem pair_low (code : Nat) :
    pair (UInt8.ofNat ((code >>> 8) &&& 0x7F)) (UInt8.ofNat (code &&& 0x7F)) = lowCode code := by
  rw [pair, ofNat_low, ofNat_low, lowCode]

theorem lowCode_eq (code : Nat) : lowCode code = code / 256 % 128 * 256 + code % 128 := by
  rw [← pair_low, pair_eq, ofNat_low, ofNat_low, shift_byte, and_low, and_low]

end KcnTools.Libwc
