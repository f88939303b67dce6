import Mathlib.Data.List.Basic
import Mathlib.Data.Nat.Bitwise

/-!
Fixed-size bitfields packed into bytes, the first bit of a byte being its most
significant one (`util/bitfield.h`).
-/

namespace KcnTools

def getBitfieldBitOffset (bit : Nat) : UInt8 := 0x80 >>> UInt8.ofNat (bit % 8)

def getBitfieldByteOffset (bit : Nat) : Nat := bit / 8

def getBitfieldByteSize (bits : Nat) : Nat := (bits + 7) / 8

structure Bitfield where
  bitsize : Nat
  bits : List UInt8
  allocated : bits.length = getBitfieldByteSize bitsize
  deriving DecidableEq

def initBitfield (bits : Nat) : Bitfield where
  bitsize := bits
  bits := List.replicate (getBitfieldByteSize bits) 0
  allocated := List.length_replicate

def copyBitfield (bitfield : Bitfield) (bits : List UInt8) : Bitfield :=
  if fits : bits.length ≤ getBitfieldByteSize bitfield.bitsize then
    { bitfield with
      bits := bits ++ bitfield.bits.drop bits.length
      allocated := by
        rw [List.length_append, List.length_drop, bitfield.allocated]
        omega }
  else bitfield

def testBitfieldBit (bitfield : Bitfield) (bit : Nat) : Bool :=
  bit < bitfield.bitsize &&
    bitfield.bits.getD (getBitfieldByteOffset bit) 0 &&& getBitfieldBitOffset bit != 0

def setBitfieldBit (bitfield : Bitfield) (bit : Nat) : Bitfield :=
  if bit < bitfield.bitsize then
    { bitfield with
      bits := bitfield.bits.modify (getBitfieldByteOffset bit) (· ||| getBitfieldBitOffset bit)
      allocated := by rw [List.length_modify, bitfield.allocated] }
  else bitfield

def bitfieldSetBits (bitfield : Bitfield) : List Nat :=
  (List.range bitfield.bitsize).filter (testBitfieldBit bitfield)

def getBitfieldSetCount (bitfield : Bitfield) : Nat := (bitfieldSetBits bitfield).length

def bitfieldIsSet (bitfield : Bitfield) : Bool :=
  (List.range bitfield.bitsize).all (testBitfieldBit bitfield)

theorem bitOffset_toNat (bit : Nat) : (getBitfieldBitOffset bit).toNat = 2 ^ (7 - bit % 8) := by
  have shifted : ∀ position < 8,
      ((0x80 : UInt8) >>> UInt8.ofNat position).toNat = 2 ^ (7 - position) := by decide
  exact shifted (bit % 8) (Nat.mod_lt bit (by omega))

theorem and_bitOffset (byte : UInt8) (bit : Nat) :
    (byte &&& getBitfieldBitOffset bit != 0) = byte.toNat.testBit (7 - bit % 8) := by
  have value : (byte &&& getBitfieldBitOffset bit).toNat =
      (byte.toNat.testBit (7 - bit % 8)).toNat * 2 ^ (7 - bit % 8) := by
    rw [UInt8.toNat_and, bitOffset_toNat, Nat.and_two_pow]
  cases tested : byte.toNat.testBit (7 - bit % 8) with
  | false =>
      have zero : byte &&& getBitfieldBitOffset bit = 0 := by
        apply UInt8.toNat.inj
        rw [value, tested]
        simp
      simp [zero]
  | true =>
      have positive : 0 < (byte &&& getBitfieldBitOffset bit).toNat := by
        rw [value, tested, Bool.toNat_true, Nat.one_mul]
        exact Nat.two_pow_pos _
      rw [bne_iff_ne]
      intro zero
      rw [zero] at positive
      simp at positive

theorem testBitfieldBit_eq (bitfield : Bitfield) (bit : Nat) :
    testBitfieldBit bitfield bit = (decide (bit < bitfield.bitsize) &&
      (bitfield.bits.getD (bit / 8) 0).toNat.testBit (7 - bit % 8)) := by
  rw [testBitfieldBit, and_bitOffset, getBitfieldByteOffset]

theorem testBitfieldBit_lt {bitfield : Bitfield} {bit : Nat}
    (tested : testBitfieldBit bitfield bit = true) : bit < bitfield.bitsize := by
  rw [testBitfieldBit, Bool.and_eq_true, decide_eq_true_eq] at tested
  exact tested.1

@[simp] theorem initBitfield_bitsize (bits : Nat) : (initBitfield bits).bitsize = bits := rfl

@[simp] theorem testBitfieldBit_init (bits bit : Nat) :
    testBitfieldBit (initBitfield bits) bit = false := by
  have zero : (List.replicate (getBitfieldByteSize bits) (0 : UInt8)).getD (bit / 8) 0 = 0 := by
    rw [List.getD_eq_getElem?_getD, List.getElem?_replicate]
    split <;> rfl
  rw [testBitfieldBit_eq, initBitfield, zero]
  simp

@[simp] theorem setBitfieldBit_bitsize (bitfield : Bitfield) (bit : Nat) :
    (setBitfieldBit bitfield bit).bitsize = bitfield.bitsize := by
  simp only [setBitfieldBit]
  split <;> rfl

@[simp] theorem copyBitfield_bitsize (bitfield : Bitfield) (bits : List UInt8) :
    (copyBitfield bitfield bits).bitsize = bitfield.bitsize := by
  simp only [copyBitfield]
  split <;> rfl

theorem testBitfieldBit_set (bitfield : Bitfield) (bit other : Nat) :
    testBitfieldBit (setBitfieldBit bitfield bit) other =
      (testBitfieldBit bitfield other || decide (bit = other ∧ bit < bitfield.bitsize)) := by
  by_cases inside : bit < bitfield.bitsize
  · have stored : bit / 8 < bitfield.bits.length := by
      rw [bitfield.allocated, getBitfieldByteSize]
      omega
    rw [testBitfieldBit_eq, setBitfieldBit_bitsize, testBitfieldBit_eq, setBitfieldBit, if_pos inside]
    simp only [getBitfieldByteOffset, List.getD_eq_getElem?_getD, List.getElem?_modify]
    by_cases same : bit / 8 = other / 8
    · rw [← same, List.getElem?_eq_getElem stored]
      simp only [if_true, Option.map_eq_map, Option.map_some, Option.getD_some, UInt8.toNat_or, Nat.testBit_or,
        bitOffset_toNat,
        Nat.testBit_two_pow]
      by_cases equal : bit = other
      · subst other
        simp [inside]
      · have apart : 7 - bit % 8 ≠ 7 - other % 8 := by omega
        simp [apart, equal]
    · have apart : bit ≠ other := by
        intro equal
        exact same (by rw [equal])
      simp [same, apart]
  · rw [setBitfieldBit, if_neg inside]
    simp [inside]

theorem testBitfieldBit_set_self {bitfield : Bitfield} {bit : Nat}
    (inside : bit < bitfield.bitsize) : testBitfieldBit (setBitfieldBit bitfield bit) bit = true := by
  simp [testBitfieldBit_set, inside]

theorem testBitfieldBit_set_of_ne {bitfield : Bitfield} {bit other : Nat} (apart : bit ≠ other) :
    testBitfieldBit (setBitfieldBit bitfield bit) other = testBitfieldBit bitfield other := by
  simp [testBitfieldBit_set, apart]

theorem bitfieldIsSet_iff (bitfield : Bitfield) :
    bitfieldIsSet bitfield = true ↔
      ∀ bit < bitfield.bitsize, testBitfieldBit bitfield bit = true := by
  simp [bitfieldIsSet]

theorem mem_bitfieldSetBits {bitfield : Bitfield} {bit : Nat} :
    bit ∈ bitfieldSetBits bitfield ↔ testBitfieldBit bitfield bit = true := by
  rw [bitfieldSetBits, List.mem_filter, List.mem_range]
  constructor
  · exact fun both => both.2
  · exact fun tested => ⟨testBitfieldBit_lt tested, tested⟩

theorem bitfieldSetBits_nodup (bitfield : Bitfield) : (bitfieldSetBits bitfield).Nodup :=
  List.nodup_range.filter _

end KcnTools
