import Mathlib

/-!
Sums of 16 bit words in one's complement arithmetic. A sum with its carries added back stands for
the residue modulo 65535, where zero is written as 65535 unless nothing was added.
-/

namespace KcnTools.OnesComplement

inductive ByteOrder
  | little
  | big
  deriving DecidableEq

def ByteOrder.word : ByteOrder → UInt8 → UInt8 → Nat
  | .little, first, second => first.toNat + 256 * second.toNat
  | .big, first, second => 256 * first.toNat + second.toNat

def ByteOrder.bytes : ByteOrder → Nat → List UInt8
  | .little, word => [UInt8.ofNat (word % 256), UInt8.ofNat (word / 256)]
  | .big, word => [UInt8.ofNat (word / 256), UInt8.ofNat (word % 256)]

/-- The sum of the words of a packet, to which a zero byte is added where the last word lacks one. -/
def wordSum (order : ByteOrder) : List UInt8 → Nat
  | first :: second :: rest => order.word first second + wordSum order rest
  | [last] => order.word last 0
  | [] => 0

def residue (sum : Nat) : Nat := if sum = 0 then 0 else (sum - 1) % 65535 + 1

theorem word_lt (order : ByteOrder) (first second : UInt8) : order.word first second < 65536 := by
  have := first.toNat_lt
  have := second.toNat_lt
  cases order <;> simp only [ByteOrder.word] <;> omega

theorem wordSum_bytes (order : ByteOrder) {word : Nat} (small : word < 65536) (rest : List UInt8) :
    wordSum order (order.bytes word ++ rest) = word + wordSum order rest := by
  have low : (UInt8.ofNat (word % 256)).toNat = word % 256 := UInt8.toNat_ofNat_of_lt' (by show _ < 256; omega)
  have high : (UInt8.ofNat (word / 256)).toNat = word / 256 := UInt8.toNat_ofNat_of_lt' (by show _ < 256; omega)
  cases order
  · show (UInt8.ofNat (word % 256)).toNat + 256 * (UInt8.ofNat (word / 256)).toNat + wordSum .little rest = _
    rw [low, high]
    omega
  · show 256 * (UInt8.ofNat (word / 256)).toNat + (UInt8.ofNat (word % 256)).toNat + wordSum .big rest = _
    rw [low, high]
    omega

theorem wordSum_append (order : ByteOrder) {before : List UInt8} (whole : Even before.length)
    (after : List UInt8) :
    wordSum order (before ++ after) = wordSum order before + wordSum order after := by
  induction before using wordSum.induct with
  | case1 first second rest ih =>
      rw [List.length_cons, List.length_cons, Nat.even_add_one, Nat.even_add_one, not_not] at whole
      rw [List.cons_append, List.cons_append, wordSum, ih whole, wordSum, Nat.add_assoc]
  | case2 last => simp at whole
  | case3 => rw [List.nil_append, wordSum, Nat.zero_add]

theorem wordSum_le (order : ByteOrder) (packet : List UInt8) :
    wordSum order packet ≤ 65535 * ((packet.length + 1) / 2) := by
  induction packet using wordSum.induct with
  | case1 first second rest ih =>
      have := word_lt order first second
      rw [wordSum, List.length_cons, List.length_cons]
      omega
  | case2 last =>
      have := word_lt order last 0
      rw [wordSum]
      simp only [List.length_singleton]
      omega
  | case3 => exact Nat.zero_le _

theorem wordSum_big (packet : List UInt8) :
    wordSum .big packet ≡ 256 * wordSum .little packet [MOD 65535] := by
  have turned : ∀ first second : UInt8,
      ByteOrder.big.word first second ≡ 256 * ByteOrder.little.word first second [MOD 65535] := by
    intro first second
    have := first.toNat_lt
    have := second.toNat_lt
    show (256 * first.toNat + second.toNat) % 65535 = (256 * (first.toNat + 256 * second.toNat)) % 65535
    omega
  induction packet using wordSum.induct with
  | case1 first second rest ih =>
      rw [wordSum, wordSum, Nat.mul_add]
      exact (turned first second).add ih
  | case2 last => exact turned last 0
  | case3 => rfl

theorem wordSum_eq_zero {one other : ByteOrder} {packet : List UInt8} (zero : wordSum one packet = 0) :
    wordSum other packet = 0 := by
  have nothing : ∀ {first second : UInt8}, one.word first second = 0 → other.word first second = 0 := by
    intro first second
    cases one <;> cases other <;> simp only [ByteOrder.word] <;> omega
  induction packet using wordSum.induct with
  | case1 first second rest ih =>
      rw [wordSum, Nat.add_eq_zero_iff] at zero
      rw [wordSum, ih zero.2, nothing zero.1]
  | case2 last => exact nothing zero
  | case3 => rfl

theorem residue_modEq (sum : Nat) : residue sum ≡ sum [MOD 65535] := by
  rw [residue]
  split_ifs with zero
  · rw [zero]
  · show ((sum - 1) % 65535 + 1) % 65535 = sum % 65535
    omega

theorem residue_le (sum : Nat) : residue sum ≤ 65535 := by
  rw [residue]
  split_ifs <;> omega

theorem residue_eq_zero_iff {sum : Nat} : residue sum = 0 ↔ sum = 0 := by
  by_cases zero : sum = 0
  · rw [residue, if_pos zero]
    exact iff_of_true rfl zero
  · rw [residue, if_neg zero]
    omega

theorem residue_eq_max_iff {sum : Nat} : residue sum = 65535 ↔ sum ≠ 0 ∧ sum % 65535 = 0 := by
  by_cases zero : sum = 0
  · rw [residue, if_pos zero]
    omega
  · rw [residue, if_neg zero]
    omega

/-- A residue is known by what it stands for and whether anything was added. -/
theorem residue_unique {sum value : Nat} (same : value ≡ sum [MOD 65535]) (bound : value ≤ 65535)
    (zero : value = 0 ↔ sum = 0) : residue sum = value := by
  have same : value % 65535 = sum % 65535 := same
  rw [residue]
  split_ifs with nothing
  · exact (zero.mpr nothing).symm
  · have : value ≠ 0 := fun absent => nothing (zero.mp absent)
    omega

/-- Adding the carries of a 32 bit sum back twice leaves its residue in the low 16 bits. -/
theorem carries_residue {sum : Nat} (room : sum < 2 ^ 32) :
    (sum / 65536 + sum % 65536 + (sum / 65536 + sum % 65536) / 65536) % 65536 = residue sum := by
  obtain ⟨high, low, rfl, small⟩ : ∃ high low, sum = 65536 * high + low ∧ low < 65536 :=
    ⟨sum / 65536, sum % 65536, (Nat.div_add_mod sum 65536).symm, Nat.mod_lt _ (by omega)⟩
  have fits : high < 65536 := by omega
  rw [show (65536 * high + low) / 65536 = high by omega, show (65536 * high + low) % 65536 = low by omega]
  by_cases zero : 65536 * high + low = 0
  · rw [residue, if_pos zero]
    omega
  · rw [residue, if_neg zero]
    by_cases carries : high + low < 65536
    · rw [show 65536 * high + low - 1 = high + low - 1 + 65535 * high by omega, Nat.add_mul_mod_self_left,
        Nat.mod_eq_of_lt (show high + low - 1 < 65535 by omega)]
      omega
    · rw [show 65536 * high + low - 1 = high + low - 65536 + 65535 * (high + 1) by omega, Nat.add_mul_mod_self_left,
        Nat.mod_eq_of_lt (show high + low - 65536 < 65535 by omega)]
      omega

end KcnTools.OnesComplement
