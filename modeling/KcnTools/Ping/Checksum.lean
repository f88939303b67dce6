import Mathlib
import KcnTools.Lib.OnesComplement

/-!
The Internet checksums of `ping` and `traceroute`. The two programs sum a packet in the byte order
of the host, with a 32 bit sum each, and store the complement in the packet.
-/

namespace KcnTools.Ping

open OnesComplement

/-! ## The checksum of `ping` -/

/-- The loop over the words of a packet and the odd byte behind them, in a sum of 32 bits. -/
def addWords (order : ByteOrder) (sum : Nat) : List UInt8 → Nat
  | first :: second :: rest => addWords order ((sum + order.word first second) % 2 ^ 32) rest
  | [last] => (sum + order.word last 0) % 2 ^ 32
  | [] => sum

def endAroundCarry (sum : Nat) : Nat :=
  let sum := sum / 65536 + sum % 65536
  (sum + sum / 65536) % 2 ^ 32

def inCksum (order : ByteOrder) (packet : List UInt8) : Nat :=
  (2 ^ 32 - 1 - endAroundCarry (addWords order 0 packet)) % 65536

def checksummed (order : ByteOrder) (before after : List UInt8) : List UInt8 :=
  before ++ (order.bytes (inCksum order (before ++ ([0, 0] ++ after))) ++ after)

/-! ## The checksum of `traceroute` -/

/-- An `int32_t` holds the sum of every packet of up to 65535 bytes, so nothing is cut off here. -/
def addWords2 (order : ByteOrder) (sum : Int) : List UInt8 → Int
  | first :: second :: rest => addWords2 order (sum + order.word first second) rest
  | [last] => sum + order.word last 0
  | [] => sum

def inCksum2 (order : ByteOrder) (seed : Nat) (packet : List UInt8) : Nat :=
  let sum := addWords2 order seed packet
  let sum := sum / 65536 + sum % 65536
  ((sum + sum / 65536) % 65536).toNat

def tracerouteInCksum (order : ByteOrder) (packet : List UInt8) : Nat :=
  65535 - inCksum2 order 0 packet

/-- The ICMP part of `send_probe`, which clears the field first. -/
def tracerouteChecksummed (order : ByteOrder) (before after : List UInt8) : List UInt8 :=
  let sum := tracerouteInCksum order (before ++ ([0, 0] ++ after))
  before ++ (order.bytes (if sum = 0 then 0xffff else sum) ++ after)

/-! ## Both are the complement of a residue -/

theorem addWords_eq (order : ByteOrder) (packet : List UInt8) {sum : Nat}
    (room : sum + wordSum order packet < 2 ^ 32) : addWords order sum packet = sum + wordSum order packet := by
  induction packet using wordSum.induct generalizing sum with
  | case1 first second rest ih =>
      rw [wordSum, ← Nat.add_assoc] at room ⊢
      rw [addWords, Nat.mod_eq_of_lt (by omega), ih room]
  | case2 last => exact Nat.mod_eq_of_lt room
  | case3 => rfl

theorem addWords2_eq (order : ByteOrder) (packet : List UInt8) (sum : Int) :
    addWords2 order sum packet = sum + wordSum order packet := by
  induction packet using wordSum.induct generalizing sum with
  | case1 first second rest ih =>
      rw [addWords2, ih, wordSum]
      push_cast
      ring
  | case2 last => rfl
  | case3 => exact (Int.add_zero sum).symm

theorem wordSum_lt (order : ByteOrder) {packet : List UInt8} (short : packet.length < 2 ^ 17) :
    wordSum order packet < 2 ^ 32 := by
  have := wordSum_le order packet
  omega

theorem inCksum_eq (order : ByteOrder) {packet : List UInt8} (short : packet.length < 2 ^ 17) :
    inCksum order packet = 65535 - residue (wordSum order packet) := by
  have room := wordSum_lt order short
  rw [inCksum, addWords_eq order packet (by rwa [Nat.zero_add]), Nat.zero_add]
  rw [← carries_residue room, endAroundCarry]
  omega

theorem tracerouteInCksum_eq (order : ByteOrder) {packet : List UInt8} (short : packet.length < 2 ^ 17) :
    tracerouteInCksum order packet = 65535 - residue (wordSum order packet) := by
  have room := wordSum_lt order short
  rw [tracerouteInCksum, inCksum2, addWords2_eq, Nat.cast_zero, Int.zero_add, ← carries_residue room]
  norm_cast

/-- The sum of an `int32_t` stays in range over a whole packet of the Internet protocol. -/
theorem addWords2_lt (order : ByteOrder) {packet : List UInt8} (short : packet.length ≤ 65535) :
    addWords2 order 0 packet < 2 ^ 31 := by
  have := wordSum_le order packet
  rw [addWords2_eq]
  omega

/-! ## A packet that carries its checksum -/

theorem wordSum_stored (order : ByteOrder) {before after : List UInt8} (whole : Even before.length) {word : Nat}
    (small : word < 65536) :
    wordSum order (before ++ (order.bytes word ++ after)) =
      word + (wordSum order before + wordSum order after) := by
  rw [wordSum_append order whole, wordSum_bytes order small]
  omega

theorem zero_bytes (order : ByteOrder) : order.bytes 0 = [0, 0] := by cases order <;> rfl

theorem complement_closes (sum : Nat) : residue (65535 - residue sum + sum) = 65535 := by
  have same : residue sum % 65535 = sum % 65535 := residue_modEq sum
  have := residue_le sum
  have := @residue_eq_zero_iff sum
  rw [residue_eq_max_iff]
  omega

theorem bytes_length (order : ByteOrder) (word : Nat) : (order.bytes word).length = 2 := by
  cases order <;> rfl

def swapped (word : Nat) : Nat := word % 256 * 256 + word / 256

theorem bytes_swapped {word : Nat} (small : word < 65536) :
    ByteOrder.big.bytes (swapped word) = ByteOrder.little.bytes word := by
  have high : swapped word / 256 = word % 256 := by
    rw [swapped]
    omega
  have low : swapped word % 256 = word / 256 := by
    rw [swapped]
    omega
  rw [ByteOrder.bytes, ByteOrder.bytes, high, low]

theorem residue_swapped (packet : List UInt8) :
    residue (wordSum .big packet) = swapped (residue (wordSum .little packet)) := by
  have bound := residue_le (wordSum .little packet)
  have turned : swapped (residue (wordSum .little packet)) ≡ 256 * residue (wordSum .little packet) [MOD 65535] := by
    generalize residue (wordSum .little packet) = value at bound ⊢
    show (value % 256 * 256 + value / 256) % 65535 = (256 * value) % 65535
    omega
  have same := turned.trans (((residue_modEq (wordSum .little packet)).mul_left 256).trans (wordSum_big packet).symm)
  apply residue_unique same
  · rw [swapped]
    omega
  · rw [show swapped (residue (wordSum .little packet)) = 0 ↔ residue (wordSum .little packet) = 0 by
      rw [swapped]; omega, residue_eq_zero_iff]
    exact ⟨wordSum_eq_zero, wordSum_eq_zero⟩

theorem stored_same (packet : List UInt8) :
    ByteOrder.big.bytes (65535 - residue (wordSum .big packet)) =
      ByteOrder.little.bytes (65535 - residue (wordSum .little packet)) := by
  have bound := residue_le (wordSum .little packet)
  rw [← bytes_swapped (show 65535 - residue (wordSum .little packet) < 65536 by omega), residue_swapped]
  congr 1
  rw [swapped, swapped]
  omega

theorem stored_verifies (reader order : ByteOrder) {before after : List UInt8} (whole : Even before.length)
    (short : before.length + 2 + after.length ≤ 65535) {word : Nat} (small : word < 65536)
    (closes : residue (word + (wordSum order before + wordSum order after)) = 65535) :
    inCksum reader (before ++ (order.bytes word ++ after)) = 0 ∧
      tracerouteInCksum reader (before ++ (order.bytes word ++ after)) = 0 := by
  have fits : (before ++ (order.bytes word ++ after)).length < 2 ^ 17 := by
    rw [List.length_append, List.length_append, bytes_length]
    omega
  have own : residue (wordSum order (before ++ (order.bytes word ++ after))) = 65535 := by
    rw [wordSum_stored order whole small]
    exact closes
  have all : residue (wordSum reader (before ++ (order.bytes word ++ after))) = 65535 := by
    generalize before ++ (order.bytes word ++ after) = packet at own
    have other := residue_swapped packet
    have bound := residue_le (wordSum .little packet)
    rw [swapped] at other
    cases order <;> cases reader <;> omega
  rw [inCksum_eq reader fits, tracerouteInCksum_eq reader fits, all]
  exact ⟨rfl, rfl⟩

theorem wordSum_zeroed (order : ByteOrder) {before : List UInt8} (whole : Even before.length) (after : List UInt8) :
    wordSum order (before ++ ([0, 0] ++ after)) = wordSum order (before ++ after) := by
  rw [← zero_bytes order, wordSum_stored order whole (by omega), wordSum_append order whole, Nat.zero_add]

theorem zeroed_short {before after : List UInt8} (short : before.length + 2 + after.length ≤ 65535) :
    (before ++ ([0, 0] ++ after)).length < 2 ^ 17 := by
  simp only [List.length_append, List.length_cons, List.length_nil]
  omega

theorem checksummed_eq (order : ByteOrder) {before after : List UInt8} (whole : Even before.length)
    (short : before.length + 2 + after.length ≤ 65535) :
    checksummed order before after =
      before ++ (order.bytes (65535 - residue (wordSum order (before ++ after))) ++ after) := by
  rw [checksummed, inCksum_eq order (zeroed_short short), wordSum_zeroed order whole]

theorem tracerouteChecksummed_eq (order : ByteOrder) {before after : List UInt8} (whole : Even before.length)
    (short : before.length + 2 + after.length ≤ 65535) :
    tracerouteChecksummed order before after =
      before ++ (order.bytes (if residue (wordSum order (before ++ after)) = 65535 then 65535
        else 65535 - residue (wordSum order (before ++ after))) ++ after) := by
  have bound := residue_le (wordSum order (before ++ after))
  rw [tracerouteChecksummed, tracerouteInCksum_eq order (zeroed_short short), wordSum_zeroed order whole]
  congr 3
  split_ifs <;> omega

/-- An ICMP message verifies once its checksum is filled in, whichever of the two programs and whichever byte
order of a host did it and does the check, and the bytes sent do not depend on the byte order. -/
theorem checksummed_verifies (order : ByteOrder) {before after : List UInt8} (whole : Even before.length)
    (short : before.length + 2 + after.length ≤ 65535) :
    (∀ reader : ByteOrder, inCksum reader (checksummed order before after) = 0 ∧
      tracerouteInCksum reader (checksummed order before after) = 0 ∧
      inCksum reader (tracerouteChecksummed order before after) = 0 ∧
      tracerouteInCksum reader (tracerouteChecksummed order before after) = 0) ∧
    checksummed .big before after = checksummed .little before after ∧
    tracerouteChecksummed .big before after = tracerouteChecksummed .little before after := by
  refine ⟨fun reader => ?_, ?_, ?_⟩
  · have closes := complement_closes (wordSum order (before ++ after))
    have bound := residue_le (wordSum order (before ++ after))
    rw [checksummed_eq order whole short, tracerouteChecksummed_eq order whole short, ← and_assoc]
    rw [wordSum_append order whole] at closes bound ⊢
    refine ⟨stored_verifies reader order whole short (by omega) closes, ?_⟩
    refine stored_verifies reader order whole short (by split_ifs <;> omega) ?_
    split_ifs with full
    · rw [residue_eq_max_iff] at full ⊢
      omega
    · exact closes
  · rw [checksummed_eq .big whole short, checksummed_eq .little whole short, stored_same]
  · rw [tracerouteChecksummed_eq .big whole short, tracerouteChecksummed_eq .little whole short]
    have turned := residue_swapped (before ++ after)
    have bound := residue_le (wordSum .little (before ++ after))
    by_cases full : residue (wordSum .little (before ++ after)) = 65535
    · rw [if_pos full, if_pos (by rw [turned, full]; rfl)]
      rfl
    · rw [if_neg full, if_neg (by rw [turned, swapped]; omega), stored_same]

theorem checksummed_verifies_echo :
    checksummed .big [8, 0] [0x12, 0x34, 0, 1, 0x61] = checksummed .little [8, 0] [0x12, 0x34, 0, 1, 0x61] :=
  (@checksummed_verifies .big [8, 0] [0x12, 0x34, 0, 1, 0x61] (by decide) (by decide)).2.1

def ZeroWord (first second : UInt8) : Prop := first = 0 ∧ second = 0 ∨ first = 255 ∧ second = 255

theorem word_injective {order : ByteOrder} {first second otherFirst otherSecond : UInt8}
    (same : order.word first second = order.word otherFirst otherSecond) :
    first = otherFirst ∧ second = otherSecond := by
  have := first.toNat_lt
  have := second.toNat_lt
  have := otherFirst.toNat_lt
  have := otherSecond.toNat_lt
  rw [← UInt8.toNat_inj, ← UInt8.toNat_inj]
  cases order <;> simp only [ByteOrder.word] at same <;> omega

theorem word_modEq {order : ByteOrder} {first second otherFirst otherSecond : UInt8}
    (same : order.word first second ≡ order.word otherFirst otherSecond [MOD 65535]) :
    first = otherFirst ∧ second = otherSecond ∨ ZeroWord first second ∧ ZeroWord otherFirst otherSecond := by
  have bound := word_lt order first second
  have otherBound := word_lt order otherFirst otherSecond
  have same : order.word first second % 65535 = order.word otherFirst otherSecond % 65535 := same
  have zero : order.word 0 0 = 0 := by cases order <;> rfl
  have full : order.word 255 255 = 65535 := by cases order <;> rfl
  by_cases equal : order.word first second = order.word otherFirst otherSecond
  · exact .inl (word_injective equal)
  · right
    have either : order.word first second = 0 ∧ order.word otherFirst otherSecond = 65535 ∨
        order.word first second = 65535 ∧ order.word otherFirst otherSecond = 0 := by omega
    rcases either with ⟨one, other⟩ | ⟨one, other⟩
    · exact ⟨.inl (word_injective (one.trans zero.symm)), .inr (word_injective (other.trans full.symm))⟩
    · exact ⟨.inr (word_injective (one.trans full.symm)), .inl (word_injective (other.trans zero.symm))⟩

/-- A packet that verifies for one of the programs no longer does so for either when one of its words is changed, wherever it stands,
unless the word was zero and is zero again. -/
theorem checksum_notices (order : ByteOrder) {before after : List UInt8} {first second newFirst newSecond : UInt8}
    (whole : Even before.length) (short : before.length + 2 + after.length ≤ 65535)
    (valid : inCksum order (before ++ ([first, second] ++ after)) = 0 ∨
      tracerouteInCksum order (before ++ ([first, second] ++ after)) = 0)
    (changed : ¬ (first = newFirst ∧ second = newSecond))
    (counts : ¬ (ZeroWord first second ∧ ZeroWord newFirst newSecond)) :
    inCksum order (before ++ ([newFirst, newSecond] ++ after)) ≠ 0 ∧
      tracerouteInCksum order (before ++ ([newFirst, newSecond] ++ after)) ≠ 0 := by
  have fits : ∀ one other : UInt8, (before ++ ([one, other] ++ after)).length < 2 ^ 17 := by
    intro one other
    simp only [List.length_append, List.length_cons, List.length_nil]
    omega
  have summed : ∀ one other : UInt8, wordSum order (before ++ ([one, other] ++ after)) =
      order.word one other + (wordSum order before + wordSum order after) := by
    intro one other
    rw [wordSum_append order whole, List.cons_append, List.cons_append, wordSum, List.nil_append]
    omega
  have bound := residue_le (wordSum order (before ++ ([first, second] ++ after)))
  rw [inCksum_eq order (fits _ _), tracerouteInCksum_eq order (fits _ _), or_self] at valid
  have closed : residue (wordSum order (before ++ ([first, second] ++ after))) = 65535 := by omega
  rw [summed, residue_eq_max_iff] at closed
  have unequal : residue (wordSum order (before ++ ([newFirst, newSecond] ++ after))) ≠ 65535 := by
    rw [summed, Ne, residue_eq_max_iff]
    rintro ⟨-, again⟩
    have congruent : order.word first second ≡ order.word newFirst newSecond [MOD 65535] :=
      Nat.ModEq.add_right_cancel' (wordSum order before + wordSum order after) (closed.2.trans again.symm)
    rcases word_modEq congruent with same | zeros
    · exact changed same
    · exact counts zeros
  have newBound := residue_le (wordSum order (before ++ ([newFirst, newSecond] ++ after)))
  rw [inCksum_eq order (fits _ _), tracerouteInCksum_eq order (fits _ _)]
  omega

theorem checksum_notices_echo :
    inCksum .little ([8, 0] ++ ([0xe5, 0xca] ++ [0x12, 0x35])) = 0 ∧
      inCksum .little ([8, 0] ++ ([0xe5, 0xcb] ++ [0x12, 0x35])) ≠ 0 :=
  ⟨by decide, (checksum_notices .little (by decide) (by decide) (.inl (by decide : inCksum .little
    ([8, 0] ++ ([0xe5, 0xca] ++ [0x12, 0x35])) = 0)) (by decide) (by
      rintro ⟨zero | zero, _⟩
      · exact absurd zero.1 (by decide)
      · exact absurd zero.1 (by decide))).1⟩

end KcnTools.Ping
