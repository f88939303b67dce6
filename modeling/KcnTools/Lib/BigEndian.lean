import Mathlib

/-! Naturals as big-endian byte strings of a fixed width. -/

namespace KcnTools.BigEndian

def encode : Nat → Nat → List UInt8
  | 0, _ => []
  | width + 1, value => encode width (value / 256) ++ [UInt8.ofNat value]

def decode (bytes : List UInt8) : Nat :=
  bytes.foldl (fun value byte => value * 256 + byte.toNat) 0

@[simp] theorem encode_length (width value : Nat) : (encode width value).length = width := by
  induction width generalizing value with
  | zero => rfl
  | succ width ih => simp [encode, ih]

theorem decode_concat (bytes : List UInt8) (byte : UInt8) :
    decode (bytes ++ [byte]) = decode bytes * 256 + byte.toNat := by
  simp [decode, List.foldl_append]

theorem decode_lt (bytes : List UInt8) : decode bytes < 256 ^ bytes.length := by
  induction bytes using List.reverseRecOn with
  | nil => simp [decode]
  | append_singleton bytes byte ih =>
      have small : byte.toNat < 256 := byte.toNat_lt
      have scaled : (decode bytes + 1) * 256 ≤ 256 ^ bytes.length * 256 :=
        Nat.mul_le_mul_right 256 ih
      rw [decode_concat, List.length_append, List.length_singleton, Nat.pow_succ]
      omega

theorem decode_encode (width value : Nat) : decode (encode width value) = value % 256 ^ width := by
  induction width generalizing value with
  | zero => simp [encode, decode, Nat.mod_one]
  | succ width ih =>
      have digit : (UInt8.ofNat value).toNat = value % 256 := by simp
      rw [encode, decode_concat, ih, digit, Nat.pow_succ, Nat.mul_comm (256 ^ width),
        Nat.mod_mul, Nat.mul_comm 256, Nat.add_comm]

theorem decode_encode_of_lt {width value : Nat} (fits : value < 256 ^ width) :
    decode (encode width value) = value := by
  rw [decode_encode, Nat.mod_eq_of_lt fits]

end KcnTools.BigEndian
