import Mathlib.Data.Nat.Digits.Defs

/-! Decimal numerals as bytes, most significant digit first. -/

namespace KcnTools.Decimal

def decimal (n : Nat) : List UInt8 :=
  if n = 0 then [48] else (Nat.digits 10 n).reverse.map fun digit => UInt8.ofNat (48 + digit)

def decimalValue (digits : List UInt8) : Nat :=
  digits.foldl (fun value c => 10 * value + (c.toNat - 48)) 0

theorem toNat_digit {digit : Nat} (small : digit < 10) : (UInt8.ofNat (48 + digit)).toNat = 48 + digit := by
  rw [UInt8.toNat_ofNat']
  exact Nat.mod_eq_of_lt (by omega)

theorem decimal_digits {n : Nat} {c : UInt8} (member : c ∈ decimal n) : 48 ≤ c.toNat ∧ c.toNat ≤ 57 := by
  rw [decimal] at member
  split at member
  · rw [List.mem_singleton] at member
    subst member
    decide
  · obtain ⟨digit, inside, rfl⟩ := List.mem_map.mp member
    have small := Nat.digits_lt_base (by decide : 1 < 10) (List.mem_reverse.mp inside)
    rw [toNat_digit small]
    omega

theorem decimal_ne_nil (n : Nat) : decimal n ≠ [] := by
  rw [decimal]
  split
  · exact List.cons_ne_nil _ _
  next positive =>
    intro nothing
    rw [List.map_eq_nil_iff, List.reverse_eq_nil_iff, Nat.digits_eq_nil_iff_eq_zero] at nothing
    exact positive nothing

theorem decimal_of_lt {n : Nat} (small : n < 10) : decimal n = [UInt8.ofNat (48 + n)] := by
  rw [decimal]
  split
  next zero =>
    subst zero
    rfl
  next positive => rw [Nat.digits_of_lt 10 n positive small, List.reverse_singleton, List.map_singleton]

theorem decimal_append {n : Nat} (large : 10 ≤ n) :
    decimal n = decimal (n / 10) ++ [UInt8.ofNat (48 + n % 10)] := by
  rw [decimal, if_neg (by omega), decimal, if_neg (by omega), Nat.digits_def' (by decide) (by omega),
    List.reverse_cons, List.map_append, List.map_singleton]

theorem decimal_length_le {n k : Nat} (small : n < 10 ^ (k + 1)) : (decimal n).length ≤ k + 1 := by
  induction k generalizing n with
  | zero => rw [decimal_of_lt small, List.length_singleton]
  | succ k ih =>
      by_cases large : 10 ≤ n
      · have fewer := ih (Nat.div_lt_of_lt_mul (by rwa [Nat.mul_comm, ← Nat.pow_succ]) : n / 10 < 10 ^ (k + 1))
        rw [decimal_append large, List.length_append, List.length_singleton]
        omega
      · rw [decimal_of_lt (by omega), List.length_singleton]
        omega

theorem le_decimal_length {n k : Nat} (large : 10 ^ k ≤ n) : k < (decimal n).length := by
  induction k generalizing n with
  | zero => exact List.length_pos_iff.mpr (decimal_ne_nil n)
  | succ k ih =>
      have positive : 0 < 10 ^ k := Nat.pow_pos (by decide)
      have most := ih ((Nat.le_div_iff_mul_le (by decide)).mpr (Nat.pow_succ .. ▸ large))
      rw [Nat.pow_succ] at large
      rw [decimal_append (by omega), List.length_append, List.length_singleton]
      omega

theorem decimalValue_digits {digits : List Nat} (small : ∀ digit ∈ digits, digit < 10) :
    decimalValue (digits.reverse.map fun digit => UInt8.ofNat (48 + digit)) = Nat.ofDigits 10 digits := by
  induction digits with
  | nil => rfl
  | cons digit digits ih =>
      rw [List.forall_mem_cons] at small
      have rest := ih small.2
      rw [decimalValue] at rest ⊢
      rw [List.reverse_cons, List.map_append, List.foldl_append, rest, Nat.ofDigits_cons]
      simp only [List.map_cons, List.map_nil, List.foldl_cons, List.foldl_nil, toNat_digit small.1]
      omega

theorem decimalValue_decimal (n : Nat) : decimalValue (decimal n) = n := by
  rw [decimal]
  split
  next zero =>
    subst zero
    rfl
  next =>
    rw [decimalValue_digits fun digit inside => Nat.digits_lt_base (by decide) inside]
    exact Nat.ofDigits_digits 10 n

end KcnTools.Decimal
