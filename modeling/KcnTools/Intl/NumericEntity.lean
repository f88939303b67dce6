import Mathlib.Data.List.Induction
import Mathlib.Tactic.IntervalCases
import KcnTools.Intl.EntityCacheRuns
import KcnTools.Lib.Decimal

/-!
Which number a numeric entity stands for. The value of a decimal one is checked only behind the
addition, so ten digits can leave the 32 bits before the check.
-/

namespace KcnTools.Intl

open Protocols KcnTools.Decimal

variable {tables : CharsetTables} {qsort : List EntityCacheEntry → List EntityCacheEntry}

def isDecimal (digits : List UInt8) : Prop := digits ≠ [] ∧ ∀ c ∈ digits, isdigit c = true

def isHexadecimal (digits : List UInt8) : Prop := digits ≠ [] ∧ ∀ c ∈ digits, isxdigit c = true

def hexDigit (c : UInt8) : Nat := if isdigit c then c.toNat - 48 else (c ||| 32).toNat - 87

def hexadecimalValue (digits : List UInt8) : Nat := digits.foldl (fun value c => 16 * value + hexDigit c) 0

def numberString (tables : CharsetTables) (encoding limit count value : Nat) : Option (List UInt8) :=
  if count ≤ limit ∧ value < 2 ^ 32 - 1 then u2cp tables value encoding else none

/-! Decimal digits. -/

theorem isdigit_bounds {c : UInt8} (digit : isdigit c = true) : 48 ≤ c.toNat ∧ c.toNat ≤ 57 := by
  simp only [isdigit, Bool.and_eq_true, decide_eq_true_eq, UInt8.le_iff_toNat_le] at digit
  exact digit

theorem decimalValue_append (digits : List UInt8) (c : UInt8) :
    decimalValue (digits ++ [c]) = 10 * decimalValue digits + (c.toNat - 48) := by
  rw [decimalValue, List.foldl_append]
  rfl

theorem decimalValue_lt {digits : List UInt8} (decimal : ∀ c ∈ digits, isdigit c = true) :
    decimalValue digits < 10 ^ digits.length := by
  induction digits using List.reverseRecOn with
  | nil => exact Nat.one_pos
  | append_singleton digits c ih =>
      have shorter := ih fun d member => decimal d (List.mem_append_left _ member)
      have bounds := isdigit_bounds (decimal c (List.mem_append_right _ List.mem_cons_self))
      rw [decimalValue_append, List.length_append, List.length_singleton, Nat.pow_succ]
      omega

theorem decimalEntity_append (digits : List UInt8) (c : UInt8) (n : Nat) :
    decimalEntity (digits ++ [c]) n = (decimalEntity digits n).bind fun value => decimalEntity [c] value := by
  induction digits generalizing n with
  | nil => rfl
  | cons d digits ih =>
      rw [List.cons_append, decimalEntity, decimalEntity]
      split
      · dsimp only
        split
        · rfl
        · exact ih _
      · rfl

theorem decimalEntity_digit {c : UInt8} (digit : isdigit c = true) (n : Nat) :
    decimalEntity [c] n =
      let value := (10 * n + (c.toNat - 48)) % 2 ^ 32
      if value = 2 ^ 32 - 1 then none else some value := by
  have range : (10 * n + (c.toNat - 48)) % 2 ^ 32 < 2 ^ 32 := Nat.mod_lt _ (by decide)
  rw [decimalEntity, if_pos digit, Nat.mul_comm n 10]
  dsimp only
  by_cases last : (10 * n + (c.toNat - 48)) % 2 ^ 32 = 2 ^ 32 - 1
  · rw [if_pos last, if_pos (by omega)]
  · rw [if_neg last, if_neg (by omega)]
    rfl

theorem decimalEntity_below {digits : List UInt8} (decimal : ∀ c ∈ digits, isdigit c = true)
    (below : decimalValue digits < 2 ^ 32 - 1) : decimalEntity digits 0 = some (decimalValue digits) := by
  induction digits using List.reverseRecOn with
  | nil => rfl
  | append_singleton digits c ih =>
      have digit := decimal c (List.mem_append_right _ List.mem_cons_self)
      rw [decimalValue_append] at below ⊢
      rw [decimalEntity_append, ih (fun d member => decimal d (List.mem_append_left _ member)) (by omega),
        Option.bind_some, decimalEntity_digit digit, Nat.mod_eq_of_lt (by omega), if_neg (by omega)]

theorem decimalEntity_ten {digits : List UInt8} (decimal : isDecimal digits) (short : digits.length ≤ 10) :
    decimalEntity digits 0 =
      let value := decimalValue digits % 2 ^ 32
      if value = 2 ^ 32 - 1 then none else some value := by
  obtain ⟨digits, c, rfl⟩ : ∃ first c, digits = first ++ [c] := by
    rcases List.eq_nil_or_concat digits with nothing | ⟨first, c, rfl⟩
    · exact absurd nothing decimal.1
    · exact ⟨first, c, List.concat_eq_append⟩
  have first := fun d member => decimal.2 d (List.mem_append_left _ member)
  have digit := decimal.2 c (List.mem_append_right _ List.mem_cons_self)
  rw [List.length_append, List.length_singleton] at short
  have small : decimalValue digits < 10 ^ 9 :=
    Nat.lt_of_lt_of_le (decimalValue_lt first) (Nat.pow_le_pow_right (by decide) (by omega))
  rw [decimalEntity_append, decimalEntity_below first (by omega), Option.bind_some, decimalEntity_digit digit,
    decimalValue_append]

/-! Hexadecimal digits. -/

theorem hexadecimalValue_append (digits : List UInt8) (c : UInt8) :
    hexadecimalValue (digits ++ [c]) = 16 * hexadecimalValue digits + hexDigit c := by
  rw [hexadecimalValue, List.foldl_append]
  rfl

theorem hexDigit_spec {c : UInt8} (digit : isxdigit c = true) :
    hexDigit c < 16 ∧
      (if isdigit (c ||| 32) then some ((c ||| 32).toNat - 48)
        else if isxdigit (c ||| 32) then some ((c ||| 32).toNat - 97 + 10) else none) = some (hexDigit c) := by
  simp only [isxdigit, isdigit, Bool.or_eq_true, Bool.and_eq_true, decide_eq_true_eq,
    UInt8.le_iff_toNat_le] at digit
  rw [← UInt8.ofNat_toNat (x := c)]
  generalize c.toNat = n at digit
  rcases digit with (⟨low, high⟩ | ⟨low, high⟩) | ⟨low, high⟩
  · change 48 ≤ n at low
    change n ≤ 57 at high
    interval_cases n <;> decide
  · change 65 ≤ n at low
    change n ≤ 70 at high
    interval_cases n <;> decide
  · change 97 ≤ n at low
    change n ≤ 102 at high
    interval_cases n <;> decide

theorem hexValue_append {digits : List UInt8} {c : UInt8} (digit : isxdigit c = true) (n : Nat) :
    hexValue (digits ++ [c]) n =
      (hexValue digits n).map fun value => (value * 16 % 2 ^ 32) ||| hexDigit c := by
  induction digits generalizing n with
  | nil =>
      have spec := (hexDigit_spec digit).2
      rw [List.nil_append, hexValue, hexValue]
      split at spec
      · rw [if_pos (by assumption), Option.some.inj spec]
        rfl
      · rw [if_neg (by assumption)]
        split at spec
        · rw [if_pos (by assumption), Option.some.inj spec]
          rfl
        · cases spec
  | cons d digits ih =>
      rw [List.cons_append, hexValue, hexValue]
      split
      · exact ih _
      · split
        · exact ih _
        · rfl

theorem hexValue_eight {digits : List UInt8} (hexadecimal : ∀ c ∈ digits, isxdigit c = true)
    (short : digits.length ≤ 8) :
    hexValue digits 0 = some (hexadecimalValue digits) ∧ hexadecimalValue digits < 16 ^ digits.length := by
  induction digits using List.reverseRecOn with
  | nil => exact ⟨rfl, Nat.one_pos⟩
  | append_singleton digits c ih =>
      have digit := hexadecimal c (List.mem_append_right _ List.mem_cons_self)
      have small := (hexDigit_spec digit).1
      rw [List.length_append, List.length_singleton] at short
      obtain ⟨value, bound⟩ := ih (fun d member => hexadecimal d (List.mem_append_left _ member)) (by omega)
      have fits : hexadecimalValue digits < 2 ^ 28 :=
        Nat.lt_of_lt_of_le bound (Nat.pow_le_pow_right (by decide) (show digits.length ≤ 7 by omega))
      rw [hexValue_append digit, value, hexadecimalValue_append, List.length_append, List.length_singleton,
        Nat.pow_succ]
      constructor
      · rw [Option.map_some, Nat.mod_eq_of_lt (by omega), Nat.mul_comm _ 16]
        rw [show 16 * hexadecimalValue digits = 2 ^ 4 * hexadecimalValue digits from rfl,
          ← Nat.two_pow_add_eq_or_of_lt (by omega)]
      · omega

/-! The entities. -/

theorem numericEntity_decimal {digits : List UInt8} (decimal : isDecimal digits) :
    numericEntity digits = if digits.length ≤ 10 then decimalEntity digits 0 else none := by
  obtain ⟨nonempty, digit⟩ := decimal
  cases digits with
  | nil => exact absurd rfl nonempty
  | cons c rest =>
      have bounds := isdigit_bounds (digit c List.mem_cons_self)
      have notX : c ||| 32 ≠ 120 := by
        rw [← UInt8.ofNat_toNat (x := c)]
        generalize c.toNat = n at bounds
        obtain ⟨low, high⟩ := bounds
        interval_cases n <;> decide
      rw [numericEntity, if_neg notX, List.length_cons]
      split
      · rw [if_neg (by omega)]
      · rw [if_pos (by omega)]

theorem numericEntity_hexadecimal {digits : List UInt8} (nonempty : digits ≠ []) {x : UInt8}
    (marks : x ||| 32 = 120) :
    numericEntity (x :: digits) = if digits.length ≤ 8 then hexValue digits 0 else none := by
  have filled : digits.isEmpty = false := by
    cases digits with
    | nil => exact absurd rfl nonempty
    | cons => rfl
  rw [numericEntity, if_pos marks, filled]
  split
  · rw [if_neg (by simp at *; omega)]
  · rw [if_pos (by simp at *; omega)]

theorem u2cp_last (tables : CharsetTables) (encoding : Nat) : u2cp tables (2 ^ 32 - 1) encoding ≠ none := by
  rw [u2cp, if_neg (by decide), u2cpPlain, if_neg (by decide), if_neg (by decide), if_neg (by decide)]
  split
  · simp
  · split <;> simp

/-- A decimal entity stands for its number unless it is too large in ten digits, and a hexadecimal
one unless it is the largest number. -/
theorem getEntityString_numeric_iff (tables : CharsetTables)
    (qsort : List EntityCacheEntry → List EntityCacheEntry) (encoding : Nat) (digits : List UInt8) :
    (isDecimal digits →
      ((getEntityString tables qsort emptyEntityCache (35 :: digits) encoding).2 =
          numberString tables encoding 10 digits.length (decimalValue digits) ↔
        10 < digits.length ∨ decimalValue digits < 2 ^ 32 - 1 ∨
          decimalValue digits % 2 ^ 32 = 2 ^ 32 - 1 ∨
          u2cp tables (decimalValue digits % 2 ^ 32) encoding = none)) ∧
    (isHexadecimal digits →
      ((getEntityString tables qsort emptyEntityCache (35 :: 120 :: digits) encoding).2 =
          numberString tables encoding 8 digits.length (hexadecimalValue digits) ↔
        8 < digits.length ∨ hexadecimalValue digits ≠ 2 ^ 32 - 1)) := by
  constructor
  · intro decimal
    rw [getEntityString_empty tables qsort encoding (by simp), entityString, numericEntity_decimal decimal,
      numberString]
    by_cases short : digits.length ≤ 10
    · rw [if_pos short, decimalEntity_ten decimal short]
      dsimp only
      by_cases below : decimalValue digits < 2 ^ 32 - 1
      · rw [Nat.mod_eq_of_lt (by omega), if_neg (by omega), if_pos ⟨short, below⟩]
        exact iff_of_true rfl (.inr (.inl below))
      · by_cases last : decimalValue digits % 2 ^ 32 = 2 ^ 32 - 1
        · rw [if_pos last, if_neg fun both => below both.2]
          exact iff_of_true rfl (.inr (.inr (.inl last)))
        · rw [if_neg last, Option.bind_some, if_neg fun both => below both.2]
          constructor
          · exact fun nothing => .inr (.inr (.inr nothing))
          · rintro (long | small | same | nothing)
            · omega
            · exact absurd small below
            · exact absurd same last
            · exact nothing
    · rw [if_neg short, if_neg fun both => short both.1]
      exact iff_of_true rfl (.inl (by omega))
  · intro hexadecimal
    rw [getEntityString_empty tables qsort encoding (by simp), entityString,
      numericEntity_hexadecimal hexadecimal.1 rfl, numberString]
    by_cases short : digits.length ≤ 8
    · obtain ⟨value, bound⟩ := hexValue_eight hexadecimal.2 short
      have fits : hexadecimalValue digits < 2 ^ 32 :=
        Nat.lt_of_lt_of_le bound (Nat.pow_le_pow_right (by decide) short)
      rw [if_pos short, value, Option.bind_some]
      by_cases last : hexadecimalValue digits = 2 ^ 32 - 1
      · rw [if_neg fun both => absurd both.2 (by omega), last]
        constructor
        · exact fun nothing => absurd nothing (u2cp_last tables encoding)
        · rintro (long | other)
          · omega
          · exact absurd rfl other
      · rw [if_pos ⟨short, by omega⟩]
        exact iff_of_true rfl (.inr last)
    · rw [if_neg short, if_neg fun both => short both.1]
      exact iff_of_true rfl (.inl (by omega))

/-- `&#4294967361;` is `A`. -/
theorem getEntityString_wraps :
    decimalValue (ascii ['4', '2', '9', '4', '9', '6', '7', '3', '6', '1']) = 2 ^ 32 + 65 ∧
      (getEntityString noTables sortByHits emptyEntityCache
        (ascii ['#', '4', '2', '9', '4', '9', '6', '7', '3', '6', '1']) 0).2 = some [65] ∧
      (getEntityString noTables sortByHits emptyEntityCache (ascii ['#', '6', '5']) 0).2 = some [65] := by
  decide +kernel

end KcnTools.Intl
