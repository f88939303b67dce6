import KcnTools.Lib.Sextets
import KcnTools.Libwc.Utf7

/-! The shift register of the UTF-7 decoder behind the digits of whole code units:
it gives the units back, the last one as soon as all its bits are there. -/

namespace KcnTools.Libwc

open Sextets

def unitMachine : Transducer Nat Nat Pushed where
  step := utf7Unit
  finish := fun _ => []

theorem base64C_digit : ∀ digit < 64, (utf7Map (base64C digit).toNat = .base64 ∨
    utf7Map (base64C digit).toNat = .plus) ∧ cBase64 (base64C digit).toNat = digit ∧
    base64C digit ≠ 0x2D ∧ base64C digit < 0x80 := by
  decide

theorem utf7Step_digit {state : Utf7State} {r : Utf7Register} (run : state = .plus r ∨ state = .base64 r)
    {digit : Nat} (small : digit < 64) : utf7Step state (base64C digit) = utf7Digit r digit := by
  obtain ⟨map, value, other, _⟩ := base64C_digit digit small
  have inside : utf7InRun state r (base64C digit) = utf7Digit r digit := by
    rw [utf7InRun]
    rcases map with map | map <;> rw [map, value]
  rcases run with rfl | rfl
  · simp only [utf7Step, inside, if_neg other, List.nil_append]
  · exact inside

theorem and_unit {n : Nat} (small : n < 65536) : n &&& 0xFFFF = n := by
  rw [Nat.and_two_pow_sub_one_eq_mod n 16]
  exact Nat.mod_eq_of_lt small

theorem utf7Digit_room (k : Nat) {shift : Int} {base high digit after : Nat} (same : shift = k + 6) (room : 0 < k)
    (multiple : 2 ^ (k + 6) ∣ base) (small : digit < 64) (sum : base + digit * 2 ^ k = after)
    (within : after < 65536) :
    utf7Digit ⟨shift, base, high⟩ digit = (.base64 ⟨k, after, high⟩, []) := by
  subst same sum
  have shifted : (k : Int) + 6 - 6 = k := by omega
  have added : base ||| digit * 2 ^ k = base + digit * 2 ^ k := by
    apply or_add (k + 6) multiple
    rw [Nat.pow_add, Nat.mul_comm]
    exact Nat.mul_lt_mul_of_pos_left small (Nat.two_pow_pos k)
  simp only [utf7Digit, shifted, if_neg (show ¬ (k : Int) ≤ 0 by omega), Int.toNat_natCast, Nat.shiftLeft_eq,
    and_unit (Nat.lt_of_le_of_lt (Nat.le_add_left _ base) within), added]

/-- A digit that fills it: the high bits end a unit, the low ones start the next. -/
theorem utf7Digit_full (k : Nat) {shift : Int} {base high digit unit after : Nat} (same : shift = k) (few : k ≤ 6)
    (multiple : 2 ^ k ∣ base) (small : digit < 64) (whole : base + digit / 2 ^ (6 - k) = unit)
    (low : digit % 2 ^ (6 - k) * 2 ^ (k + 10) = after) :
    utf7Digit ⟨shift, base, high⟩ digit =
      (.base64 ⟨(k : Int) + 10, after, (utf7Unit high unit).1⟩, (utf7Unit high unit).2) := by
  subst same whole low
  have shifted : (k : Int) - 6 + 16 = ((k + 10 : Nat) : Int) := by omega
  have left : (-((k : Int) - 6)).toNat = 6 - k := by omega
  have ended : base ||| digit / 2 ^ (6 - k) = base + digit / 2 ^ (6 - k) := by
    apply or_add k multiple
    rw [Nat.div_lt_iff_lt_mul (Nat.two_pow_pos _), ← Nat.pow_add, show k + (6 - k) = 6 by omega]
    exact small
  have started : (digit <<< (k + 10)) &&& 0xFFFF = digit % 2 ^ (6 - k) * 2 ^ (k + 10) := by
    rw [Nat.shiftLeft_eq, Nat.and_two_pow_sub_one_eq_mod _ 16, Nat.mul_comm, Nat.mul_comm (digit % _),
      show (2 : Nat) ^ 16 = 2 ^ (k + 10) * 2 ^ (6 - k) by rw [← Nat.pow_add]; congr 1; omega,
      Nat.mul_mod_mul_left]
  simp only [utf7Digit, if_pos (show (k : Int) - 6 ≤ 0 by omega), Nat.shiftRight_eq_div_pow, shifted, left,
    Int.toNat_natCast, ended, started]
  simp

/-- The register behind the digits of some units: the unit that is still owed, and
the bits of it that are there. -/
inductive RegisterHolds : Pending → List Nat → Utf7Register → Prop
  | none (high : Nat) : RegisterHolds .none [] ⟨16, 0, high⟩
  | four (unit high : Nat) (small : unit < 65536) :
      RegisterHolds (.four (unit % 16)) [unit] ⟨4, unit / 16 * 16, high⟩
  | two (unit high : Nat) (small : unit < 65536) :
      RegisterHolds (.two (unit % 4)) [unit] ⟨2, unit / 4 * 4, high⟩

def InRun (state : Utf7State) (r : Utf7Register) : Prop := state = .plus r ∨ state = .base64 r

theorem feed_base64C {state : Utf7State} {r : Utf7Register} (run : InRun state r) {digit : Nat} (small : digit < 64)
    (rest : List Nat) :
    utf7Decoder.feed state ((digit :: rest).map base64C) =
      ((utf7Decoder.feed (utf7Digit r digit).1 (rest.map base64C)).1,
        (utf7Digit r digit).2 ++ (utf7Decoder.feed (utf7Digit r digit).1 (rest.map base64C)).2) := by
  have step : utf7Decoder.step state (base64C digit) = utf7Digit r digit := utf7Step_digit run small
  rw [List.map_cons, Transducer.feed_cons, step]

theorem feed_unitDigits {pending : Pending} {owed : List Nat} {r : Utf7Register}
    (holds : RegisterHolds pending owed r) {state : Utf7State} (run : InRun state r) {unit : Nat}
    (small : unit < 65536) :
    ∃ ended owed' r', utf7Decoder.feed state ((unitDigits pending unit).2.map base64C) =
        (.base64 r', (unitMachine.feed r.high ended).2) ∧
      r'.high = (unitMachine.feed r.high ended).1 ∧ ended ++ owed' = owed ++ [unit] ∧
      RegisterHolds (unitDigits pending unit).1 owed' r' := by
  cases holds with
  | none high =>
      have first : utf7Digit ⟨16, 0, high⟩ (unit / 1024) = (.base64 ⟨10, unit / 1024 * 1024, high⟩, []) :=
        utf7Digit_room 10 rfl (by omega) (Nat.dvd_zero _) (by omega) (by omega) (by omega)
      have second : utf7Digit ⟨10, unit / 1024 * 1024, high⟩ (unit / 16 % 64) =
          (.base64 ⟨4, unit / 16 * 16, high⟩, []) :=
        utf7Digit_room 4 rfl (by omega) ⟨unit / 1024, by omega⟩ (by omega) (by omega) (by omega)
      refine ⟨[], [unit], ⟨4, unit / 16 * 16, high⟩, ?_, rfl, rfl, .four unit high small⟩
      rw [unitDigits, feed_base64C run (by omega), first, feed_base64C (.inr rfl) (by omega), second]
      rfl
  | four owing high within =>
      have first : utf7Digit ⟨4, owing / 16 * 16, high⟩ (owing % 16 * 4 + unit / 16384) =
          (.base64 ⟨14, unit / 16384 * 16384, (utf7Unit high owing).1⟩, (utf7Unit high owing).2) :=
        utf7Digit_full 4 rfl (by omega) ⟨owing / 16, by omega⟩ (by omega) (by omega) (by omega)
      have second : utf7Digit ⟨14, unit / 16384 * 16384, (utf7Unit high owing).1⟩ (unit / 256 % 64) =
          (.base64 ⟨8, unit / 256 * 256, (utf7Unit high owing).1⟩, []) :=
        utf7Digit_room 8 rfl (by omega) ⟨unit / 16384, by omega⟩ (by omega) (by omega) (by omega)
      have third : utf7Digit ⟨8, unit / 256 * 256, (utf7Unit high owing).1⟩ (unit / 4 % 64) =
          (.base64 ⟨2, unit / 4 * 4, (utf7Unit high owing).1⟩, []) :=
        utf7Digit_room 2 rfl (by omega) ⟨unit / 256, by omega⟩ (by omega) (by omega) (by omega)
      refine ⟨[owing], [unit], ⟨2, unit / 4 * 4, (utf7Unit high owing).1⟩, ?_, rfl, rfl, .two unit _ small⟩
      rw [unitDigits, feed_base64C run (by omega), first, feed_base64C (.inr rfl) (by omega), second,
        feed_base64C (.inr rfl) (by omega), third]
      simp [unitMachine, Transducer.feed_cons]
  | two owing high within =>
      have first : utf7Digit ⟨2, owing / 4 * 4, high⟩ (owing % 4 * 16 + unit / 4096) =
          (.base64 ⟨12, unit / 4096 * 4096, (utf7Unit high owing).1⟩, (utf7Unit high owing).2) :=
        utf7Digit_full 2 rfl (by omega) ⟨owing / 4, by omega⟩ (by omega) (by omega) (by omega)
      have second : utf7Digit ⟨12, unit / 4096 * 4096, (utf7Unit high owing).1⟩ (unit / 64 % 64) =
          (.base64 ⟨6, unit / 64 * 64, (utf7Unit high owing).1⟩, []) :=
        utf7Digit_room 6 rfl (by omega) ⟨unit / 4096, by omega⟩ (by omega) (by omega) (by omega)
      have third : utf7Digit ⟨6, unit / 64 * 64, (utf7Unit high owing).1⟩ (unit % 64) =
          (.base64 ⟨16, 0, (utf7Unit (utf7Unit high owing).1 unit).1⟩, (utf7Unit (utf7Unit high owing).1 unit).2) :=
        utf7Digit_full 6 rfl (by omega) ⟨unit / 64, by omega⟩ (by omega) (by omega) (by omega)
      refine ⟨[owing, unit], [], ⟨16, 0, (utf7Unit (utf7Unit high owing).1 unit).1⟩, ?_, rfl, rfl, .none _⟩
      rw [unitDigits, feed_base64C run (by omega), first, feed_base64C (.inr rfl) (by omega), second,
        feed_base64C (.inr rfl) (by omega), third]
      simp [unitMachine, Transducer.feed_cons]

theorem feed_digits {pending : Pending} {owed : List Nat} {r : Utf7Register} (holds : RegisterHolds pending owed r)
    {state : Utf7State} (run : InRun state r) {units : List Nat} (small : ∀ unit ∈ units, unit < 65536)
    (begun : state = .base64 r ∨ units ≠ []) :
    ∃ r', utf7Decoder.feed state ((encoder.run pending units).map base64C) =
        (.base64 r', (unitMachine.feed r.high (owed ++ units)).2) ∧ 12 ≤ r'.shift ∧ r'.shift ≤ 16 := by
  induction units generalizing pending owed r state with
  | nil =>
      obtain rfl : state = .base64 r := by simpa using begun
      rw [Transducer.run_nil, List.append_nil]
      cases holds with
      | none high => exact ⟨_, rfl, by simp, by simp⟩
      | four owing high within =>
          have filled : utf7Digit ⟨4, owing / 16 * 16, high⟩ (owing % 16 * 4) =
              (.base64 ⟨14, 0, (utf7Unit high owing).1⟩, (utf7Unit high owing).2) :=
            utf7Digit_full 4 rfl (by omega) ⟨owing / 16, by omega⟩ (by omega) (by omega) (by omega)
          refine ⟨⟨14, 0, (utf7Unit high owing).1⟩, ?_, by simp, by simp⟩
          simp only [encoder, lastDigits]
          rw [feed_base64C run (by omega), filled]
          simp [unitMachine, Transducer.feed_cons]
      | two owing high within =>
          have filled : utf7Digit ⟨2, owing / 4 * 4, high⟩ (owing % 4 * 16) =
              (.base64 ⟨12, 0, (utf7Unit high owing).1⟩, (utf7Unit high owing).2) :=
            utf7Digit_full 2 rfl (by omega) ⟨owing / 4, by omega⟩ (by omega) (by omega) (by omega)
          refine ⟨⟨12, 0, (utf7Unit high owing).1⟩, ?_, by simp, by simp⟩
          simp only [encoder, lastDigits]
          rw [feed_base64C run (by omega), filled]
          simp [unitMachine, Transducer.feed_cons]
  | cons unit rest ih =>
      rw [List.forall_mem_cons] at small
      obtain ⟨ended, owed', r', fed, high, balance, next⟩ := feed_unitDigits holds run small.1
      obtain ⟨r'', later, bounds⟩ := ih next (.inr rfl) small.2 (.inl rfl)
      refine ⟨r'', ?_, bounds⟩
      have reordered : owed ++ unit :: rest = ended ++ (owed' ++ rest) := by
        rw [← List.append_assoc, balance, List.append_assoc, List.singleton_append]
      rw [Transducer.run_cons, List.map_append, Transducer.feed_append,
        show (encoder.step pending unit) = unitDigits pending unit from rfl, fed, later, reordered,
        unitMachine.feed_append r.high ended, high]

end KcnTools.Libwc

/-! UTF-7 texts by their grammar, and which of them the decoder reads as what they
denote: it stays in its run when another character than `-` ends it. -/

namespace KcnTools.Libwc

open Sextets

def IsScalar (c : Nat) : Prop := c ≤ unicodeEnd ∧ ¬ (ucsSurrogate ≤ c ∧ c ≤ ucsSurrogateEnd)

def utf16Units (c : Nat) : List Nat :=
  if c ≤ ucs2End then [c]
  else [ucsSurrogate + (c - 0x10000) / 0x400, ucsSurrogateLow + (c - 0x10000) % 0x400]

def utf16 (chars : List Nat) : List Nat := chars.flatMap utf16Units

def isDirect (byte : UInt8) : Bool :=
  byte == 0x09 || byte == 0x0A || byte == 0x0D || (0x20 ≤ byte && byte ≤ 0x7D && byte != 0x2B && byte != 0x5C)

def isBase64 (byte : UInt8) : Bool :=
  (0x30 ≤ byte && byte ≤ 0x39) || (0x41 ≤ byte && byte ≤ 0x5A) || (0x61 ≤ byte && byte ≤ 0x7A) ||
    byte == 0x2B || byte == 0x2F

/-- What a text is made of. A run that is not closed by `-` is ended by what follows it. -/
inductive Utf7Item where
  | direct (byte : UInt8)
  | plus
  | run (chars : List Nat) (closed : Bool)
  deriving DecidableEq

namespace Utf7Item

def bytes : Utf7Item → List UInt8
  | direct byte => [byte]
  | plus => [0x2B, 0x2D]
  | run chars closed => 0x2B :: ((digits (utf16 chars)).map base64C ++ (if closed then [0x2D] else []))

def chars : Utf7Item → List Nat
  | direct byte => [byte.toNat]
  | plus => [0x2B]
  | run chars _ => chars.filter (· ≠ ucsBom)

def Valid : Utf7Item → Prop
  | direct byte => isDirect byte = true
  | plus => True
  | run chars _ => chars ≠ [] ∧ ∀ c ∈ chars, IsScalar c

def isOpen : Utf7Item → Bool
  | run _ false => true
  | _ => false

def endsRun : Utf7Item → Bool
  | direct byte => !isBase64 byte && byte != 0x2D
  | _ => false

def passes : Utf7Item → Bool
  | direct byte => !isBase64 byte && byte != 0x2D && byte != 0x40
  | _ => false

def IsDirect (item : Utf7Item) : Prop := ∃ byte, item = direct byte

end Utf7Item

structure Utf7WellFormed (text : List Utf7Item) : Prop where
  valid : ∀ item ∈ text, item.Valid
  ended : text.IsChain fun item next => item.isOpen = true → next.endsRun = true

def utf7Bytes (text : List Utf7Item) : List UInt8 := text.flatMap Utf7Item.bytes

def utf7Chars (text : List Utf7Item) : List Nat := text.flatMap Utf7Item.chars

def Utf7Decoded (text : List Utf7Item) : Prop :=
  (utf7Pushed (utf7Bytes text)).map Pushed.char = (utf7Chars text).map some

instance (text : List Utf7Item) : Decidable (Utf7Decoded text) := by
  unfold Utf7Decoded
  infer_instance

/-- Behind a run that another character than `-` ended there is nothing that the
decoder would take for a part of the run. -/
def Utf7Settled (text : List Utf7Item) : Prop :=
  text.Pairwise fun item later => item.isOpen = true → later.passes = true

def DirectBehind (text : List Utf7Item) : Prop :=
  text.Pairwise fun item later => item.isOpen = true → later.IsDirect

section Characters

theorem utf7Unit_other {high unit : Nat} (other : ¬ (ucsSurrogate ≤ unit ∧ unit ≤ ucsSurrogateEnd)) :
    utf7Unit high unit = (high, if unit ≠ ucsBom then [.ucs unit] else []) := by
  have low : ucsSurrogate < ucsSurrogateLow ∧ ucsSurrogateLow < ucsSurrogateEnd := by decide
  rw [utf7Unit, if_neg (by omega), if_neg (by omega)]

theorem utf16ToUcs_pair {c : Nat} (small : c < 0x100000) :
    utf16ToUcs (ucsSurrogate + c / 0x400) (ucsSurrogateLow + c % 0x400) = c + 0x10000 := by
  have first : (ucsSurrogate + c / 0x400) &&& 0x3FF = c / 0x400 := by
    rw [Nat.and_two_pow_sub_one_eq_mod _ 10, ucsSurrogate]
    omega
  have second : (ucsSurrogateLow + c % 0x400) &&& 0x3FF = c % 0x400 := by
    rw [Nat.and_two_pow_sub_one_eq_mod _ 10, ucsSurrogateLow]
    omega
  have joined : (c / 0x400) <<< 10 ||| c % 0x400 = c := by
    rw [← Nat.shiftLeft_add_eq_or_of_lt (Nat.mod_lt c (by omega)), Nat.shiftLeft_eq]
    omega
  rw [utf16ToUcs, first, second, joined]

theorem feed_utf16Units {c : Nat} (scalar : IsScalar c) :
    unitMachine.feed 0 (utf16Units c) = (0, if c ≠ ucsBom then [.ucs c] else []) := by
  obtain ⟨bounded, single⟩ := scalar
  by_cases plane0 : c ≤ ucs2End
  · rw [utf16Units, if_pos plane0]
    simp [Transducer.feed_cons, unitMachine, utf7Unit_other single]
  · have above : 0xFFFF < c ∧ c ≤ 0x10FFFF := ⟨Nat.lt_of_not_le plane0, bounded⟩
    obtain ⟨d, rfl⟩ : ∃ d, c = d + 0x10000 := ⟨c - 0x10000, by omega⟩
    have waits : utf7Unit 0 (ucsSurrogate + d / 0x400) = (ucsSurrogate + d / 0x400, []) := by
      rw [utf7Unit, if_pos ⟨Nat.le_add_right _ _, by simp only [ucsSurrogate, ucsSurrogateLow]; omega⟩]
      rfl
    have paired : utf7Unit (ucsSurrogate + d / 0x400) (ucsSurrogateLow + d % 0x400) =
        (0, [.ucs (d + 0x10000)]) := by
      rw [utf7Unit, if_neg (by omega), if_pos ⟨Nat.le_add_right _ _, by
        simp only [ucsSurrogateLow, ucsSurrogateEnd]; omega⟩, if_pos (by simp only [ucsSurrogate]; omega),
        utf16ToUcs_pair (by omega)]
    have other : d + 0x10000 ≠ ucsBom := by
      simp only [ucsBom]
      omega
    rw [utf16Units, if_neg plane0, Nat.add_sub_cancel, if_pos other, Transducer.feed_cons, Transducer.feed_cons]
    simp only [unitMachine, waits, paired]
    rfl

theorem feed_utf16 {chars : List Nat} (scalars : ∀ c ∈ chars, IsScalar c) :
    unitMachine.feed 0 (utf16 chars) = (0, (chars.filter (· ≠ ucsBom)).map .ucs) := by
  have pieces := unitMachine.feed_pieces utf16Units (fun c => if c ≠ ucsBom then [.ucs c] else [])
    chars (fun c member => feed_utf16Units (scalars c member))
  rw [utf16, pieces]
  congr 1
  induction chars with
  | nil => rfl
  | cons c rest ih =>
      rw [List.flatMap_cons, ih (fun c member => scalars c (List.mem_cons_of_mem _ member)) (by
        simpa using unitMachine.feed_pieces utf16Units (fun c => if c ≠ ucsBom then [.ucs c] else [])
          rest (fun c member => feed_utf16Units (scalars c (List.mem_cons_of_mem _ member))))]
      by_cases mark : c = ucsBom <;> simp [mark]

theorem utf16_small {chars : List Nat} (scalars : ∀ c ∈ chars, IsScalar c) :
    ∀ unit ∈ utf16 chars, unit < 65536 := by
  rintro unit member
  obtain ⟨c, among, inside⟩ := List.mem_flatMap.mp member
  have bounded : c ≤ 0x10FFFF := (scalars c among).1
  by_cases plane0 : c ≤ ucs2End
  · rw [utf16Units, if_pos plane0, List.mem_singleton] at inside
    rw [ucs2End] at plane0
    omega
  · rw [utf16Units, if_neg plane0] at inside
    simp only [List.mem_cons, List.not_mem_nil, or_false, ucsSurrogate, ucsSurrogateLow] at inside
    omega

end Characters

end KcnTools.Libwc
