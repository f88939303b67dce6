import KcnTools.Intl.ConvertString
import Mathlib

/-!
Translation tables from UTF-8: `encode_utf_8`, `new_translation_table` and `add_utf_8` of
`intl/charsets.c`. A code point leads from byte to byte through tables that grow as needed.
-/

namespace KcnTools.Intl

def utf8Byte (mark mask value : Nat) : UInt8 := UInt8.ofNat (mark ||| (value &&& mask))

def encodeUtf8 (u : Nat) : List UInt8 :=
  if u < 0x80 then [UInt8.ofNat u]
  else if u < 0x800 then [utf8Byte 0xc0 0x1f (u >>> 6), utf8Byte 0x80 0x3f u]
  else if u < 0x10000 then [utf8Byte 0xe0 0x0f (u >>> 12), utf8Byte 0x80 0x3f (u >>> 6), utf8Byte 0x80 0x3f u]
  else if u < 0x200000 then
    [utf8Byte 0xf0 0x0f (u >>> 18), utf8Byte 0x80 0x3f (u >>> 12), utf8Byte 0x80 0x3f (u >>> 6), utf8Byte 0x80 0x3f u]
  else if u < 0x4000000 then
    [utf8Byte 0xf8 0x0f (u >>> 24), utf8Byte 0x80 0x3f (u >>> 18), utf8Byte 0x80 0x3f (u >>> 12),
      utf8Byte 0x80 0x3f (u >>> 6), utf8Byte 0x80 0x3f u]
  else
    [utf8Byte 0xfc 0x01 (u >>> 30), utf8Byte 0x80 0x3f (u >>> 24), utf8Byte 0x80 0x3f (u >>> 18),
      utf8Byte 0x80 0x3f (u >>> 12), utf8Byte 0x80 0x3f (u >>> 6), utf8Byte 0x80 0x3f u]

def newTranslationTable : ConvTable := fun c => if c < 128 then .str (some (byteString c)) else .str none

def updateEntry (table : ConvTable) (c : UInt8) (entry : ConvEntry) : ConvTable :=
  fun other => if other = c then entry else table other

/-- The entry of a byte when `rest` follows it; `none` is a failed assertion. -/
def addEntry (str : Option (List UInt8)) : List UInt8 → ConvEntry → Option ConvEntry
  | [], .tbl _ => none
  | [], .str none => some (.str str)
  | [], .str (some old) => some (.str (some old))
  | c :: rest, .tbl table => (addEntry str rest (table c)).map fun entry => .tbl (updateEntry table c entry)
  | c :: rest, .str none =>
      (addEntry str rest (newTranslationTable c)).map fun entry => .tbl (updateEntry newTranslationTable c entry)
  | _ :: _, .str (some _) => none

def addUtf8 (table : ConvTable) (u : Nat) (str : Option (List UInt8)) : Option ConvTable :=
  match encodeUtf8 u with
  | [] => some table
  | c :: rest => (addEntry str rest (table c)).map (updateEntry table c)

def addAll (table : ConvTable) (calls : List (Nat × Option (List UInt8))) : Option ConvTable :=
  calls.foldlM (fun table call => addUtf8 table call.1 call.2) table

/-! The encoding. -/

def following (c : UInt8) : Nat :=
  if c < 0xc0 then 0
  else if c < 0xe0 then 1
  else if c < 0xf0 then 2
  else if c < 0xf8 then 3
  else if c < 0xfc then 4
  else if c < 0xfe then 5
  else 0

def isContinuation (c : UInt8) : Prop := 0x80 ≤ c ∧ c < 0xc0

def Encodable (u : Nat) : Prop := 0x80 ≤ u ∧ u < 2 ^ 31

theorem utf8Byte_toNat {bits high value : Nat} (byte : 2 ^ bits * high + 2 ^ bits ≤ 256) :
    (utf8Byte (2 ^ bits * high) (2 ^ bits - 1) value).toNat = 2 ^ bits * high + value % 2 ^ bits := by
  have small := Nat.mod_lt value (Nat.two_pow_pos bits)
  rw [utf8Byte, Nat.and_two_pow_sub_one_eq_mod, ← Nat.two_pow_add_eq_or_of_lt small, UInt8.toNat_ofNat',
    Nat.mod_eq_of_lt (by omega)]

theorem continuation_toNat (value : Nat) : (utf8Byte 0x80 0x3f value).toNat = 128 + value % 64 :=
  @utf8Byte_toNat 6 2 value (by decide)

theorem isContinuation_byte (value : Nat) : isContinuation (utf8Byte 0x80 0x3f value) := by
  have byte := continuation_toNat value
  constructor
  · rw [UInt8.le_iff_toNat_le, byte]
    exact Nat.le_add_right 128 _
  · rw [UInt8.lt_iff_toNat_lt, byte]
    have small := Nat.mod_lt value (by decide : 0 < 64)
    show 128 + value % 64 < 192
    omega

def utf8Tail (count u : Nat) : List UInt8 := (List.range count).reverse.map fun i => utf8Byte 0x80 0x3f (u >>> (6 * i))

theorem utf8Tail_succ (count u : Nat) :
    utf8Tail (count + 1) u = utf8Byte 0x80 0x3f (u >>> (6 * count)) :: utf8Tail count u := by
  rw [utf8Tail, List.range_succ, List.reverse_append, List.reverse_singleton, List.singleton_append, List.map_cons,
    utf8Tail]

theorem utf8Tail_length (count u : Nat) : (utf8Tail count u).length = count := by
  rw [utf8Tail, List.length_map, List.length_reverse, List.length_range]

theorem isContinuation_tail {count u : Nat} {c : UInt8} (member : c ∈ utf8Tail count u) : isContinuation c := by
  obtain ⟨i, -, rfl⟩ := List.mem_map.mp member
  exact isContinuation_byte _

theorem shiftRight_six (u count : Nat) : u >>> (6 * count) = u / 64 ^ count := by
  rw [Nat.shiftRight_eq_div_pow, Nat.pow_mul]

theorem utf8Tail_inj {count u v : Nat} (same : utf8Tail count u = utf8Tail count v) :
    u % 64 ^ count = v % 64 ^ count := by
  induction count with
  | zero => rw [Nat.pow_zero, Nat.mod_one, Nat.mod_one]
  | succ count ih =>
      rw [utf8Tail_succ, utf8Tail_succ, List.cons.injEq] at same
      have first := congrArg UInt8.toNat same.1
      rw [continuation_toNat, continuation_toNat, shiftRight_six, shiftRight_six] at first
      rw [Nat.mod_pow_succ, Nat.mod_pow_succ, ih same.2, Nat.add_left_cancel first]

def leadMark : Nat → Nat
  | 1 => 192
  | 2 => 224
  | 3 => 240
  | 4 => 248
  | _ => 252

/-- The lead byte says how many bytes follow and holds the upper bits. -/
structure Encoded (u : Nat) (lead : UInt8) (count : Nat) : Prop where
  bytes : encodeUtf8 u = lead :: utf8Tail count u
  several : 0 < count
  follows : following lead = count
  upper : lead.toNat = leadMark count + u / 64 ^ count

theorem following_toNat (c : UInt8) :
    following c =
      if c.toNat < 192 then 0
      else if c.toNat < 224 then 1
      else if c.toNat < 240 then 2
      else if c.toNat < 248 then 3
      else if c.toNat < 252 then 4
      else if c.toNat < 254 then 5
      else 0 := by
  simp only [following, UInt8.lt_iff_toNat_lt]
  rfl

theorem encodeUtf8_spec {u : Nat} (encodable : Encodable u) : ∃ lead count, Encoded u lead count := by
  obtain ⟨large, small⟩ := encodable
  by_cases two : u < 0x800
  · have upper : (utf8Byte 0xc0 0x1f (u >>> 6)).toNat = 192 + u / 64 := by
      have byte : (utf8Byte 0xc0 0x1f (u >>> 6)).toNat = 192 + (u >>> 6) % 32 :=
        @utf8Byte_toNat 5 6 (u >>> 6) (by decide)
      rw [byte, Nat.shiftRight_eq_div_pow]
      omega
    refine ⟨_, 1, ?_, by decide, ?_, upper⟩
    · rw [encodeUtf8, if_neg (by omega), if_pos two]
      rfl
    · rw [following_toNat, upper, if_neg (by omega), if_pos (by omega)]
  by_cases three : u < 0x10000
  · have upper : (utf8Byte 0xe0 0x0f (u >>> 12)).toNat = 224 + u / 64 ^ 2 := by
      have byte : (utf8Byte 0xe0 0x0f (u >>> 12)).toNat = 224 + (u >>> 12) % 16 :=
        @utf8Byte_toNat 4 14 (u >>> 12) (by decide)
      rw [byte, Nat.shiftRight_eq_div_pow]
      omega
    refine ⟨_, 2, ?_, by decide, ?_, upper⟩
    · rw [encodeUtf8, if_neg (by omega), if_neg two, if_pos three]
      rfl
    · rw [following_toNat, upper, if_neg (by omega), if_neg (by omega), if_pos (by omega)]
  by_cases four : u < 0x200000
  · have upper : (utf8Byte 0xf0 0x0f (u >>> 18)).toNat = 240 + u / 64 ^ 3 := by
      have byte : (utf8Byte 0xf0 0x0f (u >>> 18)).toNat = 240 + (u >>> 18) % 16 :=
        @utf8Byte_toNat 4 15 (u >>> 18) (by decide)
      rw [byte, Nat.shiftRight_eq_div_pow]
      omega
    refine ⟨_, 3, ?_, by decide, ?_, upper⟩
    · rw [encodeUtf8, if_neg (by omega), if_neg two, if_neg three, if_pos four]
      rfl
    · rw [following_toNat, upper, if_neg (by omega), if_neg (by omega), if_neg (by omega), if_pos (by omega)]
  by_cases five : u < 0x4000000
  · -- The mask has a bit in common with the mark, but not the code point.
    have bits : u >>> 24 = u / 64 ^ 4 := shiftRight_six u 4
    have cut : u >>> 24 &&& 0x0f = (u >>> 24) % 16 := Nat.and_two_pow_sub_one_eq_mod (u >>> 24) 4
    have cut' : u >>> 24 &&& 0x07 = (u >>> 24) % 8 := Nat.and_two_pow_sub_one_eq_mod (u >>> 24) 3
    have low : utf8Byte 0xf8 0x0f (u >>> 24) = utf8Byte 0xf8 0x07 (u >>> 24) := by
      rw [utf8Byte, utf8Byte, cut, cut', bits, Nat.mod_eq_of_lt (by omega), Nat.mod_eq_of_lt (by omega)]
    have byte : (utf8Byte 0xf8 0x07 (u >>> 24)).toNat = 248 + (u >>> 24) % 8 :=
      @utf8Byte_toNat 3 31 (u >>> 24) (by decide)
    have upper : (utf8Byte 0xf8 0x0f (u >>> 24)).toNat = 248 + u / 64 ^ 4 := by
      rw [low, byte, bits]
      omega
    refine ⟨_, 4, ?_, by decide, ?_, upper⟩
    · rw [encodeUtf8, if_neg (by omega), if_neg two, if_neg three, if_neg four, if_pos five]
      rfl
    · rw [following_toNat, upper, if_neg (by omega), if_neg (by omega), if_neg (by omega), if_neg (by omega),
        if_pos (by omega)]
  · have upper : (utf8Byte 0xfc 0x01 (u >>> 30)).toNat = 252 + u / 64 ^ 5 := by
      have byte : (utf8Byte 0xfc 0x01 (u >>> 30)).toNat = 252 + (u >>> 30) % 2 :=
        @utf8Byte_toNat 1 126 (u >>> 30) (by decide)
      rw [byte, Nat.shiftRight_eq_div_pow]
      omega
    refine ⟨_, 5, ?_, by decide, ?_, upper⟩
    · rw [encodeUtf8, if_neg (by omega), if_neg two, if_neg three, if_neg four, if_neg five]
      rfl
    · rw [following_toNat, upper, if_neg (by omega), if_neg (by omega), if_neg (by omega), if_neg (by omega),
        if_neg (by omega), if_pos (by omega)]

theorem Encoded.inj {u v : Nat} {lead : UInt8} {first second : Nat} (encoded : Encoded u lead first)
    (other : Encoded v lead second) (tails : utf8Tail first u = utf8Tail second v) : u = v := by
  have same : first = second := encoded.follows.symm.trans other.follows
  subst same
  have high := Nat.add_left_cancel (encoded.upper.symm.trans other.upper)
  have low := utf8Tail_inj tails
  rw [← Nat.div_add_mod u (64 ^ first), ← Nat.div_add_mod v (64 ^ first), high, low]

end KcnTools.Intl
