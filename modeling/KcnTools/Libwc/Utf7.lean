import KcnTools.Libwc.Ucs

/-! UTF-7 (utf7.c): direct characters, and runs of base64 digits that carry UTF-16
code units through a shift register. -/

namespace KcnTools.Libwc

inductive Utf7Class where
  | setD | setO | setB | base64 | plus | minus | controlD | controlB | c1
  deriving DecidableEq

def utf7Map (byte : Nat) : Utf7Class :=
  if byte ≥ 0x80 then .c1
  else if byte = 0x09 ∨ byte = 0x0A ∨ byte = 0x0D then .controlD
  else if byte < 0x20 ∨ byte = 0x7F then .controlB
  else if byte = 0x2B then .plus
  else if byte = 0x2D then .minus
  -- the table counts `@` among the digits
  else if 0x30 ≤ byte ∧ byte ≤ 0x39 ∨ 0x40 ≤ byte ∧ byte ≤ 0x5A ∨ 0x61 ≤ byte ∧ byte ≤ 0x7A ∨ byte = 0x2F then
    .base64
  else if byte = 0x5C ∨ byte = 0x7E then .setB
  else if byte = 0x20 ∨ byte = 0x27 ∨ byte = 0x28 ∨ byte = 0x29 ∨ byte = 0x2C ∨ byte = 0x2E ∨ byte = 0x3A ∨
      byte = 0x3F then .setD
  else .setO

/-- `C_BASE64`, for the bytes of the classes `base64` and `plus`: `@` has the value -1. -/
def cBase64 (byte : Nat) : Nat :=
  if byte = 0x40 then u32 (-1)
  else if byte = 0x2B then 62
  else if byte = 0x2F then 63
  else if byte ≤ 0x39 then byte - 0x30 + 52
  else if byte ≤ 0x5A then byte - 0x41
  else byte - 0x61 + 26

def base64C (digit : Nat) : UInt8 :=
  if digit < 26 then UInt8.ofNat (0x41 + digit)
  else if digit < 52 then UInt8.ofNat (0x61 + (digit - 26))
  else if digit < 62 then UInt8.ofNat (0x30 + (digit - 52))
  else if digit = 62 then 0x2B
  else 0x2F

/-- The shift register of a run, and the high surrogate that waits for its low one. -/
structure Utf7Register where
  shift : Int
  base : Nat
  high : Nat
  deriving DecidableEq

inductive Utf7State where
  | nostate
  | plus (register : Utf7Register)
  | base64 (register : Utf7Register)
  deriving DecidableEq

def utf16ToUcs (high low : Nat) : Nat := (((high &&& 0x3FF) <<< 10) ||| (low &&& 0x3FF)) + 0x10000

def utf7Unit (high unit : Nat) : Nat × List Pushed :=
  if ucsSurrogate ≤ unit ∧ unit < ucsSurrogateLow then (if high = 0 then unit else 0, [])
  else if ucsSurrogateLow ≤ unit ∧ unit ≤ ucsSurrogateEnd then
    (0, if high ≠ 0 then [.ucs (utf16ToUcs high unit)] else [])
  else (high, if unit ≠ ucsBom then [.ucs unit] else [])

def utf7Digit (r : Utf7Register) (b : Nat) : Utf7State × List Pushed :=
  let shift := r.shift - 6
  if shift ≤ 0 then
    let (high, pushed) := utf7Unit r.high (r.base ||| b >>> (-shift).toNat)
    (.base64 ⟨shift + 16, (b <<< (shift + 16).toNat) &&& 0xFFFF, high⟩, pushed)
  else (.base64 ⟨shift, r.base ||| ((b <<< shift.toNat) &&& 0xFFFF), r.high⟩, [])

def utf7Direct (byte : UInt8) : List Pushed :=
  match utf7Map byte.toNat with
  | .controlD | .controlB => [.raw byte]
  | .c1 => [.unknown byte]
  | _ => [.ucs byte.toNat]

def utf7InRun (state : Utf7State) (r : Utf7Register) (byte : UInt8) : Utf7State × List Pushed :=
  match utf7Map byte.toNat with
  | .base64 | .plus => utf7Digit r (cBase64 byte.toNat)
  | .minus => (.nostate, [])
  -- a direct character leaves the state as it is
  | _ => (state, utf7Direct byte)

def utf7Step (state : Utf7State) (byte : UInt8) : Utf7State × List Pushed :=
  match state with
  | .nostate =>
      if byte = 0x2B then (.plus ⟨16, 0, 0⟩, [])
      else (.nostate, utf7Direct byte)
  | .plus r =>
      let (next, pushed) := utf7InRun state r byte
      (next, (if byte = 0x2D then [.ucs 0x2B] else []) ++ pushed)
  | .base64 r => utf7InRun state r byte

def utf7Decoder : Transducer Utf7State UInt8 Pushed where
  step := utf7Step
  finish := fun _ => []

def utf7Plain (byte : UInt8) : Bool := byte < 0x80 && byte != 0x2B

def utf7Pushed (is : List UInt8) : List Pushed :=
  (is.takeWhile utf7Plain).map .raw ++ utf7Decoder.run .nostate (is.dropWhile utf7Plain)

def wcConvFromUtf7 (w : Wc) (tagMap : List (List UInt8)) (is : List UInt8) : List UInt8 :=
  pushedText w tagMap (utf7Pushed is)

end KcnTools.Libwc
