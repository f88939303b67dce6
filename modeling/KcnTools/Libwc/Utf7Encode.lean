import KcnTools.Libwc.UcsOutput
import KcnTools.Libwc.Utf7Runs

/-! Writing UTF-7 (`wc_push_to_utf7`): the encoder keeps the bits that are in no digit
yet from one character to the next. -/

namespace KcnTools.Libwc

open Sextets

inductive Utf7OutState where
  | nostate
  | base64 (shift : Int) (base : Nat)
  deriving DecidableEq

def ucsToUtf16 (ucs : Nat) : Nat :=
  (((ucs - 0x10000) >>> 10 ||| ucsSurrogate) <<< 16) ||| ((ucs - 0x10000) &&& 0x3FF ||| ucsSurrogateLow)

/-- Back to direct characters: the unfinished digit is written whether or not there is one. -/
def leaveBase64 : Utf7OutState → List UInt8
  | .nostate => []
  | .base64 _ base => [base64C base, 0x2D]

def putUnit (state : Utf7OutState) (ucs : Nat) : Utf7OutState × List UInt8 :=
  let (shift, base, begun) : Int × Nat × List UInt8 :=
    match state with
    | .base64 shift base =>
        if shift ≠ 0 then
          let base := base ||| ucs >>> (shift + 16).toNat
          (shift + 16, base, [base64C base])
        else (16, 0, [])
    | .nostate => (16, 0, [0x2B])
  let first := base64C ((ucs >>> (shift - 6).toNat) &&& 0x3F)
  let shift := shift - 12
  let second := base64C ((ucs >>> shift.toNat) &&& 0x3F)
  (if shift ≠ 0 then .base64 (shift - 6) ((ucs <<< (6 - shift).toNat) &&& 0x3F) else .base64 shift base,
    begun ++ [first, second])

def putUcs2 (state : Utf7OutState) (ucs : Nat) : Utf7OutState × List UInt8 :=
  if ucs < 0x80 then
    match utf7Map ucs with
    | .base64 | .minus | .setD | .controlD => (.nostate, leaveBase64 state ++ [UInt8.ofNat ucs])
    | .plus => (.nostate, leaveBase64 state ++ [0x2B, 0x2D])
    | _ => putUnit state ucs
  else putUnit state ucs

def wcPushUcsToUtf7 (state : Utf7OutState) (ucs : Nat) : Utf7OutState × List UInt8 :=
  if ucs > unicodeEnd then (state, [])
  else if ucs > ucs2End then
    let (state, first) := putUcs2 state (ucsToUtf16 ucs >>> 16)
    let (state, second) := putUcs2 state (ucsToUtf16 ucs &&& 0xFFFF)
    (state, first ++ second)
  else putUcs2 state ucs

def utf7Writer : UcsWriter Utf7OutState where
  ascii := wcPushUcsToUtf7
  put := wcPushUcsToUtf7

def wcPushToUtf7 (w : Wc) (tagMap : List (List UInt8)) (st : Nat × Utf7OutState) (cc : Wchar) :
    (Nat × Utf7OutState) × List UInt8 :=
  utf7Writer.pushTarget w tagMap st
    (if ccsSet cc.ccs = ccsUcs4 ∧ cc.code > unicodeEnd then .unknown (isWide cc.ccs) else ucsTarget w cc)

def flushBase64 : Utf7OutState → List UInt8
  | .nostate => []
  | .base64 shift base => (if shift ≠ 0 then [base64C base] else []) ++ [0x2D]

def utf7Encoder (w : Wc) (tagMap : List (List UInt8)) : Transducer (Nat × Utf7OutState) Wchar UInt8 where
  step := wcPushToUtf7 w tagMap
  finish := fun st =>
    let (st, cleared) := utf7Writer.clearTag tagMap st
    cleared ++ flushBase64 st.2

def utf7Output (w : Wc) (tagMap : List (List UInt8)) (characters : List Wchar) : List UInt8 :=
  (utf7Encoder w tagMap).run (0, .nostate) characters

section Units

inductive BaseHolds : Pending → Utf7OutState → Prop
  | none (base : Nat) (small : base < 64) : BaseHolds .none (.base64 0 base)
  | four (bits : Nat) (small : bits < 16) : BaseHolds (.four bits) (.base64 (-2) (bits * 4))
  | two (bits : Nat) (small : bits < 4) : BaseHolds (.two bits) (.base64 (-4) (bits * 16))

theorem and_digit (n : Nat) : n &&& 0x3F = n % 64 := Nat.and_two_pow_sub_one_eq_mod n 6

theorem putUnit_holds {pending : Pending} {state : Utf7OutState} (holds : BaseHolds pending state) {unit : Nat}
    (small : unit < 65536) :
    (putUnit state unit).2 = (unitDigits pending unit).2.map base64C ∧
      BaseHolds (unitDigits pending unit).1 (putUnit state unit).1 := by
  cases holds with
  | none base within =>
      have computed : putUnit (.base64 0 base) unit =
          (.base64 (-2) ((unit <<< 2) &&& 0x3F), [base64C ((unit >>> 10) &&& 0x3F), base64C ((unit >>> 4) &&& 0x3F)]) :=
        rfl
      rw [computed, and_digit, and_digit, and_digit, Nat.shiftLeft_eq, Nat.shiftRight_eq_div_pow,
        Nat.shiftRight_eq_div_pow, show unit * 2 ^ 2 % 64 = unit % 16 * 4 by omega,
        show unit / 2 ^ 10 % 64 = unit / 1024 by omega]
      exact ⟨rfl, .four _ (Nat.mod_lt _ (by omega))⟩
  | four bits within =>
      have computed : putUnit (.base64 (-2) (bits * 4)) unit =
          (.base64 (-4) ((unit <<< 4) &&& 0x3F), [base64C (bits * 4 ||| unit >>> 14),
            base64C ((unit >>> 8) &&& 0x3F), base64C ((unit >>> 2) &&& 0x3F)]) := rfl
      rw [computed, and_digit, and_digit, and_digit, Nat.shiftLeft_eq, Nat.shiftRight_eq_div_pow,
        Nat.shiftRight_eq_div_pow, Nat.shiftRight_eq_div_pow, show unit * 2 ^ 4 % 64 = unit % 4 * 16 by omega,
        or_add (a := bits * 4) 2 ⟨bits, Nat.mul_comm _ _⟩ (by omega)]
      exact ⟨rfl, .two _ (Nat.mod_lt _ (by omega))⟩
  | two bits within =>
      have computed : putUnit (.base64 (-4) (bits * 16)) unit =
          (.base64 0 (bits * 16 ||| unit >>> 12), [base64C (bits * 16 ||| unit >>> 12),
            base64C ((unit >>> 6) &&& 0x3F), base64C ((unit >>> 0) &&& 0x3F)]) := rfl
      rw [computed, and_digit, and_digit, Nat.shiftRight_zero, Nat.shiftRight_eq_div_pow,
        Nat.shiftRight_eq_div_pow, or_add (a := bits * 16) 4 ⟨bits, Nat.mul_comm _ _⟩ (by omega)]
      exact ⟨rfl, .none _ (by omega)⟩

theorem putUnit_nostate (unit base : Nat) :
    putUnit .nostate unit = ((putUnit (.base64 0 base) unit).1, 0x2B :: (putUnit (.base64 0 base) unit).2) := rfl

def unitPutter : Transducer Utf7OutState Nat UInt8 where
  step := putUnit
  finish := flushBase64

theorem feed_putUnit {pending : Pending} {state : Utf7OutState} (holds : BaseHolds pending state)
    {units : List Nat} (small : ∀ unit ∈ units, unit < 65536) :
    (unitPutter.feed state units).2 = (encoder.feed pending units).2.map base64C ∧
      BaseHolds (encoder.feed pending units).1 (unitPutter.feed state units).1 := by
  induction units generalizing pending state with
  | nil => exact ⟨rfl, holds⟩
  | cons unit rest ih =>
      rw [List.forall_mem_cons] at small
      obtain ⟨written, next⟩ := putUnit_holds holds small.1
      obtain ⟨later, last⟩ := ih next small.2
      have here : unitPutter.step state unit = putUnit state unit := rfl
      have there : encoder.step pending unit = unitDigits pending unit := rfl
      rw [Transducer.feed_cons, Transducer.feed_cons, here, there, List.map_append, ← written, ← later]
      exact ⟨rfl, last⟩

theorem feed_group {units : List Nat} (some : units ≠ []) (small : ∀ unit ∈ units, unit < 65536) :
    (unitPutter.feed .nostate units).2 = 0x2B :: (encoder.feed .none units).2.map base64C ∧
      BaseHolds (encoder.feed .none units).1 (unitPutter.feed .nostate units).1 := by
  cases units with
  | nil => contradiction
  | cons unit rest =>
      obtain ⟨written, last⟩ := feed_putUnit (.none 0 (by omega)) small
      have first : unitPutter.step .nostate unit =
          ((unitPutter.step (.base64 0 0) unit).1, 0x2B :: (unitPutter.step (.base64 0 0) unit).2) :=
        putUnit_nostate unit 0
      rw [unitPutter.feed_cons .nostate, first, ← written]
      exact ⟨rfl, last⟩

end Units

section Characters

def utf7OutDirect (c : Nat) : Bool :=
  c < 0x80 && (utf7Map c == .base64 || utf7Map c == .minus || utf7Map c == .setD || utf7Map c == .controlD)

def utf7Encoded (c : Nat) : Bool := !utf7OutDirect c && c != 0x2B

theorem putUcs2_direct {c : Nat} (direct : utf7OutDirect c = true) (state : Utf7OutState) :
    putUcs2 state c = (.nostate, leaveBase64 state ++ [UInt8.ofNat c]) := by
  simp only [utf7OutDirect, Bool.and_eq_true, decide_eq_true_eq, Bool.or_eq_true, beq_iff_eq] at direct
  rw [putUcs2, if_pos direct.1]
  obtain ((map | map) | map) | map := direct.2 <;> rw [map]

theorem utf7Map_plus : ∀ c < 0x80, utf7Map c = .plus → c = 0x2B := by decide +kernel

theorem putUcs2_encoded {c : Nat} (encoded : utf7Encoded c = true) (state : Utf7OutState) :
    putUcs2 state c = putUnit state c := by
  simp only [utf7Encoded, utf7OutDirect, Bool.and_eq_true, Bool.not_eq_true', Bool.and_eq_false_iff,
    Bool.or_eq_false_iff, decide_eq_false_iff_not, beq_eq_false_iff_ne, bne_iff_ne] at encoded
  obtain ⟨above | ⟨⟨⟨digit, minus⟩, set⟩, control⟩, sign⟩ := encoded
  · rw [putUcs2, if_neg above]
  · rw [putUcs2]
    split
    · rename_i small
      have plus : utf7Map c ≠ .plus := fun map => sign (utf7Map_plus c small map)
      split <;> first | contradiction | rfl
    · rfl

theorem ucsToUtf16_units {d : Nat} (small : d < 0x100000) :
    ucsToUtf16 (d + 0x10000) >>> 16 = ucsSurrogate + d / 0x400 ∧
      ucsToUtf16 (d + 0x10000) &&& 0xFFFF = ucsSurrogateLow + d % 0x400 := by
  have high : d >>> 10 ||| ucsSurrogate = ucsSurrogate + d / 0x400 := by
    rw [Nat.shiftRight_eq_div_pow, Nat.or_comm]
    exact or_add 10 ⟨54, rfl⟩ (by omega)
  have low : d &&& 0x3FF ||| ucsSurrogateLow = ucsSurrogateLow + d % 0x400 := by
    rw [Nat.and_two_pow_sub_one_eq_mod _ 10, Nat.or_comm]
    exact or_add 10 ⟨55, rfl⟩ (Nat.mod_lt _ (by omega))
  have bounded : ucsSurrogateLow + d % 0x400 < 0x10000 := by
    rw [ucsSurrogateLow]
    omega
  have whole : ucsToUtf16 (d + 0x10000) = (ucsSurrogate + d / 0x400) * 0x10000 + (ucsSurrogateLow + d % 0x400) := by
    rw [ucsToUtf16, Nat.add_sub_cancel, high, low, Nat.shiftLeft_eq]
    exact or_add 16 ⟨ucsSurrogate + d / 0x400, Nat.mul_comm _ _⟩ bounded
  rw [whole, Nat.shiftRight_eq_div_pow, Nat.and_two_pow_sub_one_eq_mod _ 16]
  omega

theorem encoded_high {unit : Nat} (high : 0x80 ≤ unit) : utf7Encoded unit = true := by
  have above : ¬ unit < 0x80 := by omega
  have other : unit ≠ 0x2B := by omega
  simp [utf7Encoded, utf7OutDirect, above, other]

theorem put_encoded {c : Nat} (scalar : IsScalar c) (encoded : utf7Encoded c = true) (state : Utf7OutState) :
    wcPushUcsToUtf7 state c = unitPutter.feed state (utf16Units c) := by
  have within : ¬ c > unicodeEnd := Nat.not_lt.mpr scalar.1
  rw [wcPushUcsToUtf7, if_neg within, utf16Units]
  by_cases plane0 : c ≤ ucs2End
  · rw [if_neg (Nat.not_lt.mpr plane0), if_pos plane0, putUcs2_encoded encoded, Transducer.feed_cons]
    simp [unitPutter]
  · have above : 0xFFFF < c := Nat.lt_of_not_le plane0
    have bounded : c ≤ 0x10FFFF := scalar.1
    obtain ⟨d, rfl⟩ : ∃ d, c = d + 0x10000 := ⟨c - 0x10000, by omega⟩
    obtain ⟨first, second⟩ := ucsToUtf16_units (show d < 0x100000 by omega)
    have low : 0x80 ≤ ucsSurrogate ∧ 0x80 ≤ ucsSurrogateLow := by decide
    rw [if_pos (Nat.lt_of_not_le plane0), if_neg plane0, first, second, Nat.add_sub_cancel,
      Transducer.feed_cons, Transducer.feed_cons]
    simp only [putUcs2_encoded (encoded_high (Nat.le_trans low.1 (Nat.le_add_right _ _))),
      putUcs2_encoded (encoded_high (Nat.le_trans low.2 (Nat.le_add_right _ _)))]
    simp [unitPutter]

end Characters

end KcnTools.Libwc
