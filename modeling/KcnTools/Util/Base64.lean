import KcnTools.Cache.CacheDefragment
import Mathlib

/-!
Base64 as form histories and proxy passwords use it. Both directions write through a bare
pointer, so what they write is kept beside the size that was allocated for it.
-/

namespace KcnTools.Util

open Cache (wrapInt wrapInt_of_bounds wrapInt_lt)

def base64Chars : List UInt8 :=
  ((List.range 26).map fun n => UInt8.ofNat (65 + n)) ++ ((List.range 26).map fun n => UInt8.ofNat (97 + n)) ++
    ((List.range 10).map fun n => UInt8.ofNat (48 + n)) ++ [43, 47]

def base64Char (value : Nat) : UInt8 := base64Chars.getD value 0

def isBase64Char (c : UInt8) : Bool := base64Chars.contains c

def base64Value (c : UInt8) : Nat := base64Chars.idxOf c

def memAlloc (size : Int) : Option Nat := if 0 ≤ size then some size.toNat else none

def encodeGroups : List UInt8 → List UInt8
  | c0 :: c1 :: c2 :: rest =>
      base64Char (c0.toNat >>> 2) :: base64Char ((c0.toNat <<< 4 ||| c1.toNat >>> 4) &&& 63) ::
        base64Char ((c1.toNat <<< 2 ||| c2.toNat >>> 6) &&& 63) :: base64Char (c2.toNat &&& 63) :: encodeGroups rest
  | [c0, c1] => [base64Char (c0.toNat >>> 2), base64Char ((c0.toNat <<< 4 ||| c1.toNat >>> 4) &&& 63),
      base64Char ((c1.toNat <<< 2) &&& 63), 61]
  | [c0] => [base64Char (c0.toNat >>> 2), base64Char ((c0.toNat <<< 4) &&& 63), 61, 61]
  | [] => []

def base64Encode (input : List UInt8) : Option (Nat × List UInt8) :=
  if input = [] then none
  else
    let inlen := wrapInt input.length
    (memAlloc (wrapInt (inlen.tdiv 3 * 4 + 4 + 1))).map fun size =>
      (size, encodeGroups (input.take inlen.toNat) ++ [0])

/-- What was written when the decoder came to its end, and whether that is its result. -/
structure Decoded where
  written : List UInt8
  accepted : Bool
  deriving DecidableEq

def decodePadding (bits : Nat) (out : List UInt8) : Nat → Decoded
  | 1 => ⟨out, false⟩
  | 2 => ⟨out ++ [UInt8.ofNat (bits >>> 10)] ++ [0], true⟩
  | 3 => ⟨out ++ [UInt8.ofNat (bits >>> 16), UInt8.ofNat (bits >>> 8 &&& 255)] ++ [0], true⟩
  | _ => ⟨out ++ [0], true⟩

def decodeGroups (bits count : Nat) (out : List UInt8) : List UInt8 → Decoded
  | [] => if count ≠ 0 then ⟨out, false⟩ else ⟨out ++ [0], true⟩
  | c :: rest =>
      if c = 61 then decodePadding bits out count
      else if isBase64Char c = false then ⟨out, false⟩
      else
        let bits := bits + base64Value c
        if count + 1 = 4 then
          decodeGroups 0 0
            (out ++ [UInt8.ofNat (bits >>> 16), UInt8.ofNat (bits >>> 8 &&& 255), UInt8.ofNat (bits &&& 255)]) rest
        else decodeGroups (bits <<< 6) (count + 1) out rest

def base64Decode (input : List UInt8) : Option (Nat × Decoded) :=
  if input = [] then none
  else some (input.length / 4 * 3 + 1, decodeGroups 0 0 [] input)

section Bound

def tailLength (next : Option UInt8) (count : Nat) : Nat :=
  match next with
  | none => if count = 0 then 1 else 0
  | some c => if c = 61 then (if count = 1 then 0 else if count = 0 then 1 else count) else 0

theorem decodePadding_length (bits : Nat) (out : List UInt8) {count : Nat} (small : count < 4) :
    (decodePadding bits out count).written.length = out.length + tailLength (some 61) count := by
  have cases : count = 0 ∨ count = 1 ∨ count = 2 ∨ count = 3 := by omega
  rcases cases with rfl | rfl | rfl | rfl <;> simp [decodePadding, tailLength]

theorem padding_other : isBase64Char 61 = false := by decide +kernel

theorem decodeGroups_length (bits : Nat) {count : Nat} (out input : List UInt8) (small : count < 4) :
    (decodeGroups bits count out input).written.length =
      out.length + (count + (input.takeWhile isBase64Char).length) / 4 * 3 +
        tailLength (input.dropWhile isBase64Char).head? ((count + (input.takeWhile isBase64Char).length) % 4) := by
  induction input generalizing bits count out with
  | nil =>
      rw [decodeGroups]
      by_cases none : count = 0
      · simp [none, tailLength]
      · have rest : count % 4 ≠ 0 := by omega
        have whole : count / 4 = 0 := by omega
        simp [none, tailLength, rest, whole]
  | cons c input ih =>
      rw [decodeGroups]
      by_cases padding : c = 61
      · have whole : (count + 0) / 4 = 0 := by omega
        have rest : (count + 0) % 4 = count := by omega
        rw [if_pos padding, padding, decodePadding_length bits out small, List.takeWhile_cons_of_neg
          (by rw [padding_other]; decide), List.dropWhile_cons_of_neg (by rw [padding_other]; decide),
          List.length_nil, List.head?_cons, whole, rest]
        omega
      · rw [if_neg padding]
        cases known : isBase64Char c with
        | false =>
            have whole : (count + 0) / 4 = 0 := by omega
            rw [if_pos rfl, List.takeWhile_cons_of_neg (by rw [known]; decide),
              List.dropWhile_cons_of_neg (by rw [known]; decide), List.length_nil, List.head?_cons, whole,
              tailLength, if_neg padding]
            rfl
        | true =>
            rw [if_neg (by decide), List.takeWhile_cons_of_pos known, List.dropWhile_cons_of_pos known,
              List.length_cons]
            dsimp only
            split
            · rename_i full
              rw [ih _ _ (by decide), List.length_append]
              simp only [List.length_cons, List.length_nil]
              have more : (count + ((input.takeWhile isBase64Char).length + 1)) / 4 =
                  (0 + (input.takeWhile isBase64Char).length) / 4 + 1 := by omega
              have same : (count + ((input.takeWhile isBase64Char).length + 1)) % 4 =
                  (0 + (input.takeWhile isBase64Char).length) % 4 := by omega
              rw [more, same]
              omega
            · rename_i short
              rw [ih _ _ (by omega), show count + ((input.takeWhile isBase64Char).length + 1) =
                count + 1 + (input.takeWhile isBase64Char).length from by omega]

def CutShort (input : List UInt8) : Prop :=
  ∃ text, input = text ++ [61] ∧ text.length % 4 = 2 ∧ ∀ c ∈ text, isBase64Char c = true

theorem cutShort_iff (input : List UInt8) : CutShort input ↔
    (input.dropWhile isBase64Char).head? = some 61 ∧ (input.takeWhile isBase64Char).length % 4 = 2 ∧
      input.length = (input.takeWhile isBase64Char).length + 1 := by
  constructor
  · rintro ⟨text, rfl, two, plain⟩
    rw [List.takeWhile_append_of_pos plain, List.dropWhile_append_of_pos plain, List.takeWhile_cons_of_neg
      (by rw [padding_other]; decide), List.dropWhile_cons_of_neg (by rw [padding_other]; decide), List.append_nil,
      List.length_append]
    exact ⟨rfl, two, rfl⟩
  · rintro ⟨padding, two, length⟩
    have split := List.takeWhile_append_dropWhile (p := isBase64Char) (l := input)
    have sum := congrArg List.length split
    rw [List.length_append] at sum
    refine ⟨input.takeWhile isBase64Char, ?_, two, fun c member => List.mem_takeWhile_imp member⟩
    cases rest : input.dropWhile isBase64Char with
    | nil =>
        rw [rest] at padding
        cases padding
    | cons c tail =>
        rw [rest, List.head?_cons, Option.some.injEq] at padding
        rw [rest, List.length_cons] at sum
        have last : tail = [] := List.length_eq_zero_iff.mp (by omega)
        rw [rest, padding, last] at split
        exact split.symm

theorem decodeGroups_fits_iff (input : List UInt8) :
    (decodeGroups 0 0 [] input).written.length ≤ input.length / 4 * 3 + 1 ↔ ¬ CutShort input := by
  rw [decodeGroups_length 0 [] input (by decide), cutShort_iff]
  have split := List.takeWhile_append_dropWhile (p := isBase64Char) (l := input)
  have sum := congrArg List.length split
  rw [List.length_append] at sum
  simp only [List.length_nil, Nat.zero_add]
  cases rest : input.dropWhile isBase64Char with
  | nil =>
      rw [rest, List.length_nil] at sum
      simp only [List.head?_nil, tailLength, reduceCtorEq, false_and, not_false_eq_true, iff_true]
      split <;> omega
  | cons c tail =>
      rw [rest, List.length_cons] at sum
      simp only [List.head?_cons, tailLength, Option.some.injEq]
      by_cases padding : c = 61
      · simp only [padding, if_true, true_and]
        split
        · omega
        · split <;> omega
      · simp only [padding, if_false, false_and, not_false_eq_true, iff_true]
        omega

end Bound

section RoundTrip

theorem base64Char_facts : ∀ value < 64, base64Value (base64Char value) = value ∧
    isBase64Char (base64Char value) = true ∧ base64Char value ≠ 61 := by decide +kernel

theorem decodeGroups_char (bits count : Nat) (out rest : List UInt8) {value : Nat} (small : value < 64) :
    decodeGroups bits count out (base64Char value :: rest) =
      if count + 1 = 4 then decodeGroups 0 0 (out ++ [UInt8.ofNat ((bits + value) >>> 16),
        UInt8.ofNat ((bits + value) >>> 8 &&& 255), UInt8.ofNat ((bits + value) &&& 255)]) rest
      else decodeGroups ((bits + value) <<< 6) (count + 1) out rest := by
  obtain ⟨value_eq, known, other⟩ := base64Char_facts value small
  rw [decodeGroups, if_neg other, known, if_neg (by decide), value_eq]

theorem firstSextet (c0 : UInt8) : c0.toNat >>> 2 = c0.toNat / 4 := by
  rw [Nat.shiftRight_eq_div_pow]

theorem secondSextet (c0 c1 : UInt8) : (c0.toNat <<< 4 ||| c1.toNat >>> 4) &&& 63 = c0.toNat % 4 * 16 + c1.toNat / 16 := by
  have small := c1.toNat_lt
  rw [Nat.shiftRight_eq_div_pow, ← Nat.shiftLeft_add_eq_or_of_lt (by omega), Nat.shiftLeft_eq,
    Nat.and_two_pow_sub_one_eq_mod _ 6]
  omega

theorem thirdSextet (c1 c2 : UInt8) : (c1.toNat <<< 2 ||| c2.toNat >>> 6) &&& 63 = c1.toNat % 16 * 4 + c2.toNat / 64 := by
  have small := c2.toNat_lt
  rw [Nat.shiftRight_eq_div_pow, ← Nat.shiftLeft_add_eq_or_of_lt (by omega), Nat.shiftLeft_eq,
    Nat.and_two_pow_sub_one_eq_mod _ 6]
  omega

theorem lastSextet (c1 : UInt8) : (c1.toNat <<< 2) &&& 63 = c1.toNat % 16 * 4 := by
  rw [Nat.shiftLeft_eq, Nat.and_two_pow_sub_one_eq_mod _ 6]
  omega

theorem onlySextet (c0 : UInt8) : (c0.toNat <<< 4) &&& 63 = c0.toNat % 4 * 16 := by
  rw [Nat.shiftLeft_eq, Nat.and_two_pow_sub_one_eq_mod _ 6]
  omega

theorem fourthSextet (c2 : UInt8) : c2.toNat &&& 63 = c2.toNat % 64 := Nat.and_two_pow_sub_one_eq_mod _ 6

theorem ofNat_shiftRight {bits shift : Nat} {c : UInt8} (value : bits / 2 ^ shift = c.toNat) :
    UInt8.ofNat (bits >>> shift) = c := by
  rw [Nat.shiftRight_eq_div_pow, value, UInt8.ofNat_toNat]

theorem ofNat_lowByte {bits : Nat} {c : UInt8} (value : bits % 256 = c.toNat) : UInt8.ofNat (bits &&& 255) = c := by
  rw [Nat.and_two_pow_sub_one_eq_mod _ 8, value, UInt8.ofNat_toNat]

theorem ofNat_middleByte {bits : Nat} {c : UInt8} (value : bits / 256 % 256 = c.toNat) :
    UInt8.ofNat (bits >>> 8 &&& 255) = c := by
  rw [Nat.shiftRight_eq_div_pow]
  exact ofNat_lowByte value

theorem decodeGroups_whole (c0 c1 c2 : UInt8) (out rest : List UInt8) :
    decodeGroups 0 0 out (encodeGroups (c0 :: c1 :: c2 :: rest)) =
      decodeGroups 0 0 (out ++ [c0, c1, c2]) (encodeGroups rest) := by
  have small0 := c0.toNat_lt
  have small1 := c1.toNat_lt
  have small2 := c2.toNat_lt
  rw [encodeGroups, firstSextet, secondSextet, thirdSextet, fourthSextet, decodeGroups_char _ _ _ _ (by omega),
    if_neg (by decide), decodeGroups_char _ _ _ _ (by omega), if_neg (by decide),
    decodeGroups_char _ _ _ _ (by omega), if_neg (by decide), decodeGroups_char _ _ _ _ (by omega), if_pos rfl]
  simp only [Nat.shiftLeft_eq]
  rw [ofNat_shiftRight (c := c0) (by omega), ofNat_middleByte (c := c1) (by omega),
    ofNat_lowByte (c := c2) (by omega)]

theorem decodeGroups_two (c0 c1 : UInt8) (out : List UInt8) :
    decodeGroups 0 0 out (encodeGroups [c0, c1]) = ⟨out ++ [c0, c1] ++ [0], true⟩ := by
  have small0 := c0.toNat_lt
  have small1 := c1.toNat_lt
  rw [encodeGroups, firstSextet, secondSextet, lastSextet, decodeGroups_char _ _ _ _ (by omega),
    if_neg (by decide), decodeGroups_char _ _ _ _ (by omega), if_neg (by decide),
    decodeGroups_char _ _ _ _ (by omega), if_neg (by decide), decodeGroups, if_pos rfl, decodePadding]
  simp only [Nat.shiftLeft_eq]
  rw [ofNat_shiftRight (c := c0) (by omega), ofNat_middleByte (c := c1) (by omega)]

theorem decodeGroups_one (c0 : UInt8) (out : List UInt8) :
    decodeGroups 0 0 out (encodeGroups [c0]) = ⟨out ++ [c0] ++ [0], true⟩ := by
  have small0 := c0.toNat_lt
  rw [encodeGroups, firstSextet, onlySextet, decodeGroups_char _ _ _ _ (by omega),
    if_neg (by decide), decodeGroups_char _ _ _ _ (by omega), if_neg (by decide), decodeGroups, if_pos rfl,
    decodePadding]
  simp only [Nat.shiftLeft_eq]
  rw [ofNat_shiftRight (c := c0) (by omega)]

theorem decodeGroups_encode (text out : List UInt8) :
    decodeGroups 0 0 out (encodeGroups text) = ⟨out ++ text ++ [0], true⟩ := by
  fun_induction encodeGroups text generalizing out with
  | case1 c0 c1 c2 rest ih =>
      have whole := decodeGroups_whole c0 c1 c2 out rest
      rw [encodeGroups] at whole
      rw [whole, ih]
      simp only [List.append_assoc, List.cons_append, List.nil_append]
  | case2 c0 c1 =>
      have two := decodeGroups_two c0 c1 out
      rwa [encodeGroups] at two
  | case3 c0 =>
      have one := decodeGroups_one c0 out
      rwa [encodeGroups] at one
  | case4 =>
      rw [List.append_nil]
      rfl

theorem encodeGroups_length (text : List UInt8) : (encodeGroups text).length = (text.length + 2) / 3 * 4 := by
  fun_induction encodeGroups text with
  | case1 c0 c1 c2 rest ih =>
      simp only [List.length_cons, ih]
      omega
  | case2 => simp
  | case3 => simp
  | case4 => rfl

theorem encodeGroups_eq_nil {text : List UInt8} : encodeGroups text = [] ↔ text = [] := by
  rw [← List.length_eq_zero_iff, encodeGroups_length, ← List.length_eq_zero_iff]
  omega

/-- The encoder writes no more than it allocated, and the decoder gives back the text. -/
def RoundTrips (text : List UInt8) : Prop :=
  ∃ size encoded, base64Encode text = some (size, encoded ++ [0]) ∧ (encoded ++ [0]).length ≤ size ∧
    ∃ limit, base64Decode encoded = some (limit, ⟨text ++ [0], true⟩)

theorem roundTrips_iff {text : List UInt8} (written : text ≠ []) :
    RoundTrips text ↔ text.length / 3 * 4 + 5 < 2 ^ 31 := by
  have positive : 0 < text.length := List.length_pos_iff.mpr written
  constructor
  · rintro ⟨size, encoded, encodes, _, limit, decodes⟩
    by_contra large
    rw [base64Encode, if_neg written, Option.map_eq_some_iff] at encodes
    obtain ⟨room, allocated, same⟩ := encodes
    have shape : encodeGroups (text.take (wrapInt text.length).toNat) = encoded :=
      (List.append_inj_left' (Prod.mk.inj same).2 rfl)
    rw [← shape, base64Decode] at decodes
    split at decodes
    · cases decodes
    · rw [decodeGroups_encode, Option.some.injEq, Prod.mk.injEq, Decoded.mk.injEq] at decodes
      have back : [] ++ text.take (wrapInt text.length).toNat = text :=
        List.append_inj_left' decodes.2.1 rfl
      have length := congrArg List.length back
      rw [List.nil_append, List.length_take] at length
      have bound := wrapInt_lt text.length
      have short : wrapInt text.length = text.length := wrapInt_of_bounds (by omega) (by omega)
      rw [memAlloc] at allocated
      split at allocated
      · rename_i valid
        rw [short, Int.tdiv_eq_ediv_of_nonneg (by omega), wrapInt] at valid
        omega
      · cases allocated
  · intro small
    have short : wrapInt text.length = text.length := wrapInt_of_bounds (by omega) (by omega)
    have room : wrapInt ((text.length : Int).tdiv 3 * 4 + 4 + 1) = (text.length / 3 * 4 + 5 : Nat) := by
      rw [Int.tdiv_eq_ediv_of_nonneg (by omega), wrapInt_of_bounds (by omega) (by omega)]
      omega
    refine ⟨text.length / 3 * 4 + 5, encodeGroups text, ?_, ?_, (encodeGroups text).length / 4 * 3 + 1, ?_⟩
    · rw [base64Encode, if_neg written]
      dsimp only
      rw [short, room, memAlloc, if_pos (by omega), Int.toNat_natCast, Int.toNat_natCast, List.take_length]
      rfl
    · rw [List.length_append, encodeGroups_length, List.length_singleton]
      omega
    · rw [base64Decode, if_neg (by rw [encodeGroups_eq_nil]; exact written), decodeGroups_encode]
      rfl

end RoundTrip

def DecodesInRoom (input : List UInt8) : Prop :=
  ∃ size decoded, base64Decode input = some (size, decoded) ∧ decoded.written.length ≤ size

theorem base64_iff (text input : List UInt8) :
    (text ≠ [] → (RoundTrips text ↔ text.length / 3 * 4 + 5 < 2 ^ 31)) ∧
    (input ≠ [] → (DecodesInRoom input ↔ ¬ CutShort input)) := by
  constructor
  · intro written
    exact roundTrips_iff written
  · intro written
    rw [← decodeGroups_fits_iff, DecodesInRoom]
    constructor
    · rintro ⟨size, decoded, decodes, room⟩
      rw [base64Decode, if_neg written, Option.some.injEq, Prod.mk.injEq] at decodes
      rwa [← decodes.1, ← decodes.2] at room
    · intro room
      exact ⟨_, _, by rw [base64Decode, if_neg written], room⟩

/-- `QQ=`: room for one byte, and two are written. -/
theorem base64Decode_QQ : base64Decode [81, 81, 61] = some (1, ⟨[65, 0], true⟩) ∧
    ¬ DecodesInRoom [81, 81, 61] := by
  have decodes : base64Decode [81, 81, 61] = some (1, ⟨[65, 0], true⟩) := by decide +kernel
  refine ⟨decodes, ?_⟩
  rintro ⟨size, decoded, found, room⟩
  rw [decodes, Option.some.injEq, Prod.mk.injEq] at found
  rw [← found.1, ← found.2] at room
  exact absurd room (by decide)

end KcnTools.Util
