import KcnTools.Bittorrent.Bencoding
import KcnTools.Cache.CacheDefragment
import KcnTools.Lib.Decimal
import KcnTools.Protocol.PathNormal

/-! Well-formed bencoded text: the values that it writes down, and the tokens that the scanner
gives for it. -/

namespace KcnTools.Bittorrent

open Cache (wrapInt wrapInt_of_bounds)
open Decimal
open Protocols (byteAt byteAt_drop isdigit)
open Util

inductive BencodedValue
  | integer (value : Int)
  | string (bytes : List UInt8)
  | list (items : List BencodedValue)
  | dictionary (entries : List (List UInt8 × BencodedValue))

abbrev BencodedEntries := List (List UInt8 × BencodedValue)

def BencodedValue.type : BencodedValue → BencodingToken
  | .integer _ => .integer
  | .string _ => .string
  | .list _ => .list
  | .dictionary _ => .dictionary

def encodeInteger : Int → List UInt8
  | .ofNat value => decimal value
  | .negSucc value => 45 :: decimal (value + 1)

def encodeString (bytes : List UInt8) : List UInt8 := decimal bytes.length ++ 58 :: bytes

mutual

def encodeValue : BencodedValue → List UInt8
  | .integer value => 105 :: (encodeInteger value ++ [101])
  | .string bytes => encodeString bytes
  | .list items => 108 :: (encodeItems items ++ [101])
  | .dictionary entries => 100 :: (encodeEntries entries ++ [101])

def encodeItems : List BencodedValue → List UInt8
  | [] => []
  | item :: items => encodeValue item ++ encodeItems items

def encodeEntries : List (List UInt8 × BencodedValue) → List UInt8
  | [] => []
  | (key, value) :: entries => encodeString key ++ (encodeValue value ++ encodeEntries entries)

end

def stringToken (start : Nat) (bytes : List UInt8) : ReadToken :=
  ⟨.string, bytes, start + (decimal bytes.length).length + 1⟩

def endToken (start : Nat) : ReadToken := ⟨.end, [101], start⟩

mutual

def valueTokens (start : Nat) : BencodedValue → List ReadToken
  | .integer value => [⟨.integer, encodeInteger value, start + 1⟩]
  | .string bytes => [stringToken start bytes]
  | .list items => ⟨.list, [108], start⟩ ::
      (itemTokens (start + 1) items ++ [endToken (start + 1 + (encodeItems items).length)])
  | .dictionary entries => ⟨.dictionary, [100], start⟩ ::
      (entryTokens (start + 1) entries ++ [endToken (start + 1 + (encodeEntries entries).length)])

def itemTokens (start : Nat) : List BencodedValue → List ReadToken
  | [] => []
  | item :: items => valueTokens start item ++ itemTokens (start + (encodeValue item).length) items

def entryTokens (start : Nat) : List (List UInt8 × BencodedValue) → List ReadToken
  | [] => []
  | (key, value) :: entries =>
      stringToken start key :: (valueTokens (start + (encodeString key).length) value ++
        entryTokens (start + (encodeString key).length + (encodeValue value).length) entries)

end

/-- The scanner takes these tokens from one position to the other. -/
inductive Scans (text : List UInt8) : Nat → List ReadToken → Nat → Prop
  | refl (position : Nat) : Scans text position [] position
  | step {position next last : Nat} {tokens : List ReadToken} (first : TokenStep text position next)
      (rest : Scans text next tokens last) :
      Scans text position (readToken text (scanBencodingToken text position).1 :: tokens) last

section Scanning
variable {text : List UInt8} {position next last : Nat} {tokens others : List ReadToken}

theorem Scans.append (first : Scans text position tokens next) (rest : Scans text next others last) :
    Scans text position (tokens ++ others) last := by
  induction first with
  | refl => exact rest
  | step first _ ih => exact .step first (ih rest)

theorem Scans.single {token : ReadToken} (step : TokenStep text position next)
    (read : readToken text (scanBencodingToken text position).1 = token) : Scans text position [token] next := by
  subst read
  exact .step step (.refl next)

theorem Scans.plainTokens (scans : Scans text position tokens text.length) :
    (Bittorrent.plainTokens text position).map (readToken text) = tokens := by
  generalize last : text.length = stop at scans
  induction scans with
  | refl position => rw [plainTokens_of_le (Nat.le_of_eq last), List.map_nil]
  | step first _ ih => rw [first.tokens, List.map_cons, ih last]

theorem Scans.not_cutOff (scans : Scans text position tokens text.length) : ¬ CutOff text position := by
  generalize last : text.length = stop at scans
  induction scans with
  | refl position => exact Bittorrent.not_cutOff (Nat.le_of_eq last)
  | step first _ ih =>
      rw [first.cutOff_iff]
      exact ih last

theorem Scans.length_le (scans : Scans text position tokens next) : position + tokens.length ≤ next := by
  induction scans with
  | refl => exact Nat.le_refl _
  | @step position next last tokens first rest ih =>
      have advances := scanBencodingToken_advances text position
      rw [first.next_eq] at advances
      rw [List.length_cons]
      omega

open scoped Classical in
theorem Scans.bencodingTokens (scans : Scans text 0 tokens text.length) : Bittorrent.bencodingTokens text = tokens := by
  have short : (blankScanner text.length : BencodingScanner).pending.length ≤ 1 := Nat.zero_le 1
  have refills : Refills (Bittorrent.plainTokens text) (CutOff text) text.length (scanBencodingTokens text) :=
    scanBencodingTokens_refills
  have remaining : (initBencodingScanner text).remaining (Bittorrent.plainTokens text) (CutOff text) =
      Bittorrent.plainTokens text 0 := by
    have all := refills.remaining _ blankScanner_ok short
    rw [initBencodingScanner, initScanner, all]
    show continued (Bittorrent.plainTokens text) (CutOff text) [] 0 = _
    rw [continued, if_neg scans.not_cutOff, List.nil_append]
  have enough : (Bittorrent.plainTokens text 0).length < text.length + 1 := by
    have lengths := scans.length_le
    rw [← scans.plainTokens, List.length_map] at lengths
    omega
  have read := readScannerTokens_eq refills (text.length + 1) (refills.looks _ blankScanner_ok short)
  rw [show scanBencodingTokens text (blankScanner text.length) = initBencodingScanner text from rfl, remaining,
    if_pos enough] at read
  rw [Bittorrent.bencodingTokens, read, Option.getD_some]
  exact scans.plainTokens

end Scanning

section Lexemes
variable {text after : List UInt8} {position : Nat}

theorem inside_of_drop {c : UInt8} (here : text.drop position = c :: after) : position < text.length := by
  have long := congrArg List.length here
  rw [List.length_drop, List.length_cons] at long
  omega

theorem byteAt_of_drop {c : UInt8} (here : text.drop position = c :: after) : byteAt text position = c := by
  have first := byteAt_drop text position 0
  rw [here, Nat.add_zero] at first
  exact first.symm

theorem drop_of_drop (front : List UInt8) (here : text.drop position = front ++ after) :
    text.drop (position + front.length) = after := by
  rw [← List.drop_drop, here, List.drop_left]

theorem isdigit_decimal {n : Nat} {c : UInt8} (member : c ∈ decimal n) : isdigit c = true := by
  obtain ⟨lower, upper⟩ := decimal_digits member
  rw [isdigit, Bool.and_eq_true, decide_eq_true_eq, decide_eq_true_eq, UInt8.le_iff_toNat_le, UInt8.le_iff_toNat_le]
  exact ⟨lower, upper⟩

theorem takeWhile_digits {digits : List UInt8} {c : UInt8} (all : ∀ d ∈ digits, isdigit d = true)
    (stop : isdigit c = false) : (digits ++ c :: after).takeWhile isdigit = digits := by
  rw [List.takeWhile_append_of_pos all, List.takeWhile_cons, stop, if_neg Bool.false_ne_true, List.append_nil]

theorem scanBencodingInteger_digits {digits : List UInt8} {c : UInt8} (all : ∀ d ∈ digits, isdigit d = true)
    (stop : isdigit c = false) (here : text.drop position = digits ++ c :: after) :
    scanBencodingInteger text position = position + digits.length := by
  rw [scanBencodingInteger, here, takeWhile_digits all stop]

end Lexemes

section Scans
variable {text after : List UInt8} {position : Nat}

theorem strtoul_decimal {n : Nat} (small : n < 2 ^ 64) : strtoul (decimal n) = some n := by
  have value : (decimal n).foldl (fun value c => 10 * value + (c.toNat - 48)) 0 = n := decimalValue_decimal n
  simp only [strtoul, value, if_pos small]

theorem scans_string (small : text.length < 2 ^ 31) {bytes : List UInt8}
    (here : text.drop position = encodeString bytes ++ after) :
    Scans text position [stringToken position bytes] (position + (encodeString bytes).length) := by
  rw [encodeString, List.append_assoc, List.cons_append] at here
  obtain ⟨d, ds, digits⟩ := List.exists_cons_of_ne_nil (decimal_ne_nil bytes.length)
  have all : ∀ c ∈ decimal bytes.length, isdigit c = true := fun c member => isdigit_decimal member
  have colon : isdigit 58 = false := rfl
  have behind := drop_of_drop _ here
  have long := congrArg List.length here
  simp only [List.length_drop, List.length_append, List.length_cons] at long
  have inside : position < text.length := by omega
  have token : scanBencodingToken text position =
      (⟨.string, position + (decimal bytes.length).length + 1, bytes.length⟩,
        position + (decimal bytes.length).length + 1 + bytes.length) := by
    have first : byteAt text position = d := by
      rw [digits, List.cons_append] at here
      exact byteAt_of_drop here
    have digit : isdigit d = true := all d (digits ▸ List.mem_cons_self)
    have rest : text.drop (position + 1) = ds ++ 58 :: (bytes ++ after) := by
      rw [digits] at here
      exact drop_of_drop [d] here
    have string : scanBencodingInteger text (position + 1) = position + (decimal bytes.length).length := by
      rw [scanBencodingInteger_digits (fun c member => all c (digits ▸ List.mem_cons_of_mem d member)) colon rest,
        digits, List.length_cons]
      omega
    have claimed : claimString text position (position + (decimal bytes.length).length) = some bytes.length := by
      rw [claimString, here, takeWhile_digits all colon, strtoul_decimal (by omega)]
      dsimp only
      rw [if_pos ⟨by omega, by omega⟩]
    simp only [scanBencodingToken, first, digit, if_true, scanStringToken, string, byteAt_of_drop behind, claimed]
  have step : TokenStep text position (position + (encodeString bytes).length) := by
    refine ⟨inside, ?_, ?_⟩
    · rw [token]
      exact BencodingToken.noConfusion
    · rw [token, encodeString, List.length_append, List.length_cons]
      dsimp only
      omega
  refine Scans.single step ?_
  rw [token, readToken, stringToken]
  dsimp only
  have data := drop_of_drop _ (show text.drop _ = [58] ++ (bytes ++ after) from behind)
  rw [List.length_singleton] at data
  rw [Int.toNat_natCast, data, List.take_left]

theorem scans_integer (small : text.length < 2 ^ 31) {value : Int}
    (here : text.drop position = encodeValue (.integer value) ++ after) :
    Scans text position (valueTokens position (.integer value))
      (position + (encodeValue (.integer value)).length) := by
  rw [encodeValue, List.cons_append, List.append_assoc] at here
  have long := congrArg List.length here
  simp only [List.length_drop, List.length_append, List.length_cons] at long
  have inside : position < text.length := by omega
  have rest : text.drop (position + 1) = encodeInteger value ++ 101 :: after := drop_of_drop [105] here
  have marker : isdigit 101 = false := rfl
  have string : scanBencodingInteger text
      (if byteAt text (position + 1) = 45 then position + 1 + 1 else position + 1) =
        position + 1 + (encodeInteger value).length := by
    cases value with
    | ofNat n =>
        obtain ⟨d, ds, digits⟩ := List.exists_cons_of_ne_nil (decimal_ne_nil n)
        have all : ∀ c ∈ decimal n, isdigit c = true := fun c member => isdigit_decimal member
        have first : byteAt text (position + 1) = d := by
          rw [encodeInteger, digits, List.cons_append] at rest
          exact byteAt_of_drop rest
        have unsigned : d ≠ 45 := by
          rintro rfl
          exact absurd (all 45 (digits ▸ List.mem_cons_self)) (by decide)
        rw [first, if_neg unsigned]
        exact scanBencodingInteger_digits all marker rest
    | negSucc n =>
        have all : ∀ c ∈ decimal (n + 1), isdigit c = true := fun c member => isdigit_decimal member
        have signed : text.drop (position + 1 + 1) = decimal (n + 1) ++ 101 :: after :=
          drop_of_drop [45] rest
        rw [byteAt_of_drop rest, if_pos rfl, scanBencodingInteger_digits all marker signed, encodeInteger,
          List.length_cons]
        omega
  have filled : 0 < (encodeInteger value).length := by
    cases value with
    | ofNat n => exact List.length_pos_iff.mpr (decimal_ne_nil n)
    | negSucc n => exact Nat.succ_pos _
  have token : scanBencodingToken text position =
      (⟨.integer, position + 1, (encodeInteger value).length⟩, position + 1 + (encodeInteger value).length + 1) := by
    have length : wrapInt (((position + 1 + (encodeInteger value).length : Nat) : Int) - (position + 1 : Nat)) =
        (encodeInteger value).length := by
      rw [wrapInt_of_bounds (by omega) (by omega)]
      omega
    have first : byteAt text position = 105 := byteAt_of_drop here
    simp only [scanBencodingToken, first, scanIntegerToken, string, byteAt_of_drop (drop_of_drop _ rest), length,
      if_pos (Int.natCast_pos.mpr filled)]
    rfl
  have step : TokenStep text position (position + (encodeValue (.integer value)).length) := by
    refine ⟨inside, ?_, ?_⟩
    · rw [token]
      exact BencodingToken.noConfusion
    · rw [token, encodeValue, List.length_cons, List.length_append, List.length_singleton]
      dsimp only
      omega
  refine Scans.single step ?_
  rw [token, readToken, Int.toNat_natCast, rest, List.take_left]

theorem scans_marker {c : UInt8} {type : BencodingToken}
    (marker : ∀ position, byteAt text position = c → scanBencodingToken text position =
    (⟨type, position, 1⟩, position + 1))
    (valid : type ≠ .none) (here : text.drop position = c :: after) :
    Scans text position [⟨type, [c], position⟩] (position + 1) := by
  have token := marker position (byteAt_of_drop here)
  refine Scans.single ⟨inside_of_drop here, ?_, ?_⟩ ?_
  · rw [token]
    exact valid
  · rw [token]
  · rw [token, readToken, here]
    rfl

theorem scans_end (here : text.drop position = 101 :: after) :
    Scans text position [endToken position] (position + 1) := by
  refine scans_marker (fun position first => ?_) BencodingToken.noConfusion here
  simp only [scanBencodingToken, first]
  rfl

theorem scans_nested {c : UInt8} {type : BencodingToken} {inner : List UInt8} {tokens : List ReadToken}
    (marker : ∀ position, byteAt text position = c → scanBencodingToken text position =
    (⟨type, position, 1⟩, position + 1))
    (valid : type ≠ .none) (here : text.drop position = c :: (inner ++ [101]) ++ after)
    (contents : ∀ after, text.drop (position + 1) = inner ++ after →
      Scans text (position + 1) tokens (position + 1 + inner.length)) :
    Scans text position (⟨type, [c], position⟩ :: (tokens ++ [endToken (position + 1 + inner.length)]))
      (position + (c :: (inner ++ [101])).length) := by
  rw [List.cons_append, List.append_assoc] at here
  have rest : text.drop (position + 1) = inner ++ 101 :: after := drop_of_drop [c] here
  have behind : position + (c :: (inner ++ [101])).length = position + 1 + inner.length + 1 := by
    rw [List.length_cons, List.length_append, List.length_singleton]
    omega
  rw [behind]
  exact (scans_marker marker valid here).append ((contents _ rest).append (scans_end (drop_of_drop _ rest)))

mutual

theorem scans_value (small : text.length < 2 ^ 31) (value : BencodedValue) {position : Nat} {after : List UInt8}
    (here : text.drop position = encodeValue value ++ after) :
    Scans text position (valueTokens position value) (position + (encodeValue value).length) := by
  match value with
  | .integer value => exact scans_integer small here
  | .string bytes => exact scans_string small here
  | .list items =>
      refine scans_nested (fun position first => ?_) BencodingToken.noConfusion here fun after rest =>
        scans_items small items rest
      simp only [scanBencodingToken, first]
      rfl
  | .dictionary entries =>
      refine scans_nested (fun position first => ?_) BencodingToken.noConfusion here fun after rest =>
        scans_entries small entries rest
      simp only [scanBencodingToken, first]
      rfl

theorem scans_items (small : text.length < 2 ^ 31) (items : List BencodedValue) {position : Nat} {after : List UInt8}
    (here : text.drop position = encodeItems items ++ after) :
    Scans text position (itemTokens position items) (position + (encodeItems items).length) := by
  match items with
  | [] => exact .refl position
  | item :: items =>
      rw [encodeItems, List.append_assoc] at here
      have rest := scans_items small items (drop_of_drop _ here)
      rw [itemTokens, encodeItems, List.length_append, ← Nat.add_assoc]
      exact (scans_value small item here).append rest

theorem scans_entries (small : text.length < 2 ^ 31) (entries : BencodedEntries) {position : Nat} {after : List UInt8}
    (here : text.drop position = encodeEntries entries ++ after) :
    Scans text position (entryTokens position entries) (position + (encodeEntries entries).length) := by
  match entries with
  | [] => exact .refl position
  | (key, value) :: entries =>
      rw [encodeEntries, List.append_assoc, List.append_assoc] at here
      have behind := drop_of_drop _ here
      have rest := scans_entries small entries (drop_of_drop _ behind)
      rw [entryTokens, encodeEntries, List.length_append, List.length_append, ← Nat.add_assoc, ← Nat.add_assoc]
      exact (scans_string small here).append ((scans_value small value behind).append rest)

end

theorem bencodingTokens_encodeValue (value : BencodedValue) (small : (encodeValue value).length < 2 ^ 31) :
    bencodingTokens (encodeValue value) = valueTokens 0 value := by
  have whole : (encodeValue value).drop 0 = encodeValue value ++ [] := (List.append_nil _).symm
  have scans := scans_value small value whole
  rw [Nat.zero_add] at scans
  exact scans.bencodingTokens

end Scans

section Skipping

/-- The tokens between the ends of a list or a dictionary are skipped one level further in. -/
theorem skipBencodingTokens_nested {level : Int} (outside : 0 ≤ level) {tokens rest : List ReadToken} {position : Nat}
    (contents : skipBencodingTokens (level + 1) (tokens ++ ([endToken position] ++ rest)) =
      skipBencodingTokens (level + 1) ([endToken position] ++ rest)) :
    (if 0 < level + 1 then skipBencodingTokens (level + 1) (tokens ++ ([endToken position] ++ rest))
      else tokens ++ ([endToken position] ++ rest)) = if 0 < level then skipBencodingTokens level rest else rest := by
  have back : nestingLevel (level + 1) .end = level := Int.add_sub_cancel level 1
  rw [if_pos (by omega), contents, List.singleton_append, skipBencodingTokens]
  show (if 0 < nestingLevel (level + 1) .end then skipBencodingTokens (nestingLevel (level + 1) .end) rest else
      rest) = _
  rw [back]

mutual

/-- A value is skipped as a whole, and then what is left of the lists around it. -/
theorem skipBencodingTokens_value (value : BencodedValue) {level : Int} (outside : 0 ≤ level) (position : Nat)
    (rest : List ReadToken) :
    skipBencodingTokens level (valueTokens position value ++ rest) =
      if 0 < level then skipBencodingTokens level rest else rest := by
  match value with
  | .integer value => rfl
  | .string bytes => rfl
  | .list items =>
      rw [valueTokens, List.cons_append, List.append_assoc, skipBencodingTokens]
      exact skipBencodingTokens_nested outside (skipBencodingTokens_items items (by omega) _ _)
  | .dictionary entries =>
      rw [valueTokens, List.cons_append, List.append_assoc, skipBencodingTokens]
      exact skipBencodingTokens_nested outside (skipBencodingTokens_entries entries (by omega) _ _)

theorem skipBencodingTokens_items (items : List BencodedValue) {level : Int} (inside : 0 < level) (position : Nat)
    (rest : List ReadToken) :
    skipBencodingTokens level (itemTokens position items ++ rest) = skipBencodingTokens level rest := by
  match items with
  | [] => rfl
  | item :: items =>
      rw [itemTokens, List.append_assoc, skipBencodingTokens_value item (Int.le_of_lt inside), if_pos inside]
      exact skipBencodingTokens_items items inside _ rest

theorem skipBencodingTokens_entries (entries : BencodedEntries) {level : Int} (inside : 0 < level) (position : Nat)
    (rest : List ReadToken) :
    skipBencodingTokens level (entryTokens position entries ++ rest) = skipBencodingTokens level rest := by
  match entries with
  | [] => rfl
  | (key, value) :: entries =>
      have named : 0 < nestingLevel level .string := inside
      rw [entryTokens, List.cons_append, List.append_assoc, skipBencodingTokens]
      show (if 0 < nestingLevel level .string then skipBencodingTokens (nestingLevel level .string) _ else _) = _
      rw [if_pos named]
      show skipBencodingTokens level _ = _
      rw [skipBencodingTokens_value value (Int.le_of_lt inside), if_pos inside]
      exact skipBencodingTokens_entries entries inside _ rest

end

end Skipping

section Entries
variable {ε σ ω : Type} {text : List UInt8}

theorem bencodingKey_entry (key : List UInt8) (value : BencodingToken) :
    bencodingKey key value ≠ .end ∧ bencodingKey key value ≠ .error := by
  have named : ∀ entry ∈ bencodingDictionaryEntries, entry.keyType ≠ .end ∧ entry.keyType ≠ .error := by
    decide
  rw [bencodingKey]
  split
  · exact ⟨BencodingKey.noConfusion, BencodingKey.noConfusion⟩
  next entry found => exact named entry (List.mem_of_find?_eq_some found)

theorem bencodingKey_type {key : List UInt8} {type expected : BencodingToken} {found : BencodingKey}
    (looked : bencodingKey key type = found) (known : found ≠ .none)
    (only : ∀ entry ∈ bencodingDictionaryEntries, entry.keyType = found → entry.valueType = expected) :
    type = expected := by
  rw [bencodingKey] at looked
  split at looked
  · exact absurd looked.symm known
  next entry here =>
    have same := List.find?_some here
    rw [Bool.and_eq_true, decide_eq_true_eq] at same
    exact same.2.trans (only entry (List.mem_of_find?_eq_some here) looked)

theorem BencodedValue.string_of_type {value : BencodedValue} (type : value.type = .string) :
    ∃ bytes, value = .string bytes := by
  cases value with
  | string bytes => exact ⟨bytes, rfl⟩
  | _ => cases type

theorem BencodedValue.integer_of_type {value : BencodedValue} (type : value.type = .integer) :
    ∃ number, value = .integer number := by
  cases value with
  | integer number => exact ⟨number, rfl⟩
  | _ => cases type

theorem BencodedValue.list_of_type {value : BencodedValue} (type : value.type = .list) :
    ∃ items, value = .list items := by
  cases value with
  | list items => exact ⟨items, rfl⟩
  | _ => cases type

theorem BencodedValue.dictionary_of_type {value : BencodedValue} (type : value.type = .dictionary) :
    ∃ entries, value = .dictionary entries := by
  cases value with
  | dictionary entries => exact ⟨entries, rfl⟩
  | _ => cases type

theorem skipBencodingTokens_whole (value : BencodedValue) (position : Nat) (rest : List ReadToken) :
    skipBencodingTokens 0 (valueTokens position value ++ rest) = rest :=
  skipBencodingTokens_value value (Int.le_refl 0) position rest

theorem valueTokens_head (position : Nat) (value : BencodedValue) :
    ∃ token tokens, valueTokens position value = token :: tokens ∧ token.type = value.type := by
  cases value <;> exact ⟨_, _, rfl, rfl⟩

theorem length_le_itemTokens (position : Nat) (items : List BencodedValue) :
    items.length ≤ (itemTokens position items).length := by
  induction items generalizing position with
  | nil => exact Nat.le_refl _
  | cons item items ih =>
      obtain ⟨token, tokens, split, _⟩ := valueTokens_head position item
      have rest := ih (position + (encodeValue item).length)
      rw [itemTokens, split, List.length_cons, List.length_append, List.length_cons]
      omega

theorem length_le_entryTokens (position : Nat) (entries : BencodedEntries) :
    entries.length ≤ (entryTokens position entries).length := by
  induction entries generalizing position with
  | nil => exact Nat.le_refl _
  | cons entry entries ih =>
      obtain ⟨key, value⟩ := entry
      have rest := ih (position + (encodeString key).length + (encodeValue value).length)
      rw [entryTokens, List.length_cons, List.length_cons, List.length_append]
      omega

theorem checkBencodingDictionaryEntry_entry (start position : Nat) (key : List UInt8) (value : BencodedValue)
    (rest : List ReadToken) :
    checkBencodingDictionaryEntry (stringToken start key :: (valueTokens position value ++ rest)) =
      (bencodingKey key value.type, valueTokens position value ++ rest) := by
  obtain ⟨token, tokens, split, type⟩ := valueTokens_head position value
  rw [split, ← type]
  rfl

def ReadsEntries (text : List UInt8) (entry : σ → BencodingKey → List ReadToken → Except ε (σ × List ReadToken))
    (meaning : σ → List UInt8 → BencodedValue → Except ε σ) : Prop :=
  ∀ parsed key value position rest, (∃ after, text.drop position = encodeValue value ++ after) →
    entry parsed (bencodingKey key value.type) (valueTokens position value ++ rest) =
      (meaning parsed key value).map fun parsed => (parsed, rest)

theorem parseBencodingEntries_entries
    {entry : σ → BencodingKey → List ReadToken → Except ε (σ × List ReadToken)}
    {meaning : σ → List UInt8 → BencodedValue → Except ε σ} (reads : ReadsEntries text entry meaning)
    (finish : σ → List ReadToken → Except ε ω) (error : σ → ε) {rounds : Nat} (entries : BencodedEntries)
    (enough : entries.length < rounds) (parsed : σ) {position stop : Nat} {after : List UInt8}
    (here : text.drop position = encodeEntries entries ++ after) (rest : List ReadToken) :
    parseBencodingEntries entry finish error rounds parsed (entryTokens position entries ++ endToken stop :: rest) =
      (entries.foldlM (fun parsed entry => meaning parsed entry.1 entry.2) parsed).bind fun parsed =>
        finish parsed (endToken stop :: rest) := by
  induction entries generalizing rounds parsed position with
  | nil =>
      obtain ⟨rounds, rfl⟩ := Nat.exists_eq_succ_of_ne_zero (Nat.pos_iff_ne_zero.mp enough)
      rfl
  | cons first entries ih =>
      obtain ⟨key, value⟩ := first
      obtain ⟨rounds, rfl⟩ := Nat.exists_eq_succ_of_ne_zero (Nat.pos_iff_ne_zero.mp (Nat.zero_lt_of_lt enough))
      rw [encodeEntries, List.append_assoc, List.append_assoc] at here
      have behind := drop_of_drop _ here
      obtain ⟨notEnd, notError⟩ := bencodingKey_entry key value.type
      have answer := reads parsed key value (position + (encodeString key).length)
        (entryTokens (position + (encodeString key).length + (encodeValue value).length) entries ++ endToken stop ::
        rest)
        ⟨_, behind⟩
      rw [entryTokens, List.cons_append, List.append_assoc, parseBencodingEntries,
        checkBencodingDictionaryEntry_entry, List.foldlM_cons]
      split
      next same => exact absurd (Prod.ext_iff.mp same).1 notEnd
      next same => exact absurd (Prod.ext_iff.mp same).1 notError
      next same =>
        cases same
        rw [answer]
        cases meaning parsed key value with
        | error failure => rfl
        | ok parsed => exact ih (Nat.lt_of_succ_lt_succ enough) parsed (drop_of_drop _ behind)

theorem parseBencodingEntries_dictionary
    {entry : σ → BencodingKey → List ReadToken → Except ε (σ × List ReadToken)}
    {meaning : σ → List UInt8 → BencodedValue → Except ε σ} (reads : ReadsEntries text entry meaning)
    (finish : σ → List ReadToken → Except ε ω) (error : σ → ε) {entries : BencodedEntries} (parsed : σ)
    {position : Nat} {after : List UInt8} (here : text.drop position = encodeValue (.dictionary entries) ++ after)
    (rest : List ReadToken) :
    parseBencodingEntries entry finish error (valueTokens position (.dictionary entries) ++ rest).length parsed
        ((valueTokens position (.dictionary entries) ++ rest).drop 1) =
      (entries.foldlM (fun parsed entry => meaning parsed entry.1 entry.2) parsed).bind fun parsed =>
        finish parsed (endToken (position + 1 + (encodeEntries entries).length) :: rest) := by
  have inside : text.drop (position + 1) = encodeEntries entries ++ ([101] ++ after) := by
    rw [encodeValue, List.cons_append, List.append_assoc] at here
    exact drop_of_drop [100] here
  have enough : entries.length < (valueTokens position (.dictionary entries) ++ rest).length := by
    have fewer := length_le_entryTokens (position + 1) entries
    rw [valueTokens, List.length_append, List.length_cons, List.length_append]
    omega
  have whole : (valueTokens position (.dictionary entries) ++ rest).drop 1 = entryTokens (position + 1) entries ++
      endToken (position + 1 + (encodeEntries entries).length) :: rest := by
    rw [valueTokens, List.cons_append, List.append_assoc]
    rfl
  rw [whole]
  exact parseBencodingEntries_entries reads finish error entries enough parsed inside rest

end Entries

end KcnTools.Bittorrent
