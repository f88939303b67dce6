import KcnTools.Lib.Decimal
import KcnTools.Protocol.ProtocolTable
import Mathlib.Data.Int.Order.Basic

/-!
How option values are written to the configuration file and read back: the handlers of
`config/opttypes.c` with the conversions of `util/conv.c`. A `long` has 64 bits.
-/

namespace KcnTools.Config

open Protocols Decimal

def INT_MAX : Int := 2 ^ 31 - 1

def isspace (c : UInt8) : Bool := c = 32 || (9 ≤ c && c ≤ 13)

/-! Numbers. -/

def longcat (num : Int) : List UInt8 := if num < 0 then 45 :: decimal num.natAbs else decimal num.natAbs

def addKnumToString (num : Int) : List UInt8 :=
  if num ≠ 0 ∧ num.tdiv (1024 * 1024) * (1024 * 1024) = num then longcat (num.tdiv (1024 * 1024)) ++ [77]
  else if num ≠ 0 ∧ num.tdiv 1024 * 1024 = num then longcat (num.tdiv 1024) ++ [107]
  else longcat num

/-- The digits behind the sign, and what is left behind them; without a digit all of the text is left. -/
def strtolDigits (str : List UInt8) (negative : Bool) (number : List UInt8) : Option Int × List UInt8 :=
  let digits := number.takeWhile isdigit
  if digits.isEmpty then (some 0, str)
  else
    let value : Int := if negative then -(decimalValue digits) else decimalValue digits
    (if -2 ^ 63 ≤ value ∧ value < 2 ^ 63 then some value else none, number.drop digits.length)

/-- `strtol (str, &end, 10)` with its `end`; `none` sets `errno`. -/
def strtol (str : List UInt8) : Option Int × List UInt8 :=
  match str.dropWhile isspace with
  | 45 :: number => strtolDigits str true number
  | 43 :: number => strtolDigits str false number
  | number => strtolDigits str false number

def scaled (num scale : Int) : Int :=
  if num < (-INT_MAX).tdiv scale then -INT_MAX
  else if INT_MAX.tdiv scale < num then INT_MAX
  else num * scale

def applyLetter (num : Int) : List UInt8 → Int × List UInt8
  | [] => (num, [])
  | c :: rest =>
      if c = 75 ∨ c = 107 then (scaled num 1024, rest)
      else if c = 77 ∨ c = 109 then (scaled num (1024 * 1024), rest)
      else (num, c :: rest)

def strtolx (str : List UInt8) : Int × List UInt8 :=
  match strtol str with
  | (none, rest) => (0, rest)
  | (some num, rest) => applyLetter num rest

def numRd (min max : Int) (file : List UInt8) : Option (Int × List UInt8) :=
  let (value, rest) := strtolx file
  let next := rest.headD 0
  if (next ≠ 0 ∧ isspace next = false ∧ next ≠ 35) ∨ value < min ∨ max < value then none
  else some (value, rest)

inductive NumberType
  | bool
  | int
  | long
  deriving DecidableEq

def NumberType.range : NumberType → Int × Int
  | .bool => (0, 1)
  | .int => (-2 ^ 31, 2 ^ 31 - 1)
  | .long => (-2 ^ 63, 2 ^ 63 - 1)

structure NumberOption where
  type : NumberType
  min : Int
  max : Int
  value : Int
  fits : type.range.1 ≤ value ∧ value ≤ type.range.2
  inside : min ≤ value ∧ value ≤ max

def numWr (option : NumberOption) : List UInt8 := addKnumToString option.value

def longWr (option : NumberOption) : List UInt8 := addKnumToString option.value

def NumberOption.write (option : NumberOption) : List UInt8 :=
  match option.type with
  | .bool | .int => numWr option
  | .long => longWr option

/-! Strings. -/

def MAX_STR_LEN : Nat := 1024

def isquote (c : UInt8) : Bool := c = 34 || c = 39

def addQuotedToString (src : List UInt8) : List UInt8 :=
  src.flatMap fun c => if isquote c || c = 92 then [92, c] else [c]

def addOptstringToString (q : List UInt8) : List UInt8 := [34] ++ addQuotedToString q ++ [34]

structure StringOption where
  value : List UInt8
  noNul : 0 ∉ value
  fits : value.length < MAX_STR_LEN

def StringOption.max (_ : StringOption) : Nat := MAX_STR_LEN

def strWr (option : StringOption) : List UInt8 :=
  addOptstringToString (option.value.take (min option.value.length (option.max - 1)))

/-- The loop of `str_rd` with the string so far; it ends at a quote, which is left, or at the NUL. -/
def strLoop : List UInt8 → List UInt8 → List UInt8 × List UInt8
  | [], str => (str, [])
  | 92 :: c :: rest, str =>
      if c = 10 then strLoop rest (str ++ [32])
      else if isquote c || c = 92 then strLoop rest (str ++ [c])
      else strLoop (c :: rest) (str ++ [92])
  | c :: rest, str => if c = 0 || isquote c then (str, c :: rest) else strLoop rest (str ++ [c])

def strRd (max : Nat) (file : List UInt8) : Option (List UInt8 × List UInt8) :=
  match file with
  | [] => none
  | quote :: rest =>
      if isquote quote = false then none
      else
        match strLoop rest [] with
        | (_, []) => none
        | (str, c :: rest) =>
            if c = 0 then none
            else if max ≠ 0 ∧ max ≤ str.length then none
            else some (str, rest)

end KcnTools.Config

/-!
Which option values come back from the configuration file: every string, and every number but the
multiples of 1024 that an `int` is too small for.
-/

namespace KcnTools.Config

open Protocols Decimal

/-! Numbers. -/

def Delimited (rest : List UInt8) : Prop := ∀ c ∈ rest.head?, c = 0 ∨ isspace c = true ∨ c = 35

theorem isdigit_decimal {n : Nat} {c : UInt8} (member : c ∈ decimal n) : isdigit c = true := by
  obtain ⟨low, high⟩ := decimal_digits member
  simp only [isdigit, Bool.and_eq_true, decide_eq_true_eq, UInt8.le_iff_toNat_le]
  exact ⟨low, high⟩

theorem not_isdigit_of_isspace {c : UInt8} (space : isspace c = true) : isdigit c = false := by
  simp only [isspace, Bool.or_eq_true, Bool.and_eq_true, decide_eq_true_eq] at space
  simp only [isdigit, Bool.and_eq_false_iff, decide_eq_false_iff_not]
  left
  rw [UInt8.not_le]
  rcases space with rfl | ⟨-, high⟩
  · decide
  · exact UInt8.lt_of_le_of_lt high (by decide)

theorem takeWhile_decimal (n : Nat) {rest : List UInt8} (stops : ∀ c ∈ rest.head?, isdigit c = false) :
    (decimal n ++ rest).takeWhile isdigit = decimal n := by
  rw [List.takeWhile_append_of_pos fun c member => isdigit_decimal member]
  cases rest with
  | nil => rw [List.takeWhile_nil, List.append_nil]
  | cons c rest => rw [List.takeWhile_cons_of_neg (by rw [stops c rfl]; exact Bool.false_ne_true), List.append_nil]

theorem decimal_cons (n : Nat) :
    ∃ c digits, decimal n = c :: digits ∧ isspace c = false ∧ c ≠ 45 ∧ c ≠ 43 := by
  cases written : decimal n with
  | nil => exact absurd written (decimal_ne_nil n)
  | cons c digits =>
      have digit : isdigit c = true := isdigit_decimal (n := n) (written ▸ List.mem_cons_self)
      refine ⟨c, digits, rfl, ?_, ?_, ?_⟩
      · rw [Bool.eq_false_iff]
        intro space
        rw [not_isdigit_of_isspace space] at digit
        cases digit
      · rintro rfl
        cases digit
      · rintro rfl
        cases digit

theorem strtolDigits_decimal (str : List UInt8) (negative : Bool) (n : Nat) {rest : List UInt8}
    (stops : ∀ c ∈ rest.head?, isdigit c = false) :
    strtolDigits str negative (decimal n ++ rest) =
      (if -2 ^ 63 ≤ (if negative then -(n : Int) else n) ∧ (if negative then -(n : Int) else n) < 2 ^ 63 then
        some (if negative then -(n : Int) else n) else none, rest) := by
  have filled : (decimal n).isEmpty = false := by
    rw [List.isEmpty_eq_false_iff]
    exact decimal_ne_nil n
  rw [strtolDigits]
  dsimp only
  rw [takeWhile_decimal n stops, filled, decimalValue_decimal, List.drop_left]
  rfl

theorem strtol_longcat {num : Int} (range : -2 ^ 63 ≤ num ∧ num < 2 ^ 63) {rest : List UInt8}
    (stops : ∀ c ∈ rest.head?, isdigit c = false) : strtol (longcat num ++ rest) = (some num, rest) := by
  rw [longcat]
  split
  next negative =>
    rw [List.cons_append, strtol, List.dropWhile_cons_of_neg (by decide)]
    show strtolDigits (45 :: (decimal num.natAbs ++ rest)) true (decimal num.natAbs ++ rest) = _
    rw [strtolDigits_decimal _ _ _ stops, if_pos rfl, show -(num.natAbs : Int) = num by omega, if_pos range]
  next positive =>
    obtain ⟨c, digits, written, unspaced, notMinus, notPlus⟩ := decimal_cons num.natAbs
    have unchanged : (decimal num.natAbs ++ rest).dropWhile isspace = decimal num.natAbs ++ rest := by
      rw [written, List.cons_append, List.dropWhile_cons_of_neg (by rw [unspaced]; exact Bool.false_ne_true)]
    have digitsRead := strtolDigits_decimal (decimal num.natAbs ++ rest) false num.natAbs stops
    rw [if_neg Bool.false_ne_true, show (num.natAbs : Int) = num by omega, if_pos range] at digitsRead
    rw [strtol, unchanged]
    split
    next number sign =>
      rw [written, List.cons_append, List.cons.injEq] at sign
      exact absurd sign.1 notMinus
    next number sign =>
      rw [written, List.cons_append, List.cons.injEq] at sign
      exact absurd sign.1 notPlus
    next => exact digitsRead

theorem Delimited.stops {rest : List UInt8} (delimited : Delimited rest) : ∀ c ∈ rest.head?, isdigit c = false := by
  intro c member
  rcases delimited c member with rfl | space | rfl
  · decide
  · exact not_isdigit_of_isspace space
  · decide

theorem Delimited.applyLetter {rest : List UInt8} (delimited : Delimited rest) (num : Int) :
    applyLetter num rest = (num, rest) := by
  cases rest with
  | nil => rfl
  | cons c rest =>
      have apart : ∀ letter : UInt8, ¬ (letter = 0 ∨ isspace letter = true ∨ letter = 35) → c ≠ letter := by
        rintro letter other rfl
        exact other (delimited c rfl)
      rw [Config.applyLetter, if_neg, if_neg]
      · rintro (same | same)
        · exact apart 77 (by decide) same
        · exact apart 109 (by decide) same
      · rintro (same | same)
        · exact apart 75 (by decide) same
        · exact apart 107 (by decide) same

def readBack (num : Int) : Int :=
  if 1024 ∣ num then
    if num ≤ -2 ^ 31 then -INT_MAX else if 2 ^ 31 ≤ num then INT_MAX else num
  else num

theorem readBack_eq_iff (num : Int) : readBack num = num ↔ (1024 ∣ num → -2 ^ 31 < num ∧ num < 2 ^ 31) := by
  rw [readBack, INT_MAX]
  split
  next multiple =>
    split
    · constructor
      · omega
      · intro small
        have := small multiple
        omega
    · split
      · constructor
        · omega
        · intro small
          have := small multiple
          omega
      · exact iff_of_true rfl fun _ => by omega
  next other => exact iff_of_true rfl fun multiple => absurd multiple other

theorem scaled_eq {num scale : Int} (kind : scale = 1024 ∨ scale = 1024 * 1024) :
    scaled num scale = readBack (num * scale) := by
  have multiple : (1024 : Int) ∣ num * scale := by
    rcases kind with rfl | rfl
    · exact Int.dvd_mul_left num 1024
    · exact Int.dvd_trans (Int.dvd_mul_right 1024 1024) (Int.dvd_mul_left num _)
  rw [readBack, if_pos multiple, scaled]
  rcases kind with rfl | rfl
  · have low : (-INT_MAX).tdiv 1024 = -2097151 := by decide
    have high : INT_MAX.tdiv 1024 = 2097151 := by decide
    rw [low, high]
    by_cases small : num < -2097151
    · rw [if_pos small, if_pos (by omega)]
    · by_cases large : 2097151 < num
      · rw [if_neg small, if_pos large, if_neg (by omega), if_pos (by omega)]
      · rw [if_neg small, if_neg large, if_neg (by omega), if_neg (by omega)]
  · have low : (-INT_MAX).tdiv (1024 * 1024) = -2047 := by decide
    have high : INT_MAX.tdiv (1024 * 1024) = 2047 := by decide
    rw [low, high]
    by_cases small : num < -2047
    · rw [if_pos small, if_pos (by omega)]
    · by_cases large : 2047 < num
      · rw [if_neg small, if_pos large, if_neg (by omega), if_pos (by omega)]
      · rw [if_neg small, if_neg large, if_neg (by omega), if_neg (by omega)]

theorem strtolx_addKnum {num : Int} (range : -2 ^ 63 ≤ num ∧ num < 2 ^ 63) {rest : List UInt8}
    (delimited : Delimited rest) : strtolx (addKnumToString num ++ rest) = (readBack num, rest) := by
  rw [addKnumToString]
  split
  next mega =>
    have read := @strtol_longcat (num.tdiv (1024 * 1024)) (by omega) (77 :: rest) (by rintro _ ⟨⟩; decide)
    rw [List.append_assoc, List.singleton_append, strtolx, read]
    dsimp only
    rw [applyLetter, if_neg (by decide), if_pos (.inl rfl), scaled_eq (.inr rfl), mega.2]
  next =>
    split
    next kilo =>
      have read := @strtol_longcat (num.tdiv 1024) (by omega) (107 :: rest) (by rintro _ ⟨⟩; decide)
      rw [List.append_assoc, List.singleton_append, strtolx, read]
      dsimp only
      rw [applyLetter, if_pos (.inr rfl), scaled_eq (.inl rfl), kilo.2]
    next plain =>
      have same : readBack num = num := by
        rw [readBack_eq_iff]
        intro multiple
        by_cases zero : num = 0
        · omega
        · exact absurd ⟨zero, Int.tdiv_mul_cancel multiple⟩ plain
      rw [strtolx, strtol_longcat range delimited.stops]
      dsimp only
      rw [delimited.applyLetter, same]

theorem NumberOption.write_eq (option : NumberOption) : option.write = addKnumToString option.value := by
  rw [NumberOption.write]
  split <;> rfl

theorem NumberOption.range (option : NumberOption) : -2 ^ 63 ≤ option.value ∧ option.value < 2 ^ 63 := by
  have fits := option.fits
  cases named : option.type <;> rw [named, NumberType.range] at fits <;> omega

theorem numRd_write (option : NumberOption) {rest : List UInt8} (delimited : Delimited rest) :
    numRd option.min option.max (option.write ++ rest) = some (option.value, rest) ↔
      (1024 ∣ option.value → -2 ^ 31 < option.value ∧ option.value < 2 ^ 31) := by
  have next : ¬ (rest.headD 0 ≠ 0 ∧ isspace (rest.headD 0) = false ∧ rest.headD 0 ≠ 35) := by
    cases rest with
    | nil => exact fun other => other.1 rfl
    | cons c rest =>
        rintro ⟨nonzero, unspaced, uncommented⟩
        rw [List.headD_cons] at nonzero unspaced uncommented
        rcases delimited c rfl with nul | space | hash
        · exact nonzero nul
        · rw [space] at unspaced
          cases unspaced
        · exact uncommented hash
  rw [option.write_eq, numRd, strtolx_addKnum option.range delimited, ← readBack_eq_iff]
  dsimp only
  constructor
  · intro read
    split at read
    · cases read
    · exact (Prod.mk.inj (Option.some.inj read)).1
  · intro same
    have inside := option.inside
    rw [same, if_neg]
    rintro (other | low | high)
    · exact next other
    · omega
    · omega

/-! Strings. -/

theorem strLoop_quoted {value : List UInt8} (noNul : 0 ∉ value) (str rest : List UInt8) :
    strLoop (addQuotedToString value ++ 34 :: rest) str = (str ++ value, 34 :: rest) := by
  induction value generalizing str with
  | nil =>
      rw [addQuotedToString, List.flatMap_nil, List.nil_append, List.append_nil, strLoop]
      · rfl
      · nofun
  | cons c value ih =>
      rw [List.mem_cons, not_or] at noNul
      have later := ih noNul.2 (str ++ [c])
      rw [List.append_assoc, List.singleton_append] at later
      rw [addQuotedToString, List.flatMap_cons, ← addQuotedToString]
      split
      next special =>
        have notNewline : c ≠ 10 := by
          rintro rfl
          revert special
          decide
        rw [List.cons_append, List.singleton_append, List.cons_append, List.cons_append, strLoop, if_neg notNewline,
          if_pos (by simpa using special)]
        exact later
      next plain =>
        have kept : ¬ (c = 0 || isquote c) = true := by
          rw [Bool.or_eq_true, decide_eq_true_eq]
          rintro (nul | quote)
          · exact noNul.1 nul.symm
          · exact plain (by rw [quote, Bool.true_or])
        rw [List.singleton_append, List.cons_append, strLoop, if_neg kept]
        · exact later
        · intro _ _ backslash _
          exact plain (by rw [backslash]; rfl)

theorem strRd_write (option : StringOption) (rest : List UInt8) :
    strRd option.max (strWr option ++ rest) = some (option.value, rest) := by
  have fits := option.fits
  have whole : min option.value.length (option.max - 1) = option.value.length :=
    Nat.min_eq_left (Nat.le_pred_of_lt fits)
  rw [strWr, whole, List.take_length, addOptstringToString, List.append_assoc, List.append_assoc,
    List.singleton_append, List.singleton_append, strRd, if_neg (by decide), strLoop_quoted option.noNul]
  dsimp only
  rw [if_neg (show ¬ ((34 : UInt8) = 0) by decide), List.nil_append, if_neg]
  rintro ⟨-, long⟩
  exact absurd fits (Nat.not_lt.mpr long)

/-- Written options are read back with the text behind them: all strings, and exactly the numbers
that are no multiple of 1024 or less than `2 ^ 31` in size. -/
theorem options_readBack_iff (number : NumberOption) (string : StringOption) (rest : List UInt8) :
    (Delimited rest →
      (numRd number.min number.max (number.write ++ rest) = some (number.value, rest) ↔
        (1024 ∣ number.value → -2 ^ 31 < number.value ∧ number.value < 2 ^ 31))) ∧
    strRd string.max (strWr string ++ rest) = some (string.value, rest) :=
  ⟨fun delimited => numRd_write number delimited, strRd_write string rest⟩

def pageSize : NumberOption where
  type := .int
  min := 1
  max := 2 ^ 31 - 1
  value := 4096
  fits := by decide
  inside := by decide

/-- Two quotes and a backslash -/
def quotedText : StringOption where
  value := ascii ['a', '"', 'b', '\\', '\'']
  noNul := by decide
  fits := by decide

theorem options_readBack_iff_quoted :
    numRd 1 (2 ^ 31 - 1) (ascii ['4', 'k', '\n']) = some (4096, ascii ['\n']) ∧
      strRd quotedText.max (strWr quotedText ++ ascii ['\n']) = some (quotedText.value, ascii ['\n']) := by
  obtain ⟨number, string⟩ := options_readBack_iff pageSize quotedText (ascii ['\n'])
  have written : pageSize.write ++ ascii ['\n'] = ascii ['4', 'k', '\n'] := by decide +kernel
  have delimited : Delimited (ascii ['\n']) := fun c first => by
    rw [← Option.some.inj first]
    exact .inr (.inl (by decide))
  rw [written] at number
  exact ⟨(number delimited).mpr fun _ => by decide, string⟩

def cacheSize : NumberOption where
  type := .long
  min := 0
  max := 2 ^ 63 - 1
  value := 2 ^ 32
  fits := by decide
  inside := by decide

/-- It is read back as one of 2 GiB less a byte. -/
theorem cacheSize_readBack :
    cacheSize.write = ascii ['4', '0', '9', '6', 'M'] ∧
      numRd cacheSize.min cacheSize.max (cacheSize.write ++ [10]) = some (2 ^ 31 - 1, [10]) := by
  decide +kernel

end KcnTools.Config
