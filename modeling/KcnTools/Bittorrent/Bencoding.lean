import KcnTools.Util.Fastfind
import KcnTools.Cache.CacheCore
import KcnTools.Protocol.ProtocolTable
import KcnTools.Util.Scanner
import Mathlib

/-!
The scanner of bencoded data (`bencoding.c`). The text is followed by a NUL. What a caller reads
from the scanner table is compared with scanning one token after the other.
-/

namespace KcnTools.Bittorrent

open Cache (wrapInt)
open Protocols (byteAt isdigit)
open Util

/-- The tokens of the scanner; `none` marks unused entries and ends the scanning. -/
inductive BencodingToken
  | none | integer | list | dictionary | end | string
  deriving DecidableEq

instance : Inhabited BencodingToken := ⟨.none⟩

abbrev BencodingScanner := Scanner BencodingToken

/-- `strtoul` on digits, `none` when the value leaves `unsigned long`. -/
def strtoul (digits : List UInt8) : Option Nat :=
  let value := digits.foldl (fun value c => 10 * value + (c.toNat - 48)) 0
  if value < 2 ^ 64 then some value else none

def scanBencodingInteger (text : List UInt8) (string : Nat) : Nat :=
  string + ((text.drop string).takeWhile isdigit).length

/-- The data of a string token whose length starts at `start` and ends with the `:` at `string`. -/
def claimString (text : List UInt8) (start string : Nat) : Option Nat :=
  match strtoul ((text.drop start).takeWhile isdigit) with
  | none => none
  | some stringLength =>
      if stringLength < 2 ^ 31 - 1 ∧ string + stringLength < text.length then some stringLength
      else none

def noToken (position string : Nat) : ScannerToken BencodingToken × Nat :=
  (⟨.none, position, wrapInt ((string : Int) - position)⟩, string)

def scanStringToken (text : List UInt8) (position : Nat) : ScannerToken BencodingToken × Nat :=
  let string := scanBencodingInteger text (position + 1)
  if byteAt text string = 58 then
    match claimString text position string with
    | none => noToken position string
    | some stringLength => (⟨.string, string + 1, stringLength⟩, string + 1 + stringLength)
  else noToken position string

def scanIntegerToken (text : List UInt8) (position : Nat) : ScannerToken BencodingToken × Nat :=
  let integerStart := position + 1
  let signed := if byteAt text integerStart = 45 then integerStart + 1 else integerStart
  let string := scanBencodingInteger text signed
  if byteAt text string = 101 then
    let realLength := wrapInt ((string : Int) - integerStart)
    (⟨.integer, integerStart,
      if 0 < realLength then realLength else wrapInt ((string : Int) + 1 - integerStart)⟩, string + 1)
  else noToken position string

def scanBencodingToken (text : List UInt8) (position : Nat) :
    ScannerToken BencodingToken × Nat :=
  let firstChar := byteAt text position
  if isdigit firstChar then scanStringToken text position
  else if firstChar = 101 then (⟨.end, position, 1⟩, position + 1)
  else if firstChar = 105 then scanIntegerToken text position
  else if firstChar = 100 then (⟨.dictionary, position, 1⟩, position + 1)
  else if firstChar = 108 then (⟨.list, position, 1⟩, position + 1)
  else noToken position (position + 1)

/-- Fills the entries of the table from `current` on; the result is one past the last token. -/
def fillTable (text : List UInt8) : Nat → BencodingScanner → Nat → BencodingScanner × Int
  | 0, scanner, current => (scanner, current)
  | room + 1, scanner, current =>
      match scanner.position with
      | none => (scanner, current)
      | some position =>
          if position < scanner.stop then
            let scanned := scanBencodingToken text position
            let table := scanner.table.set current scanned.1
            if scanned.1.type = .none then
              ({ scanner with table := table, position := none }, (current : Int) - 1)
            else
              fillTable text room { scanner with table := table, position := some scanned.2 }
                (current + 1)
          else (scanner, current)

def scanBencodingTokens (text : List UInt8) (scanner : BencodingScanner) : BencodingScanner :=
  match beginTokenScanning scanner with
  | (scanner, false) => scanner
  | (scanner, true) =>
      let filled := fillTable text (tableSize - scanner.tokens.toNat) scanner scanner.tokens.toNat
      endTokenScanning filled.1 filled.2

def initBencodingScanner (text : List UInt8) : BencodingScanner :=
  initScanner (scanBencodingTokens text) text.length

theorem le_scanBencodingInteger (text : List UInt8) (string : Nat) :
    string ≤ scanBencodingInteger text string := Nat.le_add_right _ _

theorem scanStringToken_advances (text : List UInt8) (position : Nat) :
    position < (scanStringToken text position).2 := by
  have digits := le_scanBencodingInteger text (position + 1)
  simp only [scanStringToken, noToken]
  split
  · cases claimString text position (scanBencodingInteger text (position + 1)) with
    | none => exact digits
    | some stringLength =>
        simp only
        omega
  · exact digits

theorem scanIntegerToken_advances (text : List UInt8) (position : Nat) :
    position < (scanIntegerToken text position).2 := by
  have signed : position + 1 ≤
      if byteAt text (position + 1) = 45 then position + 1 + 1 else position + 1 := by
    split <;> omega
  have digits := Nat.le_trans signed (le_scanBencodingInteger text _)
  simp only [scanIntegerToken, noToken]
  generalize scanBencodingInteger text _ = string at digits ⊢
  split
  · exact Nat.lt_succ_of_lt digits
  · exact digits

theorem scanBencodingToken_advances (text : List UInt8) (position : Nat) :
    position < (scanBencodingToken text position).2 := by
  simp only [scanBencodingToken, noToken]
  split
  · exact scanStringToken_advances text position
  · split
    · exact Nat.lt_succ_self position
    · split
      · exact scanIntegerToken_advances text position
      · repeat' split
        all_goals exact Nat.lt_succ_self position

def plainTokens (text : List UInt8) (position : Nat) : List (ScannerToken BencodingToken) :=
  if position < text.length then
    if (scanBencodingToken text position).1.type = .none then []
    else (scanBencodingToken text position).1 ::
      plainTokens text (scanBencodingToken text position).2
  else []
termination_by text.length - position
decreasing_by
  have advances := scanBencodingToken_advances text position
  omega

theorem plainTokens_of_le {text : List UInt8} {position : Nat} (ended : text.length ≤ position) :
    plainTokens text position = [] := by
  rw [plainTokens, if_neg (Nat.not_lt.mpr ended)]

theorem plainTokens_of_none {text : List UInt8} {position : Nat} (inside : position < text.length)
    (invalid : (scanBencodingToken text position).1.type = .none) :
    plainTokens text position = [] := by
  rw [plainTokens, if_pos inside, if_pos invalid]

structure TokenStep (text : List UInt8) (position next : Nat) : Prop where
  inside : position < text.length
  valid : (scanBencodingToken text position).1.type ≠ .none
  next_eq : (scanBencodingToken text position).2 = next

def InvalidAt (text : List UInt8) (position : Nat) : Prop :=
  position < text.length ∧ (scanBencodingToken text position).1.type = .none

theorem TokenStep.tokens {text : List UInt8} {position next : Nat}
    (step : TokenStep text position next) :
    plainTokens text position = (scanBencodingToken text position).1 :: plainTokens text next := by
  rw [plainTokens, if_pos step.inside, if_neg step.valid, step.next_eq]

def CutOff (text : List UInt8) (position : Nat) : Prop :=
  ∃ place, Relation.ReflTransGen (TokenStep text) position place ∧ InvalidAt text place

theorem not_cutOff {text : List UInt8} {position : Nat} (ended : text.length ≤ position) :
    ¬ CutOff text position := by
  rintro ⟨place, reached, invalid⟩
  rcases reached.cases_head with rfl | ⟨next, step, _⟩
  · exact Nat.not_lt.mpr ended invalid.1
  · exact Nat.not_lt.mpr ended step.inside

theorem TokenStep.cutOff_iff {text : List UInt8} {position next : Nat}
    (step : TokenStep text position next) : CutOff text position ↔ CutOff text next := by
  constructor
  · rintro ⟨place, reached, invalid⟩
    rcases reached.cases_head with rfl | ⟨other, first, rest⟩
    · exact absurd invalid.2 step.valid
    · have same : other = next := first.next_eq.symm.trans step.next_eq
      exact ⟨place, same ▸ rest, invalid⟩
  · rintro ⟨place, reached, invalid⟩
    exact ⟨place, reached.head step, invalid⟩

section Window

open scoped Classical

variable {text : List UInt8}

theorem continued_end {done : List (ScannerToken BencodingToken)} {position : Nat}
    (ended : text.length ≤ position) :
    continued (plainTokens text) (CutOff text) done position = done := by
  rw [continued, if_neg (not_cutOff ended), plainTokens_of_le ended, List.append_nil]

theorem continued_invalid {done : List (ScannerToken BencodingToken)} {position : Nat}
    (invalid : InvalidAt text position) :
    continued (plainTokens text) (CutOff text) done position = done.dropLast := by
  rw [continued, if_pos ⟨position, .refl, invalid⟩, plainTokens_of_none invalid.1 invalid.2,
    List.append_nil]

theorem continued_step {done : List (ScannerToken BencodingToken)} {position next : Nat}
    (step : TokenStep text position next) :
    continued (plainTokens text) (CutOff text) (done ++ [(scanBencodingToken text position).1]) next =
      continued (plainTokens text) (CutOff text) done position := by
  simp only [continued, step.cutOff_iff, step.tokens, List.append_assoc, List.singleton_append]

theorem take_set_succ {α : Type} (entries : List α) (index : Nat) (entry : α)
    (inside : index < entries.length) :
    (entries.set index entry).take (index + 1) = entries.take index ++ [entry] := by
  rw [List.take_add_one, List.take_set_of_le (Nat.le_refl index), List.getElem?_set_self inside]
  rfl

/-- What filling the table leaves to be read, and that a full table ends a batch. -/
structure Filled (text : List UInt8) (filled : BencodingScanner × Int)
    (tokens : List (ScannerToken BencodingToken)) : Prop where
  table : TableOk text.length (endTokenScanning filled.1 filled.2)
  full : (endTokenScanning filled.1 filled.2).position.isSome = true → filled.2 = tableSize
  remaining :
    (endTokenScanning filled.1 filled.2).remaining (plainTokens text) (CutOff text) = tokens

theorem Filled.stop {scanner : BencodingScanner} {position current : Nat}
    (size : scanner.table.length = tableSize) (stop : scanner.stop = text.length)
    (here : scanner.position = some position) (inside : current ≤ tableSize)
    (full : position < text.length → current = tableSize) :
    Filled text (scanner, current) (continued (plainTokens text) (CutOff text)
      (scanner.table.take current) position) where
  table := ⟨stop, size, by simpa [endTokenScanning] using inside⟩
  full := by
    intro more
    rw [endTokenScanning, here, stop] at more
    simp only [Option.isSome_filter, Option.any_some, decide_eq_true_eq] at more
    rw [full more]
  remaining := by
    rw [endTokenScanning_remaining here, stop, Int.toNat_natCast]
    by_cases more : position < text.length
    · rw [if_pos more]
    · rw [if_neg more, continued_end (Nat.not_lt.mp more)]

theorem fillTable_spec (room : Nat) (scanner : BencodingScanner) (position current : Nat)
    (size : scanner.table.length = tableSize) (stop : scanner.stop = text.length)
    (here : scanner.position = some position) (fits : current + room = tableSize) :
    Filled text (fillTable text room scanner current) (continued (plainTokens text) (CutOff text)
      (scanner.table.take current) position) := by
  induction room generalizing scanner position current with
  | zero => exact Filled.stop size stop here (by omega) fun _ => by omega
  | succ room ih =>
      rw [fillTable, here]
      simp only
      by_cases more : position < text.length
      · rw [if_pos (stop ▸ more)]
        have inside : current < scanner.table.length := by omega
        by_cases invalid : (scanBencodingToken text position).1.type = .none
        · rw [if_pos invalid, continued_invalid ⟨more, invalid⟩]
          refine ⟨⟨stop, ?_, ?_⟩, ?_, ?_⟩
          · simpa [endTokenScanning] using size
          · simp only [endTokenScanning]
            omega
          · simp [endTokenScanning]
          · have last : ((current : Int) - 1).toNat = current - 1 := by omega
            simp only [Scanner.remaining, endTokenScanning, Option.filter_none, Scanner.pending, last,
              List.drop_zero]
            rw [List.take_set_of_le (Nat.sub_le current 1), List.dropLast_eq_take, List.take_take,
              List.length_take]
            congr 1
            omega
        · rw [if_neg invalid]
          have filled := ih { scanner with
              table := scanner.table.set current (scanBencodingToken text position).1
              position := some (scanBencodingToken text position).2 } _ (current + 1)
            (by simpa using size) stop rfl (by omega)
          rwa [take_set_succ _ _ _ inside, continued_step ⟨more, invalid, rfl⟩] at filled
      · rw [if_neg (stop ▸ more)]
        exact Filled.stop size stop here (by omega) fun inside => absurd inside more

theorem scanBencodingTokens_none {scanner : BencodingScanner} (nothing : scanner.position = none) :
    scanBencodingTokens text scanner = (beginTokenScanning scanner).1 := by
  have finished : (beginTokenScanning scanner).2 = scanner.position.isSome := beginTokenScanning_position.2.2
  rw [nothing] at finished
  rw [scanBencodingTokens]
  split
  next found => rw [found]
  next found =>
    rw [found] at finished
    cases finished

theorem scanBencodingTokens_some {scanner : BencodingScanner} {position : Nat}
    (ok : TableOk text.length scanner) (here : scanner.position = some position) :
    ∃ filled, scanBencodingTokens text scanner = endTokenScanning filled.1 filled.2 ∧
      Filled text filled (continued (plainTokens text) (CutOff text) scanner.pending position) := by
  obtain ⟨place, _, unfinished⟩ := @beginTokenScanning_position _ _ scanner
  obtain ⟨table, pending, tokens⟩ := beginTokenScanning_table ok
  rw [here] at place unfinished
  have filled := table.filled
  have spec := fillTable_spec (tableSize - (beginTokenScanning scanner).1.tokens.toNat)
    (beginTokenScanning scanner).1 position (beginTokenScanning scanner).1.tokens.toNat table.size
    table.stop place (by omega)
  rw [tokens, pending, ← tokens] at spec
  refine ⟨_, ?_, spec⟩
  rw [scanBencodingTokens]
  split
  next found =>
    rw [found] at unfinished
    cases unfinished
  next found => rw [found]

theorem scanBencodingTokens_refills :
    Refills (plainTokens text) (CutOff text) text.length (scanBencodingTokens text) := by
  constructor
  · intro scanner ok _
    cases here : scanner.position with
    | none =>
        rw [scanBencodingTokens_none here]
        refine ⟨(beginTokenScanning_table ok).1, fun more => ?_⟩
        rw [beginTokenScanning_position.1, here] at more
        cases more
    | some position =>
        obtain ⟨filled, scanned, spec⟩ := scanBencodingTokens_some ok here
        rw [scanned]
        refine ⟨spec.table, fun more => ?_⟩
        rw [pending_length spec.table]
        have full := spec.full more
        simp only [endTokenScanning, full]
        decide
  · intro scanner ok _
    cases here : scanner.position with
    | none =>
        rw [scanBencodingTokens_none here, Scanner.remaining, Scanner.remaining,
          beginTokenScanning_position.1, here]
        exact beginTokenScanning_pending ok here
    | some position =>
        obtain ⟨filled, scanned, spec⟩ := scanBencodingTokens_some ok here
        rw [scanned, spec.remaining, Scanner.remaining, here]

end Window

def ReadsPlainTokens (text : List UInt8) : Prop :=
  ∃ fuel, readScannerTokens (scanBencodingTokens text) fuel (initBencodingScanner text) =
    some (plainTokens text 0)

open scoped Classical in
/-- The token before an invalid one is lost, so only the first token may be invalid. -/
theorem readsPlainTokens_iff (text : List UInt8) :
    ReadsPlainTokens text ↔
      ∀ position, Relation.TransGen (TokenStep text) 0 position → ¬ InvalidAt text position := by
  rw [ReadsPlainTokens, initBencodingScanner, initScanner_reads scanBencodingTokens_refills,
    continued, List.nil_append]
  constructor
  · intro same position reached invalid
    obtain ⟨next, step, _⟩ := Relation.TransGen.head'_iff.mp reached
    have cut : CutOff text 0 := ⟨position, reached.to_reflTransGen, invalid⟩
    rw [if_pos cut, step.tokens] at same
    have lengths := congrArg List.length same
    simp at lengths
  · intro valid
    split
    next cut =>
      obtain ⟨position, reached, invalid⟩ := cut
      rcases Relation.reflTransGen_iff_eq_or_transGen.mp reached with here | behind
      · rw [here] at invalid
        rw [plainTokens_of_none invalid.1 invalid.2]
        rfl
      · exact absurd invalid (valid position behind)
    next => rfl

/-- `ex` -/
theorem readsPlainTokens_iff_end : ¬ ReadsPlainTokens [101, 120] := by
  rintro ⟨fuel, read⟩
  have nothing : getScannerToken (initBencodingScanner [101, 120]) = none := by decide +kernel
  have plain : plainTokens [101, 120] 0 ≠ [] := by decide +kernel
  cases fuel with
  | zero => cases read
  | succ fuel =>
      rw [readScannerTokens, nothing] at read
      exact plain (Option.some.inj read).symm

end KcnTools.Bittorrent

/-! What the parsers of bencoded data have in common: the tokens that they read from the scanner,
the entries of dictionaries, and the values that are skipped. -/

namespace KcnTools.Bittorrent

open Protocols (ascii isdigit)
open Util

/-- A token as a parser reads it, with its bytes and the place of the first one in the text. -/
structure ReadToken where
  type : BencodingToken
  string : List UInt8
  start : Nat
  deriving DecidableEq

def readToken (text : List UInt8) (token : ScannerToken BencodingToken) : ReadToken :=
  ⟨token.type, (text.drop token.string).take token.length.toNat, token.string⟩

/-- What the scanner of a text gives, one token after the other. Each takes at least one byte. -/
def bencodingTokens (text : List UInt8) : List ReadToken :=
  ((readScannerTokens (scanBencodingTokens text) (text.length + 1) (initBencodingScanner text)).getD []).map
    (readToken text)

inductive BencodingKey
  | none | error | end
  | announceList | announce | comment | complete | createdBy | creationDate | downloaded | failureReason | files
  | incomplete | info | interval | ip | length | md5sum | name | path | peerId | peers | pieceLength | pieces | port
  deriving DecidableEq

structure BencodingDictionaryInfo where
  key : List UInt8
  keyType : BencodingKey
  valueType : BencodingToken

def bencodingDictionaryEntries : List BencodingDictionaryInfo :=
  [⟨ascii ['a', 'n', 'n', 'o', 'u', 'n', 'c', 'e', ' ', 'l', 'i', 's', 't'], .announceList, .list⟩,
    ⟨ascii ['a', 'n', 'n', 'o', 'u', 'n', 'c', 'e'], .announce, .string⟩,
    ⟨ascii ['c', 'o', 'm', 'm', 'e', 'n', 't'], .comment, .string⟩,
    ⟨ascii ['c', 'o', 'm', 'p', 'l', 'e', 't', 'e'], .complete, .integer⟩,
    ⟨ascii ['c', 'r', 'e', 'a', 't', 'e', 'd', ' ', 'b', 'y'], .createdBy, .string⟩,
    ⟨ascii ['c', 'r', 'e', 'a', 't', 'i', 'o', 'n', ' ', 'd', 'a', 't', 'e'], .creationDate, .integer⟩,
    ⟨ascii ['d', 'o', 'w', 'n', 'l', 'o', 'a', 'd', 'e', 'd'], .downloaded, .integer⟩,
    ⟨ascii ['f', 'a', 'i', 'l', 'u', 'r', 'e', ' ', 'r', 'e', 'a', 's', 'o', 'n'], .failureReason, .string⟩,
    ⟨ascii ['f', 'i', 'l', 'e', 's'], .files, .list⟩,
    ⟨ascii ['i', 'n', 'c', 'o', 'm', 'p', 'l', 'e', 't', 'e'], .incomplete, .integer⟩,
    ⟨ascii ['i', 'n', 'f', 'o'], .info, .dictionary⟩,
    ⟨ascii ['i', 'n', 't', 'e', 'r', 'v', 'a', 'l'], .interval, .integer⟩,
    ⟨ascii ['i', 'p'], .ip, .string⟩,
    ⟨ascii ['l', 'e', 'n', 'g', 't', 'h'], .length, .integer⟩,
    ⟨ascii ['m', 'd', '5', 's', 'u', 'm'], .md5sum, .string⟩,
    ⟨ascii ['n', 'a', 'm', 'e'], .name, .string⟩,
    ⟨ascii ['p', 'a', 't', 'h'], .path, .list⟩,
    ⟨ascii ['p', 'e', 'e', 'r', ' ', 'i', 'd'], .peerId, .string⟩,
    ⟨ascii ['p', 'e', 'e', 'r', 's'], .peers, .list⟩,
    ⟨ascii ['p', 'e', 'e', 'r', 's'], .peers, .string⟩,
    ⟨ascii ['p', 'i', 'e', 'c', 'e', ' ', 'l', 'e', 'n', 'g', 't', 'h'], .pieceLength, .integer⟩,
    ⟨ascii ['p', 'i', 'e', 'c', 'e', 's'], .pieces, .string⟩,
    ⟨ascii ['p', 'o', 'r', 't'], .port, .integer⟩]

def strlcasecmpLoop : List UInt8 → List UInt8 → Bool
  | c :: first, d :: second =>
      if c = 0 ∨ d = 0 then true
      else if cToupper c ≠ cToupper d then false
      else strlcasecmpLoop first second
  | _, _ => true

def scannerTokenStrlcasecmp (string key : List UInt8) : Bool :=
  string.length == key.length && strlcasecmpLoop string key

def bencodingKey (key : List UInt8) (valueType : BencodingToken) : BencodingKey :=
  match bencodingDictionaryEntries.find? fun entry =>
      scannerTokenStrlcasecmp key entry.key && decide (valueType = entry.valueType) with
  | none => .none
  | some entry => entry.keyType

/-- `check_bencoding_dictionary_entry`, and the tokens that are then left: from the value on
behind a key. -/
def checkBencodingDictionaryEntry : List ReadToken → BencodingKey × List ReadToken
  | [] => (.error, [])
  | key :: tokens =>
      if key.type = .end then (.end, key :: tokens)
      else if key.type ≠ .string then (.none, key :: tokens)
      else
        match tokens with
        | [] => (.error, [])
        | value :: tokens => (bencodingKey key.string value.type, value :: tokens)

def nestingLevel (level : Int) (type : BencodingToken) : Int :=
  match type with
  | .dictionary | .list => level + 1
  | .end => level - 1
  | .integer | .string | .none => level

def skipBencodingTokens (level : Int) : List ReadToken → List ReadToken
  | [] => []
  | token :: tokens =>
      if 0 < nestingLevel level token.type then skipBencodingTokens (nestingLevel level token.type) tokens else tokens

section Entries
variable {ε σ ω : Type}

/-- The loop over the entries of a dictionary. `entry` is what the parser does with the value of a
key, `finish` what it does at the end token, and `error` its answer where the tokens run out. Each
round takes a token, so there are as many rounds as tokens at most. -/
def parseBencodingEntries (entry : σ → BencodingKey → List ReadToken → Except ε (σ × List ReadToken))
    (finish : σ → List ReadToken → Except ε ω) (error : σ → ε) : Nat → σ → List ReadToken → Except ε ω
  | rounds + 1, parsed, token :: tokens =>
      match checkBencodingDictionaryEntry (token :: tokens) with
      | (.end, tokens) => finish parsed tokens
      | (.error, _) => .error (error parsed)
      | (key, tokens) =>
          match entry parsed key tokens with
          | .error failure => .error failure
          | .ok (parsed, tokens) => parseBencodingEntries entry finish error rounds parsed tokens
  | _, parsed, _ => .error (error parsed)

end Entries

def wrapOff (value : Int) : Int := (value + 2 ^ 63) % 2 ^ 64 - 2 ^ 63

/-- The digits of `parse_bencoding_integer`; `none` when they overflow. -/
def integerDigits (integer : Int) : List UInt8 → Option Int
  | [] => some integer
  | c :: digits =>
      if isdigit c then
        let newint := wrapOff (integer * 10 + c.toNat - 48)
        if newint.tdiv 10 ≠ integer then none else integerDigits newint digits
      else some integer

def parseBencodingInteger : List UInt8 → Int
  | 45 :: digits => -(integerDigits 0 digits).getD 0
  | digits => (integerDigits 0 digits).getD 0

end KcnTools.Bittorrent
