import KcnTools.Libwc.CharacterSet
import KcnTools.W3m.Mailcap
import KcnTools.W3m.Str

/-! Quoting of form data and of HTML text (indep.c). A C string is the list of its bytes without
the NUL, and the contents of a `Str` may hold any bytes. -/

namespace KcnTools.W3m

open Cache (wrapInt)

def quoteMapAscii : List Nat :=
  [24, 24, 24, 24, 24, 24, 24, 24, 24, 24, 24, 24, 24, 24, 24, 24,
   24, 24, 24, 24, 24, 24, 24, 24, 24, 24, 24, 24, 24, 24, 24, 24,
   24, 72, 76, 40, 8, 40, 41, 72, 72, 72, 72, 40, 72, 8, 0, 64,
   0, 0, 0, 0, 0, 0, 0, 0, 0, 0, 32, 72, 74, 72, 75, 40,
   72, 0, 0, 0, 0, 0, 0, 0, 0, 0, 0, 0, 0, 0, 0, 0,
   0, 0, 0, 0, 0, 0, 0, 0, 0, 0, 0, 72, 72, 72, 72, 0,
   72, 0, 0, 0, 0, 0, 0, 0, 0, 0, 0, 0, 0, 0, 0, 0,
   0, 0, 0, 0, 0, 0, 0, 0, 0, 0, 0, 72, 72, 72, 72, 24]

def getQuoteType (c : UInt8) : Nat := quoteMapAscii.getD c.toNat 16

def htmlQuoteMask : Nat := 0x07
def fileQuoteMask : Nat := 0x30
def urlUnsafeMask : Nat := 0x70

def isFileQuote (c : UInt8) : Bool := getQuoteType c &&& fileQuoteMask != 0
def isUrlUnsafe (c : UInt8) : Bool := getQuoteType c &&& urlUnsafeMask != 0

def htmlQuoteMap : List (Option (List UInt8)) :=
  [none, some [38, 97, 109, 112, 59], some [38, 108, 116, 59], some [38, 103, 116, 59],
   some [38, 113, 117, 111, 116, 59], none, none, none]

def htmlQuoteChar (c : UInt8) : Option (List UInt8) := htmlQuoteMap.getD (getQuoteType c &&& htmlQuoteMask) none

def isDigitByte (c : UInt8) : Bool := 48 ≤ c && c ≤ 57
def isXdigitByte (c : UInt8) : Bool := isDigitByte c || (65 ≤ c && c ≤ 70) || (97 ≤ c && c ≤ 102)

def getMycdigit (c : UInt8) : Nat :=
  if isDigitByte c then c.toNat - 48
  else if 65 ≤ c ∧ c ≤ 70 then c.toNat - 55
  else if 97 ≤ c ∧ c ≤ 102 then c.toNat - 87
  else 255

/-! Forms. -/

def xdigit (n : Nat) : UInt8 := UInt8.ofNat (if n < 10 then 48 + n else 55 + n)

def percentByte (c : UInt8) : List UInt8 := [37, xdigit (c.toNat / 16), xdigit (c.toNat % 16)]

def formQuoteByte (c : UInt8) : List UInt8 :=
  if c = 32 then [43] else if isUrlUnsafe c then percentByte c else [c]

def strFormQuote (x : List UInt8) : List UInt8 := x.flatMap formQuoteByte

def urlUnquoteChar : List UInt8 → Option (UInt8 × List UInt8)
  | high :: low :: rest =>
      if isXdigitByte high && isXdigitByte low then
        some (UInt8.ofNat (getMycdigit high <<< 4 ||| getMycdigit low), rest)
      else none
  | _ => none

theorem urlUnquoteChar_length {s rest : List UInt8} {c : UInt8} (found : urlUnquoteChar s = some (c, rest)) :
    rest.length < s.length := by
  match s, found with
  | high :: low :: s, found =>
      rw [urlUnquoteChar] at found
      split at found
      · simp only [Option.some.injEq, Prod.mk.injEq] at found
        rw [← found.2, List.length_cons, List.length_cons]
        omega
      · exact absurd found (by simp)

def strUrlUnquote (isForm safe : Bool) (x : List UInt8) : List UInt8 :=
  match x with
  | [] => []
  | p :: x =>
      if isForm && p == 43 then 32 :: strUrlUnquote isForm safe x
      else if p = 37 then
        match _found : urlUnquoteChar x with
        | some (c, rest) =>
            if !safe || c ≥ 0x80 || !isFileQuote c then c :: strUrlUnquote isForm safe rest
            else p :: strUrlUnquote isForm safe x
        | none => p :: strUrlUnquote isForm safe x
      else p :: strUrlUnquote isForm safe x
termination_by x.length
decreasing_by
  all_goals first
    | exact Nat.lt_succ_of_lt (urlUnquoteChar_length _found)
    | exact Nat.lt_succ_self _

theorem xdigit_spec : ∀ n < 16, isXdigitByte (xdigit n) = true ∧ getMycdigit (xdigit n) = n := by
  decide +kernel

theorem percent_read : ∀ n < 256, UInt8.ofNat ((n / 16) <<< 4 ||| n % 16) = UInt8.ofNat n := by
  decide +kernel

theorem urlUnquoteChar_percent (c : UInt8) (rest : List UInt8) :
    urlUnquoteChar (xdigit (c.toNat / 16) :: xdigit (c.toNat % 16) :: rest) = some (c, rest) := by
  have range := c.toNat_lt
  obtain ⟨highDigit, high⟩ := xdigit_spec (c.toNat / 16) (by omega)
  obtain ⟨lowDigit, low⟩ := xdigit_spec (c.toNat % 16) (by omega)
  rw [urlUnquoteChar, highDigit, lowDigit, high, low, percent_read _ range, UInt8.ofNat_toNat]
  rfl

theorem by_quarters {p : Nat → Prop} (first : ∀ n < 64, p n) (second : ∀ n < 64, p (64 + n))
    (third : ∀ n < 64, p (128 + n)) (fourth : ∀ n < 64, p (192 + n)) : ∀ n < 256, p n := by
  intro n small
  rcases Nat.lt_or_ge n 64 with low | low
  · exact first n low
  rcases Nat.lt_or_ge n 128 with most | most
  · simpa only [Nat.add_sub_cancel' low] using second (n - 64) (by omega)
  rcases Nat.lt_or_ge n 192 with high | high
  · simpa only [Nat.add_sub_cancel' most] using third (n - 128) (by omega)
  · simpa only [Nat.add_sub_cancel' high] using fourth (n - 192) (by omega)

theorem formQuote_plain (c : UInt8) :
    isUrlUnsafe c = false → c ≤ 0x7E ∧ c ≠ 38 ∧ c ≠ 61 ∧ c ≠ 43 ∧ c ≠ 37 :=
  @Libwc.byte_forall (fun c => isUrlUnsafe c = false → c ≤ 0x7E ∧ c ≠ 38 ∧ c ≠ 61 ∧ c ≠ 43 ∧ c ≠ 37)
    (by refine by_quarters ?_ ?_ ?_ ?_ <;> decide +kernel) c

theorem strUrlUnquote_percent {isForm : Bool} {c : UInt8} {x rest : List UInt8}
    (read : urlUnquoteChar x = some (c, rest)) :
    strUrlUnquote isForm false (37 :: x) = c :: strUrlUnquote isForm false rest := by
  have noPlus : (isForm && (37 : UInt8) == 43) = false := by simp
  rw [strUrlUnquote, noPlus, if_neg Bool.false_ne_true, if_pos rfl]
  split
  next found =>
    rw [read, Option.some.injEq, Prod.mk.injEq] at found
    rw [if_pos (by simp), found.1, found.2]
  next found => exact absurd (read.symm.trans found) (by simp)

theorem strUrlUnquote_formQuoteByte (c : UInt8) (rest : List UInt8) :
    strUrlUnquote true false (formQuoteByte c ++ rest) = c :: strUrlUnquote true false rest := by
  rw [formQuoteByte]
  split
  next space =>
    rw [space, List.singleton_append, strUrlUnquote]
    rfl
  split
  next quoted =>
    exact strUrlUnquote_percent (urlUnquoteChar_percent c rest)
  next plain =>
    obtain ⟨_, _, _, noPlus, noPercent⟩ := formQuote_plain c (Bool.eq_false_iff.mpr plain)
    rw [List.singleton_append, strUrlUnquote, if_neg (by simpa using noPlus), if_neg noPercent]

theorem strUrlUnquote_formQuote (x : List UInt8) : strUrlUnquote true false (strFormQuote x) = x := by
  induction x with
  | nil => rw [strFormQuote, List.flatMap_nil, strUrlUnquote]
  | cons c x ih =>
      rw [strFormQuote] at ih ⊢
      rw [List.flatMap_cons, strUrlUnquote_formQuoteByte, ih]

/-- A byte that only begins the pieces of a text does so wherever it stands. -/
theorem flatMap_begins {quote : UInt8 → List UInt8} {mark : UInt8}
    (begins : ∀ c, mark ∈ quote c → ∃ rest, quote c = mark :: rest ∧ mark ∉ rest) {x front back : List UInt8}
    (split : x.flatMap quote = front ++ mark :: back) :
    ∃ c ∈ x, mark ∈ quote c ∧ quote c <+: mark :: back := by
  induction x generalizing front with
  | nil => simp at split
  | cons c x ih =>
      rw [List.flatMap_cons] at split
      have later : ∀ {front}, x.flatMap quote = front ++ mark :: back →
          ∃ d ∈ c :: x, mark ∈ quote d ∧ quote d <+: mark :: back := by
        intro front split
        obtain ⟨d, member, found⟩ := ih split
        exact ⟨d, List.mem_cons_of_mem c member, found⟩
      rcases List.append_eq_append_iff.mp split with ⟨more, _, rest⟩ | ⟨more, piece, rest⟩
      · exact later rest
      · cases more with
        | nil =>
            rw [List.nil_append] at rest
            exact @later [] rest.symm
        | cons d more =>
            rw [List.cons_append, List.cons.injEq] at rest
            obtain ⟨rfl, tail⟩ := rest
            have member : mark ∈ quote c := by
              rw [piece]
              simp
            obtain ⟨after, whole, once⟩ := begins c member
            have first : front = [] := by
              cases front with
              | nil => rfl
              | cons e front =>
                  rw [whole, List.cons_append, List.cons.injEq] at piece
                  exact absurd (piece.2 ▸ List.mem_append_right front List.mem_cons_self) once
            refine ⟨c, List.mem_cons_self, member, ?_⟩
            rw [first, List.nil_append] at piece
            rw [piece, tail, ← List.cons_append]
            exact List.prefix_append _ _

theorem xdigit_bytes : ∀ n < 16, xdigit n ≤ 0x7E ∧ xdigit n ≠ 38 ∧ xdigit n ≠ 61 ∧ xdigit n ≠ 43 ∧
    xdigit n ≠ 37 := by
  decide +kernel

theorem percentByte_digits (c : UInt8) :
    ∀ d ∈ [xdigit (c.toNat / 16), xdigit (c.toNat % 16)], d ≤ 0x7E ∧ d ≠ 38 ∧ d ≠ 61 ∧ d ≠ 43 ∧ d ≠ 37 := by
  have range := c.toNat_lt
  intro d member
  simp only [List.mem_cons, List.not_mem_nil, or_false] at member
  rcases member with rfl | rfl
  · exact xdigit_bytes _ (by omega)
  · exact xdigit_bytes _ (by omega)

theorem formQuoteByte_bytes (c : UInt8) : ∀ d ∈ formQuoteByte c, d ≤ 0x7E ∧ d ≠ 38 ∧ d ≠ 61 := by
  intro d member
  rw [formQuoteByte] at member
  split at member
  · obtain rfl := List.mem_singleton.mp member
    decide +kernel
  split at member
  · rcases List.mem_cons.mp member with rfl | digit
    · decide +kernel
    · obtain ⟨small, noAmp, noEqual, _⟩ := percentByte_digits c d digit
      exact ⟨small, noAmp, noEqual⟩
  next safe =>
    obtain rfl := List.mem_singleton.mp member
    obtain ⟨small, noAmp, noEqual, _⟩ := formQuote_plain d (Bool.eq_false_iff.mpr safe)
    exact ⟨small, noAmp, noEqual⟩

theorem plus_mem_formQuoteByte {c : UInt8} (member : 43 ∈ formQuoteByte c) : c = 32 := by
  rw [formQuoteByte] at member
  split at member
  · assumption
  split at member
  · rcases List.mem_cons.mp member with wrong | digit
    · exact absurd wrong (by decide)
    · exact absurd rfl (percentByte_digits c 43 digit).2.2.2.1
  next safe =>
    obtain rfl := List.mem_singleton.mp member
    exact absurd rfl (formQuote_plain 43 (Bool.eq_false_iff.mpr safe)).2.2.2.1

theorem percent_mem_formQuoteByte {c : UInt8} (member : 37 ∈ formQuoteByte c) :
    formQuoteByte c = percentByte c := by
  rw [formQuoteByte] at member
  split at member
  · exact absurd member (by decide)
  next noSpace =>
  split at member
  next quoted => rw [formQuoteByte, if_neg noSpace, if_pos quoted]
  next safe =>
    obtain rfl := List.mem_singleton.mp member
    exact absurd rfl (formQuote_plain 37 (Bool.eq_false_iff.mpr safe)).2.2.2.2

theorem percentByte_begins {c : UInt8} (member : 37 ∈ formQuoteByte c) :
    ∃ rest, formQuoteByte c = 37 :: rest ∧ 37 ∉ rest :=
  ⟨_, percent_mem_formQuoteByte member, fun digit => (percentByte_digits c 37 digit).2.2.2.2 rfl⟩

/-! HTML. -/

def entityDigits (digit : UInt8 → Bool) (base value : Int) : List UInt8 → Int × List UInt8
  | [] => (value, [])
  | c :: p =>
      if digit c then entityDigits digit base (wrapInt (value * base + getMycdigit c)) p else (value, c :: p)

def skipByte (c : UInt8) (p : List UInt8) : List UInt8 := if p.head? = some c then p.tail else p

def numericEscape (digit : UInt8 → Bool) (base : Int) (p : List UInt8) : Int × List UInt8 :=
  match p with
  | [] => (-1, [])
  | c :: rest =>
      if digit c then
        let (value, rest) := entityDigits digit base (getMycdigit c) rest
        (value, skipByte 59 rest)
      else (-1, p)

/-- `getescapechar`: the character, or -1, and what follows. `entity` is the search in the table of entities. -/
def getescapechar (entity : List UInt8 → Int) (str : List UInt8) : Int × List UInt8 :=
  let p := skipByte 38 str
  if p.head? = some 35 then
    let p := p.tail
    if p.head? = some 120 ∨ p.head? = some 88 then numericEscape isXdigitByte 16 p.tail
    else numericEscape isDigitByte 10 p
  else
    match p with
    | [] => (-1, [])
    | c :: rest =>
        if !isAlphaByte c then (-1, p)
        else
          let q := c :: rest.takeWhile isAlnumByte
          let p := rest.dropWhile isAlnumByte
          -- "lt gt amp quot nbsp"
          let popular := (strcasestr [108, 116, 32, 103, 116, 32, 97, 109, 112, 32, 113, 117, 111, 116, 32,
            110, 98, 115, 112] q).isSome
          let strictEntity := !(popular && p.head? != some 61)
          if p.head? = some 59 then (entity q, p.tail)
          else if strictEntity then (-1, p)
          else (entity q, p)

def convEntity (other : Nat → List UInt8) (c : Nat) : List UInt8 :=
  if c < 0x20 then [32]
  else if c < 0x7F then [UInt8.ofNat c]
  else if c < 0xA0 then [32]
  else other c

def getescapecmd (entity : List UInt8 → Int) (other : Nat → List UInt8) (save : List UInt8) :
    List UInt8 × List UInt8 :=
  let (ch, s) := getescapechar entity save
  if 0 ≤ ch then (convEntity other ch.toNat, s)
  else ((if save.head? = some 38 then [] else [38]) ++ save.take (save.length - s.length), s)

def htmlQuote : List UInt8 → List UInt8
  | [] => []
  | p :: str => if p = 0 then [] else (htmlQuoteChar p).getD [p] ++ htmlQuote str

theorem entityDigits_length (digit : UInt8 → Bool) (base value : Int) (p : List UInt8) :
    (entityDigits digit base value p).2.length ≤ p.length := by
  induction p generalizing value with
  | nil => exact Nat.le_refl _
  | cons c p ih =>
      rw [entityDigits]
      split
      · exact Nat.le_succ_of_le (ih _)
      · exact Nat.le_refl _

theorem skipByte_length (c : UInt8) (p : List UInt8) : (skipByte c p).length ≤ p.length := by
  rw [skipByte]
  split
  · rw [List.length_tail]
    omega
  · exact Nat.le_refl _

theorem numericEscape_length (digit : UInt8 → Bool) (base : Int) (p : List UInt8) :
    (numericEscape digit base p).2.length ≤ p.length := by
  cases p with
  | nil => exact Nat.le_refl _
  | cons c p =>
      rw [numericEscape]
      split
      · exact Nat.le_succ_of_le ((skipByte_length _ _).trans (entityDigits_length _ _ _ _))
      · exact Nat.le_refl _

theorem getescapechar_length (entity : List UInt8 → Int) (str : List UInt8) :
    (getescapechar entity str).2.length ≤ (skipByte 38 str).length := by
  have shorter (p : List UInt8) : p.tail.length ≤ p.length := by
    rw [List.length_tail]
    omega
  rw [getescapechar]
  generalize skipByte 38 str = p
  dsimp only
  split
  · split
    · exact (numericEscape_length _ _ _).trans ((shorter _).trans (shorter _))
    · exact (numericEscape_length _ _ _).trans (shorter _)
  · split
    · exact Nat.le_refl _
    next c rest _ =>
      have dropped := (List.dropWhile_suffix isAlnumByte (l := rest)).length_le
      split
      · exact Nat.le_refl _
      · split
        · exact Nat.le_succ_of_le ((shorter _).trans dropped)
        · split <;> exact Nat.le_succ_of_le dropped

theorem getescapecmd_length (entity : List UInt8 → Int) (other : Nat → List UInt8) (rest : List UInt8) :
    (getescapecmd entity other (38 :: rest)).2.length < (38 :: rest).length := by
  have bound := getescapechar_length entity (38 :: rest)
  have skipped : skipByte 38 (38 :: rest) = rest := rfl
  rw [skipped] at bound
  rw [getescapecmd]
  dsimp only
  split <;> exact Nat.lt_succ_of_le bound

def htmlUnquote (entity : List UInt8 → Int) (other : Nat → List UInt8) (str : List UInt8) : List UInt8 :=
  match str with
  | [] => []
  | p :: rest =>
      if p = 0 then []
      else if p = 38 then
        let escape := getescapecmd entity other (38 :: rest)
        escape.1 ++ htmlUnquote entity other escape.2
      else p :: htmlUnquote entity other rest
termination_by str.length
decreasing_by
  · exact getescapecmd_length _ _ rest
  · exact Nat.lt_succ_self _

/-- The table of entities has the four that `html_quote` writes. -/
structure Entities (entity : List UInt8 → Int) : Prop where
  amp : entity [97, 109, 112] = 38
  lt : entity [108, 116] = 60
  gt : entity [103, 116] = 62
  quot : entity [113, 117, 111, 116] = 34

variable {entity : List UInt8 → Int} {other : Nat → List UInt8}

theorem getescapecmd_entity {name rest : List UInt8} {c : UInt8} (letter : isAlphaByte c = true)
    (bytes : ∀ d ∈ name, isAlnumByte d = true) {ch : Nat} (found : entity (c :: name) = ch) :
    getescapecmd entity other (38 :: c :: (name ++ 59 :: rest)) = (convEntity other ch, rest) := by
  have noHash : c ≠ 35 := by
    rintro rfl
    exact absurd letter (by decide)
  have taken : (name ++ 59 :: rest).takeWhile isAlnumByte = name := by
    rw [List.takeWhile_append_of_pos bytes, List.takeWhile_cons_of_neg (by decide), List.append_nil]
  have dropped : (name ++ 59 :: rest).dropWhile isAlnumByte = 59 :: rest := by
    rw [List.dropWhile_append_of_pos bytes, List.dropWhile_cons_of_neg (by decide)]
  have skipped : skipByte 38 (38 :: c :: (name ++ 59 :: rest)) = c :: (name ++ 59 :: rest) := rfl
  have read : getescapechar entity (38 :: c :: (name ++ 59 :: rest)) = ((ch : Int), rest) := by
    unfold getescapechar
    rw [skipped]
    simp [noHash, letter, taken, dropped, found]
  rw [getescapecmd, read]
  rfl

theorem htmlQuoteChar_cases (c : UInt8) :
    htmlQuoteChar c = none ∧ c ≠ 38 ∧ c ≠ 60 ∧ c ≠ 62 ∧ c ≠ 34 ∨
      c = 38 ∧ htmlQuoteChar c = some (38 :: ([97, 109, 112] ++ [59])) ∨
      c = 60 ∧ htmlQuoteChar c = some (38 :: ([108, 116] ++ [59])) ∨
      c = 62 ∧ htmlQuoteChar c = some (38 :: ([103, 116] ++ [59])) ∨
      c = 34 ∧ htmlQuoteChar c = some (38 :: ([113, 117, 111, 116] ++ [59])) :=
  @Libwc.byte_forall (fun c => htmlQuoteChar c = none ∧ c ≠ 38 ∧ c ≠ 60 ∧ c ≠ 62 ∧ c ≠ 34 ∨
      c = 38 ∧ htmlQuoteChar c = some (38 :: ([97, 109, 112] ++ [59])) ∨
      c = 60 ∧ htmlQuoteChar c = some (38 :: ([108, 116] ++ [59])) ∨
      c = 62 ∧ htmlQuoteChar c = some (38 :: ([103, 116] ++ [59])) ∨
      c = 34 ∧ htmlQuoteChar c = some (38 :: ([113, 117, 111, 116] ++ [59])))
    (by refine by_quarters ?_ ?_ ?_ ?_ <;> decide +kernel) c

theorem htmlUnquote_escape {name rest text : List UInt8}
    (read : getescapecmd entity other (38 :: name) = (text, rest)) :
    htmlUnquote entity other (38 :: name) = text ++ htmlUnquote entity other rest := by
  rw [htmlUnquote, if_neg (by decide), if_pos rfl, read]

theorem htmlUnquote_quoteByte (table : Entities entity) {c : UInt8} (named : c ≠ 0) (rest : List UInt8) :
    htmlUnquote entity other ((htmlQuoteChar c).getD [c] ++ rest) = c :: htmlUnquote entity other rest := by
  have whole : ∀ {d : UInt8} {name : List UInt8}, isAlphaByte d = true → (∀ e ∈ name, isAlnumByte e = true) →
      entity (d :: name) = c.toNat → 0x20 ≤ c.toNat ∧ c.toNat < 0x7F →
      htmlUnquote entity other (38 :: (d :: name ++ [59]) ++ rest) = c :: htmlUnquote entity other rest := by
    intro d name letter bytes found range
    have read : getescapecmd entity other (38 :: d :: (name ++ 59 :: rest)) = (convEntity other c.toNat, rest) :=
      getescapecmd_entity letter bytes found
    have text : 38 :: (d :: name ++ [59]) ++ rest = 38 :: d :: (name ++ 59 :: rest) := by simp
    rw [text, htmlUnquote_escape read, convEntity, if_neg (by omega), if_pos range.2, UInt8.ofNat_toNat]
    rfl
  rcases htmlQuoteChar_cases c with ⟨plain, noAmp, _⟩ | ⟨rfl, quoted⟩ | ⟨rfl, quoted⟩ | ⟨rfl, quoted⟩ | ⟨rfl, quoted⟩
  · rw [plain, Option.getD_none, List.singleton_append, htmlUnquote, if_neg named, if_neg noAmp]
  · rw [quoted]
    exact whole (by decide +kernel) (by decide +kernel) table.amp (by decide +kernel)
  · rw [quoted]
    exact whole (by decide +kernel) (by decide +kernel) table.lt (by decide +kernel)
  · rw [quoted]
    exact whole (by decide +kernel) (by decide +kernel) table.gt (by decide +kernel)
  · rw [quoted]
    exact whole (by decide +kernel) (by decide +kernel) table.quot (by decide +kernel)

theorem htmlQuote_eq {s : List UInt8} (noNul : 0 ∉ s) :
    htmlQuote s = s.flatMap fun c => (htmlQuoteChar c).getD [c] := by
  induction s with
  | nil => rfl
  | cons c s ih =>
      rw [List.mem_cons, not_or] at noNul
      rw [htmlQuote, if_neg (Ne.symm noNul.1), ih noNul.2, List.flatMap_cons]

theorem htmlUnquote_htmlQuote (table : Entities entity) {s : List UInt8} (noNul : 0 ∉ s) :
    htmlUnquote entity other (htmlQuote s) = s := by
  induction s with
  | nil => rw [htmlQuote, htmlUnquote]
  | cons c s ih =>
      rw [List.mem_cons, not_or] at noNul
      rw [htmlQuote, if_neg (Ne.symm noNul.1), htmlUnquote_quoteByte table (Ne.symm noNul.1), ih noNul.2]

def htmlEntities : List (List UInt8) := htmlQuoteMap.reduceOption

theorem htmlQuoteByte_bytes (c : UInt8) :
    (∀ d ∈ (htmlQuoteChar c).getD [c], d ≠ 60 ∧ d ≠ 62 ∧ d ≠ 34) ∧
      (38 ∈ (htmlQuoteChar c).getD [c] → (htmlQuoteChar c).getD [c] ∈ htmlEntities ∧
        ∃ rest, (htmlQuoteChar c).getD [c] = 38 :: rest ∧ 38 ∉ rest) := by
  rcases htmlQuoteChar_cases c with ⟨plain, noAmp, noLt, noGt, noQuot⟩ | ⟨_, quoted⟩ | ⟨_, quoted⟩ | ⟨_, quoted⟩ |
    ⟨_, quoted⟩
  · rw [plain, Option.getD_none]
    refine ⟨fun d member => ?_, fun member => ?_⟩
    · obtain rfl := List.mem_singleton.mp member
      exact ⟨noLt, noGt, noQuot⟩
    · exact absurd (List.mem_singleton.mp member).symm noAmp
  all_goals
    rw [quoted, Option.getD_some]
    exact ⟨by decide +kernel, fun _ => ⟨by decide +kernel, _, rfl, by decide +kernel⟩⟩

theorem count_plus_formQuoteByte (c : UInt8) : (formQuoteByte c).count 43 = if c = 32 then 1 else 0 := by
  by_cases space : c = 32
  · rw [formQuoteByte, if_pos space, if_pos space]
    rfl
  · rw [if_neg space, List.count_eq_zero]
    exact fun member => space (plus_mem_formQuoteByte member)

theorem count_plus_formQuote (x : List UInt8) : (strFormQuote x).count 43 = x.count 32 := by
  induction x with
  | nil => rfl
  | cons c x ih =>
      rw [strFormQuote] at ih ⊢
      rw [List.flatMap_cons, List.count_append, count_plus_formQuoteByte, ih, List.count_cons, Nat.add_comm]
      congr 1
      simp

/-- Quoting forms and HTML: what was quoted comes back, and the quoted text has no byte that means something
else to its reader. -/
theorem quoting_roundTrips (table : Entities entity) :
    (∀ x, strUrlUnquote true false (strFormQuote x) = x ∧
      (∀ c ∈ strFormQuote x, c ≤ 0x7E ∧ c ≠ 38 ∧ c ≠ 61) ∧
      (strFormQuote x).count 43 = x.count 32 ∧
      ∀ front back, strFormQuote x = front ++ 37 :: back → ∃ c ∈ x, percentByte c <+: 37 :: back) ∧
    ∀ s, 0 ∉ s → htmlUnquote entity other (htmlQuote s) = s ∧
      (∀ c ∈ htmlQuote s, c ≠ 60 ∧ c ≠ 62 ∧ c ≠ 34) ∧
      ∀ front back, htmlQuote s = front ++ 38 :: back → ∃ text ∈ htmlEntities, text <+: 38 :: back := by
  constructor
  · intro x
    refine ⟨strUrlUnquote_formQuote x, ?_, count_plus_formQuote x, ?_⟩
    · intro d member
      obtain ⟨c, _, found⟩ := List.mem_flatMap.mp member
      exact formQuoteByte_bytes c d found
    · intro front back split
      obtain ⟨c, member, found, begins⟩ := flatMap_begins (fun c => percentByte_begins) split
      rw [percent_mem_formQuoteByte found] at begins
      exact ⟨c, member, begins⟩
  · intro s noNul
    refine ⟨htmlUnquote_htmlQuote table noNul, ?_, ?_⟩
    · intro d member
      rw [htmlQuote_eq noNul] at member
      obtain ⟨c, _, found⟩ := List.mem_flatMap.mp member
      exact (htmlQuoteByte_bytes c).1 d found
    · intro front back split
      rw [htmlQuote_eq noNul] at split
      obtain ⟨c, _, found, begins⟩ := flatMap_begins (fun c member => ((htmlQuoteByte_bytes c).2 member).2) split
      exact ⟨_, ((htmlQuoteByte_bytes c).2 found).1, begins⟩

def basicEntities (name : List UInt8) : Int :=
  if name = [97, 109, 112] then 38
  else if name = [108, 116] then 60
  else if name = [103, 116] then 62
  else if name = [113, 117, 111, 116] then 34
  else -1

theorem quoting_roundTrips_basic :
    strUrlUnquote true false (strFormQuote [0, 43, 32, 255]) = [0, 43, 32, 255] ∧
      htmlUnquote basicEntities (fun _ => []) (htmlQuote [60, 38, 97]) = [60, 38, 97] := by
  have table : Entities basicEntities := ⟨rfl, rfl, rfl, rfl⟩
  have trips := @quoting_roundTrips _ (fun _ => []) table
  exact ⟨(trips.1 _).1, (trips.2 _ (by decide)).1⟩

end KcnTools.W3m
