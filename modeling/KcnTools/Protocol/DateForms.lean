import KcnTools.Protocol.Date
import Mathlib

/-!
The three forms of a date in HTTP headers, with any separators, and what `parse_date` reads from
them. It takes the day of the week to end at the first blank.
-/

namespace KcnTools.Date

open Gregorian

structure Gap where
  text : List UInt8
  written : text ≠ []
  separates : ∀ c ∈ text, isTimeSep c = true

def Word (text : List UInt8) : Prop := ∀ c ∈ text, c ≠ 32 ∧ c ≠ 0

/-- How a date is spaced; the first gap stands behind the day of the week. -/
structure Spacing where
  weekDay : List UInt8
  word : Word weekDay
  gaps : Fin 4 → Gap
  padded : Bool

local instance fourGaps : NeZero 4 := ⟨by decide⟩

def rfcForm (year : List UInt8) (m : Moment) (s : Spacing) : List UInt8 :=
  s.weekDay ++ ((s.gaps 0).text ++ (dayText s.padded m.day ++ ((s.gaps 1).text ++ (monthWord m.month ++
    ((s.gaps 2).text ++ (year ++ ((s.gaps 3).text ++ timeText m)))))))

def rfc1123 (m : Moment) (s : Spacing) : List UInt8 := rfcForm (yearText m.year) m s

def rfc850 (m : Moment) (s : Spacing) : List UInt8 := rfcForm (pairText (m.year % 100)) m s

def asctime (m : Moment) (s : Spacing) : List UInt8 :=
  s.weekDay ++ ((s.gaps 0).text ++ (monthWord m.month ++ ((s.gaps 1).text ++ (dayText s.padded m.day ++
    ((s.gaps 2).text ++ (timeText m ++ ((s.gaps 3).text ++ yearText m.year)))))))

def gmt : List UInt8 := [32, 71, 77, 84]

section Starts

def Starts (kind : UInt8 → Bool) (text : List UInt8) : Prop := ∃ c rest, text = c :: rest ∧ kind c = true

def isLetter (c : UInt8) : Bool := 65 ≤ c

theorem Starts.append {kind : UInt8 → Bool} {text : List UInt8} (starts : Starts kind text) (rest : List UInt8) :
    Starts kind (text ++ rest) := by
  obtain ⟨c, tail, shape, fits⟩ := starts
  exact ⟨c, tail ++ rest, by rw [shape, List.cons_append], fits⟩

theorem pairText_starts {n : Nat} (bound : n < 100) : Starts isdigit (pairText n) :=
  ⟨_, _, rfl, isdigit_ofNat (by omega)⟩

theorem yearText_starts {year : Nat} (bound : year < 10000) : Starts isdigit (yearText year) :=
  (pairText_starts (by omega)).append _

theorem dayText_starts (padded : Bool) {day : Nat} (bound : day < 100) : Starts isdigit (dayText padded day) := by
  rw [dayText]
  split
  · rename_i short
    exact ⟨_, _, rfl, isdigit_ofNat short.1⟩
  · exact pairText_starts bound

theorem timeText_starts (m : Moment) : Starts isdigit (timeText m) :=
  (pairText_starts (Nat.lt_trans m.hour_lt (by decide))).append _

theorem monthWord_starts (month : Nat) : Starts isLetter (monthWord month) := by
  rw [monthWord.eq_def]
  split <;> exact ⟨_, _, rfl, rfl⟩

theorem Gap.starts (g : Gap) : Starts isTimeSep g.text := by
  obtain ⟨c, rest, shape⟩ := List.exists_cons_of_ne_nil g.written
  exact ⟨c, rest, shape, g.separates c (by rw [shape]; exact List.mem_cons_self)⟩

theorem isTimeSep_iff (c : UInt8) : isTimeSep c = true ↔ c = 32 ∨ c = 45 := by
  simp only [isTimeSep, Bool.or_eq_true, decide_eq_true_eq]

theorem digit_noSep {c : UInt8} (digits : isdigit c = true) : isTimeSep c = false := by
  rw [Bool.eq_false_iff, ne_eq, isTimeSep_iff]
  rintro (rfl | rfl) <;> exact absurd digits (by decide)

theorem letter_noSep {c : UInt8} (letter : isLetter c = true) : isTimeSep c = false := by
  rw [Bool.eq_false_iff, ne_eq, isTimeSep_iff]
  rintro (rfl | rfl) <;> exact absurd letter (by decide)

theorem sep_noDigit {c : UInt8} (sep : isTimeSep c = true) : isdigit c = false := by
  rcases (isTimeSep_iff c).mp sep with rfl | rfl <;> decide

theorem letter_noDigit {c : UInt8} (letter : isLetter c = true) : isdigit c = false := by
  rw [Bool.eq_false_iff, ne_eq, isdigit_iff]
  rw [isLetter, decide_eq_true_eq, UInt8.le_iff_toNat_le] at letter
  have value : (65 : UInt8).toNat = 65 := rfl
  omega

theorem Starts.noDigit {text : List UInt8} (starts : Starts isTimeSep text) : NoDigit text := by
  obtain ⟨c, rest, rfl, fits⟩ := starts
  exact noDigit_cons (sep_noDigit fits)

theorem skipTimeSep_gap (g : Gap) {kind : UInt8 → Bool} {rest : List UInt8} (starts : Starts kind rest)
    (plain : ∀ c, kind c = true → isTimeSep c = false) : skipTimeSep (g.text ++ rest) = some rest := by
  obtain ⟨c, tail, shape⟩ := List.exists_cons_of_ne_nil g.written
  obtain ⟨d, later, rfl, fits⟩ := starts
  have sep : isTimeSep c = true := g.separates c (by rw [shape]; exact List.mem_cons_self)
  have all : ∀ e ∈ tail, isTimeSep e = true := by
    intro e member
    exact g.separates e (by rw [shape]; exact List.mem_cons_of_mem c member)
  rw [shape, List.cons_append, skipTimeSep, if_pos sep, List.dropWhile_append_of_pos all,
    List.dropWhile_cons_of_neg (by rw [plain d fits]; decide)]

theorem skipTimeSep_digits (g : Gap) {rest : List UInt8} (starts : Starts isdigit rest) :
    skipTimeSep (g.text ++ rest) = some rest :=
  skipTimeSep_gap g starts fun _ => digit_noSep

theorem skipTimeSep_letters (g : Gap) {rest : List UInt8} (starts : Starts isLetter rest) :
    skipTimeSep (g.text ++ rest) = some rest :=
  skipTimeSep_gap g starts fun _ => letter_noSep

theorem skipTimeSep_none {rest : List UInt8} (starts : Starts isdigit rest) : skipTimeSep rest = none := by
  obtain ⟨c, tail, rfl, fits⟩ := starts
  rw [skipTimeSep, digit_noSep fits, if_neg (by decide)]

end Starts

section Bodies

theorem monthDays_le (year month : Nat) : monthDays year month ≤ 31 := by
  rw [monthDays.eq_def]
  split
  · split <;> omega
  · decide
  · decide
  · decide
  · decide
  · decide

theorem day_small (m : Moment) : m.day < 100 := by
  have le := m.day_le
  have most := monthDays_le m.year m.month
  omega

theorem day_le (m : Moment) : (m.day : Int) ≤ 31 := by
  have le := m.day_le
  have most := monthDays_le m.year m.month
  omega

theorem parseRfcDate_form (m : Moment) (padded : Bool) (g1 g2 g3 : Gap) {year : List UInt8} {value : Int}
    {c : UInt8} {rest : List UInt8} (behind : List UInt8) (starts : Starts isdigit year)
    (read : parseYear (year ++ (g3.text ++ (timeText m ++ c :: rest))) =
      (value, g3.text ++ (timeText m ++ c :: rest))) (valid : 0 ≤ value) :
    parseRfcDate (dayText padded m.day ++ (g1.text ++ (monthWord m.month ++ (g2.text ++ (year ++
      (g3.text ++ (timeText m ++ c :: rest))))))) behind =
      some (⟨m.second, m.minute, m.hour, m.day, m.month, value, 0⟩, c :: rest) := by
  have days := day_le m
  rw [parseRfcDate, parseDay_text (day_small m) padded (g1.starts.append _).noDigit]
  simp only
  rw [if_neg (by omega), skipTimeSep_letters g1 ((monthWord_starts m.month).append _)]
  simp only [Option.bind_eq_bind, Option.bind_some]
  rw [parseMonth_word m.month_lt]
  simp only
  rw [if_neg (by omega), skipTimeSep_digits g2 (starts.append _)]
  simp only [Option.bind_some]
  rw [read]
  simp only
  rw [if_neg (by omega), skipTimeSep_digits g3 ((timeText_starts m).append _)]
  simp only [Option.bind_some]
  rw [parseTime_text]
  rfl

/-- A year that stays where it is stands in the way of the separator behind it. -/
theorem parseRfcDate_stuck (m : Moment) (padded : Bool) (g1 g2 : Gap) {year : List UInt8} {value : Int}
    {rest : List UInt8} (behind : List UInt8) (starts : Starts isdigit year)
    (read : parseYear (year ++ rest) = (value, year ++ rest)) :
    parseRfcDate (dayText padded m.day ++ (g1.text ++ (monthWord m.month ++ (g2.text ++ (year ++ rest)))))
      behind = none := by
  have days := day_le m
  rw [parseRfcDate, parseDay_text (day_small m) padded (g1.starts.append _).noDigit]
  simp only
  rw [if_neg (by omega), skipTimeSep_letters g1 ((monthWord_starts m.month).append _)]
  simp only [Option.bind_eq_bind, Option.bind_some]
  rw [parseMonth_word m.month_lt]
  simp only
  rw [if_neg (by omega), skipTimeSep_digits g2 (starts.append _)]
  simp only [Option.bind_some]
  rw [read]
  simp only
  rw [skipTimeSep_none (starts.append _), Option.bind_none, ite_self]

theorem parseAsctimeDate_form (m : Moment) (padded : Bool) (g1 g2 g3 : Gap) (rest behind : List UInt8)
    (bound : m.year < 10000) :
    parseAsctimeDate (monthWord m.month ++ (g1.text ++ (dayText padded m.day ++ (g2.text ++ (timeText m ++
      (g3.text ++ (yearText m.year ++ rest))))))) behind =
      some (⟨m.second, m.minute, m.hour, m.day, m.month, (m.year : Int) - 1900, 0⟩, rest) := by
  have days := day_le m
  have start := m.year_ge
  obtain ⟨c, tail, shape⟩ := List.exists_cons_of_ne_nil g3.written
  rw [parseAsctimeDate, parseMonth_word m.month_lt]
  simp only
  rw [if_neg (by omega), skipTimeSep_digits g1 ((dayText_starts padded (day_small m)).append _)]
  simp only [Option.bind_eq_bind, Option.bind_some]
  rw [parseDay_text (day_small m) padded (g2.starts.append _).noDigit]
  simp only
  rw [if_neg (by omega), skipTimeSep_digits g2 ((timeText_starts m).append _)]
  simp only [Option.bind_some]
  rw [shape, List.cons_append, parseTime_text]
  simp only [Option.bind_some]
  rw [← List.cons_append, ← shape, skipTimeSep_digits g3 ((yearText_starts bound).append _)]
  simp only [Option.bind_some]
  rw [parseYear_text bound]
  simp only
  rw [if_neg (by omega)]
  rfl

theorem parseDate_digits {date : List UInt8} (starts : Starts isdigit date) (behind : List UInt8) :
    parseDate date behind = (parseRfcDate date behind).map fun (tm, rest) => (myTimegm tm, rest) := by
  obtain ⟨c, rest, rfl, fits⟩ := starts
  simp only [parseDate, List.cons_append, List.headD_cons, fits, if_true]

theorem parseDate_letters {date : List UInt8} (starts : Starts isLetter date) (behind : List UInt8) :
    parseDate date behind = (parseAsctimeDate date behind).map fun (tm, rest) => (myTimegm tm, rest) := by
  obtain ⟨c, rest, rfl, fits⟩ := starts
  simp only [parseDate, List.cons_append, List.headD_cons, letter_noDigit fits, Bool.false_eq_true, if_false]

end Bodies

section Astray

/-! A day of the week that no blank ends takes the front of the date with it. -/

theorem month2num_digits {a b c : UInt8} (digits : isdigit a = true) : month2num (a, b, c) = -1 := by
  have low : ∀ bits : BitVec 8, isdigit ⟨bits⟩ = true → ∀ letter ∈ [106, 109, 97, 115, 111, 110, 100, 102],
      (⟨bits⟩ : UInt8) ||| 32 ≠ letter := by decide +kernel
  have other := low a.toBitVec digits
  rw [month2num]
  split <;> first | rfl | exact absurd ‹_› (other _ (by decide))

theorem parseMonth_digits {text : List UInt8} (starts : Starts isdigit text) (behind : List UInt8) :
    (parseMonth text behind).1 = -1 := by
  obtain ⟨c, rest, rfl, fits⟩ := starts
  rw [parseMonth]
  split
  · rfl
  · split
    · rename_i a b d tail shape
      have head : a = c := (List.cons.inj shape).1.symm
      rw [month2num_digits (by rw [head]; exact fits), if_pos rfl, ite_self]
    · rfl

theorem parseRfcDate_month {day : Nat} (padded : Bool) (small : day < 100) (g : Gap) {rest : List UInt8}
    (starts : Starts isdigit rest) (behind : List UInt8) :
    parseRfcDate (dayText padded day ++ (g.text ++ rest)) behind = none := by
  rw [parseRfcDate, parseDay_text small padded (g.starts.append _).noDigit]
  simp only
  rw [skipTimeSep_digits g starts]
  simp only [Option.bind_eq_bind, Option.bind_some]
  rw [parseMonth_digits starts]
  simp only [Int.reduceNeg, Int.reduceLT, if_true, ite_self]

theorem parseRfcDate_pair {n : Nat} (small : n < 100) {rest : List UInt8} (stop : skipTimeSep rest = none)
    (behind : List UInt8) : parseRfcDate (pairText n ++ rest) behind = none := by
  rw [parseRfcDate, parseDay_pair small]
  simp only
  rw [stop, Option.bind_eq_bind, Option.bind_none, ite_self]

theorem parseDate_pair {n : Nat} (small : n < 100) {rest : List UInt8} (stop : skipTimeSep rest = none)
    (behind : List UInt8) : parseDate (pairText n ++ rest) behind = none := by
  rw [parseDate_digits ((pairText_starts small).append _), parseRfcDate_pair small stop]
  rfl

theorem parseDate_time (m : Moment) (rest behind : List UInt8) : parseDate (timeText m ++ rest) behind = none := by
  have hour := m.hour_lt
  rw [timeText, List.append_assoc]
  exact parseDate_pair (by omega) rfl behind

theorem parseDate_year {year : Nat} (bound : year < 10000) (rest behind : List UInt8) :
    parseDate (yearText year ++ rest) behind = none := by
  rw [yearText, List.append_assoc]
  exact parseDate_pair (by omega) (skipTimeSep_none ((pairText_starts (by omega)).append _)) behind

theorem parseDate_shortYear {year : Nat} (bound : year < 100) (g : Gap) (m : Moment) (rest behind : List UInt8) :
    parseDate (pairText year ++ (g.text ++ (timeText m ++ rest))) behind = none := by
  have padded : pairText year = dayText true year := by
    rw [dayText, if_neg (by simp)]
  rw [padded, parseDate_digits ((dayText_starts true bound).append _),
    parseRfcDate_month true bound g ((timeText_starts m).append _)]
  rfl

theorem parseDate_gmt (rest behind : List UInt8) : parseDate (71 :: 77 :: 84 :: rest) behind = none := by
  rw [parseDate_letters ⟨_, _, rfl, rfl⟩, parseAsctimeDate]
  have month : parseMonth (71 :: 77 :: 84 :: rest) behind = (-1, 71 :: 77 :: 84 :: rest) := by
    simp only [parseMonth, List.length_cons, List.cons_append]
    rw [if_neg (by omega), if_neg (by decide), if_pos (by decide)]
  rw [month]
  rfl

theorem parseDate_monthYear (m : Moment) (g2 g3 : Gap) {year : List UInt8} (rest behind : List UInt8)
    (shape : year = yearText m.year ∨ year = pairText (m.year % 100)) (bound : m.year < 10000) :
    parseDate (monthWord m.month ++ (g2.text ++ (year ++ (g3.text ++ (timeText m ++ (gmt ++ rest)))))) behind =
      none := by
  rw [parseDate_letters ((monthWord_starts m.month).append _), parseAsctimeDate, parseMonth_word m.month_lt]
  simp only
  rw [if_neg (by omega)]
  rcases shape with rfl | rfl
  · rw [skipTimeSep_digits g2 ((yearText_starts bound).append _)]
    simp only [Option.bind_eq_bind, Option.bind_some]
    rw [yearText, List.append_assoc, parseDay_pair (by omega)]
    simp only
    rw [skipTimeSep_none ((pairText_starts (by omega)).append _), Option.bind_none, ite_self]
    rfl
  · rw [skipTimeSep_digits g2 ((pairText_starts (by omega)).append _)]
    simp only [Option.bind_eq_bind, Option.bind_some]
    rw [parseDay_pair (by omega)]
    simp only
    rw [skipTimeSep_digits g3 ((timeText_starts m).append _)]
    simp only [Option.bind_some]
    rw [gmt, List.cons_append, parseTime_text]
    simp only [Option.bind_some]
    have zone : skipTimeSep (32 :: ([71, 77, 84] ++ rest)) = some (71 :: 77 :: 84 :: rest) := by
      simp [skipTimeSep, isTimeSep]
    rw [zone]
    simp only [Option.bind_some]
    have year : (parseYear (71 :: 77 :: 84 :: rest)).1 = -1 := by
      simp [parseYear, isdigit]
    rw [year]
    simp only [Int.reduceNeg, Int.reduceLT, if_true, ite_self]
    rfl

end Astray

end KcnTools.Date
