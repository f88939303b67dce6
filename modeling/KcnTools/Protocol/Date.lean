import KcnTools.Cache.CacheDefragment
import KcnTools.Lib.Gregorian
import KcnTools.Lib.Decimal
import KcnTools.Cache.CacheCore
import Mathlib

/-!
The parts of dates: year, month, day and time, and the dates of headers and listings. Every
parser is given the text up to its end and returns what it leaves of it.
-/

namespace KcnTools.Date

open Cache (wrapInt)

structure Tm where
  sec : Int
  min : Int
  hour : Int
  mday : Int
  mon : Int
  year : Int
  isdst : Int
  deriving DecidableEq

def isdigit (c : UInt8) : Bool := 48 ≤ c && c ≤ 57

def digit (c : UInt8) : Int := (c.toNat : Int) - 48

def shortYear (d0 d1 : UInt8) (rest : List UInt8) : Int × List UInt8 :=
  let year := digit d0 * 10 + digit d1
  if year < 70 then (year + 100, rest) else (year, d0 :: d1 :: rest)

def parseYear : List UInt8 → Int × List UInt8
  | d0 :: d1 :: rest =>
      if isdigit d0 && isdigit d1 then
        match rest with
        | d2 :: d3 :: later =>
            if isdigit d2 && isdigit d3 then
              (((digit d0 * 10 + digit d1) * 10 + digit d2) * 10 + digit d3 - 1900, later)
            else shortYear d0 d1 (d2 :: d3 :: later)
        | short => shortYear d0 d1 short
      else (-1, d0 :: d1 :: rest)
  | date => (-1, date)

def month2num (str : UInt8 × UInt8 × UInt8) : Int :=
  match str.1 ||| 32, str.2.1 ||| 32, str.2.2 ||| 32 with
  | 106, 97, 110 => 0
  | 106, 117, 110 => 5
  | 106, 117, 108 => 6
  | 109, 97, 114 => 2
  | 109, 97, 121 => 4
  | 97, 112, 114 => 3
  | 97, 117, 103 => 7
  | 115, 101, 112 => 8
  | 111, 99, 116 => 9
  | 110, 111, 118 => 10
  | 100, 101, 99 => 11
  | 102, 101, 98 => 1
  | _, _, _ => -1

def parseMonth (month behind : List UInt8) : Int × List UInt8 :=
  if month.length < 2 then (-1, month)
  else
    match month ++ behind with
    | a :: b :: c :: _ =>
        if a = 0 ∨ b = 0 ∨ c = 0 then (-1, month)
        else if month2num (a, b, c) = -1 then (-1, month)
        else (month2num (a, b, c), month.drop 3)
    | _ => (-1, month)

def parseDay : List UInt8 → Int × List UInt8
  | [] => (32, [])
  | d0 :: rest =>
      if isdigit d0 then
        match rest with
        | d1 :: later => if isdigit d1 then (digit d0 * 10 + digit d1, later) else (digit d0, d1 :: later)
        | [] => (digit d0, [])
      else (32, d0 :: rest)

def checkTime (tm : Tm) (rest : List UInt8) : Option (Tm × List UInt8) :=
  if tm.hour ≤ 23 ∧ tm.min ≤ 59 ∧ tm.sec ≤ 59 then some (tm, rest) else none

def halfDayHour (hour : Int) (half : UInt8) : Int :=
  (if hour = 12 then 0 else hour) + if half = 80 then 12 else 0

def parseSeconds (tm : Tm) : List UInt8 → Option (Tm × List UInt8)
  | c :: s1 :: s2 :: rest =>
      if c = 58 then
        if rest = [] then none
        else if isdigit s1 && isdigit s2 then checkTime { tm with sec := digit s1 * 10 + digit s2 } rest
        else none
      else if c = 65 ∨ c = 80 then
        if s1 = 77 then checkTime { tm with hour := halfDayHour tm.hour c } (s2 :: rest) else none
      else checkTime tm (c :: s1 :: s2 :: rest)
  | rest => checkTime tm rest

/-- `none` is a failure; nothing reads what it leaves in the `struct tm`. -/
def parseTime (tm : Tm) : List UInt8 → Option (Tm × List UInt8)
  | h1 :: h2 :: colon :: m1 :: m2 :: rest =>
      if isdigit h1 && isdigit h2 && colon = 58 && isdigit m1 && isdigit m2 then
        parseSeconds { tm with hour := digit h1 * 10 + digit h2, min := digit m1 * 10 + digit m2, sec := 0 } rest
      else none
  | _ => none

def myTimegm (tm : Tm) : Int :=
  let early := tm.mon - 2 < 0
  let mon := (if early then tm.mon - 2 + 12 else tm.mon - 2) * 153 + 2
  let year := (if early then tm.year - 1 else tm.year) - 68
  let mday := tm.mday + (year * 1461).tdiv 4 + (mon.tdiv 5 - 672)
  let t := wrapInt (mday * 60 * 60 * 24 + tm.hour * 60 * 60 + tm.min * 60 + tm.sec)
  if t = -1 then 0 else t

def isTimeSep (c : UInt8) : Bool := c = 32 || c = 45

def skipTimeSep (date : List UInt8) : Option (List UInt8) :=
  match date with
  | c :: rest => if isTimeSep c then some (rest.dropWhile isTimeSep) else none
  | [] => none

def clearTm : Tm := ⟨0, 0, 0, 0, 0, 0, 0⟩

def parseRfcDate (date behind : List UInt8) : Option (Tm × List UInt8) := do
  let (mday, date) := parseDay date
  if mday > 31 then none else
  let date ← skipTimeSep date
  let (mon, date) := parseMonth date behind
  if mon < 0 then none else
  let date ← skipTimeSep date
  let (year, date) := parseYear date
  if year < 0 then none else
  let date ← skipTimeSep date
  parseTime { clearTm with mday, mon, year } date

def parseAsctimeDate (date behind : List UInt8) : Option (Tm × List UInt8) := do
  let (mon, date) := parseMonth date behind
  if mon < 0 then none else
  let date ← skipTimeSep date
  let (mday, date) := parseDay date
  if mday > 31 then none else
  let date ← skipTimeSep date
  let (tm, date) ← parseTime { clearTm with mday, mon } date
  let date ← skipTimeSep date
  let (year, date) := parseYear date
  if year < 0 then none else
  some ({ tm with year }, date)

/-- `parse_date` without a day of the week; `none` is the time 0 of a failure. -/
def parseDate (date behind : List UInt8) : Option (Int × List UInt8) :=
  let parsed := if isdigit ((date ++ behind).headD 0) then parseRfcDate date behind
    else parseAsctimeDate date behind
  parsed.map fun (tm, rest) => (myTimegm tm, rest)

end KcnTools.Date

/-!
The words and numbers of a date as texts, and what each of the small parsers makes of them with
anything behind. `parse_date` itself skips the day of the week up to the first blank.
-/

namespace KcnTools.Date

open Decimal (toNat_digit)
open Gregorian

def skipWeekDay : List UInt8 → Option (List UInt8)
  | [] => skipTimeSep []
  | c :: rest => if c = 32 then skipTimeSep (c :: rest) else if c = 0 then none else skipWeekDay rest

/-- `parse_date` on a text of which the first `ending` bytes count. Without an end the text runs
to its NUL, and none of the parsers looks further. The result comes with the new position. -/
def parseDateAt (text : List UInt8) (ending : Option Nat) (updatePos weekDay : Bool) : Int × Nat :=
  let (date, behind) := match ending with
    | some size => (text.take size, text.drop size)
    | none => (text ++ [0, 0, 0], [])
  match (if weekDay then skipWeekDay date else some date).bind (parseDate · behind) with
  | none => (0, 0)
  | some (time, rest) => (time, if updatePos then date.length - rest.length else 0)

theorem isdigit_iff (c : UInt8) : isdigit c = true ↔ 48 ≤ c.toNat ∧ c.toNat ≤ 57 := by
  have all : ∀ bits : BitVec 8, isdigit ⟨bits⟩ = true ↔
      48 ≤ (⟨bits⟩ : UInt8).toNat ∧ (⟨bits⟩ : UInt8).toNat ≤ 57 := by decide +kernel
  exact all c.toBitVec

theorem digit_ofNat {k : Nat} (small : k < 10) : digit (UInt8.ofNat (48 + k)) = k := by
  rw [digit, toNat_digit small]
  omega

theorem isdigit_ofNat {k : Nat} (small : k < 10) : isdigit (UInt8.ofNat (48 + k)) = true := by
  rw [isdigit_iff, toNat_digit small]
  omega

def pairText (n : Nat) : List UInt8 := [UInt8.ofNat (48 + n / 10), UInt8.ofNat (48 + n % 10)]

def yearText (year : Nat) : List UInt8 := pairText (year / 100) ++ pairText (year % 100)

def dayText (padded : Bool) (day : Nat) : List UInt8 :=
  if day < 10 ∧ padded = false then [UInt8.ofNat (48 + day)] else pairText day

def timeText (m : Moment) : List UInt8 :=
  pairText m.hour ++ 58 :: (pairText m.minute ++ 58 :: pairText m.second)

def monthWord : Nat → List UInt8
  | 0 => [74, 97, 110]
  | 1 => [70, 101, 98]
  | 2 => [77, 97, 114]
  | 3 => [65, 112, 114]
  | 4 => [77, 97, 121]
  | 5 => [74, 117, 110]
  | 6 => [74, 117, 108]
  | 7 => [65, 117, 103]
  | 8 => [83, 101, 112]
  | 9 => [79, 99, 116]
  | 10 => [78, 111, 118]
  | _ => [68, 101, 99]

def NoDigit (text : List UInt8) : Prop := ∀ c ∈ text.head?, isdigit c = false

theorem noDigit_cons {c : UInt8} {rest : List UInt8} (other : isdigit c = false) : NoDigit (c :: rest) := by
  intro d member
  rw [List.head?_cons, Option.mem_some_iff] at member
  rw [← member, other]

theorem parseDay_one {day : Nat} (small : day < 10) {rest : List UInt8} (stop : NoDigit rest) :
    parseDay (UInt8.ofNat (48 + day) :: rest) = ((day : Int), rest) := by
  cases rest with
  | nil => rw [parseDay, if_pos (isdigit_ofNat small), digit_ofNat small]
  | cons c rest =>
      have other : isdigit c = false := stop c (by simp)
      simp only [parseDay, isdigit_ofNat small, other, digit_ofNat small, Bool.false_eq_true, if_false, if_true]

theorem parseDay_pair {day : Nat} (small : day < 100) (rest : List UInt8) :
    parseDay (pairText day ++ rest) = ((day : Int), rest) := by
  simp only [pairText, List.cons_append, List.nil_append, parseDay,
    isdigit_ofNat (by omega : day / 10 < 10), isdigit_ofNat (by omega : day % 10 < 10), if_true,
    digit_ofNat (by omega : day / 10 < 10), digit_ofNat (by omega : day % 10 < 10), Prod.mk.injEq, and_true]
  omega

theorem parseDay_text {day : Nat} (small : day < 100) (padded : Bool) {rest : List UInt8} (stop : NoDigit rest) :
    parseDay (dayText padded day ++ rest) = ((day : Int), rest) := by
  rw [dayText]
  split
  · rename_i short
    exact parseDay_one short.1 stop
  · exact parseDay_pair small rest

theorem parseMonth_known {a b c : UInt8} {month : Int} (letters : a ≠ 0 ∧ b ≠ 0 ∧ c ≠ 0)
    (known : month2num (a, b, c) = month) (valid : 0 ≤ month) (rest behind : List UInt8) :
    parseMonth (a :: b :: c :: rest) behind = (month, rest) := by
  have long : ¬ (a :: b :: c :: rest).length < 2 := by
    simp only [List.length_cons]
    omega
  have present : ¬ (a = 0 ∨ b = 0 ∨ c = 0) := by
    simp only [letters, or_self, not_false_eq_true]
  rw [parseMonth, if_neg long]
  simp only [List.cons_append, if_neg present, known, List.drop_succ_cons, List.drop_zero]
  rw [if_neg (by omega)]

theorem parseMonth_word {month : Nat} (bound : month < 12) (rest behind : List UInt8) :
    parseMonth (monthWord month ++ rest) behind = ((month : Int), rest) := by
  have cases : month = 0 ∨ month = 1 ∨ month = 2 ∨ month = 3 ∨ month = 4 ∨ month = 5 ∨ month = 6 ∨
      month = 7 ∨ month = 8 ∨ month = 9 ∨ month = 10 ∨ month = 11 := by
    omega
  rcases cases with rfl | rfl | rfl | rfl | rfl | rfl | rfl | rfl | rfl | rfl | rfl | rfl <;>
    exact parseMonth_known (by decide) (by decide) (by decide) rest behind

theorem parseYear_text {year : Nat} (bound : year < 10000) (rest : List UInt8) :
    parseYear (yearText year ++ rest) = ((year : Int) - 1900, rest) := by
  simp only [yearText, pairText, List.cons_append, List.nil_append, parseYear,
    isdigit_ofNat (by omega : year / 100 / 10 < 10), isdigit_ofNat (by omega : year / 100 % 10 < 10),
    isdigit_ofNat (by omega : year % 100 / 10 < 10), isdigit_ofNat (by omega : year % 100 % 10 < 10),
    digit_ofNat (by omega : year / 100 / 10 < 10), digit_ofNat (by omega : year / 100 % 10 < 10),
    digit_ofNat (by omega : year % 100 / 10 < 10), digit_ofNat (by omega : year % 100 % 10 < 10),
    Bool.and_self, if_true, Prod.mk.injEq, and_true]
  omega

theorem parseYear_pair {year : Nat} (bound : year < 100) {rest : List UInt8} (stop : NoDigit rest) :
    parseYear (pairText year ++ rest) = if year < 70 then ((year : Int) + 100, rest)
      else ((year : Int), pairText year ++ rest) := by
  have value : digit (UInt8.ofNat (48 + year / 10)) * 10 + digit (UInt8.ofNat (48 + year % 10)) = year := by
    rw [digit_ofNat (by omega), digit_ofNat (by omega)]
    omega
  have short : parseYear (pairText year ++ rest) =
      shortYear (UInt8.ofNat (48 + year / 10)) (UInt8.ofNat (48 + year % 10)) rest := by
    simp only [pairText, List.cons_append, List.nil_append, parseYear,
      isdigit_ofNat (by omega : year / 10 < 10), isdigit_ofNat (by omega : year % 10 < 10), Bool.and_self, if_true]
    rcases rest with _ | ⟨c, _ | ⟨d, later⟩⟩
    · rfl
    · rfl
    · have other : isdigit c = false := stop c (by simp)
      simp only [other, Bool.false_and, Bool.false_eq_true, if_false]
  rw [short, shortYear, value]
  split
  · rw [if_pos (by omega)]
  · rw [if_neg (by omega), pairText, List.cons_append, List.cons_append, List.nil_append]

theorem parseTime_text (tm : Tm) (m : Moment) (c : UInt8) (rest : List UInt8) :
    parseTime tm (timeText m ++ c :: rest) =
      some ({ tm with hour := m.hour, min := m.minute, sec := m.second }, c :: rest) := by
  have hour := m.hour_lt
  have minute := m.minute_lt
  have second := m.second_lt
  simp only [timeText, pairText, List.cons_append, List.nil_append, parseTime, parseSeconds, checkTime,
    isdigit_ofNat (by omega : m.hour / 10 < 10), isdigit_ofNat (by omega : m.hour % 10 < 10),
    isdigit_ofNat (by omega : m.minute / 10 < 10), isdigit_ofNat (by omega : m.minute % 10 < 10),
    isdigit_ofNat (by omega : m.second / 10 < 10), isdigit_ofNat (by omega : m.second % 10 < 10),
    digit_ofNat (by omega : m.hour / 10 < 10), digit_ofNat (by omega : m.hour % 10 < 10),
    digit_ofNat (by omega : m.minute / 10 < 10), digit_ofNat (by omega : m.minute % 10 < 10),
    digit_ofNat (by omega : m.second / 10 < 10), digit_ofNat (by omega : m.second % 10 < 10),
    decide_true, Bool.and_self, if_true, reduceCtorEq, if_false]
  rw [if_pos ⟨by omega, by omega, by omega⟩]
  simp only [Option.some.injEq, Prod.mk.injEq, and_true, Tm.mk.injEq]
  omega

end KcnTools.Date

/-!
`my_timegm` against the calendar. The day count of the formula is right until 2099; its product
with the seconds of a day is an `int`, which turns negative in January 2038.
-/

namespace KcnTools.Date

open Cache (wrapInt wrapInt_of_bounds)
open Gregorian

def ofMoment (m : Moment) (isdst : Int) : Tm :=
  ⟨m.second, m.minute, m.hour, m.day, m.month, (m.year : Int) - 1900, isdst⟩

def rollover : Moment where
  year := 2038
  month := 0
  day := 19
  hour := 3
  minute := 14
  second := 8
  year_ge := by decide
  month_lt := by decide
  day_pos := by decide
  day_le := by decide
  hour_lt := by decide
  minute_lt := by decide
  second_lt := by decide

theorem rollover_seconds : rollover.seconds = 2147483648 := by
  decide +kernel

def timegmDays (tm : Tm) : Int :=
  let early := tm.mon - 2 < 0
  let mon := (if early then tm.mon - 2 + 12 else tm.mon - 2) * 153 + 2
  let year := (if early then tm.year - 1 else tm.year) - 68
  tm.mday + (year * 1461).tdiv 4 + (mon.tdiv 5 - 672)

theorem myTimegm_eq (tm : Tm) : myTimegm tm =
    if wrapInt (timegmDays tm * 60 * 60 * 24 + tm.hour * 60 * 60 + tm.min * 60 + tm.sec) = -1 then 0
    else wrapInt (timegmDays tm * 60 * 60 * 24 + tm.hour * 60 * 60 + tm.min * 60 + tm.sec) := rfl

/-- The year of the formula starts in March, so the leap day is its last one. -/
theorem timegmDays_ofMoment (m : Moment) (isdst : Int) (bound : m.year ≤ 2099) :
    timegmDays (ofMoment m isdst) = m.days := by
  have start := m.year_ge
  have pos := m.day_pos
  have month := m.month_lt
  have leap : Leap m.year ↔ m.year % 4 = 0 := leap_iff start (by omega)
  have years : daysBeforeYear (m.year - 1970) = _ := daysBeforeYear_eq (by omega)
  simp only [timegmDays, ofMoment, Moment.days, years, daysBeforeMonth_eq m.year month]
  by_cases early : m.month < 2
  · have before : (m.month : Int) - 2 < 0 := by omega
    simp only [early, before, ↓reduceIte]
    rw [Int.tdiv_eq_ediv_of_nonneg (by omega), Int.tdiv_eq_ediv_of_nonneg (by omega)]
    omega
  · have late : ¬ (m.month : Int) - 2 < 0 := by omega
    simp only [early, late, ↓reduceIte]
    rw [Int.tdiv_eq_ediv_of_nonneg (by omega), Int.tdiv_eq_ediv_of_nonneg (by omega)]
    have quarters : ((m.year : Int) - 1900 - 68) * 1461 / 4 =
        ((m.year : Int) - 1968) * 365 + ((m.year : Int) - 1968) / 4 := by
      omega
    have months : ((m.month : Int) - 2) * 153 + 2 = (((m.month - 2) * 153 + 2 : Nat) : Int) := by
      omega
    rw [quarters, months]
    split
    · rename_i isLeap
      have divides := leap.mp isLeap
      omega
    · rename_i notLeap
      have rest := mt leap.mpr notLeap
      omega

/-- Before 2100 the seconds fit 32 bits, so the rollover takes exactly 2^32 from them. -/
theorem seconds_bound (m : Moment) (bound : m.year ≤ 2099) : (m.seconds : Int) < 4102444800 := by
  have start := m.year_ge
  have month := m.month_lt
  have inYear := Moment.dayOfYear_lt m
  have whole : daysBeforeMonth m.year (m.month + 1) ≤ yearDays m.year :=
    daysBeforeMonth_mono m.year (Nat.succ_le_of_lt month)
  have later : daysBeforeYear (m.year - 1970 + 1) ≤ daysBeforeYear 130 :=
    daysBeforeYear_mono (by omega)
  have last : daysBeforeYear 130 = 47482 := daysBeforeYear_eq (by omega)
  have next : 1970 + (m.year - 1970) = m.year := by omega
  rw [show daysBeforeYear (m.year - 1970 + 1) =
    daysBeforeYear (m.year - 1970) + yearDays (1970 + (m.year - 1970)) from rfl, next, last] at later
  have clock := Moment.clock_lt m
  have days : m.days < 47482 := by
    simp only [Moment.days]
    omega
  simp only [Moment.seconds]
  omega

theorem myTimegm_ofMoment (m : Moment) (isdst : Int) (bound : m.year ≤ 2099) :
    myTimegm (ofMoment m isdst) = if m.seconds < rollover.seconds then (m.seconds : Int)
      else m.seconds - 2 ^ 32 := by
  have most := seconds_bound m bound
  have total : timegmDays (ofMoment m isdst) * 60 * 60 * 24 + (ofMoment m isdst).hour * 60 * 60 +
      (ofMoment m isdst).min * 60 + (ofMoment m isdst).sec = m.seconds := by
    rw [timegmDays_ofMoment m isdst bound]
    simp only [ofMoment, Moment.seconds, Moment.clock]
    omega
  rw [myTimegm_eq, total, rollover_seconds]
  by_cases early : m.seconds < 2147483648
  · have exact : wrapInt m.seconds = m.seconds := wrapInt_of_bounds (by omega) (by omega)
    rw [exact, if_pos early, if_neg (by omega)]
  · have turned : wrapInt m.seconds = m.seconds - 2 ^ 32 := by
      rw [wrapInt]
      omega
    rw [turned, if_neg early, if_neg (by omega)]

/-- The result is the calendar's exactly before the rollover, and two moments keep their order
unless the rollover lies between them. -/
theorem myTimegm_calendar_iff (isdst : Int) :
    (∀ m : Moment, m.year ≤ 2099 →
      (myTimegm (ofMoment m isdst) = m.seconds ↔ m.Before rollover)) ∧
    (∀ a b : Moment, b.year ≤ 2099 → a.Before b →
      (myTimegm (ofMoment a isdst) < myTimegm (ofMoment b isdst) ↔
        b.Before rollover ∨ ¬ a.Before rollover)) := by
  constructor
  · intro m bound
    rw [myTimegm_ofMoment m isdst bound, ← Moment.seconds_lt_iff]
    split
    · simp only [*]
    · simp only [*, iff_false]
      omega
  · intro a b bound before
    have order := Moment.seconds_lt before
    have year : a.year ≤ b.year := by
      simp only [Moment.Before] at before
      omega
    have most := seconds_bound b bound
    rw [myTimegm_ofMoment a isdst (by omega), myTimegm_ofMoment b isdst bound,
      ← Moment.seconds_lt_iff, ← Moment.seconds_lt_iff, rollover_seconds]
    omega

/-- At the rollover the result is -2^31, less than at the start of the epoch. -/
theorem myTimegm_rollover : rollover.year ≤ 2099 ∧ rollover.seconds = 2147483648 ∧
    myTimegm (ofMoment rollover 0) = -2147483648 := by
  decide +kernel

end KcnTools.Date
