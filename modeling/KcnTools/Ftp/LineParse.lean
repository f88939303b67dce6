import KcnTools.Lib.CheckedRead
import KcnTools.Ftp.FtpParse
import Mathlib

/-!
The parser of directory listings once more, with the positions it reads: `src`, `pos` and `end`
are places in the line, which no NUL ends. The parsers of dates agree with those of `Date`
(`LineDates`).
-/

namespace KcnTools.FtpLine

open CheckedRead CheckedRead.Read
open Date (Tm isdigit digit month2num halfDayHour myTimegm isTimeSep clearTm)
open Ftp (FtpFileType FtpUnix MTime ftpSizeUnknown offtMax ftpNumber fileType guessYear vmsPermissions)

/-! The dates. -/

def laterDigits (line : List UInt8) (last date : Nat) : Read (Option (UInt8 × UInt8)) :=
  if date + 3 < last then do
    let d2 ← element line (date + 2)
    if ¬ isdigit d2 then value none else do
    let d3 ← element line (date + 3)
    if ¬ isdigit d3 then value none else value (some (d2, d3))
  else value none

def parseYear (line : List UInt8) (last date : Nat) : Read (Int × Nat) :=
  if last ≤ date + 1 then value (-1, date) else do
  let d0 ← element line date
  if ¬ isdigit d0 then value (-1, date) else do
  let d1 ← element line (date + 1)
  if ¬ isdigit d1 then value (-1, date) else do
  let year := digit d0 * 10 + digit d1
  match ← laterDigits line last date with
  | some (d2, d3) => value ((year * 10 + digit d2) * 10 + digit d3 - 1900, date + 4)
  | none => if year < 70 then value (year + 100, date + 2) else value (year, date)

def parseMonth (line : List UInt8) (last month : Nat) : Read (Int × Nat) :=
  if last < month + 2 then value (-1, month) else do
  let a ← element line month
  if a = 0 then value (-1, month) else do
  let b ← element line (month + 1)
  if b = 0 then value (-1, month) else do
  let c ← element line (month + 2)
  if c = 0 then value (-1, month) else
  let monthnum := month2num (a, b, c)
  value (monthnum, if monthnum = -1 then month else month + 3)

def parseDay (line : List UInt8) (last date : Nat) : Read (Int × Nat) :=
  if last ≤ date then value (32, date) else do
  let d0 ← element line date
  if ¬ isdigit d0 then value (32, date) else
  if last ≤ date + 1 then value (digit d0, date + 1) else do
  let d1 ← element line (date + 1)
  if ¬ isdigit d1 then value (digit d0, date + 1) else value (digit d0 * 10 + digit d1, date + 2)

def checkTime (tm : Tm) (time : Nat) : Read (Tm × Nat) :=
  if tm.hour ≤ 23 ∧ tm.min ≤ 59 ∧ tm.sec ≤ 59 then value (tm, time) else fails

def expect (p : UInt8 → Bool) (line : List UInt8) (date : Nat) : Read UInt8 := do
  let c ← element line date
  if p c then value c else fails

def parseSeconds (line : List UInt8) (tm : Tm) (last date : Nat) : Read (Tm × Nat) :=
  if last ≤ date + 2 then checkTime tm date else do
  let c ← element line date
  if c = 58 then
    if last ≤ date + 1 + 2 then fails else do
    let s1 ← expect isdigit line (date + 1)
    let s2 ← expect isdigit line (date + 2)
    checkTime { tm with sec := digit s1 * 10 + digit s2 } (date + 3)
  else if c = 65 ∨ c = 80 then do
    let _ ← expect (· = 77) line (date + 1)
    checkTime { tm with hour := halfDayHour tm.hour c } (date + 2)
  else checkTime tm date

def parseTime (line : List UInt8) (tm : Tm) (last date : Nat) : Read (Tm × Nat) :=
  if last < date + 5 then fails else do
  let h1 ← expect isdigit line date
  let h2 ← expect isdigit line (date + 1)
  let _ ← expect (· = 58) line (date + 2)
  let m1 ← expect isdigit line (date + 3)
  let m2 ← expect isdigit line (date + 4)
  parseSeconds line { tm with hour := digit h1 * 10 + digit h2, min := digit m1 * 10 + digit m2, sec := 0 } last
    (date + 5)

def skipTimeSep (line : List UInt8) (last start : Nat) : Read Nat := do
  let date ← skipWhile line isTimeSep (last - start) start
  if date = start then fails else value date

def parseRfcDate (line : List UInt8) (last date : Nat) : Read (Tm × Nat) := do
  let (mday, date) ← parseDay line last date
  if 31 < mday then fails else do
  let date ← skipTimeSep line last date
  let (mon, date) ← parseMonth line last date
  if mon < 0 then fails else do
  let date ← skipTimeSep line last date
  let (year, date) ← parseYear line last date
  if year < 0 then fails else do
  let date ← skipTimeSep line last date
  parseTime line { clearTm with mday, mon, year } last date

def parseAsctimeDate (line : List UInt8) (last date : Nat) : Read (Tm × Nat) := do
  let (mon, date) ← parseMonth line last date
  if mon < 0 then fails else do
  let date ← skipTimeSep line last date
  let (mday, date) ← parseDay line last date
  if 31 < mday then fails else do
  let date ← skipTimeSep line last date
  let (tm, date) ← parseTime line { clearTm with mday, mon } last date
  let date ← skipTimeSep line last date
  let (year, date) ← parseYear line last date
  if year < 0 then fails else value ({ tm with year }, date)

def parseDate (line : List UInt8) (last date : Nat) : Read (Int × Nat) := do
  let c ← element line date
  let (tm, date) ← if isdigit c then parseRfcDate line last date else parseAsctimeDate line last date
  value (myTimegm tm, date)

/-! The lines. -/

structure Slice where
  source : Nat
  length : Int

/-- `struct ftp_file_info`; `none` is the empty string that the caller has put there. -/
structure FtpFileInfo where
  type : FtpFileType
  name : Option Slice
  symlink : Option Slice
  size : Int
  mtime : MTime
  localTimeZone : Bool
  permissions : Nat

def initFtpFileInfo : FtpFileInfo := ⟨.unknown, none, none, ftpSizeUnknown, .seconds 0, false, 0o644⟩

def skipSpaceEnd (line : List UInt8) (src : Nat) : Read Nat := skipWhile line (· = 32) (line.length - src) src

def skipNonspaceEnd (line : List UInt8) (src : Nat) : Read Nat := skipWhile line (· ≠ 32) (line.length - src) src

def parseFtpNumber (line : List UInt8) (last src : Nat) (lower upper : Int) : Read (Int × Nat) := do
  let pos ← skipWhile line isdigit (last - src) src
  let number := ftpNumber ((line.drop src).take (pos - src))
  value (if number < lower ∨ upper < number then -1 else number, pos)

def eplfFact (line : List UInt8) (info : FtpFileInfo) (fact : UInt8) (src pos : Nat) : Read FtpFileInfo :=
  if fact = 47 then value { info with type := .directory }
  else if fact = 114 then value { info with type := .plainfile }
  else if fact = 115 ∧ src < pos then do
    let (size, _) ← parseFtpNumber line pos src 0 offtMax
    value { info with size }
  else if fact = 109 ∧ src < pos then do
    let (mtime, _) ← parseFtpNumber line pos src 0 (2 ^ 63 - 1)
    value { info with mtime := .seconds mtime }
  else value info

theorem memchr_later {line : List UInt8} {c : UInt8} {count pos i : Nat}
    (found : memchr line c count pos = value (some i)) : pos ≤ i := by
  induction count generalizing pos with
  | zero => cases found
  | succ count ih =>
      rw [memchr] at found
      cases here : element line pos with
      | beyond => rw [here] at found; cases found
      | fails => rw [here] at found; cases found
      | value other =>
          rw [here, value_bind] at found
          split at found
          · cases found
            exact Nat.le_refl _
          · exact Nat.le_of_succ_le (ih found)

def eplfFacts (line : List UInt8) (info : FtpFileInfo) (src : Nat) : Read FtpFileInfo :=
  if _inside : src < line.length then
    match _found : memchr line 44 (line.length - src) src with
    | beyond => beyond
    | fails => fails
    | value comma => do
        let fact ← element line src
        if fact = 9 ∧ src + 1 < line.length then
          value { info with name := some ⟨src + 1, line.length - (src + 1 : Nat)⟩ }
        else do
          let info ← eplfFact line info fact (src + 1) (comma.getD line.length)
          eplfFacts line info (comma.getD line.length + 1)
  else fails
termination_by line.length - src
decreasing_by
  cases comma with
  | none =>
      rw [Option.getD_none]
      omega
  | some i =>
      have later := memchr_later _found
      rw [Option.getD_some]
      omega

def parseFtpEplfResponse (line : List UInt8) (info : FtpFileInfo) : Read FtpFileInfo := eplfFacts line info 1

def unixMonth (line : List UInt8) (info : FtpFileInfo) (src pos : Nat) : Read (Int × Nat) :=
  if info.size ≠ ftpSizeUnknown ∧ pos - src = 3 then parseMonth line pos src else value (-1, src)

def unixSize (line : List UInt8) (info : FtpFileInfo) (mtime : Tm) (src pos : Nat) :
    Read (FtpUnix × FtpFileInfo × Tm) := do
  let (month, _) ← unixMonth line info src pos
  if month ≠ -1 then value (.day, info, { mtime with mon := month }) else do
  let c ← element line src
  if ¬ isdigit c then value (.size, { info with size := ftpSizeUnknown }, mtime) else do
  let (size, _) ← parseFtpNumber line pos src 0 offtMax
  value (.size, { info with size }, mtime)

def unixTime (line : List UInt8) (mtime : Tm) (src pos : Nat) : Read Tm := do
  let c ← element line src
  if ¬ isdigit c then value mtime else do
  match ← memchr line 58 (pos - src) src with
  | none => do
      let (year, _) ← parseYear line pos src
      value { mtime with year }
  | some _ => do
      let (tm, _) ← (parseTime line mtime pos src).orElse ({ mtime with hour := 0, min := 0, sec := 0 }, src)
      value tm

/-- What the column from `src` to `pos` tells. The permissions are read as a whole, where the code
stops at the first wrong one. -/
def unixFact (line : List UInt8) (fact : FtpUnix) (info : FtpFileInfo) (mtime : Tm) (src pos : Nat) :
    Read (FtpUnix × FtpFileInfo × Tm) :=
  match fact with
  | .permissions =>
      if pos - src = 9 then do
        let token ← elements line 9 src
        value (.size, { info with permissions := Ftp.parseFtpUnixPermissions token }, mtime)
      else value (.size, info, mtime)
  | .size => unixSize line info mtime src pos
  | .day => do
      let (mday, _) ← parseDay line pos src
      value (.time, info, { mtime with mday })
  | .time => do
      let mtime ← unixTime line mtime src pos
      value (.name, info, mtime)
  | .name => value (.name, info, mtime)

def dropTrailing (line : List UInt8) (string : Slice) (trailchar : UInt8) : Read Slice :=
  if 0 < string.length then do
    let c ← element line (string.source + (string.length - 1).toNat)
    value (if c = trailchar then { string with length := string.length - 1 } else string)
  else value string

/-- Where ` -> ` stands; `memchr` is called with the length from `pos` on, not from `pos + 1` on. -/
def searchArrow (line : List UInt8) (pos : Nat) : Read (Option Nat) :=
  if _inside : pos + 3 < line.length then do
    let four ← elements line 4 pos
    if four = [32, 45, 62, 32] then value (some pos)
    else
      match _found : memchr line 32 (line.length - pos) (pos + 1) with
      | beyond => beyond
      | fails => fails
      | value none => value none
      | value (some next) => searchArrow line next
  else value none
termination_by line.length - pos
decreasing_by
  have later := memchr_later _found
  omega

/-- A symbolic link and its target. The source of the target is never NULL, as the caller has put
an empty string there. -/
def unixSymlink (line : List UInt8) (info : FtpFileInfo) (src pos : Nat) : Read FtpFileInfo := do
  let arrow ← searchArrow line pos
  match arrow with
  | some i => do
      let name ← dropTrailing line ⟨src, i - src⟩ 64
      let symlink ← dropTrailing line ⟨i + 4, line.length - i - 4⟩ 47
      value { info with name := some name, symlink := some symlink }
  | none => do
      let name ← dropTrailing line ⟨src, line.length - src⟩ 64
      value { info with name := some name }

def unixName (line : List UInt8) (info : FtpFileInfo) (src pos : Nat) : Read FtpFileInfo :=
  let name : Slice := ⟨src, line.length - src⟩
  match info.type with
  | .directory => do
      let name ← dropTrailing line name 47
      value { info with name := some name }
  | .symlink => unixSymlink line info src pos
  | .plainfile => do
      let name ← if info.permissions &&& 0o111 ≠ 0 then dropTrailing line name 42 else value name
      value { info with name := some name }
  | .unknown => value { info with name := some name }

theorem skipWhile_later {line : List UInt8} {p : UInt8 → Bool} {count pos next : Nat}
    (found : skipWhile line p count pos = value next) : pos ≤ next := by
  induction count generalizing pos with
  | zero =>
      cases found
      exact Nat.le_refl _
  | succ count ih =>
      rw [skipWhile] at found
      cases here : element line pos with
      | beyond => rw [here] at found; cases found
      | fails => rw [here] at found; cases found
      | value c =>
          rw [here, value_bind] at found
          split at found
          · exact Nat.le_of_succ_le (ih found)
          · cases found
            exact Nat.le_refl _

theorem column_later {line : List UInt8} {src pos next : Nat} (inside : src < line.length)
    (column : skipNonspaceEnd line src = value pos) (blanks : skipSpaceEnd line pos = value next) : src < next := by
  have later := skipWhile_later column
  have blank := skipWhile_later blanks
  rcases Nat.lt_or_eq_of_le later with before | rfl
  · omega
  · rw [skipNonspaceEnd, show line.length - src = line.length - (src + 1) + 1 by omega, skipWhile] at column
    rw [skipSpaceEnd, show line.length - src = line.length - (src + 1) + 1 by omega, skipWhile] at blanks
    rw [element, List.getElem?_eq_getElem inside, value_bind] at column blanks
    split at column
    · have := skipWhile_later column
      omega
    next blank =>
      rw [if_pos (by simpa using blank)] at blanks
      exact skipWhile_later blanks

def unixFacts (line : List UInt8) (now : Tm) (fact : FtpUnix) (info : FtpFileInfo) (mtime : Tm) (src : Nat) :
    Read FtpFileInfo :=
  if _inside : src < line.length then
    match _column : skipNonspaceEnd line src with
    | beyond => beyond
    | fails => fails
    | value pos =>
        if fact = .name then do
          let info ← unixName line info src pos
          value { info with mtime := .mktime (guessYear now mtime), localTimeZone := true }
        else do
          let (fact, info, mtime) ← unixFact line fact info mtime src pos
          match _blanks : skipSpaceEnd line pos with
          | beyond => beyond
          | fails => fails
          | value next => unixFacts line now fact info mtime next
  else fails
termination_by line.length - src
decreasing_by
  have later := column_later _inside _column _blanks
  omega

def parseFtpUnixResponse (line : List UInt8) (now : Tm) (info : FtpFileInfo) : Read FtpFileInfo := do
  let type ← element line 0
  unixFacts line now .permissions { info with type := fileType type } { clearTm with isdst := -1 } 1

def vmsTrailer (line : List UInt8) (info : FtpFileInfo) (src : Nat) : Read FtpFileInfo := do
  let src ← skipSpaceEnd line src
  let src ← skipNonspaceEnd line src
  let src ← skipSpaceEnd line src
  if line.length ≤ src then value info else do
  match ← memchr line 40 (line.length - src) src with
  | none => value info
  | some left => do
      match ← memchr line 41 (line.length - (left + 1)) (left + 1) with
      | none => value info
      | some right => do
          let permissions ← elements line (right - (left + 1)) (left + 1)
          value { info with permissions := vmsPermissions 0 permissions }

def vmsExtension (line : List UInt8) (pos : Nat) : Read (List UInt8) :=
  if 4 < pos then elements line 4 (pos - 4) else value []

def parseFtpVmsResponse (line : List UInt8) (info : FtpFileInfo) : Read FtpFileInfo := do
  match ← memchr line 59 line.length 0 with
  | none => fails
  | some pos => do
      let extension ← vmsExtension line pos
      let info :=
        if extension = [46, 68, 73, 82] then { info with type := .directory, name := some ⟨0, pos - 4⟩ }
        else { info with type := .plainfile, name := some ⟨0, pos⟩ }
      let pos ← skipNonspaceEnd line pos
      let src ← skipSpaceEnd line pos
      if line.length ≤ src then fails else do
      let src ← skipNonspaceEnd line src
      let src ← skipSpaceEnd line src
      if line.length ≤ src then fails else do
      let (mtime, src) ← parseDate line line.length src
      if mtime = 0 then fails else vmsTrailer line { info with mtime := .seconds mtime } src

def winntHyphen (line : List UInt8) (src : Nat) : Read Nat :=
  if line.length ≤ src + 2 then fails else do
  let _ ← expect (· = 45) line src
  value (src + 1)

def winntKind (line : List UInt8) (info : FtpFileInfo) (src : Nat) : Read FtpFileInfo := do
  let c ← element line src
  if c = 60 then value { info with type := .directory, permissions := 0o755 }
  else if isdigit c then do
    let (size, _) ← parseFtpNumber line line.length src 0 offtMax
    value { info with type := .plainfile, size, permissions := 0o644 }
  else value { info with type := .unknown }

def parseFtpWinntResponse (line : List UInt8) (info : FtpFileInfo) : Read FtpFileInfo :=
  if line.length ≤ 39 then fails else do
  let (mon, src) ← parseFtpNumber line line.length 0 1 12
  let src ← winntHyphen line src
  let (mday, src) ← parseDay line line.length src
  let src ← winntHyphen line src
  let (year, src) ← parseYear line line.length src
  if line.length ≤ src ∨ year = -1 then fails else do
  let src ← skipSpaceEnd line src
  if line.length ≤ src then fails else do
  let (mtime, src) ← parseTime line { clearTm with isdst := -1, mon, mday, year } line.length src
  let src ← skipNonspaceEnd line src
  let src ← skipSpaceEnd line src
  if line.length ≤ src then fails else
    winntKind line { info with name := some ⟨39, line.length - 39⟩, mtime := .mktime mtime } src

def parseFtpFileInfo (line : List UInt8) (now : Tm) (info : FtpFileInfo) : Read FtpFileInfo :=
  if line.length = 0 then fails else do
  let c ← element line 0
  if c = 43 then parseFtpEplfResponse line info
  else if c ∈ [98, 99, 100, 108, 112, 115, 45] then parseFtpUnixResponse line now info
  else do
    match ← memchr line 59 line.length 0 with
    | some _ => parseFtpVmsResponse line info
    | none => if isdigit c then parseFtpWinntResponse line info else parseFtpUnixResponse line now info

end KcnTools.FtpLine
