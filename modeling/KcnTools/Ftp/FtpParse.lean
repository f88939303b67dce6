import KcnTools.Protocol.Date
import Mathlib

/-!
The parser of FTP directory listings: EPLF facts, Unix lines, VMS lines and Windows NT lines.
A line is the text up to its end; what memory holds behind it is a parameter of the parsers
that may look there.
-/

namespace KcnTools.Ftp

open Date

inductive FtpFileType where
  | plainfile
  | directory
  | symlink
  | unknown
  deriving DecidableEq

/-- The modification time: a `struct tm` handed to `mktime`, or seconds. -/
inductive MTime where
  | seconds (t : Int)
  | mktime (tm : Tm)
  deriving DecidableEq

structure FtpFileInfo where
  type : FtpFileType
  name : List UInt8
  /-- `none` is a source that is NULL. -/
  symlink : Option (List UInt8)
  size : Int
  mtime : MTime
  localTimeZone : Bool
  permissions : Nat

def ftpSizeUnknown : Int := -1

def initFtpFileInfo : FtpFileInfo := ⟨.unknown, [], some [], ftpSizeUnknown, .seconds 0, false, 0o644⟩

def offtMax : Int := 2 ^ 63 - 1

def wrapOff (value : Int) : Int := (value + 2 ^ 63) % 2 ^ 64 - 2 ^ 63

def ftpNumber (digits : List UInt8) : Int :=
  digits.foldl (fun number c => wrapOff (digit c + 10 * number)) 0

def parseFtpNumber (src : List UInt8) (first last : Int) : Int × List UInt8 :=
  let number := ftpNumber (src.takeWhile isdigit)
  (if number < first ∨ last < number then -1 else number, src.dropWhile isdigit)

def skipSpace (src : List UInt8) : List UInt8 := src.dropWhile (· = 32)

def skipNonspace (src : List UInt8) : List UInt8 := src.dropWhile (· ≠ 32)

def eplfFacts (info : FtpFileInfo) (src : List UInt8) : Option FtpFileInfo :=
  match src with
  | [] => none
  | fact :: rest =>
      let value := rest.takeWhile (· ≠ 44)
      let next := ((fact :: rest).dropWhile (· ≠ 44)).drop 1
      if fact = 9 ∧ rest ≠ [] then some { info with name := rest }
      else if fact = 47 then eplfFacts { info with type := .directory } next
      else if fact = 114 then eplfFacts { info with type := .plainfile } next
      else if fact = 115 ∧ value ≠ [] then
        eplfFacts { info with size := (parseFtpNumber value 0 offtMax).1 } next
      else if fact = 109 ∧ value ≠ [] then
        eplfFacts { info with mtime := .seconds (parseFtpNumber value 0 (2 ^ 63 - 1)).1 } next
      else eplfFacts info next
termination_by src.length
decreasing_by
  all_goals
    have shorter := (List.dropWhile_sublist (l := fact :: rest) (fun c : UInt8 => decide (c ≠ 44))).length_le
    simp only [List.length_drop, List.length_cons] at shorter ⊢
    omega

def parseFtpEplfResponse (info : FtpFileInfo) (src : List UInt8) : Option FtpFileInfo :=
  eplfFacts info (src.drop 1)

/-- The bit of `r` or `w`, `none` for any other character than this and `-`. -/
def accessBit (c letter : UInt8) (bit : Nat) : Option Nat :=
  if c = letter then some bit else if c = 45 then some 0 else none

def executeBits (c : UInt8) (special execute : Nat) : Option Nat :=
  if c = 83 then some special
  else if c = 115 then some (special ||| execute)
  else accessBit c 120 execute

def otherExecute (c : UInt8) (perms : Nat) : Option Nat :=
  if c = 84 then some (perms ||| 0o1000)
  else if c = 116 then some (perms ||| 0o1000 ||| 0o1)
  else if c = 108 ∨ c = 76 then some ((perms ||| 0o2000) &&& (0o7777 - 0o10))
  else (accessBit c 120 0o1).map (perms ||| ·)

def unixPermissions : List UInt8 → Option Nat
  | ur :: uw :: ux :: gr :: gw :: gx :: oR :: ow :: ox :: _ => do
      let ur ← accessBit ur 114 0o400
      let uw ← accessBit uw 119 0o200
      let ux ← executeBits ux 0o4000 0o100
      let gr ← accessBit gr 114 0o40
      let gw ← accessBit gw 119 0o20
      let gx ← executeBits gx 0o2000 0o10
      let oR ← accessBit oR 114 0o4
      let ow ← accessBit ow 119 0o2
      otherExecute ox (ur ||| uw ||| ux ||| gr ||| gw ||| gx ||| oR ||| ow)
  | _ => none

def parseFtpUnixPermissions (src : List UInt8) : Nat :=
  if src.length = 9 ∨ (src.length = 10 ∧ src.getD 9 0 = 43) then (unixPermissions src).getD 0 else 0

inductive FtpUnix where
  | permissions
  | size
  | day
  | time
  | name
  deriving DecidableEq

def dropTrailing (name : List UInt8) (trailchar : UInt8) : List UInt8 :=
  if name.getLast? = some trailchar then name.dropLast else name

def findArrow (pos : List UInt8) (index : Nat) : Option Nat :=
  match pos with
  | [] => none
  | c :: rest =>
      if [32, 45, 62, 32].isPrefixOf (c :: rest) then some index else findArrow rest (index + 1)

def splitSymlink (info : FtpFileInfo) (name : List UInt8) : FtpFileInfo :=
  let word := name.takeWhile (· ≠ 32)
  match findArrow (name.drop word.length) word.length with
  | some index => { info with name := name.take index, symlink := some (name.drop (index + 4)) }
  | none => { info with name }

def unixName (info : FtpFileInfo) (name : List UInt8) : Option FtpFileInfo :=
  match info.type with
  | .directory => some { info with name := dropTrailing name 47 }
  | .symlink =>
      let info := splitSymlink info name
      info.symlink.map fun target =>
        { info with name := dropTrailing info.name 64, symlink := some (dropTrailing target 47) }
  | .plainfile =>
      some { info with name := if info.permissions &&& 0o111 ≠ 0 then dropTrailing name 42 else name }
  | .unknown => some { info with name }

def guessYear (now mtime : Tm) : Tm :=
  if mtime.year = 0 then
    { mtime with year := if mtime.mon > now.mon then now.year - 1 else now.year }
  else mtime

def unixFact (behind : List UInt8) (fact : FtpUnix) (info : FtpFileInfo) (mtime : Tm) (token rest : List UInt8) :
    FtpUnix × FtpFileInfo × Tm :=
  match fact with
  | .permissions =>
      (.size, if token.length = 9 then { info with permissions := parseFtpUnixPermissions token } else info, mtime)
  | .size =>
      let month := (parseMonth token (rest ++ behind)).1
      if info.size ≠ ftpSizeUnknown ∧ token.length = 3 ∧ month ≠ -1 then
        (.day, info, { mtime with mon := month })
      else if ¬ isdigit (token.headD 0) then (.size, { info with size := ftpSizeUnknown }, mtime)
      else (.size, { info with size := (parseFtpNumber token 0 offtMax).1 }, mtime)
  | .day => (.time, info, { mtime with mday := (parseDay token).1 })
  | .time =>
      if ¬ isdigit (token.headD 0) then (.name, info, mtime)
      else if 58 ∉ token then (.name, info, { mtime with year := (parseYear token).1 })
      else
        match parseTime mtime token with
        | some (tm, _) => (.name, info, tm)
        | none => (.name, info, { mtime with hour := 0, min := 0, sec := 0 })
  | .name => (.name, info, mtime)

theorem length_skip (src : List UInt8) (nonempty : src ≠ []) :
    (skipSpace (skipNonspace src)).length < src.length := by
  cases src with
  | nil => exact absurd rfl nonempty
  | cons c src =>
      rw [skipNonspace, List.dropWhile_cons]
      split
      · have first := (List.dropWhile_sublist (l := src.dropWhile (· ≠ 32))
        (fun c : UInt8 => decide (c = 32))).length_le
        have second := (List.dropWhile_sublist (l := src) (fun c : UInt8 => decide (c ≠ 32))).length_le
        rw [skipSpace, List.length_cons]
        omega
      next blank =>
        have first := (List.dropWhile_sublist (l := src) (fun c : UInt8 => decide (c = 32))).length_le
        rw [skipSpace, List.dropWhile_cons_of_pos (by simpa using blank), List.length_cons]
        omega

def unixFacts (now : Tm) (behind : List UInt8) (fact : FtpUnix) (info : FtpFileInfo) (mtime : Tm)
    (src : List UInt8) : Option FtpFileInfo :=
  if _nonempty : src ≠ [] then
    if fact = .name then
      (unixName info src).map fun info =>
        { info with mtime := .mktime (guessYear now mtime), localTimeZone := true }
    else
      let (fact, info, mtime) := unixFact behind fact info mtime (src.takeWhile (· ≠ 32)) (skipNonspace src)
      unixFacts now behind fact info mtime (skipSpace (skipNonspace src))
  else none
termination_by src.length
decreasing_by exact length_skip src _nonempty

def fileType (c : UInt8) : FtpFileType :=
  match c with
  | 45 => .plainfile
  | 100 => .directory
  | 108 => .symlink
  | _ => .unknown

def parseFtpUnixResponse (now : Tm) (behind : List UInt8) (info : FtpFileInfo) (src : List UInt8) :
    Option FtpFileInfo :=
  unixFacts now behind .permissions { info with type := fileType (src.headD 0) } { clearTm with isdst := -1 }
    (src.drop 1)

def vmsPermissions (perms : Nat) : List UInt8 → Nat
  | [] => perms
  | c :: src =>
      if c = 44 then vmsPermissions (perms * 8 % 2 ^ 32) src
      else if c = 82 then vmsPermissions (perms ||| 4) src
      else if c = 87 ∨ c = 68 then vmsPermissions (perms ||| 2) src
      else if c = 69 then vmsPermissions (perms ||| 1) src
      else 0

def vmsTrailer (info : FtpFileInfo) (src : List UInt8) : FtpFileInfo :=
  let src := skipSpace (skipNonspace (skipSpace src))
  match src.dropWhile (· ≠ 40) with
  | [] => info
  | _ :: inner =>
      if 41 ∈ inner then { info with permissions := vmsPermissions 0 (inner.takeWhile (· ≠ 41)) } else info

def parseFtpVmsResponse (behind : List UInt8) (info : FtpFileInfo) (src : List UInt8) : Option FtpFileInfo :=
  if 59 ∉ src then none
  else
    let name := src.takeWhile (· ≠ 59)
    let info :=
      if name.length > 4 ∧ name.drop (name.length - 4) = [46, 68, 73, 82] then
        { info with type := .directory, name := name.take (name.length - 4) }
      else { info with type := .plainfile, name }
    let date := skipSpace (skipNonspace (src.dropWhile (· ≠ 59)))
    let date := skipSpace (skipNonspace date)
    if date = [] then none
    else
      match parseDate date behind with
      | none => none
      | some (mtime, rest) =>
          if mtime = 0 then none else some (vmsTrailer { info with mtime := .seconds mtime } rest)

def winntKind (info : FtpFileInfo) (src : List UInt8) : FtpFileInfo :=
  if src.headD 0 = 60 then { info with type := .directory, permissions := 0o755 }
  else if isdigit (src.headD 0) then
    { info with type := .plainfile, size := (parseFtpNumber src 0 offtMax).1, permissions := 0o644 }
  else { info with type := .unknown }

def winntHyphen (src : List UInt8) : Option (List UInt8) :=
  if src.length ≤ 2 ∨ src.headD 0 ≠ 45 then none else some (src.drop 1)

def parseFtpWinntResponse (info : FtpFileInfo) (line : List UInt8) : Option FtpFileInfo := do
  if line.length ≤ 39 then none else
  let (mon, src) := parseFtpNumber line 1 12
  let src ← winntHyphen src
  let (mday, src) := parseDay src
  let src ← winntHyphen src
  let (year, src) := parseYear src
  if src = [] ∨ year = -1 then none else
  let src := skipSpace src
  if src = [] then none else
  let (mtime, src) ← parseTime { clearTm with isdst := -1, mon, mday, year } src
  let src := skipSpace (skipNonspace src)
  if src = [] then none else
  some (winntKind { info with name := line.drop 39, mtime := .mktime mtime } src)

def parseFtpFileInfo (now : Tm) (behind : List UInt8) (info : FtpFileInfo) (src : List UInt8) :
    Option FtpFileInfo :=
  match src with
  | [] => none
  | c :: _ =>
      if c = 43 then parseFtpEplfResponse info src
      else if c ∈ [98, 99, 100, 108, 112, 115, 45] then parseFtpUnixResponse now behind info src
      else if 59 ∈ src then parseFtpVmsResponse behind info src
      else if isdigit c then parseFtpWinntResponse info src
      else parseFtpUnixResponse now behind info src

end KcnTools.Ftp
