import Mathlib.Data.List.Induction
import Mathlib.Data.List.TakeWhile
import Mathlib.Tactic.IntervalCases
import KcnTools.Lib.Decimal
import KcnTools.Protocol.Date
import KcnTools.Ftp.FtpParse

/-!
Lines of directory listings, as `ls -l` and Windows NT write them for a file. The columns may
be any number of blanks apart; an NT name starts at column 39.
-/

namespace KcnTools.Ftp

open Date Decimal

def leapYear (year : Nat) : Bool := year % 4 = 0 && (year % 100 ≠ 0 || year % 400 = 0)

def daysInMonth (year month : Nat) : Nat :=
  if month = 2 then if leapYear year then 29 else 28
  else if month ∈ [4, 6, 9, 11] then 30
  else 31

structure CalendarDate where
  year : Nat
  month : Nat
  day : Nat
  from1970 : 1970 ≤ year
  to2069 : year ≤ 2069
  january : 1 ≤ month
  december : month ≤ 12
  first : 1 ≤ day
  last : day ≤ daysInMonth year month

structure ListedFile where
  directory : Bool
  permissions : Nat
  size : Nat
  date : CalendarDate
  name : List UInt8
  mode : permissions < 2 ^ 12
  sized : size < 2 ^ 63
  named : name ≠ []
  noBlank : name.head? ≠ some 32
  unmarked : name.getLast? ≠ some (if directory then 47 else 42)

def ListedFile.type (file : ListedFile) : FtpFileType := if file.directory then .directory else .plainfile

def blanks (gap : Nat) : List UInt8 := List.replicate (gap + 1) 32

def monthName (month : Nat) : UInt8 × UInt8 × UInt8 :=
  match month with
  | 1 => (74, 97, 110)
  | 2 => (70, 101, 98)
  | 3 => (77, 97, 114)
  | 4 => (65, 112, 114)
  | 5 => (77, 97, 121)
  | 6 => (74, 117, 110)
  | 7 => (74, 117, 108)
  | 8 => (65, 117, 103)
  | 9 => (83, 101, 112)
  | 10 => (79, 99, 116)
  | 11 => (78, 111, 118)
  | _ => (68, 101, 99)

/-- Read, write and execute, with the letters of the bit that shares the last place. -/
def triad (bits : Nat) (special : Bool) (lower upper : UInt8) : List UInt8 :=
  [if bits.testBit 2 then 114 else 45,
    if bits.testBit 1 then 119 else 45,
    if special then if bits.testBit 0 then lower else upper else if bits.testBit 0 then 120 else 45]

def modeString (mode : Nat) : List UInt8 :=
  triad (mode / 64) (mode.testBit 11) 115 83 ++ triad (mode / 8) (mode.testBit 10) 115 83 ++
    triad mode (mode.testBit 9) 116 84

structure Owner where
  text : List UInt8
  written : text ≠ []
  word : (32 : UInt8) ∉ text
  notMonth : ∀ a b c, text = [a, b, c] → month2num (a, b, c) = -1

structure UnixLine where
  file : ListedFile
  links : Nat
  owner : Owner
  group : Owner
  /-- The blanks behind the permissions, the links, the owner, and so on to the year. -/
  gaps : Fin 8 → Nat

def monthText (month : Nat) : List UInt8 :=
  [(monthName month).1, (monthName month).2.1, (monthName month).2.2]

def UnixLine.text (line : UnixLine) : List UInt8 :=
  (if line.file.directory then 100 else 45) ::
    (modeString line.file.permissions ++ (blanks (line.gaps 0) ++
      (decimal line.links ++ (blanks (line.gaps 1) ++
        (line.owner.text ++ (blanks (line.gaps 2) ++
          (line.group.text ++ (blanks (line.gaps 3) ++
            (decimal line.file.size ++ (blanks (line.gaps 4) ++
              (monthText line.file.date.month ++ (blanks (line.gaps 5) ++
                (decimal line.file.date.day ++ (blanks (line.gaps 6) ++
                  (decimal line.file.date.year ++ (blanks (line.gaps 7) ++ line.file.name))))))))))))))))

def twoDigits (n : Nat) : List UInt8 := [UInt8.ofNat (48 + n / 10), UInt8.ofNat (48 + n % 10)]

def clockText (hour minute : Nat) : List UInt8 :=
  twoDigits (if hour % 12 = 0 then 12 else hour % 12) ++ 58 :: twoDigits minute ++
    [if hour < 12 then 65 else 80, 77]

def kindText (file : ListedFile) : List UInt8 :=
  if file.directory then [60, 68, 73, 82, 62] else decimal file.size

def winntHead (file : ListedFile) (hour minute dateGap timeGap fill : Nat) : List UInt8 :=
  twoDigits file.date.month ++ 45 :: (twoDigits file.date.day ++ 45 :: (twoDigits (file.date.year % 100) ++
    (blanks dateGap ++ (clockText hour minute ++ (blanks timeGap ++ (kindText file ++ blanks fill))))))

structure WinntLine where
  file : ListedFile
  hour : Nat
  minute : Nat
  dateGap : Nat
  timeGap : Nat
  fill : Nat
  hours : hour < 24
  minutes : minute < 60
  column : (winntHead file hour minute dateGap timeGap fill).length = 39

def WinntLine.text (line : WinntLine) : List UInt8 :=
  winntHead line.file line.hour line.minute line.dateGap line.timeGap line.fill ++ line.file.name

inductive Listing where
  | unix (line : UnixLine)
  | winnt (line : WinntLine)

def Listing.file : Listing → ListedFile
  | .unix line => line.file
  | .winnt line => line.file

def Listing.text : Listing → List UInt8
  | .unix line => line.text
  | .winnt line => line.text

def Listing.IsUnix : Listing → Prop
  | .unix _ => True
  | .winnt _ => False

structure Denotes (tm : Tm) (date : CalendarDate) : Prop where
  year : tm.year = date.year - 1900
  month : tm.mon = date.month - 1
  day : tm.mday = date.day

/-- What the line shows of the file is what the parser finds in it. -/
structure Faithful (listing : Listing) (info : FtpFileInfo) : Prop where
  name : info.name = listing.file.name
  type : info.type = listing.file.type
  size : listing.IsUnix ∨ listing.file.directory = false → info.size = listing.file.size
  permissions : listing.IsUnix → info.permissions = listing.file.permissions
  time : ∃ tm, info.mtime = .mktime tm ∧ Denotes tm listing.file.date

section Words

theorem skip_word {token rest : List UInt8} (word : (32 : UInt8) ∉ token) (gap : Nat)
    (next : rest.head? ≠ some 32) :
    (token ++ (blanks gap ++ rest)).takeWhile (· ≠ 32) = token ∧
      skipNonspace (token ++ (blanks gap ++ rest)) = blanks gap ++ rest ∧
        skipSpace (blanks gap ++ rest) = rest := by
  have inside : ∀ c ∈ token, decide (c ≠ 32) = true := by
    intro c member
    rw [decide_eq_true_eq]
    rintro rfl
    exact word member
  refine ⟨?_, ?_, ?_⟩
  · rw [List.takeWhile_append_of_pos inside, blanks, List.replicate_succ, List.cons_append,
      List.takeWhile_cons_of_neg (by decide), List.append_nil]
  · rw [skipNonspace, List.dropWhile_append_of_pos inside, blanks, List.replicate_succ, List.cons_append,
      List.dropWhile_cons_of_neg (by decide)]
  · rw [skipSpace, blanks, List.dropWhile_append_of_pos (by intro c member; simp [List.eq_of_mem_replicate member])]
    cases rest with
    | nil => rfl
    | cons c rest =>
        rw [List.dropWhile_cons_of_neg]
        rw [decide_eq_true_eq]
        rintro rfl
        exact next rfl

theorem unixFacts_word (now : Tm) {behind : List UInt8} {fact told : FtpUnix} (before : fact ≠ .name)
    {info known : FtpFileInfo} {mtime dated : Tm} {token rest : List UInt8} (written : token ≠ [])
    (word : (32 : UInt8) ∉ token) (gap : Nat) (next : rest.head? ≠ some 32)
    (tells : ∀ rest, unixFact behind fact info mtime token rest = (told, known, dated)) :
    unixFacts now behind fact info mtime (token ++ (blanks gap ++ rest)) =
      unixFacts now behind told known dated rest := by
  obtain ⟨taken, left, skipped⟩ := skip_word word gap next
  have nonempty : token ++ (blanks gap ++ rest) ≠ [] := by
    intro nothing
    exact written (List.append_eq_nil_iff.mp nothing).1
  rw [unixFacts, dif_pos nonempty, if_neg before, taken, left, skipped, tells]

end Words

section Permissions

def oneBit (mode k : Nat) : Nat := if mode.testBit k then 2 ^ k else 0

theorem testBit_oneBit (mode k i : Nat) : (oneBit mode k).testBit i = (decide (k = i) && mode.testBit k) := by
  rw [oneBit]
  split
  next set => rw [Nat.testBit_two_pow, set, Bool.and_true]
  next clear => rw [Nat.zero_testBit, Bool.eq_false_iff.mpr clear, Bool.and_false]

theorem accessBit_letter (set : Bool) (letter : UInt8) (bit : Nat) (other : letter ≠ 45) :
    accessBit (if set then letter else 45) letter bit = some (if set then bit else 0) := by
  cases set
  · simp [accessBit, Ne.symm other]
  · simp [accessBit]

theorem executeBits_letter (special set : Bool) (specialBit bit : Nat) :
    executeBits (if special then if set then 115 else 83 else if set then 120 else 45) specialBit bit =
      some ((if special then specialBit else 0) ||| if set then bit else 0) := by
  cases special <;> cases set <;> simp [executeBits, accessBit]

theorem otherExecute_letter (special set : Bool) (perms : Nat) :
    otherExecute (if special then if set then 116 else 84 else if set then 120 else 45) perms =
      some (perms ||| ((if special then 2 ^ 9 else 0) ||| if set then 2 ^ 0 else 0)) := by
  cases special <;> cases set <;> simp [otherExecute, accessBit, Nat.or_assoc]

theorem parseFtpUnixPermissions_modeString {mode : Nat} (small : mode < 2 ^ 12) :
    parseFtpUnixPermissions (modeString mode) = mode := by
  have user (k : Nat) : (mode / 64).testBit k = mode.testBit (k + 6) :=
    @Nat.testBit_div_two_pow 6 mode k
  have group (k : Nat) : (mode / 8).testBit k = mode.testBit (k + 3) :=
    @Nat.testBit_div_two_pow 3 mode k
  have bits : unixPermissions (modeString mode) = some
      (oneBit mode 8 ||| oneBit mode 7 ||| (oneBit mode 11 ||| oneBit mode 6) ||| oneBit mode 5 |||
        oneBit mode 4 ||| (oneBit mode 10 ||| oneBit mode 3) ||| oneBit mode 2 ||| oneBit mode 1 |||
          (oneBit mode 9 ||| oneBit mode 0)) := by
    simp only [modeString, triad, List.cons_append, List.nil_append, unixPermissions, user, group,
      accessBit_letter _ 114 _ (by decide), accessBit_letter _ 119 _ (by decide), executeBits_letter,
      otherExecute_letter, Option.bind_eq_bind, Option.bind_some]
    rfl
  rw [parseFtpUnixPermissions, if_pos (.inl rfl), bits, Option.getD_some]
  apply Nat.eq_of_testBit_eq
  intro i
  simp only [Nat.testBit_or, testBit_oneBit]
  by_cases inside : i < 12
  · interval_cases i <;> simp
  · have outside : mode.testBit i = false :=
      Nat.testBit_lt_two_pow (Nat.lt_of_lt_of_le small (Nat.pow_le_pow_right (by decide) (by omega : 12 ≤ i)))
    have apart (k : Nat) (below : k < 12) : decide (k = i) = false := decide_eq_false (by omega)
    simp only [outside, apart, Nat.reduceLT, Bool.false_and, Bool.or_self]

theorem modeString_length (mode : Nat) : (modeString mode).length = 9 := rfl

theorem modeString_word (mode : Nat) : (32 : UInt8) ∉ modeString mode := by
  simp only [modeString, triad, List.cons_append, List.nil_append, List.mem_cons, List.not_mem_nil, or_false]
  rintro (h | h | h | h | h | h | h | h | h)
  all_goals (repeat' split at h) <;> exact absurd h (by decide)

end Permissions

section Numbers

theorem isdigit_decimal {n : Nat} {c : UInt8} (member : c ∈ decimal n) : isdigit c = true :=
  (isdigit_iff c).mpr (decimal_digits member)

theorem word_decimal (n : Nat) : (32 : UInt8) ∉ decimal n := by
  intro member
  exact absurd (decimal_digits member).1 (by decide)

theorem ftpNumber_digits {digits : List UInt8} (all : ∀ c ∈ digits, isdigit c = true)
    (small : decimalValue digits < 2 ^ 63) : ftpNumber digits = decimalValue digits := by
  induction digits using List.reverseRecOn with
  | nil => rfl
  | append_singleton digits c ih =>
      rw [List.forall_mem_append] at all
      have last := (isdigit_iff c).mp (all.2 c (List.mem_singleton.mpr rfl))
      rw [decimalValue, List.foldl_append, ← decimalValue] at small ⊢
      simp only [List.foldl_cons, List.foldl_nil] at small ⊢
      have front := ih all.1 (by omega)
      rw [ftpNumber, List.foldl_append, ← ftpNumber, front]
      simp only [List.foldl_cons, List.foldl_nil, wrapOff, digit]
      omega

theorem parseFtpNumber_decimal {n : Nat} (small : n < 2 ^ 63) : parseFtpNumber (decimal n) 0 offtMax =
    ((n : Int), []) := by
  have all : ∀ c ∈ decimal n, isdigit c = true := fun c member => isdigit_decimal member
  have taken : (decimal n).takeWhile isdigit = decimal n := List.takeWhile_eq_self_iff.mpr all
  have left : (decimal n).dropWhile isdigit = [] := List.dropWhile_eq_nil_iff.mpr all
  have value := ftpNumber_digits all (by rw [decimalValue_decimal]; exact small)
  rw [decimalValue_decimal] at value
  rw [parseFtpNumber, taken, left, value, if_neg]
  rw [offtMax]
  omega

theorem parseDay_decimal {day : Nat} (small : day < 100) : (parseDay (decimal day)).1 = day := by
  by_cases short : day < 10
  · rw [decimal_of_lt short, parseDay, if_pos (isdigit_ofNat short)]
    exact digit_ofNat short
  · rw [decimal_append (by omega), decimal_of_lt (by omega : day / 10 < 10), List.singleton_append, parseDay,
      if_pos (isdigit_ofNat (by omega)), if_pos (isdigit_ofNat (by omega))]
    dsimp only
    rw [digit_ofNat (by omega), digit_ofNat (by omega)]
    omega

theorem parseYear_decimal {year : Nat} (long : 1000 ≤ year) (short : year < 10000) :
    (parseYear (decimal year)).1 = year - 1900 := by
  rw [decimal_append (by omega), decimal_append (by omega), decimal_append (by omega),
    decimal_of_lt (by omega : year / 10 / 10 / 10 < 10)]
  simp only [List.cons_append, List.nil_append, parseYear,
    isdigit_ofNat (by omega : year / 10 / 10 / 10 < 10), isdigit_ofNat (by omega : year / 10 / 10 % 10 < 10),
    isdigit_ofNat (by omega : year / 10 % 10 < 10), isdigit_ofNat (by omega : year % 10 < 10), Bool.and_self, if_true,
    digit_ofNat (by omega : year / 10 / 10 / 10 < 10), digit_ofNat (by omega : year / 10 / 10 % 10 < 10),
    digit_ofNat (by omega : year / 10 % 10 < 10), digit_ofNat (by omega : year % 10 < 10)]
  omega

end Numbers

end KcnTools.Ftp
