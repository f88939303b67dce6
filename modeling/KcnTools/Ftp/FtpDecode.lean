import KcnTools.Ftp.FtpListing

/-!
Decoding the lines of listings. A Unix line gives back all that it shows; in a Windows NT line
the month is off by one.
-/

namespace KcnTools.Ftp

open Date Decimal

section Unix

variable (now : Tm) (behind : List UInt8) (info : FtpFileInfo) (mtime : Tm)

theorem month2num_digit {a b c : UInt8} (number : isdigit a = true) : month2num (a, b, c) = -1 := by
  have all : ∀ bits : BitVec 8, isdigit ⟨bits⟩ = true → (⟨bits⟩ : UInt8) ||| 32 < 97 := by decide +kernel
  have low : a ||| 32 < 97 := all a.toBitVec number
  rw [month2num]
  dsimp only
  generalize a ||| 32 = first at low
  split
  all_goals first | rfl | exact absurd low (by decide)

theorem parseMonth_three (a b c : UInt8) (rest : List UInt8) (notMonth : month2num (a, b, c) = -1) :
    (parseMonth [a, b, c] rest).1 = -1 := by
  rw [parseMonth, if_neg (Nat.not_lt.mpr (by simp))]
  simp only [List.cons_append, List.nil_append, notMonth, if_true, ite_self]

theorem unixFact_size {token : List UInt8} (notMonth : ∀ a b c, token = [a, b, c] → month2num (a, b, c) = -1)
    (rest : List UInt8) :
    unixFact behind .size info mtime token rest = (.size, { info with
      size := (if isdigit (token.headD 0) then (parseFtpNumber token 0 offtMax).1 else ftpSizeUnknown) }, mtime) := by
  rw [unixFact, if_neg]
  · split <;> simp_all
  · rintro ⟨_, three, month⟩
    obtain ⟨a, b, c, rfl⟩ := List.length_eq_three.mp three
    exact month (parseMonth_three a b c _ (notMonth a b c rfl))

theorem headD_decimal (n : Nat) : isdigit ((decimal n).headD 0) = true := by
  obtain ⟨digit, digits, shape⟩ := List.exists_cons_of_ne_nil (decimal_ne_nil n)
  have member : digit ∈ decimal n := by
    rw [shape]
    exact List.mem_cons_self
  rw [shape]
  exact isdigit_decimal member

theorem notMonth_decimal (n : Nat) : ∀ a b c, decimal n = [a, b, c] → month2num (a, b, c) = -1 := by
  intro a b c shape
  apply month2num_digit
  have first := headD_decimal n
  rwa [shape] at first

theorem unixFact_number {size : Nat} (small : size < 2 ^ 63) (rest : List UInt8) :
    unixFact behind .size info mtime (decimal size) rest = (.size, { info with size }, mtime) := by
  rw [unixFact_size behind info mtime (notMonth_decimal size), if_pos (headD_decimal size), parseFtpNumber_decimal
    small]

theorem unixFact_month {month : Nat} (january : 1 ≤ month) (december : month ≤ 12) (known : info.size ≠ ftpSizeUnknown)
    (rest : List UInt8) :
    unixFact behind .size info mtime (monthText month) rest = (.day, info, { mtime with mon := month - 1 }) := by
  have named : (parseMonth (monthText month) (rest ++ behind)).1 = month - 1 := by
    interval_cases month <;> rfl
  rw [unixFact, named, if_pos ⟨known, rfl, by omega⟩]

theorem unixFact_day {day : Nat} (small : day < 100) (rest : List UInt8) :
    unixFact behind .day info mtime (decimal day) rest = (.time, info, { mtime with mday := day }) := by
  rw [unixFact, parseDay_decimal small]

theorem unixFact_year {year : Nat} (long : 1000 ≤ year) (short : year < 10000) (rest : List UInt8) :
    unixFact behind .time info mtime (decimal year) rest = (.name, info, { mtime with year := year - 1900 }) := by
  have noColon : (58 : UInt8) ∉ decimal year := by
    intro member
    exact absurd (decimal_digits member).2 (by decide)
  rw [unixFact, if_neg (by rw [headD_decimal]; decide), if_pos noColon, parseYear_decimal long short]

theorem dropTrailing_other {name : List UInt8} {trailchar : UInt8} (other : name.getLast? ≠ some trailchar) :
    dropTrailing name trailchar = name := by
  rw [dropTrailing, if_neg other]

theorem unixName_file (file : ListedFile) (typed : info.type = file.type) :
    unixName info file.name = some { info with name := file.name } := by
  have unmarked := file.unmarked
  rw [unixName, typed, ListedFile.type]
  cases directory : file.directory with
  | true =>
      rw [directory, if_pos rfl] at unmarked
      simp only [if_true, dropTrailing_other unmarked]
  | false =>
      rw [directory] at unmarked
      simp only [Bool.false_eq_true, if_false] at unmarked ⊢
      rw [dropTrailing_other unmarked, ite_self]

theorem daysInMonth_le (year month : Nat) : daysInMonth year month ≤ 31 := by
  rw [daysInMonth]
  split
  · split <;> decide
  · split <;> decide

theorem CalendarDate.day_le (date : CalendarDate) : date.day ≤ 31 :=
  Nat.le_trans date.last (daysInMonth_le date.year date.month)

theorem word_monthText {month : Nat} (january : 1 ≤ month) (december : month ≤ 12) :
    (32 : UInt8) ∉ monthText month := by
  interval_cases month <;> decide

theorem head_append {token : List UInt8} (written : token ≠ []) (word : (32 : UInt8) ∉ token) (rest : List UInt8) :
    (token ++ rest).head? ≠ some 32 := by
  rw [List.head?_append_of_ne_nil _ written]
  exact fun blank => word (List.mem_of_mem_head? blank)

def midnight (date : CalendarDate) : Tm := ⟨0, 0, 0, date.day, date.month - 1, date.year - 1900, -1⟩

def unixDecoded (file : ListedFile) : FtpFileInfo where
  type := file.type
  name := file.name
  symlink := some []
  size := file.size
  mtime := .mktime (midnight file.date)
  localTimeZone := true
  permissions := file.permissions

theorem unixFacts_name {info : FtpFileInfo} (file : ListedFile) (typed : info.type = file.type)
    {mtime : Tm} (dated : mtime.year ≠ 0) :
    unixFacts now behind .name info mtime file.name =
      some { info with name := file.name, mtime := .mktime mtime, localTimeZone := true } := by
  rw [unixFacts, dif_pos file.named, if_pos rfl, unixName_file info file typed, guessYear, if_neg dated]
  rfl

theorem parse_unixLine (line : UnixLine) :
    parseFtpFileInfo now behind initFtpFileInfo line.text = some (unixDecoded line.file) := by
  obtain ⟨file, links, owner, group, gaps⟩ := line
  have day := file.date.day_le
  have from1970 := file.date.from1970
  have to2069 := file.date.to2069
  have dispatch (src : List UInt8) : parseFtpFileInfo now behind initFtpFileInfo
      ((if file.directory then 100 else 45) :: src) =
      unixFacts now behind .permissions { initFtpFileInfo with type := file.type }
        { clearTm with isdst := -1 } src := by
    rw [ListedFile.type]
    cases file.directory <;> rfl
  have permissions (rest : List UInt8) (mtime : Tm) :
      unixFact behind .permissions { initFtpFileInfo with type := file.type } mtime (modeString file.permissions) rest =
        (.size, { initFtpFileInfo with type := file.type, permissions := file.permissions }, mtime) := by
    rw [unixFact, if_pos (modeString_length _), parseFtpUnixPermissions_modeString file.mode]
  have known : (file.size : Int) ≠ ftpSizeUnknown := by
    rw [ftpSizeUnknown]
    omega
  have months : monthText file.date.month ≠ [] := List.cons_ne_nil _ _
  have modes : modeString file.permissions ≠ [] := List.cons_ne_nil _ _
  rw [UnixLine.text]
  dsimp only
  rw [dispatch,
    unixFacts_word now (by decide) modes (modeString_word _) _
      (head_append (decimal_ne_nil _) (word_decimal _) _) fun rest => permissions rest _,
    unixFacts_word now (by decide) (decimal_ne_nil _) (word_decimal _) _
      (head_append owner.written owner.word _) (unixFact_size _ _ _ (notMonth_decimal _)),
    unixFacts_word now (by decide) owner.written owner.word _
      (head_append group.written group.word _) (unixFact_size _ _ _ owner.notMonth),
    unixFacts_word now (by decide) group.written group.word _
      (head_append (decimal_ne_nil _) (word_decimal _) _) (unixFact_size _ _ _ group.notMonth),
    unixFacts_word now (by decide) (decimal_ne_nil _) (word_decimal _) _
      (head_append months (word_monthText file.date.january file.date.december) _)
      (unixFact_number _ _ _ file.sized),
    unixFacts_word now (by decide) months (word_monthText file.date.january file.date.december) _
      (head_append (decimal_ne_nil _) (word_decimal _) _)
      (unixFact_month _ _ _ file.date.january file.date.december known),
    unixFacts_word now (by decide) (decimal_ne_nil _) (word_decimal _) _
      (head_append (decimal_ne_nil _) (word_decimal _) _) (unixFact_day _ _ _ (by omega)),
    unixFacts_word now (by decide) (decimal_ne_nil _) (word_decimal _) _ file.noBlank
      (unixFact_year _ _ _ (by omega) (by omega)), unixFacts_name now _ file rfl (by dsimp only; omega)]
  rfl

end Unix

section Winnt

theorem checkTime_eq {tm after : Tm} {text rest : List UInt8} (checked : checkTime tm text = some (after, rest)) :
    after = tm := by
  rw [checkTime] at checked
  split at checked
  · exact (Prod.mk.inj (Option.some.inj checked)).1.symm
  · cases checked

theorem parseTime_date {tm after : Tm} {text rest : List UInt8} (parsed : parseTime tm text = some (after, rest)) :
    after.mon = tm.mon ∧ after.mday = tm.mday ∧ after.year = tm.year := by
  rw [parseTime.eq_def] at parsed
  split at parsed
  next =>
    split at parsed
    next =>
      rw [parseSeconds.eq_def] at parsed
      split at parsed
      next =>
        split at parsed
        · split at parsed
          · cases parsed
          · split at parsed
            · rw [checkTime_eq parsed]
              exact ⟨rfl, rfl, rfl⟩
            · cases parsed
        · split at parsed
          · split at parsed
            · rw [checkTime_eq parsed]
              exact ⟨rfl, rfl, rfl⟩
            · cases parsed
          · rw [checkTime_eq parsed]
            exact ⟨rfl, rfl, rfl⟩
      next =>
        rw [checkTime_eq parsed]
        exact ⟨rfl, rfl, rfl⟩
    next => cases parsed
  next => cases parsed

theorem winntKind_mtime (info : FtpFileInfo) (src : List UInt8) : (winntKind info src).mtime = info.mtime := by
  rw [winntKind]
  split
  · rfl
  · split <;> rfl

theorem winntResponse_month {info result : FtpFileInfo} {line : List UInt8}
    (parsed : parseFtpWinntResponse info line = some result) :
    ∃ tm, result.mtime = .mktime tm ∧ tm.mon = (parseFtpNumber line 1 12).1 := by
  rw [parseFtpWinntResponse] at parsed
  split at parsed
  · cases parsed
  · simp only [Option.bind_eq_bind, Option.bind_eq_some_iff] at parsed
    obtain ⟨afterMonth, _, afterDay, _, parsed⟩ := parsed
    split at parsed
    · cases parsed
    · split at parsed
      · cases parsed
      · obtain ⟨⟨tm, afterTime⟩, timed, parsed⟩ := Option.bind_eq_some_iff.mp parsed
        split at parsed
        · cases parsed
        · rw [Option.some.injEq] at parsed
          rw [← parsed, winntKind_mtime]
          exact ⟨tm, rfl, (parseTime_date timed).1⟩

theorem vmsTrailer_mtime (info : FtpFileInfo) (src : List UInt8) : (vmsTrailer info src).mtime = info.mtime := by
  rw [vmsTrailer]
  split
  · rfl
  · split <;> rfl

theorem vmsResponse_mtime {behind line : List UInt8} {info result : FtpFileInfo}
    (parsed : parseFtpVmsResponse behind info line = some result) : ∃ t, result.mtime = .seconds t := by
  rw [parseFtpVmsResponse] at parsed
  split at parsed
  · cases parsed
  · dsimp only at parsed
    split at parsed
    · cases parsed
    · split at parsed
      · cases parsed
      · split at parsed
        · cases parsed
        · rw [Option.some.injEq] at parsed
          rw [← parsed, vmsTrailer_mtime]
          exact ⟨_, rfl⟩

theorem parseFtpNumber_month {month : Nat} (january : 1 ≤ month) (december : month ≤ 12) (rest : List UInt8) :
    (parseFtpNumber (twoDigits month ++ 45 :: rest) 1 12).1 = month := by
  have all : ∀ c ∈ twoDigits month, isdigit c = true := by
    intro c member
    rw [twoDigits, List.mem_pair] at member
    rcases member with rfl | rfl
    · exact isdigit_ofNat (by omega)
    · exact isdigit_ofNat (by omega)
  have value : decimalValue (twoDigits month) = month := by
    simp only [decimalValue, twoDigits, List.foldl_cons, List.foldl_nil, toNat_digit (by omega : month / 10 < 10),
      toNat_digit (by omega : month % 10 < 10)]
    omega
  have number := ftpNumber_digits all (by omega)
  rw [parseFtpNumber, List.takeWhile_append_of_pos all, List.takeWhile_cons_of_neg (by decide), List.append_nil,
    number, value, if_neg (by omega)]

theorem winntLine_head (line : WinntLine) :
    ∃ rest, line.text = twoDigits line.file.date.month ++ 45 :: rest := by
  exact ⟨_, rfl⟩

theorem parse_winntLine {now : Tm} {behind : List UInt8} (line : WinntLine) {info result : FtpFileInfo}
    (parsed : parseFtpFileInfo now behind info line.text = some result) {tm : Tm} (timed : result.mtime = .mktime tm) :
    tm.mon = line.file.date.month := by
  obtain ⟨rest, head⟩ := winntLine_head line
  have january := line.file.date.january
  have december := line.file.date.december
  have digits : isdigit (UInt8.ofNat (48 + line.file.date.month / 10)) = true := isdigit_ofNat (by omega)
  have other : UInt8.ofNat (48 + line.file.date.month / 10) ≠ 43 ∧
      UInt8.ofNat (48 + line.file.date.month / 10) ∉ ([98, 99, 100, 108, 112, 115, 45] : List UInt8) := by
    interval_cases line.file.date.month <;> decide
  rw [head] at parsed
  rw [twoDigits, List.cons_append, parseFtpFileInfo, if_neg other.1, if_neg other.2] at parsed
  split at parsed
  · obtain ⟨t, seconds⟩ := vmsResponse_mtime parsed
    rw [seconds] at timed
    cases timed
  · obtain ⟨other, handed, month⟩ := winntResponse_month parsed
    rw [handed, MTime.mktime.injEq] at timed
    rw [← timed, month]
    exact parseFtpNumber_month january december rest

end Winnt

section Listings

def Listing.Decoded (listing : Listing) (now : Tm) (behind : List UInt8) : Prop :=
  ∃ info, parseFtpFileInfo now behind initFtpFileInfo listing.text = some info ∧ Faithful listing info

theorem unixDecoded_faithful (line : UnixLine) : Faithful (.unix line) (unixDecoded line.file) where
  name := rfl
  type := rfl
  size := fun _ => rfl
  permissions := fun _ => rfl
  time := ⟨midnight line.file.date, rfl, rfl, rfl, rfl⟩

/-- The lines that give back what they show are those in Unix style. -/
theorem parseFtpFileInfo_decoded_iff (listing : Listing) (now : Tm) (behind : List UInt8) :
    listing.Decoded now behind ↔ listing.IsUnix := by
  cases listing with
  | unix line => exact iff_of_true ⟨_, parse_unixLine now behind line, unixDecoded_faithful line⟩ trivial
  | winnt line =>
      refine iff_of_false ?_ id
      rintro ⟨info, parsed, faithful⟩
      obtain ⟨tm, timed, denotes⟩ := faithful.time
      have late := parse_winntLine line parsed timed
      have month := denotes.month
      rw [late] at month
      simp only [Listing.file] at month
      omega

/-- The file "read me", of user `root` and group `adm` -/
def readMeLine : UnixLine where
  file := ⟨false, 420, 1234, ⟨2004, 2, 29, by decide, by decide, by decide, by decide, by decide, by decide⟩,
    [114, 101, 97, 100, 32, 109, 101], by decide, by decide, by decide, by decide, by decide⟩
  links := 1
  owner := ⟨[114, 111, 111, 116], by decide, by decide, fun _ _ _ three => by cases three⟩
  group := ⟨[97, 100, 109], by decide, by decide, fun _ _ _ three => by cases three; decide⟩
  gaps := ![0, 2, 0, 5, 0, 0, 1, 0]

theorem parseFtpFileInfo_decoded_iff_readMe : (Listing.unix readMeLine).Decoded clearTm [] :=
  (parseFtpFileInfo_decoded_iff (.unix readMeLine) clearTm []).mpr trivial

def publicDirectory : WinntLine where
  file := ⟨true, 0, 0, ⟨2005, 1, 15, by decide, by decide, by decide, by decide, by decide, by decide⟩,
    [112, 117, 98], by decide, by decide, by decide, by decide, by decide⟩
  hour := 17
  minute := 10
  dateGap := 1
  timeGap := 6
  fill := 9
  hours := by decide
  minutes := by decide
  column := by decide

/-- January is handed on as month 1. -/
theorem publicDirectory_late : ¬ (Listing.winnt publicDirectory).Decoded clearTm [] := by
  rintro ⟨info, parsed, faithful⟩
  obtain ⟨tm, timed, denotes⟩ := faithful.time
  have late := parse_winntLine publicDirectory parsed timed
  have month := denotes.month
  rw [late] at month
  exact absurd month (by decide)

end Listings

end KcnTools.Ftp
