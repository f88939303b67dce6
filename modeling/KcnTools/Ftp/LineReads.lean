import KcnTools.Ftp.LineDates

/-!
Which positions the parts of a listing line read. All of them stay in front of the end they are
given, except for the month, whose third letter may be behind it.
-/

namespace KcnTools.FtpLine

open CheckedRead CheckedRead.Read
open Date (Tm isdigit digit month2num isTimeSep clearTm)
open Ftp (FtpFileType FtpUnix ftpSizeUnknown offtMax ftpNumber)

section Bounds

variable {line : List UInt8} {last : Nat} {F : Prop} (inside : last ≤ line.length)

def Within (line : List UInt8) {α : Type} (r : α × Nat) : Prop := r.2 ≤ line.length

theorem expect_safe {p : UInt8 → Bool} {i : Nat} (below : i < line.length) : (expect p line i).Safe fun _ => True :=
  (element_safe below).bind fun _ _ => Meets.ite (fun _ => trivial) fun _ => trivial

include inside

theorem laterDigits_safe (date : Nat) :
    (laterDigits line last date).Meets F fun digits => digits.isSome → date + 3 < last := by
  have nothing : (none : Option (UInt8 × UInt8)).isSome → date + 3 < last := fun found => absurd found Bool.false_ne_true
  rw [laterDigits]
  refine Meets.ite (fun near => ?_) fun _ => nothing
  refine (element_safe (by omega)).bind fun d2 _ => Meets.ite (fun _ => nothing) fun _ => ?_
  refine (element_safe (by omega)).bind fun d3 _ => Meets.ite (fun _ => nothing) fun _ => ?_
  exact fun _ => near

theorem parseYear_safe {date : Nat} (start : date ≤ line.length) :
    (parseYear line last date).Meets F (Within line) := by
  rw [parseYear]
  refine Meets.ite (fun _ => start) fun near => ?_
  refine (element_safe (by omega)).bind fun d0 _ => Meets.ite (fun _ => start) fun _ => ?_
  refine (element_safe (by omega)).bind fun d1 _ => Meets.ite (fun _ => start) fun _ => ?_
  refine (laterDigits_safe inside date).bind fun later four => ?_
  cases later with
  | none =>
      refine Meets.ite (fun _ => ?_) fun _ => start
      show date + 2 ≤ line.length
      omega
  | some digits =>
      have far := four rfl
      show date + 4 ≤ line.length
      omega

theorem parseMonth_three {month : Nat} (three : month + 3 ≤ last) :
    (parseMonth line last month).Meets F (Within line) := by
  have start : month ≤ line.length := by omega
  rw [parseMonth]
  refine Meets.ite (fun _ => start) fun near => ?_
  refine (element_safe (by omega)).bind fun a _ => Meets.ite (fun _ => start) fun _ => ?_
  refine (element_safe (by omega)).bind fun b _ => Meets.ite (fun _ => start) fun _ => ?_
  refine (element_safe (by omega)).bind fun c _ => Meets.ite (fun _ => start) fun _ => ?_
  show (if month2num (a, b, c) = -1 then month else month + 3) ≤ line.length
  split <;> omega

theorem parseDay_safe {date : Nat} (start : date ≤ line.length) : (parseDay line last date).Meets F (Within line) := by
  rw [parseDay]
  refine Meets.ite (fun _ => start) fun near => ?_
  refine (element_safe (by omega)).bind fun d0 _ => Meets.ite (fun _ => start) fun _ => ?_
  have next : date + 1 ≤ line.length := by omega
  refine Meets.ite (fun _ => next) fun near => ?_
  refine (element_safe (by omega)).bind fun d1 _ => Meets.ite (fun _ => next) fun _ => ?_
  show date + 2 ≤ line.length
  omega

omit inside in
theorem checkTime_safe (tm : Tm) {time : Nat} (start : time ≤ line.length) : (checkTime tm time).Safe (Within line) :=
  Meets.ite (fun _ => start) fun _ => trivial

theorem parseSeconds_safe (tm : Tm) {date : Nat} (start : date ≤ line.length) :
    (parseSeconds line tm last date).Safe (Within line) := by
  rw [parseSeconds]
  refine Meets.ite (fun _ => checkTime_safe tm start) fun near => ?_
  refine (element_safe (by omega)).bind fun c _ => Meets.ite (fun _ => ?_) fun _ => Meets.ite (fun _ => ?_) fun _ => ?_
  · refine Meets.ite (fun _ => trivial) fun near => ?_
    refine (expect_safe (by omega)).bind fun s1 _ => ?_
    refine (expect_safe (by omega)).bind fun s2 _ => ?_
    exact checkTime_safe _ (by omega)
  · refine (expect_safe (by omega)).bind fun _ _ => ?_
    exact checkTime_safe _ (by omega)
  · exact checkTime_safe tm start

theorem parseTime_safe (tm : Tm) (date : Nat) : (parseTime line tm last date).Safe (Within line) := by
  rw [parseTime]
  refine Meets.ite (fun _ => trivial) fun near => ?_
  refine (expect_safe (by omega)).bind fun h1 _ => ?_
  refine (expect_safe (by omega)).bind fun h2 _ => ?_
  refine (expect_safe (by omega)).bind fun _ _ => ?_
  refine (expect_safe (by omega)).bind fun m1 _ => ?_
  refine (expect_safe (by omega)).bind fun m2 _ => ?_
  exact parseSeconds_safe inside _ (by omega)

theorem parseFtpNumber_safe {src : Nat} (start : src ≤ line.length) (lower upper : Int) :
    (parseFtpNumber line last src lower upper).Meets F (Within line) := by
  rw [parseFtpNumber]
  by_cases near : src ≤ last
  · refine (skipWhile_safe isdigit (by omega)).bind fun pos bounds => ?_
    show pos ≤ line.length
    omega
  · rw [Nat.sub_eq_zero_of_le (by omega)]
    exact start

end Bounds

section Skips

variable {line : List UInt8} {src : Nat} (start : src ≤ line.length)

include start

theorem skipTimeSep_safe : (skipTimeSep line line.length src).Safe (· ≤ line.length) := by
  rw [skipTimeSep]
  refine (skipWhile_safe isTimeSep (by omega)).bind fun date bounds => Meets.ite (fun _ => trivial) fun _ => ?_
  show date ≤ line.length
  omega

theorem skipSpaceEnd_safe : (skipSpaceEnd line src).Safe fun next => src ≤ next ∧ next ≤ line.length :=
  (skipWhile_safe _ (by omega)).imp fun next bounds => by omega

theorem skipNonspaceEnd_safe : (skipNonspaceEnd line src).Safe fun next => src ≤ next ∧ next ≤ line.length :=
  (skipWhile_safe _ (by omega)).imp fun next bounds => by omega

theorem skipSpaceEnd_drop :
    ∃ next, skipSpaceEnd line src = value next ∧ src ≤ next ∧ next ≤ line.length ∧
      line.drop next = Ftp.skipSpace (line.drop src) := by
  obtain ⟨next, same, later, within, text, -⟩ := skipWhile_drop (· = 32) start
  exact ⟨next, same, later, within, text⟩

theorem skipNonspaceEnd_drop :
    ∃ next, skipNonspaceEnd line src = value next ∧ src ≤ next ∧ next ≤ line.length ∧
      line.drop next = Ftp.skipNonspace (line.drop src) ∧
      next = src + ((line.drop src).takeWhile fun c => c ≠ 32).length :=
  skipWhile_drop (fun c => decide (c ≠ 32)) start

end Skips

/-! The month in a date of a line. -/

section Months

variable {line : List UInt8}

def TwoLeft (text : List UInt8) : Prop := ∃ a b, text = [a, b] ∧ a ≠ 0 ∧ b ≠ 0

theorem parseMonth_beyond {month : Nat} (two : TwoLeft (line.drop month)) :
    parseMonth line line.length month = beyond := by
  obtain ⟨a, b, text, first, second⟩ := two
  have length := congrArg List.length text
  rw [List.length_drop, List.length_cons, List.length_singleton] at length
  have third : element line (month + 2) = beyond := by
    rw [element, List.getElem?_eq_none (by omega)]
  rw [parseMonth, if_neg (by omega), element_drop text, value_bind, if_neg first, element_drop (drop_succ text),
    value_bind, if_neg second, third]
  rfl

theorem parseMonth_safe {month : Nat} (start : month ≤ line.length) (enough : ¬ TwoLeft (line.drop month)) :
    (parseMonth line line.length month).Safe (Within line) := by
  by_cases three : month + 3 ≤ line.length
  · exact parseMonth_three (Nat.le_refl _) three
  · rw [parseMonth]
    refine Meets.ite (fun _ => start) fun near => ?_
    obtain ⟨a, b, text⟩ : ∃ a b, line.drop month = [a, b] := by
      apply List.length_eq_two.mp
      rw [List.length_drop]
      omega
    rw [element_drop text, value_bind]
    refine Meets.ite (fun _ => start) fun first => ?_
    rw [element_drop (drop_succ text), value_bind]
    refine Meets.ite (fun _ => start) fun second => ?_
    exact absurd ⟨a, b, text, first, second⟩ enough

def dayNumber (day : List UInt8) : Int := day.foldl (fun number c => number * 10 + digit c) 0

def IsDay (day : List UInt8) : Prop := (day.length = 1 ∨ day.length = 2) ∧ ∀ c ∈ day, isdigit c = true

/-- A date ends with the first two characters of the month: at its beginning, or behind the day. -/
def MonthCut (date : List UInt8) : Prop :=
  (TwoLeft date ∧ ∀ c ∈ date.head?, isdigit c = false) ∨
    ∃ day seps month, date = day ++ seps ++ month ∧ IsDay day ∧ dayNumber day ≤ 31 ∧
      seps ≠ [] ∧ (∀ c ∈ seps, isTimeSep c = true) ∧ TwoLeft month ∧ ∀ c ∈ month.head?, isTimeSep c = false

theorem isTimeSep_isdigit {c : UInt8} (sep : isTimeSep c = true) : isdigit c = false := by
  rw [isTimeSep, Bool.or_eq_true, decide_eq_true_eq, decide_eq_true_eq] at sep
  rcases sep with rfl | rfl <;> rfl

/-! The day and the separators of a text, and their positions in the line. -/

theorem skipTimeSep_seps {seps rest : List UInt8} (filled : seps ≠ []) (all : ∀ c ∈ seps, isTimeSep c = true)
    (other : ∀ c ∈ rest.head?, isTimeSep c = false) : Date.skipTimeSep (seps ++ rest) = some rest := by
  obtain ⟨sep, more, rfl⟩ := List.exists_cons_of_ne_nil filled
  rw [List.cons_append, Date.skipTimeSep, if_pos (all sep (.head _)),
    List.dropWhile_append_of_pos fun c member => all c (.tail _ member)]
  cases rest with
  | nil => rfl
  | cons c rest => rw [List.dropWhile_cons_of_neg (by simp [other c rfl])]

theorem parseDay_read {day rest : List UInt8} (isDay : IsDay day) (other : ∀ c ∈ rest.head?, isdigit c = false) :
    Date.parseDay (day ++ rest) = (dayNumber day, rest) := by
  obtain ⟨length, digits⟩ := isDay
  rcases length with one | two
  · obtain ⟨d0, rfl⟩ := List.length_eq_one_iff.mp one
    have first := digits d0 (.head _)
    cases rest with
    | nil => simp [Date.parseDay, first, dayNumber]
    | cons c rest => simp [Date.parseDay, first, other c rfl, dayNumber]
  · obtain ⟨d0, d1, rfl⟩ := List.length_eq_two.mp two
    have first := digits d0 (.head _)
    have second := digits d1 (.tail _ (.head _))
    simp [Date.parseDay, first, second, dayNumber]

theorem parseDay_isDay {c : UInt8} (digit : isdigit c = true) (rest : List UInt8) :
    ∃ day behind, c :: rest = day ++ behind ∧ IsDay day ∧ Date.parseDay (c :: rest) = (dayNumber day, behind) := by
  have one : IsDay [c] := ⟨.inl rfl, fun d member => List.mem_singleton.mp member ▸ digit⟩
  cases rest with
  | nil => exact ⟨[c], [], rfl, one, parseDay_read one (by simp)⟩
  | cons d1 rest =>
      cases second : isdigit d1 with
      | true =>
          have two : IsDay [c, d1] := by
            refine ⟨.inr rfl, ?_⟩
            rintro d (_ | ⟨_, _ | ⟨_, none⟩⟩)
            · exact digit
            · exact second
            · cases none
          refine ⟨[c, d1], rest, rfl, two, ?_⟩
          simp [Date.parseDay, digit, second, dayNumber]
      | false =>
          refine ⟨[c], d1 :: rest, rfl, one, parseDay_read one ?_⟩
          rintro _ ⟨⟩
          exact second

theorem textFrom_whole (line : List UInt8) (pos : Nat) : textFrom line line.length pos = line.drop pos := by
  rw [textFrom, List.take_length]

theorem parseDay_found {date : Nat} {mday : Int} {rest : List UInt8} (start : date ≤ line.length)
    (found : Date.parseDay (line.drop date) = (mday, rest)) :
    ∃ next, parseDay line line.length date = value (mday, next) ∧ line.drop next = rest ∧ next ≤ line.length := by
  have agrees := parseDay_agrees (Nat.le_refl line.length) date
  rw [textFrom_whole, found] at agrees
  obtain ⟨⟨_, next⟩, same, bound, rfl, text⟩ := agrees.found (parseDay_safe (Nat.le_refl _) start)
  rw [textFrom_whole] at text
  exact ⟨next, same, text, bound⟩

theorem skipTimeSep_found {date : Nat} {rest : List UInt8} (start : date ≤ line.length)
    (found : Date.skipTimeSep (line.drop date) = some rest) :
    ∃ next, skipTimeSep line line.length date = value next ∧ line.drop next = rest ∧ next ≤ line.length := by
  have agrees := skipTimeSep_agrees (Nat.le_refl line.length) date
  rw [textFrom_whole, found] at agrees
  obtain ⟨next, same, bound, text⟩ := agrees.found (skipTimeSep_safe start)
  rw [textFrom_whole] at text
  exact ⟨next, same, text, bound⟩

theorem isDay_head {day : List UInt8} (isDay : IsDay day) : ∃ c rest, day = c :: rest ∧ isdigit c = true := by
  cases day with
  | nil => rcases isDay.1 with one | two <;> contradiction
  | cons c rest => exact ⟨c, rest, rfl, isDay.2 c (.head _)⟩

theorem parseRfcDate_beyond {date : Nat} {day seps month : List UInt8} (start : date ≤ line.length)
    (text : line.drop date = day ++ (seps ++ month)) (isDay : IsDay day) (small : dayNumber day ≤ 31)
    (filled : seps ≠ []) (all : ∀ c ∈ seps, isTimeSep c = true) (two : TwoLeft month)
    (other : ∀ c ∈ month.head?, isTimeSep c = false) : parseRfcDate line line.length date = beyond := by
  have first : ∀ c ∈ (seps ++ month).head?, isdigit c = false := by
    obtain ⟨sep, more, rfl⟩ := List.exists_cons_of_ne_nil filled
    rintro c ⟨⟩
    exact isTimeSep_isdigit (all _ (.head _))
  obtain ⟨dayEnd, found, behind, inside⟩ := parseDay_found start (text ▸ parseDay_read isDay first)
  obtain ⟨next, skipped, left, -⟩ := skipTimeSep_found inside (behind ▸ skipTimeSep_seps filled all other)
  rw [parseRfcDate, found, value_bind]
  dsimp only
  rw [if_neg (by omega), skipped, value_bind, parseMonth_beyond (left ▸ two)]
  rfl

theorem parseRfcDate_safe {date : Nat} {c : UInt8} {rest : List UInt8}
    (text : line.drop date = c :: rest) (digit : isdigit c = true) (uncut : ¬ MonthCut (line.drop date)) :
    (parseRfcDate line line.length date).Safe (Within line) := by
  obtain ⟨day, behind, whole, isDay, found⟩ := parseDay_isDay digit rest
  rw [← text] at whole found
  have start : date ≤ line.length := by
    by_contra outside
    rw [List.drop_eq_nil_of_le (Nat.le_of_not_le outside)] at text
    cases text
  obtain ⟨next, same, left, within⟩ := parseDay_found start found
  have split : line.drop date = day ++ line.drop next := whole.trans (by rw [left])
  rw [parseRfcDate, same, value_bind]
  refine Meets.ite (fun _ => trivial) fun small => ?_
  obtain ⟨month, skipped, later, inside, left, count⟩ := skipWhile_drop isTimeSep within
  rw [skipTimeSep, skipped, value_bind]
  split
  next nothing => trivial
  next moved =>
    rw [value_bind]
    refine (parseMonth_safe inside fun two => uncut (.inr ⟨day, (line.drop next).takeWhile isTimeSep,
      line.drop month, ?_, isDay, by omega, ?_, ?_, two, ?_⟩)).bind fun r bound => ?_
    · rw [split, List.append_assoc, left, List.takeWhile_append_dropWhile]
    · intro none
      rw [none, List.length_nil] at count
      omega
    · exact fun c member => List.mem_takeWhile_imp member
    · intro c head
      rw [left] at head
      have := List.head?_dropWhile_not isTimeSep (line.drop next)
      rw [head] at this
      exact Bool.eq_false_iff.mpr (by simpa using this)
    · refine Meets.ite (fun _ => trivial) fun _ => ?_
      refine (skipTimeSep_safe bound).bind fun date bound => ?_
      refine (parseYear_safe (Nat.le_refl _) bound).bind fun r bound => ?_
      refine Meets.ite (fun _ => trivial) fun _ => ?_
      refine (skipTimeSep_safe bound).bind fun date bound => ?_
      exact parseTime_safe (Nat.le_refl _) _ _

theorem parseAsctimeDate_safe {date : Nat} (start : date ≤ line.length) (enough : ¬ TwoLeft (line.drop date)) :
    (parseAsctimeDate line line.length date).Safe (Within line) := by
  rw [parseAsctimeDate]
  refine (parseMonth_safe start enough).bind fun r bound => Meets.ite (fun _ => trivial) fun _ => ?_
  refine (skipTimeSep_safe bound).bind fun date bound => ?_
  refine (parseDay_safe (Nat.le_refl _) bound).bind fun r bound => Meets.ite (fun _ => trivial) fun _ => ?_
  refine (skipTimeSep_safe bound).bind fun date bound => ?_
  refine (parseTime_safe (Nat.le_refl _) _ _).bind fun r bound => ?_
  refine (skipTimeSep_safe bound).bind fun date bound => ?_
  refine (parseYear_safe (Nat.le_refl _) bound).bind fun r bound => Meets.ite (fun _ => trivial) fun _ => bound

theorem parseDate_safe {date : Nat} (start : date < line.length) (uncut : ¬ MonthCut (line.drop date)) :
    (parseDate line line.length date).Safe (Within line) := by
  obtain ⟨c, rest, text⟩ := List.exists_cons_of_ne_nil (List.drop_eq_nil_iff.not.mpr (Nat.not_le.mpr start))
  rw [parseDate, element_drop text, value_bind]
  dsimp only
  refine Meets.ite (fun digit => ?_) fun digit => ?_
  · exact (parseRfcDate_safe text digit uncut).bind fun r bound => bound
  · refine (parseAsctimeDate_safe (Nat.le_of_lt start) fun two => uncut (.inl ⟨two, ?_⟩)).bind fun r bound => bound
    rw [text]
    rintro c ⟨⟩
    exact Bool.eq_false_iff.mpr digit

theorem parseDate_beyond {date : Nat} (start : date ≤ line.length) (cut : MonthCut (line.drop date)) :
    parseDate line line.length date = beyond := by
  rcases cut with ⟨two, other⟩ | ⟨day, seps, month, text, isDay, small, filled, all, two, other⟩
  · have ⟨a, b, text, _⟩ := two
    rw [text] at other
    rw [parseDate, element_drop text, value_bind, if_neg (by simp [other a rfl]), parseAsctimeDate,
      parseMonth_beyond two]
    rfl
  · rw [List.append_assoc] at text
    obtain ⟨c, rest, rfl, digit⟩ := isDay_head isDay
    rw [parseDate, element_drop text, value_bind, if_pos digit,
      parseRfcDate_beyond start text isDay small filled all two other]
    rfl

end Months

end KcnTools.FtpLine
